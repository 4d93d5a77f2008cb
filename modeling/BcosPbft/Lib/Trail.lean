import Mathlib.Data.List.Basic

/-! Runs of a partial step function that remember the states and events they went through, so that a condition
on a step can speak about the state the step starts in. -/

/-- The run of `step` from `s₀` whose steps start in the states of the trace. -/
inductive Trail {State Event : Type} (step : State → Event → Option State) (s₀ : State) :
    List (State × Event) → State → Prop
  | nil : Trail step s₀ [] s₀
  | snoc {trace : List (State × Event)} {s t : State} {e : Event} (h : Trail step s₀ trace s)
      (hs : step s e = some t) : Trail step s₀ (trace ++ [(s, e)]) t

namespace Trail

variable {State Event : Type} {step : State → Event → Option State} {s₀ s t : State} {trace : List (State × Event)}

/-- The states and events of a list of events, with the state at the end. -/
def states (step : State → Event → Option State) : State → List Event → Option (List (State × Event) × State)
  | s, [] => some ([], s)
  | s, e :: l => (step s e).bind fun t => (states step t l).map fun r => ((s, e) :: r.1, r.2)

theorem append_states {l : List Event} {trace' : List (State × Event)} (h : Trail step s₀ trace s)
    (hl : states step s l = some (trace', t)) : Trail step s₀ (trace ++ trace') t := by
  induction l generalizing s trace trace' with
  | nil =>
    obtain ⟨rfl, rfl⟩ := Prod.mk.inj (Option.some.inj hl)
    rw [List.append_nil]
    exact h
  | cons e l ih =>
    obtain ⟨u, hu, hl⟩ := Option.bind_eq_some_iff.1 hl
    obtain ⟨⟨rest, v⟩, hrest, hl⟩ := Option.map_eq_some_iff.1 hl
    obtain ⟨rfl, rfl⟩ := Prod.mk.inj hl
    rw [← List.singleton_append, ← List.append_assoc]
    exact ih (h.snoc hu) hrest

/-- Evaluating a list of events gives a run. -/
theorem of_states {l : List Event} (h : states step s l = some (trace, t)) : Trail step s trace t := by
  have hpath : Trail step s ([] ++ trace) t := append_states .nil h
  rwa [List.nil_append] at hpath

/-- The steps of an evaluated run are the listed events. -/
theorem mem_events {l : List Event} (h : states step s l = some (trace, t)) {x : State × Event} (hx : x ∈ trace) :
    x.2 ∈ l := by
  induction l generalizing s trace with
  | nil =>
    obtain ⟨rfl, rfl⟩ := Prod.mk.inj (Option.some.inj h)
    cases hx
  | cons e l ih =>
    obtain ⟨u, hu, h⟩ := Option.bind_eq_some_iff.1 h
    obtain ⟨⟨rest, v⟩, hrest, h⟩ := Option.map_eq_some_iff.1 h
    obtain ⟨rfl, rfl⟩ := Prod.mk.inj h
    rcases List.mem_cons.1 hx with rfl | hx
    · exact List.mem_cons_self
    · exact List.mem_cons_of_mem e (ih hrest hx)

/-- Every step of a run was taken. -/
theorem step_of_mem (h : Trail step s₀ trace s) {x : State × Event} (hx : x ∈ trace) : ∃ t, step x.1 x.2 = some t := by
  induction h with
  | nil => cases hx
  | snoc _ hs ih =>
    rcases List.mem_append.1 hx with hx | hx
    · exact ih hx
    · obtain rfl := List.mem_singleton.1 hx
      exact ⟨_, hs⟩

/-- What holds at the start and is kept by the steps that meet a condition holds at the end of a run of such steps. -/
theorem preserves {I : State → Prop} {ok : State → Event → Prop}
    (hstep : ∀ s e t, ok s e → step s e = some t → I s → I t) (h : Trail step s₀ trace s)
    (hok : ∀ x ∈ trace, ok x.1 x.2) (h₀ : I s₀) : I s := by
  induction h with
  | nil => exact h₀
  | snoc _ hs ih =>
    refine hstep _ _ _ (hok _ (List.mem_append_right _ List.mem_cons_self)) hs (ih fun x hx => ?_)
    exact hok x (List.mem_append_left _ hx)

/-- It also holds in the states that the steps start in. -/
theorem preserves_all {I : State → Prop} {ok : State → Event → Prop}
    (hstep : ∀ s e t, ok s e → step s e = some t → I s → I t) (h : Trail step s₀ trace s)
    (hok : ∀ x ∈ trace, ok x.1 x.2) (h₀ : I s₀) : (∀ x ∈ trace, I x.1) ∧ I s := by
  induction h with
  | nil => exact ⟨fun x hx => (by cases hx), h₀⟩
  | @snoc trace s t e h hs ih =>
    obtain ⟨hbefore, hlast⟩ := ih fun x hx => hok x (List.mem_append_left _ hx)
    refine ⟨fun x hx => ?_, hstep s e t (hok _ (List.mem_append_right _ List.mem_cons_self)) hs hlast⟩
    rcases List.mem_append.1 hx with hx | hx
    · exact hbefore x hx
    · rw [List.mem_singleton.1 hx]
      exact hlast

/-- What one of the steps brings about, and the steps that meet a condition keep, holds at the end. -/
theorem reaches {I : State → Prop} {ok : State → Event → Prop}
    (hstep : ∀ s e t, ok s e → step s e = some t → I s → I t) (h : Trail step s₀ trace s)
    (hok : ∀ x ∈ trace, ok x.1 x.2) {x : State × Event} (hx : x ∈ trace) (hI : ∀ t, step x.1 x.2 = some t → I t) : I s := by
  induction h with
  | nil => cases hx
  | @snoc trace s t e h hs ih =>
    rcases List.mem_append.1 hx with hx | hx
    · exact hstep s e t (hok _ (List.mem_append_right _ List.mem_cons_self)) hs
        (ih (fun y hy => hok y (List.mem_append_left _ hy)) hx)
    · rw [List.mem_singleton.1 hx] at hI
      exact hI t hs

end Trail
