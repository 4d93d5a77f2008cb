import Mathlib.Logic.Relation

/-! Labelled transition systems from the side of a program: a function runs a sequence of primitive steps
whose labels it may use, and what every primitive step keeps the function keeps. -/

namespace Labelled

variable {State Label α : Type*} {prim : Label → State → State → Prop} {A B : Label → Prop}

/-- Some sequence of primitive steps with labels in `A`. -/
def Steps (prim : Label → State → State → Prop) (A : Label → Prop) : State → State → Prop :=
  Relation.ReflTransGen (fun s t => ∃ l, A l ∧ prim l s t)

namespace Steps

theorem refl (s : State) : Steps prim A s s := Relation.ReflTransGen.refl

theorem trans {s t u : State} (h : Steps prim A s t) (h' : Steps prim A t u) : Steps prim A s u :=
  Relation.ReflTransGen.trans h h'

theorem single {s t : State} {l : Label} (hl : A l) (h : prim l s t) : Steps prim A s t :=
  Relation.ReflTransGen.single ⟨l, hl, h⟩

theorem foldl {f : State → α → State} (hf : ∀ s a, Steps prim A s (f s a)) (l : List α) (s : State) :
    Steps prim A s (l.foldl f s) := by
  induction l generalizing s with
  | nil => exact refl s
  | cons a l ih => exact (hf s a).trans (ih (f s a))

theorem foldlM {f : State → α → Option State} (hf : ∀ s a t, f s a = some t → Steps prim A s t) {l : List α}
    {s t : State} (h : l.foldlM f s = some t) : Steps prim A s t := by
  induction l generalizing s with
  | nil =>
    obtain rfl : s = t := by simpa using h
    exact refl s
  | cons a l ih =>
    rw [List.foldlM_cons] at h
    obtain ⟨u, hu, h⟩ := Option.bind_eq_some_iff.1 h
    exact (hf s a u hu).trans (ih h)

/-- What a primitive step with a label in `A` keeps, a sequence of them keeps. -/
theorem preserves {I : State → Prop} (hI : ∀ l s t, A l → prim l s t → I s → I t) {s t : State}
    (h : Steps prim A s t) (hs : I s) : I t := by
  induction h with
  | refl => exact hs
  | tail _ hstep ih =>
    obtain ⟨l, hl, hp⟩ := hstep
    exact hI l _ _ hl hp ih

theorem mono {s t : State} (hAB : ∀ l, A l → B l) (h : Steps prim A s t) : Steps prim B s t :=
  h.preserves (I := Steps prim B s) (fun l _ _ hl hp hs => hs.trans (single (hAB l hl) hp)) (refl s)

end Steps

end Labelled
