import BcosPbft.Lib.OrdMap
import Mathlib.Order.Bounds.Basic

/-! The greatest element seen so far, kept for each key of a table: an entry is replaced only by a greater
element, so it tracks the greatest element of the set of those that came. -/

namespace RunningMax

variable {K α : Type*} [LinearOrder K] [LinearOrder α]

/-- One more element. -/
def push (o : Option α) (a : α) : Option α := if o.all (· < a) then some a else o

/-- One more element under a key. -/
def record (t : OrdMap K α) (k : K) (a : α) : OrdMap K α := if (t.find? k).all (· < a) then t.insert k a else t

theorem find?_record (t : OrdMap K α) (k j : K) (a : α) :
    (record t k a).find? j = if j = k then push (t.find? k) a else t.find? j := by
  unfold record push
  by_cases hj : j = k
  · subst hj
    split <;> simp
  · rw [if_neg hj]
    split
    · exact t.find?_insert_ne a hj
    · rfl

theorem find?_foldl_record (l : List α) (t : OrdMap K α) (k j : K) :
    (l.foldl (fun t a => record t k a) t).find? j = if j = k then l.foldl push (t.find? k) else t.find? j := by
  induction l generalizing t with
  | nil =>
    by_cases hj : j = k
    · simp [hj]
    · simp [hj]
  | cons a l ih =>
    rw [List.foldl_cons, ih, find?_record, find?_record, List.foldl_cons, if_pos rfl]
    by_cases hj : j = k
    · simp [hj]
    · simp [hj]

/-- The greatest element of the set, `none` when it is empty. -/
structure Tracks (o : Option α) (S : Set α) : Prop where
  greatest : ∀ a, o = some a → IsGreatest S a
  empty : o = none → S = ∅

namespace Tracks

variable {o : Option α} {S : Set α}

theorem none : Tracks (Option.none : Option α) ∅ := ⟨by simp, by simp⟩

theorem exists_of_nonempty (h : Tracks o S) (hne : S.Nonempty) : ∃ a, o = some a ∧ IsGreatest S a := by
  cases o with
  | none =>
    rw [h.empty rfl] at hne
    exact absurd hne Set.not_nonempty_empty
  | some a => exact ⟨a, rfl, h.greatest a rfl⟩

theorem push (h : Tracks o S) (a : α) : Tracks (RunningMax.push o a) (insert a S) := by
  unfold RunningMax.push
  cases o with
  | none =>
    refine ⟨fun b hb => ?_, fun hnone => by simp at hnone⟩
    obtain rfl : a = b := by simpa using hb
    rw [h.empty rfl]
    simp
  | some c =>
    have hc := h.greatest c rfl
    refine ⟨fun b hb => ?_, fun hnone => by split at hnone <;> cases hnone⟩
    split at hb
    · rename_i hlt
      obtain rfl := Option.some.inj hb
      have hca : c < a := by simpa using hlt
      refine ⟨Set.mem_insert a S, fun x hx => ?_⟩
      rcases hx with rfl | hx
      · exact le_refl x
      · exact (hc.2 hx).trans hca.le
    · rename_i hge
      obtain rfl := Option.some.inj hb
      have hac : a ≤ c := by simpa using hge
      refine ⟨Set.mem_insert_of_mem a hc.1, fun x hx => ?_⟩
      rcases hx with rfl | hx
      · exact hac
      · exact hc.2 hx

theorem foldl (h : Tracks o S) (l : List α) : Tracks (l.foldl RunningMax.push o) (S ∪ {a | a ∈ l}) := by
  induction l generalizing o S with
  | nil => simpa using h
  | cons a l ih =>
    have heq : S ∪ {b | b ∈ a :: l} = insert a S ∪ {b | b ∈ l} := by
      ext b
      simp only [Set.mem_union, Set.mem_ofPred_eq, List.mem_cons, Set.mem_insert_iff]
      tauto
    rw [List.foldl_cons, heq]
    exact ih (h.push a)

end Tracks

theorem push_some (a b : α) : push (some a) b = some (max a b) := by
  unfold push
  by_cases hlt : a < b
  · simp [hlt, max_eq_right hlt.le]
  · simp [hlt, max_eq_left (not_lt.1 hlt)]

/-- A floor `z` under the element seen so far stays the floor, whatever else comes. -/
theorem foldl_push_floor (z : α) (l : List α) (o : Option α) :
    l.foldl push (some (max z (o.getD z))) = some (max z ((l.foldl push o).getD z)) := by
  induction l generalizing o with
  | nil => rfl
  | cons a l ih =>
    have hpush : push (some (max z (o.getD z))) a = some (max z ((push o a).getD z)) := by
      rw [push_some]
      cases o with
      | none => simp [push]
      | some b => rw [push_some, Option.getD_some, Option.getD_some, max_assoc]
    rw [List.foldl_cons, List.foldl_cons, hpush, ih]

end RunningMax
