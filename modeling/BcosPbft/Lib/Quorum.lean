import Mathlib.Algebra.BigOperators.Group.Finset.Basic
import Mathlib.Algebra.BigOperators.Group.List.Basic
import Mathlib.Algebra.Order.BigOperators.Group.Finset
import Mathlib.Tactic.Linarith

/-! Weighted quorums and the 64-bit sums that collect them. A system whose weights add up to `T` tolerates
faults of weight `(T - 1) / 3`, and a quorum weighs at least the rest. -/

namespace Quorum

def maxFaulty (T : ℕ) : ℕ := (T - 1) / 3

def minRequired (T : ℕ) : ℕ := T - maxFaulty T

theorem three_mul_maxFaulty_lt {T : ℕ} (hT : 1 ≤ T) : 3 * maxFaulty T < T := by
  unfold maxFaulty
  omega

section Intersection

variable {ι : Type*} [DecidableEq ι] (w : ι → ℕ)

/-- Two quorums share more weight than the faulty nodes can have. -/
theorem maxFaulty_lt_inter {T : ℕ} {S S' : Finset ι} (hT : 1 ≤ T) (hunion : ∑ i ∈ S ∪ S', w i ≤ T)
    (hS : minRequired T ≤ ∑ i ∈ S, w i) (hS' : minRequired T ≤ ∑ i ∈ S', w i) :
    maxFaulty T < ∑ i ∈ S ∩ S', w i := by
  have hsum : ∑ i ∈ S ∪ S', w i + ∑ i ∈ S ∩ S', w i = ∑ i ∈ S, w i + ∑ i ∈ S', w i := Finset.sum_union_inter
  have h3 := three_mul_maxFaulty_lt hT
  unfold minRequired at hS hS'
  omega

/-- What is left of the system without the faulty nodes is a quorum. -/
theorem minRequired_le_sdiff {T : ℕ} {U B : Finset ι} (hU : ∑ i ∈ U, w i = T) (hB : B ⊆ U)
    (hfaulty : ∑ i ∈ B, w i ≤ maxFaulty T) : minRequired T ≤ ∑ i ∈ U \ B, w i := by
  have hsum := Finset.sum_sdiff hB (f := w)
  unfold minRequired
  omega

/-- The part of a quorum outside any faulty set outweighs what may be faulty. -/
theorem maxFaulty_lt_sdiff {T : ℕ} {S B : Finset ι} (hT : 1 ≤ T) (hS : minRequired T ≤ ∑ i ∈ S, w i)
    (hB : ∑ i ∈ B, w i ≤ maxFaulty T) : maxFaulty T < ∑ i ∈ S \ B, w i := by
  have hcover : S ⊆ S \ B ∪ B := by
    rw [Finset.sdiff_union_self_eq_union]
    exact Finset.subset_union_left
  have hsub : ∑ i ∈ S, w i ≤ ∑ i ∈ S \ B ∪ B, w i := Finset.sum_le_sum_of_subset hcover
  rw [Finset.sum_union Finset.sdiff_disjoint] at hsub
  have h3 := three_mul_maxFaulty_lt hT
  unfold minRequired at hS
  omega

/-- Two quorums share a node outside any faulty set. -/
theorem exists_mem_inter_not_mem {T : ℕ} {S S' B : Finset ι} (hT : 1 ≤ T) (hunion : ∑ i ∈ S ∪ S', w i ≤ T)
    (hS : minRequired T ≤ ∑ i ∈ S, w i) (hS' : minRequired T ≤ ∑ i ∈ S', w i)
    (hB : ∑ i ∈ B, w i ≤ maxFaulty T) : ∃ i ∈ S ∩ S', i ∉ B := by
  by_contra hall
  push Not at hall
  have hle : ∑ i ∈ S ∩ S', w i ≤ ∑ i ∈ B, w i := Finset.sum_le_sum_of_subset (fun i hi => hall i hi)
  have hlt := maxFaulty_lt_inter w hT hunion hS hS'
  omega

/-- Values that quorums stand behind are equal, if no node outside the faulty set stands behind two. -/
theorem eq_of_quorums {V : Type*} {P : ι → V → Prop} {T : ℕ} {S S' B : Finset ι} {v v' : V} (hT : 1 ≤ T)
    (hunion : ∑ i ∈ S ∪ S', w i ≤ T) (hS : minRequired T ≤ ∑ i ∈ S, w i) (hS' : minRequired T ≤ ∑ i ∈ S', w i)
    (hB : ∑ i ∈ B, w i ≤ maxFaulty T) (hv : ∀ i ∈ S, i ∉ B → P i v) (hv' : ∀ i ∈ S', i ∉ B → P i v')
    (hone : ∀ i ∈ S, i ∉ B → P i v → P i v' → v = v') : v = v' := by
  obtain ⟨i, hi, hgood⟩ := exists_mem_inter_not_mem w hT hunion hS hS' hB
  obtain ⟨hiS, hiS'⟩ := Finset.mem_inter.1 hi
  exact hone i hiS hgood (hv i hiS hgood) (hv' i hiS' hgood)

end Intersection

section Position

variable {α : Type*} (w : α → ℕ)

/-- The weight of the entry at a position, `0` past the end. -/
def weightAt (l : List α) (i : ℕ) : ℕ := (l[i]?).elim 0 w

theorem sum_range_weightAt (l : List α) : ∑ i ∈ Finset.range l.length, weightAt w l i = (l.map w).sum := by
  induction l with
  | nil => rfl
  | cons a t ih =>
    rw [List.length_cons, Finset.sum_range_succ', List.map_cons, List.sum_cons, ← ih]
    simp [weightAt, add_comm]

theorem sum_weightAt_le (l : List α) (S : Finset ℕ) : ∑ i ∈ S, weightAt w l i ≤ (l.map w).sum := by
  -- positions past the end weigh nothing
  have hsub : ∑ i ∈ S ∩ Finset.range l.length, weightAt w l i = ∑ i ∈ S, weightAt w l i := by
    refine Finset.sum_subset Finset.inter_subset_left (fun i hi hout => ?_)
    have hlen : l.length ≤ i := by simpa [hi] using hout
    simp [weightAt, hlen]
  have hrange : ∑ i ∈ S ∩ Finset.range l.length, weightAt w l i ≤ (l.map w).sum := by
    rw [← sum_range_weightAt]
    exact Finset.sum_le_sum_of_subset Finset.inter_subset_right
  exact hsub.symm.trans_le hrange

/-- The same bound when the positions are numbered by a type that embeds into `ℕ`. -/
theorem sum_weightAt_le_of_injective {ι : Type*} {f : ι → ℕ} (hf : Function.Injective f) (l : List α)
    (S : Finset ι) : ∑ i ∈ S, weightAt w l (f i) ≤ (l.map w).sum := by
  classical
  rw [← Finset.sum_image (f := weightAt w l) (fun _ _ _ _ h => hf h)]
  exact sum_weightAt_le w l _

end Position

/-- The running sum of a loop `weight += …`, which wraps. -/
def wrapSum (l : List UInt64) : UInt64 := l.foldl (· + ·) 0

theorem toNat_foldl_add (l : List UInt64) (a : UInt64) :
    (l.foldl (· + ·) a).toNat = (a.toNat + (l.map UInt64.toNat).sum) % 2 ^ 64 := by
  induction l generalizing a with
  | nil => simp [Nat.mod_eq_of_lt a.toNat_lt]
  | cons b t ih =>
    rw [List.foldl_cons, ih, UInt64.toNat_add, List.map_cons, List.sum_cons]
    omega

theorem toNat_wrapSum (l : List UInt64) : (wrapSum l).toNat = (l.map UInt64.toNat).sum % 2 ^ 64 := by
  rw [wrapSum, toNat_foldl_add, UInt64.toNat_zero, Nat.zero_add]

theorem toNat_wrapSum_le (l : List UInt64) : (wrapSum l).toNat ≤ (l.map UInt64.toNat).sum := by
  rw [toNat_wrapSum]
  exact Nat.mod_le _ _

theorem toNat_wrapSum_of_lt {l : List UInt64} (h : (l.map UInt64.toNat).sum < 2 ^ 64) :
    (wrapSum l).toNat = (l.map UInt64.toNat).sum := by
  rw [toNat_wrapSum, Nat.mod_eq_of_lt h]

theorem wrapSum_cons (a : UInt64) (l : List UInt64) : wrapSum (a :: l) = wrapSum l + a := by
  apply UInt64.toNat_inj.1
  rw [toNat_wrapSum, UInt64.toNat_add, toNat_wrapSum, List.map_cons, List.sum_cons]
  omega

theorem wrapSum_eq_zero {l : List UInt64} (h : ∀ a ∈ l, a = 0) : wrapSum l = 0 := by
  induction l with
  | nil => rfl
  | cons a l ih =>
    rw [wrapSum_cons, h a List.mem_cons_self, ih fun b hb => h b (List.mem_cons_of_mem a hb), UInt64.add_zero]

theorem wrapSum_perm {l l' : List UInt64} (h : l.Perm l') : wrapSum l = wrapSum l' := by
  apply UInt64.toNat_inj.1
  rw [toNat_wrapSum, toNat_wrapSum, (h.map UInt64.toNat).sum_eq]

theorem foldl_add_eq_wrapSum {α : Type*} (w : α → UInt64) (l : List α) :
    l.foldl (fun t a => t + w a) 0 = wrapSum (l.map w) := by
  rw [wrapSum, List.foldl_map]

end Quorum
