import BcosPbft.Proofs.Recovery
import Mathlib.Algebra.Ring.Int.Defs
import Mathlib.Algebra.Ring.Nat

/-! The range of a request for committed proposals. A start below the first index is enumerated from there, and a sum beyond
the signed numbers wraps around. -/

namespace BcosPbft

namespace LedgerStorage

/-- What a request asks for: the indices of the range from 1 up to the greatest one, in increasing order, as decimal strings. -/
def RequestedKeys (maxCommittedProposalIndex index size : Int) (keys : List String) : Prop :=
  ∃ l : List Int, l.Pairwise (· < ·) ∧
    (∀ i, i ∈ l ↔ index ≤ i ∧ i < index + size ∧ 1 ≤ i ∧ i ≤ maxCommittedProposalIndex) ∧
    keys = l.map fun (i : Int) => toString i

/-- The range starts behind 0 and its end is a signed number, or it is empty and its end is one. -/
def RangeKept (index size : Int) : Prop :=
  (1 ≤ index ∧ index + size ≤ 2 ^ 63) ∨ (index ≤ 0 ∧ size ≤ 0 ∧ -2 ^ 63 < index + size)

theorem batchKeys_pairwise (start last : Int) : (batchKeys start last).Pairwise (· < ·) := by
  rw [batchKeys, List.pairwise_map]
  refine List.pairwise_lt_range.imp fun h => ?_
  omega

theorem eq_batchKeys {l : List Int} {start last : Int} (hl : l.Pairwise (· < ·)) (h : ∀ i, i ∈ l ↔ start ≤ i ∧ i ≤ last) :
    l = batchKeys start last := by
  have hperm : l.Perm (batchKeys start last) :=
    (List.perm_ext_iff_of_nodup (hl.imp fun h => ne_of_lt h) ((batchKeys_pairwise start last).imp fun h => ne_of_lt h)).2
      fun i => by rw [h, mem_batchKeys]
  exact hperm.eq_of_pairwise (fun a b _ _ hab hba => absurd (lt_trans hab hba) (lt_irrefl a)) hl (batchKeys_pairwise start last)

theorem requestedKeys_iff {m index size : Int} {keys : List String} : RequestedKeys m index size keys ↔
    keys = (batchKeys (max index 1) (min (index + size - 1) m)).map fun (i : Int) => toString i := by
  have hmem : ∀ i, i ∈ batchKeys (max index 1) (min (index + size - 1) m) ↔
      index ≤ i ∧ i < index + size ∧ 1 ≤ i ∧ i ≤ m := by
    intro i
    rw [mem_batchKeys]
    omega
  constructor
  · rintro ⟨l, hsorted, hl, rfl⟩
    rw [eq_batchKeys hsorted fun i => (hl i).trans ((hmem i).symm.trans mem_batchKeys)]
  · rintro rfl
    exact ⟨_, batchKeys_pairwise _ _, hmem, rfl⟩

theorem batchKeys_eq_nil {start last : Int} (h : last < start) : batchKeys start last = [] := by
  rw [← List.length_eq_zero_iff, batchKeys_length]
  omega

theorem toInt_sum (start size : Int64) : (start.toUInt64 + size.toUInt64 - 1).toInt64.toInt =
    (start.toInt + size.toInt - 1).bmod (2 ^ 64) := by
  rw [UInt64.toInt64_sub, UInt64.toInt64_add, Int64.toInt64_toUInt64, Int64.toInt64_toUInt64, Int64.toInt_sub,
    Int64.toInt_add]
  exact Int.bmod_sub_bmod

theorem toInt_min (a b : Int64) : (min a b).toInt = min a.toInt b.toInt := by
  show (if a ≤ b then a else b).toInt = _
  split_ifs with h
  · rw [Int64.le_iff_toInt_le] at h
    omega
  · rw [Int64.le_iff_toInt_le] at h
    omega

theorem toInt_endIndex (m start size : Int64) : (endIndex m start size.toUInt64).toInt =
    min ((start.toInt + size.toInt - 1).bmod (2 ^ 64)) m.toInt := by
  rw [endIndex, toInt_min, toInt_sum]

theorem queriedIndices_eq_some {m start : Int64} {offset : UInt64} {l : List Int}
    (h : queriedIndices m start offset = some l) :
    start.toInt ≤ m.toInt ∧ l = batchKeys start.toInt (endIndex m start offset).toInt := by
  unfold queriedIndices at h
  dsimp only at h
  split_ifs at h with hstart
  rw [gt_iff_lt, Int64.lt_iff_toInt_lt] at hstart
  exact ⟨by omega, (Option.some.inj h).symm⟩

theorem asyncGetCommittedProposals_eq_queried {pb : PBObject PBFTProposal} {s : LedgerStorage} {m start size : Int64}
    (hm : s.maxCommittedProposalIndex = m.toInt) (hlast : m ≠ Int64.maxValue) (hsize : 0 ≤ size.toInt)
    (hstart : -2 ^ 63 < start.toInt) (hsum : start.toInt + size.toInt ≤ 2 ^ 63) :
    s.asyncGetCommittedProposals pb start.toInt size.toInt.toNat false =
      (queriedIndices m start size.toUInt64).bind fun l =>
        readProposals pb (l.map fun i => (s.db.proposals.find? i).getD []) [] := by
  have hend := toInt_endIndex m start size
  rw [Int.bmod_eq_of_le (by omega) (by omega)] at hend
  have hmax : m.toInt < 2 ^ 63 - 1 := by
    have hle := Int64.toInt_le m
    have hne : m.toInt ≠ Int64.maxValue.toInt := fun heq => hlast (Int64.toInt_inj.1 heq)
    rw [Int64.toInt_maxValue] at hne hle
    omega
  unfold asyncGetCommittedProposals queriedIndices
  rw [hm]
  dsimp only
  by_cases hle : start.toInt > m.toInt
  · rw [if_pos hle, if_pos (Int64.lt_iff_toInt_lt.2 hle)]
    rfl
  · rw [if_neg hle, if_neg fun h => hle (Int64.lt_iff_toInt_lt.1 h), if_neg (by simp), if_neg fun h => ?_, Option.bind_some, hend,
      Int.toNat_of_nonneg hsize]
    rw [h, Int64.toInt_maxValue] at hend
    omega

end LedgerStorage

open LedgerStorage

theorem Node.committedProposalQuery_eq_some {s : Node} {m index size : Int64} {keys : List String}
    (h : s.committedProposalQuery m index size = some keys) : index.toInt ≤ m.toInt ∧
      keys = (batchKeys index.toInt (endIndex m index size.toUInt64).toInt).map fun (i : Int) => toString i := by
  have hkeys : queriedKeys m index size.toUInt64 = some keys := by
    unfold committedProposalQuery at h
    split at h
    · cases h
    · exact h
  obtain ⟨l, hl, rfl⟩ := Option.map_eq_some_iff.1 hkeys
  obtain ⟨hle, rfl⟩ := queriedIndices_eq_some hl
  exact ⟨hle, rfl⟩

/-- The three ways of the sum: it is a signed number, it wraps around to below the start, or it wraps around to above it. -/
theorem LedgerStorage.endIndex_cases {m start : Int64} (size : Int64) (hle : start.toInt ≤ m.toInt) :
    (-2 ^ 63 ≤ start.toInt + size.toInt - 1 ∧ start.toInt + size.toInt - 1 < 2 ^ 63 ∧
      (endIndex m start size.toUInt64).toInt = min (start.toInt + size.toInt - 1) m.toInt) ∨
    (2 ^ 63 ≤ start.toInt + size.toInt - 1 ∧ (endIndex m start size.toUInt64).toInt < start.toInt) ∨
    (start.toInt + size.toInt - 1 < -2 ^ 63 ∧ start.toInt ≤ (endIndex m start size.toUInt64).toInt) := by
  have hlow := Int64.le_toInt start
  have hslow := Int64.le_toInt size
  have hhigh := Int64.toInt_lt start
  have hshigh := Int64.toInt_lt size
  rw [toInt_endIndex]
  rcases lt_or_ge (start.toInt + size.toInt - 1) (-2 ^ 63) with hunder | hge
  · have hwrap : (start.toInt + size.toInt - 1).bmod (2 ^ 64) = start.toInt + size.toInt - 1 + 2 ^ 64 :=
      (Int.bmod_eq_iff (by decide)).2 ⟨by omega, by omega, by omega⟩
    exact Or.inr (Or.inr ⟨hunder, by omega⟩)
  · rcases lt_or_ge (start.toInt + size.toInt - 1) (2 ^ 63) with hlt | hover
    · have hwrap : (start.toInt + size.toInt - 1).bmod (2 ^ 64) = start.toInt + size.toInt - 1 :=
        Int.bmod_eq_of_le (by omega) (by omega)
      exact Or.inl ⟨hge, hlt, by rw [hwrap]⟩
    · have hwrap : (start.toInt + size.toInt - 1).bmod (2 ^ 64) = start.toInt + size.toInt - 1 - 2 ^ 64 :=
        (Int.bmod_eq_iff (by decide)).2 ⟨by omega, by omega, by omega⟩
      exact Or.inr (Or.inl ⟨hover, by omega⟩)

/-- Whatever index and size a peer sends: the keys that are queried are those of the request exactly when its range is kept. -/
theorem Node.committedProposalQuery_iff {s : Node} {m index size : Int64} {keys : List String}
    (h : s.committedProposalQuery m index size = some keys) :
    RequestedKeys m.toInt index.toInt size.toInt keys ↔ RangeKept index.toInt size.toInt := by
  obtain ⟨hle, rfl⟩ := committedProposalQuery_eq_some h
  have hcases := endIndex_cases size hle
  have hlow := Int64.le_toInt index
  have hslow := Int64.le_toInt size
  have hshigh := Int64.toInt_lt size
  have hmax := Int64.toInt_lt m
  rw [requestedKeys_iff]
  unfold RangeKept
  constructor
  · intro hkeys
    -- a wrong range has another length
    have hlength := congrArg List.length hkeys
    rw [List.length_map, List.length_map, batchKeys_length, batchKeys_length] at hlength
    rcases le_total (index.toInt + size.toInt - 1) m.toInt with hle' | hle'
    · rw [min_eq_left hle'] at hlength hcases
      omega
    · rw [min_eq_right hle'] at hlength hcases
      omega
  · rintro (⟨hindex, hsum⟩ | ⟨hindex, hsize, hsum⟩)
    · rw [show max index.toInt 1 = index.toInt by omega,
        show (endIndex m index size.toUInt64).toInt = min (index.toInt + size.toInt - 1) m.toInt by omega]
    · rw [batchKeys_eq_nil (by omega), batchKeys_eq_nil (by omega)]

theorem Node.committedProposalQuery_kept :
    (Toy.node 0 [1]).committedProposalQuery 10 3 2 = some ((batchKeys 3 4).map fun (i : Int) => toString i) ∧
      RequestedKeys 10 3 2 ((batchKeys 3 4).map fun (i : Int) => toString i) := by
  have hquery : (Toy.node 0 [1]).committedProposalQuery 10 3 2 = some ((batchKeys 3 4).map fun (i : Int) => toString i) := by
    decide +kernel
  exact ⟨hquery, (committedProposalQuery_iff hquery).2 (Or.inl (by decide))⟩

/-- Requests for the indices 0 and 1, for all indices from 5, and for none from below 0. -/
theorem Node.committedProposalQuery_wraps :
    ((Toy.node 0 [1]).committedProposalQuery 10 0 2 = some ["0", "1"] ∧ ¬RequestedKeys 10 0 2 ["0", "1"]) ∧
    ((Toy.node 0 [1]).committedProposalQuery 10 5 Int64.maxValue = some [] ∧ ¬RequestedKeys 10 5 (2 ^ 63 - 1) []) ∧
    ((Toy.node 0 [1]).committedProposalQuery 1 (-1) Int64.minValue = some ["-1", "0", "1"] ∧
      ¬RequestedKeys 1 (-1) (-2 ^ 63) ["-1", "0", "1"]) := by
  have hfew : ∀ {m index size : Int} {keys : List String},
      keys.length ≠ (min (index + size - 1) m + 1 - max index 1).toNat → ¬RequestedKeys m index size keys := by
    intro m index size keys hne hkeys
    rw [requestedKeys_iff] at hkeys
    rw [hkeys, List.length_map, batchKeys_length] at hne
    exact hne rfl
  exact ⟨⟨by decide +kernel, hfew (by decide)⟩, ⟨by decide +kernel, hfew (by decide)⟩, by decide +kernel, hfew (by decide)⟩

end BcosPbft
