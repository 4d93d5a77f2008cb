import BcosPbft.Spec.Toy
import Mathlib.Algebra.Ring.Int.Defs
import Mathlib.Algebra.Ring.Nat

/-! The ranges that the sealer is asked to seal. A range stays in the leader period of the index it is computed for, and
behind the end of the last one. Only a reset takes this end back, and `notifyResetSealing` takes it back after the call of the
sealer, so that a range which the answer has notified inside the call is forgotten. -/

namespace BcosPbft

def sealRanges (log : List Action) : List (Int × Int) :=
  log.filterMap fun
    | .sealProposal first last => some (first, last)
    | _ => none

def Node.notified (s t : Node) : List (Int × Int) := sealRanges (t.log.drop s.log.length)

/-- The ranges since the last reset, over any calls of the functions that set the end of the last range and any other
changes of the node, from a given state on: those that the answer of the sealer has notified inside `notifyResetSealing`, and
those after it. -/
inductive SealHistory (s₀ : Node) : List (Int × Int) → List (Int × Int) → Node → Prop
  | init : SealHistory s₀ [] [] s₀
  | notify {inside l : List (Int × Int)} {s : Node} (h : SealHistory s₀ inside l s) (p : Int) :
      SealHistory s₀ inside (l ++ s.notified (s.notifySealer p)) (s.notifySealer p)
  | enforce {inside l : List (Int × Int)} {s : Node} (h : SealHistory s₀ inside l s) (p : Int) :
      SealHistory s₀ [] (s.notified (s.notifySealer p true)) (s.notifySealer p true)
  | reset {inside l : List (Int × Int)} {s : Node} (h : SealHistory s₀ inside l s) (consIndex : Option Int) :
      SealHistory s₀ (s.notified (s.notifyResetSealing consIndex)) [] (s.notifyResetSealing consIndex)
  | reNotify {inside l : List (Int × Int)} {s : Node} (h : SealHistory s₀ inside l s) (i : Int) :
      SealHistory s₀ [] (s.notified (s.reNotifySealer i)) (s.reNotifySealer i)
  | other {inside l : List (Int × Int)} {s t : Node} (h : SealHistory s₀ inside l s)
      (hend : t.cfg.mSealEndIndex = s.cfg.mSealEndIndex) : SealHistory s₀ inside l t

/-- The end of the last range is back at these ranges, or the index lies behind them. -/
def Node.Clears (s : Node) (inside : List (Int × Int)) (p : Int) : Prop :=
  ∀ r ∈ inside, r.2 ≤ s.cfg.mSealEndIndex ∨ r.2 < p

namespace Node

variable {s : Node} {p first last : Int}

def periodEnd (s : Node) (p : Int) : Int :=
  ((UInt64.ofInt p / s.cfg.leaderSwitchPeriod + 1) * s.cfg.leaderSwitchPeriod - 1).toInt64.toInt

/-- A call that notifies the sealer, with the range and the end it sets. -/
structure Notifies (s t : Node) (p first last : Int) : Prop where
  log : t.log = s.log ++ [.sealProposal first last]
  sealEnd : t.cfg.mSealEndIndex = last
  leader : s.cfg.leaderIndex p = s.cfg.nodeIndex
  first_eq : first = max (s.cfg.mSealEndIndex + 1) p
  last_eq : last = min (s.periodEnd p) (s.cfg.highWaterMark - 1)
  ordered : first ≤ last

theorem notifySealer_cases (s : Node) (p : Int) :
    s.notifySealer p = s ∨ ∃ first last, s.Notifies (s.notifySealer p) p first last := by
  generalize ht : s.notifySealer p = t
  unfold notifySealer at ht
  rw [if_neg Bool.false_ne_true] at ht
  dsimp only at ht
  split_ifs at ht with hleader hnew hend hstart hreset
  · exact Or.inl ht.symm
  · exact Or.inl ht.symm
  · exact Or.inl ht.symm
  · exact Or.inl ht.symm
  · exact Or.inl ht.symm
  · subst ht
    exact Or.inr ⟨_, _, rfl, rfl, not_not.1 hleader, rfl, rfl, not_lt.1 hstart⟩

theorem toNat_ofInt {i : Int} (hi : 0 ≤ i) (hi' : i < 2 ^ 64) : (UInt64.ofInt i).toNat = i.toNat := by
  unfold UInt64.ofInt
  rw [UInt64.toNat_ofNat', Int.emod_eq_of_lt hi hi', Nat.mod_eq_of_lt]
  omega

theorem toInt_toInt64 (x : UInt64) : x.toInt64.toInt = x.toNat ∧ x.toNat < 2 ^ 63 ∨ x.toInt64.toInt < 0 := by
  have hx : x.toInt64.toInt = (x.toNat : Int).bmod (2 ^ 64) := by
    have hcast : (Int64.ofNat x.toNat).toInt = (x.toNat : Int).bmod (2 ^ 64) := Int64.toInt_ofNat'
    rwa [← UInt64.toInt64_ofNat', UInt64.ofNat_toNat] at hcast
  have hlt := UInt64.toNat_lt x
  rw [hx]
  rcases Nat.lt_or_ge x.toNat (2 ^ 63) with hlow | hhigh
  · exact Or.inl ⟨Int.bmod_eq_of_le (by omega) (by omega), hlow⟩
  · have hwrap : (x.toNat : Int).bmod (2 ^ 64) = x.toNat - 2 ^ 64 := (Int.bmod_eq_iff (by decide)).2 ⟨by omega, by omega, by omega⟩
    exact Or.inr (by omega)

theorem toNat_periodEnd {x d : UInt64} (hx : x.toNat < 2 ^ 63) (hd : 0 < d.toNat) :
    ((x / d + 1) * d - 1).toNat = (x.toNat / d.toNat + 1) * d.toNat - 1 := by
  have hdiv : x.toNat / d.toNat ≤ x.toNat := Nat.div_le_self _ _
  have hmul : x.toNat / d.toNat * d.toNat ≤ x.toNat := Nat.div_mul_le_self _ _
  have hd' := UInt64.toNat_lt d
  have hone : (x / d + 1).toNat = x.toNat / d.toNat + 1 := by
    rw [UInt64.toNat_add, UInt64.toNat_div]
    exact Nat.mod_eq_of_lt (by change _ + 1 < _; omega)
  have hroom : (x.toNat / d.toNat + 1) * d.toNat < 2 ^ 64 := by
    rw [Nat.add_mul, Nat.one_mul]
    rcases Nat.eq_zero_or_pos (x.toNat / d.toNat) with hzero | hpos
    · rw [hzero]
      omega
    · -- a period that is not the first is at most the number itself
      have hle := Nat.le_mul_of_pos_left d.toNat hpos
      omega
  have hprod : ((x / d + 1) * d).toNat = (x.toNat / d.toNat + 1) * d.toNat := by
    rw [UInt64.toNat_mul, hone, Nat.mod_eq_of_lt hroom]
  have hpos : 0 < (x.toNat / d.toNat + 1) * d.toNat := Nat.mul_pos (Nat.succ_pos _) hd
  rw [UInt64.toNat_sub_of_le, hprod]
  · rfl
  · rw [UInt64.le_iff_toNat_le, hprod]
    exact hpos

theorem periodEnd_cases (hp : 0 ≤ p) (hp' : p < 2 ^ 63) (s : Node) : s.periodEnd p < 0 ∨
    (s.periodEnd p < 2 ^ 63 ∧ ∀ i, p ≤ i → i ≤ s.periodEnd p →
      UInt64.ofInt i / s.cfg.leaderSwitchPeriod = UInt64.ofInt p / s.cfg.leaderSwitchPeriod) := by
  unfold periodEnd
  generalize s.cfg.leaderSwitchPeriod = d
  have hx := toNat_ofInt hp (by omega)
  rcases Nat.eq_zero_or_pos d.toNat with hzero | hpos
  · obtain rfl : d = 0 := UInt64.toNat_inj.1 hzero
    left
    rw [UInt64.mul_zero]
    decide
  · rcases toInt_toInt64 ((UInt64.ofInt p / d + 1) * d - 1) with ⟨heq, hlt⟩ | hneg
    · rw [toNat_periodEnd (by omega) hpos, hx] at heq hlt
      rw [heq]
      refine Or.inr ⟨by exact_mod_cast hlt, fun i hi hi' => UInt64.toNat_inj.1 ?_⟩
      rw [UInt64.toNat_div, UInt64.toNat_div, toNat_ofInt (by omega) (by omega), hx]
      have hle : p.toNat / d.toNat * d.toNat ≤ p.toNat := Nat.div_mul_le_self _ _
      refine Nat.div_eq_of_lt_le (by omega) ?_
      have hend : 0 < (p.toNat / d.toNat + 1) * d.toNat := Nat.mul_pos (Nat.succ_pos _) hpos
      change i.toNat < (p.toNat / d.toNat + 1) * d.toNat
      omega
    · exact Or.inl hneg

theorem Notifies.leads {t : Node} (h : s.Notifies t p first last) (hp : 0 ≤ p) (hp' : p < 2 ^ 63) {i : Int} (hi : first ≤ i)
    (hi' : i ≤ last) : s.cfg.leaderIndex i = s.cfg.nodeIndex := by
  have hfirst := h.first_eq
  have hlast := h.last_eq
  rcases periodEnd_cases hp hp' s with hneg | ⟨-, hsame⟩
  · omega
  · rw [← h.leader]
    unfold Config.leaderIndex Config.leaderIndexInNewViewPeriod
    rw [hsame i (by omega) (by omega)]

theorem notified_of_log {t : Node} {k : List Action} (h : t.log = s.log ++ k) : s.notified t = sealRanges k := by
  unfold notified
  rw [h, List.drop_left]

theorem notified_refl (s : Node) : s.notified s = [] := by
  unfold notified
  rw [List.drop_length]
  rfl

/-- What a call notifies lies behind the end before it and ends with the end that it leaves. -/
theorem notified_notifySealer (s : Node) (p : Int) : (s.notified (s.notifySealer p) = [] ∧ s.notifySealer p = s) ∨
    ∃ first last, s.notified (s.notifySealer p) = [(first, last)] ∧ s.cfg.mSealEndIndex < first ∧ first ≤ last ∧
      (s.notifySealer p).cfg.mSealEndIndex = last := by
  rcases s.notifySealer_cases p with heq | ⟨first, last, h⟩
  · rw [heq]
    exact Or.inl ⟨notified_refl s, rfl⟩
  · have hfirst := h.first_eq
    exact Or.inr ⟨first, last, notified_of_log h.log, by omega, h.ordered, h.sealEnd⟩

theorem notified_enforce (s : Node) (p : Int) : (s.notified (s.notifySealer p true) = [] ∧ s.notifySealer p true = s) ∨
    (s.notified (s.notifySealer p true) = [(p, p)] ∧ p ≤ (s.notifySealer p true).cfg.mSealEndIndex) := by
  unfold notifySealer
  rw [if_pos rfl]
  split_ifs with hleader hnew
  · exact Or.inl ⟨notified_refl s, rfl⟩
  · exact Or.inl ⟨notified_refl s, rfl⟩
  · exact Or.inr ⟨notified_of_log (k := [.sealProposal p p]) rfl, le_max_left p s.cfg.mSealEndIndex⟩

theorem notified_reNotifySealer (s : Node) (i : Int) : (s.notified (s.reNotifySealer i) = []) ∨
    ∃ first last, s.notified (s.reNotifySealer i) = [(first, last)] ∧ first ≤ last ∧
      (s.reNotifySealer i).cfg.mSealEndIndex = last := by
  unfold reNotifySealer
  split_ifs
  · exact Or.inl (notified_refl s)
  · rcases ({ s with cfg := { s.cfg with mSealStartIndex := i - 1, mSealEndIndex := i - 1 } } : Node).notified_notifySealer i with
      ⟨hnone, -⟩ | ⟨first, last, hone, -, hle, hend⟩
    · exact Or.inl hnone
    · exact Or.inr ⟨first, last, hone, hle, hend⟩

end Node

/-- The ranges are increasing and disjoint, and the last of them ends at most where the node has it. -/
structure SealOrdered (l : List (Int × Int)) (s : Node) : Prop where
  proper : ∀ r ∈ l, r.1 ≤ r.2
  increasing : l.Pairwise fun r r' => r.2 < r'.1
  behind : ∀ r ∈ l, r.2 ≤ s.cfg.mSealEndIndex

theorem SealOrdered.nil (s : Node) : SealOrdered [] s :=
  ⟨fun _ hr => absurd hr List.not_mem_nil, List.Pairwise.nil, fun _ hr => absurd hr List.not_mem_nil⟩

theorem SealOrdered.singleton {r : Int × Int} {s : Node} (hr : r.1 ≤ r.2) (hend : r.2 ≤ s.cfg.mSealEndIndex) :
    SealOrdered [r] s := by
  refine ⟨fun r' hr' => ?_, List.pairwise_singleton _ r, fun r' hr' => ?_⟩
  · obtain rfl := List.mem_singleton.1 hr'
    exact hr
  · obtain rfl := List.mem_singleton.1 hr'
    exact hend

theorem SealHistory.ordered {s₀ s : Node} {inside l : List (Int × Int)} (h : SealHistory s₀ inside l s) :
    SealOrdered l s := by
  induction h with
  | init => exact .nil s₀
  | @notify inside l s h p ih =>
    rcases s.notified_notifySealer p with ⟨hnone, heq⟩ | ⟨first, last, hone, hfirst, hle, hend⟩
    · rw [hnone, heq, List.append_nil]
      exact ih
    · rw [hone]
      refine ⟨fun r hr => ?_, ?_, fun r hr => ?_⟩
      · rcases List.mem_append.1 hr with hr | hr
        · exact ih.proper r hr
        · obtain rfl := List.mem_singleton.1 hr
          exact hle
      · refine List.pairwise_append.2 ⟨ih.increasing, List.pairwise_singleton _ _, fun r hr r' hr' => ?_⟩
        obtain rfl := List.mem_singleton.1 hr'
        exact lt_of_le_of_lt (ih.behind r hr) hfirst
      · rw [hend]
        rcases List.mem_append.1 hr with hr | hr
        · have hbehind := ih.behind r hr
          omega
        · obtain rfl := List.mem_singleton.1 hr
          exact le_refl _
  | @enforce inside l s h p ih =>
    rcases s.notified_enforce p with ⟨hnone, -⟩ | ⟨hone, hend⟩
    · rw [hnone]
      exact .nil _
    · rw [hone]
      exact .singleton (le_refl _) hend
  | reset => exact .nil _
  | @reNotify inside l s h i ih =>
    rcases s.notified_reNotifySealer i with hnone | ⟨first, last, hone, hle, hend⟩
    · rw [hnone]
      exact .nil _
    · rw [hone]
      exact .singleton hle hend.ge
  | other h hend ih => exact ⟨ih.proper, ih.increasing, fun r hr => hend ▸ ih.behind r hr⟩

end BcosPbft
