import BcosPbft.Lib.OrdMap
import BcosPbft.Lib.Quorum

/-! Messages filed under a key and then under their sender, and the weight of the senders of a key. A table of weights that
is kept beside them agrees with it when every new sender adds its weight. -/

namespace Ballot

variable {K I M : Type*} [LinearOrder K] [LinearOrder I]

/-- The senders of the messages filed under a key. -/
def senders (t : OrdMap K (OrdMap I M)) (k : K) : List I := ((t.find? k).getD ∅).keys

/-- Their weight, summed up in 64 bits. -/
def weight (w : I → UInt64) (t : OrdMap K (OrdMap I M)) (k : K) : UInt64 := Quorum.wrapSum ((senders t k).map w)

def file (t : OrdMap K (OrdMap I M)) (k : K) (i : I) (m : M) : OrdMap K (OrdMap I M) :=
  t.insert k (((t.find? k).getD ∅).insert i m)

theorem mem_senders {t : OrdMap K (OrdMap I M)} {k : K} {i : I} :
    i ∈ senders t k ↔ ∃ l m, t.find? k = some l ∧ l.find? i = some m := by
  unfold senders
  rw [OrdMap.mem_keys]
  cases t.find? k with
  | none => simp
  | some l => simp

theorem senders_nodup (t : OrdMap K (OrdMap I M)) (k : K) : (senders t k).Nodup := OrdMap.keys_nodup _

theorem senders_of_none {t : OrdMap K (OrdMap I M)} {k : K} (h : t.find? k = none) : senders t k = [] := by
  unfold senders
  rw [h]
  rfl

theorem isSome_iff_mem_senders {t : OrdMap K (OrdMap I M)} {k : K} {i : I} :
    ((t.find? k).bind (·.find? i)).isSome = true ↔ i ∈ senders t k := by
  rw [mem_senders, Option.isSome_iff_exists]
  simp only [Option.bind_eq_some_iff]
  constructor
  · rintro ⟨m, l, hl, hm⟩
    exact ⟨l, m, hl, hm⟩
  · rintro ⟨l, m, hl, hm⟩
    exact ⟨m, l, hl, hm⟩

theorem senders_file_ne {t : OrdMap K (OrdMap I M)} {k j : K} (h : j ≠ k) (i : I) (m : M) :
    senders (file t k i m) j = senders t j := by
  unfold senders file
  rw [OrdMap.find?_insert_ne _ _ h]

theorem senders_file_perm {t : OrdMap K (OrdMap I M)} {k : K} {i : I} (m : M) (hnew : i ∉ senders t k) :
    (senders (file t k i m) k).Perm (i :: senders t k) := by
  have hnone : ((t.find? k).getD ∅).find? i = none := by
    cases hf : ((t.find? k).getD ∅).find? i with
    | none => rfl
    | some v => exact absurd (OrdMap.mem_keys.2 ⟨v, hf⟩) hnew
  unfold senders file
  rw [OrdMap.find?_insert_self, Option.getD_some]
  exact OrdMap.keys_insert_perm m hnone

/-- A new sender adds its weight. -/
theorem weight_file (w : I → UInt64) {t : OrdMap K (OrdMap I M)} {k : K} {i : I} (m : M) (hnew : i ∉ senders t k) :
    weight w (file t k i m) k = weight w t k + w i := by
  unfold weight
  rw [Quorum.wrapSum_perm ((senders_file_perm m hnew).map w), List.map_cons, Quorum.wrapSum_cons]

theorem weight_file_ne (w : I → UInt64) {t : OrdMap K (OrdMap I M)} {k j : K} (h : j ≠ k) (i : I) (m : M) :
    weight w (file t k i m) j = weight w t j := by
  unfold weight
  rw [senders_file_ne h]

/-- What is filed was filed before, or is the new message. -/
theorem find?_file {t : OrdMap K (OrdMap I M)} {k j : K} {i i' : I} {m m' : M} {l : OrdMap I M}
    (hl : (file t k i m).find? j = some l) (hm : l.find? i' = some m') :
    (j = k ∧ i' = i ∧ m' = m) ∨ ∃ l₀, t.find? j = some l₀ ∧ l₀.find? i' = some m' := by
  unfold file at hl
  rw [OrdMap.find?_insert] at hl
  split_ifs at hl with hj
  · subst hj
    obtain rfl := Option.some.inj hl
    rw [OrdMap.find?_insert] at hm
    split_ifs at hm with hi
    · exact Or.inl ⟨rfl, hi, (Option.some.inj hm).symm⟩
    · right
      cases hold : t.find? j with
      | none => simp [hold] at hm
      | some l₀ => exact ⟨l₀, rfl, by simpa [hold] using hm⟩
  · exact Or.inr ⟨l, hl, hm⟩

/-- The message filed under a key and a sender. -/
def filed (t : OrdMap K (OrdMap I M)) (k : K) (i : I) : Option M := (t.find? k).bind (·.find? i)

theorem filed_file (t : OrdMap K (OrdMap I M)) (k j : K) (i i' : I) (m : M) :
    filed (file t k i m) j i' = if j = k ∧ i' = i then some m else filed t j i' := by
  unfold filed file
  rw [OrdMap.find?_insert]
  by_cases hj : j = k
  · subst hj
    rw [if_pos rfl, Option.bind_some, OrdMap.find?_insert]
    cases t.find? j <;> simp
  · simp [hj]

theorem mem_senders_iff_filed {t : OrdMap K (OrdMap I M)} {k : K} {i : I} : i ∈ senders t k ↔ (filed t k i).isSome = true :=
  isSome_iff_mem_senders.symm

/-- Every listed key has a message. -/
def Dense (t : OrdMap K (OrdMap I M)) : Prop := ∀ k l, t.find? k = some l → l.entries ≠ []

theorem Dense.exists_filed {t : OrdMap K (OrdMap I M)} (ht : Dense t) {k : K} {l : OrdMap I M} (hl : t.find? k = some l) :
    ∃ i m, filed t k i = some m := by
  obtain ⟨e, he⟩ := List.exists_mem_of_ne_nil _ (ht k l hl)
  refine ⟨e.1, e.2, ?_⟩
  rw [filed, hl, Option.bind_some]
  exact OrdMap.find?_eq_some.2 he

theorem Dense.file {t : OrdMap K (OrdMap I M)} (ht : Dense t) (k : K) (i : I) (m : M) : Dense (file t k i m) := by
  intro j l hl
  unfold Ballot.file at hl
  rw [OrdMap.find?_insert] at hl
  split_ifs at hl
  · obtain rfl := Option.some.inj hl
    intro hnil
    have hself := OrdMap.find?_insert_self ((t.find? k).getD ∅) i m
    rw [OrdMap.find?_eq_some, hnil] at hself
    cases hself
  · exact ht j l hl

/-- Two tables without empty lists are equal when the same messages are filed in them. -/
theorem Dense.ext {t u : OrdMap K (OrdMap I M)} (ht : Dense t) (hu : Dense u) (h : ∀ k i, filed t k i = filed u k i) :
    t = u := by
  apply OrdMap.ext_find?
  intro k
  cases hl : t.find? k with
  | none =>
    cases hl' : u.find? k with
    | none => rfl
    | some l' =>
      obtain ⟨i, m, hm⟩ := hu.exists_filed hl'
      rw [← h, filed, hl] at hm
      cases hm
  | some l =>
    cases hl' : u.find? k with
    | none =>
      obtain ⟨i, m, hm⟩ := ht.exists_filed hl
      rw [h, filed, hl'] at hm
      cases hm
    | some l' =>
      congr 1
      apply OrdMap.ext_find?
      intro i
      have hi := h k i
      rwa [filed, filed, hl, hl', Option.bind_some, Option.bind_some] at hi

/-- The senders of the keys with `p`, each as often as such a key has it. -/
def sendersOf (p : K → Bool) (t : OrdMap K (OrdMap I M)) : List I := (t.entries.filter fun e => p e.1).flatMap (·.2.keys)

section SeveralKeys

variable {p : K → Bool} {t : OrdMap K (OrdMap I M)}

theorem mem_keys_iff_filed {e : K × OrdMap I M} (he : e ∈ t.entries) {i : I} :
    i ∈ e.2.keys ↔ (filed t e.1 i).isSome = true := by
  rw [filed, OrdMap.find?_eq_some.2 he, Option.bind_some, OrdMap.mem_keys, Option.isSome_iff_exists]

theorem mem_sendersOf {i : I} : i ∈ sendersOf p t ↔ ∃ k, p k = true ∧ (filed t k i).isSome = true := by
  simp only [sendersOf, List.mem_flatMap, List.mem_filter]
  constructor
  · rintro ⟨e, ⟨he, hp⟩, hi⟩
    exact ⟨e.1, hp, (mem_keys_iff_filed he).1 hi⟩
  · rintro ⟨k, hp, hi⟩
    have hlisted := hi
    obtain ⟨m, hm⟩ := Option.isSome_iff_exists.1 hi
    obtain ⟨l, hl, -⟩ := Option.bind_eq_some_iff.1 hm
    have he := OrdMap.find?_eq_some.1 hl
    exact ⟨(k, l), ⟨he, hp⟩, (mem_keys_iff_filed he).2 hlisted⟩

/-- Some of the senders come once each if none of them has two of the keys. -/
theorem nodup_filter_sendersOf (q : I → Bool) : ((sendersOf p t).filter q).Nodup ↔
    ∀ i, q i = true → ∀ k k', p k = true → p k' = true → (filed t k i).isSome = true → (filed t k' i).isSome = true →
      k = k' := by
  rw [sendersOf, List.filter_flatMap, List.nodup_flatMap]
  have hkeys : ∀ e ∈ t.entries.filter fun e => p e.1, (e.2.keys.filter q).Nodup :=
    fun e _ => (OrdMap.keys_nodup e.2).filter _
  constructor
  · rintro ⟨-, hpair⟩ i hq k k' hk hk' hi hi'
    by_contra hne
    have hentry : ∀ j, p j = true → (filed t j i).isSome = true →
        ∃ e ∈ t.entries.filter fun e => p e.1, e.1 = j ∧ i ∈ e.2.keys.filter q := by
      intro j hj hij
      obtain ⟨m, hm⟩ := Option.isSome_iff_exists.1 hij
      obtain ⟨l, hl, -⟩ := Option.bind_eq_some_iff.1 hm
      have he := OrdMap.find?_eq_some.1 hl
      exact ⟨(j, l), List.mem_filter.2 ⟨he, hj⟩, rfl, List.mem_filter.2 ⟨(mem_keys_iff_filed he).2 hij, hq⟩⟩
    obtain ⟨e, he, rfl, hie⟩ := hentry k hk hi
    obtain ⟨e', he', rfl, hie'⟩ := hentry k' hk' hi'
    have hsymm : Std.Symm (Function.onFun List.Disjoint fun e : K × OrdMap I M => e.2.keys.filter q) :=
      ⟨fun _ _ h => h.symm⟩
    exact hpair.forall he he' (fun h => hne (congrArg Prod.fst h)) hie hie'
  · intro hone
    refine ⟨hkeys, (t.entries_nodup.filter _).pairwise_of_forall_ne fun e he e' he' hne i hi hi' => hne ?_⟩
    rw [List.mem_filter] at he he' hi hi'
    have hkey := hone i hi.2 e.1 e'.1 he.2 he'.2 ((mem_keys_iff_filed he.1).1 hi.1) ((mem_keys_iff_filed he'.1).1 hi'.1)
    have hval := OrdMap.find?_eq_some.2 he'.1
    rw [← hkey, OrdMap.find?_eq_some.2 he.1] at hval
    exact Prod.ext hkey (Option.some.inj hval)

theorem two_le_count_sendersOf {i : I} {k k' : K} (hk : p k = true) (hk' : p k' = true) (hne : k ≠ k')
    (hi : (filed t k i).isSome = true) (hi' : (filed t k' i).isSome = true) : 2 ≤ (sendersOf p t).count i := by
  by_contra hcount
  have hnodup : ((sendersOf p t).filter (· == i)).Nodup := by
    rw [List.filter_beq, List.nodup_replicate]
    omega
  exact hne ((nodup_filter_sendersOf _).1 hnodup i (beq_self_eq_true i) k k' hk hk' hi hi')

theorem count_sendersOf_le (i : I) : (sendersOf p t).count i ≤ (t.entries.filter fun e => p e.1).length := by
  rw [sendersOf, List.count_flatMap]
  refine (List.sum_le_card_nsmul _ 1 ?_).trans (by simp)
  intro n hn
  obtain ⟨e, -, rfl⟩ := List.mem_map.1 hn
  exact List.nodup_iff_count_le_one.1 (OrdMap.keys_nodup e.2) i

end SeveralKeys

end Ballot
