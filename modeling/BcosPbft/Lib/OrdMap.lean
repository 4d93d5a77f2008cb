import Mathlib.Order.Basic
import Mathlib.Data.Finset.Basic
import Mathlib.Data.List.Pairwise

/-! Finite maps whose entries are kept in increasing key order: lookup, insertion, deletion, filtering
and value updates, with the laws that reduce every one of them to lookups. Iteration is over
`entries`, so a fold over the map visits the keys from the smallest to the largest. -/

/-- A finite map as a list of entries with strictly increasing keys. -/
structure OrdMap (K V : Type*) [LinearOrder K] where
  entries : List (K × V)
  sorted : entries.Pairwise (fun a b => a.1 < b.1)

namespace OrdMap

variable {K V W : Type*} [LinearOrder K]

instance [DecidableEq V] : DecidableEq (OrdMap K V) := fun m n =>
  decidable_of_iff (m.entries = n.entries) ⟨fun h => by cases m; cases n; simp_all, fun h => by rw [h]⟩

def empty : OrdMap K V := ⟨[], List.Pairwise.nil⟩

instance : EmptyCollection (OrdMap K V) := ⟨empty⟩
instance : Inhabited (OrdMap K V) := ⟨empty⟩

def lookupList (k : K) : List (K × V) → Option V
  | [] => none
  | (k', v) :: t => if k = k' then some v else lookupList k t

def find? (m : OrdMap K V) (k : K) : Option V := lookupList k m.entries

def contains (m : OrdMap K V) (k : K) : Bool := (m.find? k).isSome

def keys (m : OrdMap K V) : List K := m.entries.map Prod.fst

def values (m : OrdMap K V) : List V := m.entries.map Prod.snd

def dom (m : OrdMap K V) : Finset K := m.keys.toFinset

def insertList (k : K) (v : V) : List (K × V) → List (K × V)
  | [] => [(k, v)]
  | (k', v') :: t =>
    if k < k' then (k, v) :: (k', v') :: t
    else if k = k' then (k, v) :: t
    else (k', v') :: insertList k v t

theorem mem_insertList {k : K} {v : V} {l : List (K × V)} {e : K × V}
    (h : e ∈ insertList k v l) : e = (k, v) ∨ e ∈ l := by
  induction l with
  | nil => simpa [insertList] using h
  | cons a t ih =>
    simp only [insertList] at h
    split_ifs at h with h1 h2
    · simpa using h
    · rcases List.mem_cons.mp h with h | h
      · exact Or.inl h
      · exact Or.inr (List.mem_cons_of_mem _ h)
    · rcases List.mem_cons.mp h with h | h
      · exact Or.inr (by simp [h])
      · rcases ih h with h | h
        · exact Or.inl h
        · exact Or.inr (List.mem_cons_of_mem _ h)

theorem insertList_sorted (k : K) (v : V) (l : List (K × V))
    (h : l.Pairwise (fun a b => a.1 < b.1)) : (insertList k v l).Pairwise (fun a b => a.1 < b.1) := by
  induction l with
  | nil => simp [insertList]
  | cons a t ih =>
    rw [List.pairwise_cons] at h
    simp only [insertList]
    split_ifs with h1 h2
    · refine List.pairwise_cons.mpr ⟨?_, List.pairwise_cons.mpr h⟩
      intro b hb
      rcases List.mem_cons.mp hb with rfl | hb
      · exact h1
      · exact h1.trans (h.1 b hb)
    · subst h2
      exact List.pairwise_cons.mpr h
    · refine List.pairwise_cons.mpr ⟨?_, ih h.2⟩
      intro b hb
      rcases mem_insertList hb with rfl | hb
      · exact lt_of_le_of_ne (not_lt.mp h1) (Ne.symm h2)
      · exact h.1 b hb

/-- `m[k] = v`, as for a `std::map`. -/
def insert (m : OrdMap K V) (k : K) (v : V) : OrdMap K V :=
  ⟨insertList k v m.entries, insertList_sorted k v _ m.sorted⟩

def filter (m : OrdMap K V) (p : K → V → Bool) : OrdMap K V :=
  ⟨m.entries.filter (fun e => p e.1 e.2), m.sorted.filter _⟩

def erase (m : OrdMap K V) (k : K) : OrdMap K V := m.filter (fun k' _ => k' ≠ k)

def mapVal (m : OrdMap K V) (f : K → V → W) : OrdMap K W :=
  ⟨m.entries.map (fun e => (e.1, f e.1 e.2)), List.pairwise_map.mpr m.sorted⟩

theorem lookupList_eq_some {k : K} {v : V} {l : List (K × V)}
    (hs : l.Pairwise (fun a b => a.1 < b.1)) : lookupList k l = some v ↔ (k, v) ∈ l := by
  induction l with
  | nil => simp [lookupList]
  | cons a t ih =>
    obtain ⟨k', v'⟩ := a
    rw [List.pairwise_cons] at hs
    simp only [lookupList]
    split_ifs with h
    · subst h
      constructor
      · rintro ⟨rfl⟩; simp
      · intro hm
        rcases List.mem_cons.mp hm with he | hm
        · cases he; rfl
        · exact absurd (hs.1 _ hm) (lt_irrefl _)
    · rw [ih hs.2]
      simp [h]

theorem find?_eq_some {m : OrdMap K V} {k : K} {v : V} : m.find? k = some v ↔ (k, v) ∈ m.entries :=
  lookupList_eq_some m.sorted

theorem find?_eq_none {m : OrdMap K V} {k : K} : m.find? k = none ↔ ∀ v, (k, v) ∉ m.entries := by
  constructor
  · intro h v hm
    rw [← find?_eq_some, h] at hm
    cases hm
  · intro h
    cases hf : m.find? k with
    | none => rfl
    | some v => exact absurd (find?_eq_some.mp hf) (h v)

@[simp] theorem find?_empty (k : K) : (∅ : OrdMap K V).find? k = none := rfl

@[simp] theorem entries_empty : (∅ : OrdMap K V).entries = [] := rfl

theorem lookupList_insertList (k j : K) (v : V) (l : List (K × V)) :
    lookupList j (insertList k v l) = if j = k then some v else lookupList j l := by
  induction l with
  | nil => simp [insertList, lookupList]
  | cons a t ih =>
    obtain ⟨k', v'⟩ := a
    simp only [insertList]
    split_ifs with h1 h2 h3 h3 h3 <;> simp only [lookupList] <;> grind

theorem find?_insert (m : OrdMap K V) (k j : K) (v : V) :
    (m.insert k v).find? j = if j = k then some v else m.find? j :=
  lookupList_insertList k j v m.entries

@[simp] theorem find?_insert_self (m : OrdMap K V) (k : K) (v : V) :
    (m.insert k v).find? k = some v := by simp [find?_insert]

theorem find?_insert_ne (m : OrdMap K V) {k j : K} (v : V) (h : j ≠ k) :
    (m.insert k v).find? j = m.find? j := by simp [find?_insert, h]

theorem find?_filter (m : OrdMap K V) (p : K → V → Bool) (k : K) :
    (m.filter p).find? k = (m.find? k).filter (p k) := by
  cases hf : m.find? k with
  | none =>
    rw [Option.filter_none, find?_eq_none]
    intro v hv
    exact find?_eq_none.mp hf v (List.mem_filter.mp hv).1
  | some v =>
    have hm := find?_eq_some.mp hf
    rw [Option.filter_some]
    split_ifs with hp
    · exact find?_eq_some.mpr (List.mem_filter.mpr ⟨hm, hp⟩)
    · rw [find?_eq_none]
      intro w hw
      obtain ⟨hw, hpw⟩ := List.mem_filter.mp hw
      have : some v = some w := by rw [← hf, find?_eq_some.mpr hw]
      cases this
      exact hp hpw

theorem find?_erase (m : OrdMap K V) (k j : K) :
    (m.erase k).find? j = if j = k then none else m.find? j := by
  rw [erase, find?_filter]
  split_ifs with h
  · cases m.find? j <;> simp [h]
  · cases m.find? j <;> simp [h]

@[simp] theorem find?_mapVal (m : OrdMap K V) (f : K → V → W) (k : K) :
    (m.mapVal f).find? k = (m.find? k).map (f k) := by
  have key : ∀ l : List (K × V), lookupList k (l.map (fun e => (e.1, f e.1 e.2))) =
      (lookupList k l).map (f k) := by
    intro l
    induction l with
    | nil => rfl
    | cons a t ih =>
      simp only [List.map_cons, lookupList, ih]
      split_ifs with h <;> simp [h]
  exact key m.entries

theorem contains_iff {m : OrdMap K V} {k : K} : m.contains k = true ↔ ∃ v, m.find? k = some v := by
  rw [contains, Option.isSome_iff_exists]

theorem mem_keys {m : OrdMap K V} {k : K} : k ∈ m.keys ↔ ∃ v, m.find? k = some v := by
  simp [keys, find?_eq_some]

@[simp] theorem mem_dom {m : OrdMap K V} {k : K} : k ∈ m.dom ↔ ∃ v, m.find? k = some v := by
  rw [dom, List.mem_toFinset, mem_keys]

@[simp] theorem dom_empty : (∅ : OrdMap K V).dom = ∅ := rfl

theorem dom_insert (m : OrdMap K V) (k : K) (v : V) : (m.insert k v).dom = Insert.insert k m.dom := by
  ext j
  rw [mem_dom, Finset.mem_insert, mem_dom, find?_insert]
  by_cases h : j = k <;> simp [h]

theorem insertList_perm {k : K} (v : V) {l : List (K × V)} (h : lookupList k l = none) :
    (insertList k v l).Perm ((k, v) :: l) := by
  induction l with
  | nil => exact .refl _
  | cons a t ih =>
    obtain ⟨k', v'⟩ := a
    simp only [lookupList] at h
    simp only [insertList]
    split_ifs at h ⊢
    · exact .refl _
    · exact ((ih h).cons _).trans (.swap _ _ _)

/-- A fresh key is one more key. -/
theorem keys_insert_perm {m : OrdMap K V} {k : K} (v : V) (h : m.find? k = none) : (m.insert k v).keys.Perm (k :: m.keys) :=
  (insertList_perm v h).map Prod.fst

theorem keys_nodup (m : OrdMap K V) : m.keys.Nodup := by
  rw [keys, List.Nodup, List.pairwise_map]
  exact m.sorted.imp (fun h => ne_of_lt h)

theorem entries_nodup (m : OrdMap K V) : m.entries.Nodup := by
  refine m.sorted.imp fun {a b} h heq => ?_
  rw [heq] at h
  exact lt_irrefl _ h

/-- A map is what its lookups show. -/
theorem ext_find? {m n : OrdMap K V} (h : ∀ k, m.find? k = n.find? k) : m = n := by
  have hmem : ∀ e : K × V, e ∈ m.entries ↔ e ∈ n.entries := by
    intro e
    rw [← find?_eq_some (m := m) (k := e.1) (v := e.2), ← find?_eq_some (m := n) (k := e.1) (v := e.2), h e.1]
  have hperm := (List.perm_ext_iff_of_nodup m.entries_nodup n.entries_nodup).2 hmem
  have heq : m.entries = n.entries :=
    hperm.eq_of_pairwise (fun a b _ _ hab hba => absurd (hab.trans hba) (lt_irrefl _)) m.sorted n.sorted
  cases m
  cases n
  simp_all

/-- Writing a value for every entry of a map into another one. -/
theorem find?_foldl_insert (m : OrdMap K V) (f : V → W) (t : OrdMap K W) (k : K) :
    (m.entries.foldl (fun t e => t.insert e.1 (f e.2)) t).find? k =
      (m.find? k).elim (t.find? k) (fun v => some (f v)) := by
  obtain ⟨l, hs⟩ := m
  unfold find?
  dsimp only
  induction l generalizing t with
  | nil => rfl
  | cons e l ih =>
    obtain ⟨j, v⟩ := e
    obtain ⟨hj, hs'⟩ := List.pairwise_cons.1 hs
    have hrest := ih (t.insert j (f v)) hs'
    rw [List.foldl_cons, hrest]
    simp only [lookupList]
    split_ifs with hk
    · subst hk
      have hnone : lookupList k l = none := by
        cases hl : lookupList k l with
        | none => rfl
        | some w => exact absurd (hj _ ((lookupList_eq_some hs').1 hl)) (lt_irrefl _)
      rw [hnone]
      exact find?_insert_self t k (f v)
    · cases lookupList k l with
      | none => exact find?_insert_ne t (f v) hk
      | some w => rfl

end OrdMap
