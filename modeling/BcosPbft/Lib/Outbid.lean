import Mathlib.Data.Finset.Max
import Mathlib.Data.List.Perm.Basic

/-! A scan that holds one element and hands over to a later one with another key and a greater rank. Elements with the key
that is held are passed over, whatever their rank, so the element held in the end need not have the greatest rank. -/

namespace Outbid

variable {α K R : Type*} [DecidableEq K] [LinearOrder R] (key : α → K) (rank : α → R)

/-- The second element takes over from the first. -/
def Outbids (x y : α) : Prop := key x ≠ key y ∧ rank x < rank y

instance (x y : α) : Decidable (Outbids key rank x y) := inferInstanceAs (Decidable (_ ∧ _))

/-- The element held after the list, when `x` is held before it. -/
def pick (x : α) (l : List α) : α := l.foldl (fun x y => if Outbids key rank x y then y else x) x

/-- The way from `x` through the list: each time on to the next element that outbids, until none does. -/
inductive Walk : α → List α → α → Prop
  | stay {x : α} {l : List α} : (∀ y ∈ l, ¬Outbids key rank x y) → Walk x l x
  | next {x y z : α} {pre post : List α} : (∀ w ∈ pre, ¬Outbids key rank x w) → Outbids key rank x y → Walk y post z →
      Walk x (pre ++ y :: post) z

/-- No element of the list has a greater rank than some element with the given key. -/
def Tops (l : List α) (k : K) : Prop := ∃ y ∈ l, key y = k ∧ ∀ w ∈ l, rank w ≤ rank y

instance (l : List α) (k : K) : Decidable (Tops key rank l k) := inferInstanceAs (Decidable (∃ y ∈ _, _))

variable {key rank} {x y z : α} {l : List α}

theorem pick_cons (x y : α) (l : List α) :
    pick key rank x (y :: l) = pick key rank (if Outbids key rank x y then y else x) l := rfl

theorem pick_append (x : α) (l l' : List α) : pick key rank x (l ++ l') = pick key rank (pick key rank x l) l' :=
  List.foldl_append

theorem pick_mem (x : α) (l : List α) : pick key rank x l ∈ x :: l := by
  induction l generalizing x with
  | nil => exact List.mem_cons_self
  | cons y l ih =>
    rw [pick_cons]
    split_ifs
    · exact List.mem_cons_of_mem x (ih y)
    · rcases List.mem_cons.1 (ih x) with h | h
      · rw [h]
        exact List.mem_cons_self
      · exact List.mem_cons_of_mem x (List.mem_cons_of_mem y h)

/-- Nothing takes over where nothing outbids. -/
theorem pick_eq_self (h : ∀ y ∈ l, ¬Outbids key rank x y) : pick key rank x l = x := by
  induction l with
  | nil => rfl
  | cons y l ih =>
    rw [pick_cons, if_neg (h y List.mem_cons_self)]
    exact ih fun w hw => h w (List.mem_cons_of_mem y hw)

theorem Walk.pick_eq (h : Walk key rank x l z) : pick key rank x l = z := by
  induction h with
  | stay hnone => exact pick_eq_self hnone
  | @next x y z pre post hnone hout _ ih => rw [pick_append, pick_eq_self hnone, pick_cons, if_pos hout, ih]

omit [DecidableEq K] in
theorem walk_cons (h : Walk key rank x l z) (hy : ¬Outbids key rank x y) : Walk key rank x (y :: l) z := by
  cases h with
  | stay hnone => exact .stay (List.forall_mem_cons.2 ⟨hy, hnone⟩)
  | @next _ w _ pre post hnone hout hrest =>
    rw [← List.cons_append]
    exact .next (List.forall_mem_cons.2 ⟨hy, hnone⟩) hout hrest

theorem walk_pick (x : α) (l : List α) : Walk key rank x l (pick key rank x l) := by
  induction l generalizing x with
  | nil => exact .stay fun _ hy => (by cases hy)
  | cons y l ih =>
    rw [pick_cons]
    split_ifs with hout
    · rw [← List.nil_append (y :: l)]
      exact .next (fun _ hw => (by cases hw)) hout (ih y)
    · exact walk_cons (ih x) hout

/-- No element with the key `k` has a smaller rank than an element with another key. -/
def Clear (key : α → K) (rank : α → R) (l : List α) (k : K) : Prop :=
  ∀ y ∈ l, key y = k → ∀ w ∈ l, key w ≠ k → rank w ≤ rank y

/-- Once held, a key that is clear of the others stays. -/
theorem key_pick_of_clear {k : K} {l' : List α} (hclear : Clear key rank l' k) (hl : ∀ y ∈ x :: l, y ∈ l')
    (hx : key x = k) : key (pick key rank x l) = k := by
  suffices h : pick key rank x l = x by rw [h, hx]
  refine pick_eq_self fun y hy hout => ?_
  have hle := hclear x (hl x List.mem_cons_self) hx y (hl y (List.mem_cons_of_mem x hy)) (fun h => hout.1 (hx.trans h.symm))
  exact absurd hout.2 (not_lt.2 hle)

theorem key_pick {k : K} {l' : List α} (hclear : Clear key rank l' k) (hl : ∀ y ∈ x :: l, y ∈ l')
    (htop : ∃ y ∈ x :: l, key y = k ∧ ∀ w ∈ l', key w ≠ k → rank w < rank y) : key (pick key rank x l) = k := by
  induction l generalizing x with
  | nil =>
    obtain ⟨y, hy, hk, -⟩ := htop
    obtain rfl := List.mem_singleton.1 hy
    exact hk
  | cons w l ih =>
    obtain ⟨y, hy, hk, htop⟩ := htop
    by_cases hx : key x = k
    · exact key_pick_of_clear hclear hl hx
    have hne : y ≠ x := by
      rintro rfl
      exact hx hk
    rw [pick_cons]
    rcases List.mem_cons.1 ((List.mem_cons.1 hy).resolve_left hne) with rfl | hrest
    · rw [if_pos ⟨fun h => hx (h.trans hk), htop x (hl x List.mem_cons_self) hx⟩]
      exact key_pick_of_clear hclear (fun u hu => hl u (List.mem_cons_of_mem x hu)) hk
    · split_ifs
      · exact ih (fun u hu => hl u (List.mem_cons_of_mem x hu)) ⟨y, List.mem_cons_of_mem w hrest, hk, htop⟩
      · refine ih (fun u hu => ?_) ⟨y, List.mem_cons_of_mem x hrest, hk, htop⟩
        rcases List.mem_cons.1 hu with rfl | hu
        · exact hl u List.mem_cons_self
        · exact hl u (List.mem_cons_of_mem x (List.mem_cons_of_mem w hu))

/-- Another key, once held, stays as long as the key `k` does not come. -/
theorem key_pick_ne {k : K} (hx : key x ≠ k) (hl : ∀ y ∈ l, key y ≠ k) : key (pick key rank x l) ≠ k := by
  have hmem : pick key rank x l ∈ x :: l := pick_mem x l
  rcases List.mem_cons.1 hmem with h | h
  · rw [h]
    exact hx
  · exact hl _ h

/-- An order in which a smaller rank of the key `k` comes first, and a greater rank of another key after all of its others. -/
theorem exists_perm_of_not_clear [DecidableEq α] {k : K} {u w : α} (hu : u ∈ l) (huk : key u = k) (hw : w ∈ l)
    (hwk : key w ≠ k) (hlt : rank u < rank w) : ∃ x l', (x :: l').Perm l ∧ key (pick key rank x l') ≠ k := by
  let same := l.filter (fun y => key y = k)
  let other := l.filter (fun y => !decide (key y = k))
  have husame : u ∈ same := List.mem_filter.2 ⟨hu, decide_eq_true huk⟩
  have hwother : w ∈ other := List.mem_filter.2 ⟨hw, by simpa using hwk⟩
  have hsame : ∀ y ∈ same.erase u, key y = k := fun y hy =>
    of_decide_eq_true (List.mem_filter.1 (List.mem_of_mem_erase hy)).2
  have hother : ∀ y ∈ other.erase w, key y ≠ k := fun y hy => by
    simpa using (List.mem_filter.1 (List.mem_of_mem_erase hy)).2
  refine ⟨u, same.erase u ++ w :: other.erase w, ?_, ?_⟩
  · have hparts : ((u :: same.erase u) ++ (w :: other.erase w)).Perm (same ++ other) :=
      (List.perm_cons_erase husame).symm.append (List.perm_cons_erase hwother).symm
    exact hparts.trans (List.filter_append_perm _ l)
  · rw [pick_append, pick_eq_self (fun y hy hout => hout.1 (huk.trans (hsame y hy).symm)), pick_cons,
      if_pos ⟨fun h => hwk (h.symm.trans huk), hlt⟩]
    exact key_pick_ne hwk hother

/-- Where the greatest rank belongs to one key, every order of the list leads to that key exactly when it is clear of the
others. -/
theorem key_pick_perm_iff [DecidableEq α] {k : K} (hne : l ≠ []) (htop : ∀ y ∈ l, (∀ w ∈ l, rank w ≤ rank y) → key y = k) :
    (∀ x l', (x :: l').Perm l → key (pick key rank x l') = k) ↔ Clear key rank l k := by
  constructor
  · intro hall u hu huk w hw hwk
    by_contra hlt
    obtain ⟨x, l', hperm, hnot⟩ := exists_perm_of_not_clear hu huk hw hwk (not_le.1 hlt)
    exact hnot (hall x l' hperm)
  · intro hclear x l' hperm
    obtain ⟨y, hy, hmax⟩ := l.toFinset.exists_max_image rank (List.toFinset_nonempty_iff l |>.2 hne)
    simp only [List.mem_toFinset] at hy hmax
    refine key_pick hclear (fun u hu => hperm.mem_iff.1 hu) ⟨y, hperm.mem_iff.2 hy, htop y hy hmax, fun w hw hwk => ?_⟩
    refine lt_of_le_of_ne (hmax w hw) fun heq => hwk (htop w hw fun u hu => ?_)
    rw [heq]
    exact hmax u hu

end Outbid
