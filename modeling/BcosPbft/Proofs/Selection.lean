import BcosPbft.Lib.Outbid
import BcosPbft.Proofs.PrePrepareList

/-! Which of the prepared proposals of an index is proposed again. The scan over the view changes holds one message for each
index and passes over those with the hash it holds, so a proposal of a lower view can take over from a hash that was prepared
in a higher one. -/

namespace BcosPbft

def preparedAt (viewChanges : OrdMap IndexType ViewChangeMsg) (i : Int) : List PBFTMessage :=
  (viewChanges.values.flatMap (·.preparedProposals)).filter (fun q => q.index = i)

namespace Node

def lowestCommitted (s : Node) : Int := (s.maxCommittedIndex.find? s.cfg.toView).getD s.cfg.committedIndex

def highestPrepared (s : Node) : Int := (s.maxPrecommitIndex.find? s.cfg.toView).getD s.cfg.progressedIndex

/-- The message that `generatePrePrepareMsg` holds for the index after all view changes. -/
def chosen (s : Node) (viewChanges : OrdMap IndexType ViewChangeMsg) (i : Int) : Option PBFTMessage :=
  (viewChanges.values.foldl (fun t (m : ViewChangeMsg) =>
    m.preparedProposals.foldl (selectPrepared s.lowestCommitted m.generatedFrom) t) ∅).find? i

end Node

/-- The held message and a prepared one differ at most in the node they are said to come from. -/
structure PBFTMessage.Resembles (m q : PBFTMessage) : Prop where
  hash : m.hash = q.hash
  view : m.view = q.view
  consensusProposal : m.consensusProposal = q.consensusProposal

/-- The prepared proposal that the scan ends with. -/
abbrev pickPrepared (x : PBFTMessage) (l : List PBFTMessage) : PBFTMessage :=
  Outbid.pick PBFTMessage.hash PBFTMessage.view x l

def Elects (table : OrdMap Int PBFTMessage) (i : Int) : List PBFTMessage → Prop
  | [] => table.find? i = none
  | x :: l => ∃ m, table.find? i = some m ∧ m.Resembles (pickPrepared x l)

theorem find?_selectPrepared_ne (lo : Int) (table : OrdMap Int PBFTMessage) {q : PBFTMessage} {i : Int} (hq : q.index ≠ i)
    (generatedFrom : IndexType) : (Node.selectPrepared lo generatedFrom table q).find? i = table.find? i := by
  unfold Node.selectPrepared
  split_ifs
  · rfl
  split
  · split_ifs
    · exact OrdMap.find?_insert_ne _ _ (Ne.symm hq)
    · rfl
  · exact OrdMap.find?_insert_ne _ _ (Ne.symm hq)

namespace Elects

variable {lo i : Int} {table : OrdMap Int PBFTMessage} {l : List PBFTMessage} {q : PBFTMessage}

theorem other (hq : q.index ≠ i) (generatedFrom : IndexType) (h : Elects table i l) :
    Elects (Node.selectPrepared lo generatedFrom table q) i l := by
  have hfind := find?_selectPrepared_ne lo table hq generatedFrom
  cases l with
  | nil => exact hfind.trans h
  | cons x l =>
    obtain ⟨m, hm, hresembles⟩ := h
    exact ⟨m, hfind.trans hm, hresembles⟩

theorem same (hlo : lo ≤ q.index) (generatedFrom : IndexType) (h : Elects table q.index l) :
    Elects (Node.selectPrepared lo generatedFrom table q) q.index (l ++ [q]) := by
  unfold Node.selectPrepared
  rw [if_neg (not_lt.2 hlo)]
  cases l with
  | nil =>
    unfold Elects at h
    rw [h]
    exact ⟨_, OrdMap.find?_insert_self _ _ _, rfl, rfl, rfl⟩
  | cons x l =>
    obtain ⟨m, hm, hresembles⟩ := h
    rw [hm]
    have hpick : pickPrepared x (l ++ [q]) =
        if (pickPrepared x l).hash ≠ q.hash ∧ (pickPrepared x l).view < q.view then q else pickPrepared x l :=
      Outbid.pick_append x l [q]
    rw [← hresembles.hash, ← hresembles.view] at hpick
    change ∃ m' : PBFTMessage, _ ∧ m'.Resembles (pickPrepared x (l ++ [q]))
    rw [hpick]
    by_cases htake : m.hash ≠ q.hash ∧ m.view < q.view
    · rw [if_pos htake]
      dsimp only
      rw [if_pos (by simp [htake.1, htake.2])]
      exact ⟨q, OrdMap.find?_insert_self _ _ _, rfl, rfl, rfl⟩
    · rw [if_neg htake]
      dsimp only
      rw [if_neg (by simpa only [ne_eq, Bool.and_eq_true, decide_eq_true_eq] using htake)]
      exact ⟨m, hm, hresembles⟩

theorem foldl (hlo : lo ≤ i) (generatedFrom : IndexType) (qs : List PBFTMessage) (h : Elects table i l) :
    Elects (qs.foldl (Node.selectPrepared lo generatedFrom) table) i (l ++ qs.filter (fun q => q.index = i)) := by
  induction qs generalizing table l with
  | nil => simpa using h
  | cons q qs ih =>
    by_cases hq : q.index = i
    · subst hq
      have hnext := ih (h.same hlo generatedFrom)
      rwa [List.filter_cons_of_pos (by simp), List.append_cons]
    · rw [List.filter_cons_of_neg (by simpa using hq)]
      exact ih (h.other hq generatedFrom)

theorem viewChanges (hlo : lo ≤ i) (vs : List ViewChangeMsg) (h : Elects table i l) :
    Elects (vs.foldl (fun t m => m.preparedProposals.foldl (Node.selectPrepared lo m.generatedFrom) t) table) i
      (l ++ (vs.flatMap (·.preparedProposals)).filter (fun q => q.index = i)) := by
  induction vs generalizing table l with
  | nil => simpa using h
  | cons v vs ih =>
    have hnext := ih (h.foldl hlo v.generatedFrom v.preparedProposals)
    rwa [List.append_assoc, ← List.filter_append] at hnext

end Elects

theorem Node.chosen_of_preparedAt {s : Node} {viewChanges : OrdMap IndexType ViewChangeMsg} {i : Int} {x : PBFTMessage}
    {l : List PBFTMessage} (hi : s.lowestCommitted ≤ i) (hl : preparedAt viewChanges i = x :: l) :
    ∃ m, s.chosen viewChanges i = some m ∧ m.Resembles (pickPrepared x l) := by
  have hempty : Elects ∅ i [] := rfl
  have h := hempty.viewChanges hi viewChanges.values
  rw [List.nil_append] at h
  change Elects _ i (preparedAt viewChanges i) at h
  rwa [hl] at h

theorem generatePrePrepareMsg_entry {E : Env} {s : Node} {viewChanges : OrdMap IndexType ViewChangeMsg}
    {list : List PBFTMessage} {n : Nat} {i : Int} {e m : PBFTMessage}
    (h : s.generatePrePrepareMsg E viewChanges = some list)
    (hi : (Node.indexRange s.lowestCommitted s.highestPrepared)[n]? = some i) (he : list[n]? = some e)
    (hm : s.chosen viewChanges i = some m) : ∃ p, m.consensusProposal = some p ∧
      e = populatePrePrepare .PrePreparePacket p 0 s.cfg.toView s.utcTime m.generatedFrom := by
  have hentry : s.prePrepareFor E (viewChanges.values.foldl (fun t (m : ViewChangeMsg) =>
      m.preparedProposals.foldl (Node.selectPrepared s.lowestCommitted m.generatedFrom) t) ∅) i = some e := by
    obtain ⟨hn, rfl⟩ := List.getElem?_eq_some_iff.1 he
    obtain ⟨hn', rfl⟩ := List.getElem?_eq_some_iff.1 hi
    exact (List.forall₂_iff_get.1 (forall₂_of_mapM h)).2 n hn' hn
  unfold Node.prePrepareFor at hentry
  unfold Node.chosen at hm
  rw [hm] at hentry
  obtain ⟨p, hp, rfl⟩ := Option.map_eq_some_iff.1 hentry
  exact ⟨p, hp, rfl⟩

theorem generatePrePrepareMsg_chosen {E : Env} {s : Node} {viewChanges : OrdMap IndexType ViewChangeMsg}
    {list : List PBFTMessage} {n : Nat} {i : Int} {e m : PBFTMessage}
    (h : s.generatePrePrepareMsg E viewChanges = some list)
    (hi : (Node.indexRange s.lowestCommitted s.highestPrepared)[n]? = some i) (he : list[n]? = some e)
    (hm : s.chosen viewChanges i = some m) : e.consensusProposal = m.consensusProposal := by
  obtain ⟨p, hp, rfl⟩ := generatePrePrepareMsg_entry h hi he hm
  exact hp.symm

/-- The greatest view among the prepared proposals belongs to one with this hash. -/
abbrev HighestView (l : List PBFTMessage) (h : HashType) : Prop := Outbid.Tops PBFTMessage.hash PBFTMessage.view l h

/-- From the first prepared proposal on to the next one with another hash and a greater view, until there is none. -/
abbrev LeadsTo (x : PBFTMessage) (l : List PBFTMessage) (z : PBFTMessage) : Prop :=
  Outbid.Walk PBFTMessage.hash PBFTMessage.view x l z

/-- The chosen hash was prepared in the greatest view exactly when the way through the prepared proposals ends at such a hash;
when one hash has the greatest view, this is so for every arrangement of the proposals exactly when no proposal of that hash
has a smaller view than one of another hash. -/
theorem generatePrePrepareMsg_highest_iff {E : Env} {s : Node} {i : Int} (hi : s.lowestCommitted ≤ i) :
    (∀ (viewChanges : OrdMap IndexType ViewChangeMsg) (x : PBFTMessage) (l : List PBFTMessage),
      preparedAt viewChanges i = x :: l →
      ∃ m, s.chosen viewChanges i = some m ∧
        (∀ (list : List PBFTMessage) (n : Nat) (e : PBFTMessage), s.generatePrePrepareMsg E viewChanges = some list →
          (Node.indexRange s.lowestCommitted s.highestPrepared)[n]? = some i → list[n]? = some e →
          e.consensusProposal = m.consensusProposal) ∧
        (∃ q ∈ x :: l, m.Resembles q) ∧
        (HighestView (x :: l) m.hash ↔ ∃ z, LeadsTo x l z ∧ HighestView (x :: l) z.hash)) ∧
    ∀ (l : List PBFTMessage) (h : HashType), l ≠ [] →
      (∀ q ∈ l, q.index = i) → (∀ q ∈ l, (∀ q' ∈ l, q'.view ≤ q.view) → q.hash = h) →
      ((∀ viewChanges, (preparedAt viewChanges i).Perm l → ∃ m, s.chosen viewChanges i = some m ∧ m.hash = h) ↔
        ∀ q ∈ l, q.hash = h → ∀ q' ∈ l, q'.hash ≠ h → q'.view ≤ q.view) := by
  constructor
  · intro viewChanges x l hl
    obtain ⟨m, hm, hresembles⟩ := Node.chosen_of_preparedAt hi hl
    refine ⟨m, hm, fun list n e hlist hn he => generatePrePrepareMsg_chosen hlist hn he hm, ⟨_, Outbid.pick_mem x l, hresembles⟩,
      ?_⟩
    rw [hresembles.hash]
    constructor
    · exact fun htop => ⟨_, Outbid.walk_pick x l, htop⟩
    · rintro ⟨z, hwalk, htop⟩
      rwa [show pickPrepared x l = z from hwalk.pick_eq]
  · intro l h hne hindex htop
    rw [show (∀ q ∈ l, q.hash = h → ∀ q' ∈ l, q'.hash ≠ h → q'.view ≤ q.view) ↔
      Outbid.Clear PBFTMessage.hash PBFTMessage.view l h from Iff.rfl, ← Outbid.key_pick_perm_iff hne htop]
    constructor
    · intro hall x l' hperm
      have hall' : preparedAt (OrdMap.insert ∅ 0 { preparedProposals := x :: l' }) i = x :: l' := by
        change (x :: l' ++ []).filter (fun q => q.index = i) = x :: l'
        rw [List.append_nil, List.filter_eq_self]
        exact fun q hq => decide_eq_true (hindex q (hperm.mem_iff.1 hq))
      obtain ⟨m, hm, hhash⟩ := hall _ (hall' ▸ hperm)
      obtain ⟨m', hm', hresembles⟩ := Node.chosen_of_preparedAt hi hall'
      obtain rfl := Option.some.inj (hm.symm.trans hm')
      exact hresembles.hash.symm.trans hhash
    · intro hall viewChanges hperm
      obtain ⟨x, l', hl⟩ := List.exists_cons_of_ne_nil fun hnil => hne (List.nil_perm.1 (hnil ▸ hperm))
      obtain ⟨m, hm, hresembles⟩ := Node.chosen_of_preparedAt hi hl
      exact ⟨m, hm, hresembles.hash.trans (hall x l' (hl ▸ hperm))⟩

def toyPreparedIn (e : UInt8 × ViewType) : PBFTMessage :=
  populatePrePrepare .PrePreparePacket (Toy.proposal e.1) 0 e.2 0 0

def toyReports (l : List (UInt8 × ViewType)) : OrdMap IndexType ViewChangeMsg :=
  l.zipIdx.foldl (fun t e => t.insert e.2.toUInt64 { preparedProposals := [toyPreparedIn e.1] }) ∅

/-- The block with content 8 is prepared in the greater view, and is chosen in this order and in every other. -/
theorem toyReports_highest :
    (∃ m, (Toy.node 0 [1, 1, 1, 1]).chosen (toyReports [(7, 1), (8, 2)]) 1 = some m ∧
      HighestView [toyPreparedIn (7, 1), toyPreparedIn (8, 2)] m.hash) ∧
    ∀ viewChanges, (preparedAt viewChanges 1).Perm [toyPreparedIn (7, 1), toyPreparedIn (8, 2)] →
      ∃ m, (Toy.node 0 [1, 1, 1, 1]).chosen viewChanges 1 = some m ∧ m.hash = Toy.checksum [1, 8] := by
  have hlowest : (Toy.node 0 [1, 1, 1, 1]).lowestCommitted ≤ 1 := by decide +kernel
  constructor
  · obtain ⟨m, hm, -, -, hiff⟩ := (generatePrePrepareMsg_highest_iff (E := Toy.env) hlowest).1
      (toyReports [(7, 1), (8, 2)]) (toyPreparedIn (7, 1)) [toyPreparedIn (8, 2)] (by decide +kernel)
    exact ⟨m, hm, hiff.2 ⟨_, Outbid.walk_pick _ _, by decide +kernel⟩⟩
  · exact ((generatePrePrepareMsg_highest_iff (E := Toy.env) hlowest).2 [toyPreparedIn (7, 1), toyPreparedIn (8, 2)]
      (Toy.checksum [1, 8]) (by simp) (by decide +kernel) (by decide +kernel)).2 (by decide +kernel)

/-- The block with content 7 is prepared in view 3, but only after it was held from view 1: the block of view 2 is chosen.
With the first two reports exchanged it is the other way round. -/
theorem toyReports_lower :
    (∃ m, (Toy.node 0 [1, 1, 1, 1]).chosen (toyReports [(7, 1), (7, 3), (8, 2)]) 1 = some m ∧
      m.hash = Toy.checksum [1, 8] ∧ ¬HighestView (preparedAt (toyReports [(7, 1), (7, 3), (8, 2)]) 1) m.hash) ∧
    ∃ m, (Toy.node 0 [1, 1, 1, 1]).chosen (toyReports [(7, 3), (7, 1), (8, 2)]) 1 = some m ∧ m.hash = Toy.checksum [1, 7] := by
  have hlower : (((Toy.node 0 [1, 1, 1, 1]).chosen (toyReports [(7, 1), (7, 3), (8, 2)]) 1).elim false fun m =>
      decide (m.hash = Toy.checksum [1, 8]) &&
        decide (¬HighestView (preparedAt (toyReports [(7, 1), (7, 3), (8, 2)]) 1) m.hash)) = true := by decide +kernel
  have hhigher : (((Toy.node 0 [1, 1, 1, 1]).chosen (toyReports [(7, 3), (7, 1), (8, 2)]) 1).elim false fun m =>
      decide (m.hash = Toy.checksum [1, 7])) = true := by decide +kernel
  obtain ⟨m, hm, hcheck⟩ := Toy.exists_of_elim hlower
  obtain ⟨m', hm', hcheck'⟩ := Toy.exists_of_elim hhigher
  simp only [Bool.and_eq_true, decide_eq_true_eq] at hcheck
  exact ⟨⟨m, hm, hcheck.1, hcheck.2⟩, m', hm', of_decide_eq_true hcheck'⟩

end BcosPbft
