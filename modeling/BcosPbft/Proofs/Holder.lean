import BcosPbft.Proofs.Selection

/-! Whom a proposal of a new view is requested from. The first prepared proposal of an index is marked with the sender of its
view change, and one that takes over keeps the node that its own message is from. -/

namespace BcosPbft

def sentAt (viewChanges : OrdMap IndexType ViewChangeMsg) (i : Int) : List (IndexType × PBFTMessage) :=
  viewChanges.values.flatMap fun (v : ViewChangeMsg) =>
    (v.preparedProposals.filter (fun q => q.index = i)).map fun q => (v.generatedFrom, q)

abbrev Outbids (x y : PBFTMessage) : Prop := Outbid.Outbids PBFTMessage.hash PBFTMessage.view x y

/-- The message that the scan holds for an index, with the node it is said to come from. -/
def heldOf (a : IndexType) (x : PBFTMessage) (l : List PBFTMessage) : PBFTMessage :=
  if ∃ y ∈ l, Outbids x y then pickPrepared x l else x.setGeneratedFrom a

def Holding (table : OrdMap Int PBFTMessage) (i : Int) : List (IndexType × PBFTMessage) → Prop
  | [] => table.find? i = none
  | (a, x) :: l => table.find? i = some (heldOf a x (l.map Prod.snd))

theorem heldOf_of_outbids {a : IndexType} {x : PBFTMessage} {l : List PBFTMessage} (h : ∃ y ∈ l, Outbids x y) :
    heldOf a x l = pickPrepared x l := if_pos h

theorem heldOf_of_stay {a : IndexType} {x : PBFTMessage} {l : List PBFTMessage} (h : ¬∃ y ∈ l, Outbids x y) :
    heldOf a x l = x.setGeneratedFrom a ∧ pickPrepared x l = x :=
  ⟨if_neg h, Outbid.pick_eq_self fun y hy hxy => h ⟨y, hy, hxy⟩⟩

theorem heldOf_append (a : IndexType) (x q : PBFTMessage) (l : List PBFTMessage) :
    heldOf a x (l ++ [q]) = if Outbids (heldOf a x l) q then q else heldOf a x l := by
  have hpick : pickPrepared x (l ++ [q]) = if Outbids (pickPrepared x l) q then q else pickPrepared x l :=
    Outbid.pick_append x l [q]
  by_cases hout : ∃ y ∈ l, Outbids x y
  · have hout' : ∃ y ∈ l ++ [q], Outbids x y := by
      obtain ⟨y, hy, hxy⟩ := hout
      exact ⟨y, List.mem_append_left _ hy, hxy⟩
    rw [heldOf_of_outbids hout, heldOf_of_outbids hout', hpick]
  · obtain ⟨hheld, hstay⟩ := heldOf_of_stay (a := a) hout
    -- the mark changes neither hash nor view
    have hmark : Outbids (x.setGeneratedFrom a) q ↔ Outbids x q := Iff.rfl
    rw [hheld]
    by_cases hq : Outbids x q
    · have hout' : ∃ y ∈ l ++ [q], Outbids x y := ⟨q, List.mem_append_right _ List.mem_cons_self, hq⟩
      rw [if_pos (hmark.2 hq), heldOf_of_outbids hout', hpick, hstay, if_pos hq]
    · have hout' : ¬∃ y ∈ l ++ [q], Outbids x y := by
        rintro ⟨y, hy, hxy⟩
        rcases List.mem_append.1 hy with hy | hy
        · exact hout ⟨y, hy, hxy⟩
        · obtain rfl := List.mem_singleton.1 hy
          exact hq hxy
      rw [if_neg (hmark.not.2 hq), (heldOf_of_stay hout').1]

namespace Holding

variable {lo i : Int} {table : OrdMap Int PBFTMessage} {l : List (IndexType × PBFTMessage)} {q : PBFTMessage}

theorem other (hq : q.index ≠ i) (generatedFrom : IndexType) (h : Holding table i l) :
    Holding (Node.selectPrepared lo generatedFrom table q) i l := by
  have hfind := find?_selectPrepared_ne lo table hq generatedFrom
  cases l with
  | nil => exact hfind.trans h
  | cons x l => exact hfind.trans h

theorem same (hlo : lo ≤ q.index) (generatedFrom : IndexType) (h : Holding table q.index l) :
    Holding (Node.selectPrepared lo generatedFrom table q) q.index (l ++ [(generatedFrom, q)]) := by
  unfold Node.selectPrepared
  rw [if_neg (not_lt.2 hlo)]
  cases l with
  | nil =>
    unfold Holding at h
    rw [h]
    exact OrdMap.find?_insert_self _ _ _
  | cons e l =>
    obtain ⟨a, x⟩ := e
    unfold Holding at h
    rw [h]
    change OrdMap.find? _ _ = some (heldOf a x ((l ++ [(generatedFrom, q)]).map Prod.snd))
    rw [List.map_append, List.map_singleton, heldOf_append]
    dsimp only
    by_cases htake : Outbids (heldOf a x (l.map Prod.snd)) q
    · rw [if_pos htake, if_pos (by simpa [Outbids, Outbid.Outbids] using htake)]
      exact OrdMap.find?_insert_self _ _ _
    · rw [if_neg htake, if_neg (by simpa [Outbids, Outbid.Outbids] using htake)]
      exact h

theorem foldl (hlo : lo ≤ i) (generatedFrom : IndexType) (qs : List PBFTMessage) (h : Holding table i l) :
    Holding (qs.foldl (Node.selectPrepared lo generatedFrom) table) i
      (l ++ (qs.filter (fun q => q.index = i)).map fun q => (generatedFrom, q)) := by
  induction qs generalizing table l with
  | nil => simpa using h
  | cons q qs ih =>
    by_cases hq : q.index = i
    · subst hq
      have hnext := ih (h.same hlo generatedFrom)
      rwa [List.filter_cons_of_pos (by simp), List.map_cons, List.append_cons]
    · rw [List.filter_cons_of_neg (by simpa using hq)]
      exact ih (h.other hq generatedFrom)

theorem viewChanges (hlo : lo ≤ i) (vs : List ViewChangeMsg) (h : Holding table i l) :
    Holding (vs.foldl (fun t m => m.preparedProposals.foldl (Node.selectPrepared lo m.generatedFrom) t) table) i
      (l ++ vs.flatMap fun (v : ViewChangeMsg) =>
        (v.preparedProposals.filter (fun q => q.index = i)).map fun q => (v.generatedFrom, q)) := by
  induction vs generalizing table l with
  | nil => simpa using h
  | cons v vs ih =>
    have hnext := ih (h.foldl hlo v.generatedFrom v.preparedProposals)
    rwa [List.append_assoc] at hnext

end Holding

theorem Node.chosen_eq_heldOf {s : Node} {viewChanges : OrdMap IndexType ViewChangeMsg} {i : Int} {a : IndexType}
    {x : PBFTMessage} {l : List (IndexType × PBFTMessage)} (hi : s.lowestCommitted ≤ i)
    (hl : sentAt viewChanges i = (a, x) :: l) : s.chosen viewChanges i = some (heldOf a x (l.map Prod.snd)) := by
  have hempty : Holding ∅ i [] := rfl
  have h := hempty.viewChanges hi viewChanges.values
  rw [List.nil_append] at h
  change Holding _ i (sentAt viewChanges i) at h
  rwa [hl] at h

theorem mem_sentAt {viewChanges : OrdMap IndexType ViewChangeMsg} {i : Int} {a : IndexType} {q : PBFTMessage}
    (h : (a, q) ∈ sentAt viewChanges i) : ∃ v ∈ viewChanges.values, v.generatedFrom = a ∧ q ∈ v.preparedProposals := by
  obtain ⟨v, hv, h⟩ := List.mem_flatMap.1 h
  obtain ⟨q', hq', heq⟩ := List.mem_map.1 h
  obtain ⟨rfl, rfl⟩ := Prod.mk.inj heq
  exact ⟨v, hv, rfl, List.mem_of_mem_filter hq'⟩

def SameMessage (q z : PBFTMessage) : Prop := q.index = z.index ∧ q.hash = z.hash

def SameProposal (q z : PBFTMessage) : Prop :=
  q.consensusProposal.map (fun p => (p.index, p.hash)) = z.consensusProposal.map fun p => (p.index, p.hash)

/-- The sender of a view change of the map that has a prepared proposal like `z`. -/
def HolderOf (same : PBFTMessage → PBFTMessage → Prop) (viewChanges : OrdMap IndexType ViewChangeMsg) (z : PBFTMessage)
    (a : IndexType) : Prop :=
  ∃ v ∈ viewChanges.values, v.generatedFrom = a ∧ ∃ q ∈ v.preparedProposals, same q z

/-- Nothing takes over from the first prepared proposal, or the one that the scan ends with is itself from a holder. -/
def SourceKept (same : PBFTMessage → PBFTMessage → Prop) (viewChanges : OrdMap IndexType ViewChangeMsg) (x : PBFTMessage)
    (l : List PBFTMessage) (z : PBFTMessage) : Prop :=
  (∀ y ∈ l, ¬Outbids x y) ∨ HolderOf same viewChanges z z.generatedFrom

theorem holderOf_heldOf_iff {same : PBFTMessage → PBFTMessage → Prop} (hsame : ∀ q, same q q)
    {viewChanges : OrdMap IndexType ViewChangeMsg} {i : Int} {a : IndexType} {x : PBFTMessage}
    {l : List (IndexType × PBFTMessage)} (hl : sentAt viewChanges i = (a, x) :: l) :
    HolderOf same viewChanges (pickPrepared x (l.map Prod.snd)) (heldOf a x (l.map Prod.snd)).generatedFrom ↔
      SourceKept same viewChanges x (l.map Prod.snd) (pickPrepared x (l.map Prod.snd)) := by
  unfold SourceKept
  by_cases hout : ∃ y ∈ l.map Prod.snd, Outbids x y
  · rw [heldOf_of_outbids hout]
    refine ⟨Or.inr, fun h => h.resolve_left fun hstay => ?_⟩
    obtain ⟨y, hy, hxy⟩ := hout
    exact hstay y hy hxy
  · obtain ⟨hheld, hstay⟩ := heldOf_of_stay (a := a) hout
    rw [hheld, hstay]
    refine iff_of_true ?_ (Or.inl fun y hy hxy => hout ⟨y, hy, hxy⟩)
    obtain ⟨v, hv, hsender, hx⟩ := mem_sentAt (hl ▸ List.mem_cons_self)
    exact ⟨v, hv, hsender, x, hx, hsame x⟩

/-- Every entry for an index with prepared proposals stands for the one that the way through them ends with. It names a
holder exactly when the source is kept, whether messages or their proposals are compared. -/
theorem generatePrePrepareMsg_source_iff {E : Env} {s : Node} {viewChanges : OrdMap IndexType ViewChangeMsg}
    {list : List PBFTMessage} (h : s.generatePrePrepareMsg E viewChanges = some list) {n : Nat} {i : Int} {e : PBFTMessage}
    (hi : (Node.indexRange s.lowestCommitted s.highestPrepared)[n]? = some i) (he : list[n]? = some e) {a : IndexType}
    {x : PBFTMessage} {l : List (IndexType × PBFTMessage)} (hl : sentAt viewChanges i = (a, x) :: l) :
    ∃ z, LeadsTo x (l.map Prod.snd) z ∧ e.consensusProposal = z.consensusProposal ∧
      (HolderOf SameMessage viewChanges z e.generatedFrom ↔ SourceKept SameMessage viewChanges x (l.map Prod.snd) z) ∧
      (HolderOf SameProposal viewChanges z e.generatedFrom ↔ SourceKept SameProposal viewChanges x (l.map Prod.snd) z) := by
  have hlow : s.lowestCommitted ≤ i := by
    obtain ⟨k, -, rfl⟩ := List.mem_map.1 (List.mem_of_getElem? hi)
    omega
  obtain ⟨p, hp, rfl⟩ := generatePrePrepareMsg_entry h hi he (Node.chosen_eq_heldOf hlow hl)
  have hmessage : ∀ q, SameMessage q q := fun _ => ⟨rfl, rfl⟩
  have hproposal : ∀ q, SameProposal q q := fun _ => rfl
  refine ⟨pickPrepared x (l.map Prod.snd), Outbid.walk_pick x _, ?_, holderOf_heldOf_iff hmessage hl,
    holderOf_heldOf_iff hproposal hl⟩
  change some p = _
  rw [← hp]
  by_cases hout : ∃ y ∈ l.map Prod.snd, Outbids x y
  · rw [heldOf_of_outbids hout]
  · obtain ⟨hheld, hstay⟩ := heldOf_of_stay (a := a) hout
    rw [hheld, hstay]
    rfl

def toyPreparedFrom (sender : IndexType) (content : UInt8) (view : ViewType) (generatedFrom : IndexType) : ViewChangeMsg :=
  { base := { view := 3, generatedFrom := sender }
    preparedProposals := [populatePrePrepare .PrePreparePacket (Toy.proposal content) 0 view 0 generatedFrom] }

def toySources (l : List ViewChangeMsg) : OrdMap IndexType ViewChangeMsg := l.foldl (fun t v => t.insert v.generatedFrom v) ∅

/-- Node 1 reports the same block as node 0: the entry names node 0. -/
theorem toySources_first : ∃ list e, (Toy.node 3 [1, 1, 1, 1]).generatePrePrepareMsg Toy.env
      (toySources [toyPreparedFrom 0 7 1 2, toyPreparedFrom 1 7 2 2]) = some list ∧ list[0]? = some e ∧
    ∃ z, HolderOf SameMessage (toySources [toyPreparedFrom 0 7 1 2, toyPreparedFrom 1 7 2 2]) z e.generatedFrom := by
  have hrun : (((Toy.node 3 [1, 1, 1, 1]).generatePrePrepareMsg Toy.env
      (toySources [toyPreparedFrom 0 7 1 2, toyPreparedFrom 1 7 2 2])).elim false fun list => list[0]?.isSome) = true := by
    decide +kernel
  obtain ⟨list, hlist, hsome⟩ := Toy.exists_of_elim hrun
  obtain ⟨e, he⟩ := Option.isSome_iff_exists.1 hsome
  obtain ⟨z, -, -, hiff, -⟩ := generatePrePrepareMsg_source_iff (i := 1) (a := 0)
    (x := populatePrePrepare .PrePreparePacket (Toy.proposal 7) 0 1 0 2)
    (l := [(1, populatePrePrepare .PrePreparePacket (Toy.proposal 7) 0 2 0 2)]) hlist (by decide +kernel) he (by decide +kernel)
  exact ⟨list, e, hlist, he, z, hiff.2 (Or.inl (by decide +kernel))⟩

/-- Node 1 reports another block in a greater view, in a message of node 2: the entry names node 2, which has sent no view
change. -/
theorem toySources_replaced : ∃ list e, (Toy.node 3 [1, 1, 1, 1]).generatePrePrepareMsg Toy.env
      (toySources [toyPreparedFrom 0 7 1 2, toyPreparedFrom 1 8 2 2]) = some list ∧ list[0]? = some e ∧
    e.hash = (Toy.proposal 8).hash ∧
      ∀ v ∈ (toySources [toyPreparedFrom 0 7 1 2, toyPreparedFrom 1 8 2 2]).values, v.generatedFrom ≠ e.generatedFrom := by
  have hrun : (((Toy.node 3 [1, 1, 1, 1]).generatePrePrepareMsg Toy.env
      (toySources [toyPreparedFrom 0 7 1 2, toyPreparedFrom 1 8 2 2])).elim false fun list => list[0]?.any fun e =>
        decide (e.hash = (Toy.proposal 8).hash) &&
          (toySources [toyPreparedFrom 0 7 1 2, toyPreparedFrom 1 8 2 2]).values.all fun v =>
            decide (v.generatedFrom ≠ e.generatedFrom)) = true := by decide +kernel
  obtain ⟨list, hlist, hany⟩ := Toy.exists_of_elim hrun
  obtain ⟨e, he, hcheck⟩ := (Option.any_eq_true _ _).1 hany
  simp only [Bool.and_eq_true, List.all_eq_true, decide_eq_true_eq] at hcheck
  exact ⟨list, e, hlist, he, hcheck⟩

end BcosPbft
