import BcosPbft.Proofs.Certificate

/-! The positions at which received lists are read: the two lists of a proof, of which only one gives the loop its bound, and
the prepared proposals of a response. -/

namespace BcosPbft

/-- A read by position, with the sizes of the lists it goes to. -/
structure Access where
  position : Nat
  sizes : List Nat

def Access.Inside (a : Access) : Prop := ∀ n ∈ a.sizes, a.position < n

instance (a : Access) : Decidable a.Inside := inferInstanceAs (Decidable (∀ n ∈ a.sizes, a.position < n))

theorem Access.inside_nil : ∀ a ∈ ([] : List Access), a.Inside := fun _ ha => absurd ha List.not_mem_nil

/-- The calls of `signatureProof` in the loop of `checkPrecommitWeight`, which goes on while the signatures are valid. -/
def PBFTProposal.proofReads (E : Env) (cfg : Config) (p : PBFTProposal) : List Nat → List Access
  | [] => []
  | i :: t => ⟨i, [p.nodeList.length, p.signatureList.length]⟩ ::
    match p.signatureProof i with
    | none => []
    | some (nodeIdx, signature) =>
      match cfg.getConsensusNodeByIndex (.ofInt nodeIdx) with
      | none => []
      | some nodeInfo => if E.crypto.verify nodeInfo.nodeID p.hash signature then p.proofReads E cfg t else []

namespace Node

variable (E : Env)

def precommitReads (s : Node) (m : PBFTMessage) : List Access :=
  if s.cfg.startRecovered && m.view > s.cfg.view then []
  else
    match m.consensusProposal with
    | none => []
    | some p => p.proofReads E s.cfg (List.range p.signatureProofSize)

def preparedReads (s : Node) : List PBFTMessage → List Access
  | [] => []
  | m :: t => s.precommitReads E m ++ if s.checkPrecommitMsg E m = some true then preparedReads s t else []

/-- The reads of `isValidViewChangeMsg`. -/
def viewChangeReads (s : Node) (fromNode : Option NodeID) (m : ViewChangeMsg) : List Access :=
  if m.committedProposal.index < s.cfg.committedIndex then []
  else
    match s.answerViewChange E fromNode m with
    | none => []
    | some s =>
      if m.view < s.cfg.view then []
      else if m.committedProposal.index = s.cfg.committedIndex && m.committedProposal.hash ≠ s.cfg.committedHash then []
      else s.preparedReads E m.preparedProposals

def viewChangesReads (fromNode : Option NodeID) : Node → List ViewChangeMsg → List Access
  | _, [] => []
  | s, m :: t => s.viewChangeReads E fromNode m ++
    match s.isValidViewChangeMsg E fromNode m with
    | some (s, true) => viewChangesReads fromNode s t
    | _ => []

def newViewReads (s : Node) (m : NewViewMsg) : List Access :=
  if s.cfg.leaderIndexInNewViewPeriod (m.index + 1) m.view ≠ m.generatedFrom then []
  else if m.view ≤ s.cfg.view then []
  else viewChangesReads E m.fromNode s m.viewChangeMsgList

def handleReads (s : Node) : Message → List Access
  | .viewChange m => if m.packetType = .ViewChangePacket then s.viewChangeReads E m.fromNode m else []
  | .newView m => s.newViewReads E m
  | _ => []

/-- The reads of `onRecvPrecommitResponse`: the first prepared proposal, and the proof of one that was asked for. -/
def responseReads (s : Node) (requested : PBFTMessage) : Message → List Access
  | .viewChange m =>
    if m.packetType ≠ .PreparedProposalResponse then []
    else ⟨0, [m.preparedProposals.length]⟩ ::
      match m.preparedProposals.head? with
      | none => []
      | some precommit =>
        match precommit.consensusProposal, requested.consensusProposal with
        | some p, some q => if p.index ≠ q.index || p.hash ≠ q.hash then [] else s.precommitReads E precommit
        | _, _ => []
  | _ => []

/-- Every signature has its node, or one of those that have it is not valid. -/
def ProofCovered (s : Node) (p : PBFTProposal) : Prop :=
  p.signatureList.length ≤ p.nodeList.length ∨
    ∃ e ∈ p.nodeList.zip p.signatureList, ¬ValidEntry E s.cfg p.hash e

/-- So is the proof of a message whose view is not too high. -/
def PrecommitCovered (s : Node) (m : PBFTMessage) : Prop :=
  ¬(s.cfg.startRecovered = true ∧ s.cfg.view < m.view) → ∀ p, m.consensusProposal = some p → s.ProofCovered E p

/-- So is the proof of every prepared proposal that only accepted ones precede. -/
def PreparedCovered (s : Node) (l : List PBFTMessage) : Prop :=
  ∀ l₁ m l₂, l = l₁ ++ m :: l₂ → (∀ q ∈ l₁, s.checkPrecommitMsg E q = some true) → s.PrecommitCovered E m

def ViewChangeCovered (s : Node) (fromNode : Option NodeID) (m : ViewChangeMsg) : Prop :=
  s.cfg.committedIndex ≤ m.committedProposal.index → ∀ t, s.answerViewChange E fromNode m = some t →
    t.cfg.view ≤ m.view →
    (m.committedProposal.index = t.cfg.committedIndex → m.committedProposal.hash = t.cfg.committedHash) →
    t.PreparedCovered E m.preparedProposals

def ViewChangesCovered (s : Node) (fromNode : Option NodeID) (l : List ViewChangeMsg) : Prop :=
  ∀ l₁ m l₂ w t, l = l₁ ++ m :: l₂ → newViewWeight E fromNode s l₁ 0 = some (t, some w) →
    t.ViewChangeCovered E fromNode m

def HandleCovered (s : Node) : Message → Prop
  | .viewChange m => m.packetType = .ViewChangePacket → s.ViewChangeCovered E m.fromNode m
  | .newView m => s.cfg.leaderIndexInNewViewPeriod (m.index + 1) m.view = m.generatedFrom → s.cfg.view < m.view →
    s.ViewChangesCovered E m.fromNode m.viewChangeMsgList
  | _ => True

/-- There is a prepared proposal, and if it was asked for its proof is covered. -/
def ResponseCovered (s : Node) (requested : PBFTMessage) : Message → Prop
  | .viewChange m => m.packetType = .PreparedProposalResponse → m.preparedProposals ≠ [] ∧
    ∀ precommit p q, m.preparedProposals.head? = some precommit → precommit.consensusProposal = some p →
      requested.consensusProposal = some q → p.index = q.index → p.hash = q.hash → s.PrecommitCovered E precommit
  | _ => True

end Node

section

variable {E : Env} {cfg : Config} {s : Node}

theorem PBFTProposal.signatureProof_eq {p : PBFTProposal} {i : Nat} (hn : i < p.nodeList.length)
    (hs : i < p.signatureList.length) : p.signatureProof i = some (p.nodeList[i], p.signatureList[i]) := by
  unfold signatureProof
  rw [List.getElem?_eq_getElem hn, List.getElem?_eq_getElem hs]

theorem PBFTProposal.isSome_signatureProof {p : PBFTProposal} {i : Nat} : (p.signatureProof i).isSome = true ↔
    (Access.mk i [p.nodeList.length, p.signatureList.length]).Inside := by
  unfold Access.Inside signatureProof
  constructor
  · intro h
    cases hn : p.nodeList[i]? with
    | none => simp [hn] at h
    | some n =>
      cases hs : p.signatureList[i]? with
      | none => simp [hn, hs] at h
      | some b =>
        obtain ⟨hin, -⟩ := List.getElem?_eq_some_iff.1 hn
        obtain ⟨his, -⟩ := List.getElem?_eq_some_iff.1 hs
        simp [hin, his]
  · intro h
    simp only [List.mem_cons, List.not_mem_nil, or_false, forall_eq_or_imp, forall_eq] at h
    rw [List.getElem?_eq_getElem h.1, List.getElem?_eq_getElem h.2]
    rfl

theorem PBFTProposal.forall_proofReads_cons {p : PBFTProposal} {i : Nat} {t : List Nat} :
    (∀ a ∈ p.proofReads E cfg (i :: t), a.Inside) ↔ ∃ e, p.signatureProof i = some e ∧
      (ValidEntry E cfg p.hash e → ∀ a ∈ p.proofReads E cfg t, a.Inside) := by
  rw [proofReads, List.forall_mem_cons, ← isSome_signatureProof]
  cases p.signatureProof i with
  | none => simp
  | some e =>
    simp only [Option.isSome_some, true_and, Option.some.injEq, exists_eq_left']
    unfold ValidEntry
    cases cfg.getConsensusNodeByIndex (.ofInt e.1) with
    | none => simp
    | some node => by_cases hverify : E.crypto.verify node.nodeID p.hash e.2 = true <;> simp [hverify]

/-- From a position that the nodes reach, the rest of the loop stays inside the lists if they are long enough, or if it stops
before the nodes end. -/
theorem PBFTProposal.proofReads_inside_iff {p : PBFTProposal} {i k : Nat} (hi : i ≤ p.nodeList.length)
    (hk : i + k = p.signatureList.length) :
    (∀ a ∈ p.proofReads E cfg (List.range' i k), a.Inside) ↔ p.signatureList.length ≤ p.nodeList.length ∨
      ∃ e ∈ (p.nodeList.zip p.signatureList).drop i, ¬ValidEntry E cfg p.hash e := by
  induction k generalizing i with
  | zero =>
    rw [List.range'_zero]
    refine iff_of_true Access.inside_nil (Or.inl ?_)
    omega
  | succ k ih =>
    rw [List.range'_succ, forall_proofReads_cons]
    have his : i < p.signatureList.length := by omega
    rcases Nat.lt_or_ge i p.nodeList.length with hin | hin
    · have hzip : i < (p.nodeList.zip p.signatureList).length := by
        rw [List.length_zip]
        omega
      rw [signatureProof_eq hin his, List.drop_eq_getElem_cons hzip, List.getElem_zip]
      simp only [Option.some.injEq, exists_eq_left', List.exists_mem_cons_iff]
      rw [ih (by omega) (by omega)]
      by_cases hvalid : ValidEntry E cfg p.hash (p.nodeList[i], p.signatureList[i]) <;> simp [hvalid]
    · have hread : ¬(p.signatureProof i).isSome = true := by
        rw [isSome_signatureProof]
        intro h
        exact absurd (h p.nodeList.length List.mem_cons_self) (by simpa using hin)
      have hdrop : (p.nodeList.zip p.signatureList).drop i = [] := by
        rw [List.drop_eq_nil_iff, List.length_zip]
        omega
      rw [hdrop]
      refine iff_of_false ?_ ?_
      · rintro ⟨e, he, -⟩
        rw [he] at hread
        exact hread rfl
      · rintro (hle | ⟨e, he, -⟩)
        · omega
        · exact absurd he List.not_mem_nil

/-- A read outside the lists ends the loop of the model, and nothing else does. -/
theorem PBFTProposal.checkProof_eq_none_iff {p : PBFTProposal} {l : List Nat} {w : UInt64} :
    Node.checkProof E cfg p.hash (l.map p.signatureProof) w = none ↔ ¬∀ a ∈ p.proofReads E cfg l, a.Inside := by
  induction l generalizing w with
  | nil =>
    refine iff_of_false (fun h => by cases h) fun h => ?_
    exact h Access.inside_nil
  | cons i t ih =>
    rw [forall_proofReads_cons, List.map_cons]
    cases hi : p.signatureProof i with
    | none => simp [Node.checkProof]
    | some e =>
      simp only [Option.some.injEq, exists_eq_left', Classical.not_imp]
      rw [Node.checkProof]
      unfold ValidEntry
      cases hnode : cfg.getConsensusNodeByIndex (.ofInt e.1) with
      | none => simp
      | some node =>
        by_cases hverify : E.crypto.verify node.nodeID p.hash e.2 = true
        · simp only [hverify, if_true, Option.some.injEq, exists_eq_left', true_and]
          exact ih
        · simp [hverify]

namespace Node

theorem precommitReads_inside_iff {m : PBFTMessage} :
    (∀ a ∈ s.precommitReads E m, a.Inside) ↔ s.PrecommitCovered E m := by
  unfold precommitReads PrecommitCovered
  by_cases hview : s.cfg.startRecovered = true ∧ s.cfg.view < m.view
  · rw [if_pos (by simpa using hview)]
    exact iff_of_true Access.inside_nil fun h => absurd hview h
  · rw [if_neg (by simpa using hview)]
    cases m.consensusProposal with
    | none => simp
    | some p =>
      dsimp only
      rw [PBFTProposal.signatureProofSize, List.range_eq_range',
        PBFTProposal.proofReads_inside_iff (Nat.zero_le _) (Nat.zero_add _)]
      simp only [hview, not_false_eq_true, forall_const, Option.some.injEq, forall_eq', List.drop_zero]
      rfl

theorem checkPrecommitMsg_eq_none_iff {m : PBFTMessage} :
    s.checkPrecommitMsg E m = none ↔ ¬∀ a ∈ s.precommitReads E m, a.Inside := by
  unfold checkPrecommitMsg precommitReads
  split_ifs
  · simp
  · cases m.consensusProposal with
    | none => simp
    | some p => exact PBFTProposal.checkProof_eq_none_iff

theorem preparedReads_inside_iff {l : List PBFTMessage} :
    (∀ a ∈ s.preparedReads E l, a.Inside) ↔ s.PreparedCovered E l := by
  induction l with
  | nil =>
    refine iff_of_true Access.inside_nil fun l₁ m l₂ hl => ?_
    simp at hl
  | cons m t ih =>
    rw [preparedReads, List.forall_mem_append, precommitReads_inside_iff]
    constructor
    · rintro ⟨hm, ht⟩ l₁ q l₂ hl haccepted
      rcases List.cons_eq_append_iff.1 hl with ⟨rfl, hq⟩ | ⟨l₁, rfl, hq⟩
      · obtain ⟨rfl, -⟩ := List.cons.inj hq
        exact hm
      · rw [if_pos (haccepted m List.mem_cons_self)] at ht
        exact ih.1 ht l₁ q l₂ hq fun q' hq' => haccepted q' (List.mem_cons_of_mem _ hq')
    · intro h
      refine ⟨h [] m t rfl fun q hq => absurd hq List.not_mem_nil, ?_⟩
      split_ifs with haccepted
      · refine ih.2 fun l₁ q l₂ hl hl₁ => h (m :: l₁) q l₂ (by rw [hl, List.cons_append]) fun q' hq' => ?_
        rcases List.mem_cons.1 hq' with rfl | hq'
        · exact haccepted
        · exact hl₁ q' hq'
      · exact Access.inside_nil

theorem checkPreparedProposals_eq_none {l : List PBFTMessage} (h : ¬∀ a ∈ s.preparedReads E l, a.Inside) :
    s.checkPreparedProposals E l = none := by
  induction l with
  | nil => exact absurd Access.inside_nil h
  | cons m t ih =>
    rw [preparedReads, List.forall_mem_append] at h
    rw [checkPreparedProposals]
    cases hm : s.checkPrecommitMsg E m with
    | none => rfl
    | some accepted =>
      have hread : ∀ a ∈ s.precommitReads E m, a.Inside := by
        by_contra hout
        rw [checkPrecommitMsg_eq_none_iff.2 hout] at hm
        cases hm
      cases accepted with
      | true =>
        rw [hm, if_pos rfl] at h
        exact ih fun ht => h ⟨hread, ht⟩
      | false =>
        rw [hm, if_neg (by simp)] at h
        exact absurd ⟨hread, Access.inside_nil⟩ h

theorem viewChangeReads_inside_iff {fromNode : Option NodeID} {m : ViewChangeMsg} :
    (∀ a ∈ s.viewChangeReads E fromNode m, a.Inside) ↔ s.ViewChangeCovered E fromNode m := by
  unfold viewChangeReads ViewChangeCovered
  by_cases hindex : m.committedProposal.index < s.cfg.committedIndex
  · rw [if_pos hindex]
    exact iff_of_true Access.inside_nil fun h => absurd hindex (by omega)
  · rw [if_neg hindex]
    simp only [Int.not_lt.1 hindex, forall_const]
    cases s.answerViewChange E fromNode m with
    | none => simp
    | some t =>
      simp only [Option.some.injEq, forall_eq']
      by_cases hview : m.view < t.cfg.view
      · rw [if_pos hview]
        exact iff_of_true Access.inside_nil fun h => absurd hview (UInt64.not_lt.2 h)
      · rw [if_neg hview]
        by_cases hhash : m.committedProposal.index = t.cfg.committedIndex ∧ m.committedProposal.hash ≠ t.cfg.committedHash
        · rw [if_pos (by simpa using hhash)]
          exact iff_of_true Access.inside_nil fun _ h => absurd (h hhash.1) hhash.2
        · rw [if_neg (by simpa using hhash), preparedReads_inside_iff]
          constructor
          · exact fun h _ _ => h
          · exact fun h => h (UInt64.not_lt.1 hview) fun heq => by_contra fun hne => hhash ⟨heq, hne⟩

theorem isValidViewChangeMsg_eq_none {fromNode : Option NodeID} {m : ViewChangeMsg}
    (h : ¬∀ a ∈ s.viewChangeReads E fromNode m, a.Inside) : s.isValidViewChangeMsg E fromNode m = none := by
  unfold viewChangeReads at h
  unfold isValidViewChangeMsg
  by_cases hindex : m.committedProposal.index < s.cfg.committedIndex
  · rw [if_pos hindex] at h
    exact absurd Access.inside_nil h
  · rw [if_neg hindex] at h ⊢
    cases ht : s.answerViewChange E fromNode m with
    | none => rfl
    | some t =>
      rw [ht] at h
      dsimp only at h
      simp only [Option.bind_eq_bind, Option.bind_some]
      split_ifs at h with hview hhash
      · exact absurd Access.inside_nil h
      · exact absurd Access.inside_nil h
      · rw [if_neg hview, if_neg hhash, checkPreparedProposals_eq_none h]
        rfl

theorem viewChangesReads_inside_iff {fromNode : Option NodeID} {l : List ViewChangeMsg} {d : UInt64} :
    (∀ a ∈ viewChangesReads E fromNode s l, a.Inside) ↔ ∀ l₁ m l₂ w t, l = l₁ ++ m :: l₂ →
      newViewWeight E fromNode s l₁ d = some (t, some w) → t.ViewChangeCovered E fromNode m := by
  induction l generalizing s d with
  | nil =>
    refine iff_of_true Access.inside_nil fun l₁ m l₂ w t hl => ?_
    simp at hl
  | cons m l ih =>
    rw [viewChangesReads, List.forall_mem_append, viewChangeReads_inside_iff]
    constructor
    · rintro ⟨hm, hrest⟩ l₁ c l₂ w t hl hw
      rcases List.cons_eq_append_iff.1 hl with ⟨rfl, hc⟩ | ⟨l₁, rfl, hc⟩
      · obtain ⟨rfl, -⟩ := List.cons.inj hc
        obtain ⟨rfl, -⟩ := Prod.mk.inj (Option.some.inj hw)
        exact hm
      · rw [newViewWeight] at hw
        obtain ⟨⟨u, valid⟩, hu, hw⟩ := Option.bind_eq_some_iff.1 hw
        rw [hu] at hrest
        cases valid with
        | false => cases hw
        | true =>
          dsimp only at hw
          rw [if_neg (by simp)] at hw
          split at hw
          · exact ih.1 hrest l₁ c l₂ w t hc hw
          · exact ih.1 hrest l₁ c l₂ w t hc hw
    · intro h
      refine ⟨h [] m l d s rfl rfl, ?_⟩
      split
      · rename_i u hu
        cases hnode : u.cfg.getConsensusNodeByIndex m.generatedFrom with
        | none =>
          refine (ih (d := d)).2 fun l₁ c l₂ w t hl hw => h (m :: l₁) c l₂ w t (by rw [hl, List.cons_append]) ?_
          rw [newViewWeight, hu]
          simp [hnode, hw]
        | some node =>
          refine (ih (d := d + node.weight)).2 fun l₁ c l₂ w t hl hw =>
            h (m :: l₁) c l₂ w t (by rw [hl, List.cons_append]) ?_
          rw [newViewWeight, hu]
          simp [hnode, hw]
      · exact Access.inside_nil

theorem newViewWeight_eq_none {fromNode : Option NodeID} {l : List ViewChangeMsg} {w : UInt64}
    (h : ¬∀ a ∈ viewChangesReads E fromNode s l, a.Inside) : newViewWeight E fromNode s l w = none := by
  induction l generalizing s w with
  | nil => exact absurd Access.inside_nil h
  | cons m l ih =>
    rw [viewChangesReads, List.forall_mem_append] at h
    rw [newViewWeight]
    by_cases hm : ∀ a ∈ s.viewChangeReads E fromNode m, a.Inside
    · cases hu : s.isValidViewChangeMsg E fromNode m with
      | none => rfl
      | some r =>
        rw [hu] at h
        obtain ⟨u, valid⟩ := r
        cases valid with
        | false => exact absurd ⟨hm, Access.inside_nil⟩ h
        | true =>
          have hrest := fun w => ih (s := u) (w := w) fun hl => h ⟨hm, hl⟩
          simp only [Option.bind_eq_bind, Option.bind_some, Bool.not_true, Bool.false_eq_true, if_false]
          split
          · exact hrest w
          · exact hrest _
    · rw [isValidViewChangeMsg_eq_none hm]
      rfl

theorem handleReads_inside_iff {msg : Message} : (∀ a ∈ s.handleReads E msg, a.Inside) ↔ s.HandleCovered E msg := by
  cases msg with
  | pbft m => exact iff_of_true Access.inside_nil trivial
  | request m => exact iff_of_true Access.inside_nil trivial
  | viewChange m =>
    unfold handleReads HandleCovered
    dsimp only
    by_cases htype : m.packetType = .ViewChangePacket
    · rw [if_pos htype, viewChangeReads_inside_iff]
      exact ⟨fun h _ => h, fun h => h htype⟩
    · rw [if_neg htype]
      exact iff_of_true Access.inside_nil fun h => absurd h htype
  | newView m =>
    unfold handleReads HandleCovered newViewReads
    dsimp only
    by_cases hleader : s.cfg.leaderIndexInNewViewPeriod (m.index + 1) m.view = m.generatedFrom
    · rw [if_neg (not_not.2 hleader)]
      by_cases hview : m.view ≤ s.cfg.view
      · rw [if_pos hview]
        exact iff_of_true Access.inside_nil fun _ h => absurd h (UInt64.not_lt.2 hview)
      · rw [if_neg hview, viewChangesReads_inside_iff (d := 0)]
        exact ⟨fun h _ _ => h, fun h => h hleader (UInt64.not_le.1 hview)⟩
    · rw [if_pos hleader]
      exact iff_of_true Access.inside_nil fun h => absurd h hleader

theorem responseReads_inside_iff {requested : PBFTMessage} {msg : Message} :
    (∀ a ∈ s.responseReads E requested msg, a.Inside) ↔ s.ResponseCovered E requested msg := by
  cases msg with
  | pbft m => exact iff_of_true Access.inside_nil trivial
  | request m => exact iff_of_true Access.inside_nil trivial
  | newView m => exact iff_of_true Access.inside_nil trivial
  | viewChange m =>
    unfold responseReads ResponseCovered
    dsimp only
    by_cases htype : m.packetType = .PreparedProposalResponse
    · rw [if_neg (not_not.2 htype), List.forall_mem_cons]
      simp only [htype, forall_const]
      have hfirst : (Access.mk 0 [m.preparedProposals.length]).Inside ↔ m.preparedProposals ≠ [] := by
        simp [Access.Inside, List.length_pos_iff]
      refine and_congr hfirst ?_
      cases m.preparedProposals.head? with
      | none => simp
      | some precommit =>
        dsimp only
        cases hp : precommit.consensusProposal with
        | none =>
          refine iff_of_true Access.inside_nil fun precommit' p q heq hp' => ?_
          rw [← Option.some.inj heq, hp] at hp'
          cases hp'
        | some p =>
          cases hq : requested.consensusProposal with
          | none => simp
          | some q =>
            dsimp only
            simp only [Option.some.injEq]
            by_cases hsame : p.index = q.index ∧ p.hash = q.hash
            · rw [if_neg (by simp [hsame]), precommitReads_inside_iff]
              constructor
              · intro h precommit' p' q' heq
                obtain rfl := heq
                exact fun _ _ _ _ => h
              · exact fun h => h precommit p q rfl hp rfl hsame.1 hsame.2
            · rw [if_pos (by simpa only [Bool.or_eq_true, decide_eq_true_eq, not_and_or] using hsame)]
              refine iff_of_true Access.inside_nil fun precommit' p' q' heq hp' hq' hindex hhash => absurd ⟨?_, ?_⟩ hsame
              · subst heq hq'
                rw [← hindex, Option.some.inj (hp.symm.trans hp')]
              · subst heq hq'
                rw [← hhash, Option.some.inj (hp.symm.trans hp')]
    · rw [if_pos htype]
      exact iff_of_true Access.inside_nil fun h => absurd h htype

theorem handleMsg_eq_none {msg : Message} (h : ¬∀ a ∈ s.handleReads E msg, a.Inside) : s.handleMsg E msg = none := by
  cases msg with
  | pbft m => exact absurd Access.inside_nil h
  | request m => exact absurd Access.inside_nil h
  | viewChange m =>
    unfold handleReads at h
    dsimp only at h
    split_ifs at h with htype
    · unfold handleMsg handleViewChangeMsg
      dsimp only
      rw [if_pos htype, isValidViewChangeMsg_eq_none h]
      rfl
    · exact absurd Access.inside_nil h
  | newView m =>
    unfold handleReads newViewReads at h
    dsimp only at h
    split_ifs at h with hleader hview
    · exact absurd Access.inside_nil h
    · exact absurd Access.inside_nil h
    · unfold handleMsg handleNewViewMsg isValidNewViewMsg
      dsimp only
      rw [if_neg hleader, if_neg hview, newViewWeight_eq_none h]
      rfl

theorem onRecvPrecommitResponse_eq_none {requested : PBFTMessage} {data : Bytes} {msg : Message}
    (hdata : PBFTCodec.decode E data = some msg) (h : ¬∀ a ∈ s.responseReads E requested msg, a.Inside) :
    s.onRecvPrecommitResponse E requested data = none := by
  unfold onRecvPrecommitResponse
  rw [hdata]
  cases msg with
  | pbft m => exact absurd Access.inside_nil h
  | request m => exact absurd Access.inside_nil h
  | newView m => exact absurd Access.inside_nil h
  | viewChange m =>
    unfold responseReads at h
    dsimp only at h ⊢
    split_ifs at h ⊢ with htype
    · exact absurd Access.inside_nil h
    · rw [List.forall_mem_cons] at h
      cases hhead : m.preparedProposals with
      | nil => rfl
      | cons precommit l =>
        rw [hhead] at h
        have hfirst : (Access.mk 0 [(precommit :: l).length]).Inside := by simp [Access.Inside]
        simp only [hfirst, true_and, List.head?_cons] at h
        simp only [List.head?_cons, Option.bind_eq_bind, Option.bind_some]
        cases hp : precommit.consensusProposal with
        | none =>
          rw [hp] at h
          exact absurd Access.inside_nil h
        | some p =>
          cases hq : requested.consensusProposal with
          | none =>
            rw [hp, hq] at h
            exact absurd Access.inside_nil h
          | some q =>
            rw [hp, hq] at h
            dsimp only at h ⊢
            split_ifs at h ⊢ with hsame
            · exact absurd Access.inside_nil h
            · rw [checkPrecommitMsg_eq_none_iff.2 h]
              rfl

end Node

end

/-- Whatever bytes decode, in whatever state: the reads of the worker, and those of the answer to a request, are inside their
lists exactly when these cover them, and a read that is not ends the process. -/
theorem reads_inside_iff {E : Env} {data : Bytes} {msg : Message} (hdata : PBFTCodec.decode E data = some msg) (s : Node)
    (n : NodeID) (requested : PBFTMessage) :
    ((∀ a ∈ s.handleReads E (msg.setFrom n), a.Inside) ↔ s.HandleCovered E (msg.setFrom n)) ∧
      ((∀ a ∈ s.responseReads E requested msg, a.Inside) ↔ s.ResponseCovered E requested msg) ∧
      ((¬∀ a ∈ s.handleReads E (msg.setFrom n), a.Inside) → s.handleMsg E (msg.setFrom n) = none) ∧
      ((¬∀ a ∈ s.responseReads E requested msg, a.Inside) → s.onRecvPrecommitResponse E requested data = none) :=
  ⟨Node.handleReads_inside_iff, Node.responseReads_inside_iff, Node.handleMsg_eq_none,
    Node.onRecvPrecommitResponse_eq_none hdata⟩

def toyEnclosed (t : PacketType) (l : List PBFTMessage) : Bytes :=
  (PBFTCodec.encode Toy.env (Toy.keyPair 2) 0
    (.viewChange { packetType := t, base := { view := 1, generatedFrom := 2 }, preparedProposals := l })).1

def Message.isProven : Message → Bool
  | .viewChange m => !m.preparedProposals.isEmpty && m.preparedProposals.all fun q =>
    q.consensusProposal.all fun (p : PBFTProposal) => p.signatureList.length ≤ p.nodeList.length
  | _ => true

theorem Node.responseCovered_of_isProven {E : Env} {s : Node} {requested : PBFTMessage} {msg : Message}
    (h : msg.isProven = true) : s.ResponseCovered E requested msg := by
  cases msg with
  | pbft m => exact trivial
  | request m => exact trivial
  | newView m => exact trivial
  | viewChange m =>
    simp only [Message.isProven, Bool.and_eq_true, Bool.not_eq_true', List.isEmpty_eq_false_iff, List.all_eq_true] at h
    refine fun _ => ⟨h.1, fun precommit _ _ hhead _ _ _ _ _ p hp => Or.inl ?_⟩
    have hall := h.2 precommit (List.mem_of_mem_head? hhead)
    rw [hp] at hall
    exact of_decide_eq_true hall

/-- A response with the proof of three nodes. -/
theorem toyEnclosed_inside : ∃ msg,
    PBFTCodec.decode Toy.env (toyEnclosed .PreparedProposalResponse [Node.preparedMsg 1 [0, 1, 2]]) = some msg ∧
      ∀ a ∈ (Toy.node 3 [1, 1, 1, 1]).responseReads Toy.env (Node.preparedMsg 1 []) msg, a.Inside := by
  have hrun : ((PBFTCodec.decode Toy.env (toyEnclosed .PreparedProposalResponse [Node.preparedMsg 1 [0, 1, 2]])).elim false
      Message.isProven) = true := by decide +kernel
  obtain ⟨msg, hmsg, hproven⟩ := Toy.exists_of_elim hrun
  exact ⟨msg, hmsg, (reads_inside_iff hmsg _ [2] _).2.1.2 (Node.responseCovered_of_isProven hproven)⟩

def toyOverlong : PBFTMessage :=
  { base := { index := 1, hash := zeroHash.val }
    raw := { consensusProposal := some { Node.provenProposal [0] with signatureList := [0 :: zeroHash.val, []] } } }

theorem outside_of_elim {data : Bytes} {reads : Message → List Access}
    (h : ((PBFTCodec.decode Toy.env data).elim false fun msg => (reads msg).any fun a => !decide a.Inside) = true) :
    ∃ msg, PBFTCodec.decode Toy.env data = some msg ∧ ∃ a ∈ reads msg, ¬a.Inside := by
  obtain ⟨msg, hmsg, hany⟩ := Toy.exists_of_elim h
  obtain ⟨a, ha, hout⟩ := List.any_eq_true.1 hany
  exact ⟨msg, hmsg, a, ha, by simpa using hout⟩

/-- In a view change, in a new view with that view change, and in a response without a prepared proposal. -/
theorem toyOverlong_outside :
    (∃ msg, PBFTCodec.decode Toy.env (toyEnclosed .ViewChangePacket [toyOverlong]) = some msg ∧
      ∃ a ∈ (Toy.node 3 [1, 1, 1, 1]).handleReads Toy.env (msg.setFrom [2]), ¬a.Inside) ∧
    (∃ msg, PBFTCodec.decode Toy.env (PBFTCodec.encode Toy.env (Toy.keyPair 2) 0 (.newView
        { base := { view := 1, generatedFrom := 2 }
          viewChangeMsgList := [{ base := { view := 1 }, preparedProposals := [toyOverlong] }] })).1 = some msg ∧
      ∃ a ∈ (Toy.node 3 [1, 1, 1, 1]).handleReads Toy.env (msg.setFrom [2]), ¬a.Inside) ∧
    ∃ msg, PBFTCodec.decode Toy.env (toyEnclosed .PreparedProposalResponse []) = some msg ∧
      ∃ a ∈ (Toy.node 3 [1, 1, 1, 1]).responseReads Toy.env (Node.preparedMsg 1 []) msg, ¬a.Inside := by
  refine ⟨outside_of_elim ?_, outside_of_elim ?_, outside_of_elim ?_⟩
  · decide +kernel
  · decide +kernel
  · decide +kernel

end BcosPbft
