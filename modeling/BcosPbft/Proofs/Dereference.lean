import BcosPbft.Proofs.Lock
import BcosPbft.Proofs.ViewOrder

/-! The pointers that the handling of a new view dereferences. Precommits and the messages of outstanding calls always carry
a proposal, so a null pointer can only come from an entry of the new view: from its missing proposal, or from the node it
names when its data is neither in it nor in a precommit. -/

namespace BcosPbft

namespace Node

variable (E : Env)

/-- The dereferences of a call of `handlePrePrepareMsg`: are the proposal and, for a verification, the node there, if the call
gets that far? -/
def prePrepareDereferences (s : Node) (m : PBFTMessage) (needVerifyProposal generatedFromNewView needCheckSignature : Bool) :
    Bool :=
  if s.isSyncingHigher then true
  else if s.executingProposals.contains m.hash then true
  else if !s.checkPrePrepareMsg m then true
  else if !generatedFromNewView && s.cfg.leaderIndex m.index ≠ m.generatedFrom then true
  else if !generatedFromNewView && needCheckSignature && !s.checkSignature E (.pbft m) then true
  else if !needVerifyProposal then m.consensusProposal.isSome
  else
    match s.cfg.getConsensusNodeByIndex m.generatedFrom with
    | none => true
    | some _ => m.consensusProposal.isSome

/-- The dereferences of one turn of the loop of `reHandlePrePrepareProposals`: the proposal of the entry, the one of the
precommit that it is filled from, and the node that its data is requested from. -/
def entryDereferences (s : Node) (m : PBFTMessage) : Bool :=
  match m.consensusProposal with
  | none => false
  | some p =>
    if p.data.length > 0 then s.prePrepareDereferences E m true true false
    else
      match (s.caches.find? m.index).bind (·.precommit) with
      | none => (s.cfg.getConsensusNodeByIndex m.generatedFrom).isSome
      | some precommit =>
        if precommit.hash = m.hash && precommit.index = m.index then
          match precommit.consensusProposal with
          | none => false
          | some stored => s.prePrepareDereferences E (m.setConsensusProposal (p.setData stored.data)) true true false
        else (s.cfg.getConsensusNodeByIndex m.generatedFrom).isSome

def entriesDereferences : Node → List PBFTMessage → Bool
  | _, [] => true
  | s, m :: l => s.entryDereferences E m && (s.reHandlePrePrepare E m).elim false fun t => entriesDereferences t l

def newViewDereferences (s : Node) (m : NewViewMsg) : Bool :=
  entriesDereferences E ((s.reachNewView m.view).notifyResetSealing none) m.prePrepareList

end Node

/-- What the node dereferences without a check: the proposals of its precommits and of the messages it waits for. -/
structure Node.Full (s : Node) : Prop where
  precommit : ∀ i c m, s.caches.find? i = some c → c.precommit = some m → m.consensusProposal.isSome = true
  verifying : ∀ c ∈ s.verifying, c.1.consensusProposal.isSome = true
  requests : ∀ m ∈ s.precommitRequests, m.consensusProposal.isSome = true

theorem Node.isSome_of_checkPrePrepareMsg {s : Node} {m : PBFTMessage} (h : s.checkPrePrepareMsg m = true) :
    m.consensusProposal.isSome = true := by
  by_contra hnone
  have hstate : s.checkPBFTMsgState m = false := by
    unfold checkPBFTMsgState
    rw [if_pos (by simpa using hnone)]
  unfold checkPrePrepareMsg at h
  rw [hstate] at h
  cases h

section

variable {E : Env} {l : Label} {s t : Node}

theorem CacheStep.full {cfg : Config} {now i : Int} {c c' : PBFTCache} (h : CacheStep E cfg now l i c c')
    (hc : ∀ m, c.precommit = some m → m.consensusProposal.isSome = true) {m : PBFTMessage} (hm : c'.precommit = some m) :
    m.consensusProposal.isSome = true := by
  have hkept : ∀ {d d' : PBFTCache}, d.Keeps d' → (∀ m, d.precommit = some m → m.consensusProposal.isSome = true) →
      d'.precommit = some m → m.consensusProposal.isSome = true := by
    intro d d' hk hd hm
    obtain ⟨m₀, hm₀, -, hproposal⟩ := hk.precommit_eq hm
    rw [hproposal]
    exact hd m₀ hm₀
  by_cases hkeeping : l.keeping = true
  · exact hkept (h.keeps hkeeping) hc hm
  · cases h with
    | same => exact hc m hm
    | store => exact hc m hm
    | preCommit =>
      rcases c.checkAndPreCommit_cases E cfg now with heq | ⟨q, p, -, -, -, -, -, heq⟩
      · rw [heq] at hm
        exact hc m hm
      · rw [heq] at hm
        refine hkept (PBFTCache.checkAndCommit_keeps cfg _) (fun m' hm' => ?_) hm
        obtain rfl := Option.some.inj hm'
        rfl
    | submit => exact hkept (c.checkAndCommit_keeps cfg) hc hm
    | _ => exact absurd rfl hkeeping

/-- Every step keeps it: a message is precommitted, verified or requested with its proposal. -/
theorem Prim.full (h : Prim E l s t) (hs : s.Full) : t.Full := by
  refine ⟨fun i c m hc hm => ?_, fun c hc => ?_, fun m hm => ?_⟩
  · refine (h.cacheStep hc).full (fun m' hm' => ?_) hm
    cases hold : s.caches.find? i with
    | none =>
      rw [hold] at hm'
      cases hm'
    | some d =>
      rw [hold] at hm'
      exact hs.precommit i d m' hold hm'
  · rcases h.intake.verifying c hc with hc | ⟨source, rfl⟩
    · exact hs.verifying c hc
    · cases h with
      | verify _ _ hcheck => exact Node.isSome_of_checkPrePrepareMsg hcheck
  · rcases h.intake.requests m hm with hm | ⟨own, rfl⟩
    · exact hs.requests m hm
    · cases h with
      | request _ _ hp =>
        obtain ⟨p, hp, -⟩ := hp
        rw [hp]
        rfl

theorem Steps.full {A : Label → Prop} (h : Steps E A s t) (hs : s.Full) : t.Full :=
  h.preserves (fun _ _ _ _ hp hu => hp.full hu) hs

theorem initNode_full {keyPair : KeyPair} {b : LedgerConfig} {state : List PBFTProposal} {s₀ : Node}
    (h : initNode E keyPair b state = some s₀) : s₀.Full := by
  have hfresh : ({ cfg := { keyPair := keyPair, timeoutState := true } } : Node).Full := by
    refine ⟨fun i c m hc _ => ?_, fun c hc => ?_, fun m hm => ?_⟩
    · cases hc
    · cases hc
    · cases hm
  obtain ⟨s, hs, hlast⟩ := initNode_steps (A := fun _ => True) trivial trivial trivial trivial (fun _ _ => trivial) h
  have hfull := Steps.full hs hfresh
  rcases hlast with rfl | ⟨last, -, rfl⟩
  · exact hfull
  · exact ⟨hfull.precommit, hfull.verifying, hfull.requests⟩

structure SameSources (s t : Node) : Prop where
  precommit : ∀ i, ((t.caches.find? i).bind (·.precommit)).map PBFTMessage.content =
    ((s.caches.find? i).bind (·.precommit)).map PBFTMessage.content
  nodes : ∀ i, t.cfg.getConsensusNodeByIndex i = s.cfg.getConsensusNodeByIndex i

theorem SameSources.refl (s : Node) : SameSources s s := ⟨fun _ => rfl, fun _ => rfl⟩

theorem SameSources.trans {u : Node} (h : SameSources s t) (h' : SameSources t u) : SameSources s u :=
  ⟨fun i => (h'.precommit i).trans (h.precommit i), fun i => (h'.nodes i).trans (h.nodes i)⟩

theorem Kept.precommit (h : Kept s t) (i : Int) : ((t.caches.find? i).bind (·.precommit)).map PBFTMessage.content =
    ((s.caches.find? i).bind (·.precommit)).map PBFTMessage.content := by
  cases ht : t.caches.find? i with
  | none =>
    cases hs : s.caches.find? i with
    | none => rfl
    | some c =>
      obtain ⟨c', hc'⟩ := h.stays i c hs
      rw [ht] at hc'
      cases hc'
  | some c' =>
    have hkeeps := (h.find i c' ht).precommit
    cases hs : s.caches.find? i with
    | none => rwa [hs] at hkeeps
    | some c => rwa [hs] at hkeeps

theorem sameSources_of_viewing (h : Steps E (fun l => l.viewing = true) s t) : SameSources s t := by
  refine h.preserves (I := SameSources s) (fun l u v hl hp hu => ?_) (.refl s)
  have hkeeping : l.keeping = true := by cases l <;> first | rfl | cases hl
  exact hu.trans ⟨(hp.kept hkeeping).precommit, (sameNodes_of_viewing (.single hl hp)).getConsensusNodeByIndex⟩

namespace Node

/-- The entry has its proposal, and there is data for it or a node to request the data from. -/
def Supplies (s : Node) (m : PBFTMessage) : Prop :=
  ∃ p, m.consensusProposal = some p ∧ (p.data ≠ [] ∨
    (∃ c precommit, s.caches.find? m.index = some c ∧ c.precommit = some precommit ∧ precommit.hash = m.hash ∧
      precommit.index = m.index) ∨
    (s.cfg.getConsensusNodeByIndex m.generatedFrom).isSome = true)

theorem prePrepareDereferences_eq (s : Node) (m : PBFTMessage) (needVerifyProposal generatedFromNewView
    needCheckSignature : Bool) :
    s.prePrepareDereferences E m needVerifyProposal generatedFromNewView needCheckSignature = true := by
  unfold prePrepareDereferences
  by_cases hcheck : s.checkPrePrepareMsg m = true
  · have hfull := isSome_of_checkPrePrepareMsg hcheck
    split_ifs
    · rfl
    · rfl
    · rfl
    · rfl
    · rfl
    · exact hfull
    · cases s.cfg.getConsensusNodeByIndex m.generatedFrom with
      | none => rfl
      | some _ => exact hfull
  · simp [hcheck]

theorem handlePrePrepareMsg_entry (s : Node) (m : PBFTMessage) :
    ∃ v, (s.handlePrePrepareMsg E m true true false).1 = { s with verifying := v } := by
  unfold handlePrePrepareMsg
  split_ifs with h₁ h₂ h₃ h₄ h₅ h₆
  · exact ⟨s.verifying, rfl⟩
  · exact ⟨s.verifying, rfl⟩
  · exact ⟨s.verifying, rfl⟩
  · cases h₄
  · cases h₅
  · cases h₆
  · split
    · exact ⟨s.verifying, rfl⟩
    · exact ⟨_, rfl⟩

theorem reHandlePrePrepare_frame {m : PBFTMessage} (h : s.reHandlePrePrepare E m = some t) :
    ∃ v r, t = { s with verifying := v, precommitRequests := r } := by
  unfold reHandlePrePrepare at h
  obtain ⟨p, -, h⟩ := Option.bind_eq_some_iff.1 h
  split_ifs at h
  · obtain rfl := Option.some.inj h
    obtain ⟨v, hv⟩ := s.handlePrePrepareMsg_entry (E := E) m
    exact ⟨v, s.precommitRequests, hv⟩
  · split at h
    · rename_i filled _
      obtain rfl := Option.some.inj h
      obtain ⟨v, hv⟩ := s.handlePrePrepareMsg_entry (E := E) filled
      exact ⟨v, s.precommitRequests, hv⟩
    · obtain ⟨_, -, h⟩ := Option.bind_eq_some_iff.1 h
      obtain rfl := Option.some.inj h
      exact ⟨s.verifying, _, rfl⟩

theorem reHandlePrePrepare_sameSources {m : PBFTMessage} (h : s.reHandlePrePrepare E m = some t) : SameSources s t := by
  obtain ⟨v, r, rfl⟩ := reHandlePrePrepare_frame h
  exact ⟨fun _ => rfl, fun _ => rfl⟩

theorem reHandlePrePrepare_full {m : PBFTMessage} (h : s.reHandlePrePrepare E m = some t) (hs : s.Full) : t.Full := by
  have hsteps : Steps E (fun _ => True) s t :=
    reHandlePrePrepare_steps s (fun _ _ => trivial) (fun _ => trivial) trivial (fun hown : false = true => Bool.noConfusion hown) h
  exact hsteps.full hs

theorem Supplies.congr {m : PBFTMessage} (h : SameSources s t) : t.Supplies m ↔ s.Supplies m := by
  have hprecommit : ∀ {u v : Node}, ((u.caches.find? m.index).bind (·.precommit)).map PBFTMessage.content =
      ((v.caches.find? m.index).bind (·.precommit)).map PBFTMessage.content →
      (∃ c precommit, v.caches.find? m.index = some c ∧ c.precommit = some precommit ∧ precommit.hash = m.hash ∧
        precommit.index = m.index) →
      ∃ c precommit, u.caches.find? m.index = some c ∧ c.precommit = some precommit ∧ precommit.hash = m.hash ∧
        precommit.index = m.index := by
    rintro u v heq ⟨c, q, hc, hq, hhash, hindex⟩
    rw [hc, Option.bind_some, hq, Option.map_some] at heq
    obtain ⟨q', hq', hcontent⟩ := Option.map_eq_some_iff.1 heq
    obtain ⟨c', hc', hq'⟩ := Option.bind_eq_some_iff.1 hq'
    have hbase : q'.base = q.base := congrArg Prod.fst hcontent
    refine ⟨c', q', hc', hq', ?_, ?_⟩
    · rwa [PBFTMessage.hash, hbase]
    · rwa [PBFTMessage.index, hbase]
  unfold Supplies
  rw [h.nodes]
  constructor
  · rintro ⟨p, hp, hdata | hfill | hnode⟩
    · exact ⟨p, hp, Or.inl hdata⟩
    · exact ⟨p, hp, Or.inr (Or.inl (hprecommit (h.precommit _).symm hfill))⟩
    · exact ⟨p, hp, Or.inr (Or.inr hnode)⟩
  · rintro ⟨p, hp, hdata | hfill | hnode⟩
    · exact ⟨p, hp, Or.inl hdata⟩
    · exact ⟨p, hp, Or.inr (Or.inl (hprecommit (h.precommit _) hfill))⟩
    · exact ⟨p, hp, Or.inr (Or.inr hnode)⟩

theorem entryDereferences_iff {m : PBFTMessage} (hs : s.Full) : s.entryDereferences E m = true ↔ s.Supplies m := by
  unfold entryDereferences Supplies
  cases hp : m.consensusProposal with
  | none =>
    refine ⟨fun h => Bool.noConfusion h, ?_⟩
    rintro ⟨p, hp, -⟩
    cases hp
  | some p =>
    dsimp only
    by_cases hdata : p.data = []
    · rw [if_neg (by simp [hdata])]
      cases hc : s.caches.find? m.index with
      | none => simp [hdata]
      | some c =>
        rw [Option.bind_some]
        cases hq : c.precommit with
        | none => simp [hdata, hq]
        | some q =>
          dsimp only
          have hfull := hs.precommit m.index c q hc hq
          by_cases hsame : q.hash = m.hash ∧ q.index = m.index
          · rw [if_pos (by simp [hsame])]
            obtain ⟨stored, hstored⟩ := Option.isSome_iff_exists.1 hfull
            rw [hstored]
            exact iff_of_true (prePrepareDereferences_eq _ _ _ _ _)
              ⟨p, rfl, Or.inr (Or.inl ⟨c, q, rfl, hq, hsame.1, hsame.2⟩)⟩
          · rw [if_neg (by simpa using hsame)]
            constructor
            · exact fun hnode => ⟨p, rfl, Or.inr (Or.inr hnode)⟩
            · rintro ⟨p', hp', hne | ⟨c', q', hc', hq', hhash, hindex⟩ | hnode⟩
              · obtain rfl := Option.some.inj hp'
                exact absurd hdata hne
              · obtain rfl := Option.some.inj hc'
                obtain rfl := Option.some.inj (hq.symm.trans hq')
                exact absurd ⟨hhash, hindex⟩ hsame
              · exact hnode
    · rw [if_pos (List.length_pos_iff.2 hdata)]
      exact iff_of_true (prePrepareDereferences_eq _ _ _ _ _) ⟨p, rfl, Or.inl hdata⟩

theorem isSome_reHandlePrePrepare {m : PBFTMessage} (hs : s.Full) :
    (s.reHandlePrePrepare E m).isSome = s.entryDereferences E m := by
  unfold reHandlePrePrepare entryDereferences
  cases hp : m.consensusProposal with
  | none => rfl
  | some p =>
    simp only [Option.bind_eq_bind, Option.bind_some]
    by_cases hdata : p.data.length > 0
    · rw [if_pos hdata, if_pos hdata, prePrepareDereferences_eq]
      rfl
    · rw [if_neg hdata, if_neg hdata]
      have hnode : ∀ {r : PBFTMessage}, ((s.cfg.getConsensusNodeByIndex m.generatedFrom).bind fun _ =>
          pure { s with precommitRequests := s.precommitRequests ++ [r] }).isSome =
            (s.cfg.getConsensusNodeByIndex m.generatedFrom).isSome := by
        intro r
        cases s.cfg.getConsensusNodeByIndex m.generatedFrom <;> rfl
      unfold tryToFillProposal
      cases hc : s.caches.find? m.index with
      | none => exact hnode
      | some c =>
        cases hq : c.precommit with
        | none =>
          simp only [Option.bind_eq_bind, Option.bind_some, hq, Option.bind_none]
          exact hnode
        | some q =>
          simp only [Option.bind_eq_bind, Option.bind_some, hq]
          by_cases hsame : (q.hash = m.hash && q.index = m.index) = true
          · rw [if_pos hsame, if_pos hsame]
            obtain ⟨stored, hstored⟩ := Option.isSome_iff_exists.1 (hs.precommit m.index c q hc hq)
            rw [hstored, hp]
            exact (prePrepareDereferences_eq _ _ _ _ _).symm
          · rw [if_neg hsame, if_neg hsame]
            exact hnode

theorem entriesDereferences_iff {l : List PBFTMessage} (hs : s.Full) :
    entriesDereferences E s l = true ↔ ∀ m ∈ l, s.Supplies m := by
  induction l generalizing s with
  | nil => exact iff_of_true rfl fun _ hm => absurd hm List.not_mem_nil
  | cons m l ih =>
    unfold entriesDereferences
    rw [Bool.and_eq_true, entryDereferences_iff hs, List.forall_mem_cons]
    refine and_congr_right fun hsupplies => ?_
    have hsome := isSome_reHandlePrePrepare (E := E) (m := m) hs
    rw [(entryDereferences_iff hs).2 hsupplies] at hsome
    obtain ⟨t, ht⟩ := Option.isSome_iff_exists.1 hsome
    rw [ht, Option.elim_some, ih (reHandlePrePrepare_full ht hs)]
    exact forall₂_congr fun _ _ => Supplies.congr (reHandlePrePrepare_sameSources ht)

theorem isSome_foldlM_reHandlePrePrepare {l : List PBFTMessage} (hs : s.Full) :
    (l.foldlM (reHandlePrePrepare E) s).isSome = entriesDereferences E s l := by
  induction l generalizing s with
  | nil => rfl
  | cons m l ih =>
    rw [List.foldlM_cons]
    unfold entriesDereferences
    rw [← isSome_reHandlePrePrepare hs]
    cases ht : s.reHandlePrePrepare E m with
    | none => rfl
    | some t => exact ih (reHandlePrePrepare_full ht hs)

end Node

end

/-- In every reachable state, with any messages waiting: what the node waits for carries its proposal, and a new view that is
found valid is handled without a null pointer exactly when every entry supplies its data; a null pointer ends the process. -/
theorem newView_dereferences_iff {E : Env} {keyPair : KeyPair} {b : LedgerConfig} {state : List PBFTProposal} {s₀ s t : Node}
    {trace : List (Node × Event)} {queue : List Message} {stage : WorkerStage} {m : NewViewMsg}
    (hinit : initNode E keyPair b state = some s₀) (hrun : Trail (step E) s₀ trace s)
    (hvalid : { s with msgQueue := queue, workerStage := stage }.isValidNewViewMsg E m = some (t, true)) :
    s.Full ∧ (t.newViewDereferences E m = true ↔ ∀ q ∈ m.prePrepareList, s.Supplies q) ∧
      ((t.reHandlePrePrepareProposals E m).isSome = t.newViewDereferences E m) := by
  have hs : s.Full := hrun.preserves (fun _ _ _ (_ : True) hstep hu => Steps.full (step_steps hstep) hu)
    (fun _ _ => trivial) (initNode_full hinit)
  have hqueued : ({ s with msgQueue := queue, workerStage := stage } : Node).Full := ⟨hs.precommit, hs.verifying, hs.requests⟩
  have hchecked := Node.isValidNewViewMsg_steps _ (fun _ hl => hl) hvalid
  have hentered : Steps E (fun l => l.viewing = true) t ((t.reachNewView m.view).notifyResetSealing none) :=
    (t.reachNewView_steps (fun _ hl => hl) m.view).trans
      (Quiet.steps (fun _ hl => Wide.isOpen (fun _ h => h) _ hl) (Node.notifyResetSealing_quiet _ _))
  have hfull := Steps.full (hchecked.trans hentered) hqueued
  have hqueue : SameSources s { s with msgQueue := queue, workerStage := stage } := ⟨fun _ => rfl, fun _ => rfl⟩
  refine ⟨hs, ?_, ?_⟩
  · unfold Node.newViewDereferences
    rw [Node.entriesDereferences_iff hfull]
    exact forall₂_congr fun q _ => Node.Supplies.congr (hqueue.trans (sameSources_of_viewing (hchecked.trans hentered)))
  · unfold Node.newViewDereferences Node.reHandlePrePrepareProposals
    rw [← Node.isSome_foldlM_reHandlePrePrepare hfull]
    dsimp only
    cases m.prePrepareList.foldlM (Node.reHandlePrePrepare E) ((t.reachNewView m.view).notifyResetSealing none) with
    | none => rfl
    | some u =>
      simp only [Option.bind_eq_bind, Option.bind_some]
      split_ifs <;> rfl

def toyListing (m : PBFTMessage) : List Event :=
  let newView : NewViewMsg := { base := { view := 1, generatedFrom := 2 }
                                viewChangeMsgList := [toySignedChange 0, toySignedChange 1, toySignedChange 2] }
  let newView := newView.setPrePrepareList Toy.env [m]
  .receive [2] (PBFTCodec.encode Toy.env (Toy.keyPair 2) 0 (.newView newView)).1 [] :: List.replicate 5 .gate

def Node.newViewWaiting (s : Node) : Option NewViewMsg :=
  match s.msgQueue with
  | [.newView m] => some m
  | _ => none

theorem Node.newViewWaiting_spec {s : Node} {m : NewViewMsg} (h : s.newViewWaiting = some m) : s.msgQueue = [.newView m] := by
  unfold newViewWaiting at h
  split at h
  · rename_i heq
    rw [heq, Option.some.inj h]
  · cases h

/-- The entry carries its data, and names a node that is none. -/
theorem toyListing_supplied : ∃ trace s m t, Trail.states (step Toy.env) (Toy.node 3 [1, 1, 1, 1])
    (toyListing (populatePrePrepare .PrePreparePacket (Toy.proposal 7) 0 1 0 9)) = some (trace, s) ∧
    s.newViewWaiting = some m ∧ { s with msgQueue := [], workerStage := .start }.isValidNewViewMsg Toy.env m = some (t, true) ∧
    t.newViewDereferences Toy.env m = true := by
  have hinit : initNode Toy.env (Toy.keyPair 3)
      { blockNumber := 0, hash := zeroHash, consensusNodeList := Toy.nodes [1, 1, 1, 1] } [] =
        some (Toy.node 3 [1, 1, 1, 1]) := by decide +kernel
  have hrun : ((Trail.states (step Toy.env) (Toy.node 3 [1, 1, 1, 1])
      (toyListing (populatePrePrepare .PrePreparePacket (Toy.proposal 7) 0 1 0 9))).elim false fun r =>
        r.2.newViewWaiting.elim false fun m =>
          ({ r.2 with msgQueue := [], workerStage := .start }.isValidNewViewMsg Toy.env m).elim false fun v =>
            v.2 && m.prePrepareList.all fun q => q.consensusProposal.any fun (p : PBFTProposal) => p.data ≠ []) = true := by
    decide +kernel
  obtain ⟨⟨trace, s⟩, hs, hcheck⟩ := Toy.exists_of_elim hrun
  obtain ⟨m, hm, hcheck⟩ := Toy.exists_of_elim hcheck
  obtain ⟨⟨t, valid⟩, ht, hcheck⟩ := Toy.exists_of_elim hcheck
  simp only [Bool.and_eq_true, List.all_eq_true] at hcheck
  obtain ⟨rfl, hdata⟩ := hcheck
  refine ⟨trace, s, m, t, hs, hm, ht, (newView_dereferences_iff hinit (.of_states hs) ht).2.1.2 fun q hq => ?_⟩
  obtain ⟨p, hp, hne⟩ := (Option.any_eq_true _ _).1 (hdata q hq)
  exact ⟨p, hp, Or.inl (of_decide_eq_true hne)⟩

/-- A null pointer in a new view that was found valid ends the process. -/
def Node.FailsOn (s : Node) (m : NewViewMsg) : Prop :=
  s.msgQueue = [.newView m] ∧
    ∃ t, { s with msgQueue := [], workerStage := .start }.isValidNewViewMsg Toy.env m = some (t, true) ∧
      t.newViewDereferences Toy.env m = false ∧ step Toy.env s .worker = none

theorem toyListing_fails_of {q : PBFTMessage} {P : NewViewMsg → Bool}
    (h : ((Trail.states (step Toy.env) (Toy.node 3 [1, 1, 1, 1]) (toyListing q)).elim false fun r =>
      r.2.newViewWaiting.elim false fun m =>
        ({ r.2 with msgQueue := [], workerStage := .start }.isValidNewViewMsg Toy.env m).elim false fun v =>
          P m && (v.2 && !v.1.newViewDereferences Toy.env m && (step Toy.env r.2 .worker).isNone)) = true) :
    ∃ trace s m, Trail (step Toy.env) (Toy.node 3 [1, 1, 1, 1]) trace s ∧ s.FailsOn m ∧ P m = true := by
  obtain ⟨⟨trace, s⟩, hs, hcheck⟩ := Toy.exists_of_elim h
  obtain ⟨m, hm, hcheck⟩ := Toy.exists_of_elim hcheck
  obtain ⟨⟨t, valid⟩, ht, hcheck⟩ := Toy.exists_of_elim hcheck
  simp only [Bool.and_eq_true, Bool.not_eq_true', Option.isNone_iff_eq_none] at hcheck
  obtain ⟨hlist, ⟨rfl, hnull⟩, hnone⟩ := hcheck
  exact ⟨trace, s, m, .of_states hs, ⟨Node.newViewWaiting_spec hm, t, ht, hnull, hnone⟩, hlist⟩

/-- The entry has no proposal, or a proposal without data and a node that is none. -/
theorem toyListing_fails :
    (∃ trace s m, Trail (step Toy.env) (Toy.node 3 [1, 1, 1, 1]) trace s ∧ s.FailsOn m ∧
      m.prePrepareList.map (·.consensusProposal) = [none]) ∧
    ∃ trace s m, Trail (step Toy.env) (Toy.node 3 [1, 1, 1, 1]) trace s ∧ s.FailsOn m ∧
      m.prePrepareList.map (·.generatedFrom) = [9] := by
  constructor
  · obtain ⟨trace, s, m, hs, hfails, hlist⟩ := toyListing_fails_of (q := { base := { index := 1, view := 1 } })
      (P := fun m => m.prePrepareList.map (·.consensusProposal) = [none]) (by decide +kernel)
    exact ⟨trace, s, m, hs, hfails, of_decide_eq_true hlist⟩
  · obtain ⟨trace, s, m, hs, hfails, hlist⟩ := toyListing_fails_of
      (q := populatePrePrepare .PrePreparePacket { proposal := { index := 1 } } 0 1 0 9)
      (P := fun m => m.prePrepareList.map (·.generatedFrom) = [9]) (by decide +kernel)
    exact ⟨trace, s, m, hs, hfails, of_decide_eq_true hlist⟩

end BcosPbft
