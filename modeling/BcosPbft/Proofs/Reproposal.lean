import BcosPbft.Proofs.Binding
import BcosPbft.Proofs.Leaders
import BcosPbft.Proofs.Window

/-! The range of indices that a new view proposes again. Both of its ends are the greatest of the numbers that view changes
state. What an honest node states stays within its window, as nothing is precommitted outside of it; the numbers of
the others are not tied to anything. -/

namespace BcosPbft

/-- The encoded hash fields are not about a higher index than the message. -/
def PBFTMessage.Coded (E : Env) (m : PBFTMessage) : Prop :=
  ∀ b, E.pb.baseMessage.decode m.raw.hashFieldsData = some b → b.index ≤ max 0 m.index

def Message.Coded (E : Env) : Message → Prop
  | .pbft m => m.Coded E
  | .newView m => ∀ p ∈ m.prePrepareList, p.Coded E
  | _ => True

section

variable {E : Env} {l : Label} {s t : Node}

theorem ofRaw_coded {raw : PBFTRawMessage} {m : PBFTMessage} (h : PBFTMessage.ofRaw E raw = some m) : m.Coded E := by
  obtain ⟨b, hb, rfl⟩ := Option.map_eq_some_iff.1 h
  intro b' hb'
  obtain rfl := Option.some.inj (hb.symm.trans hb')
  exact le_max_right 0 _

theorem encodeHashFields_coded (hpb : E.pb.baseMessage.Lawful) (m : PBFTMessage) : (m.encodeHashFields E).Coded E := by
  intro b hb
  obtain rfl := Option.some.inj ((hpb m.base).symm.trans hb)
  exact le_max_right 0 _

theorem decode_coded {fromNode : NodeID} {data : Bytes} {msg : Message} (h : PBFTCodec.decode E data = some msg) :
    (msg.setFrom fromNode).Coded E := by
  cases msg with
  | pbft m =>
    intro b hb
    have hdecoded := @decode_pbft E fromNode data _ (congrArg (Option.map (Message.setFrom fromNode)) h)
    obtain rfl := Option.some.inj (hdecoded.2.symm.trans hb)
    exact le_max_right 0 _
  | viewChange m => trivial
  | request m => trivial
  | newView m =>
    obtain ⟨raw, -, h⟩ := Option.bind_eq_some_iff.1 h
    obtain ⟨t, -, h⟩ := Option.bind_eq_some_iff.1 h
    obtain ⟨msg, hpay, h⟩ := Option.bind_eq_some_iff.1 h
    have hlist : ∃ m₀ : NewViewMsg, msg = .newView m₀ ∧ m.prePrepareList = m₀.prePrepareList := by
      have h := Option.some.inj h
      cases msg with
      | newView m₀ =>
        simp only [PBFTCodec.handleSignature] at h
        split at h
        · exact ⟨m₀, rfl, (congrArg NewViewMsg.prePrepareList (Message.newView.inj h)).symm⟩
        · exact ⟨m₀, rfl, (congrArg NewViewMsg.prePrepareList (Message.newView.inj h)).symm⟩
      | viewChange m₀ =>
        simp only [PBFTCodec.handleSignature] at h
        split at h <;> cases h
      | pbft m₀ => cases h
      | request m₀ => cases h
    obtain ⟨m₀, rfl, hlist⟩ := hlist
    have hraw : ∃ r m₁, NewViewMsg.ofRaw E r = some m₁ ∧ m₀.prePrepareList = m₁.prePrepareList := by
      cases t <;> simp only [PBFTCodec.decodePayLoad] at hpay <;>
        obtain ⟨m₁, hm₁, heq⟩ := Option.map_eq_some_iff.1 hpay <;> cases heq
      obtain ⟨r, -, hm₁⟩ := Option.bind_eq_some_iff.1 hm₁
      exact ⟨r, m₁, hm₁, rfl⟩
    obtain ⟨r, m₁, hm₁, heq⟩ := hraw
    obtain ⟨viewChanges, -, hm₁⟩ := Option.bind_eq_some_iff.1 hm₁
    obtain ⟨prePrepares, hmap, hm₁⟩ := Option.bind_eq_some_iff.1 hm₁
    obtain rfl := Option.some.inj hm₁
    intro p hp
    change p ∈ m.prePrepareList at hp
    rw [hlist, heq] at hp
    obtain ⟨r', hr'⟩ := exists_of_mapM hmap hp
    exact ofRaw_coded hr'

structure PBFTCache.Within (E : Env) (bound : Int) (c : PBFTCache) : Prop where
  prePrepare : ∀ m, c.prePrepare = some m → m.Coded E ∧ m.index ≤ bound
  withoutData : ∀ q, c.precommitWithoutData = some q → q.index ≤ bound

theorem PBFTCache.Within.mono {b b' : Int} {c : PBFTCache} (h : c.Within E b) (hb : b ≤ b') : c.Within E b' :=
  ⟨fun m hm => ⟨(h.prePrepare m hm).1, (h.prePrepare m hm).2.trans hb⟩, fun q hq => (h.withoutData q hq).trans hb⟩

theorem PBFTCache.within_empty (E : Env) (bound i : Int) : ({ index := i } : PBFTCache).Within E bound :=
  ⟨fun _ hm => (by cases hm), fun _ hq => (by cases hq)⟩

theorem populateWithoutProposal_index {m : PBFTMessage} (h : m.Coded E) :
    ((m.populateWithoutProposal E).getD {}).index ≤ max 0 m.index := by
  cases hcopy : m.populateWithoutProposal E with
  | none => exact le_max_left 0 _
  | some q =>
    obtain ⟨b, hb, rfl⟩ := Option.map_eq_some_iff.1 hcopy
    exact h b hb

theorem CacheStep.within (hpb : E.pb.baseMessage.Lawful) {cfg : Config} {now i bound : Int} {c c' : PBFTCache}
    (h : CacheStep E cfg now l i c c') (hbound : 0 ≤ bound) (hl : ∀ m, l = .store m → m.Coded E ∧ m.index ≤ bound)
    (hc : c.Within E bound) : c'.Within E bound := by
  have hcommit : ∀ d : PBFTCache, d.Within E bound → ((d.checkAndCommit cfg).1).Within E bound := by
    intro d hd
    rcases d.checkAndCommit_cases cfg with heq | ⟨heq, -⟩
    · rw [heq]
      exact hd
    · rw [heq]
      exact ⟨hd.prePrepare, hd.withoutData⟩
  cases h with
  | store m =>
    refine ⟨fun m' hm' => ?_, hc.withoutData⟩
    obtain rfl := Option.some.inj hm'
    exact hl m rfl
  | preCommit =>
    rcases c.checkAndPreCommit_cases E cfg now with heq | ⟨m, p, hm, -, -, -, -, heq⟩
    · rw [heq]
      exact hc
    rw [heq]
    obtain ⟨hcoded, hindex⟩ := hc.prePrepare m hm
    refine hcommit _ ⟨fun m' hm' => ?_, fun q hq => ?_⟩
    · obtain rfl := Option.some.inj hm'
      exact ⟨hcoded, hindex⟩
    · obtain rfl := Option.some.inj hq
      exact (populateWithoutProposal_index (m := (m.setGeneratedFrom cfg.nodeIndex).setConsensusProposal
        (PBFTCache.setSignatureList p c.prepareCacheList)) hcoded).trans (max_le hbound hindex)
  | submit => exact hcommit c hc
  | stable =>
    rcases c.checkAndCommitStableCheckPoint_cases cfg with heq | ⟨p, w, -, -, -, -, heq⟩
    · rw [heq]
      exact hc
    · rw [heq]
      exact ⟨hc.prePrepare, hc.withoutData⟩
  | reencode =>
    refine ⟨fun m' hm' => ?_, hc.withoutData⟩
    obtain ⟨m, hm, rfl⟩ := Option.map_eq_some_iff.1 hm'
    exact ⟨encodeHashFields_coded hpb m, (hc.prePrepare m hm).2⟩
  | setCheckPoint p =>
    unfold PBFTCache.setCheckPointProposal
    split_ifs
    · exact hc
    · exact hc
    · exact ⟨hc.prePrepare, hc.withoutData⟩
  | _ => exact ⟨hc.prePrepare, hc.withoutData⟩

def ViewChangeMsg.statedIndices (m : ViewChangeMsg) : Int × List Int :=
  (m.committedProposal.index, m.preparedProposals.map (·.index))

/-- The last index that a node with this configuration may have precommitted. -/
def Config.windowEnd (c : Config) : Int := c.committedIndex + c.warterMarkLimit

def ReportsWithin (c : Config) (log : List Action) : Prop :=
  ∀ dst m data, Action.send dst (.viewChange m) data ∈ log → m.packetType = .ViewChangePacket →
    m.committedProposal.index ≤ c.committedIndex ∧
      ∀ q ∈ m.preparedProposals, q.index ≤ m.committedProposal.index + c.warterMarkLimit

/-- What a node holds is coded, and what it stores and reports is within its window. -/
structure Reporting (E : Env) (s : Node) : Prop where
  managed : ∃ keyPair last, Config.Managed E keyPair last s.cfg
  limit : s.cfg.warterMarkLimit = 10
  queue : ∀ msg ∈ s.msgQueue, msg.Coded E
  verifying : ∀ c ∈ s.verifying, c.1.Coded E
  requests : ∀ m ∈ s.precommitRequests, m.Coded E
  generated : ∀ m, s.Generated m → m.Coded E
  caches : ∀ i c, s.caches.find? i = some c → c.Within E s.cfg.windowEnd
  sent : ReportsWithin s.cfg s.log

def Label.Coded (E : Env) : Label → Prop
  | .receive msg => msg.Coded E
  | .store m | .verify .packet m | .verify .answer m => m.Coded E
  | .verify (.entry false m₀) _ | .request false m₀ => m₀.Coded E
  | .ledger b => 0 ≤ b.blockNumber
  | _ => True

theorem Config.Managed.inOrder {keyPair : KeyPair} {last : Option (List ConsensusNode)} {c : Config}
    (h : Config.Managed E keyPair last c) : 0 ≤ c.committedIndex ∧ c.progressedIndex ≤ c.committedIndex + 1 := by
  unfold Config.committedIndex
  rcases h.progressed with ⟨hnone, hprogressed⟩ | ⟨p, hp, hnonneg, hprogressed⟩
  · rw [hnone, hprogressed]
    exact ⟨le_rfl, by decide⟩
  · rw [hp, hprogressed]
    exact ⟨hnonneg, le_rfl⟩

theorem send_viewChange_mem {keyPair : KeyPair} {dst dst' : Option NodeID} {m m' : ViewChangeMsg} {data : Bytes}
    (h : Action.send dst (.viewChange m) data ∈ sendActions E keyPair dst' (.viewChange m')) :
    m.committedProposal = m'.committedProposal ∧ m.preparedProposals = m'.preparedProposals := by
  simp only [sendActions, PBFTCodec.encode] at h
  split at h
  · simp only [List.map_cons, List.map_nil, List.cons_append, List.nil_append, List.mem_cons, List.not_mem_nil,
      or_false, reduceCtorEq, false_or, Action.send.injEq, Message.viewChange.injEq] at h
    obtain ⟨-, rfl, -⟩ := h
    exact ⟨rfl, rfl⟩
  · simp only [List.map_nil, List.nil_append, List.mem_cons, List.not_mem_nil, or_false, Action.send.injEq,
      Message.viewChange.injEq] at h
    obtain ⟨-, rfl, -⟩ := h
    exact ⟨rfl, rfl⟩

/-- The node's view changes are those that it generates in the state it sends them from. -/
theorem Emits.sends_viewChange {dst : Option NodeID} {m : ViewChangeMsg} {data : Bytes}
    (h : Emits E s l (.send dst (.viewChange m) data)) (htype : m.packetType = .ViewChangePacket) :
    m.committedProposal = s.generateViewChange.committedProposal ∧
      m.preparedProposals = s.generateViewChange.preparedProposals := by
  have hpbft : ∀ {v : PBFTMessage},
      Action.send dst (.viewChange m) data ∉ sendActions E s.cfg.keyPair none (.pbft v) := by
    intro v hmem
    simp [sendActions, PBFTCodec.encode] at hmem
  cases h with
  | neutral _ hn => exact absurd htype (of_decide_eq_true hn)
  | preCommit hc hm hp henough ha => simp [PBFTCache.precommitActions, hpbft] at ha
  | vote ha => simp [voteActions, hpbft] at ha
  | announce h hs ha => simp [announceActions, checkPointActions, hpbft] at ha
  | resend hc hp ha => simp [checkPointActions, hpbft] at ha
  | newView hmade ha =>
    simp only [sendActions, PBFTCodec.encode] at ha
    split at ha <;> simp at ha
  | sendViewChange ha => exact send_viewChange_mem ha

theorem Node.generateViewChange_committed (s : Node) :
    s.generateViewChange.committedProposal.index = s.cfg.committedIndex := by
  refine (populateProposal_proposal (s.cfg.committedProposal.getD {}) true).1.trans ?_
  unfold Config.committedIndex
  cases s.cfg.committedProposal <;> rfl

namespace Reporting

theorem prepared (hs : Reporting E s) : ∀ q ∈ s.preCommitCachesWithoutData, q.index ≤ s.cfg.windowEnd := by
  intro q hq
  obtain ⟨c, hc, hq⟩ := List.mem_filterMap.1 hq
  obtain ⟨e, he, rfl⟩ := List.mem_map.1 hc
  exact (hs.caches e.1 e.2 (OrdMap.find?_eq_some.2 he)).withoutData q hq

theorem sent_step (h : Prim E l s t) (hle : s.cfg.committedIndex ≤ t.cfg.committedIndex) (hs : Reporting E s) :
    ReportsWithin t.cfg t.log := by
  intro dst m data hmem htype
  rw [h.cfgStep.limit_eq]
  obtain ⟨k, hk, hemits⟩ := h.log
  rw [hk] at hmem
  rcases List.mem_append.1 hmem with hmem | hmem
  · obtain ⟨hcommitted, hprepared⟩ := hs.sent dst m data hmem htype
    exact ⟨hcommitted.trans hle, hprepared⟩
  · obtain ⟨hcommitted, hprepared⟩ := (hemits _ hmem).sends_viewChange htype
    rw [hcommitted, hprepared, s.generateViewChange_committed]
    exact ⟨hle, hs.prepared⟩

theorem caches_step (hpb : E.pb.baseMessage.Lawful) (h : Prim E l s t) (hl : l.Coded E)
    (hle : s.cfg.committedIndex ≤ t.cfg.committedIndex) (hs : Reporting E s) (i : Int) (c : PBFTCache)
    (hc : t.caches.find? i = some c) : c.Within E t.cfg.windowEnd := by
  obtain ⟨keyPair, last, hmanaged⟩ := hs.managed
  obtain ⟨hnonneg, hprogressed⟩ := hmanaged.inOrder
  have hlimit := hs.limit
  have hend : s.cfg.windowEnd ≤ t.cfg.windowEnd := by
    unfold Config.windowEnd
    rw [h.cfgStep.limit_eq]
    omega
  have hpos : 0 ≤ s.cfg.windowEnd := by
    unfold Config.windowEnd
    omega
  refine ((h.cacheStep hc).within hpb hpos (fun m hm => ?_) ?_).mono hend
  · subst hm
    refine ⟨hl, ?_⟩
    cases h with
    | store _ hcheck =>
      have hwindow := (checkPBFTMsgState_window (Locks.checkPrePrepareMsg_spec hcheck).1).2
      unfold Config.highWaterMark at hwindow
      unfold Config.windowEnd
      omega
  · cases hold : s.caches.find? i with
    | none => exact PBFTCache.within_empty E _ i
    | some d => exact hs.caches i d hold

theorem verifying_step (h : Prim E l s t) (hl : l.Coded E) (hs : Reporting E s) : ∀ c ∈ t.verifying, c.1.Coded E := by
  intro c hc
  rcases h.intake.verifying c hc with hc | ⟨source, rfl⟩
  · exact hs.verifying c hc
  cases source with
  | packet => exact hl
  | answer => exact hl
  | entry own m₀ =>
    have hsourced : s.Sourced c.1 (.entry own m₀) := by
      cases h with
      | verify _ newView hcheck hm => exact hm
    have hcoded : m₀.Coded E := by
      cases own with
      | true => exact hs.generated m₀ (hsourced.1 rfl)
      | false => exact hl
    rcases hsourced.2 with ⟨heq, -⟩ | hfill
    · rw [heq]
      exact hcoded
    · unfold Node.tryToFillProposal at hfill
      obtain ⟨d, -, hfill⟩ := Option.bind_eq_some_iff.1 hfill
      obtain ⟨precommit, -, hfill⟩ := Option.bind_eq_some_iff.1 hfill
      split at hfill
      · obtain ⟨stored, -, hfill⟩ := Option.bind_eq_some_iff.1 hfill
        obtain ⟨p, -, hfill⟩ := Option.bind_eq_some_iff.1 hfill
        rw [← Option.some.inj hfill]
        exact hcoded
      · cases hfill

theorem step (hpb : E.pb.baseMessage.Lawful) (h : Prim E l s t) (hl : l.Coded E) (hs : Reporting E s) : Reporting E t := by
  have hledger : ∀ b, l = .ledger b → 0 ≤ b.blockNumber := fun b hb => by
    subst hb
    exact hl
  have hle := h.cfgStep.committedIndex_le hledger
  obtain ⟨keyPair, hmanaged⟩ := hs.managed
  refine ⟨⟨keyPair, h.cfgStep.managed hledger hmanaged⟩, h.cfgStep.limit_eq.trans hs.limit, fun msg hmsg => ?_,
    hs.verifying_step h hl, fun m hm => ?_, fun m hm => ?_, hs.caches_step hpb h hl hle, hs.sent_step h hle⟩
  · rcases h.intake.msgQueue msg hmsg with hmsg | rfl
    · exact hs.queue msg hmsg
    · exact hl
  · rcases h.intake.requests m hm with hm | ⟨own, rfl⟩
    · exact hs.requests m hm
    · cases own with
      | false => exact hl
      | true =>
        cases h with
        | request _ hown => exact hs.generated m (hown rfl)
  · rcases h.generated hm with hm | ⟨u, v, hmade, hmem⟩
    · exact hs.generated m hm
    · obtain ⟨w, list, -, -, -, rfl, -⟩ := s.checkAndTryIntoNewView_some hmade
      obtain ⟨e, -, rfl⟩ := List.mem_map.1 hmem
      exact encodeHashFields_coded hpb e

theorem allows_coded {e : Event} (hempty : E.pb.baseMessage.decode [] = some {}) (he : e.Numbered) (hs : Reporting E s)
    (hl : e.allows E s l) : l.Coded E := by
  have hhead : ∀ {msg : Message}, e.handles s msg → msg.Coded E := by
    rintro msg ⟨-, -, rest, hqueue⟩
    exact hs.queue msg (by rw [hqueue]; exact List.mem_cons_self)
  cases l with
  | receive msg =>
    obtain ⟨fromNode, data, stored, m, -, hdecode, rfl⟩ := hl
    exact decode_coded hdecode
  | ledger b => exact he.nonneg hl
  | store m =>
    obtain ⟨hstores, -⟩ := hl
    unfold Event.stores at hstores
    split at hstores
    · obtain ⟨c, hc, rfl⟩ := Option.map_eq_some_iff.1 hstores
      exact hs.verifying c (List.mem_of_getElem? hc)
    · obtain ⟨b, -, rfl⟩ := Option.map_eq_some_iff.1 hstores
      -- a pre-prepare that was never encoded has no hash fields
      intro b' hb'
      obtain rfl := Option.some.inj (hempty.symm.trans hb')
      exact le_max_left 0 _
    · cases hstores
  | verify source m =>
    cases source with
    | packet => exact hhead hl.1
    | answer =>
      obtain ⟨i, data, m₀, -, hrequest, hcompletes, -⟩ := hl
      obtain ⟨response, precommit, p, q, -, -, -, -, -, -, rfl⟩ := hcompletes
      exact hs.requests m₀ (List.mem_of_getElem? hrequest)
    | entry own m₀ =>
      cases own with
      | true => trivial
      | false =>
        obtain ⟨v, hhandles, hmem, -⟩ := hl
        exact hhead hhandles m₀ hmem
  | request own m =>
    cases own with
    | true => trivial
    | false =>
      obtain ⟨v, hhandles, hmem, -⟩ := hl
      exact hhead hhandles m hmem
  | _ => trivial

theorem steps {A : Label → Prop} (hpb : E.pb.baseMessage.Lawful) (hA : ∀ l, A l → l.Coded E) (h : Steps E A s t)
    (hs : Reporting E s) : Reporting E t :=
  Labelled.Steps.preserves (fun _ _ _ hl hp hs => hs.step hpb hp (hA _ hl)) h hs

theorem event {e : Event} (hpb : E.pb.baseMessage.Lawful) (hempty : E.pb.baseMessage.decode [] = some {}) (he : e.Numbered)
    (h : BcosPbft.step E s e = some t) (hs : Reporting E s) : Reporting E t :=
  hs.steps hpb (fun _ hl => hs.allows_coded hempty he hl) (step_steps h)

end Reporting

theorem initNode_reporting (hpb : E.pb.baseMessage.Lawful) {keyPair : KeyPair} {l : LedgerConfig} {state : List PBFTProposal}
    {s₀ : Node} (hl : 0 ≤ l.blockNumber) (hinit : initNode E keyPair l state = some s₀) : Reporting E s₀ := by
  obtain ⟨s, hsteps, hs⟩ :=
    initNode_steps (A := fun label => label.Coded E) trivial trivial hl trivial (fun _ _ => trivial) hinit
  have hstart : Reporting E { cfg := { keyPair := keyPair, timeoutState := true } } := by
    refine ⟨⟨keyPair, none, .init rfl rfl rfl rfl⟩, rfl, ?_, ?_, ?_, ?_, ?_, ?_⟩
    all_goals simp [Node.Generated, OrdMap.find?_empty, ReportsWithin]
  have hreporting := hstart.steps hpb (fun _ hl => hl) hsteps
  rcases hs with rfl | ⟨last, -, rfl⟩
  · exact hreporting
  · obtain ⟨⟨keyPair', last', hmanaged⟩, h₂, h₃, h₄, h₅, h₆, h₇, h₈⟩ := hreporting
    refine ⟨⟨keyPair', last', ?_⟩, h₂, h₃, h₄, h₅, h₆, h₇, h₈⟩
    exact hmanaged.other ⟨rfl, rfl, rfl, rfl, rfl, rfl, rfl, rfl, rfl⟩

namespace Node

/-- The index after which `generatePrePrepareMsg` starts. -/
def rangeStart (s : Node) : Int := (s.maxCommittedIndex.find? s.cfg.toView).getD s.cfg.committedIndex

def rangeEnd (s : Node) : Int := (s.maxPrecommitIndex.find? s.cfg.toView).getD s.cfg.progressedIndex

/-- The node has accepted the view change, or made it, at its committed index. -/
def Collected (E : Env) (s : Node) (m : ViewChangeMsg) : Prop :=
  ∃ u : Node, u.cfg.committedIndex = s.cfg.committedIndex ∧
    ((∃ fromNode t, u.isValidViewChangeMsg E fromNode m = some (t, true)) ∨
      (PBFTCodec.encode E u.cfg.keyPair 0 (.viewChange u.generateViewChange)).2.1 = .viewChange m)

theorem Collected.committedIndex_le {m : ViewChangeMsg} (h : s.Collected E m) :
    s.cfg.committedIndex ≤ m.committedProposal.index := by
  obtain ⟨u, hu, hvalid | hown⟩ := h
  · obtain ⟨fromNode, t, hvalid⟩ := hvalid
    rcases isValidViewChangeMsg_cases hvalid with ⟨-, -, hret⟩ | ⟨hle, -, -⟩
    · exact Bool.noConfusion hret
    · exact hu ▸ hle
  · obtain ⟨m', hm', -, -, hcommitted⟩ := encode_viewChange (E := E) u.cfg.keyPair u.generateViewChange
    obtain rfl := Message.viewChange.inj (hown.symm.trans hm')
    rw [hcommitted, u.generateViewChange_committed, hu]

end Node

/-- The tables of the view hold the greatest numbers that the listed view changes state; the log line may have put a zero
where there was no prepared index. -/
structure IndexedBy (s : Node) (v : ViewType) (table : List ViewChangeMsg) : Prop where
  committed : RunningMax.Tracks (s.maxCommittedIndex.find? v) {i | ∃ m ∈ table, m.committedProposal.index = i}
  prepared : ∃ T, (∀ m ∈ table, ∀ q ∈ m.preparedProposals, q.index ∈ T) ∧
    (∀ i ∈ T, i = 0 ∨ ∃ m ∈ table, ∃ q ∈ m.preparedProposals, q.index = i) ∧
    RunningMax.Tracks (s.maxPrecommitIndex.find? v) T

namespace IndexedBy

variable {v : ViewType} {table : List ViewChangeMsg}

theorem empty (hcommitted : s.maxCommittedIndex.find? v = none) (hprepared : s.maxPrecommitIndex.find? v = none) :
    IndexedBy s v [] := by
  refine ⟨?_, ∅, fun m hm => (by cases hm), fun i hi => hi.elim, ?_⟩
  · rw [hcommitted]
    simpa using RunningMax.Tracks.none
  · rw [hprepared]
    exact .none

theorem congr (h : IndexedBy s v table) (hcommitted : t.maxCommittedIndex = s.maxCommittedIndex)
    (hprepared : t.maxPrecommitIndex = s.maxPrecommitIndex) : IndexedBy t v table := by
  refine ⟨?_, ?_⟩
  · rw [hcommitted]
    exact h.committed
  · rw [hprepared]
    exact h.prepared

theorem addViewChangeReq (h : IndexedBy s v table) {m : ViewChangeMsg} (hm : s.addViewChangeReq m ≠ s) :
    IndexedBy (s.addViewChangeReq m) v (if v = m.view then m :: table else table) := by
  obtain ⟨-, hcommitted, hprepared⟩ := (s.addViewChangeReq_cases m).resolve_left hm
  obtain ⟨T, hsub, hsup, htracks⟩ := h.prepared
  by_cases hv : v = m.view
  · subst hv
    rw [if_pos rfl]
    refine ⟨?_, ?_⟩
    · rw [hcommitted, RunningMax.find?_record, if_pos rfl]
      have hset : {i | ∃ m' ∈ m :: table, m'.committedProposal.index = i} =
          insert m.committedProposal.index {i | ∃ m' ∈ table, m'.committedProposal.index = i} := by
        ext i
        simp only [List.mem_cons, exists_eq_or_imp, Set.mem_ofPred_eq, Set.mem_insert_iff]
        exact ⟨Or.imp_left Eq.symm, Or.imp_left Eq.symm⟩
      rw [hset]
      exact h.committed.push _
    · rw [hprepared, find?_logMaxPrecommitIndex, if_pos rfl, RunningMax.find?_foldl_record, if_pos rfl]
      have hfold := htracks.foldl (m.preparedProposals.map (·.index))
      have hsub' : ∀ m' ∈ m :: table, ∀ q ∈ m'.preparedProposals,
          q.index ∈ T ∪ {i | i ∈ m.preparedProposals.map (·.index)} := by
        intro m' hm' q hq
        rcases List.mem_cons.1 hm' with rfl | hm'
        · exact Or.inr (List.mem_map.2 ⟨q, hq, rfl⟩)
        · exact Or.inl (hsub m' hm' q hq)
      have hsup' : ∀ i ∈ T ∪ {i | i ∈ m.preparedProposals.map (·.index)},
          i = 0 ∨ ∃ m' ∈ m :: table, ∃ q ∈ m'.preparedProposals, q.index = i := by
        rintro i (hi | hi)
        · rcases hsup i hi with hzero | ⟨m', hm', hq⟩
          · exact Or.inl hzero
          · exact Or.inr ⟨m', List.mem_cons_of_mem m hm', hq⟩
        · obtain ⟨q, hq, rfl⟩ := List.mem_map.1 hi
          exact Or.inr ⟨m, List.mem_cons_self, q, hq, rfl⟩
      split_ifs with hinfo
      · generalize (m.preparedProposals.map (·.index)).foldl RunningMax.push (s.maxPrecommitIndex.find? m.view) = o at hfold
        cases o with
        | some a => exact ⟨_, hsub', hsup', hfold⟩
        | none =>
          -- the log line makes the entry
          have hnone := hfold.empty rfl
          refine ⟨{0}, fun m' hm' q hq => ?_, fun i hi => Or.inl hi, ?_⟩
          · have hmem := hsub' m' hm' q hq
            rw [hnone] at hmem
            exact hmem.elim
          · rw [← insert_empty_eq (0 : Int)]
            exact RunningMax.Tracks.none.push 0
      · exact ⟨_, hsub', hsup', hfold⟩
  · rw [if_neg hv]
    refine ⟨?_, T, hsub, hsup, ?_⟩
    · rw [hcommitted, RunningMax.find?_record, if_neg hv]
      exact h.committed
    · rw [hprepared, find?_logMaxPrecommitIndex, if_neg hv, RunningMax.find?_foldl_record, if_neg hv]
      exact htracks

theorem step (h : Prim E l s t) (hs : ∃ table, IndexedBy s v table ∧ ∀ m ∈ table, m.view = v) :
    ∃ table, IndexedBy t v table ∧ ∀ m ∈ table, m.view = v := by
  obtain ⟨table, hs, hview⟩ := hs
  by_cases htabling : l.tabling = false
  · obtain ⟨-, -, hcommitted, hprepared⟩ := h.tables_same htabling
    exact ⟨table, hs.congr hcommitted hprepared, hview⟩
  cases h with
  | @viewChange _ own m hown hsig =>
    by_cases hm : s.addViewChangeReq m = s
    · rw [hm]
      exact ⟨table, hs, hview⟩
    · refine ⟨_, hs.addViewChangeReq hm, fun m' hm' => ?_⟩
      split_ifs at hm' with hv
      · rcases List.mem_cons.1 hm' with rfl | hm'
        · exact hv.symm
        · exact hview m' hm'
      · exact hview m' hm'
  | dropViewChanges => exact ⟨table, hs.congr rfl rfl, hview⟩
  | clearTables => exact ⟨[], .empty rfl rfl, fun m hm => (by cases hm)⟩
  | _ => exact absurd rfl htabling

end IndexedBy

/-- At any point of a run the tables come from some view changes of the view, recorded since they were cleared last. -/
theorem Steps.indexed {A : Label → Prop} {v : ViewType} (h : Steps E A s t)
    (hs : ∃ table, IndexedBy s v table ∧ ∀ m ∈ table, m.view = v) :
    ∃ table, IndexedBy t v table ∧ ∀ m ∈ table, m.view = v :=
  h.preserves (I := fun u => ∃ table, IndexedBy u v table ∧ ∀ m ∈ table, m.view = v)
    (fun _ _ _ _ hp hu => IndexedBy.step hp hu) hs

/-- The node was started by `init` and has run since, with block numbers that are not negative. -/
def Node.Reached (E : Env) (s : Node) : Prop :=
  ∃ keyPair l state s₀ trace, 0 ≤ l.blockNumber ∧ initNode E keyPair l state = some s₀ ∧
    Trail (BcosPbft.step E) s₀ trace s ∧ ∀ x ∈ trace, x.2.Numbered

theorem Node.Reached.reporting (hpb : E.pb.baseMessage.Lawful) (hempty : E.pb.baseMessage.decode [] = some {})
    (h : s.Reached E) : Reporting E s := by
  obtain ⟨keyPair, l, state, s₀, trace, hl, hinit, hrun, hn⟩ := h
  have hevent : ∀ s e t, Event.Numbered e → BcosPbft.step E s e = some t → Reporting E s → Reporting E t :=
    fun _ _ _ he hstep hs => hs.event hpb hempty he hstep
  exact hrun.preserves hevent hn (initNode_reporting hpb hl hinit)

namespace Group

/-- Some honest node has committed the block of the index. -/
def Attained (g : Group) (w : World) (i : Int) : Prop := ∃ Y, g.Honest Y ∧ i ≤ (w Y).cfg.committedIndex

def Reported (g : Group) (w : World) (m : ViewChangeMsg) : Prop :=
  ∃ Y dst m' data, g.Honest Y ∧ Action.send dst (.viewChange m') data ∈ (w Y).log ∧
    m'.packetType = .ViewChangePacket ∧ m.statedIndices = m'.statedIndices

variable {g : Group} {w : World}

/-- What honest nodes state is attained and within the window. -/
theorem Reported.within (hw : ∀ Y, g.Honest Y → Reporting E (w Y)) {m : ViewChangeMsg} (h : g.Reported w m) :
    g.Attained w m.committedProposal.index ∧
      ∀ q ∈ m.preparedProposals, q.index ≤ m.committedProposal.index + 10 := by
  obtain ⟨Y, dst, m', data, hY, hsend, htype, hsame⟩ := h
  obtain ⟨hcommitted, hprepared⟩ := Prod.mk.inj hsame
  obtain ⟨hle, hwithin⟩ := (hw Y hY).sent dst m' data hsend htype
  rw [(hw Y hY).limit] at hwithin
  refine ⟨⟨Y, hY, hcommitted.trans_le hle⟩, fun q hq => ?_⟩
  have hmem : q.index ∈ m'.preparedProposals.map (·.index) := hprepared ▸ List.mem_map_of_mem hq
  obtain ⟨q', hq', heq⟩ := List.mem_map.1 hmem
  rw [← heq, hcommitted]
  exact hwithin q' hq'

/-- For the tables made from any accepted view changes, the range starts at an index that an honest node has committed and is
not longer than the window, exactly if this holds of the numbers in the view changes that state what no honest node has. -/
theorem reproposal_range_iff (hpb : E.pb.baseMessage.Lawful) (hempty : E.pb.baseMessage.decode [] = some {})
    (hw : ∀ Y, g.Honest Y → (w Y).Reached E) {X : IndexType} (hX : g.Honest X)
    (hcommitted : s.cfg.committedIndex = (w X).cfg.committedIndex)
    (hprogressed : s.cfg.progressedIndex = (w X).cfg.progressedIndex)
    (hlimit : s.cfg.warterMarkLimit = (w X).cfg.warterMarkLimit) {table : List ViewChangeMsg}
    (htable : IndexedBy s s.cfg.toView table) (haccepted : ∀ m ∈ table, s.Collected E m) :
    (g.Attained w s.rangeStart ∧ s.rangeEnd - s.rangeStart ≤ s.cfg.warterMarkLimit) ↔
      ∀ m ∈ table, ¬g.Reported w m → g.Attained w m.committedProposal.index ∧
        ∀ q ∈ m.preparedProposals, ∃ m' ∈ table, q.index ≤ m'.committedProposal.index + s.cfg.warterMarkLimit := by
  have hreporting : ∀ Y, g.Honest Y → Reporting E (w Y) := fun Y hY => (hw Y hY).reporting hpb hempty
  have hten : s.cfg.warterMarkLimit = 10 := hlimit.trans (hreporting X hX).limit
  obtain ⟨keyPair, last, hmanaged⟩ := (hreporting X hX).managed
  obtain ⟨hnonneg, hnext⟩ := hmanaged.inOrder
  -- the range starts at the greatest stated committed index, which is not below the leader's own
  have hstart : (table = [] ∧ s.rangeStart = s.cfg.committedIndex) ∨
      ∃ m ∈ table, s.rangeStart = m.committedProposal.index ∧
        ∀ m' ∈ table, m'.committedProposal.index ≤ s.rangeStart := by
    unfold Node.rangeStart
    cases hc : s.maxCommittedIndex.find? s.cfg.toView with
    | none =>
      left
      refine ⟨List.eq_nil_iff_forall_not_mem.2 fun m hm => ?_, rfl⟩
      have hmem : m.committedProposal.index ∈ {i | ∃ m ∈ table, m.committedProposal.index = i} := ⟨m, hm, rfl⟩
      rw [htable.committed.empty hc] at hmem
      exact hmem.elim
    | some a =>
      obtain ⟨⟨m, hm, heq⟩, hmax⟩ := htable.committed.greatest a hc
      exact Or.inr ⟨m, hm, heq.symm, fun m' hm' => hmax ⟨m', hm', rfl⟩⟩
  have hown : s.cfg.committedIndex ≤ s.rangeStart := by
    rcases hstart with ⟨-, heq⟩ | ⟨m, hm, heq, -⟩
    · exact heq.ge
    · rw [heq]
      exact (haccepted m hm).committedIndex_le
  obtain ⟨T, hsub, hsup, htracks⟩ := htable.prepared
  constructor
  · rintro ⟨⟨Y, hY, hle⟩, hlength⟩ m hm -
    rcases hstart with ⟨hnil, -⟩ | ⟨m₀, hm₀, heq, hmax⟩
    · rw [hnil] at hm
      cases hm
    refine ⟨⟨Y, hY, (hmax m hm).trans hle⟩, fun q hq => ⟨m₀, hm₀, ?_⟩⟩
    obtain ⟨a, ha, hgreatest⟩ := htracks.exists_of_nonempty ⟨_, hsub m hm q hq⟩
    have hend : s.rangeEnd = a := by
      unfold Node.rangeEnd
      rw [ha, Option.getD_some]
    have hqa : q.index ≤ a := hgreatest.2 (hsub m hm q hq)
    omega
  · intro hothers
    have hentries : ∀ m ∈ table, g.Attained w m.committedProposal.index ∧
        ∀ q ∈ m.preparedProposals, q.index ≤ s.rangeStart + s.cfg.warterMarkLimit := by
      intro m hm
      by_cases hreported : g.Reported w m
      · obtain ⟨hattained, hwithin⟩ := hreported.within hreporting
        refine ⟨hattained, fun q hq => ?_⟩
        rcases hstart with ⟨hnil, -⟩ | ⟨-, -, -, hmax⟩
        · rw [hnil] at hm
          cases hm
        · have hq := hwithin q hq
          have hm := hmax m hm
          omega
      · obtain ⟨hattained, hwithin⟩ := hothers m hm hreported
        refine ⟨hattained, fun q hq => ?_⟩
        obtain ⟨m', hm', hle⟩ := hwithin q hq
        rcases hstart with ⟨hnil, -⟩ | ⟨-, -, -, hmax⟩
        · rw [hnil] at hm
          cases hm
        · have hm' := hmax m' hm'
          omega
    refine ⟨?_, ?_⟩
    · rcases hstart with ⟨-, heq⟩ | ⟨m, hm, heq, -⟩
      · exact ⟨X, hX, by rw [heq, hcommitted]⟩
      · rw [heq]
        exact (hentries m hm).1
    · unfold Node.rangeEnd
      cases hp : s.maxPrecommitIndex.find? s.cfg.toView with
      | none =>
        rw [Option.getD_none]
        omega
      | some a =>
        rw [Option.getD_some]
        rcases hsup a (htracks.greatest a hp).1 with rfl | ⟨m, hm, q, hq, rfl⟩
        · omega
        · have hqle := (hentries m hm).2 q hq
          omega

end Group

end

def toyFaulty : Group := { consensusNodeList := Toy.nodes [1, 1, 1, 1], faulty := {0} }

def toyPeers : World := fun Y => Toy.node (.ofNat Y.toNat) [1, 1, 1, 1]

theorem toyFaulty_honest {Y : IndexType} (h : toyFaulty.Honest Y) : Y = 1 ∨ Y = 2 ∨ Y = 3 := by
  obtain ⟨hlen, hne⟩ := h
  have hlen : Y.toNat < 4 := hlen
  have hne : Y ≠ 0 := fun heq => hne (Finset.mem_singleton.2 heq)
  have hne : Y.toNat ≠ 0 := fun heq => hne (UInt64.toNat_inj.1 heq)
  simp only [← UInt64.toNat_inj]
  change Y.toNat = 1 ∨ Y.toNat = 2 ∨ Y.toNat = 3
  omega

theorem toyPeers_reached {Y : IndexType} (h : toyFaulty.Honest Y) {events : List Event}
    {trace : List (Node × Event)} {s : Node} (hs : Trail.states (step Toy.env) (toyPeers Y) events = some (trace, s))
    (hn : ∀ e ∈ events, e.Numbered) : s.Reached Toy.env := by
  have hinit : initNode Toy.env (Toy.keyPair (.ofNat Y.toNat))
      { blockNumber := 0, hash := zeroHash, consensusNodeList := Toy.nodes [1, 1, 1, 1] } [] = some (toyPeers Y) := by
    rcases toyFaulty_honest h with rfl | rfl | rfl <;> decide +kernel
  exact ⟨_, _, _, _, trace, le_rfl, hinit, .of_states hs, fun x hx => hn x.2 (Trail.mem_events hs hx)⟩

theorem toyPeers_started {Y : IndexType} (h : toyFaulty.Honest Y) : (toyPeers Y).Reached Toy.env := by
  have hstates : Trail.states (step Toy.env) (toyPeers Y) [] = some ([], toyPeers Y) := rfl
  exact toyPeers_reached h hstates fun e he => (by cases he)

/-- The faulty node states that it has committed nothing. -/
theorem toyPeers_range : ∃ s : Node, s = (toyPeers 2).addViewChangeReq (toyViewChange 0 0) ∧
    toyFaulty.Attained toyPeers s.rangeStart ∧ s.rangeEnd - s.rangeStart ≤ 10 := by
  have hhonest : toyFaulty.Honest 2 := by decide
  have hne : (toyPeers 2).addViewChangeReq (toyViewChange 0 0) ≠ toyPeers 2 := by decide +kernel
  have hcfg : ((toyPeers 2).addViewChangeReq (toyViewChange 0 0)).cfg = (toyPeers 2).cfg := Node.addViewChangeReq_cfg _ _
  have htable := (IndexedBy.empty (s := toyPeers 2) (v := 0) rfl rfl).addViewChangeReq hne
  have hvalid : accepts ((toyPeers 2).isValidViewChangeMsg Toy.env none (toyViewChange 0 0)) = true := by decide +kernel
  obtain ⟨t, ht⟩ := accepts_iff.1 hvalid
  have hcollected : ((toyPeers 2).addViewChangeReq (toyViewChange 0 0)).Collected Toy.env (toyViewChange 0 0) :=
    ⟨toyPeers 2, by rw [hcfg], Or.inl ⟨none, t, ht⟩⟩
  have haccepted : ∀ m ∈ [toyViewChange 0 0], ((toyPeers 2).addViewChangeReq (toyViewChange 0 0)).Collected Toy.env m :=
    fun m hm => List.mem_singleton.1 hm ▸ hcollected
  have hrange := Group.reproposal_range_iff (Toy.object_lawful _) rfl (fun Y => toyPeers_started) hhonest
    (by rw [hcfg]) (by rw [hcfg]) (by rw [hcfg]) htable haccepted
  refine ⟨_, rfl, hrange.2 fun m hm _ => ?_⟩
  rw [List.mem_singleton.1 hm]
  exact ⟨⟨2, hhonest, by decide +kernel⟩, fun q hq => (by cases hq)⟩

/-- Node 2, the leader of view 1, accepts a view change of node 0 that has committed block 1, which no honest node has, and a
prepared proposal whose message is about index 100: the range is (1, 100]. -/
theorem toyFar_range : ∃ (w : World) (trace : List (Node × Event)), (∀ Y, toyFaulty.Honest Y → (w Y).Reached Toy.env) ∧
    Trail.states (step Toy.env) (toyPeers 2)
      (.timeout :: toyReport 0 [(toyPreparedTwo.setIndex 100).encodeHashFields Toy.env]) = some (trace, w 2) ∧
    (w 2).cfg.toView = 1 ∧ (∀ m, (w 2).StoresViewChange 1 m → m.generatedFrom = 0 ∨ m.generatedFrom = 2) ∧
    (w 2).cfg.weightOf 0 ≤ (w 2).cfg.maxFaultyQuorum ∧ ¬toyFaulty.Attained w (w 2).rangeStart ∧
    ¬(w 2).rangeEnd - (w 2).rangeStart ≤ (w 2).cfg.warterMarkLimit := by
  have hrun : ((Trail.states (step Toy.env) (toyPeers 2)
      (.timeout :: toyReport 0 [(toyPreparedTwo.setIndex 100).encodeHashFields Toy.env])).elim false fun r =>
        decide (r.2.cfg.toView = 1 ∧ r.2.cfg.weightOf 0 ≤ r.2.cfg.maxFaultyQuorum ∧ r.2.cfg.committedIndex = 0 ∧
          r.2.rangeStart = 1 ∧ r.2.rangeEnd = 100 ∧ r.2.cfg.warterMarkLimit = 10) &&
        ((r.2.viewChangeCache.find? 1).getD ∅).values.all fun m => m.generatedFrom = 0 ∨ m.generatedFrom = 2) = true := by
    decide +kernel
  obtain ⟨⟨trace, s⟩, hs, hcheck⟩ := Toy.exists_of_elim hrun
  simp only [Bool.and_eq_true, decide_eq_true_eq, List.all_eq_true] at hcheck
  obtain ⟨⟨hview, hweight, hcommitted, hstart, hend, hlimit⟩, hstored⟩ := hcheck
  refine ⟨Function.update toyPeers 2 s, trace, fun Y hY => ?_, ?_⟩
  · by_cases hY2 : Y = 2
    · subst hY2
      rw [Function.update_self]
      refine toyPeers_reached hY hs fun e he => ?_
      have hnumbered : (Event.timeout :: toyReport 0 [(toyPreparedTwo.setIndex 100).encodeHashFields Toy.env]).all
          fun e => decide e.Numbered := by decide +kernel
      exact of_decide_eq_true (List.all_eq_true.1 hnumbered e he)
    · rw [Function.update_of_ne hY2]
      exact toyPeers_started hY
  · rw [Function.update_self]
    refine ⟨hs, hview, fun m hm => hstored m (Node.mem_values_viewChanges.2 hm), hweight, ?_, ?_⟩
    · rintro ⟨Y, hY, hle⟩
      rw [hstart] at hle
      have hzero : (Function.update toyPeers 2 s Y).cfg.committedIndex = 0 := by
        rcases toyFaulty_honest hY with rfl | rfl | rfl
        · rw [Function.update_of_ne (by decide)]
          decide +kernel
        · rw [Function.update_self]
          exact hcommitted
        · rw [Function.update_of_ne (by decide)]
          decide +kernel
      omega
    · rw [hstart, hend, hlimit]
      decide

end BcosPbft
