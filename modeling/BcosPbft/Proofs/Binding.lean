import BcosPbft.Proofs.CommitQueue
import BcosPbft.Proofs.PrePrepareList
import BcosPbft.Proofs.Prepare

/-! The three copies of the index and hash of a proposal: in the message, in the proposal it carries and in the header of
the data. No handler compares them, so they are equal in what is stored when they are in what arrives. -/

namespace BcosPbft

def PBFTProposal.Headed (E : Env) (p : PBFTProposal) : Prop :=
  E.headerNumber p.data = some p.index ∧ E.headerHash p.data = p.hash

def PBFTProposal.Numbered (E : Env) (p : PBFTProposal) : Prop := ∀ n ∈ E.headerNumber p.data, n = p.index

/-- The message, its proposal and the header of the data have one index and hash. -/
def PBFTMessage.Bound (E : Env) (m : PBFTMessage) : Prop := m.Matches ∧ ∀ p ∈ m.consensusProposal, p.Headed E

def PBFTMessage.Fits (E : Env) (m : PBFTMessage) : Prop :=
  m.Matches ∧ ∀ p ∈ m.consensusProposal, p.data ≠ [] → p.Headed E

def ViewChangeMsg.Headed (E : Env) (v : ViewChangeMsg) : Prop :=
  ∀ q ∈ v.preparedProposals, ∀ p ∈ q.consensusProposal, p.data ≠ [] → p.Headed E

instance (E : Env) (m : PBFTMessage) : Decidable (m.Bound E) :=
  inferInstanceAs (Decidable (m.Matches ∧ ∀ p ∈ m.consensusProposal, _ ∧ _))

/-- What an event brings in that may be stored or applied has one index and hash in all its copies. -/
structure Event.Binds (E : Env) (s : Node) (e : Event) : Prop where
  sealed : ∀ i b, e = .proposalSubmitted i → s.submitting[i]? = some b → s.checkPrePrepareMsg b.prePrepare = true →
    E.headerNumber b.data = some b.index ∧ E.headerHash b.data = b.hash
  packet : ∀ m, e.handles s (.pbft m) → m.packetType = .PrePreparePacket → s.TakesPrePrepare E m → m.Bound E
  newView : ∀ v, e.handles s (.newView v) → s.TakesNewView E v → ∀ m ∈ v.prePrepareList, m.Fits E
  viewChange : ∀ v, e.handles s (.viewChange v) → v.packetType = .ViewChangePacket →
    s.checkSignature E (.viewChange v) = true → v.Headed E
  answer : ∀ i data m₀ m, e = .precommitResponse i data → s.precommitRequests[i]? = some m₀ → Node.Completes E m₀ data m →
    s.checkPrePrepareMsg m = true → ∀ p ∈ m.consensusProposal, p.Headed E
  fetched : ∀ p, e.fetches E s p → p.Numbered E

def Bounded (E : Env) (i : Int) (h : HashType) (p : RawProposal) : Prop :=
  p.index = i ∧ toHash p.hash = h ∧ E.headerNumber p.data = some i ∧ E.headerHash p.data = h

theorem PBFTMessage.Bound.bounded {E : Env} {m : PBFTMessage} {p : PBFTProposal} (h : m.Bound E)
    (hp : m.consensusProposal = some p) : Bounded E m.index m.hash p.proposal := by
  obtain ⟨hindex, hhash⟩ := h.1 p hp
  obtain ⟨hnumber, hheader⟩ := h.2 p hp
  exact ⟨hindex, hhash, hnumber.trans (congrArg some hindex), hheader.trans hhash⟩

theorem PBFTMessage.Fits.bound {E : Env} {m : PBFTMessage} {p : PBFTProposal} (h : m.Fits E)
    (hp : m.consensusProposal = some p) (hdata : p.data ≠ []) : m.Bound E := by
  refine ⟨h.1, fun p' hp' => ?_⟩
  obtain rfl := Option.some.inj (hp.symm.trans hp')
  exact h.2 p hp hdata

theorem populatePrePrepare_matches (t : PacketType) (p : PBFTProposal) (version : Int) (view : ViewType) (now : Int)
    (generatedFrom : IndexType) : (populatePrePrepare t p version view now generatedFrom).Matches := by
  intro p' hp'
  obtain rfl := Option.some.inj hp'
  exact ⟨rfl, (toHash_val p.hash).symm⟩

theorem PBFTMessage.Matches.setData {m : PBFTMessage} {q : PBFTProposal} (h : m.Matches) (hq : m.consensusProposal = some q)
    (data : Bytes) : (m.setConsensusProposal (q.setData data)).Matches := by
  intro p hp
  obtain rfl := Option.some.inj hp
  exact h q hq

namespace Node

variable {E : Env} {s : Node}

theorem tryToFillProposal_bound {m m' : PBFTMessage} (h : s.tryToFillProposal m = some m') (hm : m.Matches)
    (hs : ∀ i c, s.caches.find? i = some c → c.Carries (Bounded E)) : m'.Bound E := by
  unfold tryToFillProposal at h
  obtain ⟨c, hc, h⟩ := Option.bind_eq_some_iff.1 h
  obtain ⟨precommit, hprecommit, h⟩ := Option.bind_eq_some_iff.1 h
  split at h
  · rename_i hsame
    simp only [Bool.and_eq_true, decide_eq_true_eq] at hsame
    obtain ⟨stored, hstored, h⟩ := Option.bind_eq_some_iff.1 h
    obtain ⟨q, hq, h⟩ := Option.bind_eq_some_iff.1 h
    obtain rfl := Option.some.inj h
    obtain ⟨-, -, hnumber, hheader⟩ := hs m.index c hc precommit stored (Or.inr hprecommit) hstored
    refine ⟨hm.setData hq stored.data, fun p hp => ?_⟩
    obtain rfl := Option.some.inj hp
    obtain ⟨hindex, hhash⟩ := hm q hq
    exact ⟨hnumber.trans (congrArg some (hsame.2.trans hindex.symm)), hheader.trans (hsame.1.trans hhash.symm)⟩
  · cases h

/-- The node's own view change reports its precommits without their data. -/
theorem generateViewChange_headed {v : ViewChangeMsg} {keyPair : KeyPair}
    (h : (PBFTCodec.encode E keyPair 0 (.viewChange s.generateViewChange)).2.1 = .viewChange v)
    (hs : ∀ i c, s.caches.find? i = some c → ∀ m ∈ c.precommitWithoutData, ∀ p ∈ m.consensusProposal, p.data = []) :
    v.Headed E := by
  have hprepared : v.preparedProposals = s.preCommitCachesWithoutData := by
    simp only [PBFTCodec.encode] at h
    split at h <;> obtain rfl := Message.viewChange.inj h <;> rfl
  intro q hq p hp hdata
  rw [hprepared] at hq
  obtain ⟨c, hc, hq⟩ := List.mem_filterMap.1 hq
  obtain ⟨e, he, rfl⟩ := List.mem_map.1 hc
  exact absurd (hs e.1 e.2 (OrdMap.find?_eq_some.2 he) q hq p hp) hdata

/-- A new view of the node's own fits, if the prepared proposals that it has collected do and an empty block has the
number and hash it is made for. -/
theorem checkAndTryIntoNewView_fits {t : Node} {v : NewViewMsg} (h : s.checkAndTryIntoNewView E = some (t, some v))
    (hempty : ∀ i sealer, E.headerNumber (E.emptyBlock i sealer).2 = some i ∧
      E.headerHash (E.emptyBlock i sealer).2 = (E.emptyBlock i sealer).1)
    (hs : ∀ view vc, s.StoresViewChange view vc → vc.Headed E) : ∀ m ∈ v.prePrepareList, m.Fits E := by
  obtain ⟨w, list, -, -, hlist, rfl, -⟩ := s.checkAndTryIntoNewView_some h
  intro m hm
  obtain ⟨e, he, rfl⟩ := List.mem_map.1 hm
  obtain ⟨p, generatedFrom, rfl, hp⟩ := generatePrePrepareMsg_mem hlist he
  refine ⟨populatePrePrepare_matches .PrePreparePacket p 0 s.cfg.toView s.utcTime generatedFrom, fun p' hp' hdata => ?_⟩
  obtain rfl := Option.some.inj hp'
  rcases hp with ⟨q, hq, hqp⟩ | ⟨i, rfl⟩
  · obtain ⟨vc, hvc, hq⟩ := List.mem_flatMap.1 hq
    exact hs _ vc (mem_values_viewChanges.1 hvc) q hq p hqp hdata
  · obtain ⟨hnumber, hheader⟩ := hempty i s.cfg.nodeIndex.toNat
    exact ⟨hnumber, hheader.trans (toHash_val _).symm⟩

end Node

theorem CacheStep.withoutData {E : Env} {cfg : Config} {now i : Int} {l : Label} {c c' : PBFTCache}
    (h : CacheStep E cfg now l i c c') : c'.precommitWithoutData = c.precommitWithoutData ∨
      ∀ m ∈ c'.precommitWithoutData, ∀ p ∈ m.consensusProposal, p.data = [] := by
  have hcommit : ∀ d : PBFTCache, (d.checkAndCommit cfg).1.precommitWithoutData = d.precommitWithoutData := by
    intro d
    rcases d.checkAndCommit_cases cfg with heq | ⟨heq, -⟩ <;> rw [heq]
  cases h with
  | preCommit =>
    rcases c.checkAndPreCommit_cases E cfg now with heq | ⟨m, p, -, -, -, -, -, heq⟩
    · rw [heq]
      exact Or.inl rfl
    · rw [heq]
      right
      dsimp only
      rw [hcommit]
      intro m' hm' p' hp'
      obtain rfl := Option.some.inj hm'
      obtain rfl := Option.some.inj hp'
      exact congrArg RawProposal.data (populateProposal_record _ false)
  | submit => exact Or.inl (hcommit c)
  | stable =>
    left
    rcases c.checkAndCommitStableCheckPoint_cases cfg with heq | ⟨p, w, -, -, -, -, heq⟩ <;> rw [heq]
  | setCheckPoint p =>
    left
    unfold PBFTCache.setCheckPointProposal
    split_ifs <;> rfl
  | _ => exact Or.inl rfl

theorem Prim.storesViewChange {E : Env} {l : Label} {s t : Node} (h : Prim E l s t) {v : ViewType} {m : ViewChangeMsg}
    (hm : t.StoresViewChange v m) : s.StoresViewChange v m ∨ ∃ own, l = .viewChange own m := by
  by_cases htabling : l.tabling = false
  · obtain ⟨hcache, -⟩ := h.tables_same htabling
    left
    unfold Node.StoresViewChange at hm ⊢
    rwa [hcache] at hm
  · cases h with
    | @viewChange _ own m' hown hsig =>
      rcases s.addViewChangeReq_cases m' with heq | ⟨hstores, -, -⟩
      · rw [heq] at hm
        exact Or.inl hm
      · rcases (hstores v m).1 hm with hm | ⟨-, rfl⟩
        · exact Or.inl hm
        · exact Or.inr ⟨own, rfl⟩
    | dropViewChanges _ view i => exact Or.inl hm.of_removeInvalidViewChange
    | clearTables => exact Or.inl hm
    | _ => exact absurd rfl htabling

def Label.Binds (E : Env) : Label → Prop
  | .store m | .verify .packet m | .verify .answer m => m.Bound E
  | .verify (.entry false m₀) _ => m₀.Fits E
  | .request false m₀ => m₀.Matches
  | .viewChange false v => v.Headed E
  | .load p | .push .loaded p | .push .failed p => p.Numbered E
  | _ => True

/-- Everything that may be stored, reported or applied is bound, as far as its data is there. -/
structure Bindings (E : Env) (s : Node) : Prop where
  index : ∀ i c, s.caches.find? i = some c → c.index = i
  caches : ∀ i c, s.caches.find? i = some c → c.Carries (Bounded E)
  withoutData : ∀ i c, s.caches.find? i = some c → ∀ m ∈ c.precommitWithoutData, ∀ p ∈ m.consensusProposal, p.data = []
  verifying : ∀ c ∈ s.verifying, c.1.Bound E
  requests : ∀ m ∈ s.precommitRequests, m.Matches
  viewChanges : ∀ v m, s.StoresViewChange v m → m.Headed E
  newViews : ∀ m, s.Generated m → m.Fits E
  stored : ∀ i m, Action.storePrePrepare i m ∈ s.log → m.index = i ∧ m.consensusProposal.isSome = true ∧ m.Bound E
  reports : ∀ c quorum, Action.reportCommit c quorum ∈ s.log → c.Carries (Bounded E)
  loading : ∀ c ∈ s.loading, c.1.Numbered E
  queue : ∀ p ∈ s.committedQueue, Action.pushCommitted p ∈ s.log
  flight : ∀ x ∈ s.roots, Action.pushCommitted x.2 ∈ s.log
  pushed : ∀ p, Action.pushCommitted p ∈ s.log → p.Numbered E
  results : ∀ r ∈ s.applied, r.success = true → r.executedProposal.index = r.proposal.index

theorem Prim.generated {E : Env} {l : Label} {s t : Node} (h : Prim E l s t) {m : PBFTMessage} (hm : t.Generated m) :
    s.Generated m ∨ ∃ u v, s.checkAndTryIntoNewView E = some (u, some v) ∧ m ∈ v.prePrepareList := by
  obtain ⟨dst, msg, data, hsend, hmem⟩ := hm
  obtain ⟨k, hk, hemits⟩ := h.log
  rw [hk] at hsend
  rcases List.mem_append.1 hsend with hsend | hsend
  · exact Or.inl ⟨dst, msg, data, hsend, hmem⟩
  · obtain ⟨u, v, -, hmade, -, -, hlist⟩ := (hemits _ hsend).sends_newView
    exact Or.inr ⟨u, v, hmade, hlist ▸ hmem⟩

namespace Bindings

variable {E : Env} {l : Label} {s t : Node}

theorem pushes (hs : Bindings E s) {p : PBFTProposal} (hp : s.Pushes p) : ∃ c quorum m,
    Action.reportCommit c quorum ∈ s.log ∧ c.precommit = some m ∧ m.consensusProposal = some p ∧
      Bounded E m.index m.hash p.proposal := by
  obtain ⟨c, quorum, hmem, hp⟩ := hp
  obtain ⟨m, hm, hmp⟩ := Option.bind_eq_some_iff.1 hp
  exact ⟨c, quorum, m, hmem, hm, hmp, hs.reports c quorum hmem m p (Or.inr hm) hmp⟩

theorem verifying_step (h : Prim E l s t) (hl : l.Binds E) (hs : Bindings E s) : ∀ c ∈ t.verifying, c.1.Bound E := by
  intro c hc
  rcases h.intake.verifying c hc with hc | ⟨source, rfl⟩
  · exact hs.verifying c hc
  cases source with
  | packet => exact hl
  | answer => exact hl
  | entry own m₀ =>
    have hsourced : s.Sourced c.1 (.entry own m₀) := by
      cases h with
      | verify _ newView hcheck hm => exact hm
    have hfits : m₀.Fits E := by
      cases own with
      | true => exact hs.newViews m₀ (hsourced.1 rfl)
      | false => exact hl
    rcases hsourced.2 with ⟨heq, p, hp, hdata⟩ | hfill
    · rw [heq]
      exact hfits.bound hp hdata
    · exact Node.tryToFillProposal_bound hfill hfits.1 hs.caches

theorem results_step (h : Prim E l s t) (hs : Bindings E s) :
    ∀ r ∈ t.applied, r.success = true → r.executedProposal.index = r.proposal.index := by
  intro r hr hsucc
  by_cases hl : l = .executed
  · subst hl
    cases h with
    | executed _ i error =>
      rcases s.onExecuted_results i error r hr with hr | ⟨e, he, happly⟩
      · exact hs.results r hr hsucc
      · have hroot : (e.lastApplied, e.proposal) ∈ s.roots :=
          List.mem_append_left _ (List.mem_map.2 ⟨e, List.mem_of_getElem? he, rfl⟩)
        rw [(applyProposal_cases happly).1.1]
        exact Rooted.applyProposal_number happly (hs.pushed _ (hs.flight _ hroot)) hsucc
  · obtain ⟨r', hr', hsucc', hproposal, hexecuted⟩ := h.results hl hr
    rw [← hproposal, ← hexecuted]
    exact hs.results r' hr' (hsucc'.trans hsucc)

theorem pushed_step (h : Prim E l s t) (hl : l.Binds E) (hs : Bindings E s) :
    ∀ p, Action.pushCommitted p ∈ t.log → p.Numbered E := by
  intro p hp
  obtain ⟨k, hk, hemits⟩ := h.log
  rw [hk] at hp
  rcases List.mem_append.1 hp with hp | hp
  · exact hs.pushed p hp
  obtain ⟨source, rfl⟩ := (hemits _ hp).pushed
  cases source with
  | committed =>
    cases h with
    | push _ hx hpushes =>
      obtain ⟨c, quorum, m, -, -, -, hindex, -, hnumber, -⟩ := hs.pushes (hpushes rfl)
      intro n hn
      rw [Option.mem_def, PBFTProposal.data, hnumber] at hn
      exact (Option.some.inj hn).symm.trans hindex.symm
  | loaded => exact hl
  | failed => exact hl

theorem step (h : Prim E l s t) (hempty : ∀ i sealer, E.headerNumber (E.emptyBlock i sealer).2 = some i ∧
    E.headerHash (E.emptyBlock i sealer).2 = (E.emptyBlock i sealer).1) (hl : l.Binds E) (hs : Bindings E s) :
    Bindings E t := by
  have hcaches : ∀ i c, t.caches.find? i = some c → c.Carries (Bounded E) := by
    intro i c hc
    refine h.carries hs.caches (fun m p hm hp => ?_) hc
    subst hm
    exact PBFTMessage.Bound.bounded hl hp
  refine ⟨fun i c hc => ?_, hcaches, fun i c hc => ?_, hs.verifying_step h hl, fun m hm => ?_, fun v m hm => ?_,
    fun m hm => ?_, fun i m hm => ?_, fun c quorum hmem => ?_, fun c hc => ?_, h.queue_pushed hs.queue,
    h.flight_pushed hs.queue hs.flight, hs.pushed_step h hl, hs.results_step h⟩
  · rw [(h.cacheStep hc).index]
    cases hold : s.caches.find? i with
    | none => rfl
    | some c => exact hs.index i c hold
  · rcases (h.cacheStep hc).withoutData with heq | hnone
    · rw [heq]
      cases hold : s.caches.find? i with
      | none =>
        intro m hm
        cases hm
      | some c => exact hs.withoutData i c hold
    · exact hnone
  · rcases h.intake.requests m hm with hm | ⟨own, rfl⟩
    · exact hs.requests m hm
    · cases own with
      | false => exact hl
      | true =>
        cases h with
        | request _ hown => exact (hs.newViews m (hown rfl)).1
  · rcases h.storesViewChange hm with hm | ⟨own, rfl⟩
    · exact hs.viewChanges v m hm
    · cases own with
      | false => exact hl
      | true =>
        cases h with
        | viewChange _ hown => exact Node.generateViewChange_headed (hown rfl) hs.withoutData
  · rcases h.generated hm with hm | ⟨u, v, hmade, hmem⟩
    · exact hs.newViews m hm
    · exact Node.checkAndTryIntoNewView_fits hmade hempty hs.viewChanges m hmem
  · rcases h.stored hm with hm | ⟨rfl, hi⟩
    · exact hs.stored i m hm
    · refine ⟨?_, ?_, hl⟩
      · rw [hi]
        cases hold : s.caches.find? m.index with
        | none => rfl
        | some c => exact (hs.index _ c hold).symm
      · cases h with
        | store _ hcheck => exact Node.checkPBFTMsgState_proposal (Locks.checkPrePrepareMsg_spec hcheck).1
  · rcases h.reported hmem with hmem | ⟨-, i, hc⟩
    · exact hs.reports c quorum hmem
    · exact hcaches i c hc
  · rcases h.intake.loading c hc with hc | rfl
    · exact hs.loading c hc
    · exact hl

theorem steps {A : Label → Prop} (hempty : ∀ i sealer, E.headerNumber (E.emptyBlock i sealer).2 = some i ∧
    E.headerHash (E.emptyBlock i sealer).2 = (E.emptyBlock i sealer).1) (hA : ∀ l, A l → l.Binds E) (h : Steps E A s t)
    (hs : Bindings E s) : Bindings E t :=
  Labelled.Steps.preserves (fun _ _ _ hl hp hs => hs.step hp hempty (hA _ hl)) h hs

theorem allows_binds {e : Event} (hok : e.Binds E s) (hs : Bindings E s) (hl : e.allows E s l) : l.Binds E := by
  cases l with
  | store m =>
    obtain ⟨hstores, hcheck⟩ := hl
    unfold Event.stores at hstores
    split at hstores
    · rename_i i
      obtain ⟨c, hc, rfl⟩ := Option.map_eq_some_iff.1 hstores
      exact hs.verifying c (List.mem_of_getElem? hc)
    · rename_i i
      obtain ⟨b, hb, rfl⟩ := Option.map_eq_some_iff.1 hstores
      obtain ⟨hnumber, hheader⟩ := hok.sealed i b rfl hb hcheck
      refine ⟨populatePrePrepare_matches _ _ _ _ _ _, fun p hp => ?_⟩
      obtain rfl := Option.some.inj hp
      exact ⟨hnumber, hheader.trans (toHash_val b.hash).symm⟩
    · cases hstores
  | verify source m =>
    cases source with
    | packet => exact hok.packet m hl.1 hl.2.1 hl.2.2
    | answer =>
      obtain ⟨i, data, m₀, rfl, hrequest, hcompletes, hcheck⟩ := hl
      have hheaded := hok.answer i data m₀ m rfl hrequest hcompletes hcheck
      obtain ⟨response, precommit, p, q, -, -, -, hq, -, -, rfl⟩ := hcompletes
      exact ⟨(hs.requests m₀ (List.mem_of_getElem? hrequest)).setData hq p.data, hheaded⟩
    | entry own m₀ =>
      cases own with
      | true => trivial
      | false =>
        obtain ⟨v, hhandles, hmem, htakes⟩ := hl
        exact hok.newView v hhandles htakes m₀ hmem
  | request own m =>
    cases own with
    | true => trivial
    | false =>
      obtain ⟨v, hhandles, hmem, htakes⟩ := hl
      exact (hok.newView v hhandles htakes m hmem).1
  | viewChange own v =>
    cases own with
    | true => trivial
    | false => exact hok.viewChange v hl.1 hl.2.1 hl.2.2
  | load p =>
    rcases hl with ⟨i, n, -, hload⟩ | hfetch
    · exact hs.loading _ (List.mem_of_getElem? hload)
    · exact hok.fetched p hfetch
  | push source p =>
    cases source with
    | committed => trivial
    | loaded =>
      obtain ⟨i, n, -, hload⟩ := hl
      exact hs.loading _ (List.mem_of_getElem? hload)
    | failed =>
      obtain ⟨r, ⟨-, rest, happ⟩, -, rfl⟩ := hl
      refine hs.pushed _ (hs.flight (r.lastApplied, r.proposal) (List.mem_append_right _ ?_))
      rw [happ]
      exact List.mem_cons_self
  | _ => trivial

theorem event {e : Event} (hempty : ∀ i sealer, E.headerNumber (E.emptyBlock i sealer).2 = some i ∧
    E.headerHash (E.emptyBlock i sealer).2 = (E.emptyBlock i sealer).1) (h : BcosPbft.step E s e = some t)
    (hok : e.Binds E s) (hs : Bindings E s) : Bindings E t :=
  hs.steps hempty (fun _ hl => hs.allows_binds hok hl) (step_steps h)

end Bindings

theorem initNode_bindings {E : Env} {keyPair : KeyPair} {l : LedgerConfig} {state : List PBFTProposal} {s₀ : Node}
    (hempty : ∀ i sealer, E.headerNumber (E.emptyBlock i sealer).2 = some i ∧
      E.headerHash (E.emptyBlock i sealer).2 = (E.emptyBlock i sealer).1)
    (hinit : initNode E keyPair l state = some s₀) (hstate : ∀ p ∈ state, p.Numbered E) : Bindings E s₀ := by
  obtain ⟨s, hsteps, hs⟩ := initNode_steps (A := fun label => label.Binds E) trivial trivial trivial trivial hstate hinit
  have hstart : Bindings E { cfg := { keyPair := keyPair, timeoutState := true } } := by
    constructor
    all_goals simp [Node.roots, Node.StoresViewChange, Node.Generated, OrdMap.find?_empty]
  have hbindings := hstart.steps hempty (fun _ hl => hl) hsteps
  rcases hs with rfl | ⟨last, -, rfl⟩
  · exact hbindings
  · obtain ⟨h₁, h₂, h₃, h₄, h₅, h₆, h₇, h₈, h₉, h₁₀, h₁₁, h₁₂, h₁₃, h₁₄⟩ := hbindings
    exact ⟨h₁, h₂, h₃, h₄, h₅, h₆, h₇, h₈, h₉, h₁₀, h₁₁, h₁₂, h₁₃, h₁₄⟩

/-- Recording a result moves the expected checkpoint past the executed index. -/
theorem Node.recordCheckPoint_expected (E : Env) (s : Node) (r : Applied) (m : PBFTMessage) :
    (s.recordCheckPoint r m).cfg.expectedCheckPoint = max (s.cfg.committedIndex + 1) (r.executedProposal.index + 1) := by
  let u := ((s.addCheckPointMsg m).setCheckPointProposal r.executedProposal).setCfg
    (s.cfg.setExpectedCheckPoint (r.executedProposal.index + 1))
  let A : Label → Prop := fun l => l ≠ .expect ∧ ∀ b, l ≠ .ledger b
  have hopen : Open A := by
    intro l hl
    refine ⟨?_, fun b => ?_⟩ <;> rintro rfl <;> cases hl
  have hsteps : Steps E A u u.checkAndCommitStableCheckPoint.tryToApplyCommitQueue.1 :=
    (checkAndCommitStableCheckPoint_steps u hopen ⟨by simp, by simp⟩ ⟨by simp, by simp⟩ (fun p => ⟨by simp, by simp⟩)).trans
      (tryToApplyCommitQueue_steps _ hopen)
  exact Labelled.Steps.preserves (I := fun v => v.cfg.expectedCheckPoint = u.cfg.expectedCheckPoint)
    (fun l v w hl hp hv => (hp.cfgStep.expectedCheckPoint_eq hl.1 hl.2).trans hv) hsteps rfl

/-- What was stored has one index and hash in its message, its proposal and the header of its data; a commit that was
reported is of such a message, and recording the result of a proposal moves the expected checkpoint past its index. -/
structure Binding (E : Env) (s : Node) : Prop where
  stored : ∀ i m, Action.storePrePrepare i m ∈ s.log → m.index = i ∧ ∃ p, m.consensusProposal = some p ∧
    p.index = m.index ∧ p.hash = m.hash ∧ E.headerNumber p.data = some m.index ∧ E.headerHash p.data = m.hash
  agreed : ∀ p, s.Pushes p → ∃ c quorum m, Action.reportCommit c quorum ∈ s.log ∧ c.precommit = some m ∧
    m.consensusProposal = some p ∧ p.index = m.index ∧ p.hash = m.hash ∧ E.headerNumber p.data = some m.index
  passes : ∀ r rest m, s.applied = r :: rest → r.success = true → r.announced = some m →
    Action.pushCommitted r.proposal ∈ s.log ∧
      (s.onProposalApplied E).cfg.expectedCheckPoint = max (s.cfg.committedIndex + 1) (r.proposal.index + 1)

theorem Bindings.binding {E : Env} {s : Node} (hs : Bindings E s) : Binding E s := by
  refine ⟨fun i m hm => ?_, fun p hp => ?_, fun r rest m happ hsucc hannounced => ⟨?_, ?_⟩⟩
  · obtain ⟨hindex, hsome, hbound⟩ := hs.stored i m hm
    obtain ⟨p, hp⟩ := Option.isSome_iff_exists.1 hsome
    exact ⟨hindex, p, hp, hbound.bounded hp⟩
  · obtain ⟨c, quorum, m, hmem, hm, hmp, hindex, hhash, hnumber, -⟩ := hs.pushes hp
    exact ⟨c, quorum, m, hmem, hm, hmp, hindex, hhash, hnumber⟩
  · refine hs.flight (r.lastApplied, r.proposal) (List.mem_append_right _ ?_)
    rw [happ]
    exact List.mem_cons_self
  · have hrecord : s.onProposalApplied E = { s with applied := rest }.recordCheckPoint r m := by
      unfold Node.onProposalApplied
      simp [happ, hsucc, hannounced]
    rw [hrecord, Node.recordCheckPoint_expected E, hs.results r (by rw [happ]; exact List.mem_cons_self) hsucc]

/-- Over a run in which what arrives and is taken has one index and hash in all the copies it comes with, everything that
is stored is bound, whether it came from the leader, from a new view or was completed with data. -/
theorem proposal_binding {E : Env} {keyPair : KeyPair} {l : LedgerConfig} {state : List PBFTProposal} {s₀ s : Node}
    {trace : List (Node × Event)} (hempty : ∀ i sealer, E.headerNumber (E.emptyBlock i sealer).2 = some i ∧
      E.headerHash (E.emptyBlock i sealer).2 = (E.emptyBlock i sealer).1)
    (hinit : initNode E keyPair l state = some s₀) (hstate : ∀ p ∈ state, p.Numbered E) (hrun : Trail (step E) s₀ trace s)
    (hok : ∀ x ∈ trace, x.2.Binds E x.1) : Binding E s := by
  suffices h : Bindings E s from h.binding
  have hevent : ∀ s e t, Event.Binds E s e → step E s e = some t → Bindings E s → Bindings E t :=
    fun _ _ _ hok hs hbindings => hbindings.event hempty hs hok
  exact hrun.preserves hevent hok (initNode_bindings hempty hinit hstate)

def toyHeader (number : Int) : List Event :=
  let data := Serial.int.enc number ++ [7]
  let p : PBFTProposal := { proposal := { index := 1, hash := (Toy.checksum data).val, data := data } }
  let packet := PBFTCodec.encode Toy.numbered (Toy.keyPair 1) 0 (.pbft (populatePrePrepare .PrePreparePacket p 0 0 0 1))
  Toy.atOnce [.receive [1] packet.1 [], .worker, .proposalVerified 0 (.result true), .executed 0 false, .proposalApplied]

def queuesBound (E : Env) (s : Node) : Bool :=
  s.msgQueue.all fun msg =>
    match msg with
    | .pbft m => m.Bound E
    | _ => false

theorem binds_of_queuesBound {E : Env} {s : Node} {e : Event} {number : Int} (h : queuesBound E s = true)
    (he : e ∈ toyHeader number) : e.Binds E s := by
  have hqueue : ∀ msg, e.handles s msg → ∃ m, msg = .pbft m ∧ m.Bound E := by
    intro msg hmsg
    obtain ⟨-, -, rest, hq⟩ := hmsg
    have hmem := List.all_eq_true.1 h msg (by rw [hq]; exact List.mem_cons_self)
    split at hmem
    · rename_i m
      exact ⟨m, rfl, by simpa using hmem⟩
    · cases hmem
  simp only [toyHeader, Toy.atOnce, List.flatMap_cons, List.flatMap_nil, List.replicate, List.cons_append, List.nil_append,
    List.mem_cons, List.not_mem_nil, or_false] at he
  refine ⟨fun i b heq => ?_, fun m hm _ _ => ?_, fun v hv => ?_, fun v hv => ?_,
    fun i data m₀ m heq => ?_, fun p hp => ?_⟩
  · simp [heq] at he
  · obtain ⟨m', heq, hbound⟩ := hqueue _ hm
    rwa [Message.pbft.inj heq]
  · obtain ⟨m, heq, -⟩ := hqueue _ hv
    cases heq
  · obtain ⟨m, heq, -⟩ := hqueue _ hv
    cases heq
  · simp [heq] at he
  · obtain ⟨i, data, heq, -⟩ := hp
    simp [heq] at he

def Action.isStore : Action → Bool
  | .storePrePrepare _ _ => true
  | _ => false

def storesUnbound (E : Env) : Action → Bool
  | .storePrePrepare _ m => !m.Bound E
  | _ => false

def storesAtOne : Action → Bool
  | .storePrePrepare i _ => i = 1
  | _ => true

theorem toyHeader_bound : ∃ trace s,
    Trail.states (step Toy.numbered) (Toy.node 0 [3, 1]) (toyHeader 1) = some (trace, s) ∧
    (∃ i m, Action.storePrePrepare i m ∈ s.log) ∧ s.applied.any (fun r => r.success && r.announced.isSome) = true ∧
    Binding Toy.numbered s := by
  have hempty : ∀ i sealer, Toy.numbered.headerNumber (Toy.numbered.emptyBlock i sealer).2 = some i ∧
      Toy.numbered.headerHash (Toy.numbered.emptyBlock i sealer).2 = (Toy.numbered.emptyBlock i sealer).1 := by
    intro i sealer
    have hdec := Serial.int.dec_enc i []
    rw [List.append_nil] at hdec
    refine ⟨?_, rfl⟩
    change (Serial.int.dec (Serial.int.enc i)).map Prod.fst = some i
    rw [hdec]
    rfl
  have hinit : initNode Toy.numbered (Toy.keyPair 0)
      { blockNumber := 0, hash := zeroHash, consensusNodeList := Toy.nodes [3, 1] } [] = some (Toy.node 0 [3, 1]) := by
    decide +kernel
  have hrun : ((Trail.states (step Toy.numbered) (Toy.node 0 [3, 1]) (toyHeader 1)).elim false fun r =>
      (r.2.log.any Action.isStore &&
        r.2.applied.any (fun r => r.success && r.announced.isSome)) &&
          r.1.all fun x => queuesBound Toy.numbered x.1) = true := by
    decide +kernel
  obtain ⟨⟨trace, s⟩, hs, hcheck⟩ := Toy.exists_of_elim hrun
  simp only [Bool.and_eq_true, List.all_eq_true] at hcheck
  obtain ⟨⟨hstored, happlied⟩, hqueues⟩ := hcheck
  refine ⟨trace, s, hs, ?_, happlied, proposal_binding hempty hinit (by simp) (.of_states hs) (fun x hx => ?_)⟩
  · obtain ⟨a, ha, hmatch⟩ := List.any_eq_true.1 hstored
    unfold Action.isStore at hmatch
    split at hmatch
    · exact ⟨_, _, ha⟩
    · cases hmatch
  · exact binds_of_queuesBound (hqueues x hx) (Trail.mem_events hs hx)

/-- A block with number 5 in its header goes through as the proposal of index 1, and the expected checkpoint jumps to 6. -/
theorem toyHeader_unbound : ∃ trace s,
    Trail.states (step Toy.numbered) (Toy.node 0 [3, 1]) (toyHeader 5) = some (trace, s) ∧ ¬Binding Toy.numbered s ∧
    (∀ i m, Action.storePrePrepare i m ∈ s.log → i = 1) ∧
    (s.onProposalApplied Toy.numbered).cfg.expectedCheckPoint = 6 := by
  have hrun : ((Trail.states (step Toy.numbered) (Toy.node 0 [3, 1]) (toyHeader 5)).elim false fun r =>
      r.2.log.any (storesUnbound Toy.numbered) && r.2.log.all storesAtOne &&
        decide ((r.2.onProposalApplied Toy.numbered).cfg.expectedCheckPoint = 6)) = true := by
    decide +kernel
  obtain ⟨⟨trace, s⟩, hs, hcheck⟩ := Toy.exists_of_elim hrun
  simp only [Bool.and_eq_true, decide_eq_true_eq] at hcheck
  obtain ⟨⟨hstored, hindex⟩, hexpected⟩ := hcheck
  refine ⟨trace, s, hs, fun h => ?_, fun i m hm => ?_, hexpected⟩
  · obtain ⟨a, ha, hmatch⟩ := List.any_eq_true.1 hstored
    unfold storesUnbound at hmatch
    split at hmatch
    · rename_i i m
      simp only [Bool.not_eq_true', decide_eq_false_iff_not] at hmatch
      obtain ⟨-, p, hp, hbound⟩ := h.stored i m ha
      refine hmatch ⟨fun p' hp' => ?_, fun p' hp' => ?_⟩
      · obtain rfl := Option.some.inj (hp.symm.trans hp')
        exact ⟨hbound.1, hbound.2.1⟩
      · obtain rfl := Option.some.inj (hp.symm.trans hp')
        exact ⟨hbound.2.2.1.trans (congrArg some hbound.1.symm), hbound.2.2.2.trans hbound.2.1.symm⟩
    · cases hmatch
  · simpa [storesAtOne] using List.all_eq_true.1 hindex _ hm

end BcosPbft
