import BcosPbft.Proofs.Agreement
import BcosPbft.Proofs.Voting

/-! What a view change promises. A node that has broadcast a view change for a view above its own keeps silent as long as
nothing that was under way before reaches it past the worker, and then the view change lists all that it has precommitted. -/

namespace BcosPbft

def Action.viewChange : Action → Option ViewChangeMsg
  | .send none (.viewChange m) _ => if m.packetType = .ViewChangePacket then some m else none
  | _ => none

/-- The view changes that the node has broadcast for views above its own. -/
def Node.promises (s : Node) : List ViewChangeMsg :=
  (s.log.filterMap Action.viewChange).filter fun m => s.cfg.view < m.view

theorem Node.mem_promises {s : Node} {m : ViewChangeMsg} :
    m ∈ s.promises ↔ (∃ a ∈ s.log, a.viewChange = some m) ∧ s.cfg.view < m.view := by
  simp only [promises, List.mem_filter, List.mem_filterMap, decide_eq_true_eq]

/-- What the node has precommitted is listed in the view changes that it is bound by. -/
def Listed (s : Node) : Prop :=
  ∀ v ∈ s.promises, ∀ i c m, s.caches.find? i = some c → c.precommitWithoutData = some m → m ∈ v.preparedProposals

/-- A node that is bound by a view change takes no pre-prepare and completes no prepare quorum. -/
def Event.Quiets (E : Env) (s : Node) (e : Event) : Prop := s.promises ≠ [] → e.Abstains E (fun _ => True) s

instance (E : Env) (s : Node) (e : Event) : Decidable (e.Quiets E s) := inferInstanceAs (Decidable (_ → _))

section

variable {E : Env} {l : Label} {s t : Node}

theorem viewChange_sendActions {keyPair : KeyPair} {dst : Option NodeID} {msg : Message} {a : Action} {v : ViewChangeMsg}
    (ha : a ∈ sendActions E keyPair dst msg) (hv : a.viewChange = some v) :
    ∃ m, msg = .viewChange m ∧ v.view = m.view ∧ v.preparedProposals = m.preparedProposals := by
  rcases List.mem_append.1 ha with ha | ha
  · obtain ⟨r, -, rfl⟩ := List.mem_map.1 ha
    cases hv
  · obtain rfl := List.mem_singleton.1 ha
    cases dst with
    | some dst => cases hv
    | none =>
      cases msg with
      | viewChange m =>
        refine ⟨m, rfl, ?_⟩
        simp only at hv
        split at hv <;>
        · simp only [Action.viewChange] at hv
          split_ifs at hv
          obtain rfl := Option.some.inj hv
          exact ⟨rfl, rfl⟩
      | newView m =>
        simp only at hv
        split at hv <;> cases hv
      | pbft m => cases hv
      | request m => cases hv

/-- Only `sendViewChange` and `broadcastViewChangeReq` send view changes, and what they send lists every precommit. -/
theorem Emits.viewChange {a : Action} {v : ViewChangeMsg} (h : Emits E s l a) (hv : a.viewChange = some v) :
    l = .sendViewChange ∧ v.preparedProposals = s.preCommitCachesWithoutData := by
  have hother : ∀ {dst : Option NodeID} {msg : Message},
    (∀ m, msg ≠ .viewChange m) → a ∉ sendActions E s.cfg.keyPair dst msg := by
    intro dst msg hmsg ha
    obtain ⟨m, hm, -⟩ := viewChange_sendActions ha hv
    exact hmsg m hm
  have hhead : ∀ {b c : Action} {l : List Action}, b.viewChange = none → c.viewChange = none → a ∈ b :: c :: l → a ∈ l := by
    intro b c l hb hc ha
    rcases List.mem_cons.1 ha with rfl | ha
    · rw [hb] at hv
      cases hv
    rcases List.mem_cons.1 ha with rfl | ha
    · rw [hc] at hv
      cases hv
    · exact ha
  cases h with
  | neutral _ hn =>
    cases a with
    | send dst packet data =>
      cases packet with
      | viewChange m =>
        cases dst with
        | some dst => cases hv
        | none =>
          simp only [Action.viewChange] at hv
          split_ifs at hv with htype
          exact absurd htype (of_decide_eq_true hn)
      | pbft m => cases dst <;> cases hv
      | newView m => cases dst <;> cases hv
      | request m => cases dst <;> cases hv
    | _ => cases hv
  | preCommit hc hm hp henough ha => exact absurd (hhead rfl rfl ha) (hother fun _ => Message.noConfusion)
  | vote ha =>
    rcases List.mem_cons.1 ha with rfl | ha
    · cases hv
    · exact absurd ha (hother fun _ => Message.noConfusion)
  | announce h hs ha => exact absurd (hhead rfl rfl ha) (hother fun _ => Message.noConfusion)
  | resend hc hp ha =>
    rcases List.mem_cons.1 ha with rfl | ha
    · cases hv
    · exact absurd ha (hother fun _ => Message.noConfusion)
  | newView h ha => exact absurd ha (hother fun _ => Message.noConfusion)
  | sendViewChange ha =>
    obtain ⟨m, hm, -, hlist⟩ := viewChange_sendActions ha hv
    obtain rfl := Message.viewChange.inj hm
    exact ⟨rfl, hlist⟩
  | _ => cases hv

theorem CacheStep.withoutData_eq {cfg : Config} {now i : Int} {c c' : PBFTCache} (h : CacheStep E cfg now l i c c')
    (hl : l ≠ .preCommit) : c'.precommitWithoutData = c.precommitWithoutData := by
  cases h with
  | preCommit => exact absurd rfl hl
  | submit =>
    rcases c.checkAndCommit_cases cfg with heq | ⟨heq, -⟩ <;> rw [heq]
  | stable =>
    rcases c.checkAndCommitStableCheckPoint_cases cfg with heq | ⟨p, w, -, -, -, -, heq⟩ <;> rw [heq]
  | setCheckPoint p =>
    unfold PBFTCache.setCheckPointProposal
    split_ifs <;> rfl
  | _ => rfl

theorem Listed.kept (h : Prim E l s t) (hs : Listed s)
    (hcaches : ∀ i c m, t.caches.find? i = some c → c.precommitWithoutData = some m →
      ∃ c', s.caches.find? i = some c' ∧ c'.precommitWithoutData = some m) : Listed t := by
  intro v hv i c m hc hm
  obtain ⟨c', hc', hm'⟩ := hcaches i c m hc hm
  obtain ⟨⟨a, ha, hva⟩, hview⟩ := Node.mem_promises.1 hv
  obtain ⟨k, hk, hemits⟩ := h.log
  rw [hk] at ha
  rcases List.mem_append.1 ha with ha | ha
  · exact hs v (Node.mem_promises.2 ⟨⟨a, ha, hva⟩, lt_of_le_of_lt h.cfgStep.view_le hview⟩) i c' m hc' hm'
  · obtain ⟨-, hlist⟩ := (hemits a ha).viewChange hva
    rw [hlist]
    exact List.mem_filterMap.2 ⟨c', List.mem_map.2 ⟨(i, c'), OrdMap.find?_eq_some.1 hc', rfl⟩, hm'⟩

theorem Listed.prim (h : Prim E l s t) (hl : l ≠ .preCommit) (hs : Listed s) : Listed t := by
  refine hs.kept h fun i c m hc hm => ?_
  rw [(h.cacheStep hc).withoutData_eq hl] at hm
  cases hd : s.caches.find? i with
  | none =>
    rw [hd] at hm
    cases hm
  | some d =>
    rw [hd] at hm
    exact ⟨d, rfl, hm⟩

theorem Listed.preCommit (h : Prim E .preCommit s t) (hspare : Spares (fun _ => True) s t) (hs : Listed s) : Listed t := by
  refine hs.kept h fun i c m hc hm => ⟨c, ?_, hm⟩
  cases h with
  | preCommit _ j =>
    rcases s.preCommitAt_cases E j with ⟨hfind, -⟩ | ⟨d, q, p, k, hd, hq, hp, hnot, hcurrent, henough, -, -, -⟩
    · rw [← hfind]
      exact hc
    · have hvote := Node.preCommitAt_supports E hd (PBFTCache.commits_eq hq hp hnot hcurrent henough)
      exact absurd trivial (hvote.not_spares hspare)

theorem Listed.steps {A : Label → Prop} (h : Steps E A s t) (hspare : Spares (fun _ => True) s t)
    (hs : Listed s) : Listed t := by
  have hkept : (∃ k, t.log = s.log ++ k) ∧ (Spares (fun _ => True) s t → Listed t) := by
    refine h.preserves (I := fun u => (∃ k, u.log = s.log ++ k) ∧ (Spares (fun _ => True) s u → Listed u))
      (fun l u v _ hp hu => ?_) ⟨⟨[], (List.append_nil _).symm⟩, fun _ => hs⟩
    obtain ⟨⟨k, hk⟩, hlisted⟩ := hu
    obtain ⟨r, hr, -⟩ := hp.log
    have hlog : v.log = s.log ++ (k ++ r) := by rw [hr, hk, List.append_assoc]
    refine ⟨⟨_, hlog⟩, fun hv => ?_⟩
    obtain ⟨q, hq, hnone⟩ := hv
    obtain rfl := List.append_cancel_left (hlog.symm.trans hq)
    have hu : Listed u := hlisted ⟨k, hk, fun a ha => hnone a (List.mem_append_left _ ha)⟩
    by_cases hl : l = .preCommit
    · subst hl
      exact Listed.preCommit hp ⟨r, hr, fun a ha => hnone a (List.mem_append_right _ ha)⟩ hu
    · exact hu.prim hp hl
  exact hkept.2 hspare

/-- An event that may move the node lets no prepare quorum be looked for. -/
theorem Event.moves_no_preCommit {e : Event} (h : e.moves s) : ¬e.allows E s .preCommit := by
  rintro (⟨m, hm, -⟩ | ⟨m, ⟨rfl, -, rest, hq⟩, htype⟩)
  · rcases h with ⟨msg, ⟨rfl, -⟩, -⟩ | rfl | ⟨l, rfl | rfl⟩ <;> cases hm
  · rcases h with ⟨msg, ⟨-, -, rest', hq'⟩, hmoves⟩ | hne | ⟨l, hne | hne⟩
    · obtain ⟨rfl, -⟩ := List.cons.inj (hq.symm.trans hq')
      simp [Message.moves, htype] at hmoves
    · cases hne
    · cases hne
    · cases hne

theorem promises_eq_nil {A : Label → Prop} (h : Steps E A s t) (hA : ¬A .sendViewChange) (hs : s.promises = []) :
    t.promises = [] := by
  refine h.preserves (I := fun u => u.promises = []) (fun l u v hl hp hu => ?_) hs
  rw [List.eq_nil_iff_forall_not_mem] at hu ⊢
  intro m hm
  obtain ⟨⟨a, ha, hva⟩, hview⟩ := Node.mem_promises.1 hm
  obtain ⟨k, hk, hemits⟩ := hp.log
  rw [hk] at ha
  rcases List.mem_append.1 ha with ha | ha
  · exact hu m (Node.mem_promises.2 ⟨⟨a, ha, hva⟩, lt_of_le_of_lt hp.cfgStep.view_le hview⟩)
  · obtain ⟨rfl, -⟩ := (hemits a ha).viewChange hva
    exact hA hl

theorem step_listed {e : Event} (hok : e.Quiets E s) (h : step E s e = some t) (hs : Listed s) : Listed t := by
  by_cases hpromises : s.promises = []
  · by_cases hmoves : e.moves s
    · refine (step_steps h).preserves (fun l u v hl hp hu => hu.prim hp ?_) hs
      rintro rfl
      exact Event.moves_no_preCommit hmoves hl
    · intro v hv
      rw [promises_eq_nil (step_steps h) hmoves hpromises] at hv
      cases hv
  · exact Listed.steps (step_steps h) ((step_spares_iff h).2 (hok hpromises)) hs

end

theorem initNode_promises {E : Env} {keyPair : KeyPair} {l : LedgerConfig} {state : List PBFTProposal} {s₀ : Node}
    (hinit : initNode E keyPair l state = some s₀) : s₀.promises = [] := by
  obtain ⟨s, hsteps, hs⟩ := initNode_steps (A := fun label => label ≠ .sendViewChange) Label.noConfusion Label.noConfusion
    Label.noConfusion Label.noConfusion (fun _ _ => Label.noConfusion) hinit
  have hnone : s.promises = [] := promises_eq_nil hsteps (fun h => h rfl) rfl
  rcases hs with rfl | ⟨last, -, rfl⟩
  · exact hnone
  · exact hnone

/-- In a run in which a node that is bound by a view change takes no pre-prepare and completes no prepare quorum, and in no
other, every step of a bound node stores nothing and votes for nothing. Then its view changes list all that it has
precommitted. -/
theorem promises_silent_iff {E : Env} {keyPair : KeyPair} {l : LedgerConfig} {state : List PBFTProposal} {s₀ s : Node}
    {trace : List (Node × Event)} (hinit : initNode E keyPair l state = some s₀) (hrun : Trail (step E) s₀ trace s) :
    ((∀ x ∈ trace, x.1.promises ≠ [] → ∀ t, step E x.1 x.2 = some t → Spares (fun _ => True) x.1 t) ∧ Listed s) ↔
      ∀ x ∈ trace, x.2.Quiets E x.1 := by
  constructor
  · rintro ⟨hsilent, -⟩ x hx hpromises
    obtain ⟨t, ht⟩ := hrun.step_of_mem hx
    exact (step_spares_iff ht).1 (hsilent x hx hpromises t ht)
  · intro hok
    refine ⟨fun x hx hpromises t ht => (step_spares_iff ht).2 (hok x hx hpromises), ?_⟩
    refine hrun.preserves (I := Listed) (fun _ _ _ hok hstep hs => step_listed hok hstep hs) hok ?_
    intro v hv
    rw [initNode_promises hinit] at hv
    cases hv

/-- Node 3 takes a pre-prepare for index 1, has it verified after or before it times out, and gets prepare votes. -/
def toyPromised (before after : List Event) : List Event :=
  Toy.atOnce ([.receive [1] (Toy.prePrepare 1 0 7) [], .worker] ++ before ++ [.timeout] ++ after)

/-- The node precommits the proposal before it times out, and a late vote stays in the queue. -/
theorem toyPromised_silent : ∃ trace s, Trail.states (step Toy.env) (Toy.node 3 [1, 1, 1, 1]) (toyPromised
      (.proposalVerified 0 (.result true) :: [0, 1].flatMap fun b => [Group.toyBallot .PreparePacket b 7, .worker])
      [Group.toyBallot .PreparePacket 2 7, .worker]) = some (trace, s) ∧
    (s.promises.any fun v => v.preparedProposals.any fun m => m.hash = (Toy.proposal 7).hash) = true ∧
    (∀ x ∈ trace, x.1.promises ≠ [] → ∀ t, step Toy.env x.1 x.2 = some t → Spares (fun _ => True) x.1 t) ∧ Listed s := by
  have hinit : initNode Toy.env (Toy.keyPair 3)
      { blockNumber := 0, hash := zeroHash, consensusNodeList := Toy.nodes [1, 1, 1, 1] } [] =
        some (Toy.node 3 [1, 1, 1, 1]) := by
    decide +kernel
  have hrun : ((Trail.states (step Toy.env) (Toy.node 3 [1, 1, 1, 1]) (toyPromised
      (.proposalVerified 0 (.result true) :: [0, 1].flatMap fun b => [Group.toyBallot .PreparePacket b 7, .worker])
      [Group.toyBallot .PreparePacket 2 7, .worker])).elim false fun r =>
        (r.2.promises.any fun v => v.preparedProposals.any fun m => m.hash = (Toy.proposal 7).hash) &&
          r.1.all fun x => decide (x.2.Quiets Toy.env x.1)) = true := by
    decide +kernel
  obtain ⟨⟨trace, s⟩, hs, hcheck⟩ := Toy.exists_of_elim hrun
  rw [Bool.and_eq_true, List.all_eq_true] at hcheck
  exact ⟨trace, s, hs, hcheck.1, (promises_silent_iff hinit (.of_states hs)).2 fun x hx => of_decide_eq_true (hcheck.2 x hx)⟩

/-- The verifier answers after the timeout, and the bound node stores the pre-prepare and votes for it. -/
theorem toyPromised_votes : initNode Toy.env (Toy.keyPair 3)
      { blockNumber := 0, hash := zeroHash, consensusNodeList := Toy.nodes [1, 1, 1, 1] } [] = some (Toy.node 3 [1, 1, 1, 1]) ∧
    ∃ trace s t, Trail.states (step Toy.env) (Toy.node 3 [1, 1, 1, 1]) (toyPromised [] []) = some (trace, s) ∧ s.promises ≠ [] ∧
      step Toy.env s (.proposalVerified 0 (.result true)) = some t ∧ t.cfg.view = s.cfg.view ∧ Node.Supports s t 1 := by
  have hrun : ((Trail.states (step Toy.env) (Toy.node 3 [1, 1, 1, 1]) (toyPromised [] [])).elim false fun r =>
      decide (r.2.promises ≠ []) && (step Toy.env r.2 (.proposalVerified 0 (.result true))).any fun t =>
        decide (t.cfg.view = r.2.cfg.view) && decide (t.log = r.2.log ++ t.log.drop r.2.log.length) &&
          (t.log.drop r.2.log.length).any fun a => decide (a.supports = some 1)) = true := by
    decide +kernel
  obtain ⟨⟨trace, s⟩, hs, hcheck⟩ := Toy.exists_of_elim hrun
  rw [Bool.and_eq_true, decide_eq_true_eq] at hcheck
  obtain ⟨hpromises, hstep⟩ := hcheck
  obtain ⟨t, ht, hstep⟩ := (Option.any_eq_true _ _).1 hstep
  rw [Bool.and_eq_true, Bool.and_eq_true, decide_eq_true_eq, decide_eq_true_eq, List.any_eq_true] at hstep
  obtain ⟨⟨hview, hlog⟩, a, ha, hvote⟩ := hstep
  exact ⟨by decide +kernel, trace, s, t, hs, hpromises, ht, hview, _, hlog, a, ha, of_decide_eq_true hvote⟩

end BcosPbft
