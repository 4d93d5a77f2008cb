import BcosPbft.Proofs.PrePrepareList
import BcosPbft.Proofs.ViewOrder
import BcosPbft.Proofs.Window

/-! Until when a new view keeps the leader from sealing. The bound is the greatest index of the pre-prepare list, which neither
the node that makes the list nor one that accepts it checks. -/

namespace BcosPbft

open Labelled

/-- The leader waits for an index of the window, or no longer. -/
def Config.ResealReachable (c : Config) : Prop := c.waitResealUntil < c.highWaterMark ∨ c.waitResealUntil ≤ c.committedIndex

def sentViews (log : List Action) : List NewViewMsg :=
  log.filterMap fun
    | .send _ (.newView m) _ => some m
    | _ => none

def Node.acceptedView (E : Env) (s : Node) : Option NewViewMsg :=
  match s.workerStage, s.msgQueue with
  | .admitted, .newView m :: rest =>
    if BcosPbft.accepts ({ s with msgQueue := rest, workerStage := .start }.isValidNewViewMsg E m) then some m else none
  | _, _ => none

/-- The new views that the step hands to `reHandlePrePrepareProposals`: the one it accepts and those it makes. -/
def Event.newViews (E : Env) (s : Node) (e : Event) : List NewViewMsg :=
  (if e = .worker then (s.acceptedView E).toList else []) ++
    ((step E s e).elim [] fun t => sentViews (t.log.drop s.log.length))

def NewViewMsg.Below (m : NewViewMsg) (i : Int) : Prop := ∀ p ∈ m.prePrepareList, p.index < i

instance (m : NewViewMsg) (i : Int) : Decidable (m.Below i) := inferInstanceAs (Decidable (∀ p ∈ m.prePrepareList, _))

theorem mem_sentViews {log : List Action} {m : NewViewMsg} :
    m ∈ sentViews log ↔ ∃ dst data, Action.send dst (.newView m) data ∈ log := by
  unfold sentViews
  rw [List.mem_filterMap]
  constructor
  · rintro ⟨a, ha, hm⟩
    split at hm
    · rename_i dst m' data
      obtain rfl := Option.some.inj hm
      exact ⟨dst, data, ha⟩
    · cases hm
  · rintro ⟨dst, data, ha⟩
    exact ⟨_, ha, rfl⟩

theorem Event.accepts.acceptedView {E : Env} {s : Node} {e : Event} {m : NewViewMsg} (h : e.accepts E s m) :
    s.acceptedView E = some m := by
  obtain ⟨-, hstage, rest, u, hq, hu⟩ := h
  have hacc : BcosPbft.accepts ({ s with msgQueue := rest, workerStage := .start }.isValidNewViewMsg E m) = true :=
    accepts_iff.2 ⟨u, hu⟩
  simp [Node.acceptedView, hstage, hq, hacc]

section

variable {E : Env} {l : Label} {s t : Node} {e : Event}

theorem CfgStep.waitReseal_eq {c c' : Config} (h : CfgStep E l c c') (hl : ∀ own m, l ≠ .reseal own m) :
    c'.waitResealUntil = c.waitResealUntil := by
  cases h with
  | same _ h => exact h.waitResealUntil
  | view _ hv =>
    unfold Config.resetNewViewState
    split <;> rfl
  | nodes h =>
    obtain ⟨_, _, _, _, _, _, _, rfl⟩ := Config.setConsensusNodeList_frame h
    rfl
  | reseal _ own m => exact absurd rfl (hl own m)
  | _ => rfl

/-- The wait is for an index below the mark, as long as the new views of the log and the accepted ones list such indices. -/
structure Waits (i : Int) (s : Node) : Prop where
  watermarks : s.cfg.Watermarks
  mark : i ≤ s.cfg.highWaterMark
  reachable : s.cfg.ResealReachable

theorem Waits.prim {i : Int} (h : Prim E l s t) (hledger : ∀ b, l = .ledger b → 0 ≤ b.blockNumber)
    (hsent : ∀ m ∈ sentViews t.log, m.Below i) (haccepted : ∀ m, l = .reseal false m → m.Below i) (hs : Waits i s) :
    Waits i t := by
  obtain ⟨hmarks, hle⟩ := h.cfgStep.watermarks hledger hs.watermarks
  have hhigh := hs.watermarks.high_le hmarks h.cfgStep.limit_eq hle
  have hmark := hs.mark
  refine ⟨hmarks, hmark.trans hhigh, ?_⟩
  by_cases hl : ∃ own m, l = .reseal own m
  · obtain ⟨own, m, rfl⟩ := hl
    cases h with
    | reseal _ hown hi =>
      rcases hi with rfl | ⟨p, hp, rfl⟩
      · exact Or.inr le_rfl
      · have hbelow : p.index < i := by
          cases own with
          | false => exact haccepted m rfl p hp
          | true =>
            obtain ⟨dst, m', data, hmem, hlist⟩ := hown rfl
            exact hsent m' (mem_sentViews.2 ⟨dst, data, hmem⟩) p (hlist ▸ hp)
        exact Or.inl (hbelow.trans_le hmark)
  · have hwait := h.cfgStep.waitReseal_eq fun own m hm => hl ⟨own, m, hm⟩
    unfold Config.ResealReachable
    rw [hwait]
    rcases hs.reachable with hlt | hcommitted
    · exact Or.inl (hlt.trans_le hhigh)
    · exact Or.inr (hcommitted.trans hle)

theorem Waits.steps {A : Label → Prop} {i : Int} (h : Steps E A s t) (hledger : ∀ b, A (.ledger b) → 0 ≤ b.blockNumber)
    (hsent : ∀ m ∈ sentViews t.log, m.Below i) (haccepted : ∀ m, A (.reseal false m) → m.Below i) (hs : Waits i s) :
    Waits i t := by
  have hkeeps := h.preserves (I := fun u => (∀ m ∈ sentViews u.log, m.Below i) → Waits i u)
    (fun l u v hl hp hu hv => ?_) fun _ => hs
  · exact hkeeps hsent
  · refine (hu fun m hm => hv m ?_).prim hp (fun b hb => hledger b (hb ▸ hl)) hv fun m hm => haccepted m (hm ▸ hl)
    obtain ⟨dst, data, hmem⟩ := mem_sentViews.1 hm
    exact mem_sentViews.2 ⟨dst, data, hp.log_mono _ hmem⟩

structure Resealed (s : Node) : Prop where
  watermarks : s.cfg.Watermarks
  reachable : s.cfg.ResealReachable
  sent : ∀ m ∈ sentViews s.log, m.Below s.cfg.highWaterMark

theorem sentViews_append (log k : List Action) : sentViews (log ++ k) = sentViews log ++ sentViews k :=
  List.filterMap_append

theorem Resealed.step (h : BcosPbft.step E s e = some t) (hn : e.Numbered)
    (hok : ∀ m ∈ e.newViews E s, m.Below s.cfg.highWaterMark) (hs : Resealed s) : Resealed t := by
  have hsteps := step_steps h
  obtain ⟨k, hk⟩ := hsteps.log
  have hledger : ∀ b, e.allows E s (.ledger b) → 0 ≤ b.blockNumber := fun b hb => hn.nonneg hb
  have hsent : ∀ m ∈ sentViews t.log, m.Below s.cfg.highWaterMark := by
    intro m hm
    rw [hk, sentViews_append, List.mem_append] at hm
    rcases hm with hm | hm
    · exact hs.sent m hm
    · refine hok m (List.mem_append_right _ ?_)
      rw [h, Option.elim_some, hk, List.drop_left]
      exact hm
  have haccepted : ∀ m, e.allows E s (.reseal false m) → m.Below s.cfg.highWaterMark := by
    intro m hm
    have hacc : e.accepts E s m := hm
    refine hok m (List.mem_append_left _ ?_)
    rw [if_pos hm.1, hacc.acceptedView]
    exact List.mem_singleton_self m
  have hwaits := Waits.steps hsteps hledger hsent haccepted ⟨hs.watermarks, le_rfl, hs.reachable⟩
  exact ⟨hwaits.watermarks, hwaits.reachable, fun m hm p hp => (hsent m hm p hp).trans_le hwaits.mark⟩

end

def Label.entering : Label → Bool
  | .reseal _ _ | .newView _ => true
  | _ => false

theorem Restart.path_resealed {E : Env} {keyPair : KeyPair} {l : LedgerConfig} {state : List PBFTProposal} {r r₀ : Restart}
    {trace : List (Restart × RestartEvent)} (hl : 0 ≤ l.blockNumber) (hstate : ∀ p ∈ state, l.blockNumber < p.index)
    (hstart : start E keyPair l state = some r₀) (h : Trail (halfStep E) r₀ trace r) : Resealed r.node := by
  have hopen : Open fun x : Label => x.entering = false := by
    intro x hx
    cases x <;> first | rfl | cases hx
  have hmarked := start_marked hl hstart
  have hinit : Steps E (fun x => x.entering = false) (fresh keyPair) r.node :=
    .trans (start_steps rfl rfl rfl rfl hstart) (path_steps hopen rfl rfl (fun _ => rfl) (fun _ => rfl) hstate hmarked h)
  obtain ⟨hwait, hsent⟩ : r.node.cfg.waitResealUntil = 0 ∧ sentViews r.node.log = [] := by
    refine hinit.preserves (I := fun u => u.cfg.waitResealUntil = 0 ∧ sentViews u.log = [])
      (fun x u v hx hp hu => ?_) ⟨rfl, rfl⟩
    refine ⟨(hp.cfgStep.waitReseal_eq fun own m hm => by rw [hm] at hx; cases hx).trans hu.1, ?_⟩
    obtain ⟨k, hk, hemits⟩ := hp.log
    rw [hk, sentViews_append, hu.2, List.nil_append, List.eq_nil_iff_forall_not_mem]
    intro m hm
    obtain ⟨dst, data, hmem⟩ := mem_sentViews.1 hm
    obtain ⟨-, m₀, rfl, -⟩ := (hemits _ hmem).sends_newView
    cases hx
  have hmarks := (path_marked hstate h hmarked).level.watermarks
  refine ⟨hmarks, Or.inr (hwait.le.trans hmarks.nonneg), fun m hm => ?_⟩
  rw [hsent] at hm
  cases hm

/-- In every run after `init` in which each new view that the node accepts or makes lists only indices below the high water
mark, the wait to reseal ends with the window. -/
theorem reseal_reachable {E : Env} {pb : PBObject PBFTProposal} (hpb : pb.Lawful) (hempty : pb.decode [] = some {})
    {st : LedgerStorage} (hst : LedgerStorage.Written pb st) {keyPair : KeyPair} {l : LedgerConfig} (hl : 0 ≤ l.blockNumber)
    {maxError batchError : Bool} {state : Option (List PBFTProposal)}
    (hload : ((LedgerStorage.restarted st.db).loadState pb l.blockNumber maxError batchError).2 = .loaded state)
    {r₀ r : Restart}
    (hstart : Restart.start E keyPair l (state.getD []) = some r₀) {inits : List (Restart × RestartEvent)}
    (hinit : Trail (Restart.halfStep E) r₀ inits r) (_hdone : r.Initialized) {s : Node} {trace : List (Node × Event)}
    (h : Trail (step E) r.node trace s) (hn : ∀ x ∈ trace, x.2.Numbered)
    (hok : ∀ x ∈ trace, ∀ m ∈ x.2.newViews E x.1, m.Below x.1.cfg.highWaterMark) :
    (∀ x ∈ trace, x.1.cfg.ResealReachable) ∧ s.cfg.ResealReachable := by
  have hstate := hst.lt_of_loaded hpb hempty hl hload
  have hresealed := h.preserves_all
    (fun u e v (he : e.Numbered ∧ ∀ m ∈ e.newViews E u, m.Below u.cfg.highWaterMark) hstep hu => hu.step hstep he.1 he.2)
    (fun x hx => ⟨hn x hx, hok x hx⟩) (Restart.path_resealed hl hstate hstart hinit)
  exact ⟨fun x hx => (hresealed.1 x hx).reachable, hresealed.2.reachable⟩

def toyListed (index : Int) : List Event :=
  let p : PBFTProposal := { proposal := { index := index, hash := (Toy.checksum [1, 7]).val, data := [1, 7] } }
  let m : NewViewMsg := { base := { view := 1, generatedFrom := 2 }
                          viewChangeMsgList := [toySignedChange 0, toySignedChange 1, toySignedChange 2] }
  let m := m.setPrePrepareList Toy.env [populatePrePrepare .PrePreparePacket p 0 1 0 2]
  Toy.atOnce [.receive [2] (PBFTCodec.encode Toy.env (Toy.keyPair 2) 0 (.newView m)).1 [], .worker]

theorem toyListed_reachable : ∃ r₀ trace s, Restart.start Toy.env (Toy.keyPair 3) toyFour [] = some r₀ ∧
    Trail.states (step Toy.env) r₀.node (toyListed 1) = some (trace, s) ∧ s.cfg.view = 1 ∧ s.cfg.waitResealUntil = 1 ∧
    s.cfg.ResealReachable := by
  have hrun : ((Restart.start Toy.env (Toy.keyPair 3) toyFour []).elim false fun r₀ =>
      (Trail.states (step Toy.env) r₀.node (toyListed 1)).elim false fun r =>
        decide (r₀.todo = [] ∧ r₀.last = none) && decide (r.2.cfg.view = 1 ∧ r.2.cfg.waitResealUntil = 1) &&
          r.1.all fun x => decide (x.2.Numbered ∧ ∀ m ∈ x.2.newViews Toy.env x.1, m.Below x.1.cfg.highWaterMark)) = true := by
    decide +kernel
  obtain ⟨r₀, hstart, hrun⟩ := Toy.exists_of_elim hrun
  obtain ⟨⟨trace, s⟩, htrace, hrun⟩ := Toy.exists_of_elim hrun
  simp only [Bool.and_eq_true, decide_eq_true_eq, List.all_eq_true] at hrun
  obtain ⟨⟨hdone, hview, hwait⟩, hok⟩ := hrun
  have hload : ((LedgerStorage.restarted ({} : LedgerStorage).db).loadState LedgerStorage.toyPb toyFour.blockNumber false false).2 =
      .loaded none := by
    decide +kernel
  have hreachable := reseal_reachable (Toy.object_lawful _) rfl .fresh le_rfl hload hstart .nil hdone (.of_states htrace)
    (fun x hx => (hok x hx).1) fun x hx => (hok x hx).2
  exact ⟨r₀, trace, s, hstart, htrace, hview, hwait, hreachable.2⟩

/-- The leader of the new view lists index 12, and the high water mark is 11. -/
theorem toyListed_unreachable : ∃ r₀ trace s, Restart.start Toy.env (Toy.keyPair 3) toyFour [] = some r₀ ∧ r₀.Initialized ∧
    Trail (step Toy.env) r₀.node trace s ∧ (∀ x ∈ trace, x.2 ∈ toyListed 12) ∧ s.cfg.waitResealUntil = 12 ∧
    s.cfg.highWaterMark = 11 ∧ s.cfg.committedIndex = 0 ∧ s.cfg.canHandleNewProposal = false ∧ ¬s.cfg.ResealReachable := by
  have hrun : ((Restart.start Toy.env (Toy.keyPair 3) toyFour []).elim false fun r₀ =>
      (Trail.states (step Toy.env) r₀.node (toyListed 12)).elim false fun r =>
        decide ((r₀.todo = [] ∧ r₀.last = none) ∧ r.2.cfg.waitResealUntil = 12 ∧ r.2.cfg.highWaterMark = 11 ∧
          r.2.cfg.committedIndex = 0 ∧ r.2.cfg.canHandleNewProposal = false)) = true := by
    decide +kernel
  obtain ⟨r₀, hstart, hrun⟩ := Toy.exists_of_elim hrun
  obtain ⟨⟨trace, s⟩, htrace, hrun⟩ := Toy.exists_of_elim hrun
  obtain ⟨hdone, hwait, hhigh, hcommitted, hnew⟩ := of_decide_eq_true hrun
  refine ⟨r₀, trace, s, hstart, hdone, .of_states htrace, fun x hx => Trail.mem_events htrace hx, hwait, hhigh,
    hcommitted, hnew, ?_⟩
  rintro (hlt | hle)
  · rw [show s.cfg.waitResealUntil = 12 from hwait, show s.cfg.highWaterMark = 11 from hhigh] at hlt
    exact absurd hlt (by decide)
  · rw [show s.cfg.waitResealUntil = 12 from hwait, show s.cfg.committedIndex = 0 from hcommitted] at hle
    exact absurd hle (by decide)

end BcosPbft
