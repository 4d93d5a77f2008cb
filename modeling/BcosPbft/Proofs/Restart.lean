import BcosPbft.Proofs.Watermark

/-! Which indices a restart leaves behind: not in the commit queue, and below the low water mark for good. A callback lowers
the mark only when its verification failed, and to no effect while `init` has yet to set it. -/

namespace BcosPbft

open Labelled

theorem Steps.lowWaterMark {E : Env} {A : Label → Prop} {s t : Node} (h : Steps E A s t) (hledger : ∀ b, ¬A (.ledger b))
    (hlow : ¬A .lowMark) : t.cfg.lowWaterMark = s.cfg.lowWaterMark := by
  refine h.preserves (I := fun u => u.cfg.lowWaterMark = s.cfg.lowWaterMark) (fun l u v hl hp hu => ?_) rfl
  rw [← hu]
  have hcfg := hp.cfgStep
  generalize u.cfg = c at hcfg
  generalize v.cfg = c' at hcfg
  cases hcfg with
  | same _ h => exact h.lowWaterMark
  | view _ w =>
    unfold Config.resetNewViewState
    split <;> rfl
  | lowMark => exact absurd hl hlow
  | ledger => exact absurd hl (hledger _)
  | nodes h =>
    obtain ⟨_, _, _, _, _, _, _, rfl⟩ := Config.setConsensusNodeList_frame h
    rfl
  | _ => rfl

theorem Steps.unread {E : Env} {A : Label → Prop} {s t : Node} (h : Steps E A s t) (hA : ¬A .lowRead)
    (hs : s.lowMarks = []) : t.lowMarks = [] := by
  refine h.preserves (I := fun u => u.lowMarks = []) (fun l u v hl hp hu => ?_) hs
  refine List.eq_nil_iff_forall_not_mem.2 fun mark hmark => ?_
  rcases hp.lowMarks hmark with hold | ⟨rfl, -⟩
  · rw [hu] at hold
    cases hold
  · exact hA hl

namespace Restart

variable {E : Env} {keyPair : KeyPair} {l : LedgerConfig} {state : List PBFTProposal} {r r₀ r' : Restart}
  {e : RestartEvent} {trace : List (Restart × RestartEvent)}

def fresh (keyPair : KeyPair) : Node := { cfg := { keyPair := keyPair, timeoutState := true } }

theorem start_steps {A : Label → Prop} (hquiet : A .quiet) (hmode : A .mode) (hl : A (.ledger l))
    (hn : A (.nodes l.consensusNodeList))
    (h : start E keyPair l state = some r) : Steps E A (fresh keyPair) r.node := by
  obtain ⟨s, hs, rfl⟩ := Option.map_eq_some_iff.1 h
  exact Node.resetConfig_steps _ hquiet hmode hl hn hs

theorem halfStep_steps {A : Label → Prop} (hA : Open A) (hread : A .lowRead) (hlow : A .lowMark) (hload : ∀ p, A (.load p))
    (hpush : ∀ p, A (.push .loaded p))
    {i : Int} (hstate : ∀ p ∈ state, i < p.index) (hmarked : r.Marked i state) (h : r.halfStep E e = some r') :
    Steps E A r.node r'.node := by
  rcases halfStep_loads hA hread hload hpush h with ⟨-, hsteps⟩ | ⟨p, hlast, rfl⟩ | ⟨j, mark, hmark, rfl⟩
  · exact hsteps
  · have hp := hstate p (hmarked.last p (Option.mem_def.2 hlast))
    have hprogressed := hmarked.level.watermarks.progressed
    have hcommitted := hmarked.level.committed
    exact .single hlow (.lowMark r.node (Or.inr (by omega)))
  · exact .trans (.single hlow (.lowMark r.node (Or.inl hmark))) (.single (hA .answer rfl)
      (.answer (r.node.setCfg (r.node.cfg.setLowWaterMark mark)) (fun _ h => h) (fun _ h => h) (fun _ h => h) (fun _ h => h)
        fun _ hk => (List.eraseIdx_sublist _ _).subset hk))

theorem path_steps {A : Label → Prop} (hA : Open A) (hread : A .lowRead) (hlow : A .lowMark) (hload : ∀ p, A (.load p))
    (hpush : ∀ p, A (.push .loaded p))
    {i : Int} (hstate : ∀ p ∈ state, i < p.index) (hmarked : r₀.Marked i state) (h : Trail (halfStep E) r₀ trace r) :
    Steps E A r₀.node r.node := by
  induction h with
  | nil => exact .refl _
  | snoc h hs ih => exact ih.trans (halfStep_steps hA hread hlow hload hpush hstate (path_marked hstate h hmarked) hs)

theorem step_halves (h : r.step E e = some r') :
    r.halfStep E e = some r' ∨ ∃ u, r.halfStep E e = some u ∧ u.halfStep E (.lowMark 0) = some r' := by
  cases e with
  | next => exact Or.inl h
  | setLowWaterMark => exact Or.inl h
  | callback j outcome =>
    obtain ⟨u, hu, rfl⟩ := Option.map_eq_some_iff.1 h
    cases hmark : u.node.lowMarks[0]? with
    | none => exact Or.inl hu
    | some mark => exact Or.inr ⟨u, hu, by rw [halfStep, hmark]; rfl⟩
  | lowMark j => cases h

theorem step_marked {i : Int} (hstate : ∀ p ∈ state, i < p.index) (h : r.step E e = some r') (hr : r.Marked i state) :
    r'.Marked i state := by
  rcases step_halves h with h | ⟨u, hu, h⟩
  · exact halfStep_marked hstate h hr
  · exact halfStep_marked hstate h (halfStep_marked hstate hu hr)

/-- Every index above the committed one whose stored proposal was not queued is at or above the low water mark. -/
def Readmits (state : List PBFTProposal) (r : Restart) : Prop :=
  ∀ p ∈ state, r.node.cfg.committedIndex < p.index → Action.pushCommitted p ∉ r.node.log → r.node.cfg.lowWaterMark ≤ p.index

/-- The step is a failed callback that comes after `init` and makes room for the index. -/
def Lowers (x : Restart × RestartEvent) (i : Int) : Prop :=
  x.1.Initialized ∧ ∃ q, x.1.fails x.2 = some q ∧ q.index ≤ i + 1

theorem fails_cases {q : PBFTProposal} (h : r.fails e = some q) :
    ∃ j n outcome, e = .callback j outcome ∧ r.node.loading[j]? = some (q, n) ∧ outcome ≠ .timeout ∧
      outcome ≠ .result true := by
  have hcall : ∀ j : ℕ, (r.node.loading[j]?).map Prod.fst = some q → ∃ n, r.node.loading[j]? = some (q, n) := fun j hj => by
    obtain ⟨⟨p, n⟩, hp, rfl⟩ := Option.map_eq_some_iff.1 hj
    exact ⟨n, hp⟩
  unfold fails at h
  split at h
  · obtain ⟨n, hn⟩ := hcall _ h
    exact ⟨_, n, _, rfl, hn, nofun, nofun⟩
  · obtain ⟨n, hn⟩ := hcall _ h
    exact ⟨_, n, _, rfl, hn, nofun, nofun⟩
  · cases h

/-- A failed callback lowers the mark as far as to the index before its own, but not below the progressed index. -/
theorem low_of_fails {q : PBFTProposal} (hread : r.node.lowMarks = []) (hfails : r.fails e = some q)
    (h : r.step E e = some r') : r'.node.lowMarks = [] ∧
      r'.node.cfg.lowWaterMark = max (min r.node.cfg.lowWaterMark (q.index - 1)) r.node.cfg.progressedIndex := by
  obtain ⟨j, n, outcome, rfl, hcall, htimeout, htrue⟩ := fails_cases hfails
  have hloaded : ({ r.node with loading := r.node.loading.eraseIdx j } : Node).onProposalLoaded q n outcome =
      { r.node with
        loading := r.node.loading.eraseIdx j
        lowMarks := [max (min r.node.cfg.lowWaterMark (q.index - 1)) r.node.cfg.progressedIndex] } := by
    unfold Node.onProposalLoaded
    split
    · exact absurd rfl htimeout
    · exact absurd rfl htrue
    · simp only [hread, List.nil_append]
  simp only [step, halfStep, hcall, Option.map_some, hloaded, Option.some.injEq] at h
  subst h
  exact ⟨rfl, rfl⟩

theorem onProposalLoaded_low (E : Env) (s : Node) (p : PBFTProposal) (n : Nat) {outcome : VerifyOutcome}
    (h : outcome = .timeout ∨ outcome = .result true) : (s.lowMarks = [] → (s.onProposalLoaded p n outcome).lowMarks = []) ∧
      (s.onProposalLoaded p n outcome).cfg.lowWaterMark = s.cfg.lowWaterMark := by
  rcases h with rfl | rfl
  · simp only [Node.onProposalLoaded, Node.loadAndVerifyProposal]
    split_ifs <;> exact ⟨fun hread => hread, rfl⟩
  · have hA : Open fun l : Label => ((∀ b, l ≠ .ledger b) ∧ l ≠ .lowMark) ∧ l ≠ .lowRead := by
      intro l hl
      refine ⟨⟨fun b hb => ?_, fun hb => ?_⟩, fun hb => ?_⟩ <;> (subst hb; cases hl)
    have hpush : ((∀ b, Label.push .loaded p ≠ .ledger b) ∧ Label.push .loaded p ≠ .lowMark) ∧ Label.push .loaded p ≠ .lowRead :=
      ⟨⟨nofun, nofun⟩, nofun⟩
    have hsteps := s.updateCommitQueue_steps (E := E) hA hpush nofun
    exact ⟨hsteps.unread (fun hb => hb.2 rfl), hsteps.lowWaterMark (fun b hb => hb.1.1 b rfl) fun hb => hb.1.2 rfl⟩

theorem low_of_callback {j : ℕ} {outcome : VerifyOutcome} (hread : r.node.lowMarks = [])
    (hfails : r.fails (.callback j outcome) = none) (h : r.step E (.callback j outcome) = some r') :
    r'.node.lowMarks = [] ∧ r'.node.cfg.lowWaterMark = r.node.cfg.lowWaterMark := by
  obtain ⟨u, hu, rfl⟩ := Option.map_eq_some_iff.1 h
  obtain ⟨⟨p, n⟩, hcall, rfl⟩ := Option.map_eq_some_iff.1 hu
  have houtcome : outcome = .timeout ∨ outcome = .result true := by
    rcases outcome with _ | _ | _ | _ <;> simp [fails, hcall] at hfails ⊢
  obtain ⟨hmarks, hlow⟩ := onProposalLoaded_low E { r.node with loading := r.node.loading.eraseIdx j } p n houtcome
  dsimp only
  rw [hmarks hread]
  exact ⟨hmarks hread, hlow⟩

theorem step_unread (hread : r.node.lowMarks = []) (h : r.step E e = some r') : r'.node.lowMarks = [] := by
  cases e with
  | callback j outcome =>
    cases hfails : r.fails (.callback j outcome) with
    | none => exact (low_of_callback hread hfails h).1
    | some q => exact (low_of_fails hread hfails h).1
  | next =>
    simp only [step, halfStep] at h
    split at h
    · cases h
    · obtain rfl := Option.some.inj h
      dsimp only [Node.initProposal, Node.loadAndVerifyProposal, Node.asyncResetTxsFlag]
      split_ifs <;> exact hread
  | setLowWaterMark =>
    simp only [step, halfStep] at h
    split at h
    · obtain rfl := Option.some.inj h
      exact hread
    · cases h
  | lowMark j => cases h

/-- What the mark is made of: the last proposal, once `init` has set it, and the callbacks that failed since. -/
structure Lowered (state : List PBFTProposal) (trace : List (Restart × RestartEvent)) (r : Restart) : Prop where
  before : r.last ≠ none → r.last = state.getLast? ∧ ∀ x ∈ trace, x.1.last ≠ none
  after : r.last = none → ∀ p ∈ state.getLast?, r.todo = [] ∧ ∀ i, r.node.cfg.progressedIndex ≤ i →
    (r.node.cfg.lowWaterMark ≤ i ↔ p.index < i ∨ ∃ x ∈ trace, Lowers x i)

theorem start_lowered (h : start E keyPair l state = some r) : Lowered state [] r := by
  obtain ⟨s, -, rfl⟩ := Option.map_eq_some_iff.1 h
  refine ⟨fun _ => ⟨rfl, fun x hx => by cases hx⟩, fun hlast p hp => ?_⟩
  rw [show state.getLast? = none from hlast] at hp
  cases hp

theorem exists_lowers_snoc {x : Restart × RestartEvent} {i : Int} :
    (∃ y ∈ trace ++ [x], Lowers y i) ↔ (∃ y ∈ trace, Lowers y i) ∨ Lowers x i := by
  simp only [List.mem_append, List.mem_singleton, or_and_right, exists_or, exists_eq_left]

theorem Lowered.next (hr : Lowered state trace r) (h : r.step E .next = some r') :
    Lowered state (trace ++ [(r, .next)]) r' := by
  simp only [step, halfStep] at h
  split at h
  · cases h
  · rename_i p rest htodo
    obtain rfl := Option.some.inj h
    refine ⟨fun hlast => ⟨(hr.before hlast).1, fun x hx => ?_⟩, fun hlast q hq => ?_⟩
    · rcases List.mem_append.1 hx with hx | hx
      · exact (hr.before hlast).2 x hx
      · rw [List.mem_singleton.1 hx]
        exact hlast
    · have htodo' := (hr.after hlast q hq).1
      rw [htodo] at htodo'
      cases htodo'

theorem Lowered.setLowWaterMark (hr : Lowered state trace r) (h : r.step E .setLowWaterMark = some r') :
    Lowered state (trace ++ [(r, .setLowWaterMark)]) r' := by
  simp only [step, halfStep] at h
  split at h
  · rename_i p htodo hlast
    obtain rfl := Option.some.inj h
    have hbefore := hr.before (by rw [hlast]; exact nofun)
    refine ⟨fun hne => absurd rfl hne, fun _ q hq => ⟨htodo, fun j hj => ?_⟩⟩
    obtain rfl : p = q := by
      rw [← hbefore.1, hlast] at hq
      exact Option.some.inj hq
    have hnone : ¬∃ y ∈ trace ++ [(r, RestartEvent.setLowWaterMark)], Lowers y j := by
      rintro ⟨y, hy, hlowers, -⟩
      rcases List.mem_append.1 hy with hy | hy
      · exact hbefore.2 y hy hlowers.2
      · rw [List.mem_singleton.1 hy] at hlowers
        exact absurd (hlast.symm.trans hlowers.2) nofun
    rw [or_iff_left hnone]
    exact Int.add_one_le_iff
  · cases h

theorem Lowered.callback (hr : Lowered state trace r) (hread : r.node.lowMarks = []) {j : Nat} {outcome : VerifyOutcome}
    (h : r.step E (.callback j outcome) = some r')
    (hprogressed : r'.node.cfg.progressedIndex = r.node.cfg.progressedIndex) :
    Lowered state (trace ++ [(r, .callback j outcome)]) r' := by
  have hsame : r'.todo = r.todo ∧ r'.last = r.last := by
    obtain ⟨u, hu, rfl⟩ := Option.map_eq_some_iff.1 h
    obtain ⟨c, -, rfl⟩ := Option.map_eq_some_iff.1 hu
    exact ⟨rfl, rfl⟩
  refine ⟨fun hlast => ?_, fun hlast p hp => ?_⟩
  · rw [hsame.2] at hlast ⊢
    refine ⟨(hr.before hlast).1, fun x hx => ?_⟩
    rcases List.mem_append.1 hx with hx | hx
    · exact (hr.before hlast).2 x hx
    · rw [List.mem_singleton.1 hx]
      exact hlast
  · rw [hsame.2] at hlast
    obtain ⟨htodo, hlow⟩ := hr.after hlast p hp
    refine ⟨hsame.1.trans htodo, fun k hk => ?_⟩
    rw [hprogressed] at hk
    rw [exists_lowers_snoc, ← or_assoc, ← hlow k hk]
    cases hfails : r.fails (.callback j outcome) with
    | none =>
      rw [(low_of_callback hread hfails h).2]
      refine (or_iff_left ?_).symm
      rintro ⟨-, q, hq, -⟩
      exact absurd (hfails.symm.trans hq) nofun
    | some q =>
      have hlowers : Lowers (r, .callback j outcome) k ↔ q.index ≤ k + 1 := by
        constructor
        · rintro ⟨-, q', hq', hle⟩
          rwa [Option.some.inj (hfails.symm.trans hq')]
        · exact fun hle => ⟨⟨htodo, hlast⟩, q, hfails, hle⟩
      rw [(low_of_fails hread hfails h).2, hlowers]
      omega

theorem step_lowered {i : Int} (hstate : ∀ p ∈ state, i < p.index) (hmarked : r.Marked i state) (hread : r.node.lowMarks = [])
    (hr : Lowered state trace r) (h : r.step E e = some r') : Lowered state (trace ++ [(r, e)]) r' := by
  have hmarked' := step_marked hstate h hmarked
  have hprogressed : r'.node.cfg.progressedIndex = r.node.cfg.progressedIndex := by
    rw [hmarked'.level.watermarks.progressed, hmarked.level.watermarks.progressed, hmarked'.level.committed,
      hmarked.level.committed]
  cases e with
  | next => exact hr.next h
  | setLowWaterMark => exact hr.setLowWaterMark h
  | callback j outcome => exact hr.callback hread h hprogressed
  | lowMark j => cases h

theorem path_lowered {i : Int} (hstate : ∀ p ∈ state, i < p.index) (h : Trail (step E) r₀ trace r) (hmarked : r₀.Marked i state)
    (hread : r₀.node.lowMarks = []) (h₀ : Lowered state [] r₀) :
    (r.Marked i state ∧ r.node.lowMarks = []) ∧ Lowered state trace r := by
  induction h with
  | nil => exact ⟨⟨hmarked, hread⟩, h₀⟩
  | snoc h hs ih =>
    obtain ⟨⟨hmarked, hread⟩, hlowered⟩ := ih
    exact ⟨⟨step_marked hstate hs hmarked, step_unread hread hs⟩, step_lowered hstate hmarked hread hlowered hs⟩

/-- A restart leaves a dead index exactly when some proposal was not queued although no later callback of a proposal at most
one above it failed once `init` had set the mark. -/
theorem readmits_iff {pb : PBObject PBFTProposal} (hpb : pb.Lawful) (hempty : pb.decode [] = some {}) {st : LedgerStorage}
    (hst : LedgerStorage.Written pb st) (hl : 0 ≤ l.blockNumber) {maxError batchError : Bool}
    {loaded : Option (List PBFTProposal)}
    (hload : ((LedgerStorage.restarted st.db).loadState pb l.blockNumber maxError batchError).2 = .loaded loaded)
    (hstart : start E keyPair l (loaded.getD []) = some r₀) (h : Trail (step E) r₀ trace r) (hdone : r.Finished) :
    Readmits (loaded.getD []) r ↔ ∀ p ∈ loaded.getD [], r.node.cfg.committedIndex < p.index →
      Action.pushCommitted p ∉ r.node.log → ∃ x ∈ trace, Lowers x p.index := by
  have hstate := hst.lt_of_loaded hpb hempty hl hload
  obtain ⟨last, hindices⟩ := hst.loaded hpb hempty hl hload
  obtain ⟨⟨hmarked, -⟩, hlowered⟩ := path_lowered hstate h (start_marked hl hstart)
    ((start_steps (A := fun l => l ≠ .lowRead) nofun nofun nofun nofun hstart).unread (fun hA => hA rfl) rfl)
    (start_lowered hstart)
  refine forall₂_congr fun p hp => forall₂_congr fun habove _ => ?_
  obtain ⟨q, hq⟩ : ∃ q, (loaded.getD []).getLast? = some q :=
    Option.isSome_iff_exists.1 (List.getLast?_isSome.2 (List.ne_nil_of_mem hp))
  have hprogressed := hmarked.level.watermarks.progressed
  -- the indices of the loaded proposals grow, so none is above that of the last one
  have hle : ¬q.index < p.index := by
    have hmem := LedgerStorage.mem_batchKeys.1 (hindices ▸ List.mem_map_of_mem hp)
    have hlast : (LedgerStorage.batchKeys (l.blockNumber + 1) last).getLast? = some q.index := by
      rw [← hindices, List.getLast?_map, hq, Option.map_some]
    rw [List.getLast?_eq_getElem?, LedgerStorage.batchKeys_length, LedgerStorage.getElem?_batchKeys (by omega)] at hlast
    have hindex := Option.some.inj hlast
    omega
  rw [(hlowered.after hdone.1.2 q hq).2 p.index (by omega), or_iff_right hle]

/-- Proposal 2 of `toyStored` fails after the mark was set, and can be proposed again. -/
theorem toyLoads_readmits : ∃ r₀ trace r, start Toy.env (Toy.keyPair 0) (toyBlock 0) toyStored = some r₀ ∧
    Trail.states (step Toy.env) r₀ toyLoads = some (trace, r) ∧ Readmits toyStored r := by
  have hrun : ((start Toy.env (Toy.keyPair 0) (toyBlock 0) toyStored).elim false fun r₀ =>
      (Trail.states (step Toy.env) r₀ toyLoads).elim false fun r =>
        decide (r.2.todo = [] ∧ r.2.last = none ∧ r.2.node.loading = [] ∧
          Action.pushCommitted (Toy.proposal 7) ∈ r.2.node.log) &&
          r.1.any fun x => decide (x.1.todo = [] ∧ x.1.last = none) && (x.1.fails x.2).any fun q => decide (q.index =
            2)) = true := by
    decide +kernel
  obtain ⟨r₀, hstart, hrun⟩ := Toy.exists_of_elim hrun
  obtain ⟨⟨trace, r⟩, htrace, hrun⟩ := Toy.exists_of_elim hrun
  simp only [Bool.and_eq_true, decide_eq_true_eq, List.any_eq_true, Option.any_eq_true] at hrun
  obtain ⟨⟨htodo, hlast, hloading, hpushed⟩, x, hx, hinit, q, hq, hindex⟩ := hrun
  have hst : LedgerStorage.Written LedgerStorage.toyPb (LedgerStorage.toyCommitted true) := .commit _ _ _ (.commit _ _ _ .fresh)
  have hload : ((LedgerStorage.restarted (LedgerStorage.toyCommitted true).db).loadState LedgerStorage.toyPb (toyBlock 0).blockNumber
      false false).2 = .loaded (some toyStored) := by decide +kernel
  refine ⟨r₀, trace, r, hstart, htrace, ?_⟩
  refine (readmits_iff (Toy.object_lawful _) rfl hst le_rfl hload hstart (.of_states htrace) ⟨⟨htodo, hlast⟩, hloading⟩).2
    fun p hp _ hqueued => ⟨x, hx, hinit, q, hq, ?_⟩
  simp only [toyStored, Option.getD_some, List.mem_cons, List.not_mem_nil, or_false] at hp
  rcases hp with rfl | rfl
  · exact absurd hpushed hqueued
  · rw [hindex]
    decide

/-- The verification of proposal 2 fails before `init` sets the mark, or it times out until no try is left. -/
def toyDead : List (List RestartEvent) :=
  [[.next, .next, .callback 0 (.result true), .callback 0 .error, .setLowWaterMark],
   [.next, .next, .setLowWaterMark, .callback 0 (.result true), .callback 0 .timeout, .callback 0 .timeout,
     .callback 0 .timeout,
    .callback 0 .timeout]]

/-- Index 2 is dead in either run. -/
theorem toyDead_left :
    ((LedgerStorage.restarted (LedgerStorage.toyCommitted true).db).loadState LedgerStorage.toyPb 0 false false).2 =
      .loaded (some toyStored) ∧
    ∀ l ∈ toyDead, ∃ r₀ trace r, start Toy.env (Toy.keyPair 0) (toyBlock 0) toyStored = some r₀ ∧
      Trail (step Toy.env) r₀ trace r ∧ r.Finished ∧ (∀ x ∈ trace, x.2 ∈ l) ∧ ¬Readmits toyStored r := by
  have hruns : (toyDead.all fun l => (start Toy.env (Toy.keyPair 0) (toyBlock 0) toyStored).elim false fun r₀ =>
      (Trail.states (step Toy.env) r₀ l).elim false fun r =>
        decide (r.2.todo = [] ∧ r.2.last = none ∧ r.2.node.loading = []) &&
          toyStored.any fun p => decide (r.2.node.cfg.committedIndex < p.index ∧
            Action.pushCommitted p ∉ r.2.node.log ∧ p.index < r.2.node.cfg.lowWaterMark)) = true := by
    decide +kernel
  refine ⟨by decide +kernel, fun l hl => ?_⟩
  have hrun := List.all_eq_true.1 hruns l hl
  obtain ⟨r₀, hstart, hrun⟩ := Toy.exists_of_elim hrun
  obtain ⟨⟨trace, r⟩, htrace, hrun⟩ := Toy.exists_of_elim hrun
  simp only [Bool.and_eq_true, decide_eq_true_eq, List.any_eq_true] at hrun
  obtain ⟨⟨htodo, hlast, hloading⟩, p, hp, habove, hqueued, hlow⟩ := hrun
  refine ⟨r₀, trace, r, hstart, .of_states htrace, ⟨⟨htodo, hlast⟩, hloading⟩,
    fun x hx => Trail.mem_events htrace hx, fun hreadmits => ?_⟩
  exact absurd (hreadmits p hp habove hqueued) (not_le.2 hlow)

end Restart

end BcosPbft
