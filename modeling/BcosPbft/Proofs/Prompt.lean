import BcosPbft.Proofs.Agreement
import BcosPbft.Proofs.Dereference
import BcosPbft.Proofs.Held
import BcosPbft.Proofs.StableBlock
import BcosPbft.Proofs.Views
import BcosPbft.Proofs.Voting

/-! No quorum is left waiting. Whatever the order of the messages, of the executions and of the changes of view, after every
event a prepare quorum is precommitted, a commit quorum is reported and a checkpoint quorum is stable. -/

namespace BcosPbft

namespace PBFTCache

/-- The check of a tally has nothing left to do; `told` holds of the hashes whose commit was reported. -/
def SettledIn (cfg : Config) (told : HashType → Prop) (c : PBFTCache) : TallyKind → Prop
  | .prepare => c.collectEnoughPrepareReq cfg = true → c.precommitIsCurrent = true
  | .commit => c.precommitIsCurrent = true → c.collectEnoughCommitReq cfg = true → ∀ m, c.prePrepare = some m → told m.hash
  | .checkpoint => c.collectEnoughCheckpoint cfg = true → c.stableCommitted = true

/-- What the checks rely on: the weights are those of the senders, the pre-prepare is of no later view than the node and of no
earlier one than the precommit, what is precommitted is the pre-prepare, and what is submitted was reported. -/
structure Attended (o cfg : Config) (told : HashType → Prop) (c : PBFTCache) : Prop where
  counts : ∀ k, Counts o (fun _ => True) (c.voteTally k).1 (c.voteTally k).2
  aged : ∀ m, c.prePrepare = some m → m.view ≤ cfg.view ∧ m.consensusProposal.isSome = true
  current : c.precommitted = true → c.precommitIsCurrent = true
  behind : ∀ p, c.precommit = some p → ∃ m, c.prePrepare = some m ∧ p.view ≤ m.view
  reported : c.submitted = true → ∀ m, c.prePrepare = some m → told m.hash

theorem Attended.empty (o cfg : Config) (told : HashType → Prop) (i : Int) : Attended o cfg told { index := i } where
  counts k := by cases k <;> exact .empty
  aged m hm := by cases hm
  current h := by cases h
  behind p hp := by cases hp
  reported h := by cases h

theorem settledIn_empty (cfg : Config) (told : HashType → Prop) (i : Int) (k : TallyKind) :
    SettledIn cfg told { index := i } k := by
  cases k with
  | prepare => exact fun h => by cases h
  | commit => exact fun h => by cases h
  | checkpoint => exact fun h => by cases h

variable {told told' : HashType → Prop}

theorem Attended.mono {o cfg : Config} {c : PBFTCache} (hc : c.Attended o cfg told) (h : ∀ hash, told hash → told' hash) :
    c.Attended o cfg told' :=
  ⟨hc.counts, hc.aged, hc.current, hc.behind, fun hs m hm => h _ (hc.reported hs m hm)⟩

theorem SettledIn.mono {cfg : Config} {c : PBFTCache} {k : TallyKind} (hk : c.SettledIn cfg told k)
    (h : ∀ hash, told hash → told' hash) : c.SettledIn cfg told' k := by
  cases k with
  | prepare => exact hk
  | commit => exact fun hcurrent henough m hm => h _ (hk hcurrent henough m hm)
  | checkpoint => exact hk

theorem SettledIn.congr {cfg cfg' : Config} {c : PBFTCache} {k : TallyKind} (h : c.SettledIn cfg told k)
    (hview : cfg'.view = cfg.view) (hrequired : cfg'.minRequiredQuorum = cfg.minRequiredQuorum) : c.SettledIn cfg' told k := by
  cases k with
  | prepare =>
    intro henough
    simp only [collectEnoughPrepareReq, checkPrePrepareProposalStatus, collectEnoughQuorum, hview, hrequired] at henough
    exact h henough
  | commit =>
    intro hcurrent henough
    simp only [collectEnoughCommitReq, checkPrePrepareProposalStatus, collectEnoughQuorum, hview, hrequired] at henough
    exact h hcurrent henough
  | checkpoint =>
    intro henough
    simp only [collectEnoughCheckpoint, collectEnoughQuorum, hrequired] at henough
    exact h henough

/-- In a later view the pre-prepare is no longer that of the view. -/
theorem SettledIn.later {o cfg cfg' : Config} {c : PBFTCache} {k : TallyKind} (hc : c.Attended o cfg told)
    (h : c.SettledIn cfg told k) (hview : cfg.view < cfg'.view) (hrequired : cfg'.minRequiredQuorum = cfg.minRequiredQuorum) :
    c.SettledIn cfg' told k := by
  have hold : c.checkPrePrepareProposalStatus cfg' = false := by
    unfold checkPrePrepareProposalStatus
    cases hm : c.prePrepare with
    | none => rfl
    | some m =>
      have hage := (hc.aged m hm).1
      exact decide_eq_false fun heq => absurd (heq ▸ hage) (not_le.2 hview)
  cases k with
  | prepare =>
    intro henough
    rw [collectEnoughPrepareReq, hold] at henough
    cases henough
  | commit =>
    intro _ henough
    rw [collectEnoughCommitReq, hold] at henough
    cases henough
  | checkpoint =>
    intro henough
    simp only [collectEnoughCheckpoint, collectEnoughQuorum, hrequired] at henough
    exact h henough

theorem precommitIsCurrent_enter (E : Env) (cfg : Config) (now : Int) (c : PBFTCache) (m : PBFTMessage) (p : PBFTProposal) :
    (c.enterPrecommit E cfg now m p).precommitIsCurrent = true := by
  unfold precommitIsCurrent
  rw [enterPrecommit_precommit, enterPrecommit_prePrepare]
  exact decide_eq_true (le_refl _)

theorem precommitIsCurrent_iff {c : PBFTCache} : c.precommitIsCurrent = true ↔
    ∃ p m, c.precommit = some p ∧ c.prePrepare = some m ∧ m.view ≤ p.view := by
  unfold precommitIsCurrent
  cases c.precommit with
  | none => simp
  | some p =>
    cases c.prePrepare with
    | none => simp
    | some m => simp

/-- A commit check leaves no commit quorum behind. -/
theorem checkAndCommit_settled {cfg : Config} {c : PBFTCache}
    (hreported : c.submitted = true → ∀ m, c.prePrepare = some m → told m.hash)
    (htold : c.submitted = false → (c.checkAndCommit cfg).1.submitted = true →
      ∀ m, (c.checkAndCommit cfg).1.prePrepare = some m → told m.hash) :
    (c.checkAndCommit cfg).1.SettledIn cfg told .commit := by
  intro hcurrent henough
  unfold checkAndCommit at hcurrent henough htold ⊢
  split_ifs at hcurrent henough htold ⊢ with hsubmitted hnone hnot
  · exact hreported hsubmitted
  · obtain ⟨p, -, hp, -⟩ := precommitIsCurrent_iff.1 hcurrent
    rw [hp] at hnone
    cases hnone
  · rw [henough] at hnot
    cases hnot
  · exact htold (by simpa using hsubmitted) rfl

theorem checkAndPreCommit_settled {E : Env} {o cfg : Config} {now : Int} {c : PBFTCache} (hc : c.Attended o cfg told) :
    (c.checkAndPreCommit E cfg now).1.SettledIn cfg told' .prepare := by
  rcases c.checkAndPreCommit_cases E cfg now with heq | ⟨m, p, -, -, -, -, -, heq⟩
  · intro henough
    rw [heq] at henough ⊢
    by_contra hcurrent
    obtain ⟨m, hm⟩ : ∃ m, c.prePrepare = some m := by
      cases hm : c.prePrepare with
      | none =>
        rw [collectEnoughPrepareReq, hm] at henough
        simp at henough
      | some m => exact ⟨m, rfl⟩
    obtain ⟨p, hp⟩ := Option.isSome_iff_exists.1 (hc.aged m hm).2
    have hnot : c.precommitted = false := by
      by_contra hpre
      exact hcurrent (hc.current (by simpa using hpre))
    rw [checkAndPreCommit_enters hm hp hnot (by simpa using hcurrent) henough] at heq
    cases (Prod.mk.inj (Prod.mk.inj heq).2).2
  · intro henough
    rw [heq]
    rcases (c.enterPrecommit E cfg now m p).checkAndCommit_cases cfg with heq' | ⟨heq', -⟩
    · rw [heq']
      exact precommitIsCurrent_enter E cfg now c m p
    · rw [heq']
      exact precommitIsCurrent_enter E cfg now c m p

theorem checkAndCommitStableCheckPoint_settled (cfg : Config) (c : PBFTCache) :
    (c.checkAndCommitStableCheckPoint cfg).1.SettledIn cfg told .checkpoint := by
  intro henough
  unfold checkAndCommitStableCheckPoint at henough ⊢
  split_ifs at henough ⊢ with hdone
  · rw [henough] at hdone
    simpa using hdone
  · split
    · rename_i hnone
      simp [collectEnoughCheckpoint, hnone] at henough
    · rfl

theorem precommitIsCurrent_reencode (E : Env) (keyPair : KeyPair) (c : PBFTCache) :
    (c.reencode E keyPair).precommitIsCurrent = c.precommitIsCurrent := by
  unfold precommitIsCurrent reencode
  dsimp only
  cases hp : c.precommit with
  | none => split_ifs <;> rfl
  | some p =>
    cases hq : c.prePrepare with
    | none => split_ifs <;> rfl
    | some q => split_ifs <;> rfl

theorem reencode_settled {E : Env} {cfg : Config} {keyPair : KeyPair} {c : PBFTCache} {k : TallyKind}
    (hk : c.SettledIn cfg told k) : (c.reencode E keyPair).SettledIn cfg told k := by
  have hstatus : (c.reencode E keyPair).checkPrePrepareProposalStatus cfg = c.checkPrePrepareProposalStatus cfg := by
    unfold checkPrePrepareProposalStatus reencode
    cases c.prePrepare <;> rfl
  cases k with
  | prepare =>
    intro henough
    rw [precommitIsCurrent_reencode]
    refine hk ?_
    rw [collectEnoughPrepareReq, hstatus, reencode, Option.any_map] at henough
    exact henough
  | commit =>
    intro hcurrent henough m' hm'
    rw [precommitIsCurrent_reencode] at hcurrent
    rw [collectEnoughCommitReq, hstatus, reencode, Option.any_map] at henough
    obtain ⟨m, hm, rfl⟩ := Option.map_eq_some_iff.1 hm'
    exact hk hcurrent henough m hm
  | checkpoint => exact hk

/-- A view change does not add weight to a tally. -/
theorem Counts.reset_le {cfg : Config} {P : PBFTMessage → Prop} {cached : CollectionCache} {weights : QuorumRecoder}
    (hc : Counts cfg P cached weights) (hmax : Config.totalWeight cfg.consensusNodeList < 2 ^ 64) (v : ViewType)
    (h : HashType) : ((recalculateQuorum cfg (resetCacheAfterViewChange cached v)).find? h).getD 0 ≤
      (weights.find? h).getD 0 := by
  have hreset := hc.reset v
  rw [UInt64.le_iff_toNat_le]
  have hafter := (hreset.exact hmax).senders h
  have hbefore := (hc.exact hmax).senders h
  unfold keptWeight at hafter hbefore
  rw [hafter, hbefore, hreset.storedSenders_eq, hc.storedSenders_eq]
  refine Finset.sum_le_sum_of_subset fun i hi => ?_
  rw [List.mem_toFinset, mem_senders] at hi ⊢
  obtain ⟨l, m, hl, hm⟩ := hi
  rw [resetCacheAfterViewChange, OrdMap.find?_filter, OrdMap.find?_mapVal] at hl
  obtain ⟨l', hl', rfl⟩ := Option.map_eq_some_iff.1 (Option.filter_eq_some_iff.1 hl).1
  rw [OrdMap.find?_filter] at hm
  exact ⟨l', m, hl', (Option.filter_eq_some_iff.1 hm).1⟩

theorem Counts.reset_enough {cfg : Config} {P : PBFTMessage → Prop} {cached : CollectionCache} {weights : QuorumRecoder}
    (hc : Counts cfg P cached weights) (hmax : Config.totalWeight cfg.consensusNodeList < 2 ^ 64)
    (hpos : 0 < cfg.minRequiredQuorum) {v : ViewType} {h : HashType}
    (henough : collectEnoughQuorum cfg h (recalculateQuorum cfg (resetCacheAfterViewChange cached v)) = true) :
    collectEnoughQuorum cfg h weights = true := by
  have hle := hc.reset_le hmax v h
  unfold collectEnoughQuorum at henough ⊢
  split at henough
  · cases henough
  · rename_i w hw
    have hquorum : cfg.minRequiredQuorum ≤ w := by simpa using henough
    rw [hw, Option.getD_some] at hle
    cases hold : weights.find? h with
    | none =>
      rw [hold, Option.getD_none] at hle
      exact absurd (hquorum.trans hle) (not_le.2 hpos)
    | some w' =>
      rw [hold, Option.getD_some] at hle
      exact decide_eq_true (hquorum.trans hle)

/-- A quorum of the view in force that is left after a view change was there before. -/
theorem resetCache_settled {o cfg : Config} {c : PBFTCache} (hmax : Config.totalWeight o.consensusNodeList < 2 ^ 64)
    (hpos : 0 < cfg.minRequiredQuorum) (hlist : cfg.consensusNodeList = o.consensusNodeList) (hc : c.Attended o cfg told)
    (v : ViewType) {k : TallyKind} (hk : c.SettledIn cfg told k) : (c.resetCache cfg v).1.SettledIn cfg told k := by
  have hcounts := fun k => (hc.counts k).congr hlist
  rw [← hlist] at hmax
  cases k with
  | prepare =>
    intro henough
    refine hk ?_
    unfold collectEnoughPrepareReq at henough ⊢
    obtain ⟨hstatus, henough⟩ := Bool.and_eq_true_iff.1 henough
    refine Bool.and_eq_true_iff.2 ⟨hstatus, ?_⟩
    change c.prePrepare.any _ = true at henough
    obtain ⟨m, hm, henough⟩ := (Option.any_eq_true _ _).1 henough
    exact (Option.any_eq_true _ _).2 ⟨m, hm, (hcounts .prepare).reset_enough hmax hpos henough⟩
  | commit =>
    intro hcurrent henough
    refine hk hcurrent ?_
    unfold collectEnoughCommitReq at henough ⊢
    obtain ⟨hstatus, henough⟩ := Bool.and_eq_true_iff.1 henough
    refine Bool.and_eq_true_iff.2 ⟨hstatus, ?_⟩
    change c.prePrepare.any _ = true at henough
    obtain ⟨m, hm, henough⟩ := (Option.any_eq_true _ _).1 henough
    exact (Option.any_eq_true _ _).2 ⟨m, hm, (hcounts .commit).reset_enough hmax hpos henough⟩
  | checkpoint => exact hk

end PBFTCache

def Label.tally : Label → Option PBFTCache.TallyKind
  | .store _ | .vote _ | .prepare _ => some .prepare
  | .commit _ => some .commit
  | .checkPoint _ _ | .setCheckPoint _ => some .checkpoint
  | _ => none

section

variable {E : Env} {l : Label} {i now : Int} {o cfg : Config} {c c' : PBFTCache} {told : HashType → Prop}

/-- A pre-prepare is stored in the view it is of, over none that is precommitted or submitted, and over earlier ones only. -/
structure Label.Timely (l : Label) (cfg : Config) (i : Int) (c : PBFTCache) : Prop where
  aged : ∀ m, l = .store m → m.index = i → m.view ≤ cfg.view ∧ m.consensusProposal.isSome = true
  fresh : ∀ m, l = .store m → m.index = i → c.precommitted = false ∧ c.submitted = false
  later : ∀ m, l = .store m → m.index = i → ∀ q, c.prePrepare = some q → q.view < m.view

theorem Label.Timely.of_ne (h : ∀ m, l ≠ .store m) : l.Timely cfg i c :=
  ⟨fun m heq => absurd heq (h m), fun m heq => absurd heq (h m), fun m heq => absurd heq (h m)⟩

theorem Label.Timely.of_tally (h : l.tally = none) (cfg : Config) (i : Int) (c : PBFTCache) : l.Timely cfg i c := by
  refine .of_ne fun m => ?_
  rintro rfl
  cases h

theorem CacheStep.submitted (h : CacheStep E cfg now l i c c') (hl : l ≠ .preCommit) (hl' : l ≠ .submit)
    (hs : c'.submitted = true) : c.submitted = true := by
  cases h with
  | preCommit => exact absurd rfl hl
  | submit => exact absurd rfl hl'
  | reset v => cases hs
  | stable =>
    rcases c.checkAndCommitStableCheckPoint_cases cfg with heq | ⟨p, w, -, -, -, -, heq⟩
    · rwa [heq] at hs
    · rwa [heq] at hs
  | setCheckPoint p =>
    unfold PBFTCache.setCheckPointProposal at hs
    split_ifs at hs <;> exact hs
  | _ => exact hs

theorem PBFTCache.Attended.submit (hc : c.Attended o cfg told)
    (htold : c.submitted = false → (c.checkAndCommit cfg).1.submitted = true →
      ∀ m, (c.checkAndCommit cfg).1.prePrepare = some m → told m.hash) : (c.checkAndCommit cfg).1.Attended o cfg told := by
  rcases c.checkAndCommit_cases cfg with heq | ⟨heq, -⟩
  · rw [heq]
    exact hc
  · rw [heq] at htold ⊢
    refine ⟨fun k => ?_, hc.aged, hc.current, hc.behind, fun _ m hm => ?_⟩
    · cases k with
      | prepare => exact hc.counts .prepare
      | commit => exact hc.counts .commit
    · cases hs : c.submitted with
      | true => exact hc.reported hs m hm
      | false => exact htold hs rfl m hm

theorem PBFTCache.Attended.enter (E : Env) (cfg : Config) (now : Int) (hlist : cfg.consensusNodeList = o.consensusNodeList)
    (hc : c.Attended o cfg told) {m : PBFTMessage} (hm : c.prePrepare = some m) (p : PBFTProposal) :
    (c.enterPrecommit E cfg now m p).Attended o cfg told := by
  refine ⟨fun k => ?_, fun m' hm' => ?_, fun _ => PBFTCache.precommitIsCurrent_enter E cfg now c m p, fun q hq => ?_,
    fun hs m' hm' => ?_⟩
  · cases k with
    | prepare => exact (hc.counts .prepare).touch p.hash
    | commit => exact (((hc.counts .commit).congr hlist).addCache _ fun _ => trivial).congr hlist.symm
  · rw [PBFTCache.enterPrecommit_prePrepare] at hm'
    obtain rfl := Option.some.inj hm'
    exact ⟨(hc.aged m hm).1, rfl⟩
  · rw [PBFTCache.enterPrecommit_precommit] at hq
    obtain rfl := Option.some.inj hq
    exact ⟨_, PBFTCache.enterPrecommit_prePrepare E cfg now c m p, le_refl _⟩
  · rw [PBFTCache.enterPrecommit_prePrepare] at hm'
    obtain rfl := Option.some.inj hm'
    exact hc.reported hs m hm

theorem CacheStep.attended (h : CacheStep E cfg now l i c c') (hl : l.Timely cfg i c)
    (hlist : cfg.consensusNodeList = o.consensusNodeList)
    (htold : c.submitted = false → c'.submitted = true → ∀ m, c'.prePrepare = some m → told m.hash)
    (hc : c.Attended o cfg told) : c'.Attended o cfg told := by
  have hcounts := fun k => h.counts hlist (hc.counts k)
  cases h with
  | same => exact hc
  | store m =>
    refine ⟨hcounts, fun m' hm' => ?_, fun hpre => ?_, fun p hp => ?_, fun hs => ?_⟩
    · obtain rfl := Option.some.inj hm'
      exact hl.aged m rfl rfl
    · change c.precommitted = true at hpre
      rw [(hl.fresh m rfl rfl).1] at hpre
      cases hpre
    · obtain ⟨q, hq, hle⟩ := hc.behind p hp
      exact ⟨m, rfl, hle.trans (hl.later m rfl rfl q hq).le⟩
    · change c.submitted = true at hs
      rw [(hl.fresh m rfl rfl).2] at hs
      cases hs
  | vote | prepare | commit | checkPoint => exact ⟨hcounts, hc.aged, hc.current, hc.behind, hc.reported⟩
  | preCommit =>
    rcases c.checkAndPreCommit_cases E cfg now with heq | ⟨m, p, hm, -, -, -, -, heq⟩
    · rw [heq]
      exact hc
    · rw [heq] at htold ⊢
      exact (hc.enter E cfg now hlist hm p).submit htold
  | submit => exact hc.submit htold
  | reset v => exact ⟨hcounts, hc.aged, (fun hpre => by cases hpre), hc.behind, (fun hs => by cases hs)⟩
  | stable =>
    rcases c.checkAndCommitStableCheckPoint_cases cfg with heq | ⟨p, w, -, -, -, -, heq⟩
    · rw [heq]
      exact hc
    · rw [heq] at hcounts ⊢
      exact ⟨hcounts, hc.aged, hc.current, hc.behind, hc.reported⟩
  | reencode =>
    refine ⟨hcounts, fun m hm => ?_, fun hpre => ?_, fun p hp => ?_, fun hs m hm => ?_⟩
    · obtain ⟨m', hm', rfl⟩ := Option.map_eq_some_iff.1 hm
      exact hc.aged m' hm'
    · rw [PBFTCache.precommitIsCurrent_reencode]
      exact hc.current hpre
    · obtain ⟨q, hq, hle⟩ : ∃ q, c.precommit = some q ∧ p.view = q.view := by
        unfold PBFTCache.reencode at hp
        dsimp only at hp
        split_ifs at hp
        · obtain ⟨q, hq, rfl⟩ := Option.map_eq_some_iff.1 hp
          exact ⟨q, hq, rfl⟩
        · exact ⟨p, hp, rfl⟩
      obtain ⟨m, hm, hbehind⟩ := hc.behind q hq
      exact ⟨_, congrArg (Option.map _) hm, hle.le.trans hbehind⟩
    · obtain ⟨m', hm', rfl⟩ := Option.map_eq_some_iff.1 hm
      exact hc.reported hs m' hm'
  | setCheckPoint p =>
    unfold PBFTCache.setCheckPointProposal at hcounts ⊢
    split_ifs at hcounts ⊢
    · exact hc
    · exact hc
    · exact ⟨hcounts, hc.aged, hc.current, hc.behind, hc.reported⟩

theorem CacheStep.settledIn (h : CacheStep E cfg now l i c c') (hl : l.Timely cfg i c)
    (hmax : Config.totalWeight o.consensusNodeList < 2 ^ 64) (hpos : 0 < cfg.minRequiredQuorum)
    (hlist : cfg.consensusNodeList = o.consensusNodeList)
    (htold : c.submitted = false → c'.submitted = true → ∀ m, c'.prePrepare = some m → told m.hash)
    (hc : c.Attended o cfg told) {k : PBFTCache.TallyKind} (hk : c.SettledIn cfg told k) (hne : l.tally ≠ some k) :
    c'.SettledIn cfg told k := by
  cases h with
  | same => exact hk
  | store m =>
    cases k with
    | prepare => exact absurd rfl hne
    | commit =>
      -- the precommit is of an earlier view than the new pre-prepare
      intro hcurrent
      obtain ⟨p, m', hp, hm', hle⟩ := PBFTCache.precommitIsCurrent_iff.1 hcurrent
      obtain rfl := Option.some.inj hm'
      obtain ⟨q, hq, hbehind⟩ := hc.behind p hp
      exact absurd (hbehind.trans_lt (hl.later m rfl rfl q hq)) (not_lt.2 hle)
    | checkpoint => exact hk
  | vote m =>
    cases k with
    | prepare => exact absurd rfl hne
    | commit | checkpoint => exact hk
  | prepare m =>
    cases k with
    | prepare => exact absurd rfl hne
    | commit | checkpoint => exact hk
  | commit m =>
    cases k with
    | commit => exact absurd rfl hne
    | prepare | checkpoint => exact hk
  | checkPoint own m =>
    cases k with
    | checkpoint => exact absurd rfl hne
    | prepare | commit => exact hk
  | setCheckPoint p =>
    unfold PBFTCache.setCheckPointProposal
    split_ifs
    · exact hk
    · exact hk
    · cases k with
      | checkpoint => exact absurd rfl hne
      | prepare | commit => exact hk
  | preCommit =>
    cases k with
    | prepare => exact PBFTCache.checkAndPreCommit_settled hc
    | commit =>
      rcases c.checkAndPreCommit_cases E cfg now with heq | ⟨m, p, hm, -, -, -, -, heq⟩
      · rw [heq]
        exact hk
      · rw [heq] at htold ⊢
        exact PBFTCache.checkAndCommit_settled (hc.enter E cfg now hlist hm p).reported htold
    | checkpoint =>
      rcases c.checkAndPreCommit_cases E cfg now with heq | ⟨m, p, -, -, -, -, -, heq⟩
      · rw [heq]
        exact hk
      · rw [heq]
        rcases (c.enterPrecommit E cfg now m p).checkAndCommit_cases cfg with heq' | ⟨heq', -⟩
        · rw [heq']
          exact hk
        · rw [heq']
          exact hk
  | submit =>
    cases k with
    | commit => exact PBFTCache.checkAndCommit_settled hc.reported htold
    | prepare | checkpoint =>
      rcases c.checkAndCommit_cases cfg with heq | ⟨heq, -⟩
      · rw [heq]
        exact hk
      · rw [heq]
        exact hk
  | reset v => exact PBFTCache.resetCache_settled hmax hpos hlist hc v hk
  | stable =>
    cases k with
    | checkpoint => exact c.checkAndCommitStableCheckPoint_settled cfg
    | prepare | commit =>
      rcases c.checkAndCommitStableCheckPoint_cases cfg with heq | ⟨p, w, -, -, -, -, heq⟩
      · rw [heq]
        exact hk
      · rw [heq]
        exact hk
  | reencode => exact PBFTCache.reencode_settled hk

end

def Node.ReportedAt (s : Node) (i : Int) (hash : HashType) : Prop :=
  ∃ c quorum m, Action.reportCommit c quorum ∈ s.log ∧ c.index = i ∧ c.prePrepare = some m ∧ m.hash = hash

theorem Node.ReportedAt.mono {s t : Node} {i : Int} {hash : HashType} (h : s.ReportedAt i hash) (hlog : s.log ⊆ t.log) :
    t.ReportedAt i hash := by
  obtain ⟨c, quorum, m, hmem, hc⟩ := h
  exact ⟨c, quorum, m, hlog hmem, hc⟩

namespace Node

variable {E : Env} {i j : Int} {s : Node} {c : PBFTCache}

theorem preCommitAt_find (hc : (s.preCommitAt E i).1.caches.find? i = some c) :
    ∃ d, s.caches.find? i = some d ∧ c = (d.checkAndPreCommit E s.cfg s.utcTime).1 := by
  unfold preCommitAt at hc
  split at hc
  · rename_i hnone
    rw [hnone] at hc
    cases hc
  · rename_i d hd
    rw [reported_caches] at hc
    change (s.caches.insert i _).find? i = some c at hc
    rw [OrdMap.find?_insert_self] at hc
    exact ⟨d, hd, (Option.some.inj hc).symm⟩

theorem commitAt_find (hc : (s.commitAt i).1.caches.find? i = some c) :
    ∃ d, s.caches.find? i = some d ∧ c = (d.checkAndCommit s.cfg).1 := by
  unfold commitAt at hc
  split at hc
  · rename_i hnone
    rw [hnone] at hc
    cases hc
  · rename_i d hd
    rw [reported_caches] at hc
    change (s.caches.insert i _).find? i = some c at hc
    rw [OrdMap.find?_insert_self] at hc
    exact ⟨d, hd, (Option.some.inj hc).symm⟩

theorem reported_emits (s : Node) (c : PBFTCache) (ret : Bool) : s.log ⊆ (s.reported c ret).1.log ∧
    (ret = true → Action.reportCommit c s.cfg.minRequiredQuorum ∈ (s.reported c ret).1.log) := by
  unfold reported
  split_ifs with hret
  · exact ⟨List.subset_append_left _ _, fun _ => List.mem_append_right _ List.mem_cons_self⟩
  · exact ⟨fun _ => id, fun h => absurd h hret⟩

theorem preCommitAt_emits (hc : s.caches.find? j = some c) :
    (c.checkAndPreCommit E s.cfg s.utcTime).2.2 ⊆ (s.preCommitAt E j).1.log ∧
      ((c.checkAndPreCommit E s.cfg s.utcTime).2.1 = true → Action.reportCommit
        (c.checkAndPreCommit E s.cfg s.utcTime).1 s.cfg.minRequiredQuorum ∈ (s.preCommitAt E j).1.log) := by
  unfold preCommitAt
  simp only [hc]
  obtain ⟨hlog, hreport⟩ := reported_emits
    ({ s with caches := s.caches.insert j (c.checkAndPreCommit E s.cfg s.utcTime).1 }.emit
      (c.checkAndPreCommit E s.cfg s.utcTime).2.2)
    (c.checkAndPreCommit E s.cfg s.utcTime).1 (c.checkAndPreCommit E s.cfg s.utcTime).2.1
  exact ⟨fun a ha => hlog (List.mem_append_right _ ha), hreport⟩

theorem commitAt_emits (hc : s.caches.find? j = some c) (hret : (c.checkAndCommit s.cfg).2 = true) :
    Action.reportCommit (c.checkAndCommit s.cfg).1 s.cfg.minRequiredQuorum ∈ (s.commitAt j).1.log := by
  unfold commitAt
  simp only [hc]
  exact (reported_emits { s with caches := s.caches.insert j (c.checkAndCommit s.cfg).1 } _ _).2 hret

theorem preCommitAt_find_ne (hij : i ≠ j) : (s.preCommitAt E j).1.caches.find? i = s.caches.find? i := by
  unfold preCommitAt
  split
  · rfl
  · rw [reported_caches]
    exact OrdMap.find?_insert_ne _ _ hij

theorem commitAt_find_ne (hij : i ≠ j) : (s.commitAt j).1.caches.find? i = s.caches.find? i := by
  unfold commitAt
  split
  · rfl
  · rw [reported_caches]
    exact OrdMap.find?_insert_ne _ _ hij

end Node

theorem Prim.submitted_reported {E : Env} {l : Label} {i : Int} {s t : Node} (h : Prim E l s t) {c' : PBFTCache}
    (hc' : t.caches.find? i = some c') (hnot : ((s.caches.find? i).getD { index := i }).submitted = false)
    (hs : c'.submitted = true) : ∃ quorum, Action.reportCommit c' quorum ∈ t.log := by
  have hkept : s.caches.find? i ≠ some c' := by
    intro hc
    rw [hc, Option.getD_some, hs] at hnot
    cases hnot
  by_cases hpre : l = .preCommit
  · subst hpre
    cases h with
    | preCommit _ j =>
      by_cases hij : i = j
      · subst hij
        obtain ⟨d, hd, rfl⟩ := Node.preCommitAt_find hc'
        rw [hd, Option.getD_some] at hnot
        refine ⟨_, (Node.preCommitAt_emits hd).2 ?_⟩
        rcases d.checkAndPreCommit_cases E s.cfg s.utcTime with heq | ⟨m, p, -, -, -, -, -, heq⟩
        · rw [heq, hnot] at hs
          cases hs
        · rw [heq] at hs ⊢
          rcases (d.enterPrecommit E s.cfg s.utcTime m p).checkAndCommit_cases s.cfg with heq' | ⟨heq', -⟩
          · rw [heq'] at hs
            exact absurd (hnot.symm.trans hs) Bool.false_ne_true
          · rw [heq']
      · rw [Node.preCommitAt_find_ne hij] at hc'
        exact absurd hc' hkept
  by_cases hsubmit : l = .submit
  · subst hsubmit
    cases h with
    | submit _ j =>
      by_cases hij : i = j
      · subst hij
        obtain ⟨d, hd, rfl⟩ := Node.commitAt_find hc'
        rw [hd, Option.getD_some] at hnot
        refine ⟨_, Node.commitAt_emits hd ?_⟩
        rcases d.checkAndCommit_cases s.cfg with heq | ⟨heq, -⟩
        · rw [heq, hnot] at hs
          cases hs
        · rw [heq]
      · rw [Node.commitAt_find_ne hij] at hc'
        exact absurd hc' hkept
  · have hsame := (h.cacheStep hc').submitted hpre hsubmit hs
    exact absurd (hnot.symm.trans hsame) Bool.false_ne_true

/-- The sizes of the node list for which the weights can be added up. -/
structure Config.Weighed (c : Config) : Prop where
  total : Config.totalWeight c.consensusNodeList < 2 ^ 64
  positive : 0 < c.minRequiredQuorum

/-- A node with the nodes of `o`, where no quorum for an index waits but in the tally `w`. -/
structure Prompt (w : Option PBFTCache.TallyKind) (o : Node) (i : Int) (s : Node) : Prop where
  same : SameNodes o s
  index : ∀ c, s.caches.find? i = some c → c.index = i
  cache : ∀ c, s.caches.find? i = some c → c.Attended o.cfg s.cfg (s.ReportedAt i)
  settled : ∀ c, s.caches.find? i = some c → ∀ k, w ≠ some k → c.SettledIn s.cfg (s.ReportedAt i) k

theorem PBFTCache.Attended.congr {o cfg cfg' : Config} {told : HashType → Prop} {c : PBFTCache}
    (hc : c.Attended o cfg told) (hview : cfg.view ≤ cfg'.view) : c.Attended o cfg' told :=
  ⟨hc.counts, fun m hm => ⟨(hc.aged m hm).1.trans hview, (hc.aged m hm).2⟩, hc.current, hc.behind, hc.reported⟩

namespace Prompt

variable {E : Env} {l : Label} {i : Int} {o s t : Node} {w : Option PBFTCache.TallyKind} {k : PBFTCache.TallyKind}

theorem mono (hs : Prompt none o i s) (w : Option PBFTCache.TallyKind) : Prompt w o i s :=
  ⟨hs.same, hs.index, hs.cache, fun c hc k _ => hs.settled c hc k nofun⟩

theorem congr (hs : Prompt w o i s) (hcfg : t.cfg = s.cfg) (hcaches : t.caches = s.caches) (hlog : s.log ⊆ t.log) :
    Prompt w o i t := by
  have hsame : SameNodes s t := ⟨by rw [hcfg], by rw [hcfg], by rw [hcfg], by rw [hcfg], by rw [hcfg], by rw [hcfg]⟩
  refine ⟨hs.same.trans hsame, fun c hc => ?_, fun c hc => ?_, fun c hc k hk => ?_⟩
  · rw [hcaches] at hc
    exact hs.index c hc
  · rw [hcaches] at hc
    rw [hcfg]
    exact (hs.cache c hc).mono fun _ h => h.mono hlog
  · rw [hcaches] at hc
    rw [hcfg]
    exact (hs.settled c hc k hk).mono fun _ h => h.mono hlog

theorem done (hs : Prompt (some k) o i s)
    (hk : ∀ c, s.caches.find? i = some c → c.SettledIn s.cfg (s.ReportedAt i) k) : Prompt none o i s := by
  refine ⟨hs.same, hs.index, hs.cache, fun c hc k' _ => ?_⟩
  by_cases heq : k = k'
  · exact heq ▸ hk c hc
  · exact hs.settled c hc k' fun h => heq (Option.some.inj h)

theorem base (hs : Prompt w o i s) (hlog : s.log ⊆ t.log) : ((s.caches.find? i).getD { index := i }).index = i ∧
    ((s.caches.find? i).getD { index := i }).Attended o.cfg s.cfg (t.ReportedAt i) ∧
    ∀ k, w ≠ some k → ((s.caches.find? i).getD { index := i }).SettledIn s.cfg (t.ReportedAt i) k := by
  cases hc : s.caches.find? i with
  | none => exact ⟨rfl, .empty o.cfg s.cfg _ i, fun k _ => PBFTCache.settledIn_empty s.cfg _ i k⟩
  | some c =>
    exact ⟨hs.index c hc, (hs.cache c hc).mono fun _ h => h.mono hlog,
      fun k hk => (hs.settled c hc k hk).mono fun _ h => h.mono hlog⟩

theorem step (ho : o.cfg.Weighed) (hsame : SameNodes s t) (hview : t.cfg.view = s.cfg.view) (hlog : s.log ⊆ t.log)
    (hstep : ∀ c', t.caches.find? i = some c' → CacheStep E s.cfg s.utcTime l i ((s.caches.find? i).getD { index := i }) c')
    (hreported : ∀ c', t.caches.find? i = some c' → ((s.caches.find? i).getD { index := i }).submitted = false →
      c'.submitted = true → ∃ quorum, Action.reportCommit c' quorum ∈ t.log)
    (hl : l.Timely s.cfg i ((s.caches.find? i).getD { index := i })) (hw : l.tally = none ∨ l.tally = w)
    (hs : Prompt w o i s) : Prompt w o i t := by
  have hpos : 0 < s.cfg.minRequiredQuorum := by
    rw [hs.same.required]
    exact ho.positive
  obtain ⟨hindex, hbase, hsettled⟩ := hs.base hlog
  have htold : ∀ c', t.caches.find? i = some c' → ((s.caches.find? i).getD { index := i }).submitted = false →
      c'.submitted = true → ∀ m, c'.prePrepare = some m → t.ReportedAt i m.hash := by
    intro c' hc' hnot hsubmitted m hm
    obtain ⟨quorum, hmem⟩ := hreported c' hc' hnot hsubmitted
    exact ⟨c', quorum, m, hmem, (hstep c' hc').index.trans hindex, hm, rfl⟩
  refine ⟨hs.same.trans hsame, fun c' hc' => (hstep c' hc').index.trans hindex, fun c' hc' => ?_, fun c' hc' k hk => ?_⟩
  · exact ((hstep c' hc').attended hl hs.same.list (htold c' hc') hbase).congr hview.ge
  · have hne : l.tally ≠ some k := by
      rcases hw with hw | hw
      · rw [hw]
        exact nofun
      · rwa [hw]
    exact ((hstep c' hc').settledIn hl ho.total hpos hs.same.list (htold c' hc') hbase (hsettled k hk) hne).congr hview
      hsame.required

theorem prim (ho : o.cfg.Weighed) (h : Prim E l s t)
    (hn : ∀ ls, l = .nodes ls → Config.sortNodes E ls = o.cfg.consensusNodeList)
    (hl : l.Timely s.cfg i ((s.caches.find? i).getD { index := i })) (hw : l.tally = none ∨ l.tally = w)
    (hs : Prompt w o i s) : Prompt w o i t := by
  have hsame : SameNodes s t := by
    by_cases hnodes : ∃ ls, l = .nodes ls
    · obtain ⟨ls, rfl⟩ := hnodes
      exact h.sameNodes_of_meets (B := fun _ _ _ => True) ((hn ls rfl).trans hs.same.list.symm)
    · exact h.sameNodes fun ls heq => hnodes ⟨ls, heq⟩
  by_cases hview : l = .view
  · subst hview
    cases h with
    | @view _ v hv hp =>
      have hle : s.cfg.view ≤ (s.setCfg (s.cfg.resetNewViewState v)).cfg.view := by
        change s.cfg.view ≤ (s.cfg.resetNewViewState v).view
        unfold Config.resetNewViewState
        rwa [if_neg (not_lt.2 hv)]
      refine ⟨hs.same.trans hsame, hs.index, fun c hc => (hs.cache c hc).congr hle, fun c hc k hk => ?_⟩
      rcases hle.eq_or_lt with heq | hlt
      · exact (hs.settled c hc k hk).congr heq.symm hsame.required
      · exact (hs.settled c hc k hk).later (hs.cache c hc) hlt hsame.required
  · exact hs.step ho hsame (h.cfgStep.view_eq hview) (fun _ ha => h.log_mono _ ha) (fun c' hc' => h.cacheStep hc')
      (fun c' hc' => h.submitted_reported hc') hl hw

theorem steps (ho : o.cfg.Weighed) {A : Label → Prop} (h : Steps E A s t)
    (hA : ∀ l, A l → l.tally = none ∧ ∀ ls, l = .nodes ls → Config.sortNodes E ls = o.cfg.consensusNodeList)
    (hs : Prompt w o i s) : Prompt w o i t :=
  Labelled.Steps.preserves (I := Prompt w o i) (fun l _ _ hl hp hu =>
    hu.prim ho hp (hA l hl).2 (.of_tally (hA l hl).1 _ _ _) (Or.inl (hA l hl).1)) h hs

end Prompt

/-- What is precommitted or submitted is of the view in force or of one ahead of it. -/
def Node.Marked (i : Int) (s : Node) : Prop :=
  ∀ c, s.caches.find? i = some c → c.precommitted = true ∨ c.submitted = true →
    ∃ m, c.prePrepare = some m ∧ s.cfg.view ≤ m.view

theorem CacheStep.marked {E : Env} {l : Label} {i now : Int} {cfg : Config} {c c' : PBFTCache}
    (h : CacheStep E cfg now l i c c') (hl : ∀ m, l = .store m → cfg.view ≤ m.view)
    (hc : c.precommitted = true ∨ c.submitted = true → ∃ m, c.prePrepare = some m ∧ cfg.view ≤ m.view)
    (hpre : c'.precommitted = true ∨ c'.submitted = true) : ∃ m, c'.prePrepare = some m ∧ cfg.view ≤ m.view := by
  cases h with
  | same | vote | prepare | commit | checkPoint => exact hc hpre
  | store m => exact ⟨m, rfl, hl m rfl⟩
  | preCommit =>
    rcases c.checkAndPreCommit_cases E cfg now with heq | ⟨m, p, hm, -, -, -, henough, heq⟩
    · rw [heq] at hpre ⊢
      exact hc hpre
    · rw [heq]
      have hview : cfg.view ≤ m.view := by
        obtain ⟨hstatus, -⟩ := Bool.and_eq_true_iff.1 henough
        rw [PBFTCache.checkPrePrepareProposalStatus, hm] at hstatus
        exact (of_decide_eq_true hstatus).ge
      have hentered := PBFTCache.enterPrecommit_prePrepare E cfg now c m p
      rcases (c.enterPrecommit E cfg now m p).checkAndCommit_cases cfg with heq' | ⟨heq', -⟩
      · rw [heq']
        exact ⟨_, hentered, hview⟩
      · rw [heq']
        exact ⟨_, hentered, hview⟩
  | submit =>
    rcases c.checkAndCommit_cases cfg with heq | ⟨heq, -, m, w, hm, hview, -⟩
    · rw [heq] at hpre ⊢
      exact hc hpre
    · rw [heq]
      exact ⟨m, hm, hview.ge⟩
  | reset v => rcases hpre with hpre | hpre <;> cases hpre
  | stable =>
    rcases c.checkAndCommitStableCheckPoint_cases cfg with heq | ⟨p, w, -, -, -, -, heq⟩
    · rw [heq] at hpre ⊢
      exact hc hpre
    · rw [heq] at hpre ⊢
      exact hc hpre
  | reencode =>
    obtain ⟨m, hm, hview⟩ := hc hpre
    refine ⟨_, congrArg (Option.map _) hm, hview⟩
  | setCheckPoint p =>
    unfold PBFTCache.setCheckPointProposal at hpre ⊢
    split_ifs at hpre ⊢ <;> exact hc hpre

namespace Node

variable {E : Env} {i : Int} {s t : Node} {c : PBFTCache}

theorem Marked.prim {l : Label} (hl : l ≠ .view) (h : Prim E l s t) (hs : s.Marked i) : t.Marked i := by
  intro c' hc' hpre
  rw [h.cfgStep.view_eq hl]
  refine (h.cacheStep hc').marked ?_ ?_ hpre
  · rintro m rfl
    cases h with
    | store _ hcheck => exact checkPBFTMsgState_view (Locks.checkPrePrepareMsg_spec hcheck).1
  · cases hc : s.caches.find? i with
    | none => exact fun h => h.elim (fun h => by cases h) (fun h => by cases h)
    | some c => exact hs c hc

/-- Once the loop has been at an index, nothing is precommitted or submitted there. -/
theorem resetCacheAt_fold_unmarked (v : ViewType) (l : List Int)
    (h : i ∈ l ∨ ∀ c, s.caches.find? i = some c → c.precommitted = false ∧ c.submitted = false) (c : PBFTCache)
    (hc : (l.foldl (resetCacheAt v) s).caches.find? i = some c) : c.precommitted = false ∧ c.submitted = false := by
  induction l generalizing s with
  | nil => exact (h.resolve_left List.not_mem_nil) c hc
  | cons j l ih =>
    refine ih ?_ hc
    rw [or_iff_not_imp_left]
    intro hi d hd
    rw [resetCacheAt_find] at hd
    split_ifs at hd with hij
    · obtain ⟨d', -, rfl⟩ := Option.map_eq_some_iff.1 hd
      exact ⟨rfl, rfl⟩
    · exact (h.resolve_left fun hmem => (List.mem_cons.1 hmem).elim hij hi) d hd

theorem Marked.enterView (v w : ViewType) (n : Int) :
    ((s.setCfg (s.cfg.resetNewViewState v)).resetCacheAfterViewChange w n).Marked i := by
  intro c hc hpre
  have hfound : ((s.caches.keys.foldl (resetCacheAt w) (s.setCfg (s.cfg.resetNewViewState v))).caches.find? i) = some c := hc
  have hnot := resetCacheAt_fold_unmarked w s.caches.keys (i := i) ?_ c hfound
  · rw [hnot.1, hnot.2] at hpre
    rcases hpre with hpre | hpre <;> cases hpre
  · obtain ⟨d, hd⟩ := resetCacheAt_fold_keys _ w _ hfound
    exact Or.inl (OrdMap.mem_keys.2 ⟨d, hd⟩)

theorem Marked.turn (h : Turn E s t) (hs : s.Marked i) : t.Marked i := by
  cases h with
  | prim hl hp => exact hs.prim hl hp
  | reach _ view => exact Marked.enterView view _ _
  | recover =>
    unfold checkAndTryToRecover
    dsimp only
    split_ifs
    · exact hs
    · exact Marked.enterView (s := s) _ _ s.cfg.committedIndex

theorem Marked.step {e : Event} (h : BcosPbft.step E s e = some t) (hs : s.Marked i) : t.Marked i := by
  have hturns := step_turns h
  clear h
  induction hturns with
  | refl => exact hs
  | tail _ hturn ih => exact ih.turn hturn

/-- What passes the checks of a pre-prepare is of a later view than the pre-prepare it replaces. -/
theorem checkPrePrepareMsg_later {m p : PBFTMessage} (hcheck : s.checkPrePrepareMsg m = true)
    (hc : s.caches.find? m.index = some c) (hp : c.prePrepare = some p) : p.view < m.view := by
  by_contra hlater
  have hle : m.view ≤ p.view := not_lt.1 hlater
  unfold checkPrePrepareMsg at hcheck
  split_ifs at hcheck with hstate hexist hconflict hlocked
  unfold existPrePrepare at hexist
  unfold conflictWithProcessedReq at hconflict
  rw [hc, Option.any_some] at hexist hconflict
  simp only [PBFTCache.existPrePrepare, hp, Bool.and_eq_true, decide_eq_true_eq, not_and, ge_iff_le, not_le] at hexist
  unfold PBFTCache.conflictWithProcessedReq at hconflict
  simp only [hp] at hconflict
  split_ifs at hconflict with hold hlt heq
  · exact absurd hconflict (by simp)
  · exact absurd hconflict (by simp)
  · exact absurd (hexist (by simpa using hconflict)) (not_lt.2 hle)
  · exact heq (le_antisymm hle (not_lt.1 hlt))

theorem Marked.store (hs : s.Marked i) {m : PBFTMessage} (hcheck : s.checkPrePrepareMsg m = true) (hindex : m.index = i)
    (hview : m.view ≤ s.cfg.view) : ((s.caches.find? i).getD { index := i }).precommitted = false ∧
      ((s.caches.find? i).getD { index := i }).submitted = false := by
  subst hindex
  cases hc : s.caches.find? m.index with
  | none => exact ⟨rfl, rfl⟩
  | some c =>
    rw [Option.getD_some, ← Bool.not_eq_true, ← Bool.not_eq_true, ← not_or]
    intro hpre
    obtain ⟨p, hp, hpview⟩ := hs c hc hpre
    exact absurd (checkPrePrepareMsg_later hcheck hc hp) (not_lt.2 (hview.trans hpview))

end Node

/-- A loop that keeps `P` and `Q`, and makes `Q` out of `P` when it is at the index. -/
theorem foldl_settles {α : Type} {f : α → Int → α} {P Q : α → Prop} (hP : ∀ a j, P a → P (f a j))
    (hQ : ∀ a j, P a → Q a → Q (f a j)) {i : Int} (hdone : ∀ a, P a → Q (f a i)) {l : List Int} {a : α} (ha : P a)
    (hi : i ∈ l ∨ Q a) : Q (l.foldl f a) := by
  induction l generalizing a with
  | nil => exact hi.resolve_left List.not_mem_nil
  | cons j l ih =>
    refine ih (hP a j ha) ?_
    rcases hi with hmem | hsettled
    · rcases List.mem_cons.1 hmem with rfl | hmem
      · exact Or.inr (hdone a ha)
      · exact Or.inl hmem
    · exact Or.inr (hQ a j ha hsettled)

namespace Node

variable {E : Env} {i : Int} {s : Node} {c : PBFTCache}

theorem checkAndCommitAt_report_steps {A : Label → Prop} (hA : Open A) (haim : A .aim) (s : Node) (j : Int) :
    Steps E A (s.commitAt j).1 (s.checkAndCommitAt j) := by
  unfold checkAndCommitAt
  dsimp only
  split
  · exact .refl _
  · rename_i p hp
    have hqueue : Steps E A (s.commitAt j).1 ((s.commitAt j).1.updateCommitQueue p) :=
      updateCommitQueue_steps _ hA (hA (.push .committed p) rfl) fun _ => commitAt_pushes hp
    exact hqueue.trans (.single haim (.aim _ _ _))

theorem checkStableAt_find {acc : Node × List PBFTProposal} (hc : (checkStableAt acc i).1.caches.find? i = some c) :
    ∃ d, acc.1.caches.find? i = some d ∧ c = (d.checkAndCommitStableCheckPoint acc.1.cfg).1 := by
  unfold checkStableAt at hc
  split at hc
  · rename_i hnone
    rw [hnone] at hc
    cases hc
  · rename_i d hd
    change (acc.1.caches.insert i _).find? i = some c at hc
    rw [OrdMap.find?_insert_self] at hc
    exact ⟨d, hd, (Option.some.inj hc).symm⟩

end Node

def Label.voteless : Label → Bool
  | .store _ | .vote _ | .prepare _ | .commit _ | .checkPoint _ _ | .setCheckPoint _ | .nodes _ => false
  | _ => true

theorem Label.voteless_wide : Wide (fun l => l.voteless = true) := by
  intro l hl
  cases l <;> first | rfl | cases hl

theorem Label.tally_of_voteless {l : Label} (h : l.voteless = true) : l.tally = none ∧ ∀ ls, l ≠ .nodes ls := by
  cases l with
  | store | vote | prepare | commit | checkPoint | setCheckPoint | nodes => cases h
  | _ => exact ⟨rfl, fun _ => Label.noConfusion⟩

namespace Prompt

variable {E : Env} {i : Int} {o s t : Node} {w : Option PBFTCache.TallyKind} {k : PBFTCache.TallyKind} {α : Type}

theorem foldl_keys {f : α → Int → α} {p : α → Node} (hkeep : ∀ w a j, Prompt w o i (p a) → Prompt w o i (p (f a j)))
    (hdone : ∀ a, Prompt (some k) o i (p a) → Prompt none o i (p (f a i))) {a : α} (ha : Prompt (some k) o i (p a)) :
    Prompt none o i (p ((p a).caches.keys.foldl f a)) := by
  refine foldl_settles (P := fun a => Prompt (some k) o i (p a)) (Q := fun a => Prompt none o i (p a)) (hkeep (some k))
    (fun a j _ hu => hkeep none a j hu) hdone ha ?_
  rw [or_iff_not_imp_left]
  exact fun hi => ha.done fun c hc => absurd (OrdMap.mem_keys.2 ⟨c, hc⟩) hi

theorem steps_voteless (ho : o.cfg.Weighed) (h : Steps E (fun l => l.voteless = true) s t) (hs : Prompt w o i s) :
    Prompt w o i t :=
  hs.steps ho h fun _ hl => ⟨(Label.tally_of_voteless hl).1, fun ls heq => absurd heq ((Label.tally_of_voteless hl).2 ls)⟩

theorem prim_voteless {l : Label} (ho : o.cfg.Weighed) (h : Prim E l s t) (hl : l.voteless = true) (hs : Prompt w o i s) :
    Prompt w o i t := hs.steps_voteless ho (.single hl h)

theorem checkAndPreCommit (E : Env) (ho : o.cfg.Weighed) (hs : Prompt (some .prepare) o i s) :
    Prompt none o i (s.checkAndPreCommit E) := by
  have hopen := Label.voteless_wide.isOpen
  refine foldl_keys (p := id) (fun w u j hu => ?_) (fun u hu => ?_) hs
  · exact hu.steps_voteless ho (u.checkAndPreCommitAt_steps (E := E) hopen rfl j)
  · have hkept : Prompt (some .prepare) o i (u.preCommitAt E i).1 := hu.prim_voteless ho (.preCommit u i) rfl
    have hat : Prompt none o i (u.preCommitAt E i).1 := by
      refine hkept.done fun c hc => ?_
      obtain ⟨d, hd, rfl⟩ := Node.preCommitAt_find hc
      rw [Node.preCommitAt_cfg]
      exact PBFTCache.checkAndPreCommit_settled (hu.cache d hd)
    change Prompt none o i (u.checkAndPreCommitAt E i)
    unfold Node.checkAndPreCommitAt
    dsimp only
    split
    · exact hat
    · rename_i p hp
      exact hat.steps_voteless ho (Node.updateCommitQueue_steps (E := E) _ hopen (hopen (.push .committed p) rfl)
        fun _ => Node.preCommitAt_pushes hp)

theorem checkAndCommitAt (E : Env) (ho : o.cfg.Weighed) {j : Int} (hs : Prompt w o i (s.commitAt j).1) :
    Prompt w o i (s.checkAndCommitAt j) :=
  hs.steps_voteless ho (Node.checkAndCommitAt_report_steps (E := E) Label.voteless_wide.isOpen rfl s j)

theorem checkAndCommitLoop (E : Env) (ho : o.cfg.Weighed) (hs : Prompt (some .commit) o i s) :
    Prompt none o i s.checkAndCommitLoop := by
  refine foldl_keys (p := id) (fun w u j hu => ?_) (fun u hu => ?_) hs
  · exact checkAndCommitAt E ho (hu.prim_voteless ho (.submit (E := E) u j) rfl)
  · have hkept : Prompt (some .commit) o i (u.commitAt i).1 := hu.prim_voteless ho (.submit (E := E) u i) rfl
    refine checkAndCommitAt E ho (hkept.done fun c hc => ?_)
    obtain ⟨d, hd, rfl⟩ := Node.commitAt_find hc
    have hlog : u.log ⊆ (u.commitAt i).1.log := fun _ ha => (Prim.submit (E := E) u i).log_mono _ ha
    rw [Node.commitAt_cfg]
    refine PBFTCache.checkAndCommit_settled (fun hs m hm => ((hu.cache d hd).reported hs m hm).mono hlog) fun _ hs m hm => ?_
    exact (hkept.cache _ hc).reported hs m hm

theorem checkAndCommitStableCheckPoint (E : Env) (ho : o.cfg.Weighed) (hs : Prompt (some .checkpoint) o i s) :
    Prompt none o i s.checkAndCommitStableCheckPoint := by
  have hopen := Label.voteless_wide.isOpen
  have hloop : Prompt none o i (s.caches.keys.foldl Node.checkStableAt (s, [])).1 := by
    refine foldl_keys (p := Prod.fst) (a := (s, [])) (fun w acc j hu => ?_) (fun acc hu => ?_) hs
    · exact hu.prim_voteless ho (.stable (E := E) acc.1 acc.2 j) rfl
    · have hkept : Prompt (some .checkpoint) o i (Node.checkStableAt acc i).1 :=
        hu.prim_voteless ho (.stable (E := E) acc.1 acc.2 i) rfl
      refine hkept.done fun c hc => ?_
      obtain ⟨d, -, rfl⟩ := Node.checkStableAt_find hc
      rw [Node.checkStableAt_cfg]
      exact PBFTCache.checkAndCommitStableCheckPoint_settled _ d
  obtain ⟨-, hin⟩ := Node.checkStableAt_fold_steps (E := E) (A := fun l => l.voteless = true) s rfl s.caches.keys []
    (fun p hp => by cases hp)
  exact hloop.steps_voteless ho (Node.updateStableCheckPointQueue_fold_steps (E := E) _ hopen rfl (fun _ => rfl) hin)

end Prompt

namespace Prompt

variable {E : Env} {i : Int} {o s t : Node}

theorem addPrepareCache (E : Env) (ho : o.cfg.Weighed) (m : PBFTMessage) (hs : Prompt (some .prepare) o i s) :
    Prompt (some .prepare) o i (s.addPrepareCache m) := by
  have hlog : (s.addPrepareCache m).log = s.log := List.append_nil s.log
  have hstep : ∀ c', (s.addPrepareCache m).caches.find? i = some c' →
      CacheStep E s.cfg s.utcTime (.prepare m) i ((s.caches.find? i).getD { index := i }) c' :=
    fun _ hc => cacheStep_of_insert (j := m.index) rfl (.prepare m _) hc
  refine step (E := E) (l := .prepare m) (s := s) ho ⟨rfl, rfl, rfl, rfl, rfl, rfl⟩ rfl (fun _ ha => hlog.symm ▸ ha) hstep
    (fun c' hc' hnot hsubmitted => ?_) (.of_ne fun _ => Label.noConfusion) (Or.inr rfl) hs
  have hbefore := (hstep c' hc').submitted Label.noConfusion Label.noConfusion hsubmitted
  exact absurd (hnot.symm.trans hbefore) Bool.false_ne_true

/-- A verified pre-prepare is followed by the checks that its prepare votes ask for. -/
theorem handlePrePrepareMsg (ho : o.cfg.Weighed) {m : PBFTMessage} {newView : Bool} (hm : m.index = i → m.view ≤ s.cfg.view)
    (hmarked : s.Marked i) (hs : Prompt none o i s) : Prompt none o i (s.handlePrePrepareMsg E m false newView false).1 := by
  by_cases haccepts : s.accepts m newView = true
  · rw [Node.handlePrePrepareMsg_accepted haccepts]
    have hcheck : s.checkPrePrepareMsg m = true := by
      unfold Node.accepts at haccepts
      exact (Bool.and_eq_true_iff.1 (Bool.and_eq_true_iff.1 haccepts).1).2
    have hquiet := Node.asyncResetTxsFlag_quiet (E := E) s (m.consensusProposal.getD {}).data true
    have hcfg := Node.asyncResetTxsFlag_cfg (E := E) s (m.consensusProposal.getD {}).data true
    have hcaches := Node.asyncResetTxsFlag_caches (E := E) s (m.consensusProposal.getD {}).data true
    generalize s.asyncResetTxsFlag E (m.consensusProposal.getD {}).data true = v at hquiet hcfg hcaches ⊢
    have hkept : Prompt none o i v := hs.prim_voteless (E := E) ho (.quiet hquiet) rfl
    have hcheck' : v.checkPrePrepareMsg m = true := (Node.checkPrePrepareMsg_congr hcfg hcaches m).trans hcheck
    have hmarked' : v.Marked i := hmarked.prim (E := E) Label.noConfusion (.quiet hquiet)
    have hview : m.index = i → m.view ≤ v.cfg.view := by rwa [hcfg]
    have htimely : (Label.store m).Timely v.cfg i ((v.caches.find? i).getD { index := i }) := by
      refine ⟨fun m' heq hindex => ?_, fun m' heq hindex => ?_, fun m' heq hindex q hq => ?_⟩ <;>
        obtain rfl := Label.store.inj heq
      · exact ⟨hview hindex, Node.isSome_of_checkPrePrepareMsg hcheck'⟩
      · exact hmarked'.store hcheck' hindex (hview hindex)
      · subst hindex
        cases hc : v.caches.find? m.index with
        | none =>
          rw [hc] at hq
          cases hq
        | some c =>
          rw [hc, Option.getD_some] at hq
          exact Node.checkPrePrepareMsg_later hcheck' hc hq
    have hstored : Prompt (some .prepare) o i (v.addCache m fun c => c.addPrePrepareCache m) :=
      (hkept.mono _).prim ho (Prim.store (E := E) v hcheck') (fun _ => Label.noConfusion) htimely (Or.inr rfl)
    have hmax := Node.notifyMaxProposalIndex_quiet (v.addCache m fun c => c.addPrePrepareCache m) m.index
    have hadded : Prompt (some .prepare) o i (v.addPrePrepareCache m) := hstored.prim_voteless ho (.quiet (E := E) hmax) rfl
    have hvoted := hadded.prim ho (Prim.vote (E := E) _ (Node.addPrePrepareCache_stored v m)) (fun _ => Label.noConfusion)
      (.of_ne fun _ => Label.noConfusion) (Or.inr rfl)
    exact ((hvoted.checkAndPreCommit E ho).mono _).checkAndPreCommit E ho
  · rw [Node.handlePrePrepareMsg_declined (by simpa using haccepts)]
    exact hs

theorem handlePrepareMsg (ho : o.cfg.Weighed) (m : PBFTMessage) (hs : Prompt none o i s) :
    Prompt none o i (s.handlePrepareMsg E m).1 := by
  unfold Node.handlePrepareMsg
  split_ifs
  · exact hs
  · exact hs
  · exact ((hs.mono _).addPrepareCache E ho m).checkAndPreCommit E ho

theorem handleCommitMsg (ho : o.cfg.Weighed) {m : PBFTMessage} {ret : Bool} (h : s.handleCommitMsg E m = some (t, ret))
    (hs : Prompt none o i s) : Prompt none o i t := by
  unfold Node.handleCommitMsg at h
  split_ifs at h with hcheck
  · obtain ⟨rfl, -⟩ := Prod.mk.inj (Option.some.inj h)
    exact hs
  · obtain ⟨u, hu, h⟩ := Option.bind_eq_some_iff.1 h
    obtain ⟨rfl, -⟩ := Prod.mk.inj (Option.some.inj h)
    have hadded : Prompt (some .commit) o i (s.addCommitReq m) :=
      (hs.mono _).prim ho (Prim.commit (E := E) s (by simpa using hcheck)) (fun _ => Label.noConfusion)
        (.of_ne fun _ => Label.noConfusion) (Or.inr rfl)
    exact (hadded.checkAndCommitLoop E ho).steps_voteless ho (Node.resetTimer_steps _ Label.voteless_wide rfl hu)

theorem handleCheckPointMsg (ho : o.cfg.Weighed) (m : PBFTMessage) (hs : Prompt none o i s) :
    Prompt none o i (s.handleCheckPointMsg E m).1 := by
  unfold Node.handleCheckPointMsg
  split_ifs with hlow hsync hsig hproposal
  · exact hs
  · exact hs
  · exact hs
  · exact hs
  have hopen := Label.voteless_wide.isOpen
  have hadded : Prompt (some .checkpoint) o i (s.addCheckPointMsg m) :=
    prim ho (l := .checkPoint false m) (.checkPoint s fun _ => ⟨by simpa using hsig, by simpa using hproposal⟩)
      (fun _ => Label.noConfusion) (.of_ne fun _ => Label.noConfusion) (Or.inr rfl) (hs.mono _)
  have happly := hadded.steps_voteless ho ((s.addCheckPointMsg m).tryToApplyCommitQueue_steps (E := E) hopen)
  have hrequest := (happly.checkAndCommitStableCheckPoint E ho).steps_voteless ho (E := E)
    ((Node.shouldRequestCheckPoint_quiet _ m).steps hopen)
  dsimp only
  split
  · exact hrequest.congr rfl rfl fun _ => id
  · exact hrequest

theorem recordCheckPoint (E : Env) (ho : o.cfg.Weighed) {r : Applied} {m : PBFTMessage} (hs : Prompt none o i s) :
    Prompt none o i (s.recordCheckPoint r m) := by
  have hvote : Prompt (some .checkpoint) o i (s.addCheckPointMsg m) :=
    prim (E := E) ho (l := .checkPoint true m) (.checkPoint s fun hown => Bool.noConfusion hown)
      (fun _ => Label.noConfusion) (.of_ne fun _ => Label.noConfusion) (Or.inr rfl) (hs.mono _)
  have hset : Prompt (some .checkpoint) o i ((s.addCheckPointMsg m).setCheckPointProposal r.executedProposal) :=
    hvote.prim ho (Prim.setCheckPoint (E := E) _ r.executedProposal) (fun _ => Label.noConfusion)
      (.of_ne fun _ => Label.noConfusion) (Or.inr rfl)
  have hexpect := hset.prim_voteless ho
    (.expect (E := E) _ ((s.addCheckPointMsg m).setCheckPointProposal_available r.executedProposal)) rfl
  have happly := (hexpect.checkAndCommitStableCheckPoint E ho).steps_voteless ho
    (Node.tryToApplyCommitQueue_steps (E := E) _ Label.voteless_wide.isOpen)
  exact happly.prim_voteless ho (.unmark (E := E) _ r.proposal.hash) rfl

theorem onProposalApplied (ho : o.cfg.Weighed) (hs : Prompt none o i s) : Prompt none o i (s.onProposalApplied E) := by
  rcases s.onProposalApplied_cases E with heq | ⟨r, rest, happ, ⟨-, heq⟩ | ⟨hsucc, hann, heq⟩ | ⟨m, -, -, heq⟩⟩
  · rw [heq]
    exact hs
  · rw [heq]
    refine (hs.prim_voteless ho (.settle (E := E) s happ) rfl).steps_voteless ho (E := E) ?_
    exact Node.onProposalApplyFailed_steps _ Label.voteless_wide.isOpen rfl rfl rfl
  · rw [heq]
    exact hs.prim_voteless ho (.announce s happ hsucc hann) rfl
  · rw [heq]
    exact (hs.prim_voteless ho (.settle (E := E) s happ) rfl).recordCheckPoint E ho

end Prompt

/-- The nodes of a new block are those in force, and a pre-prepare of the index comes from the verifier in its own view or a
later one. -/
def Event.Timely (E : Env) (i : Int) (s : Node) : Event → Prop
  | .finalized b | .newBlock b => Config.sortNodes E b.consensusNodeList = s.cfg.consensusNodeList
  | .proposalVerified n (.result true) => ∀ x ∈ s.verifying[n]?, x.1.index = i → x.1.view ≤ s.cfg.view
  | _ => True

instance (E : Env) (i : Int) (s : Node) : (e : Event) → Decidable (e.Timely E i s)
  | .finalized b | .newBlock b =>
    inferInstanceAs (Decidable (Config.sortNodes E b.consensusNodeList = s.cfg.consensusNodeList))
  | .proposalVerified n (.result true) =>
    inferInstanceAs (Decidable (∀ x ∈ s.verifying[n]?, x.1.index = i → x.1.view ≤ s.cfg.view))
  | .proposalVerified _ .timeout | .proposalVerified _ .error | .proposalVerified _ (.result false)
  | .receive .. | .gate | .worker | .timeout | .checkPointTimeout .. | .submitProposal .. | .proposalSubmitted _
  | .proposalLoaded .. | .lowMark _ | .executed .. | .proposalApplied | .notifyNewBlock _ | .precommitResponse ..
  | .committedResponse .. | .sealerReset .. | .sealerAnswers _ | .resetTxsFinished _ | .syncingNumber _ | .connected _
  | .clock _ => inferInstanceAs (Decidable True)

section

variable {E : Env} {i : Int} {o s t : Node}

/-- The blocks on their way from the sealer are of no later view than the node. -/
def Node.Stamped (s : Node) : Prop := ∀ b ∈ s.submitting, b.view ≤ s.cfg.view

theorem Prim.stamped {l : Label} (h : Prim E l s t) (hs : s.Stamped) : t.Stamped := by
  intro b hb
  refine le_trans ?_ h.cfgStep.view_le
  rcases h.intake.submitting b hb with hb | rfl
  · exact hs b hb
  · cases h
    rename_i hview hnode
    exact hview.le

theorem Event.Timely.stores {e : Event} (he : e.Timely E i s) (hs : s.Stamped) {m : PBFTMessage}
    (hm : e.stores s = some m) (hindex : m.index = i) : m.view ≤ s.cfg.view := by
  unfold Event.stores at hm
  split at hm
  · obtain ⟨x, hx, rfl⟩ := Option.map_eq_some_iff.1 hm
    exact he x hx hindex
  · obtain ⟨b, hb, rfl⟩ := Option.map_eq_some_iff.1 hm
    exact hs b (List.mem_of_getElem? hb)
  · cases hm

/-- An event that brings a verified pre-prepare gives it to the handler, or drops it. -/
theorem step_hands_over {e : Event} (h : step E s e = some t) {m : PBFTMessage} (hm : e.stores s = some m) :
    Steps E (fun l => l.moving = true) s t ∨ ∃ u newView, Steps E (fun l => l.moving = true) s u ∧ u.cfg = s.cfg ∧
      u.caches = s.caches ∧ Steps E (fun l => l.moving = true) (u.handlePrePrepareMsg E m false newView false).1 t := by
  have hopen : Open fun l => l.moving = true := Moving.isOpen fun _ => id
  cases e with
  | proposalVerified n outcome =>
    obtain rfl : outcome = .result true := by
      by_contra hne
      cases outcome with
      | timeout | error => cases hm
      | result ok =>
        cases ok with
        | false => cases hm
        | true => exact hne rfl
    obtain ⟨x, hx, rfl⟩ := Option.map_eq_some_iff.1 hm
    simp only [step, answer, hx] at h
    obtain rfl := Option.some.inj h
    have htaken : Steps E (fun l => l.moving = true) s { s with verifying := s.verifying.eraseIdx n } :=
      .single rfl (.answer s (fun c hc => List.eraseIdx_subset hc) (fun _ => id) (fun _ => id) (fun _ => id) fun _ => id)
    unfold Node.onProposalVerified
    split
    · exact Or.inl htaken
    · exact Or.inr ⟨_, x.2, htaken.trans ((Node.asyncResetTxsFlag_quiet (E := E) _ _ true).steps hopen),
        Node.asyncResetTxsFlag_cfg _ _ true, Node.asyncResetTxsFlag_caches _ _ true, .refl _⟩
  | proposalSubmitted n =>
    obtain ⟨b, hb, rfl⟩ := Option.map_eq_some_iff.1 hm
    simp only [step, answer, hb] at h
    obtain rfl := Option.some.inj h
    have htaken : Steps E (fun l => l.moving = true) s { s with submitting := s.submitting.eraseIdx n } :=
      .single rfl (.answer s (fun _ => id) (fun _ => id) (fun _ => id) (fun c hc => List.eraseIdx_subset hc) fun _ => id)
    refine Or.inr ⟨_, false, htaken, rfl, rfl, ?_⟩
    unfold Node.submitPrePrepare
    dsimp only
    split
    · exact Node.broadcastPrePrepare_steps _ hopen rfl rfl _
    · exact (Node.resetSealedTxs_quiet _ _).steps hopen
  | _ => cases hm

theorem Label.voteless_of_moving {l : Label} (h : l.moving = true) : l.voteless = true := by
  cases l <;> first | rfl | cases h

theorem step_prompt_stores (ho : o.cfg.Weighed) {e : Event} (he : e.Timely E i s) (h : step E s e = some t)
    {m : PBFTMessage} (hm : e.stores s = some m) (hmarked : s.Marked i) (hstamped : s.Stamped) (hs : Prompt none o i s) :
    Prompt none o i t := by
  have hmoves : ∀ {u v : Node}, Steps E (fun l => l.moving = true) u v → Prompt none o i u → Prompt none o i v :=
    fun hsteps hu => hu.steps_voteless ho (hsteps.mono fun _ => Label.voteless_of_moving)
  rcases step_hands_over h hm with hsteps | ⟨u, newView, hhead, hcfg, hcaches, htail⟩
  · exact hmoves hsteps hs
  · refine hmoves htail (Prompt.handlePrePrepareMsg ho ?_ (fun c hc => ?_) (hmoves hhead hs))
    · rw [hcfg]
      exact he.stores hstamped hm
    · rw [hcaches] at hc
      rw [hcfg]
      exact hmarked c hc

theorem handleAdmitted_prompt (ho : o.cfg.Weighed) {m : PBFTMessage} {rest : List Message}
    (h : s.handleAdmitted E = some t) (hq : s.msgQueue = .pbft m :: rest)
    (htype : m.packetType = .PreparePacket ∨ m.packetType = .CommitPacket ∨ m.packetType = .CheckPoint)
    (hs : Prompt none o i s) : Prompt none o i t := by
  rcases s.handleAdmitted_cases h with rfl | ⟨-, msg, rest', hq', h⟩
  · exact hs
  · obtain ⟨rfl, rfl⟩ := List.cons.inj (hq'.symm.trans hq)
    have hdequeued : Prompt none o i { s with msgQueue := rest', workerStage := .start } := hs.congr rfl rfl fun _ => id
    unfold Node.handleMsg at h
    rcases htype with htype | htype | htype
    · simp only [htype] at h
      obtain rfl := Option.some.inj h
      exact hdequeued.handlePrepareMsg ho m
    · simp only [htype] at h
      obtain ⟨⟨u, ret⟩, hu, rfl⟩ := Option.map_eq_some_iff.1 h
      exact hdequeued.handleCommitMsg ho hu
    · simp only [htype] at h
      obtain rfl := Option.some.inj h
      exact hdequeued.handleCheckPointMsg ho m

/-- Every event leaves no quorum waiting. -/
theorem step_prompt (ho : o.cfg.Weighed) {e : Event} (he : e.Timely E i s) (h : step E s e = some t) (hmarked : s.Marked i)
    (hstamped : s.Stamped) (hs : Prompt none o i s) : Prompt none o i t := by
  by_cases hstores : ∃ m, e.stores s = some m
  · obtain ⟨m, hm⟩ := hstores
    exact step_prompt_stores ho he h hm hmarked hstamped hs
  by_cases hsettle : e = .proposalApplied
  · subst hsettle
    obtain rfl := Option.some.inj h
    exact hs.onProposalApplied ho
  by_cases hvote : ∃ m, e.handles s (.pbft m) ∧
      (m.packetType = .PreparePacket ∨ m.packetType = .CommitPacket ∨ m.packetType = .CheckPoint)
  · obtain ⟨m, ⟨rfl, -, rest, hq⟩, htype⟩ := hvote
    exact handleAdmitted_prompt ho h hq htype hs
  refine hs.steps ho (step_steps h) fun l hl => ?_
  have hsettles : ∀ r, ¬e.settles s r := fun r hr => hsettle hr.1
  cases l with
  | store m => exact absurd ⟨m, hl.1⟩ hstores
  | vote m => exact absurd ⟨m, hl.1⟩ hstores
  | prepare m => exact absurd ⟨m, hl.1, Or.inl hl.2⟩ hvote
  | commit m => exact absurd ⟨m, hl.1, Or.inr (Or.inl hl.2)⟩ hvote
  | checkPoint own m =>
    cases own with
    | false => exact absurd ⟨m, hl.1, Or.inr (Or.inr hl.2)⟩ hvote
    | true =>
      obtain ⟨r, hr, -⟩ := hl
      exact absurd hr (hsettles r)
  | setCheckPoint p =>
    obtain ⟨r, hr, -⟩ := hl
    exact absurd hr (hsettles r)
  | nodes ls =>
    refine ⟨rfl, fun ls' heq => ?_⟩
    obtain rfl := Label.nodes.inj heq
    obtain ⟨b, rfl, rfl | rfl⟩ := hl
    · exact he.trans hs.same.list
    · exact he.trans hs.same.list
  | _ => exact ⟨rfl, fun _ => Label.noConfusion⟩

theorem initNode_empty {keyPair : KeyPair} {b : LedgerConfig} {state : List PBFTProposal} {s₀ : Node}
    (hinit : initNode E keyPair b state = some s₀) : s₀.caches = ∅ := by
  obtain ⟨s, hsteps, hs⟩ := initNode_steps (A := fun l => l.starting = true) rfl rfl rfl rfl (fun _ _ => rfl) hinit
  have hempty : s.caches = ∅ :=
    hsteps.preserves (I := fun u => u.caches = ∅) (fun _ _ _ hl hp hu => (hp.starting hl).1.trans hu) rfl
  rcases hs with rfl | ⟨last, -, rfl⟩
  · exact hempty
  · exact hempty

theorem initNode_stamped {keyPair : KeyPair} {b : LedgerConfig} {state : List PBFTProposal} {s₀ : Node}
    (hinit : initNode E keyPair b state = some s₀) : s₀.Stamped := by
  obtain ⟨s, hsteps, hs⟩ := initNode_steps (A := fun l => l.starting = true) rfl rfl rfl rfl (fun _ _ => rfl) hinit
  have hstamped : s.Stamped :=
    hsteps.preserves (I := Node.Stamped) (fun _ _ _ _ hp hu => hp.stamped hu) fun _ hb => absurd hb List.not_mem_nil
  rcases hs with rfl | ⟨last, -, rfl⟩
  · exact hstamped
  · exact hstamped

/-- On a run in which the nodes stay the same and no pre-prepare of an index comes from the verifier ahead of the view, no
quorum for the index is left waiting: with one of prepare votes the pre-prepare is precommitted, with one of commit votes as
well its commit has been reported, and with one of checkpoint messages the checkpoint is stable. -/
theorem quorum_attended {keyPair : KeyPair} {b : LedgerConfig} {state : List PBFTProposal} {s₀ : Node}
    {trace : List (Node × Event)} (hinit : initNode E keyPair b state = some s₀) (hweights : s₀.cfg.Weighed)
    (hrun : Trail (step E) s₀ trace s) (hok : ∀ x ∈ trace, x.2.Timely E i x.1) {c : PBFTCache}
    (hc : s.caches.find? i = some c) :
    (c.collectEnoughPrepareReq s.cfg = true → c.precommitIsCurrent = true) ∧
      (c.precommitIsCurrent = true → c.collectEnoughCommitReq s.cfg = true →
        ∀ m, c.prePrepare = some m → s.ReportedAt i m.hash) ∧
      (c.collectEnoughCheckpoint s.cfg = true → c.stableCommitted = true) := by
  have hnone : ∀ c, s₀.caches.find? i ≠ some c := by
    rw [initNode_empty hinit]
    exact fun c h => by cases h
  have hstart : s₀.Marked i ∧ s₀.Stamped ∧ Prompt none s₀ i s₀ :=
    ⟨fun c hc => absurd hc (hnone c), initNode_stamped hinit, .refl s₀, fun c hc => absurd hc (hnone c),
      fun c hc => absurd hc (hnone c), fun c hc => absurd hc (hnone c)⟩
  obtain ⟨-, -, hs⟩ := hrun.preserves (I := fun u => u.Marked i ∧ u.Stamped ∧ Prompt none s₀ i u)
    (fun _ _ _ he hstep hu => ⟨hu.1.step hstep,
      (step_steps hstep).preserves (I := Node.Stamped) (fun _ _ _ _ hp hv => hp.stamped hv) hu.2.1,
      step_prompt hweights he hstep hu.1 hu.2.1 hu.2.2⟩) hok hstart
  exact ⟨hs.settled c hc .prepare nofun, hs.settled c hc .commit nofun, hs.settled c hc .checkpoint nofun⟩

end

/-- Two prepare votes come before their pre-prepare, and two checkpoint messages before the block is executed. -/
def toyAwaited : List Event :=
  let executed : PBFTProposal := { proposal := { index := 1, hash := (Toy.checksum ([1, 7] ++ zeroHash.val)).val } }
  let checkPoint := fun b => (PBFTCodec.encode Toy.env (Toy.keyPair b) 0
    (.pbft (populateVote Toy.env (Toy.keyPair b) .CheckPoint 0 0 0 (.ofNat b.toNat) executed))).1
  Toy.atOnce [Group.toyBallot .PreparePacket 0 7, .worker, Group.toyBallot .PreparePacket 2 7, .worker,
    .receive [1] (Toy.prePrepare 1 0 7) [], .worker, .proposalVerified 0 (.result true),
    Group.toyBallot .CommitPacket 0 7, .worker, Group.toyBallot .CommitPacket 2 7, .worker,
    .receive [0] (checkPoint 0) [], .worker, .receive [2] (checkPoint 2) [], .worker,
    .executed 0 false, .proposalApplied, .proposalApplied]

theorem toyAwaited_attended : ∃ trace s c m,
    Trail.states (step Toy.env) (Toy.node 3 [1, 1, 1, 1]) toyAwaited = some (trace, s) ∧ s.caches.find? 1 = some c ∧
      c.precommitIsCurrent = true ∧ c.prePrepare = some m ∧ s.ReportedAt 1 m.hash ∧ c.stableCommitted = true := by
  have hrun : ((Trail.states (step Toy.env) (Toy.node 3 [1, 1, 1, 1]) toyAwaited).elim false fun r =>
      (r.2.caches.find? 1).elim false fun c => c.prePrepare.elim false fun _ => c.collectEnoughPrepareReq r.2.cfg &&
        c.collectEnoughCommitReq r.2.cfg && c.collectEnoughCheckpoint r.2.cfg &&
          r.1.all fun x => decide (x.2.Timely Toy.env 1 x.1)) = true := by
    decide +kernel
  obtain ⟨⟨trace, s⟩, hs, hcheck⟩ := Toy.exists_of_elim hrun
  obtain ⟨c, hc, hcheck⟩ := Toy.exists_of_elim hcheck
  obtain ⟨m, hm, hcheck⟩ := Toy.exists_of_elim hcheck
  simp only [Bool.and_eq_true, decide_eq_true_eq, List.all_eq_true] at hcheck
  obtain ⟨⟨⟨hprepare, hcommit⟩, hcheckPoint⟩, hok⟩ := hcheck
  have hinit : initNode Toy.env (Toy.keyPair 3)
      { blockNumber := 0, hash := zeroHash, consensusNodeList := Toy.nodes [1, 1, 1, 1] } [] =
        some (Toy.node 3 [1, 1, 1, 1]) := by decide +kernel
  have hweights : (Toy.node 3 [1, 1, 1, 1]).cfg.Weighed := ⟨by decide +kernel, by decide +kernel⟩
  obtain ⟨hcurrent, hreported, hstable⟩ := quorum_attended hinit hweights (.of_states hs) hok hc
  exact ⟨trace, s, c, m, hs, hc, hcurrent hprepare, hm, hreported (hcurrent hprepare) hcommit m hm, hstable hcheckPoint⟩

end BcosPbft
