import BcosPbft.Proofs.Held
import BcosPbft.Proofs.Prompt

/-! What a node owes to the proposals of an index: a prepare vote of its own for the pre-prepare of the view in force, a
commit vote of its own for the precommit, and a report once commit votes reach the quorum. After every event it is paid. -/

namespace BcosPbft

def VoteKind.packetType : VoteKind → PacketType
  | .prepare => .PreparePacket
  | .commit => .CommitPacket

def Sent (E : Env) (o : Config) (k : VoteKind) (v : ViewType) (i : Int) (hash : HashType) (log : List Action) : Prop :=
  ∃ now p, p.index = i ∧ p.hash = hash ∧
    sendActions E o.keyPair none (.pbft (populateVote E o.keyPair k.packetType 0 v now o.nodeIndex p)) ⊆ log

def Node.PushedAt (s : Node) (i : Int) (hash : HashType) : Prop := ∃ p, s.Pushes p ∧ p.index = i ∧ p.hash = hash

theorem Sent.mono {E : Env} {o : Config} {k : VoteKind} {v : ViewType} {i : Int} {hash : HashType} {log log' : List Action}
    (h : Sent E o k v i hash log) (hlog : log ⊆ log') : Sent E o k v i hash log' := by
  obtain ⟨now, p, hindex, hhash, hsent⟩ := h
  exact ⟨now, p, hindex, hhash, fun a ha => hlog (hsent ha)⟩

theorem Node.PushedAt.mono {s t : Node} {i : Int} {hash : HashType} (h : s.PushedAt i hash) (hlog : s.log ⊆ t.log) :
    t.PushedAt i hash := by
  obtain ⟨p, ⟨c, quorum, hmem, hp⟩, hindex, hhash⟩ := h
  exact ⟨p, ⟨c, quorum, hlog hmem, hp⟩, hindex, hhash⟩

namespace PBFTCache

/-- The votes of the node itself for the proposals of a cache are filed and `sent`, and what is submitted is `pushed`. -/
structure Dutiful (o : Config) (v : ViewType) (sent : VoteKind → HashType → Prop) (pushed : HashType → Prop)
    (c : PBFTCache) : Prop where
  counts : ∀ k, Counts o (fun _ => True) (c.voteTally k).1 (c.voteTally k).2
  matching : c.Matching
  aged : ∀ m, c.prePrepare = some m → m.view ≤ v
  behind : ∀ p m, c.precommit = some p → c.prePrepare = some m → p.view ≤ m.view
  carried : ∀ p, c.precommit = some p → p.consensusProposal.isSome = true
  prepared : ∀ m, c.prePrepare = some m → m.view = v → sent .prepare m.hash ∧ c.Holds .prepare v m.hash o.nodeIndex
  committed : ∀ p, c.precommit = some p → p.view = v → sent .commit p.hash ∧ c.Holds .commit v p.hash o.nodeIndex
  submitted : c.submitted = true → ∀ m, c.prePrepare = some m → pushed m.hash

/-- A commit quorum for what is precommitted has been reported. -/
def Told (cfg : Config) (pushed : HashType → Prop) (c : PBFTCache) : Prop :=
  c.precommitIsCurrent = true → c.collectEnoughCommitReq cfg = true → ∀ m, c.prePrepare = some m → pushed m.hash

variable {E : Env} {o cfg : Config} {v : ViewType} {sent sent' : VoteKind → HashType → Prop}
  {pushed pushed' : HashType → Prop} {i now : Int} {c c' : PBFTCache}

theorem Dutiful.empty (o : Config) (v : ViewType) (sent : VoteKind → HashType → Prop) (pushed : HashType → Prop) (i : Int) :
    Dutiful o v sent pushed { index := i } where
  counts k := by cases k <;> exact .empty
  matching m hm := by rcases hm with hm | hm <;> cases hm
  aged m hm := by cases hm
  behind p m hp := by cases hp
  carried p hp := by cases hp
  prepared m hm := by cases hm
  committed p hp := by cases hp
  submitted h := by cases h

theorem Told.empty (cfg : Config) (pushed : HashType → Prop) (i : Int) : Told cfg pushed { index := i } :=
  fun h => by cases h

theorem Dutiful.mono (hc : c.Dutiful o v sent pushed) (hsent : ∀ k h, sent k h → sent' k h)
    (hpushed : ∀ h, pushed h → pushed' h) : c.Dutiful o v sent' pushed' where
  counts := hc.counts
  matching := hc.matching
  aged := hc.aged
  behind := hc.behind
  carried := hc.carried
  prepared m hm hview := ⟨hsent _ _ (hc.prepared m hm hview).1, (hc.prepared m hm hview).2⟩
  committed p hp hview := ⟨hsent _ _ (hc.committed p hp hview).1, (hc.committed p hp hview).2⟩
  submitted hs m hm := hpushed _ (hc.submitted hs m hm)

theorem Dutiful.raise {w : ViewType} (hc : c.Dutiful o v sent pushed) (hw : v ≤ w)
    (hfiled : c.FiledAt i) (hsame : v = w → sent' = sent) : c.Dutiful o w sent' pushed := by
  have hpre : ∀ p, c.precommit = some p → p.view ≤ v := by
    intro p hp
    obtain ⟨-, m, hm, -⟩ := hfiled.precommit p hp
    exact (hc.behind p m hp hm).trans (hc.aged m hm)
  rcases hw.eq_or_lt with rfl | hlt
  · rw [hsame rfl]
    exact hc
  · refine ⟨hc.counts, hc.matching, fun m hm => (hc.aged m hm).trans hw, hc.behind, hc.carried, fun m hm hview => ?_,
      fun p hp hview => ?_, hc.submitted⟩
    · exact absurd (hview ▸ hc.aged m hm) (not_le.2 hlt)
    · exact absurd (hview ▸ hpre p hp) (not_le.2 hlt)

theorem Keeps.prePrepare_view (hk : c.Keeps c') {m' : PBFTMessage} (hm : c'.prePrepare = some m') :
    ∃ m, c.prePrepare = some m ∧ m'.view = m.view ∧ m'.hash = m.hash := by
  obtain ⟨m, hm, hb, -⟩ := hk.prePrepare_eq hm
  simp only [PBFTMessage.view, PBFTMessage.hash, hb]
  exact ⟨m, hm, rfl, rfl⟩

theorem Keeps.precommit_view (hk : c.Keeps c') {p' : PBFTMessage} (hp : c'.precommit = some p') :
    ∃ p, c.precommit = some p ∧ p'.view = p.view ∧ p'.hash = p.hash ∧ p'.consensusProposal = p.consensusProposal := by
  obtain ⟨p, hp, hb, hproposal⟩ := hk.precommit_eq hp
  simp only [PBFTMessage.view, PBFTMessage.hash, hb]
  exact ⟨p, hp, rfl, rfl, hproposal⟩

theorem collectEnoughCommitReq_iff : c.collectEnoughCommitReq cfg = true ↔
    ∃ m, c.prePrepare = some m ∧ m.view = cfg.view ∧ collectEnoughQuorum cfg m.hash c.commitReqWeight = true := by
  unfold collectEnoughCommitReq checkPrePrepareProposalStatus
  cases c.prePrepare with
  | none => simp
  | some m => simp

theorem Told.congr {cfg' : Config} (hc : c.Told cfg pushed) (hview : cfg'.view = cfg.view)
    (hrequired : cfg'.minRequiredQuorum = cfg.minRequiredQuorum) : c.Told cfg' pushed := by
  intro hcurrent henough
  simp only [collectEnoughCommitReq, checkPrePrepareProposalStatus, collectEnoughQuorum, hview, hrequired] at henough
  exact hc hcurrent henough

/-- A step that leaves the pre-prepare and the precommit and drops no vote of the view in force. -/
theorem Dutiful.keeps (hc : c.Dutiful o v sent pushed) (hk : c.Keeps c')
    (hcounts : ∀ k, Counts o (fun _ => True) (c'.voteTally k).1 (c'.voteTally k).2)
    (hholds : ∀ k h, c.Holds k v h o.nodeIndex → c'.Holds k v h o.nodeIndex)
    (hsubmitted : c'.submitted = true → c.submitted = true) : c'.Dutiful o v sent pushed := by
  refine ⟨hcounts, ?_, fun m' hm' => ?_, fun p' m' hp' hm' => ?_, fun p' hp' => ?_, fun m' hm' hv => ?_,
    fun p' hp' hv => ?_, fun hs m' hm' => ?_⟩
  · rw [matching_iff]
    exact hk.carries (matching_iff.1 hc.matching)
  · obtain ⟨m, hm, hview, -⟩ := hk.prePrepare_view hm'
    rw [hview]
    exact hc.aged m hm
  · obtain ⟨m, hm, hview, -⟩ := hk.prePrepare_view hm'
    obtain ⟨p, hp, hpview, -⟩ := hk.precommit_view hp'
    rw [hview, hpview]
    exact hc.behind p m hp hm
  · obtain ⟨p, hp, -, -, hproposal⟩ := hk.precommit_view hp'
    rw [hproposal]
    exact hc.carried p hp
  · obtain ⟨m, hm, hview, hhash⟩ := hk.prePrepare_view hm'
    obtain ⟨hsent, hheld⟩ := hc.prepared m hm (hview ▸ hv)
    rw [hhash]
    exact ⟨hsent, hholds _ _ hheld⟩
  · obtain ⟨p, hp, hview, hhash, -⟩ := hk.precommit_view hp'
    obtain ⟨hsent, hheld⟩ := hc.committed p hp (hview ▸ hv)
    rw [hhash]
    exact ⟨hsent, hholds _ _ hheld⟩
  · obtain ⟨m, hm, -, hhash⟩ := hk.prePrepare_view hm'
    rw [hhash]
    exact hc.submitted (hsubmitted hs) m hm

theorem Told.keeps (hc : c.Told cfg pushed) (hk : c.Keeps c')
    (hweight : ∀ h, collectEnoughQuorum cfg h c'.commitReqWeight = true →
      collectEnoughQuorum cfg h c.commitReqWeight = true) : c'.Told cfg pushed := by
  intro hcurrent henough m' hm'
  obtain ⟨m, hm, hview, hhash⟩ := hk.prePrepare_view hm'
  rw [hhash]
  refine hc ?_ ?_ m hm
  · obtain ⟨p', m₁, hp', hm₁, hle⟩ := precommitIsCurrent_iff.1 hcurrent
    obtain ⟨p, hp, hpview, -⟩ := hk.precommit_view hp'
    obtain rfl := Option.some.inj (hm'.symm.trans hm₁)
    exact precommitIsCurrent_iff.2 ⟨p, m, hp, hm, by rwa [← hview, ← hpview]⟩
  · obtain ⟨m₁, hm₁, hcfg, hquorum⟩ := collectEnoughCommitReq_iff.1 henough
    obtain rfl := Option.some.inj (hm'.symm.trans hm₁)
    rw [hview] at hcfg
    rw [hhash] at hquorum
    exact collectEnoughCommitReq_iff.2 ⟨m, hm, hcfg, hweight _ hquorum⟩

theorem Dutiful.support (hc : c.Dutiful o v sent pushed) (hfiled : c.FiledAt i) {m vote : PBFTMessage} (hm : m.Matches)
    (hview : m.view = v) (hlater : ∀ q, c.prePrepare = some q → q.view < m.view) (hnot : c.submitted = false)
    (hlist : cfg.consensusNodeList = o.consensusNodeList) (hpurged : FromView v c.prepareCacheList)
    (hnode : (o.getConsensusNodeByIndex o.nodeIndex).isSome = true) (hsent : sent .prepare m.hash)
    (hindex : vote.index = c.index) (hhash : vote.hash = m.hash) (hvote : vote.view = v)
    (hfrom : vote.generatedFrom = o.nodeIndex) :
    ({ c with prePrepare := some m }.addPrepareCache cfg vote).Dutiful o v sent pushed ∧
      ({ c with prePrepare := some m }.addPrepareCache cfg vote).Told cfg pushed := by
  have hold : ∀ p, c.precommit = some p → p.view < m.view := by
    intro p hp
    obtain ⟨-, q, hq, -⟩ := hfiled.precommit p hp
    exact (hc.behind p q hp hq).trans_lt (hlater q hq)
  have hvoter : (cfg.getConsensusNodeByIndex vote.generatedFrom).isSome = true := by
    rw [hfrom, Config.getConsensusNodeByIndex, hlist]
    exact hnode
  have hfiles : ∃ m', Ballot.filed (addCache cfg { c with prePrepare := some m } c.prepareCacheList c.prepareReqWeight vote).1
      vote.hash vote.generatedFrom = some m' ∧ v ≤ m'.view := addCache_files hindex hvoter hvote.ge hpurged
  refine ⟨⟨fun k => ?_, fun m' hm' => ?_, fun m' hm' => ?_, fun p m' hp hm' => ?_, hc.carried, fun m' hm' hv => ?_,
    fun p hp hv => ?_, fun hs => ?_⟩, fun hcurrent => ?_⟩
  · cases k with
    | prepare => exact (((hc.counts .prepare).congr hlist).addCache _ fun _ => trivial).congr hlist.symm
    | commit => exact hc.counts .commit
  · rcases hm' with hm' | hm'
    · obtain rfl := Option.some.inj hm'
      exact hm
    · exact hc.matching m' (Or.inr hm')
  · obtain rfl := Option.some.inj hm'
    exact hview.le
  · obtain rfl := Option.some.inj hm'
    exact (hold p hp).le
  · obtain rfl := Option.some.inj hm'
    rw [hhash, hfrom] at hfiles
    exact ⟨hsent, hfiles⟩
  · exact absurd (hold p hp) (by rw [hv, hview]; exact lt_irrefl v)
  · change c.submitted = true at hs
    rw [hnot] at hs
    cases hs
  · obtain ⟨p, m', hp, hm', hle⟩ := precommitIsCurrent_iff.1 hcurrent
    obtain rfl := Option.some.inj hm'
    exact absurd (hold p hp) (not_lt.2 hle)

theorem Dutiful.enter (E : Env) (cfg : Config) (now : Int) (hc : c.Dutiful o v sent pushed) {m : PBFTMessage}
    {p : PBFTProposal} (hm : c.prePrepare = some m) (hp : m.consensusProposal = some p) (hindex : m.index = c.index)
    (hview : cfg.view = v) (hown : cfg.nodeIndex = o.nodeIndex) (hlist : cfg.consensusNodeList = o.consensusNodeList)
    (hpurged : FromView v c.commitCacheList) (hnode : (o.getConsensusNodeByIndex o.nodeIndex).isSome = true)
    (hsent : sent .commit m.hash) :
    (c.enterPrecommit E cfg now m p).Dutiful o v sent pushed := by
  obtain ⟨hpi, hph⟩ := hc.matching m (Or.inl hm) p hp
  obtain ⟨hvi, hvh⟩ := commitVote_base E cfg now p
  have hvoter :
      (cfg.getConsensusNodeByIndex (encodedMsg E cfg.keyPair (commitVote E cfg now p)).generatedFrom).isSome = true := by
    rw [Config.getConsensusNodeByIndex, hlist]
    change (o.getConsensusNodeByIndex cfg.nodeIndex).isSome = true
    rwa [hown]
  have hheld : (c.enterPrecommit E cfg now m p).Holds .commit v m.hash o.nodeIndex := by
    rw [← hown, ← hph, ← hvh]
    exact addCache_files (c := c.intoPrecommit E cfg m p) (hvi.trans (hpi.trans hindex)) hvoter hview.ge hpurged
  refine ⟨fun k => ?_, ?_, fun m' hm' => ?_, fun p' m' hp' hm' => ?_, fun p' hp' => ?_, fun m' hm' hv => ?_,
    fun p' hp' _ => ?_, fun hs m' hm' => ?_⟩
  · cases k with
    | prepare => exact (hc.counts .prepare).touch p.hash
    | commit => exact (((hc.counts .commit).congr hlist).addCache _ fun _ => trivial).congr hlist.symm
  · rw [matching_iff]
    exact (matching_iff.1 hc.matching).enterPrecommit hm hp
  · obtain rfl := Option.some.inj hm'
    exact hc.aged m hm
  · obtain rfl := Option.some.inj hm'
    obtain rfl := Option.some.inj hp'
    exact le_refl _
  · obtain rfl := Option.some.inj hp'
    rfl
  · obtain rfl := Option.some.inj hm'
    obtain ⟨hsent, q, hq, hle⟩ := hc.prepared m hm hv
    exact ⟨hsent, q, (filed_touch c.prepareCacheList p.hash m.hash o.nodeIndex).trans hq, hle⟩
  · obtain rfl := Option.some.inj hp'
    exact ⟨hsent, hheld⟩
  · obtain rfl := Option.some.inj hm'
    exact hc.submitted hs m hm

theorem Dutiful.submit (cfg : Config) (hc : c.Dutiful o v sent pushed)
    (hpushed : (c.checkAndCommit cfg).2 = true → ∀ m, c.prePrepare = some m → pushed m.hash) :
    (c.checkAndCommit cfg).1.Dutiful o v sent pushed ∧ (c.checkAndCommit cfg).1.Told cfg pushed := by
  unfold checkAndCommit at hpushed ⊢
  split_ifs at hpushed ⊢ with hsubmitted hnone hnot
  · exact ⟨hc, fun _ _ => hc.submitted hsubmitted⟩
  · refine ⟨hc, fun hcurrent => ?_⟩
    obtain ⟨p, -, hp, -⟩ := precommitIsCurrent_iff.1 hcurrent
    rw [hp] at hnone
    cases hnone
  · refine ⟨hc, fun _ henough => ?_⟩
    rw [henough] at hnot
    cases hnot
  · refine ⟨⟨fun k => ?_, hc.matching, hc.aged, hc.behind, hc.carried, hc.prepared, hc.committed, fun _ => hpushed rfl⟩,
      fun _ _ => hpushed rfl⟩
    cases k with
    | prepare => exact hc.counts .prepare
    | commit => exact hc.counts .commit

theorem Dutiful.reset {w : ViewType} (hc : c.Dutiful o v sent pushed) (hlist : cfg.consensusNodeList = o.consensusNodeList)
    (hw : w ≤ v) : (c.resetCache cfg w).1.Dutiful o v sent pushed := by
  refine hc.keeps (c.resetCache_keeps cfg w) (fun k => ?_) (fun k hash hheld => hheld.purge hw) fun hs => by cases hs
  rw [voteTally_resetCache]
  exact (((hc.counts k).congr hlist).reset w).congr hlist.symm

theorem Told.reset {w : ViewType} (ht : c.Told cfg pushed) (hc : c.Dutiful o v sent pushed)
    (hlist : cfg.consensusNodeList = o.consensusNodeList) (hmax : Config.totalWeight cfg.consensusNodeList < 2 ^ 64)
    (hpos : 0 < cfg.minRequiredQuorum) : (c.resetCache cfg w).1.Told cfg pushed :=
  ht.keeps (c.resetCache_keeps cfg w) fun _ => ((hc.counts .commit).congr hlist).reset_enough hmax hpos

end PBFTCache

def Label.checkless : Label → Bool
  | .store _ | .preCommit | .submit | .reset => false
  | _ => true

section

variable {E : Env} {l : Label} {o cfg : Config} {v : ViewType} {sent : VoteKind → HashType → Prop} {pushed : HashType → Prop}
  {i now : Int} {c c' : PBFTCache}

theorem CacheStep.checkless (h : CacheStep E cfg now l i c c') (hl : l.checkless = true) :
    c.Keeps c' ∧ c'.submitted = c.submitted ∧ ((∀ m, l ≠ .commit m) → c'.commitReqWeight = c.commitReqWeight) := by
  cases h with
  | same => exact ⟨.refl c, rfl, fun _ => rfl⟩
  | store | preCommit | submit | reset => cases hl
  | vote | prepare | checkPoint => exact ⟨⟨rfl, rfl, rfl⟩, rfl, fun _ => rfl⟩
  | commit m => exact ⟨⟨rfl, rfl, rfl⟩, rfl, fun hne => absurd rfl (hne m)⟩
  | stable =>
    refine ⟨c.checkAndCommitStableCheckPoint_keeps cfg, ?_⟩
    rcases c.checkAndCommitStableCheckPoint_cases cfg with heq | ⟨p, w, -, -, -, -, heq⟩
    · rw [heq]
      exact ⟨rfl, fun _ => rfl⟩
    · rw [heq]
      exact ⟨rfl, fun _ => rfl⟩
  | reencode => exact ⟨c.reencode_keeps E cfg.keyPair, rfl, fun _ => rfl⟩
  | setCheckPoint p =>
    refine ⟨c.setCheckPointProposal_keeps cfg p, ?_⟩
    unfold PBFTCache.setCheckPointProposal
    split_ifs <;> exact ⟨rfl, fun _ => rfl⟩

theorem CacheStep.dutiful (h : CacheStep E cfg now l i c c') (hl : l.checkless = true)
    (hlist : cfg.consensusNodeList = o.consensusNodeList) (hc : c.Dutiful o v sent pushed) : c'.Dutiful o v sent pushed := by
  obtain ⟨hk, hsubmitted, -⟩ := h.checkless hl
  refine hc.keeps hk (fun k => h.counts hlist (hc.counts k)) (fun k hash => h.holds ?_) fun hs => hsubmitted ▸ hs
  rintro rfl
  cases hl

theorem CacheStep.told (h : CacheStep E cfg now l i c c') (hl : l.checkless = true) (hcommit : ∀ m, l ≠ .commit m)
    (hc : c.Told cfg pushed) : c'.Told cfg pushed := by
  obtain ⟨hk, -, hweight⟩ := h.checkless hl
  refine hc.keeps hk fun hash henough => ?_
  rwa [hweight hcommit] at henough

end

def Label.Steady (E : Env) (o : Config) (l : Label) : Prop :=
  l ≠ .view ∧ l ≠ .reset ∧ (∀ m, l ≠ .store m) ∧ ∀ ls, l = .nodes ls → Config.sortNodes E ls = o.consensusNodeList

theorem Label.steady_moving {E : Env} {o : Config} : Moving (Label.Steady E o) := by
  intro l hl
  refine ⟨?_, ?_, fun m => ?_, fun ls => ?_⟩ <;> (rintro rfl; cases hl)

structure Duty (E : Env) (o : Node) (i : Int) (s : Node) : Prop where
  same : SameNodes o s
  locks : Locks s
  cache : ∀ c, s.caches.find? i = some c →
    c.Dutiful o.cfg s.cfg.view (fun k hash => Sent E o.cfg k s.cfg.view i hash s.log) (s.PushedAt i)

def Node.Told (i : Int) (s : Node) : Prop := ∀ c, s.caches.find? i = some c → c.Told s.cfg (s.PushedAt i)

/-- Nothing is left to do at the index. -/
structure Paid (E : Env) (o : Node) (i : Int) (s : Node) : Prop where
  duty : Duty E o i s
  told : s.Told i

section

variable {E : Env} {l : Label} {i j : Int} {o s t : Node} {c : PBFTCache}

theorem Node.pushedAt_of_report {cfg : Config} {quorum : UInt64} (hret : (c.checkAndCommit cfg).2 = true)
    (hreport : Action.reportCommit (c.checkAndCommit cfg).1 quorum ∈ s.log) (hfiled : c.FiledAt i) (hmatching : c.Matching)
    (hcarried : ∀ p, c.precommit = some p → p.consensusProposal.isSome = true) (m : PBFTMessage)
    (hm : c.prePrepare = some m) : s.PushedAt i m.hash := by
  rcases c.checkAndCommit_cases cfg with heq | ⟨heq, hpre, -⟩
  · rw [heq] at hret
    cases hret
  · obtain ⟨q, hq⟩ := Option.isSome_iff_exists.1 hpre
    obtain ⟨hindex, m', hm', hhash⟩ := hfiled.precommit q hq
    obtain rfl := Option.some.inj (hm.symm.trans hm')
    obtain ⟨p, hp⟩ := Option.isSome_iff_exists.1 (hcarried q hq)
    obtain ⟨hpi, hph⟩ := hmatching q (Or.inr hq) p hp
    refine ⟨p, ⟨_, quorum, hreport, ?_⟩, hpi.trans hindex, hph.trans hhash.symm⟩
    rw [heq]
    change c.precommit.bind _ = some p
    rw [hq]
    exact hp

namespace Duty

theorem base (hs : Duty E o i s) (hlog : s.log ⊆ t.log) : ((s.caches.find? i).getD { index := i }).Dutiful o.cfg s.cfg.view
    (fun k hash => Sent E o.cfg k s.cfg.view i hash t.log) (t.PushedAt i) := by
  cases hc : s.caches.find? i with
  | none => exact .empty _ _ _ _ i
  | some c => exact (hs.cache c hc).mono (fun _ _ hsent => hsent.mono hlog) fun _ hpushed => hpushed.mono hlog

theorem told_base (hs : s.Told i) (hlog : s.log ⊆ t.log) :
    ((s.caches.find? i).getD { index := i }).Told s.cfg (t.PushedAt i) := by
  cases hc : s.caches.find? i with
  | none => exact .empty _ _ i
  | some c => exact fun hcurrent henough m hm => (hs c hc hcurrent henough m hm).mono hlog

theorem step (h : Prim E l s t) (hsame : SameNodes s t) (hview : t.cfg.view = s.cfg.view) (hs : Duty E o i s)
    (hcache : ∀ c', t.caches.find? i = some c' →
      c'.Dutiful o.cfg s.cfg.view (fun k hash => Sent E o.cfg k s.cfg.view i hash t.log) (t.PushedAt i)) : Duty E o i t := by
  refine ⟨hs.same.trans hsame, h.locks hs.locks, ?_⟩
  rw [hview]
  exact hcache

/-- Entering the precommit phase, the node sends its commit vote. -/
theorem preCommit (E : Env) (hnode : (o.cfg.getConsensusNodeByIndex o.cfg.nodeIndex).isSome = true) (hfresh : s.Fresh)
    (hs : Duty E o i s) (j : Int) :
    Duty E o i (s.preCommitAt E j).1 ∧ (s.Told i → (s.preCommitAt E j).1.Told i) := by
  have hprim : Prim E .preCommit s (s.preCommitAt E j).1 := .preCommit s j
  have hcfg := Node.preCommitAt_cfg E s j
  have hlog : s.log ⊆ (s.preCommitAt E j).1.log := hprim.log_mono
  have hlocks := hprim.locks hs.locks
  suffices hcache : ∀ c', (s.preCommitAt E j).1.caches.find? i = some c' →
      c'.Dutiful o.cfg s.cfg.view (fun k hash => Sent E o.cfg k s.cfg.view i hash (s.preCommitAt E j).1.log)
        ((s.preCommitAt E j).1.PushedAt i) ∧ (s.Told i → c'.Told s.cfg ((s.preCommitAt E j).1.PushedAt i)) by
    refine ⟨hs.step hprim (hprim.sameNodes fun _ => Label.noConfusion) (congrArg _ hcfg) fun c' hc' => (hcache c' hc').1,
      fun htold c' hc' => ?_⟩
    rw [hcfg]
    exact (hcache c' hc').2 htold
  intro c' hc'
  have hbase := hs.base hlog
  by_cases hij : i = j
  · subst hij
    obtain ⟨d, hd, rfl⟩ := Node.preCommitAt_find hc'
    obtain ⟨hemits, hreport⟩ := Node.preCommitAt_emits (E := E) hd
    have hfiled' := hlocks.filed i _ hc'
    rw [hd, Option.getD_some] at hbase
    rcases d.checkAndPreCommit_cases E s.cfg s.utcTime with heq | ⟨m, p, hm, hp, -, -, -, heq⟩
    · rw [heq]
      refine ⟨hbase, fun htold => ?_⟩
      have htold := told_base htold hlog
      rwa [hd, Option.getD_some] at htold
    · rw [heq] at hemits hreport hfiled' ⊢
      have hfiled := hs.locks.filed i d hd
      obtain ⟨hpi, hph⟩ := hbase.matching m (Or.inl hm) p hp
      obtain ⟨hvi, hvh⟩ := populateProposal_proposal p false
      have hsent : Sent E o.cfg .commit s.cfg.view i m.hash (s.preCommitAt E i).1.log := by
        refine ⟨s.utcTime, populateProposal p false, hvi.trans (hpi.trans (hfiled.prePrepare m hm)), hvh.trans hph, ?_⟩
        rw [← hs.same.keyPair, ← hs.same.nodeIndex]
        exact fun a ha => hemits (List.mem_cons_of_mem _ (List.mem_cons_of_mem _ ha))
      have hentered := hbase.enter E s.cfg s.utcTime hm hp
        ((hfiled.prePrepare m hm).trans hfiled.index.symm) rfl hs.same.nodeIndex hs.same.list (hfresh i d hd _ (Or.inr rfl))
        hnode hsent
      have hwhole := hfiled'.keeps (PBFTCache.checkAndCommit_keeps s.cfg _).symm
      obtain ⟨hdone, htold⟩ := hentered.submit s.cfg fun hret =>
        Node.pushedAt_of_report hret (hreport hret) hwhole hentered.matching hentered.carried
      exact ⟨hdone, fun _ => htold⟩
  · rw [Node.preCommitAt_find_ne hij] at hc'
    rw [hc', Option.getD_some] at hbase
    refine ⟨hbase, fun htold => ?_⟩
    have htold := told_base htold hlog
    rwa [hc', Option.getD_some] at htold

theorem submit (hs : Duty E o i s) (j : Int) :
    Duty E o i (s.commitAt j).1 ∧ (s.Told i ∨ i = j → (s.commitAt j).1.Told i) := by
  have hprim : Prim E .submit s (s.commitAt j).1 := .submit s j
  have hcfg := Node.commitAt_cfg s j
  have hlog : s.log ⊆ (s.commitAt j).1.log := hprim.log_mono
  suffices hcache : ∀ c', (s.commitAt j).1.caches.find? i = some c' →
      c'.Dutiful o.cfg s.cfg.view (fun k hash => Sent E o.cfg k s.cfg.view i hash (s.commitAt j).1.log)
        ((s.commitAt j).1.PushedAt i) ∧ (s.Told i ∨ i = j → c'.Told s.cfg ((s.commitAt j).1.PushedAt i)) by
    refine ⟨hs.step hprim (hprim.sameNodes fun _ => Label.noConfusion) (congrArg _ hcfg) fun c' hc' => (hcache c' hc').1,
      fun htold c' hc' => ?_⟩
    rw [hcfg]
    exact (hcache c' hc').2 htold
  intro c' hc'
  have hbase := hs.base hlog
  by_cases hij : i = j
  · subst hij
    obtain ⟨d, hd, rfl⟩ := Node.commitAt_find hc'
    rw [hd, Option.getD_some] at hbase
    obtain ⟨hdone, htold⟩ := hbase.submit s.cfg fun hret =>
      Node.pushedAt_of_report hret (Node.commitAt_emits hd hret) (hs.locks.filed i d hd) hbase.matching hbase.carried
    exact ⟨hdone, fun _ => htold⟩
  · rw [Node.commitAt_find_ne hij] at hc'
    rw [hc', Option.getD_some] at hbase
    refine ⟨hbase, fun htold => ?_⟩
    have htold := told_base (htold.resolve_right hij) hlog
    rwa [hc', Option.getD_some] at htold

theorem prim (h : Prim E l s t) (hl : l.Steady E o.cfg)
    (hnode : (o.cfg.getConsensusNodeByIndex o.cfg.nodeIndex).isSome = true) (hfresh : l.casts = true → s.Fresh) (hs : Duty E o i s) :
    Duty E o i t ∧ ((∀ m, l ≠ .commit m) → s.Told i → t.Told i) := by
  obtain ⟨hview, hreset, hstore, hnodes⟩ := hl
  by_cases hpre : l = .preCommit
  · subst hpre
    cases h with
    | preCommit _ j =>
      obtain ⟨ht, htold⟩ := hs.preCommit E hnode (hfresh rfl) j
      exact ⟨ht, fun _ => htold⟩
  by_cases hsubmit : l = .submit
  · subst hsubmit
    cases h with
    | submit _ j =>
      obtain ⟨ht, htold⟩ := hs.submit j
      exact ⟨ht, fun _ hs => htold (Or.inl hs)⟩
  have hplain : l.checkless = true := by
    cases l with
    | store m => exact absurd rfl (hstore m)
    | preCommit | submit | reset => contradiction
    | _ => rfl
  have hsame : SameNodes s t := by
    by_cases hlist : ∃ ls, l = .nodes ls
    · obtain ⟨ls, rfl⟩ := hlist
      exact h.sameNodes_of_meets (B := fun _ _ _ => True) ((hnodes ls rfl).trans hs.same.list.symm)
    · exact h.sameNodes fun ls heq => hlist ⟨ls, heq⟩
  have hlog : s.log ⊆ t.log := h.log_mono
  have hcfgView := h.cfgStep.view_eq hview
  refine ⟨hs.step h hsame hcfgView fun c' hc' => (h.cacheStep hc').dutiful hplain hs.same.list (hs.base hlog),
    fun hcommit htold c' hc' => ?_⟩
  exact ((h.cacheStep hc').told hplain hcommit (told_base htold hlog)).congr hcfgView hsame.required

theorem raise {v : ViewType} (hv : s.cfg.view ≤ v) (hs : Duty E o i s) :
    Duty E o i (s.setCfg (s.cfg.resetNewViewState v)) ∧ (s.Told i → (s.setCfg (s.cfg.resetNewViewState v)).Told i) := by
  have heq : s.cfg.resetNewViewState v =
      { s.cfg with startRecovered := true, timeoutState := false, view := v, toView := v } := if_neg (not_lt.2 hv)
  rw [heq]
  refine ⟨⟨hs.same.trans ⟨rfl, rfl, rfl, rfl, rfl, rfl⟩, ?_, fun c hc => ?_⟩, fun htold c hc => ?_⟩
  · exact hs.locks.kept ⟨fun j c hc => by rw [show s.caches.find? j = some c from hc]; exact .refl c, fun _ c hc => ⟨c, hc⟩,
      [], (List.append_nil _).symm, by simp⟩ ⟨hs.locks.grounded.congr rfl rfl rfl rfl, hs.locks.marks⟩
  · refine (hs.cache c hc).raise hv (hs.locks.filed i c hc) fun hsame => ?_
    rw [hsame]
    rfl
  · rcases hv.eq_or_lt with hview | hview
    · exact (htold c hc).congr hview.symm rfl
    · intro hcurrent henough
      obtain ⟨m, hm, hmv, -⟩ := PBFTCache.collectEnoughCommitReq_iff.1 henough
      have hage := (hs.cache c hc).aged m hm
      rw [hmv] at hage
      exact absurd hage (not_le.2 hview)

theorem purge (ho : o.cfg.Weighed) {v : ViewType} (j : Int) (hv : v ≤ s.cfg.view) (hs : Duty E o i s) :
    Duty E o i (Node.resetCacheAt v s j) ∧ (s.Told i → (Node.resetCacheAt v s j).Told i) := by
  have hprim : Prim E .reset s (Node.resetCacheAt v s j) := .reset s v j
  have hcfg := Node.resetCacheAt_cfg v s j
  have hlog : s.log ⊆ (Node.resetCacheAt v s j).log := hprim.log_mono
  have hpos : 0 < s.cfg.minRequiredQuorum := by
    rw [hs.same.required]
    exact ho.positive
  have hmax : Config.totalWeight s.cfg.consensusNodeList < 2 ^ 64 := by
    rw [hs.same.list]
    exact ho.total
  suffices hcache : ∀ c', (Node.resetCacheAt v s j).caches.find? i = some c' →
      c'.Dutiful o.cfg s.cfg.view (fun k hash => Sent E o.cfg k s.cfg.view i hash (Node.resetCacheAt v s j).log)
        ((Node.resetCacheAt v s j).PushedAt i) ∧ (s.Told i → c'.Told s.cfg ((Node.resetCacheAt v s j).PushedAt i)) by
    refine ⟨hs.step hprim (hprim.sameNodes fun _ => Label.noConfusion) (congrArg _ hcfg) fun c' hc' => (hcache c' hc').1,
      fun htold c' hc' => ?_⟩
    rw [hcfg]
    exact (hcache c' hc').2 htold
  intro c' hc'
  have hbase := hs.base hlog
  have htold : s.Told i → _ := fun htold => told_base htold hlog
  rw [Node.resetCacheAt_find] at hc'
  split_ifs at hc' with hij
  · subst hij
    obtain ⟨c, hc, rfl⟩ := Option.map_eq_some_iff.1 hc'
    rw [hc, Option.getD_some] at hbase htold
    exact ⟨hbase.reset hs.same.list hv, fun h => (htold h).reset hbase hs.same.list hmax hpos⟩
  · rw [hc', Option.getD_some] at hbase htold
    exact ⟨hbase, htold⟩

theorem turning (ho : o.cfg.Weighed) (hnode : (o.cfg.getConsensusNodeByIndex o.cfg.nodeIndex).isSome = true) :
    Turning E (Label.Steady E o.cfg) (Duty E o i) where
  moving := Label.steady_moving
  prim hl h hfresh hs := (hs.prim h hl hnode hfresh).1
  raise hv hs := (hs.raise hv).1
  purge j hv hs := (hs.purge ho j hv).1

end Duty

namespace Paid

theorem turning (ho : o.cfg.Weighed) (hnode : (o.cfg.getConsensusNodeByIndex o.cfg.nodeIndex).isSome = true) :
    Turning E (fun l => l.Steady E o.cfg ∧ ∀ m, l ≠ .commit m) (Paid E o i) where
  moving l hl := ⟨Label.steady_moving l hl, by rintro m rfl; cases hl⟩
  prim hl h hfresh hs :=
    have ht := hs.duty.prim h hl.1 hnode hfresh
    ⟨ht.1, ht.2 hl.2 hs.told⟩
  raise hv hs :=
    have ht := hs.duty.raise hv
    ⟨ht.1, ht.2 hs.told⟩
  purge j hv hs :=
    have ht := hs.duty.purge ho j hv
    ⟨ht.1, ht.2 hs.told⟩

theorem support_cache {c : PBFTCache} {m : PBFTMessage} {v : ViewType} {sent : VoteKind → HashType → Prop}
    {pushed : HashType → Prop} {cfg : Config} {now : Int} (hc : c.Dutiful o.cfg v sent pushed) (ht : c.Told cfg pushed)
    (hfiled : c.FiledAt m.index) (hm : m.Matches) (hview : cfg.view = v) (hmv : m.view = v)
    (hlater : ∀ q, c.prePrepare = some q → q.view < m.view) (hnot : c.submitted = false)
    (hlist : cfg.consensusNodeList = o.cfg.consensusNodeList) (hown : cfg.nodeIndex = o.cfg.nodeIndex)
    (hproposal : m.consensusProposal.isSome = true) (hpurged : c.Purged v)
    (hnode : (o.cfg.getConsensusNodeByIndex o.cfg.nodeIndex).isSome = true) (hsent : sent .prepare m.hash) :
    ((c.addPrePrepareCache m).1.addPrepareCache cfg (prepareVoteOf E cfg now m)).Dutiful o.cfg v sent pushed ∧
      ((c.addPrePrepareCache m).1.addPrepareCache cfg (prepareVoteOf E cfg now m)).Told cfg pushed := by
  obtain ⟨p, hp⟩ := Option.isSome_iff_exists.1 hproposal
  unfold PBFTCache.addPrePrepareCache
  split_ifs with haccepts
  · refine hc.support hfiled hm hmv hlater hnot hlist (hpurged _ (Or.inl rfl)) hnode hsent ?_ ?_ ?_ ?_
    · exact hfiled.index.symm
    · change toHash (m.consensusProposal.getD {}).hash.val = m.hash
      rw [hp, Option.getD_some, toHash_val]
      exact (hm p hp).2
    · exact hview
    · exact hown
  · have hvote : CacheStep E cfg now (.vote m) m.index c (c.addPrepareCache cfg (prepareVoteOf E cfg now m)) := .vote m c
    exact ⟨hvote.dutiful rfl hlist hc, hvote.told rfl (fun _ => Label.noConfusion) ht⟩

theorem sent_prepare {m : PBFTMessage} (hm : m.Matches) (hproposal : m.consensusProposal.isSome = true) (s : Node) :
    ∃ now p, p.index = m.index ∧ p.hash = m.hash ∧
      sendActions E s.cfg.keyPair none
        (.pbft (populateVote E s.cfg.keyPair .PreparePacket 0 s.cfg.view now s.cfg.nodeIndex p)) ⊆ voteActions E s m := by
  obtain ⟨p, hp⟩ := Option.isSome_iff_exists.1 hproposal
  obtain ⟨hpi, hph⟩ := hm p hp
  have hvote : s.prepareVote E m =
      populateVote E s.cfg.keyPair .PreparePacket 0 s.cfg.view s.utcTime s.cfg.nodeIndex p := by
    unfold Node.prepareVote
    rw [hp, Option.getD_some, ← hpi]
    rfl
  refine ⟨s.utcTime, p, hpi, hph, fun a ha => ?_⟩
  rw [← hvote] at ha
  exact List.mem_cons_of_mem _ ha

/-- The node after it has stored a pre-prepare of its view and sent its prepare vote. -/
theorem support (hnode : (o.cfg.getConsensusNodeByIndex o.cfg.nodeIndex).isSome = true) {m : PBFTMessage}
    (hcheck : s.checkPrePrepareMsg m = true) (hm : m.index = i → m.view ≤ s.cfg.view ∧ m.Matches) (hmarked : s.Marked i)
    (hfresh : s.Fresh) (hs : Paid E o i s) {b t : Node} (hb : b = s.addPrePrepareCache m)
    (ht : t = (b.addPrepareCache (prepareVoteOf E b.cfg b.utcTime m)).emit (voteActions E b m)) : t.Fresh ∧ Paid E o i t := by
  have hopen : Open fun l => ∀ ls, l ≠ .nodes ls := fun l hl ls heq => by
    subst heq
    cases hl
  have hstores : Steps E (fun l => ∀ ls, l ≠ .nodes ls) s b := by
    rw [hb]
    exact Node.addPrePrepareCache_steps s hopen (fun _ => Label.noConfusion) hcheck
  have hvote : Prim E (.vote m) b t := by
    rw [ht, hb]
    exact .vote _ (s.addPrePrepareCache_stored m)
  have hcfg : b.cfg = s.cfg := by
    rw [hb]
    exact Node.supporting_cfg E s m
  have hcaches : b.caches =
      s.caches.insert m.index (((s.caches.find? m.index).getD { index := m.index }).addPrePrepareCache m).1 := by
    rw [hb]
    exact congrArg Core.caches (Node.notifyMaxProposalIndex_quiet _ _).core
  have hlog : s.log ⊆ t.log := fun a ha => hvote.log_mono a ((Node.log_prefix_steps hstores).subset ha)
  have hsame : SameNodes o t :=
    (hs.duty.same.trans (hstores.sameNodes fun ls h => h ls rfl)).trans (hvote.sameNodes fun _ => Label.noConfusion)
  have hsent : voteActions E b m ⊆ t.log := by
    rw [ht]
    exact List.subset_append_right _ _
  have hfind : t.caches.find? i = if i = m.index then
      some ((((s.caches.find? i).getD { index := i }).addPrePrepareCache m).1.addPrepareCache s.cfg
        (prepareVoteOf E s.cfg b.utcTime m)) else s.caches.find? i := by
    rw [ht]
    change (b.caches.insert m.index (((b.caches.find? m.index).getD { index := m.index }).addPrepareCache b.cfg
      (prepareVoteOf E b.cfg b.utcTime m))).find? i = _
    rw [OrdMap.find?_insert, hcaches, hcfg, OrdMap.find?_insert_self, Option.getD_some]
    split_ifs with hi
    · rw [hi]
    · rw [OrdMap.find?_insert_ne _ _ hi]
  have hview : t.cfg = s.cfg := by
    rw [ht]
    exact hcfg
  refine ⟨hvote.fresh (hfresh.steps hstores), ?_⟩
  suffices hcache : ∀ c', t.caches.find? i = some c' →
      c'.Dutiful o.cfg s.cfg.view (fun k hash => Sent E o.cfg k s.cfg.view i hash t.log) (t.PushedAt i) ∧
        c'.Told s.cfg (t.PushedAt i) by
    refine ⟨⟨hsame, hvote.locks (hs.duty.locks.steps hstores), ?_⟩, ?_⟩
    · rw [hview]
      exact fun c' hc' => (hcache c' hc').1
    · unfold Node.Told
      rw [hview]
      exact fun c' hc' => (hcache c' hc').2
  intro c' hc'
  have hbase := hs.duty.base hlog
  have htold := Duty.told_base hs.told hlog
  rw [hfind] at hc'
  split_ifs at hc' with hi
  · subst hi
    obtain rfl := Option.some.inj hc'
    obtain ⟨hle, hmatches⟩ := hm rfl
    have hmv := le_antisymm hle (Node.checkPBFTMsgState_view (Locks.checkPrePrepareMsg_spec hcheck).1)
    have hproposal := Node.isSome_of_checkPrePrepareMsg hcheck
    obtain ⟨now, p, hpi, hph, hvoted⟩ := sent_prepare (E := E) hmatches hproposal b
    rw [hcfg, hs.duty.same.keyPair, hs.duty.same.nodeIndex] at hvoted
    refine support_cache hbase htold (hs.duty.locks.filed_getD m.index) hmatches rfl hmv (fun q hq => ?_)
      (hmarked.store hcheck rfl hle).2 hs.duty.same.list hs.duty.same.nodeIndex hproposal ?_ hnode
      ⟨now, p, hpi, hph, fun a ha => hsent (hvoted ha)⟩
    · cases hc : s.caches.find? m.index with
      | none =>
        rw [hc] at hq
        cases hq
      | some c =>
        rw [hc] at hq
        exact Node.checkPrePrepareMsg_later hcheck hc hq
    · cases hc : s.caches.find? m.index with
      | none => exact .of_fromView (fun _ _ hl => by cases hl) (fun _ _ hl => by cases hl)
      | some c => exact hfresh m.index c hc
  · rw [hc', Option.getD_some] at hbase htold
    exact ⟨hbase, htold⟩

theorem handlePrePrepareMsg (ho : o.cfg.Weighed) (hnode : (o.cfg.getConsensusNodeByIndex o.cfg.nodeIndex).isSome = true)
    {m : PBFTMessage} {newView : Bool} (hm : m.index = i → m.view ≤ s.cfg.view ∧ m.Matches) (hmarked : s.Marked i)
    (hfresh : s.Fresh) (hs : Paid E o i s) : Paid E o i (s.handlePrePrepareMsg E m false newView false).1 := by
  by_cases haccepts : s.accepts m newView = true
  · rw [Node.handlePrePrepareMsg_accepted haccepts]
    have hcheck : s.checkPrePrepareMsg m = true := by
      unfold Node.accepts at haccepts
      exact (Bool.and_eq_true_iff.1 (Bool.and_eq_true_iff.1 haccepts).1).2
    have hquiet := Node.asyncResetTxsFlag_quiet (E := E) s (m.consensusProposal.getD {}).data true
    have hcfg := Node.asyncResetTxsFlag_cfg (E := E) s (m.consensusProposal.getD {}).data true
    have hcaches := Node.asyncResetTxsFlag_caches (E := E) s (m.consensusProposal.getD {}).data true
    generalize s.asyncResetTxsFlag E (m.consensusProposal.getD {}).data true = v at hquiet hcfg hcaches ⊢
    have hstart : Prim E .quiet s v := .quiet hquiet
    have hI := turning (E := E) (i := i) ho hnode
    have hopen := hI.moving.isOpen
    have hpc : Label.preCommit.Steady E o.cfg ∧ ∀ m, Label.preCommit ≠ .commit m := hI.moving _ rfl
    have hkept : Paid E o i v := hI.prim (hI.moving _ rfl) hstart (fun h => Bool.noConfusion h) hs
    obtain ⟨hvoted, hpaid⟩ := hkept.support (E := E) hnode ((Node.checkPrePrepareMsg_congr hcfg hcaches m).trans hcheck)
      (by rwa [hcfg]) (hmarked.prim Label.noConfusion hstart) (hstart.fresh hfresh) rfl rfl
    have hchecks : ∀ u : Node, u.Fresh → Paid E o i u → Paid E o i ((u.checkAndPreCommit E).checkAndPreCommit E) :=
      fun u hu hpaid => hI.steps ((Node.checkAndPreCommit_steps u hopen hpc).trans
        (Node.checkAndPreCommit_steps _ hopen hpc)) hu hpaid
    exact hchecks _ hvoted hpaid
  · rw [Node.handlePrePrepareMsg_declined (by simpa using haccepts)]
    exact hs

/-- The loop over the commit tallies reports the quorum that is there. -/
theorem checkAndCommitLoop (E : Env) (ho : o.cfg.Weighed)
    (hnode : (o.cfg.getConsensusNodeByIndex o.cfg.nodeIndex).isSome = true) (hfresh : s.Fresh) (hs : Duty E o i s) :
    Paid E o i s.checkAndCommitLoop := by
  have hduty := Duty.turning (E := E) (i := i) ho hnode
  have hpaid := turning (E := E) (i := i) ho hnode
  have hreport : ∀ (u : Node) (j : Int), u.Fresh → (u.commitAt j).1.Fresh := fun u j hu =>
    (Prim.submit (E := E) u j).fresh hu
  refine foldl_settles (P := fun u => u.Fresh ∧ Duty E o i u) (Q := Paid E o i) (i := i) (fun u j hu => ?_)
    (fun u j hu ht => ?_) (fun u hu => ?_) ⟨hfresh, hs⟩ ?_
  · have htail := Node.checkAndCommitAt_report_steps (E := E) hduty.moving.isOpen (hduty.moving _ rfl) u j
    exact ⟨(hreport u j hu.1).steps htail, hduty.steps htail (hreport u j hu.1) (hu.2.submit j).1⟩
  · have htail := Node.checkAndCommitAt_report_steps (E := E) hpaid.moving.isOpen (hpaid.moving _ rfl) u j
    exact hpaid.steps htail (hreport u j hu.1) ⟨(hu.2.submit j).1, (hu.2.submit j).2 (Or.inl ht.told)⟩
  · have htail := Node.checkAndCommitAt_report_steps (E := E) hpaid.moving.isOpen (hpaid.moving _ rfl) u i
    exact hpaid.steps htail (hreport u i hu.1) ⟨(hu.2.submit i).1, (hu.2.submit i).2 (Or.inr rfl)⟩
  · rw [or_iff_not_imp_left]
    exact fun hi => ⟨hs, fun c hc => absurd (OrdMap.mem_keys.2 ⟨c, hc⟩) hi⟩

/-- A commit vote is filed and the quorum reported, and then the view may change. -/
theorem handleCommitMsg (ho : o.cfg.Weighed) (hnode : (o.cfg.getConsensusNodeByIndex o.cfg.nodeIndex).isSome = true)
    {m : PBFTMessage} {ret : Bool} (h : s.handleCommitMsg E m = some (t, ret)) (hfresh : s.Fresh) (hs : Paid E o i s) :
    Paid E o i t := by
  unfold Node.handleCommitMsg at h
  split_ifs at h with hcheck
  · obtain ⟨rfl, -⟩ := Prod.mk.inj (Option.some.inj h)
    exact hs
  · obtain ⟨u, hu, h⟩ := Option.bind_eq_some_iff.1 h
    obtain ⟨rfl, -⟩ := Prod.mk.inj (Option.some.inj h)
    have hfile : Prim E (.commit m) s (s.addCommitReq m) := .commit s (by simpa using hcheck)
    have hsteady : (Label.commit m).Steady E o.cfg :=
      ⟨Label.noConfusion, Label.noConfusion, fun _ => Label.noConfusion, fun _ => Label.noConfusion⟩
    have hduty := (Duty.turning ho hnode).prim hsteady hfile (fun hcast => Bool.noConfusion hcast) hs.duty
    have hpaid := turning (E := E) (i := i) ho hnode
    have hloop := Node.checkAndCommitLoop_steps (E := E) (s.addCommitReq m) hpaid.moving.isOpen (hpaid.moving _ rfl)
      (hpaid.moving _ rfl)
    exact hpaid.turns (Node.resetTimer_turns hpaid.moving hu) ((hfile.fresh hfresh).steps hloop)
      (checkAndCommitLoop E ho hnode (hfile.fresh hfresh) hduty)

end Paid

/-- Every event leaves nothing to do. -/
theorem step_paid (ho : o.cfg.Weighed) (hnode : (o.cfg.getConsensusNodeByIndex o.cfg.nodeIndex).isSome = true) {e : Event}
    (he : e.Timely E i s) (hmatches : ∀ m, e.stores s = some m → m.index = i → m.Matches) (h : BcosPbft.step E s e = some t)
    (hmarked : s.Marked i) (hstamped : s.Stamped) (hfresh : s.Fresh) (hs : Paid E o i s) : Paid E o i t := by
  have hI := Paid.turning (E := E) (i := i) ho hnode
  by_cases hstores : ∃ m, e.stores s = some m
  · obtain ⟨m, hm⟩ := hstores
    have hmoves : ∀ {u v : Node}, Steps E (fun l => l.moving = true) u v → u.Fresh → Paid E o i u → Paid E o i v :=
      fun hsteps => hI.steps (hsteps.mono hI.moving)
    rcases step_hands_over h hm with hsteps | ⟨u, newView, hhead, hcfg, hcaches, htail⟩
    · exact hmoves hsteps hfresh hs
    · have hu := hmoves hhead hfresh hs
      have hhandled := Node.handlePrePrepareMsg_steps (E := E) (A := fun _ => True) u (fun _ _ => trivial) m false newView
        false (fun _ _ => ⟨trivial, trivial, trivial⟩) fun hv => Bool.noConfusion hv
      refine hmoves htail ((hfresh.steps hhead).steps hhandled) (hu.handlePrePrepareMsg ho hnode ?_ (fun c hc => ?_)
        (hfresh.steps hhead))
      · rw [hcfg]
        exact fun hindex => ⟨he.stores hstamped hm hindex, hmatches m hm hindex⟩
      · rw [hcaches] at hc
        rw [hcfg]
        exact hmarked c hc
  by_cases hcommit : ∃ m, e.handles s (.pbft m) ∧ m.packetType = .CommitPacket
  · obtain ⟨m, ⟨rfl, -, rest, hq⟩, htype⟩ := hcommit
    rcases s.handleAdmitted_cases h with rfl | ⟨-, msg, rest', hq', h⟩
    · exact hs
    · obtain ⟨rfl, rfl⟩ := List.cons.inj (hq'.symm.trans hq)
      have htaken := s.admitted_steps (E := E) (A := fun l => l.moving = true) hq rfl rfl
      have hdequeued := hI.steps (htaken.mono hI.moving) hfresh hs
      unfold Node.handleMsg at h
      simp only [htype] at h
      obtain ⟨⟨u, ret⟩, hu, rfl⟩ := Option.map_eq_some_iff.1 h
      exact hdequeued.handleCommitMsg ho hnode hu (hfresh.steps htaken)
  refine hI.step (fun l hl hview hreset => ?_) h hfresh hs
  refine ⟨⟨hview, hreset, ?_, ?_⟩, ?_⟩
  · rintro m rfl
    exact hstores ⟨m, hl.1⟩
  · rintro ls rfl
    obtain ⟨b, rfl, rfl | rfl⟩ := hl
    · exact he.trans hs.duty.same.list
    · exact he.trans hs.duty.same.list
  · rintro m rfl
    exact hcommit ⟨m, hl⟩

end

end BcosPbft
