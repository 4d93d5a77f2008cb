import BcosPbft.Proofs.Authenticity
import BcosPbft.Proofs.Lock
import BcosPbft.Proofs.Tally
import BcosPbft.Spec.World

/-! Ordering agreement. An honest node votes for one hash at an index, because the precommit lock holds as long as
the cache is not erased; a reported commit has a quorum of votes behind it; two quorums share an honest voter. -/

namespace BcosPbft

theorem Node.mem_signed {s : Node} {r : SignRecord} : r ∈ s.signed ↔ Action.sign r ∈ s.log := by
  unfold Node.signed
  rw [List.mem_filterMap]
  constructor
  · rintro ⟨a, ha, hr⟩
    split at hr
    · obtain rfl := Option.some.inj hr
      exact ha
    · cases hr
  · intro h
    exact ⟨_, h, rfl⟩

/-- The node has signed the hash fields of a commit for this index and hash. -/
def Voted (E : Env) (s : Node) (i : Int) (h : HashType) : Prop := ∃ view, Generated E s.signed .CommitPacket i h view

theorem Voted.mono {E : Env} {s t : Node} {i : Int} {h : HashType} (hv : Voted E s i h)
    (hlog : ∀ a ∈ s.log, a ∈ t.log) : Voted E t i h := by
  obtain ⟨view, data, b, hmem, hb⟩ := hv
  exact ⟨view, data, b, Node.mem_signed.2 (hlog _ (Node.mem_signed.1 hmem)), hb⟩

theorem sign_mem_sendActions {E : Env} {keyPair : KeyPair} {dst : Option NodeID} {v : PBFTMessage} {r : SignRecord}
    (h : Action.sign r ∈ sendActions E keyPair dst (.pbft v)) :
    r = .hashFields v.packetType (E.pb.baseMessage.encode v.base) := by
  simp only [sendActions, PBFTCodec.encode, List.map_cons, List.map_nil, List.cons_append, List.nil_append,
    List.mem_cons, List.not_mem_nil, or_false] at h
  rcases h with h | h
  · exact Action.sign.inj h
  · cases h

theorem sign_notMem_sendActions {E : Env} {keyPair : KeyPair} {dst : Option NodeID} {msg : Message} {t : PacketType}
    {data : Bytes} (hmsg : ∀ m, msg ≠ .pbft m) : Action.sign (.hashFields t data) ∉ sendActions E keyPair dst msg := by
  intro h
  cases msg with
  | pbft m => exact hmsg m rfl
  | viewChange m =>
    simp only [sendActions, PBFTCodec.encode] at h
    split at h <;> simp at h
  | newView m =>
    simp only [sendActions, PBFTCodec.encode] at h
    split at h <;> simp at h
  | request m => simp [sendActions, PBFTCodec.encode] at h

theorem sign_commit_notMem_checkPointActions {E : Env} {s : Node} {p : PBFTProposal} {data : Bytes} :
    Action.sign (.hashFields .CommitPacket data) ∉ checkPointActions E s p := by
  intro h
  rcases List.mem_cons.1 h with h | h
  · cases h
  · cases sign_mem_sendActions h

theorem Prim.commit_signed {E : Env} {l : Label} {s t : Node} (h : Prim E l s t) {data : Bytes}
    (hmem : Action.sign (.hashFields .CommitPacket data) ∈ t.log) :
    Action.sign (.hashFields .CommitPacket data) ∈ s.log ∨
      ∃ i c m p, s.caches.find? i = some c ∧ c.prePrepare = some m ∧ m.consensusProposal = some p ∧
        Action.precommit c.index m ∈ t.log ∧
        data = E.pb.baseMessage.encode (PBFTCache.commitVote E s.cfg s.utcTime p).base := by
  by_cases hl : l = .preCommit
  · subst hl
    cases h with
    | preCommit _ i =>
      rcases s.preCommitAt_cases E i with ⟨-, hlog⟩ | ⟨c, m, p, k, hc, hm, hp, -, -, -, -, hlog, hreport⟩
      · rw [hlog] at hmem
        exact Or.inl hmem
      · rw [hlog] at hmem ⊢
        rcases List.mem_append.1 hmem with hmem | hmem
        · rcases List.mem_append.1 hmem with hmem | hmem
          · exact Or.inl hmem
          · right
            refine ⟨i, c, m, p, hc, hm, hp, by simp [PBFTCache.precommitActions], ?_⟩
            simp only [PBFTCache.precommitActions, List.mem_cons] at hmem
            rcases hmem with hmem | hmem | hmem
            · cases hmem
            · cases hmem
            · exact (SignRecord.hashFields.inj (sign_mem_sendActions hmem)).2
        · cases (hreport _ hmem).2
  · obtain ⟨k, hk, hemits⟩ := h.log
    rw [hk] at hmem
    rcases List.mem_append.1 hmem with hmem | hmem
    · exact Or.inl hmem
    · exfalso
      cases hemits _ hmem with
      | neutral _ hn => simp [Action.neutral] at hn
      | vote ha =>
        simp only [voteActions, List.mem_cons] at ha
        rcases ha with ha | ha
        · cases ha
        · cases sign_mem_sendActions ha
      | preCommit => exact hl rfl
      | announce h hs ha =>
        rcases List.mem_cons.1 ha with ha | ha
        · cases ha
        · exact sign_commit_notMem_checkPointActions ha
      | resend hc hp ha => exact sign_commit_notMem_checkPointActions ha
      | newView h ha => exact sign_notMem_sendActions (fun _ => Message.noConfusion) ha
      | sendViewChange ha => exact sign_notMem_sendActions (fun _ => Message.noConfusion) ha

theorem Emits.precommit {E : Env} {s : Node} {l : Label} {i : Int} {m : PBFTMessage}
    (h : Emits E s l (.precommit i m)) : ∃ j c, s.caches.find? j = some c ∧ c.index = i ∧ c.prePrepare = some m := by
  cases h with
  | neutral _ hn => cases hn
  | @preCommit j c m' p _ hc hm hp henough ha =>
    rcases mem_precommitActions ha with heq | hfree
    · obtain ⟨rfl, rfl⟩ := Action.precommit.inj heq
      exact ⟨j, c, hc, rfl, hm⟩
    · cases hfree
  | vote ha => cases voteActions_lockFree _ ha
  | announce h hs ha => cases announceActions_lockFree _ ha
  | resend hc hp ha => cases checkPointActions_lockFree _ ha
  | newView h ha => cases sendActions_lockFree _ ha
  | sendViewChange ha => cases sendActions_lockFree _ ha

theorem Prim.reported {E : Env} {l : Label} {s t : Node} (h : Prim E l s t) {c : PBFTCache} {quorum : UInt64}
    (hmem : Action.reportCommit c quorum ∈ t.log) :
    Action.reportCommit c quorum ∈ s.log ∨ quorum = s.cfg.minRequiredQuorum ∧ ∃ i, t.caches.find? i = some c := by
  by_cases hl : l = .preCommit ∨ l = .submit
  · rcases hl with rfl | rfl
    · cases h with
      | preCommit _ j =>
        rcases s.preCommitAt_cases E j with ⟨-, hlog⟩ | ⟨c', m, p, k, -, -, -, -, -, -, hcaches, hlog, hreport⟩
        · rw [hlog] at hmem
          exact Or.inl hmem
        · rw [hlog] at hmem
          rcases List.mem_append.1 hmem with hmem | hmem
          · rcases List.mem_append.1 hmem with hmem | hmem
            · exact Or.inl hmem
            · rcases mem_precommitActions hmem with heq | hfree
              · cases heq
              · cases hfree
          · obtain ⟨rfl, rfl⟩ := Action.reportCommit.inj (hreport _ hmem).2
            exact Or.inr ⟨rfl, j, by rw [hcaches, OrdMap.find?_insert_self]⟩
    · cases h with
      | submit _ j =>
        rcases s.commitAt_cases j with ⟨-, hlog⟩ | ⟨c', k, -, hcaches, hlog, hreport⟩
        · rw [hlog] at hmem
          exact Or.inl hmem
        · rw [hlog] at hmem
          rcases List.mem_append.1 hmem with hmem | hmem
          · exact Or.inl hmem
          · obtain ⟨rfl, rfl⟩ := Action.reportCommit.inj (hreport _ hmem).2
            exact Or.inr ⟨rfl, j, by rw [hcaches, OrdMap.find?_insert_self]⟩
  · obtain ⟨k, hk, hemits⟩ := h.log
    rw [hk] at hmem
    rcases List.mem_append.1 hmem with hmem | hmem
    · exact Or.inl hmem
    · exfalso
      cases hemits _ hmem with
      | neutral _ hn => cases hn
      | vote ha => cases voteActions_lockFree _ ha
      | announce h hs ha => cases announceActions_lockFree _ ha
      | resend hc hp ha => cases checkPointActions_lockFree _ ha
      | newView h ha => cases sendActions_lockFree _ ha
      | sendViewChange ha => cases sendActions_lockFree _ ha
      | reportSubmit => exact hl (Or.inr rfl)
      | _ => exact hl (Or.inl rfl)

def SignRecord.fields : SignRecord → Option Bytes
  | hashFields _ data => some data
  | _ => none

def PBFTCache.Matching (c : PBFTCache) : Prop :=
  ∀ m, c.prePrepare = some m ∨ c.precommit = some m → m.Matches

theorem PBFTCache.matching_iff {c : PBFTCache} :
    c.Matching ↔ c.Carries (fun i h p => p.index = i ∧ toHash p.hash = h) := by
  constructor
  · exact fun h m p hm hp => h m hm p hp
  · exact fun h m hm p hp => h m p hm hp

theorem CacheStep.matching {E : Env} {cfg : Config} {now i : Int} {l : Label} {c c' : PBFTCache}
    (h : CacheStep E cfg now l i c c') (hc : c.Matching) (hl : ∀ m, l = .store m → m.Matches) : c'.Matching := by
  rw [PBFTCache.matching_iff] at hc ⊢
  exact h.carries hc (fun m p hm hp => hl m hm p hp)

theorem CacheStep.prePrepare_none {E : Env} {cfg : Config} {now i : Int} {l : Label} {c c' : PBFTCache}
    (h : CacheStep E cfg now l i c c') (hc : c.prePrepare = none) (hl : ∀ m, l = .store m → m.index ≠ i) :
    c'.prePrepare = none := by
  have hkeeps : ∀ {d : PBFTCache}, c.Keeps d → d.prePrepare = none := by
    intro d hd
    have heq := hd.prePrepare
    rw [hc, Option.map_none] at heq
    exact Option.map_eq_none_iff.1 heq
  by_cases hkeeping : l.keeping = true
  · exact hkeeps (h.keeps hkeeping)
  · cases h with
    | same => exact hc
    | store m => exact absurd rfl (hl m rfl)
    | preCommit =>
      rcases c.checkAndPreCommit_cases E cfg now with heq | ⟨m, p, hm, -⟩
      · rw [heq]
        exact hc
      · rw [hc] at hm
        cases hm
    | submit => exact hkeeps (c.checkAndCommit_keeps cfg)
    | _ => exact absurd rfl hkeeping

/-- Who stands behind a commit vote: `B` for another node, and the node's own signature for itself. -/
def Backed (E : Env) (B : IndexType → Int → HashType → Prop) (s : Node) (X : IndexType) (i : Int) (h : HashType) :
    Prop :=
  B X i h ∨ X = s.cfg.nodeIndex ∧ Voted E s i h

theorem Backed.mono {E : Env} {B : IndexType → Int → HashType → Prop} {s t : Node} {X : IndexType} {i : Int}
    {h : HashType} (hb : Backed E B s X i h) (hindex : t.cfg.nodeIndex = s.cfg.nodeIndex)
    (hlog : ∀ a ∈ s.log, a ∈ t.log) : Backed E B t X i h := by
  rcases hb with hb | ⟨hX, hv⟩
  · exact Or.inl hb
  · exact Or.inr ⟨hX.trans hindex.symm, hv.mono hlog⟩

def Label.Meets (E : Env) (B : IndexType → Int → HashType → Prop) (s : Node) : Label → Prop
  | .store m => m.Matches ∧ Action.eraseCache m.index ∉ s.log
  | .commit m => s.checkSignature E (.pbft m) = true → B m.generatedFrom m.index m.hash
  | .receive msg => ∀ m, msg = .pbft m → m.packetType = .CommitPacket → s.checkSignature E (.pbft m) = true →
      B m.generatedFrom m.index m.hash
  | .nodes l => Config.sortNodes E l = s.cfg.consensusNodeList
  | _ => True

/-- The node votes for one hash at an index, and its tallies and pushed proposals have the votes they count. -/
structure Sound (E : Env) (B : IndexType → Int → HashType → Prop) (s : Node) : Prop where
  locks : Locks s
  erased : ∀ i c, Action.eraseCache i ∈ s.log → s.caches.find? i = some c → c.prePrepare = none
  matching : ∀ i c, s.caches.find? i = some c → c.Matching
  precommits : ∀ i m, Action.precommit i m ∈ s.log → m.Matches ∧ m.index = i
  unique : ∀ i m m', Action.precommit i m ∈ s.log → Action.precommit i m' ∈ s.log → m.hash = m'.hash
  votes : ∀ i h, Voted E s i h → ∃ m, Action.precommit i m ∈ s.log ∧ m.hash = h
  tallies : ∀ i c, s.caches.find? i = some c → c.Tallied s.cfg (fun X h => Backed E B s X i h)
  queue : ∀ m, Message.pbft m ∈ s.msgQueue → m.packetType = .CommitPacket → s.checkSignature E (.pbft m) = true →
    B m.generatedFrom m.index m.hash
  pushes : ∀ p, s.Pushes p → ∃ S : Finset IndexType, s.cfg.minRequiredQuorum.toNat ≤ ∑ X ∈ S, s.cfg.weightAt X.toNat ∧
    ∀ X ∈ S, X.toNat < s.cfg.consensusNodeList.length ∧ Backed E B s X p.index p.hash

theorem Config.compareConsensusNode_self (l : List ConsensusNode) : compareConsensusNode l l = true := by
  induction l with
  | nil => rfl
  | cons a l ih =>
    simp only [compareConsensusNode, Bool.and_eq_true, List.zip_cons_cons, List.all_cons] at ih ⊢
    simpa using ih

theorem Prim.sameNodes_of_meets {E : Env} {B : IndexType → Int → HashType → Prop} {l : Label} {s t : Node}
    (h : Prim E l s t) (hl : l.Meets E B s) : SameNodes s t := by
  by_cases hnodes : ∃ ls, l = .nodes ls
  · obtain ⟨ls, rfl⟩ := hnodes
    cases h with
    | nodes _ hset =>
      unfold Config.setConsensusNodeList at hset
      split at hset
      · cases hset
      dsimp only at hset
      have hlist : Config.sortNodes E ls = s.cfg.consensusNodeList := hl
      rw [hlist, Config.compareConsensusNode_self, if_pos rfl] at hset
      obtain rfl := Option.some.inj hset
      exact ⟨rfl, rfl, rfl, rfl, rfl, rfl⟩
  · exact h.sameNodes (fun ls heq => hnodes ⟨ls, heq⟩)

theorem SameNodes.weightAt {s t : Node} (h : SameNodes s t) (i : ℕ) : t.cfg.weightAt i = s.cfg.weightAt i := by
  unfold Config.weightAt
  rw [h.list]

theorem commitVote_base (E : Env) (cfg : Config) (now : Int) (p : PBFTProposal) :
    (PBFTCache.commitVote E cfg now p).base.index = p.index ∧
      toHash (PBFTCache.commitVote E cfg now p).base.hash = p.hash := by
  obtain ⟨hindex, hhash⟩ := populateProposal_proposal p false
  exact ⟨hindex, (toHash_val _).trans hhash⟩

theorem CacheStep.tallied {E : Env} {cfg : Config} {now i : Int} {l : Label} {c c' : PBFTCache}
    {P : IndexType → HashType → Prop} (h : CacheStep E cfg now l i c c') (hc : c.Tallied cfg P) (hl : l ≠ .preCommit)
    (hcommit : ∀ m, l = .commit m → m.index = i → P m.generatedFrom m.hash) : c'.Tallied cfg P := by
  cases h with
  | same => exact hc
  | store m => exact hc.congr rfl rfl rfl
  | vote m => exact hc.congr rfl rfl rfl
  | prepare m => exact hc.congr rfl rfl rfl
  | commit m => exact hc.addCache c (fun _ => hcommit m rfl rfl)
  | checkPoint own m => exact hc.congr rfl rfl rfl
  | preCommit => exact absurd rfl hl
  | submit =>
    rcases c.checkAndCommit_cases cfg with heq | ⟨heq, -⟩
    · rw [heq]
      exact hc
    · rw [heq]
      exact hc.congr rfl rfl rfl
  | reset v => exact hc.reset v
  | stable =>
    unfold PBFTCache.checkAndCommitStableCheckPoint
    split
    · exact hc
    · split
      · exact hc
      · exact hc.congr rfl rfl rfl
  | reencode => exact hc.congr rfl rfl rfl
  | setCheckPoint p =>
    unfold PBFTCache.setCheckPointProposal
    split_ifs
    · exact hc
    · exact hc
    · exact hc.congr rfl rfl rfl

section Step

variable {E : Env} {B : IndexType → Int → HashType → Prop} {l : Label} {s t : Node}

/-- The stored pre-prepare has the hash of the precommits logged at its index. -/
theorem Sound.precommit_hash (hs : Sound E B s) {i : Int} {c : PBFTCache} {m m' : PBFTMessage}
    (hc : s.caches.find? i = some c) (hm : c.prePrepare = some m) (hmem : Action.precommit i m' ∈ s.log) :
    m.hash = m'.hash := by
  have hkept : Action.eraseCache i ∉ s.log := by
    intro herase
    have hnone := hs.erased i c herase hc
    rw [hm] at hnone
    cases hnone
  obtain ⟨l₁, l₂, heq⟩ := List.append_of_mem hmem
  have hlock : lockedAt i s.log = some m'.hash := by
    refine lockedAt_after hs.locks.log heq (fun hmem' => hkept ?_)
    rw [heq]
    exact List.mem_append_right _ (List.mem_cons_of_mem _ hmem')
  obtain ⟨c', p, hc', hp, hash_eq⟩ := hs.locks.held i m'.hash hlock
  obtain rfl : c = c' := Option.some.inj (hc.symm.trans hc')
  obtain ⟨q, hq, hqp⟩ := ((hs.locks.filed i c hc).precommit p hp).2
  obtain rfl : m = q := Option.some.inj (hm.symm.trans hq)
  exact hqp.trans hash_eq

/-- A precommit of the log was there before or is of the stored pre-prepare. -/
theorem Sound.precommit_cases (hs : Sound E B s) (h : Prim E l s t) {i : Int} {m : PBFTMessage}
    (hmem : Action.precommit i m ∈ t.log) :
    Action.precommit i m ∈ s.log ∨ ∃ c, s.caches.find? i = some c ∧ c.prePrepare = some m := by
  obtain ⟨k, hk, hemits⟩ := h.log
  rw [hk] at hmem
  rcases List.mem_append.1 hmem with hmem | hmem
  · exact Or.inl hmem
  · obtain ⟨j, c, hc, hindex, hm⟩ := (hemits _ hmem).precommit
    obtain rfl : j = i := (hs.locks.filed j c hc).index.symm.trans hindex
    exact Or.inr ⟨c, hc, hm⟩

theorem Sound.unique_step (hs : Sound E B s) (h : Prim E l s t) (i : Int) (m m' : PBFTMessage)
    (hm : Action.precommit i m ∈ t.log) (hm' : Action.precommit i m' ∈ t.log) : m.hash = m'.hash := by
  rcases hs.precommit_cases h hm with hm | ⟨c, hc, hm⟩
  · rcases hs.precommit_cases h hm' with hm' | ⟨c', hc', hm'⟩
    · exact hs.unique i m m' hm hm'
    · exact (hs.precommit_hash hc' hm' hm).symm
  · rcases hs.precommit_cases h hm' with hm' | ⟨c', hc', hm'⟩
    · exact hs.precommit_hash hc hm hm'
    · obtain rfl : c = c' := Option.some.inj (hc.symm.trans hc')
      obtain rfl : m = m' := Option.some.inj (hm.symm.trans hm')
      rfl

theorem Sound.votes_step (hpb : E.pb.baseMessage.Lawful) (hs : Sound E B s) (h : Prim E l s t) (i : Int) (hash : HashType)
    (hv : Voted E t i hash) : ∃ m, Action.precommit i m ∈ t.log ∧ m.hash = hash := by
  obtain ⟨view, data, b, hmem, hb, hindex, hhash, hview⟩ := hv
  rcases h.commit_signed (Node.mem_signed.1 hmem) with hmem | ⟨j, c, m, p, hc, hm, hp, hpre, rfl⟩
  · obtain ⟨m, hpre, hash_eq⟩ := hs.votes i hash ⟨view, data, b, Node.mem_signed.2 hmem, hb, hindex, hhash, hview⟩
    exact ⟨m, h.log_mono _ hpre, hash_eq⟩
  · obtain rfl := Option.some.inj ((hpb _).symm.trans hb)
    obtain ⟨hbi, hbh⟩ := commitVote_base E s.cfg s.utcTime p
    have hmatch := hs.matching j c hc m (Or.inl hm) p hp
    have hfiled := hs.locks.filed j c hc
    have hj : c.index = i := by
      rw [hfiled.index, ← hfiled.prePrepare m hm, ← hmatch.1, ← hbi, hindex]
    refine ⟨m, hj ▸ hpre, ?_⟩
    rw [← hmatch.2, ← hbh, hhash]

theorem Sound.tallies_step (hpb : E.pb.baseMessage.Lawful) (hs : Sound E B s) (h : Prim E l s t)
    (hl : l.Meets E B s) (i : Int) (c' : PBFTCache) (hc' : t.caches.find? i = some c') :
    c'.Tallied t.cfg (fun X hash => Backed E B t X i hash) := by
  have hsame := h.sameNodes_of_meets hl
  have hbase : ((s.caches.find? i).getD { index := i }).Tallied s.cfg (fun X hash => Backed E B t X i hash) := by
    cases hc : s.caches.find? i with
    | none => exact .empty
    | some c => exact (hs.tallies i c hc).mono (fun m hb => hb.mono hsame.nodeIndex h.log_mono)
  refine PBFTCache.Tallied.congr ?_ hsame.list rfl rfl
  by_cases hpre : l = .preCommit
  · subst hpre
    have hindex := hsame.nodeIndex
    cases h with
    | preCommit _ j =>
      rcases s.preCommitAt_cases E j with ⟨hfind, -⟩ | ⟨c, m, p, k, hc, -, -, -, -, -, hcaches, hlog, -⟩
      · rw [hfind] at hc'
        rw [hc'] at hbase
        exact hbase
      · rw [hcaches, OrdMap.find?_insert] at hc'
        split_ifs at hc' with hj
        · -- the node's own vote, which it signs in this step
          subst hj
          obtain rfl := Option.some.inj hc'
          rw [hc, Option.getD_some] at hbase
          have henter : (c.enterPrecommit E s.cfg s.utcTime m p).Tallied s.cfg
              (fun X hash => Backed E B (s.preCommitAt E i).1 X i hash) := by
            have hinto : (PBFTCache.intoPrecommit E s.cfg c m p).Tallied s.cfg
                (fun X hash => Backed E B (s.preCommitAt E i).1 X i hash) := hbase.congr rfl rfl rfl
            refine hinto.addCache (PBFTCache.intoPrecommit E s.cfg c m p)
              (m := encodedMsg E s.cfg.keyPair (PBFTCache.commitVote E s.cfg s.utcTime p))
                (fun hvote => Or.inr ⟨hindex.symm, ?_⟩)
            have hci : c.index = i := (hs.locks.filed i c hc).index
            refine ⟨_, _, _, Node.mem_signed.2 ?_, hpb (PBFTCache.commitVote E s.cfg s.utcTime p).base, hvote.trans hci,
              rfl, rfl⟩
            rw [hlog]
            refine List.mem_append_left _ (List.mem_append_right _ ?_)
            exact List.mem_cons_of_mem _ (List.mem_cons_of_mem _ List.mem_cons_self)
          rcases (c.enterPrecommit E s.cfg s.utcTime m p).checkAndCommit_cases s.cfg with heq | ⟨heq, -⟩
          · rw [heq]
            exact henter
          · rw [heq]
            exact henter.congr rfl rfl rfl
        · rw [hc'] at hbase
          exact hbase
  · refine (h.cacheStep hc').tallied hbase hpre (fun m hm hi => ?_)
    subst hm
    cases h with
    | commit _ hcheck =>
      obtain ⟨-, -, hsigned⟩ := checkPBFTMsg_spec hcheck
      exact Or.inl (hi ▸ hl hsigned)

/-- A new report has a quorum of votes behind it. -/
theorem Sound.pushed {p : PBFTProposal} {c : PBFTCache} {i : Int} (hlocks : Locks t) (hc : t.caches.find? i = some c)
    (hmatching : c.Matching) (htallied : c.Tallied t.cfg (fun X hash => Backed E B t X i hash))
    (hmem : Action.reportCommit c t.cfg.minRequiredQuorum ∈ t.log)
    (hp : c.precommit.bind PBFTMessage.consensusProposal = some p) :
    ∃ S : Finset IndexType, t.cfg.minRequiredQuorum.toNat ≤ ∑ X ∈ S, t.cfg.weightAt X.toNat ∧
      ∀ X ∈ S, X.toNat < t.cfg.consensusNodeList.length ∧ Backed E B t X p.index p.hash := by
  obtain ⟨m, hm, hp⟩ := Option.bind_eq_some_iff.1 hp
  obtain ⟨hpi, hph⟩ := hmatching m (Or.inr hm) p hp
  have hmi := ((hlocks.filed i c hc).precommit m hm).1
  obtain ⟨k₁, k₂, hk⟩ := List.append_of_mem hmem
  obtain ⟨hash, ⟨hpre, -, v, hv, hquorum⟩, -⟩ := hlocks.log k₁ _ k₂ hk
  obtain rfl : m.hash = hash := by simpa [hm] using hpre
  refine ⟨c.commitSenders m.hash, (UInt64.le_iff_toNat_le.1 hquorum).trans (htallied.toNat_weight_le hv), fun X hX => ?_⟩
  rw [hpi, hph, hmi]
  exact htallied.senders hX

theorem Prim.sound (hpb : E.pb.baseMessage.Lawful) (h : Prim E l s t) (hl : l.Meets E B s) (hs : Sound E B s) :
    Sound E B t := by
  have hsame := h.sameNodes_of_meets hl
  have hlocks := h.locks hs.locks
  have hmatching : ∀ i c, t.caches.find? i = some c → c.Matching := by
    intro i c' hc'
    refine (h.cacheStep hc').matching ?_ (fun m hm => by subst hm; exact hl.1)
    cases hc : s.caches.find? i with
    | none => rintro m (hm | hm) <;> cases hm
    | some c => exact hs.matching i c hc
  have htallies := hs.tallies_step hpb h hl
  refine ⟨hlocks, ?_, hmatching, ?_, hs.unique_step h, hs.votes_step hpb h, htallies, ?_, ?_⟩
  · intro i c' hmem hc'
    rcases h.erased hmem with hmem | ⟨-, hnone⟩
    · refine (h.cacheStep hc').prePrepare_none ?_ ?_
      · cases hc : s.caches.find? i with
        | none => rfl
        | some c => exact hs.erased i c hmem hc
      · rintro m rfl rfl
        exact hl.2 hmem
    · rw [hnone] at hc'
      cases hc'
  · intro i m hmem
    rcases hs.precommit_cases h hmem with hmem | ⟨c, hc, hm⟩
    · exact hs.precommits i m hmem
    · exact ⟨hs.matching i c hc m (Or.inl hm), (hs.locks.filed i c hc).prePrepare m hm⟩
  · intro m hmem htype hcheck
    rcases h.intake.msgQueue _ hmem with hmem | rfl
    · rw [hsame.checkSignature] at hcheck
      exact hs.queue m hmem htype hcheck
    · rw [hsame.checkSignature] at hcheck
      exact hl m rfl htype hcheck
  · rintro p ⟨c, quorum, hmem, hp⟩
    rcases h.reported hmem with hmem' | ⟨rfl, i, hc⟩
    · obtain ⟨S, hS, hbacked⟩ := hs.pushes p ⟨c, quorum, hmem', hp⟩
      refine ⟨S, ?_, fun X hX => ?_⟩
      · rw [hsame.required]
        simp only [hsame.weightAt]
        exact hS
      · rw [hsame.list]
        exact ⟨(hbacked X hX).1, (hbacked X hX).2.mono hsame.nodeIndex h.log_mono⟩
    · rw [← hsame.required] at hmem
      exact Sound.pushed hlocks hc (hmatching i c hc) (htallies i c hc) hmem hp

end Step

theorem Sound.mono {E : Env} {B B' : IndexType → Int → HashType → Prop} {s : Node} (h : Sound E B s)
    (hB : ∀ X i hash, B X i hash → B' X i hash) : Sound E B' s := by
  have hbacked : ∀ {X i hash}, Backed E B s X i hash → Backed E B' s X i hash := by
    rintro X i hash (hb | hb)
    · exact Or.inl (hB X i hash hb)
    · exact Or.inr hb
  refine ⟨h.locks, h.erased, h.matching, h.precommits, h.unique, h.votes, fun i c hc => ?_, fun m hm ht hcheck => ?_,
    fun p hp => ?_⟩
  · exact (h.tallies i c hc).mono (fun m hb => hbacked hb)
  · exact hB _ _ _ (h.queue m hm ht hcheck)
  · obtain ⟨S, hS, hall⟩ := h.pushes p hp
    exact ⟨S, hS, fun X hX => ⟨(hall X hX).1, hbacked (hall X hX).2⟩⟩

theorem step_sound {E : Env} {B : IndexType → Int → HashType → Prop} {s t : Node} {e : Event}
    (hpb : E.pb.baseMessage.Lawful) (hstep : step E s e = some t) (hs : Sound E B s)
    (hnodes : ∀ l, e = .finalized l → Config.sortNodes E l.consensusNodeList = s.cfg.consensusNodeList)
    (hsync : ∀ l, e ≠ .newBlock l)
    (hstored : ∀ m ∈ e.stores s, s.checkPrePrepareMsg m = true → m.Matches ∧ Action.eraseCache m.index ∉ s.log)
    (hvote : ∀ m ∈ e.vote E, m.packetType = .CommitPacket → s.checkSignature E (.pbft m) = true →
      B m.generatedFrom m.index m.hash) : Sound E B t ∧ SameNodes s t := by
  -- an event that stores a pre-prepare erases nothing before
  let I : Node → Prop := fun u => (Sound E B u ∧ SameNodes s u) ∧
    ∀ m, e.allows E s (.store m) → Action.eraseCache m.index ∉ u.log
  have hI : I t := by
    refine Labelled.Steps.preserves (I := I) (fun l u v hl hp hu => ?_) (step_steps hstep)
      ⟨⟨hs, .refl s⟩, fun m hm => (hstored m hm.1 hm.2).2⟩
    obtain ⟨⟨hsound, hsame⟩, hkept⟩ := hu
    have hmeets : l.Meets E B u := by
      cases l with
      | store m => exact ⟨(hstored m hl.1 hl.2).1, hkept m hl⟩
      | commit m =>
        intro hcheck
        obtain ⟨⟨-, -, rest, hq⟩, htype⟩ := hl
        rw [hsame.checkSignature] at hcheck
        exact hs.queue m (by rw [hq]; exact List.mem_cons_self) htype hcheck
      | receive msg =>
        rintro m rfl htype hcheck
        obtain ⟨fromNode, data, stored, m', rfl, hdecode, hm⟩ := hl
        rw [hsame.checkSignature] at hcheck
        refine hvote m ?_ htype hcheck
        simp [Event.vote, hdecode, ← hm]
      | nodes ls =>
        obtain ⟨c, rfl, hc | hc⟩ := hl
        · exact (hnodes c hc).trans hsame.list.symm
        · exact absurd hc (hsync c)
      | _ => trivial
    refine ⟨⟨hp.sound hpb hmeets hsound, hsame.trans (hp.sameNodes_of_meets hmeets)⟩, fun m hm hmem => ?_⟩
    rcases hp.erased hmem with hmem | ⟨rfl, -⟩
    · exact hkept m hm hmem
    · obtain ⟨c, rfl | rfl⟩ := hl <;> cases hm.1
  exact hI.1

/-- What keeps the consensus nodes, the caches and the message queue, and logs neutral actions only. -/
structure Unmoved (s t : Node) : Prop where
  nodes : SameNodes s t
  caches : t.caches = s.caches
  msgQueue : t.msgQueue = s.msgQueue
  log : ∃ k, t.log = s.log ++ k ∧ ∀ a ∈ k, a.neutral = true

theorem Quiet.unmoved {s t : Node} (h : Quiet s t) : Unmoved s t := by
  have hagrees := Config.Agrees.of_core h.core
  exact ⟨⟨hagrees.keyPair, hagrees.nodeIndex, hagrees.list, hagrees.total, hagrees.faulty, hagrees.required⟩,
    congrArg Core.caches h.core, congrArg Core.msgQueue h.core, h.log⟩

theorem Unmoved.trans {s t u : Node} (h : Unmoved s t) (h' : Unmoved t u) : Unmoved s u := by
  obtain ⟨k, hk, hn⟩ := h.log
  obtain ⟨k', hk', hn'⟩ := h'.log
  refine ⟨h.nodes.trans h'.nodes, h'.caches.trans h.caches, h'.msgQueue.trans h.msgQueue, k ++ k', ?_, fun a ha => ?_⟩
  · rw [hk', hk, List.append_assoc]
  · rcases List.mem_append.1 ha with ha | ha
    · exact hn a ha
    · exact hn' a ha

theorem Steps.unmoved {E : Env} {s t : Node} (h : Steps E (fun l => l = .quiet ∨ l = .mode) s t) : Unmoved s t := by
  refine Labelled.Steps.preserves (I := Unmoved s) (fun l u v hl hp hu => hu.trans ?_) h (Quiet.refl s).unmoved
  rcases hl with rfl | rfl
  · cases hp with
    | quiet h => exact h.unmoved
  · cases hp with
    | mode => exact ⟨⟨rfl, rfl, rfl, rfl, rfl, rfl⟩, rfl, rfl, [], by simp [Node.setCfg], by simp⟩

theorem Node.resetConfig_fresh {E : Env} {s t : Node} {l : LedgerConfig} (hs : s.cfg.committedProposal = none)
    (hlist : s.cfg.consensusNodeList = []) (h : s.resetConfig E l = some t) :
    (t.cfg.consensusNodeList = Config.sortNodes E l.consensusNodeList ∧ t.cfg.Coherent) ∧
      t.caches = s.caches ∧ t.msgQueue = s.msgQueue ∧ ∃ k, t.log = s.log ++ k ∧ ∀ a ∈ k, a.neutral = true := by
  unfold resetConfig at h
  have hzero : s.cfg.committedIndex = 0 := by simp [Config.committedIndex, hs]
  simp only [hzero, gt_iff_lt, lt_self_iff_false, decide_false, Bool.and_false, Bool.false_eq_true, if_false] at h
  obtain ⟨u, hu, h⟩ := Option.bind_eq_some_iff.1 h
  obtain rfl := Option.some.inj h
  have htail : Unmoved u (((u.setLeaderSwitchPeriod l.leaderSwitchPeriod).setCfg
      (u.setLeaderSwitchPeriod l.leaderSwitchPeriod).cfg.resetTimer).reSealAfterCommit l.blockNumber) := by
    let A : Label → Prop := fun l => l = .quiet ∨ l = .mode
    have hquiet : A .quiet := Or.inl rfl
    have hmode : A .mode := Or.inr rfl
    have hperiod := setLeaderSwitchPeriod_steps (E := E) u hquiet hmode l.leaderSwitchPeriod
    generalize u.setLeaderSwitchPeriod l.leaderSwitchPeriod = v at hperiod
    have hseal := reSealAfterCommit_steps (E := E) (v.setCfg v.cfg.resetTimer) hquiet hmode l.blockNumber
    exact Steps.unmoved (hperiod.trans (.trans (.single hmode (.mode v false _ _)) hseal))
  unfold Node.setConsensusNodeList at hu
  obtain ⟨c, hc, hu⟩ := Option.bind_eq_some_iff.1 hu
  have hne : l.consensusNodeList ≠ [] := by
    intro hnil
    simp [Config.setConsensusNodeList, hnil] at hc
  obtain ⟨c', hc', hsorted, hco⟩ := Config.setConsensusNodeList_spec (E := E) (c := _) hne
  obtain rfl : c' = c := Option.some.inj (hc'.symm.trans hc)
  have hcoherent : c'.Coherent := by
    rcases hco with hco | rfl
    · exact hco
    · exfalso
      have hlen := congrArg List.length (hsorted.symm.trans hlist)
      rw [Config.sortNodes, List.length_insertionSort, List.length_nil] at hlen
      exact hne (List.length_eq_zero_iff.1 hlen)
  have hset : ∃ v : Node, Quiet v u ∧ v.cfg = c' ∧ v.caches = s.caches ∧ v.msgQueue = s.msgQueue ∧ v.log = s.log := by
    dsimp only at hu
    split_ifs at hu
    · obtain rfl := Option.some.inj hu
      exact ⟨_, .refl _, rfl, rfl, rfl, rfl⟩
    · obtain rfl := Option.some.inj hu
      exact ⟨_, notifyResetSealing_quiet _ _, rfl, rfl, rfl, rfl⟩
    · obtain rfl := Option.some.inj hu
      exact ⟨_, .refl _, rfl, rfl, rfl, rfl⟩
  obtain ⟨v, hvu, rfl, hcaches, hqueue, hlog⟩ := hset
  have hall := hvu.unmoved.trans htail
  obtain ⟨k, hk, hneutral⟩ := hall.log
  have hnodes := hall.nodes
  exact ⟨⟨hnodes.list.trans hsorted, hcoherent.congr hnodes.list hnodes.total hnodes.faulty hnodes.required⟩,
    hall.caches.trans hcaches, hall.msgQueue.trans hqueue, k, by rw [hk, hlog], hneutral⟩

theorem initNode_sound {E : Env} {keyPair : KeyPair} {l : LedgerConfig} {state : List PBFTProposal} {s₀ : Node}
    (B : IndexType → Int → HashType → Prop) (hinit : initNode E keyPair l state = some s₀) (hl : 0 ≤ l.blockNumber)
    (hstate : ∀ p ∈ state, l.blockNumber < p.index) :
    Sound E B s₀ ∧ s₀.cfg.consensusNodeList = Config.sortNodes E l.consensusNodeList ∧ s₀.cfg.Coherent := by
  have hlocks := initNode_locks hinit hl hstate
  unfold initNode at hinit
  obtain ⟨s, hs, hinit⟩ := Option.bind_eq_some_iff.1 hinit
  obtain ⟨⟨hlist, hco⟩, hcaches, hqueue, k, hk, hneutral⟩ := Node.resetConfig_fresh rfl rfl hs
  have hfresh : (s₀.cfg.consensusNodeList = Config.sortNodes E l.consensusNodeList ∧ s₀.cfg.Coherent) ∧
      s₀.caches = ∅ ∧ s₀.msgQueue = [] ∧ ∀ a ∈ s₀.log, a.neutral = true := by
    cases hlast : state.getLast? with
    | none =>
      simp only [hlast] at hinit
      obtain rfl := Option.some.inj hinit
      exact ⟨⟨hlist, hco⟩, hcaches, hqueue, by rw [hk]; exact hneutral⟩
    | some last =>
      simp only [hlast] at hinit
      obtain rfl := Option.some.inj hinit
      obtain ⟨⟨ld, hcore⟩, k', hk', hneutral'⟩ := s.initState_core (E := E) state
      have hagrees := Config.Agrees.of_core (s := { s with loading := ld }) hcore
      refine ⟨⟨hagrees.list.trans hlist, hco.congr hagrees.list hagrees.total hagrees.faulty hagrees.required⟩,
        (congrArg Core.caches hcore).trans hcaches, (congrArg Core.msgQueue hcore).trans hqueue, ?_⟩
      change ∀ a ∈ (s.initState E state).log, a.neutral = true
      rw [hk', hk]
      intro a ha
      rcases List.mem_append.1 ha with ha | ha
      · exact hneutral a ha
      · exact hneutral' a ha
  obtain ⟨hnodes, hempty, hnone, hall⟩ := hfresh
  refine ⟨⟨hlocks, ?_, ?_, ?_, ?_, ?_, ?_, ?_, ?_⟩, hnodes⟩
  · intro i c hmem
    cases hall _ hmem
  · intro i c hc
    rw [hempty] at hc
    cases hc
  · intro i m hmem
    cases hall _ hmem
  · intro i m m' hmem
    cases hall _ hmem
  · rintro i h ⟨view, data, b, hmem, -⟩
    cases hall _ (Node.mem_signed.1 hmem)
  · intro i c hc
    rw [hempty] at hc
    cases hc
  · intro m hmem
    rw [hnone] at hmem
    cases hmem
  · rintro p ⟨c, quorum, hmem, -⟩
    cases hall _ hmem

namespace Group

variable {E : Env} {g : Group} {w₀ w : World}

def Votes (g : Group) (E : Env) (w : World) (X : IndexType) (i : Int) (h : HashType) : Prop :=
  g.Honest X → Voted E (w X) i h

theorem vote_decode {e : Event} {m : PBFTMessage} (hm : m ∈ e.vote E) :
    m.signatureDataHash = E.crypto.hash m.raw.hashFieldsData ∧
      E.pb.baseMessage.decode m.raw.hashFieldsData = some m.base := by
  unfold Event.vote at hm
  split at hm
  · split at hm
    · rename_i m' hm'
      obtain rfl := Option.some.inj hm
      exact decode_pbft hm'
    · cases hm
  · cases hm

/-- A commit that passes the check in the name of an honest node is a vote of that node. -/
theorem votes_of_admits {X : IndexType} {e : Event} (hadmits : g.Admits E w e) (hclean : g.Clean E w X e)
    (hlist : (w X).cfg.consensusNodeList = Config.sortNodes E g.consensusNodeList) {m : PBFTMessage}
    (hm : m ∈ e.vote E) (htype : m.packetType = .CommitPacket) (hcheck : (w X).checkSignature E (.pbft m) = true) :
    g.Votes E w m.generatedFrom m.index m.hash := by
  intro hhonest
  obtain ⟨node, hnode, hverify⟩ := Node.checkSignature_node hcheck
  have hspeaks : g.Speaks E m := by
    refine ⟨hhonest, node, ?_, hverify⟩
    rw [← hlist]
    exact hnode
  obtain ⟨data, hmem, hhash⟩ := hclean.commits m hm htype hspeaks (hadmits.unforgeable m hm hspeaks)
  obtain ⟨hdigest, hbase⟩ := vote_decode hm
  obtain rfl := hadmits.collisionFree m hm hspeaks _ data hmem (hhash.trans hdigest)
  exact ⟨m.view, _, m.base, hmem, hbase, rfl, rfl, rfl⟩

/-- Every honest node keeps its invariant and its node list over a run. -/
theorem Run.sound (hpb : E.pb.baseMessage.Lawful) (hinit : g.Initial E w₀)
    (h : g.Run E (fun w X e => g.Admits E w e ∧ g.Clean E w X e) w₀ w) {X : IndexType} (hX : g.Honest X) :
    Sound E (g.Votes E w) (w X) ∧ SameNodes (w₀ X) (w X) := by
  induction h generalizing X with
  | refl =>
    obtain ⟨keyPair, l, state, hnode, -, -, hzero, hstate⟩ := hinit X hX
    exact ⟨(initNode_sound _ hnode hzero hstate).1, .refl _⟩
  | @step w Y e s hrun hY hok hstep ih =>
    have hlist : ∀ {Z}, g.Honest Z → (w Z).cfg.consensusNodeList = Config.sortNodes E g.consensusNodeList := by
      intro Z hZ
      obtain ⟨keyPair, l, state, hnode, hl, -, hzero, hstate⟩ := hinit Z hZ
      rw [(ih hZ).2.list, (initNode_sound (g.Votes E w) hnode hzero hstate).2.1, hl]
    obtain ⟨hsound, hsame⟩ := step_sound hpb hstep (ih hY).1
      (fun l hl => by rw [hok.1.nodes l hl, hlist hY]) hok.1.noSync hok.2.stored
      (fun m hm htype hcheck => votes_of_admits hok.1 hok.2 (hlist hY) hm htype hcheck)
    have hgrow : ∀ a ∈ (w Y).log, a ∈ s.log := by
      obtain ⟨k, hk⟩ := (step_steps hstep).log
      intro a ha
      rw [hk]
      exact List.mem_append_left k ha
    have hvotes : ∀ Z i hash, g.Votes E w Z i hash → g.Votes E (Function.update w Y s) Z i hash := by
      intro Z i hash hv hZ
      by_cases heq : Z = Y
      · subst heq
        rw [Function.update_self]
        exact (hv hZ).mono hgrow
      · rw [Function.update_of_ne heq]
        exact hv hZ
    by_cases heq : X = Y
    · subst heq
      rw [Function.update_self]
      exact ⟨hsound.mono hvotes, (ih hX).2.trans hsame⟩
    · rw [Function.update_of_ne heq]
      exact ⟨(ih hX).1.mono hvotes, (ih hX).2⟩

/-- Two honest nodes never push proposals of one index and different hashes, over any number of views and with any
faulty nodes of tolerable weight, as long as the stored pre-prepares match their proposals and are for indices whose
cache was not erased, and no other signature passes for a commit. -/
theorem ordering_agreement (hpb : E.pb.baseMessage.Lawful) (hpos : 1 ≤ Config.totalWeight g.consensusNodeList)
    (hmax : Config.totalWeight g.consensusNodeList < 2 ^ 64)
    (hfaulty : ∀ X, g.Honest X → ∑ Y ∈ g.faulty, (w₀ X).cfg.weightAt Y.toNat ≤ (w₀ X).cfg.maxFaultyQuorum.toNat)
    (hinit : g.Initial E w₀) (hrun : g.Run E (fun w X e => g.Admits E w e ∧ g.Clean E w X e) w₀ w) : g.Agrees w := by
  have hstart : ∀ {X}, g.Honest X → (w₀ X).cfg.consensusNodeList = Config.sortNodes E g.consensusNodeList ∧
      (w₀ X).cfg.Exact (Config.totalWeight g.consensusNodeList) ∧ (w₀ X).cfg.nodeIndex = X := by
    intro X hX
    obtain ⟨keyPair, l, state, hnode, hl, hindex, hzero, hstate⟩ := hinit X hX
    obtain ⟨-, hlist, hco⟩ := initNode_sound (g.Votes E w) hnode hzero hstate
    rw [hl] at hlist
    have hT : Config.totalWeight (w₀ X).cfg.consensusNodeList = Config.totalWeight g.consensusNodeList := by
      rw [hlist, Config.totalWeight_sortNodes]
    exact ⟨hlist, hT ▸ hco.exact (by omega) (by omega), hindex⟩
  have hweight : ∀ {X}, g.Honest X → ∀ i, (w X).cfg.weightAt i =
      Quorum.weightAt (fun n => n.weight.toNat) (Config.sortNodes E g.consensusNodeList) i := by
    intro X hX i
    rw [(hrun.sound hpb hinit hX).2.weightAt, Config.weightAt, (hstart hX).1]
  -- a pushed proposal has a quorum of honest votes behind it
  have hquorum : ∀ {X p}, g.Honest X → (w X).Pushes p → ∃ S : Finset IndexType,
      Quorum.minRequired (Config.totalWeight g.consensusNodeList) ≤
        ∑ Y ∈ S, Quorum.weightAt (fun n => n.weight.toNat) (Config.sortNodes E g.consensusNodeList) Y.toNat ∧
      ∀ Y ∈ S, Y ∉ g.faulty → g.Honest Y ∧ Voted E (w Y) p.index p.hash := by
    intro X p hX hp
    obtain ⟨hsound, hsame⟩ := hrun.sound hpb hinit hX
    obtain ⟨hlist, hexact, hself⟩ := hstart hX
    obtain ⟨S, hS, hbacked⟩ := hsound.pushes p hp
    rw [hsame.required, hexact.required] at hS
    simp only [hweight hX] at hS
    refine ⟨S, hS, fun Y hY hgood => ?_⟩
    obtain ⟨hlen, hb⟩ := hbacked Y hY
    rw [hsame.list, hlist, Config.sortNodes, List.length_insertionSort] at hlen
    refine ⟨⟨hlen, hgood⟩, ?_⟩
    rcases hb with hb | ⟨hYX, hv⟩
    · exact hb ⟨hlen, hgood⟩
    · rw [hsame.nodeIndex, hself] at hYX
      rw [hYX]
      exact hv
  intro X Y p q hX hY hp hq hindex
  obtain ⟨S, hS, hvotes⟩ := hquorum hX hp
  obtain ⟨S', hS', hvotes'⟩ := hquorum hY hq
  have hB : ∑ Z ∈ g.faulty, Quorum.weightAt (fun n => n.weight.toNat) (Config.sortNodes E g.consensusNodeList) Z.toNat ≤
      Quorum.maxFaulty (Config.totalWeight g.consensusNodeList) := by
    have hle := hfaulty X hX
    rw [(hstart hX).2.1.faulty] at hle
    simp only [Config.weightAt, (hstart hX).1] at hle
    exact hle
  refine Quorum.eq_of_quorums (P := fun Z hash => g.Honest Z ∧ Voted E (w Z) p.index hash) _ hpos ?_ hS hS' hB
    hvotes (fun Z hZ hgood => hindex ▸ hvotes' Z hZ hgood) (fun Z _ _ hv hv' => ?_)
  · rw [← Config.totalWeight_sortNodes E]
    exact Quorum.sum_weightAt_le_of_injective _ (fun _ _ => UInt64.toNat_inj.1) _ _
  · -- an honest node has precommitted one hash at the index
    have hsound := (hrun.sound hpb hinit hv.1).1
    obtain ⟨m, hm, hash_eq⟩ := hsound.votes _ _ hv.2
    obtain ⟨m', hm', hash_eq'⟩ := hsound.votes _ _ hv'.2
    rw [← hash_eq, ← hash_eq']
    exact hsound.unique _ m m' hm hm'

theorem Run.foldlM {ok : World → IndexType → Event → Prop} {X : IndexType} (hX : g.Honest X)
    {check : Node → Event → Bool} {l : List Event} {s t : Node}
    (hok : ∀ e ∈ l, ∀ u, check u e = true → ok (Function.update w X u) X e)
    (hw : g.Run E ok w₀ (Function.update w X t))
    (hs : l.foldlM (fun u e => if check u e then BcosPbft.step E u e else none) t = some s) :
    g.Run E ok w₀ (Function.update w X s) := by
  induction l generalizing t with
  | nil =>
    obtain rfl : t = s := by simpa using hs
    exact hw
  | cons e l ih =>
    rw [List.foldlM_cons] at hs
    obtain ⟨u, hu, hs⟩ := Option.bind_eq_some_iff.1 hs
    split at hu
    · rename_i hcheck
      refine ih (fun e' he' => hok e' (List.mem_cons_of_mem e he')) ?_ hs
      have hstep : BcosPbft.step E (Function.update w X t X) e = some u := by
        rw [Function.update_self]
        exact hu
      have hrun := hw.step hX (hok e List.mem_cons_self t hcheck) hstep
      rwa [Function.update_idem] at hrun
    · cases hu

/-- The votes that an event brings in the name of honest nodes are ones that they have signed, as what they are
delivered as, and have the hash of nothing else they have signed. -/
def Genuine (g : Group) (E : Env) (w : World) (e : Event) : Prop :=
  ∀ m ∈ e.vote E, g.Honest m.generatedFrom →
    SignRecord.hashFields m.packetType m.raw.hashFieldsData ∈ (w m.generatedFrom).signed ∧
    ∀ r ∈ (w m.generatedFrom).signed, ∀ data ∈ r.fields, E.crypto.hash data = E.crypto.hash m.raw.hashFieldsData →
      data = m.raw.hashFieldsData

instance (g : Group) (E : Env) (w : World) (e : Event) : Decidable (g.Genuine E w e) :=
  inferInstanceAs (Decidable (∀ m ∈ e.vote E, _ → _ ∧ _))

theorem Genuine.admits {e : Event} (h : g.Genuine E w e) (hnodes : ∀ l, e ≠ .finalized l) (hsync : ∀ l, e ≠ .newBlock l) :
    g.Admits E w e where
  nodes l hl := absurd hl (hnodes l)
  noSync := hsync
  unforgeable m hm hspeaks := ⟨_, (h m hm hspeaks.1).1, (vote_decode hm).1.symm⟩
  collisionFree m hm hspeaks _ data hmem := (h m hm hspeaks.1).2 _ hmem data rfl

theorem Genuine.clean {X : IndexType} {e : Event} (h : g.Genuine E w e)
    (hstored : ∀ m ∈ e.stores (w X), (w X).checkPrePrepareMsg m = true →
      m.Matches ∧ Action.eraseCache m.index ∉ (w X).log) : g.Clean E w X e where
  stored := hstored
  commits m hm htype hspeaks _ := by
    have hmem := (h m hm hspeaks.1).1
    rw [htype] at hmem
    exact ⟨_, hmem, (vote_decode hm).1.symm⟩

/-- Node 1 of three, which leads at index 1, is faulty. -/
def toy : Group := { consensusNodeList := Toy.nodes [1, 1, 2], faulty := {1} }

def toyWorld : World := fun X => Toy.node (UInt8.ofNat X.toNat) [1, 1, 2]

theorem toy_honest {X : IndexType} : toy.Honest X ↔ X = 0 ∨ X = 2 := by
  constructor
  · rintro ⟨hlen, hgood⟩
    have hne : X ≠ 1 := by simpa [toy] using hgood
    have hlt : X.toNat < 3 := hlen
    simp only [ne_eq, ← UInt64.toNat_inj] at hne ⊢
    have h0 : (0 : UInt64).toNat = 0 := rfl
    have h1 : (1 : UInt64).toNat = 1 := rfl
    have h2 : (2 : UInt64).toNat = 2 := rfl
    omega
  · rintro (rfl | rfl) <;> decide

theorem toy_initial : toy.Initial Toy.env toyWorld := by
  intro X hX
  rcases toy_honest.1 hX with rfl | rfl
  · refine ⟨Toy.keyPair 0, { blockNumber := 0, hash := zeroHash, consensusNodeList := Toy.nodes [1, 1, 2] }, [], ?_, rfl, ?_,
      le_rfl, by simp⟩
    · decide +kernel
    · decide +kernel
  · refine ⟨Toy.keyPair 2, { blockNumber := 0, hash := zeroHash, consensusNodeList := Toy.nodes [1, 1, 2] }, [], ?_, rfl, ?_,
      le_rfl, by simp⟩
    · decide +kernel
    · decide +kernel

def toyPrePrepare (named content : UInt8) : Bytes :=
  let m := populatePrePrepare .PrePreparePacket (Toy.proposal content) 0 0 0 1
  (PBFTCodec.encode Toy.env (Toy.keyPair 1) 0
    (.pbft { m with base := { m.base with hash := (Toy.proposal named).hash.val } })).1

def toyBallot (t : PacketType) (sender content : UInt8) : Event :=
  .receive [sender] (PBFTCodec.encode Toy.env (Toy.keyPair sender) 0 (.pbft (populateVote Toy.env (Toy.keyPair sender) t 0 0 0
    sender.toNat.toUInt64 (Toy.proposal content)))).1 []

def toyEvents (prePrepare : Bytes) (senders : List UInt8) : List Event :=
  Toy.atOnce ([.receive [1] prePrepare [], .worker, .proposalVerified 0 (.result true)] ++
    senders.flatMap (fun b => [toyBallot .PreparePacket b 8, .worker]) ++
    senders.flatMap (fun b => [toyBallot .CommitPacket b 8, .worker]))

def storesClean (s : Node) (e : Event) : Bool :=
  decide (∀ m ∈ e.stores s, s.checkPrePrepareMsg m = true → m.Matches ∧ Action.eraseCache m.index ∉ s.log)

def toySecond : Option Node :=
  (toyEvents (toyPrePrepare 8 8) [1]).foldlM (fun s e => if storesClean s e then step Toy.env s e else none) (toyWorld 2)

def toyFirst (check : Node → Event → Bool) (content : UInt8) : Option Node :=
  (toyEvents (toyPrePrepare 8 content) [2, 1]).foldlM (fun s e => if check s e then step Toy.env s e else none)
    (toyWorld 0)

def pushesAt (s : Node) (hash : HashType) : Bool :=
  s.log.any fun a =>
    match a with
    | .reportCommit c _ =>
      (c.precommit.bind PBFTMessage.consensusProposal).any (fun p => p.index = 1 && p.hash = hash)
    | _ => false

theorem pushes_of_pushesAt {s : Node} {hash : HashType} (h : pushesAt s hash = true) :
    ∃ p, s.Pushes p ∧ p.index = 1 ∧ p.hash = hash := by
  obtain ⟨a, ha, hmatch⟩ := List.any_eq_true.1 h
  split at hmatch
  · rename_i c quorum
    obtain ⟨p, hp, hp'⟩ := (Option.any_eq_true _ _).1 hmatch
    simp only [Bool.and_eq_true, decide_eq_true_eq] at hp'
    exact ⟨p, ⟨c, quorum, ha, hp⟩, hp'⟩
  · cases hmatch

theorem toySecond_pushes : ∃ b, toySecond = some b ∧ pushesAt b (Toy.proposal 8).hash = true :=
  Toy.exists_of_elim (by decide +kernel)

theorem toySecond_votes : ∀ e ∈ toyEvents (toyPrePrepare 8 8) [1], ∀ m ∈ e.vote Toy.env, m.generatedFrom = 1 := by
  decide +kernel

theorem toyFirst_votes {content : UInt8} {b : Node} (hb : toySecond = some b) (hcontent : content = 7 ∨ content = 8) :
    ∀ e ∈ toyEvents (toyPrePrepare 8 content) [2, 1],
      toy.Genuine Toy.env (fun _ => b) e ∧ ∀ m ∈ e.vote Toy.env, m.generatedFrom ≠ 0 := by
  have h : (toySecond.elim false fun b => [7, 8].all fun content => decide (∀ e ∈ toyEvents (toyPrePrepare 8 content) [2, 1],
      toy.Genuine Toy.env (fun _ => b) e ∧ ∀ m ∈ e.vote Toy.env, m.generatedFrom ≠ 0)) = true := by decide +kernel
  simp only [hb, Option.elim_some, List.all_eq_true, decide_eq_true_eq] at h
  refine h content ?_
  rcases hcontent with rfl | rfl <;> simp

theorem toyEvents_local {prePrepare : Bytes} {senders : List UInt8} {e : Event} (he : e ∈ toyEvents prePrepare senders) :
    (∀ l, e ≠ .finalized l) ∧ ∀ l, e ≠ .newBlock l := by
  refine Toy.of_atOnce (P := fun e => (∀ l, e ≠ .finalized l) ∧ ∀ l, e ≠ .newBlock l) (fun e he => ?_) ⟨nofun, nofun⟩
    ⟨nofun, nofun⟩ ⟨nofun, nofun⟩ (fun _ _ => ⟨nofun, nofun⟩) e he
  simp only [toyBallot, List.mem_append, List.mem_cons, List.not_mem_nil, or_false, List.mem_flatMap] at he
  rcases he with ((rfl | rfl | rfl) | ⟨b, -, rfl | rfl⟩) | ⟨b, -, rfl | rfl⟩ <;> exact ⟨nofun, nofun⟩

/-- Both nodes run, node 2 first; `ok` follows from what is delivered and from the check before each step. -/
theorem toy_run {ok : World → IndexType → Event → Prop} {check : Node → Event → Bool} {content : UInt8} {a b : Node}
    (hcontent : content = 7 ∨ content = 8) (hb : toySecond = some b) (ha : toyFirst check content = some a)
    (hok : ∀ w X e, toy.Genuine Toy.env w e → (∀ l, e ≠ .finalized l) → (∀ l, e ≠ .newBlock l) →
      X = 2 ∧ storesClean (w X) e = true ∨ check (w X) e = true → ok w X e) :
    toy.Run Toy.env ok toyWorld (Function.update (Function.update toyWorld 2 b) 0 a) := by
  have hsecond : toy.Run Toy.env ok toyWorld (Function.update toyWorld 2 b) := by
    refine Run.foldlM (toy_honest.2 (Or.inr rfl)) (fun e he u hcheck => ?_) ?_ hb
    · refine hok _ 2 e ?_ (toyEvents_local he).1 (toyEvents_local he).2 (Or.inl ⟨rfl, ?_⟩)
      · intro m hm hhonest
        rw [toySecond_votes e he m hm] at hhonest
        exact absurd hhonest (by decide)
      · rw [Function.update_self]
        exact hcheck
    · rw [Function.update_eq_self]
      exact .refl
  refine Run.foldlM (toy_honest.2 (Or.inl rfl)) (fun e he u hcheck => ?_) (t := toyWorld 0) ?_ ha
  · obtain ⟨hgenuine, hsender⟩ := toyFirst_votes hb hcontent e he
    refine hok _ 0 e ?_ (toyEvents_local he).1 (toyEvents_local he).2 (Or.inr ?_)
    · intro m hm hhonest
      rcases toy_honest.1 hhonest with hzero | htwo
      · exact absurd hzero (hsender m hm)
      · rw [htwo]
        exact hgenuine m hm hhonest
    · rw [Function.update_self]
      exact hcheck
  · have hzero : Function.update toyWorld 2 b 0 = toyWorld 0 := Function.update_of_ne (by decide) _ _
    rw [← hzero, Function.update_eq_self]
    exact hsecond

theorem toy_weights : 1 ≤ Config.totalWeight toy.consensusNodeList ∧ Config.totalWeight toy.consensusNodeList < 2 ^ 64 ∧
    ∀ X, toy.Honest X → ∑ Y ∈ toy.faulty, (toyWorld X).cfg.weightAt Y.toNat ≤ (toyWorld X).cfg.maxFaultyQuorum.toNat := by
  refine ⟨by decide, by decide, fun X hX => ?_⟩
  rcases toy_honest.1 hX with rfl | rfl <;> decide +kernel

/-- Both honest nodes push block 8. -/
theorem toy_agrees : ∃ w p q, (w 0).Pushes p ∧ (w 2).Pushes q ∧ p.index = q.index ∧ toy.Agrees w ∧
    toy.Run Toy.env (fun w X e => toy.Admits Toy.env w e ∧ toy.Clean Toy.env w X e) toyWorld w := by
  obtain ⟨b, hb, hpushb⟩ := toySecond_pushes
  obtain ⟨a, ha, hpusha⟩ : ∃ a, toyFirst storesClean 8 = some a ∧ pushesAt a (Toy.proposal 8).hash = true :=
    Toy.exists_of_elim (by decide +kernel)
  obtain ⟨q, hq, hqi, -⟩ := pushes_of_pushesAt hpushb
  obtain ⟨p, hp, hpi, -⟩ := pushes_of_pushesAt hpusha
  have hrun : toy.Run Toy.env (fun w X e => toy.Admits Toy.env w e ∧ toy.Clean Toy.env w X e) toyWorld
      (Function.update (Function.update toyWorld 2 b) 0 a) := by
    refine toy_run (Or.inr rfl) hb ha (fun w X e hgenuine hnodes hsync hcheck => ?_)
    refine ⟨hgenuine.admits hnodes hsync, hgenuine.clean ?_⟩
    rcases hcheck with ⟨-, hcheck⟩ | hcheck <;> exact of_decide_eq_true hcheck
  obtain ⟨hpos, hmax, hfaulty⟩ := toy_weights
  refine ⟨_, p, q, ?_, ?_, hpi.trans hqi.symm,
    ordering_agreement Toy.protobuf_lawful.baseMessage hpos hmax hfaulty toy_initial hrun, hrun⟩
  · exact hp
  · exact hq

/-- Node 0 gets block 7 in a pre-prepare that names the hash of block 8 and pushes it on the votes for block 8. -/
theorem toy_disagrees : toy.Initial Toy.env toyWorld ∧
    (∀ X, toy.Honest X → ∑ Y ∈ toy.faulty, (toyWorld X).cfg.weightAt Y.toNat ≤ (toyWorld X).cfg.maxFaultyQuorum.toNat) ∧
    ∃ w, toy.Run Toy.env (fun w _ e => toy.Admits Toy.env w e) toyWorld w ∧ ¬toy.Agrees w := by
  obtain ⟨b, hb, hpushb⟩ := toySecond_pushes
  obtain ⟨a, ha, hpusha⟩ : ∃ a, toyFirst (fun _ _ => true) 7 = some a ∧ pushesAt a (Toy.proposal 7).hash = true :=
    Toy.exists_of_elim (by decide +kernel)
  obtain ⟨q, hq, hqi, hqh⟩ := pushes_of_pushesAt hpushb
  obtain ⟨p, hp, hpi, hph⟩ := pushes_of_pushesAt hpusha
  refine ⟨toy_initial, toy_weights.2.2, _, toy_run (Or.inl rfl) hb ha (fun w X e hgenuine hnodes hsync _ =>
    hgenuine.admits hnodes hsync), fun hagrees => ?_⟩
  have heq := hagrees 0 2 p q (toy_honest.2 (Or.inl rfl)) (toy_honest.2 (Or.inr rfl)) hp hq (hpi.trans hqi.symm)
  rw [hph, hqh] at heq
  exact absurd heq (by decide +kernel)

end Group

end BcosPbft
