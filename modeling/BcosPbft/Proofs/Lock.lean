import BcosPbft.Proofs.Effects
import BcosPbft.Proofs.Handlers
import BcosPbft.Spec.Toy

/-! The precommit lock. A step either keeps the index, the pre-prepare and the precommit of every cache, or it
stores a pre-prepare, enters the precommit phase, reports a commit or erases caches; the hash that is locked at
an index is read off the log. -/

namespace BcosPbft

def PBFTMessage.content (m : PBFTMessage) : BaseMessage × Option PBFTProposal := (m.base, m.consensusProposal)

namespace PBFTCache

/-- The index, the pre-prepare and the precommit stay, up to the encoded form of the messages. -/
structure Keeps (c c' : PBFTCache) : Prop where
  index : c'.index = c.index
  prePrepare : c'.prePrepare.map PBFTMessage.content = c.prePrepare.map PBFTMessage.content
  precommit : c'.precommit.map PBFTMessage.content = c.precommit.map PBFTMessage.content

theorem Keeps.refl (c : PBFTCache) : c.Keeps c := ⟨rfl, rfl, rfl⟩

theorem content_eq {o o' : Option PBFTMessage} {m' : PBFTMessage}
    (h : o'.map PBFTMessage.content = o.map PBFTMessage.content) (hm : o' = some m') :
    ∃ m, o = some m ∧ m'.base = m.base ∧ m'.consensusProposal = m.consensusProposal := by
  rw [hm, Option.map_some] at h
  obtain ⟨m, hm, hc⟩ := Option.map_eq_some_iff.1 h.symm
  obtain ⟨hb, hp⟩ := Prod.mk.inj hc
  exact ⟨m, hm, hb.symm, hp.symm⟩

theorem Keeps.prePrepare_eq {c c' : PBFTCache} (h : c.Keeps c') {m' : PBFTMessage} (hm : c'.prePrepare = some m') :
    ∃ m, c.prePrepare = some m ∧ m'.base = m.base ∧ m'.consensusProposal = m.consensusProposal :=
  content_eq h.prePrepare hm

theorem Keeps.precommit_eq {c c' : PBFTCache} (h : c.Keeps c') {m' : PBFTMessage} (hm : c'.precommit = some m') :
    ∃ m, c.precommit = some m ∧ m'.base = m.base ∧ m'.consensusProposal = m.consensusProposal :=
  content_eq h.precommit hm

theorem Keeps.symm {c c' : PBFTCache} (h : c.Keeps c') : c'.Keeps c :=
  ⟨h.index.symm, h.prePrepare.symm, h.precommit.symm⟩

theorem resetCache_keeps (cfg : Config) (c : PBFTCache) (v : ViewType) : c.Keeps (c.resetCache cfg v).1 :=
  ⟨rfl, rfl, rfl⟩

theorem setCheckPointProposal_keeps (cfg : Config) (c : PBFTCache) (p : PBFTProposal) :
    c.Keeps (c.setCheckPointProposal cfg p) := by
  unfold setCheckPointProposal
  split_ifs
  · exact .refl c
  · exact .refl c
  · exact ⟨rfl, rfl, rfl⟩

theorem checkAndCommitStableCheckPoint_keeps (cfg : Config) (c : PBFTCache) :
    c.Keeps (c.checkAndCommitStableCheckPoint cfg).1 := by
  unfold checkAndCommitStableCheckPoint
  split
  · exact .refl c
  · split
    · exact .refl c
    · exact ⟨rfl, rfl, rfl⟩

theorem reencode_keeps (E : Env) (keyPair : KeyPair) (c : PBFTCache) : c.Keeps (c.reencode E keyPair) := by
  refine ⟨rfl, ?_, ?_⟩
  · simp only [reencode, Option.map_map]
    rfl
  · simp only [reencode]
    split
    · rw [Option.map_map]
      rfl
    · rfl

theorem checkAndCommit_keeps (cfg : Config) (c : PBFTCache) : c.Keeps (c.checkAndCommit cfg).1 := by
  unfold checkAndCommit
  split_ifs
  · exact .refl c
  · exact .refl c
  · exact .refl c
  · exact ⟨rfl, rfl, rfl⟩

end PBFTCache

def Action.lockFree : Action → Bool
  | .storePrePrepare _ _ | .precommit _ _ | .reportCommit _ _ | .eraseCache _ => false
  | _ => true

theorem Action.lockFree_of_neutral {a : Action} (h : a.neutral = true) : a.lockFree = true := by
  cases a <;> first | rfl | cases h

structure Kept (s t : Node) : Prop where
  find : ∀ i c', t.caches.find? i = some c' → ((s.caches.find? i).getD { index := i }).Keeps c'
  stays : ∀ i c, s.caches.find? i = some c → ∃ c', t.caches.find? i = some c'
  log : ∃ l, t.log = s.log ++ l ∧ ∀ a ∈ l, a.lockFree = true

theorem Kept.insert {s : Node} {i : Int} {c c' : PBFTCache} (hc : s.caches.find? i = some c) (hkeeps : c.Keeps c')
    {l : List Action} (hl : ∀ a ∈ l, a.lockFree = true) :
    Kept s ({ s with caches := s.caches.insert i c' }.emit l) where
  find j d hd := by
    change (s.caches.insert i c').find? j = some d at hd
    rw [OrdMap.find?_insert] at hd
    split_ifs at hd with hj
    · subst hj
      obtain rfl := Option.some.inj hd
      rw [hc]
      exact hkeeps
    · rw [hd]
      exact .refl d
  stays j d hd := by
    change ∃ c₁, (s.caches.insert i c').find? j = some c₁
    rw [OrdMap.find?_insert]
    split_ifs
    · exact ⟨c', rfl⟩
    · exact ⟨d, hd⟩
  log := ⟨l, rfl, hl⟩

theorem sendActions_lockFree {E : Env} {keyPair : KeyPair} {dst : Option NodeID} {msg : Message} :
    ∀ a ∈ sendActions E keyPair dst msg, a.lockFree = true := by
  intro a ha
  simp only [sendActions, List.mem_append, List.mem_map, List.mem_singleton] at ha
  rcases ha with ⟨r, -, rfl⟩ | rfl <;> rfl

theorem mem_precommitActions {E : Env} {cfg : Config} {now : Int} {c : PBFTCache} {m : PBFTMessage} {p : PBFTProposal}
    {a : Action} (h : a ∈ c.precommitActions E cfg now m p) : a = .precommit c.index m ∨ a.lockFree = true := by
  rcases List.mem_cons.1 h with rfl | h
  · exact Or.inl rfl
  rcases List.mem_cons.1 h with rfl | h
  · exact Or.inr rfl
  · exact Or.inr (sendActions_lockFree a h)

theorem voteActions_lockFree {E : Env} {s : Node} {m : PBFTMessage} : ∀ a ∈ voteActions E s m, a.lockFree = true := by
  intro a ha
  rcases List.mem_cons.1 ha with rfl | ha
  · rfl
  · exact sendActions_lockFree a ha

theorem checkPointActions_lockFree {E : Env} {s : Node} {p : PBFTProposal} :
    ∀ a ∈ checkPointActions E s p, a.lockFree = true := by
  intro a ha
  rcases List.mem_cons.1 ha with rfl | ha
  · rfl
  · exact sendActions_lockFree a ha

theorem announceActions_lockFree {E : Env} {s : Node} {r : Applied} :
    ∀ a ∈ announceActions E s r, a.lockFree = true := by
  intro a ha
  rcases List.mem_cons.1 ha with rfl | ha
  · rfl
  · exact checkPointActions_lockFree a ha

def Label.keeping : Label → Bool
  | .store _ | .preCommit | .submit | .erase => false
  | _ => true

theorem CacheStep.keeps {E : Env} {cfg : Config} {now i : Int} {l : Label} {c c' : PBFTCache}
    (h : CacheStep E cfg now l i c c') (hl : l.keeping = true) : c.Keeps c' := by
  cases h with
  | same => exact .refl c
  | store m _ h => cases hl
  | vote m => exact ⟨rfl, rfl, rfl⟩
  | prepare m => exact ⟨rfl, rfl, rfl⟩
  | commit m => exact ⟨rfl, rfl, rfl⟩
  | checkPoint own m => exact ⟨rfl, rfl, rfl⟩
  | preCommit => cases hl
  | submit => cases hl
  | reset v => exact c.resetCache_keeps cfg v
  | stable => exact c.checkAndCommitStableCheckPoint_keeps cfg
  | reencode => exact c.reencode_keeps E cfg.keyPair
  | setCheckPoint p => exact c.setCheckPointProposal_keeps cfg p

def PBFTCache.Carries (P : Int → HashType → RawProposal → Prop) (c : PBFTCache) : Prop :=
  ∀ m p, c.prePrepare = some m ∨ c.precommit = some m → m.consensusProposal = some p → P m.index m.hash p.proposal

section

variable {P : Int → HashType → RawProposal → Prop} {c c' : PBFTCache}

theorem PBFTCache.Carries.empty (i : Int) : PBFTCache.Carries P { index := i } := by
  intro m p hm
  rcases hm with hm | hm <;> cases hm

theorem PBFTCache.Keeps.carries (hk : c.Keeps c') (h : c.Carries P) : c'.Carries P := by
  have hsame : ∀ {m m' : PBFTMessage} {p : PBFTProposal}, m'.base = m.base → P m.index m.hash p.proposal →
      P m'.index m'.hash p.proposal := fun hbase hP => by
    simpa only [PBFTMessage.index, PBFTMessage.hash, hbase] using hP
  intro m' p hm' hp
  rcases hm' with hm' | hm'
  · obtain ⟨m, hm, hbase, hproposal⟩ := hk.prePrepare_eq hm'
    exact hsame hbase (h m p (Or.inl hm) (hproposal ▸ hp))
  · obtain ⟨m, hm, hbase, hproposal⟩ := hk.precommit_eq hm'
    exact hsame hbase (h m p (Or.inr hm) (hproposal ▸ hp))

theorem PBFTCache.Carries.enterPrecommit {E : Env} {cfg : Config} {now : Int} {m : PBFTMessage} {p : PBFTProposal}
    (h : c.Carries P) (hm : c.prePrepare = some m) (hp : m.consensusProposal = some p) :
    (c.enterPrecommit E cfg now m p).Carries P := by
  have hnew := h m p (Or.inl hm) hp
  rw [← setSignatureList_proposal p c.prepareCacheList] at hnew
  intro m' p' hm' hp'
  rcases hm' with hm' | hm'
  · obtain rfl := Option.some.inj hm'
    obtain rfl := Option.some.inj hp'
    exact hnew
  · obtain rfl := Option.some.inj hm'
    obtain rfl := Option.some.inj hp'
    exact hnew

theorem CacheStep.carries {E : Env} {cfg : Config} {now i : Int} {l : Label} (h : CacheStep E cfg now l i c c')
    (hc : c.Carries P) (hl : ∀ m p, l = .store m → m.consensusProposal = some p → P m.index m.hash p.proposal) :
    c'.Carries P := by
  by_cases hkeeping : l.keeping = true
  · exact (h.keeps hkeeping).carries hc
  · cases h with
    | same => exact hc
    | store m =>
      intro m' p hm' hp
      rcases hm' with hm' | hm'
      · obtain rfl := Option.some.inj hm'
        exact hl m p rfl hp
      · exact hc m' p (Or.inr hm') hp
    | preCommit =>
      rcases c.checkAndPreCommit_cases E cfg now with heq | ⟨m, p, hm, hp, -, -, -, heq⟩
      · rw [heq]
        exact hc
      · rw [heq]
        exact (PBFTCache.checkAndCommit_keeps cfg _).carries (hc.enterPrecommit hm hp)
    | submit => exact (c.checkAndCommit_keeps cfg).carries hc
    | _ => exact absurd rfl hkeeping

theorem Prim.carries {E : Env} {l : Label} {s t : Node} (h : Prim E l s t)
    (hs : ∀ i c, s.caches.find? i = some c → c.Carries P)
    (hl : ∀ m p, l = .store m → m.consensusProposal = some p → P m.index m.hash p.proposal) {i : Int}
    (hc' : t.caches.find? i = some c') : c'.Carries P := by
  refine (h.cacheStep hc').carries ?_ hl
  cases hc : s.caches.find? i with
  | none => exact .empty i
  | some c => exact hs i c hc

end

theorem Emits.lockFree {E : Env} {s : Node} {l : Label} {a : Action} (h : Emits E s l a) (hl : l.keeping = true) :
    a.lockFree = true := by
  cases h with
  | neutral _ h => exact Action.lockFree_of_neutral h
  | vote ha => exact voteActions_lockFree a ha
  | push source p => rfl
  | apply lastApplied p => rfl
  | announce h hs ha => exact announceActions_lockFree a ha
  | resend hc hp ha => exact checkPointActions_lockFree a ha
  | popStable h => rfl
  | newView h ha => exact sendActions_lockFree a ha
  | sendViewChange ha => exact sendActions_lockFree a ha
  | dropViewChanges view i => rfl
  | clearTables => rfl
  | _ => cases hl

theorem Prim.kept {E : Env} {l : Label} {s t : Node} (h : Prim E l s t) (hl : l.keeping = true) : Kept s t where
  find i c' hc' := (h.cacheStep hc').keeps hl
  stays i c hc := h.stays (by rintro rfl; cases hl) hc
  log := by
    obtain ⟨k, hk, hemits⟩ := h.log
    exact ⟨k, hk, fun a ha => (hemits a ha).lockFree hl⟩

theorem Prim.erased {E : Env} {l : Label} {s t : Node} (h : Prim E l s t) {i : Int}
    (hmem : Action.eraseCache i ∈ t.log) :
    Action.eraseCache i ∈ s.log ∨ l = .erase ∧ t.caches.find? i = none := by
  obtain ⟨k, hk, hemits⟩ := h.log
  rw [hk] at hmem
  rcases List.mem_append.1 hmem with hmem | hmem
  · exact Or.inl hmem
  cases hemits _ hmem with
  | neutral _ hn => cases hn
  | erase =>
    cases h with
    | erase _ keep hgone hg hn =>
      have hlist := List.append_cancel_left hk
      exact Or.inr ⟨rfl, hg i (by rw [hlist]; exact hmem)⟩
  | preCommit hc hm hp henough ha =>
    rcases mem_precommitActions ha with heq | hfree
    · cases heq
    · cases hfree
  | vote ha => cases voteActions_lockFree _ ha
  | announce h hs ha => cases announceActions_lockFree _ ha
  | resend hc hp ha => cases checkPointActions_lockFree _ ha
  | newView h ha => cases sendActions_lockFree _ ha
  | sendViewChange ha => cases sendActions_lockFree _ ha

def lockStep (i : Int) (locked : Option HashType) : Action → Option HashType
  | .precommit j m => if j = i then some m.hash else locked
  | .eraseCache j => if j = i then none else locked
  | _ => locked

/-- The hash that a log locks at an index: that of the last precommit, if its cache was not erased since. -/
def lockedAt (i : Int) (log : List Action) : Option HashType := log.foldl (lockStep i) none

theorem lockedAt_append (i : Int) (log l : List Action) :
    lockedAt i (log ++ l) = l.foldl (lockStep i) (lockedAt i log) := List.foldl_append

theorem lockStep_of_lockFree {i : Int} {locked : Option HashType} {a : Action} (h : a.lockFree = true) :
    lockStep i locked a = locked := by
  cases a <;> first | rfl | cases h

theorem lockedAt_append_lockFree {i : Int} {log l : List Action} (hl : ∀ a ∈ l, a.lockFree = true) :
    lockedAt i (log ++ l) = lockedAt i log := by
  rw [lockedAt_append]
  induction l generalizing log with
  | nil => rfl
  | cons a l ih =>
    rw [List.foldl_cons, lockStep_of_lockFree (hl a List.mem_cons_self)]
    exact ih (fun b hb => hl b (List.mem_cons_of_mem a hb))

/-- Erasing caches unlocks their indices and no others. -/
theorem lockedAt_append_erase {i : Int} {log l : List Action} {h : HashType}
    (hl : ∀ a ∈ l, a.neutral = true ∨ ∃ j, a = .eraseCache j) (hlock : lockedAt i (log ++ l) = some h) :
    Action.eraseCache i ∉ l ∧ lockedAt i log = some h := by
  induction l using List.reverseRecOn with
  | nil =>
    rw [List.append_nil] at hlock
    exact ⟨List.not_mem_nil, hlock⟩
  | append_singleton l a ih =>
    rw [← List.append_assoc, lockedAt_append, List.foldl_cons, List.foldl_nil] at hlock
    have hl' : ∀ b ∈ l, b.neutral = true ∨ ∃ j, b = .eraseCache j := fun b hb =>
      hl b (List.mem_append_left _ hb)
    have hne : a ≠ .eraseCache i := by
      rintro rfl
      simp [lockStep] at hlock
    have hold : lockedAt i (log ++ l) = some h := by
      rcases hl a (List.mem_append_right _ List.mem_cons_self) with hn | ⟨j, rfl⟩
      · rwa [lockStep_of_lockFree (Action.lockFree_of_neutral hn)] at hlock
      · have hj : j ≠ i := fun hj => hne (by rw [hj])
        simpa [lockStep, hj] using hlock
    obtain ⟨hmem, hlog⟩ := ih hl' hold
    refine ⟨fun hmem' => ?_, hlog⟩
    rcases List.mem_append.1 hmem' with hmem' | hmem'
    · exact hmem hmem'
    · exact hne (List.mem_singleton.1 hmem').symm

/-- The precommit, the pre-prepare and the tally that reached the quorum are about one hash. -/
def Agreed (c : PBFTCache) (quorum : UInt64) (h : HashType) : Prop :=
  c.precommit.map PBFTMessage.hash = some h ∧ c.prePrepare.map PBFTMessage.hash = some h ∧
    ∃ w, c.commitReqWeight.find? h = some w ∧ quorum ≤ w

/-- An action that agrees with the hashes locked before it. -/
def Respects (locked : Int → Option HashType) : Action → Prop
  | .storePrePrepare i m | .precommit i m => ∀ h, locked i = some h → m.hash = h
  | .reportCommit c quorum => ∃ h, Agreed c quorum h ∧ ∀ h', locked c.index = some h' → h = h'
  | _ => True

theorem respects_of_lockFree {locked : Int → Option HashType} {a : Action} (h : a.lockFree = true) :
    Respects locked a := by
  cases a <;> trivial

def Respectful (log : List Action) : Prop :=
  ∀ l₁ a l₂, log = l₁ ++ a :: l₂ → Respects (fun i => lockedAt i l₁) a

namespace Respectful

theorem nil : Respectful [] := by
  intro l₁ a l₂ h
  simp at h

theorem snoc {log : List Action} {a : Action} (h : Respectful log) (ha : Respects (fun i => lockedAt i log) a) :
    Respectful (log ++ [a]) := by
  intro l₁ b l₂ heq
  rcases List.eq_nil_or_concat l₂ with rfl | ⟨l, x, rfl⟩
  · obtain ⟨rfl, hab⟩ := List.append_inj' heq rfl
    obtain rfl : a = b := by simpa using hab
    exact ha
  · rw [List.concat_eq_append, ← List.cons_append, ← List.append_assoc] at heq
    exact h l₁ b l (List.append_inj' heq rfl).1

theorem append_lockFree {log l : List Action} (h : Respectful log) (hl : ∀ a ∈ l, a.lockFree = true) :
    Respectful (log ++ l) := by
  induction l using List.reverseRecOn with
  | nil => rwa [List.append_nil]
  | append_singleton l a ih =>
    rw [← List.append_assoc]
    refine (ih (fun b hb => hl b (List.mem_append_left _ hb))).snoc ?_
    exact respects_of_lockFree (hl a (List.mem_append_right _ List.mem_cons_self))

theorem append_erase {log l : List Action} (h : Respectful log)
    (hl : ∀ a ∈ l, a.neutral = true ∨ ∃ j, a = .eraseCache j) : Respectful (log ++ l) := by
  induction l using List.reverseRecOn with
  | nil => rwa [List.append_nil]
  | append_singleton l a ih =>
    rw [← List.append_assoc]
    refine (ih (fun b hb => hl b (List.mem_append_left _ hb))).snoc ?_
    rcases hl a (List.mem_append_right _ List.mem_cons_self) with hn | ⟨j, rfl⟩
    · exact respects_of_lockFree (Action.lockFree_of_neutral hn)
    · trivial

end Respectful

/-- A cache filed under index `i`: its pre-prepare is for `i`, and so is its precommit, with the same hash. -/
structure PBFTCache.FiledAt (i : Int) (c : PBFTCache) : Prop where
  index : c.index = i
  prePrepare : ∀ m, c.prePrepare = some m → m.index = i
  precommit : ∀ m, c.precommit = some m → m.index = i ∧ ∃ q, c.prePrepare = some q ∧ q.hash = m.hash

theorem PBFTCache.FiledAt.empty (i : Int) : PBFTCache.FiledAt i { index := i } where
  index := rfl
  prePrepare _ h := by cases h
  precommit _ h := by cases h

theorem PBFTCache.FiledAt.keeps {i : Int} {c c' : PBFTCache} (h : c.FiledAt i) (hk : c.Keeps c') : c'.FiledAt i where
  index := hk.index.trans h.index
  prePrepare m' hm' := by
    obtain ⟨m, hm, hb, -⟩ := hk.prePrepare_eq hm'
    have hi := h.prePrepare m hm
    simp only [PBFTMessage.index, hb] at hi ⊢
    exact hi
  precommit m' hm' := by
    obtain ⟨m, hm, hb, -⟩ := hk.precommit_eq hm'
    obtain ⟨hi, q, hq, hqm⟩ := h.precommit m hm
    obtain ⟨q', hq', hqb, -⟩ := hk.symm.prePrepare_eq hq
    refine ⟨?_, q', hq', ?_⟩
    · simp only [PBFTMessage.index, hb] at hi ⊢
      exact hi
    · simp only [PBFTMessage.hash, hb, ← hqb] at hqm ⊢
      exact hqm

/-- Nothing below the progressed index is let in: once a block with a positive number is committed the expected checkpoint
keeps it out, and before that the low water mark does. -/
structure Config.Grounded (c : Config) : Prop where
  started : 1 ≤ c.progressedIndex
  low : 1 ≤ c.lowWaterMark
  expected : c.progressedIndex = 1 ∨
    0 < c.committedIndex ∧ c.progressedIndex = c.committedIndex + 1 ∧ c.progressedIndex ≤ c.expectedCheckPoint

theorem Config.Grounded.congr {c c' : Config} (hc : c.Grounded) (hcommitted : c'.committedProposal = c.committedProposal)
    (hprogressed : c'.progressedIndex = c.progressedIndex) (hlow : c'.lowWaterMark = c.lowWaterMark)
    (hexpected : c'.expectedCheckPoint = c.expectedCheckPoint) : c'.Grounded := by
  have hindex : c'.committedIndex = c.committedIndex := by rw [committedIndex, hcommitted, ← committedIndex]
  refine ⟨?_, ?_, ?_⟩
  · rw [hprogressed]
    exact hc.started
  · rw [hlow]
    exact hc.low
  · rw [hprogressed, hindex, hexpected]
    exact hc.expected

theorem Config.grounded_of_ledger {c : Config} {b : LedgerConfig} (hb : 1 ≤ c.progressedIndex ∨ 0 ≤ b.blockNumber)
    (hlow : 1 ≤ c.lowWaterMark ∨ 0 ≤ b.blockNumber)
    (hexpected : c.progressedIndex ≤ 1 ∨ c.progressedIndex ≤ b.blockNumber + 1) :
    (c.setCommittedProposal b.proposal).Grounded := by
  have hprogressed : (c.setCommittedProposal b.proposal).progressedIndex =
      if c.progressedIndex < b.blockNumber + 1 then b.blockNumber + 1 else c.progressedIndex := rfl
  have hmark : (c.setCommittedProposal b.proposal).lowWaterMark =
      if b.blockNumber + 1 > c.lowWaterMark then b.blockNumber + 1 else c.lowWaterMark := rfl
  have hcheck : (c.setCommittedProposal b.proposal).expectedCheckPoint =
      if b.blockNumber + 1 > c.expectedCheckPoint then b.blockNumber + 1 else c.expectedCheckPoint := rfl
  have hindex : (c.setCommittedProposal b.proposal).committedIndex = b.blockNumber := rfl
  refine ⟨?_, ?_, ?_⟩
  · rw [hprogressed]
    split_ifs <;> omega
  · rw [hmark]
    split_ifs <;> omega
  · rw [hprogressed, hcheck, hindex]
    split_ifs <;> omega

theorem CfgStep.grounded {E : Env} {l : Label} {c c' : Config} (h : CfgStep E l c c') (hl : l ≠ .lowMark) (hc : c.Grounded) :
    c'.Grounded := by
  cases h with
  | same _ h => exact hc.congr h.committedProposal h.progressedIndex h.lowWaterMark h.expectedCheckPoint
  | view _ hv =>
    unfold Config.resetNewViewState
    split <;> exact hc.congr rfl rfl rfl rfl
  | expect _ i =>
    refine ⟨hc.started, hc.low, hc.expected.imp_right fun ⟨hpos, hprogressed, _⟩ => ⟨hpos, hprogressed, ?_⟩⟩
    exact hprogressed.le.trans (le_max_left _ i)
  | lowMark => exact absurd rfl hl
  | @ledger _ b h =>
    have hexpected := hc.expected
    exact Config.grounded_of_ledger (Or.inl hc.started) (Or.inl hc.low) (by omega)
  | nodes h =>
    obtain ⟨_, _, _, _, _, _, _, rfl⟩ := Config.setConsensusNodeList_frame h
    exact hc.congr rfl rfl rfl rfl
  | _ => exact hc.congr rfl rfl rfl rfl

theorem Prim.grounded {E : Env} {l : Label} {s t : Node} (h : Prim E l s t) (hs : s.cfg.Grounded)
    (hmarks : ∀ i ∈ s.lowMarks, 1 ≤ i) : t.cfg.Grounded ∧ ∀ i ∈ t.lowMarks, 1 ≤ i := by
  refine ⟨?_, fun i hi => (h.lowMarks hi).elim (hmarks i) fun hread => hs.started.trans hread.2⟩
  by_cases hl : l = .lowMark
  · subst hl
    cases h with
    | lowMark _ hi => exact ⟨hs.started, hi.elim (hmarks _) hs.started.trans, hs.expected⟩
  · exact h.cfgStep.grounded hl hs

structure Locks (s : Node) : Prop where
  grounded : s.cfg.Grounded
  marks : ∀ i ∈ s.lowMarks, 1 ≤ i
  filed : ∀ i c, s.caches.find? i = some c → c.FiledAt i
  held : ∀ i h, lockedAt i s.log = some h →
    ∃ c p, s.caches.find? i = some c ∧ c.precommit = some p ∧ p.hash = h
  log : Respectful s.log

namespace Locks

variable {E : Env} {s t : Node}

theorem filed_getD (h : Locks s) (i : Int) : ((s.caches.find? i).getD { index := i }).FiledAt i := by
  cases hc : s.caches.find? i with
  | none => exact .empty i
  | some c => exact h.filed i c hc

theorem kept (h : Locks s) (hk : Kept s t) (hgrounded : t.cfg.Grounded ∧ ∀ i ∈ t.lowMarks, 1 ≤ i) :
    Locks t := by
  obtain ⟨l, hl, hfree⟩ := hk.log
  refine ⟨hgrounded.1, hgrounded.2, fun i c' hc' => (h.filed_getD i).keeps (hk.find i c' hc'), fun i hash hlock => ?_, ?_⟩
  · rw [hl, lockedAt_append_lockFree hfree] at hlock
    obtain ⟨c, p, hc, hp, hash_eq⟩ := h.held i hash hlock
    obtain ⟨c', hc'⟩ := hk.stays i c hc
    have hkeeps := hk.find i c' hc'
    rw [hc, Option.getD_some] at hkeeps
    obtain ⟨p', hp', hb, -⟩ := hkeeps.symm.precommit_eq hp
    refine ⟨c', p', hc', hp', ?_⟩
    simp only [PBFTMessage.hash, ← hb] at hash_eq ⊢
    exact hash_eq
  · rw [hl]
    exact h.log.append_lockFree hfree

theorem update (h : Locks s) {i : Int} {c' : PBFTCache} {l : List Action} (hc' : c'.FiledAt i)
    (hheld : ∀ hash, lockedAt i (s.log ++ l) = some hash → ∃ p, c'.precommit = some p ∧ p.hash = hash)
    (hother : ∀ j, j ≠ i → lockedAt j (s.log ++ l) = lockedAt j s.log) (hlog : Respectful (s.log ++ l)) :
    Locks ({ s with caches := s.caches.insert i c' }.emit l) := by
  refine ⟨h.grounded, h.marks, fun j d hd => ?_, fun j hash hlock => ?_, hlog⟩
  · change (s.caches.insert i c').find? j = some d at hd
    rw [OrdMap.find?_insert] at hd
    split_ifs at hd with hj
    · subst hj
      obtain rfl := Option.some.inj hd
      exact hc'
    · exact h.filed j d hd
  · change lockedAt j (s.log ++ l) = some hash at hlock
    by_cases hj : j = i
    · subst hj
      obtain ⟨p, hp, hash_eq⟩ := hheld hash hlock
      exact ⟨c', p, OrdMap.find?_insert_self _ _ _, hp, hash_eq⟩
    · rw [hother j hj] at hlock
      obtain ⟨c, p, hc, hp, hash_eq⟩ := h.held j hash hlock
      exact ⟨c, p, (OrdMap.find?_insert_ne _ _ hj).trans hc, hp, hash_eq⟩

theorem checkPBFTMsgState_low {m : PBFTMessage} (h : s.checkPBFTMsgState m = true) :
    s.cfg.lowWaterMark ≤ m.index ∧ s.cfg.expectedCheckPoint ≤ m.index := by
  unfold Node.checkPBFTMsgState at h
  split at h
  · cases h
  · split at h
    · cases h
    · rename_i hlow
      simp only [Bool.or_eq_true, decide_eq_true_eq, not_or] at hlow
      omega

theorem checkPrePrepareMsg_spec {m : PBFTMessage} (h : s.checkPrePrepareMsg m = true) :
    s.checkPBFTMsgState m = true ∧ s.conflictWithPrecommitReq m = false := by
  unfold Node.checkPrePrepareMsg at h
  split at h
  · cases h
  split at h
  · cases h
  split at h
  · cases h
  split at h
  · cases h
  · rename_i hstate _ _ hconflict
    exact ⟨by simpa using hstate, by simpa using hconflict⟩

/-- The check of a pre-prepare keeps the lock: a checked message is not below the progressed index, so the
exception for an index that has been passed does not apply to it. -/
theorem checked_hash (h : Locks s) {m : PBFTMessage} (hm : s.checkPrePrepareMsg m = true) {c : PBFTCache}
    {p : PBFTMessage} (hc : s.caches.find? m.index = some c) (hp : c.precommit = some p) : m.hash = p.hash := by
  obtain ⟨hstate, hconflict⟩ := checkPrePrepareMsg_spec hm
  have hwindow := checkPBFTMsgState_low hstate
  have hindex := ((h.filed _ c hc).precommit p hp).1
  have hlow := h.grounded.low
  have hexpected := h.grounded.expected
  have hnot : ¬m.index < s.cfg.progressedIndex := by omega
  simp only [Node.conflictWithPrecommitReq, hc, Option.any_some, PBFTCache.conflictWithPrecommitReq, hp, hindex,
    if_neg hnot, decide_true, Bool.true_and] at hconflict
  simpa using hconflict

theorem store (h : Locks s) {m : PBFTMessage} (hm : s.checkPrePrepareMsg m = true) :
    Locks (s.addCache m (fun c => c.addPrePrepareCache m)) := by
  have hfiled := h.filed_getD m.index
  have hsame : ∀ p, ((s.caches.find? m.index).getD { index := m.index }).precommit = some p → m.hash = p.hash := by
    intro p hp
    cases hc : s.caches.find? m.index with
    | none => simp [hc] at hp
    | some c =>
      rw [hc, Option.getD_some] at hp
      exact h.checked_hash hm hc hp
  have hlocked : ∀ hash, lockedAt m.index s.log = some hash →
      ∃ p, ((s.caches.find? m.index).getD { index := m.index }).precommit = some p ∧ p.hash = hash := by
    intro hash hlock
    obtain ⟨c, p, hc, hp, hash_eq⟩ := h.held _ _ hlock
    exact ⟨p, by rw [hc]; exact hp, hash_eq⟩
  unfold Node.addCache
  generalize (s.caches.find? m.index).getD { index := m.index } = c at hfiled hsame hlocked
  unfold PBFTCache.addPrePrepareCache
  dsimp only
  split
  · have hkeep : ∀ j, lockedAt j (s.log ++ [Action.storePrePrepare c.index m]) = lockedAt j s.log := fun j => by
      rw [lockedAt_append]
      rfl
    refine h.update ⟨hfiled.index, ?_, ?_⟩ ?_ (fun j _ => hkeep j) (h.log.snoc ?_)
    · intro m' hm'
      obtain rfl := Option.some.inj hm'
      rfl
    · intro p hp
      exact ⟨(hfiled.precommit p hp).1, m, rfl, hsame p hp⟩
    · intro hash hlock
      rw [hkeep] at hlock
      exact hlocked hash hlock
    · intro hash hlock
      rw [hfiled.index] at hlock
      obtain ⟨p, hp, hash_eq⟩ := hlocked hash hlock
      exact (hsame p hp).trans hash_eq
  · refine h.update hfiled (fun hash hlock => ?_) (fun j _ => by rw [List.append_nil]) (by rw [List.append_nil]; exact h.log)
    rw [List.append_nil] at hlock
    exact hlocked hash hlock

theorem checkAndCommit_agreed {cfg : Config} {i : Int} {c : PBFTCache} (hc : c.FiledAt i)
    (h : (c.checkAndCommit cfg).2 = true) :
    ∃ p, (c.checkAndCommit cfg).1.precommit = some p ∧
      Agreed (c.checkAndCommit cfg).1 cfg.minRequiredQuorum p.hash := by
  rcases c.checkAndCommit_cases cfg with heq | ⟨heq, hpre, m, w, hm, -, hw, hquorum⟩
  · rw [heq] at h
    cases h
  · obtain ⟨p, hp⟩ := Option.isSome_iff_exists.1 hpre
    obtain ⟨q, hq, hash_eq⟩ := (hc.precommit p hp).2
    obtain rfl : m = q := Option.some.inj (hm.symm.trans hq)
    rw [heq]
    refine ⟨p, hp, ?_⟩
    refine ⟨by simp [hp], by simp [hm, hash_eq], w, ?_, hquorum⟩
    rw [← hash_eq]
    exact hw

theorem reported (h : Locks s) {i : Int} {c : PBFTCache} (hc : s.caches.find? i = some c) {ret : Bool}
    (hret : ret = true → ∃ p, c.precommit = some p ∧ Agreed c s.cfg.minRequiredQuorum p.hash) :
    Locks (s.reported c ret).1 := by
  unfold Node.reported
  split
  · rename_i htrue
    obtain ⟨p, hp, hagreed⟩ := hret htrue
    have hkeep : ∀ j, lockedAt j (s.log ++ [Action.reportCommit c s.cfg.minRequiredQuorum]) = lockedAt j s.log :=
      fun j => by
        rw [lockedAt_append]
        rfl
    refine ⟨h.grounded, h.marks, h.filed, fun j hash hlock => h.held j hash ((hkeep j).symm.trans hlock), h.log.snoc ?_⟩
    refine ⟨p.hash, hagreed, fun hash hlock => ?_⟩
    rw [(h.filed i c hc).index] at hlock
    obtain ⟨c', p', hc', hp', hash_eq⟩ := h.held i hash hlock
    obtain rfl : c = c' := Option.some.inj (hc.symm.trans hc')
    obtain rfl : p = p' := Option.some.inj (hp.symm.trans hp')
    exact hash_eq
  · exact h

theorem submit (h : Locks s) (i : Int) : Locks (s.commitAt i).1 := by
  unfold Node.commitAt
  split
  · exact h
  · rename_i c hc
    have hkeeps := c.checkAndCommit_keeps s.cfg
    have hkept : Locks { s with caches := s.caches.insert i (c.checkAndCommit s.cfg).1 } := by
      simpa [Node.emit] using h.kept (.insert (l := []) hc hkeeps (by simp)) ⟨h.grounded, h.marks⟩
    exact hkept.reported (OrdMap.find?_insert_self _ _ _)
      (fun hret => checkAndCommit_agreed (h.filed i c hc) hret)

theorem precommitActions_lockFree (E : Env) (cfg : Config) (now : Int) (p : PBFTProposal) :
    ∀ a ∈ Action.sign (.proposal p.hash) ::
      sendActions E cfg.keyPair none (.pbft (PBFTCache.commitVote E cfg now p)), a.lockFree = true := by
  intro a ha
  rcases List.mem_cons.1 ha with rfl | ha
  · rfl
  · exact sendActions_lockFree a ha

theorem preCommit (h : Locks s) (i : Int) : Locks (s.preCommitAt E i).1 := by
  unfold Node.preCommitAt
  split
  · exact h
  · rename_i c hc
    have hfiled := h.filed i c hc
    rcases c.checkAndPreCommit_cases E s.cfg s.utcTime with heq | ⟨m, p, hm, hp, -, -, -, heq⟩
    · rw [heq]
      exact h.kept (.insert hc (.refl c) (by simp)) ⟨h.grounded, h.marks⟩
    · rw [heq]
      dsimp only
      have hkeeps := (c.enterPrecommit E s.cfg s.utcTime m p).checkAndCommit_keeps s.cfg
      -- the new precommit is the stored pre-prepare, which has the locked hash if there is one
      have hnew : (c.enterPrecommit E s.cfg s.utcTime m p).FiledAt i := by
        refine ⟨hfiled.index, ?_, ?_⟩
        · intro m' hm'
          obtain rfl := Option.some.inj hm'
          exact hfiled.prePrepare m hm
        · intro m' hm'
          obtain rfl := Option.some.inj hm'
          exact ⟨hfiled.prePrepare m hm, _, rfl, rfl⟩
      have hmine : lockedAt i (s.log ++ c.precommitActions E s.cfg s.utcTime m p) = some m.hash := by
        rw [PBFTCache.precommitActions, hfiled.index, List.append_cons,
          lockedAt_append_lockFree (precommitActions_lockFree E s.cfg s.utcTime p), lockedAt_append]
        simp [lockStep]
      have hother : ∀ j, j ≠ i → lockedAt j (s.log ++ c.precommitActions E s.cfg s.utcTime m p) = lockedAt j s.log := by
        intro j hj
        rw [PBFTCache.precommitActions, hfiled.index, List.append_cons,
          lockedAt_append_lockFree (precommitActions_lockFree E s.cfg s.utcTime p), lockedAt_append]
        simp [lockStep, Ne.symm hj]
      have hlog : Respectful (s.log ++ c.precommitActions E s.cfg s.utcTime m p) := by
        rw [PBFTCache.precommitActions, List.append_cons]
        refine (h.log.snoc ?_).append_lockFree (precommitActions_lockFree E s.cfg s.utcTime p)
        intro hash hlock
        rw [hfiled.index] at hlock
        obtain ⟨c', p', hc', hp', hash_eq⟩ := h.held i hash hlock
        obtain rfl : c = c' := Option.some.inj (hc.symm.trans hc')
        obtain ⟨q, hq, hqp⟩ := (hfiled.precommit p' hp').2
        obtain rfl : m = q := Option.some.inj (hm.symm.trans hq)
        exact hqp.trans hash_eq
      refine (h.update (hnew.keeps hkeeps) ?_ hother hlog).reported (OrdMap.find?_insert_self _ _ _)
        (fun hret => checkAndCommit_agreed hnew hret)
      intro hash hlock
      rw [hmine] at hlock
      obtain rfl := Option.some.inj hlock
      obtain ⟨p', hp', hb, -⟩ := hkeeps.symm.precommit_eq (PBFTCache.enterPrecommit_precommit E s.cfg s.utcTime c m p)
      refine ⟨p', hp', ?_⟩
      simp only [PBFTMessage.hash, ← hb]
      rfl

theorem erase (h : Locks s) (keep : Int → PBFTCache → Bool) {l : List Action}
    (hl : ∀ i c, s.caches.find? i = some c → keep i c = false → Action.eraseCache i ∈ l)
    (hn : ∀ a ∈ l, a.neutral = true ∨ ∃ i, a = .eraseCache i) :
    Locks ({ s with caches := s.caches.filter keep }.emit l) := by
  refine ⟨h.grounded, h.marks, fun i c hc => ?_, fun i hash hlock => ?_, h.log.append_erase hn⟩
  · change (s.caches.filter keep).find? i = some c at hc
    rw [OrdMap.find?_filter] at hc
    exact h.filed i c (Option.filter_eq_some_iff.1 hc).1
  · obtain ⟨hmem, hlock⟩ := lockedAt_append_erase hn hlock
    obtain ⟨c, p, hc, hp, hash_eq⟩ := h.held i hash hlock
    have hkeep : keep i c = true := by
      by_contra hfalse
      exact hmem (hl i c hc (by simpa using hfalse))
    refine ⟨c, p, ?_, hp, hash_eq⟩
    change (s.caches.filter keep).find? i = some c
    rw [OrdMap.find?_filter, hc]
    simp [hkeep]

end Locks

theorem Prim.locks {E : Env} {l : Label} {s t : Node} (h : Prim E l s t) (hs : Locks s) : Locks t := by
  by_cases hl : l.keeping = true
  · exact hs.kept (h.kept hl) (h.grounded hs.grounded hs.marks)
  · cases h with
    | store _ hm => exact hs.store hm
    | preCommit _ i => exact hs.preCommit i
    | submit _ i => exact hs.submit i
    | erase _ keep hgone hg hn => exact hs.erase keep hgone hn
    | _ => exact absurd rfl hl

theorem Locks.steps {E : Env} {A : Label → Prop} {s t : Node} (h : Steps E A s t) (hs : Locks s) : Locks t :=
  Labelled.Steps.preserves (fun _ _ _ _ hp hs => hp.locks hs) h hs

theorem locks_of_ledger (keyPair : KeyPair) {l : LedgerConfig} (hl : 0 ≤ l.blockNumber) :
    Locks { cfg := ({ keyPair := keyPair, timeoutState := true } : Config).setCommittedProposal l.proposal } := by
  refine ⟨?_, fun i hi => ?_, fun i c hc => ?_, fun i h hlock => ?_, .nil⟩
  · exact Config.grounded_of_ledger (Or.inr hl) (Or.inr hl) (Or.inl (zero_le_one' Int))
  · cases hi
  · cases hc
  · cases hlock

/-- `init` starts with an empty log, and the storage loads proposals of blocks after the ledger's last one. -/
theorem initNode_locks {E : Env} {keyPair : KeyPair} {l : LedgerConfig} {state : List PBFTProposal} {s₀ : Node}
    (hinit : initNode E keyPair l state = some s₀) (hl : 0 ≤ l.blockNumber) (hstate : ∀ p ∈ state, l.blockNumber < p.index) :
    Locks s₀ := by
  obtain ⟨s, hsteps, hs⟩ := initNode_cases (A := fun _ => True) trivial trivial trivial (fun _ _ => trivial) hinit
  have hlocks : Locks s := Locks.steps hsteps (locks_of_ledger keyPair hl)
  rcases hs with rfl | ⟨last, hlast, rfl⟩
  · exact hlocks
  · have hlow : 1 ≤ last.index + 1 := by
      have := hstate last (List.mem_of_getLast? hlast)
      omega
    have hkept : Kept s (s.setCfg (s.cfg.setLowWaterMark (last.index + 1))) :=
      ⟨fun i c hc => by rw [show s.caches.find? i = some c from hc]; exact .refl c, fun i c hc => ⟨c, hc⟩, [],
        (List.append_nil _).symm, by simp⟩
    exact hlocks.kept hkept ⟨⟨hlocks.grounded.started, hlow, hlocks.grounded.expected⟩, hlocks.marks⟩

theorem Reachable.locks {E : Env} {s₀ s : Node} (h : Reachable E s₀ s) (hs : Locks s₀) : Locks s := by
  induction h with
  | refl => exact hs
  | step e _ hstep ih => exact Locks.steps (step_steps hstep) ih

/-- From a precommit on, until the cache is erased, its hash stays the locked one. -/
theorem lockedAt_after {log l₁ l₂ : List Action} {i : Int} {m : PBFTMessage} (hlog : Respectful log)
    (heq : log = l₁ ++ .precommit i m :: l₂) (herase : Action.eraseCache i ∉ l₂) :
    lockedAt i log = some m.hash := by
  induction l₂ using List.reverseRecOn generalizing log with
  | nil =>
    rw [heq, lockedAt_append]
    simp [lockStep]
  | append_singleton l a ih =>
    subst heq
    have hprefix : Respectful (l₁ ++ .precommit i m :: l) := by
      intro k₁ b k₂ hk
      refine hlog k₁ b (k₂ ++ [a]) ?_
      rw [← List.cons_append, ← List.append_assoc, hk]
      simp
    have hbefore := ih hprefix rfl (fun hmem => herase (List.mem_append_left _ hmem))
    have ha := hlog (l₁ ++ .precommit i m :: l) a [] (by simp)
    rw [← List.cons_append, ← List.append_assoc, lockedAt_append, List.foldl_cons, List.foldl_nil, hbefore]
    cases a with
    | precommit j m' =>
      simp only [lockStep]
      split_ifs with hj
      · subst hj
        rw [ha m.hash hbefore]
      · rfl
    | eraseCache j =>
      have hj : j ≠ i := fun hj => herase (by simp [hj])
      simp [lockStep, hj]
    | _ => rfl

/-- The precommit lock, in every run of a node: after a precommit at an index and until its cache is erased,
every pre-prepare stored there and every precommit there has the hash of the first; and whenever a commit is
reported, the precommit it pushes, the pre-prepare and the tally that reached the quorum have one hash, the
locked one. -/
theorem precommit_lock {E : Env} {keyPair : KeyPair} {l : LedgerConfig} {state : List PBFTProposal} {s₀ s : Node}
    (hinit : initNode E keyPair l state = some s₀) (hl : 0 ≤ l.blockNumber) (hstate : ∀ p ∈ state, l.blockNumber < p.index)
    (hrun : Reachable E s₀ s) :
    (∀ c q, Action.reportCommit c q ∈ s.log → ∃ h, Agreed c q h) ∧
    ∀ l₁ i m l₂, s.log = l₁ ++ .precommit i m :: l₂ → Action.eraseCache i ∉ l₂ →
      (∀ m', Action.storePrePrepare i m' ∈ l₂ → m'.hash = m.hash) ∧
      (∀ m', Action.precommit i m' ∈ l₂ → m'.hash = m.hash) ∧
      (∀ c q, Action.reportCommit c q ∈ l₂ → c.index = i → Agreed c q m.hash) ∧
      ∃ c p q, s.caches.find? i = some c ∧ c.precommit = some p ∧ c.prePrepare = some q ∧
        p.hash = m.hash ∧ q.hash = m.hash := by
  have hlocks := hrun.locks (initNode_locks hinit hl hstate)
  refine ⟨fun c q hmem => ?_, fun l₁ i m l₂ heq herase => ?_⟩
  · obtain ⟨k₁, k₂, hk⟩ := List.append_of_mem hmem
    obtain ⟨h, hagreed, -⟩ := hlocks.log k₁ _ k₂ hk
    exact ⟨h, hagreed⟩
  -- what the log says of an action after the precommit
  have hrespects : ∀ a ∈ l₂, ∃ k, lockedAt i k = some m.hash ∧ Respects (fun j => lockedAt j k) a := by
    intro a ha
    obtain ⟨k₁, k₂, rfl⟩ := List.append_of_mem ha
    have hsplit : s.log = (l₁ ++ .precommit i m :: k₁) ++ a :: k₂ := by simp [heq]
    refine ⟨l₁ ++ .precommit i m :: k₁, lockedAt_after ?_ rfl ?_, hlocks.log _ _ _ hsplit⟩
    · intro j₁ b j₂ hj
      exact hlocks.log j₁ b (j₂ ++ a :: k₂) (by rw [hsplit, hj]; simp)
    · exact fun hmem => herase (List.mem_append_left _ hmem)
  refine ⟨fun m' hmem => ?_, fun m' hmem => ?_, fun c q hmem hindex => ?_, ?_⟩
  · obtain ⟨k, hk, hr⟩ := hrespects _ hmem
    exact hr m.hash hk
  · obtain ⟨k, hk, hr⟩ := hrespects _ hmem
    exact hr m.hash hk
  · obtain ⟨k, hk, h, hagreed, hsame⟩ := hrespects _ hmem
    rw [hindex] at hsame
    exact hsame m.hash hk ▸ hagreed
  · obtain ⟨c, p, hc, hp, hash_eq⟩ := hlocks.held i m.hash (lockedAt_after hlocks.log heq herase)
    obtain ⟨q, hq, hqp⟩ := ((hlocks.filed i c hc).precommit p hp).2
    exact ⟨c, p, q, hc, hp, hq, hash_eq, hqp.trans hash_eq⟩

/-- The only node of a list of one commits the block it seals at once. -/
def toySealed : Option Node :=
  (step Toy.env (Toy.node 0 [1]) (.submitProposal false [1, 7] 1 (Toy.checksum [1, 7]))).bind
    (step Toy.env · (.proposalSubmitted 0))

def Action.isPrecommitAtOne : Action → Bool
  | .precommit i _ => i = 1
  | _ => false

def Action.isErase : Action → Bool
  | .eraseCache _ => true
  | _ => false

theorem toySealed_locked : ∃ s c q m p, toySealed = some s ∧ Action.reportCommit c q ∈ s.log ∧
    (∃ h, Agreed c q h) ∧ Action.precommit 1 m ∈ s.log ∧
    (s.caches.find? 1).bind PBFTCache.precommit = some p ∧ p.hash = m.hash := by
  have hinit : initNode Toy.env (Toy.keyPair 0) { blockNumber := 0, hash := zeroHash, consensusNodeList := Toy.nodes [1] }
      [] = some (Toy.node 0 [1]) := by decide +kernel
  obtain ⟨s, hs⟩ : ∃ s, toySealed = some s := Option.isSome_iff_exists.1 (by decide +kernel)
  have hreport : (toySealed.elim false fun s => s.log.any Action.isReport) = true := by
    decide +kernel
  have hpre : (toySealed.elim false fun s => s.log.any Action.isPrecommitAtOne) = true := by decide +kernel
  have hkept : (toySealed.elim false fun s => s.log.all fun a => !a.isErase) = true := by
    decide +kernel
  simp only [hs, Option.elim_some, List.any_eq_true, List.all_eq_true] at hreport hpre hkept
  obtain ⟨a, ha, hmatch⟩ := hreport
  obtain ⟨b, hb, hmatch'⟩ := hpre
  obtain ⟨u, hu, ht⟩ := Option.bind_eq_some_iff.1 hs
  have hrun : Reachable Toy.env (Toy.node 0 [1]) s := .step _ (.step _ .refl hu) ht
  obtain ⟨hagreed, hlock⟩ := precommit_lock hinit le_rfl (by simp) hrun
  cases a with
  | reportCommit c q =>
    cases b with
    | precommit i m =>
      obtain rfl : i = 1 := by simpa [Action.isPrecommitAtOne] using hmatch'
      obtain ⟨l₁, l₂, hsplit⟩ := List.append_of_mem hb
      have herase : Action.eraseCache 1 ∉ l₂ := by
        intro hmem
        have := hkept (.eraseCache 1) (by rw [hsplit]; simp [hmem])
        simp [Action.isErase] at this
      obtain ⟨-, -, -, c', p, -, hc', hp, -, hash_eq, -⟩ := hlock l₁ 1 m l₂ hsplit herase
      refine ⟨s, c, q, m, p, hs, ha, hagreed c q ha, hb, ?_, hash_eq⟩
      rw [hc', Option.bind_some, hp]
    | _ => simp [Action.isPrecommitAtOne] at hmatch'
  | _ => simp [Action.isReport] at hmatch

end BcosPbft
