import BcosPbft.Proofs.Effects
import BcosPbft.Proofs.PrePrepareList
import BcosPbft.Proofs.RoundTrip

/-! The way of a precommitted proposal into the next view: the copy without data, the view change, the selection of the
leader, the new view, and the data that is put back. Every stage keeps what the first copy took over, and the first copy
takes over the index, the hash and the sealer. -/

namespace BcosPbft

variable {E : Env} {p : PBFTProposal} {m : PBFTMessage}

theorem map_raw_of_mapM {raws : List PBFTRawMessage} {l : List PBFTMessage} (h : raws.mapM (PBFTMessage.ofRaw E) = some l) :
    l.map PBFTMessage.raw = raws := by
  have hentries := forall₂_of_mapM h
  clear h
  induction hentries with
  | nil => rfl
  | @cons raw m raws l hm hrest ih =>
    obtain ⟨b, -, rfl⟩ := Option.map_eq_some_iff.1 hm
    rw [List.map_cons, ih]

theorem decode_viewChange_raw (hpb : E.pb.Lawful) {keyPair : KeyPair} {version : Int} {v v' : ViewChangeMsg}
    (ht : v.packetType.isViewChange = true)
    (h : PBFTCodec.decode E (PBFTCodec.encode E keyPair version (.viewChange v)).1 = some (.viewChange v')) :
    v'.preparedProposals.map PBFTMessage.raw = v.preparedProposals.map PBFTMessage.raw := by
  obtain ⟨signatureData, hbytes⟩ := encode_viewChange_bytes (E := E) keyPair version v
  rw [hbytes, PBFTCodec.decode_rawMessage hpb, decodePayLoad_viewChange hpb ht] at h
  obtain ⟨msg, hmsg, h⟩ := Option.map_eq_some_iff.1 h
  obtain ⟨v₁, hv₁, rfl⟩ := Option.map_eq_some_iff.1 hmsg
  obtain ⟨v₂, hv₂, hprepared, -⟩ := handleSignature_viewChange (E := E) _ { v₁ with packetType := v.packetType }
  obtain rfl := Message.viewChange.inj (hv₂.symm.trans h)
  rw [hprepared]
  obtain ⟨l, hl, rfl⟩ := Option.map_eq_some_iff.1 hv₁
  exact map_raw_of_mapM hl

theorem decode_newView_raw (hpb : E.pb.Lawful) {keyPair : KeyPair} {version : Int} {n n' : NewViewMsg}
    (ht : n.packetType = .NewViewPacket)
    (h : PBFTCodec.decode E (PBFTCodec.encode E keyPair version (.newView n)).1 = some (.newView n')) :
    n'.prePrepareList.map PBFTMessage.raw = n.prePrepareList.map PBFTMessage.raw := by
  obtain ⟨signatureData, hbytes⟩ := encode_newView_bytes (E := E) keyPair version n
  rw [hbytes, PBFTCodec.decode_rawMessage hpb, ht, decodePayLoad_newView hpb] at h
  obtain ⟨msg, hmsg, h⟩ := Option.map_eq_some_iff.1 h
  obtain ⟨n₁, hn₁, rfl⟩ := Option.map_eq_some_iff.1 hmsg
  obtain ⟨views, -, hn₁⟩ := Option.bind_eq_some_iff.1 hn₁
  obtain ⟨list, hlist, hn₁⟩ := Option.bind_eq_some_iff.1 hn₁
  obtain ⟨n₂, hn₂, hprePrepare, -⟩ := handleSignature_newView (E := E) _ { n₁ with packetType := .NewViewPacket }
  obtain rfl := Message.newView.inj (hn₂.symm.trans h)
  rw [hprePrepare]
  obtain rfl := Option.some.inj hn₁
  exact map_raw_of_mapM hlist

theorem consensusProposal_of_map_raw {l l' : List PBFTMessage} (h : l'.map PBFTMessage.raw = l.map PBFTMessage.raw) {k : Nat}
    {q q' : PBFTMessage} (hq : l[k]? = some q) (hq' : l'[k]? = some q') : q'.consensusProposal = q.consensusProposal := by
  have hk := congrArg (fun l => l[k]?) h
  simp only [List.getElem?_map, hq, hq', Option.map_some, Option.some.injEq] at hk
  exact congrArg PBFTRawMessage.consensusProposal hk

/-- The message carries the proposal `p` without its data, somewhere between the precommit and the new view. -/
inductive Carried (E : Env) (p : PBFTProposal) : PBFTMessage → Prop
  | intoPrecommit {cfg c m q} : (PBFTCache.intoPrecommit E cfg c m p).precommitWithoutData = some q → Carried E p q
  | viewChange {keyPair version} {k : Nat} {q q'} {v v' : ViewChangeMsg} : Carried E p q → v.packetType = .ViewChangePacket →
      v.preparedProposals[k]? = some q →
      PBFTCodec.decode E (PBFTCodec.encode E keyPair version (.viewChange v)).1 = some (.viewChange v') →
      v'.preparedProposals[k]? = some q' → Carried E p q'
  | selectPrepared {lo generatedFrom table q m} : Carried E p q → table.find? q.index ≠ some m →
      (Node.selectPrepared lo generatedFrom table q).find? q.index = some m → Carried E p m
  | prePrepareFor {s : Node} {table i q m} : Carried E p q → table.find? i = some q → s.prePrepareFor E table i = some m →
      Carried E p m
  | setPrePrepareList {q} : Carried E p q → Carried E p (q.encodeHashFields E)
  | newView {keyPair version} {k : Nat} {q q'} {n n' : NewViewMsg} : Carried E p q → n.packetType = .NewViewPacket →
      n.prePrepareList[k]? = some q →
      PBFTCodec.decode E (PBFTCodec.encode E keyPair version (.newView n)).1 = some (.newView n') →
      n'.prePrepareList[k]? = some q' → Carried E p q'

/-- The message is a pre-prepare for `p` whose data is filled up with the given bytes. -/
inductive Reproposed (E : Env) (p : PBFTProposal) : Bytes → PBFTMessage → Prop
  | tryToFillProposal {s : Node} {m m' source} : Carried E p m → s.fetchPrecommitProposal m.index = some source →
      s.tryToFillProposal m = some m' → Reproposed E p source.data m'
  | onRecvPrecommitResponse {s : Node} {m data precommit source q} {response : ViewChangeMsg} : Carried E p m →
      PBFTCodec.decode E data = some (.viewChange response) → response.packetType = .PreparedProposalResponse →
      response.preparedProposals.head? = some precommit → precommit.consensusProposal = some source →
      m.consensusProposal = some q → source.index = q.index → source.hash = q.hash →
      s.checkPrecommitMsg E precommit = some true →
      Reproposed E p source.data (m.setConsensusProposal (q.setData source.data))

/-- A response is dropped or its pre-prepare is handled with the data that it brings. -/
theorem onRecvPrecommitResponse_reproposed {s t : Node} {data : Bytes} (hm : Carried E p m)
    (h : s.onRecvPrecommitResponse E m data = some t) :
    t = s ∨ ∃ source m', Reproposed E p source m' ∧ t = (s.handlePrePrepareMsg E m' true true false).1 := by
  unfold Node.onRecvPrecommitResponse at h
  split at h
  · rename_i response hresponse
    split_ifs at h with htype
    · exact Or.inl (Option.some.inj h).symm
    obtain ⟨precommit, hprecommit, h⟩ := Option.bind_eq_some_iff.1 h
    split at h
    · rename_i source q hsource hq
      split_ifs at h with hsame
      · exact Or.inl (Option.some.inj h).symm
      obtain ⟨checked, hchecked, h⟩ := Option.bind_eq_some_iff.1 h
      split_ifs at h with hno
      · exact Or.inl (Option.some.inj h).symm
      simp only [Bool.not_eq_true', Bool.not_eq_false] at hno
      simp only [ne_eq, Bool.or_eq_true, decide_eq_true_eq, not_or, not_not] at hsame
      exact Or.inr ⟨_, _, .onRecvPrecommitResponse hm hresponse (not_not.1 htype) hprecommit hsource hq hsame.1 hsame.2
        (hno ▸ hchecked), (Option.some.inj h).symm⟩
    · exact Or.inl (Option.some.inj h).symm
  · exact Or.inl (Option.some.inj h).symm

/-- What every stage keeps. -/
theorem Carried.record (hpb : E.pb.Lawful) (h : Carried E p m) : ∃ q, m.consensusProposal = some q ∧
    q.proposal = { index := p.index, hash := p.hash.val, sealerId := p.proposal.sealerId } := by
  induction h with
  | intoPrecommit hq =>
    obtain rfl := Option.some.inj hq
    refine ⟨_, rfl, ?_⟩
    rw [populateProposal_record, PBFTProposal.index, PBFTProposal.hash, setSignatureList_proposal]
    rfl
  | viewChange hq ht hk hdecode hk' ih =>
    rw [consensusProposal_of_map_raw (decode_viewChange_raw hpb (by rw [ht]; rfl) hdecode) hk hk']
    exact ih
  | @selectPrepared lo generatedFrom table q m hq hnew hm ih =>
    suffices heq : m.consensusProposal = q.consensusProposal by
      rw [heq]
      exact ih
    unfold Node.selectPrepared at hm
    split_ifs at hm with hlt
    · exact absurd hm hnew
    split at hm
    · split_ifs at hm with htake
      · rw [OrdMap.find?_insert_self] at hm
        rw [Option.some.inj hm]
      · exact absurd hm hnew
    · rw [OrdMap.find?_insert_self] at hm
      rw [← Option.some.inj hm]
      rfl
  | @prePrepareFor s table i q m hq hi hm ih =>
    unfold Node.prePrepareFor at hm
    rw [hi] at hm
    obtain ⟨r, hr, rfl⟩ := Option.map_eq_some_iff.1 hm
    obtain ⟨r', hr', hrecord⟩ := ih
    obtain rfl := Option.some.inj (hr.symm.trans hr')
    exact ⟨r, rfl, hrecord⟩
  | setPrePrepareList hq ih => exact ih
  | newView hq ht hk hdecode hk' ih =>
    rw [consensusProposal_of_map_raw (decode_newView_raw hpb ht hdecode) hk hk']
    exact ih

theorem Reproposed.record (hpb : E.pb.Lawful) {source : Bytes} (h : Reproposed E p source m) :
    ∃ q, m.consensusProposal = some q ∧
      q.proposal = { index := p.index, hash := p.hash.val, sealerId := p.proposal.sealerId, data := source } := by
  cases h with
  | @tryToFillProposal s m m' source hm hsource hfill =>
    obtain ⟨q, hq, hrecord⟩ := hm.record hpb
    unfold Node.tryToFillProposal at hfill
    unfold Node.fetchPrecommitProposal at hsource
    obtain ⟨c, hc, hfill⟩ := Option.bind_eq_some_iff.1 hfill
    obtain ⟨precommit, hprecommit, hfill⟩ := Option.bind_eq_some_iff.1 hfill
    obtain ⟨c', hc', hsource⟩ := Option.bind_eq_some_iff.1 hsource
    obtain ⟨precommit', hprecommit', hsource⟩ := Option.bind_eq_some_iff.1 hsource
    obtain rfl := Option.some.inj (hc.symm.trans hc')
    obtain rfl := Option.some.inj (hprecommit.symm.trans hprecommit')
    split_ifs at hfill
    rw [hsource, hq] at hfill
    obtain rfl := Option.some.inj hfill
    exact ⟨_, rfl, by rw [PBFTProposal.setData, hrecord]⟩
  | onRecvPrecommitResponse hm _ _ _ _ hq' =>
    obtain ⟨q, hq, hrecord⟩ := hm.record hpb
    obtain rfl := Option.some.inj (hq.symm.trans hq')
    exact ⟨_, rfl, by rw [PBFTProposal.setData, hrecord]⟩

/-- The fields of a proposal that its application reads. -/
structure PBFTProposal.SameAs (q p : PBFTProposal) : Prop where
  index : q.index = p.index
  hash : q.hash = p.hash
  sealerId : q.proposal.sealerId = p.proposal.sealerId
  data : q.data = p.data
  systemProposal : q.proposal.systemProposal = p.proposal.systemProposal

theorem PBFTProposal.SameAs.notifyToSealNextBlock {q : PBFTProposal} (h : q.SameAs p) (s : Node) :
    s.notifyToSealNextBlock q = s.notifyToSealNextBlock p := by
  unfold Node.notifyToSealNextBlock
  rw [h.index, h.systemProposal]

/-- The first copy drops the system flag, and no stage brings it back. -/
theorem reproposal_sameAs_iff (hpb : E.pb.Lawful) {source : Bytes} (h : Reproposed E p source m) :
    (∃ q, m.consensusProposal = some q ∧ q.SameAs p ∧ ∀ s : Node, s.notifyToSealNextBlock q = s.notifyToSealNextBlock p) ↔
      p.proposal.systemProposal = false ∧ source = p.data := by
  obtain ⟨q, hq, hrecord⟩ := h.record hpb
  constructor
  · rintro ⟨q', hq', hsame, -⟩
    obtain rfl := Option.some.inj (hq.symm.trans hq')
    refine ⟨?_, ?_⟩
    · rw [← hsame.systemProposal, hrecord]
    · rw [← hsame.data, PBFTProposal.data, hrecord]
  · rintro ⟨hsystem, hdata⟩
    have hsame : q.SameAs p := by
      refine ⟨?_, ?_, ?_, ?_, ?_⟩
      · rw [PBFTProposal.index, hrecord]
      · rw [PBFTProposal.hash, hrecord, toHash_val]
      · rw [hrecord]
      · rw [PBFTProposal.data, hrecord, hdata]
      · rw [hrecord, hsystem]
    exact ⟨q, hq, hsame, hsame.notifyToSealNextBlock⟩

def Message.toViewChange : Message → Option ViewChangeMsg
  | .viewChange v => some v
  | _ => none

def Message.toNewView : Message → Option NewViewMsg
  | .newView n => some n
  | _ => none

theorem decode_toViewChange {o : Option Message} {v : ViewChangeMsg} (h : o.bind Message.toViewChange = some v) :
    o = some (.viewChange v) := by
  obtain ⟨msg, hmsg, h⟩ := Option.bind_eq_some_iff.1 h
  cases msg with
  | viewChange v' => rw [hmsg, Option.some.inj h]
  | _ => cases h

theorem decode_toNewView {o : Option Message} {n : NewViewMsg} (h : o.bind Message.toNewView = some n) :
    o = some (.newView n) := by
  obtain ⟨msg, hmsg, h⟩ := Option.bind_eq_some_iff.1 h
  cases msg with
  | newView n' => rw [hmsg, Option.some.inj h]
  | _ => cases h

def toyHolder (p : PBFTProposal) : Node :=
  let s := Toy.node 0 [1, 1, 1, 1]
  let m := (populatePrePrepare .PrePreparePacket p 0 0 0 1).encodeHashFields Toy.env
  { s with caches := s.caches.insert 1 (PBFTCache.intoPrecommit Toy.env s.cfg { index := 1 } m p) }

def toyReported (p : PBFTProposal) : Option ViewChangeMsg :=
  (PBFTCodec.decode Toy.env (PBFTCodec.encode Toy.env (Toy.keyPair 0) 0
    (.viewChange (toyHolder p).generateViewChange)).1).bind Message.toViewChange

def toyRenewed (e : PBFTMessage) : Option NewViewMsg :=
  (PBFTCodec.decode Toy.env (PBFTCodec.encode Toy.env (Toy.keyPair 2) 0
    (.newView (NewViewMsg.setPrePrepareList Toy.env {} [e]))).1).bind Message.toNewView

/-- The proposal comes back to node 0 in a new view, and its data is filled up. -/
def toyReturns (p : PBFTProposal) : Bool :=
  (toyReported p).elim false fun v => v.preparedProposals[0]?.elim false fun q =>
    decide ((toyHolder p).generateViewChange.preparedProposals = [(toyHolder p).preCommitCachesWithoutData.headD {}]) &&
    ((Node.selectPrepared 0 0 ∅ q).find? q.index).elim false fun _ =>
      ((Toy.node 2 [1, 1, 1, 1]).prePrepareFor Toy.env (Node.selectPrepared 0 0 ∅ q) q.index).elim false fun e =>
        (toyRenewed e).elim false fun n => n.prePrepareList[0]?.elim false fun r =>
          ((toyHolder p).fetchPrecommitProposal r.index).elim false fun source =>
            decide (source.data = p.data) && ((toyHolder p).tryToFillProposal r).isSome

theorem toyReturns_reproposed (h : toyReturns p = true) : ∃ m, Reproposed Toy.env p p.data m := by
  obtain ⟨v, hv, h⟩ := Toy.exists_of_elim h
  obtain ⟨q, hq, h⟩ := Toy.exists_of_elim h
  simp only [Bool.and_eq_true, decide_eq_true_eq] at h
  obtain ⟨hprepared, h⟩ := h
  obtain ⟨m, hm, h⟩ := Toy.exists_of_elim h
  obtain ⟨e, he, h⟩ := Toy.exists_of_elim h
  obtain ⟨n, hn, h⟩ := Toy.exists_of_elim h
  obtain ⟨r, hr, h⟩ := Toy.exists_of_elim h
  obtain ⟨source, hsource, h⟩ := Toy.exists_of_elim h
  simp only [Bool.and_eq_true, decide_eq_true_eq] at h
  obtain ⟨hdata, hfill⟩ := h
  obtain ⟨m', hm'⟩ := Option.isSome_iff_exists.1 hfill
  have hprecommit : Carried Toy.env p ((toyHolder p).preCommitCachesWithoutData.headD {}) := .intoPrecommit rfl
  have hreported : Carried Toy.env p q :=
    .viewChange (k := 0) hprecommit rfl (by rw [hprepared]; rfl) (decode_toViewChange hv) hq
  have hselected : Carried Toy.env p m := .selectPrepared hreported (by simp) hm
  have hrenewed : Carried Toy.env p r :=
    .newView (k := 0) (.setPrePrepareList (.prePrepareFor hselected hm he)) rfl rfl (decode_toNewView hn) hr
  exact ⟨m', hdata ▸ .tryToFillProposal hrenewed hsource hm'⟩

theorem toyReturned_sameAs : ∃ m, Reproposed Toy.env (Toy.proposal 7) (Toy.proposal 7).data m ∧
    ∃ q, m.consensusProposal = some q ∧ q.SameAs (Toy.proposal 7) ∧
      ∀ s : Node, s.notifyToSealNextBlock q = s.notifyToSealNextBlock (Toy.proposal 7) := by
  obtain ⟨m, hm⟩ := toyReturns_reproposed (p := Toy.proposal 7) (by decide +kernel)
  exact ⟨m, hm, (reproposal_sameAs_iff Toy.protobuf_lawful hm).2 ⟨rfl, rfl⟩⟩

def toySystemBlock : PBFTProposal :=
  { Toy.proposal 7 with proposal := { (Toy.proposal 7).proposal with systemProposal := true } }

/-- A system proposal comes back as an ordinary one: its application no longer holds back the next block. -/
theorem toySystemBlock_released : ∃ m q, Reproposed Toy.env toySystemBlock toySystemBlock.data m ∧ m.consensusProposal = some q ∧
    ¬q.SameAs toySystemBlock ∧
    ((Toy.node 0 [1, 1, 1, 1]).notifyToSealNextBlock toySystemBlock).cfg.waitSealUntil = 1 ∧
    ((Toy.node 0 [1, 1, 1, 1]).notifyToSealNextBlock q).cfg.waitSealUntil = 0 := by
  obtain ⟨m, hm⟩ := toyReturns_reproposed (p := toySystemBlock) (by decide +kernel)
  obtain ⟨q, hq, hrecord⟩ := hm.record Toy.protobuf_lawful
  refine ⟨m, q, hm, hq, fun hsame => ?_, by decide +kernel, ?_⟩
  · have hflag := hsame.systemProposal
    rw [hrecord] at hflag
    cases hflag
  · unfold Node.notifyToSealNextBlock PBFTProposal.index
    rw [hrecord]
    decide +kernel

end BcosPbft
