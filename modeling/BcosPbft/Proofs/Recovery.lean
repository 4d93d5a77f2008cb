import BcosPbft.Spec.LedgerStorage
import BcosPbft.Spec.Toy

/-! Recovery of the executed proposals after a crash. The greatest index and the proposals are rows of their own, and the
reader wants every row up to the greatest index, so what comes back depends on which of the puts took effect. -/

namespace BcosPbft

def PbftCommitDB.row (pb : PBObject PBFTProposal) (db : PbftCommitDB) (i : Int) : Option PBFTProposal :=
  (db.proposals.find? i).bind pb.decode

namespace LedgerStorage

/-- The states of the storage over any number of processes: puts and removes may fail for good, and a process may stop
between any two of them. -/
inductive Written (pb : PBObject PBFTProposal) : LedgerStorage → Prop
  | fresh : Written pb {}
  | commit {s : LedgerStorage} (p : PBFTProposal) (maxResults dataResults : Nat → Bool) (h : Written pb s) :
      Written pb (s.asyncCommitProposal pb p maxResults dataResults)
  | remove {s : LedgerStorage} (i : Int) (ok : Bool) (h : Written pb s) : Written pb (s.asyncRemoveStabledCheckPoint i ok)
  | load {s : LedgerStorage} {stabledIndex : Int} (maxError batchError : Bool) (hs : 0 ≤ stabledIndex) (h : Written pb s) :
      Written pb (s.loadState pb stabledIndex maxError batchError).1
  | restart {s : LedgerStorage} (h : Written pb s) : Written pb (restarted s.db)

/-- The proposals from an index on, up to the first one that is missing. -/
structure IsRun (pb : PBObject PBFTProposal) (db : PbftCommitDB) (start : Int) (l : List PBFTProposal) : Prop where
  stored : ∀ (k : ℕ) (h : k < l.length), db.row pb (start + k) = some l[k]
  ends : db.row pb (start + l.length) = none

/-- A restart on this table throws because of a read that reported an error, or no read did and it returns the longest run
of proposals after the stable one. -/
def Recovers (pb : PBObject PBFTProposal) (db : PbftCommitDB) (stabledIndex : Int) (maxError batchError : Bool) : Prop :=
  match ((restarted db).loadState pb stabledIndex maxError batchError).2 with
  | .thrown => maxError = true ∨ batchError = true
  | .loaded l => maxError = false ∧ IsRun pb db (stabledIndex + 1) (l.getD [])

/-- The greatest index could be read, and nothing is stored after the stable proposal, or everything up to the greatest
index and nothing right after it, unless the batch read reports its error. -/
structure Intact (pb : PBObject PBFTProposal) (db : PbftCommitDB) (stabledIndex : Int) (maxError batchError : Bool) : Prop where
  maxRead : maxError = false
  rows : db.row pb (stabledIndex + 1) = none ∨ stabledIndex < db.maxCommittedProposal.getD 0 ∧ (batchError = true ∨
    (∀ i ∈ batchKeys (stabledIndex + 1) (db.maxCommittedProposal.getD 0), db.row pb i ≠ none) ∧
      db.row pb (db.maxCommittedProposal.getD 0 + 1) = none)

instance (pb : PBObject PBFTProposal) (db : PbftCommitDB) (stabledIndex : Int) (maxError batchError : Bool) :
    Decidable (Intact pb db stabledIndex maxError batchError) :=
  decidable_of_iff (maxError = false ∧ (db.row pb (stabledIndex + 1) = none ∨ stabledIndex < db.maxCommittedProposal.getD 0 ∧
      (batchError = true ∨ (∀ i ∈ batchKeys (stabledIndex + 1) (db.maxCommittedProposal.getD 0), db.row pb i ≠ none) ∧
        db.row pb (db.maxCommittedProposal.getD 0 + 1) = none)))
    ⟨fun h => ⟨h.1, h.2⟩, fun h => ⟨h.maxRead, h.rows⟩⟩

structure Sound (pb : PBObject PBFTProposal) (s : LedgerStorage) : Prop where
  rows : ∀ i data, s.db.proposals.find? i = some data → ∃ p, data = pb.encode p ∧ p.index = i ∧ 0 < i
  greatest : 0 ≤ s.maxCommittedProposalIndex
  stored : ∀ i, s.db.maxCommittedProposal = some i → 0 < i

variable {pb : PBObject PBFTProposal} {s : LedgerStorage} {stabledIndex : Int} {maxError batchError : Bool}

theorem Sound.of_db {t : LedgerStorage} (hs : s.Sound pb) (hdb : t.db = s.db) (ht : 0 ≤ t.maxCommittedProposalIndex) :
    t.Sound pb := by
  refine ⟨?_, ht, ?_⟩
  · rw [hdb]
    exact hs.rows
  · rw [hdb]
    exact hs.stored

theorem Sound.putMax (hs : s.Sound pb) {i : Int} (hi : 0 < i) : (s.putMaxCommittedProposal i).Sound pb := by
  refine ⟨hs.rows, hs.greatest, fun j hj => ?_⟩
  rw [← Option.some.inj hj]
  exact hi

theorem Sound.putProposal (hs : s.Sound pb) {p : PBFTProposal} (hp : 0 < p.index) :
    (s.putProposal p.index (pb.encode p)).Sound pb := by
  refine ⟨fun i data hi => ?_, hs.greatest, hs.stored⟩
  change (s.db.proposals.insert p.index (pb.encode p)).find? i = some data at hi
  rw [OrdMap.find?_insert] at hi
  split_ifs at hi with heq
  · exact ⟨p, (Option.some.inj hi).symm, heq.symm, heq ▸ hp⟩
  · exact hs.rows i data hi

theorem Sound.commit (hs : s.Sound pb) (p : PBFTProposal) (maxResults dataResults : Nat → Bool) :
    (s.asyncCommitProposal pb p maxResults dataResults).Sound pb := by
  unfold asyncCommitProposal
  split
  · exact hs
  rename_i hnew
  have hpos : 0 < p.index := by
    have hgreatest := hs.greatest
    omega
  have hraised : Sound pb { s with maxCommittedProposalIndex := p.index } := hs.of_db rfl hpos.le
  dsimp only
  split_ifs
  · exact (hraised.putMax hpos).putProposal hpos
  · exact hraised.putProposal hpos
  · exact hraised.putMax hpos
  · exact hraised

theorem Sound.remove (hs : s.Sound pb) (i : Int) (ok : Bool) : (s.asyncRemoveStabledCheckPoint i ok).Sound pb := by
  unfold asyncRemoveStabledCheckPoint
  split_ifs
  · refine ⟨fun j data hj => ?_, hs.greatest, hs.stored⟩
    change (s.db.proposals.erase i).find? j = some data at hj
    rw [OrdMap.find?_erase] at hj
    split_ifs at hj
    exact hs.rows j data hj
  · exact hs

def fetchedIndex (s : LedgerStorage) (error : Bool) : Int :=
  if error then s.maxCommittedProposalIndex
  else max s.maxCommittedProposalIndex (s.db.maxCommittedProposal.getD s.maxCommittedProposalIndex)

theorem le_fetchedIndex (s : LedgerStorage) (error : Bool) : s.maxCommittedProposalIndex ≤ s.fetchedIndex error := by
  unfold fetchedIndex
  split_ifs
  · exact le_rfl
  · exact le_max_left _ _

theorem asyncGetLatestCommittedProposalIndex_eq (s : LedgerStorage) (error : Bool) :
    s.asyncGetLatestCommittedProposalIndex error = ({ s with maxCommittedProposalIndex := s.fetchedIndex error }, true) := by
  unfold fetchedIndex
  unfold asyncGetLatestCommittedProposalIndex onLatestCommittedProposalIndex
  cases error with
  | true => rfl
  | false =>
    rw [if_neg Bool.false_ne_true, if_neg Bool.false_ne_true]
    cases s.db.maxCommittedProposal with
    | none => simp
    | some latest =>
      dsimp only
      rw [if_neg Bool.false_ne_true, Option.getD_some]
      split_ifs with hlt
      · rw [max_eq_right hlt.le]
      · rw [max_eq_left (not_lt.1 hlt)]

/-- Loading the state keeps the table, and the greatest index does not fall below the stable one. -/
theorem loadState_spec (pb : PBObject PBFTProposal) (s : LedgerStorage) (stabledIndex : Int) (maxError batchError : Bool) :
    (s.loadState pb stabledIndex maxError batchError).1.db = s.db ∧
      min s.maxCommittedProposalIndex stabledIndex ≤
        (s.loadState pb stabledIndex maxError batchError).1.maxCommittedProposalIndex := by
  have hle : s.maxCommittedProposalIndex ≤ (s.asyncGetLatestCommittedProposalIndex maxError).1.maxCommittedProposalIndex := by
    rw [asyncGetLatestCommittedProposalIndex_eq]
    exact s.le_fetchedIndex maxError
  have hdb : (s.asyncGetLatestCommittedProposalIndex maxError).1.db = s.db := by
    rw [asyncGetLatestCommittedProposalIndex_eq]
  unfold loadState
  generalize s.asyncGetLatestCommittedProposalIndex maxError = r at hle hdb
  dsimp only
  split_ifs
  · exact ⟨hdb, (min_le_left _ _).trans hle⟩
  · exact ⟨hdb, min_le_right _ _⟩
  · split
    · exact ⟨hdb, (min_le_left _ _).trans hle⟩
    · split_ifs
      · exact ⟨hdb, min_le_right _ _⟩
      · exact ⟨hdb, (min_le_left _ _).trans hle⟩

theorem Written.sound (h : Written pb s) : s.Sound pb := by
  induction h with
  | fresh => exact ⟨fun i data hi => (by cases hi), le_rfl, fun i hi => (by cases hi)⟩
  | commit p maxResults dataResults h ih => exact ih.commit p maxResults dataResults
  | remove i ok h ih => exact ih.remove i ok
  | @load s stabledIndex maxError batchError hs h ih =>
    obtain ⟨hdb, hle⟩ := loadState_spec pb s stabledIndex maxError batchError
    exact ih.of_db hdb ((le_min ih.greatest hs).trans hle)
  | restart h ih => exact ih.of_db rfl le_rfl

theorem Sound.row (hs : s.Sound pb) (hpb : pb.Lawful) (hempty : pb.decode [] = some {}) (i : Int) :
    s.db.proposals.find? i = (s.db.row pb i).map pb.encode ∧
      ∀ p ∈ s.db.row pb i, p.index = i ∧ 0 < i ∧ (pb.encode p).length ≠ 0 := by
  unfold PbftCommitDB.row
  cases hi : s.db.proposals.find? i with
  | none => exact ⟨rfl, fun p hp => by cases hp⟩
  | some data =>
    obtain ⟨p, rfl, hindex, hpos⟩ := hs.rows i data hi
    rw [Option.bind_some, hpb p]
    refine ⟨rfl, fun q hq => ?_⟩
    obtain rfl := Option.some.inj hq
    refine ⟨hindex, hpos, fun hlen => ?_⟩
    have hdecode := hpb p
    rw [List.length_eq_zero_iff.1 hlen, hempty] at hdecode
    rw [← hindex, ← Option.some.inj hdecode] at hpos
    exact absurd hpos (by decide)

theorem readProposals_spec (hpb : pb.Lawful) (f : Int → Option PBFTProposal)
    (hf : ∀ i p, f i = some p → (pb.encode p).length ≠ 0) (keys : List Int) (l : List PBFTProposal) :
    readProposals pb (keys.map fun i => ((f i).map pb.encode).getD []) l =
      if ∀ i ∈ keys, f i ≠ none then some (some (l ++ keys.filterMap f)) else some none := by
  induction keys generalizing l with
  | nil => simp [readProposals]
  | cons i keys ih =>
    rw [List.map_cons]
    cases hi : f i with
    | none => simp [readProposals, hi]
    | some p =>
      rw [Option.map_some, Option.getD_some]
      unfold readProposals
      rw [if_neg (hf i p hi), hpb p]
      dsimp only
      rw [ih, List.filterMap_cons_some hi, List.append_assoc]
      simp [hi]

theorem mem_batchKeys {start last i : Int} : i ∈ batchKeys start last ↔ start ≤ i ∧ i ≤ last := by
  unfold batchKeys
  rw [List.mem_map]
  constructor
  · rintro ⟨n, hn, rfl⟩
    rw [List.mem_range] at hn
    omega
  · intro h
    refine ⟨(i - start).toNat, ?_, by omega⟩
    rw [List.mem_range]
    omega

/-- A batch whose rows are all there is returned, and one missing row drops it. -/
theorem Sound.asyncGetCommittedProposals (hs : s.Sound pb) (hpb : pb.Lawful)
    (hempty : pb.decode [] = some {}) {start last : Int}
    {offset : Nat} (hstart : start ≤ s.maxCommittedProposalIndex)
    (hlast : min (start + offset - 1) s.maxCommittedProposalIndex = last) :
    s.asyncGetCommittedProposals pb start offset false = some (if ∀ i ∈ batchKeys start last, s.db.row pb i ≠ none then
      some ((batchKeys start last).filterMap (s.db.row pb)) else none) := by
  unfold LedgerStorage.asyncGetCommittedProposals
  rw [if_neg (by omega), if_neg Bool.false_ne_true]
  dsimp only
  rw [hlast]
  have hvalues : ∀ i, (s.db.proposals.find? i).getD [] = ((s.db.row pb i).map pb.encode).getD [] := fun i => by
    rw [(hs.row hpb hempty i).1]
  simp only [hvalues]
  rw [readProposals_spec hpb _ (fun i p hp => ((hs.row hpb hempty i).2 p hp).2.2) _ []]
  split_ifs <;> rfl

/-- What a restart returns: an error of the first read looks like an empty table, and one missing row drops the list. -/
theorem loadState_restarted {db : PbftCommitDB} (hs : (restarted db).Sound pb) (hpb : pb.Lawful)
    (hempty : pb.decode [] = some {})
    (hstable : 0 ≤ stabledIndex) (maxError batchError : Bool) : ((restarted db).loadState pb stabledIndex maxError batchError).2 =
      if maxError = true ∨ db.maxCommittedProposal.getD 0 ≤ stabledIndex then .loaded none
      else if batchError = true then .thrown
      else .loaded (if ∀ i ∈ batchKeys (stabledIndex + 1) (db.maxCommittedProposal.getD 0), db.row pb i ≠ none then
          some ((batchKeys (stabledIndex + 1) (db.maxCommittedProposal.getD 0)).filterMap (db.row pb)) else none) := by
  have hfetched : (restarted db).fetchedIndex maxError = if maxError = true then 0 else db.maxCommittedProposal.getD 0 := by
    unfold fetchedIndex
    split_ifs
    · rfl
    · change max 0 (db.maxCommittedProposal.getD 0) = _
      rw [max_eq_right]
      cases hmax : db.maxCommittedProposal with
      | none => exact le_rfl
      | some i => exact (hs.stored i hmax).le
  unfold loadState
  rw [asyncGetLatestCommittedProposalIndex_eq, hfetched]
  dsimp only
  rw [Bool.not_true, if_neg Bool.false_ne_true]
  cases maxError with
  | true => simp [hstable]
  | false =>
    simp only [restarted, Bool.false_eq_true, if_false, false_or]
    split_ifs with hle hbatch hall
    · rfl
    · unfold asyncGetCommittedProposals
      dsimp only
      rw [if_neg (by omega), if_pos hbatch]
    all_goals
      rw [Bool.not_eq_true] at hbatch
      subst hbatch
      have hraised : Sound pb { db := db, maxCommittedProposalIndex := db.maxCommittedProposal.getD 0 } :=
        hs.of_db rfl (by change 0 ≤ db.maxCommittedProposal.getD 0; omega)
      have hstart : stabledIndex + 1 ≤ db.maxCommittedProposal.getD 0 := by omega
      have hlast : min (stabledIndex + 1 + (db.maxCommittedProposal.getD 0 - stabledIndex).toNat - 1)
          (db.maxCommittedProposal.getD 0) = db.maxCommittedProposal.getD 0 := by omega
      rw [hraised.asyncGetCommittedProposals hpb hempty hstart hlast]
    · rw [if_pos hall]
      dsimp only
      split_ifs <;> rfl
    · rw [if_neg hall]
      dsimp only
      split_ifs <;> rfl

theorem batchKeys_length (start last : Int) : (batchKeys start last).length = (last + 1 - start).toNat := by
  simp [batchKeys]

theorem getElem?_batchKeys {start last : Int} {k : ℕ} (hk : k < (last + 1 - start).toNat) :
    (batchKeys start last)[k]? = some (start + k) := by
  rw [batchKeys, List.getElem?_map, List.getElem?_range hk]
  rfl

theorem filterMap_batchKeys {f : Int → Option PBFTProposal} {start last : Int} (h : ∀ i ∈ batchKeys start last, f i ≠ none) :
    ((batchKeys start last).filterMap f).length = (last + 1 - start).toNat ∧
      ∀ (k : ℕ) (hk : k < ((batchKeys start last).filterMap f).length), f (start + k) =
        some ((batchKeys start last).filterMap f)[k] := by
  have hmap : (batchKeys start last).map f = ((batchKeys start last).filterMap f).map some := by
    generalize batchKeys start last = keys at h
    induction keys with
    | nil => rfl
    | cons i keys ih =>
      obtain ⟨p, hp⟩ := Option.ne_none_iff_exists'.1 (h i List.mem_cons_self)
      rw [List.filterMap_cons_some hp, List.map_cons, List.map_cons, hp, ih fun j hj => h j (List.mem_cons_of_mem i hj)]
  have hlen : ((batchKeys start last).filterMap f).length = (last + 1 - start).toNat := by
    rw [← List.length_map (f := some), ← hmap, List.length_map, batchKeys_length]
  refine ⟨hlen, fun k hk => ?_⟩
  have hget : ((batchKeys start last).map f)[k]? = some (some ((batchKeys start last).filterMap f)[k]) := by
    rw [hmap, List.getElem?_map, List.getElem?_eq_getElem hk]
    rfl
  rw [hlen] at hk
  rw [List.getElem?_map, getElem?_batchKeys hk] at hget
  exact Option.some.inj hget

theorem isRun_nil_iff {db : PbftCommitDB} {start : Int} : IsRun pb db start [] ↔ db.row pb start = none := by
  constructor
  · intro h
    simpa using h.ends
  · intro h
    exact ⟨fun k hk => absurd hk (Nat.not_lt_zero k), by simpa using h⟩

/-- The rows up to the greatest index are a run when none of them is missing and nothing follows. -/
theorem isRun_filterMap_iff {db : PbftCommitDB} {start last : Int} (hle : start ≤ last)
    (hall : ∀ i ∈ batchKeys start last, db.row pb i ≠ none) :
    IsRun pb db start ((batchKeys start last).filterMap (db.row pb)) ↔ db.row pb (last + 1) = none := by
  obtain ⟨hlen, hget⟩ := filterMap_batchKeys hall
  have hend : start + ((batchKeys start last).filterMap (db.row pb)).length = last + 1 := by
    rw [hlen]
    omega
  constructor
  · intro h
    rw [← hend]
    exact h.ends
  · intro h
    exact ⟨hget, by rw [hend]; exact h⟩

theorem Sound.recovers_iff {db : PbftCommitDB} (hs : (restarted db).Sound pb) (hpb : pb.Lawful)
    (hempty : pb.decode [] = some {})
    (hstable : 0 ≤ stabledIndex) (maxError batchError : Bool) : Recovers pb db stabledIndex maxError batchError ↔
      Intact pb db stabledIndex maxError batchError := by
  unfold Recovers
  rw [loadState_restarted hs hpb hempty hstable]
  cases maxError with
  | true =>
    rw [if_pos (Or.inl rfl)]
    exact ⟨fun h => absurd h.1 (by decide), fun h => absurd h.maxRead (by decide)⟩
  | false =>
    simp only [Bool.false_eq_true, false_or]
    split_ifs with hle hbatch hall
    · dsimp only
      rw [Option.getD_none, isRun_nil_iff]
      constructor
      · intro h
        exact ⟨rfl, Or.inl h.2⟩
      · intro h
        refine ⟨trivial, h.rows.resolve_right fun hlt => ?_⟩
        omega
    · exact ⟨fun _ => ⟨rfl, Or.inr ⟨not_le.1 hle, Or.inl hbatch⟩⟩, fun _ => hbatch⟩
    · dsimp only
      rw [Option.getD_some, isRun_filterMap_iff (by omega) hall]
      constructor
      · intro h
        exact ⟨rfl, Or.inr ⟨not_le.1 hle, Or.inr ⟨hall, h.2⟩⟩⟩
      · intro h
        refine ⟨trivial, ?_⟩
        rcases h.rows with hnone | ⟨-, hread | ⟨-, hnone⟩⟩
        · exact absurd hnone (hall _ (mem_batchKeys.2 ⟨le_rfl, by omega⟩))
        · exact absurd hread hbatch
        · exact hnone
    · dsimp only
      rw [Option.getD_none, isRun_nil_iff]
      constructor
      · intro h
        exact ⟨rfl, Or.inl h.2⟩
      · intro h
        refine ⟨trivial, h.rows.resolve_right fun hlt => ?_⟩
        rcases hlt.2 with hread | ⟨hpresent, -⟩
        · exact hbatch hread
        · exact hall hpresent

/-- What earlier processes left recovers exactly when it is intact where the restart reads it. -/
theorem loadState_recovers_iff (hpb : pb.Lawful) (hempty : pb.decode [] = some {}) (hs : Written pb s)
    (hstable : 0 ≤ stabledIndex)
    (maxError batchError : Bool) : Recovers pb s.db stabledIndex maxError batchError ↔
      Intact pb s.db stabledIndex maxError batchError :=
  hs.restart.sound.recovers_iff hpb hempty hstable maxError batchError

theorem Written.loaded (hs : Written pb s) (hpb : pb.Lawful) (hempty : pb.decode [] = some {}) (hstable : 0 ≤ stabledIndex)
    {l : Option (List PBFTProposal)} (h : ((restarted s.db).loadState pb stabledIndex maxError batchError).2 = .loaded l) :
    ∃ last, (l.getD []).map PBFTProposal.index = batchKeys (stabledIndex + 1) last := by
  have hnone : ∃ last, ((none : Option (List PBFTProposal)).getD []).map PBFTProposal.index =
    batchKeys (stabledIndex + 1) last :=
    ⟨stabledIndex, by simp [batchKeys]⟩
  rw [loadState_restarted hs.restart.sound hpb hempty hstable] at h
  split_ifs at h with hle hbatch hall
  · cases h
    exact hnone
  · cases h
    refine ⟨s.db.maxCommittedProposal.getD 0, ?_⟩
    rw [Option.getD_some]
    generalize batchKeys (stabledIndex + 1) (s.db.maxCommittedProposal.getD 0) = keys at hall
    induction keys with
    | nil => rfl
    | cons i keys ih =>
      obtain ⟨p, hp⟩ := Option.ne_none_iff_exists'.1 (hall i List.mem_cons_self)
      have hindex := ((hs.restart.sound.row hpb hempty i).2 p hp).1
      rw [List.filterMap_cons_some hp, List.map_cons, hindex, ih fun j hj => hall j (List.mem_cons_of_mem i hj)]
  · cases h
    exact hnone

def toyPb : PBObject PBFTProposal := Toy.object Toy.pbftProposal

def toyCommitted (data : Bool) : LedgerStorage :=
  let second : PBFTProposal := { proposal := { index := 2, data := [2, 7] } }
  (({} : LedgerStorage).asyncCommitProposal toyPb (Toy.proposal 7) (fun _ => true)
    (fun _ => true)).asyncCommitProposal toyPb second
    (fun _ => true) (fun _ => data)

/-- Both proposals come back. -/
theorem toyCommitted_recovers : Recovers toyPb (toyCommitted true).db 0 false false := by
  have hs : Written toyPb (toyCommitted true) := .commit _ _ _ (.commit _ _ _ .fresh)
  exact (loadState_recovers_iff (Toy.object_lawful _) rfl hs le_rfl false false).2 (by decide +kernel)

/-- The process stops before the data of proposal 2 is written: proposal 1 is lost. An error of the first read looks like an
empty table. -/
theorem toyCommitted_lost : ¬Recovers toyPb (toyCommitted false).db 0 false false ∧
    ¬Recovers toyPb (toyCommitted true).db 0 true false := by
  have hs : ∀ data, Written toyPb (toyCommitted data) := fun data => .commit _ _ _ (.commit _ _ _ .fresh)
  constructor
  · rw [(hs false).restart.sound.recovers_iff (Toy.object_lawful _) rfl le_rfl]
    decide +kernel
  · rw [(hs true).restart.sound.recovers_iff (Toy.object_lawful _) rfl le_rfl]
    decide +kernel

end LedgerStorage

end BcosPbft
