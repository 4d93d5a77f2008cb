import BcosPbft.Lib.Trail
import BcosPbft.Spec.TxsValidator
import BcosPbft.Spec.Toy

/-! The marks of the proposals whose transactions are being reset. A mark goes away when the txpool answers, so the marks
drain exactly when each of them is tended: some request for its hash is under way and will reach the txpool. -/

namespace BcosPbft

/-- The request takes the mark of the hash away when the txpool answers it. -/
def MarkCall.Clears (c : MarkCall) (h : HashType) : Prop :=
  c.flag = true ∧ c.block.hash = h ∧ c.block.transactionHashes ≠ []

instance (c : MarkCall) (h : HashType) : Decidable (c.Clears h) := inferInstanceAs (Decidable (_ ∧ _ ∧ _))

namespace TxsValidator

variable {v w : TxsValidator} {c : MarkCall} {h : HashType} {i : Nat} {e : Event}

def Marks (v : TxsValidator) (h : HashType) : Prop := v.resettingProposals.contains h = true

instance (v : TxsValidator) (h : HashType) : Decidable (v.Marks h) := inferInstanceAs (Decidable (_ = _))

def Clearing (l : List MarkCall) (h : HashType) : Prop := ∃ c ∈ l, c.Clears h

instance (l : List MarkCall) (h : HashType) : Decidable (Clearing l h) := inferInstanceAs (Decidable (∃ c ∈ _, _))

/-- A request that will clear the mark of the hash is under way. -/
def Tends (v : TxsValidator) (h : HashType) : Prop := Clearing v.worker h ∨ Clearing v.marking h ∨ Clearing v.retrying h

instance (v : TxsValidator) (h : HashType) : Decidable (v.Tends h) := inferInstanceAs (Decidable (_ ∨ _ ∨ _))

def Loaded (v : TxsValidator) : Prop := ∀ c ∈ v.marking ++ v.retrying, c.block.transactionHashes ≠ []

theorem clearing_eraseIdx {l : List MarkCall} (hc : l[i]? = some c) : Clearing l h ↔ c.Clears h ∨ Clearing (l.eraseIdx i) h := by
  obtain ⟨hlt, rfl⟩ := List.getElem?_eq_some_iff.1 hc
  unfold Clearing
  simp only [← (List.getElem_cons_eraseIdx_perm hlt).mem_iff, List.exists_mem_cons_iff]

theorem clearing_append (l : List MarkCall) (c : MarkCall) : Clearing (l ++ [c]) h ↔ Clearing l h ∨ c.Clears h := by
  unfold Clearing
  simp only [List.mem_append, List.mem_singleton, or_and_right, exists_or, exists_eq_left]

theorem marks_insert (v : TxsValidator) (h' : HashType) :
    (v.insertResettingProposal h').1.Marks h ↔ v.Marks h ∨ h = h' := by
  unfold insertResettingProposal
  split_ifs with hmarked
  · refine ⟨Or.inl, fun hor => ?_⟩
    rcases hor with hmarks | rfl
    · exact hmarks
    · exact hmarked
  · unfold Marks
    dsimp only
    rw [OrdMap.contains_iff, OrdMap.contains_iff, OrdMap.find?_insert]
    split_ifs with heq <;> simp [heq]

theorem marks_erase (v : TxsValidator) (h' : HashType) : (v.eraseResettingProposal h').Marks h ↔ v.Marks h ∧ h ≠ h' := by
  unfold eraseResettingProposal Marks
  rw [OrdMap.contains_iff, OrdMap.contains_iff, OrdMap.find?_erase]
  split_ifs with heq <;> simp [heq]

theorem asyncResetTxsFlag_cases (v : TxsValidator) (b : ProposalBlock) (flag : Bool) :
    (flag = true ∧ v.Marks b.hash ∧ v.asyncResetTxsFlag b flag = v) ∨
    (flag = true → ¬v.Marks b.hash) ∧
      (∀ h, (v.asyncResetTxsFlag b flag).Marks h ↔ v.Marks h ∨ flag = true ∧ h = b.hash) ∧
      (v.asyncResetTxsFlag b flag).marking = v.marking ∧ (v.asyncResetTxsFlag b flag).retrying = v.retrying ∧
      (v.asyncResetTxsFlag b flag).worker = v.worker ++ [{ block := b, flag := flag }] := by
  cases flag with
  | false => exact Or.inr ⟨nofun, fun h => by simp [asyncResetTxsFlag, Marks], rfl, rfl, rfl⟩
  | true =>
    by_cases hmarked : v.Marks b.hash
    · refine Or.inl ⟨rfl, hmarked, ?_⟩
      unfold Marks at hmarked
      simp [asyncResetTxsFlag, insertResettingProposal, hmarked]
    · have hmarks := fun h => @marks_insert h v b.hash
      unfold Marks at hmarked
      have hinsert : v.insertResettingProposal b.hash =
          ({ v with resettingProposals := v.resettingProposals.insert b.hash () }, true) := by
        unfold insertResettingProposal
        rw [if_neg hmarked]
      unfold asyncResetTxsFlag
      rw [if_pos rfl]
      rw [hinsert] at hmarks ⊢
      refine Or.inr ⟨fun _ => hmarked, fun h => ?_, rfl, rfl, rfl⟩
      rw [and_iff_right rfl]
      exact hmarks h

/-- A task without transactions clears nothing, and every other one becomes a call. -/
theorem tends_runTask (hc : v.worker[i]? = some c) :
    ({ v with worker := v.worker.eraseIdx i }.runTask c).Tends h ↔ v.Tends h := by
  unfold runTask Tends
  rw [clearing_eraseIdx hc]
  split_ifs with hempty
  · have hnot : ¬c.Clears h := fun hclears => hclears.2.2 (List.eq_nil_of_length_eq_zero hempty)
    rw [or_iff_right hnot]
  · dsimp only
    rw [clearing_append]
    tauto

theorem tends_retry (hc : v.retrying[i]? = some c) :
    ({ v with retrying := v.retrying.eraseIdx i }.retry c).Tends h ↔ v.Tends h := by
  have hpending : ({ v with retrying := v.retrying.eraseIdx i }.retry c).Tends h ↔
      { v with marking := v.marking ++ [{ c with retryTime := c.retryTime + 1 }]
               retrying := v.retrying.eraseIdx i }.Tends h := by
    unfold retry insertResettingProposal
    split_ifs <;> exact Iff.rfl
  have hsame : { c with retryTime := c.retryTime + 1 }.Clears h ↔ c.Clears h := Iff.rfl
  rw [hpending]
  unfold Tends
  dsimp only
  rw [clearing_eraseIdx hc, clearing_append, hsame]
  tauto

/-- An answer that is final, or is not about the hash, ends or repeats its request. -/
theorem tends_onMarked (hc : v.marking[i]? = some c) (error : Bool) :
    (({ v with marking := v.marking.eraseIdx i }.onMarked c error).Tends h → v.Tends h) ∧
    (¬c.Clears h → v.Tends h → ({ v with marking := v.marking.eraseIdx i }.onMarked c error).Tends h) := by
  have hpending : ({ v with marking := v.marking.eraseIdx i }.onMarked c error).Tends h ↔
      { v with marking := v.marking.eraseIdx i
               retrying := if error && c.retryTime < 3 then v.retrying ++ [c] else v.retrying }.Tends h := by
    unfold onMarked eraseResettingProposal
    cases error <;> simp <;> split_ifs <;> first
      | exact Iff.rfl
      | omega
  rw [hpending]
  unfold Tends
  dsimp only
  rw [clearing_eraseIdx hc]
  split_ifs with hagain
  · rw [clearing_append]
    tauto
  · tauto

/-- A step leaves marks and requests as they are, marks the hash of a new request, clears a mark that was tended, or puts one
back that still is. -/
theorem step_cases (hv : v.Loaded) (hstep : v.step e = some w) :
    (∀ h, (w.Marks h ↔ v.Marks h) ∧ (w.Tends h ↔ v.Tends h)) ∨
    (∃ b, e = .asyncResetTxsFlag b true ∧ ¬v.Marks b.hash ∧ ∀ h, (w.Marks h ↔ v.Marks h ∨ h = b.hash) ∧
      (w.Tends h ↔ v.Tends h ∨ h = b.hash ∧ b.transactionHashes ≠ [])) ∨
    (∃ h₀, v.Tends h₀ ∧ ∀ h, (w.Marks h ↔ v.Marks h ∧ h ≠ h₀) ∧ (h ≠ h₀ → (w.Tends h ↔ v.Tends h))) ∨
    ∃ h₀, v.Tends h₀ ∧ ∀ h, (w.Marks h ↔ v.Marks h ∨ h = h₀) ∧ (w.Tends h ↔ v.Tends h) := by
  cases e with
  | asyncResetTxsFlag b flag =>
    obtain rfl := Option.some.inj hstep
    rcases v.asyncResetTxsFlag_cases b flag with ⟨-, -, heq⟩ | ⟨hfresh, hmarks, hmarking, hretrying, hworker⟩
    · rw [heq]
      exact Or.inl fun h => ⟨Iff.rfl, Iff.rfl⟩
    have htends : ∀ h, (v.asyncResetTxsFlag b flag).Tends h ↔
        v.Tends h ∨ ({ block := b, flag := flag } : MarkCall).Clears h := by
      intro h
      unfold Tends
      rw [hmarking, hretrying, hworker, clearing_append]
      tauto
    cases flag with
    | false =>
      refine Or.inl fun h => ⟨?_, ?_⟩
      · simp [hmarks]
      · simp [htends, MarkCall.Clears]
    | true =>
      refine Or.inr (Or.inl ⟨b, rfl, hfresh rfl, fun h => ⟨?_, ?_⟩⟩)
      · simp [hmarks]
      · simp [htends, MarkCall.Clears, eq_comm]
  | runTask i =>
    simp only [step] at hstep
    split at hstep
    · obtain rfl := Option.some.inj hstep
      exact Or.inl fun h => ⟨Iff.rfl, Iff.rfl⟩
    · rename_i c hc
      obtain rfl := Option.some.inj hstep
      refine Or.inl fun h => ⟨?_, tends_runTask hc⟩
      unfold runTask
      split_ifs <;> exact Iff.rfl
  | onMarked i error =>
    simp only [step] at hstep
    split at hstep
    · obtain rfl := Option.some.inj hstep
      exact Or.inl fun h => ⟨Iff.rfl, Iff.rfl⟩
    rename_i c hc
    obtain rfl := Option.some.inj hstep
    have hmarks : ∀ h, ({ v with marking := v.marking.eraseIdx i }.onMarked c error).Marks h ↔
        v.Marks h ∧ (c.flag = true → h ≠ c.block.hash) := by
      intro h
      have herase := marks_erase (h := h) { v with marking := v.marking.eraseIdx i } c.block.hash
      by_cases hflag : c.flag = true
      · rw [show v.Marks h ∧ (c.flag = true → h ≠ c.block.hash) ↔ v.Marks h ∧ h ≠ c.block.hash by simp [hflag]]
        refine Iff.trans ?_ herase
        unfold onMarked
        rw [if_pos hflag]
        dsimp only
        split_ifs <;> exact Iff.rfl
      · rw [show v.Marks h ∧ (c.flag = true → h ≠ c.block.hash) ↔ v.Marks h by simp [hflag]]
        unfold onMarked
        rw [if_neg hflag]
        dsimp only
        split_ifs <;> exact Iff.rfl
    have hmem : c ∈ v.marking := List.mem_of_getElem? hc
    by_cases hflag : c.flag = true
    · refine Or.inr (Or.inr (Or.inl ⟨c.block.hash, ?_, fun h => ⟨?_, fun hne => ?_⟩⟩))
      · exact Or.inr (Or.inl ⟨c, hmem, hflag, rfl, hv c (List.mem_append_left _ hmem)⟩)
      · simp [hmarks, hflag]
      · have hnot : ¬c.Clears h := fun hclears => hne hclears.2.1.symm
        exact ⟨(tends_onMarked hc error).1, (tends_onMarked hc error).2 hnot⟩
    · refine Or.inl fun h => ⟨?_, ?_⟩
      · simp [hmarks, hflag]
      · have hnot : ¬c.Clears h := fun hclears => hflag hclears.1
        exact ⟨(tends_onMarked hc error).1, (tends_onMarked hc error).2 hnot⟩
  | retry i =>
    simp only [step] at hstep
    split at hstep
    · obtain rfl := Option.some.inj hstep
      exact Or.inl fun h => ⟨Iff.rfl, Iff.rfl⟩
    rename_i c hc
    obtain rfl := Option.some.inj hstep
    have hmarks : ∀ h, ({ v with retrying := v.retrying.eraseIdx i }.retry c).Marks h ↔
        v.Marks h ∨ (c.flag = true ∧ h = c.block.hash) := by
      intro h
      have hinsert := marks_insert (h := h) { v with retrying := v.retrying.eraseIdx i } c.block.hash
      by_cases hflag : c.flag = true
      · rw [show v.Marks h ∨ c.flag = true ∧ h = c.block.hash ↔ v.Marks h ∨ h = c.block.hash by simp [hflag]]
        refine Iff.trans ?_ hinsert
        unfold retry
        rw [if_pos hflag]
        exact Iff.rfl
      · rw [show v.Marks h ∨ c.flag = true ∧ h = c.block.hash ↔ v.Marks h by simp [hflag]]
        unfold retry
        rw [if_neg hflag]
        exact Iff.rfl
    have hmem : c ∈ v.retrying := List.mem_of_getElem? hc
    by_cases hflag : c.flag = true
    · refine Or.inr (Or.inr (Or.inr ⟨c.block.hash, ?_, fun h => ⟨?_, tends_retry hc⟩⟩))
      · exact Or.inr (Or.inr ⟨c, hmem, hflag, rfl, hv c (List.mem_append_right _ hmem)⟩)
      · simp [hmarks, hflag]
    · exact Or.inl fun h => ⟨by simp [hmarks, hflag], tends_retry hc⟩

theorem Loaded.step (hv : v.Loaded) (hstep : v.step e = some w) : w.Loaded := by
  have hmarking : ∀ c ∈ v.marking, c.block.transactionHashes ≠ [] := fun c hc => hv c (List.mem_append_left _ hc)
  have hretrying : ∀ c ∈ v.retrying, c.block.transactionHashes ≠ [] := fun c hc => hv c (List.mem_append_right _ hc)
  suffices hparts : (∀ c ∈ w.marking, c.block.transactionHashes ≠ []) ∧ ∀ c ∈ w.retrying, c.block.transactionHashes ≠ [] by
    intro c hc
    rcases List.mem_append.1 hc with hc | hc
    · exact hparts.1 c hc
    · exact hparts.2 c hc
  have hsnoc : ∀ (l : List MarkCall) (c : MarkCall), (∀ c' ∈ l, c'.block.transactionHashes ≠ []) →
      c.block.transactionHashes ≠ [] → ∀ c' ∈ l ++ [c], c'.block.transactionHashes ≠ [] := by
    intro l c hl hc c' hc'
    rcases List.mem_append.1 hc' with hc' | hc'
    · exact hl c' hc'
    · exact List.mem_singleton.1 hc' ▸ hc
  cases e with
  | asyncResetTxsFlag b flag =>
    obtain rfl := Option.some.inj hstep
    rcases v.asyncResetTxsFlag_cases b flag with ⟨-, -, heq⟩ | ⟨-, -, hsame, hsame', -⟩
    · rw [heq]
      exact ⟨hmarking, hretrying⟩
    · rw [hsame, hsame']
      exact ⟨hmarking, hretrying⟩
  | runTask i =>
    simp only [step] at hstep
    split at hstep
    · obtain rfl := Option.some.inj hstep
      exact ⟨hmarking, hretrying⟩
    · rename_i c hc
      obtain rfl := Option.some.inj hstep
      unfold runTask
      split_ifs with hempty
      · exact ⟨hmarking, hretrying⟩
      · exact ⟨hsnoc _ c hmarking fun hnil => hempty (by rw [hnil]; rfl), hretrying⟩
  | onMarked i error =>
    simp only [step] at hstep
    split at hstep
    · obtain rfl := Option.some.inj hstep
      exact ⟨hmarking, hretrying⟩
    · rename_i c hc
      obtain rfl := Option.some.inj hstep
      have hrest : ∀ c' ∈ v.marking.eraseIdx i, c'.block.transactionHashes ≠ [] :=
        fun c' hc' => hmarking c' (List.mem_of_mem_eraseIdx hc')
      have hagain := hsnoc _ c hretrying (hmarking c (List.mem_of_getElem? hc))
      unfold onMarked eraseResettingProposal
      dsimp only
      split_ifs <;> first
        | exact ⟨hrest, hretrying⟩
        | exact ⟨hrest, hagain⟩
  | retry i =>
    simp only [step] at hstep
    split at hstep
    · obtain rfl := Option.some.inj hstep
      exact ⟨hmarking, hretrying⟩
    · rename_i c hc
      obtain rfl := Option.some.inj hstep
      have hrest : ∀ c' ∈ v.retrying.eraseIdx i, c'.block.transactionHashes ≠ [] :=
        fun c' hc' => hretrying c' (List.mem_of_mem_eraseIdx hc')
      have hagain := hsnoc _ { c with retryTime := c.retryTime + 1 } hmarking (hretrying c (List.mem_of_getElem? hc))
      unfold retry insertResettingProposal
      dsimp only
      split_ifs <;> exact ⟨hagain, hrest⟩

def Tended (v : TxsValidator) : Prop := ∀ h, v.Marks h → v.Tends h

/-- A mark that nothing will clear. -/
def Stuck (v : TxsValidator) (h : HashType) : Prop := v.Marks h ∧ ¬v.Tends h

/-- A call that marks a block without transactions comes while another request for its hash is under way. -/
def Event.Drains (v : TxsValidator) : Event → Prop
  | .asyncResetTxsFlag b true => b.transactionHashes = [] → ¬v.Marks b.hash → v.Tends b.hash
  | _ => True

theorem Tended.step (hv : v.Tended) (hloaded : v.Loaded) (hok : e.Drains v) (hstep : v.step e = some w) : w.Tended := by
  intro h hmarks
  rcases step_cases hloaded hstep with hsame | ⟨b, rfl, hfresh, hnew⟩ | ⟨h₀, -, hcleared⟩ | ⟨h₀, htends, hagain⟩
  · exact (hsame h).2.2 (hv h ((hsame h).1.1 hmarks))
  · rcases (hnew h).1.1 hmarks with hold | rfl
    · exact (hnew h).2.2 (Or.inl (hv h hold))
    · by_cases hempty : b.transactionHashes = []
      · exact (hnew _).2.2 (Or.inl (hok hempty hfresh))
      · exact (hnew _).2.2 (Or.inr ⟨rfl, hempty⟩)
  · obtain ⟨hold, hne⟩ := (hcleared h).1.1 hmarks
    exact ((hcleared h).2 hne).2 (hv h hold)
  · rcases (hagain h).1.1 hmarks with hold | rfl
    · exact (hagain h).2.2 (hv h hold)
    · exact (hagain _).2.2 htends

theorem Stuck.step (hv : v.Stuck h) (hloaded : v.Loaded) (hstep : v.step e = some w) : w.Stuck h := by
  obtain ⟨hmarks, hnot⟩ := hv
  rcases step_cases hloaded hstep with hsame | ⟨b, -, hfresh, hnew⟩ | ⟨h₀, htends, hcleared⟩ | ⟨h₀, -, hagain⟩
  · exact ⟨(hsame h).1.2 hmarks, fun ht => hnot ((hsame h).2.1 ht)⟩
  · refine ⟨(hnew h).1.2 (Or.inl hmarks), fun ht => ?_⟩
    rcases (hnew h).2.1 ht with ht | ⟨rfl, -⟩
    · exact hnot ht
    · exact hfresh hmarks
  · have hne : h ≠ h₀ := by
      rintro rfl
      exact hnot htends
    exact ⟨(hcleared h).1.2 ⟨hmarks, hne⟩, fun ht => hnot (((hcleared h).2 hne).1 ht)⟩
  · exact ⟨(hagain h).1.2 (Or.inl hmarks), fun ht => hnot ((hagain h).2.1 ht)⟩

theorem stuck_of_not_drains (hok : ¬e.Drains v) (hstep : v.step e = some w) : ∃ h, w.Stuck h := by
  cases e with
  | asyncResetTxsFlag b flag =>
    cases flag with
    | false => exact absurd trivial hok
    | true =>
      obtain ⟨hempty, hfresh, hnot⟩ : b.transactionHashes = [] ∧ ¬v.Marks b.hash ∧ ¬v.Tends b.hash := by
        simpa [Event.Drains] using hok
      obtain rfl := Option.some.inj hstep
      rcases v.asyncResetTxsFlag_cases b true with ⟨-, hmarked, -⟩ | ⟨-, hmarks, hmarking, hretrying, hworker⟩
      · exact absurd hmarked hfresh
      refine ⟨b.hash, (hmarks _).2 (Or.inr ⟨rfl, rfl⟩), ?_⟩
      unfold Tends
      rw [hmarking, hretrying, hworker, clearing_append]
      rintro ((ht | hclears) | ht)
      · exact hnot (Or.inl ht)
      · exact hclears.2.2 hempty
      · exact hnot (Or.inr ht)
  | _ => exact absurd trivial hok

theorem Finished.not_tends (hv : v.Finished) : ¬v.Tends h := by
  obtain ⟨hworker, hmarking, hretrying⟩ := hv
  unfold Tends Clearing
  rw [hworker, hmarking, hretrying]
  simp

/-- When everything has finished no mark is left, exactly when no call of the run marked a block without transactions while
nothing else was under way for its hash. -/
theorem resettingProposals_drained_iff {trace : List (TxsValidator × Event)} (hrun : Trail step {} trace v)
    (hfinished : v.Finished) : v.resettingProposals = ∅ ↔ ∀ x ∈ trace, x.2.Drains x.1 := by
  have hloaded : (∀ x ∈ trace, x.1.Loaded) ∧ v.Loaded :=
    hrun.preserves_all (I := Loaded) (fun _ _ _ (_ : True) hstep hs => hs.step hstep) (fun _ _ => trivial)
      (fun c hc => (by cases hc))
  constructor
  · intro hempty
    by_contra hbad
    simp only [not_forall] at hbad
    suffices h : ∃ h, v.Stuck h by
      obtain ⟨h, hmarks, -⟩ := h
      unfold Marks at hmarks
      rw [hempty] at hmarks
      cases hmarks
    clear hfinished hempty
    induction hrun with
    | nil =>
      obtain ⟨x, hx, -⟩ := hbad
      cases hx
    | @snoc trace u w e hpath hstep ih =>
      have hu : u.Loaded := hloaded.1 (u, e) (List.mem_append_right _ List.mem_cons_self)
      obtain ⟨x, hx, hnot⟩ := hbad
      rcases List.mem_append.1 hx with hx | hx
      · obtain ⟨h, hstuck⟩ := ih ⟨fun y hy => hloaded.1 y (List.mem_append_left _ hy), hu⟩ ⟨x, hx, hnot⟩
        exact ⟨h, hstuck.step hu hstep⟩
      · obtain rfl := List.mem_singleton.1 hx
        exact stuck_of_not_drains hnot hstep
  · intro hok
    have htended : v.Tended ∧ v.Loaded :=
      hrun.preserves (I := fun v => v.Tended ∧ v.Loaded) (fun _ _ _ hdrains hstep hs =>
        ⟨hs.1.step hs.2 hdrains hstep, hs.2.step hstep⟩) hok ⟨fun h hmarks => (by cases hmarks), fun c hc => (by cases hc)⟩
    apply OrdMap.ext_find?
    intro h
    rw [OrdMap.find?_empty, ← Option.not_isSome_iff_eq_none]
    exact fun hmarks => hfinished.not_tends (htended.1 h hmarks)

/-- The node and the validator have the same hashes marked. -/
structure Agrees (s : Node) (v : TxsValidator) : Prop where
  nodup : s.resettingProposals.Nodup
  marks : ∀ h, h ∈ s.resettingProposals ↔ v.Marks h

theorem Agrees.asyncResetTxsFlag {E : Env} {s : Node} {data : Bytes} {b : ProposalBlock} (hs : Agrees s v)
    (hb : b.hash = E.headerHash data) (flag : Bool) :
    Agrees (s.asyncResetTxsFlag E data flag) (v.asyncResetTxsFlag b flag) := by
  unfold Node.asyncResetTxsFlag
  rcases v.asyncResetTxsFlag_cases b flag with ⟨rfl, hmarked, heq⟩ | ⟨hfresh, hmarks, -⟩
  · rw [if_pos rfl, heq, if_pos (List.contains_iff_mem.2 ((hs.marks _).2 (hb ▸ hmarked)))]
    exact hs
  · cases flag with
    | false => exact ⟨hs.nodup, fun h => (hs.marks h).trans (by simp [hmarks])⟩
    | true =>
      have hnot : E.headerHash data ∉ s.resettingProposals := fun hmem => hfresh rfl ((hs.marks _).1 (hb ▸ hmem))
      rw [if_pos rfl, if_neg (fun hmem => hnot (List.contains_iff_mem.1 hmem))]
      refine ⟨List.nodup_append.2 ⟨hs.nodup, List.nodup_singleton _, ?_⟩, fun h => ?_⟩
      · rintro a ha _ hb' rfl
        exact hnot (List.mem_singleton.1 hb' ▸ ha)
      · rw [hmarks, ← hs.marks, hb, and_iff_right rfl]
        exact List.mem_append.trans (or_congr_right List.mem_singleton)

theorem Agrees.onMarked {s : Node} {c : MarkCall} (hs : Agrees s v) (hflag : c.flag = true) :
    Agrees { s with resettingProposals := s.resettingProposals.erase c.block.hash } (v.onMarked c false) := by
  refine ⟨hs.nodup.erase _, fun h => ?_⟩
  have hanswer : v.onMarked c false = v.eraseResettingProposal c.block.hash := by
    unfold TxsValidator.onMarked
    rw [if_pos hflag]
    rfl
  rw [hanswer, marks_erase, ← hs.marks, hs.nodup.mem_erase_iff, and_comm]

def toySealedBlock (transactionHashes : List HashType) : ProposalBlock :=
  { blockHeader := { number := 1, hash := Toy.checksum [1, 7] }, transactionHashes := transactionHashes }

def toyRetried : List Event :=
  [.asyncResetTxsFlag (toySealedBlock [Toy.checksum [9]]) true, .runTask 0, .onMarked 0 true, .retry 0, .onMarked 0 false]

theorem toyRetried_drained : ∃ trace v, Trail.states step {} toyRetried = some (trace, v) ∧ v.Finished ∧
    v.resettingProposals = ∅ := by
  have hrun : ((Trail.states step {} toyRetried).elim false fun r => decide r.2.Finished) = true := by decide +kernel
  obtain ⟨⟨trace, v⟩, hv, hfinished⟩ := Toy.exists_of_elim hrun
  have hfinished := of_decide_eq_true hfinished
  refine ⟨trace, v, hv, hfinished, (resettingProposals_drained_iff (.of_states hv) hfinished).2 fun x hx => ?_⟩
  have hevent := Trail.mem_events hv hx
  simp only [toyRetried, List.mem_cons, List.not_mem_nil, or_false] at hevent
  rcases hevent with h | h | h | h | h <;> rw [h]
  · intro hempty
    cases hempty
  all_goals trivial

/-- The task of a block without transactions ends at once, and the mark stays. -/
theorem toyEmpty_stuck : ∃ trace v,
    Trail.states step {} [.asyncResetTxsFlag (toySealedBlock []) true, .runTask 0] = some (trace, v) ∧
    v.Finished ∧ v.resettingProposals ≠ ∅ ∧ v.resettingProposalSize = 1 := by
  have hrun : ((Trail.states step {} [.asyncResetTxsFlag (toySealedBlock []) true, .runTask 0]).elim false fun r =>
      decide r.2.Finished && (decide (r.2.resettingProposals ≠ ∅) && decide (r.2.resettingProposalSize = 1))) = true := by
    decide +kernel
  obtain ⟨⟨trace, v⟩, hv, hcheck⟩ := Toy.exists_of_elim hrun
  simp only [Bool.and_eq_true, decide_eq_true_eq] at hcheck
  exact ⟨trace, v, hv, hcheck.1, hcheck.2.1, hcheck.2.2⟩

end TxsValidator

end BcosPbft
