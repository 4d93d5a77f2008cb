import BcosPbft.Proofs.Leaders
import BcosPbft.Proofs.ViewOrder

/-! The recursion of the fast view change. Every call aims one view higher, so the leaders rotate, and the turn of this node
comes within two rounds: within one if the view does not wrap around, and within one more after it has. -/

namespace BcosPbft

/-- `k` recursive calls of `tryTriggerFastViewChange`, each after the handler. -/
inductive FastCalls (E : Env) (s : Node) (leaderIndex : IndexType) : Nat → Node → IndexType → Prop
  | refl : FastCalls E s leaderIndex 0 s leaderIndex
  | call {k : Nat} {t u : Node} {i : IndexType} (h : FastCalls E s leaderIndex k t i) (hskips : t.cfg.skips i = true)
      (hhandler : t.triggerTimeout E = some u) :
      FastCalls E s leaderIndex (k + 1) u (u.cfg.leaderIndexInNewViewPeriod u.cfg.progressedIndex u.cfg.toView)

namespace Config

def leaderAhead (c : Config) (k : Nat) : IndexType :=
  c.leaderIndexInNewViewPeriod c.progressedIndex (c.toView + .ofNat k)

/-- A counter that is added to modulo `2 ^ 64` goes through all residues in less than two rounds. -/
theorem exists_residue {x n o : Nat} (hx : x < 2 ^ 64) (hn : n < 2 ^ 64) (ho : o < n) :
    ∃ k, 0 < k ∧ k < 2 * n ∧ (x + k) % 2 ^ 64 % n = o := by
  have hlt : (o + (n - (x + 1) % n)) % n < n := Nat.mod_lt _ (by omega)
  have hround : (x + ((o + (n - (x + 1) % n)) % n + 1)) % n = o := by
    have hmod : (x + 1) % n < n := Nat.mod_lt _ (by omega)
    rw [show x + ((o + (n - (x + 1) % n)) % n + 1) = x + 1 + (o + (n - (x + 1) % n)) % n by omega, Nat.add_mod, Nat.mod_mod,
      ← Nat.add_mod, Nat.add_mod, Nat.add_mod_mod, show (x + 1) % n + (o + (n - (x + 1) % n)) = o + n by omega,
      Nat.add_mod_right, Nat.mod_eq_of_lt ho]
  by_cases hroom : x + ((o + (n - (x + 1) % n)) % n + 1) < 2 ^ 64
  · exact ⟨(o + (n - (x + 1) % n)) % n + 1, by omega, by omega, by rw [Nat.mod_eq_of_lt hroom, hround]⟩
  · -- the round that the wrap interrupts starts again at 0
    refine ⟨2 ^ 64 - x + o, by omega, by omega, ?_⟩
    rw [show x + (2 ^ 64 - x + o) = o + 2 ^ 64 by omega, Nat.add_mod_right,
      Nat.mod_eq_of_lt (show o < 2 ^ 64 by omega), Nat.mod_eq_of_lt ho]

theorem toNat_leaderAhead {c : Config} (hc : c.Derived) (hlen : c.consensusNodeList.length < 2 ^ 64) (k : Nat) :
    (c.leaderAhead k).toNat =
      ((UInt64.ofInt c.progressedIndex / c.leaderSwitchPeriod + c.toView).toNat + k) % 2 ^ 64 % c.consensusNodeList.length := by
  have hnum : c.consensusNodeNum.toNat = c.consensusNodeList.length := by
    rw [hc.number]
    exact Nat.mod_eq_of_lt hlen
  unfold leaderAhead leaderIndexInNewViewPeriod
  rw [UInt64.toNat_mod, hnum, ← UInt64.add_assoc, UInt64.toNat_add, UInt64.toNat_ofNat', Nat.add_mod_mod]

theorem Derived.own_lt {c : Config} (hc : c.Derived) (hlen : c.consensusNodeList.length < 2 ^ 64)
    (hmember : ∃ n ∈ c.consensusNodeList, n.nodeID = c.keyPair.publicKey) :
    c.nodeIndex.toNat < c.consensusNodeList.length := by
  obtain ⟨n, hn, hid⟩ := hmember
  rcases hc.own hlen with hown | ⟨hnone, -⟩
  · unfold nodeIDAt getConsensusNodeByIndex at hown
    obtain ⟨m, hm, -⟩ := Option.map_eq_some_iff.1 hown
    exact (List.getElem?_eq_some_iff.1 hm).1
  · exact absurd hid (hnone n hn)

/-- The turn of a node of the list comes within two rounds. -/
theorem exists_leaderAhead_own {c : Config} (hc : c.Derived) (hlen : c.consensusNodeList.length < 2 ^ 64)
    (hmember : ∃ n ∈ c.consensusNodeList, n.nodeID = c.keyPair.publicKey) :
    ∃ k, 0 < k ∧ k < 2 * c.consensusNodeList.length ∧ c.leaderAhead k = c.nodeIndex := by
  obtain ⟨k, hpos, hk, hturn⟩ := exists_residue
    (UInt64.toNat_lt (UInt64.ofInt c.progressedIndex / c.leaderSwitchPeriod + c.toView)) hlen (hc.own_lt hlen hmember)
  exact ⟨k, hpos, hk, UInt64.toNat_inj.1 ((toNat_leaderAhead hc hlen k).trans hturn)⟩

theorem of_not_skips {c : Config} {i : IndexType} (hconnected : c.connectedNodeList ≠ []) (hnode : c.isConsensusNode = true)
    (h : c.skips i = false) : i = c.nodeIndex ∨ ∀ n, c.getConsensusNodeByIndex i = some n → n.nodeID ∈ c.connectedNodeList := by
  unfold skips at h
  by_cases hown : i = c.nodeIndex
  · exact Or.inl hown
  · refine Or.inr fun n hn => ?_
    simpa [hconnected, hnode, hown, hn] using h

end Config

namespace Node

variable {E : Env} {s t : Node} {leader i : IndexType} {k : Nat}

/-- The calls leave the leaders, aim one view higher each, and every leader before the last is skipped. -/
theorem fastCalls_spec (h : FastCalls E s leader k t i) : s.cfg.SameLeaders t.cfg ∧ t.cfg.toView = s.cfg.toView + .ofNat k ∧
    (0 < k → i = s.cfg.leaderAhead k) ∧ ∀ j, 0 < j → j < k → s.cfg.skips (s.cfg.leaderAhead j) = true := by
  induction h with
  | refl => exact ⟨.refl s.cfg, by simp, fun h => absurd h (lt_irrefl 0), fun j _ hj => absurd hj (Nat.not_lt_zero j)⟩
  | @call k t u i h hskips hhandler ih =>
    obtain ⟨hsame, hto, hleader, hbefore⟩ := ih
    have hsame' : s.cfg.SameLeaders u.cfg :=
      hsame.trans (Steps.sameLeaders (triggerTimeout_steps t Label.steady_wide rfl hhandler) (fun _ hl => hl))
    have hto' : u.cfg.toView = s.cfg.toView + .ofNat (k + 1) := by
      rw [triggerTimeout_aim hhandler, hto, UInt64.ofNat_add, ← UInt64.add_assoc]
      rfl
    refine ⟨hsame', hto', fun _ => ?_, fun j hpos hj => ?_⟩
    · rw [hsame'.leader, hsame'.progressedIndex, hto']
      rfl
    · rcases Nat.lt_succ_iff_lt_or_eq.1 hj with hj | rfl
      · exact hbefore j hpos hj
      · rw [← hleader hpos, ← hsame.skips]
        exact hskips

theorem fastCalls_bounded (hc : s.cfg.Derived) (hlen : s.cfg.consensusNodeList.length < 2 ^ 64)
    (hmember : ∃ n ∈ s.cfg.consensusNodeList, n.nodeID = s.cfg.keyPair.publicKey) (h : FastCalls E s leader k t i) :
    k < 2 * s.cfg.consensusNodeList.length := by
  obtain ⟨j, hpos, hj, hown⟩ := Config.exists_leaderAhead_own hc hlen hmember
  by_contra hk
  have hskips := (fastCalls_spec h).2.2.2 j hpos (by omega)
  rw [hown] at hskips
  simp [Config.skips] at hskips

theorem fastCalls_end (hc : s.cfg.Derived) (hlen : s.cfg.consensusNodeList.length < 2 ^ 64)
    (hmember : ∃ n ∈ s.cfg.consensusNodeList, n.nodeID = s.cfg.keyPair.publicKey) {d : Nat} (h : FastCalls E s leader k t i)
    (hd : 2 * s.cfg.consensusNodeList.length ≤ k + d) : ∃ k' t' i', FastCalls E s leader k' t' i' ∧
      ((t'.cfg.skips i' = false ∧ ∀ fuel, d < fuel → tryTriggerFastViewChange E fuel t i = some t') ∨
        (t'.triggerTimeout E = none ∧ ∀ fuel, d < fuel → tryTriggerFastViewChange E fuel t i = none)) := by
  induction d generalizing k t i with
  | zero => exact absurd (fastCalls_bounded hc hlen hmember h) (by omega)
  | succ d ih =>
    cases hskips : t.cfg.skips i with
    | false =>
      refine ⟨k, t, i, h, Or.inl ⟨hskips, fun fuel hfuel => ?_⟩⟩
      obtain ⟨fuel, rfl⟩ := Nat.exists_eq_add_one_of_ne_zero (show fuel ≠ 0 by omega)
      rw [tryTriggerFastViewChange_succ, hskips]
      rfl
    | true =>
      have hcall : ∀ fuel, d + 1 < fuel → ∃ f, d < f ∧ tryTriggerFastViewChange E fuel t i =
          (t.triggerTimeout E).bind fun u => tryTriggerFastViewChange E f u
            (u.cfg.leaderIndexInNewViewPeriod u.cfg.progressedIndex u.cfg.toView) := by
        intro fuel hfuel
        obtain ⟨f, rfl⟩ := Nat.exists_eq_add_one_of_ne_zero (show fuel ≠ 0 by omega)
        exact ⟨f, by omega, by rw [tryTriggerFastViewChange_succ, hskips, if_pos rfl]⟩
      cases hhandler : t.triggerTimeout E with
      | none =>
        refine ⟨k, t, i, h, Or.inr ⟨hhandler, fun fuel hfuel => ?_⟩⟩
        obtain ⟨f, -, hf⟩ := hcall fuel hfuel
        rw [hf, hhandler]
        rfl
      | some u =>
        have hnext : ∀ {r : Option Node}, (∀ f, d < f → tryTriggerFastViewChange E f u
              (u.cfg.leaderIndexInNewViewPeriod u.cfg.progressedIndex u.cfg.toView) = r) →
            ∀ fuel, d + 1 < fuel → tryTriggerFastViewChange E fuel t i = r := by
          intro r hr fuel hfuel
          obtain ⟨f, hdf, hf⟩ := hcall fuel hfuel
          rw [hf, hhandler, Option.bind_some, hr f hdf]
        obtain ⟨k', t', i', h', hend⟩ := ih (h.call hskips hhandler) (by omega)
        refine ⟨k', t', i', h', ?_⟩
        rcases hend with ⟨hstop, hr⟩ | ⟨hnone, hr⟩
        · exact Or.inl ⟨hstop, hnext hr⟩
        · exact Or.inr ⟨hnone, hnext hr⟩

end Node

/-- Whatever the leader period, the view aimed at and the connections: there are fewer calls than twice the nodes, each one
view higher; the rotation names this node by then, and the search ends at this node or at a connected one, unless the
handler does not return. The fuel that `resetTimer` gives is enough for it. -/
theorem fastViewChange_terminates {E : Env} {s : Node} (hc : s.cfg.Derived) (hlen : s.cfg.consensusNodeList.length < 2 ^ 64)
    (hmember : ∃ n ∈ s.cfg.consensusNodeList, n.nodeID = s.cfg.keyPair.publicKey) (hconnected : s.cfg.connectedNodeList ≠ [])
    (leader : IndexType) :
    (∀ k t i, FastCalls E s leader k t i → k < 2 * s.cfg.consensusNodeList.length ∧ t.cfg.toView = s.cfg.toView + .ofNat k) ∧
    (∃ k, 0 < k ∧ k < 2 * s.cfg.consensusNodeList.length ∧ s.cfg.leaderAhead k = s.cfg.nodeIndex) ∧
    ∃ k t i, FastCalls E s leader k t i ∧
      (((i = t.cfg.nodeIndex ∨ ∀ n, t.cfg.getConsensusNodeByIndex i = some n → n.nodeID ∈ t.cfg.connectedNodeList) ∧
        ∀ fuel, 2 * s.cfg.consensusNodeList.length < fuel → s.tryTriggerFastViewChange E fuel leader = some t) ∨
      (t.triggerTimeout E = none ∧
        ∀ fuel, 2 * s.cfg.consensusNodeList.length < fuel → s.tryTriggerFastViewChange E fuel leader = none)) := by
  refine ⟨fun k t i h => ⟨Node.fastCalls_bounded hc hlen hmember h, (Node.fastCalls_spec h).2.1⟩,
    Config.exists_leaderAhead_own hc hlen hmember, ?_⟩
  have hstart : FastCalls E s leader 0 s leader := .refl
  obtain ⟨k, t, i, h, hend⟩ := Node.fastCalls_end (d := 2 * s.cfg.consensusNodeList.length) hc hlen hmember hstart (by omega)
  refine ⟨k, t, i, h, ?_⟩
  rcases hend with ⟨hstop, hr⟩ | ⟨hnone, hr⟩
  · have hsame := (Node.fastCalls_spec h).1
    have hown : t.cfg.isConsensusNode = true := by
      have hlt := hc.own_lt hlen hmember
      unfold Config.isConsensusNode
      rw [decide_eq_true_eq, hsame.nodeIndex]
      intro heq
      rw [heq] at hlt
      exact absurd hlt (by change ¬(2 ^ 64 - 1 < _); omega)
    exact Or.inl ⟨Config.of_not_skips (hsame.connected ▸ hconnected) hown hstop, hr⟩
  · exact Or.inr ⟨hnone, hr⟩

def toyLastView : Node :=
  (Toy.node 3 [1, 1, 1, 1]).setCfg
    { (Toy.node 3 [1, 1, 1, 1]).cfg with toView := 18446744073709551615, connectedNodeList := [[2]] }

theorem toyLastView_derived : toyLastView.cfg.Derived where
  total := by decide +kernel
  faulty := by decide +kernel
  required := by decide +kernel
  number := by decide +kernel
  index := by decide +kernel

/-- Its view wraps around on the way. -/
theorem toyLastView_terminates : (∃ k, 0 < k ∧ k < 2 * toyLastView.cfg.consensusNodeList.length ∧
      toyLastView.cfg.leaderAhead k = toyLastView.cfg.nodeIndex) ∧
    ∃ k t i, FastCalls Toy.env toyLastView 0 k t i ∧ t.cfg.toView = toyLastView.cfg.toView + .ofNat k := by
  obtain ⟨hcalls, hturn, k, t, i, h, -⟩ := fastViewChange_terminates (E := Toy.env) toyLastView_derived (by decide +kernel)
    (by decide +kernel) (by decide +kernel) 0
  exact ⟨hturn, k, t, i, h, (hcalls k t i h).2⟩

end BcosPbft
