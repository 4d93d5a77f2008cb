import Mathlib.Data.Nat.Notation
import Mathlib.Logic.Basic

/-! Replaying an agreed log. A position of the log may be filled by several copies of a command, on different replicas and
at different times; where the copies act alike, every position has one state. -/

noncomputable section

open Classical

namespace Replay

variable {Command State : Type*} (fill : ℕ → Command → Prop) (act : Command → State → State) (init : State)

/-- The copies of the command at a position act alike. -/
def Alike : Prop := ∀ n c c', fill n c → fill n c' → ∀ s, act c s = act c' s

/-- The state before position `n`. An open position leaves it as it is. -/
def state : ℕ → State
  | 0 => init
  | n + 1 => if h : ∃ c, fill n c then act h.choose (state n) else state n

@[simp] theorem state_zero : state fill act init 0 = init := rfl

variable {fill act}

/-- Every copy of the command at a position leads to the state behind it. -/
theorem Alike.state_succ (h : Alike fill act) {n : ℕ} {c : Command} (hc : fill n c) :
    state fill act init (n + 1) = act c (state fill act init n) := by
  have hfilled : ∃ c, fill n c := ⟨c, hc⟩
  rw [state, dif_pos hfilled]
  exact h n _ _ hfilled.choose_spec hc _

end Replay

end
