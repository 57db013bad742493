import Mathlib.Algebra.Order.Ring.Int

/-!
# Budgets of nested calls

Code that runs on a stack of calls has a budget that some event renews. Of the
calls that are open, each one knows what it used itself since its own last
renewal, at most `W`, and how many calls that has paid for. If every call costs
its caller something, a stack that may grow by `n` levels has a budget of
`W + W ^ 2 + ... + W ^ n`.
-/
namespace TinyQuanta.CallLevels

/-- What a call used itself, and how many calls of its own have come back since. -/
structure Level where
  own : Int
  calls : Int

/-- The budget of `n` levels. -/
def reach (W : Int) : Nat → Int
  | 0 => 0
  | n + 1 => W + W * reach W n

/-- What the stack has used at most, the innermost call first, if there may be `D` levels. -/
def used (W : Int) (D : Nat) : List Level → Int
  | [] => 0
  | x :: xs => x.own + x.calls * reach W (D - (xs.length + 1)) + used W D xs

/-- Within its limits. -/
structure Level.Running (W : Int) (x : Level) : Prop where
  calls : 0 ≤ x.calls
  paid : x.calls ≤ x.own
  own : x.own ≤ W

/-- The same, with a call that has been paid for and has not come back. -/
structure Level.Waiting (W : Int) (x : Level) : Prop where
  calls : 0 ≤ x.calls
  paid : x.calls + 1 ≤ x.own
  own : x.own ≤ W

section Budget

variable {W : Int} {D : Nat} {x : Level} {xs : List Level}

theorem Level.Running.call (h : x.Running W) {c : Int} (hc : 1 ≤ c) (hle : x.own + c ≤ W) :
    Level.Waiting W ⟨x.own + c, x.calls⟩ :=
  ⟨h.calls, Int.add_le_add h.paid hc, hle⟩

theorem Level.Waiting.resume (h : x.Waiting W) : Level.Running W ⟨x.own, x.calls + 1⟩ :=
  ⟨Int.le_add_one h.calls, h.paid, h.own⟩

end Budget

end TinyQuanta.CallLevels
