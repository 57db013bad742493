import TinyQuanta.Machine
import TinyQuanta.LoopCounters

/-!
# The loop probe of a nested loop over many entries

The code of `insertLoopProbe` for one back edge with an induction variable, as it
runs within one call of the function: the preheader at each entry, the probe at
each traversal of the back edge, an exit block at each exit. The variable starts
again at each entry, and the two stack slots carry the count across.
-/
namespace TinyQuanta.ResidualCounters

open Params Planner Instrumented LoopCounters

inductive Act where
  | enter (init final : Int)
  | traverse
  | leave (exitBlock : Block)

/-- `traversals` counts the back edge over all entries; `checks` lists the traversals, by that
count, that ran into the check. -/
structure State where
  slots : Slots
  inside : Bool
  traversals : Nat
  checks : List Nat

def start (n : Int) (l : Loop) : State where
  slots := atEntry n l
  inside := false
  traversals := 0
  checks := []

def step (n : Int) (e : Block × Block) (l : Loop) (s : State) : Act → Option State
  | .enter init final =>
    if s.inside then none
    else some { s with slots := atPreheader n l init final s.slots, inside := true }
  | .traverse =>
    if s.inside then
      let r := atBackEdge n l s.slots
      some { s with
        slots := r.1
        traversals := s.traversals + 1
        checks := if r.2 then s.checks ++ [s.traversals + 1] else s.checks }
    else none
  | .leave b =>
    if s.inside ∧ b ∈ l.exitBlocks then
      some { s with slots := atExitBlock e l s.slots, inside := false }
    else none

/-- The multiples of `n` from 1 to `k`. -/
def multiples (n : Int) : Nat → List Nat
  | 0 => []
  | k + 1 => if ((k : Int) + 1) % n = 0 then multiples n k ++ [k + 1] else multiples n k

theorem mem_multiples {n : Int} {k i : Nat} :
    i ∈ multiples n k ↔ 1 ≤ i ∧ i ≤ k ∧ (i : Int) % n = 0 := by
  induction k with
  | zero => simp only [multiples, List.not_mem_nil, false_iff]; omega
  | succ k ih =>
    unfold multiples
    split
    · rename_i hk
      rw [List.mem_append, ih, List.mem_singleton]
      constructor
      · rintro (⟨h₁, h₂, h₃⟩ | rfl)
        · exact ⟨h₁, by omega, h₃⟩
        · exact ⟨by omega, Nat.le_refl _, by simpa using hk⟩
      · rintro ⟨h₁, h₂, h₃⟩
        by_cases hi : i = k + 1
        · exact .inr hi
        · exact .inl ⟨h₁, by omega, h₃⟩
    · rename_i hk
      rw [ih]
      constructor
      · rintro ⟨h₁, h₂, h₃⟩
        exact ⟨h₁, by omega, h₃⟩
      · rintro ⟨h₁, h₂, h₃⟩
        refine ⟨h₁, ?_, h₃⟩
        by_contra hi
        have he : i = k + 1 := by omega
        exact hk (by simpa [he] using h₃)

/-- A nested loop of several blocks whose induction variable the probe can use. -/
structure Usable (n : Int) (e : Block × Block) (l : Loop) (iv : IndVar) : Prop where
  indVar : l.indVar = some iv
  nested : 1 < l.depth
  blocks : e.1 ≠ e.2
  step : iv.step ≠ 0
  iters : 1 ≤ n
  range : n * (iv.step.natAbs : Int) < 2 * iv.width.half
  int : InInt (n * iv.step)
  initial : ∀ c, iv.initial = some c → InInt c

theorem Usable.isNested {n : Int} {e : Block × Block} {l : Loop} {iv : IndVar}
    (h : Usable n e l iv) : l.isNested = true := by
  simpa [Loop.isNested] using h.nested

/-- Values less than the full range apart are told apart. -/
theorem wrap_inj {w : Width} {x y : Int} (h : w.wrap x = w.wrap y) (h₁ : -(2 * w.half) < x - y)
    (h₂ : x - y < 2 * w.half) : x = y := by
  cases w <;> simp only [Width.wrap, Width.half] at h h₁ h₂ <;> omega

section

variable {n : Int} {e : Block × Block} {l : Loop} {iv : IndVar}

/-- The variable meets the threshold in its last step and not before. -/
theorem Usable.hit_iff (h : Usable n e l iv) {s : Slots} {c : Int} (h₀ : 0 ≤ c) (hc : c < n)
    (hthr : s.loopThreshold = iv.width.wrap (s.indVar + (n - c) * iv.step)) :
    (atBackEdge n l s).2 = true ↔ c + 1 = n := by
  have hrange : -(2 * iv.width.half) < n * iv.step ∧ n * iv.step < 2 * iv.width.half := by
    have hr := h.range
    have hnn : 0 ≤ n * (iv.step.natAbs : Int) := Int.mul_nonneg (by omega) (by omega)
    rcases Int.natAbs_eq iv.step with hs | hs
    · rw [hs]
      omega
    · rw [hs, Int.mul_neg]
      omega
  have hsplit : (n - c) * iv.step = (n - c - 1) * iv.step + iv.step := by
    rw [Int.sub_mul (n - c), Int.one_mul]
    omega
  simp only [atBackEdge, h.indVar]
  rw [hthr, hsplit]
  constructor
  · intro hhit
    split at hhit
    · rename_i heq
      have hb : 0 ≤ (n - c - 1) * iv.step ∧ (n - c - 1) * iv.step ≤ n * iv.step ∨
          n * iv.step ≤ (n - c - 1) * iv.step ∧ (n - c - 1) * iv.step ≤ 0 :=
        mul_step_between (by omega) (by omega)
      have hz : (n - c - 1) * iv.step = 0 := by
        have hinj := wrap_inj heq (by omega) (by omega)
        omega
      rcases Int.mul_eq_zero.mp hz with hz | hz
      · omega
      · exact absurd hz h.step
    · cases hhit
  · intro hlast
    have hz : n - c - 1 = 0 := by omega
    rw [hz, Int.zero_mul, Int.zero_add, if_pos rfl]

/-- `c` traversals have been made since the last check. Inside the loop the threshold is the
rest of the interval ahead of the variable; outside, the rest is kept in the slot. -/
structure Counting (n : Int) (iv : IndVar) (s : State) : Prop where
  checks : s.checks = multiples n s.traversals
  inside : s.inside = true → s.slots.loopThreshold =
    iv.width.wrap (s.slots.indVar + (n - s.traversals % n) * iv.step)
  outside : s.inside = false → s.slots.residualSteps =
    iv.width.wrap ((n - s.traversals % n) * iv.step)

theorem start_counting (h : Usable n e l iv) : Counting n iv (start n l) where
  checks := rfl
  inside hi := by cases hi
  outside _ := by
    simp only [start, atEntry, h.indVar, const_steps h.iters h.int]
    simp

theorem succ_emod (h₁ : 1 ≤ n) (k : Nat) :
    ((k : Int) % n + 1 = n ↔ ((k : Int) + 1) % n = 0) ∧
      ((k : Int) % n + 1 < n → ((k : Int) + 1) % n = (k : Int) % n + 1) := by
  have h₀ := Int.emod_nonneg (k : Int) (show n ≠ 0 by omega)
  have hadd : ((k : Int) + 1) % n = ((k : Int) % n + 1) % n := by rw [Int.emod_add_emod]
  have hlt := Int.emod_lt_of_pos (k : Int) (show 0 < n by omega)
  generalize (k : Int) % n = c at h₀ hadd hlt
  have hnext : c + 1 < n → ((k : Int) + 1) % n = c + 1 := by
    intro hc
    rw [hadd]
    exact Int.emod_eq_of_lt (by omega) hc
  refine ⟨⟨fun hc => ?_, fun hz => ?_⟩, hnext⟩
  · rw [hadd, hc, Int.emod_self]
  · by_contra hne
    have he := hnext (by omega)
    omega

theorem traverse_counting (h : Usable n e l iv) {s : State} (hs : Counting n iv s)
    (hin : s.inside = true) : Counting n iv { s with
      slots := (atBackEdge n l s.slots).1
      traversals := s.traversals + 1
      checks := if (atBackEdge n l s.slots).2 then s.checks ++
          [s.traversals + 1] else s.checks } := by
  have h₁ := h.iters
  have h₀ := Int.emod_nonneg (s.traversals : Int) (show n ≠ 0 by omega)
  have hlt := Int.emod_lt_of_pos (s.traversals : Int) (show 0 < n by omega)
  have hthr := hs.inside hin
  have hhit := h.hit_iff h₀ hlt hthr
  obtain ⟨hz, hnext⟩ := succ_emod h₁ s.traversals
  obtain ⟨-, hset, hmiss⟩ := threshold_step h₁ h.int h.indVar hthr hlt
  refine ⟨?_, fun _ => ?_, fun hout => ?_⟩
  · simp only [multiples, hs.checks, hhit, hz]
  · cases hb : (atBackEdge n l s.slots).2 with
    | true =>
      have hmod := hz.mp (hhit.mp hb)
      have ht := hset hb
      simpa only [Int.natCast_add, Int.natCast_one, hmod, Int.sub_zero] using ht
    | false =>
      obtain ⟨hc, ht⟩ := hmiss hb
      simpa only [Int.natCast_add, Int.natCast_one, hnext hc] using ht
  · simp only [hin] at hout
    cases hout

theorem step_counting (h : Usable n e l iv) {s t : State} {a : Act} (hs : Counting n iv s)
    (ht : step n e l s a = some t) : Counting n iv t := by
  cases a with
  | enter init final =>
    simp only [step, Option.ite_none_left_eq_some, Option.some.injEq, Bool.not_eq_true] at ht
    obtain ⟨hout, rfl⟩ := ht
    refine ⟨hs.checks, fun _ => ?_, fun hf => (by cases hf)⟩
    simp only [atPreheader, h.indVar, h.isNested, threshold_nested h.initial, hs.outside hout]
    rw [wrap_add_left, Int.add_comm]
  | traverse =>
    simp only [step, Option.ite_none_right_eq_some, Option.some.injEq] at ht
    obtain ⟨hin, rfl⟩ := ht
    exact traverse_counting h hs hin
  | leave b =>
    simp only [step, Option.ite_none_right_eq_some, Option.some.injEq] at ht
    obtain ⟨⟨hin, -⟩, rfl⟩ := ht
    refine ⟨hs.checks, fun hf => (by cases hf), fun _ => ?_⟩
    simp only [atExitBlock, h.indVar, h.isNested, ne_eq, h.blocks, not_false_eq_true, and_self,
      if_true, hs.inside hin]
    rw [wrap_add_sub]

end

/-- Whatever the initial value at each entry, however often the back edge is taken there and
wherever the loop is left, the check is executed exactly at the traversals whose number, counted
over all entries, is a multiple of `NumIters`. -/
theorem residual_checks (n : Int) (e : Block × Block) (l : Loop) (iv : IndVar)
    (h : Usable n e l iv) (as : List Act) (s : State)
    (hr : Machine.run (step n e l) as (start n l) = some s) :
    s.checks = multiples n s.traversals ∧
      ∀ i, i ∈ s.checks ↔ 1 ≤ i ∧ i ≤ s.traversals ∧ (i : Int) % n = 0 := by
  have hs : Counting n iv s := Machine.run_induction (P := fun _ s => Counting n iv s)
    (start_counting h) (fun _ _ _ _ _ hs ht => step_counting h hs ht) hr
  refine ⟨hs.checks, fun i => ?_⟩
  rw [hs.checks]
  exact mem_multiples

/-- A nested loop over blocks 1 and 2, with an `i8` variable that goes up by 3. -/
def byteLoop : Loop := ⟨0, [1, 2], 2, [3], some ⟨.w8, 3, none, false, fun _ _ => true, false⟩⟩

/-- Three traversals from 120, past the largest `i8`, and four from 7. -/
def twoEntries : List Act :=
  [.enter 120 0, .traverse, .traverse, .traverse, .leave 3, .enter 7 0, .traverse, .traverse,
    .traverse, .traverse]

theorem residual_checks_two_entries :
    ∃ s, Machine.run (step 5 (2, 1) byteLoop) twoEntries (start 5 byteLoop) = some s ∧
      s.traversals = 7 ∧ s.checks = multiples 5 7 := by
  refine ⟨_, rfl, rfl, ?_⟩
  exact (residual_checks 5 (2, 1) byteLoop ⟨.w8, 3, none, false, fun _ _ => true, false⟩
    ⟨rfl, by decide, by decide, by decide, by decide, by decide, by decide, by simp⟩
    twoEntries _ rfl).1

example : multiples 5 7 = [5] := by decide

end TinyQuanta.ResidualCounters
