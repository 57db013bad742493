import TinyQuanta.ShortLoopTest

/-!
# The sum of short stays

A nested self loop that takes its copy executes no probe inside. Behind the copy
the range `final - initial` of the stay is added to `SumLoopVal`, and when the sum
reaches `NumIters * StepValue` a check follows and the sum starts again at 0. Here
the arithmetic is exact, for a positive step and a signed `<` or `<=`; `run_agrees`
ties it to the code with `w`-bit slots.
-/
namespace TinyQuanta.ShortLoopSum

open Params Planner Instrumented LoopCounters ShortLoopTest

inductive Bound where
  | lt | le
  deriving DecidableEq, Repr

def Bound.pred : Bound → Pred
  | .lt => .slt
  | .le => .sle

/-- The latch goes on, with the variable at `x` and the final value `y`. -/
def stays (c : Bound) (o : Operand) (step x y : Int) : Bool :=
  match c with
  | .lt => x + o.offset step < y
  | .le => x + o.offset step ≤ y

theorem stays_lt {o : Operand} {step x y : Int} :
    stays .lt o step x y = true ↔ x + o.offset step < y := decide_eq_true_iff

theorem stays_le {o : Operand} {step x y : Int} :
    stays .le o step x y = true ↔ x + o.offset step ≤ y := decide_eq_true_iff

inductive Act where
  | enter (init final : Int)
  | traverse
  | leave
  deriving DecidableEq, Repr

/-- `since` counts the traversals of the back edge since the last check behind the copy; `gaps`
lists these counts at the checks. -/
structure State where
  sumLoopVal : Int
  indVar : Int
  finalValue : Int
  valRange : Int
  inside : Bool
  since : Nat
  gaps : List Nat
  deriving DecidableEq, Repr

/-- At the entry of the function. -/
def start : State := ⟨0, 0, 0, 0, false, 0, []⟩

/-- Only entries that select the copy are seen here. -/
def step (c : Bound) (o : Operand) (stepValue n : Int) (s : State) : Act → Option State
  | .enter init final =>
    if s.inside = false ∧ final - init ≤ n * stepValue then
      some { s with indVar := init, finalValue := final, valRange := final - init, inside := true }
    else none
  | .traverse =>
    if s.inside = true ∧ stays c o stepValue s.indVar s.finalValue = true then
      some { s with indVar := s.indVar + stepValue, since := s.since + 1 }
    else none
  | .leave =>
    if s.inside = true ∧ stays c o stepValue s.indVar s.finalValue = false then
      if n * stepValue ≤ s.sumLoopVal + s.valRange then
        some { s with sumLoopVal := 0, inside := false, since := 0, gaps := s.gaps ++ [s.since] }
      else some { s with sumLoopVal := s.sumLoopVal + s.valRange, inside := false }
    else none

/-- The range is not negative and counts the traversals: the latch compares the incremented value,
or compares with `<` after a whole number of steps. -/
def Counts (c : Bound) (o : Operand) (stepValue : Int) (_ : State) : Act → Prop
  | .enter init final => init ≤ final ∧
      (o = .stepInst ∨ c = .lt ∧ (final - init) % stepValue = 0)
  | _ => True

/-- The traversals of the stays that are already in the sum need at most the sum, those of the
present stay at most its range. -/
structure Inv (c : Bound) (o : Operand) (stepValue n : Int) (s : State) : Prop where
  sum_nonneg : 0 ≤ s.sumLoopVal
  sum_lt : s.sumLoopVal < n * stepValue
  outside : s.inside = false → s.since * stepValue ≤ s.sumLoopVal
  inside : s.inside = true → ∃ k j : Nat, s.since = k + j ∧ k * stepValue ≤ s.sumLoopVal ∧
    j * stepValue ≤ s.valRange ∧ s.valRange ≤ n * stepValue ∧
    s.indVar = s.finalValue - s.valRange + j * stepValue ∧
    (o = .stepInst ∨ c = .lt ∧ s.valRange % stepValue = 0)
  gaps : ∀ g ∈ s.gaps, (g : Int) < 2 * n

section

variable {c : Bound} {o : Operand} {stepValue n : Int} {s t : State}

/-- A traversal that the latch allows stays within the range. -/
theorem next_le_range (hs : 0 < stepValue) {j : Nat}
    (hx : s.indVar = s.finalValue - s.valRange + j * stepValue)
    (ho : o = .stepInst ∨ c = .lt ∧ s.valRange % stepValue = 0)
    (h : stays c o stepValue s.indVar s.finalValue = true) :
    ((j + 1 : Nat) : Int) * stepValue ≤ s.valRange := by
  rw [Int.natCast_add, Int.add_mul, Int.natCast_one, Int.one_mul]
  rcases ho with rfl | ⟨rfl, hdvd⟩
  · cases c with
    | lt =>
      rw [stays_lt, Operand.offset] at h
      omega
    | le =>
      rw [stays_le, Operand.offset] at h
      omega
  · cases o with
    | stepInst =>
      rw [stays_lt, Operand.offset] at h
      omega
    | indVar =>
      -- `j` steps are less than the range, which is a whole number of steps
      rw [stays_lt, Operand.offset, Int.add_zero] at h
      have hdiv := Int.mul_ediv_add_emod s.valRange stepValue
      rw [hdvd, Int.add_zero, Int.mul_comm] at hdiv
      have hlt : (j : Int) * stepValue < s.valRange / stepValue * stepValue := by omega
      have hstep := Int.lt_of_mul_lt_mul_right hlt (Int.le_of_lt hs)
      have hmul := Int.mul_le_mul_of_nonneg_right
        (show (j : Int) + 1 ≤ s.valRange / stepValue from hstep)
        (Int.le_of_lt hs)
      rw [Int.add_mul, Int.one_mul] at hmul
      omega

theorem Inv.since_lt (h : Inv c o stepValue n s) (hs : 0 < stepValue) (hn : 0 ≤ n) :
    (s.since : Int) < 2 * n := by
  have hlt := h.sum_lt
  have hprod := Int.mul_nonneg hn (Int.le_of_lt hs)
  have hmul : (s.since : Int) * stepValue < 2 * n * stepValue := by
    rw [Int.mul_assoc]
    cases hin : s.inside with
    | false =>
      have hout := h.outside hin
      omega
    | true =>
      obtain ⟨k, j, hsum, hk, hj, hr, -⟩ := h.inside hin
      rw [hsum, Int.natCast_add, Int.add_mul]
      omega
  exact Int.lt_of_mul_lt_mul_right hmul (Int.le_of_lt hs)

theorem start_inv (hs : 0 < stepValue) (hn : 1 ≤ n) : Inv c o stepValue n start where
  sum_nonneg := Int.le_refl 0
  sum_lt := Int.mul_pos (by omega) hs
  outside _ := by simp [start]
  inside hin := by cases hin
  gaps g hg := by cases hg

theorem Inv.enter (h : Inv c o stepValue n s) (hin : s.inside = false) {init final : Int}
    (hr : final - init ≤ n * stepValue) (hc : Counts c o stepValue s (.enter init final)) :
    Inv c o stepValue n { s with
      indVar := init, finalValue := final, valRange := final - init, inside := true } where
  sum_nonneg := h.sum_nonneg
  sum_lt := h.sum_lt
  outside hout := by cases hout
  inside _ := ⟨s.since, 0, rfl, h.outside hin, by simpa using hc.1, hr, by simp, hc.2⟩
  gaps := h.gaps

theorem Inv.traverse (h : Inv c o stepValue n s) (hs : 0 < stepValue) (hin : s.inside = true)
    (hstay : stays c o stepValue s.indVar s.finalValue = true) :
    Inv c o stepValue n { s with indVar := s.indVar + stepValue, since := s.since + 1 } where
  sum_nonneg := h.sum_nonneg
  sum_lt := h.sum_lt
  outside hout := by rw [hin] at hout; cases hout
  inside _ := by
    obtain ⟨k, j, hsum, hk, hj, hr, hx, ho⟩ := h.inside hin
    have hnext := next_le_range hs hx ho hstay
    refine ⟨k, j + 1, by rw [hsum, Nat.add_assoc], hk, hnext, hr, ?_, ho⟩
    change s.indVar + stepValue = s.finalValue - s.valRange + ((j + 1 : Nat) : Int) * stepValue
    rw [hx, Int.natCast_add, Int.add_mul, Int.natCast_one, Int.one_mul]
    omega
  gaps := h.gaps

theorem Inv.checked (h : Inv c o stepValue n s) (hs : 0 < stepValue) (hn : 1 ≤ n) :
    Inv c o stepValue n { s with
      sumLoopVal := 0, inside := false, since := 0, gaps := s.gaps ++ [s.since] } where
  sum_nonneg := Int.le_refl 0
  sum_lt := Int.mul_pos (by omega) hs
  outside _ := by simp
  inside hin := by cases hin
  gaps g hg := by
    rcases List.mem_append.mp hg with hg | hg
    · exact h.gaps g hg
    · rw [List.mem_singleton.mp hg]
      exact h.since_lt hs (by omega)

theorem Inv.unchecked (h : Inv c o stepValue n s) (hs : 0 < stepValue) (hin : s.inside = true)
    (hlt : ¬ n * stepValue ≤ s.sumLoopVal + s.valRange) :
    Inv c o stepValue n { s with sumLoopVal := s.sumLoopVal + s.valRange, inside := false } := by
  obtain ⟨k, j, hsum, hk, hj, hr, -, -⟩ := h.inside hin
  have hnn : 0 ≤ (j : Int) * stepValue := Int.mul_nonneg (by omega) (Int.le_of_lt hs)
  have hsum_nn := h.sum_nonneg
  exact {
    sum_nonneg := by
      change 0 ≤ s.sumLoopVal + s.valRange
      omega
    sum_lt := by
      change s.sumLoopVal + s.valRange < n * stepValue
      omega
    outside := fun _ => by
      change (s.since : Int) * stepValue ≤ s.sumLoopVal + s.valRange
      rw [hsum, Int.natCast_add, Int.add_mul]
      omega
    inside := fun hf => by cases hf
    gaps := h.gaps }

theorem step_inv (hs : 0 < stepValue) (hn : 1 ≤ n) {a : Act} (h : Inv c o stepValue n s)
    (hc : Counts c o stepValue s a) (ht : step c o stepValue n s a = some t) :
    Inv c o stepValue n t := by
  cases a with
  | enter init final =>
    simp only [step, Option.ite_none_right_eq_some, Option.some.injEq] at ht
    obtain ⟨⟨hin, hr⟩, rfl⟩ := ht
    exact h.enter hin hr hc
  | traverse =>
    simp only [step, Option.ite_none_right_eq_some, Option.some.injEq] at ht
    obtain ⟨⟨hin, hstay⟩, rfl⟩ := ht
    exact h.traverse hs hin hstay
  | leave =>
    simp only [step, Option.ite_none_right_eq_some] at ht
    obtain ⟨⟨hin, -⟩, ht⟩ := ht
    split at ht
    · cases ht
      exact h.checked hs hn
    · cases ht
      exact h.unchecked hs hin ‹_›

end

/-! ## The code behind the copy -/

/-- The slots of the code hold the exact values. -/
structure Agrees (slots : Slots) (s : State) : Prop where
  sum : slots.sumLoopVal = s.sumLoopVal
  indVar : slots.indVar = s.indVar
  final : slots.finalValue = s.finalValue
  range : slots.valRange = s.valRange

def codeStep (n : Int) (l : Loop) (slots : Slots) : Act → Slots
  | .enter init final => atPreheader n l init final slots
  | .traverse => atCloneLatch l slots
  | .leave => (atCloneExit n l slots).1

/-- The value fits the width. -/
def InWidth (w : Width) (x : Int) : Prop := -w.half ≤ x ∧ x < w.half

/-- So do the values that the step computes. -/
def StepFits (w : Width) (stepValue : Int) (s : State) : Act → Prop
  | .enter init final => InWidth w init ∧ InWidth w final ∧ InWidth w (final - init)
  | .traverse => InWidth w (s.indVar + stepValue)
  | .leave => InWidth w (s.sumLoopVal + s.valRange)

theorem InWidth.wrap {w : Width} {x : Int} (h : InWidth w x) : w.wrap x = x := wrap_eq h.1 h.2

/-- Whether the step runs into the check. -/
def checks (n : Int) (l : Loop) (slots : Slots) : Act → Bool
  | .leave => (atCloneExit n l slots).2
  | _ => false

/-- The slots at the end, and how many checks were made. -/
def codeRun (n : Int) (l : Loop) : List Act → Slots → Slots × Nat
  | [], slots => (slots, 0)
  | a :: as, slots =>
    let rest := codeRun n l as (codeStep n l slots a)
    (rest.1, (checks n l slots a).toNat + rest.2)

section

variable {w : Width} {c : Bound} {o : Operand} {stepValue n : Int} {l : Loop} {slots : Slots}
  {s t : State}

theorem const_exact (hn : 1 ≤ n) (hint : InInt (n * stepValue))
    (hwidth : InWidth w (n * stepValue)) :
    (counted w c.pred o stepValue none).const ((counted w c.pred o stepValue none).steps n) =
      n * stepValue := by
  rw [const_steps hn hint]
  exact hwidth.wrap

theorem short_iff (hs : 0 < stepValue) (hn : 1 ≤ n) (hint : InInt (n * stepValue))
    (hwidth : InWidth w (n * stepValue)) (range : Int) :
    (counted w c.pred o stepValue none).short n range = true ↔ range ≤ n * stepValue := by
  have hstep : int32 stepValue = stepValue :=
    @int32_step n (counted w c.pred o stepValue none) hn hint
  simp only [IndVar.short, const_exact hn hint hwidth]
  simp only [counted, hstep, if_pos hs, decide_eq_true_eq]

theorem full_iff (hs : 0 < stepValue) (hn : 1 ≤ n) (hint : InInt (n * stepValue))
    (hwidth : InWidth w (n * stepValue)) (total : Int) :
    (counted w c.pred o stepValue none).full n total = true ↔ n * stepValue ≤ total := by
  have hstep : int32 stepValue = stepValue :=
    @int32_step n (counted w c.pred o stepValue none) hn hint
  simp only [IndVar.full, const_exact hn hint hwidth]
  simp only [counted, hstep, if_pos hs, decide_eq_true_eq]

/-- The test in the preheader and the latch decide as the exact ones do. -/
theorem tests_agree (h : Agrees slots s) (hs : 0 < stepValue) (hn : 1 ≤ n)
    (hint : InInt (n * stepValue)) (hwidth : InWidth w (n * stepValue))
    (hx : InWidth w (s.indVar + o.offset stepValue)) :
    ((counted w c.pred o stepValue none).short n slots.valRange = true ↔ s.valRange ≤ n * stepValue)
    ∧
      (counted w c.pred o stepValue none).latch slots.indVar slots.finalValue =
        stays c o stepValue s.indVar s.finalValue := by
  constructor
  · rw [short_iff hs hn hint hwidth, h.range]
  · cases c with
    | lt => simp only [counted, Bound.pred, Pred.holds, stays, h.indVar, h.final, hx.wrap]
    | le => simp only [counted, Bound.pred, Pred.holds, stays, h.indVar, h.final, hx.wrap]

/-- Behind the copy the code adds and compares as the exact step does. -/
theorem atCloneExit_exact (hi : l.indVar = some (counted w c.pred o stepValue none))
    (hnested : l.isNested = true) (hs : 0 < stepValue) (hn : 1 ≤ n) (hint : InInt (n * stepValue))
    (hwidth : InWidth w (n * stepValue)) (h : Agrees slots s)
    (hf : InWidth w (s.sumLoopVal + s.valRange)) :
    atCloneExit n l slots =
      if n * stepValue ≤ s.sumLoopVal + s.valRange then ({ slots with sumLoopVal := 0 }, true)
      else ({ slots with sumLoopVal := s.sumLoopVal + s.valRange }, false) := by
  simp only [atCloneExit, hi, hnested, if_true, h.sum, h.range, full_iff hs hn hint hwidth]
  simp only [counted, hf.wrap]

/-- The code takes the same step, check included. -/
theorem step_agrees {a : Act} (hi : l.indVar = some (counted w c.pred o stepValue none))
    (hnested : l.isNested = true) (hs : 0 < stepValue) (hn : 1 ≤ n) (hint : InInt (n * stepValue))
    (hwidth : InWidth w (n * stepValue)) (h : Agrees slots s) (hf : StepFits w stepValue s a)
    (ht : step c o stepValue n s a = some t) :
    Agrees (codeStep n l slots a) t ∧
      t.gaps = s.gaps ++ if checks n l slots a then [s.since] else [] := by
  cases a with
  | enter init final =>
    simp only [step, Option.ite_none_right_eq_some, Option.some.injEq] at ht
    obtain ⟨-, rfl⟩ := ht
    obtain ⟨hx, hy, hr⟩ := hf
    constructor
    · simp only [codeStep, atPreheader, hi, counted, IndVar.init, Option.getD_none, hx.wrap,
        hy.wrap, hr.wrap]
      exact ⟨h.sum, rfl, rfl, rfl⟩
    · simp [checks]
  | traverse =>
    simp only [step, Option.ite_none_right_eq_some, Option.some.injEq] at ht
    obtain ⟨-, rfl⟩ := ht
    constructor
    · simp only [codeStep, atCloneLatch, hi, counted, h.indVar, InWidth.wrap hf]
      exact ⟨h.sum, rfl, h.final, h.range⟩
    · simp [checks]
  | leave =>
    have hcode := atCloneExit_exact hi hnested hs hn hint hwidth h hf
    simp only [step, Option.ite_none_right_eq_some] at ht
    obtain ⟨-, ht⟩ := ht
    by_cases hle : n * stepValue ≤ s.sumLoopVal + s.valRange
    · rw [if_pos hle] at ht hcode
      cases ht
      constructor
      · simp only [codeStep, hcode]
        exact ⟨rfl, h.indVar, h.final, h.range⟩
      · simp [checks, hcode]
    · rw [if_neg hle] at ht hcode
      cases ht
      constructor
      · simp only [codeStep, hcode]
        exact ⟨rfl, h.indVar, h.final, h.range⟩
      · simp [checks, hcode]

/-- So in every run whose values fit the width the slots stay exact, and every entry of `gaps` is
a check that the code makes. -/
theorem run_agrees {as : List Act} (hi : l.indVar = some (counted w c.pred o stepValue none))
    (hnested : l.isNested = true) (hs : 0 < stepValue) (hn : 1 ≤ n) (hint : InInt (n * stepValue))
    (hwidth : InWidth w (n * stepValue)) (h : Agrees slots s)
    (hf : Machine.Along (step c o stepValue n) (StepFits w stepValue) as s)
    (hr : Machine.run (step c o stepValue n) as s = some t) :
    Agrees (codeRun n l as slots).1 t ∧
      t.gaps.length = s.gaps.length + (codeRun n l as slots).2 := by
  induction as generalizing slots s with
  | nil =>
    cases hr
    exact ⟨h, rfl⟩
  | cons a as ih =>
    obtain ⟨u, hu, hrest⟩ := Option.bind_eq_some_iff.mp hr
    obtain ⟨hagree, hgaps⟩ := step_agrees hi hnested hs hn hint hwidth h hf.1 hu
    obtain ⟨hend, hlen⟩ := ih hagree (hf.2 u hu) hrest
    refine ⟨hend, ?_⟩
    rw [hlen, hgaps, List.length_append, Nat.add_assoc]
    cases hc : checks n l slots a with
    | false => simp [codeRun, hc]
    | true => simp [codeRun, hc]

end

/-- In every sequence of entries of the copy whose ranges count the traversals there are fewer
than `2 * n` traversals of the back edge between two checks, and since the last one. -/
theorem traversals_between_checks (c : Bound) (o : Operand) (stepValue n : Int) (as : List Act)
    (s : State) (hs : 0 < stepValue) (hn : 1 ≤ n)
    (h : Machine.run (step c o stepValue n) as start = some s)
    (hc : Machine.Along (step c o stepValue n) (Counts c o stepValue) as start) :
    (∀ g ∈ s.gaps, (g : Int) < 2 * n) ∧ (s.since : Int) < 2 * n := by
  have hi : Inv c o stepValue n s := Machine.run_invariant (start_inv hs hn)
    (fun _ _ _ hs' hc' ht => step_inv hs hn hs' hc' ht) h hc
  exact ⟨hi.gaps, hi.since_lt hs (by omega)⟩

/-- One stay from `init` to `final` with `k` traversals. -/
def stay (init final : Int) (k : Nat) : List Act :=
  .enter init final :: List.replicate k .traverse ++ [.leave]

/-- Two stays of two steps each and one of three. -/
theorem traversals_between_checks_stays :
    ∃ s, Machine.run (step .lt .stepInst 1 3) (stay 0 2 1 ++ stay 0 2 1 ++ stay 5 8 2) start =
      some s ∧
      s.gaps = [2, 2] ∧ (∀ g ∈ s.gaps, (g : Int) < 2 * 3) ∧ (s.since : Int) < 2 * 3 :=
  ⟨_, rfl, rfl, traversals_between_checks .lt .stepInst 1 3
    (stay 0 2 1 ++ stay 0 2 1 ++ stay 5 8 2) _ (by decide) (by decide) rfl
    (by simp [Machine.Along, stay, step, Counts, start, stays, Operand.offset])⟩

/-- Stays that end below their start take back what other stays have added: between the two checks
of this run, eight traversals are made with `NumIters` 3. -/
theorem backward_stays_hide_traversals :
    ∃ s, Machine.run (step .lt .stepInst 1 3)
      (stay 0 3 2 ++ (List.replicate 6 (stay 0 2 1 ++ stay 2 0 0)).flatten ++ stay 0 3 2) start =
      some s ∧
      s.gaps = [2, 8] ∧ ¬ ∀ g ∈ s.gaps, (g : Int) < 2 * 3 :=
  ⟨_, rfl, rfl, by decide⟩

end TinyQuanta.ShortLoopSum
