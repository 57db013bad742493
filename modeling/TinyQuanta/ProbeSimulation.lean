import TinyQuanta.PassPreserves
import TinyQuanta.ProbeRuns

/-!
# The code of the probes does what the meter says

`Instrumented` keeps the slots of the loop probes in a record and its checks are events. In
the instrumented function the slots are memory, and the probes are blocks on the edges. A
memory mirrors a state if its slots have the numbers of the record, and the code on an edge
keeps that up.
-/
namespace TinyQuanta.ProbeSimulation

open Params Ssa ProbeInsertion InsertionPreserves ProbeLayout ProbeRuns StateTransition
open Instrumented (Width Slots Loop Meter atBackEdge atCloneExit atPreheader atExitBlock)

variable {Op Name Label Val World Aux : Type}

/-! ## The slots of a loop -/

section Slots

/-- The type of a loop's slots: `rep` says which number a value is. Constants are cut to `int`
first. -/
structure IntType (o : Options Op Val) (truth : Val → Bool) (r : Runtime Op Val World Aux)
    (w : Width) where
  rep : Val → Int → Prop
  add : ∀ {u v x y}, rep u x → rep v y → rep (r.add u v) (w.wrap (x + y))
  sub : ∀ {u v x y}, rep u x → rep v y → rep (r.sub u v) (w.wrap (x - y))
  eq : ∀ {u v x y}, rep u x → rep v y → truth (r.eq u v) = decide (x = y)
  sle : ∀ {u v x y}, rep u x → rep v y → truth (r.sle u v) = decide (x ≤ y)
  sge : ∀ {u v x y}, rep u x → rep v y → truth (r.sge u v) = decide (y ≤ x)
  int : ∀ x, rep (o.int x) (w.wrap (int32 x))

/-- A counter is an `int`. -/
def slotWidth (l : Loop) : Width :=
  match l.indVar with
  | none => .w32
  | some iv => iv.width

/-- The loop of the plan has the induction variable of `l`, if it has one. -/
def SameVar : Option (IndVar Name Val) → Option Instrumented.IndVar → Prop
  | none, none => True
  | some iv, some jv => iv.stepValue = int32 jv.step ∧ iv.initialConstValue = jv.initial.map int32
  | _, _ => False

/-- A machine with numbers of one width, and a clock that is the meter. -/
def machine (w : Width) : Runtime Op Int World Meter where
  add x y := w.wrap (x + y)
  sub x y := w.wrap (x - y)
  eq x y := if x = y then 1 else 0
  sgt x y := if x > y then 1 else 0
  sle x y := if x ≤ y then 1 else 0
  sge x y := if x ≥ y then 1 else 0
  now a := (a.gap, a.event .check)
  hook _ s := s
  ran _ _ _ e := e

/-- The numbers of `machine` are what they stand for. -/
def machineInt (w : Width) : IntType (⟨false, 20, fun x => w.wrap (int32 x), fun _ => false⟩ :
    Options Op Int) (· ≠ 0) (machine w : Runtime Op Int World Meter) w where
  rep := Eq
  add := by rintro _ _ _ _ rfl rfl; rfl
  sub := by rintro _ _ _ _ rfl rfl; rfl
  eq := by rintro _ _ _ _ rfl rfl; simp [machine]
  sle := by rintro _ _ _ _ rfl rfl; simp [machine]
  sge := by rintro _ _ _ _ rfl rfl; simp [machine]
  int _ := rfl

variable {o : Options Op Val} {truth : Val → Bool} {r : Runtime Op Val World Aux} {wd : Width}

/-- The slots of a loop in memory. Its probe has the number `n`, its clone the number `c`. -/
structure SlotsAt (T : IntType o truth r wd) (n c : ℕ) (m : Slot → Val) (s : Slots) : Prop where
  loopIterations : T.rep (m (.loopVariable n)) s.loopIterations
  loopThreshold : T.rep (m (.loopThreshold n)) s.loopThreshold
  residualSteps : T.rep (m (.residualSteps n)) s.residualSteps
  sumLoopVal : T.rep (m (.sumLoopVal c)) s.sumLoopVal

/-- The slots of a loop, by its numbers. -/
def OfLoop (n c : ℕ) : Slot → Prop
  | .loopVariable i | .loopThreshold i | .residualSteps i => i = n
  | .sumLoopVal i => i = c
  | _ => False

/-- Nothing else has changed. -/
def Elsewhere (n c : ℕ) (m m' : Slot → Val) : Prop := ∀ x, ¬ OfLoop n c x → m' x = m x

variable {T : IntType o truth r wd} {n c : ℕ} {m m' : Slot → Val} {s : Slots}

theorem Elsewhere.update (x : Slot) (hx : OfLoop n c x) (v : Val) :
    Elsewhere n c m (Function.update m x v) := by
  intro y hy
  refine Function.update_of_ne (fun h => hy ?_) v m
  rwa [h]

theorem Elsewhere.trans {m'' : Slot → Val} (h : Elsewhere n c m m') (h' : Elsewhere n c m' m'') :
    Elsewhere n c m m'' := fun x hx => (h' x hx).trans (h x hx)

theorem SlotsAt.of_eq (h : SlotsAt T n c m s) (hm : ∀ x, OfLoop n c x → m' x = m x) :
    SlotsAt T n c m' s where
  loopIterations := by rw [hm (.loopVariable n) rfl]; exact h.loopIterations
  loopThreshold := by rw [hm (.loopThreshold n) rfl]; exact h.loopThreshold
  residualSteps := by rw [hm (.residualSteps n) rfl]; exact h.residualSteps
  sumLoopVal := by rw [hm (.sumLoopVal c) rfl]; exact h.sumLoopVal

variable {v : Val} {x : Int}

theorem SlotsAt.setLoopIterations (h : SlotsAt T n c m s) (hv : T.rep v x) :
    SlotsAt T n c (Function.update m (.loopVariable n) v) { s with loopIterations := x } := by
  constructor <;> simp [hv, h.loopThreshold, h.residualSteps, h.sumLoopVal]

theorem SlotsAt.setLoopThreshold (h : SlotsAt T n c m s) (hv : T.rep v x) :
    SlotsAt T n c (Function.update m (.loopThreshold n) v) { s with loopThreshold := x } := by
  constructor <;> simp [hv, h.loopIterations, h.residualSteps, h.sumLoopVal]

theorem SlotsAt.setResidualSteps (h : SlotsAt T n c m s) (hv : T.rep v x) :
    SlotsAt T n c (Function.update m (.residualSteps n) v) { s with residualSteps := x } := by
  constructor <;> simp [hv, h.loopIterations, h.loopThreshold, h.sumLoopVal]

theorem SlotsAt.setSumLoopVal (h : SlotsAt T n c m s) (hv : T.rep v x) :
    SlotsAt T n c (Function.update m (.sumLoopVal c) v) { s with sumLoopVal := x } := by
  constructor <;> simp [hv, h.loopIterations, h.loopThreshold,
    h.residualSteps]

/-- The induction variable, its final value and the range are values, not slots. -/
theorem SlotsAt.setVar (h : SlotsAt T n c m s) (x y z : Int) :
    SlotsAt T n c m { s with indVar := x, finalValue := y, valRange := z } :=
  ⟨h.loopIterations, h.loopThreshold, h.residualSteps, h.sumLoopVal⟩

theorem IntType.const {w : Width} (T : IntType o truth r w) {x : Int} (h : InInt x)
    (hw : w.wrap x = x) : T.rep (o.int x) x := by
  have hint := T.int x
  rwa [int32_eq h, hw] at hint

theorem IntType.zero {w : Width} (T : IntType o truth r w) : T.rep (o.int 0) 0 :=
  T.const (by decide) (by cases w <;> decide)

end Slots

/-! ## The code in blocks -/

section Blocks

variable [DecidableEq Name] {o : Options Op Val} {sem : Sem Op Val World}
  {r : Runtime Op Val World Aux} {wd : Width} {n c : ℕ} {m : Slot → Val} {s : Slots}
  (env : NewName Name → Val) (w : World) (a : Aux)

theorem run_countIteration {T : IntType o sem.truth r .w32} (h : SlotsAt T n c m s) {numIters : Int}
    (hn : InInt numIters) :
    ∃ env₁ v, runBody (probed sem r) (countIteration o n numIters) env (w, (m, a)) =
        some (env₁, (w, (Function.update m (.loopVariable n) v, a))) ∧
      T.rep v (int32 (s.loopIterations + 1)) ∧
      sem.truth (env₁ (.new n .commit)) = decide (int32 (s.loopIterations + 1) = numIters) := by
  have hone : T.rep (o.int 1) 1 := T.int 1
  have hinc : T.rep _ (int32 (s.loopIterations + 1)) := T.add h.loopIterations hone
  have hnum : T.rep (o.int numIters) numIters := T.const hn (int32_eq hn)
  refine ⟨_, _, rfl, ?_, ?_⟩
  · simpa [emit] using hinc
  · simpa [emit] using T.eq hinc hnum

variable {T : IntType o sem.truth r wd}

theorem run_compareThreshold (h : SlotsAt T n c m s) (iv : IndVar Name Val) {x : Int}
    (hstep : T.rep (env (.old iv.stepInst)) x) :
    ∃ env₁, runBody (probed sem r) (compareThreshold n iv) env (w, (m, a)) =
        some (env₁, (w, (m, a))) ∧
      sem.truth (env₁ (.new n .commit)) = decide (x = s.loopThreshold) := by
  refine ⟨_, rfl, ?_⟩
  simpa [emit] using T.eq hstep h.loopThreshold

theorem run_keepResidualSteps (h : SlotsAt T n c m s) (iv : IndVar Name Val) {x : Int}
    (hvar : T.rep (env (.old iv.indVar)) x) :
    ∃ env₁ v, runBody (probed sem r) (keepResidualSteps n iv) env (w, (m, a)) =
        some (env₁, (w, (Function.update m (.residualSteps n) v, a))) ∧
      T.rep v (wd.wrap (s.loopThreshold - x)) := by
  refine ⟨_, _, rfl, ?_⟩
  simpa [emit] using T.sub h.loopThreshold hvar

theorem run_sumUpdate (h : SlotsAt T n c m s) (stepValue steps : Int) {valRange : Int}
    (hrange : T.rep (env (.new c .valRange)) valRange) :
    ∃ env₁ v, runBody (probed sem r) (sumUpdate o c stepValue steps) env (w, (m, a)) =
        some (env₁, (w, (Function.update m (.sumLoopVal c) v, a))) ∧
      T.rep v (wd.wrap (s.sumLoopVal + valRange)) ∧
      sem.truth (env₁ (.new c .shortLoopInstCond)) =
        if 0 < stepValue then decide (wd.wrap (int32 steps) ≤ wd.wrap (s.sumLoopVal + valRange))
        else decide (wd.wrap (s.sumLoopVal + valRange) ≤ wd.wrap (int32 steps)) := by
  have htotal := T.add h.sumLoopVal hrange
  unfold sumUpdate
  split
  · refine ⟨_, _, rfl, ?_, ?_⟩
    · simpa [emit] using htotal
    · simpa [emit] using T.sge htotal (T.int steps)
  · refine ⟨_, _, rfl, ?_, ?_⟩
    · simpa [emit] using htotal
    · simpa [emit] using T.sle htotal (T.int steps)

theorem run_shortLoopTest {init final : Operand Name Val} (stepValue steps : Int) {x y : Int}
    (hinit : T.rep ((init.rename .old).eval env) x)
    (hfinal : T.rep ((final.rename .old).eval env) y) :
    ∃ env₁, runBody (probed sem r) (shortLoopTest o c init final stepValue steps) env (w, (m, a)) =
        some (env₁, (w, (m, a))) ∧
      T.rep (env₁ (.new c .valRange)) (wd.wrap (y - x)) ∧
      sem.truth (env₁ (.new c .shortLoopCond)) =
        if 0 < stepValue then decide (wd.wrap (y - x) ≤ wd.wrap (int32 steps))
        else decide (wd.wrap (int32 steps) ≤ wd.wrap (y - x)) := by
  have hrange := T.sub hfinal hinit
  unfold shortLoopTest
  split
  · refine ⟨_, rfl, ?_, ?_⟩
    · simpa [emit] using hrange
    · simpa [emit] using T.sle hrange (T.int steps)
  · refine ⟨_, rfl, ?_, ?_⟩
    · simpa [emit] using hrange
    · simpa [emit] using T.sge hrange (T.int steps)

theorem run_initThreshold {jv : Instrumented.IndVar} {T : IntType o sem.truth r jv.width}
    (h : SlotsAt T n c m s) {iv : IndVar Name Val} (hvar : SameVar (some iv) (some jv))
    (numIters : Int) (isNested : Bool) {init : Int}
    (hinit : T.rep ((iv.initialValue.rename .old).eval env) (jv.init init)) :
    ∃ env₁ v, runBody (probed sem r) (initThreshold o n isNested numIters iv) env (w, (m, a)) =
        some (env₁, (w, (Function.update m (.loopThreshold n) v, a))) ∧
      T.rep v (jv.threshold numIters isNested s.residualSteps init) := by
  obtain ⟨hstep, hconst⟩ := hvar
  have hsteps : T.rep (o.int (int32 (numIters * int32 jv.step))) (jv.const (jv.steps numIters)) :=
    T.int _
  unfold initThreshold Instrumented.IndVar.threshold
  rw [hconst, hstep]
  cases jv.initial with
  | none =>
    cases isNested
    · refine ⟨_, _, rfl, ?_⟩
      simpa [emit] using T.add hinit hsteps
    · refine ⟨_, _, rfl, ?_⟩
      simpa [emit] using T.add h.residualSteps hinit
  | some c =>
    have hc : T.rep (o.int (int32 c)) (jv.const (int32 c)) := T.int _
    cases isNested
    · have heq : int32 (int32 c + jv.steps numIters) =
          int32 (int32 c + numIters * int32 jv.step) := by
        rw [add_comm, Instrumented.IndVar.steps, int32_add, add_comm]
      have hsum : T.rep (o.int (int32 (int32 c + numIters * int32 jv.step)))
          (jv.const (int32 (int32 c + jv.steps numIters))) := by
        rw [heq]
        exact T.int _
      exact ⟨_, _, rfl, hsum⟩
    · refine ⟨_, _, rfl, ?_⟩
      simpa [emit] using T.add h.residualSteps hc

end Blocks

section BlockEnds

variable [DecidableEq Name] {o : Options Op Val} {sem : Sem Op Val World}
  {r : Runtime Op Val World Aux} {l : Loop} {T : IntType o sem.truth r (slotWidth l)} {n c : ℕ}
  {m : Slot → Val} {s : Slots} {p : LoopPlan Name Label Val} {jv : Instrumented.IndVar}
  {iv : IndVar Name Val} {env : NewName Name → Val} {w : World} {a : Aux}

/-- The slots at the end of the preheader of a loop with an induction variable. -/
theorem slots_preheader (h : SlotsAt T n c m s) (hl : l.indVar = some jv)
    (hvar : SameVar (some iv) (some jv)) (numIters : Int) {init : Int} (final : Int)
    (hinit : T.rep ((iv.initialValue.rename .old).eval env) (jv.init init)) :
    ∃ env₁ m', runBody (probed sem r) (initThreshold o n l.isNested numIters iv) env (w, (m, a)) =
        some (env₁, (w, (m', a))) ∧
      SlotsAt T n c m' (atPreheader numIters l init final s) ∧ Elsewhere n c m m' := by
  obtain ⟨pre, body, depth, exits, jv?⟩ := l
  cases hl
  obtain ⟨env₁, v, hrun, hv⟩ := run_initThreshold env w a h hvar numIters
    (Loop.isNested ⟨pre, body, depth, exits, some jv⟩) hinit
  exact ⟨env₁, _, hrun, (h.setLoopThreshold hv).setVar _ _ _, .update (.loopThreshold n) rfl v⟩

/-- The slots at the end of an exit block. -/
theorem slots_exitBlock (h : SlotsAt T n c m s) (hl : l.indVar = some jv)
    (hnest : l.isNested = true) {e : Planner.Block × Planner.Block} (he : e.1 ≠ e.2)
    (hvar : T.rep (env (.old iv.indVar)) s.indVar) :
    ∃ env₁ m', runBody (probed sem r) (keepResidualSteps n iv) env (w, (m, a)) =
        some (env₁, (w, (m', a))) ∧
      SlotsAt T n c m' (atExitBlock e l s) ∧ Elsewhere n c m m' := by
  obtain ⟨pre, body, depth, exits, jv?⟩ := l
  cases hl
  obtain ⟨env₁, v, hrun, hv⟩ := run_keepResidualSteps env w a h iv hvar
  refine ⟨env₁, _, hrun, ?_, .update (.residualSteps n) rfl v⟩
  have heq : atExitBlock e ⟨pre, body, depth, exits, some jv⟩ s =
      { s with residualSteps := jv.width.wrap (s.loopThreshold - s.indVar) } :=
    if_pos ⟨hnest, he⟩
  rw [heq]
  exact h.setResidualSteps hv

/-- The clone is taken in the function where the meter takes it. -/
theorem truth_shortLoopCond (hl : l.indVar = some jv) (hstep : iv.stepValue = int32 jv.step)
    (numIters : Int) {init final : Int} {finalValue : Operand Name Val}
    (hinit : T.rep ((iv.initialValue.rename .old).eval env) (jv.init init))
    (hfinal : T.rep ((finalValue.rename .old).eval env) (jv.width.wrap final)) :
    ∃ env₁, runBody (probed sem r) (shortLoopTest o c iv.initialValue finalValue iv.stepValue
        (int32 (numIters * iv.stepValue))) env (w, (m, a)) = some (env₁, (w, (m, a))) ∧
      T.rep (env₁ (.new c .valRange)) (atPreheader numIters l init final s).valRange ∧
      sem.truth (env₁ (.new c .shortLoopCond)) =
        jv.short numIters (atPreheader numIters l init final s).valRange := by
  obtain ⟨pre, body, depth, exits, jv?⟩ := l
  cases hl
  obtain ⟨env₁, hrun, hrange, hshort⟩ := run_shortLoopTest (m := m) env w a iv.stepValue
    (int32 (numIters * iv.stepValue)) hinit hfinal
  refine ⟨env₁, hrun, hrange, hshort.trans ?_⟩
  rw [hstep]
  unfold Instrumented.IndVar.short
  split <;> rfl

end BlockEnds

/-! ## The code on edges -/

section Edges

theorem own_loopTest (o : Options Op Val) (n : ℕ) (p : LoopPlan Name Label Val) :
    Own n (loopTest o n p) := by
  unfold loopTest
  split <;> simp [countIteration, compareThreshold]

theorem own_sumUpdate (o : Options Op Val) (k : ℕ) (stepValue steps : Int) :
    Own k (sumUpdate o k stepValue steps : List (NewInstr Op Name Val)) := by
  simp [sumUpdate]

variable [DecidableEq Name] {o : Options Op Val} {sem : Sem Op Val World}
  {r : Runtime Op Val World Aux} {l : Loop} {T : IntType o sem.truth r (slotWidth l)} {n c : ℕ}
  {m : Slot → Val} {s : Slots} {p : LoopPlan Name Label Val} {env : NewName Name → Val}

/-- The slots after the test on the back edge, and after the check has set them for the next. -/
theorem run_loopTest (h : SlotsAt T n c m s) (hvar : SameVar p.indVar l.indVar)
    (hn : InInt p.numIters)
    (hstep : ∀ iv jv, p.indVar = some iv → l.indVar = some jv →
      T.rep (env (.old iv.stepInst)) (jv.width.wrap (s.indVar + jv.step))) (w : World) (a : Aux) :
    ∃ env₁ m₁, runBody (probed sem r) (loopTest o n p) env (w, (m, a)) =
        some (env₁, (w, (m₁, a))) ∧
      sem.truth (env₁ (.new n .commit)) = (atBackEdge p.numIters l s).2 ∧
      let m' := if (atBackEdge p.numIters l s).2 then
          rearm o r (clearedSlot n p) (raisedSlot n p) m₁
        else m₁
      SlotsAt T n c m' (atBackEdge p.numIters l s).1 ∧ Elsewhere n c m m' := by
  obtain ⟨pre, body, depth, exits, jv?⟩ := l
  unfold loopTest clearedSlot raisedSlot atBackEdge
  cases hp : p.indVar with
  | none =>
    cases jv? with
    | some jv => rw [hp] at hvar; cases hvar
    | none =>
      obtain ⟨env₁, v, hrun, hv, hc⟩ := run_countIteration env w a h hn
      refine ⟨env₁, _, hrun, ?_⟩
      have hset : Elsewhere n c m _ := .update (.loopVariable n) rfl v
      by_cases heq : int32 (s.loopIterations + 1) = p.numIters
      · simp only [heq, decide_true, if_true, rearm] at hc ⊢
        exact ⟨hc, (h.setLoopIterations hv).setLoopIterations T.zero,
          hset.trans (.update (.loopVariable n) rfl _)⟩
      · simp only [heq, decide_false, if_false, Bool.false_eq_true] at hc ⊢
        exact ⟨hc, h.setLoopIterations hv, hset⟩
  | some iv =>
    cases jv? with
    | none => rw [hp] at hvar; cases hvar
    | some jv =>
      have hiv := hstep iv jv hp rfl
      obtain ⟨env₁, hrun, hc⟩ := run_compareThreshold env w a h iv hiv
      refine ⟨env₁, _, hrun, ?_⟩
      obtain ⟨hstepValue, -⟩ : iv.stepValue = int32 jv.step ∧ _ := by rwa [hp] at hvar
      by_cases heq : jv.width.wrap (s.indVar + jv.step) = s.loopThreshold
      · simp only [heq, decide_true, if_true, rearm] at hc ⊢
        rw [hstepValue]
        exact ⟨hc, (h.setLoopThreshold (T.add h.loopThreshold (T.int _))).setVar _ _ _,
          .update (.loopThreshold n) rfl _⟩
      · simp only [heq, decide_false, if_false, Bool.false_eq_true] at hc ⊢
        exact ⟨hc, h.setVar _ _ _, fun _ _ => rfl⟩

/-- The sum after a stay in the clone, and after the check has cleared it. -/
theorem run_cloneExit {jv : Instrumented.IndVar} (hl : l.indVar = some jv)
    (hnest : l.isNested = true) (h : SlotsAt T n c m s) {iv : IndVar Name Val}
    (hstep : iv.stepValue = int32 jv.step)
    (hrange : T.rep (env (.new c .valRange)) s.valRange) (numIters : Int) (w : World) (a : Aux) :
    ∃ env₁ m₁, runBody (probed sem r)
        (sumUpdate o c iv.stepValue (int32 (numIters * iv.stepValue))) env (w, (m, a)) =
        some (env₁, (w, (m₁, a))) ∧
      sem.truth (env₁ (.new c .shortLoopInstCond)) = (atCloneExit numIters l s).2 ∧
      let m' := if (atCloneExit numIters l s).2 then rearm o r (some (.sumLoopVal c)) none m₁
        else m₁
      SlotsAt T n c m' (atCloneExit numIters l s).1 ∧ Elsewhere n c m m' := by
  obtain ⟨pre, body, depth, exits, jv?⟩ := l
  cases hl
  obtain ⟨env₁, v, hrun, hv, hc⟩ := run_sumUpdate env w a h iv.stepValue
    (int32 (numIters * iv.stepValue)) hrange
  have hfull : sem.truth (env₁ (.new c .shortLoopInstCond)) =
      jv.full numIters (jv.width.wrap (s.sumLoopVal + s.valRange)) := by
    rw [hc, hstep]
    unfold Instrumented.IndVar.full
    split <;> rfl
  have hset : Elsewhere n c m _ := .update (.sumLoopVal c) rfl v
  refine ⟨env₁, _, hrun, ?_⟩
  unfold atCloneExit
  by_cases hf : jv.full numIters (jv.width.wrap (s.sumLoopVal + s.valRange)) = true
  · simp only [hnest, hf, if_true, rearm]
    exact ⟨hfull.trans hf, (h.setSumLoopVal hv).setSumLoopVal T.zero,
      hset.trans (.update (.sumLoopVal c) rfl _)⟩
  · simp only [hnest, hf, if_true, if_false, Bool.false_eq_true]
    exact ⟨hfull.trans (Bool.eq_false_iff.mpr hf), h.setSumLoopVal hv, hset⟩

variable [DecidableEq Label] {f : Func Op Name Label Val} {g : NewFunc Op Name Label Val} {j : ℕ}

/-- Control goes round by the probe on the back edge. -/
theorem reaches_header (hcode : LoopCode o f g p c j) (h : SlotsAt T (j + 1) c m s)
    (hvar : SameVar p.indVar l.indVar) (hn : InInt p.numIters)
    (hstep : ∀ iv jv, p.indVar = some iv → l.indVar = some jv →
      T.rep (env (.old iv.stepInst)) (jv.width.wrap (s.indVar + jv.step))) (w : World) (a : Aux) :
    ∃ env' m', (∀ x, env' (.old x) = env (.old x)) ∧
      SlotsAt T (j + 1) c m' (atBackEdge p.numIters l s).1 ∧ Elsewhere (j + 1) c m m' ∧
      Reaches (stepTo (probed sem r) g (.old p.header))
        ⟨.new j .loopEdge, (g.blocks (.new j .loopEdge)).body, env, (w, (m, a))⟩
        (State.jump g ⟨.new (j + 1) .postLoop, [], env', checkIf o sem.truth r
          (atBackEdge p.numIters l s).2 (w, (m', a))⟩ (.old p.header)) := by
  obtain ⟨env₁, m₁, hrun, hc, hslots, helse⟩ := run_loopTest h hvar hn hstep w a
  have hkept := untouched_runBody (own_loopTest o (j + 1) p) hrun
  obtain ⟨env', hold, hreach⟩ := conditionalProbe_reaches sem (v := p.header) hcode.probe (by simp)
    hrun hc
  refine ⟨env', _, fun x => ?_, hslots, helse, hreach⟩
  rw [hold _ (by simp), hkept _ (by simp)]

/-- Control leaves the clone by the probe on its exit edge. -/
theorem reaches_exit (hcode : LoopCode o f g p c j) {pre exit : Label} {iv : IndVar Name Val}
    {finalValue : Operand Name Val}
    (hd : decideSelfLoopCloneable p = some (pre, iv, finalValue)) (hnp : p.isNested = true)
    (hexit : exit ∈ (f.blocks p.header).term.succs) (hne : exit ≠ p.header)
    {jv : Instrumented.IndVar} (hl : l.indVar = some jv) (hnest : l.isNested = true)
    (h : SlotsAt T n c m s) (hstep : iv.stepValue = int32 jv.step)
    (hrange : T.rep (env (.new c .valRange)) s.valRange) (w : World) (a : Aux) :
    ∃ env' m', (∀ x, env' (.old x) = env (.old x)) ∧
      SlotsAt T n c m' (atCloneExit p.numIters l s).1 ∧ Elsewhere n c m m' ∧
      Reaches (stepTo (probed sem r) g (.old exit))
        ⟨.new (c + 1) .splittedClonedSelfLoopEdge,
          (g.blocks (.new (c + 1) .splittedClonedSelfLoopEdge)).body, env, (w, (m, a))⟩
        (State.jump g ⟨.new (c + 2) .postClonedSelfLoop, [], env', checkIf o sem.truth r
          (atCloneExit p.numIters l s).2 (w, (m', a))⟩ (.old exit)) := by
  obtain ⟨env₁, m₁, hrun, hc, hslots, helse⟩ := run_cloneExit hl hnest h hstep hrange p.numIters w a
  have hkept := untouched_runBody (own_sumUpdate o c _ _) hrun
  have hprobe := (hcode.sum pre iv finalValue hd hnp).2 exit hexit hne
  obtain ⟨env', hold, hreach⟩ := conditionalProbe_reaches sem (v := exit) hprobe (by simp) hrun hc
  refine ⟨env', _, fun x => ?_, hslots, helse, hreach⟩
  rw [hold _ (by simp), hkept _ (by simp)]

end Edges

/-! ## States -/

section States

open Planner (Block)

variable {o : Options Op Val} {truth : Val → Bool} {r : Runtime Op Val World Aux}

/-- Each reading of the clock is seen by the meter. The hook reads no clock of the function and does
not write to its stack. -/
structure Metered (r : Runtime Op Val World Aux) (meter : Aux → Meter) : Prop where
  now : ∀ a, meter (r.now a).2 = (meter a).event .check
  hook : ∀ v s, meter (r.hook v s).2.2 = meter s.2.2
  slots : ∀ v s n c x, OfLoop n c x → (r.hook v s).2.1 x = s.2.1 x

theorem metered_machine (w : Width) : Metered (machine w : Runtime Op Int World Meter) id :=
  ⟨fun _ => rfl, fun _ _ => rfl, fun _ _ _ _ _ _ => rfl⟩

theorem ne_lastCycleTS {n c : ℕ} {x : Slot} (hx : OfLoop n c x) : x ≠ .lastCycleTS := by
  rintro rfl
  exact hx

variable {meter : Aux → Meter}

theorem push_slots (h : Metered r meter) {n c : ℕ} {x : Slot} (hx : OfLoop n c x)
    (currCycle elapsedCycles : Val) (s : World × ((Slot → Val) × Aux)) :
    (push o r currCycle elapsedCycles s).2.1 x = s.2.1 x := by
  have hne := ne_lastCycleTS hx
  unfold push
  split
  · exact (Function.update_of_ne hne _ _).trans (h.slots _ _ n c x hx)
  · exact (h.slots _ _ n c x hx).trans (Function.update_of_ne hne _ _)

theorem check_slots (h : Metered r meter) {n c : ℕ} {x : Slot} (hx : OfLoop n c x)
    (s : World × ((Slot → Val) × Aux)) : (check o truth r s).2.1 x = s.2.1 x := by
  unfold check
  simp only
  split
  · exact push_slots h hx _ _ _
  · rfl

/-- A check counts once, also if it reads the clock again after the hook. -/
theorem check_meter (h : Metered r meter) (s : World × ((Slot → Val) × Aux)) :
    meter (check o truth r s).2.2 = (meter s.2.2).event .check := by
  unfold check
  simp only
  split
  · unfold push
    split
    · simp only [h.now, h.hook]
      rfl
    · simp only [h.now, h.hook]
  · exact h.now _

variable {loops : Block × Block → Loop}

/-- The memory has the slots of the loops `es`, and the meter. -/
structure Mirrors (T : ∀ e, IntType o truth r (slotWidth (loops e))) (num : Block × Block → ℕ × ℕ)
    (meter : Aux → Meter) (es : List (Block × Block)) (st : Instrumented.State)
    (s : World × ((Slot → Val) × Aux)) : Prop where
  slots : ∀ e ∈ es, SlotsAt (T e) ((num e).2 + 1) (num e).1 s.2.1 (st.slots e)
  meter : meter s.2.2 = st.meter

/-- No two loops share a slot. -/
def Apart (num : Block × Block → ℕ × ℕ) (es : List (Block × Block)) : Prop :=
  ∀ e ∈ es, ∀ e' ∈ es, e ≠ e' → (num e).1 ≠ (num e').1 ∧ (num e).2 ≠ (num e').2

variable {T : ∀ e, IntType o truth r (slotWidth (loops e))} {num : Block × Block → ℕ × ℕ}
  {es : List (Block × Block)} {st : Instrumented.State}

theorem Mirrors.check (hr : Metered r meter) {s : World × ((Slot → Val) × Aux)}
    (h : Mirrors T num meter es st s) :
    Mirrors T num meter es st.check (ProbeRuns.check o truth r s) where
  slots e he := (h.slots e he).of_eq fun x hx => check_slots hr hx s
  meter := by rw [check_meter hr, h.meter]; rfl

theorem Apart.ofLoop (h : Apart num es) {e e' : Block × Block} (he : e ∈ es) (he' : e' ∈ es)
    (hne : e' ≠ e) {x : Slot} (hx : OfLoop ((num e').2 + 1) (num e').1 x) :
    ¬ OfLoop ((num e).2 + 1) (num e).1 x := by
  obtain ⟨h₁, h₂⟩ := h e' he' e he hne
  cases x <;> simp_all [OfLoop]

theorem Mirrors.setSlots (hr : Metered r meter) (hapart : Apart num es) {w : World}
    {m m' : Slot → Val} {a : Aux} (h : Mirrors T num meter es st (w, (m, a))) {e : Block × Block}
    (he : e ∈ es) {n : Slots × Bool}
    (hslots : SlotsAt (T e) ((num e).2 + 1) (num e).1 m' n.1)
    (helse : Elsewhere ((num e).2 + 1) (num e).1 m m') :
    Mirrors T num meter es (st.setSlots e n) (checkIf o truth r n.2 (w, (m', a))) := by
  have hset : Mirrors T num meter es { st with slots := Function.update st.slots e n.1 }
      (w, (m', a)) := by
    refine ⟨fun e' he' => ?_, h.meter⟩
    by_cases heq : e' = e
    · subst heq
      simpa using hslots
    · simp only [Function.update_of_ne heq]
      exact (h.slots e' he').of_eq fun x hx => helse x (hapart.ofLoop he he' heq hx)
  unfold Instrumented.State.setSlots checkIf
  split
  · exact hset.check hr
  · exact hset

end States

/-! ## The pass -/

section Pass

open Planner (Block)
open PassPreserves (Input Shuffle)
open Instrumented (loopEdges cross)

/-- What belongs to the entries of a list, as a function. -/
theorem exists_map_eq {α β : Type} [Inhabited β] {R : α → β → Prop} {xs : List α} {ys : List β}
    (h : List.Forall₂ R xs ys) (hnd : xs.Nodup) :
    ∃ φ : α → β, (∀ x ∈ xs, R x (φ x)) ∧ xs.map φ = ys := by
  classical
  induction h with
  | nil => exact ⟨fun _ => default, by simp, rfl⟩
  | @cons a b xs ys hab _ ih =>
    obtain ⟨ha, hnd⟩ := List.nodup_cons.mp hnd
    obtain ⟨φ, hφ, rfl⟩ := ih hnd
    have hrest : ∀ x ∈ xs, Function.update φ a b x = φ x := by
      intro x hx
      refine Function.update_of_ne (fun he => ha ?_) b φ
      rwa [← he]
    refine ⟨Function.update φ a b, fun x hx => ?_, ?_⟩
    · rcases List.mem_cons.mp hx with rfl | hx
      · rwa [Function.update_self]
      · rw [hrest x hx]
        exact hφ x hx
    · rw [List.map_cons, Function.update_self, List.map_congr_left hrest]

variable [DecidableEq Name] {i : Input Op Name Val} {pr : InsertProbes.Probes}
  {plan : Plan Op Name Block Val}

omit [DecidableEq Name] in
/-- No block of the function has two edges to one successor, so all of them are first ones. -/
theorem crossEdge_eq_cross {loops : Block × Block → Loop} {st : Instrumented.State}
    {ch : Instrumented.Choice} (hcur : st.cur ∈ i.graph.blocks)
    (hnth : ch.nth < (i.graph.succs st.cur).count ch.next) :
    Instrumented.crossEdge pr loops st ch = cross pr loops st ch.next := by
  have hone := List.nodup_iff_count_le_one.mp (i.nodup st.cur) ch.next
  rw [← i.succs _ hcur] at hone
  exact if_pos (by omega)

/-- Where the probes are in `g`: the numbers of the loop probes and clones, and those of the other
edges. -/
structure Instruments (o : Options Op Val) (i : Input Op Name Val) (pr : InsertProbes.Probes)
    (g : NewFunc Op Name Block Val) (num : Block × Block → ℕ × ℕ) (edge : Block × Block → ℕ) :
    Prop where
  apart : Apart num (loopEdges i.graph pr)
  loops : ∀ e ∈ loopEdges i.graph pr, LoopCode o i.code g (i.loopPlan pr e) (num e).1 (num e).2
  edges : ∀ e ∈ (i.toPlan pr).edges, EdgeCode o i.isPreheader g e (edge e)

theorem exists_instruments (o : Options Op Val) (hfits : Fits i.valid i.isPreheader plan)
    (hplan : Shuffle plan (i.toPlan pr)) (cost : NewInstr Op Name Val → Int)
    (termCost : Term (NewName Name) (NewLabel Block) Val → Int) :
    ∃ num edge, Instruments o i pr (i.instrument o cost termCost plan) num edge := by
  obtain ⟨⟨es, hes⟩, ks, hks, hpair⟩ := layout_insertProbes o hfits cost termCost
  obtain ⟨edge, hedge, -⟩ := exists_map_eq hes hfits.edges_nodup
  obtain ⟨φ, hφ, rfl⟩ := exists_map_eq hks (List.Nodup.of_map _ hfits.loops_nodup)
  have hmem : ∀ e ∈ loopEdges i.graph pr, i.loopPlan pr e ∈ plan.loops := fun e he =>
    hplan.loops.mem_iff.mpr (List.mem_map_of_mem he)
  -- Probes and clones have numbers of their own, in the order of the loops.
  have hpairs : plan.loops.Pairwise fun l l' => (φ l).1 ≠ (φ l').1 ∧ (φ l).2 ≠ (φ l').2 := by
    refine List.Pairwise.imp_of_mem (fun {l l'} hl hl' hlt => ?_) (List.pairwise_map.mp hpair)
    have hle := (hφ l hl).le
    have hle' := (hφ l' hl').le
    constructor <;> omega
  have hsymm : Std.Symm fun l l' : LoopPlan Name Block Val =>
      (φ l).1 ≠ (φ l').1 ∧ (φ l).2 ≠ (φ l').2 := ⟨fun _ _ h => h.imp Ne.symm Ne.symm⟩
  refine ⟨fun e => φ (i.loopPlan pr e), edge, fun e he e' he' hne => ?_,
    fun e he => hφ _ (hmem e he), fun e he => hedge e (hplan.edges.mem_iff.mpr he)⟩
  exact hpairs.forall (hmem e he) (hmem e' he') fun h =>
    hne (Prod.ext (congrArg LoopPlan.latch h) (congrArg LoopPlan.header h))

/-- For every function that the planner gets through, with the entries of the maps in any order. -/
theorem generateInst_instruments (i : Input Op Name Val) (po : Planner.Options)
    (hci : 0 < po.commitInterval) (hmax : 0 ≤ po.maxE2EUninst)
    (hfit : PlannerSteps.Fits po i.graph i.backEdges) (o : Options Op Val)
    (cost : NewInstr Op Name Val → Int)
    (termCost : Term (NewName Name) (NewLabel Block) Val → Int) :
    ∃ N pr, (∀ n, N ≤ n → InsertProbes.generateInst po i.graph i.backEdges n = .ok pr) ∧
      ∀ plan, Shuffle plan (i.toPlan pr) →
        ∃ num edge, Instruments o i pr (i.instrument o cost termCost plan) num edge := by
  obtain ⟨N, pr, hpr, hfits, -⟩ := i.generateInst_fits po hci hmax hfit
  exact ⟨N, pr, hpr, fun plan hplan => exists_instruments o (hfits plan hplan) hplan cost termCost⟩

variable {o : Options Op Val} {sem : Sem Op Val World} {r : Runtime Op Val World Aux}
  {g : NewFunc Op Name Block Val} {loops : Block × Block → Loop}
  {T : ∀ e, IntType o sem.truth r (slotWidth (loops e))} {num : Block × Block → ℕ × ℕ}
  {edge : Block × Block → ℕ} {meter : Aux → Meter} {st : Instrumented.State} {v : Block}
  {env : NewName Name → Val} {w : World} {m : Slot → Val} {a : Aux}

/-- Where the meter crosses a back edge with a loop probe, the function runs through the probe. -/
theorem reaches_backEdge (hg : Instruments o i pr g num edge) (hr : Metered r meter)
    (he : (st.cur, v) ∈ loopEdges i.graph pr) (hclone : st.clone = false)
    (hvar : SameVar (i.loops (st.cur, v)).indVar (loops (st.cur, v)).indVar)
    (hn : InInt (pr.numIters (st.cur, v)))
    (hstep : ∀ iv jv, (i.loops (st.cur, v)).indVar = some iv →
      (loops (st.cur, v)).indVar = some jv → (T (st.cur, v)).rep (env (.old iv.stepInst))
        (jv.width.wrap ((st.slots (st.cur, v)).indVar + jv.step)))
    (h : Mirrors T num meter (loopEdges i.graph pr) st (w, (m, a))) :
    ∃ env' s, (∀ x, env' (.old x) = env (.old x)) ∧
      Mirrors T num meter (loopEdges i.graph pr) (cross pr loops st v) s ∧
      Reaches (stepTo (probed sem r) g (.old v))
        ⟨.new (num (st.cur, v)).2 .loopEdge,
          (g.blocks (.new (num (st.cur, v)).2 .loopEdge)).body, env, (w, (m, a))⟩
        (State.jump g ⟨.new ((num (st.cur, v)).2 + 1) .postLoop, [], env', s⟩ (.old v)) := by
  have hprobe : pr.HasLoopProbe (st.cur, v) := of_decide_eq_true (List.mem_filter.mp he).2
  obtain ⟨env', m', hold, hslots, helse, hreach⟩ := reaches_header (hg.loops _ he) (h.slots _ he)
    hvar hn hstep w a
  refine ⟨env', _, hold, ?_, hreach⟩
  have hcross : cross pr loops st v = st.setSlots (st.cur, v) (atBackEdge (pr.numIters (st.cur, v))
      (loops (st.cur, v)) (st.slots (st.cur, v))) := by
    simp [cross, hclone, hprobe]
  rw [hcross]
  exact h.setSlots hr hg.apart he hslots helse

/-- Where it crosses another edge with a probe, the function runs through the check. -/
theorem reaches_normEdge (hg : Instruments o i pr g num edge) (hr : Metered r meter)
    (he : (st.cur, v) ∈ (i.toPlan pr).edges) (hclone : st.clone = false)
    (h : Mirrors T num meter (loopEdges i.graph pr) st (w, (m, a))) :
    ∃ c env' s, (∀ x, env' (.old x) = env (.old x)) ∧
      Mirrors T num meter (loopEdges i.graph pr) (cross pr loops st v) s ∧
      Reaches (stepTo (probed sem r) g (.old v))
        ⟨.new (edge (st.cur, v)) .splittedEdge,
          (g.blocks (.new (edge (st.cur, v)) .splittedEdge)).body, env, (w, (m, a))⟩
        (State.jump g ⟨c, [], env', s⟩ (.new (edge (st.cur, v) + 1) .postInstrumentation)) := by
  have hinst : pr.plan.inst (st.cur, v) = .normInst := of_decide_eq_true (List.mem_filter.mp he).2
  obtain ⟨c, env', hold, hreach⟩ := cycleProbe_reaches sem (r := r) (.old v) (hg.edges _ he).probe
    (by simp) (by simp) env w m a
  refine ⟨c, env', _, fun x => hold _ (by simp), ?_, hreach⟩
  have hcross : cross pr loops st v = st.check := by
    simp [cross, hclone, hinst, InsertProbes.Probes.HasLoopProbe]
  rw [hcross]
  exact h.check hr

/-- Where it leaves the copy of a nested self loop, the function runs through the sum. -/
theorem reaches_cloneExit (hg : Instruments o i pr g num edge) (hr : Metered r meter)
    (he : (st.cur, st.cur) ∈ loopEdges i.graph pr) (hclone : st.clone = true) (hv : v ≠ st.cur)
    (hsucc : v ∈ (i.code.blocks st.cur).term.succs) (hnorm : pr.plan.inst (st.cur, v) ≠ .normInst)
    {pre : Block} {iv : IndVar Name Val} {finalValue : Operand Name Val}
    (hd : decideSelfLoopCloneable (i.loopPlan pr (st.cur, st.cur)) = some (pre, iv, finalValue))
    (hnest : (i.loops (st.cur, st.cur)).isNested = true) {jv : Instrumented.IndVar}
    (hl : (loops (st.cur, st.cur)).indVar = some jv)
    (hnest' : (loops (st.cur, st.cur)).isNested = true) (hstep : iv.stepValue = int32 jv.step)
    (hrange : (T (st.cur, st.cur)).rep (env (.new (num (st.cur, st.cur)).1 .valRange))
      (st.slots (st.cur, st.cur)).valRange)
    (h : Mirrors T num meter (loopEdges i.graph pr) st (w, (m, a))) :
    ∃ env' s, (∀ x, env' (.old x) = env (.old x)) ∧
      Mirrors T num meter (loopEdges i.graph pr) (cross pr loops st v) s ∧
      Reaches (stepTo (probed sem r) g (.old v))
        ⟨.new ((num (st.cur, st.cur)).1 + 1) .splittedClonedSelfLoopEdge,
          (g.blocks (.new ((num (st.cur, st.cur)).1 + 1) .splittedClonedSelfLoopEdge)).body, env,
          (w, (m, a))⟩
        (State.jump g ⟨.new ((num (st.cur, st.cur)).1 + 2) .postClonedSelfLoop, [], env', s⟩
          (.old v)) := by
  obtain ⟨env', m', hold, hslots, helse, hreach⟩ := reaches_exit (hg.loops _ he) hd hnest hsucc hv
    hl hnest' (h.slots _ he) hstep hrange w a
  refine ⟨env', _, hold, ?_, hreach⟩
  have hcross : cross pr loops st v = st.setSlots (st.cur, st.cur)
      (atCloneExit (pr.numIters (st.cur, st.cur)) (loops (st.cur, st.cur))
        (st.slots (st.cur, st.cur))) := by
    simp [cross, hclone, hv, hnorm]
  rw [hcross]
  exact h.setSlots hr hg.apart he hslots helse

end Pass

end TinyQuanta.ProbeSimulation
