import TinyQuanta.ProbeLayout

/-!
# Running the probes

A check is a run through the blocks of `insertCycleProbe`. It changes the memory in the
same way wherever the probe is, and control comes out behind the probe.
-/
namespace TinyQuanta.ProbeRuns

open Params Ssa ProbeInsertion ProbeLayout StateTransition

variable {Op Name Label Val World Aux : Type}

/-! ## Values -/

section Values

/-- The values of the function and those of other probes. -/
def Untouched (k : ℕ) (env env' : NewName Name → Val) : Prop :=
  ∀ x, (∀ t, x ≠ .new k t) → env' x = env x

theorem Untouched.refl (k : ℕ) (env : NewName Name → Val) : Untouched k env env := fun _ _ => rfl

/-- The instructions define values of one probe only. -/
def Own (k : ℕ) (is : List (NewInstr Op Name Val)) : Prop :=
  ∀ i ∈ is, ∀ x, i.dst = some x → ∃ t, x = .new k t

theorem own_cons {k : ℕ} {i : NewInstr Op Name Val} {is : List (NewInstr Op Name Val)} :
    Own k (i :: is) ↔ (∀ x, i.dst = some x → ∃ t, x = .new k t) ∧ Own k is :=
  List.forall_mem_cons

@[simp] theorem own_emit {k : ℕ} {t : Temp} {e : Emit} {args : List (NewOperand Name Val)}
    {is : List (NewInstr Op Name Val)} :
    Own k (emit (some (.new k t)) e args :: is) ↔ Own k is := by
  rw [own_cons]
  refine ⟨And.right, fun h => ⟨fun x hx => ?_, h⟩⟩
  cases hx
  exact ⟨t, rfl⟩

@[simp] theorem own_emit_none {k : ℕ} {e : Emit} {args : List (NewOperand Name Val)}
    {is : List (NewInstr Op Name Val)} : Own k (emit none e args :: is) ↔ Own k is := by
  rw [own_cons]
  exact ⟨And.right, fun h => ⟨fun x hx => (by cases hx), h⟩⟩

@[simp] theorem own_nil (k : ℕ) : Own k ([] : List (NewInstr Op Name Val)) :=
  fun i hi => (by cases hi)

theorem own_cycleCheck (o : Options Op Val) (k : ℕ) (loopIterations : Option Slot)
    (loopThreshold : Option (Slot × Int)) :
    Own k (cycleCheck o k loopIterations loopThreshold : List (NewInstr Op Name Val)) := by
  unfold cycleCheck
  cases loopIterations <;> cases loopThreshold <;> simp

theorem own_push (o : Options Op Val) (k : ℕ) :
    Own k (pushToMLCfromTLLC o k : List (NewInstr Op Name Val)) := by
  unfold pushToMLCfromTLLC
  split <;> simp

@[simp] theorem bind_temp [DecidableEq Name] (env : NewName Name → Val) (v : Val) (k : ℕ)
    (t t' : Temp) :
    Ssa.bind env v (some (.new k t)) (.new k t') = if t' = t then v else env (.new k t') := by
  simp [Ssa.bind, Function.update_apply]

@[simp] theorem bind_none [DecidableEq Name] (env : NewName Name → Val) (v : Val) :
    Ssa.bind env v none = env := rfl

@[simp] theorem eval_temp (env : NewName Name → Val) (k : ℕ) (t : Temp) :
    (temp k t : NewOperand Name Val).eval env = env (.new k t) := rfl

@[simp] theorem eval_bind_old [DecidableEq Name] (env : NewName Name → Val) (v : Val) (k : ℕ)
    (t : Temp) (x : Name) :
    Operand.eval (Ssa.bind env v (some (.new k t))) (.val (.old x)) = env (.old x) := by
  simp [Ssa.bind, Operand.eval]

/-- A value of the function is not one of a probe. -/
@[simp] theorem eval_bind_rename [DecidableEq Name] (env : NewName Name → Val) (v : Val) (k : ℕ)
    (t : Temp) (x : Operand Name Val) :
    (x.rename .old).eval (Ssa.bind env v (some (.new k t))) = (x.rename .old).eval env := by
  cases x <;> simp [Ssa.bind, Operand.eval, Operand.rename]

@[simp] theorem eval_getConstInteger (o : Options Op Val) (env : NewName Name → Val) (x : Int) :
    (getConstInteger o x : NewOperand Name Val).eval env = o.int x := rfl

theorem untouched_runBody [DecidableEq Name] {sem : Sem (Op ⊕ Emit) Val World} {k : ℕ}
    {is : List (NewInstr Op Name Val)} (his : Own k is) {env env' : NewName Name → Val}
    {w w' : World} (h : runBody sem is env w = some (env', w')) : Untouched k env env' := by
  induction is generalizing env w with
  | nil =>
    cases h
    exact .refl k _
  | cons i is ih =>
    obtain ⟨hi, his⟩ := own_cons.mp his
    obtain ⟨r, -, h⟩ := Option.bind_eq_some_iff.mp h
    intro x hx
    rw [ih his h x hx]
    cases hd : i.dst with
    | none => rfl
    | some y =>
      obtain ⟨t, rfl⟩ := hi y hd
      exact Function.update_of_ne (hx t) _ _

end Values

/-! ## A check -/

section Check

variable (o : Options Op Val) (truth : Val → Bool) (r : Runtime Op Val World Aux)

/-- The hook is called, and the time is written down before or after it. -/
def push (currCycle elapsedCycles : Val) (s : World × ((Slot → Val) × Aux)) :
    World × ((Slot → Val) × Aux) :=
  if o.willUpdateLastCycleTS then
    let t := r.hook elapsedCycles s
    (t.1, (Function.update t.2.1 .lastCycleTS (r.now t.2.2).1, (r.now t.2.2).2))
  else r.hook elapsedCycles (s.1, (Function.update s.2.1 .lastCycleTS currCycle, s.2.2))

/-- The memory after a check. -/
def check (s : World × ((Slot → Val) × Aux)) : World × ((Slot → Val) × Aux) :=
  let now := r.now s.2.2
  let elapsedCycles := r.sub now.1 (s.2.1 .lastCycleTS)
  if truth (r.sgt elapsedCycles (s.2.1 .ciCyclesThreshold)) then
    push o r now.1 elapsedCycles (s.1, (s.2.1, now.2))
  else (s.1, (s.2.1, now.2))

/-- The memory after a probe that checks only if `b` holds. -/
def checkIf (b : Bool) (s : World × ((Slot → Val) × Aux)) : World × ((Slot → Val) × Aux) :=
  if b then check o truth r s else s

/-- What a check does to the slots of its loop. -/
def rearm (loopIterations : Option Slot) (loopThreshold : Option (Slot × Int)) (m : Slot → Val) :
    Slot → Val :=
  let m := match loopIterations with
    | some s => Function.update m s (o.int 0)
    | none => m
  match loopThreshold with
  | some (s, incrementBy) => Function.update m s (r.add (m s) (o.int incrementBy))
  | none => m

variable [DecidableEq Name]

variable {o truth r} (sem : Sem Op Val World) {k : ℕ}

theorem run_raise (loopThreshold : Option (Slot × Int)) (env : NewName Name → Val) (w : World)
    (m : Slot → Val) (a : Aux) :
    ∃ env₁, runBody (probed sem r) (cycleCheck o k none loopThreshold) env (w, (m, a)) =
      runBody (probed sem r) (cycleCheck o k none none) env₁
        (w, (rearm o r none loopThreshold m, a)) := by
  cases loopThreshold with
  | none => exact ⟨env, rfl⟩
  | some t =>
    refine ⟨Ssa.bind (Ssa.bind env (m t.1) (some (.new k .nextThreshold)))
      (r.add (m t.1) (o.int t.2)) (some (.new k .inc)), ?_⟩
    simp [cycleCheck, runBody, emit, probed, rearm]

/-- What a check reads, behind what it does for its loop. -/
theorem run_cycleCheck (loopIterations : Option Slot) (loopThreshold : Option (Slot × Int))
    (env : NewName Name → Val) (w : World) (m : Slot → Val) (a : Aux) :
    ∃ env', runBody (probed sem r) (cycleCheck o k loopIterations loopThreshold) env (w, (m, a)) =
        some (env', (w, (rearm o r loopIterations loopThreshold m, (r.now a).2))) ∧
      env' (.new k .currCycle) = (r.now a).1 ∧
      env' (.new k .elapsedCycles) =
        r.sub (r.now a).1 (rearm o r loopIterations loopThreshold m .lastCycleTS) ∧
      env' (.new k .commit) = r.sgt
        (r.sub (r.now a).1 (rearm o r loopIterations loopThreshold m .lastCycleTS))
        (rearm o r loopIterations loopThreshold m .ciCyclesThreshold) := by
  obtain ⟨env₁, h⟩ : ∃ env₁, runBody (probed sem r) (cycleCheck o k loopIterations loopThreshold)
      env (w, (m, a)) = runBody (probed sem r) (cycleCheck o k none none) env₁
        (w, (rearm o r loopIterations loopThreshold m, a)) := by
    cases loopIterations with
    | none => exact run_raise sem loopThreshold env w m a
    | some s => exact run_raise sem loopThreshold env w (Function.update m s (o.int 0)) a
  rw [h]
  refine ⟨_, rfl, ?_⟩
  simp [emit]

theorem run_push (env : NewName Name → Val) (s : World × ((Slot → Val) × Aux)) :
    ∃ env', runBody (probed sem r) (pushToMLCfromTLLC o k) env s =
      some (env', push o r (env (.new k .currCycle)) (env (.new k .elapsedCycles)) s) := by
  unfold pushToMLCfromTLLC push
  by_cases h : o.willUpdateLastCycleTS = true
  · rw [if_pos h, if_pos h]
    refine ⟨Ssa.bind env (r.now (r.hook (env (.new k .elapsedCycles)) s).2.2).1
      (some (.new k .newCycle)), ?_⟩
    simp [runBody, emit, probed]
  · rw [if_neg h, if_neg h]
    exact ⟨env, rfl⟩

variable [DecidableEq Label] {g : NewFunc Op Name Label Val} {b : NewLabel Label}
  (dest : NewLabel Label) {loopIterations : Option Slot} {loopThreshold : Option (Slot × Int)}

/-- Whatever the time is, control comes to the block behind the probe. -/
theorem cycleProbe_reaches (h : CycleProbe o g b k loopIterations loopThreshold) (hb : b ≠ dest)
    (hpush : .new k .pushBlock ≠ dest) (env : NewName Name → Val) (w : World) (m : Slot → Val)
    (a : Aux) :
    ∃ c env', Untouched k env env' ∧
      Reaches (stepTo (probed sem r) g dest) ⟨b, (g.blocks b).body, env, (w, (m, a))⟩
        (State.jump g ⟨c, [], env',
          check o sem.truth r (w, (rearm o r loopIterations loopThreshold m, a))⟩
          (.new k .postInstrumentation)) := by
  obtain ⟨env₁, hrun, hcurr, helapsed, hcommit⟩ := run_cycleCheck sem (o := o) (r := r)
    (k := k) loopIterations loopThreshold env w m a
  have hkept := untouched_runBody (own_cycleCheck o k loopIterations loopThreshold) hrun
  have hbody : (g.blocks b).body = cycleCheck o k loopIterations loopThreshold := by rw [h.check]
  have hterm : (g.blocks b).term.target (probed sem r).truth env₁ =
      some (if sem.truth (env₁ (.new k .commit)) then .new k .pushBlock
        else .new k .postInstrumentation) := by
    rw [h.check]
    rfl
  have hcheck : check o sem.truth r (w, (rearm o r loopIterations loopThreshold m, a)) =
      if sem.truth (env₁ (.new k .commit)) then
        push o r (env₁ (.new k .currCycle)) (env₁ (.new k .elapsedCycles))
          (w, (rearm o r loopIterations loopThreshold m, (r.now a).2))
      else (w, (rearm o r loopIterations loopThreshold m, (r.now a).2)) := by
    rw [hcommit, hcurr, helapsed]
    rfl
  rw [← hbody] at hrun
  rw [hcheck]
  by_cases hc : sem.truth (env₁ (.new k .commit)) = true
  · rw [if_pos hc] at hterm ⊢
    obtain ⟨env₂, hpushed⟩ := run_push sem (o := o) (r := r) (k := k) env₁
      (w, (rearm o r loopIterations loopThreshold m, (r.now a).2))
    have hkept₂ := untouched_runBody (own_push o k) hpushed
    have hfirst := reaches_start hb hrun hterm (by rw [h.push])
    have hbody₂ : (g.blocks (.new k .pushBlock)).body = pushToMLCfromTLLC o k := by rw [h.push]
    rw [← hbody₂] at hpushed
    have hsecond := reaches_block (f := g) hpush hpushed (by rw [h.push]; rfl)
    exact ⟨_, env₂, fun x hx => (hkept₂ x hx).trans (hkept x hx),
      (hfirst.trans hsecond).to_reflTransGen⟩
  · rw [if_neg hc] at hterm ⊢
    exact ⟨_, env₁, hkept, (reaches_block hb hrun hterm).to_reflTransGen⟩

/-- A block that only goes on. -/
theorem has_reaches {l d : NewLabel Label} (h : Has g l [] (.br d)) (hl : l ≠ dest)
    (env : NewName Name → Val) (s : World × ((Slot → Val) × Aux)) :
    Reaches (stepTo (probed sem r) g dest) ⟨l, (g.blocks l).body, env, s⟩
      (State.jump g ⟨l, [], env, s⟩ d) := by
  refine (reaches_block hl ?_ ?_).to_reflTransGen <;> rw [h] <;> rfl

/-- Both ways lead to `d`. -/
theorem conditionalProbe_reaches {l d : NewLabel Label} {v : Label}
    {is : List (NewInstr Op Name Val)} {cond : NewOperand Name Val} {thenBB post : Part}
    (h : ConditionalProbe o g l is cond k thenBB post loopIterations loopThreshold d)
    (hl : l ≠ .old v) {env env₁ : NewName Name → Val} {w : World}
    {m m₁ : Slot → Val} {a : Aux} {c : Bool}
    (hrun : runBody (probed sem r) is env (w, (m, a)) = some (env₁, (w, (m₁, a))))
    (hc : sem.truth (cond.eval env₁) = c) :
    ∃ env', (∀ x, (∀ i t, x ≠ .new i t) → env' x = env₁ x) ∧
      Reaches (stepTo (probed sem r) g (.old v)) ⟨l, (g.blocks l).body, env, (w, (m, a))⟩
        (State.jump g ⟨.new k post, [], env', checkIf o sem.truth r c
          (w, (if c then rearm o r loopIterations loopThreshold m₁ else m₁, a))⟩ d) := by
  have hbody : (g.blocks l).body = is := by rw [h.test]
  have hterm : (g.blocks l).term.target (probed sem r).truth env₁ =
      some (if c then .new k thenBB else .new k post) := by
    rw [h.test, ← hc]
    rfl
  have hpost : (g.blocks (.new k post)).phis = [] := by rw [h.post]
  rw [← hbody] at hrun
  cases c with
  | true =>
    have hfirst := reaches_start hl hrun hterm (by rw [if_pos rfl, h.probe.check])
    obtain ⟨b, env₂, hkept, hprobe⟩ := cycleProbe_reaches sem (r := r) (.old v) h.probe
      (by simp) (by simp) env₁ w m₁ a
    rw [jump_of_phis_nil (by rw [h.tail])] at hprobe
    have htail := has_reaches sem (r := r) (.old v) h.tail (by simp) env₂
      (check o sem.truth r (w, (rearm o r loopIterations loopThreshold m₁, a)))
    rw [jump_of_phis_nil hpost] at htail
    exact ⟨env₂, fun x hx => hkept x (hx (k + 1)), ((hfirst.to_reflTransGen.trans hprobe).trans
      htail).trans (has_reaches sem (.old v) h.post (by simp) env₂ _)⟩
  | false =>
    have hfirst := reaches_start hl hrun hterm hpost
    exact ⟨env₁, fun _ _ => rfl, hfirst.to_reflTransGen.trans
      (has_reaches sem (.old v) h.post (by simp) env₁ _)⟩

end Check

end TinyQuanta.ProbeRuns
