import Mathlib.Computability.StateTransition
import Mathlib.Logic.Function.Basic

/-!
# Functions in static single assignment form

Blocks of PHI nodes, instructions and a terminator, over arbitrary names, labels,
values and instructions. What an instruction does to the world is a parameter; one
that fails or does not return has no step. The PHI nodes of a block take their values
together, for the block that control comes from.
-/
namespace TinyQuanta.Ssa

inductive Operand (Name Val : Type) where
  | val (x : Name)
  | const (v : Val)

/-- An instruction without a result has no destination. -/
structure Instr (Op Name Val : Type) where
  dst : Option Name
  op : Op
  args : List (Operand Name Val)

structure Phi (Name Label Val : Type) where
  dst : Name
  incoming : List (Label × Operand Name Val)

inductive Term (Name Label Val : Type) where
  | br (dest : Label)
  | condBr (cond : Operand Name Val) (ifTrue ifFalse : Label)
  | ret (value : Option (Operand Name Val))

structure Block (Op Name Label Val : Type) where
  phis : List (Phi Name Label Val)
  body : List (Instr Op Name Val)
  term : Term Name Label Val

structure Func (Op Name Label Val : Type) where
  entry : Label
  blocks : Label → Block Op Name Label Val

/-- What the instructions do, and which values of a condition are true. -/
structure Sem (Op Val World : Type) where
  exec : Op → List Val → World → Option (Val × World)
  truth : Val → Bool

/-- Control is in a block, before the instructions that are left of it. -/
structure State (Op Name Label Val World : Type) where
  cur : Label
  rest : List (Instr Op Name Val)
  env : Name → Val
  world : World

variable {Op Op' Name Name' Label Label' Val World Extra : Type}

/-! ## Values -/

def Operand.eval (env : Name → Val) : Operand Name Val → Val
  | .val x => env x
  | .const v => v

/-- Every value that the operand reads is in `S`. -/
def Operand.Within (S : Name → Prop) (o : Operand Name Val) : Prop := ∀ x, o = .val x → S x

def bind [DecidableEq Name] (env : Name → Val) (v : Val) : Option Name → Name → Val
  | some x => Function.update env x v
  | none => env

def assign [DecidableEq Name] (env : Name → Val) : List (Name × Val) → Name → Val
  | [] => env
  | e :: es => Function.update (assign env es) e.1 e.2

/-- The entry of a PHI node for a predecessor. -/
def Phi.incomingFor [DecidableEq Label] (p : Phi Name Label Val) (b : Label) :
    Option (Operand Name Val) := (p.incoming.find? fun e => e.1 = b).map Prod.snd

/-- In a valid function there is an entry for the block that control comes from. -/
def Phi.value [DecidableEq Label] (p : Phi Name Label Val) (pred : Label) (env : Name → Val) :
    Val :=
  ((p.incomingFor pred).map (Operand.eval env)).getD (env p.dst)

/-- The names that a block defines. -/
def Block.defs (b : Block Op Name Label Val) : List Name :=
  b.phis.map Phi.dst ++ b.body.filterMap Instr.dst

theorem Block.mem_defs {b : Block Op Name Label Val} {x : Name} :
    x ∈ b.defs ↔ x ∈ b.phis.map Phi.dst ∨ ∃ i ∈ b.body, i.dst = some x := by
  unfold Block.defs
  rw [List.mem_append, List.mem_filterMap]

def Term.succs : Term Name Label Val → List Label
  | .br dest => [dest]
  | .condBr _ ifTrue ifFalse => [ifTrue, ifFalse]
  | .ret _ => []

/-- The value that a terminator reads. -/
def Term.operand : Term Name Label Val → Option (Operand Name Val)
  | .br _ => none
  | .condBr cond _ _ => some cond
  | .ret value => value

/-! ## Steps -/

/-- Two step functions that stop together, the second with several steps for one of the first. -/
theorem respects_of {σ σ' : Type} {f : σ → Option σ} {g : σ' → Option σ'} {R : σ → σ' → Prop}
    (h : ∀ s t, R s t → (f s = none ∧ g t = none) ∨
      ∃ s' t', f s = some s' ∧ R s' t' ∧ StateTransition.Reaches₁ g t t') :
    StateTransition.Respects f g R := by
  intro s t hst
  rcases h s t hst with ⟨hs, ht⟩ | ⟨s', t', hs, hrel, hreach⟩
  · rw [hs]
    exact ht
  · rw [hs]
    exact ⟨t', hrel, hreach⟩

section Steps

variable [DecidableEq Name] [DecidableEq Label]

/-- Control goes to the start of `dest`, and its PHI nodes get their values. -/
def State.jump (f : Func Op Name Label Val) (s : State Op Name Label Val World) (dest : Label) :
    State Op Name Label Val World :=
  { cur := dest
    rest := (f.blocks dest).body
    env := assign s.env ((f.blocks dest).phis.map fun p => (p.dst, p.value s.cur s.env))
    world := s.world }

/-- The target of a terminator. -/
def Term.target (truth : Val → Bool) (env : Name → Val) : Term Name Label Val → Option Label
  | .br dest => some dest
  | .condBr cond ifTrue ifFalse => some (if truth (cond.eval env) then ifTrue else ifFalse)
  | .ret _ => none

omit [DecidableEq Name] [DecidableEq Label] in
theorem Term.mem_succs_of_target {truth : Val → Bool} {env : Name → Val} {t : Term Name Label Val}
    {d : Label} (h : t.target truth env = some d) : d ∈ t.succs := by
  cases t with
  | br dest =>
    cases h
    exact List.mem_singleton_self _
  | condBr cond ifTrue ifFalse =>
    cases h
    by_cases hc : truth (cond.eval env) = true
    · rw [if_pos hc]
      exact List.mem_cons_self
    · rw [if_neg hc]
      exact List.mem_cons_of_mem _ (List.mem_singleton_self _)
  | ret value => cases h

omit [DecidableEq Name] [DecidableEq Label] in
theorem Term.exists_target (truth : Val → Bool) (env : Name → Val) {t : Term Name Label Val}
    (h : t.succs ≠ []) : ∃ d, t.target truth env = some d := by
  cases t with
  | br dest => exact ⟨dest, rfl⟩
  | condBr cond ifTrue ifFalse => exact ⟨_, rfl⟩
  | ret value => exact absurd rfl h

def step (sem : Sem Op Val World) (f : Func Op Name Label Val) (s : State Op Name Label Val World) :
    Option (State Op Name Label Val World) :=
  match s.rest with
  | i :: rest =>
    (sem.exec i.op (i.args.map (Operand.eval s.env)) s.world).map fun r =>
      { s with rest := rest, env := bind s.env r.1 i.dst, world := r.2 }
  | [] => ((f.blocks s.cur).term.target sem.truth s.env).map (s.jump f)

/-- The steps up to a block. -/
def stepTo (sem : Sem Op Val World) (f : Func Op Name Label Val) (dest : Label)
    (s : State Op Name Label Val World) : Option (State Op Name Label Val World) :=
  if s.cur = dest then none else step sem f s

/-- From `s` control first gets to the start of `dest` in `u`. -/
def Arrives (sem : Sem Op Val World) (f : Func Op Name Label Val) (dest : Label)
    (s u : State Op Name Label Val World) : Prop :=
  StateTransition.Reaches (stepTo sem f dest) s u ∧ u.cur = dest

variable {sem : Sem Op Val World} {f : Func Op Name Label Val}

theorem step_instr {b : Label} {i : Instr Op Name Val} {rest : List (Instr Op Name Val)}
    {env : Name → Val} {w : World} :
    step sem f ⟨b, i :: rest, env, w⟩ =
      (sem.exec i.op (i.args.map (Operand.eval env)) w).map fun r =>
        ⟨b, rest, bind env r.1 i.dst, r.2⟩ := rfl

theorem step_of_rest_nil {s : State Op Name Label Val World} (h : s.rest = []) :
    step sem f s = ((f.blocks s.cur).term.target sem.truth s.env).map (s.jump f) := by
  unfold step
  rw [h]

theorem step_term {b : Label} {env : Name → Val} {w : World} {t : Term Name Label Val}
    (h : (f.blocks b).term = t) :
    step sem f ⟨b, [], env, w⟩ = (t.target sem.truth env).map (State.jump f ⟨b, [], env, w⟩) := by
  rw [← h]
  rfl

theorem stepTo_of_ne {dest : Label} {s : State Op Name Label Val World} (h : s.cur ≠ dest) :
    stepTo sem f dest s = step sem f s := if_neg h

theorem stepTo_self {dest : Label} {s : State Op Name Label Val World} (h : s.cur = dest) :
    stepTo sem f dest s = none := if_pos h

/-- A block's instructions, one after the other. -/
def runBody (sem : Sem Op Val World) : List (Instr Op Name Val) → (Name → Val) → World →
    Option ((Name → Val) × World)
  | [], env, w => some (env, w)
  | i :: is, env, w => (sem.exec i.op (i.args.map (Operand.eval env)) w).bind fun r =>
      runBody sem is (bind env r.1 i.dst) r.2

theorem reaches_body {dest b : Label} (hne : b ≠ dest) {is : List (Instr Op Name Val)}
    {env env' : Name → Val} {w w' : World} (h : runBody sem is env w = some (env', w')) :
    StateTransition.Reaches (stepTo sem f dest) ⟨b, is, env, w⟩ ⟨b, [], env', w'⟩ := by
  induction is generalizing env w with
  | nil =>
    cases h
    exact .refl
  | cons i is ih =>
    obtain ⟨r, hr, h⟩ := Option.bind_eq_some_iff.mp h
    refine .head ?_ (ih h)
    rw [stepTo_of_ne hne, step_instr, hr]
    rfl

/-- A block that control goes through on the way to `dest`. -/
theorem reaches_block {dest b d : Label} (hne : b ≠ dest) {is : List (Instr Op Name Val)}
    {env env' : Name → Val} {w w' : World} (h : runBody sem is env w = some (env', w'))
    (ht : (f.blocks b).term.target sem.truth env' = some d) :
    StateTransition.Reaches₁ (stepTo sem f dest) ⟨b, is, env, w⟩
      (State.jump f ⟨b, [], env', w'⟩ d) := by
  refine .tail' (reaches_body hne h) ?_
  rw [stepTo_of_ne hne, step_term rfl, ht]
  rfl

theorem jump_of_phis_nil {s : State Op Name Label Val World} {dest : Label}
    (h : (f.blocks dest).phis = []) : s.jump f dest =
    ⟨dest, (f.blocks dest).body, s.env, s.world⟩ := by
  unfold State.jump
  rw [h]
  rfl

/-- The next block on the way has no PHI nodes. -/
theorem reaches_start {dest b d : Label} (hne : b ≠ dest) {env env' : Name → Val} {w w' : World}
    (h : runBody sem (f.blocks b).body env w = some (env', w'))
    (ht : (f.blocks b).term.target sem.truth env' = some d) (hd : (f.blocks d).phis = []) :
    StateTransition.Reaches₁ (stepTo sem f dest) ⟨b, (f.blocks b).body, env, w⟩
      ⟨d, (f.blocks d).body, env', w'⟩ := by
  have hblock := reaches_block hne h ht
  rwa [jump_of_phis_nil hd] at hblock

end Steps

/-! ## Other names -/

def Operand.rename (ρ : Name → Name') : Operand Name Val → Operand Name' Val
  | .val x => .val (ρ x)
  | .const v => .const v

def Instr.rename (ι : Op → Op') (ρ : Name → Name') (i : Instr Op Name Val) : Instr Op' Name' Val :=
  ⟨i.dst.map ρ, ι i.op, i.args.map (Operand.rename ρ)⟩

def Phi.rename (ρ : Name → Name') (m : Label → Label') (p : Phi Name Label Val) :
    Phi Name' Label' Val := ⟨ρ p.dst, p.incoming.map fun e => (m e.1, e.2.rename ρ)⟩

def Term.rename (ρ : Name → Name') (m : Label → Label') :
    Term Name Label Val → Term Name' Label' Val
  | .br dest => .br (m dest)
  | .condBr cond ifTrue ifFalse => .condBr (cond.rename ρ) (m ifTrue) (m ifFalse)
  | .ret value => .ret (value.map (Operand.rename ρ))

def Block.rename (ι : Op → Op') (ρ : Name → Name') (m : Label → Label')
    (b : Block Op Name Label Val) : Block Op' Name' Label' Val :=
  ⟨b.phis.map (Phi.rename ρ m), b.body.map (Instr.rename ι ρ), b.term.rename ρ m⟩

section Rename

variable {Op₂ Name₂ Label₂ : Type} (ι : Op → Op') (κ : Op' → Op₂) (ρ : Name → Name')
  (σ : Name' → Name₂)
  (m : Label → Label') (n : Label' → Label₂)

theorem Operand.rename_rename (o : Operand Name Val) :
    (o.rename ρ).rename σ = o.rename (σ ∘ ρ) := by
  cases o <;> rfl

theorem Instr.rename_rename (i : Instr Op Name Val) :
    (i.rename ι ρ).rename κ σ = i.rename (κ ∘ ι) (σ ∘ ρ) := by
  have hargs : (Operand.rename σ ∘ Operand.rename ρ : Operand Name Val → Operand Name₂ Val) =
      Operand.rename (σ ∘ ρ) := by
    funext o
    exact Operand.rename_rename ρ σ o
  simp only [Instr.rename, Option.map_map, List.map_map, hargs, Function.comp_apply]

theorem Phi.rename_rename (p : Phi Name Label Val) :
    (p.rename ρ m).rename σ n = p.rename (σ ∘ ρ) (n ∘ m) := by
  simp only [Phi.rename, List.map_map, Function.comp_apply, Phi.mk.injEq, true_and]
  apply List.map_congr_left
  intro e _
  simp only [Function.comp_apply, Operand.rename_rename]

theorem Term.rename_rename (t : Term Name Label Val) :
    (t.rename ρ m).rename σ n = t.rename (σ ∘ ρ) (n ∘ m) := by
  cases t with
  | br dest => rfl
  | condBr cond ifTrue ifFalse => simp only [Term.rename, Operand.rename_rename,
      Function.comp_apply]
  | ret value => cases value <;> simp only [Term.rename, Option.map_none, Option.map_some,
      Operand.rename_rename]

theorem Block.rename_rename (b : Block Op Name Label Val) :
    (b.rename ι ρ m).rename κ σ n = b.rename (κ ∘ ι) (σ ∘ ρ) (n ∘ m) := by
  simp only [Block.rename, List.map_map, Term.rename_rename, Block.mk.injEq, and_true]
  constructor
  · apply List.map_congr_left
    intro p _
    exact Phi.rename_rename ρ σ m n p
  · apply List.map_congr_left
    intro i _
    exact Instr.rename_rename ι κ ρ σ i

variable {ρ m}

theorem Phi.incomingFor_rename [DecidableEq Label] [DecidableEq Label'] (hm : Function.Injective m)
    (p : Phi Name Label Val) (b : Label) :
    (p.rename ρ m).incomingFor (m b) = (p.incomingFor b).map (Operand.rename ρ) := by
  have htest : (fun e : Label' × Operand Name' Val => decide (e.1 = m b)) ∘
      (fun e : Label × Operand Name Val => (m e.1, e.2.rename ρ)) = fun e => decide (e.1 = b) := by
    funext e
    exact decide_eq_decide.mpr hm.eq_iff
  simp only [Phi.rename, Phi.incomingFor, List.find?_map, htest, Option.map_map]
  rfl

theorem Block.mem_defs_rename (hρ : Function.Injective ρ) (b : Block Op Name Label Val) (x : Name) :
    ρ x ∈ (b.rename ι ρ m).defs ↔ x ∈ b.defs := by
  have hdefs : (b.rename ι ρ m).defs = b.defs.map ρ := by
    simp only [Block.defs, Block.rename, List.map_append, List.map_map, List.filterMap_map,
      List.map_filterMap]
    rfl
  rw [hdefs]
  exact List.mem_map_of_injective hρ

end Rename

/-- The values of `S` under their other names. -/
def Agree (ρ : Name → Name') (S : Name → Prop) (env : Name → Val) (env' : Name' → Val) : Prop :=
  ∀ x, S x → env' (ρ x) = env x

section Agree

variable {ρ : Name → Name'} {S : Name → Prop} {env : Name → Val} {env' : Name' → Val}

theorem Agree.eval (h : Agree ρ S env env') {o : Operand Name Val} (ho : o.Within S) :
    (o.rename ρ).eval env' = o.eval env := by
  cases o with
  | val x => exact h x (ho x rfl)
  | const v => rfl

theorem Agree.args (h : Agree ρ S env env') {os : List (Operand Name Val)}
    (hos : ∀ o ∈ os, o.Within S) :
    (os.map (Operand.rename ρ)).map (Operand.eval env') = os.map (Operand.eval env) := by
  rw [List.map_map]
  apply List.map_congr_left
  intro o ho
  exact h.eval (hos o ho)

variable [DecidableEq Name] [DecidableEq Name'] (hρ : Function.Injective ρ)

include hρ

theorem Agree.update (h : Agree ρ S env env') (x : Name) (v : Val) :
    Agree ρ (fun y => S y ∨ x = y) (Function.update env x v) (Function.update env' (ρ x) v) := by
  intro y hy
  by_cases he : y = x
  · rw [he, Function.update_self, Function.update_self]
  · rw [Function.update_of_ne he, Function.update_of_ne fun hc => he (hρ hc)]
    exact h y (hy.resolve_right fun hc => he hc.symm)

theorem Agree.bind (h : Agree ρ S env env') (dst : Option Name) (v : Val) :
    Agree ρ (fun y => S y ∨ dst = some y) (bind env v dst) (bind env' v (dst.map ρ)) := by
  cases dst with
  | none => exact fun y hy => h y (hy.resolve_right fun hc => by cases hc)
  | some x =>
    intro y hy
    exact h.update hρ x v y (hy.imp_right Option.some.inj)

theorem Agree.assign (h : Agree ρ S env env') (es : List (Name × Val)) :
    Agree ρ (fun y => S y ∨ y ∈ es.map Prod.fst) (assign env es)
      (assign env' (es.map fun e => (ρ e.1, e.2))) := by
  induction es with
  | nil => exact fun y hy => h y (hy.resolve_right fun hc => by cases hc)
  | cons e es ih =>
    intro y hy
    apply ih.update hρ e.1 e.2 y
    rw [List.map_cons, List.mem_cons] at hy
    rcases hy with hy | rfl | hy
    · exact .inl (.inl hy)
    · exact .inr rfl
    · exact .inl (.inr hy)

end Agree

/-- Another language has these instructions, too, and they leave its part of the world alone. -/
structure Extends (ι : Op → Op') (sem : Sem Op Val World) (sem' : Sem Op' Val (World × Extra)) :
    Prop where
  exec : ∀ op args w e, sem'.exec (ι op) args (w, e) =
    (sem.exec op args w).map fun r => (r.1, (r.2, e))
  truth : sem'.truth = sem.truth

/-- Every operand is in `S` or has been computed by an instruction before. -/
def Scoped (S : Name → Prop) : List (Instr Op Name Val) → Prop
  | [] => True
  | i :: is => (∀ o ∈ i.args, o.Within S) ∧ Scoped (fun x => S x ∨ i.dst = some x) is

end TinyQuanta.Ssa
