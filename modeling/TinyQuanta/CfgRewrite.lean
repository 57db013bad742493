import TinyQuanta.Ssa

/-!
# Rewriting the control-flow graph

What compiler passes do with blocks: instructions before the terminator, a new block on
an edge, a block split at its terminator with a conditional part between the halves. The
labels of new blocks are given. A PHI node has its entry moved along with the edge.
-/
namespace TinyQuanta.CfgRewrite

open Ssa

variable {Op Name Name' Label Label' Val : Type} [DecidableEq Label] [DecidableEq Label']

/-! ## PHI nodes -/

def addIncoming (o : Operand Name Val) (b : Label) (p : Phi Name Label Val) : Phi Name Label Val :=
  { p with incoming := p.incoming ++ [(b, o)] }

def setIncomingBlock (a b : Label) (p : Phi Name Label Val) : Phi Name Label Val :=
  { p with incoming := p.incoming.map fun e => if e.1 = a then (b, e.2) else e }

section Phis

variable {ρ : Name → Name'} {m : Label → Label'} {b : Label'} {o : Operand Name' Val}

omit [DecidableEq Label] in
/-- An entry for a block with a new label. -/
theorem incomingFor_added (hb : ∀ c, m c ≠ b) (p : Phi Name Label Val) :
    (addIncoming o b (p.rename ρ m)).incomingFor b = some o := by
  have hold : (p.rename ρ m).incoming.find? (fun e => decide (e.1 = b)) = none := by
    rw [List.find?_eq_none]
    intro e he
    obtain ⟨e', -, rfl⟩ := List.mem_map.mp he
    simpa using hb e'.1
  simp only [addIncoming, Phi.incomingFor, List.find?_append, hold, Option.none_or, List.find?_cons,
    decide_true, Option.map_some]

theorem incomingFor_others (hm : Function.Injective m) (hb : ∀ c, m c ≠ b) (p : Phi Name Label Val)
    (c : Label) :
    (addIncoming o b (p.rename ρ m)).incomingFor (m c) =
      (p.incomingFor c).map (Operand.rename ρ) := by
  have hnew : [(b, o)].find? (fun e => decide (e.1 = m c)) = none := by
    simp [(hb c).symm]
  rw [← Phi.incomingFor_rename hm]
  simp only [addIncoming, Phi.incomingFor, List.find?_append, hnew, Option.or_none]

omit [DecidableEq Label] in
/-- The new entry goes along. -/
theorem setIncomingBlock_added (hb : ∀ c, m c ≠ b) (b' : Label') (p : Phi Name Label Val) :
    setIncomingBlock b b' (addIncoming o b (p.rename ρ m)) = addIncoming o b' (p.rename ρ m) := by
  simp only [setIncomingBlock, addIncoming, Phi.rename, List.map_append, List.map_map, Phi.mk.injEq,
    true_and, List.map_cons, List.map_nil, if_true]
  congr 1
  apply List.map_congr_left
  intro e _
  rw [Function.comp_apply, if_neg (hb e.1)]

/-- One block has another label now. -/
theorem setIncomingBlock_rename (a : Label) (hm : Function.Injective m) (p : Phi Name Label Val) :
    setIncomingBlock (m a) b (p.rename ρ m) = p.rename ρ (Function.update m a b) := by
  simp only [setIncomingBlock, Phi.rename, List.map_map, Phi.mk.injEq, true_and]
  apply List.map_congr_left
  intro e _
  by_cases he : e.1 = a
  · simp [he]
  · simp [he, hm.eq_iff]

end Phis

/-! ## Blocks -/

variable (g : Func Op Name Label Val)

/-- The first successor `v` is `n` now. -/
def setSuccessor (v n : Label) : Term Name Label Val → Term Name Label Val
  | .br dest => .br (if dest = v then n else dest)
  | .condBr cond ifTrue ifFalse =>
    if ifTrue = v then .condBr cond n ifFalse
    else .condBr cond ifTrue (if ifFalse = v then n else ifFalse)
  | .ret value => .ret value

def setBlock (l : Label) (b : Block Op Name Label Val) : Func Op Name Label Val :=
  { g with blocks := Function.update g.blocks l b }

/-- Instructions before the terminator. -/
def append (l : Label) (is : List (Instr Op Name Val)) : Func Op Name Label Val :=
  setBlock g l { g.blocks l with body := (g.blocks l).body ++ is }

def setTerm (l : Label) (t : Term Name Label Val) : Func Op Name Label Val :=
  setBlock g l { g.blocks l with term := t }

/-- The PHI nodes of some blocks. -/
def mapPhis (ls : List Label) (φ : Phi Name Label Val → Phi Name Label Val) :
    Func Op Name Label Val :=
  { g with
    blocks := fun l =>
      if l ∈ ls then { g.blocks l with phis := (g.blocks l).phis.map φ } else g.blocks l }

/-- The block `n` on the edge from `u` to `v`, where `v` has other predecessors and `u` other
successors. -/
def splitEdge (u v n : Label) : Func Op Name Label Val :=
  let g := setTerm (mapPhis g [v] (setIncomingBlock u n)) u (setSuccessor v n (g.blocks u).term)
  setBlock g n ⟨[], [], .br v⟩

/-- The block `tail` takes the terminator of `b`, and `thenBB` is run before it if `cond` holds. -/
def splitBlockAndInsertIfThen (cond : Operand Name Val) (b thenBB tail : Label) :
    Func Op Name Label Val :=
  let term := (g.blocks b).term
  let g := mapPhis g term.succs (setIncomingBlock b tail)
  let g := setTerm g b (.condBr cond thenBB tail)
  setBlock (setBlock g tail ⟨[], [], term⟩) thenBB ⟨[], [], .br tail⟩

section Blocks

variable {g} {l l' : Label} {ls : List Label} {b : Block Op Name Label Val}
  {is : List (Instr Op Name Val)} {t : Term Name Label Val}
    {φ : Phi Name Label Val → Phi Name Label Val}

@[simp] theorem setBlock_self : (setBlock g l b).blocks l = b := Function.update_self _ _ _

@[simp] theorem setBlock_of_ne (h : l' ≠ l) : (setBlock g l b).blocks l' = g.blocks l' :=
  Function.update_of_ne h _ _

@[simp] theorem append_self :
    (append g l is).blocks l = { g.blocks l with body := (g.blocks l).body ++ is } := setBlock_self

@[simp] theorem append_of_ne (h : l' ≠ l) :
    (append g l is).blocks l' = g.blocks l' := setBlock_of_ne h

@[simp] theorem setTerm_self : (setTerm g l t).blocks l = { g.blocks l with term := t } :=
    setBlock_self

@[simp] theorem setTerm_of_ne (h : l' ≠ l) :
    (setTerm g l t).blocks l' = g.blocks l' := setBlock_of_ne h

@[simp] theorem mapPhis_of_mem (h : l ∈ ls) :
    (mapPhis g ls φ).blocks l = { g.blocks l with phis := (g.blocks l).phis.map φ } := if_pos h

@[simp] theorem mapPhis_of_notMem (h : l ∉ ls) : (mapPhis g ls φ).blocks l = g.blocks l := if_neg h

end Blocks

end TinyQuanta.CfgRewrite
