import TinyQuanta.SelfLoopClone

/-!
# The blocks of the function with the clone

What each block of the rewritten function is: the loop as it was, the branch in the
preheader, the clone, the PHI nodes of the exit, and the blocks of the sum.
-/
namespace TinyQuanta.CloneBlocks

open Ssa LoopCopy CfgRewrite SelfLoopClone

variable {Op Name Label Val World : Type} [DecidableEq Label]
variable {f : Func Op Name Label Val} (l : SelfLoop f) (a : Arith Val) (c : Bounds Name Val)
  (isAlloca : Op → Bool)

/-- The function up to the clone. -/
def tested : NewFunc Op Name Label Val :=
  append (if c.isNested then clearInEntry a isAlloca (embed f) else embed f) (.old l.preheader)
    (preheaderTest a c)

theorem clearInEntry_phis (b : NewLabel Label) :
    ((clearInEntry a isAlloca (embed f)).blocks b).phis = ((embed f).blocks b).phis := by
  unfold clearInEntry
  by_cases hb : b = (embed f).entry
  · rw [hb, setBlock_self]
  · rw [setBlock_of_ne hb]

theorem tested_bb : (tested l a c isAlloca).blocks (.old l.bb) =
    (f.blocks l.bb).rename .inl .old .old := by
  unfold tested
  rw [append_of_ne fun h => l.preheader_ne_bb (NewLabel.old.inj h).symm]
  split
  · exact setBlock_of_ne fun h => l.entry_ne_bb (NewLabel.old.inj h).symm
  · rfl

theorem tested_exit : ((tested l a c isAlloca).blocks (.old l.exit)).phis =
    (f.blocks l.exit).phis.map (Phi.rename .old .old) := by
  unfold tested
  rw [append_of_ne fun h => l.preheader_ne_exit (NewLabel.old.inj h).symm]
  split
  · exact clearInEntry_phis a isAlloca _
  · rfl

/-- The successors of the loop other than itself. -/
theorem exits_bb :
    ((f.blocks l.bb).rename (Sum.inl : Op → Op ⊕ Emit) NewName.old NewLabel.old).term.succs.filter
      (· ≠ NewLabel.old l.bb) = [.old l.exit] := by
  have hne : NewLabel.old l.exit ≠ .old l.bb := fun h => l.exit_ne_bb (NewLabel.old.inj h)
  unfold Block.rename
  rw [l.latch]
  cases l.exitOnTrue <;> simp [Term.rename, Term.succs, hne]

/-- The block that a PHI node of the clone names for one of the loop. -/
def cloneLabel : Label → NewLabel Label := Function.update NewLabel.old l.bb .clonedSelfLoop

theorem cloneLabel_bb : cloneLabel l l.bb = .clonedSelfLoop := Function.update_self _ _ _

theorem cloneLabel_of_ne {b : Label} (hb : b ≠ l.bb) : cloneLabel l b = .old b :=
  Function.update_of_ne hb _ _

theorem cloneLabel_injective : Function.Injective (cloneLabel l) := by
  intro x y h
  by_cases hx : x = l.bb <;> by_cases hy : y = l.bb
  · rw [hx, hy]
  · rw [hx, cloneLabel_bb, cloneLabel_of_ne l hy] at h
    cases h
  · rw [hy, cloneLabel_bb, cloneLabel_of_ne l hx] at h
    cases h
  · rw [cloneLabel_of_ne l hx, cloneLabel_of_ne l hy] at h
    exact NewLabel.old.inj h

/-- The blocks between the clone of a nested loop and the exit. -/
structure SumBlocks (g : NewFunc Op Name Label Val) : Prop where
  splitted : g.blocks .splitted =
    ⟨[], sumUpdate a c, .condBr (.val .shortLoopInstCond) .thenBB .postClonedSelfLoop⟩
  thenBB : g.blocks .thenBB =
    ⟨[], [resetSlot a, emit (some .commit) .commit []],
      .condBr (.val .commit) .commitBB .postInstrumentation⟩
  commitBB : g.blocks .commitBB = ⟨[], [emit none .hook []], .br .postInstrumentation⟩
  postInstrumentation : g.blocks .postInstrumentation = ⟨[], [], .br .postClonedSelfLoop⟩
  postClonedSelfLoop : g.blocks .postClonedSelfLoop = ⟨[], [], .br (.old l.exit)⟩

theorem insertSumProbe_blocks (g : NewFunc Op Name Label Val) :
    SumBlocks l a c (insertSumProbe a c g (.old l.exit)) := by
  constructor <;> simp [insertSumProbe, insertCycleProbe, splitBlockAndInsertIfThen, splitEdge,
    Term.succs]

/-- A block that was there before and is not the exit. -/
theorem insertSumProbe_old (g : NewFunc Op Name Label Val) {b : Label} (hb : b ≠ l.exit) :
    (insertSumProbe a c g (.old l.exit)).blocks (.old b) = g.blocks (.old b) := by
  simp [insertSumProbe, insertCycleProbe, splitBlockAndInsertIfThen, splitEdge, Term.succs, hb]

theorem insertSumProbe_clone (g : NewFunc Op Name Label Val) :
    (insertSumProbe a c g (.old l.exit)).blocks .clonedSelfLoop =
      { g.blocks .clonedSelfLoop with
        term := setSuccessor (.old l.exit) .splitted (g.blocks .clonedSelfLoop).term } := by
  simp [insertSumProbe, insertCycleProbe, splitBlockAndInsertIfThen, splitEdge, Term.succs]

theorem insertSumProbe_exit (g : NewFunc Op Name Label Val) :
    ((insertSumProbe a c g (.old l.exit)).blocks (.old l.exit)).phis =
      ((g.blocks (.old l.exit)).phis.map (setIncomingBlock .clonedSelfLoop .splitted)).map
        (setIncomingBlock .splitted .postClonedSelfLoop) := by
  simp [insertSumProbe, insertCycleProbe, splitBlockAndInsertIfThen, splitEdge, Term.succs]

variable [DecidableEq Name]

/-- The name of a value of the loop in the clone. -/
def cloneName (x : Name) : NewName Name := if x ∈ (f.blocks l.bb).defs then .cloned x else .old x

theorem cloneName_of_outside {x : Name} (hx : l.Outside x) : cloneName l x = .old x := if_neg hx

theorem cloneName_injective : Function.Injective (cloneName l) := by
  intro x y h
  unfold cloneName at h
  split at h <;> split at h
  · exact NewName.cloned.inj h
  · cases h
  · cases h
  · exact NewName.old.inj h

theorem getClonedValue_rename :
    getClonedValue ((f.blocks l.bb).rename (Sum.inl : Op → Op ⊕ Emit) NewName.old NewLabel.old)
      fresh ∘
      NewName.old = cloneName l := by
  funext x
  simp only [Function.comp_apply, getClonedValue, cloneName,
    Block.mem_defs_rename _ NewName.old_injective, fresh]

/-- A PHI node of the exit, with the value that comes from the clone by way of `last`. -/
def exitPhi (last : NewLabel Label) (p : Phi Name Label Val) :
    Phi (NewName Name) (NewLabel Label) Val :=
  match p.incomingFor l.bb with
  | some o => addIncoming (o.rename (cloneName l)) last (p.rename .old .old)
  | none => p.rename .old .old

/-- The loop as it was and its clone. The clone leaves to `leave`, and control gets from there to
the exit by way of `last`. -/
structure Rewritten (g : NewFunc Op Name Label Val) (leave last : NewLabel Label) : Prop where
  loop : g.blocks (.old l.bb) = (f.blocks l.bb).rename .inl .old .old
  branch : (g.blocks (.old l.preheader)).term =
    .condBr (.val .shortLoopCond) .clonedSelfLoop (.old l.bb)
  clone : g.blocks .clonedSelfLoop =
    ⟨(f.blocks l.bb).phis.map (Phi.rename (cloneName l) (cloneLabel l)),
      (f.blocks l.bb).body.map (Instr.rename .inl (cloneName l)),
      if l.exitOnTrue then .condBr (l.cond.rename (cloneName l)) leave .clonedSelfLoop
      else .condBr (l.cond.rename (cloneName l)) .clonedSelfLoop leave⟩
  exit : (g.blocks (.old l.exit)).phis = (f.blocks l.exit).phis.map (exitPhi l last)
  last_new : ∀ b, NewLabel.old b ≠ last

theorem setSuccessor_latch :
    setSuccessor (.old l.bb) .clonedSelfLoop
      ((f.blocks l.bb).term.rename (cloneName l) NewLabel.old) =
      if l.exitOnTrue then .condBr (l.cond.rename (cloneName l)) (.old l.exit) .clonedSelfLoop
      else .condBr (l.cond.rename (cloneName l)) .clonedSelfLoop (.old l.exit) := by
  have hne : NewLabel.old l.exit ≠ .old l.bb := fun h => l.exit_ne_bb (NewLabel.old.inj h)
  rw [l.latch]
  cases l.exitOnTrue <;> simp [Term.rename, setSuccessor, hne]

theorem insertClone_eq : insertClone a c isAlloca f l.preheader l.bb =
    setTerm (cloneSelfLoop (tested l a c isAlloca) (.old l.bb) .clonedSelfLoop fresh)
      (.old l.preheader)
      (.condBr (.val .shortLoopCond) .clonedSelfLoop (.old l.bb)) := rfl

theorem cloneSelfLoop_clone :
    (cloneSelfLoop (tested l a c isAlloca) (.old l.bb) .clonedSelfLoop fresh).blocks
    .clonedSelfLoop =
      ⟨(f.blocks l.bb).phis.map (Phi.rename (cloneName l) (cloneLabel l)),
        (f.blocks l.bb).body.map (Instr.rename .inl (cloneName l)),
        if l.exitOnTrue then .condBr (l.cond.rename (cloneName l)) (.old l.exit) .clonedSelfLoop
        else .condBr (l.cond.rename (cloneName l)) .clonedSelfLoop (.old l.exit)⟩ := by
  unfold cloneSelfLoop
  rw [setBlock_self, tested_bb]
  rw [Block.rename_rename, getClonedValue_rename]
  simp only [Block.rename, Function.id_comp, List.map_map, setSuccessor_latch, Block.mk.injEq,
    and_true]
  apply List.map_congr_left
  intro p _
  exact setIncomingBlock_rename l.bb NewLabel.old_injective p

theorem cloneSelfLoop_exit :
    ((cloneSelfLoop (tested l a c isAlloca) (.old l.bb) .clonedSelfLoop fresh).blocks
    (.old l.exit)).phis =
      (f.blocks l.exit).phis.map (exitPhi l .clonedSelfLoop) := by
  unfold cloneSelfLoop
  rw [setBlock_of_ne (by simp), tested_bb, exits_bb, mapPhis_of_mem List.mem_cons_self, tested_exit,
    List.map_map]
  apply List.map_congr_left
  intro p _
  rw [Function.comp_apply, Phi.incomingFor_rename NewLabel.old_injective]
  unfold exitPhi
  cases p.incomingFor l.bb with
  | none => rfl
  | some o =>
    simp only [Option.map_some, Operand.rename_rename, getClonedValue_rename]

theorem cloneSelfLoop_bb :
    (cloneSelfLoop (tested l a c isAlloca) (.old l.bb) .clonedSelfLoop fresh).blocks (.old l.bb) =
      (f.blocks l.bb).rename .inl .old .old := by
  unfold cloneSelfLoop
  rw [setBlock_of_ne (by simp), tested_bb, exits_bb, mapPhis_of_notMem, tested_bb]
  intro h
  exact l.exit_ne_bb (NewLabel.old.inj (List.mem_singleton.mp h)).symm

/-- Without the sum, the clone leaves to the exit itself. -/
theorem insertClone_rewritten :
    Rewritten l (insertClone a c isAlloca f l.preheader l.bb) (.old l.exit) .clonedSelfLoop where
  loop := by
    rw [insertClone_eq, setTerm_of_ne fun h => l.preheader_ne_bb (NewLabel.old.inj h).symm]
    exact cloneSelfLoop_bb l a c isAlloca
  branch := by rw [insertClone_eq, setTerm_self]
  clone := by
    rw [insertClone_eq, setTerm_of_ne (by simp)]
    exact cloneSelfLoop_clone l a c isAlloca
  exit := by
    rw [insertClone_eq, setTerm_of_ne fun h => l.preheader_ne_exit (NewLabel.old.inj h).symm]
    exact cloneSelfLoop_exit l a c isAlloca
  last_new b h := by cases h

theorem exitPhi_dst (last : NewLabel Label) (p : Phi Name Label Val) :
    (exitPhi l last p).dst = .old p.dst := by
  unfold exitPhi
  cases p.incomingFor l.bb <;> rfl

theorem setIncomingBlock_exitPhi (last last' : NewLabel Label) (hlast : ∀ b, NewLabel.old b ≠ last)
    {p : Phi Name Label Val} (hp : p ∈ (f.blocks l.exit).phis) :
    setIncomingBlock last last' (exitPhi l last p) = exitPhi l last' p := by
  obtain ⟨o, ho⟩ := l.result p hp
  unfold exitPhi
  rw [ho]
  exact setIncomingBlock_added hlast last' p

/-- With the sum, it leaves to the new block. -/
theorem insertSumProbe_rewritten {g : NewFunc Op Name Label Val}
    (h : Rewritten l g (.old l.exit) .clonedSelfLoop) :
    Rewritten l (insertSumProbe a c g (.old l.exit)) .splitted .postClonedSelfLoop where
  loop := by
    rw [insertSumProbe_old l a c g l.exit_ne_bb.symm]
    exact h.loop
  branch := by
    rw [insertSumProbe_old l a c g l.preheader_ne_exit]
    exact h.branch
  clone := by
    rw [insertSumProbe_clone, h.clone]
    cases l.exitOnTrue <;> simp [setSuccessor]
  exit := by
    rw [insertSumProbe_exit, h.exit, List.map_map, List.map_map]
    apply List.map_congr_left
    intro p hp
    rw [Function.comp_apply, Function.comp_apply,
      setIncomingBlock_exitPhi l .clonedSelfLoop .splitted (fun _ => nofun) hp,
      setIncomingBlock_exitPhi l .splitted .postClonedSelfLoop (fun _ => nofun) hp]
  last_new b := nofun

/-- The exit that the pass finds. -/
theorem exitOf_clone : exitOf .clonedSelfLoop
    ((insertClone a c isAlloca f l.preheader l.bb).blocks .clonedSelfLoop).term = some
    (.old l.exit) := by
  rw [(insertClone_rewritten l a c isAlloca).clone]
  cases l.exitOnTrue <;> simp [exitOf]

theorem cloneSelfLoopOnCondition_eq : cloneSelfLoopOnCondition a c isAlloca f l.preheader l.bb =
    if c.isNested then insertSumProbe a c (insertClone a c isAlloca f l.preheader l.bb)
      (.old l.exit)
    else insertClone a c isAlloca f l.preheader l.bb := by
  unfold cloneSelfLoopOnCondition
  simp only [exitOf_clone]
  cases c.isNested <;> rfl

/-! ## The two loops -/

section Copies

variable {l} {g : NewFunc Op Name Label Val} {leave last : NewLabel Label}

/-- The loop itself. -/
def Rewritten.original (h : Rewritten l g leave last) : Copy l (Sum.inl : Op → Op ⊕ Emit) g where
  preheader := .old l.preheader
  bb := .old l.bb
  exit := .old l.exit
  name := .old
  phi := Phi.rename .old .old
  name_injective := NewName.old_injective
  body := by rw [h.loop]; rfl
  phis := by rw [h.loop]; rfl
  dst _ := rfl
  initial p := Phi.incomingFor_rename NewLabel.old_injective p l.preheader
  next p := Phi.incomingFor_rename NewLabel.old_injective p l.bb
  latch := by
    rw [h.loop]
    unfold Block.rename
    rw [l.latch]
    cases l.exitOnTrue <;> rfl

def Rewritten.cloned (h : Rewritten l g leave last) : Copy l (Sum.inl : Op → Op ⊕ Emit) g where
  preheader := .old l.preheader
  bb := .clonedSelfLoop
  exit := leave
  name := cloneName l
  phi := Phi.rename (cloneName l) (cloneLabel l)
  name_injective := cloneName_injective l
  body := by rw [h.clone]
  phis := by rw [h.clone]
  dst _ := rfl
  initial p := by
    rw [← cloneLabel_of_ne l l.preheader_ne_bb]
    exact Phi.incomingFor_rename (cloneLabel_injective l) p l.preheader
  next p := by
    rw [← cloneLabel_bb l]
    exact Phi.incomingFor_rename (cloneLabel_injective l) p l.bb
  latch := by rw [h.clone]

end Copies

end TinyQuanta.CloneBlocks
