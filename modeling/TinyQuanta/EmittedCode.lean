import TinyQuanta.Instrumented

/-!
# The code that is emitted into a block

Whatever the loop probes add to a block, its own instructions stay, in their order, and
what is new costs nothing, one, or as much as a memory operation. Where the new code goes
does not depend on what the instructions of the block are.
-/
namespace TinyQuanta.EmittedCode

open Planner InsertProbes Instrumented

variable {α β : Type}

/-! ## Own and new instructions -/

def ownInst : Inst α → Option α
  | .own _ i => some i
  | .emitted _ _ => none

/-- The instructions of the function among those of a block. -/
def ownInsts (is : List (Inst α)) : List α := is.filterMap ownInst

theorem ownInsts_append (is is' : List (Inst α)) :
    ownInsts (is ++ is') = ownInsts is ++ ownInsts is' :=
  List.filterMap_append

/-- An emitted instruction. -/
def Emission (o : Options) (i : Inst α) : Prop :=
  ∃ alloca c, i = .emitted alloca c ∧ (c = 0 ∨ c = 1 ∨ c = o.memOpsCost)

section Emission

variable (o : Options)

theorem emission_alloca : Emission o (.alloca : Inst α) := ⟨true, 0, rfl, .inl rfl⟩
theorem emission_memOp : Emission o (.memOp o : Inst α) := ⟨false, _, rfl, .inr (.inr rfl)⟩
theorem emission_other : Emission o (.other : Inst α) := ⟨false, 1, rfl, .inr (.inl rfl)⟩

variable {o}

theorem ownInsts_of_emission {is : List (Inst α)} (h : ∀ i ∈ is, Emission o i) :
    ownInsts is = [] := by
  refine List.filterMap_eq_nil_iff.mpr fun i hi => ?_
  obtain ⟨_, _, rfl, -⟩ := h i hi
  rfl

end Emission

/-- Code has been inserted. -/
structure Emits (o : Options) (is is' : List (Inst α)) : Prop where
  own : ownInsts is' = ownInsts is
  new : ∀ i ∈ is', i ∈ is ∨ Emission o i

variable {o : Options} {is is' is'' : List (Inst α)}

theorem Emits.refl (is : List (Inst α)) : Emits o is is := ⟨rfl, fun _ => .inl⟩

theorem Emits.trans (h : Emits o is is') (h' : Emits o is' is'') : Emits o is is'' :=
  ⟨h'.own.trans h.own, fun i hi => (h'.new i hi).elim (h.new i) .inr⟩

/-- Between two parts of the block. -/
theorem emits_between {new front rest : List (Inst α)} (h : ∀ i ∈ new, Emission o i)
    (his : front ++ rest = is) : Emits o is (front ++ new ++ rest) := by
  subst his
  constructor
  · rw [ownInsts_append, ownInsts_append, ownInsts_append, ownInsts_of_emission h, List.append_nil]
  · intro i hi
    simp only [List.mem_append] at hi ⊢
    rcases hi with (hi | hi) | hi
    · exact .inl (.inl hi)
    · exact .inr (h i hi)
    · exact .inl (.inr hi)

theorem dropLast_append_getLast (is : List α) : is.dropLast ++ is.getLast?.toList = is := by
  rcases List.eq_nil_or_concat is with rfl | ⟨is, i, rfl⟩
  · rfl
  · simp

theorem emits_atEnd {new : List (Inst α)} (h : ∀ i ∈ new, Emission o i) (is : List (Inst α)) :
    Emits o is (insertAtEnd new is) := emits_between h (dropLast_append_getLast is)

theorem emits_pastAllocas {new : List (Inst α)} (h : ∀ i ∈ new, Emission o i) (is : List (Inst α)) :
    Emits o is (insertPastAllocas new is) := emits_between h List.takeWhile_append_dropWhile

theorem Emits.ite {p : Prop} [Decidable p] (h : Emits o is is') :
    Emits o is (if p then is' else is) := by
  split
  · exact h
  · exact .refl is

section Loops

variable (f : Func) (pr : Probes) (loops : Block × Block → Loop) (b : Block)

theorem emission_shortLoopTest (iv : IndVar) :
    ∀ i ∈ (iv.shortLoopTest : List (Inst α)), Emission o i := by
  unfold IndVar.shortLoopTest
  split <;> simp [emission_other]

theorem emission_initThreshold (iv : IndVar) (nested : Bool) :
    ∀ i ∈ (iv.initThreshold o nested : List (Inst α)), Emission o i := by
  unfold IndVar.initThreshold
  split <;> simp [emission_memOp, emission_other]

theorem emission_residual : ∀ i ∈ [.memOp o, .other, (.memOp o : Inst α)], Emission o i := by
  simp [emission_memOp, emission_other]

theorem emits_clone (e : Block × Block) (is : List (Inst α)) :
    Emits o is (cloneSelfLoopCode o f pr loops b e is) := by
  unfold cloneSelfLoopCode
  split
  · exact .refl is
  · rename_i iv _
    have hnew : ∀ i ∈ [.alloca, (.memOp o : Inst α)], Emission o i := by
      simp [emission_alloca, emission_memOp]
    have hentry := emits_pastAllocas hnew is
    exact hentry.ite.trans (emits_atEnd (emission_shortLoopTest iv) _).ite

theorem emits_loop (e : Block × Block) (is : List (Inst α)) :
    Emits o is (insertLoopCode o f loops b e is) := by
  unfold insertLoopCode
  simp only
  split
  · refine (emits_pastAllocas ?_ is).ite.trans (emits_atEnd ?_ _).ite
    · split <;> simp [emission_alloca, emission_memOp]
    · simp [emission_memOp]
  · rename_i iv _
    have hexits : ∀ is : List (Inst α), Emits o is (((loops e).exitBlocks.filter (· = b)).foldl
        (fun is _ => insertAtEnd [.memOp o, .other, .memOp o] is) is) := fun is =>
      List.foldlRecOn (motive := fun is' => Emits o is is') _ _ (.refl is)
        fun is' h _ _ => h.trans (emits_atEnd emission_residual is')
    refine (emits_pastAllocas ?_ is).ite.trans
      ((emits_atEnd (emission_initThreshold iv _) _).ite.trans (hexits _).ite)
    split <;> simp [emission_alloca, emission_memOp]

theorem emits_insertLoops (es : List (Block × Block)) (is : List (Inst α)) :
    Emits o is (es.foldl (insertLoopAt o f pr loops b) is) :=
  List.foldlRecOn (motive := fun is' => Emits o is is') es _ (.refl is) fun is' h e _ =>
    h.trans ((emits_clone f pr loops b e is').ite.trans (emits_loop f loops b e _))

theorem ownInsts_own (own : List α) :
    ownInsts (own.zipIdx.map fun x => .own (decide (b = f.entry ∧ x.2 < f.allocas)) x.1) = own := by
  rw [ownInsts, List.filterMap_map]
  exact (congrFun List.filterMap_eq_map _).trans (List.zipIdx_map_fst 0 own)

/-- A block keeps its instructions. -/
theorem ownInsts_blockNow (own : List α) (hb : b ∉ pr.plan.instrumentedBB) :
    ownInsts (blockNow o f pr loops b own) = own := by
  unfold blockNow
  simp only [if_neg hb]
  rw [(emits_insertLoops f pr loops b _ _).own]
  exact ownInsts_own f b own

/-- An instrumented block loses its terminator. -/
theorem ownInsts_blockNow_probed (own : List α) (hb : b ∈ pr.plan.instrumentedBB) :
    ownInsts (blockNow o f pr loops b own) = own.dropLast := by
  have hprobe : ownInsts (cycleProbe o : List (Inst α)) = [] := rfl
  unfold blockNow
  simp only [if_pos hb]
  rw [(emits_insertLoops f pr loops b _ _).own, ownInsts_append, hprobe, List.append_nil,
    ← List.map_dropLast, ownInsts, List.filterMap_map]
  refine (congrFun List.filterMap_eq_map _).trans ?_
  rw [List.map_dropLast, List.zipIdx_map_fst]

/-- New code costs at most the commit interval, if a memory operation does. -/
theorem blockNow_cost (cost : α → Int) {own : List α} {ci : Int} (hci : 0 < ci)
    (hmem : 0 ≤ o.memOpsCost ∧ o.memOpsCost ≤ ci) (hcost : ∀ i ∈ own, 0 ≤ cost i ∧ cost i ≤ ci) :
    ∀ i ∈ blockNow o f pr loops b own, 0 ≤ i.cost cost ∧ i.cost cost ≤ ci := by
  have hnew : ∀ i : Inst α, Emission o i → 0 ≤ i.cost cost ∧ i.cost cost ≤ ci := by
    rintro _ ⟨_, c, rfl, hc⟩
    simp only [Inst.cost]
    omega
  have hprobe : ∀ i ∈ (cycleProbe o : List (Inst α)), Emission o i := by
    simp [cycleProbe, emission_memOp, emission_other]
  have hown : ∀ i ∈ own.zipIdx.map fun x => Inst.own (decide (b = f.entry ∧ x.2 < f.allocas)) x.1,
      0 ≤ i.cost cost ∧ i.cost cost ≤ ci := by
    intro i hi
    obtain ⟨x, hx, rfl⟩ := List.mem_map.mp hi
    exact hcost x.1 (List.fst_mem_of_mem_zipIdx hx)
  intro i hi
  rcases (emits_insertLoops f pr loops b _ _).new i hi with hi | hi
  · split at hi
    · rcases List.mem_append.mp hi with hi | hi
      · exact hown i (List.dropLast_subset _ hi)
      · exact hnew i (hprobe i hi)
    · exact hown i hi
  · exact hnew i hi

theorem instructionsToProbe_snd (cost : α → Int) (ci t : Int) (is : List α) :
    (instructionsToProbe cost ci t is).map Prod.snd = is := by
  induction is generalizing t with
  | nil => rfl
  | cons i is ih =>
    unfold instructionsToProbe
    simp only
    split <;> simp [ih]

end Loops

/-! ## Other instructions in the same places -/

def instMap (g : α → β) : Inst α → Inst β
  | .own alloca i => .own alloca (g i)
  | .emitted alloca c => .emitted alloca c

section Map

variable (g : α → β)

theorem insertAtEnd_map {new : List (Inst α)} {new' : List (Inst β)}
    (h : new.map (instMap g) = new')
    (is : List (Inst α)) : insertAtEnd new' (is.map (instMap g)) = (insertAtEnd new is).map
    (instMap g) := by
  subst h
  simp [insertAtEnd, List.map_dropLast, List.getLast?_map, Option.toList_map]

theorem insertPastAllocas_map {new : List (Inst α)} {new' : List (Inst β)}
    (h : new.map (instMap g) = new')
    (is : List (Inst α)) :
    insertPastAllocas new' (is.map (instMap g)) = (insertPastAllocas new is).map (instMap g) := by
  have halloca : Inst.isAlloca ∘ instMap g = Inst.isAlloca := by
    funext i
    cases i <;> rfl
  subst h
  simp [insertPastAllocas, List.takeWhile_map, List.dropWhile_map, halloca]

variable (f : Func) (pr : Probes) (loops : Block × Block → Loop) (b : Block)

theorem cloneSelfLoopCode_map (e : Block × Block) (is : List (Inst α)) :
    cloneSelfLoopCode o f pr loops b e (is.map (instMap g)) =
      (cloneSelfLoopCode o f pr loops b e is).map (instMap g) := by
  unfold cloneSelfLoopCode
  split
  · rfl
  · rename_i iv _
    have htest : (iv.shortLoopTest : List (Inst α)).map (instMap g) = iv.shortLoopTest := by
      unfold IndVar.shortLoopTest
      split <;> rfl
    have hentry : ([.alloca, .memOp o] : List (Inst α)).map (instMap g) = [.alloca, .memOp o] := rfl
    simp only [insertPastAllocas_map g hentry, ← apply_ite (List.map (instMap g)),
      insertAtEnd_map g htest]

theorem exits_map (exits : List Block) (is : List (Inst α)) :
    exits.foldl (fun is _ => insertAtEnd [.memOp o, .other, .memOp o] is) (is.map (instMap g)) =
      (exits.foldl (fun is _ => insertAtEnd [.memOp o, .other, .memOp o] is) is).map
      (instMap g) := by
  have hnew : ([.memOp o, .other, .memOp o] : List (Inst α)).map (instMap g) =
      [.memOp o, .other, .memOp o] := rfl
  induction exits generalizing is with
  | nil => rfl
  | cons _ exits ih => rw [List.foldl_cons, List.foldl_cons, insertAtEnd_map g hnew, ih]

theorem insertLoopCode_map (e : Block × Block) (is : List (Inst α)) :
    insertLoopCode o f loops b e (is.map (instMap g)) =
      (insertLoopCode o f loops b e is).map (instMap g) := by
  unfold insertLoopCode
  simp only
  split
  · have hentry : (.alloca :: if (loops e).countsFromEntry then [.memOp o] else [] :
        List (Inst α)).map (instMap g) =
          .alloca :: if (loops e).countsFromEntry then [.memOp o] else [] := by split <;> rfl
    have hclear : ([.memOp o] : List (Inst α)).map (instMap g) = [.memOp o] := rfl
    simp only [insertPastAllocas_map g hentry, ← apply_ite (List.map (instMap g)),
      insertAtEnd_map g hclear]
  · rename_i iv _
    have hentry : (.alloca :: if (loops e).isNested then [.alloca, .memOp o] else [] :
        List (Inst α)).map (instMap g) =
          .alloca :: if (loops e).isNested then [.alloca, .memOp o] else [] := by split <;> rfl
    have hinit : (iv.initThreshold o (loops e).isNested : List (Inst α)).map (instMap g) =
        iv.initThreshold o (loops e).isNested := by
      unfold IndVar.initThreshold
      split <;> rfl
    simp only [insertPastAllocas_map g hentry, ← apply_ite (List.map (instMap g)),
      insertAtEnd_map g hinit, exits_map]

theorem blockNow_map (own : List α) :
    blockNow o f pr loops b (own.map g) = (blockNow o f pr loops b own).map (instMap g) := by
  have hloops : ∀ (es : List (Block × Block)) (is : List (Inst α)),
      es.foldl (insertLoopAt o f pr loops b) (is.map (instMap g)) =
        (es.foldl (insertLoopAt o f pr loops b) is).map (instMap g) := by
    intro es
    induction es with
    | nil => exact fun is => rfl
    | cons e es ih =>
      intro is
      rw [List.foldl_cons, List.foldl_cons, ← ih]
      congr 1
      simp only [insertLoopAt, cloneSelfLoopCode_map, ← apply_ite (List.map (instMap g)),
        insertLoopCode_map]
  have hprobe : (cycleProbe o : List (Inst α)).map (instMap g) = cycleProbe o := rfl
  unfold blockNow
  simp only [← hloops, List.zipIdx_map, List.map_map]
  congr 1
  split <;> simp [List.map_dropLast, hprobe, instMap, Function.comp_def]

theorem instructionsToProbe_map (cost : β → Int) (h : α → β) (ci t : Int) (is : List α) :
    instructionsToProbe cost ci t (is.map h) =
      (instructionsToProbe (cost ∘ h) ci t is).map (Prod.map id h) := by
  induction is generalizing t with
  | nil => rfl
  | cons i is ih =>
    simp only [instructionsToProbe, List.map_cons, Function.comp_apply]
    split <;> simp [ih]

/-- The events of a block are those of the costs of its instructions. -/
theorem codeOf_event (cost : α → Int) (own : List α) :
    (codeOf o f pr loops cost b own).map (Code.event cost) =
      (codeOf o f pr loops id b (own.map cost)).map (Code.event id) := by
  have hcost : Inst.cost id ∘ instMap cost = Inst.cost cost := by
    funext i
    cases i <;> rfl
  have hcode : ∀ x : Bool × Inst α, ((instMap cost x.2).code x.1).map (Code.event id) =
      (x.2.code x.1).map (Code.event cost) := by
    rintro ⟨probed, i⟩
    cases i <;> cases probed <;> rfl
  have hmarked : markedBlock o f pr loops id b (own.map cost) =
      (markedBlock o f pr loops cost b own).map (Prod.map id (instMap cost)) := by
    unfold markedBlock
    simp only [blockNow_map, instructionsToProbe_map, hcost]
    split <;> simp
  unfold codeOf
  simp only [hmarked, List.flatMap_map, Prod.map_snd, Prod.map_fst, id]
  split <;> simp [List.map_flatMap, hcode, List.getLast?_map, Option.toList_map, Code.event]

end Map

end TinyQuanta.EmittedCode
