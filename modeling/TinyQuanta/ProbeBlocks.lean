import TinyQuanta.Instrumented
import TinyQuanta.PlannerSteps

/-!
# The control-flow graph after the probes

The blocks that `insertProbes` adds to the function when it emits the code that
`Instrumented` describes. `SplitEdge` and `SplitBlockAndInsertIfThen` put new blocks
where the probe goes; the block itself keeps its instructions up to there, and its
name. The maps are walked in the order of the blocks here, and by address in the
pass. Costs of new blocks are never read. The last loop puts probes into the blocks
that have no cost, as many as `Instrumented` counts there.

Whatever is split, an edge between two blocks of the original function has always
been there, and a return moves only to a new block behind the old one.
-/
namespace TinyQuanta.ProbeBlocks

open Planner PlannerSteps InsertProbes Instrumented

/-! ## Splitting -/

/-- A number that no block has. -/
def freshBlock (g : Func) : Block := g.blocks.foldr max 0 + 1

theorem lt_freshBlock {g : Func} {b : Block} (hb : b ∈ g.blocks) : b < freshBlock g := by
  apply Nat.lt_succ_of_le
  generalize g.blocks = bs at hb
  induction bs with
  | nil => cases hb
  | cons c bs ih =>
    rw [List.foldr_cons]
    rcases List.mem_cons.mp hb with rfl | hb
    · exact Nat.le_max_left b _
    · exact Nat.le_trans (ih hb) (Nat.le_max_right c _)

/-- The successors of a block whose first edge to `v` now goes to `n`. -/
def redirect (v n : Block) : List Block → List Block
  | [] => []
  | s :: ss => if s = v then n :: ss else s :: redirect v n ss

theorem mem_redirect {v n s : Block} {ss : List Block} (h : s ∈ redirect v n ss) :
    s = n ∨ s ∈ ss := by
  induction ss with
  | nil => cases h
  | cons a ss ih =>
    unfold redirect at h
    split at h
    · exact (List.mem_cons.mp h).imp_right (List.mem_cons_of_mem a)
    · rcases List.mem_cons.mp h with rfl | h
      · exact .inr (by simp)
      · exact (ih h).imp_right (List.mem_cons_of_mem a)

/-- The function with new blocks and other terminators. Edges lead to blocks of the function only,
whatever is asked for. -/
def rewire (g : Func) (new : List Block) (succs : Block → List Block) (isRet : Block → Bool) :
    Func :=
  { g with
    blocks := new ++ g.blocks
    succs := fun b => (succs b).filter (· ∈ new ++ g.blocks)
    isRet := isRet
    entry_mem := List.mem_append_right new g.entry_mem
    succs_mem := fun _ _ _ hs => of_decide_eq_true (List.mem_filter.mp hs).2 }

/-- `SplitEdge`: the new block is on the first edge from `u` to `v`. -/
def splitEdge (g : Func) (u v : Block) : Func × Block :=
  let n := freshBlock g
  (rewire g [n]
    (Function.update (Function.update g.succs n [v]) u (redirect v n (g.succs u)))
    (Function.update g.isRet n false), n)

/-- `SplitBlockAndInsertIfThen`: the new blocks are the one that is run if the condition holds, and
the rest of `b`, which takes its terminator. -/
def splitBlockAndInsertIfThen (g : Func) (b : Block) : Func × Block × Block :=
  let n := freshBlock g
  let t := freshBlock g + 1
  (rewire g [n, t]
    (Function.update (Function.update (Function.update g.succs t (g.succs b)) n [t]) b [n, t])
    (Function.update (Function.update (Function.update g.isRet t (g.isRet b)) n false) b false),
    n, t)

/-- `insertCycleProbe` before an instruction of `b`. -/
def insertCycleProbe (g : Func) (b : Block) : Func × Block × Block := splitBlockAndInsertIfThen g b

/-- `cloneSelfLoop`, and the branch to the clone or the loop at the end of `instBB`. -/
def cloneSelfLoop (g : Func) (instBB b : Block) : Func × Block :=
  let n := freshBlock g
  (rewire g [n]
    (Function.update (Function.update g.succs n (redirect b n (g.succs b))) instBB [n, b])
    (Function.update g.isRet n (g.isRet b)), n)

/-! ## The probes -/

/-- The function as far as it has been rewritten, and the `UpdatePreheaderMap`. -/
structure Emission where
  func : Func
  updatePreheaderMap : Block × Block → Option Block

/-- A check behind a condition of its own, at the end of a new block on the edge. -/
def conditionalProbe (g : Func) (u v : Block) : Func :=
  let (g, splittedBB) := splitEdge g u v
  let (g, thenBB, _) := splitBlockAndInsertIfThen g splittedBB
  (insertCycleProbe g thenBB).1

def insertNormProbe (backEdges : List (Block × Block)) (loops : Block × Block → Loop) (s : Emission)
    (e : Block × Block) : Emission :=
  let (g, splittedBB) := splitEdge s.func e.1 e.2
  let (g, _, postInstBB) := insertCycleProbe g splittedBB
  { func := g
    updatePreheaderMap :=
      if backEdges.contains (e.2, e.2) && (loops (e.2, e.2)).preheader == e.1 then
        Function.update s.updatePreheaderMap e (some postInstBB)
      else s.updatePreheaderMap }

/-- The exit of a cloned self loop, which the pass asserts to have two successors. -/
def exitOf (clonedBB : Block) : List Block → Option Block
  | [s₀, s₁] => some (if s₀ = clonedBB then s₁ else s₀)
  | _ => none

def cloneSelfLoopOnCondition (l : Loop) (b : Block) (s : Emission) : Emission :=
  let instBB := (s.updatePreheaderMap (l.preheader, b)).getD l.preheader
  let (g, clonedBB) := cloneSelfLoop s.func instBB b
  match l.isNested, exitOf clonedBB (g.succs clonedBB) with
  | true, some exitBB => { s with func := conditionalProbe g clonedBB exitBB }
  | _, _ => { s with func := g }

def insertLoopProbe (loops : Block × Block → Loop) (s : Emission) (e : Block × Block) : Emission :=
  let s := if cloneable e (loops e) then cloneSelfLoopOnCondition (loops e) e.1 s else s
  { s with func := conditionalProbe s.func e.1 e.2 }

/-- Probes before `k` instructions of a block; each one but the first is before an instruction of
the rest that the one before it has split off. -/
def insertBlockProbes : Nat → Block → Func → Func
  | 0, _, g => g
  | k + 1, b, g =>
    let (g, _, rest) := insertCycleProbe g b
    insertBlockProbes k rest g

/-- How many instructions of a block without a cost take the total to the commit interval. -/
def blockProbes (o : Options) (f : Func) (loops : Block × Block → Loop) (pr : Probes) (b : Block) :
    Nat :=
  (markedBlock o f pr loops id b (f.costs b)).countP Prod.fst

/-- The function that `insertProbes` leaves. -/
def emitProbes (o : Options) (f : Func) (backEdges : List (Block × Block))
    (loops : Block × Block → Loop) (pr : Probes) : Func :=
  let s := ((edges f).dedup.filter fun e => pr.plan.inst e = .normInst).foldl
    (insertNormProbe backEdges loops) ⟨f, fun _ => none⟩
  let s := pr.plan.instrumentedBB.foldl
    (fun s b => { s with func := (insertCycleProbe s.func b).1 }) s
  let s := (loopEdges f pr).foldl (insertLoopProbe loops) s
  f.blocks.foldl (fun g b => insertBlockProbes (blockProbes o f loops pr b) b g) s.func

/-! ## What stays as it was -/

/-- What splitting keeps of the original function `f`. -/
structure Derived (f g : Func) : Prop where
  blocks : f.blocks ⊆ g.blocks
  entry : g.entry = f.entry
  edge : ∀ u ∈ f.blocks, ∀ v ∈ g.succs u, v ∈ f.blocks → v ∈ f.succs u
  ret : ∀ b ∈ f.blocks, g.isRet b = true → f.isRet b = true
  tail : ∀ u ∈ f.blocks, ∀ v ∈ g.succs u, v ∉ f.blocks → g.isRet v = true → f.isRet u = true

section Derived

variable {f g : Func}

theorem Derived.refl (f : Func) : Derived f f where
  blocks _ hb := hb
  entry := rfl
  edge _ _ _ hv _ := hv
  ret _ _ h := h
  tail u hu v hv hnew _ := absurd (f.succs_mem u hu v hv) hnew

theorem Derived.fresh_ne (h : Derived f g) {b : Block} (hb : b ∈ f.blocks) :
    b ≠ freshBlock g ∧ b ≠ freshBlock g + 1 := by
  have hlt : b < freshBlock g := lt_freshBlock (h.blocks hb)
  exact ⟨Nat.ne_of_lt hlt, Nat.ne_of_lt (Nat.lt_succ_of_lt hlt)⟩

theorem Derived.fresh_notMem (h : Derived f g) : freshBlock g ∉ f.blocks :=
  fun hb => (h.fresh_ne hb).1 rfl

theorem Derived.fresh_succ_notMem (h : Derived f g) : freshBlock g + 1 ∉ f.blocks :=
  fun hb => (h.fresh_ne hb).2 rfl

/-- It is enough to look at the edges out of original blocks: old ones, and those to blocks that are
not original and return only for the block they come from. -/
theorem Derived.rewire (h : Derived f g) (new : List Block) {succs : Block → List Block}
    {isRet : Block → Bool}
    (hret : ∀ b ∈ g.blocks, isRet b = true → g.isRet b = true)
    (hsuccs : ∀ u ∈ f.blocks, ∀ v ∈ succs u, v ∈ g.succs u ∨ v ∈ f.succs u ∨
      v ∉ f.blocks ∧ (isRet v = true → f.isRet u = true)) :
    Derived f (rewire g new succs isRet) := by
  have hmem : ∀ u ∈ f.blocks, ∀ v ∈ (ProbeBlocks.rewire g new succs isRet).succs u, v ∈ succs u :=
    fun u _ v hv => (List.mem_filter.mp hv).1
  refine ⟨fun b hb => List.mem_append_right new (h.blocks hb), h.entry, ?_, ?_, ?_⟩
  · intro u hu v hv hvf
    rcases hsuccs u hu v (hmem u hu v hv) with hold | hf | ⟨hnew, -⟩
    · exact h.edge u hu v hold hvf
    · exact hf
    · exact absurd hvf hnew
  · exact fun b hb hr => h.ret b hb (hret b (h.blocks hb) hr)
  · intro u hu v hv hnew hr
    rcases hsuccs u hu v (hmem u hu v hv) with hold | hf | ⟨-, hfr⟩
    · exact h.tail u hu v hold hnew (hret v (g.succs_mem u (h.blocks hu) v hold) hr)
    · exact absurd (f.succs_mem u hu v hf) hnew
    · exact hfr hr

theorem Derived.splitEdge (h : Derived f g) (u v : Block) : Derived f (splitEdge g u v).1 := by
  refine h.rewire [freshBlock g] (fun b hb hr => ?_) fun w hw x hx => ?_
  · rwa [Function.update_of_ne (Nat.ne_of_lt (lt_freshBlock hb))] at hr
  · by_cases hwu : w = u
    · subst hwu
      rw [Function.update_self] at hx
      rcases mem_redirect hx with rfl | hx
      · exact .inr (.inr ⟨h.fresh_notMem, fun hr => by simp at hr⟩)
      · exact .inl hx
    · rw [Function.update_of_ne hwu, Function.update_of_ne (h.fresh_ne hw).1] at hx
      exact .inl hx

theorem Derived.splitBlock (h : Derived f g) (b : Block) :
    Derived f (splitBlockAndInsertIfThen g b).1 := by
  have hn : freshBlock g ≠ freshBlock g + 1 := Nat.ne_of_lt (Nat.lt_succ_self _)
  refine h.rewire [freshBlock g, freshBlock g + 1] (fun c hc hr => ?_) fun w hw x hx => ?_
  · have hlt : c < freshBlock g := lt_freshBlock hc
    by_cases hcb : c = b
    · simp [hcb] at hr
    · rwa [Function.update_of_ne hcb, Function.update_of_ne (Nat.ne_of_lt hlt),
        Function.update_of_ne (Nat.ne_of_lt (Nat.lt_succ_of_lt hlt))] at hr
  · obtain ⟨hwn, hwt⟩ := h.fresh_ne hw
    by_cases hwb : w = b
    · subst hwb
      rw [Function.update_self] at hx
      rcases List.mem_cons.mp hx with rfl | hx
      · refine .inr (.inr ⟨h.fresh_notMem, fun hr => ?_⟩)
        rw [Function.update_of_ne hwn.symm, Function.update_self] at hr
        cases hr
      · -- the rest of the block returns if the block did
        cases List.mem_singleton.mp hx
        refine .inr (.inr ⟨h.fresh_succ_notMem, fun hr => ?_⟩)
        rw [Function.update_of_ne hwt.symm, Function.update_of_ne hn.symm,
          Function.update_self] at hr
        exact h.ret w hw hr
    · rw [Function.update_of_ne hwb, Function.update_of_ne hwn, Function.update_of_ne hwt] at hx
      exact .inl hx

theorem Derived.cloneSelfLoop (h : Derived f g) {instBB b : Block} (hb : b ∈ f.blocks)
    (hr : f.isRet b = false) (hpre : instBB ∈ f.blocks → b ∈ f.succs instBB) :
    Derived f (cloneSelfLoop g instBB b).1 := by
  refine h.rewire [freshBlock g] (fun c hc hr => ?_) fun w hw x hx => ?_
  · rwa [Function.update_of_ne (Nat.ne_of_lt (lt_freshBlock hc))] at hr
  · by_cases hwi : w = instBB
    · subst hwi
      rw [Function.update_self] at hx
      rcases List.mem_cons.mp hx with rfl | hx
      · refine .inr (.inr ⟨h.fresh_notMem, fun hc => ?_⟩)
        rw [Function.update_self] at hc
        exact absurd (h.ret b hb hc) (by simp [hr])
      · cases List.mem_singleton.mp hx
        exact .inr (.inl (hpre hw))
    · rw [Function.update_of_ne hwi, Function.update_of_ne (h.fresh_ne hw).1] at hx
      exact .inl hx

theorem Derived.conditionalProbe (h : Derived f g) (u v : Block) :
    Derived f (conditionalProbe g u v) := ((h.splitEdge u v).splitBlock _).splitBlock _

theorem Derived.insertBlockProbes (h : Derived f g) (k : Nat) (b : Block) :
    Derived f (insertBlockProbes k b g) := by
  induction k generalizing g b with
  | zero => exact h
  | succ k ih => exact ih (h.splitBlock b) _

/-- The blocks that stand in for a preheader are new. -/
structure Emitted (f : Func) (s : Emission) : Prop where
  derived : Derived f s.func
  post : ∀ e b, s.updatePreheaderMap e = some b → b ∉ f.blocks

variable {backEdges : List (Block × Block)} {loops : Block × Block → Loop} {s : Emission}

theorem Emitted.insertNormProbe (h : Emitted f s) (e : Block × Block) :
    Emitted f (insertNormProbe backEdges loops s e) := by
  have hsplit := h.derived.splitEdge e.1 e.2
  refine ⟨hsplit.splitBlock _, fun e' b hb => ?_⟩
  simp only [ProbeBlocks.insertNormProbe] at hb
  split at hb
  · by_cases he : e' = e
    · rw [he, Function.update_self] at hb
      cases hb
      exact hsplit.fresh_succ_notMem
    · rw [Function.update_of_ne he] at hb
      exact h.post e' b hb
  · exact h.post e' b hb

theorem Emitted.cloneSelfLoopOnCondition (h : Emitted f s) {l : Loop} {b : Block}
    (hb : b ∈ f.blocks)
    (hr : f.isRet b = false) (hpre : b ∈ f.succs l.preheader) :
    Emitted f (cloneSelfLoopOnCondition l b s) := by
  have hclone : Derived f (ProbeBlocks.cloneSelfLoop s.func
      ((s.updatePreheaderMap (l.preheader, b)).getD l.preheader) b).1 := by
    refine h.derived.cloneSelfLoop hb hr fun hinst => ?_
    cases hu : s.updatePreheaderMap (l.preheader, b) with
    | none => exact hpre
    | some c =>
      rw [hu] at hinst
      exact absurd hinst (h.post _ c hu)
  unfold ProbeBlocks.cloneSelfLoopOnCondition
  simp only
  split
  · exact ⟨hclone.conditionalProbe _ _, h.post⟩
  · exact ⟨hclone, h.post⟩

theorem Emitted.insertLoopProbe (h : Emitted f s) {e : Block × Block}
    (hself : e.1 = e.2 → e.1 ∈ f.blocks ∧ f.isRet e.1 = false)
    (hpre : cloneable e (loops e) = true → e.1 ∈ f.succs (loops e).preheader) :
    Emitted f (insertLoopProbe loops s e) := by
  have hs : Emitted f (if cloneable e (loops e) then
      ProbeBlocks.cloneSelfLoopOnCondition (loops e) e.1 s else s) := by
    by_cases hc : cloneable e (loops e) = true
    · rw [if_pos hc]
      have he : e.1 = e.2 := by
        unfold cloneable at hc
        simp only [Bool.and_eq_true, beq_iff_eq] at hc
        exact hc.1
      exact h.cloneSelfLoopOnCondition (hself he).1 (hself he).2 (hpre hc)
    · rwa [if_neg hc]
  exact ⟨hs.derived.conditionalProbe e.1 e.2, hs.post⟩

theorem emitProbes_derived {o : Options} {pr : Probes}
    (hself : ∀ e, pr.HasLoopProbe e → e.1 = e.2 → e.1 ∈ f.blocks ∧ f.isRet e.1 = false)
    (hpre : ∀ e, pr.HasLoopProbe e → cloneable e (loops e) = true →
      e.1 ∈ f.succs (loops e).preheader) :
    Derived f (emitProbes o f backEdges loops pr) := by
  have hinit : Emitted f ⟨f, fun _ => none⟩ := ⟨.refl f, fun e b hb => by cases hb⟩
  have hnorm := List.foldlRecOn (motive := Emitted f)
    ((edges f).dedup.filter fun e => pr.plan.inst e = .normInst)
    (ProbeBlocks.insertNormProbe backEdges loops) hinit fun s hs e _ => hs.insertNormProbe e
  have hblock := List.foldlRecOn (motive := Emitted f) pr.plan.instrumentedBB
    (fun s b => { s with func := (insertCycleProbe s.func b).1 }) hnorm
    fun s hs b _ => ⟨hs.derived.splitBlock b, hs.post⟩
  have hloop := List.foldlRecOn (motive := Emitted f) (loopEdges f pr)
    (ProbeBlocks.insertLoopProbe loops) hblock
    fun s hs e he => by
      have hp : pr.HasLoopProbe e := by simpa using (List.mem_filter.mp he).2
      exact hs.insertLoopProbe (hself e hp) (hpre e hp)
  exact List.foldlRecOn (motive := Derived f) _ _ hloop.derived
    fun g hg b _ => hg.insertBlockProbes (blockProbes o f loops pr b) b

end Derived

end TinyQuanta.ProbeBlocks
