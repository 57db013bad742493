import TinyQuanta.CostFile
import TinyQuanta.ExportedDistance

/-!
# The pass over a module

`runOnModule` takes the functions of a module in call graph order, callees first, and
analyses and instruments each one. Costs come from the options, from the cost file and
from the fact that a function is defined in the module. What is known about a callee
that has been analysed before decides how the calls in a loop are counted.

`LoopCostMode` is set to false for every function and never to true, so the branch of
`getCallCost` that looks at it is dead and left out. What LLVM tells about a function is
part of its definition: the back edges, the loops, and whether all loops are simplified.
-/
namespace TinyQuanta.ModulePass

open Planner InsertProbes ProbeBlocks ExportedDistance CostFile CText
open Instrumented (Loop)

/-- The options of planning, and the others that costs depend on. -/
structure Flags where
  options : Options
  extLibFuncCost : Int
  fMulDivCost : Int

/-- What `leveldb/tq.mk` sets, and the defaults. -/
def levelDBFlags : Flags := ⟨⟨800, 1000, 100000000, 1⟩, 1, 5⟩

/-! ## The cost of an instruction -/

/-- `getCalledFunction`, null for an indirect call; `intrinsic` is true of LLVM's own functions. -/
inductive Callee where
  | indirect
  | function (name : Name) (intrinsic : Bool)
  deriving DecidableEq, Repr

/-- What the pass distinguishes. -/
inductive Inst where
  | phi | getElementPtr | cast | alloca
  | load | store
  | call (callee : Callee)
  | fmul | fdiv
  | other
  deriving DecidableEq, Repr

def isNOOPInstruction : Inst → Bool
  | .phi | .getElementPtr | .cast | .alloca => true
  | _ => false

def expensiveExtLibCalls : List Name := [ascii "write"]

def ignoreExtLibCalls : List Name :=
  [ascii "pthread_mutex_trylock", ascii "pthread_mutex_lock", ascii "pthread_mutex_unlock"]

def memmove : Name := ascii "llvm.memmove.p0i8.p0i8.i64"

def getCallCost (fl : Flags) (costs : Costs) : Callee → Int
  | .indirect => 1
  | .function name intrinsic =>
    match costs name with
    | some cost => cost
    | none =>
      if intrinsic then if name = memmove then fl.options.commitInterval else 1
      else if name ∈ expensiveExtLibCalls then fl.options.commitInterval
      else if name ∈ ignoreExtLibCalls then 1
      else fl.extLibFuncCost

def getInstructionCost (fl : Flags) (costs : Costs) (i : Inst) : Int :=
  if isNOOPInstruction i then 0
  else
    match i with
    | .load | .store => fl.options.memOpsCost
    | .call callee => getCallCost fl costs callee
    | .fmul | .fdiv => fl.fMulDivCost
    | _ => 1

/-! ## One function -/

/-- A function with a body. -/
structure Definition where
  name : Name
  blocks : List Block
  entry : Block
  succs : Block → List Block
  isRet : Block → Bool
  insts : Block → List Inst
  entry_mem : entry ∈ blocks
  succs_mem : ∀ b ∈ blocks, ∀ s ∈ succs b, s ∈ blocks
  backEdges : List (Block × Block)
  loops : Block × Block → Loop
  loopsSimplified : Bool

/-- The `MaxUnistDist` of the functions in `computedFuncInfo`. -/
abbrev Info := Name → Option Int

/-- How `populateFuncCallCostMap` sees an instruction. -/
def callOf (costs : Costs) (info : Info) : Inst → Option Call
  | .call .indirect => some .indirect
  | .call (.function name _) =>
    some (if (costs name).isSome then .library (decide (info name = some 0)) else .other)
  | _ => none

/-- `DbgInfoIntrinsic`s. -/
def debugIntrinsics : Name := ascii "llvm.dbg."

/-- What the insertion point in the entry block has to be behind. -/
def isBeforeInsertPoint : Inst → Bool
  | .alloca | .phi => true
  | .call (.function name true) => debugIntrinsics.isPrefixOf name
  | _ => false

/-- The function with the costs and calls that the pass finds in it. -/
def Definition.func (d : Definition) (fl : Flags) (costs : Costs) (info : Info) : Func where
  blocks := d.blocks
  entry := d.entry
  succs := d.succs
  isRet := d.isRet
  costs b := (d.insts b).map (getInstructionCost fl costs)
  calls b := (d.insts b).filterMap (callOf costs info)
  allocas := ((d.insts d.entry).takeWhile isBeforeInsertPoint).length
  entry_mem := d.entry_mem
  succs_mem := d.succs_mem

/-- A function after its turn, with its probes unless it was left alone. -/
structure Analysed where
  definition : Definition
  func : Func
  probes : Option Probes

/-- What `updateFuncInfo` records. -/
def recorded (o : Options) (d : Definition) (f : Func) (pr : Probes) : Int :=
  maxUnistDist f (emitProbes o f d.backEdges d.loops pr) pr.plan

/-- A function with unsimplified loops is left alone. -/
def analyzeAndInstrFunc (fl : Flags) (costs : Costs) (n : Nat) (d : Definition) (info : Info) :
    Except Failure (Analysed × Option Int) :=
  let f := d.func fl costs info
  if d.loopsSimplified then
    match generateInst fl.options f d.backEdges n with
    | .error e => .error e
    | .ok pr => .ok (⟨d, f, some pr⟩, some (recorded fl.options d f pr))
  else .ok (⟨d, f, none⟩, none)

/-! ## The module -/

/-- Functions of this module cost 1, unless the cost file says otherwise. -/
def populateLibraryInstructionCosts (m : List Definition) (costs : Costs) : Costs :=
  m.foldl (fun costs d =>
    if (costs d.name).isNone then Function.update costs d.name (some 1) else costs) costs

/-- The table that `initializeModule` leaves. A cost file with a wrong header is reported and the
table stays empty; a loop that does not end and a null pointer have no result. -/
def initializeModule (n : Nat) (inCostFile : Input) (m : List Definition) : Option Costs :=
  match readCost n inCostFile with
  | some (.returned _ costs) => some (populateLibraryInstructionCosts m costs)
  | _ => none

structure Progress where
  info : Info
  done : List Analysed

/-- The entry in `computedFuncInfo`, if there is one. -/
def Info.record (info : Info) (name : Name) : Option Int → Info
  | none => info
  | some dist => Function.update info name (some dist)

/-- The loop over `CGOrderedFunc`. -/
def analyzeAll (fl : Flags) (costs : Costs) (n : Nat) :
    List Definition → Progress → Except Failure Progress
  | [], r => .ok r
  | d :: ds, r =>
    match analyzeAndInstrFunc fl costs n d r.info with
    | .error e => .error e
    | .ok (u, dist) => analyzeAll fl costs n ds ⟨r.info.record d.name dist, r.done ++ [u]⟩

def Progress.start : Progress := ⟨fun _ => none, []⟩

/-- `m` lists the functions that are defined in the module, `cgOrderedFunc` the same in call graph
order. -/
def runOnModule (fl : Flags) (n : Nat) (inCostFile : Input) (m cgOrderedFunc : List Definition) :
    Option (Except Failure Progress) :=
  (initializeModule n inCostFile m).map fun costs => analyzeAll fl costs n cgOrderedFunc .start

/-! ## The order of the functions -/

/-- The function calls another one by its name. -/
def Definition.Calls (d : Definition) (name : Name) : Prop :=
  ∃ b intrinsic, .call (.function name intrinsic) ∈ d.insts b

/-- Callees come before their callers, and nothing is recursive. -/
structure BottomUp (l : List Definition) : Prop where
  later : l.Pairwise fun d e => ¬ d.Calls e.name
  self : ∀ d ∈ l, ¬ d.Calls d.name

section Order

variable {fl : Flags} {costs : Costs} {n : Nat} {d : Definition} {l : List Definition}
  {info info' : Info}

theorem Info.record_self (info : Info) (name : Name) {dist : Option Int} (h : info name = none) :
    info.record name dist name = dist := by
  cases dist with
  | none => exact h
  | some x => exact Function.update_self name (some x) info

theorem Info.record_of_ne (info : Info) {name other : Name} (dist : Option Int) (h : other ≠ name) :
    info.record name dist other = info other := by
  cases dist with
  | none => rfl
  | some x => exact Function.update_of_ne h (some x) info

/-- Only what is known about its callees matters to a function. -/
theorem Definition.func_congr (h : ∀ name, d.Calls name → info name = info' name) :
    d.func fl costs info = d.func fl costs info' := by
  have hcalls : ∀ b, (d.insts b).filterMap (callOf costs info) =
      (d.insts b).filterMap (callOf costs info') := by
    intro b
    refine List.filterMap_congr fun i hi => ?_
    cases i with
    | call callee =>
      cases callee with
      | indirect => rfl
      | function name intrinsic => simp only [callOf, h name ⟨b, intrinsic, hi⟩]
    | _ => rfl
  simp only [Definition.func, hcalls]

theorem analyze_congr (h : ∀ name, d.Calls name → info name = info' name) :
    analyzeAndInstrFunc fl costs n d info = analyzeAndInstrFunc fl costs n d info' := by
  unfold analyzeAndInstrFunc
  rw [Definition.func_congr h]

/-- The analysis of every function gives what is recorded about it. -/
def Solves (fl : Flags) (costs : Costs) (n : Nat) (info : Info) (l : List Definition) : Prop :=
  ∀ d ∈ l, ∃ u, analyzeAndInstrFunc fl costs n d info = .ok (u, info d.name)

/-- The function as it is left when this is known about the others. -/
def outcome (fl : Flags) (costs : Costs) (n : Nat) (info : Info) (d : Definition) : Analysed :=
  match analyzeAndInstrFunc fl costs n d info with
  | .ok (u, _) => u
  | .error _ => ⟨d, d.func fl costs info, none⟩

theorem BottomUp.tail (h : BottomUp (d :: l)) : BottomUp l :=
  ⟨h.later.of_cons, fun e he => h.self e (List.mem_cons_of_mem d he)⟩

/-- A function that is next calls none of those that are still to come. -/
theorem BottomUp.calls_notMem (h : BottomUp (d :: l)) {name : Name} (hc : d.Calls name) :
    name ≠ d.name ∧ name ∉ l.map Definition.name := by
  refine ⟨fun he => h.self d List.mem_cons_self (he ▸ hc), fun hm => ?_⟩
  obtain ⟨e, he, rfl⟩ := List.mem_map.mp hm
  exact List.rel_of_pairwise_cons h.later he hc

theorem outcome_of_ok {u : Analysed} {dist : Option Int}
    (h : analyzeAndInstrFunc fl costs n d info = .ok (u, dist)) :
    outcome fl costs n info d = u := by
  rw [outcome, h]

/-- What a run over functions in call graph order leaves behind. -/
theorem analyzeAll_solves (hb : BottomUp l) (hn : (l.map Definition.name).Nodup) {r r' : Progress}
    (hr : ∀ d ∈ l, r.info d.name = none) (h : analyzeAll fl costs n l r = .ok r') :
    Solves fl costs n r'.info l ∧ (∀ name ∉ l.map Definition.name, r'.info name = r.info name) ∧
      r'.done = r.done ++ l.map (outcome fl costs n r'.info) := by
  induction l generalizing r with
  | nil =>
    cases h
    exact ⟨fun d hd => (List.not_mem_nil hd).elim, fun _ _ => rfl, (List.append_nil _).symm⟩
  | cons d ds ih =>
    rw [analyzeAll] at h
    split at h
    · cases h
    · rename_i u dist hok
      obtain ⟨hd, hds⟩ := List.nodup_cons.mp hn
      have hnone := hr d List.mem_cons_self
      have hkeep : ∀ e ∈ ds, (r.info.record d.name dist) e.name = none := by
        intro e he
        have hne : e.name ≠ d.name := fun hee => hd (hee ▸ List.mem_map_of_mem he)
        rw [Info.record_of_ne r.info dist hne]
        exact hr e (List.mem_cons_of_mem d he)
      obtain ⟨hs, hout, hdone⟩ := ih hb.tail hds hkeep h
      -- nothing that `d` looks at is recorded from here on
      have hcong : analyzeAndInstrFunc fl costs n d r'.info = .ok (u, dist) := by
        rw [← hok]
        refine analyze_congr fun name hc => ?_
        obtain ⟨hne, hnot⟩ := hb.calls_notMem hc
        rw [hout name hnot]
        exact Info.record_of_ne r.info dist hne
      have hself : r'.info d.name = dist := by
        rw [hout d.name hd]
        exact Info.record_self r.info d.name hnone
      refine ⟨fun e he => ?_, fun name hname => ?_, ?_⟩
      · rcases List.mem_cons.mp he with rfl | he
        · exact ⟨u, hself ▸ hcong⟩
        · exact hs e he
      · rw [List.map_cons, List.mem_cons, not_or] at hname
        rw [hout name hname.2]
        exact Info.record_of_ne r.info dist hname.1
      · rw [hdone, List.map_cons, outcome_of_ok hcong, List.append_assoc]
        rfl

/-- What is known at the end can be found in any such order. -/
theorem analyzeAll_of_solves (hb : BottomUp l) (hn : (l.map Definition.name).Nodup)
    (hs : Solves fl costs n info l) {r : Progress} (hr : ∀ d ∈ l, r.info d.name = none)
    (hout : ∀ name ∉ l.map Definition.name, r.info name = info name) :
    analyzeAll fl costs n l r = .ok ⟨info, r.done ++ l.map (outcome fl costs n info)⟩ := by
  induction l generalizing r with
  | nil =>
    have he : r.info = info := funext fun name => hout name List.not_mem_nil
    rw [analyzeAll, List.map_nil, List.append_nil, ← he]
  | cons d ds ih =>
    obtain ⟨hd, hds⟩ := List.nodup_cons.mp hn
    have hnone := hr d List.mem_cons_self
    obtain ⟨u, hu⟩ := hs d List.mem_cons_self
    have hok : analyzeAndInstrFunc fl costs n d r.info = .ok (u, info d.name) := by
      rw [← hu]
      refine analyze_congr fun name hc => hout name ?_
      obtain ⟨hne, hnot⟩ := hb.calls_notMem hc
      exact List.not_mem_cons_of_ne_of_not_mem hne hnot
    have hkeep : ∀ e ∈ ds, (r.info.record d.name (info d.name)) e.name = none := by
      intro e he
      have hne : e.name ≠ d.name := fun hee => hd (hee ▸ List.mem_map_of_mem he)
      rw [Info.record_of_ne r.info _ hne]
      exact hr e (List.mem_cons_of_mem d he)
    have hrest : ∀ name ∉ ds.map Definition.name,
        (r.info.record d.name (info d.name)) name = info name := by
      intro name hname
      by_cases he : name = d.name
      · rw [he]
        exact Info.record_self r.info d.name hnone
      · rw [Info.record_of_ne r.info _ he]
        exact hout name (List.not_mem_cons_of_ne_of_not_mem he hname)
    rw [analyzeAll, hok]
    refine (ih hb.tail hds (fun e he => hs e (List.mem_cons_of_mem d he)) hkeep hrest).trans ?_
    rw [List.map_cons, outcome_of_ok hu, List.append_assoc]
    rfl

end Order

/-- `scc_iterator` fixes which of several orders with the callees first is taken; the table and the
probes of each function do not depend on it. -/
theorem runOnModule_perm {fl : Flags} {n : Nat} {inCostFile : Input} {m l l' : List Definition}
    (hp : l.Perm l') (hn : (l.map Definition.name).Nodup) (hb : BottomUp l) (hb' : BottomUp l')
    {r : Progress} (h : runOnModule fl n inCostFile m l = some (.ok r)) :
    ∃ r', runOnModule fl n inCostFile m l' = some (.ok r') ∧ r'.info = r.info ∧
      r'.done.Perm r.done := by
  obtain ⟨costs, hc, hall⟩ := Option.map_eq_some_iff.mp h
  obtain ⟨hs, hout, hdone⟩ := analyzeAll_solves hb hn (fun _ _ => rfl) hall
  have hn' : (l'.map Definition.name).Nodup := (hp.map Definition.name).nodup_iff.mp hn
  have hs' : Solves fl costs n r.info l' := fun d hd => hs d (hp.mem_iff.mpr hd)
  have hall' := analyzeAll_of_solves hb' hn' hs' (r := .start) (fun _ _ => rfl)
    (fun name hname => (hout name (fun hm => hname ((hp.map Definition.name).mem_iff.mp hm))).symm)
  refine ⟨⟨r.info, l'.map (outcome fl costs n r.info)⟩, ?_, rfl, ?_⟩
  · rw [runOnModule, hc, Option.map_some, hall']
    rfl
  · rw [hdone]
    exact (hp.map (outcome fl costs n r.info)).symm

/-- A function of one block that calls others in turn. -/
def Definition.ofCalls (name : Name) (callees : List Name) : Definition where
  name := name
  blocks := [0]
  entry := 0
  succs _ := []
  isRet _ := true
  insts _ := callees.map (fun callee => .call (.function callee false)) ++ [.other]
  entry_mem := List.mem_singleton_self 0
  succs_mem _ _ _ hs := (List.not_mem_nil hs).elim
  backEdges := []
  loops _ := ⟨0, [], 0, [], none⟩
  loopsSimplified := true

theorem Definition.ofCalls_calls {name callee : Name} {callees : List Name}
    (h : (ofCalls name callees).Calls callee) : callee ∈ callees := by
  obtain ⟨b, intrinsic, h⟩ := h
  rcases List.mem_append.mp h with h | h
  · obtain ⟨c, hc, he⟩ := List.mem_map.mp h
    cases he
    exact hc
  · cases List.mem_singleton.mp h

def ofCallGraph (ps : List (Name × List Name)) : List Definition :=
  ps.map fun p => .ofCalls p.1 p.2

theorem bottomUp_ofCallGraph {ps : List (Name × List Name)}
    (hp : ps.Pairwise fun p q => q.1 ∉ p.2) (hs : ∀ p ∈ ps, p.1 ∉ p.2) :
    BottomUp (ofCallGraph ps) := by
  refine ⟨List.pairwise_map.mpr (hp.imp fun h hc => h (Definition.ofCalls_calls hc)),
    fun d hd hc => ?_⟩
  obtain ⟨p, hm, rfl⟩ := List.mem_map.mp hd
  exact hs p hm (Definition.ofCalls_calls hc)

theorem runOnModule_perm_two_leaves :
    ∃ r r', runOnModule levelDBFlags 40 .notSupplied
        (ofCallGraph [([102], [[103], [104]]), ([103], []), ([104], [])])
        (ofCallGraph [([103], []), ([104], []), ([102], [[103], [104]])]) = some (.ok r) ∧
      runOnModule levelDBFlags 40 .notSupplied
        (ofCallGraph [([102], [[103], [104]]), ([103], []), ([104], [])])
        (ofCallGraph [([104], []), ([103], []), ([102], [[103], [104]])]) = some (.ok r') ∧
      r'.info = r.info ∧ r'.done.Perm r.done ∧ r.info [102] = some 3 := by
  have hr : ∃ r, runOnModule levelDBFlags 40 .notSupplied
      (ofCallGraph [([102], [[103], [104]]), ([103], []), ([104], [])])
      (ofCallGraph [([103], []), ([104], []), ([102], [[103], [104]])]) = some (.ok r) ∧
        r.info [102] = some 3 :=
    ⟨_, rfl, rfl⟩
  have hb : BottomUp (ofCallGraph [([103], []), ([104], []), ([102], [[103], [104]])]) :=
    bottomUp_ofCallGraph (by decide) (by decide)
  have hb' : BottomUp (ofCallGraph [([104], []), ([103], []), ([102], [[103], [104]])]) :=
    bottomUp_ofCallGraph (by decide) (by decide)
  obtain ⟨r, hr, hinfo⟩ := hr
  obtain ⟨r', hr', hsame, hdone⟩ := runOnModule_perm (List.Perm.swap _ _ _) (by decide) hb hb' hr
  exact ⟨r, r', hr, hr', hsame, hdone, hinfo⟩

end TinyQuanta.ModulePass
