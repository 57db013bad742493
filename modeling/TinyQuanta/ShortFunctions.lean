import TinyQuanta.NestedCalls

/-!
# Functions that need no probe

A function without loops gets no probe if all its instructions together cost less than the
commit interval, and no more than what may pass from its entry to a return. Nothing looks at
how often such functions are called: `getRecursiveFunc` has the assignments commented out
that would mark recursive functions, so that they are treated like all others.
-/
namespace TinyQuanta.ShortFunctions

open Relation Params TopoSort Relaxation Planner PlannerSteps PlannerBound InsertProbes LoopForm
  LoopCosts EmittedCode LoopSteps CostFile ModulePass NestedCalls
open Instrumented hiding Inst step

/-! ## The plan of a short function -/

/-- What all instructions of the function cost together. -/
def totalCost (f : Func) : Int := (f.blocks.map fun b => (f.costs b).sum).sum

/-- The two loops of `generateInst` have nothing to do. -/
structure Short (o : Options) (f : Func) : Prop where
  acyclic : Acyclic f []
  costs : ∀ b ∈ f.blocks, ∀ c ∈ f.costs b, 0 ≤ c
  e2e : totalCost f ≤ o.maxE2EUninst
  interval : totalCost f < o.commitInterval
  int : totalCost f ≤ intMax

/-- Nothing is instrumented. -/
structure Unprobed (pr : Probes) : Prop where
  inst : ∀ e, pr.plan.inst e = .uninst
  noBB : pr.plan.instrumentedBB = []

section Plan

variable {o : Options} {f : Func} {p : Plan}

theorem Short.sum_nonneg (h : Short o f) : ∀ b ∈ f.blocks, 0 ≤ (f.costs b).sum :=
  fun b hb => List.sum_nonneg (h.costs b hb)

theorem Short.totalCost_nonneg (h : Short o f) : 0 ≤ totalCost f :=
  List.sum_nonneg (by simpa using h.sum_nonneg)

theorem Short.sum_le (h : Short o f) {b : Block} (hb : b ∈ f.blocks) :
    (f.costs b).sum ≤ totalCost f :=
  List.single_le_sum (by simpa using h.sum_nonneg) _ (List.mem_map_of_mem hb)

theorem Short.fits (h : Short o f) : Fits o f [] := .of_total h.acyclic h.costs h.int

/-- No path costs more than the function. -/
theorem Short.pathCost_le (h : Short o f) (hp : Inv o f p) (hback : p.backEdges = []) {s b : Block}
    {path : List Block} (hs : s ∈ p.sortedBBs) (hpath : Unbroken f p s b path) :
    pathCost p path ≤ totalCost f := by
  have hreach : ∀ c ∈ path, ReflTransGen (Edge (forward f p.backEdges)) f.entry c :=
    fun c hc => ((hp.sorted s).mp hs).trans (hpath.mem_reaches c hc)
  have hle : pathCost p path ≤ (path.map fun b => (f.costs b).sum).sum := by
    refine List.sum_le_sum fun c hc => ?_
    rw [hp.weights c ((hp.sorted c).mpr (hreach c hc))]
    exact weight_le (h.costs c (reach_blocks (hreach c hc)))
  rw [hback] at hreach
  have hchain := hpath.chain
  rw [hback] at hchain
  exact hle.trans (sum_path_le h.acyclic hreach (hchain.imp fun u v huv => huv.1) h.sum_nonneg)

theorem mergeBlocks_uninst (h : ∀ e, p.inst e = .uninst) : mergeBlocks f p = p := by
  unfold mergeBlocks
  refine List.foldlRecOn (motive := fun q => q = p) f.blocks _ rfl fun q hq b _ => ?_
  subst hq
  unfold mergeBlock
  rw [if_neg]
  rintro ⟨hlen, hall⟩
  cases hs : f.succs b with
  | nil =>
    rw [hs] at hlen
    cases hlen
  | cons s ss => exact hall s (hs ▸ List.mem_cons_self) (h (b, s))

/-- Short functions stay as they are. -/
theorem generateInst_short (h : Short o f) :
    ∃ pr, (∀ n, generateInst o f [] (n + 1) = .ok pr) ∧ Unprobed pr := by
  have hpos : 0 < o.commitInterval := Int.lt_of_le_of_lt h.totalCost_nonneg h.interval
  obtain ⟨l, hsort, hp, hback⟩ := start_inv (o := o) h.acyclic hpos h.costs h.fits
  have hinst : ∀ e, (initialPlan o f [] l).inst e = .uninst := by
    intro e
    obtain ⟨m, n, he, hm⟩ := initialPlan_spec o f [] l
    rw [he]
    simp only [Plan.inst, hm]
    split <;> simp
  have he2e : ∀ n, e2eLoop o f (n + 1) (initialPlan o f [] l) = .ok (initialPlan o f [] l) := by
    intro n
    have hle : (maxReturn f (longestDistanceFrom f (initialPlan o f [] l) f.entry)).2 ≤
        totalCost f := by
      refine maxReturn_le h.totalCost_nonneg fun b _ _ y hy => ?_
      rcases (longest_entry (Inv.metered hp (Inv.entry hp)) hy).2 with rfl | ⟨path, hpath, rfl⟩
      · exact h.totalCost_nonneg
      · exact h.pathCost_le hp hback (Inv.entry hp) hpath
    simp only [e2eLoop, if_pos (hle.trans h.e2e)]
  have hdist : ∀ n, distanceLoop o f (n + 1) (initialPlan o f [] l) =
      .ok (initialPlan o f [] l) := by
    intro n
    obtain ⟨s, hs, path, hpath, hcost⟩ :=
      distance_entry hp (distance_best f (initialPlan o f [] l)).here
    have hle := h.pathCost_le hp hback hs hpath
    rw [hcost] at hle
    simp only [distanceLoop, if_pos (hle.trans (Int.le_of_lt h.interval))]
  have hcancel : cancelBackEdges f (initialPlan o f [] l) = initialPlan o f [] l := by
    rw [cancelBackEdges, hback]
    rfl
  refine ⟨⟨initialPlan o f [] l, loopCost f (initialPlan o f [] l), fun e =>
    numIters o (loopCost f (initialPlan o f [] l) e) (loopFuncCallCost f (initialPlan o f [] l) e)⟩,
    fun n => ?_, hinst, hp.noBB⟩
  simp only [generateInst, planProbes, hsort, he2e, hdist, insertProbes, mergeBlocks_uninst hinst,
    hcancel, hback]
  exact if_pos ⟨fun e he => (List.not_mem_nil he).elim, fun e he => (List.not_mem_nil he).elim⟩

end Plan

/-! ## Runs without a check -/

section Runs

variable {fl : Flags} {costs : Costs} {units : List Analysed} {l : List Definition}

/-- A function that runs as if it had not been instrumented. -/
structure Mute (fl : Flags) (costs : Costs) (u : Analysed) : Prop where
  func : ∃ info, u.func = u.definition.func fl costs info
  inst : ∀ e, (probesOf u).plan.inst e = .uninst
  code : ∀ b ∈ u.func.blocks, codeAt fl costs u b = (u.definition.insts b).map .inst
  nonneg : ∀ b ∈ u.func.blocks, ∀ i ∈ u.definition.insts b, 0 ≤ getInstructionCost fl costs i

/-- A call that has no check ahead in its block, only instructions with a cost. -/
structure Silent (fl : Flags) (costs : Costs) (fr : Frame) : Prop where
  mute : Mute fl costs fr.unit
  clone : fr.state.clone = false
  cur : fr.state.cur ∈ fr.unit.func.blocks
  code : ∀ c ∈ fr.code, ∃ i, c = .inst i ∧ 0 ≤ getInstructionCost fl costs i

/-- The total does not get to the interval. -/
theorem instructionsToProbe_short {α : Type} {cost : α → Int} {ci t : Int} {is : List α}
    (ht : 0 ≤ t) (hnn : ∀ i ∈ is, 0 ≤ cost i) (hci : t + (is.map cost).sum < ci)
    (hint : t + (is.map cost).sum ≤ intMax) :
    instructionsToProbe cost ci t is = is.map fun i => (false, i) := by
  induction is generalizing t with
  | nil => rfl
  | cons i is ih =>
    obtain ⟨hi, his⟩ := List.forall_mem_cons.mp hnn
    have hrest : 0 ≤ (is.map cost).sum := List.sum_nonneg (by simpa using his)
    rw [List.map_cons, List.sum_cons] at hci hint
    have heq : int32 (t + cost i) = t + cost i := int32_eq ⟨by unfold intMin; omega, by omega⟩
    simp only [instructionsToProbe, heq]
    rw [if_neg (by omega), ih (by omega) his (by omega) (by omega), List.map_cons]

theorem Unprobed.noLoop {pr : Probes} (h : Unprobed pr) (e : Block × Block) :
    ¬ pr.HasLoopProbe e := by
  rintro ⟨hinst, -⟩
  rw [h.inst e] at hinst
  cases hinst

/-- Nothing is put into the blocks of a function without probes. -/
theorem blockNow_unprobed {α : Type} (o : Options) (f : Func) {pr : Probes} (h : Unprobed pr)
    (loops : Block × Block → Loop) (b : Block) (own : List α) :
    blockNow o f pr loops b own =
      own.zipIdx.map fun x => .own (decide (b = f.entry ∧ x.2 < f.allocas)) x.1 := by
  have hloops : loopEdges f pr = [] := by
    refine List.filter_eq_nil_iff.mpr fun e _ he => ?_
    exact h.noLoop e (of_decide_eq_true he)
  simp only [blockNow, hloops, h.noBB, List.not_mem_nil, if_false, List.foldl_nil]

theorem map_zipIdx_fst {α β : Type} (g : α → β) (l : List α) :
    l.zipIdx.map (fun x => g x.1) = l.map g := by
  have h := congrArg (List.map g) (List.zipIdx_map_fst 0 l)
  rwa [List.map_map] at h

theorem codeOf_short {α : Type} {o : Options} (f : Func) {pr : Probes} (hpr : Unprobed pr)
    (loops : Block × Block → Loop) {cost : α → Int} (b : Block) {own : List α}
    (hnn : ∀ i ∈ own, 0 ≤ cost i) (hci : (own.map cost).sum < o.commitInterval)
    (hint : (own.map cost).sum ≤ intMax) :
    codeOf o f pr loops cost b own = own.map .inst := by
  have hcosts : (blockNow o f pr loops b own).map (Inst.cost cost) = own.map cost := by
    rw [blockNow_unprobed o f hpr, List.map_map]
    exact map_zipIdx_fst cost own
  have hplain : markedBlock o f pr loops cost b own =
      (blockNow o f pr loops b own).map fun i => (false, i) := by
    unfold markedBlock
    simp only
    split
    · refine instructionsToProbe_short (Int.le_refl 0) (fun i hi => ?_) ?_ ?_
      · have hmem := List.mem_map_of_mem (f := Inst.cost cost) hi
        rw [hcosts] at hmem
        obtain ⟨j, hj, he⟩ := List.mem_map.mp hmem
        exact he ▸ hnn j hj
      · rw [hcosts]
        omega
      · rw [hcosts]
        omega
    · rfl
  have hbb : b ∉ pr.plan.instrumentedBB := by
    rw [hpr.noBB]
    exact List.not_mem_nil
  rw [codeOf, if_neg hbb, hplain, blockNow_unprobed o f hpr, List.flatMap_map, List.flatMap_map]
  simp only [Inst.code, Bool.false_eq_true, if_false]
  rw [← List.map_eq_flatMap]
  exact map_zipIdx_fst Code.inst own

theorem Mute.code_inst {u : Analysed} (h : Mute fl costs u) {b : Block} (hb : b ∈ u.func.blocks) :
    ∀ c ∈ codeAt fl costs u b, ∃ i, c = .inst i ∧ 0 ≤ getInstructionCost fl costs i := by
  intro c hc
  rw [h.code b hb] at hc
  obtain ⟨i, hi, rfl⟩ := List.mem_map.mp hc
  exact ⟨i, rfl, h.nonneg b hb i hi⟩

theorem Mute.noLoop {u : Analysed} (h : Mute fl costs u) (e : Block × Block) :
    ¬ (probesOf u).HasLoopProbe e := by
  rintro ⟨hinst, -⟩
  rw [h.inst e] at hinst
  cases hinst

theorem Mute.hits {u : Analysed} (h : Mute fl costs u) {st : State} (hc : st.clone = false)
    (c : Choice) : hits (probesOf u) u.definition.loops st c = false := by
  simp [LoopSteps.hits, hitsFirst, hc, h.noLoop, h.inst]

theorem Mute.step {u : Analysed} (h : Mute fl costs u) {st st' : State} (hc : st.clone = false)
    {c : Choice}
    (hstep : Instrumented.step fl.options u.func (probesOf u) u.definition.loops st c = some st') :
    st'.clone = false ∧ st'.cur = c.next ∧ c.next ∈ u.func.succs st.cur := by
  obtain ⟨hmem, -, rfl⟩ := step_eq hstep
  refine ⟨?_, rfl, hmem⟩
  have hclone : ∀ s : State, ¬ entersClone (probesOf u) u.definition.loops s c.next := by
    intro s hs
    unfold entersClone at hs
    split at hs
    · exact hs
    · exact h.noLoop _ hs.1.1
  simp [Instrumented.visit, (crossEdge_clone st c).1, hc, hclone]

theorem silent_enter {u : Analysed} (h : Mute fl costs u) (init final : Int) :
    Silent fl costs (enter fl costs u init final) :=
  ⟨h, rfl, u.func.entry_mem, h.code_inst u.func.entry_mem⟩

theorem Silent.rest {u : Analysed} {st : State} {c : Code Inst} {code : List (Code Inst)}
    (h : Silent fl costs ⟨u, st, c :: code⟩) : Silent fl costs ⟨u, st, code⟩ :=
  ⟨h.mute, h.clone, h.cur, fun c' hc' => h.code c' (List.mem_cons_of_mem c hc')⟩

theorem Silent.inst {u : Analysed} {st : State} {i : Inst} {code : List (Code Inst)}
    (h : Silent fl costs ⟨u, st, .inst i :: code⟩) : 0 ≤ getInstructionCost fl costs i := by
  obtain ⟨j, hj, hnn⟩ := h.code _ List.mem_cons_self
  cases hj
  exact hnn

theorem Silent.no_check {fr : Frame} (h : Silent fl costs fr) : .check ∉ fr.code := by
  intro hc
  obtain ⟨i, hi, -⟩ := h.code _ hc
  cases hi

theorem Silent.go {u : Analysed} {st st' : State} {c : Choice} (h : Silent fl costs ⟨u, st, []⟩)
    (hstep : Instrumented.step fl.options u.func (probesOf u) u.definition.loops st c = some st') :
    Silent fl costs ⟨u, st',
      (if LoopSteps.hits (probesOf u) u.definition.loops st c then [.check] else []) ++
        codeAt fl costs u c.next⟩ := by
  obtain ⟨hclone, hcur, hmem⟩ := h.mute.step h.clone hstep
  have hnext : c.next ∈ u.func.blocks := u.func.succs_mem _ h.cur _ hmem
  refine ⟨h.mute, hclone, hcur ▸ hnext, ?_⟩
  rw [h.mute.hits h.clone, if_neg Bool.false_ne_true, List.nil_append]
  exact h.mute.code_inst hnext

theorem cost_gap {m : Meter} (h : m.gap = m.worst) {c : Int} (hc : 0 ≤ c) :
    (m.event (.cost c)).gap = (m.event (.cost c)).worst := by
  simp only [Meter.event]
  omega

/-- No check is ever on the way, so the meter only goes up. -/
structure Unchecked (fl : Flags) (costs : Costs) (s : Config) : Prop where
  stack : ∀ fr ∈ s.stack, Silent fl costs fr
  meter : s.meter.gap = s.meter.worst

theorem unchecked_move (hunits : ∀ u ∈ units, Mute fl costs u) {s t : Config} {a : Action}
    (h : Unchecked fl costs s) (hm : Move fl costs units s a t) : Unchecked fl costs t := by
  obtain ⟨hstack, hmeter⟩ := h
  cases hm with
  | check => exact absurd List.mem_cons_self (List.forall_mem_cons.mp hstack).1.no_check
  | inst _ =>
    obtain ⟨htop, hrest⟩ := List.forall_mem_cons.mp hstack
    exact ⟨List.forall_mem_cons.mpr ⟨htop.rest, hrest⟩, cost_gap hmeter htop.inst⟩
  | call hv =>
    obtain ⟨htop, hrest⟩ := List.forall_mem_cons.mp hstack
    have hmute := hunits _ (callee_mem hv)
    have hframes := List.forall_mem_cons.mpr ⟨htop.rest, hrest⟩
    exact ⟨List.forall_mem_cons.mpr ⟨silent_enter hmute _ _, hframes⟩, cost_gap hmeter htop.inst⟩
  | go hstep =>
    obtain ⟨htop, hrest⟩ := List.forall_mem_cons.mp hstack
    exact ⟨List.forall_mem_cons.mpr ⟨htop.go hstep, hrest⟩, hmeter⟩
  | ret _ => exact ⟨(List.forall_mem_cons.mp hstack).2, hmeter⟩

/-- A short function without loops. -/
structure Loopless (fl : Flags) (costs : Costs) (d : Definition) : Prop where
  loopsSimplified : d.loopsSimplified = true
  backEdges : d.backEdges = []
  short : ∀ info, Short fl.options (d.func fl costs info)

theorem analyze_mute {d : Definition} (hd : Loopless fl costs d) (info : Info) :
    ∃ N u dist, (∀ n, N ≤ n → analyzeAndInstrFunc fl costs n d info = .ok (u, dist)) ∧
      Mute fl costs u ∧ u.definition = d := by
  have hshort := hd.short info
  have hnn : ∀ b ∈ d.blocks, ∀ i ∈ d.insts b, 0 ≤ getInstructionCost fl costs i :=
    fun b hb i hi => hshort.costs b hb _ (List.mem_map_of_mem hi)
  obtain ⟨pr, hpr, hun⟩ := generateInst_short hshort
  refine ⟨1, ⟨d, d.func fl costs info, some pr⟩,
    some (recorded fl.options d (d.func fl costs info) pr), fun n hn => ?_,
    ⟨⟨info, rfl⟩, hun.inst, fun b hb => ?_, hnn⟩, rfl⟩
  · obtain ⟨k, rfl⟩ := Nat.exists_eq_add_of_le' hn
    simp only [analyzeAndInstrFunc, hd.loopsSimplified, if_true, hd.backEdges, hpr k]
  · have hle := hshort.sum_le hb
    exact codeOf_short _ hun _ b (hnn b hb) (hle.trans_lt hshort.interval) (hle.trans hshort.int)

end Runs

/-! ## Recursion -/

def walkSuccs : Block → List Block
  | 0 => [1, 2]
  | 1 => [2]
  | _ => []

theorem walkSuccs_mem : ∀ b ∈ [0, 1, 2], ∀ s ∈ walkSuccs b, s ∈ [0, 1, 2] := by decide

theorem walkEntry_mem : (0 : Block) ∈ [0, 1, 2] := List.mem_cons_self

/-- A function that calls itself on one of two ways to its return. -/
def walk : Definition where
  name := [119]
  blocks := [0, 1, 2]
  entry := 0
  succs := walkSuccs
  isRet b := decide (b = 2)
  insts b := if b = 1 then [.call (.function [119] false), .other] else [.other]
  entry_mem := walkEntry_mem
  succs_mem := walkSuccs_mem
  backEdges := []
  loops _ := ⟨0, [], 0, [], none⟩
  loopsSimplified := true

def walkCosts : Costs := populateLibraryInstructionCosts [walk] fun _ => none

section Walk

variable {fl : Flags} {u : Analysed}

theorem walk_loopless (hci : 4 < fl.options.commitInterval) (he2e : 4 ≤ fl.options.maxE2EUninst) :
    Loopless fl walkCosts walk := by
  have hrank : ∀ b ∈ walk.blocks, ∀ v ∈ walk.succs b, b < v := by decide
  have hone : ∀ b ∈ walk.blocks, ∀ i ∈ walk.insts b,
      i = .other ∨ i = .call (.function [119] false) := by decide
  refine ⟨rfl, rfl, fun info =>
    ⟨acyclic_of_rank id fun b hb v hv => ?_, fun b hb c hc => ?_, he2e, hci, ?_⟩⟩
  · exact hrank b hb v (mem_forward.mp hv).1
  · obtain ⟨i, hi, rfl⟩ := List.mem_map.mp hc
    -- the function itself counts 1, and so does any other instruction of it
    rcases hone b hb i hi with rfl | rfl <;> exact (by decide : (0 : Int) ≤ 1)
  · exact (by decide : (4 : Int) ≤ intMax)

/-- Some run leads from one configuration to the other. -/
def Leads (fl : Flags) (u : Analysed) (s t : Config) : Prop :=
  ∃ as, Machine.run (step fl walkCosts [u]) as s = some t

theorem Leads.trans {s t v : Config} (h₁ : Leads fl u s t) (h₂ : Leads fl u t v) :
    Leads fl u s v := by
  obtain ⟨as, has⟩ := h₁
  obtain ⟨bs, hbs⟩ := h₂
  exact ⟨as ++ bs, Machine.run_join has hbs⟩

theorem leads_other (fl : Flags) (u : Analysed) (st : State) (code : List (Code Inst))
    (rest : List Frame) (m : Meter) :
    Leads fl u ⟨⟨u, st, .inst .other :: code⟩ :: rest, m⟩
      ⟨⟨u, st, code⟩ :: rest, m.event (.cost 1)⟩ :=
  ⟨[.exec none 0 0], rfl⟩

theorem leads_call (fl : Flags) (hdef : u.definition = walk) (st : State)
    (code : List (Code Inst)) (rest : List Frame) (m : Meter) :
    Leads fl u ⟨⟨u, st, .inst (.call (.function [119] false)) :: code⟩ :: rest, m⟩
      ⟨enter fl walkCosts u 0 0 :: ⟨u, st, code⟩ :: rest, m.event (.cost 1)⟩ := by
  have hlookup : lookup [u] [119] = some u := by
    simp [lookup, hdef, walk]
  refine ⟨[.exec none 0 0], Machine.run_one ?_⟩
  simp only [NestedCalls.step, callee, hlookup]
  rfl

theorem leads_go (hu : Mute fl walkCosts u) (hdef : u.definition = walk) (st : State) (next : Block)
    (hc : st.clone = false) (hcur : st.cur ∈ walk.blocks) (hnext : next ∈ walk.succs st.cur)
    (rest : List Frame) (m : Meter) :
    ∃ st', st'.clone = false ∧ st'.cur = next ∧
      Leads fl u ⟨⟨u, st, []⟩ :: rest, m⟩ ⟨⟨u, st', (walk.insts next).map .inst⟩ :: rest, m⟩ := by
  obtain ⟨info, hf⟩ := hu.func
  rw [hdef] at hf
  have hsuccs : u.func.succs = walk.succs := by rw [hf]; rfl
  have hblocks : next ∈ u.func.blocks := by
    rw [hf]
    exact walk.succs_mem _ hcur _ hnext
  have hallows : allows (probesOf u) u.definition.loops st next := by
    rw [hdef]
    trivial
  have hcount : 0 < (u.func.succs st.cur).count next :=
    List.count_pos_iff.mpr (hsuccs ▸ hnext)
  have hstep : ∃ st', Instrumented.step fl.options u.func (probesOf u) u.definition.loops st
      ⟨next, 0, 0, 0⟩ = some st' := ⟨_, if_pos ⟨hcount, hallows⟩⟩
  obtain ⟨st', hstep⟩ := hstep
  obtain ⟨hclone, hcur', -⟩ := hu.step hc hstep
  refine ⟨st', hclone, hcur', [.go ⟨next, 0, 0, 0⟩], Machine.run_one ?_⟩
  simp only [NestedCalls.step, hstep, Option.map_some, hu.hits hc, hu.code next hblocks]
  rw [hdef]
  rfl

theorem leads_ret (hu : Mute fl walkCosts u) (hdef : u.definition = walk) {st : State}
    (hcur : st.cur = 2) (rest : List Frame) (m : Meter) :
    Leads fl u ⟨⟨u, st, []⟩ :: rest, m⟩ ⟨rest, m⟩ := by
  obtain ⟨info, hf⟩ := hu.func
  have hret : u.func.isRet st.cur = true := by
    rw [hf, hdef, hcur]
    rfl
  refine ⟨[.ret], Machine.run_one ?_⟩
  simp only [NestedCalls.step, hret, if_true]

theorem event_event (m : Meter) (a : Int) {b : Int} (hb : 0 ≤ b) :
    (m.event (.cost a)).event (.cost b) = m.event (.cost (a + b)) := by
  simp only [Meter.event, Meter.mk.injEq]
  omega

/-- From a block before the return. -/
theorem leads_out (hu : Mute fl walkCosts u) (hdef : u.definition = walk) (st : State)
    (hc : st.clone = false) (hcur : st.cur ∈ walk.blocks) (hnext : 2 ∈ walk.succs st.cur)
    (rest : List Frame) (m : Meter) :
    Leads fl u ⟨⟨u, st, []⟩ :: rest, m⟩ ⟨rest, m.event (.cost 1)⟩ := by
  obtain ⟨st', -, hcur', hgo⟩ := leads_go hu hdef st 2 hc hcur hnext rest m
  exact (hgo.trans (leads_other fl u st' [] rest m)).trans (leads_ret hu hdef hcur' rest _)

/-- A call comes back from `k` more calls inside without a check. -/
theorem leads_back (hu : Mute fl walkCosts u) (hdef : u.definition = walk) (k : Nat)
    (rest : List Frame) (m : Meter) :
    Leads fl u ⟨enter fl walkCosts u 0 0 :: rest, m⟩ ⟨rest, m.event (.cost (4 * k + 2))⟩ := by
  obtain ⟨info, hf⟩ := hu.func
  have hentry : enter fl walkCosts u 0 0 =
      ⟨u, start fl.options u.func (probesOf u) u.definition.loops 0 0, [.inst .other]⟩ := by
    rw [enter, hu.code _ u.func.entry_mem, hf, hdef]
    rfl
  have hcur : (start fl.options u.func (probesOf u) u.definition.loops 0 0).cur = 0 := by
    rw [hf, hdef]
    rfl
  rw [hentry]
  have hclone : (start fl.options u.func (probesOf u) u.definition.loops 0 0).clone = false := rfl
  generalize start fl.options u.func (probesOf u) u.definition.loops 0 0 =
    st at hentry hcur hclone ⊢
  have hone : (0 : Int) ≤ 1 := by decide
  induction k generalizing rest m with
  | zero =>
    have hout := leads_out hu hdef st hclone (hcur ▸ by decide) (hcur ▸ by decide) rest
      (m.event (.cost 1))
    rw [event_event m 1 hone] at hout
    exact (leads_other fl u st [] rest m).trans hout
  | succ k ih =>
    -- down to the call, through the `k` calls inside it, and out
    obtain ⟨st', hclone', hcur', hgo⟩ := leads_go hu hdef st 1 hclone (hcur ▸ by decide)
      (hcur ▸ by decide) rest (m.event (.cost 1))
    have hcall := leads_call fl hdef st' [.inst .other] rest (m.event (.cost 1))
    rw [hentry, event_event m 1 hone] at hcall
    have hinside := ih (⟨u, st', [.inst .other]⟩ :: rest) (m.event (.cost (1 + 1)))
    rw [event_event m _ (by omega)] at hinside
    have hback := leads_other fl u st' [] rest (m.event (.cost (1 + 1 + (4 * k + 2))))
    rw [event_event m _ hone] at hback
    have hout := leads_out hu hdef st' hclone' (hcur' ▸ by decide) (hcur' ▸ by decide) rest
      (m.event (.cost (1 + 1 + (4 * k + 2) + 1)))
    have htotal : (1 : Int) + 1 + (4 * k + 2) + 1 + 1 = 4 * (k + 1 : Nat) + 2 := by omega
    rw [event_event m _ hone, htotal] at hout
    have hdown := ((leads_other fl u st [] rest m).trans hgo).trans hcall
    exact ((hdown.trans hinside).trans hback).trans hout

end Walk

theorem noCosts_read (n : Nat) (_ : 0 ≤ n) :
    readCost n .notSupplied = some (.returned true fun _ => none) := rfl

/-- For all modules of short functions without loops: the pass succeeds, and no run of the module
comes to a check, whatever the functions call and however deep. -/
theorem short_functions_never_check {fl : Flags} {inCostFile : Input} {m l : List Definition}
    {ok : Bool} {costs : Costs} {N₀ : Nat}
    (hread : ∀ n, N₀ ≤ n → readCost n inCostFile = some (.returned ok costs)) (hp : l.Perm m)
    (hm : ∀ d ∈ m, Loopless fl (populateLibraryInstructionCosts m costs) d) :
    ∃ N r, (∀ n, N ≤ n → runOnModule fl n inCostFile m l = some (.ok r)) ∧
      r.done.map Analysed.definition = l ∧ ∀ u ∈ r.done, ∀ init final as s,
        Machine.run (step fl (populateLibraryInstructionCosts m costs) r.done) as
          (boot fl (populateLibraryInstructionCosts m costs) u init final) = some s →
        (∀ fr ∈ s.stack, .check ∉ fr.code) ∧ s.meter.gap = s.meter.worst := by
  obtain ⟨N, r, hall, hmute, hdefs⟩ := runOnModule_each hread
    fun d hd info => analyze_mute (hm d (hp.mem_iff.mp hd)) info
  refine ⟨N, r, hall, hdefs, fun u hu init final as s hrun => ?_⟩
  have hboot : Unchecked fl (populateLibraryInstructionCosts m costs) (boot fl _ u init final) :=
    ⟨List.forall_mem_singleton.mpr (silent_enter (hmute u hu) init final), rfl⟩
  have hinv := Machine.run_invariant hboot
    (fun s a t hs _ ht => unchecked_move hmute hs (move_of_step ht)) hrun
    (Machine.along_of_mem (fun _ _ _ => trivial) _)
  exact ⟨fun fr hfr => (hinv.stack fr hfr).no_check, hinv.meter⟩

theorem short_functions_never_check_walk :
    ∃ N r, (∀ n, N ≤ n → runOnModule levelDBFlags n .notSupplied [walk] [walk] = some (.ok r)) ∧
      r.done.map Analysed.definition = [walk] ∧ ∀ u ∈ r.done, ∀ init final as s,
        Machine.run (step levelDBFlags walkCosts r.done) as
          (boot levelDBFlags walkCosts u init final) = some s →
        (∀ fr ∈ s.stack, .check ∉ fr.code) ∧ s.meter.gap = s.meter.worst := by
  refine short_functions_never_check noCosts_read (.refl _) fun d hd => ?_
  cases List.mem_singleton.mp hd
  exact walk_loopless (by decide) (by decide)

/-- For all options that leave room for one call of it: a recursive function gets no probe, and for
every `k` there is a run of it, from the call to the return, that costs `4 * k + 2` without a
check. -/
theorem recursion_never_checks (fl : Flags) (hci : 4 < fl.options.commitInterval)
    (he2e : 4 ≤ fl.options.maxE2EUninst) :
    ∃ N r u, (∀ n, N ≤ n → runOnModule fl n .notSupplied [walk] [walk] = some (.ok r)) ∧
      r.done = [u] ∧
      ∀ k : Nat, ∃ as, Machine.run (step fl walkCosts r.done) as (boot fl walkCosts u 0 0) =
        some ⟨[], ⟨4 * k + 2, 4 * k + 2⟩⟩ := by
  obtain ⟨N, r, hall, hmute, hdefs⟩ := runOnModule_each noCosts_read fun d hd info => by
    cases List.mem_singleton.mp hd
    exact analyze_mute (walk_loopless hci he2e) info
  obtain ⟨u, hu, hdef⟩ := List.map_eq_singleton_iff.mp hdefs
  refine ⟨N, r, u, hall, hu, fun k => ?_⟩
  obtain ⟨as, has⟩ := leads_back (hmute u (hu ▸ List.mem_cons_self)) hdef k [] ⟨0, 0⟩
  have hmeter : (⟨0, 0⟩ : Meter).event (.cost (4 * k + 2)) = ⟨4 * k + 2, 4 * k + 2⟩ := by
    simp only [Meter.event, Meter.mk.injEq]
    omega
  rw [hmeter] at has
  rw [hu]
  exact ⟨as, has⟩

theorem recursion_never_checks_levelDB :
    ∃ N r u, (∀ n, N ≤ n → runOnModule levelDBFlags n .notSupplied [walk] [walk] = some (.ok r)) ∧
      r.done = [u] ∧
      ∃ as, Machine.run (step levelDBFlags walkCosts r.done) as
        (boot levelDBFlags walkCosts u 0 0) =
        some ⟨[], ⟨4000002, 4000002⟩⟩ := by
  obtain ⟨N, r, u, hall, hu, hruns⟩ :=
    recursion_never_checks levelDBFlags (by decide) (by decide)
  exact ⟨N, r, u, hall, hu, hruns 1000000⟩

end TinyQuanta.ShortFunctions
