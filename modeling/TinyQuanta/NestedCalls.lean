import TinyQuanta.CallLevels
import TinyQuanta.ModulePass
import TinyQuanta.ProbeSpacing

/-!
# Functions that call each other

A run of an instrumented module. Each call has a frame with the state of its function and
the code of the current block that is still to run. A call by name of a function with a body
in the module enters it; through a pointer any of them may be entered, or none. Other callees
count with their cost and do not call back.

What a function has spent since its last check is only what the pass saw, where a call is
one instruction. The functions below it on the stack have not checked meanwhile, and those
that it called have come back without a check, possibly.
-/
namespace TinyQuanta.NestedCalls

open Params Planner PlannerSteps InsertProbes LoopCredit LoopForm LoopCosts EmittedCode BlockMeter
  LoopSteps ProbeSpacing CostFile ModulePass CallLevels
open Instrumented hiding Inst

section Model

variable (fl : Flags) (costs : Costs)

/-! ## The stack -/

/-- The plan of a function that is left alone. -/
def untouched : Probes where
  plan := ⟨[], [], fun _ => -1, fun _ => none, [], none, 0, 0⟩
  loopCost _ := 0
  numIters _ := 0

def probesOf (u : Analysed) : Probes := u.probes.getD untouched

/-- Block `b` of the function, as it runs. -/
def codeAt (u : Analysed) (b : Block) : List (Code Inst) :=
  codeOf fl.options u.func (probesOf u) u.definition.loops (getInstructionCost fl costs) b
    (u.definition.insts b)

structure Frame where
  unit : Analysed
  state : State
  code : List (Code Inst)

structure Config where
  stack : List Frame
  meter : Meter

/-- A new frame, with the values of the induction variable if the entry is a preheader. -/
def enter (u : Analysed) (init final : Int) : Frame where
  unit := u
  state := start fl.options u.func (probesOf u) u.definition.loops init final
  code := codeAt fl costs u u.func.entry

/-- The program enters the module. -/
def boot (u : Analysed) (init final : Int) : Config := ⟨[enter fl costs u init final], ⟨0, 0⟩⟩

def lookup (units : List Analysed) (name : Name) : Option Analysed :=
  units.find? fun u => u.definition.name = name

/-- The function of the module that an instruction enters; `target` is where a pointer leads. -/
def callee (units : List Analysed) (target : Option Name) : Inst → Option Analysed
  | .call .indirect => target.bind (lookup units)
  | .call (.function name _) => lookup units name
  | _ => none

inductive Action where
  | exec (target : Option Name) (init final : Int)
  | go (c : Choice)
  | ret

def step (units : List Analysed) (s : Config) : Action → Option Config
  | .exec target init final =>
    match s.stack with
    | ⟨u, st, .check :: code⟩ :: rest => some ⟨⟨u, st, code⟩ :: rest, s.meter.event .check⟩
    | ⟨u, st, .inst i :: code⟩ :: rest =>
      let stack := ⟨u, st, code⟩ :: rest
      let meter := s.meter.event (.cost (getInstructionCost fl costs i))
      match callee units target i with
      | some v => some ⟨enter fl costs v init final :: stack, meter⟩
      | none => some ⟨stack, meter⟩
    | _ => none
  | .go c =>
    match s.stack with
    | ⟨u, st, []⟩ :: rest =>
      let pr := probesOf u
      let check := if hits pr u.definition.loops st c then [.check] else []
      (Instrumented.step fl.options u.func pr u.definition.loops st c).map fun st' =>
        ⟨⟨u, st', check ++ codeAt fl costs u c.next⟩ :: rest, s.meter⟩
    | _ => none
  | .ret =>
    match s.stack with
    | ⟨u, st, []⟩ :: rest => if u.func.isRet st.cur then some ⟨rest, s.meter⟩ else none
    | _ => none

/-- What a step can do. -/
inductive Move (units : List Analysed) : Config → Action → Config → Prop where
  | check {u st code rest m target init final} :
    Move units ⟨⟨u, st, .check :: code⟩ :: rest, m⟩ (.exec target init final)
      ⟨⟨u, st, code⟩ :: rest, m.event .check⟩
  | inst {u st i code rest m target init final} (h : callee units target i = none) :
    Move units ⟨⟨u, st, .inst i :: code⟩ :: rest, m⟩ (.exec target init final)
      ⟨⟨u, st, code⟩ :: rest, m.event (.cost (getInstructionCost fl costs i))⟩
  | call {u st i code rest m target init final v} (h : callee units target i = some v) :
    Move units ⟨⟨u, st, .inst i :: code⟩ :: rest, m⟩ (.exec target init final)
      ⟨enter fl costs v init final :: ⟨u, st, code⟩ :: rest,
        m.event (.cost (getInstructionCost fl costs i))⟩
  | go {u st st' rest m c}
    (h : Instrumented.step fl.options u.func (probesOf u) u.definition.loops st c = some st') :
    Move units ⟨⟨u, st, []⟩ :: rest, m⟩ (.go c)
      ⟨⟨u, st', (if hits (probesOf u) u.definition.loops st c then [.check] else []) ++
        codeAt fl costs u c.next⟩ :: rest, m⟩
  | ret {u st rest m} (h : u.func.isRet st.cur = true) :
    Move units ⟨⟨u, st, []⟩ :: rest, m⟩ .ret ⟨rest, m⟩

end Model

section Steps

variable {fl : Flags} {costs : Costs} {units : List Analysed}

theorem move_of_step {s t : Config} {a : Action} (h : step fl costs units s a = some t) :
    Move fl costs units s a t := by
  obtain ⟨stack, m⟩ := s
  cases a with
  | exec target init final =>
    simp only [step] at h
    split at h
    · cases h
      exact .check
    · split at h
      · rename_i hc
        cases h
        exact .call hc
      · rename_i hc
        cases h
        exact .inst hc
    · cases h
  | go c =>
    simp only [step] at h
    split at h
    · obtain ⟨st', hst, rfl⟩ := Option.map_eq_some_iff.mp h
      exact .go hst
    · cases h
  | ret =>
    simp only [step] at h
    split at h
    · split at h
      · rename_i hr
        cases h
        exact .ret hr
      · cases h
    · cases h

theorem lookup_spec {name : Name} {v : Analysed} (h : lookup units name = some v) :
    v ∈ units ∧ v.definition.name = name := by
  have hname := List.find?_some h
  exact ⟨List.mem_of_find?_eq_some h, of_decide_eq_true hname⟩

theorem callee_mem {target : Option Name} {i : Inst} {v : Analysed}
    (h : callee units target i = some v) : v ∈ units := by
  unfold callee at h
  split at h
  · obtain ⟨name, -, h⟩ := Option.bind_eq_some_iff.mp h
    exact (lookup_spec h).1
  · exact (lookup_spec h).1
  · cases h

end Steps

/-! ## What is on the stack -/

section Depth

variable {fl : Flags} {costs : Costs} {units : List Analysed} {l : List Definition}

def Frame.Own (fr : Frame) : Prop := ∀ i, .inst i ∈ fr.code → ∃ b, i ∈ fr.unit.definition.insts b

/-- The functions on the stack are in call graph order, and run their own instructions. -/
structure Ordered (l : List Definition) (s : Config) : Prop where
  stack : (s.stack.map fun fr => fr.unit.definition).Sublist l
  own : ∀ fr ∈ s.stack, fr.Own

theorem Frame.Own.rest {u : Analysed} {st : State} {c : Code Inst} {code : List (Code Inst)}
    (h : Frame.Own ⟨u, st, c :: code⟩) : Frame.Own ⟨u, st, code⟩ :=
  fun i hi => h i (List.mem_cons_of_mem c hi)

/-- Without recursion and pointers there are never more calls open than there are functions. -/
theorem Ordered.length_le {s : Config} (h : Ordered l s) : s.stack.length ≤ l.length := by
  have hlen := h.stack.length_le
  rwa [List.length_map] at hlen

end Depth

/-! ## What the stack has spent -/

section Meter

variable (m : Meter)

theorem event_worst_le (e : Event) : m.worst ≤ (m.event e).worst := by
  cases e with
  | cost c => exact Int.le_max_left ..
  | check => exact Int.le_refl _

theorem events_worst_le (es : List Event) : m.worst ≤ (m.events es).worst := by
  induction es generalizing m with
  | nil => exact Int.le_refl _
  | cons e es ih => exact Int.le_trans (event_worst_le m e) (ih (m.event e))

end Meter

section Budget

variable {fl : Flags} {costs : Costs} {units : List Analysed} {W : Int} {D : Nat}

/-- An instrumented function with at most `W` between two checks of its own. -/
structure Ready (fl : Flags) (costs : Costs) (W : Int) (u : Analysed) : Prop where
  func : ∃ info, u.func = u.definition.func fl costs info
  setting : ∃ l, Setting fl.options u.func u.definition.backEdges u.definition.loops l (probesOf u)
  bound : (2 * u.definition.backEdges.dedup.length + 3) * fl.options.commitInterval ≤ W

/-- A state that the function gets to by itself. -/
def Kept (fl : Flags) (u : Analysed) (st : State) : Prop :=
  ∃ l, Setting fl.options u.func u.definition.backEdges u.definition.loops l (probesOf u) ∧
    Spaced fl.options u.func u.definition.backEdges u.definition.loops l (probesOf u) st

/-- The function has spent `own` since its own last check. -/
structure Spends (fl : Flags) (costs : Costs) (W : Int) (fr : Frame) (own : Int) : Prop where
  ready : Ready fl costs W fr.unit
  kept : Kept fl fr.unit fr.state
  meter : ∃ m : Meter,
    m.events (fr.code.map (Code.event (getInstructionCost fl costs))) = fr.state.meter ∧
    m.gap = own ∧ 0 ≤ own ∧ own ≤ m.worst

theorem Ready.code (u : Analysed) (h : Ready fl costs W u) (b : Block) :
    (codeAt fl costs u b).map (Code.event (getInstructionCost fl costs)) =
      blockCode fl.options u.func (probesOf u) u.definition.loops b := by
  obtain ⟨info, hf⟩ := h.func
  rw [codeAt, codeOf_event, blockCode]
  rw [hf]
  rfl

theorem Spends.le {fr : Frame} {own : Int} (h : Spends fl costs W fr own) : own ≤ W := by
  obtain ⟨m, hm, -, -, hworst⟩ := h.meter
  obtain ⟨l, -, hspaced⟩ := h.kept
  have hle := events_worst_le m (fr.code.map (Code.event (getInstructionCost fl costs)))
  rw [hm] at hle
  exact Int.le_trans hworst (Int.le_trans hle (Int.le_trans hspaced.1 h.ready.bound))

theorem Spends.inst {u : Analysed} {st : State} {i : Inst} {code : List (Code Inst)} {own : Int}
    (h : Spends fl costs W ⟨u, st, .inst i :: code⟩ own) (hi : 0 ≤ getInstructionCost fl costs i) :
    Spends fl costs W ⟨u, st, code⟩ (own + getInstructionCost fl costs i) := by
  obtain ⟨m, hm, hgap, hnn, -⟩ := h.meter
  refine ⟨h.ready, h.kept, m.event (.cost (getInstructionCost fl costs i)), hm, ?_, by omega, ?_⟩
  · simp only [Meter.event, hgap]
  · simp only [Meter.event, hgap]
    exact Int.le_max_right ..

theorem Spends.check {u : Analysed} {st : State} {code : List (Code Inst)} {own : Int}
    (h : Spends fl costs W ⟨u, st, .check :: code⟩ own) : Spends fl costs W ⟨u, st, code⟩ 0 := by
  obtain ⟨m, hm, -, hnn, hworst⟩ := h.meter
  exact ⟨h.ready, h.kept, m.event .check, hm, rfl, Int.le_refl 0, Int.le_trans hnn hworst⟩

theorem Spends.go {u : Analysed} {st st' : State} {c : Choice} {own : Int}
    (h : Spends fl costs W ⟨u, st, []⟩ own)
    (hreg : Regular u.definition.backEdges u.definition.loops c.next c.init c.final)
    (hstep : Instrumented.step fl.options u.func (probesOf u) u.definition.loops st c = some st') :
    Spends fl costs W ⟨u, st',
      (if hits (probesOf u) u.definition.loops st c then [.check] else []) ++
        codeAt fl costs u c.next⟩ own := by
  obtain ⟨l, hS, hspaced⟩ := h.kept
  obtain ⟨m, hm, hgap, hnn, hworst⟩ := h.meter
  refine ⟨h.ready, ⟨l, hS, spaced_step hS hspaced hreg hstep⟩, m, ?_, hgap, hnn, hworst⟩
  obtain ⟨hcur, hmeter⟩ := step_meter hstep
  have hm : m = st.meter := hm
  rw [hmeter, hcur, hm, List.map_append, events_append, h.ready.code]
  split <;> rfl

/-- The invariant of a run. -/
def Within (fl : Flags) (costs : Costs) (W : Int) (D : Nat) (s : Config) : Prop :=
  s.meter.worst ≤ reach W D ∧ (s.stack = [] ∨ ∃ x xs,
    s.stack.Forall₂ (fun fr (y : Level) => Spends fl costs W fr y.own) (x :: xs) ∧
      x.Running W ∧ (∀ y ∈ xs, y.Waiting W) ∧ s.meter.gap ≤ used W D (x :: xs))

end Budget

/-! ## The module -/

/-- The same of a table. -/
def InRange (fl : Flags) (costs : Costs) : Prop :=
  ∀ name c, costs name = some c → 0 ≤ c ∧ c ≤ fl.options.commitInterval

section Module

variable {fl : Flags} {costs : Costs} {units : List Analysed} {W : Int} {m l : List Definition}

theorem analyzeAll_each {P : Analysed → Prop}
    (hl : ∀ d ∈ l, ∀ info, ∃ N u dist,
      (∀ n, N ≤ n → analyzeAndInstrFunc fl costs n d info = .ok (u, dist)) ∧ P u ∧ u.definition = d)
    (r : Progress) (hr : ∀ u ∈ r.done, P u) :
    ∃ N r', (∀ n, N ≤ n → analyzeAll fl costs n l r = .ok r') ∧ (∀ u ∈ r'.done, P u) ∧
      r'.done.map Analysed.definition = r.done.map Analysed.definition ++ l := by
  induction l generalizing r with
  | nil => exact ⟨0, r, fun _ _ => rfl, hr, (List.append_nil _).symm⟩
  | cons d l ih =>
    obtain ⟨hd, hrest⟩ := List.forall_mem_cons.mp hl
    obtain ⟨N₁, u, dist, hok, hu, hdef⟩ := hd r.info
    have hdone : ∀ v ∈ r.done ++ [u], P v := by
      intro v hv
      rcases List.mem_append.mp hv with hv | hv
      · exact hr v hv
      · cases List.mem_singleton.mp hv
        exact hu
    obtain ⟨N₂, r', hall, hP, hdefs⟩ := ih hrest ⟨r.info.record d.name dist, r.done ++ [u]⟩ hdone
    refine ⟨max N₁ N₂, r', fun n hn => ?_, hP, ?_⟩
    · rw [analyzeAll, hok n (Nat.le_trans (Nat.le_max_left ..) hn)]
      exact hall n (Nat.le_trans (Nat.le_max_right ..) hn)
    · rw [hdefs, List.map_append, List.map_singleton, hdef, List.append_assoc]
      rfl

/-- What the analysis of every function ends with, the pass ends with. -/
theorem runOnModule_each {inCostFile : Input} {ok : Bool} {N₀ : Nat}
    (hread : ∀ n, N₀ ≤ n → readCost n inCostFile = some (.returned ok costs)) {P : Analysed → Prop}
    (hl : ∀ d ∈ l, ∀ info, ∃ N u dist,
      (∀ n, N ≤ n → analyzeAndInstrFunc fl (populateLibraryInstructionCosts m costs) n d info =
        .ok (u, dist)) ∧ P u ∧ u.definition = d) :
    ∃ N r, (∀ n, N ≤ n → runOnModule fl n inCostFile m l = some (.ok r)) ∧ (∀ u ∈ r.done, P u) ∧
      r.done.map Analysed.definition = l := by
  obtain ⟨N, r, hall, hP, hdefs⟩ := analyzeAll_each hl .start fun u hu => (List.not_mem_nil hu).elim
  refine ⟨max N₀ N, r, fun n hn => ?_, hP, hdefs⟩
  rw [runOnModule, initializeModule, hread n (Nat.le_trans (Nat.le_max_left ..) hn),
    Option.map_some, hall n (Nat.le_trans (Nat.le_max_right ..) hn)]

end Module

end TinyQuanta.NestedCalls
