import Mathlib.Logic.Function.Basic
import TinyQuanta.CText

/-!
# The files the pass reads and writes

`readCost` and `readFuncInst` have one loop: read a line into a buffer of 1024
characters until `eofbit` is set, compare the first line with a header and split
each other one at its colons. Only `eofbit` ends the loop, so it runs on fuel; no
result means that it is still running. `atoi` and `std::string` do not survive a
null pointer, which ends the program. `writeCost` makes one such file for every
compiled module, and the Makefile of the library joins them.
-/
namespace TinyQuanta.CostFile

open CText

abbrev Name := List UInt8

def bufSize : Nat := 1024

inductive Outcome (σ : Type) where
  | returned (ok : Bool) (tables : σ)
  | nullPointer

/-- No path on the command line, a file that cannot be opened, or the contents of one. -/
inductive Input where
  | notSupplied
  | unreadable
  | file (content : List UInt8)

/-- What the two calls of `strtok` make of a line: without a colon it is not split, and the second
token may be missing. -/
inductive Tokens where
  | whole
  | empty
  | null
  | pair (token1 token2 : Name)
  deriving DecidableEq, Repr

def tokens (str : List UInt8) : Tokens :=
  if colon ∈ str then
    match strtok colon str with
    | (none, _) => .empty
    | (some token1, rest) =>
      match (strtok colon rest).1 with
      | none => .null
      | some token2 => .pair token1 token2
  else .whole

/-- The loop; `readLine` has no result for a line that ends the program. -/
def readLoop {σ : Type} (header : List UInt8) (readLine : σ → List UInt8 → Option σ) :
    Nat → Bool → IStream → σ → Option (Outcome σ)
  | 0, _, _, _ => none
  | n + 1, first, fin, tables =>
    if fin.eofbit then some (.returned true tables)
    else
      let line := getline bufSize fin
      let str := cString line.1
      if first then
        if str ≠ header then some (.returned false tables)
        else readLoop header readLine n false line.2 tables
      else
        match readLine tables str with
        | none => some .nullPointer
        | some tables => readLoop header readLine n false line.2 tables

def readFile {σ : Type} (header : List UInt8) (readLine : σ → List UInt8 → Option σ) (tables : σ)
    (n : Nat) : Input → Option (Outcome σ)
  | .notSupplied => some (.returned true tables)
  | .unreadable => some (.returned false tables)
  | .file content => readLoop header readLine n true (.opened content) tables

/-! ## Costs -/

/-- `LibraryInstructionCosts`. -/
abbrev Costs := Name → Option Int

def readCostLine (costs : Costs) (str : List UInt8) : Option Costs :=
  match tokens str with
  | .whole => some costs
  | .empty => some costs
  | .null => none
  | .pair token1 token2 => some (Function.update costs token1 (some (atoi token2)))

def costHeader : List UInt8 := ascii "Cost File"

def readCost (n : Nat) (input : Input) : Option (Outcome Costs) :=
  readFile costHeader readCostLine (fun _ => none) n input

/-- A function of the module that is compiled; `maxUnistDist` is missing if `computedFuncInfo` has
no entry for it. -/
structure Fn where
  name : Name
  isDeclaration : Bool
  maxUnistDist : Option Int

/-- A line of the cost file. -/
def costLine (name : Name) (cost : Int) : List UInt8 := name ++ colon :: decimal cost ++ [newline]

/-- The functions that are written, with their costs. -/
def written (m : List Fn) : List (Name × Int) :=
  m.filterMap fun f => if f.isDeclaration then none else f.maxUnistDist.map fun d => (f.name, d)

def writeCost (m : List Fn) : List UInt8 :=
  costHeader ++ newline :: (written m).flatMap fun e => costLine e.1 e.2

/-! ## The joined file -/

/-- `awk 'NR!=1'`. -/
def skipFirstLine (text : List UInt8) : List UInt8 := (text.dropWhile (· ≠ newline)).drop 1

/-- `sed '1s/^/Cost File\n/'`, which has no first line to change in an empty file. -/
def insertHeader (text : List UInt8) : List UInt8 :=
  if text = [] then [] else costHeader ++ newline :: text

/-- The recipe of `ALL_COST_FILE`. -/
def allCostFile (texts : List (List UInt8)) : List UInt8 :=
  insertHeader (texts.map skipFirstLine).flatten

/-! ## Calls and functions to instrument -/

/-- `CallsToInstrument` and `FuncsToInstrument`. -/
structure FuncInst where
  callsToInstrument : Name → Option (List Name)
  funcsToInstrument : Name → Bool

def readFuncInstLine (t : FuncInst) (str : List UInt8) : Option FuncInst :=
  match tokens str with
  | .whole => some { t with funcsToInstrument := Function.update t.funcsToInstrument str true }
  | .empty => some t
  | .null => none
  | .pair caller callee =>
    let callees := (t.callsToInstrument caller).getD []
    some { t with
      callsToInstrument := Function.update t.callsToInstrument caller (some (callees ++ [callee])) }

def funcInstHeader : List UInt8 := ascii "Function Instrumentation File"

def readFuncInst (n : Nat) (input : Input) : Option (Outcome FuncInst) :=
  readFile funcInstHeader readFuncInstLine ⟨fun _ => none, fun _ => false⟩ n input

/-! ## What a line does -/

/-- The two readers stop at the same lines. -/
theorem readCostLine_eq_none {costs : Costs} {str : List UInt8} :
    readCostLine costs str = none ↔ tokens str = .null := by
  unfold readCostLine
  cases tokens str <;> simp

theorem readFuncInstLine_eq_none {t : FuncInst} {str : List UInt8} :
    readFuncInstLine t str = none ↔ tokens str = .null := by
  unfold readFuncInstLine
  cases tokens str <;> simp

/-- A line with one colon between two texts. -/
theorem tokens_pair {token1 token2 : Name} (h₁ : token1 ≠ []) (h₂ : token2 ≠ [])
    (hc₁ : colon ∉ token1)
    (hc₂ : colon ∉ token2) : tokens (token1 ++ colon :: token2) = .pair token1 token2 := by
  simp [tokens, strtok_token h₁ hc₁, strtok_last h₂ hc₂]

theorem tokens_nil : tokens [] = .whole := rfl

end TinyQuanta.CostFile
