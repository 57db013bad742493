import Mathlib.Data.List.Induction
import TinyQuanta.CostFile

/-!
# Costs that are written are read back

The lines of `writeCost` fit the buffer of `readCost`, each of them is split into
its name and its number again, and behind the last newline one more round finds
nothing but the end of the file. Reading a file that was joined from several ones
leaves the last entry of every name.
-/
namespace TinyQuanta.CostRoundTrip

open CText CostFile

/-- A function and its cost, such that `readCost` can tell them apart in a line that fits. -/
structure Entry where
  name : Name
  cost : Int
  name_ne : name ≠ []
  no_colon : colon ∉ name
  no_newline : newline ∉ name
  no_null : 0 ∉ name
  cost_nonneg : 0 ≤ cost
  cost_le : cost ≤ 2147483647
  fits : (name ++ colon :: decimal cost).length ≤ 1023

def Entry.pair (e : Entry) : Name × Int := (e.name, e.cost)

/-- The text of some entries. -/
def entryLines (es : List Entry) : List UInt8 := es.flatMap fun e => costLine e.name e.cost

/-- What reading an entry does. -/
def record (costs : Costs) (e : Entry) : Costs := Function.update costs e.name (some e.cost)

/-- The last entry for the name has this cost. -/
def LastEntry (es : List Entry) (name : Name) (cost : Int) : Prop :=
  ∃ pre e post, es = pre ++ e :: post ∧ e.name = name ∧ e.cost = cost ∧ ∀ x ∈ post, x.name ≠ name

/-! ## One line -/

section Line

variable (e : Entry)

/-- A byte that is no digit and not in the name is in the line only as its colon. -/
theorem Entry.notMem_line {b : UInt8} (hname : b ∉ e.name) (hcolon : b ≠ colon)
    (hdigit : isDigit b = false) : b ∉ e.name ++ colon :: decimal e.cost := by
  simp only [List.mem_append, List.mem_cons, not_or]
  refine ⟨hname, hcolon, fun hb => ?_⟩
  rw [decimal_isDigit e.cost_nonneg b hb] at hdigit
  cases hdigit

theorem Entry.readCostLine_line (costs : Costs) :
    readCostLine costs (e.name ++ colon :: decimal e.cost) = some (record costs e) := by
  have hcolon : colon ∉ decimal e.cost := fun h => by
    cases (decimal_isDigit e.cost_nonneg colon h)
  unfold readCostLine
  rw [tokens_pair e.name_ne (decimal_ne_nil e.cost_nonneg) e.no_colon hcolon]
  simp only [atoi_decimal e.cost_nonneg e.cost_le, record]

/-- The round of the loop that reads it. -/
theorem Entry.readLoop_line (n : Nat) (rest : List UInt8) (costs : Costs) :
    readLoop costHeader readCostLine (n + 1) false (.opened (costLine e.name e.cost ++ rest))
      costs =
      readLoop costHeader readCostLine n false (.opened rest) (record costs e) := by
  have hline : costLine e.name e.cost ++ rest = (e.name ++ colon :: decimal e.cost) ++ newline ::
      rest := by
    simp [costLine]
  have hfits : (e.name ++ colon :: decimal e.cost).length < bufSize := Nat.lt_succ_of_le e.fits
  have hget : getline bufSize (.opened ((e.name ++ colon :: decimal e.cost) ++ newline :: rest)) =
      (e.name ++ colon :: decimal e.cost, .opened rest) :=
    getline_line (e.notMem_line e.no_newline (by decide) (by decide)) hfits
  have hstr := cString_of_notMem (e.notMem_line e.no_null (by decide) (by decide))
  rw [hline, readLoop]
  simp only [IStream.opened_eofbit, hget, hstr, e.readCostLine_line, Bool.false_eq_true, if_false]

end Line

/-! ## The whole file -/

/-- The entries one after the other, and the round that finds the end. -/
theorem read_entries (es : List Entry) (costs : Costs) {n : Nat} (hn : es.length + 2 ≤ n) :
    readLoop costHeader readCostLine n false (.opened (entryLines es)) costs =
      some (.returned true (es.foldl record costs)) := by
  induction es generalizing costs n with
  | nil =>
    obtain ⟨n, rfl⟩ := Nat.exists_eq_add_of_le' hn
    rfl
  | cons e es ih =>
    obtain ⟨n, rfl⟩ := Nat.exists_eq_add_of_le' (Nat.le_trans (Nat.le_add_left 1 _) hn)
    have hn' : es.length + 2 ≤ n := by
      rw [List.length_cons] at hn
      omega
    have hlines : entryLines (e :: es) = costLine e.name e.cost ++ entryLines es :=
      List.flatMap_cons
    rw [hlines, e.readLoop_line, ih (record costs e) hn', List.foldl_cons]

theorem read_costText (es : List Entry) {n : Nat} (hn : es.length + 3 ≤ n) :
    readCost n (.file (costHeader ++ newline :: entryLines es)) =
      some (.returned true (es.foldl record fun _ => none)) := by
  obtain ⟨n, rfl⟩ := Nat.exists_eq_add_of_le' (Nat.le_trans (Nat.le_add_left 1 _) hn)
  have hget : getline bufSize (.opened (costHeader ++ newline :: entryLines es)) =
      (costHeader, .opened (entryLines es)) := getline_line (by decide) (by decide)
  have hstr : cString costHeader = costHeader := by decide
  have hrest := read_entries es (fun _ => none) (show es.length + 2 ≤ n by omega)
  simp only [readCost, readFile, readLoop, IStream.opened_eofbit, hget, hstr, ne_eq,
    not_true_eq_false, Bool.false_eq_true, if_false, if_true]
  exact hrest

theorem lastEntry_snoc {es : List Entry} {e : Entry} {name : Name} {cost : Int} :
    LastEntry (es ++ [e]) name cost ↔
      e.name = name ∧ e.cost = cost ∨ e.name ≠ name ∧ LastEntry es name cost := by
  constructor
  · rintro ⟨pre, x, post, heq, hx, hc, hpost⟩
    rcases List.eq_nil_or_concat post with rfl | ⟨post, y, rfl⟩
    · cases (List.append_inj' heq rfl).2
      exact .inl ⟨hx, hc⟩
    · rw [List.concat_eq_append, ← List.cons_append, ← List.append_assoc] at heq
      obtain ⟨rfl, he⟩ := List.append_inj' heq rfl
      cases he
      exact .inr ⟨hpost e (by simp), pre, x, post, rfl, hx, hc, fun z hz => hpost z (by simp [hz])⟩
  · rintro (⟨hn, hc⟩ | ⟨hn, pre, x, post, rfl, hx, hc, hpost⟩)
    · exact ⟨es, e, [], rfl, hn, hc, by simp⟩
    · refine ⟨pre, x, post ++ [e], by simp, hx, hc, fun y hy => ?_⟩
      rcases List.mem_append.mp hy with hy | hy
      · exact hpost y hy
      · exact List.mem_singleton.mp hy ▸ hn

/-- What is left of a name is its last entry. -/
theorem foldl_record_iff (es : List Entry) (name : Name) (cost : Int) :
    es.foldl record (fun _ => none) name = some cost ↔ LastEntry es name cost := by
  induction es using List.reverseRecOn with
  | nil => simp [LastEntry]
  | append_singleton es e ih =>
    rw [List.foldl_append, List.foldl_cons, List.foldl_nil, record, lastEntry_snoc]
    by_cases he : name = e.name
    · subst he
      simp
    · rw [Function.update_of_ne he, ih]
      simp [Ne.symm he]

/-- Where names are distinct every entry is the last one of its name. -/
theorem lastEntry_iff_mem {es : List Entry} (hd : (es.map Entry.name).Nodup) (name : Name)
    (cost : Int) :
    LastEntry es name cost ↔ ∃ e ∈ es, e.name = name ∧ e.cost = cost := by
  constructor
  · rintro ⟨pre, e, post, rfl, hn, hc, -⟩
    exact ⟨e, by simp, hn, hc⟩
  · rintro ⟨e, he, rfl, rfl⟩
    obtain ⟨pre, post, rfl⟩ := List.append_of_mem he
    refine ⟨pre, e, post, rfl, rfl, rfl, fun x hx hname => ?_⟩
    rw [List.map_append, List.map_cons, List.nodup_append] at hd
    exact (List.nodup_cons.mp hd.2.1).1 (hname ▸ List.mem_map_of_mem hx)

/-! ## What is written -/

theorem writeCost_eq {m : List Fn} {es : List Entry} (h : written m = es.map Entry.pair) :
    writeCost m = costHeader ++ newline :: entryLines es := by
  rw [writeCost, h, List.flatMap_map]
  rfl

/-- The joined file is the entries of all parts under one header, unless there are none. -/
theorem allCostFile_eq {ms : List (List Fn)} {tables : List (List Entry)}
    (h : ms.map written = tables.map (List.map Entry.pair)) (hne : tables.flatten ≠ []) :
    allCostFile (ms.map writeCost) = costHeader ++ newline :: entryLines tables.flatten := by
  have hskip : ∀ es, skipFirstLine (costHeader ++ newline :: entryLines es) = entryLines es := by
    intro es
    have hdrop : (costHeader ++ newline :: entryLines es).dropWhile (· ≠ newline) =
        newline :: entryLines es := by
      rw [List.dropWhile_append_of_pos (ne_of_notMem (show newline ∉ costHeader by decide))]
      simp
    simp only [skipFirstLine, hdrop, List.drop_one, List.tail_cons]
  have hparts : ((ms.map writeCost).map skipFirstLine).flatten = entryLines tables.flatten := by
    clear hne
    induction ms generalizing tables with
    | nil =>
      rw [List.map_nil, eq_comm, List.map_eq_nil_iff] at h
      subst h
      rfl
    | cons m ms ih =>
      obtain ⟨es, tables, rfl⟩ : ∃ es rest, tables = es :: rest := by
        cases tables with
        | nil => simp at h
        | cons es rest => exact ⟨es, rest, rfl⟩
      simp only [List.map_cons, List.cons.injEq] at h
      have hflat : entryLines (es :: tables).flatten =
          entryLines es ++ entryLines tables.flatten := by
        simp [entryLines]
      rw [List.map_cons, List.map_cons, List.flatten_cons, ih h.2, writeCost_eq h.1, hskip, hflat]
  have hnonempty : entryLines tables.flatten ≠ [] := by
    obtain ⟨e, es, he⟩ := List.exists_cons_of_ne_nil hne
    simp [he, entryLines, costLine]
  rw [allCostFile, hparts, insertHeader, if_neg hnonempty]

/-- For tables whose names are distinct: `readCost` reads each of them back from what `writeCost`
makes of it, and from their lines under one header it reads their union, in which the last entry
for a name wins. That is the file which the build joins from the parts, if it has any lines. -/
theorem cost_file_round_trip (tables : List (List Entry))
    (hd : ∀ table ∈ tables, (table.map Entry.name).Nodup) :
    (∀ table ∈ tables, ∀ m, written m = table.map Entry.pair →
      ∃ N costs, (∀ n, N ≤ n → readCost n (.file (writeCost m)) = some (.returned true costs)) ∧
        ∀ name cost, costs name = some cost ↔ ∃ e ∈ table, e.name = name ∧ e.cost = cost) ∧
    (∃ N costs, (∀ n, N ≤ n → readCost n
    (.file (costHeader ++ newline :: entryLines tables.flatten)) =
        some (.returned true costs)) ∧
      ∀ name cost, costs name = some cost ↔ LastEntry tables.flatten name cost) ∧
    ∀ ms : List (List Fn), ms.map written = tables.map (List.map Entry.pair) → tables.flatten ≠ [] →
      allCostFile (ms.map writeCost) = costHeader ++ newline :: entryLines tables.flatten := by
  refine ⟨fun table ht m hm => ?_, ?_, fun ms h hne => allCostFile_eq h hne⟩
  · refine ⟨table.length + 3, table.foldl record fun _ => none, fun n hn => ?_, fun name cost => ?_⟩
    · rw [writeCost_eq hm]
      exact read_costText table hn
    · rw [foldl_record_iff, lastEntry_iff_mem (hd table ht)]
  · exact ⟨tables.flatten.length + 3, tables.flatten.foldl record fun _ => none,
      fun n hn => read_costText _ hn, foldl_record_iff _⟩

/-- A function with a short name. -/
def entry (name : Name) (cost : Nat) (hn : name ≠ [] ∧ colon ∉ name ∧ newline ∉ name ∧ 0 ∉ name)
    (hc : cost ≤ 2147483647) (hf : (name ++ colon :: decimal cost).length ≤ 1023) : Entry :=
  ⟨name, cost, hn.1, hn.2.1, hn.2.2.1, hn.2.2.2, Int.natCast_nonneg cost, by omega, hf⟩

/-- Two files of the build, which both have the function `f`. -/
def parts : List (List Fn) :=
  [[⟨ascii "f", false, some 3⟩, ⟨ascii "puts", true, none⟩, ⟨ascii "g", false, some 0⟩],
    [⟨ascii "f", false, some 12⟩]]

def partTables : List (List Entry) :=
  [[entry (ascii "f") 3 (by decide) (by decide) (by decide),
      entry (ascii "g") 0 (by decide) (by decide) (by decide)],
    [entry (ascii "f") 12 (by decide) (by decide) (by decide)]]

theorem cost_file_round_trip_parts :
    ∃ N costs, (∀ n, N ≤ n → readCost n (.file (allCostFile (parts.map writeCost))) =
        some (.returned true costs)) ∧
      costs (ascii "f") = some 12 ∧ costs (ascii "g") = some 0 := by
  have hd : ∀ table ∈ partTables, (table.map Entry.name).Nodup := by decide
  obtain ⟨-, ⟨N, costs, hread, hcosts⟩, hjoin⟩ := cost_file_round_trip partTables hd
  refine ⟨N, costs, ?_, (hcosts _ _).mpr ?_, (hcosts _ _).mpr ?_⟩
  · rw [hjoin parts (by decide) (by simp [partTables])]
    exact hread
  · exact ⟨partTables.flatten.take 2, entry (ascii "f") 12 (by decide) (by decide) (by decide), [],
      rfl, rfl, rfl, by simp⟩
  · refine ⟨partTables.flatten.take 1, entry (ascii "g") 0 (by decide) (by decide) (by decide),
      [entry (ascii "f") 12 (by decide) (by decide) (by decide)], rfl, rfl, rfl, fun x hx => ?_⟩
    rw [List.mem_singleton.mp hx]
    decide

end TinyQuanta.CostRoundTrip
