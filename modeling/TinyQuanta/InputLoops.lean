import TinyQuanta.CostFile

/-!
# When the loops over the input files end

A line that does not fit the buffer sets `failbit`, and a failed stream reads
nothing and never comes to the end of the file. So such a line has to be avoided,
unless the loop is left before: at a first line that is not the header, or at a
line that ends the program.
-/
namespace TinyQuanta.InputLoops

open CText CostFile

/-- Behind the header: all lines fit, or one ends the program before any line that does not fit, or
at the first of these. -/
def LinesEnd (lines : List (List UInt8)) : Prop :=
  (∀ line ∈ lines, line.length < bufSize) ∨
    ∃ pre line post, lines = pre ++ line :: post ∧ (∀ l ∈ pre, l.length < bufSize) ∧
      tokens (cString (line.take (bufSize - 1))) = .null

/-- The first line is not the header, or fits like the others. -/
def Ends (header : List UInt8) : List (List UInt8) → Prop
  | [] => True
  | first :: lines =>
    cString (first.take (bufSize - 1)) ≠ header ∨ first.length < bufSize ∧ LinesEnd lines

theorem linesEnd_cons {line : List UInt8} {lines : List (List UInt8)} :
    LinesEnd (line :: lines) ↔ tokens (cString (line.take (bufSize - 1))) = .null ∨
      line.length < bufSize ∧ LinesEnd lines := by
  constructor
  · rintro (hall | ⟨pre, l, post, he, hpre, hnull⟩)
    · exact .inr ⟨hall line (by simp), .inl fun l hl => hall l (by simp [hl])⟩
    · cases pre with
      | nil =>
        cases he
        exact .inl hnull
      | cons x pre =>
        cases he
        exact .inr ⟨hpre line (by simp), .inr ⟨pre, l, post, rfl, fun y hy => hpre y (by simp [hy]),
          hnull⟩⟩
  · rintro (hnull | ⟨hlen, hall | ⟨pre, l, post, rfl, hpre, hnull⟩⟩)
    · exact .inr ⟨[], line, lines, rfl, by simp, hnull⟩
    · refine .inl fun l hl => ?_
      rcases List.mem_cons.mp hl with rfl | hl
      · exact hlen
      · exact hall l hl
    · refine .inr ⟨line :: pre, l, post, rfl, fun y hy => ?_, hnull⟩
      rcases List.mem_cons.mp hy with rfl | hy
      · exact hlen
      · exact hpre y hy

section Loop

variable {σ : Type} {header : List UInt8} {readLine : σ → List UInt8 → Option σ}

/-- The loop comes to an end from here. -/
def Stops (header : List UInt8) (readLine : σ → List UInt8 → Option σ) (first : Bool)
    (fin : IStream)
    (tables : σ) : Prop := ∃ n outcome, readLoop header readLine n first fin tables = some outcome

theorem stops_eof {first : Bool} {fin : IStream} (h : fin.eofbit = true) (tables : σ) :
    Stops header readLine first fin tables := ⟨1, .returned true tables, by simp [readLoop, h]⟩

/-- One round behind the header. -/
theorem stops_line {fin : IStream} (h : fin.eofbit = false) (tables : σ) :
    Stops header readLine false fin tables ↔
      ∀ t, readLine tables (cString (getline bufSize fin).1) = some t →
        Stops header readLine false (getline bufSize fin).2 t := by
  constructor
  · rintro ⟨n, outcome, hn⟩ t ht
    cases n with
    | zero => cases hn
    | succ n => exact ⟨n, outcome, by simpa [readLoop, h, ht] using hn⟩
  · intro hnext
    cases ht : readLine tables (cString (getline bufSize fin).1) with
    | none => exact ⟨1, .nullPointer, by simp [readLoop, h, ht]⟩
    | some t =>
      obtain ⟨n, outcome, hn⟩ := hnext t ht
      exact ⟨n + 1, outcome, by simpa [readLoop, h, ht] using hn⟩

/-- The round that reads the header. -/
theorem stops_header {fin : IStream} (h : fin.eofbit = false) (tables : σ) :
    Stops header readLine true fin tables ↔
      (cString (getline bufSize fin).1 = header →
        Stops header readLine false (getline bufSize fin).2 tables) := by
  constructor
  · rintro ⟨n, outcome, hn⟩ he
    cases n with
    | zero => cases hn
    | succ n => exact ⟨n, outcome, by simpa [readLoop, h, he] using hn⟩
  · intro hnext
    by_cases he : cString (getline bufSize fin).1 = header
    · obtain ⟨n, outcome, hn⟩ := hnext he
      exact ⟨n + 1, outcome, by simpa [readLoop, h, he] using hn⟩
    · exact ⟨1, .returned false tables, by simp [readLoop, h, he]⟩

/-- A failed stream yields empty lines for ever. -/
theorem not_stops_failed (hnull : ∀ t str, readLine t str = none ↔ tokens str = .null)
    {fin : IStream}
    (heof : fin.eofbit = false) (hfail : fin.failbit = true) (tables : σ) :
    ¬ Stops header readLine false fin tables := by
  have hrun : ∀ n tables, readLoop header readLine n false fin tables = none := by
    intro n
    induction n with
    | zero => exact fun _ => rfl
    | succ n ih =>
      intro tables
      obtain ⟨t, ht⟩ : ∃ t, readLine tables [] = some t := by
        refine Option.ne_none_iff_exists'.mp fun h => ?_
        cases tokens_nil.symm.trans ((hnull tables []).mp h)
      have hempty : cString [] = [] := rfl
      simp [readLoop, heof, getline_failed hfail, hempty, ht, ih]
  rintro ⟨n, outcome, hn⟩
  rw [hrun] at hn
  cases hn

/-- The lines behind the header. -/
theorem stops_lines (hnull : ∀ t str, readLine t str = none ↔ tokens str = .null)
    {lines : List (List UInt8)} {content : List UInt8} (hc : content.splitOn newline = lines)
    (tables : σ) :
    Stops header readLine false (.opened content) tables ↔ LinesEnd lines := by
  induction lines generalizing content tables with
  | nil => exact absurd hc (List.splitOn_ne_nil newline content)
  | cons line lines ih =>
    rw [stops_line rfl, linesEnd_cons, ← hnull tables]
    obtain ⟨hnl, hcases⟩ := lines_cons hc
    by_cases hlen : line.length < bufSize
    · have htake : line.take (bufSize - 1) = line := List.take_of_length_le (by omega)
      rw [htake]
      rcases hcases with ⟨rfl, rfl⟩ | ⟨rest, rfl, hrest⟩
      · rw [getline_last hnl hlen]
        exact iff_of_true (fun t _ => stops_eof rfl t) (.inr ⟨hlen, .inl (by simp)⟩)
      · rw [getline_line hnl hlen]
        cases ht : readLine tables (cString line) with
        | none => exact iff_of_true (fun t h => nomatch h) (.inl rfl)
        | some t =>
          constructor
          · intro h
            exact .inr ⟨hlen, (ih hrest t).mp (h t rfl)⟩
          · rintro (h | ⟨-, h⟩) t' ht'
            · cases h
            · cases ht'
              exact (ih hrest t).mpr h
    · -- whatever follows, the stream has failed inside the line
      obtain ⟨rest, rfl⟩ := lines_prefix hc
      rw [getline_long hnl (by decide) (Nat.not_lt.mp hlen)]
      cases ht : readLine tables (cString (line.take (bufSize - 1))) with
      | none => exact iff_of_true (fun t h => nomatch h) (.inl rfl)
      | some t =>
        refine iff_of_false (fun h => not_stops_failed hnull rfl rfl t (h t rfl)) ?_
        rintro (h | ⟨h, -⟩)
        · cases h
        · exact hlen h

/-- The whole file. -/
theorem stops_file (hnull : ∀ t str, readLine t str = none ↔ tokens str = .null)
    (content : List UInt8)
    (tables : σ) :
    Stops header readLine true (.opened content) tables ↔
      Ends header (content.splitOn newline) := by
  rw [stops_header rfl]
  cases hc : content.splitOn newline with
  | nil => exact absurd hc (List.splitOn_ne_nil newline content)
  | cons line lines =>
    obtain ⟨hnl, hcases⟩ := lines_cons hc
    rw [Ends, imp_iff_not_or]
    by_cases hlen : line.length < bufSize
    · have htake : line.take (bufSize - 1) = line := List.take_of_length_le (by omega)
      rw [htake]
      rcases hcases with ⟨rfl, rfl⟩ | ⟨rest, rfl, hrest⟩
      · rw [getline_last hnl hlen]
        exact or_congr_right (iff_of_true (stops_eof rfl tables) ⟨hlen, .inl (by simp)⟩)
      · rw [getline_line hnl hlen, stops_lines hnull hrest]
        exact or_congr_right (by simp [hlen])
    · obtain ⟨rest, rfl⟩ := lines_prefix hc
      rw [getline_long hnl (by decide) (Nat.not_lt.mp hlen)]
      exact or_congr_right (iff_of_false (not_stops_failed hnull rfl rfl tables) fun h => hlen h.1)

end Loop

/-- Both loops end exactly on the files in which no line that is too long is met. -/
theorem input_loops_end_iff (content : List UInt8) :
    ((∃ n outcome, readCost n (.file content) = some outcome) ↔
      Ends costHeader (content.splitOn newline)) ∧
    ((∃ n outcome, readFuncInst n (.file content) = some outcome) ↔
      Ends funcInstHeader (content.splitOn newline)) :=
  ⟨stops_file (fun _ _ => readCostLine_eq_none) content _,
    stops_file (fun _ _ => readFuncInstLine_eq_none) content _⟩

/-- A name that does not fit, behind the header. -/
theorem not_ends_long {header name : List UInt8} (hnl : newline ∉ header)
    (hlen : header.length < bufSize)
    (hstr : cString header = header) (hname : newline ∉ name) (hcolon : colon ∉ name)
    (hlong : bufSize ≤ name.length) :
    ¬ Ends header ((header ++ newline :: name).splitOn newline) := by
  rw [List.splitOn_append_cons_self_of_not_mem hnl, List.splitOn_eq_singleton hname, Ends,
    linesEnd_cons]
  have htake : header.take (bufSize - 1) = header := List.take_of_length_le (by omega)
  have hwhole : colon ∉ cString (name.take (bufSize - 1)) := fun h =>
    hcolon (List.mem_of_mem_take ((List.takeWhile_sublist _).subset h))
  rintro (h | ⟨-, h | ⟨h, -⟩⟩)
  · exact h (by rw [htake, hstr])
  · simp [tokens, hwhole] at h
  · omega

/-- A name of 1024 characters. -/
theorem long_name_never_read :
    (¬ ∃ n outcome, readCost n (.file (costHeader ++ newline :: List.replicate 1024 97)) =
    some outcome) ∧
    ¬ ∃ n outcome,
      readFuncInst n (.file (funcInstHeader ++ newline :: List.replicate 1024 97)) =
        some outcome := by
  have hnl : newline ∉ List.replicate 1024 97 := fun h => by cases List.eq_of_mem_replicate h
  have hcolon : colon ∉ List.replicate 1024 97 := fun h => by cases List.eq_of_mem_replicate h
  have hlong : bufSize ≤ (List.replicate 1024 (97 : UInt8)).length := by
    rw [List.length_replicate]
    exact Nat.le_refl _
  constructor
  · intro h
    exact not_ends_long (by decide) (by decide) (by decide) hnl hcolon hlong
      ((stops_file (fun _ _ => readCostLine_eq_none) _ _).mp h)
  · intro h
    exact not_ends_long (by decide) (by decide) (by decide) hnl hcolon hlong
      ((stops_file (fun _ _ => readFuncInstLine_eq_none) _ _).mp h)

end TinyQuanta.InputLoops
