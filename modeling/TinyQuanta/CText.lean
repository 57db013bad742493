import Mathlib.Data.List.Basic
import Mathlib.Data.Int.Init
import Mathlib.Data.List.TakeWhile

/-!
# Reading text in C and C++

`std::istream::getline` on a stream of bytes, the string functions `strtok` and
`atoi`, and decimal output. A buffer is the list of the characters stored in it,
without the null character that ends it; the string it holds stops at the first
null character among them. Input errors other than the end of the file are left
out, so a stream is bad only through `eofbit` and `failbit`.
-/
namespace TinyQuanta.CText

/-- The bytes of an ASCII text. -/
def ascii (s : String) : List UInt8 := s.toList.map fun c => c.toNat.toUInt8

def newline : UInt8 := 10
def colon : UInt8 := 58

/-! ## Streams -/

structure IStream where
  rest : List UInt8
  eofbit : Bool
  failbit : Bool
  deriving DecidableEq, Repr

/-- A file that has just been opened. -/
def IStream.opened (content : List UInt8) : IStream := ⟨content, false, false⟩

@[simp] theorem IStream.opened_eofbit (content : List UInt8) :
    (opened content).eofbit = false := rfl

def IStream.good (s : IStream) : Bool := !s.eofbit && !s.failbit

/-- Store characters up to the end of the line, at most `n - 1`. The end of the file counts before
the end of the line, and both before a full buffer, which is a failure. -/
def getline (n : Nat) (s : IStream) : List UInt8 × IStream :=
  if s.good then
    let stored := (s.rest.takeWhile (· ≠ newline)).take (n - 1)
    match s.rest.drop stored.length with
    | [] => (stored, ⟨[], true, stored.isEmpty⟩)
    | c :: rest =>
      if c = newline then (stored, ⟨rest, false, false⟩) else (stored, ⟨c :: rest, false, true⟩)
  else ([], { s with failbit := true })

theorem ne_of_notMem {b : UInt8} {s : List UInt8} (h : b ∉ s) : ∀ c ∈ s, decide (c ≠ b) = true := by
  intro c hc
  rw [decide_eq_true_iff]
  rintro rfl
  exact h hc

section Getline

variable {n : Nat} {line rest : List UInt8}

theorem takeWhile_line (h : newline ∉ line) (tail : List UInt8) :
    (line ++ tail).takeWhile (· ≠ newline) = line ++ tail.takeWhile (· ≠ newline) :=
  List.takeWhile_append_of_pos (ne_of_notMem h)

/-- A line that fits. -/
theorem getline_line (h : newline ∉ line) (hlen : line.length < n) :
    getline n (.opened (line ++ newline :: rest)) = (line, .opened rest) := by
  have hstored : ((line ++ newline :: rest).takeWhile (· ≠ newline)).take (n - 1) = line := by
    rw [takeWhile_line h]
    simpa using List.take_of_length_le (show line.length ≤ n - 1 by omega)
  have hrest : (line ++ newline :: rest).drop line.length = newline :: rest := List.drop_left
  simp only [getline, IStream.opened, IStream.good, Bool.not_false, Bool.and_self, if_true, hstored,
    hrest]

/-- The last line, which no newline ends. -/
theorem getline_last (h : newline ∉ line) (hlen : line.length < n) :
    getline n (.opened line) = (line, ⟨[], true, line.isEmpty⟩) := by
  have hstored : (line.takeWhile (· ≠ newline)).take (n - 1) = line := by
    have htake := takeWhile_line h []
    simp only [List.append_nil, List.takeWhile_nil] at htake
    rw [htake]
    exact List.take_of_length_le (by omega)
  have hrest : line.drop line.length = [] := List.drop_length
  simp only [getline, IStream.opened, IStream.good, Bool.not_false, Bool.and_self, if_true, hstored,
    hrest]

/-- A line that does not fit leaves the stream failed inside it. -/
theorem getline_long (h : newline ∉ line) (hpos : 0 < n) (hlen : n ≤ line.length) :
    getline n (.opened (line ++ rest)) =
      (line.take (n - 1), ⟨line.drop (n - 1) ++ rest, false, true⟩) := by
  have hstored : ((line ++ rest).takeWhile (· ≠ newline)).take (n - 1) = line.take (n - 1) := by
    rw [takeWhile_line h]
    exact List.take_append_of_le_length (by omega)
  have hrest : (line ++ rest).drop (line.take (n - 1)).length = line.drop (n - 1) ++ rest := by
    rw [List.length_take_of_le (by omega)]
    exact List.drop_append_of_le_length (by omega)
  obtain ⟨c, tail, hc⟩ : ∃ c tail, line.drop (n - 1) = c :: tail :=
    List.exists_cons_of_ne_nil (by simp; omega)
  have hne : c ≠ newline := by
    rintro rfl
    exact h (List.mem_of_mem_drop (hc ▸ List.mem_cons_self))
  simp only [getline, IStream.opened, IStream.good, Bool.not_false, Bool.and_self, if_true, hstored,
    hrest, hc, List.cons_append, if_neg hne]

/-- Nothing is read from a stream that has failed. -/
theorem getline_failed {s : IStream} (h : s.failbit = true) : getline n s = ([], s) := by
  obtain ⟨rest, eofbit, failbit⟩ := s
  subst h
  simp [getline, IStream.good]

/-- The first line of a text is all of it, or ends with a newline. -/
theorem lines_cons {content line : List UInt8} {lines : List (List UInt8)}
    (h : content.splitOn newline = line :: lines) :
    newline ∉ line ∧ (lines = [] ∧ content = line ∨
      ∃ rest, content = line ++ newline :: rest ∧ rest.splitOn newline = lines) := by
  by_cases hmem : newline ∈ content
  · obtain ⟨pre, post, rfl, hpre⟩ := List.eq_append_cons_of_mem hmem
    rw [List.splitOn_append_cons_self_of_not_mem hpre, List.cons.injEq] at h
    obtain ⟨rfl, rfl⟩ := h
    exact ⟨hpre, .inr ⟨post, rfl, rfl⟩⟩
  · rw [List.splitOn_eq_singleton hmem, List.cons.injEq] at h
    obtain ⟨rfl, rfl⟩ := h
    exact ⟨hmem, .inl ⟨rfl, rfl⟩⟩

theorem lines_prefix {content line : List UInt8} {lines : List (List UInt8)}
    (h : content.splitOn newline = line :: lines) : ∃ rest, content = line ++ rest := by
  rcases (lines_cons h).2 with ⟨-, rfl⟩ | ⟨rest, rfl, -⟩
  · exact ⟨[], (List.append_nil _).symm⟩
  · exact ⟨newline :: rest, rfl⟩

end Getline

/-! ## Strings -/

/-- The string in a buffer. -/
def cString (buf : List UInt8) : List UInt8 := buf.takeWhile (· ≠ 0)

theorem cString_of_notMem {buf : List UInt8} (h : 0 ∉ buf) : cString buf = buf :=
  List.takeWhile_eq_self_iff.mpr (ne_of_notMem h)

/-- The next token, null if there is none, and where the following call goes on. -/
def strtok (delim : UInt8) (s : List UInt8) : Option (List UInt8) × List UInt8 :=
  match s.dropWhile (· = delim) with
  | [] => (none, [])
  | c :: cs => (some ((c :: cs).takeWhile (· ≠ delim)), ((c :: cs).dropWhile (· ≠ delim)).drop 1)

section Strtok

variable {delim : UInt8} {token rest : List UInt8}

theorem strtok_of_cons {c : UInt8} (hc : c ≠ delim) (s : List UInt8) :
    strtok delim (c :: s) =
      (some ((c :: s).takeWhile (· ≠ delim)), ((c :: s).dropWhile (· ≠ delim)).drop 1) := by
  have hdrop : (c :: s).dropWhile (· = delim) = c :: s :=
    List.dropWhile_cons_of_neg (by simpa using hc)
  simp only [strtok, hdrop]

theorem strtok_token (hne : token ≠ []) (h : delim ∉ token) :
    strtok delim (token ++ delim :: rest) = (some token, rest) := by
  obtain ⟨c, cs, rfl⟩ := List.exists_cons_of_ne_nil hne
  have hall := ne_of_notMem h
  rw [List.cons_append, strtok_of_cons fun he => h (by simp [he]), ← List.cons_append,
    List.takeWhile_append_of_pos hall, List.dropWhile_append_of_pos hall]
  simp

/-- The last token. -/
theorem strtok_last (hne : token ≠ []) (h : delim ∉ token) :
    strtok delim token = (some token, []) := by
  obtain ⟨c, cs, rfl⟩ := List.exists_cons_of_ne_nil hne
  have hall := ne_of_notMem h
  rw [strtok_of_cons fun he => h (by simp [he]), List.takeWhile_eq_self_iff.mpr hall,
    List.dropWhile_eq_nil_iff.mpr hall]
  rfl

end Strtok

/-! ## Decimal numbers -/

def isSpace (b : UInt8) : Bool := b = 32 || (9 ≤ b && b ≤ 13)

def isDigit (b : UInt8) : Bool := 48 ≤ b && b ≤ 57

/-- The value of the digits at the front. -/
def digitsValue (s : List UInt8) : Nat :=
  (s.takeWhile isDigit).foldl (fun value b => 10 * value + (b.toNat - 48)) 0

def longMax : Int := 9223372036854775807

/-- `strtol` stops at the largest and smallest `long`, of which `atoi` keeps the low 32 bits. -/
def atoi (s : List UInt8) : Int :=
  let s := s.dropWhile isSpace
  let value : Int :=
    match s with
    | [] => 0
    | c :: cs =>
      if c = 45 then -digitsValue cs
      else if c = 43 then digitsValue cs
      else digitsValue (c :: cs)
  (max (-longMax - 1) (min longMax value)).bmod 4294967296

/-- An `int` written by an output stream. -/
def decimal (n : Int) : List UInt8 :=
  let digits := (Nat.toDigits 10 n.natAbs).map fun c => c.toNat.toUInt8
  if n < 0 then 45 :: digits else digits

theorem isDigit_ascii {c : Char} (h : c.isDigit = true) :
    isDigit c.toNat.toUInt8 = true ∧ (c.toNat.toUInt8).toNat = c.toNat := by
  have hc : 48 ≤ c.toNat ∧ c.toNat ≤ 57 := by
    simpa [Char.isDigit, UInt32.le_iff_toNat_le] using h
  have hnat : (c.toNat.toUInt8).toNat = c.toNat := by
    simp only [Nat.toUInt8_eq, UInt8.toNat_ofNat']
    omega
  refine ⟨?_, hnat⟩
  simp only [isDigit, Bool.and_eq_true, decide_eq_true_eq, UInt8.le_iff_toNat_le, hnat]
  simpa using hc

/-- Digits are not blanks, signs, separators or control characters. -/
theorem isDigit_range {b : UInt8} (h : isDigit b = true) : 48 ≤ b.toNat ∧ b.toNat ≤ 57 := by
  simpa [isDigit, UInt8.le_iff_toNat_le] using h

theorem decimal_isDigit {n : Int} (hn : 0 ≤ n) : ∀ b ∈ decimal n, isDigit b = true := by
  have hneg : ¬ n < 0 := by omega
  intro b hb
  simp only [decimal, hneg, if_false] at hb
  obtain ⟨c, hc, rfl⟩ := List.mem_map.mp hb
  exact (isDigit_ascii (Nat.isDigit_of_mem_toDigits (by decide) (by decide) hc)).1

theorem decimal_ne_nil {n : Int} (hn : 0 ≤ n) : decimal n ≠ [] := by
  have hneg : ¬ n < 0 := by omega
  simp [decimal, hneg, Nat.toDigits_ne_nil]

theorem digitsValue_decimal {n : Int} (hn : 0 ≤ n) : (digitsValue (decimal n) : Int) = n := by
  have hneg : ¬ n < 0 := by omega
  have hall := decimal_isDigit hn
  have hfold : ∀ (cs : List Char) (value : Nat), (∀ c ∈ cs, c.isDigit = true) →
      (cs.map fun c => c.toNat.toUInt8).foldl (fun value b => 10 * value + (b.toNat - 48)) value =
        Nat.ofDigitChars 10 cs value := by
    intro cs
    induction cs with
    | nil => exact fun value _ => rfl
    | cons c cs ih =>
      intro value hcs
      rw [List.map_cons, List.foldl_cons, (isDigit_ascii (hcs c (by simp))).2,
        ih _ fun d hd => hcs d (by simp [hd])]
      rfl
  unfold digitsValue
  rw [List.takeWhile_eq_self_iff.mpr hall]
  simp only [decimal, hneg, if_false]
  rw [hfold _ 0 fun c hc => Nat.isDigit_of_mem_toDigits (by decide) (by decide) hc,
    Nat.ofDigitChars_toDigits (by decide) (by decide)]
  omega

/-- What was written as a non-negative `int` is read back. -/
theorem atoi_decimal {n : Int} (hn : 0 ≤ n) (hmax : n ≤ 2147483647) : atoi (decimal n) = n := by
  obtain ⟨c, cs, hcs⟩ := List.exists_cons_of_ne_nil (decimal_ne_nil hn)
  have hc := isDigit_range (decimal_isDigit hn c (by simp [hcs]))
  have hspace : isSpace c = false := by
    have hne : c ≠ 32 := by
      rintro rfl
      simp at hc
    have hle : ¬ c ≤ 13 := by
      rw [UInt8.le_iff_toNat_le]
      simp only [UInt8.reduceToNat]
      omega
    simp [isSpace, hne, hle]
  have hminus : c ≠ 45 := by
    rintro rfl
    simp at hc
  have hplus : c ≠ 43 := by
    rintro rfl
    simp at hc
  have hdrop : (decimal n).dropWhile isSpace = c :: cs := by
    rw [hcs]
    exact List.dropWhile_cons_of_neg (by simp [hspace])
  have hvalue := digitsValue_decimal hn
  rw [hcs] at hvalue
  simp only [atoi, hdrop, if_neg hminus, if_neg hplus, hvalue, longMax]
  rw [Int.bmod_eq_of_le (by omega) (by omega)]
  omega

end TinyQuanta.CText
