import Mathlib.Data.List.Nodup

/-!
# Counting numbered objects

A ledger over pointers: how often each object occurs in a list of pointers, and
the argument that turns a balance of such counts into "each is in one place".
-/
namespace TinyQuanta.Ledger

variable {α : Type}

/-- One if this pointer is to the object with number `q`. -/
def hit (key : α → Nat) (q : Nat) (p : Option α) : Nat := if p.map key = some q then 1 else 0

/-- How often the object with number `q` occurs among these pointers. -/
def tally (key : α → Nat) (q : Nat) : List (Option α) → Nat
  | [] => 0
  | p :: l => hit key q p + tally key q l

@[simp] theorem tally_nil (key : α → Nat) (q : Nat) : tally key q [] = 0 := rfl

@[simp] theorem tally_cons (key : α → Nat) (q : Nat) (p : Option α) (l : List (Option α)) :
    tally key q (p :: l) = hit key q p + tally key q l := rfl

@[simp] theorem tally_append (key : α → Nat) (q : Nat) (l l' : List (Option α)) :
    tally key q (l ++ l') = tally key q l + tally key q l' := by
  induction l with
  | nil => simp
  | cons p l ih =>
    simp only [List.cons_append, tally_cons, ih]
    omega

theorem tally_map_some (key : α → Nat) (q : Nat) (l : List α) :
    tally key q (l.map some) = (l.map key).count q := by
  induction l with
  | nil => rfl
  | cons x l ih =>
    simp only [List.map_cons, tally_cons, ih, List.count_cons, hit, Option.map_some,
      Option.some.injEq, beq_iff_eq]
    omega

theorem tally_pos_of_mem (key : α → Nat) {x : α} {l : List (Option α)} (h : some x ∈ l) :
    0 < tally key (key x) l := by
  obtain ⟨l₁, l₂, rfl⟩ := List.append_of_mem h
  simp only [tally_append, tally_cons, hit, Option.map_some, if_true]
  omega

/-- Objects are numbered apart; each is in one of the counted places or among those that are
gone. All are in place, each once, exactly if none is gone. -/
theorem all_in_place_iff {key : α → Nat} {l : List α} {places : Nat → Nat} {gone : List (Option α)}
    (hn : (l.map key).Nodup)
    (hb : ∀ q, tally key q (l.map some) = places q + tally key q gone)
    (hs : ∀ p ∈ gone, ∃ x, p = some x) : (∀ x ∈ l, places (key x) = 1) ↔ gone = [] := by
  constructor
  · intro hc
    by_contra hne
    obtain ⟨p, hp⟩ := List.exists_mem_of_ne_nil _ hne
    obtain ⟨x, rfl⟩ := hs p hp
    have hx := hb (key x)
    have hpos := tally_pos_of_mem key hp
    rw [tally_map_some] at hx
    have hin : 0 < (l.map key).count (key x) := by omega
    have hle := List.nodup_iff_count_le_one.mp hn (key x)
    obtain ⟨y, hy, he⟩ := List.mem_map.mp (List.count_pos_iff.mp hin)
    have hone := hc y hy
    rw [he] at hone
    omega
  · intro hg x hx
    have hq := hb (key x)
    rw [tally_map_some, List.count_eq_one_of_mem hn (List.mem_map_of_mem hx), hg, tally_nil] at hq
    omega

end TinyQuanta.Ledger
