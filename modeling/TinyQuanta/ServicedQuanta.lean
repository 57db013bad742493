import TinyQuanta.WorkerBuffers

/-!
# Serviced quanta

`curr_sizes[tid].sq` goes up by one at a preemption and down by the whole of
`num_quanta` at a completion, while `num_quanta` is reset where the slot is bound
to its next packet. Both counters wrap. The exact number of quanta of a job is
read off the log: preemptions of its coroutine since the slot was bound.
-/
namespace TinyQuanta.ServicedQuanta

open Params Packet Worker WorkerBuffers

def countQuanta (c : Nat) (n : Nat) : Event → Nat
  | .bound d _ _ => if d = c then 0 else n
  | .preempted d => if d = c then n + 1 else n
  | _ => n

/-- How many quanta the job bound to `c` has used up without finishing. -/
def quanta (s : State) (c : Nat) : Nat := s.log.foldl (countQuanta c) 0

/-- A sum over the coroutines of a deque. -/
def sumOver (f : Nat → Nat) : List Nat → Nat
  | [] => 0
  | c :: cs => f c + sumOver f cs

theorem sumOver_append (f : Nat → Nat) (cs ds : List Nat) :
    sumOver f (cs ++ ds) = sumOver f cs + sumOver f ds := by
  induction cs with
  | nil => simp [sumOver]
  | cons c cs ih =>
    simp only [List.cons_append, sumOver, ih]
    omega

theorem sumOver_congr {f g : Nat → Nat} {cs : List Nat} (h : ∀ c ∈ cs, f c = g c) :
    sumOver f cs = sumOver g cs := by
  induction cs with
  | nil => rfl
  | cons c cs ih =>
    simp only [sumOver, h c List.mem_cons_self, ih fun d hd => h d (List.mem_cons_of_mem c hd)]

/-- The coroutines that are not touched keep their part of the sum. -/
theorem sumOver_update (coros : Nat → CoroInfo) {c : Nat} {info : CoroInfo} {cs : List Nat}
    (h : c ∉ cs) : sumOver (fun d => (Function.update coros c info d).numQuanta) cs =
      sumOver (fun d => (coros d).numQuanta) cs := by
  apply sumOver_congr
  intro d hd
  rw [Function.update_of_ne (by rintro rfl; exact h hd)]

/-- The sum of `num_quanta` over `busy_coros`. -/
def busyQuanta (s : State) : Nat := sumOver (fun c => (s.coros c).numQuanta) s.busyCoros

/-- The job that is preempted has not had `2^32 - 1` quanta yet. -/
def Short (s : State) : Act → Prop
  | .resume .preempted => ∀ c ∈ s.busyCoros.head?, quanta s c + 1 < 4294967296
  | _ => True

instance (s : State) : ∀ a, Decidable (Short s a)
  | .resume .preempted => Option.decidableForallMem _
  | .resume .completed => isTrue trivial
  | .arrive _ => isTrue trivial
  | .dispatch => isTrue trivial
  | .handle => isTrue trivial
  | .transmit _ => isTrue trivial
  | .giveBack => isTrue trivial

/-- The books of the quanta, for a worker that started with `sq`. -/
structure Account (sv : Server) (sq : Nat) (s : State) : Prop where
  inv : WorkerSlots.Inv sv s
  counted : ∀ c ∈ s.busyCoros, (s.coros c).numQuanta = quanta s c
  total : u64 s.currSq = u64 (sq + busyQuanta s)

theorem init_account (sv : Server) (sq : Nat) : Account sv sq (init sv sq) where
  inv := WorkerSlots.init_inv sv sq
  counted := by simp [init]
  total := by simp [init, busyQuanta, sumOver]

theorem busy_nodup {sv : Server} {s : State} (h : WorkerSlots.Inv sv s) : s.busyCoros.Nodup :=
  (h.slots.nodup_iff.mpr List.nodup_range).of_append_right

section

attribute [local simp] quanta countQuanta

theorem move_counted {sv : Server} {sq : Nat} {s t : State} {a : Act} (h : Account sv sq s)
    (m : Move sv s a t) (hs : Short s a) :
    ∀ c ∈ t.busyCoros, (t.coros c).numQuanta = quanta t c := by
  have hq := h.counted
  intro d hd
  cases m with
  | preempt c rest hp hb =>
    have hlt : quanta s c + 1 < 4294967296 := hs c (by simp [hb])
    have hd' : d = c ∨ d ∈ rest := by simpa [or_comm] using hd
    by_cases hdc : d = c
    · subst hdc
      have hold := hq d (by simp [hb])
      simp only [quanta] at hlt hold
      simp [hold, u32]
      omega
    · have hold := hq d (by simp [hb, hd'.resolve_left hdc])
      simpa [hdc, Ne.symm hdc] using hold
  | finish c rest hp hb =>
    have hn := busy_nodup h.inv
    rw [hb] at hn
    have hdc : d ≠ c := by
      rintro rfl
      exact (List.nodup_cons.mp hn).1 hd
    have hold := hq d (by simp [hb, show d ∈ rest from hd])
    simpa [hdc] using hold
  | bind rx rest c idle hp hr hv hi =>
    by_cases hdc : d = c
    · subst hdc
      simp
    · have hold := hq d ((List.mem_cons.mp hd).resolve_left hdc)
      simpa [hdc, Ne.symm hdc] using hold
  | _ => simpa [arrive] using hq d hd

theorem move_total {sv : Server} {sq : Nat} {s t : State} {a : Act} (h : Account sv sq s)
    (m : Move sv s a t) (hs : Short s a) : u64 t.currSq = u64 (sq + busyQuanta t) := by
  have ht := h.total
  have hn := busy_nodup h.inv
  cases m with
  | preempt c rest hp hb =>
    rw [hb] at hn
    have hlt : quanta s c + 1 < 4294967296 := hs c (by simp [hb])
    have hold := h.counted c (by simp [hb])
    simp only [busyQuanta, hb, sumOver] at ht
    simp only [busyQuanta, sumOver_append, sumOver_update s.coros (List.nodup_cons.mp hn).1,
      sumOver, Function.update_self, u64, u32] at ht ⊢
    omega
  | finish c rest hp hb =>
    rw [hb] at hn
    simp only [busyQuanta, hb, sumOver] at ht
    simp only [busyQuanta, sumOver_update s.coros (List.nodup_cons.mp hn).1, sub64, u64] at ht ⊢
    omega
  | bind rx rest c idle hp hr hv hi =>
    simp only [busyQuanta, sumOver, Function.update_self, Nat.zero_add,
      sumOver_update s.coros (idle_not_busy h.inv hi)]
    exact ht
  | _ => exact ht

end

theorem move_account {sv : Server} {sq : Nat} {s t : State} {a : Act} (h : Account sv sq s)
    (m : Move sv s a t) (hs : Short s a) : Account sv sq t where
  inv := WorkerSlots.move_inv h.inv m
  counted := move_counted h m hs
  total := move_total h m hs

/-- As long as no job is given `2^32` quanta, `curr_sizes[tid].sq` less its value at the start is
the sum of `num_quanta` over the busy coroutines, modulo `2^64`, and that sum is exactly the
number of quanta used up by the jobs that are not finished. -/
theorem serviced_quanta (sv : Server) (sq : Nat) (as : List Act) (s : State)
    (h : Machine.run (step sv) as (init sv sq) = some s)
    (hs : Machine.Along (step sv) Short as (init sv sq)) :
    sub64 s.currSq sq = u64 (busyQuanta s) ∧ busyQuanta s = sumOver (quanta s) s.busyCoros := by
  have ha : Account sv sq s := Machine.run_invariant (init_account sv sq)
    (fun _ _ _ ha hs ht => move_account ha (step_move ht) hs) h hs
  have ht := ha.total
  constructor
  · simp only [sub64, u64] at ht ⊢
    omega
  · exact sumOver_congr ha.counted

/-- One request is bound and preempted once. -/
def onePreemption : List Act :=
  [.arrive request] ++ iteration .preempted 1 0 ++
    [.resume .preempted, .dispatch, .transmit 0, .giveBack]

theorem serviced_quanta_one_preemption :
    ∃ s, Machine.run (step shipped) onePreemption (init shipped 5) = some s ∧
      Machine.Along (step shipped) Short onePreemption (init shipped 5) ∧ s.currSq = 6 ∧
      sub64 s.currSq 5 = u64 (busyQuanta s) := by
  have h : (Machine.run (step shipped) onePreemption (init shipped 5)).any
      (fun s => decide (s.currSq = 6)) = true := by decide +kernel
  have hs : Machine.Along (step shipped) Short onePreemption (init shipped 5) := by decide +kernel
  obtain ⟨s, hr, hq⟩ := Option.any_eq_true _ _ |>.mp h
  exact ⟨s, hr, hs, of_decide_eq_true hq, (serviced_quanta shipped 5 onePreemption s hr hs).1⟩

end TinyQuanta.ServicedQuanta
