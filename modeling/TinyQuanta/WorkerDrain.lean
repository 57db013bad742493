import TinyQuanta.WorkerLoad
import TinyQuanta.WorkerFlush
import TinyQuanta.WorkerFairness

/-!
# A worker left alone becomes idle

When no packet arrives any more and every job ends after a number of quanta, each step
of the loop lowers a measure: quanta that are still to be run weigh most, then the
stages that are left in the iteration. An iteration that runs nothing is only possible
when it finds packets on the ring or when all is done.
-/
namespace TinyQuanta.WorkerDrain

open Params Packet Worker
open WorkerSlots (Inv reachable_inv length_slots u16_dequeue nextAct exists_step)
open WorkerFairness (reachable_run reachable_move forced_iff_empty)
open WorkerLoad (Drained outstanding)
open WorkerBuffers (dequeued)
open WorkerService (Job jobs running handed validRx)

/-- No packet arrives, and a job that has been preempted `n` times ends when it is resumed. -/
def Quiescent (n : Nat) (s : State) : Act → Prop
  | .arrive _ => False
  | .resume .preempted => ∀ c ∈ s.busyCoros.head?, (s.coros c).numQuanta < n
  | _ => True

instance (n : Nat) (s : State) : ∀ a, Decidable (Quiescent n s a)
  | .arrive _ => isFalse id
  | .resume .preempted => inferInstanceAs (Decidable (∀ c ∈ s.busyCoros.head?, _))
  | .resume .completed | .dispatch | .handle | .transmit _ | .giveBack => isTrue trivial

/-- The turns that a coroutine still needs. -/
def turnsLeft (n : Nat) (coros : Nat → CoroInfo) (c : Nat) : Nat := n - (coros c).numQuanta + 1

/-- The turns that these coroutines still need. -/
def totalTurns (n : Nat) (coros : Nat → CoroInfo) : List Nat → Nat
  | [] => 0
  | c :: l => turnsLeft n coros c + totalTurns n coros l

/-- The turns that are still to come; a packet weighs more the further away it is from its
coroutine. -/
def work (n : Nat) (s : State) : Nat :=
  totalTurns n s.coros s.busyCoros + (n + 2) * s.rxBufs.length + (n + 3) * s.ring.length

/-- The stages that are left. Without a job the iteration that starts next is part of this one. -/
def stages : Pc → Bool → Nat
  | .head, false => 0
  | .giveBack, false => 1
  | .transmit, false => 2
  | .handle, false => 3
  | .dispatch, _ => 4
  | .head, true => 5
  | .giveBack, true => 6
  | .transmit, true => 7
  | .handle, true => 8

def remaining (n : Nat) (s : State) : Nat := 5 * work n s + stages s.pc s.busyCoros.isEmpty

variable {sv : Server} {s t : State} {a : Act}

theorem totalTurns_append (n : Nat) (coros : Nat → CoroInfo) (l l' : List Nat) :
    totalTurns n coros (l ++ l') = totalTurns n coros l + totalTurns n coros l' := by
  induction l with
  | nil => exact (Nat.zero_add _).symm
  | cons c l ih =>
    simp only [List.cons_append, totalTurns, ih]
    omega

/-- A change to a coroutine that is not listed is no change. -/
theorem totalTurns_update (n : Nat) (coros : Nat → CoroInfo) (c : Nat) (info : CoroInfo)
    (l : List Nat)
    (h : c ∉ l) : totalTurns n (Function.update coros c info) l = totalTurns n coros l := by
  induction l with
  | nil => rfl
  | cons d l ih =>
    rw [List.mem_cons, not_or] at h
    obtain ⟨hne, hl⟩ := h
    simp only [totalTurns, ih hl, turnsLeft, Function.update_of_ne (Ne.symm hne)]

theorem totalTurns_le (n : Nat) (coros : Nat → CoroInfo) (l : List Nat) :
    totalTurns n coros l ≤ (n + 1) * l.length := by
  induction l with
  | nil => exact Nat.zero_le _
  | cons c l ih =>
    simp only [totalTurns, List.length_cons, Nat.mul_succ, turnsLeft]
    omega

theorem front_notMem (h : Inv sv s) {c : Nat} {rest : List Nat} (hb : s.busyCoros = c :: rest) :
    c ∉ rest := by
  have hnd := (List.nodup_append.mp (h.slots.nodup_iff.mpr List.nodup_range)).2.1
  rw [hb] at hnd
  exact (List.nodup_cons.mp hnd).1

/-- A step that goes on to a later stage with the same jobs. -/
theorem remaining_lt_of_stage {n : Nat} (hw : work n t ≤ work n s) (hb : t.busyCoros = s.busyCoros)
    (hs : stages t.pc s.busyCoros.isEmpty < stages s.pc s.busyCoros.isEmpty) :
    remaining n t < remaining n s := by
  unfold remaining
  rw [hb]
  omega

/-- A step that takes something from the work. -/
theorem remaining_lt_of_work {n : Nat} (hw : work n t < work n s)
    (hs : stages t.pc t.busyCoros.isEmpty < stages s.pc s.busyCoros.isEmpty + 5) :
    remaining n t < remaining n s := by
  unfold remaining
  omega

theorem stages_busy : stages .transmit false < stages .dispatch false ∧
    stages .handle false < stages .dispatch false := by
  decide

theorem stages_flush (e : Bool) : stages .transmit e < stages .handle e ∧
    stages .giveBack e < stages .transmit e ∧
    stages .head e < stages .giveBack e := by
  cases e <;> decide

/-- A new stage costs less than a turn. -/
theorem stages_next (e e' : Bool) : stages .dispatch e < stages .head e' + 5 ∧
    stages .handle e < stages .dispatch e' + 5 ∧ stages .handle false < stages .handle e + 5 := by
  cases e <;> cases e' <;> decide

/-- A packet that is taken off the ring is one step nearer. -/
theorem work_dequeue {n : Nat} (hi : Inv sv s) (hp : s.pc ≠ .handle)
    (hb : t.busyCoros = s.busyCoros)
    (hc : t.coros = s.coros) (hrx : t.rxBufs = s.ring.take (u16 (burst s)))
    (hr : t.ring = s.ring.drop (burst s)) :
    work n t + burst s = work n s := by
  obtain ⟨k, hk⟩ : ∃ k, s.ring.length = burst s + k :=
    Nat.exists_eq_add_of_le (Nat.min_le_right _ _)
  have hlen : t.rxBufs.length = burst s ∧ t.ring.length = k := by
    rw [hrx, hr, u16_dequeue hi.ring, List.length_take, List.length_drop]
    omega
  simp only [work, hb, hc, hlen.1, hlen.2, hi.pendingAt hp, hk, List.length_nil, Nat.mul_add,
    Nat.add_mul]
  omega

/-- Every step lowers the measure, unless all is done. -/
theorem remaining_lt {n : Nat} (hn : n < 4294967296) (hpos : 0 < sv.numWorkerCoros)
    (h : Reachable sv s)
    (hq : Quiescent n s a) (m : Move sv s a t) : Drained s ∨ remaining n t < remaining n s := by
  have hi := reachable_inv h
  cases m with
  | arrive m room => exact hq.elim
  | idle r hp hb =>
    exact .inr (remaining_lt_of_stage (Nat.le_refl _) rfl (by simp [hp, hb, stages]))
  | preempt c rest hp hb =>
    have hc := front_notMem hi hb
    have hlt : (s.coros c).numQuanta < n := hq c (by simp [hb])
    refine .inr (remaining_lt_of_work ?_ (hp ▸ (stages_next _ _).1))
    simp only [work, hb, totalTurns_append, totalTurns_update n _ c _ rest hc, totalTurns,
      turnsLeft, Function.update_self, u32]
    omega
  | finish c rest hp hb =>
    have hc := front_notMem hi hb
    refine .inr (remaining_lt_of_work ?_ (hp ▸ (stages_next _ _).1))
    simp only [work, hb, totalTurns_update n _ c _ rest hc, totalTurns, turnsLeft]
    omega
  | dequeue hp hd =>
    by_cases hb : s.busyCoros = []
    · by_cases hr : s.ring = []
      · exact .inl ⟨hr, hi.pendingAt (by simp [hp]), hb⟩
      · -- all coroutines are idle, so the dequeue takes a packet
        refine .inr (remaining_lt_of_work ?_ (hp ▸ (stages_next _ _).2.1))
        have hlen := length_slots hi
        have hring := List.length_pos_iff.mpr hr
        have hburst : 0 < burst s := by
          rw [hb, List.length_nil] at hlen
          unfold burst
          omega
        exact Nat.lt_of_lt_of_eq (Nat.lt_add_of_pos_right hburst)
          (work_dequeue hi (by simp [hp]) rfl rfl rfl rfl)
    · refine .inr (remaining_lt_of_stage ?_ rfl ?_)
      · exact Nat.le_of_add_right_le (Nat.le_of_eq (work_dequeue hi (by simp [hp]) rfl rfl rfl rfl))
      · rw [hp, List.isEmpty_eq_false_iff.mpr hb]
        exact stages_busy.2
  | wait hp hd =>
    have hne : s.busyCoros ≠ [] := fun he => hd (.inl ((forced_iff_empty h hp).mpr he))
    refine .inr (remaining_lt_of_stage (Nat.le_refl _) rfl ?_)
    rw [hp, List.isEmpty_eq_false_iff.mpr hne]
    exact stages_busy.1
  | keep rx rest hp hr hv room =>
    refine .inr (remaining_lt_of_work ?_ (Nat.lt_add_of_pos_right (by decide)))
    simp only [work, hr, List.length_append, List.length_singleton, Nat.mul_add]
    omega
  | lose rx rest hp hr hv full =>
    refine .inr (remaining_lt_of_work ?_ (Nat.lt_add_of_pos_right (by decide)))
    simp only [work, hr, List.length_append, List.length_singleton, Nat.mul_add]
    omega
  | bind rx rest c idle hp hr hv hidle =>
    have hc := WorkerBuffers.idle_not_busy hi hidle
    refine .inr (remaining_lt_of_work ?_ ?_)
    · simp only [work, hr, totalTurns, totalTurns_update n _ c _ _ hc, turnsLeft,
        Function.update_self, List.length_append, List.length_singleton, Nat.mul_add]
      omega
    · rw [hp]
      exact (stages_next _ false).2.2
  | handled hp hr =>
    exact .inr (remaining_lt_of_stage (Nat.le_refl _) rfl (hp ▸ (stages_flush _).1))
  | send nbTx hp ht hle =>
    exact .inr (remaining_lt_of_stage (Nat.le_refl _) rfl (hp ▸ (stages_flush _).2.1))
  | hold nbTx hp ht =>
    exact .inr (remaining_lt_of_stage (Nat.le_refl _) rfl (hp ▸ (stages_flush _).2.1))
  | free hp hf => exact .inr (remaining_lt_of_stage (Nat.le_refl _) rfl (hp ▸ (stages_flush _).2.2))
  | defer hp hf =>
    exact .inr (remaining_lt_of_stage (Nat.le_refl _) rfl (hp ▸ (stages_flush _).2.2))

/-- The measure, from what is outstanding. -/
theorem remaining_le (n : Nat) (s : State) : remaining n s ≤ 5 * ((n + 3) * outstanding s) + 8 := by
  have hsum := totalTurns_le n s.coros s.busyCoros
  have hstage : ∀ p e, stages p e ≤ 8 := by
    intro p e
    cases p <;> cases e <;> decide
  have hs := hstage s.pc s.busyCoros.isEmpty
  unfold remaining work outstanding
  simp only [Nat.mul_add, Nat.add_mul] at hsum ⊢
  omega

theorem Quiescent.own {n : Nat} (hq : Quiescent n s a) (m : Mbuf) : a ≠ .arrive m := by
  rintro rfl
  exact hq

/-- At the loop head of a worker that has nothing to do, nothing waits to be sent either. -/
theorem all_handed (h : Reachable sv s) (hp : s.pc = .head) (hd : Drained s) :
    s.txBufs = [] ∧ (handed s).Perm ((jobs s).map fun j => some j.tx) ∧
      ((jobs s).map Job.rx).Perm (validRx sv (dequeued s)) ∧
      (dequeued s).map Rx.seq = List.range s.arrived := by
  obtain ⟨hring, hrx, hbusy⟩ := hd
  have hs := WorkerService.reachable_service h
  have htx : s.txBufs = [] := by
    by_contra hne
    exact ((WorkerFlush.reachable_flush h).waits (.inl hp) hne).1 hbusy
  refine ⟨htx, ?_, ?_, ?_⟩
  · have hsplit := hs.split
    have hsent := hs.sent
    simp only [running, hbusy, List.filterMap_nil, List.nil_append] at hsplit
    rw [htx, List.append_nil] at hsent
    rw [hsent]
    exact (hsplit.map _).symm
  · have htaken := hs.taken
    rw [hrx] at htaken
    exact htaken.symm
  · have horder := hs.books.order
    rwa [hring, List.append_nil] at horder

theorem drained_of_quiescent (hpos : 0 < sv.numWorkerCoros) {n : Nat} (hn : n < 4294967296)
    (h : Reachable sv s)
    {as : List Act} (hrun : Machine.run (step sv) as s = some t)
    (hq : Machine.Along (step sv) (Quiescent n) as s)
    (hlen : 5 * ((n + 3) * outstanding s) + 8 < as.length) : Drained t := by
  refine Machine.run_settles (P := Reachable sv) (remaining n) ?_ ?_ h hrun hq
    (Nat.lt_of_le_of_lt (remaining_le n s) hlen)
  · intro s a t hs hqa hstep
    exact ⟨reachable_move hs (step_move hstep),
      fun hd => (WorkerLoad.drained_move hd (step_move hstep) hqa.own).1⟩
  · exact fun s a t hs hqa hstep => remaining_lt hn hpos hs hqa (step_move hstep)

/-! ## Such runs exist -/

/-- What a worker does while no packet comes, every job ends and the NIC takes nothing. -/
def Plain (a : Act) : Prop := ∃ p, a = nextAct .completed 0 p

theorem Plain.quiescent {n : Nat} (h : Plain a) (s : State) : Quiescent n s a := by
  obtain ⟨p, rfl⟩ := h
  cases p <;> trivial

theorem exists_plain_step (h : Reachable sv s) :
    ∃ a t, step sv s a = some t ∧ Plain a ∧ Reachable sv t := by
  obtain ⟨t, ht⟩ := exists_step (reachable_inv h) .completed (Nat.zero_le _)
  exact ⟨_, t, ht, ⟨s.pc, rfl⟩, reachable_move h (step_move ht)⟩

/-- How far it is to the loop head. -/
def stagesToHead : Pc → Nat
  | .head => 0
  | .giveBack => 1
  | .transmit => 2
  | .handle => 3
  | .dispatch => 4

def toHead (sv : Server) (s : State) : Nat :=
  stagesToHead s.pc * (sv.numWorkerCoros + 1) + s.rxBufs.length

theorem toHead_lt (h : Reachable sv s) (hp : s.pc ≠ .head) (ha : ∀ m, a ≠ .arrive m)
    (hm : Move sv s a t) : toHead sv t < toHead sv s := by
  have hi := reachable_inv h
  have ht := reachable_inv (reachable_move h hm)
  have hslots := length_slots ht
  have hpending := ht.pending
  unfold toHead
  cases hm with
  | arrive m room => exact absurd rfl (ha m)
  | idle r hp' hb => exact absurd hp' hp
  | preempt c rest hp' hb => exact absurd hp' hp
  | finish c rest hp' hb => exact absurd hp' hp
  | dequeue hp' hd =>
    simp only [hp', stagesToHead] at hslots hpending ⊢
    omega
  | wait hp' hd =>
    simp only [hp', stagesToHead]
    omega
  | handled hp' hr =>
    simp only [hp', stagesToHead]
    omega
  | keep rx rest hp' hr hv room | lose rx rest hp' hr hv full
  | bind rx rest c idle hp' hr hv hidle =>
    simp only [hp', hr, List.length_append, List.length_singleton]
    omega
  | send nbTx hp' ht' hle | hold nbTx hp' ht' | free hp' hf | defer hp' hf =>
    simp only [hp', stagesToHead]
    omega

theorem exists_head (h : Reachable sv s) :
    ∃ as t, Machine.run (step sv) as s = some t ∧ (∀ a ∈ as, Plain a) ∧
      (t.pc = .head ∧ Reachable sv t) := by
  refine Machine.run_until (P := Reachable sv) (toHead sv) (fun s hs => ?_) h
  by_cases hp : s.pc = .head
  · exact ⟨[], s, rfl, fun a ha => (List.not_mem_nil ha).elim, .inl ⟨hp, hs⟩⟩
  · obtain ⟨a, t, ht, ha, hr⟩ := exists_plain_step hs
    have hne : ∀ m, a ≠ .arrive m := (ha.quiescent (n := 0) s).own
    exact ⟨[a], t, Machine.run_one ht, List.forall_mem_singleton.mpr ha,
      .inr ⟨hr, toHead_lt hs hp hne (step_move ht)⟩⟩

/-- From every state a worker that is left alone has runs of any length that end at the loop
head. -/
theorem exists_quiescent_run (h : Reachable sv s) (n k : Nat) :
    ∃ as t, Machine.run (step sv) as s = some t ∧ Machine.Along (step sv) (Quiescent n) as s ∧
      k ≤ as.length ∧ t.pc = .head := by
  obtain ⟨as, t, ht, hk, has, hr⟩ :=
    Machine.exists_run (P := Reachable sv) (fun _ hs => exists_plain_step hs) k h
  obtain ⟨bs, u, hu, hbs, hp, -⟩ := exists_head hr
  have hplain : ∀ a ∈ as ++ bs, Plain a := fun a ha => (List.mem_append.mp ha).elim (has a) (hbs a)
  refine ⟨as ++ bs, u, Machine.run_join ht hu,
    Machine.along_of_mem (fun a ha s => (hplain a ha).quiescent s) s, ?_, hp⟩
  rw [List.length_append]
  omega

/-- A worker to which no packet comes any more, with jobs that are preempted at most `n` times each.
After a number of steps given by what is outstanding it has nothing to do. At its loop head it has
then taken every packet off its ring and handed over the response to each valid one. -/
theorem worker_drains (sv : Server) (hpos : 0 < sv.numWorkerCoros) (n : Nat) (hn : n < 4294967296)
    (s t : State) (h : Reachable sv s) (as : List Act) (hrun : Machine.run (step sv) as s = some t)
    (hq : Machine.Along (step sv) (Quiescent n) as s)
    (hlen : 5 * ((n + 3) * outstanding s) + 8 < as.length) :
    Drained t ∧ (t.pc = .head → t.txBufs = [] ∧ (handed t).Perm ((jobs t).map fun j => some j.tx) ∧
      ((jobs t).map Job.rx).Perm (validRx sv (dequeued t)) ∧
      (dequeued t).map Rx.seq = List.range t.arrived) := by
  have hdrained := drained_of_quiescent hpos hn h hrun hq hlen
  exact ⟨hdrained, fun hp => all_handed (reachable_run h hrun) hp hdrained⟩

/-- One request, two iterations that serve it and three more. -/
theorem worker_drains_one_request :
    ∃ s t as, Reachable shipped s ∧ outstanding s = 1 ∧ Machine.run (step shipped) as s = some t ∧
      Drained t := by
  let as := iteration .completed 1 0 ++ iteration .completed 0 1 ++ iteration .completed 0 0 ++
    iteration .completed 0 0 ++ iteration .completed 0 0
  have h : (Machine.run (step shipped) [.arrive request] (init shipped 0)).any (fun s =>
      decide (outstanding s = 1 ∧ (Machine.run (step shipped) as s).isSome ∧
        Machine.Along (step shipped) (Quiescent 0) as s)) = true := by decide +kernel
  obtain ⟨s, hs, hrest⟩ := (Option.any_eq_true _ _).mp h
  obtain ⟨hone, hsome, hq⟩ := of_decide_eq_true hrest
  obtain ⟨t, ht⟩ := Option.isSome_iff_exists.mp hsome
  have hr : Reachable shipped s := ⟨0, _, hs⟩
  exact ⟨s, t, as, hr, hone, ht, (worker_drains shipped (by decide) 0 (by decide) s t hr as ht hq
    (by rw [hone]; decide)).1⟩

end TinyQuanta.WorkerDrain
