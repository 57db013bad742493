import TinyQuanta.BurstDispatch
import TinyQuanta.Interleaving
import Mathlib.Algebra.BigOperators.Group.Finset.Piecewise
import Mathlib.Algebra.Group.Action.Defs
import Mathlib.Algebra.Order.BigOperators.Group.Finset

/-!
# Drops and the next check-in

The drop path of `run_server` is to force a return pull. A check-in follows a
burst if `return_queue_checkin_idx` has reached its period, and only groups that
a ring takes as a whole advance that index. While no worker runs, the rings fill up
evenly: the first packet that is dropped meets a ring of `ringCapacity` packets, as
all others are then.
-/
namespace TinyQuanta.DropPull

open Params Packet Dispatcher DispatcherHeap
open BurstDispatch (maxDispatchSize_pos)

/-- What the environment decides about one group: how many packets the ring takes, and what
`std::rand` returns. -/
structure Pass where
  nbReturn : Nat
  rand₁ : Nat
  rand₂ : Nat

def Pass.act (p : Pass) : Act := .dispatch p.nbReturn p.rand₁ p.rand₂

/-- `dispatch_size` of the next group. -/
def groupSize : Pc → Nat
  | .dispatch size rxBufs => (rxBufs.take size).length
  | _ => 0

/-- The ring takes the whole group. -/
def Fits (s : State) : Act → Prop
  | .dispatch nbReturn _ _ => nbReturn = groupSize s.pc
  | _ => True

/-- Packets of the group are dropped. -/
def Overflows (s : State) : Act → Prop
  | .dispatch nbReturn _ _ => nbReturn ≠ groupSize s.pc
  | _ => True

instance (s : State) : ∀ a, Decidable (Fits s a)
  | .dispatch nbReturn _ _ => inferInstanceAs (Decidable (nbReturn = groupSize s.pc))
  | .rxBurst _ => isTrue trivial
  | .endBurst => isTrue trivial
  | .visit _ _ => isTrue trivial
  | .endCheckin => isTrue trivial

instance (s : State) : ∀ a, Decidable (Overflows s a)
  | .dispatch nbReturn _ _ => inferInstanceAs (Decidable (nbReturn ≠ groupSize s.pc))
  | .rxBurst _ => isTrue trivial
  | .endBurst => isTrue trivial
  | .visit _ _ => isTrue trivial
  | .endCheckin => isTrue trivial

variable {b : Build} {s t : State}

/-- Only a group that is taken as a whole advances the index. -/
theorem account_idx {w dispatchSize nbReturn : Nat}
    (h : s.returnQueueCheckinIdx + dispatchSize < 65536) :
    (account b w dispatchSize nbReturn s).returnQueueCheckinIdx =
      s.returnQueueCheckinIdx + if nbReturn = dispatchSize then dispatchSize else 0 := by
  by_cases hfit : nbReturn = dispatchSize
  · rw [if_pos hfit, hfit, account_returnQueueCheckinIdx]
    exact Nat.mod_eq_of_lt h
  · rw [if_neg hfit]
    unfold account addJobs requeue
    rw [if_pos hfit]
    split <;> rfl

/-- While packets are received the index is 0: a check-in resets it, and without one it was 0. -/
theorem recv_idx {as : List Act} (h : Machine.run (step b) as (init b) = some s)
    (hp : s.pc = .recv) : s.returnQueueCheckinIdx = 0 := by
  refine Machine.run_induction (P := fun _ s => s.pc = .recv → s.returnQueueCheckinIdx = 0)
    (fun _ => rfl) ?_ h hp
  intro as s a t _ hs ht hp
  cases step_move ht with
  | nothing hr => exact hs hr
  | receive rxBufs hr hne hle => cases hp
  | dispatch size rxBufs nbReturn r₁ r₂ w hd hne hw hle => cases hp
  | startCheckin size hd hc => cases hp
  | noCheckin size hd hc =>
    unfold returnRingCheckinPeriod at hc
    change s.returnQueueCheckinIdx = 0
    omega
  | visit visited total w currSize sq hv hlt hw => cases hp
  | endCheckin visited total hv hlt => rfl

/-- The loop over a burst: the index becomes positive with the first group that fits. -/
theorem burst_idx {passes : List Pass} {size : Nat} {rxBufs : List Mbuf}
    (hp : s.pc = .dispatch size rxBufs) (hsize : 0 < size)
    (hroom : s.returnQueueCheckinIdx + rxBufs.length < 65536)
    (h : Machine.run (step b) (passes.map Pass.act) s = some t) :
    t.checkIns = s.checkIns ∧ (0 < t.returnQueueCheckinIdx ↔ 0 < s.returnQueueCheckinIdx ∨
      ¬ Machine.Along (step b) Overflows (passes.map Pass.act) s) := by
  induction passes generalizing s rxBufs with
  | nil =>
    cases h
    exact ⟨rfl, by simp [Machine.Along]⟩
  | cons p passes ih =>
    obtain ⟨u, hu, ht⟩ := Option.bind_eq_some_iff.mp h
    have hsome := hu
    cases step_move hu with
    | dispatch size' rxBufs' nbReturn r₁ r₂ w hd hne hw hle =>
      rw [hp] at hd
      cases hd
      have hgroup : groupSize s.pc = (rxBufs.take size).length := by rw [hp]; rfl
      have hlen : (rxBufs.take size).length + (rxBufs.drop size).length = rxBufs.length := by
        rw [← List.length_append, List.take_append_drop]
      have hpos : 0 < (rxBufs.take size).length := by
        rw [List.length_take]
        have hne' := List.length_pos_iff.mpr hne
        omega
      have hidx := @account_idx b s w (rxBufs.take size).length p.nbReturn (by omega)
      obtain ⟨hcount, hiff⟩ := ih rfl (by
        change (account b w _ _ s).returnQueueCheckinIdx + _ < _
        rw [hidx]
        split <;> omega) ht
      refine ⟨hcount.trans (account_checkIns w _ _), hiff.trans ?_⟩
      change 0 < (account b w _ _ s).returnQueueCheckinIdx ∨ _ ↔ _
      rw [hidx]
      by_cases hfit : p.nbReturn = (rxBufs.take size).length
      · rw [if_pos hfit]
        exact iff_of_true (.inl (by omega)) (.inr fun ha => ha.1 (hfit.trans hgroup.symm))
      · rw [if_neg hfit]
        refine or_congr Iff.rfl (not_congr ⟨fun ha => ⟨?_, fun v hv => ?_⟩, fun ha => ha.2 _ hsome⟩)
        · exact fun he => hfit (he.trans hgroup)
        · rw [hsome] at hv
          cases hv
          exact ha

/-- After `c` check-ins, another one is due, under way or complete. -/
def Pulls (c : Nat) (s : State) : Prop :=
  c < s.checkIns ∨ s.checkIns = c ∧
    ((∃ size, s.pc = .dispatch size [] ∧ 0 < s.returnQueueCheckinIdx) ∨
      ∃ visited total, s.pc = .checkin visited total)

theorem pulls_move {c : Nat} {a : Act} (h : Pulls c s) (m : Move b s a t) : Pulls c t := by
  rcases h with h | ⟨hc, ⟨size, hp, hidx⟩ | ⟨visited, total, hp⟩⟩
  · exact .inl (Nat.lt_of_lt_of_le h (move_checkIns m))
  · cases m with
    | startCheckin size' hd hr => exact .inr ⟨hc, .inr ⟨[], 0, rfl⟩⟩
    | noCheckin size' hd hr => exact absurd hidx hr
    | dispatch size' rxBufs nbReturn r₁ r₂ w hd hne hw hle =>
      cases hp.symm.trans hd
      exact absurd rfl hne
    | nothing hd => cases hp.symm.trans hd
    | receive rxBufs hd hne hle => cases hp.symm.trans hd
    | visit visited total w currSize sq hd hlt hw => cases hp.symm.trans hd
    | endCheckin visited total hd hlt => cases hp.symm.trans hd
  · cases m with
    | visit visited' total' w currSize sq hd hlt hw => exact .inr ⟨hc, .inr ⟨_, _, rfl⟩⟩
    | endCheckin visited' total' hd hlt => exact .inl (by rw [← hc]; exact Nat.lt_succ_self _)
    | nothing hd => cases hp.symm.trans hd
    | receive rxBufs hd hne hle => cases hp.symm.trans hd
    | dispatch size' rxBufs nbReturn r₁ r₂ w hd hne hw hle => cases hp.symm.trans hd
    | startCheckin size' hd hr => cases hp.symm.trans hd
    | noCheckin size' hd hr => cases hp.symm.trans hd

theorem pulls_run {c : Nat} {as : List Act} (h : Pulls c s)
    (ht : Machine.run (step b) as s = some t) : Pulls c t :=
  Machine.run_induction (P := fun _ s => Pulls c s) h
    (fun _ _ _ _ _ hs hm => pulls_move hs (step_move hm)) ht

/-- At the end of a burst the index decides whether a check-in completes before the next one. -/
theorem pull_iff {size : Nat} (h : s.pc = .dispatch size []) :
    (∀ rest t, Machine.run (step b) rest s = some t → t.pc = .recv → s.checkIns < t.checkIns) ↔
      0 < s.returnQueueCheckinIdx := by
  constructor
  · intro hpull
    by_contra hz
    have hmove : Move b s .endBurst { s with pc := .recv } := .noCheckin size h hz
    have hlt := hpull [.endBurst] { s with pc := .recv } (Machine.run_one (move_step hmove)) rfl
    exact Nat.lt_irrefl _ hlt
  · intro hidx rest t ht hp
    rcases pulls_run (.inr ⟨rfl, .inl ⟨size, h, hidx⟩⟩) ht with hlt | ⟨-, ⟨_, hd, -⟩ | ⟨_, _, hd⟩⟩
    · exact hlt
    · rw [hp] at hd
      cases hd
    · rw [hp] at hd
      cases hd

/-- A burst that finds the dispatcher in any state it can be in, and the state `u` after its last
group. That a drop in it is followed by a check-in before packets are received again is the same
as: nothing was dropped, or some group of the burst was taken as a whole. -/
theorem drop_pulls_iff (b : Build) (hist : List Act) (rxBufs : List Mbuf) (passes : List Pass)
    (size : Nat) (s s₁ u : State) (hs : Machine.run (step b) hist (init b) = some s)
    (hne : rxBufs ≠ []) (hlen : rxBufs.length < 65536)
    (hrx : step b s (.rxBurst rxBufs) = some s₁)
    (hrun : Machine.run (step b) (passes.map Pass.act) s₁ = some u)
    (hu : u.pc = .dispatch size []) :
    (¬ Machine.Along (step b) Fits (passes.map Pass.act) s₁ →
      ∀ rest t, Machine.run (step b) rest u = some t → t.pc = .recv → s.checkIns < t.checkIns) ↔
    (Machine.Along (step b) Fits (passes.map Pass.act) s₁ ∨
      ¬ Machine.Along (step b) Overflows (passes.map Pass.act) s₁) := by
  cases step_move hrx with
  | nothing hp => exact absurd rfl hne
  | receive _ hp _ hle =>
    have hidx := recv_idx hs hp
    obtain ⟨hcount, hiff⟩ := burst_idx rfl (maxDispatchSize_pos b (List.length_pos_iff.mpr hne)) (by
      change s.returnQueueCheckinIdx + rxBufs.length < 65536
      omega) hrun
    have hsame : u.checkIns = s.checkIns := hcount
    have hpull := pull_iff (b := b) hu
    rw [hsame, hiff] at hpull
    rw [hpull]
    constructor
    · intro h
      by_cases hfits : Machine.Along (step b) Fits (passes.map Pass.act)
          { s with pc := .dispatch (maxDispatchSize b rxBufs.length) rxBufs }
      · exact .inl hfits
      · exact .inr ((h hfits).resolve_left (Nat.not_lt_of_le (Nat.le_of_eq hidx)))
    · rintro (h | h) hdrop
      · exact absurd h hdrop
      · exact .inr h

/-! ## How the rings fill up -/

section Fill

variable {c : Interleaving.Config} {s : Interleaving.State}

/-- The packets on the dispatch rings. -/
def filled (c : Interleaving.Config) (s : Interleaving.State) : Nat :=
  ∑ w ∈ Finset.range c.build.numWorkerThreads, (s.workers w).ring.length

/-- No worker has run: all that it was given is on its ring, and counted. -/
structure Untouched (c : Interleaving.Config) (s : Interleaving.State) : Prop where
  heap : Inv c.build s.disp
  sizes : ∀ w, (s.workers w).currSize = 0 ∧ s.disp.prevSizes w = 0
  jobs : ∀ w, (s.disp.workerInfoVec w).numRunningJobs = (s.workers w).ring.length
  rings : ∀ w, (s.workers w).ring.length ≤ ringCapacity

theorem init_untouched (c : Interleaving.Config) (sqs : Nat → Nat) :
    Untouched c (Interleaving.init c sqs) where
  heap := init_inv c.build
  sizes _ := ⟨rfl, rfl⟩
  jobs _ := rfl
  rings _ := Nat.zero_le _

theorem Untouched.inInt (h : Untouched c s) (w n : Nat) (hn : n ≤ 1) :
    c.build.int ((s.disp.workerInfoVec w).numRunningJobs + n) =
      ((s.workers w).ring.length + n : Nat) := by
  have hring := h.rings w
  simp only [ringCapacity, dispatchRingSize] at hring
  rw [h.jobs w, c.build.int_eq]
  · exact (Int.natCast_add _ _).symm
  · simp only [InInt, intMin, intMax]
    omega

/-- The top of the heap has the shortest ring. -/
theorem Untouched.top_le (h : Untouched c s) (hpol : c.build.policy = .leastLoaded)
    (hv : visitedAt s.disp.pc = []) {w : Nat} (hw : s.disp.workerQueue.head? = some w) {u : Nat}
    (hu : u < c.build.numWorkerThreads) :
    (s.workers w).ring.length ≤ (s.workers u).ring.length := by
  have hle := (top_least_loaded h.heap hpol hv hw hu).1
  rw [h.jobs, h.jobs] at hle
  exact Int.ofNat_le.mp hle

/-- So it has room if any ring has. -/
theorem Untouched.top_room (h : Untouched c s) (hpol : c.build.policy = .leastLoaded)
    (hv : visitedAt s.disp.pc = []) {w : Nat} (hw : s.disp.workerQueue.head? = some w)
    (hlt : filled c s < c.build.numWorkerThreads * ringCapacity) :
    (s.workers w).ring.length < ringCapacity := by
  by_contra hfull
  have hsum := Finset.card_nsmul_le_sum (Finset.range c.build.numWorkerThreads)
    (fun u => (s.workers u).ring.length) ringCapacity fun u hu => by
      have hle := h.top_le hpol hv hw (Finset.mem_range.mp hu)
      omega
  simp only [Finset.card_range, smul_eq_mul] at hsum
  exact Nat.not_lt_of_le hsum hlt

theorem Untouched.all_full (h : Untouched c s)
    (hsum : filled c s = c.build.numWorkerThreads * ringCapacity) {w : Nat}
    (hw : w < c.build.numWorkerThreads) : (s.workers w).ring.length = ringCapacity := by
  by_contra hne
  have hlt : filled c s < ∑ _u ∈ Finset.range c.build.numWorkerThreads, ringCapacity :=
    Finset.sum_lt_sum (fun u _ => h.rings u)
      ⟨w, Finset.mem_range.mpr hw, Nat.lt_of_le_of_ne (h.rings w) hne⟩
  simp only [Finset.sum_const, Finset.card_range, smul_eq_mul] at hlt
  omega

theorem Untouched.setPc (h : Untouched c s) (pc : Pc) (hv : visitedAt pc = visitedAt s.disp.pc) :
    Untouched c { s with disp := { s.disp with pc := pc } } :=
  { h with heap := h.heap.setPc hv }

theorem filled_arrive {w : Nat} (hw : w < c.build.numWorkerThreads) (m : Mbuf) (d : State) :
    filled c { s with
      disp := d, workers := Function.update s.workers w (Worker.arrive m (s.workers w)) } =
      filled c s + 1 := by
  have hring :
    (fun u => (Function.update s.workers w (Worker.arrive m (s.workers w)) u).ring.length) =
      fun u => (s.workers u).ring.length + if u = w then 1 else 0 := by
    funext u
    by_cases he : u = w
    · subst he
      simp [Worker.arrive]
    · simp [he]
  unfold filled
  rw [hring, Finset.sum_add_distrib, Finset.sum_ite_eq' (Finset.range c.build.numWorkerThreads) w,
    if_pos (Finset.mem_range.mpr hw)]

/-- A packet for the worker at the top, where there is room. -/
theorem Untouched.enqueue (h : Untouched c s) (hpol : c.build.policy = .leastLoaded) {m : Mbuf}
    {rxBufs : List Mbuf} (hp : s.disp.pc = .dispatch 1 (m :: rxBufs))
    (hlt : filled c s < c.build.numWorkerThreads * ringCapacity) :
    ∃ t, Interleaving.step c s (.dispatch 1 0 0) = some t ∧ Untouched c t ∧
      t.disp.pc = .dispatch 1 rxBufs ∧ filled c t = filled c s + 1 ∧
      t.disp.checkIns = s.disp.checkIns ∧
      t.disp.returnQueueCheckinIdx = u16 (s.disp.returnQueueCheckinIdx + 1) := by
  obtain ⟨w, hw⟩ := h.heap.exists_top
  have hwn := h.heap.mem_queue.mp (List.mem_of_mem_head? hw)
  have hroom := h.top_room hpol (by rw [hp]; rfl) hw hlt
  have hoff : offered c.build 0 0 s.disp = some w := by simp [offered, hpol, hw]
  have harrive : Machine.run (Worker.step c.server)
      ((Interleaving.enqueued s 1).map .arrive) (s.workers w) =
        some (Worker.arrive m (s.workers w)) := by
    simp [Interleaving.enqueued, Interleaving.group, hp, Worker.step, hroom]
  refine ⟨_, Interleaving.move_step (.dispatch 1 0 0 w _ _
    (.dispatch 1 (m :: rxBufs) 1 0 0 w hp (List.cons_ne_nil _ _) hoff (Nat.le_refl 1)) hoff
    harrive), ?_, rfl, filled_arrive hwn m _, account_checkIns w _ _,
    account_returnQueueCheckinIdx _ w 1 _⟩
  refine ⟨dispatch_inv h.heap hp hoff _ _ _, fun u => ?_, fun u => ?_, fun u => ?_⟩
  · have hsize : (Function.update s.workers w (Worker.arrive m (s.workers w)) u).currSize =
        (s.workers u).currSize := by
      by_cases he : u = w
      · subst he
        simp [Worker.arrive]
      · simp [he]
    simpa only [hsize, account_prevSizes] using h.sizes u
  · change ((account c.build w 1 1 s.disp).workerInfoVec u).numRunningJobs = _
    rw [account_numRunningJobs]
    by_cases he : u = w
    · subst he
      simpa [Worker.arrive] using h.inInt u 1 (Nat.le_refl 1)
    · simpa [he] using h.jobs u
  · by_cases he : u = w
    · subst he
      simp only [Function.update_self, Worker.arrive, List.length_append, List.length_singleton]
      omega
    · simpa only [Function.update_of_ne he] using h.rings u

/-- A visit learns nothing from a worker that has not run. -/
theorem Untouched.visit (h : Untouched c s) {visited : List Nat} {total w : Nat}
    (hp : s.disp.pc = .checkin visited total) (hlt : visited.length < c.build.numWorkerThreads)
    (hw : s.disp.workerQueue.head? = some w) (hroom : (s.disp.checkIns : Int) < intMax) :
    Untouched c { s with
      disp := visitTop c.build visited total w (s.workers w).currSize (s.workers w).currSq s.disp
      readAt := Function.update s.readAt w (WorkerLoad.numFinished (s.workers w)) } := by
  have hread : u16 (sub64 (s.workers w).currSize (s.disp.prevSizes w)) = 0 := by
    rw [(h.sizes w).1, (h.sizes w).2]
    rfl
  refine ⟨visit_inv h.heap hp hlt hw hroom _ _, fun u => ⟨(h.sizes u).1, ?_⟩, fun u => ?_, h.rings⟩
  · by_cases he : u = w
    · subst he
      simpa [visitTop] using (h.sizes u).1
    · simpa [visitTop, requeue, he] using (h.sizes u).2
  · rw [visitTop_numRunningJobs, hread]
    by_cases he : u = w
    · subst he
      simpa using h.inInt u 0 (Nat.zero_le 1)
    · simpa [he] using h.jobs u

/-- The rest of a check-in. -/
theorem Untouched.checkin (h : Untouched c s) {visited : List Nat} {total : Nat}
    (hp : s.disp.pc = .checkin visited total) (hroom : (s.disp.checkIns : Int) < intMax) :
    ∃ as t, Machine.run (Interleaving.step c) as s = some t ∧ Untouched c t ∧ t.disp.pc = .recv ∧
      t.workers = s.workers ∧ t.disp.checkIns = s.disp.checkIns + 1 ∧
      t.disp.returnQueueCheckinIdx = 0 := by
  induction hk : c.build.numWorkerThreads - visited.length generalizing s visited total with
  | zero =>
    have hm : Move c.build s.disp .endCheckin _ := .endCheckin visited total hp (by omega)
    exact ⟨_, _, Machine.run_one (Interleaving.move_step (.endCheckin _ hm)),
      { h with heap := endCheckin_inv h.heap hroom hm }, rfl, rfl, rfl, rfl⟩
  | succ k ih =>
    obtain ⟨w, hw⟩ := h.heap.exists_top
    have hlt : visited.length < c.build.numWorkerThreads := by omega
    have hm : Interleaving.Move c s .visit _ := .visit w _ hw (.visit visited total w _ _ hp hlt hw)
    obtain ⟨as, t, ht, hrest⟩ := ih (h.visit hp hlt hw hroom) rfl hroom (by
      rw [List.length_append, List.length_singleton]
      omega)
    exact ⟨_, t, Machine.run_join (Machine.run_one (Interleaving.move_step hm)) ht, hrest⟩

/-- A packet and the check-in behind it. -/
theorem Untouched.round (h : Untouched c s) (hpol : c.build.policy = .leastLoaded)
    (hp : s.disp.pc = .recv) (hidx : s.disp.returnQueueCheckinIdx = 0)
    (hlt : filled c s < c.build.numWorkerThreads * ringCapacity)
    (hroom : (s.disp.checkIns : Int) < intMax) :
    ∃ as t, Machine.run (Interleaving.step c) as s = some t ∧ Untouched c t ∧ t.disp.pc = .recv ∧
      filled c t = filled c s + 1 ∧ t.disp.checkIns = s.disp.checkIns + 1 ∧
      t.disp.returnQueueCheckinIdx = 0 := by
  have hone : maxDispatchSize c.build 1 = 1 := by
    simp [maxDispatchSize, Nat.div_self c.build.threads_pos, Nat.add_comm]
  have hrx : Move c.build s.disp (.rxBurst [Worker.request]) _ :=
    .receive [Worker.request] hp (List.cons_ne_nil _ _) (by
      have hpos := c.build.threads_pos
      simp only [List.length_singleton, rxQueueBurstSize, maxDispatchUnit]
      omega)
  rw [List.length_singleton, hone] at hrx
  have h₁ := h.setPc (.dispatch 1 [Worker.request]) (by rw [hp]; rfl)
  obtain ⟨u, hu, h₂, hpu, hfill, hcount, hidx'⟩ := h₁.enqueue hpol rfl hlt
  have hend : Move c.build u.disp .endBurst _ := .startCheckin 1 hpu (by
    rw [hidx']
    change 1 ≤ u16 (s.disp.returnQueueCheckinIdx + 1)
    rw [hidx]
    decide)
  have hcount' : u.disp.checkIns = s.disp.checkIns := hcount
  have h₃ := h₂.setPc (.checkin [] 0) (by rw [hpu]; rfl)
  obtain ⟨as, t, ht, h₄, hpt, hworkers, hcheck, hidxt⟩ := h₃.checkin rfl (by
    change (u.disp.checkIns : Int) < intMax
    omega)
  refine ⟨_, t, Machine.run_join (Machine.run_one (Interleaving.move_step (.rxBurst _ _ hrx)))
    (Machine.run_join (Machine.run_one hu)
      (Machine.run_join (Machine.run_one (Interleaving.move_step (.endBurst _ hend))) ht)),
    h₄, hpt, ?_, hcheck.trans (congrArg (· + 1) hcount'), hidxt⟩
  unfold filled at hfill ⊢
  rw [hworkers]
  exact hfill

/-- Packets arrive one by one and no worker runs, until `k` of them are on the rings. -/
theorem fills_up (c : Interleaving.Config) (hpol : c.build.policy = .leastLoaded) (k : Nat)
    (hk : k ≤ c.build.numWorkerThreads * ringCapacity) (hint : (k : Int) ≤ intMax) :
    ∃ as s, Machine.run (Interleaving.step c) as (Interleaving.init c fun _ => 0) = some s ∧
      Untouched c s ∧ s.disp.pc = .recv ∧ filled c s = k ∧ s.disp.checkIns = k ∧
      s.disp.returnQueueCheckinIdx = 0 := by
  induction k with
  | zero =>
    exact ⟨[], _, rfl, init_untouched c _, rfl, by simp [filled, Interleaving.init, Worker.init],
      rfl, rfl⟩
  | succ k ih =>
    obtain ⟨as, s, hs, hu, hp, hf, hcount, hidx⟩ := ih (by omega) (by omega)
    obtain ⟨bs, t, ht, hu', hp', hf', hcount', hidx'⟩ :=
      hu.round hpol hp hidx (by omega) (by omega)
    exact ⟨as ++ bs, t, Machine.run_join hs ht, hu', hp', by omega, by omega, hidx'⟩

/-- A packet for the worker at the top when all rings are full. -/
theorem Untouched.drop (h : Untouched c s) (hpol : c.build.policy = .leastLoaded) {m : Mbuf}
    {rxBufs : List Mbuf} (hp : s.disp.pc = .dispatch 1 (m :: rxBufs))
    (hidx : s.disp.returnQueueCheckinIdx ≤ 1)
    (hfull : filled c s = c.build.numWorkerThreads * ringCapacity) :
    ∃ w t, offered c.build 0 0 s.disp = some w ∧ (s.workers w).ring.length = ringCapacity ∧
      Interleaving.step c s (.dispatch 0 0 0) = some t ∧ t.disp.pc = .dispatch 1 rxBufs ∧
      t.workers = s.workers ∧ t.disp.checkIns = s.disp.checkIns ∧
      t.disp.returnQueueCheckinIdx = s.disp.returnQueueCheckinIdx ∧
      ∀ v, (t.disp.workerInfoVec v).numRunningJobs = (s.disp.workerInfoVec v).numRunningJobs := by
  obtain ⟨w, hw⟩ := h.heap.exists_top
  have hwn := h.heap.mem_queue.mp (List.mem_of_mem_head? hw)
  have hoff : offered c.build 0 0 s.disp = some w := by simp [offered, hpol, hw]
  have harrive : Machine.run (Worker.step c.server)
      ((Interleaving.enqueued s 0).map .arrive) (s.workers w) = some (s.workers w) := by
    simp [Interleaving.enqueued]
  refine ⟨w, _, hoff, h.all_full hfull hwn, Interleaving.move_step (.dispatch 0 0 0 w _ _
    (.dispatch 1 (m :: rxBufs) 0 0 0 w hp (List.cons_ne_nil _ _) hoff (Nat.zero_le _)) hoff
    harrive), rfl, Function.update_eq_self w _, account_checkIns w _ _, ?_, fun v => ?_⟩
  · have hsame := @account_idx c.build s.disp w 1 0 (by omega)
    exact hsame
  · change ((account c.build w 1 0 s.disp).workerInfoVec v).numRunningJobs = _
    rw [account_numRunningJobs]
    by_cases he : v = w
    · subst he
      rw [if_pos rfl, h.inInt v 0 (Nat.zero_le 1), h.jobs v]
      rfl
    · rw [if_neg he]

theorem dispatch_disp {t : Interleaving.State} {nbReturn r₁ r₂ : Nat}
    (h : Interleaving.step c s (.dispatch nbReturn r₁ r₂) = some t) :
    step c.build s.disp (.dispatch nbReturn r₁ r₂) = some t.disp := by
  cases Interleaving.step_move h with
  | dispatch _ _ _ w d u hd hw hu => exact move_step hd

/-- The dispatcher of the system does what a dispatcher does. -/
theorem run_disp {sqs : Nat → Nat} {as : List Interleaving.Act}
    (h : Machine.run (Interleaving.step c) as (Interleaving.init c sqs) = some s) :
    ∃ das, Machine.run (step c.build) das (init c.build) = some s.disp := by
  refine Machine.run_induction (P := fun _ s => ∃ das,
    Machine.run (step c.build) das (init c.build) = some s.disp) ⟨[], rfl⟩ ?_ h
  rintro _ s a t - ⟨das, hd⟩ ht
  rcases Interleaving.move_disp (Interleaving.step_move ht) with he | ⟨da, hm, -⟩
  · exact ⟨das, he ▸ hd⟩
  · exact ⟨das ++ [da], Machine.run_join hd (Machine.run_one (move_step hm))⟩

end Fill

/-- The packet that fills the last ring is followed by one that is dropped. -/
theorem drop_pulls_iff_last_place : ∃ as s s₁ u,
    Machine.run (Interleaving.step Interleaving.shipped) as
      (Interleaving.init Interleaving.shipped fun _ => 0) = some s ∧
    Machine.run (Interleaving.step Interleaving.shipped)
      [.rxBurst [Worker.request, Worker.request], .dispatch 1 0 0] s = some s₁ ∧
    (∃ w, offered shipped 0 0 s₁.disp = some w ∧ (s₁.workers w).ring.length = ringCapacity) ∧
    Interleaving.step Interleaving.shipped s₁ (.dispatch 0 0 0) = some u ∧
    ∀ rest t, Machine.run (step shipped) rest u.disp = some t → t.pc = .recv →
      s.disp.checkIns < t.checkIns := by
  obtain ⟨as, s, hs, hu, hp, hf, -, hidx⟩ := fills_up Interleaving.shipped rfl (14 * 4095 - 1)
    (by decide) (by decide)
  have hrx : Move shipped s.disp (.rxBurst [Worker.request, Worker.request])
      { s.disp with pc := .dispatch 1 [Worker.request, Worker.request] } :=
    .receive _ hp (by simp) (by decide)
  obtain ⟨s₁, hs₁, hu₁, hp₁, hf₁, -, hidx₁⟩ := (hu.setPc (.dispatch 1 _)
    (by rw [hp]; rfl)).enqueue rfl rfl (by
      change filled _ s < _
      rw [hf]
      decide)
  obtain ⟨w, u, hw, hring, hu₂, hp₂, -⟩ := hu₁.drop rfl hp₁ (by
    rw [hidx₁]
    change u16 (s.disp.returnQueueCheckinIdx + 1) ≤ 1
    rw [hidx]
    decide) (by
    rw [hf₁]
    change filled _ s + 1 = _
    rw [hf]
    rfl)
  refine ⟨as, s, s₁, u, hs, Machine.run_join
    (Machine.run_one (Interleaving.move_step (.rxBurst _ _ hrx))) (Machine.run_one hs₁),
    ⟨w, hw, hring⟩, hu₂, ?_⟩
  obtain ⟨das, hdas⟩ := run_disp hs
  have hd₁ := dispatch_disp hs₁
  have hrun : Machine.run (step shipped) ([⟨1, 0, 0⟩, ⟨0, 0, 0⟩].map Pass.act)
      { s.disp with pc := .dispatch 1 [Worker.request, Worker.request] } = some u.disp :=
    Machine.run_join (Machine.run_one hd₁) (Machine.run_one (dispatch_disp hu₂))
  refine (drop_pulls_iff shipped das [Worker.request, Worker.request]
    [⟨1, 0, 0⟩, ⟨0, 0, 0⟩] 1 s.disp
    _ u.disp hdas (by simp) (by decide) (move_step hrx) hrun hp₂).mpr (.inr fun ha => ha.1 rfl) ?_
  intro ha
  have hfits : 0 = groupSize s₁.disp.pc := (ha.2 s₁.disp hd₁).1
  rw [hp₁] at hfits
  cases hfits

/-- All rings are full, of workers that have not run since the start: a packet is dropped, and
packets are received again without a check-in, on the same numbers and with all rings still full. -/
theorem full_ring_no_pull : ∃ as s s₁ u t w,
    Machine.run (Interleaving.step Interleaving.shipped) as
      (Interleaving.init Interleaving.shipped fun _ => 0) = some s ∧
    Interleaving.step Interleaving.shipped s (.rxBurst [Worker.request]) = some s₁ ∧
    offered shipped 0 0 s₁.disp = some w ∧ (s₁.workers w).ring.length = ringCapacity ∧
    Interleaving.step Interleaving.shipped s₁ (.dispatch 0 0 0) = some u ∧
    Interleaving.step Interleaving.shipped u .endBurst = some t ∧ t.disp.pc = .recv ∧
    ¬ s.disp.checkIns < t.disp.checkIns ∧
    ∀ v, (t.disp.workerInfoVec v).numRunningJobs = (s.disp.workerInfoVec v).numRunningJobs ∧
      (v < 14 → (t.workers v).ring.length = ringCapacity) := by
  obtain ⟨as, s, hs, hu, hp, hf, -, hidx⟩ := fills_up Interleaving.shipped rfl (14 * 4095)
    (by decide) (by decide)
  have hrx : Move shipped s.disp (.rxBurst [Worker.request])
      { s.disp with pc := .dispatch 1 [Worker.request] } := .receive _ hp (by simp) (by decide)
  obtain ⟨w, u, hw, hring, hu₂, hp₂, hworkers, hcount, hidx₂, hjobs⟩ :=
    (hu.setPc (.dispatch 1 [Worker.request]) (by rw [hp]; rfl)).drop rfl rfl
      (Nat.le_trans (Nat.le_of_eq hidx) (Nat.zero_le 1)) hf
  have hend : Move shipped u.disp .endBurst { u.disp with pc := .recv } := .noCheckin 1 hp₂ (by
    rw [hidx₂]
    change ¬ 1 ≤ s.disp.returnQueueCheckinIdx
    rw [hidx]
    decide)
  refine ⟨as, s, _, u, _, w, hs, Interleaving.move_step (.rxBurst _ _ hrx), hw, hring, hu₂,
    Interleaving.move_step (.endBurst _ hend), rfl, ?_, fun v => ⟨hjobs v, fun hv => ?_⟩⟩
  · have hsame : u.disp.checkIns = s.disp.checkIns := hcount
    exact fun hlt => Nat.lt_irrefl _ (hsame ▸ hlt)
  · have hfull := hu.all_full hf hv
    have hsame : u.workers = s.workers := hworkers
    exact hsame ▸ hfull

end TinyQuanta.DropPull
