import TinyQuanta.Counters

/-!
# The check-in after `2^31 - 1` check-ins

One request at a time, each served before the next: nothing is ever dropped,
rejected or late, and every round ends with a check-in. The version numbers
nevertheless reach the largest `int`, and the next check-in pops the same worker
again and again.
-/
namespace TinyQuanta.VersionOverflow

open Params Packet Interleaving
open DispatcherHeap (visitedAt)
open WorkerLoad (Drained Own)

/-- A worker that waits for a packet. -/
structure AtRest (sv : Worker.Server) (s : Worker.State) : Prop where
  inv : WorkerSlots.Inv sv s
  head : s.pc = .head
  drained : Drained s

/-- The dispatcher waits for a burst and every worker for a packet. -/
structure Ready (c : Config) (s : State) : Prop where
  inv : DispatcherHeap.Inv c.build s.disp
  recv : s.disp.pc = .recv
  idx : s.disp.returnQueueCheckinIdx = 0
  rest : ∀ w, AtRest c.server (s.workers w)

theorem init_ready (c : Config) (sqs : Nat → Nat) : Ready c (init c sqs) where
  inv := DispatcherHeap.init_inv c.build
  recv := rfl
  idx := rfl
  rest w := ⟨WorkerSlots.init_inv c.server (sqs w), rfl, rfl, rfl, rfl⟩

/-- Steps of one worker are steps of the whole. -/
theorem run_work {c : Config} {w : Nat} (hw : w < c.build.numWorkerThreads)
    {as : List Worker.Act} (ho : Own as) {s : State} {t : Worker.State}
    (h : Machine.run (Worker.step c.server) as (s.workers w) = some t) :
    Machine.run (step c) (as.map (.work w)) s =
      some { s with workers := Function.update s.workers w t } := by
  induction as generalizing s with
  | nil =>
    cases h
    simp
  | cons a as ih =>
    obtain ⟨u, hu, ht⟩ := Option.bind_eq_some_iff.mp h
    have hstep : step c s (.work w a) = some { s with workers := Function.update s.workers w u } :=
      move_step (.work w a u hw (ho a (by simp)) (Worker.step_move hu))
    have hrec := ih (s := { s with workers := Function.update s.workers w u })
      (fun b hb => ho b (by simp [hb])) (by simpa using ht)
    simpa [hstep] using hrec

section Round

variable {c : Config} (hpol : c.build.policy = .leastLoaded)
variable {m : Mbuf} (hm : isRxMbufValid c.server.net m = true)
  (hcoros : 0 < c.server.numWorkerCoros)

theorem maxDispatchSize_one (b : Dispatcher.Build) : Dispatcher.maxDispatchSize b 1 = 1 := by
  have hpos := b.threads_pos
  have he : 1 + b.numWorkerThreads - 1 = b.numWorkerThreads := by omega
  rw [Dispatcher.maxDispatchSize, he, Nat.div_self hpos]

include hpol in
/-- A single packet is put on the ring of the worker at the top, and a check-in is due. -/
theorem dispatch_one {s : State} (h : Ready c s) :
    ∃ w d, w < c.build.numWorkerThreads ∧
      Machine.run (step c) [.rxBurst [m], .dispatch 1 0 0] s =
        some { s with
          disp := d
          workers := Function.update s.workers w (Worker.arrive m (s.workers w)) } ∧
      DispatcherHeap.Inv c.build d ∧ d.pc = .dispatch 1 [] ∧ d.returnQueueCheckinIdx = 1 ∧
      d.checkIns = s.disp.checkIns := by
  obtain ⟨w, hw⟩ := h.inv.exists_top
  have hoff : Dispatcher.offered c.build 0 0 s.disp = some w := by
    simp [Dispatcher.offered, hpol, hw]
  have hlt := h.inv.mem_queue.mp (List.mem_of_mem_head? hw)
  have hlen : [m].length ≤ rxQueueBurstSize c.build.numWorkerThreads := by
    have hpos := c.build.threads_pos
    simp only [rxQueueBurstSize, maxDispatchUnit, List.length_singleton]
    omega
  have m₁ : Dispatcher.Move c.build s.disp (.rxBurst [m]) _ := .receive [m] h.recv (by simp) hlen
  have i₁ := DispatcherHeap.move_inv h.inv m₁ (by simp [h.recv])
  rw [List.length_singleton, maxDispatchSize_one] at m₁ i₁
  have m₂ : Dispatcher.Move c.build { s.disp with pc := .dispatch 1 [m] } (.dispatch 1 0 0) _ :=
    .dispatch 1 [m] 1 0 0 w rfl (by simp) hoff (by simp)
  have i₂ := DispatcherHeap.move_inv i₁ m₂ (by simp)
  have hroom : (s.workers w).ring.length < ringCapacity := by
    simp [(h.rest w).drained.1, ringCapacity, dispatchRingSize]
  have s₁ : step c s (.rxBurst [m]) =
    some { s with disp := { s.disp with pc := .dispatch 1 [m] } } :=
    move_step (.rxBurst [m] _ m₁)
  have s₂ := move_step (c := c) (.dispatch 1 0 0 w _ (Worker.arrive m (s.workers w)) m₂ hoff
    (s := { s with disp := { s.disp with pc := .dispatch 1 [m] } })
    (by simp [enqueued, group, Worker.step, hroom]))
  refine ⟨w, _, hlt, ?_, i₂, by simp, ?_, DispatcherHeap.account_checkIns _ _ _⟩
  · exact Machine.run_join (Machine.run_one s₁) (Machine.run_one s₂)
  · have hidx := Dispatcher.account_returnQueueCheckinIdx c.build w 1
      { s.disp with pc := .dispatch 1 [m] }
    simpa [h.idx, u16] using hidx

include hm hcoros in
/-- That worker serves it. -/
theorem serve_dispatched {s : State} {w : Nat} (hw : w < c.build.numWorkerThreads)
    (hrest : AtRest c.server (s.workers w)) (d : Dispatcher.State) :
    ∃ as t, Machine.run (step c) as
        { s with disp := d
                 workers := Function.update s.workers w (Worker.arrive m (s.workers w)) } =
      some { s with disp := d, workers := Function.update s.workers w t } ∧ AtRest c.server t := by
  have hmove : Worker.Move c.server (s.workers w) (.arrive m) (Worker.arrive m (s.workers w)) :=
    .arrive m (by simp [hrest.drained.1, ringCapacity, dispatchRingSize])
  have hi := WorkerSlots.move_inv hrest.inv hmove
  have hring : (Worker.arrive m (s.workers w)).ring = [⟨(s.workers w).arrived, m⟩] := by
    simp [Worker.arrive, hrest.drained.1]
  obtain ⟨as, t, ho, hrun, hp, hd⟩ :=
    WorkerLoad.serve_one hi hcoros hrest.head hrest.drained.2.2 hring hm
  have hit : WorkerSlots.Inv c.server t :=
    Machine.run_induction (P := fun _ t => WorkerSlots.Inv c.server t) hi
      (fun _ _ _ _ _ h ht => WorkerSlots.move_inv h (Worker.step_move ht)) hrun
  refine ⟨as.map (.work w), t, ?_, hit, hp, hd⟩
  have hlift := run_work hw ho (s := { s with
    disp := d, workers := Function.update s.workers w (Worker.arrive m (s.workers w)) })
    (by simpa using hrun)
  simpa using hlift

theorem checkin_due {b : Dispatcher.Build} {d : Dispatcher.State} (hp : d.pc = .dispatch 1 [])
    (hidx : d.returnQueueCheckinIdx = 1) :
    Dispatcher.Move b d .endBurst { d with pc := .checkin [] 0 } :=
  .startCheckin 1 hp (by rw [hidx]; decide)

theorem start_checkin {d : Dispatcher.State} (hp : d.pc = .dispatch 1 [])
    (hidx : d.returnQueueCheckinIdx = 1) (ws : Nat → Worker.State) (r : Nat → Nat) :
    Machine.run (step c) [.endBurst] ⟨d, ws, r⟩ = some ⟨{ d with pc := .checkin [] 0 }, ws, r⟩ := by
  have hm : Move c ⟨d, ws, r⟩ .endBurst _ := .endBurst _ (checkin_due hp hidx)
  exact Machine.run_one (move_step hm)

/-- In a check-in, the worker at the top is visited next. -/
theorem visit_next {d : Dispatcher.State} {visited : List Nat} {total w : Nat}
    (hp : d.pc = .checkin visited total) (hlt : visited.length < c.build.numWorkerThreads)
    (hw : d.workerQueue.head? = some w) (ws : Nat → Worker.State) (r : Nat → Nat) :
    ∃ n q r', Machine.run (step c) [.visit] ⟨d, ws, r⟩ =
      some ⟨Dispatcher.visitTop c.build visited total w n q d, ws, r'⟩ := by
  have hm : Move c ⟨d, ws, r⟩ .visit _ := .visit w _ hw (.visit visited total w _ _ hp hlt hw)
  refine ⟨(ws w).currSize, (ws w).currSq,
    Function.update r w (WorkerLoad.numFinished (ws w)), ?_⟩
  exact Machine.run_one (move_step hm)

/-- A check-in that has begun can be carried through. -/
theorem finish_checkin {d : Dispatcher.State} (h : DispatcherHeap.Inv c.build d)
    (hroom : (d.checkIns : Int) < intMax) {visited : List Nat} {total : Nat}
    (hp : d.pc = .checkin visited total) (ws : Nat → Worker.State) (r : Nat → Nat) :
    ∃ as d' r', Machine.run (step c) as ⟨d, ws, r⟩ = some ⟨d', ws, r'⟩ ∧
      DispatcherHeap.Inv c.build d' ∧ d'.pc = .recv ∧ d'.returnQueueCheckinIdx = 0 ∧
      d'.checkIns = d.checkIns + 1 := by
  generalize hk : c.build.numWorkerThreads - visited.length = k
  induction k generalizing d visited total r with
  | zero =>
    have hlt : ¬ visited.length < c.build.numWorkerThreads := by omega
    have hd := Dispatcher.Move.endCheckin (b := c.build) visited total hp hlt
    have hm : Move c ⟨d, ws, r⟩ .endCheckin _ := .endCheckin _ hd
    refine ⟨[.endCheckin], _, r, ?_, DispatcherHeap.endCheckin_inv h hroom hd, rfl, rfl, rfl⟩
    exact Machine.run_one (move_step hm)
  | succ k ih =>
    have hlt : visited.length < c.build.numWorkerThreads := by omega
    obtain ⟨w, hw⟩ := h.exists_top
    obtain ⟨n, q, r₁, hvisit⟩ := visit_next hp hlt hw ws r
    have hi := DispatcherHeap.visit_inv h hp hlt hw hroom n q
    obtain ⟨as, d', r', hrun, hd'⟩ := ih hi hroom rfl r₁ (by
      simp only [List.length_append, List.length_singleton]
      omega)
    exact ⟨_, d', r', Machine.run_join hvisit hrun, hd'⟩

include hpol hm hcoros in
/-- One request, served, and one check-in. -/
theorem round {s : State} (h : Ready c s) (hroom : (s.disp.checkIns : Int) < intMax) :
    ∃ as t, Machine.run (step c) as s = some t ∧ Ready c t ∧
      t.disp.checkIns = s.disp.checkIns + 1 := by
  obtain ⟨w, d, hw, hrun, hi, hp, hidx, hcount⟩ := @dispatch_one c hpol m s h
  obtain ⟨bs, u, hserve, hrest⟩ := serve_dispatched hm hcoros hw (h.rest w) d
  have hi' := DispatcherHeap.move_inv hi (checkin_due hp hidx) (by simp [hp])
  have hend := start_checkin (c := c) hp hidx (Function.update s.workers w u) s.readAt
  obtain ⟨cs, d', r, hfinish, hi'', hp', hidx', hcount'⟩ :=
    finish_checkin hi' (by simpa [hcount] using hroom) rfl (Function.update s.workers w u) s.readAt
  refine ⟨_, _, Machine.run_join (Machine.run_join hrun hserve) (Machine.run_join hend hfinish),
    ⟨hi'', hp', hidx', fun v => ?_⟩, ?_⟩
  · by_cases hv : v = w
    · subst hv
      simpa using hrest
    · simpa [hv] using h.rest v
  · simpa [hcount] using hcount'

include hpol hm hcoros in
/-- The server can get to the last check-in there is room for. -/
theorem reach_checkIns (sqs : Nat → Nat) (n : Nat) (hn : (n : Int) ≤ intMax) :
    ∃ as s, Machine.run (step c) as (init c sqs) = some s ∧ Ready c s ∧ s.disp.checkIns = n := by
  induction n with
  | zero => exact ⟨[], _, rfl, init_ready c sqs, rfl⟩
  | succ n ih =>
    have hlt : (n : Int) < intMax := by omega
    obtain ⟨as, s, hrun, hready, hcount⟩ := ih (by omega)
    obtain ⟨bs, t, hrun', hready', hcount'⟩ :=
      round hpol hm hcoros hready (by rw [hcount]; exact hlt)
    exact ⟨as ++ bs, t, Machine.run_join hrun hrun', hready', by omega⟩

/-- A popped worker whose version wraps around is at the top again. -/
theorem wrapped_on_top (hint : c.build.int = int32) {d : Dispatcher.State}
    (h : DispatcherHeap.Inv c.build d) (hcount : (d.checkIns : Int) = intMax)
    (hv : visitedAt d.pc = []) {w : Nat} (hw : d.workerQueue.head? = some w)
    (visited : List Nat) (total n q : Nat) :
    (Dispatcher.visitTop c.build visited total w n q d).workerQueue.head? = some w ∧
      ((Dispatcher.visitTop c.build visited total w n q d).workerInfoVec w).versionNumber =
        intMin := by
  generalize he : Dispatcher.visitTop c.build visited total w n q d = d'
  have hver : ∀ u < c.build.numWorkerThreads, (d'.workerInfoVec u).versionNumber =
      if u = w then intMin else intMax := by
    intro u hu
    have hsame := DispatcherHeap.same_version h hv hu
    rw [h.current, hcount] at hsame
    subst he
    rw [Dispatcher.visitTop_versionNumber, hsame, hint]
    by_cases huw : u = w
    · subst huw
      rw [if_pos rfl, if_pos rfl, hsame, int32_overflow]
    · rw [if_neg huw, if_neg huw]
  have hperm : d'.workerQueue.Perm (List.range c.build.numWorkerThreads) := by
    subst he
    exact (DispatcherHeap.requeue_perm hw _).trans h.queue
  have hord : DispatcherHeap.HeapOrdered DispatcherHeap.versionAbove d' := by
    subst he
    exact DispatcherHeap.requeue_ordered (DispatcherHeap.versionAbove_decides _) h.nodup hw _
      h.versions
  have hwlt := h.mem_queue.mp (List.mem_of_mem_head? hw)
  have hwmem : w ∈ d'.workerQueue := hperm.mem_iff.mpr (List.mem_range.mpr hwlt)
  obtain ⟨u, hu⟩ : ∃ u, d'.workerQueue.head? = some u := by
    cases hq : d'.workerQueue with
    | nil => simp [hq] at hwmem
    | cons u l => exact ⟨u, rfl⟩
  have hult := List.mem_range.mp (hperm.mem_iff.mp (List.mem_of_mem_head? hu))
  have hle := DispatcherHeap.top_is_above (DispatcherHeap.versionAbove_decides c.build.msq) hord hu
    hwmem
  unfold DispatcherHeap.versionAbove at hle
  rw [hver u hult, hver w hwlt, if_pos rfl] at hle
  by_cases huw : u = w
  · exact ⟨huw ▸ hu, by rw [hver w hwlt, if_pos rfl]⟩
  · rw [if_neg huw] at hle
    exact absurd hle (by decide)

end Round

/-- A run of the shipped server in which every packet is valid and served at once: in the
check-in after `2^31 - 1` of them a worker has been popped twice, and its version number is not
the current one. -/
theorem checkin_pops_same_worker :
    ∃ as s w total, Machine.run (step shipped) as (init shipped fun _ => 0) = some s ∧
      s.disp.pc = .checkin [w, w] total ∧ s.disp.curVersionNumber = intMax ∧
      (s.disp.workerInfoVec w).versionNumber ≠ s.disp.curVersionNumber := by
  have hvalid : isRxMbufValid shipped.server.net Worker.request = true := by decide
  obtain ⟨as, s, hrun, hready, hcount⟩ :=
    reach_checkIns (c := shipped) rfl hvalid (by decide) (fun _ => 0) 2147483647 (by decide)
  obtain ⟨_, d, _, hdispatch, hi, hp, hidx, hcount'⟩ :=
    dispatch_one (m := Worker.request) rfl hready
  generalize hws : Function.update s.workers _ _ = ws at hdispatch
  have hstart := start_checkin (c := shipped) hp hidx ws s.readAt
  have hi' := DispatcherHeap.move_inv hi (checkin_due hp hidx) (by simp [hp])
  have hmax : (d.checkIns : Int) = intMax := by rw [hcount', hcount]; rfl
  obtain ⟨w, hw⟩ := hi'.exists_top
  obtain ⟨n, q, r, hfirst⟩ := visit_next (c := shipped) rfl (by decide) hw ws s.readAt
  obtain ⟨hw', hver⟩ := wrapped_on_top rfl hi' hmax rfl hw [] 0 n q
  obtain ⟨n', q', r', hsecond⟩ := visit_next (c := shipped) rfl (by simp; decide) hw' ws r
  refine ⟨_, _, w, _, Machine.run_join (Machine.run_join hrun hdispatch)
    (Machine.run_join hstart (Machine.run_join hfirst hsecond)), rfl, ?_, ?_⟩
  · exact hi'.current.trans hmax
  · rw [Dispatcher.visitTop_versionNumber, if_pos rfl, hver]
    intro he
    have hne : int32 (intMin + 1) = intMax := he.trans (hi'.current.trans hmax)
    exact absurd hne (by decide)

end TinyQuanta.VersionOverflow
