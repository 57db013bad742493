import TinyQuanta.WorkerSlots

/-!
# Waiting for a turn

New jobs are put in front of the deque, before jobs that have waited longer. A turn is
one resumption of a coroutine. How long a busy coroutine waits for its next turn depends
on how many coroutines there are: up to the dequeue period, it is reached before the next
jobs come in; with more of them, jobs that keep coming in can stay before it.
-/
namespace TinyQuanta.WorkerFairness

open Params Packet Worker
open WorkerSlots (Inv reachable_inv length_slots)

def Event.turn : Event → List Nat
  | .preempted c => [c]
  | .finished c _ _ => [c]
  | _ => []

/-- The coroutines that have been resumed, in order. -/
def turns (s : State) : List Nat := s.log.flatMap Event.turn

variable {sv : Server} {s t : State} {a : Act}

theorem reachable_run (h : Reachable sv s) {as : List Act}
    (hrun : Machine.run (step sv) as s = some t) :
    Reachable sv t := by
  obtain ⟨sq, bs, hs⟩ := h
  exact ⟨sq, bs ++ as, Machine.run_join hs hrun⟩

theorem reachable_move (h : Reachable sv s) (m : Move sv s a t) : Reachable sv t :=
  reachable_run h (Machine.run_one (move_step m))

/-- What a step does to the deque and the dequeue counter. -/
inductive TurnStep (s t : State) : Prop where
  | turn (c : Nat) (rest : List Nat) (hp : s.pc = .head) (hb : s.busyCoros = c :: rest)
    (ht : turns t = turns s ++ [c]) (hpc : t.pc = .dispatch)
      (hd : t.dispatchIndex = u16 (s.dispatchIndex + 1))
    (hb' : t.busyCoros = rest ++ [c] ∨ t.busyCoros = rest)
  | stay (ht : turns t = turns s) (hb : t.busyCoros = s.busyCoros)
      (hd : t.dispatchIndex = s.dispatchIndex)
    (hpc : t.pc = .handle ↔ s.pc = .handle)
  | dequeue (ht : turns t = turns s) (hb : t.busyCoros = s.busyCoros) (hpc : t.pc = .handle)
    (hs : s.forceDispatch = true ∨ dispatchRingDequeuePeriod ≤ s.dispatchIndex)
      (hd : s.pc = .dispatch)
  | bind (c : Nat) (ht : turns t = turns s) (hb : t.busyCoros = c :: s.busyCoros)
      (hs : s.pc = .handle)
    (hpc : t.pc = .handle)
  | handled (ht : turns t = turns s) (hb : t.busyCoros = s.busyCoros) (hd : t.dispatchIndex = 0)
    (hs : s.pc = .handle) (hpc : t.pc = .transmit)

attribute [local simp] turns Event.turn in
theorem move_turns (m : Move sv s a t) : TurnStep s t := by
  cases m with
  | preempt c rest hp hb => exact .turn c rest hp hb (by simp) rfl rfl (.inl rfl)
  | finish c rest hp hb => exact .turn c rest hp hb (by simp) rfl rfl (.inr rfl)
  | dequeue hp hd => exact .dequeue (by simp) rfl rfl (hd.imp_right And.left) hp
  | handled hp hr => exact .handled rfl rfl rfl hp rfl
  | bind rx rest c idle hp hr hv hi => exact .bind c (by simp) rfl hp hp
  | arrive m room => exact .stay rfl rfl rfl .rfl
  | idle r hp hb | wait hp hd | hold nbTx hp ht | defer hp hf =>
    exact .stay rfl rfl rfl (by simp [hp])
  | keep rx rest hp hr hv room | lose rx rest hp hr hv full => exact .stay (by simp) rfl rfl .rfl
  | send nbTx hp ht hn | free hp hf => exact .stay (by simp) rfl rfl (by simp [hp])

theorem turns_append (m : Move sv s a t) : ∃ l, turns t = turns s ++ l := by
  cases move_turns m with
  | turn c rest hp hb ht hpc hd hb' => exact ⟨[c], ht⟩
  | stay ht | dequeue ht | bind c ht | handled ht => exact ⟨[], by rw [ht, List.append_nil]⟩

/-- Between the first two stages the flag tells whether there is a job. -/
theorem forced_iff_empty (h : Reachable sv s) (hp : s.pc = .dispatch) :
    s.forceDispatch = true ↔ s.busyCoros = [] := by
  revert hp
  refine reachable_invariant (P := fun s => s.pc = .dispatch →
    (s.forceDispatch = true ↔ s.busyCoros = [])) ?_ ?_ h
  · intro sq hp
    cases hp
  · intro s a t hs m
    cases m with
    | arrive m room => exact hs
    | idle r hp hb => exact fun _ => iff_of_true rfl hb
    | preempt c rest hp hb => exact fun _ => iff_of_false (by simp) (by simp)
    | finish c rest hp hb => exact fun _ => List.isEmpty_iff
    | keep rx rest hp hr hv room => exact fun hd => by cases hp.symm.trans hd
    | lose rx rest hp hr hv full => exact fun hd => by cases hp.symm.trans hd
    | bind rx rest c idle hp hr hv hi => exact fun hd => by cases hp.symm.trans hd
    | _ => exact fun hd => by cases hd

/-! ## Few coroutines -/

/-- How many turns of others a busy coroutine still has to wait for, at most: those before it in the
deque, and once more as many as there can be, if jobs can come in before it is reached. -/
def patience (sv : Server) (c : Nat) (s : State) : Nat :=
  if s.pc = .handle then sv.numWorkerCoros - 1
  else if s.dispatchIndex + s.busyCoros.idxOf c < dispatchRingDequeuePeriod then s.busyCoros.idxOf c
  else s.busyCoros.idxOf c + (sv.numWorkerCoros - 1)

theorem idxOf_busy_le (h : Reachable sv s) {c : Nat} (hc : c ∈ s.busyCoros) :
    s.busyCoros.idxOf c ≤ sv.numWorkerCoros - 1 := by
  have hlt := List.idxOf_lt_length_of_mem hc
  have hlen := length_slots (reachable_inv h)
  omega

theorem patience_le (h : Reachable sv s) {c : Nat} (hc : c ∈ s.busyCoros) :
    patience sv c s ≤ 2 * (sv.numWorkerCoros - 1) := by
  have hidx := idxOf_busy_le h hc
  unfold patience
  split
  · omega
  · split <;> omega

/-- A turn of another coroutine brings this one nearer to the front. -/
theorem idxOf_turn {c d : Nat} {rest busy : List Nat} (hne : d ≠ c) (hc : c ∈ d :: rest)
    (hb : busy = rest ++ [d] ∨ busy = rest) :
    c ∈ busy ∧ busy.idxOf c + 1 = (d :: rest).idxOf c := by
  have hmem : c ∈ rest := (List.mem_cons.mp hc).resolve_left hne.symm
  rw [List.idxOf_cons_ne _ hne]
  rcases hb with rfl | rfl
  · rw [List.idxOf_append_of_mem hmem]
    exact ⟨List.mem_append_left _ hmem, rfl⟩
  · exact ⟨hmem, rfl⟩

/-- Every step that is not a turn of `c` leaves it waiting, and a turn takes one from its
patience. -/
theorem patience_step (hK : sv.numWorkerCoros ≤ dispatchRingDequeuePeriod) (h : Reachable sv s)
    (m : Move sv s a t) {c : Nat} (hc : c ∈ s.busyCoros) :
    (turns t = turns s ∧ c ∈ t.busyCoros ∧ patience sv c t ≤ patience sv c s) ∨
      ∃ d, turns t = turns s ++ [d] ∧ (d = c ∨ c ∈ t.busyCoros ∧
        patience sv c t + 1 ≤ patience sv c s) := by
  have hidx := idxOf_busy_le h hc
  cases move_turns m with
  | turn d rest hp hb ht hpc hd hb' =>
    refine .inr ⟨d, ht, ?_⟩
    by_cases hdc : d = c
    · exact .inl hdc
    · obtain ⟨hmem, hnext⟩ := idxOf_turn hdc (hb ▸ hc) hb'
      refine .inr ⟨hmem, ?_⟩
      have hle : u16 (s.dispatchIndex + 1) ≤ s.dispatchIndex + 1 := Nat.mod_le _ _
      simp only [patience, hpc, hp, hd, reduceCtorEq, if_false, hb, ← hnext]
      split <;> split <;> omega
  | stay ht hb hd hpc =>
    refine .inl ⟨ht, hb ▸ hc, ?_⟩
    simp only [patience, hb, hd, hpc, Nat.le_refl]
  | dequeue ht hb hpc hs hd =>
    refine .inl ⟨ht, hb ▸ hc, ?_⟩
    have hfar : dispatchRingDequeuePeriod ≤ s.dispatchIndex := hs.resolve_left fun hf => by
      rw [(forced_iff_empty h hd).mp hf] at hc
      cases hc
    simp only [patience, hpc, hd, reduceCtorEq, if_true, if_false]
    rw [if_neg (by omega)]
    omega
  | bind d ht hb hs hpc =>
    refine .inl ⟨ht, hb ▸ List.mem_cons_of_mem _ hc, ?_⟩
    simp only [patience, hs, hpc, if_true, Nat.le_refl]
  | handled ht hb hd hs hpc =>
    refine .inl ⟨ht, hb ▸ hc, ?_⟩
    -- the deque has at most as many coroutines as the period has turns
    have hpos : 0 < sv.numWorkerCoros := by
      have hlen := length_slots (reachable_inv h)
      have := List.length_pos_of_mem hc
      omega
    simp only [patience, hs, hpc, hd, hb, reduceCtorEq, if_true, if_false, Nat.zero_add]
    rw [if_pos (by omega)]
    exact hidx

/-- With few coroutines: the turns until a busy one is resumed. -/
theorem wait_le (hK : sv.numWorkerCoros ≤ dispatchRingDequeuePeriod) (h : Reachable sv s) {c : Nat}
    (hc : c ∈ s.busyCoros) {as : List Act} (hrun : Machine.run (step sv) as s = some t) :
    ∃ l, turns t = turns s ++ l ∧ (c ∈ l ∨ l.length ≤ 2 * (sv.numWorkerCoros - 1)) := by
  have key : Reachable sv t ∧ ∃ l, turns t = turns s ++ l ∧
      (c ∈ l ∨ c ∈ t.busyCoros ∧ l.length + patience sv c t ≤ patience sv c s) := by
    refine Machine.run_induction (P := fun _ t => Reachable sv t ∧ ∃ l, turns t = turns s ++ l ∧
      (c ∈ l ∨ c ∈ t.busyCoros ∧ l.length + patience sv c t ≤ patience sv c s)) ?_ ?_ hrun
    · exact ⟨h, [], (List.append_nil _).symm, .inr ⟨hc, Nat.le_of_eq (Nat.zero_add _)⟩⟩
    · rintro - u a v - ⟨hu, l, hl, hw⟩ hstep
      have m := step_move hstep
      refine ⟨reachable_move hu m, ?_⟩
      rcases hw with hmem | ⟨hmem, hle⟩
      · obtain ⟨e, he⟩ := turns_append m
        exact ⟨l ++ e, by rw [he, hl, List.append_assoc], .inl (List.mem_append_left _ hmem)⟩
      · rcases patience_step hK hu m hmem with ⟨ht, hc', hle'⟩ | ⟨d, ht, hd | ⟨hc', hle'⟩⟩
        · exact ⟨l, ht.trans hl, .inr ⟨hc', by omega⟩⟩
        · exact ⟨l ++ [d], by rw [ht, hl, List.append_assoc], .inl (by simp [hd])⟩
        · refine ⟨l ++ [d], by rw [ht, hl, List.append_assoc], .inr ⟨hc', ?_⟩⟩
          rw [List.length_append, List.length_singleton]
          omega
  obtain ⟨-, l, hl, hmem | ⟨hmem, hle⟩⟩ := key
  · exact ⟨l, hl, .inl hmem⟩
  · exact ⟨l, hl, .inr (Nat.le_trans (Nat.le_of_add_right_le hle) (patience_le h hc))⟩

/-! ## Many coroutines -/

/-- A UDP packet for the server. -/
def requestFor (net : Net) : Mbuf where
  data i :=
    if i < 6 then net.myEth i
    else if i = 12 then 8
    else if i = etherHdrLen + 9 then 17
    else if etherHdrLen + 16 ≤ i then (be32 net.myIp).getD (i - (etherHdrLen + 16)) 0
    else 0
  dataLen := 90

theorem valid_requestFor (net : Net) : isRxMbufValid net (requestFor net) = true := by
  simp [isRxMbufValid, checkEthHdr, checkIpHdr, Packet.read, requestFor, be16, be32, etherHdrLen,
    List.range_succ]
  decide

/-- The jobs and the dequeue counter are as they were. -/
structure SameJobs (s t : State) : Prop where
  busy : t.busyCoros = s.busyCoros
  idle : t.idleCoros = s.idleCoros
  ring : t.ring = s.ring
  index : t.dispatchIndex = s.dispatchIndex
  turns : turns t = turns s

/-- The last two stages of an iteration. The NIC takes all buffers. -/
theorem run_flush (sv : Server) (hp : s.pc = .transmit) :
    ∃ as t, Machine.run (step sv) as s = some t ∧ t.pc = .head ∧ SameJobs s t := by
  obtain ⟨u, hu, hpu, hsu⟩ : ∃ u, Move sv s (.transmit s.txBufs.length) u ∧ u.pc = .giveBack ∧
      SameJobs s u := by
    by_cases ht : txReady s
    · exact ⟨_, .send _ hp ht (Nat.le_refl _), rfl, rfl, rfl, rfl, rfl,
        by simp [WorkerFairness.turns, Event.turn]⟩
    · exact ⟨_, .hold _ hp ht, rfl, rfl, rfl, rfl, rfl, rfl⟩
  obtain ⟨t, ht, hpt, hst⟩ : ∃ t, Move sv u .giveBack t ∧ t.pc = .head ∧ SameJobs u t := by
    by_cases hf : u.forceFlush = true ∨ u.returnRxBufs.length = returnRingBurstSize
    · exact ⟨_, .free hpu hf, rfl, rfl, rfl, rfl, rfl, by simp [WorkerFairness.turns, Event.turn]⟩
    · exact ⟨_, .defer hpu hf, rfl, rfl, rfl, rfl, rfl, rfl⟩
  refine ⟨_, t, Machine.run_join (Machine.run_one (move_step hu)) (Machine.run_one (move_step ht)),
    hpt, ?_⟩
  exact ⟨hst.busy.trans hsu.busy, hst.idle.trans hsu.idle, hst.ring.trans hsu.ring,
    hst.index.trans hsu.index, hst.turns.trans hsu.turns⟩

/-- The coroutine at the front finishes its job. -/
theorem run_finish (sv : Server) {x y : Nat} {rest : List Nat} (hp : s.pc = .head)
    (hb : s.busyCoros = x :: y :: rest) :
    ∃ t, Move sv s (.resume .completed) t ∧ t.pc = .dispatch ∧ t.forceDispatch = false ∧
      t.busyCoros = y :: rest ∧
      t.idleCoros = s.idleCoros ++ [x] ∧ t.ring = s.ring ∧
        t.dispatchIndex = u16 (s.dispatchIndex + 1) ∧
      turns t = turns s ++ [x] :=
  ⟨_, .finish x (y :: rest) hp hb, rfl, rfl, rfl, rfl, rfl, rfl, by simp [turns, Event.turn]⟩

/-- A job finishes before the period is up. -/
theorem run_turn (sv : Server) {x y : Nat} {rest : List Nat} (hp : s.pc = .head)
    (hb : s.busyCoros = x :: y :: rest)
    (hd : s.dispatchIndex + 1 < dispatchRingDequeuePeriod) :
    ∃ as t, Machine.run (step sv) as s = some t ∧ t.pc = .head ∧ t.busyCoros = y :: rest ∧
      t.idleCoros = s.idleCoros ++ [x] ∧ t.ring = s.ring ∧ t.dispatchIndex = s.dispatchIndex + 1 ∧
      turns t = turns s ++ [x] := by
  obtain ⟨u, hu, hpu, hforce, hbu, hiu, hru, hdu, htu⟩ := run_finish sv hp hb
  have hd' : u.dispatchIndex = s.dispatchIndex + 1 := by
    rw [hdu]
    simp only [dispatchRingDequeuePeriod] at hd
    unfold u16
    omega
  have hwait : ¬ dispatchReady u := by
    rintro (hf | ⟨hle, -⟩)
    · rw [hforce] at hf
      cases hf
    · omega
  obtain ⟨as, t, ht, hpt, hst⟩ := run_flush sv (s := { u with pc := .transmit }) rfl
  refine ⟨[.resume .completed, .dispatch] ++ as, t, ?_, hpt, hst.busy.trans hbu, hst.idle.trans hiu,
    hst.ring.trans hru, hst.index.trans hd', hst.turns.trans htu⟩
  refine Machine.run_join ?_ ht
  exact Machine.run_join (Machine.run_one (move_step hu))
    (Machine.run_one (move_step (.wait hpu hwait)))

/-- Several jobs finish before the period is up. -/
theorem run_turns (sv : Server) {xs : List Nat} {y : Nat} {rest : List Nat} (hp : s.pc = .head)
    (hb : s.busyCoros = xs ++ y :: rest)
    (hd : s.dispatchIndex + xs.length < dispatchRingDequeuePeriod) :
    ∃ as t, Machine.run (step sv) as s = some t ∧ t.pc = .head ∧ t.busyCoros = y :: rest ∧
      t.idleCoros = s.idleCoros ++ xs ∧ t.ring = s.ring ∧
        t.dispatchIndex = s.dispatchIndex + xs.length ∧
      turns t = turns s ++ xs := by
  induction xs generalizing s with
  | nil => exact ⟨[], s, rfl, hp, hb, (List.append_nil _).symm, rfl, rfl, (List.append_nil _).symm⟩
  | cons x xs ih =>
    obtain ⟨z, zs, hz⟩ : ∃ z zs, xs ++ y :: rest = z :: zs := List.exists_cons_of_ne_nil (by simp)
    rw [List.length_cons] at hd
    obtain ⟨as, u, hu, hpu, hbu, hiu, hru, hdu, htu⟩ := run_turn sv hp
      (hb.trans (congrArg (x :: ·) hz)) (by omega)
    obtain ⟨bs, t, ht, hpt, hbt, hit, hrt, hdt, htt⟩ := ih hpu (hbu.trans hz.symm) (by omega)
    refine ⟨_, t, Machine.run_join hu ht, hpt, hbt, ?_, hrt.trans hru, ?_, ?_⟩
    · rw [hit, hiu, List.append_assoc, List.singleton_append]
    · rw [hdt, hdu, List.length_cons]
      omega
    · rw [htt, htu, List.append_assoc, List.singleton_append]

/-- Valid packets get the coroutines they find idle, in front of the others. -/
theorem run_handle (sv : Server) (hp : s.pc = .handle)
    (hv : ∀ rx ∈ s.rxBufs, isRxMbufValid sv.net rx.mbuf = true)
    (hlen : s.rxBufs.length ≤ s.idleCoros.length) :
    ∃ as t, Machine.run (step sv) as s = some t ∧ t.pc = .transmit ∧ t.ring = s.ring ∧
      t.dispatchIndex = 0 ∧
      turns t = turns s ∧ ∃ cs, cs.length = s.rxBufs.length ∧ t.busyCoros = cs ++ s.busyCoros := by
  generalize hr : s.rxBufs = rxs at hv hlen
  induction rxs using List.reverseRecOn generalizing s with
  | nil => exact ⟨_, _, Machine.run_one (move_step (.handled hp hr)), rfl, rfl, rfl, rfl, [], rfl,
      rfl⟩
  | append_singleton rest rx ih =>
    have hne : s.idleCoros ≠ [] := by
      intro h
      simp [h] at hlen
    obtain ⟨idle, c, hi⟩ : ∃ idle c, s.idleCoros = idle ++ [c] :=
      ⟨_, _, (List.dropLast_append_getLast hne).symm⟩
    obtain ⟨u, m, hpu, hrx, hiu, hbu, hru, htu⟩ : ∃ u, Move sv s .handle u ∧ u.pc = .handle ∧
      u.rxBufs = rest ∧
        u.idleCoros = idle ∧ u.busyCoros = c :: s.busyCoros ∧ u.ring = s.ring ∧ turns u = turns s :=
      ⟨_, .bind rx rest c idle hp hr (hv rx (by simp)) hi, hp, rfl, rfl, rfl, rfl,
        by simp [turns, Event.turn]⟩
    obtain ⟨as, t, ht, hpt, hring, hd, hturns, cs, hcs, hb⟩ := ih hpu hrx
      (fun r hm => hv r (List.mem_append_left _ hm)) (by simpa [hi, hiu] using hlen)
    refine ⟨_, t, Machine.run_join (Machine.run_one (move_step m)) ht, hpt, hring.trans hru, hd,
      hturns.trans htu, cs ++ [c], ?_, ?_⟩
    · simp [hcs]
    · simp [hb, hbu]

/-- A dequeue that takes all there is. -/
theorem run_dequeue (sv : Server) (hp : s.pc = .dispatch) (hd : dispatchReady s)
    (hv : ∀ rx ∈ s.ring, isRxMbufValid sv.net rx.mbuf = true)
    (hlen : s.ring.length ≤ s.idleCoros.length)
    (hcap : s.ring.length ≤ ringCapacity) :
    ∃ as t, Machine.run (step sv) as s = some t ∧ t.pc = .head ∧ t.ring = [] ∧ t.dispatchIndex = 0 ∧
      turns t = turns s ∧ ∃ cs, cs.length = s.ring.length ∧ t.busyCoros = cs ++ s.busyCoros := by
  have hburst : burst s = s.ring.length := Nat.min_eq_right hlen
  have hu : u16 s.ring.length = s.ring.length :=
    Nat.mod_eq_of_lt (Nat.lt_of_le_of_lt hcap (by decide))
  have m : Move sv s .dispatch _ := .dequeue hp hd
  rw [hburst, hu, List.take_length, List.drop_length] at m
  obtain ⟨as, u, hu, hpu, hring, hdu, hturns, cs, hcs, hb⟩ := run_handle sv (s := { s with
    rxBufs := s.ring, ring := [], pc := .handle, log := s.log ++ [.dequeued s.ring] }) rfl hv hlen
  obtain ⟨bs, t, ht, hpt, hst⟩ := run_flush sv hpu
  refine ⟨_, t, Machine.run_join (Machine.run_join (Machine.run_one (move_step m)) hu) ht, hpt,
    hst.ring.trans hring, hst.index.trans hdu, (hst.turns.trans hturns).trans ?_, cs, hcs,
    hst.busy.trans hb⟩
  simp [turns, Event.turn]

/-- Packets for the server come in. -/
theorem run_arrivals (sv : Server) (n : Nat) (hn : s.ring.length + n ≤ ringCapacity)
    (hv : ∀ rx ∈ s.ring, isRxMbufValid sv.net rx.mbuf = true) :
    ∃ as t, Machine.run (step sv) as s = some t ∧ t.pc = s.pc ∧
      SameJobs { s with ring := t.ring } t ∧
      t.ring.length = s.ring.length + n ∧ ∀ rx ∈ t.ring, isRxMbufValid sv.net rx.mbuf = true := by
  induction n with
  | zero => exact ⟨[], s, rfl, rfl, ⟨rfl, rfl, rfl, rfl, rfl⟩, rfl, hv⟩
  | succ n ih =>
    obtain ⟨as, t, ht, hp, hst, hlen, hvt⟩ := ih (by omega)
    have m : Move sv t _ _ := .arrive (requestFor sv.net) (by omega)
    refine ⟨_, _, Machine.run_join ht (Machine.run_one (move_step m)), hp, ?_, ?_, ?_⟩
    · exact ⟨hst.busy, hst.idle, rfl, hst.index, hst.turns⟩
    · simp [arrive, hlen]
      omega
    · simp only [arrive, List.mem_append, List.mem_singleton]
      rintro rx (hm | rfl)
      · exact hvt rx hm
      · exact valid_requestFor sv.net

/-- `c` waits behind as many jobs as the period has turns. -/
structure Starving (sv : Server) (c : Nat) (s : State) : Prop where
  reachable : Reachable sv s
  head : s.pc = .head
  ring : s.ring = []
  index : s.dispatchIndex = 0
  behind : ∃ cs, cs.length = dispatchRingDequeuePeriod ∧ s.busyCoros = cs ++ [c]

/-- The jobs before it finish, as many have come in meanwhile, and these are put before it again. -/
theorem starving_cycle {c : Nat} (h : Starving sv c s) :
    ∃ as t l, Machine.run (step sv) as s = some t ∧ Starving sv c t ∧ turns t = turns s ++ l ∧
      c ∉ l ∧
      0 < l.length := by
  obtain ⟨cs, hlen, hb⟩ := h.behind
  have hc : c ∉ cs := by
    have hnd := (reachable_inv h.reachable).slots.nodup_iff.mpr List.nodup_range
    rw [hb] at hnd
    have hapart := (List.nodup_append.mp (List.nodup_append.mp hnd).2.1).2.2
    exact fun hm => hapart c hm c List.mem_cons_self rfl
  obtain ⟨xs, x, hxs⟩ : ∃ xs x, cs = xs ++ [x] := by
    refine ⟨_, _, (List.dropLast_append_getLast ?_).symm⟩
    rintro rfl
    simp [dispatchRingDequeuePeriod] at hlen
  have hxlen : xs.length + 1 = dispatchRingDequeuePeriod := by simpa [hxs] using hlen
  obtain ⟨as₁, s₁, h₁, hp₁, hj₁, hlen₁, hv₁⟩ := run_arrivals sv (s := s) dispatchRingDequeuePeriod
    (by simp [h.ring]; decide) (by simp [h.ring])
  have hb₁ : s₁.busyCoros = xs ++ x :: [c] := by
    rw [hj₁.busy, hb, hxs, List.append_assoc]
    rfl
  obtain ⟨as₂, s₂, h₂, hp₂, hb₂, hi₂, hr₂, hd₂, ht₂⟩ := run_turns sv (hp₁.trans h.head) hb₁
    (by rw [hj₁.index, h.index]; omega)
  obtain ⟨s₃, h₃, hp₃, -, hb₃, hi₃, hr₃, hd₃, ht₃⟩ := run_finish sv hp₂ hb₂
  have hring : s₃.ring = s₁.ring := hr₃.trans hr₂
  have hlen₃ : s₃.ring.length = dispatchRingDequeuePeriod := by rw [hring, hlen₁, h.ring]; simp
  have hidle : dispatchRingDequeuePeriod ≤ s₃.idleCoros.length := by
    rw [hi₃, hi₂]
    simp
    omega
  have hready : dispatchReady s₃ := by
    refine .inr ⟨?_, List.ne_nil_of_length_pos (Nat.lt_of_lt_of_le (by decide) hidle)⟩
    rw [hd₃, hd₂, hj₁.index, h.index, Nat.zero_add, hxlen]
    decide
  obtain ⟨as₄, t, h₄, hp₄, hr₄, hd₄, ht₄, ns, hns, hb₄⟩ := run_dequeue sv hp₃ hready (hring ▸ hv₁)
    (by omega) (by rw [hlen₃]; decide)
  have hrun := Machine.run_join (Machine.run_join h₁ h₂)
    (Machine.run_join (Machine.run_one (move_step h₃)) h₄)
  refine ⟨_, t, cs, hrun, ⟨reachable_run h.reachable hrun, hp₄, hr₄, hd₄, ns, hns.trans hlen₃, ?_⟩,
    ?_, hc, ?_⟩
  · rw [hb₄, hb₃]
  · rw [ht₄, ht₃, ht₂, hj₁.turns, hxs, List.append_assoc]
    rfl
  · rw [hlen]
    decide

/-- One more job than the period has turns comes in first. -/
theorem exists_starving (hK : dispatchRingDequeuePeriod < sv.numWorkerCoros) :
    ∃ c s, Starving sv c s := by
  have hinit : Reachable sv (init sv 0) := ⟨0, [], rfl⟩
  obtain ⟨as₁, s₁, h₁, hp₁, hj₁, hlen₁, hv₁⟩ :=
    run_arrivals sv (s := init sv 0) (dispatchRingDequeuePeriod + 1)
    (by simp [init]; decide) (by simp [init])
  have m : Move sv s₁ (.resume .completed) _ := .idle .completed hp₁ hj₁.busy
  obtain ⟨as₂, t, h₂, hp₂, hr₂, hd₂, -, cs, hcs, hb⟩ := run_dequeue sv (s := { s₁ with
      forceDispatch := true, forceFlush := decide (0 < s₁.txBufs.length), pc := .dispatch })
    rfl (.inl rfl) hv₁
    (by simp [hlen₁, hj₁.idle, init]; omega) (by simp [hlen₁, init]; decide)
  have hlen : cs.length = dispatchRingDequeuePeriod + 1 := by simpa [hlen₁, init] using hcs
  have hne : cs ≠ [] := List.ne_nil_of_length_pos (by omega)
  refine ⟨cs.getLast hne, t, ?_, hp₂, hr₂, hd₂, cs.dropLast, ?_, ?_⟩
  · exact reachable_run hinit (Machine.run_join h₁
      (Machine.run_join (Machine.run_one (move_step m)) h₂))
  · rw [List.length_dropLast, hlen]
    rfl
  · rw [hb, List.dropLast_append_getLast]
    simp [hj₁.busy, init]

/-- As often as one likes. -/
theorem starving_run {c : Nat} (h : Starving sv c s) (n : Nat) :
    ∃ as t l, Machine.run (step sv) as s = some t ∧ Starving sv c t ∧ turns t = turns s ++ l ∧
      c ∉ l ∧
      n ≤ l.length := by
  induction n with
  | zero => exact ⟨[], s, [], rfl, h, (List.append_nil _).symm, List.not_mem_nil, Nat.le_refl _⟩
  | succ n ih =>
    obtain ⟨as, t, l, hrun, ht, hl, hc, hn⟩ := ih
    obtain ⟨bs, u, l', hrun', hu, hl', hc', hn'⟩ := starving_cycle ht
    refine ⟨as ++ bs, u, l ++ l', Machine.run_join hrun hrun', hu, ?_, ?_, ?_⟩
    · rw [hl', hl, List.append_assoc]
    · exact fun hm => (List.mem_append.mp hm).elim hc hc'
    · rw [List.length_append]
      omega

/-- Up to as many coroutines as the dequeue period has turns, a busy one is resumed after at most
two rounds of the others, whatever comes in. With one coroutine more a job can be kept from running
for any number of turns. -/
theorem resumed_in_bounded_turns (sv : Server) :
    (sv.numWorkerCoros ≤ dispatchRingDequeuePeriod → ∀ s, Reachable sv s → ∀ c ∈ s.busyCoros,
    ∀ as t,
      Machine.run (step sv) as s = some t →
      ∃ l, turns t = turns s ++ l ∧ (c ∈ l ∨ l.length ≤ 2 * (sv.numWorkerCoros - 1))) ∧
    (dispatchRingDequeuePeriod < sv.numWorkerCoros → ∃ s, Reachable sv s ∧ ∃ c ∈ s.busyCoros, ∀ n,
      ∃ as t l, Machine.run (step sv) as s = some t ∧ turns t = turns s ++ l ∧ c ∉ l ∧
        n ≤ l.length) := by
  refine ⟨fun hK s hs c hc as t hrun => wait_le hK hs hc hrun, fun hK => ?_⟩
  obtain ⟨c, s, h⟩ := exists_starving hK
  obtain ⟨cs, -, hb⟩ := h.behind
  refine ⟨s, h.reachable, c, by simp [hb], fun n => ?_⟩
  obtain ⟨as, t, l, hrun, -, hl, hc, hn⟩ := starving_run h n
  exact ⟨as, t, l, hrun, hl, hc, hn⟩

end TinyQuanta.WorkerFairness
