import TinyQuanta.Dispatcher

/-!
# Where the packets of a burst go

The loop over one burst in `run_server` (`NEW_DISPATCHER`), with its index: `i`
is a `uint16_t` that advances by `max_dispatch_size` whatever the ring accepts.
What the rings already hold and which worker each group is offered to are
arbitrary. `groups` lists the groups in the order they were cut; the loop does
not read it.
-/
namespace TinyQuanta.BurstDispatch

open Params Dispatcher

variable {α : Type}

/-- What the environment decides in one pass: the worker and the free slots of its ring. -/
structure Offer (numWorkerThreads : Nat) where
  worker : Fin numWorkerThreads
  free : Nat

structure Group where
  worker : Nat
  start : Nat
  dispatchSize : Nat
  nbReturn : Nat
  deriving DecidableEq, Repr

structure State (α : Type) where
  i : Nat
  rings : Nat → List α
  freed : List α
  numRunningJobs : Nat → Int
  groups : List Group

/-- `rx_bufs[start .. start + count)`. -/
def slice (rxBufs : List α) (start count : Nat) : List α := (rxBufs.drop start).take count

/-- The group cut at `i`; `rte_ring_enqueue_burst` takes the longest initial part that fits. -/
def groupAt (b : Build) (nbRx i : Nat) (o : Offer b.numWorkerThreads) : Group :=
  let dispatchSize :=
    if i + maxDispatchSize b nbRx < nbRx then maxDispatchSize b nbRx else nbRx - i
  ⟨o.worker, i, dispatchSize, min dispatchSize o.free⟩

/-- One pass through the loop. -/
def dispatch (b : Build) (rxBufs : List α) (g : Group) (s : State α) : State α where
  i := u16 (s.i + maxDispatchSize b rxBufs.length)
  rings := Function.update s.rings g.worker (s.rings g.worker ++ slice rxBufs g.start g.nbReturn)
  freed :=
    if g.nbReturn ≠ g.dispatchSize then
      s.freed ++ slice rxBufs (g.start + g.nbReturn) (g.dispatchSize - g.nbReturn)
    else s.freed
  numRunningJobs := Function.update s.numRunningJobs g.worker
    (b.int (s.numRunningJobs g.worker + g.nbReturn))
  groups := s.groups ++ [g]

def step (b : Build) (rxBufs : List α) (s : State α) (o : Offer b.numWorkerThreads) :
    Option (State α) :=
  if s.i < rxBufs.length then some (dispatch b rxBufs (groupAt b rxBufs.length s.i o) s) else none

/-- The state when the loop starts. -/
def start (rings : Nat → List α) (freed : List α) (numRunningJobs : Nat → Int) : State α :=
  ⟨0, rings, freed, numRunningJobs, []⟩

/-! ## Groups that cover an interval -/

/-- The groups follow one another from `lo` to `hi`. -/
def Tiles (lo : Nat) : List Group → Nat → Prop
  | [], hi => lo = hi
  | g :: gs, hi => g.start = lo ∧ Tiles (lo + g.dispatchSize) gs hi

theorem Tiles.snoc {gs : List Group} {lo mid : Nat} (h : Tiles lo gs mid) {g : Group}
    (hg : g.start = mid) : Tiles lo (gs ++ [g]) (mid + g.dispatchSize) := by
  induction gs generalizing lo with
  | nil =>
    cases h
    exact ⟨hg, rfl⟩
  | cons a gs ih => exact ⟨h.1, ih h.2⟩

/-- The packets the ring took, and those that were freed. -/
def Group.accepted (rxBufs : List α) (g : Group) : List α := slice rxBufs g.start g.nbReturn
def Group.dropped (rxBufs : List α) (g : Group) : List α :=
  slice rxBufs (g.start + g.nbReturn) (g.dispatchSize - g.nbReturn)

theorem slice_append (l : List α) (start m n : Nat) :
    slice l start m ++ slice l (start + m) n = slice l start (m + n) := by
  unfold slice
  rw [List.take_add, List.drop_drop]

theorem length_slice {l : List α} {start count : Nat} (h : start + count ≤ l.length) :
    (slice l start count).length = count := by
  unfold slice
  rw [List.length_take, List.length_drop]
  omega

theorem Group.accepted_append_dropped (rxBufs : List α) {g : Group}
    (h : g.nbReturn ≤ g.dispatchSize) :
    g.accepted rxBufs ++ g.dropped rxBufs = slice rxBufs g.start g.dispatchSize := by
  unfold Group.accepted Group.dropped
  rw [slice_append, Nat.add_sub_cancel' h]

/-- One after the other the groups are the interval itself. -/
theorem Tiles.flatMap_slice {gs : List Group} {lo hi : Nat} (rxBufs : List α) (h : Tiles lo gs hi) :
    lo ≤ hi ∧ gs.flatMap (fun g => slice rxBufs g.start g.dispatchSize) =
      slice rxBufs lo (hi - lo) := by
  induction gs generalizing lo with
  | nil =>
    cases h
    exact ⟨Nat.le_refl _, by simp [slice]⟩
  | cons g gs ih =>
    obtain ⟨hle, he⟩ := ih h.2
    refine ⟨by omega, ?_⟩
    rw [List.flatMap_cons, he, h.1, slice_append]
    congr 1
    omega

/-- The packets of the groups offered to `w`, as far as its ring took them. -/
def delivered (rxBufs : List α) (gs : List Group) (w : Nat) : List α :=
  (gs.filter fun g => g.worker == w).flatMap (Group.accepted rxBufs)

theorem delivered_snoc (rxBufs : List α) (gs : List Group) (g : Group) (w : Nat) :
    delivered rxBufs (gs ++ [g]) w =
      if w = g.worker then delivered rxBufs gs w ++ g.accepted rxBufs
      else delivered rxBufs gs w := by
  unfold delivered
  rw [List.filter_append, List.flatMap_append]
  by_cases hw : w = g.worker
  · simp [hw]
  · simp [hw, Ne.symm hw]

/-- Each ring gets its packets in the order of the burst. -/
theorem delivered_sublist (rxBufs : List α) (gs : List Group)
    (h : ∀ g ∈ gs, g.nbReturn ≤ g.dispatchSize) (w : Nat) :
    (delivered rxBufs gs w).Sublist
      (gs.flatMap fun g => slice rxBufs g.start g.dispatchSize) := by
  induction gs with
  | nil => exact List.Sublist.refl _
  | cons g gs ih =>
    have hrest := ih fun a ha => h a (List.mem_cons_of_mem g ha)
    have hhead : (g.accepted rxBufs).Sublist (slice rxBufs g.start g.dispatchSize) := by
      rw [← Group.accepted_append_dropped rxBufs (h g List.mem_cons_self)]
      exact List.sublist_append_left _ _
    unfold delivered at hrest ⊢
    rw [List.flatMap_cons]
    by_cases hw : g.worker = w
    · rw [List.filter_cons_of_pos (by simpa using hw), List.flatMap_cons]
      exact hhead.append hrest
    · rw [List.filter_cons_of_neg (by simpa using hw)]
      exact hrest.trans (List.sublist_append_right _ _)

/-- More packets for one of the rings. -/
theorem flatMap_range_perm {n v : Nat} (hv : v < n) (f : Nat → List α) (l : List α) :
    ((List.range n).flatMap fun w => if w = v then f w ++ l else f w).Perm
      ((List.range n).flatMap f ++ l) := by
  induction n with
  | zero => exact absurd hv (Nat.not_lt_zero v)
  | succ n ih =>
    simp only [List.range_succ, List.flatMap_append, List.flatMap_singleton]
    by_cases hvn : v = n
    · subst hvn
      have hothers : (List.range v).flatMap (fun w => if w = v then f w ++ l else f w) =
          (List.range v).flatMap f := by
        apply List.flatMap_congr
        intro w hw
        rw [if_neg (Nat.ne_of_lt (List.mem_range.mp hw))]
      rw [hothers, if_pos rfl, List.append_assoc]
    · rw [if_neg (Ne.symm hvn)]
      have hi := (ih (by omega)).append_right (f n)
      have hcomm : (l ++ f n).Perm (f n ++ l) := List.perm_append_comm
      have hswap := hcomm.append_left ((List.range n).flatMap f)
      rw [List.append_assoc] at hi
      rw [List.append_assoc]
      exact hi.trans hswap

/-- The rings and the freed packets together hold the groups, packet for packet. -/
theorem delivered_perm (rxBufs : List α) {n : Nat} (gs : List Group)
    (h : ∀ g ∈ gs, g.worker < n ∧ g.nbReturn ≤ g.dispatchSize) :
    ((List.range n).flatMap (delivered rxBufs gs) ++ gs.flatMap (Group.dropped rxBufs)).Perm
      (gs.flatMap fun g => slice rxBufs g.start g.dispatchSize) := by
  induction gs using List.reverseRecOn with
  | nil => simp [delivered]
  | append_singleton gs g ih =>
    have hi := ih fun a ha => h a (List.mem_append_left _ ha)
    obtain ⟨hw, hle⟩ := h g (List.mem_append_right _ (List.mem_singleton_self g))
    have hfun : delivered rxBufs (gs ++ [g]) = fun w => if w = g.worker then
        delivered rxBufs gs w ++ g.accepted rxBufs else delivered rxBufs gs w := by
      funext w
      exact delivered_snoc rxBufs gs g w
    have hrings := flatMap_range_perm hw (delivered rxBufs gs) (g.accepted rxBufs)
    rw [hfun, List.flatMap_append, List.flatMap_append, List.flatMap_singleton,
      List.flatMap_singleton, ← Group.accepted_append_dropped rxBufs hle]
    refine (hrings.append_right _).trans (List.Perm.trans ?_ (hi.append_right _))
    rw [List.append_assoc, List.append_assoc]
    apply List.Perm.append_left
    rw [← List.append_assoc, ← List.append_assoc]
    exact List.perm_append_comm.append_right _

/-! ## The loop -/

/-- The state of the loop in terms of the groups cut so far. -/
structure Progress (b : Build) (rxBufs : List α) (s₀ s : State α) : Prop where
  index : s.i = s.groups.length * maxDispatchSize b rxBufs.length
  bound : s.groups ≠ [] → s.i < rxBufs.length + maxDispatchSize b rxBufs.length
  tiles : Tiles 0 s.groups (min s.i rxBufs.length)
  group : ∀ g ∈ s.groups, g.worker < b.numWorkerThreads ∧ g.nbReturn ≤ g.dispatchSize ∧
    g.dispatchSize ≤ maxDispatchSize b rxBufs.length
  rings : ∀ w, s.rings w = s₀.rings w ++ delivered rxBufs s.groups w
  freed : s.freed = s₀.freed ++ s.groups.flatMap (Group.dropped rxBufs)
  jobs : ∀ w, s.numRunningJobs w =
    b.int (s₀.numRunningJobs w + (delivered rxBufs s.groups w).length)

/-- The groups are at most as many as the workers. -/
theorem length_le_mul (b : Build) (nbRx : Nat) :
    nbRx ≤ b.numWorkerThreads * maxDispatchSize b nbRx := by
  have hpos := b.threads_pos
  have hlt := Nat.lt_div_mul_add (a := nbRx + b.numWorkerThreads - 1) hpos
  unfold maxDispatchSize
  rw [Nat.mul_comm]
  omega

theorem maxDispatchSize_pos (b : Build) {nbRx : Nat} (h : 0 < nbRx) :
    0 < maxDispatchSize b nbRx := by
  have hpos := b.threads_pos
  unfold maxDispatchSize
  apply Nat.div_pos <;> omega

/-- The index cannot come round: a burst and one more group stay within a `uint16_t`. -/
theorem index_room (b : Build) {nbRx : Nat} (h : nbRx ≤ u16 (rxQueueBurstSize b.numWorkerThreads)) :
    nbRx + maxDispatchSize b nbRx ≤ 65536 := by
  have hpos := b.threads_pos
  have hle : nbRx ≤ b.numWorkerThreads * 4 := Nat.le_trans h (Nat.mod_le _ _)
  have hfour : maxDispatchSize b nbRx ≤ 4 := by
    unfold maxDispatchSize
    rw [Nat.div_le_iff_le_mul_add_pred hpos]
    omega
  unfold u16 rxQueueBurstSize maxDispatchUnit at h
  omega

section Loop

variable {b : Build} {rxBufs : List α} {s₀ s : State α}

theorem groupAt_nbReturn_le (nbRx i : Nat) (o : Offer b.numWorkerThreads) :
    (groupAt b nbRx i o).nbReturn ≤ (groupAt b nbRx i o).dispatchSize := Nat.min_le_left _ _

/-- A group ends at the next index, or with the burst. -/
theorem groupAt_dispatchSize {nbRx i : Nat} (h : i < nbRx) (o : Offer b.numWorkerThreads) :
    i + (groupAt b nbRx i o).dispatchSize = min (i + maxDispatchSize b nbRx) nbRx := by
  simp only [groupAt]
  split <;> omega

theorem freed_dispatch (g : Group) (s : State α) :
    (dispatch b rxBufs g s).freed = s.freed ++ g.dropped rxBufs := by
  simp only [dispatch, Group.dropped]
  split
  · rfl
  · rename_i he
    rw [Decidable.not_not.mp he, Nat.sub_self]
    simp [slice]

theorem Progress.dispatch (h : Progress b rxBufs s₀ s)
    (hroom : rxBufs.length + maxDispatchSize b rxBufs.length ≤ 65536) (hlt : s.i < rxBufs.length)
    (o : Offer b.numWorkerThreads) :
    Progress b rxBufs s₀ (dispatch b rxBufs (groupAt b rxBufs.length s.i o) s) := by
  have hi : (BurstDispatch.dispatch b rxBufs (groupAt b rxBufs.length s.i o) s).i =
      s.i + maxDispatchSize b rxBufs.length := Nat.mod_eq_of_lt (by omega)
  have hsize := groupAt_dispatchSize (b := b) hlt o
  have hle := groupAt_nbReturn_le rxBufs.length s.i o
  have hstart : (groupAt b rxBufs.length s.i o).start = s.i := rfl
  have hworker : (groupAt b rxBufs.length s.i o).worker < b.numWorkerThreads := o.worker.isLt
  generalize groupAt b rxBufs.length s.i o = g at *
  refine ⟨?_, fun _ => ?_, ?_, ?_, fun w => ?_, ?_, fun w => ?_⟩
  · rw [hi, h.index]
    simp only [BurstDispatch.dispatch, List.length_append, List.length_singleton]
    rw [Nat.add_mul, Nat.one_mul]
  · rw [hi]
    omega
  · have htiles := h.tiles.snoc (g := g) (by omega)
    rw [hi]
    have he : min s.i rxBufs.length + g.dispatchSize =
        min (s.i + maxDispatchSize b rxBufs.length) rxBufs.length := by omega
    rw [he] at htiles
    exact htiles
  · intro a ha
    rcases List.mem_append.mp ha with ha | ha
    · exact h.group a ha
    · rw [List.mem_singleton.mp ha]
      exact ⟨hworker, hle, by omega⟩
  · simp only [BurstDispatch.dispatch, delivered_snoc]
    by_cases hw : w = g.worker
    · subst hw
      rw [Function.update_self, if_pos rfl, h.rings, List.append_assoc]
      rfl
    · rw [Function.update_of_ne hw, if_neg hw, h.rings]
  · rw [freed_dispatch, h.freed, List.append_assoc]
    simp [BurstDispatch.dispatch]
  · simp only [BurstDispatch.dispatch, delivered_snoc]
    by_cases hw : w = g.worker
    · subst hw
      have hlen : (g.accepted rxBufs).length = g.nbReturn := length_slice (by omega)
      rw [Function.update_self, if_pos rfl, h.jobs, b.int_add, List.length_append, hlen]
      congr 1
      omega
    · rw [Function.update_of_ne hw, if_neg hw, h.jobs]

theorem start_progress (rings : Nat → List α) (freed : List α) {numRunningJobs : Nat → Int}
    (h : ∀ w, InInt (numRunningJobs w)) :
    Progress b rxBufs (start rings freed numRunningJobs) (start rings freed numRunningJobs) where
  index := (Nat.zero_mul _).symm
  bound hne := absurd rfl hne
  tiles := (Nat.zero_min _).symm
  group g hg := by cases hg
  rings w := (List.append_nil _).symm
  freed := (List.append_nil _).symm
  jobs w := by
    have he := b.int_eq _ (h w)
    simpa [delivered, start] using he.symm

/-- As long as packets are left there is another pass. -/
theorem run_progress (hroom : rxBufs.length + maxDispatchSize b rxBufs.length ≤ 65536)
    (offers : Nat → Offer b.numWorkerThreads) (h : Progress b rxBufs s₀ s₀) (hg : s₀.groups = [])
    (k : Nat) (hk : k ≤ (rxBufs.length + maxDispatchSize b rxBufs.length - 1) /
      maxDispatchSize b rxBufs.length) :
    ∃ t, Machine.run (step b rxBufs) ((List.range k).map offers) s₀ = some t ∧
      Progress b rxBufs s₀ t ∧ t.groups.length = k := by
  induction k with
  | zero => exact ⟨s₀, rfl, h, by rw [hg]; rfl⟩
  | succ k ih =>
    obtain ⟨t, ht, hp, hlen⟩ := ih (Nat.le_of_succ_le hk)
    have hlt : t.i < rxBufs.length := by
      rw [hp.index, hlen]
      rcases Nat.eq_zero_or_pos (maxDispatchSize b rxBufs.length) with hz | hpos
      · rw [hz, Nat.div_zero] at hk
        exact absurd hk (Nat.not_succ_le_zero k)
      · have hmul := (Nat.le_div_iff_mul_le hpos).mp hk
        rw [Nat.add_mul, Nat.one_mul] at hmul
        omega
    refine ⟨_, ?_, hp.dispatch hroom hlt (offers k), ?_⟩
    · rw [List.range_succ, List.map_append]
      exact Machine.run_snoc.mpr ⟨t, ht, if_pos hlt⟩
    · simp [dispatch, hlen]

theorem Progress.length_le (h : Progress b rxBufs s₀ s) : s.groups.length ≤ b.numWorkerThreads := by
  by_cases hne : s.groups = []
  · rw [hne]
    exact Nat.zero_le _
  · have hbound := h.bound hne
    have hle := length_le_mul b rxBufs.length
    rw [h.index] at hbound
    have hlt : s.groups.length * maxDispatchSize b rxBufs.length <
        (b.numWorkerThreads + 1) * maxDispatchSize b rxBufs.length := by
      rw [Nat.add_mul, Nat.one_mul]
      omega
    exact Nat.le_of_lt_succ (Nat.lt_of_mul_lt_mul_right hlt)

end Loop

/-- After the loop: how the burst was cut, and where its packets are. -/
structure Dispatched (b : Build) (rxBufs : List α) (s t : State α) (accepted : Nat → List α)
    (dropped : List α) : Prop where
  tiles : Tiles 0 t.groups rxBufs.length
  number : t.groups.length ≤ b.numWorkerThreads
  size : ∀ g ∈ t.groups, g.dispatchSize ≤ maxDispatchSize b rxBufs.length
  rings : ∀ w, t.rings w = s.rings w ++ accepted w
  freed : t.freed = s.freed ++ dropped
  once : ((List.range b.numWorkerThreads).flatMap accepted ++ dropped).Perm rxBufs
  order : ∀ w, (accepted w).Sublist rxBufs
  jobs : ∀ w, t.numRunningJobs w = b.int (s.numRunningJobs w + (accepted w).length)

theorem Progress.dispatched {b : Build} {rxBufs : List α} {s₀ s : State α}
    (h : Progress b rxBufs s₀ s) (hend : ¬ s.i < rxBufs.length) :
    Dispatched b rxBufs s₀ s (delivered rxBufs s.groups)
      (s.groups.flatMap (Group.dropped rxBufs)) := by
  have htiles := h.tiles
  rw [Nat.min_eq_right (Nat.le_of_not_lt hend)] at htiles
  have hall : s.groups.flatMap (fun g => slice rxBufs g.start g.dispatchSize) = rxBufs := by
    rw [(htiles.flatMap_slice rxBufs).2]
    simp [slice]
  refine ⟨htiles, h.length_le, fun g hg => (h.group g hg).2.2, h.rings, h.freed, ?_, fun w => ?_,
    h.jobs⟩
  · have hperm := delivered_perm rxBufs s.groups fun g hg => ⟨(h.group g hg).1, (h.group g hg).2.1⟩
    rw [hall] at hperm
    exact hperm
  · have hsub := delivered_sublist rxBufs s.groups (fun g hg => (h.group g hg).2.1) w
    rw [hall] at hsub
    exact hsub

/-- For every choice of workers and every number of free slots the loop ends, and each packet of
the burst is on one ring, behind the packets of that ring that came before it, or freed. The burst
has at most `nb_pkts` packets, a `uint16_t`. -/
theorem burst_dispatched (b : Build) (rxBufs : List α)
    (hburst : rxBufs.length ≤ u16 (rxQueueBurstSize b.numWorkerThreads))
    (offers : Nat → Offer b.numWorkerThreads) (rings : Nat → List α) (freed : List α)
    (numRunningJobs : Nat → Int) (hjobs : ∀ w, InInt (numRunningJobs w)) :
    ∃ m t accepted dropped,
      Machine.run (step b rxBufs) ((List.range m).map offers) (start rings freed numRunningJobs) =
        some t ∧
      ¬ t.i < rxBufs.length ∧
      Dispatched b rxBufs (start rings freed numRunningJobs) t accepted dropped := by
  obtain ⟨t, ht, hp, hlen⟩ := run_progress (index_room b hburst) offers
    (start_progress rings freed hjobs) rfl _ (Nat.le_refl _)
  have hend : ¬ t.i < rxBufs.length := by
    rw [hp.index, hlen]
    rcases Nat.eq_zero_or_pos rxBufs.length with hz | hpos
    · omega
    · have hdiv := Nat.lt_div_mul_add (a := rxBufs.length + maxDispatchSize b rxBufs.length - 1)
        (maxDispatchSize_pos b hpos)
      omega
  exact ⟨_, t, _, _, ht, hend, hp.dispatched hend⟩

/-- Worker `k` for group `k`, and no room for the second one. -/
def secondFull (k : Nat) : Offer shipped.numWorkerThreads :=
  ⟨⟨k % shippedThreads, Nat.mod_lt k (by decide)⟩, if k = 1 then 0 else 8⟩

theorem burst_dispatched_three : ∃ m t accepted dropped,
    Machine.run (step shipped [4, 5, 6]) ((List.range m).map secondFull)
      (start (fun _ => []) [] fun _ => 0) = some t ∧
      ¬ t.i < 3 ∧ Dispatched shipped [4, 5, 6] (start (fun _ => []) [] fun _ => 0) t accepted
        dropped :=
  burst_dispatched shipped [4, 5, 6] (by decide) secondFull _ _ _ (fun _ => by decide)

/-! ## The same loop in the dispatcher -/

/-- The dispatcher is in the middle of the same burst. -/
structure Matches (b : Build) (rxBufs : List Packet.Mbuf) (d : Dispatcher.State)
    (s : State Packet.Mbuf) : Prop where
  pc : d.pc = .dispatch (maxDispatchSize b rxBufs.length) (rxBufs.drop s.i)
  jobs : ∀ w, (d.workerInfoVec w).numRunningJobs = s.numRunningJobs w

/-- A pass of the loop is a step of the dispatcher that offers the group to the same worker. -/
theorem Matches.step {b : Build} {rxBufs : List Packet.Mbuf} {d : Dispatcher.State}
    {s : State Packet.Mbuf} (h : Matches b rxBufs d s)
    (hroom : rxBufs.length + maxDispatchSize b rxBufs.length ≤ 65536) (hlt : s.i < rxBufs.length)
    {o : Offer b.numWorkerThreads} {rand₁ rand₂ : Nat}
    (hw : offered b rand₁ rand₂ d = some (o.worker : Nat)) :
    ∃ d', Dispatcher.step b d
        (.dispatch (groupAt b rxBufs.length s.i o).nbReturn rand₁ rand₂) = some d' ∧
      Matches b rxBufs d' (dispatch b rxBufs (groupAt b rxBufs.length s.i o) s) := by
  have hi : (dispatch b rxBufs (groupAt b rxBufs.length s.i o) s).i =
      s.i + maxDispatchSize b rxBufs.length := Nat.mod_eq_of_lt (by omega)
  have hsize := groupAt_dispatchSize (b := b) hlt o
  have hlen : ((rxBufs.drop s.i).take (maxDispatchSize b rxBufs.length)).length =
      (groupAt b rxBufs.length s.i o).dispatchSize := by
    rw [List.length_take, List.length_drop]
    omega
  have hne : rxBufs.drop s.i ≠ [] := by
    intro he
    have hz := congrArg List.length he
    rw [List.length_drop, List.length_nil] at hz
    omega
  refine ⟨_, move_step (.dispatch _ _ _ _ _ _ h.pc hne hw ?_), ?_, fun w => ?_⟩
  · rw [hlen]
    exact groupAt_nbReturn_le _ _ _
  · rw [hi, ← List.drop_drop]
  · change ((account b _ _ _ d).workerInfoVec w).numRunningJobs = _
    rw [account_numRunningJobs]
    simp only [dispatch]
    have hworker : (groupAt b rxBufs.length s.i o).worker = (o.worker : Nat) := rfl
    rw [hworker]
    by_cases he : w = (o.worker : Nat)
    · rw [if_pos he, he, Function.update_self, h.jobs]
    · rw [if_neg he, Function.update_of_ne he, h.jobs]

end TinyQuanta.BurstDispatch
