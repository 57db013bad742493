import TinyQuanta.LasWorker
import Mathlib.Data.List.Nodup

/-!
# The quantum budget under `LAS`

The keys of the heap change only while a coroutine is outside, so the top has the
fewest quanta in every reachable state. The budget is then right when another job
is there to be compared with and the dequeue period is not up yet. Nothing in the
loop ensures either of the two.
-/
namespace TinyQuanta.LasBudget

open Params Packet Worker LasWorker BinaryHeap

/-- Fewer quanta are nearer to the top. -/
def fewer (coros : Nat → CoroInfo) (c d : Nat) : Prop := (coros c).numQuanta ≤ (coros d).numQuanta

theorem cmp_decides (coros : Nat → CoroInfo) : Decides (coroInfoPtrCmp coros) (fewer coros) where
  refl _ := Nat.le_refl _
  trans _ _ _ := Nat.le_trans
  of_lt _ _ h := Nat.le_of_lt (of_decide_eq_true h)
  of_not_lt _ _ h := Nat.not_lt.mp (of_decide_eq_false h)

structure Inv (sv : Server) (s : Worker.State) : Prop where
  slots : (s.idleCoros ++ s.busyCoros).Perm (List.range sv.numWorkerCoros)
  heap : Ordered (fewer s.coros) s.busyCoros
  quanta : ∀ c, (s.coros c).numQuanta < 4294967296
  index : s.dispatchIndex < 65536

theorem init_inv (sv : Server) (sq : Nat) : Inv sv (LasWorker.init sv sq).base where
  slots := by simp [LasWorker.init, Worker.init]
  heap := ordered_nil
  quanta _ := Nat.zero_lt_succ _
  index := Nat.zero_lt_succ _

section

variable {sv : Server} {s t : Worker.State}

/-- The stages that do not touch the coroutines. -/
theorem Inv.frame (h : Inv sv s) (hc : t.coros = s.coros) (hi : t.idleCoros = s.idleCoros)
    (hb : t.busyCoros = s.busyCoros) (hd : t.dispatchIndex < 65536) : Inv sv t where
  slots := by rw [hi, hb]; exact h.slots
  heap := by rw [hc, hb]; exact h.heap
  quanta := by rw [hc]; exact h.quanta
  index := hd

theorem Inv.nodup (h : Inv sv s) : (s.idleCoros ++ s.busyCoros).Nodup :=
  h.slots.nodup_iff.mpr List.nodup_range

theorem others_perm {c : Nat} {rest : List Nat} (hb : s.busyCoros = c :: rest) :
    (others s).Perm rest := by
  unfold others
  rw [hb]
  exact pop_perm _ c rest

/-- The heap without its top, after a change to the coroutine that was on top. -/
theorem others_ordered (h : Inv sv s) {c : Nat} {rest : List Nat} (hb : s.busyCoros = c :: rest)
    (info : CoroInfo) : Ordered (fewer (Function.update s.coros c info)) (others s) := by
  have hn := h.nodup.of_append_right
  rw [hb] at hn
  have hne : ∀ d ∈ others s, d ≠ c := by
    rintro d hd rfl
    exact (List.nodup_cons.mp hn).1 ((others_perm hb).mem_iff.mp hd)
  refine (pop_ordered (cmp_decides s.coros) h.heap).congr fun d hd e he hde => ?_
  simpa only [fewer, Function.update_of_ne (hne d hd), Function.update_of_ne (hne e he)] using hde

theorem update_quanta (h : Inv sv s) (c : Nat) {info : CoroInfo} (hi : info.numQuanta < 4294967296)
    (d : Nat) : (Function.update s.coros c info d).numQuanta < 4294967296 := by
  by_cases hd : d = c
  · subst hd
    simpa using hi
  · simpa [hd] using h.quanta d

theorem push_slots {c : Nat} {l : List Nat} (lt : Nat → Nat → Bool) (idle : List Nat)
    (h : (idle ++ c :: l).Perm (List.range sv.numWorkerCoros)) :
    (idle ++ push lt l c).Perm (List.range sv.numWorkerCoros) :=
  ((push_perm lt l c).append_left idle).trans h

/-- A job that yields comes back with its new key. -/
theorem notFinished_inv (h : Inv sv s) {c : Nat} {rest : List Nat} (hb : s.busyCoros = c :: rest)
    (n : Nat) (last : Option Nat) (quantumIdx : Nat) :
    Inv sv (LasWorker.notFinished c n { s with
      busyCoros := others s
      coros := Function.update s.coros c { s.coros c with last := last }
      dispatchIndex := u16 (s.dispatchIndex + quantumIdx)
      flushIndex := u16 (s.flushIndex + quantumIdx) }) := by
  have hs := h.slots
  rw [hb] at hs
  refine ⟨?_, ?_, fun d => ?_, Nat.mod_lt _ (by decide)⟩
  · refine push_slots _ _ (List.Perm.trans ?_ hs)
    exact ((others_perm hb).cons c).append_left _
  · simp only [LasWorker.notFinished, Function.update_idem, Function.update_self]
    exact push_ordered (cmp_decides _) (others_ordered h hb _) c
  · simp only [LasWorker.notFinished, Function.update_idem, Function.update_self]
    exact update_quanta h c (Nat.mod_lt _ (by decide)) d

/-- A job that ends leaves its slot to the idle ones. -/
theorem finished_inv (h : Inv sv s) {c : Nat} {rest : List Nat} (hb : s.busyCoros = c :: rest)
    (last : Option Nat) (quantumIdx : Nat) :
    Inv sv (finished c { s with
      busyCoros := others s
      coros := Function.update s.coros c { s.coros c with last := last }
      dispatchIndex := u16 (s.dispatchIndex + quantumIdx)
      flushIndex := u16 (s.flushIndex + quantumIdx) }) := by
  have hs := h.slots
  rw [hb] at hs
  refine ⟨?_, others_ordered h hb _, update_quanta h c (h.quanta c), Nat.mod_lt _ (by decide)⟩
  have hp : (s.idleCoros ++ [c] ++ others s).Perm (s.idleCoros ++ c :: rest) := by
    rw [List.append_assoc]
    exact ((others_perm hb).cons c).append_left _
  exact hp.trans hs

theorem setForce_inv (h : Inv sv s) (pc : Pc) : Inv sv { setForce s with pc := pc } := by
  unfold setForce
  split <;> exact h.frame rfl rfl rfl h.index

theorem runNext_inv {s t : LasWorker.State} (h : Inv sv s.base) {r : LasWorker.Resume} {stale : Nat}
    (ht : LasWorker.runNext r stale s = some t) : Inv sv t.base := by
  unfold LasWorker.runNext at ht
  cases hb : s.base.busyCoros with
  | nil =>
    simp only [hb, Option.some.injEq] at ht
    exact ht ▸ h
  | cons c rest =>
    simp only [hb] at ht
    cases r with
    | preempted =>
      cases ht
      exact notFinished_inv h hb _ _ _
    | completed hooks =>
      simp only [Option.ite_none_right_eq_some, Option.some.injEq] at ht
      obtain ⟨-, rfl⟩ := ht
      exact finished_inv h hb _ _

theorem handleOne_inv (h : Inv sv s) (ht : LasWorker.handleOne sv s = some t) : Inv sv t := by
  unfold LasWorker.handleOne at ht
  cases hl : s.rxBufs.getLast? with
  | none =>
    simp only [hl, Option.some.injEq] at ht
    subst ht
    exact h.frame rfl rfl rfl (Nat.zero_lt_succ _)
  | some rx =>
    simp only [hl] at ht
    split at ht
    · cases ht
      exact h.frame rfl rfl rfl h.index
    · cases hi : s.idleCoros.getLast? with
      | none => simp [hi] at ht
      | some c =>
        simp only [hi, Option.some.injEq] at ht
        subst ht
        have happ := List.dropLast_append_getLast? c hi
        have hs := h.slots
        have hn := h.nodup
        rw [← happ, List.append_assoc, List.singleton_append] at hs
        have hc : ∀ d ∈ s.busyCoros, d ≠ c := by
          rintro d hd rfl
          exact List.disjoint_of_nodup_append hn (by rw [← happ]; simp) hd
        refine ⟨push_slots _ _ hs, ?_, update_quanta h c (Nat.zero_lt_succ _), h.index⟩
        refine push_ordered (cmp_decides _) (h.heap.congr fun d hd e he hde => ?_) c
        simpa only [processRxMbuf, fewer, Function.update_of_ne (hc d hd),
          Function.update_of_ne (hc e he)] using hde

theorem step_inv {s t : LasWorker.State} {a : LasWorker.Act} (h : Inv sv s.base)
    (ht : LasWorker.step sv s a = some t) : Inv sv t.base := by
  cases a with
  | arrive m =>
    simp only [LasWorker.step, Option.ite_none_right_eq_some, Option.some.injEq] at ht
    obtain ⟨-, rfl⟩ := ht
    exact h.frame rfl rfl rfl h.index
  | resume r stale =>
    simp only [LasWorker.step, Option.ite_none_right_eq_some, Option.map_eq_some_iff] at ht
    obtain ⟨-, u, hu, rfl⟩ := ht
    exact setForce_inv (runNext_inv h hu) _
  | dispatch =>
    simp only [LasWorker.step, Option.ite_none_right_eq_some, Option.some.injEq] at ht
    obtain ⟨-, rfl⟩ := ht
    simp only [dispatchNew]
    split <;> exact h.frame rfl rfl rfl h.index
  | handle =>
    simp only [LasWorker.step, Option.ite_none_right_eq_some, Option.map_eq_some_iff] at ht
    obtain ⟨-, u, hu, rfl⟩ := ht
    exact handleOne_inv h hu
  | transmit nbTx =>
    simp only [LasWorker.step, Option.ite_none_right_eq_some, Option.map_eq_some_iff] at ht
    obtain ⟨-, u, hu, rfl⟩ := ht
    unfold txPath at hu
    split at hu
    · simp only [Option.ite_none_right_eq_some, Option.some.injEq] at hu
      obtain ⟨-, rfl⟩ := hu
      exact h.frame rfl rfl rfl h.index
    · cases hu
      exact h.frame rfl rfl rfl h.index
  | giveBack =>
    simp only [LasWorker.step, Option.ite_none_right_eq_some, Option.some.injEq] at ht
    obtain ⟨-, rfl⟩ := ht
    simp only [returnRx]
    split <;> exact h.frame rfl rfl rfl h.index

end

theorem reachable_inv {sv : Server} {s : LasWorker.State} (h : LasWorker.Reachable sv s) :
    Inv sv s.base := by
  obtain ⟨sq, as, h⟩ := h
  exact Machine.run_induction (P := fun _ s => Inv sv s.base) (init_inv sv sq)
    (fun _ _ _ _ _ hs ht => step_inv hs ht) h

/-! ## What is assigned -/

/-- The budget computed for the job `c` on top: there is another job to compare it with, it is
between 1 and the dequeue period, it takes `c` at most one quantum past every other job, and
`call_the_yield` yields at the last quantum of it, not before. -/
def BudgetRight (s : Worker.State) (c : Nat) : Prop :=
  ∃ d, (others s).head? = some d ∧
    let n := assignedQuanta (s.coros d).numQuanta (s.coros c).numQuanta s.dispatchIndex
    (1 ≤ n ∧ n ≤ dispatchRingDequeuePeriod) ∧
    (∀ e ∈ others s, n + (s.coros c).numQuanta ≤ (s.coros e).numQuanta + 1) ∧
    (hookCall n n).2 = true ∧ ∀ k, 1 ≤ k → k < n → (hookCall n k).2 = false

/-- Another job is busy, the dequeue period is not up, and the sums stay below `2^32`. -/
def Comparable (s : Worker.State) (c : Nat) : Prop :=
  2 ≤ s.busyCoros.length ∧ s.dispatchIndex < dispatchRingDequeuePeriod ∧
    ∃ e ∈ others s,
      (s.coros e).numQuanta - (s.coros c).numQuanta + 1 + s.dispatchIndex < 4294967296

/-- The arithmetic of the assignment. -/
theorem assignedQuanta_iff {own m d : Nat} (hle : own ≤ m) (hm : m < 4294967296) (hd : d < 65536) :
    (1 ≤ assignedQuanta m own d ∧ assignedQuanta m own d ≤ dispatchRingDequeuePeriod) ↔
      d < dispatchRingDequeuePeriod ∧ m - own + 1 + d < 4294967296 := by
  by_cases hc : u32 (u32 (m + (4294967296 - own) + 1) + d) ≤ dispatchRingDequeuePeriod
  · simp only [assignedQuanta, if_pos hc]
    simp only [u32, dispatchRingDequeuePeriod] at hc ⊢
    omega
  · simp only [assignedQuanta, if_neg hc]
    simp only [u32, dispatchRingDequeuePeriod] at hc ⊢
    omega

theorem assignedQuanta_le {own m d : Nat} (hle : own ≤ m) (hm : m < 4294967296)
    (hd : d < dispatchRingDequeuePeriod) : assignedQuanta m own d + own ≤ m + 1 := by
  by_cases hc : u32 (u32 (m + (4294967296 - own) + 1) + d) ≤ dispatchRingDequeuePeriod
  · simp only [assignedQuanta, if_pos hc]
    simp only [u32, dispatchRingDequeuePeriod] at hd hc ⊢
    omega
  · simp only [assignedQuanta, if_neg hc]
    simp only [u32, dispatchRingDequeuePeriod] at hd hc ⊢
    omega

/-- In every reachable state with a busy coroutine, the budget of the one that is
resumed is right exactly when there is another busy one, `dispatch_index` is below the dequeue
period, and the sum of the two does not wrap. -/
theorem las_budget_iff (sv : Server) (s : LasWorker.State) (h : LasWorker.Reachable sv s)
    (c : Nat) (rest : List Nat) (hb : s.base.busyCoros = c :: rest) :
    BudgetRight s.base c ↔ Comparable s.base c := by
  have hi := reachable_inv h
  have hperm := others_perm hb
  have hlen := hperm.length_eq
  have hown : ∀ e ∈ others s.base, (s.base.coros c).numQuanta ≤ (s.base.coros e).numQuanta := by
    intro e he
    exact top_above (cmp_decides _) hi.heap (by rw [hb]; rfl) e
      (by rw [hb]; exact List.mem_cons_of_mem c (hperm.mem_iff.mp he))
  have hord := pop_ordered (cmp_decides s.base.coros) hi.heap
  unfold BudgetRight Comparable
  constructor
  · rintro ⟨d, hd, hn, -, -⟩
    have hmem := List.mem_of_mem_head? hd
    have hlen' := List.length_pos_of_mem hmem
    obtain ⟨hidx, hsum⟩ := (assignedQuanta_iff (hown d hmem) (hi.quanta d) hi.index).mp hn
    refine ⟨?_, hidx, d, hmem, hsum⟩
    rw [hb, List.length_cons]
    omega
  · rintro ⟨-, hidx, e, he, hsum⟩
    cases hd : (others s.base).head? with
    | none =>
      rw [List.head?_eq_none_iff.mp hd] at he
      cases he
    | some d =>
      have hmem := List.mem_of_mem_head? hd
      have htop : ∀ e ∈ others s.base, (s.base.coros d).numQuanta ≤ (s.base.coros e).numQuanta :=
        top_above (cmp_decides _) hord hd
      have hsum' : (s.base.coros d).numQuanta - (s.base.coros c).numQuanta + 1 +
          s.base.dispatchIndex < 4294967296 := by
        have hde := htop e he
        omega
      have hn := (assignedQuanta_iff (hown d hmem) (hi.quanta d) hi.index).mpr ⟨hidx, hsum'⟩
      have hub := assignedQuanta_le (hown d hmem) (hi.quanta d) hidx
      refine ⟨d, rfl, hn, fun e he => ?_, ?_⟩
      · have hde := htop e he
        omega
      · have hq := quantaUntilYield_eq hn.1
        have hfirst := yields_first (show _ < 4294967296 from Nat.lt_of_le_of_lt hn.2 (by decide))
        rwa [hq] at hfirst

/-- One iteration of the loop that dequeues `packets` packets. -/
def iteration (packets : Nat) : List LasWorker.Act :=
  [.resume .preempted 0, .dispatch] ++ List.replicate (packets + 1) .handle ++
    [.transmit 0, .giveBack]

/-- One iteration that runs a job to its next yield and takes nothing from the ring. -/
def quantum : List LasWorker.Act := [.resume .preempted 0, .dispatch, .transmit 0, .giveBack]

/-- Two jobs. -/
theorem las_budget_iff_two_jobs :
    ∃ s, LasWorker.Reachable shipped s ∧ s.base.busyCoros = [13, 12] ∧
      (BudgetRight s.base 13 ↔ Comparable s.base 13) := by
  have h : (Machine.run (LasWorker.step shipped)
      (List.replicate 2 (.arrive request) ++ iteration 2) (LasWorker.init shipped 0)).any
      (fun s => decide (s.base.busyCoros = [13, 12])) = true := by decide +kernel
  obtain ⟨s, hs, hb⟩ := Option.any_eq_true _ _ |>.mp h
  have hr : LasWorker.Reachable shipped s := ⟨0, _, hs⟩
  exact ⟨s, hr, of_decide_eq_true hb, las_budget_iff shipped s hr 13 [12] (of_decide_eq_true hb)⟩

/-- With one job the second `top()` finds an empty heap. With a job in every slot nothing resets
`dispatch_index`; when the period is up the next job is assigned 0 quanta, which
`call_the_yield` takes for `2^32`. -/
theorem las_budget_wrong :
    (∃ s, LasWorker.Reachable shipped s ∧ s.base.pc = .head ∧ s.base.busyCoros = [13] ∧
      others s.base = [] ∧ ¬ BudgetRight s.base 13) ∧
    ∃ s c, LasWorker.Reachable shipped s ∧ s.base.pc = .head ∧ s.base.busyCoros.head? = some c ∧
      s.base.idleCoros = [] ∧ (∀ stale, assignedQuanta (topQuanta stale s.base)
        (s.base.coros c).numQuanta s.base.dispatchIndex = 0) ∧
      quantaUntilYield 0 = 4294967296 ∧ ¬ BudgetRight s.base c := by
  constructor
  · have h : (Machine.run (LasWorker.step shipped) (.arrive request :: iteration 1)
        (LasWorker.init shipped 0)).any (fun s => decide (s.base.pc = .head ∧
          s.base.busyCoros = [13] ∧ others s.base = [])) = true := by decide +kernel
    obtain ⟨s, hs, hd⟩ := Option.any_eq_true _ _ |>.mp h
    obtain ⟨hp, hb, ho⟩ := of_decide_eq_true hd
    refine ⟨s, ⟨0, _, hs⟩, hp, hb, ho, ?_⟩
    rintro ⟨d, hd, -⟩
    rw [ho] at hd
    cases hd
  · have h : (Machine.run (LasWorker.step shipped)
        (List.replicate 14 (.arrive request) ++ iteration 14 ++ quantum ++ quantum ++ quantum ++
          quantum)
        (LasWorker.init shipped 0)).any (fun s => decide (s.base.pc = .head ∧
          s.base.idleCoros = [] ∧ s.base.busyCoros.head? = some 8 ∧ (others s.base).head? = some 1 ∧
          assignedQuanta (s.base.coros 1).numQuanta (s.base.coros 8).numQuanta
            s.base.dispatchIndex = 0)) = true := by decide +kernel
    obtain ⟨s, hs, hd⟩ := Option.any_eq_true _ _ |>.mp h
    obtain ⟨hp, hi, hb, ho, hn⟩ := of_decide_eq_true hd
    refine ⟨s, 8, ⟨0, _, hs⟩, hp, hb, hi, fun stale => ?_, rfl, ?_⟩
    · simp only [topQuanta, ho, hn]
    · rintro ⟨d, hd, ⟨h₁, -⟩, -⟩
      rw [ho] at hd
      cases hd
      rw [hn] at h₁
      cases h₁

end TinyQuanta.LasBudget
