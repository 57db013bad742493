import Mathlib.Data.List.Perm.Subperm
import TinyQuanta.PlannerSteps

/-!
# Probe planning ends and meets its bound

What the relaxations of the two planning loops leave behind: a block at or above
the threshold got its distance over an uninstrumented edge, and no block costs the
commit interval by itself. So the walk of every round finds an edge, each loop
ends, and the second one only ends when no uninstrumented path is too long.
-/
namespace TinyQuanta.PlannerBound

open Relation TopoSort Relaxation Planner PlannerSteps Params

variable {o : Options} {f : Func} {p : Plan}

theorem Inv.entry (h : Inv o f p) : f.entry ∈ p.sortedBBs := (h.sorted f.entry).mpr .refl

/-! ## Distances from a block -/

/-- What the relaxation from a block relies on: the order, costs that are not negative, and sums
along the paths from there that are `int`s. -/
structure Metered (f : Func) (p : Plan) (startBB : Block) : Prop where
  nodup : p.sortedBBs.Nodup
  topo : RevTopo (forward f p.backEdges) p.sortedBBs
  start : startBB ∈ p.sortedBBs
  nonneg : ∀ b ∈ p.sortedBBs, 0 ≤ p.costMap b
  fits : ∀ b path, Unbroken f p startBB b path → pathCost p path ≤ intMax

theorem Inv.metered (h : Inv o f p) {startBB : Block} (hs : startBB ∈ p.sortedBBs) :
    Metered f p startBB :=
  ⟨h.nodup, h.topo, hs, h.nonneg, h.fits startBB hs⟩

/-- `longestCand` with nothing wrapped. -/
def longestSum (p : Plan) (u v : Block) (distU : Option Int) : Option Int :=
  distU.map fun d => if propagates p u v ∧ 0 < d then d + p.costMap v else 0

/-- An entry belongs to a block that can be reached, and is 0 or the cost of a path. -/
def LongestEntry (f : Func) (p : Plan) (startBB b : Block) (x : Int) : Prop :=
  ReflTransGen (Edge (forward f p.backEdges)) startBB b ∧
    (x = 0 ∨ ∃ path, Unbroken f p startBB b path ∧ pathCost p path = x)

variable {startBB : Block}

theorem LongestEntry.next {u v : Block} {d : Int} (hu : LongestEntry f p startBB u d)
    (hv : v ∈ forward f p.backEdges u) (hprop : propagates p u v) (hpos : 0 < d) :
    ∃ path, Unbroken f p startBB v path ∧ pathCost p path = d + p.costMap v := by
  -- a positive entry cannot be the 0 of a block that no path reaches
  rcases hu.2 with rfl | ⟨path, hpath, rfl⟩
  · omega
  · exact ⟨path ++ [v], .snoc u v path hpath hv hprop, pathCost_snoc p path v⟩

/-- Nothing wraps, since every sum is the cost of a path. -/
theorem longestCand_eq (h : Metered f p startBB) {u v : Block} (hu : u ∈ p.sortedBBs)
    (hv : v ∈ forward f p.backEdges u) {y : Option Int}
    (hy : ∀ d, y = some d → LongestEntry f p startBB u d) :
    longestCand p u v y = longestSum p u v y := by
  cases y with
  | none => rfl
  | some d =>
    simp only [longestCand, longestSum, Option.map_some]
    by_cases hc : propagates p u v ∧ 0 < d
    · obtain ⟨path, hpath, hsum⟩ := (hy d rfl).next hv hc.1 hc.2
      have hle := h.fits v path hpath
      have hnn := h.nonneg v (h.topo.closed hu hv)
      rw [if_pos hc, if_pos hc, int32_eq ⟨by unfold intMin; omega, by omega⟩]
    · rw [if_neg hc, if_neg hc]

theorem longestSum_entry {u v : Block} (hv : v ∈ forward f p.backEdges u) {y : Option Int}
    (hy : ∀ d, y = some d → LongestEntry f p startBB u d) {x : Int}
    (hx : longestSum p u v y = some x) : LongestEntry f p startBB v x := by
  obtain ⟨d, rfl, rfl⟩ := Option.map_eq_some_iff.mp hx
  refine ⟨(hy d rfl).1.tail hv, ?_⟩
  by_cases hc : propagates p u v ∧ 0 < d
  · rw [if_pos hc]
    exact .inr ((hy d rfl).next hv hc.1 hc.2)
  · exact .inl (if_neg hc)

theorem longest_entry (h : Metered f p startBB) {b : Block} {x : Int}
    (hd : (longestDistanceFrom f p startBB).dist b = some x) : LongestEntry f p startBB b x := by
  refine sweep_forall (P := LongestEntry f p startBB) (fun v d hd => ?_)
    (fun u hu v hv y hy d hd => ?_) hd
  · by_cases hv : v = startBB
    · subst hv
      simp only [Function.update_self, Option.some.injEq] at hd
      exact ⟨.refl, .inr ⟨[v], .start, by rw [pathCost_singleton, hd]⟩⟩
    · simp [hv] at hd
  · rw [longestCand_eq h (List.mem_reverse.mp hu) hv hy] at hd
    exact longestSum_entry hv hy hd

/-- The relaxation as if it computed without a bound. -/
theorem longest_swept (h : Metered f p startBB) :
    Swept (forward f p.backEdges) (longestSum p) (fun u _ => u) p.sortedBBs
      ⟨Function.update (fun _ => none) startBB (some (p.costMap startBB)),
        Function.update (fun _ => none) startBB (some startBB)⟩
      (longestDistanceFrom f p startBB) :=
  (sweep_swept h.topo h.nodup _).congr fun _ hu _ hv =>
    longestCand_eq h hu hv fun _ hd => longest_entry h hd

/-- Where a distance comes from. -/
theorem longest_source (h : Metered f p startBB) {v : Block} {x : Int}
    (hd : (longestDistanceFrom f p startBB).dist v = some x) :
    v = startBB ∧ x = p.costMap startBB ∧ (longestDistanceFrom f p startBB).prev v = some v ∨
      ∃ u y, u ∈ p.sortedBBs ∧ v ∈ forward f p.backEdges u ∧
        (longestDistanceFrom f p startBB).prev v = some u ∧
        (longestDistanceFrom f p startBB).dist u = some y ∧
        (x = 0 ∧ ¬ (propagates p u v ∧ 0 < y) ∨ propagates p u v ∧ 0 < y ∧
        x = y + p.costMap v) := by
  have hs := longest_swept h
  generalize longestDistanceFrom f p startBB = t at hd hs
  rcases hs.source v with ⟨hsd, hsp⟩ | ⟨u, hu, hv, y, hc, hdv, hp⟩
  · left
    rw [hd] at hsd
    by_cases hve : v = startBB
    · subst hve
      simp only [Function.update_self, Option.some.injEq] at hsd hsp
      exact ⟨rfl, hsd, hsp⟩
    · simp [hve] at hsd
  · right
    rw [hd] at hdv
    cases hdv
    obtain ⟨z, hz, hzx⟩ := Option.map_eq_some_iff.mp hc
    refine ⟨u, z, hu, hv, hp, hz, ?_⟩
    by_cases hprop : propagates p u v ∧ 0 < z
    · rw [if_pos hprop] at hzx
      exact .inr ⟨hprop.1, hprop.2, hzx.symm⟩
    · rw [if_neg hprop] at hzx
      exact .inl ⟨hzx.symm, hprop⟩

/-- Distances from a block are established along the paths. -/
theorem longest_induction (h : Metered f p startBB) {P : Block → Int → Prop}
    (hstart : P startBB (p.costMap startBB))
    (hzero : ∀ u ∈ p.sortedBBs, ∀ v ∈ forward f p.backEdges u, ∀ y, P u y → P v 0)
    (hnext : ∀ u ∈ p.sortedBBs, ∀ v ∈ forward f p.backEdges u, ∀ y, P u y → propagates p u v →
      0 < y → P v (y + p.costMap v))
    {v : Block} {x : Int} (hd : (longestDistanceFrom f p startBB).dist v = some x) : P v x := by
  induction hk : p.sortedBBs.length - p.sortedBBs.idxOf v using Nat.strongRecOn generalizing v x
    with
  | ind k ih =>
  rcases longest_source h hd with ⟨rfl, rfl, -⟩ | ⟨u, y, hu, hv, -, hy, hor⟩
  · exact hstart
  · have hidx := h.topo.idxOf_lt h.nodup hu hv
    have hlt := List.idxOf_lt_length_iff.mpr hu
    have hPu : P u y := ih _ (by omega) hy rfl
    rcases hor with ⟨rfl, -⟩ | ⟨hprop, hpos, rfl⟩
    · exact hzero u hu v hv y hPu
    · exact hnext u hu v hv y hPu hprop hpos

theorem longest_sorted (h : Inv o f p) {v : Block} {x : Int}
    (hd : (longestDistanceFrom f p f.entry).dist v = some x) : v ∈ p.sortedBBs := by
  rcases longest_source (Inv.metered h (Inv.entry h)) hd with ⟨rfl, -⟩ | ⟨u, y, hu, hv, -⟩
  · exact Inv.entry h
  · exact h.topo.closed hu hv

theorem longest_nonneg (h : Inv o f p) {v : Block} {x : Int}
    (hd : (longestDistanceFrom f p f.entry).dist v = some x) : 0 ≤ x := by
  have hc := h.nonneg v (longest_sorted h hd)
  rcases longest_source (Inv.metered h (Inv.entry h)) hd with
    ⟨rfl, hx, -⟩ | ⟨u, y, -, -, -, -, ⟨hx, -⟩ | ⟨-, hy, hx⟩⟩ <;> omega

theorem longest_traceable (h : Inv o f p) (thr : Int) :
    Traceable f p (longestDistanceFrom f p f.entry) thr := by
  intro v x hd hx
  rcases longest_source (Inv.metered h (Inv.entry h)) hd with ⟨-, -, hp⟩ |
    ⟨u, y, hu, hv, hp, hy, hor⟩
  · exact .inl hp
  · refine .inr ⟨u, y, hu, hv, hp, hy, fun hlt => ?_⟩
    have hy₀ := longest_nonneg h hy
    rcases hor with ⟨hx₀, hno⟩ | ⟨hprop, -⟩
    · -- a zero distance is at the threshold only if that is zero, and nothing is below it
      omega
    · exact hprop.1

/-- Only the entry starts a path. -/
theorem longest_root (h : Inv o f p) {b : Block} {x : Int}
    (hd : (longestDistanceFrom f p f.entry).dist b = some x)
    (hp : (longestDistanceFrom f p f.entry).prev b = some b) : b = f.entry := by
  rcases longest_source (Inv.metered h (Inv.entry h)) hd with ⟨hb, -⟩ | ⟨u, y, hu, hb, hp', -⟩
  · exact hb
  · rw [hp] at hp'
    cases hp'
    exact absurd (h.idxOf_lt hu hb) (Nat.lt_irrefl _)

theorem maxReturn_spec (f : Func) (d : Table Block) :
    (maxReturn f d).1 = none ∧ (maxReturn f d).2 = 0 ∨
      ∃ b, (maxReturn f d).1 = some b ∧ d.dist b = some (maxReturn f d).2 := by
  unfold maxReturn
  refine List.foldlRecOn (motive := fun (m : Option Block × Int) =>
    m.1 = none ∧ m.2 = 0 ∨ ∃ b, m.1 = some b ∧ d.dist b = some m.2)
    f.blocks _ (.inl ⟨rfl, rfl⟩) fun m hm b _ => ?_
  cases hx : d.dist b with
  | none => exact hm
  | some x =>
    by_cases hc : f.isRet b = true ∧ m.2 < x
    · simp only [if_pos hc]
      exact .inr ⟨b, rfl, hx⟩
    · simpa only [if_neg hc] using hm

theorem maxReturn_le {d : Table Block} {x : Int} (hx : 0 ≤ x)
    (h : ∀ b ∈ f.blocks, f.isRet b = true → ∀ y, d.dist b = some y → y ≤ x) :
    (maxReturn f d).2 ≤ x := by
  unfold maxReturn
  refine List.foldlRecOn (motive := fun (m : Option Block × Int) => m.2 ≤ x) f.blocks _ hx
    fun m hm b hb => ?_
  cases hd : d.dist b with
  | none => exact hm
  | some y =>
    by_cases hc : f.isRet b = true ∧ m.2 < y
    · simp only [if_pos hc]
      exact h b hb hc.1 y hd
    · simpa only [if_neg hc] using hm

theorem le_maxReturn {d : Table Block} {b : Block} {x : Int} (hb : b ∈ f.blocks)
    (hr : f.isRet b = true) (hd : d.dist b = some x) : x ≤ (maxReturn f d).2 := by
  unfold maxReturn
  obtain ⟨front, rest, hblocks⟩ := List.append_of_mem hb
  rw [hblocks, List.foldl_append, List.foldl_cons]
  refine List.foldlRecOn (motive := fun (m : Option Block × Int) => x ≤ m.2) rest _ ?_
    fun m hm c _ => ?_
  · simp only [hd, hr, true_and]
    split
    · exact Int.le_refl x
    · omega
  · cases hdc : d.dist c with
    | none => exact hm
    | some y =>
      by_cases hc : f.isRet c = true ∧ m.2 < y
      · simp only [if_pos hc]
        omega
      · simpa only [if_neg hc] using hm

/-- How the first loop ends: no return block is too far from the entry, or nothing gets out of the
entry without a probe. -/
def EndToEnd (o : Options) (f : Func) (p : Plan) : Prop :=
  (maxReturn f (longestDistanceFrom f p f.entry)).2 ≤ o.maxE2EUninst ∨
    ∀ s ∈ f.succs f.entry, p.inst (f.entry, s) ≠ .uninst

/-- The first loop ends. -/
theorem e2eLoop_spec (hmax : 0 ≤ o.maxE2EUninst) (h : Inv o f p) :
    ∃ p', (∀ n, openEdges f p < n → e2eLoop o f n p = .ok p') ∧ Narrows p p' ∧ EndToEnd o f p' := by
  induction hk : openEdges f p using Nat.strongRecOn generalizing p with
  | ind k ih =>
  have hstep : ∀ p', (∀ n, e2eLoop o f (n + 1) p = .ok p') → ∀ n, k < n →
      e2eLoop o f n p = .ok p' := by
    intro p' hp' n hn
    obtain ⟨n, rfl⟩ : ∃ n', n = n' + 1 := ⟨n - 1, by omega⟩
    exact hp' n
  by_cases hdone : (maxReturn f (longestDistanceFrom f p f.entry)).2 ≤ o.maxE2EUninst
  · exact ⟨p, hstep p fun n => by simp [e2eLoop, hdone], .refl p, .inl hdone⟩
  rcases maxReturn_spec f (longestDistanceFrom f p f.entry) with ⟨-, hz⟩ | ⟨b, hb, hd⟩
  · omega
  have hbs := longest_sorted h hd
  have hlen : p.sortedBBs.length ≤ f.blocks.length :=
    (List.subperm_of_subset h.nodup h.subset).length_le
  obtain ⟨r, hr, hw⟩ := decideInstLocations_spec h (longest_traceable h o.maxE2EUninst)
    f.blocks.length hbs hd (by omega) (by omega)
  cases hw with
  | edge u v hu hv he =>
    obtain ⟨hn, hlt⟩ := probe_narrows h hu hv he
    obtain ⟨p', hp', hn', hend⟩ := ih _ (hk ▸ hlt) (h.narrows hn) rfl
    refine ⟨p', fun n hkn => ?_, hn.trans hn', hend⟩
    obtain ⟨n, rfl⟩ : ∃ n', n = n' + 1 := ⟨n - 1, by omega⟩
    have hrec := hp' n (by omega)
    simp [e2eLoop, hdone, hb, hr, hrec]
  | root c x hp hd hx =>
    cases longest_root h hd hp
    have hl : Narrows p { p with largeBB := some f.entry } :=
      ⟨rfl, rfl, rfl, rfl, rfl, fun _ => .inl rfl⟩
    have hn : Narrows { p with largeBB := some f.entry } _ :=
      narrows_outgoing fun s hs => (h.keys f.entry s).mpr ⟨Inv.entry h, hs⟩
    refine ⟨_, hstep _ fun n => ?_, hl.trans hn, .inr (instrumentOutgoing_inst f f.entry _)⟩
    simp [e2eLoop, hdone, hb, hr, hd, hx]

/-! ## Distances of all paths -/

/-- `distanceCand` with nothing wrapped. -/
def distanceSum (p : Plan) (u v : Block) (distU : Option Int) : Option Int :=
  some (p.costMap v + if propagates p u v then distU.getD 0 else 0)

/-- A distance is the cost of a path. -/
def DistanceEntry (f : Func) (p : Plan) (b : Block) (x : Int) : Prop :=
  ∃ s ∈ p.sortedBBs, ∃ path, Unbroken f p s b path ∧ pathCost p path = x

theorem DistanceEntry.bounds (h : Inv o f p) {b : Block} {x : Int} (hx : DistanceEntry f p b x) :
    0 ≤ x ∧ x ≤ intMax := by
  obtain ⟨s, hs, path, hpath, rfl⟩ := hx
  refine ⟨List.sum_nonneg fun c hc => ?_, h.fits s hs b path hpath⟩
  obtain ⟨u, hu, rfl⟩ := List.mem_map.mp hc
  exact h.nonneg u (h.topo.reaches hs (hpath.mem_reaches u hu))

theorem distanceSum_entry (h : Inv o f p) {u v : Block} (hu : u ∈ p.sortedBBs)
    (hv : v ∈ forward f p.backEdges u) {y : Option Int}
    (hy : ∀ d, y = some d → DistanceEntry f p u d) {x : Int}
    (hx : distanceSum p u v y = some x) : DistanceEntry f p v x := by
  have hvs := h.topo.closed hu hv
  have hstart : DistanceEntry f p v (p.costMap v) := ⟨v, hvs, [v], .start, pathCost_singleton p v⟩
  cases hx
  by_cases hc : propagates p u v
  · cases y with
    | none => simpa using hstart
    | some d =>
      obtain ⟨s, hs, path, hpath, rfl⟩ := hy d rfl
      refine ⟨s, hs, path ++ [v], .snoc u v path hpath hv hc, ?_⟩
      rw [pathCost_snoc, if_pos hc, Option.getD_some, Int.add_comm]
  · simpa [hc] using hstart

theorem distanceCand_eq (h : Inv o f p) {u v : Block} (hu : u ∈ p.sortedBBs)
    (hv : v ∈ forward f p.backEdges u) {y : Option Int}
    (hy : ∀ d, y = some d → DistanceEntry f p u d) :
    distanceCand p u v y = distanceSum p u v y := by
  have hsum := (distanceSum_entry h hu hv hy rfl).bounds h
  unfold distanceCand distanceSum
  by_cases hc : propagates p u v
  · rw [if_pos hc] at hsum ⊢
    rw [if_pos hc, int32_eq ⟨by unfold intMin; omega, hsum.2⟩]
  · rw [if_neg hc, if_neg hc, Int.add_zero]

theorem distance_entry (h : Inv o f p) {b : Block} {x : Int}
    (hd : (generateDistanceMap f p).table.dist b = some x) : DistanceEntry f p b x := by
  unfold generateDistanceMap at hd
  rw [sweepMax_table] at hd
  refine sweep_forall (P := DistanceEntry f p) (fun v d hd => ?_)
    (fun u hu v hv y hy d hd => ?_) hd
  · by_cases hv : v = f.entry
    · subst hv
      simp only [Function.update_self, Option.some.injEq] at hd
      exact ⟨f.entry, Inv.entry h, [f.entry], .start, by rw [pathCost_singleton, hd]⟩
    · simp [hv] at hd
  · rw [distanceCand_eq h (List.mem_reverse.mp hu) hv hy] at hd
    exact distanceSum_entry h (List.mem_reverse.mp hu) hv hy hd

theorem distance_swept (h : Inv o f p) :
    Swept (forward f p.backEdges) (distanceSum p) (distanceTag p) p.sortedBBs
      ⟨Function.update (fun _ => none) f.entry (some (p.costMap f.entry)),
        Function.update (fun _ => none) f.entry (some f.entry)⟩
      (generateDistanceMap f p).table := by
  have heq : ∀ u ∈ p.sortedBBs, ∀ v ∈ forward f p.backEdges u,
      distanceCand p u v ((generateDistanceMap f p).table.dist u) =
        distanceSum p u v ((generateDistanceMap f p).table.dist u) := fun u hu v hv =>
    distanceCand_eq h hu hv fun d hd => distance_entry h hd
  unfold generateDistanceMap at heq ⊢
  rw [sweepMax_table] at heq ⊢
  exact (sweep_swept h.topo h.nodup _).congr heq

theorem distance_best (f : Func) (p : Plan) : IsBest (generateDistanceMap f p) := by
  refine sweepMax_best _ _ _ _ ⟨by simp, fun v d hd => ?_⟩
  by_cases hv : v = f.entry
  · subst hv
    simp only [Function.update_self, Option.some.injEq] at hd
    exact Int.le_of_eq hd.symm
  · simp [hv] at hd

/-- Every block has a distance, and it covers the block. -/
theorem distance_ge (h : Inv o f p) {v : Block} (hv : v ∈ p.sortedBBs) :
    ∃ x, (generateDistanceMap f p).table.dist v = some x ∧ p.costMap v ≤ x := by
  have hs := distance_swept h
  have hr := (h.sorted v).mp hv
  induction hr with
  | refl => exact hs.grows f.entry _ (by simp)
  | tail hab hbc ih =>
    rename_i u v
    have hu : u ∈ p.sortedBBs := (h.sorted u).mpr hab
    obtain ⟨y, hy, hle⟩ := ih hu
    have hy₀ := h.nonneg u hu
    obtain ⟨x, hx, hge⟩ := hs.ge u hu v hbc _ rfl
    refine ⟨x, hx, ?_⟩
    rw [hy, Option.getD_some] at hge
    split at hge <;> omega

/-- A block over the commit interval got its distance from a predecessor. -/
theorem distance_source (h : Inv o f p) {v : Block} {x : Int}
    (hd : (generateDistanceMap f p).table.dist v = some x) (hx : o.commitInterval ≤ x) :
    ∃ u y, u ∈ p.sortedBBs ∧ v ∈ forward f p.backEdges u ∧
      (generateDistanceMap f p).table.prev v = some u ∧
      (generateDistanceMap f p).table.dist u = some y ∧ propagates p u v := by
  have hsmall := h.small v
  rcases (distance_swept h).source v with ⟨hsd, -⟩ | ⟨u, hu, hv, y, hc, hdv, hp⟩
  · rw [hd] at hsd
    by_cases hve : v = f.entry
    · subst hve
      simp only [Function.update_self, Option.some.injEq] at hsd
      omega
    · simp [hve] at hsd
  · obtain ⟨z, hz, -⟩ := distance_ge h hu
    rw [hd] at hdv
    cases hdv
    by_cases hprop : propagates p u v
    · exact ⟨u, z, hu, hv, by simpa [distanceTag, hprop] using hp, hz, hprop⟩
    · simp only [distanceSum, if_neg hprop, Option.some.injEq] at hc
      omega

theorem distance_traceable (h : Inv o f p) :
    Traceable f p (generateDistanceMap f p).table o.commitInterval := by
  intro v x hd hx
  obtain ⟨u, y, hu, hv, hp, hy, hprop⟩ := distance_source h hd hx
  exact .inr ⟨u, y, hu, hv, hp, hy, fun _ => hprop.1⟩

/-- No path over the commit interval starts where it ends. -/
theorem distance_no_root (h : Inv o f p) {b : Block} {x : Int}
    (hd : (generateDistanceMap f p).table.dist b = some x) (hx : o.commitInterval ≤ x) :
    (generateDistanceMap f p).table.prev b ≠ some b := by
  intro hp
  obtain ⟨u, y, hu, hb, hp', -⟩ := distance_source h hd hx
  rw [hp] at hp'
  cases hp'
  exact absurd (h.idxOf_lt hu hb) (Nat.lt_irrefl _)

theorem distance_sorted (h : Inv o f p) {v : Block} {x : Int}
    (hd : (generateDistanceMap f p).table.dist v = some x) : v ∈ p.sortedBBs := by
  rcases (distance_swept h).source v with ⟨hsd, -⟩ | ⟨u, hu, hv, -⟩
  · by_cases hve : v = f.entry
    · exact hve ▸ Inv.entry h
    · rw [hd] at hsd
      simp [hve] at hsd
  · exact h.topo.closed hu hv

/-- The second loop ends with the longest distance within the commit interval. -/
theorem distanceLoop_spec (h : Inv o f p) :
    ∃ p', (∀ n, openEdges f p < n → distanceLoop o f n p = .ok p') ∧ Narrows p p' ∧
      (generateDistanceMap f p').bestDist ≤ o.commitInterval := by
  induction hk : openEdges f p using Nat.strongRecOn generalizing p with
  | ind k ih =>
  by_cases hdone : (generateDistanceMap f p).bestDist ≤ o.commitInterval
  · refine ⟨p, fun n hn => ?_, .refl p, hdone⟩
    obtain ⟨n, rfl⟩ : ∃ n', n = n' + 1 := ⟨n - 1, by omega⟩
    simp [distanceLoop, hdone]
  have hd := (distance_best f p).here
  have hlen : p.sortedBBs.length ≤ f.blocks.length :=
    (List.subperm_of_subset h.nodup h.subset).length_le
  obtain ⟨r, hr, hw⟩ := decideInstLocations_spec h (distance_traceable h) f.blocks.length
    (distance_sorted h hd) hd (by omega) (by omega)
  cases hw with
  | edge u v hu hv he =>
    obtain ⟨hn, hlt⟩ := probe_narrows h hu hv he
    obtain ⟨p', hp', hn', hbest⟩ := ih _ (hk ▸ hlt) (h.narrows hn) rfl
    refine ⟨p', fun n hkn => ?_, hn.trans hn', hbest⟩
    obtain ⟨n, rfl⟩ : ∃ n', n = n' + 1 := ⟨n - 1, by omega⟩
    have hrec := hp' n (by omega)
    simp [distanceLoop, hdone, hr, hrec]
  | root c x hp hd hx => exact absurd hp (distance_no_root h hd hx)

/-! ## The bound -/

/-- A forward edge without a probe, out of a block that counts. -/
def OpenEdge (f : Func) (p : Plan) (u v : Block) : Prop :=
  v ∈ forward f p.backEdges u ∧ p.edgeInstMap (u, v) = some .uninst ∧ 0 < p.costMap u

theorem OpenEdge.propagates (h : Inv o f p) {u v : Block} (he : OpenEdge f p u v) :
    u ∈ p.sortedBBs ∧ Planner.propagates p u v := by
  refine ⟨((h.keys u v).mp ⟨_, he.2.1⟩).1, ?_, he.2.2, ?_⟩
  · simp [Plan.inst, he.2.1]
  · simp [h.noBB]

/-- Along a path the distance grows by at least the cost of the blocks. -/
theorem add_pathCost_le (h : Inv o f p)
    (hbest : (generateDistanceMap f p).bestDist ≤ o.commitInterval) (path : List Block) {u : Block}
    (hpath : (u :: path).IsChain (OpenEdge f p)) {y : Int}
    (hy : (generateDistanceMap f p).table.dist u = some y) :
    y + pathCost p path ≤ o.commitInterval := by
  induction path generalizing u y with
  | nil =>
    have hle := (distance_best f p).le u y hy
    rw [pathCost_nil]
    omega
  | cons v path ih =>
    obtain ⟨he, hrest⟩ := List.isChain_cons_cons.mp hpath
    obtain ⟨hu, hprop⟩ := OpenEdge.propagates h he
    obtain ⟨x, hx, hge⟩ := (distance_swept h).ge u hu v he.1 _ rfl
    rw [if_pos hprop, hy, Option.getD_some] at hge
    have hle := ih hrest hx
    rw [pathCost_cons]
    omega

theorem pathCost_le (h : Inv o f p) (hci : 0 < o.commitInterval)
    (hbest : (generateDistanceMap f p).bestDist ≤ o.commitInterval) (path : List Block)
    (hpath : path.IsChain (OpenEdge f p)) : pathCost p path ≤ o.commitInterval := by
  match path with
  | [] =>
    rw [pathCost_nil]
    omega
  | [u] => exact (pathCost_singleton p u).trans_le (Int.le_of_lt (h.small u))
  | u :: v :: path =>
    obtain ⟨he, -⟩ := List.isChain_cons_cons.mp hpath
    obtain ⟨y, hy, hle⟩ := distance_ge h (OpenEdge.propagates h he).1
    have hrest := add_pathCost_le h hbest (v :: path) hpath hy
    rw [pathCost_cons]
    omega

/-- Planning ends, in maps that satisfy the invariant and have no distance over the commit
interval. -/
theorem planProbes_spec {backEdges : List (Block × Block)} (hacyc : Acyclic f backEdges)
    (hci : 0 < o.commitInterval) (hmax : 0 ≤ o.maxE2EUninst)
    (hcost : ∀ b ∈ f.blocks, ∀ c ∈ f.costs b, 0 ≤ c) (hfit : Fits o f backEdges) :
    ∃ N p, (∀ n, N ≤ n → planProbes o f backEdges n = .ok p) ∧ Inv o f p ∧
      p.backEdges = backEdges ∧ (generateDistanceMap f p).bestDist ≤ o.commitInterval ∧
      ∃ p₁, Inv o f p₁ ∧ Narrows p₁ p ∧ EndToEnd o f p₁ := by
  obtain ⟨sortedBBs, hsort, hinv, hback⟩ := start_inv hacyc hci hcost hfit
  obtain ⟨p₁, hp₁, hn₁, hend⟩ := e2eLoop_spec hmax hinv
  obtain ⟨p₂, hp₂, hn₂, hbest⟩ := distanceLoop_spec (hinv.narrows hn₁)
  have hle := openEdges_le f hn₁
  refine ⟨openEdges f (initialPlan o f backEdges sortedBBs) + 1, p₂, fun n hn => ?_,
    hinv.narrows (hn₁.trans hn₂), (hn₁.trans hn₂).backEdges.trans hback, hbest, p₁,
    hinv.narrows hn₁, hn₂, hend⟩
  unfold planProbes
  rw [hsort]
  simp only [hp₁ n (by omega), hp₂ n (by omega)]

/-- Planning ends without a failed assertion and without giving up on a large block, and leaves no
uninstrumented path over the commit interval. -/
theorem planning_ends_within_interval (o : Options) (f : Func) (backEdges : List (Block × Block))
    (hacyc : Acyclic f backEdges) (hci : 0 < o.commitInterval) (hmax : 0 ≤ o.maxE2EUninst)
    (hcost : ∀ b ∈ f.blocks, ∀ c ∈ f.costs b, 0 ≤ c) (hfit : Fits o f backEdges) :
    ∃ N p, (∀ n, N ≤ n → planProbes o f backEdges n = .ok p) ∧ p.fallbacks = 0 ∧
      ∀ path : List Block, path.IsChain (OpenEdge f p) → pathCost p path ≤ o.commitInterval := by
  obtain ⟨N, p, hp, hinv, -, hbest, -⟩ := planProbes_spec hacyc hci hmax hcost hfit
  exact ⟨N, p, hp, hinv.noFallback, pathCost_le hinv hci hbest⟩

/-- A loop around two branches that meet again. -/
def branchLoop : Func where
  blocks := [0, 1, 2, 3, 4, 5]
  entry := 0
  succs := fun b => [[1], [2, 3], [4], [4], [1, 5], []].getD b []
  isRet := fun b => b == 5
  costs := fun b => [[2], [1], [3, 1], [1], [2], [1]].getD b []
  calls := fun _ => []
  entry_mem := by decide
  succs_mem := by decide

theorem acyclic_branchLoop : Acyclic branchLoop [(4, 1)] := acyclic_of_rank id (by decide)

theorem fits_branchLoop (o : Options) : Fits o branchLoop [(4, 1)] :=
  .of_total acyclic_branchLoop (by decide) (by decide)

theorem planning_ends_branchLoop :
    ∃ N p, (∀ n, N ≤ n → planProbes ⟨5, 5, 40, 1⟩ branchLoop [(4, 1)] n = .ok p) ∧ p.fallbacks = 0 ∧
      ∀ path : List Block, path.IsChain (OpenEdge branchLoop p) → pathCost p path ≤ 5 :=
  planning_ends_within_interval ⟨5, 5, 40, 1⟩ branchLoop [(4, 1)] acyclic_branchLoop
    (by decide) (by decide) (by decide) (fits_branchLoop _)

/-- Two blocks of which each is below the largest commit interval, but not both together. -/
def heavyPair : Func where
  blocks := [0, 1]
  entry := 0
  succs := fun b => [[1], []].getD b []
  isRet := fun b => b == 1
  costs := fun b => [[1073741824], [1073741824]].getD b []
  calls := fun _ => []
  entry_mem := by decide
  succs_mem := by decide

/-- The distance of the second block wraps to a negative number, so neither loop sees a path that
is too long: the edge stays open and the path over it costs almost twice the commit interval. -/
theorem heavy_path_unseen :
    Acyclic heavyPair [] ∧ (∀ b ∈ heavyPair.blocks, ∀ c ∈ heavyPair.costs b, 0 ≤ c) ∧
      ∃ p, (∀ n, planProbes ⟨1073741825, 0, 40, 1⟩ heavyPair [] (n + 1) = .ok p) ∧
        [0, 1].IsChain (OpenEdge heavyPair p) ∧ pathCost p [0, 1] = 2147483648 := by
  refine ⟨acyclic_of_rank id (by decide), by decide,
    initialPlan ⟨1073741825, 0, 40, 1⟩ heavyPair [] [1, 0], fun n => rfl, ?_, by decide⟩
  exact List.isChain_pair.mpr ⟨by decide, by decide, by decide⟩

end TinyQuanta.PlannerBound
