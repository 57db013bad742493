import Mathlib.Order.Bounds.Defs
import TinyQuanta.PlannerBound

/-!
# What `longestDistanceFrom` computes

The table has an entry for every block that can be reached from the start, and
the entry is the cost of the longest path without a probe. A block that every
such path misses gets 0, which the real sums absorb: along an unbroken path every
sum is positive from the first block on. All of this holds exactly when no such path
costs more than an `int` can hold.
-/
namespace TinyQuanta.LongestDistance

open Relation TopoSort Relaxation Planner PlannerSteps PlannerBound Params

/-- The table of the longest unbroken paths: an entry for each block that can be reached over
forward edges, with the largest cost of an unbroken path to it, or 0 if there is none. -/
def IsLongest (f : Func) (p : Plan) (startBB : Block) (t : Table Block) : Prop :=
  ∀ b, ((∃ x, t.dist b = some x) ↔ ReflTransGen (Edge (forward f p.backEdges)) startBB b) ∧
    ∀ x, t.dist b = some x →
      ((∃ path, Unbroken f p startBB b path) →
        IsGreatest {c | ∃ path, Unbroken f p startBB b path ∧ pathCost p path = c} x) ∧
      ((¬ ∃ path, Unbroken f p startBB b path) → x = 0)

section

variable {f : Func} {p : Plan} {startBB : Block}

/-- The last block of a path is paid for. -/
theorem Unbroken.cost_le (hm : Metered f p startBB) {b : Block} {path : List Block}
    (h : Unbroken f p startBB b path) : p.costMap b ≤ pathCost p path := by
  induction h with
  | start => simp
  | snoc u v path h _ _ ih =>
    have hu := hm.nonneg u (hm.topo.reaches hm.start h.reaches)
    rw [pathCost_snoc]
    omega

/-- Everything that can be reached gets an entry. -/
theorem entry_of_reaches (hm : Metered f p startBB) {b : Block}
    (hb : ReflTransGen (Edge (forward f p.backEdges)) startBB b) :
    ∃ x, (longestDistanceFrom f p startBB).dist b = some x := by
  have hsw := longest_swept hm
  induction hb with
  | refl =>
    obtain ⟨x, hx, -⟩ := hsw.grows startBB (p.costMap startBB) (by simp)
    exact ⟨x, hx⟩
  | @tail u v hu hv ih =>
    obtain ⟨y, hy⟩ := ih
    obtain ⟨x, hx, -⟩ := hsw.ge u (hm.topo.reaches hm.start hu) v hv _ (by rw [hy]; rfl)
    exact ⟨x, hx⟩

/-- No path costs more than the entry of its end. -/
theorem path_le_entry (hm : Metered f p startBB) {b : Block} {path : List Block}
    (h : Unbroken f p startBB b path) :
    ∃ x, (longestDistanceFrom f p startBB).dist b = some x ∧ pathCost p path ≤ x := by
  have hsw := longest_swept hm
  induction h with
  | start =>
    obtain ⟨x, hx, hle⟩ := hsw.grows startBB (p.costMap startBB) (by simp)
    exact ⟨x, hx, by simpa using hle⟩
  | snoc u v path h hv huv ih =>
    obtain ⟨y, hy, hle⟩ := ih
    have hpos : 0 < y := by
      have hu := Unbroken.cost_le hm h
      have hu₀ := huv.2.1
      omega
    obtain ⟨x, hx, hge⟩ := hsw.ge u (hm.topo.reaches hm.start h.reaches) v hv (y + p.costMap v)
      (by simp [longestSum, hy, huv, hpos])
    exact ⟨x, hx, by rw [pathCost_snoc]; omega⟩

theorem longest_of_metered (hm : Metered f p startBB) :
    IsLongest f p startBB (longestDistanceFrom f p startBB) := by
  intro b
  refine ⟨⟨fun ⟨x, hx⟩ => (longest_entry hm hx).1, entry_of_reaches hm⟩, fun x hx => ?_⟩
  have hsource := (longest_entry hm hx).2
  have hbound : ∀ path, Unbroken f p startBB b path → pathCost p path ≤ x := by
    intro path hpath
    obtain ⟨y, hy, hle⟩ := path_le_entry hm hpath
    cases hx.symm.trans hy
    exact hle
  constructor
  · rintro ⟨path, hpath⟩
    refine ⟨?_, fun c ⟨path, hpath, hc⟩ => hc ▸ hbound path hpath⟩
    rcases hsource with rfl | hmem
    · -- the entry is 0 because the costs of all unbroken paths are
      have hle := hbound path hpath
      have hge := Unbroken.cost_le hm hpath
      have hb := hm.nonneg b (hm.topo.reaches hm.start hpath.reaches)
      exact ⟨path, hpath, by omega⟩
    · exact hmem
  · intro hnone
    exact hsource.resolve_right fun ⟨path, hpath, _⟩ => hnone ⟨path, hpath⟩

/-- Whatever the paths cost, the entries are `int`s. -/
theorem entry_le_intMax (hstart : p.costMap startBB ≤ intMax) {b : Block} {x : Int}
    (hd : (longestDistanceFrom f p startBB).dist b = some x) : x ≤ intMax := by
  refine sweep_forall (P := fun _ x => x ≤ intMax) (fun v d hd => ?_)
    (fun u _ v _ y _ d hd => ?_) hd
  · by_cases hv : v = startBB
    · subst hv
      simp only [Function.update_self, Option.some.injEq] at hd
      exact hd ▸ hstart
    · simp [hv] at hd
  · obtain ⟨z, -, rfl⟩ := Option.map_eq_some_iff.mp hd
    split
    · exact (int32_inInt _).2
    · decide

end

/-- `longestDistanceFrom` computes the longest unbroken paths from the start if and only if the cost
of each of them is an `int`. -/
theorem longest_distance (f : Func) (p : Plan) (startBB : Block) (hn : p.sortedBBs.Nodup)
    (ht : RevTopo (forward f p.backEdges) p.sortedBBs) (hs : startBB ∈ p.sortedBBs)
    (hcost : ∀ b ∈ p.sortedBBs, 0 ≤ p.costMap b ∧ p.costMap b ≤ intMax) :
    IsLongest f p startBB (longestDistanceFrom f p startBB) ↔
      ∀ b path, Unbroken f p startBB b path → pathCost p path ≤ intMax := by
  constructor
  · intro h b path hpath
    obtain ⟨x, hx⟩ := (h b).1.mpr hpath.reaches
    have hle : pathCost p path ≤ x := (((h b).2 x hx).1 ⟨path, hpath⟩).2 ⟨path, hpath, rfl⟩
    exact hle.trans (entry_le_intMax (hcost startBB hs).2 hx)
  · exact fun hfit => longest_of_metered ⟨hn, ht, hs, fun b hb => (hcost b hb).1, hfit⟩

/-- Two ways from block 0 to block 3, the first with a probe on its last edge; so is the edge to
block 4. -/
def diamond : Func where
  blocks := [4, 3, 1, 2, 0]
  entry := 0
  succs b := ([[1, 2], [3], [3], [4]] : List (List Block)).getD b []
  isRet b := b == 4
  costs b := [b + 1]
  calls _ := []
  entry_mem := by decide
  succs_mem := by decide

def diamondPlan : Plan where
  backEdges := []
  sortedBBs := [4, 3, 1, 2, 0]
  costMap b := b + 1
  edgeInstMap e := some (if e = (1, 3) ∨ e = (3, 4) then .normInst else .uninst)
  instrumentedBB := []
  largeBB := none
  numEdgeInst := 2
  fallbacks := 0

theorem revTopo_diamond : RevTopo (forward diamond []) [4, 3, 1, 2, 0] :=
  .snoc [4, 3, 1, 2] 0 (.snoc [4, 3, 1] 2 (.snoc [4, 3] 1 (.snoc [4] 3 (.snoc [] 4 .nil
    (by decide)) (by decide)) (by decide)) (by decide)) (by decide)

/-- Everything from block 0 on costs 15 at most. -/
theorem diamond_fits {b : Block} {path : List Block} (h : Unbroken diamond diamondPlan 0 b path) :
    pathCost diamondPlan path ≤ intMax := by
  have hreach : ∀ c ∈ path, ReflTransGen (Edge (forward diamond [])) diamond.entry c :=
    h.mem_reaches
  have hacyc : Acyclic diamond [] :=
    acyclic_of_rank (fun b => [0, 1, 1, 2, 3].getD b 0) (by decide)
  have hle : pathCost diamondPlan path ≤ pathCost diamondPlan diamond.blocks :=
    sum_path_le hacyc hreach (h.chain.imp fun u v huv => huv.1) (by decide)
  exact hle.trans (by decide)

theorem longest_distance_diamond :
    (longestDistanceFrom diamond diamondPlan 0).dist 3 = some 8 ∧
      IsGreatest {c | ∃ path, Unbroken diamond diamondPlan 0 3 path ∧ pathCost diamondPlan path = c}
        8 ∧
      ReflTransGen (Edge (forward diamond [])) 0 3 := by
  have hpath : Unbroken diamond diamondPlan 0 3 [0, 2, 3] :=
    .snoc 2 3 [0, 2] (.snoc 0 2 [0] .start (by decide) (by decide)) (by decide) (by decide)
  have h := (longest_distance diamond diamondPlan 0 (by decide) revTopo_diamond (by decide)
    (by decide)).mpr (fun _ _ => diamond_fits) 3
  exact ⟨by decide, (h.2 8 (by decide)).1 ⟨_, hpath⟩, h.1.mp ⟨8, by decide⟩⟩

/-- Two blocks that cost an `int` each, but not together. -/
def heavyPlan : Plan where
  backEdges := []
  sortedBBs := [1, 0]
  costMap _ := 1073741824
  edgeInstMap _ := some .uninst
  instrumentedBB := []
  largeBB := none
  numEdgeInst := 0
  fallbacks := 0

/-- The only path to block 1 is recorded with a negative cost. -/
theorem longest_distance_wraps :
    (∀ b ∈ heavyPlan.sortedBBs, 0 ≤ heavyPlan.costMap b ∧ heavyPlan.costMap b ≤ intMax) ∧
      RevTopo (forward heavyPair heavyPlan.backEdges) heavyPlan.sortedBBs ∧
      Unbroken heavyPair heavyPlan 0 1 [0, 1] ∧ pathCost heavyPlan [0, 1] = 2147483648 ∧
      (longestDistanceFrom heavyPair heavyPlan 0).dist 1 = some (-2147483648) := by
  refine ⟨by decide, .snoc [1] 0 (.snoc [] 1 .nil (by decide)) (by decide), ?_, by decide,
    by decide⟩
  exact .snoc 0 1 [0] .start (by decide) (by decide)

end TinyQuanta.LongestDistance
