import TinyQuanta.LoopCredit
import TinyQuanta.LoopNest
import TinyQuanta.PlannerSteps

/-!
# Loops in simplified form

What `checkLoopsSimplified` and `checkBackEdges` establish, as laws of the data in
`Loop`: every back edge goes from the only latch of a loop to its header, the loop
is entered from its preheader only, and no exit block can be reached from outside.
With the topological order of the planner, the loops form a nest.
-/
namespace TinyQuanta.LoopForm

open Relation TopoSort Planner PlannerSteps LoopNest Instrumented

def Reachable (f : Func) (b : Block) : Prop := ReflTransGen (Edge f.succs) f.entry b

theorem Reachable.blocks {f : Func} {b : Block} (h : Reachable f b) : b ∈ f.blocks := by
  induction h with
  | refl => exact f.entry_mem
  | tail _ hbc ih => exact f.succs_mem _ ih _ hbc

structure Simplified (f : Func) (backEdges : List (Block × Block)) (loops : Block × Block → Loop) :
    Prop where
  edge : ∀ e ∈ backEdges, e.2 ∈ f.succs e.1
  latch_unique : ∀ e ∈ backEdges, ∀ e' ∈ backEdges, e.2 = e'.2 → e = e'
  header_mem : ∀ e ∈ backEdges, e.2 ∈ (loops e).body
  latch_mem : ∀ e ∈ backEdges, e.1 ∈ (loops e).body
  self_body : ∀ e ∈ backEdges, e.1 = e.2 → ∀ b ∈ (loops e).body, b = e.2
  entry : ∀ e ∈ backEdges, f.entry ∉ (loops e).body
  entry_exit : ∀ e ∈ backEdges, f.entry ∉ (loops e).exitBlocks
  closed : ∀ e ∈ backEdges, ∀ u, Reachable f u → ∀ v ∈ f.succs u, v ∈ (loops e).body → v ≠ e.2 →
    u ∈ (loops e).body
  preheader : ∀ e ∈ backEdges, ∀ u, Reachable f u → e.2 ∈ f.succs u →
    u = e.1 ∨ u = (loops e).preheader
  preheader_out : ∀ e ∈ backEdges, (loops e).preheader ∉ (loops e).body
  preheader_succs : ∀ e ∈ backEdges, f.succs (loops e).preheader = [e.2]
  exits : ∀ e ∈ backEdges, ∀ u ∈ (loops e).body, ∀ v ∈ f.succs u, v ∉ (loops e).body →
    v ∈ (loops e).exitBlocks
  exits_out : ∀ e ∈ backEdges, ∀ v ∈ (loops e).exitBlocks, v ∉ (loops e).body
  dedicated : ∀ e ∈ backEdges, ∀ u, Reachable f u → ∀ v ∈ f.succs u, v ∈ (loops e).exitBlocks →
    u ∈ (loops e).body
  nested : ∀ e ∈ backEdges, (loops e).isNested = true ↔
    ∃ e' ∈ backEdges, e'.2 ≠ e.2 ∧ e.2 ∈ (loops e').body

/-- The blocks in the order of `runToposort`. -/
structure Sorted (f : Func) (backEdges : List (Block × Block)) (l : List Block) : Prop where
  nodup : l.Nodup
  topo : RevTopo (forward f backEdges) l
  mem : ∀ b, b ∈ l ↔ ReflTransGen (Edge (forward f backEdges)) f.entry b

theorem Sorted.of_inv {o : Options} {f : Func} {p : Plan} (h : Inv o f p) :
    Sorted f p.backEdges p.sortedBBs := ⟨h.nodup, h.topo, h.sorted⟩

section Nest

variable {f : Func} {backEdges : List (Block × Block)} {loops : Block × Block → Loop}
  {l : List Block}

/-- The position in the topological order. -/
def rank (l : List Block) (b : Block) : Nat := l.length - l.idxOf b

def IsEdge (f : Func) (l : List Block) (u v : Block) : Prop := u ∈ l ∧ v ∈ f.succs u

def IsBack (backEdges : List (Block × Block)) (l : List Block) (u v : Block) : Prop :=
  u ∈ l ∧ (u, v) ∈ backEdges

def InBody (backEdges : List (Block × Block)) (loops : Block × Block → Loop) (l : List Block)
    (h x : Block) : Prop := x ∈ l ∧ ∃ e ∈ backEdges, e.2 = h ∧ x ∈ (loops e).body

theorem Sorted.reachable (h : Sorted f backEdges l) {b : Block} (hb : b ∈ l) : Reachable f b := by
  have hr := (h.mem b).mp hb
  clear hb
  induction hr with
  | refl => exact .refl
  | tail _ hbc ih => exact ih.tail (mem_forward.mp hbc).1

theorem Sorted.rank_lt (h : Sorted f backEdges l) {u v : Block} (hu : u ∈ l)
    (hv : v ∈ forward f backEdges u) : rank l u < rank l v := by
  have hidx := h.topo.idxOf_lt h.nodup hu hv
  have hlt := List.idxOf_lt_length_iff.mpr hu
  unfold rank
  omega

/-- The way to a block of a loop leads over the header. -/
theorem Simplified.header_first (hl : Simplified f backEdges loops) (h : Sorted f backEdges l)
    {e : Block × Block} (he : e ∈ backEdges) {x : Block} (hx : x ∈ l) (hb : x ∈ (loops e).body) :
    e.2 ∈ l ∧ (x ≠ e.2 → rank l e.2 < rank l x) := by
  have hr := (h.mem x).mp hx
  induction hr with
  | refl => exact absurd hb (hl.entry e he)
  | @tail u x hu hux ih =>
    by_cases hxe : x = e.2
    · exact ⟨hxe ▸ hx, fun hne => absurd hxe hne⟩
    · have hul : u ∈ l := (h.mem u).mpr hu
      have hub := hl.closed e he u (h.reachable hul) x (mem_forward.mp hux).1 hb hxe
      have hlt := h.rank_lt hul hux
      obtain ⟨hel, hfirst⟩ := ih hul hub
      refine ⟨hel, fun _ => ?_⟩
      by_cases hue : u = e.2
      · exact hue ▸ hlt
      · exact Nat.lt_trans (hfirst hue) hlt

theorem Simplified.header_le (hl : Simplified f backEdges loops) (h : Sorted f backEdges l)
    {e : Block × Block} (he : e ∈ backEdges) {x : Block} (hx : x ∈ l) (hb : x ∈ (loops e).body) :
    rank l e.2 ≤ rank l x := by
  by_cases hxe : x = e.2
  · exact Nat.le_of_eq (congrArg (rank l) hxe.symm)
  · exact Nat.le_of_lt ((hl.header_first h he hx hb).2 hxe)

theorem Simplified.nest (hl : Simplified f backEdges loops) (h : Sorted f backEdges l) :
    Nest (IsEdge f l) (IsBack backEdges l) (rank l) (InBody backEdges loops l) where
  up u v he hb := h.rank_lt he.1 (mem_forward.mpr ⟨he.2, fun hmem => hb ⟨he.1, hmem⟩⟩)
  isEdge u v hb := ⟨hb.1, hl.edge (u, v) hb.2⟩
  latch u v hb := ⟨hb.1, (u, v), hb.2, rfl, hl.latch_mem (u, v) hb.2⟩
  closed := by
    rintro _ u v hedge ⟨-, e, he, rfl, hv⟩ hne
    exact ⟨hedge.1, e, he, rfl, hl.closed e he u (h.reachable hedge.1) v hedge.2 hv hne⟩
  first := by
    rintro _ x ⟨hx, e, he, rfl, hb⟩ hne
    exact (hl.header_first h he hx hb).2 hne

theorem Simplified.shape (hl : Simplified f backEdges loops) {e : Block × Block}
    (he : e ∈ backEdges) : LoopCredit.Shape e (loops e) where
  header := hl.header_mem e he
  latch := hl.latch_mem e he
  preheader := hl.preheader_out e he
  self := hl.self_body e he

/-- All blocks an execution comes to are in the order. -/
theorem Simplified.succ_mem (hl : Simplified f backEdges loops) (h : Sorted f backEdges l)
    {u v : Block} (hu : u ∈ l) (hv : v ∈ f.succs u) : v ∈ l := by
  by_cases hb : (u, v) ∈ backEdges
  · exact (hl.header_first h hb hu (hl.latch_mem (u, v) hb)).1
  · exact h.topo.closed hu (mem_forward.mpr ⟨hv, hb⟩)

/-- The entry block has no predecessors. -/
theorem Simplified.entry_no_pred (hl : Simplified f backEdges loops) (h : Sorted f backEdges l)
    {u : Block} (hu : u ∈ l) : f.entry ∉ f.succs u := by
  intro hv
  by_cases hb : (u, f.entry) ∈ backEdges
  · exact hl.entry _ hb (hl.header_mem _ hb)
  · have hlt := h.rank_lt hu (mem_forward.mpr ⟨hv, hb⟩)
    have hle : ∀ x, ReflTransGen (Edge (forward f backEdges)) f.entry x →
        rank l f.entry ≤ rank l x := by
      intro x hx
      induction hx with
      | refl => exact Nat.le_refl _
      | tail hb hbc ih => exact Nat.le_trans ih (Nat.le_of_lt (h.rank_lt ((h.mem _).mpr hb) hbc))
    exact absurd (hle u ((h.mem u).mp hu)) (Nat.not_le.mpr hlt)

/-- A block other than the entry is reached over a forward edge. -/
theorem Sorted.forward_pred (h : Sorted f backEdges l) {v : Block} (hv : v ∈ l)
    (hne : v ≠ f.entry) : ∃ u ∈ l, v ∈ forward f backEdges u := by
  cases (h.mem v).mp hv with
  | refl => exact absurd rfl hne
  | tail hu huv => exact ⟨_, (h.mem _).mpr hu, huv⟩

/-- The edge out of the preheader is not a back edge. -/
theorem Simplified.preheader_forward (hl : Simplified f backEdges loops) {e : Block × Block}
    (he : e ∈ backEdges) : ((loops e).preheader, e.2) ∉ backEdges := by
  intro hb
  have heq : (loops e).preheader = e.1 := congrArg Prod.fst (hl.latch_unique _ hb e he rfl)
  exact hl.preheader_out e he (heq ▸ hl.latch_mem e he)

theorem Simplified.preheader_rank (hl : Simplified f backEdges loops) (h : Sorted f backEdges l)
    {e : Block × Block} (he : e ∈ backEdges) (hp : (loops e).preheader ∈ l) :
    rank l (loops e).preheader < rank l e.2 := by
  refine h.rank_lt hp (mem_forward.mpr ⟨?_, hl.preheader_forward he⟩)
  rw [hl.preheader_succs e he]
  exact List.mem_singleton_self e.2

/-- A loop is not left into its own preheader. -/
theorem Simplified.preheader_not_exit (hl : Simplified f backEdges loops)
    (h : Sorted f backEdges l) {e : Block × Block} (he : e ∈ backEdges) {u : Block} (hu : u ∈ l)
    (hpred : (loops e).preheader ∈ f.succs u) : (loops e).preheader ∉ (loops e).exitBlocks := by
  intro hx
  have hp : (loops e).preheader ∈ l := hl.succ_mem h hu hpred
  have hne : (loops e).preheader ≠ f.entry := fun heq => hl.entry_no_pred h hu (heq ▸ hpred)
  obtain ⟨w, hw, hwv⟩ := h.forward_pred hp hne
  have hwb := hl.dedicated e he w (h.reachable hw) _ (mem_forward.mp hwv).1 hx
  have h₁ := hl.header_le h he hw hwb
  have h₂ := h.rank_lt hw hwv
  have h₃ := hl.preheader_rank h he hp
  omega

/-- The latch of another loop is not a self loop. -/
theorem Simplified.self_latch (hl : Simplified f backEdges loops) (h : Sorted f backEdges l)
    {e : Block × Block} (he : e ∈ backEdges) (hel : e.1 ∈ l) (hself : (e.1, e.1) ∈ backEdges) :
    e.1 = e.2 := by
  by_contra hne
  have hout : e.2 ∉ (loops (e.1, e.1)).body := by
    intro hb
    exact hne (hl.self_body _ hself rfl _ hb).symm
  have hx := hl.exits _ hself e.1 (hl.header_mem _ hself) e.2 (hl.edge e he) hout
  have hel₂ := hl.succ_mem h hel (hl.edge e he)
  obtain ⟨u, hu, huv⟩ := h.forward_pred hel₂ fun heq => hl.entry e he (heq ▸ hl.header_mem e he)
  have hub := hl.self_body _ hself rfl u
    (hl.dedicated _ hself u (h.reachable hu) e.2 (mem_forward.mp huv).1 hx)
  apply (mem_forward.mp huv).2
  rw [hub]
  exact he

theorem Simplified.outermost (hl : Simplified f backEdges loops) {e : Block × Block}
    (he : e ∈ backEdges) (hn : (loops e).isNested = false) :
    Outermost (IsBack backEdges l) (InBody backEdges loops l) e.2 := by
  rintro u _ - hne ⟨-, e', he', rfl, hb⟩
  have hnested := (hl.nested e he).mpr ⟨e', he', hne, hb⟩
  rw [hn] at hnested
  cases hnested

/-- The preheader of a loop that is not nested comes before the loop only. -/
theorem Simplified.preheader_once (hl : Simplified f backEdges loops) (h : Sorted f backEdges l)
    {e : Block × Block} (he : e ∈ backEdges) (hn : (loops e).isNested = false)
    (hp : (loops e).preheader ∈ l) :
    ¬ ReflTransGen (IsEdge f l) e.2 (loops e).preheader := by
  intro hr
  refine (hl.nest h).not_reenter (hl.outermost he hn) hr ⟨hp, ?_⟩
    fun hb => hl.preheader_forward he hb.2
  rw [hl.preheader_succs e he]
  exact List.mem_singleton_self e.2

end Nest

end TinyQuanta.LoopForm
