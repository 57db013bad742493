import TinyQuanta.LoopCounters

/-!
# How often a loop goes round between two checks

For every loop probe, its slots bound what the loop may have cost since the last
check, wherever that was. There are four kinds: a counter, a threshold on the
induction variable, and the two kinds of copied self loops. A nested loop keeps
its count from one entry to the next, in the counter, the residual steps or the
sum of the ranges; one that is not nested is entered once.
-/
namespace TinyQuanta.LoopCredit

open Params Planner InsertProbes Instrumented LoopCounters

/-- The numbers of a loop probe: iterations, cost of an iteration, commit interval. -/
structure Bounds (ci n cost : Int) : Prop where
  iters : 1 ≤ n
  cost_pos : 0 < cost
  le : n * cost ≤ ci
  int : ci ≤ intMax

theorem Bounds.n_le {ci n cost : Int} (h : Bounds ci n cost) : n ≤ ci := by
  have hle : n * 1 ≤ n * cost :=
    Int.mul_le_mul_of_nonneg_left h.cost_pos (Int.le_trans (by decide) h.iters)
  have hub := h.le
  omega

theorem Bounds.mul_le {ci n cost : Int} (h : Bounds ci n cost) {c : Int} (hc : c < n) :
    c * cost + cost ≤ ci := by
  have hle : (c + 1) * cost ≤ n * cost :=
    Int.mul_le_mul_of_nonneg_right hc (Int.le_of_lt h.cost_pos)
  rw [Int.add_mul, Int.one_mul] at hle
  exact Int.le_trans hle h.le

theorem add_cost_le {cost d y : Int} (h : y ≤ d * cost) : y + cost ≤ (d + 1) * cost := by
  rw [Int.add_mul]
  omega

/-- Where the blocks of a back edge lie. -/
structure Shape (e : Block × Block) (l : Loop) : Prop where
  header : e.2 ∈ l.body
  latch : e.1 ∈ l.body
  preheader : l.preheader ∉ l.body
  self : e.1 = e.2 → ∀ b ∈ l.body, b = e.2

/-- The loop probe counts as it is meant to. A nested self loop with an induction variable has
to have a copy: nothing carries its count over to the next entry. -/
structure Exact (ci : Int) (e : Block × Block) (l : Loop) : Prop where
  fits : ∀ iv, l.indVar = some iv → Fits ci iv
  clone : cloneable e l = true → ∀ iv, l.indVar = some iv → CloneFits ci iv
  residual : l.isNested = true → e.1 = e.2 → l.indVar ≠ none → cloneable e l = true

/-- Where the execution is, and the slots of the loop. -/
structure Spot where
  cur : Block
  clone : Bool
  slots : Slots

section Credit

variable (n cost : Int) (e : Block × Block) (l : Loop)

def Plain (a : Spot) (ch : Int) : Prop :=
  ∃ c, (0 ≤ c ∧ c < n) ∧ a.slots.loopIterations = c ∧ ch ≤ c * cost

def Counted (iv : IndVar) (a : Spot) (ch : Int) : Prop :=
  ∃ c, (0 ≤ c ∧ c < n) ∧ ch ≤ c * cost ∧
    (a.cur ∈ l.body ∨ a.cur = l.preheader →
      a.slots.loopThreshold = iv.width.wrap (a.slots.indVar + (n - c) * iv.step)) ∧
    (l.isNested = true → a.cur ∉ l.body →
      a.slots.residualSteps = iv.width.wrap ((n - c) * iv.step))

/-- A copied self loop that is not nested. -/
def ClonedOnce (iv : IndVar) (a : Spot) (ch : Int) : Prop :=
  ∃ c, (0 ≤ c ∧ c < n) ∧ ch ≤ c * cost ∧
    (a.cur = l.preheader → c = 0 ∧ Trip iv a.slots 0 ∧
      a.slots.loopThreshold = iv.width.wrap (a.slots.indVar + n * iv.step)) ∧
    (a.cur = e.2 → a.clone = true → Trip iv a.slots c ∧
      along iv a.slots.valRange ≤ n * along iv iv.step) ∧
    (a.cur = e.2 → a.clone = false →
      a.slots.loopThreshold = iv.width.wrap (a.slots.indVar + (n - c) * iv.step))

/-- A stay in a nested copied self loop, on top of `c` iterations in earlier ones. After a check
of its own the loop charges `x`, the cost with which the time since that check begins. -/
inductive Stay (iv : IndVar) (a : Spot) (c ch x : Int) : Prop where
  | away (hcur : a.cur ≠ e.2) (hch : ch ≤ c * cost)
      (hpre : a.cur = l.preheader → Trip iv a.slots 0 ∧
        a.slots.loopThreshold = iv.width.wrap (a.slots.indVar + n * iv.step))
  | copy (j : Int) (hcur : a.cur = e.2) (hclone : a.clone = true) (ht : Trip iv a.slots j)
      (hr : along iv a.slots.valRange ≤ n * along iv iv.step) (hch : ch ≤ (c + j) * cost)
  | before (j : Int) (hcur : a.cur = e.2) (hclone : a.clone = false) (ht : Trip iv a.slots j)
      (hr : n * along iv iv.step < along iv a.slots.valRange) (hj : j < n)
      (hthr : a.slots.loopThreshold = iv.width.wrap (a.slots.indVar + (n - j) * iv.step))
      (hch : ch ≤ (c + j) * cost)
  | after (j d : Int) (hcur : a.cur = e.2) (hclone : a.clone = false) (ht : Trip iv a.slots j)
      (hr : n * along iv iv.step < along iv a.slots.valRange) (hd : 0 ≤ d ∧ d < n)
      (hthr : a.slots.loopThreshold = iv.width.wrap (a.slots.indVar + (n - d) * iv.step))
      (hch : ch ≤ c * cost) (hx : x ≤ d * cost)

def ClonedNested (iv : IndVar) (a : Spot) (ch x : Int) : Prop :=
  ∃ c, 0 ≤ c ∧ c * along iv iv.step ≤ along iv a.slots.sumLoopVal ∧
    along iv a.slots.sumLoopVal < n * along iv iv.step ∧
    a.slots.residualSteps = iv.width.wrap (n * iv.step) ∧ Stay n cost e l iv a c ch x

/-- The loop may have cost `ch` since the last check, and `x` right after it. -/
def Credit (a : Spot) (ch x : Int) : Prop :=
  match l.indVar with
  | none => Plain n cost a ch
  | some iv =>
    if cloneable e l = true then
      if l.isNested = true then ClonedNested n cost e l iv a ch x else ClonedOnce n cost e l iv a ch
    else Counted n cost l iv a ch

/-- A step of the execution that does not take the back edge and does not check for this loop. -/
inductive Drift (a b : Spot) : Prop where
  | inside (ha : a.cur ∈ l.body) (hb : b.cur ∈ l.body) (hne : b.cur ≠ e.2) (hs : b.slots = a.slots)
  | enter (ha : a.cur = l.preheader) (hb : b.cur = e.2) (hs : b.slots = a.slots)
      (hc : cloneable e l = true → ∀ iv, l.indVar = some iv →
        (b.clone = true ↔ iv.short n a.slots.valRange = true))
  | preheader (init final : Int) (ha : a.cur ∉ l.body) (hb : b.cur = l.preheader)
      (hs : b.slots = atPreheader n l init final a.slots)
      (hc : cloneable e l = true → ∀ iv, l.indVar = some iv → Counts iv init final)
  | outside (ha : a.cur ∉ l.body) (hb : b.cur ∉ l.body) (hne : b.cur ≠ l.preheader)
      (hs : b.slots = a.slots)
  | exit (ha : a.cur ∈ l.body) (hb : b.cur ∉ l.body) (hne : b.cur ≠ l.preheader)
      (hc : e.1 = e.2 → a.clone = false)
      (hl : cloneable e l = true → ∀ iv, l.indVar = some iv →
        iv.latch a.slots.indVar a.slots.finalValue = false)
      (hs : b.slots = atExitBlock e l a.slots)
  | cloneExit (ha : a.cur = e.2) (hb : b.cur ∉ l.body) (hne : b.cur ≠ l.preheader)
      (hc : a.clone = true) (hcl : cloneable e l = true)
      (hmiss : (atCloneExit n l a.slots).2 = false)
      (hs : b.slots = atExitBlock e l (atCloneExit n l a.slots).1)

/-- A step over the back edge, in the loop or in its copy. -/
inductive Latch (a b : Spot) : Bool → Prop where
  | code (ha : a.cur = e.1) (hac : e.1 = e.2 → a.clone = false) (hb : b.cur = e.2)
      (hbc : e.1 = e.2 → b.clone = false)
      (hl : cloneable e l = true → ∀ iv, l.indVar = some iv →
        iv.latch a.slots.indVar a.slots.finalValue = true)
      (hs : b.slots = (atBackEdge n l a.slots).1) : Latch a b (atBackEdge n l a.slots).2
  | copy (ha : a.cur = e.2) (hac : a.clone = true) (hcl : cloneable e l = true) (hb : b.cur = e.2)
      (hbc : b.clone = true)
      (hl : ∀ iv, l.indVar = some iv → iv.latch a.slots.indVar a.slots.finalValue = true)
      (hs : b.slots = atCloneLatch l a.slots) : Latch a b false

/-- A step out of the copy that checks. -/
structure CloneHit (a b : Spot) : Prop where
  cur : a.cur = e.2
  out : b.cur ∉ l.body
  notPreheader : b.cur ≠ l.preheader
  hit : (atCloneExit n l a.slots).2 = true
  slots : b.slots = atExitBlock e l (atCloneExit n l a.slots).1

end Credit

theorem cloneable_self {e : Block × Block} {l : Loop} (h : cloneable e l = true) : e.1 = e.2 := by
  simp only [cloneable, Bool.and_eq_true, beq_iff_eq] at h
  exact h.1

theorem atExitBlock_self {e : Block × Block} {l : Loop} (h : e.1 = e.2) (s : Slots) :
    atExitBlock e l s = s := by
  unfold atExitBlock
  split
  · rfl
  · simp [h]

variable {ci n cost : Int} {e : Block × Block} {l : Loop}

/-! ## Counters -/

theorem Plain.mono {a : Spot} {ch ch' : Int} (h : Plain n cost a ch) (hle : ch' ≤ ch) :
    Plain n cost a ch' := by
  obtain ⟨c, hc, hs, hch⟩ := h
  exact ⟨c, hc, hs, Int.le_trans hle hch⟩

theorem Plain.drift (hn : 1 ≤ n) (hi : l.indVar = none) {a b : Spot} {ch : Int}
    (h : Plain n cost a ch) (hd : Drift n e l a b)
    (honce : l.isNested = false → b.cur = l.preheader → ch ≤ 0) : Plain n cost b ch := by
  obtain ⟨c, hc, hs, hch⟩ := h
  cases hd with
  | inside _ _ _ hab => exact ⟨c, hc, by rw [hab, hs], hch⟩
  | enter _ _ hab _ => exact ⟨c, hc, by rw [hab, hs], hch⟩
  | outside _ _ _ hab => exact ⟨c, hc, by rw [hab, hs], hch⟩
  | exit _ _ _ _ _ hab =>
    simp only [atExitBlock, hi] at hab
    exact ⟨c, hc, by rw [hab, hs], hch⟩
  | cloneExit _ _ _ _ _ _ hab =>
    simp only [atExitBlock, atCloneExit, hi] at hab
    exact ⟨c, hc, by rw [hab, hs], hch⟩
  | preheader init final _ hb hab _ =>
    cases hfrom : l.countsFromEntry with
    | true =>
      simp only [atPreheader, hi, hfrom, if_true] at hab
      exact ⟨c, hc, by rw [hab, hs], hch⟩
    | false =>
      simp only [atPreheader, hi, hfrom, Bool.false_eq_true, if_false] at hab
      have hz := honce (Bool.or_eq_false_iff.mp hfrom).1 hb
      exact ⟨0, ⟨Int.le_refl 0, by omega⟩, by rw [hab], by omega⟩

theorem Plain.latch (hb : Bounds ci n cost) (hi : l.indVar = none) {a b : Spot} {ch : Int}
    {hit : Bool} (h : Plain n cost a ch) (hl : Latch n e l a b hit) :
    (hit = false → Plain n cost b (ch + cost)) ∧ (hit = true → Plain n cost b 0) := by
  obtain ⟨c, ⟨h₀, hc⟩, hs, hch⟩ := h
  have hpos := hb.iters
  cases hl with
  | copy _ _ hcl _ _ _ _ => simp [cloneable, hi] at hcl
  | code _ _ _ _ _ hab =>
    have hint : int32 (c + 1) = c + 1 := by
      have hle := hb.n_le
      have hmax := hb.int
      apply int32_eq
      simp only [InInt, intMin, intMax] at hmax ⊢
      omega
    simp only [atBackEdge, hi, hs, hint] at hab ⊢
    by_cases hcn : c + 1 = n
    · rw [if_pos hcn] at hab ⊢
      refine ⟨fun hf => (by cases hf), fun _ => ⟨0, ⟨Int.le_refl 0, by omega⟩, by rw [hab], ?_⟩⟩
      omega
    · rw [if_neg hcn] at hab ⊢
      exact ⟨fun _ => ⟨c + 1, ⟨by omega, by omega⟩, by rw [hab], add_cost_le hch⟩,
        fun hf => (by cases hf)⟩

/-! ## Thresholds on the induction variable -/

theorem Counted.mono {iv : IndVar} {a : Spot} {ch ch' : Int} (h : Counted n cost l iv a ch)
    (hle : ch' ≤ ch) : Counted n cost l iv a ch' := by
  obtain ⟨c, hc, hch, hrest⟩ := h
  exact ⟨c, hc, Int.le_trans hle hch, hrest⟩

theorem Counted.drift (hb : Bounds ci n cost) (hsh : Shape e l) {iv : IndVar} (hf : Fits ci iv)
    (hi : l.indVar = some iv) (hcl : cloneable e l = false) (hself : l.isNested = true → e.1 ≠ e.2)
    {a b : Spot} {ch : Int} (h : Counted n cost l iv a ch) (hd : Drift n e l a b)
    (honce : l.isNested = false → b.cur = l.preheader → ch ≤ 0) : Counted n cost l iv b ch := by
  obtain ⟨c, hc, hch, hthr, hres⟩ := h
  cases hd with
  | inside ha hbb _ hab =>
    exact ⟨c, hc, hch, fun _ => by rw [hab]; exact hthr (.inl ha), fun _ hout => absurd hbb hout⟩
  | enter ha hbb hab _ =>
    refine ⟨c, hc, hch, fun _ => by rw [hab]; exact hthr (.inr ha), fun _ hout => absurd ?_ hout⟩
    rw [hbb]
    exact hsh.header
  | outside ha hbb hne hab =>
    refine ⟨c, hc, hch, fun hor => ?_, fun hnest _ => by rw [hab]; exact hres hnest ha⟩
    rcases hor with hor | hor
    · exact absurd hor hbb
    · exact absurd hor hne
  | exit ha hbb hne _ _ hab =>
    refine ⟨c, hc, hch, fun hor => ?_, fun hnest _ => ?_⟩
    · rcases hor with hor | hor
      · exact absurd hor hbb
      · exact absurd hor hne
    · simp only [atExitBlock, hi, hnest, hself hnest, ne_eq, not_false_eq_true, and_self, if_true]
        at hab
      rw [hab, hthr (.inl ha), wrap_add_sub]
  | cloneExit _ _ _ _ hc' _ _ =>
    rw [hcl] at hc'
    cases hc'
  | preheader init final ha hbb hab _ =>
    simp only [atPreheader, hi] at hab
    cases hnest : l.isNested with
    | true =>
      rw [hnest, threshold_nested hf.inInt_initial, hres hnest ha, wrap_add_left,
        Int.add_comm] at hab
      exact ⟨c, hc, hch, fun _ => by rw [hab], fun _ _ => by rw [hab]⟩
    | false =>
      have hz := honce hnest hbb
      have hn := hb.iters
      rw [hnest, hf.threshold_outer hn hb.n_le] at hab
      refine ⟨0, ⟨Int.le_refl 0, by omega⟩, by omega, fun _ => by rw [hab, Int.sub_zero], ?_⟩
      exact fun ht => absurd ht (by simp [hnest])

theorem Counted.latch (hb : Bounds ci n cost) (hsh : Shape e l) {iv : IndVar} (hf : Fits ci iv)
    (hi : l.indVar = some iv) (hcl : cloneable e l = false) {a b : Spot} {ch : Int} {hit : Bool}
    (h : Counted n cost l iv a ch) (hl : Latch n e l a b hit) :
    (hit = false → Counted n cost l iv b (ch + cost)) ∧ (hit = true → Counted n cost l iv b 0) := by
  obtain ⟨c, ⟨h₀, hc⟩, hch, hthr, -⟩ := h
  have hpos := hb.iters
  cases hl with
  | copy _ _ hc' _ _ _ _ =>
    rw [hcl] at hc'
    cases hc'
  | code ha _ hbb _ _ hab =>
    have hin : b.cur ∈ l.body := hbb ▸ hsh.header
    obtain ⟨-, hhit, hmiss⟩ := threshold_step hb.iters (hf.inInt hb.iters hb.n_le) hi
      (hthr (.inl (ha ▸ hsh.latch))) hc
    refine ⟨fun hm => ?_, fun hh => ?_⟩
    · obtain ⟨hlt, hnew⟩ := hmiss hm
      exact ⟨c + 1, ⟨by omega, hlt⟩, add_cost_le hch, fun _ => by rw [hab]; exact hnew,
        fun _ hout => absurd hin hout⟩
    · refine ⟨0, ⟨Int.le_refl 0, by omega⟩, by omega, fun _ => ?_, fun _ hout => absurd hin hout⟩
      rw [hab, Int.sub_zero]
      exact hhit hh

end TinyQuanta.LoopCredit
