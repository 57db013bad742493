import TinyQuanta.LoopCredit

/-!
# Copied self loops between two checks

A short stay goes through the copy, which has no probe of its own; if the loop is
nested, the ranges of the short stays are summed up until they make a full
interval. A long stay goes through the original and reaches its threshold at
least once. So on top of the sum there is at most one stay that has not ended.
-/
namespace TinyQuanta.CloneCredit

open Params Planner InsertProbes Instrumented LoopCounters LoopCredit

variable {ci n cost : Int} {e : Block × Block} {l : Loop} {iv : IndVar}

theorem lt_of_mul_along_lt (hs : iv.step ≠ 0) {c d : Int}
    (h : c * along iv iv.step < d * along iv iv.step) : c < d :=
  Int.lt_of_mul_lt_mul_right h (Int.le_of_lt (along_step_pos hs))

theorem header_ne_preheader (hsh : Shape e l) : e.2 ≠ l.preheader :=
  fun heq => hsh.preheader (heq ▸ hsh.header)

/-- The values at the first iteration. -/
theorem trip_preheader (hi : l.indVar = some iv) {init final : Int} (h : Counts iv init final)
    (s : Slots) : Trip iv (atPreheader n l init final s) 0 := by
  obtain ⟨k, hk⟩ := h
  simp only [atPreheader, hi]
  refine ⟨iv.init init, k, hk, Int.le_refl 0, hk.nonneg, ?_⟩
  simp [IndVar.init, wrap_wrap]

theorem atBackEdge_frame (hi : l.indVar = some iv) (s : Slots) :
    (atBackEdge n l s).1.finalValue = s.finalValue ∧ (atBackEdge n l s).1.valRange = s.valRange ∧
      (atBackEdge n l s).1.sumLoopVal = s.sumLoopVal ∧
      (atBackEdge n l s).1.residualSteps = s.residualSteps := by
  simp only [atBackEdge, hi]
  split <;> exact ⟨rfl, rfl, rfl, rfl⟩

/-! ## A loop that is not nested -/

theorem once_mono {a : Spot} {ch ch' : Int} (h : ClonedOnce n cost e l iv a ch) (hle : ch' ≤ ch) :
    ClonedOnce n cost e l iv a ch' := by
  obtain ⟨c, hc, hch, hrest⟩ := h
  exact ⟨c, hc, Int.le_trans hle hch, hrest⟩

/-- Away from the loop only the count matters. -/
theorem once_away {a : Spot} {c ch : Int} (hc : 0 ≤ c ∧ c < n) (hch : ch ≤ c * cost)
    (hne : a.cur ≠ e.2) (hp : a.cur ≠ l.preheader) : ClonedOnce n cost e l iv a ch :=
  ⟨c, hc, hch, fun h => absurd h hp, fun h => absurd h hne, fun h => absurd h hne⟩

theorem once_drift (hb : Bounds ci n cost) (hsh : Shape e l) (hf : Fits ci iv)
    (hcf : CloneFits ci iv) (hi : l.indVar = some iv) (hcl : cloneable e l = true)
    (hnest : l.isNested = false) {a b : Spot} {ch : Int} (h : ClonedOnce n cost e l iv a ch)
    (hd : Drift n e l a b) (honce : b.cur = l.preheader → ch ≤ 0) :
    ClonedOnce n cost e l iv b ch := by
  obtain ⟨c, hc, hch, hpre, -, -⟩ := h
  have hself := cloneable_self hcl
  have hn := hb.iters
  cases hd with
  | inside _ hbb hne _ => exact absurd (hsh.self hself _ hbb) hne
  | enter ha hbb hab hshort =>
    obtain ⟨rfl, ht, hthr⟩ := hpre ha
    have hs := short_iff hf hcf hn hb.n_le a.slots.valRange
    refine ⟨0, hc, hch, fun hp => absurd (hbb.symm.trans hp) (header_ne_preheader hsh), ?_, ?_⟩
    · intro _ hclone
      rw [hab]
      exact ⟨ht, hs.mp ((hshort hcl iv hi).mp hclone)⟩
    · intro _ _
      rw [hab, Int.sub_zero]
      exact hthr
  | outside _ hbb hne _ => exact once_away hc hch (fun he => hbb (he ▸ hsh.header)) hne
  | exit _ hbb hne _ _ _ => exact once_away hc hch (fun he => hbb (he ▸ hsh.header)) hne
  | cloneExit _ hbb hne _ _ _ _ => exact once_away hc hch (fun he => hbb (he ▸ hsh.header)) hne
  | preheader init final _ hbb hab hcount =>
    have hz := honce hbb
    have hne : b.cur ≠ e.2 := fun he => header_ne_preheader hsh (he.symm.trans hbb)
    refine ⟨0, ⟨Int.le_refl 0, by omega⟩, by omega, fun _ => ⟨rfl, ?_, ?_⟩,
      fun he => absurd he hne, fun he => absurd he hne⟩
    · rw [hab]
      exact trip_preheader hi (hcount hcl iv hi) a.slots
    · simp only [hab, atPreheader, hi, hnest, hf.threshold_outer hn hb.n_le]

theorem once_latch (hb : Bounds ci n cost) (hsh : Shape e l) (hf : Fits ci iv)
    (hcf : CloneFits ci iv) (hi : l.indVar = some iv) (hcl : cloneable e l = true) {a b : Spot}
    {ch : Int} {hit : Bool} (h : ClonedOnce n cost e l iv a ch) (hl : Latch n e l a b hit) :
    (hit = false → ClonedOnce n cost e l iv b (ch + cost)) ∧
      (hit = true → ClonedOnce n cost e l iv b 0) := by
  obtain ⟨c, ⟨h₀, hc⟩, hch, -, hcopy, horig⟩ := h
  have hself := cloneable_self hcl
  have hn := hb.iters
  have hmul := add_cost_le hch
  cases hl with
  | code ha hac hbb hbc _ hab =>
    have hnp : b.cur ≠ l.preheader := hbb ▸ header_ne_preheader hsh
    have hthr := horig (ha.trans hself) (hac hself)
    obtain ⟨-, hhit, hmiss⟩ := threshold_step hb.iters (hf.inInt hb.iters hb.n_le) hi hthr hc
    refine ⟨fun hm => ?_, fun hh => ?_⟩
    · obtain ⟨hlt, hnew⟩ := hmiss hm
      refine ⟨c + 1, ⟨by omega, hlt⟩, hmul, fun hp => absurd hp hnp, fun _ ht => ?_, fun _ _ => ?_⟩
      · rw [hbc hself] at ht
        cases ht
      · rw [hab]
        exact hnew
    · refine ⟨0, ⟨Int.le_refl 0, by omega⟩, by omega, fun hp => absurd hp hnp, fun _ ht => ?_,
        fun _ _ => ?_⟩
      · rw [hbc hself] at ht
        cases ht
      · rw [hab, Int.sub_zero]
        exact hhit hh
  | copy ha hac _ hbb hbc hlt hab =>
    have hnp : b.cur ≠ l.preheader := hbb ▸ header_ne_preheader hsh
    obtain ⟨ht, hr⟩ := hcopy ha hac
    simp only [atCloneLatch, hi] at hab
    have ht' : Trip iv b.slots (c + 1) :=
      ht.next (hlt iv hi) (by rw [hab]) (by rw [hab]) (by rw [hab])
    have hr' : along iv b.slots.valRange ≤ n * along iv iv.step := by rw [hab]; exact hr
    have hrange := ht'.lt_range hcf.1
    have hc' : c + 1 < n := lt_of_mul_along_lt hcf.1 (by omega)
    refine ⟨fun _ => ⟨c + 1, ⟨by omega, hc'⟩, hmul, fun hp => absurd hp hnp,
      fun _ _ => ⟨ht', hr'⟩, fun _ hf => ?_⟩, fun hf => (by cases hf)⟩
    rw [hbc] at hf
    cases hf

/-! ## A nested loop -/

theorem nested_mono {a : Spot} {ch ch' x x' : Int} (h : ClonedNested n cost e l iv a ch x)
    (hle : ch' ≤ ch) (hx : x' ≤ x) : ClonedNested n cost e l iv a ch' x' := by
  obtain ⟨c, h₀, hc, hsum, hres, hstay⟩ := h
  refine ⟨c, h₀, hc, hsum, hres, ?_⟩
  cases hstay with
  | away hcur hch hpre => exact .away hcur (Int.le_trans hle hch) hpre
  | copy j hcur hclone ht hr hch => exact .copy j hcur hclone ht hr (Int.le_trans hle hch)
  | before j hcur hclone ht hr hj hthr hch =>
    exact .before j hcur hclone ht hr hj hthr (Int.le_trans hle hch)
  | after j d hcur hclone ht hr hd hthr hch hxd =>
    exact .after j d hcur hclone ht hr hd hthr (Int.le_trans hle hch) (Int.le_trans hx hxd)

/-- The sum of the ranges is exact. -/
theorem wrap_sum (hb : Bounds ci n cost) (hcf : CloneFits ci iv) {s : Slots}
    (h₀ : 0 ≤ along iv s.sumLoopVal) (hsum : along iv s.sumLoopVal < n * along iv iv.step)
    (hr₀ : 0 < along iv s.valRange) (hr : along iv s.valRange ≤ n * along iv iv.step) :
    iv.width.wrap (s.sumLoopVal + s.valRange) = s.sumLoopVal + s.valRange := by
  have hle := hcf.mul_le hb.n_le
  have hlt := hcf.2
  have hadd := along_add iv s.sumLoopVal s.valRange
  apply wrap_along <;> omega

/-- The sum of the ranges is not negative. -/
theorem sum_nonneg (hcf : CloneFits ci iv) {c sum : Int} (h₀ : 0 ≤ c)
    (hc : c * along iv iv.step ≤ along iv sum) : 0 ≤ along iv sum :=
  Int.le_trans (Int.mul_nonneg h₀ (Int.le_of_lt (along_step_pos hcf.1))) hc

theorem trip_range_pos (hcf : CloneFits ci iv) {s : Slots} {j : Int} (ht : Trip iv s j) :
    0 < along iv s.valRange :=
  Int.lt_of_le_of_lt (Int.mul_nonneg ht.nonneg (Int.le_of_lt (along_step_pos hcf.1)))
    (ht.lt_range hcf.1)

/-- Away from the loop, not on the way into it. -/
theorem stay_away {a : Spot} {c ch x : Int} (hsh : Shape e l) (hout : a.cur ∉ l.body)
    (hp : a.cur ≠ l.preheader) (hch : ch ≤ c * cost) : Stay n cost e l iv a c ch x :=
  .away (fun he => hout (he ▸ hsh.header)) hch fun h => absurd h hp

/-- Outside the body there is no stay. -/
theorem stay_outside {a : Spot} {c ch x : Int} (hsh : Shape e l) (hout : a.cur ∉ l.body)
    (h : Stay n cost e l iv a c ch x) : ch ≤ c * cost ∧ (a.cur = l.preheader → Trip iv a.slots 0 ∧
      a.slots.loopThreshold = iv.width.wrap (a.slots.indVar + n * iv.step)) := by
  have hne : a.cur ≠ e.2 := fun he => hout (he ▸ hsh.header)
  cases h with
  | away _ hch hpre => exact ⟨hch, hpre⟩
  | copy _ hcur => exact absurd hcur hne
  | before _ hcur => exact absurd hcur hne
  | after _ _ hcur => exact absurd hcur hne

/-- From the preheader into the loop or its copy. -/
theorem stay_enter (hb : Bounds ci n cost) (hsh : Shape e l) (hf : Fits ci iv)
    (hcf : CloneFits ci iv)
    {a b : Spot} {c ch x : Int} (h : Stay n cost e l iv a c ch x) (ha : a.cur = l.preheader)
    (hbb : b.cur = e.2) (hab : b.slots = a.slots)
    (hshort : b.clone = true ↔ iv.short n a.slots.valRange = true) (x' : Int) :
    Stay n cost e l iv b c ch x' := by
  have hn := hb.iters
  have hs := short_iff hf hcf hn hb.n_le a.slots.valRange
  obtain ⟨hch, hpre⟩ := stay_outside hsh (ha ▸ hsh.preheader) h
  obtain ⟨ht, hthr⟩ := hpre ha
  have hch₀ : ch ≤ (c + 0) * cost := by rw [Int.add_zero]; exact hch
  cases hclone : b.clone with
  | true =>
    have hr := hs.mp (hshort.mp hclone)
    exact .copy 0 hbb hclone (by rw [hab]; exact ht) (by rw [hab]; exact hr) hch₀
  | false =>
    have hr : n * along iv iv.step < along iv a.slots.valRange := by
      by_contra hle
      have hcopy := hshort.mpr (hs.mpr (Int.not_lt.mp hle))
      rw [hclone] at hcopy
      cases hcopy
    refine .before 0 hbb hclone (by rw [hab]; exact ht) (by rw [hab]; exact hr) (by omega) ?_ hch₀
    rw [hab, Int.sub_zero]
    exact hthr

/-- A long stay does not end before its first check. -/
theorem stay_exit (hsh : Shape e l) (hcf : CloneFits ci iv) (hself : e.1 = e.2) {a : Spot}
    {c ch x : Int} (h : Stay n cost e l iv a c ch x) (ha : a.cur ∈ l.body) (hac : a.clone = false)
    (hlatch : iv.latch a.slots.indVar a.slots.finalValue = false) : ch ≤ c * cost := by
  cases h with
  | away hcur => exact absurd (hsh.self hself _ ha) hcur
  | copy j hcur hclone =>
    rw [hac] at hclone
    cases hclone
  | before j hcur _ ht hr hj =>
    have hlast := ht.last hlatch
    have hlt : n < j + 1 := lt_of_mul_along_lt hcf.1 (by omega)
    omega
  | after j d hcur _ ht hr hd hthr hch hx => exact hch

/-- The sum of the ranges covers the iterations of a short stay. -/
theorem nested_cloneExit (hb : Bounds ci n cost) (hsh : Shape e l) (hf : Fits ci iv)
    (hcf : CloneFits ci iv) (hi : l.indVar = some iv) (hcl : cloneable e l = true)
    (hnest : l.isNested = true) {a b : Spot} {ch x : Int} (h : ClonedNested n cost e l iv a ch x)
    (ha : a.cur = e.2) (hbb : b.cur ∉ l.body) (hne : b.cur ≠ l.preheader) (hac : a.clone = true)
    (hmiss : (atCloneExit n l a.slots).2 = false)
    (hab : b.slots = atExitBlock e l (atCloneExit n l a.slots).1) (x' : Int) :
    ClonedNested n cost e l iv b ch x' := by
  obtain ⟨c, h₀, hc, hsum, hres, hstay⟩ := h
  rw [atExitBlock_self (cloneable_self hcl)] at hab
  cases hstay with
  | away hcur => exact absurd ha hcur
  | before j hcur hclone =>
    rw [hac] at hclone
    cases hclone
  | after j d hcur hclone =>
    rw [hac] at hclone
    cases hclone
  | copy j _ _ ht hr hch =>
    have hwrap := wrap_sum hb hcf (sum_nonneg hcf h₀ hc) hsum (trip_range_pos hcf ht) hr
    have hadd := along_add iv a.slots.sumLoopVal a.slots.valRange
    have hfull := full_iff hf hcf hb.iters hb.n_le (a.slots.sumLoopVal + a.slots.valRange)
    have hrange := ht.lt_range hcf.1
    have hj := ht.nonneg
    simp only [atCloneExit, hi, hnest, if_true, hwrap] at hmiss hab
    cases hfl : iv.full n (a.slots.sumLoopVal + a.slots.valRange) with
    | true => simp [hfl] at hmiss
    | false =>
      simp only [hfl, Bool.false_eq_true, if_false] at hab
      have hnot : ¬ n * along iv iv.step ≤ along iv (a.slots.sumLoopVal + a.slots.valRange) :=
        fun hle => absurd (hfull.mpr hle) (by simp [hfl])
      have hmul : (c + j) * along iv iv.step ≤ along iv
          (a.slots.sumLoopVal + a.slots.valRange) := by
        rw [Int.add_mul]
        omega
      exact ⟨c + j, by omega, by rw [hab]; exact hmul, by rw [hab]; exact Int.not_le.mp hnot,
        by rw [hab]; exact hres, stay_away hsh hbb hne hch⟩

theorem nested_drift (hb : Bounds ci n cost) (hsh : Shape e l) (hf : Fits ci iv)
    (hcf : CloneFits ci iv) (hi : l.indVar = some iv) (hcl : cloneable e l = true)
    (hnest : l.isNested = true) {a b : Spot} {ch x : Int}
    (h : ClonedNested n cost e l iv a ch x) (hd : Drift n e l a b) (x' : Int) :
    ClonedNested n cost e l iv b ch x' := by
  have hself := cloneable_self hcl
  cases hd with
  | inside _ hbb hne _ => exact absurd (hsh.self hself _ hbb) hne
  | enter ha hbb hab hshort =>
    obtain ⟨c, h₀, hc, hsum, hres, hstay⟩ := h
    exact ⟨c, h₀, by rw [hab]; exact hc, by rw [hab]; exact hsum, by rw [hab]; exact hres,
      stay_enter hb hsh hf hcf hstay ha hbb hab (hshort hcl iv hi) x'⟩
  | outside ha hbb hne hab =>
    obtain ⟨c, h₀, hc, hsum, hres, hstay⟩ := h
    obtain ⟨hch, -⟩ := stay_outside hsh ha hstay
    exact ⟨c, h₀, by rw [hab]; exact hc, by rw [hab]; exact hsum, by rw [hab]; exact hres,
      stay_away hsh hbb hne hch⟩
  | preheader init final ha hbb hab hcount =>
    obtain ⟨c, h₀, hc, hsum, hres, hstay⟩ := h
    obtain ⟨hch, -⟩ := stay_outside hsh ha hstay
    have ht : Trip iv b.slots 0 := hab ▸ trip_preheader hi (hcount hcl iv hi) a.slots
    simp only [atPreheader, hi, hnest, threshold_nested hf.inInt_initial] at hab
    refine ⟨c, h₀, by rw [hab]; exact hc, by rw [hab]; exact hsum, by rw [hab]; exact hres, ?_⟩
    refine .away (fun he => header_ne_preheader hsh (he.symm.trans hbb)) hch fun _ => ⟨ht, ?_⟩
    rw [hab, hres, wrap_add_left, Int.add_comm]
  | exit ha hbb hne hac hlatch hab =>
    obtain ⟨c, h₀, hc, hsum, hres, hstay⟩ := h
    rw [atExitBlock_self hself] at hab
    have hch := stay_exit hsh hcf hself hstay ha (hac hself) (hlatch hcl iv hi)
    exact ⟨c, h₀, by rw [hab]; exact hc, by rw [hab]; exact hsum, by rw [hab]; exact hres,
      stay_away hsh hbb hne hch⟩
  | cloneExit ha hbb hne hac _ hmiss hab =>
    exact nested_cloneExit hb hsh hf hcf hi hcl hnest h ha hbb hne hac hmiss hab x'

theorem nested_cloneHit (hb : Bounds ci n cost) (hsh : Shape e l) (hcf : CloneFits ci iv)
    (hi : l.indVar = some iv) (hcl : cloneable e l = true) (hnest : l.isNested = true) {a b : Spot}
    {ch x : Int} (h : ClonedNested n cost e l iv a ch x) (hh : CloneHit n e l a b) :
    ClonedNested n cost e l iv b 0 0 := by
  obtain ⟨c, -, -, -, hres, -⟩ := h
  have hhit := hh.hit
  have hab := hh.slots
  rw [atExitBlock_self (cloneable_self hcl)] at hab
  have hzero : along iv 0 = 0 := by simp [along]
  have hpos : 0 < n * along iv iv.step :=
    Int.mul_pos (Int.lt_of_lt_of_le (by decide) hb.iters) (along_step_pos hcf.1)
  simp only [atCloneExit, hi, hnest, if_true] at hab hhit
  cases hfl : iv.full n (iv.width.wrap (a.slots.sumLoopVal + a.slots.valRange)) with
  | false => simp [hfl] at hhit
  | true =>
    simp only [hfl, if_true] at hab
    refine ⟨0, Int.le_refl 0, ?_, ?_, by rw [hab]; exact hres, ?_⟩
    · exact Int.le_of_eq (by rw [hab, hzero, Int.zero_mul])
    · rw [hab, hzero]
      exact hpos
    · exact stay_away hsh hh.out hh.notPreheader (by omega)

/-- The back edge of the loop itself, in a long stay. -/
theorem stay_code (hb : Bounds ci n cost) (hf : Fits ci iv) (hi : l.indVar = some iv) {a b : Spot}
    {c ch x : Int} (h : Stay n cost e l iv a c ch x) (h₀ : 0 ≤ c) (ha : a.cur = e.2)
    (hac : a.clone = false) (hbb : b.cur = e.2) (hbc : b.clone = false)
    (hlatch : iv.latch a.slots.indVar a.slots.finalValue = true)
    (hab : b.slots = (atBackEdge n l a.slots).1) :
    ((atBackEdge n l a.slots).2 = false → Stay n cost e l iv b c (ch + cost) x ∨
        Stay n cost e l iv b c ch (x + cost) ∧ x + cost ≤ ci) ∧
      ((atBackEdge n l a.slots).2 = true → Stay n cost e l iv b c 0 0) := by
  have hn := hb.iters
  obtain ⟨hfin, hran, -, -⟩ := atBackEdge_frame (n := n) hi a.slots
  have hnext : ∀ j, Trip iv a.slots j →
      (atBackEdge n l a.slots).1.indVar = iv.width.wrap (a.slots.indVar + iv.step) →
      Trip iv b.slots (j + 1) := by
    intro j ht hind
    exact ht.next hlatch (by rw [hab, hfin]) (by rw [hab, hran]) (by rw [hab, hind])
  have hrange : ∀ {r : Int}, r < along iv a.slots.valRange → r < along iv b.slots.valRange := by
    intro r hr
    rw [hab, hran]
    exact hr
  -- after the check the stay counts from 0 again
  have hcheck : ∀ j, Trip iv b.slots (j + 1) → n * along iv iv.step < along iv a.slots.valRange →
      (atBackEdge n l a.slots).1.loopThreshold =
        iv.width.wrap ((atBackEdge n l a.slots).1.indVar + n * iv.step) →
      Stay n cost e l iv b c 0 0 := by
    intro j ht hr hthr
    refine .after (j + 1) 0 hbb hbc ht (hrange hr) ⟨Int.le_refl 0, by omega⟩ ?_ ?_ (by omega)
    · rw [hab, Int.sub_zero]
      exact hthr
    · exact Int.mul_nonneg h₀ (Int.le_of_lt hb.cost_pos)
  cases h with
  | away hcur => exact absurd ha hcur
  | copy j hcur hclone =>
    rw [hac] at hclone
    cases hclone
  | before j _ _ ht hr hj hthr hch =>
    obtain ⟨hind, hhit, hmiss⟩ := threshold_step hb.iters (hf.inInt hb.iters hb.n_le) hi hthr hj
    have ht' := hnext j ht hind
    refine ⟨fun hm => .inl ?_, fun hh => hcheck j ht' hr (hhit hh)⟩
    obtain ⟨hlt, hnew⟩ := hmiss hm
    refine .before (j + 1) hbb hbc ht' (hrange hr) hlt ?_ ?_
    · rw [hab]
      exact hnew
    · rw [← Int.add_assoc]
      exact add_cost_le hch
  | after j d _ _ ht hr hd hthr hch hx =>
    obtain ⟨hind, hhit, hmiss⟩ := threshold_step hb.iters (hf.inInt hb.iters hb.n_le) hi hthr hd.2
    have ht' := hnext j ht hind
    refine ⟨fun hm => .inr ⟨?_, ?_⟩, fun hh => hcheck j ht' hr (hhit hh)⟩
    · obtain ⟨hlt, hnew⟩ := hmiss hm
      refine .after (j + 1) (d + 1) hbb hbc ht' (hrange hr) ⟨by omega, hlt⟩ ?_ hch (add_cost_le hx)
      rw [hab]
      exact hnew
    · have hle := hb.mul_le hd.2
      omega

/-- The back edge of the copy. -/
theorem stay_copy (hi : l.indVar = some iv) {a b : Spot} {c ch x : Int}
    (h : Stay n cost e l iv a c ch x) (ha : a.cur = e.2) (hac : a.clone = true) (hbb : b.cur = e.2)
    (hbc : b.clone = true) (hlatch : iv.latch a.slots.indVar a.slots.finalValue = true)
    (hab : b.slots = atCloneLatch l a.slots) : Stay n cost e l iv b c (ch + cost) x := by
  simp only [atCloneLatch, hi] at hab
  cases h with
  | away hcur => exact absurd ha hcur
  | before j hcur hclone =>
    rw [hac] at hclone
    cases hclone
  | after j d hcur hclone =>
    rw [hac] at hclone
    cases hclone
  | copy j _ _ ht hr hch =>
    have ht' : Trip iv b.slots (j + 1) := ht.next hlatch (by rw [hab]) (by rw [hab]) (by rw [hab])
    refine .copy (j + 1) hbb hbc ht' (by rw [hab]; exact hr) ?_
    rw [← Int.add_assoc]
    exact add_cost_le hch

theorem nested_latch (hb : Bounds ci n cost) (hf : Fits ci iv) (hi : l.indVar = some iv)
    (hcl : cloneable e l = true) {a b : Spot} {ch x : Int} {hit : Bool}
    (h : ClonedNested n cost e l iv a ch x) (hl : Latch n e l a b hit) :
    (hit = false → ClonedNested n cost e l iv b (ch + cost) x ∨
        ClonedNested n cost e l iv b ch (x + cost) ∧ x + cost ≤ ci) ∧
      (hit = true → ClonedNested n cost e l iv b 0 0) := by
  obtain ⟨c, h₀, hc, hsum, hres, hstay⟩ := h
  have hself := cloneable_self hcl
  cases hl with
  | code ha hac hbb hbc hlatch hab =>
    obtain ⟨-, -, hsm, hrs⟩ := atBackEdge_frame (n := n) hi a.slots
    have hnested : ∀ {ch' x'}, Stay n cost e l iv b c ch' x' →
      ClonedNested n cost e l iv b ch' x' :=
      fun hst => ⟨c, h₀, by rw [hab, hsm]; exact hc, by rw [hab, hsm]; exact hsum,
        by rw [hab, hrs]; exact hres, hst⟩
    obtain ⟨hmiss, hhit⟩ := stay_code hb hf hi hstay h₀ (ha.trans hself) (hac hself) hbb (hbc hself)
      (hlatch hcl iv hi) hab
    refine ⟨fun hm => ?_, fun hh => hnested (hhit hh)⟩
    rcases hmiss hm with hst | ⟨hst, hle⟩
    · exact .inl (hnested hst)
    · exact .inr ⟨hnested hst, hle⟩
  | copy ha hac _ hbb hbc hlatch hab =>
    have hst := stay_copy hi hstay ha hac hbb hbc (hlatch iv hi) hab
    simp only [atCloneLatch, hi] at hab
    exact ⟨fun _ => .inl ⟨c, h₀, by rw [hab]; exact hc, by rw [hab]; exact hsum,
      by rw [hab]; exact hres, hst⟩, fun hf => (by cases hf)⟩

/-! ## All kinds of loops -/

theorem credit_plain (hi : l.indVar = none) {a : Spot} {ch x : Int} :
    Credit n cost e l a ch x ↔ Plain n cost a ch := by simp only [Credit, hi]

theorem credit_counted (hi : l.indVar = some iv) (hcl : cloneable e l = false) {a : Spot}
    {ch x : Int} : Credit n cost e l a ch x ↔ Counted n cost l iv a ch := by simp [Credit, hi, hcl]

theorem credit_once (hi : l.indVar = some iv) (hcl : cloneable e l = true)
    (hnest : l.isNested = false) {a : Spot} {ch x : Int} :
    Credit n cost e l a ch x ↔ ClonedOnce n cost e l iv a ch := by simp [Credit, hi, hcl, hnest]

theorem credit_nested (hi : l.indVar = some iv) (hcl : cloneable e l = true)
    (hnest : l.isNested = true) {a : Spot} {ch x : Int} :
    Credit n cost e l a ch x ↔ ClonedNested n cost e l iv a ch x := by
  simp [Credit, hi, hcl, hnest]

theorem kinds (e : Block × Block) (l : Loop) : l.indVar = none ∨ ∃ iv, l.indVar = some iv ∧
    (cloneable e l = false ∨ cloneable e l = true ∧ l.isNested = false ∨
      cloneable e l = true ∧ l.isNested = true) := by
  cases hi : l.indVar with
  | none => exact .inl rfl
  | some iv =>
    refine .inr ⟨iv, rfl, ?_⟩
    cases cloneable e l <;> cases l.isNested <;> simp

theorem credit_mono {a : Spot} {ch ch' x x' : Int} (h : Credit n cost e l a ch x) (hle : ch' ≤ ch)
    (hx : x' ≤ x) : Credit n cost e l a ch' x' := by
  rcases kinds e l with hi | ⟨iv, hi, hcl | ⟨hcl, hnest⟩ | ⟨hcl, hnest⟩⟩
  · exact (credit_plain hi).mpr (((credit_plain hi).mp h).mono hle)
  · exact (credit_counted hi hcl).mpr (((credit_counted hi hcl).mp h).mono hle)
  · exact (credit_once hi hcl hnest).mpr (once_mono ((credit_once hi hcl hnest).mp h) hle)
  · exact (credit_nested hi hcl hnest).mpr (nested_mono ((credit_nested hi hcl hnest).mp h) hle hx)

/-- What the loop charges right after a check matters only at a self loop. -/
theorem credit_free {a : Spot} {ch x : Int} (h : Credit n cost e l a ch x)
    (haway : e.1 = e.2 → a.cur ≠ e.2) (x' : Int) : Credit n cost e l a ch x' := by
  rcases kinds e l with hi | ⟨iv, hi, hcl | ⟨hcl, hnest⟩ | ⟨hcl, hnest⟩⟩
  · exact (credit_plain hi).mpr ((credit_plain hi).mp h)
  · exact (credit_counted hi hcl).mpr ((credit_counted hi hcl).mp h)
  · exact (credit_once hi hcl hnest).mpr ((credit_once hi hcl hnest).mp h)
  · have hne := haway (cloneable_self hcl)
    obtain ⟨c, h₀, hc, hsum, hres, hstay⟩ := (credit_nested hi hcl hnest).mp h
    refine (credit_nested hi hcl hnest).mpr ⟨c, h₀, hc, hsum, hres, ?_⟩
    cases hstay with
    | away hcur hch hpre => exact .away hcur hch hpre
    | copy j hcur => exact absurd hcur hne
    | before j hcur => exact absurd hcur hne
    | after j d hcur => exact absurd hcur hne

/-- After the code in the entry block, away from the loop. -/
theorem credit_entry (hb : Bounds ci n cost) (hsh : Shape e l) (hex : Exact ci e l) {a : Spot}
    (hs : a.slots = atEntry n l) (hout : a.cur ∉ l.body) (hp : a.cur ≠ l.preheader) (x : Int) :
    Credit n cost e l a 0 x := by
  have hn := hb.iters
  have hzero : (0 : Int) ≤ 0 * cost := by omega
  have hne : a.cur ≠ e.2 := fun he => hout (he ▸ hsh.header)
  have hres : ∀ iv, l.indVar = some iv → a.slots.residualSteps = iv.width.wrap (n * iv.step) := by
    intro iv hi
    rw [hs, ← const_steps hn ((hex.fits iv hi).inInt hn hb.n_le)]
    simp only [atEntry, hi]
  rcases kinds e l with hi | ⟨iv, hi, hcl | ⟨hcl, hnest⟩ | ⟨hcl, hnest⟩⟩
  · exact (credit_plain hi).mpr ⟨0, ⟨Int.le_refl 0, by omega⟩, by rw [hs]; rfl, hzero⟩
  · refine (credit_counted hi hcl).mpr ⟨0, ⟨Int.le_refl 0, by omega⟩, hzero, fun hor => ?_, ?_⟩
    · exact absurd hor (not_or.mpr ⟨hout, hp⟩)
    · exact fun _ _ => by rw [Int.sub_zero]; exact hres iv hi
  · exact (credit_once hi hcl hnest).mpr (once_away ⟨Int.le_refl 0, by omega⟩ hzero hne hp)
  · have hpos := along_step_pos (hex.clone hcl iv hi).1
    have hsum : along iv a.slots.sumLoopVal = 0 := by
      rw [hs]
      simp [atEntry, along]
    refine (credit_nested hi hcl hnest).mpr ⟨0, Int.le_refl 0, by rw [hsum]; omega, ?_, hres iv hi,
      stay_away hsh hout hp hzero⟩
    rw [hsum]
    exact Int.mul_pos (by omega) hpos

theorem credit_drift (hb : Bounds ci n cost) (hsh : Shape e l) (hex : Exact ci e l) {a b : Spot}
    {ch x : Int} (h : Credit n cost e l a ch x) (hd : Drift n e l a b)
    (honce : l.isNested = false → b.cur = l.preheader → ch ≤ 0) (x' : Int) :
    Credit n cost e l b ch x' := by
  rcases kinds e l with hi | ⟨iv, hi, hkind⟩
  · rw [credit_plain hi] at h ⊢
    exact h.drift hb.iters hi hd honce
  have hf := hex.fits iv hi
  rcases hkind with hcl | ⟨hcl, hnest⟩ | ⟨hcl, hnest⟩
  · rw [credit_counted hi hcl] at h ⊢
    refine h.drift hb hsh hf hi hcl (fun hnest hself => ?_) hd honce
    rw [hex.residual hnest hself (by simp [hi])] at hcl
    cases hcl
  · rw [credit_once hi hcl hnest] at h ⊢
    exact once_drift hb hsh hf (hex.clone hcl iv hi) hi hcl hnest h hd (honce hnest)
  · rw [credit_nested hi hcl hnest] at h ⊢
    exact nested_drift hb hsh hf (hex.clone hcl iv hi) hi hcl hnest h hd x'

theorem credit_latch (hb : Bounds ci n cost) (hsh : Shape e l) (hex : Exact ci e l) {a b : Spot}
    {ch x : Int} {hit : Bool} (h : Credit n cost e l a ch x) (hl : Latch n e l a b hit) :
    (hit = false → Credit n cost e l b (ch + cost) x ∨
        Credit n cost e l b ch (x + cost) ∧ x + cost ≤ ci) ∧
      (hit = true → Credit n cost e l b 0 0) := by
  rcases kinds e l with hi | ⟨iv, hi, hkind⟩
  · simp only [credit_plain hi] at h ⊢
    obtain ⟨hmiss, hhit⟩ := h.latch hb hi hl
    exact ⟨fun hm => .inl (hmiss hm), hhit⟩
  have hf := hex.fits iv hi
  rcases hkind with hcl | ⟨hcl, hnest⟩ | ⟨hcl, hnest⟩
  · simp only [credit_counted hi hcl] at h ⊢
    obtain ⟨hmiss, hhit⟩ := h.latch hb hsh hf hi hcl hl
    exact ⟨fun hm => .inl (hmiss hm), hhit⟩
  · simp only [credit_once hi hcl hnest] at h ⊢
    obtain ⟨hmiss, hhit⟩ := once_latch hb hsh hf (hex.clone hcl iv hi) hi hcl h hl
    exact ⟨fun hm => .inl (hmiss hm), hhit⟩
  · simp only [credit_nested hi hcl hnest] at h ⊢
    exact nested_latch hb hf hi hcl h hl

theorem credit_cloneHit (hb : Bounds ci n cost) (hsh : Shape e l) (hex : Exact ci e l)
    (hcl : cloneable e l = true) {a b : Spot} {ch x : Int} (h : Credit n cost e l a ch x)
    (hh : CloneHit n e l a b) : Credit n cost e l b 0 0 := by
  have hhit := hh.hit
  rcases kinds e l with hi | ⟨iv, hi, hcl' | ⟨-, hnest⟩ | ⟨-, hnest⟩⟩
  · simp [atCloneExit, hi] at hhit
  · rw [hcl] at hcl'
    cases hcl'
  · simp [atCloneExit, hi, hnest] at hhit
  · rw [credit_nested hi hcl hnest] at h ⊢
    exact nested_cloneHit hb hsh (hex.clone hcl iv hi) hi hcl hnest h hh

/-- What a loop can cost without a check: the interval, and once more during a stay in a nested
copied self loop. -/
theorem credit_le (hb : Bounds ci n cost) (hex : Exact ci e l) {a : Spot} {ch x : Int}
    (h : Credit n cost e l a ch x) : ch ≤ ci ∨ e.1 = e.2 ∧ a.cur = e.2 ∧ ch ≤ 2 * ci := by
  have hpos := hb.cost_pos
  have hone : ∀ c, c < n → ch ≤ c * cost → ch ≤ ci := by
    intro c hc hch
    have hle := hb.mul_le hc
    omega
  have htwo : ∀ c j, c < n → j < n → ch ≤ (c + j) * cost → ch ≤ 2 * ci := by
    intro c j hc hj hch
    have h₁ := hb.mul_le hc
    have h₂ := hb.mul_le hj
    rw [Int.add_mul] at hch
    omega
  rcases kinds e l with hi | ⟨iv, hi, hcl | ⟨hcl, hnest⟩ | ⟨hcl, hnest⟩⟩
  · obtain ⟨c, hc, -, hch⟩ := (credit_plain hi).mp h
    exact .inl (hone c hc.2 hch)
  · obtain ⟨c, hc, hch, -⟩ := (credit_counted hi hcl).mp h
    exact .inl (hone c hc.2 hch)
  · obtain ⟨c, hc, hch, -⟩ := (credit_once hi hcl hnest).mp h
    exact .inl (hone c hc.2 hch)
  · have hs := (hex.clone hcl iv hi).1
    have hself := cloneable_self hcl
    obtain ⟨c, -, hc, hsum, -, hstay⟩ := (credit_nested hi hcl hnest).mp h
    have hcn : c < n := lt_of_mul_along_lt hs (by omega)
    cases hstay with
    | away _ hch _ => exact .inl (hone c hcn hch)
    | copy j hcur _ ht hr hch =>
      have hlt := ht.lt_range hs
      have hjn : j < n := lt_of_mul_along_lt hs (by omega)
      exact .inr ⟨hself, hcur, htwo c j hcn hjn hch⟩
    | before j hcur _ _ _ hj _ hch => exact .inr ⟨hself, hcur, htwo c j hcn hj hch⟩
    | after j d _ _ _ _ _ _ hch _ => exact .inl (hone c hcn hch)

end TinyQuanta.CloneCredit
