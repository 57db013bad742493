import TinyQuanta.InsertionPreserves

/-!
# Where the inserted code is

The blocks that the stage makes for a probe on an edge are still there when it is done:
later operations put code into the blocks of the function, or into new blocks. Only the
block behind a probe between a preheader and its self loop gets more, the test for the
clone.
-/
namespace TinyQuanta.ProbeLayout

open Ssa CfgRewrite CodeMap CodeEdits CloneEdit ProbeInsertion InsertionKeeps InsertionPreserves

variable {Op Name Label Val : Type}

/-! ## Blocks that are left alone -/

section Kept

variable {R : NewLabel Label → Prop} {g g' g'' : NewFunc Op Name Label Val} {l : NewLabel Label}

/-- The block has no PHI nodes, and these instructions. -/
def Has (g : NewFunc Op Name Label Val) (l : NewLabel Label) (is : List (NewInstr Op Name Val))
    (t : Term (NewName Name) (NewLabel Label) Val) : Prop := g.blocks l = ⟨[], is, t⟩

/-- The blocks of `R` that have no PHI nodes are as they were. -/
structure Kept (R : NewLabel Label → Prop) (g g' : NewFunc Op Name Label Val) : Prop where
  entry : g'.entry = g.entry
  has : ∀ l, R l → ∀ is t, Has g l is t → Has g' l is t

theorem Kept.refl (R : NewLabel Label → Prop) (g : NewFunc Op Name Label Val) : Kept R g g :=
  ⟨rfl, fun _ _ _ _ h => h⟩

theorem Kept.trans (h : Kept R g g') (h' : Kept R g' g'') : Kept R g g'' :=
  ⟨h'.entry.trans h.entry, fun l hl is t hh => h'.has l hl is t (h.has l hl is t hh)⟩

/-- What an operation says of the other blocks is enough. -/
theorem Has.of_parts {is : List (NewInstr Op Name Val)}
    {t : Term (NewName Name) (NewLabel Label) Val} (h : Has g l is t)
    (hbody : (g'.blocks l).body = (g.blocks l).body)
    (hterm : (g'.blocks l).term = (g.blocks l).term)
    (hphis : (g.blocks l).phis = [] → (g'.blocks l).phis = []) : Has g' l is t := by
  unfold Has at h ⊢
  rw [h] at hbody hterm hphis
  cases hb : g'.blocks l with
  | mk phis body term =>
    rw [hb] at hbody hterm hphis
    cases hbody
    cases hterm
    cases hphis rfl
    rfl

/-- The blocks `R` are none of the function and none that are still to be made. -/
structure Below (R : NewLabel Label → Prop) (n : ℕ) : Prop where
  old : ∀ b, ¬ R (.old b)
  new : ∀ i p, n ≤ i → ¬ R (.new i p)

theorem Below.mono {n n' : ℕ} (h : Below R n) (hn : n ≤ n') : Below R n' :=
  ⟨h.old, fun i p hi => h.new i p (le_trans hn hi)⟩

variable [DecidableEq Label]

theorem kept_insertAt (hl : ¬ R l) (i : ℕ) (is : List (NewInstr Op Name Val)) :
    Kept R g (insertAt g l i is) := by
  refine ⟨rfl, fun d hd is' t h => ?_⟩
  have hne : d ≠ l := fun he => hl (he ▸ hd)
  unfold Has insertAt
  rw [setBlock_of_ne hne]
  exact h

theorem kept_insertIfThenAt {b thenBB tail : NewLabel Label} (hb : ¬ R b) (hthen : ¬ R thenBB)
    (htail : ¬ R tail) (cond : NewOperand Name Val) (i : ℕ) :
    Kept R g (insertIfThenAt g cond b i thenBB tail) := by
  refine ⟨rfl, fun d hd is t h => ?_⟩
  have hdb : d ≠ b := fun he => hb (he ▸ hd)
  have hdthen : d ≠ thenBB := fun he => hthen (he ▸ hd)
  have hdtail : d ≠ tail := fun he => htail (he ▸ hd)
  have hsame := insertIfThenAt_of_ne g cond i hdb hdthen hdtail
  refine h.of_parts hsame.1 hsame.2 fun hphis => ?_
  rw [insertIfThenAt_phis g cond i hdthen hdtail, hphis]
  split <;> rfl

theorem kept_splitEdge {u n : NewLabel Label} (hu : ¬ R u) (hn : ¬ R n) (v : NewLabel Label) :
    Kept R g (CfgRewrite.splitEdge g u v n) := by
  refine ⟨rfl, fun d hd is t h => ?_⟩
  have hdu : d ≠ u := fun he => hu (he ▸ hd)
  have hdn : d ≠ n := fun he => hn (he ▸ hd)
  obtain ⟨hbody, hterm, hphis⟩ := splitEdge_of_ne (u := u) (v := v) g hdn
  rw [if_neg hdu] at hterm
  refine h.of_parts hbody hterm fun hnil => ?_
  rw [hphis, hnil]
  split <;> rfl

theorem kept_cloneOn [DecidableEq Name] {P C : NewLabel Label} (hP : ¬ R P) (hC : ¬ R C)
    (B : NewLabel Label) (fresh : NewName Name → NewName Name) (cond : NewOperand Name Val) :
    Kept R g (cloneOn g P B C fresh cond) := by
  refine ⟨rfl, fun d hd is t h => ?_⟩
  have hdP : d ≠ P := fun he => hP (he ▸ hd)
  have hdC : d ≠ C := fun he => hC (he ▸ hd)
  obtain ⟨hbody, hterm, hphis⟩ := cloneOn_of_ne g cond hdC
  rw [if_neg hdP] at hterm
  refine h.of_parts hbody hterm fun hnil => ?_
  rw [hphis, hnil]
  split <;> rfl

end Kept

/-! ## The operations -/

section Operations

variable [DecidableEq Label] {R : NewLabel Label → Prop} (o : Options Op Val)
  {s : Build Op Name Label Val} {g : NewFunc Op Name Label Val} {next : ℕ}

theorem kept_insertPastAllocas (hentry : ¬ R g.entry) (is : List (NewInstr Op Name Val)) :
    Kept R g (insertPastAllocas o g is) := kept_insertAt hentry _ is

theorem kept_insertAtPreheader (hold : ∀ b, ¬ R (.old b)) (hentry : ¬ R g.entry)
    (preheader : Option Label) (is : List (NewInstr Op Name Val)) :
    Kept R g (insertAtPreheader o g preheader is) := by
  cases preheader with
  | none => exact kept_insertPastAllocas o hentry is
  | some p => exact kept_insertAt (hold p) _ is

theorem kept_insertCycleProbe (hR : ∀ p, ¬ R (.new next p)) {b : NewLabel Label} (hb : ¬ R b)
    (i : ℕ) (loopIterations : Option Slot) (loopThreshold : Option (Slot × Int)) :
    Kept R g (insertCycleProbe o ⟨g, next⟩ b i loopIterations loopThreshold).func :=
  ((kept_insertAt hb _ _).trans (kept_insertIfThenAt hb (hR _) (hR _) _ _)).trans
    (kept_insertAt (hR _) _ _)

theorem kept_insertProbeIf (hR : Below R next) {l : NewLabel Label} (hl : ¬ R l)
    (is : List (NewInstr Op Name Val)) (cond : NewOperand Name Val) (thenBB post : Part)
    (loopIterations : Option Slot) (loopThreshold : Option (Slot × Int)) :
    Kept R g
      (insertProbeIf o ⟨g, next⟩ l is cond thenBB post loopIterations loopThreshold).func :=
  ((kept_insertAt hl _ is).trans (kept_insertIfThenAt hl (hR.new next thenBB le_rfl)
    (hR.new next post le_rfl) cond _)).trans (kept_insertCycleProbe o
    (fun p => hR.new _ p (Nat.le_succ _)) (hR.new _ _ le_rfl) 0 loopIterations loopThreshold)

theorem kept_keepResidualSteps (hold : ∀ b, ¬ R (.old b)) (k : ℕ) (iv : IndVar Name Val)
    (exitBlocks : List Label) :
    Kept R g (exitBlocks.foldl (fun g b => insertAtEnd g (.old b) (keepResidualSteps k iv)) g) := by
  induction exitBlocks generalizing g with
  | nil => exact .refl R g
  | cons b bs ih => exact (kept_insertAt (hold b) _ _).trans ih

/-- The blocks `R` are safe from what is still to come. -/
structure Open (R : NewLabel Label → Prop) (s : Build Op Name Label Val) : Prop where
  below : Below R s.next
  entry : ¬ R s.func.entry

omit [DecidableEq Label] in
theorem Open.empty (s : Build Op Name Label Val) : Open (fun _ => False) s :=
  ⟨⟨fun _ h => h, fun _ _ _ h => h⟩, fun h => h⟩

structure Grown (R : NewLabel Label → Prop) (s t : Build Op Name Label Val) : Prop where
  kept : Kept R s.func t.func
  next : s.next ≤ t.next

omit [DecidableEq Label] in
theorem Grown.refl (R : NewLabel Label → Prop) (s : Build Op Name Label Val) : Grown R s s :=
  ⟨.refl R s.func, le_rfl⟩

omit [DecidableEq Label] in
theorem Grown.trans {t u : Build Op Name Label Val} (h : Grown R s t) (h' : Grown R t u) :
    Grown R s u := ⟨h.kept.trans h'.kept, h.next.trans h'.next⟩

omit [DecidableEq Label] in
theorem Open.of_grown {t : Build Op Name Label Val} (h : Open R s) (hg : Grown R s t) :
    Open R t :=
  ⟨h.below.mono hg.next, by rw [hg.kept.entry]; exact h.entry⟩

theorem grown_insertCycleProbe (h : Open R s) {b : NewLabel Label} (hb : ¬ R b) (i : ℕ)
    (loopIterations : Option Slot) (loopThreshold : Option (Slot × Int)) :
    Grown R s (insertCycleProbe o s b i loopIterations loopThreshold) :=
  ⟨kept_insertCycleProbe o (fun p => h.below.new _ p le_rfl) hb i loopIterations loopThreshold,
    Nat.le_succ _⟩

theorem grown_splitEdge (h : Open R s) {u : NewLabel Label} (hu : ¬ R u) (v : NewLabel Label)
    (p : Part) : Grown R s (splitEdge s u v p) :=
  ⟨kept_splitEdge hu (h.below.new _ _ le_rfl) v, Nat.le_succ _⟩

theorem kept_insertCounterProbe (h : Open R s) {l : NewLabel Label} (hl : ¬ R l) (numIters : Int)
    (info : LoopInfo Name Label Val) :
    Kept R s.func (insertCounterProbe o s l numIters info).func := by
  have hinit := kept_insertAtPreheader o h.below.old h.entry
    (if info.isNested then none else info.preheader) (setSlot o (.loopVariable s.next) 0)
  exact hinit.trans (kept_insertProbeIf o h.below hl
    (countIteration o s.next numIters) (temp s.next .commit) .loopThen .postLoop
    (some (.loopVariable s.next)) none)

/-- The code of a loop with an induction variable that does not stand on the back edge. -/
theorem kept_initThreshold (h : Open R s) (numIters : Int) (info : LoopInfo Name Label Val)
    (iv : IndVar Name Val) :
    Kept R s.func (insertAtPreheader o (if info.isNested then insertPastAllocas o s.func
        (setSlot o (.residualSteps s.next) (Params.int32 (numIters * iv.stepValue))) else s.func)
      info.preheader (initThreshold o s.next info.isNested numIters iv)) := by
  have hresidual : Kept R s.func (if info.isNested then insertPastAllocas o s.func
      (setSlot o (.residualSteps s.next) (Params.int32 (numIters * iv.stepValue)))
      else s.func) := by
    split
    · exact kept_insertPastAllocas o h.entry _
    · exact .refl R _
  exact hresidual.trans (kept_insertAtPreheader o h.below.old
    (by rw [hresidual.entry]; exact h.entry) info.preheader _)

theorem kept_insertThreshold (h : Open R s) {l : NewLabel Label} (hl : ¬ R l) (numIters : Int)
    (info : LoopInfo Name Label Val) (iv : IndVar Name Val) :
    Kept R s.func (insertThreshold o s l numIters info iv).func :=
  (kept_initThreshold o h numIters info iv).trans (kept_insertProbeIf o h.below hl
    (compareThreshold s.next iv) (temp s.next .commit) .loopThen .postLoop none
    (some (.loopThreshold s.next, Params.int32 (numIters * iv.stepValue))))

theorem grown_insertLoopProbe (h : Open R s) {l : NewLabel Label} (hl : ¬ R l)
    (p : LoopPlan Name Label Val) : Grown R s (insertLoopProbe o s l p) := by
  unfold insertLoopProbe
  split
  · exact ⟨kept_insertCounterProbe o h hl p.numIters p.toLoopInfo, Nat.le_add_right _ 2⟩
  · rename_i iv _
    have hprobe := kept_insertThreshold o h hl p.numIters p.toLoopInfo iv
    unfold insertThresholdProbe
    split
    · exact ⟨hprobe.trans (kept_keepResidualSteps h.below.old _ _ _), Nat.le_add_right _ 2⟩
    · exact ⟨hprobe, Nat.le_add_right _ 2⟩

section Clone

variable [DecidableEq Name]

theorem grown_insertClone (h : Open R s) {instBB : NewLabel Label} (hinst : ¬ R instBB) (bb : Label)
    (isNested : Bool) (initialValue finalValue : Operand Name Val) (stepValue steps : Int) :
    Grown R s (insertClone o s instBB bb isNested initialValue finalValue stepValue steps) := by
  have hclear : Kept R s.func (if isNested then insertPastAllocas o s.func
      (setSlot o (.sumLoopVal s.next) 0) else s.func) := by
    split
    · exact kept_insertPastAllocas o h.entry _
    · exact .refl R _
  exact ⟨(hclear.trans (kept_insertAt hinst _ _)).trans
    (kept_cloneOn hinst (h.below.new _ _ le_rfl) _ _ _), Nat.le_succ _⟩

omit [DecidableEq Name] in
theorem grown_insertSumProbe (h : Open R s) {k : ℕ} (hk : ¬ R (.new k .clonedSelfLoop))
    (exitBB : NewLabel Label) (stepValue steps : Int) :
    Grown R s (insertSumProbe o s k exitBB stepValue steps) := by
  have hsplit := grown_splitEdge h hk exitBB .splittedClonedSelfLoopEdge
  exact ⟨hsplit.kept.trans (kept_insertProbeIf o (h.of_grown hsplit).below
    (h.below.new _ _ le_rfl) _ _ _ _ _ _), Nat.le_add_right _ 3⟩

theorem grown_insertCloneOf (h : Open R s) {updated : UpdatePreheaderMap Label}
    (hupd : ∀ e P, updated e = some P → ¬ R P) (p : LoopPlan Name Label Val) :
    Grown R s (insertCloneOf o updated s p) := by
  unfold insertCloneOf
  split
  · rename_i pre iv finalValue _
    have hinst : ¬ R ((updated (pre, p.header)).getD (.old pre)) := by
      cases hu : updated (pre, p.header) with
      | none => exact h.below.old pre
      | some P => exact hupd _ P hu
    have hclone := grown_insertClone o h hinst p.header p.isNested iv.initialValue finalValue
      iv.stepValue (Params.int32 (p.numIters * iv.stepValue))
    unfold cloneSelfLoopOnCondition
    simp only
    split
    · exact hclone.trans (grown_insertSumProbe o (h.of_grown hclone) (h.below.new _ _ le_rfl) _ _ _)
    · exact hclone
  · exact .refl R s

theorem grown_insertLoop (h : Open R s) {updated : UpdatePreheaderMap Label}
    (hupd : ∀ e P, updated e = some P → ¬ R P) (p : LoopPlan Name Label Val) :
    Grown R s (insertLoop o updated s p) := by
  have hclone := grown_insertCloneOf o h hupd p
  have hopen := h.of_grown hclone
  have hsplit := grown_splitEdge hopen (h.below.old p.latch) (.old p.header) .loopEdge
  exact (hclone.trans hsplit).trans (grown_insertLoopProbe o (hopen.of_grown hsplit)
    (hopen.below.new _ _ le_rfl) p)

theorem grown_loops (h : Open R s) {updated : UpdatePreheaderMap Label}
    (hupd : ∀ e P, updated e = some P → ¬ R P) (ps : List (LoopPlan Name Label Val)) :
    Grown R s (ps.foldl (insertLoop o updated) s) := by
  induction ps generalizing s with
  | nil => exact .refl R s
  | cons p ps ih =>
    have hp := grown_insertLoop o h hupd p
    exact hp.trans (ih (h.of_grown hp))

end Clone

theorem grown_insertNormProbe (h : Open R s) (isPreheader : Label → Label → Bool)
    (updated : UpdatePreheaderMap Label) (e : Label × Label) :
    Grown R s (insertNormProbe o isPreheader (s, updated) e).1 := by
  have hsplit := grown_splitEdge h (h.below.old e.1) (.old e.2) .splittedEdge
  exact hsplit.trans (grown_insertCycleProbe o (h.of_grown hsplit) (h.below.new _ _ le_rfl) 0 _ _)

theorem grown_edges (h : Open R s) (isPreheader : Label → Label → Bool)
    (updated : UpdatePreheaderMap Label) (es : List (Label × Label)) :
    Grown R s (es.foldl (insertNormProbe o isPreheader) (s, updated)).1 := by
  induction es generalizing s updated with
  | nil => exact .refl R s
  | cons e es ih =>
    have he := grown_insertNormProbe o h isPreheader updated e
    exact he.trans (ih (h.of_grown he) _)

theorem grown_blocks (h : Open R s) (bs : List Label) :
    Grown R s (bs.foldl (insertBlockProbe o) s) := by
  induction bs generalizing s with
  | nil => exact .refl R s
  | cons b bs ih =>
    have hb := grown_insertCycleProbe o h (h.below.old b) (s.func.blocks (.old b)).body.length none
      none
    exact hb.trans (ih (h.of_grown hb))

theorem grown_insertProbesAt (h : Open R s) {b : NewLabel Label} (hb : ¬ R b) (start : ℕ)
    (points : List ℕ) : Grown R s (insertProbesAt o s b start points) := by
  induction points generalizing s b start with
  | nil => exact .refl R s
  | cons i is ih =>
    have hi := grown_insertCycleProbe o h hb (i - start) none none
    exact hi.trans (ih (h.of_grown hi) (h.below.new _ _ le_rfl) i)

theorem grown_metered (h : Open R s) (cost : NewInstr Op Name Val → Int)
    (termCost : Term (NewName Name) (NewLabel Label) Val → Int) (bs : List Label) :
    Grown R s (bs.foldl (insertMeterProbes o cost termCost) s) := by
  induction bs generalizing s with
  | nil => exact .refl R s
  | cons b bs ih =>
    have hb : Grown R s (insertMeterProbes o cost termCost s b) :=
      grown_insertProbesAt o h (h.below.old b) 0 _
    exact hb.trans (ih (h.of_grown hb))

end Operations

/-! ## The code of a probe -/

section Code

variable (o : Options Op Val) (g : NewFunc Op Name Label Val)

/-- A check, and the call of the hook. -/
structure CycleProbe (b : NewLabel Label) (k : ℕ) (loopIterations : Option Slot)
    (loopThreshold : Option (Slot × Int)) : Prop where
  check : Has g b (cycleCheck o k loopIterations loopThreshold)
    (.condBr (temp k .commit) (.new k .pushBlock) (.new k .postInstrumentation))
  push : Has g (.new k .pushBlock) (pushToMLCfromTLLC o k) (.br (.new k .postInstrumentation))

/-- A check behind a test, on the way from `l` to `d`. -/
structure ConditionalProbe (l : NewLabel Label) (is : List (NewInstr Op Name Val))
    (cond : NewOperand Name Val) (k : ℕ) (thenBB post : Part) (loopIterations : Option Slot)
    (loopThreshold : Option (Slot × Int)) (d : NewLabel Label) : Prop where
  test : Has g l is (.condBr cond (.new k thenBB) (.new k post))
  probe : CycleProbe o g (.new k thenBB) (k + 1) loopIterations loopThreshold
  tail : Has g (.new (k + 1) .postInstrumentation) [] (.br (.new k post))
  post : Has g (.new k post) [] (.br d)

variable {o g} {g' : NewFunc Op Name Label Val} {R : NewLabel Label → Prop}
  {l b d : NewLabel Label} {k : ℕ} {is : List (NewInstr Op Name Val)} {cond : NewOperand Name Val}
  {thenBB post : Part} {loopIterations : Option Slot} {loopThreshold : Option (Slot × Int)}

theorem CycleProbe.of_kept (h : CycleProbe o g b k loopIterations loopThreshold)
    (hg : Kept R g g') (hb : R b) (hpush : R (.new k .pushBlock)) :
    CycleProbe o g' b k loopIterations loopThreshold :=
  ⟨hg.has _ hb _ _ h.check, hg.has _ hpush _ _ h.push⟩

theorem ConditionalProbe.of_kept
    (h : ConditionalProbe o g l is cond k thenBB post loopIterations loopThreshold d)
    (hg : Kept R g g') (hl : R l) (hk : ∀ p, R (.new k p)) (hk' : ∀ p, R (.new (k + 1) p)) :
    ConditionalProbe o g' l is cond k thenBB post loopIterations loopThreshold d where
  test := hg.has _ hl _ _ h.test
  probe := h.probe.of_kept hg (hk _) (hk' _)
  tail := hg.has _ (hk' _) _ _ h.tail
  post := hg.has _ (hk _) _ _ h.post

variable [DecidableEq Label] {s : Build Op Name Label Val}
  {t : Term (NewName Name) (NewLabel Label) Val}

theorem Has.insertAt (h : Has g l [] t) (is : List (NewInstr Op Name Val)) :
    Has (insertAt g l 0 is) l is t := by
  unfold Has at h
  unfold Has CodeEdits.insertAt
  rw [setBlock_self, h]
  simp

/-- A block that is split behind its last instruction. -/
theorem Has.insertIfThenAt (h : Has g l is t) {thenBB tail : NewLabel Label} (hthen : l ≠ thenBB)
    (htail : l ≠ tail) (hne : tail ≠ thenBB) (cond : NewOperand Name Val) {i : ℕ}
    (hi : i = is.length) :
    Has (insertIfThenAt g cond l i thenBB tail) l is (.condBr cond thenBB tail) ∧
      Has (insertIfThenAt g cond l i thenBB tail) thenBB [] (.br tail) ∧
      Has (insertIfThenAt g cond l i thenBB tail) tail [] t := by
  subst hi
  unfold Has at h
  refine ⟨?_, insertIfThenAt_thenBB g cond _, ?_⟩
  · obtain ⟨hbody, hterm⟩ := insertIfThenAt_head g cond is.length hthen htail
    have hphis := insertIfThenAt_phis g cond is.length (b := l) hthen htail
    rw [h] at hbody hphis
    unfold Has
    cases hb : (CodeEdits.insertIfThenAt g cond l is.length thenBB tail).blocks l with
    | mk phis body term =>
      rw [hb] at hbody hterm hphis
      simp only [List.take_length, List.map_nil, ite_self] at hbody hphis hterm
      rw [hbody, hphis, hterm]
  · unfold Has
    rw [insertIfThenAt_tail g cond _ hne, h, List.drop_length]

theorem Has.insertAtEnd (h : Has g l is t) (js : List (NewInstr Op Name Val)) :
    Has (insertAtEnd g l js) l (is ++ js) t := by
  unfold Has at h
  unfold Has ProbeInsertion.insertAtEnd CodeEdits.insertAt
  rw [setBlock_self, h]
  simp

/-- The probe in a block that is empty. -/
theorem cycleProbe_insertCycleProbe (o : Options Op Val) (h : Has g b [] t) {n : ℕ}
    (hb : ∀ p, b ≠ .new n p) (loopIterations : Option Slot)
    (loopThreshold : Option (Slot × Int)) :
    CycleProbe o (insertCycleProbe o ⟨g, n⟩ b 0 loopIterations loopThreshold).func b n
        loopIterations loopThreshold ∧
      Has (insertCycleProbe o ⟨g, n⟩ b 0 loopIterations loopThreshold).func
        (.new n .postInstrumentation) [] t := by
  have hcheck := h.insertAt (cycleCheck o n loopIterations loopThreshold)
  obtain ⟨hhead, hthen, htail⟩ := hcheck.insertIfThenAt (hb .pushBlock) (hb .postInstrumentation)
    (by simp) (temp n .commit) (Nat.zero_add _)
  have hkept : Kept (· ≠ .new n .pushBlock) _
      (insertCycleProbe o ⟨g, n⟩ b 0 loopIterations loopThreshold).func :=
    kept_insertAt (fun hne => hne rfl) _ _
  exact ⟨⟨hkept.has b (hb _) _ _ hhead, hthen.insertAtEnd _⟩, hkept.has _ (by simp) _ _ htail⟩

/-- The other blocks. -/
theorem Has.insertCycleProbe {o : Options Op Val} (h : Has g d is t) {next : ℕ} (hdb : d ≠ b)
    (hd : ∀ p, d ≠ .new next p) (loopIterations : Option Slot)
    (loopThreshold : Option (Slot × Int)) :
    Has (insertCycleProbe o ⟨g, next⟩ b 0 loopIterations loopThreshold).func d is t :=
  (kept_insertCycleProbe (R := (· = d)) o (fun p he => hd p he.symm) (fun he => hdb he.symm) 0 _
    _).has d rfl is t h

theorem conditionalProbe_insertProbeIf (o : Options Op Val) (h : Has g l [] (.br d)) {next : ℕ}
    (hl : ∀ i p, next ≤ i → l ≠ .new i p) (is : List (NewInstr Op Name Val))
    (cond : NewOperand Name Val) (hparts : post ≠ thenBB) (loopIterations : Option Slot)
    (loopThreshold : Option (Slot × Int)) :
    ConditionalProbe o
      (insertProbeIf o ⟨g, next⟩ l is cond thenBB post loopIterations loopThreshold).func l is cond
      next thenBB post loopIterations loopThreshold d := by
  have htest : Has (insertAtEnd g l is) l is (.br d) := h.insertAtEnd is
  have hlen : ((insertAtEnd g l is).blocks l).body.length = is.length := by rw [htest]
  obtain ⟨hhead, hthen, htail⟩ := htest.insertIfThenAt (hl next thenBB le_rfl) (hl next post le_rfl)
    (by simpa using hparts) cond hlen
  obtain ⟨hprobe, hlast⟩ := cycleProbe_insertCycleProbe o hthen (n := next + 1) (by simp)
    loopIterations loopThreshold
  exact ⟨hhead.insertCycleProbe (hl _ _ le_rfl) (fun p => hl _ p (Nat.le_succ _)) _ _, hprobe,
    hlast, htail.insertCycleProbe (by simpa using hparts) (by simp) _ _⟩

end Code

/-! ## Loops -/

section Loops

variable (o : Options Op Val)

/-- The code of the loop probe on the back edge, before its branch. -/
def loopTest (k : ℕ) (p : LoopPlan Name Label Val) : List (NewInstr Op Name Val) :=
  match p.indVar with
  | none => countIteration o k p.numIters
  | some iv => compareThreshold k iv

/-- A counter starts again at each check. -/
def clearedSlot (k : ℕ) (p : LoopPlan Name Label Val) : Option Slot :=
  match p.indVar with
  | none => some (.loopVariable k)
  | some _ => none

/-- A threshold is raised at each check. -/
def raisedSlot (k : ℕ) (p : LoopPlan Name Label Val) : Option (Slot × Int) :=
  match p.indVar with
  | none => none
  | some iv => some (.loopThreshold k, Params.int32 (p.numIters * iv.stepValue))

variable [DecidableEq Label]

/-- The probe on the back edge, from the block `loopEdge` to the header, and before it for a nested
loop that has a clone, the one on the edge from the clone to the exit. -/
structure LoopCode (f : Func Op Name Label Val) (g : NewFunc Op Name Label Val)
    (p : LoopPlan Name Label Val) (k j : ℕ) : Prop where
  le : k ≤ j
  probe : ConditionalProbe o g (.new j .loopEdge) (loopTest o (j + 1) p) (temp (j + 1) .commit)
    (j + 1) .loopThen .postLoop (clearedSlot (j + 1) p) (raisedSlot (j + 1) p) (.old p.header)
  sum : ∀ pre iv finalValue, decideSelfLoopCloneable p = some (pre, iv, finalValue) →
    p.isNested = true → k + 4 ≤ j ∧ ∀ exit ∈ (f.blocks p.header).term.succs, exit ≠ p.header →
      ConditionalProbe o g (.new (k + 1) .splittedClonedSelfLoopEdge)
        (sumUpdate o k iv.stepValue (Params.int32 (p.numIters * iv.stepValue)))
        (temp k .shortLoopInstCond) (k + 2) .sumThen .postClonedSelfLoop (some (.sumLoopVal k)) none
        (.old exit)

/-- The blocks with these numbers. -/
def Made (n n' : ℕ) : NewLabel Label → Prop
  | .old _ => False
  | .new i _ => n ≤ i ∧ i < n'

omit [DecidableEq Label] in
theorem below_made (n n' : ℕ) : Below (Made n n' : NewLabel Label → Prop) n' :=
  ⟨fun _ h => h, fun _ _ hi h => absurd h.2 (not_lt.mpr hi)⟩

variable {o} in
theorem LoopCode.of_kept {f : Func Op Name Label Val} {g g' : NewFunc Op Name Label Val}
    {p : LoopPlan Name Label Val} {k j : ℕ} (h : LoopCode o f g p k j)
    (hg : Kept (Made k (j + 3)) g g') : LoopCode o f g' p k j where
  le := h.le
  probe := by
    refine h.probe.of_kept hg ⟨h.le, ?_⟩ (fun _ => ⟨?_, ?_⟩) (fun _ => ⟨?_, ?_⟩) <;>
      have := h.le <;> omega
  sum pre iv finalValue hd hn := by
    obtain ⟨hle, hsum⟩ := h.sum pre iv finalValue hd hn
    refine ⟨hle, fun exit he hne => (hsum exit he hne).of_kept hg ⟨?_, ?_⟩ (fun _ => ⟨?_, ?_⟩)
      (fun _ => ⟨?_, ?_⟩)⟩ <;> omega

variable {o} {s : Build Op Name Label Val} {l d : NewLabel Label}

theorem conditionalProbe_insertCounterProbe (h : Has s.func l [] (.br d))
    (hl : ∀ i p, s.next ≤ i → l ≠ .new i p) (hopen : Open (· = l) s) (numIters : Int)
    (info : LoopInfo Name Label Val) :
    ConditionalProbe o (insertCounterProbe o s l numIters info).func l
      (countIteration o s.next numIters) (temp s.next .commit) s.next .loopThen .postLoop
      (some (.loopVariable s.next)) none d := by
  have hinit := kept_insertAtPreheader (R := (· = l)) o hopen.below.old hopen.entry
    (if info.isNested then none else info.preheader) (setSlot o (.loopVariable s.next) 0)
  exact conditionalProbe_insertProbeIf o (hinit.has l rfl _ _ h) hl
    (countIteration o s.next numIters) (temp s.next .commit) (by decide)
    (some (.loopVariable s.next)) none

theorem conditionalProbe_insertThreshold (h : Has s.func l [] (.br d))
    (hl : ∀ i p, s.next ≤ i → l ≠ .new i p) (hopen : Open (· = l) s) (numIters : Int)
    (info : LoopInfo Name Label Val) (iv : IndVar Name Val) :
    ConditionalProbe o (insertThreshold o s l numIters info iv).func l
      (compareThreshold s.next iv) (temp s.next .commit) s.next .loopThen .postLoop none
      (some (.loopThreshold s.next, Params.int32 (numIters * iv.stepValue))) d := by
  have hinit := kept_initThreshold o hopen numIters info iv
  exact conditionalProbe_insertProbeIf o (hinit.has l rfl _ _ h) hl (compareThreshold s.next iv)
    (temp s.next .commit) (by decide) none
    (some (.loopThreshold s.next, Params.int32 (numIters * iv.stepValue)))

theorem conditionalProbe_insertLoopProbe (h : Has s.func l [] (.br d))
    (hl : ∀ i p, s.next ≤ i → l ≠ .new i p) (hopen : Open (· = l) s)
    (p : LoopPlan Name Label Val) :
    ConditionalProbe o (insertLoopProbe o s l p).func l (loopTest o s.next p) (temp s.next .commit)
      s.next .loopThen .postLoop (clearedSlot s.next p) (raisedSlot s.next p) d := by
  unfold insertLoopProbe loopTest clearedSlot raisedSlot
  cases p.indVar with
  | none => exact conditionalProbe_insertCounterProbe h hl hopen p.numIters p.toLoopInfo
  | some iv =>
    have hprobe := conditionalProbe_insertThreshold (o := o) h hl hopen p.numIters p.toLoopInfo iv
    simp only [insertThresholdProbe]
    split
    · refine hprobe.of_kept (R := fun d => ∀ b, d ≠ .old b) (kept_keepResidualSteps
        (fun b hb => hb b rfl) _ _ _) (fun b hb => hopen.below.old b hb.symm) ?_ ?_ <;> simp
    · exact hprobe

omit [DecidableEq Label] in
theorem Below.open {R : NewLabel Label → Prop} (h : Below R s.next) {b : Label}
    (hentry : s.func.entry = .old b) : Open R s :=
  ⟨h, by rw [hentry]; exact h.old b⟩

omit [DecidableEq Label] in
theorem below_new {i n : ℕ} (hi : i < n) (q : Part) :
    Below (· = (.new i q : NewLabel Label)) n := by
  constructor
  · intro b h
    cases h
  · intro i' q' hi' h
    cases h
    omega

theorem next_insertLoopProbe (o : Options Op Val) (s : Build Op Name Label Val) (l : NewLabel Label)
    (p : LoopPlan Name Label Val) : (insertLoopProbe o s l p).next = s.next + 2 := by
  unfold insertLoopProbe
  split
  · rfl
  · unfold insertThresholdProbe
    split <;> rfl

variable [DecidableEq Name] {updated : UpdatePreheaderMap Label} {p : LoopPlan Name Label Val}

theorem probe_insertLoop (o : Options Op Val) (updated : UpdatePreheaderMap Label) {b : Label}
    (hentry : s.func.entry = .old b) (p : LoopPlan Name Label Val) :
    let j := (insertCloneOf o updated s p).next
    ConditionalProbe o (insertLoop o updated s p).func (.new j .loopEdge) (loopTest o (j + 1) p)
      (temp (j + 1) .commit) (j + 1) .loopThen .postLoop (clearedSlot (j + 1) p)
      (raisedSlot (j + 1) p) (.old p.header) := by
  intro j
  have hclone : Grown (fun _ => False) s (insertCloneOf o updated s p) :=
    grown_insertCloneOf o (.empty s) (fun _ _ _ h => h) p
  let t := splitEdge (insertCloneOf o updated s p) (.old p.latch) (.old p.header) .loopEdge
  have hhas : Has t.func (.new j .loopEdge) [] (.br (.old p.header)) := splitEdge_new _
  have hopen : Open (· = .new j .loopEdge) t :=
    (below_new (Nat.lt_succ_self j) .loopEdge).open (hclone.kept.entry.trans hentry)
  refine conditionalProbe_insertLoopProbe (s := t) hhas (fun i q hi h => ?_) hopen p
  cases h
  exact absurd hi (Nat.not_succ_le_self _)

section Fits

variable {f : Func Op Name Label Val} {hf : Valid f} {isPreheader : Label → Label → Bool}
  {plan : Plan Op Name Label Val} {lay : NewLayout Op Name Label Val}

/-- The probe behind the clone of a nested loop. -/
theorem sum_insertCloneOf (o : Options Op Val) (hfits : Fits hf isPreheader plan)
    (hp : p ∈ plan.loops) (h : Built hf s.func s.next lay)
    (hready : ∀ sl, Clones hf p sl → Ready sl s.func lay (instBB updated sl)) {pre : Label}
    {iv : IndVar Name Val} {finalValue : Operand Name Val}
    (hd : decideSelfLoopCloneable p = some (pre, iv, finalValue)) (hn : p.isNested = true) :
    (insertCloneOf o updated s p).next = s.next + 4 ∧
      ∀ exit ∈ (f.blocks p.header).term.succs, exit ≠ p.header →
      ConditionalProbe o (insertCloneOf o updated s p).func
        (.new (s.next + 1) .splittedClonedSelfLoopEdge)
        (sumUpdate o s.next iv.stepValue (Params.int32 (p.numIters * iv.stepValue)))
        (temp s.next .shortLoopInstCond) (s.next + 2) .sumThen .postClonedSelfLoop
        (some (.sumLoopVal s.next)) none (.old exit) := by
  obtain ⟨sl, hc, rfl⟩ := hfits.clones hp hd
  obtain ⟨lay₁, -, -, c, hlatch⟩ := inserts_insertClone o h (hready sl hc) hc.closed p.isNested
    iv.initialValue finalValue iv.stepValue (Params.int32 (p.numIters * iv.stepValue))
  have hexit : exitOf (.new s.next .clonedSelfLoop)
      ((insertClone o s (instBB updated sl) sl.bb p.isNested iv.initialValue finalValue
        iv.stepValue (Params.int32 (p.numIters * iv.stepValue))).func.blocks
        (.new s.next .clonedSelfLoop)).term = some (.old sl.exit) := by
    rw [hlatch]
    cases sl.exitOnTrue <;> simp [exitOf]
  have heq : insertCloneOf o updated s p = insertSumProbe o
      (insertClone o s (instBB updated sl) sl.bb p.isNested iv.initialValue finalValue iv.stepValue
        (Params.int32 (p.numIters * iv.stepValue))) s.next (.old sl.exit) iv.stepValue
      (Params.int32 (p.numIters * iv.stepValue)) := by
    unfold insertCloneOf
    rw [hd, hc.header]
    simp only [cloneSelfLoopOnCondition]
    unfold instBB at hexit
    rw [hexit, hn]
    rfl
  rw [heq]
  refine ⟨rfl, fun exit he hne => ?_⟩
  rw [hc.header] at he hne
  obtain rfl := (succs_selfLoop sl |>.mp he).resolve_left hne
  refine conditionalProbe_insertProbeIf o (splitEdge_new _) (fun i q hi h => ?_) _ _ (by decide) _ _
  cases h
  exact absurd hi (Nat.not_succ_le_self _)

theorem loopCode_insertLoop (o : Options Op Val) (hfits : Fits hf isPreheader plan)
    (hp : p ∈ plan.loops) (h : Built hf s.func s.next lay)
    (hready : ∀ sl, Clones hf p sl → Ready sl s.func lay (instBB updated sl)) :
    ∃ j, LoopCode o f (insertLoop o updated s p).func p s.next j ∧
      (insertLoop o updated s p).next = j + 3 := by
  have hclone : Grown (fun _ => False) s (insertCloneOf o updated s p) :=
    grown_insertCloneOf o (.empty s) (fun _ _ _ h => h) p
  refine ⟨(insertCloneOf o updated s p).next, ⟨hclone.next, probe_insertLoop o updated h.entry p,
    fun pre iv finalValue hd hn => ?_⟩, next_insertLoopProbe o _ _ p⟩
  obtain ⟨hnext, hsum⟩ := sum_insertCloneOf o hfits hp h hready hd hn
  have hopen := (below_made s.next (insertCloneOf o updated s p).next).open
    (hclone.kept.entry.trans h.entry)
  have hsplit := grown_splitEdge hopen (hopen.below.old p.latch) (.old p.header) .loopEdge
  have hprobe := grown_insertLoopProbe o (hopen.of_grown hsplit)
    (hopen.below.new _ .loopEdge le_rfl) p
  refine ⟨hnext.ge, fun exit he hne => (hsum exit he hne).of_kept
    (hsplit.kept.trans hprobe.kept) ⟨?_, ?_⟩ (fun _ => ⟨?_, ?_⟩) (fun _ => ⟨?_, ?_⟩)⟩ <;> omega

/-- The probes of all loops, with numbers that do not overlap. -/
theorem loopCodes (o : Options Op Val) (hfits : Fits hf isPreheader plan) {n : ℕ}
    (hnew : ∀ e P, updated e = some P → ∃ i q, P = .new i q ∧ i < n)
    {ls : List (LoopPlan Name Label Val)} (hsub : ls ⊆ plan.loops)
    (hnd : (ls.map fun l => (l.latch, l.header)).Nodup) (h : LoopsReady hf updated ls s lay)
    (hn : n ≤ s.next) :
    ∃ ks : List (ℕ × ℕ),
      List.Forall₂ (fun l k => LoopCode o f (ls.foldl (insertLoop o updated) s).func l k.1 k.2) ls
        ks ∧
      ks.Pairwise (fun k k' => k.2 + 3 ≤ k'.1) ∧
      ∀ k ∈ ks, s.next ≤ k.1 ∧ k.2 + 3 ≤ (ls.foldl (insertLoop o updated) s).next := by
  induction ls generalizing s lay with
  | nil => exact ⟨[], .nil, .nil, fun k hk => by cases hk⟩
  | cons l ls ih =>
    obtain ⟨j, hcode, hnext⟩ := loopCode_insertLoop o hfits (hsub List.mem_cons_self) h.built
      (h.ready l List.mem_cons_self)
    have hold : ∀ e P, updated e = some P → ∀ b, P ≠ .old b := by
      intro e P hP b hb
      obtain ⟨i, q, rfl, -⟩ := hnew e P hP
      cases hb
    have hfree : ∀ n' e P, updated e = some P → ¬ Made s.next n' P := by
      intro n' e P hP hm
      obtain ⟨i, q, rfl, hi⟩ := hnew e P hP
      exact absurd hm.1 (not_le.mpr (lt_of_lt_of_le hi hn))
    obtain ⟨lay₁, h₁⟩ := h.step o hfits hold hsub hnd
    have hle := hcode.le
    obtain ⟨ks, hks, hpair, hbound⟩ := ih (fun l hl => hsub (List.mem_cons_of_mem _ hl))
      (List.nodup_cons.mp hnd).2 h₁ (by omega)
    have hopen := ((below_made s.next (j + 3)).mono hnext.ge).open h₁.built.entry
    have hrest := grown_loops o hopen (hfree _) ls
    refine ⟨(s.next, j) :: ks, .cons (hcode.of_kept hrest.kept) hks, .cons ?_ hpair, ?_⟩
    · intro k hk
      exact hnext ▸ (hbound k hk).1
    · intro k hk
      rcases List.mem_cons.mp hk with rfl | hk
      · exact ⟨le_rfl, hnext ▸ hrest.next⟩
      · have := hbound k hk
        exact ⟨by omega, this.2⟩

end Fits

end Loops

/-! ## Edges -/

section Edges

variable [DecidableEq Label] (o : Options Op Val) (isPreheader : Label → Label → Bool)

/-- The probe on an edge. If the edge leads from a preheader to its self loop, the block behind the
probe can get the test for the clone. -/
structure EdgeCode (g : NewFunc Op Name Label Val) (e : Label × Label) (k : ℕ) : Prop where
  probe : CycleProbe o g (.new k .splittedEdge) (k + 1) none none
  tail : isPreheader e.1 e.2 = false →
    Has g (.new (k + 1) .postInstrumentation) [] (.br (.old e.2))

/-- The blocks of the probe on an edge that stay as they are. -/
def OnEdge (e : Label × Label) (k : ℕ) (d : NewLabel Label) : Prop :=
  d = .new k .splittedEdge ∨ d = .new (k + 1) .pushBlock ∨
    d = .new (k + 1) .postInstrumentation ∧ isPreheader e.1 e.2 = false

variable {o isPreheader} {g g' : NewFunc Op Name Label Val} {e : Label × Label} {k : ℕ}
  {s : Build Op Name Label Val} {updated : UpdatePreheaderMap Label}

omit [DecidableEq Label] in
theorem EdgeCode.of_kept (h : EdgeCode o isPreheader g e k)
    (hg : Kept (OnEdge isPreheader e k) g g') : EdgeCode o isPreheader g' e k where
  probe := h.probe.of_kept hg (.inl rfl) (.inr (.inl rfl))
  tail hp := hg.has _ (.inr (.inr ⟨rfl, hp⟩)) _ _ (h.tail hp)

omit [DecidableEq Label] in
theorem below_onEdge (isPreheader : Label → Label → Bool) (e : Label × Label) (k : ℕ) :
    Below (OnEdge isPreheader e k) (k + 2) := by
  constructor
  · rintro b (h | h | ⟨h, -⟩) <;> cases h
  · rintro i q hi (h | h | ⟨h, -⟩) <;> cases h <;> omega

theorem edgeCode_insertNormProbe (o : Options Op Val) (isPreheader : Label → Label → Bool)
    (s : Build Op Name Label Val) (updated : UpdatePreheaderMap Label) (e : Label × Label) :
    EdgeCode o isPreheader (insertNormProbe o isPreheader (s, updated) e).1.func e s.next := by
  obtain ⟨hprobe, htail⟩ := cycleProbe_insertCycleProbe o (n := s.next + 1)
    (splitEdge_new (u := .old e.1) (v := .old e.2) (n := .new s.next .splittedEdge) s.func)
    (by simp) none none
  exact ⟨hprobe, fun _ => htail⟩

/-- The blocks of `UpdatePreheaderMap` are made for edges from preheaders. -/
theorem updated_insertNormProbe (o : Options Op Val) {u : Label × Label} {P : NewLabel Label}
    (h : (insertNormProbe o isPreheader (s, updated) e).2 u = some P) :
    updated u = some P ∨
      P = .new (s.next + 1) .postInstrumentation ∧ isPreheader e.1 e.2 = true := by
  simp only [insertNormProbe] at h
  split at h
  · rename_i hp
    by_cases hu : u = e
    · rw [hu, Function.update_self] at h
      exact .inr ⟨(Option.some.inj h).symm, hp⟩
    · rw [Function.update_of_ne hu] at h
      exact .inl h
  · exact .inl h

theorem updated_edges (es : List (Label × Label)) {u : Label × Label} {P : NewLabel Label}
    (h : (es.foldl (insertNormProbe o isPreheader) (s, updated)).2 u = some P) :
    updated u = some P ∨ ∃ i q, P = .new i q ∧ s.next < i ∧
      i < (es.foldl (insertNormProbe o isPreheader) (s, updated)).1.next := by
  induction es generalizing s updated with
  | nil => exact .inl h
  | cons e es ih =>
    have hgrown := grown_edges o (.empty (insertNormProbe o isPreheader (s, updated) e).1)
      isPreheader (insertNormProbe o isPreheader (s, updated) e).2 es
    rcases ih h with h | ⟨i, q, rfl, hi, hlt⟩
    · rcases updated_insertNormProbe o h with h | ⟨rfl, -⟩
      · exact .inl h
      · exact .inr ⟨_, _, rfl, Nat.lt_succ_self _, lt_of_lt_of_le (Nat.lt_succ_self _) hgrown.next⟩
    · exact .inr ⟨i, q, rfl, lt_of_le_of_lt (Nat.le_add_right s.next 2) hi, hlt⟩

/-- The probes of all edges, also when other blocks are changed later that are not on them. -/
theorem edgeCodes (o : Options Op Val) (isPreheader : Label → Label → Bool)
    (es : List (Label × Label)) {b : Label} (hentry : s.func.entry = .old b)
    (hnew : ∀ u P, updated u = some P → ∃ i q, P = .new i q ∧ i < s.next) :
    ∃ ks : List ℕ, List.Forall₂ (fun e k =>
      EdgeCode o isPreheader (es.foldl (insertNormProbe o isPreheader) (s, updated)).1.func e k ∧
      Open (OnEdge isPreheader e k) (es.foldl (insertNormProbe o isPreheader) (s, updated)).1 ∧
      ∀ u P, (es.foldl (insertNormProbe o isPreheader) (s, updated)).2 u = some P →
        ¬ OnEdge isPreheader e k P) es ks := by
  induction es generalizing s updated with
  | nil => exact ⟨[], .nil⟩
  | cons e es ih =>
    have hcode := edgeCode_insertNormProbe o isPreheader s updated e
    have hentry' : (insertNormProbe o isPreheader (s, updated) e).1.func.entry = .old b := hentry
    obtain ⟨ks, hks⟩ := ih hentry' fun u P hP => by
      rcases updated_insertNormProbe o hP with hP | ⟨rfl, -⟩
      · obtain ⟨i, q, rfl, hi⟩ := hnew u P hP
        exact ⟨i, q, rfl, lt_of_lt_of_le hi (Nat.le_add_right _ 2)⟩
      · exact ⟨_, _, rfl, Nat.lt_succ_self _⟩
    have hopen : Open (OnEdge isPreheader e s.next)
        (insertNormProbe o isPreheader (s, updated) e).1 :=
      (below_onEdge isPreheader e s.next).open hentry'
    have hrest := grown_edges o hopen isPreheader
      (insertNormProbe o isPreheader (s, updated) e).2 es
    refine ⟨s.next :: ks, .cons ⟨hcode.of_kept hrest.kept, hopen.of_grown hrest, ?_⟩ hks⟩
    intro u P hP hon
    rcases updated_edges es hP with hP | ⟨i, q, rfl, hi, -⟩
    · rcases updated_insertNormProbe o hP with hP | ⟨rfl, hp⟩
      · obtain ⟨i, q, rfl, hi⟩ := hnew u P hP
        rcases hon with h | h | ⟨h, -⟩ <;> have := (NewLabel.new.inj h).1 <;> omega
      · rcases hon with h | h | ⟨-, hne⟩
        · cases (NewLabel.new.inj h).2
        · cases (NewLabel.new.inj h).2
        · rw [hp] at hne
          cases hne
    · exact (below_onEdge isPreheader e s.next).new i q (le_of_lt hi) hon

end Edges

/-! ## The whole stage -/

/-- In the function that the stage leaves, the probes of all edges and loops are where they have
been put. -/
theorem layout_insertProbes [DecidableEq Label] [DecidableEq Name] (o : Options Op Val)
    {f : Func Op Name Label Val} {hf : Valid f} {isPreheader : Label → Label → Bool}
    {p : Plan Op Name Label Val} (hfits : Fits hf isPreheader p)
    (cost : NewInstr Op Name Val → Int)
    (termCost : Term (NewName Name) (NewLabel Label) Val → Int) :
    (∃ ks : List ℕ, List.Forall₂
      (EdgeCode o isPreheader (insertProbes o cost termCost isPreheader p f)) p.edges ks) ∧
    ∃ ks : List (ℕ × ℕ), List.Forall₂
      (fun l k => LoopCode o f (insertProbes o cost termCost isPreheader p f) l k.1 k.2) p.loops
        ks ∧
      ks.Pairwise fun k k' => k.2 + 3 ≤ k'.1 := by
  obtain ⟨lay₁, hedges⟩ := edgesDone_edges o hfits.edges_nodup hfits.edges (fun _ _ h => h)
    (edgesDone_start hf hfits.succs isPreheader)
  simp only [false_or] at hedges
  obtain ⟨lay₂, hblocks⟩ := inserts_blocks o p.blocks hedges.built
  have hready := loopsReady_start hfits hedges hblocks
  obtain ⟨lay₃, hloops⟩ := loopsReady_loops o hfits
    (fun e P hP => (hedges.between e.1 e.2 P hP).2.2.2.2) (List.Subset.refl _) hfits.loops_nodup
    hready
  -- The blocks of `UpdatePreheaderMap` belong to the edges.
  have hnew : ∀ e P, (p.edges.foldl (insertNormProbe o isPreheader)
      (⟨embed f, 0⟩, fun _ => none)).2 e = some P → ∃ i q, P = .new i q ∧
        i < (p.edges.foldl (insertNormProbe o isPreheader)
          (⟨embed f, 0⟩, fun _ => none)).1.next := by
    intro e P hP
    rcases updated_edges p.edges hP with h | ⟨i, q, hi, -, hlt⟩
    · cases h
    · exact ⟨i, q, hi, hlt⟩
  constructor
  · have hnone : ∀ u P, (fun _ => none : UpdatePreheaderMap Label) u = some P →
        ∃ i q, P = .new i q ∧ i < 0 := fun _ _ h => by cases h
    obtain ⟨ks, hks⟩ := edgeCodes o isPreheader p.edges (s := ⟨embed f, 0⟩) (b := f.entry) rfl hnone
    refine ⟨ks, hks.imp fun e k h => ?_⟩
    obtain ⟨hcode, hopen, hupd⟩ := h
    have hb := grown_blocks o hopen p.blocks
    have hl := grown_loops o (hopen.of_grown hb) hupd p.loops
    have hm := grown_metered o ((hopen.of_grown hb).of_grown hl) cost termCost p.metered
    exact hcode.of_kept ((hb.kept.trans hl.kept).trans hm.kept)
  · have hb := grown_blocks o (.empty (p.edges.foldl (insertNormProbe o isPreheader)
      (⟨embed f, 0⟩, fun _ => none)).1) p.blocks
    obtain ⟨ks, hks, hpair, hbound⟩ := loopCodes o hfits hnew (List.Subset.refl _) hfits.loops_nodup
      hready hb.next
    refine ⟨ks, forall₂_imp_of_mem (fun l _ k hk hcode => ?_) hks, hpair⟩
    have hopen := ((below_made k.1 (k.2 + 3)).mono (hbound k hk).2).open hloops.built.entry
    exact hcode.of_kept (grown_metered o hopen cost termCost p.metered).kept

end TinyQuanta.ProbeLayout
