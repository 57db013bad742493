import TinyQuanta.ProbeInsertion

/-!
# What is inserted keeps the code

Every operation of the stage leaves a function that still does what the original one
does. It only changes the terminators of the blocks it is about, so that the edges of
the plan are still there when their turn comes.
-/
namespace TinyQuanta.InsertionKeeps

open Ssa CfgRewrite CodeMap CodeEdits CloneEdit ProbeInsertion

variable {Op Name Label Val World Aux : Type}

/-! ## Emitted instructions -/

def arity : Emit → ℕ
  | .load _ => 0
  | .store _ => 1
  | .readcyclecounter => 0
  | .hook => 1
  | _ => 2

@[simp] theorem arity_load (s : Slot) : arity (.load s) = 0 := rfl
@[simp] theorem arity_store (s : Slot) : arity (.store s) = 1 := rfl
@[simp] theorem arity_readcyclecounter : arity .readcyclecounter = 0 := rfl
@[simp] theorem arity_hook : arity .hook = 1 := rfl
@[simp] theorem arity_add : arity .add = 2 := rfl
@[simp] theorem arity_sub : arity .sub = 2 := rfl
@[simp] theorem arity_icmpEQ : arity .icmpEQ = 2 := rfl
@[simp] theorem arity_icmpSGT : arity .icmpSGT = 2 := rfl
@[simp] theorem arity_icmpSLE : arity .icmpSLE = 2 := rfl
@[simp] theorem arity_icmpSGE : arity .icmpSGE = 2 := rfl

/-- A name that stands for no value of the original function. -/
def isNew : NewName Name → Prop
  | .old _ => False
  | .new _ _ => True
  | .cloned _ y => isNew y

def Emitted (i : NewInstr Op Name Val) : Prop :=
  (∃ e, i.op = .inr e ∧ i.args.length = arity e) ∧ ∀ y, i.dst = some y → isNew y

/-- The hook can change the memory, nothing else that is emitted can. -/
def Interferes (r : Runtime Op Val World Aux) (w w' : World) : Prop :=
  w' = w ∨ ∃ v e, w' = (r.hook v (w, e)).1

theorem carries_probed (sem : Sem Op Val World) (r : Runtime Op Val World Aux) :
    Carries Sum.inl sem (probed sem r) where
  exec op args w e := by
    change ((sem.exec op args w).map fun v => (v.1, (v.2, r.ran op args w e))).map
      (fun v => (v.1, v.2.1)) = _
    rw [Option.map_map]
    exact Option.map_id'
  truth := rfl

theorem harmless_emitted (sem : Sem Op Val World) (r : Runtime Op Val World Aux) :
    Harmless (probed sem r) (Interferes r) (Emitted : NewInstr Op Name Val → Prop) := by
  rintro i ⟨⟨e, hop, hargs⟩, -⟩ env w ⟨m, a⟩
  generalize hvals : i.args.map (Operand.eval env) = vals
  have hlen : vals.length = arity e := by rw [← hvals, List.length_map, hargs]
  rw [hop]
  cases e with
  | load s =>
    cases List.length_eq_zero_iff.mp hlen
    exact ⟨_, _, _, rfl, .inl rfl⟩
  | store s =>
    obtain ⟨v, rfl⟩ := List.length_eq_one_iff.mp hlen
    exact ⟨_, _, _, rfl, .inl rfl⟩
  | readcyclecounter =>
    cases List.length_eq_zero_iff.mp hlen
    exact ⟨_, _, _, rfl, .inl rfl⟩
  | hook =>
    obtain ⟨v, rfl⟩ := List.length_eq_one_iff.mp hlen
    exact ⟨_, _, _, rfl, .inr ⟨v, (m, a), rfl⟩⟩
  | add | sub | icmpEQ | icmpSGT | icmpSLE | icmpSGE =>
    obtain ⟨x, y, rfl⟩ := List.length_eq_two.mp hlen
    exact ⟨_, _, _, rfl, .inl rfl⟩

section Lists

variable (o : Options Op Val) (k : ℕ)

@[simp] theorem emitted_emit {t : Temp} {e : Emit} {args : List (NewOperand Name Val)} :
    Emitted (emit (some (.new k t)) e args : NewInstr Op Name Val) ↔ args.length = arity e := by
  constructor
  · rintro ⟨⟨e', he, h⟩, -⟩
    cases he
    exact h
  · intro h
    refine ⟨⟨e, rfl, h⟩, fun y hy => ?_⟩
    cases hy
    trivial

@[simp] theorem emitted_emit_none {e : Emit} {args : List (NewOperand Name Val)} :
    Emitted (emit none e args : NewInstr Op Name Val) ↔ args.length = arity e := by
  constructor
  · rintro ⟨⟨e', he, h⟩, -⟩
    cases he
    exact h
  · exact fun h => ⟨⟨e, rfl, h⟩, fun y hy => by cases hy⟩

theorem emitted_cycleCheck (loopIterations : Option Slot) (loopThreshold : Option (Slot × Int)) :
    ∀ i ∈ (cycleCheck o k loopIterations loopThreshold : List (NewInstr Op Name Val)),
      Emitted i := by
  unfold cycleCheck
  cases loopIterations <;> cases loopThreshold <;> simp

theorem emitted_push : ∀ i ∈ (pushToMLCfromTLLC o k : List (NewInstr Op Name Val)), Emitted i := by
  unfold pushToMLCfromTLLC
  split <;> simp

theorem emitted_initThreshold (isNested : Bool) (numIters : Int) (iv : IndVar Name Val) :
    ∀ i ∈ (initThreshold o k isNested numIters iv : List (NewInstr Op Name Val)), Emitted i := by
  unfold initThreshold
  split <;> simp

theorem emitted_setSlot (s : Slot) (x : Int) : ∀ i ∈ (setSlot o s x : List (NewInstr Op Name Val)),
    Emitted i := by
  simp [setSlot]

theorem emitted_countIteration (numIters : Int) :
    ∀ i ∈ (countIteration o k numIters : List (NewInstr Op Name Val)), Emitted i := by
  simp [countIteration]

theorem emitted_compareThreshold (iv : IndVar Name Val) :
    ∀ i ∈ (compareThreshold k iv : List (NewInstr Op Name Val)), Emitted i := by
  simp [compareThreshold]

theorem emitted_shortLoopTest (initialValue finalValue : Operand Name Val) (stepValue steps : Int) :
    ∀ i ∈ (shortLoopTest o k initialValue finalValue stepValue steps : List (NewInstr Op Name Val)),
      Emitted i := by
  unfold shortLoopTest
  split <;> simp

theorem emitted_sumUpdate (stepValue steps : Int) :
    ∀ i ∈ (sumUpdate o k stepValue steps : List (NewInstr Op Name Val)), Emitted i := by
  unfold sumUpdate
  split <;> simp

theorem emitted_keepResidualSteps (iv : IndVar Name Val) :
    ∀ i ∈ (keepResidualSteps k iv : List (NewInstr Op Name Val)), Emitted i := by
  simp [keepResidualSteps]

end Lists

/-! ## What holds of the function so far -/

section Built

variable [DecidableEq Label] {f : Func Op Name Label Val} {hf : Valid f}

abbrev NewLayout (Op Name Label Val : Type) := Layout Op Name Label Val (NewName Name)
    (NewLabel Label)

/-- The blocks of the original function are where they were, and the numbers that are used are
smaller than the next. -/
structure Built (hf : Valid f) (g : NewFunc Op Name Label Val) (next : ℕ)
    (lay : NewLayout Op Name Label Val) :
    Prop where
  maps : Maps hf Sum.inl Emitted g lay
  entry : g.entry = .old f.entry
  used_old : ∀ b, lay.used (.old b)
  used_new : ∀ k p, lay.used (.new k p) → k < next
  pos_old : ∀ b, lay.pos (.old b) = .inside b (f.blocks b).body
  name_old : ∀ b, lay.name (.old b) = .old

/-- More has been inserted, and only blocks of `T` have other terminators. -/
structure Inserts (hf : Valid f) (T : NewLabel Label → Prop) (g g' : NewFunc Op Name Label Val)
    (next' : ℕ)
    (lay lay' : NewLayout Op Name Label Val) : Prop where
  built : Built hf g' next' lay'
  grows : Grows lay lay'
  term : ∀ l, lay.used l → ¬ T l → (g'.blocks l).term = (g.blocks l).term

variable {T T' T₀ : NewLabel Label → Prop} {g g' g'' : NewFunc Op Name Label Val}
  {next next' next'' : ℕ}
  {lay lay' lay'' : NewLayout Op Name Label Val}

theorem Built.refl (h : Built hf g next lay) : Inserts hf T g g next lay lay :=
  ⟨h, .refl lay, fun _ _ _ => rfl⟩

theorem Inserts.trans (h : Inserts hf T g g' next' lay lay')
    (h' : Inserts hf T' g' g'' next'' lay' lay'')
    (hT : ∀ l, lay.used l → T l ∨ T' l → T₀ l) : Inserts hf T₀ g g'' next'' lay lay'' where
  built := h'.built
  grows := h.grows.trans h'.grows
  term l hl hTl := (h'.term l (h.grows.used l hl) fun ht => hTl (hT l hl (.inr ht))).trans
    (h.term l hl fun ht => hTl (hT l hl (.inl ht)))

/-- Instructions alone change no terminator. -/
theorem Inserts.then_instrs (h : Inserts hf T g g' next' lay lay')
    (h' : Inserts hf (fun _ => False) g' g'' next'' lay' lay'') :
    Inserts hf T g g'' next'' lay lay'' :=
  h.trans h' fun _ _ ht => ht.elim id False.elim

theorem Built.not_used (h : Built hf g next lay) {k : ℕ} (hk : next ≤ k) (p : Part) :
    ¬ lay.used (.new k p) := fun hu => absurd (h.used_new k p hu) (not_lt.mpr hk)

theorem Built.ne_new (h : Built hf g next lay) {l : NewLabel Label} (hl : lay.used l) {k : ℕ}
    (hk : next ≤ k)
    (p : Part) : l ≠ .new k p := by
  rintro rfl
  exact h.not_used hk p hl

/-- The layout has new blocks, with numbers up to the next. -/
theorem Built.of_grows (h : Built hf g next lay) (hm : Maps hf Sum.inl Emitted g' lay')
    (hg : Grows lay lay')
    (hentry : g'.entry = g.entry) (hused : ∀ k p, lay'.used (.new k p) → k < next') :
    Built hf g' next' lay' where
  maps := hm
  entry := hentry.trans h.entry
  used_old b := hg.used _ (h.used_old b)
  used_new := hused
  pos_old b := (hg.pos _ (h.used_old b)).trans (h.pos_old b)
  name_old b := (hg.name _ (h.used_old b)).trans (h.name_old b)

/-! ## The edits -/

theorem inserts_insertAt (h : Built hf g next lay) (l : NewLabel Label) (i : ℕ)
    {is : List (NewInstr Op Name Val)} (his : ∀ i ∈ is, Emitted i) :
    Inserts hf (fun _ => False) g (insertAt g l i is) next lay lay := by
  refine ⟨h.of_grows (maps_insertAt h.maps l i his) (.refl lay) rfl h.used_new, .refl lay,
    fun d _ _ => ?_⟩
  unfold insertAt
  by_cases hd : d = l
  · rw [hd, setBlock_self]
  · rw [setBlock_of_ne hd]

/-- A conditional part, with the number `k`. -/
theorem inserts_insertIfThenAt (h : Built hf g next lay) {b : NewLabel Label} (hb : lay.used b)
    (cond : NewOperand Name Val) (i : ℕ) {k : ℕ} {p p' : Part} (hp : p' ≠ p) (hk : next ≤ k) :
    ∃ lay', Inserts hf (· = b) g (insertIfThenAt g cond b i (.new k p) (.new k p'))
      (k + 1) lay lay' ∧
      lay'.used (.new k p) ∧ lay'.used (.new k p') ∧ (lay'.pos (.new k p')).block =
        (lay.pos b).block ∧
      lay'.name (.new k p') = lay.name b := by
  have hthen := h.not_used hk p
  have htail := h.not_used hk p'
  have hne : (.new k p' : NewLabel Label) ≠ .new k p := fun he => hp (NewLabel.new.inj he).2
  obtain ⟨r, hr, hm⟩ := maps_insertIfThenAt h.maps hb hthen htail hne cond i
  have hg : Grows lay (splitLayout lay b (.new k p) (.new k p') r) := splitLayout_grows hthen htail
  refine ⟨_, ⟨h.of_grows hm hg rfl ?_, hg, ?_⟩, .inl rfl, .inr (.inl rfl), ?_,
    (splitLayout_tail hne).2.1⟩
  · rintro j q (hj | hj | hj)
    · cases hj
      exact Nat.lt_succ_self _
    · cases hj
      exact Nat.lt_succ_self _
    · exact Nat.lt_succ_of_lt ((h.used_new j q hj).trans_le hk)
  · intro l hl hlb
    exact (insertIfThenAt_of_ne g cond i hlb (h.ne_new hl hk p) (h.ne_new hl hk p')).2
  · rw [(splitLayout_tail hne).1, hr]

theorem inserts_splitEdge (h : Built hf g next lay) {u v : NewLabel Label} (hu : lay.used u)
    (hv : v ∈ (g.blocks u).term.succs) (hnd : (g.blocks u).term.succs.Nodup) (p : Part) :
    ∃ lay', Inserts hf (· = u) g (CfgRewrite.splitEdge g u v (.new next p)) (next + 1) lay lay' ∧
      lay'.used (.new next p) ∧ (lay'.pos (.new next p)).block = (lay.pos u).block ∧
      lay'.name (.new next p) = lay.name u := by
  have hn := h.not_used le_rfl p
  obtain ⟨r, hr, hm⟩ := maps_splitEdge h.maps hu hn hv hnd
  have hg : Grows lay (addBlock lay u v (.new next p) r) := addBlock_grows hn
  refine ⟨_, ⟨h.of_grows hm hg rfl ?_, hg, ?_⟩, .inl rfl, ?_, addBlock_self.2.1⟩
  · rintro j q (hj | hj)
    · cases hj
      exact Nat.lt_succ_self _
    · exact Nat.lt_succ_of_lt (h.used_new j q hj)
  · intro l hl hlu
    rw [(splitEdge_of_ne g (h.ne_new hl le_rfl p)).2.1, if_neg hlu]
  · rw [addBlock_self.1, hr]

/-! ## Probes -/

variable (o : Options Op Val)

theorem inserts_insertAtEnd (h : Built hf g next lay) (l : NewLabel Label)
    {is : List (NewInstr Op Name Val)}
    (his : ∀ i ∈ is, Emitted i) : Inserts hf (fun _ => False) g (insertAtEnd g l is) next lay lay :=
  inserts_insertAt h l _ his

theorem inserts_insertPastAllocas (h : Built hf g next lay) {is : List (NewInstr Op Name Val)}
    (his : ∀ i ∈ is, Emitted i) : Inserts hf (fun _ => False) g (insertPastAllocas o g is) next lay
    lay :=
  inserts_insertAt h _ _ his

theorem inserts_insertAtPreheader (h : Built hf g next lay) (preheader : Option Label)
    {is : List (NewInstr Op Name Val)} (his : ∀ i ∈ is, Emitted i) :
    Inserts hf (fun _ => False) g (insertAtPreheader o g preheader is) next lay lay := by
  cases preheader with
  | none => exact inserts_insertPastAllocas o h his
  | some p => exact inserts_insertAtEnd h _ his

/-- A probe in a block, and the block behind it. -/
theorem inserts_insertCycleProbe {s : Build Op Name Label Val} (h : Built hf s.func s.next lay)
    {b : NewLabel Label} (hb : lay.used b) (i : ℕ) (loopIterations : Option Slot)
    (loopThreshold : Option (Slot × Int)) :
    ∃ lay', Inserts hf (· = b) s.func (insertCycleProbe o s b i loopIterations loopThreshold).func
      (s.next + 1)
        lay lay' ∧
      lay'.used (.new s.next .postInstrumentation) ∧
      (lay'.pos (.new s.next .postInstrumentation)).block = (lay.pos b).block ∧
      lay'.name (.new s.next .postInstrumentation) = lay.name b ∧
      ((insertCycleProbe o s b i loopIterations loopThreshold).func.blocks
        (.new s.next .postInstrumentation)).term = (s.func.blocks b).term := by
  have hcheck := inserts_insertAt h b i (emitted_cycleCheck o s.next loopIterations loopThreshold)
  obtain ⟨lay', hsplit, hpush, htail, hpos, hname⟩ := inserts_insertIfThenAt hcheck.built hb
    (temp s.next .commit) (i + (cycleCheck o s.next loopIterations loopThreshold).length)
    (show Part.postInstrumentation ≠ .pushBlock by decide) le_rfl
  have hlast := inserts_insertAtEnd hsplit.built (.new s.next .pushBlock) (emitted_push o s.next)
  refine ⟨lay', (hcheck.trans hsplit fun l _ ht => ht.elim False.elim id).then_instrs hlast, htail,
    hpos, hname, ?_⟩
  refine (hlast.term _ htail id).trans ?_
  rw [insertIfThenAt_tail _ _ _ (by simp)]
  exact hcheck.term b hb id

/-- The probe is in a block that is not in use before. -/
theorem inserts_insertProbeIf {s : Build Op Name Label Val} (h : Built hf s.func s.next lay)
    {l : NewLabel Label} (hl : lay.used l) {is : List (NewInstr Op Name Val)}
    (his : ∀ i ∈ is, Emitted i)
    (cond : NewOperand Name Val) {thenBB post : Part} (hne : post ≠ thenBB)
    (loopIterations : Option Slot)
    (loopThreshold : Option (Slot × Int)) :
    ∃ lay', Inserts hf (· = l) s.func
      (insertProbeIf o s l is cond thenBB post loopIterations loopThreshold).func
      (s.next + 2) lay lay' := by
  have hinstrs := inserts_insertAtEnd h l his
  obtain ⟨lay₁, hsplit, hthen, -⟩ := inserts_insertIfThenAt hinstrs.built hl cond
    ((insertAtEnd s.func l is).blocks l).body.length hne le_rfl
  obtain ⟨lay₂, hprobe, -⟩ := inserts_insertCycleProbe (s := ⟨_, s.next + 1⟩) o hsplit.built hthen 0
    loopIterations loopThreshold
  refine ⟨lay₂, (hinstrs.trans hsplit fun l _ ht => ht.elim False.elim id).trans hprobe ?_⟩
  rintro d hd (rfl | rfl)
  · rfl
  · exact absurd hd (h.not_used le_rfl _)

/-- The probe of a loop, on its back edge. -/
theorem inserts_insertCounterProbe {s : Build Op Name Label Val} (h : Built hf s.func s.next lay)
    {l : NewLabel Label} (hl : lay.used l) (numIters : Int) (info : LoopInfo Name Label Val) :
    ∃ lay', Inserts hf (· = l) s.func (insertCounterProbe o s l numIters info).func
      (insertCounterProbe o s l numIters info).next lay lay' := by
  have hinit := inserts_insertAtPreheader o h (if info.isNested then none else info.preheader)
    (emitted_setSlot o (.loopVariable s.next) 0)
  obtain ⟨lay', hprobe⟩ := inserts_insertProbeIf (s := ⟨_, s.next⟩) o hinit.built hl
    (emitted_countIteration o s.next numIters) (temp s.next .commit)
    (show Part.postLoop ≠ .loopThen by decide) (some (.loopVariable s.next)) none
  exact ⟨lay', hinit.trans hprobe fun l _ ht => ht.elim False.elim id⟩

theorem inserts_keepResidualSteps (h : Built hf g next lay) (k : ℕ) (iv : IndVar Name Val)
    (exitBlocks : List Label) :
    Inserts hf (fun _ => False) g
      (exitBlocks.foldl (fun g b => insertAtEnd g (.old b) (keepResidualSteps k iv)) g) next lay
      lay := by
  induction exitBlocks generalizing g with
  | nil => exact h.refl
  | cons b bs ih =>
    have hb := inserts_insertAtEnd h (.old b) (emitted_keepResidualSteps k iv)
    exact hb.then_instrs (ih hb.built)

theorem inserts_insertThreshold {s : Build Op Name Label Val} (h : Built hf s.func s.next lay)
    {l : NewLabel Label} (hl : lay.used l) (numIters : Int) (info : LoopInfo Name Label Val)
    (iv : IndVar Name Val) :
    ∃ lay', Inserts hf (· = l) s.func (insertThreshold o s l numIters info iv).func
      (insertThreshold o s l numIters info iv).next lay lay' := by
  have hresidual : Inserts hf (fun _ => False) s.func (if info.isNested then
      insertPastAllocas o s.func (setSlot o (.residualSteps s.next)
        (Params.int32 (numIters * iv.stepValue)))
      else s.func) s.next lay lay := by
    split
    · exact inserts_insertPastAllocas o h (emitted_setSlot o _ _)
    · exact h.refl
  have hinit := hresidual.then_instrs (inserts_insertAtPreheader o hresidual.built info.preheader
    (emitted_initThreshold o s.next info.isNested numIters iv))
  obtain ⟨lay', hprobe⟩ := inserts_insertProbeIf (s := ⟨_, s.next⟩) o hinit.built hl
    (emitted_compareThreshold s.next iv) (temp s.next .commit)
    (show Part.postLoop ≠ .loopThen by decide) none
    (some (.loopThreshold s.next, Params.int32 (numIters * iv.stepValue)))
  exact ⟨lay', hinit.trans hprobe fun l _ ht => ht.elim False.elim id⟩

theorem inserts_insertThresholdProbe {s : Build Op Name Label Val} (h : Built hf s.func s.next lay)
    {l : NewLabel Label} (hl : lay.used l) (numIters : Int) (info : LoopInfo Name Label Val)
    (iv : IndVar Name Val) (selfLoop : Bool) :
    ∃ lay', Inserts hf (· = l) s.func (insertThresholdProbe o s l numIters info iv selfLoop).func
      (insertThresholdProbe o s l numIters info iv selfLoop).next lay lay' := by
  obtain ⟨lay', hprobe⟩ := inserts_insertThreshold o h hl numIters info iv
  refine ⟨lay', ?_⟩
  unfold insertThresholdProbe
  split
  · exact hprobe.then_instrs (inserts_keepResidualSteps hprobe.built s.next iv info.exitBlocks)
  · exact hprobe

theorem inserts_insertLoopProbe {s : Build Op Name Label Val} (h : Built hf s.func s.next lay)
    {l : NewLabel Label} (hl : lay.used l) (p : LoopPlan Name Label Val) :
    ∃ lay', Inserts hf (· = l) s.func (insertLoopProbe o s l p).func
      (insertLoopProbe o s l p).next lay lay' := by
  unfold insertLoopProbe
  split
  · exact inserts_insertCounterProbe o h hl p.numIters p.toLoopInfo
  · exact inserts_insertThresholdProbe o h hl p.numIters p.toLoopInfo _ _

/-! ## Clones -/

section Clone

open LoopCopy

variable [DecidableEq Name]

/-- What the loop defines is read outside only through the PHI nodes of its exit. -/
structure Closed (hf : Valid f) (l : SelfLoop f) : Prop where
  phis : (f.blocks l.bb).phis ≠ []
  live : ∀ x, hf.live l.bb x → x ∉ (f.blocks l.bb).defs
  exit : ∀ x, hf.live l.exit x → x ∉ (f.blocks l.bb).defs

/-- The loop is as it was, and `instBB` comes before it. -/
structure Ready (l : SelfLoop f) (g : NewFunc Op Name Label Val) (lay : NewLayout Op Name Label Val)
    (instBB : NewLabel Label) : Prop where
  used : lay.used instBB
  pos : (lay.pos instBB).block = l.preheader
  name : lay.name instBB = .old
  term : (g.blocks instBB).term = .br (.old l.bb)
  ne_bb : instBB ≠ .old l.bb
  ne_exit : instBB ≠ .old l.exit
  loop : (g.blocks (.old l.bb)).term = (f.blocks l.bb).term.rename .old .old

variable {l : SelfLoop f} {instBB : NewLabel Label}

omit [DecidableEq Name] in
theorem Ready.of_instrs (h : Ready l g lay instBB) (hb : Built hf g next lay)
    (hg : Inserts hf (fun _ => False) g g' next' lay lay) : Ready l g' lay instBB :=
  { h with
    term := (hg.term _ h.used id).trans h.term
    loop := (hg.term _ (hb.used_old _) id).trans h.loop }

/-- The loop of the function so far. -/
def Ready.toLoop (h : Ready l g lay instBB) (hb : Built hf g next lay) (hc : Closed hf l) :
    Loop hf g lay l.preheader l.bb l.exit instBB (.old l.bb) (.old l.exit) where
  cond := l.cond.rename .old
  exitOnTrue := l.exitOnTrue
  used := hb.used_old _
  pos := hb.pos_old _
  latch := by
    rw [h.loop, l.latch]
    cases l.exitOnTrue <;> rfl
  exit_pos := hb.pos_old _
  exit_ne := l.exit_ne_bb
  before_used := h.used
  before_pos := h.pos
  before_term := h.term
  before_name := by rw [h.name, hb.name_old]
  before_ne := ⟨h.ne_bb, h.ne_exit⟩
  phis := hc.phis
  live := hc.live
  closed := hc.exit
  initial p hp o ho := by
    obtain ⟨o', ho', hout⟩ := l.initial p hp
    cases ho.symm.trans ho'
    exact hout

omit [DecidableEq Label] in
theorem isNew_getClonedValue {b : Block (Op ⊕ Emit) (NewName Name) (NewLabel Label) Val} {k : ℕ}
    {y : NewName Name} (hy : isNew y) : isNew (SelfLoopClone.getClonedValue b (.cloned k) y) := by
  unfold SelfLoopClone.getClonedValue
  split <;> exact hy

/-- A clone has names of its own. -/
theorem fresh_cloned (hb : Built hf g next lay) (b : Label) (k : ℕ) :
    Fresh (Emitted : NewInstr Op Name Val → Prop) lay (.old b) (.cloned k) where
  injective _ _ h := (NewName.cloned.inj h).2
  ne y x h := by
    rw [hb.name_old] at h
    cases h
  rename blk i hi := by
    obtain ⟨⟨e, hop, hargs⟩, hdst⟩ := hi
    refine ⟨⟨e, hop, by rw [← hargs]; exact List.length_map _⟩, fun y hy => ?_⟩
    obtain ⟨y', hy', rfl⟩ := Option.map_eq_some_iff.mp hy
    exact isNew_getClonedValue (hdst y' hy')
  dst_ne x i hi h := by
    rw [hb.name_old] at h
    exact hi.2 _ h

/-- The latch of the clone. -/
theorem cloneOn_latch (h : Built hf g next lay) (hr : Ready l g lay instBB)
    (cond : NewOperand Name Val) :
    ∃ c, ((cloneOn g instBB (.old l.bb) (.new next .clonedSelfLoop) (.cloned next) cond).blocks
        (.new next .clonedSelfLoop)).term =
      if l.exitOnTrue then .condBr c (.old l.exit) (.new next .clonedSelfLoop)
      else .condBr c (.new next .clonedSelfLoop) (.old l.exit) := by
  rw [cloneOn_self g cond (h.ne_new hr.used le_rfl .clonedSelfLoop).symm, hr.loop, l.latch]
  refine ⟨(l.cond.rename .old).rename
    (SelfLoopClone.getClonedValue (g.blocks (.old l.bb)) (.cloned next)), ?_⟩
  cases l.exitOnTrue <;> simp [Term.rename, setSuccessor, l.exit_ne_bb]

theorem inserts_cloneOn (h : Built hf g next lay) (hr : Ready l g lay instBB) (hc : Closed hf l)
    (cond : NewOperand Name Val) :
    ∃ lay', Inserts hf (· = instBB) g
        (cloneOn g instBB (.old l.bb) (.new next .clonedSelfLoop) (.cloned next) cond)
        (next + 1) lay lay' ∧
      lay'.used (.new next .clonedSelfLoop) := by
  have hC := h.not_used le_rfl .clonedSelfLoop
  have hm := maps_cloneOn (hr.toLoop h hc) h.maps (fresh_cloned h l.bb next) hC cond
  refine ⟨_, ⟨h.of_grows hm (cloneLayout_grows hC) rfl ?_, cloneLayout_grows hC, ?_⟩, .inl rfl⟩
  · rintro j q (hj | hj)
    · cases hj
      exact Nat.lt_succ_self _
    · exact Nat.lt_succ_of_lt (h.used_new j q hj)
  · intro d hd hne
    rw [(cloneOn_of_ne g cond (h.ne_new hd le_rfl .clonedSelfLoop)).2.1, if_neg hne]

/-- The clone of a self loop, and the test before it. -/
theorem inserts_insertClone {s : Build Op Name Label Val} (h : Built hf s.func s.next lay)
    (hr : Ready l s.func lay instBB) (hc : Closed hf l) (isNested : Bool)
    (initialValue finalValue : Operand Name Val) (stepValue steps : Int) :
    ∃ lay', Inserts hf (· = instBB) s.func
        (insertClone o s instBB l.bb isNested initialValue finalValue stepValue steps).func
        (s.next + 1) lay lay' ∧
      lay'.used (.new s.next .clonedSelfLoop) ∧
      ∃ c,
        ((insertClone o s instBB l.bb isNested initialValue finalValue stepValue steps).func.blocks
          (.new s.next .clonedSelfLoop)).term =
        if l.exitOnTrue then .condBr c (.old l.exit) (.new s.next .clonedSelfLoop)
        else .condBr c (.new s.next .clonedSelfLoop) (.old l.exit) := by
  have hclear : Inserts hf (fun _ => False) s.func
      (if isNested then insertPastAllocas o s.func (setSlot o (.sumLoopVal s.next) 0) else s.func)
      s.next lay lay := by
    split
    · exact inserts_insertPastAllocas o h (emitted_setSlot o _ _)
    · exact h.refl
  have htest := hclear.then_instrs (inserts_insertAtEnd hclear.built instBB
    (emitted_shortLoopTest o s.next initialValue finalValue stepValue steps))
  have hready := hr.of_instrs h htest
  obtain ⟨lay', hclone, hused⟩ := inserts_cloneOn htest.built hready hc (temp s.next .shortLoopCond)
  exact ⟨lay', htest.trans hclone fun l _ ht => ht.elim False.elim id, hused,
    cloneOn_latch htest.built hready (temp s.next .shortLoopCond)⟩

omit [DecidableEq Name] in
/-- The sum of the ranges, behind the clone. -/
theorem inserts_insertSumProbe {s : Build Op Name Label Val} (h : Built hf s.func s.next lay)
    {k : ℕ}
    (hk : lay.used (.new k .clonedSelfLoop)) {exitBB : NewLabel Label}
    (hexit : exitBB ∈ (s.func.blocks (.new k .clonedSelfLoop)).term.succs)
    (hnd : (s.func.blocks (.new k .clonedSelfLoop)).term.succs.Nodup) (stepValue steps : Int) :
    ∃ lay', Inserts hf (· = .new k .clonedSelfLoop) s.func
      (insertSumProbe o s k exitBB stepValue steps).func
      (insertSumProbe o s k exitBB stepValue steps).next lay lay' := by
  obtain ⟨lay₁, hsplit, hused, -⟩ := inserts_splitEdge h hk hexit hnd .splittedClonedSelfLoopEdge
  obtain ⟨lay₂, hprobe⟩ := inserts_insertProbeIf (s := ⟨_, s.next + 1⟩) o hsplit.built hused
    (emitted_sumUpdate o k stepValue steps) (temp k .shortLoopInstCond)
    (show Part.postClonedSelfLoop ≠ .sumThen by decide) (some (.sumLoopVal k)) none
  refine ⟨lay₂, hsplit.trans hprobe ?_⟩
  rintro d hd (rfl | rfl)
  · rfl
  · exact absurd hd (h.not_used le_rfl _)

theorem inserts_cloneSelfLoopOnCondition {s : Build Op Name Label Val}
    (h : Built hf s.func s.next lay)
    (hr : Ready l s.func lay instBB) (hc : Closed hf l) (isNested : Bool) (numIters : Int)
    (iv : IndVar Name Val) (finalValue : Operand Name Val) :
    ∃ lay', Inserts hf (· = instBB) s.func
      (cloneSelfLoopOnCondition o s instBB l.bb isNested numIters iv finalValue).func
      (cloneSelfLoopOnCondition o s instBB l.bb isNested numIters iv finalValue).next lay lay' := by
  obtain ⟨lay₁, hclone, hused, c, hlatch⟩ :=
    inserts_insertClone o h hr hc isNested iv.initialValue finalValue
    iv.stepValue (Params.int32 (numIters * iv.stepValue))
  have hsuccs : (.old l.exit) ∈
    ((insertClone o s instBB l.bb isNested iv.initialValue finalValue iv.stepValue
      (Params.int32 (numIters * iv.stepValue))).func.blocks
        (.new s.next .clonedSelfLoop)).term.succs ∧
    ((insertClone o s instBB l.bb isNested iv.initialValue finalValue iv.stepValue
      (Params.int32 (numIters * iv.stepValue))).func.blocks
        (.new s.next .clonedSelfLoop)).term.succs.Nodup ∧
    exitOf (.new s.next .clonedSelfLoop)
      ((insertClone o s instBB l.bb isNested iv.initialValue finalValue
      iv.stepValue (Params.int32 (numIters * iv.stepValue))).func.blocks
        (.new s.next .clonedSelfLoop)).term =
        some (.old l.exit) := by
    rw [hlatch]
    cases l.exitOnTrue <;> simp [Term.succs, exitOf]
  unfold cloneSelfLoopOnCondition
  cases isNested with
  | false => exact ⟨lay₁, hclone⟩
  | true =>
    simp only [hsuccs.2.2]
    obtain ⟨lay₂, hsum⟩ := inserts_insertSumProbe (s := ⟨_, s.next + 1⟩) o hclone.built hused
      hsuccs.1 hsuccs.2.1
      iv.stepValue (Params.int32 (numIters * iv.stepValue))
    refine ⟨lay₂, hclone.trans hsum ?_⟩
    rintro d hd (rfl | rfl)
    · rfl
    · exact absurd hd (h.not_used le_rfl _)

end Clone

end Built

end TinyQuanta.InsertionKeeps
