import TinyQuanta.InsertionKeeps

/-!
# The instrumented function means the same

The probes of a plan go in one after the other: on edges, in blocks, on back edges with
the clones, and between instructions. Whatever the checks find, the function that comes
out returns what the original one returns and leaves the same memory, but for what the
hook does.
-/
namespace TinyQuanta.InsertionPreserves

open Ssa CfgRewrite CodeMap CodeEdits LoopCopy ProbeInsertion InsertionKeeps

variable {Op Name Label Val World Aux : Type} [DecidableEq Label] {f : Func Op Name Label Val}
  {hf : Valid f}

/-! ## The original function -/

/-- Every block is where it was. -/
def startLayout (f : Func Op Name Label Val) : NewLayout Op Name Label Val where
  used l := ∃ b, l = .old b
  pos
    | .old b => .inside b (f.blocks b).body
    | .new _ _ => .inside f.entry []
  name _ := .old
  rank _ := 0

omit [DecidableEq Label] in
theorem old_injective_label : Function.Injective (NewLabel.old : Label → NewLabel Label) :=
  fun _ _ h => NewLabel.old.inj h

omit [DecidableEq Label] in
theorem code_body (added : NewInstr Op Name Val → Prop) (b : Label)
    (is : List (Instr Op Name Val)) :
    Code Sum.inl NewName.old added (is.map (Instr.rename Sum.inl .old)) (.inside b is)
      (.inside b []) := by
  induction is with
  | nil => exact .done _
  | cons i is ih => exact .instr ih

theorem enters_embed (u v : Label) :
    Enters hf (embed f) (startLayout f) (.old u) u v (.old v) where
  used := ⟨v, rfl⟩
  pos := rfl
  phis := by
    have hphis : ((embed f).blocks (.old v)).phis = (f.blocks v).phis.map (Phi.rename .old .old) :=
      rfl
    rw [hphis, List.forall₂_map_right_iff, List.forall₂_same]
    exact fun p _ => ⟨rfl, Phi.incomingFor_rename old_injective_label p u⟩
  names _ _ := rfl

theorem exit_embed (b : Label) : Exit hf (embed f) (startLayout f) (.old b) (.inside b []) := by
  have hterm : ((embed f).blocks (.old b)).term = (f.blocks b).term.rename .old .old := rfl
  cases ht : (f.blocks b).term with
  | br dest =>
    rw [ht] at hterm
    refine .goes (.br ht) ?_ ?_ <;> rw [hterm]
    · exact List.cons_ne_nil _ _
    · intro d hd
      cases List.mem_singleton.mp hd
      exact .inl (enters_embed b dest)
  | condBr cond ifTrue ifFalse =>
    rw [ht] at hterm
    exact .branch ht hterm (.inl (enters_embed b ifTrue)) (.inl (enters_embed b ifFalse))
  | ret value =>
    rw [ht] at hterm
    exact .ret ht hterm

theorem built_embed (hf : Valid f) : Built hf (embed f) 0 (startLayout f) where
  maps :=
    { entry_used := ⟨f.entry, rfl⟩
      entry := rfl
      blocks := by
        rintro l ⟨b, rfl⟩
        exact ⟨_, code_body Emitted b (f.blocks b).body, exit_embed b⟩
      name_injective := fun _ _ _ h => NewName.old.inj h
      name_ne := fun _ _ _ hi h => hi.2 _ h
      incoming_used := by
        rintro l ⟨b, rfl⟩ p hp e he
        obtain ⟨p', -, rfl⟩ := List.mem_map.mp hp
        obtain ⟨e', -, rfl⟩ := List.mem_map.mp he
        exact ⟨e'.1, rfl⟩ }
  entry := rfl
  used_old b := ⟨b, rfl⟩
  used_new _ _ h := by
    obtain ⟨b, hb⟩ := h
    cases hb
  pos_old _ := rfl
  name_old _ := rfl

/-! ## Edges that are still there -/

/-- An edge of the original function that nothing has been put on. -/
def Pending (g : NewFunc Op Name Label Val) (u v : Label) : Prop :=
  .old v ∈ (g.blocks (.old u)).term.succs ∧ (g.blocks (.old u)).term.succs.Nodup

omit [DecidableEq Label] in
theorem Pending.of_term_eq {g g' : NewFunc Op Name Label Val} {u v : Label} (h : Pending g u v)
    (hterm : (g'.blocks (.old u)).term = (g.blocks (.old u)).term) : Pending g' u v := by
  unfold Pending
  rwa [hterm]

/-- The other edges of a block, when a new block is put on one. -/
theorem Pending.of_setSuccessor {g g' : NewFunc Op Name Label Val} {u v v' : Label}
    {n : NewLabel Label}
    (h : Pending g u v') (hv : v' ≠ v) (hn : n ∉ (g.blocks (.old u)).term.succs)
    (hterm : (g'.blocks (.old u)).term = setSuccessor (.old v) n (g.blocks (.old u)).term) :
    Pending g' u v' := by
  unfold Pending
  rw [hterm]
  exact ⟨mem_setSuccessor_of_ne h.1 fun he => hv (NewLabel.old.inj he), nodup_setSuccessor h.2 hn⟩

/-- Where control goes from a block in use is in use. -/
theorem succs_used {g : NewFunc Op Name Label Val} {lay : NewLayout Op Name Label Val}
    (hm : Maps hf Sum.inl Emitted g lay) {l d : NewLabel Label} (hl : lay.used l)
    (hd : d ∈ (g.blocks l).term.succs) : lay.used d := by
  obtain ⟨q, -, hexit⟩ := hm.blocks l hl
  cases hexit with
  | ret h h' =>
    rw [h'] at hd
    cases hd
  | branch h h' hd₁ hd₂ =>
    rw [h'] at hd
    rcases List.mem_pair.mp hd with rfl | rfl
    · exact hd₁.used
    · exact hd₂.used
  | goes hq hs hd' => exact (hd' d hd).used
  | stays hs hd' => exact (hd' d hd).used

/-! ## Edges and blocks -/

variable (o : Options Op Val) {lay : NewLayout Op Name Label Val} {s : Build Op Name Label Val}

/-- A probe on an edge, and the block behind the probe. -/
theorem inserts_insertEdgeProbe (h : Built hf s.func s.next lay) {u v : Label}
    (hp : Pending s.func u v) :
    ∃ lay', Inserts hf (· = .old u) s.func (insertEdgeProbe o s u v).func (s.next + 2) lay lay' ∧
      ((insertEdgeProbe o s u v).func.blocks (.old u)).term =
        setSuccessor (.old v) (.new s.next .splittedEdge) (s.func.blocks (.old u)).term ∧
      lay'.used (.new (s.next + 1) .postInstrumentation) ∧
      (lay'.pos (.new (s.next + 1) .postInstrumentation)).block = u ∧
      lay'.name (.new (s.next + 1) .postInstrumentation) = .old ∧
      ((insertEdgeProbe o s u v).func.blocks (.new (s.next + 1) .postInstrumentation)).term =
        .br (.old v) := by
  obtain ⟨lay₁, hsplit, hn, hpos, hname⟩ :=
    inserts_splitEdge h (h.used_old u) hp.1 hp.2 .splittedEdge
  obtain ⟨lay₂, hprobe, htail, hpos', hname', hterm⟩ :=
    inserts_insertCycleProbe (s := ⟨_, s.next + 1⟩) o
    hsplit.built hn 0 none none
  refine ⟨lay₂, hsplit.trans hprobe ?_, ?_, htail, ?_, ?_, ?_⟩
  · rintro d hd (rfl | rfl)
    · rfl
    · exact absurd hd (h.not_used le_rfl _)
  · refine (hprobe.term (.old u) (hsplit.built.used_old u) (by simp)).trans ?_
    exact (splitEdge_of_ne s.func (h.ne_new (h.used_old u) le_rfl .splittedEdge)).2.1.trans
      (if_pos rfl)
  · rw [hpos', hpos, h.pos_old]
    rfl
  · rw [hname', hname, h.name_old]
  · exact hterm.trans (congrArg Block.term (splitEdge_new s.func))

/-- What the terminators are after some of the edges. -/
structure EdgesDone (hf : Valid f) (isPreheader : Label → Label → Bool)
    (done : Label × Label → Prop)
    (s : Build Op Name Label Val × UpdatePreheaderMap Label) (lay : NewLayout Op Name Label Val) :
    Prop where
  built : Built hf s.1.func s.1.next lay
  pending : ∀ u, ∀ v ∈ (f.blocks u).term.succs, ¬ done (u, v) → Pending s.1.func u v
  intact : ∀ u, (∀ v, ¬ done (u, v)) → (s.1.func.blocks (.old u)).term =
    (f.blocks u).term.rename .old .old
  missing : ∀ u v, done (u, v) → isPreheader u v = true → ∃ P, s.2 (u, v) = some P
  between : ∀ u v P, s.2 (u, v) = some P → lay.used P ∧ (lay.pos P).block = u ∧ lay.name P = .old ∧
    (s.1.func.blocks P).term = .br (.old v) ∧ ∀ b, P ≠ .old b

omit [DecidableEq Label] in
theorem succs_embed (f : Func Op Name Label Val) (u : Label) :
    ((embed f).blocks (.old u)).term.succs = (f.blocks u).term.succs.map NewLabel.old := by
  change ((f.blocks u).term.rename NewName.old NewLabel.old).succs = _
  cases (f.blocks u).term <;> rfl

theorem edgesDone_start (hf : Valid f) (hsuccs : ∀ u, (f.blocks u).term.succs.Nodup)
    (isPreheader : Label → Label → Bool) :
    EdgesDone hf isPreheader (fun _ => False) (⟨embed f, 0⟩, fun _ => none) (startLayout f) where
  built := built_embed hf
  pending u v hv _ := by
    unfold Pending
    rw [succs_embed]
    exact ⟨List.mem_map_of_mem hv, (hsuccs u).map old_injective_label⟩
  intact _ _ := rfl
  missing _ _ h := h.elim
  between _ _ _ h := by cases h

/-- One more edge. -/
theorem EdgesDone.step {isPreheader : Label → Label → Bool} {done : Label × Label → Prop}
    {s : Build Op Name Label Val × UpdatePreheaderMap Label}
    (h : EdgesDone hf isPreheader done s lay)
    {u v : Label} (hv : v ∈ (f.blocks u).term.succs) (huv : ¬ done (u, v)) :
    ∃ lay', EdgesDone hf isPreheader (fun e => done e ∨ e = (u, v))
      (insertNormProbe o isPreheader s (u, v)) lay' := by
  obtain ⟨lay', hins, hterm, hused, hpos, hname, hterm'⟩ :=
    inserts_insertEdgeProbe o h.built (h.pending u v hv huv)
  have hn : NewLabel.new s.1.next .splittedEdge ∉ (s.1.func.blocks (.old u)).term.succs :=
    fun hmem =>
    h.built.not_used le_rfl _ (succs_used h.built.maps (h.built.used_old u) hmem)
  refine ⟨lay', hins.built, ?_, ?_, ?_, ?_⟩
  · intro a b hb hnot
    obtain ⟨hdone, hne⟩ := not_or.mp hnot
    have hp := h.pending a b hb hdone
    by_cases ha : a = u
    · subst ha
      exact hp.of_setSuccessor (fun hbv => hne (by rw [hbv])) hn hterm
    · exact hp.of_term_eq (hins.term _ (h.built.used_old a) fun he => ha (NewLabel.old.inj he))
  · intro a ha
    have hau : a ≠ u := fun he => ha v (.inr (by rw [he]))
    rw [← h.intact a fun b hb => ha b (.inl hb)]
    exact hins.term _ (h.built.used_old a) fun he => hau (NewLabel.old.inj he)
  · rintro a b hdone hpre
    simp only [insertNormProbe]
    by_cases he : (a, b) = (u, v)
    · cases he
      rw [if_pos hpre, Function.update_self]
      exact ⟨_, rfl⟩
    · obtain ⟨P, hP⟩ := h.missing a b (hdone.resolve_right he) hpre
      refine ⟨P, ?_⟩
      split
      · rw [Function.update_of_ne he, hP]
      · exact hP
  · intro a b P hP
    by_cases he : (a, b) = (u, v) ∧ isPreheader u v = true
    · obtain ⟨he, hpre⟩ := he
      cases he
      simp only [insertNormProbe, if_pos hpre, Function.update_self] at hP
      cases hP
      exact ⟨hused, hpos, hname, hterm', fun b hb => by cases hb⟩
    · have hold : s.2 (a, b) = some P := by
        simp only [insertNormProbe] at hP
        split at hP
        · rwa [Function.update_of_ne fun hab => he ⟨hab, ‹_›⟩] at hP
        · exact hP
      obtain ⟨hP, hblock, hnm, htm, hnew⟩ := h.between a b P hold
      refine ⟨hins.grows.used P hP, ?_, ?_, (hins.term P hP (hnew u)).trans htm, hnew⟩
      · rw [hins.grows.pos P hP, hblock]
      · rw [hins.grows.name P hP, hnm]

theorem edgesDone_edges {isPreheader : Label → Label → Bool} {edges : List (Label × Label)}
    (hnd : edges.Nodup)
    (hedges : ∀ e ∈ edges, e.2 ∈ (f.blocks e.1).term.succs) {done : Label × Label → Prop}
    (hnew : ∀ e ∈ edges, ¬ done e) {s : Build Op Name Label Val × UpdatePreheaderMap Label}
    (h : EdgesDone hf isPreheader done s lay) :
    ∃ lay', EdgesDone hf isPreheader (fun e => done e ∨ e ∈ edges)
      (edges.foldl (insertNormProbe o isPreheader) s)
      lay' := by
  induction edges generalizing done s lay with
  | nil => exact ⟨lay, by simpa using h⟩
  | cons e es ih =>
    obtain ⟨he, hes⟩ := List.nodup_cons.mp hnd
    obtain ⟨lay₁, h₁⟩ := h.step o (hedges e List.mem_cons_self) (hnew e List.mem_cons_self)
    have hrest : ∀ d ∈ es, ¬ (done d ∨ d = e) := by
      rintro d hd (hdone | rfl)
      · exact hnew d (List.mem_cons_of_mem _ hd) hdone
      · exact he hd
    obtain ⟨lay₂, h₂⟩ := ih hes (fun d hd => hedges d (List.mem_cons_of_mem _ hd)) hrest h₁
    refine ⟨lay₂, ?_⟩
    simpa only [List.foldl_cons, List.mem_cons, or_assoc, Prod.mk.eta] using h₂

/-- A probe in each of some blocks. -/
theorem inserts_blocks (blocks : List Label) (h : Built hf s.func s.next lay) :
    ∃ lay', Inserts hf (fun l => ∃ b ∈ blocks, l = .old b) s.func
      (blocks.foldl (insertBlockProbe o) s).func
      (blocks.foldl (insertBlockProbe o) s).next lay lay' := by
  induction blocks generalizing s lay with
  | nil => exact ⟨lay, h.refl⟩
  | cons b bs ih =>
    obtain ⟨lay₁, hprobe, -⟩ := inserts_insertCycleProbe o h (h.used_old b)
      (s.func.blocks (.old b)).body.length none none
    obtain ⟨lay₂, hrest⟩ := ih (s := insertBlockProbe o s b) hprobe.built
    refine ⟨lay₂, hprobe.trans hrest ?_⟩
    rintro d hd (rfl | ⟨b', hb', rfl⟩)
    · exact ⟨b, List.mem_cons_self, rfl⟩
    · exact ⟨b', List.mem_cons_of_mem _ hb', rfl⟩

/-! ## Loops -/

/-- A plan for the function, as the planner makes it. A block whose edges would all have probes has
one of its own instead, and a loop that gets a clone is a self loop behind its preheader. -/
structure Fits (hf : Valid f) (isPreheader : Label → Label → Bool) (p : Plan Op Name Label Val) :
    Prop where
  succs : ∀ u, (f.blocks u).term.succs.Nodup
  edges_nodup : p.edges.Nodup
  edges : ∀ e ∈ p.edges, e.2 ∈ (f.blocks e.1).term.succs
  blocks : ∀ b ∈ p.blocks, 2 ≤ (f.blocks b).term.succs.length
  loops_nodup : (p.loops.map fun l => (l.latch, l.header)).Nodup
  loops : ∀ l ∈ p.loops, l.header ∈ (f.blocks l.latch).term.succs ∧ (l.latch, l.header) ∉ p.edges ∧
    l.latch ∉ p.blocks
  merged : ∀ b, 2 ≤ (f.blocks b).term.succs.length → ∃ v ∈ (f.blocks b).term.succs,
    (b, v) ∉ p.edges ∧
    ∀ l ∈ p.loops, (l.latch, l.header) ≠ (b, v)
  cloned : ∀ l ∈ p.loops, ∀ pre iv finalValue, decideSelfLoopCloneable l =
    some (pre, iv, finalValue) →
    ∃ sl : SelfLoop f, Closed hf sl ∧ sl.bb = l.header ∧ sl.preheader = pre ∧
      isPreheader pre l.header = true ∧ ∀ l' ∈ p.loops, (l'.latch, l'.header) ≠ (pre, l.header)

variable {isPreheader : Label → Label → Bool} {p : Plan Op Name Label Val}
  {updated : UpdatePreheaderMap Label}

/-- A loop with a clone is a self loop with a preheader and an induction variable. -/
theorem of_decideSelfLoopCloneable {l : LoopPlan Name Label Val} {pre : Label}
    {iv : IndVar Name Val} {finalValue : Operand Name Val}
    (h : decideSelfLoopCloneable l = some (pre, iv, finalValue)) :
    l.latch = l.header ∧ l.preheader = some pre ∧ l.indVar = some iv := by
  simp only [decideSelfLoopCloneable, Option.bind_eq_bind, Option.bind_eq_some_iff] at h
  obtain ⟨pre', hpre, iv', hiv, final', -, h⟩ := h
  split at h
  · rename_i hself
    cases h
    exact ⟨hself.1, hpre, hiv⟩
  · cases h

/-- The loop of the plan gets a clone. -/
structure Clones (hf : Valid f) (l : LoopPlan Name Label Val) (sl : SelfLoop f) : Prop where
  decided : ∃ iv finalValue, decideSelfLoopCloneable l = some (sl.preheader, iv, finalValue)
  closed : Closed hf sl
  header : l.header = sl.bb

/-- Where the test of the clone goes. -/
def instBB (updated : UpdatePreheaderMap Label) (sl : SelfLoop f) : NewLabel Label :=
  (updated (sl.preheader, sl.bb)).getD (.old sl.preheader)

theorem succs_selfLoop (sl : SelfLoop f) {v : Label} :
    v ∈ (f.blocks sl.bb).term.succs ↔ v = sl.bb ∨ v = sl.exit := by
  rw [sl.latch]
  cases sl.exitOnTrue
  · exact List.mem_pair
  · exact List.mem_pair.trans or_comm

section Fits

variable {l l' : LoopPlan Name Label Val} {sl sl' : SelfLoop f}

theorem Clones.latch (h : Clones hf l sl) : l.latch = sl.bb := by
  obtain ⟨iv, finalValue, hd⟩ := h.decided
  exact (of_decideSelfLoopCloneable hd).1.trans h.header

/-- A self loop whose back edge gets a probe keeps its other edge. -/
theorem Fits.exit_edge (h : Fits hf isPreheader p) (hl : l ∈ p.loops) (hc : Clones hf l sl) :
    (sl.bb, sl.exit) ∉ p.edges ∧ ∀ l' ∈ p.loops, (l'.latch, l'.header) ≠ (sl.bb, sl.exit) := by
  have hlen : 2 ≤ (f.blocks sl.bb).term.succs.length := by
    rw [sl.latch]
    cases sl.exitOnTrue <;> exact le_rfl
  obtain ⟨v, hv, hedge, hloop⟩ := h.merged sl.bb hlen
  rcases (succs_selfLoop sl).mp hv with rfl | rfl
  · exact absurd (by rw [hc.latch, hc.header]) (hloop l hl)
  · exact ⟨hedge, hloop⟩

theorem Fits.not_preheader (h : Fits hf isPreheader p) (hl : l ∈ p.loops) (hc : Clones hf l sl) :
    isPreheader sl.preheader sl.bb = true ∧
      ∀ l' ∈ p.loops, (l'.latch, l'.header) ≠ (sl.preheader, sl.bb) := by
  obtain ⟨iv, finalValue, hd⟩ := hc.decided
  obtain ⟨-, -, -, -, hpre⟩ := h.cloned l hl sl.preheader iv finalValue hd
  rwa [hc.header] at hpre

theorem Fits.clones (h : Fits hf isPreheader p) (hl : l ∈ p.loops) {pre : Label}
    {iv : IndVar Name Val}
    {finalValue : Operand Name Val} (hd : decideSelfLoopCloneable l = some (pre, iv, finalValue)) :
    ∃ sl : SelfLoop f, Clones hf l sl ∧ sl.preheader = pre := by
  obtain ⟨sl, hclosed, hbb, rfl, -⟩ := h.cloned l hl pre iv finalValue hd
  exact ⟨sl, ⟨⟨iv, finalValue, hd⟩, hclosed, hbb.symm⟩, rfl⟩

end Fits

/-- The loops that are still to come are as they were. -/
structure LoopsReady (hf : Valid f) (updated : UpdatePreheaderMap Label)
    (loops : List (LoopPlan Name Label Val))
    (s : Build Op Name Label Val) (lay : NewLayout Op Name Label Val) : Prop where
  built : Built hf s.func s.next lay
  pending : ∀ l ∈ loops, Pending s.func l.latch l.header
  ready : ∀ l ∈ loops, ∀ sl, Clones hf l sl → Ready sl s.func lay (instBB updated sl)

/-- After the edges and the blocks. -/
theorem loopsReady_start (hfits : Fits hf isPreheader p)
    {s : Build Op Name Label Val × UpdatePreheaderMap Label}
    (h : EdgesDone hf isPreheader (· ∈ p.edges) s lay) {t : Build Op Name Label Val}
    {lay' : NewLayout Op Name Label Val}
    (hb : Inserts hf (fun l => ∃ b ∈ p.blocks, l = .old b) s.1.func t.func t.next lay lay') :
    LoopsReady hf s.2 p.loops t lay' := by
  have hold : ∀ b, b ∉ p.blocks → (t.func.blocks (.old b)).term =
      (s.1.func.blocks (.old b)).term := by
    intro b hblock
    refine hb.term _ (h.built.used_old b) ?_
    rintro ⟨c, hc, he⟩
    exact hblock (NewLabel.old.inj he ▸ hc)
  refine ⟨hb.built, fun l hl => ?_, fun l hl sl hc => ?_⟩
  · obtain ⟨hedge, hnot, hblock⟩ := hfits.loops l hl
    exact (h.pending _ _ hedge hnot).of_term_eq (hold _ hblock)
  · obtain ⟨hpre, hback⟩ := hfits.not_preheader hl hc
    have hloop : (t.func.blocks (.old sl.bb)).term = (f.blocks sl.bb).term.rename .old .old := by
      rw [hold sl.bb (hc.latch ▸ (hfits.loops l hl).2.2)]
      refine h.intact sl.bb fun v hv => ?_
      rcases (succs_selfLoop sl).mp (hfits.edges _ hv) with hv' | hv'
      · refine (hfits.loops l hl).2.1 ?_
        rw [hc.latch, hc.header]
        exact hv' ▸ hv
      · exact (hfits.exit_edge hl hc).1 (hv' ▸ hv)
    unfold instBB
    cases hupd : s.2 (sl.preheader, sl.bb) with
    | some P =>
      obtain ⟨hP, hblock, hname, hterm, hnew⟩ := h.between _ _ P hupd
      exact
        { used := hb.grows.used P hP
          pos := by rw [Option.getD_some, hb.grows.pos P hP, hblock]
          name := by rw [Option.getD_some, hb.grows.name P hP, hname]
          term := (hb.term P hP (by rintro ⟨b, -, he⟩; exact hnew b he)).trans hterm
          ne_bb := hnew _
          ne_exit := hnew _
          loop := hloop }
    | none =>
      have hnone : ∀ v, (sl.preheader, v) ∉ p.edges := by
        intro v hv
        have hbb : v = sl.bb := by
          have hmem := hfits.edges _ hv
          rw [sl.enters] at hmem
          exact List.mem_singleton.mp hmem
        obtain ⟨P, hP⟩ := h.missing _ _ (hbb ▸ hv) hpre
        cases hupd.symm.trans hP
      have hblock : sl.preheader ∉ p.blocks := by
        intro hmem
        have hlen := hfits.blocks _ hmem
        rw [sl.enters] at hlen
        exact absurd hlen (by simp [Term.succs])
      exact
        { used := hb.built.used_old _
          pos := by rw [Option.getD_none, hb.built.pos_old]; rfl
          name := hb.built.name_old _
          term := by
            rw [Option.getD_none, hold _ hblock, h.intact _ hnone, sl.enters]
            rfl
          ne_bb := fun he => sl.preheader_ne_bb (NewLabel.old.inj he)
          ne_exit := fun he => sl.preheader_ne_exit (NewLabel.old.inj he)
          loop := hloop }

variable [DecidableEq Name]

/-- The clone of a loop, if it gets one. -/
theorem inserts_insertCloneOf (updated : UpdatePreheaderMap Label) (hfits : Fits hf isPreheader p)
    {l : LoopPlan Name Label Val} (hl : l ∈ p.loops)
    (h : Built hf s.func s.next lay) (hready : ∀ sl, Clones hf l sl →
    Ready sl s.func lay (instBB updated sl)) :
    ∃ lay', Inserts hf (fun d => ∃ sl, Clones hf l sl ∧ d = instBB updated sl) s.func
      (insertCloneOf o updated s l).func (insertCloneOf o updated s l).next lay lay' := by
  unfold insertCloneOf
  split
  · rename_i pre iv finalValue hd
    obtain ⟨sl, hc, rfl⟩ := hfits.clones hl hd
    obtain ⟨lay', hclone⟩ := inserts_cloneSelfLoopOnCondition o h
      (hready sl hc) hc.closed l.isNested l.numIters iv
      finalValue
    rw [hc.header]
    exact ⟨lay', hclone.built, hclone.grows, fun d hd hT => hclone.term d hd fun he =>
      hT ⟨sl, hc, he⟩⟩
  · exact ⟨lay, h.refl⟩

/-- One loop: only its latch and the block before its clone get other terminators. -/
theorem inserts_insertLoop (updated : UpdatePreheaderMap Label) (hfits : Fits hf isPreheader p)
    {l : LoopPlan Name Label Val} (hl : l ∈ p.loops)
    (h : Built hf s.func s.next lay) (hpending : Pending s.func l.latch l.header)
    (hready : ∀ sl, Clones hf l sl → Ready sl s.func lay (instBB updated sl)) :
    ∃ lay' n, Inserts hf (fun d => d = .old l.latch ∨ ∃ sl, Clones hf l sl ∧ d = instBB updated sl)
      s.func (insertLoop o updated s l).func (insertLoop o updated s l).next lay lay' ∧
      n ∉ (s.func.blocks (.old l.latch)).term.succs ∧
      ((insertLoop o updated s l).func.blocks (.old l.latch)).term =
        setSuccessor (.old l.header) n (s.func.blocks (.old l.latch)).term := by
  obtain ⟨lay₁, hclone⟩ := inserts_insertCloneOf o updated hfits hl h hready
  have hlatch : ((insertCloneOf o updated s l).func.blocks (.old l.latch)).term =
      (s.func.blocks (.old l.latch)).term := by
    refine hclone.term _ (h.used_old _) ?_
    rintro ⟨sl, hc, he⟩
    exact (hready sl hc).ne_bb (by rw [← he, hc.latch])
  have hpending' := hpending.of_term_eq hlatch
  obtain ⟨lay₂, hsplit, hn, -⟩ := inserts_splitEdge hclone.built
    (hclone.built.used_old l.latch) hpending'.1
    hpending'.2 .loopEdge
  obtain ⟨lay₃, hprobe⟩ := inserts_insertLoopProbe
    (s := ⟨_, (insertCloneOf o updated s l).next + 1⟩) o hsplit.built
    hn l
  have hedge : Inserts hf (fun d => d = .old l.latch ∨ ∃ sl, Clones hf l sl ∧ d = instBB updated sl)
    s.func _ _ lay
    lay₂ := hclone.trans hsplit fun d _ ht => ht.symm
  refine ⟨lay₃, .new (insertCloneOf o updated s l).next .loopEdge, hedge.trans hprobe ?_, ?_, ?_⟩
  · rintro d hd (ht | rfl)
    · exact ht
    · exact absurd (hclone.grows.used _ hd) (hclone.built.not_used le_rfl _)
  · rw [← hlatch]
    exact fun hmem => hclone.built.not_used le_rfl _
      (succs_used hclone.built.maps (hclone.built.used_old _) hmem)
  · refine (hprobe.term (.old l.latch) (hsplit.built.used_old _) (by simp)).trans ?_
    rw [← hlatch]
    exact (splitEdge_of_ne _ (hclone.built.ne_new
      (hclone.built.used_old _) le_rfl .loopEdge)).2.1.trans (if_pos rfl)

omit [DecidableEq Name] in
theorem instBB_old (hnew : ∀ e P, updated e = some P → ∀ b, P ≠ .old b) {sl : SelfLoop f}
    {b : Label}
    (h : instBB updated sl = .old b) : sl.preheader = b := by
  unfold instBB at h
  cases hupd : updated (sl.preheader, sl.bb) with
  | some P =>
    rw [hupd] at h
    exact absurd h (hnew _ P hupd b)
  | none =>
    rw [hupd] at h
    exact NewLabel.old.inj h

omit [DecidableEq Name] in
/-- The edge from a block before a clone is the back edge of no loop. -/
theorem ne_latch (hfits : Fits hf isPreheader p)
    (hnew : ∀ e P, updated e = some P → ∀ b, P ≠ .old b)
    {l l' : LoopPlan Name Label Val} (hl : l ∈ p.loops) (hl' : l' ∈ p.loops) {sl : SelfLoop f}
    (hc : Clones hf l sl) (hr : Ready sl s.func lay (instBB updated sl))
    (hpending : Pending s.func l'.latch l'.header) : instBB updated sl ≠ .old l'.latch := by
  intro he
  have hpre := instBB_old hnew he
  have hterm := hr.term
  rw [he] at hterm
  have hmem := hpending.1
  rw [hterm] at hmem
  have hheader := NewLabel.old.inj (List.mem_singleton.mp hmem)
  exact (hfits.not_preheader hl hc).2 l' hl' (by rw [hpre, hheader])

/-- The other loops. -/
theorem LoopsReady.step (hfits : Fits hf isPreheader p)
    (hnew : ∀ e P, updated e = some P → ∀ b, P ≠ .old b)
    {l : LoopPlan Name Label Val} {ls : List (LoopPlan Name Label Val)} (hsub : l :: ls ⊆ p.loops)
    (hnd : ((l :: ls).map fun l => (l.latch, l.header)).Nodup)
    (h : LoopsReady hf updated (l :: ls) s lay) :
    ∃ lay', LoopsReady hf updated ls (insertLoop o updated s l) lay' := by
  have hl := hsub List.mem_cons_self
  have hp := h.pending l List.mem_cons_self
  obtain ⟨lay', n, hins, hn, hterm⟩ := inserts_insertLoop o updated hfits hl h.built hp
    (h.ready l List.mem_cons_self)
  have hedge : ∀ l' ∈ ls, (l'.latch, l'.header) ≠ (l.latch, l.header) := fun l' hl' he =>
    (List.nodup_cons.mp hnd).1 (List.mem_map.mpr ⟨l', hl', he⟩)
  refine ⟨lay', hins.built, fun l' hl' => ?_, fun l' hl' sl' hc' => ?_⟩
  · have hp' := h.pending l' (List.mem_cons_of_mem _ hl')
    by_cases hlatch : l'.latch = l.latch
    · rw [hlatch] at hp' ⊢
      exact hp'.of_setSuccessor (fun he => hedge l' hl' (by rw [hlatch, he])) hn hterm
    · refine hp'.of_term_eq (hins.term _ (h.built.used_old _) ?_)
      rintro (he | ⟨sl, hc, he⟩)
      · exact hlatch (NewLabel.old.inj he)
      · exact ne_latch hfits hnew hl (hsub (List.mem_cons_of_mem _ hl')) hc
          (h.ready l List.mem_cons_self sl hc) hp'
          he.symm
  · have hl₀ := hsub (List.mem_cons_of_mem _ hl')
    have hr' := h.ready l' (List.mem_cons_of_mem _ hl') sl' hc'
    refine { hr' with
      used := hins.grows.used _ hr'.used, pos := ?_, name := ?_, term := ?_, loop := ?_ }
    · rw [hins.grows.pos _ hr'.used, hr'.pos]
    · rw [hins.grows.name _ hr'.used, hr'.name]
    · refine (hins.term _ hr'.used ?_).trans hr'.term
      rintro (he | ⟨sl, hc, he⟩)
      · exact ne_latch hfits hnew hl₀ hl hc' hr' hp he
      · have hr := (h.ready l List.mem_cons_self sl hc).term
        rw [← he, hr'.term] at hr
        have hbb := NewLabel.old.inj (Term.br.inj hr)
        exact hedge l' hl' (by rw [hc'.latch, hc'.header, hc.latch, hc.header, hbb])
    · refine (hins.term _ (h.built.used_old _) ?_).trans hr'.loop
      rintro (he | ⟨sl, hc, he⟩)
      · have hlatch := NewLabel.old.inj he
        have hsucc := (hfits.loops l hl).1
        rw [← hlatch, succs_selfLoop] at hsucc
        rcases hsucc with hself | hexit
        · exact hedge l' hl' (by rw [hc'.latch, hc'.header, ← hlatch, hself])
        · exact (hfits.exit_edge hl₀ hc').2 l hl (by rw [← hlatch, hexit])
      · have hr := (h.ready l List.mem_cons_self sl hc).term
        rw [← he, hr'.loop, sl'.latch] at hr
        cases hexit : sl'.exitOnTrue <;> rw [hexit] at hr <;> cases hr

theorem loopsReady_loops (hfits : Fits hf isPreheader p)
    (hnew : ∀ e P, updated e = some P → ∀ b, P ≠ .old b)
    {ls : List (LoopPlan Name Label Val)} (hsub : ls ⊆ p.loops)
    (hnd : (ls.map fun l => (l.latch, l.header)).Nodup)
    (h : LoopsReady hf updated ls s lay) :
    ∃ lay', LoopsReady hf updated [] (ls.foldl (insertLoop o updated) s) lay' := by
  induction ls generalizing s lay with
  | nil => exact ⟨lay, h⟩
  | cons l ls ih =>
    obtain ⟨lay₁, h₁⟩ := h.step o hfits hnew hsub hnd
    exact ih (fun l hl => hsub (List.mem_cons_of_mem _ hl)) (List.nodup_cons.mp hnd).2 h₁

/-! ## Instructions -/

omit [DecidableEq Name] in
/-- The probes between the instructions of a block. -/
theorem built_insertProbesAt (points : List ℕ) {b : NewLabel Label} {start : ℕ}
    (h : Built hf s.func s.next lay)
    (hb : lay.used b) :
    ∃ lay', Built hf (insertProbesAt o s b start points).func
      (insertProbesAt o s b start points).next lay' := by
  induction points generalizing s lay b start with
  | nil => exact ⟨lay, h⟩
  | cons i is ih =>
    obtain ⟨lay₁, hprobe, htail, -⟩ := inserts_insertCycleProbe o h hb (i - start) none none
    exact ih (s := insertCycleProbe o s b (i - start) none none) hprobe.built htail

omit [DecidableEq Name] in
theorem built_metered (cost : NewInstr Op Name Val → Int)
    (termCost : Term (NewName Name) (NewLabel Label) Val → Int) (blocks : List Label)
    (h : Built hf s.func s.next lay) :
    ∃ lay', Built hf (blocks.foldl (insertMeterProbes o cost termCost) s).func
      (blocks.foldl (insertMeterProbes o cost termCost) s).next lay' := by
  induction blocks generalizing s lay with
  | nil => exact ⟨lay, h⟩
  | cons b bs ih =>
    obtain ⟨lay', hb⟩ := built_insertProbesAt o _ h (h.used_old b)
    exact ih (s := insertMeterProbes o cost termCost s b) hb

/-! ## The whole stage -/

theorem built_insertProbes (hfits : Fits hf isPreheader p) (cost : NewInstr Op Name Val → Int)
    (termCost : Term (NewName Name) (NewLabel Label) Val → Int) :
    ∃ next lay, Built hf (insertProbes o cost termCost isPreheader p f) next lay := by
  obtain ⟨lay₁, hedges⟩ := edgesDone_edges o hfits.edges_nodup hfits.edges (fun _ _ h => h)
    (edgesDone_start hf hfits.succs isPreheader)
  simp only [false_or] at hedges
  obtain ⟨lay₂, hblocks⟩ := inserts_blocks o p.blocks hedges.built
  obtain ⟨lay₃, hloops⟩ := loopsReady_loops o hfits
    (fun e P hP => (hedges.between e.1 e.2 P hP).2.2.2.2)
    (List.Subset.refl _) hfits.loops_nodup (loopsReady_start hfits hedges hblocks)
  obtain ⟨lay₄, hb⟩ := built_metered o cost termCost p.metered hloops.built
  exact ⟨_, lay₄, hb⟩

section Meaning

variable (hfits : Fits hf isPreheader p) (cost : NewInstr Op Name Val → Int)
  (termCost : Term (NewName Name) (NewLabel Label) Val → Int) (sem : Sem Op Val World)
    (r : Runtime Op Val World Aux)
  {env : Name → Val} {env' : NewName Name → Val} (henv : ∀ x, env' (.old x) = env x)
  (w : World) (e : (Slot → Val) × Aux) (v : Option Val) (w' : World)

include hfits henv

theorem exists_related :
    ∃ lay, Maps hf Sum.inl Emitted (insertProbes o cost termCost isPreheader p f) lay ∧
      Related hf Sum.inl Emitted (insertProbes o cost termCost isPreheader p f) lay sem.truth
        (start f env w)
        (start (insertProbes o cost termCost isPreheader p f) env' (w, e)) := by
  obtain ⟨next, lay, hb⟩ := built_insertProbes o hfits cost termCost
  refine ⟨lay, hb.maps, .start hb.maps (fun x => ?_) w e⟩
  rw [hb.entry, hb.name_old]
  exact henv x

/-- If the hook leaves the memory alone, the same is returned. -/
theorem returns_insertProbes_iff (hhook : ∀ v w e, (r.hook v (w, e)).1 = w) :
    Returns sem f (start f env w) v w' ↔
      ∃ e', Returns (probed sem r) (insertProbes o cost termCost isPreheader p f)
        (start (insertProbes o cost termCost isPreheader p f) env' (w, e)) v (w', e') := by
  obtain ⟨lay, hm, hrel⟩ := exists_related o hfits cost termCost sem henv w e
  refine hrel.returns_iff hm (carries_probed sem r) (fun i hi env w e => ?_) v w'
  obtain ⟨v, w', e', hexec, hw | ⟨u, a, hw⟩⟩ := harmless_emitted sem r i hi env w e
  · exact ⟨v, w', e', hexec, hw.symm⟩
  · exact ⟨v, w', e', hexec, (hw.trans (hhook u w a)).symm⟩

/-- Whatever the hook does, it does between the steps of the original function. -/
theorem returns_insertProbes_preempted {e' : (Slot → Val) × Aux}
    (h : Returns (probed sem r) (insertProbes o cost termCost isPreheader p f)
      (start (insertProbes o cost termCost isPreheader p f) env' (w, e)) v (w', e')) :
    ∃ u, Relation.ReflTransGen (Preempted sem f (Interferes r)) (start f env w) u ∧
      Returned f u v w' := by
  obtain ⟨lay, hm, hrel⟩ := exists_related o hfits cost termCost sem henv w e
  exact hrel.returns_preempted hm (carries_probed sem r) (harmless_emitted sem r) h

end Meaning

end TinyQuanta.InsertionPreserves
