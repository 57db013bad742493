import TinyQuanta.CloneBlocks

/-!
# The clone means the same

From the preheader, the function with the clone gets to the exit of the loop if and
only if the original one does, whichever of the two loops it takes, with the same
values and the same memory but for what the hook has done.
-/
namespace TinyQuanta.ClonePreserves

open Ssa LoopCopy CfgRewrite SelfLoopClone CloneBlocks

variable {Op Name Label Val World : Type}

/-- The values of the function and of the clone are as before. -/
def Kept (env env' : NewName Name → Val) : Prop :=
  (∀ x, env' (.old x) = env (.old x)) ∧ ∀ x, env' (.cloned x) = env (.cloned x)

theorem Kept.refl (env : NewName Name → Val) : Kept env env := ⟨fun _ => rfl, fun _ => rfl⟩

theorem Kept.trans {env₁ env₂ env₃ : NewName Name → Val} (h : Kept env₁ env₂)
    (h' : Kept env₂ env₃) :
    Kept env₁ env₃ := ⟨fun x => (h'.1 x).trans (h.1 x), fun x => (h'.2 x).trans (h.2 x)⟩

theorem Kept.update [DecidableEq Name] {env env' : NewName Name → Val} (h : Kept env env')
    {y : NewName Name} (hy : ∀ x, .old x ≠ y ∧ .cloned x ≠ y) (v : Val) :
    Kept env (Function.update env' y v) := by
  constructor
  · intro x
    rw [Function.update_of_ne (hy x).1, h.1]
  · intro x
    rw [Function.update_of_ne (hy x).2, h.2]

theorem Kept.agree {name : Name → NewName Name} (hname : ∀ x, name x = .old x ∨ name x = .cloned x)
    {S : Name → Prop} {env : Name → Val} {env₁ env₂ : NewName Name → Val} (h : Kept env₁ env₂)
    (hag : Agree name S env env₁) : Agree name S env env₂ := by
  intro x hx
  rw [← hag x hx]
  rcases hname x with hx | hx <;> rw [hx]
  · exact h.1 x
  · exact h.2 x

variable [DecidableEq Name] [DecidableEq Label] {f : Func Op Name Label Val} (l : SelfLoop f)
  (a : Arith Val)
  (c : Bounds Name Val) (isAlloca : Op → Bool)

/-! ## From the clone to the exit -/

section Leave

variable {l a c} {g : NewFunc Op Name Label Val} {sem : Sem Op Val World} {p : Probe Val World}

/-- From `b`, control gets through the blocks of the sum to the exit, with the memory `w'`. -/
def ReachesExit (sem : Sem Op Val World) (a : Arith Val) (p : Probe Val World)
    (g : NewFunc Op Name Label Val) (l : SelfLoop f) (b : NewLabel Label) (env : NewName Name → Val)
    (w : World) (slot : Val) (w' : World) : Prop :=
  ∃ env' slot', StateTransition.Reaches₁ (stepTo (instrumented sem a p) g (.old l.exit))
      ⟨b, (g.blocks b).body, env, (w, slot)⟩
      (State.jump g ⟨.postClonedSelfLoop, [], env', (w', slot')⟩ (.old l.exit)) ∧ Kept env env'

/-- One block further up. -/
theorem reachesExit_of_start {b d : NewLabel Label} {env env₁ : NewName Name → Val}
    {w w₁ w' : World}
    {slot slot₁ : Val} (hne : b ≠ .old l.exit)
    (hrun : runBody (instrumented sem a p) (g.blocks b).body env (w, slot) =
    some (env₁, (w₁, slot₁)))
    (ht : (g.blocks b).term.target sem.truth env₁ = some d) (hd : (g.blocks d).phis = [])
    (hkept : Kept env env₁) (h : ReachesExit sem a p g l d env₁ w₁ slot₁ w') :
    ReachesExit sem a p g l b env w slot w' := by
  obtain ⟨env', slot', hreach, hkept'⟩ := h
  exact ⟨env', slot', (reaches_start hne hrun ht hd).trans hreach, hkept.trans hkept'⟩

variable (hb : SumBlocks l a c g)

include hb

theorem reachesExit_post (env : NewName Name → Val) (w : World) (slot : Val) :
    ReachesExit sem a p g l .postClonedSelfLoop env w slot w := by
  refine ⟨env, slot, reaches_block (by simp) ?_ ?_, .refl env⟩
  · rw [hb.postClonedSelfLoop]
    rfl
  · rw [hb.postClonedSelfLoop]
    rfl

theorem reachesExit_postInstrumentation (env : NewName Name → Val) (w : World) (slot : Val) :
    ReachesExit sem a p g l .postInstrumentation env w slot w := by
  refine reachesExit_of_start (by simp) ?_ ?_ ?_ (.refl env) (reachesExit_post hb env w slot)
  · rw [hb.postInstrumentation]
    rfl
  · rw [hb.postInstrumentation]
    rfl
  · rw [hb.postClonedSelfLoop]

theorem reachesExit_commitBB (env : NewName Name → Val) (w : World) (slot : Val) :
    ReachesExit sem a p g l .commitBB env w slot (p.hook w) := by
  refine reachesExit_of_start (by simp) ?_ ?_ ?_ (.refl env)
    (reachesExit_postInstrumentation hb env (p.hook w) slot)
  · rw [hb.commitBB]
    rfl
  · rw [hb.commitBB]
    rfl
  · rw [hb.postInstrumentation]

theorem reachesExit_thenBB (env : NewName Name → Val) (w : World) (slot : Val) :
    ∃ w', ReachesExit sem a p g l .thenBB env w slot w' ∧ (w' = w ∨ w' = p.hook w) := by
  have hkept : Kept env (Function.update env .commit (p.commit w)) :=
    (Kept.refl env).update (by simp) _
  have hrun : runBody (instrumented sem a p) (g.blocks .thenBB).body env (w, slot) =
      some (Function.update env .commit (p.commit w), (w, a.int 0)) := by
    rw [hb.thenBB]
    rfl
  have ht : (g.blocks .thenBB).term.target sem.truth (Function.update env .commit (p.commit w)) =
      some (if sem.truth (p.commit w) then .commitBB else .postInstrumentation) := by
    rw [hb.thenBB]
    simp [Term.target, Operand.eval]
  by_cases hcommit : sem.truth (p.commit w) = true
  · rw [if_pos hcommit] at ht
    exact ⟨_, reachesExit_of_start (by simp) hrun ht (by rw [hb.commitBB]) hkept
      (reachesExit_commitBB hb _ _ _), .inr rfl⟩
  · rw [if_neg hcommit] at ht
    exact ⟨_, reachesExit_of_start (by simp) hrun ht (by rw [hb.postInstrumentation]) hkept
      (reachesExit_postInstrumentation hb _ _ _), .inl rfl⟩

theorem reachesExit_splitted (env : NewName Name → Val) (w : World) (slot : Val) :
    ∃ w', ReachesExit sem a p g l .splitted env w slot w' ∧ (w' = w ∨ w' = p.hook w) := by
  obtain ⟨env₁, slot₁, hrun, hkept⟩ : ∃ env₁ slot₁,
      runBody (instrumented sem a p) (g.blocks .splitted).body env (w, slot) =
        some (env₁, (w, slot₁)) ∧
        Kept env env₁ := by
    rw [hb.splitted]
    exact ⟨_, _, run_sumUpdate env w slot rfl,
      (((Kept.refl env).update (by simp) _).update (by simp) _).update (by simp) _⟩
  have ht : (g.blocks .splitted).term.target sem.truth env₁ =
      some (if sem.truth (env₁ .shortLoopInstCond) then .thenBB else .postClonedSelfLoop) := by
    rw [hb.splitted]
    rfl
  by_cases hcond : sem.truth (env₁ .shortLoopInstCond) = true
  · rw [if_pos hcond] at ht
    obtain ⟨w', hreach, hw⟩ : ∃ w', ReachesExit sem a p g l .thenBB env₁ w slot₁ w' ∧
        (w' = w ∨ w' = p.hook w) := reachesExit_thenBB hb env₁ w slot₁
    exact ⟨w', reachesExit_of_start (by simp) hrun ht (by rw [hb.thenBB]) hkept hreach, hw⟩
  · rw [if_neg hcond] at ht
    exact ⟨w, reachesExit_of_start (by simp) hrun ht (by rw [hb.postClonedSelfLoop]) hkept
      (reachesExit_post hb env₁ w slot₁), .inl rfl⟩

end Leave

/-! ## The simulation -/

section Simulation

variable {l a c} {g : NewFunc Op Name Label Val} {leave last : NewLabel Label}
  {sem : Sem Op Val World}
  {p : Probe Val World}

/-- At the exit: the same values of its PHI nodes and of everything outside the loop, and the same
memory, unless the hook has been called behind the clone of a nested loop. -/
structure SameExit (l : SelfLoop f) (c : Bounds Name Val) (p : Probe Val World)
    (s : State Op Name Label Val World)
    (t : State (Op ⊕ Emit) (NewName Name) (NewLabel Label) Val (World × Val)) : Prop where
  values : ∀ x, l.Outside x ∨ x ∈ (f.blocks l.exit).phis.map Phi.dst → t.env (.old x) = s.env x
  world : t.world.1 = s.world ∨ c.isNested = true ∧ t.world.1 = p.hook s.world

theorem extends_instrumented : Extends Sum.inl sem (instrumented sem a p) where
  exec _ _ _ _ := rfl
  truth := rfl

theorem incomingFor_exitPhi_bb (h : ∀ b, NewLabel.old b ≠ last) (q : Phi Name Label Val) :
    (exitPhi l last q).incomingFor (.old l.bb) =
      (q.incomingFor l.bb).map (Operand.rename .old) := by
  unfold exitPhi
  split
  · exact incomingFor_others NewLabel.old_injective h q l.bb
  · exact Phi.incomingFor_rename NewLabel.old_injective q l.bb

theorem incomingFor_exitPhi_last (h : ∀ b, NewLabel.old b ≠ last) {q : Phi Name Label Val}
    (hq : q ∈ (f.blocks l.exit).phis) :
    (exitPhi l last q).incomingFor last =
      (q.incomingFor l.bb).map (Operand.rename (cloneName l)) := by
  obtain ⟨o, ho⟩ := l.result q hq
  unfold exitPhi
  rw [ho]
  exact incomingFor_added h q

/-- Control gets to the exit from the loop and from `b`, which stands for it. -/
theorem sameExit_jump (hg : (g.blocks (.old l.exit)).phis = (f.blocks l.exit).phis.map
    (exitPhi l last))
    {name : Name → NewName Name} (hname : ∀ x, l.Outside x → name x = .old x)
    {b : NewLabel Label} (hb : ∀ q ∈ (f.blocks l.exit).phis,
      (exitPhi l last q).incomingFor b = (q.incomingFor l.bb).map (Operand.rename name))
    {env : Name → Val} {env' : NewName Name → Val} (hag : Agree name (fun _ => True) env env')
    {w w' : World} (hw : w' = w ∨ c.isNested = true ∧ w' = p.hook w) (slot : Val) :
    SameExit l c p (State.jump f ⟨l.bb, [], env, w⟩ l.exit)
      (State.jump g ⟨b, [], env', (w', slot)⟩ (.old l.exit)) := by
  have hout : Agree NewName.old l.Outside env env' := by
    intro x hx
    rw [← hname x hx]
    exact hag x trivial
  have hvalues := agree_phis NewName.old_injective hout (exitPhi_dst l last) fun q hq => by
    obtain ⟨o, ho⟩ := l.result q hq
    exact phi_value hag ho (fun _ _ => trivial) (hb q hq)
  rw [← hg] at hvalues
  exact ⟨hvalues, hw⟩

/-- Where both functions are. -/
inductive Related (h : Rewritten l g leave last) (a : Arith Val) (c : Bounds Name Val)
    (p : Probe Val World) : State Op Name Label Val World →
      State (Op ⊕ Emit) (NewName Name) (NewLabel Label) Val (World × Val) → Prop
  | start {env env' w slot} (hag : Agree .old l.Outside env env') :
      Related h a c p ⟨l.preheader, [], env, w⟩ ⟨.old l.preheader, preheaderTest a c, env',
        (w, slot)⟩
  | original {s t} (hin : InLoop h.original s t) : Related h a c p s t
  | cloned {s t} (hin : InLoop h.cloned s t) : Related h a c p s t
  | exit {s t} (hs : s.cur = l.exit) (ht : t.cur = .old l.exit) (hsame : SameExit l c p s t) :
      Related h a c p s t

/-- The clone gets from where it leaves to the exit. -/
def Leaves (sem : Sem Op Val World) (a : Arith Val) (c : Bounds Name Val) (p : Probe Val World)
    (l : SelfLoop f) (g : NewFunc Op Name Label Val) (leave last : NewLabel Label) : Prop :=
  ∀ env w slot, ∃ env' w' slot',
    StateTransition.Reaches (stepTo (instrumented sem a p) g (.old l.exit))
      (State.jump g ⟨.clonedSelfLoop, [], env, (w, slot)⟩ leave)
      (State.jump g ⟨last, [], env', (w', slot')⟩ (.old l.exit)) ∧
    Kept env env' ∧ (w' = w ∨ c.isNested = true ∧ w' = p.hook w)

/-- One step of the loop, in a copy of it. -/
theorem respects_copy {h : Rewritten l g leave last} {k : Copy l (Sum.inl : Op → Op ⊕ Emit) g}
    (hk : k.bb ≠ .old l.exit)
    {s : State Op Name Label Val World}
    {t : State (Op ⊕ Emit) (NewName Name) (NewLabel Label) Val (World × Val)}
    (hrel : ∀ {s t}, InLoop k s t → Related h a c p s t)
    (hleave : s.rest = [] → ∃ t', Related h a c p (s.jump f l.exit) t' ∧
      StateTransition.Reaches (stepTo (instrumented sem a p) g (.old l.exit)) (t.jump g k.exit) t')
    (hin : InLoop k s t) :
    (stepTo sem f l.exit s = none ∧ stepTo (instrumented sem a p) g (.old l.exit) t = none) ∨
      ∃ s' t', stepTo sem f l.exit s = some s' ∧ Related h a c p s' t' ∧
        StateTransition.Reaches₁ (stepTo (instrumented sem a p) g (.old l.exit)) t t' := by
  have hs : stepTo sem f l.exit s = step sem f s :=
    stepTo_of_ne (by rw [hin.cur]; exact l.exit_ne_bb.symm)
  have ht : stepTo (instrumented sem a p) g (.old l.exit) t = step (instrumented sem a p) g t :=
    stepTo_of_ne (by rw [hin.cur_copy]; exact hk)
  have hsem : Extends Sum.inl sem (instrumented sem a p) := extends_instrumented
  rw [hs]
  cases hr : s.rest with
  | cons i is =>
    rcases hin.instr hsem hr with ⟨hstep, hstep'⟩ | ⟨s', t', hstep, hstep', hin'⟩
    · exact .inl ⟨hstep, ht.trans hstep'⟩
    · exact .inr ⟨s', t', hstep, hrel hin', .single (ht.trans hstep')⟩
  | nil =>
    rcases hin.latch hsem hr with ⟨s', t', hstep, hstep', hin'⟩ | ⟨hstep, hstep'⟩
    · exact .inr ⟨s', t', hstep, hrel hin', .single (ht.trans hstep')⟩
    · obtain ⟨t', hexit, hreach⟩ := hleave hr
      exact .inr ⟨_, t', hstep, hexit, .head' (ht.trans hstep') hreach⟩

/-- The test in the preheader leads to one of the loops. -/
theorem respects_start (h : Rewritten l g leave last) {env : Name → Val} {env' : NewName Name → Val}
    (hag : Agree .old l.Outside env env') (w : World) (slot : Val) :
    ∃ t', Related h a c p (State.jump f ⟨l.preheader, [], env, w⟩ l.bb) t' ∧
      StateTransition.Reaches₁ (stepTo (instrumented sem a p) g (.old l.exit))
        ⟨.old l.preheader, preheaderTest a c, env', (w, slot)⟩ t' := by
  obtain ⟨env₁, hrun, hkept⟩ : ∃ env₁, runBody (instrumented sem a p) (preheaderTest a c) env'
    (w, slot) =
      some (env₁, (w, slot)) ∧ Kept env' env₁ :=
    ⟨_, run_preheaderTest env' w slot rfl,
      ((Kept.refl env').update (by simp) _).update (by simp) _⟩
  have hag₁ : Agree .old l.Outside env env₁ := hkept.agree (fun _ => .inl rfl) hag
  have hne : NewLabel.old l.preheader ≠ .old l.exit :=
    fun he => l.preheader_ne_exit (NewLabel.old.inj he)
  have ht : (g.blocks (.old l.preheader)).term.target (instrumented sem a p).truth env₁ =
      some (if sem.truth (env₁ .shortLoopCond) then .clonedSelfLoop else .old l.bb) := by
    rw [h.branch]
    rfl
  by_cases hcond : sem.truth (env₁ .shortLoopCond) = true
  · rw [if_pos hcond] at ht
    have hclone : Agree (cloneName l) l.Outside env env₁ := by
      intro x hx
      rw [cloneName_of_outside l hx]
      exact hag₁ x hx
    exact ⟨_, .cloned (inLoop_enter h.cloned hclone), reaches_block hne hrun ht⟩
  · rw [if_neg hcond] at ht
    exact ⟨_, .original (inLoop_enter h.original hag₁), reaches_block hne hrun ht⟩

/-- The loop itself leaves to the exit. -/
theorem original_exit (h : Rewritten l g leave last) {s : State Op Name Label Val World}
    {t : State (Op ⊕ Emit) (NewName Name) (NewLabel Label) Val (World × Val)}
    (hin : InLoop h.original s t) (hs : s.rest = []) :
    Related h a c p (s.jump f l.exit) (t.jump g (.old l.exit)) := by
  have hag := hin.agree hs
  obtain ⟨hcur, hcur', -, hw, -⟩ := hin
  obtain ⟨b, rest, env, w⟩ := s
  obtain ⟨b', rest', env', w', slot⟩ := t
  simp only at hcur hcur' hw
  subst hcur hcur' hw
  exact .exit rfl rfl (sameExit_jump h.exit (fun _ _ => rfl)
    (fun q _ => incomingFor_exitPhi_bb h.last_new q) hag (.inl rfl) slot)

/-- The clone gets there, too. -/
theorem cloned_exit (h : Rewritten l g leave last) (hleaves : Leaves sem a c p l g leave last)
    {s : State Op Name Label Val World}
    {t : State (Op ⊕ Emit) (NewName Name) (NewLabel Label) Val (World × Val)}
    (hin : InLoop h.cloned s t) (hs : s.rest = []) :
    ∃ t', Related h a c p (s.jump f l.exit) t' ∧
      StateTransition.Reaches (stepTo (instrumented sem a p) g (.old l.exit))
        (t.jump g leave) t' := by
  have hag := hin.agree hs
  obtain ⟨hcur, hcur', -, hw, -⟩ := hin
  obtain ⟨b, rest, env, w⟩ := s
  obtain ⟨b', rest', env', w', slot⟩ := t
  simp only at hcur hcur' hw
  subst hcur hcur' hw
  obtain ⟨env₁, w₁, slot₁, hreach, hkept, hhook⟩ := hleaves env' w' slot
  have hnames : ∀ x, cloneName l x = .old x ∨ cloneName l x = .cloned x := by
    intro x
    unfold cloneName
    split
    · exact .inr rfl
    · exact .inl rfl
  exact ⟨_, .exit rfl rfl (sameExit_jump h.exit (fun x => cloneName_of_outside l)
    (fun q hq => incomingFor_exitPhi_last h.last_new hq) (hkept.agree hnames hag) hhook slot₁),
      hreach⟩

theorem respects (h : Rewritten l g leave last) (hleaves : Leaves sem a c p l g leave last) :
    StateTransition.Respects (stepTo sem f l.exit) (stepTo (instrumented sem a p) g (.old l.exit))
      (Related h a c p) := by
  apply respects_of
  intro s t hst
  cases hst with
  | start hag =>
    obtain ⟨t', hrel, hreach⟩ := respects_start h hag _ _
    refine .inr ⟨_, t', ?_, hrel, hreach⟩
    rw [stepTo_of_ne l.preheader_ne_exit, step_term l.enters]
    rfl
  | original hin =>
    exact respects_copy (fun he => l.exit_ne_bb (NewLabel.old.inj he).symm) .original
      (fun hr => ⟨_, original_exit h hin hr, .refl⟩) hin
  | cloned hin =>
    exact respects_copy (by simp [Rewritten.cloned]) .cloned
      (fun hr => cloned_exit h hleaves hin hr) hin
  | exit hs ht _ => exact .inl ⟨stepTo_self hs, stepTo_self ht⟩

/-- A state that both have reached, one of them at the exit. -/
theorem Related.sameExit {h : Rewritten l g leave last} {s : State Op Name Label Val World}
    {t : State (Op ⊕ Emit) (NewName Name) (NewLabel Label) Val (World × Val)}
    (hst : Related h a c p s t) (hexit : s.cur = l.exit ∨ t.cur = .old l.exit) :
    s.cur = l.exit ∧ t.cur = .old l.exit ∧ SameExit l c p s t := by
  cases hst with
  | start hag =>
    rcases hexit with he | he
    · exact absurd he l.preheader_ne_exit
    · exact absurd (NewLabel.old.inj he) l.preheader_ne_exit
  | original hin =>
    rcases hexit with he | he
    · exact absurd (hin.cur.symm.trans he).symm l.exit_ne_bb
    · exact absurd (NewLabel.old.inj (hin.cur_copy.symm.trans he)).symm l.exit_ne_bb
  | cloned hin =>
    rcases hexit with he | he
    · exact absurd (hin.cur.symm.trans he).symm l.exit_ne_bb
    · cases hin.cur_copy.symm.trans he
  | exit hs ht hsame => exact ⟨hs, ht, hsame⟩

/-- Both get to the exit, or neither does. -/
theorem arrives_of_rewritten (h : Rewritten l g leave last)
    (hleaves : Leaves sem a c p l g leave last)
    {s : State Op Name Label Val World}
    {t : State (Op ⊕ Emit) (NewName Name) (NewLabel Label) Val (World × Val)}
    (hst : Related h a c p s t) :
    (∀ u, Arrives sem f l.exit s u →
      ∃ v, Arrives (instrumented sem a p) g (.old l.exit) t v ∧ SameExit l c p u v) ∧
    ∀ v, Arrives (instrumented sem a p) g (.old l.exit) t v →
      ∃ u, Arrives sem f l.exit s u ∧ SameExit l c p u v := by
  constructor
  · rintro u ⟨hreach, hu⟩
    obtain ⟨v, huv, hreach'⟩ := StateTransition.tr_reaches (respects h hleaves) hst hreach
    obtain ⟨-, hv, hsame⟩ := huv.sameExit (.inl hu)
    exact ⟨v, ⟨hreach', hv⟩, hsame⟩
  · rintro v ⟨hreach, hv⟩
    have heval : v ∈ StateTransition.eval (stepTo (instrumented sem a p) g (.old l.exit)) t :=
      StateTransition.mem_eval.mpr ⟨hreach, stepTo_self hv⟩
    obtain ⟨u, huv, hu⟩ := StateTransition.tr_eval_rev (respects h hleaves) hst heval
    obtain ⟨hexit, -, hsame⟩ := huv.sameExit (.inr hv)
    exact ⟨u, ⟨(StateTransition.mem_eval.mp hu).1, hexit⟩, hsame⟩

theorem leaves_clone : Leaves sem a c p l g (.old l.exit) .clonedSelfLoop :=
  fun env w slot => ⟨env, w, slot, .refl, .refl env, .inl rfl⟩

theorem leaves_sum (hb : SumBlocks l a c g) (hn : c.isNested = true) :
    Leaves sem a c p l g .splitted .postClonedSelfLoop := by
  intro env w slot
  obtain ⟨w', ⟨env', slot', hreach, hkept⟩, hw⟩ : ∃ w',
    ReachesExit sem a p g l .splitted env w slot w' ∧
      (w' = w ∨ w' = p.hook w) := reachesExit_splitted hb env w slot
  refine ⟨env', w', slot', ?_, hkept, hw.imp_right fun h => ⟨hn, h⟩⟩
  rw [jump_of_phis_nil (by rw [hb.splitted])]
  exact hreach.to_reflTransGen

end Simulation

/-- From the preheader, with any values and any memory, the rewritten function gets to the exit if
and only if the original does, and then with the same values and memory. -/
theorem clone_preserves (sem : Sem Op Val World) (p : Probe Val World) (env : Name → Val)
    (env' : NewName Name → Val) (henv : ∀ x, l.Outside x → env' (.old x) = env x) (w : World)
    (slot : Val) :
    (∀ u, Arrives sem f l.exit ⟨l.preheader, [], env, w⟩ u →
      ∃ v, Arrives (instrumented sem a p) (cloneSelfLoopOnCondition a c isAlloca f l.preheader l.bb)
        (.old l.exit) ⟨.old l.preheader, preheaderTest a c, env', (w, slot)⟩ v ∧
        SameExit l c p u v) ∧
    ∀ v, Arrives (instrumented sem a p) (cloneSelfLoopOnCondition a c isAlloca f l.preheader l.bb)
        (.old l.exit) ⟨.old l.preheader, preheaderTest a c, env', (w, slot)⟩ v →
      ∃ u, Arrives sem f l.exit ⟨l.preheader, [], env, w⟩ u ∧ SameExit l c p u v := by
  have hclone := insertClone_rewritten l a c isAlloca
  rw [cloneSelfLoopOnCondition_eq]
  by_cases hn : c.isNested = true
  · rw [if_pos hn]
    exact arrives_of_rewritten (insertSumProbe_rewritten l a c hclone)
      (leaves_sum (insertSumProbe_blocks l a c _) hn) (.start henv)
  · rw [if_neg hn]
    exact arrives_of_rewritten hclone leaves_clone (.start henv)

/-! ## A loop that adds up -/

inductive CountName where
  | n
  | i
  | s
  | sum
  | next
  | test
  | result
  deriving DecidableEq

inductive CountLabel where
  | preheader
  | body
  | exit
  | entry
  deriving DecidableEq

inductive CountOp where
  | add
  | lt
  | log

/-- The world is what has been logged. -/
def countSem : Sem CountOp Int (List Int) where
  exec
    | .add, [x, y], w => some (x + y, w)
    | .lt, [x, y], w => some (if x < y then 1 else 0, w)
    | .log, [x], w => some (x, x :: w)
    | _, _, _ => none
  truth v := v ≠ 0

/-- `do { sum = s + i; log(sum); next = i + 1; } while (next < n);` -/
def count : Func CountOp CountName CountLabel Int where
  entry := .entry
  blocks
    | .entry => ⟨[], [], .br .preheader⟩
    | .preheader => ⟨[], [], .br .body⟩
    | .body =>
      { phis := [⟨.i, [(.preheader, .const 0), (.body, .val .next)]⟩,
          ⟨.s, [(.preheader, .const 0), (.body, .val .sum)]⟩]
        body := [⟨some .sum, .add, [.val .s, .val .i]⟩, ⟨none, .log, [.val .sum]⟩,
          ⟨some .next, .add, [.val .i, .const 1]⟩, ⟨some .test, .lt, [.val .next, .val .n]⟩]
        term := .condBr (.val .test) .body .exit }
    | .exit => ⟨[⟨.result, [(.body, .val .sum)]⟩], [], .ret (some (.val .result))⟩

def countLoop : SelfLoop count where
  preheader := .preheader
  bb := .body
  exit := .exit
  cond := .val .test
  exitOnTrue := false
  enters := rfl
  latch := rfl
  exit_ne_bb := nofun
  preheader_ne_bb := nofun
  preheader_ne_exit := nofun
  entry_ne_bb := nofun
  uses := by simp [count, Scoped, Operand.Within, Block.defs]
  initial := by simp [count, Phi.incomingFor, Operand.Within]
  next := by simp [count, Phi.incomingFor]
  result := by simp [count, Phi.incomingFor]

def countBounds : Bounds CountName Int := ⟨.const 0, .val .n, 1, 10, true⟩

def intArith : Arith Int where
  sub x y := x - y
  add x y := x + y
  sle x y := if x ≤ y then 1 else 0
  sge x y := if x ≥ y then 1 else 0
  int x := x

/-- Two iterations, in the clone, with a hook that logs -1. -/
theorem clone_preserves_count :
    ∃ v, Arrives (instrumented countSem intArith ⟨fun _ => 1, (-1 :: ·)⟩)
        (cloneSelfLoopOnCondition intArith countBounds (fun _ => false) count .preheader .body)
        (.old .exit) ⟨.old .preheader, preheaderTest intArith countBounds, fun _ => 2, ([], 0)⟩ v ∧
      v.env (.old .result) = 1 ∧ (v.world.1 = [1, 0] ∨ v.world.1 = [-1, 1, 0]) := by
  obtain ⟨u, hu, hresult, hworld⟩ : ∃ u,
    Arrives countSem count .exit ⟨.preheader, [], fun _ => 2, []⟩ u ∧
      u.env .result = 1 ∧ u.world = [1, 0] :=
    ⟨_, ⟨.head rfl (.head rfl (.head rfl (.head rfl (.head rfl (.head rfl (.head rfl (.head rfl
      (.head rfl (.head rfl (.head rfl .refl)))))))))), rfl⟩, rfl, rfl⟩
  obtain ⟨v, hv, hvalues, hmem⟩ :=
    (clone_preserves countLoop intArith countBounds (fun _ => false) countSem
    ⟨fun _ => 1, (-1 :: ·)⟩ (fun _ => 2) (fun _ => 2) (fun _ _ => rfl) [] 0).1 u hu
  refine ⟨v, hv, (hvalues .result (.inr (by decide))).trans hresult, ?_⟩
  rw [hworld] at hmem
  exact hmem.imp_right And.right

end TinyQuanta.ClonePreserves
