import TinyQuanta.Ssa

/-!
# A copy of a single-block loop

A loop of one block that is entered from its preheader and left to one exit, and a
block of another function that has the same instructions under other names. Started
with the same values, the two take the same steps, iteration by iteration, until
both leave.
-/
namespace TinyQuanta.LoopCopy

open Ssa

variable {Op Op' Name Name' Label Label' Val World Extra : Type}
variable [DecidableEq Label] [DecidableEq Label']

/-- A self loop of a valid function: a value is read where its definition comes before, and a PHI
node has an entry for each predecessor. -/
structure SelfLoop (f : Func Op Name Label Val) where
  preheader : Label
  bb : Label
  exit : Label
  cond : Operand Name Val
  exitOnTrue : Bool
  enters : (f.blocks preheader).term = .br bb
  latch : (f.blocks bb).term = if exitOnTrue then .condBr cond exit bb else .condBr cond bb exit
  exit_ne_bb : exit ≠ bb
  preheader_ne_bb : preheader ≠ bb
  preheader_ne_exit : preheader ≠ exit
  entry_ne_bb : f.entry ≠ bb
  uses : Scoped (fun x => x ∉ (f.blocks bb).defs ∨ x ∈ (f.blocks bb).phis.map Phi.dst)
    (f.blocks bb).body
  initial : ∀ p ∈ (f.blocks bb).phis, ∃ o, p.incomingFor preheader = some o ∧
    o.Within (· ∉ (f.blocks bb).defs)
  next : ∀ p ∈ (f.blocks bb).phis, ∃ o, p.incomingFor bb = some o
  result : ∀ p ∈ (f.blocks exit).phis, ∃ o, p.incomingFor bb = some o

variable {f : Func Op Name Label Val} {g : Func Op' Name' Label' Val}

/-- The values that come from outside the loop. -/
def SelfLoop.Outside (l : SelfLoop f) (x : Name) : Prop := x ∉ (f.blocks l.bb).defs

/-- The block `bb` of `g` is a copy of the loop, entered from `preheader` and left to `exit`. -/
structure Copy (l : SelfLoop f) (ι : Op → Op') (g : Func Op' Name' Label' Val) where
  preheader : Label'
  bb : Label'
  exit : Label'
  name : Name → Name'
  phi : Phi Name Label Val → Phi Name' Label' Val
  name_injective : Function.Injective name
  body : (g.blocks bb).body = (f.blocks l.bb).body.map (Instr.rename ι name)
  phis : (g.blocks bb).phis = (f.blocks l.bb).phis.map phi
  dst : ∀ p, (phi p).dst = name p.dst
  initial : ∀ p, (phi p).incomingFor preheader =
    (p.incomingFor l.preheader).map (Operand.rename name)
  next : ∀ p, (phi p).incomingFor bb = (p.incomingFor l.bb).map (Operand.rename name)
  latch : (g.blocks bb).term =
    if l.exitOnTrue then .condBr (l.cond.rename name) exit bb else .condBr
      (l.cond.rename name) bb exit

section Phis

variable {ρ ρ' : Name → Name'} {S S' : Name → Prop} {env : Name → Val} {env' : Name' → Val}

theorem phi_value {p : Phi Name Label Val} {q : Phi Name' Label' Val} {pred : Label}
    {pred' : Label'}
    {o : Operand Name Val} (h : Agree ρ S env env') (hp : p.incomingFor pred = some o)
    (ho : o.Within S) (hq : q.incomingFor pred' = (p.incomingFor pred).map (Operand.rename ρ)) :
    q.value pred' env' = p.value pred env := by
  unfold Phi.value
  rw [hq, hp]
  exact h.eval ho

/-- PHI nodes that get the same values. -/
theorem agree_phis [DecidableEq Name] [DecidableEq Name'] (hρ : Function.Injective ρ)
    (h : Agree ρ S env env')
    {phis : List (Phi Name Label Val)} {φ : Phi Name Label Val → Phi Name' Label' Val}
    {pred : Label} {pred' : Label'} (hdst : ∀ p, (φ p).dst = ρ p.dst)
    (hv : ∀ p ∈ phis, (φ p).value pred' env' = p.value pred env) :
    Agree ρ (fun x => S x ∨ x ∈ phis.map Phi.dst)
      (assign env (phis.map fun p => (p.dst, p.value pred env)))
      (assign env' ((phis.map φ).map fun q => (q.dst, q.value pred' env'))) := by
  have hnew := h.assign hρ (phis.map fun p => (p.dst, p.value pred env))
  have hnames : (phis.map fun p => (p.dst, p.value pred env)).map Prod.fst = phis.map Phi.dst := by
    rw [List.map_map]
    rfl
  have hvalues : (phis.map fun p => (p.dst, p.value pred env)).map (fun e => (ρ e.1, e.2)) =
      (phis.map φ).map fun q => (q.dst, q.value pred' env') := by
    rw [List.map_map, List.map_map]
    apply List.map_congr_left
    intro p hp
    simp only [Function.comp_apply, hdst, hv p hp]
  rwa [hnames, hvalues] at hnew

end Phis

variable {l : SelfLoop f} {ι : Op → Op'} {sem : Sem Op Val World}
  {sem' : Sem Op' Val (World × Extra)}

/-- Both are before the same instruction of the loop. What has not been computed yet is still to
come. -/
structure InLoop (c : Copy l ι g) (s : State Op Name Label Val World)
    (t : State Op' Name' Label' Val (World × Extra)) : Prop where
  cur : s.cur = l.bb
  cur_copy : t.cur = c.bb
  rest : t.rest = s.rest.map (Instr.rename ι c.name)
  world : t.world.1 = s.world
  scope : ∃ S, Agree c.name S s.env t.env ∧ Scoped S s.rest ∧
    ∀ x, S x ∨ ∃ i ∈ s.rest, i.dst = some x

/-- At the latch every value is there. -/
theorem InLoop.agree {c : Copy l ι g} {s : State Op Name Label Val World}
    {t : State Op' Name' Label' Val (World × Extra)} (h : InLoop c s t) (hs : s.rest = []) :
    Agree c.name (fun _ => True) s.env t.env := by
  obtain ⟨S, hagree, -, hall⟩ := h.scope
  rw [hs] at hall
  intro x _
  refine hagree x ((hall x).resolve_right ?_)
  rintro ⟨i, hi, -⟩
  cases hi

omit [DecidableEq Label] in
theorem target_latch {truth : Val → Bool} {env : Name → Val} {cond : Operand Name Val} {b e : Label}
    {exitOnTrue : Bool} :
    (if exitOnTrue then .condBr cond e b else .condBr cond b e : Term Name Label Val).target truth
    env =
      some (if truth (cond.eval env) = exitOnTrue then e else b) := by
  cases exitOnTrue with
  | true => rfl
  | false =>
    simp only [Bool.false_eq_true, if_false, Term.target]
    cases truth (cond.eval env) <;> rfl

variable [DecidableEq Name] [DecidableEq Name']

/-- Control gets to the start of both with the same values outside. -/
theorem inLoop_jump (c : Copy l ι g) {s : State Op Name Label Val World}
    {t : State Op' Name' Label' Val (World × Extra)} {S : Name → Prop} (hw : t.world.1 = s.world)
    (h : Agree c.name S s.env t.env) (hS : ∀ x, l.Outside x → S x)
    (hv : ∀ p ∈ (f.blocks l.bb).phis, (c.phi p).value t.cur t.env = p.value s.cur s.env) :
    InLoop c (s.jump f l.bb) (t.jump g c.bb) where
  cur := rfl
  cur_copy := rfl
  rest := c.body
  world := hw
  scope := by
    refine ⟨fun x => l.Outside x ∨ x ∈ (f.blocks l.bb).phis.map Phi.dst, ?_, l.uses, fun x => ?_⟩
    · have hnew := agree_phis c.name_injective h c.dst hv
      rw [← c.phis] at hnew
      exact fun x hx => hnew x (hx.imp_left (hS x))
    · by_cases hx : l.Outside x
      · exact .inl (.inl hx)
      · exact (Block.mem_defs.mp (not_not.mp hx)).imp_left .inr

/-- From the preheaders. -/
theorem inLoop_enter (c : Copy l ι g) {rest : List (Instr Op Name Val)}
    {rest' : List (Instr Op' Name' Val)} {env : Name → Val} {env' : Name' → Val} {w : World}
    {e : Extra}
    (h : Agree c.name l.Outside env env') :
    InLoop c (State.jump f ⟨l.preheader, rest, env, w⟩ l.bb)
      (State.jump g ⟨c.preheader, rest', env', (w, e)⟩ c.bb) := by
  refine inLoop_jump c rfl h (fun _ hx => hx) fun p hp => ?_
  obtain ⟨o, ho, hout⟩ := l.initial p hp
  exact phi_value h ho hout (c.initial p)

/-- An instruction fails in both or in neither. -/
theorem InLoop.instr {c : Copy l ι g} {s : State Op Name Label Val World}
    {t : State Op' Name' Label' Val (World × Extra)} (h : InLoop c s t) (hsem : Extends ι sem sem')
    {i : Instr Op Name Val} {is : List (Instr Op Name Val)} (hs : s.rest = i :: is) :
    (step sem f s = none ∧ step sem' g t = none) ∨
      ∃ s' t', step sem f s = some s' ∧ step sem' g t = some t' ∧ InLoop c s' t' := by
  obtain ⟨hcur, hcur', hrest, hworld, S, hagree, hscope, hall⟩ := h
  obtain ⟨b, is', env, w⟩ := s
  obtain ⟨b', is'', env', w', e⟩ := t
  simp only at hcur hcur' hrest hworld hs hagree hscope hall
  subst hcur hcur' hs hworld
  have hexec : step sem' g ⟨c.bb, is'', env', (w', e)⟩ =
      (sem.exec i.op (i.args.map (Operand.eval env)) w').map fun r =>
        ⟨c.bb, is.map (Instr.rename ι c.name), bind env' r.1 (i.dst.map c.name), (r.2, e)⟩ := by
    rw [hrest, List.map_cons, step_instr]
    simp only [Instr.rename]
    rw [hagree.args hscope.1, hsem.exec, Option.map_map]
    rfl
  rw [hexec, step_instr]
  cases sem.exec i.op (i.args.map (Operand.eval env)) w' with
  | none => exact .inl ⟨rfl, rfl⟩
  | some r =>
    refine .inr ⟨_, _, rfl, rfl, rfl, rfl, rfl, rfl, _, hagree.bind c.name_injective i.dst r.1,
      hscope.2, ?_⟩
    intro x
    rcases hall x with hx | ⟨j, hj, hd⟩
    · exact .inl (.inl hx)
    · rcases List.mem_cons.mp hj with rfl | hj
      · exact .inl (.inr hd)
      · exact .inr ⟨j, hj, hd⟩

/-- The latch of both goes round again, or leaves. -/
theorem InLoop.latch {c : Copy l ι g} {s : State Op Name Label Val World}
    {t : State Op' Name' Label' Val (World × Extra)} (h : InLoop c s t) (hsem : Extends ι sem sem')
    (hs : s.rest = []) :
    (∃ s' t', step sem f s = some s' ∧ step sem' g t = some t' ∧ InLoop c s' t') ∨
      (step sem f s = some (s.jump f l.exit) ∧ step sem' g t = some (t.jump g c.exit)) := by
  have hagree := h.agree hs
  have htest : (l.cond.rename c.name).eval t.env = l.cond.eval s.env :=
    hagree.eval fun _ _ => trivial
  have hstep : step sem f s = ((f.blocks s.cur).term.target sem.truth s.env).map (s.jump f) := by
    unfold step
    rw [hs]
  have hstep' : step sem' g t = ((g.blocks t.cur).term.target sem'.truth t.env).map (t.jump g) := by
    unfold step
    rw [h.rest, hs]
    rfl
  have hagain : InLoop c (s.jump f l.bb) (t.jump g c.bb) := by
    refine inLoop_jump c h.world hagree (fun _ _ => trivial) fun p hp => ?_
    obtain ⟨o, ho⟩ := l.next p hp
    rw [h.cur, h.cur_copy]
    exact phi_value hagree ho (fun _ _ => trivial) (c.next p)
  rw [hstep, hstep', h.cur, h.cur_copy, l.latch, c.latch, hsem.truth, target_latch, target_latch,
    htest]
  by_cases ht : sem.truth (l.cond.eval s.env) = l.exitOnTrue
  · rw [if_pos ht, if_pos ht]
    exact .inr ⟨rfl, rfl⟩
  · rw [if_neg ht, if_neg ht]
    exact .inl ⟨_, _, rfl, rfl, hagain⟩

end TinyQuanta.LoopCopy
