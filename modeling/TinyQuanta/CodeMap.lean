import Mathlib.Data.Prod.Lex
import TinyQuanta.Ssa
import TinyQuanta.Stutter

/-!
# Where the code of a function has gone

A function and one that has been made from it: each block of the new function has
a place in the old one, which is before some of the instructions of a block or on an
edge. On the way from there it does the instructions of the old function under other
names, and others that have been added, and goes on to blocks with the right place.
Both functions then return the same values and leave the same memory.
-/
namespace TinyQuanta.CodeMap

open Ssa StateTransition

variable {Op Op' Name Name' Label Label' Val World Extra : Type}

/-! ## Functions -/

/-- Names that are live at the start of a block: every other name that is read in it, or on the way
out of it, is defined there before. -/
structure Valid [DecidableEq Label] (f : Func Op Name Label Val) where
  live : Label → Name → Prop
  body : ∀ b, Scoped (fun x => live b x ∨ x ∈ (f.blocks b).phis.map Phi.dst) (f.blocks b).body
  term : ∀ b o, (f.blocks b).term.operand = some o → o.Within fun x => live b x ∨
    x ∈ (f.blocks b).defs
  phis : ∀ b, ∀ v ∈ (f.blocks b).term.succs, ∀ p ∈ (f.blocks v).phis, ∃ o,
    p.incomingFor b = some o ∧
    o.Within fun x => live b x ∨ x ∈ (f.blocks b).defs
  out : ∀ b, ∀ v ∈ (f.blocks b).term.succs, ∀ x, live v x → live b x ∨ x ∈ (f.blocks b).defs

/-- The names that have a value at the end of a block. -/
def Valid.Known [DecidableEq Label] {f : Func Op Name Label Val} (h : Valid f) (b : Label)
    (x : Name) : Prop :=
  h.live b x ∨ x ∈ (f.blocks b).defs

/-- The function is called. -/
def start (f : Func Op Name Label Val) (env : Name → Val) (w : World) :
    State Op Name Label Val World :=
  ⟨f.entry, (f.blocks f.entry).body, env, w⟩

/-- The end of a run, with the value that the function returns. -/
def Returned (f : Func Op Name Label Val) (s : State Op Name Label Val World) (v : Option Val)
    (w : World) :
    Prop :=
  s.rest = [] ∧ s.world = w ∧
    ∃ value, (f.blocks s.cur).term = .ret value ∧ value.map (Operand.eval s.env) = v

def Returns [DecidableEq Name] [DecidableEq Label] (sem : Sem Op Val World)
    (f : Func Op Name Label Val)
    (s : State Op Name Label Val World) (v : Option Val) (w : World) : Prop :=
  ∃ u, Reaches (step sem f) s u ∧ Returned f u v w

/-- The state after at most `n` steps. -/
def after [DecidableEq Name] [DecidableEq Label] (sem : Sem Op Val World)
    (f : Func Op Name Label Val) :
    ℕ → State Op Name Label Val World → State Op Name Label Val World
  | 0, s => s
  | n + 1, s =>
    match step sem f s with
    | some t => after sem f n t
    | none => s

theorem reaches_after [DecidableEq Name] [DecidableEq Label] (sem : Sem Op Val World)
    (f : Func Op Name Label Val) (n : ℕ) (s : State Op Name Label Val World) :
    Reaches (step sem f) s (after sem f n s) := by
  induction n generalizing s with
  | zero => exact .refl
  | succ n ih =>
    unfold after
    split
    · rename_i t ht
      exact .head ht (ih t)
    · exact .refl

/-- What a function returns with at most `n` steps. -/
def resultAfter [DecidableEq Name] [DecidableEq Label] (sem : Sem Op Val World)
    (f : Func Op Name Label Val) (n : ℕ) (s : State Op Name Label Val World) :
    Option (Option Val × World) :=
  let u := after sem f n s
  match u.rest, (f.blocks u.cur).term with
  | [], .ret value => some (value.map (Operand.eval u.env), u.world)
  | _, _ => none

theorem returns_of_resultAfter [DecidableEq Name] [DecidableEq Label] {sem : Sem Op Val World}
    {f : Func Op Name Label Val} {n : ℕ} {s : State Op Name Label Val World} {v : Option Val}
    {w : World} (h : resultAfter sem f n s = some (v, w)) : Returns sem f s v w := by
  refine ⟨after sem f n s, reaches_after sem f n s, ?_⟩
  unfold resultAfter at h
  simp only at h
  split at h
  · rename_i value hrest hterm
    cases h
    exact ⟨hrest, rfl, value, hterm, rfl⟩
  · cases h

/-- Between its steps something else changes the memory. -/
def Preempted [DecidableEq Name] [DecidableEq Label] (sem : Sem Op Val World)
    (f : Func Op Name Label Val)
    (interferes : World → World → Prop) (s s' : State Op Name Label Val World) : Prop :=
  step sem f s = some s' ∨ ∃ w, interferes s.world w ∧ s' = { s with world := w }

/-! ## Places -/

/-- Before what is left of a block, or between two blocks, where the terminator of the first is done
and the PHI nodes of the second are not. -/
inductive Pos (Op Name Label Val : Type) where
  | inside (b : Label) (rest : List (Instr Op Name Val))
  | edge (u v : Label)

def Pos.block : Pos Op Name Label Val → Label
  | .inside b _ => b
  | .edge u _ => u

def Pos.rest : Pos Op Name Label Val → List (Instr Op Name Val)
  | .inside _ rest => rest
  | .edge _ _ => []

/-- Instructions that do those between two places, and some of their own. -/
inductive Code (ι : Op → Op') (ρ : Name → Name') (added : Instr Op' Name' Val → Prop) :
    List (Instr Op' Name' Val) → Pos Op Name Label Val → Pos Op Name Label Val → Prop
  | done (p) : Code ι ρ added [] p p
  | added {i is p q} (hi : added i) (h : Code ι ρ added is p q) : Code ι ρ added (i :: is) p q
  | instr {i is b rest q} (h : Code ι ρ added is (.inside b rest) q) :
      Code ι ρ added (i.rename ι ρ :: is) (.inside b (i :: rest)) q

theorem Code.block_eq {ι : Op → Op'} {ρ : Name → Name'} {added : Instr Op' Name' Val → Prop}
    {is : List (Instr Op' Name' Val)} {p q : Pos Op Name Label Val} (h : Code ι ρ added is p q) :
    q.block = p.block := by
  induction h with
  | done p => rfl
  | added _ _ ih => exact ih
  | instr _ ih => exact ih

theorem Code.mem {ι : Op → Op'} {ρ : Name → Name'} {added : Instr Op' Name' Val → Prop}
    {is : List (Instr Op' Name' Val)} {p q : Pos Op Name Label Val} (h : Code ι ρ added is p q) :
    ∀ i ∈ is, added i ∨ ∃ j ∈ p.rest, i = j.rename ι ρ := by
  induction h with
  | done p => exact fun i hi => by cases hi
  | added hi _ ih =>
    intro j hj
    rcases List.mem_cons.mp hj with rfl | hj
    · exact .inl hi
    · exact ih j hj
  | @instr i is b rest q _ ih =>
    intro j hj
    rcases List.mem_cons.mp hj with rfl | hj
    · exact .inr ⟨i, List.mem_cons_self, rfl⟩
    · exact (ih j hj).imp_right fun ⟨k, hk, he⟩ => ⟨k, List.mem_cons_of_mem _ hk, he⟩

/-- The places and names of the blocks that are in use. -/
structure Layout (Op Name Label Val Name' Label' : Type) where
  used : Label' → Prop
  pos : Label' → Pos Op Name Label Val
  name : Label' → Name → Name'
  rank : Label' → ℕ

section Blocks

variable [DecidableEq Label] [DecidableEq Label'] {f : Func Op Name Label Val}

/-- From the block `l`, which has come to the end of `u`, control goes to the start of `v`. -/
structure Enters (hf : Valid f) (g : Func Op' Name' Label' Val)
    (lay : Layout Op Name Label Val Name' Label')
    (l : Label') (u v : Label) (d : Label') : Prop where
  used : lay.used d
  pos : lay.pos d = .inside v (f.blocks v).body
  phis : List.Forall₂ (fun p p' => p'.dst = lay.name d p.dst ∧
    p'.incomingFor l = (p.incomingFor u).map (Operand.rename (lay.name l))) (f.blocks v).phis
      (g.blocks d).phis
  names : ∀ x, hf.live v x → lay.name d x = lay.name l x

/-- The block `d` goes on where `l` is. -/
structure Stays (g : Func Op' Name' Label' Val) (lay : Layout Op Name Label Val Name' Label')
    (l : Label')
    (q : Pos Op Name Label Val) (d : Label') : Prop where
  used : lay.used d
  pos : lay.pos d = q
  phis : (g.blocks d).phis = []
  name : lay.name d = lay.name l
  rank : lay.rank d < lay.rank l

def Crosses (hf : Valid f) (g : Func Op' Name' Label' Val)
    (lay : Layout Op Name Label Val Name' Label')
    (l : Label') (u v : Label) (d : Label') : Prop :=
  Enters hf g lay l u v d ∨ Stays g lay l (.edge u v) d

theorem Crosses.used {hf : Valid f} {g : Func Op' Name' Label' Val}
    {lay : Layout Op Name Label Val Name' Label'} {l d : Label'} {u v : Label}
    (h : Crosses hf g lay l u v d) :
    lay.used d := h.elim Enters.used Stays.used

/-- There is only one way to go on. -/
inductive Decided (f : Func Op Name Label Val) : Pos Op Name Label Val → Label → Label → Prop
  | edge (u v) : Decided f (.edge u v) u v
  | br {u v} (h : (f.blocks u).term = .br v) : Decided f (.inside u []) u v

omit [DecidableEq Label] in
theorem Decided.block_eq {q : Pos Op Name Label Val} {u v : Label} (h : Decided f q u v) :
    q.block = u := by
  cases h <;> rfl

/-- What the terminator of a block can do at a place. -/
inductive Exit (hf : Valid f) (g : Func Op' Name' Label' Val)
    (lay : Layout Op Name Label Val Name' Label')
    (l : Label') : Pos Op Name Label Val → Prop
  | ret {b value} (h : (f.blocks b).term = .ret value)
      (h' : (g.blocks l).term = .ret (value.map (Operand.rename (lay.name l)))) : Exit hf g lay l
        (.inside b [])
  | branch {b cond v v' d d'} (h : (f.blocks b).term = .condBr cond v v')
      (h' : (g.blocks l).term = .condBr (cond.rename (lay.name l)) d d')
      (hd : Crosses hf g lay l b v d) (hd' : Crosses hf g lay l b v' d') : Exit hf g lay l
        (.inside b [])
  | goes {q u v} (hq : Decided f q u v) (h : (g.blocks l).term.succs ≠ [])
      (hd : ∀ d ∈ (g.blocks l).term.succs, Crosses hf g lay l u v d) : Exit hf g lay l q
  | stays {q} (h : (g.blocks l).term.succs ≠ [])
      (hd : ∀ d ∈ (g.blocks l).term.succs, Stays g lay l q d) : Exit hf g lay l q

/-- The new function does what the old one does, at every block. -/
structure Maps (hf : Valid f) (ι : Op → Op') (added : Instr Op' Name' Val → Prop)
    (g : Func Op' Name' Label' Val) (lay : Layout Op Name Label Val Name' Label') : Prop where
  entry_used : lay.used g.entry
  entry : lay.pos g.entry = .inside f.entry (f.blocks f.entry).body
  blocks : ∀ l, lay.used l → ∃ q, Code ι (lay.name l) added (g.blocks l).body (lay.pos l) q ∧
    Exit hf g lay l q
  name_injective : ∀ l, Function.Injective (lay.name l)
  name_ne : ∀ l x i, added i → i.dst ≠ some (lay.name l x)
  incoming_used : ∀ l, lay.used l → ∀ p ∈ (g.blocks l).phis, ∀ e ∈ p.incoming, lay.used e.1

end Blocks

/-! ## Steps -/

/-- The instructions of the function give the same values and leave the same memory. What stands
beside the memory can change. -/
structure Carries (ι : Op → Op') (sem : Sem Op Val World) (sem' : Sem Op' Val (World × Extra)) :
    Prop where
  exec : ∀ op args w e, (sem'.exec (ι op) args (w, e)).map (fun r => (r.1, r.2.1)) =
    sem.exec op args w
  truth : sem'.truth = sem.truth

/-- What is added does not fail, and leaves the values and the memory of the function alone but for
what `interferes` says. -/
def Harmless (sem' : Sem Op' Val (World × Extra)) (interferes : World → World → Prop)
    (added : Instr Op' Name' Val → Prop) : Prop :=
  ∀ i, added i → ∀ env w e, ∃ v w' e',
    sem'.exec i.op (i.args.map (Operand.eval env)) (w, e) = some (v, (w', e')) ∧ interferes w w'

/-- A state of the function at a place. -/
structure At (truth : Val → Bool) (f : Func Op Name Label Val) (s : State Op Name Label Val World)
    (p : Pos Op Name Label Val) : Prop where
  cur : s.cur = p.block
  rest : s.rest = p.rest
  target : ∀ u v, p = .edge u v → (f.blocks u).term.target truth s.env = some v

section Relation

variable [DecidableEq Label] [DecidableEq Label'] {f : Func Op Name Label Val}

/-- The values that are there are the same, and those that are still to come are computed from
them. -/
def SameValues (hf : Valid f) (ρ : Name → Name') (s : State Op Name Label Val World)
    (env : Name' → Val) :
    Prop :=
  ∃ S, Agree ρ S s.env env ∧ Scoped S s.rest ∧
    ∀ x, hf.Known s.cur x → S x ∨ ∃ i ∈ s.rest, i.dst = some x

structure Related (hf : Valid f) (ι : Op → Op') (added : Instr Op' Name' Val → Prop)
    (g : Func Op' Name' Label' Val) (lay : Layout Op Name Label Val Name' Label')
    (truth : Val → Bool)
    (s : State Op Name Label Val World) (t : State Op' Name' Label' Val (World × Extra)) :
    Prop where
  used : lay.used t.cur
  code : ∃ p q, At truth f s p ∧ Code ι (lay.name t.cur) added t.rest p q ∧ Exit hf g lay t.cur q
  values : SameValues hf (lay.name t.cur) s t.env
  world : t.world.1 = s.world

def rank (lay : Layout Op Name Label Val Name' Label')
    (t : State Op' Name' Label' Val (World × Extra)) :
    ℕ ×ₗ ℕ := toLex (lay.rank t.cur, t.rest.length)

variable {hf : Valid f} {ρ : Name → Name'} {s : State Op Name Label Val World} {env' : Name' → Val}

theorem SameValues.known (h : SameValues hf ρ s env') (hs : s.rest = []) :
    Agree ρ (hf.Known s.cur) s.env env' := by
  obtain ⟨S, hagree, -, hall⟩ := h
  intro x hx
  rw [hs] at hall
  refine hagree x ((hall x hx).resolve_right ?_)
  rintro ⟨i, hi, -⟩
  cases hi

/-- At the start of a block, behind its PHI nodes. -/
theorem SameValues.start {env : Name → Val} {b : Label} {w : World}
    (h : Agree ρ (fun x => hf.live b x ∨ x ∈ (f.blocks b).phis.map Phi.dst) env env') :
    SameValues hf ρ (⟨b, (f.blocks b).body, env, w⟩ : State Op Name Label Val World) env' := by
  refine ⟨_, h, hf.body b, fun x hx => ?_⟩
  rcases hx with hx | hx
  · exact .inl (.inl hx)
  · exact (Block.mem_defs.mp hx).imp_left .inr

/-- A name that no name of the function has become. -/
theorem SameValues.bind_of_ne [DecidableEq Name'] (h : SameValues hf ρ s env') {dst : Option Name'}
    (hdst : ∀ x, dst ≠ some (ρ x)) (v : Val) : SameValues hf ρ s (bind env' v dst) := by
  obtain ⟨S, hagree, hscope⟩ := h
  refine ⟨S, fun x hx => ?_, hscope⟩
  rw [← hagree x hx]
  cases dst with
  | none => rfl
  | some y => exact Function.update_of_ne (fun hy => hdst x (congrArg some hy.symm)) _ _

end Relation

section Simulation

variable [DecidableEq Label] [DecidableEq Label']
  {f : Func Op Name Label Val} {hf : Valid f} {g : Func Op' Name' Label' Val}
  {lay : Layout Op Name Label Val Name' Label'} {ι : Op → Op'} {added : Instr Op' Name' Val → Prop}
  {sem : Sem Op Val World} {sem' : Sem Op' Val (World × Extra)} {interferes : World → World → Prop}
  {s : State Op Name Label Val World} {t : State Op' Name' Label' Val (World × Extra)}

/-- The PHI nodes get the same values in both functions. -/
theorem Enters.phi_values {l d : Label'} {u v : Label} (h : Enters hf g lay l u v d)
    (huv : v ∈ (f.blocks u).term.succs) {env : Name → Val} {env' : Name' → Val}
    (hagree : Agree (lay.name l) (hf.Known u) env env') :
    (g.blocks d).phis.map (fun p => (p.dst, p.value l env')) =
      ((f.blocks v).phis.map fun p => (p.dst, p.value u env)).map fun e =>
      (lay.name d e.1, e.2) := by
  have hvalue : ∀ p ∈ (f.blocks v).phis, ∀ p' : Phi Name' Label' Val, p'.dst = lay.name d p.dst ∧
      p'.incomingFor l = (p.incomingFor u).map (Operand.rename (lay.name l)) →
      (p'.dst, p'.value l env') = (lay.name d p.dst, p.value u env) := by
    rintro p hp p' ⟨hdst, hin⟩
    obtain ⟨o, ho, hknown⟩ := hf.phis u v huv p hp
    unfold Phi.value
    rw [hdst, hin, ho]
    exact congrArg (Prod.mk _) (hagree.eval hknown)
  have hphis := h.phis
  generalize (f.blocks v).phis = phis at hphis hvalue
  generalize (g.blocks d).phis = phis' at hphis
  induction hphis with
  | nil => rfl
  | cons hp _ ih =>
    rw [List.map_cons, hvalue _ List.mem_cons_self _ hp,
      ih fun p hp => hvalue p (List.mem_cons_of_mem _ hp)]
    rfl

variable [DecidableEq Name] [DecidableEq Name']

/-- Both functions go on to a block and its PHI nodes. -/
theorem Related.enters (hm : Maps hf ι added g lay) {truth : Val → Bool} {v : Label} {d : Label'}
    (hs : s.rest = []) (hvalues : SameValues hf (lay.name t.cur) s t.env)
    (hworld : t.world.1 = s.world)
    (hv : v ∈ (f.blocks s.cur).term.succs) (h : Enters hf g lay t.cur s.cur v d) :
    Related hf ι added g lay truth (s.jump f v) (t.jump g d) := by
  have hknown := hvalues.known hs
  obtain ⟨q, hcode, hexit⟩ := hm.blocks d h.used
  rw [h.pos] at hcode
  have hlive : Agree (lay.name d) (hf.live v) s.env t.env := by
    intro x hx
    rw [h.names x hx]
    exact hknown x (hf.out s.cur v hv x hx)
  refine ⟨h.used, ⟨_, q, ⟨rfl, rfl, fun _ _ h => by cases h⟩, hcode, hexit⟩, .start ?_, hworld⟩
  have hphis := hlive.assign (hm.name_injective d)
    ((f.blocks v).phis.map fun p => (p.dst, p.value s.cur s.env))
  rw [← h.phi_values hv hknown, List.map_map] at hphis
  exact hphis

omit [DecidableEq Name] in
/-- The new function goes on to another block alone. -/
theorem Related.stays (hm : Maps hf ι added g lay) {truth : Val → Bool} {d : Label'}
    {q : Pos Op Name Label Val} (hat : At truth f s q)
    (hvalues : SameValues hf (lay.name t.cur) s t.env)
    (hworld : t.world.1 = s.world) (h : Stays g lay t.cur q d) :
    Related hf ι added g lay truth s (t.jump g d) ∧ rank lay (t.jump g d) < rank lay t := by
  obtain ⟨q', hcode, hexit⟩ := hm.blocks d h.used
  rw [h.pos] at hcode
  rw [jump_of_phis_nil h.phis]
  refine ⟨⟨h.used, ⟨q, q', hat, hcode, hexit⟩, ?_, hworld⟩,
    Prod.Lex.toLex_lt_toLex.mpr (.inl h.rank)⟩
  rwa [← h.name] at hvalues

/-- The place on an edge that the terminator takes. -/
theorem Related.crosses (hm : Maps hf ι added g lay) {v : Label} {d : Label'} (hs : s.rest = [])
    (hvalues : SameValues hf (lay.name t.cur) s t.env) (hworld : t.world.1 = s.world)
    (hv : (f.blocks s.cur).term.target sem.truth s.env = some v)
    (h : Crosses hf g lay t.cur s.cur v d) :
    (∃ s', step sem f s = some s' ∧ Related hf ι added g lay sem.truth s' (t.jump g d)) ∨
      (Related hf ι added g lay sem.truth s (t.jump g d) ∧ rank lay (t.jump g d) < rank lay t) := by
  rcases h with h | h
  · refine .inl ⟨s.jump f v, ?_, .enters hm hs hvalues hworld (Term.mem_succs_of_target hv) h⟩
    rw [step_of_rest_nil hs, hv]
    rfl
  · have hat : At sem.truth f s (.edge s.cur v) := by
      refine ⟨rfl, hs, fun u v' he => ?_⟩
      cases he
      exact hv
    exact .inr (Related.stays hm hat hvalues hworld h)

/-- An instruction of the old function fails in both or in neither. -/
theorem Related.instr (hm : Maps hf ι added g lay) (hsem : Carries ι sem sem') {b : Label}
    {i : Instr Op Name Val} {rest : List (Instr Op Name Val)} {is : List (Instr Op' Name' Val)}
    {q : Pos Op Name Label Val} (hused : lay.used t.cur)
    (hat : At sem.truth f s (.inside b (i :: rest)))
    (ht : t.rest = i.rename ι (lay.name t.cur) :: is)
    (hcode : Code ι (lay.name t.cur) added is (.inside b rest) q) (hexit : Exit hf g lay t.cur q)
    (hvalues : SameValues hf (lay.name t.cur) s t.env) (hworld : t.world.1 = s.world) :
    (step sem f s = none ∧ step sem' g t = none) ∨
      ∃ s' t', step sem f s = some s' ∧ step sem' g t = some t' ∧
        Related hf ι added g lay sem.truth s' t' := by
  obtain ⟨S, hagree, hscope, hall⟩ := hvalues
  obtain ⟨cur, rest', env, w⟩ := s
  obtain ⟨l, is', env', w', e⟩ := t
  obtain ⟨hcur, hrest, -⟩ := hat
  simp only [Pos.block, Pos.rest] at hused ht hcode hexit hworld hcur hrest hagree hscope hall
  subst hcur hrest ht hworld
  have hexec : step sem' g ⟨l, i.rename ι (lay.name l) :: is, env', (w', e)⟩ =
      (sem'.exec (ι i.op) (i.args.map (Operand.eval env)) (w', e)).map fun r =>
        ⟨l, is, bind env' r.1 (i.dst.map (lay.name l)), r.2⟩ := by
    rw [step_instr]
    simp only [Instr.rename]
    rw [hagree.args hscope.1]
  rw [hexec, step_instr, ← hsem.exec i.op (i.args.map (Operand.eval env)) w' e]
  cases sem'.exec (ι i.op) (i.args.map (Operand.eval env)) (w', e) with
  | none => exact .inl ⟨rfl, rfl⟩
  | some r =>
    refine .inr ⟨_, _, rfl, rfl, hused, ⟨_, q, ⟨rfl, rfl, fun _ _ h => by cases h⟩, hcode, hexit⟩,
      ⟨_, hagree.bind (hm.name_injective l) i.dst r.1, hscope.2, ?_⟩, rfl⟩
    intro x hx
    rcases hall x hx with hx | ⟨j, hj, hd⟩
    · exact .inl (.inl hx)
    · rcases List.mem_cons.mp hj with rfl | hj
      · exact .inl (.inr hd)
      · exact .inr ⟨j, hj, hd⟩

omit [DecidableEq Name] in
/-- What has been added is done by the new function alone. -/
theorem Related.alone (hm : Maps hf ι added g lay) (hadded : Harmless sem' interferes added)
    {i : Instr Op' Name' Val} {is : List (Instr Op' Name' Val)} {p q : Pos Op Name Label Val}
    (hi : added i) (hused : lay.used t.cur) (hat : At sem.truth f s p) (ht : t.rest = i :: is)
    (hcode : Code ι (lay.name t.cur) added is p q) (hexit : Exit hf g lay t.cur q)
    (hvalues : SameValues hf (lay.name t.cur) s t.env) (hworld : t.world.1 = s.world) :
    ∃ w t', step sem' g t = some t' ∧ interferes s.world w ∧
      Related hf ι added g lay sem.truth { s with world := w } t' ∧ rank lay t' < rank lay t := by
  obtain ⟨l, is', env', w', e⟩ := t
  simp only at hused ht hcode hexit hvalues hworld
  subst ht hworld
  obtain ⟨v, w', e', hexec, hw⟩ := hadded i hi env' s.world e
  refine ⟨w', ⟨l, is, bind env' v i.dst, (w', e')⟩, by rw [step_instr, hexec]; rfl, hw,
    ⟨hused, ⟨p, q,
    ⟨hat.cur, hat.rest, hat.target⟩, hcode, hexit⟩, ?_, rfl⟩,
      Prod.Lex.toLex_lt_toLex.mpr (.inr ⟨rfl, Nat.lt_succ_self _⟩)⟩
  exact hvalues.bind_of_ne (fun x => hm.name_ne l x i hi) v

/-- A terminator: both functions return, or the new one goes on to its next block. -/
theorem Related.term (hm : Maps hf ι added g lay) (hsem : Carries ι sem sem')
    {q : Pos Op Name Label Val}
    (hat : At sem.truth f s q) (hexit : Exit hf g lay t.cur q) (ht : t.rest = [])
    (hvalues : SameValues hf (lay.name t.cur) s t.env) (hworld : t.world.1 = s.world) :
    (s.rest = [] ∧ ∃ value, (f.blocks s.cur).term = .ret value ∧
      (g.blocks t.cur).term = .ret (value.map (Operand.rename (lay.name t.cur)))) ∨
    ∃ t', step sem' g t = some t' ∧
      ((∃ s', step sem f s = some s' ∧ Related hf ι added g lay sem.truth s' t') ∨
        (Related hf ι added g lay sem.truth s t' ∧ rank lay t' < rank lay t)) := by
  have hstep : ∀ d, (g.blocks t.cur).term.target sem.truth t.env = some d →
      step sem' g t = some (t.jump g d) := by
    intro d hd
    rw [step_of_rest_nil ht, hsem.truth, hd]
    rfl
  cases hexit with
  | ret h h' =>
    refine .inl ⟨hat.rest, _, ?_, h'⟩
    rw [hat.cur]
    exact h
  | @branch b cond v v' d d' h h' hd hd' =>
    have hcur : s.cur = b := hat.cur
    subst hcur
    have hcond : (cond.rename (lay.name t.cur)).eval t.env = cond.eval s.env := by
      apply (hvalues.known hat.rest).eval
      exact hf.term s.cur cond (by rw [h]; rfl)
    have htarget : (g.blocks t.cur).term.target sem.truth t.env =
        some (if sem.truth (cond.eval s.env) then d else d') := by
      rw [h', ← hcond]
      rfl
    have hsource : (f.blocks s.cur).term.target sem.truth s.env =
        some (if sem.truth (cond.eval s.env) then v else v') := by
      rw [h]
      rfl
    refine .inr ⟨_, hstep _ htarget, Related.crosses hm hat.rest hvalues hworld hsource ?_⟩
    cases sem.truth (cond.eval s.env)
    · exact hd'
    · exact hd
  | @goes _ u v hq h hd =>
    obtain ⟨d, htarget⟩ := Term.exists_target sem.truth t.env h
    have hcur : s.cur = u ∧ s.rest = [] ∧ (f.blocks u).term.target sem.truth s.env = some v := by
      cases hq with
      | edge => exact ⟨hat.cur, hat.rest, hat.target u v rfl⟩
      | br hbr =>
        refine ⟨hat.cur, hat.rest, ?_⟩
        rw [hbr]
        rfl
    obtain ⟨rfl, hrest, hv⟩ := hcur
    exact .inr ⟨_, hstep d htarget, Related.crosses hm hrest hvalues hworld hv
      (hd d (Term.mem_succs_of_target htarget))⟩
  | stays h hd =>
    obtain ⟨d, htarget⟩ := Term.exists_target sem.truth t.env h
    exact .inr ⟨_, hstep d htarget, .inr (Related.stays hm hat hvalues hworld
      (hd d (Term.mem_succs_of_target htarget)))⟩

/-- Both functions fail, both return, both take a step, or the new one takes one of its own. -/
theorem Related.next (hm : Maps hf ι added g lay) (hsem : Carries ι sem sem')
    (hadded : Harmless sem' interferes added) (h : Related hf ι added g lay sem.truth s t) :
    (s.rest ≠ [] ∧ t.rest ≠ [] ∧ step sem f s = none ∧ step sem' g t = none) ∨
    (s.rest = [] ∧ t.rest = [] ∧ ∃ value, (f.blocks s.cur).term = .ret value ∧
      (g.blocks t.cur).term = .ret (value.map (Operand.rename (lay.name t.cur)))) ∨
    (∃ s' t', step sem f s = some s' ∧ step sem' g t = some t' ∧
      Related hf ι added g lay sem.truth s' t') ∨
    ∃ w t', step sem' g t = some t' ∧ (w = s.world ∨ interferes s.world w) ∧
      Related hf ι added g lay sem.truth { s with world := w } t' ∧ rank lay t' < rank lay t := by
  obtain ⟨hused, ⟨p, q, hat, hcode, hexit⟩, hvalues, hworld⟩ := h
  generalize hrest : t.rest = rest at hcode
  cases hcode with
  | added hi hcode =>
    obtain ⟨w, t', ht, hw, hrel⟩ := Related.alone hm hadded hi hused hat hrest hcode hexit hvalues
      hworld
    exact .inr (.inr (.inr ⟨w, t', ht, .inr hw, hrel⟩))
  | instr hcode =>
    rcases Related.instr hm hsem hused hat hrest hcode hexit hvalues hworld with ⟨hs, ht⟩ | hboth
    · refine .inl ⟨?_, List.cons_ne_nil _ _, hs, ht⟩
      rw [hat.rest]
      exact List.cons_ne_nil _ _
    · exact .inr (.inr (.inl hboth))
  | done =>
    rcases Related.term hm hsem hat hexit hrest hvalues hworld with
      ⟨hs, hret⟩ | ⟨t', ht, ⟨s', hs, hrel⟩ | hrel⟩
    · exact .inr (.inl ⟨hs, rfl, hret⟩)
    · exact .inr (.inr (.inl ⟨s', t', hs, ht, hrel⟩))
    · exact .inr (.inr (.inr ⟨s.world, t', ht, .inl rfl, hrel⟩))

theorem simulates (hm : Maps hf ι added g lay) (hsem : Carries ι sem sem')
    (hadded : Harmless sem' Eq added) :
    Stutter.Simulates (fun s s' => step sem f s = some s') (step sem' g)
      (Related hf ι added g lay sem.truth) (rank lay) := by
  intro s t t' hst ht
  rcases hst.next hm hsem hadded with ⟨-, -, -, hn⟩ | ⟨-, hr, value, -, hret⟩ |
    ⟨s', u, hs, hu, hrel⟩ |
    ⟨w, u, hu, hw, hrel, hlt⟩
  · cases hn.symm.trans ht
  · rw [step_of_rest_nil hr, hret] at ht
    cases ht
  · cases hu.symm.trans ht
    exact .inl ⟨s', hs, hrel⟩
  · cases hu.symm.trans ht
    have hsame : w = s.world := hw.elim id Eq.symm
    rw [hsame] at hrel
    exact .inr ⟨hrel, hlt⟩

theorem simulates_preempted (hm : Maps hf ι added g lay) (hsem : Carries ι sem sem')
    (hadded : Harmless sem' interferes added) :
    Stutter.Simulates (Preempted sem f interferes) (step sem' g)
      (Related hf ι added g lay sem.truth) (rank lay) := by
  intro s t t' hst ht
  rcases hst.next hm hsem hadded with ⟨-, -, -, hn⟩ | ⟨-, hr, value, -, hret⟩ |
    ⟨s', u, hs, hu, hrel⟩ |
    ⟨w, u, hu, rfl | hw, hrel, hlt⟩
  · cases hn.symm.trans ht
  · rw [step_of_rest_nil hr, hret] at ht
    cases ht
  · cases hu.symm.trans ht
    exact .inl ⟨s', .inl hs, hrel⟩
  · cases hu.symm.trans ht
    exact .inr ⟨hrel, hlt⟩
  · cases hu.symm.trans ht
    exact .inl ⟨_, .inr ⟨w, hw, rfl⟩, hrel⟩

omit [DecidableEq Name] [DecidableEq Name'] in
/-- The values that are returned are the same. -/
theorem Related.returned (h : Related hf ι added g lay sem.truth s t) (hs : s.rest = [])
    (ht : t.rest = [])
    {value : Option (Operand Name Val)} (hret : (f.blocks s.cur).term = .ret value)
    (hret' : (g.blocks t.cur).term = .ret (value.map (Operand.rename (lay.name t.cur)))) :
    Returned f s (value.map (Operand.eval s.env)) s.world ∧
      Returned g t (value.map (Operand.eval s.env)) t.world := by
  refine ⟨⟨hs, rfl, value, hret, rfl⟩, ht, rfl, _, hret', ?_⟩
  cases value with
  | none => rfl
  | some o => exact congrArg some ((h.values.known hs).eval (hf.term s.cur o (by rw [hret]; rfl)))

/-- At the end of one function the other one is at its end, too. -/
theorem Related.returned_iff (hm : Maps hf ι added g lay) (hsem : Carries ι sem sem')
    (hadded : Harmless sem' interferes added) (h : Related hf ι added g lay sem.truth s t)
    (ht : step sem' g t = none) {v : Option Val} :
    Returned f s v s.world ↔ Returned g t v t.world := by
  rcases h.next hm hsem hadded with ⟨hs, ht, -⟩ | ⟨hs, ht, value, hret, hret'⟩ |
    ⟨s', u, hs, hu, hrel⟩ |
    ⟨w, u, hu, -⟩
  · exact ⟨fun hr => absurd hr.1 hs, fun hr => absurd hr.1 ht⟩
  · obtain ⟨hs', ht'⟩ := h.returned hs ht hret hret'
    obtain ⟨-, -, value₁, h₁, hv₁⟩ := hs'
    obtain ⟨-, -, value₂, h₂, hv₂⟩ := ht'
    constructor
    · rintro ⟨-, -, value₃, h₃, rfl⟩
      cases h₁.symm.trans h₃
      exact ⟨ht, rfl, value₂, h₂, hv₂.trans hv₁.symm⟩
    · rintro ⟨-, -, value₃, h₃, rfl⟩
      cases h₂.symm.trans h₃
      exact ⟨hs, rfl, value₁, h₁, hv₁.trans hv₂.symm⟩
  · cases hu.symm.trans ht
  · cases hu.symm.trans ht

omit [DecidableEq Name'] [DecidableEq Label'] in
theorem Returned.step_eq_none {v : Option Val} {w : World} (h : Returned f s v w) :
    step sem f s = none := by
  obtain ⟨hs, -, value, hret, -⟩ := h
  rw [step_of_rest_nil hs, hret]
  rfl

theorem Related.stop (hm : Maps hf ι added g lay) (hsem : Carries ι sem sem')
    (hadded : Harmless sem' interferes added) (h : Related hf ι added g lay sem.truth s t)
    (ht : step sem' g t = none) : step sem f s = none := by
  rcases h.next hm hsem hadded with ⟨-, -, hs, -⟩ | ⟨hs, -, value, hret, -⟩ | ⟨s', u, -, hu, -⟩ |
    ⟨w, u, hu, -⟩
  · exact hs
  · rw [step_of_rest_nil hs, hret]
    rfl
  · cases hu.symm.trans ht
  · cases hu.symm.trans ht

/-- The two functions return the same values and leave the same memory, or neither returns. -/
theorem Related.returns_iff (hm : Maps hf ι added g lay) (hsem : Carries ι sem sem')
    (hadded : Harmless sem' Eq added) (h : Related hf ι added g lay sem.truth s t) (v : Option Val)
    (w : World) : Returns sem f s v w ↔ ∃ e, Returns sem' g t v (w, e) := by
  have heval := (simulates hm hsem hadded).eval (fun s t hst ht => hst.stop hm hsem hadded ht) h
  constructor
  · rintro ⟨u, hreach, hu⟩
    obtain ⟨u', hu', hrel⟩ := heval.1 u (mem_eval.mpr ⟨hreach, hu.step_eq_none⟩)
    obtain ⟨hreach', hend⟩ := mem_eval.mp hu'
    obtain ⟨hs, rfl, hv⟩ := hu
    obtain ⟨ht, -, hv'⟩ := (hrel.returned_iff hm hsem hadded hend).mp ⟨hs, rfl, hv⟩
    refine ⟨u'.world.2, u', hreach', ht, ?_, hv'⟩
    rw [← hrel.world]
  · rintro ⟨e, u', hreach, hu'⟩
    have hend : step sem' g u' = none := hu'.step_eq_none
    obtain ⟨u, hu, hrel⟩ := heval.2 u' (mem_eval.mpr ⟨hreach, hend⟩)
    obtain ⟨ht, hw, hv⟩ := hu'
    obtain ⟨hs, -, hv'⟩ := (hrel.returned_iff hm hsem hadded hend).mpr ⟨ht, rfl, hv⟩
    refine ⟨u, (mem_eval.mp hu).1, hs, ?_, hv'⟩
    rw [← hrel.world, hw]

/-- Whatever is done to the memory in what has been added: the old function can return the same, if
the memory changes between its steps in that way. -/
theorem Related.returns_preempted (hm : Maps hf ι added g lay) (hsem : Carries ι sem sem')
    (hadded : Harmless sem' interferes added) (h : Related hf ι added g lay sem.truth s t)
    {v : Option Val}
    {w : World} {e : Extra} (ht : Returns sem' g t v (w, e)) :
    ∃ u, Relation.ReflTransGen (Preempted sem f interferes) s u ∧ Returned f u v w := by
  obtain ⟨u', hreach, hu'⟩ := ht
  have hend : step sem' g u' = none := hu'.step_eq_none
  obtain ⟨u, hu, hrel⟩ := (simulates_preempted hm hsem hadded).reaches h hreach
  obtain ⟨ht, hw, hv⟩ := hu'
  obtain ⟨hs, -, hv'⟩ := (hrel.returned_iff hm hsem hadded hend).mpr ⟨ht, rfl, hv⟩
  refine ⟨u, hu, hs, ?_, hv'⟩
  rw [← hrel.world, hw]

omit [DecidableEq Name] [DecidableEq Name'] in
/-- At the start of both functions, with the same arguments. -/
theorem Related.start (hm : Maps hf ι added g lay) {truth : Val → Bool} {env : Name → Val}
    {env' : Name' → Val} (henv : ∀ x, env' (lay.name g.entry x) = env x) (w : World) (e : Extra) :
    Related hf ι added g lay truth (CodeMap.start f env w) (CodeMap.start g env' (w, e)) := by
  obtain ⟨q, hcode, hexit⟩ := hm.blocks g.entry hm.entry_used
  rw [hm.entry] at hcode
  exact ⟨hm.entry_used, ⟨_, q, ⟨rfl, rfl, fun _ _ h => by cases h⟩, hcode, hexit⟩,
    .start fun x _ => henv x, rfl⟩

end Simulation

end TinyQuanta.CodeMap
