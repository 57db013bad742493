import TinyQuanta.CodeEdits
import TinyQuanta.SelfLoopClone

/-!
# The clone of a self loop keeps the code

A loop of one block in a function that has been edited before, and the function
with a clone of it that is taken under some condition. The values of the loop have
other names in the clone; outside the loop they are only read through the PHI nodes of
its exit.
-/
namespace TinyQuanta.CloneEdit

open Ssa CfgRewrite CodeMap CodeEdits SelfLoopClone

variable {Op Op' Name Name' Label Label' Val : Type}

/-- Names that a renaming leaves alone. -/
theorem rename_rename_of_within {Name₂ : Type} {ρ : Name → Name₂} {m : Name₂ → Name₂}
    {S : Name → Prop}
    (h : ∀ x, S x → m (ρ x) = ρ x) {o : Operand Name Val} (ho : o.Within S) :
    (o.rename ρ).rename m = o.rename ρ := by
  cases o with
  | val x => exact congrArg Operand.val (h x (ho x rfl))
  | const v => rfl

theorem code_rename {ι : Op → Op'} {ρ : Name → Name'} {added : Instr Op' Name' Val → Prop}
    {m : Name' → Name'}
    (hadded : ∀ i, added i → added (i.rename id m)) {is : List (Instr Op' Name' Val)}
    {p q : Pos Op Name Label Val} (h : Code ι ρ added is p q) :
    Code ι (m ∘ ρ) added (is.map (Instr.rename id m)) p q := by
  induction h with
  | done p => exact .done p
  | added hi _ ih => exact .added (hadded _ hi) ih
  | instr _ ih =>
    rw [List.map_cons, Instr.rename_rename]
    exact .instr ih

section Clone

variable [DecidableEq Name'] [DecidableEq Label] [DecidableEq Label'] {f : Func Op Name Label Val}
  {hf : Valid f}
  {ι : Op → Op'} {added : Instr Op' Name' Val → Prop} {g : Func Op' Name' Label' Val}
  {lay : Layout Op Name Label Val Name' Label'}

/-- The block `bb` is a loop that is entered from `pre`, also in the new function. What it defines
is not read behind the loop, and not before its definition. -/
structure Loop (hf : Valid f) (g : Func Op' Name' Label' Val)
    (lay : Layout Op Name Label Val Name' Label')
    (pre bb exit : Label) (P B E : Label') where
  cond : Operand Name' Val
  exitOnTrue : Bool
  used : lay.used B
  pos : lay.pos B = .inside bb (f.blocks bb).body
  latch : (g.blocks B).term = if exitOnTrue then .condBr cond E B else .condBr cond B E
  exit_pos : lay.pos E = .inside exit (f.blocks exit).body
  exit_ne : exit ≠ bb
  before_used : lay.used P
  before_pos : (lay.pos P).block = pre
  before_term : (g.blocks P).term = .br B
  before_name : lay.name P = lay.name B
  before_ne : P ≠ B ∧ P ≠ E
  phis : (f.blocks bb).phis ≠ []
  live : ∀ x, hf.live bb x → x ∉ (f.blocks bb).defs
  closed : ∀ x, hf.live exit x → x ∉ (f.blocks bb).defs
  initial : ∀ p ∈ (f.blocks bb).phis, ∀ o, p.incomingFor pre = some o →
    o.Within (· ∉ (f.blocks bb).defs)

/-- The names in the clone are new, and what is added to the clone counts as added. -/
structure Fresh (added : Instr Op' Name' Val → Prop) (lay : Layout Op Name Label Val Name' Label')
    (B : Label')
    (fresh : Name' → Name') : Prop where
  injective : Function.Injective fresh
  ne : ∀ y x, fresh y ≠ lay.name B x
  rename : ∀ (b : Block Op' Name' Label' Val) i, added i →
    added (i.rename id (getClonedValue b fresh))
  dst_ne : ∀ x i, added i → i.dst ≠ some (fresh (lay.name B x))

variable {pre bb exit : Label} {P B E C : Label'} {fresh : Name' → Name'}

omit [DecidableEq Name'] in
theorem enters_of_crosses {l d : Label'} {u v b : Label} (h : Crosses hf g lay l u v d)
    (hd : lay.pos d = .inside b (f.blocks b).body) : v = b ∧ Enters hf g lay l u v d := by
  rcases h with h | h
  · cases h.pos.symm.trans hd
    exact ⟨rfl, h⟩
  · cases h.pos.symm.trans hd

omit [DecidableEq Name'] in
/-- The edges of the loop, in both functions. -/
theorem Loop.edges (l : Loop hf g lay pre bb exit P B E) (hm : Maps hf ι added g lay) :
    Code ι (lay.name B) added (g.blocks B).body (lay.pos B) (.inside bb []) ∧
    Enters hf g lay B bb bb B ∧ Enters hf g lay B bb exit E ∧
    ∃ cond, l.cond = cond.rename (lay.name B) ∧
      (f.blocks bb).term = if l.exitOnTrue then .condBr cond exit bb else .condBr cond bb exit := by
  obtain ⟨q, hcode, hexit⟩ := hm.blocks B l.used
  have hblock : q.block = bb := by
    rw [hcode.block_eq, l.pos]
    rfl
  have hsuccs : B ∈ (g.blocks B).term.succs ∧ E ∈ (g.blocks B).term.succs := by
    rw [l.latch]
    cases l.exitOnTrue <;> simp [Term.succs]
  cases hexit with
  | ret h h' =>
    rw [h'] at hsuccs
    cases hsuccs.1
  | @branch b cond v v' d d' h h' hd hd' =>
    cases hblock
    have hlatch := l.latch.symm.trans h'
    refine ⟨hcode, ?_⟩
    by_cases he : l.exitOnTrue = true
    · simp only [if_pos he] at hlatch ⊢
      obtain ⟨hcond, rfl, rfl⟩ := Term.condBr.inj hlatch
      obtain ⟨rfl, hE⟩ := enters_of_crosses hd l.exit_pos
      obtain ⟨rfl, hB⟩ := enters_of_crosses hd' l.pos
      exact ⟨hB, hE, cond, hcond, h⟩
    · simp only [if_neg he] at hlatch ⊢
      obtain ⟨hcond, rfl, rfl⟩ := Term.condBr.inj hlatch
      obtain ⟨rfl, hB⟩ := enters_of_crosses hd l.pos
      obtain ⟨rfl, hE⟩ := enters_of_crosses hd' l.exit_pos
      exact ⟨hB, hE, cond, hcond, h⟩
  | @goes _ u v hq hs hd =>
    obtain ⟨rfl, -⟩ := enters_of_crosses (hd B hsuccs.1) l.pos
    obtain ⟨he, -⟩ := enters_of_crosses (hd E hsuccs.2) l.exit_pos
    exact absurd he.symm l.exit_ne
  | stays hs hd => exact absurd (hd B hsuccs.1).rank (lt_irrefl _)

omit [DecidableEq Name'] in
/-- The way into the loop. -/
theorem Loop.before (l : Loop hf g lay pre bb exit P B E) (hm : Maps hf ι added g lay) :
    ∃ q, Code ι (lay.name P) added (g.blocks P).body (lay.pos P) q ∧ Decided f q pre bb ∧
      Enters hf g lay P pre bb B := by
  obtain ⟨q, hcode, hexit⟩ := hm.blocks P l.before_used
  have hblock : q.block = pre := by
    rw [hcode.block_eq, l.before_pos]
  have hsucc : B ∈ (g.blocks P).term.succs := by
    rw [l.before_term]
    exact List.mem_singleton_self _
  refine ⟨q, hcode, ?_⟩
  cases hexit with
  | ret h h' => cases l.before_term.symm.trans h'
  | branch h h' _ _ => cases l.before_term.symm.trans h'
  | goes hq hs hd =>
    cases hq.block_eq.symm.trans hblock
    obtain ⟨rfl, hB⟩ := enters_of_crosses (hd B hsucc) l.pos
    exact ⟨hq, hB⟩
  | stays hs hd =>
    have hphis := (l.edges hm).2.1.phis
    rw [(hd B hsucc).phis, List.forall₂_nil_right_iff] at hphis
    exact absurd hphis l.phis

omit [DecidableEq Name'] in
/-- What the loop defines in the new function it defines in the old one. -/
theorem Loop.mem_defs (l : Loop hf g lay pre bb exit P B E) (hm : Maps hf ι added g lay) {x : Name}
    (hx : lay.name B x ∈ (g.blocks B).defs) : x ∈ (f.blocks bb).defs := by
  obtain ⟨hcode, hback, -⟩ := l.edges hm
  rw [Block.mem_defs] at hx ⊢
  rcases hx with hx | ⟨i, hi, hdst⟩
  · have hdsts : (g.blocks B).phis.map Phi.dst = ((f.blocks bb).phis.map Phi.dst).map
        (lay.name B) := by
      have hphis := hback.phis
      generalize (f.blocks bb).phis = phis at hphis
      generalize (g.blocks B).phis = phis' at hphis
      induction hphis with
      | nil => rfl
      | cons hp _ ih => rw [List.map_cons, List.map_cons, List.map_cons, hp.1, ih]
    rw [hdsts, List.mem_map_of_injective (hm.name_injective B)] at hx
    exact .inl hx
  · rcases hcode.mem i hi with hadded | ⟨j, hj, rfl⟩
    · exact absurd hdst (hm.name_ne B x i hadded)
    · rw [l.pos] at hj
      obtain ⟨y, hy, hxy⟩ := Option.map_eq_some_iff.mp hdst
      cases hm.name_injective B hxy
      exact .inr ⟨j, hj, hy⟩

/-! ## The new function -/

/-- The clone, and the branch to it. -/
def cloneOn (g : Func Op' Name' Label' Val) (P B C : Label') (fresh : Name' → Name')
    (cond : Operand Name' Val) : Func Op' Name' Label' Val :=
  setTerm (cloneSelfLoop g B C fresh) P (.condBr cond C B)

/-- The clone is where the loop is, with other names. -/
def cloneLayout (lay : Layout Op Name Label Val Name' Label') (B C : Label') (m : Name' → Name') :
    Layout Op Name Label Val Name' Label' where
  used l := l = C ∨ lay.used l
  pos := Function.update lay.pos C (lay.pos B)
  name := Function.update lay.name C (m ∘ lay.name B)
  rank := lay.rank

variable {m : Name' → Name'}

omit [DecidableEq Name'] [DecidableEq Label] in
theorem cloneLayout_self : (cloneLayout lay B C m).pos C = lay.pos B ∧
    (cloneLayout lay B C m).name C = m ∘ lay.name B := by
  simp only [cloneLayout, Function.update_self, and_self]

omit [DecidableEq Name'] [DecidableEq Label] in
theorem cloneLayout_grows (hC : ¬ lay.used C) : Grows lay (cloneLayout lay B C m) := by
  have hne : ∀ l, lay.used l → l ≠ C := fun l hl h => hC (h ▸ hl)
  refine ⟨fun l hl => .inr hl, fun l hl => ?_, fun l hl => ?_⟩ <;>
    simp only [cloneLayout, Function.update_of_ne (hne l hl)]

/-- An entry for the clone, where the loop has one. -/
def clonePhi (m : Name' → Name') (B C : Label') (p : Phi Name' Label' Val) : Phi Name' Label' Val :=
  match p.incomingFor B with
  | some oldIncoming => addIncoming (oldIncoming.rename m) C p
  | none => p

section Phis

omit [DecidableEq Name']

theorem clonePhi_dst (p : Phi Name' Label' Val) : (clonePhi m B C p).dst = p.dst := by
  unfold clonePhi
  split <;> rfl

theorem incomingFor_clonePhi_of_ne {l : Label'} (hl : l ≠ C) (p : Phi Name' Label' Val) :
    (clonePhi m B C p).incomingFor l = p.incomingFor l := by
  unfold clonePhi
  split
  · simp [addIncoming, Phi.incomingFor, hl.symm]
  · rfl

theorem incomingFor_eq_none {p : Phi Name' Label' Val} (h : ∀ e ∈ p.incoming, e.1 ≠ C) :
    p.incomingFor C = none := by
  unfold Phi.incomingFor
  rw [List.find?_eq_none.mpr fun e he => by simpa using h e he]
  rfl

theorem incomingFor_clonePhi {p : Phi Name' Label' Val} (h : ∀ e ∈ p.incoming, e.1 ≠ C) :
    (clonePhi m B C p).incomingFor C = (p.incomingFor B).map (Operand.rename m) := by
  have hnone := incomingFor_eq_none h
  unfold clonePhi
  split
  · rename_i o ho
    rw [ho]
    have hfind : p.incoming.find? (fun e => decide (e.1 = C)) = none :=
      Option.map_eq_none_iff.mp hnone
    simp [addIncoming, Phi.incomingFor, hfind]
  · rename_i ho
    rw [ho, hnone]
    rfl

theorem mem_clonePhi {p : Phi Name' Label' Val} {e : Label' × Operand Name' Val}
    (h : e ∈ (clonePhi m B C p).incoming) : e.1 = C ∨ e ∈ p.incoming := by
  unfold clonePhi at h
  split at h
  · rcases List.mem_append.mp h with h | h
    · exact .inr h
    · cases List.mem_singleton.mp h
      exact .inl rfl
  · exact .inr h

end Phis

section Blocks

variable (g)

theorem cloneOn_self (cond : Operand Name' Val) (hP : C ≠ P) :
    (cloneOn g P B C fresh cond).blocks C =
      { phis := ((g.blocks B).rename id (getClonedValue (g.blocks B) fresh) id).phis.map
          (setIncomingBlock B C)
        body := (g.blocks B).body.map (Instr.rename id (getClonedValue (g.blocks B) fresh))
        term := setSuccessor B C
          ((g.blocks B).term.rename (getClonedValue (g.blocks B) fresh) id) } := by
  unfold cloneOn cloneSelfLoop
  rw [setTerm_of_ne hP, setBlock_self]
  rfl

theorem cloneOn_of_ne (cond : Operand Name' Val) {l : Label'} (hC : l ≠ C) :
    ((cloneOn g P B C fresh cond).blocks l).body = (g.blocks l).body ∧
    ((cloneOn g P B C fresh cond).blocks l).term =
      (if l = P then .condBr cond C B else (g.blocks l).term) ∧
    ((cloneOn g P B C fresh cond).blocks l).phis =
      if l ∈ (g.blocks B).term.succs.filter (· ≠ B) then
        (g.blocks l).phis.map (clonePhi (getClonedValue (g.blocks B) fresh) B C)
      else (g.blocks l).phis := by
  have hclone : (cloneSelfLoop g B C fresh).blocks l =
      (mapPhis g ((g.blocks B).term.succs.filter (· ≠ B))
        (clonePhi (getClonedValue (g.blocks B) fresh) B C)).blocks l := by
    unfold cloneSelfLoop
    rw [setBlock_of_ne hC]
    rfl
  have hphis : ((cloneSelfLoop g B C fresh).blocks l).phis =
      if l ∈ (g.blocks B).term.succs.filter (· ≠ B) then
        (g.blocks l).phis.map (clonePhi (getClonedValue (g.blocks B) fresh) B C)
      else (g.blocks l).phis := by
    rw [hclone]
    by_cases h : l ∈ (g.blocks B).term.succs.filter (· ≠ B)
    · rw [mapPhis_of_mem h, if_pos h]
    · rw [mapPhis_of_notMem h, if_neg h]
  have hbody := mapPhis_body g ((g.blocks B).term.succs.filter (· ≠ B))
    (clonePhi (getClonedValue (g.blocks B) fresh) B C) l
  rw [← hphis]
  unfold cloneOn
  by_cases hP : l = P
  · subst hP
    rw [setTerm_self, if_pos rfl, hclone]
    exact ⟨hbody.1, rfl, rfl⟩
  · rw [setTerm_of_ne hP, if_neg hP, hclone]
    exact ⟨hbody.1, hbody.2, rfl⟩

end Blocks

/-! ## The clone keeps the code -/

variable (cond : Operand Name' Val)

omit [DecidableEq Label] in
/-- Blocks that were there before. -/
theorem replaces_cloneOn (hC : ¬ lay.used C) {l d : Label'} (hl : lay.used l) (hd : lay.used d) :
    Replaces g (cloneOn g P B C fresh cond) lay (cloneLayout lay B C m) l l d := by
  have hne : ∀ l, lay.used l → l ≠ C := fun l hl h => hC (h ▸ hl)
  refine ⟨(cloneLayout_grows hC).name l hl, fun h => h, ?_⟩
  rw [(cloneOn_of_ne g cond (hne d hd)).2.2]
  split
  · rw [List.forall₂_map_right_iff, List.forall₂_same]
    exact fun p _ => ⟨clonePhi_dst p, incomingFor_clonePhi_of_ne (hne l hl) p⟩
  · exact List.forall₂_same.mpr fun _ _ => ⟨rfl, rfl⟩

variable {cond}

/-- A value from outside has the same name in the clone. -/
theorem Loop.getClonedValue_name (l : Loop hf g lay pre bb exit P B E) (hm : Maps hf ι added g lay)
    {x : Name}
    (hx : x ∉ (f.blocks bb).defs) : getClonedValue (g.blocks B) fresh (lay.name B x) =
    lay.name B x :=
  if_neg fun h => hx (l.mem_defs hm h)

section Phis

omit [DecidableEq Name']

theorem incomingFor_copy_of_ne {l : Label'} (hB : l ≠ B) (hC : l ≠ C) (p : Phi Name' Label' Val) :
    (setIncomingBlock B C (p.rename m id)).incomingFor l =
      (p.incomingFor l).map (Operand.rename m) := by
  rw [incomingFor_kept hB hC]
  exact Phi.incomingFor_rename Function.injective_id p l

theorem incomingFor_copy {p : Phi Name' Label' Val} (h : ∀ e ∈ p.incoming, e.1 ≠ C) :
    (setIncomingBlock B C (p.rename m id)).incomingFor C =
      (p.incomingFor B).map (Operand.rename m) := by
  rw [incomingFor_moved]
  · exact Phi.incomingFor_rename Function.injective_id p B
  · intro e he
    obtain ⟨e', he', rfl⟩ := List.mem_map.mp he
    exact h e' he'

end Phis

theorem cloneOn_phis (hP : C ≠ P) :
    ((cloneOn g P B C fresh cond).blocks C).phis = (g.blocks B).phis.map
      fun p => setIncomingBlock B C (p.rename (getClonedValue (g.blocks B) fresh) id) := by
  rw [cloneOn_self g cond hP]
  exact List.map_map

section Edges

variable (l : Loop hf g lay pre bb exit P B E) (hm : Maps hf ι added g lay) (hC : ¬ lay.used C)

include l hm hC

/-- From the preheader to the clone. -/
theorem Loop.enters_clone : Enters hf (cloneOn g P B C fresh cond)
    (cloneLayout lay B C (getClonedValue (g.blocks B) fresh)) P pre bb C := by
  obtain ⟨-, -, -, hin⟩ := l.before hm
  have hne : ∀ l, lay.used l → l ≠ C := fun l hl h => hC (h ▸ hl)
  have hg : Grows lay (cloneLayout lay B C (getClonedValue (g.blocks B) fresh)) :=
    cloneLayout_grows hC
  refine ⟨.inl rfl, cloneLayout_self.1.trans l.pos, ?_, ?_⟩
  · rw [cloneOn_phis (hne P l.before_used).symm, List.forall₂_map_right_iff, cloneLayout_self.2,
      hg.name P l.before_used]
    apply forall₂_imp_of_mem _ hin.phis
    rintro p hp p' hp' ⟨hdst, hfor⟩
    refine ⟨congrArg (getClonedValue (g.blocks B) fresh) hdst, ?_⟩
    rw [incomingFor_copy_of_ne l.before_ne.1 (hne P l.before_used), hfor, Option.map_map]
    cases ho : p.incomingFor pre with
    | none => rfl
    | some o =>
      refine congrArg some (rename_rename_of_within (fun x hx => ?_) (l.initial p hp o ho))
      rw [l.before_name]
      exact l.getClonedValue_name hm hx
  · intro x hx
    rw [cloneLayout_self.2, hg.name P l.before_used, l.before_name]
    exact l.getClonedValue_name hm (l.live x hx)

/-- The clone goes round. -/
theorem Loop.clone_enters_clone : Enters hf (cloneOn g P B C fresh cond)
    (cloneLayout lay B C (getClonedValue (g.blocks B) fresh)) C bb bb C := by
  obtain ⟨-, hback, -⟩ := l.edges hm
  have hne : ∀ l, lay.used l → l ≠ C := fun l hl h => hC (h ▸ hl)
  refine ⟨.inl rfl, cloneLayout_self.1.trans l.pos, ?_, fun _ _ => rfl⟩
  rw [cloneOn_phis (hne P l.before_used).symm, List.forall₂_map_right_iff, cloneLayout_self.2]
  apply forall₂_imp_of_mem _ hback.phis
  rintro p hp p' hp' ⟨hdst, hfor⟩
  refine ⟨congrArg (getClonedValue (g.blocks B) fresh) hdst, ?_⟩
  rw [incomingFor_copy (Maps.incoming_ne hm hC l.used p' hp'), hfor, Option.map_map]
  cases p.incomingFor bb with
  | none => rfl
  | some o => exact congrArg some (Operand.rename_rename _ _ o)

/-- The clone leaves to the exit. -/
theorem Loop.clone_enters_exit : Enters hf (cloneOn g P B C fresh cond)
    (cloneLayout lay B C (getClonedValue (g.blocks B) fresh)) C bb exit E := by
  obtain ⟨-, -, hout, -⟩ := l.edges hm
  have hne : ∀ l, lay.used l → l ≠ C := fun l hl h => hC (h ▸ hl)
  have hg : Grows lay (cloneLayout lay B C (getClonedValue (g.blocks B) fresh)) :=
    cloneLayout_grows hC
  have hmem : E ∈ (g.blocks B).term.succs.filter (· ≠ B) := by
    have hEB : E ≠ B := by
      rintro rfl
      exact l.exit_ne (Pos.inside.inj (l.exit_pos.symm.trans l.pos)).1
    rw [l.latch]
    cases l.exitOnTrue <;> simp [Term.succs, hEB]
  refine ⟨hg.used E hout.used, (hg.pos E hout.used).trans l.exit_pos, ?_, ?_⟩
  · rw [(cloneOn_of_ne g cond (hne E hout.used)).2.2, if_pos hmem, List.forall₂_map_right_iff,
      hg.name E hout.used, cloneLayout_self.2]
    apply forall₂_imp_of_mem _ hout.phis
    rintro p hp p' hp' ⟨hdst, hfor⟩
    refine ⟨(clonePhi_dst p').trans hdst, ?_⟩
    rw [incomingFor_clonePhi (Maps.incoming_ne hm hC hout.used p' hp'), hfor, Option.map_map]
    cases p.incomingFor bb with
    | none => rfl
    | some o => exact congrArg some (Operand.rename_rename _ _ o)
  · intro x hx
    rw [hg.name E hout.used, cloneLayout_self.2, hout.names x hx]
    exact (l.getClonedValue_name hm (l.closed x hx)).symm

/-- The latch of the clone. -/
theorem Loop.exit_clone : Exit hf (cloneOn g P B C fresh cond)
    (cloneLayout lay B C (getClonedValue (g.blocks B) fresh)) C (.inside bb []) := by
  obtain ⟨-, -, hout, c, hc, hterm⟩ := l.edges hm
  have hne : ∀ l, lay.used l → l ≠ C := fun l hl h => hC (h ▸ hl)
  have hEB : E ≠ B := by
    rintro rfl
    exact l.exit_ne (Pos.inside.inj (l.exit_pos.symm.trans l.pos)).1
  have hback : Enters hf (cloneOn g P B C fresh cond) _ C bb bb C := l.clone_enters_clone hm hC
  have hexit : Enters hf (cloneOn g P B C fresh cond) _ C bb exit E := l.clone_enters_exit hm hC
  have hlatch : ((cloneOn g P B C fresh cond).blocks C).term =
      if l.exitOnTrue then .condBr (c.rename (getClonedValue (g.blocks B) fresh ∘ lay.name B)) E C
      else .condBr (c.rename (getClonedValue (g.blocks B) fresh ∘ lay.name B)) C E := by
    rw [cloneOn_self g cond (hne P l.before_used).symm, l.latch, ← Operand.rename_rename, ← hc]
    cases l.exitOnTrue <;> simp [Term.rename, setSuccessor, hEB]
  rw [← cloneLayout_self.2] at hlatch
  by_cases he : l.exitOnTrue = true
  · rw [if_pos he] at hterm hlatch
    exact .branch hterm hlatch (.inl hexit) (.inl hback)
  · rw [if_neg he] at hterm hlatch
    exact .branch hterm hlatch (.inl hback) (.inl hexit)

/-- The preheader can go to the clone or to the loop. -/
theorem Loop.exit_before {q : Pos Op Name Label Val} (hq : Decided f q pre bb) :
    Exit hf (cloneOn g P B C fresh cond)
      (cloneLayout lay B C (getClonedValue (g.blocks B) fresh)) P q := by
  obtain ⟨-, -, -, hin⟩ := l.before hm
  have hne : ∀ l, lay.used l → l ≠ C := fun l hl h => hC (h ▸ hl)
  have hterm : ((cloneOn g P B C fresh cond).blocks P).term = .condBr cond C B := by
    rw [(cloneOn_of_ne g cond (hne P l.before_used)).2.1, if_pos rfl]
  refine .goes hq ?_ ?_ <;> rw [hterm]
  · exact List.cons_ne_nil _ _
  · intro d hd
    rcases List.mem_pair.mp hd with rfl | rfl
    · exact .inl (l.enters_clone hm hC)
    · exact .inl (Enters.transport (cloneLayout_grows hC)
        (replaces_cloneOn cond hC l.before_used l.used) hin)

end Edges

omit [DecidableEq Label] [DecidableEq Label'] in
/-- The names in the clone are those of the loop or new ones. -/
theorem Fresh.name_injective (h : Fresh added lay B fresh) (hname : Function.Injective (lay.name B))
    (b : Block Op' Name' Label' Val) :
    Function.Injective (getClonedValue b fresh ∘ lay.name B) := by
  intro x y hxy
  simp only [Function.comp_apply, getClonedValue] at hxy
  split at hxy <;> split at hxy
  · exact hname (h.injective hxy)
  · exact absurd hxy (h.ne _ y)
  · exact absurd hxy.symm (h.ne _ x)
  · exact hname hxy

/-- The clone of a loop. -/
theorem maps_cloneOn (l : Loop hf g lay pre bb exit P B E) (hm : Maps hf ι added g lay)
    (hfresh : Fresh added lay B fresh) (hC : ¬ lay.used C) (cond : Operand Name' Val) :
    Maps hf ι added (cloneOn g P B C fresh cond)
      (cloneLayout lay B C (getClonedValue (g.blocks B) fresh)) := by
  have hg : Grows lay (cloneLayout lay B C (getClonedValue (g.blocks B) fresh)) :=
    cloneLayout_grows hC
  have hne : ∀ l, lay.used l → l ≠ C := fun l hl h => hC (h ▸ hl)
  have hCP : C ≠ P := (hne P l.before_used).symm
  have hname : ∀ d, d ≠ C → (cloneLayout lay B C (getClonedValue (g.blocks B) fresh)).name d =
    lay.name d :=
    fun d hd => Function.update_of_ne hd _ _
  refine ⟨hg.used _ hm.entry_used, (hg.pos _ hm.entry_used).trans hm.entry, ?_, ?_, ?_, ?_⟩
  · rintro d (rfl | hd)
    · refine ⟨_, ?_, l.exit_clone hm hC⟩
      rw [cloneLayout_self.1, cloneLayout_self.2, cloneOn_self g cond hCP]
      exact code_rename (hfresh.rename _) (l.edges hm).1
    · have hterm : ((cloneOn g P B C fresh cond).blocks d).term = _ :=
        (cloneOn_of_ne g cond (hne d hd)).2.1
      rw [hg.name d hd, hg.pos d hd, (cloneOn_of_ne g cond (hne d hd)).1]
      by_cases hP : d = P
      · subst hP
        obtain ⟨q, hcode, hq, -⟩ := l.before hm
        exact ⟨q, hcode, l.exit_before hm hC hq⟩
      · obtain ⟨q, hcode, hexit⟩ := hm.blocks d hd
        rw [if_neg hP] at hterm
        exact ⟨q, hcode, Exit.transport hg (hg.name d hd)
          (fun d' _ hd' => replaces_cloneOn cond hC hd hd') hterm hexit⟩
  · intro d
    by_cases hd : d = C
    · rw [hd, cloneLayout_self.2]
      exact hfresh.name_injective (hm.name_injective B) _
    · rw [hname d hd]
      exact hm.name_injective d
  · intro d x i hi
    by_cases hd : d = C
    · rw [hd, cloneLayout_self.2]
      simp only [Function.comp_apply, getClonedValue]
      split
      · exact hfresh.dst_ne x i hi
      · exact hm.name_ne B x i hi
    · rw [hname d hd]
      exact hm.name_ne d x i hi
  · rintro d (rfl | hd) p hp e he
    · rw [cloneOn_phis hCP] at hp
      obtain ⟨p', hp', rfl⟩ := List.mem_map.mp hp
      rcases mem_setIncomingBlock he with he | he
      · exact .inl he
      · obtain ⟨e', he', rfl⟩ := List.mem_map.mp he
        exact hg.used _ (hm.incoming_used B l.used p' hp' e' he')
    · rw [(cloneOn_of_ne g cond (hne d hd)).2.2] at hp
      split at hp
      · obtain ⟨p', hp', rfl⟩ := List.mem_map.mp hp
        rcases mem_clonePhi he with he | he
        · exact .inl he
        · exact hg.used _ (hm.incoming_used d hd p' hp' e he)
      · exact hg.used _ (hm.incoming_used d hd p hp e he)

end Clone

end TinyQuanta.CloneEdit
