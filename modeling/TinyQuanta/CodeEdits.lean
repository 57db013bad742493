import TinyQuanta.CfgRewrite
import TinyQuanta.CodeMap

/-!
# Edits that keep the code

Instructions put into a block, a block split in two with a conditional part between
them, and a block put on an edge. Each of these leaves a function that still does what
the original one does, block by block, if the labels are new.
-/
namespace TinyQuanta.CodeEdits

open Ssa CfgRewrite CodeMap

variable {Op Op' Name Name' Label Label' Val : Type}

/-! ## Functions -/

section Edits

variable [DecidableEq Label] (g : Func Op Name Label Val)

/-- Instructions before the one at index `k`. -/
def insertAt (l : Label) (k : ℕ) (is : List (Instr Op Name Val)) : Func Op Name Label Val :=
  setBlock g l { g.blocks l with
    body := (g.blocks l).body.take k ++ (is ++ (g.blocks l).body.drop k) }

/-- The block `tail` takes what `b` does from index `k` on, and `thenBB` is run before it if `cond`
holds. -/
def insertIfThenAt (cond : Operand Name Val) (b : Label) (k : ℕ) (thenBB tail : Label) :
    Func Op Name Label Val :=
  let body := (g.blocks b).body
  let term := (g.blocks b).term
  let g := mapPhis g term.succs (setIncomingBlock b tail)
  let g := setBlock g b { g.blocks b with body := body.take k, term := .condBr cond thenBB tail }
  setBlock (setBlock g tail ⟨[], body.drop k, term⟩) thenBB ⟨[], [], .br tail⟩

end Edits

/-! ## Code -/

section Code

variable {ι : Op → Op'} {ρ : Name → Name'} {added : Instr Op' Name' Val → Prop}
  {is js : List (Instr Op' Name' Val)} {p q r : Pos Op Name Label Val}

theorem code_append (h : Code ι ρ added is p q) (h' : Code ι ρ added js q r) :
    Code ι ρ added (is ++ js) p r := by
  induction h with
  | done p => exact h'
  | added hi _ ih => exact .added hi (ih h')
  | instr _ ih => exact .instr (ih h')

theorem code_of_added (h : ∀ i ∈ is, added i) (p : Pos Op Name Label Val) :
    Code ι ρ added is p p := by
  induction is with
  | nil => exact .done p
  | cons i is ih => exact .added (h i List.mem_cons_self) (ih fun j hj =>
      h j (List.mem_cons_of_mem _ hj))

theorem code_split (k : ℕ) (h : Code ι ρ added is p q) :
    ∃ r, Code ι ρ added (is.take k) p r ∧ Code ι ρ added (is.drop k) r q := by
  induction h generalizing k with
  | done p => exact ⟨p, by rw [List.take_nil]; exact .done p, by rw [List.drop_nil]; exact .done p⟩
  | @added i is p q hi h ih =>
    cases k with
    | zero => exact ⟨p, .done p, .added hi h⟩
    | succ k =>
      obtain ⟨r, htake, hdrop⟩ := ih k
      exact ⟨r, .added hi htake, hdrop⟩
  | @instr i is b rest q h ih =>
    cases k with
    | zero => exact ⟨_, .done _, .instr h⟩
    | succ k =>
      obtain ⟨r, htake, hdrop⟩ := ih k
      exact ⟨r, .instr htake, hdrop⟩

end Code

/-! ## PHI nodes -/

section Phis

variable [DecidableEq Label] {a b c : Label} {p : Phi Name Label Val}

theorem incomingFor_moved (h : ∀ e ∈ p.incoming, e.1 ≠ b) :
    (setIncomingBlock a b p).incomingFor b = p.incomingFor a := by
  obtain ⟨dst, incoming⟩ := p
  induction incoming with
  | nil => rfl
  | cons e es ih =>
    have hes := ih fun e he => h e (List.mem_cons_of_mem _ he)
    by_cases he : e.1 = a
    · simp [setIncomingBlock, Phi.incomingFor, he]
    · simpa [setIncomingBlock, Phi.incomingFor, he, h e List.mem_cons_self] using hes

theorem incomingFor_kept (ha : c ≠ a) (hb : c ≠ b) :
    (setIncomingBlock a b p).incomingFor c = p.incomingFor c := by
  obtain ⟨dst, incoming⟩ := p
  induction incoming with
  | nil => rfl
  | cons e es ih =>
    by_cases he : e.1 = a
    · simpa [setIncomingBlock, Phi.incomingFor, he, ha.symm, hb.symm] using ih
    · by_cases hc : e.1 = c
      · simp [setIncomingBlock, Phi.incomingFor, hc, ha]
      · simpa [setIncomingBlock, Phi.incomingFor, he, hc] using ih

theorem mem_setIncomingBlock {e : Label × Operand Name Val}
    (h : e ∈ (setIncomingBlock a b p).incoming) :
    e.1 = b ∨ e ∈ p.incoming := by
  obtain ⟨e', he', rfl⟩ := List.mem_map.mp h
  by_cases ha : e'.1 = a
  · rw [if_pos ha]
    exact .inl rfl
  · rw [if_neg ha]
    exact .inr he'

end Phis

/-! ## The other blocks -/

section Transport

variable {f : Func Op Name Label Val} {g g' : Func Op' Name' Label' Val}
  {lay lay' : Layout Op Name Label Val Name' Label'} {l l' : Label'}

/-- Blocks that were there have kept their places and names. -/
structure Grows (lay lay' : Layout Op Name Label Val Name' Label') : Prop where
  used : ∀ l, lay.used l → lay'.used l
  pos : ∀ l, lay.used l → lay'.pos l = lay.pos l
  name : ∀ l, lay.used l → lay'.name l = lay.name l

theorem Grows.refl (lay : Layout Op Name Label Val Name' Label') : Grows lay lay :=
  ⟨fun _ h => h, fun _ _ => rfl, fun _ _ => rfl⟩

theorem Grows.trans {lay'' : Layout Op Name Label Val Name' Label'} (h : Grows lay lay')
    (h' : Grows lay' lay'') : Grows lay lay'' where
  used l hl := h'.used l (h.used l hl)
  pos l hl := (h'.pos l (h.used l hl)).trans (h.pos l hl)
  name l hl := (h'.name l (h.used l hl)).trans (h.name l hl)

variable [DecidableEq Label']

/-- The block `l'` goes to `d` in place of `l`: the PHI nodes have its entries, and if `d` is
further down than `l`, it is further down than `l'`. -/
structure Replaces (g g' : Func Op' Name' Label' Val)
    (lay lay' : Layout Op Name Label Val Name' Label')
    (l l' d : Label') : Prop where
  name : lay'.name l' = lay.name l
  rank : lay.rank d < lay.rank l → lay'.rank d < lay'.rank l'
  phis : List.Forall₂ (fun p p' => p'.dst = p.dst ∧ p'.incomingFor l' = p.incomingFor l)
    (g.blocks d).phis
    (g'.blocks d).phis

theorem Stays.transport (hg : Grows lay lay') {q : Pos Op Name Label Val} {d : Label'}
    (h : Replaces g g' lay lay' l l' d) (hd : Stays g lay l q d) : Stays g' lay' l' q d where
  used := hg.used d hd.used
  pos := (hg.pos d hd.used).trans hd.pos
  phis := by
    have hphis := h.phis
    rw [hd.phis] at hphis
    exact List.forall₂_nil_left_iff.mp hphis
  name := by rw [hg.name d hd.used, hd.name, h.name]
  rank := h.rank hd.rank

theorem forall₂_trans {α β γ : Type} {R : α → β → Prop} {S : β → γ → Prop} {T : α → γ → Prop}
    (h : ∀ a b c, R a b → S b c → T a c) {as : List α} {bs : List β} {cs : List γ}
    (hab : List.Forall₂ R as bs) (hbc : List.Forall₂ S bs cs) : List.Forall₂ T as cs := by
  induction hab generalizing cs with
  | nil =>
    cases hbc
    exact .nil
  | cons hr _ ih =>
    cases hbc with
    | cons hs hbc => exact .cons (h _ _ _ hr hs) (ih hbc)

theorem forall₂_imp_of_mem {α β : Type} {R S : α → β → Prop} {as : List α} {bs : List β}
    (h : ∀ a ∈ as, ∀ b ∈ bs, R a b → S a b) (hab : List.Forall₂ R as bs) :
    List.Forall₂ S as bs := by
  induction hab with
  | nil => exact .nil
  | cons hr _ ih =>
    exact .cons (h _ List.mem_cons_self _ List.mem_cons_self hr)
      (ih fun a ha b hb => h a (List.mem_cons_of_mem _ ha) b (List.mem_cons_of_mem _ hb))

variable [DecidableEq Label] {hf : Valid f}

theorem Enters.transport (hg : Grows lay lay') {u v : Label} {d : Label'}
    (h : Replaces g g' lay lay' l l' d)
    (hd : Enters hf g lay l u v d) : Enters hf g' lay' l' u v d where
  used := hg.used d hd.used
  pos := (hg.pos d hd.used).trans hd.pos
  phis := by
    rw [h.name, hg.name d hd.used]
    apply forall₂_trans _ hd.phis h.phis
    rintro p p' p'' ⟨hdst, hin⟩ ⟨hdst', hin'⟩
    exact ⟨hdst'.trans hdst, hin'.trans hin⟩
  names x hx := by rw [hg.name d hd.used, h.name, hd.names x hx]

theorem Crosses.transport (hg : Grows lay lay') {u v : Label} {d : Label'}
    (h : Replaces g g' lay lay' l l' d)
    (hd : Crosses hf g lay l u v d) : Crosses hf g' lay' l' u v d :=
  hd.imp (Enters.transport hg h) (Stays.transport hg h)

theorem Exit.transport (hg : Grows lay lay') (hname : lay'.name l' = lay.name l)
    (h : ∀ d ∈ (g.blocks l).term.succs, lay.used d → Replaces g g' lay lay' l l' d)
    (hterm : (g'.blocks l').term = (g.blocks l).term) {q : Pos Op Name Label Val}
    (hexit : Exit hf g lay l q) : Exit hf g' lay' l' q := by
  cases hexit with
  | ret hr hr' =>
    refine .ret hr ?_
    rw [hterm, hr', hname]
  | branch hb hb' hd hd' =>
    rw [hb'] at h
    refine .branch hb ?_ (Crosses.transport hg (h _ List.mem_cons_self hd.used) hd)
      (Crosses.transport hg (h _ (List.mem_cons_of_mem _ List.mem_cons_self) hd'.used) hd')
    rw [hterm, hb', hname]
  | goes hq hs hd =>
    refine .goes hq ?_ ?_ <;> rw [hterm]
    · exact hs
    · exact fun d hl => Crosses.transport hg (h d hl (hd d hl).used) (hd d hl)
  | stays hs hd =>
    refine .stays ?_ ?_ <;> rw [hterm]
    · exact hs
    · exact fun d hl => Stays.transport hg (h d hl (hd d hl).used) (hd d hl)

end Transport

/-! ## The edits -/

section Maps

variable [DecidableEq Label] [DecidableEq Label'] {f : Func Op Name Label Val} {hf : Valid f}
  {ι : Op → Op'}
  {added : Instr Op' Name' Val → Prop} {g : Func Op' Name' Label' Val}
  {lay : Layout Op Name Label Val Name' Label'} {l : Label'}

omit [DecidableEq Label] in
/-- Where the PHI nodes have not changed. -/
theorem replaces_of_phis_eq {g' : Func Op' Name' Label' Val}
    (h : ∀ d, (g'.blocks d).phis = (g.blocks d).phis)
    (l d : Label') : Replaces g g' lay lay l l d where
  name := rfl
  rank h := h
  phis := by
    rw [h d]
    exact List.forall₂_same.mpr fun _ _ => ⟨rfl, rfl⟩

theorem maps_insertAt (hm : Maps hf ι added g lay) (l : Label') (k : ℕ)
    {is : List (Instr Op' Name' Val)}
    (his : ∀ i ∈ is, added i) : Maps hf ι added (insertAt g l k is) lay := by
  have hphis : ∀ d, ((insertAt g l k is).blocks d).phis = (g.blocks d).phis := by
    intro d
    unfold insertAt
    by_cases hd : d = l
    · rw [hd, setBlock_self]
    · rw [setBlock_of_ne hd]
  refine { hm with blocks := ?_, incoming_used := ?_ }
  · intro d hd
    obtain ⟨q, hcode, hexit⟩ := hm.blocks d hd
    unfold insertAt at hphis ⊢
    by_cases hdl : d = l
    · subst hdl
      obtain ⟨r, htake, hdrop⟩ := code_split k hcode
      refine ⟨q, ?_, Exit.transport (.refl lay) rfl (fun d' _ _ => replaces_of_phis_eq hphis d d')
        ?_ hexit⟩
      · rw [setBlock_self]
        exact code_append htake (code_append (code_of_added his r) hdrop)
      · rw [setBlock_self]
    · refine ⟨q, ?_, Exit.transport (.refl lay) rfl (fun d' _ _ => replaces_of_phis_eq hphis d d')
        ?_ hexit⟩
      · rw [setBlock_of_ne hdl]
        exact hcode
      · rw [setBlock_of_ne hdl]
  · intro d hd p hp
    rw [hphis] at hp
    exact hm.incoming_used d hd p hp

/-- What is left to show for a function with new blocks. -/
theorem maps_of_grows {g' : Func Op' Name' Label' Val}
    {lay' : Layout Op Name Label Val Name' Label'}
    (hm : Maps hf ι added g lay) (hg : Grows lay lay') (hentry : g'.entry = g.entry)
    (hname : ∀ l, ∃ l', lay'.name l = lay.name l')
    (hblocks : ∀ l, lay'.used l → ∃ q, Code ι (lay'.name l) added (g'.blocks l).body
    (lay'.pos l) q ∧
      Exit hf g' lay' l q)
    (hincoming : ∀ l, lay'.used l → ∀ p ∈ (g'.blocks l).phis, ∀ e ∈ p.incoming, lay'.used e.1) :
    Maps hf ι added g' lay' where
  entry_used := by
    rw [hentry]
    exact hg.used _ hm.entry_used
  entry := by
    rw [hentry, hg.pos _ hm.entry_used]
    exact hm.entry
  blocks := hblocks
  name_injective l := by
    obtain ⟨l', hl'⟩ := hname l
    rw [hl']
    exact hm.name_injective l'
  name_ne l := by
    obtain ⟨l', hl'⟩ := hname l
    rw [hl']
    exact hm.name_ne l'
  incoming_used := hincoming

/-- PHI nodes of blocks that are in use do not name a new block. -/
theorem Maps.incoming_ne (hm : Maps hf ι added g lay) {n d : Label'} (hn : ¬ lay.used n)
    (hd : lay.used d) :
    ∀ p ∈ (g.blocks d).phis, ∀ e ∈ p.incoming, e.1 ≠ n := by
  intro p hp e he hen
  exact hn (hen ▸ hm.incoming_used d hd p hp e he)

/-- The entries for `a` are for `b` now. -/
theorem forall₂_moved {a b : Label'} {phis : List (Phi Name' Label' Val)}
    (h : ∀ p ∈ phis, ∀ e ∈ p.incoming, e.1 ≠ b) :
    List.Forall₂ (fun p p' : Phi Name' Label' Val => p'.dst = p.dst ∧
      p'.incomingFor b = p.incomingFor a) phis
      (phis.map (setIncomingBlock a b)) := by
  rw [List.forall₂_map_right_iff, List.forall₂_same]
  exact fun p hp => ⟨rfl, incomingFor_moved (h p hp)⟩

theorem forall₂_kept {a b c : Label'} (ha : c ≠ a) (hb : c ≠ b)
    (phis : List (Phi Name' Label' Val)) :
    List.Forall₂ (fun p p' : Phi Name' Label' Val => p'.dst = p.dst ∧
      p'.incomingFor c = p.incomingFor c) phis
      (phis.map (setIncomingBlock a b)) := by
  rw [List.forall₂_map_right_iff, List.forall₂_same]
  exact fun p _ => ⟨rfl, incomingFor_kept ha hb⟩

/-- The places of the parts of a block that has been split at `r`. -/
def splitLayout (lay : Layout Op Name Label Val Name' Label') (b thenBB tail : Label')
    (r : Pos Op Name Label Val) : Layout Op Name Label Val Name' Label' where
  used l := l = thenBB ∨ l = tail ∨ lay.used l
  pos := Function.update (Function.update lay.pos tail r) thenBB r
  name := Function.update (Function.update lay.name tail (lay.name b)) thenBB (lay.name b)
  rank := Function.update (Function.update
    (Function.update (fun l => 3 * lay.rank l) b (3 * lay.rank b + 2))
    tail (3 * lay.rank b)) thenBB (3 * lay.rank b + 1)

section Split

variable {b thenBB tail : Label'} {r : Pos Op Name Label Val}

section Layout

omit [DecidableEq Label]

theorem splitLayout_thenBB : (splitLayout lay b thenBB tail r).pos thenBB = r ∧
    (splitLayout lay b thenBB tail r).name thenBB = lay.name b ∧
    (splitLayout lay b thenBB tail r).rank thenBB = 3 * lay.rank b + 1 := by
  simp only [splitLayout, Function.update_self, and_self]

theorem splitLayout_tail (h : tail ≠ thenBB) : (splitLayout lay b thenBB tail r).pos tail = r ∧
    (splitLayout lay b thenBB tail r).name tail = lay.name b ∧
    (splitLayout lay b thenBB tail r).rank tail = 3 * lay.rank b := by
  simp only [splitLayout, Function.update_of_ne h, Function.update_self, and_self]

theorem splitLayout_of_ne (hthen : l ≠ thenBB) (htail : l ≠ tail) :
    (splitLayout lay b thenBB tail r).pos l = lay.pos l ∧
    (splitLayout lay b thenBB tail r).name l = lay.name l ∧
    (splitLayout lay b thenBB tail r).rank l = if l = b then 3 * lay.rank b + 2 else 3 * lay.rank
    l := by
  simp only [splitLayout, Function.update_of_ne hthen, Function.update_of_ne htail,
    Function.update_apply, and_self]

theorem splitLayout_grows (hthen : ¬ lay.used thenBB) (htail : ¬ lay.used tail) :
    Grows lay (splitLayout lay b thenBB tail r) := by
  have hne : ∀ l, lay.used l → l ≠ thenBB ∧ l ≠ tail :=
    fun l hl => ⟨fun h => hthen (h ▸ hl), fun h => htail (h ▸ hl)⟩
  exact ⟨fun l hl => .inr (.inr hl), fun l hl => (splitLayout_of_ne (hne l hl).1 (hne l hl).2).1,
    fun l hl => (splitLayout_of_ne (hne l hl).1 (hne l hl).2).2.1⟩

variable (lay b thenBB tail r) in
theorem splitLayout_name (l : Label') :
    ∃ l', (splitLayout lay b thenBB tail r).name l = lay.name l' := by
  by_cases h : l = thenBB
  · rw [h]
    exact ⟨b, splitLayout_thenBB.2.1⟩
  · by_cases h' : l = tail
    · subst h'
      exact ⟨b, (splitLayout_tail h).2.1⟩
    · exact ⟨l, (splitLayout_of_ne h h').2.1⟩

end Layout

section Blocks

variable (g) (cond : Operand Name' Val) (k : ℕ)

theorem insertIfThenAt_thenBB :
    (insertIfThenAt g cond b k thenBB tail).blocks thenBB = ⟨[], [], .br tail⟩ := setBlock_self

theorem insertIfThenAt_tail (h : tail ≠ thenBB) :
    (insertIfThenAt g cond b k thenBB tail).blocks tail =
      ⟨[], (g.blocks b).body.drop k, (g.blocks b).term⟩ := by
  unfold insertIfThenAt
  rw [setBlock_of_ne h, setBlock_self]

theorem insertIfThenAt_head (hthen : b ≠ thenBB) (htail : b ≠ tail) :
    ((insertIfThenAt g cond b k thenBB tail).blocks b).body = (g.blocks b).body.take k ∧
      ((insertIfThenAt g cond b k thenBB tail).blocks b).term = .condBr cond thenBB tail := by
  unfold insertIfThenAt
  rw [setBlock_of_ne hthen, setBlock_of_ne htail, setBlock_self]
  exact ⟨rfl, rfl⟩

theorem mapPhis_body (ls : List Label') (φ : Phi Name' Label' Val → Phi Name' Label' Val)
    (l : Label') :
    ((mapPhis g ls φ).blocks l).body = (g.blocks l).body ∧
      ((mapPhis g ls φ).blocks l).term = (g.blocks l).term := by
  by_cases h : l ∈ ls
  · rw [mapPhis_of_mem h]
    exact ⟨rfl, rfl⟩
  · rw [mapPhis_of_notMem h]
    exact ⟨rfl, rfl⟩

theorem insertIfThenAt_of_ne (hb : l ≠ b) (hthen : l ≠ thenBB) (htail : l ≠ tail) :
    ((insertIfThenAt g cond b k thenBB tail).blocks l).body = (g.blocks l).body ∧
      ((insertIfThenAt g cond b k thenBB tail).blocks l).term = (g.blocks l).term := by
  unfold insertIfThenAt
  rw [setBlock_of_ne hthen, setBlock_of_ne htail, setBlock_of_ne hb]
  exact mapPhis_body g _ _ l

theorem insertIfThenAt_phis (hthen : l ≠ thenBB) (htail : l ≠ tail) :
    ((insertIfThenAt g cond b k thenBB tail).blocks l).phis =
      if l ∈ (g.blocks b).term.succs then (g.blocks l).phis.map (setIncomingBlock b tail)
      else (g.blocks l).phis := by
  have hphis : ((mapPhis g (g.blocks b).term.succs (setIncomingBlock b tail)).blocks l).phis =
      if l ∈ (g.blocks b).term.succs then (g.blocks l).phis.map (setIncomingBlock b tail)
      else (g.blocks l).phis := by
    by_cases h : l ∈ (g.blocks b).term.succs
    · rw [mapPhis_of_mem h, if_pos h]
    · rw [mapPhis_of_notMem h, if_neg h]
  rw [← hphis]
  unfold insertIfThenAt
  rw [setBlock_of_ne hthen, setBlock_of_ne htail]
  by_cases hb : l = b
  · rw [hb, setBlock_self]
  · rw [setBlock_of_ne hb]

end Blocks

omit [DecidableEq Label] in
/-- The blocks that are left as they are. -/
theorem replaces_insertIfThenAt (hl : lay.used l) (hlb : l ≠ b) (hthen : ¬ lay.used thenBB)
    (htail : ¬ lay.used tail) (cond : Operand Name' Val) (k : ℕ) {d : Label'} (hd : lay.used d) :
    Replaces g (insertIfThenAt g cond b k thenBB tail) lay
      (splitLayout lay b thenBB tail r) l l d := by
  have hne : ∀ l, lay.used l → l ≠ thenBB ∧ l ≠ tail :=
    fun l hl => ⟨fun h => hthen (h ▸ hl), fun h => htail (h ▸ hl)⟩
  refine ⟨(splitLayout_grows hthen htail).name l hl, fun hlt => ?_, ?_⟩
  · rw [(splitLayout_of_ne (hne l hl).1 (hne l hl).2).2.2,
      (splitLayout_of_ne (hne d hd).1 (hne d hd).2).2.2, if_neg hlb]
    split
    · subst d
      omega
    · omega
  · rw [insertIfThenAt_phis g cond k (hne d hd).1 (hne d hd).2]
    split
    · exact forall₂_kept hlb (hne l hl).2 _
    · exact List.forall₂_same.mpr fun _ _ => ⟨rfl, rfl⟩

/-- The second part leaves in place of the whole block. -/
theorem replaces_insertIfThenAt_tail (hm : Maps hf ι added g lay)
    (hthen : ¬ lay.used thenBB) (htail : ¬ lay.used tail) (hne' : tail ≠ thenBB)
    (cond : Operand Name' Val)
    (k : ℕ) {d : Label'} (hl : d ∈ (g.blocks b).term.succs) (hd : lay.used d) :
    Replaces g (insertIfThenAt g cond b k thenBB tail) lay
      (splitLayout lay b thenBB tail r) b tail d := by
  have hne : ∀ l, lay.used l → l ≠ thenBB ∧ l ≠ tail :=
    fun l hl => ⟨fun h => hthen (h ▸ hl), fun h => htail (h ▸ hl)⟩
  refine ⟨(splitLayout_tail hne').2.1, fun hlt => ?_, ?_⟩
  · have hdb : d ≠ b := by
      rintro rfl
      exact lt_irrefl _ hlt
    rw [(splitLayout_of_ne (hne d hd).1 (hne d hd).2).2.2, (splitLayout_tail hne').2.2, if_neg hdb]
    omega
  · rw [insertIfThenAt_phis g cond k (hne d hd).1 (hne d hd).2, if_pos hl]
    exact forall₂_moved (Maps.incoming_ne hm htail hd)

omit [DecidableEq Label] in
/-- Both parts in front go on to the second part of the block. -/
theorem stays_tail (hne : tail ≠ thenBB) (cond : Operand Name' Val) (k : ℕ)
    (hl : (splitLayout lay b thenBB tail r).name l = lay.name b)
    (hrank : 3 * lay.rank b < (splitLayout lay b thenBB tail r).rank l) :
    Stays (insertIfThenAt g cond b k thenBB tail) (splitLayout lay b thenBB tail r) l r tail where
  used := .inr (.inl rfl)
  pos := (splitLayout_tail hne).1
  phis := by rw [insertIfThenAt_tail g cond k hne]
  name := by rw [(splitLayout_tail hne).2.1, hl]
  rank := by rwa [(splitLayout_tail hne).2.2]

omit [DecidableEq Label] in
theorem stays_thenBB (cond : Operand Name' Val) (k : ℕ) (hthen : b ≠ thenBB) (htail : b ≠ tail) :
    Stays (insertIfThenAt g cond b k thenBB tail) (splitLayout lay b thenBB tail r) b r thenBB where
  used := .inl rfl
  pos := splitLayout_thenBB.1
  phis := by rw [insertIfThenAt_thenBB]
  name := by rw [splitLayout_thenBB.2.1, (splitLayout_of_ne hthen htail).2.1]
  rank := by
    rw [splitLayout_thenBB.2.2, (splitLayout_of_ne hthen htail).2.2, if_pos rfl]
    omega

/-- The two parts of the block and the one between them. -/
theorem exit_thenBB (hne : tail ≠ thenBB) (cond : Operand Name' Val) (k : ℕ) :
    Exit hf (insertIfThenAt g cond b k thenBB tail) (splitLayout lay b thenBB tail r) thenBB r := by
  refine .stays ?_ ?_ <;> rw [insertIfThenAt_thenBB]
  · exact List.cons_ne_nil _ _
  · intro d hd
    cases List.mem_singleton.mp hd
    refine stays_tail hne cond k splitLayout_thenBB.2.1 ?_
    rw [splitLayout_thenBB.2.2]
    exact Nat.lt_succ_self _

theorem exit_head (hthen : b ≠ thenBB) (htail : b ≠ tail) (hne : tail ≠ thenBB)
    (cond : Operand Name' Val)
    (k : ℕ) : Exit hf (insertIfThenAt g cond b k thenBB tail) (splitLayout lay b thenBB tail r) b
    r := by
  refine .stays ?_ ?_ <;> rw [(insertIfThenAt_head g cond k hthen htail).2]
  · exact List.cons_ne_nil _ _
  · intro d hd
    rcases List.mem_pair.mp hd with rfl | rfl
    · exact stays_thenBB cond k hthen htail
    · refine stays_tail hne cond k (splitLayout_of_ne hthen htail).2.1 ?_
      rw [(splitLayout_of_ne hthen htail).2.2, if_pos rfl]
      omega

/-- A conditional part in a block. -/
theorem maps_insertIfThenAt (hm : Maps hf ι added g lay) (hb : lay.used b)
    (hthen : ¬ lay.used thenBB)
    (htail : ¬ lay.used tail) (hne : tail ≠ thenBB) (cond : Operand Name' Val) (k : ℕ) :
    ∃ r, r.block = (lay.pos b).block ∧
      Maps hf ι added (insertIfThenAt g cond b k thenBB tail)
        (splitLayout lay b thenBB tail r) := by
  obtain ⟨q, hcode, hexit⟩ := hm.blocks b hb
  obtain ⟨r, htake, hdrop⟩ := code_split k hcode
  have hg : Grows lay (splitLayout lay b thenBB tail r) := splitLayout_grows hthen htail
  have hused : ∀ l, lay.used l → l ≠ thenBB ∧ l ≠ tail :=
    fun l hl => ⟨fun h => hthen (h ▸ hl), fun h => htail (h ▸ hl)⟩
  refine ⟨r, htake.block_eq, maps_of_grows hm hg rfl (splitLayout_name lay b thenBB tail r) ?_ ?_⟩
  · rintro l (rfl | rfl | hl)
    · refine ⟨r, ?_, exit_thenBB hne cond k⟩
      rw [insertIfThenAt_thenBB, splitLayout_thenBB.1]
      exact .done r
    · refine ⟨q, ?_, Exit.transport hg (splitLayout_tail hne).2.1
        (fun d => replaces_insertIfThenAt_tail hm hthen htail hne cond k) ?_ hexit⟩
      · rw [insertIfThenAt_tail g cond k hne, (splitLayout_tail hne).2.1, (splitLayout_tail hne).1]
        exact hdrop
      · rw [insertIfThenAt_tail g cond k hne]
    · rw [hg.name l hl, hg.pos l hl]
      by_cases hlb : l = b
      · subst hlb
        refine ⟨r, ?_, exit_head (hused l hl).1 (hused l hl).2 hne cond k⟩
        rwa [(insertIfThenAt_head g cond k (hused l hl).1 (hused l hl).2).1]
      · obtain ⟨q, hcode, hexit⟩ := hm.blocks l hl
        obtain ⟨hbody, hterm⟩ := insertIfThenAt_of_ne g cond k hlb (hused l hl).1 (hused l hl).2
        refine ⟨q, ?_, Exit.transport hg (hg.name l hl)
          (fun d _ => replaces_insertIfThenAt hl hlb hthen htail cond k) hterm hexit⟩
        rwa [hbody]
  · rintro l (rfl | rfl | hl) p hp e he
    · rw [insertIfThenAt_thenBB] at hp
      cases hp
    · rw [insertIfThenAt_tail g cond k hne] at hp
      cases hp
    · rw [insertIfThenAt_phis g cond k (hused l hl).1 (hused l hl).2] at hp
      split at hp
      · obtain ⟨p', hp', rfl⟩ := List.mem_map.mp hp
        rcases mem_setIncomingBlock he with he | he
        · exact .inr (.inl he)
        · exact hg.used _ (hm.incoming_used l hl p' hp' e he)
      · exact hg.used _ (hm.incoming_used l hl p hp e he)

end Split

/-- A new block between `u` and `v` at the place `r`. -/
def addBlock (lay : Layout Op Name Label Val Name' Label') (u v n : Label')
    (r : Pos Op Name Label Val) :
    Layout Op Name Label Val Name' Label' where
  used l := l = n ∨ lay.used l
  pos := Function.update lay.pos n r
  name := Function.update lay.name n (lay.name u)
  rank := Function.update (fun l => 2 * lay.rank l + 1) n
    (if lay.rank v < lay.rank u then 2 * lay.rank v + 2 else 0)

section Edge

variable {u v n : Label'} {r : Pos Op Name Label Val}

section Layout

omit [DecidableEq Label]

theorem addBlock_self : (addBlock lay u v n r).pos n = r ∧ (addBlock lay u v n r).name n =
    lay.name u ∧
    (addBlock lay u v n r).rank n = if lay.rank v < lay.rank u then 2 * lay.rank v + 2 else 0 := by
  simp only [addBlock, Function.update_self, and_self]

theorem addBlock_of_ne (h : l ≠ n) : (addBlock lay u v n r).pos l = lay.pos l ∧
    (addBlock lay u v n r).name l = lay.name l ∧
    (addBlock lay u v n r).rank l = 2 * lay.rank l + 1 := by
  simp only [addBlock, Function.update_of_ne h, and_self]

theorem addBlock_grows (hn : ¬ lay.used n) : Grows lay (addBlock lay u v n r) := by
  have hne : ∀ l, lay.used l → l ≠ n := fun l hl h => hn (h ▸ hl)
  exact ⟨fun l hl => .inr hl, fun l hl => (addBlock_of_ne (hne l hl)).1,
    fun l hl => (addBlock_of_ne (hne l hl)).2.1⟩

variable (lay u v n r) in
theorem addBlock_name (l : Label') : ∃ l', (addBlock lay u v n r).name l = lay.name l' := by
  by_cases h : l = n
  · rw [h]
    exact ⟨u, addBlock_self.2.1⟩
  · exact ⟨l, (addBlock_of_ne h).2.1⟩

end Layout

section Blocks

omit [DecidableEq Label]

variable (g)

theorem splitEdge_new : (splitEdge g u v n).blocks n = ⟨[], [], .br v⟩ := setBlock_self

theorem splitEdge_of_ne (hn : l ≠ n) :
    ((splitEdge g u v n).blocks l).body = (g.blocks l).body ∧
    ((splitEdge g u v n).blocks l).term =
      (if l = u then setSuccessor v n (g.blocks u).term else (g.blocks l).term) ∧
    ((splitEdge g u v n).blocks l).phis =
      if l = v then (g.blocks l).phis.map (setIncomingBlock u n) else (g.blocks l).phis := by
  have hphis : ((mapPhis g [v] (setIncomingBlock u n)).blocks l).phis =
      if l = v then (g.blocks l).phis.map (setIncomingBlock u n) else (g.blocks l).phis := by
    by_cases h : l = v
    · rw [mapPhis_of_mem (List.mem_singleton.mpr h), if_pos h]
    · rw [mapPhis_of_notMem fun hl => h (List.mem_singleton.mp hl), if_neg h]
  unfold splitEdge
  rw [setBlock_of_ne hn, ← hphis]
  by_cases hu : l = u
  · subst hu
    rw [setTerm_self, if_pos rfl]
    exact ⟨(mapPhis_body g _ _ l).1, rfl, rfl⟩
  · rw [setTerm_of_ne hu, if_neg hu]
    exact ⟨(mapPhis_body g _ _ l).1, (mapPhis_body g _ _ l).2, rfl⟩

end Blocks

omit [DecidableEq Label] in
/-- The edges that are left as they are. -/
theorem replaces_splitEdge (hl : lay.used l) (hn : ¬ lay.used n) {d : Label'} (hd : lay.used d)
    (hne : l ≠ u ∨ d ≠ v) : Replaces g (splitEdge g u v n) lay (addBlock lay u v n r) l l d := by
  have hnew : ∀ l, lay.used l → l ≠ n := fun l hl h => hn (h ▸ hl)
  refine ⟨(addBlock_grows hn).name l hl, fun hlt => ?_, ?_⟩
  · rw [(addBlock_of_ne (hnew l hl)).2.2, (addBlock_of_ne (hnew d hd)).2.2]
    omega
  · rw [(splitEdge_of_ne g (hnew d hd)).2.2]
    split
    · exact forall₂_kept (hne.resolve_right (not_not.mpr ‹d = v›)) (hnew l hl) _
    · exact List.forall₂_same.mpr fun _ _ => ⟨rfl, rfl⟩

/-- The new block goes on in place of `u`. -/
theorem replaces_splitEdge_new (hm : Maps hf ι added g lay) (hn : ¬ lay.used n) (hv : lay.used v) :
    Replaces g (splitEdge g u v n) lay (addBlock lay u v n r) u n v := by
  have hvn : v ≠ n := fun h => hn (h ▸ hv)
  refine ⟨addBlock_self.2.1, fun hlt => ?_, ?_⟩
  · rw [addBlock_self.2.2, (addBlock_of_ne hvn).2.2, if_pos hlt]
    exact Nat.lt_succ_self _
  · rw [(splitEdge_of_ne g hvn).2.2, if_pos rfl]
    exact forall₂_moved (Maps.incoming_ne hm hn hv)

omit [DecidableEq Label] in
/-- The block `u` goes on to the new block. -/
theorem stays_new (hu : u ≠ n) :
    Stays (splitEdge g u v n) (addBlock lay u v n r) u r n where
  used := .inl rfl
  pos := addBlock_self.1
  phis := by rw [splitEdge_new]
  name := by rw [addBlock_self.2.1, (addBlock_of_ne hu).2.1]
  rank := by
    rw [addBlock_self.2.2, (addBlock_of_ne hu).2.2]
    split <;> omega

omit [DecidableEq Label] in
theorem mem_succs_setSuccessor {t : Term Name' Label' Val} (ht : t.succs.Nodup) {d : Label'}
    (hd : d ∈ (setSuccessor v n t).succs) : d = n ∨ d ∈ t.succs ∧ d ≠ v := by
  cases t with
  | br dest =>
    by_cases hv : dest = v
    · simp only [setSuccessor, if_pos hv, Term.succs, List.mem_singleton] at hd
      exact .inl hd
    · simp only [setSuccessor, if_neg hv] at hd
      cases List.mem_singleton.mp hd
      exact .inr ⟨List.mem_singleton_self _, hv⟩
  | condBr cond ifTrue ifFalse =>
    have hne : ifTrue ≠ ifFalse := fun h => (List.nodup_cons.mp ht).1 (List.mem_singleton.mpr h)
    by_cases hv : ifTrue = v
    · simp only [setSuccessor, if_pos hv] at hd
      rcases List.mem_pair.mp hd with rfl | rfl
      · exact .inl rfl
      · exact .inr ⟨List.mem_cons_of_mem _ (List.mem_singleton_self _),
          fun h => hne (hv.trans h.symm)⟩
    · simp only [setSuccessor, if_neg hv] at hd
      rcases List.mem_pair.mp hd with rfl | rfl
      · exact .inr ⟨List.mem_cons_self, hv⟩
      · by_cases hv' : ifFalse = v
        · exact .inl (if_pos hv')
        · rw [if_neg hv']
          exact .inr ⟨List.mem_cons_of_mem _ (List.mem_singleton_self _), hv'⟩
  | ret value => cases hd

omit [DecidableEq Label] in
theorem succs_setSuccessor_ne_nil {t : Term Name' Label' Val} (h : t.succs ≠ []) :
    (setSuccessor v n t).succs ≠ [] := by
  cases t with
  | br dest => exact List.cons_ne_nil _ _
  | condBr cond ifTrue ifFalse =>
    by_cases hv : ifTrue = v
    · simp [setSuccessor, hv, Term.succs]
    · simp [setSuccessor, hv, Term.succs]
  | ret value => exact absurd rfl h

omit [DecidableEq Label] in
theorem mem_setSuccessor_of_ne {t : Term Name' Label' Val} {d : Label'} (hd : d ∈ t.succs)
    (hv : d ≠ v) :
    d ∈ (setSuccessor v n t).succs := by
  cases t with
  | br dest =>
    cases List.mem_singleton.mp hd
    simp [setSuccessor, hv, Term.succs]
  | condBr cond ifTrue ifFalse =>
    by_cases ht : ifTrue = v
    · rcases List.mem_pair.mp hd with rfl | rfl
      · exact absurd ht hv
      · simp [setSuccessor, ht, Term.succs]
    · rcases List.mem_pair.mp hd with rfl | rfl
      · simp [setSuccessor, ht, Term.succs]
      · simp [setSuccessor, ht, hv, Term.succs]
  | ret value => cases hd

omit [DecidableEq Label] in
theorem nodup_setSuccessor {t : Term Name' Label' Val} (ht : t.succs.Nodup) (hn : n ∉ t.succs) :
    (setSuccessor v n t).succs.Nodup := by
  cases t with
  | br dest => exact List.nodup_singleton _
  | condBr cond ifTrue ifFalse =>
    simp only [Term.succs, List.mem_pair, not_or] at hn
    have hne : ifTrue ≠ ifFalse := fun h => (List.nodup_cons.mp ht).1 (List.mem_singleton.mpr h)
    by_cases hv : ifTrue = v
    · simp [setSuccessor, hv, Term.succs, hn.2]
    · by_cases hv' : ifFalse = v
      · simp [setSuccessor, hv, hv', Term.succs, Ne.symm hn.1]
      · simp [setSuccessor, hv, hv', Term.succs, hne]
  | ret value => exact List.nodup_nil

/-- Where the edge stays at a place, the new block does, too. -/
theorem exit_new_of_stays (hm : Maps hf ι added g lay) (hn : ¬ lay.used n) (h : Stays g lay u r v) :
    Exit hf (splitEdge g u v n) (addBlock lay u v n r) n r := by
  refine .stays ?_ ?_ <;> rw [splitEdge_new]
  · exact List.cons_ne_nil _ _
  · intro d hd
    cases List.mem_singleton.mp hd
    exact Stays.transport (addBlock_grows hn) (replaces_splitEdge_new hm hn h.used) h

/-- Where it enters a block, the new block is on the way there. -/
theorem exit_new_of_crosses (hm : Maps hf ι added g lay) (hn : ¬ lay.used n) {a b : Label}
    (h : Crosses hf g lay u a b v) :
    Exit hf (splitEdge g u v n) (addBlock lay u v n (.edge a b)) n (.edge a b) := by
  refine .goes (.edge a b) ?_ ?_ <;> rw [splitEdge_new]
  · exact List.cons_ne_nil _ _
  · intro d hd
    cases List.mem_singleton.mp hd
    exact Crosses.transport (addBlock_grows hn) (replaces_splitEdge_new hm hn h.used) h

/-- What the block `u` does now. -/
theorem exits_splitEdge (hm : Maps hf ι added g lay) (hu : lay.used u) (hn : ¬ lay.used n)
    (hv : v ∈ (g.blocks u).term.succs) (hnd : (g.blocks u).term.succs.Nodup)
    {q : Pos Op Name Label Val}
    (hexit : Exit hf g lay u q) :
    ∃ r, r.block = q.block ∧ Exit hf (splitEdge g u v n) (addBlock lay u v n r) u q ∧
      Exit hf (splitEdge g u v n) (addBlock lay u v n r) n r := by
  have hun : u ≠ n := fun h => hn (h ▸ hu)
  have hterm : ((splitEdge g u v n).blocks u).term = setSuccessor v n (g.blocks u).term := by
    rw [(splitEdge_of_ne g hun).2.1, if_pos rfl]
  have hother : ∀ {a b d r}, Crosses hf g lay u a b d → d ≠ v →
      Crosses hf (splitEdge g u v n) (addBlock lay u v n r) u a b d := fun h hdv =>
    Crosses.transport (addBlock_grows hn) (replaces_splitEdge hu hn h.used (.inr hdv)) h
  cases hexit with
  | ret h h' =>
    rw [h'] at hv
    cases hv
  | @branch b cond c c' d d' h h' hd hd' =>
    rw [h'] at hv hnd hterm
    have hne : d ≠ d' := fun h => (List.nodup_cons.mp hnd).1 (List.mem_singleton.mpr h)
    rcases List.mem_pair.mp hv with rfl | rfl
    · refine ⟨.edge b c, rfl, .branch h ?_ (.inr (stays_new hun)) (hother hd' hne.symm),
        exit_new_of_crosses hm hn hd⟩
      rw [hterm, (addBlock_of_ne hun).2.1]
      exact if_pos rfl
    · refine ⟨.edge b c', rfl, .branch h ?_ (hother hd hne) (.inr (stays_new hun)),
        exit_new_of_crosses hm hn hd'⟩
      rw [hterm, (addBlock_of_ne hun).2.1]
      simp only [setSuccessor, if_neg hne, if_true]
  | @goes _ a b hq hs hd =>
    refine ⟨.edge a b, hq.block_eq.symm, .goes hq ?_ ?_, exit_new_of_crosses hm hn (hd v hv)⟩ <;> rw
      [hterm]
    · exact succs_setSuccessor_ne_nil hs
    · intro d hl
      rcases mem_succs_setSuccessor hnd hl with rfl | ⟨hl, hdv⟩
      · exact .inr (stays_new hun)
      · exact hother (hd d hl) hdv
  | stays hs hd =>
    refine ⟨_, rfl, .stays ?_ ?_, exit_new_of_stays hm hn (hd v hv)⟩ <;> rw [hterm]
    · exact succs_setSuccessor_ne_nil hs
    · intro d hl
      rcases mem_succs_setSuccessor hnd hl with rfl | ⟨hl, hdv⟩
      · exact stays_new hun
      · exact Stays.transport (addBlock_grows hn)
          (replaces_splitEdge hu hn (hd d hl).used (.inr hdv)) (hd d hl)

/-- A block on an edge. -/
theorem maps_splitEdge (hm : Maps hf ι added g lay) (hu : lay.used u) (hn : ¬ lay.used n)
    (hv : v ∈ (g.blocks u).term.succs) (hnd : (g.blocks u).term.succs.Nodup) :
    ∃ r, r.block = (lay.pos u).block ∧ Maps hf ι added (splitEdge g u v n)
      (addBlock lay u v n r) := by
  obtain ⟨q, hcode, hexit⟩ := hm.blocks u hu
  obtain ⟨r, hr, hexit', hnew⟩ := exits_splitEdge hm hu hn hv hnd hexit
  have hg : Grows lay (addBlock lay u v n r) := addBlock_grows hn
  have hused : ∀ l, lay.used l → l ≠ n := fun l hl h => hn (h ▸ hl)
  refine ⟨r, hr.trans hcode.block_eq, maps_of_grows hm hg rfl (addBlock_name lay u v n r) ?_ ?_⟩
  · rintro l (rfl | hl)
    · refine ⟨r, ?_, hnew⟩
      rw [splitEdge_new, addBlock_self.1]
      exact .done r
    · obtain ⟨hbody, hterm, -⟩ := splitEdge_of_ne (u := u) (v := v) g (hused l hl)
      rw [hg.name l hl, hg.pos l hl, hbody]
      by_cases hlu : l = u
      · subst hlu
        exact ⟨q, hcode, hexit'⟩
      · obtain ⟨q, hcode, hexit⟩ := hm.blocks l hl
        rw [if_neg hlu] at hterm
        exact ⟨q, hcode, Exit.transport hg (hg.name l hl)
          (fun d _ hd => replaces_splitEdge hl hn hd (.inl hlu)) hterm hexit⟩
  · rintro l (rfl | hl) p hp e he
    · rw [splitEdge_new] at hp
      cases hp
    · rw [(splitEdge_of_ne g (hused l hl)).2.2] at hp
      split at hp
      · obtain ⟨p', hp', rfl⟩ := List.mem_map.mp hp
        rcases mem_setIncomingBlock he with he | he
        · exact .inl he
        · exact hg.used _ (hm.incoming_used l hl p' hp' e he)
      · exact hg.used _ (hm.incoming_used l hl p hp e he)

end Edge

end Maps

end TinyQuanta.CodeEdits
