import TinyQuanta.PassPreserves
import TinyQuanta.ProbeBlocks

/-!
# The graph of the instrumented code

`ProbeBlocks` numbers the blocks as they are made, and `ProbeInsertion` names them by the
probe and their part in it. Under a one-to-one map of the names to the numbers, each
operation on the code is the one on the graph, and so is the whole stage. Parallel edges
make no difference here: both take the first one.
-/
namespace TinyQuanta.ProbeGraph

open Planner (Block)
open Ssa CodeMap ProbeInsertion InsertionPreserves
open ProbeBlocks (freshBlock lt_freshBlock redirect rewire)

variable {Op Name Val : Type}

/-! ## Pictures -/

def returns {Label : Type} : Term Name Label Val → Bool
  | .ret _ => true
  | _ => false

/-- The blocks that have been `made`, under the numbers `φ`, and the edges between them. -/
structure Pictures (φ : NewLabel Block → Block) (made : NewLabel Block → Prop)
    (s : Build Op Name Block Val) (G : Planner.Func) : Prop where
  below : ∀ k q, s.next ≤ k → ¬ made (.new k q)
  blocks : ∀ b, b ∈ G.blocks ↔ ∃ l, made l ∧ φ l = b
  inj : ∀ l l', made l → made l' → φ l = φ l' → l = l'
  succs : ∀ l, made l → G.succs (φ l) = (s.func.blocks l).term.succs.map φ
  closed : ∀ l, made l → ∀ d ∈ (s.func.blocks l).term.succs, made d
  isRet : ∀ l, made l → G.isRet (φ l) = returns (s.func.blocks l).term

/-- Blocks keep their numbers. -/
def Extends (φ : NewLabel Block → Block) (made : NewLabel Block → Prop)
    (φ' : NewLabel Block → Block) (made' : NewLabel Block → Prop) : Prop :=
  ∀ l, made l → made' l ∧ φ' l = φ l

section Pictures

variable {φ φ' : NewLabel Block → Block} {made made' : NewLabel Block → Prop}
  {s t : Build Op Name Block Val} {G : Planner.Func} {l : NewLabel Block}

theorem Extends.refl (φ : NewLabel Block → Block) (made : NewLabel Block → Prop) :
    Extends φ made φ made := fun _ hl => ⟨hl, rfl⟩

theorem Extends.trans {φ'' : NewLabel Block → Block} {made'' : NewLabel Block → Prop}
    (h : Extends φ made φ' made') (h' : Extends φ' made' φ'' made'') : Extends φ made φ'' made'' :=
  fun l hl => ⟨(h' l (h l hl).1).1, (h' l (h l hl).1).2.trans (h l hl).2⟩

theorem Pictures.mem (h : Pictures φ made s G) (hl : made l) : φ l ∈ G.blocks :=
  (h.blocks _).mpr ⟨l, hl, rfl⟩

theorem Pictures.new_ne (h : Pictures φ made s G) (hl : made l) (q : Part) : l ≠ .new s.next q := by
  rintro rfl
  exact h.below _ q le_rfl hl

/-- Instructions are not in the picture. -/
theorem Pictures.of_terms (h : Pictures φ made s G) {g : NewFunc Op Name Block Val}
    (hterm : ∀ l, (g.blocks l).term = (s.func.blocks l).term) : Pictures φ made ⟨g, s.next⟩ G where
  below := h.below
  blocks := h.blocks
  inj := h.inj
  succs l hl := by rw [hterm]; exact h.succs l hl
  closed l hl := by rw [hterm]; exact h.closed l hl
  isRet l hl := by rw [hterm]; exact h.isRet l hl

theorem fresh_notMem (G : Planner.Func) : freshBlock G ∉ G.blocks :=
  fun h => absurd (lt_freshBlock h) (Nat.lt_irrefl _)

theorem fresh_succ_notMem (G : Planner.Func) : freshBlock G + 1 ∉ G.blocks :=
  fun h => absurd (lt_freshBlock h) (Nat.not_lt.mpr (Nat.le_succ _))

theorem Pictures.ne_fresh (h : Pictures φ made s G) (hl : made l) : φ l ≠ freshBlock G :=
  fun he => fresh_notMem G (he ▸ h.mem hl)

theorem Pictures.ne_fresh_succ (h : Pictures φ made s G) (hl : made l) :
    φ l ≠ freshBlock G + 1 :=
  fun he => fresh_succ_notMem G (he ▸ h.mem hl)

theorem Pictures.map_succs (h : Pictures φ made s G) (hl : made l)
    (hold : ∀ d, made d → φ' d = φ d) :
    (s.func.blocks l).term.succs.map φ' = G.succs (φ l) := by
  rw [h.succs l hl]
  exact List.map_congr_left fun d hd => hold d (h.closed l hl d hd)

theorem Pictures.below_succ (h : Pictures φ made s G) (ps : List Part) (k : ℕ) (q : Part)
    (hk : s.next + 1 ≤ k) :
    (.new k q : NewLabel Block) ∉ ps.map (NewLabel.new s.next) ∧ ¬ made (.new k q) := by
  refine ⟨fun hmem => ?_, h.below k q (Nat.le_of_succ_le hk)⟩
  obtain ⟨p, -, he⟩ := List.mem_map.mp hmem
  obtain ⟨rfl, -⟩ := NewLabel.new.inj he
  exact absurd hk (Nat.not_succ_le_self _)

/-- New blocks with new numbers. -/
theorem Pictures.rewire (h : Pictures φ made s G) {ns : List (NewLabel Block)} {new : List Block}
    {succs : Block → List Block} {isRet : Block → Bool} (hnew : ns.map φ' = new) (hnd : new.Nodup)
    (hfresh : ∀ b ∈ new, b ∉ G.blocks) (hold : ∀ l, made l → φ' l = φ l)
    (hbelow : ∀ k q, t.next ≤ k → .new k q ∉ ns ∧ ¬ made (.new k q))
    (hclosed : ∀ l, (l ∈ ns ∨ made l) → ∀ d ∈ (t.func.blocks l).term.succs, d ∈ ns ∨ made d)
    (hsuccs : ∀ l, (l ∈ ns ∨ made l) → succs (φ' l) = (t.func.blocks l).term.succs.map φ')
    (hret : ∀ l, (l ∈ ns ∨ made l) → isRet (φ' l) = returns (t.func.blocks l).term) :
    Pictures φ' (fun l => l ∈ ns ∨ made l) t (ProbeBlocks.rewire G new succs isRet) := by
  subst hnew
  have hblocks : ∀ b, b ∈ (ProbeBlocks.rewire G (ns.map φ') succs isRet).blocks ↔
      ∃ l, (l ∈ ns ∨ made l) ∧ φ' l = b := by
    intro b
    refine List.mem_append.trans ⟨?_, ?_⟩
    · rintro (hb | hb)
      · obtain ⟨l, hl, rfl⟩ := List.mem_map.mp hb
        exact ⟨l, .inl hl, rfl⟩
      · obtain ⟨l, hl, rfl⟩ := (h.blocks b).mp hb
        exact ⟨l, .inr hl, hold l hl⟩
    · rintro ⟨l, hl | hl, rfl⟩
      · exact .inl (List.mem_map_of_mem hl)
      · exact .inr (hold l hl ▸ h.mem hl)
  have hcross : ∀ l l', l ∈ ns → made l' → φ' l ≠ φ' l' := by
    intro l l' hl hl' he
    refine hfresh _ (List.mem_map_of_mem hl) ?_
    rw [he, hold l' hl']
    exact h.mem hl'
  refine ⟨fun k q hk => not_or.mpr (hbelow k q hk), hblocks, ?_, fun l hl => ?_, hclosed, hret⟩
  · rintro l l' (hl | hl) (hl' | hl') he
    · exact List.inj_on_of_nodup_map hnd hl hl' he
    · exact absurd he (hcross l l' hl hl')
    · exact absurd he.symm (hcross l' l hl' hl)
    · rw [hold l hl, hold l' hl'] at he
      exact h.inj l l' hl hl' he
  · refine (List.filter_eq_self.mpr fun b hb => ?_).trans (hsuccs l hl)
    rw [hsuccs l hl] at hb
    obtain ⟨d, hd, rfl⟩ := List.mem_map.mp hb
    exact decide_eq_true ((hblocks _).mpr ⟨d, hclosed l hl d hd, rfl⟩)

end Pictures

/-! ## Operations -/

section Operations

variable {φ : NewLabel Block → Block} {made : NewLabel Block → Prop}
  {s : Build Op Name Block Val} {G : Planner.Func} {u v b : NewLabel Block}

/-- Both change the first edge. -/
theorem map_setSuccessor {n : NewLabel Block} {t : Term (NewName Name) (NewLabel Block) Val}
    (hinj : ∀ d ∈ t.succs, φ d = φ v → d = v) :
    (CfgRewrite.setSuccessor v n t).succs.map φ = redirect (φ v) (φ n) (t.succs.map φ) := by
  cases t with
  | br dest =>
    have hd : φ dest = φ v ↔ dest = v := ⟨hinj dest (by simp [Term.succs]), congrArg φ⟩
    by_cases h : dest = v <;> simp [CfgRewrite.setSuccessor, Term.succs, redirect, hd, h]
  | condBr cond ifTrue ifFalse =>
    have ht : φ ifTrue = φ v ↔ ifTrue = v := ⟨hinj ifTrue (by simp [Term.succs]), congrArg φ⟩
    have hf : φ ifFalse = φ v ↔ ifFalse = v := ⟨hinj ifFalse (by simp [Term.succs]), congrArg φ⟩
    by_cases h : ifTrue = v
    · simp [CfgRewrite.setSuccessor, Term.succs, redirect, h]
    · by_cases h' : ifFalse = v <;>
        simp [CfgRewrite.setSuccessor, Term.succs, redirect, ht, hf, h, h']
  | ret value => rfl

theorem returns_setSuccessor (v n : NewLabel Block)
    (t : Term (NewName Name) (NewLabel Block) Val) :
    returns (CfgRewrite.setSuccessor v n t) = returns t := by
  cases t with
  | br dest => rfl
  | condBr cond ifTrue ifFalse =>
    by_cases h : ifTrue = v <;> simp [CfgRewrite.setSuccessor, h, returns]
  | ret value => rfl

theorem mem_setSuccessor {n d : NewLabel Block} {t : Term (NewName Name) (NewLabel Block) Val}
    (h : d ∈ (CfgRewrite.setSuccessor v n t).succs) : d = n ∨ d ∈ t.succs := by
  cases t with
  | br dest =>
    by_cases hd : dest = v <;> simp_all [CfgRewrite.setSuccessor, Term.succs]
  | condBr cond ifTrue ifFalse =>
    by_cases ht : ifTrue = v
    · simp only [CfgRewrite.setSuccessor, ht, if_true, Term.succs, List.mem_pair] at h ⊢
      exact h.imp_right .inr
    · simp only [CfgRewrite.setSuccessor, ht, if_false, Term.succs, List.mem_pair] at h ⊢
      rcases h with h | h
      · exact .inr (.inl h)
      · split at h
        · exact .inl h
        · exact .inr (.inr h)
  | ret value => exact .inr h

theorem Pictures.redirect (h : Pictures φ made s G) (hu : made u) (hv : made v)
    {φ' : NewLabel Block → Block} (hold : ∀ l, made l → φ' l = φ l) (n : NewLabel Block)
    {t : Term (NewName Name) (NewLabel Block) Val} (ht : t.succs = (s.func.blocks u).term.succs) :
    (CfgRewrite.setSuccessor v n t).succs.map φ' =
      ProbeBlocks.redirect (φ v) (φ' n) (G.succs (φ u)) := by
  have hinj : ∀ d ∈ t.succs, φ' d = φ' v → d = v := by
    intro d hd he
    rw [ht] at hd
    rw [hold d (h.closed u hu d hd), hold v hv] at he
    exact h.inj d v (h.closed u hu d hd) hv he
  rw [map_setSuccessor hinj, ht, h.map_succs hu hold, hold v hv]

/-- A block on an edge. -/
theorem Pictures.splitEdge (h : Pictures φ made s G) (hu : made u) (hv : made v) (p : Part) :
    ∃ φ' made', Pictures φ' made' (ProbeInsertion.splitEdge s u v p)
        (ProbeBlocks.splitEdge G (φ u) (φ v)).1 ∧
      Extends φ made φ' made' ∧ made' (.new s.next p) ∧
      φ' (.new s.next p) = (ProbeBlocks.splitEdge G (φ u) (φ v)).2 := by
  let n : NewLabel Block := .new s.next p
  let φ' := Function.update φ n (freshBlock G)
  have hn : φ' n = freshBlock G := Function.update_self _ _ _
  have hne : ∀ l, made l → l ≠ n := fun l hl => h.new_ne hl p
  have hold : ∀ l, made l → φ' l = φ l := fun l hl => Function.update_of_ne (hne l hl) _ _
  have hterm : ∀ l, made l → ((ProbeInsertion.splitEdge s u v p).func.blocks l).term =
      if l = u then CfgRewrite.setSuccessor v n (s.func.blocks u).term
      else (s.func.blocks l).term := fun l hl =>
    (CodeEdits.splitEdge_of_ne s.func (hne l hl)).2.1
  have hnew : ((ProbeInsertion.splitEdge s u v p).func.blocks n).term = .br v :=
    congrArg Ssa.Block.term (CodeEdits.splitEdge_new s.func)
  refine ⟨φ', fun l => l ∈ [n] ∨ made l, ?_, fun l hl => ⟨.inr hl, hold l hl⟩,
    .inl List.mem_cons_self, hn⟩
  refine h.rewire (congrArg (fun b => [b]) hn) (List.nodup_singleton _) ?_ hold
    (h.below_succ [p]) ?_ ?_ ?_
  · simpa using fresh_notMem G
  · rintro l (hl | hl) d hd
    · cases List.mem_singleton.mp hl
      rw [hnew] at hd
      cases List.mem_singleton.mp hd
      exact .inr hv
    · rw [hterm l hl] at hd
      split at hd
      · exact (mem_setSuccessor hd).imp List.mem_singleton.mpr (h.closed u hu d)
      · exact .inr (h.closed l hl d hd)
  · rintro l (hl | hl)
    · cases List.mem_singleton.mp hl
      rw [hnew, hn, Function.update_of_ne (h.ne_fresh hu).symm, Function.update_self]
      exact congrArg (fun b => [b]) (hold v hv).symm
    · rw [hterm l hl, hold l hl]
      split
      · subst l
        rw [Function.update_self, h.redirect hu hv hold n rfl, hn]
      · rename_i hlu
        rw [Function.update_of_ne (fun he => hlu (h.inj l u hl hu he)),
          Function.update_of_ne (h.ne_fresh hl), h.map_succs hl hold]
  · rintro l (hl | hl)
    · cases List.mem_singleton.mp hl
      rw [hnew, hn, Function.update_self]
      rfl
    · rw [hterm l hl, hold l hl, Function.update_of_ne (h.ne_fresh hl), h.isRet l hl]
      split
      · subst l
        exact (returns_setSuccessor v n _).symm
      · rfl

/-- A block that is run if a condition holds, and the rest of `b`. -/
theorem Pictures.insertIfThenAt (h : Pictures φ made s G) (hb : made b)
    (cond : NewOperand Name Val) (i : ℕ) {p q : Part} (hpq : q ≠ p) :
    ∃ φ' made', Pictures φ' made'
        ⟨CodeEdits.insertIfThenAt s.func cond b i (.new s.next p) (.new s.next q), s.next + 1⟩
        (ProbeBlocks.splitBlockAndInsertIfThen G (φ b)).1 ∧
      Extends φ made φ' made' ∧
      (made' (.new s.next p) ∧
        φ' (.new s.next p) = (ProbeBlocks.splitBlockAndInsertIfThen G (φ b)).2.1) ∧
      made' (.new s.next q) ∧
        φ' (.new s.next q) = (ProbeBlocks.splitBlockAndInsertIfThen G (φ b)).2.2 := by
  let n : NewLabel Block := .new s.next p
  let t : NewLabel Block := .new s.next q
  let φ' := Function.update (Function.update φ t (freshBlock G + 1)) n (freshBlock G)
  have htn : t ≠ n := by simpa [t, n] using hpq
  have hn : φ' n = freshBlock G := Function.update_self _ _ _
  have ht : φ' t = freshBlock G + 1 := by
    simp only [φ', Function.update_of_ne htn, Function.update_self]
  have hne : ∀ l, made l → l ≠ n := fun l hl => h.new_ne hl p
  have hne' : ∀ l, made l → l ≠ t := fun l hl => h.new_ne hl q
  have hold : ∀ l, made l → φ' l = φ l := fun l hl => by
    simp only [φ', Function.update_of_ne (hne l hl), Function.update_of_ne (hne' l hl)]
  let g := CodeEdits.insertIfThenAt s.func cond b i n t
  have hthen : (g.blocks n).term = .br t :=
    congrArg Ssa.Block.term (CodeEdits.insertIfThenAt_thenBB s.func cond i)
  have htail : (g.blocks t).term = (s.func.blocks b).term := by
    simp only [g, CodeEdits.insertIfThenAt_tail s.func cond i htn]
  have hhead : (g.blocks b).term = .condBr cond n t :=
    (CodeEdits.insertIfThenAt_head s.func cond i (hne b hb) (hne' b hb)).2
  have hrest : ∀ l, made l → l ≠ b → (g.blocks l).term = (s.func.blocks l).term := fun l hl hlb =>
    (CodeEdits.insertIfThenAt_of_ne s.func cond i hlb (hne l hl) (hne' l hl)).2
  refine ⟨φ', fun l => l ∈ [n, t] ∨ made l, ?_, fun l hl => ⟨.inr hl, hold l hl⟩,
    ⟨.inl (by simp [n]), hn⟩, .inl (by simp [t]), ht⟩
  have hcases : ∀ l, l ∈ [n, t] ∨ made l → l = n ∨ l = t ∨ l = b ∨ made l ∧ l ≠ b := by
    rintro l (hl | hl)
    · exact (List.mem_pair.mp hl).imp_right .inl
    · by_cases hlb : l = b
      · exact .inr (.inr (.inl hlb))
      · exact .inr (.inr (.inr ⟨hl, hlb⟩))
  refine h.rewire (by simp [hn, ht]) (by simp) ?_ hold (h.below_succ [p, q]) ?_ ?_ ?_
  · simpa using ⟨fresh_notMem G, fresh_succ_notMem G⟩
  · intro l hl d hd
    rcases hcases l hl with rfl | rfl | rfl | ⟨hl, hlb⟩
    · rw [hthen] at hd
      exact .inl (by simp [List.mem_singleton.mp hd])
    · rw [htail] at hd
      exact .inr (h.closed b hb d hd)
    · rw [hhead] at hd
      exact .inl hd
    · rw [hrest l hl hlb] at hd
      exact .inr (h.closed l hl d hd)
  · intro l hl
    rcases hcases l hl with rfl | rfl | rfl | ⟨hl, hlb⟩
    · rw [hthen, hn, Function.update_of_ne (h.ne_fresh hb).symm, Function.update_self]
      exact congrArg (fun x => [x]) ht.symm
    · rw [htail, ht, h.map_succs hb hold, Function.update_of_ne (h.ne_fresh_succ hb).symm,
        Function.update_of_ne (Nat.succ_ne_self _), Function.update_self]
    · rw [hhead, hold l hb, Function.update_self]
      simp [Term.succs, hn, ht]
    · rw [hrest l hl hlb, hold l hl, h.map_succs hl hold,
        Function.update_of_ne (fun he => hlb (h.inj l b hl hb he)),
        Function.update_of_ne (h.ne_fresh hl), Function.update_of_ne (h.ne_fresh_succ hl)]
  · intro l hl
    rcases hcases l hl with rfl | rfl | rfl | ⟨hl, hlb⟩
    · rw [hthen, hn, Function.update_of_ne (h.ne_fresh hb).symm, Function.update_self]
      rfl
    · rw [htail, ht, Function.update_of_ne (h.ne_fresh_succ hb).symm,
        Function.update_of_ne (Nat.succ_ne_self _), Function.update_self, h.isRet b hb]
    · rw [hhead, hold l hb, Function.update_self]
      rfl
    · rw [hrest l hl hlb, hold l hl, Function.update_of_ne (fun he => hlb (h.inj l b hl hb he)),
        Function.update_of_ne (h.ne_fresh hl), Function.update_of_ne (h.ne_fresh_succ hl),
        h.isRet l hl]

theorem succs_rename (ρ : NewName Name → NewName Name)
    (t : Term (NewName Name) (NewLabel Block) Val) :
    (t.rename ρ id).succs = t.succs ∧ returns (t.rename ρ id) = returns t := by
  cases t <;> exact ⟨rfl, rfl⟩

/-- The clone of `b`, and the branch to it at the end of `u`. -/
theorem Pictures.cloneOn [DecidableEq Name] (h : Pictures φ made s G) (hu : made u) (hb : made b)
    (hret : returns (s.func.blocks u).term = false) (fresh : NewName Name → NewName Name)
    (cond : NewOperand Name Val) (p : Part) :
    ∃ φ' made', Pictures φ' made'
        ⟨CloneEdit.cloneOn s.func u b (.new s.next p) fresh cond, s.next + 1⟩
        (ProbeBlocks.cloneSelfLoop G (φ u) (φ b)).1 ∧
      Extends φ made φ' made' ∧ made' (.new s.next p) ∧
      φ' (.new s.next p) = (ProbeBlocks.cloneSelfLoop G (φ u) (φ b)).2 := by
  let n : NewLabel Block := .new s.next p
  let φ' := Function.update φ n (freshBlock G)
  have hn : φ' n = freshBlock G := Function.update_self _ _ _
  have hne : ∀ l, made l → l ≠ n := fun l hl => h.new_ne hl p
  have hold : ∀ l, made l → φ' l = φ l := fun l hl => Function.update_of_ne (hne l hl) _ _
  let g := CloneEdit.cloneOn s.func u b n fresh cond
  have hterm : ∀ l, made l → (g.blocks l).term =
      if l = u then .condBr cond n b else (s.func.blocks l).term := fun l hl =>
    (CloneEdit.cloneOn_of_ne s.func cond (hne l hl)).2.1
  obtain ⟨t, hnew, hsuccs, hreturns⟩ : ∃ t, (g.blocks n).term = CfgRewrite.setSuccessor b n t ∧
      t.succs = (s.func.blocks b).term.succs ∧ returns t = returns (s.func.blocks b).term := by
    have hself : (g.blocks n).term = _ :=
      congrArg Ssa.Block.term (CloneEdit.cloneOn_self s.func cond (hne u hu).symm)
    exact ⟨_, hself, succs_rename _ _⟩
  refine ⟨φ', fun l => l ∈ [n] ∨ made l, ?_, fun l hl => ⟨.inr hl, hold l hl⟩,
    .inl List.mem_cons_self, hn⟩
  refine h.rewire (congrArg (fun b => [b]) hn) (List.nodup_singleton _) ?_ hold
    (h.below_succ [p]) ?_ ?_ ?_
  · simpa using fresh_notMem G
  · rintro l (hl | hl) d hd
    · cases List.mem_singleton.mp hl
      rw [hnew] at hd
      exact (mem_setSuccessor hd).imp List.mem_singleton.mpr fun hd => h.closed b hb d (hsuccs ▸ hd)
    · rw [hterm l hl] at hd
      split at hd
      · rcases List.mem_pair.mp hd with rfl | rfl
        · exact .inl List.mem_cons_self
        · exact .inr hb
      · exact .inr (h.closed l hl d hd)
  · rintro l (hl | hl)
    · cases List.mem_singleton.mp hl
      rw [hnew, hn, Function.update_of_ne (h.ne_fresh hu).symm, Function.update_self,
        h.redirect hb hb hold n hsuccs, hn]
    · rw [hterm l hl, hold l hl]
      split
      · subst l
        rw [Function.update_self]
        simp [Term.succs, hn, hold b hb]
      · rename_i hlu
        rw [Function.update_of_ne (fun he => hlu (h.inj l u hl hu he)),
          Function.update_of_ne (h.ne_fresh hl), h.map_succs hl hold]
  · rintro l (hl | hl)
    · cases List.mem_singleton.mp hl
      rw [hnew, hn, Function.update_self, returns_setSuccessor, hreturns, h.isRet b hb]
    · rw [hterm l hl, hold l hl, Function.update_of_ne (h.ne_fresh hl), h.isRet l hl]
      split
      · subst l
        exact hret
      · rfl

end Operations

/-! ## Probes -/

section Probes

variable {φ : NewLabel Block → Block} {made : NewLabel Block → Prop}
  {s : Build Op Name Block Val} {G : Planner.Func} {u v b l : NewLabel Block}

theorem term_insertAt (g : NewFunc Op Name Block Val) (d : NewLabel Block) (i : ℕ)
    (is : List (NewInstr Op Name Val)) (l : NewLabel Block) :
    ((CodeEdits.insertAt g d i is).blocks l).term = (g.blocks l).term := by
  unfold CodeEdits.insertAt
  by_cases h : l = d
  · rw [h, CfgRewrite.setBlock_self]
  · rw [CfgRewrite.setBlock_of_ne h]

theorem term_insertAtPreheader (o : Options Op Val) (g : NewFunc Op Name Block Val)
    (preheader : Option Block) (is : List (NewInstr Op Name Val)) (l : NewLabel Block) :
    ((insertAtPreheader o g preheader is).blocks l).term = (g.blocks l).term := by
  cases preheader <;> exact term_insertAt g _ _ is l

theorem term_keepResidualSteps (k : ℕ) (iv : IndVar Name Val) (exitBlocks : List Block)
    (g : NewFunc Op Name Block Val) (l : NewLabel Block) :
    ((exitBlocks.foldl (fun g b => insertAtEnd g (.old b) (keepResidualSteps k iv)) g).blocks
      l).term = (g.blocks l).term := by
  induction exitBlocks generalizing g with
  | nil => rfl
  | cons b bs ih => exact (ih _).trans (term_insertAt g _ _ _ l)

theorem Pictures.insertCycleProbe (h : Pictures φ made s G) (o : Options Op Val) (hb : made b)
    (i : ℕ) (loopIterations : Option Slot) (loopThreshold : Option (Slot × Int)) :
    ∃ φ' made', Pictures φ' made'
        (ProbeInsertion.insertCycleProbe o s b i loopIterations loopThreshold)
        (ProbeBlocks.insertCycleProbe G (φ b)).1 ∧
      Extends φ made φ' made' ∧ made' (.new s.next .postInstrumentation) ∧
      φ' (.new s.next .postInstrumentation) = (ProbeBlocks.insertCycleProbe G (φ b)).2.2 := by
  let check : List (NewInstr Op Name Val) := cycleCheck o s.next loopIterations loopThreshold
  have hcheck : Pictures φ made ⟨CodeEdits.insertAt s.func b i check, s.next⟩ G :=
    h.of_terms (term_insertAt s.func b i check)
  obtain ⟨φ', made', h', hext, -, htail⟩ := hcheck.insertIfThenAt hb (temp s.next .commit)
    (i + check.length) (by decide : Part.postInstrumentation ≠ .pushBlock)
  exact ⟨φ', made', h'.of_terms (term_insertAt _ _ _ _), hext, htail⟩

/-- A check behind a condition, at the end of a block of the graph. -/
def probeIf (G : Planner.Func) (b : Block) : Planner.Func :=
  let t := ProbeBlocks.splitBlockAndInsertIfThen G b
  (ProbeBlocks.insertCycleProbe t.1 t.2.1).1

theorem Pictures.insertProbeIf (h : Pictures φ made s G) (o : Options Op Val) (hl : made l)
    (is : List (NewInstr Op Name Val)) (cond : NewOperand Name Val) {thenBB post : Part}
    (hparts : post ≠ thenBB) (loopIterations : Option Slot) (loopThreshold : Option (Slot × Int)) :
    ∃ φ' made', Pictures φ' made'
        (ProbeInsertion.insertProbeIf o s l is cond thenBB post loopIterations loopThreshold)
        (probeIf G (φ l)) ∧
      Extends φ made φ' made' := by
  have htest : Pictures φ made ⟨insertAtEnd s.func l is, s.next⟩ G :=
    h.of_terms (term_insertAt s.func l _ is)
  obtain ⟨φ₁, made₁, h₁, hext₁, ⟨hthen, hnum⟩, -⟩ := htest.insertIfThenAt hl cond
    ((insertAtEnd s.func l is).blocks l).body.length hparts
  obtain ⟨φ₂, made₂, h₂, hext₂, -⟩ := h₁.insertCycleProbe o hthen 0 loopIterations loopThreshold
  rw [hnum] at h₂
  exact ⟨φ₂, made₂, h₂, hext₁.trans hext₂⟩

theorem Pictures.insertThreshold (h : Pictures φ made s G) (o : Options Op Val) (hl : made l)
    (numIters : Int) (info : LoopInfo Name Block Val) (iv : IndVar Name Val) :
    ∃ φ' made', Pictures φ' made' (ProbeInsertion.insertThreshold o s l numIters info iv)
        (probeIf G (φ l)) ∧
      Extends φ made φ' made' := by
  let g := if info.isNested then insertPastAllocas o s.func
      (setSlot o (.residualSteps s.next) (Params.int32 (numIters * iv.stepValue)))
    else s.func
  have hg : ∀ l, (g.blocks l).term = (s.func.blocks l).term := by
    intro l
    simp only [g]
    split
    · exact term_insertAt s.func _ _ _ l
    · rfl
  have hinit := h.of_terms fun l =>
    (term_insertAtPreheader o g info.preheader (initThreshold o s.next info.isNested numIters iv)
      l).trans (hg l)
  exact hinit.insertProbeIf o hl (compareThreshold s.next iv) (temp s.next .commit)
    (by decide : Part.postLoop ≠ .loopThen) none
    (some (.loopThreshold s.next, Params.int32 (numIters * iv.stepValue)))

theorem Pictures.insertLoopProbe (h : Pictures φ made s G) (o : Options Op Val) (hl : made l)
    (p : LoopPlan Name Block Val) :
    ∃ φ' made', Pictures φ' made' (ProbeInsertion.insertLoopProbe o s l p) (probeIf G (φ l)) ∧
      Extends φ made φ' made' := by
  unfold ProbeInsertion.insertLoopProbe
  split
  · have hinit := h.of_terms (term_insertAtPreheader o s.func
      (if p.isNested then none else p.preheader) (setSlot o (.loopVariable s.next) 0))
    exact hinit.insertProbeIf o hl (countIteration o s.next p.numIters) (temp s.next .commit)
      (by decide : Part.postLoop ≠ .loopThen) (some (.loopVariable s.next)) none
  · rename_i iv _
    obtain ⟨φ', made', h', hext⟩ := h.insertThreshold o hl p.numIters p.toLoopInfo iv
    unfold insertThresholdProbe
    simp only
    split
    · exact ⟨φ', made', h'.of_terms (term_keepResidualSteps _ _ _ _), hext⟩
    · exact ⟨φ', made', h', hext⟩

theorem Pictures.insertProbesAt (h : Pictures φ made s G) (o : Options Op Val) (hb : made b)
    (start : ℕ) (is : List ℕ) :
    ∃ φ' made', Pictures φ' made' (ProbeInsertion.insertProbesAt o s b start is)
        (ProbeBlocks.insertBlockProbes is.length (φ b) G) ∧
      Extends φ made φ' made' := by
  induction is generalizing s G φ made b start with
  | nil => exact ⟨φ, made, h, .refl φ made⟩
  | cons i is ih =>
    obtain ⟨φ₁, made₁, h₁, hext₁, hrest, hnum⟩ := h.insertCycleProbe o hb (i - start) none none
    obtain ⟨φ₂, made₂, h₂, hext₂⟩ := ih h₁ hrest i
    rw [hnum] at h₂
    exact ⟨φ₂, made₂, h₂, hext₁.trans hext₂⟩

/-- The exit of the clone. -/
theorem Pictures.exitOf (h : Pictures φ made s G) {C : NewLabel Block} (hC : made C) :
    ProbeBlocks.exitOf (φ C) (G.succs (φ C)) =
      (ProbeInsertion.exitOf C (s.func.blocks C).term).map φ := by
  have hsuccs := h.succs C hC
  have hclosed := h.closed C hC
  cases ht : (s.func.blocks C).term with
  | br dest => rw [hsuccs, ht]; rfl
  | ret value => rw [hsuccs, ht]; rfl
  | condBr cond ifTrue ifFalse =>
    rw [ht] at hclosed
    have heq : φ ifTrue = φ C ↔ ifTrue = C :=
      ⟨h.inj ifTrue C (hclosed _ List.mem_cons_self) hC, congrArg φ⟩
    rw [hsuccs, ht]
    simp only [Term.succs, List.map_cons, List.map_nil, ProbeBlocks.exitOf, ProbeInsertion.exitOf,
      Option.map_some, Option.some.injEq, heq]
    exact (apply_ite φ _ _ _).symm

theorem exitOf_mem {C exit : NewLabel Block} {t : Term (NewName Name) (NewLabel Block) Val}
    (h : ProbeInsertion.exitOf C t = some exit) : exit ∈ t.succs := by
  cases t with
  | br dest => cases h
  | ret value => cases h
  | condBr cond ifTrue ifFalse =>
    cases h
    split <;> simp [Term.succs]

theorem Pictures.insertSumProbe (h : Pictures φ made s G) (o : Options Op Val) {k : ℕ}
    (hC : made (.new k .clonedSelfLoop)) (hv : made v) (stepValue steps : Int) :
    ∃ φ' made', Pictures φ' made' (ProbeInsertion.insertSumProbe o s k v stepValue steps)
        (ProbeBlocks.conditionalProbe G (φ (.new k .clonedSelfLoop)) (φ v)) ∧
      Extends φ made φ' made' := by
  obtain ⟨φ₁, made₁, h₁, hext₁, hn, hnum⟩ := h.splitEdge hC hv .splittedClonedSelfLoopEdge
  obtain ⟨φ₂, made₂, h₂, hext₂⟩ := h₁.insertProbeIf o hn (sumUpdate o k stepValue steps)
    (temp k .shortLoopInstCond) (by decide : Part.postClonedSelfLoop ≠ .sumThen)
    (some (.sumLoopVal k)) none
  rw [hnum] at h₂
  exact ⟨φ₂, made₂, h₂, hext₁.trans hext₂⟩

variable [DecidableEq Name]

theorem Pictures.insertClone (h : Pictures φ made s G) (o : Options Op Val) (hu : made u)
    {bb : Block} (hb : made (.old bb)) (hret : returns (s.func.blocks u).term = false)
    (isNested : Bool) (initialValue finalValue : Operand Name Val) (stepValue steps : Int) :
    ∃ φ' made', Pictures φ' made'
        (ProbeInsertion.insertClone o s u bb isNested initialValue finalValue stepValue steps)
        (ProbeBlocks.cloneSelfLoop G (φ u) (φ (.old bb))).1 ∧
      Extends φ made φ' made' ∧ made' (.new s.next .clonedSelfLoop) ∧
      φ' (.new s.next .clonedSelfLoop) =
        (ProbeBlocks.cloneSelfLoop G (φ u) (φ (.old bb))).2 := by
  let g := if isNested then insertPastAllocas o s.func (setSlot o (.sumLoopVal s.next) 0)
    else s.func
  have hg : ∀ l, ((insertAtEnd g u (shortLoopTest o s.next initialValue finalValue stepValue
      steps)).blocks l).term = (s.func.blocks l).term := by
    intro l
    refine (term_insertAt g _ _ _ l).trans ?_
    simp only [g]
    split
    · exact term_insertAt s.func _ _ _ l
    · rfl
  exact (h.of_terms hg).cloneOn hu hb ((congrArg returns (hg u)).trans hret) (.cloned s.next)
    (temp s.next .shortLoopCond) .clonedSelfLoop

/-- The graph with the clone of `b`, and for a nested loop with the check behind it. -/
def cloneOnCondition (G : Planner.Func) (instBB b : Block) (isNested : Bool) : Planner.Func :=
  let t := ProbeBlocks.cloneSelfLoop G instBB b
  match isNested, ProbeBlocks.exitOf t.2 (t.1.succs t.2) with
  | true, some exitBB => ProbeBlocks.conditionalProbe t.1 t.2 exitBB
  | _, _ => t.1

omit [DecidableEq Name] in
theorem func_cloneSelfLoopOnCondition (l : Instrumented.Loop) (b : Block)
    (S : ProbeBlocks.Emission) :
    (ProbeBlocks.cloneSelfLoopOnCondition l b S).func = cloneOnCondition S.func
      ((S.updatePreheaderMap (l.preheader, b)).getD l.preheader) b l.isNested := by
  unfold ProbeBlocks.cloneSelfLoopOnCondition cloneOnCondition
  simp only
  split <;> simp_all

theorem Pictures.cloneSelfLoopOnCondition (h : Pictures φ made s G) (o : Options Op Val)
    (hu : made u) {bb : Block} (hb : made (.old bb))
    (hret : returns (s.func.blocks u).term = false) (isNested : Bool) (numIters : Int)
    (iv : IndVar Name Val) (finalValue : Operand Name Val) :
    ∃ φ' made', Pictures φ' made'
        (ProbeInsertion.cloneSelfLoopOnCondition o s u bb isNested numIters iv finalValue)
        (cloneOnCondition G (φ u) (φ (.old bb)) isNested) ∧
      Extends φ made φ' made' := by
  obtain ⟨φ₁, made₁, h₁, hext₁, hC, hnum⟩ := h.insertClone o hu hb hret isNested iv.initialValue
    finalValue iv.stepValue (Params.int32 (numIters * iv.stepValue))
  have hexit := h₁.exitOf hC
  rw [hnum] at hexit
  unfold ProbeInsertion.cloneSelfLoopOnCondition cloneOnCondition
  simp only [hexit]
  cases isNested with
  | false => exact ⟨φ₁, made₁, h₁, hext₁⟩
  | true =>
    cases he : ProbeInsertion.exitOf (.new s.next .clonedSelfLoop)
        ((ProbeInsertion.insertClone o s u bb true iv.initialValue finalValue iv.stepValue
          (Params.int32 (numIters * iv.stepValue))).func.blocks
          (.new s.next .clonedSelfLoop)).term with
    | none =>
      simp only
      exact ⟨φ₁, made₁, h₁, hext₁⟩
    | some exitBB =>
      simp only
      obtain ⟨φ₂, made₂, h₂, hext₂⟩ := h₁.insertSumProbe o hC
        (h₁.closed _ hC exitBB (exitOf_mem he)) iv.stepValue
        (Params.int32 (numIters * iv.stepValue))
      rw [hnum] at h₂
      exact ⟨φ₂, made₂, h₂, hext₁.trans hext₂⟩

end Probes

/-! ## The whole stage -/

section Stage

variable {f : Planner.Func} {φ φ' : NewLabel Block → Block} {made made' : NewLabel Block → Prop}
  {s : Build Op Name Block Val} {G : Planner.Func} {S : ProbeBlocks.Emission}
  {loops : Block × Block → Instrumented.Loop} {updated : UpdatePreheaderMap Block}

/-- The blocks of the function keep their numbers. -/
def Old (f : Planner.Func) (φ : NewLabel Block → Block) (made : NewLabel Block → Prop) : Prop :=
  ∀ b ∈ f.blocks, made (.old b) ∧ φ (.old b) = b

theorem Old.of_extends (h : Old f φ made) (hext : Extends φ made φ' made') : Old f φ' made' :=
  fun b hb => ⟨(hext _ (h b hb).1).1, (hext _ (h b hb).1).2.trans (h b hb).2⟩

/-- Both find the same block between the preheader and the self loop. -/
def Finds (updated : UpdatePreheaderMap Block) (S : ProbeBlocks.Emission)
    (φ : NewLabel Block → Block) (made : NewLabel Block → Prop) (e : Block × Block) : Prop :=
  made ((updated e).getD (.old e.1)) ∧
    φ ((updated e).getD (.old e.1)) = (S.updatePreheaderMap e).getD e.1

/-- What the two models say of a loop. -/
structure Agrees (p : LoopPlan Name Block Val) (l : Instrumented.Loop) : Prop where
  cloneable : Instrumented.cloneable (p.latch, p.header) l = (decideSelfLoopCloneable p).isSome
  preheader : ∀ pre iv finalValue, decideSelfLoopCloneable p = some (pre, iv, finalValue) →
    pre = l.preheader
  isNested : p.isNested = l.isNested

theorem Finds.of_extends {e : Block × Block} (h : Finds updated S φ made e)
    (hext : Extends φ made φ' made') : Finds updated S φ' made' e :=
  ⟨(hext _ h.1).1, (hext _ h.1).2.trans h.2⟩

section Edges

variable {isPreheader : Block → Block → Bool} {backEdges : List (Block × Block)}
  {cloned : Block × Block → Prop} {T : Build Op Name Block Val × UpdatePreheaderMap Block}

/-- A probe on an edge. Where it is on the way to a self loop with a clone, both write it down. -/
theorem pictures_insertNormProbe (o : Options Op Val) (hold : Old f φ made)
    (hcloned : ∀ e, cloned e → isPreheader e.1 e.2 = true ∧
      (backEdges.contains (e.2, e.2) && (loops (e.2, e.2)).preheader == e.1) = true)
    (h : Pictures φ made T.1 S.func) (hfinds : ∀ e, cloned e → Finds T.2 S φ made e)
    {e : Block × Block} (hu : e.1 ∈ f.blocks) (hv : e.2 ∈ f.blocks) :
    ∃ φ' made', Pictures φ' made' (ProbeInsertion.insertNormProbe o isPreheader T e).1
        (ProbeBlocks.insertNormProbe backEdges loops S e).func ∧
      Extends φ made φ' made' ∧
      ∀ c, cloned c → Finds (ProbeInsertion.insertNormProbe o isPreheader T e).2
        (ProbeBlocks.insertNormProbe backEdges loops S e) φ' made' c := by
  obtain ⟨hum, hunum⟩ := hold e.1 hu
  obtain ⟨hvm, hvnum⟩ := hold e.2 hv
  obtain ⟨φ₁, made₁, h₁, hext₁, hn, hnum⟩ := h.splitEdge hum hvm .splittedEdge
  obtain ⟨φ₂, made₂, h₂, hext₂, hpost, hpnum⟩ := h₁.insertCycleProbe o hn 0 none none
  rw [hnum, hunum, hvnum] at h₂ hpnum
  refine ⟨φ₂, made₂, h₂, hext₁.trans hext₂, fun c hc => ?_⟩
  obtain ⟨hpre, hback⟩ := hcloned c hc
  have hkept := (hfinds c hc).of_extends (hext₁.trans hext₂)
  by_cases hce : c = e
  · subst hce
    unfold Finds ProbeInsertion.insertNormProbe ProbeBlocks.insertNormProbe
    simp only [hpre, hback, if_true, Function.update_self, Option.getD_some]
    exact ⟨hpost, hpnum⟩
  · have hcode : (ProbeInsertion.insertNormProbe o isPreheader T e).2 c = T.2 c := by
      simp only [ProbeInsertion.insertNormProbe]
      split
      · exact Function.update_of_ne hce _ _
      · rfl
    have hgraph : (ProbeBlocks.insertNormProbe backEdges loops S e).updatePreheaderMap c =
        S.updatePreheaderMap c := by
      simp only [ProbeBlocks.insertNormProbe]
      split
      · exact Function.update_of_ne hce _ _
      · rfl
    unfold Finds
    rw [hcode, hgraph]
    exact hkept

theorem pictures_edges (o : Options Op Val) (hold : Old f φ made)
    (hcloned : ∀ e, cloned e → isPreheader e.1 e.2 = true ∧
      (backEdges.contains (e.2, e.2) && (loops (e.2, e.2)).preheader == e.1) = true)
    (h : Pictures φ made T.1 S.func) (hfinds : ∀ e, cloned e → Finds T.2 S φ made e)
    {es : List (Block × Block)} (hes : ∀ e ∈ es, e.1 ∈ f.blocks ∧ e.2 ∈ f.blocks) :
    ∃ φ' made', Pictures φ' made' (es.foldl (ProbeInsertion.insertNormProbe o isPreheader) T).1
        (es.foldl (ProbeBlocks.insertNormProbe backEdges loops) S).func ∧
      Extends φ made φ' made' ∧
      ∀ c, cloned c → Finds (es.foldl (ProbeInsertion.insertNormProbe o isPreheader) T).2
        (es.foldl (ProbeBlocks.insertNormProbe backEdges loops) S) φ' made' c := by
  induction es generalizing φ made T S with
  | nil => exact ⟨φ, made, h, .refl φ made, hfinds⟩
  | cons e es ih =>
    obtain ⟨hu, hv⟩ := hes e List.mem_cons_self
    obtain ⟨φ₁, made₁, h₁, hext₁, hfinds₁⟩ := pictures_insertNormProbe o hold hcloned h hfinds hu hv
    obtain ⟨φ₂, made₂, h₂, hext₂, hfinds₂⟩ := ih (hold.of_extends hext₁) h₁ hfinds₁
      fun e he => hes e (List.mem_cons_of_mem _ he)
    exact ⟨φ₂, made₂, h₂, hext₁.trans hext₂, hfinds₂⟩

end Edges

theorem pictures_blocks (o : Options Op Val) (hold : Old f φ made) (h : Pictures φ made s S.func)
    {bs : List Block} (hbs : ∀ b ∈ bs, b ∈ f.blocks) :
    ∃ φ' made', Pictures φ' made' (bs.foldl (insertBlockProbe o) s) (bs.foldl
        (fun S b => { S with func := (ProbeBlocks.insertCycleProbe S.func b).1 }) S).func ∧
      Extends φ made φ' made' := by
  induction bs generalizing φ made s S with
  | nil => exact ⟨φ, made, h, .refl φ made⟩
  | cons b bs ih =>
    obtain ⟨hb, hnum⟩ := hold b (hbs b List.mem_cons_self)
    obtain ⟨φ₁, made₁, h₁, hext₁, -⟩ := h.insertCycleProbe o hb
      (s.func.blocks (.old b)).body.length none none
    rw [hnum] at h₁
    obtain ⟨φ₂, made₂, h₂, hext₂⟩ := ih (S := ⟨_, S.updatePreheaderMap⟩) (hold.of_extends hext₁) h₁
      fun c hc => hbs c (List.mem_cons_of_mem _ hc)
    exact ⟨φ₂, made₂, h₂, hext₁.trans hext₂⟩

/-- The map stays as it is. -/
theorem map_blocks (bs : List Block) (S : ProbeBlocks.Emission) :
    (bs.foldl (fun S b => { S with func := (ProbeBlocks.insertCycleProbe S.func b).1 })
      S).updatePreheaderMap = S.updatePreheaderMap := by
  induction bs generalizing S with
  | nil => rfl
  | cons b bs ih => exact ih _

/-- The probes of the last loop, some number in each block. -/
theorem pictures_metered (o : Options Op Val) (cost : NewInstr Op Name Val → Int)
    (termCost : Term (NewName Name) (NewLabel Block) Val → Int) (hold : Old f φ made)
    (h : Pictures φ made s G) {bs : List Block} (hbs : ∀ b ∈ bs, b ∈ f.blocks) (hnd : bs.Nodup) :
    ∃ (n : Block → ℕ) (φ' : NewLabel Block → Block) (made' : NewLabel Block → Prop),
      Pictures φ' made' (bs.foldl (insertMeterProbes o cost termCost) s)
        (bs.foldl (fun g b => ProbeBlocks.insertBlockProbes (n b) b g) G) := by
  induction bs generalizing φ made s G with
  | nil => exact ⟨fun _ => 0, φ, made, h⟩
  | cons b bs ih =>
    obtain ⟨hnotMem, hnd⟩ := List.nodup_cons.mp hnd
    obtain ⟨hb, hnum⟩ := hold b (hbs b List.mem_cons_self)
    let points := probePoints o.commitInterval ((s.func.blocks (.old b)).body.map cost ++
      [termCost (s.func.blocks (.old b)).term])
    obtain ⟨φ₁, made₁, h₁, hext₁⟩ := h.insertProbesAt o hb 0 points
    rw [hnum] at h₁
    obtain ⟨n, φ₂, made₂, h₂⟩ := ih (hold.of_extends hext₁) h₁
      (fun c hc => hbs c (List.mem_cons_of_mem _ hc)) hnd
    refine ⟨Function.update n b points.length, φ₂, made₂, ?_⟩
    rw [List.foldl_cons, List.foldl_cons, Function.update_self, List.foldl_ext _
      (fun g b => ProbeBlocks.insertBlockProbes (n b) b g)]
    · exact h₂
    · intro g c hc
      have hne : c ≠ b := fun he => hnotMem (he ▸ hc)
      rw [Function.update_of_ne hne]

variable [DecidableEq Name]

theorem Pictures.insertLoop (h : Pictures φ made s S.func) (o : Options Op Val)
    (hold : Old f φ made) {p : LoopPlan Name Block Val} (hlatch : p.latch ∈ f.blocks)
    (hheader : p.header ∈ f.blocks)
    (hp : Agrees p (loops (p.latch, p.header)))
    (hfinds : ∀ pre iv finalValue, decideSelfLoopCloneable p = some (pre, iv, finalValue) →
      Finds updated S φ made (pre, p.header) ∧
      returns (s.func.blocks ((updated (pre, p.header)).getD (.old pre))).term = false) :
    ∃ φ' made', Pictures φ' made' (ProbeInsertion.insertLoop o updated s p)
        (ProbeBlocks.insertLoopProbe loops S (p.latch, p.header)).func ∧
      Extends φ made φ' made' := by
  obtain ⟨φ₁, made₁, h₁, hext₁⟩ : ∃ φ' made', Pictures φ' made' (insertCloneOf o updated s p)
      (if Instrumented.cloneable (p.latch, p.header) (loops (p.latch, p.header)) then
        ProbeBlocks.cloneSelfLoopOnCondition (loops (p.latch, p.header)) p.latch S else S).func ∧
      Extends φ made φ' made' := by
    rw [hp.cloneable]
    unfold insertCloneOf
    cases hd : decideSelfLoopCloneable p with
    | none => exact ⟨φ, made, h, .refl φ made⟩
    | some t =>
      obtain ⟨pre, iv, finalValue⟩ := t
      obtain ⟨⟨hmade, hnum⟩, hret⟩ := hfinds pre iv finalValue hd
      obtain ⟨hb, hbnum⟩ := hold p.header hheader
      obtain ⟨φ', made', h', hext⟩ := h.cloneSelfLoopOnCondition o hmade hb hret p.isNested
        p.numIters iv finalValue
      refine ⟨φ', made', ?_, hext⟩
      simp only [Option.isSome_some, if_true]
      rw [func_cloneSelfLoopOnCondition, ← hp.preheader pre iv finalValue hd, ← hp.isNested,
        (of_decideSelfLoopCloneable hd).1]
      rwa [hnum, hbnum] at h'
  obtain ⟨hl, hlnum⟩ := (hold.of_extends hext₁) p.latch hlatch
  obtain ⟨hh, hhnum⟩ := (hold.of_extends hext₁) p.header hheader
  obtain ⟨φ₂, made₂, h₂, hext₂, hn, hnum⟩ := h₁.splitEdge hl hh .loopEdge
  obtain ⟨φ₃, made₃, h₃, hext₃⟩ := h₂.insertLoopProbe o hn p
  rw [hnum, hlnum, hhnum] at h₃
  exact ⟨φ₃, made₃, h₃, (hext₁.trans hext₂).trans hext₃⟩

theorem map_insertLoopProbe (S : ProbeBlocks.Emission) (e : Block × Block) :
    (ProbeBlocks.insertLoopProbe loops S e).updatePreheaderMap = S.updatePreheaderMap := by
  unfold ProbeBlocks.insertLoopProbe ProbeBlocks.cloneSelfLoopOnCondition
  simp only
  split
  · split <;> rfl
  · rfl

theorem pictures_loops (o : Options Op Val) {code : Func Op Name Block Val} {hf : Valid code}
    {isPreheader : Block → Block → Bool} {plan : Plan Op Name Block Val}
    {lay : InsertionKeeps.NewLayout Op Name Block Val} (hfits : Fits hf isPreheader plan)
    (hnew : ∀ e P, updated e = some P → ∀ b, P ≠ .old b) {ls : List (LoopPlan Name Block Val)}
    (hsub : ls ⊆ plan.loops) (hnd : (ls.map fun l => (l.latch, l.header)).Nodup)
    (hready : LoopsReady hf updated ls s lay) (hold : Old f φ made)
    (h : Pictures φ made s S.func) (hmem : ∀ l ∈ ls, l.latch ∈ f.blocks ∧ l.header ∈ f.blocks)
    (hagrees : ∀ l ∈ ls, Agrees l (loops (l.latch, l.header)))
    (hfinds : ∀ l ∈ ls, ∀ pre iv finalValue,
      decideSelfLoopCloneable l = some (pre, iv, finalValue) →
        Finds updated S φ made (pre, l.header)) :
    ∃ φ' made', Pictures φ' made' (ls.foldl (insertLoop o updated) s)
        ((ls.map fun l => (l.latch, l.header)).foldl (ProbeBlocks.insertLoopProbe loops) S).func ∧
      Extends φ made φ' made' := by
  induction ls generalizing s S lay φ made with
  | nil => exact ⟨φ, made, h, .refl φ made⟩
  | cons l ls ih =>
    obtain ⟨hlatch, hheader⟩ := hmem l List.mem_cons_self
    -- The block before the clone still leads to the self loop.
    have hret : ∀ pre iv finalValue, decideSelfLoopCloneable l = some (pre, iv, finalValue) →
        returns (s.func.blocks ((updated (pre, l.header)).getD (.old pre))).term = false := by
      intro pre iv finalValue hd
      obtain ⟨sl, hc, rfl⟩ := hfits.clones (hsub List.mem_cons_self) hd
      have hterm := (hready.ready l List.mem_cons_self sl hc).term
      unfold instBB at hterm
      rw [hc.header, hterm]
      rfl
    obtain ⟨φ₁, made₁, h₁, hext₁⟩ := h.insertLoop o hold hlatch hheader
      (hagrees l List.mem_cons_self) fun pre iv finalValue hd =>
        ⟨hfinds l List.mem_cons_self pre iv finalValue hd, hret pre iv finalValue hd⟩
    obtain ⟨lay₁, hready₁⟩ := hready.step o hfits hnew hsub hnd
    obtain ⟨φ₂, made₂, h₂, hext₂⟩ := ih (fun l hl => hsub (List.mem_cons_of_mem _ hl))
      (List.nodup_cons.mp hnd).2 hready₁ (hold.of_extends hext₁) h₁
      (fun l hl => hmem l (List.mem_cons_of_mem _ hl))
      (fun l hl => hagrees l (List.mem_cons_of_mem _ hl)) fun l' hl' pre iv finalValue hd => by
        have hfind := (hfinds l' (List.mem_cons_of_mem _ hl') pre iv finalValue hd).of_extends hext₁
        unfold Finds at hfind ⊢
        rwa [map_insertLoopProbe]
    exact ⟨φ₂, made₂, h₂, hext₁.trans hext₂⟩

end Stage

/-! ## The pass -/

section Pass

open PassPreserves (Input)
open Instrumented (loopEdges)

/-- The graph with `n b` probes in the block `b` of the last loop. -/
def emitWith (f : Planner.Func) (backEdges : List (Block × Block))
    (loops : Block × Block → Instrumented.Loop) (pr : InsertProbes.Probes) (n : Block → ℕ) :
    Planner.Func :=
  let s := ((PlannerSteps.edges f).dedup.filter fun e => pr.plan.inst e = .normInst).foldl
    (ProbeBlocks.insertNormProbe backEdges loops) ⟨f, fun _ => none⟩
  let s := pr.plan.instrumentedBB.foldl
    (fun s b => { s with func := (ProbeBlocks.insertCycleProbe s.func b).1 }) s
  let s := (loopEdges f pr).foldl (ProbeBlocks.insertLoopProbe loops) s
  (f.blocks.dedup.filter fun b => pr.plan.costMap b ≤ 0 ∧ pr.plan.costMap b ≠ -1).foldl
    (fun g b => ProbeBlocks.insertBlockProbes (n b) b g) s.func

theorem blockProbes_eq_zero (o : Planner.Options) (f : Planner.Func)
    (loops : Block × Block → Instrumented.Loop) {pr : InsertProbes.Probes} {b : Block}
    (hb : ¬ (pr.plan.costMap b ≤ 0 ∧ pr.plan.costMap b ≠ -1)) :
    ProbeBlocks.blockProbes o f loops pr b = 0 := by
  unfold ProbeBlocks.blockProbes Instrumented.markedBlock
  simp only
  rw [if_neg hb]
  simp

/-- The graph of `ProbeBlocks` has as many probes there as `Instrumented` counts. -/
theorem emitProbes_eq_emitWith {f : Planner.Func} (hnd : f.blocks.Nodup) (o : Planner.Options)
    (backEdges : List (Block × Block)) (loops : Block × Block → Instrumented.Loop)
    (pr : InsertProbes.Probes) :
    ProbeBlocks.emitProbes o f backEdges loops pr =
      emitWith f backEdges loops pr (ProbeBlocks.blockProbes o f loops pr) := by
  have hfold : ∀ G : Planner.Func,
      f.blocks.foldl (fun g b => ProbeBlocks.insertBlockProbes
        (ProbeBlocks.blockProbes o f loops pr b) b g) G =
      (f.blocks.dedup.filter fun b => pr.plan.costMap b ≤ 0 ∧ pr.plan.costMap b ≠ -1).foldl
        (fun g b => ProbeBlocks.insertBlockProbes (ProbeBlocks.blockProbes o f loops pr b) b g)
        G := by
    intro G
    rw [hnd.dedup, List.foldl_filter]
    refine List.foldl_ext _ _ _ fun g b _ => ?_
    split
    · rfl
    · rename_i hb
      rw [blockProbes_eq_zero o f loops (by simpa using hb)]
      rfl
  exact hfold _

variable {i : Input Op Name Val} {pr : InsertProbes.Probes}

/-- Before the stage a block has its own number. -/
def ownNumber : NewLabel Block → Block
  | .old b => b
  | .new _ _ => 0

theorem pictures_embed
    (hret : ∀ b ∈ i.graph.blocks, i.graph.isRet b = returns (i.code.blocks b).term) :
    Pictures ownNumber (fun l => ∃ b ∈ i.graph.blocks, l = .old b) ⟨embed i.code, 0⟩ i.graph where
  below k q _ := by rintro ⟨b, -, h⟩; cases h
  blocks b := by
    constructor
    · exact fun hb => ⟨.old b, ⟨b, hb, rfl⟩, rfl⟩
    · rintro ⟨_, ⟨c, hc, rfl⟩, rfl⟩
      exact hc
  inj := by
    rintro _ _ ⟨b, -, rfl⟩ ⟨c, -, rfl⟩ h
    exact congrArg NewLabel.old h
  succs := by
    rintro _ ⟨b, hb, rfl⟩
    rw [succs_embed, List.map_map]
    exact (i.succs b hb).trans (List.map_id _).symm
  closed := by
    rintro _ ⟨b, hb, rfl⟩ d hd
    rw [succs_embed] at hd
    obtain ⟨c, hc, rfl⟩ := List.mem_map.mp hd
    exact ⟨c, i.graph.succs_mem b hb c (i.succs b hb ▸ hc), rfl⟩
  isRet := by
    rintro _ ⟨b, hb, rfl⟩
    refine (hret b hb).trans ?_
    change _ = returns ((i.code.blocks b).term.rename NewName.old NewLabel.old)
    cases (i.code.blocks b).term <;> rfl

variable [DecidableEq Name] {loops : Block × Block → Instrumented.Loop}

/-- The graph of the instrumented code is the one of `ProbeBlocks`. -/
theorem pictures_instrument (hfits : Fits i.valid i.isPreheader (i.toPlan pr)) (o : Options Op Val)
    (cost : NewInstr Op Name Val → Int)
    (termCost : Term (NewName Name) (NewLabel Block) Val → Int)
    (hret : ∀ b ∈ i.graph.blocks, i.graph.isRet b = returns (i.code.blocks b).term)
    (hagrees : ∀ e ∈ loopEdges i.graph pr, Agrees (i.loopPlan pr e) (loops e))
    (hback : ∀ e ∈ loopEdges i.graph pr, e ∈ i.backEdges)
    (hbb : ∀ b ∈ pr.plan.instrumentedBB, b ∈ i.graph.blocks)
    (hpre : ∀ e ∈ loopEdges i.graph pr, ∀ pre iv finalValue,
      decideSelfLoopCloneable (i.loopPlan pr e) = some (pre, iv, finalValue) →
        pre ∈ i.graph.blocks) :
    ∃ n k φ made, Pictures φ made ⟨i.instrument o cost termCost (i.toPlan pr), k⟩
      (emitWith i.graph i.backEdges loops pr n) := by
  have hmem : ∀ e ∈ (PlannerSteps.edges i.graph).dedup, e.1 ∈ i.graph.blocks ∧
      e.2 ∈ i.graph.blocks := by
    intro e he
    obtain ⟨hb, hs⟩ := PassPreserves.mem_edges.mp (List.mem_dedup.mp he)
    exact ⟨hb, i.graph.succs_mem _ hb _ hs⟩
  let cloned (c : Block × Block) : Prop := (c.2, c.2) ∈ loopEdges i.graph pr ∧ ∃ iv finalValue,
    decideSelfLoopCloneable (i.loopPlan pr (c.2, c.2)) = some (c.1, iv, finalValue)
  have hcloned : ∀ c, cloned c → i.isPreheader c.1 c.2 = true ∧
      (i.backEdges.contains (c.2, c.2) && (loops (c.2, c.2)).preheader == c.1) = true := by
    rintro c ⟨hc, iv, finalValue, hd⟩
    refine ⟨decide_eq_true (of_decideSelfLoopCloneable hd).2.1, ?_⟩
    rw [(hagrees _ hc).preheader _ _ _ hd]
    simpa using hback _ hc
  have hold : Old i.graph ownNumber (fun l => ∃ b ∈ i.graph.blocks, l = .old b) := fun b hb =>
    ⟨⟨b, hb, rfl⟩, rfl⟩
  have hstart : ∀ c, cloned c → Finds (fun _ => none) ⟨i.graph, fun _ => none⟩ ownNumber
      (fun l => ∃ b ∈ i.graph.blocks, l = .old b) c := by
    rintro c ⟨hc, iv, finalValue, hd⟩
    exact ⟨⟨c.1, hpre _ hc _ _ _ hd, rfl⟩, rfl⟩
  have hes : ∀ e ∈ (i.toPlan pr).edges, e.1 ∈ i.graph.blocks ∧ e.2 ∈ i.graph.blocks := fun e he =>
    hmem e (List.mem_of_mem_filter he)
  obtain ⟨φ₁, made₁, h₁, hext₁, hfinds₁⟩ := pictures_edges
    (T := (⟨embed i.code, 0⟩, fun _ => none)) o hold hcloned (pictures_embed hret) hstart hes
  have hold₁ := hold.of_extends hext₁
  obtain ⟨φ₂, made₂, h₂, hext₂⟩ := pictures_blocks o hold₁ h₁ hbb
  have hold₂ := hold₁.of_extends hext₂
  -- The loops are as the code has them.
  obtain ⟨lay₁, hedges⟩ := edgesDone_edges o hfits.edges_nodup hfits.edges (fun _ _ h => h)
    (edgesDone_start i.valid hfits.succs i.isPreheader)
  simp only [false_or] at hedges
  obtain ⟨lay₂, hblocks⟩ := inserts_blocks o (i.toPlan pr).blocks hedges.built
  have hready := loopsReady_start hfits hedges hblocks
  have hloops : ∀ l ∈ (i.toPlan pr).loops, (l.latch, l.header) ∈ loopEdges i.graph pr ∧
      l = i.loopPlan pr (l.latch, l.header) := by
    intro l hl
    obtain ⟨e, he, rfl⟩ := List.mem_map.mp hl
    exact ⟨he, rfl⟩
  obtain ⟨φ₃, made₃, h₃, hext₃⟩ := pictures_loops o hfits
    (fun e P hP => (hedges.between e.1 e.2 P hP).2.2.2.2) (List.Subset.refl _) hfits.loops_nodup
    hready hold₂ h₂ (fun l hl => hmem _ (List.mem_of_mem_filter (hloops l hl).1))
    (fun l hl => by
      obtain ⟨he, heq⟩ := hloops l hl
      have hagree := hagrees _ he
      rwa [← heq] at hagree)
    fun l hl pre iv finalValue hd => by
      obtain ⟨he, heq⟩ := hloops l hl
      rw [(of_decideSelfLoopCloneable hd).1] at he heq
      have hfind := (hfinds₁ (pre, l.header) ⟨he, iv, finalValue, heq ▸ hd⟩).of_extends hext₂
      unfold Finds at hfind ⊢
      rwa [map_blocks]
  have hlist : (i.toPlan pr).loops.map (fun l => (l.latch, l.header)) = loopEdges i.graph pr := by
    simp only [Input.toPlan, List.map_map]
    exact List.map_id _
  rw [hlist] at h₃
  have hmetered : (i.toPlan pr).metered.Nodup := (List.nodup_dedup _).filter _
  obtain ⟨n, φ₄, made₄, h₄⟩ := pictures_metered o cost termCost (hold₂.of_extends hext₃) h₃
    (fun b hb => List.mem_dedup.mp (List.mem_of_mem_filter hb)) hmetered
  exact ⟨n, _, φ₄, made₄, h₄⟩

/-- So is the graph of what the pass makes of a function, if the two models agree on its loops and
on its returns. -/
theorem generateInst_pictures (i : Input Op Name Val) (po : Planner.Options)
    (hci : 0 < po.commitInterval) (hmax : 0 ≤ po.maxE2EUninst)
    (hfit : PlannerSteps.Fits po i.graph i.backEdges) (o : Options Op Val)
    (cost : NewInstr Op Name Val → Int)
    (termCost : Term (NewName Name) (NewLabel Block) Val → Int)
    (hret : ∀ b ∈ i.graph.blocks, i.graph.isRet b = returns (i.code.blocks b).term) :
    ∃ N pr, (∀ n, N ≤ n → InsertProbes.generateInst po i.graph i.backEdges n = .ok pr) ∧
      ∀ loops : Block × Block → Instrumented.Loop,
        (∀ e ∈ loopEdges i.graph pr, Agrees (i.loopPlan pr e) (loops e) ∧
          ∀ pre ∈ (i.loops e).preheader, pre ∈ i.graph.blocks) →
        ∃ n k φ made, Pictures φ made ⟨i.instrument o cost termCost (i.toPlan pr), k⟩
          (emitWith i.graph i.backEdges loops pr n) := by
  obtain ⟨N, pr, hpr, hfits, hback, hbb⟩ := i.generateInst_fits po hci hmax hfit
  refine ⟨N, pr, hpr, fun loops hagrees => pictures_instrument (hfits _ (.refl _)) o cost termCost
    hret (fun e he => (hagrees e he).1)
    (fun e he => hback e (of_decide_eq_true (List.mem_filter.mp he).2)) hbb
    fun e he pre iv finalValue hd => (hagrees e he).2 pre (of_decideSelfLoopCloneable hd).2.1⟩

end Pass

end TinyQuanta.ProbeGraph
