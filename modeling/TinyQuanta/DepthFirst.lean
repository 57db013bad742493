import Mathlib.Data.List.Chain
import Mathlib.Data.List.Nodup
import TinyQuanta.TopoSort

/-!
# Depth-first search and its retreating edges

A search keeps the vertices it is exploring on a stack, each with the successors
that it has not looked at; it takes them in any order. An edge to a vertex on the
stack is retreating. The invariant is about one list: the vertices in the order
in which they finish, first those that have finished and then the stack, which
comes off top first. A step never reorders that list, it only inserts.

Taking the retreating edges away leaves no cycle and cuts nothing off.
-/
namespace TinyQuanta.DepthFirst

open Relation
open TopoSort (Edge)

variable {β : Type}

structure Search (β : Type) where
  stack : List (β × List β)
  finished : List β
  back : List (β × β)

/-- The vertices on the stack, top first. -/
def Search.active (s : Search β) : List β := s.stack.map Prod.fst

/-- The vertices that were found, in the order in which they finish. -/
def Search.order (s : Search β) : List β := s.finished ++ s.active

/-- One look at a successor of the top vertex, or its end. -/
inductive Step (next : β → List β) : Search β → Search β → Prop where
  | descend (u v : β) (rest vs : List β) (stack : List (β × List β)) (finished : List β)
    (back : List (β × β)) (hactive : v ∉ u :: stack.map Prod.fst) (hfinished : v ∉ finished)
    (hvs : ∀ x, x ∈ vs ↔ x ∈ next v) :
    Step next ⟨(u, v :: rest) :: stack, finished, back⟩
      ⟨(v, vs) :: (u, rest) :: stack, finished, back⟩
  | retreat (u v : β) (rest : List β) (stack : List (β × List β)) (finished : List β)
    (back : List (β × β)) (hv : v ∈ u :: stack.map Prod.fst) :
    Step next ⟨(u, v :: rest) :: stack, finished, back⟩
      ⟨(u, rest) :: stack, finished, (u, v) :: back⟩
  | pass (u v : β) (rest : List β) (stack : List (β × List β)) (finished : List β)
    (back : List (β × β)) (hv : v ∈ finished) :
    Step next ⟨(u, v :: rest) :: stack, finished, back⟩ ⟨(u, rest) :: stack, finished, back⟩
  | ascend (u : β) (stack : List (β × List β)) (finished : List β) (back : List (β × β)) :
    Step next ⟨(u, []) :: stack, finished, back⟩ ⟨stack, finished ++ [u], back⟩

/-- Some search from `root` that comes to its end has found the retreating edges `es`. -/
def Retreats (next : β → List β) (root : β) (es : List (β × β)) : Prop :=
  ∃ vs finished back, (∀ x, x ∈ vs ↔ x ∈ next root) ∧
    ReflTransGen (Step next) ⟨[(root, vs)], [], []⟩ ⟨[], finished, back⟩ ∧ ∀ e, e ∈ es ↔ e ∈ back

/-- An edge to a vertex that finishes earlier. -/
def Tree (next : β → List β) (l : List β) (a b : β) : Prop := b ∈ next a ∧ [b, a].Sublist l

theorem Tree.mono {next : β → List β} {l l' : List β} (hl : l.Sublist l') {a b : β}
    (h : Tree next l a b) :
    Tree next l' a b := ⟨h.1, h.2.trans hl⟩

theorem reaches_mono {next : β → List β} {l l' : List β} (hl : l.Sublist l') {a b : β}
    (h : ReflTransGen (Tree next l) a b) : ReflTransGen (Tree next l') a b :=
  h.lift id fun _ _ hab => hab.mono hl

theorem pair_sublist {a b : β} {l₁ l₂ : List β} (ha : a ∈ l₁) (hb : b ∈ l₂) :
    [a, b].Sublist (l₁ ++ l₂) :=
  (List.singleton_sublist.mpr ha).append (List.singleton_sublist.mpr hb)

theorem idxOf_lt_of_pair [DecidableEq β] {l : List β} (hn : l.Nodup) {a b : β}
    (h : [a, b].Sublist l) :
    l.idxOf a < l.idxOf b := by
  induction l with
  | nil => cases h
  | cons x l ih =>
    obtain ⟨hx, hn⟩ := List.nodup_cons.mp hn
    rcases List.sublist_cons_iff.mp h with h | ⟨r, hr, h⟩
    · have ha : x ≠ a := fun he => hx (he ▸ h.subset (by simp))
      have hb : x ≠ b := fun he => hx (he ▸ h.subset (by simp))
      rw [List.idxOf_cons_ne _ ha, List.idxOf_cons_ne _ hb]
      exact Nat.succ_lt_succ (ih hn h)
    · cases hr
      have hb : a ≠ b := fun he => hx (he ▸ List.singleton_sublist.mp h)
      rw [List.idxOf_cons_self, List.idxOf_cons_ne _ hb]
      exact Nat.succ_pos _

/-- Going down the stack, every vertex has an edge to the one above it. -/
theorem chain_reaches {next : β → List β} {l : List β} {u v : β} {below : List β}
    (h : (u :: below).IsChain fun a b => Tree next l b a) (hv : v ∈ u :: below) :
    ReflTransGen (Tree next l) v u := by
  induction below generalizing u with
  | nil =>
    cases List.mem_singleton.mp hv
    exact .refl
  | cons w below ih =>
    obtain ⟨huw, hrest⟩ := List.isChain_cons_cons.mp h
    rcases List.mem_cons.mp hv with rfl | hv
    · exact .refl
    · exact (ih hrest hv).tail huw

/-- What is known at every moment of a search. -/
structure Inv (next : β → List β) (root : β) (s : Search β) : Prop where
  nodup : s.order.Nodup
  root_mem : root ∈ s.order
  pending : ∀ u rest, (u, rest) ∈ s.stack → rest ⊆ next u
  chain : s.active.IsChain fun a b => Tree next s.order b a
  reach : ∀ v ∈ s.order, ReflTransGen (Tree next s.order) root v
  back : ∀ u v, (u, v) ∈ s.back → v ∈ next u ∧ v ∈ s.order ∧ (u = v ∨ [u, v].Sublist s.order) ∧
    ReflTransGen (Tree next s.order) v u
  done : ∀ u ∈ s.order, ∀ v ∈ next u, (u, v) ∈ s.back ∨ [v, u].Sublist s.order ∨
    ∃ rest, (u, rest) ∈ s.stack ∧ v ∈ rest

theorem start_inv {next : β → List β} {root : β} {vs : List β} (hvs : ∀ x, x ∈ vs ↔ x ∈ next root) :
    Inv next root ⟨[(root, vs)], [], []⟩ where
  nodup := List.nodup_singleton root
  root_mem := List.mem_singleton.mpr rfl
  pending u rest h := by
    cases List.mem_singleton.mp h
    exact fun x hx => (hvs x).mp hx
  chain := List.isChain_singleton root
  reach v hv := by
    cases List.mem_singleton.mp hv
    exact .refl
  back u v h := by cases h
  done u hu v hv := by
    cases List.mem_singleton.mp hu
    exact .inr (.inr ⟨vs, List.mem_singleton.mpr rfl, (hvs v).mpr hv⟩)

section Steps

variable {next : β → List β} {root u v : β} {rest : List β} {stack : List (β × List β)}
  {finished : List β} {back : List (β × β)}

/-- Looking at `v` without leaving `u` changes nothing but what is recorded about the edge. -/
theorem look_inv {back' : List (β × β)}
    (h : Inv next root ⟨(u, v :: rest) :: stack, finished, back⟩)
    (hsub : back ⊆ back')
    (hback : ∀ e ∈ back', e ∈ back ∨ e = (u, v) ∧ v ∈ u :: stack.map Prod.fst)
    (hdone : (u, v) ∈ back' ∨ v ∈ finished) :
    Inv next root ⟨(u, rest) :: stack, finished, back'⟩ := by
  have hv : v ∈ next u := h.pending u (v :: rest) (by simp) (by simp)
  exact {
    nodup := h.nodup
    root_mem := h.root_mem
    pending := by
      intro w ws hw
      rcases List.mem_cons.mp hw with hw | hw
      · cases hw
        exact fun x hx => h.pending u (v :: rest) (by simp) (by simp [hx])
      · exact h.pending w ws (by simp [hw])
    chain := h.chain
    reach := h.reach
    back := by
      intro a b hab
      rcases hback _ hab with hab | ⟨he, hon⟩
      · exact h.back a b hab
      · cases he
        refine ⟨hv, List.mem_append_right _ hon, ?_, chain_reaches h.chain hon⟩
        rcases List.mem_cons.mp hon with rfl | hon
        · exact .inl rfl
        · exact .inr ((((List.singleton_sublist.mpr hon).cons_cons u)).trans
            (List.sublist_append_right _ _))
    done := by
      intro a ha b hb
      rcases h.done a ha b hb with hab | hab | ⟨ws, hws, hbw⟩
      · exact .inl (hsub hab)
      · exact .inr (.inl hab)
      · rcases List.mem_cons.mp hws with hws | hws
        · cases hws
          rcases List.mem_cons.mp hbw with rfl | hbw
          · rcases hdone with hd | hd
            · exact .inl hd
            · exact .inr (.inl (pair_sublist hd (by simp [Search.active])))
          · exact .inr (.inr ⟨rest, by simp, hbw⟩)
        · exact .inr (.inr ⟨ws, by simp [hws], hbw⟩) }

theorem descend_inv {vs : List β} (h : Inv next root ⟨(u, v :: rest) :: stack, finished, back⟩)
    (hactive : v ∉ u :: stack.map Prod.fst) (hfinished : v ∉ finished)
    (hvs : ∀ x, x ∈ vs ↔ x ∈ next v) :
    Inv next root ⟨(v, vs) :: (u, rest) :: stack, finished, back⟩ := by
  have hv : v ∈ next u := h.pending u (v :: rest) (by simp) (by simp)
  have hsub : (finished ++ u :: stack.map Prod.fst).Sublist
      (finished ++ v :: u :: stack.map Prod.fst) :=
    (List.Sublist.refl finished).append (List.sublist_cons_self v _)
  have hpair : [v, u].Sublist (finished ++ v :: u :: stack.map Prod.fst) :=
    ((List.nil_sublist _).cons_cons u |>.cons_cons v).trans (List.sublist_append_right _ _)
  have hedge : Tree next (finished ++ v :: u :: stack.map Prod.fst) u v := ⟨hv, hpair⟩
  have hmem : ∀ w, w ∈ finished ++ v :: u :: stack.map Prod.fst →
      w = v ∨ w ∈ finished ++ u :: stack.map Prod.fst := by
    intro w hw
    simp only [List.mem_append, List.mem_cons] at hw ⊢
    tauto
  exact {
    nodup := by
      have hn := h.nodup
      exact List.nodup_middle.mpr (List.nodup_cons.mpr ⟨fun hm => by
        rcases List.mem_append.mp hm with hm | hm
        · exact hfinished hm
        · exact hactive hm, hn⟩)
    root_mem := hsub.subset h.root_mem
    pending := by
      intro w ws hw
      rcases List.mem_cons.mp hw with hw | hw
      · cases hw
        exact fun x hx => (hvs x).mp hx
      rcases List.mem_cons.mp hw with hw | hw
      · cases hw
        exact fun x hx => h.pending u (v :: rest) (by simp) (by simp [hx])
      · exact h.pending w ws (by simp [hw])
    chain := List.isChain_cons_cons.mpr ⟨hedge, h.chain.imp fun _ _ hab => hab.mono hsub⟩
    reach := by
      intro w hw
      rcases hmem w hw with rfl | hw
      · exact (reaches_mono hsub (h.reach u (by simp [Search.order, Search.active]))).tail hedge
      · exact reaches_mono hsub (h.reach w hw)
    back := by
      intro a b hab
      obtain ⟨hnext, hb, hor, hreach⟩ := h.back a b hab
      exact ⟨hnext, hsub.subset hb, hor.imp_right fun hp => hp.trans hsub, reaches_mono hsub hreach⟩
    done := by
      intro a ha b hb
      rcases hmem a ha with rfl | ha
      · exact .inr (.inr ⟨vs, by simp, (hvs b).mpr hb⟩)
      rcases h.done a ha b hb with hab | hab | ⟨ws, hws, hbw⟩
      · exact .inl hab
      · exact .inr (.inl (hab.trans hsub))
      · rcases List.mem_cons.mp hws with hws | hws
        · cases hws
          rcases List.mem_cons.mp hbw with rfl | hbw
          · exact .inr (.inl hpair)
          · exact .inr (.inr ⟨rest, by simp, hbw⟩)
        · exact .inr (.inr ⟨ws, by simp [hws], hbw⟩) }

theorem ascend_inv (h : Inv next root ⟨(u, []) :: stack, finished, back⟩) :
    Inv next root ⟨stack, finished ++ [u], back⟩ := by
  -- the finishing order stays as it was
  have horder : (⟨stack, finished ++ [u], back⟩ : Search β).order =
      (⟨(u, []) :: stack, finished, back⟩ : Search β).order := by
    simp [Search.order, Search.active]
  exact {
    nodup := horder ▸ h.nodup
    root_mem := horder ▸ h.root_mem
    pending := fun w ws hw => h.pending w ws (by simp [hw])
    chain := by
      rw [horder]
      exact h.chain.tail
    reach := by
      rw [horder]
      exact h.reach
    back := by
      rw [horder]
      exact h.back
    done := by
      rw [horder]
      intro a ha b hb
      rcases h.done a ha b hb with hab | hab | ⟨ws, hws, hbw⟩
      · exact .inl hab
      · exact .inr (.inl hab)
      · rcases List.mem_cons.mp hws with hws | hws
        · cases hws
          cases hbw
        · exact .inr (.inr ⟨ws, hws, hbw⟩) }

theorem step_inv {s t : Search β} (h : Inv next root s) (hst : Step next s t) :
    Inv next root t := by
  cases hst with
  | descend u v rest vs stack finished back hactive hfinished hvs =>
    exact descend_inv h hactive hfinished hvs
  | retreat u v rest stack finished back hv =>
    refine look_inv h (fun e he => by simp [he]) (fun e he => ?_) (.inl (by simp))
    rcases List.mem_cons.mp he with rfl | he
    · exact .inr ⟨rfl, hv⟩
    · exact .inl he
  | pass u v rest stack finished back hv =>
    exact look_inv h (fun e he => he) (fun e he => .inl he) (.inr hv)
  | ascend u stack finished back => exact ascend_inv h

end Steps

theorem run_inv {next : β → List β} {root : β} {s t : Search β} (h : Inv next root s)
    (hst : ReflTransGen (Step next) s t) : Inv next root t := by
  induction hst with
  | refl => exact h
  | tail _ hstep ih => exact step_inv ih hstep

/-! ## What a search leaves behind -/

section Finished

variable [DecidableEq β] {next : β → List β} {root : β} {es : List (β × β)}

/-- The successors over edges that are not in `es`. -/
def without (next : β → List β) (es : List (β × β)) (b : β) : List β :=
  (next b).filter fun s => (b, s) ∉ es

theorem mem_without {a b : β} : b ∈ without next es a ↔ b ∈ next a ∧ (a, b) ∉ es := by
  simp [without]

/-- A finishing order of all vertices that were found: the other edges go to earlier vertices, the
retreating ones do not. -/
structure Order (next : β → List β) (root : β) (es : List (β × β)) (l : List β) : Prop where
  nodup : l.Nodup
  root_mem : root ∈ l
  forward : ∀ u ∈ l, ∀ v ∈ without next es u, [v, u].Sublist l
  tree : ∀ a b, Tree next l a b → Edge (without next es) a b
  reach : ∀ v ∈ l, ReflTransGen (Tree next l) root v
  back : ∀ u v, (u, v) ∈ es → v ∈ next u ∧ v ∈ l ∧ ReflTransGen (Tree next l) v u

theorem Retreats.order (h : Retreats next root es) : ∃ l, Order next root es l := by
  obtain ⟨vs, finished, back, hvs, hrun, hes⟩ := h
  have hinv := run_inv (start_inv hvs) hrun
  have horder : (⟨[], finished, back⟩ : Search β).order = finished := by
    simp [Search.order, Search.active]
  have hnodup := hinv.nodup
  have hroot := hinv.root_mem
  have hreach := hinv.reach
  have hback := hinv.back
  have hdone := hinv.done
  rw [horder] at hnodup hroot hreach hback hdone
  refine ⟨finished, hnodup, hroot, ?_, ?_, hreach, ?_⟩
  · intro u hu v hv
    obtain ⟨hv, hnot⟩ := mem_without.mp hv
    rcases hdone u hu v hv with hb | hp | ⟨rest, hrest, -⟩
    · exact absurd ((hes _).mpr hb) hnot
    · exact hp
    · cases hrest
  · rintro a b ⟨hb, hba⟩
    refine mem_without.mpr ⟨hb, fun he => ?_⟩
    have hlt := idxOf_lt_of_pair hnodup hba
    rcases (hback a b ((hes _).mp he)).2.2.1 with rfl | hab
    · exact Nat.lt_irrefl _ hlt
    · exact Nat.lt_asymm hlt (idxOf_lt_of_pair hnodup hab)
  · intro u v huv
    obtain ⟨hv, hvl, -, hreach⟩ := hback u v ((hes _).mp huv)
    exact ⟨hv, hvl, hreach⟩

variable {l : List β}

theorem Order.tree_reaches (h : Order next root es l) {a b : β}
    (hab : ReflTransGen (Tree next l) a b) :
    ReflTransGen (Edge (without next es)) a b := hab.lift id h.tree

/-- Along forward edges one stays among the vertices found, and comes to earlier ones. -/
theorem Order.idxOf_lt (h : Order next root es l) {a b : β} (ha : a ∈ l)
    (hab : TransGen (Edge (without next es)) a b) : b ∈ l ∧ l.idxOf b < l.idxOf a := by
  induction hab with
  | single hab =>
    have hp := h.forward a ha _ hab
    exact ⟨hp.subset (by simp), idxOf_lt_of_pair h.nodup hp⟩
  | tail _ hbc ih =>
    have hp := h.forward _ ih.1 _ hbc
    exact ⟨hp.subset (by simp), Nat.lt_trans (idxOf_lt_of_pair h.nodup hp) ih.2⟩

/-- The search finds what can be reached. -/
theorem Order.found (h : Order next root es l) {x : β} (hx : ReflTransGen (Edge next) root x) :
    x ∈ l := by
  induction hx with
  | refl => exact h.root_mem
  | @tail u v _ huv ih =>
    by_cases he : (u, v) ∈ es
    · exact (h.back u v he).2.1
    · exact (h.forward u ih v (mem_without.mpr ⟨huv, he⟩)).subset (by simp)

/-- Without the retreating edges the graph has no cycle that can be reached. -/
theorem Retreats.acyclic (h : Retreats next root es) {x : β}
    (hx : ReflTransGen (Edge (without next es)) root x) :
    ¬ TransGen (Edge (without next es)) x x := by
  obtain ⟨l, hl⟩ := h.order
  intro hcycle
  have hreach : ReflTransGen (Edge next) root x := hx.lift id fun a b hab => (mem_without.mp hab).1
  exact Nat.lt_irrefl _ (hl.idxOf_lt (hl.found hreach) hcycle).2

/-- And everything that could be reached still can. -/
theorem Retreats.reaches (h : Retreats next root es) {x : β}
    (hx : ReflTransGen (Edge next) root x) :
    ReflTransGen (Edge (without next es)) root x := by
  obtain ⟨l, hl⟩ := h.order
  exact hl.tree_reaches (hl.reach x (hl.found hx))

/-- A retreating edge closes a loop of forward edges. -/
theorem Retreats.loop (h : Retreats next root es) {u v : β} (he : (u, v) ∈ es) :
    v ∈ next u ∧ ReflTransGen (Edge (without next es)) root v ∧
      ReflTransGen (Edge (without next es)) v u := by
  obtain ⟨l, hl⟩ := h.order
  obtain ⟨hv, hvl, hvu⟩ := hl.back u v he
  exact ⟨hv, hl.tree_reaches (hl.reach v hvl), hl.tree_reaches hvu⟩

end Finished

end TinyQuanta.DepthFirst
