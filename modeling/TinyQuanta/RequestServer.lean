import Mathlib.Data.Multiset.AddSub
import Mathlib.Data.Multiset.MapFold

/-!
# Servers of independent requests

What a server does, seen from outside: it receives requests, and each one that waits is
dropped, refused because it is not acceptable, or answered. A response can fail to leave.
Nothing orders the requests among each other.
-/
namespace TinyQuanta.RequestServer

variable {α β : Type}

/-- Which requests are answered, and how. -/
structure Service (α β : Type) where
  accepts : α → Bool
  respond : α → β

inductive Event (α β : Type) where
  | received (m : α)
  | dropped (m : α)
  | refused (m : α)
  | sent (r : β)
  | unsent (r : β)
  deriving DecidableEq, Repr

/-- The state of the server is the requests that wait. -/
inductive Step (v : Service α β) : Multiset α → Event α β → Multiset α → Prop where
  | received (m : α) (w : Multiset α) : Step v w (.received m) (m ::ₘ w)
  | dropped (m : α) (w : Multiset α) : Step v (m ::ₘ w) (.dropped m) w
  | refused (m : α) (w : Multiset α) (h : v.accepts m = false) : Step v (m ::ₘ w) (.refused m) w
  | sent (m : α) (w : Multiset α) (h : v.accepts m = true) : Step v (m ::ₘ w)
      (.sent (v.respond m)) w
  | unsent (m : α) (w : Multiset α) (h : v.accepts m = true) : Step v (m ::ₘ w)
      (.unsent (v.respond m)) w

inductive Run (v : Service α β) : Multiset α → List (Event α β) → Multiset α → Prop where
  | nil (w : Multiset α) : Run v w [] w
  | cons {w u x : Multiset α} {e : Event α β} {es : List (Event α β)} (h : Step v w e u)
      (hs : Run v u es x) :
    Run v w (e :: es) x

variable {v : Service α β} {w u x : Multiset α}

theorem Run.append {es fs : List (Event α β)} (h : Run v w es u) (h' : Run v u fs x) :
    Run v w (es ++ fs) x := by
  induction h with
  | nil w => exact h'
  | cons hstep hs ih => exact .cons hstep (ih h')

/-- Other requests may wait meanwhile. -/
theorem Step.add {e : Event α β} (h : Step v w e u) (y : Multiset α) :
    Step v (w + y) e (u + y) := by
  cases h with
  | received m w =>
    rw [Multiset.cons_add]
    exact .received m _
  | dropped m w =>
    rw [Multiset.cons_add]
    exact .dropped m _
  | refused m w h =>
    rw [Multiset.cons_add]
    exact .refused m _ h
  | sent m w h =>
    rw [Multiset.cons_add]
    exact .sent m _ h
  | unsent m w h =>
    rw [Multiset.cons_add]
    exact .unsent m _ h

theorem Run.add {es : List (Event α β)} (h : Run v w es u) (y : Multiset α) :
    Run v (w + y) es (u + y) := by
  induction h with
  | nil w => exact .nil _
  | cons hstep hs ih => exact .cons (hstep.add y) ih

theorem Run.receive (ms : List α) (w : Multiset α) : Run v w (ms.map .received) (ms + w) := by
  induction ms generalizing w with
  | nil =>
    rw [Multiset.coe_nil, Multiset.zero_add]
    exact .nil w
  | cons m ms ih =>
    refine .cons (.received m w) ?_
    rw [← Multiset.cons_coe, Multiset.cons_add, ← Multiset.add_cons]
    exact ih (m ::ₘ w)

/-- Requests that are done with in one way, one after the other. -/
theorem Run.settle {ms : List α} {f : α → Event α β} (h : ∀ m ∈ ms, ∀ w, Step v (m ::ₘ w) (f m) w)
    (w : Multiset α) : Run v (ms + w) (ms.map f) w := by
  induction ms with
  | nil =>
    rw [Multiset.coe_nil, Multiset.zero_add]
    exact .nil w
  | cons m ms ih =>
    rw [← Multiset.cons_coe, Multiset.cons_add]
    exact .cons (h m List.mem_cons_self _) (ih fun k hk => h k (List.mem_cons_of_mem m hk))

/-! ## The books of a run -/

def Event.ins : Event α β → List α
  | .received m => [m]
  | _ => []

def Event.drops : Event α β → List α
  | .dropped m => [m]
  | _ => []

def Event.refusals : Event α β → List α
  | .refused m => [m]
  | _ => []

def Event.outs : Event α β → List β
  | .sent r => [r]
  | _ => []

def Event.failures : Event α β → List β
  | .unsent r => [r]
  | _ => []

/-- Every request that was there or came in still waits, was dropped, was refused for a reason, or
is one that the service accepts and whose response was sent, or failed to leave, for it alone. -/
structure Books (v : Service α β) (w : Multiset α) (es : List (Event α β))
    (u answered failed : Multiset α) : Prop where
  balance : w + (es.flatMap Event.ins : List α) =
    u + (es.flatMap Event.drops : List α) + (es.flatMap Event.refusals : List α) + answered + failed
  sent : (es.flatMap Event.outs : List β) = answered.map v.respond
  unsent : (es.flatMap Event.failures : List β) = failed.map v.respond
  accepted : ∀ m ∈ answered + failed, v.accepts m = true
  refused : ∀ m ∈ es.flatMap Event.refusals, v.accepts m = false

theorem Run.books {es : List (Event α β)} (h : Run v w es u) :
    ∃ answered failed, Books v w es u answered failed := by
  induction h with
  | nil w => exact ⟨0, 0, by simp, rfl, rfl, by simp, by simp⟩
  | cons hstep hs ih =>
    obtain ⟨a, f, hb⟩ := ih
    have hbal := hb.balance
    cases hstep with
    | received m w =>
      refine ⟨a, f, ?_, hb.sent, hb.unsent, hb.accepted, hb.refused⟩
      simpa [Event.ins, Event.drops, Event.refusals, ← Multiset.cons_coe] using hbal
    | dropped m w =>
      refine ⟨a, f, ?_, hb.sent, hb.unsent, hb.accepted, hb.refused⟩
      simpa [Event.ins, Event.drops, Event.refusals, ← Multiset.cons_coe] using hbal
    | refused m w hm =>
      refine ⟨a, f, ?_, hb.sent, hb.unsent, hb.accepted, ?_⟩
      · simpa [Event.ins, Event.drops, Event.refusals, ← Multiset.cons_coe] using hbal
      · simpa [Event.refusals, hm] using hb.refused
    | sent m w hm =>
      refine ⟨m ::ₘ a, f, ?_, ?_, hb.unsent, ?_, hb.refused⟩
      · simpa [Event.ins, Event.drops, Event.refusals, ← Multiset.cons_coe] using hbal
      · simpa [Event.outs, ← Multiset.cons_coe] using hb.sent
      · simpa [hm] using hb.accepted
    | unsent m w hm =>
      refine ⟨a, m ::ₘ f, ?_, hb.sent, ?_, ?_, hb.refused⟩
      · simpa [Event.ins, Event.drops, Event.refusals, ← Multiset.cons_coe] using hbal
      · simpa [Event.failures, ← Multiset.cons_coe] using hb.unsent
      · simpa [hm] using hb.accepted

end TinyQuanta.RequestServer
