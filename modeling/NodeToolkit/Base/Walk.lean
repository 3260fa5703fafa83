import Mathlib.Data.List.Basic

/-!
# Following links

`Walk next a l`: from `a`, following `next` until it leads nowhere visits the elements of `l`
in this order. A walk is finite, so having one says that following the links ends.

* `Walk.reverse`: links that lead back retrace a walk from its end.
-/

namespace NodeToolkit

variable {α : Type*} {next prev : α → Option α} {a b : α} {l l' : List α}

inductive Walk (next : α → Option α) : α → List α → Prop
  | last {a : α} (h : next a = none) : Walk next a [a]
  | more {a b : α} {l : List α} (h : next a = some b) (hl : Walk next b l) : Walk next a (a :: l)

namespace Walk

/-- A walk back from where another one starts, made longer by the way there. -/
theorem retrace (h : Walk next a l) (hback : ∀ x ∈ l, ∀ y, next x = some y → prev y = some x) :
    ∀ {done : List α}, Walk prev a (a :: done) →
      ∃ z, l.getLast? = some z ∧ Walk prev z (l.reverse ++ done) := by
  induction h with
  | last => exact fun hdone => ⟨_, rfl, hdone⟩
  | @more a b l hs hl ih =>
    intro done hdone
    rw [List.forall_mem_cons] at hback
    have hb : Walk prev b (b :: a :: done) := .more (hback.1 b hs) hdone
    obtain ⟨z, hz, hwalk⟩ := ih hback.2 hb
    refine ⟨z, ?_, ?_⟩
    · rw [List.getLast?_cons, hz, Option.getD_some]
    · rw [List.reverse_cons, List.append_assoc, List.singleton_append]
      exact hwalk

/-- **A walk retraced** from its end. -/
theorem reverse (h : Walk next a l) (hback : ∀ x ∈ l, ∀ y, next x = some y → prev y = some x)
    (ha : prev a = none) : ∃ z, l.getLast? = some z ∧ Walk prev z l.reverse := by
  obtain ⟨z, hz, hwalk⟩ := h.retrace hback (.last ha)
  rw [List.append_nil] at hwalk
  exact ⟨z, hz, hwalk⟩

end Walk

end NodeToolkit
