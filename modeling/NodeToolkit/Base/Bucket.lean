import Mathlib.Algebra.Order.Group.Defs
import Mathlib.Algebra.Order.Group.MinMax
import Mathlib.Logic.Function.Basic

/-!
# The reference token bucket

What a token bucket is for: every key has a level of tokens between zero and the
capacity; a request takes its tokens if they are there and takes nothing
otherwise; a refill adds to every level, up to the capacity.

* `step_bounded`: levels stay between zero and the capacity.
-/

namespace NodeToolkit

namespace Bucket

variable {κ M : Type*}

inductive Op (κ M : Type*) where
  | take (k : κ) (n : M)
  | look (k : κ)
  | fill

variable [DecidableEq κ] [AddCommGroup M] [LinearOrder M] (capacity rate : M)

/-- The levels after an operation, and the level it reports (`none` if refused). -/
def step (b : κ → M) : Op κ M → (κ → M) × Option M
  | .take k n => if n ≤ b k then (Function.update b k (b k - n), some (b k - n)) else (b, none)
  | .look k => (b, some (b k))
  | .fill => (fun k => min capacity (b k + rate), none)

/-- No negative amount is taken. -/
def Op.Proper : Op κ M → Prop
  | .take _ n => 0 ≤ n
  | _ => True

variable [IsOrderedAddMonoid M] {capacity rate} {b : κ → M}

/-- **Levels stay within the bucket.** -/
theorem step_bounded (hc : 0 ≤ capacity) (hr : 0 ≤ rate) {k : κ} (hb : 0 ≤ b k ∧ b k ≤ capacity)
    {op : Op κ M} (hop : op.Proper) :
    0 ≤ (step capacity rate b op).1 k ∧ (step capacity rate b op).1 k ≤ capacity := by
  cases op with
  | take j n =>
    by_cases h : n ≤ b j
    · simp only [step, if_pos h, Function.update_apply]
      split
      · rename_i hk; subst hk
        exact ⟨sub_nonneg.2 h, (sub_le_self _ hop).trans hb.2⟩
      · exact hb
    · simpa only [step, if_neg h] using hb
  | look j => exact hb
  | fill => exact ⟨le_min hc (add_nonneg hb.1 hr), min_le_left _ _⟩

end Bucket

end NodeToolkit
