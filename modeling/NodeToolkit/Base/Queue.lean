import Mathlib.Data.List.Basic
import Mathlib.Algebra.Order.Floor.Div

/-!
# Bounded queues served in batches

A first-in first-out queue that turns an arrival away when `capacity` items wait,
and serves at most `rate` items at a time.

* `length_waiting_run`: at most `capacity` items ever wait.
* `accepted_run`: the items let in are the items served, in that order, followed by
  the items waiting: none is lost, duplicated or overtaken.
* `served_run`, `waiting_run`: an item that waits at index `i` is among the served
  after `n` more batches exactly if `i < n * rate` (`count_served` counts from `1`).
-/

namespace NodeToolkit

/-- A queue with the items it has let in and those it has served, oldest first. -/
structure Queue (α : Type*) where
  waiting : List α
  accepted : List α
  served : List α

namespace Queue

variable {α : Type*}

inductive Op (α : Type*) where
  | arrive (a : α)
  | serve

def empty : Queue α := ⟨[], [], []⟩

variable (capacity rate : ℕ)

def step (q : Queue α) : Op α → Queue α
  | .arrive a =>
    if q.waiting.length < capacity then ⟨q.waiting ++ [a], q.accepted ++ [a], q.served⟩ else q
  | .serve => ⟨q.waiting.drop rate, q.accepted, q.served ++ q.waiting.take rate⟩

def run (q : Queue α) (ops : List (Op α)) : Queue α := ops.foldl (step capacity rate) q

/-- The number of batches. -/
def serves (ops : List (Op α)) : ℕ :=
  ops.countP fun
    | .serve => true
    | .arrive _ => false

variable {capacity rate} {q : Queue α}

@[simp] theorem run_nil : run capacity rate q [] = q := rfl

@[simp] theorem run_cons (op : Op α) (ops : List (Op α)) :
    run capacity rate q (op :: ops) = run capacity rate (step capacity rate q op) ops := rfl

theorem run_append (ops ops' : List (Op α)) :
    run capacity rate q (ops ++ ops') = run capacity rate (run capacity rate q ops) ops' :=
  List.foldl_append ..

variable (capacity rate)

/-- **Capacity.** -/
theorem length_waiting_run (ops : List (Op α)) (h : q.waiting.length ≤ capacity) :
    (run capacity rate q ops).waiting.length ≤ capacity := by
  induction ops generalizing q with
  | nil => exact h
  | cons op ops ih =>
    rw [run_cons]
    refine ih ?_
    cases op with
    | arrive a =>
      by_cases hlt : q.waiting.length < capacity
      · simp only [step, if_pos hlt, List.length_append, List.length_singleton]; omega
      · simpa only [step, if_neg hlt] using h
    | serve => simp only [step, List.length_drop]; omega

/-- **Conservation and order.** -/
theorem accepted_run (ops : List (Op α)) (h : q.accepted = q.served ++ q.waiting) :
    (run capacity rate q ops).accepted =
      (run capacity rate q ops).served ++ (run capacity rate q ops).waiting := by
  induction ops generalizing q with
  | nil => exact h
  | cons op ops ih =>
    rw [run_cons]
    refine ih ?_
    cases op with
    | arrive a =>
      by_cases hlt : q.waiting.length < capacity
      · simp only [step, if_pos hlt, h, List.append_assoc]
      · simpa only [step, if_neg hlt] using h
    | serve => simp only [step, h, List.append_assoc, List.take_append_drop]

/-- What is served goes out in the order of the queue. -/
theorem served_run (ops : List (Op α)) :
    q.served ++ q.waiting.take (serves ops * rate) <+: (run capacity rate q ops).served := by
  induction ops generalizing q with
  | nil => simp [serves]
  | cons op ops ih =>
    rw [run_cons]
    refine List.IsPrefix.trans ?_ ih
    cases op with
    | arrive a =>
      have hs : serves (.arrive a :: ops) = serves ops := by simp [serves]
      rw [hs]
      by_cases hlt : q.waiting.length < capacity
      · simp only [step, if_pos hlt]
        exact (List.prefix_append_right_inj _).2 ((List.prefix_append _ _).take _)
      · simp only [step, if_neg hlt]; exact List.prefix_rfl
    | serve =>
      have hs : serves (.serve :: ops) * rate = rate + serves ops * rate := by
        simp [serves, Nat.add_mul, Nat.add_comm]
      simp only [step, hs, List.append_assoc, List.take_add]
      exact List.prefix_rfl

/-- What is not served yet keeps its place. -/
theorem waiting_run (ops : List (Op α)) :
    q.waiting.drop (serves ops * rate) <+: (run capacity rate q ops).waiting := by
  induction ops generalizing q with
  | nil => simp [serves]
  | cons op ops ih =>
    rw [run_cons]
    refine List.IsPrefix.trans ?_ ih
    cases op with
    | arrive a =>
      have hs : serves (.arrive a :: ops) = serves ops := by simp [serves]
      rw [hs]
      by_cases hlt : q.waiting.length < capacity
      · simp only [step, if_pos hlt]
        exact (List.prefix_append _ _).drop _
      · simp only [step, if_neg hlt]; exact List.prefix_rfl
    | serve =>
      have hs : serves (.serve :: ops) * rate = rate + serves ops * rate := by
        simp [serves, Nat.add_mul, Nat.add_comm]
      simp only [step, hs, List.drop_drop]
      exact List.prefix_rfl

variable {capacity rate}

/-- **Release.** An item that waits at position `p` (the head is at `1`) is served exactly
once after `⌈p / rate⌉` batches or more, and not before. -/
theorem count_served [DecidableEq α] {ops : List (Op α)} (h : q.accepted = q.served ++ q.waiting)
    (hnd : (run capacity rate q ops).accepted.Nodup) (hr : 0 < rate) {p : ℕ} (hp : 0 < p) {a : α}
    (ha : q.waiting[p - 1]? = some a) :
    (run capacity rate q ops).served.count a = if p ⌈/⌉ rate ≤ serves ops then 1 else 0 := by
  rw [accepted_run capacity rate ops h] at hnd
  have hiff : p ⌈/⌉ rate ≤ serves ops ↔ p ≤ serves ops * rate := by
    rw [ceilDiv_le_iff_le_mul hr, Nat.mul_comm]
  by_cases hle : p ≤ serves ops * rate
  · have hmem : a ∈ q.waiting.take (serves ops * rate) := by
      refine List.mem_of_getElem? (i := p - 1) ?_
      rw [List.getElem?_take_of_lt (by omega), ha]
    have hs := (served_run capacity rate ops).subset (List.mem_append_right _ hmem)
    rw [if_pos (hiff.2 hle), List.count_eq_one_of_mem (List.Nodup.of_append_left hnd) hs]
  · have hmem : a ∈ q.waiting.drop (serves ops * rate) := by
      refine List.mem_of_getElem? (i := p - 1 - serves ops * rate) ?_
      rw [List.getElem?_drop, ← ha]
      congr 1
      omega
    have hw := (waiting_run capacity rate ops).subset hmem
    rw [if_neg (mt hiff.1 hle), List.count_eq_zero]
    exact fun hs => List.disjoint_of_nodup_append hnd hs hw

end Queue

end NodeToolkit
