import Mathlib.Data.Fintype.EquivFin
import NodeToolkit.Async.Prog
import NodeToolkit.Base.OMap

/-!
# Concurrent calls

A `Machine` says how one command executes atomically, what the environment may do
by itself, and which program each kind of call runs. A `Pool` is the shared state
with all calls made so far, running or finished, each with its history. An event
starts a call, lets one call execute its pending command, or is a move of the
environment; a run is a list of events, so quantifying over runs is quantifying
over every interleaving.

* `run_inv`: an invariant is kept by every run whose events satisfy a guard.
* `run_grows`: calls stay in the pool, and their histories only grow.
* `Pool.tally`: a sum over the calls, and how one event changes it.
* `Pool.Obeys`: every call of the pool follows its protocol, when it starts (`begin_obeys`)
  and at each of its commands (`advance_obeys`), so through a whole run (`run_obeys`); `Pool.Keeps` is
  the case of protocols over histories.
-/

namespace NodeToolkit.Async

variable {C : Type} {R : C → Type} {σ In Env ι α S : Type}

/-- Calls of type `ι` over a shared state `σ`. `In` is what the world outside
chooses at a step (a clock reading, the answer of a server). -/
structure Machine {C : Type} (R : C → Type) (σ In Env ι α : Type) where
  exec : In → σ → (c : C) → σ × R c
  env : Env → σ → σ
  enter : ι → σ → σ
  prog : ι → Prog R α

/-- One call: what was called, what it has done, what is left of it. -/
structure Proc {C : Type} (R : C → Type) (ι α : Type) where
  call : ι
  hist : Hist R
  rest : Prog R α

/-- The shared state and the calls, by process id. -/
structure Pool {C : Type} (R : C → Type) (σ ι α : Type) where
  st : σ
  procs : OMap ℕ (Proc R ι α)

inductive Ev (In Env ι : Type) where
  | call (pid : ℕ) (x : ι)
  | step (pid : ℕ) (i : In)
  | env (e : Env)

/-- The value a call has returned. -/
def Proc.result (p : Proc R ι α) : Option α :=
  match p.rest with
  | .ret a => some a
  | .await _ _ => none

/-- The command a call is about to execute. -/
def Proc.pending (p : Proc R ι α) : Option C :=
  match p.rest with
  | .ret _ => none
  | .await c _ => some c

/-- A call in flight: it has not returned. -/
def Proc.Running (p : Proc R ι α) : Prop := p.result = none

instance (p : Proc R ι α) : Decidable p.Running :=
  decidable_of_iff (p.result.isNone = true) Option.isNone_iff_eq_none

theorem Proc.result_eq_some {p : Proc R ι α} {a : α} : p.result = some a ↔ p.rest = .ret a := by
  unfold Proc.result
  cases p.rest <;> simp

theorem Proc.running_of_await {p : Proc R ι α} {c : C} {k : R c → Prog R α}
    (h : p.rest = .await c k) : p.Running := by
  simp [Proc.Running, Proc.result, h]

theorem Proc.not_running_of_ret {p : Proc R ι α} {a : α} (h : p.rest = .ret a) : ¬ p.Running := by
  simp [Proc.Running, Proc.result, h]

theorem Proc.pending_of_await {p : Proc R ι α} {c : C} {k : R c → Prog R α} (h : p.rest = .await c k) :
    p.pending = some c := by
  simp [Proc.pending, h]

theorem Proc.await_of_pending {p : Proc R ι α} {c : C} (h : p.pending = some c) : ∃ k, p.rest = .await c k := by
  unfold Proc.pending at h
  cases hr : p.rest with
  | ret a => simp [hr] at h
  | await c' k =>
    rw [hr] at h
    cases h
    exact ⟨k, rfl⟩

/-- No call is in flight. -/
def Pool.Quiet (w : Pool R σ ι α) : Prop :=
  ∀ pid p, w.procs.get pid = some p → ¬ p.Running

theorem Pool.quiet_iff {w : Pool R σ ι α} : w.Quiet ↔ ∀ e ∈ w.procs.entries, ¬ e.2.Running := by
  unfold Quiet
  simp only [OMap.get_eq_some, Prod.forall]

instance (w : Pool R σ ι α) : Decidable w.Quiet := decidable_of_iff _ Pool.quiet_iff.symm

/-- A pool with no calls. -/
def Pool.init (s : σ) : Pool R σ ι α := ⟨s, .empty⟩

namespace Machine

variable (M : Machine R σ In Env ι α)

/-- Start a call under a new process id. -/
def begin (w : Pool R σ ι α) (pid : ℕ) (x : ι) : Pool R σ ι α :=
  ⟨M.enter x w.st, w.procs.set pid ⟨x, [], M.prog x⟩⟩

/-- A call executes the command `c` and waits for its next one. -/
def advance (w : Pool R σ ι α) (pid : ℕ) (i : In) (p : Proc R ι α) (c : C)
    (k : R c → Prog R α) : Pool R σ ι α :=
  ⟨(M.exec i w.st c).1,
    w.procs.set pid ⟨p.call, p.hist ++ [⟨c, (M.exec i w.st c).2⟩], k (M.exec i w.st c).2⟩⟩

def step (w : Pool R σ ι α) : Ev In Env ι → Pool R σ ι α
  | .call pid x => if w.procs.get pid = none then M.begin w pid x else w
  | .step pid i =>
    match w.procs.get pid with
    | none => w
    | some p =>
      match p.rest with
      | .ret _ => w
      | .await c k => M.advance w pid i p c k
  | .env e => ⟨M.env e w.st, w.procs⟩

def run (w : Pool R σ ι α) (es : List (Ev In Env ι)) : Pool R σ ι α := es.foldl M.step w

@[simp] theorem run_nil (w : Pool R σ ι α) : M.run w [] = w := rfl

@[simp] theorem run_cons (w : Pool R σ ι α) (e : Ev In Env ι) (es : List (Ev In Env ι)) :
    M.run w (e :: es) = M.run (M.step w e) es := rfl

theorem run_append (w : Pool R σ ι α) (es es' : List (Ev In Env ι)) :
    M.run w (es ++ es') = M.run (M.run w es) es' := List.foldl_append ..

/-- Every event of a run satisfies the guard `G` in the pool it happens in. -/
def Along (G : Pool R σ ι α → Ev In Env ι → Prop) : Pool R σ ι α → List (Ev In Env ι) → Prop
  | _, [] => True
  | w, e :: es => G w e ∧ Along G (M.step w e) es

instance Along.decidable {G : Pool R σ ι α → Ev In Env ι → Prop} [∀ w e, Decidable (G w e)] :
    ∀ (w : Pool R σ ι α) (es : List (Ev In Env ι)), Decidable (M.Along G w es)
  | _, [] => inferInstanceAs (Decidable True)
  | w, e :: es =>
    have : Decidable (M.Along G (M.step w e) es) := Along.decidable _ es
    inferInstanceAs (Decidable (G w e ∧ M.Along G (M.step w e) es))

variable {M}

theorem Along.of_mem {G : Pool R σ ι α → Ev In Env ι → Prop} {es : List (Ev In Env ι)}
    (h : ∀ e ∈ es, ∀ w, G w e) : ∀ {w : Pool R σ ι α}, M.Along G w es := by
  induction es with
  | nil => exact trivial
  | cons e es ih => exact ⟨h e (by simp) _, ih fun e' he' => h e' (by simp [he'])⟩

theorem Along.append {G : Pool R σ ι α → Ev In Env ι → Prop} {es es' : List (Ev In Env ι)} :
    ∀ {w : Pool R σ ι α}, M.Along G w (es ++ es') ↔ M.Along G w es ∧ M.Along G (M.run w es) es' := by
  induction es with
  | nil => simp [Along]
  | cons e es ih => intro w; simp only [List.cons_append, Along, run_cons, ih, and_assoc]

theorem Along.and {G G' : Pool R σ ι α → Ev In Env ι → Prop} {es : List (Ev In Env ι)} :
    ∀ {w : Pool R σ ι α}, M.Along G w es → M.Along G' w es →
      M.Along (fun w e => G w e ∧ G' w e) w es := by
  induction es with
  | nil => exact fun _ _ => trivial
  | cons e es ih => exact fun h h' => ⟨⟨h.1, h'.1⟩, ih h.2 h'.2⟩

/-- **What one event can do**: start a call under an unused id, let a call execute
its pending command, change the shared state by the environment, or nothing. -/
theorem step_cases (w : Pool R σ ι α) (e : Ev In Env ι) :
    (∃ pid x, e = .call pid x ∧ w.procs.get pid = none ∧ M.step w e = M.begin w pid x) ∨
    (∃ pid i p c k, e = .step pid i ∧ w.procs.get pid = some p ∧ p.rest = .await c k ∧
      M.step w e = M.advance w pid i p c k) ∨
    (∃ v, e = .env v ∧ M.step w e = ⟨M.env v w.st, w.procs⟩) ∨ M.step w e = w := by
  cases e with
  | call pid x =>
    by_cases h : w.procs.get pid = none
    · exact Or.inl ⟨pid, x, rfl, h, by simp [step, h]⟩
    · exact Or.inr (Or.inr (Or.inr (by simp [step, h])))
  | step pid i =>
    cases hp : w.procs.get pid with
    | none => exact Or.inr (Or.inr (Or.inr (by simp [step, hp])))
    | some p =>
      cases hr : p.rest with
      | ret a => exact Or.inr (Or.inr (Or.inr (by simp [step, hp, hr])))
      | await c k =>
        exact Or.inr (Or.inl ⟨pid, i, p, c, k, rfl, hp, hr, by simp [step, hp, hr]⟩)
  | env v => exact Or.inr (Or.inr (Or.inl ⟨v, rfl, rfl⟩))

section Invariants

variable {I : Pool R σ ι α → Prop} {G : Pool R σ ι α → Ev In Env ι → Prop}
  (hcall : ∀ w pid x, I w → G w (.call pid x) → w.procs.get pid = none → I (M.begin w pid x))
  (hstep : ∀ w pid i p c k, I w → G w (.step pid i) → w.procs.get pid = some p →
    p.rest = .await c k → I (M.advance w pid i p c k))
  (henv : ∀ w v, I w → G w (.env v) → I ⟨M.env v w.st, w.procs⟩)

include hcall hstep henv

/-- What the start of a call, a command of a call and the environment keep is kept by every event. -/
theorem step_inv {w : Pool R σ ι α} {e : Ev In Env ι} (hw : I w) (hG : G w e) : I (M.step w e) := by
  rcases step_cases (M := M) w e with ⟨pid, x, rfl, hn, he⟩ | ⟨pid, i, p, c, k, rfl, hp, hr, he⟩ |
    ⟨v, rfl, he⟩ | he
  · rw [he]; exact hcall w pid x hw hG hn
  · rw [he]; exact hstep w pid i p c k hw hG hp hr
  · rw [he]; exact henv w v hw hG
  · rw [he]; exact hw

/-- **Invariants** are kept by every guarded run. -/
theorem run_inv {es : List (Ev In Env ι)} :
    ∀ {w : Pool R σ ι α}, I w → M.Along G w es → I (M.run w es) := by
  induction es with
  | nil => exact fun hw _ => hw
  | cons e es ih => exact fun hw hG => ih (step_inv hcall hstep henv hw hG.1) hG.2

/-- A guard that the invariant turns into another one. -/
theorem Along.of_inv {G' : Pool R σ ι α → Ev In Env ι → Prop} (h : ∀ w e, I w → G w e → G' w e)
    {es : List (Ev In Env ι)} : ∀ {w : Pool R σ ι α}, I w → M.Along G w es → M.Along G' w es := by
  induction es with
  | nil => exact fun _ _ => trivial
  | cons e es ih =>
    exact fun hw hG => ⟨h _ _ hw hG.1, ih (step_inv hcall hstep henv hw hG.1) hG.2⟩

end Invariants

end Machine

namespace Machine

variable {M : Machine R σ In Env ι α} {Φ : ℕ → Proc R ι α → Prop} {w : Pool R σ ι α} {pid : ℕ}

/-- The calls after one has started. -/
theorem begin_cases {q : ℕ} {p : Proc R ι α} {x : ι} (h : (M.begin w pid x).procs.get q = some p) :
    q = pid ∧ p = ⟨x, [], M.prog x⟩ ∨ q ≠ pid ∧ w.procs.get q = some p := by
  simp only [begin, OMap.get_set] at h
  split at h
  · rename_i hq; exact Or.inl ⟨hq.symm, (Option.some.inj h).symm⟩
  · rename_i hq; exact Or.inr ⟨Ne.symm hq, h⟩

/-- The calls after one has moved. -/
theorem advance_cases {q : ℕ} {p p' : Proc R ι α} {i : In} {c : C} {k : R c → Prog R α}
    (h : (M.advance w pid i p c k).procs.get q = some p') :
    q = pid ∧ p' = ⟨p.call, p.hist ++ [⟨c, (M.exec i w.st c).2⟩], k (M.exec i w.st c).2⟩ ∨
      q ≠ pid ∧ w.procs.get q = some p' := by
  simp only [advance, OMap.get_set] at h
  split at h
  · rename_i hq; exact Or.inl ⟨hq.symm, (Option.some.inj h).symm⟩
  · rename_i hq; exact Or.inr ⟨Ne.symm hq, h⟩

/-- The calls before one starts are still there. -/
theorem begin_stays {q : ℕ} {p : Proc R ι α} {x : ι} (hn : w.procs.get pid = none) (hq : w.procs.get q = some p) :
    (M.begin w pid x).procs.get q = some p := by
  have hne : pid ≠ q := by
    rintro rfl
    rw [hn] at hq
    cases hq
  exact (OMap.get_set_ne _ _ hne).trans hq

/-- No call disappears when one starts. -/
theorem get_begin_eq_none {q : ℕ} {x : ι} (h : (M.begin w pid x).procs.get q = none) : w.procs.get q = none := by
  have hne : pid ≠ q := by
    rintro rfl
    rw [begin, OMap.get_set_self] at h
    cases h
  exact (OMap.get_set_ne _ _ hne).symm.trans h

section Advance

variable {q : ℕ} {p : Proc R ι α} {i : In} {c : C} {k : R c → Prog R α}

/-- The moving call after a step. -/
theorem get_advance_self : (M.advance w pid i p c k).procs.get pid =
    some ⟨p.call, p.hist ++ [⟨c, (M.exec i w.st c).2⟩], k (M.exec i w.st c).2⟩ := OMap.get_set_self ..

/-- Any other call after a step. -/
theorem get_advance_ne (h : q ≠ pid) : (M.advance w pid i p c k).procs.get q = w.procs.get q :=
  OMap.get_set_ne _ _ h.symm

/-- No call disappears when one moves. -/
theorem get_advance_eq_none (h : (M.advance w pid i p c k).procs.get q = none) :
    q ≠ pid ∧ w.procs.get q = none := by
  have hne : q ≠ pid := by
    rintro rfl
    rw [get_advance_self] at h
    cases h
  exact ⟨hne, (get_advance_ne hne).symm.trans h⟩

end Advance

/-- What holds of every call still does when a call it holds of starts. -/
theorem begin_all (h : ∀ q p, w.procs.get q = some p → Φ q p) {x : ι} (hx : Φ pid ⟨x, [], M.prog x⟩) :
    ∀ q p, (M.begin w pid x).procs.get q = some p → Φ q p := by
  intro q p hp
  rcases begin_cases hp with ⟨rfl, rfl⟩ | ⟨-, hp⟩
  · exact hx
  · exact h q p hp

/-- What holds of every call still does when it is kept by the one that moves. -/
theorem advance_all (h : ∀ q p, w.procs.get q = some p → Φ q p) {i : In} {p : Proc R ι α} {c : C}
    {k : R c → Prog R α}
    (hx : Φ pid ⟨p.call, p.hist ++ [⟨c, (M.exec i w.st c).2⟩], k (M.exec i w.st c).2⟩) :
    ∀ q p', (M.advance w pid i p c k).procs.get q = some p' → Φ q p' := by
  intro q p' hp
  rcases advance_cases hp with ⟨rfl, rfl⟩ | ⟨-, hp⟩
  · exact hx
  · exact h q p' hp

end Machine

/-- There is always a process id that no call has. -/
theorem Pool.exists_new (w : Pool R σ ι α) : ∃ pid, w.procs.get pid = none := by
  obtain ⟨pid, hpid⟩ := Infinite.exists_notMem_finset w.procs.keys.toFinset
  exact ⟨pid, OMap.get_eq_none.2 fun h => hpid (List.mem_toFinset.2 h)⟩

/-! ## Calls stay -/

namespace Machine

variable {M : Machine R σ In Env ι α} {w : Pool R σ ι α} {q : ℕ} {p : Proc R ι α}

/-- A call stays in the pool, and its history only grows. -/
theorem step_grows (h : w.procs.get q = some p) (e : Ev In Env ι) :
    ∃ p', (M.step w e).procs.get q = some p' ∧ p'.call = p.call ∧ p.hist <+: p'.hist := by
  rcases step_cases (M := M) w e with ⟨pid, x, -, hn, he⟩ | ⟨pid, i, p₀, c, k, -, hp, -, he⟩ | ⟨v, -, he⟩ | he
  · exact ⟨p, by rw [he]; exact begin_stays hn h, rfl, List.prefix_rfl⟩
  · by_cases hq : pid = q
    · subst hq
      rw [hp] at h
      cases h
      refine ⟨⟨p.call, p.hist ++ [⟨c, (M.exec i w.st c).2⟩], k (M.exec i w.st c).2⟩, ?_, rfl, List.prefix_append ..⟩
      rw [he, get_advance_self]
    · exact ⟨p, by rw [he, get_advance_ne (Ne.symm hq), h], rfl, List.prefix_rfl⟩
  · exact ⟨p, by rw [he]; exact h, rfl, List.prefix_rfl⟩
  · exact ⟨p, by rw [he, h], rfl, List.prefix_rfl⟩

theorem run_grows {es : List (Ev In Env ι)} : ∀ {w : Pool R σ ι α} {p : Proc R ι α}, w.procs.get q = some p →
    ∃ p', (M.run w es).procs.get q = some p' ∧ p'.call = p.call ∧ p.hist <+: p'.hist := by
  induction es with
  | nil => exact fun h => ⟨_, h, rfl, List.prefix_rfl⟩
  | cons e es ih =>
    intro w p h
    obtain ⟨p₁, h₁, hcall₁, hhist₁⟩ := step_grows (M := M) h e
    obtain ⟨p₂, h₂, hcall₂, hhist₂⟩ := ih h₁
    exact ⟨p₂, h₂, hcall₂.trans hcall₁, hhist₁.trans hhist₂⟩

/-- A call that has returned stays as it is. -/
theorem step_stays {a : α} (h : w.procs.get q = some p) (ha : p.result = some a) (e : Ev In Env ι) :
    (M.step w e).procs.get q = some p := by
  rcases step_cases (M := M) w e with ⟨pid, x, -, hn, he⟩ | ⟨pid, i, p₀, c, k, -, hp, hr, he⟩ | ⟨v, -, he⟩ | he
  · rw [he]
    exact begin_stays hn h
  · have hne : q ≠ pid := by
      rintro rfl
      rw [hp] at h
      cases h
      rw [Proc.result_eq_some, hr] at ha
      cases ha
    rw [he, get_advance_ne hne, h]
  · rw [he]
    exact h
  · rw [he, h]

theorem run_stays {a : α} {es : List (Ev In Env ι)} (ha : p.result = some a) :
    ∀ {w : Pool R σ ι α}, w.procs.get q = some p → (M.run w es).procs.get q = some p := by
  induction es with
  | nil => exact fun h => h
  | cons e es ih => exact fun h => ih (step_stays h ha e)

end Machine

/-! ## Sums over the calls -/

section Tally

variable {N : Type*} [AddCommMonoid N]

/-- The sum of `f` over all calls. -/
def Pool.tally (w : Pool R σ ι α) (f : ℕ → Proc R ι α → N) : N := w.procs.sumOf f

variable {M : Machine R σ In Env ι α} {w : Pool R σ ι α} {pid : ℕ} {f : ℕ → Proc R ι α → N}

/-- A call that starts adds its own summand. -/
theorem Machine.tally_begin {x : ι} (hn : w.procs.get pid = none) :
    (M.begin w pid x).tally f = w.tally f + f pid ⟨x, [], M.prog x⟩ := OMap.sumOf_set_new f hn

/-- A call that moves exchanges its own summand. -/
theorem Machine.tally_advance {i : In} {p : Proc R ι α} {c : C} {k : R c → Prog R α}
    (hp : w.procs.get pid = some p) : (M.advance w pid i p c k).tally f + f pid p = w.tally f +
      f pid ⟨p.call, p.hist ++ [⟨c, (M.exec i w.st c).2⟩], k (M.exec i w.st c).2⟩ :=
  OMap.sumOf_set f hp

theorem Pool.tally_eq_zero (h : ∀ pid p, w.procs.get pid = some p → f pid p = 0) : w.tally f = 0 :=
  (OMap.sumOf_congr h).trans OMap.sumOf_zero

theorem Pool.tally_add {f g : ℕ → Proc R ι α → N} :
    (w.tally fun pid p => f pid p + g pid p) = w.tally f + w.tally g := OMap.sumOf_add

theorem Pool.tally_congr {f g : ℕ → Proc R ι α → N}
    (h : ∀ pid p, w.procs.get pid = some p → f pid p = g pid p) : w.tally f = w.tally g :=
  OMap.sumOf_congr h

theorem Pool.tally_le {f g : ℕ → Proc R ι α → ℤ}
    (h : ∀ pid p, w.procs.get pid = some p → f pid p ≤ g pid p) : w.tally f ≤ w.tally g :=
  OMap.sumOf_le h

theorem Pool.tally_nonneg {f : ℕ → Proc R ι α → ℤ}
    (h : ∀ pid p, w.procs.get pid = some p → 0 ≤ f pid p) : 0 ≤ w.tally f := by
  have h0 := Pool.tally_le h
  rwa [Pool.tally_eq_zero fun _ _ _ => rfl] at h0

end Tally

/-- Every call of the pool follows the protocol, from the state its history leads to. -/
def Pool.Obeys (P : ι → Protocol R S α) (s₀ : ι → S) (w : Pool R σ ι α) : Prop :=
  ∀ pid p, w.procs.get pid = some p → p.rest.Follows (P p.call) ((P p.call).after (s₀ p.call) p.hist)

/-- The empty pool obeys every protocol. -/
theorem Pool.obeys_init (P : ι → Protocol R S α) (s₀ : ι → S) (s : σ) :
    (Pool.init s : Pool R σ ι α).Obeys P s₀ := by
  intro pid p h; simp [Pool.init] at h

namespace Machine

variable {M : Machine R σ In Env ι α} {P : ι → Protocol R S α} {s₀ : ι → S}

theorem begin_obeys {w : Pool R σ ι α} (hw : w.Obeys P s₀) (pid : ℕ) {x : ι}
    (hx : (M.prog x).Follows (P x) (s₀ x)) : (M.begin w pid x).Obeys P s₀ :=
  begin_all hw hx

theorem advance_obeys {w : Pool R σ ι α} (hw : w.Obeys P s₀) {pid : ℕ} (i : In) {p : Proc R ι α}
    {c : C} {k : R c → Prog R α} (hp : w.procs.get pid = some p) (hr : p.rest = .await c k) :
    (M.advance w pid i p c k).Obeys P s₀ := by
  refine advance_all hw ?_
  have h := hw pid p hp
  rw [hr] at h
  simp only [Protocol.after_snoc]
  exact h.2 _

/-- **Every run obeys** the protocols that the programs follow. -/
theorem run_obeys (hprog : ∀ x, (M.prog x).Follows (P x) (s₀ x)) {w : Pool R σ ι α} (hw : w.Obeys P s₀)
    (es : List (Ev In Env ι)) : (M.run w es).Obeys P s₀ := by
  refine run_inv (G := fun _ _ => True) ?_ ?_ (fun _ _ hw _ => hw) hw (.of_mem fun _ _ _ => trivial)
  · intro w pid x hw _ _
    exact begin_obeys hw pid (hprog x)
  · intro w pid i p c k hw _ hp hr
    exact advance_obeys hw i hp hr

end Machine

/-! ## Protocols over histories -/

section Hist

variable {may : ι → Hist R → C → Prop} {fin : ι → Hist R → α → Prop} {M : Machine R σ In Env ι α}
  {w : Pool R σ ι α} {pid : ℕ} {p : Proc R ι α}

/-- Every call keeps to what `may` and `fin` allow after its history. -/
abbrev Pool.Keeps (may : ι → Hist R → C → Prop) (fin : ι → Hist R → α → Prop)
    (w : Pool R σ ι α) : Prop :=
  w.Obeys (fun x => .ofHist (may x) (fin x)) fun _ => []

theorem Pool.Keeps.allowed {c : C} {k : R c → Prog R α} (hw : w.Keeps may fin)
    (hp : w.procs.get pid = some p) (hr : p.rest = .await c k) : may p.call p.hist c := by
  have h := hw pid p hp
  rw [hr, Protocol.ofHist_after] at h
  exact h.1

theorem Pool.Keeps.returned {a : α} (hw : w.Keeps may fin) (hp : w.procs.get pid = some p)
    (hr : p.result = some a) : fin p.call p.hist a := by
  have h := hw pid p hp
  rw [Proc.result_eq_some.1 hr, Protocol.ofHist_after] at h
  exact h

end Hist

end NodeToolkit.Async
