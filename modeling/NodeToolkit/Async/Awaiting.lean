import NodeToolkit.Async.Pool

/-!
# What the calls in flight are about to do

`w.Awaits φ`: some call of the pool awaits a command that satisfies `φ`, which may look at the
number of the call as well. A call that moves takes its own command out of what is awaited
(`Awaits.cases`), leaves that of the others (`Awaits.advance`), and may await another one
(`awaits_self`); in a quiet pool nothing is awaited.
-/

namespace NodeToolkit.Async

variable {C : Type} {R : C → Type} {σ In Env ι α : Type}

/-- A call awaits a command that satisfies `φ`. -/
def Pool.Awaits (w : Pool R σ ι α) (φ : ℕ → C → Prop) : Prop :=
  ∃ q p c, w.procs.get q = some p ∧ p.pending = some c ∧ φ q c

/-- Another call than `pid` does. -/
def Pool.AwaitsBut (w : Pool R σ ι α) (pid : ℕ) (φ : C → Prop) : Prop := w.Awaits fun q c => q ≠ pid ∧ φ c

namespace Pool

variable {w : Pool R σ ι α} {φ ψ : ℕ → C → Prop}

theorem awaits_iff : w.Awaits φ ↔ ∃ e ∈ w.procs.entries, ∃ c ∈ e.2.pending, φ e.1 c := by
  constructor
  · rintro ⟨q, p, c, hp, hc, hφ⟩
    exact ⟨(q, p), OMap.get_eq_some.1 hp, c, hc, hφ⟩
  · rintro ⟨e, he, c, hc, hφ⟩
    exact ⟨e.1, e.2, c, OMap.get_eq_some.2 he, hc, hφ⟩

instance [∀ q, DecidablePred (φ q)] : Decidable (w.Awaits φ) :=
  have (e : ℕ × Proc R ι α) : Decidable (∃ c ∈ e.2.pending, φ e.1 c) :=
    match h : e.2.pending with
    | none => .isFalse (by simp)
    | some c => decidable_of_iff (φ e.1 c) (by simp)
  decidable_of_iff _ awaits_iff.symm

instance {pid : ℕ} {φ : C → Prop} [DecidablePred φ] : Decidable (w.AwaitsBut pid φ) :=
  inferInstanceAs (Decidable (w.Awaits _))

theorem Awaits.mono (h : ∀ q c, φ q c → ψ q c) (hw : w.Awaits φ) : w.Awaits ψ := by
  obtain ⟨q, p, c, hp, hc, hφ⟩ := hw
  exact ⟨q, p, c, hp, hc, h q c hφ⟩

theorem not_awaits_init (s : σ) : ¬ (Pool.init s : Pool R σ ι α).Awaits φ := by
  rintro ⟨q, p, c, hp, -⟩
  simp [Pool.init] at hp

theorem Quiet.not_awaits (hw : w.Quiet) : ¬ w.Awaits φ := by
  rintro ⟨q, p, c, hp, hc, -⟩
  obtain ⟨k, hr⟩ := Proc.await_of_pending hc
  exact hw q p hp (Proc.running_of_await hr)

/-- The command of one call, or that of another one. -/
theorem Awaits.cases {pid : ℕ} {p : Proc R ι α} {c : C} {k : R c → Prog R α} {φ : C → Prop}
    (hp : w.procs.get pid = some p)
    (hr : p.rest = .await c k) (hw : w.Awaits fun _ => φ) : φ c ∨ w.AwaitsBut pid φ := by
  obtain ⟨q, p', c', hp', hc', hφ⟩ := hw
  by_cases hq : q = pid
  · left
    subst hq
    obtain rfl := Option.some.inj (hp.symm.trans hp')
    obtain rfl := Option.some.inj ((Proc.pending_of_await hr).symm.trans hc')
    exact hφ
  · exact Or.inr ⟨q, p', c', hp', hc', hq, hφ⟩

theorem AwaitsBut.awaits {pid : ℕ} {φ : C → Prop} (h : w.AwaitsBut pid φ) : w.Awaits fun _ => φ :=
  h.mono fun _ _ hφ => hφ.2

end Pool

namespace Machine

variable {M : Machine R σ In Env ι α} {w : Pool R σ ι α} {pid : ℕ} {φ : C → Prop}

/-- A call that starts leaves what is awaited. -/
theorem awaits_begin {x : ι} (hn : w.procs.get pid = none) (h : w.Awaits fun _ => φ) :
    (M.begin w pid x).Awaits fun _ => φ := by
  obtain ⟨q, p, c, hp, hc, hφ⟩ := h
  exact ⟨q, p, c, begin_stays hn hp, hc, hφ⟩

variable {i : In} {p : Proc R ι α} {c : C} {k : R c → Prog R α}

/-- A call that moves leaves what the others await. -/
theorem awaits_advance (h : w.AwaitsBut pid φ) : (M.advance w pid i p c k).Awaits fun _ => φ := by
  obtain ⟨q, p', c', hp, hc, hq, hφ⟩ := h
  exact ⟨q, p', c', (get_advance_ne hq).trans hp, hc, hφ⟩

/-- A call that moves may await another command. -/
theorem awaits_self {c' : C} {k' : R c' → Prog R α} (h : k (M.exec i w.st c).2 = .await c' k') (hφ : φ c') :
    (M.advance w pid i p c k).Awaits fun _ => φ :=
  ⟨pid, _, c', get_advance_self, Proc.pending_of_await h, hφ⟩

/-- What is awaited after a call has moved. -/
theorem awaits_advance_cases (h : (M.advance w pid i p c k).Awaits fun _ => φ) :
    (∃ c' k', k (M.exec i w.st c).2 = .await c' k' ∧ φ c') ∨ w.AwaitsBut pid φ := by
  obtain ⟨q, p', c', hp, hc, hφ⟩ := h
  rcases advance_cases hp with ⟨rfl, rfl⟩ | ⟨hq, hp⟩
  · obtain ⟨k', hk'⟩ := Proc.await_of_pending hc
    exact Or.inl ⟨c', k', hk', hφ⟩
  · exact Or.inr ⟨q, p', c', hp, hc, hq, hφ⟩

end Machine

end NodeToolkit.Async
