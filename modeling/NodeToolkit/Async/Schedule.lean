import NodeToolkit.Async.Pool

/-!
# Conditions on the schedule

What is assumed of a run is often about the order of its events, and not about the state.

* `AlongPast`: every event satisfies a guard that may look at all events before it. `AlongPast.inv` is its
  rule of induction, and `AlongPast.of_along` leads to it from a guard that only looks at the pool.
* `InTurn`: a call starts only when no call that clashes with it is in flight. In such a run two calls that
  clash are never in flight together (`run_separate`).
-/

namespace NodeToolkit.Async

variable {C : Type} {R : C → Type} {σ In Env ι α : Type}

/-- Every event satisfies the guard, which may look at the events before it. -/
def AlongPast (G : List (Ev In Env ι) → Ev In Env ι → Prop) : List (Ev In Env ι) → List (Ev In Env ι) → Prop
  | _, [] => True
  | past, e :: es => G past e ∧ AlongPast G (past ++ [e]) es

instance AlongPast.decidable {G : List (Ev In Env ι) → Ev In Env ι → Prop} [∀ past e, Decidable (G past e)] :
    ∀ past es : List (Ev In Env ι), Decidable (AlongPast G past es)
  | _, [] => inferInstanceAs (Decidable True)
  | past, e :: es =>
    have : Decidable (AlongPast G (past ++ [e]) es) := AlongPast.decidable _ es
    inferInstanceAs (Decidable (G past e ∧ AlongPast G (past ++ [e]) es))

section Past

variable {G : List (Ev In Env ι) → Ev In Env ι → Prop} {I : List (Ev In Env ι) → Prop}

/-- **Induction along a run**: what every guarded event keeps of the events so far. -/
theorem AlongPast.inv (hsnoc : ∀ past e, I past → G past e → I (past ++ [e])) {es : List (Ev In Env ι)} :
    ∀ {past : List (Ev In Env ι)}, I past → AlongPast G past es → I (past ++ es) := by
  induction es with
  | nil =>
    intro past hI _
    rw [List.append_nil]
    exact hI
  | cons e es ih =>
    intro past hI hes
    have hI' := ih (hsnoc past e hI hes.1) hes.2
    rw [List.append_assoc, List.singleton_append] at hI'
    exact hI'

/-- A guard together with what holds of the events themselves. -/
theorem AlongPast.and_mem {Q : Ev In Env ι → Prop} {es : List (Ev In Env ι)} :
    ∀ {past : List (Ev In Env ι)}, (∀ e ∈ es, Q e) → AlongPast G past es →
      AlongPast (fun past e => Q e ∧ G past e) past es := by
  induction es with
  | nil => exact fun _ _ => trivial
  | cons e es ih =>
    intro past hQ hes
    rw [List.forall_mem_cons] at hQ
    exact ⟨⟨hQ.1, hes.1⟩, ih hQ.2 hes.2⟩

/-- A guard on the pool that implies one on the past. -/
theorem AlongPast.of_along {M : Machine R σ In Env ι α} {w : Pool R σ ι α} {H : Pool R σ ι α → Ev In Env ι → Prop}
    (h : ∀ past e, M.Along H w past → H (M.run w past) e → G past e) {es : List (Ev In Env ι)}
    (hes : M.Along H w es) : AlongPast G [] es := by
  have key : ∀ (es past : List (Ev In Env ι)), M.Along H w past → M.Along H (M.run w past) es →
      AlongPast G past es := by
    intro es
    induction es with
    | nil => exact fun _ _ _ => trivial
    | cons e es ih =>
      intro past hpast hes
      have hsnoc : M.Along H w (past ++ [e]) := Machine.Along.append.2 ⟨hpast, hes.1, trivial⟩
      refine ⟨h past e hpast hes.1, ih (past ++ [e]) hsnoc ?_⟩
      rw [Machine.run_append]
      exact hes.2
  exact key es [] trivial hes

end Past

/-! ## Calls in turn -/

variable {clash : ι → ι → Prop} {w : Pool R σ ι α}

/-- A call starts only when no call that clashes with it is in flight. -/
def InTurn (clash : ι → ι → Prop) (w : Pool R σ ι α) : Ev In Env ι → Prop
  | .call _ x => ∀ e ∈ w.procs.entries, e.2.Running → ¬ clash e.2.call x
  | .step _ _ => True
  | .env _ => True

/-- Two calls that clash are not in flight together. -/
def Pool.Separate (clash : ι → ι → Prop) (w : Pool R σ ι α) : Prop :=
  ∀ q q' p p', w.procs.get q = some p → w.procs.get q' = some p' → p.Running → p'.Running →
    clash p.call p'.call → q = q'

theorem separate_init (s : σ) : (Pool.init s : Pool R σ ι α).Separate clash := by
  intro q q' p p' hp
  simp [Pool.init] at hp

section Separate

variable {M : Machine R σ In Env ι α} {pid : ℕ}

theorem Pool.Separate.begin (hsymm : ∀ x y, clash x y → clash y x) (hw : w.Separate clash) {x : ι}
    (hx : InTurn clash w (.call pid x : Ev In Env ι)) : (M.begin w pid x).Separate clash := by
  have hfree : ∀ q p, w.procs.get q = some p → p.Running → ¬ clash p.call x :=
    fun q p hp => hx (q, p) (OMap.get_eq_some.1 hp)
  intro q q' p p' hp hp' hrun hrun' hcl
  rcases Machine.begin_cases hp with ⟨rfl, rfl⟩ | ⟨-, hold⟩
  · rcases Machine.begin_cases hp' with ⟨rfl, -⟩ | ⟨-, hold'⟩
    · rfl
    · exact absurd (hsymm _ _ hcl) (hfree q' p' hold' hrun')
  · rcases Machine.begin_cases hp' with ⟨-, rfl⟩ | ⟨-, hold'⟩
    · exact absurd hcl (hfree q p hold hrun)
    · exact hw q q' p p' hold hold' hrun hrun' hcl

/-- A call that moves was in flight before. -/
theorem Pool.Separate.advance (hw : w.Separate clash) {i : In} {p : Proc R ι α} {c : C} {k : R c → Prog R α}
    (hp : w.procs.get pid = some p) (hr : p.rest = .await c k) : (M.advance w pid i p c k).Separate clash := by
  have hbefore : ∀ q p', (M.advance w pid i p c k).procs.get q = some p' → p'.Running →
      ∃ p₀, w.procs.get q = some p₀ ∧ p₀.Running ∧ p₀.call = p'.call := by
    intro q p' hq hrun
    rcases Machine.advance_cases hq with ⟨rfl, rfl⟩ | ⟨-, hold⟩
    · exact ⟨p, hp, Proc.running_of_await hr, rfl⟩
    · exact ⟨p', hold, hrun, rfl⟩
  intro q q' p₁ p₂ hq hq' hrun hrun' hcl
  obtain ⟨p₁', h₁, hrun₁, hcall₁⟩ := hbefore q p₁ hq hrun
  obtain ⟨p₂', h₂, hrun₂, hcall₂⟩ := hbefore q' p₂ hq' hrun'
  refine hw q q' p₁' p₂' h₁ h₂ hrun₁ hrun₂ ?_
  rw [hcall₁, hcall₂]
  exact hcl

/-- **Calls in turn** do not overlap. -/
theorem run_separate (hsymm : ∀ x y, clash x y → clash y x) (hw : w.Separate clash) {es : List (Ev In Env ι)}
    (hes : M.Along (InTurn clash) w es) : (M.run w es).Separate clash := by
  refine Machine.run_inv ?_ ?_ (fun _ _ hw _ => hw) hw hes
  · intro w pid x hw hx _
    exact hw.begin hsymm hx
  · intro w pid i p c k hw _ hp hr
    exact hw.advance hp hr

end Separate

end NodeToolkit.Async
