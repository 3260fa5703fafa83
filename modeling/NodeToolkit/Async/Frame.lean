import NodeToolkit.Async.Pool

/-!
# Calls that do not concern each other

Two runs of one machine, the second without some of the calls of the first. An
observer knows states only up to a relation `E`. If the calls it sees respect `E`
and the others keep within one class of `E`, it cannot tell the two runs apart.

* `Noninterference`: what the program of each call has to satisfy.
* `Noninterference.run`: the two runs stay alike (`Alike`), whatever the interleaving.
* `run_alone`: a call that is given enough steps returns what it returns when run alone.
* `run_own`: a call depends on its own events alone, if no answer depends on the shared state.
* `run_moves`: a call executes a command at each of its steps, until it returns; `run_returns`: with a
  bound on its commands it does.
-/

namespace NodeToolkit.Async

variable {C : Type} {R : C → Type} {σ In Env ι α : Type}

/-- The process an event is a move of, if `D` holds of it. -/
def Ev.ofProc (D : ℕ → Bool) : Ev In Env ι → Bool
  | .call pid _ => D pid
  | .step pid _ => D pid
  | .env _ => false

/-- A run without the calls of some processes. -/
def Ev.without (D : ℕ → Bool) (es : List (Ev In Env ι)) : List (Ev In Env ι) :=
  es.filter fun e => !e.ofProc D

/-- A command that stays within one class of `E`. -/
def Hidden (exec : In → σ → (c : C) → σ × R c) (E : σ → σ → Prop) (c : C) : Prop :=
  ∀ i s, E (exec i s c).1 s

namespace Prog

variable {exec : In → σ → (c : C) → σ × R c} {E : σ → σ → Prop} {β : Type}

/-- From states related by `E` the program goes to states related by `E`, and goes on the same. -/
def Respects (exec : In → σ → (c : C) → σ × R c) (E : σ → σ → Prop) : Prog R α → Prop
  | ret _ => True
  | await c k => (∀ i s s', E s s' →
      E (exec i s c).1 (exec i s' c).1 ∧ k (exec i s c).2 = k (exec i s' c).2) ∧
      ∀ r, (k r).Respects exec E

/-- A program respects `E` if all its commands do, and get the same answers. -/
theorem Uses.respects {ok : C → Prop} (hok : ∀ c, ok c → ∀ i s s', E s s' →
    E (exec i s c).1 (exec i s' c).1 ∧ (exec i s c).2 = (exec i s' c).2) :
    ∀ {p : Prog R α}, p.Uses ok → p.Respects exec E := by
  intro p
  induction p with
  | ret a => exact fun _ => trivial
  | await c k ih =>
    intro hu
    refine ⟨fun i s s' hE => ?_, fun r => ih r (hu.2 r)⟩
    obtain ⟨h1, h2⟩ := hok c hu.1 i s s' hE
    exact ⟨h1, by rw [h2]⟩

theorem Respects.bind {f : α → Prog R β} (hf : ∀ a, (f a).Respects exec E) :
    ∀ {p : Prog R α}, p.Respects exec E → (p >>= f).Respects exec E := by
  intro p
  induction p with
  | ret a => exact fun _ => hf a
  | await c k ih =>
    intro hp
    rw [await_bind]
    refine ⟨fun i s s' hE => ?_, fun r => ih r (hp.2 r)⟩
    obtain ⟨h1, h2⟩ := hp.1 i s s' hE
    exact ⟨h1, by dsimp only; rw [h2]⟩

end Prog

/-- **What isolates the visible calls from the others.** -/
structure Noninterference (M : Machine R σ In Env ι α) (E : σ → σ → Prop) (visible : ι → Prop) : Prop where
  equiv : Equivalence E
  env : ∀ v s s', E s s' → E (M.env v s) (M.env v s')
  enter : ∀ x s s', visible x → E s s' → E (M.enter x s) (M.enter x s')
  enter_hidden : ∀ x s, ¬ visible x → E (M.enter x s) s
  respects : ∀ x, visible x → (M.prog x).Respects M.exec E
  hides : ∀ x, ¬ visible x → (M.prog x).Uses (Hidden M.exec E)

/-- A call in one run and the call of the same process in the other: a visible one has the same
left to do, any other only issues commands that the observer does not see. -/
def Paired (M : Machine R σ In Env ι α) (E : σ → σ → Prop) (visible : ι → Prop) (p p' : Proc R ι α) :
    Prop :=
  p.call = p'.call ∧ (visible p.call → p.rest = p'.rest ∧ p.rest.Respects M.exec E) ∧
    (¬ visible p.call → p.rest.Uses (Hidden M.exec E) ∧ p'.rest.Uses (Hidden M.exec E))

/-- **What the two runs have in common**: the second has no process of `D`. -/
structure Alike (M : Machine R σ In Env ι α) (E : σ → σ → Prop) (visible : ι → Prop) (D : ℕ → Bool)
    (w w' : Pool R σ ι α) : Prop where
  st : E w.st w'.st
  hidden : ∀ pid p, D pid = true → w.procs.get pid = some p →
    ¬ visible p.call ∧ p.rest.Uses (Hidden M.exec E)
  gone : ∀ pid, D pid = true → w'.procs.get pid = none
  none_iff : ∀ pid, D pid = false → (w.procs.get pid = none ↔ w'.procs.get pid = none)
  paired : ∀ pid p p', D pid = false → w.procs.get pid = some p → w'.procs.get pid = some p' →
    Paired M E visible p p'

namespace Machine

variable {M : Machine R σ In Env ι α} {E : σ → σ → Prop} {visible : ι → Prop} {D : ℕ → Bool}
  {w w' : Pool R σ ι α} {pid : ℕ} {i : In} {p p' : Proc R ι α}

theorem step_of_none (h : w.procs.get pid = none) : M.step w (.step pid i) = w := by
  simp [step, h]

theorem step_of_ret {a : α} (h : w.procs.get pid = some p) (hr : p.rest = .ret a) :
    M.step w (.step pid i) = w := by
  simp [step, h, hr]

theorem step_of_await {c : C} {k : R c → Prog R α} (h : w.procs.get pid = some p)
    (hr : p.rest = .await c k) : M.step w (.step pid i) = M.advance w pid i p c k := by
  simp [step, h, hr]

theorem get_step_ne {q : ℕ} (h : pid ≠ q) : (M.step w (.step pid i)).procs.get q = w.procs.get q := by
  cases hg : w.procs.get pid with
  | none => rw [step_of_none hg]
  | some p =>
    cases hr : p.rest with
    | ret a => rw [step_of_ret hg hr]
    | await c k => rw [step_of_await hg hr]; exact OMap.get_set_ne _ _ h

/-- A step of a call whose commands are hidden. -/
theorem step_hidden (hE : Equivalence E) (hg : w.procs.get pid = some p)
    (hp : p.rest.Uses (Hidden M.exec E)) : E (M.step w (.step pid i)).st w.st ∧
      ∃ p₁, (M.step w (.step pid i)).procs.get pid = some p₁ ∧ p₁.call = p.call ∧
        p₁.rest.Uses (Hidden M.exec E) := by
  cases hr : p.rest with
  | ret a => rw [step_of_ret hg hr]; exact ⟨hE.refl _, p, hg, rfl, hp⟩
  | await c k =>
    rw [hr] at hp
    rw [step_of_await hg hr]
    exact ⟨hp.1 i w.st, _, OMap.get_set_self .., rfl, hp.2 _⟩

/-- A step of the same visible call in both runs. -/
theorem step_visible (hE : E w.st w'.st) (hg : w.procs.get pid = some p) (hg' : w'.procs.get pid = some p')
    (hcall : p.call = p'.call) (hrest : p.rest = p'.rest) (hp : p.rest.Respects M.exec E) :
    E (M.step w (.step pid i)).st (M.step w' (.step pid i)).st ∧
      ∃ p₁ p₁', (M.step w (.step pid i)).procs.get pid = some p₁ ∧
        (M.step w' (.step pid i)).procs.get pid = some p₁' ∧ p₁.call = p.call ∧ p₁'.call = p.call ∧
        p₁.rest = p₁'.rest ∧ p₁.rest.Respects M.exec E := by
  cases hr : p.rest with
  | ret a =>
    rw [step_of_ret hg hr, step_of_ret hg' (hrest ▸ hr)]
    exact ⟨hE, p, p', hg, hg', rfl, hcall.symm, hrest, hp⟩
  | await c k =>
    rw [step_of_await hg hr, step_of_await hg' (hrest ▸ hr)]
    rw [hr] at hp
    obtain ⟨hst, hk⟩ := hp.1 i w.st w'.st hE
    exact ⟨hst, _, _, OMap.get_set_self .., OMap.get_set_self .., rfl, hcall.symm, hk, hp.2 _⟩

end Machine

section Noninterference

variable {M : Machine R σ In Env ι α} {E : σ → σ → Prop} {visible : ι → Prop} {D : ℕ → Bool}
  {w w' : Pool R σ ι α}

/-- A call starts that the second run does not have. -/
theorem Alike.call_gone (hN : Noninterference M E visible) (hw : Alike M E visible D w w') {pid : ℕ} {x : ι}
    (hD : D pid = true) (hx : ¬ visible x) : Alike M E visible D (M.step w (.call pid x)) w' := by
  by_cases hn : w.procs.get pid = none
  · have he : M.step w (.call pid x) = M.begin w pid x := by simp [Machine.step, hn]
    have hne : ∀ q, D q = false → pid ≠ q := fun q hq he => by rw [he, hq] at hD; cases hD
    rw [he]
    -- the new call is hidden; every other call is as it was
    refine ⟨hN.equiv.trans (hN.enter_hidden x w.st hx) hw.st, ?_, hw.gone, fun q hq => ?_,
      fun q p p' hq hp hp' => ?_⟩
    · intro q p hq hp
      by_cases hqp : pid = q
      · subst hqp
        rw [Machine.begin, OMap.get_set_self, Option.some.injEq] at hp
        rw [← hp]
        exact ⟨hx, hN.hides x hx⟩
      · rw [Machine.begin, OMap.get_set_ne _ _ hqp] at hp
        exact hw.hidden q p hq hp
    · rw [Machine.begin, OMap.get_set_ne _ _ (hne q hq)]
      exact hw.none_iff q hq
    · rw [Machine.begin, OMap.get_set_ne _ _ (hne q hq)] at hp
      exact hw.paired q p p' hq hp hp'
  · have he : M.step w (.call pid x) = w := by simp [Machine.step, hn]
    rwa [he]

/-- A call starts in both runs. -/
theorem Alike.call (hN : Noninterference M E visible) (hw : Alike M E visible D w w') {pid : ℕ} (x : ι)
    (hD : D pid = false) :
    Alike M E visible D (M.step w (.call pid x)) (M.step w' (.call pid x)) := by
  have hiff := hw.none_iff pid hD
  by_cases hn : w.procs.get pid = none
  · have he : M.step w (.call pid x) = M.begin w pid x := by simp [Machine.step, hn]
    have he' : M.step w' (.call pid x) = M.begin w' pid x := by simp [Machine.step, hiff.1 hn]
    have hne : ∀ q, D q = true → pid ≠ q := fun q hq he => by rw [he, hq] at hD; cases hD
    rw [he, he']
    refine ⟨?_, fun q p hq hp => ?_, fun q hq => ?_, fun q hq => ?_, fun q p p' hq hp hp' => ?_⟩
    · -- a hidden call may change what is not seen, in each run for itself
      by_cases hx : visible x
      · exact hN.enter x _ _ hx hw.st
      · exact hN.equiv.trans (hN.enter_hidden x w.st hx)
          (hN.equiv.trans hw.st (hN.equiv.symm (hN.enter_hidden x w'.st hx)))
    · rw [Machine.begin, OMap.get_set_ne _ _ (hne q hq)] at hp
      exact hw.hidden q p hq hp
    · rw [Machine.begin, OMap.get_set_ne _ _ (hne q hq)]
      exact hw.gone q hq
    · by_cases hqp : pid = q
      · subst hqp
        simp [Machine.begin]
      · rw [Machine.begin, Machine.begin, OMap.get_set_ne _ _ hqp, OMap.get_set_ne _ _ hqp]
        exact hw.none_iff q hq
    · by_cases hqp : pid = q
      · subst hqp
        rw [Machine.begin, OMap.get_set_self, Option.some.injEq] at hp hp'
        rw [← hp, ← hp']
        exact ⟨rfl, fun hx => ⟨rfl, hN.respects x hx⟩, fun hx => ⟨hN.hides x hx, hN.hides x hx⟩⟩
      · rw [Machine.begin, OMap.get_set_ne _ _ hqp] at hp hp'
        exact hw.paired q p p' hq hp hp'
  · have he : M.step w (.call pid x) = w := by simp [Machine.step, hn]
    have he' : M.step w' (.call pid x) = w' := by simp [Machine.step, mt hiff.2 hn]
    rwa [he, he']

/-- A call moves that the second run does not have. -/
theorem Alike.step_gone (hN : Noninterference M E visible) (hw : Alike M E visible D w w') {pid : ℕ}
    (i : In) (hD : D pid = true) : Alike M E visible D (M.step w (.step pid i)) w' := by
  cases hg : w.procs.get pid with
  | none => rwa [Machine.step_of_none hg]
  | some p =>
    obtain ⟨hv, hp⟩ := hw.hidden pid p hD hg
    obtain ⟨hst, p₁, hg₁, hcall, hp₁⟩ := Machine.step_hidden (i := i) hN.equiv hg hp
    have hne : ∀ q, D q = false → pid ≠ q := fun q hq he => by rw [he, hq] at hD; cases hD
    refine ⟨hN.equiv.trans hst hw.st, fun q p' hq hp' => ?_, hw.gone, fun q hq => ?_,
      fun q p p' hq hp hp' => ?_⟩
    · by_cases hqp : pid = q
      · subst hqp
        rw [hg₁, Option.some.injEq] at hp'
        rw [← hp', hcall]
        exact ⟨hv, hp₁⟩
      · rw [Machine.get_step_ne hqp] at hp'
        exact hw.hidden q p' hq hp'
    · rw [Machine.get_step_ne (hne q hq)]
      exact hw.none_iff q hq
    · rw [Machine.get_step_ne (hne q hq)] at hp
      exact hw.paired q p p' hq hp hp'

/-- A call moves in both runs. -/
theorem Alike.step (hN : Noninterference M E visible) (hw : Alike M E visible D w w') {pid : ℕ}
    (i : In) (hD : D pid = false) :
    Alike M E visible D (M.step w (.step pid i)) (M.step w' (.step pid i)) := by
  have hne : ∀ q, D q = true → pid ≠ q := fun q hq he => by rw [he, hq] at hD; cases hD
  cases hg : w.procs.get pid with
  | none =>
    rw [Machine.step_of_none hg, Machine.step_of_none ((hw.none_iff pid hD).1 hg)]
    exact hw
  | some p =>
    obtain ⟨p', hg'⟩ : ∃ p', w'.procs.get pid = some p' :=
      Option.ne_none_iff_exists'.1 fun hn => by rw [(hw.none_iff pid hD).2 hn] at hg; cases hg
    have hpair := hw.paired pid p p' hD hg hg'
    -- what the step makes of the two states and of the two calls
    obtain ⟨hst, p₁, p₁', hg₁, hg₁', hpair₁⟩ : E (M.step w (.step pid i)).st (M.step w' (.step pid i)).st ∧
        ∃ p₁ p₁', (M.step w (.step pid i)).procs.get pid = some p₁ ∧
          (M.step w' (.step pid i)).procs.get pid = some p₁' ∧ Paired M E visible p₁ p₁' := by
      obtain ⟨hcall, hvis, hhid⟩ := hpair
      by_cases hx : visible p.call
      · obtain ⟨hrest, hp⟩ := hvis hx
        obtain ⟨hst, p₁, p₁', hg₁, hg₁', hc, hc', hr, hp₁⟩ :=
          Machine.step_visible (i := i) hw.st hg hg' hcall hrest hp
        exact ⟨hst, p₁, p₁', hg₁, hg₁', hc.trans hc'.symm, fun _ => ⟨hr, hp₁⟩,
          fun hno => absurd (hc ▸ hx) hno⟩
      · obtain ⟨hp, hp'⟩ := hhid hx
        obtain ⟨hst, p₁, hg₁, hc, hp₁⟩ := Machine.step_hidden (i := i) hN.equiv hg hp
        obtain ⟨hst', p₁', hg₁', hc', hp₁'⟩ := Machine.step_hidden (i := i) hN.equiv hg' hp'
        exact ⟨hN.equiv.trans hst (hN.equiv.trans hw.st (hN.equiv.symm hst')), p₁, p₁', hg₁, hg₁',
          hc.trans (hcall.trans hc'.symm), fun hyes => absurd (hc ▸ hyes) hx, fun _ => ⟨hp₁, hp₁'⟩⟩
    refine ⟨hst, fun q p hq hp => ?_, fun q hq => ?_, fun q hq => ?_, fun q p p' hq hp hp' => ?_⟩
    · rw [Machine.get_step_ne (hne q hq)] at hp
      exact hw.hidden q p hq hp
    · rw [Machine.get_step_ne (hne q hq)]
      exact hw.gone q hq
    · by_cases hqp : pid = q
      · subst hqp
        rw [hg₁, hg₁']
        simp
      · rw [Machine.get_step_ne hqp, Machine.get_step_ne hqp]
        exact hw.none_iff q hq
    · by_cases hqp : pid = q
      · subst hqp
        rw [hg₁, Option.some.injEq] at hp
        rw [hg₁', Option.some.injEq] at hp'
        rwa [← hp, ← hp']
      · rw [Machine.get_step_ne hqp] at hp hp'
        exact hw.paired q p p' hq hp hp'

/-- **Noninterference.** Without the calls of the processes `D`, none of them visible, a run goes
on alike. -/
theorem Noninterference.run (hN : Noninterference M E visible) {es : List (Ev In Env ι)} :
    ∀ {w w' : Pool R σ ι α}, (∀ pid x, Ev.call pid x ∈ es → D pid = true → ¬ visible x) →
      Alike M E visible D w w' → Alike M E visible D (M.run w es) (M.run w' (Ev.without D es)) := by
  induction es with
  | nil => exact fun _ hw => hw
  | cons e es ih =>
    intro w w' hD hw
    have hD' : ∀ pid x, Ev.call pid x ∈ es → D pid = true → ¬ visible x :=
      fun pid x hm => hD pid x (List.mem_cons_of_mem _ hm)
    unfold Ev.without at ih ⊢
    rw [List.filter_cons]
    cases e with
    | call pid x =>
      cases hpid : D pid with
      | true =>
        simp only [Ev.ofProc, hpid, Bool.not_true, Bool.false_eq_true, if_false]
        exact ih hD' (hw.call_gone hN hpid (hD pid x (List.mem_cons_self ..) hpid))
      | false =>
        simp only [Ev.ofProc, hpid, Bool.not_false, if_true]
        exact ih hD' (hw.call hN x hpid)
    | step pid i =>
      -- the process alone decides whether the step is left out
      cases hpid : D pid with
      | true =>
        simp only [Ev.ofProc, hpid, Bool.not_true, Bool.false_eq_true, if_false]
        exact ih hD' (hw.step_gone hN i hpid)
      | false =>
        simp only [Ev.ofProc, hpid, Bool.not_false, if_true]
        exact ih hD' (hw.step hN i hpid)
    | env v =>
      simp only [Ev.ofProc, Bool.not_false, if_true]
      exact ih hD' ⟨hN.env v _ _ hw.st, hw.hidden, hw.gone, hw.none_iff, hw.paired⟩

theorem alike_init (hN : Noninterference M E visible) (s : σ) :
    Alike M E visible D (Pool.init s) (Pool.init s) :=
  ⟨hN.equiv.refl s, fun _ _ _ h => by simp [Pool.init] at h, fun _ _ => rfl, fun _ _ => Iff.rfl,
    fun _ _ _ _ h => by simp [Pool.init] at h⟩

end Noninterference

/-! ## A call run alone -/

/-- A call that has returned does not move. -/
theorem run_of_ret {M : Machine R σ In Env ι α} {w : Pool R σ ι α} {pid : ℕ} {p : Proc R ι α} {a : α}
    (h : w.procs.get pid = some p) (hr : p.rest = .ret a) (i : In) (m : ℕ) :
    M.run w (List.replicate m (.step pid i)) = w := by
  induction m with
  | zero => rfl
  | succ m ih => rw [List.replicate_succ, Machine.run_cons, Machine.step_of_ret h hr, ih]

/-- A call starts and executes its first command. -/
theorem run_first {M : Machine R σ In Env ι α} {w : Pool R σ ι α} {pid : ℕ} {x : ι} {c : C} {k : R c → Prog R α}
    (hn : w.procs.get pid = none) (hx : M.prog x = .await c k) (i : In) :
    M.run w [.call pid x, .step pid i] = M.advance (M.begin w pid x) pid i ⟨x, [], M.prog x⟩ c k := by
  have hbegin : M.step w (.call pid x) = M.begin w pid x := if_pos hn
  have hself : (M.begin w pid x).procs.get pid = some ⟨x, [], M.prog x⟩ := OMap.get_set_self ..
  rw [Machine.run_cons, Machine.run_cons, hbegin, Machine.run_nil]
  exact Machine.step_of_await hself hx

/-- **Enough steps** of one call in a row give what the call returns when run alone. -/
theorem run_alone (M : Machine R σ In Env ι α) (i : In) {pid : ℕ} {x : ι} (q : Prog R α) :
    ∀ {w : Pool R σ ι α} {h : Hist R}, w.procs.get pid = some ⟨x, h, q⟩ →
      ∃ n, ∀ m, n ≤ m → ∃ h', (M.run w (List.replicate m (.step pid i))).procs.get pid =
        some ⟨x, h', .ret (q.run (M.exec i) w.st).2⟩ := by
  induction q with
  | ret a =>
    intro w h hg
    refine ⟨0, fun m _ => ⟨h, ?_⟩⟩
    rw [run_of_ret hg rfl]
    exact hg
  | await c k ih =>
    intro w h hg
    obtain ⟨n, hn⟩ := ih (M.exec i w.st c).2 (w := M.advance w pid i ⟨x, h, .await c k⟩ c k)
      (OMap.get_set_self ..)
    refine ⟨n + 1, fun m hm => ?_⟩
    obtain ⟨m', rfl⟩ : ∃ m', m = m' + 1 := ⟨m - 1, by omega⟩
    rw [List.replicate_succ, Machine.run_cons, Machine.step_of_await hg rfl]
    exact hn m' (by omega)

/-! ## Calls that share nothing -/

namespace Machine

variable {M : Machine R σ In Env ι α} {w w' : Pool R σ ι α} {pid : ℕ}

/-- What a call does is its own, if no answer depends on the shared state. -/
theorem step_own (hM : ∀ i s s' c, (M.exec i s c).2 = (M.exec i s' c).2)
    (h : w.procs.get pid = w'.procs.get pid) (e : Ev In Env ι) :
    (M.step w e).procs.get pid = if e.ofProc (· == pid) then (M.step w' e).procs.get pid else w'.procs.get pid := by
  cases e with
  | env v => exact h
  | call q x =>
    by_cases hq : q = pid
    · subst hq
      simp only [Ev.ofProc, beq_self_eq_true, if_true, step, h]
      split
      · simp only [begin, OMap.get_set_self]
      · exact h
    · simp only [Ev.ofProc, beq_iff_eq, hq, if_false, step]
      split
      · exact (OMap.get_set_ne _ _ hq).trans h
      · exact h
  | step q i =>
    by_cases hq : q = pid
    · subst hq
      simp only [Ev.ofProc, beq_self_eq_true, if_true]
      cases hp : w'.procs.get q with
      | none => rw [step_of_none (h.trans hp), step_of_none hp, h]
      | some p =>
        cases hr : p.rest with
        | ret a => rw [step_of_ret (h.trans hp) hr, step_of_ret hp hr, h]
        | await c k =>
          rw [step_of_await (h.trans hp) hr, step_of_await hp hr, get_advance_self, get_advance_self,
            hM i w.st w'.st c]
    · simp only [Ev.ofProc, beq_iff_eq, hq, if_false]
      exact (get_step_ne hq).trans h

/-- **A call depends on its own events alone**, if no answer depends on the shared state. -/
theorem run_own (hM : ∀ i s s' c, (M.exec i s c).2 = (M.exec i s' c).2) {es : List (Ev In Env ι)} :
    ∀ {w w' : Pool R σ ι α}, w.procs.get pid = w'.procs.get pid → (M.run w es).procs.get pid =
      (M.run w' (es.filter fun e => e.ofProc (· == pid))).procs.get pid := by
  induction es with
  | nil => exact fun h => h
  | cons e es ih =>
    intro w w' h
    have hstep := step_own hM h e
    rw [List.filter_cons]
    by_cases hown : e.ofProc (· == pid) = true
    · rw [if_pos hown] at hstep ⊢
      exact ih hstep
    · rw [if_neg hown] at hstep ⊢
      exact ih hstep

end Machine

/-! ## Calls that are given steps -/

/-- A step of the call `pid`. -/
def Ev.moves (pid : ℕ) : Ev In Env ι → Bool
  | .step q _ => q == pid
  | _ => false

section Steps

variable {M : Machine R σ In Env ι α} {w : Pool R σ ι α} {pid : ℕ} {p : Proc R ι α}

/-- A call in flight executes a command at each of its steps. -/
theorem step_moves (hp : w.procs.get pid = some p) (hrun : p.Running) {e : Ev In Env ι} (he : e.moves pid = true) :
    ∃ p', (M.step w e).procs.get pid = some p' ∧ p'.hist.length = p.hist.length + 1 := by
  cases e with
  | call q x => cases he
  | env v => cases he
  | step q i =>
    obtain rfl : q = pid := beq_iff_eq.1 he
    cases hr : p.rest with
    | ret a => exact absurd hrun (Proc.not_running_of_ret hr)
    | await c k =>
      rw [Machine.step_of_await hp hr]
      exact ⟨_, Machine.get_advance_self, by simp⟩

/-- **A call that is given steps** executes as many commands, or returns. -/
theorem run_moves (es : List (Ev In Env ι)) : ∀ {w : Pool R σ ι α} {p : Proc R ι α}, w.procs.get pid = some p →
    ∃ p', (M.run w es).procs.get pid = some p' ∧ p'.call = p.call ∧
      (p'.Running → p.hist.length + es.countP (Ev.moves pid) ≤ p'.hist.length) := by
  induction es with
  | nil => exact fun hp => ⟨_, hp, rfl, fun _ => le_refl _⟩
  | cons e es ih =>
    intro w p hp
    obtain ⟨p₁, hp₁, hcall₁, hhist₁⟩ := Machine.step_grows (M := M) hp e
    obtain ⟨p₂, hp₂, hcall₂, hcount⟩ := ih hp₁
    refine ⟨p₂, hp₂, hcall₂.trans hcall₁, fun hrun => ?_⟩
    have hrest := hcount hrun
    -- it has been in flight from the beginning
    have hbegan : p.Running := by
      by_contra hret
      obtain ⟨a, ha⟩ := Option.ne_none_iff_exists'.1 hret
      have hstays : (M.run w (e :: es)).procs.get pid = some p := Machine.run_stays ha hp
      rw [Machine.run_cons, hp₂, Option.some.injEq] at hstays
      exact hret (hstays ▸ hrun)
    rw [List.countP_cons]
    by_cases he : e.moves pid = true
    · obtain ⟨p', hp', hlen⟩ := step_moves (M := M) hp hbegan he
      rw [hp₁, Option.some.injEq] at hp'
      rw [if_pos he]
      rw [← hp'] at hlen
      omega
    · rw [if_neg he]
      have hgrows := hhist₁.length_le
      omega

/-- **With a bound on its commands**, a call that is given as many steps returns. -/
theorem run_returns {es : List (Ev In Env ι)} {n : ℕ} (hp : w.procs.get pid = some p)
    (hbound : ∀ p', (M.run w es).procs.get pid = some p' → p'.call = p.call → p'.Running → p'.hist.length < n)
    (hes : n ≤ es.countP (Ev.moves pid)) :
    ∃ p', (M.run w es).procs.get pid = some p' ∧ p'.call = p.call ∧ ¬ p'.Running := by
  obtain ⟨p', hp', hcall, hmoves⟩ := run_moves (M := M) es hp
  refine ⟨p', hp', hcall, fun hrun => ?_⟩
  have hlt := hbound p' hp' hcall hrun
  have hge := hmoves hrun
  omega

end Steps

end NodeToolkit.Async
