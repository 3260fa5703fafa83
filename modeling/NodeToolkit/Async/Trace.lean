import NodeToolkit.Async.Layers

/-!
# What one call does

A call is judged by its own history, whatever the other calls do meanwhile.

* `Prog.Traces p h a`: the program issues the commands of `h`, gets the answers in `h`, and returns `a`.
  There is one rule for each way to put programs together.
* `Machine.Answered`: an answer of the history was given by the machine at a moment of the run.
* `traces_of_run`, `answered_of_run`: in every run the history of a call that has returned is a trace of
  its program, and each of its answers was given while it ran.
-/

namespace NodeToolkit.Async

variable {C C' C₁ : Type} {R : C → Type} {R' : C' → Type} {R₁ : C₁ → Type} {α β : Type}

namespace Prog

/-- The program goes through the history and returns the value. -/
def Traces : Prog R α → Hist R → α → Prop
  | ret a, h, b => h = [] ∧ b = a
  | await c k, h, b => ∃ r h', h = ⟨c, r⟩ :: h' ∧ (k r).Traces h' b

@[simp] theorem traces_ret {a b : α} {h : Hist R} : (ret a).Traces h b ↔ h = [] ∧ b = a := Iff.rfl

@[simp] theorem traces_await {c : C} {k : R c → Prog R α} {h : Hist R} {b : α} :
    (await c k).Traces h b ↔ ∃ r h', h = ⟨c, r⟩ :: h' ∧ (k r).Traces h' b := Iff.rfl

/-- A single command. -/
theorem traces_command {c : C} {h : Hist R} {r : R c} : (await c ret).Traces h r ↔ h = [⟨c, r⟩] := by
  constructor
  · rintro ⟨r', h', rfl, rfl, rfl⟩
    rfl
  · rintro rfl
    exact ⟨r, [], rfl, rfl, rfl⟩

/-- **Sequencing** splits the history. -/
theorem traces_bind {p : Prog R α} {f : α → Prog R β} {h : Hist R} {b : β} :
    (p >>= f).Traces h b ↔ ∃ h₁ h₂ a, h = h₁ ++ h₂ ∧ p.Traces h₁ a ∧ (f a).Traces h₂ b := by
  induction p generalizing h with
  | ret a =>
    constructor
    · exact fun hf => ⟨[], h, a, rfl, ⟨rfl, rfl⟩, hf⟩
    · rintro ⟨h₁, h₂, a', rfl, ⟨rfl, rfl⟩, hf⟩
      exact hf
  | await c k ih =>
    constructor
    · rintro ⟨r, h', rfl, hk⟩
      obtain ⟨h₁, h₂, a, rfl, hp, hf⟩ := (ih r).1 hk
      exact ⟨⟨c, r⟩ :: h₁, h₂, a, rfl, ⟨r, h₁, rfl, hp⟩, hf⟩
    · rintro ⟨_, h₂, a, rfl, ⟨r, h₁, rfl, hp⟩, hf⟩
      exact ⟨r, h₁ ++ h₂, rfl, (ih r).2 ⟨h₁, h₂, a, rfl, hp, hf⟩⟩

/-- **A loop** splits the history into one part for each round. -/
theorem traces_forEach {f : β → Prog R Unit} {l : List β} {h : Hist R} {u : Unit} :
    (forEach f l).Traces h u ↔ ∃ parts, h = parts.flatten ∧ List.Forall₂ (fun x part => (f x).Traces part ()) l parts := by
  induction l generalizing h with
  | nil => simp
  | cons x l ih =>
    rw [forEach_cons, traces_bind]
    constructor
    · rintro ⟨h₁, h₂, ⟨⟩, rfl, hx, hl⟩
      obtain ⟨parts, rfl, hparts⟩ := ih.1 hl
      exact ⟨h₁ :: parts, rfl, .cons hx hparts⟩
    · rintro ⟨_, rfl, hparts⟩
      cases hparts with
      | cons hx hparts => exact ⟨_, _, (), rfl, hx, ih.2 ⟨_, rfl, hparts⟩⟩

/-- What a program assures of its value, after a history of answers as it relies on. -/
theorem Assures.traces {rely : ∀ c, R c → Prop} {guar : C → Prop} {post : α → Prop} {p : Prog R α} :
    ∀ {h : Hist R} {a : α}, p.Assures rely guar post → p.Traces h a → (∀ e ∈ h, rely e.1 e.2) → post a := by
  induction p with
  | ret a =>
    rintro h b hp ⟨-, rfl⟩ _
    exact hp
  | await c k ih =>
    rintro _ b hp ⟨r, h, rfl, hk⟩ hrely
    rw [List.forall_mem_cons] at hrely
    exact ih r (hp.2 r hrely.1) hk hrely.2

/-- What a program returns that keeps to a protocol over histories. -/
theorem Follows.traces {may : Hist R → C → Prop} {fin : Hist R → α → Prop} {p : Prog R α} :
    ∀ {h₀ h : Hist R} {a : α}, p.Follows (.ofHist may fin) h₀ → p.Traces h a → fin (h₀ ++ h) a := by
  induction p with
  | ret a =>
    rintro h₀ h b hp ⟨rfl, rfl⟩
    rw [List.append_nil]
    exact hp
  | await c k ih =>
    rintro h₀ h b hp ⟨r, h', rfl, hk⟩
    rw [List.append_cons]
    exact ih r (hp.2 r) hk

/-- Renaming the commands renames those of the history. -/
theorem traces_embed {f : C → C'} {g : ∀ c, R' (f c) → R c} {p : Prog R α} {h : Hist R'} {b : α} :
    (p.embed f g).Traces h b ↔ ∃ l : List (Σ c, R' (f c)),
      h = l.map (fun e => ⟨f e.1, e.2⟩) ∧ p.Traces (l.map fun e => ⟨e.1, g e.1 e.2⟩) b := by
  induction p generalizing h with
  | ret a =>
    constructor
    · rintro ⟨rfl, rfl⟩
      exact ⟨[], rfl, rfl, rfl⟩
    · rintro ⟨l, rfl, hl, rfl⟩
      rw [List.map_eq_nil_iff] at hl
      subst hl
      exact ⟨rfl, rfl⟩
  | await c k ih =>
    constructor
    · rintro ⟨r, h', rfl, hk⟩
      obtain ⟨l, rfl, hl⟩ := (ih (g c r)).1 hk
      exact ⟨⟨c, r⟩ :: l, rfl, g c r, _, rfl, hl⟩
    · rintro ⟨l, rfl, r, h', hl, hk⟩
      cases l with
      | nil => cases hl
      | cons e l =>
        obtain ⟨c', r'⟩ := e
        rw [List.map_cons, List.cons.injEq] at hl
        obtain ⟨he, rfl⟩ := hl
        cases he
        exact ⟨r', _, rfl, (ih _).2 ⟨l, rfl, hk⟩⟩

/-- **Commands carried out by programs**: the history splits into one part for each command. -/
theorem traces_interp {impl : ∀ c, Prog R (R₁ c)} {p : Prog R₁ α} {h : Hist R} {b : α}
    (hp : (p.interp impl).Traces h b) : ∃ l : List ((Σ c, R₁ c) × Hist R), h = (l.map Prod.snd).flatten ∧
      (∀ e ∈ l, (impl e.1.1).Traces e.2 e.1.2) ∧ p.Traces (l.map Prod.fst) b := by
  induction p generalizing h with
  | ret a =>
    obtain ⟨rfl, rfl⟩ := hp
    exact ⟨[], rfl, fun e he => (List.not_mem_nil he).elim, rfl, rfl⟩
  | await c k ih =>
    rw [interp_await, traces_bind] at hp
    obtain ⟨h₁, h₂, r, rfl, hc, hk⟩ := hp
    obtain ⟨l, rfl, hl, htr⟩ := ih r hk
    refine ⟨(⟨c, r⟩, h₁) :: l, rfl, fun e he => ?_, r, _, rfl, htr⟩
    rcases List.mem_cons.1 he with rfl | he
    · exact hc
    · exact hl e he

end Prog

/-! ## Calls in a run -/

section Run

variable {σ In Env ι : Type} {M : Machine R σ In Env ι α} {w₀ : Pool R σ ι α} {pid : ℕ}

/-- What is left of every call continues its history to a trace of its program. -/
def Pool.Traced (M : Machine R σ In Env ι α) (w : Pool R σ ι α) : Prop :=
  ∀ pid p, w.procs.get pid = some p → ∀ h a, p.rest.Traces h a → (M.prog p.call).Traces (p.hist ++ h) a

theorem traced_run (s : σ) (es : List (Ev In Env ι)) : (M.run (Pool.init s) es).Traced M := by
  refine Machine.run_inv (I := Pool.Traced M) (G := fun _ _ => True) ?_ ?_ (fun _ _ hw _ => hw) ?_
    (.of_mem fun _ _ _ => trivial)
  · intro w pid x hw _ _
    exact Machine.begin_all hw fun h a htr => htr
  · intro w pid i p c k hw _ hp hr
    refine Machine.advance_all hw fun h a htr => ?_
    have hold := hw pid p hp (⟨c, (M.exec i w.st c).2⟩ :: h) a
    rw [hr] at hold
    rw [List.append_assoc, List.singleton_append]
    exact hold ⟨_, h, rfl, htr⟩
  · intro pid p hp
    simp [Pool.init] at hp

/-- **The history of a call that has returned** is a trace of its program. -/
theorem traces_of_run {s : σ} {es : List (Ev In Env ι)} {p : Proc R ι α} {a : α}
    (hp : (M.run (Pool.init s) es).procs.get pid = some p) (hres : p.result = some a) :
    (M.prog p.call).Traces p.hist a := by
  have htr := traced_run s es pid p hp [] a
  rw [Proc.result_eq_some.1 hres, List.append_nil] at htr
  exact htr ⟨rfl, rfl⟩

/-- The answer was given to call `pid` at a moment of the run, when the call had come so far. -/
structure Machine.Answered (M : Machine R σ In Env ι α) (w₀ : Pool R σ ι α) (es : List (Ev In Env ι)) (pid : ℕ)
    (past : Hist R) (e : Σ c, R c) : Prop where
  moment : ∃ v i rest, es = v ++ .step pid i :: rest ∧ e.2 = (M.exec i (M.run w₀ v).st e.1).2 ∧
    ∃ p, (M.run w₀ v).procs.get pid = some p ∧ p.hist = past

theorem Machine.Answered.append {es es' : List (Ev In Env ι)} {past : Hist R} {e : Σ c, R c}
    (h : M.Answered w₀ es pid past e) : M.Answered w₀ (es ++ es') pid past e := by
  obtain ⟨v, i, rest, rfl, he, hp⟩ := h.moment
  exact ⟨v, i, rest ++ es', by simp, he, hp⟩

/-- **Every answer of a history** was given by the machine at a moment of the run. -/
theorem answered_of_run {s : σ} (es : List (Ev In Env ι)) : ∀ {pid : ℕ} {p : Proc R ι α},
    (M.run (Pool.init s) es).procs.get pid = some p →
      ∀ past e rest, p.hist = past ++ e :: rest → M.Answered (Pool.init s) es pid past e := by
  induction es using List.reverseRecOn with
  | nil =>
    intro pid p hp
    simp [Pool.init] at hp
  | append_singleton es e ih =>
    intro q p hp past e' rest hhist
    rw [Machine.run_append, Machine.run_cons, Machine.run_nil] at hp
    rcases Machine.step_cases (M := M) (M.run (Pool.init s) es) e with ⟨pid, x, -, hn, he⟩ |
      ⟨pid, i, p₀, c, k, rfl, hp₀, hr, he⟩ | ⟨v, -, he⟩ | he
    · rw [he] at hp
      rcases Machine.begin_cases hp with ⟨rfl, rfl⟩ | ⟨-, hp⟩
      · simp at hhist
      · exact (ih hp past e' rest hhist).append
    · rw [he] at hp
      rcases Machine.advance_cases hp with ⟨rfl, rfl⟩ | ⟨-, hp⟩
      · -- the last answer is the one of this event
        rcases List.eq_nil_or_concat rest with rfl | ⟨rest', e'', rfl⟩
        · obtain ⟨rfl, hlast⟩ := List.append_inj' hhist rfl
          cases hlast
          exact ⟨es, i, [], rfl, rfl, p₀, hp₀, rfl⟩
        · rw [List.concat_eq_append, ← List.cons_append, ← List.append_assoc] at hhist
          obtain ⟨hinit, -⟩ := List.append_inj' hhist rfl
          exact (ih hp₀ past e' rest' hinit).append
      · exact (ih hp past e' rest hhist).append
    · rw [he] at hp
      exact (ih hp past e' rest hhist).append
    · rw [he] at hp
      exact (ih hp past e' rest hhist).append

end Run

end NodeToolkit.Async
