import NodeToolkit.Async.Alone

/-!
# Before and after a call executed alone

`Triple exec P p Q`: from a state in `P` the async function `p`, executed alone, returns a value
and leaves a state that are in `Q`, whatever the world chooses meanwhile.

* `ret`, `await`, `command`, `bind`, `mono`, `pre`: one rule for each way to put functions together.
* `forEach`: a loop over a list, with an invariant about the part that is done.
* `alone`: what a triple says about a call of a machine.
-/

namespace NodeToolkit.Async

variable {C : Type} {R : C → Type} {σ In Env ι α β : Type} {exec : In → σ → (c : C) → σ × R c}

def Triple (exec : In → σ → (c : C) → σ × R c) (P : σ → Prop) (p : Prog R α) (Q : α → σ → Prop) :
    Prop :=
  ∀ w : σ × (ℕ → In), P w.1 → Q (p.run (drive exec) w).2 (p.run (drive exec) w).1.1

namespace Triple

variable {P P' : σ → Prop} {Q Q' : α → σ → Prop} {p : Prog R α}

theorem ret {a : α} (h : ∀ s, P s → Q a s) : Triple exec P (.ret a) Q := fun w hw => h w.1 hw

theorem await {c : C} {k : R c → Prog R α} {T : R c → σ → Prop}
    (hc : ∀ i s, P s → T (exec i s c).2 (exec i s c).1) (hk : ∀ r, Triple exec (T r) (k r) Q) :
    Triple exec P (.await c k) Q := by
  intro w hw
  have hnext := hk _ (drive exec w c).1 (hc (w.2 0) w.1 hw)
  exact hnext

/-- A single command. -/
theorem command {c : C} {Q : R c → σ → Prop} (hc : ∀ i s, P s → Q (exec i s c).2 (exec i s c).1) :
    Triple exec P (.await c .ret) Q := .await hc fun _ => .ret fun _ hs => hs

theorem mono (hP : ∀ s, P' s → P s) (hQ : ∀ a s, Q a s → Q' a s) (h : Triple exec P p Q) :
    Triple exec P' p Q' := fun w hw => hQ _ _ (h w (hP _ hw))

/-- What the precondition says apart from the state. -/
theorem pre {φ : Prop} (h : φ → Triple exec P p Q) : Triple exec (fun s => φ ∧ P s) p Q :=
  fun w hw => h hw.1 w hw.2

/-- **Sequencing.** -/
theorem bind {f : α → Prog R β} {T : β → σ → Prop} (hp : Triple exec P p Q)
    (hf : ∀ a, Triple exec (Q a) (f a) T) : Triple exec P (p >>= f) T := by
  intro w hw
  have hfirst := hp w hw
  rw [Prog.run_bind]
  exact hf _ _ hfirst

/-- **A loop** keeps what every round keeps. -/
theorem forEach {f : β → Prog R Unit} {l : List β} {I : List β → σ → Prop}
    (h : ∀ done x rest, l = done ++ x :: rest → Triple exec (I done) (f x) fun _ => I (done ++ [x])) :
    Triple exec (I []) (Prog.forEach f l) fun _ => I l := by
  have key : ∀ rest done, l = done ++ rest → Triple exec (I done) (Prog.forEach f rest) fun _ => I l := by
    intro rest
    induction rest with
    | nil =>
      intro done hl
      rw [List.append_nil] at hl
      rw [hl]
      exact .ret fun _ hs => hs
    | cons x rest ih =>
      intro done hl
      refine (h done x rest hl).bind fun _ => ih (done ++ [x]) ?_
      rw [hl, List.append_assoc, List.singleton_append]
  exact key l [] rfl

/-- What a triple says about a call executed alone. -/
theorem alone {M : Machine R σ In Env ι α} {x : ι} {s : σ} (h : Triple M.exec P (M.prog x) Q)
    (hs : P (M.enter x s)) (is : ℕ → In) : Q (M.alone s x is).2 (M.alone s x is).1 :=
  h (M.enter x s, is) hs

end Triple

end NodeToolkit.Async
