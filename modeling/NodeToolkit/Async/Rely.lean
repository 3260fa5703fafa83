import NodeToolkit.Async.Alone

/-!
# What calls rely on and guarantee

Many invariants need no more than this of the calls: as long as the answers they get are as `rely` says,
they issue only commands that `guar` allows.

* `Proper`: the events of a run are calls and choices that are allowed.
* `Prog.Assures`: this of a program, with what it says about the value returned. One rule for each way
  to put programs together.
* `Machine.Rules`: executing such commands keeps a property of the state, and answers as `rely` says.
* `run_assured`: the property holds in every run, whatever the interleaving.
* `run_stable`: the same where a call relies on facts it has learned about the state, which the steps of
  other calls keep.
-/

namespace NodeToolkit.Async

variable {C C' : Type} {R : C → Type} {R' : C' → Type} {σ In Env ι α β : Type}

namespace Prog

variable {rely rely' : ∀ c, R c → Prop} {guar guar' : C → Prop} {post post' : α → Prop}

/-- While it is answered as `rely` says, the program issues only commands in `guar`, and it returns a value
in `post`. -/
def Assures (rely : ∀ c, R c → Prop) (guar : C → Prop) (post : α → Prop) : Prog R α → Prop
  | ret a => post a
  | await c k => guar c ∧ ∀ r, rely c r → (k r).Assures rely guar post

@[simp] theorem assures_ret {a : α} : (ret a).Assures rely guar post ↔ post a := Iff.rfl

@[simp] theorem assures_await {c : C} {k : R c → Prog R α} : (await c k).Assures rely guar post ↔
    guar c ∧ ∀ r, rely c r → (k r).Assures rely guar post := Iff.rfl

/-- A stronger reliance, a weaker guarantee and a weaker result. -/
theorem Assures.mono (hrely : ∀ c r, rely' c r → rely c r) (hguar : ∀ c, guar c → guar' c)
    (hpost : ∀ a, post a → post' a) : ∀ {p : Prog R α}, p.Assures rely guar post → p.Assures rely' guar' post' := by
  intro p
  induction p with
  | ret a => exact hpost a
  | await c k ih => exact fun h => ⟨hguar c h.1, fun r hr => ih r (h.2 r (hrely c r hr))⟩

/-- **Sequencing.** -/
theorem Assures.bind {f : α → Prog R β} {post' : β → Prop} (hf : ∀ a, post a → (f a).Assures rely guar post') :
    ∀ {p : Prog R α}, p.Assures rely guar post → (p >>= f).Assures rely guar post' := by
  intro p
  induction p with
  | ret a => exact hf a
  | await c k ih => exact fun h => ⟨h.1, fun r hr => ih r (h.2 r hr)⟩

/-- **A loop.** -/
theorem Assures.forEach {f : β → Prog R Unit} {l : List β} (h : ∀ x ∈ l, (f x).Assures rely guar fun _ => True) :
    (Prog.forEach f l).Assures rely guar fun _ => True := by
  induction l with
  | nil => trivial
  | cons x l ih =>
    rw [forEach_cons]
    exact (h x (by simp)).bind fun _ _ => ih fun y hy => h y (by simp [hy])

/-- A program over a part of the state. -/
theorem Assures.embed {f : C → C'} {g : ∀ c, R' (f c) → R c} {rely' : ∀ c, R' c → Prop} {guar' : C' → Prop}
    (hrely : ∀ c r, rely' (f c) r → rely c (g c r)) (hguar : ∀ c, guar c → guar' (f c)) :
    ∀ {p : Prog R α}, p.Assures rely guar post → (p.embed f g).Assures rely' guar' post := by
  intro p
  induction p with
  | ret a => exact fun h => h
  | await c k ih => exact fun h => ⟨hguar c h.1, fun r hr => ih _ (h.2 _ (hrely c r hr))⟩

end Prog

variable {M : Machine R σ In Env ι α} {J : σ → Prop} {rely : ∀ c, R c → Prop} {guar : ι → C → Prop}
  {post : ι → α → Prop} {calls : ι → Prop} {ok : In → σ → C → Prop}

/-- The call is one of `calls`, or the step executes its command with a choice and in a state that `ok`
admits. -/
def Proper (calls : ι → Prop) (ok : In → σ → C → Prop) (w : Pool R σ ι α) : Ev In Env ι → Prop
  | .call _ x => calls x
  | .step pid i => ∀ p ∈ w.procs.get pid, ∀ c ∈ p.pending, ok i w.st c
  | .env _ => True

instance Proper.decidable [DecidablePred calls] [∀ i s c, Decidable (ok i s c)] (w : Pool R σ ι α) :
    ∀ e : Ev In Env ι, Decidable (Proper calls ok w e)
  | .call _ x => inferInstanceAs (Decidable (calls x))
  | .step pid i => inferInstanceAs (Decidable (∀ p ∈ w.procs.get pid, ∀ c ∈ p.pending, ok i w.st c))
  | .env _ => inferInstanceAs (Decidable True)

/-- A weaker condition on the events. -/
theorem Machine.Along.mono {G G' : Pool R σ ι α → Ev In Env ι → Prop} (h : ∀ w e, G w e → G' w e)
    {es : List (Ev In Env ι)} : ∀ {w : Pool R σ ι α}, M.Along G w es → M.Along G' w es := by
  induction es with
  | nil => exact fun _ => trivial
  | cons e es ih => exact fun hes => ⟨h _ e hes.1, ih hes.2⟩

/-- The commands that calls may issue keep `J`, and in states of `J` they are answered as `rely` says. -/
structure Machine.Rules (M : Machine R σ In Env ι α) (J : σ → Prop) (rely : ∀ c, R c → Prop)
    (guar : ι → C → Prop) (ok : In → σ → C → Prop) : Prop where
  exec : ∀ x i s c, J s → guar x c → ok i s c → J (M.exec i s c).1 ∧ rely c (M.exec i s c).2
  enter : ∀ x s, J s → J (M.enter x s)
  env : ∀ e s, J s → J (M.env e s)

/-- The state is in `J`, every call has been answered as `rely` says, and assures what it is to assure. -/
structure Pool.Assured (J : σ → Prop) (rely : ∀ c, R c → Prop) (guar : ι → C → Prop) (post : ι → α → Prop)
    (w : Pool R σ ι α) : Prop where
  st : J w.st
  answers : ∀ pid p, w.procs.get pid = some p → ∀ e ∈ p.hist, rely e.1 e.2
  calls : ∀ pid p, w.procs.get pid = some p → p.rest.Assures rely (guar p.call) (post p.call)

/-- Whatever command is pending, an admitted answer is as `rely` says. -/
def Pool.Relies (M : Machine R σ In Env ι α) (rely : ∀ c, R c → Prop) (ok : In → σ → C → Prop)
    (w : Pool R σ ι α) : Prop :=
  ∀ pid p c k, w.procs.get pid = some p → p.rest = .await c k → ∀ i, ok i w.st c → rely c (M.exec i w.st c).2

/-- In a state with the invariant the answers are as the calls rely on. -/
theorem Pool.Assured.relies {w : Pool R σ ι α} (hM : M.Rules J rely guar ok) (hw : w.Assured J rely guar post) :
    w.Relies M rely ok := by
  intro pid p c k hp hr i hi
  have hcall := hw.calls pid p hp
  rw [hr] at hcall
  exact (hM.exec p.call i w.st c hw.st hcall.1 hi).2

/-- **Relies and guarantees** hold together in every run. -/
theorem run_assured (hM : M.Rules J rely guar ok)
    (hprog : ∀ x, calls x → (M.prog x).Assures rely (guar x) (post x)) {w : Pool R σ ι α}
    (hw : w.Assured J rely guar post) {es : List (Ev In Env ι)} (hes : M.Along (Proper calls ok) w es) :
    (M.run w es).Assured J rely guar post := by
  refine Machine.run_inv ?_ ?_ ?_ hw hes
  · intro w pid x hw hx _
    refine ⟨hM.enter x w.st hw.st, Machine.begin_all hw.answers ?_, Machine.begin_all hw.calls (hprog x hx)⟩
    exact fun e he => (List.not_mem_nil he).elim
  · intro w pid i p c k hw hG hp hr
    have hcall := hw.calls pid p hp
    rw [hr] at hcall
    obtain ⟨hst, hans⟩ := hM.exec p.call i w.st c hw.st hcall.1 (hG p hp c (Proc.pending_of_await hr))
    refine ⟨hst, Machine.advance_all hw.answers fun e he => ?_, Machine.advance_all hw.calls (hcall.2 _ hans)⟩
    rcases List.mem_append.1 he with he | he
    · exact hw.answers pid p hp e he
    · rw [List.mem_singleton.1 he]
      exact hans
  · intro w e hw _
    exact ⟨hM.env e w.st hw.st, hw.answers, hw.calls⟩

theorem assured_init {s : σ} (hs : J s) : (Pool.init s : Pool R σ ι α).Assured J rely guar post where
  st := hs
  answers := fun pid p h => by simp [Pool.init] at h
  calls := fun pid p h => by simp [Pool.init] at h

/-! ## Facts about the state -/

section Stable

variable {S : Type} {P : ι → Protocol R S α} {s₀ : ι → S} {Holds : S → σ → Prop}

/-- The protocol state of a call says something about the shared state: its own commands establish it, and
no command of any call makes it false. -/
structure Machine.Stable (M : Machine R σ In Env ι α) (J : σ → Prop) (P : ι → Protocol R S α) (s₀ : ι → S)
    (Holds : S → σ → Prop) (ok : In → σ → C → Prop) : Prop where
  exec : ∀ x q i s c, J s → Holds q s → (P x).may q c → ok i s c →
    J (M.exec i s c).1 ∧ Holds ((P x).next q c (M.exec i s c).2) (M.exec i s c).1 ∧
      ∀ q', Holds q' s → Holds q' (M.exec i s c).1
  enter : ∀ x s, J s → J (M.enter x s) ∧ Holds (s₀ x) (M.enter x s) ∧ ∀ q, Holds q s → Holds q (M.enter x s)
  env : ∀ e s, J s → J (M.env e s) ∧ ∀ q, Holds q s → Holds q (M.env e s)

/-- The state is in `J`, and what the calls know of it is true. -/
structure Pool.Knows (J : σ → Prop) (P : ι → Protocol R S α) (s₀ : ι → S) (Holds : S → σ → Prop)
    (w : Pool R σ ι α) : Prop where
  st : J w.st
  obeys : w.Obeys P s₀
  calls : ∀ pid p, w.procs.get pid = some p → Holds ((P p.call).after (s₀ p.call) p.hist) w.st

theorem knows_init {s : σ} (hs : J s) : (Pool.init s : Pool R σ ι α).Knows J P s₀ Holds where
  st := hs
  obeys := Pool.obeys_init P s₀ s
  calls := fun pid p h => by simp [Pool.init] at h

/-- **What calls know** stays true, in every interleaving. -/
theorem run_stable (hM : M.Stable J P s₀ Holds ok) (hprog : ∀ x, calls x → (M.prog x).Follows (P x) (s₀ x))
    {w : Pool R σ ι α} (hw : w.Knows J P s₀ Holds) {es : List (Ev In Env ι)} (hes : M.Along (Proper calls ok) w es) :
    (M.run w es).Knows J P s₀ Holds := by
  refine Machine.run_inv ?_ ?_ ?_ hw hes
  · intro w pid x hw hx _
    obtain ⟨hst, hself, hothers⟩ := hM.enter x w.st hw.st
    refine ⟨hst, Machine.begin_obeys hw.obeys pid (hprog x hx), ?_⟩
    exact Machine.begin_all (fun q p hp => hothers _ (hw.calls q p hp)) hself
  · intro w pid i p c k hw hG hp hr
    have hmay := hw.obeys pid p hp
    rw [hr] at hmay
    obtain ⟨hst, hself, hothers⟩ := hM.exec p.call _ i w.st c hw.st (hw.calls pid p hp) hmay.1
      (hG p hp c (Proc.pending_of_await hr))
    refine ⟨hst, Machine.advance_obeys hw.obeys i hp hr, ?_⟩
    refine Machine.advance_all (fun q p hp => hothers _ (hw.calls q p hp)) ?_
    rw [Protocol.after_snoc]
    exact hself
  · intro w e hw _
    obtain ⟨hst, hothers⟩ := hM.env e w.st hw.st
    exact ⟨hst, hw.obeys, fun q p hp => hothers _ (hw.calls q p hp)⟩

end Stable

end NodeToolkit.Async
