import Mathlib.Data.List.Induction
import Mathlib.Data.Nat.Pairing
import NodeToolkit.Async.Rely

/-!
# Components on top of others

A component is verified over commands that are atomic or answered by the world, and runs over
programs of another component. Here two machines are compared, and every interleaving of the
composed one is an interleaving of each layer.

* `Prog.interp`: each command of a program carried out by a program.
* `Upper`: some calls of the composed machine `N` are calls of `U`, with each command carried out by a
  program that has its effect in one step. Every run of `N` is a run of `U` (`Upper.run`).
* `Lower`: programs of `N` contain calls of `M`. Every run of `N` contains a run of `M` on its part
  of the state (`Lower.run`), in which each call of `N` has made the calls its protocol lets it
  make, and has got what these return.
-/

namespace NodeToolkit.Async

/-! ## Commands carried out by programs -/

section Interp

variable {C C₁ : Type} {R : C → Type} {R₁ : C₁ → Type} {α β : Type}

/-- The program with each of its commands carried out by a program. -/
def Prog.interp (impl : ∀ c, Prog R (R₁ c)) : Prog R₁ α → Prog R α
  | ret a => ret a
  | await c k => impl c >>= fun r => (k r).interp impl

namespace Prog

variable {impl : ∀ c, Prog R (R₁ c)}

@[simp] theorem interp_ret (a : α) : (ret a : Prog R₁ α).interp impl = ret a := rfl

@[simp] theorem interp_await (c : C₁) (k : R₁ c → Prog R₁ α) :
    (await c k).interp impl = impl c >>= fun r => (k r).interp impl := rfl

theorem embed_bind {C' : Type} {R' : C' → Type} {f : C → C'} {g : ∀ c, R' (f c) → R c} (p : Prog R α)
    (q : α → Prog R β) : (p >>= q).embed f g = p.embed f g >>= fun a => (q a).embed f g := by
  induction p with
  | ret a => rfl
  | await c k ih => exact congrArg (await (f c)) (funext fun r => ih (g c r))

theorem embed_embed {C' C'' : Type} {R' : C' → Type} {R'' : C'' → Type} {f : C → C'} {g : ∀ c, R' (f c) → R c}
    {f' : C' → C''} {g' : ∀ c, R'' (f' c) → R' c} (p : Prog R α) :
    (p.embed f g).embed f' g' = p.embed (fun c => f' (f c)) fun c r => g c (g' (f c) r) := by
  induction p with
  | ret a => rfl
  | await c k ih => exact congrArg (await (f' (f c))) (funext fun r => ih (g c (g' (f c) r)))

/-- **Commands carried out by programs**: what a program relies on is what carrying out its commands assures. -/
theorem Assures.interp {rely : ∀ c, R c → Prop} {guar : C → Prop} {rely₁ : ∀ c, R₁ c → Prop} {guar₁ : C₁ → Prop}
    {post : α → Prop} (himpl : ∀ c, guar₁ c → (impl c).Assures rely guar (rely₁ c)) :
    ∀ {p : Prog R₁ α}, p.Assures rely₁ guar₁ post → (p.interp impl).Assures rely guar post := by
  intro p
  induction p with
  | ret a => exact fun h => h
  | await c k ih => exact fun h => (himpl c h.1).bind fun r hr => ih r (h.2 r hr)

end Prog

end Interp

/-! ## The layer above -/

section Above

variable {C C₁ : Type} {R : C → Type} {R₁ : C₁ → Type} {σ σ₁ In In₁ Env Env₁ ι κ α γ : Type}

/-- The command does not change this part of the state. -/
def Silent (N : Machine R σ In Env ι α) (up : σ → σ₁) (c : C) : Prop := ∀ i s, up (N.exec i s c).1 = up s

/-- The program has the effect of the command `c` of `U` in exactly one step, its last one, with a
choice that `may` admits. The steps before are silent. -/
def Implements (U : Machine R₁ σ₁ In₁ Env₁ κ γ) (N : Machine R σ In Env ι α) (up : σ → σ₁)
    (rely : ∀ c, R c → Prop) (may : In₁ → C₁ → Prop) (c : C₁) : Prog R (R₁ c) → Prop
  | .ret _ => False
  | .await c' k =>
    (∀ i s, ∃ j, may j c ∧ up (N.exec i s c').1 = (U.exec j (up s) c).1 ∧
      k (N.exec i s c').2 = .ret (U.exec j (up s) c).2) ∨
    Silent N up c' ∧ ∀ r, rely c' r → Implements U N up rely may c (k r)

/-- A silent program first, and then one that has the effect. -/
theorem Implements.of_silent {U : Machine R₁ σ₁ In₁ Env₁ κ γ} {N : Machine R σ In Env ι α} {up : σ → σ₁}
    {rely : ∀ c, R c → Prop} {may : In₁ → C₁ → Prop} {c : C₁} {β : Type} {post : β → Prop} {f : β → Prog R (R₁ c)}
    (hf : ∀ a, post a → Implements U N up rely may c (f a)) :
    ∀ {p : Prog R β}, p.Assures rely (Silent N up) post → Implements U N up rely may c (p >>= f) := by
  intro p
  induction p with
  | ret a => exact hf a
  | await c' k ih => exact fun h => Or.inr ⟨h.1, fun r hr => ih r (h.2 r hr)⟩

/-- Some calls of the machine `N` run programs of `U`, each command carried out by a program; the other
ones are silent. -/
structure Upper (U : Machine R₁ σ₁ In₁ Env₁ κ γ) (N : Machine R σ In Env ι α) where
  up : σ → σ₁
  impl : ∀ c, Prog R (R₁ c)
  rely : ∀ c, R c → Prop
  ok : In → σ → C → Prop
  may : In₁ → C₁ → Prop
  call : ι → Option κ
  res : γ → α
  prog : ∀ x y, call x = some y → N.prog x = (U.prog y).interp impl >>= fun a => .ret (res a)
  silent : ∀ x, call x = none → (N.prog x).Assures rely (Silent N up) fun _ => True
  implements : ∀ c, Implements U N up rely may c (impl c)
  enter : ∀ x s, up (N.enter x s) = match call x with
    | some y => U.enter y (up s)
    | none => up s
  env : ∀ e s, up (N.env e s) = up s ∨ ∃ e', up (N.env e s) = U.env e' (up s)

namespace Upper

variable {U : Machine R₁ σ₁ In₁ Env₁ κ γ} {N : Machine R σ In Env ι α} (L : Upper U N)

/-- A program of `U` as `N` runs it. -/
def whole (p : Prog R₁ γ) : Prog R α := p.interp L.impl >>= fun a => .ret (L.res a)

/-- The calls are those of `N`, and commands get choices that `may` admits. -/
abbrev Admits (calls : ι → Prop) : Pool R₁ σ₁ κ γ → Ev In₁ Env₁ κ → Prop :=
  Proper (fun y => ∃ x, calls x ∧ L.call x = some y) fun j _ c => L.may j c

/-- Where a program of `N` stands in a program of `U`. -/
inductive At : Prog R₁ γ → Prog R α → Prop
  | ret (a : γ) : At (.ret a) (.ret (L.res a))
  | await (c : C₁) (k : R₁ c → Prog R₁ γ) (q : Prog R (R₁ c)) (hq : Implements U N L.up L.rely L.may c q) :
      At (.await c k) (q >>= fun r => L.whole (k r))

/-- Where a call of `N` stands: it is a call of `U`, or it is silent. -/
def Stands (u : Pool R₁ σ₁ κ γ) (pid : ℕ) (p : Proc R ι α) : Prop :=
  match L.call p.call with
  | some y => ∃ q, u.procs.get pid = some q ∧ q.call = y ∧ L.At q.rest p.rest
  | none => u.procs.get pid = none ∧ p.rest.Assures L.rely (Silent N L.up) fun _ => True

/-- The calls of both pools are the same, and stand at the same places. -/
structure Follows (w : Pool R σ ι α) (u : Pool R₁ σ₁ κ γ) : Prop where
  st : u.st = L.up w.st
  calls : ∀ pid p, w.procs.get pid = some p → L.Stands u pid p
  free : ∀ pid, w.procs.get pid = none → u.procs.get pid = none

variable {L} {w w' : Pool R σ ι α} {u u' : Pool R₁ σ₁ κ γ} {pid : ℕ} {calls : ι → Prop}

theorem at_whole (p : Prog R₁ γ) : L.At p (L.whole p) := by
  cases p with
  | ret a => exact .ret a
  | await c k =>
    rw [whole, Prog.interp_await, Prog.bind_assoc]
    exact .await c k (L.impl c) (L.implements c)

theorem follows_init (s : σ) : L.Follows (Pool.init s) (Pool.init (L.up s)) where
  st := rfl
  calls := fun pid p h => by simp [Pool.init] at h
  free := fun _ _ => rfl

/-- What the calls have returned is the same. -/
theorem Follows.result (h : L.Follows w u) {p : Proc R ι α} {y : κ} (hp : w.procs.get pid = some p)
    (hy : L.call p.call = some y) :
    ∃ q, u.procs.get pid = some q ∧ q.call = y ∧ p.result = q.result.map L.res := by
  have hstands := h.calls pid p hp
  rw [Stands, hy] at hstands
  obtain ⟨q, hq, hcall, hat⟩ := hstands
  refine ⟨q, hq, hcall, ?_⟩
  obtain ⟨pcall, phist, prest⟩ := p
  obtain ⟨qcall, qhist, qrest⟩ := q
  cases hat with
  | ret a => rfl
  | await c k q hq =>
    cases q with
    | ret r => exact hq.elim
    | await c' k' => rfl

theorem Stands.congr {p : Proc R ι α} (h : L.Stands u pid p) (hu : u'.procs.get pid = u.procs.get pid) :
    L.Stands u' pid p := by
  unfold Stands at h ⊢
  rw [hu]
  exact h

/-- A call of `N` has moved, and perhaps a call of `U`; the calls of others are as they were. -/
theorem Follows.moved (h : L.Follows w u) {p : Proc R ι α} (hst : u'.st = L.up w'.st)
    (hself : w'.procs.get pid = some p) (hstands : L.Stands u' pid p)
    (hw : ∀ q, q ≠ pid → w'.procs.get q = w.procs.get q)
    (hu : ∀ q, q ≠ pid → u'.procs.get q = u.procs.get q) : L.Follows w' u' where
  st := hst
  calls := by
    intro q p' hp'
    by_cases hq : q = pid
    · subst hq
      rw [hself] at hp'
      cases hp'
      exact hstands
    · rw [hw q hq] at hp'
      exact (h.calls q p' hp').congr (hu q hq)
  free := by
    intro q hnone
    have hq : q ≠ pid := by
      rintro rfl
      rw [hself] at hnone
      cases hnone
    rw [hw q hq] at hnone
    exact (hu q hq).trans (h.free q hnone)

/-- **A step of a call** of `N` is silent, or is the step of its command in `U`. -/
theorem Follows.advance (h : L.Follows w u) (hrely : w.Relies N L.rely L.ok) {i : In} {p : Proc R ι α} {c : C} {k : R c → Prog R α}
    (hp : w.procs.get pid = some p) (hr : p.rest = .await c k) (hi : L.ok i w.st c) :
    ∃ es, U.Along (L.Admits calls) u es ∧ L.Follows (N.advance w pid i p c k) (U.run u es) := by
  have hstands := h.calls pid p hp
  have hans : L.rely c (N.exec i w.st c).2 := hrely pid p c k hp hr i hi
  have hw : ∀ q, q ≠ pid → (N.advance w pid i p c k).procs.get q = w.procs.get q := fun q hq =>
    Machine.get_advance_ne hq
  cases hy : L.call p.call with
  | none =>
    rw [Stands, hy, hr] at hstands
    obtain ⟨hnone, hsilent⟩ := hstands
    refine ⟨[], trivial, h.moved ?_ Machine.get_advance_self ?_ hw fun _ _ => rfl⟩
    · exact h.st.trans (hsilent.1 i w.st).symm
    · rw [Stands, hy]
      exact ⟨hnone, hsilent.2 _ hans⟩
  | some y =>
    rw [Stands, hy, hr] at hstands
    obtain ⟨q, hq, hcall, hat⟩ := hstands
    generalize hrest : (Prog.await c k : Prog R α) = rest at hat
    obtain ⟨qcall, qhist, qrest⟩ := q
    cases hat with
    | ret a => cases hrest
    | await c₁ k₁ q' hq' =>
      cases q' with
      | ret r => exact hq'.elim
      | await c' k' =>
        cases hrest
        rcases hq' with hcommit | hsilent
        · obtain ⟨j, hmay, hst, hk⟩ := hcommit i w.st
          have hstep : U.step u (.step pid j) = U.advance u pid j ⟨qcall, qhist, .await c₁ k₁⟩ c₁ k₁ := by
            rw [Machine.step, hq]
          refine ⟨[.step pid j], ⟨fun p' hp' c₂ hc₂ => ?_, trivial⟩, h.moved ?_ Machine.get_advance_self ?_ hw ?_⟩
          · rw [hq] at hp'
            cases hp'
            cases hc₂
            exact hmay
          · rw [Machine.run_cons, Machine.run_nil, hstep]
            show (U.exec j u.st c₁).1 = L.up (N.exec i w.st c).1
            rw [h.st, hst]
          · rw [Machine.run_cons, Machine.run_nil, hstep, Stands, hy]
            refine ⟨_, Machine.get_advance_self, hcall, ?_⟩
            rw [h.st, hk]
            exact at_whole _
          · intro q hne
            rw [Machine.run_cons, Machine.run_nil, hstep]
            exact Machine.get_advance_ne hne
        · refine ⟨[], trivial, h.moved ?_ Machine.get_advance_self ?_ hw fun _ _ => rfl⟩
          · exact h.st.trans (hsilent.1 i w.st).symm
          · rw [Stands, hy]
            exact ⟨_, hq, hcall, .await c₁ k₁ _ (hsilent.2 _ hans)⟩

theorem Follows.begin (h : L.Follows w u) (hn : w.procs.get pid = none) {x : ι} (hx : calls x) :
    ∃ es, U.Along (L.Admits calls) u es ∧ L.Follows (N.begin w pid x) (U.run u es) := by
  have hw : ∀ q, q ≠ pid → (N.begin w pid x).procs.get q = w.procs.get q := fun q hq =>
    OMap.get_set_ne _ _ (Ne.symm hq)
  have henter := L.enter x w.st
  cases hy : L.call x with
  | none =>
    rw [hy] at henter
    refine ⟨[], trivial, h.moved (h.st.trans henter.symm) (OMap.get_set_self ..) ?_ hw fun _ _ => rfl⟩
    rw [Stands, hy]
    exact ⟨h.free pid hn, L.silent x hy⟩
  | some y =>
    rw [hy] at henter
    have hstep : U.step u (.call pid y) = U.begin u pid y := by rw [Machine.step, if_pos (h.free pid hn)]
    refine ⟨[.call pid y], ⟨⟨x, hx, hy⟩, trivial⟩, h.moved ?_ (OMap.get_set_self ..) ?_ hw ?_⟩
    · rw [Machine.run_cons, Machine.run_nil, hstep]
      show U.enter y u.st = L.up (N.enter x w.st)
      rw [h.st, henter]
    · rw [Machine.run_cons, Machine.run_nil, hstep, Stands, hy]
      refine ⟨_, OMap.get_set_self .., rfl, ?_⟩
      dsimp only
      rw [L.prog x y hy]
      exact at_whole _
    · intro q hne
      rw [Machine.run_cons, Machine.run_nil, hstep]
      exact OMap.get_set_ne _ _ (Ne.symm hne)

/-- **One event** of `N` is at most one event of `U`. -/
theorem Follows.step (h : L.Follows w u) (hrely : w.Relies N L.rely L.ok) {e : Ev In Env ι}
    (he : Proper calls L.ok w e) :
    ∃ es, U.Along (L.Admits calls) u es ∧ L.Follows (N.step w e) (U.run u es) := by
  rcases Machine.step_cases (M := N) w e with ⟨pid, x, rfl, hn, hstep⟩ | ⟨pid, i, p, c, k, rfl, hp, hr, hstep⟩ |
    ⟨v, rfl, hstep⟩ | hstep
  · rw [hstep]
    exact h.begin hn he
  · rw [hstep]
    exact h.advance hrely hp hr (he p hp c (Proc.pending_of_await hr))
  · rw [hstep]
    rcases L.env v w.st with hsame | ⟨e', hmove⟩
    · exact ⟨[], trivial, h.st.trans hsame.symm, h.calls, h.free⟩
    · refine ⟨[.env e'], ⟨trivial, trivial⟩, ?_, h.calls, h.free⟩
      show U.env e' u.st = L.up (N.env v w.st)
      rw [h.st, hmove]
  · rw [hstep]
    exact ⟨[], trivial, h⟩

/-- **Every run of `N` is a run of `U`**, with the same calls and admitted choices. -/
theorem run (s : σ) {es : List (Ev In Env ι)} (hes : N.Along (Proper calls L.ok) (Pool.init s) es)
    (hrely : ∀ v, v <+: es → (N.run (Pool.init s) v).Relies N L.rely L.ok) :
    ∃ us, U.Along (L.Admits calls) (Pool.init (L.up s)) us ∧
      L.Follows (N.run (Pool.init s) es) (U.run (Pool.init (L.up s)) us) := by
  induction es using List.reverseRecOn with
  | nil => exact ⟨[], trivial, follows_init s⟩
  | append_singleton es e ih =>
    obtain ⟨hinit, hlast, -⟩ := Machine.Along.append.1 hes
    obtain ⟨us, halong, hus⟩ := ih hinit fun v hv => hrely v (hv.trans (List.prefix_append ..))
    obtain ⟨vs, halong', hvs⟩ := hus.step (hrely es (List.prefix_append ..)) hlast
    refine ⟨us ++ vs, Machine.Along.append.2 ⟨halong, halong'⟩, ?_⟩
    rw [Machine.run_append, Machine.run_append]
    exact hvs

end Upper

end Above

/-! ## The layer below -/

section Below

variable {C C' : Type} {R : C → Type} {R' : C' → Type} {σ σ' In In' Env Env' ι ι' α β S : Type}

/-- The state of `N` has the state of `M` as a part, as far as `rel` says, and `N` executes the commands
of `M` on it. -/
structure Lower (M : Machine R σ In Env ι α) (N : Machine R' σ' In' Env' ι' β) where
  rel : σ' → σ → Prop
  rely : ∀ c, R' c → Prop
  ok' : In' → σ' → C' → Prop
  ok : In → σ → C → Prop
  cmd : C → C'
  ans : ∀ c, R' (cmd c) → R c
  exec : ∀ i s t c, rel s t → ok' i s (cmd c) → ∃ j, ok j t c ∧ rel (N.exec i s (cmd c)).1 (M.exec j t c).1 ∧
    ans c (N.exec i s (cmd c)).2 = (M.exec j t c).2
  enter : ∀ x s t, rel s t → rel (N.enter x s) t
  entered : ∀ x s t, rel s t → rel s (M.enter x t)
  env : ∀ e s t, rel s t → rel (N.env e s) t ∨ ∃ e', rel (N.env e s) (M.env e' t)

/-- A protocol for the calls that a program makes: the commands are the calls. -/
abbrev Asking (ι α S β : Type) : Type := Protocol (fun _ : ι => α) S β

/-- The calls that `may` admits, in any number. -/
def Asking.some {γ : Type} (may : ι → Prop) : Asking ι α Unit γ := ⟨fun _ => may, fun s _ _ => s, fun _ _ => True⟩

namespace Lower

variable {M : Machine R σ In Env ι α} {N : Machine R' σ' In' Env' ι' β} (L : Lower M N)

/-- A call of `M` inside a program of `N`. -/
def call (x : ι) : Prog R' α := (M.prog x).embed L.cmd L.ans

/-- The command does not touch the state of `M`. -/
def Inert (c : C') : Prop := ∀ i s t, L.rel s t → L.rel (N.exec i s c).1 t

/-- The program follows the protocol with the calls it makes, and does not touch the state of `M` otherwise. -/
inductive Asks {γ : Type} (P : Asking ι α S γ) : S → Prog R' γ → Prop
  | ret (s : S) (b : γ) (h : P.fin s b) : Asks P s (.ret b)
  | inert (s : S) (c : C') (k : R' c → Prog R' γ) (hc : L.Inert c)
      (hk : ∀ r, L.rely c r → Asks P s (k r)) : Asks P s (.await c k)
  | ask (s : S) (x : ι) (k : α → Prog R' γ) (hx : P.may s x) (hk : ∀ a, Asks P (P.next s x a) (k a)) :
      Asks P s (L.call x >>= k)

variable {L}

/-- **Sequencing.** -/
theorem Asks.bind {γ δ : Type} {P : Asking ι α S γ} {Q : Asking ι α S δ} (hm : P.may = Q.may)
    (hn : P.next = Q.next) {f : γ → Prog R' δ} (hf : ∀ s b, P.fin s b → L.Asks Q s (f b)) {s : S}
    {p : Prog R' γ} (h : L.Asks P s p) : L.Asks Q s (p >>= f) := by
  induction h with
  | ret s b h => exact hf s b h
  | inert s c k hc hk ih => exact .inert s c _ hc ih
  | ask s x k hx hk ih =>
    rw [Prog.bind_assoc]
    exact .ask s x _ (hm ▸ hx) fun a => hn ▸ ih a

/-- **Commands carried out by programs** that make calls. -/
theorem Asks.interp {C₁ : Type} {R₁ : C₁ → Type} {may : ι → Prop} {impl : ∀ c, Prog R' (R₁ c)} {γ : Type}
    (himpl : ∀ c, L.Asks (Asking.some may) () (impl c)) (p : Prog R₁ γ) :
    L.Asks (Asking.some may) () (p.interp impl) := by
  induction p with
  | ret b => exact .ret () b trivial
  | await c k ih =>
    have hk : ∀ s r, (Asking.some may : Asking ι α Unit (R₁ c)).fin s r →
        L.Asks (Asking.some may) s ((k r).interp impl) := fun _ r _ => ih r
    exact Asks.bind (P := (Asking.some may : Asking ι α Unit (R₁ c))) (Q := (Asking.some may : Asking ι α Unit γ))
      rfl rfl hk (himpl c)

/-- The calls of `M` that a call of `N` has made, with what they returned. The call with number `n` has
the process id `Nat.pair pid n`. -/
structure Made (P : Asking ι α S β) (s₀ : S) (w : Pool R σ ι α) (pid : ℕ) (H : Hist fun _ : ι => α) : Prop where
  answered : ∀ n e, H[n]? = some e →
    ∃ q, w.procs.get (Nat.pair pid n) = some q ∧ q.call = e.1 ∧ q.result = some e.2
  allowed : ∀ n e, H[n]? = some e → P.may (P.after s₀ (H.take n)) e.1

/-- No call of `M` has a number from `n` on. -/
def FreeFrom (w : Pool R σ ι α) (pid n : ℕ) : Prop := ∀ m, n ≤ m → w.procs.get (Nat.pair pid m) = none

variable (L) in
/-- Where a call of `N` stands, `n` calls of `M` after its start: it has returned, it waits for an inert
command, or it is in a call of `M`. -/
inductive Stands (P : Asking ι α S β) (w : Pool R σ ι α) (pid n : ℕ) (s : S) : Prog R' β → Prop
  | done (b : β) (h : P.fin s b) (hfree : FreeFrom w pid n) : Stands P w pid n s (.ret b)
  | waits (c : C') (k : R' c → Prog R' β) (hc : L.Inert c)
      (hk : ∀ r, L.rely c r → L.Asks P s (k r)) (hfree : FreeFrom w pid n) : Stands P w pid n s (.await c k)
  | calling (x : ι) (hist : Hist R) (c : C) (k : R c → Prog R α) (k' : α → Prog R' β) (hx : P.may s x)
      (hget : w.procs.get (Nat.pair pid n) = some ⟨x, hist, .await c k⟩)
      (hk : ∀ a, L.Asks P (P.next s x a) (k' a)) (hfree : FreeFrom w pid (n + 1)) :
      Stands P w pid n s ((Prog.await c k).embed L.cmd L.ans >>= k')

section Places

variable {P : Asking ι α S β} {s₀ s : S} {w w' : Pool R σ ι α} {pid n : ℕ} {H : Hist fun _ : ι => α}
  {r : Prog R' β}

theorem Made.congr (h : Made P s₀ w pid H)
    (hw : ∀ n, w'.procs.get (Nat.pair pid n) = w.procs.get (Nat.pair pid n)) : Made P s₀ w' pid H :=
  ⟨fun n e he => by rw [hw]; exact h.answered n e he, h.allowed⟩

theorem FreeFrom.congr (h : FreeFrom w pid n)
    (hw : ∀ n, w'.procs.get (Nat.pair pid n) = w.procs.get (Nat.pair pid n)) : FreeFrom w' pid n :=
  fun m hm => (hw m).trans (h m hm)

theorem Stands.congr (h : L.Stands P w pid n s r)
    (hw : ∀ n, w'.procs.get (Nat.pair pid n) = w.procs.get (Nat.pair pid n)) : L.Stands P w' pid n s r := by
  cases h with
  | done b h hfree => exact .done b h (hfree.congr hw)
  | waits c k hc hk hfree => exact .waits c k hc hk (hfree.congr hw)
  | calling x hist c k k' hx hget hk hfree => exact .calling x hist c k k' hx ((hw n).trans hget) hk (hfree.congr hw)

/-- One more call has returned. -/
theorem Made.snoc (h : Made P s₀ w pid H) {x : ι} {a : α} {q : Proc R ι α} (hx : P.may (P.after s₀ H) x)
    (hget : w.procs.get (Nat.pair pid H.length) = some q) (hcall : q.call = x) (hres : q.result = some a) :
    Made P s₀ w pid (H ++ [⟨x, a⟩]) := by
  have hcases : ∀ n e, (H ++ [⟨x, a⟩])[n]? = some e → H[n]? = some e ∧ n < H.length ∨ n = H.length ∧ e = ⟨x, a⟩ := by
    intro n e he
    rw [List.getElem?_append] at he
    split at he
    · rename_i hlt
      exact Or.inl ⟨he, hlt⟩
    · obtain ⟨hzero, hval⟩ := List.getElem?_eq_some_iff.1 he
      have hn : n - H.length = 0 := by simpa using hzero
      refine Or.inr ⟨by omega, ?_⟩
      simp [hn] at hval
      exact hval.symm
  refine ⟨fun n e he => ?_, fun n e he => ?_⟩
  · rcases hcases n e he with ⟨hold, -⟩ | ⟨rfl, rfl⟩
    · exact h.answered n e hold
    · exact ⟨q, hget, hcall, hres⟩
  · rcases hcases n e he with ⟨hold, hlt⟩ | ⟨rfl, rfl⟩
    · rw [List.take_append_of_le_length hlt.le]
      exact h.allowed n e hold
    · rw [List.take_left]
      exact hx

end Places

section Run

variable {P : ι' → Asking ι α S β} {s₀ : ι' → S} {w' : Pool R' σ' ι' β} {w : Pool R σ ι α} {pid : ℕ}
  {calls : ι → Prop} {calls' : ι' → Prop}

/-- The process ids of two calls of `N` differ. -/
theorem pair_ne {q n m : ℕ} (h : q ≠ pid) : Nat.pair pid n ≠ Nat.pair q m := by
  intro he
  exact h (Nat.pair_eq_pair.1 he).1.symm

/-- A call of `N` goes on until it waits for a command or has returned; a call of `M` without commands
returns at once. -/
theorem settle (calls : ι → Prop) {P : Asking ι α S β} {s₀ s : S} {r : Prog R' β} (hok : ∀ s x, P.may s x → calls x)
    (hask : L.Asks P s r) : ∀ {w : Pool R σ ι α} {H : Hist fun _ : ι => α}, Made P s₀ w pid H →
      P.after s₀ H = s → FreeFrom w pid H.length →
      ∃ ls, M.Along (Proper calls L.ok) w ls ∧ (∀ t, L.rel t w.st → L.rel t (M.run w ls).st) ∧
        (∀ q n, q ≠ pid → (M.run w ls).procs.get (Nat.pair q n) = w.procs.get (Nat.pair q n)) ∧
        ∃ H', Made P s₀ (M.run w ls) pid H' ∧ L.Stands P (M.run w ls) pid H'.length (P.after s₀ H') r := by
  induction hask with
  | ret s b h =>
    intro w H hmade hs hfree
    subst hs
    exact ⟨[], trivial, fun _ ht => ht, fun _ _ _ => rfl, H, hmade, .done b h hfree⟩
  | inert s c k hc hk _ =>
    intro w H hmade hs hfree
    subst hs
    exact ⟨[], trivial, fun _ ht => ht, fun _ _ _ => rfl, H, hmade, .waits c k hc hk hfree⟩
  | ask s x k hx hk ih =>
    intro w H hmade hs hfree
    subst hs
    -- the call of `M` starts under the next number
    have hnone : w.procs.get (Nat.pair pid H.length) = none := hfree _ le_rfl
    have hstep : M.step w (.call (Nat.pair pid H.length) x) = M.begin w (Nat.pair pid H.length) x := by
      rw [Machine.step, if_pos hnone]
    have hst : ∀ t, L.rel t w.st → L.rel t (M.begin w (Nat.pair pid H.length) x).st := fun t => L.entered x t w.st
    have hself : (M.begin w (Nat.pair pid H.length) x).procs.get (Nat.pair pid H.length) = some ⟨x, [], M.prog x⟩ :=
      OMap.get_set_self ..
    have hother : ∀ q n, q ≠ pid → (M.begin w (Nat.pair pid H.length) x).procs.get (Nat.pair q n) =
        w.procs.get (Nat.pair q n) := fun q n hq => OMap.get_set_ne _ _ (pair_ne hq)
    have hrest : ∀ m, m ≠ H.length → (M.begin w (Nat.pair pid H.length) x).procs.get (Nat.pair pid m) =
        w.procs.get (Nat.pair pid m) := by
      intro m hm
      refine OMap.get_set_ne _ _ fun he => hm ?_
      exact (Nat.pair_eq_pair.1 he).2.symm
    have hfree' : FreeFrom (M.begin w (Nat.pair pid H.length) x) pid (H.length + 1) := fun m hm =>
      (hrest m (by omega)).trans (hfree m (by omega))
    have hmade' : Made P s₀ (M.begin w (Nat.pair pid H.length) x) pid H := by
      refine ⟨fun n e he => ?_, hmade.allowed⟩
      have hlt : n < H.length := (List.getElem?_eq_some_iff.1 he).1
      rw [hrest n (by omega)]
      exact hmade.answered n e he
    have hcall : calls x := hok _ _ hx
    cases hprog : M.prog x with
    | ret a =>
      rw [hprog] at hself
      have hH : P.after s₀ (H ++ [⟨x, a⟩]) = P.next (P.after s₀ H) x a := Protocol.after_snoc ..
      have hlen : (H ++ [(⟨x, a⟩ : Σ _ : ι, α)]).length = H.length + 1 := by simp
      obtain ⟨ls, hadmits, hst', hother', H', hH', hstands⟩ := ih a (hmade'.snoc hx hself rfl rfl) hH
        (by rw [hlen]; exact hfree')
      refine ⟨.call (Nat.pair pid H.length) x :: ls, ?_, ?_, ?_, H', ?_, ?_⟩
      · refine ⟨hcall, ?_⟩
        rw [hstep]
        exact hadmits
      · rw [Machine.run_cons, hstep]
        exact fun t ht => hst' t (hst t ht)
      · intro q n hq
        rw [Machine.run_cons, hstep, hother' q n hq, hother q n hq]
      · rw [Machine.run_cons, hstep]
        exact hH'
      · rw [Machine.run_cons, hstep, call, hprog]
        exact hstands
    | await c k₀ =>
      rw [hprog] at hself
      refine ⟨[.call (Nat.pair pid H.length) x], ?_, ?_, ?_, H, ?_, ?_⟩
      · exact ⟨hcall, trivial⟩
      · rw [Machine.run_cons, Machine.run_nil, hstep]
        exact hst
      · intro q n hq
        rw [Machine.run_cons, Machine.run_nil, hstep, hother q n hq]
      · rw [Machine.run_cons, Machine.run_nil, hstep]
        exact hmade'
      · rw [Machine.run_cons, Machine.run_nil, hstep, call, hprog]
        exact .calling x [] c k₀ k hx hself hk hfree'

variable (L) in
/-- **The run of `M` inside a run of `N`**: its state is that part of the state, and its calls are those
that the calls of `N` have made. -/
structure Shadows (P : ι' → Asking ι α S β) (s₀ : ι' → S) (w' : Pool R' σ' ι' β) (w : Pool R σ ι α) : Prop where
  st : L.rel w'.st w.st
  calls : ∀ pid p, w'.procs.get pid = some p → ∃ H, Made (P p.call) (s₀ p.call) w pid H ∧
    L.Stands (P p.call) w pid H.length ((P p.call).after (s₀ p.call) H) p.rest
  free : ∀ pid, w'.procs.get pid = none → FreeFrom w pid 0

theorem shadows_init {s : σ'} {t : σ} (hs : L.rel s t) : L.Shadows P s₀ (Pool.init s) (Pool.init t) where
  st := hs
  calls := fun pid p h => by simp [Pool.init] at h
  free := fun _ _ _ _ => rfl

/-- What a call of `N` has returned is what its protocol lets it return after the calls it has made. -/
theorem Shadows.returned (h : L.Shadows P s₀ w' w) {p : Proc R' ι' β} {b : β} (hp : w'.procs.get pid = some p)
    (hres : p.result = some b) : ∃ H, Made (P p.call) (s₀ p.call) w pid H ∧
      (P p.call).fin ((P p.call).after (s₀ p.call) H) b := by
  obtain ⟨H, hmade, hstands⟩ := h.calls pid p hp
  rw [Proc.result_eq_some.1 hres] at hstands
  generalize hrest : (Prog.ret b : Prog R' β) = rest at hstands
  refine ⟨H, hmade, ?_⟩
  cases hstands with
  | done b' h hfree =>
    cases hrest
    exact h
  | waits c k hc hk hfree => cases hrest
  | calling x hist c k k' hx hget hk hfree => cases hrest

/-- Every call of `M` has been made by a call of `N`, which its protocol let it make. -/
theorem Shadows.owner (h : L.Shadows P s₀ w' w) {q : ℕ} {r : Proc R ι α} (hr : w.procs.get q = some r) :
    ∃ pid p H, w'.procs.get pid = some p ∧ Made (P p.call) (s₀ p.call) w pid H ∧
      ∃ n, q = Nat.pair pid n ∧ n ≤ H.length ∧ (P p.call).may ((P p.call).after (s₀ p.call) (H.take n)) r.call := by
  obtain ⟨pid, n, rfl⟩ : ∃ pid n, q = Nat.pair pid n := ⟨_, _, (Nat.pair_unpair q).symm⟩
  cases hp : w'.procs.get pid with
  | none =>
    rw [h.free pid hp n (Nat.zero_le n)] at hr
    cases hr
  | some p =>
    obtain ⟨H, hmade, hstands⟩ := h.calls pid p hp
    refine ⟨pid, p, H, hp, hmade, n, rfl, ?_⟩
    have hold : n < H.length → (P p.call).may ((P p.call).after (s₀ p.call) (H.take n)) r.call := by
      intro hn
      have he : H[n]? = some H[n] := List.getElem?_eq_getElem hn
      obtain ⟨r', hr', hcall, -⟩ := hmade.answered n H[n] he
      rw [hr] at hr'
      cases hr'
      rw [hcall]
      exact hmade.allowed n H[n] he
    have hnew : ∀ {m}, FreeFrom w pid m → n < m := by
      intro m hfree
      by_contra hle
      rw [hfree n (not_lt.1 hle)] at hr
      cases hr
    generalize p.rest = rest at hstands
    cases hstands with
    | done b h hfree => exact ⟨(hnew hfree).le, hold (hnew hfree)⟩
    | waits c k hc hk hfree => exact ⟨(hnew hfree).le, hold (hnew hfree)⟩
    | calling x hist c k k' hx hget hk hfree =>
      have hle : n ≤ H.length := Nat.lt_succ_iff.1 (hnew hfree)
      refine ⟨hle, ?_⟩
      rcases hle.lt_or_eq with hlt | rfl
      · exact hold hlt
      · rw [List.take_length]
        rw [hget] at hr
        cases hr
        exact hx

/-- A call of `N` has moved, and `M` with it; the calls of others are as they were. -/
theorem Shadows.moved (h : L.Shadows P s₀ w' w) {v' : Pool R' σ' ι' β} {v : Pool R σ ι α} {p : Proc R' ι' β}
    (hst : L.rel v'.st v.st) (hself : v'.procs.get pid = some p)
    (hplace : ∃ H, Made (P p.call) (s₀ p.call) v pid H ∧
      L.Stands (P p.call) v pid H.length ((P p.call).after (s₀ p.call) H) p.rest)
    (hne : ∀ q, q ≠ pid → v'.procs.get q = w'.procs.get q)
    (hother : ∀ q n, q ≠ pid → v.procs.get (Nat.pair q n) = w.procs.get (Nat.pair q n)) :
    L.Shadows P s₀ v' v where
  st := hst
  calls := by
    intro q p' hp'
    by_cases hq : q = pid
    · subst hq
      rw [hself] at hp'
      cases hp'
      exact hplace
    · rw [hne q hq] at hp'
      obtain ⟨H, hmade, hstands⟩ := h.calls q p' hp'
      exact ⟨H, hmade.congr fun n => hother q n hq, hstands.congr fun n => hother q n hq⟩
  free := by
    intro q hnone
    have hq : q ≠ pid := by
      rintro rfl
      rw [hself] at hnone
      cases hnone
    rw [hne q hq] at hnone
    exact (h.free q hnone).congr fun n => hother q n hq

/-- **A step of a call** of `N` is silent, or is a step of the call of `M` it is in. -/
theorem Shadows.advance (hok : ∀ y s x, (P y).may s x → calls x) (h : L.Shadows P s₀ w' w)
    (hrely : w'.Relies N L.rely L.ok') {i : In'} {p : Proc R' ι' β} {c : C'} {k : R' c → Prog R' β} (hp : w'.procs.get pid = some p) (hr : p.rest = .await c k)
    (hi : L.ok' i w'.st c) :
    ∃ ls, M.Along (Proper calls L.ok) w ls ∧ L.Shadows P s₀ (N.advance w' pid i p c k) (M.run w ls) := by
  obtain ⟨H, hmade, hstands⟩ := h.calls pid p hp
  have hne : ∀ q, q ≠ pid → (N.advance w' pid i p c k).procs.get q = w'.procs.get q := fun q hq =>
    Machine.get_advance_ne hq
  rw [hr] at hstands
  generalize hrest : (Prog.await c k : Prog R' β) = rest at hstands
  cases hstands with
  | done b h hfree => cases hrest
  | waits c k hinert hk hfree =>
    cases hrest
    obtain ⟨ls, hadmits, hst, hother, hplace⟩ := settle calls (hok p.call)
      (hk _ (hrely pid p c k hp hr i hi)) hmade rfl hfree
    exact ⟨ls, hadmits, h.moved (hst _ (hinert i _ _ h.st)) Machine.get_advance_self hplace hne hother⟩
  | calling x hist c₀ k₀ k' hx hget hk hfree =>
    cases hrest
    obtain ⟨j, hj, hrel, hans⟩ := L.exec i w'.st w.st c₀ h.st hi
    set r := (M.exec j w.st c₀).2 with hrdef
    set v := M.advance w (Nat.pair pid H.length) j ⟨x, hist, .await c₀ k₀⟩ c₀ k₀ with hv
    have hstep : M.step w (.step (Nat.pair pid H.length) j) = v := by rw [Machine.step, hget]
    have hself : v.procs.get (Nat.pair pid H.length) = some ⟨x, hist ++ [⟨c₀, r⟩], k₀ r⟩ := Machine.get_advance_self
    have hvne : ∀ {q}, q ≠ Nat.pair pid H.length → v.procs.get q = w.procs.get q := fun hq =>
      Machine.get_advance_ne hq
    have hvst : L.rel (N.exec i w'.st (L.cmd c₀)).1 v.st := hrel
    have hother : ∀ q n, q ≠ pid → v.procs.get (Nat.pair q n) = w.procs.get (Nat.pair q n) := fun q n hq =>
      hvne (pair_ne hq).symm
    have hmade' : Made (P p.call) (s₀ p.call) v pid H := by
      refine ⟨fun n e he => ?_, hmade.allowed⟩
      have hlt : n < H.length := (List.getElem?_eq_some_iff.1 he).1
      rw [hvne fun he => by have := (Nat.pair_eq_pair.1 he).2; omega]
      exact hmade.answered n e he
    have hfree' : FreeFrom v pid (H.length + 1) := by
      intro m hm
      rw [hvne fun he => by have := (Nat.pair_eq_pair.1 he).2; omega]
      exact hfree m hm
    have hallowed : Proper calls L.ok w (.step (Nat.pair pid H.length) j : Ev In Env ι) := by
      intro p' hp' c' hc'
      rw [hget] at hp'
      cases hp'
      cases hc'
      exact hj
    cases hk₀ : k₀ r with
    | ret a =>
      -- the call of `M` has returned, and the call of `N` goes on
      rw [hk₀] at hself
      have hH : (P p.call).after (s₀ p.call) (H ++ [⟨x, a⟩]) =
          (P p.call).next ((P p.call).after (s₀ p.call) H) x a := Protocol.after_snoc ..
      have hlen : (H ++ [(⟨x, a⟩ : Σ _ : ι, α)]).length = H.length + 1 := by simp
      obtain ⟨ls, hadmits, hst, hother', hplace⟩ := settle calls (hok p.call) (hk a)
        (hmade'.snoc hx hself rfl rfl) hH (by rw [hlen]; exact hfree')
      refine ⟨.step (Nat.pair pid H.length) j :: ls, ?_, h.moved ?_ Machine.get_advance_self ?_ hne ?_⟩
      · refine ⟨hallowed, ?_⟩
        rw [hstep]
        exact hadmits
      · rw [Machine.run_cons, hstep]
        exact hst _ hvst
      · rw [Machine.run_cons, hstep]
        dsimp only
        rw [hans, hk₀]
        exact hplace
      · intro q n hq
        rw [Machine.run_cons, hstep, hother' q n hq, hother q n hq]
    | await c₁ k₁ =>
      rw [hk₀] at hself
      refine ⟨[.step (Nat.pair pid H.length) j], ?_, h.moved ?_ Machine.get_advance_self ?_ hne ?_⟩
      · exact ⟨hallowed, trivial⟩
      · rw [Machine.run_cons, Machine.run_nil, hstep]
        exact hvst
      · rw [Machine.run_cons, Machine.run_nil, hstep]
        refine ⟨H, hmade', ?_⟩
        dsimp only
        rw [hans, hk₀]
        exact .calling x _ c₁ k₁ k' hx hself hk hfree'
      · intro q n hq
        rw [Machine.run_cons, Machine.run_nil, hstep, hother q n hq]

theorem Shadows.begin (hok : ∀ y s x, (P y).may s x → calls x) {y : ι'} (hprog : L.Asks (P y) (s₀ y) (N.prog y))
    (h : L.Shadows P s₀ w' w) (hn : w'.procs.get pid = none) :
    ∃ ls, M.Along (Proper calls L.ok) w ls ∧ L.Shadows P s₀ (N.begin w' pid y) (M.run w ls) := by
  have hmade : Made (P y) (s₀ y) w pid [] := ⟨fun n e he => by simp at he, fun n e he => by simp at he⟩
  obtain ⟨ls, hadmits, hst, hother, hplace⟩ := settle calls (hok y) hprog hmade rfl (h.free pid hn)
  exact ⟨ls, hadmits, h.moved (hst _ (L.enter y _ _ h.st)) (OMap.get_set_self ..) hplace
    (fun q hq => OMap.get_set_ne _ _ (Ne.symm hq)) hother⟩

/-- **One event** of `N`. -/
theorem Shadows.step (hok : ∀ y s x, (P y).may s x → calls x)
    (hprog : ∀ y, calls' y → L.Asks (P y) (s₀ y) (N.prog y)) (h : L.Shadows P s₀ w' w)
    (hrely : w'.Relies N L.rely L.ok') {e : Ev In' Env' ι'} (he : Proper calls' L.ok' w' e) :
    ∃ ls, M.Along (Proper calls L.ok) w ls ∧ L.Shadows P s₀ (N.step w' e) (M.run w ls) := by
  rcases Machine.step_cases (M := N) w' e with ⟨pid, y, rfl, hn, hstep⟩ |
    ⟨pid, i, p, c, k, rfl, hp, hr, hstep⟩ | ⟨v, rfl, hstep⟩ | hstep
  · rw [hstep]
    exact h.begin hok (hprog y he) hn
  · rw [hstep]
    exact h.advance hok hrely hp hr (he p hp c (Proc.pending_of_await hr))
  · rw [hstep]
    rcases L.env v w'.st w.st h.st with hsame | ⟨e', hmove⟩
    · exact ⟨[], trivial, hsame, h.calls, h.free⟩
    · refine ⟨[.env e'], ⟨trivial, trivial⟩, hmove, fun pid p hp => ?_,
        fun pid hnone => (h.free pid hnone).congr fun _ => rfl⟩
      · obtain ⟨H, hmade, hstands⟩ := h.calls pid p hp
        exact ⟨H, hmade.congr fun _ => rfl, hstands.congr fun _ => rfl⟩
  · rw [hstep]
    exact ⟨[], trivial, h⟩

/-- **Every run of `N` contains a run of `M`.** -/
theorem run (hok : ∀ y s x, (P y).may s x → calls x) (hprog : ∀ y, calls' y → L.Asks (P y) (s₀ y) (N.prog y))
    {s : σ'} {t : σ} (hs : L.rel s t) {es : List (Ev In' Env' ι')}
    (hes : N.Along (Proper calls' L.ok') (Pool.init s) es)
    (hrely : ∀ v, v <+: es → (N.run (Pool.init s) v).Relies N L.rely L.ok') :
    ∃ ls, M.Along (Proper calls L.ok) (Pool.init t) ls ∧
      L.Shadows P s₀ (N.run (Pool.init s) es) (M.run (Pool.init t) ls) := by
  induction es using List.reverseRecOn with
  | nil => exact ⟨[], trivial, shadows_init hs⟩
  | append_singleton es e ih =>
    obtain ⟨hinit, hlast, -⟩ := Machine.Along.append.1 hes
    obtain ⟨ls, hadmits, hls⟩ := ih hinit fun v hv => hrely v (hv.trans (List.prefix_append ..))
    obtain ⟨ms, hadmits', hms⟩ := hls.step hok hprog (hrely es (List.prefix_append ..)) hlast
    refine ⟨ls ++ ms, Machine.Along.append.2 ⟨hadmits, hadmits'⟩, ?_⟩
    rw [Machine.run_append, Machine.run_append]
    exact hms

end Run

end Lower

end Below

end NodeToolkit.Async
