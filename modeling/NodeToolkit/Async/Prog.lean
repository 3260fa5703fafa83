import Mathlib.Logic.Basic

/-!
# Async functions, cut at their awaits

`Prog R α` is an async function as the rest of the system sees it: it has
returned (`ret`), or it awaits a command `c` and goes on with the answer, a value
of type `R c` (`await`). Everything between two awaits runs without interruption,
so the commands are the only points where calls can interleave.

* `run`: the function executed alone, against a state that answers commands.
* `Returns`: the function can return a value, with some answers to its commands.
* `Uses`: every command the function can ever issue satisfies a predicate.
* `Follows`: the function keeps to a `Protocol`, a state machine over its own
  commands and answers. It is how facts about the code of one call enter the
  arguments about all calls at once (`Async/Pool.lean`).
-/

namespace NodeToolkit.Async

/-- An async function that returns an `α`, with answers to a command `c` in `R c`. -/
inductive Prog {C : Type} (R : C → Type) (α : Type) where
  | ret (a : α)
  | await (c : C) (k : R c → Prog R α)

variable {C : Type} {R : C → Type} {σ α β S : Type}

namespace Prog

def bind : Prog R α → (α → Prog R β) → Prog R β
  | ret a, f => f a
  | await c k, f => await c fun r => (k r).bind f

instance : Monad (Prog R) where
  pure := ret
  bind := bind

@[simp] theorem pure_eq (a : α) : (pure a : Prog R α) = ret a := rfl

@[simp] theorem ret_bind (a : α) (f : α → Prog R β) : (ret a : Prog R α) >>= f = f a := rfl

@[simp] theorem await_bind (c : C) (k : R c → Prog R α) (f : α → Prog R β) :
    await c k >>= f = await c fun r => k r >>= f := rfl

theorem bind_ret (p : Prog R α) : p >>= ret = p := by
  induction p with
  | ret a => rfl
  | await c k ih => exact congrArg (await c) (funext ih)

/-- Sequencing is associative, so programs are a monad. -/
theorem bind_assoc {γ : Type} (p : Prog R α) (f : α → Prog R β) (g : β → Prog R γ) :
    (p >>= f) >>= g = p >>= fun a => f a >>= g := by
  induction p with
  | ret a => rw [ret_bind, ret_bind]
  | await c k ih =>
    rw [await_bind, await_bind, await_bind]
    exact congrArg (await c) (funext ih)

instance : LawfulMonad (Prog R) := .mk' _ (fun p => bind_ret p) (fun _ _ => rfl) bind_assoc

/-- The function executed alone: every command is answered by `exec` at once. -/
def run (exec : σ → (c : C) → σ × R c) : Prog R α → σ → σ × α
  | ret a, s => (s, a)
  | await c k, s => (k (exec s c).2).run exec (exec s c).1

@[simp] theorem run_ret (exec : σ → (c : C) → σ × R c) (a : α) (s : σ) :
    (ret a : Prog R α).run exec s = (s, a) := rfl

@[simp] theorem run_await (exec : σ → (c : C) → σ × R c) (c : C) (k : R c → Prog R α) (s : σ) :
    (await c k).run exec s = (k (exec s c).2).run exec (exec s c).1 := rfl

/-- Sequencing runs one after the other. -/
theorem run_bind (exec : σ → (c : C) → σ × R c) (p : Prog R α) (f : α → Prog R β) (s : σ) :
    (p >>= f).run exec s = (f (p.run exec s).2).run exec (p.run exec s).1 := by
  induction p generalizing s with
  | ret a => rfl
  | await c k ih => exact ih (exec s c).2 (exec s c).1

/-- `for (const x of xs) await f(x)`. -/
def forEach (f : β → Prog R Unit) : List β → Prog R Unit
  | [] => ret ()
  | x :: xs => f x >>= fun _ => forEach f xs

@[simp] theorem forEach_nil (f : β → Prog R Unit) : forEach f [] = ret () := rfl

@[simp] theorem forEach_cons (f : β → Prog R Unit) (x : β) (xs : List β) :
    forEach f (x :: xs) = f x >>= fun _ => forEach f xs := rfl

/-- With some answers, the function returns the value. -/
def Returns : Prog R α → α → Prop
  | ret a, b => b = a
  | await _ k, b => ∃ r, (k r).Returns b

@[simp] theorem returns_ret {a b : α} : (ret a : Prog R α).Returns b ↔ b = a := Iff.rfl

@[simp] theorem returns_await {c : C} {k : R c → Prog R α} {b : α} :
    (await c k).Returns b ↔ ∃ r, (k r).Returns b := Iff.rfl

/-- What a sequence returns, the second program returns after something that the first returns. -/
theorem returns_bind {p : Prog R α} {f : α → Prog R β} {b : β} :
    (p >>= f).Returns b ↔ ∃ a, p.Returns a ∧ (f a).Returns b := by
  induction p with
  | ret a => simp
  | await c k ih =>
    simp only [await_bind, returns_await, ih]
    exact exists_comm.trans (exists_congr fun a => exists_and_right)

/-- Every command the function can issue satisfies `ok`. -/
def Uses (ok : C → Prop) : Prog R α → Prop
  | ret _ => True
  | await c k => ok c ∧ ∀ r, (k r).Uses ok

/-- A weaker restriction. -/
theorem Uses.mono {ok ok' : C → Prop} (h : ∀ c, ok c → ok' c) :
    ∀ {p : Prog R α}, p.Uses ok → p.Uses ok' := by
  intro p
  induction p with
  | ret a => exact fun _ => trivial
  | await c k ih => exact fun hu => ⟨h c hu.1, fun r => ih r (hu.2 r)⟩

/-- The commands of a sequence are those of its parts. -/
theorem Uses.bind {ok : C → Prop} {f : α → Prog R β} (hf : ∀ a, (f a).Uses ok) :
    ∀ {p : Prog R α}, p.Uses ok → (p >>= f).Uses ok := by
  intro p
  induction p with
  | ret a => exact fun _ => hf a
  | await c k ih => exact fun hu => ⟨hu.1, fun r => ih r (hu.2 r)⟩

/-- A loop uses what its rounds use. -/
theorem Uses.forEach {ok : C → Prop} {f : β → Prog R Unit} {l : List β} (h : ∀ x ∈ l, (f x).Uses ok) :
    (Prog.forEach f l).Uses ok := by
  induction l with
  | nil => trivial
  | cons x l ih =>
    rw [forEach_cons]
    exact Uses.bind (fun _ => ih fun y hy => h y (by simp [hy])) (h x (by simp))

end Prog

/-- What one call may do: `may s c` allows the command `c` in the protocol state
`s`, an answer moves the state on, and `fin s a` allows to return `a`. -/
structure Protocol {C : Type} (R : C → Type) (S α : Type) where
  may : S → C → Prop
  next : S → (c : C) → R c → S
  fin : S → α → Prop

/-- The commands a call has issued, with their answers, oldest first. -/
abbrev Hist {C : Type} (R : C → Type) : Type := List (Σ c : C, R c)

/-- The protocol state a history leads to. -/
def Protocol.after (P : Protocol R S α) (s : S) (h : Hist R) : S :=
  h.foldl (fun s e => P.next s e.1 e.2) s

/-- One answer more. -/
theorem Protocol.after_snoc (P : Protocol R S α) (s : S) (h : Hist R) (c : C) (r : R c) :
    P.after s (h ++ [⟨c, r⟩]) = P.next (P.after s h) c r := by
  simp [Protocol.after]

/-- A protocol whose state is the history itself. -/
def Protocol.ofHist (may : Hist R → C → Prop) (fin : Hist R → α → Prop) : Protocol R (Hist R) α where
  may := may
  next h c r := h ++ [⟨c, r⟩]
  fin := fin

/-- A protocol over histories is in the state of the history itself. -/
theorem Protocol.ofHist_after (may : Hist R → C → Prop) (fin : Hist R → α → Prop) (h : Hist R) :
    (Protocol.ofHist may fin).after [] h = h := by
  have key : ∀ h₀ : Hist R, (Protocol.ofHist may fin).after h₀ h = h₀ ++ h := by
    induction h with
    | nil => intro h₀; simp [Protocol.after]
    | cons e h ih =>
      intro h₀
      have h1 := ih (h₀ ++ [e])
      rw [List.append_assoc, List.singleton_append] at h1
      exact h1
  exact key []

/-- A program keeps to a protocol, whatever the answers. -/
def Prog.Follows (P : Protocol R S α) : S → Prog R α → Prop
  | s, .ret a => P.fin s a
  | s, .await c k => P.may s c ∧ ∀ r, (k r).Follows P (P.next s c r)

@[simp] theorem Prog.follows_ret (P : Protocol R S α) (s : S) (a : α) :
    (Prog.ret a : Prog R α).Follows P s ↔ P.fin s a := Iff.rfl

@[simp] theorem Prog.follows_await (P : Protocol R S α) (s : S) (c : C) (k : R c → Prog R α) :
    (Prog.await c k).Follows P s ↔ P.may s c ∧ ∀ r, (k r).Follows P (P.next s c r) := Iff.rfl

/-- **Sequencing.** To follow a protocol, a program may first follow one with the
same commands, as long as each value it can return leads to a good continuation. -/
theorem Prog.Follows.bind {P : Protocol R S α} {Q : Protocol R S β} (hm : P.may = Q.may)
    (hn : P.next = Q.next) {f : α → Prog R β} (hf : ∀ s a, P.fin s a → (f a).Follows Q s) :
    ∀ {p : Prog R α} {s : S}, p.Follows P s → (p >>= f).Follows Q s := by
  intro p
  induction p with
  | ret a => exact fun h => hf _ a h
  | await c k ih =>
    intro s h
    exact ⟨hm ▸ h.1, fun r => ih r (hn ▸ h.2 r)⟩

end NodeToolkit.Async
