import NodeToolkit.Async.Pool

/-!
# Calls executed alone

Calls made one after another, each running to its end before the next one starts.
What the world chooses is a stream, and every command takes its next element.

* `drive`: a command answered with the next choice of the stream.
* `Machine.alone`: a call from its start to its end; `Machine.series`, `Machine.replies`: several calls.
* `Prog.embed`: an async function over one part of the state as a function over the
  whole state; `Prog.run_embed` says it runs as before and touches nothing else.
-/

namespace NodeToolkit.Async

variable {C C' : Type} {R : C → Type} {R' : C' → Type} {σ σ' In Env ι α β : Type}

/-- Execute a command with the first choice of the stream. -/
def drive (exec : In → σ → (c : C) → σ × R c) (w : σ × (ℕ → In)) (c : C) : (σ × (ℕ → In)) × R c :=
  (((exec (w.2 0) w.1 c).1, fun n => w.2 (n + 1)), (exec (w.2 0) w.1 c).2)

/-- A call executed alone: the state it leaves and what it returns. -/
def Machine.alone (M : Machine R σ In Env ι α) (s : σ) (x : ι) (is : ℕ → In) : σ × α :=
  let r := (M.prog x).run (drive M.exec) (M.enter x s, is)
  (r.1.1, r.2)

/-- Calls one after another, each with the choices made during it. -/
def Machine.series (M : Machine R σ In Env ι α) (s : σ) (xs : List (ι × (ℕ → In))) : σ :=
  xs.foldl (fun s x => (M.alone s x.1 x.2).1) s

namespace Machine

variable {M : Machine R σ In Env ι α}

@[simp] theorem series_nil (s : σ) : M.series s [] = s := rfl

@[simp] theorem series_cons (s : σ) (x : ι × (ℕ → In)) (xs : List (ι × (ℕ → In))) :
    M.series s (x :: xs) = M.series (M.alone s x.1 x.2).1 xs := rfl

theorem series_append (s : σ) (xs ys : List (ι × (ℕ → In))) :
    M.series s (xs ++ ys) = M.series (M.series s xs) ys := List.foldl_append ..

/-- What every call keeps is kept by a series of calls. -/
theorem series_inv {I : σ → Prop} (h : ∀ s x is, I s → I (M.alone s x is).1) {xs : List (ι × (ℕ → In))} :
    ∀ {s : σ}, I s → I (M.series s xs) := by
  induction xs with
  | nil => exact fun hs => hs
  | cons x xs ih => exact fun hs => ih (h _ x.1 x.2 hs)

/-- What the calls of a series return. -/
def replies (M : Machine R σ In Env ι α) (s : σ) : List (ι × (ℕ → In)) → List α
  | [] => []
  | x :: xs => (M.alone s x.1 x.2).2 :: M.replies (M.alone s x.1 x.2).1 xs

@[simp] theorem replies_nil (s : σ) : M.replies s [] = [] := rfl

@[simp] theorem replies_cons (s : σ) (x : ι × (ℕ → In)) (xs : List (ι × (ℕ → In))) :
    M.replies s (x :: xs) = (M.alone s x.1 x.2).2 :: M.replies (M.alone s x.1 x.2).1 xs := rfl

end Machine

namespace Prog

/-- The same function with its commands and answers renamed. -/
def embed (f : C → C') (g : ∀ c, R' (f c) → R c) : Prog R α → Prog R' α
  | ret a => ret a
  | await c k => await (f c) fun r => (k (g c r)).embed f g

variable {f : C → C'} {g : ∀ c, R' (f c) → R c}

@[simp] theorem embed_ret (a : α) : (ret a : Prog R α).embed f g = ret a := rfl

@[simp] theorem embed_await (c : C) (k : R c → Prog R α) :
    (await c k).embed f g = await (f c) fun r => (k (g c r)).embed f g := rfl

/-- **A function over a part of the state**, given how to read and replace that part. -/
theorem run_embed {exec : σ → (c : C) → σ × R c} {exec' : σ' → (c : C') → σ' × R' c} (get : σ' → σ)
    (put : σ' → σ → σ') (hget : ∀ s x, get (put s x) = x) (hput : ∀ s x y, put (put s x) y = put s y)
    (hid : ∀ s, put s (get s) = s) (hst : ∀ s c, (exec' s (f c)).1 = put s (exec (get s) c).1)
    (hans : ∀ s c, g c (exec' s (f c)).2 = (exec (get s) c).2) (p : Prog R α) (s : σ') :
    (p.embed f g).run exec' s = (put s (p.run exec (get s)).1, (p.run exec (get s)).2) := by
  induction p generalizing s with
  | ret a => rw [embed_ret, run_ret, run_ret, hid]
  | await c k ih =>
    rw [embed_await, run_await, run_await, ih, hans, hst, hget, hput]

end Prog

end NodeToolkit.Async
