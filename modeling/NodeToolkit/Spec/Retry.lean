import NodeToolkit.Base.Double

/-!
# Retrying

`retry` and the decorator `Retry`. The function to retry is given by the outcomes of its calls, in their
order: the outcome of a call is arbitrary, and so is whether it is known at once or comes with a promise.
-/

namespace NodeToolkit.Retrying

structure Options where
  retries : Option Double
  delay : Option Double

inductive Action where
  | call
  | wait (milliseconds : Double)

/-- What a call of `retry` does, and how its promise settles. -/
structure Run (ε α : Type) where
  actions : List Action
  result : Except ε α

variable {ε α β : Type}

/-- `retry(fn, options)`, after `k` calls of `fn`. It need not come to an end: there is no run then,
whatever the fuel. -/
def retry (fn : ℕ → Except ε α) : ℕ → ℕ → Option Options → Option (Run ε α)
  | 0, _, _ => none
  | fuel + 1, k, options =>
    let options := options.getD ⟨none, none⟩
    let delay := options.delay.getD (.nearest 1000)
    let retries := options.retries.getD (.nearest 3)
    if retries.val.strictEqual (.finite 1) then some ⟨[.call], fn k⟩
    else
      match fn k with
      | .ok a => some ⟨[.call], .ok a⟩
      | .error _ =>
        (retry fn fuel (k + 1) (some ⟨some (retries - .nearest 1), some delay⟩)).map fun run =>
          ⟨.call :: .wait delay :: run.actions, run.result⟩

/-- What a call of a method comes to: it returns, throws, or returns a promise that settles. -/
inductive Invocation (ε α : Type) where
  | returned (a : α)
  | threw (e : ε)
  | promised (outcome : Except ε α)

/-- The arrow function of the decorator: `await` for a promise, the value itself otherwise. -/
def Invocation.settled : Invocation ε α → Except ε α
  | returned a => .ok a
  | threw e => .error e
  | promised outcome => outcome

/-- `descriptor.value` of a method decorated with `Retry(options)`. -/
def Retry (options : Option Options) (originalMethod : β → ℕ → Invocation ε α) (args : β) (fuel : ℕ) :
    Option (Run ε α) :=
  retry (fun k => (originalMethod args k).settled) fuel 0 options

end NodeToolkit.Retrying
