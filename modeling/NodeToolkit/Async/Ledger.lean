import NodeToolkit.Async.Rely

/-!
# What has been done

Many invariants say where the state comes from: which answers of which calls it is made of.

* `Pool.Did w x e`: a call `x` of the pool has had the command and the answer `e`.
* `Machine.Books`: a relation between the state and what has been done that every admitted command keeps,
  where a call may use what it has done itself.
* `run_books`: it holds in every run, whatever the interleaving.
-/

namespace NodeToolkit.Async

variable {C : Type} {R : C → Type} {σ In Env ι α : Type}

/-- What has been done, by which calls. -/
abbrev Deeds (R : C → Type) (ι : Type) : Type := ι → (Σ c, R c) → Prop

/-- One deed more. -/
def Deeds.add (D : Deeds R ι) (x : ι) (e : Σ c, R c) : Deeds R ι := fun x' e' => D x' e' ∨ x' = x ∧ e' = e

theorem Deeds.add_self {D : Deeds R ι} {x : ι} {e : Σ c, R c} : D.add x e x e := Or.inr ⟨rfl, rfl⟩

namespace Pool

variable {w : Pool R σ ι α} {x : ι} {e : Σ c, R c}

/-- A call `x` has done `e`. -/
def Did (w : Pool R σ ι α) : Deeds R ι := fun x e => ∃ pid p, w.procs.get pid = some p ∧ p.call = x ∧ e ∈ p.hist

theorem did_init {s : σ} : (init s : Pool R σ ι α).Did = fun _ _ => False := by
  funext x e
  refine propext ⟨?_, False.elim⟩
  rintro ⟨pid, p, hp, -⟩
  cases hp

end Pool

variable {M : Machine R σ In Env ι α} {w : Pool R σ ι α} {pid : ℕ} {p : Proc R ι α}

theorem did_begin (hn : w.procs.get pid = none) (x : ι) : (M.begin w pid x).Did = w.Did := by
  funext y e
  refine propext ⟨?_, ?_⟩
  · rintro ⟨q, p, hp, hcall, he⟩
    rcases Machine.begin_cases hp with ⟨-, rfl⟩ | ⟨-, hp⟩
    · cases he
    · exact ⟨q, p, hp, hcall, he⟩
  · rintro ⟨q, p, hp, hcall, he⟩
    exact ⟨q, p, Machine.begin_stays hn hp, hcall, he⟩

theorem did_advance (hp : w.procs.get pid = some p) (i : In) (c : C) (k : R c → Prog R α) :
    (M.advance w pid i p c k).Did = w.Did.add p.call ⟨c, (M.exec i w.st c).2⟩ := by
  funext y e
  refine propext ⟨?_, ?_⟩
  · rintro ⟨q, p', hp', hcall, he⟩
    rcases Machine.advance_cases hp' with ⟨-, rfl⟩ | ⟨-, hp'⟩
    · rcases List.mem_append.1 he with he | he
      · exact .inl ⟨pid, p, hp, hcall, he⟩
      · exact .inr ⟨hcall.symm, List.mem_singleton.1 he⟩
    · exact .inl ⟨q, p', hp', hcall, he⟩
  · rintro (⟨q, p', hp', hcall, he⟩ | ⟨rfl, rfl⟩)
    · by_cases hq : q = pid
      · subst hq
        have heq : p' = p := Option.some.inj (hp'.symm.trans hp)
        subst heq
        exact ⟨q, _, Machine.get_advance_self, hcall, List.mem_append_left _ he⟩
      · exact ⟨q, p', (Machine.get_advance_ne hq).trans hp', hcall, he⟩
    · exact ⟨pid, _, Machine.get_advance_self, rfl, List.mem_append_right _ (List.mem_singleton_self _)⟩

variable {I : σ → Deeds R ι → Prop} {may : ι → Hist R → C → Prop} {fin : ι → Hist R → α → Prop}
  {calls : ι → Prop} {ok : In → σ → C → Prop}

/-- Every command that a call may execute after its history keeps the books. -/
structure Machine.Books (M : Machine R σ In Env ι α) (I : σ → Deeds R ι → Prop) (may : ι → Hist R → C → Prop)
    (calls : ι → Prop) (ok : In → σ → C → Prop) : Prop where
  exec : ∀ x D H i s c, calls x → I s D → (∀ e ∈ H, D x e) → may x H c → ok i s c →
    I (M.exec i s c).1 (D.add x ⟨c, (M.exec i s c).2⟩)
  enter : ∀ x D s, calls x → I s D → I (M.enter x s) D
  env : ∀ e D s, I s D → I (M.env e s) D

/-- The books are right, and every call keeps to its protocol. -/
structure Pool.Audited (I : σ → Deeds R ι → Prop) (may : ι → Hist R → C → Prop) (fin : ι → Hist R → α → Prop)
    (calls : ι → Prop) (w : Pool R σ ι α) : Prop where
  books : I w.st w.Did
  keeps : w.Keeps may fin
  made : ∀ pid p, w.procs.get pid = some p → calls p.call

theorem audited_init {s : σ} (hs : I s fun _ _ => False) : (Pool.init s : Pool R σ ι α).Audited I may fin calls where
  books := by
    rw [Pool.did_init]
    exact hs
  keeps := Pool.obeys_init _ _ s
  made := fun pid p hp => nomatch hp

/-- **The books are right** in every run. -/
theorem run_books (hM : M.Books I may calls ok) (hprog : ∀ x, calls x → (M.prog x).Follows (.ofHist (may x) (fin x)) [])
    {es : List (Ev In Env ι)} (hw : w.Audited I may fin calls) (hes : M.Along (Proper calls ok) w es) :
    (M.run w es).Audited I may fin calls := by
  refine Machine.run_inv ?_ ?_ ?_ hw hes
  · intro w pid x hw hx hn
    refine ⟨?_, Machine.begin_obeys hw.keeps pid (hprog x hx), Machine.begin_all hw.made hx⟩
    rw [did_begin hn]
    exact hM.enter x _ w.st hx hw.books
  · intro w pid i p c k hw hG hp hr
    refine ⟨?_, Machine.advance_obeys hw.keeps i hp hr, Machine.advance_all hw.made (hw.made pid p hp)⟩
    rw [did_advance hp]
    have hok := hG p hp c (Proc.pending_of_await hr)
    exact hM.exec p.call _ p.hist i w.st c (hw.made pid p hp) hw.books (fun e he => ⟨pid, p, hp, rfl, he⟩)
      (hw.keeps.allowed hp hr) hok
  · intro w e hw _
    exact ⟨hM.env e _ w.st hw.books, hw.keeps, hw.made⟩

end NodeToolkit.Async
