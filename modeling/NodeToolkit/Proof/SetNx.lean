import NodeToolkit.Proof.InMemoryCache

/-!
# The winner of `setNx`

Any number of `setNx` calls on one key of the cache in memory. Each reads the key, and writes it
after an await if it has read nothing that counts as true.

* `Contest`: what the calls are, and that no entry expires between them.
* `Undivided`: no call reads while another one has read and has not yet written.
* `setNx_one_winner`: then one call returns `true`, all others `false`, and its value is read
  afterwards. Without it two calls can win (`setNx_two_winners`).
-/

namespace NodeToolkit

open Async InMemoryCache

variable {V : Type} [JsValue V] {key : String} {t₀ : ℕ}

/-- The cache with the calls made so far. -/
abbrev CachePool (V : Type) : Type := Pool (@Resp V) (Store V) (CacheCall V) (CacheReply V)

/-- How far a `setNx` has come. -/
inductive Turn (key : String) (value : V) (ttl : Option ℚ) : Client V (CacheReply V) → Prop where
  | reading : Turn key value ttl (InMemoryCache.prog (.setNx key value ttl))
  | writing : Turn key value ttl (.await (.set key value ttl) fun _ => .ret (.ok true))
  | won : Turn key value ttl (.ret (.ok true))
  | lost : Turn key value ttl (.ret (.ok false))

/-- The call is about to read. -/
def reads (p : Proc (@Resp V) (CacheCall V) (CacheReply V)) : Bool :=
  match p.rest with
  | .await (.get _) _ => true
  | _ => false

/-- The call is about to write. -/
def writes (p : Proc (@Resp V) (CacheCall V) (CacheReply V)) : Bool :=
  match p.rest with
  | .await (.set _ _ _) _ => true
  | _ => false

/-- The call has returned `true`. -/
def won (p : Proc (@Resp V) (CacheCall V) (CacheReply V)) : Bool :=
  match p.rest with
  | .ret (.ok b) => b
  | _ => false

/-- **The contest**: only `setNx` is called, on one key and with values that count as true; the clock does
not go behind `t₀`; and once a call has won, its entry does not expire. -/
def Contest (key : String) (t₀ : ℕ) (w : CachePool V) : Ev ℕ Empty (CacheCall V) → Prop
  | .call _ (.setNx key' value _) => key' = key ∧ JsValue.truthy value = true
  | .call _ _ => False
  | .step _ now => t₀ ≤ now ∧ ((∃ e ∈ w.procs.entries, won e.2 = true) →
      ∀ entry ∈ w.st.get key, expired now entry = false)
  | .env _ => True

/-- **No call reads while another one is about to write.** -/
def Undivided (w : CachePool V) : Ev ℕ Empty (CacheCall V) → Prop
  | .step pid _ => ∀ p ∈ w.procs.get pid, reads p = true → ∀ e ∈ w.procs.entries, writes e.2 = false
  | _ => True

/-- The key is absent, or its entry has expired. -/
def Vacant (key : String) (t₀ : ℕ) (s : Store V) : Prop := ∀ entry ∈ s.get key, expired t₀ entry = true

/-- **What every run keeps**: at most one call is about to write or has won; until one has won, the key
is vacant and none has lost; afterwards it has the value of the winner. -/
structure Fair (key : String) (t₀ : ℕ) (w : CachePool V) : Prop where
  turns : ∀ q p, w.procs.get q = some p → ∃ value ttl, p.call = .setNx key value ttl ∧
    JsValue.truthy value = true ∧ Turn key value ttl p.rest
  single : ∀ q q' p p', w.procs.get q = some p → w.procs.get q' = some p' → (writes p || won p) = true →
    (writes p' || won p') = true → q = q'
  vacant : (∀ q p, w.procs.get q = some p → won p = false) → Vacant key t₀ w.st ∧
    ∀ q p, w.procs.get q = some p → p.result ≠ some (.ok false)
  held : ∀ q p value ttl, w.procs.get q = some p → p.call = .setNx key value ttl → won p = true →
    ∃ createdAt, w.st.get key = some ⟨value, createdAt, ttl⟩

theorem fair_init {s : Store V} (hs : Vacant key t₀ s) : Fair key t₀ (Pool.init s : CachePool V) where
  turns := fun _ _ h => by simp [Pool.init] at h
  single := fun _ _ _ _ h => by simp [Pool.init] at h
  vacant := fun _ => ⟨hs, fun _ _ h => by simp [Pool.init] at h⟩
  held := fun _ _ _ _ h => by simp [Pool.init] at h

section Step

variable {w : CachePool V} {pid now : ℕ} {x : CacheCall V} {p : Proc (@Resp V) (CacheCall V) (CacheReply V)}
  {value : V} {ttl : Option ℚ}

theorem reads_setNx (key : String) (value : V) (ttl : Option ℚ) (hist : Hist (@Resp V)) :
    reads ⟨.setNx key value ttl, hist, InMemoryCache.prog (.setNx key value ttl)⟩ = true ∧
    writes ⟨.setNx key value ttl, hist, InMemoryCache.prog (.setNx key value ttl)⟩ = false ∧
    won ⟨.setNx key value ttl, hist, InMemoryCache.prog (.setNx key value ttl)⟩ = false := by
  simp only [reads, writes, won, prog_setNx, and_self]

theorem Fair.begin (hF : Fair key t₀ w) (hx : Contest key t₀ w (.call pid x)) (hn : w.procs.get pid = none) :
    Fair key t₀ ((machine V).begin w pid x) := by
  cases x with
  | setNx key' value ttl =>
    obtain ⟨rfl, htruthy⟩ := hx
    obtain ⟨-, hwrites, hwon⟩ := reads_setNx key' value ttl []
    have hidle : (writes (⟨.setNx key' value ttl, [], (machine V).prog (.setNx key' value ttl)⟩ :
        Proc (@Resp V) (CacheCall V) (CacheReply V)) || won ⟨.setNx key' value ttl, [],
          (machine V).prog (.setNx key' value ttl)⟩) = false := by
      rw [Bool.or_eq_false_iff]
      exact ⟨hwrites, hwon⟩
    refine ⟨fun q p hq => ?_, fun q q' p p' hq hq' hact hact' => ?_, fun hnone => ?_, fun q p v t hq hcall hw => ?_⟩
    · rcases Machine.begin_cases hq with ⟨-, rfl⟩ | ⟨-, hq⟩
      · exact ⟨value, ttl, rfl, htruthy, .reading⟩
      · exact hF.turns q p hq
    · rcases Machine.begin_cases hq with ⟨-, rfl⟩ | ⟨-, hq⟩
      · rw [hidle] at hact
        exact absurd hact Bool.false_ne_true
      rcases Machine.begin_cases hq' with ⟨-, rfl⟩ | ⟨-, hq'⟩
      · rw [hidle] at hact'
        exact absurd hact' Bool.false_ne_true
      exact hF.single q q' p p' hq hq' hact hact'
    · have hold : ∀ q p, w.procs.get q = some p → won p = false := by
        intro q p hq
        exact hnone q p (Machine.begin_stays hn hq)
      obtain ⟨hvacant, hlost⟩ := hF.vacant hold
      refine ⟨hvacant, fun q p hq => ?_⟩
      rcases Machine.begin_cases hq with ⟨-, rfl⟩ | ⟨-, hq⟩
      · have hrunning : (⟨.setNx key' value ttl, [], (machine V).prog (.setNx key' value ttl)⟩ :
            Proc (@Resp V) (CacheCall V) (CacheReply V)).Running :=
          Proc.running_of_await (prog_setNx key' value ttl)
        rw [hrunning]
        simp
      · exact hlost q p hq
    · rcases Machine.begin_cases hq with ⟨-, rfl⟩ | ⟨-, hq⟩
      · exact absurd (hw.symm.trans hwon) (by decide)
      · exact hF.held q p v t hq hcall hw
  | get key' => exact hx.elim
  | set key' value ttl => exact hx.elim
  | invalidate key' => exact hx.elim
  | clear => exact hx.elim

/-- What the read of a call makes of it. -/
def afterGet (key : String) (value : V) (ttl : Option ℚ) (entry : V) : Client V (CacheReply V) :=
  if JsValue.truthy entry then .ret (.ok false) else .await (.set key value ttl) fun _ => .ret (.ok true)

/-- **A read** keeps the invariant if no other call is about to write. -/
theorem Fair.read (hF : Fair key t₀ w) (hset : Contest key t₀ w (.step pid now)) (hun : Undivided w (.step pid now))
    (hp : w.procs.get pid = some p) (hcall : p.call = .setNx key value ttl) (htruthy : JsValue.truthy value = true)
    (hrest : p.rest = .await (.get key) (afterGet key value ttl)) :
    Fair key t₀ ((machine V).advance w pid now p (.get key) (afterGet key value ttl)) := by
  obtain ⟨hnow, hlive⟩ := hset
  have hreads : reads p = true := by simp only [reads, hrest]
  have hwrites : ∀ q p', w.procs.get q = some p' → writes p' = false := fun q p' hq =>
    hun p hp hreads (q, p') (OMap.get_eq_some.1 hq)
  have hidle : writes p = false ∧ won p = false := by
    simp only [writes, won, hrest, and_self]
  by_cases hwinner : ∃ q p', w.procs.get q = some p' ∧ won p' = true
  · -- the call finds the value of the winner, and loses
    obtain ⟨q₀, p₀, hq₀, hwon₀⟩ := hwinner
    obtain ⟨value₀, ttl₀, hcall₀, htruthy₀, -⟩ := hF.turns q₀ p₀ hq₀
    obtain ⟨createdAt, hentry⟩ := hF.held q₀ p₀ value₀ ttl₀ hq₀ hcall₀ hwon₀
    have hexp := hlive ⟨(q₀, p₀), OMap.get_eq_some.1 hq₀, hwon₀⟩ _ hentry
    have hexec : (machine V).exec now w.st (.get key) = (w.st, value₀) := by
      show InMemoryCache.exec now w.st (.get key) = _
      rw [exec_get_some hentry, hexp]
      rfl
    have hnext : afterGet key value ttl ((machine V).exec now w.st (.get key)).2 = .ret (.ok false) := by
      rw [hexec, afterGet, if_pos htruthy₀]
    have hst : ((machine V).advance w pid now p (.get key) (afterGet key value ttl)).st = w.st :=
      congrArg Prod.fst hexec
    have hne : pid ≠ q₀ := by
      rintro rfl
      rw [hp] at hq₀
      rw [← Option.some.inj hq₀, hidle.2] at hwon₀
      exact absurd hwon₀ Bool.false_ne_true
    refine ⟨fun q p' hq => ?_, fun q q' p₁ p₂ hq hq' hact hact' => ?_, fun hnone => ?_,
      fun q p' v t hq hcall' hw => ?_⟩
    · rcases Machine.advance_cases hq with ⟨-, rfl⟩ | ⟨-, hq⟩
      · refine ⟨value, ttl, hcall, htruthy, ?_⟩
        dsimp only
        rw [hnext]
        exact .lost
      · exact hF.turns q p' hq
    · rcases Machine.advance_cases hq with ⟨-, rfl⟩ | ⟨-, hq⟩
      · simp [writes, won, hnext] at hact
      rcases Machine.advance_cases hq' with ⟨-, rfl⟩ | ⟨-, hq'⟩
      · simp [writes, won, hnext] at hact'
      exact hF.single q q' p₁ p₂ hq hq' hact hact'
    · have hgone := hnone q₀ p₀ ((OMap.get_set_ne _ _ hne).trans hq₀)
      rw [hwon₀] at hgone
      exact absurd hgone.symm Bool.false_ne_true
    · rw [hst]
      rcases Machine.advance_cases hq with ⟨-, rfl⟩ | ⟨-, hq⟩
      · simp [won, hnext] at hw
      · exact hF.held q p' v t hq hcall' hw
  · -- nothing is there, so the call goes on to write
    have hnone : ∀ q p', w.procs.get q = some p' → won p' = false := by
      intro q p' hq
      by_contra hw
      exact hwinner ⟨q, p', hq, Bool.not_eq_false _ ▸ hw⟩
    obtain ⟨hvacant, hlost⟩ := hF.vacant hnone
    have hreply : ((machine V).exec now w.st (.get key)).2 = JsValue.null := by
      show (InMemoryCache.exec now w.st (.get key)).2 = _
      cases hget : w.st.get key with
      | none => rw [exec_get_none hget]
      | some entry => rw [exec_get_some hget, expired_mono hnow (hvacant entry hget), if_pos rfl]
    have hnext : afterGet key value ttl ((machine V).exec now w.st (.get key)).2 =
        .await (.set key value ttl) fun _ => .ret (.ok true) := by
      rw [hreply, afterGet, JsValue.truthy_null]
      rfl
    have hvacant' : Vacant key t₀ ((machine V).advance w pid now p (.get key) (afterGet key value ttl)).st := by
      intro entry hentry
      rcases get_state now w.st key with hs | ⟨hs, -⟩
      · exact hvacant entry (by rw [← hs]; exact hentry)
      · have hgone : (w.st.erase key).get key = some entry := by rw [← hs]; exact hentry
        rw [OMap.get_erase, if_pos rfl] at hgone
        simp at hgone
    refine ⟨fun q p' hq => ?_, fun q q' p₁ p₂ hq hq' hact hact' => ?_, fun _ => ⟨hvacant', fun q p' hq => ?_⟩,
      fun q p' v t hq hcall' hw => ?_⟩
    · rcases Machine.advance_cases hq with ⟨-, rfl⟩ | ⟨-, hq⟩
      · refine ⟨value, ttl, hcall, htruthy, ?_⟩
        dsimp only
        rw [hnext]
        exact .writing
      · exact hF.turns q p' hq
    · -- only this call is about to write
      have honly : ∀ {q p'}, ((machine V).advance w pid now p (.get key) (afterGet key value ttl)).procs.get q =
          some p' → (writes p' || won p') = true → q = pid := by
        intro q p' hq hact
        rcases Machine.advance_cases hq with ⟨hq, -⟩ | ⟨-, hq⟩
        · exact hq
        · rw [hwrites q p' hq, hnone q p' hq] at hact
          exact absurd hact Bool.false_ne_true
      exact (honly hq hact).trans (honly hq' hact').symm
    · rcases Machine.advance_cases hq with ⟨-, rfl⟩ | ⟨-, hq⟩
      · simp [Proc.result, hnext]
      · exact hlost q p' hq
    · rcases Machine.advance_cases hq with ⟨-, rfl⟩ | ⟨-, hq⟩
      · simp [won, hnext] at hw
      · rw [hnone q p' hq] at hw
        exact absurd hw Bool.false_ne_true

/-- **The write** of the only call that is about to write. -/
theorem Fair.write (hF : Fair key t₀ w) (hp : w.procs.get pid = some p) (hcall : p.call = .setNx key value ttl)
    (htruthy : JsValue.truthy value = true)
    (hrest : p.rest = .await (.set key value ttl) fun _ => .ret (.ok true)) :
    Fair key t₀ ((machine V).advance w pid now p (.set key value ttl) fun _ => .ret (.ok true)) := by
  have hactive : (writes p || won p) = true := by
    simp only [writes, hrest, Bool.true_or]
  have honly : ∀ q p', w.procs.get q = some p' → (writes p' || won p') = true → q = pid :=
    fun q p' hq hact => hF.single q pid p' p hq hp hact hactive
  have hst : ((machine V).advance w pid now p (.set key value ttl) fun _ => .ret (.ok true)).st =
      w.st.set key ⟨value, now, ttl⟩ := rfl
  refine ⟨fun q p' hq => ?_, fun q q' p₁ p₂ hq hq' hact hact' => ?_, fun hnone => ?_,
    fun q p' v t hq hcall' hw => ?_⟩
  · rcases Machine.advance_cases hq with ⟨-, rfl⟩ | ⟨-, hq⟩
    · exact ⟨value, ttl, hcall, htruthy, .won⟩
    · exact hF.turns q p' hq
  · have hpid : ∀ {q p'}, ((machine V).advance w pid now p (.set key value ttl) fun _ => .ret (.ok true)).procs.get q =
        some p' → (writes p' || won p') = true → q = pid := by
      intro q p' hq hact
      rcases Machine.advance_cases hq with ⟨hq, -⟩ | ⟨-, hq⟩
      · exact hq
      · exact honly q p' hq hact
    exact (hpid hq hact).trans (hpid hq' hact').symm
  · have hgone : true = false := hnone pid _ (OMap.get_set_self ..)
    exact absurd hgone.symm Bool.false_ne_true
  · rw [hst]
    rcases Machine.advance_cases hq with ⟨-, rfl⟩ | ⟨hne, hq⟩
    · have hsame : CacheCall.setNx key value ttl = .setNx key v t := hcall.symm.trans hcall'
      injection hsame with _ hv ht
      exact ⟨now, by rw [OMap.get_set_self, hv, ht]⟩
    · have hact : (writes p' || won p') = true := by rw [hw, Bool.or_true]
      exact absurd (honly q p' hq hact) hne

/-- **A command** of a call keeps the invariant. -/
theorem Fair.advance {c : Cmd V} {k : Resp c → Client V (CacheReply V)} (hF : Fair key t₀ w)
    (hset : Contest key t₀ w (.step pid now)) (hun : Undivided w (.step pid now)) (hp : w.procs.get pid = some p)
    (hr : p.rest = .await c k) : Fair key t₀ ((machine V).advance w pid now p c k) := by
  obtain ⟨value, ttl, hcall, htruthy, hturn⟩ := hF.turns pid p hp
  have hread : InMemoryCache.prog (.setNx key value ttl) = .await (.get key) (afterGet key value ttl) :=
    prog_setNx key value ttl
  rw [hr] at hturn
  generalize hrest : (Prog.await c k : Client V (CacheReply V)) = rest at hturn
  rw [hrest] at hr
  cases hturn with
  | reading =>
    rw [hread] at hrest hr
    cases hrest
    exact hF.read hset hun hp hcall htruthy hr
  | writing =>
    cases hrest
    exact hF.write hp hcall htruthy hr
  | won => simp at hrest
  | lost => simp at hrest

end Step

/-! ## Every run -/

section Run

variable {s : Store V} {es : List (Ev ℕ Empty (CacheCall V))}

theorem fair_run (hs : Vacant key t₀ s) (hset : (machine V).Along (Contest key t₀) (Pool.init s) es)
    (hun : (machine V).Along Undivided (Pool.init s) es) : Fair key t₀ ((machine V).run (Pool.init s) es) :=
  Machine.run_inv (fun _ _ _ hF hG hn => hF.begin hG.1 hn)
    (fun _ _ _ _ _ _ hF hG hp hr => hF.advance hG.1 hG.2 hp hr) (fun _ v => v.elim) (fair_init hs)
    (Machine.Along.and hset hun)

/-- **One winner.** In every run of the contest in which no call reads while another one is about to
write: when all calls have returned, one has returned `true`, all others `false`, and a read finds the
value of that one as long as its entry has not expired. -/
theorem setNx_one_winner (key : String) (t₀ : ℕ) (hs : Vacant key t₀ s)
    (hset : (machine V).Along (Contest key t₀) (Pool.init s) es)
    (hun : (machine V).Along Undivided (Pool.init s) es) (hquiet : ((machine V).run (Pool.init s) es).Quiet)
    {q₀ : ℕ} {p₀ : Proc (@Resp V) (CacheCall V) (CacheReply V)}
    (hcalled : ((machine V).run (Pool.init s) es).procs.get q₀ = some p₀) :
    ∃ pid p value ttl createdAt, ((machine V).run (Pool.init s) es).procs.get pid = some p ∧
      p.call = .setNx key value ttl ∧ p.result = some (.ok true) ∧
      (∀ q p', ((machine V).run (Pool.init s) es).procs.get q = some p' → q ≠ pid → p'.result = some (.ok false)) ∧
      ∀ now, expired now ⟨value, createdAt, ttl⟩ = false →
        (InMemoryCache.exec now ((machine V).run (Pool.init s) es).st (.get key)).2 = value := by
  have hF := fair_run hs hset hun
  -- a call that has returned has won or lost
  have hdone : ∀ q p, ((machine V).run (Pool.init s) es).procs.get q = some p →
      p.rest = .ret (.ok true) ∨ p.rest = .ret (.ok false) := by
    intro q p hq
    obtain ⟨value, ttl, -, -, hturn⟩ := hF.turns q p hq
    have hreturned := hquiet q p hq
    generalize hrest : p.rest = rest at hturn
    cases hturn with
    | reading => exact absurd (Proc.running_of_await (hrest.trans (prog_setNx key value ttl))) hreturned
    | writing => exact absurd (Proc.running_of_await hrest) hreturned
    | won => exact Or.inl rfl
    | lost => exact Or.inr rfl
  obtain ⟨pid, p, hp, hwon⟩ : ∃ pid p, ((machine V).run (Pool.init s) es).procs.get pid = some p ∧
      p.rest = .ret (.ok true) := by
    by_contra hno
    have hnone : ∀ q p, ((machine V).run (Pool.init s) es).procs.get q = some p → won p = false := by
      intro q p hq
      rcases hdone q p hq with hrest | hrest
      · exact absurd ⟨q, p, hq, hrest⟩ hno
      · simp only [won, hrest]
    have hlost := (hF.vacant hnone).2 q₀ p₀ hcalled
    rcases hdone q₀ p₀ hcalled with hrest | hrest
    · exact hno ⟨q₀, p₀, hcalled, hrest⟩
    · exact hlost (Proc.result_eq_some.2 hrest)
  have hactive : won p = true := by simp only [won, hwon]
  obtain ⟨value, ttl, hcall, -, -⟩ := hF.turns pid p hp
  obtain ⟨createdAt, hentry⟩ := hF.held pid p value ttl hp hcall hactive
  refine ⟨pid, p, value, ttl, createdAt, hp, hcall, Proc.result_eq_some.2 hwon, fun q p' hq hne => ?_,
    fun now hlive => ?_⟩
  · rcases hdone q p' hq with hrest | hrest
    · have hactive' : won p' = true := by simp only [won, hrest]
      have hsame := hF.single q pid p' p hq hp (by rw [hactive', Bool.or_true]) (by rw [hactive, Bool.or_true])
      exact absurd hsame hne
    · exact Proc.result_eq_some.2 hrest
  · rw [exec_get_some hentry, hlive]
    rfl

instance (w : CachePool V) : ∀ e : Ev ℕ Empty (CacheCall V), Decidable (Contest key t₀ w e)
  | .call _ (.setNx key' value _) => inferInstanceAs (Decidable (key' = key ∧ JsValue.truthy value = true))
  | .call _ (.get _) | .call _ (.set _ _ _) | .call _ (.invalidate _) | .call _ .clear =>
    inferInstanceAs (Decidable False)
  | .step _ now => inferInstanceAs (Decidable (t₀ ≤ now ∧ ((∃ e ∈ w.procs.entries, won e.2 = true) →
      ∀ entry ∈ w.st.get key, expired now entry = false)))
  | .env _ => inferInstanceAs (Decidable True)

instance (w : CachePool V) : ∀ e : Ev ℕ Empty (CacheCall V), Decidable (Undivided w e)
  | .step pid _ => inferInstanceAs (Decidable (∀ p ∈ w.procs.get pid, reads p = true →
      ∀ e ∈ w.procs.entries, writes e.2 = false))
  | .call _ _ => inferInstanceAs (Decidable True)
  | .env _ => inferInstanceAs (Decidable True)

/-- Two calls, of which the second reads after the first has written. -/
def oneAfterAnother : List (Ev ℕ Empty (CacheCall Json)) :=
  [.call 0 (.setNx "lock" (.string "a") (some 10)), .step 0 1, .step 0 2,
    .call 1 (.setNx "lock" (.string "b") (some 10)), .step 1 3]

omit [JsValue V] in
theorem vacant_empty : Vacant key t₀ (OMap.empty : Store V) := fun entry h => by simp at h

theorem contest_oneAfterAnother :
    (machine Json).Along (Contest "lock" 1) (Pool.init .empty) oneAfterAnother := by
  decide +kernel

theorem setNx_one_winner_twoCalls :
    ∃ pid p, ((machine Json).run (Pool.init .empty) oneAfterAnother).procs.get pid = some p ∧
      p.result = some (.ok true) := by
  obtain ⟨pid, p, -, -, -, hp, -, hwon, -⟩ := setNx_one_winner "lock" 1 vacant_empty
    contest_oneAfterAnother (by decide +kernel) (by decide +kernel)
    (show ((machine Json).run (Pool.init .empty) oneAfterAnother).procs.get 0 = some _ from rfl)
  exact ⟨pid, p, hp, hwon⟩

/-- **Two winners**: both calls read before either writes, both return `true`, and the value of the second
one to write is read afterwards. -/
theorem setNx_two_winners :
    let es : List (Ev ℕ Empty (CacheCall Json)) := [.call 0 (.setNx "lock" (.string "a") none), .step 0 1,
      .call 1 (.setNx "lock" (.string "b") none), .step 1 2, .step 0 3, .step 1 4]
    let w := (machine Json).run (Pool.init .empty) es
    (w.procs.get 0).bind Proc.result = some (.ok true) ∧ (w.procs.get 1).bind Proc.result = some (.ok true) ∧
    w.Quiet ∧ (InMemoryCache.exec 5 w.st (.get "lock")).2 = .string "b" :=
  ⟨rfl, rfl, by decide +kernel, rfl⟩

end Run

end NodeToolkit
