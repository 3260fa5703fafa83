import Mathlib.Data.ENat.Lattice
import Mathlib.Data.List.Induction
import NodeToolkit.Async.Frame
import NodeToolkit.Spec.JobRunner

/-!
# How often a job is attempted

The firings of a job, overlapping in any way. What one has done is its id and the outcomes of its
attempts (`fired`), whatever the others do.

* `Complete`: when a firing is over.
* `follows_runner`: the code of a firing keeps to this, with a loop that has counted the outcomes so far.
* `Bounded`, `attempts_bounded`: the attempts of every firing of every run.
-/

namespace NodeToolkit.JobsScheduler

open Async

/-! ## What a firing has done -/

/-- A call of `job.run` and its outcome. -/
def round (id : String) (r : Except String Unit) : Hist Resp := [⟨.run id, ()⟩, ⟨.settled, r⟩]

/-- A firing with the id `id`, after attempts with the outcomes `rs`. -/
def fired (id : String) (rs : List (Except String Unit)) : Hist Resp :=
  ⟨.randomUUID, id⟩ :: rs.flatMap (round id)

theorem fired_snoc (id : String) (rs : List (Except String Unit)) (r : Except String Unit) :
    fired id (rs ++ [r]) = fired id rs ++ [⟨.run id, ()⟩] ++ [⟨.settled, r⟩] := by
  simp [fired, round]

def Rejected (r : Except String Unit) : Prop := r ≠ .ok ()

/-- The next attempt is due. -/
def Due (retry : ℕ) (rs : List (Except String Unit)) : Prop := (∀ r ∈ rs, Rejected r) ∧ rs.length ≤ retry

/-- **The firing is over**: an attempt has resolved, or all have been rejected. -/
def Complete (retry : ℕ) (rs : List (Except String Unit)) : Prop :=
  (∃ rs', Due retry rs' ∧ rs = rs' ++ [.ok ()]) ∨ (∀ r ∈ rs, Rejected r) ∧ rs.length = retry + 1

/-- What a firing does next. -/
def Allows (retry : ℕ) (h : Hist Resp) : Cmd → Prop
  | .randomUUID => h = []
  | .run id => ∃ rs, h = fired id rs ∧ Due retry rs
  | .settled => ∃ id rs, h = fired id rs ++ [⟨.run id, ()⟩] ∧ Due retry rs

/-- What a firing has done when it returns. -/
def Ends (retry : ℕ) (h : Hist Resp) (a : Except String Unit) : Prop :=
  a = .ok () ∧ ∃ id rs, h = fired id rs ∧ Complete retry rs

/-! ## The code of a firing -/

variable {id : String} {retry : ℕ} {rs : List (Except String Unit)} {α β : Type}

/-- A part of a firing that has done `fin` when it returns. -/
abbrev Follows (retry : ℕ) (p : Client α) (h : Hist Resp) (fin : Hist Resp → α → Prop) : Prop :=
  p.Follows (.ofHist (Allows retry) fin) h

theorem Follows.bind {fin : Hist Resp → α → Prop} {fin' : Hist Resp → β → Prop} {p : Client α}
    {f : α → Client β} {h : Hist Resp} (hp : Follows retry p h fin)
    (hf : ∀ h a, fin h a → Follows retry (f a) h fin') : Follows retry (p >>= f) h fin' :=
  Prog.Follows.bind (P := .ofHist (Allows retry) fin) (Q := .ofHist (Allows retry) fin') rfl rfl hf hp

theorem rejected_snoc {e : String} (h : ∀ r ∈ rs, Rejected r) : ∀ r ∈ rs ++ [.error e], Rejected r := by
  intro r hr
  rcases List.mem_append.1 hr with hr | hr
  · exact h r hr
  · rw [List.mem_singleton.1 hr]
    simp [Rejected]

theorem follows_attempt (hdue : Due retry rs) :
    Follows retry (attempt id) (fired id rs) fun h r => h = fired id (rs ++ [r]) := by
  refine ⟨⟨rs, rfl, hdue⟩, fun _ => ⟨⟨id, rs, rfl, hdue⟩, fun r => ?_⟩⟩
  exact (fired_snoc id rs r).symm

/-- **The loop** makes the attempts that are left, by induction on their number: `failures` counts the
outcomes so far. -/
theorem follows_loop (n : ℕ) : ∀ {rs : List (Except String Unit)}, rs.length + n = retry + 1 →
    (∀ r ∈ rs, Rejected r) → Follows retry (loop id retry rs.length) (fired id rs) fun h _ =>
      ∃ rs', h = fired id rs' ∧ Complete retry rs' := by
  induction n with
  | zero =>
    intro rs hlen hrejected
    rw [loop, if_neg (by omega)]
    exact ⟨rs, rfl, .inr ⟨hrejected, hlen⟩⟩
  | succ n ih =>
    intro rs hlen hrejected
    have hdue : Due retry rs := ⟨hrejected, by omega⟩
    -- the test `failures <= retry` is that an attempt is due
    rw [loop, if_pos hdue.2]
    refine (follows_attempt hdue).bind ?_
    rintro _ r rfl
    cases r with
    | ok _ => exact ⟨_, rfl, .inl ⟨rs, hdue, rfl⟩⟩
    | error e =>
      have hnext := @ih (rs ++ [.error e]) (by simp; omega) (rejected_snoc hrejected)
      rwa [List.length_append] at hnext

/-- The handler makes the attempts after the first. -/
theorem follows_retrying {e : String} :
    Follows retry (retrying id retry) (fired id [.error e]) (Ends retry) := by
  have hrejected : ∀ r ∈ [Except.error e], Rejected r := by simp [Rejected]
  unfold retrying
  split
  · rename_i hzero
    exact ⟨rfl, id, _, rfl, .inr ⟨hrejected, by simp [hzero]⟩⟩
  · have hloop := @follows_loop id retry retry [.error e] (by simp; omega) hrejected
    refine hloop.bind ?_
    rintro _ _ ⟨rs', rfl, hcomplete⟩
    exact ⟨rfl, id, rs', rfl, hcomplete⟩

/-- **The code of a firing.** -/
theorem follows_runner (config : Option JobConfig) :
    Follows (configuredRetry config) (runner config) [] (Ends (configuredRetry config)) := by
  refine ⟨rfl, fun id => ?_⟩
  have hfirst : Due (configuredRetry config) [] := ⟨by simp, by simp⟩
  have hhandled : Follows (configuredRetry config)
      (catching (attempt id) (retrying id (configuredRetry config))) (fired id []) (Ends (configuredRetry config)) := by
    refine (follows_attempt hfirst).bind ?_
    rintro _ r rfl
    cases r with
    | ok _ => exact ⟨rfl, id, _, rfl, .inl ⟨[], hfirst, rfl⟩⟩
    | error e => exact follows_retrying
  refine hhandled.bind ?_
  rintro _ _ ⟨rfl, hends⟩
  exact ⟨rfl, hends⟩

/-! ## The statement -/

abbrev Firing : Type := Proc Resp (Option JobConfig) (Except String Unit)

abbrev Step : Type := Ev Choice Empty (Option JobConfig)

/-- The firings after the events `es`. -/
def firings (es : List Step) : Pool Resp Unit (Option JobConfig) (Except String Unit) :=
  jobMachine.run (Pool.init ()) es

def callOf : (Σ c : Cmd, Resp c) → Option String
  | ⟨.run id, _⟩ => some id
  | ⟨.randomUUID, _⟩ => none
  | ⟨.settled, _⟩ => none

def outcomeOf : (Σ c : Cmd, Resp c) → Option (Except String Unit)
  | ⟨.settled, r⟩ => some r
  | ⟨.randomUUID, _⟩ => none
  | ⟨.run _, _⟩ => none

/-- The correlation ids of the calls of `job.run`. -/
def calls (h : Hist Resp) : List String := h.filterMap callOf

def outcomes (h : Hist Resp) : List (Except String Unit) := h.filterMap outcomeOf

/-- Each call waits for the outcomes of those before it. -/
def InTurn (h : Hist Resp) : Prop :=
  ∀ before id after, h = before ++ ⟨.run id, ()⟩ :: after → (outcomes before).length = (calls before).length

/-- The number of the first attempt that resolves, counted from 1. -/
noncomputable def firstResolved (pattern : ℕ → Except String Unit) : ℕ∞ :=
  ⨅ k ∈ {k | pattern k = .ok ()}, ((k + 1 : ℕ) : ℕ∞)

/-- **What is asked of a firing**, in flight or over. -/
structure Bounded (p : Firing) : Prop where
  same_id : ∀ id ∈ calls p.hist, ∀ id' ∈ calls p.hist, id = id'
  in_turn : InTurn p.hist
  at_most : ∀ pattern : ℕ → Except String Unit, (∀ k r, (outcomes p.hist)[k]? = some r → pattern k = r) →
    ((calls p.hist).length : ℕ∞) ≤ min (firstResolved pattern) (1 + configuredRetry p.call : ℕ)
  exactly : ¬ p.Running → ∀ pattern : ℕ → Except String Unit,
    (∀ k r, (outcomes p.hist)[k]? = some r → pattern k = r) →
      ((calls p.hist).length : ℕ∞) = min (firstResolved pattern) (1 + configuredRetry p.call : ℕ)
  contained : ¬ p.Running → p.result = some (.ok ())

theorem calls_fired : calls (fired id rs) = List.replicate rs.length id := by
  induction rs with
  | nil => rfl
  | cons r rs ih =>
    rw [List.length_cons, List.replicate_succ, ← ih]
    rfl

theorem outcomes_fired : outcomes (fired id rs) = rs := by
  induction rs with
  | nil => rfl
  | cons r rs ih =>
    have hrest : outcomes (fired id (r :: rs)) = r :: outcomes (fired id rs) := rfl
    rw [hrest, ih]

/-! ## One after the other -/

theorem InTurn.snoc {h : Hist Resp} {e : Σ c : Cmd, Resp c} (hturn : InTurn h)
    (he : ∀ id, e = ⟨.run id, ()⟩ → (outcomes h).length = (calls h).length) : InTurn (h ++ [e]) := by
  intro before id after heq
  rcases List.eq_nil_or_concat after with rfl | ⟨after', e', rfl⟩
  · obtain ⟨rfl, hlast⟩ := List.append_inj' heq rfl
    exact he id (List.singleton_inj.1 hlast)
  · rw [List.concat_eq_append, ← List.cons_append, ← List.append_assoc] at heq
    obtain ⟨heq, -⟩ := List.append_inj' heq rfl
    exact hturn before id after' heq

theorem inTurn_nil : InTurn [] := by
  intro before id after h
  simp at h

theorem inTurn_run (hturn : InTurn (fired id rs)) : InTurn (fired id rs ++ [⟨.run id, ()⟩]) :=
  hturn.snoc fun _ _ => by rw [outcomes_fired, calls_fired, List.length_replicate]

theorem inTurn_fired : InTurn (fired id rs) := by
  induction rs using List.reverseRecOn with
  | nil =>
    refine inTurn_nil.snoc fun id' h => ?_
    cases h
  | append_singleton rs r ih =>
    rw [fired_snoc]
    refine (inTurn_run ih).snoc fun id' h => ?_
    cases h

/-! ## The number of attempts -/

section Pattern

variable {pattern : ℕ → Except String Unit}

theorem le_firstResolved {n : ℕ} (h : ∀ k, k + 1 < n → pattern k ≠ .ok ()) : (n : ℕ∞) ≤ firstResolved pattern := by
  refine le_iInf₂ fun k hk => ?_
  by_contra hlt
  exact h k (by exact_mod_cast not_le.1 hlt) hk

theorem firstResolved_le {k : ℕ} (h : pattern k = .ok ()) : firstResolved pattern ≤ (k + 1 : ℕ) := iInf₂_le k h

variable (hpattern : ∀ k r, rs[k]? = some r → pattern k = r)

include hpattern

/-- Rejections only: none of these attempts has resolved. -/
theorem lt_firstResolved (hrejected : ∀ r ∈ rs, Rejected r) : ((rs.length + 1 : ℕ) : ℕ∞) ≤ firstResolved pattern := by
  refine le_firstResolved fun k hk => ?_
  have hlt : k < rs.length := by omega
  rw [hpattern k _ (List.getElem?_eq_getElem hlt)]
  exact hrejected _ (List.getElem_mem hlt)

/-- As long as an attempt is due, there is room for it. -/
theorem Due.le (hdue : Due retry rs) : ((rs.length + 1 : ℕ) : ℕ∞) ≤ min (firstResolved pattern) (1 + retry : ℕ) := by
  have hlen := hdue.2
  refine le_min (lt_firstResolved hpattern hdue.1) ?_
  exact_mod_cast (by omega : rs.length + 1 ≤ 1 + retry)

/-- **A firing that is over** has made the right number of attempts. -/
theorem Complete.eq (hcomplete : Complete retry rs) :
    (rs.length : ℕ∞) = min (firstResolved pattern) (1 + retry : ℕ) := by
  rcases hcomplete with ⟨rs', hdue, rfl⟩ | ⟨hrejected, hlen⟩
  · have hfit : ∀ k r, rs'[k]? = some r → pattern k = r := by
      intro k r hk
      obtain ⟨hlt, -⟩ := List.getElem?_eq_some_iff.1 hk
      exact hpattern k r (by rw [List.getElem?_append_left hlt, hk])
    -- the last attempt is the first that resolves
    have hresolved : pattern rs'.length = .ok () := hpattern _ _ (by simp)
    have hle := hdue.le hfit
    rw [List.length_append, List.length_singleton]
    exact le_antisymm hle (min_le_of_left_le (firstResolved_le hresolved))
  · have hall := lt_firstResolved hpattern hrejected
    rw [hlen, add_comm 1 retry]
    refine (min_eq_right ?_).symm
    refine le_trans ?_ hall
    exact_mod_cast (by omega : retry + 1 ≤ rs.length + 1)

end Pattern

/-! ## Every firing of every run -/

theorem keeps_firings (es : List Step) : (firings es).Keeps (fun config => Allows (configuredRetry config))
    fun config => Ends (configuredRetry config) :=
  Machine.run_obeys follows_runner (Pool.obeys_init _ _ _) es

section Firing

variable {p : Firing}

/-- A firing in flight: the attempts so far have been rejected, and a next one is due or under way. -/
theorem bounded_running (hrun : p.Running) (hdue : Due (configuredRetry p.call) rs)
    (hhist : p.hist = fired id rs ∨ p.hist = fired id rs ++ [⟨.run id, ()⟩]) : Bounded p := by
  have hcalls : ∃ n, n ≤ rs.length + 1 ∧ calls p.hist = List.replicate n id := by
    rcases hhist with h | h
    · exact ⟨rs.length, by omega, by rw [h, calls_fired]⟩
    · refine ⟨rs.length + 1, le_rfl, ?_⟩
      rw [h, calls, List.filterMap_append, List.replicate_succ', ← calls_fired]
      rfl
  have houtcomes : outcomes p.hist = rs := by
    rcases hhist with h | h
    · rw [h, outcomes_fired]
    · rw [h, outcomes, List.filterMap_append]
      exact (List.append_nil _).trans outcomes_fired
  obtain ⟨n, hle, hcalls⟩ := hcalls
  refine ⟨?_, ?_, ?_, fun h => absurd hrun h, fun h => absurd hrun h⟩
  · intro id₁ h₁ id₂ h₂
    rw [hcalls] at h₁ h₂
    rw [List.eq_of_mem_replicate h₁, List.eq_of_mem_replicate h₂]
  · rcases hhist with h | h
    · rw [h]
      exact inTurn_fired
    · rw [h]
      exact inTurn_run inTurn_fired
  · intro pattern hpattern
    rw [houtcomes] at hpattern
    rw [hcalls, List.length_replicate]
    refine le_trans ?_ (hdue.le hpattern)
    exact_mod_cast hle

/-- A firing that is over. -/
theorem bounded_ended {a : Except String Unit} (ha : p.result = some a)
    (hends : Ends (configuredRetry p.call) p.hist a) : Bounded p := by
  obtain ⟨rfl, id, rs, hhist, hcomplete⟩ := hends
  have hexact : ∀ pattern : ℕ → Except String Unit, (∀ k r, (outcomes p.hist)[k]? = some r → pattern k = r) →
      ((calls p.hist).length : ℕ∞) = min (firstResolved pattern) (1 + configuredRetry p.call : ℕ) := by
    intro pattern hpattern
    rw [hhist, outcomes_fired] at hpattern
    rw [hhist, calls_fired, List.length_replicate]
    exact hcomplete.eq hpattern
  refine ⟨?_, ?_, fun pattern hpattern => (hexact pattern hpattern).le, fun _ => hexact, fun _ => ha⟩
  · intro id₁ h₁ id₂ h₂
    rw [hhist, calls_fired] at h₁ h₂
    rw [List.eq_of_mem_replicate h₁, List.eq_of_mem_replicate h₂]
  · rw [hhist]
    exact inTurn_fired

/-- A firing that has not got its id yet. -/
theorem bounded_begun (hrun : p.Running) (hhist : p.hist = []) : Bounded p := by
  refine ⟨?_, ?_, ?_, fun h => absurd hrun h, fun h => absurd hrun h⟩
  · rw [hhist]
    intro id₁ h₁
    cases h₁
  · rw [hhist]
    exact inTurn_nil
  · intro pattern _
    rw [hhist]
    exact zero_le

end Firing

/-- A firing takes at most this many commands. -/
def commands (retry : ℕ) : ℕ := 1 + 2 * (1 + retry)

theorem length_fired : (fired id rs).length = 1 + 2 * rs.length := by
  induction rs with
  | nil => rfl
  | cons r rs ih =>
    have hcons : (fired id (r :: rs)).length = (fired id rs).length + 2 := rfl
    rw [hcons, ih, List.length_cons]
    omega

/-- **Every firing of every run.** -/
theorem firing_bounded {es : List Step} {pid : ℕ} {p : Firing} (hp : (firings es).procs.get pid = some p) :
    Bounded p ∧ (p.Running → p.hist.length < commands (configuredRetry p.call)) := by
  have hkeeps := keeps_firings es
  cases hr : p.rest with
  | ret a =>
    have ha : p.result = some a := Proc.result_eq_some.2 hr
    exact ⟨bounded_ended ha (hkeeps.returned hp ha), fun hrun => absurd hrun (Proc.not_running_of_ret hr)⟩
  | await c k =>
    have hrun : p.Running := Proc.running_of_await hr
    have hallowed := hkeeps.allowed hp hr
    cases c with
    | randomUUID =>
      refine ⟨bounded_begun hrun hallowed, fun _ => ?_⟩
      have hnil : p.hist = [] := hallowed
      rw [hnil, List.length_nil, commands]
      omega
    | run id =>
      obtain ⟨rs, hhist, hdue⟩ := hallowed
      have hlen := hdue.2
      refine ⟨bounded_running hrun hdue (.inl hhist), fun _ => ?_⟩
      rw [hhist, length_fired, commands]
      omega
    | settled =>
      obtain ⟨id, rs, hhist, hdue⟩ := hallowed
      have hlen := hdue.2
      refine ⟨bounded_running hrun hdue (.inr hhist), fun _ => ?_⟩
      rw [hhist, List.length_append, length_fired, List.length_singleton, commands]
      omega

/-- **Attempts are bounded and contained**, and a firing depends on nothing but what itself is given: every
firing of every run makes the right number of attempts, comes to an end with its promises, and is the same
in every run that has the same events of it. -/
theorem attempts_bounded (es : List Step) (pid : ℕ) :
    (∀ p, (firings es).procs.get pid = some p → Bounded p ∧ ∀ es' : List Step,
      commands (configuredRetry p.call) ≤ es'.countP (Ev.moves pid) →
        ∃ p', (firings (es ++ es')).procs.get pid = some p' ∧ ¬ p'.Running) ∧
      ∀ es' : List Step, (es.filter fun e => e.ofProc (· == pid)) = es'.filter (fun e => e.ofProc (· == pid)) →
        (firings es).procs.get pid = (firings es').procs.get pid := by
  refine ⟨fun p hp => ⟨(firing_bounded hp).1, fun es' hes' => ?_⟩, fun es' hown => ?_⟩
  · have hmore : firings (es ++ es') = jobMachine.run (firings es) es' := Machine.run_append _ _ _ _
    have hbound : ∀ p', (jobMachine.run (firings es) es').procs.get pid = some p' → p'.call = p.call →
        p'.Running → p'.hist.length < commands (configuredRetry p.call) := by
      intro p' hp' hcall hrun
      rw [← hmore] at hp'
      rw [← hcall]
      exact (firing_bounded hp').2 hrun
    obtain ⟨p', hp', -, hret⟩ := run_returns hp hbound hes'
    rw [hmore]
    exact ⟨p', hp', hret⟩
  · have hanswers : ∀ (i : Choice) (s s' : Unit) (c : Cmd), (jobMachine.exec i s c).2 = (jobMachine.exec i s' c).2 :=
      fun _ _ _ _ => rfl
    -- both runs do to this firing what its own events do alone
    have halone : ∀ es : List Step, (firings es).procs.get pid =
        (firings (es.filter fun e => e.ofProc (· == pid))).procs.get pid :=
      fun es => Machine.run_own hanswers rfl
    rw [halone es, halone es', hown]

/-- Two firings overlap: the first attempt of the first one is rejected, its second one resolves. -/
def overlapping : List Step :=
  [.call 1 (some ⟨some 1⟩), .step 1 ⟨"a", .ok ()⟩, .call 2 none, .step 1 ⟨"", .ok ()⟩, .step 2 ⟨"b", .ok ()⟩,
    .step 1 ⟨"", .error "e"⟩, .step 2 ⟨"", .ok ()⟩, .step 1 ⟨"", .ok ()⟩, .step 2 ⟨"", .error "e"⟩,
    .step 1 ⟨"", .ok ()⟩]

theorem attempts_overlapping : ∃ p, (firings overlapping).procs.get 1 = some p ∧ Bounded p ∧
    calls p.hist = ["a", "a"] ∧ p.result = some (.ok ()) := by
  have hp : (firings overlapping).procs.get 1 = some
      ⟨some ⟨some 1⟩, fired "a" [.error "e", .ok ()], .ret (.ok ())⟩ := by
    simp [firings, overlapping, Machine.run, Machine.step, Machine.begin, Machine.advance, jobMachine, exec, Pool.init,
      OMap.get_set, runner, catching, attempt, retrying, loop, configuredRetry, fired, round]
  exact ⟨_, hp, ((attempts_bounded overlapping 1).1 _ hp).1, rfl, rfl⟩

end NodeToolkit.JobsScheduler
