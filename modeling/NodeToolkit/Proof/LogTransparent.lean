import NodeToolkit.Async.Frame
import NodeToolkit.Proof.LogDecorator

/-!
# Whether logging is transparent

What a decorated method does to its caller, whatever the options. All requests to the logger are in the
`try` block of the method or in its `catch` block, so their errors are taken for errors of the method.

* `Course`: the four ways a call can go.
* `Transparent`: what is asked of a call that has returned.
* `transparent_iff`: a call is transparent if and only if the logger does not interfere: the first request
  goes through, and a later one fails at most with the error of the method itself.
-/

namespace NodeToolkit.LogDecorator

open Async

variable {context : String} {options : Options} {args : List Argument}

/-- The run of the method, from its answer. -/
def methodRun : (Σ c : Cmd, Resp c) → Option (List Argument × Except Thrown Returned)
  | ⟨.start _, _⟩ => none
  | ⟨.method args, answer⟩ => some (args, answer.outcome)
  | ⟨.log _, _⟩ => none

/-- **What is asked of a call**: the method runs once, with its arguments, and the call settles as it does. -/
def Transparent (args : List Argument) (h : Hist Resp) (result : Except Thrown Returned) : Prop :=
  h.filterMap methodRun = [(args, result)]

/-- A request to the logger that does not interfere. -/
def Harmless (h : Hist Resp) : (Σ c : Cmd, Resp c) → Prop
  | ⟨.start _, emitted⟩ => emitted.logged = .ok ()
  | ⟨.method _, _⟩ => True
  | ⟨.log _, emitted⟩ => ∀ e, emitted.logged = .error e → ∃ args, (args, .error e) ∈ h.filterMap methodRun

/-- **The logger does not interfere**: the first request goes through, and a later one fails at most with
the error that the method has thrown. -/
def Undisturbed (h : Hist Resp) : Prop := ∀ entry ∈ h, Harmless h entry

/-! ## The ways a call can go -/

/-- What the `catch` block throws. -/
def rethrown (e : Thrown) (logging : Emitted) : Thrown :=
  match logging.logged with
  | .error e' => e'
  | .ok _ => e

/-- **How a call ends.** -/
inductive Course (args : List Argument) : Hist Resp → Except Thrown Returned → Prop
  | skipped {begun e message logging} (hbegun : begun.logged = .error e) :
    Course args [⟨.start args, begun⟩, ⟨.log message, logging⟩] (.error (rethrown e logging))
  | threw {begun answer e message logging} (hbegun : begun.logged = .ok ()) (he : answer.outcome = .error e) :
    Course args [⟨.start args, begun⟩, ⟨.method args, answer⟩, ⟨.log message, logging⟩]
      (.error (rethrown e logging))
  | returned {begun answer result message logging} (hbegun : begun.logged = .ok ())
    (hresult : answer.outcome = .ok result) (hlogging : logging.logged = .ok ()) :
    Course args [⟨.start args, begun⟩, ⟨.method args, answer⟩, ⟨.log message, logging⟩] (.ok result)
  | unlogged {begun answer result message logging e message' logging'} (hbegun : begun.logged = .ok ())
    (hresult : answer.outcome = .ok result) (hlogging : logging.logged = .error e) :
    Course args [⟨.start args, begun⟩, ⟨.method args, answer⟩, ⟨.log message, logging⟩, ⟨.log message', logging'⟩]
      (.error (rethrown e logging'))

/-- A call makes at most four requests. -/
abbrev courses (args : List Argument) : Protocol Resp (Hist Resp) (Except Thrown Returned) :=
  .ofHist (fun h _ => h.length < 4) (Course args)

theorem follows_caught_course {h : Hist Resp} {e : Thrown} (hlen : h.length < 4)
    (hcourse : ∀ logging, Course args (h ++ [⟨.log (failed context e), logging⟩]) (.error (rethrown e logging))) :
    (caught context e).Follows (courses args) h := by
  refine ⟨hlen, fun logging => ?_⟩
  obtain ⟨request, logged, now⟩ := logging
  cases logged with
  | error e' => exact hcourse ⟨request, .error e', now⟩
  | ok _ => exact hcourse ⟨request, .ok (), now⟩

theorem follows_courses (args : List Argument) : (decorated context options args).Follows (courses args) [] := by
  refine ⟨(by decide : 0 < 4), fun begun => ?_⟩
  obtain ⟨request, logged, startTime⟩ := begun
  cases logged with
  | error e => exact follows_caught_course (by decide : 1 < 4) fun logging => .skipped rfl
  | ok _ =>
    refine ⟨(by decide : 1 < 4), fun answer => ?_⟩
    obtain ⟨outcome, endTime⟩ := answer
    cases outcome with
    | error e => exact follows_caught_course (by decide : 2 < 4) fun logging => .threw rfl rfl
    | ok result =>
      refine ⟨(by decide : 2 < 4), fun logging => ?_⟩
      obtain ⟨request', logged', now⟩ := logging
      cases logged' with
      | error e => exact follows_caught_course (by decide : 3 < 4) fun logging' => .unlogged rfl rfl rfl
      | ok _ => exact .returned rfl rfl rfl

/-! ## Which of them are transparent -/

theorem rethrown_ok {e : Thrown} {logging : Emitted} (h : logging.logged = .ok ()) : rethrown e logging = e := by
  rw [rethrown, h]

theorem rethrown_error {e e' : Thrown} {logging : Emitted} (h : logging.logged = .error e') :
    rethrown e logging = e' := by
  rw [rethrown, h]

/-- The method has thrown `e`: the last request must not put another error in its place. -/
theorem threw_iff {h : Hist Resp} {e : Thrown} {logging : Emitted} (message : Message)
    (hrun : h.filterMap methodRun = [(args, .error e)]) :
    Transparent args h (.error (rethrown e logging)) ↔ Harmless h ⟨.log message, logging⟩ := by
  rw [Transparent, Harmless, hrun]
  cases hlogging : logging.logged with
  | ok _ =>
    rw [rethrown_ok hlogging]
    refine iff_of_true rfl fun e' he' => ?_
    cases he'
  | error e' =>
    rw [rethrown_error hlogging]
    constructor
    · intro hsame e'' he''
      cases he''
      cases hsame
      exact ⟨args, List.mem_singleton_self _⟩
    · intro hharmless
      obtain ⟨args', hmem⟩ := hharmless e' rfl
      cases List.mem_singleton.1 hmem
      rfl

/-- **Which calls are transparent**, whichever way they go. -/
theorem Course.undisturbed_iff {h : Hist Resp} {result : Except Thrown Returned} (hcourse : Course args h result) :
    Transparent args h result ↔ Undisturbed h := by
  unfold Undisturbed
  cases hcourse with
  | @skipped begun e message logging hbegun =>
    -- the method does not run
    refine iff_of_false (fun htransparent => by cases htransparent) fun hquiet => ?_
    have hfirst : begun.logged = .ok () := hquiet _ List.mem_cons_self
    rw [hbegun] at hfirst
    cases hfirst
  | @threw begun answer e message logging hbegun he =>
    have hrun : [⟨.start args, begun⟩, ⟨.method args, answer⟩, ⟨.log message, logging⟩].filterMap methodRun =
        [(args, answer.outcome)] := rfl
    rw [he] at hrun
    rw [threw_iff message hrun]
    simp only [List.forall_mem_cons]
    exact ⟨fun hlast => ⟨hbegun, trivial, hlast, by simp⟩, fun hquiet => hquiet.2.2.1⟩
  | @returned begun answer result message logging hbegun hresult hlogging =>
    have hrun : [⟨.start args, begun⟩, ⟨.method args, answer⟩, ⟨.log message, logging⟩].filterMap methodRun =
        [(args, answer.outcome)] := rfl
    rw [hresult] at hrun
    refine iff_of_true hrun ?_
    simp only [List.forall_mem_cons]
    refine ⟨hbegun, trivial, fun e he => ?_, by simp⟩
    rw [hlogging] at he
    cases he
  | @unlogged begun answer result message logging e message' logging' hbegun hresult hlogging =>
    have hrun : [⟨.start args, begun⟩, ⟨.method args, answer⟩, ⟨.log message, logging⟩,
        ⟨.log message', logging'⟩].filterMap methodRun = [(args, answer.outcome)] := rfl
    rw [hresult] at hrun
    refine iff_of_false (fun htransparent => ?_) fun hquiet => ?_
    · rw [Transparent, hrun] at htransparent
      cases htransparent
    · obtain ⟨args', hmem⟩ := hquiet ⟨.log message, logging⟩ (by simp) e hlogging
      rw [hrun] at hmem
      cases List.mem_singleton.1 hmem

/-! ## Every call of every run -/

theorem keeps_courses (uuid : String) (es : List Step) :
    ((machine context options).run (Pool.init (Shared.init uuid)) es).Keeps
      (fun _ h _ => h.length < 4) fun args => Course args :=
  Machine.run_obeys follows_courses (Pool.obeys_init _ _ _) es

/-- The calls after the events `es`. -/
abbrev callsAfter (context uuid : String) (options : Options) (es : List Step) : Calls :=
  (machine context options).run (Pool.init (Shared.init uuid)) es

/-- **When logging is transparent**, for every call of every run that has returned; a call returns at its
fourth step at the latest. -/
theorem transparent_iff (context uuid : String) (options : Options) (es : List Step) (pid : ℕ) :
    ∀ p, (callsAfter context uuid options es).procs.get pid = some p →
      (∀ result, p.result = some result → (Transparent p.call p.hist result ↔ Undisturbed p.hist)) ∧
        ∀ es' : List Step, 4 ≤ es'.countP (Ev.moves pid) → ∃ p' result,
          (callsAfter context uuid options (es ++ es')).procs.get pid = some p' ∧ p'.call = p.call ∧
            p'.result = some result := by
  refine fun p hp => ⟨fun result hresult => ?_, fun es' hes' => ?_⟩
  · have hcourse : Course p.call p.hist result := (keeps_courses uuid es).returned hp hresult
    exact hcourse.undisturbed_iff
  · have hmore : callsAfter context uuid options (es ++ es') =
        (machine context options).run (callsAfter context uuid options es) es' := Machine.run_append _ _ _ _
    have hbound : ∀ p', ((machine context options).run (callsAfter context uuid options es) es').procs.get pid =
        some p' → p'.call = p.call → p'.Running → p'.hist.length < 4 := by
      intro p' hp' _ hrun
      rw [← hmore] at hp'
      cases hr : p'.rest with
      | ret result => exact absurd hrun (Proc.not_running_of_ret hr)
      | await c k => exact (keeps_courses uuid (es ++ es')).allowed hp' hr
    obtain ⟨p', hp', hcall, hret⟩ := run_returns hp hbound hes'
    obtain ⟨result, hresult⟩ := Option.ne_none_iff_exists'.1 hret
    rw [hmore]
    exact ⟨p', result, hp', hcall, hresult⟩

/-- The argument cannot be serialized, so the first request fails. -/
def unserializable : List Step :=
  [.call 1 [⟨none, none, "1n"⟩],
    .step 1 ⟨.error (.other "Do not know how to serialize a BigInt"), .ok (.value ""), 0⟩,
    .step 1 ⟨.ok (), .ok (.value ""), 1⟩]

/-- **The method does not run**, and the call fails with the error of the logger. -/
theorem method_skipped : ∃ p result, (callsAfter "" "uuid" .default unserializable).procs.get 1 = some p ∧
    p.result = some result ∧ result = .error (.other "Do not know how to serialize a BigInt") ∧
      p.hist.filterMap methodRun = [] ∧ ¬ Transparent p.call p.hist result := by
  refine ⟨_, _, rfl, rfl, rfl, rfl, fun h => ?_⟩
  cases h

/-- The method throws, and its requests go through. -/
def throwing : List Step :=
  [.call 1 [], .step 1 ⟨.ok (), .ok (.value ""), 0⟩, .step 1 ⟨.ok (), .error (.other "e"), 1⟩,
    .step 1 ⟨.ok (), .ok (.value ""), 2⟩]

theorem transparent_throwing : ∃ p, (callsAfter "" "uuid" .default throwing).procs.get 1 = some p ∧
    Transparent p.call p.hist (.error (.other "e")) := by
  refine ⟨_, rfl, ((transparent_iff "" "uuid" .default throwing 1 _ rfl).1 _ rfl).2 ?_⟩
  refine List.forall_mem_cons.2 ⟨rfl, List.forall_mem_cons.2 ⟨trivial, List.forall_mem_cons.2 ⟨?_, by simp⟩⟩⟩
  intro e he
  cases he

end NodeToolkit.LogDecorator
