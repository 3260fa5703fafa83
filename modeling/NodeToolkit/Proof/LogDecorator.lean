import NodeToolkit.Spec.LogDecorator

/-!
# Whose correlation id is logged

Calls of one decorated method, interleaved at their awaits. The variable they share holds the id of the
call that began last with one (`foldl_readCorrelationId`, `Tracks`), which need not be the call that logs.

* `Owns`: what is asked of one log request: its own call's id, and never one from the arguments of another.
* `InTurn`: when a call logs, no call with another id has begun since it began.
* `own_ids_iff`: the requests of a run carry their own ids if and only if every call logs in turn.
-/

namespace NodeToolkit.LogDecorator

open Async

/-! ## The loop over the arguments -/

theorem readCorrelationId_eq (id : String) (value : Argument) :
    readCorrelationId id value = (found [value]).getD id := by
  cases h : truthy value.correlationId <;> cases h' : truthy value.sessionCorrelationId <;>
    simp [readCorrelationId, found, h, h']

theorem found_cons (value : Argument) (args : List Argument) :
    found (value :: args) = (found args).or (found [value]) := by
  simp only [found, List.flatMap_cons, List.flatMap_nil, List.append_nil]
  exact List.getLast?_append

/-- The loop leaves the last id it meets. -/
theorem foldl_readCorrelationId (args : List Argument) :
    ∀ id, args.foldl readCorrelationId id = (found args).getD id := by
  induction args with
  | nil => exact fun _ => rfl
  | cons value args ih =>
    intro id
    rw [List.foldl_cons, ih, found_cons, readCorrelationId_eq]
    cases found args <;> rfl

/-! ## One call -/

variable {context : String} {uuid : String}

/-- A call begins once, and logs only after that. -/
def Allows (args : List Argument) (hist : Hist Resp) : Cmd → Prop
  | .start args' => args' = args ∧ hist = []
  | .method _ => hist ≠ []
  | .log _ => hist ≠ []

theorem follows_caught {args : List Argument} {h : Hist Resp} (hh : h ≠ []) (e : Thrown) :
    (caught context e).Follows (.ofHist (Allows args) fun _ _ => True) h := by
  refine ⟨hh, fun logging => ?_⟩
  obtain ⟨request, logged, now⟩ := logging
  cases logged <;> trivial

theorem follows_decorated (args : List Argument) : (decorated context .default args).Follows
    (.ofHist (Allows args) fun _ _ => True) [] := by
  have hne : ∀ (h : Hist Resp) e, h ++ [e] ≠ [] := fun h e => by simp
  refine ⟨⟨rfl, rfl⟩, fun begun => ?_⟩
  obtain ⟨request, logged, startTime⟩ := begun
  cases logged with
  | error e => exact follows_caught (hne _ _) e
  | ok u =>
    refine ⟨hne _ _, fun answer => ?_⟩
    obtain ⟨outcome, endTime⟩ := answer
    cases outcome with
    | error e => exact follows_caught (hne _ _) e
    | ok result =>
      refine ⟨hne _ _, fun logging => ?_⟩
      obtain ⟨request, logged, now⟩ := logging
      cases logged with
      | error e => exact follows_caught (hne _ _) e
      | ok u => trivial

/-! ## All calls -/

abbrev Calls : Type := Pool Resp Shared (List Argument) (Except Thrown Returned)

abbrev Step : Type := Ev Choice Empty (List Argument)

/-- The log request of a command, from its answer. -/
def requestOf : (Σ c : Cmd, Resp c) → Option LogRequest
  | ⟨.start _, emitted⟩ => some emitted.request
  | ⟨.method _, _⟩ => none
  | ⟨.log _, emitted⟩ => some emitted.request

/-- A request of a call with the arguments `args` has the id found there. If there is none, it has no id
that is found in the arguments of a call that has begun. -/
def Own (w : Calls) (args : List Argument) (request : LogRequest) : Prop :=
  match found args with
  | some id => request.correlationId = id
  | none => ∀ q p, w.procs.get q = some p → p.hist ≠ [] → found p.call ≠ some request.correlationId

/-- **What is asked of a step**: the request it emits, if any, has the id of its own call. -/
def Owns (context : String) (w : Calls) : Step → Prop
  | .step pid i => ∀ p c, w.procs.get pid = some p → p.pending = some c →
    ∀ request, requestOf ⟨c, (exec context .default i w.st c).2⟩ = some request → Own w p.call request
  | _ => True

/-- Every request of a run has the id of its own call. -/
def OwnIds (context uuid : String) (es : List Step) : Prop :=
  (machine context .default).Along (Owns context) (Pool.init (Shared.init uuid)) es

/-- A call that carries an id logs only while no call has begun with another id since. A call that carries
none logs only while no call has begun with an id. -/
def InTurn (w : Calls) : Step → Prop
  | .step pid _ => ∀ p c, w.procs.get pid = some p → p.pending = some c →
    match c with
    | .start args => found args = none → w.st.carried = []
    | .method _ => True
    | .log _ => w.st.carried.getLast? = found p.call
  | _ => True

/-- **The invariant**: the variable holds the last id carried, and what is carried is found in the
arguments of the calls that have begun. -/
structure Tracks (uuid : String) (w : Calls) : Prop where
  keeps : w.Keeps Allows fun _ _ _ => True
  last : w.st.correlationId = w.st.carried.getLast?.getD uuid
  begun : ∀ q p, w.procs.get q = some p → p.hist ≠ [] → ∀ id, found p.call = some id → id ∈ w.st.carried
  from_args : ∀ id ∈ w.st.carried, ∃ q p, w.procs.get q = some p ∧ p.hist ≠ [] ∧ found p.call = some id

theorem tracks_init : Tracks uuid (Pool.init (Shared.init uuid)) where
  keeps := Pool.obeys_init _ _ _
  last := rfl
  begun := fun q p h => by simp [Pool.init] at h
  from_args := fun id h => by simp [Pool.init, Shared.init] at h

theorem Tracks.call {w : Calls} {pid : ℕ} {args : List Argument} (hw : Tracks uuid w)
    (hn : w.procs.get pid = none) : Tracks uuid ((machine context .default).begin w pid args) where
  keeps := Machine.begin_obeys hw.keeps pid (follows_decorated args)
  last := hw.last
  begun := Machine.begin_all hw.begun fun h => absurd rfl h
  from_args := fun id hid =>
    have ⟨q, p, hp, hbegun, hfound⟩ := hw.from_args id hid
    ⟨q, p, Machine.begin_stays hn hp, hbegun, hfound⟩

/-- A call begins: it leaves its id in the variable, if it carries one. -/
theorem read_correlationId (args : List Argument) (s : Shared) :
    (s.read .default args).correlationId = (found args).getD s.correlationId :=
  foldl_readCorrelationId args s.correlationId

theorem Tracks.step {w : Calls} {pid : ℕ} {i : Choice} {p : Proc Resp (List Argument) (Except Thrown Returned)}
    {c : Cmd} {k : Resp c → Prog Resp (Except Thrown Returned)} (hw : Tracks uuid w)
    (hp : w.procs.get pid = some p) (hr : p.rest = .await c k) :
    Tracks uuid ((machine context .default).advance w pid i p c k) := by
  have hmay := hw.keeps.allowed hp hr
  -- a call that had begun has, and so has the one that moves
  have hstays : ∀ q p', w.procs.get q = some p' → p'.hist ≠ [] → ∀ id, found p'.call = some id →
      ∃ q' p'', ((machine context .default).advance w pid i p c k).procs.get q' = some p'' ∧
        p''.hist ≠ [] ∧ found p''.call = some id := by
    intro q p' hq hbegun id hfound
    by_cases hqp : q = pid
    · subst hqp
      obtain rfl := Option.some.inj (hp.symm.trans hq)
      exact ⟨q, _, Machine.get_advance_self, by simp, hfound⟩
    · exact ⟨q, p', (Machine.get_advance_ne hqp).trans hq, hbegun, hfound⟩
  cases c with
  | start args =>
    obtain ⟨rfl, hfirst⟩ := hmay
    refine ⟨Machine.advance_obeys hw.keeps i hp hr, ?_, Machine.advance_all (fun q p' hq hbegun id hfound => ?_) ?_,
      fun id hid => ?_⟩
    · show (w.st.read .default p.call).correlationId = _
      rw [read_correlationId, hw.last]
      show _ = (w.st.carried ++ (found p.call).toList).getLast?.getD uuid
      rw [List.getLast?_append]
      cases found p.call <;> rfl
    · exact List.mem_append_left _ (hw.begun q p' hq hbegun id hfound)
    · intro _ id hfound
      refine List.mem_append_right _ ?_
      rw [Option.mem_toList]
      exact hfound
    · rcases List.mem_append.1 hid with hid | hid
      · obtain ⟨q, p', hq, hbegun, hfound⟩ := hw.from_args id hid
        exact hstays q p' hq hbegun id hfound
      · rw [Option.mem_toList] at hid
        exact ⟨pid, _, Machine.get_advance_self, by simp, hid⟩
  | method args =>
    refine ⟨Machine.advance_obeys hw.keeps i hp hr, hw.last, Machine.advance_all hw.begun fun _ => ?_, fun id hid => ?_⟩
    · exact hw.begun pid p hp hmay
    · obtain ⟨q, p', hq, hbegun, hfound⟩ := hw.from_args id hid
      exact hstays q p' hq hbegun id hfound
  | log message =>
    refine ⟨Machine.advance_obeys hw.keeps i hp hr, hw.last, Machine.advance_all hw.begun fun _ => ?_, fun id hid => ?_⟩
    · exact hw.begun pid p hp hmay
    · obtain ⟨q, p', hq, hbegun, hfound⟩ := hw.from_args id hid
      exact hstays q p' hq hbegun id hfound

/-- A call that carries no id owns what it logs exactly if no id has been carried. -/
theorem Tracks.own_none {w : Calls} (hw : Tracks uuid w) {args : List Argument} {request : LogRequest}
    (hnone : found args = none) (hid : request.correlationId = w.st.correlationId) :
    Own w args request ↔ w.st.carried = [] := by
  unfold Own
  rw [hnone, hid]
  dsimp only
  constructor
  · intro h
    by_contra hne
    obtain ⟨id, hlast⟩ := Option.ne_none_iff_exists'.1 (mt List.getLast?_eq_none_iff.1 hne)
    obtain ⟨q, p, hq, hbegun, hfound⟩ := hw.from_args id (List.mem_of_getLast? hlast)
    refine h q p hq hbegun ?_
    rw [hfound, hw.last, hlast]
    rfl
  · intro hnil q p hq hbegun hfound
    have hmem := hw.begun q p hq hbegun _ hfound
    rw [hnil] at hmem
    cases hmem

/-- A call that carries an id owns what it logs exactly if that id was carried last. -/
theorem Tracks.own_some {w : Calls} (hw : Tracks uuid w) {pid : ℕ}
    {p : Proc Resp (List Argument) (Except Thrown Returned)} (hp : w.procs.get pid = some p) (hbegun : p.hist ≠ [])
    {id : String} (hsome : found p.call = some id) {request : LogRequest}
    (hid : request.correlationId = w.st.correlationId) :
    Own w p.call request ↔ w.st.carried.getLast? = some id := by
  unfold Own
  rw [hsome, hid, hw.last]
  dsimp only
  cases hlast : w.st.carried.getLast? with
  | none =>
    have hmem := hw.begun pid p hp hbegun id hsome
    rw [List.getLast?_eq_none_iff.1 hlast] at hmem
    cases hmem
  | some id' => rw [Option.getD_some, Option.some_inj]

theorem Tracks.owns_iff {w : Calls} (hw : Tracks uuid w) (e : Step) : Owns context w e ↔ InTurn w e := by
  cases e with
  | call pid args => exact Iff.rfl
  | env v => exact Iff.rfl
  | step pid i =>
    refine forall_congr' fun p => forall_congr' fun c => forall_congr' fun hp => forall_congr' fun hc => ?_
    obtain ⟨k, hr⟩ := Proc.await_of_pending hc
    have hmay := hw.keeps.allowed hp hr
    cases c with
    | start args =>
      obtain ⟨rfl, hfirst⟩ := hmay
      simp only [requestOf, exec, Option.some.injEq, forall_eq']
      cases hfound : found p.call with
      | none =>
        rw [hw.own_none hfound (by rw [read_correlationId, hfound]; rfl)]
        exact ⟨fun h _ => h, fun h => h rfl⟩
      | some id =>
        refine iff_of_true ?_ fun h => by cases h
        unfold Own
        rw [hfound, read_correlationId, hfound]
        rfl
    | method args => exact iff_of_true (fun _ h => by cases h) trivial
    | log message =>
      simp only [requestOf, exec, Option.some.injEq, forall_eq']
      cases hfound : found p.call with
      | none => rw [hw.own_none hfound rfl, List.getLast?_eq_none_iff]
      | some id => exact hw.own_some hp hmay hfound rfl

/-- **Correlation ids do not mix** in a run exactly if every call logs in turn. -/
theorem own_ids_iff (context uuid : String) (es : List Step) : OwnIds context uuid es ↔
    (machine context .default).Along InTurn (Pool.init (Shared.init uuid)) es := by
  have key : ∀ {G G' : Calls → Step → Prop}, (∀ w e, Tracks uuid w → G w e → G' w e) →
      (machine context .default).Along G (Pool.init (Shared.init uuid)) es →
      (machine context .default).Along G' (Pool.init (Shared.init uuid)) es := by
    intro G G' himp
    exact Machine.Along.of_inv (fun w pid args hw _ hn => hw.call hn) (fun w pid i p c k hw _ hp hr => hw.step hp hr)
      (fun w v => v.elim) himp tracks_init
  exact ⟨key fun w e hw => (hw.owns_iff e).1, key fun w e hw => (hw.owns_iff e).2⟩

/-- Two calls overlap: the first carries `x`, the second `y`. -/
def overlapping : List Step :=
  [.call 1 [⟨some "x", none, ""⟩], .step 1 ⟨.ok (), .ok (.value ""), 0⟩, .call 2 [⟨some "y", none, ""⟩],
    .step 2 ⟨.ok (), .ok (.value ""), 1⟩, .step 1 ⟨.ok (), .ok (.value ""), 2⟩, .step 1 ⟨.ok (), .ok (.value ""), 3⟩]

/-- **The first call** logs its success under the id of the second. -/
theorem success_under_other_id : ¬ OwnIds "" "uuid" overlapping ∧
    (((machine "" .default).run (Pool.init (Shared.init "uuid")) overlapping).procs.get 1).map
      (fun p => p.hist.filterMap fun e => (requestOf e).map fun r => (r.context, r.correlationId)) =
      some [("Starting: ", "x"), ("Success: ", "y")] := by
  constructor
  · rintro ⟨-, -, -, -, -, h, -⟩
    have hid : "y" = "x" := h _ _ rfl rfl _ rfl
    revert hid
    decide
  · decide +kernel

end NodeToolkit.LogDecorator
