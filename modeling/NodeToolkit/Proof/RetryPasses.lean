import Mathlib.Logic.Function.Basic
import NodeToolkit.Proof.DeliveryLedger

/-!
# Retry passes

Any number of `publish` and `retryFailedEvents` calls at once, on a broker whose handlers are registered.

* `Doing`, `Stage`: what a call is doing, and the code it has left then.
* `Kept`: the invariant of the broker and of what each call is doing, with one lemma for each
  command that changes them.
* `Fresh`: a pass retries a record only while it has retries left and has not succeeded. Every such step
  keeps the invariant (`tracked_step`).
* `WithinBudget`: what the invariant says of records, invocations and successes.
-/

namespace NodeToolkit.EventsBroker

open Async

variable {P : Type} {uuid : ℕ → String} {rs : List Registration}

/-- The broker with the calls made so far. -/
abbrev BrokerPool (P : Type) : Type := Pool (@Resp P) (Broker P) (Call P) Reply

/-! ## What a call is doing -/

/-- What a call is doing: nothing for a handler; a `publish` with the handler it has invoked and
those it has still to invoke; the retry of a record, before and after the handler has ended. -/
inductive Doing (P : Type) where
  | idle
  | publishing (n : ℕ) (event : Event P) (session : String) (current : Option Handler) (todo : List Handler)
  | retrying (id : String) (v : Invocation P)
  | recording (id : String) (v : Invocation P) (ok : Bool)

/-- The number of the `publish` that a call is. -/
def Doing.number : Doing P → Option ℕ
  | .publishing n _ _ _ _ => some n
  | .idle => none
  | .retrying _ _ => none
  | .recording _ _ _ => none

theorem Doing.number_eq_some {d : Doing P} {n : ℕ} (h : d.number = some n) :
    ∃ event session current todo, d = .publishing n event session current todo := by
  cases d with
  | publishing m event session current todo =>
    obtain rfl := Option.some.inj h
    exact ⟨event, session, current, todo, rfl⟩
  | idle => simp [number] at h
  | retrying id v => simp [number] at h
  | recording id v ok => simp [number] at h

section Stage

variable {n : ℕ} {event : Event P} {session : String} {hs : List Handler} {k : Client P Reply}

/-- The rest of a `publish`, once it knows the handlers of the name. -/
def specificRest (n : ℕ) (event : Event P) (session : String) : Option (List EventHandler) → Client P Reply
  | none => .ret (.ok ())
  | some hs => (Prog.forEach (fun handler => deliver n event session handler.toHandler) hs) >>= fun _ => .ret (.ok ())

/-- The rest of a `publish`, once it knows the universal handlers. -/
def universalRest (n : ℕ) (event : Event P) (session : String) (hs : List Handler) : Client P Reply :=
  Prog.forEach (deliver n event session) hs >>= fun _ =>
    .await (.eventHandlers event.name) (specificRest n event session)

/-- The rest of a pass, once it knows the records. -/
def passRest (ids : List String) : Client P Reply := Prog.forEach retry ids >>= fun _ => .ret (.ok ())

theorem prog_publish : prog (.publish event session) =
    .await .publication fun n => .await .universalEventHandlers (universalRest n event session) := by
  unfold prog publish universalRest
  simp only [Prog.await_bind, Prog.ret_bind, Prog.bind_assoc]
  congr 1
  funext n
  congr 1
  funext hs
  congr 1
  funext u
  congr 1
  funext r
  cases r with
  | none => rfl
  | some hs => rfl

theorem prog_pass : (prog .retryFailedEvents : Client P Reply) = .await .unsuccessfull passRest := by
  unfold prog retryFailedEvents passRest
  simp only [Prog.await_bind, Prog.ret_bind]
  rfl

/-- The code from the end of an invocation to the next handler. -/
def settle (n : ℕ) (event : Event P) (session : String) (handler : Handler) (k : Client P Reply) :
    Option String → Client P Reply
  | none => k
  | some error => .await (.save ⟨n, handler.id, event, session⟩ handler.maxRetries error) fun _ => k

theorem deliver_bind (handler : Handler) : (deliver n event session handler >>= fun _ => k) =
    .await (.handle ⟨n, handler.id, event, session⟩) fun _ =>
      .await (.settled ⟨n, handler.id, event, session⟩) (settle n event session handler k) := by
  unfold deliver
  rw [Prog.await_bind]
  congr 1
  funext u
  rw [Prog.await_bind]
  congr 1
  funext error
  cases error with
  | none => rfl
  | some error => rfl

theorem passRest_cons (id : String) (ids : List String) : (passRest (id :: ids) : Client P Reply) =
    .await (.startRetry id) fun v => (v.elim (passRest ids)) fun v =>
      .await (.settled v) fun error => .await (.endRetry id error) fun _ => passRest ids := by
  unfold passRest
  rw [Prog.forEach_cons, Prog.bind_assoc]
  unfold retry
  rw [Prog.await_bind]
  congr 1
  funext v
  cases v with
  | none => rfl
  | some v => rfl

/-- Between two handlers: the code that is left, and the handlers it is for. -/
inductive Tail (rs : List Registration) (n : ℕ) (event : Event P) (session : String) :
    List Handler → Client P Reply → Prop where
  | finish : Tail rs n event session [] (.ret (.ok ()))
  | lookup : Tail rs n event session ((rs.filter fun r => r.eventName = some event.name).map (·.handler))
      (.await (.eventHandlers event.name) (specificRest n event session))
  | deliver (handler : Handler) {hs : List Handler} {k : Client P Reply} (h : Tail rs n event session hs k) :
      Tail rs n event session (handler :: hs) (.await (.handle ⟨n, handler.id, event, session⟩) fun _ =>
        .await (.settled ⟨n, handler.id, event, session⟩) (settle n event session handler k))

/-- A loop of `publish` before other code. -/
theorem Tail.forEach {α : Type} (g : α → Handler) (h : Tail rs n event session hs k) (l : List α) :
    Tail rs n event session (l.map g ++ hs)
      (Prog.forEach (fun a => EventsBroker.deliver n event session (g a)) l >>= fun _ => k) := by
  induction l with
  | nil => exact h
  | cons a l ih =>
    rw [Prog.forEach_cons, Prog.bind_assoc, deliver_bind]
    exact .deliver (g a) ih

/-- **What a call is doing**, and the code it has left. -/
inductive Stage (rs : List Registration) : Doing P → Client P Reply → Prop where
  | publish (event : Event P) (session : String) : Stage rs .idle
      (.await .publication fun n => .await .universalEventHandlers (universalRest n event session))
  | list (n : ℕ) (event : Event P) (session : String) :
      Stage rs (.publishing n event session none (interested rs event.name))
        (.await .universalEventHandlers (universalRest n event session))
  | between {n : ℕ} {event : Event P} {session : String} {hs : List Handler} {k : Client P Reply}
      (h : Tail rs n event session hs k) : Stage rs (.publishing n event session none hs) k
  | handling (handler : Handler) {n : ℕ} {event : Event P} {session : String} {hs : List Handler}
      {k : Client P Reply} (h : Tail rs n event session hs k) :
      Stage rs (.publishing n event session (some handler) hs)
        (.await (.settled ⟨n, handler.id, event, session⟩) (settle n event session handler k))
  | filing (handler : Handler) (error : String) {n : ℕ} {event : Event P} {session : String} {hs : List Handler}
      {k : Client P Reply} (h : Tail rs n event session hs k) :
      Stage rs (.publishing n event session (some handler) hs)
        (.await (.save ⟨n, handler.id, event, session⟩ handler.maxRetries error) fun _ => k)
  | pass : Stage rs .idle (.await .unsuccessfull passRest)
  | next (ids : List String) : Stage rs .idle (passRest ids)
  | retrying (id : String) (v : Invocation P) (ids : List String) : Stage rs (.retrying id v)
      (.await (.settled v) fun error => .await (.endRetry id error) fun _ => passRest ids)
  | recording (id : String) (v : Invocation P) (error : Option String) (ids : List String) :
      Stage rs (.recording id v error.isNone) (.await (.endRetry id error) fun _ => passRest ids)

end Stage

/-! ## The invariant -/

/-- How often the handler has been invoked for the `publish`. -/
def invoked (n : ℕ) (id : String) (l : List (Entry P)) : ℕ := (starts l).countP (Invocation.isOf n id)

/-- No invocation of a handler for a `publish` starts after one has succeeded. -/
def Timely (l : List (Entry P)) : Prop :=
  ∀ l₁ v l₂, l = l₁ ++ .started v :: l₂ → succeeded v.publication v.handlerId l₁ = false

/-- There is no record of the handler for the `publish`. -/
def Unfiled (n : ℕ) (id : String) (s : Broker P) : Prop :=
  ∀ key filed, s.failedEvents.get key = some filed → ¬ (filed.publication = n ∧ filed.handlerId = id)

/-- **A `publish` in flight**: its handlers have distinct ids, and neither a record nor a success; the
current one has been invoked once, the others not at all. -/
structure Publishing (rs : List Registration) (s : Broker P) (n : ℕ) (event : Event P) (current : Option Handler)
    (todo : List Handler) : Prop where
  numbered : n < s.publications
  ids : ((current.toList ++ todo).map (·.id)).Nodup
  interested : ∀ handler ∈ current.toList ++ todo, handler ∈ interested rs event.name
  unfiled : ∀ handler ∈ current.toList ++ todo, Unfiled n handler.id s
  pending : ∀ handler ∈ current.toList ++ todo, succeeded n handler.id s.ledger = false
  current : ∀ handler ∈ current, invoked n handler.id s.ledger = 1
  todo : ∀ handler ∈ todo, invoked n handler.id s.ledger = 0

/-- **What every run keeps.** -/
structure Kept (uuid : ℕ → String) (rs : List Registration) (doing : ℕ → Doing P) (s : Broker P) : Prop
    extends Books uuid rs s where
  limits : ∀ id filed, s.failedEvents.get id = some filed → ∃ handler ∈ interested rs filed.event.name,
    handler.id = filed.handlerId ∧ handler.maxRetries = filed.handlerMaxRetries
  budget : ∀ id filed, s.failedEvents.get id = some filed → filed.retries ≤ filed.handlerMaxRetries
  counted : ∀ id filed, s.failedEvents.get id = some filed →
    invoked filed.publication filed.handlerId s.ledger = 1 + filed.retries
  once : ∀ n id, Unfiled n id s → invoked n id s.ledger ≤ 1
  coming : ∀ n id, s.publications ≤ n → invoked n id s.ledger = 0
  publishing : ∀ q n event session current todo, doing q = .publishing n event session current todo →
    Publishing rs s n event current todo
  distinct : ∀ q q' n, (doing q).number = some n → (doing q').number = some n → q = q'
  retrying : ∀ q id v, doing q = .retrying id v → ∃ filed, s.failedEvents.get id = some filed ∧ filed.invocation = v
  success : ∀ id filed, s.failedEvents.get id = some filed →
    succeeded filed.publication filed.handlerId s.ledger = true →
    filed.processedSuccessfully = true ∨ ∃ q v, doing q = .recording id v true
  timely : Timely s.ledger

section Ledger

variable {l : List (Entry P)} {v : Invocation P} {n : ℕ} {id : String} {error : Option String}

theorem invoked_started : invoked n id (l ++ [.started v]) = invoked n id l + if v.isOf n id then 1 else 0 := by
  simp [invoked, List.countP_cons]

@[simp] theorem invoked_settled : invoked n id (l ++ [.settled v error]) = invoked n id l := by simp [invoked]

theorem invoked_started_ne (h : ¬ (v.publication = n ∧ v.handlerId = id)) :
    invoked n id (l ++ [.started v]) = invoked n id l := by
  rw [invoked_started, if_neg (fun hof => h (isOf_iff.1 hof)), Nat.add_zero]

theorem invoked_started_self : invoked v.publication v.handlerId (l ++ [.started v]) =
    invoked v.publication v.handlerId l + 1 := by
  rw [invoked_started, if_pos (isOf_iff.2 ⟨rfl, rfl⟩)]

theorem succeeded_settled_ne (h : ¬ (v.publication = n ∧ v.handlerId = id)) :
    succeeded n id (l ++ [.settled v error]) = succeeded n id l := by
  have hof : v.isOf n id = false := isOf_eq_false.2 h
  simp [hof]

theorem timely_nil : Timely ([] : List (Entry P)) := by
  intro l₁ v l₂ h
  simp at h

/-- One more entry. -/
theorem Timely.snoc {entry : Entry P} (h : Timely l)
    (hentry : ∀ v, entry = .started v → succeeded v.publication v.handlerId l = false) : Timely (l ++ [entry]) := by
  intro l₁ v l₂ hsplit
  rcases List.eq_nil_or_concat l₂ with rfl | ⟨l₂', last, rfl⟩
  · obtain ⟨rfl, hlast⟩ := List.append_inj' hsplit rfl
    exact hentry v (List.singleton_inj.1 hlast)
  · rw [List.concat_eq_append, ← List.cons_append, ← List.append_assoc] at hsplit
    obtain ⟨hl, -⟩ := List.append_inj' hsplit rfl
    exact h l₁ v l₂' hl

end Ledger

/-! ## What changes it -/

section Steps

variable {doing : ℕ → Doing P} {s s' : Broker P} {pid n : ℕ} {event : Event P} {session : String}
  {handler : Handler} {todo : List Handler} {current : Option Handler} {id : String} {v : Invocation P}

/-- A `publish` is not affected by what concerns none of its handlers. -/
theorem Publishing.of_others (h : Publishing rs s n event current todo) (hpub : s.publications ≤ s'.publications)
    (hunfiled : ∀ handler ∈ current.toList ++ todo, Unfiled n handler.id s → Unfiled n handler.id s')
    (hsucc : ∀ handler ∈ current.toList ++ todo, succeeded n handler.id s'.ledger = succeeded n handler.id s.ledger)
    (hinv : ∀ handler ∈ current.toList ++ todo, invoked n handler.id s'.ledger = invoked n handler.id s.ledger) :
    Publishing rs s' n event current todo where
  numbered := h.numbered.trans_le hpub
  ids := h.ids
  interested := h.interested
  unfiled := fun handler hmem => hunfiled handler hmem (h.unfiled handler hmem)
  pending := fun handler hmem => (hsucc handler hmem).trans (h.pending handler hmem)
  current := fun handler hmem =>
    (hinv handler (List.mem_append_left _ (by simpa using hmem))).trans (h.current handler hmem)
  todo := fun handler hmem => (hinv handler (List.mem_append_right _ hmem)).trans (h.todo handler hmem)

theorem update_cases {d d' : Doing P} {q : ℕ} (h : Function.update doing pid d q = d') :
    q = pid ∧ d = d' ∨ q ≠ pid ∧ doing q = d' := by
  by_cases hq : q = pid
  · rw [hq, Function.update_self] at h
    exact Or.inl ⟨hq, h⟩
  · rw [Function.update_of_ne hq] at h
    exact Or.inr ⟨hq, h⟩

/-- The numbers stay distinct when a call gets one that no other call has. -/
theorem Kept.distinct_update (hK : Kept uuid rs doing s) {d : Doing P}
    (hd : ∀ n q, d.number = some n → (doing q).number = some n → q = pid) (q q' n : ℕ)
    (hq : (Function.update doing pid d q).number = some n) (hq' : (Function.update doing pid d q').number = some n) :
    q = q' := by
  by_cases h : q = pid
  · by_cases h' : q' = pid
    · rw [h, h']
    · rw [h, Function.update_self] at hq
      rw [Function.update_of_ne h'] at hq'
      exact absurd (hd n q' hq hq') h'
  · by_cases h' : q' = pid
    · rw [h', Function.update_self] at hq'
      rw [Function.update_of_ne h] at hq
      exact absurd (hd n q hq' hq) h
    · rw [Function.update_of_ne h] at hq
      rw [Function.update_of_ne h'] at hq'
      exact hK.distinct q q' n hq hq'

/-- A success is still being recorded when another call moves. -/
theorem recording_update {d d' : Doing P} (hd : doing pid = d') (hd' : ∀ v, d' ≠ .recording id v true)
    (h : ∃ q v, doing q = .recording id v true) : ∃ q v, Function.update doing pid d q = .recording id v true := by
  obtain ⟨q, v, hq⟩ := h
  have hne : q ≠ pid := by
    rintro rfl
    exact hd' v (hd.symm.trans hq)
  exact ⟨q, v, by rw [Function.update_of_ne hne, hq]⟩

/-- A `publish` gets its number. -/
theorem Kept.number (hK : Kept uuid rs doing s) (hd : doing pid = .idle) :
    Kept uuid rs (Function.update doing pid (.publishing s.publications event session none (interested rs event.name)))
      { s with publications := s.publications + 1 } := by
  have hnew : Publishing rs { s with publications := s.publications + 1 } s.publications event none
      (interested rs event.name) := by
    refine ⟨Nat.lt_succ_self _, hK.toRegistry.interested_ids event.name, fun _ h => h, fun handler _ => ?_,
      fun handler _ => ?_, fun handler h => by simp at h, fun handler _ => ?_⟩
    · rintro key filed hget ⟨hn, -⟩
      have hold := hK.numbered key filed hget
      omega
    · exact hK.logged s.publications handler.id (Nat.le_refl _)
    · exact hK.coming s.publications handler.id (Nat.le_refl _)
  refine { hK with
    toRegistry := hK.toRegistry.congr rfl rfl
    numbered := fun id filed hget => Nat.lt_succ_of_lt (hK.numbered id filed hget)
    logged := fun n id hn => hK.logged n id (Nat.le_of_succ_le hn)
    coming := fun n id hn => hK.coming n id (Nat.le_of_succ_le hn)
    publishing := ?_, distinct := hK.distinct_update ?_, retrying := ?_, success := ?_ }
  · intro q n event' session' current todo hq
    rcases update_cases hq with ⟨-, hpub⟩ | ⟨-, hold⟩
    · cases hpub
      exact hnew
    · exact (hK.publishing q n event' session' current todo hold).of_others (Nat.le_succ _) (fun _ _ h => h)
        (fun _ _ => rfl) (fun _ _ => rfl)
  · intro n q hn hq
    obtain rfl := Option.some.inj hn
    obtain ⟨event', session', current', todo', hdq⟩ := Doing.number_eq_some hq
    exact absurd (hK.publishing q _ _ _ _ _ hdq).numbered (Nat.lt_irrefl _)
  · intro q id v hq
    rcases update_cases hq with ⟨-, hretry⟩ | ⟨-, hold⟩
    · cases hretry
    · exact hK.retrying q id v hold
  · intro id filed hget hsucc
    exact (hK.success id filed hget hsucc).imp_right (recording_update hd nofun)

/-- Another `publish` has another number. -/
theorem Kept.number_ne (hK : Kept uuid rs doing s) (hd : doing pid = .publishing n event session current todo)
    {q m : ℕ} {event' : Event P} {session' : String} {current' : Option Handler} {todo' : List Handler}
    (hq : doing q = .publishing m event' session' current' todo') (hne : q ≠ pid) : m ≠ n := by
  rintro rfl
  exact hne (hK.distinct q pid m (by rw [hq]; rfl) (by rw [hd]; rfl))

/-- A `publish` keeps its number. -/
theorem Kept.distinct_publishing (hK : Kept uuid rs doing s)
    (hd : doing pid = .publishing n event session current todo) {current' : Option Handler} {todo' : List Handler}
    (q q' m : ℕ) (hq : (Function.update doing pid (.publishing n event session current' todo') q).number = some m)
    (hq' : (Function.update doing pid (.publishing n event session current' todo') q').number = some m) : q = q' := by
  refine hK.distinct_update (fun m q hm hq => hK.distinct q pid m hq ?_) q q' m hq hq'
  rw [hd]
  exact hm

/-- The retries in flight are the same when a `publish` moves. -/
theorem Kept.retrying_publishing (hK : Kept uuid rs doing s) {current' : Option Handler} {todo' : List Handler}
    (q : ℕ) (id : String) (v : Invocation P)
    (hq : Function.update doing pid (.publishing n event session current' todo') q = .retrying id v) :
    ∃ filed, s.failedEvents.get id = some filed ∧ filed.invocation = v := by
  rcases update_cases hq with ⟨-, hretry⟩ | ⟨-, hold⟩
  · cases hretry
  · exact hK.retrying q id v hold

/-- **A `publish` invokes** its next handler. -/
theorem Kept.handle (hK : Kept uuid rs doing s)
    (hd : doing pid = .publishing n event session none (handler :: todo)) :
    Kept uuid rs (Function.update doing pid (.publishing n event session (some handler) todo))
      (s.log (.started (invoke n event session handler))) := by
  have hP := hK.publishing pid n event session none (handler :: todo) hd
  have hunfiled : Unfiled n handler.id s := hP.unfiled handler (by simp)
  have hzero : invoked n handler.id s.ledger = 0 := hP.todo handler (by simp)
  have hids := hP.ids
  rw [Option.toList_none, List.nil_append, List.map_cons, List.nodup_cons] at hids
  have hsucc : ∀ m id', succeeded m id' (s.log (.started (invoke n event session handler))).ledger =
      succeeded m id' s.ledger := by
    intro m id'
    simp
  have hother : ∀ m id', ¬ (n = m ∧ handler.id = id') →
      invoked m id' (s.log (.started (invoke n event session handler))).ledger = invoked m id' s.ledger :=
    fun m id' h => invoked_started_ne h
  refine { hK with
    toRegistry := hK.toRegistry.congr rfl rfl
    logged := fun m id' hm => (hsucc m id').trans (hK.logged m id' hm)
    counted := ?_, once := ?_, coming := ?_, publishing := ?_
    distinct := hK.distinct_publishing hd, retrying := hK.retrying_publishing, success := ?_, timely := ?_ }
  · intro id filed hget
    rw [hother _ _ fun h => hunfiled id filed hget ⟨h.1.symm, h.2.symm⟩]
    exact hK.counted id filed hget
  · intro m id' hun
    -- the first invocation of the handler, or one of another handler
    by_cases hsame : n = m ∧ handler.id = id'
    · obtain ⟨rfl, rfl⟩ := hsame
      have hone := invoked_started_self (l := s.ledger) (v := invoke n event session handler)
      have hzero' : invoked (invoke n event session handler).publication (invoke n event session handler).handlerId
          s.ledger = 0 := hzero
      rw [hzero'] at hone
      exact hone.le
    · rw [hother m id' hsame]
      exact hK.once m id' hun
  · intro m id' hm
    have hn := hP.numbered
    rw [hother m id' fun h => absurd (h.1 ▸ hm) (Nat.not_le.2 hn)]
    exact hK.coming m id' hm
  · intro q m event' session' current' todo' hq
    rcases update_cases hq with ⟨-, hpub⟩ | ⟨hne, hold⟩
    · cases hpub
      refine ⟨hP.numbered, by simpa using hP.ids, hP.interested, hP.unfiled, fun h hmem => ?_, fun h hmem => ?_,
        fun h hmem => ?_⟩
      · rw [hsucc]
        exact hP.pending h hmem
      · obtain rfl := Option.mem_some_iff.1 hmem
        have hone := invoked_started_self (l := s.ledger) (v := invoke n event session handler)
        exact hone.trans (congrArg (· + 1) hzero)
      · have hdiff : handler.id ≠ h.id := fun heq => hids.1 (heq ▸ List.mem_map_of_mem hmem)
        rw [hother n h.id fun heq => hdiff heq.2]
        exact hP.todo h (List.mem_cons_of_mem _ hmem)
    · have hnum := hK.number_ne hd hold hne
      exact (hK.publishing q m event' session' current' todo' hold).of_others (Nat.le_refl _) (fun _ _ h => h)
        (fun h _ => hsucc m h.id) fun h _ => hother m h.id fun heq => hnum heq.1.symm
  · intro id filed hget hok
    rw [hsucc] at hok
    exact (hK.success id filed hget hok).imp_right (recording_update hd nofun)
  · refine hK.timely.snoc fun v hv => ?_
    obtain rfl := Entry.started.inj hv
    exact hP.pending handler (by simp)

/-- **An invocation of a `publish` succeeds.** -/
theorem Kept.settleOk (hK : Kept uuid rs doing s)
    (hd : doing pid = .publishing n event session (some handler) todo) :
    Kept uuid rs (Function.update doing pid (.publishing n event session none todo))
      (s.log (.settled (invoke n event session handler) none)) := by
  have hP := hK.publishing pid n event session (some handler) todo hd
  have hunfiled : Unfiled n handler.id s := hP.unfiled handler (by simp)
  have hids := hP.ids
  rw [Option.toList_some, List.singleton_append, List.map_cons, List.nodup_cons] at hids
  have hother : ∀ m id', ¬ (n = m ∧ handler.id = id') →
      succeeded m id' (s.log (.settled (invoke n event session handler) none)).ledger = succeeded m id' s.ledger :=
    fun m id' h => succeeded_settled_ne h
  have hinv : ∀ m id', invoked m id' (s.log (.settled (invoke n event session handler) none)).ledger =
      invoked m id' s.ledger := fun m id' => invoked_settled
  refine { hK with
    toRegistry := hK.toRegistry.congr rfl rfl
    logged := ?_
    counted := fun id filed hget => (hinv _ _).trans (hK.counted id filed hget)
    once := fun m id' hun => (hinv m id').trans_le (hK.once m id' hun)
    coming := fun m id' hm => (hinv m id').trans (hK.coming m id' hm)
    publishing := ?_
    distinct := hK.distinct_publishing hd, retrying := hK.retrying_publishing, success := ?_
    timely := hK.timely.snoc fun v hv => by cases hv }
  · intro m id' hm
    have hn := hP.numbered
    rw [hother m id' fun h => absurd (h.1 ▸ hm) (Nat.not_le.2 hn)]
    exact hK.logged m id' hm
  · intro q m event' session' current' todo' hq
    rcases update_cases hq with ⟨-, hpub⟩ | ⟨hne, hold⟩
    · cases hpub
      have hdiff : ∀ h ∈ todo, ¬ (n = n ∧ handler.id = h.id) :=
        fun h hmem heq => hids.1 (heq.2 ▸ List.mem_map_of_mem hmem)
      refine ⟨hP.numbered, hids.2, fun h hmem => hP.interested h (List.mem_append_right _ hmem),
        fun h hmem => hP.unfiled h (List.mem_append_right _ hmem), fun h hmem => ?_, fun h hmem => by simp at hmem,
        fun h hmem => (hinv n h.id).trans (hP.todo h hmem)⟩
      rw [hother n h.id (hdiff h hmem)]
      exact hP.pending h (List.mem_append_right _ hmem)
    · have hnum := hK.number_ne hd hold hne
      exact (hK.publishing q m event' session' current' todo' hold).of_others (Nat.le_refl _) (fun _ _ h => h)
        (fun h _ => hother m h.id fun heq => hnum heq.1.symm) fun h _ => hinv m h.id
  · intro id filed hget hok
    rw [hother _ _ fun h => hunfiled id filed hget ⟨h.1.symm, h.2.symm⟩] at hok
    exact (hK.success id filed hget hok).imp_right (recording_update hd nofun)

/-- **An invocation fails.** -/
theorem Kept.settleFail (hK : Kept uuid rs doing s) (v : Invocation P) (error : String) :
    Kept uuid rs doing (s.log (.settled v (some error))) := by
  have hsucc : ∀ m id', succeeded m id' (s.log (.settled v (some error))).ledger = succeeded m id' s.ledger := by
    intro m id'
    simp
  have hinv : ∀ m id', invoked m id' (s.log (.settled v (some error))).ledger = invoked m id' s.ledger :=
    fun m id' => invoked_settled
  exact { hK with
    toRegistry := hK.toRegistry.congr rfl rfl
    logged := fun m id' hm => (hsucc m id').trans (hK.logged m id' hm)
    counted := fun id filed hget => (hinv _ _).trans (hK.counted id filed hget)
    once := fun m id' hun => (hinv m id').trans_le (hK.once m id' hun)
    coming := fun m id' hm => (hinv m id').trans (hK.coming m id' hm)
    publishing := fun q m event' session' current' todo' hq =>
      (hK.publishing q m event' session' current' todo' hq).of_others (Nat.le_refl _) (fun _ _ h => h)
        (fun h _ => hsucc m h.id) fun h _ => hinv m h.id
    success := fun id filed hget hok => hK.success id filed hget ((hsucc _ _).symm.trans hok)
    timely := hK.timely.snoc fun v hv => by cases hv }

theorem get_set_cases {m : OMap String (Filed P)} {filed filed' : Filed P} {key : String}
    (h : (m.set id filed').get key = some filed) : id = key ∧ filed = filed' ∨ id ≠ key ∧ m.get key = some filed := by
  rw [OMap.get_set] at h
  by_cases hkey : id = key
  · rw [if_pos hkey] at h
    exact Or.inl ⟨hkey, (Option.some.inj h).symm⟩
  · rw [if_neg hkey] at h
    exact Or.inr ⟨hkey, h⟩

/-- **The record of a failed invocation** is saved. -/
theorem Kept.save (hu : Function.Injective uuid) (hK : Kept uuid rs doing s)
    (hd : doing pid = .publishing n event session (some handler) todo) (error : String) (i : Choice) :
    Kept uuid rs (Function.update doing pid (.publishing n event session none todo))
      (exec uuid i s (.save (invoke n event session handler) handler.maxRetries error)).1 := by
  have hP := hK.publishing pid n event session (some handler) todo hd
  have hunfiled : Unfiled n handler.id s := hP.unfiled handler (by simp)
  have hids := hP.ids
  rw [Option.toList_some, List.singleton_append, List.map_cons, List.nodup_cons] at hids
  set record : Filed P := ⟨failedEvent (uuid s.generated) (invoke n event session handler) handler.maxRetries error
    i.now, n⟩ with hrecord
  show Kept uuid rs _ { s with
    failedEvents := s.failedEvents.set (uuid s.generated) record, generated := s.generated + 1 }
  -- the id is new, so the records before stay
  have hold : ∀ key filed, s.failedEvents.get key = some filed →
      (s.failedEvents.set (uuid s.generated) record).get key = some filed :=
    fun _ _ hget => (get_save hu hK.generated).2 (Or.inr hget)
  have hkeep : ∀ m id', ¬ (n = m ∧ handler.id = id') → Unfiled m id' s →
      Unfiled m id' { s with
        failedEvents := s.failedEvents.set (uuid s.generated) record, generated := s.generated + 1 } := by
    intro m id' hne hun key filed hget hpair
    rcases get_set_cases hget with ⟨-, rfl⟩ | ⟨-, hget'⟩
    · exact hne ⟨hpair.1, hpair.2⟩
    · exact hun key filed hget' hpair
  refine { hK with
    toRegistry := hK.toRegistry.congr rfl rfl
    generated := ?_, numbered := ?_, unique := ?_, found := ?_, limits := ?_, budget := ?_, counted := ?_
    once := fun m id' hun => hK.once m id' fun key filed hget => hun key filed (hold key filed hget)
    publishing := ?_, distinct := hK.distinct_publishing hd, retrying := ?_, success := ?_ }
  · exact fun _ _ hget => generated_save hu hK.generated hget
  · intro key filed hget
    rcases get_set_cases hget with ⟨-, rfl⟩ | ⟨-, hget'⟩
    · exact hP.numbered
    · exact hK.numbered key filed hget'
  · intro key key' filed filed' hget hget' hn hid
    rcases get_set_cases hget with ⟨rfl, rfl⟩ | ⟨-, hget₁⟩
    · rcases get_set_cases hget' with ⟨rfl, -⟩ | ⟨-, hget₂⟩
      · rfl
      · exact absurd ⟨hn.symm, hid.symm⟩ (hunfiled key' filed' hget₂)
    · rcases get_set_cases hget' with ⟨-, rfl⟩ | ⟨-, hget₂⟩
      · exact absurd ⟨hn, hid⟩ (hunfiled key filed hget₁)
      · exact hK.unique key key' filed filed' hget₁ hget₂ hn hid
  · intro key filed hget
    rcases get_set_cases hget with ⟨-, rfl⟩ | ⟨-, hget'⟩
    · exact ⟨handler, hP.interested handler (by simp), rfl⟩
    · exact hK.found key filed hget'
  · intro key filed hget
    rcases get_set_cases hget with ⟨-, rfl⟩ | ⟨-, hget'⟩
    · exact ⟨handler, hP.interested handler (by simp), rfl, rfl⟩
    · exact hK.limits key filed hget'
  · intro key filed hget
    rcases get_set_cases hget with ⟨-, rfl⟩ | ⟨-, hget'⟩
    · exact Nat.zero_le _
    · exact hK.budget key filed hget'
  · intro key filed hget
    rcases get_set_cases hget with ⟨-, rfl⟩ | ⟨-, hget'⟩
    · exact hP.current handler rfl
    · exact hK.counted key filed hget'
  · intro q m event' session' current' todo' hq
    rcases update_cases hq with ⟨-, hpub⟩ | ⟨hne, hq'⟩
    · cases hpub
      have hdiff : ∀ h ∈ todo, ¬ (n = n ∧ handler.id = h.id) :=
        fun h hmem heq => hids.1 (heq.2 ▸ List.mem_map_of_mem hmem)
      exact ⟨hP.numbered, hids.2, fun h hmem => hP.interested h (List.mem_append_right _ hmem),
        fun h hmem => hkeep n h.id (hdiff h hmem) (hP.unfiled h (List.mem_append_right _ hmem)),
        fun h hmem => hP.pending h (List.mem_append_right _ hmem), fun h hmem => by simp at hmem, hP.todo⟩
    · have hnum := hK.number_ne hd hq' hne
      exact (hK.publishing q m event' session' current' todo' hq').of_others (Nat.le_refl _)
        (fun h _ => hkeep m h.id fun heq => hnum heq.1.symm) (fun _ _ => rfl) fun _ _ => rfl
  · intro q id v hq
    obtain ⟨filed, hget, hv⟩ := hK.retrying_publishing q id v hq
    exact ⟨filed, hold id filed hget, hv⟩
  · intro key filed hget hok
    rcases get_set_cases hget with ⟨-, rfl⟩ | ⟨-, hget'⟩
    · have hpending := hP.pending handler (by simp)
      exact absurd (hok.symm.trans hpending) (by simp)
    · exact (hK.success key filed hget' hok).imp_right (recording_update hd nofun)

/-! ### Retries -/

section Amend

variable {filed filed' : Filed P}

/-- Changing what a retry changes of a record keeps whom it is of. -/
theorem amend_cases (hget : s.failedEvents.get id = some filed) (hinv : filed'.invocation = filed.invocation)
    (hmax : filed'.handlerMaxRetries = filed.handlerMaxRetries) {key : String} {f : Filed P}
    (h : (s.failedEvents.set id filed').get key = some f) : ∃ f₀, s.failedEvents.get key = some f₀ ∧
      f.invocation = f₀.invocation ∧ f.handlerMaxRetries = f₀.handlerMaxRetries := by
  rcases get_set_cases h with ⟨rfl, rfl⟩ | ⟨-, hold⟩
  · exact ⟨filed, hget, hinv, hmax⟩
  · exact ⟨f, hold, rfl, rfl⟩

theorem Unfiled.amend {m : ℕ} {id' : String} (hget : s.failedEvents.get id = some filed)
    (hinv : filed'.invocation = filed.invocation) (h : Unfiled m id' s) :
    Unfiled m id' { s with failedEvents := s.failedEvents.set id filed' } := by
  intro key f hf hpair
  rcases get_set_cases hf with ⟨rfl, rfl⟩ | ⟨-, hold⟩
  · have hsame := invocation_eq hinv
    exact h _ filed hget ⟨hsame.1.symm.trans hpair.1, hsame.2.1.symm.trans hpair.2⟩
  · exact h key f hold hpair

theorem Unfiled.of_amend {m : ℕ} {id' : String} (hget : s.failedEvents.get id = some filed)
    (hinv : filed'.invocation = filed.invocation)
    (h : Unfiled m id' { s with failedEvents := s.failedEvents.set id filed' }) : Unfiled m id' s := by
  intro key f hf hpair
  by_cases hkey : id = key
  · subst hkey
    obtain rfl : filed = f := Option.some.inj (hget.symm.trans hf)
    have hsame := invocation_eq hinv
    exact h id filed' (OMap.get_set_self ..) ⟨hsame.1.trans hpair.1, hsame.2.1.trans hpair.2⟩
  · exact h key f ((OMap.get_set_ne _ _ hkey).trans hf) hpair

/-- **The books** with one record amended. -/
theorem Books.amend (hB : Books uuid rs s) (hget : s.failedEvents.get id = some filed)
    (hinv : filed'.invocation = filed.invocation) (hmax : filed'.handlerMaxRetries = filed.handlerMaxRetries) :
    Books uuid rs { s with failedEvents := s.failedEvents.set id filed' } := by
  refine hB.of_records rfl rfl rfl rfl hB.logged fun key f hf => ?_
  obtain ⟨f₀, hf₀, hv, -⟩ := amend_cases hget hinv hmax hf
  exact ⟨f₀, hf₀, hv⟩

theorem Kept.limits_amend (hK : Kept uuid rs doing s) (hget : s.failedEvents.get id = some filed)
    (hinv : filed'.invocation = filed.invocation) (hmax : filed'.handlerMaxRetries = filed.handlerMaxRetries)
    (key : String) (f : Filed P) (hf : (s.failedEvents.set id filed').get key = some f) :
    ∃ handler ∈ interested rs f.event.name, handler.id = f.handlerId ∧ handler.maxRetries = f.handlerMaxRetries := by
  obtain ⟨f₀, hf₀, hv, hm⟩ := amend_cases hget hinv hmax hf
  rw [(invocation_eq hv).2.1, (invocation_eq hv).2.2, hm]
  exact hK.limits key f₀ hf₀

/-- The retries in flight after one record is amended and the call `pid` is at `d`. -/
theorem Kept.retrying_amend (hK : Kept uuid rs doing s) (hget : s.failedEvents.get id = some filed)
    (hinv : filed'.invocation = filed.invocation) {d : Doing P}
    (hd : ∀ id' v, d = .retrying id' v → id' = id ∧ v = filed.invocation) (q : ℕ) (id' : String) (v : Invocation P)
    (hq : Function.update doing pid d q = .retrying id' v) :
    ∃ f, (s.failedEvents.set id filed').get id' = some f ∧ f.invocation = v := by
  rcases update_cases hq with ⟨-, hretry⟩ | ⟨-, hold⟩
  · obtain ⟨rfl, rfl⟩ := hd id' v hretry
    exact ⟨filed', OMap.get_set_self .., hinv⟩
  · obtain ⟨f, hf, hv⟩ := hK.retrying q id' v hold
    by_cases hkey : id = id'
    · subst hkey
      obtain rfl : filed = f := Option.some.inj (hget.symm.trans hf)
      exact ⟨filed', OMap.get_set_self .., hinv.trans hv⟩
    · exact ⟨f, (OMap.get_set_ne _ _ hkey).trans hf, hv⟩

/-- **A pass retries a record** that has retries left, and of which no success is known or being recorded. -/
theorem Kept.startRetry (hK : Kept uuid rs doing s) (hd : doing pid = .idle)
    (hget : s.failedEvents.get id = some filed) (hopen : filed.processedSuccessfully = false)
    (hleft : filed.retries < filed.handlerMaxRetries) (hquiet : ∀ q v, doing q ≠ .recording id v true) (now : ℕ) :
    Kept uuid rs (Function.update doing pid (.retrying id filed.invocation))
      (({ s with failedEvents := s.failedEvents.set id { filed with
        lastProcessingTryDate := now, retries := filed.retries + 1 } }).log (.started filed.invocation)) := by
  set filed' : Filed P := { filed with lastProcessingTryDate := now, retries := filed.retries + 1 } with hfiled'
  have hinv : filed'.invocation = filed.invocation := rfl
  have hB := hK.toBooks.amend hget hinv rfl
  have hpublication := hK.numbered id filed hget
  -- a success would be noted in the record, or about to be
  have hpending : succeeded filed.publication filed.handlerId s.ledger = false := by
    rw [Bool.eq_false_iff]
    intro hok
    rcases hK.success id filed hget hok with hflag | ⟨q, v, hq⟩
    · rw [hopen] at hflag
      exact Bool.noConfusion hflag
    · exact hquiet q v hq
  have hsucc : ∀ m id', succeeded m id' (s.ledger ++ [.started filed.invocation]) = succeeded m id' s.ledger := by
    intro m id'
    simp
  have hother : ∀ m id', ¬ (filed.publication = m ∧ filed.handlerId = id') →
      invoked m id' (s.ledger ++ [.started filed.invocation]) = invoked m id' s.ledger :=
    fun m id' h => invoked_started_ne h
  have hsame : invoked filed.publication filed.handlerId (s.ledger ++ [.started filed.invocation]) =
      invoked filed.publication filed.handlerId s.ledger + 1 :=
    invoked_started_self (v := filed.invocation)
  -- a handler without a record is not the one of this record
  have hne : ∀ m id', Unfiled m id' s → ¬ (filed.publication = m ∧ filed.handlerId = id') :=
    fun m id' hun => hun id filed hget
  refine { hB with
    toRegistry := hB.toRegistry.congr rfl rfl
    logged := fun m id' hm => (hsucc m id').trans (hK.logged m id' hm)
    limits := hK.limits_amend hget hinv rfl
    budget := ?_, counted := ?_, once := ?_, coming := ?_, publishing := ?_, distinct := hK.distinct_update ?_
    retrying := hK.retrying_amend hget hinv ?_, success := ?_, timely := hK.timely.snoc ?_ }
  · intro key f hf
    rcases get_set_cases hf with ⟨-, rfl⟩ | ⟨-, hold⟩
    · exact hleft
    · exact hK.budget key f hold
  · intro key f hf
    show invoked f.publication f.handlerId (s.ledger ++ [.started filed.invocation]) = _
    rcases get_set_cases hf with ⟨-, rfl⟩ | ⟨hkey, hold⟩
    · have hcount := hK.counted id filed hget
      show invoked filed.publication filed.handlerId _ = 1 + (filed.retries + 1)
      rw [hsame]
      omega
    · rw [hother _ _ fun h => hkey (hK.unique id key filed f hget hold h.1 h.2)]
      exact hK.counted key f hold
  · intro m id' hun
    have hun' : Unfiled m id' s := Unfiled.of_amend hget hinv hun
    show invoked m id' (s.ledger ++ [.started filed.invocation]) ≤ 1
    rw [hother m id' (hne m id' hun')]
    exact hK.once m id' hun'
  · intro m id' hm
    show invoked m id' (s.ledger ++ [.started filed.invocation]) = 0
    rw [hother m id' fun h => absurd (h.1 ▸ hm) (Nat.not_le.2 hpublication)]
    exact hK.coming m id' hm
  · intro q m event' session' current' todo' hq
    rcases update_cases hq with ⟨-, hretry⟩ | ⟨-, hold⟩
    · cases hretry
    · have hP := hK.publishing q m event' session' current' todo' hold
      exact hP.of_others (Nat.le_refl _) (fun h _ hun => hun.amend hget hinv) (fun h _ => hsucc m h.id)
        fun h hmem => hother m h.id (hne m h.id (hP.unfiled h hmem))
  · intro m q hm
    cases hm
  · intro id' v hretry
    cases hretry
    exact ⟨rfl, rfl⟩
  · intro key f hf hok
    have hok' : succeeded f.publication f.handlerId s.ledger = true := (hsucc _ _).symm.trans hok
    rcases get_set_cases hf with ⟨-, rfl⟩ | ⟨-, hold⟩
    · exact absurd (hok'.symm.trans hpending) (by simp)
    · exact (hK.success key f hold hok').imp_right (recording_update hd nofun)
  · intro v hv
    obtain rfl := Entry.started.inj hv
    exact hpending

/-- **The handler of a retry ends.** -/
theorem Kept.settleRetry (hK : Kept uuid rs doing s) (hd : doing pid = .retrying id v) (error : Option String) :
    Kept uuid rs (Function.update doing pid (.recording id v error.isNone)) (s.log (.settled v error)) := by
  obtain ⟨filed, hget, rfl⟩ := hK.retrying pid id v hd
  have hpublication := hK.numbered id filed hget
  have hother : ∀ m id', ¬ (filed.publication = m ∧ filed.handlerId = id') →
      succeeded m id' (s.log (.settled filed.invocation error)).ledger = succeeded m id' s.ledger :=
    fun m id' h => succeeded_settled_ne h
  have hinv : ∀ m id', invoked m id' (s.log (.settled filed.invocation error)).ledger = invoked m id' s.ledger :=
    fun m id' => invoked_settled
  refine { hK with
    toRegistry := hK.toRegistry.congr rfl rfl
    logged := ?_
    counted := fun key f hf => (hinv _ _).trans (hK.counted key f hf)
    once := fun m id' hun => (hinv m id').trans_le (hK.once m id' hun)
    coming := fun m id' hm => (hinv m id').trans (hK.coming m id' hm)
    publishing := ?_, distinct := hK.distinct_update ?_, retrying := ?_, success := ?_
    timely := hK.timely.snoc fun v hv => by cases hv }
  · intro m id' hm
    rw [hother m id' fun h => absurd (h.1 ▸ hm) (Nat.not_le.2 hpublication)]
    exact hK.logged m id' hm
  · intro q m event' session' current' todo' hq
    rcases update_cases hq with ⟨-, hrec⟩ | ⟨-, hold⟩
    · cases hrec
    · have hP := hK.publishing q m event' session' current' todo' hold
      exact hP.of_others (Nat.le_refl _) (fun _ _ h => h)
        (fun h hmem => hother m h.id (hP.unfiled h hmem id filed hget)) fun h _ => hinv m h.id
  · intro m q hm
    cases hm
  · intro q id' v hq
    rcases update_cases hq with ⟨-, hrec⟩ | ⟨-, hold⟩
    · cases hrec
    · exact hK.retrying q id' v hold
  · intro key f hf hok
    have hold : succeeded f.publication f.handlerId s.ledger = true →
        f.processedSuccessfully = true ∨ ∃ q v,
          Function.update doing pid (.recording id filed.invocation error.isNone) q = .recording key v true := by
      intro hbefore
      exact (hK.success key f hf hbefore).imp_right (recording_update hd nofun)
    -- the only success that is new is that of this record, which this call records next
    by_cases hsame : filed.publication = f.publication ∧ filed.handlerId = f.handlerId
    · obtain rfl := hK.unique id key filed f hget hf hsame.1 hsame.2
      cases error with
      | none => exact Or.inr ⟨pid, filed.invocation, Function.update_self ..⟩
      | some e =>
        have hbefore : succeeded f.publication f.handlerId s.ledger = true := by simpa using hok
        exact hold hbefore
    · rw [hother _ _ hsame] at hok
      exact hold hok

/-- **The end of a retry is recorded.** -/
theorem Kept.endRetry {ok : Bool} (hK : Kept uuid rs doing s) (hd : doing pid = .recording id v ok)
    (error : Option String) (hok : ok = error.isNone) :
    Kept uuid rs (Function.update doing pid .idle) (s.endRetry id error) := by
  -- what is being recorded for other records still is
  have hrecording : ∀ key, id ≠ key → (∃ q v, doing q = .recording key v true) →
      ∃ q v, Function.update doing pid .idle q = .recording key v true := by
    intro key hkey
    refine recording_update hd fun v hrec => ?_
    injection hrec with hid
    exact hkey hid
  have hidle : ∀ n q, (Doing.idle : Doing P).number = some n → (doing q).number = some n → q = pid := by
    intro n q hn
    cases hn
  cases hget : s.failedEvents.get id with
  | none =>
    have hstate : s.endRetry id error = s := by simp only [Broker.endRetry, hget]
    rw [hstate]
    refine { hK with publishing := ?_, distinct := hK.distinct_update hidle, retrying := ?_, success := ?_ }
    · intro q m event' session' current' todo' hq
      rcases update_cases hq with ⟨-, hidle⟩ | ⟨-, hold⟩
      · cases hidle
      · exact hK.publishing q m event' session' current' todo' hold
    · intro q id' v' hq
      rcases update_cases hq with ⟨-, hidle⟩ | ⟨-, hold⟩
      · cases hidle
      · exact hK.retrying q id' v' hold
    · intro key f hf hsucc
      have hkey : id ≠ key := by
        rintro rfl
        rw [hget] at hf
        cases hf
      exact (hK.success key f hf hsucc).imp_right (hrecording key hkey)
  | some filed =>
    rw [endRetry_some hget]
    set filed' : Filed P := { filed with
      lastError := error.getD filed.lastError
      processedSuccessfully := filed.processedSuccessfully || error.isNone } with hfiled'
    have hinv : filed'.invocation = filed.invocation := rfl
    have hB := hK.toBooks.amend hget hinv rfl
    refine { hB with
      limits := hK.limits_amend hget hinv rfl
      budget := ?_, counted := ?_
      once := fun m id' hun => hK.once m id' (Unfiled.of_amend hget hinv hun)
      coming := hK.coming
      publishing := ?_, distinct := hK.distinct_update hidle
      retrying := hK.retrying_amend hget hinv fun id' v hretry => by cases hretry
      success := ?_, timely := hK.timely }
    · intro key f hf
      rcases get_set_cases hf with ⟨-, rfl⟩ | ⟨-, hold⟩
      · exact hK.budget id filed hget
      · exact hK.budget key f hold
    · intro key f hf
      rcases get_set_cases hf with ⟨-, rfl⟩ | ⟨-, hold⟩
      · exact hK.counted id filed hget
      · exact hK.counted key f hold
    · intro q m event' session' current' todo' hq
      rcases update_cases hq with ⟨-, hidle⟩ | ⟨-, hold⟩
      · cases hidle
      · exact (hK.publishing q m event' session' current' todo' hold).of_others (Nat.le_refl _)
          (fun h _ hun => hun.amend hget hinv) (fun _ _ => rfl) fun _ _ => rfl
    · intro key f hf hsucc
      rcases get_set_cases hf with ⟨rfl, rfl⟩ | ⟨hkey, hold⟩
      · show (filed.processedSuccessfully || error.isNone) = true ∨ _
        rw [Bool.or_eq_true]
        rcases hK.success id filed hget hsucc with hflag | ⟨q, v', hq⟩
        · exact Or.inl (Or.inl hflag)
        -- a success that another pass is recording may still be
        · by_cases hqp : q = pid
          · rw [hqp, hd] at hq
            have htrue : ok = true := by injection hq
            exact Or.inl (Or.inr (hok.symm.trans htrue))
          · exact Or.inr ⟨q, v', (Function.update_of_ne hqp ..).trans hq⟩
      · exact (hK.success key f hold hsucc).imp_right (hrecording key hkey)

end Amend

end Steps

/-! ## Runs -/

section Run

variable {doing : ℕ → Doing P} {s : Broker P} {w : BrokerPool P} {pid : ℕ} {i : Choice}

/-- The handlers of the name, as code and as what is still to do. -/
theorem tail_specific (hR : Registry rs s) (n : ℕ) (event : Event P) (session : String) :
    Tail rs n event session ((rs.filter fun r => r.eventName = some event.name).map (·.handler))
      (specificRest n event session (s.eventHandlers.get event.name)) := by
  have hspecific := hR.specific event.name
  cases hget : s.eventHandlers.get event.name with
  | none =>
    rw [hget, Option.getD_none, List.map_nil] at hspecific
    rw [← hspecific]
    exact .finish
  | some hs =>
    rw [hget, Option.getD_some] at hspecific
    have hfinish : Tail rs n event session [] (.ret (.ok ())) := .finish
    have htail := Tail.forEach EventHandler.toHandler hfinish hs
    rw [List.append_nil, hspecific] at htail
    exact htail

theorem tail_universal (hR : Registry rs s) (n : ℕ) (event : Event P) (session : String) :
    Tail rs n event session (interested rs event.name) (universalRest n event session s.universalEventHandlers) := by
  have hlookup : Tail rs n event session ((rs.filter fun r => r.eventName = some event.name).map (·.handler))
      (.await (.eventHandlers event.name) (specificRest n event session)) := .lookup
  have htail := Tail.forEach id hlookup s.universalEventHandlers
  rw [List.map_id, hR.universal, ← List.map_append] at htail
  rw [hR.universal]
  exact htail

theorem exec_settled (v : Invocation P) :
    exec uuid i s (.settled v) = (s.log (.settled v i.error), i.error) := rfl

/-- **One command** of a call that is somewhere between two handlers. -/
theorem Kept.between (hK : Kept uuid rs doing s) {n : ℕ} {event : Event P}
    {session : String} {hs : List Handler} {c : Cmd P} {k : Resp c → Client P Reply}
    (hd : doing pid = .publishing n event session none hs) (h : Tail rs n event session hs (.await c k)) :
    ∃ d, Kept uuid rs (Function.update doing pid d) (exec uuid i s c).1 ∧ Stage rs d (k (exec uuid i s c).2) := by
  generalize hrest : (Prog.await c k : Client P Reply) = rest at h
  cases h with
  | finish => cases hrest
  | lookup =>
    cases hrest
    refine ⟨doing pid, ?_, ?_⟩
    · rw [Function.update_eq_self]
      exact hK
    · rw [hd]
      exact .between (tail_specific hK.toRegistry n event session)
  | deliver handler htail =>
    cases hrest
    exact ⟨_, hK.handle hd, .handling handler htail⟩

/-- **One command** of any call. -/
theorem Kept.step (hu : Function.Injective uuid) (hK : Kept uuid rs doing s) {c : Cmd P} {k : Resp c → Client P Reply}
    (hstage : Stage rs (doing pid) (.await c k))
    (hfresh : ∀ id, c = .startRetry id → (∀ filed, s.failedEvents.get id = some filed →
      filed.processedSuccessfully = false ∧ filed.retries < filed.handlerMaxRetries) ∧
      ∀ q v, doing q ≠ .recording id v true) :
    ∃ d, Kept uuid rs (Function.update doing pid d) (exec uuid i s c).1 ∧ Stage rs d (k (exec uuid i s c).2) := by
  have hsame : Kept uuid rs (Function.update doing pid (doing pid)) s := by
    rw [Function.update_eq_self]
    exact hK
  generalize hrest : (Prog.await c k : Client P Reply) = rest at hstage
  generalize hd : doing pid = d at hstage hsame
  cases hstage with
  | publish event session =>
    cases hrest
    exact ⟨_, hK.number hd, .list s.publications event session⟩
  | list n event session =>
    cases hrest
    exact ⟨_, hsame, .between (tail_universal hK.toRegistry n event session)⟩
  | between htail =>
    rw [← hrest] at htail
    exact hK.between hd htail
  | handling handler htail =>
    cases hrest
    rw [exec_settled]
    cases i.error with
    | none => exact ⟨_, hK.settleOk hd, .between htail⟩
    | some error => exact ⟨_, hsame.settleFail _ error, .filing handler error htail⟩
  | filing handler error htail =>
    cases hrest
    exact ⟨_, hK.save hu hd error i, .between htail⟩
  | pass =>
    cases hrest
    exact ⟨_, hsame, .next s.unsuccessfull⟩
  | next ids =>
    cases ids with
    | nil => cases hrest
    | cons id ids =>
      rw [passRest_cons] at hrest
      cases hrest
      obtain ⟨hopen, hquiet⟩ := hfresh id rfl
      show ∃ d, Kept uuid rs (Function.update doing pid d) (s.startRetry id i.now).1 ∧
        Stage rs d ((s.startRetry id i.now).2.elim _ _)
      cases hget : s.failedEvents.get id with
      | none =>
        have hskip : s.startRetry id i.now = (s, none) := by simp only [Broker.startRetry, hget]
        rw [hskip]
        exact ⟨_, hsame, .next ids⟩
      | some filed =>
        obtain ⟨handler, hfound⟩ := hK.toRegistry.handlerOf_isSome (hK.found id filed hget)
        rw [startRetry_some hget hfound]
        obtain ⟨hflag, hleft⟩ := hopen filed hget
        exact ⟨_, hK.startRetry hd hget hflag hleft hquiet i.now, .retrying id filed.invocation ids⟩
  | retrying id v ids =>
    cases hrest
    exact ⟨_, hK.settleRetry hd i.error, .recording id v i.error ids⟩
  | recording id v error ids =>
    cases hrest
    exact ⟨_, hK.endRetry hd error rfl, .next ids⟩

/-- The record that the call is about to retry. -/
def retries (p : Proc (@Resp P) (Call P) Reply) : Option String :=
  match p.rest with
  | .await (.startRetry id) _ => some id
  | _ => none

/-- The record of which the call is about to note that its retry has succeeded. -/
def notesSuccess (p : Proc (@Resp P) (Call P) Reply) : Option String :=
  match p.rest with
  | .await (.endRetry id none) _ => some id
  | _ => none

/-- Only `publish` and `retryFailedEvents` are called. -/
def NoRegistration : Ev Choice Empty (Call P) → Prop
  | .call _ x => x.registration = none
  | .step _ _ => True
  | .env _ => True

/-- **A pass that comes to a record of its list** finds it unsuccessful and with retries left, and no
other pass is about to note that a retry of it has succeeded. -/
def Fresh (w : BrokerPool P) : Ev Choice Empty (Call P) → Prop
  | .step pid _ => ∀ p ∈ w.procs.get pid, ∀ id ∈ retries p,
      (∀ filed ∈ w.st.failedEvents.get id,
        filed.processedSuccessfully = false ∧ filed.retries < filed.handlerMaxRetries) ∧
      ∀ e ∈ w.procs.entries, notesSuccess e.2 ≠ some id
  | .call _ _ => True
  | .env _ => True

/-- The broker is kept, and every call is where `doing` says. -/
structure Tracked (uuid : ℕ → String) (rs : List Registration) (doing : ℕ → Doing P) (w : BrokerPool P) : Prop where
  kept : Kept uuid rs doing w.st
  idle : ∀ q, w.procs.get q = none → doing q = .idle
  stages : ∀ q p, w.procs.get q = some p → Stage rs (doing q) p.rest

theorem Tracked.begin (hT : Tracked uuid rs doing w) (hn : w.procs.get pid = none) {x : Call P}
    (hx : x.registration = none) : Tracked uuid rs doing ((machine uuid).begin w pid x) where
  kept := hT.kept
  idle := by
    intro q hq
    exact hT.idle q (Machine.get_begin_eq_none hq)
  stages := by
    intro q p hq
    rcases Machine.begin_cases hq with ⟨rfl, rfl⟩ | ⟨-, hold⟩
    · rw [hT.idle q hn]
      show Stage rs .idle (prog x)
      cases x with
      | registerEventHandler handler => simp [Call.registration] at hx
      | registerUniversalEventHandler handler => simp [Call.registration] at hx
      | publish event session =>
        rw [prog_publish]
        exact .publish event session
      | retryFailedEvents =>
        rw [prog_pass]
        exact .pass
    · exact hT.stages q p hold

/-- A call that records a success has that step before it. -/
theorem Tracked.notesSuccess (hT : Tracked uuid rs doing w) {q : ℕ} {id : String} {v : Invocation P}
    (hq : doing q = .recording id v true) : ∃ e ∈ w.procs.entries, notesSuccess e.2 = some id := by
  cases hget : w.procs.get q with
  | none =>
    rw [hT.idle q hget] at hq
    cases hq
  | some p =>
    refine ⟨(q, p), OMap.get_eq_some.1 hget, ?_⟩
    have hstage := hT.stages q p hget
    rw [hq] at hstage
    unfold EventsBroker.notesSuccess
    generalize p.rest = rest at hstage
    generalize hd : Doing.recording id v true = d at hstage
    cases hstage with
    | recording id' v' error ids =>
      cases error with
      | none =>
        injection hd with hid
        rw [hid]
      | some e => simp at hd
    | _ => cases hd

theorem Tracked.advance (hu : Function.Injective uuid) (hT : Tracked uuid rs doing w)
    {p : Proc (@Resp P) (Call P) Reply} {c : Cmd P} {k : Resp c → Client P Reply} (hG : Fresh w (.step pid i))
    (hp : w.procs.get pid = some p) (hr : p.rest = .await c k) :
    ∃ doing', Tracked uuid rs doing' ((machine uuid).advance w pid i p c k) := by
  have hstage := hT.stages pid p hp
  rw [hr] at hstage
  have hfresh : ∀ id, c = .startRetry id → (∀ filed, w.st.failedEvents.get id = some filed →
      filed.processedSuccessfully = false ∧ filed.retries < filed.handlerMaxRetries) ∧
      ∀ q v, doing q ≠ .recording id v true := by
    rintro id rfl
    have hpending : retries p = some id := by simp only [retries, hr]
    obtain ⟨hopen, hquiet⟩ := hG p hp id hpending
    refine ⟨hopen, fun q v hq => ?_⟩
    obtain ⟨e, hmem, hnotes⟩ := hT.notesSuccess hq
    exact hquiet e hmem hnotes
  obtain ⟨d, hK, hnext⟩ := hT.kept.step (i := i) hu hstage hfresh
  refine ⟨Function.update doing pid d, hK, ?_, ?_⟩
  · intro q hq
    obtain ⟨hne, hnone⟩ := Machine.get_advance_eq_none hq
    rw [Function.update_of_ne hne]
    exact hT.idle q hnone
  · intro q p' hq
    rcases Machine.advance_cases hq with ⟨rfl, rfl⟩ | ⟨hne, hold⟩
    · rw [Function.update_self]
      exact hnext
    · rw [Function.update_of_ne hne]
      exact hT.stages q p' hold

/-- **Every fresh step** keeps track of the calls. -/
theorem tracked_step (hu : Function.Injective uuid) (hT : ∃ doing, Tracked uuid rs doing w)
    {e : Ev Choice Empty (Call P)} (hcall : NoRegistration e) (hG : Fresh w e) :
    ∃ doing, Tracked uuid rs doing ((machine uuid).step w e) := by
  obtain ⟨doing, hT⟩ := hT
  rcases Machine.step_cases (M := machine uuid) w e with ⟨pid, x, rfl, hn, he⟩ | ⟨pid, i, p, c, k, rfl, hp, hr, he⟩ |
    ⟨v, rfl, he⟩ | he
  · rw [he]
    exact ⟨doing, hT.begin hn hcall⟩
  · rw [he]
    exact hT.advance hu hG hp hr
  · exact v.elim
  · rw [he]
    exact ⟨doing, hT⟩

/-- **What the budget allows**: no record has been retried too often, no handler has been invoked too
often for a `publish`, and none again after it has succeeded. -/
structure WithinBudget (rs : List Registration) (s : Broker P) : Prop where
  retries : ∀ id filed, s.failedEvents.get id = some filed → filed.retries ≤ filed.handlerMaxRetries
  invoked : ∀ n, ∀ r ∈ rs, invoked n r.handler.id s.ledger ≤ 1 + r.handler.maxRetries
  timely : Timely s.ledger

theorem Kept.withinBudget (hK : Kept uuid rs doing s) : WithinBudget rs s where
  retries := hK.budget
  invoked := by
    intro n r hr
    by_cases hun : Unfiled n r.handler.id s
    · have honce := hK.once n r.handler.id hun
      omega
    · unfold Unfiled at hun
      push Not at hun
      obtain ⟨key, filed, hget, rfl, hid⟩ := hun
      have hcount := hK.counted key filed hget
      have hbudget := hK.budget key filed hget
      obtain ⟨handler, hmem, hsame, hmax⟩ := hK.limits key filed hget
      -- the record has the limit of this handler, as ids are distinct
      obtain ⟨r', hr', -, rfl⟩ := mem_interested.1 hmem
      obtain rfl : r' = r := List.inj_on_of_nodup_map hK.ids hr' hr (hsame.trans hid)
      rw [hid] at hcount
      omega
  timely := hK.timely

/-- Registering makes no records and invokes nothing. -/
theorem registering_only (uuid : ℕ → String) {regs : List (Call P × (ℕ → Choice))}
    (hregs : ∀ x ∈ regs, x.1.registration.isSome = true) :
    ∀ s : Broker P, ((machine uuid).series s regs).failedEvents = s.failedEvents ∧
      ((machine uuid).series s regs).ledger = s.ledger := by
  induction regs with
  | nil => exact fun s => ⟨rfl, rfl⟩
  | cons x regs ih =>
    intro s
    obtain ⟨r, hr⟩ := Option.isSome_iff_exists.1 (hregs x (by simp))
    obtain ⟨hfailed, hledger, -⟩ := registration_frame uuid s x.2 hr
    obtain ⟨hfailed', hledger'⟩ := ih (fun y hy => hregs y (by simp [hy])) ((machine uuid).alone s x.1 x.2).1
    exact ⟨hfailed'.trans hfailed, hledger'.trans hledger⟩

theorem tracked_init (hu : Function.Injective uuid) {regs : List (Call P × (ℕ → Choice))}
    (hregs : ∀ x ∈ regs, x.1.registration.isSome = true) :
    Tracked uuid (handlers regs) (fun _ => .idle) (Pool.init (after uuid regs)) := by
  obtain ⟨hfailed, hledger⟩ := registering_only uuid hregs (Broker.empty : Broker P)
  have hnone : ∀ id filed, (after uuid regs).failedEvents.get id ≠ some filed := by
    intro id filed hget
    have hget' : (Broker.empty : Broker P).failedEvents.get id = some filed := hfailed ▸ hget
    simp [Broker.empty] at hget'
  have hnil : (after uuid regs).ledger = [] := hledger
  refine ⟨{ books_after hu regs with
    limits := fun id filed hget => absurd hget (hnone id filed)
    budget := fun id filed hget => absurd hget (hnone id filed)
    counted := fun id filed hget => absurd hget (hnone id filed)
    once := fun n id _ => ?_, coming := fun n id _ => ?_
    publishing := fun _ _ _ _ _ _ hq => by cases hq
    distinct := fun _ _ _ hq => by cases hq
    retrying := fun _ _ _ hq => by cases hq
    success := fun id filed hget => absurd hget (hnone id filed)
    timely := ?_ }, fun _ _ => rfl, fun q p hq => by simp [Pool.init] at hq⟩
  · show invoked n id (after uuid regs).ledger ≤ 1
    rw [hnil]
    exact Nat.zero_le 1
  · show invoked n id (after uuid regs).ledger = 0
    rw [hnil]
    rfl
  · show Timely (after uuid regs).ledger
    rw [hnil]
    exact timely_nil

end Run

end NodeToolkit.EventsBroker
