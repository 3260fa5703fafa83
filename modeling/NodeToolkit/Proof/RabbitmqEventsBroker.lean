import Mathlib.Algebra.BigOperators.Group.List.Basic
import Mathlib.Data.List.Count
import NodeToolkit.Spec.RabbitmqEventsBroker

/-!
# Events between processes

Registrations and publications by instances of the broker, interleaved, with messages that arrive at any
time. An instance sends an event only if it has consumers of its own.

* `Grows`: exchanges, queues, bindings and flags stay; `Lasting`: so what a registration has done lasts.
* `Covered`: an instance publishes only if it has registered what any instance has, and a message arrives when
  no queue is bound both to the universal exchange and to that of the event.
* `exactly_once`: then each handler gets each event once; `dropped_between_processes`: an instance without
  consumers drops an event.
-/

namespace NodeToolkit.Rabbitmq

open Async

variable {configs : ℕ → Configs}

abbrev Calls : Type := Pool Resp System Call (Except String Unit)

abbrev Running : Type := Proc Resp Call (Except String Unit)

abbrev Step : Type := Ev Choice ℕ Call

/-! ## Scopes

The universal handlers (`none`), or the handlers of one event. -/

def exchangeOf : Option String → String
  | none => UNIVERSAL_EXCHANGE
  | some name => name

def keyOf : Option String → String
  | none => ""
  | some name => name

def typeFor : Option String → ExchangeType
  | none => .fanout
  | some _ => .direct

/-- The instance has recorded a consumer of the scope. -/
def System.Consumed (s : System) (inst : ℕ) : Option String → Prop
  | none => (s.instances inst).haveAtLeastOneUniversalConsumer = true
  | some name => name ∈ (s.instances inst).eventsThatHaveConsumers

/-! ## What a call does -/

/-- What a call has been answered lasts. -/
def Lasting (s : System) : (Σ c : Cmd, Resp c) → Prop
  | ⟨.assertExchange _ exchange type, .ok _⟩ => s.typeOf exchange = some type
  | ⟨.assertQueue _ queue, .ok queue'⟩ => queue' = queue ∧ queue ∈ s.queues.keys
  | ⟨.bindQueue _ queue exchange key, .ok _⟩ => ⟨queue, exchange, key⟩ ∈ s.bindings
  | ⟨.record inst _ scope, _⟩ => s.Consumed inst scope
  | _ => True

/-- Nothing that has been declared or recorded goes. -/
structure Grows (s s' : System) : Prop where
  types : ∀ x t, s.typeOf x = some t → s'.typeOf x = some t
  queues : ∀ q, q ∈ s.queues.keys → q ∈ s'.queues.keys
  bindings : ∀ b, b ∈ s.bindings → b ∈ s'.bindings
  consumed : ∀ inst scope, s.Consumed inst scope → s'.Consumed inst scope

section Grows

variable {s s' : System}

theorem Grows.refl : Grows s s := ⟨fun _ _ h => h, fun _ h => h, fun _ h => h, fun _ _ h => h⟩

theorem Grows.lasting (h : Grows s s') {e : Σ c : Cmd, Resp c} (he : Lasting s e) : Lasting s' e := by
  obtain ⟨c, r⟩ := e
  cases c with
  | assertExchange inst x t =>
    cases r with
    | error e => exact trivial
    | ok u => exact h.types x t he
  | assertQueue inst q =>
    cases r with
    | error e => exact trivial
    | ok q' => exact ⟨he.1, h.queues q he.2⟩
  | bindQueue inst q x k =>
    cases r with
    | error e => exact trivial
    | ok u => exact h.bindings _ he
  | record inst tag scope => exact h.consumed inst scope he
  | _ => exact trivial

theorem Grows.routes (h : Grows s s') {x k q : String} (hr : s.Routes x k q) : s'.Routes x k q := by
  obtain ⟨b, hb, hq, hx, ht⟩ := hr
  refine ⟨b, h.bindings b hb, hq, hx, ?_⟩
  rcases ht with ht | ⟨ht, hk⟩
  · exact Or.inl (h.types x _ ht)
  · exact Or.inr ⟨h.types x _ ht, hk⟩

theorem grows_setInstance {inst : ℕ} {x : Instance}
    (hu : (s.instances inst).haveAtLeastOneUniversalConsumer = true → x.haveAtLeastOneUniversalConsumer = true)
    (he : ∀ name, name ∈ (s.instances inst).eventsThatHaveConsumers → name ∈ x.eventsThatHaveConsumers) :
    Grows s (s.setInstance inst x) := by
  refine ⟨fun _ _ h => h, fun _ h => h, fun _ h => h, fun j scope h => ?_⟩
  by_cases hj : j = inst
  · subst hj
    cases scope with
    | none =>
      show ((Function.update s.instances j x) j).haveAtLeastOneUniversalConsumer = true
      rw [Function.update_self]
      exact hu h
    | some name =>
      show name ∈ ((Function.update s.instances j x) j).eventsThatHaveConsumers
      rw [Function.update_self]
      exact he name h
  · cases scope with
    | none =>
      show ((Function.update s.instances inst x) j).haveAtLeastOneUniversalConsumer = true
      rw [Function.update_of_ne hj]
      exact h
    | some name =>
      show name ∈ ((Function.update s.instances inst x) j).eventsThatHaveConsumers
      rw [Function.update_of_ne hj]
      exact h

theorem grows_declareExchange {x : String} {y : Exchange} (h : s.declareExchange x y = some s') :
    Grows s s' ∧ s'.typeOf x = some y.type := by
  unfold System.declareExchange at h
  cases hget : s.exchanges.get x with
  | none =>
    rw [hget] at h
    cases h
    refine ⟨⟨fun z t hz => ?_, fun _ h => h, fun _ h => h, fun _ _ h => h⟩, ?_⟩
    · have hne : x ≠ z := by
        rintro rfl
        rw [System.typeOf, hget] at hz
        cases hz
      show ((s.exchanges.set x y).get z).map Exchange.type = some t
      rw [OMap.get_set_ne _ _ hne]
      exact hz
    · show ((s.exchanges.set x y).get x).map Exchange.type = some y.type
      rw [OMap.get_set_self]
      rfl
  | some z =>
    rw [hget] at h
    dsimp only at h
    split at h
    · rename_i hz
      cases h
      exact ⟨.refl, by rw [System.typeOf, hget, hz]; rfl⟩
    · cases h

theorem grows_declareQueue {q : String} {d : Bool} (h : s.declareQueue q d = some s') :
    Grows s s' ∧ q ∈ s'.queues.keys := by
  unfold System.declareQueue at h
  cases hget : s.queues.get q with
  | none =>
    rw [hget] at h
    cases h
    refine ⟨⟨fun _ _ h => h, fun q' hq' => ?_, fun _ h => h, fun _ _ h => h⟩,
      OMap.mem_keys.2 ⟨d, OMap.get_set_self ..⟩⟩
    obtain ⟨d', hd'⟩ := OMap.mem_keys.1 hq'
    refine OMap.mem_keys.2 ?_
    by_cases hq : q = q'
    · exact ⟨d, by rw [hq]; exact OMap.get_set_self ..⟩
    · exact ⟨d', (OMap.get_set_ne _ _ hq).trans hd'⟩
  | some d' =>
    rw [hget] at h
    dsimp only at h
    split at h
    · cases h
      exact ⟨.refl, OMap.mem_keys.2 ⟨d', hget⟩⟩
    · cases h

theorem grows_bind {b : Binding} (h : s.bind b = some s') : Grows s s' ∧ b ∈ s'.bindings := by
  unfold System.bind at h
  split at h
  · split at h
    · rename_i hb
      cases h
      exact ⟨.refl, hb⟩
    · cases h
      exact ⟨⟨fun _ _ h => h, fun _ h => h, fun _ h => List.mem_append_left _ h, fun _ _ h => h⟩,
        List.mem_append_right _ (List.mem_singleton_self b)⟩
  · cases h

/-- What an operation can do. -/
theorem operate_cases {α : Type} (s : System) (i : Choice) (inst : ℕ) (value : α) (result : Option System) :
    (∃ e, s.operate i inst value result = (s, .error e)) ∨
    (∃ e, s.operate i inst value result = (s.refuse inst, .error e)) ∨
    ∃ s', result = some s' ∧ s.operate i inst value result = (s', .ok value) := by
  unfold System.operate
  split
  · exact Or.inl ⟨_, rfl⟩
  · split
    · exact Or.inr (Or.inl ⟨_, rfl⟩)
    · cases result with
      | none => exact Or.inr (Or.inl ⟨_, rfl⟩)
      | some s' => exact Or.inr (Or.inr ⟨s', rfl, rfl⟩)

theorem grows_refuse (inst : ℕ) : Grows s (s.refuse inst) := grows_setInstance (fun h => h) fun _ h => h

/-- An operation leaves the exchanges and all else, and its answer lasts. -/
theorem grows_operate {α : Type} {i : Choice} {inst : ℕ} {value : α} {result : Option System}
    (h : ∀ s', result = some s' → Grows s s') : Grows s (s.operate i inst value result).1 := by
  rcases operate_cases s i inst value result with ⟨e, he⟩ | ⟨e, he⟩ | ⟨s', hs', he⟩
  · rw [he]
    exact .refl
  · rw [he]
    exact grows_refuse inst
  · rw [he]
    exact h s' hs'

theorem exec_grows (i : Choice) (s : System) (c : Cmd) : Grows s (exec configs i s c).1 := by
  cases c with
  | assertConnected inst =>
    dsimp only [exec]
    split <;> exact .refl
  | assertExchange inst x t => exact grows_operate fun _ h => (grows_declareExchange h).1
  | assertQueue inst q => exact grows_operate fun _ h => (grows_declareQueue h).1
  | bindQueue inst q x k => exact grows_operate fun _ h => (grows_bind h).1
  | consume inst q =>
    refine grows_operate fun s' h => ?_
    split at h
    · cases h
      exact .refl
    · cases h
  | record inst tag scope =>
    cases scope with
    | none => exact grows_setInstance (fun _ => rfl) fun _ h => h
    | some name => exact grows_setInstance (fun h => h) fun _ h => List.mem_append_left _ h
  | haveUniversalConsumer inst => exact .refl
  | haveConsumer inst name => exact .refl
  | publish inst x k event session =>
    dsimp only [exec]
    split
    · exact .refl
    · exact ⟨fun _ _ h => h, fun _ h => h, fun _ h => h, fun _ _ h => h⟩

theorem exec_lasting (i : Choice) (s : System) (c : Cmd) :
    Lasting (exec configs i s c).1 ⟨c, (exec configs i s c).2⟩ := by
  cases c with
  | assertExchange inst x t =>
    rcases operate_cases s i inst () (s.declareExchange x ⟨t, (configs inst).durable.getD true⟩) with
      ⟨e, he⟩ | ⟨e, he⟩ | ⟨s', hs', he⟩
    · simp only [exec, he, Lasting]
    · simp only [exec, he, Lasting]
    · simp only [exec, he, Lasting]
      exact (grows_declareExchange hs').2
  | assertQueue inst q =>
    rcases operate_cases s i inst q (s.declareQueue q ((configs inst).durable.getD true)) with
      ⟨e, he⟩ | ⟨e, he⟩ | ⟨s', hs', he⟩
    · simp only [exec, he, Lasting]
    · simp only [exec, he, Lasting]
    · simp only [exec, he, Lasting]
      exact ⟨trivial, (grows_declareQueue hs').2⟩
  | bindQueue inst q x k =>
    rcases operate_cases s i inst () (s.bind ⟨q, x, k⟩) with ⟨e, he⟩ | ⟨e, he⟩ | ⟨s', hs', he⟩
    · simp only [exec, he, Lasting]
    · simp only [exec, he, Lasting]
    · simp only [exec, he, Lasting]
      exact (grows_bind hs').2
  | record inst tag scope =>
    cases scope with
    | none =>
      show ((Function.update s.instances inst _) inst).haveAtLeastOneUniversalConsumer = true
      rw [Function.update_self]
    | some name =>
      show name ∈ ((Function.update s.instances inst _) inst).eventsThatHaveConsumers
      rw [Function.update_self]
      exact List.mem_append_right _ (List.mem_singleton_self name)
  | _ => exact trivial

/-- The messages are the same. -/
structure Untouched (s s' : System) : Prop where
  sent : s'.sent = s.sent
  flight : s'.flight = s.flight
  placed : s'.placed = s.placed

theorem untouched_operate {α : Type} {i : Choice} {inst : ℕ} {value : α} {result : Option System}
    (h : ∀ s', result = some s' → Untouched s s') : Untouched s (s.operate i inst value result).1 := by
  rcases operate_cases s i inst value result with ⟨e, he⟩ | ⟨e, he⟩ | ⟨s', hs', he⟩
  · rw [he]
    exact ⟨rfl, rfl, rfl⟩
  · rw [he]
    exact ⟨rfl, rfl, rfl⟩
  · rw [he]
    exact h s' hs'

theorem exec_untouched {i : Choice} {c : Cmd} (hc : ∀ inst x k event session, c ≠ .publish inst x k event session) :
    Untouched s (exec configs i s c).1 := by
  cases c with
  | assertConnected inst =>
    dsimp only [exec]
    split <;> exact ⟨rfl, rfl, rfl⟩
  | assertExchange inst x t =>
    refine untouched_operate fun s' h => ?_
    unfold System.declareExchange at h
    split at h
    · cases h; exact ⟨rfl, rfl, rfl⟩
    · split at h <;> cases h
      exact ⟨rfl, rfl, rfl⟩
  | assertQueue inst q =>
    refine untouched_operate fun s' h => ?_
    unfold System.declareQueue at h
    split at h
    · cases h; exact ⟨rfl, rfl, rfl⟩
    · split at h <;> cases h
      exact ⟨rfl, rfl, rfl⟩
  | bindQueue inst q x k =>
    refine untouched_operate fun s' h => ?_
    unfold System.bind at h
    split at h
    · split at h <;> cases h <;> exact ⟨rfl, rfl, rfl⟩
    · cases h
  | consume inst q =>
    refine untouched_operate fun s' h => ?_
    split at h
    · cases h; exact ⟨rfl, rfl, rfl⟩
    · cases h
  | record inst tag scope => exact ⟨rfl, rfl, rfl⟩
  | haveUniversalConsumer inst => exact ⟨rfl, rfl, rfl⟩
  | haveConsumer inst name => exact ⟨rfl, rfl, rfl⟩
  | publish inst x k event session => exact absurd rfl (hc inst x k event session)

variable (configs) in
/-- A message is refused, or sent under the next number. -/
theorem exec_publish (i : Choice) (s : System) (inst : ℕ) (x k : String) (event : Event) (session : String) :
    (∃ e, exec configs i s (.publish inst x k event session) = (s, .error e)) ∨
      exec configs i s (.publish inst x k event session) = ({ s with sent := s.sent + 1, flight := s.flight ++
        [⟨s.sent, x, k, event, session, (configs inst).durable⟩] }, .ok s.sent) := by
  dsimp only [exec]
  split
  · exact Or.inl ⟨_, rfl⟩
  · exact Or.inr rfl

end Grows

/-! ## The history of a call -/

/-- The number of the message that a command has sent. -/
def numberOf : (Σ c : Cmd, Resp c) → Option ℕ
  | ⟨.publish _ _ _ _ _, .ok n⟩ => some n
  | _ => none

/-- The numbers of the messages that a call has sent. -/
def numbersOf (h : Hist Resp) : List ℕ := h.filterMap numberOf

/-- What a publication may do after a history. -/
def publishMay (event : Event) (h : Hist Resp) : Cmd → Prop
  | .publish inst x k event' _ => event' = event ∧ ∃ scope, (scope = none ∨ scope = some event.name) ∧
      x = exchangeOf scope ∧ k = keyOf scope ∧ ⟨.assertExchange inst x (typeFor scope), .ok ()⟩ ∈ h
  | .record _ _ _ => False
  | _ => True

/-- What a registration may do after a history. -/
def registerMay (inst : ℕ) (scope : Option String) (h : Hist Resp) : Cmd → Prop
  | .record inst' _ scope' => inst' = inst ∧ scope' = scope ∧
      ⟨.assertExchange inst (exchangeOf scope) (typeFor scope), .ok ()⟩ ∈ h
  | .publish _ _ _ _ _ => False
  | _ => True

/-- What a publication has done when it returns. -/
structure Published (inst : ℕ) (event : Event) (session : String) (h : Hist Resp) : Prop where
  done : ∃ universal consumer n₁ n₂,
    ⟨.haveUniversalConsumer inst, universal⟩ ∈ h ∧ ⟨.haveConsumer inst event.name, consumer⟩ ∈ h ∧
    (universal = true → ⟨.publish inst UNIVERSAL_EXCHANGE "" event session, .ok n₁⟩ ∈ h) ∧
    (consumer = true → ⟨.publish inst event.name event.name event session, .ok n₂⟩ ∈ h) ∧
    numbersOf h = (if universal then [n₁] else []) ++ if consumer then [n₂] else []

/-- What a registration has done when it returns. -/
structure Bound (inst : ℕ) (id : String) (scope : Option String) (h : Hist Resp) : Prop where
  done : ∃ queue tag, ⟨.assertExchange inst (exchangeOf scope) (typeFor scope), .ok ()⟩ ∈ h ∧
    ⟨.assertQueue inst id, .ok queue⟩ ∈ h ∧ ⟨.bindQueue inst queue (exchangeOf scope) (keyOf scope), .ok ()⟩ ∈ h ∧
    ⟨.record inst tag scope, ()⟩ ∈ h

def may : Call → Hist Resp → Cmd → Prop
  | .publish _ event _, h, c => publishMay event h c
  | .registerEventHandler inst handler, h, c => registerMay inst (some handler.eventName) h c
  | .registerUniversalEventHandler inst _, h, c => registerMay inst none h c

def fin : Call → Hist Resp → Except String Unit → Prop
  | .publish inst event session, h, .ok _ => Published inst event session h
  | .registerEventHandler inst handler, h, .ok _ =>
    handler.disabled = false → Bound inst handler.id (some handler.eventName) h
  | .registerUniversalEventHandler inst handler, h, .ok _ => handler.disabled = false → Bound inst handler.id none h
  | _, _, .error _ => True

theorem publish_follows (inst : ℕ) (event : Event) (session : String) : (publish inst event session).Follows
    (.ofHist (may (.publish inst event session)) (fin (.publish inst event session))) [] := by
  refine ⟨trivial, fun connected => ?_⟩
  match connected with
  | .error e => exact trivial
  | .ok () =>
    refine ⟨trivial, fun universal => ?_⟩
    match universal with
    | false =>
      refine ⟨trivial, fun consumer => ?_⟩
      match consumer with
      | false => exact ⟨false, false, 0, 0, by simp [Protocol.ofHist], by simp [Protocol.ofHist],
        by simp [Protocol.ofHist], by simp [Protocol.ofHist], rfl⟩
      | true =>
        refine ⟨trivial, fun declared => ?_⟩
        match declared with
        | .error e => exact trivial
        | .ok () =>
          refine ⟨⟨rfl, some event.name, Or.inr rfl, rfl, rfl, by simp [Protocol.ofHist, typeFor]⟩, fun sent => ?_⟩
          match sent with
          | .error e => exact trivial
          | .ok n => exact ⟨false, true, 0, n, by simp [Protocol.ofHist], by simp [Protocol.ofHist],
        by simp [Protocol.ofHist], by simp [Protocol.ofHist], rfl⟩
    | true =>
      refine ⟨trivial, fun declared => ?_⟩
      match declared with
      | .error e => exact trivial
      | .ok () =>
        refine ⟨⟨rfl, none, Or.inl rfl, rfl, rfl, by simp [Protocol.ofHist, typeFor]⟩, fun sent => ?_⟩
        match sent with
        | .error e => exact trivial
        | .ok n₁ =>
          refine ⟨trivial, fun consumer => ?_⟩
          match consumer with
          | false => exact ⟨true, false, n₁, 0, by simp [Protocol.ofHist], by simp [Protocol.ofHist],
        by simp [Protocol.ofHist], by simp [Protocol.ofHist], rfl⟩
          | true =>
            refine ⟨trivial, fun declared => ?_⟩
            match declared with
            | .error e => exact trivial
            | .ok () =>
              refine ⟨⟨rfl, some event.name, Or.inr rfl, rfl, rfl, by simp [Protocol.ofHist, typeFor]⟩,
                fun sent => ?_⟩
              match sent with
              | .error e => exact trivial
              | .ok n₂ => exact ⟨true, true, n₁, n₂, by simp [Protocol.ofHist], by simp [Protocol.ofHist],
        by simp [Protocol.ofHist], by simp [Protocol.ofHist], rfl⟩

theorem register_follows (x : Call) {inst : ℕ} {handler : Handler} (scope : Option String)
    (hmay : may x = registerMay inst scope)
    (hfin : ∀ h, (handler.disabled = false → Bound inst handler.id scope h) → fin x h (.ok ()))
    (herr : ∀ h e, fin x h (.error e)) :
    (register inst handler (exchangeOf scope) (keyOf scope) (typeFor scope) scope).Follows
      (.ofHist (may x) (fin x)) [] := by
  rw [hmay]
  unfold register
  split
  · rename_i hdisabled
    exact hfin _ fun h => by rw [h] at hdisabled; cases hdisabled
  · refine ⟨trivial, fun connected => ?_⟩
    match connected with
    | .error e => exact herr _ _
    | .ok () =>
      refine ⟨trivial, fun declared => ?_⟩
      match declared with
      | .error e => exact herr _ _
      | .ok () =>
        refine ⟨trivial, fun queue => ?_⟩
        match queue with
        | .error e => exact herr _ _
        | .ok queue =>
          refine ⟨trivial, fun bound => ?_⟩
          match bound with
          | .error e => exact herr _ _
          | .ok () =>
            refine ⟨trivial, fun tag => ?_⟩
            match tag with
            | .error e => exact herr _ _
            | .ok tag =>
              refine ⟨⟨rfl, rfl, by simp [Protocol.ofHist]⟩, fun _ => hfin _ fun _ => ⟨queue, tag, ?_⟩⟩
              simp [Protocol.ofHist]

theorem prog_follows (x : Call) : (prog x).Follows (.ofHist (may x) (fin x)) [] := by
  cases x with
  | publish inst event session => exact publish_follows inst event session
  | registerEventHandler inst handler =>
    exact register_follows (.registerEventHandler inst handler) (some handler.eventName) rfl
      (fun _ h => h) fun _ _ => trivial
  | registerUniversalEventHandler inst handler =>
    exact register_follows (.registerUniversalEventHandler inst handler) none rfl
      (fun _ h => h) fun _ _ => trivial

/-! ## All calls -/

/-- **The invariant** of every run: answers last, a consumer has an exchange of the right type, and a message
is in flight until it is placed. -/
structure Sound (w : Calls) : Prop where
  keeps : w.Keeps may fin
  lasting : ∀ q p, w.procs.get q = some p → ∀ e ∈ p.hist, Lasting w.st e
  typed : ∀ inst scope, w.st.Consumed inst scope → w.st.typeOf (exchangeOf scope) = some (typeFor scope)
  numbers : (w.st.flight.map Message.number).Nodup
  below : ∀ m ∈ w.st.flight, m.number < w.st.sent
  placed : ∀ e ∈ w.st.placed, e.2.number < w.st.sent
  unplaced : ∀ m ∈ w.st.flight, ∀ e ∈ w.st.placed, e.2.number ≠ m.number

section Sound

variable {w : Calls} {pid : ℕ}

/-- No instance has registered or sent anything. -/
def System.start (exchanges : OMap String Exchange) (queues : OMap String Bool) (bindings : List Binding) : System where
  instances := fun _ => ⟨false, false, [], []⟩
  exchanges
  queues
  bindings
  sent := 0
  flight := []
  placed := []

theorem sound_init (exchanges : OMap String Exchange) (queues : OMap String Bool) (bindings : List Binding) :
    Sound (Pool.init (.start exchanges queues bindings)) where
  keeps := Pool.obeys_init _ _ _
  lasting := fun q p h => by simp [Pool.init] at h
  typed := by
    intro inst scope h
    cases scope <;> cases h
  numbers := List.nodup_nil
  below := fun _ h => by cases h
  placed := fun _ h => by cases h
  unplaced := fun _ h => by cases h

theorem Sound.call (hw : Sound w) (x : Call) : Sound ((machine configs).begin w pid x) where
  keeps := Machine.begin_obeys hw.keeps pid (prog_follows x)
  lasting := Machine.begin_all hw.lasting fun _ h => by cases h
  typed := hw.typed
  numbers := hw.numbers
  below := hw.below
  placed := hw.placed
  unplaced := hw.unplaced

/-- Only the end of a registration makes a consumer. -/
theorem exec_consumed {i : Choice} {s : System} {c : Cmd} {inst : ℕ} {scope : Option String}
    (h : (exec configs i s c).1.Consumed inst scope) :
    s.Consumed inst scope ∨ ∃ tag, c = .record inst tag scope := by
  have hrefuse : ∀ j, (s.refuse j).Consumed inst scope → s.Consumed inst scope := by
    intro j hj
    by_cases hij : inst = j
    · subst hij
      cases scope <;> simpa [System.refuse, System.setInstance, System.Consumed] using hj
    · cases scope <;> simpa [System.refuse, System.setInstance, System.Consumed, Function.update_of_ne hij] using hj
  have hoperate : ∀ {α : Type} {j : ℕ} {value : α} {result : Option System},
      (s.operate i j value result).1.Consumed inst scope →
      (∀ s', result = some s' → s'.instances = s.instances) → s.Consumed inst scope := by
    intro α j value result hc hsame
    rcases operate_cases s i j value result with ⟨e, he⟩ | ⟨e, he⟩ | ⟨s', hs', he⟩
    · rwa [he] at hc
    · rw [he] at hc
      exact hrefuse j hc
    · rw [he] at hc
      have hinst := hsame s' hs'
      cases scope
      · simpa only [System.Consumed, hinst] using hc
      · simpa only [System.Consumed, hinst] using hc
  cases c with
  | assertConnected j =>
    refine Or.inl ?_
    dsimp only [exec] at h
    split at h <;> exact h
  | assertExchange j x t =>
    refine Or.inl (hoperate h fun s' hs' => ?_)
    unfold System.declareExchange at hs'
    split at hs'
    · cases hs'; rfl
    · split at hs' <;> cases hs'
      rfl
  | assertQueue j q =>
    refine Or.inl (hoperate h fun s' hs' => ?_)
    unfold System.declareQueue at hs'
    split at hs'
    · cases hs'; rfl
    · split at hs' <;> cases hs'
      rfl
  | bindQueue j q x k =>
    refine Or.inl (hoperate h fun s' hs' => ?_)
    unfold System.bind at hs'
    split at hs'
    · split at hs' <;> cases hs' <;> rfl
    · cases hs'
  | consume j q =>
    refine Or.inl (hoperate h fun s' hs' => ?_)
    split at hs'
    · cases hs'; rfl
    · cases hs'
  | record j tag scope' =>
    by_cases hij : inst = j
    · subst hij
      cases scope' with
      | none =>
        cases scope with
        | none => exact Or.inr ⟨tag, rfl⟩
        | some name => exact Or.inl (by simpa [exec, System.setInstance, System.Consumed] using h)
      | some name' =>
        cases scope with
        | none => exact Or.inl (by simpa [exec, System.setInstance, System.Consumed] using h)
        | some name =>
          have h' : name ∈ (s.instances inst).eventsThatHaveConsumers ∨ name = name' := by
            simpa [exec, System.setInstance, System.Consumed] using h
          rcases h' with h' | rfl
          · exact Or.inl h'
          · exact Or.inr ⟨tag, rfl⟩
    · refine Or.inl ?_
      cases scope <;> simpa [exec, System.setInstance, System.Consumed, Function.update_of_ne hij] using h
  | haveUniversalConsumer j => exact Or.inl h
  | haveConsumer j name => exact Or.inl h
  | publish j x k event session =>
    refine Or.inl ?_
    rcases exec_publish configs i s j x k event session with ⟨e, he⟩ | he
    · rwa [he] at h
    · rw [he] at h
      exact h

theorem Sound.step (hw : Sound w) {i : Choice} {p : Running} {c : Cmd} {k : Resp c → Client (Except String Unit)}
    (hp : w.procs.get pid = some p) (hr : p.rest = .await c k) : Sound ((machine configs).advance w pid i p c k) := by
  have hgrows : Grows w.st (exec configs i w.st c).1 := exec_grows i w.st c
  have hmay := hw.keeps.allowed hp hr
  have hlasting : ∀ q p', ((machine configs).advance w pid i p c k).procs.get q = some p' → ∀ e ∈ p'.hist,
      Lasting (exec configs i w.st c).1 e := by
    intro q p' hp' e he
    rcases Machine.advance_cases hp' with ⟨rfl, rfl⟩ | ⟨-, hp'⟩
    · rcases List.mem_append.1 he with he | he
      · exact hgrows.lasting (hw.lasting q p hp e he)
      · rw [List.mem_singleton.1 he]
        exact exec_lasting i w.st c
    · exact hgrows.lasting (hw.lasting q p' hp' e he)
  have htyped : ∀ inst scope, (exec configs i w.st c).1.Consumed inst scope →
      (exec configs i w.st c).1.typeOf (exchangeOf scope) = some (typeFor scope) := by
    intro inst scope hc
    rcases exec_consumed hc with hc | ⟨tag, rfl⟩
    · exact hgrows.types _ _ (hw.typed inst scope hc)
    · refine hgrows.types _ _ ?_
      -- the registration has asserted the exchange
      have hentry : (⟨.assertExchange inst (exchangeOf scope) (typeFor scope), .ok ()⟩ : Σ c : Cmd, Resp c) ∈ p.hist := by
        cases hx : p.call with
        | publish inst' event session =>
          rw [hx] at hmay
          exact hmay.elim
        | registerEventHandler inst' handler =>
          rw [hx] at hmay
          obtain ⟨rfl, rfl, hmem⟩ := hmay
          exact hmem
        | registerUniversalEventHandler inst' handler =>
          rw [hx] at hmay
          obtain ⟨rfl, rfl, hmem⟩ := hmay
          exact hmem
      exact hw.lasting pid p hp _ hentry
  by_cases hpub : ∃ inst x key event session, c = .publish inst x key event session
  · obtain ⟨inst, x, key, event, session, rfl⟩ := hpub
    rcases exec_publish configs i w.st inst x key event session with ⟨e, he⟩ | he
    · refine ⟨Machine.advance_obeys hw.keeps i hp hr, hlasting, htyped, ?_, ?_, ?_, ?_⟩ <;>
        dsimp only [Machine.advance, machine] <;> rw [he]
      · exact hw.numbers
      · exact hw.below
      · exact hw.placed
      · exact hw.unplaced
    · refine ⟨Machine.advance_obeys hw.keeps i hp hr, hlasting, htyped, ?_, ?_, ?_, ?_⟩ <;>
        dsimp only [Machine.advance, machine] <;> rw [he]
      · dsimp only
        rw [List.map_append, List.nodup_append]
        refine ⟨hw.numbers, List.nodup_singleton _, fun n hn n' hn' => ?_⟩
        obtain ⟨m, hm, rfl⟩ := List.mem_map.1 hn
        have hlt := hw.below m hm
        rw [List.mem_singleton.1 hn']
        dsimp only
        omega
      · intro m hm
        dsimp only at hm ⊢
        rcases List.mem_append.1 hm with hm | hm
        · exact Nat.lt_succ_of_lt (hw.below m hm)
        · rw [List.mem_singleton.1 hm]
          exact Nat.lt_succ_self _
      · intro e he'
        exact Nat.lt_succ_of_lt (hw.placed e he')
      · intro m hm e he'
        dsimp only at hm he'
        rcases List.mem_append.1 hm with hm | hm
        · exact hw.unplaced m hm e he'
        · have hlt := hw.placed e he'
          rw [List.mem_singleton.1 hm]
          dsimp only
          omega
  · have hsame : Untouched w.st (exec configs i w.st c).1 :=
      exec_untouched fun inst x key event session h => hpub ⟨inst, x, key, event, session, h⟩
    refine ⟨Machine.advance_obeys hw.keeps i hp hr, hlasting, htyped, ?_, ?_, ?_, ?_⟩ <;>
      dsimp only [Machine.advance, machine]
    · rw [hsame.flight]
      exact hw.numbers
    · rw [hsame.flight, hsame.sent]
      exact hw.below
    · rw [hsame.placed, hsame.sent]
      exact hw.placed
    · rw [hsame.flight, hsame.placed]
      exact hw.unplaced

/-- A message arrives, or there is none at the place. -/
theorem arrive_cases (s : System) (place : ℕ) : s.arrive place = s ∨ ∃ m, s.flight[place]? = some m ∧
    s.arrive place = { s with flight := s.flight.eraseIdx place
                              placed := s.placed ++ (s.targets m).map fun queue => (queue, m) } := by
  unfold System.arrive
  cases h : s.flight[place]? with
  | none => exact Or.inl rfl
  | some m => exact Or.inr ⟨m, rfl, rfl⟩

theorem mem_eraseIdx_of_ne {α : Type} {l : List α} {place : ℕ} {a b : α} (ha : l[place]? = some a) (hb : b ∈ l)
    (hne : b ≠ a) : b ∈ l.eraseIdx place := by
  obtain ⟨j, hj⟩ := List.mem_iff_getElem?.1 hb
  refine List.mem_eraseIdx_iff_getElem?.2 ⟨j, ?_, hj⟩
  rintro rfl
  rw [ha] at hj
  exact hne (Option.some.inj hj).symm

/-- A message that arrives is not in flight any more. -/
theorem erased_ne {l : List Message} {place : ℕ} {m : Message} (hl : (l.map Message.number).Nodup)
    (hm : l[place]? = some m) : ∀ m' ∈ l.eraseIdx place, m'.number ≠ m.number := by
  induction l generalizing place with
  | nil => cases hm
  | cons a l ih =>
    rw [List.map_cons, List.nodup_cons] at hl
    cases place with
    | zero =>
      cases hm
      intro m' hm' heq
      exact hl.1 (List.mem_map.2 ⟨m', hm', heq⟩)
    | succ place =>
      have hmem : m ∈ l := List.mem_of_getElem? hm
      intro m' hm' heq
      rw [List.eraseIdx_cons_succ] at hm'
      rcases List.mem_cons.1 hm' with rfl | hm'
      · exact hl.1 (List.mem_map.2 ⟨m, hmem, heq.symm⟩)
      · exact ih hl.2 hm m' hm' heq

theorem Sound.arrive (hw : Sound w) (place : ℕ) : Sound (⟨w.st.arrive place, w.procs⟩ : Calls) := by
  rcases arrive_cases w.st place with he | ⟨m, hm, he⟩
  · rw [he]
    exact hw
  · have hgrows : Grows w.st (w.st.arrive place) := by
      rw [he]
      exact ⟨fun _ _ h => h, fun _ h => h, fun _ h => h, fun _ _ h => h⟩
    have hsub : ∀ m' ∈ w.st.flight.eraseIdx place, m' ∈ w.st.flight := fun m' h => (List.eraseIdx_sublist _ _).subset h
    refine ⟨hw.keeps, fun q p hp e hmem => hgrows.lasting (hw.lasting q p hp e hmem), fun inst scope hc => ?_,
      ?_, ?_, ?_, ?_⟩
    · rw [he] at hc ⊢
      exact hw.typed inst scope hc
    · rw [he]
      exact hw.numbers.sublist ((List.eraseIdx_sublist _ _).map _)
    · rw [he]
      exact fun m' h => hw.below m' (hsub m' h)
    · rw [he]
      intro e hmem
      rcases List.mem_append.1 hmem with h | h
      · exact hw.placed e h
      · obtain ⟨queue, -, rfl⟩ := List.mem_map.1 h
        exact hw.below m (List.mem_of_getElem? hm)
    · rw [he]
      intro m' hm' e hmem
      rcases List.mem_append.1 hmem with h | h
      · exact hw.unplaced m' (hsub m' hm') e h
      · obtain ⟨queue, -, rfl⟩ := List.mem_map.1 h
        exact (erased_ne hw.numbers hm m' hm').symm

end Sound

/-! ## The statement -/

/-- How often the message with this number has been put into the queue. -/
def System.puts (s : System) (queue : String) (n : ℕ) : ℕ :=
  s.placed.countP fun e => e.1 = queue ∧ e.2.number = n

/-- An enabled handler with this id has been registered for the scope, by any instance. -/
def Registered (w : Calls) (scope : Option String) (id : String) : Prop :=
  ∃ q p, w.procs.get q = some p ∧ p.result = some (.ok ()) ∧ ∃ inst, match scope with
    | none => p.call = .registerUniversalEventHandler inst ⟨id, false⟩
    | some name => p.call = .registerEventHandler inst ⟨⟨id, false⟩, name⟩

/-- **Nothing is dropped**: once a publication has returned and its messages have arrived, each handler that
had been registered when it began, universally or for the name of the event, has the event once in its queue. -/
def ExactlyOnce (configs : ℕ → Configs) (w₀ : Calls) (es : List Step) : Prop :=
  ∀ v pid inst event session u, es = v ++ .call pid (.publish inst event session) :: u →
    ((machine configs).run w₀ v).procs.get pid = none →
    ∀ p, ((machine configs).run w₀ es).procs.get pid = some p → p.result = some (.ok ()) →
    (∀ m ∈ ((machine configs).run w₀ es).st.flight, m.number ∉ numbersOf p.hist) →
    ∀ scope, scope = none ∨ scope = some event.name → ∀ id, Registered ((machine configs).run w₀ v) scope id →
      ((numbersOf p.hist).map (((machine configs).run w₀ es).st.puts id)).sum = 1

/-- **The condition** on a step: an instance that publishes has itself registered a universal handler, and one
for the event, if any instance has; and when a message arrives, no queue is bound both to the universal
exchange and to that of its event. -/
def Covered (w : Calls) : Step → Prop
  | .call _ (.publish inst event _) => ∀ scope, scope = none ∨ scope = some event.name →
      ∀ inst', w.st.Consumed inst' scope → w.st.Consumed inst scope
  | .env place => ∀ m, w.st.flight[place]? = some m → m.content.name ≠ UNIVERSAL_EXCHANGE → ∀ queue,
      ¬ (w.st.Routes UNIVERSAL_EXCHANGE "" queue ∧ w.st.Routes m.content.name m.content.name queue)
  | _ => True

/-! ## One publication and one handler -/

/-- What holds of a message of the publication with the number `n`, sent to the scope `aim`, for a handler of
the scope `scope`. -/
structure Tracked (s : System) (event : Event) (id : String) (scope aim : Option String) (n : ℕ) : Prop where
  scopes : aim = none ∨ aim = some event.name
  lt : n < s.sent
  typed : s.typeOf (exchangeOf aim) = some (typeFor aim)
  flying : ∀ m ∈ s.flight, m.number = n → m.exchange = exchangeOf aim ∧ m.key = keyOf aim ∧ m.content = event
  landed : (∀ m ∈ s.flight, m.number ≠ n) → s.puts id n = if aim = scope then 1 else 0

/-- **The invariant** of a publication, for one handler that had been registered when it began. -/
structure Aimed (event : Event) (inst : ℕ) (id : String) (scope : Option String) (pid : ℕ) (w : Calls) : Prop where
  sound : Sound w
  routed : w.st.Routes (exchangeOf scope) (keyOf scope) id
  queue : id ∈ w.st.queues.keys
  typed : w.st.typeOf (exchangeOf scope) = some (typeFor scope)
  consumed : w.st.Consumed inst scope
  call : ∃ p session, w.procs.get pid = some p ∧ p.call = .publish inst event session
  universal : ∀ p, w.procs.get pid = some p → scope = none → ∀ b, ⟨.haveUniversalConsumer inst, b⟩ ∈ p.hist → b = true
  consumer : ∀ p, w.procs.get pid = some p → scope = some event.name → ∀ b,
    ⟨.haveConsumer inst event.name, b⟩ ∈ p.hist → b = true
  tracked : ∀ p, w.procs.get pid = some p → ∀ inst' x k event' session n,
    ⟨.publish inst' x k event' session, .ok n⟩ ∈ p.hist → ∃ aim, x = exchangeOf aim ∧ k = keyOf aim ∧
      Tracked w.st event id scope aim n

section Aimed

variable {w : Calls} {event : Event} {inst pid : ℕ} {id : String} {scope : Option String}

/-- What a completed registration has left. -/
theorem Sound.registered (hw : Sound w) (h : Registered w scope id) :
    w.st.Routes (exchangeOf scope) (keyOf scope) id ∧ id ∈ w.st.queues.keys ∧
      w.st.typeOf (exchangeOf scope) = some (typeFor scope) ∧ ∃ inst, w.st.Consumed inst scope := by
  obtain ⟨q, p, hp, hresult, inst, hcall⟩ := h
  have hbound : Bound inst id scope p.hist := by
    have hfin := hw.keeps.returned hp hresult
    cases scope with
    | none =>
      have hcall' : p.call = .registerUniversalEventHandler inst ⟨id, false⟩ := hcall
      rw [hcall'] at hfin
      exact hfin rfl
    | some name =>
      have hcall' : p.call = .registerEventHandler inst ⟨⟨id, false⟩, name⟩ := hcall
      rw [hcall'] at hfin
      exact hfin rfl
  obtain ⟨queue, tag, hexchange, hqueue, hbind, hrecord⟩ := hbound.done
  have htype : w.st.typeOf (exchangeOf scope) = some (typeFor scope) := hw.lasting q p hp _ hexchange
  obtain ⟨rfl, hkeys⟩ : queue = id ∧ id ∈ w.st.queues.keys := hw.lasting q p hp _ hqueue
  have hbinding : (⟨queue, exchangeOf scope, keyOf scope⟩ : Binding) ∈ w.st.bindings := hw.lasting q p hp _ hbind
  refine ⟨⟨_, hbinding, rfl, rfl, ?_⟩, hkeys, htype, inst, hw.lasting q p hp _ hrecord⟩
  cases scope with
  | none => exact Or.inl htype
  | some name => exact Or.inr ⟨htype, rfl⟩

/-- The publication begins. -/
theorem Sound.aims (hw : Sound w) (hscope : scope = none ∨ scope = some event.name) (h : Registered w scope id)
    {session : String} (hcovered : Covered w (.call pid (.publish inst event session))) :
    Aimed event inst id scope pid ((machine configs).begin w pid (.publish inst event session)) := by
  obtain ⟨hroutes, hqueue, htype, inst', hconsumed⟩ := hw.registered h
  have hself : ∀ p, ((machine configs).begin w pid (.publish inst event session)).procs.get pid = some p →
      p.hist = [] := by
    intro p hp
    have hget : ((machine configs).begin w pid (.publish inst event session)).procs.get pid =
        some ⟨.publish inst event session, [], (machine configs).prog (.publish inst event session)⟩ :=
      OMap.get_set_self ..
    rw [hget] at hp
    cases hp
    rfl
  refine ⟨hw.call _, hroutes, hqueue, htype, hcovered scope hscope inst' hconsumed,
    ⟨_, session, OMap.get_set_self .., rfl⟩, fun p hp _ b hb => ?_, fun p hp _ b hb => ?_,
    fun p hp _ _ _ _ _ n hn => ?_⟩
  · rw [hself p hp] at hb
    cases hb
  · rw [hself p hp] at hb
    cases hb
  · rw [hself p hp] at hn
    cases hn

/-- Another call begins. -/
theorem Aimed.begins (hw : Aimed event inst id scope pid w) {q : ℕ} {x : Call} (hn : w.procs.get q = none) :
    Aimed event inst id scope pid ((machine configs).begin w q x) := by
  obtain ⟨p₀, session, hp₀, hcall⟩ := hw.call
  have hget : ((machine configs).begin w q x).procs.get pid = w.procs.get pid := by
    rw [hp₀]
    exact Machine.begin_stays hn hp₀
  refine ⟨hw.sound.call x, hw.routed, hw.queue, hw.typed, hw.consumed, ?_, ?_, ?_, ?_⟩ <;> rw [hget]
  · exact hw.call
  · exact hw.universal
  · exact hw.consumer
  · exact hw.tracked

/-- What is known of a message lasts while nothing arrives. -/
theorem Tracked.moves {s : System} {aim : Option String} {n : ℕ} (h : Tracked s event id scope aim n) (i : Choice)
    (c : Cmd) : Tracked (exec configs i s c).1 event id scope aim n := by
  have hgrows : Grows s (exec configs i s c).1 := exec_grows i s c
  have htyped := hgrows.types _ _ h.typed
  by_cases hpub : ∃ inst x key event session, c = .publish inst x key event session
  · obtain ⟨inst, x, key, event', session, rfl⟩ := hpub
    rcases exec_publish configs i s inst x key event' session with ⟨e, he⟩ | he
    · rw [he]
      exact h
    · rw [he] at htyped ⊢
      refine ⟨h.scopes, Nat.lt_succ_of_lt h.lt, htyped, fun m hm hn => ?_, fun hnot => ?_⟩
      · rcases List.mem_append.1 hm with hm | hm
        · exact h.flying m hm hn
        · have hlt := h.lt
          rw [List.mem_singleton.1 hm] at hn
          dsimp only at hn
          omega
      · exact h.landed fun m hm => hnot m (List.mem_append_left _ hm)
  · have hsame : Untouched s (exec configs i s c).1 :=
      exec_untouched fun inst x key event session h => hpub ⟨inst, x, key, event, session, h⟩
    refine ⟨h.scopes, ?_, htyped, ?_, ?_⟩
    · rw [hsame.sent]
      exact h.lt
    · rw [hsame.flight]
      exact h.flying
    · rw [hsame.flight, System.puts, hsame.placed]
      exact h.landed

/-- A call executes a command. -/
theorem Aimed.moves (hw : Aimed event inst id scope pid w) {q : ℕ} {i : Choice} {p : Running} {c : Cmd}
    {k : Resp c → Client (Except String Unit)} (hp : w.procs.get q = some p) (hr : p.rest = .await c k) :
    Aimed event inst id scope pid ((machine configs).advance w q i p c k) := by
  have hgrows : Grows w.st (exec configs i w.st c).1 := exec_grows i w.st c
  obtain ⟨p₀, session, hp₀, hcall⟩ := hw.call
  -- an entry of the history is an old one, or the command of this call
  have hentry : ∀ p₁, ((machine configs).advance w q i p c k).procs.get pid = some p₁ → ∀ e ∈ p₁.hist,
      (∃ p₂, w.procs.get pid = some p₂ ∧ e ∈ p₂.hist) ∨
        q = pid ∧ e = ⟨c, (exec configs i w.st c).2⟩ := by
    intro p₁ hp₁ e he
    rcases Machine.advance_cases hp₁ with ⟨hq, rfl⟩ | ⟨-, hp₁⟩
    · rcases List.mem_append.1 he with he | he
      · exact Or.inl ⟨p, hq ▸ hp, he⟩
      · exact Or.inr ⟨hq.symm, List.mem_singleton.1 he⟩
    · exact Or.inl ⟨p₁, hp₁, he⟩
  refine ⟨hw.sound.step hp hr, hgrows.routes hw.routed, hgrows.queues _ hw.queue, hgrows.types _ _ hw.typed,
    hgrows.consumed _ _ hw.consumed, ?_, fun p₁ hp₁ hscope b hb => ?_, fun p₁ hp₁ hscope b hb => ?_,
    fun p₁ hp₁ inst' x key event' session' n hn => ?_⟩
  · by_cases hq : pid = q
    · subst hq
      obtain rfl := Option.some.inj (hp.symm.trans hp₀)
      exact ⟨_, session, Machine.get_advance_self, hcall⟩
    · exact ⟨p₀, session, (Machine.get_advance_ne hq).trans hp₀, hcall⟩
  · rcases hentry p₁ hp₁ _ hb with ⟨p₂, hp₂, hmem⟩ | ⟨-, heq⟩
    · exact hw.universal p₂ hp₂ hscope b hmem
    · cases heq
      subst hscope
      exact hw.consumed
  · rcases hentry p₁ hp₁ _ hb with ⟨p₂, hp₂, hmem⟩ | ⟨-, heq⟩
    · exact hw.consumer p₂ hp₂ hscope b hmem
    · cases heq
      subst hscope
      exact decide_eq_true hw.consumed
  · rcases hentry p₁ hp₁ _ hn with ⟨p₂, hp₂, hmem⟩ | ⟨rfl, heq⟩
    · obtain ⟨aim, hx, hkey, htracked⟩ := hw.tracked p₂ hp₂ inst' x key event' session' n hmem
      exact ⟨aim, hx, hkey, htracked.moves i c⟩
    · -- the message is sent now
      obtain rfl := Option.some.inj (hp.symm.trans hp₀)
      have hmay := hw.sound.keeps.allowed hp hr
      rw [hcall] at hmay
      obtain rfl : c = .publish inst' x key event' session' := (congrArg Sigma.fst heq).symm
      have hresp : .ok n = (exec configs i w.st (.publish inst' x key event' session')).2 := eq_of_heq (Sigma.mk.inj heq).2
      obtain ⟨rfl, aim, haim, rfl, rfl, hasserted⟩ := hmay
      refine ⟨aim, rfl, rfl, ?_⟩
      have htyped := hw.sound.lasting _ _ hp _ hasserted
      rcases exec_publish configs i w.st inst' (exchangeOf aim) (keyOf aim) event' session' with ⟨e, he⟩ | he
      · rw [he] at hresp
        cases hresp
      · show Tracked (exec configs i w.st (.publish inst' (exchangeOf aim) (keyOf aim) event' session')).1 _ _ _ _ _
        rw [he] at hresp ⊢
        cases hresp
        refine ⟨haim, Nat.lt_succ_self _, htyped, fun m hm hnumber => ?_, fun hnot => ?_⟩
        · rcases List.mem_append.1 hm with hm | hm
          · have hlt := hw.sound.below m hm
            omega
          · rw [List.mem_singleton.1 hm]
            exact ⟨rfl, rfl, rfl⟩
        · exact absurd rfl (hnot _ (List.mem_append_right _ (List.mem_singleton_self _)))

theorem countP_targets (l : List String) (m : Message) (n : ℕ) :
    (l.map fun queue => (queue, m)).countP (fun e => e.1 = id ∧ e.2.number = n) =
      if m.number = n then l.count id else 0 := by
  rw [List.countP_map]
  by_cases hn : m.number = n
  · rw [if_pos hn, List.count]
    refine List.countP_congr fun q _ => ?_
    simp [hn]
  · rw [if_neg hn, List.countP_eq_zero]
    simp [hn]

/-- Each queue that the message is routed to gets it once. -/
theorem count_targets (s : System) (m : Message) (hqueue : id ∈ s.queues.keys) :
    (s.targets m).count id = if s.Routes m.exchange m.key id then 1 else 0 := by
  have hnodup : (s.targets m).Nodup := s.queues.keys_nodup.filter _
  split
  · rename_i hroutes
    exact List.count_eq_one_of_mem hnodup (List.mem_filter.2 ⟨hqueue, decide_eq_true hroutes⟩)
  · rename_i hroutes
    refine List.count_eq_zero_of_not_mem fun hmem => hroutes ?_
    exact of_decide_eq_true (List.mem_filter.1 hmem).2

/-- A message arrives. -/
theorem Aimed.arrives (hw : Aimed event inst id scope pid w) (hscope : scope = none ∨ scope = some event.name)
    {place : ℕ} (hcovered : Covered w (.env place)) :
    Aimed event inst id scope pid (⟨w.st.arrive place, w.procs⟩ : Calls) := by
  have hsound := hw.sound.arrive place
  rcases arrive_cases w.st place with he | ⟨m, hm, he⟩
  · rw [he]
    exact hw
  · have hgrows : Grows w.st (w.st.arrive place) := by
      rw [he]
      exact ⟨fun _ _ h => h, fun _ h => h, fun _ h => h, fun _ _ h => h⟩
    refine ⟨hsound, hgrows.routes hw.routed, hgrows.queues _ hw.queue, hgrows.types _ _ hw.typed,
      hgrows.consumed _ _ hw.consumed, hw.call, hw.universal, hw.consumer,
      fun p hp inst' x key event' session' n hn => ?_⟩
    obtain ⟨aim, hx, hkey, htracked⟩ := hw.tracked p hp inst' x key event' session' n hn
    refine ⟨aim, hx, hkey, htracked.scopes, ?_, hgrows.types _ _ htracked.typed, ?_, ?_⟩
    · rw [he]
      exact htracked.lt
    · rw [he]
      exact fun m' hm' hnumber => htracked.flying m' ((List.eraseIdx_sublist _ _).subset hm') hnumber
    · have hputs : (w.st.arrive place).puts id n =
          w.st.puts id n + if m.number = n then (w.st.targets m).count id else 0 := by
        rw [he]
        unfold System.puts
        rw [List.countP_append, countP_targets]
      rw [hputs]
      have hmem : m ∈ w.st.flight := List.mem_of_getElem? hm
      by_cases hnumber : m.number = n
      · -- the message itself: it has not been placed before
        intro _
        have hzero : w.st.puts id n = 0 := by
          unfold System.puts
          rw [List.countP_eq_zero]
          intro e hmem'
          have hne := hw.sound.unplaced m hmem e hmem'
          simp only [decide_eq_true_eq, not_and]
          intro _
          omega
        obtain ⟨hexchange, hkey', hcontent⟩ := htracked.flying m hmem hnumber
        rw [if_pos hnumber, hzero, Nat.zero_add, count_targets _ _ hw.queue, hexchange, hkey']
        by_cases haim : aim = scope
        · rw [if_pos haim, haim, if_pos hw.routed]
        · rw [if_neg haim, if_neg]
          intro hroutes
          have htyped := hw.typed
          have htyped' := htracked.typed
          have hrouted := hw.routed
          -- one of the two scopes is the universal one, the other that of the event
          rcases hscope with rfl | rfl
          · rcases htracked.scopes with rfl | rfl
            · exact haim rfl
            · have hname : event.name ≠ UNIVERSAL_EXCHANGE := by
                intro hname
                have h1 : w.st.typeOf event.name = some .direct := htyped'
                rw [hname] at h1
                have h2 : w.st.typeOf UNIVERSAL_EXCHANGE = some .fanout := htyped
                rw [h1] at h2
                cases h2
              exact hcovered m hm (hcontent ▸ hname) id ⟨hrouted, hcontent ▸ hroutes⟩
          · rcases htracked.scopes with rfl | rfl
            · have hname : event.name ≠ UNIVERSAL_EXCHANGE := by
                intro hname
                have h1 : w.st.typeOf event.name = some .direct := htyped
                rw [hname] at h1
                have h2 : w.st.typeOf UNIVERSAL_EXCHANGE = some .fanout := htyped'
                rw [h1] at h2
                cases h2
              exact hcovered m hm (hcontent ▸ hname) id ⟨hroutes, hcontent ▸ hrouted⟩
            · exact haim rfl
      · intro hnot
        rw [if_neg hnumber, Nat.add_zero]
        refine htracked.landed fun m' hm' => ?_
        by_cases hsame : m' = m
        · rw [hsame]
          exact hnumber
        · refine hnot m' ?_
          rw [he]
          exact mem_eraseIdx_of_ne hm hm' hsame

end Aimed

/-- What has been sent to the universal exchange has the universal scope, what has been sent to the event's the
scope of the event. -/
theorem aim_unique {aim : Option String} {name : String} (haim : aim = none ∨ aim = some name) :
    (UNIVERSAL_EXCHANGE = exchangeOf aim → "" = keyOf aim → aim = none) ∧
      (name = exchangeOf aim → name = keyOf aim → aim = some name) := by
  have hne : UNIVERSAL_EXCHANGE ≠ "" := by decide
  rcases haim with rfl | rfl
  · refine ⟨fun _ _ => rfl, fun hx hk => ?_⟩
    have hx' : name = UNIVERSAL_EXCHANGE := hx
    have hk' : name = "" := hk
    exact absurd (hx'.symm.trans hk') hne
  · refine ⟨fun hx hk => ?_, fun _ _ => rfl⟩
    have hx' : UNIVERSAL_EXCHANGE = name := hx
    have hk' : "" = name := hk
    exact absurd (hx'.trans hk'.symm) hne

/-- **No event is dropped** in a covered run. -/
theorem exactly_once {exchanges : OMap String Exchange} {queues : OMap String Bool} {bindings : List Binding}
    {es : List Step} (hes : (machine configs).Along Covered (Pool.init (.start exchanges queues bindings)) es) :
    ExactlyOnce configs (Pool.init (.start exchanges queues bindings)) es := by
  intro v pid inst event session u heq hnone p hp hresult harrived scope hscope id hregistered
  rw [heq] at hes hp harrived ⊢
  obtain ⟨hv, hcall, hu⟩ := Machine.Along.append.1 hes
  rw [Machine.run_append, Machine.run_cons] at hp harrived ⊢
  have hsound : Sound ((machine configs).run (Pool.init (.start exchanges queues bindings)) v) :=
    Machine.run_inv (G := Covered) (fun w q x hw _ _ => hw.call x) (fun w q i p c k hw _ hp hr => hw.step hp hr)
      (fun w place hw _ => hw.arrive place) (sound_init exchanges queues bindings) hv
  set w₁ := (machine configs).run (Pool.init (.start exchanges queues bindings)) v with hw₁
  have hbegin : (machine configs).step w₁ (.call pid (.publish inst event session)) =
      (machine configs).begin w₁ pid (.publish inst event session) := by
    simp [Machine.step, hnone]
  rw [hbegin] at hu hp harrived ⊢
  have haimed : Aimed event inst id scope pid
      ((machine configs).run ((machine configs).begin w₁ pid (.publish inst event session)) u) :=
    Machine.run_inv (G := Covered) (fun w q x hw _ hn => hw.begins hn) (fun w q i p c k hw _ hp hr => hw.moves hp hr)
      (fun w place hw hG => hw.arrives hscope hG) (hsound.aims hscope hregistered hcall) hu
  set w₂ := (machine configs).run ((machine configs).begin w₁ pid (.publish inst event session)) u with hw₂
  -- the publication has returned
  obtain ⟨p', session', hp', hcall'⟩ := haimed.call
  obtain rfl := Option.some.inj (hp.symm.trans hp')
  have hfin := haimed.sound.keeps.returned hp hresult
  rw [hcall'] at hfin
  obtain ⟨universal, consumer, n₁, n₂, huniversal, hconsumer, hsent₁, hsent₂, hnumbers⟩ := hfin.done
  rw [hnumbers] at harrived ⊢
  have hputs₁ : universal = true → w₂.st.puts id n₁ = if none = scope then 1 else 0 := by
    intro htrue
    obtain ⟨aim, hx, hk, htracked⟩ := haimed.tracked p hp _ _ _ _ _ _ (hsent₁ htrue)
    obtain rfl := (aim_unique htracked.scopes).1 hx hk
    refine htracked.landed fun m hm hnumber => harrived m hm ?_
    rw [hnumber, htrue]
    simp
  have hputs₂ : consumer = true → w₂.st.puts id n₂ = if some event.name = scope then 1 else 0 := by
    intro htrue
    obtain ⟨aim, hx, hk, htracked⟩ := haimed.tracked p hp _ _ _ _ _ _ (hsent₂ htrue)
    obtain rfl := (aim_unique htracked.scopes).2 hx hk
    refine htracked.landed fun m hm hnumber => harrived m hm ?_
    rw [hnumber, htrue]
    simp
  rcases hscope with rfl | rfl
  · have htrue := haimed.universal p hp rfl universal huniversal
    have h1 := hputs₁ htrue
    rw [htrue]
    cases hc : consumer with
    | false => simp [h1]
    | true => simp [h1, hputs₂ hc]
  · have htrue := haimed.consumer p hp rfl consumer hconsumer
    have h2 := hputs₂ htrue
    rw [htrue]
    cases hu' : universal with
    | false => simp [h2]
    | true => simp [h2, hputs₁ hu']

/-- The world refuses nothing. -/
def agreed : Choice := ⟨false, "tag"⟩

/-- One process registers a handler and publishes the event; the message arrives. -/
def oneProcess : List Step :=
  .call 1 (.registerEventHandler 0 ⟨⟨"h", false⟩, "e"⟩) :: List.replicate 6 (.step 1 agreed) ++
    .call 2 (.publish 0 ⟨"e", "{}"⟩ "s") :: List.replicate 5 (.step 2 agreed) ++ [.env 0]

theorem one_process_once : ExactlyOnce (fun _ => ⟨none⟩) (Pool.init (.start .empty .empty [])) oneProcess := by
  refine exactly_once ⟨trivial, trivial, trivial, trivial, trivial, trivial, trivial, ?_, trivial, trivial, trivial,
    trivial, trivial, ?_, trivial⟩
  · rintro scope (rfl | rfl) inst' h
    · by_cases hinst : inst' = 0
      · subst hinst
        revert h
        simp only [System.Consumed]
        decide +kernel
      · -- no other instance has recorded anything
        have hinstances :
            ((machine fun _ => ⟨none⟩).run (Pool.init (.start .empty .empty [])) (oneProcess.take 7)).st.instances =
            Function.update (fun _ => ⟨false, false, [], []⟩) 0 ⟨false, false, ["tag"], ["e"]⟩ := rfl
        have hother := congrFun hinstances inst'
        rw [Function.update_of_ne hinst] at hother
        have htrue := (congrArg Instance.haveAtLeastOneUniversalConsumer hother).symm.trans h
        cases htrue
    · simp only [System.Consumed]
      decide +kernel
  · rintro m hm _ queue ⟨⟨b, hb, -, hx, -⟩, -⟩
    have hbinding : b = ⟨"h", "e", "e"⟩ := List.mem_singleton.1 hb
    rw [hbinding] at hx
    revert hx
    decide

/-- One process registers a universal handler, another one publishes. -/
def twoProcesses : List Step :=
  .call 1 (.registerUniversalEventHandler 0 ⟨"h", false⟩) :: List.replicate 6 (.step 1 agreed) ++
    .call 2 (.publish 1 ⟨"e", "{}"⟩ "s") :: List.replicate 3 (.step 2 agreed)

/-- **The event is dropped**: the publication returns, and nothing has been sent. -/
theorem dropped_between_processes :
    ¬ ExactlyOnce (fun _ => ⟨none⟩) (Pool.init (.start .empty .empty [])) twoProcesses := by
  intro h
  have hsum := h (twoProcesses.take 7) 2 1 ⟨"e", "{}"⟩ "s" (List.replicate 3 (.step 2 agreed)) rfl rfl _ rfl rfl
    (fun m hm => by cases hm) none (Or.inl rfl) "h" ⟨1, _, rfl, rfl, 0, rfl⟩
  revert hsum
  decide +kernel

end NodeToolkit.Rabbitmq
