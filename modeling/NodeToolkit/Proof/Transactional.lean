import Mathlib.Data.List.Induction
import NodeToolkit.Spec.Transactional

/-!
# Transactions balance

Calls of `Transactional` methods, interleaved at their awaits, whose sessions may share a correlation id.

* `Stage`: how far a call is, read off its history; `transactional_follows`: each call runs through the stages.
* `Undisturbed`: no call puts its session over, or removes, one that is still in use, and a session is not
  in a transaction of another call when its creator starts its own or ends it.
* `Holds`: what the map and the driver have for a call at each stage; `Sound`: and for all calls together.
* `transactions_balance`: undisturbed runs balance; `overlap_leaks_session`: overlapping calls of one
  correlation id need not.
-/

namespace NodeToolkit.Transactional

open Async

/-! ## The stages of a call -/

/-- How far a call is: `own` is the session it has created, if it has. -/
inductive Stage where
  | new
  | rejected
  | creating
  | created (c : ℕ)
  | starting (c : ℕ)
  | running (own : Option ℕ) (t : Transaction)
  | settled (own : Option ℕ) (t : Transaction) (result : Outcome)
  | answering (own : Option ℕ) (t : Transaction) (result : Outcome)
  | finished (own : Option ℕ) (t : Transaction) (result : Outcome)
  | ended (c : ℕ) (t : Transaction) (result : Outcome)
  | done (c : ℕ) (t : Transaction) (result : Outcome)
  /-- The call has met a session it did not expect. -/
  | broken

/-- What a method makes of its transaction. -/
def ends : Outcome → TxnState
  | .ok _ => .committed
  | .error _ => .aborted

/-- The correlation id of the session that a call uses. -/
def idOf (args : List Argument) : String := (sessionOf args).getD ""

namespace Stage

def next : Stage → (c : Cmd) → Resp c → Stage
  | .new, .enter _, none => .creating
  | .new, .enter _, some (.error _) => .rejected
  | .new, .enter _, some (.ok t) => .running none t
  | .creating, .createSession, .error _ => .rejected
  | .creating, .createSession, .ok c => .created c
  | .created c, .setSession _ _, _ => .starting c
  | .starting c, .startTransaction _, .ok t => .running (some c) t
  | .running own t, .method _, result => .settled own t result
  | .settled own t result, .finish _ _, .ok ⟨_, true⟩ => .finished own t result
  | .settled own t result, .finish _ _, .ok ⟨c, false⟩ =>
    if c = t.clientSession then .answering own t result else .broken
  | .answering own t result, .answer _ _, .ok _ => .finished own t result
  | .finished (some c) t result, .endSession _, .ok ⟨_, true⟩ => .ended c t result
  | .ended c t result, .deleteSession _, _ => .done c t result
  | _, _, _ => .broken

/-- What a call may do at a stage. -/
def may (args : List Argument) : Stage → Cmd → Prop
  | .new, .enter id => id = idOf args
  | .creating, .createSession => True
  | .created c, .setSession id c' => id = idOf args ∧ c' = c
  | .starting _, .startTransaction id => id = idOf args
  | .running _ _, .method _ => True
  | .settled _ _ result, .finish id target => id = idOf args ∧ target = ends result
  | .answering _ t result, .answer c target => c = t.clientSession ∧ target = ends result
  | .finished (some _) _ _, .endSession id => id = idOf args
  | .ended _ _ _, .deleteSession id => id = idOf args
  | .broken, _ => True
  | _, _ => False

/-- What a call may return at a stage. -/
def fin : Stage → Outcome → Prop
  | .new, _ => True
  | .rejected, _ => True
  | .finished none _ result, r => r = result
  | .done _ _ result, r => r = result
  | .broken, _ => True
  | _, _ => False

/-- The session a call has created. -/
def own : Stage → Option ℕ
  | .created c => some c
  | .starting c => some c
  | .running own _ => own
  | .settled own _ _ => own
  | .answering own _ _ => own
  | .finished own _ _ => own
  | .ended c _ _ => some c
  | .done c _ _ => some c
  | _ => none

/-- The session that a call has put into the map and not deleted. -/
def holder : Stage → Option ℕ
  | .starting c => some c
  | .running own _ => own
  | .settled own _ _ => own
  | .answering own _ _ => own
  | .finished own _ _ => own
  | .ended c _ _ => some c
  | _ => none

/-- The transaction a call has started. -/
def transaction : Stage → Option Transaction
  | .running _ t => some t
  | .settled _ t _ => some t
  | .answering _ t _ => some t
  | .finished _ t _ => some t
  | .ended _ t _ => some t
  | .done _ t _ => some t
  | _ => none

/-- What the method has done. -/
def outcome : Stage → Option Outcome
  | .settled _ _ result => some result
  | .answering _ _ result => some result
  | .finished _ _ result => some result
  | .ended _ _ result => some result
  | .done _ _ result => some result
  | _ => none

@[simp] theorem next_broken (c : Cmd) (r : Resp c) : Stage.broken.next c r = .broken := by
  cases c <;> rfl

end Stage

/-- A call as a protocol over its stages. -/
def protocol (args : List Argument) : Protocol Resp Stage Outcome := ⟨Stage.may args, Stage.next, Stage.fin⟩

section Follows

variable {args : List Argument} {id : String}

theorem follows_broken (p : Client Outcome) : p.Follows (protocol args) .broken := by
  induction p with
  | ret a => exact trivial
  | await c k ih =>
    refine ⟨trivial, fun r => ?_⟩
    have hnext : (protocol args).next .broken c r = .broken := Stage.next_broken c r
    rw [hnext]
    exact ih r

/-- Committing or aborting, and what comes after it. -/
theorem follows_finish {own : Option ℕ} {t : Transaction} (result : Outcome) (hid : id = idOf args)
    {f : Except Thrown Unit → Client Outcome} (hok : (f (.ok ())).Follows (protocol args) (.finished own t result)) :
    (finish (ends result) id >>= f).Follows (protocol args) (.settled own t result) := by
  refine ⟨⟨hid, rfl⟩, fun handled => ?_⟩
  match handled with
  | .error e => exact follows_broken _
  | .ok ⟨_, true⟩ => exact hok
  | .ok ⟨c, false⟩ =>
    by_cases hc : c = t.clientSession
    · have hnext : Stage.next (.settled own t result) (.finish id (ends result)) (.ok ⟨c, false⟩) =
          .answering own t result := if_pos hc
      dsimp only [protocol]
      rw [hnext]
      refine ⟨⟨hc, rfl⟩, fun answer => ?_⟩
      match answer with
      | .error e => exact follows_broken _
      | .ok () => exact hok
    · have hnext : Stage.next (.settled own t result) (.finish id (ends result)) (.ok ⟨c, false⟩) =
          .broken := if_neg hc
      dsimp only [protocol]
      rw [hnext]
      exact follows_broken _

/-- The method, what is made of its transaction, and what comes after it. -/
theorem follows_attempt (own : Option ℕ) {t : Transaction} (hid : id = idOf args)
    {f : Outcome → Client Outcome} (hf : ∀ result, (f result).Follows (protocol args) (.finished own t result)) :
    (attempt id args >>= f).Follows (protocol args) (.running own t) := by
  refine ⟨trivial, fun result => ?_⟩
  have hrollback : ∀ {e : Thrown}, (rollback id e >>= f).Follows (protocol args) (.settled own t (.error e)) := by
    intro e
    unfold rollback
    rw [Prog.bind_assoc]
    exact follows_finish (.error e) hid (hf (.error e))
  match result with
  | .error e => exact hrollback
  | .ok r =>
    show ((commitTransaction id >>= _) >>= f).Follows (protocol args) (.settled own t (.ok r))
    rw [Prog.bind_assoc]
    exact follows_finish (.ok r) hid (hf (.ok r))

theorem follows_owned {c : ℕ} (hid : id = idOf args) :
    (owned id args).Follows (protocol args) (.starting c) := by
  refine ⟨hid, fun started => ?_⟩
  match started with
  | .error e => exact follows_broken _
  | .ok t =>
    refine follows_attempt (some c) hid fun result => ⟨hid, fun handled => ?_⟩
    match handled with
    | .error e => exact follows_broken _
    | .ok ⟨_, true⟩ => exact ⟨hid, fun _ => rfl⟩
    | .ok ⟨_, false⟩ => exact follows_broken _

/-- **Every call runs through the stages.** -/
theorem transactional_follows (args : List Argument) : (transactional args).Follows (protocol args) .new := by
  unfold transactional
  match hsession : sessionOf args with
  | none => exact trivial
  | some id =>
    have hid : id = idOf args := by rw [idOf, hsession]; rfl
    refine ⟨hid, fun entered => ?_⟩
    match entered with
    | some (.error e) => exact trivial
    | some (.ok t) =>
      have h := follows_attempt none (t := t) hid (f := .ret) fun result => (rfl : result = result)
      rwa [Prog.bind_ret] at h
    | none =>
      refine ⟨trivial, fun created => ?_⟩
      match created with
      | .error e => exact trivial
      | .ok c => exact ⟨⟨hid, rfl⟩, fun _ => follows_owned hid⟩

end Follows

/-! ## What is asked of all calls -/

abbrev Calls : Type := Pool Resp Shared (List Argument) Outcome

abbrev Call : Type := Proc Resp (List Argument) Outcome

abbrev Step : Type := Ev Choice Empty (List Argument)

/-- The transaction that a command has started. -/
def startedBy : (Σ c : Cmd, Resp c) → Option Transaction
  | ⟨.enter _, some (.ok t)⟩ => some t
  | ⟨.startTransaction _, .ok t⟩ => some t
  | _ => none

/-- What the method has done, if the command is its execution. -/
def settledBy : (Σ c : Cmd, Resp c) → Option Outcome
  | ⟨.method _, result⟩ => some result
  | _ => none

/-- The transaction a call has started. -/
def transactionOf (h : Hist Resp) : Option Transaction := h.findSome? startedBy

/-- What the method of a call has done. -/
def outcomeOf (h : Hist Resp) : Option Outcome := h.findSome? settledBy

/-- The state of a transaction. -/
def Shared.stateOf (s : Shared) (t : Transaction) : Option TxnState := (s.sessions t.clientSession).transactions[t.number]?

/-- **The transactions balance**, since the state `s₀`. -/
structure Balanced (s₀ : Shared) (w : Calls) : Prop where
  /-- The map holds what it held. -/
  map : ∀ id, w.st.sessionRequestMap.get id = s₀.sessionRequestMap.get id
  /-- The sessions created since have been ended once. -/
  ended : ∀ c, s₀.created ≤ c → c < w.st.created → (w.st.sessions c).ended = 1
  /-- A call whose method resolved has committed its transaction. -/
  resolved : ∀ q p, w.procs.get q = some p → ∀ result, outcomeOf p.hist = some (.ok result) →
    ∃ t, transactionOf p.hist = some t ∧ w.st.stateOf t = some .committed ∧ p.result = some (.ok result)
  /-- A call whose method rejected has aborted its transaction, and rejects with the same error. -/
  rejected : ∀ q p, w.procs.get q = some p → ∀ e, outcomeOf p.hist = some (.error e) →
    ∃ t, transactionOf p.hist = some t ∧ w.st.stateOf t = some .aborted ∧ p.result = some (.error e)

/-- The session that the map holds for the id, if any, is not in a transaction. -/
def Idle (s : Shared) (id : String) : Prop :=
  ∀ c, s.sessionRequestMap.get id = some c → (s.sessions c).inTransaction = false

/-- The session that the map holds for the id, if any, has been ended and is not in a transaction. -/
def Released (s : Shared) (id : String) : Prop :=
  ∀ c, s.sessionRequestMap.get id = some c → (s.sessions c).ended ≠ 0 ∧ (s.sessions c).inTransaction = false

/-- A call starts its transaction on, and ends, a session that is in none, and the entry that it writes or
deletes is of a released session, if there is one. -/
def Permits (s : Shared) : Cmd → Prop
  | .setSession id _ => Released s id
  | .startTransaction id => Idle s id
  | .endSession id => Idle s id
  | .deleteSession id => Released s id
  | _ => True

/-- **The condition** on a step. -/
def Undisturbed (w : Calls) : Step → Prop
  | .step pid _ => ∀ p c, w.procs.get pid = some p → p.pending = some c → Permits w.st c
  | _ => True

instance (s : Shared) (id : String) : Decidable (Idle s id) :=
  inferInstanceAs (Decidable (∀ c ∈ s.sessionRequestMap.get id, (s.sessions c).inTransaction = false))

instance (s : Shared) (id : String) : Decidable (Released s id) :=
  inferInstanceAs (Decidable (∀ c ∈ s.sessionRequestMap.get id,
    (s.sessions c).ended ≠ 0 ∧ (s.sessions c).inTransaction = false))

instance (s : Shared) : ∀ c, Decidable (Permits s c)
  | .enter _ | .createSession | .method _ | .finish _ _ | .answer _ _ | .abortAndEnd _ =>
    inferInstanceAs (Decidable True)
  | .setSession id _ => inferInstanceAs (Decidable (Released s id))
  | .startTransaction id => inferInstanceAs (Decidable (Idle s id))
  | .endSession id => inferInstanceAs (Decidable (Idle s id))
  | .deleteSession id => inferInstanceAs (Decidable (Released s id))

instance (w : Calls) : ∀ e, Decidable (Undisturbed w e)
  | .call _ _ => inferInstanceAs (Decidable True)
  | .env _ => inferInstanceAs (Decidable True)
  | .step pid _ => decidable_of_iff (∀ p ∈ w.procs.get pid, ∀ c ∈ p.pending, Permits w.st c)
    ⟨fun h p c hp hc => h p hp c hc, fun h p hp c hc => h p c hp hc⟩

/-- The sessions in the map are sessions of the driver. -/
def Shared.Valid (s : Shared) : Prop := ∀ id c, s.sessionRequestMap.get id = some c → c < s.created

/-! ## What the map and the driver have for one call -/

/-- The session `c` that a call has put into the map under `id`, until it ends it. -/
structure Mine (s₀ s : Shared) (id : String) (c : ℕ) : Prop where
  connected : s.connected = true
  unused : s₀.sessionRequestMap.get id = none
  here : s.sessionRequestMap.get id = some c
  old : s₀.created ≤ c
  lt : c < s.created
  ended : (s.sessions c).ended = 0

/-- The transaction `t` of a call, while it is in progress. -/
structure Open (s₀ s : Shared) (id : String) (own : Option ℕ) (t : Transaction) : Prop where
  connected : s.connected = true
  here : s.sessionRequestMap.get id = some t.clientSession
  length : (s.sessions t.clientSession).transactions.length = t.number + 1
  active : (s.sessions t.clientSession).inTransaction = true
  lt : t.clientSession < s.created
  mine : ∀ c, own = some c → Mine s₀ s id c

/-- The transaction `t` of a call, once its method's outcome has been carried out. -/
structure Closed (s : Shared) (t : Transaction) (result : Outcome) : Prop where
  state : s.stateOf t = some (ends result)
  lt : t.clientSession < s.created

/-- A session that has been ended once. -/
structure Gone (s₀ s : Shared) (c : ℕ) : Prop where
  old : s₀.created ≤ c
  lt : c < s.created
  ended : (s.sessions c).ended = 1

/-- **What holds for a call** at each stage. -/
def Holds (s₀ s : Shared) (id : String) : Stage → Prop
  | .new => True
  | .rejected => True
  | .creating => s₀.sessionRequestMap.get id = none
  | .created c => s.connected = true ∧ s₀.sessionRequestMap.get id = none ∧ s₀.created ≤ c ∧ c < s.created ∧
      (s.sessions c).ended = 0
  | .starting c => Mine s₀ s id c
  | .running own t => Open s₀ s id own t
  | .settled own t _ => Open s₀ s id own t
  | .answering own t _ => Open s₀ s id own t
  | .finished own t result => Closed s t result ∧ ∀ c, own = some c → Mine s₀ s id c
  | .ended c t result => Closed s t result ∧ Gone s₀ s c ∧ s₀.sessionRequestMap.get id = none
  | .done c t result => Closed s t result ∧ Gone s₀ s c
  | .broken => False

section Frame

variable {s₀ s s' : Shared} {id : String} {st : Stage}

/-- **What other calls must leave** to a call at the stage `st`: the entry of a session in use, its own
session, and its transaction. -/
structure Leaves (s s' : Shared) (id : String) (st : Stage) : Prop where
  connected : s'.connected = s.connected
  created : s.created ≤ s'.created
  entry : ∀ c, s.sessionRequestMap.get id = some c →
    (s.sessions c).ended = 0 ∨ (s.sessions c).inTransaction = true → s'.sessionRequestMap.get id = some c
  ended : ∀ c, st.own = some c → c < s.created → (s'.sessions c).ended = (s.sessions c).ended
  active : ∀ t, st.transaction = some t → t.clientSession < s.created →
    (s.sessions t.clientSession).transactions.length = t.number + 1 →
    (s.sessions t.clientSession).inTransaction = true →
    (s'.sessions t.clientSession).transactions = (s.sessions t.clientSession).transactions
  state : ∀ t, st.transaction = some t → t.clientSession < s.created → ∀ state, s.stateOf t = some state →
    state ≠ .inProgress → s'.stateOf t = some state

theorem Mine.frame {c : ℕ} (h : Mine s₀ s id c) (hl : Leaves s s' id st) (hown : st.own = some c) :
    Mine s₀ s' id c where
  connected := hl.connected.trans h.connected
  unused := h.unused
  here := hl.entry c h.here (Or.inl h.ended)
  old := h.old
  lt := lt_of_lt_of_le h.lt hl.created
  ended := (hl.ended c hown h.lt).trans h.ended

theorem Open.frame {own : Option ℕ} {t : Transaction} (h : Open s₀ s id own t) (hl : Leaves s s' id st)
    (hown : st.own = own) (ht : st.transaction = some t) : Open s₀ s' id own t := by
  have hsame := hl.active t ht h.lt h.length h.active
  have hactive : (s'.sessions t.clientSession).inTransaction = true := by
    have h1 := h.active
    unfold ClientSession.inTransaction at h1 ⊢
    rwa [hsame]
  exact ⟨hl.connected.trans h.connected, hl.entry _ h.here (Or.inr h.active), by rw [hsame]; exact h.length,
    hactive, lt_of_lt_of_le h.lt hl.created, fun c hc => (h.mine c hc).frame hl (hown.trans hc)⟩

theorem Closed.frame {t : Transaction} {result : Outcome} (h : Closed s t result) (hl : Leaves s s' id st)
    (ht : st.transaction = some t) : Closed s' t result := by
  have hne : ends result ≠ .inProgress := by cases result <;> simp [ends]
  exact ⟨hl.state t ht h.lt _ h.state hne, lt_of_lt_of_le h.lt hl.created⟩

theorem Gone.frame {c : ℕ} (h : Gone s₀ s c) (hl : Leaves s s' id st) (hown : st.own = some c) : Gone s₀ s' c :=
  ⟨h.old, lt_of_lt_of_le h.lt hl.created, (hl.ended c hown h.lt).trans h.ended⟩

theorem Holds.frame (h : Holds s₀ s id st) (hl : Leaves s s' id st) : Holds s₀ s' id st := by
  cases st with
  | new => exact trivial
  | rejected => exact trivial
  | creating => exact h
  | created c =>
    obtain ⟨hconn, hunused, hold, hlt, hended⟩ := h
    exact ⟨hl.connected.trans hconn, hunused, hold, lt_of_lt_of_le hlt hl.created, (hl.ended c rfl hlt).trans hended⟩
  | starting c => exact Mine.frame h hl rfl
  | running own t => exact Open.frame h hl rfl rfl
  | settled own t result => exact Open.frame h hl rfl rfl
  | answering own t result => exact Open.frame h hl rfl rfl
  | finished own t result => exact ⟨h.1.frame hl rfl, fun c hc => (h.2 c hc).frame hl hc⟩
  | ended c t result => exact ⟨h.1.frame hl rfl, h.2.1.frame hl rfl, h.2.2⟩
  | done c t result => exact ⟨h.1.frame hl rfl, h.2.frame hl rfl⟩
  | broken => exact h.elim

/-- Nothing changes. -/
theorem Leaves.refl : Leaves s s id st where
  connected := rfl
  created := le_rfl
  entry := fun _ h _ => h
  ended := fun _ _ _ => rfl
  active := fun _ _ _ _ _ => rfl
  state := fun _ _ _ _ h _ => h

@[simp] theorem sessions_setSession_self (x : ℕ) (c : ClientSession) : (s.setSession x c).sessions x = c := by
  simp [Shared.setSession]

theorem sessions_setSession_ne {x y : ℕ} (c : ClientSession) (h : y ≠ x) :
    (s.setSession x c).sessions y = s.sessions y := by
  simp [Shared.setSession, h]

/-- One session changes. -/
theorem Leaves.session {x : ℕ} {c : ClientSession}
    (hended : st.own = some x → c.ended = (s.sessions x).ended)
    (hactive : ∀ t, st.transaction = some t → t.clientSession = x →
      (s.sessions x).transactions.length = t.number + 1 → (s.sessions x).inTransaction = true →
      c.transactions = (s.sessions x).transactions)
    (hstate : ∀ t, st.transaction = some t → t.clientSession = x → ∀ state,
      (s.sessions x).transactions[t.number]? = some state → state ≠ .inProgress →
      c.transactions[t.number]? = some state) : Leaves s (s.setSession x c) id st where
  connected := rfl
  created := le_rfl
  entry := fun _ h _ => h
  ended := by
    intro y hy _
    by_cases hxy : y = x
    · subst hxy
      rw [sessions_setSession_self]
      exact hended hy
    · rw [sessions_setSession_ne c hxy]
  active := by
    intro t ht _ hlength hin
    by_cases hx : t.clientSession = x
    · subst hx
      rw [sessions_setSession_self]
      exact hactive t ht rfl hlength hin
    · rw [sessions_setSession_ne c hx]
  state := by
    intro t ht _ state hstate₀ hne
    unfold Shared.stateOf at hstate₀ ⊢
    by_cases hx : t.clientSession = x
    · subst hx
      rw [sessions_setSession_self]
      exact hstate t ht rfl state hstate₀ hne
    · rw [sessions_setSession_ne c hx]
      exact hstate₀

/-- A session is created. -/
theorem Leaves.create : Leaves s { s.setSession s.created .new with created := s.created + 1 } id st where
  connected := rfl
  created := Nat.le_succ _
  entry := fun _ h _ => h
  ended := fun y _ hlt => by
    have hne : y ≠ s.created := by omega
    exact congrArg ClientSession.ended (sessions_setSession_ne _ hne)
  active := fun t _ hlt _ _ => by
    have hne : t.clientSession ≠ s.created := by omega
    exact congrArg ClientSession.transactions (sessions_setSession_ne _ hne)
  state := fun t _ hlt state hstate _ => by
    have hne : t.clientSession ≠ s.created := by omega
    unfold Shared.stateOf at hstate ⊢
    rw [← hstate]
    exact congrArg (fun c : ClientSession => c.transactions[t.number]?) (sessions_setSession_ne _ hne)

/-- An entry changes whose session is released. -/
theorem Leaves.entryOf {key : String} {m : OMap String ℕ} (hreleased : Released s key)
    (hm : ∀ j, j ≠ key → m.get j = s.sessionRequestMap.get j) :
    Leaves s { s with sessionRequestMap := m } id st where
  connected := rfl
  created := le_rfl
  entry := by
    intro c hget huse
    have hne : id ≠ key := by
      rintro rfl
      obtain ⟨hended, hidle⟩ := hreleased c hget
      rcases huse with huse | huse
      · exact hended huse
      · rw [hidle] at huse
        cases huse
    exact (hm id hne).trans hget
  ended := fun _ _ _ => rfl
  active := fun _ _ _ _ _ => rfl
  state := fun _ _ _ _ h _ => h

end Frame

/-! ## One command -/

/-- **What one command of a call does**, from the stage `st` to `st'`. -/
structure Moves (s₀ s s' : Shared) (id : String) (st st' : Stage) : Prop where
  holds : Holds s₀ s' id st'
  own : st'.own = st.own ∧ s'.created = s.created ∨
    st.own = none ∧ st'.own = some s.created ∧ s'.created = s.created + 1
  transaction : st'.transaction = st.transaction ∨ ∃ t, st'.transaction = some t ∧
    t.number = (s.sessions t.clientSession).transactions.length
  others : ∀ id' st₂, (∀ c, st₂.own = some c → st.own ≠ some c) →
    (∀ t, st₂.transaction = some t → st.transaction ≠ some t) → Leaves s s' id' st₂
  kept : ∀ id' c, s₀.sessionRequestMap.get id' = some c → s.sessionRequestMap.get id' = some c →
    s'.sessionRequestMap.get id' = some c
  entries : ∀ id' c, s'.sessionRequestMap.get id' = some c →
    s.sessionRequestMap.get id' = some c ∧ (id' = id → st.holder = some c → st'.holder = some c) ∨
      id' = id ∧ st'.holder = some c

section Moves

variable {s₀ s : Shared} {id : String} {st st' : Stage}

/-- Only the stage changes. -/
theorem Moves.same (hholds : Holds s₀ s id st') (hown : st'.own = st.own)
    (htxn : st'.transaction = st.transaction) (hholder : st'.holder = st.holder) : Moves s₀ s s id st st' where
  holds := hholds
  own := Or.inl ⟨hown, rfl⟩
  transaction := Or.inl htxn
  others := fun _ _ _ _ => .refl
  kept := fun _ _ _ h => h
  entries := fun _ _ h => Or.inl ⟨h, fun _ hc => hholder.trans hc⟩

/-- A transaction starts on the session in the map. -/
theorem startTransaction_cases (s : Shared) (id : String) : (∃ e, s.startTransaction id = (s, .error e)) ∨
    ∃ x, s.connected = true ∧ s.sessionRequestMap.get id = some x ∧ (s.sessions x).inTransaction = false ∧
      s.startTransaction id = (s.setSession x { s.sessions x with
        transactions := (s.sessions x).transactions ++ [.inProgress] }, .ok ⟨x, (s.sessions x).transactions.length⟩) := by
  unfold Shared.startTransaction Shared.getSession
  cases hconn : s.connected with
  | false => exact Or.inl ⟨_, rfl⟩
  | true =>
    cases hget : s.sessionRequestMap.get id with
    | none => exact Or.inl ⟨_, rfl⟩
    | some x =>
      cases hin : (s.sessions x).inTransaction with
      | true => exact Or.inl ⟨.driver "Transaction already in progress", by simp [ClientSession.startTransaction, hin]⟩
      | false => exact Or.inr ⟨x, rfl, rfl, hin, by simp [ClientSession.startTransaction, hin]⟩

/-- What a call has once its transaction has started. -/
theorem moves_started {own : Option ℕ} {x : ℕ} (hconn : s.connected = true)
    (hget : s.sessionRequestMap.get id = some x) (hin : (s.sessions x).inTransaction = false) (hlt : x < s.created)
    (hmine : ∀ c, own = some c → Mine s₀ s id c) (hown : st.own = own) (hholder : st.holder = own) :
    Moves s₀ s (s.setSession x { s.sessions x with transactions := (s.sessions x).transactions ++ [.inProgress] }) id
      st (.running own ⟨x, (s.sessions x).transactions.length⟩) where
  holds := by
    refine ⟨hconn, hget, ?_, ?_, hlt, fun c hc => ?_⟩
    · rw [sessions_setSession_self]
      exact List.length_append
    · rw [sessions_setSession_self]
      simp [ClientSession.inTransaction]
    · obtain ⟨h1, h2, h3, h4, h5, h6⟩ := hmine c hc
      refine ⟨h1, h2, h3, h4, h5, ?_⟩
      by_cases hcx : c = x
      · subst hcx
        rw [sessions_setSession_self]
        exact h6
      · rw [sessions_setSession_ne _ hcx]
        exact h6
  own := Or.inl ⟨hown.symm, rfl⟩
  transaction := Or.inr ⟨_, rfl, rfl⟩
  others := by
    intro id' st₂ _ _
    refine .session (fun _ => rfl) (fun t _ _ _ hin' => ?_) fun t _ _ state hstate _ => ?_
    · rw [hin] at hin'
      cases hin'
    · have hbound : t.number < (s.sessions x).transactions.length := (List.getElem?_eq_some_iff.1 hstate).1
      rw [← hstate]
      exact List.getElem?_append_left hbound
  kept := fun _ _ _ h => h
  entries := fun _ _ h => Or.inl ⟨h, fun _ hc => hholder.symm.trans hc⟩

theorem moves_enter (hkept : ∀ id c, s₀.sessionRequestMap.get id = some c → s.sessionRequestMap.get id = some c)
    (hlt : ∀ id c, s.sessionRequestMap.get id = some c → c < s.created) (i : Choice) :
    Moves s₀ s (exec i s (.enter id)).1 id .new (Stage.next .new (.enter id) (exec i s (.enter id)).2) := by
  by_cases hmem : id ∈ s.sessionRequestMap.keys
  · have hexec : exec i s (.enter id) = ((s.startTransaction id).1, some (s.startTransaction id).2) := if_pos hmem
    rw [hexec]
    rcases startTransaction_cases s id with ⟨e, he⟩ | ⟨x, hconn, hget, hin, hok⟩
    · rw [he]
      exact .same trivial rfl rfl rfl
    · rw [hok]
      exact moves_started hconn hget hin (hlt id x hget) (fun c hc => by cases hc) rfl rfl
  · have hexec : exec i s (.enter id) = (s, none) := if_neg hmem
    rw [hexec]
    have hunused : s₀.sessionRequestMap.get id = none := by
      by_contra hne
      obtain ⟨c, hc⟩ := Option.ne_none_iff_exists'.1 hne
      exact hmem (OMap.mem_keys.2 ⟨c, hkept id c hc⟩)
    exact .same hunused rfl rfl rfl

theorem moves_create (hold : s₀.created ≤ s.created) (hunused : s₀.sessionRequestMap.get id = none) (i : Choice) :
    Moves s₀ s (exec i s .createSession).1 id .creating
      (Stage.next .creating .createSession (exec i s .createSession).2) := by
  cases hconn : s.connected with
  | false =>
    have hexec : exec i s .createSession = (s, .error notConnected) := by simp [exec, hconn]
    rw [hexec]
    exact .same trivial rfl rfl rfl
  | true =>
    have hexec : exec i s .createSession =
        ({ s.setSession s.created .new with created := s.created + 1 }, .ok s.created) := by simp [exec, hconn]
    rw [hexec]
    refine ⟨⟨hconn, hunused, hold, Nat.lt_succ_self _, ?_⟩, Or.inr ⟨rfl, rfl, rfl⟩, Or.inl rfl,
      fun _ _ _ _ => .create, fun _ _ _ h => h, fun _ _ h => Or.inl ⟨h, fun _ hc => by cases hc⟩⟩
    exact congrArg ClientSession.ended (sessions_setSession_self _ _)

theorem moves_set {c : ℕ} (h : Holds s₀ s id (.created c)) (hreleased : Released s id) (i : Choice) :
    Moves s₀ s (exec i s (.setSession id c)).1 id (.created c) (.starting c) := by
  obtain ⟨hconn, hunused, hold, hlt, hended⟩ := h
  refine ⟨⟨hconn, hunused, OMap.get_set_self .., hold, hlt, hended⟩, Or.inl ⟨rfl, rfl⟩, Or.inl rfl,
    fun _ _ _ _ => .entryOf hreleased fun j hj => OMap.get_set_ne _ _ (Ne.symm hj), fun id' c' h₀ hget => ?_,
    fun id' c' hget => ?_⟩
  · have hne : id ≠ id' := by
      rintro rfl
      rw [hunused] at h₀
      cases h₀
    exact (OMap.get_set_ne _ _ hne).trans hget
  · by_cases hid : id' = id
    · subst hid
      have hc : some c = some c' := (OMap.get_set_self ..).symm.trans hget
      exact Or.inr ⟨rfl, hc⟩
    · exact Or.inl ⟨(OMap.get_set_ne _ _ (Ne.symm hid)).symm.trans hget, fun h => absurd h hid⟩

theorem moves_start {c : ℕ} (h : Mine s₀ s id c) (hidle : Idle s id) (i : Choice) :
    Moves s₀ s (exec i s (.startTransaction id)).1 id (.starting c)
      (Stage.next (.starting c) (.startTransaction id) (exec i s (.startTransaction id)).2) := by
  have hexec : exec i s (.startTransaction id) = s.startTransaction id := rfl
  rw [hexec]
  have hin := hidle c h.here
  have hok : s.startTransaction id = (s.setSession c { s.sessions c with
      transactions := (s.sessions c).transactions ++ [.inProgress] }, .ok ⟨c, (s.sessions c).transactions.length⟩) := by
    simp [Shared.startTransaction, Shared.getSession, h.connected, h.here, ClientSession.startTransaction, hin]
  rw [hok]
  exact moves_started h.connected h.here hin h.lt (fun c' hc' => Option.some.inj hc' ▸ h) rfl rfl

/-- A transaction in progress is committed or aborted. -/
theorem transition_ends {c : ClientSession} (h : c.inTransaction = true) (result : Outcome) :
    c.transition (ends result) = ({ c with transactions := c.transactions.dropLast ++ [ends result] }, .ok ()) := by
  have hlast : c.transactions.getLast? = some .inProgress := by
    simpa [ClientSession.inTransaction] using h
  unfold ClientSession.transition
  rw [hlast]
  cases result <;> rfl

/-- What a call has once its transaction has been committed or aborted. -/
theorem moves_ended {own : Option ℕ} {t : Transaction} (h : Open s₀ s id own t) (result : Outcome)
    (hown : st.own = own) (hholder : st.holder = own) (htxn : st.transaction = some t) :
    Moves s₀ s (s.setSession t.clientSession ((s.sessions t.clientSession).transition (ends result)).1) id
      st (.finished own t result) := by
  rw [transition_ends h.active]
  have hinit : (s.sessions t.clientSession).transactions.dropLast.length = t.number := by
    rw [List.length_dropLast, h.length]
    omega
  refine ⟨⟨⟨?_, h.lt⟩, fun c hc => ?_⟩, Or.inl ⟨hown.symm, rfl⟩, Or.inl htxn.symm, fun id' st₂ _ hne => ?_,
    fun _ _ _ h => h, fun _ _ h => Or.inl ⟨h, fun _ hc => hholder.symm.trans hc⟩⟩
  · unfold Shared.stateOf
    rw [sessions_setSession_self]
    dsimp only
    rw [List.getElem?_append_right (le_of_eq hinit), hinit, Nat.sub_self]
    rfl
  · obtain ⟨h1, h2, h3, h4, h5, h6⟩ := h.mine c hc
    refine ⟨h1, h2, h3, h4, h5, ?_⟩
    by_cases hct : c = t.clientSession
    · rw [hct, sessions_setSession_self]
      rw [hct] at h6
      exact h6
    · rw [sessions_setSession_ne _ hct]
      exact h6
  · -- another transaction of the session is an earlier one
    have hlater : ∀ t₂, st₂.transaction = some t₂ → t₂.clientSession = t.clientSession → t₂.number ≠ t.number := by
      intro t₂ ht₂ hsession hnumber
      refine hne t₂ ht₂ ?_
      rw [htxn]
      cases t
      cases t₂
      simp_all
    refine .session (fun _ => rfl) (fun t₂ ht₂ hsession hlength _ => ?_) fun t₂ ht₂ hsession state hstate _ => ?_
    · refine absurd ?_ (hlater t₂ ht₂ hsession)
      have hlength' := h.length
      omega
    · have hbound : t₂.number < (s.sessions t.clientSession).transactions.length :=
        (List.getElem?_eq_some_iff.1 hstate).1
      have hne' := hlater t₂ ht₂ hsession
      have hlength := h.length
      rw [List.getElem?_append_left (by omega), List.getElem?_dropLast, if_pos (by omega)]
      exact hstate

theorem moves_finish {own : Option ℕ} {t : Transaction} {result : Outcome} (h : Open s₀ s id own t) (i : Choice) :
    Moves s₀ s (exec i s (.finish id (ends result))).1 id (.settled own t result)
      (Stage.next (.settled own t result) (.finish id (ends result)) (exec i s (.finish id (ends result))).2) := by
  have hget : s.getSession id = .ok t.clientSession := by
    simp [Shared.getSession, h.connected, h.here]
  cases hop : i.operated with
  | true =>
    have hexec : exec i s (.finish id (ends result)) = (s, .ok ⟨t.clientSession, false⟩) := by
      simp [exec, hget, h.active, hop]
    rw [hexec]
    have hnext : Stage.next (.settled own t result) (.finish id (ends result)) (.ok ⟨t.clientSession, false⟩) =
        .answering own t result := if_pos rfl
    rw [hnext]
    exact .same h rfl rfl rfl
  | false =>
    have hexec : exec i s (.finish id (ends result)) = (s.setSession t.clientSession
        ((s.sessions t.clientSession).transition (ends result)).1, .ok ⟨t.clientSession, true⟩) := by
      simp [exec, hget, h.active, hop]
    rw [hexec]
    exact moves_ended h result rfl rfl rfl

theorem moves_answer {own : Option ℕ} {t : Transaction} {result : Outcome} (h : Open s₀ s id own t) (i : Choice) :
    Moves s₀ s (exec i s (.answer t.clientSession (ends result))).1 id (.answering own t result)
      (Stage.next (.answering own t result) (.answer t.clientSession (ends result))
        (exec i s (.answer t.clientSession (ends result))).2) := by
  have hok : (exec i s (.answer t.clientSession (ends result))).2 = .ok () := by
    show ((s.sessions t.clientSession).transition (ends result)).2 = _
    rw [transition_ends h.active]
  rw [hok]
  exact moves_ended h result rfl rfl rfl

theorem moves_endSession {c : ℕ} {t : Transaction} {result : Outcome} (h : Holds s₀ s id (.finished (some c) t result))
    (hidle : Idle s id) (i : Choice) : Moves s₀ s (exec i s (.endSession id)).1 id (.finished (some c) t result)
      (Stage.next (.finished (some c) t result) (.endSession id) (exec i s (.endSession id)).2) := by
  obtain ⟨⟨hstate, hlt⟩, hmine⟩ := h
  obtain ⟨hconn, hunused, hhere, hold, hltc, hended⟩ := hmine c rfl
  have hexec : exec i s (.endSession id) = (s.setSession c (endNow (s.sessions c)), .ok ⟨c, true⟩) := by
    simp [exec, hconn, hhere, hidle c hhere]
  rw [hexec]
  have hsame : ∀ y, ((s.setSession c (endNow (s.sessions c))).sessions y).transactions =
      (s.sessions y).transactions := by
    intro y
    by_cases hy : y = c
    · subst hy
      rw [sessions_setSession_self]
      rfl
    · rw [sessions_setSession_ne _ hy]
  refine ⟨⟨⟨?_, hlt⟩, ⟨hold, hltc, ?_⟩, hunused⟩, Or.inl ⟨rfl, rfl⟩, Or.inl rfl, fun id' st₂ hne _ => ?_,
    fun _ _ _ h => h, fun _ _ h => Or.inl ⟨h, fun _ hc => hc⟩⟩
  · unfold Shared.stateOf
    rw [hsame]
    exact hstate
  · rw [sessions_setSession_self]
    show (s.sessions c).ended + 1 = 1
    rw [hended]
  · exact .session (fun hown => absurd rfl (hne c hown)) (fun _ _ _ _ _ => rfl) fun _ _ _ _ hstate _ => hstate

theorem moves_delete {c : ℕ} {t : Transaction} {result : Outcome} (h : Holds s₀ s id (.ended c t result))
    (hreleased : Released s id) (i : Choice) :
    Moves s₀ s (exec i s (.deleteSession id)).1 id (.ended c t result) (.done c t result) := by
  obtain ⟨hclosed, hgone, hunused⟩ := h
  have hget : ∀ j, (s.sessionRequestMap.erase id).get j = if id = j then none else s.sessionRequestMap.get j :=
    fun j => OMap.get_erase ..
  refine ⟨⟨⟨hclosed.state, hclosed.lt⟩, ⟨hgone.old, hgone.lt, hgone.ended⟩⟩, Or.inl ⟨rfl, rfl⟩, Or.inl rfl,
    fun _ _ _ _ => .entryOf hreleased fun j hj => ?_,
    fun id' c' h₀ hget' => ?_, fun id' c' hget' => ?_⟩
  · rw [hget, if_neg (Ne.symm hj)]
  · have hne : id ≠ id' := by
      rintro rfl
      rw [hunused] at h₀
      cases h₀
    show (s.sessionRequestMap.erase id).get id' = _
    rw [hget, if_neg hne]
    exact hget'
  · have hget'' : (s.sessionRequestMap.erase id).get id' = some c' := hget'
    rw [hget] at hget''
    split at hget''
    · cases hget''
    · rename_i hne
      exact Or.inl ⟨hget'', fun h => absurd h.symm hne⟩

/-- **Every command that a call may issue** at its stage, if the condition holds. -/
theorem moves {args : List Argument} {c : Cmd}
    (hkept : ∀ id c, s₀.sessionRequestMap.get id = some c → s.sessionRequestMap.get id = some c)
    (hlt : ∀ id c, s.sessionRequestMap.get id = some c → c < s.created) (hold : s₀.created ≤ s.created)
    (h : Holds s₀ s (idOf args) st) (hmay : Stage.may args st c) (hpermits : Permits s c) (i : Choice) :
    Moves s₀ s (exec i s c).1 (idOf args) st (st.next c (exec i s c).2) := by
  cases st with
  | new =>
    cases c with
    | enter id => exact hmay ▸ moves_enter hkept hlt i
    | _ => exact False.elim hmay
  | rejected => exact False.elim hmay
  | creating =>
    cases c with
    | createSession => exact moves_create hold h i
    | _ => exact False.elim hmay
  | created own =>
    cases c with
    | setSession id c' =>
      obtain ⟨rfl, rfl⟩ := hmay
      exact moves_set h hpermits i
    | _ => exact False.elim hmay
  | starting own =>
    cases c with
    | startTransaction id =>
      obtain rfl := hmay
      exact moves_start h hpermits i
    | _ => exact False.elim hmay
  | running own t =>
    cases c with
    | method args' => exact .same h rfl rfl rfl
    | _ => exact False.elim hmay
  | settled own t result =>
    cases c with
    | finish id target =>
      obtain ⟨rfl, rfl⟩ := hmay
      exact moves_finish h i
    | _ => exact False.elim hmay
  | answering own t result =>
    cases c with
    | answer x target =>
      obtain ⟨rfl, rfl⟩ := hmay
      exact moves_answer h i
    | _ => exact False.elim hmay
  | finished own t result =>
    cases own with
    | none => cases c <;> exact False.elim hmay
    | some own =>
      cases c with
      | endSession id =>
        obtain rfl := hmay
        exact moves_endSession h hpermits i
      | _ => exact False.elim hmay
  | ended own t result =>
    cases c with
    | deleteSession id =>
      obtain rfl := hmay
      exact moves_delete h hpermits i
    | _ => exact False.elim hmay
  | done own t result => exact False.elim hmay
  | broken => exact h.elim

end Moves

/-! ## All calls -/

/-- The stage of a call, read off its history. -/
def stageOf (p : Call) : Stage := (protocol p.call).after .new p.hist

/-- **The invariant**: what holds for each call, no session and no transaction is of two calls, and every
entry and every new session is accounted for. -/
structure Sound (s₀ : Shared) (w : Calls) : Prop where
  obeys : w.Obeys protocol fun _ => .new
  holds : ∀ q p, w.procs.get q = some p → Holds s₀ w.st (idOf p.call) (stageOf p)
  owners : ∀ q p, w.procs.get q = some p → ∀ q' p', w.procs.get q' = some p' → ∀ c,
    (stageOf p).own = some c → (stageOf p').own = some c → q = q'
  transactions : ∀ q p, w.procs.get q = some p → ∀ q' p', w.procs.get q' = some p' → ∀ t,
    (stageOf p).transaction = some t → (stageOf p').transaction = some t → q = q'
  kept : ∀ id c, s₀.sessionRequestMap.get id = some c → w.st.sessionRequestMap.get id = some c
  entries : ∀ id c, w.st.sessionRequestMap.get id = some c → s₀.sessionRequestMap.get id = some c ∨
    ∃ q p, w.procs.get q = some p ∧ idOf p.call = id ∧ (stageOf p).holder = some c
  sessions : ∀ c, s₀.created ≤ c → c < w.st.created → ∃ q p, w.procs.get q = some p ∧ (stageOf p).own = some c
  created : s₀.created ≤ w.st.created

section Sound

variable {s₀ : Shared} {w : Calls} {pid : ℕ}

/-- The session that a call holds or has created is one of the driver's, and so is that of its transaction. -/
theorem Holds.own_lt {s : Shared} {id : String} {st : Stage} (h : Holds s₀ s id st) {c : ℕ}
    (hc : st.own = some c) : c < s.created := by
  cases st with
  | created c' => cases hc; exact h.2.2.2.1
  | starting c' => cases hc; exact Mine.lt h
  | running own t => exact (Open.mine h c hc).lt
  | settled own t result => exact (Open.mine h c hc).lt
  | answering own t result => exact (Open.mine h c hc).lt
  | finished own t result => exact (h.2 c hc).lt
  | ended c' t result => cases hc; exact h.2.1.lt
  | done c' t result => cases hc; exact h.2.lt
  | _ => cases hc

theorem holder_own {st : Stage} {c : ℕ} (h : st.holder = some c) : st.own = some c := by
  cases st <;> first | exact h | cases h

/-- The number of a transaction is below that of those that start later. -/
theorem Holds.number_lt {s : Shared} {id : String} {st : Stage} (h : Holds s₀ s id st) {t : Transaction}
    (ht : st.transaction = some t) : t.number < (s.sessions t.clientSession).transactions.length := by
  have hopen : ∀ {own t'}, Open s₀ s id own t' → t'.number < (s.sessions t'.clientSession).transactions.length := by
    intro own t' ho
    have hlength := ho.length
    omega
  have hclosed : ∀ {t' result}, Closed s t' result → t'.number < (s.sessions t'.clientSession).transactions.length :=
    fun hc => (List.getElem?_eq_some_iff.1 hc.state).1
  cases st with
  | running own t' => cases ht; exact hopen h
  | settled own t' result => cases ht; exact hopen h
  | answering own t' result => cases ht; exact hopen h
  | finished own t' result => cases ht; exact hclosed h.1
  | ended c t' result => cases ht; exact hclosed h.1
  | done c t' result => cases ht; exact hclosed h.1
  | _ => cases ht

theorem Sound.entry_lt (h₀ : s₀.Valid) (hw : Sound s₀ w) {id : String} {c : ℕ}
    (h : w.st.sessionRequestMap.get id = some c) : c < w.st.created := by
  rcases hw.entries id c h with h | ⟨q, p, hp, -, hc⟩
  · exact lt_of_lt_of_le (h₀ id c h) hw.created
  · exact (hw.holds q p hp).own_lt (holder_own hc)

theorem sound_init (s₀ : Shared) : Sound s₀ (Pool.init s₀) where
  obeys := Pool.obeys_init _ _ _
  holds := fun q p h => by simp [Pool.init] at h
  owners := fun q p h => by simp [Pool.init] at h
  transactions := fun q p h => by simp [Pool.init] at h
  kept := fun _ _ h => h
  entries := fun _ _ h => Or.inl h
  sessions := fun c h h' => absurd h' (by show ¬ c < s₀.created; omega)
  created := le_rfl

theorem Sound.call (hw : Sound s₀ w) {args : List Argument} (hn : w.procs.get pid = none) :
    Sound s₀ (machine.begin w pid args) where
  obeys := Machine.begin_obeys hw.obeys pid (transactional_follows args)
  holds := Machine.begin_all hw.holds trivial
  owners := by
    intro q p hp q' p' hp' c hc hc'
    rcases Machine.begin_cases hp with ⟨rfl, rfl⟩ | ⟨-, hp⟩
    · cases hc
    · rcases Machine.begin_cases hp' with ⟨rfl, rfl⟩ | ⟨-, hp'⟩
      · cases hc'
      · exact hw.owners q p hp q' p' hp' c hc hc'
  transactions := by
    intro q p hp q' p' hp' t ht ht'
    rcases Machine.begin_cases hp with ⟨rfl, rfl⟩ | ⟨-, hp⟩
    · cases ht
    · rcases Machine.begin_cases hp' with ⟨rfl, rfl⟩ | ⟨-, hp'⟩
      · cases ht'
      · exact hw.transactions q p hp q' p' hp' t ht ht'
  kept := hw.kept
  entries := by
    intro id c hc
    rcases hw.entries id c hc with h | ⟨q, p, hp, hid, hholder⟩
    · exact Or.inl h
    · exact Or.inr ⟨q, p, Machine.begin_stays hn hp, hid, hholder⟩
  sessions := by
    intro c hle hlt
    obtain ⟨q, p, hp, hown⟩ := hw.sessions c hle hlt
    exact ⟨q, p, Machine.begin_stays hn hp, hown⟩
  created := hw.created

/-- The stage of the moving call after its command. -/
theorem stageOf_advance (p : Call) (c : Cmd) (r : Resp c) (k : Client Outcome) :
    stageOf ⟨p.call, p.hist ++ [⟨c, r⟩], k⟩ = (stageOf p).next c r := by
  unfold stageOf
  rw [Protocol.after_snoc]
  rfl

theorem Sound.step (h₀ : s₀.Valid) (hw : Sound s₀ w) {i : Choice} {p : Call} {c : Cmd} {k : Resp c → Client Outcome}
    (hp : w.procs.get pid = some p) (hr : p.rest = .await c k) (hpermits : Permits w.st c) :
    Sound s₀ (machine.advance w pid i p c k) := by
  have hmay : Stage.may p.call (stageOf p) c := by
    have hfollows := hw.obeys pid p hp
    rw [hr] at hfollows
    exact hfollows.1
  have hm := moves hw.kept (fun id c h => hw.entry_lt h₀ h) hw.created (hw.holds pid p hp) hmay hpermits i
  set r := (exec i w.st c).2 with hr'
  set s' := (exec i w.st c).1 with hs'
  set st' := (stageOf p).next c r with hst'
  set p' : Call := ⟨p.call, p.hist ++ [⟨c, r⟩], k r⟩ with hp'
  have hstage : stageOf p' = st' := stageOf_advance p c r (k r)
  have hself : (machine.advance w pid i p c k).procs.get pid = some p' := Machine.get_advance_self
  -- the calls that do not move
  have hother : ∀ q q₁, q ≠ pid → w.procs.get q = some q₁ →
      (∀ x, (stageOf q₁).own = some x → (stageOf p).own ≠ some x) ∧
      (∀ t, (stageOf q₁).transaction = some t → (stageOf p).transaction ≠ some t) := by
    intro q q₁ hq hq₁
    exact ⟨fun x hx hx' => hq (hw.owners q q₁ hq₁ pid p hp x hx hx'),
      fun t ht ht' => hq (hw.transactions q q₁ hq₁ pid p hp t ht ht')⟩
  -- the session that is created is new
  have hown : ∀ q q₁, q ≠ pid → w.procs.get q = some q₁ → ∀ x, st'.own = some x → (stageOf q₁).own ≠ some x := by
    intro q q₁ hq hq₁ x hx hx'
    rcases hm.own with ⟨hsame, -⟩ | ⟨-, hnew, -⟩
    · exact (hother q q₁ hq hq₁).1 x hx' (hsame.symm.trans hx)
    · have hlt := (hw.holds q q₁ hq₁).own_lt hx'
      rw [hnew] at hx
      cases hx
      omega
  -- and so is the transaction that starts
  have htxn : ∀ q q₁, q ≠ pid → w.procs.get q = some q₁ → ∀ t, st'.transaction = some t →
      (stageOf q₁).transaction ≠ some t := by
    intro q q₁ hq hq₁ t ht ht'
    rcases hm.transaction with hsame | ⟨t₁, hnew, hnumber⟩
    · exact (hother q q₁ hq hq₁).2 t ht' (hsame.symm.trans ht)
    · have hlt := (hw.holds q q₁ hq₁).number_lt ht'
      rw [hnew] at ht
      cases ht
      omega
  refine ⟨Machine.advance_obeys hw.obeys i hp hr, ?_, ?_, ?_, ?_, ?_, ?_, ?_⟩
  · intro q q₁ hq₁
    rcases Machine.advance_cases hq₁ with ⟨rfl, rfl⟩ | ⟨hq, hq₁⟩
    · exact hstage.symm ▸ hm.holds
    · exact (hw.holds q q₁ hq₁).frame (hm.others _ _ (hother q q₁ hq hq₁).1 (hother q q₁ hq hq₁).2)
  · intro q q₁ hq₁ q' q₁' hq₁' x hx hx'
    rcases Machine.advance_cases hq₁ with ⟨rfl, rfl⟩ | ⟨hq, hold⟩
    · rcases Machine.advance_cases hq₁' with ⟨hq', -⟩ | ⟨hq', hold'⟩
      · exact hq'.symm
      · exact absurd hx' (hown q' q₁' hq' hold' x (hstage ▸ hx))
    · rcases Machine.advance_cases hq₁' with ⟨-, rfl⟩ | ⟨hq', hold'⟩
      · exact absurd hx (hown q q₁ hq hold x (hstage ▸ hx'))
      · exact hw.owners q q₁ hold q' q₁' hold' x hx hx'
  · intro q q₁ hq₁ q' q₁' hq₁' t ht ht'
    rcases Machine.advance_cases hq₁ with ⟨rfl, rfl⟩ | ⟨hq, hold⟩
    · rcases Machine.advance_cases hq₁' with ⟨hq', -⟩ | ⟨hq', hold'⟩
      · exact hq'.symm
      · exact absurd ht' (htxn q' q₁' hq' hold' t (hstage ▸ ht))
    · rcases Machine.advance_cases hq₁' with ⟨-, rfl⟩ | ⟨hq', hold'⟩
      · exact absurd ht (htxn q q₁ hq hold t (hstage ▸ ht'))
      · exact hw.transactions q q₁ hold q' q₁' hold' t ht ht'
  · intro id x hx
    exact hm.kept id x hx (hw.kept id x hx)
  · intro id x hx
    rcases hm.entries id x hx with ⟨hbefore, hstill⟩ | ⟨hid, hholder⟩
    · rcases hw.entries id x hbefore with h | ⟨q, q₁, hq₁, hid, hholder⟩
      · exact Or.inl h
      · by_cases hq : q = pid
        · subst hq
          obtain rfl := Option.some.inj (hp.symm.trans hq₁)
          exact Or.inr ⟨q, p', hself, hid, hstage ▸ hstill hid.symm hholder⟩
        · exact Or.inr ⟨q, q₁, (Machine.get_advance_ne hq).trans hq₁, hid, hholder⟩
    · exact Or.inr ⟨pid, p', hself, hid.symm, hstage ▸ hholder⟩
  · intro x hle hlt
    -- a session of before is still its creator's, the new one is of the call that moves
    have hbefore : x < w.st.created → ∃ q p₁, (machine.advance w pid i p c k).procs.get q = some p₁ ∧
        (stageOf p₁).own = some x := by
      intro hx
      obtain ⟨q, q₁, hq₁, hq₁own⟩ := hw.sessions x hle hx
      by_cases hq : q = pid
      · subst hq
        obtain rfl := Option.some.inj (hp.symm.trans hq₁)
        rcases hm.own with ⟨hsame, -⟩ | ⟨hnone, -⟩
        · exact ⟨q, p', hself, by rw [hstage, hsame]; exact hq₁own⟩
        · rw [hnone] at hq₁own
          cases hq₁own
      · exact ⟨q, q₁, (Machine.get_advance_ne hq).trans hq₁, hq₁own⟩
    have hlt' : x < s'.created := hlt
    rcases hm.own with ⟨-, hcreated⟩ | ⟨-, hnew, hcreated⟩
    · exact hbefore (by omega)
    · by_cases hx : x < w.st.created
      · exact hbefore hx
      · have hxeq : x = w.st.created := by omega
        exact ⟨pid, p', hself, by rw [hstage, hnew, hxeq]⟩
  · have hcreated : s'.created = w.st.created ∨ s'.created = w.st.created + 1 := by
      rcases hm.own with ⟨-, h⟩ | ⟨-, -, h⟩
      · exact Or.inl h
      · exact Or.inr h
    have hle := hw.created
    show s₀.created ≤ s'.created
    omega

end Sound

/-! ## When all calls have settled -/

/-- The stages say which transaction has been started and what the method has done. -/
theorem next_agrees {st : Stage} {c : Cmd} {r : Resp c} (h : st.next c r ≠ .broken) :
    (st.next c r).transaction = st.transaction.or (startedBy ⟨c, r⟩) ∧
      (st.next c r).outcome = st.outcome.or (settledBy ⟨c, r⟩) := by
  revert h
  unfold Stage.next
  split <;> intro h
  case h_10 =>
    split at h
    · rename_i hc
      rw [if_pos hc]
      exact ⟨rfl, rfl⟩
    · exact absurd rfl h
  all_goals first | exact ⟨rfl, rfl⟩ | exact absurd rfl h

theorem stage_agrees (args : List Argument) (h : Hist Resp) (hne : (protocol args).after .new h ≠ .broken) :
    transactionOf h = ((protocol args).after .new h).transaction ∧
      outcomeOf h = ((protocol args).after .new h).outcome := by
  induction h using List.reverseRecOn with
  | nil => exact ⟨rfl, rfl⟩
  | append_singleton h e ih =>
    obtain ⟨c, r⟩ := e
    rw [Protocol.after_snoc] at hne ⊢
    have hbefore : (protocol args).after .new h ≠ .broken := by
      intro hb
      rw [hb] at hne
      exact hne (Stage.next_broken c r)
    obtain ⟨htxn, hout⟩ := ih hbefore
    obtain ⟨htxn', hout'⟩ := next_agrees hne
    constructor
    · unfold transactionOf at htxn ⊢
      rw [List.findSome?_append, htxn, List.findSome?_singleton]
      exact htxn'.symm
    · unfold outcomeOf at hout ⊢
      rw [List.findSome?_append, hout, List.findSome?_singleton]
      exact hout'.symm

/-- **The transactions of undisturbed calls balance.** -/
theorem transactions_balance {s₀ : Shared} (h₀ : s₀.Valid) {es : List Step}
    (hes : machine.Along Undisturbed (Pool.init s₀) es) (hquiet : (machine.run (Pool.init s₀) es).Quiet) :
    Balanced s₀ (machine.run (Pool.init s₀) es) := by
  have hsound : Sound s₀ (machine.run (Pool.init s₀) es) := by
    refine Machine.run_inv (G := Undisturbed) (fun w pid args hw _ hn => hw.call hn)
      (fun w pid i p c k hw hG hp hr => ?_) (fun w v => v.elim) (sound_init s₀) hes
    have hpending : p.pending = some c := by simp [Proc.pending, hr]
    exact hw.step h₀ hp hr (hG p c hp hpending)
  set w := machine.run (Pool.init s₀) es with hw
  -- a call has returned, at a stage where it may
  have hfin : ∀ q p, w.procs.get q = some p → ∃ a, p.result = some a ∧ Stage.fin (stageOf p) a := by
    intro q p hp
    obtain ⟨a, ha⟩ := Option.ne_none_iff_exists'.1 (hquiet q p hp)
    have hfollows := hsound.obeys q p hp
    rw [Proc.result_eq_some.1 ha] at hfollows
    exact ⟨a, ha, hfollows⟩
  have hne : ∀ q p, w.procs.get q = some p → stageOf p ≠ .broken := by
    intro q p hp hb
    have hholds := hsound.holds q p hp
    rw [hb] at hholds
    exact hholds
  -- what a call whose method has settled leaves
  have hsettled : ∀ q p, w.procs.get q = some p → ∀ result, outcomeOf p.hist = some result →
      ∃ t, transactionOf p.hist = some t ∧ w.st.stateOf t = some (ends result) ∧ p.result = some result := by
    intro q p hp result hresult
    obtain ⟨a, ha, hfin'⟩ := hfin q p hp
    obtain ⟨htxn, hout⟩ := stage_agrees p.call p.hist (hne q p hp)
    have hholds := hsound.holds q p hp
    change transactionOf p.hist = (stageOf p).transaction at htxn
    change outcomeOf p.hist = (stageOf p).outcome at hout
    rw [hresult] at hout
    rw [htxn, ha]
    cases hst : stageOf p with
    | finished own t result' =>
      rw [hst] at hout hfin' hholds
      cases own with
      | none =>
        cases hout
        cases hfin'
        exact ⟨t, rfl, hholds.1.state, rfl⟩
      | some c => exact hfin'.elim
    | done c t result' =>
      rw [hst] at hout hfin' hholds
      cases hout
      cases hfin'
      exact ⟨t, rfl, hholds.1.state, rfl⟩
    | new => rw [hst] at hout; cases hout
    | rejected => rw [hst] at hout; cases hout
    | broken => exact absurd hst (hne q p hp)
    | _ => rw [hst] at hfin'; exact hfin'.elim
  refine ⟨fun id => ?_, fun c hle hlt => ?_, fun q p hp result hresult => hsettled q p hp _ hresult,
    fun q p hp e he => hsettled q p hp _ he⟩
  · cases hget₀ : s₀.sessionRequestMap.get id with
    | some c => exact hsound.kept id c hget₀
    | none =>
      by_contra hsome
      obtain ⟨c, hc⟩ := Option.ne_none_iff_exists'.1 hsome
      rcases hsound.entries id c hc with h | ⟨q, p, hp, -, hholder⟩
      · rw [hget₀] at h
        cases h
      · -- a call that holds an entry has not returned
        obtain ⟨a, -, hfin'⟩ := hfin q p hp
        cases hst : stageOf p with
        | finished own t result =>
          rw [hst] at hfin' hholder
          cases own with
          | none => cases hholder
          | some c' => exact hfin'.elim
        | new => rw [hst] at hholder; cases hholder
        | rejected => rw [hst] at hholder; cases hholder
        | done c' t result => rw [hst] at hholder; cases hholder
        | broken => exact absurd hst (hne q p hp)
        | _ => rw [hst] at hfin'; exact hfin'.elim
  · obtain ⟨q, p, hp, hown⟩ := hsound.sessions c hle hlt
    obtain ⟨a, -, hfin'⟩ := hfin q p hp
    have hholds := hsound.holds q p hp
    cases hst : stageOf p with
    | finished own t result =>
      rw [hst] at hfin' hown
      cases own with
      | none => cases hown
      | some c' => exact hfin'.elim
    | done c' t result =>
      rw [hst] at hown hholds
      cases hown
      exact hholds.2.ended
    | new => rw [hst] at hown; cases hown
    | rejected => rw [hst] at hown; cases hown
    | broken => exact absurd hst (hne q p hp)
    | _ => rw [hst] at hfin'; exact hfin'.elim

/-- No session yet. -/
def Shared.start : Shared := ⟨true, .empty, fun _ => .new, 0⟩

/-- What the world chooses when a method resolves. -/
def resolving : Choice := ⟨.ok "r", true⟩

/-- One call after another: the second method rejects. -/
def apart : List Step :=
  .call 1 [⟨some "x", none⟩] :: List.replicate 9 (.step 1 resolving) ++
    .call 2 [⟨some "x", none⟩] :: List.replicate 9 (.step 2 ⟨.error (.method "no"), true⟩)

theorem apart_balance : Balanced .start (machine.run (Pool.init .start) apart) :=
  transactions_balance (fun id c h => by simp [Shared.start] at h) (by decide +kernel) (by decide +kernel)

/-- Two calls of one correlation id look for a session before either has put one into the map. -/
def overlap : List Step :=
  [.call 1 [⟨some "x", none⟩], .call 2 [⟨some "x", none⟩], .step 1 resolving, .step 2 resolving,
    .step 1 resolving, .step 2 resolving, .step 1 resolving, .step 2 resolving, .step 1 resolving,
    .step 2 resolving] ++ List.replicate 5 (.step 1 resolving)

/-- **The overlap leaks a session**: both calls have settled, the first session has never been ended, and
the second call has been rejected without running its method. -/
theorem overlap_leaks_session : (machine.run (Pool.init .start) overlap).Quiet ∧
    ¬ Balanced .start (machine.run (Pool.init .start) overlap) := by
  refine ⟨by decide +kernel, fun h => ?_⟩
  have hended := h.ended 0 (le_refl 0) (by decide +kernel)
  revert hended
  decide +kernel

end NodeToolkit.Transactional
