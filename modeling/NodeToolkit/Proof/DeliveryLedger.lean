import NodeToolkit.Proof.EventsBroker

/-!
# The delivery ledger

Calls on the events broker, one after another.

* `Books`: what every call keeps of the registries, the records and the ledger.
* `Delivered`, `Retried`: the loop invariants of `publish` and of `retryFailedEvents`.
* `Owed`, `Closed`: whether a record is still to be retried, and how often it has been.
* `delivery_ledger`: what each call returns and which invocations it starts.
-/

namespace NodeToolkit.EventsBroker

open Async

variable {P : Type} {uuid : ℕ → String}

/-- **The invariant**: the ids of the records have been generated, each record is of an earlier
`publish` and of a handler that was interested, and no two are of the same. -/
structure Books (uuid : ℕ → String) (rs : List Registration) (s : Broker P) : Prop extends Registry rs s where
  generated : ∀ id filed, s.failedEvents.get id = some filed → ∃ i < s.generated, id = uuid i
  numbered : ∀ id filed, s.failedEvents.get id = some filed → filed.publication < s.publications
  unique : ∀ id id' filed filed', s.failedEvents.get id = some filed → s.failedEvents.get id' = some filed' →
    filed.publication = filed'.publication → filed.handlerId = filed'.handlerId → id = id'
  found : ∀ id filed, s.failedEvents.get id = some filed →
    ∃ handler ∈ interested rs filed.event.name, handler.id = filed.handlerId
  logged : ∀ n id, s.publications ≤ n → succeeded n id s.ledger = false

theorem invocation_eq {filed filed' : Filed P} (h : filed.invocation = filed'.invocation) :
    filed.publication = filed'.publication ∧ filed.handlerId = filed'.handlerId ∧ filed.event = filed'.event := by
  unfold Filed.invocation at h
  rw [Invocation.mk.injEq] at h
  exact ⟨h.1, h.2.1, h.2.2.1⟩

/-- The books of records that stay what they are about. -/
theorem Books.of_records {rs : List Registration} {s s' : Broker P} (hB : Books uuid rs s)
    (hu : s'.universalEventHandlers = s.universalEventHandlers) (he : s'.eventHandlers = s.eventHandlers)
    (hgenerated : s'.generated = s.generated) (hpublications : s'.publications = s.publications)
    (hlogged : ∀ n id, s'.publications ≤ n → succeeded n id s'.ledger = false)
    (hrecords : ∀ id filed, s'.failedEvents.get id = some filed →
      ∃ filed₀, s.failedEvents.get id = some filed₀ ∧ filed.invocation = filed₀.invocation) : Books uuid rs s' where
  toRegistry := hB.toRegistry.congr hu he
  generated := by
    intro id filed hget
    obtain ⟨filed₀, hget₀, -⟩ := hrecords id filed hget
    rw [hgenerated]
    exact hB.generated id filed₀ hget₀
  numbered := by
    intro id filed hget
    obtain ⟨filed₀, hget₀, hv⟩ := hrecords id filed hget
    rw [hpublications, (invocation_eq hv).1]
    exact hB.numbered id filed₀ hget₀
  unique := by
    intro id id' filed filed' hget hget' hn hid
    obtain ⟨filed₀, hget₀, hv⟩ := hrecords id filed hget
    obtain ⟨filed₀', hget₀', hv'⟩ := hrecords id' filed' hget'
    have h := invocation_eq hv
    have h' := invocation_eq hv'
    exact hB.unique id id' filed₀ filed₀' hget₀ hget₀' (by rw [← h.1, ← h'.1, hn]) (by rw [← h.2.1, ← h'.2.1, hid])
  found := by
    intro id filed hget
    obtain ⟨filed₀, hget₀, hv⟩ := hrecords id filed hget
    rw [(invocation_eq hv).2.1, (invocation_eq hv).2.2]
    exact hB.found id filed₀ hget₀
  logged := hlogged

/-- No record of the handler for the `publish` is to be retried. -/
def Closed (n : ℕ) (id : String) (s : Broker P) : Prop :=
  ∀ key filed, s.failedEvents.get key = some filed → filed.publication = n → filed.handlerId = id →
    filed.processedSuccessfully = true

/-- The record of an invocation after `t` passes, none of which succeeded. -/
def Owed (v : Invocation P) (maxRetries t : ℕ) (s : Broker P) : Prop :=
  ∃ key filed, s.failedEvents.get key = some filed ∧ filed.invocation = v ∧
    filed.handlerMaxRetries = maxRetries ∧ filed.retries = min t maxRetries ∧ filed.processedSuccessfully = false

/-- How a handler and a `publish` stand after `t` passes. -/
def Standing (v : Invocation P) (maxRetries t : ℕ) (s : Broker P) : Prop :=
  if succeeded v.publication v.handlerId s.ledger = true then Closed v.publication v.handlerId s
  else Owed v maxRetries t s

/-! ## Publishing -/

section Publish

variable {rs : List Registration} {s₀ s : Broker P} {event : Event P} {session : String} {done rest : List Handler}
  {handler : Handler}

/-- **The loop invariant** of `publish`, with the new part `L` of the ledger. -/
structure Delivered (uuid : ℕ → String) (s₀ : Broker P) (event : Event P) (session : String) (done : List Handler)
    (L : List (Entry P)) (s : Broker P) : Prop where
  universal : s.universalEventHandlers = s₀.universalEventHandlers
  specific : s.eventHandlers = s₀.eventHandlers
  publications : s.publications = s₀.publications + 1
  ledger : s.ledger = s₀.ledger ++ L
  started : starts L = done.map (invoke s₀.publications event session)
  others : ∀ n id, n ≠ s₀.publications → succeeded n id L = false
  coming : ∀ id, id ∉ done.map (·.id) → succeeded s₀.publications id L = false
  generated : ∀ id filed, s.failedEvents.get id = some filed → ∃ i < s.generated, id = uuid i
  older : ∀ id filed, filed.publication ≠ s₀.publications →
    (s.failedEvents.get id = some filed ↔ s₀.failedEvents.get id = some filed)
  filed : ∀ id filed, s.failedEvents.get id = some filed → filed.publication = s₀.publications →
    filed.event = event ∧ ∃ handler ∈ done, handler.id = filed.handlerId
  unique : ∀ id id' filed filed', s.failedEvents.get id = some filed → s.failedEvents.get id' = some filed' →
    filed.publication = s₀.publications → filed'.publication = s₀.publications →
    filed.handlerId = filed'.handlerId → id = id'
  standing : ∀ handler ∈ done, Standing (invoke s₀.publications event session handler) handler.maxRetries 0 s

theorem Delivered.start (hB : Books uuid rs s₀) :
    Delivered uuid s₀ event session [] [] { s₀ with publications := s₀.publications + 1 } where
  universal := rfl
  specific := rfl
  publications := rfl
  ledger := (List.append_nil _).symm
  started := rfl
  others := fun _ _ _ => rfl
  coming := fun _ _ => rfl
  generated := hB.generated
  older := fun _ _ _ => Iff.rfl
  filed := fun id filed h hn => absurd (hB.numbered id filed h) (by omega)
  unique := fun id _ filed _ h _ hn _ _ => absurd (hB.numbered id filed h) (by omega)
  standing := fun _ h => by simp at h

/-- The standing of another handler is not changed by what concerns one handler only. -/
theorem Standing.of_other {v : Invocation P} {R t : ℕ} {s s' : Broker P} (h : Standing v R t s)
    (hledger : succeeded v.publication v.handlerId s'.ledger = succeeded v.publication v.handlerId s.ledger)
    (hrecords : ∀ key filed, filed.publication = v.publication → filed.handlerId = v.handlerId →
      (s'.failedEvents.get key = some filed ↔ s.failedEvents.get key = some filed)) : Standing v R t s' := by
  unfold Standing at h ⊢
  rw [hledger]
  split
  · rename_i hsucc
    rw [if_pos hsucc] at h
    intro key filed hget hn hid
    exact h key filed ((hrecords key filed hn hid).1 hget) hn hid
  · rename_i hsucc
    rw [if_neg hsucc] at h
    obtain ⟨key, filed, hget, hv, hrest⟩ := h
    have hn : filed.publication = v.publication := by rw [← hv]; rfl
    have hid : filed.handlerId = v.handlerId := by rw [← hv]; rfl
    exact ⟨key, filed, (hrecords key filed hn hid).2 hget, hv, hrest⟩

/-- A round in which the handler succeeds. -/
theorem Delivered.succeed {L : List (Entry P)} (hD : Delivered uuid s₀ event session done L s)
    (hnew : handler.id ∉ done.map (·.id)) :
    Delivered uuid s₀ event session (done ++ [handler])
      (L ++ [.started (invoke s₀.publications event session handler)] ++
        [.settled (invoke s₀.publications event session handler) none])
      ((s.log (.started (invoke s₀.publications event session handler))).log
        (.settled (invoke s₀.publications event session handler) none)) where
  universal := hD.universal
  specific := hD.specific
  publications := hD.publications
  ledger := by simp only [log_ledger, hD.ledger, List.append_assoc]
  started := by simp [hD.started]
  others := by
    intro n id hn
    have hother : (invoke s₀.publications event session handler).isOf n id = false := by
      rw [isOf_eq_false]
      exact fun h => hn h.1.symm
    simp [hD.others n id hn, hother]
  coming := by
    intro id hid
    rw [List.map_append, List.mem_append, not_or] at hid
    have hother : (invoke s₀.publications event session handler).isOf s₀.publications id = false := by
      rw [isOf_eq_false]
      exact fun h => hid.2 (List.mem_singleton.2 h.2.symm)
    simp [hD.coming id hid.1, hother]
  generated := hD.generated
  older := hD.older
  filed := by
    intro id filed hget hn
    obtain ⟨hevent, handler', hmem, hid⟩ := hD.filed id filed hget hn
    exact ⟨hevent, handler', List.mem_append_left _ hmem, hid⟩
  unique := hD.unique
  standing := by
    intro handler' hmem
    rcases List.mem_append.1 hmem with hold | hlast
    · have hne : handler.id ≠ handler'.id := fun h => hnew (h ▸ List.mem_map_of_mem hold)
      refine (hD.standing handler' hold).of_other ?_ fun _ _ _ _ => Iff.rfl
      have hother : (invoke s₀.publications event session handler).isOf s₀.publications handler'.id = false := by
        rw [isOf_eq_false]
        exact fun h => hne h.2
      show succeeded s₀.publications handler'.id _ = succeeded s₀.publications handler'.id _
      simp [hother]
    · rw [List.mem_singleton.1 hlast]
      have hsucc : succeeded s₀.publications handler.id
          ((s.log (.started (invoke s₀.publications event session handler))).log
            (.settled (invoke s₀.publications event session handler) none)).ledger = true := by
        simp [Invocation.isOf, invoke]
      -- no record of this handler has been made by this `publish`
      refine (if_pos hsucc).mpr fun key filed hget hn hid => ?_
      obtain ⟨-, handler'', hmem'', hid''⟩ := hD.filed key filed hget hn
      have hin : handler.id ∈ done.map (·.id) := by
        rw [show handler.id = handler''.id from hid.symm.trans hid''.symm]
        exact List.mem_map_of_mem hmem''
      exact absurd hin hnew

/-- A round in which the handler throws. -/
theorem Delivered.fail {L : List (Entry P)} (hu : Function.Injective uuid)
    (hD : Delivered uuid s₀ event session done L s) (hB : Books uuid rs s₀)
    (hnew : handler.id ∉ done.map (·.id)) (error : String) (i : Choice) :
    Delivered uuid s₀ event session (done ++ [handler])
      (L ++ [.started (invoke s₀.publications event session handler)] ++
        [.settled (invoke s₀.publications event session handler) (some error)])
      (exec uuid i ((s.log (.started (invoke s₀.publications event session handler))).log
        (.settled (invoke s₀.publications event session handler) (some error)))
        (.save (invoke s₀.publications event session handler) handler.maxRetries error)).1 := by
  set record : Filed P := ⟨failedEvent (uuid s.generated) (invoke s₀.publications event session handler)
    handler.maxRetries error i.now, s₀.publications⟩ with hrecord
  have hget : ∀ id filed, (s.failedEvents.set (uuid s.generated) record).get id = some filed ↔
      uuid s.generated = id ∧ record = filed ∨ s.failedEvents.get id = some filed :=
    fun _ _ => get_save hu hD.generated
  have hnone : ∀ id filed, s.failedEvents.get id = some filed → filed.publication = s₀.publications →
      filed.handlerId ≠ handler.id := by
    intro id filed hfiled hn hid
    obtain ⟨-, handler', hmem, hid'⟩ := hD.filed id filed hfiled hn
    exact hnew (by rw [← hid, ← hid']; exact List.mem_map_of_mem hmem)
  refine ⟨hD.universal, hD.specific, hD.publications, ?_, ?_, ?_, ?_, ?_, ?_, ?_, ?_, ?_⟩
  · show (s.ledger ++ [_]) ++ [_] = _
    simp only [hD.ledger, List.append_assoc]
  · simp [hD.started]
  · intro n id hn
    simp [hD.others n id hn]
  · intro id hid
    rw [List.map_append, List.mem_append, not_or] at hid
    simp [hD.coming id hid.1]
  · exact fun _ _ hfiled => generated_save hu hD.generated hfiled
  · intro id filed hn
    show (s.failedEvents.set (uuid s.generated) record).get id = some filed ↔ _
    rw [hget, ← hD.older id filed hn]
    constructor
    · rintro (⟨-, rfl⟩ | hold)
      · exact absurd rfl hn
      · exact hold
    · exact Or.inr
  · intro id filed hfiled hn
    rcases (hget id filed).1 hfiled with ⟨-, rfl⟩ | hold
    · exact ⟨rfl, handler, by simp, rfl⟩
    · obtain ⟨hevent, handler', hmem, hid⟩ := hD.filed id filed hold hn
      exact ⟨hevent, handler', List.mem_append_left _ hmem, hid⟩
  · intro id id' filed filed' hfiled hfiled' hn hn' hid
    rcases (hget id filed).1 hfiled with ⟨rfl, rfl⟩ | hold
    · rcases (hget id' filed').1 hfiled' with ⟨rfl, -⟩ | hold'
      · rfl
      · exact absurd hid.symm (hnone id' filed' hold' hn')
    · rcases (hget id' filed').1 hfiled' with ⟨-, rfl⟩ | hold'
      · exact absurd hid (hnone id filed hold hn)
      · exact hD.unique id id' filed filed' hold hold' hn hn' hid
  · intro handler' hmem
    rcases List.mem_append.1 hmem with hold | hlast
    · have hne : handler.id ≠ handler'.id := fun h => hnew (h ▸ List.mem_map_of_mem hold)
      refine (hD.standing handler' hold).of_other ?_ fun key filed _ hid => ?_
      · show succeeded _ _ ((s.ledger ++ [_]) ++ [_]) = _
        simp
      · show (s.failedEvents.set (uuid s.generated) record).get key = some filed ↔ _
        rw [hget]
        constructor
        · rintro (⟨-, rfl⟩ | hold)
          · exact absurd hid hne
          · exact hold
        · exact Or.inr
    · rw [List.mem_singleton.1 hlast]
      have hfailed : succeeded s₀.publications handler.id
          ((s.ledger ++ [Entry.started (invoke s₀.publications event session handler)]) ++
            [.settled (invoke s₀.publications event session handler) (some error)]) = false := by
        simp [hD.ledger, hB.logged s₀.publications handler.id (Nat.le_refl _), hD.coming handler.id hnew]
      refine (if_neg ?_).mpr ⟨uuid s.generated, record, OMap.get_set_self .., rfl, rfl, rfl, rfl⟩
      rw [Bool.not_eq_true]
      exact hfailed

/-- With distinct ids, the next handler is none of those before. -/
theorem next_notMem (h : ((done ++ handler :: rest).map (·.id)).Nodup) : handler.id ∉ done.map (·.id) := by
  rw [List.map_append, List.map_cons] at h
  exact fun hmem => (List.disjoint_of_nodup_append h) hmem (by simp)

/-- **One round** of the loops. -/
theorem deliver_round (hu : Function.Injective uuid) (hB : Books uuid rs s₀) (hnew : handler.id ∉ done.map (·.id)) :
    Triple (exec uuid) (fun s => ∃ L, Delivered uuid s₀ event session done L s)
      (deliver s₀.publications event session handler)
      fun _ s => ∃ L, Delivered uuid s₀ event session (done ++ [handler]) L s := by
  unfold deliver
  refine .await (T := fun _ s => ∃ s' L, Delivered uuid s₀ event session done L s' ∧
    s = s'.log (.started (invoke s₀.publications event session handler))) ?_ fun _ => ?_
  · rintro i s ⟨L, hD⟩
    exact ⟨s, L, hD, rfl⟩
  refine .await (T := fun error s => ∃ s' L, Delivered uuid s₀ event session done L s' ∧
    s = (s'.log (.started (invoke s₀.publications event session handler))).log
      (.settled (invoke s₀.publications event session handler) error)) ?_ fun error => ?_
  · rintro i s ⟨s', L, hD, rfl⟩
    exact ⟨s', L, hD, rfl⟩
  cases error with
  | none =>
    refine .ret ?_
    rintro s ⟨s', L, hD, rfl⟩
    exact ⟨_, hD.succeed hnew⟩
  | some error =>
    refine .command ?_
    rintro i s ⟨s', L, hD, rfl⟩
    exact ⟨_, hD.fail hu hB hnew error i⟩

/-- **What `publish` does.** -/
theorem publish_spec (hu : Function.Injective uuid) (hB : Books uuid rs s₀) :
    Triple (exec uuid) (fun s => s = s₀) (publish event session)
      fun _ s => ∃ L, Delivered uuid s₀ event session (interested rs event.name) L s := by
  have hids := hB.interested_ids event.name
  have hall := hB.interested_eq event.name
  unfold publish
  refine .bind (Q := fun n s => n = s₀.publications ∧ ∃ L, Delivered uuid s₀ event session [] L s)
    (.command ?_) fun n => .pre ?_
  · rintro i s rfl
    exact ⟨rfl, [], Delivered.start hB⟩
  rintro rfl
  refine .bind (Q := fun hs s => hs = s₀.universalEventHandlers ∧ ∃ L, Delivered uuid s₀ event session [] L s)
    (.command ?_) fun hs => .pre ?_
  · rintro i s ⟨L, hD⟩
    exact ⟨hD.universal, L, hD⟩
  rintro rfl
  -- the loop over the universal handlers
  refine .bind (.forEach (I := fun done s => ∃ L, Delivered uuid s₀ event session done L s) ?_) fun _ => ?_
  · intro done handler rest hsplit
    rw [← hall, hsplit, List.append_assoc, List.cons_append] at hids
    exact deliver_round hu hB (next_notMem hids)
  refine .bind (Q := fun hs s => hs = s₀.eventHandlers.get event.name ∧
      ∃ L, Delivered uuid s₀ event session s₀.universalEventHandlers L s)
    (.command ?_) fun hs => .pre fun hget => ?_
  · rintro i s ⟨L, hD⟩
    exact ⟨congrArg (OMap.get · event.name) hD.specific, L, hD⟩
  rw [← hget] at hall
  cases hs with
  | none =>
    rw [Option.getD_none, List.map_nil, List.append_nil] at hall
    rw [← hall]
    exact .ret fun s hs => hs
  | some hs =>
    -- the loop over the handlers of the name goes on where the first loop has ended
    rw [Option.getD_some] at hall
    rw [← hall]
    refine .mono ?_ (fun _ s hs => hs) (.forEach (I := fun done s => ∃ L, Delivered uuid s₀ event session
      (s₀.universalEventHandlers ++ done.map EventHandler.toHandler) L s) ?_)
    · intro s hs
      rw [List.map_nil, List.append_nil]
      exact hs
    · intro done handler rest hsplit
      rw [List.map_append, List.map_singleton, ← List.append_assoc]
      rw [hsplit, List.map_append, List.map_cons, ← List.append_assoc] at hall
      rw [← hall] at hids
      exact deliver_round hu hB (next_notMem hids)

variable {L : List (Entry P)}

/-- **The books** after a `publish`. -/
theorem Delivered.books (hB : Books uuid rs s₀)
    (hD : Delivered uuid s₀ event session (interested rs event.name) L s) : Books uuid rs s where
  toRegistry := hB.toRegistry.congr hD.universal hD.specific
  generated := hD.generated
  numbered := by
    intro id filed hget
    rw [hD.publications]
    by_cases hn : filed.publication = s₀.publications
    · omega
    · have hold := hB.numbered id filed ((hD.older id filed hn).1 hget)
      omega
  unique := by
    intro id id' filed filed' hget hget' hn hid
    by_cases hnew : filed.publication = s₀.publications
    · exact hD.unique id id' filed filed' hget hget' hnew (hn.symm.trans hnew) hid
    · have hnew' : filed'.publication ≠ s₀.publications := fun h => hnew (hn.trans h)
      exact hB.unique id id' filed filed' ((hD.older id filed hnew).1 hget) ((hD.older id' filed' hnew').1 hget') hn hid
  found := by
    intro id filed hget
    by_cases hn : filed.publication = s₀.publications
    · obtain ⟨hevent, hfound⟩ := hD.filed id filed hget hn
      rw [hevent]
      exact hfound
    · exact hB.found id filed ((hD.older id filed hn).1 hget)
  logged := by
    intro n id hn
    rw [hD.publications] at hn
    rw [hD.ledger, succeeded_append, hB.logged n id (by omega), hD.others n id (by omega), Bool.or_self]

/-- What concerns an earlier `publish` stays. -/
theorem Delivered.closed (hD : Delivered uuid s₀ event session done L s) {n : ℕ} {id : String}
    (hn : n < s₀.publications) (h : Closed n id s₀) : Closed n id s := by
  intro key filed hget hpub hid
  have hne : filed.publication ≠ s₀.publications := by omega
  exact h key filed ((hD.older key filed hne).1 hget) hpub hid

theorem Delivered.keeps (hD : Delivered uuid s₀ event session done L s) {v : Invocation P} {R t : ℕ}
    (hn : v.publication < s₀.publications) (h : Standing v R t s₀) : Standing v R t s := by
  refine h.of_other ?_ fun key filed hpub _ => hD.older key filed (by omega)
  rw [hD.ledger, succeeded_append, hD.others _ _ (by omega), Bool.or_false]

/-- A handler that is not interested gets no record. -/
theorem Delivered.uninterested (hD : Delivered uuid s₀ event session done L s) {id : String}
    (hid : id ∉ done.map (·.id)) : Closed s₀.publications id s := by
  intro key filed hget hn hhandler
  obtain ⟨-, handler, hmem, hsame⟩ := hD.filed key filed hget hn
  refine absurd ?_ hid
  rw [← hhandler, ← hsame]
  exact List.mem_map_of_mem hmem

end Publish

/-! ## Retrying -/

section Retry

variable {rs : List Registration} {s₀ s : Broker P} {done : List String} {id : String} {L : List (Entry P)}
  {filed : Filed P}

/-- **The loop invariant** of `retryFailedEvents`, with the new part `L` of the ledger. -/
structure Retried (s₀ : Broker P) (done : List String) (L : List (Entry P)) (s : Broker P) : Prop where
  universal : s.universalEventHandlers = s₀.universalEventHandlers
  specific : s.eventHandlers = s₀.eventHandlers
  generated : s.generated = s₀.generated
  publications : s.publications = s₀.publications
  ledger : s.ledger = s₀.ledger ++ L
  started : starts L = done.filterMap fun id => (s₀.failedEvents.get id).map Filed.invocation
  coming : ∀ id ∉ done, s.failedEvents.get id = s₀.failedEvents.get id
  retried : ∀ id ∈ done, ∀ filed₀, s₀.failedEvents.get id = some filed₀ → ∃ filed,
    s.failedEvents.get id = some filed ∧ filed.invocation = filed₀.invocation ∧
    filed.handlerMaxRetries = filed₀.handlerMaxRetries ∧ filed.retries = filed₀.retries + 1 ∧
    filed.processedSuccessfully = succeeded filed₀.publication filed₀.handlerId L
  others : ∀ n handlerId, (∀ id ∈ done, ∀ filed₀, s₀.failedEvents.get id = some filed₀ →
    filed₀.publication = n → filed₀.handlerId ≠ handlerId) → succeeded n handlerId L = false

theorem Retried.start : Retried s₀ [] [] s₀ where
  universal := rfl
  specific := rfl
  generated := rfl
  publications := rfl
  ledger := (List.append_nil _).symm
  started := rfl
  coming := fun _ _ => rfl
  retried := fun _ h => by simp at h
  others := fun _ _ _ => rfl

/-- A record after a retry that began at `now` and ended with `error`. -/
def Filed.retriedAt (filed : Filed P) (now : ℕ) (error : Option String) : Filed P :=
  { filed with
    lastProcessingTryDate := now
    retries := filed.retries + 1
    lastError := error.getD filed.lastError
    processedSuccessfully := filed.processedSuccessfully || error.isNone }

/-- The broker after a retry of the record. -/
def afterRetry (s : Broker P) (id : String) (filed : Filed P) (now : ℕ) (error : Option String) : Broker P :=
  { s with
    failedEvents := s.failedEvents.set id (filed.retriedAt now error)
    ledger := s.ledger ++ [.started filed.invocation, .settled filed.invocation error] }

/-- A retry that finds the record and its handler. -/
theorem retry_run (uuid : ℕ → String) {handler : Handler} (hget : s₀.failedEvents.get id = some filed)
    (hfound : s₀.handlerOf filed.toFailedEvent = some handler) :
    Triple (exec uuid) (fun s => s = s₀) (retry id) fun _ s => ∃ now error, s = afterRetry s₀ id filed now error := by
  unfold retry
  refine .await (T := fun v s => v = some filed.invocation ∧ ∃ now,
    s = (s₀.startRetry id now).1) ?_ fun v => .pre ?_
  · rintro i s rfl
    have hstart := startRetry_some hget hfound i.now
    exact ⟨congrArg Prod.snd hstart, i.now, rfl⟩
  rintro rfl
  refine .await (T := fun error s => ∃ now, s = (s₀.startRetry id now).1.log (.settled filed.invocation error))
    ?_ fun error => ?_
  · rintro i s ⟨now, rfl⟩
    exact ⟨now, rfl⟩
  refine .command ?_
  rintro i s ⟨now, rfl⟩
  refine ⟨now, error, ?_⟩
  show Broker.endRetry _ id error = _
  rw [startRetry_some hget hfound now, endRetry_some (OMap.get_set_self ..)]
  unfold afterRetry Filed.retriedAt
  simp only [Broker.log, OMap.set_set, List.append_assoc, List.cons_append, List.nil_append]

/-- **One round** of the loop. -/
theorem Retried.retry (hB : Books uuid rs s₀) (hR : Retried s₀ done L s) (hnew : id ∉ done)
    (hget : s₀.failedEvents.get id = some filed) (hopen : filed.processedSuccessfully = false) (now : ℕ)
    (error : Option String) : Retried s₀ (done ++ [id])
      (L ++ [.started filed.invocation, .settled filed.invocation error]) (afterRetry s id filed now error) := by
  -- the records of the rounds before are of other handlers or publications
  have hother : ∀ id' ∈ done, ∀ filed', s₀.failedEvents.get id' = some filed' →
      filed.invocation.isOf filed'.publication filed'.handlerId = false := by
    intro id' hmem filed' hget'
    rw [isOf_eq_false]
    rintro ⟨hn, hid⟩
    exact hnew (hB.unique id id' filed filed' hget hget' hn hid ▸ hmem)
  have hfirst : succeeded filed.publication filed.handlerId L = false := by
    refine hR.others _ _ fun id' hmem filed' hget' hn hid => hnew ?_
    rw [hB.unique id id' filed filed' hget hget' hn.symm hid.symm]
    exact hmem
  refine ⟨hR.universal, hR.specific, hR.generated, hR.publications, ?_, ?_, ?_, ?_, ?_⟩
  · show s.ledger ++ _ = _
    rw [hR.ledger, List.append_assoc]
  · simp [hR.started, hget]
  · intro id' hid'
    rw [List.mem_append, not_or, List.mem_singleton] at hid'
    show (s.failedEvents.set id _).get id' = _
    rw [OMap.get_set_ne _ _ (Ne.symm hid'.2), hR.coming id' hid'.1]
  · intro id' hmem filed' hget'
    show ∃ f, (s.failedEvents.set id _).get id' = some f ∧ _
    rcases List.mem_append.1 hmem with hold | hlast
    · have hne : id ≠ id' := fun h => hnew (h ▸ hold)
      obtain ⟨f, hf, hv, hmax, hretries, hflag⟩ := hR.retried id' hold filed' hget'
      refine ⟨f, (OMap.get_set_ne _ _ hne).trans hf, hv, hmax, hretries, ?_⟩
      simp [hflag, hother id' hold filed' hget']
    · rw [List.mem_singleton] at hlast
      subst hlast
      obtain rfl : filed' = filed := Option.some.inj (hget'.symm.trans hget)
      refine ⟨_, OMap.get_set_self .., rfl, rfl, rfl, ?_⟩
      have hself : filed'.invocation.isOf filed'.publication filed'.handlerId = true := isOf_iff.2 ⟨rfl, rfl⟩
      simp [Filed.retriedAt, hopen, hfirst, hself]
  · intro n handlerId hnone
    have hthis : filed.invocation.isOf n handlerId = false := by
      rw [isOf_eq_false]
      rintro ⟨hn, hid⟩
      exact hnone id (by simp) filed hget hn hid
    have hbefore := hR.others n handlerId fun id' hmem => hnone id' (List.mem_append_left _ hmem)
    simp [hbefore, hthis]

/-- **What `retryFailedEvents` does.** -/
theorem retryFailedEvents_spec (hB : Books uuid rs s₀) :
    Triple (exec uuid) (fun s => s = s₀) retryFailedEvents fun _ s => ∃ L, Retried s₀ s₀.unsuccessfull L s := by
  unfold retryFailedEvents
  refine .bind (Q := fun ids s => ids = s₀.unsuccessfull ∧ ∃ L, Retried s₀ [] L s)
    (.command ?_) fun ids => .pre ?_
  · rintro i s rfl
    exact ⟨rfl, [], Retried.start⟩
  rintro rfl
  refine .forEach (I := fun done s => ∃ L, Retried s₀ done L s) fun done id rest hsplit => ?_
  have hmem : id ∈ s₀.unsuccessfull := by rw [hsplit]; simp
  have hnew : id ∉ done := by
    have hnodup := unsuccessfull_nodup (s := s₀)
    rw [hsplit] at hnodup
    exact fun h => (List.disjoint_of_nodup_append hnodup) h (by simp)
  obtain ⟨filed, hget, hopen, -⟩ := mem_unsuccessfull.1 hmem
  rintro w ⟨L, hR⟩
  have hgetR : w.1.failedEvents.get id = some filed := (hR.coming id hnew).trans hget
  obtain ⟨handler, hfound⟩ := (hB.toRegistry.congr hR.universal hR.specific).handlerOf_isSome
    (hB.found id filed hget)
  obtain ⟨now, error, hs⟩ := retry_run uuid hgetR hfound w rfl
  rw [hs]
  exact ⟨_, hR.retry hB hnew hget hopen now error⟩

/-- A record after the pass, and what it was before. -/
theorem Retried.record (hR : Retried s₀ s₀.unsuccessfull L s) (hget : s.failedEvents.get id = some filed) :
    ∃ filed₀, s₀.failedEvents.get id = some filed₀ ∧ filed.invocation = filed₀.invocation ∧
      (id ∉ s₀.unsuccessfull → filed = filed₀) := by
  by_cases hmem : id ∈ s₀.unsuccessfull
  · obtain ⟨filed₀, hget₀, -⟩ := mem_unsuccessfull.1 hmem
    obtain ⟨filed', hget', hv, -⟩ := hR.retried id hmem filed₀ hget₀
    obtain rfl : filed = filed' := Option.some.inj (hget.symm.trans hget')
    exact ⟨filed₀, hget₀, hv, fun hnot => absurd hmem hnot⟩
  · exact ⟨filed, (hR.coming id hmem).symm.trans hget, rfl, fun _ => rfl⟩

/-- **The books** after a pass. -/
theorem Retried.books (hB : Books uuid rs s₀) (hR : Retried s₀ s₀.unsuccessfull L s) : Books uuid rs s := by
  refine hB.of_records hR.universal hR.specific hR.generated hR.publications ?_ fun id filed hget => ?_
  · intro n id hn
    rw [hR.publications] at hn
    have hnew : succeeded n id L = false := by
      refine hR.others n id fun key _ filed₀ hget₀ hpub => ?_
      have hold := hB.numbered key filed₀ hget₀
      omega
    rw [hR.ledger, succeeded_append, hB.logged n id hn, hnew, Bool.or_self]
  · obtain ⟨filed₀, hget₀, hv, -⟩ := hR.record hget
    exact ⟨filed₀, hget₀, hv⟩

/-- In a list of distinct keys, only one of which has a value in `p`. -/
theorem filter_filterMap {α β : Type} {l : List α} {g : α → Option β} {p : β → Bool} [DecidableEq α] {a : α} {b : β}
    (hl : l.Nodup) (hb : g a = some b) (hp : p b = true) (hne : ∀ a' ∈ l, ∀ b' ∈ g a', p b' = true → a' = a) :
    (l.filterMap g).filter p = if a ∈ l then [b] else [] := by
  induction l with
  | nil => simp
  | cons a' l ih =>
    rw [List.nodup_cons] at hl
    have hrest := ih hl.2 fun x hx => hne x (List.mem_cons_of_mem _ hx)
    by_cases heq : a' = a
    · subst heq
      rw [List.filterMap_cons_some hb, List.filter_cons_of_pos hp, hrest, if_neg hl.1, if_pos (by simp)]
    · have hin : a ∈ a' :: l ↔ a ∈ l := by simp [Ne.symm heq]
      simp only [hin, ← hrest]
      cases hg : g a' with
      | none => rw [List.filterMap_cons_none hg]
      | some b' =>
        have hnot : ¬ p b' = true := fun h => heq (hne a' (by simp) b' hg h)
        rw [List.filterMap_cons_some hg, List.filter_cons_of_neg hnot]

/-- Where nothing is to be retried, a pass starts nothing and changes nothing. -/
theorem Retried.closed (hR : Retried s₀ s₀.unsuccessfull L s) {n : ℕ} {handlerId : String}
    (h : Closed n handlerId s₀) :
    (starts L).filter (Invocation.isOf n handlerId) = [] ∧ Closed n handlerId s := by
  constructor
  · rw [hR.started, List.filter_eq_nil_iff]
    intro v hv hof
    obtain ⟨id, hmem, hrec⟩ := List.mem_filterMap.1 hv
    obtain ⟨filed, hget, hopen, -⟩ := mem_unsuccessfull.1 hmem
    rw [hget, Option.map_some, Option.some.injEq] at hrec
    rw [← hrec, isOf_iff] at hof
    have hdone := h id filed hget hof.1 hof.2
    rw [hopen] at hdone
    exact Bool.noConfusion hdone
  · intro id filed hget hn hid
    obtain ⟨filed₀, hget₀, hv, hsame⟩ := hR.record hget
    have hdone := h id filed₀ hget₀ ((invocation_eq hv).1.symm.trans hn) ((invocation_eq hv).2.1.symm.trans hid)
    have hnot : id ∉ s₀.unsuccessfull := by
      intro hmem
      obtain ⟨filed', hget', hopen, -⟩ := mem_unsuccessfull.1 hmem
      rw [Option.some.inj (hget'.symm.trans hget₀), hdone] at hopen
      exact Bool.noConfusion hopen
    rw [hsame hnot]
    exact hdone

/-- **A pass re-invokes** a handler whose record has retries left, once, and no other. -/
theorem Retried.standing (hB : Books uuid rs s₀) (hR : Retried s₀ s₀.unsuccessfull L s) {v : Invocation P} {R t : ℕ}
    (h : Standing v R t s₀) : (starts L).filter (Invocation.isOf v.publication v.handlerId) =
      (if succeeded v.publication v.handlerId s₀.ledger = false ∧ t < R then [v] else []) ∧
    Standing v R (t + 1) s := by
  unfold Standing at h
  by_cases hsucc : succeeded v.publication v.handlerId s₀.ledger = true
  · rw [if_pos hsucc] at h
    obtain ⟨hstarts, hclosed⟩ := hR.closed h
    have hafter : succeeded v.publication v.handlerId s.ledger = true := by
      rw [hR.ledger, succeeded_append, hsucc, Bool.true_or]
    refine ⟨by rw [hstarts, if_neg]; simp [hsucc], ?_⟩
    unfold Standing
    rwa [if_pos hafter]
  · rw [if_neg hsucc] at h
    rw [Bool.not_eq_true] at hsucc
    obtain ⟨id, filed, hget, hv, hmax, hretries, hopen⟩ := h
    have hn : filed.publication = v.publication := by rw [← hv]; rfl
    have hid : filed.handlerId = v.handlerId := by rw [← hv]; rfl
    -- by uniqueness `id` is the only record of the handler for the `publish`
    have honly : ∀ id' filed', s₀.failedEvents.get id' = some filed' → filed'.publication = v.publication →
        filed'.handlerId = v.handlerId → id' = id := fun id' filed' hget' hn' hid' =>
      hB.unique id' id filed' filed hget' hget (hn'.trans hn.symm) (hid'.trans hid.symm)
    have hmem : id ∈ s₀.unsuccessfull ↔ t < R := by
      rw [mem_unsuccessfull]
      constructor
      · rintro ⟨filed', hget', -, hlt⟩
        rw [Option.some.inj (hget'.symm.trans hget)] at hlt
        omega
      · intro hlt
        exact ⟨filed, hget, hopen, by omega⟩
    have hstarts : (starts L).filter (Invocation.isOf v.publication v.handlerId) = if t < R then [v] else [] := by
      rw [hR.started, filter_filterMap unsuccessfull_nodup (a := id) (b := v) (by rw [hget, ← hv]; rfl)
        (isOf_iff.2 ⟨rfl, rfl⟩)]
      · simp only [hmem]
      · intro id' _ v' hv' hof
        obtain ⟨filed', hget', rfl⟩ := Option.map_eq_some_iff.1 hv'
        rw [isOf_iff] at hof
        exact honly id' filed' hget' hof.1 hof.2
    refine ⟨by simp [hstarts, hsucc], ?_⟩
    have hledger : succeeded v.publication v.handlerId s.ledger = succeeded v.publication v.handlerId L := by
      rw [hR.ledger, succeeded_append, hsucc, Bool.false_or]
    unfold Standing
    rw [hledger]
    by_cases hlt : t < R
    -- the record is retried: it is closed by a success and counts one more pass otherwise
    · obtain ⟨filed', hget', hv', hmax', hretries', hflag⟩ := hR.retried id (hmem.2 hlt) filed hget
      rw [hn, hid] at hflag
      split
      · rename_i hok
        intro id' filed'' hget'' hn'' hid''
        obtain ⟨filed₀, hget₀, hv₀, -⟩ := hR.record hget''
        have hsame := invocation_eq hv₀
        obtain rfl := honly id' filed₀ hget₀ (hsame.1.symm.trans hn'') (hsame.2.1.symm.trans hid'')
        rw [Option.some.inj (hget''.symm.trans hget'), hflag, hok]
      · rename_i hok
        exact ⟨id, filed', hget', hv'.trans hv, hmax'.trans hmax, by omega, by rw [hflag]; simpa using hok⟩
    -- its retries are used up, and the pass leaves it alone
    · have hnot : id ∉ s₀.unsuccessfull := fun h => hlt (hmem.1 h)
      have hquiet : succeeded v.publication v.handlerId L = false := by
        refine hR.others _ _ fun id' hmem' filed' hget' hn' hid' => hnot ?_
        rw [← honly id' filed' hget' hn' hid']
        exact hmem'
      rw [if_neg (by simp [hquiet])]
      exact ⟨id, filed, (hR.coming id hnot).trans hget, hv, hmax, by omega, hopen⟩

end Retry

/-! ## One call -/

section Call

variable {rs : List Registration} {s₀ : Broker P} {x : Call P} {is : ℕ → Choice} {r : Registration}

/-- The call is a retry pass. -/
def Call.isPass : Call P → Bool
  | .retryFailedEvents => true
  | .registerEventHandler _ => false
  | .registerUniversalEventHandler _ => false
  | .publish _ _ => false

/-- The invocations that a call starts. -/
def invocations (uuid : ℕ → String) (s : Broker P) (x : Call P) (is : ℕ → Choice) : List (Invocation P) :=
  starts (((machine uuid).alone s x is).1.ledger.drop s.ledger.length)

theorem invocations_eq {L : List (Entry P)}
    (h : ((machine uuid).alone s₀ x is).1.ledger = s₀.ledger ++ L) : invocations uuid s₀ x is = starts L := by
  rw [invocations, h, List.drop_left]

/-- What the three outcomes of a registration are. -/
theorem alone_registration (uuid : ℕ → String) (s₀ : Broker P) (is : ℕ → Choice) (h : x.registration = some r) :
    (machine uuid).alone s₀ x is = (s₀, .ok ()) ∧ r.handler.disabled = true ∨
    (machine uuid).alone s₀ x is = (s₀, .error (alreadyRegistered r.handler.id)) ∧ r.handler.disabled = false ∧
      s₀.registered r.handler.id = true ∨
    ((machine uuid).alone s₀ x is).2 = .ok () ∧ r.handler.disabled = false ∧ s₀.registered r.handler.id = false := by
  cases x with
  | registerEventHandler handler =>
    obtain rfl := Option.some.inj h
    show s₀.registerEventHandler handler = _ ∧ _ ∨ s₀.registerEventHandler handler = _ ∧ _ ∨
      (s₀.registerEventHandler handler).2 = _ ∧ _
    unfold Broker.registerEventHandler
    cases handler.disabled <;> cases s₀.registered handler.id <;> simp
  | registerUniversalEventHandler handler =>
    obtain rfl := Option.some.inj h
    show s₀.registerUniversalEventHandler handler = _ ∧ _ ∨ s₀.registerUniversalEventHandler handler = _ ∧ _ ∨
      (s₀.registerUniversalEventHandler handler).2 = _ ∧ _
    unfold Broker.registerUniversalEventHandler
    cases handler.disabled <;> cases s₀.registered handler.id <;> simp
  | publish event session => simp [Call.registration] at h
  | retryFailedEvents => simp [Call.registration] at h

/-- A registration touches the registries only. -/
theorem registration_frame (uuid : ℕ → String) (s₀ : Broker P) (is : ℕ → Choice) (h : x.registration = some r) :
    ((machine uuid).alone s₀ x is).1.failedEvents = s₀.failedEvents ∧
    ((machine uuid).alone s₀ x is).1.ledger = s₀.ledger ∧
    ((machine uuid).alone s₀ x is).1.generated = s₀.generated ∧
    ((machine uuid).alone s₀ x is).1.publications = s₀.publications := by
  cases x with
  | registerEventHandler handler =>
    show (s₀.registerEventHandler handler).1.failedEvents = _ ∧ (s₀.registerEventHandler handler).1.ledger = _ ∧
      (s₀.registerEventHandler handler).1.generated = _ ∧ (s₀.registerEventHandler handler).1.publications = _
    unfold Broker.registerEventHandler
    cases handler.disabled <;> cases s₀.registered handler.id <;> simp
  | registerUniversalEventHandler handler =>
    show (s₀.registerUniversalEventHandler handler).1.failedEvents = _ ∧
      (s₀.registerUniversalEventHandler handler).1.ledger = _ ∧
      (s₀.registerUniversalEventHandler handler).1.generated = _ ∧
      (s₀.registerUniversalEventHandler handler).1.publications = _
    unfold Broker.registerUniversalEventHandler
    cases handler.disabled <;> cases s₀.registered handler.id <;> simp
  | publish event session => simp [Call.registration] at h
  | retryFailedEvents => simp [Call.registration] at h

theorem Registry.registration (hR : Registry rs s₀) (h : x.registration = some r) :
    Registry (register rs r) ((machine uuid).alone s₀ x is).1 := by
  cases x with
  | registerEventHandler handler =>
    obtain rfl := Option.some.inj h
    exact hR.registerEventHandler handler
  | registerUniversalEventHandler handler =>
    obtain rfl := Option.some.inj h
    exact hR.registerUniversalEventHandler handler
  | publish event session => simp [Call.registration] at h
  | retryFailedEvents => simp [Call.registration] at h

theorem mem_register {r' : Registration} (h : r' ∈ rs) : r' ∈ register rs r := by
  unfold register
  split
  · exact h
  · exact List.mem_append_left _ h

/-- **The books** after a registration. -/
theorem Books.registration (hB : Books uuid rs s₀) (h : x.registration = some r) :
    Books uuid (register rs r) ((machine uuid).alone s₀ x is).1 := by
  obtain ⟨hfailed, hledger, hgenerated, hpublications⟩ := registration_frame uuid s₀ is h
  refine ⟨hB.toRegistry.registration h, ?_, ?_, ?_, ?_, ?_⟩
  · rw [hfailed, hgenerated]
    exact hB.generated
  · rw [hfailed, hpublications]
    exact hB.numbered
  · rw [hfailed]
    exact hB.unique
  · rw [hfailed]
    intro id filed hget
    obtain ⟨handler, hmem, hid⟩ := hB.found id filed hget
    obtain ⟨r', hr', hname, hhandler⟩ := mem_interested.1 hmem
    exact ⟨handler, mem_interested.2 ⟨r', mem_register hr', hname, hhandler⟩, hid⟩
  · rw [hledger, hpublications]
    exact hB.logged

/-- **What a `publish` call does.** -/
theorem alone_publish (hu : Function.Injective uuid) (hB : Books uuid rs s₀) (event : Event P) (session : String)
    (is : ℕ → Choice) :
    ((machine uuid).alone s₀ (.publish event session) is).2 = .ok () ∧
    ∃ L, Delivered uuid s₀ event session (interested rs event.name) L
      ((machine uuid).alone s₀ (.publish event session) is).1 := by
  have htriple : Triple (machine uuid).exec (fun s => s = s₀) ((machine uuid).prog (.publish event session))
      fun reply s => reply = .ok () ∧ ∃ L, Delivered uuid s₀ event session (interested rs event.name) L s := by
    show Triple (exec uuid) _ (prog (.publish event session)) _
    exact .bind (publish_spec hu hB) fun _ => .ret fun s hs => ⟨rfl, hs⟩
  exact htriple.alone rfl is

/-- **What a pass does.** -/
theorem alone_pass (hB : Books uuid rs s₀) (is : ℕ → Choice) :
    ((machine uuid).alone s₀ .retryFailedEvents is).2 = .ok () ∧
    ∃ L, Retried s₀ s₀.unsuccessfull L ((machine uuid).alone s₀ .retryFailedEvents is).1 := by
  have htriple : Triple (machine uuid).exec (fun s => s = s₀) ((machine uuid).prog .retryFailedEvents)
      fun reply s => reply = .ok () ∧ ∃ L, Retried s₀ s₀.unsuccessfull L s := by
    show Triple (exec uuid) _ (prog .retryFailedEvents) _
    exact .bind (retryFailedEvents_spec hB) fun _ => .ret fun s hs => ⟨rfl, hs⟩
  exact htriple.alone rfl is

/-- The kinds of calls. -/
theorem call_cases (x : Call P) : (∃ r, x.registration = some r ∧ x.isPass = false) ∨
    (∃ event session, x = .publish event session) ∨ x = .retryFailedEvents := by
  cases x with
  | registerEventHandler handler => exact Or.inl ⟨_, rfl, rfl⟩
  | registerUniversalEventHandler handler => exact Or.inl ⟨_, rfl, rfl⟩
  | publish event session => exact Or.inr (Or.inl ⟨event, session, rfl⟩)
  | retryFailedEvents => exact Or.inr (Or.inr rfl)

/-- The registered handlers after a call. -/
def registeredBy (rs : List Registration) (x : Call P) : List Registration := x.registration.elim rs (register rs)

/-- **Every call** keeps the books. -/
theorem Books.call (hu : Function.Injective uuid) (hB : Books uuid rs s₀) :
    Books uuid (registeredBy rs x) ((machine uuid).alone s₀ x is).1 := by
  rcases call_cases x with ⟨r, hr, -⟩ | ⟨event, session, rfl⟩ | rfl
  · rw [registeredBy, hr, Option.elim_some]
    exact hB.registration hr
  · obtain ⟨-, L, hD⟩ := alone_publish hu hB event session is
    exact hD.books hB
  · obtain ⟨-, L, hR⟩ := alone_pass hB is
    exact hR.books hB

/-- **A call and a handler of an earlier `publish` that is done**: the handler is not invoked. -/
theorem Closed.call (hu : Function.Injective uuid) (hB : Books uuid rs s₀) {n : ℕ} {id : String}
    (hn : n < s₀.publications) (h : Closed n id s₀) (x : Call P) (is : ℕ → Choice) :
    (invocations uuid s₀ x is).filter (Invocation.isOf n id) = [] ∧ Closed n id ((machine uuid).alone s₀ x is).1 := by
  rcases call_cases x with ⟨r, hr, -⟩ | ⟨event, session, rfl⟩ | rfl
  · obtain ⟨hfailed, hledger, -⟩ := registration_frame uuid s₀ is hr
    constructor
    · rw [invocations_eq (L := []) (by rw [hledger, List.append_nil])]
      rfl
    · unfold Closed
      rw [hfailed]
      exact h
  · obtain ⟨-, L, hD⟩ := alone_publish hu hB event session is
    refine ⟨?_, hD.closed hn h⟩
    rw [invocations_eq hD.ledger, hD.started, List.filter_eq_nil_iff]
    intro v hv hof
    obtain ⟨handler, -, rfl⟩ := List.mem_map.1 hv
    have hsame : s₀.publications = n := (isOf_iff.1 hof).1
    omega
  · obtain ⟨-, L, hR⟩ := alone_pass hB is
    rw [invocations_eq hR.ledger]
    exact hR.closed h

/-- **A call and a handler of an earlier `publish`**: it is invoked by a pass that finds retries left. -/
theorem Standing.call (hu : Function.Injective uuid) (hB : Books uuid rs s₀) {v : Invocation P} {R t : ℕ}
    (hn : v.publication < s₀.publications) (h : Standing v R t s₀) (x : Call P) (is : ℕ → Choice) :
    (invocations uuid s₀ x is).filter (Invocation.isOf v.publication v.handlerId) =
      (if x.isPass = true ∧ succeeded v.publication v.handlerId s₀.ledger = false ∧ t < R then [v] else []) ∧
    Standing v R (t + if x.isPass then 1 else 0) ((machine uuid).alone s₀ x is).1 := by
  rcases call_cases x with ⟨r, hr, hpass⟩ | ⟨event, session, rfl⟩ | rfl
  · obtain ⟨hfailed, hledger, -⟩ := registration_frame uuid s₀ is hr
    constructor
    · rw [invocations_eq (L := []) (by rw [hledger, List.append_nil]), hpass]
      simp
    · rw [hpass]
      exact h.of_other (by rw [hledger]) fun key filed _ _ => by rw [hfailed]
  · obtain ⟨-, L, hD⟩ := alone_publish hu hB event session is
    refine ⟨?_, hD.keeps hn h⟩
    have hnone : (invocations uuid s₀ (.publish event session) is).filter
        (Invocation.isOf v.publication v.handlerId) = [] := by
      rw [invocations_eq hD.ledger, hD.started, List.filter_eq_nil_iff]
      intro v' hv hof
      obtain ⟨handler, -, rfl⟩ := List.mem_map.1 hv
      have hsame : s₀.publications = v.publication := (isOf_iff.1 hof).1
      omega
    rw [hnone]
    simp [Call.isPass]
  · obtain ⟨-, L, hR⟩ := alone_pass hB is
    obtain ⟨hstarts, hnext⟩ := hR.standing hB h
    refine ⟨?_, hnext⟩
    rw [invocations_eq hR.ledger, hstarts]
    simp [Call.isPass]

end Call

/-! ## Every run -/

section Run

variable {rs : List Registration} {s : Broker P} {xs before behind : List (Call P × (ℕ → Choice))}

/-- The broker after some calls. -/
def after (uuid : ℕ → String) (xs : List (Call P × (ℕ → Choice))) : Broker P := (machine uuid).series .empty xs

/-- How many of the calls are retry passes. -/
def passes (xs : List (Call P × (ℕ → Choice))) : ℕ := xs.countP fun x => x.1.isPass

/-- The handlers registered by a run. -/
abbrev handlers (xs : List (Call P × (ℕ → Choice))) : List Registration := registered (xs.map Prod.fst)

theorem books_empty : Books uuid [] (Broker.empty : Broker P) where
  toRegistry := registry_empty
  generated := fun _ _ h => by simp [Broker.empty] at h
  numbered := fun _ _ h => by simp [Broker.empty] at h
  unique := fun _ _ _ _ h => by simp [Broker.empty] at h
  found := fun _ _ h => by simp [Broker.empty] at h
  logged := fun _ _ _ => rfl

/-- Registering call by call. -/
theorem foldl_registeredBy (cs : List (Call P)) (rs : List Registration) :
    cs.foldl registeredBy rs = (cs.filterMap Call.registration).foldl register rs := by
  induction cs generalizing rs with
  | nil => rfl
  | cons c cs ih =>
    rw [List.foldl_cons, ih]
    unfold registeredBy
    cases hc : c.registration with
    | none => rw [List.filterMap_cons_none hc, Option.elim_none]
    | some r => rw [List.filterMap_cons_some hc, Option.elim_some, List.foldl_cons]

theorem Books.run (hu : Function.Injective uuid) (xs : List (Call P × (ℕ → Choice))) : ∀ {rs s}, Books uuid rs s →
    Books uuid ((xs.map Prod.fst).foldl registeredBy rs) ((machine uuid).series s xs) := by
  induction xs with
  | nil => exact fun hB => hB
  | cons x xs ih => exact fun hB => ih (hB.call hu)

/-- **The books** after any calls. -/
theorem books_after (hu : Function.Injective uuid) (xs : List (Call P × (ℕ → Choice))) :
    Books uuid (handlers xs) (after uuid xs) := by
  have hrun := books_empty.run hu xs
  rwa [foldl_registeredBy] at hrun

theorem publications_call (hu : Function.Injective uuid) (hB : Books uuid rs s) (x : Call P) (is : ℕ → Choice) :
    s.publications ≤ ((machine uuid).alone s x is).1.publications := by
  rcases call_cases x with ⟨r, hr, -⟩ | ⟨event, session, rfl⟩ | rfl
  · exact (registration_frame uuid s is hr).2.2.2.ge
  · obtain ⟨-, L, hD⟩ := alone_publish hu hB event session is
    have hnext := hD.publications
    omega
  · obtain ⟨-, L, hR⟩ := alone_pass hB is
    exact hR.publications.ge

theorem publications_run (hu : Function.Injective uuid) : ∀ {rs s}, Books uuid rs s →
    s.publications ≤ ((machine (P := P) uuid).series s xs).publications := by
  induction xs with
  | nil => exact fun _ => Nat.le_refl _
  | cons x xs ih =>
    intro rs s hB
    have hfirst := publications_call hu hB x.1 x.2
    exact hfirst.trans (ih (hB.call hu))

/-- What is done stays done. -/
theorem Closed.run (hu : Function.Injective uuid) {n : ℕ} {id : String} (xs : List (Call P × (ℕ → Choice))) :
    ∀ {rs s}, Books uuid rs s → n < s.publications → Closed n id s → Closed n id ((machine uuid).series s xs) := by
  induction xs with
  | nil => exact fun _ _ h => h
  | cons x xs ih =>
    intro rs s hB hn h
    have hmono := publications_call hu hB x.1 x.2
    exact ih (hB.call hu) (hn.trans_le hmono) (h.call hu hB hn x.1 x.2).2

/-- **How a handler stands** after more calls. -/
theorem Standing.run (hu : Function.Injective uuid) {v : Invocation P} {R : ℕ} (xs : List (Call P × (ℕ → Choice))) :
    ∀ {rs s t}, Books uuid rs s →
    v.publication < s.publications → Standing v R t s →
    Standing v R (t + passes xs) ((machine uuid).series s xs) := by
  induction xs with
  | nil => exact fun _ _ h => h
  | cons x xs ih =>
    intro rs s t hB hn h
    have hmono := publications_call hu hB x.1 x.2
    have hstep := (h.call hu hB hn x.1 x.2).2
    have hnext := ih (hB.call hu) (hn.trans_le hmono) hstep
    have hcount : passes (x :: xs) = (if x.1.isPass then 1 else 0) + passes xs := by
      unfold passes
      rw [List.countP_cons, Nat.add_comm]
    rw [hcount, ← Nat.add_assoc]
    exact hnext

/-- **What the calls of a run do**, after the calls `xs`: the registrations, `publish`, and every call
for the handlers of a `publish` before it. The `t`-th pass after a `publish` (counted from 0) invokes a
handler again just if `t` is less than its retries and none of its invocations has succeeded. -/
structure Accounted (uuid : ℕ → String) (xs : List (Call P × (ℕ → Choice))) : Prop where
  registering : ∀ x r is, x.registration = some r → invocations uuid (after uuid xs) x is = [] ∧
    ((∃ e, ((machine uuid).alone (after uuid xs) x is).2 = .error e) ↔
      r.handler.disabled = false ∧ r.handler.id ∈ (handlers xs).map (·.handler.id)) ∧
    ((∃ e, ((machine uuid).alone (after uuid xs) x is).2 = .error e) ∨ r.handler.disabled = true →
      ((machine uuid).alone (after uuid xs) x is).1 = after uuid xs)
  publishing : ∀ event session is, ((machine uuid).alone (after uuid xs) (.publish event session) is).2 = .ok () ∧
    invocations uuid (after uuid xs) (.publish event session) is =
      (interested (handlers xs) event.name).map (invoke (after uuid xs).publications event session)
  retrying : ∀ before (event : Event P) session is behind, xs = before ++ (.publish event session, is) :: behind →
    ∀ id x js, (invocations uuid (after uuid xs) x js).filter (Invocation.isOf (after uuid before).publications id) =
      if x.isPass = true ∧ succeeded (after uuid before).publications id (after uuid xs).ledger = false ∧
          ∃ handler ∈ interested (handlers before) event.name, handler.id = id ∧ passes behind < handler.maxRetries
        then [⟨(after uuid before).publications, id, event, session⟩] else []
  earlier : ∀ x is, (∀ event session, x ≠ .publish event session) →
    ∀ v ∈ invocations uuid (after uuid xs) x is, v.publication < (after uuid xs).publications

theorem accounted_registering (hu : Function.Injective uuid) {x : Call P} {r : Registration} (is : ℕ → Choice)
    (hr : x.registration = some r) : invocations uuid (after uuid xs) x is = [] ∧
    ((∃ e, ((machine uuid).alone (after uuid xs) x is).2 = .error e) ↔
      r.handler.disabled = false ∧ r.handler.id ∈ (handlers xs).map (·.handler.id)) ∧
    ((∃ e, ((machine uuid).alone (after uuid xs) x is).2 = .error e) ∨ r.handler.disabled = true →
      ((machine uuid).alone (after uuid xs) x is).1 = after uuid xs) := by
  have hB := books_after hu xs
  obtain ⟨-, hledger, -⟩ := registration_frame uuid (after uuid xs) is hr
  have htaken : (after uuid xs).registered r.handler.id = true ↔ r.handler.id ∈ (handlers xs).map (·.handler.id) :=
    hB.toRegistry.registered_iff
  refine ⟨?_, ?_⟩
  · rw [invocations_eq (L := []) (by rw [hledger, List.append_nil])]
    rfl
  · rcases alone_registration uuid (after uuid xs) is hr with ⟨he, hdis⟩ | ⟨he, hen, hreg⟩ |
      ⟨he, hen, hreg⟩
    · rw [he]
      simp [hdis]
    · rw [he]
      simp [hen, htaken.1 hreg]
    · have hnew : r.handler.id ∉ (handlers xs).map (·.handler.id) := by
        rw [← htaken, hreg]
        exact Bool.false_ne_true
      rw [he, hen]
      refine ⟨iff_of_false (by simp) fun h => hnew h.2, ?_⟩
      rintro (⟨e, h⟩ | h) <;> simp at h

/-- **Every later call** for the handlers of a `publish`. -/
theorem accounted_retrying (hu : Function.Injective uuid) (event : Event P) (session : String) (is : ℕ → Choice)
    (id : String) (x : Call P) (js : ℕ → Choice) (hxs : xs = before ++ (.publish event session, is) :: behind) :
    (invocations uuid (after uuid xs) x js).filter (Invocation.isOf (after uuid before).publications id) =
      if x.isPass = true ∧ succeeded (after uuid before).publications id (after uuid xs).ledger = false ∧
          ∃ handler ∈ interested (handlers before) event.name, handler.id = id ∧ passes behind < handler.maxRetries
        then [⟨(after uuid before).publications, id, event, session⟩] else [] := by
  have hB := books_after hu before
  have hBxs := books_after hu xs
  obtain ⟨-, L, hD⟩ := alone_publish hu hB event session is
  have hBD := hD.books hB
  have hnum : (after uuid before).publications <
      ((machine uuid).alone (after uuid before) (.publish event session) is).1.publications := by
    rw [hD.publications]
    omega
  have hxs' : after uuid xs =
      (machine uuid).series ((machine uuid).alone (after uuid before) (.publish event session) is).1 behind := by
    rw [hxs]
    unfold after
    rw [Machine.series_append, Machine.series_cons]
  have hlater : (after uuid before).publications < (after uuid xs).publications := by
    rw [hxs']
    exact hnum.trans_le (publications_run hu hBD)
  -- an interested handler has a standing from the `publish` on, any other one no record
  by_cases hin : id ∈ (interested (handlers before) event.name).map (·.id)
  · obtain ⟨handler, hmem, rfl⟩ := List.mem_map.1 hin
    have hstand := (hD.standing handler hmem).run hu behind hBD hnum
    rw [← hxs', Nat.zero_add] at hstand
    have hcall := (hstand.call hu hBxs hlater x js).1
    have hsame : (∃ h ∈ interested (handlers before) event.name, h.id = handler.id ∧ passes behind < h.maxRetries) ↔
        passes behind < handler.maxRetries := by
      constructor
      · rintro ⟨h, hh, hid, hlt⟩
        rwa [hB.toRegistry.eq_of_id hh hmem hid] at hlt
      · intro hlt
        exact ⟨handler, hmem, rfl, hlt⟩
    simp only [hsame]
    exact hcall
  · have hclosed := (hD.uninterested hin).run hu behind hBD hnum
    rw [← hxs'] at hclosed
    rw [(hclosed.call hu hBxs hlater x js).1, if_neg]
    rintro ⟨-, -, handler, hmem, hid, -⟩
    exact hin (hid ▸ List.mem_map_of_mem hmem)

/-- **The delivery ledger**: every run of calls with distinct generated ids is accounted for. -/
theorem delivery_ledger (hu : Function.Injective uuid) (xs : List (Call P × (ℕ → Choice))) : Accounted uuid xs where
  registering := fun _ _ is hr => accounted_registering hu is hr
  publishing := by
    intro event session is
    obtain ⟨hreply, L, hD⟩ := alone_publish hu (books_after hu xs) event session is
    exact ⟨hreply, (invocations_eq hD.ledger).trans hD.started⟩
  retrying := fun _ event session is _ hxs id x js => accounted_retrying hu event session is id x js hxs
  earlier := by
    intro x is hne v hv
    rcases call_cases x with ⟨r, hr, -⟩ | ⟨event, session, rfl⟩ | rfl
    · rw [(accounted_registering hu is hr).1] at hv
      simp at hv
    · exact absurd rfl (hne event session)
    · obtain ⟨-, L, hR⟩ := alone_pass (books_after hu xs) is
      rw [invocations_eq hR.ledger, hR.started] at hv
      obtain ⟨id, hmem, hrec⟩ := List.mem_filterMap.1 hv
      obtain ⟨filed, hget, rfl⟩ := Option.map_eq_some_iff.1 hrec
      exact (books_after hu xs).numbered id filed hget

/-- Distinct ids. -/
def unary (n : ℕ) : String := String.ofList (List.replicate n 'a')

theorem unary_injective : Function.Injective unary := by
  intro n m h
  have hlist := congrArg String.toList h
  have hlength := congrArg List.length hlist
  simpa [unary] using hlength

/-- Two handlers, an event that the first of them refuses, and a pass in which it refuses it again. -/
def fourCalls : List (Call Unit × (ℕ → Choice)) :=
  [(.registerUniversalEventHandler ⟨"log", some 2, false⟩, fun _ => ⟨1, none⟩),
    (.registerEventHandler ⟨⟨"mail", some 1, false⟩, "created"⟩, fun _ => ⟨2, none⟩),
    (.publish ⟨"e", 3, "created", ()⟩ "session", fun n => ⟨3, if n = 3 then some "down" else none⟩),
    (.retryFailedEvents, fun _ => ⟨4, some "down"⟩)]

theorem delivery_ledger_fourCalls : Accounted unary fourCalls ∧
    invocations unary (after unary fourCalls) .retryFailedEvents (fun _ => ⟨5, none⟩) =
      [⟨0, "log", ⟨"e", 3, "created", ()⟩, "session"⟩] :=
  ⟨delivery_ledger unary_injective fourCalls, by decide +kernel⟩

/-- **A disabled handler** is not refused, although its id is registered. -/
theorem disabled_not_refused :
    "log" ∈ (handlers fourCalls).map (·.handler.id) ∧
    ((machine unary).alone (after unary fourCalls) (.registerUniversalEventHandler ⟨"log", none, true⟩)
      fun _ => ⟨5, none⟩).2 = .ok () :=
  ⟨by decide, rfl⟩

end Run

end NodeToolkit.EventsBroker
