import NodeToolkit.Async.Schedule
import NodeToolkit.Proof.RetryPasses

/-!
# The retry budget under overlapping passes

Passes start on a timer, whether or not the last one has returned, and each goes through a list that it took
before its first await.

* `underRetry`: the record of which a call has a retry in flight, by its history.
* `Clear`: the condition, on the schedule alone: from when a pass takes its list until it comes to a record
  of it, no other pass has a retry of that record in flight.
* `Listing`: then the record is still one that the repository would list, by its filter when the list was taken
  and by a step lemma for every event since; so the pass finds it fresh (`fresh_of_clear`).
* `retry_budget`: in every run of such steps no record goes over its budget, no handler is invoked
  too often, and none after it has succeeded. Passes in turn are such a run (`retry_budget_inTurn`), two
  passes that overlap break it (`overlapping_passes`).
-/

namespace NodeToolkit.EventsBroker

open Async

variable {P : Type} {uuid : ℕ → String} {rs : List Registration}

/-! ## What a pass has done -/

/-- The record of which a call has a retry in flight, after one more of its commands. -/
def noteRetry (r : Option String) : (Σ c : Cmd P, Resp c) → Option String
  | ⟨.startRetry id, v⟩ => if v.isSome then some id else r
  | ⟨.endRetry _ _, _⟩ => none
  | _ => r

/-- The record of which a call has a retry in flight: it has invoked the handler, and not yet noted
how that ended. -/
def underRetry (h : Hist (@Resp P)) : Option String := h.foldl noteRetry none

/-- The record that a command comes to. -/
def comesTo : (Σ c : Cmd P, Resp c) → Option String
  | ⟨.startRetry id, _⟩ => some id
  | _ => none

/-- The records that a pass has come to. -/
def visited (h : Hist (@Resp P)) : List String := h.filterMap comesTo

/-- The command that takes the list of a pass. -/
def Cmd.takesList : Cmd P → Bool
  | .unsuccessfull => true
  | _ => false

/-- The pass has taken its list. -/
def HasList (h : Hist (@Resp P)) : Prop := ∃ e ∈ h, e.1.takesList = true

instance (h : Hist (@Resp P)) : Decidable (HasList h) := inferInstanceAs (Decidable (∃ e ∈ h, e.1.takesList = true))

section Hist

variable {h : Hist (@Resp P)} {e : Σ c : Cmd P, Resp c} {id : String}

theorem underRetry_snoc : underRetry (h ++ [e]) = noteRetry (underRetry h) e := by simp [underRetry]

theorem visited_snoc : visited (h ++ [e]) = visited h ++ (comesTo e).toList := by
  unfold visited
  rw [List.filterMap_append]
  cases hc : comesTo e with
  | none => simp [hc]
  | some id => simp [hc]

theorem hasList_of_mem {ids : List String} (hmem : (⟨.unsuccessfull, ids⟩ : Σ c : Cmd P, Resp c) ∈ h) : HasList h :=
  ⟨_, hmem, rfl⟩

end Hist

/-! ## How a pass goes through its list -/

/-- The command starts or ends a retry. -/
def Cmd.retries : Cmd P → Bool
  | .startRetry _ => true
  | .endRetry _ _ => true
  | _ => false

/-- A pass comes to the next record of its list, and ends the retry that it has started; no other call has one. -/
structure MayRetry (x : Call P) (h : Hist (@Resp P)) (c : Cmd P) : Prop where
  pass : x.isPass = false → underRetry h = none ∧ c.retries = false
  start : ∀ id, c = .startRetry id → ∃ ids todo, (⟨.unsuccessfull, ids⟩ : Σ c : Cmd P, Resp c) ∈ h ∧
    ids = visited h ++ id :: todo
  finish : ∀ id error, c = .endRetry id error → underRetry h = some id ∧ id ∈ visited h

/-- A call that returns has no retry in flight. -/
def EndsRetries (h : Hist (@Resp P)) (_ : Reply) : Prop := underRetry h = none

abbrev passProtocol (x : Call P) : Protocol (@Resp P) (Hist (@Resp P)) Reply := .ofHist (MayRetry x) EndsRetries

section Follows

variable {x : Call P} {h : Hist (@Resp P)}

theorem noteRetry_other {r : Option String} {c : Cmd P} (hc : c.retries = false) (a : Resp c) :
    noteRetry r ⟨c, a⟩ = r := by
  cases c with
  | startRetry id => simp [Cmd.retries] at hc
  | endRetry id error => simp [Cmd.retries] at hc
  | _ => rfl

theorem mayRetry_other {c : Cmd P} (hc : c.retries = false) (hnone : underRetry h = none) : MayRetry x h c where
  pass := fun _ => ⟨hnone, hc⟩
  start := by
    rintro id rfl
    simp [Cmd.retries] at hc
  finish := by
    rintro id error rfl
    simp [Cmd.retries] at hc

/-- A call without retries. -/
theorem follows_of_uses : ∀ {p : Client P Reply} {h : Hist (@Resp P)}, (p.Uses fun c => c.retries = false) →
    underRetry h = none → p.Follows (passProtocol x) h := by
  intro p
  induction p with
  | ret a => exact fun _ hnone => hnone
  | await c k ih =>
    intro h huses hnone
    refine ⟨mayRetry_other huses.1 hnone, fun a => ih a (huses.2 a) ?_⟩
    exact underRetry_snoc.trans ((noteRetry_other huses.1 a).trans hnone)

theorem publish_uses (event : Event P) (session : String) :
    (publish event session).Uses fun c : Cmd P => c.retries = false := by
  have hdeliver : ∀ n handler, (deliver n event session handler).Uses fun c : Cmd P => c.retries = false := by
    intro n handler
    refine ⟨rfl, fun _ => ⟨rfl, fun error => ?_⟩⟩
    cases error with
    | none => trivial
    | some e => exact ⟨rfl, fun _ => trivial⟩
  refine ⟨rfl, fun n => ⟨rfl, fun handlers => ?_⟩⟩
  refine Prog.Uses.bind (f := fun _ => Prog.await (.eventHandlers event.name) .ret >>= _)
    (fun _ => ⟨rfl, fun specific => ?_⟩) (Prog.Uses.forEach fun handler _ => hdeliver n handler)
  cases specific with
  | none => trivial
  | some hs => exact Prog.Uses.forEach fun handler _ => hdeliver n handler.toHandler

theorem hist_next (c : Cmd P) (a : Resp c) : (passProtocol x).next h c a = h ++ [⟨c, a⟩] := rfl

/-- **The loop of a pass**, with the records it has still to come to. -/
theorem passRest_follows (hx : x.isPass = true) {list : List String} : ∀ {ids : List String} {h : Hist (@Resp P)},
    (⟨.unsuccessfull, list⟩ : Σ c : Cmd P, Resp c) ∈ h → list = visited h ++ ids → underRetry h = none →
      (passRest ids).Follows (passProtocol x) h := by
  intro ids
  induction ids with
  | nil => exact fun _ _ hnone => hnone
  | cons id ids ih =>
    intro h hmem hlist hnone
    have hnot : ¬ x.isPass = false := by simp [hx]
    rw [passRest_cons]
    refine ⟨⟨fun hf => absurd hf hnot, fun id' hc => ?_, nofun⟩, fun v => ?_⟩
    · cases hc
      exact ⟨list, ids, hmem, hlist⟩
    have hvisited : visited (h ++ [⟨.startRetry id, v⟩]) = visited h ++ [id] := visited_snoc
    have hrest : list = visited (h ++ [⟨.startRetry id, v⟩]) ++ ids := by
      rw [hvisited, hlist, List.append_assoc, List.singleton_append]
    rw [hist_next]
    cases v with
    | none =>
      refine ih (List.mem_append_left _ hmem) hrest ?_
      rw [underRetry_snoc, hnone]
      rfl
    | some v =>
      have hunder : underRetry (h ++ [⟨.startRetry id, some v⟩]) = some id := underRetry_snoc
      refine ⟨⟨fun hf => absurd hf hnot, nofun, nofun⟩, fun error => ?_⟩
      rw [hist_next]
      refine ⟨⟨fun hf => absurd hf hnot, nofun, fun id' error' hc => ?_⟩, fun u => ?_⟩
      · cases hc
        rw [underRetry_snoc, visited_snoc, hunder, hvisited]
        exact ⟨rfl, by simp [comesTo]⟩
      · rw [hist_next]
        refine ih (List.mem_append_left _ (List.mem_append_left _ (List.mem_append_left _ hmem))) ?_ underRetry_snoc
        rw [visited_snoc, visited_snoc]
        simpa [comesTo] using hrest

/-- **Every call** goes through its list in order, one retry at a time. -/
theorem prog_follows (x : Call P) : (prog x).Follows (passProtocol x) [] := by
  cases x with
  | registerEventHandler handler => exact ⟨mayRetry_other rfl rfl, fun _ => rfl⟩
  | registerUniversalEventHandler handler => exact ⟨mayRetry_other rfl rfl, fun _ => rfl⟩
  | publish event session =>
    have huses : (prog (.publish event session) : Client P Reply).Uses fun c => c.retries = false :=
      Prog.Uses.bind (fun _ => show (Prog.ret (Except.ok ())).Uses _ from trivial) (publish_uses event session)
    exact follows_of_uses huses rfl
  | retryFailedEvents =>
    rw [prog_pass]
    refine ⟨⟨nofun, nofun, nofun⟩, fun list => ?_⟩
    rw [hist_next]
    have hvisited : visited [(⟨.unsuccessfull, list⟩ : Σ c : Cmd P, Resp c)] = [] := by simp [visited, comesTo]
    have hmem : (⟨.unsuccessfull, list⟩ : Σ c : Cmd P, Resp c) ∈ [(⟨.unsuccessfull, list⟩ : Σ c : Cmd P, Resp c)] :=
      List.mem_singleton_self _
    exact passRest_follows rfl hmem (by rw [List.nil_append, hvisited, List.nil_append]) rfl

end Follows

/-! ## The condition -/

section Condition

variable (uuid) (s₀ : Broker P)

/-- The broker and the calls after some events. -/
abbrev poolAfter (past : List (Ev Choice Empty (Call P))) : BrokerPool P := (machine uuid).run (Pool.init s₀) past

/-- From when the pass `pid` has taken its list, no other call has had a retry of the record in flight. -/
def Undisturbed (past : List (Ev Choice Empty (Call P))) (pid : ℕ) (id : String) : Prop :=
  ∀ u ∈ past.inits, ∀ p ∈ (poolAfter uuid s₀ u).procs.get pid, HasList p.hist →
    ∀ e ∈ (poolAfter uuid s₀ u).procs.entries, e.1 ≠ pid → underRetry e.2.hist ≠ some id

/-- **A pass comes to a record** of its list only if it has been undisturbed there. -/
def Clear (past : List (Ev Choice Empty (Call P))) : Ev Choice Empty (Call P) → Prop
  | .step pid _ => ∀ p ∈ (poolAfter uuid s₀ past).procs.get pid, ∀ id ∈ retries p, Undisturbed uuid s₀ past pid id
  | .call _ _ => True
  | .env _ => True

instance (past : List (Ev Choice Empty (Call P))) (pid : ℕ) (id : String) :
    Decidable (Undisturbed uuid s₀ past pid id) :=
  inferInstanceAs (Decidable (∀ u ∈ past.inits, ∀ p ∈ (poolAfter uuid s₀ u).procs.get pid, HasList p.hist →
    ∀ e ∈ (poolAfter uuid s₀ u).procs.entries, e.1 ≠ pid → underRetry e.2.hist ≠ some id))

instance (past : List (Ev Choice Empty (Call P))) : ∀ e : Ev Choice Empty (Call P), Decidable (Clear uuid s₀ past e)
  | .step pid _ => inferInstanceAs (Decidable (∀ p ∈ (poolAfter uuid s₀ past).procs.get pid, ∀ id ∈ retries p,
      Undisturbed uuid s₀ past pid id))
  | .call _ _ | .env _ => inferInstanceAs (Decidable True)

end Condition

section Undisturbed

variable {s₀ : Broker P} {past past' : List (Ev Choice Empty (Call P))} {pid q : ℕ} {id : String}
  {p p' : Proc (@Resp P) (Call P) Reply}

theorem Undisturbed.mono (h : Undisturbed uuid s₀ past' pid id) (hpre : past <+: past') :
    Undisturbed uuid s₀ past pid id :=
  fun u hu => h u ((List.mem_inits u past').2 (((List.mem_inits u past).1 hu).trans hpre))

/-- Now, too, no other call has a retry of the record in flight. -/
theorem Undisturbed.now (h : Undisturbed uuid s₀ past pid id) (hp : (poolAfter uuid s₀ past).procs.get pid = some p)
    (hlist : HasList p.hist) (hq : (poolAfter uuid s₀ past).procs.get q = some p') (hne : q ≠ pid) :
    underRetry p'.hist ≠ some id :=
  h past ((List.mem_inits past past).2 List.prefix_rfl) p hp hlist (q, p') (OMap.get_eq_some.1 hq) hne

theorem poolAfter_snoc (e : Ev Choice Empty (Call P)) :
    poolAfter uuid s₀ (past ++ [e]) = (machine uuid).step (poolAfter uuid s₀ past) e := by
  rw [poolAfter, Machine.run_append]
  rfl

end Undisturbed

/-! ## The repository's filter -/

section Filter

variable {s : Broker P} {id : String} {i : Choice}

/-- **A record that would be listed** still would after a command that neither starts nor ends a retry of it. -/
theorem listed_exec (hu : Function.Injective uuid) (hB : Books uuid rs s) (h : id ∈ s.unsuccessfull) {c : Cmd P}
    (hstart : c ≠ .startRetry id) (hend : ∀ error, c ≠ .endRetry id error) :
    id ∈ (exec uuid i s c).1.unsuccessfull := by
  obtain ⟨filed, hget, hopen⟩ := mem_unsuccessfull.1 h
  refine mem_unsuccessfull.2 ⟨filed, ?_, hopen⟩
  cases c with
  | registerEventHandler handler =>
    obtain ⟨hfailed, -⟩ := registration_frame uuid s (fun _ => i) (x := .registerEventHandler handler) rfl
    exact hfailed ▸ hget
  | registerUniversalEventHandler handler =>
    obtain ⟨hfailed, -⟩ := registration_frame uuid s (fun _ => i) (x := .registerUniversalEventHandler handler) rfl
    exact hfailed ▸ hget
  | save v maxRetries error => exact (get_save hu hB.generated).2 (Or.inr hget)
  | startRetry id' =>
    have hne : id' ≠ id := fun heq => hstart (heq ▸ rfl)
    show (s.startRetry id' i.now).1.failedEvents.get id = some filed
    cases hget' : s.failedEvents.get id' with
    | none => simpa only [Broker.startRetry, hget'] using hget
    | some filed' =>
      obtain ⟨handler, hfound⟩ := hB.toRegistry.handlerOf_isSome (hB.found id' filed' hget')
      rw [startRetry_some hget' hfound]
      exact (OMap.get_set_ne _ _ hne).trans hget
  | endRetry id' error =>
    have hne : id' ≠ id := fun heq => hend error (heq ▸ rfl)
    show (s.endRetry id' error).failedEvents.get id = some filed
    cases hget' : s.failedEvents.get id' with
    | none => simpa only [Broker.endRetry, hget'] using hget
    | some filed' =>
      rw [endRetry_some hget']
      exact (OMap.get_set_ne _ _ hne).trans hget
  | _ => exact hget

/-- The handler of a record that there is is found. -/
theorem startRetry_isSome (hB : Books uuid rs s) (h : id ∈ s.unsuccessfull) (now : ℕ) :
    (s.startRetry id now).2.isSome = true := by
  obtain ⟨filed, hget, -⟩ := mem_unsuccessfull.1 h
  obtain ⟨handler, hfound⟩ := hB.toRegistry.handlerOf_isSome (hB.found id filed hget)
  rw [startRetry_some hget hfound]
  rfl

variable {x : Call P} {h : Hist (@Resp P)} {c : Cmd P}

/-- A pass moves that has not come to the record, and does not now. -/
theorem listed_own (hu : Function.Injective uuid) (hB : Books uuid rs s) (hlisted : id ∈ s.unsuccessfull)
    (hmay : MayRetry x h c) {a : Resp c} (hnew : id ∉ visited (h ++ [⟨c, a⟩])) :
    id ∈ (exec uuid i s c).1.unsuccessfull := by
  rw [visited_snoc, List.mem_append, not_or] at hnew
  refine listed_exec hu hB hlisted ?_ ?_
  · rintro rfl
    exact hnew.2 (by simp [comesTo])
  · rintro error rfl
    exact hnew.1 (hmay.finish id error rfl).2

/-- A call moves that has no retry of the record in flight, before and after. -/
theorem listed_other (hu : Function.Injective uuid) (hB : Books uuid rs s) (hlisted : id ∈ s.unsuccessfull)
    (hmay : MayRetry x h c) (hbefore : underRetry h ≠ some id)
    (hafter : underRetry (h ++ [⟨c, (exec uuid i s c).2⟩]) ≠ some id) : id ∈ (exec uuid i s c).1.unsuccessfull := by
  refine listed_exec hu hB hlisted ?_ ?_
  · rintro rfl
    refine hafter ?_
    rw [underRetry_snoc]
    exact if_pos (startRetry_isSome hB hlisted i.now)
  · rintro error rfl
    exact hbefore (hmay.finish id error rfl).1

end Filter

/-- **What a pass has listed**: each record once; and those it has still to come to, and was undisturbed at,
would be listed again. -/
structure Listing (uuid : ℕ → String) (s₀ : Broker P) (past : List (Ev Choice Empty (Call P))) : Prop where
  once : ∀ pid p ids, (poolAfter uuid s₀ past).procs.get pid = some p →
    (⟨.unsuccessfull, ids⟩ : Σ c : Cmd P, Resp c) ∈ p.hist → ids.Nodup
  listed : ∀ pid p ids id, (poolAfter uuid s₀ past).procs.get pid = some p →
    (⟨.unsuccessfull, ids⟩ : Σ c : Cmd P, Resp c) ∈ p.hist → id ∈ ids → id ∉ visited p.hist →
    Undisturbed uuid s₀ past pid id → id ∈ (poolAfter uuid s₀ past).st.unsuccessfull

/-- The calls go through their lists. -/
abbrev Passing (w : BrokerPool P) : Prop := w.Obeys passProtocol fun _ => []

section Listing

variable {s₀ : Broker P} {past : List (Ev Choice Empty (Call P))} {w : BrokerPool P} {pid q : ℕ} {id : String}
  {p : Proc (@Resp P) (Call P) Reply} {i : Choice}

/-- What a call may do next. -/
theorem Passing.may (hw : Passing w) (hp : w.procs.get pid = some p) {c : Cmd P} {k : Resp c → Client P Reply}
    (hr : p.rest = .await c k) : MayRetry p.call p.hist c := by
  have hfollows := hw pid p hp
  rw [hr, Protocol.ofHist_after] at hfollows
  exact hfollows.1

theorem listing_nil : Listing uuid s₀ [] where
  once := fun pid p ids hp => by simp [poolAfter, Pool.init] at hp
  listed := fun pid p ids id hp => by simp [poolAfter, Pool.init] at hp

/-- A call starts, with nothing listed. -/
theorem Listing.begin (hL : Listing uuid s₀ past) {e : Ev Choice Empty (Call P)} {x : Call P}
    (he : poolAfter uuid s₀ (past ++ [e]) = (machine uuid).begin (poolAfter uuid s₀ past) pid x) :
    Listing uuid s₀ (past ++ [e]) where
  once := by
    intro q p ids hq hmem
    rw [he] at hq
    rcases Machine.begin_cases hq with ⟨-, rfl⟩ | ⟨-, hold⟩
    · simp at hmem
    · exact hL.once q p ids hold hmem
  listed := by
    intro q p ids id hq hmem hid hnew hclear
    rw [he] at hq ⊢
    rcases Machine.begin_cases hq with ⟨-, rfl⟩ | ⟨-, hold⟩
    · simp at hmem
    · exact hL.listed q p ids id hold hmem hid hnew (hclear.mono (List.prefix_append past [e]))

/-- **A call moves**: a pass whose list has the record, or another one while the pass is undisturbed. -/
theorem Listing.advance (hu : Function.Injective uuid) (hL : Listing uuid s₀ past)
    (hB : Books uuid rs (poolAfter uuid s₀ past).st) (hP : Passing (poolAfter uuid s₀ past))
    {e : Ev Choice Empty (Call P)} {c : Cmd P} {k : Resp c → Client P Reply}
    (hp : (poolAfter uuid s₀ past).procs.get pid = some p) (hr : p.rest = .await c k)
    (he : poolAfter uuid s₀ (past ++ [e]) = (machine uuid).advance (poolAfter uuid s₀ past) pid i p c k) :
    Listing uuid s₀ (past ++ [e]) where
  once := by
    intro q p' ids hq hmem
    rw [he] at hq
    rcases Machine.advance_cases hq with ⟨-, rfl⟩ | ⟨-, hold⟩
    · rcases List.mem_append.1 hmem with hmem | hmem
      · exact hL.once pid p ids hp hmem
      · cases List.mem_singleton.1 hmem
        exact unsuccessfull_nodup
    · exact hL.once q p' ids hold hmem
  listed := by
    intro q p' ids id hq hmem hid hnew hclear
    have hbefore := hclear.mono (List.prefix_append past [e])
    have hmay := hP.may hp hr
    have hst : (poolAfter uuid s₀ (past ++ [e])).st = (exec uuid i (poolAfter uuid s₀ past).st c).1 := by
      rw [he]
      rfl
    have hq' := hq
    rw [he] at hq'
    rw [hst]
    rcases Machine.advance_cases hq' with ⟨rfl, rfl⟩ | ⟨hne, hold⟩
    · rcases List.mem_append.1 hmem with hmem | hmem
      · have hunvisited : id ∉ visited p.hist := fun hv => hnew (by rw [visited_snoc]; exact List.mem_append_left _ hv)
        have hlisted := hL.listed q p ids id hp hmem hid hunvisited hbefore
        exact listed_own hu hB hlisted hmay hnew
      · -- the list is taken now, by the repository's filter
        cases List.mem_singleton.1 hmem
        exact hid
    · have hlisted := hL.listed q p' ids id hold hmem hid hnew hbefore
      have hlist : HasList p'.hist := hasList_of_mem hmem
      have hself : ((machine uuid).advance (poolAfter uuid s₀ past) pid i p c k).procs.get pid = _ :=
        Machine.get_advance_self
      rw [← he] at hself
      exact listed_other hu hB hlisted hmay (hbefore.now hold hlist hp hne.symm) (hclear.now hq hlist hself hne.symm)

/-- **One event** of a run. -/
theorem Listing.snoc (hu : Function.Injective uuid) (hL : Listing uuid s₀ past)
    (hB : Books uuid rs (poolAfter uuid s₀ past).st) (hP : Passing (poolAfter uuid s₀ past))
    (e : Ev Choice Empty (Call P)) : Listing uuid s₀ (past ++ [e]) := by
  rcases Machine.step_cases (M := machine uuid) (poolAfter uuid s₀ past) e with ⟨pid, x, -, -, he⟩ |
    ⟨pid, i, p, c, k, -, hp, hr, he⟩ | ⟨v, -, -⟩ | he
  · exact hL.begin (poolAfter_snoc e ▸ he)
  · exact hL.advance hu hB hP hp hr (poolAfter_snoc e ▸ he)
  · exact v.elim
  · have hsame : poolAfter uuid s₀ (past ++ [e]) = poolAfter uuid s₀ past := (poolAfter_snoc e).trans he
    refine ⟨fun q p ids hq => hL.once q p ids (hsame ▸ hq), fun q p ids id hq hmem hid hnew hclear => ?_⟩
    rw [hsame] at hq ⊢
    exact hL.listed q p ids id hq hmem hid hnew (hclear.mono (List.prefix_append past [e]))

theorem retries_eq_some : retries p = some id ↔ ∃ k, p.rest = .await (.startRetry id) k := by
  unfold retries
  generalize p.rest = rest
  constructor
  · intro h
    split at h
    · cases h
      exact ⟨_, rfl⟩
    · cases h
  · rintro ⟨k, rfl⟩
    rfl

theorem notesSuccess_eq_some : notesSuccess p = some id ↔ ∃ k, p.rest = .await (.endRetry id none) k := by
  unfold notesSuccess
  generalize p.rest = rest
  constructor
  · intro h
    split at h
    · cases h
      exact ⟨_, rfl⟩
    · cases h
  · rintro ⟨k, rfl⟩
    rfl

/-- **A pass that is undisturbed finds its records fresh.** -/
theorem fresh_of_clear (hL : Listing uuid s₀ past) (hP : Passing (poolAfter uuid s₀ past))
    {e : Ev Choice Empty (Call P)} (hG : Clear uuid s₀ past e) : Fresh (poolAfter uuid s₀ past) e := by
  cases e with
  | call pid x => trivial
  | env v => trivial
  | step pid i =>
    intro p hp id hid
    have hclear := hG p hp id hid
    obtain ⟨k, hr⟩ := retries_eq_some.1 hid
    obtain ⟨ids, todo, hmem, hids⟩ := (hP.may hp hr).start id rfl
    have hnodup := hL.once pid p ids hp hmem
    have hnew : id ∉ visited p.hist := by
      rw [hids, List.nodup_append] at hnodup
      exact fun hold => hnodup.2.2 id hold id (List.mem_cons_self ..) rfl
    have hlisted := hL.listed pid p ids id hp hmem (hids ▸ by simp) hnew hclear
    obtain ⟨filed, hget, hopen⟩ := mem_unsuccessfull.1 hlisted
    refine ⟨fun filed' hget' => ?_, ?_⟩
    · rw [Option.mem_def, hget] at hget'
      cases hget'
      exact hopen
    · rintro ⟨q, p'⟩ hq hnotes
      have hq' := OMap.get_eq_some.2 hq
      obtain ⟨k', hr'⟩ := notesSuccess_eq_some.1 hnotes
      have hne : q ≠ pid := by
        rintro rfl
        rw [hp] at hq'
        cases hq'
        rw [hr] at hr'
        cases hr'
      exact hclear.now hp (hasList_of_mem hmem) hq' hne ((hP.may hq' hr').finish id none rfl).1

end Listing

/-! ## Every run -/

section Run

variable {s₀ : Broker P} {past es : List (Ev Choice Empty (Call P))} {pid : ℕ}
  {p : Proc (@Resp P) (Call P) Reply} {regs : List (Call P × (ℕ → Choice))}

/-- **The invariant of the events so far.** -/
structure Watched (uuid : ℕ → String) (rs : List Registration) (s₀ : Broker P)
    (past : List (Ev Choice Empty (Call P))) : Prop where
  tracked : ∃ doing, Tracked uuid rs doing (poolAfter uuid s₀ past)
  passing : Passing (poolAfter uuid s₀ past)
  listing : Listing uuid s₀ past

theorem passing_run (s₀ : Broker P) (past : List (Ev Choice Empty (Call P))) : Passing (poolAfter uuid s₀ past) :=
  Machine.run_obeys prog_follows (Pool.obeys_init _ _ _) past

theorem Watched.snoc (hu : Function.Injective uuid) (hW : Watched uuid rs s₀ past) {e : Ev Choice Empty (Call P)}
    (hcall : NoRegistration e) (hG : Clear uuid s₀ past e) : Watched uuid rs s₀ (past ++ [e]) where
  tracked := by
    rw [poolAfter_snoc]
    exact tracked_step hu hW.tracked hcall (fresh_of_clear hW.listing hW.passing hG)
  passing := passing_run s₀ (past ++ [e])
  listing := by
    obtain ⟨doing, hT⟩ := hW.tracked
    exact hW.listing.snoc hu hT.kept.toBooks hW.passing e

/-- **Every run** whose passes are undisturbed keeps to the budget. -/
theorem withinBudget_of_clear (hu : Function.Injective uuid) (hregs : ∀ x ∈ regs, x.1.registration.isSome = true)
    (hcalls : ∀ e ∈ es, NoRegistration e) (hG : AlongPast (Clear uuid (after uuid regs)) [] es) :
    WithinBudget (handlers regs) (poolAfter uuid (after uuid regs) es).st := by
  have hinit : Watched uuid (handlers regs) (after uuid regs) ([] : List (Ev Choice Empty (Call P))) :=
    ⟨⟨_, tracked_init hu hregs⟩, passing_run _ [], listing_nil⟩
  have hrun : Watched uuid (handlers regs) (after uuid regs) ([] ++ es) :=
    (hG.and_mem hcalls).inv (fun _ _ hW hG => hW.snoc hu hG.1 hG.2) hinit
  obtain ⟨doing, hT⟩ := hrun.tracked
  exact hT.kept.withinBudget

/-- **The retry budget**: after any registrations, in every run of `publish` and `retryFailedEvents` calls
in which a pass comes to a record only if no other pass has had a retry of it in flight since its list
was taken. -/
theorem retry_budget (hu : Function.Injective uuid) (hregs : ∀ x ∈ regs, x.1.registration.isSome = true)
    (hcalls : ∀ e ∈ es, NoRegistration e) (hG : AlongPast (Clear uuid (after uuid regs)) [] es) :
    WithinBudget (handlers regs) ((machine uuid).run (Pool.init (after uuid regs)) es).st :=
  withinBudget_of_clear hu hregs hcalls hG

/-! ## Passes in turn -/

/-- Both calls are passes. -/
def BothPasses (x y : Call P) : Prop := x.isPass = true ∧ y.isPass = true

instance (x y : Call P) : Decidable (BothPasses x y) := inferInstanceAs (Decidable (_ ∧ _))

/-- A call with a retry in flight is a pass that has not returned. -/
theorem Passing.running {w : BrokerPool P} (hw : Passing w) (hp : w.procs.get pid = some p) {id : String}
    (h : underRetry p.hist = some id) : p.Running ∧ p.call.isPass = true := by
  have hfollows := hw pid p hp
  rw [Protocol.ofHist_after] at hfollows
  cases hr : p.rest with
  | ret a =>
    rw [hr] at hfollows
    have hnone : underRetry p.hist = none := hfollows
    rw [h] at hnone
    cases hnone
  | await c k =>
    refine ⟨Proc.running_of_await hr, ?_⟩
    cases hpass : p.call.isPass with
    | true => rfl
    | false =>
      have hnone := ((hw.may hp hr).pass hpass).1
      rw [h] at hnone
      cases hnone

/-- **Passes that do not overlap are undisturbed.** -/
theorem clear_of_inTurn (hes : (machine uuid).Along (InTurn BothPasses) (Pool.init s₀) es) :
    AlongPast (Clear uuid s₀) [] es := by
  refine AlongPast.of_along (fun past e hpast _ => ?_) hes
  cases e with
  | call pid x => trivial
  | env v => trivial
  | step pid i =>
    rintro p hp id hid u hu p₀ hp₀ - ⟨q, p'⟩ hq hne hunder
    obtain ⟨t, rfl⟩ := (List.mem_inits u past).1 hu
    have hrun : poolAfter uuid s₀ (u ++ t) = (machine uuid).run (poolAfter uuid s₀ u) t := Machine.run_append _ _ _ _
    have hseparate : (poolAfter uuid s₀ u).Separate BothPasses :=
      run_separate (fun _ _ h => ⟨h.2, h.1⟩) (separate_init s₀) (Machine.Along.append.1 hpast).1
    have hq' := OMap.get_eq_some.2 hq
    obtain ⟨hrunning, hpass⟩ := (passing_run s₀ u).running hq' hunder
    -- the pass `pid` is in flight at its step, so it was before
    obtain ⟨k, hr⟩ := retries_eq_some.1 hid
    obtain ⟨p₁, hp₁, hcall, -⟩ : ∃ p', (poolAfter uuid s₀ (u ++ t)).procs.get pid = some p' ∧ p'.call = p₀.call ∧
        p₀.hist <+: p'.hist := by
      rw [hrun]
      exact Machine.run_grows hp₀
    rw [hp] at hp₁
    cases hp₁
    have hrunning₀ : p₀.Running := by
      cases hres : p₀.result with
      | none => exact hres
      | some a =>
        have hstays : (poolAfter uuid s₀ (u ++ t)).procs.get pid = some p₀ := by
          rw [hrun]
          exact Machine.run_stays hres hp₀
        rw [hp] at hstays
        cases hstays
        exact absurd hres (by simp [Proc.result, hr])
    have hpass₀ : p₀.call.isPass = true := by
      rw [← hcall, ← Bool.not_eq_false]
      intro hf
      exact absurd (((passing_run s₀ _).may hp hr).pass hf).2 (by simp [Cmd.retries])
    exact hne (hseparate q pid p' p₀ hq' hp₀ hrunning hrunning₀ ⟨hpass, hpass₀⟩)

/-- **Passes in turn** keep to the budget, whatever else goes on. -/
theorem retry_budget_inTurn (hu : Function.Injective uuid) (hregs : ∀ x ∈ regs, x.1.registration.isSome = true)
    (hcalls : ∀ e ∈ es, NoRegistration e)
    (hturn : (machine uuid).Along (InTurn BothPasses) (Pool.init (after uuid regs)) es) :
    WithinBudget (handlers regs) ((machine uuid).run (Pool.init (after uuid regs)) es).st :=
  withinBudget_of_clear hu hregs hcalls (clear_of_inTurn hturn)

end Run

instance : ∀ e : Ev Choice Empty (Call P), Decidable (NoRegistration e)
  | .call _ (.registerEventHandler _) => isFalse (by simp [NoRegistration, Call.registration])
  | .call _ (.registerUniversalEventHandler _) => isFalse (by simp [NoRegistration, Call.registration])
  | .call _ (.publish _ _) => isTrue rfl
  | .call _ .retryFailedEvents => isTrue rfl
  | .step _ _ | .env _ => inferInstanceAs (Decidable True)

/-- A handler for all events, with one retry. -/
def oneHandler : List (Call Unit × (ℕ → Choice)) :=
  [(.registerUniversalEventHandler ⟨"log", some 1, false⟩, fun _ => ⟨1, none⟩)]

def created : Event Unit := ⟨"e", 3, "created", ()⟩

/-- Two passes overlap, each with a record of its own: the second lists while the first retries. -/
def ownRecords : List (Ev Choice Empty (Call Unit)) :=
  [.call 0 (.publish created "session"), .step 0 ⟨3, none⟩, .step 0 ⟨3, none⟩, .step 0 ⟨3, none⟩,
    .step 0 ⟨4, some "down"⟩, .step 0 ⟨4, none⟩, .call 1 .retryFailedEvents, .step 1 ⟨5, none⟩, .step 1 ⟨5, none⟩,
    .call 3 (.publish created "session"), .step 3 ⟨6, none⟩, .step 3 ⟨6, none⟩, .step 3 ⟨6, none⟩,
    .step 3 ⟨7, some "down"⟩, .step 3 ⟨7, none⟩, .call 2 .retryFailedEvents, .step 2 ⟨8, none⟩, .step 2 ⟨8, none⟩,
    .step 1 ⟨9, none⟩, .step 2 ⟨9, some "down"⟩, .step 1 ⟨10, none⟩, .step 2 ⟨10, none⟩]

theorem retry_budget_ownRecords :
    WithinBudget (handlers oneHandler) ((machine unary).run (Pool.init (after unary oneHandler)) ownRecords).st ∧
    invoked 0 "log" ((machine unary).run (Pool.init (after unary oneHandler)) ownRecords).st.ledger = 2 ∧
    invoked 1 "log" ((machine unary).run (Pool.init (after unary oneHandler)) ownRecords).st.ledger = 2 :=
  ⟨retry_budget unary_injective (by decide) (by decide) (by decide +kernel), by decide +kernel, by decide +kernel⟩

/-- An event that the handler refuses, and two passes that have found its record. -/
def twoPasses : List (Ev Choice Empty (Call Unit)) :=
  [.call 0 (.publish created "session"), .step 0 ⟨3, none⟩, .step 0 ⟨3, none⟩, .step 0 ⟨3, none⟩,
    .step 0 ⟨4, some "down"⟩, .step 0 ⟨4, none⟩, .call 1 .retryFailedEvents, .step 1 ⟨5, none⟩,
    .call 2 .retryFailedEvents, .step 2 ⟨6, none⟩]

/-- **Overlapping passes**: both retry the record, the second after the first has succeeded. -/
theorem overlapping_passes :
    let w := (machine unary).run (Pool.init (after unary oneHandler)) (twoPasses ++
      [.step 1 ⟨7, none⟩, .step 1 ⟨7, none⟩, .step 1 ⟨7, none⟩, .step 2 ⟨8, none⟩])
    (∃ filed ∈ w.st.failedEvents.values, filed.handlerMaxRetries < filed.retries) ∧
    invoked 0 "log" w.st.ledger = 3 ∧ ¬ Timely w.st.ledger := by
  intro w
  refine ⟨by decide +kernel, by decide +kernel, fun h => ?_⟩
  have hlate := h (w.st.ledger.take 4) ⟨0, "log", created, "session"⟩ [] (by decide +kernel)
  have hsucc : succeeded 0 "log" (w.st.ledger.take 4) = true := by decide +kernel
  exact absurd (hlate.symm.trans hsucc) (by simp)

end NodeToolkit.EventsBroker
