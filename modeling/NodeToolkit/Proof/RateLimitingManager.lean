import Mathlib.Algebra.Order.Ring.Rat
import Mathlib.Tactic.NormNum
import NodeToolkit.Async.Trace
import NodeToolkit.Proof.Authorize
import NodeToolkit.Proof.QuotaCache
import NodeToolkit.Spec.RateLimitingManager
import NodeToolkit.Spec.TokenBucket

/-!
# The limits a client is held to

* `rules`: in every interleaving the repository and the cache have only limits that were asked for with the
  permission, passed all checks and are for the same user.
* `limits_in_force`: so the algorithm is never run with others, whatever the cache has dropped or kept.
* `series_in_force`: between calls that do not overlap, the limits are those of the last accepted change.
-/

namespace NodeToolkit.RateLimiting

open Async

variable {C : Type} {R : C → Type} {S In Env : Type} {made : Call → Prop} {userId : String} {limits : QuotaLimits}

/-! ## Limits that were asked for -/

/-- The session has the permission. -/
def Permitted (permission : String) (session : Session) : Prop :=
  IsPermissionsMatches permission session.acting = true

theorem checkLimit_ok {field message : String} {value : ℚ} {u : Unit} :
    checkLimit field message value = .ok u ↔ 0 < value := by
  unfold checkLimit
  by_cases h : value ≤ 0
  · rw [if_pos h]
    simp [not_lt.2 h]
  · rw [if_neg h]
    simp [not_le.1 h]

/-- **The checks**: a change is accepted exactly if all four limits are positive. -/
theorem checkLimits_ok {command : ChangeQuotaLimitsCommand} :
    checkLimits command = .ok () ↔ ∀ v, 0 < command.limits.of v := by
  have hbind : ∀ {p : Except ValidationException Unit} {q : Unit → Except ValidationException Unit},
      (p >>= q) = .ok () ↔ p = .ok () ∧ q () = .ok () := by
    intro p q
    cases p with
    | error e => simp [bind, Except.bind]
    | ok u => simp [bind, Except.bind]
  rw [Span.forall_iff]
  unfold checkLimits
  rw [hbind, hbind, hbind, checkLimit_ok, checkLimit_ok, checkLimit_ok, checkLimit_ok]
  rfl

/-- The limits are those of a change for the user that was made with the permission and accepted. -/
def Changed (made : Call → Prop) (userId : String) (limits : QuotaLimits) : Prop :=
  ∃ command, made (.changeQuotaLimits command) ∧ Permitted RateLimitingPermissions.ChangeQuotaLimits command.session ∧
    checkLimits command = .ok () ∧ command.userId = userId ∧ command.limits = limits

/-- **The limits may be in force** for the user. -/
def Granted (made : Call → Prop) (userId : String) (limits : QuotaLimits) : Prop :=
  limits = defaultQuotaLimits ∨ Changed made userId limits

/-- Granted limits are positive. -/
theorem Granted.pos (h : Granted made userId limits) (v : Span) : 0 < limits.of v := by
  rcases h with rfl | ⟨command, -, -, hok, -, rfl⟩
  · cases v <;> norm_num [QuotaLimits.of, defaultQuotaLimits]
  · exact checkLimits_ok.1 hok v

/-! ## What the stores have -/

/-- The stores have only such limits. -/
structure Fed (made : Call → Prop) (s : QuotaCache.Stores) : Prop where
  limits : ∀ userId limits, s.limits.get userId = some limits → Changed made userId limits
  cache : ∀ userId entry limits, s.cache.get (QuotaCache.key userId) = some entry → entry.value = some limits →
    Changed made userId limits

/-- The answers of such stores. -/
def storesRely (made : Call → Prop) : (c : QuotaCache.Cmd) → QuotaCache.Resp c → Prop
  | .cache (.get key), r => ∀ userId limits, key = QuotaCache.key userId → r = some limits → Changed made userId limits
  | .ofUser userId, r => ∀ limits, r = some limits → Changed made userId limits
  | _, _ => True

/-- The commands that keep them so. -/
def storesGuar (made : Call → Prop) : QuotaCache.Cmd → Prop
  | .cache (.set key value _) =>
    ∀ userId limits, key = QuotaCache.key userId → value = some limits → Changed made userId limits
  | .update userId limits => Changed made userId limits
  | _ => True

theorem exec_fed {now : ℕ} {s : QuotaCache.Stores} {c : QuotaCache.Cmd} (hs : Fed made s) (hc : storesGuar made c) :
    Fed made (QuotaCache.exec now s c).1 ∧ storesRely made c (QuotaCache.exec now s c).2 := by
  have herase : ∀ key, Fed made { s with cache := s.cache.erase key } := by
    intro key
    refine ⟨hs.limits, fun userId entry limits hget => ?_⟩
    rw [OMap.get_erase] at hget
    split at hget
    · cases hget
    · exact hs.cache userId entry limits hget
  cases c with
  | cache c =>
    cases c with
    | get key =>
      refine ⟨?_, fun userId limits hkey hr => ?_⟩
      · rcases InMemoryCache.get_state now s.cache key with hsame | ⟨hgone, -⟩
        · show Fed made { s with cache := (InMemoryCache.exec now s.cache (.get key)).1 }
          rw [hsame]
          exact hs
        · show Fed made { s with cache := (InMemoryCache.exec now s.cache (.get key)).1 }
          rw [hgone]
          exact herase key
      · subst hkey
        have htruthy : JsValue.truthy (InMemoryCache.exec now s.cache (.get (QuotaCache.key userId))).2 = true := by
          have hr' : (InMemoryCache.exec now s.cache (.get (QuotaCache.key userId))).2 = some limits := hr
          rw [hr']
          rfl
        obtain ⟨entry, hentry, hvalue⟩ := QuotaCache.entry_of_truthy htruthy
        exact hs.cache userId entry limits hentry (hvalue.symm.trans hr)
    | set key value ttl =>
      refine ⟨⟨hs.limits, fun userId entry limits hget hvalue => ?_⟩, trivial⟩
      have hset : (s.cache.set key ⟨value, now, ttl⟩).get (QuotaCache.key userId) = some entry := hget
      rw [OMap.get_set] at hset
      split at hset
      · rename_i hkey
        cases hset
        exact hc userId limits hkey hvalue
      · exact hs.cache userId entry limits hset hvalue
    | invalidate key => exact ⟨herase key, trivial⟩
    | clear => exact ⟨⟨hs.limits, fun userId entry limits hget => by cases hget⟩, trivial⟩
  | ofUser userId => exact ⟨hs, fun limits hr => hs.limits userId limits hr⟩
  | update userId limits =>
    refine ⟨⟨fun userId' limits' hget => ?_, hs.cache⟩, trivial⟩
    have hset : (s.limits.set userId limits).get userId' = some limits' := hget
    rw [OMap.get_set] at hset
    split at hset
    · rename_i huser
      subst huser
      cases hset
      exact hc
    · exact hs.limits userId' limits' hset

/-- **Reading the limits of a user** gives only such limits, and keeps the cache so. -/
theorem ofUser_assures (userId : String) : (QuotaCache.ofUser userId).Assures (storesRely made) (storesGuar made)
    fun r => ∀ limits, r = some limits → Changed made userId limits := by
  refine ⟨trivial, fun cached hcached => ?_⟩
  show Prog.Assures _ _ _ (if JsValue.truthy cached = true then _ else _)
  by_cases htruthy : JsValue.truthy cached = true
  · rw [if_pos htruthy]
    exact fun limits hr => hcached userId limits rfl hr
  · rw [if_neg htruthy]
    refine ⟨trivial, fun found hfound => ?_⟩
    cases found with
    | none => exact fun limits hr => by cases hr
    | some limits =>
      refine ⟨fun userId' limits' hkey hvalue => ?_, fun _ _ => hfound⟩
      have huser := QuotaCache.key_inj hkey
      subst huser
      exact hfound limits' hvalue

theorem update_assures (h : Changed made userId limits) :
    (QuotaCache.update userId limits).Assures (storesRely made) (storesGuar made) fun _ => True := by
  refine ⟨h, fun _ _ => ⟨fun userId' limits' hkey hvalue => ?_, fun _ _ => trivial⟩⟩
  have huser := QuotaCache.key_inj hkey
  subst huser
  cases hvalue
  exact h

/-! ## The manager -/

/-- The answers of the stores are such limits; the algorithm may answer anything. -/
def rely (R : C → Type) (made : Call → Prop) : (c : Cmd C) → Resp R c → Prop
  | .stores c, r => storesRely made c r
  | .algorithm _, _ => True

def guar (made : Call → Prop) : Cmd C → Prop
  | .stores c => storesGuar made c
  | .algorithm _ => True

/-- Every command is admitted. -/
abbrev anything : ℕ × In → QuotaCache.Stores × S → Cmd C → Prop := fun _ _ _ => True

variable {A : Algorithm R} {exec : In → S → (c : C) → S × R c} {env : Env → S → S}

/-- **The commands of the manager** keep the stores so. -/
theorem rules : (machine A exec env).Rules (fun s => Fed made s.1) (rely R made) (fun _ => guar made) anything where
  exec := by
    intro x i s c hs hc _
    cases c with
    | stores c => exact exec_fed hs hc
    | algorithm c => exact ⟨hs, trivial⟩
  enter := fun _ _ hs => hs
  env := by
    intro e s hs
    cases e with
    | inl key =>
      refine ⟨hs.limits, fun userId entry limits hget => ?_⟩
      have herase : (s.1.cache.erase key).get (QuotaCache.key userId) = some entry := hget
      rw [OMap.get_erase] at herase
      split at herase
      · cases herase
      · exact hs.cache userId entry limits herase
    | inr e => exact hs

theorem stores_assures {α : Type} {p : QuotaCache.Client α} {post : α → Prop}
    (hp : p.Assures (storesRely made) (storesGuar made) post) :
    (Client.stores p : Client R α).Assures (rely R made) (guar made) post := by
  unfold Client.stores
  refine hp.embed ?_ ?_
  · exact fun c r hr => hr
  · exact fun c hc => hc

theorem algorithm_assures {α : Type} (p : Prog R α) :
    (Client.algorithm p : Client R α).Assures (rely R made) (guar made) fun _ => True := by
  unfold Client.algorithm
  induction p with
  | ret a => trivial
  | await c k ih => exact ⟨trivial, fun r _ => ih r⟩

theorem getQuotaLimits_assures (userId : String) :
    (getQuotaLimits userId : Client R QuotaLimits).Assures (rely R made) (guar made) (Granted made userId) := by
  refine (stores_assures (ofUser_assures userId)).bind fun found hfound => ?_
  cases found with
  | none => exact Or.inl rfl
  | some limits => exact Or.inr (hfound limits rfl)

/-- What `Authorize` makes of a method. -/
theorem authorized_eq {α : Type} (permission : String) (session : Session) (method : Client R (Except Exception α)) :
    authorized permission session method = if IsPermissionsMatches permission session.acting then method
      else .ret (.error (.notAuthorized notAuthorized)) := by
  have hauth : Authorize permission (fun s => some (.session s)) (fun _ => method) [session] =
      if IsPermissionsMatches permission session.acting then .ran method else .threw notAuthorized :=
    authorize_of_session rfl
  rw [authorized, hauth]
  by_cases h : IsPermissionsMatches permission session.acting
  · rw [if_pos h, if_pos h]
  · rw [if_neg h, if_neg h]
    rfl

theorem authorized_assures {α : Type} {permission : String} {session : Session} {method : Client R (Except Exception α)}
    (h : Permitted permission session → method.Assures (rely R made) (guar made) fun _ => True) :
    (authorized permission session method).Assures (rely R made) (guar made) fun _ => True := by
  rw [authorized_eq]
  by_cases hmatch : IsPermissionsMatches permission session.acting
  · rw [if_pos hmatch]
    exact h hmatch
  · rw [if_neg hmatch]
    trivial

/-- **Every call** writes only limits that it was asked for. -/
theorem prog_assures {x : Call} (hx : made x) : (prog A x).Assures (rely R made) (guar made) fun _ => True := by
  cases x with
  | throttle userId token score =>
    have hthrottle : (throttle A userId token score).Assures (rely R made) (guar made) fun _ => True := by
      refine (getQuotaLimits_assures userId).bind fun limits _ => ?_
      refine (algorithm_assures _).bind fun res _ => ?_
      cases res <;> trivial
    refine hthrottle.bind fun _ _ => ?_
    trivial
  | changeQuotaLimits command =>
    have hchange : Permitted RateLimitingPermissions.ChangeQuotaLimits command.session →
        (changeQuotaLimits command : Client R _).Assures (rely R made) (guar made) fun _ => True := by
      intro hpermitted
      unfold changeQuotaLimits
      cases hcheck : checkLimits command with
      | error e => trivial
      | ok u =>
        refine (stores_assures (update_assures ⟨command, hx, hpermitted, hcheck, rfl, rfl⟩)).bind fun _ _ => ?_
        trivial
    refine (authorized_assures hchange).bind fun _ _ => ?_
    trivial
  | getQuotaLimits session userId =>
    refine (authorized_assures fun _ => ?_).bind fun _ _ => ?_
    · refine (getQuotaLimits_assures session.user.id).bind fun _ _ => ?_
      trivial
    · trivial
  | getQuotaSummary session userId token =>
    refine (authorized_assures fun _ => ?_).bind fun _ _ => ?_
    · have hsummary : (getQuotaSummary A session.user.id token).Assures (rely R made) (guar made) fun _ => True :=
        (getQuotaLimits_assures session.user.id).bind fun _ _ => algorithm_assures _
      refine hsummary.bind fun _ _ => ?_
      trivial
    · trivial

/-! ## What a call has done -/

/-- The part of a history that is the algorithm's. -/
def algorithmPart : (Σ c : Cmd C, Resp R c) → Option (Σ c : C, R c)
  | ⟨.algorithm c, r⟩ => some ⟨c, r⟩
  | ⟨.stores _, _⟩ => none

theorem stores_part {α : Type} {p : QuotaCache.Client α} {h : Hist (Resp R)} {a : α}
    (ht : (Client.stores p : Client R α).Traces h a) : h.filterMap algorithmPart = [] := by
  obtain ⟨l, rfl, -⟩ := Prog.traces_embed.1 ht
  rw [List.filterMap_map, List.filterMap_eq_nil_iff]
  exact fun e _ => rfl

theorem algorithm_part {α : Type} {p : Prog R α} {h : Hist (Resp R)} {a : α}
    (ht : (Client.algorithm p : Client R α).Traces h a) : p.Traces (h.filterMap algorithmPart) a := by
  obtain ⟨l, rfl, hl⟩ := Prog.traces_embed.1 ht
  have hpart : (l.map fun e => (⟨.algorithm e.1, e.2⟩ : Σ c : Cmd C, Resp R c)).filterMap algorithmPart =
      l.map fun e => ⟨e.1, e.2⟩ := by
    rw [List.filterMap_map, ← List.filterMap_eq_map]
    rfl
  rw [hpart]
  exact hl

/-- What a throttled client gets. -/
def held : RequestResult → Except Exception QuotaSummary
  | .error e => .error (.tooManyRequests e)
  | .ok summary => .ok summary

/-- **What a call may do and return**: the algorithm is asked with limits that are granted to the user, a
change is made if it is permitted and all its limits are positive, and a query is about the user of its
session. A call that is refused does nothing. -/
def Serves (A : Algorithm R) (made : Call → Prop) : Call → Hist (Resp R) → Reply → Prop
  | .throttle userId token score, h, r => ∃ limits res, Granted made userId limits ∧ (∀ v, 0 < limits.of v) ∧
      (A.request userId token score limits).Traces (h.filterMap algorithmPart) res ∧ r = .throttled (held res)
  | .changeQuotaLimits command, h, r =>
      (¬ Permitted RateLimitingPermissions.ChangeQuotaLimits command.session →
        h = [] ∧ r = .changed (.error (.notAuthorized notAuthorized))) ∧
      (Permitted RateLimitingPermissions.ChangeQuotaLimits command.session →
        (∀ e, checkLimits command = .error e → h = [] ∧ r = .changed (.error (.validation e))) ∧
        (checkLimits command = .ok () → r = .changed (.ok command.userId) ∧
          (⟨.stores (.update command.userId command.limits), ()⟩ : Σ c : Cmd C, Resp R c) ∈ h))
  | .getQuotaLimits session _, h, r =>
      (¬ Permitted RateLimitingPermissions.GetQuotaLimits session →
        h = [] ∧ r = .limits (.error (.notAuthorized notAuthorized))) ∧
      (Permitted RateLimitingPermissions.GetQuotaLimits session →
        ∃ limits, Granted made session.user.id limits ∧ r = .limits (.ok limits))
  | .getQuotaSummary session _ token, h, r =>
      (¬ Permitted RateLimitingPermissions.GetQuotaSummary session →
        h = [] ∧ r = .summary (.error (.notAuthorized notAuthorized))) ∧
      (Permitted RateLimitingPermissions.GetQuotaSummary session → ∃ limits summary,
        Granted made session.user.id limits ∧ (∀ v, 0 < limits.of v) ∧
        (A.quota session.user.id token limits).Traces (h.filterMap algorithmPart) summary ∧ r = .summary (.ok summary))

/-- A method under authorization either is refused or runs. -/
theorem authorized_traces {α : Type} {permission : String} {session : Session}
    {method : Client R (Except Exception α)} {wrap : Except Exception α → Reply} {h : Hist (Resp R)} {r : Reply}
    (ht : (authorized permission session method >>= fun a => (return wrap a : Client R Reply)).Traces h r) :
    (¬ Permitted permission session → h = [] ∧ r = wrap (.error (.notAuthorized notAuthorized))) ∧
      (Permitted permission session → ∃ a, method.Traces h a ∧ r = wrap a) := by
  obtain ⟨h₁, h₂, a, rfl, hmethod, hret⟩ := Prog.traces_bind.1 ht
  obtain ⟨rfl, rfl⟩ := hret
  rw [authorized_eq] at hmethod
  rw [List.append_nil]
  unfold Permitted
  refine ⟨fun hno => ?_, fun hyes => ?_⟩
  · rw [if_neg hno] at hmethod
    obtain ⟨rfl, rfl⟩ := hmethod
    exact ⟨rfl, rfl⟩
  · rw [if_pos hyes] at hmethod
    exact ⟨a, hmethod, rfl⟩

/-- The limits are looked up first. -/
theorem getQuotaLimits_traces {α : Type} {f : QuotaLimits → Client R α} {h : Hist (Resp R)} {a : α}
    (ht : (getQuotaLimits userId >>= f).Traces h a) (hanswers : ∀ e ∈ h, rely R made e.1 e.2) :
    ∃ limits h', Granted made userId limits ∧ h.filterMap algorithmPart = h'.filterMap algorithmPart ∧
      (f limits).Traces h' a := by
  obtain ⟨h₁, h₂, limits, rfl, hlimits, hf⟩ := Prog.traces_bind.1 ht
  have hgranted : Granted made userId limits := (getQuotaLimits_assures userId).traces hlimits fun e he =>
    hanswers e (List.mem_append_left _ he)
  obtain ⟨k₁, k₂, found, rfl, hfound, hret⟩ := Prog.traces_bind.1 hlimits
  obtain ⟨rfl, -⟩ := hret
  refine ⟨limits, h₂, hgranted, ?_, hf⟩
  rw [List.append_nil, List.filterMap_append, stores_part hfound, List.nil_append]

/-- **A call** with answers of such stores serves its client. -/
theorem prog_serves {x : Call} {h : Hist (Resp R)} {r : Reply} (ht : (prog A x).Traces h r)
    (hanswers : ∀ e ∈ h, rely R made e.1 e.2) : Serves A made x h r := by
  cases x with
  | throttle userId token score =>
    change Prog.Traces (throttle A userId token score >>= _) _ _ at ht
    obtain ⟨h₁, h₂, r₁, rfl, hthrottle, hret⟩ := Prog.traces_bind.1 ht
    obtain ⟨rfl, rfl⟩ := hret
    rw [List.append_nil] at hanswers ⊢
    change Prog.Traces (getQuotaLimits userId >>= _) _ _ at hthrottle
    obtain ⟨limits, h', hgranted, hpart, hf⟩ := getQuotaLimits_traces hthrottle hanswers
    obtain ⟨k₁, k₂, res, rfl, hres, hend⟩ := Prog.traces_bind.1 hf
    have hheld : k₂ = [] ∧ r₁ = held res := by
      cases res with
      | error e => exact hend
      | ok summary => exact hend
    obtain ⟨rfl, rfl⟩ := hheld
    refine ⟨limits, res, hgranted, hgranted.pos, ?_, rfl⟩
    rw [hpart, List.append_nil]
    exact algorithm_part hres
  | changeQuotaLimits command =>
    obtain ⟨hno, hyes⟩ := authorized_traces ht
    refine ⟨hno, fun hpermitted => ?_⟩
    obtain ⟨a, hmethod, rfl⟩ := hyes hpermitted
    unfold changeQuotaLimits at hmethod
    refine ⟨fun e he => ?_, fun hok => ?_⟩
    · rw [he] at hmethod
      obtain ⟨rfl, rfl⟩ := hmethod
      exact ⟨rfl, rfl⟩
    · rw [hok] at hmethod
      obtain ⟨_, h', rfl, hrest⟩ := hmethod
      obtain ⟨_, h'', rfl, -, rfl⟩ := hrest
      exact ⟨rfl, List.mem_cons_self ..⟩
  | getQuotaLimits session userId =>
    obtain ⟨hno, hyes⟩ := authorized_traces ht
    refine ⟨hno, fun hpermitted => ?_⟩
    obtain ⟨a, hmethod, rfl⟩ := hyes hpermitted
    obtain ⟨limits, h', hgranted, -, hf⟩ := getQuotaLimits_traces hmethod hanswers
    exact ⟨limits, hgranted, congrArg Reply.limits hf.2⟩
  | getQuotaSummary session userId token =>
    obtain ⟨hno, hyes⟩ := authorized_traces ht
    refine ⟨hno, fun hpermitted => ?_⟩
    obtain ⟨a, hmethod, rfl⟩ := hyes hpermitted
    change Prog.Traces ((getQuotaLimits session.user.id >>= _) >>= _) _ _ at hmethod
    rw [Prog.bind_assoc] at hmethod
    obtain ⟨limits, h', hgranted, hpart, hf⟩ := getQuotaLimits_traces hmethod hanswers
    obtain ⟨k₁, k₂, summary, rfl, hsummary, hret⟩ := Prog.traces_bind.1 hf
    obtain ⟨rfl, rfl⟩ := hret
    refine ⟨limits, summary, hgranted, hgranted.pos, ?_, rfl⟩
    rw [hpart, List.append_nil]
    exact algorithm_part hsummary

/-! ## Every run -/

/-- The calls of a run are its calls. -/
theorem made_run {w : Pool (Resp R) (QuotaCache.Stores × S) Call Reply} {es : List (Ev (ℕ × In) (String ⊕ Env) Call)} :
    (machine A exec env).Along (Proper (fun x => ∃ pid, Ev.call pid x ∈ es) anything) w es := by
  have hsub : ∀ es', es' ⊆ es → ∀ w, (machine A exec env).Along
      (Proper (fun x => ∃ pid, Ev.call pid x ∈ es) anything) w es' := by
    intro es'
    induction es' with
    | nil => exact fun _ _ => trivial
    | cons e es' ih =>
      intro hsub w
      rw [List.cons_subset] at hsub
      refine ⟨?_, ih hsub.2 _⟩
      cases e with
      | call pid x => exact ⟨pid, hsub.1⟩
      | step pid i => exact fun _ _ _ _ => trivial
      | env e => trivial
  exact hsub es (List.Subset.refl es) w

/-- **In every run** the stores have only limits that were asked for, and answer so. -/
theorem answers_granted (A : Algorithm R) (exec : In → S → (c : C) → S × R c) (env : Env → S → S) (s : S)
    {es : List (Ev (ℕ × In) (String ⊕ Env) Call)} {pid : ℕ} {p : Proc (Resp R) Call Reply}
    (hp : ((machine A exec env).run (Pool.init (.empty, s)) es).procs.get pid = some p) :
    ∀ e ∈ p.hist, rely R (fun x => ∃ pid, .call pid x ∈ es) e.1 e.2 := by
  have hstart : Fed (fun x => ∃ pid, Ev.call pid x ∈ es) (QuotaCache.Stores.empty, s).1 :=
    ⟨fun userId limits hget => (nomatch hget), fun userId entry limits hget => (nomatch hget)⟩
  have hrules : (machine A exec env).Rules (fun s => Fed (fun x => ∃ pid, Ev.call pid x ∈ es) s.1) (rely R _)
      (fun _ => guar _) anything := rules
  exact (run_assured hrules (fun x hx => prog_assures hx) (assured_init hstart) made_run).answers pid p hp

/-- **The limits in force.** In every interleaving of calls, with any algorithm and whatever the cache drops
or has let pass: a client is held to the default limits or to those of a change that was asked for, for this
user, in a session with the permission, and that passed all checks. -/
theorem limits_in_force (A : Algorithm R) (exec : In → S → (c : C) → S × R c) (env : Env → S → S) (s : S)
    {es : List (Ev (ℕ × In) (String ⊕ Env) Call)} {pid : ℕ} {p : Proc (Resp R) Call Reply} {r : Reply}
    (hp : ((machine A exec env).run (Pool.init (.empty, s)) es).procs.get pid = some p) (hres : p.result = some r) :
    Serves A (fun x => ∃ pid, .call pid x ∈ es) p.call p.hist r :=
  prog_serves (traces_of_run hp hres) (answers_granted A exec env s hp)

/-- A client whose limits are changed while it is throttled: the change is in time. -/
def throttling : List (Ev (ℕ × ℕ) (String ⊕ ℕ) Call) :=
  let admin : Session := ⟨⟨"admin", ["rate-limiting/write/*"]⟩, none, none⟩
  [.call 0 (.changeQuotaLimits ⟨admin, "u", 1, 2, 3, 4⟩), .call 1 (.throttle "u" "t" 1), .step 0 (0, 0),
    .step 1 (0, 0), .env (.inl "quota-limits:u"), .step 1 (0, 0), .step 0 (0, 0), .step 1 (0, 0), .step 1 (0, 7),
    .step 1 (0, 0)]

theorem limits_in_force_throttling : ∃ p, ((machine (overRedis (TokenBucket.algorithm ⟨10, 1⟩)) execRedis
      fun t s => s.advance t).run (Pool.init (.empty, .server)) throttling).procs.get 1 = some p ∧
    Serves (overRedis (TokenBucket.algorithm ⟨10, 1⟩)) (fun x => ∃ pid, .call pid x ∈ throttling) p.call p.hist
      (.throttled (.ok (TokenBucket.summary ⟨1, 2, 3, 4⟩ 9 7))) := by
  have hres : (((machine (overRedis (TokenBucket.algorithm ⟨10, 1⟩)) execRedis fun t s => s.advance t).run
      (Pool.init (.empty, .server)) throttling).procs.get 1).bind Proc.result =
        some (.throttled (.ok (TokenBucket.summary ⟨1, 2, 3, 4⟩ 9 7))) := by
    decide +kernel
  obtain ⟨p, hp, hresult⟩ := Option.bind_eq_some_iff.1 hres
  exact ⟨p, hp, limits_in_force _ _ _ _ hp hresult⟩

/-! ## One call after another -/

section Series

variable {I : Type} {st : QuotaCache.Stores}

/-- Entries that are dropped do no harm. -/
theorem clean_erase (hst : QuotaCache.Clean st) (key : String) :
    QuotaCache.Clean { st with cache := st.cache.erase key } := by
  intro userId entry hget
  have herase : (st.cache.erase key).get (QuotaCache.key userId) = some entry := hget
  rw [OMap.get_erase] at herase
  split at herase
  · cases herase
  · exact hst userId entry herase

theorem clean_lookup (hst : QuotaCache.Clean st) (now : ℕ) (key : String) :
    QuotaCache.Clean { st with cache := (InMemoryCache.exec now st.cache (.get key)).1 } := by
  rcases InMemoryCache.get_state now st.cache key with hsame | ⟨hgone, -⟩
  · rw [hsame]
    exact hst
  · rw [hgone]
    exact clean_erase hst key

/-- What the repository has for a user is written to the cache. -/
theorem clean_set {userId : String} (hst : QuotaCache.Clean st) (hlimits : st.limits.get userId = some limits) (now : ℕ)
    (ttl : Option ℚ) :
    QuotaCache.Clean { st with cache := st.cache.set (QuotaCache.key userId) ⟨some limits, now, ttl⟩ } := by
  intro userId' entry hget
  have hset : (st.cache.set (QuotaCache.key userId) ⟨some limits, now, ttl⟩).get (QuotaCache.key userId') = some entry :=
    hget
  rw [OMap.get_set] at hset
  split at hset
  · rename_i hkey
    have huser := QuotaCache.key_inj hkey
    subst huser
    cases hset
    exact hlimits
  · exact hst userId' entry hset

/-- **A read executed alone** returns what the repository has, cached or not. -/
theorem ofUser_run (clock : I → ℕ) (hst : QuotaCache.Clean st) (userId : String) (is : ℕ → I) :
    ∃ st' n, (QuotaCache.ofUser userId).run (drive fun i => QuotaCache.exec (clock i)) (st, is) =
        ((st', fun m => is (m + n)), st.limits.get userId) ∧ QuotaCache.Clean st' ∧ st'.limits = st.limits := by
  set found := (InMemoryCache.exec (clock (is 0)) st.cache (.get (QuotaCache.key userId))).2 with hfound
  set st₁ : QuotaCache.Stores :=
    { st with cache := (InMemoryCache.exec (clock (is 0)) st.cache (.get (QuotaCache.key userId))).1 } with hst₁
  have hclean₁ : QuotaCache.Clean st₁ := clean_lookup hst _ _
  have hrun : (QuotaCache.ofUser userId).run (drive fun i => QuotaCache.exec (clock i)) (st, is) =
      Prog.run (drive fun i => QuotaCache.exec (clock i)) (if JsValue.truthy found = true then .ret found else _)
        (st₁, fun m => is (m + 1)) := rfl
  rw [hrun]
  by_cases htruthy : JsValue.truthy found = true
  · rw [if_pos htruthy]
    obtain ⟨entry, hentry, hvalue⟩ := QuotaCache.entry_of_truthy htruthy
    refine ⟨st₁, 1, ?_, hclean₁, rfl⟩
    rw [Prog.run_ret, hst userId entry hentry]
    exact congrArg (Prod.mk _) hvalue
  · rw [if_neg htruthy]
    cases hlimits : st.limits.get userId with
    | none =>
      refine ⟨st₁, 2, ?_, hclean₁, rfl⟩
      have hnone : (QuotaCache.exec (clock (is 1)) st₁ (.ofUser userId)).2 = none := hlimits
      simp only [QuotaCache.Client.ofUser, Prog.await_bind, Prog.ret_bind, Prog.run_await, drive]
      rw [hnone]
      rfl
    | some limits =>
      have hsome : (QuotaCache.exec (clock (is 1)) st₁ (.ofUser userId)).2 = some limits := hlimits
      refine ⟨_, 3, ?_, clean_set hclean₁ hlimits (clock (is 2)) (some QuotaCache.ONE_DAY), rfl⟩
      simp only [QuotaCache.Client.ofUser, Prog.await_bind, Prog.ret_bind, Prog.run_await, drive]
      rw [hsome]
      rfl

/-- **An update executed alone** changes the limits of the user and nothing else. -/
theorem update_run (clock : I → ℕ) (hst : QuotaCache.Clean st) (userId : String) (limits : QuotaLimits) (is : ℕ → I) :
    ∃ st', (QuotaCache.update userId limits).run (drive fun i => QuotaCache.exec (clock i)) (st, is) =
        ((st', fun m => is (m + 2)), ()) ∧ QuotaCache.Clean st' ∧ st'.limits = st.limits.set userId limits := by
  refine ⟨_, rfl, fun userId' entry hget => ?_, rfl⟩
  have hset : (st.cache.set (QuotaCache.key userId) ⟨some limits, clock (is 1), some QuotaCache.ONE_DAY⟩).get
      (QuotaCache.key userId') = some entry := hget
  show (st.limits.set userId limits).get userId' = entry.value
  rw [OMap.get_set] at hset ⊢
  by_cases huser : userId = userId'
  · subst huser
    rw [if_pos rfl] at hset ⊢
    cases hset
    rfl
  · rw [if_neg fun hkey => huser (QuotaCache.key_inj hkey)] at hset
    rw [if_neg huser]
    exact hst userId' entry hset

variable (A : Algorithm R) (exec : In → S → (c : C) → S × R c) (env : Env → S → S)

/-- A function of the algorithm executed alone. -/
def algorithmRun {α : Type} (p : Prog R α) (s : S) (is : ℕ → ℕ × In) : (S × (ℕ → ℕ × In)) × α :=
  p.run (drive fun i => exec i.2) (s, is)

/-- A function of the stores leaves the algorithm alone. -/
theorem stores_run {α : Type} (p : QuotaCache.Client α) (st : QuotaCache.Stores) (s : S) (is : ℕ → ℕ × In) :
    (Client.stores p).run (drive (machine A exec env).exec) ((st, s), is) =
      let r := p.run (drive fun i : ℕ × In => QuotaCache.exec i.1) (st, is)
      (((r.1.1, s), r.1.2), r.2) :=
  Prog.run_embed (fun w => (w.1.1, w.2)) (fun w o => ((o.1, w.1.2), o.2)) (fun _ _ => rfl) (fun _ _ _ => rfl)
    (fun _ => rfl) (fun _ _ => rfl) (fun _ _ => rfl) p ((st, s), is)

/-- A function of the algorithm leaves the stores alone. -/
theorem algorithm_run {α : Type} (p : Prog R α) (st : QuotaCache.Stores) (s : S) (is : ℕ → ℕ × In) :
    (Client.algorithm p).run (drive (machine A exec env).exec) ((st, s), is) =
      let r := algorithmRun exec p s is
      (((st, r.1.1), r.1.2), r.2) :=
  Prog.run_embed (fun w => (w.1.2, w.2)) (fun w o => ((w.1.1, o.1), o.2)) (fun _ _ => rfl) (fun _ _ _ => rfl)
    (fun _ => rfl) (fun _ _ => rfl) (fun _ _ => rfl) p ((st, s), is)

theorem getQuotaLimits_run (hst : QuotaCache.Clean st) (userId : String) (s : S) (is : ℕ → ℕ × In) :
    ∃ st' n, (getQuotaLimits userId).run (drive (machine A exec env).exec) ((st, s), is) =
        (((st', s), fun m => is (m + n)), (st.limits.get userId).getD defaultQuotaLimits) ∧
      QuotaCache.Clean st' ∧ st'.limits = st.limits := by
  obtain ⟨st', n, hrun, hclean, hlimits⟩ := ofUser_run (fun i : ℕ × In => i.1) hst userId is
  refine ⟨st', n, ?_, hclean, hlimits⟩
  rw [getQuotaLimits, Prog.run_bind, stores_run, hrun]
  rfl

/-- **A throttled client, alone**: the algorithm is run with the limits that the repository has. -/
theorem throttle_run (hst : QuotaCache.Clean st) (userId token : String) (score : ℕ) (s : S) (is : ℕ → ℕ × In) :
    ∃ st' n r, r = algorithmRun exec (A.request userId token score ((st.limits.get userId).getD defaultQuotaLimits)) s
        (fun m => is (m + n)) ∧
      (throttle A userId token score).run (drive (machine A exec env).exec) ((st, s), is) =
        (((st', r.1.1), r.1.2), held r.2) ∧
      QuotaCache.Clean st' ∧ st'.limits = st.limits := by
  obtain ⟨st', n, hrun, hclean, hlimits⟩ := getQuotaLimits_run A exec env hst userId s is
  refine ⟨st', n, _, rfl, ?_, hclean, hlimits⟩
  rw [throttle, Prog.run_bind, hrun, Prog.run_bind, algorithm_run]
  dsimp only
  generalize algorithmRun exec _ s _ = r
  obtain ⟨w, res⟩ := r
  cases res <;> rfl

theorem getQuotaSummary_run (hst : QuotaCache.Clean st) (userId token : String) (s : S) (is : ℕ → ℕ × In) :
    ∃ st' n r, r = algorithmRun exec (A.quota userId token ((st.limits.get userId).getD defaultQuotaLimits)) s
        (fun m => is (m + n)) ∧
      (getQuotaSummary A userId token).run (drive (machine A exec env).exec) ((st, s), is) =
        (((st', r.1.1), r.1.2), r.2) ∧
      QuotaCache.Clean st' ∧ st'.limits = st.limits := by
  obtain ⟨st', n, hrun, hclean, hlimits⟩ := getQuotaLimits_run A exec env hst userId s is
  refine ⟨st', n, _, rfl, ?_, hclean, hlimits⟩
  rw [getQuotaSummary, Prog.run_bind, hrun, algorithm_run]

/-- The change that a call makes, if any. -/
def change : Call → Option (String × QuotaLimits)
  | .changeQuotaLimits command =>
    if IsPermissionsMatches RateLimitingPermissions.ChangeQuotaLimits command.session.acting then
      match checkLimits command with
      | .error _ => none
      | .ok () => some (command.userId, command.limits)
    else none
  | _ => none

/-- The limits of the users after a call. -/
def changed (limits : OMap String QuotaLimits) (x : Call) : OMap String QuotaLimits :=
  match change x with
  | none => limits
  | some (userId, new) => limits.set userId new

/-- **A call executed alone** leaves the limits as its change makes them. -/
theorem alone_limits (hst : QuotaCache.Clean st) (s : S) (x : Call) (is : ℕ → ℕ × In) :
    QuotaCache.Clean ((machine A exec env).alone (st, s) x is).1.1 ∧
      ((machine A exec env).alone (st, s) x is).1.1.limits = changed st.limits x := by
  show QuotaCache.Clean ((prog A x).run (drive (machine A exec env).exec) ((st, s), is)).1.1.1 ∧
    ((prog A x).run (drive (machine A exec env).exec) ((st, s), is)).1.1.1.limits = _
  cases x with
  | throttle userId token score =>
    obtain ⟨st', n, r, -, hrun, hclean, hlimits⟩ := throttle_run A exec env hst userId token score s is
    rw [prog, Prog.run_bind, hrun]
    exact ⟨hclean, hlimits⟩
  | changeQuotaLimits command =>
    rw [prog, Prog.run_bind, authorized_eq, changed, change]
    by_cases hmatch : IsPermissionsMatches RateLimitingPermissions.ChangeQuotaLimits command.session.acting
    · rw [if_pos hmatch, if_pos hmatch, changeQuotaLimits]
      cases checkLimits command with
      | error e => exact ⟨hst, rfl⟩
      | ok u =>
        obtain ⟨st', hrun, hclean, hlimits⟩ :=
          update_run (fun i : ℕ × In => i.1) hst command.userId command.limits is
        dsimp only
        rw [Prog.run_bind, stores_run, hrun]
        exact ⟨hclean, hlimits⟩
    · rw [if_neg hmatch, if_neg hmatch]
      exact ⟨hst, rfl⟩
  | getQuotaLimits session userId =>
    obtain ⟨st', n, hrun, hclean, hlimits⟩ := getQuotaLimits_run A exec env hst session.user.id s is
    rw [prog, Prog.run_bind, authorized_eq]
    by_cases hmatch : IsPermissionsMatches RateLimitingPermissions.GetQuotaLimits session.acting
    · rw [if_pos hmatch, Prog.run_bind, hrun]
      exact ⟨hclean, hlimits⟩
    · rw [if_neg hmatch]
      exact ⟨hst, rfl⟩
  | getQuotaSummary session userId token =>
    obtain ⟨st', n, r, -, hrun, hclean, hlimits⟩ := getQuotaSummary_run A exec env hst session.user.id token s is
    rw [prog, Prog.run_bind, authorized_eq]
    by_cases hmatch : IsPermissionsMatches RateLimitingPermissions.GetQuotaSummary session.acting
    · rw [if_pos hmatch, Prog.run_bind, hrun]
      exact ⟨hclean, hlimits⟩
    · rw [if_neg hmatch]
      exact ⟨hst, rfl⟩

/-- A call from its start to its end, or a move of the environment. -/
def turn (s : QuotaCache.Stores × S) : (Call × (ℕ → ℕ × In)) ⊕ (String ⊕ Env) → QuotaCache.Stores × S
  | .inl x => ((machine A exec env).alone s x.1 x.2).1
  | .inr e => (machine A exec env).env e s

/-- The calls of a series. -/
def calls (xs : List ((Call × (ℕ → ℕ × In)) ⊕ (String ⊕ Env))) : List Call :=
  xs.filterMap fun x => x.getLeft?.map Prod.fst

/-- After a series the stores agree, and have the last change of every user. -/
theorem turns_limits (s : S) (xs : List ((Call × (ℕ → ℕ × In)) ⊕ (String ⊕ Env))) :
    QuotaCache.Clean (xs.foldl (turn A exec env) (.empty, s)).1 ∧
      (xs.foldl (turn A exec env) (.empty, s)).1.limits = (calls xs).foldl changed .empty := by
  induction xs using List.reverseRecOn with
  | nil => exact ⟨fun userId entry hget => (nomatch hget), rfl⟩
  | append_singleton xs x ih =>
    obtain ⟨hclean, hlimits⟩ := ih
    rw [calls, List.filterMap_append, List.foldl_append, List.foldl_append, ← calls, ← hlimits]
    set now := xs.foldl (turn A exec env) (.empty, s) with hnow
    cases x with
    | inl x => exact alone_limits A exec env hclean now.2 x.1 x.2
    | inr e =>
      cases e with
      | inl key => exact ⟨clean_erase hclean key, rfl⟩
      | inr e => exact ⟨hclean, rfl⟩

/-- The limits that the last accepted change for the user has asked for. -/
def lastChange (xs : List Call) (userId : String) : Option QuotaLimits :=
  ((xs.filterMap change).reverse.find? fun e => e.1 = userId).map Prod.snd

theorem get_changed_one (limits : OMap String QuotaLimits) (x : Call) (userId : String) :
    (changed limits x).get userId = ((change x).bind fun e => if e.1 = userId then some e.2 else none).or
      (limits.get userId) := by
  unfold changed
  cases change x with
  | none => rfl
  | some e =>
    show (limits.set e.1 e.2).get userId = (if e.1 = userId then some e.2 else none).or (limits.get userId)
    rw [OMap.get_set]
    split <;> rfl

theorem get_changed (xs : List Call) (userId : String) :
    (xs.foldl changed .empty).get userId = lastChange xs userId := by
  induction xs using List.reverseRecOn with
  | nil => rfl
  | append_singleton xs x ih =>
    rw [List.foldl_append, List.foldl_cons, List.foldl_nil, get_changed_one, ih]
    unfold lastChange
    rw [List.filterMap_append, List.reverse_append, List.find?_append]
    cases hx : change x with
    | none => simp [hx]
    | some e => by_cases huser : e.1 = userId <;> simp [hx, huser]

/-- **The cached limits are the plain ones.** After any calls one after another, with whatever the cache has
dropped between them, a client is held to the limits of the last accepted change for the user, or to the
default limits: what it gets is what the algorithm gives with these limits. -/
theorem series_in_force (s : S) (xs : List ((Call × (ℕ → ℕ × In)) ⊕ (String ⊕ Env))) (userId token : String) (score : ℕ)
    (is : ℕ → ℕ × In) :
    ∃ n r now, now = xs.foldl (turn A exec env) (.empty, s) ∧
      r = algorithmRun exec
        (A.request userId token score ((lastChange (calls xs) userId).getD defaultQuotaLimits)) now.2
        (fun m => is (m + n)) ∧
      ((machine A exec env).alone now (.throttle userId token score) is).2 = .throttled (held r.2) ∧
      ((machine A exec env).alone now (.throttle userId token score) is).1.2 = r.1.1 := by
  obtain ⟨hclean, hlimits⟩ := turns_limits A exec env s xs
  have hget : (xs.foldl (turn A exec env) (.empty, s)).1.limits.get userId = lastChange (calls xs) userId := by
    rw [hlimits, get_changed]
  obtain ⟨st', n, r, hr, hrun, -, -⟩ := throttle_run A exec env hclean userId token score
    (xs.foldl (turn A exec env) (.empty, s)).2 is
  rw [hget] at hr
  refine ⟨n, r, _, rfl, hr, ?_⟩
  have halone : (prog A (.throttle userId token score)).run (drive (machine A exec env).exec)
      (xs.foldl (turn A exec env) (.empty, s), is) = (((st', r.1.1), r.1.2), .throttled (held r.2)) := by
    rw [prog, Prog.run_bind, hrun]
    rfl
  unfold Machine.alone
  refine ⟨?_, ?_⟩
  · exact congrArg Prod.snd halone
  · exact congrArg (fun w => w.1.1.2) halone

end Series

end NodeToolkit.RateLimiting
