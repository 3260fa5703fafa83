import NodeToolkit.Async.Schedule
import NodeToolkit.Proof.InMemoryCache
import NodeToolkit.Spec.QuotaCache

/-!
# Coherence of the cached limits

Reading fills the cache from the repository, and updating writes both, each in two steps.

* `UpToDate`: what is about to be written to the cache is what the repository has, or an update
  that wrote what the repository has is still going to write the cache.
* `Coherent`: the invariant of the cache under this condition (`coherent_run`).
* `cache_coherent`: with no call in flight the cache agrees with the repository, and a read that
  starts after all updates have returned gets the current limits.
* `upToDate_of_inTurn`: what calls write is up to date if those on the same user do not overlap.
-/

namespace NodeToolkit.QuotaCache

open Async

/-- The stores with the calls made so far. -/
abbrev QuotaPool : Type := Pool Resp Stores Call Reply

/-- The user a call is about. -/
def Call.userId : Call → String
  | .ofUser userId => userId
  | .update userId _ => userId

theorem key_inj {u v : String} (h : key u = key v) : u = v := by
  have hlist := congrArg String.toList h
  rw [key, key, String.toList_append, String.toList_append] at hlist
  exact String.toList_inj.1 (List.append_cancel_left hlist)

/-! ## How far a call has come -/

/-- The rest of a read, once it knows what the repository has. -/
def afterFetch (userId : String) : Option QuotaLimits → Client Reply
  | none => .ret (.limits none)
  | some limits =>
    .await (.cache (.set (key userId) (some limits) (some ONE_DAY))) fun _ => .ret (.limits (some limits))

/-- The rest of a read, once it knows what the cache has. -/
def afterLookup (userId : String) (cached : Option QuotaLimits) : Client Reply :=
  if JsValue.truthy cached then .ret (.limits cached) else .await (.ofUser userId) (afterFetch userId)

theorem prog_ofUser (userId : String) :
    prog (.ofUser userId) = .await (.cache (.get (key userId))) (afterLookup userId) := by
  simp only [prog, ofUser, Client.cache, InMemoryCache.get, Prog.embed_await, Prog.embed_ret, Prog.await_bind,
    Prog.ret_bind]
  congr 1
  funext cached
  unfold afterLookup
  split
  · rfl
  · simp only [Client.ofUser, Prog.await_bind, Prog.ret_bind]
    congr 1
    funext limits
    cases limits with
    | none => rfl
    | some limits => rfl

/-- The rest of an update, once it has written the repository. -/
def afterUpdate (userId : String) (limits : QuotaLimits) : Client Reply :=
  .await (.cache (.set (key userId) (some limits) (some ONE_DAY))) fun _ => .ret .updated

theorem prog_update (userId : String) (limits : QuotaLimits) :
    prog (.update userId limits) = .await (.update userId limits) fun _ => afterUpdate userId limits := rfl

/-- How far a call has come. -/
inductive Stage : Call → Client Reply → Prop where
  | lookup (userId : String) : Stage (.ofUser userId) (.await (.cache (.get (key userId))) (afterLookup userId))
  | fetch (userId : String) : Stage (.ofUser userId) (.await (.ofUser userId) (afterFetch userId))
  | fill (userId : String) (limits : QuotaLimits) : Stage (.ofUser userId) (afterFetch userId (some limits))
  | returned (userId : String) (r : Option QuotaLimits) : Stage (.ofUser userId) (.ret (.limits r))
  | store (userId : String) (limits : QuotaLimits) :
      Stage (.update userId limits) (.await (.update userId limits) fun _ => afterUpdate userId limits)
  | publish (userId : String) (limits : QuotaLimits) : Stage (.update userId limits) (afterUpdate userId limits)
  | updated (userId : String) (limits : QuotaLimits) : Stage (.update userId limits) (.ret .updated)

/-- A call comes to its next stage, whatever the stores are. -/
theorem Stage.next {x : Call} {c : Cmd} {k : Resp c → Client Reply} (h : Stage x (.await c k)) (now : ℕ) (s : Stores) :
    Stage x (k (exec now s c).2) := by
  generalize hrest : (Prog.await c k : Client Reply) = rest at h
  cases h with
  | lookup userId =>
    cases hrest
    show Stage _ (afterLookup userId _)
    unfold afterLookup
    split
    · exact .returned userId _
    · exact .fetch userId
  | fetch userId =>
    cases hrest
    show Stage _ (afterFetch userId (s.limits.get userId))
    cases s.limits.get userId with
    | none => exact .returned userId none
    | some limits => exact .fill userId limits
  | fill userId limits =>
    cases hrest
    exact .returned userId (some limits)
  | returned userId r => cases hrest
  | store userId limits =>
    cases hrest
    exact .publish userId limits
  | publish userId limits =>
    cases hrest
    exact .updated userId limits
  | updated userId limits => cases hrest

theorem stage_prog (x : Call) : Stage x (machine.prog x) := by
  cases x with
  | ofUser userId =>
    show Stage _ (prog (.ofUser userId))
    rw [prog_ofUser]
    exact .lookup userId
  | update userId limits =>
    show Stage _ (prog (.update userId limits))
    rw [prog_update]
    exact .store userId limits

/-- The value that a call is about to write to the cache. -/
def filling (p : Proc Resp Call Reply) : Option (Option QuotaLimits) :=
  match p.rest with
  | .await (.cache (.set _ value _)) _ => some value
  | _ => none

/-! ## The condition -/

section Inv

variable {w : QuotaPool} {pid now : ℕ} {p : Proc Resp Call Reply} {userId : String} {limits : QuotaLimits}

/-- An update has written the limits that the repository has, and is about to write them to the cache. -/
def Publishing (w : QuotaPool) (userId : String) : Prop :=
  ∃ limits ∈ w.st.limits.get userId, ∃ e ∈ w.procs.entries,
    e.2.call = .update userId limits ∧ (filling e.2).isSome = true

/-- **What is written to the cache** is what the repository has, or an update is still about to write that. -/
def UpToDate (w : QuotaPool) : Ev ℕ String Call → Prop
  | .step pid _ => ∀ p ∈ w.procs.get pid, ∀ value ∈ filling p,
      w.st.limits.get p.call.userId = value ∨ Publishing w p.call.userId
  | _ => True

/-- **The invariant.** -/
structure Coherent (w : QuotaPool) : Prop where
  stages : ∀ q p, w.procs.get q = some p → Stage p.call p.rest
  cached : ∀ userId entry, w.st.cache.get (key userId) = some entry →
    w.st.limits.get userId = entry.value ∨ Publishing w userId

/-- The cache has no entries but those of the repository. -/
def Clean (s : Stores) : Prop :=
  ∀ userId entry, s.cache.get (key userId) = some entry → s.limits.get userId = entry.value

theorem coherent_init {s : Stores} (hs : Clean s) : Coherent (Pool.init s) where
  stages := fun _ _ h => by simp [Pool.init] at h
  cached := fun userId entry h => Or.inl (hs userId entry h)

theorem publishing_iff : Publishing w userId ↔ ∃ limits q p, w.st.limits.get userId = some limits ∧
    w.procs.get q = some p ∧ p.call = .update userId limits ∧ (filling p).isSome = true := by
  constructor
  · rintro ⟨limits, hlimits, ⟨q, p⟩, he, hcall, hfill⟩
    exact ⟨limits, q, p, hlimits, OMap.get_eq_some.2 he, hcall, hfill⟩
  · rintro ⟨limits, q, p, hlimits, hq, hcall, hfill⟩
    exact ⟨limits, hlimits, (q, p), OMap.get_eq_some.1 hq, hcall, hfill⟩

/-- Publishing goes on while others move and the limits of the user stay. -/
theorem Publishing.of_others {w' : QuotaPool} (h : Publishing w userId)
    (hlimits : w'.st.limits.get userId = w.st.limits.get userId)
    (hprocs : ∀ q p limits, w.procs.get q = some p → p.call = .update userId limits → (filling p).isSome = true →
      w'.procs.get q = some p) : Publishing w' userId := by
  obtain ⟨limits, q, p, hget, hq, hcall, hfill⟩ := publishing_iff.1 h
  exact publishing_iff.2 ⟨limits, q, p, hlimits.trans hget, hprocs q p limits hq hcall hfill, hcall, hfill⟩

theorem Coherent.begin (hC : Coherent w) (hn : w.procs.get pid = none) (x : Call) :
    Coherent (machine.begin w pid x) := by
  refine ⟨Machine.begin_all hC.stages (stage_prog x), fun userId entry hentry => ?_⟩
  refine (hC.cached userId entry hentry).imp_right fun hpub => hpub.of_others rfl fun q p limits hq _ _ => ?_
  exact Machine.begin_stays hn hq

/-- A call that was not about to write the cache moves, and the repository stays. -/
theorem Coherent.keep {c : Cmd} {k : Resp c → Client Reply} (hC : Coherent w) (hp : w.procs.get pid = some p)
    (hfill : filling p = none) (hstage : Stage p.call (k (exec now w.st c).2))
    (hlimits : (exec now w.st c).1.limits = w.st.limits)
    (hcache : ∀ userId entry, (exec now w.st c).1.cache.get (key userId) = some entry →
      w.st.cache.get (key userId) = some entry) : Coherent (machine.advance w pid now p c k) := by
  refine ⟨Machine.advance_all hC.stages hstage, fun userId entry hentry => ?_⟩
  have hold := hC.cached userId entry (hcache userId entry hentry)
  show (exec now w.st c).1.limits.get userId = _ ∨ _
  rw [hlimits]
  refine hold.imp_right fun hpub => hpub.of_others (congrArg (OMap.get · userId) hlimits) fun q p' l hq _ hfill' => ?_
  have hne : pid ≠ q := by
    rintro rfl
    rw [hp] at hq
    rw [← Option.some.inj hq, hfill] at hfill'
    simp at hfill'
  exact (OMap.get_set_ne _ _ hne).trans hq

/-- **A write of the cache** that is up to date. -/
theorem Coherent.fill (hC : Coherent w) (hG : UpToDate w (.step pid now)) (hp : w.procs.get pid = some p)
    {k : Unit → Client Reply} {ttl : Option ℚ}
    (hr : p.rest = .await (.cache (.set (key p.call.userId) (some limits) ttl)) k)
    (hcall : ∀ l, p.call = .update p.call.userId l → l = limits) (hstage : Stage p.call (k ())) :
    Coherent (machine.advance w pid now p (.cache (.set (key p.call.userId) (some limits) ttl)) k) := by
  have hfilling : filling p = some (some limits) := by simp only [filling, hr]
  have hfresh := hG p hp (some limits) hfilling
  refine ⟨Machine.advance_all hC.stages hstage, fun userId entry hentry => ?_⟩
  -- an update that is still publishing, and is not this call, goes on
  have hkeep : Publishing w userId → w.st.limits.get userId = some limits ∧ userId = p.call.userId ∨
      Publishing (machine.advance w pid now p (.cache (.set (key p.call.userId) (some limits) ttl)) k) userId := by
    intro hpub
    obtain ⟨l, q, p', hget, hq, hcall', hfill'⟩ := publishing_iff.1 hpub
    by_cases hne : pid = q
    · subst hne
      rw [hp] at hq
      obtain rfl := Option.some.inj hq
      have huser : userId = p.call.userId := by rw [hcall']; rfl
      rw [huser] at hcall'
      exact Or.inl ⟨by rw [hget, hcall l hcall'], huser⟩
    · exact Or.inr (publishing_iff.2 ⟨l, q, p', hget, (OMap.get_set_ne _ _ hne).trans hq, hcall', hfill'⟩)
  have hset : (w.st.cache.set (key p.call.userId) ⟨some limits, now, ttl⟩).get (key userId) = some entry := hentry
  show w.st.limits.get userId = entry.value ∨ _
  rw [OMap.get_set] at hset
  by_cases hkey : key p.call.userId = key userId
  · rw [if_pos hkey] at hset
    obtain rfl := Option.some.inj hset
    obtain rfl := key_inj hkey
    rcases hfresh with hcurrent | hpub
    · exact Or.inl hcurrent
    · exact (hkeep hpub).imp_left fun h => h.1
  · rw [if_neg hkey] at hset
    rcases hC.cached userId entry hset with hcurrent | hpub
    · exact Or.inl hcurrent
    · refine (hkeep hpub).imp_left fun h => ?_
      exact absurd (congrArg key h.2.symm) hkey

/-- **A write of the repository**: from now on the update is publishing. -/
theorem Coherent.store (hC : Coherent w) (hp : w.procs.get pid = some p) (hcall : p.call = .update userId limits)
    (hr : p.rest = .await (.update userId limits) fun _ => afterUpdate userId limits) :
    Coherent (machine.advance w pid now p (.update userId limits) fun _ => afterUpdate userId limits) := by
  refine ⟨Machine.advance_all hC.stages ?_, fun v entry hentry => ?_⟩
  · rw [hcall]
    exact .publish userId limits
  · show (w.st.limits.set userId limits).get v = _ ∨ _
    by_cases hv : userId = v
    · subst hv
      refine Or.inr (publishing_iff.2 ⟨limits, pid, _, OMap.get_set_self .., OMap.get_set_self .., hcall, rfl⟩)
    · rw [OMap.get_set_ne _ _ hv]
      refine (hC.cached v entry hentry).imp_right fun hpub =>
        hpub.of_others (OMap.get_set_ne _ _ hv) fun q p' l hq _ hfill => ?_
      have hne : pid ≠ q := by
        rintro rfl
        rw [hp] at hq
        rw [← Option.some.inj hq] at hfill
        simp [filling, hr] at hfill
      exact (OMap.get_set_ne _ _ hne).trans hq

/-- What the cache has after a read was there before. -/
theorem get_of_get_lookup {k k' : String} {s : InMemoryCache.Store (Option QuotaLimits)}
    {entry : CacheEntry (Option QuotaLimits)}
    (h : (InMemoryCache.exec now s (.get k)).1.get k' = some entry) : s.get k' = some entry := by
  rcases InMemoryCache.get_state now s k with hs | ⟨hs, -⟩
  · rw [hs] at h
    exact h
  · rw [hs, OMap.get_erase] at h
    split at h
    · simp at h
    · exact h

/-- **Every command** keeps the invariant, if what it writes to the cache is up to date. -/
theorem Coherent.advance {c : Cmd} {k : Resp c → Client Reply} (hC : Coherent w) (hG : UpToDate w (.step pid now))
    (hp : w.procs.get pid = some p) (hr : p.rest = .await c k) : Coherent (machine.advance w pid now p c k) := by
  have hstage := hC.stages pid p hp
  obtain ⟨call, hist, rest⟩ := p
  dsimp only at hr hstage
  subst hr
  have hnext := hstage.next now w.st
  generalize hrest : (Prog.await c k : Client Reply) = rest at hstage
  cases hstage with
  | lookup userId =>
    cases hrest
    exact hC.keep hp rfl hnext rfl fun v entry h => get_of_get_lookup h
  | fetch userId =>
    cases hrest
    exact hC.keep hp rfl hnext rfl fun v entry h => h
  | fill userId limits =>
    cases hrest
    exact hC.fill hG hp rfl (fun l h => by simp at h) hnext
  | returned userId r => simp at hrest
  | store userId limits =>
    cases hrest
    exact hC.store hp rfl rfl
  | publish userId limits =>
    cases hrest
    exact hC.fill hG hp rfl (fun l h => by simpa [Call.userId] using h.symm) hnext
  | updated userId limits => simp at hrest

/-- An entry that is dropped. -/
theorem Coherent.env (hC : Coherent w) (k : String) : Coherent ⟨machine.env k w.st, w.procs⟩ := by
  refine ⟨hC.stages, fun userId entry hentry => ?_⟩
  have hold : w.st.cache.get (key userId) = some entry := by
    have herase : (w.st.cache.erase k).get (key userId) = some entry := hentry
    rw [OMap.get_erase] at herase
    split at herase
    · simp at herase
    · exact herase
  exact hC.cached userId entry hold

theorem coherent_run {es : List (Ev ℕ String Call)} (hC : Coherent w) (hG : machine.Along UpToDate w es) :
    Coherent (machine.run w es) :=
  Machine.run_inv (fun _ _ x hC _ hn => hC.begin hn x) (fun _ _ _ _ _ _ hC hG hp hr => hC.advance hG hp hr)
    (fun _ k hC _ => hC.env k) hC hG

end Inv

/-! ## Reads after the last update -/

section Reads

variable {w : QuotaPool} {pid q now : ℕ} {p : Proc Resp Call Reply} {userId : String} {L : Option QuotaLimits}

/-- **All updates of the user have returned**, and what the call `pid` knows of the limits is what the
repository has. -/
structure Settled (userId : String) (L : Option QuotaLimits) (pid : ℕ) (w : QuotaPool) : Prop where
  coherent : Coherent w
  limits : w.st.limits.get userId = L
  idle : ∀ q p limits, w.procs.get q = some p → p.call = .update userId limits → ¬ p.Running
  returned : ∀ p r, w.procs.get pid = some p → p.call = .ofUser userId → p.result = some (.limits r) → r = L
  filling : ∀ p value, w.procs.get pid = some p → p.call = .ofUser userId → filling p = some value → value = L

/-- No update of the user is called. -/
def NoUpdate (userId : String) : Ev ℕ String Call → Prop
  | .call _ (.update v _) => v ≠ userId
  | _ => True

theorem running_of_filling (h : (filling p).isSome = true) : p.Running := by
  cases hr : p.rest with
  | ret a => simp [QuotaCache.filling, hr] at h
  | await c k => exact Proc.running_of_await hr

/-- With no update of the user in flight, its entry is what the repository has. -/
theorem Settled.entry (hS : Settled userId L pid w) {entry : CacheEntry (Option QuotaLimits)}
    (h : w.st.cache.get (key userId) = some entry) : entry.value = L := by
  rcases hS.coherent.cached userId entry h with hcurrent | hpub
  · rw [← hcurrent]
    exact hS.limits
  · obtain ⟨limits, q, p, -, hq, hcall, hfill⟩ := publishing_iff.1 hpub
    exact absurd (running_of_filling hfill) (hS.idle q p limits hq hcall)

theorem Settled.begin (hS : Settled userId L pid w) {x : Call} (hx : NoUpdate userId (.call q x))
    (hn : w.procs.get q = none) : Settled userId L pid (machine.begin w q x) := by
  have hnew : (⟨x, [], machine.prog x⟩ : Proc Resp Call Reply).Running ∧
      QuotaCache.filling (⟨x, [], machine.prog x⟩ : Proc Resp Call Reply) = none := by
    cases x with
    | ofUser v => exact ⟨Proc.running_of_await (prog_ofUser v), by simp only [QuotaCache.filling, machine, prog_ofUser]⟩
    | update v limits => exact ⟨rfl, rfl⟩
  refine ⟨hS.coherent.begin hn x, hS.limits, fun q' p limits hq hcall => ?_, fun p r hq hcall hres => ?_,
    fun p value hq hcall hfill => ?_⟩
  · rcases Machine.begin_cases hq with ⟨-, rfl⟩ | ⟨-, hq⟩
    · dsimp only at hcall
      subst hcall
      exact absurd rfl hx
    · exact hS.idle q' p limits hq hcall
  · rcases Machine.begin_cases hq with ⟨-, rfl⟩ | ⟨-, hq⟩
    · rw [hnew.1] at hres
      simp at hres
    · exact hS.returned p r hq hcall hres
  · rcases Machine.begin_cases hq with ⟨-, rfl⟩ | ⟨-, hq⟩
    · rw [hnew.2] at hfill
      simp at hfill
    · exact hS.filling p value hq hcall hfill

/-- A read of the cache that counts as true returns an entry. -/
theorem entry_of_truthy {k : String} {s : InMemoryCache.Store (Option QuotaLimits)}
    (h : JsValue.truthy (InMemoryCache.exec now s (.get k)).2 = true) :
    ∃ entry, s.get k = some entry ∧ (InMemoryCache.exec now s (.get k)).2 = entry.value := by
  cases hget : s.get k with
  | none =>
    rw [InMemoryCache.exec_get_none hget, JsValue.truthy_null] at h
    simp at h
  | some entry =>
    rw [InMemoryCache.exec_get_some hget] at h ⊢
    split at h
    · rw [JsValue.truthy_null] at h
      simp at h
    · rename_i hexp
      exact ⟨entry, rfl, by rw [if_neg hexp]⟩

/-- **What a read of the user knows** next is what the repository has. -/
theorem Settled.knows {c : Cmd} {k : Resp c → Client Reply} (hS : Settled userId L pid w)
    (hp : w.procs.get pid = some p) (hcall : p.call = .ofUser userId) (hr : p.rest = .await c k) (hist : Hist Resp) :
    (∀ r, (⟨p.call, hist, k (exec now w.st c).2⟩ : Proc Resp Call Reply).result = some (.limits r) → r = L) ∧
    ∀ value, QuotaCache.filling ⟨p.call, hist, k (exec now w.st c).2⟩ = some value → value = L := by
  have hstage := hS.coherent.stages pid p hp
  have hfilling := hS.filling p
  obtain ⟨call, hist', rest⟩ := p
  dsimp only at hr hstage hcall
  subst hr hcall
  generalize hrest : (Prog.await c k : Client Reply) = rest at hstage
  cases hstage with
  | lookup =>
    cases hrest
    show (∀ r, (⟨_, hist, afterLookup userId (InMemoryCache.exec now w.st.cache (.get (key userId))).2⟩ :
        Proc Resp Call Reply).result = some (.limits r) → r = L) ∧
      ∀ value, QuotaCache.filling ⟨_, hist, afterLookup userId (InMemoryCache.exec now w.st.cache (.get (key userId))).2⟩ =
        some value → value = L
    by_cases htruthy : JsValue.truthy (InMemoryCache.exec now w.st.cache (.get (key userId))).2 = true
    · obtain ⟨entry, hentry, hvalue⟩ := entry_of_truthy htruthy
      rw [afterLookup, if_pos htruthy, hvalue, hS.entry hentry]
      simp [Proc.result, QuotaCache.filling, eq_comm]
    · rw [afterLookup, if_neg htruthy]
      simp [Proc.result, QuotaCache.filling]
  | fetch =>
    cases hrest
    show (∀ r, (⟨_, hist, afterFetch userId (w.st.limits.get userId)⟩ : Proc Resp Call Reply).result =
        some (.limits r) → r = L) ∧
      ∀ value, QuotaCache.filling ⟨_, hist, afterFetch userId (w.st.limits.get userId)⟩ = some value → value = L
    rw [hS.limits]
    cases L with
    | none => simp [afterFetch, Proc.result, QuotaCache.filling, eq_comm]
    | some limits => simp [afterFetch, Proc.result, QuotaCache.filling, eq_comm]
  | fill _ limits =>
    cases hrest
    have hL : some limits = L := hfilling (some limits) hp rfl rfl
    rw [← hL]
    simp [Proc.result, QuotaCache.filling, eq_comm]
  | returned _ r => simp at hrest

/-- The limits of the user change only when an update of the user writes them. -/
theorem limits_advance {c : Cmd} {k : Resp c → Client Reply} (hstage : Stage p.call p.rest)
    (hr : p.rest = .await c k) (hcall : ∀ limits, p.call ≠ .update userId limits) :
    (exec now w.st c).1.limits.get userId = w.st.limits.get userId := by
  obtain ⟨call, hist, rest⟩ := p
  dsimp only at hr hstage hcall
  subst hr
  generalize hrest : (Prog.await c k : Client Reply) = rest at hstage
  cases hstage with
  | lookup v => cases hrest; rfl
  | fetch v => cases hrest; rfl
  | fill v limits => cases hrest; rfl
  | returned v r => simp at hrest
  | store v limits =>
    cases hrest
    have hne : v ≠ userId := by
      rintro rfl
      exact hcall limits rfl
    exact OMap.get_set_ne _ _ hne
  | publish v limits => cases hrest; rfl
  | updated v limits => simp at hrest

theorem Settled.advance {c : Cmd} {k : Resp c → Client Reply} (hS : Settled userId L pid w)
    (hG : UpToDate w (.step q now)) (hp : w.procs.get q = some p) (hr : p.rest = .await c k) :
    Settled userId L pid (machine.advance w q now p c k) := by
  have hidle : ∀ limits, p.call ≠ .update userId limits := fun limits hcall =>
    hS.idle q p limits hp hcall (Proc.running_of_await hr)
  refine ⟨hS.coherent.advance hG hp hr, ?_, fun q' p' limits hq hcall => ?_, fun p' r hq hcall hres => ?_,
    fun p' value hq hcall hfill => ?_⟩
  · have hlimits : (exec now w.st c).1.limits.get userId = w.st.limits.get userId :=
      limits_advance (hS.coherent.stages q p hp) hr hidle
    exact hlimits.trans hS.limits
  · rcases Machine.advance_cases hq with ⟨-, rfl⟩ | ⟨-, hq⟩
    · exact absurd hcall (hidle limits)
    · exact hS.idle q' p' limits hq hcall
  · rcases Machine.advance_cases hq with ⟨rfl, rfl⟩ | ⟨-, hq⟩
    · exact (hS.knows hp hcall hr _).1 r hres
    · exact hS.returned p' r hq hcall hres
  · rcases Machine.advance_cases hq with ⟨rfl, rfl⟩ | ⟨-, hq⟩
    · exact (hS.knows hp hcall hr _).2 value hfill
    · exact hS.filling p' value hq hcall hfill

theorem settled_run {es : List (Ev ℕ String Call)} (hS : Settled userId L pid w) (hG : machine.Along UpToDate w es)
    (hno : ∀ e ∈ es, NoUpdate userId e) : Settled userId L pid (machine.run w es) :=
  Machine.run_inv (fun _ _ _ hS hG hn => hS.begin hG.2 hn) (fun _ _ _ _ _ _ hS hG hp hr => hS.advance hG.1 hp hr)
    (fun _ k hS _ => ⟨hS.coherent.env k, hS.limits, hS.idle, hS.returned, hS.filling⟩) hS
    (Machine.Along.and hG (Machine.Along.of_mem fun e he _ => hno e he))

end Reads

/-! ## Every run -/

/-- **Coherence.** In every run in which what is written to the cache is up to date: whenever no call is in
flight, every entry of the cache is what the repository has; and a read of a user that starts when all
updates of the user have returned, and no other one is called, returns what the repository has. -/
theorem cache_coherent {s : Stores} (hs : Clean s) {es : List (Ev ℕ String Call)}
    (hG : machine.Along UpToDate (Pool.init s) es) :
    (∀ v, v <+: es → (machine.run (Pool.init s) v).Quiet → Clean (machine.run (Pool.init s) v).st) ∧
    ∀ v rest, es = v ++ rest → ∀ userId,
      (∀ q p limits, (machine.run (Pool.init s) v).procs.get q = some p → p.call = .update userId limits → ¬ p.Running) →
      (∀ e ∈ rest, NoUpdate userId e) →
      ∀ pid p r, (machine.run (Pool.init s) v).procs.get pid = none →
        (machine.run (Pool.init s) es).procs.get pid = some p → p.call = .ofUser userId →
        p.result = some (.limits r) → r = (machine.run (Pool.init s) es).st.limits.get userId := by
  have hcoherent : ∀ v, v <+: es → Coherent (machine.run (Pool.init s) v) := by
    rintro v ⟨rest, rfl⟩
    exact coherent_run (coherent_init hs) (Machine.Along.append.1 hG).1
  refine ⟨fun v hv hquiet userId entry hentry => ?_, ?_⟩
  · rcases (hcoherent v hv).cached userId entry hentry with hcurrent | hpub
    · exact hcurrent
    · obtain ⟨limits, q, p, -, hq, -, hfill⟩ := publishing_iff.1 hpub
      exact absurd (running_of_filling hfill) (hquiet q p hq)
  · rintro v rest rfl userId hidle hno pid p r hnone hp hcall hres
    have hsettled : Settled userId ((machine.run (Pool.init s) v).st.limits.get userId) pid
        (machine.run (Pool.init s) v) := by
      refine ⟨hcoherent v (List.prefix_append v rest), rfl, hidle, fun p r hget => ?_, fun p value hget => ?_⟩
      · rw [hnone] at hget
        simp at hget
      · rw [hnone] at hget
        simp at hget
    have hend := settled_run hsettled (Machine.Along.append.1 hG).2 hno
    rw [Machine.run_append] at hp ⊢
    rw [hend.limits]
    exact hend.returned p r hp hcall hres

/-! ## Calls on a user in turn -/

/-- Both calls are on one user. -/
def SameUser (x y : Call) : Prop := x.userId = y.userId

/-- **What each call is about to write** is what the repository has, with one call in flight on each user. -/
structure OneEach (w : QuotaPool) : Prop where
  stages : ∀ q p, w.procs.get q = some p → Stage p.call p.rest
  separate : w.Separate SameUser
  current : ∀ q p value, w.procs.get q = some p → filling p = some value → w.st.limits.get p.call.userId = value

section OneEach

variable {w : QuotaPool} {pid now : ℕ} {p : Proc Resp Call Reply}

theorem filling_prog (x : Call) : filling (⟨x, [], machine.prog x⟩ : Proc Resp Call Reply) = none := by
  cases x with
  | ofUser userId => simp only [filling, machine, prog_ofUser]
  | update userId limits => rfl

theorem OneEach.begin (hw : OneEach w) {x : Call} (hx : InTurn SameUser w (.call pid x : Ev ℕ String Call)) :
    OneEach (machine.begin w pid x) where
  stages := Machine.begin_all hw.stages (stage_prog x)
  separate := hw.separate.begin (fun _ _ h => h.symm) hx
  current := by
    intro q p value hq hfill
    rcases Machine.begin_cases hq with ⟨-, rfl⟩ | ⟨-, hold⟩
    · rw [filling_prog] at hfill
      cases hfill
    · exact hw.current q p value hold hfill

/-- What a call is about to write after a command. -/
theorem filling_next {x : Call} {c : Cmd} {k : Resp c → Client Reply} (h : Stage x (.await c k)) (s : Stores)
    (hist : Hist Resp) {value : Option QuotaLimits} (hfill : filling ⟨x, hist, k (exec now s c).2⟩ = some value) :
    (exec now s c).1.limits.get x.userId = value := by
  generalize hrest : (Prog.await c k : Client Reply) = rest at h
  cases h with
  | lookup userId =>
    cases hrest
    have hafter : filling ⟨.ofUser userId, hist,
        afterLookup userId (InMemoryCache.exec now s.cache (.get (key userId))).2⟩ = some value := hfill
    unfold afterLookup at hafter
    split at hafter
    · cases hafter
    · cases hafter
  | fetch userId =>
    cases hrest
    have hafter : filling ⟨.ofUser userId, hist, afterFetch userId (s.limits.get userId)⟩ = some value := hfill
    show s.limits.get userId = value
    cases hget : s.limits.get userId with
    | none =>
      rw [hget] at hafter
      cases hafter
    | some limits =>
      rw [hget] at hafter
      exact Option.some.inj hafter
  | fill userId limits =>
    cases hrest
    cases hfill
  | returned userId r => cases hrest
  | store userId limits =>
    cases hrest
    have hafter : some (some limits) = some value := hfill
    exact (OMap.get_set_self ..).trans (Option.some.inj hafter)
  | publish userId limits =>
    cases hrest
    cases hfill
  | updated userId limits => cases hrest

theorem OneEach.advance (hw : OneEach w) {c : Cmd} {k : Resp c → Client Reply} (hp : w.procs.get pid = some p)
    (hr : p.rest = .await c k) : OneEach (machine.advance w pid now p c k) where
  stages := by
    have hstage := hw.stages pid p hp
    rw [hr] at hstage
    exact Machine.advance_all hw.stages (hstage.next now w.st)
  separate := hw.separate.advance hp hr
  current := by
    intro q p' value hq hfill
    have hstage := hw.stages pid p hp
    rcases Machine.advance_cases hq with ⟨rfl, rfl⟩ | ⟨hne, hold⟩
    · rw [hr] at hstage
      exact filling_next hstage w.st _ hfill
    · -- an update of the same user is not in flight
      have hother : ∀ limits, p.call ≠ .update p'.call.userId limits := by
        intro limits hcall
        have hrunning : p'.Running := running_of_filling (by rw [hfill]; rfl)
        have hsame : SameUser p'.call p.call := by rw [hcall]; rfl
        exact hne (hw.separate q pid p' p hold hp hrunning (Proc.running_of_await hr) hsame)
      exact (limits_advance hstage hr hother).trans (hw.current q p' value hold hfill)

end OneEach

/-- **Calls on a user that do not overlap** write what is up to date. -/
theorem upToDate_of_inTurn {s : Stores} {es : List (Ev ℕ String Call)}
    (hes : machine.Along (InTurn SameUser) (Pool.init s) es) : machine.Along UpToDate (Pool.init s) es := by
  have hinit : OneEach (Pool.init s) :=
    ⟨fun q p h => by simp [Pool.init] at h, separate_init s, fun q p value h => by simp [Pool.init] at h⟩
  refine Machine.Along.of_inv (I := OneEach) (G := InTurn SameUser) (fun w pid x hw hx _ => hw.begin hx)
    (fun w pid now p c k hw _ hp hr => hw.advance hp hr) (fun w k hw _ => ⟨hw.stages, hw.separate, hw.current⟩)
    ?_ hinit hes
  intro w e hw _
  cases e with
  | call pid x => trivial
  | step pid now => exact fun p hp value hvalue => Or.inl (hw.current pid p value hp hvalue)
  | env k => trivial

instance (w : QuotaPool) (userId : String) : Decidable (Publishing w userId) :=
  inferInstanceAs (Decidable (∃ limits ∈ w.st.limits.get userId, ∃ e ∈ w.procs.entries,
    e.2.call = .update userId limits ∧ (filling e.2).isSome = true))

instance (w : QuotaPool) : ∀ e : Ev ℕ String Call, Decidable (UpToDate w e)
  | .step pid _ => inferInstanceAs (Decidable (∀ p ∈ w.procs.get pid, ∀ value ∈ filling p,
      w.st.limits.get p.call.userId = value ∨ Publishing w p.call.userId))
  | .call _ _ | .env _ => inferInstanceAs (Decidable True)

/-- Nothing is cached, and one user has limits. -/
def oneUser : Stores := ⟨OMap.empty.set "u" ⟨1, 2, 3, 4⟩, .empty⟩

theorem clean_oneUser : Clean oneUser := fun userId entry h => by simp [oneUser] at h

/-- A read fills the cache while an update that has written the repository is still to write the cache;
then the user is read again. -/
def fillBeforePublish : List (Ev ℕ String Call) :=
  [.call 0 (.ofUser "u"), .step 0 1, .step 0 2, .call 1 (.update "u" ⟨5, 6, 7, 8⟩), .step 1 3, .step 0 4, .step 1 5,
    .call 2 (.ofUser "u"), .step 2 6]

theorem cache_coherent_fill : ((machine.run (Pool.init oneUser) fillBeforePublish).procs.get 2).bind Proc.result =
    some (.limits ((machine.run (Pool.init oneUser) fillBeforePublish).st.limits.get "u")) ∧
    Clean (machine.run (Pool.init oneUser) fillBeforePublish).st :=
  ⟨by decide +kernel,
    (cache_coherent clean_oneUser (by decide +kernel)).1 fillBeforePublish List.prefix_rfl (by decide +kernel)⟩

/-- **A stale fill**: a read has fetched the limits, an update runs from start to end, and the read fills
the cache. No call is in flight, the cache has the old limits, and a new read returns them. -/
theorem cache_stale :
    let es : List (Ev ℕ String Call) := [.call 0 (.ofUser "u"), .step 0 1, .step 0 2,
      .call 1 (.update "u" ⟨5, 6, 7, 8⟩), .step 1 3, .step 1 4, .step 0 5]
    let w := machine.run (Pool.init oneUser) es
    let w' := machine.run w [.call 2 (.ofUser "u"), .step 2 6]
    w.Quiet ∧ w.st.limits.get "u" = some ⟨5, 6, 7, 8⟩ ∧
    (w.st.cache.get (key "u")).map CacheEntry.value = some (some ⟨1, 2, 3, 4⟩) ∧
    (w'.procs.get 2).bind Proc.result = some (.limits (some ⟨1, 2, 3, 4⟩)) := by
  decide +kernel

end NodeToolkit.QuotaCache
