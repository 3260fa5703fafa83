import NodeToolkit.Proof.JobRunner
import NodeToolkit.Spec.InMemoryJobsScheduler

/-!
# When jobs are fired

* `Kept`: what the timers that are set say about the jobs, kept by every event.
* `pace`: in every run a job is fired no earlier than its rhythm says, and no more often.
* `punctual`: while the loop is prompt, at exactly these instants.
* `silence`: after `clearJobs`, no job that was registered is fired again, but for one whose first run makes
  the call: its interval is set afterwards.
* `load`: so many times can `job.run` be called.
-/

namespace NodeToolkit.InMemoryJobsScheduler

open Async Date EventLoop JobsScheduler

variable {c : Config} {s : Scheduler} {j : ℕ}

/-! ## The timers and the jobs -/

/-- Every timer waits for a millisecond at least. -/
theorem delayOf_pos (delay : Option ℤ) : 0 < delayOf delay := by
  have hpos : 1 ≤ setInterval delay := by
    unfold setInterval
    cases delay with
    | none => exact le_rfl
    | some d =>
      dsimp only
      split
      · omega
      · exact le_rfl
  unfold delayOf
  omega

/-- The first instant at which the job is due. -/
def Registered.first (r : Registered) : ℕ := r.since + delayOf r.timers.executeAfter

def Registered.period (r : Registered) : ℕ := delayOf r.timers.interval

/-- The instants `ts` keep the rhythm. -/
structure Paced (r : Registered) (ts : List ℕ) : Prop where
  first : ∀ t ∈ ts.head?, r.first ≤ t
  chain : ts.IsChain fun a b => a + r.period ≤ b

/-- The timer is the next one of its job, which has been fired at the instants `F`. -/
def Fits (jobs : List Registered) (F : ℕ → List ℕ) (timer : Timer Callback) : Prop :=
  match timer.callback with
  | .timeout job interval => ∃ r, jobs[job]? = some r ∧ timer.period = none ∧ timer.due = r.first ∧
      interval = r.timers.interval ∧ F job = []
  | .runner job => ∃ r last, jobs[job]? = some r ∧ timer.period = some r.period ∧
      (F job).getLast? = some last ∧ last + r.period ≤ timer.due

theorem Fits.lt {jobs : List Registered} {F : ℕ → List ℕ} {timer : Timer Callback} (h : Fits jobs F timer) :
    timer.callback.job < jobs.length := by
  unfold Fits at h
  split at h
  · rename_i hcb
    obtain ⟨r, hr, -⟩ := h
    rw [hcb]
    exact (List.getElem?_eq_some_iff.1 hr).1
  · rename_i hcb
    obtain ⟨r, last, hr, -⟩ := h
    rw [hcb]
    exact (List.getElem?_eq_some_iff.1 hr).1

/-- More jobs, and more firings of other jobs. -/
theorem Fits.mono {jobs jobs' : List Registered} {F F' : ℕ → List ℕ} {timer : Timer Callback} (h : Fits jobs F timer)
    (hjobs : ∀ (k : ℕ) (r : Registered), jobs[k]? = some r → jobs'[k]? = some r) (hF : F' timer.callback.job = F timer.callback.job) :
    Fits jobs' F' timer := by
  unfold Fits at h ⊢
  split at h
  · rename_i hcb
    rw [hcb] at hF
    obtain ⟨r, hr, hperiod, hdue, hinterval, hnil⟩ := h
    exact ⟨r, hjobs _ r hr, hperiod, hdue, hinterval, hF.trans hnil⟩
  · rename_i hcb
    rw [hcb] at hF
    obtain ⟨r, last, hr, hperiod, hlast, hdue⟩ := h
    exact ⟨r, last, hjobs _ r hr, hperiod, by rw [← hlast]; exact congrArg _ hF, hdue⟩

/-- **What is kept**, where the jobs have been fired at the instants `F` and the job `busy` is in its first
run, without a timer. -/
structure Kept (F : ℕ → List ℕ) (busy : Option ℕ) (s : Scheduler) : Prop where
  listed : ∀ ref timer, s.loop.timers.get ref = some timer → ref ∈ s.jobsIntervals ∨ ref ∈ s.jobsTimeouts
  one : ∀ ref timer ref' timer', s.loop.timers.get ref = some timer → s.loop.timers.get ref' = some timer' →
    timer.callback.job = timer'.callback.job → ref = ref'
  fits : ∀ ref timer, s.loop.timers.get ref = some timer → Fits s.jobs F timer
  idle : ∀ ref timer, s.loop.timers.get ref = some timer → busy ≠ some timer.callback.job
  busy : ∀ j, busy = some j → j < s.jobs.length
  known : ∀ j, s.jobs.length ≤ j → F j = []
  past : ∀ j, ∀ t ∈ F j, t ≤ s.loop.now
  paced : ∀ j r, s.jobs[j]? = some r → Paced r (F j)

variable {F : ℕ → List ℕ} {busy : Option ℕ}

theorem getElem?_snoc {jobs : List Registered} {new : Registered} {k : ℕ} {r : Registered} (h : jobs[k]? = some r) :
    (jobs ++ [new])[k]? = some r := by
  rw [List.getElem?_append_left (List.getElem?_eq_some_iff.1 h).1, h]

/-- A registration sets a timer of its own. -/
theorem Kept.register (hK : Kept F busy s) (zone : ℤ) (today now : Time) (rhythm : Rhythm) :
    Kept F busy (register c zone today now rhythm s) := by
  unfold InMemoryJobsScheduler.register
  cases JobsScheduler.register c zone today now rhythm with
  | none => exact hK
  | some timers =>
    have hnew : F s.jobs.length = [] := hK.known _ le_rfl
    refine ⟨?_, ?_, ?_, ?_, ?_, ?_, hK.past, ?_⟩
    · intro ref timer hget
      rcases Loop.get_set hget with ⟨rfl, -⟩ | ⟨-, hold⟩
      · exact .inr (List.mem_append_right _ (List.mem_singleton_self _))
      · exact (hK.listed ref timer hold).imp_right (List.mem_append_left _)
    · intro ref timer ref' timer' hget hget' hjob
      rcases Loop.get_set hget with ⟨rfl, rfl⟩ | ⟨-, hold⟩
      · rcases Loop.get_set hget' with ⟨rfl, -⟩ | ⟨-, hold'⟩
        · rfl
        · have hlt := (hK.fits ref' timer' hold').lt
          have heq : s.jobs.length = timer'.callback.job := hjob
          omega
      · rcases Loop.get_set hget' with ⟨rfl, rfl⟩ | ⟨-, hold'⟩
        · have hlt := (hK.fits ref timer hold).lt
          have heq : timer.callback.job = s.jobs.length := hjob
          omega
        · exact hK.one ref timer ref' timer' hold hold' hjob
    · intro ref timer hget
      rcases Loop.get_set hget with ⟨rfl, rfl⟩ | ⟨-, hold⟩
      · exact ⟨⟨s.loop.now, timers⟩, by simp, rfl, rfl, rfl, hnew⟩
      · exact (hK.fits ref timer hold).mono (fun k r => getElem?_snoc) rfl
    · intro ref timer hget hbusy
      rcases Loop.get_set hget with ⟨rfl, rfl⟩ | ⟨-, hold⟩
      · exact absurd (hK.busy _ hbusy) (lt_irrefl _)
      · exact hK.idle ref timer hold hbusy
    · intro j hj
      have hlt := hK.busy j hj
      rw [List.length_append]
      omega
    · intro j hj
      rw [List.length_append] at hj
      exact hK.known j (by omega)
    · intro j r hr
      by_cases hlt : j < s.jobs.length
      · rw [List.getElem?_append_left hlt] at hr
        exact hK.paced j r hr
      · rw [hK.known j (by omega)]
        exact ⟨fun t ht => (nomatch ht), List.isChain_nil⟩

/-- `clearJobs` clears the timeouts and the intervals of the jobs. -/
theorem get_clearJobs {ref : ℕ} : (clearJobs s).loop.timers.get ref =
    if ref ∈ s.jobsTimeouts then none else if ref ∈ s.jobsIntervals then none else s.loop.timers.get ref := by
  show ((s.loop.clearAll s.jobsIntervals).clearAll s.jobsTimeouts).timers.get ref = _
  rw [Loop.get_clearAll, Loop.get_clearAll]

/-- `clearJobs` clears every timer. -/
theorem Kept.cleared (hK : Kept F busy s) (ref : ℕ) : (clearJobs s).loop.timers.get ref = none := by
  rw [get_clearJobs]
  by_cases htimeout : ref ∈ s.jobsTimeouts
  · rw [if_pos htimeout]
  · rw [if_neg htimeout]
    by_cases hinterval : ref ∈ s.jobsIntervals
    · rw [if_pos hinterval]
    · rw [if_neg hinterval]
      cases hget : s.loop.timers.get ref with
      | none => rfl
      | some timer =>
        rcases hK.listed ref timer hget with h | h
        · exact absurd h hinterval
        · exact absurd h htimeout

/-- Fewer timers. -/
theorem Kept.clearJobs (hK : Kept F busy s) : Kept F busy (clearJobs s) := by
  have hnone : ∀ ref timer, (InMemoryJobsScheduler.clearJobs s).loop.timers.get ref ≠ some timer := by
    intro ref timer hget
    rw [hK.cleared ref] at hget
    cases hget
  refine ⟨?_, ?_, ?_, ?_, hK.busy, hK.known, ?_, hK.paced⟩
  · exact fun ref timer hget => absurd hget (hnone ref timer)
  · exact fun ref timer _ _ hget => absurd hget (hnone ref timer)
  · exact fun ref timer hget => absurd hget (hnone ref timer)
  · exact fun ref timer hget => absurd hget (hnone ref timer)
  · intro j t ht
    show t ≤ ((s.loop.clearAll s.jobsIntervals).clearAll s.jobsTimeouts).now
    rw [Loop.now_clearAll, Loop.now_clearAll]
    exact hK.past j t ht

/-- An act of a job, or from outside. -/
theorem Kept.act (hK : Kept F busy s) (a : Act) : Kept F busy (act c s a) := by
  cases a with
  | register zone today now rhythm => exact hK.register zone today now rhythm
  | clearJobs => exact hK.clearJobs
  | advance t =>
    refine ⟨hK.listed, hK.one, hK.fits, hK.idle, hK.busy, hK.known, ?_, hK.paced⟩
    intro j u hu
    have hle := hK.past j u hu
    exact le_max_of_le_left hle

/-- The acts of a job while it runs. -/
theorem Kept.acts (hK : Kept F busy s) (inner : List Act) :
    Kept F busy (inner.foldl (InMemoryJobsScheduler.act c) s) := by
  induction inner generalizing s with
  | nil => exact hK
  | cons a inner ih => exact ih (hK.act a)

/-- A job that is registered stays so. -/
theorem act_jobs {r : Registered} (a : Act) (h : s.jobs[j]? = some r) : (act c s a).jobs[j]? = some r := by
  cases a with
  | register zone today now rhythm =>
    show (register c zone today now rhythm s).jobs[j]? = some r
    unfold register
    cases JobsScheduler.register c zone today now rhythm with
    | none => exact h
    | some timers => exact getElem?_snoc h
  | clearJobs => exact h
  | advance t => exact h

theorem acts_jobs {r : Registered} (inner : List Act) (h : s.jobs[j]? = some r) :
    (inner.foldl (act c) s).jobs[j]? = some r := by
  induction inner generalizing s with
  | nil => exact h
  | cons a inner ih => exact ih (act_jobs a h)

/-! ## A timer that runs -/

/-- One firing more, a period after the last. -/
theorem Paced.snoc {r : Registered} {ts : List ℕ} {t : ℕ} (h : Paced r ts) (hfirst : ts = [] → r.first ≤ t)
    (hlast : ∀ u ∈ ts.getLast?, u + r.period ≤ t) : Paced r (ts ++ [t]) := by
  refine ⟨?_, chain_snoc h.chain hlast⟩
  cases ts with
  | nil =>
    intro u hu
    cases hu
    exact hfirst rfl
  | cons u us => exact h.first

/-- The first run of a job is over, and its interval is set. -/
theorem Kept.interval {r : Registered} {last : ℕ} (hK : Kept F (some j) s) (hr : s.jobs[j]? = some r)
    (hlast : (F j).getLast? = some last) :
    Kept F none { s with
      loop := s.loop.set (.runner j) r.period (some r.period)
      jobsIntervals := s.jobsIntervals ++ [s.loop.refs] } := by
  refine ⟨?_, ?_, ?_, ?_, ?_, hK.known, hK.past, hK.paced⟩
  · intro ref timer hget
    rcases Loop.get_set hget with ⟨rfl, -⟩ | ⟨-, hold⟩
    · exact .inl (List.mem_append_right _ (List.mem_singleton_self _))
    · exact (hK.listed ref timer hold).imp_left (List.mem_append_left _)
  · intro ref timer ref' timer' hget hget' hjob
    rcases Loop.get_set hget with ⟨rfl, rfl⟩ | ⟨-, hold⟩
    · rcases Loop.get_set hget' with ⟨rfl, -⟩ | ⟨-, hold'⟩
      · rfl
      · exact absurd (congrArg some hjob) (hK.idle ref' timer' hold')
    · rcases Loop.get_set hget' with ⟨rfl, rfl⟩ | ⟨-, hold'⟩
      · exact absurd (congrArg some hjob).symm (hK.idle ref timer hold)
      · exact hK.one ref timer ref' timer' hold hold' hjob
  · intro ref timer hget
    rcases Loop.get_set hget with ⟨rfl, rfl⟩ | ⟨-, hold⟩
    · have hle : last ≤ s.loop.now := hK.past j last (List.mem_of_getLast? hlast)
      exact ⟨r, last, hr, rfl, hlast, Nat.add_le_add_right hle _⟩
    · exact hK.fits ref timer hold
  · exact fun ref timer _ h => nomatch h
  · exact fun j h => nomatch h

/-- A list of the instants, with one more of a job. -/
theorem firings_snoc {w w' : World} {t : ℕ} (h : w'.fired = w.fired ++ [(j, t)]) :
    w'.firings = Function.update w.firings j (w.firings j ++ [t]) := by
  funext k
  unfold World.firings
  rw [h, List.filter_append, List.map_append]
  by_cases hk : k = j
  · subst hk
    simp
  · have hne : ¬ j = k := fun h => hk h.symm
    simp [hk, hne]

variable {ref t : ℕ} {cb : Callback} {loop : Loop Callback}

/-- **A timer that runs** is the next one of its job, and in time. -/
theorem Kept.due (hK : Kept F none s) (hfire : s.loop.fire ref = some (cb, loop)) :
    ∃ r, s.jobs[cb.job]? = some r ∧ Paced r (F cb.job ++ [s.loop.now]) := by
  obtain ⟨timer, hget, hdue, rfl, -⟩ := Loop.fire_eq_some hfire
  have hfits := hK.fits ref timer hget
  unfold Fits at hfits
  split at hfits
  · rename_i hcb
    obtain ⟨r, hr, -, hfirst, -, hnil⟩ := hfits
    rw [hcb]
    refine ⟨r, hr, (hK.paced _ r hr).snoc (fun _ => by omega) ?_⟩
    show ∀ u ∈ (F _).getLast?, _
    rw [hnil]
    exact fun u hu => nomatch hu
  · rename_i hcb
    obtain ⟨r, last, hr, -, hlast, hle⟩ := hfits
    rw [hcb]
    refine ⟨r, hr, (hK.paced _ r hr).snoc ?_ ?_⟩
    · intro hnil
      have hnone : F _ = [] := hnil
      rw [hnone] at hlast
      cases hlast
    · intro u hu
      have heq : u = last := Option.some.inj (hu.symm.trans hlast)
      omega

/-- The job whose first run the callback makes. -/
def Callback.begun : Callback → Option ℕ
  | .timeout job _ => some job
  | .runner _ => none

theorem Callback.begun_eq_some (h : cb.begun = some j) : cb.job = j := by
  cases cb with
  | timeout job interval => exact Option.some.inj h
  | runner job => cases h

/-- A timer with a period is the interval of a job. -/
theorem Fits.runner {jobs : List Registered} {timer : Timer Callback} {p : ℕ} (h : Fits jobs F timer)
    (hp : timer.period = some p) :
    ∃ r, timer.callback = .runner timer.callback.job ∧ jobs[timer.callback.job]? = some r ∧ p = r.period := by
  unfold Fits at h
  split at h
  · obtain ⟨r, -, hnone, -⟩ := h
    rw [hnone] at hp
    cases hp
  · rename_i hcb
    obtain ⟨r, last, hr, hperiod, -⟩ := h
    rw [hcb]
    exact ⟨r, rfl, hr, Option.some.inj (hp.symm.trans hperiod)⟩

/-- The state in which a callback starts. -/
theorem Kept.begins (hK : Kept F none s) (hfire : s.loop.fire ref = some (cb, loop)) :
    Kept (Function.update F cb.job (F cb.job ++ [s.loop.now])) cb.begun { s with loop := loop } := by
  obtain ⟨r, hr, hpaced⟩ := hK.due hfire
  have hlt : cb.job < s.jobs.length := (List.getElem?_eq_some_iff.1 hr).1
  obtain ⟨timer, hget, -, rfl, hnow, -⟩ := Loop.fire_eq_some hfire
  have hold : ∀ ref' timer', loop.timers.get ref' = some timer' → ∃ timer₀, s.loop.timers.get ref' = some timer₀ ∧
      timer₀.callback = timer'.callback := by
    intro ref' timer' hget'
    rcases Loop.get_fire hfire hget' with ⟨-, h⟩ | ⟨rfl, timer₀, p, h, -, -, rfl⟩
    · exact ⟨timer', h, rfl⟩
    · exact ⟨timer₀, h, rfl⟩
  -- a timer is either that of another job, or the interval of this one
  have hcases : ∀ ref' timer', loop.timers.get ref' = some timer' →
      s.loop.timers.get ref' = some timer' ∧ timer'.callback.job ≠ timer.callback.job ∨
        timer'.callback = .runner timer.callback.job ∧ timer.callback = .runner timer.callback.job ∧
          timer'.period = some r.period ∧ timer'.due = s.loop.now + r.period := by
    intro ref' timer' hget'
    rcases Loop.get_fire hfire hget' with ⟨href, h⟩ | ⟨rfl, timer₀, p, h, hcb, hp, rfl⟩
    · exact .inl ⟨h, fun hjob => href (hK.one ref' timer' ref timer h hget hjob)⟩
    · have hsame : timer₀ = timer := Option.some.inj (h.symm.trans hget)
      subst hsame
      obtain ⟨r', hrunner, hr', rfl⟩ := (hK.fits ref' timer₀ hget).runner hp
      have heq : r' = r := Option.some.inj (hr'.symm.trans hr)
      rw [← heq]
      exact .inr ⟨hrunner, hrunner, hp, rfl⟩
  refine ⟨?_, ?_, ?_, ?_, ?_, ?_, ?_, ?_⟩
  · intro ref' timer' hget'
    obtain ⟨timer₀, hget₀, -⟩ := hold ref' timer' hget'
    exact hK.listed ref' timer₀ hget₀
  · intro ref₁ timer₁ ref₂ timer₂ hget₁ hget₂ hjob
    obtain ⟨timer₁', hget₁', hcb₁⟩ := hold ref₁ timer₁ hget₁
    obtain ⟨timer₂', hget₂', hcb₂⟩ := hold ref₂ timer₂ hget₂
    exact hK.one ref₁ timer₁' ref₂ timer₂' hget₁' hget₂' (by rw [hcb₁, hcb₂, hjob])
  · intro ref' timer' hget'
    rcases hcases ref' timer' hget' with ⟨hget₀, hne⟩ | ⟨hcb, -, hperiod, hdue⟩
    · exact (hK.fits ref' timer' hget₀).mono (fun _ _ h => h) (Function.update_of_ne hne _ _)
    · unfold Fits
      rw [hcb]
      refine ⟨r, s.loop.now, hr, hperiod, ?_, hdue.ge⟩
      rw [Function.update_self, List.getLast?_append]
      rfl
  · intro ref' timer' hget' hbegun
    rcases hcases ref' timer' hget' with ⟨-, hne⟩ | ⟨-, hrunner, -⟩
    · exact hne (Callback.begun_eq_some hbegun).symm
    · rw [hrunner] at hbegun
      cases hbegun
  · intro k hk
    rw [← Callback.begun_eq_some hk]
    exact hlt
  · intro k hk
    have hne : k ≠ timer.callback.job := by
      rintro rfl
      exact absurd hlt (not_lt.2 hk)
    rw [Function.update_of_ne hne]
    exact hK.known k hk
  · intro k u hu
    show u ≤ loop.now
    rw [hnow]
    by_cases hk : k = timer.callback.job
    · subst hk
      rw [Function.update_self] at hu
      rcases List.mem_append.1 hu with hu | hu
      · exact hK.past _ u hu
      · exact le_of_eq (List.mem_singleton.1 hu)
    · rw [Function.update_of_ne hk] at hu
      exact hK.past k u hu
  · intro k r' hr'
    by_cases hk : k = timer.callback.job
    · subst hk
      rw [Function.update_self]
      have heq : r' = r := Option.some.inj (hr'.symm.trans hr)
      rw [heq]
      exact hpaced
    · rw [Function.update_of_ne hk]
      exact hK.paced k r' hr'

/-- **A callback** from its start to its end. -/
theorem Kept.callback (hK : Kept F none s) (hfire : s.loop.fire ref = some (cb, loop)) (inner : List Act) :
    Kept (Function.update F cb.job (F cb.job ++ [s.loop.now])) none
      (callback c inner { s with loop := loop } cb) := by
  have hbegins := hK.begins hfire
  cases cb with
  | runner job => exact hbegins.acts inner
  | timeout job interval =>
    obtain ⟨timer, hget, -, hcb, -⟩ := Loop.fire_eq_some hfire
    have hfits := hK.fits ref timer hget
    unfold Fits at hfits
    rw [hcb] at hfits
    obtain ⟨r, hr, -, -, rfl, -⟩ := hfits
    have hr' : (inner.foldl (InMemoryJobsScheduler.act c) { s with loop := loop }).jobs[job]? = some r :=
      acts_jobs inner hr
    have hlast : (Function.update F job (F job ++ [s.loop.now]) job).getLast? = some s.loop.now := by
      rw [Function.update_self, List.getLast?_append]
      rfl
    exact (hbegins.acts inner).interval hr' hlast

/-- A timer that is due runs its callback and may start a runner. -/
theorem step_fire {w : World} {inner : List Act} (jobConfig : Option JobConfig)
    (h : w.scheduler.loop.fire ref = some (cb, loop)) : step c w (.fire ref jobConfig inner) =
      ⟨callback c inner { w.scheduler with loop := loop } cb,
        jobMachine.step w.runners (.call w.fired.length jobConfig), w.fired ++ [(cb.job, loop.now)]⟩ := by
  unfold step
  dsimp only
  rw [h]

/-- A timer that is not due does not run. -/
theorem step_early {w : World} {inner : List Act} (jobConfig : Option JobConfig)
    (h : w.scheduler.loop.fire ref = none) : step c w (.fire ref jobConfig inner) = w := by
  unfold step
  dsimp only
  rw [h]

/-- **Every event** keeps it. -/
theorem Kept.step {w : World} (hK : Kept w.firings none w.scheduler) (e : Event) :
    Kept (step c w e).firings none (step c w e).scheduler := by
  cases e with
  | act a => exact hK.act a
  | step pid i => exact hK
  | fire ref jobConfig inner =>
    cases hfire : w.scheduler.loop.fire ref with
    | none =>
      rw [step_early jobConfig hfire]
      exact hK
    | some x =>
      obtain ⟨cb, loop⟩ := x
      obtain ⟨timer, -, -, -, hnow, -⟩ := Loop.fire_eq_some hfire
      have hcallback := hK.callback (c := c) hfire inner
      rw [← hnow] at hcallback
      rw [step_fire jobConfig hfire, firings_snoc rfl]
      exact hcallback

/-- **The invariant of every run.** -/
theorem kept_run (c : Config) (es : List Event) :
    Kept (run c .start es).firings none (run c .start es).scheduler := by
  have hstart : Kept World.start.firings none World.start.scheduler := by
    refine ⟨?_, ?_, ?_, ?_, ?_, fun _ _ => rfl, ?_, ?_⟩
    · exact fun ref timer hget => nomatch hget
    · exact fun ref timer _ _ hget => nomatch hget
    · exact fun ref timer hget => nomatch hget
    · exact fun ref timer hget => nomatch hget
    · exact fun j hj => nomatch hj
    · exact fun j t ht => nomatch ht
    · exact fun j r hr => nomatch hr
  induction es using List.reverseRecOn with
  | nil => exact hstart
  | append_singleton es e ih =>
    unfold run at ih ⊢
    rw [List.foldl_append]
    exact ih.step e

/-- **No job is fired too early or too often**, whatever else is registered, cleared and running: the first
run is not before the timeout is over, any two runs are at least one interval apart, and so many runs there
are at most. -/
theorem pace (c : Config) (es : List Event) {j : ℕ} {r : Registered}
    (hr : (run c .start es).scheduler.jobs[j]? = some r) :
    let w := run c .start es
    (∀ k t, (w.firings j)[k]? = some t → r.first + k * r.period ≤ t ∧ t ≤ w.scheduler.loop.now) ∧
      (w.firings j).IsChain (fun t t' => t + r.period ≤ t') ∧
      (w.firings j).length ≤ (w.scheduler.loop.now - r.first) / r.period + 1 := by
  intro w
  have hK := kept_run c es
  have hpaced := hK.paced j r hr
  refine ⟨fun k t hk => ⟨gap_of_chain hpaced.chain hpaced.first hk, ?_⟩, hpaced.chain, ?_⟩
  · exact hK.past j t (List.mem_of_getElem? hk)
  · exact length_of_chain (delayOf_pos _) hpaced.chain hpaced.first (hK.past j)

theorem epoch_lower : -maxTime ≤ 0 := by decide

theorem epoch_upper : 0 ≤ maxTime := by decide

def epoch : Time := ⟨0, epoch_lower, epoch_upper⟩

/-- A job that runs every second is registered twice; the first one is fired late. -/
def late : List Event :=
  let everySecond : Rhythm := ⟨.custom "every 1s", none, none⟩
  [.act (.register 0 epoch epoch everySecond), .act (.advance 400), .fire 0 none [.register 0 epoch epoch everySecond],
    .act (.advance 1500), .fire 2 none [], .fire 1 none [], .act (.advance 2000), .fire 2 none []]

theorem pace_late : ∃ r, (run ⟨false⟩ .start late).scheduler.jobs[0]? = some r ∧ r.first = 1 ∧ r.period = 1000 ∧
    (run ⟨false⟩ .start late).firings 0 = [400, 1500] ∧ ((run ⟨false⟩ .start late).firings 0).length ≤ (2000 - 1) / 1000 + 1 := by
  have hr : (run ⟨false⟩ .start late).scheduler.jobs[0]? = some _ := rfl
  exact ⟨_, hr, rfl, rfl, rfl, (pace ⟨false⟩ late hr).2.2⟩

/-! ## A prompt loop -/

/-- The time that passes. -/
def Act.advances : Act → Option ℕ
  | .advance t => some t
  | .register _ _ _ _ => none
  | .clearJobs => none

theorem Act.mem_advances {a : Act} {t : ℕ} : t ∈ a.advances ↔ a = .advance t := by
  cases a <;> simp [advances, eq_comm]

/-- Time does not pass a timer that is due, and callbacks take none. -/
def Prompt (w : World) : Event → Prop
  | .act (.advance t) => ∀ ref timer, w.scheduler.loop.timers.get ref = some timer → t ≤ timer.due
  | .act _ => True
  | .fire _ _ inner => ∀ t, Act.advance t ∉ inner
  | .step _ _ => True

/-- A run in which the loop is prompt. -/
def Promptly (c : Config) : World → List Event → Prop
  | _, [] => True
  | w, e :: es => Prompt w e ∧ Promptly c (step c w e) es

instance (w : World) (e : Event) : Decidable (Prompt w e) :=
  match e with
  | .act (.advance t) => decidable_of_iff (∀ x ∈ w.scheduler.loop.timers.entries, t ≤ x.2.due)
      ⟨fun h ref timer hget => h (ref, timer) (OMap.get_eq_some.1 hget),
        fun h x hx => h x.1 x.2 (OMap.get_eq_some.2 hx)⟩
  | .act (.register _ _ _ _) => isTrue trivial
  | .act .clearJobs => isTrue trivial
  | .fire _ _ inner => decidable_of_iff (∀ a ∈ inner, (∀ t ∈ a.advances, False))
      ⟨fun h t ht => h _ ht t rfl, fun h _ ha t ht => h t (Act.mem_advances.1 ht ▸ ha)⟩
  | .step _ _ => isTrue trivial

instance Promptly.decidable (c : Config) : ∀ (w : World) (es : List Event), Decidable (Promptly c w es)
  | _, [] => isTrue trivial
  | w, e :: es => @instDecidableAnd _ _ _ (decidable c (step c w e) es)

/-- **What a prompt loop keeps**: the jobs are fired when they are due. -/
structure Exact (F : ℕ → List ℕ) (s : Scheduler) : Prop where
  ahead : ∀ ref timer, s.loop.timers.get ref = some timer → s.loop.now ≤ timer.due
  times : ∀ j r, s.jobs[j]? = some r → F j = (List.range (F j).length).map fun k => r.first + k * r.period
  due : ∀ ref timer r, s.loop.timers.get ref = some timer → s.jobs[timer.callback.job]? = some r →
    timer.due = r.first + (F timer.callback.job).length * r.period

theorem Exact.register (hE : Exact F s) (hK : Kept F busy s) (zone : ℤ) (today now : Time) (rhythm : Rhythm) :
    Exact F (register c zone today now rhythm s) := by
  unfold InMemoryJobsScheduler.register
  cases JobsScheduler.register c zone today now rhythm with
  | none => exact hE
  | some timers =>
    have hnew : F s.jobs.length = [] := hK.known _ le_rfl
    refine ⟨?_, ?_, ?_⟩
    · intro ref timer hget
      rcases Loop.get_set hget with ⟨rfl, rfl⟩ | ⟨-, hold⟩
      · exact Nat.le_add_right _ _
      · exact hE.ahead ref timer hold
    · intro j r hr
      by_cases hlt : j < s.jobs.length
      · rw [List.getElem?_append_left hlt] at hr
        exact hE.times j r hr
      · rw [hK.known j (by omega)]
        rfl
    · intro ref timer r hget hr
      rcases Loop.get_set hget with ⟨rfl, rfl⟩ | ⟨-, hold⟩
      · have heq : r = ⟨s.loop.now, timers⟩ := by simpa [Callback.job] using hr.symm
        subst heq
        show s.loop.now + delayOf timers.executeAfter = _ + (F s.jobs.length).length * _
        rw [hnew, List.length_nil, Nat.zero_mul]
        rfl
      · have hlt := (hK.fits ref timer hold).lt
        rw [List.getElem?_append_left hlt] at hr
        exact hE.due ref timer r hold hr

/-- An act keeps the instants exact, unless it passes over a timer that is due. -/
theorem Exact.act (hE : Exact F s) (hK : Kept F busy s) (a : Act)
    (hprompt : ∀ t, a = .advance t → ∀ ref timer, s.loop.timers.get ref = some timer → t ≤ timer.due) :
    Exact F (act c s a) := by
  cases a with
  | register zone today now rhythm => exact hE.register hK zone today now rhythm
  | clearJobs =>
    have hnone : ∀ ref timer, (clearJobs s).loop.timers.get ref ≠ some timer := by
      intro ref timer hget
      rw [hK.cleared ref] at hget
      cases hget
    refine ⟨?_, hE.times, ?_⟩
    · exact fun ref timer hget => absurd hget (hnone ref timer)
    · exact fun ref timer r hget => absurd hget (hnone ref timer)
  | advance t =>
    refine ⟨?_, hE.times, hE.due⟩
    intro ref timer hget
    exact max_le (hE.ahead ref timer hget) (hprompt t rfl ref timer hget)

theorem act_now {a : Act} (h : ∀ t, a ≠ .advance t) : (act c s a).loop.now = s.loop.now := by
  cases a with
  | register zone today now rhythm =>
    show (register c zone today now rhythm s).loop.now = _
    unfold register
    cases JobsScheduler.register c zone today now rhythm <;> rfl
  | clearJobs =>
    show ((s.loop.clearAll s.jobsIntervals).clearAll s.jobsTimeouts).now = _
    rw [Loop.now_clearAll, Loop.now_clearAll]
  | advance t => exact absurd rfl (h t)

/-- What the callback does takes no time. -/
theorem Exact.acts {inner : List Act} (hE : Exact F s) (hK : Kept F busy s) (hinner : ∀ t, Act.advance t ∉ inner) :
    Exact F (inner.foldl (InMemoryJobsScheduler.act c) s) ∧
      (inner.foldl (InMemoryJobsScheduler.act c) s).loop.now = s.loop.now := by
  induction inner generalizing s with
  | nil => exact ⟨hE, rfl⟩
  | cons a inner ih =>
    have ha : ∀ t, a ≠ .advance t := by
      rintro t rfl
      exact hinner t (List.mem_cons_self ..)
    have hstep := hE.act (c := c) hK a fun t ht => absurd ht (ha t)
    obtain ⟨hrest, hnow⟩ := ih hstep (hK.act a) fun t ht => hinner t (List.mem_cons_of_mem _ ht)
    exact ⟨hrest, hnow.trans (act_now ha)⟩

/-- A timer that runs is due now. -/
theorem Exact.fires {r : Registered} (hE : Exact F s) (hfire : s.loop.fire ref = some (cb, loop))
    (hr : s.jobs[cb.job]? = some r) : s.loop.now = r.first + (F cb.job).length * r.period := by
  obtain ⟨timer, hget, hdue, rfl, -⟩ := Loop.fire_eq_some hfire
  rw [← hE.due ref timer r hget hr]
  exact le_antisymm (hE.ahead ref timer hget) hdue

/-- A firing at the instant it is due. -/
theorem Exact.begins (hE : Exact F s) (hK : Kept F none s) (hfire : s.loop.fire ref = some (cb, loop)) :
    Exact (Function.update F cb.job (F cb.job ++ [s.loop.now])) { s with loop := loop } := by
  obtain ⟨r, hr, -⟩ := hK.due hfire
  have hnow := hE.fires hfire hr
  obtain ⟨timer, hget, -, rfl, hsame, -⟩ := Loop.fire_eq_some hfire
  refine ⟨?_, ?_, ?_⟩
  · intro ref' timer' hget'
    show loop.now ≤ _
    rw [hsame]
    rcases Loop.get_fire hfire hget' with ⟨-, h⟩ | ⟨-, timer₀, p, -, -, -, rfl⟩
    · exact hE.ahead ref' timer' h
    · exact Nat.le_add_right _ _
  · intro k r' hr'
    by_cases hk : k = timer.callback.job
    · subst hk
      have heq : r' = r := Option.some.inj (hr'.symm.trans hr)
      subst heq
      rw [Function.update_self, List.length_append, List.length_singleton, List.range_succ, List.map_append,
        ← hE.times _ r' hr, hnow]
      rfl
    · rw [Function.update_of_ne hk]
      exact hE.times k r' hr'
  · intro ref' timer' r' hget' hr'
    rcases Loop.get_fire hfire hget' with ⟨href, h⟩ | ⟨rfl, timer₀, p, h, hcb, hp, rfl⟩
    · have hne : timer'.callback.job ≠ timer.callback.job := fun hjob => href (hK.one ref' timer' ref timer h hget hjob)
      rw [Function.update_of_ne hne]
      exact hE.due ref' timer' r' h hr'
    · have heq : timer₀ = timer := Option.some.inj (h.symm.trans hget)
      subst heq
      obtain ⟨r₁, -, hr₁, rfl⟩ := (hK.fits ref' timer₀ hget).runner hp
      have heq : r' = r := Option.some.inj (hr'.symm.trans hr)
      have heq₁ : r₁ = r := Option.some.inj (hr₁.symm.trans hr)
      subst heq heq₁
      show s.loop.now + r₁.period = _
      rw [Function.update_self, List.length_append, List.length_singleton, Nat.succ_mul, hnow]
      omega

theorem Exact.callback (hE : Exact F s) (hK : Kept F none s) (hfire : s.loop.fire ref = some (cb, loop))
    {inner : List Act} (hinner : ∀ t, Act.advance t ∉ inner) :
    Exact (Function.update F cb.job (F cb.job ++ [s.loop.now]))
      (callback c inner { s with loop := loop } cb) := by
  have hbegins := hE.begins hK hfire
  have hkept := hK.begins hfire
  obtain ⟨hE', hnow⟩ := hbegins.acts (c := c) hkept hinner
  cases cb with
  | runner job => exact hE'
  | timeout job interval =>
    obtain ⟨timer, hget, -, hcb, hsame, -⟩ := Loop.fire_eq_some hfire
    have hfits := hK.fits ref timer hget
    unfold Fits at hfits
    rw [hcb] at hfits
    obtain ⟨r, hr, -, -, rfl, hnil⟩ := hfits
    have hr' : (inner.foldl (InMemoryJobsScheduler.act c) { s with loop := loop }).jobs[job]? = some r :=
      acts_jobs inner hr
    have hstart := hE.fires hfire hr
    have hnil' : F (Callback.timeout job r.timers.interval).job = [] := hnil
    rw [hnil', List.length_nil, Nat.zero_mul] at hstart
    have hnow' : (inner.foldl (InMemoryJobsScheduler.act c) { s with loop := loop }).loop.now = r.first :=
      (hnow.trans hsame).trans hstart
    refine ⟨?_, hE'.times, ?_⟩
    · intro ref' timer' hget'
      rcases Loop.get_set hget' with ⟨-, rfl⟩ | ⟨-, hold⟩
      · exact Nat.le_add_right _ _
      · exact hE'.ahead ref' timer' hold
    · intro ref' timer' r₁ hget' hr₁
      rcases Loop.get_set hget' with ⟨-, rfl⟩ | ⟨-, hold⟩
      · have heq : r₁ = r := Option.some.inj (hr₁.symm.trans hr')
        subst heq
        show (inner.foldl (InMemoryJobsScheduler.act c) { s with loop := loop }).loop.now + r₁.period =
          r₁.first + (Function.update F job (F job ++ [s.loop.now]) job).length * r₁.period
        rw [hnow', Function.update_self, List.length_append, hnil]
        simp
      · exact hE'.due ref' timer' r₁ hold hr₁

/-- An event of a prompt run. -/
theorem Exact.step {w : World} (hE : Exact w.firings w.scheduler) (hK : Kept w.firings none w.scheduler) {e : Event}
    (he : Prompt w e) : Exact (step c w e).firings (step c w e).scheduler := by
  cases e with
  | act a =>
    refine hE.act hK a ?_
    rintro t rfl
    exact he
  | step pid i => exact hE
  | fire ref jobConfig inner =>
    cases hfire : w.scheduler.loop.fire ref with
    | none =>
      rw [step_early jobConfig hfire]
      exact hE
    | some x =>
      obtain ⟨cb, loop⟩ := x
      obtain ⟨timer, -, -, -, hnow, -⟩ := Loop.fire_eq_some hfire
      have hcallback := hE.callback (c := c) hK hfire he
      rw [← hnow] at hcallback
      rw [step_fire jobConfig hfire, firings_snoc rfl]
      exact hcallback

/-! ## No job is left out -/

/-- Nothing is cleared. -/
def Event.Clears : Event → Prop
  | .act a => a = .clearJobs
  | .fire _ _ inner => .clearJobs ∈ inner
  | .step _ _ => False

/-- Every job but `busy` has a timer. -/
def Timed (busy : Option ℕ) (s : Scheduler) : Prop :=
  ∀ j < s.jobs.length, busy = some j ∨ ∃ ref timer, s.loop.timers.get ref = some timer ∧ timer.callback.job = j

/-- An act other than `clearJobs` leaves every job its timer. -/
theorem Timed.act (hT : Timed busy s) {a : Act} (ha : a ≠ .clearJobs) : Timed busy (act c s a) := by
  cases a with
  | clearJobs => exact absurd rfl ha
  | advance t => exact hT
  | register zone today now rhythm =>
    show Timed busy (register c zone today now rhythm s)
    unfold register
    cases JobsScheduler.register c zone today now rhythm with
    | none => exact hT
    | some timers =>
      intro j hj
      rw [List.length_append, List.length_singleton] at hj
      by_cases hlt : j < s.jobs.length
      · rcases hT j hlt with hbusy | ⟨ref, timer, hget, hjob⟩
        · exact .inl hbusy
        · exact .inr ⟨ref, timer, Loop.get_set_old hget, hjob⟩
      · have heq : s.jobs.length = j := by omega
        exact .inr ⟨s.loop.refs, _, OMap.get_set_self _ _ _, heq⟩

theorem Timed.acts {inner : List Act} (hT : Timed busy s) (hinner : Act.clearJobs ∉ inner) :
    Timed busy (inner.foldl (InMemoryJobsScheduler.act c) s) := by
  induction inner generalizing s with
  | nil => exact hT
  | cons a inner ih =>
    have ha : a ≠ .clearJobs := by
      rintro rfl
      exact hinner (List.mem_cons_self ..)
    exact ih (hT.act ha) fun h => hinner (List.mem_cons_of_mem _ h)

theorem Timed.callback (hT : Timed none s) (hK : Kept F none s) (hfire : s.loop.fire ref = some (cb, loop))
    {inner : List Act} (hinner : Act.clearJobs ∉ inner) :
    Timed none (callback c inner { s with loop := loop } cb) := by
  obtain ⟨timer, hget, -, rfl, -, -, hother, hself⟩ := Loop.fire_eq_some hfire
  have hfits := hK.fits ref timer hget
  -- the other timers stay, and so does an interval
  have hbegins : Timed timer.callback.begun { s with loop := loop } := by
    intro j hj
    rcases hT j hj with hbusy | ⟨ref', timer', hget', hjob⟩
    · cases hbusy
    · by_cases href : ref' = ref
      · subst href
        have heq : timer' = timer := Option.some.inj (hget'.symm.trans hget)
        subst heq
        unfold Fits at hfits
        split at hfits
        · rename_i hcb
          rw [hcb] at hjob ⊢
          exact .inl (congrArg some hjob)
        · obtain ⟨r, last, -, hperiod, -⟩ := hfits
          rw [hperiod] at hself
          exact .inr ⟨ref', _, hself, hjob⟩
      · exact .inr ⟨ref', timer', (hother ref' href).trans hget', hjob⟩
  have hacts := hbegins.acts (c := c) hinner
  cases hcb : timer.callback with
  | runner job =>
    rw [hcb] at hacts
    exact hacts
  | timeout job interval =>
    rw [hcb] at hacts
    intro j hj
    rcases hacts j hj with hbusy | ⟨ref', timer', hget', hjob⟩
    · exact .inr ⟨_, _, OMap.get_set_self _ _ _, Option.some.inj hbusy⟩
    · exact .inr ⟨ref', timer', Loop.get_set_old hget', hjob⟩

/-- An event that clears nothing. -/
theorem Timed.step {w : World} (hT : Timed none w.scheduler) (hK : Kept w.firings none w.scheduler) {e : Event}
    (he : ¬ e.Clears) : Timed none (step c w e).scheduler := by
  cases e with
  | act a => exact hT.act he
  | step pid i => exact hT
  | fire ref jobConfig inner =>
    cases hfire : w.scheduler.loop.fire ref with
    | none =>
      rw [step_early jobConfig hfire]
      exact hT
    | some x =>
      obtain ⟨cb, loop⟩ := x
      rw [step_fire jobConfig hfire]
      exact hT.callback hK hfire he

/-- A prompt run fires at the exact instants. -/
theorem run_prompt {w : World} {es : List Event} (hK : Kept w.firings none w.scheduler)
    (hE : Exact w.firings w.scheduler) (hes : Promptly c w es) :
    Exact (run c w es).firings (run c w es).scheduler := by
  induction es generalizing w with
  | nil => exact hE
  | cons e es ih => exact ih (hK.step e) (hE.step hK hes.1) hes.2

/-- A run that clears nothing keeps every job timed. -/
theorem run_timed {w : World} {es : List Event} (hK : Kept w.firings none w.scheduler) (hT : Timed none w.scheduler)
    (hes : ∀ e ∈ es, ¬ e.Clears) : Timed none (run c w es).scheduler := by
  induction es generalizing w with
  | nil => exact hT
  | cons e es ih =>
    have hstep := hT.step (c := c) hK (hes e (List.mem_cons_self ..))
    exact ih (hK.step e) hstep fun e' he' => hes e' (List.mem_cons_of_mem _ he')

/-- **A prompt loop is punctual**: a job is fired at the end of its timeout and then once every interval, at
no other instant; and if nothing is cleared, none of the instants that have passed is left out. -/
theorem punctual (c : Config) {es : List Event} (hes : Promptly c .start es) {j : ℕ} {r : Registered}
    (hr : (run c .start es).scheduler.jobs[j]? = some r) :
    let w := run c .start es
    (∃ n, w.firings j = (List.range n).map fun k => r.first + k * r.period) ∧
      ((∀ e ∈ es, ¬ e.Clears) → ∀ k, r.first + k * r.period < w.scheduler.loop.now →
        r.first + k * r.period ∈ w.firings j) := by
  intro w
  have hK := kept_run c es
  have hstart := kept_run c []
  have hE : Exact w.firings w.scheduler := by
    refine run_prompt hstart ⟨?_, ?_, ?_⟩ hes
    · exact fun ref timer hget => nomatch hget
    · exact fun j r hr => nomatch hr
    · exact fun ref timer r hget => nomatch hget
  refine ⟨⟨_, hE.times j r hr⟩, fun hclear k hk => ?_⟩
  have hT : Timed none w.scheduler := run_timed hstart (fun j hj => nomatch hj) hclear
  rcases hT j (List.getElem?_eq_some_iff.1 hr).1 with hbusy | ⟨ref, timer, hget, rfl⟩
  · cases hbusy
  · -- the next firing is due no earlier than now
    have hahead := hE.ahead ref timer hget
    rw [hE.due ref timer r hget hr] at hahead
    have hlt : k < (w.firings timer.callback.job).length := by
      by_contra hge
      have hmul := Nat.mul_le_mul_right r.period (not_lt.1 hge)
      omega
    rw [hE.times _ r hr]
    exact List.mem_map.2 ⟨k, List.mem_range.2 hlt, rfl⟩

/-- A job that runs every second, in time. -/
def prompt : List Event :=
  [.act (.register 0 epoch epoch ⟨.custom "every 1s", none, none⟩), .act (.advance 1), .fire 0 none [],
    .act (.advance 1001), .fire 1 none [], .act (.advance 1500)]

theorem punctual_prompt :
    (∃ n, (run ⟨false⟩ .start prompt).firings 0 = (List.range n).map fun k => 1 + k * 1000) ∧
      1 + 1 * 1000 ∈ (run ⟨false⟩ .start prompt).firings 0 := by
  have hr : (run ⟨false⟩ .start prompt).scheduler.jobs[0]? = some _ := rfl
  have hprompt : Promptly ⟨false⟩ .start prompt := by decide +kernel
  have hclear : ∀ e ∈ prompt, ¬ e.Clears := by simp [prompt, Event.Clears]
  exact ⟨(punctual ⟨false⟩ hprompt hr).1, (punctual ⟨false⟩ hprompt hr).2 hclear 1 (by decide)⟩

/-! ## Silence -/

/-- The job is registered and has no timer. -/
def Muted (j : ℕ) (s : Scheduler) : Prop :=
  j < s.jobs.length ∧ ∀ ref timer, s.loop.timers.get ref = some timer → timer.callback.job ≠ j

/-- A job without a timer gets none. -/
theorem Muted.act (hM : Muted j s) (a : Act) : Muted j (act c s a) := by
  cases a with
  | advance t => exact hM
  | clearJobs =>
    refine ⟨hM.1, fun ref timer hget => ?_⟩
    have hclear : (clearJobs s).loop.timers.get ref = some timer := hget
    rw [get_clearJobs] at hclear
    split at hclear
    · cases hclear
    · split at hclear
      · cases hclear
      · exact hM.2 ref timer hclear
  | register zone today now rhythm =>
    show Muted j (register c zone today now rhythm s)
    unfold register
    cases JobsScheduler.register c zone today now rhythm with
    | none => exact hM
    | some timers =>
      refine ⟨?_, fun ref timer hget => ?_⟩
      · rw [List.length_append]
        exact hM.1.trans_le (Nat.le_add_right _ _)
      · rcases Loop.get_set hget with ⟨-, rfl⟩ | ⟨-, hold⟩
        · exact ne_of_gt hM.1
        · exact hM.2 ref timer hold

theorem Muted.acts (hM : Muted j s) (inner : List Act) :
    Muted j (inner.foldl (InMemoryJobsScheduler.act c) s) := by
  induction inner generalizing s with
  | nil => exact hM
  | cons a inner ih => exact ih (hM.act a)

/-- The timer of another job runs. -/
theorem Muted.callback (hM : Muted j s) (hfire : s.loop.fire ref = some (cb, loop)) (inner : List Act) :
    cb.job ≠ j ∧ Muted j (callback c inner { s with loop := loop } cb) := by
  have hbegins : Muted j { s with loop := loop } := by
    refine ⟨hM.1, fun ref' timer' hget' => ?_⟩
    rcases Loop.get_fire hfire hget' with ⟨-, h⟩ | ⟨rfl, timer, p, h, -, -, rfl⟩
    · exact hM.2 ref' timer' h
    · exact hM.2 ref' timer h
  obtain ⟨timer, hget, -, rfl, -⟩ := Loop.fire_eq_some hfire
  have hne := hM.2 ref timer hget
  have hacts := hbegins.acts (c := c) inner
  refine ⟨hne, ?_⟩
  cases hcb : timer.callback with
  | runner job => exact hacts
  | timeout job interval =>
    rw [hcb] at hne
    refine ⟨hacts.1, fun ref' timer' hget' => ?_⟩
    rcases Loop.get_set hget' with ⟨-, rfl⟩ | ⟨-, hold⟩
    · exact hne
    · exact hacts.2 ref' timer' hold

/-- An event fires no muted job, and leaves it muted. -/
theorem Muted.step {w : World} (hM : Muted j w.scheduler) (e : Event) :
    (step c w e).firings j = w.firings j ∧ Muted j (step c w e).scheduler := by
  cases e with
  | act a => exact ⟨rfl, hM.act a⟩
  | step pid i => exact ⟨rfl, hM⟩
  | fire ref jobConfig inner =>
    cases hfire : w.scheduler.loop.fire ref with
    | none =>
      rw [step_early jobConfig hfire]
      exact ⟨rfl, hM⟩
    | some x =>
      obtain ⟨cb, loop⟩ := x
      obtain ⟨hne, hcallback⟩ := hM.callback (c := c) hfire inner
      rw [step_fire jobConfig hfire, firings_snoc rfl, Function.update_of_ne hne.symm]
      exact ⟨rfl, hcallback⟩

/-- **A muted job** is never fired again. -/
theorem Muted.run {w : World} (hM : Muted j w.scheduler) (es : List Event) :
    (run c w es).firings j = w.firings j := by
  induction es generalizing w with
  | nil => rfl
  | cons e es ih =>
    obtain ⟨hsame, hstep⟩ := hM.step (c := c) e
    exact (ih hstep).trans hsame

/-- `clearJobs` leaves no timer of a job. -/
theorem Kept.muted (hK : Kept F busy s) (hj : j < s.jobs.length) : Muted j (InMemoryJobsScheduler.clearJobs s) := by
  refine ⟨hj, fun ref timer hget => ?_⟩
  rw [hK.cleared ref] at hget
  cases hget

/-- A job that calls `clearJobs` mutes all that are registered. -/
theorem Kept.muted_acts {inner : List Act} (hK : Kept F busy s) (hj : j < s.jobs.length)
    (hinner : Act.clearJobs ∈ inner) : Muted j (inner.foldl (InMemoryJobsScheduler.act c) s) := by
  obtain ⟨before, after, rfl⟩ := List.append_of_mem hinner
  rw [List.foldl_append, List.foldl_cons]
  have hbefore := hK.acts (c := c) before
  have hlt : j < (before.foldl (InMemoryJobsScheduler.act c) s).jobs.length :=
    (List.getElem?_eq_some_iff.1 (acts_jobs before (List.getElem?_eq_getElem hj))).1
  exact (hbefore.muted hlt).acts after

/-- The event calls `clearJobs`. -/
def Clearing (w : World) : Event → Prop
  | .act a => a = .clearJobs
  | .fire ref _ inner => .clearJobs ∈ inner ∧ (w.scheduler.loop.fire ref).isSome
  | .step _ _ => False

/-- The event is the first run of the job. -/
def FirstRun (w : World) (e : Event) (j : ℕ) : Prop :=
  ∃ ref jobConfig inner interval loop, e = .fire ref jobConfig inner ∧
    w.scheduler.loop.fire ref = some (.timeout j interval, loop)

/-- A timer that is set will run if it is let. -/
theorem fires_again {w : World} {timer : Timer Callback} (hget : w.scheduler.loop.timers.get ref = some timer) :
    ∃ es', (run c w es').firings timer.callback.job ≠ w.firings timer.callback.job := by
  refine ⟨[.act (.advance timer.due), .fire ref none []], ?_⟩
  have hget' : (w.scheduler.loop.advance timer.due).timers.get ref = some timer := hget
  obtain ⟨loop, hfire⟩ := Loop.fire_of_due hget' (le_max_right _ _)
  have hstep : step c (step c w (.act (.advance timer.due))) (.fire ref none []) = _ := step_fire none hfire
  show (step c (step c w (.act (.advance timer.due))) (.fire ref none [])).firings _ ≠ _
  rw [hstep, firings_snoc rfl, Function.update_self]
  intro h
  have hlen := congrArg List.length h
  rw [List.length_append] at hlen
  have hsame : (step c w (.act (.advance timer.due))).firings timer.callback.job = w.firings timer.callback.job :=
    rfl
  rw [hsame, List.length_singleton] at hlen
  omega

/-- **Silence**: after `clearJobs`, called from anywhere, a job that was registered can be fired again exactly
if the call was made in its first run. Its interval is set when this run has returned, and nothing clears it. -/
theorem silence (c : Config) (es : List Event) {e : Event} {j : ℕ}
    (hj : j < (run c .start es).scheduler.jobs.length) (he : Clearing (run c .start es) e) :
    let w := run c .start (es ++ [e])
    (∃ es', (run c w es').firings j ≠ w.firings j) ↔ FirstRun (run c .start es) e j := by
  intro w
  have hw : w = step c (run c .start es) e := List.foldl_append ..
  have hK := kept_run c es
  rw [hw]
  constructor
  · rintro ⟨es', hfired⟩
    by_contra hnot
    refine hfired (Muted.run ?_ es')
    cases e with
    | act a =>
      have ha : a = .clearJobs := he
      subst ha
      exact hK.muted hj
    | step pid i => exact he.elim
    | fire ref jobConfig inner =>
      obtain ⟨x, hfire⟩ := Option.isSome_iff_exists.1 he.2
      obtain ⟨cb, loop⟩ := x
      rw [step_fire jobConfig hfire]
      have hmuted := (hK.begins hfire).muted_acts (c := c) hj he.1
      cases cb with
      | runner job => exact hmuted
      | timeout job interval =>
        have hne : job ≠ j := by
          rintro rfl
          exact hnot ⟨ref, jobConfig, inner, interval, loop, rfl, hfire⟩
        refine ⟨hmuted.1, fun ref' timer' hget' => ?_⟩
        rcases Loop.get_set hget' with ⟨-, rfl⟩ | ⟨-, hold⟩
        · exact hne
        · exact hmuted.2 ref' timer' hold
  · rintro ⟨ref, jobConfig, inner, interval, loop, rfl, hfire⟩
    have hset : (callback c inner { (run c .start es).scheduler with loop := loop }
        (.timeout j interval)).loop.timers.get _ = some _ := OMap.get_set_self _ _ _
    rw [step_fire jobConfig hfire]
    exact fires_again (w := ⟨callback c inner _ _, _, _⟩) hset

/-- A job that calls `clearJobs` in its first run, beside another one. -/
def clearing : List Event :=
  let everySecond : Rhythm := ⟨.custom "every 1s", none, none⟩
  [.act (.register 0 epoch epoch everySecond), .act (.register 0 epoch epoch everySecond), .act (.advance 1)]

theorem silence_clearing :
    (∃ es', (run ⟨false⟩ (run ⟨false⟩ .start (clearing ++ [.fire 0 none [.clearJobs]])) es').firings 0 ≠ [1]) ∧
      ∀ es', (run ⟨false⟩ (run ⟨false⟩ .start (clearing ++ [.fire 0 none [.clearJobs]])) es').firings 1 = [] := by
  have hclearing : Clearing (run ⟨false⟩ .start clearing) (.fire 0 none [.clearJobs]) := ⟨List.mem_singleton_self _, rfl⟩
  have hzero := silence ⟨false⟩ clearing (j := 0) (Nat.zero_lt_succ _) hclearing
  have hone := silence ⟨false⟩ clearing (j := 1) (Nat.one_lt_succ_succ _) hclearing
  refine ⟨hzero.2 ⟨0, none, _, _, _, rfl, rfl⟩, fun es' => ?_⟩
  by_contra hfired
  obtain ⟨ref, jobConfig, inner, interval, loop, he, hfire⟩ := hone.1 ⟨es', hfired⟩
  cases he
  cases hfire

/-! ## The load -/

/-- The process ids of the firings of a job. -/
def World.pids (w : World) (job : ℕ) : List ℕ := (w.fired.zipIdx.filter fun e => e.1.1 = job).map Prod.snd

/-- How often `job.run` has been called for a job, in all its firings. -/
def World.attempts (w : World) (job : ℕ) : ℕ :=
  ((w.pids job).map fun pid => (w.runners.procs.get pid).elim 0 fun p => (calls p.hist).length).sum

/-- A runner starts at each firing. -/
theorem length_pids (w : World) : (w.pids j).length = (w.firings j).length := by
  have hfst : w.fired.zipIdx.map Prod.fst = w.fired := List.zipIdx_map_fst 0 w.fired
  unfold World.pids World.firings
  conv_rhs => rw [← hfst]
  rw [List.filter_map, List.length_map, List.length_map, List.length_map]
  rfl

/-- A firing calls `job.run` once, and once more for each retry. -/
theorem calls_le {p : Firing} (h : Bounded p) : (calls p.hist).length ≤ 1 + configuredRetry p.call := by
  have hle := h.at_most (fun k => ((outcomes p.hist)[k]?).getD (.ok ())) fun k r hk => by rw [hk]; rfl
  exact_mod_cast hle.trans (min_le_right _ _)

/-- The runners are those of some run of their own. -/
theorem runners_run (es : List Event) : ∃ es', (run c .start es).runners = JobsScheduler.firings es' := by
  induction es using List.reverseRecOn with
  | nil => exact ⟨[], rfl⟩
  | append_singleton es e ih =>
    obtain ⟨es', hsame⟩ := ih
    have hstep : run c .start (es ++ [e]) = step c (run c .start es) e := List.foldl_append ..
    have hmore : ∀ e', jobMachine.step (run c .start es).runners e' = JobsScheduler.firings (es' ++ [e']) := by
      intro e'
      rw [hsame]
      exact (Machine.run_append _ _ es' [e']).symm
    rw [hstep]
    cases e with
    | act a => exact ⟨es', hsame⟩
    | step pid i => exact ⟨_, hmore (.step pid i)⟩
    | fire ref jobConfig inner =>
      cases hfire : (run c .start es).scheduler.loop.fire ref with
      | none =>
        rw [step_early jobConfig hfire]
        exact ⟨es', hsame⟩
      | some x =>
        obtain ⟨cb, loop⟩ := x
        rw [step_fire jobConfig hfire]
        exact ⟨_, hmore (.call _ jobConfig)⟩

/-- Every runner has a configuration that was returned. -/
theorem step_config {retry : ℕ} {w : Pool JobsScheduler.Resp Unit (Option JobConfig) (Except String Unit)}
    (hw : ∀ pid p, w.procs.get pid = some p → configuredRetry p.call ≤ retry) {e : Step}
    (he : ∀ pid jobConfig, e = .call pid jobConfig → configuredRetry jobConfig ≤ retry) :
    ∀ pid p, (jobMachine.step w e).procs.get pid = some p → configuredRetry p.call ≤ retry := by
  rcases jobMachine.step_cases w e with ⟨pid, x, rfl, -, hstep⟩ | ⟨pid, i, p, c, k, -, hp, -, hstep⟩ | ⟨v, -⟩ | hsame
  · rw [hstep]
    exact Machine.begin_all hw (he pid x rfl)
  · rw [hstep]
    exact Machine.advance_all hw (hw pid p hp)
  · exact v.elim
  · rw [hsame]
    exact hw

theorem runners_config {retry : ℕ} {es : List Event}
    (hes : ∀ ref jobConfig inner, .fire ref jobConfig inner ∈ es → configuredRetry jobConfig ≤ retry) :
    ∀ pid p, (run c .start es).runners.procs.get pid = some p → configuredRetry p.call ≤ retry := by
  induction es using List.reverseRecOn with
  | nil => exact fun pid p hp => nomatch hp
  | append_singleton es e ih =>
    have hold := ih fun ref jobConfig inner h => hes ref jobConfig inner (List.mem_append_left _ h)
    have hstep : run c .start (es ++ [e]) = step c (run c .start es) e := List.foldl_append ..
    rw [hstep]
    cases e with
    | act a => exact hold
    | step pid i => exact step_config hold fun pid jobConfig h => nomatch h
    | fire ref jobConfig inner =>
      cases hfire : (run c .start es).scheduler.loop.fire ref with
      | none =>
        rw [step_early jobConfig hfire]
        exact hold
      | some x =>
        obtain ⟨cb, loop⟩ := x
        rw [step_fire jobConfig hfire]
        refine step_config hold fun pid jobConfig' h => ?_
        cases h
        exact hes ref jobConfig inner (List.mem_append_right _ (List.mem_singleton_self _))

/-- **The load of a job**: however its runs end, `job.run` is called no more often than the attempts of so many
firings as the rhythm allows. -/
theorem load (c : Config) (es : List Event) {retry : ℕ}
    (hes : ∀ ref jobConfig inner, .fire ref jobConfig inner ∈ es → configuredRetry jobConfig ≤ retry) {j : ℕ}
    {r : Registered} (hr : (run c .start es).scheduler.jobs[j]? = some r) :
    let w := run c .start es
    w.attempts j ≤ ((w.scheduler.loop.now - r.first) / r.period + 1) * (1 + retry) := by
  intro w
  obtain ⟨es', hrunners⟩ := runners_run (c := c) es
  have hfew : ∀ n ∈ (w.pids j).map fun pid => (w.runners.procs.get pid).elim 0 fun p => (calls p.hist).length,
      n ≤ 1 + retry := by
    intro n hn
    obtain ⟨pid, -, rfl⟩ := List.mem_map.1 hn
    cases hp : w.runners.procs.get pid with
    | none => exact Nat.zero_le _
    | some p =>
      have hconfig := runners_config hes pid p hp
      have hp' : (JobsScheduler.firings es').procs.get pid = some p := hrunners ▸ hp
      have hcalls := calls_le (firing_bounded hp').1
      show (calls p.hist).length ≤ 1 + retry
      omega
  have hK := kept_run c es
  have hpaced := hK.paced j r hr
  have hlen := length_of_chain (delayOf_pos _) hpaced.chain hpaced.first (hK.past j)
  calc w.attempts j
      ≤ ((w.pids j).map fun pid => (w.runners.procs.get pid).elim 0 fun p => (calls p.hist).length).length * (1 + retry) :=
        List.sum_le_card_nsmul _ _ hfew
    _ = (w.firings j).length * (1 + retry) := by rw [List.length_map, length_pids]
    _ ≤ _ := Nat.mul_le_mul_right _ hlen

theorem load_late : (run ⟨false⟩ .start late).attempts 0 ≤ ((2000 - 1) / 1000 + 1) * (1 + 2) := by
  have hr : (run ⟨false⟩ .start late).scheduler.jobs[0]? = some _ := rfl
  refine load ⟨false⟩ late (fun ref jobConfig inner h => ?_) hr
  simp only [late, List.mem_cons, List.not_mem_nil, or_false, reduceCtorEq, false_or, Event.fire.injEq] at h
  rcases h with ⟨-, rfl, -⟩ | ⟨-, rfl, -⟩ | ⟨-, rfl, -⟩ | ⟨-, rfl, -⟩ <;> exact le_rfl

end NodeToolkit.InMemoryJobsScheduler
