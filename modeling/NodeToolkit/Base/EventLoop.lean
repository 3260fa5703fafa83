import Mathlib.Data.List.Chain
import NodeToolkit.Base.OMap

/-!
# Timers of an event loop

Timeouts and intervals with callbacks of any type. A timer never runs before it is due, but as late
as the loop likes; an interval is set again when it runs.

* `Loop.fire_eq_some`: what it takes to run a timer, and what this leaves.
* `gap_of_chain`, `length_of_chain`: instants with a least distance.
-/

namespace NodeToolkit.EventLoop

variable {κ : Type}

/-- An interval has a period, a timeout has none. -/
structure Timer (κ : Type) where
  callback : κ
  due : ℕ
  period : Option ℕ

/-- Every reference has been given: those from `refs` on are free. -/
def Given (timers : OMap ℕ (Timer κ)) (refs : ℕ) : Prop := ∀ ref timer, timers.get ref = some timer → ref < refs

/-- The timers that are set, by reference. References are given in order. -/
structure Loop (κ : Type) where
  now : ℕ
  timers : OMap ℕ (Timer κ)
  refs : ℕ
  fresh : Given timers refs

section Given

variable {timers : OMap ℕ (Timer κ)} {refs : ℕ}

theorem given_empty : Given (.empty : OMap ℕ (Timer κ)) refs := fun _ _ h => nomatch h

/-- A new timer gets the next number. -/
theorem Given.set (h : Given timers refs) (timer : Timer κ) : Given (timers.set refs timer) (refs + 1) := by
  intro ref timer' hget
  rw [OMap.get_set] at hget
  split at hget
  · omega
  · have hlt := h ref timer' hget
    omega

/-- Clearing a timer gives no number. -/
theorem Given.erase (h : Given timers refs) (ref : ℕ) : Given (timers.erase ref) refs := by
  intro ref' timer hget
  rw [OMap.get_erase] at hget
  split at hget
  · cases hget
  · exact h ref' timer hget

/-- A timer that is set again keeps its number. -/
theorem Given.reset (h : Given timers refs) {ref : ℕ} {timer : Timer κ} (hold : timers.get ref = some timer)
    (new : Timer κ) : Given (timers.set ref new) refs := by
  intro ref' timer' hget
  rw [OMap.get_set] at hget
  split at hget
  · rename_i href
    subst href
    exact h ref timer hold
  · exact h ref' timer' hget

end Given

namespace Loop

def start : Loop κ := ⟨0, .empty, 0, given_empty⟩

/-- `setTimeout` and `setInterval`; the new timer has the reference `refs`. -/
def set (l : Loop κ) (callback : κ) (delay : ℕ) (period : Option ℕ) : Loop κ :=
  ⟨l.now, l.timers.set l.refs ⟨callback, l.now + delay, period⟩, l.refs + 1, l.fresh.set _⟩

/-- `clearTimeout` and `clearInterval`. -/
def clear (l : Loop κ) (ref : ℕ) : Loop κ := ⟨l.now, l.timers.erase ref, l.refs, l.fresh.erase ref⟩

def clearAll (l : Loop κ) (refs : List ℕ) : Loop κ := refs.foldl clear l

def advance (l : Loop κ) (t : ℕ) : Loop κ := { l with now := max l.now t }

/-- An interval that runs is due again one period later. -/
def again (l : Loop κ) (ref : ℕ) (timer : Timer κ) (period : ℕ) (h : l.timers.get ref = some timer) : Loop κ :=
  ⟨l.now, l.timers.set ref { timer with due := l.now + period }, l.refs, l.fresh.reset h _⟩

/-- Run a timer that is due: its callback, and the loop that the callback starts with. -/
def fire (l : Loop κ) (ref : ℕ) : Option (κ × Loop κ) :=
  match h : l.timers.get ref with
  | none => none
  | some timer =>
    if timer.due ≤ l.now then
      match timer.period with
      | none => some (timer.callback, l.clear ref)
      | some period => some (timer.callback, l.again ref timer period h)
    else none

variable {l : Loop κ} {ref : ℕ} {callback : κ} {delay t : ℕ} {period : Option ℕ}

@[simp] theorem now_set : (l.set callback delay period).now = l.now := rfl
@[simp] theorem refs_set : (l.set callback delay period).refs = l.refs + 1 := rfl
@[simp] theorem now_clear : (l.clear ref).now = l.now := rfl
@[simp] theorem refs_clear : (l.clear ref).refs = l.refs := rfl
@[simp] theorem timers_advance : (l.advance t).timers = l.timers := rfl
@[simp] theorem now_advance : (l.advance t).now = max l.now t := rfl

/-- A timer after one has been set: the new one, or one that was there. -/
theorem get_set {timer : Timer κ} {ref' : ℕ} (h : (l.set callback delay period).timers.get ref' = some timer) :
    ref' = l.refs ∧ timer = ⟨callback, l.now + delay, period⟩ ∨ ref' ≠ l.refs ∧ l.timers.get ref' = some timer := by
  have hset : (l.timers.set l.refs ⟨callback, l.now + delay, period⟩).get ref' = some timer := h
  rw [OMap.get_set] at hset
  split at hset
  · rename_i href
    cases hset
    exact .inl ⟨href.symm, rfl⟩
  · rename_i href
    exact .inr ⟨Ne.symm href, hset⟩

/-- Setting a timer leaves the others. -/
theorem get_set_old {timer : Timer κ} (h : l.timers.get ref = some timer) :
    (l.set callback delay period).timers.get ref = some timer := by
  have hlt := l.fresh ref timer h
  show (l.timers.set l.refs _).get ref = some timer
  rw [OMap.get_set_ne _ _ (by omega), h]

/-- Clearing removes the timers that are named, and no other. -/
theorem get_clearAll (refs : List ℕ) : (l.clearAll refs).timers.get ref =
    if ref ∈ refs then none else l.timers.get ref := by
  induction refs generalizing l with
  | nil => rfl
  | cons ref' refs ih =>
    have hstep : (l.clear ref').timers.get ref = if ref' = ref then none else l.timers.get ref :=
      OMap.get_erase _
    show ((l.clear ref').clearAll refs).timers.get ref = _
    rw [ih, hstep]
    by_cases hmem : ref ∈ refs
    · rw [if_pos hmem, if_pos (List.mem_cons_of_mem _ hmem)]
    · rw [if_neg hmem]
      by_cases href : ref' = ref
      · rw [if_pos href, if_pos (by rw [href]; exact List.mem_cons_self ..)]
      · have hnot : ref ∉ ref' :: refs := by
          intro h
          rcases List.mem_cons.1 h with h | h
          · exact href h.symm
          · exact hmem h
        rw [if_neg href, if_neg hnot]

@[simp] theorem now_clearAll (refs : List ℕ) : (l.clearAll refs).now = l.now := by
  induction refs generalizing l with
  | nil => rfl
  | cons ref' refs ih => exact (ih : ((l.clear ref').clearAll refs).now = _)

/-- **A timer that runs** is set and due. It leaves the other timers alone; a timeout is over, and an interval
is due again one period later. -/
theorem fire_eq_some {l' : Loop κ} (h : l.fire ref = some (callback, l')) :
    ∃ timer, l.timers.get ref = some timer ∧ timer.due ≤ l.now ∧ timer.callback = callback ∧ l'.now = l.now ∧
      l'.refs = l.refs ∧ (∀ ref', ref' ≠ ref → l'.timers.get ref' = l.timers.get ref') ∧
      l'.timers.get ref = timer.period.map fun p => { timer with due := l.now + p } := by
  unfold fire at h
  split at h
  · cases h
  · rename_i timer hget
    refine ⟨timer, hget, ?_⟩
    split at h
    · rename_i hdue
      split at h
      · rename_i hperiod
        cases h
        have hother : ∀ ref', ref' ≠ ref → (l.timers.erase ref).get ref' = l.timers.get ref' := by
          intro ref' href
          rw [OMap.get_erase, if_neg href.symm]
        have hself : (l.timers.erase ref).get ref = none := by rw [OMap.get_erase, if_pos rfl]
        rw [hperiod]
        exact ⟨hdue, rfl, rfl, rfl, hother, hself⟩
      · rename_i p hperiod
        cases h
        have hother : ∀ ref', ref' ≠ ref →
            (l.timers.set ref { timer with due := l.now + p }).get ref' = l.timers.get ref' :=
          fun ref' href => OMap.get_set_ne _ _ href.symm
        have hself : (l.timers.set ref { timer with due := l.now + p }).get ref =
            timer.period.map fun p => { timer with due := l.now + p } :=
          (OMap.get_set_self _ _ _).trans
            (congrArg (Option.map fun p => ({ timer with due := l.now + p } : Timer κ)) hperiod).symm
        exact ⟨hdue, rfl, rfl, rfl, hother, hself⟩
    · cases h

/-- A timer that is due can run. -/
theorem fire_of_due {timer : Timer κ} (hget : l.timers.get ref = some timer) (hdue : timer.due ≤ l.now) :
    ∃ l', l.fire ref = some (timer.callback, l') := by
  unfold fire
  split
  · rename_i hnone
    rw [hget] at hnone
    cases hnone
  · rename_i timer' hget'
    have heq : timer' = timer := Option.some.inj (hget'.symm.trans hget)
    subst heq
    rw [if_pos hdue]
    split
    · exact ⟨_, rfl⟩
    · exact ⟨_, rfl⟩

/-- A timer after one has run: another one, or the interval that has run. -/
theorem get_fire {l' : Loop κ} {ref' : ℕ} {timer' : Timer κ} (hfire : l.fire ref = some (callback, l'))
    (h : l'.timers.get ref' = some timer') : ref' ≠ ref ∧ l.timers.get ref' = some timer' ∨
      ref' = ref ∧ ∃ timer p, l.timers.get ref = some timer ∧ timer.callback = callback ∧ timer.period = some p ∧
        timer' = { timer with due := l.now + p } := by
  obtain ⟨timer, hget, -, hcb, -, -, hother, hself⟩ := fire_eq_some hfire
  by_cases href : ref' = ref
  · subst href
    rw [hself] at h
    obtain ⟨p, hp, heq⟩ := Option.map_eq_some_iff.1 h
    exact .inr ⟨rfl, timer, p, hget, hcb, hp, heq.symm⟩
  · rw [hother ref' href] at h
    exact .inl ⟨href, h⟩

end Loop

/-! ## Instants with a least distance -/

section Gaps

variable {p : ℕ} {ts : List ℕ}

/-- **The `k`-th instant** of those with a least distance `p` comes `k * p` after the start at the earliest. -/
theorem gap_of_chain {a : ℕ} (hchain : ts.IsChain fun a b => a + p ≤ b) (hfirst : ∀ t ∈ ts.head?, a ≤ t) :
    ∀ {k t : ℕ}, ts[k]? = some t → a + k * p ≤ t := by
  induction ts generalizing a with
  | nil => exact fun h => nomatch h
  | cons s ts ih =>
    intro k t hk
    cases k with
    | zero =>
      have hle := hfirst s rfl
      have heq : s = t := Option.some.inj hk
      omega
    | succ k =>
      rw [List.isChain_cons] at hchain
      have hrest := ih hchain.2 hchain.1 hk
      have hle := hfirst s rfl
      rw [Nat.succ_mul]
      omega

/-- At least `p` apart from `a` on, and none after `now`. -/
theorem length_of_chain {a now : ℕ} (hp : 0 < p) (hchain : ts.IsChain fun a b => a + p ≤ b)
    (hfirst : ∀ t ∈ ts.head?, a ≤ t) (hlast : ∀ t ∈ ts, t ≤ now) : ts.length ≤ (now - a) / p + 1 := by
  rcases Nat.eq_zero_or_pos ts.length with hzero | hpos
  · rw [hzero]
    exact Nat.zero_le _
  · have hlt : ts.length - 1 < ts.length := by omega
    have hgap := gap_of_chain hchain hfirst (List.getElem?_eq_getElem hlt)
    have hle := hlast _ (List.getElem_mem hlt)
    have hdiv : ts.length - 1 ≤ (now - a) / p := (Nat.le_div_iff_mul_le hp).2 (by omega)
    omega

/-- One instant more, far enough from the last. -/
theorem chain_snoc {t : ℕ} (hchain : ts.IsChain fun a b => a + p ≤ b) (h : ∀ s ∈ ts.getLast?, s + p ≤ t) :
    (ts ++ [t]).IsChain fun a b => a + p ≤ b := by
  rw [List.isChain_append]
  refine ⟨hchain, List.isChain_singleton t, fun s hs u hu => ?_⟩
  cases hu
  exact h s hs

end Gaps

end NodeToolkit.EventLoop
