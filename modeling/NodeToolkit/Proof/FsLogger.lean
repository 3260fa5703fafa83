import Mathlib.Data.List.Nodup
import NodeToolkit.Async.Awaiting
import NodeToolkit.Spec.FsLogger

/-!
# Where the lines of the file logger are

Log calls and `clear` calls that save the old file, interleaved at their awaits.

* `Complete`: every line is in the file, a saved file, the cache or on the console, at most once in
  the first three, and the cache is not full.
* `Clean`: what a run must avoid. A flush appends lines that another one has appended, or fails with
  nobody left to empty the cache; a reset drops lines that were pushed after the flush took its own;
  a line comes to the file between the copy and the overwriting of a `clear`; two calls of `clear`
  save the same lines twice, or under the same name.
* `logs_complete`: in clean runs the logger is complete whenever no call is in flight.
-/

namespace NodeToolkit.FsLogger

open Async

abbrev Logs : Type := Pool Resp Logger Call Reply

abbrev Running : Type := Proc Resp Call Reply

abbrev Step : Type := Ev Choice Empty Call

/-! ## Lines and where they are -/

def Entry.asLine : Entry → Option Line
  | .line l => some l
  | .mark _ => none

/-- The lines among what is written. -/
def linesOf (entries : List Entry) : List Line := entries.filterMap Entry.asLine

section Lines

variable {entries entries' : List Entry} {lines : List Line} {date : String}

@[simp] theorem linesOf_append : linesOf (entries ++ entries') = linesOf entries ++ linesOf entries' :=
  List.filterMap_append

@[simp] theorem linesOf_line {l : Line} : linesOf [.line l] = [l] := rfl

@[simp] theorem linesOf_startMark : linesOf [startMark date] = [] := rfl

@[simp] theorem linesOf_endMark : linesOf [endMark date] = [] := rfl

@[simp] theorem linesOf_marks (old : List String) : linesOf (old.map .mark) = [] := by
  rw [linesOf, List.filterMap_map]
  exact List.filterMap_eq_nil_iff.2 fun _ _ => rfl

@[simp] theorem linesOf_joined : linesOf (joined lines) = lines := by
  unfold joined
  split
  · rename_i h
    rw [h]
    rfl
  · rw [linesOf, List.filterMap_map]
    exact List.filterMap_some

end Lines

/-- The line is in a saved file. -/
def Archived (s : Logger) (l : Line) : Prop := ∃ content ∈ s.archives.values, l ∈ linesOf content

/-- The line is in the current file or in a saved one. -/
def Written (s : Logger) (l : Line) : Prop := l ∈ linesOf s.file ∨ Archived s l

instance (s : Logger) (l : Line) : Decidable (Archived s l) := inferInstanceAs (Decidable (∃ _ ∈ _, _))

instance (s : Logger) (l : Line) : Decidable (Written s l) := inferInstanceAs (Decidable (_ ∨ _))

/-- How often the line is in the current file, the saved ones and the cache. -/
def occurrences (s : Logger) (l : Line) : ℕ :=
  (linesOf s.file).count l + (s.archives.sumOf fun _ content => (linesOf content).count l) + s.logsCache.count l

/-- **Nothing is lost.** -/
structure Complete (config : Config) (s : Logger) : Prop where
  kept : ∀ l ∈ s.logged, 1 ≤ occurrences s l ∨ l ∈ s.console
  once : ∀ l, occurrences s l ≤ 1
  small : s.logsCache.length < config.max

/-! ## The condition -/

/-- A flush that is about to append the line. -/
def taking (l : Line) : Cmd → Prop
  | .appendCache lines => l ∈ lines
  | _ => False

/-- A flush that is not over, or a `clear` that is about to start one. -/
def flushing : Cmd → Prop
  | .takeCache => True
  | .appendCache _ => True
  | .resetCache => True
  | _ => False

instance (l : Line) : DecidablePred (taking l) := fun c => by
  cases c <;> unfold taking <;> infer_instance

instance : DecidablePred flushing := fun c => by
  cases c <;> unfold flushing <;> infer_instance

/-- **The condition** on a command, in the state before it. -/
def CleanCmd (config : Config) (w : Logs) (pid : ℕ) (i : Choice) : Cmd → Prop
  | .appendCache lines =>
    -- the lines are not written twice
    if i.failure = none then ∀ l ∈ lines, ¬ Written w.st l
    -- the lines are still there, and a full cache will be emptied
    else (w.st.logsCache.length < config.max ∨ w.AwaitsBut pid flushing) ∧
      ∀ l ∈ lines, l ∈ w.st.logsCache ∨ Written w.st l ∨ w.AwaitsBut pid (taking l)
  -- nothing has been pushed since a flush took the lines
  | .resetCache => ∀ l ∈ w.st.logsCache, Written w.st l ∨ w.AwaitsBut pid (taking l)
  -- the lines are not saved under two names, and none are replaced that are not in the file
  | .copyFile date => ∀ e ∈ w.st.archives.entries,
    if e.1 = savedAt date then ∀ l ∈ linesOf e.2, l ∈ linesOf w.st.file
    else ∀ l ∈ linesOf e.2, l ∉ linesOf w.st.file
  -- nothing has been appended since the copy
  | .writeFile _ => ∀ l ∈ linesOf w.st.file, Archived w.st l
  | _ => True

def Clean (config : Config) (w : Logs) : Step → Prop
  | .step pid i =>
    match (w.procs.get pid).bind Proc.pending with
    | some c => CleanCmd config w pid i c
    | none => True
  | _ => True

instance (config : Config) (w : Logs) (pid : ℕ) (i : Choice) (c : Cmd) : Decidable (CleanCmd config w pid i c) := by
  cases c <;> unfold CleanCmd <;> infer_instance

instance (config : Config) (w : Logs) : ∀ e : Step, Decidable (Clean config w e)
  | .call _ _ => inferInstanceAs (Decidable True)
  | .env _ => inferInstanceAs (Decidable True)
  | .step pid i =>
    match h : (w.procs.get pid).bind Proc.pending with
    | some c => decidable_of_iff (CleanCmd config w pid i c) (by simp only [Clean, h])
    | none => .isTrue (by simp only [Clean, h])

/-- Every `clear` saves the old file. -/
def SavesOld : Step → Prop
  | .call _ (.clear saveOld) => saveOld = true
  | _ => True

instance : DecidablePred SavesOld
  | .call _ (.clear saveOld) => inferInstanceAs (Decidable (saveOld = true))
  | .call _ (.log _) => inferInstanceAs (Decidable True)
  | .step _ _ => inferInstanceAs (Decidable True)
  | .env _ => inferInstanceAs (Decidable True)

/-! ## The order of a call's commands -/

abbrev Answer : Type := Σ c : Cmd, Resp c

/-- What a call may do next, after its last command. -/
def expected : Option Answer → Cmd → Prop
  | none, .push _ => True
  | none, .appendLine _ => True
  | none, .takeCache => True
  | some ⟨.push _, (_, some lines)⟩, .appendCache lines' => lines' = lines
  | some ⟨.appendLine _, (line, some _)⟩, .print line' => line' = line
  | some ⟨.appendCache _, none⟩, .resetCache => True
  | some ⟨.appendCache _, some _⟩, .print _ => True
  | some ⟨.resetCache, _⟩, .appendEnd _ => True
  | some ⟨.takeCache, (_, lines)⟩, .appendCache lines' => lines' = lines
  | some ⟨.appendEnd _, none⟩, .copyFile _ => True
  | some ⟨.copyFile _, _⟩, .writeFile _ => True
  | _, _ => False

theorem not_expected_dropCache {last : Option Answer} : ¬ expected last .dropCache := by
  intro h
  unfold expected at h
  split at h <;> simp_all

/-- Whether a call may be over after its last command. -/
def finished : Option Answer → Prop
  | none => False
  | some ⟨.push _, (_, some _)⟩ => False
  | some ⟨.appendLine _, (_, some _)⟩ => False
  | some ⟨.appendCache _, none⟩ => False
  | some ⟨.takeCache, _⟩ => False
  | some ⟨.copyFile _, _⟩ => False
  | _ => True

def turn : Protocol Resp (Option Answer) Reply where
  may := expected
  next _ c r := some ⟨c, r⟩
  fin last _ := finished last

theorem commitCache_follows {lines : List Line} {f : Except String Unit → Client Reply} {last : Option Answer}
    (hlast : expected last (.appendCache lines))
    (hok : (f (.ok ())).Follows turn (some ⟨.resetCache, ()⟩))
    (herror : ∀ message, (f (.error message)).Follows turn (some ⟨.appendCache lines, some message⟩)) :
    (commitCache lines >>= f).Follows turn last := by
  refine ⟨hlast, fun failure => ?_⟩
  cases failure with
  | none => exact ⟨trivial, fun _ => hok⟩
  | some message => exact herror message

theorem prog_follows (config : Config) {x : Call} (hx : x ≠ .clear false) : (prog config x).Follows turn none := by
  cases x with
  | log log =>
    show (append config log >>= fun _ => .ret (.ok ())).Follows turn none
    unfold append
    by_cases hcache : config.withMemCache = true
    · rw [if_pos hcache]
      refine ⟨trivial, fun r => ?_⟩
      obtain ⟨line, full⟩ := r
      cases full with
      | none => exact trivial
      | some lines =>
        show ((commitCache lines >>= _) >>= _).Follows turn (some ⟨.push log, (line, some lines)⟩)
        rw [Prog.bind_assoc]
        exact commitCache_follows rfl trivial fun message => ⟨trivial, fun _ => trivial⟩
    · rw [if_neg hcache]
      refine ⟨trivial, fun r => ?_⟩
      obtain ⟨line, failure⟩ := r
      cases failure with
      | none => exact trivial
      | some message => exact ⟨rfl, fun _ => trivial⟩
  | clear saveOld =>
    cases saveOld with
    | false => exact absurd rfl hx
    | true =>
      refine ⟨trivial, fun r => ?_⟩
      obtain ⟨date, lines⟩ := r
      refine commitCache_follows rfl ⟨trivial, fun failure => ?_⟩ fun message => trivial
      cases failure with
      | none => exact ⟨trivial, fun _ => ⟨trivial, fun _ => trivial⟩⟩
      | some message => exact trivial

/-- A call that is not over goes on with an expected command. -/
theorem follows_await {q : Client Reply} {last : Option Answer} (h : q.Follows turn last) (hlast : ¬ finished last) :
    ∃ c k, q = .await c k ∧ expected last c := by
  cases q with
  | ret a => exact absurd h hlast
  | await c k => exact ⟨c, k, rfl, h.1⟩

/-! ## The invariant -/

/-- What holds of the logger by itself. -/
structure Sane (s : Logger) : Prop where
  numbered : ∀ l ∈ s.logged, l.number < s.logged.length
  known : ∀ l, Written s l ∨ l ∈ s.logsCache → l ∈ s.logged
  file : (linesOf s.file).Nodup
  archives : ∀ content ∈ s.archives.values, (linesOf content).Nodup
  one : ∀ n n' content content' l, s.archives.get n = some content → s.archives.get n' = some content' →
    l ∈ linesOf content → l ∈ linesOf content' → n = n'
  cache : s.logsCache.Nodup

def overwriting (c : Cmd) : Prop := ∃ date, c = .writeFile date

/-- The line is somewhere, or a call is about to bring it somewhere. -/
def Placed (w : Logs) (l : Line) : Prop :=
  Written w.st l ∨ l ∈ w.st.logsCache ∨ l ∈ w.st.console ∨ (w.Awaits fun _ => taking l) ∨
    w.Awaits fun _ c => c = .print l

structure Tracked (config : Config) (w : Logs) : Prop where
  turns : w.Obeys (fun _ => turn) fun _ => none
  sane : Sane w.st
  taken : ∀ lines, (w.Awaits fun _ c => c = .appendCache lines) → lines.Nodup ∧ lines ⊆ w.st.logged
  copied : ∀ l ∈ linesOf w.st.file, Archived w.st l → w.Awaits fun _ => overwriting
  flushed : ∀ l ∈ w.st.logsCache, Written w.st l → w.Awaits fun _ c => c = .resetCache
  kept : ∀ l ∈ w.st.logged, Placed w l
  small : w.st.logsCache.length < config.max ∨ w.Awaits fun _ => flushing

theorem archived_iff {s : Logger} {l : Line} :
    Archived s l ↔ ∃ name content, s.archives.get name = some content ∧ l ∈ linesOf content := by
  constructor
  · rintro ⟨content, hmem, hl⟩
    obtain ⟨name, hname⟩ := OMap.mem_values.1 hmem
    exact ⟨name, content, hname, hl⟩
  · rintro ⟨name, content, hname, hl⟩
    exact ⟨content, OMap.mem_values.2 ⟨name, hname⟩, hl⟩

section Sane

variable {s : Logger} {log : Log} {now : ℕ} {l : Line} {entries : List Entry}

theorem Sane.fresh (h : Sane s) : s.line log now ∉ s.logged := fun hmem => Nat.lt_irrefl _ (h.numbered _ hmem)

/-- The line of a call that has just been logged. -/
theorem Sane.numbered_snoc (h : Sane s) :
    ∀ l ∈ s.logged ++ [s.line log now], l.number < (s.logged ++ [s.line log now]).length := by
  intro l hl
  rw [List.length_append, List.length_singleton]
  rcases List.mem_append.1 hl with hold | hnew
  · have := h.numbered l hold
    omega
  · rw [List.mem_singleton.1 hnew]
    exact Nat.lt_succ_self _

theorem Sane.push (h : Sane s) (log : Log) (now : ℕ) :
    Sane { s with logsCache := s.logsCache ++ [s.line log now], logged := s.logged ++ [s.line log now] } where
  numbered := h.numbered_snoc
  known := by
    rintro l (hl | hl)
    · exact List.mem_append_left _ (h.known l (Or.inl hl))
    · rcases List.mem_append.1 hl with hold | hnew
      · exact List.mem_append_left _ (h.known l (Or.inr hold))
      · exact List.mem_append_right _ hnew
  file := h.file
  archives := h.archives
  one := h.one
  cache := by
    rw [List.nodup_append]
    refine ⟨h.cache, List.nodup_singleton _, fun a ha b hb hab => ?_⟩
    rw [List.mem_singleton] at hb
    exact h.fresh (h.known _ (Or.inr (hb ▸ hab ▸ ha)))

/-- **New lines** come to the file. -/
theorem Sane.append (h : Sane s) (hnodup : (linesOf entries).Nodup) (hlogged : linesOf entries ⊆ s.logged)
    (hnew : ∀ l ∈ linesOf entries, ¬ Written s l) : Sane { s with file := s.file ++ entries } where
  numbered := h.numbered
  known := by
    rintro l ((hl | hl) | hl)
    · rw [linesOf_append, List.mem_append] at hl
      rcases hl with hold | hnew
      · exact h.known l (Or.inl (Or.inl hold))
      · exact hlogged hnew
    · exact h.known l (Or.inl (Or.inr hl))
    · exact h.known l (Or.inr hl)
  file := by
    rw [linesOf_append, List.nodup_append]
    refine ⟨h.file, hnodup, fun a ha b hb hab => ?_⟩
    exact hnew b hb (Or.inl (hab ▸ ha))
  archives := h.archives
  one := h.one
  cache := h.cache

/-- A line is counted as logged. -/
theorem Sane.count (h : Sane s) : Sane { s with logged := s.logged ++ [s.line log now] } where
  numbered := h.numbered_snoc
  known := fun l hl => List.mem_append_left _ (h.known l hl)
  file := h.file
  archives := h.archives
  one := h.one
  cache := h.cache

theorem Sane.reset (h : Sane s) : Sane { s with logsCache := [] } where
  numbered := h.numbered
  known := by
    rintro l (hl | hl)
    · exact h.known l (Or.inl hl)
    · exact absurd hl List.not_mem_nil
  file := h.file
  archives := h.archives
  one := h.one
  cache := List.nodup_nil

/-- **The file is saved** under a name whose lines it has, and it has no line of another saved file. -/
theorem Sane.copy (h : Sane s) {name : String} (hother : ∀ n content, s.archives.get n = some content → n ≠ name →
    ∀ l ∈ linesOf content, l ∉ linesOf s.file) : Sane { s with archives := s.archives.set name s.file } where
  numbered := h.numbered
  known := by
    rintro l ((hl | hl) | hl)
    · exact h.known l (Or.inl (Or.inl hl))
    · obtain ⟨n, content, hget, hmem⟩ := archived_iff.1 hl
      dsimp only at hget
      rw [OMap.get_set] at hget
      split at hget
      · obtain rfl := Option.some.inj hget
        exact h.known l (Or.inl (Or.inl hmem))
      · exact h.known l (Or.inl (Or.inr (archived_iff.2 ⟨n, content, hget, hmem⟩)))
    · exact h.known l (Or.inr hl)
  file := h.file
  archives := by
    intro content hmem
    obtain ⟨n, hget⟩ := OMap.mem_values.1 hmem
    rw [OMap.get_set] at hget
    split at hget
    · obtain rfl := Option.some.inj hget
      exact h.file
    · exact h.archives content (OMap.mem_values.2 ⟨n, hget⟩)
  one := by
    intro n n' content content' l hget hget' hl hl'
    dsimp only at hget hget'
    rw [OMap.get_set] at hget hget'
    split at hget
    · rename_i hn
      split at hget'
      · rename_i hn'
        exact hn.symm.trans hn'
      · rename_i hn'
        obtain rfl := Option.some.inj hget
        exact absurd hl (hother n' content' hget' (Ne.symm hn') l hl')
    · rename_i hn
      split at hget'
      · obtain rfl := Option.some.inj hget'
        exact absurd hl' (hother n content hget (Ne.symm hn) l hl)
      · exact h.one n n' content content' l hget hget' hl hl'
  cache := h.cache

theorem Sane.overwrite (h : Sane s) {date : String} : Sane { s with file := [startMark date] } where
  numbered := h.numbered
  known := by
    rintro l ((hl | hl) | hl)
    · exact absurd hl List.not_mem_nil
    · exact h.known l (Or.inl (Or.inr hl))
    · exact h.known l (Or.inr hl)
  file := List.nodup_nil
  archives := h.archives
  one := h.one
  cache := h.cache

end Sane

/-! ## One command -/

section Step

variable {config : Config} {w : Logs} {pid : ℕ} {i : Choice} {p : Running} {c : Cmd} {k : Resp c → Client Reply}
  {l : Line} {φ : Cmd → Prop}

/-- What the others wait for, when a call has executed another command. -/
theorem stays (hp : w.procs.get pid = some p) (hr : p.rest = .await c k) (hc : ¬ φ c) (h : w.Awaits fun _ => φ) :
    ((machine config).advance w pid i p c k).Awaits fun _ => φ :=
  Machine.awaits_advance ((h.cases hp hr).resolve_left hc)

/-- What the call does next. -/
theorem Tracked.goes (hw : Tracked config w) (hp : w.procs.get pid = some p) (hr : p.rest = .await c k) :
    (k (exec config i w.st c).2).Follows turn (some ⟨c, (exec config i w.st c).2⟩) := by
  have h := hw.turns pid p hp
  rw [hr] at h
  exact h.2 _

/-- A call that has to go on awaits an expected command. -/
theorem Tracked.awaits (hw : Tracked config w) (hp : w.procs.get pid = some p) (hr : p.rest = .await c k)
    (hmore : ¬ finished (some ⟨c, (exec config i w.st c).2⟩))
    (hφ : ∀ c', expected (some ⟨c, (exec config i w.st c).2⟩) c' → φ c') :
    ((machine config).advance w pid i p c k).Awaits fun _ => φ := by
  obtain ⟨c', k', hk, hc'⟩ := follows_await (hw.goes hp hr (i := i)) hmore
  exact Machine.awaits_self hk (hφ c' hc')

/-- The lines that a call is about to append are among those logged, and distinct. -/
theorem Tracked.taken_advance (hw : Tracked config w) (hp : w.procs.get pid = some p) (hr : p.rest = .await c k)
    (hlogged : w.st.logged ⊆ (exec config i w.st c).1.logged)
    (hnew : ∀ lines, expected (some ⟨c, (exec config i w.st c).2⟩) (.appendCache lines) →
      lines.Nodup ∧ lines ⊆ (exec config i w.st c).1.logged) (lines : List Line)
    (h : ((machine config).advance w pid i p c k).Awaits fun _ c => c = .appendCache lines) :
    lines.Nodup ∧ lines ⊆ (exec config i w.st c).1.logged := by
  rcases Machine.awaits_advance_cases h with ⟨c', k', hk, rfl⟩ | hold
  · have hgoes := hw.goes hp hr (i := i)
    have hk' : k (exec config i w.st c).2 = .await (.appendCache lines) k' := hk
    rw [hk'] at hgoes
    exact hnew lines hgoes.1
  · obtain ⟨hnodup, hsub⟩ := hw.taken lines hold.awaits
    exact ⟨hnodup, fun l hl => hlogged (hsub hl)⟩

/-- A line stays where it is. -/
theorem Placed.advance (hp : w.procs.get pid = some p) (hr : p.rest = .await c k) (ht : ¬ taking l c)
    (hprint : c ≠ .print l) (hwritten : Written w.st l → Written (exec config i w.st c).1 l)
    (hcache : l ∈ w.st.logsCache → l ∈ (exec config i w.st c).1.logsCache)
    (hconsole : l ∈ w.st.console → l ∈ (exec config i w.st c).1.console) (h : Placed w l) :
    Placed ((machine config).advance w pid i p c k) l := by
  rcases h with h | h | h | h | h
  · exact Or.inl (hwritten h)
  · exact Or.inr (Or.inl (hcache h))
  · exact Or.inr (Or.inr (Or.inl (hconsole h)))
  · exact Or.inr (Or.inr (Or.inr (Or.inl (stays hp hr ht h))))
  · exact Or.inr (Or.inr (Or.inr (Or.inr (stays hp hr hprint h))))

theorem Placed.same {logged : List Line} (hp : w.procs.get pid = some p) (hr : p.rest = .await c k) (ht : ¬ taking l c)
    (hprint : c ≠ .print l) (hst : (exec config i w.st c).1 = { w.st with logged }) (h : Placed w l) :
    Placed ((machine config).advance w pid i p c k) l := by
  refine h.advance hp hr ht hprint ?_ ?_ ?_
  · rw [hst]
    exact fun h => h
  · rw [hst]
    exact fun h => h
  · rw [hst]
    exact fun h => h

theorem Tracked.push {log : Log} {k : Resp (.push log) → Client Reply} (hw : Tracked config w)
    (hp : w.procs.get pid = some p) (hr : p.rest = .await (.push log) k) :
    Tracked config ((machine config).advance w pid i p (.push log) k) where
  turns := Machine.advance_obeys hw.turns i hp hr
  sane := hw.sane.push log i.now
  taken := hw.taken_advance hp hr (List.subset_append_left _ _) fun lines hlines => by
    have hsane := hw.sane.push log i.now
    by_cases hfull : (w.st.logsCache ++ [w.st.line log i.now]).length = config.max
    · simp only [exec, if_pos hfull] at hlines ⊢
      obtain rfl : lines = _ := hlines
      exact ⟨hsane.cache, fun l hl => hsane.known l (Or.inr hl)⟩
    · simp only [exec, if_neg hfull] at hlines
      exact hlines.elim
  copied := fun l hl ha => stays hp hr (by rintro ⟨date, ⟨⟩⟩) (hw.copied l hl ha)
  flushed := by
    intro l hl hwritten
    rcases List.mem_append.1 hl with hold | hnew
    · exact stays hp hr (by rintro ⟨⟩) (hw.flushed l hold hwritten)
    · rw [List.mem_singleton.1 hnew] at hwritten
      exact absurd (hw.sane.known _ (Or.inl hwritten)) hw.sane.fresh
  kept := by
    intro l hl
    rcases List.mem_append.1 hl with hold | hnew
    · exact (hw.kept l hold).advance hp hr (fun h => h) (by rintro ⟨⟩) (fun h => h) (List.mem_append_left _) fun h => h
    · exact Or.inr (Or.inl (List.mem_append_right _ hnew))
  small := by
    by_cases hfull : (w.st.logsCache ++ [w.st.line log i.now]).length = config.max
    · right
      refine hw.awaits hp hr ?_ fun c' hc' => ?_
      · simp only [exec, if_pos hfull]
        exact fun h => h
      · simp only [exec, if_pos hfull] at hc'
        cases c' with
        | appendCache lines => exact trivial
        | _ => exact hc'.elim
    · rcases hw.small with hsmall | hflushing
      · left
        show (w.st.logsCache ++ [w.st.line log i.now]).length < config.max
        rw [List.length_append, List.length_singleton] at hfull ⊢
        omega
      · exact Or.inr (stays hp hr (fun h => h) hflushing)

/-- **An append**: the lines of `entries` are new in the file, and distinct. -/
theorem Tracked.append (hw : Tracked config w) (hp : w.procs.get pid = some p) (hr : p.rest = .await c k)
    {entries : List Entry} {logged : List Line}
    (hst : (exec config i w.st c).1 = { w.st with file := w.st.file ++ entries, logged })
    (hsane : Sane { w.st with logged }) (hmore : ∀ l ∈ logged, l ∈ w.st.logged ∨ l ∈ linesOf entries)
    (hless : w.st.logged ⊆ logged) (hnodup : (linesOf entries).Nodup) (hin : linesOf entries ⊆ logged)
    (hnew : ∀ l ∈ linesOf entries, ¬ Written w.st l) (htaking : ∀ l, taking l c → l ∈ linesOf entries)
    (hcommand : ¬ overwriting c ∧ c ≠ .resetCache ∧ ∀ l, c ≠ .print l)
    (hnext : ∀ lines, ¬ expected (some ⟨c, (exec config i w.st c).2⟩) (.appendCache lines))
    (hflushed : ∀ l ∈ linesOf entries, l ∈ w.st.logsCache →
      ((machine config).advance w pid i p c k).Awaits fun _ c => c = .resetCache)
    (hsmall : flushing c → ((machine config).advance w pid i p c k).Awaits fun _ => flushing) :
    Tracked config ((machine config).advance w pid i p c k) := by
  have hst' : ((machine config).advance w pid i p c k).st = { w.st with file := w.st.file ++ entries, logged } := hst
  have hfile : ∀ l, l ∈ linesOf (w.st.file ++ entries) ↔ l ∈ linesOf w.st.file ∨ l ∈ linesOf entries := by
    intro l
    rw [linesOf_append, List.mem_append]
  have hcache : (exec config i w.st c).1.logsCache = w.st.logsCache := by rw [hst]
  refine ⟨Machine.advance_obeys hw.turns i hp hr, ?_, ?_, ?_, ?_, ?_, ?_⟩
  · rw [hst']
    exact hsane.append hnodup hin hnew
  · rw [hst', ← congrArg Logger.logged hst]
    refine hw.taken_advance hp hr ?_ fun lines h => absurd h (hnext lines)
    rw [hst]
    exact hless
  · intro l hl ha
    rw [hst'] at hl ha
    rcases (hfile l).1 hl with hold | hadded
    · exact stays hp hr hcommand.1 (hw.copied l hold ha)
    · exact absurd (Or.inr ha) (hnew l hadded)
  · intro l hl hwritten
    rw [hst'] at hl hwritten
    by_cases hadded : l ∈ linesOf entries
    · exact hflushed l hadded hl
    · have hold : Written w.st l := hwritten.imp (fun h => ((hfile l).1 h).resolve_right hadded) fun h => h
      exact stays hp hr hcommand.2.1 (hw.flushed l hl hold)
  · intro l hl
    rw [hst'] at hl
    by_cases hadded : l ∈ linesOf entries
    · left
      rw [hst']
      exact Or.inl ((hfile l).2 (Or.inr hadded))
    · have hold := (hmore l hl).resolve_right hadded
      refine (hw.kept l hold).advance hp hr (fun h => hadded (htaking l h)) (hcommand.2.2 l) ?_ ?_ ?_
      · rw [hst]
        exact fun h => h.imp (fun h => (hfile l).2 (Or.inl h)) fun h => h
      · rw [hst]
        exact fun h => h
      · rw [hst]
        exact fun h => h
  · rw [hst']
    rcases hw.small with hsmall' | hflushing
    · exact Or.inl hsmall'
    · by_cases hc : flushing c
      · exact Or.inr (hsmall hc)
      · exact Or.inr (stays hp hr hc hflushing)

/-- **A failed append** writes nothing. -/
theorem Tracked.fail (hw : Tracked config w) (hp : w.procs.get pid = some p) (hr : p.rest = .await c k)
    {logged : List Line} (hst : (exec config i w.st c).1 = { w.st with logged })
    (hsane : Sane { w.st with logged }) (hless : w.st.logged ⊆ logged)
    (hcommand : ¬ overwriting c ∧ c ≠ .resetCache)
    (hnext : ∀ lines, ¬ expected (some ⟨c, (exec config i w.st c).2⟩) (.appendCache lines))
    (hkept : ∀ l ∈ logged, Placed ((machine config).advance w pid i p c k) l)
    (hsmall : w.st.logsCache.length < config.max ∨ ((machine config).advance w pid i p c k).Awaits fun _ => flushing) :
    Tracked config ((machine config).advance w pid i p c k) := by
  have hst' : ((machine config).advance w pid i p c k).st = { w.st with logged } := hst
  refine ⟨Machine.advance_obeys hw.turns i hp hr, ?_, ?_, ?_, ?_, ?_, ?_⟩
  · rw [hst']
    exact hsane
  · rw [hst', ← congrArg Logger.logged hst]
    refine hw.taken_advance hp hr ?_ fun lines h => absurd h (hnext lines)
    rw [hst]
    exact hless
  · intro l hl ha
    rw [hst'] at hl ha
    exact stays hp hr hcommand.1 (hw.copied l hl ha)
  · intro l hl hwritten
    rw [hst'] at hl hwritten
    exact stays hp hr hcommand.2 (hw.flushed l hl hwritten)
  · intro l hl
    rw [hst'] at hl
    exact hkept l hl
  · rw [hst']
    exact hsmall

theorem Tracked.appendLine {log : Log} {k : Resp (.appendLine log) → Client Reply} (hw : Tracked config w)
    (hp : w.procs.get pid = some p) (hr : p.rest = .await (.appendLine log) k) :
    Tracked config ((machine config).advance w pid i p (.appendLine log) k) := by
  have hfresh : ¬ Written w.st (w.st.line log i.now) := fun h => hw.sane.fresh (hw.sane.known _ (Or.inl h))
  have hcache : w.st.line log i.now ∉ w.st.logsCache := fun h => hw.sane.fresh (hw.sane.known _ (Or.inr h))
  have hcommand : ¬ overwriting (.appendLine log) ∧ (Cmd.appendLine log) ≠ .resetCache ∧
      ∀ l, Cmd.appendLine log ≠ .print l :=
    ⟨by rintro ⟨date, ⟨⟩⟩, by rintro ⟨⟩, by rintro l ⟨⟩⟩
  cases hf : i.failure with
  | none =>
    have hexec : exec config i w.st (.appendLine log) =
        ({ w.st with file := w.st.file ++ [.line (w.st.line log i.now)], logged := w.st.logged ++ [w.st.line log i.now] },
          (w.st.line log i.now, none)) := by
      simp only [exec, Logger.append, hf]
    refine hw.append hp hr (congrArg Prod.fst hexec) hw.sane.count ?_ (List.subset_append_left _ _)
      (List.nodup_singleton _) (List.subset_append_right _ _) ?_ (fun l h => h.elim) hcommand ?_ ?_ fun h => h.elim
    · exact fun l hl => List.mem_append.1 hl
    · intro l hl
      rw [linesOf_line, List.mem_singleton] at hl
      exact hl ▸ hfresh
    · rw [hexec]
      exact fun lines h => h
    · intro l hl hmem
      rw [linesOf_line, List.mem_singleton] at hl
      exact absurd (hl ▸ hmem) hcache
  | some message =>
    have hexec : exec config i w.st (.appendLine log) =
        ({ w.st with logged := w.st.logged ++ [w.st.line log i.now] }, (w.st.line log i.now, some message)) := by
      simp only [exec, Logger.append, hf]
    refine hw.fail hp hr (congrArg Prod.fst hexec) hw.sane.count (List.subset_append_left _ _) ⟨hcommand.1, hcommand.2.1⟩
      ?_ ?_ (hw.small.imp (fun h => h) (stays hp hr fun h => h))
    · rw [hexec]
      exact fun lines h => h
    · intro l hl
      rcases List.mem_append.1 hl with hold | hnew
      · exact (hw.kept l hold).same hp hr (fun h => h) (hcommand.2.2 l) (congrArg Prod.fst hexec)
      · -- the call prints the line next
        rw [List.mem_singleton.1 hnew]
        refine Or.inr (Or.inr (Or.inr (Or.inr (hw.awaits hp hr ?_ fun c' hc' => ?_))))
        · rw [hexec]
          exact fun h => h
        · rw [hexec] at hc'
          cases c' with
          | print line =>
            obtain rfl : line = _ := hc'
            rfl
          | _ => exact hc'.elim

/-- **A flush** that writes new lines, or that fails while another one is to empty the cache. -/
theorem Tracked.appendCache {lines : List Line} {k : Resp (.appendCache lines) → Client Reply} (hw : Tracked config w)
    (hp : w.procs.get pid = some p) (hr : p.rest = .await (.appendCache lines) k)
    (hclean : if i.failure = none then ∀ l ∈ lines, ¬ Written w.st l
      else (w.st.logsCache.length < config.max ∨ w.AwaitsBut pid flushing) ∧
        ∀ l ∈ lines, l ∈ w.st.logsCache ∨ Written w.st l ∨ w.AwaitsBut pid (taking l)) :
    Tracked config ((machine config).advance w pid i p (.appendCache lines) k) := by
  have hcommand : ¬ overwriting (.appendCache lines) ∧ (Cmd.appendCache lines) ≠ .resetCache ∧
      ∀ l, Cmd.appendCache lines ≠ .print l :=
    ⟨by rintro ⟨date, ⟨⟩⟩, by rintro ⟨⟩, by rintro l ⟨⟩⟩
  obtain ⟨hnodup, hlogged⟩ := hw.taken lines ⟨pid, p, _, hp, Proc.pending_of_await hr, rfl⟩
  cases hf : i.failure with
  | none =>
    rw [if_pos hf] at hclean
    have hexec : exec config i w.st (.appendCache lines) = ({ w.st with file := w.st.file ++ joined lines }, none) := by
      simp only [exec, Logger.append, hf]
    have hreset : ((machine config).advance w pid i p (.appendCache lines) k).Awaits fun _ c => c = .resetCache := by
      refine hw.awaits hp hr ?_ fun c' hc' => ?_
      · rw [hexec]
        exact fun h => h
      · rw [hexec] at hc'
        cases c' with
        | resetCache => rfl
        | _ => exact hc'.elim
    refine hw.append hp hr (congrArg Prod.fst hexec) hw.sane (fun l hl => Or.inl hl) (List.Subset.refl _) ?_ ?_ ?_ ?_
      hcommand ?_ ?_ ?_
    · rwa [linesOf_joined]
    · rwa [linesOf_joined]
    · rwa [linesOf_joined]
    · intro l hl
      rw [linesOf_joined]
      exact hl
    · rw [hexec]
      exact fun lines h => h
    · exact fun l _ _ => hreset
    · exact fun _ => hreset.mono fun _ c (hc : c = .resetCache) => by rw [hc]; exact trivial
  | some message =>
    rw [if_neg (by rw [hf]; exact Option.some_ne_none message)] at hclean
    have hexec : exec config i w.st (.appendCache lines) = (w.st, some message) := by
      simp only [exec, Logger.append, hf]
    refine hw.fail hp hr (congrArg Prod.fst hexec) hw.sane (List.Subset.refl _) ⟨hcommand.1, hcommand.2.1⟩ ?_ ?_ ?_
    · rw [hexec]
      exact fun lines h => h
    · intro l hl
      have hst : ((machine config).advance w pid i p (.appendCache lines) k).st = w.st := congrArg Prod.fst hexec
      by_cases hmem : l ∈ lines
      · unfold Placed
        rw [hst]
        rcases hclean.2 l hmem with hcache | hwritten | htaken
        · exact Or.inr (Or.inl hcache)
        · exact Or.inl hwritten
        · exact Or.inr (Or.inr (Or.inr (Or.inl (Machine.awaits_advance htaken))))
      · exact (hw.kept l hl).same hp hr hmem (hcommand.2.2 l) (congrArg Prod.fst hexec)
    · exact hclean.1.imp (fun h => h) Machine.awaits_advance

theorem Tracked.appendEnd {date : String} {k : Resp (.appendEnd date) → Client Reply} (hw : Tracked config w)
    (hp : w.procs.get pid = some p) (hr : p.rest = .await (.appendEnd date) k) :
    Tracked config ((machine config).advance w pid i p (.appendEnd date) k) := by
  have hcommand : ¬ overwriting (.appendEnd date) ∧ (Cmd.appendEnd date) ≠ .resetCache ∧
      ∀ l, Cmd.appendEnd date ≠ .print l :=
    ⟨by rintro ⟨date, ⟨⟩⟩, by rintro ⟨⟩, by rintro l ⟨⟩⟩
  cases hf : i.failure with
  | none =>
    have hexec : exec config i w.st (.appendEnd date) = ({ w.st with file := w.st.file ++ [endMark date] }, none) := by
      simp only [exec, Logger.append, hf]
    refine hw.append hp hr (congrArg Prod.fst hexec) hw.sane (fun l hl => Or.inl hl) (List.Subset.refl _) List.nodup_nil
      (List.nil_subset _) (fun l hl => absurd hl List.not_mem_nil) (fun l h => h.elim) hcommand ?_
      (fun l hl => absurd hl List.not_mem_nil) fun h => h.elim
    rw [hexec]
    exact fun lines h => h
  | some message =>
    have hexec : exec config i w.st (.appendEnd date) = (w.st, some message) := by
      simp only [exec, Logger.append, hf]
    refine hw.fail hp hr (congrArg Prod.fst hexec) hw.sane (List.Subset.refl _) ⟨hcommand.1, hcommand.2.1⟩ ?_ ?_
      (hw.small.imp (fun h => h) (stays hp hr fun h => h))
    · rw [hexec]
      exact fun lines h => h
    · exact fun l hl => (hw.kept l hl).same hp hr (fun h => h) (hcommand.2.2 l) (congrArg Prod.fst hexec)

theorem Tracked.print {line : Line} {k : Resp (.print line) → Client Reply} (hw : Tracked config w)
    (hp : w.procs.get pid = some p) (hr : p.rest = .await (.print line) k) :
    Tracked config ((machine config).advance w pid i p (.print line) k) where
  turns := Machine.advance_obeys hw.turns i hp hr
  sane := ⟨hw.sane.numbered, hw.sane.known, hw.sane.file, hw.sane.archives, hw.sane.one, hw.sane.cache⟩
  taken := hw.taken_advance hp hr (List.Subset.refl _) fun _ h => h.elim
  copied := fun l hl ha => stays hp hr (by rintro ⟨date, ⟨⟩⟩) (hw.copied l hl ha)
  flushed := fun l hl hwritten => stays hp hr (by rintro ⟨⟩) (hw.flushed l hl hwritten)
  kept := by
    intro l hl
    by_cases hline : line = l
    · exact Or.inr (Or.inr (Or.inl (List.mem_append_right _ (List.mem_singleton.2 hline.symm))))
    · exact (hw.kept l hl).advance hp hr (fun h => h) (by rintro ⟨⟩; exact hline rfl) (fun h => h) (fun h => h)
        (List.mem_append_left _)
  small := hw.small.imp (fun h => h) (stays hp hr fun h => h)

theorem Tracked.takeCache {k : Resp .takeCache → Client Reply} (hw : Tracked config w) (hp : w.procs.get pid = some p)
    (hr : p.rest = .await .takeCache k) : Tracked config ((machine config).advance w pid i p .takeCache k) where
  turns := Machine.advance_obeys hw.turns i hp hr
  sane := hw.sane
  taken := hw.taken_advance hp hr (List.Subset.refl _) fun lines hlines => by
    obtain rfl : lines = _ := hlines
    exact ⟨hw.sane.cache, fun l hl => hw.sane.known l (Or.inr hl)⟩
  copied := fun l hl ha => stays hp hr (by rintro ⟨date, ⟨⟩⟩) (hw.copied l hl ha)
  flushed := fun l hl hwritten => stays hp hr (by rintro ⟨⟩) (hw.flushed l hl hwritten)
  kept := fun l hl => (hw.kept l hl).advance hp hr (fun h => h) (by rintro ⟨⟩) (fun h => h) (fun h => h) fun h => h
  small := by
    right
    refine hw.awaits hp hr (fun h => h) fun c' hc' => ?_
    cases c' with
    | appendCache lines => exact trivial
    | _ => exact hc'.elim

/-- A flush may drop the lines that have been written, or that another flush has taken. -/
theorem Tracked.resetCache {k : Resp .resetCache → Client Reply} (hmax : 1 ≤ config.max) (hw : Tracked config w)
    (hp : w.procs.get pid = some p) (hr : p.rest = .await .resetCache k)
    (hclean : ∀ l ∈ w.st.logsCache, Written w.st l ∨ w.AwaitsBut pid (taking l)) :
    Tracked config ((machine config).advance w pid i p .resetCache k) where
  turns := Machine.advance_obeys hw.turns i hp hr
  sane := hw.sane.reset
  taken := hw.taken_advance hp hr (List.Subset.refl _) fun _ h => h.elim
  copied := fun l hl ha => stays hp hr (by rintro ⟨date, ⟨⟩⟩) (hw.copied l hl ha)
  flushed := fun l hl _ => absurd hl List.not_mem_nil
  kept := by
    intro l hl
    by_cases hcache : l ∈ w.st.logsCache
    · rcases hclean l hcache with hwritten | htaken
      · exact Or.inl hwritten
      · exact Or.inr (Or.inr (Or.inr (Or.inl (Machine.awaits_advance htaken))))
    · exact (hw.kept l hl).advance hp hr (fun h => h) (by rintro ⟨⟩) (fun h => h) (fun h => absurd h hcache) fun h => h
  small := Or.inl hmax

/-- `clear` saves the file. -/
theorem Tracked.copyFile {date : String} {k : Resp (.copyFile date) → Client Reply} (hw : Tracked config w)
    (hp : w.procs.get pid = some p) (hr : p.rest = .await (.copyFile date) k)
    (hsame : ∀ content, w.st.archives.get (savedAt date) = some content → linesOf content ⊆ linesOf w.st.file)
    (hother : ∀ n content, w.st.archives.get n = some content → n ≠ savedAt date →
      ∀ l ∈ linesOf content, l ∉ linesOf w.st.file) :
    Tracked config ((machine config).advance w pid i p (.copyFile date) k) := by
  have hafter : ∀ l, Written ((machine config).advance w pid i p (.copyFile date) k).st l → Written w.st l := by
    rintro l (hl | hl)
    · exact Or.inl hl
    · obtain ⟨n, content, hget, hmem⟩ := archived_iff.1 hl
      have hget' : (w.st.archives.set (savedAt date) w.st.file).get n = some content := hget
      rw [OMap.get_set] at hget'
      split at hget'
      · obtain rfl := Option.some.inj hget'
        exact Or.inl hmem
      · exact Or.inr (archived_iff.2 ⟨n, content, hget', hmem⟩)
  have hbefore : ∀ l, Written w.st l → Written ((machine config).advance w pid i p (.copyFile date) k).st l := by
    rintro l (hl | hl)
    · exact Or.inl hl
    · obtain ⟨n, content, hget, hmem⟩ := archived_iff.1 hl
      by_cases hn : n = savedAt date
      · exact Or.inl (hsame content (hn ▸ hget) hmem)
      · exact Or.inr (archived_iff.2 ⟨n, content, (OMap.get_set_ne _ _ (Ne.symm hn)).trans hget, hmem⟩)
  refine ⟨Machine.advance_obeys hw.turns i hp hr, hw.sane.copy hother, ?_, ?_, ?_, ?_, ?_⟩
  · exact hw.taken_advance hp hr (List.Subset.refl _) fun _ h => h.elim
  · intro l _ _
    refine hw.awaits hp hr (fun h => h) fun c' hc' => ?_
    cases c' with
    | writeFile date' => exact ⟨date', rfl⟩
    | _ => exact hc'.elim
  · exact fun l hl hwritten => stays hp hr (by rintro ⟨⟩) (hw.flushed l hl (hafter l hwritten))
  · exact fun l hl =>
      (hw.kept l hl).advance hp hr (fun h => h) (by rintro ⟨⟩) (hbefore l) (fun h => h) fun h => h
  · exact hw.small.imp (fun h => h) (stays hp hr fun h => h)

/-- `clear` overwrites the file. -/
theorem Tracked.writeFile {date : String} {k : Resp (.writeFile date) → Client Reply} (hw : Tracked config w)
    (hp : w.procs.get pid = some p) (hr : p.rest = .await (.writeFile date) k)
    (hclean : ∀ l ∈ linesOf w.st.file, Archived w.st l) :
    Tracked config ((machine config).advance w pid i p (.writeFile date) k) where
  turns := Machine.advance_obeys hw.turns i hp hr
  sane := hw.sane.overwrite
  taken := hw.taken_advance hp hr (List.Subset.refl _) fun _ h => h.elim
  copied := fun l hl _ => absurd hl List.not_mem_nil
  flushed := by
    rintro l hl (hfile | harchived)
    · exact absurd hfile List.not_mem_nil
    · exact stays hp hr (by rintro ⟨⟩) (hw.flushed l hl (Or.inr harchived))
  kept := fun l hl => (hw.kept l hl).advance hp hr (fun h => h) (by rintro ⟨⟩)
    (fun h => Or.inr (h.elim (hclean l) fun h => h)) (fun h => h) fun h => h
  small := hw.small.imp (fun h => h) (stays hp hr fun h => h)

/-- **One command** of a clean run. -/
theorem Tracked.step (hmax : 1 ≤ config.max) (hw : Tracked config w) (hp : w.procs.get pid = some p)
    (hr : p.rest = .await c k) (hclean : Clean config w (.step pid i)) :
    Tracked config ((machine config).advance w pid i p c k) := by
  have hpending : (w.procs.get pid).bind Proc.pending = some c := by
    rw [hp, Option.bind_some, Proc.pending_of_await hr]
  simp only [Clean, hpending] at hclean
  cases c with
  | push log => exact hw.push hp hr
  | appendLine log => exact hw.appendLine hp hr
  | appendCache lines => exact hw.appendCache hp hr hclean
  | resetCache => exact hw.resetCache hmax hp hr hclean
  | print line => exact hw.print hp hr
  | takeCache => exact hw.takeCache hp hr
  | dropCache =>
    -- no call of the run drops the cache
    have hturn := hw.turns pid p hp
    rw [hr] at hturn
    exact absurd hturn.1 not_expected_dropCache
  | appendEnd date => exact hw.appendEnd hp hr
  | copyFile date =>
    refine hw.copyFile hp hr ?_ ?_
    · intro content hget
      have h := hclean _ (OMap.get_eq_some.1 hget)
      rw [if_pos rfl] at h
      exact h
    · intro n content hget hn
      have h := hclean _ (OMap.get_eq_some.1 hget)
      rw [if_neg hn] at h
      exact h
  | writeFile date => exact hw.writeFile hp hr hclean

end Step

/-! ## Runs -/

section Runs

variable {config : Config} {w : Logs} {s : Logger}

theorem tracked_init (hmax : 1 ≤ config.max) (old : List String) : Tracked config (Pool.init (Logger.opened old)) where
  turns := Pool.obeys_init _ _ _
  sane := by
    refine ⟨fun l hl => absurd hl List.not_mem_nil, ?_, ?_, ?_, ?_, List.nodup_nil⟩
    · rintro l ((hl | ⟨content, hl, -⟩) | hl)
      · rw [Pool.init, Logger.opened, linesOf_marks] at hl
        exact hl
      · exact absurd hl List.not_mem_nil
      · exact hl
    · rw [Pool.init, Logger.opened, linesOf_marks]
      exact List.nodup_nil
    · exact fun content hl => absurd hl List.not_mem_nil
    · exact fun n n' content content' l h => absurd h (by simp [Pool.init, Logger.opened])
  taken := fun lines h => absurd h (Pool.not_awaits_init _)
  copied := fun l _ ⟨content, hl, _⟩ => absurd hl List.not_mem_nil
  flushed := fun l hl => absurd hl List.not_mem_nil
  kept := fun l hl => absurd hl List.not_mem_nil
  small := Or.inl hmax

theorem Tracked.call (hw : Tracked config w) {pid : ℕ} {x : Call} (hn : w.procs.get pid = none) (hx : x ≠ .clear false) :
    Tracked config ((machine config).begin w pid x) where
  turns := Machine.begin_obeys hw.turns pid (prog_follows config hx)
  sane := hw.sane
  taken := by
    rintro lines ⟨q, p, c, hp, hc, rfl⟩
    rcases Machine.begin_cases hp with ⟨rfl, rfl⟩ | ⟨-, hp⟩
    · -- no call starts with a flush
      obtain ⟨k, hk⟩ := Proc.await_of_pending hc
      have hfollows := prog_follows config hx
      have hk' : prog config x = .await (.appendCache lines) k := hk
      rw [hk'] at hfollows
      exact hfollows.1.elim
    · exact hw.taken lines ⟨q, p, _, hp, hc, rfl⟩
  copied := fun l hl ha => Machine.awaits_begin hn (hw.copied l hl ha)
  flushed := fun l hl hwritten => Machine.awaits_begin hn (hw.flushed l hl hwritten)
  kept := by
    intro l hl
    rcases hw.kept l hl with h | h | h | h | h
    · exact Or.inl h
    · exact Or.inr (Or.inl h)
    · exact Or.inr (Or.inr (Or.inl h))
    · exact Or.inr (Or.inr (Or.inr (Or.inl (Machine.awaits_begin hn h))))
    · exact Or.inr (Or.inr (Or.inr (Or.inr (Machine.awaits_begin hn h))))
  small := hw.small.imp (fun h => h) (Machine.awaits_begin hn)

/-- How often a line is in the saved files. -/
theorem archived_count (hs : Sane s) (l : Line) :
    (s.archives.sumOf fun _ content => (linesOf content).count l) = if Archived s l then 1 else 0 := by
  by_cases h : Archived s l
  · rw [if_pos h]
    obtain ⟨name, content, hget, hl⟩ := archived_iff.1 h
    -- only one of them has the line
    rw [OMap.sumOf_eq_single hget fun n content' hget' hn => List.count_eq_zero.2 fun hl' =>
      hn (hs.one n name content' content l hget' hget hl' hl)]
    exact List.count_eq_one_of_mem (hs.archives content (OMap.mem_values.2 ⟨name, hget⟩)) hl
  · rw [if_neg h, OMap.sumOf_congr (g := fun _ _ => 0), OMap.sumOf_zero]
    exact fun name content hget => List.count_eq_zero.2 fun hl => h (archived_iff.2 ⟨name, content, hget, hl⟩)

/-- **When no call is in flight**, nothing is lost. -/
theorem Tracked.complete (hw : Tracked config w) (hquiet : w.Quiet) : Complete config w.st := by
  refine ⟨fun l hl => ?_, fun l => ?_, hw.small.resolve_right hquiet.not_awaits⟩
  · have hpos : Written w.st l ∨ l ∈ w.st.logsCache → 1 ≤ occurrences w.st l := by
      unfold occurrences
      rw [archived_count hw.sane]
      rintro ((hfile | harchived) | hcache)
      · have := List.count_pos_iff.2 hfile
        omega
      · rw [if_pos harchived]
        omega
      · have := List.count_pos_iff.2 hcache
        omega
    rcases hw.kept l hl with h | h | h | h | h
    · exact Or.inl (hpos (Or.inl h))
    · exact Or.inl (hpos (Or.inr h))
    · exact Or.inr h
    · exact absurd h hquiet.not_awaits
    · exact absurd h hquiet.not_awaits
  · have hfile := List.nodup_iff_count_le_one.1 hw.sane.file l
    have hcache := List.nodup_iff_count_le_one.1 hw.sane.cache l
    unfold occurrences
    rw [archived_count hw.sane]
    -- nobody is about to overwrite the file, or to empty the cache
    have hone : ¬ (l ∈ linesOf w.st.file ∧ Archived w.st l) := fun h => hquiet.not_awaits (hw.copied l h.1 h.2)
    have hwritten : l ∈ w.st.logsCache → ¬ Written w.st l := fun h h' => hquiet.not_awaits (hw.flushed l h h')
    by_cases hmem : l ∈ w.st.logsCache
    · have hnot := not_or.1 (hwritten hmem)
      rw [List.count_eq_zero.2 hnot.1, if_neg hnot.2]
      omega
    · rw [List.count_eq_zero.2 hmem]
      by_cases harchived : Archived w.st l
      · rw [List.count_eq_zero.2 fun h => hone ⟨h, harchived⟩, if_pos harchived]
      · rw [if_neg harchived]
        omega

/-- A cache of two lines. -/
def two : Config := ⟨true, some 2⟩

/-- A log, and a step of the first hour of 1970. -/
def note (context : String) : Call := .log (.info "id" context none)

def go (pid : ℕ) : Step := .step pid ⟨3600000, none⟩

/-- Two logs, the second of which flushes the cache, a `clear`, and another log. -/
def oneByOne : List Step :=
  [.call 1 (note "a"), go 1, .call 2 (note "b"), go 2, go 2, go 2, .call 3 (.clear true), go 3, go 3, go 3, go 3, go 3,
    go 3, .call 4 (note "c"), go 4]

/-- A log between the flush of another one and the reset. -/
def inBetween : List Step :=
  [.call 1 (note "a"), go 1, .call 2 (note "b"), go 2, go 2, .call 3 (note "c"), go 3, go 2]

end Runs

end NodeToolkit.FsLogger
