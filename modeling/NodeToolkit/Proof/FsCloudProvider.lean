import NodeToolkit.Spec.FsCloudProvider

/-!
# Uploads that keep apart

Uploads and deletes, interleaved at their awaits. The path of an upload is made of its folder, the clock and
the name of the file (`destination`), so two uploads can have the same.

* `Live`: an upload that has copied its file, and whose id has not been deleted: no delete of it has unlinked
  a file.
* `Apart`: the condition, on destinations and ids alone. No file is copied to the destination of a live upload,
  and a delete does not unlink that of a live upload with another id.
* `uploads_kept`: in such runs, each id returned and not deleted leads to the content uploaded under it;
  `clobbered`: two uploads of one millisecond.
* `kept_of_newDestinations`: such are the runs whose uploads all have different destinations, whatever is deleted.
-/

namespace NodeToolkit.FsCloudProvider

open Async Media

variable {uuid : ℕ → String} {config : Config} {toLowerCase : String → String}

abbrev Calls : Type := Pool Resp Stores Call Reply

abbrev Running : Type := Proc Resp Call Reply

abbrev Step : Type := Ev Choice Empty Call

/-! ## What a call has done -/

def contentOf : (Σ c : Cmd, Resp c) → Option String
  | ⟨.copyFile _ _, .ok content⟩ => some content
  | _ => none

def idOf : (Σ c : Cmd, Resp c) → Option String
  | ⟨.save _, id⟩ => some id
  | _ => none

def pathOf : (Σ c : Cmd, Resp c) → Option String
  | ⟨.ofId _, path⟩ => path
  | _ => none

/-- The content that an upload has copied. -/
def copied (h : Hist Resp) : Option String := h.findSome? contentOf

/-- The id under which an upload has saved its path. -/
def saved (h : Hist Resp) : Option String := h.findSome? idOf

/-- The path that a delete has found. -/
def found (h : Hist Resp) : Option String := h.findSome? pathOf

def removesFile : (Σ c : Cmd, Resp c) → Bool
  | ⟨.unlink _, .ok _⟩ => true
  | _ => false

/-- A delete has unlinked the file that it has found. -/
def unlinked (h : Hist Resp) : Bool := h.any removesFile

section Snoc

variable (h : Hist Resp) (e : Σ c : Cmd, Resp c)

theorem copied_snoc : copied (h ++ [e]) = (copied h).or (contentOf e) := by
  unfold copied
  rw [List.findSome?_append, List.findSome?_singleton]

theorem saved_snoc : saved (h ++ [e]) = (saved h).or (idOf e) := by
  unfold saved
  rw [List.findSome?_append, List.findSome?_singleton]

theorem found_snoc : found (h ++ [e]) = (found h).or (pathOf e) := by
  unfold found
  rw [List.findSome?_append, List.findSome?_singleton]

theorem unlinked_snoc : unlinked (h ++ [e]) = (unlinked h || removesFile e) := by
  unfold unlinked
  rw [List.any_append, List.any_cons, List.any_nil, Bool.or_false]

end Snoc

/-- What a call may do after a history. -/
def may (config : Config) (toLowerCase : String → String) : Call → Hist Resp → Cmd → Prop
  | .upload _, h, .mkdir _ => copied h = none ∧ saved h = none
  | .upload x, h, .copyFile _ path => path = destination config toLowerCase x ∧ copied h = none ∧ saved h = none
  | .upload x, h, .save path => path = destination config toLowerCase x ∧ copied h ≠ none ∧ saved h = none
  | .delete id, h, .ofId id' => id' = id ∧ found h = none
  | .delete _, h, .unlink path => found h = some path
  | _, _, _ => False

/-- What a call may return after a history. -/
def fin : Call → Hist Resp → Reply → Prop
  | .upload _, h, .uploaded (.ok uploaded) => copied h ≠ none ∧ saved h = some uploaded.idInCloud
  | .upload _, _, .uploaded (.error _) => True
  | .delete _, _, .deleted _ => True
  | _, _, _ => False

/-- The protocol of an upload and of a delete. -/
theorem prog_follows (x : Call) :
    (prog config toLowerCase x).Follows (.ofHist (may config toLowerCase x) (fin x)) [] := by
  cases x with
  | upload x =>
    refine ⟨⟨rfl, rfl⟩, fun made => ?_⟩
    match made with
    | .error e => exact trivial
    | .ok _ =>
      refine ⟨⟨rfl, rfl, rfl⟩, fun copy => ?_⟩
      match copy with
      | .error e => exact trivial
      | .ok content =>
        exact ⟨⟨rfl, Option.some_ne_none content, rfl⟩, fun id => ⟨Option.some_ne_none content, rfl⟩⟩
  | delete id =>
    refine ⟨⟨rfl, rfl⟩, fun path => ?_⟩
    match path with
    | none => exact trivial
    | some path =>
      have hunlink : ((if path = "" then .ret (.ok ())
          else .await (.unlink path) .ret : Client (Except String Unit)) >>= fun r => .ret (.deleted r)).Follows
          (.ofHist (may config toLowerCase (.delete id)) (fin (.delete id))) [⟨.ofId id, some path⟩] := by
        split
        · exact trivial
        · exact ⟨rfl, fun _ => trivial⟩
      exact hunlink

/-! ## What is asked of all calls -/

/-- The path to which an upload copies its file. -/
def Call.target (config : Config) (toLowerCase : String → String) : Call → Option String
  | .upload x => some (destination config toLowerCase x)
  | .delete _ => none

/-- The id that a call is to delete. -/
def Call.deletes : Call → Option String
  | .upload _ => none
  | .delete id => some id

/-- A call to delete the id has unlinked its file. -/
def Deleted (w : Calls) (id : String) : Prop :=
  ∃ e ∈ w.procs.entries, e.2.call.deletes = some id ∧ unlinked e.2.hist = true

instance (w : Calls) (id : String) : Decidable (Deleted w id) :=
  inferInstanceAs (Decidable (∃ e ∈ w.procs.entries, e.2.call.deletes = some id ∧ unlinked e.2.hist = true))

/-- **Each id returned** and not deleted leads to the content uploaded under it. -/
def Kept (w : Calls) : Prop :=
  ∀ q p x uploaded, w.procs.get q = some p → p.call = .upload x → p.result = some (.uploaded (.ok uploaded)) →
    ¬ Deleted w uploaded.idInCloud → ∃ path content, copied p.hist = some content ∧
      w.st.paths.get uploaded.idInCloud = some path ∧ w.st.files.get path = some content

/-- The call has copied a file, and its id has not been deleted. -/
def Live (w : Calls) (p : Running) : Prop := copied p.hist ≠ none ∧ ∀ id ∈ saved p.hist, ¬ Deleted w id

instance (w : Calls) (p : Running) : Decidable (Live w p) := inferInstanceAs (Decidable (_ ∧ _))

/-- The path of the command is not the destination of a live upload, but for that of the id to delete. -/
def Free (config : Config) (toLowerCase : String → String) (w : Calls) (p : Running) : Cmd → Prop
  | .copyFile _ path => ∀ e ∈ w.procs.entries, Live w e.2 → e.2.call.target config toLowerCase ≠ some path
  | .unlink path => ∀ e ∈ w.procs.entries, Live w e.2 → e.2.call.target config toLowerCase = some path →
    saved e.2.hist = p.call.deletes
  | _ => True

/-- **The condition** on a step: no file is copied to the destination of a live upload, and a delete does not
unlink the destination of a live upload with another id. -/
def Apart (config : Config) (toLowerCase : String → String) (w : Calls) : Step → Prop
  | .step pid i => i.failure = none → ∀ p ∈ w.procs.get pid, ∀ c ∈ p.pending, Free config toLowerCase w p c
  | .call _ _ => True
  | .env _ => True

instance (w : Calls) (p : Running) : ∀ c : Cmd, Decidable (Free config toLowerCase w p c)
  | .copyFile _ path => inferInstanceAs (Decidable (∀ e ∈ w.procs.entries, Live w e.2 →
      e.2.call.target config toLowerCase ≠ some path))
  | .unlink path => inferInstanceAs (Decidable (∀ e ∈ w.procs.entries, Live w e.2 →
      e.2.call.target config toLowerCase = some path → saved e.2.hist = p.call.deletes))
  | .mkdir _ | .save _ | .ofId _ => inferInstanceAs (Decidable True)

instance (w : Calls) : ∀ e : Step, Decidable (Apart config toLowerCase w e)
  | .step pid i => inferInstanceAs (Decidable (i.failure = none → ∀ p ∈ w.procs.get pid, ∀ c ∈ p.pending,
      Free config toLowerCase w p c))
  | .call _ _ | .env _ => inferInstanceAs (Decidable True)

theorem Call.eq_delete {x : Call} {id : String} (h : x.deletes = some id) : x = .delete id := by
  cases x with
  | upload x => cases h
  | delete id' =>
    cases h
    rfl

theorem deleted_iff {w : Calls} {id : String} : Deleted w id ↔
    ∃ q p, w.procs.get q = some p ∧ p.call.deletes = some id ∧ unlinked p.hist = true := by
  constructor
  · rintro ⟨⟨q, p⟩, he, h⟩
    exact ⟨q, p, OMap.get_eq_some.2 he, h⟩
  · rintro ⟨q, p, hp, h⟩
    exact ⟨(q, p), OMap.get_eq_some.1 hp, h⟩

/-- **The invariant**: the file of a live upload has its content, and the path of a saved upload is stored
under an id that has been generated. -/
structure Stored (uuid : ℕ → String) (config : Config) (toLowerCase : String → String) (w : Calls) : Prop where
  keeps : w.Keeps (may config toLowerCase) fin
  files : ∀ q p x content, w.procs.get q = some p → p.call = .upload x → Live w p → copied p.hist = some content →
    w.st.files.get (destination config toLowerCase x) = some content
  paths : ∀ q p x, w.procs.get q = some p → p.call = .upload x → ∀ id, saved p.hist = some id →
    (∃ n < w.st.generated, id = uuid n) ∧ w.st.paths.get id = some (destination config toLowerCase x)

section Stored

variable {w : Calls} {pid : ℕ}

theorem stored_init (s : Stores) : Stored uuid config toLowerCase (Pool.init s) where
  keeps := Pool.obeys_init _ _ _
  files := fun q p x content h => by simp [Pool.init] at h
  paths := fun q p x h => by simp [Pool.init] at h

/-- What has been deleted stays so when a call starts. -/
theorem deleted_begin (hn : w.procs.get pid = none) {x : Call} {id : String} (h : Deleted w id) :
    Deleted ((machine uuid config toLowerCase).begin w pid x) id := by
  obtain ⟨q, p, hp, h⟩ := deleted_iff.1 h
  exact deleted_iff.2 ⟨q, p, Machine.begin_stays hn hp, h⟩

/-- A call that begins has copied and saved nothing. -/
theorem Stored.call (hw : Stored uuid config toLowerCase w) {x : Call} (hn : w.procs.get pid = none) :
    Stored uuid config toLowerCase ((machine uuid config toLowerCase).begin w pid x) where
  keeps := Machine.begin_obeys hw.keeps pid (prog_follows x)
  files := by
    intro q p y content hp hcall hlive hcopied
    rcases Machine.begin_cases hp with ⟨rfl, rfl⟩ | ⟨-, hp⟩
    · cases hcopied
    · have hbefore : Live w p := ⟨hlive.1, fun id hid hdel => hlive.2 id hid (deleted_begin hn hdel)⟩
      exact hw.files q p y content hp hcall hbefore hcopied
  paths := by
    intro q p y hp hcall id hid
    rcases Machine.begin_cases hp with ⟨rfl, rfl⟩ | ⟨-, hp⟩
    · cases hid
    · exact hw.paths q p y hp hcall id hid

section Step

variable {i : Choice} {p : Running} {c : Cmd} {k : Resp c → Client Reply}

/-- What is deleted stays so. -/
theorem deleted_advance (hp : w.procs.get pid = some p) {id : String} (h : Deleted w id) :
    Deleted ((machine uuid config toLowerCase).advance w pid i p c k) id := by
  obtain ⟨q, p', hp', hcall, hunlinked⟩ := deleted_iff.1 h
  by_cases hq : q = pid
  · subst hq
    obtain rfl := Option.some.inj (hp.symm.trans hp')
    refine deleted_iff.2 ⟨q, _, Machine.get_advance_self, hcall, ?_⟩
    rw [unlinked_snoc, hunlinked, Bool.true_or]
  · exact deleted_iff.2 ⟨q, p', (Machine.get_advance_ne hq).trans hp', hcall, hunlinked⟩

/-- An upload that is live after a command was so before, or the command has copied its file. -/
theorem live_advance (hp : w.procs.get pid = some p) {q : ℕ} {p' : Running} {content : String}
    (hp' : ((machine uuid config toLowerCase).advance w pid i p c k).procs.get q = some p')
    (hlive : Live ((machine uuid config toLowerCase).advance w pid i p c k) p')
    (hcopied : copied p'.hist = some content) :
    (∃ p₀, w.procs.get q = some p₀ ∧ p₀.call = p'.call ∧ Live w p₀ ∧ copied p₀.hist = some content) ∨
      p.call = p'.call ∧ contentOf ⟨c, (exec uuid i w.st c).2⟩ = some content := by
  rcases Machine.advance_cases hp' with ⟨rfl, rfl⟩ | ⟨-, hp'⟩
  · dsimp only at hcopied
    rw [copied_snoc] at hcopied
    cases hbefore : copied p.hist with
    | none =>
      rw [hbefore] at hcopied
      exact Or.inr ⟨rfl, hcopied⟩
    | some content' =>
      rw [hbefore] at hcopied
      refine Or.inl ⟨p, hp, rfl, ⟨?_, fun id hid hdel => ?_⟩, hbefore.trans hcopied⟩
      · rw [hbefore]
        exact Option.some_ne_none content'
      · have hsaved : saved (p.hist ++ [⟨c, (exec uuid i w.st c).2⟩]) = some id := by
          rw [saved_snoc, Option.mem_def.1 hid]
          rfl
        exact hlive.2 id hsaved (deleted_advance hp hdel)
  · refine Or.inl ⟨p', hp', rfl, ⟨hlive.1, fun id hid hdel => hlive.2 id hid (deleted_advance hp hdel)⟩, hcopied⟩

/-- **An unlinked file** is not that of an upload that is live afterwards. -/
theorem Stored.unlink_ne (hw : Stored uuid config toLowerCase w) {path : String} (hp : w.procs.get pid = some p)
    {k : Resp (.unlink path) → Client Reply} (hr : p.rest = .await (.unlink path) k)
    (hfree : Free config toLowerCase w p (.unlink path))
    (hok : removesFile ⟨.unlink path, (exec uuid i w.st (.unlink path)).2⟩ = true) {q : ℕ} {p' : Running} {x : Upload}
    (hp' : ((machine uuid config toLowerCase).advance w pid i p (.unlink path) k).procs.get q = some p')
    (hcall : p'.call = .upload x)
    (hlive : Live ((machine uuid config toLowerCase).advance w pid i p (.unlink path) k) p') :
    destination config toLowerCase x ≠ path := by
  intro hdest
  have hmay := hw.keeps.allowed hp hr
  have hold : w.procs.get q = some p' := by
    rcases Machine.advance_cases hp' with ⟨rfl, rfl⟩ | ⟨-, hold⟩
    · dsimp only at hcall
      rw [hcall] at hmay
      exact hmay.elim
    · exact hold
  have hbefore : Live w p' := ⟨hlive.1, fun id hid hdel => hlive.2 id hid (deleted_advance hp hdel)⟩
  have htarget : p'.call.target config toLowerCase = some path := by
    rw [hcall, ← hdest]
    rfl
  have hsaved := hfree (q, p') (OMap.get_eq_some.1 hold) hbefore htarget
  cases hdel : p.call with
  | upload y =>
    rw [hdel] at hmay
    exact hmay
  | delete id =>
    rw [hdel] at hsaved
    refine hlive.2 id hsaved (deleted_iff.2 ⟨pid, _, Machine.get_advance_self, ?_, ?_⟩)
    · rw [hdel]
      rfl
    · rw [unlinked_snoc]
      exact Bool.or_eq_true_iff.2 (Or.inr hok)

/-- **What a command does to the files**: nothing, or it copies one, or it unlinks one. -/
theorem exec_files (uuid : ℕ → String) (i : Choice) (s : Stores) (c : Cmd) :
    ((exec uuid i s c).1.files = s.files ∧ contentOf ⟨c, (exec uuid i s c).2⟩ = none) ∨
    (∃ source path content, c = .copyFile source path ∧ i.failure = none ∧
      (exec uuid i s c).1.files = s.files.set path content ∧ contentOf ⟨c, (exec uuid i s c).2⟩ = some content) ∨
    ∃ path, c = .unlink path ∧ i.failure = none ∧ (exec uuid i s c).1.files = s.files.erase path ∧
      contentOf ⟨c, (exec uuid i s c).2⟩ = none ∧ removesFile ⟨c, (exec uuid i s c).2⟩ = true := by
  cases c with
  | mkdir folder => cases hf : i.failure <;> exact Or.inl (by simp [exec, hf, contentOf])
  | save path => exact Or.inl ⟨rfl, rfl⟩
  | ofId id => exact Or.inl ⟨rfl, rfl⟩
  | copyFile source path =>
    cases hf : i.failure with
    | some message => exact Or.inl (by simp [exec, hf, contentOf])
    | none =>
      cases hget : s.files.get source with
      | none => exact Or.inl (by simp [exec, hf, hget, contentOf])
      | some content =>
        refine Or.inr (Or.inl ⟨source, path, content, rfl, rfl, ?_, ?_⟩)
        · simp [exec, hf, hget]
        · simp [exec, hf, hget, contentOf]
  | unlink path =>
    cases hf : i.failure with
    | some message => exact Or.inl (by simp [exec, hf, contentOf])
    | none =>
      cases hget : s.files.get path with
      | none => exact Or.inl (by simp [exec, hf, hget, contentOf])
      | some old =>
        refine Or.inr (Or.inr ⟨path, rfl, rfl, ?_, rfl, ?_⟩)
        · simp [exec, hf, hget]
        · simp [exec, hf, hget, removesFile]

/-- The files after a command are right, as long as it keeps apart. -/
theorem Stored.step_files (hw : Stored uuid config toLowerCase w) (hp : w.procs.get pid = some p)
    (hr : p.rest = .await c k) (hapart : Apart config toLowerCase w (.step pid i)) {q : ℕ} {p' : Running} {x : Upload}
    {content : String} (hp' : ((machine uuid config toLowerCase).advance w pid i p c k).procs.get q = some p')
    (hcall : p'.call = .upload x) (hlive : Live ((machine uuid config toLowerCase).advance w pid i p c k) p')
    (hcopied : copied p'.hist = some content) :
    (exec uuid i w.st c).1.files.get (destination config toLowerCase x) = some content := by
  have hmay := hw.keeps.allowed hp hr
  have hbefore := live_advance hp hp' hlive hcopied
  have hfree : i.failure = none → Free config toLowerCase w p c :=
    fun hf => hapart hf p hp c (by simp [Proc.pending, hr])
  -- a command that copies nothing makes no upload live
  have hsame : contentOf ⟨c, (exec uuid i w.st c).2⟩ = none →
      w.st.files.get (destination config toLowerCase x) = some content := by
    intro hnone
    rcases hbefore with ⟨p₀, hp₀, hcall₀, hlive₀, hcopied₀⟩ | ⟨-, h⟩
    · exact hw.files q p₀ x content hp₀ (hcall₀.trans hcall) hlive₀ hcopied₀
    · rw [hnone] at h
      cases h
  rcases exec_files uuid i w.st c with ⟨hfiles, hnone⟩ | ⟨source, path, copy, rfl, hf, hfiles, hcopy⟩ |
    ⟨path, rfl, hf, hfiles, hnone, hok⟩
  · rw [hfiles]
    exact hsame hnone
  · rw [hfiles, OMap.get_set]
    rcases hbefore with ⟨p₀, hp₀, hcall₀, hlive₀, hcopied₀⟩ | ⟨hsamecall, h⟩
    · -- another upload is live, and the copy goes elsewhere
      have htarget : p₀.call.target config toLowerCase = some (destination config toLowerCase x) := by
        rw [hcall₀, hcall]
        rfl
      have hne : path ≠ destination config toLowerCase x := by
        rintro rfl
        exact hfree hf (q, p₀) (OMap.get_eq_some.1 hp₀) hlive₀ htarget
      rw [if_neg hne]
      exact hw.files q p₀ x content hp₀ (hcall₀.trans hcall) hlive₀ hcopied₀
    · rw [hsamecall, hcall] at hmay
      rw [if_pos hmay.1, ← hcopy]
      exact h
  · have hne := hw.unlink_ne hp hr (hfree hf) hok hp' hcall hlive
    rw [hfiles, OMap.get_erase, if_neg hne.symm]
    exact hsame hnone

/-- A command that saves no path. -/
theorem exec_paths (hc : idOf ⟨c, (exec uuid i w.st c).2⟩ = none) :
    (exec uuid i w.st c).1.paths = w.st.paths ∧ (exec uuid i w.st c).1.generated = w.st.generated := by
  cases c with
  | mkdir folder =>
    dsimp only [exec]
    split <;> exact ⟨rfl, rfl⟩
  | copyFile source path =>
    dsimp only [exec]
    split
    · exact ⟨rfl, rfl⟩
    · split <;> exact ⟨rfl, rfl⟩
  | save path => cases hc
  | ofId id => exact ⟨rfl, rfl⟩
  | unlink path =>
    dsimp only [exec]
    split
    · exact ⟨rfl, rfl⟩
    · split <;> exact ⟨rfl, rfl⟩

theorem Stored.step_paths (hu : Function.Injective uuid) (hw : Stored uuid config toLowerCase w)
    (hp : w.procs.get pid = some p) (hr : p.rest = .await c k) {q : ℕ} {p' : Running} {x : Upload} {id : String}
    (hp' : ((machine uuid config toLowerCase).advance w pid i p c k).procs.get q = some p')
    (hcall : p'.call = .upload x) (hid : saved p'.hist = some id) :
    (∃ n < (exec uuid i w.st c).1.generated, id = uuid n) ∧
      (exec uuid i w.st c).1.paths.get id = some (destination config toLowerCase x) := by
  have hmay := hw.keeps.allowed hp hr
  by_cases hsave : idOf ⟨c, (exec uuid i w.st c).2⟩ = none
  · obtain ⟨hpaths, hgenerated⟩ := exec_paths hsave
    rw [hpaths, hgenerated]
    rcases Machine.advance_cases hp' with ⟨rfl, rfl⟩ | ⟨-, hp'⟩
    · refine hw.paths q p x hp hcall id ?_
      have hboth : (saved p.hist).or (idOf ⟨c, (exec uuid i w.st c).2⟩) = some id := (saved_snoc ..).symm.trans hid
      rwa [hsave, Option.or_none] at hboth
    · exact hw.paths q p' x hp' hcall id hid
  · cases c with
    | save path =>
      rcases Machine.advance_cases hp' with ⟨rfl, rfl⟩ | ⟨-, hp'⟩
      · dsimp only at hcall
        rw [hcall] at hmay
        obtain ⟨rfl, -, hnone⟩ := hmay
        have hboth : (saved p.hist).or (some (uuid w.st.generated)) = some id := (saved_snoc ..).symm.trans hid
        rw [hnone] at hboth
        cases hboth
        exact ⟨⟨_, Nat.lt_succ_self _, rfl⟩, OMap.get_set_self ..⟩
      · obtain ⟨⟨n, hn, rfl⟩, hpath⟩ := hw.paths q p' x hp' hcall id hid
        have hne : uuid w.st.generated ≠ uuid n := fun h => by
          have heq := hu h
          omega
        exact ⟨⟨n, Nat.lt_succ_of_lt hn, rfl⟩, (OMap.get_set_ne _ _ hne).trans hpath⟩
    | mkdir folder => exact absurd rfl hsave
    | copyFile source path => exact absurd rfl hsave
    | ofId id' => exact absurd rfl hsave
    | unlink path => exact absurd rfl hsave

/-- **A step** of an upload or a delete that goes by no live file of another. -/
theorem Stored.step (hu : Function.Injective uuid) (hw : Stored uuid config toLowerCase w)
    (hp : w.procs.get pid = some p) (hr : p.rest = .await c k) (hapart : Apart config toLowerCase w (.step pid i)) :
    Stored uuid config toLowerCase ((machine uuid config toLowerCase).advance w pid i p c k) where
  keeps := Machine.advance_obeys hw.keeps i hp hr
  files := fun _ _ _ _ hp' hcall hlive hcopied => hw.step_files hp hr hapart hp' hcall hlive hcopied
  paths := fun _ _ _ hp' hcall _ hid => hw.step_paths hu hp hr hp' hcall hid

end Step

/-- What is returned is kept. -/
theorem Stored.kept (hw : Stored uuid config toLowerCase w) : Kept w := by
  intro q p x uploaded hp hcall hresult hdeleted
  have hfin := hw.keeps.returned hp hresult
  rw [hcall] at hfin
  obtain ⟨hcopied, hsaved⟩ := hfin
  obtain ⟨content, hcontent⟩ := Option.ne_none_iff_exists'.1 hcopied
  have hlive : Live w p := by
    refine ⟨hcopied, fun id hid => ?_⟩
    rw [hsaved] at hid
    cases hid
    exact hdeleted
  exact ⟨_, content, hcontent, (hw.paths q p x hp hcall _ hsaved).2, hw.files q p x content hp hcall hlive hcontent⟩

/-- **Every run** that keeps apart. -/
theorem kept_run (hu : Function.Injective uuid) (s : Stores) {es : List Step}
    (hes : (machine uuid config toLowerCase).Along (Apart config toLowerCase) (Pool.init s) es) {v : List Step}
    (hv : v <+: es) : Kept ((machine uuid config toLowerCase).run (Pool.init s) v) := by
  obtain ⟨u, rfl⟩ := hv
  refine Stored.kept (Machine.run_inv (G := Apart config toLowerCase) (fun w pid x hw _ hn => hw.call hn)
    (fun w pid i p c k hw hG hp hr => hw.step hu hp hr hG) (fun w v => v.elim) (stored_init s)
    (Machine.Along.append.1 hes).1)

end Stored

/-- **Uploads that keep apart do not clobber each other**: after any prefix of the run, what was returned and
not deleted is there. -/
theorem uploads_kept (hu : Function.Injective uuid) (s : Stores) {es : List Step}
    (hes : (machine uuid config toLowerCase).Along (Apart config toLowerCase) (Pool.init s) es) :
    ∀ v, v <+: es → Kept ((machine uuid config toLowerCase).run (Pool.init s) v) :=
  fun _ hv => kept_run hu s hes hv

/-! ## Different destinations -/

/-- No other upload has the destination of the one that is called. -/
def NewDestination (config : Config) (toLowerCase : String → String) (w : Calls) : Step → Prop
  | .call _ x => ∀ path ∈ x.target config toLowerCase, ∀ e ∈ w.procs.entries,
    e.2.call.target config toLowerCase ≠ some path
  | .step _ _ => True
  | .env _ => True

/-- The id is that of an upload to the path. -/
def Belongs (config : Config) (toLowerCase : String → String) (w : Calls) (id path : String) : Prop :=
  ∃ q p, w.procs.get q = some p ∧ p.call.target config toLowerCase = some path ∧ saved p.hist = some id

/-- **The invariant**: the uploads have different destinations, and each id leads to that of its upload, in the
repository and in what the deletes have found there. -/
structure Distinct (config : Config) (toLowerCase : String → String) (w : Calls) : Prop where
  keeps : w.Keeps (may config toLowerCase) fin
  targets : ∀ q q' p p' path, w.procs.get q = some p → w.procs.get q' = some p' →
    p.call.target config toLowerCase = some path → p'.call.target config toLowerCase = some path → q = q'
  paths : ∀ id path, w.st.paths.get id = some path → Belongs config toLowerCase w id path
  found : ∀ q p id path, w.procs.get q = some p → p.call = .delete id → found p.hist = some path →
    Belongs config toLowerCase w id path

section Distinct

variable {w : Calls} {pid : ℕ} {i : Choice} {p : Running} {c : Cmd} {k : Resp c → Client Reply} {id path : String}

theorem distinct_init {s : Stores} (hs : s.paths = .empty) : Distinct config toLowerCase (Pool.init s) where
  keeps := Pool.obeys_init _ _ _
  targets := fun q q' p p' path h => by simp [Pool.init] at h
  paths := fun id path h => by simp [Pool.init, hs] at h
  found := fun q p id path h => by simp [Pool.init] at h

theorem Belongs.begin (hn : w.procs.get pid = none) {x : Call} (h : Belongs config toLowerCase w id path) :
    Belongs config toLowerCase ((machine uuid config toLowerCase).begin w pid x) id path := by
  obtain ⟨q, p, hp, h⟩ := h
  exact ⟨q, p, Machine.begin_stays hn hp, h⟩

theorem Belongs.advance (hp : w.procs.get pid = some p) (h : Belongs config toLowerCase w id path) :
    Belongs config toLowerCase ((machine uuid config toLowerCase).advance w pid i p c k) id path := by
  obtain ⟨q, p', hp', htarget, hsaved⟩ := h
  by_cases hq : q = pid
  · subst hq
    obtain rfl := Option.some.inj (hp.symm.trans hp')
    refine ⟨q, _, Machine.get_advance_self, htarget, ?_⟩
    rw [saved_snoc, hsaved]
    rfl
  · exact ⟨q, p', (Machine.get_advance_ne hq).trans hp', htarget, hsaved⟩

/-- A call begins, an upload only to a destination of its own. -/
theorem Distinct.call (hw : Distinct config toLowerCase w) (hn : w.procs.get pid = none) {x : Call}
    (hx : NewDestination config toLowerCase w (.call pid x)) :
    Distinct config toLowerCase ((machine uuid config toLowerCase).begin w pid x) where
  keeps := Machine.begin_obeys hw.keeps pid (prog_follows x)
  targets := by
    intro q q' p p' path hp hp' htarget htarget'
    rcases Machine.begin_cases hp with ⟨rfl, rfl⟩ | ⟨-, hp⟩
    · rcases Machine.begin_cases hp' with ⟨rfl, -⟩ | ⟨-, hp'⟩
      · rfl
      · exact absurd htarget' (hx path htarget (q', p') (OMap.get_eq_some.1 hp'))
    · rcases Machine.begin_cases hp' with ⟨-, rfl⟩ | ⟨-, hp'⟩
      · exact absurd htarget (hx path htarget' (q, p) (OMap.get_eq_some.1 hp))
      · exact hw.targets q q' p p' path hp hp' htarget htarget'
  paths := fun id path hget => (hw.paths id path hget).begin hn
  found := by
    intro q p id path hp hcall hfound
    rcases Machine.begin_cases hp with ⟨-, rfl⟩ | ⟨-, hp⟩
    · cases hfound
    · exact (hw.found q p id path hp hcall hfound).begin hn

/-- The id of a path that the repository has after a command. -/
theorem Distinct.step_paths (hw : Distinct config toLowerCase w) (hp : w.procs.get pid = some p)
    (hr : p.rest = .await c k) (hget : (exec uuid i w.st c).1.paths.get id = some path) :
    Belongs config toLowerCase ((machine uuid config toLowerCase).advance w pid i p c k) id path := by
  by_cases hsave : idOf ⟨c, (exec uuid i w.st c).2⟩ = none
  · rw [(exec_paths hsave).1] at hget
    exact (hw.paths id path hget).advance hp
  · cases c with
    | save path' =>
      have hset : (w.st.paths.set (uuid w.st.generated) path').get id = some path := hget
      rw [OMap.get_set] at hset
      split at hset
      · rename_i hid
        subst hid
        cases hset
        have hmay := hw.keeps.allowed hp hr
        cases hcall : p.call with
        | delete id' =>
          rw [hcall] at hmay
          exact hmay.elim
        | upload x =>
          rw [hcall] at hmay
          refine ⟨pid, _, Machine.get_advance_self, ?_, ?_⟩
          · rw [hcall, hmay.1]
            rfl
          · rw [saved_snoc, hmay.2.2]
            rfl
      · exact (hw.paths id path hset).advance hp
    | mkdir folder => exact absurd rfl hsave
    | copyFile source path => exact absurd rfl hsave
    | ofId id' => exact absurd rfl hsave
    | unlink path => exact absurd rfl hsave

/-- A step keeps the destinations apart. -/
theorem Distinct.step (hw : Distinct config toLowerCase w) (hp : w.procs.get pid = some p) (hr : p.rest = .await c k) :
    Distinct config toLowerCase ((machine uuid config toLowerCase).advance w pid i p c k) where
  keeps := Machine.advance_obeys hw.keeps i hp hr
  targets := by
    have hcall : ∀ q p', ((machine uuid config toLowerCase).advance w pid i p c k).procs.get q = some p' →
        ∃ p₀, w.procs.get q = some p₀ ∧ p₀.call = p'.call := by
      intro q p' hq
      rcases Machine.advance_cases hq with ⟨rfl, rfl⟩ | ⟨-, hold⟩
      · exact ⟨p, hp, rfl⟩
      · exact ⟨p', hold, rfl⟩
    intro q q' p₁ p₂ path h₁ h₂ htarget htarget'
    obtain ⟨p₁', hp₁, hcall₁⟩ := hcall q p₁ h₁
    obtain ⟨p₂', hp₂, hcall₂⟩ := hcall q' p₂ h₂
    exact hw.targets q q' p₁' p₂' path hp₁ hp₂ (hcall₁ ▸ htarget) (hcall₂ ▸ htarget')
  paths := fun _ _ hget => hw.step_paths hp hr hget
  found := by
    intro q p' id path hq hcall hfound
    rcases Machine.advance_cases hq with ⟨rfl, rfl⟩ | ⟨-, hold⟩
    · dsimp only at hcall hfound
      rw [found_snoc] at hfound
      cases hbefore : FsCloudProvider.found p.hist with
      | some path' =>
        rw [hbefore] at hfound
        cases hfound
        exact (hw.found q p id path hp hcall hbefore).advance hp
      | none =>
        -- the delete looks its id up
        rw [hbefore, Option.none_or] at hfound
        have hmay := hw.keeps.allowed hp hr
        rw [hcall] at hmay
        cases c with
        | ofId id' =>
          obtain ⟨rfl, -⟩ := hmay
          have hget : w.st.paths.get id' = some path := hfound
          exact (hw.paths id' path hget).advance hp
        | mkdir folder => exact hmay.elim
        | copyFile source path => exact hmay.elim
        | save path => exact hmay.elim
        | unlink path => cases hfound
    · exact (hw.found q p' id path hold hcall hfound).advance hp

/-- **Different destinations keep apart**, whatever is deleted. -/
theorem Distinct.apart (hw : Distinct config toLowerCase w) : Apart config toLowerCase w (.step pid i) := by
  intro _ p hp c hc
  obtain ⟨k, hr⟩ := Proc.await_of_pending hc
  have hmay := hw.keeps.allowed hp hr
  cases c with
  | mkdir folder => trivial
  | save path => trivial
  | ofId id => trivial
  | copyFile source path =>
    rintro ⟨q, p'⟩ hq hlive htarget
    cases hcall : p.call with
    | delete id =>
      rw [hcall] at hmay
      exact hmay
    | upload x =>
      rw [hcall] at hmay
      have hown : p.call.target config toLowerCase = some path := by
        rw [hcall, hmay.1]
        rfl
      have hq' := OMap.get_eq_some.2 hq
      obtain rfl := hw.targets q pid p' p path hq' hp htarget hown
      obtain rfl := Option.some.inj (hq'.symm.trans hp)
      exact hlive.1 hmay.2.1
  | unlink path =>
    rintro ⟨q, p'⟩ hq hlive htarget
    cases hcall : p.call with
    | upload x =>
      rw [hcall] at hmay
      exact hmay.elim
    | delete id =>
      rw [hcall] at hmay
      obtain ⟨q', p₀, hp₀, htarget₀, hsaved⟩ := hw.found pid p id path hp hcall hmay
      have hq' := OMap.get_eq_some.2 hq
      obtain rfl := hw.targets q q' p' p₀ path hq' hp₀ htarget htarget₀
      obtain rfl := Option.some.inj (hq'.symm.trans hp₀)
      exact hsaved

end Distinct

/-- **Uploads with different destinations** are kept, whatever is deleted, from an empty repository. -/
theorem kept_of_newDestinations (hu : Function.Injective uuid) {s : Stores} (hs : s.paths = .empty) {es : List Step}
    (hes : (machine uuid config toLowerCase).Along (NewDestination config toLowerCase) (Pool.init s) es) {v : List Step}
    (hv : v <+: es) : Kept ((machine uuid config toLowerCase).run (Pool.init s) v) := by
  refine kept_run hu s (Machine.Along.of_inv (I := Distinct config toLowerCase) (G := NewDestination config toLowerCase)
    (fun w pid x hw hx hn => hw.call hn hx) (fun w pid i p c k hw _ hp hr => hw.step hp hr) (fun w v => v.elim)
    ?_ (distinct_init hs) hes) hv
  intro w e hw _
  cases e with
  | call pid x => trivial
  | step pid i => exact hw.apart
  | env v => trivial

/-- The ids of the examples. -/
def ids (n : ℕ) : String := String.ofList (List.replicate (n + 1) 'u')

theorem ids_injective : Function.Injective ids := by
  intro m n h
  have hlength := congrArg (fun s : String => s.toList.length) h
  simpa [ids] using hlength

/-- A file on the disk, uploaded in the sixth millisecond of 1970. -/
def picture (name source : String) : Upload :=
  ⟨⟨name, "image/png", 3, source⟩, "My docs", ⟨0, 0, 0, 0, 0, 0, 5⟩⟩

/-- Two files on the disk. -/
def disk : Stores := ⟨(OMap.empty.set "/tmp/1" "one").set "/tmp/2" "two", .empty, 0⟩

/-- Two uploads at once, the first is deleted, and its name is used again. -/
def nameAgain : List Step :=
  [.call 1 (.upload (picture "a.png" "/tmp/1")), .call 2 (.upload (picture "b.png" "/tmp/2")), .step 1 ⟨none⟩,
    .step 2 ⟨none⟩, .step 2 ⟨none⟩, .step 1 ⟨none⟩, .step 1 ⟨none⟩, .step 2 ⟨none⟩, .call 3 (.delete "u"),
    .step 3 ⟨none⟩, .step 3 ⟨none⟩, .call 4 (.upload (picture "a.png" "/tmp/2")), .step 4 ⟨none⟩, .step 4 ⟨none⟩,
    .step 4 ⟨none⟩]

theorem uploads_kept_nameAgain : Kept ((machine ids ⟨"storage", "/"⟩ id).run (Pool.init disk) nameAgain) ∧
    ((machine ids ⟨"storage", "/"⟩ id).run (Pool.init disk) nameAgain).st.files.values = ["one", "two", "two", "two"] :=
  ⟨uploads_kept ids_injective disk (by decide +kernel) nameAgain List.prefix_rfl, by decide +kernel⟩

/-- Two uploads of one millisecond, to the same folder, of files with the same name. -/
def sameMillisecond : List Step :=
  .call 1 (.upload (picture "a.png" "/tmp/1")) :: List.replicate 3 (.step 1 ⟨none⟩) ++
    .call 2 (.upload (picture "a.png" "/tmp/2")) :: List.replicate 3 (.step 2 ⟨none⟩)

/-- **The first file is clobbered** by the second. -/
theorem clobbered : ¬ Kept ((machine ids ⟨"storage", "/"⟩ id).run (Pool.init disk) sameMillisecond) := by
  intro h
  obtain ⟨path, content, hcopied, hpath, hfile⟩ := h 1 _ _ _ rfl rfl rfl (by decide +kernel)
  cases hcopied
  cases hpath
  revert hfile
  decide +kernel

end NodeToolkit.FsCloudProvider
