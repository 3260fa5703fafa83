import NodeToolkit.Async.Frame
import NodeToolkit.Async.Ledger
import NodeToolkit.Proof.Authorize
import NodeToolkit.Spec.MediaSystem

/-!
# Where assets and objects come from

Calls of the media manager, questions to its answers, and what happens to the broker, interleaved.

* `Ledger`: what the stores say about what has been done, kept by every command.
* `assets_accounted`: an asset is that of an upload that was permitted or asked for, and its object is there
  unless a delete that was permitted or asked for has removed it.
* `no_orphans`: when no call is in flight, every object is that of an asset.
* `cleared_for_good`: once the broker is cleared, no question reaches the media manager any more.
-/

namespace NodeToolkit.MediaSystem

open Async Media

variable {location : String → String} {supports : LocalFile → Bool} {s : State} {x : Call} {H : Hist Resp}

/-! ## What a call may do -/

/-- The upload that a call makes: a question needs no permission. -/
def Call.uploads : Call → Option UploadFileCommand
  | .upload session command =>
    if IsPermissionsMatches MediaPermissions.UploadFile session.acting then some command else none
  | .ask (.upload command) => some command
  | _ => none

/-- The asset that a call deletes. -/
def Call.deletes : Call → Option String
  | .delete session id => if IsPermissionsMatches MediaPermissions.DeleteFile session.acting then some id else none
  | .ask (.delete id) => some id
  | _ => none

/-- An object was uploaded. -/
abbrev uploaded (file : LocalFile) (folder : String) (u : Uploaded) : Σ c : Cmd, Resp c :=
  ⟨.stores (.upload file folder), .ok u⟩

abbrev saved (asset : MediaAsset) : Σ c : Cmd, Resp c := ⟨.stores (.save asset), ()⟩

abbrev deleted (idInCloud : String) : Σ c : Cmd, Resp c := ⟨.stores (.delete idInCloud), ()⟩

abbrev found (id : String) (asset : MediaAsset) : Σ c : Cmd, Resp c := ⟨.stores (.ofId id), some asset⟩

/-- What a call may do after its history. -/
def may (x : Call) (H : Hist Resp) : Cmd → Prop
  | .stores (.save a) => ∃ command, x.uploads = some command ∧ a.folder = command.folder ∧ a.label = command.label ∧
      ∃ file folder, uploaded file folder ⟨a.url, a.idInCloud⟩ ∈ H
  | .stores (.delete c) => ∃ id a, x.deletes = some id ∧ found id a ∈ H ∧ a.idInCloud = c
  | _ => True

/-- Every object that was uploaded has got an asset. -/
def Settled (H : Hist Resp) : Prop :=
  ∀ file folder u, uploaded file folder u ∈ H → ∃ a, saved a ∈ H ∧ a.idInCloud = u.idInCloud

/-- The call needs a permission that its session does not have. -/
def Call.Refused : Call → Prop
  | .upload session _ => ¬ IsPermissionsMatches MediaPermissions.UploadFile session.acting = true
  | .delete session _ => ¬ IsPermissionsMatches MediaPermissions.DeleteFile session.acting = true
  | _ => False

/-- What a call has done when it returns. -/
structure Finished (x : Call) (H : Hist Resp) (r : Reply) : Prop where
  refused : x.Refused → H = []
  settled : Settled H
  id : ∀ res, r = .uploaded (.ok res) → ∃ a, saved a ∈ H ∧ res = ⟨a.id, a.url⟩

/-- Nothing was uploaded. -/
def Idle (H : Hist Resp) : Prop := ∀ file folder u, uploaded file folder u ∉ H

theorem Idle.settled (h : Idle H) : Settled H := fun file folder u hu => absurd hu (h file folder u)

theorem idle_nil : Idle [] := fun _ _ _ h => nomatch h

theorem Idle.snoc {e : Σ c : Cmd, Resp c} (h : Idle H) (he : ∀ file folder u, e ≠ uploaded file folder u) :
    Idle (H ++ [e]) := by
  intro file folder u hu
  rcases List.mem_append.1 hu with hu | hu
  · exact h file folder u hu
  · exact he file folder u (List.mem_singleton.1 hu).symm

abbrev Keeping (x : Call) (p : Client Reply) (H : Hist Resp) : Prop := p.Follows (.ofHist (may x) (Finished x)) H

/-- A method runs with the permission, and without it nothing does. -/
theorem authorized_eq {α : Type} (permission : String) (session : Session) (method : Client (Except Failure α)) :
    authorized permission session method = if IsPermissionsMatches permission session.acting then method
      else .ret (.error (.authorization notAuthorized)) := by
  have hauth : Authorize permission (fun s => some (.session s)) (fun _ => method) [session] =
      if IsPermissionsMatches permission session.acting then .ran method else .threw notAuthorized :=
    authorize_of_session rfl
  rw [authorized, hauth]
  by_cases h : IsPermissionsMatches permission session.acting
  · rw [if_pos h, if_pos h]
  · rw [if_neg h, if_neg h]
    rfl

/-- What an upload does with the smaller file: an upload that compresses nothing. -/
def uploadSmaller (command : UploadFileCommand) :
    Except String LocalFile → Media.Client (Except Media.Exception UploadFileCommandResponse)
  | .error e => .ret (.error (.compressor e))
  | .ok small => .await (.unlink command.file.path) fun _ => upload (fun _ => false) { command with file := small }

/-- **An upload** with a compression goes on as one without. -/
theorem upload_eq {command : UploadFileCommand} : upload supports command =
    if supports command.file then .await (.compress command.file) (uploadSmaller command)
    else upload (fun _ => false) command := by
  by_cases h : supports command.file = true
  · rw [if_pos h]
    have hcompressed : compressed supports command.file = .await (.compress command.file) _ := if_pos h
    rw [upload, hcompressed, Prog.await_bind, Prog.await.injEq]
    refine ⟨rfl, heq_of_eq (funext fun result => ?_)⟩
    cases result with
    | error e => rfl
    | ok small =>
      have hplain : compressed (fun _ => false) ({ command with file := small } : UploadFileCommand).file =
          .ret (.ok small) := rfl
      rw [uploadSmaller, upload, hplain]
      simp only [Prog.ret_bind, Prog.await_bind]
      refine congrArg (Prog.await _) (funext fun _ => congrArg (Prog.await _) (funext fun res => ?_))
      cases res with
      | error e => rfl
      | ok u => rfl
  · rw [if_neg h]
    have hcompressed : compressed supports command.file = .ret (.ok command.file) := if_neg h
    rw [upload, hcompressed]
    rfl

/-- An upload that compresses nothing gives its object an asset at once. -/
theorem plain_keeps {command : UploadFileCommand} {k : Except Failure UploadFileCommandResponse → Client Reply}
    {uploading : UploadFileCommand} (hx : x.uploads = some uploading) (hfolder : command.folder = uploading.folder)
    (hlabel : command.label = uploading.label) (hH : Idle H) (herror : ∀ e H', Idle H' → Keeping x (k (.error e)) H')
    (hok : ∀ a H', Settled H' → saved a ∈ H' → Keeping x (k (.ok ⟨a.id, a.url⟩)) H') :
    Keeping x (facade (upload (fun _ => false) command) >>= k) H := by
  refine ⟨trivial, fun res => ?_⟩
  cases res with
  | error e => exact herror _ _ (hH.snoc fun _ _ _ => by simp)
  | ok u =>
    refine ⟨trivial, fun draft => ⟨?_, fun _ => ⟨trivial, fun _ => ?_⟩⟩⟩
    · refine ⟨uploading, hx, hfolder, hlabel, command.file, "myapp/" ++ command.folder, ?_⟩
      simp [Protocol.ofHist, CreateMediaAsset]
    · refine hok _ _ ?_ (by simp [Protocol.ofHist])
      intro file' folder' u' hu'
      refine ⟨CreateMediaAsset command.file command.folder command.label u.idInCloud u.url draft, ?_, ?_⟩
      · simp [Protocol.ofHist]
      have hlast : u' = u := by
        simp only [Protocol.ofHist, List.mem_append, List.mem_singleton] at hu'
        rcases hu' with (((hold | heq) | heq) | heq) | heq
        · exact absurd hold (hH _ _ _)
        · simp at heq
          exact heq.2
        all_goals simp at heq
      rw [hlast]
      rfl

/-- An upload of the facade keeps to what its call may do, and so does what comes after it. -/
theorem upload_keeps {command : UploadFileCommand} {k : Except Failure UploadFileCommandResponse → Client Reply}
    (hx : x.uploads = some command) (hH : Idle H) (herror : ∀ e H', Idle H' → Keeping x (k (.error e)) H')
    (hok : ∀ a H', Settled H' → saved a ∈ H' → Keeping x (k (.ok ⟨a.id, a.url⟩)) H') :
    Keeping x (facade (upload supports command) >>= k) H := by
  rw [upload_eq]
  by_cases hsupports : supports command.file = true
  · rw [if_pos hsupports]
    refine ⟨trivial, fun result => ?_⟩
    cases result with
    | error e => exact herror _ _ (hH.snoc fun _ _ _ => by simp)
    | ok small =>
      refine ⟨trivial, fun done => ?_⟩
      have hcompressed : Idle (H ++ [⟨.stores (.compress command.file), .ok small⟩]) := hH.snoc fun _ _ _ => by simp
      have hremoved : Idle (H ++ [⟨.stores (.compress command.file), .ok small⟩] ++
          [⟨.stores (.unlink command.file.path), done⟩]) := hcompressed.snoc fun _ _ _ => by simp
      exact plain_keeps hx rfl rfl hremoved herror hok
  · rw [if_neg hsupports]
    exact plain_keeps hx rfl rfl hH herror hok

/-- A delete of the facade keeps to what its call may do. -/
theorem delete_keeps {id : String} {k : Except Failure String → Client Reply} (hx : x.deletes = some id) (hH : Idle H)
    (hk : ∀ r H', Idle H' → Keeping x (k r) H') : Keeping x (facade (delete id) >>= k) H := by
  refine ⟨trivial, fun asset => ?_⟩
  cases asset with
  | none => exact hk _ _ (hH.snoc fun _ _ _ => by simp)
  | some asset =>
    refine ⟨⟨id, asset, hx, by simp [Protocol.ofHist], rfl⟩, fun _ => ?_⟩
    exact hk _ _ ((hH.snoc fun _ _ _ => by simp).snoc fun _ _ _ => by simp)

/-- **Every call** keeps to this. -/
theorem prog_keeps (x : Call) : Keeping x (prog supports x) [] := by
  -- what does not upload has nothing to settle
  have hplain : ∀ {H : Hist Resp} {r : Reply}, (x.Refused → H = []) → Idle H → (∀ res, r ≠ .uploaded (.ok res)) →
      Finished x H r := fun hrefused hH hr => ⟨hrefused, hH.settled, fun res h => absurd h (hr res)⟩
  cases x with
  | upload session command =>
    show Keeping _ (authorized _ session _ >>= _) _
    rw [authorized_eq]
    by_cases hmatch : IsPermissionsMatches MediaPermissions.UploadFile session.acting = true
    · rw [if_pos hmatch]
      refine upload_keeps (if_pos hmatch) idle_nil ?_ ?_
      · exact fun e H' hH' => hplain (fun h => absurd hmatch h) hH' fun res h => by simp at h
      · intro a H' hsettled hsaved
        refine ⟨fun h => absurd hmatch h, hsettled, fun res h => ⟨a, hsaved, ?_⟩⟩
        simpa using h.symm
    · rw [if_neg hmatch]
      exact hplain (fun _ => rfl) idle_nil fun res h => by simp at h
  | delete session id =>
    show Keeping _ (authorized _ session _ >>= _) _
    rw [authorized_eq]
    by_cases hmatch : IsPermissionsMatches MediaPermissions.DeleteFile session.acting = true
    · rw [if_pos hmatch]
      refine delete_keeps (if_pos hmatch) idle_nil ?_
      exact fun r H' hH' => hplain (fun h => absurd hmatch h) hH' fun res h => by simp at h
    · rw [if_neg hmatch]
      exact hplain (fun _ => rfl) idle_nil fun res h => by simp at h
  | getById id =>
    refine ⟨trivial, fun asset => ?_⟩
    cases asset <;> exact hplain False.elim (idle_nil.snoc fun _ _ _ => by simp) fun res h => by simp at h
  | ask question =>
    refine ⟨trivial, fun answer => ?_⟩
    have hidle : Idle [⟨Cmd.registered question.text, answer⟩] := idle_nil.snoc fun _ _ _ => by simp
    cases answer with
    | none => exact hplain False.elim hidle fun res h => by simp at h
    | some answer =>
      cases answer with
      | foreign => exact hplain False.elim hidle fun res h => by simp at h
      | media =>
        cases question with
        | other text => exact hplain False.elim hidle fun res h => by simp at h
        | upload command =>
          show Keeping _ ((facade (upload supports command) >>= _) >>= _) _
          rw [Prog.bind_assoc]
          refine upload_keeps rfl hidle ?_ ?_
          · exact fun e H' hH' => hplain False.elim hH' fun res h => by simp at h
          · exact fun a H' hsettled _ => ⟨False.elim, hsettled, fun res h => by simp at h⟩
        | delete id =>
          show Keeping _ ((facade (delete id) >>= _) >>= _) _
          rw [Prog.bind_assoc]
          refine delete_keeps rfl hidle ?_
          exact fun r H' hH' => hplain False.elim hH' fun res h => by simp at h
  | registerAnswer question =>
    exact ⟨trivial, fun _ => hplain False.elim (idle_nil.snoc fun _ _ _ => by simp) fun res h => by simp at h⟩
  | init => exact ⟨trivial, fun _ => hplain False.elim (idle_nil.snoc fun _ _ _ => by simp) fun res h => by simp at h⟩
  | clear => exact ⟨trivial, fun _ => hplain False.elim (idle_nil.snoc fun _ _ _ => by simp) fun res h => by simp at h⟩

/-! ## The books -/

/-- **What the stores say about what has been done.** -/
structure Ledger (location : String → String) (s : State) (D : Deeds Resp Call) : Prop where
  assets : ∀ id a, s.stores.assets.get id = some a → a.id = id ∧ ∃ x, D x (saved a)
  objects : ∀ c file, s.stores.objects.get c = some file → ∃ x file folder url, D x (uploaded file folder ⟨url, c⟩)
  uploads : ∀ x file folder u, D x (uploaded file folder u) → u.url = location u.idInCloud ∧
    (s.stores.objects.get u.idInCloud ≠ none ∨ ∃ y, D y (deleted u.idInCloud))
  saves : ∀ x a, D x (saved a) → s.stores.assets.get a.id = some a ∧
    ∃ command file folder, x.uploads = some command ∧ a.folder = command.folder ∧ a.label = command.label ∧
      D x (uploaded file folder ⟨a.url, a.idInCloud⟩)
  deletes : ∀ x c, D x (deleted c) → ∃ id a, x.deletes = some id ∧ s.stores.assets.get id = some a ∧ a.idInCloud = c
  finds : ∀ x id a, D x (found id a) → s.stores.assets.get id = some a

variable {D : Deeds Resp Call} {e : Σ c : Cmd, Resp c}

/-- A deed that the books do not say anything about. -/
structure Silent (e : Σ c : Cmd, Resp c) : Prop where
  upload : ∀ file folder u, e ≠ uploaded file folder u
  save : ∀ a, e ≠ saved a
  delete : ∀ c, e ≠ deleted c
  find : ∀ id a, e ≠ found id a

/-- A command that leaves the stores. -/
theorem Ledger.silent {s' : State} (hL : Ledger location s D) (hs : s'.stores = s.stores) (he : Silent e) :
    Ledger location s' (D.add x e) := by
  refine ⟨?_, ?_, ?_, ?_, ?_, ?_⟩
  · intro id a hget
    rw [hs] at hget
    obtain ⟨hid, y, hy⟩ := hL.assets id a hget
    exact ⟨hid, y, .inl hy⟩
  · intro c file hget
    rw [hs] at hget
    obtain ⟨y, file', folder, url, hy⟩ := hL.objects c file hget
    exact ⟨y, file', folder, url, .inl hy⟩
  · rintro y file folder u (hy | ⟨-, hy⟩)
    · rw [hs]
      obtain ⟨hurl, hobject⟩ := hL.uploads y file folder u hy
      exact ⟨hurl, hobject.imp_right fun ⟨z, hz⟩ => ⟨z, .inl hz⟩⟩
    · exact absurd hy.symm (he.upload file folder u)
  · rintro y a (hy | ⟨-, hy⟩)
    · rw [hs]
      obtain ⟨hget, command, file, folder, hmade, hfolder, hlabel, hupload⟩ := hL.saves y a hy
      exact ⟨hget, command, file, folder, hmade, hfolder, hlabel, .inl hupload⟩
    · exact absurd hy.symm (he.save a)
  · rintro y c (hy | ⟨-, hy⟩)
    · rw [hs]
      exact hL.deletes y c hy
    · exact absurd hy.symm (he.delete c)
  · rintro y id a (hy | ⟨-, hy⟩)
    · rw [hs]
      exact hL.finds y id a hy
    · exact absurd hy.symm (he.find id a)

/-- An object of an upload in flight. -/
theorem Ledger.upload (hL : Ledger location s D) (file : LocalFile) (folder id : String) :
    Ledger location { s with stores := { s.stores with objects := s.stores.objects.set id file } }
      (D.add x (uploaded file folder ⟨location id, id⟩)) := by
  refine ⟨?_, ?_, ?_, ?_, ?_, ?_⟩
  · intro id' a hget
    obtain ⟨hid, y, hy⟩ := hL.assets id' a hget
    exact ⟨hid, y, .inl hy⟩
  · intro c file' hget
    have hset : (s.stores.objects.set id file).get c = some file' := hget
    rw [OMap.get_set] at hset
    split at hset
    · rename_i hid
      subst hid
      exact ⟨x, file, folder, location id, Deeds.add_self⟩
    · obtain ⟨y, file', folder', url, hy⟩ := hL.objects c file' hset
      exact ⟨y, file', folder', url, .inl hy⟩
  · rintro y file' folder' u hy
    show _ ∧ ((s.stores.objects.set id file).get u.idInCloud ≠ none ∨ _)
    rw [OMap.get_set]
    rcases hy with hy | ⟨-, hy⟩
    · obtain ⟨hurl, hobject⟩ := hL.uploads y file' folder' u hy
      refine ⟨hurl, ?_⟩
      by_cases hid : id = u.idInCloud
      · rw [if_pos hid]
        exact .inl (Option.some_ne_none _)
      · rw [if_neg hid]
        exact hobject.imp_right fun ⟨z, hz⟩ => ⟨z, .inl hz⟩
    · have hu : u = ⟨location id, id⟩ := by simpa [uploaded] using And.right (by simpa using hy)
      subst hu
      rw [if_pos rfl]
      exact ⟨rfl, .inl (Option.some_ne_none _)⟩
  · rintro y a (hy | ⟨-, hy⟩)
    · obtain ⟨hget, command, file', folder', hmade, hfolder, hlabel, hupload⟩ := hL.saves y a hy
      exact ⟨hget, command, file', folder', hmade, hfolder, hlabel, .inl hupload⟩
    · simp at hy
  · rintro y c (hy | ⟨-, hy⟩)
    · exact hL.deletes y c hy
    · simp at hy
  · rintro y id' a (hy | ⟨-, hy⟩)
    · exact hL.finds y id' a hy
    · simp at hy

/-- The asset of an upload that is in the ledger. -/
theorem Ledger.save {a : MediaAsset} (hL : Ledger location s D) (hnew : s.stores.assets.get a.id = none)
    {command : UploadFileCommand} {file : LocalFile} {folder : String} (hmade : x.uploads = some command)
    (hfolder : a.folder = command.folder) (hlabel : a.label = command.label)
    (hupload : D x (uploaded file folder ⟨a.url, a.idInCloud⟩)) :
    Ledger location { s with stores := { s.stores with assets := s.stores.assets.set a.id a } }
      (D.add x (saved a)) := by
  -- the assets that are stored stay
  have hold : ∀ id b, s.stores.assets.get id = some b → (s.stores.assets.set a.id a).get id = some b := by
    intro id b hget
    have hne : a.id ≠ id := by
      rintro rfl
      rw [hnew] at hget
      cases hget
    rw [OMap.get_set_ne _ _ hne, hget]
  refine ⟨?_, ?_, ?_, ?_, ?_, ?_⟩
  · intro id b hget
    have hset : (s.stores.assets.set a.id a).get id = some b := hget
    rw [OMap.get_set] at hset
    split at hset
    · rename_i hid
      cases hset
      exact ⟨hid, x, Deeds.add_self⟩
    · obtain ⟨hid, y, hy⟩ := hL.assets id b hset
      exact ⟨hid, y, .inl hy⟩
  · intro c file' hget
    obtain ⟨y, file', folder', url, hy⟩ := hL.objects c file' hget
    exact ⟨y, file', folder', url, .inl hy⟩
  · rintro y file' folder' u (hy | ⟨-, hy⟩)
    · obtain ⟨hurl, hobject⟩ := hL.uploads y file' folder' u hy
      exact ⟨hurl, hobject.imp_right fun ⟨z, hz⟩ => ⟨z, .inl hz⟩⟩
    · simp at hy
  · rintro y b (hy | ⟨rfl, hy⟩)
    · obtain ⟨hget, command', file', folder', hmade', hfolder', hlabel', hupload'⟩ := hL.saves y b hy
      exact ⟨hold _ b hget, command', file', folder', hmade', hfolder', hlabel', .inl hupload'⟩
    · have hb : b = a := by simpa [saved] using hy
      subst hb
      exact ⟨OMap.get_set_self _ _ _, command, file, folder, hmade, hfolder, hlabel, .inl hupload⟩
  · rintro y c (hy | ⟨-, hy⟩)
    · obtain ⟨id, b, hdeletes, hget, hid⟩ := hL.deletes y c hy
      exact ⟨id, b, hdeletes, hold id b hget, hid⟩
    · simp at hy
  · rintro y id b (hy | ⟨-, hy⟩)
    · exact hold id b (hL.finds y id b hy)
    · simp at hy

/-- An asset that is found is entered. -/
theorem Ledger.find {id : String} {a : MediaAsset} (hL : Ledger location s D) (hget : s.stores.assets.get id = some a) :
    Ledger location s (D.add x (found id a)) := by
  refine ⟨?_, ?_, ?_, ?_, ?_, ?_⟩
  · intro id' b hget'
    obtain ⟨hid, y, hy⟩ := hL.assets id' b hget'
    exact ⟨hid, y, .inl hy⟩
  · intro c file hget'
    obtain ⟨y, file', folder, url, hy⟩ := hL.objects c file hget'
    exact ⟨y, file', folder, url, .inl hy⟩
  · rintro y file folder u (hy | ⟨-, hy⟩)
    · obtain ⟨hurl, hobject⟩ := hL.uploads y file folder u hy
      exact ⟨hurl, hobject.imp_right fun ⟨z, hz⟩ => ⟨z, .inl hz⟩⟩
    · simp at hy
  · rintro y b (hy | ⟨-, hy⟩)
    · obtain ⟨hget', command, file, folder, hmade, hfolder, hlabel, hupload⟩ := hL.saves y b hy
      exact ⟨hget', command, file, folder, hmade, hfolder, hlabel, .inl hupload⟩
    · simp at hy
  · rintro y c (hy | ⟨-, hy⟩)
    · exact hL.deletes y c hy
    · simp at hy
  · rintro y id' b (hy | ⟨-, hy⟩)
    · exact hL.finds y id' b hy
    · simp at hy
      obtain ⟨rfl, rfl⟩ := hy
      exact hget

/-- An object goes by a delete of its asset. -/
theorem Ledger.delete {c : String} (hL : Ledger location s D) (hdeletes : ∃ id a, x.deletes = some id ∧
    s.stores.assets.get id = some a ∧ a.idInCloud = c) :
    Ledger location { s with stores := { s.stores with objects := s.stores.objects.erase c } }
      (D.add x (deleted c)) := by
  refine ⟨?_, ?_, ?_, ?_, ?_, ?_⟩
  · intro id b hget
    obtain ⟨hid, y, hy⟩ := hL.assets id b hget
    exact ⟨hid, y, .inl hy⟩
  · intro c' file hget
    have herase : (s.stores.objects.erase c).get c' = some file := hget
    rw [OMap.get_erase] at herase
    split at herase
    · cases herase
    · obtain ⟨y, file', folder, url, hy⟩ := hL.objects c' file herase
      exact ⟨y, file', folder, url, .inl hy⟩
  · rintro y file folder u (hy | ⟨-, hy⟩)
    · obtain ⟨hurl, hobject⟩ := hL.uploads y file folder u hy
      refine ⟨hurl, ?_⟩
      show (s.stores.objects.erase c).get u.idInCloud ≠ none ∨ _
      rw [OMap.get_erase]
      by_cases hc : c = u.idInCloud
      · subst hc
        exact .inr ⟨x, Deeds.add_self⟩
      · rw [if_neg hc]
        exact hobject.imp_right fun ⟨z, hz⟩ => ⟨z, .inl hz⟩
    · simp at hy
  · rintro y b (hy | ⟨-, hy⟩)
    · obtain ⟨hget, command, file, folder, hmade, hfolder, hlabel, hupload⟩ := hL.saves y b hy
      exact ⟨hget, command, file, folder, hmade, hfolder, hlabel, .inl hupload⟩
    · simp at hy
  · rintro y c' (hy | ⟨rfl, hy⟩)
    · exact hL.deletes y c' hy
    · have hc : c' = c := by simpa [deleted] using hy
      subst hc
      exact hdeletes
  · rintro y id b (hy | ⟨-, hy⟩)
    · exact hL.finds y id b hy
    · simp at hy

/-- The ids of new assets are not in use. -/
def UnusedId (_ : Choice) (s : State) : Cmd → Prop
  | .stores (.save a) => s.stores.assets.get a.id = none
  | _ => True

instance (i : Choice) (s : State) : ∀ c : Cmd, Decidable (UnusedId i s c)
  | .stores (.save a) => inferInstanceAs (Decidable (s.stores.assets.get a.id = none))
  | .stores (.compress _) => .isTrue trivial
  | .stores (.unlink _) => .isTrue trivial
  | .stores (.upload _ _) => .isTrue trivial
  | .stores .draft => .isTrue trivial
  | .stores (.ofId _) => .isTrue trivial
  | .stores (.delete _) => .isTrue trivial
  | .registered _ => .isTrue trivial
  | .registerAnswer _ => .isTrue trivial
  | .init => .isTrue trivial
  | .clear => .isTrue trivial

/-- Registering an answer touches neither store. -/
theorem registerAnswer_stores (question : String) (answer : Answer) :
    (registerAnswer s question answer).1.stores = s.stores := by
  unfold registerAnswer
  split <;> rfl

theorem Init_stores : (Init s).1.stores = s.stores := by
  have hfirst := registerAnswer_stores (s := s) "Media.Upload" .media
  unfold Init
  split
  · rfl
  · split
    · rename_i h
      rw [h] at hfirst
      exact hfirst
    · rename_i s' _ h
      rw [h] at hfirst
      have hsecond := registerAnswer_stores (s := s') "Media.Delete" .media
      split
      · rename_i h'
        rw [h'] at hsecond
        exact hsecond.trans hfirst
      · rename_i h'
        rw [h'] at hsecond
        exact hsecond.trans hfirst

section Upload

variable {i : Choice} {file : LocalFile} {folder : String}

theorem exec_upload_error {message : String} (h : i.uploaded = .error message) :
    exec location i s (.stores (.upload file folder)) = (s, .error (CannotUploadFileException message)) := by
  simp [exec, Media.exec, h]

theorem exec_upload_ok {id : String} (h : i.uploaded = .ok id) : exec location i s (.stores (.upload file folder)) =
    ({ s with stores := { s.stores with objects := s.stores.objects.set id file } }, .ok ⟨location id, id⟩) := by
  simp [exec, Media.exec, h]

end Upload

/-- **Every command keeps the books.** -/
theorem ledger_books : (machine supports location).Books (Ledger location) may (fun _ => True) UnusedId where
  exec := by
    intro x D H i s c _ hL hH hmay hok
    cases c with
    | stores c =>
      cases c with
      | compress file => exact hL.silent rfl ⟨by simp, by simp, by simp, by simp⟩
      | unlink path => exact hL.silent rfl ⟨by simp, by simp, by simp, by simp⟩
      | draft => exact hL.silent rfl ⟨by simp, by simp, by simp, by simp⟩
      | upload file folder =>
        show Ledger location (exec location i s (.stores (.upload file folder))).1
          (D.add x ⟨.stores (.upload file folder), (exec location i s (.stores (.upload file folder))).2⟩)
        cases hup : i.uploaded with
        | error message =>
          rw [exec_upload_error hup]
          exact hL.silent rfl ⟨by simp, by simp, by simp, by simp⟩
        | ok id =>
          rw [exec_upload_ok hup]
          exact hL.upload file folder id
      | save a =>
        obtain ⟨command, hmade, hfolder, hlabel, file, folder, hupload⟩ := hmay
        exact hL.save hok hmade hfolder hlabel (hH _ hupload)
      | ofId id =>
        show Ledger location s (D.add x ⟨.stores (.ofId id), s.stores.assets.get id⟩)
        cases hget : s.stores.assets.get id with
        | none => exact hL.silent rfl ⟨by simp, by simp, by simp, by simp⟩
        | some a => exact hL.find hget
      | delete c =>
        obtain ⟨id, a, hdeletes, hfound, hc⟩ := hmay
        exact hL.delete ⟨id, a, hdeletes, hL.finds x id a (hH _ hfound), hc⟩
    | registered question => exact hL.silent rfl ⟨by simp, by simp, by simp, by simp⟩
    | registerAnswer question => exact hL.silent (registerAnswer_stores _ _) ⟨by simp, by simp, by simp, by simp⟩
    | init => exact hL.silent Init_stores ⟨by simp, by simp, by simp, by simp⟩
    | clear => exact hL.silent rfl ⟨by simp, by simp, by simp, by simp⟩
  enter := fun x D s _ hL => hL
  env := fun e => e.elim

/-! ## Every run -/

/-- A run from the start, in which the ids of new assets are not in use. -/
abbrev Fresh (location : String → String) (supports : LocalFile → Bool) (es : List (Ev Choice Empty Call)) : Prop :=
  (machine supports location).Along (Proper (fun _ => True) UnusedId) (Pool.init .start) es

/-- What a run from the start leads to. -/
abbrev after (location : String → String) (supports : LocalFile → Bool) (es : List (Ev Choice Empty Call)) :
    Pool Resp State Call Reply :=
  (machine supports location).run (Pool.init .start) es

theorem ledger_start : Ledger location .start fun _ _ => False where
  assets := fun _ _ h => nomatch h
  objects := fun _ _ h => nomatch h
  uploads := fun _ _ _ _ h => h.elim
  saves := fun _ _ h => h.elim
  deletes := fun _ _ h => h.elim
  finds := fun _ _ _ h => h.elim

/-- The ledger of every run in which generated ids are not in use. -/
theorem audited {es : List (Ev Choice Empty Call)} (hes : Fresh location supports es) :
    (after location supports es).Audited (Ledger location) may Finished fun _ => True :=
  run_books ledger_books (fun x _ => prog_keeps x) (audited_init ledger_start) hes

/-! A file is uploaded, asked for, and deleted. -/

def examplePlace (id : String) : String := "https://cloud/" ++ id

def exampleChoice : Choice where
  compressed := .error ""
  uploaded := .ok "c1"
  draft := ⟨"m1", 0⟩

def exampleFile : LocalFile where
  originalname := "a.png"
  mimetype := "image/png"
  size := 3
  path := "/tmp/a"

def exampleSession : Session where
  user := ⟨"u", ["*"]⟩
  apiKey := none
  client := none

/-- Nothing is compressed. -/
abbrev exampleAfter (es : List (Ev Choice Empty Call)) : Pool Resp State Call Reply :=
  after examplePlace (fun _ => false) es

def exampleUpload : List (Ev Choice Empty Call) :=
  .call 0 (.upload exampleSession ⟨exampleFile, "pictures", "a picture"⟩) :: List.replicate 4 (.step 0 exampleChoice)

def exampleDelete : List (Ev Choice Empty Call) :=
  .call 1 (.delete exampleSession "m1") :: List.replicate 2 (.step 1 exampleChoice)

def exampleQuery : List (Ev Choice Empty Call) := [.call 2 (.getById "m1"), .step 2 exampleChoice]

/-- A delete that was permitted, or asked for, has removed the object: that of the asset with the id. -/
def Removed (w : Pool Resp State Call Reply) (idInCloud : String) : Prop :=
  ∃ pid p id a, w.procs.get pid = some p ∧ p.call.deletes = some id ∧ deleted idInCloud ∈ p.hist ∧
    w.st.stores.assets.get id = some a ∧ a.idInCloud = idInCloud

/-- **Every asset is accounted for**, whatever runs at the same time: it was made by an upload that was permitted,
or asked for, with its folder and its label; it has the url of its object; and the object is there, unless such
a delete has removed it. -/
theorem assets_accounted {es : List (Ev Choice Empty Call)} (hes : Fresh location supports es) {id : String}
    {a : MediaAsset} (hget : (after location supports es).st.stores.assets.get id = some a) :
    let w := after location supports es
    a.id = id ∧ a.url = location a.idInCloud ∧
      (∃ pid p command, w.procs.get pid = some p ∧ p.call.uploads = some command ∧ saved a ∈ p.hist ∧
        a.folder = command.folder ∧ a.label = command.label) ∧
      (w.st.stores.objects.get a.idInCloud ≠ none ∨ Removed w a.idInCloud) := by
  have haudited := audited hes
  obtain ⟨hid, x, hsaved⟩ := haudited.books.assets id a hget
  obtain ⟨-, command, file, folder, hmade, hfolder, hlabel, hupload⟩ := haudited.books.saves x a hsaved
  obtain ⟨hurl, hobject⟩ := haudited.books.uploads x file folder _ hupload
  obtain ⟨pid, p, hp, rfl, hmem⟩ := hsaved
  refine ⟨hid, hurl, ⟨pid, p, command, hp, hmade, hmem, hfolder, hlabel⟩, hobject.imp_right ?_⟩
  rintro ⟨y, hy⟩
  obtain ⟨id', b, hdeletes, hget', hc⟩ := haudited.books.deletes y a.idInCloud hy
  obtain ⟨q, p', hp', rfl, hmem'⟩ := hy
  exact ⟨q, p', id', b, hp', hdeletes, hmem', hget', hc⟩

theorem assets_accounted_deleted :
    let w := exampleAfter (exampleUpload ++ exampleDelete)
    w.st.stores.objects.get "c1" = none ∧ Removed w "c1" := by
  have hnone : (exampleAfter (exampleUpload ++ exampleDelete)).st.stores.objects.get "c1" = none :=
    rfl
  have hget : (exampleAfter (exampleUpload ++ exampleDelete)).st.stores.assets.get "m1" =
      some ⟨"m1", "c1", "https://cloud/c1", "a picture", "pictures", "a.png", 0⟩ := rfl
  exact ⟨hnone, (assets_accounted (by decide +kernel) hget).2.2.2.resolve_left fun h => h hnone⟩

/-- **No orphans**: every object is that of an asset, or of an upload in flight. -/
theorem no_orphans {es : List (Ev Choice Empty Call)} (hes : Fresh location supports es) {idInCloud : String}
    {object : LocalFile} (hget : (after location supports es).st.stores.objects.get idInCloud = some object) :
    let w := after location supports es
    (∃ id a, w.st.stores.assets.get id = some a ∧ a.idInCloud = idInCloud) ∨
      ∃ pid p file folder url, w.procs.get pid = some p ∧ p.Running ∧
        uploaded file folder ⟨url, idInCloud⟩ ∈ p.hist := by
  have haudited := audited hes
  obtain ⟨x, file, folder, url, pid, p, hp, rfl, hmem⟩ := haudited.books.objects idInCloud object hget
  by_cases hrun : p.Running
  · exact .inr ⟨pid, p, file, folder, url, hp, hrun, hmem⟩
  · obtain ⟨r, hr⟩ := Option.ne_none_iff_exists'.1 hrun
    obtain ⟨a, hsaved, hc⟩ := (haudited.keeps.returned hp hr).settled file folder ⟨url, idInCloud⟩ hmem
    exact .inl ⟨a.id, a, (haudited.books.saves p.call a ⟨pid, p, hp, rfl, hsaved⟩).1, hc⟩

theorem no_orphans_uploaded : ∃ id a,
    (exampleAfter exampleUpload).st.stores.assets.get id = some a ∧ a.idInCloud = "c1" := by
  have hfresh : Fresh examplePlace (fun _ => false) exampleUpload := by decide +kernel
  have hobject : (exampleAfter exampleUpload).st.stores.objects.get "c1" = some exampleFile := by decide +kernel
  refine (no_orphans hfresh hobject).resolve_right ?_
  rintro ⟨pid, p, -, -, -, hp, hrun, -⟩
  have hquiet : (exampleAfter exampleUpload).Quiet := by decide +kernel
  exact hquiet pid p hp hrun

/-! ## What is served -/

/-- No command removes or changes an asset. -/
theorem asset_stays {i : Choice} {c : Cmd} {id : String} {a : MediaAsset} (hok : UnusedId i s c)
    (hget : s.stores.assets.get id = some a) : (exec location i s c).1.stores.assets.get id = some a := by
  cases c with
  | stores c =>
    cases c with
    | save b =>
      have hne : b.id ≠ id := by
        rintro rfl
        have hnone : s.stores.assets.get b.id = none := hok
        rw [hnone] at hget
        cases hget
      exact (OMap.get_set_ne _ _ hne).trans hget
    | upload file folder =>
      cases hup : i.uploaded with
      | error message =>
        rw [exec_upload_error hup]
        exact hget
      | ok id =>
        rw [exec_upload_ok hup]
        exact hget
    | compress file => exact hget
    | unlink path => exact hget
    | draft => exact hget
    | ofId id' => exact hget
    | delete c => exact hget
  | registered question => exact hget
  | registerAnswer question => exact (congrArg (·.assets.get id) (registerAnswer_stores _ _)).trans hget
  | init => exact (congrArg (·.assets.get id) Init_stores).trans hget
  | clear => exact hget

/-- The asset is stored, and the queries that are made since `w₀` get its url. -/
structure Serving (a : MediaAsset) (w₀ w : Pool Resp State Call Reply) : Prop where
  stored : w.st.stores.assets.get a.id = some a
  queries : ∀ pid p, w.procs.get pid = some p → w₀.procs.get pid = none → p.call = .getById a.id →
    (∃ k : Option MediaAsset → Client Reply, p.rest = .await (.stores (.ofId a.id)) k ∧
      k (some a) = .ret (.url (.ok a.url))) ∨ p.rest = .ret (.url (.ok a.url))

/-- The asset is served throughout, as long as generated ids are not in use. -/
theorem Serving.run {a : MediaAsset} {w₀ w : Pool Resp State Call Reply} (hw : Serving a w₀ w)
    {es : List (Ev Choice Empty Call)}
    (hes : (machine supports location).Along (Proper (fun _ => True) UnusedId) w es) :
    Serving a w₀ ((machine supports location).run w es) := by
  refine Machine.run_inv ?_ ?_ ?_ hw hes
  · intro w pid x hw _ _
    refine ⟨hw.stored, Machine.begin_all hw.queries fun _ hcall => .inl ?_⟩
    have hx : x = .getById a.id := hcall
    subst hx
    exact ⟨_, rfl, rfl⟩
  · intro w pid i p c k hw hG hp hr
    refine ⟨asset_stays (hG p hp c (Proc.pending_of_await hr)) hw.stored, ?_⟩
    refine Machine.advance_all hw.queries fun hnew hcall => ?_
    rcases hw.queries pid p hp hnew hcall with ⟨k', hrest, hk'⟩ | hrest
    · rw [hr] at hrest
      cases hrest
      have hans : ((machine supports location).exec i w.st (.stores (.ofId a.id))).2 = some a := hw.stored
      exact .inr ((congrArg k' hans).trans hk')
    · rw [hr] at hrest
      cases hrest
  · exact fun w e => e.elim

/-- **What was uploaded is served for good**: once an upload has returned an id and a url, every query for the id
gets this url, whatever is deleted before it. -/
theorem served_for_good {es us : List (Ev Choice Empty Call)} (hes : Fresh location supports (es ++ us)) {pid q : ℕ}
    {p g : Proc Resp Call Reply} {res : UploadFileCommandResponse} {r : Reply}
    (hp : (after location supports es).procs.get pid = some p) (hres : p.result = some (.uploaded (.ok res)))
    (hg : (after location supports (es ++ us)).procs.get q = some g)
    (hnew : (after location supports es).procs.get q = none) (hcall : g.call = .getById res.id)
    (hr : g.result = some r) : r = .url (.ok res.url) := by
  obtain ⟨hbefore, hsince⟩ := Machine.Along.append.1 hes
  have haudited := audited hbefore
  obtain ⟨a, hsaved, rfl⟩ := (haudited.keeps.returned hp hres).id res rfl
  have hstored := (haudited.books.saves p.call a ⟨pid, p, hp, rfl, hsaved⟩).1
  have hstart : Serving a (after location supports es) (after location supports es) :=
    ⟨hstored, fun q g hg hnew => absurd hg (by rw [hnew]; exact Option.some_ne_none g |>.symm)⟩
  have hend := hstart.run hsince
  rw [after, Machine.run_append] at hg
  rw [Proc.result_eq_some] at hr
  rcases hend.queries q g hg hnew hcall with ⟨k, hrest, -⟩ | hrest
  · rw [hr] at hrest
    cases hrest
  · rw [hr] at hrest
    cases hrest
    rfl

theorem served_for_good_deleted : ∃ r,
    ((exampleAfter (exampleUpload ++ (exampleDelete ++ exampleQuery))).procs.get 2).bind Proc.result =
      some r ∧ r = .url (.ok "https://cloud/c1") := by
  have hupload : ((exampleAfter exampleUpload).procs.get 0).bind Proc.result =
      some (.uploaded (.ok ⟨"m1", "https://cloud/c1"⟩)) := by decide +kernel
  obtain ⟨p, hp, hres⟩ := Option.bind_eq_some_iff.1 hupload
  have hquery : (((exampleAfter (exampleUpload ++ (exampleDelete ++ exampleQuery))).procs.get 2).bind
      Proc.result).isSome = true := by decide +kernel
  obtain ⟨r, hr⟩ := Option.isSome_iff_exists.1 hquery
  obtain ⟨g, hg, hresult⟩ := Option.bind_eq_some_iff.1 hr
  have hcall : g.call = .getById "m1" := by
    have hsome : (exampleAfter (exampleUpload ++ (exampleDelete ++ exampleQuery))).procs.get 2 =
      some ⟨.getById "m1", _, _⟩ := rfl
    rw [hsome, Option.some.injEq] at hg
    rw [← hg]
  have hfresh : Fresh examplePlace (fun _ => false) (exampleUpload ++ (exampleDelete ++ exampleQuery)) := by
    decide +kernel
  exact ⟨r, hr, served_for_good hfresh hp hres hg rfl hcall hresult⟩

/-! ## A broker that was cleared -/

/-- A question asked since `w₀` has got to the stores. -/
def Reaches (w₀ w : Pool Resp State Call Reply) : Prop :=
  ∃ pid p question, w₀.procs.get pid = none ∧ w.procs.get pid = some p ∧ p.call = .ask question ∧
    ∃ c r, (⟨.stores c, r⟩ : Σ c : Cmd, Resp c) ∈ p.hist

/-- No answer of the media manager is registered. -/
def Foreign (s : State) : Prop := ∀ question, s.answers.get question ≠ some .media

/-- No question is answered by the media manager. -/
def Denied : ∀ c : Cmd, Resp c → Prop
  | .registered _, answer => answer ≠ some .media
  | _, _ => True

/-- The command only reads the answers. -/
def OnlyAsks (c : Cmd) : Prop := ∃ question, c = .registered question

/-- A question that finds no answer of ours does not get to the stores. -/
theorem ask_assures (question : Question) :
    (prog supports (.ask question)).Assures Denied OnlyAsks fun _ => True := by
  refine ⟨⟨question.text, rfl⟩, fun answer hanswer => ?_⟩
  cases answer with
  | none => trivial
  | some answer =>
    cases answer with
    | media => exact absurd rfl hanswer
    | foreign => trivial

/-- What is registered for others is none of ours, and an initializer that is done does nothing. -/
theorem exec_foreign {i : Choice} (c : Cmd) (hs : Foreign s) (hinit : s.isInitialized = true) :
    Foreign (exec location i s c).1 ∧ (exec location i s c).1.isInitialized = true ∧
      Denied c (exec location i s c).2 := by
  cases c with
  | stores c => exact ⟨hs, hinit, trivial⟩
  | registered question => exact ⟨hs, hinit, hs question⟩
  | registerAnswer question =>
    show Foreign (registerAnswer s question .foreign).1 ∧
      (registerAnswer s question .foreign).1.isInitialized = true ∧ _
    unfold registerAnswer
    split
    · exact ⟨hs, hinit, trivial⟩
    · refine ⟨fun question' => ?_, hinit, trivial⟩
      show (s.answers.set question .foreign).get question' ≠ _
      rw [OMap.get_set]
      split
      · simp
      · exact hs question'
  | init =>
    have hdone : (Init s).1 = s := by rw [Init, if_pos hinit]
    show Foreign (Init s).1 ∧ (Init s).1.isInitialized = true ∧ _
    rw [hdone]
    exact ⟨hs, hinit, trivial⟩
  | clear => exact ⟨fun question => by simp [exec], hinit, trivial⟩

/-- The initializer is done, none of our answers is registered, and the questions asked since `w₀` do not get to
the stores. -/
structure Cut (w₀ w : Pool Resp State Call Reply) : Prop where
  foreign : Foreign w.st
  done : w.st.isInitialized = true
  asks : ∀ pid p, w.procs.get pid = some p → w₀.procs.get pid = none → (∃ question, p.call = .ask question) →
    (∀ e ∈ p.hist, OnlyAsks e.1) ∧ p.rest.Assures Denied OnlyAsks fun _ => True

/-- **Questions stay cut off**, whatever runs. -/
theorem Cut.run {w₀ w : Pool Resp State Call Reply} (hw : Cut w₀ w) (us : List (Ev Choice Empty Call)) :
    Cut w₀ ((machine supports location).run w us) := by
  refine Machine.run_inv (G := fun _ _ => True) ?_ ?_ ?_ hw (Machine.Along.of_mem fun _ _ _ => trivial)
  · intro w pid x hw _ _
    refine ⟨hw.foreign, hw.done, Machine.begin_all hw.asks ?_⟩
    rintro - ⟨question, hcall⟩
    have hx : x = .ask question := hcall
    subst hx
    exact ⟨fun e he => (nomatch he), ask_assures question⟩
  · intro w pid i p c k hw _ hp hr
    obtain ⟨hforeign, hdone, hanswer⟩ := exec_foreign c hw.foreign hw.done
    refine ⟨hforeign, hdone, Machine.advance_all hw.asks fun hnew hcall => ?_⟩
    obtain ⟨hhist, hrest⟩ := hw.asks pid p hp hnew hcall
    rw [hr] at hrest
    refine ⟨fun e he => ?_, hrest.2 _ hanswer⟩
    rcases List.mem_append.1 he with he | he
    · exact hhist e he
    · rw [List.mem_singleton.1 he]
      exact hrest.1
  · exact fun w e => e.elim

/-- **After a clear** the media manager can be asked again if and only if the initializer has never been through:
one that is done registers nothing any more. -/
theorem cleared_for_good (es : List (Ev Choice Empty Call)) {pid : ℕ} {p : Proc Resp Call Reply} (i : Choice)
    (hp : (after location supports es).procs.get pid = some p) (hpending : p.pending = some .clear) :
    let w := after location supports (es ++ [.step pid i])
    (∃ us, Reaches w ((machine supports location).run w us)) ↔ w.st.isInitialized = false := by
  intro w
  -- the clear
  obtain ⟨k, hr⟩ := Proc.await_of_pending hpending
  have hw : w = (machine supports location).advance (after location supports es) pid i p .clear k := by
    show after location supports (es ++ [.step pid i]) = _
    rw [after, Machine.run_append]
    exact Machine.step_of_await hp hr
  have hempty : w.st.answers = .empty := by rw [hw]; rfl
  constructor
  · rintro ⟨us, q, g, question, hnew, hg, hcall, c, r, hmem⟩
    by_contra hinit
    have hstart : Cut w w := by
      refine ⟨fun question => ?_, Bool.eq_true_of_not_eq_false hinit, fun q g hg hnew => ?_⟩
      · rw [hempty]
        simp
      · rw [hnew] at hg
        cases hg
    obtain ⟨question', hc⟩ := ((hstart.run us).asks q g hg hnew ⟨question, hcall⟩).1 _ hmem
    cases hc
  · intro hinit
    obtain ⟨n, hn⟩ := w.exists_new
    have hinitial := run_first (M := machine supports location) hn (x := .init) rfl i
    obtain ⟨w₁, hw₁⟩ : ∃ w₁, w₁ = (machine supports location).run w [.call n .init, .step n i] := ⟨_, rfl⟩
    rw [← hw₁] at hinitial
    obtain ⟨m, hm⟩ := w₁.exists_new
    have hanswer : w₁.st.answers.get "Media.Delete" = some .media := by
      rw [hinitial]
      show (Init w.st).1.answers.get "Media.Delete" = _
      simp [Init, hinit, registerAnswer, hempty, OMap.get_set]
    have hnew : w.procs.get m = none := by
      rw [hinitial] at hm
      exact Machine.get_begin_eq_none (Machine.get_advance_eq_none hm).2
    obtain ⟨ask, hprog, k, hask⟩ : ∃ ask : Option Answer → Client Reply,
        prog supports (.ask (.delete "")) = .await (.registered "Media.Delete") ask ∧
          ∃ k, ask (some .media) = .await (.stores (.ofId "")) k := ⟨_, rfl, _, rfl⟩
    have hasked := run_first (M := machine supports location) hm (x := .ask (.delete "")) hprog i
    obtain ⟨w₂, hw₂⟩ : ∃ w₂, w₂ = (machine supports location).run w₁ [.call m (.ask (.delete "")), .step m i] :=
      ⟨_, rfl⟩
    rw [← hw₂] at hasked
    obtain ⟨g, hg, hcall, hrest⟩ : ∃ g, w₂.procs.get m = some g ∧ g.call = .ask (.delete "") ∧
        g.rest = ask (w₁.st.answers.get "Media.Delete") := by
      rw [hasked]
      exact ⟨_, Machine.get_advance_self, rfl, rfl⟩
    rw [hanswer, hask] at hrest
    refine ⟨[.call n .init, .step n i] ++ ([.call m (.ask (.delete "")), .step m i] ++ [.step m i]), m, ?_⟩
    rw [Machine.run_append, ← hw₁, Machine.run_append, ← hw₂, Machine.run_cons, Machine.step_of_await hg hrest]
    exact ⟨_, .delete "", hnew, Machine.get_advance_self, hcall, .ofId "", _,
      List.mem_append_right _ (List.mem_singleton_self _)⟩

/-- The answers are registered and cleared. -/
def exampleClear : List (Ev Choice Empty Call) := [.call 0 .init, .step 0 exampleChoice, .call 1 .clear]

theorem cleared_for_good_done : ¬ ∃ us, Reaches (exampleAfter (exampleClear ++ [.step 1 exampleChoice]))
    ((machine (fun _ => false) examplePlace).run
      (exampleAfter (exampleClear ++ [.step 1 exampleChoice])) us) := by
  intro h
  have hinit := (cleared_for_good exampleClear exampleChoice rfl rfl).1 h
  have hdone : (exampleAfter (exampleClear ++ [.step 1 exampleChoice])).st.isInitialized = true :=
    rfl
  rw [hdone] at hinit
  cases hinit

end NodeToolkit.MediaSystem
