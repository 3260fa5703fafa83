import Mathlib.Data.List.Infix
import NodeToolkit.Async.Triple
import NodeToolkit.Spec.MediaManager

/-!
# References to live objects

What each operation does to the repository and the cloud (`alone_upload`, `alone_delete`,
`alone_getById`), and what a series of them keeps.

* `Linked`: every asset refers to an object of the cloud, by the url it is served under.
* `LiveOnly`: what is asked of a series of operations: linked assets, gone means gone, and failed
  uploads that leave nothing.
* `live_only_iff`: a series is so if and only if it deletes no asset that is stored: `delete` leaves the
  asset behind (`delete_leaves_asset`).
-/

namespace NodeToolkit.Media

open Async

variable {location : String → String} {supports : LocalFile → Bool}

/-! ## One operation -/

section Alone

variable {s : Stores} {id : String} {asset : MediaAsset} {command : UploadFileCommand} {is : ℕ → Choice}

/-- No asset to delete: nothing changes. -/
theorem alone_delete_none (h : s.assets.get id = none) :
    (machine location supports).alone s (.delete id) is = (s, .deleted (.error (notFound id))) := by
  simp [Machine.alone, machine, prog, delete, drive, exec, h]

/-- A delete removes the object and leaves the asset. -/
theorem alone_delete_some (h : s.assets.get id = some asset) :
    (machine location supports).alone s (.delete id) is =
      ({ s with objects := s.objects.erase asset.idInCloud }, .deleted (.ok asset.id)) := by
  simp [Machine.alone, machine, prog, delete, drive, exec, h]

/-- No asset to serve. -/
theorem alone_getById_none (h : s.assets.get id = none) :
    (machine location supports).alone s (.getById id) is = (s, .url (.error (notFound id))) := by
  simp [Machine.alone, machine, prog, getById, drive, exec, h]

/-- The url is the one stored with the asset, whether its object is there or not. -/
theorem alone_getById_some (h : s.assets.get id = some asset) :
    (machine location supports).alone s (.getById id) is = (s, .url (.ok asset.url)) := by
  simp [Machine.alone, machine, prog, getById, drive, exec, h]

/-- **What an upload does**: nothing if it throws, else it adds an object and the asset that refers to it. -/
def Added (location : String → String) (s : Stores) (reply : Reply) (s' : Stores) : Prop :=
  (∃ e, reply = .uploaded (.error e) ∧ s' = s) ∨
  ∃ file asset, reply = .uploaded (.ok ⟨asset.id, asset.url⟩) ∧ asset.url = location asset.idInCloud ∧
    s' = ⟨s.assets.set asset.id asset, s.objects.set asset.idInCloud file⟩

/-- Compression touches neither store. -/
theorem triple_compressed (file : LocalFile) : Triple (exec location) (· = s) (compressed supports file)
    fun _ s' => s' = s := by
  unfold compressed
  split
  · refine .await (T := fun _ s' => s' = s) (fun i s' hs => hs) fun result => ?_
    cases result with
    | error e => exact .ret fun _ hs => hs
    | ok small => exact .await (fun i s' hs => hs) fun _ => .ret fun _ hs => hs
  · exact .ret fun _ hs => hs

/-- The three awaits of an upload: the object, the names of the asset, the asset. -/
theorem triple_upload : Triple (exec location) (· = s) (prog supports (.upload command)) (Added location s) := by
  unfold prog upload
  simp only [Prog.bind_assoc]
  refine (triple_compressed command.file).bind fun result => ?_
  cases result with
  | error e => exact .ret fun s' hs => Or.inl ⟨_, rfl, hs⟩
  | ok file =>
    refine .await (T := fun res s' => (∃ e, res = .error e ∧ s' = s) ∨ ∃ idInCloud,
      res = .ok ⟨location idInCloud, idInCloud⟩ ∧ s' = { s with objects := s.objects.set idInCloud file }) ?_ ?_
    · rintro i s' rfl
      cases hup : i.uploaded with
      | error message =>
        exact Or.inl ⟨CannotUploadFileException message, by simp only [exec, hup], by simp only [exec, hup]⟩
      | ok idInCloud => exact Or.inr ⟨idInCloud, by simp only [exec, hup], by simp only [exec, hup]⟩
    · intro res
      cases res with
      | error e =>
        refine .ret fun s' hs => Or.inl ⟨e, rfl, ?_⟩
        rcases hs with ⟨-, -, hs⟩ | ⟨idInCloud, h, -⟩
        · exact hs
        · cases h
      | ok up =>
        obtain ⟨url, idInCloud⟩ := up
        refine .await (T := fun _ s' => url = location idInCloud ∧
          s' = { s with objects := s.objects.set idInCloud file }) ?_ fun draft => ?_
        · rintro i s' (⟨e, h, -⟩ | ⟨id, h, hs⟩)
          · cases h
          · cases h
            exact ⟨rfl, hs⟩
        · refine .await (T := fun _ s' => Added location s (.uploaded (.ok ⟨draft.id, url⟩)) s') ?_ fun _ => ?_
          · rintro i s' ⟨hurl, rfl⟩
            exact Or.inr ⟨file, CreateMediaAsset file command.folder command.label idInCloud url draft, rfl, hurl, rfl⟩
          · exact .await (fun i s' hs => hs) fun _ => .ret fun s' hs => hs

variable (location supports) in
theorem alone_upload (s : Stores) (command : UploadFileCommand) (is : ℕ → Choice) :
    Added location s ((machine location supports).alone s (.upload command) is).2
      ((machine location supports).alone s (.upload command) is).1 :=
  triple_upload.alone (M := machine location supports) (x := .upload command) rfl is

end Alone

/-! ## Series of operations -/

/-- Operations one after another, each with what is chosen during it. -/
abbrev Calls : Type := List (Call × (ℕ → Choice))

/-- The stores after some operations. -/
def after (location : String → String) (supports : LocalFile → Bool) (xs : Calls) : Stores :=
  (machine location supports).series .empty xs

section Series

variable {v xs : Calls} {s : Stores} {x : Call} {is : ℕ → Choice}

theorem after_snoc : after location supports (v ++ [(x, is)]) =
    ((machine location supports).alone (after location supports v) x is).1 := Machine.series_append ..

/-- **What is asked of the two stores**, at every point of a series and for every operation of it. -/
structure LiveOnly (location : String → String) (supports : LocalFile → Bool) (xs : Calls) : Prop where
  /-- Every asset refers to an object of the cloud. -/
  live : ∀ v, v <+: xs → ∀ id asset, (after location supports v).assets.get id = some asset →
    ∃ file, (after location supports v).objects.get asset.idInCloud = some file
  /-- `getById` returns only urls of objects. -/
  served : ∀ v, v <+: xs → ∀ id is url,
    ((machine location supports).alone (after location supports v) (.getById id) is).2 = .url (.ok url) →
    ∃ idInCloud file, (after location supports v).objects.get idInCloud = some file ∧ url = location idInCloud
  /-- What has been deleted is not found. -/
  gone : ∀ v id is u, v ++ (.delete id, is) :: u <+: xs →
    (∃ r, ((machine location supports).alone (after location supports v) (.delete id) is).2 = .deleted (.ok r)) →
    ∀ js, ((machine location supports).alone (after location supports (v ++ (.delete id, is) :: u))
        (.getById id) js).2 = .url (.error (notFound id)) ∧
      ((machine location supports).alone (after location supports (v ++ (.delete id, is) :: u))
        (.delete id) js).2 = .deleted (.error (notFound id))
  /-- A failed upload leaves nothing. -/
  failed : ∀ v command is, v ++ [(.upload command, is)] <+: xs → ∀ e,
    ((machine location supports).alone (after location supports v) (.upload command) is).2 = .uploaded (.error e) →
    after location supports (v ++ [(.upload command, is)]) = after location supports v

/-- No asset that is stored is deleted. -/
def NoneDeleted (location : String → String) (supports : LocalFile → Bool) (xs : Calls) : Prop :=
  ∀ v id is, v ++ [(.delete id, is)] <+: xs → (after location supports v).assets.get id = none

/-- **The invariant**: an asset refers to an object, by the url it is served under. -/
def Linked (location : String → String) (s : Stores) : Prop :=
  ∀ id asset, s.assets.get id = some asset → asset.url = location asset.idInCloud ∧
    ∃ file, s.objects.get asset.idInCloud = some file

/-- **An upload** keeps the assets linked. -/
theorem Linked.upload (h : Linked location s) (command : UploadFileCommand) (is : ℕ → Choice) :
    Linked location ((machine location supports).alone s (.upload command) is).1 := by
  rcases alone_upload location supports s command is with
    ⟨e, -, hs⟩ | ⟨file, asset, -, hurl, hs⟩
  · rw [hs]
    exact h
  · rw [hs]
    intro id asset' hget
    dsimp only at hget ⊢
    rw [OMap.get_set] at hget
    by_cases hid : asset.id = id
    · rw [if_pos hid] at hget
      obtain rfl := Option.some.inj hget
      exact ⟨hurl, file, OMap.get_set_self ..⟩
    · rw [if_neg hid] at hget
      obtain ⟨hurl', file', hfile⟩ := h id asset' hget
      refine ⟨hurl', ?_⟩
      rw [OMap.get_set]
      split
      · exact ⟨file, rfl⟩
      · exact ⟨file', hfile⟩

theorem NoneDeleted.mono (h : NoneDeleted location supports xs) (hv : v <+: xs) : NoneDeleted location supports v :=
  fun v' id is hpre => h v' id is (hpre.trans hv)

/-- **The invariant of a series** without a delete that finds its asset, by induction on its operations. -/
theorem linked_after (h : NoneDeleted location supports xs) : Linked location (after location supports xs) := by
  induction xs using List.reverseRecOn with
  | nil => exact fun id asset hget => by simp [after, Stores.empty] at hget
  | append_singleton v x ih =>
    obtain ⟨call, is⟩ := x
    have hlinked := ih (h.mono (List.prefix_append v _))
    rw [after_snoc]
    cases call with
    | upload command => exact hlinked.upload command is
    | delete id =>
      have hnone := h v id is List.prefix_rfl
      rw [alone_delete_none hnone]
      exact hlinked
    | getById id =>
      cases hget : (after location supports v).assets.get id with
      | none =>
        rw [alone_getById_none hget]
        exact hlinked
      | some asset =>
        rw [alone_getById_some hget]
        exact hlinked

/-- **The two stores agree** throughout a series if and only if it deletes no asset that is stored. -/
theorem live_only_iff (xs : Calls) : LiveOnly location supports xs ↔ NoneDeleted location supports xs := by
  constructor
  · intro h v id is hpre
    by_contra hstored
    obtain ⟨asset, hget⟩ := Option.ne_none_iff_exists'.1 hstored
    -- the asset outlives its object
    have hdone : (machine location supports).alone (after location supports v) (.delete id) is =
        ({ after location supports v with objects := (after location supports v).objects.erase asset.idInCloud },
          .deleted (.ok asset.id)) := alone_delete_some hget
    have hstill : (after location supports (v ++ [(.delete id, is)])).assets.get id = some asset := by
      rw [after_snoc, hdone]
      exact hget
    have hgone := (h.gone v id is [] hpre ⟨asset.id, by rw [hdone]⟩ is).1
    rw [alone_getById_some hstill] at hgone
    cases hgone
  · intro h
    refine ⟨fun v hv id asset hget => (linked_after (h.mono hv) id asset hget).2, fun v hv id is url hreply => ?_,
      fun v id is u hpre hreply js => ?_, fun v command is hpre e hreply => ?_⟩
    · cases hget : (after location supports v).assets.get id with
      | none =>
        rw [alone_getById_none hget] at hreply
        cases hreply
      | some asset =>
        rw [alone_getById_some hget] at hreply
        cases hreply
        obtain ⟨hurl, file, hfile⟩ := linked_after (h.mono hv) id asset hget
        exact ⟨asset.idInCloud, file, hfile, hurl⟩
    · have hnone := h v id is ((List.prefix_append_right_inj v).2 (List.prefix_append [_] u) |>.trans hpre)
      obtain ⟨r, hr⟩ := hreply
      rw [alone_delete_none hnone] at hr
      cases hr
    · rw [after_snoc]
      rcases alone_upload location supports (after location supports v) command is with
        ⟨e', -, hs⟩ | ⟨file, asset, hok, -⟩
      · exact hs
      · rw [hreply] at hok
        cases hok

end Series

/-- A file is uploaded, deleted, and asked for. -/
def uploadAndDelete : Calls :=
  [(.upload ⟨⟨"a.png", "image/png", 3, "/tmp/a"⟩, "docs", "avatar"⟩, fun _ => ⟨.error "", .ok "c1", ⟨"m1", 5⟩⟩),
    (.delete "m1", fun _ => ⟨.error "", .error "", ⟨"", 6⟩⟩)]

/-- **The deleted asset** is still stored, and `getById` returns the url of an object that is gone. -/
theorem delete_leaves_asset :
    let s := after id (fun _ => false) uploadAndDelete
    ((machine id fun _ => false).alone (after id (fun _ => false) (uploadAndDelete.take 1)) (.delete "m1")
      fun _ => ⟨.error "", .error "", ⟨"", 6⟩⟩).2 = .deleted (.ok "m1") ∧
    s.objects.get "c1" = none ∧ (s.assets.get "m1").map MediaAsset.idInCloud = some "c1" ∧
    ((machine id fun _ => false).alone s (.getById "m1") fun _ => ⟨.error "", .error "", ⟨"", 7⟩⟩).2 =
      .url (.ok "c1") := by
  decide +kernel

end NodeToolkit.Media
