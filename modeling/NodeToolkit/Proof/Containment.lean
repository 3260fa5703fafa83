import NodeToolkit.Base.RelativePath
import NodeToolkit.Spec.FsCloudProvider

/-!
# Whether uploads stay inside the folder

`path.join` resolves the segments of the folder, of the upload's folder and of the file name in one go, so
the latter two can lead out of the first.

* `normalizeSegments_under`: the resolved segments are where the path leads (`RelativePath`).
* `segments_destination`: the path of an upload leads from the configured folder along the rest.
* `contained_iff`: when that is strictly below the folder.
-/

namespace NodeToolkit.FsCloudProvider

open Async Media

variable {config : Config} {toLowerCase : String → String} {path : String}

/-! ## Segments -/

/-- A path that does not begin at the root. -/
def IsRelative (path : String) : Prop := path.toList.head? ≠ some '/'

/-- The segments of a relative path, resolved. -/
def segments (path : String) : List String := normalizeSegments true [] (split path '/')

theorem normalizeSegments_cons (allowAboveRoot : Bool) (resolved : List String) (segment : String)
    (segments : List String) : normalizeSegments allowAboveRoot resolved (segment :: segments) =
      normalizeSegments allowAboveRoot (normalizeSegments allowAboveRoot resolved [segment]) segments := by
  by_cases hskip : segment = "" ∨ segment = "."
  · simp only [normalizeSegments, if_pos hskip]
  · by_cases hup : segment = ".."
    · simp only [normalizeSegments, if_neg hskip, if_pos hup]
      split
      · rfl
      · rfl
      · rfl
    · simp only [normalizeSegments, if_neg hskip, if_neg hup]

theorem normalizeSegments_append (allowAboveRoot : Bool) (xs ys : List String) : ∀ resolved,
    normalizeSegments allowAboveRoot resolved (xs ++ ys) =
      normalizeSegments allowAboveRoot (normalizeSegments allowAboveRoot resolved xs) ys := by
  induction xs with
  | nil => exact fun _ => rfl
  | cons segment xs ih =>
    intro resolved
    rw [List.cons_append, normalizeSegments_cons, ih, ← normalizeSegments_cons]

/-- `..` takes a name back. -/
theorem normalizeSegments_up_name {resolved : List String} {name : String} (hlast : resolved.getLast? = some name)
    (hname : IsName name) : normalizeSegments true resolved [".."] = resolved.dropLast := by
  have hskip : ¬ (".." = "" ∨ ".." = ".") := by decide
  rw [normalizeSegments, if_neg hskip, if_pos rfl]
  split
  · rename_i hnone
    rw [hlast] at hnone
    cases hnone
  · rename_i hup
    rw [hlast, Option.some.injEq] at hup
    exact absurd hup hname.2.2
  · rfl

/-- Otherwise it leads up. -/
theorem normalizeSegments_up_replicate (n : ℕ) :
    normalizeSegments true (List.replicate n "..") [".."] = List.replicate (n + 1) ".." := by
  have hskip : ¬ (".." = "" ∨ ".." = ".") := by decide
  rw [normalizeSegments, if_neg hskip, if_pos rfl]
  cases n with
  | zero => rfl
  | succ n =>
    have hlast : (List.replicate (n + 1) "..").getLast? = some ".." := by simp [List.getLast?_replicate]
    rw [List.replicate_succ' (n := n + 1)]
    split
    · rename_i hnone
      rw [hlast] at hnone
      cases hnone
    · rfl
    · rename_i hother _ hname
      rw [hlast, Option.some.injEq] at hname
      exact absurd hname.symm (by assumption)

/-- **One segment** does to where a path leads what it does to the path. -/
theorem normalizeSegments_push {names : List String} (hnames : ∀ name ∈ names, IsName name) (p : RelativePath)
    (segment : String) : normalizeSegments true (p.under names) [segment] = (p.push segment).under names := by
  rcases RelativePath.segment_cases segment with hskip | rfl | hname
  · rw [RelativePath.push_skip hskip, normalizeSegments, if_pos hskip, normalizeSegments]
  · by_cases hnil : p.names = []
    · obtain ⟨hups, hnil'⟩ := RelativePath.push_up_nil hnil
      rw [RelativePath.under, RelativePath.under, hups, hnil, hnil', List.append_nil, List.append_nil]
      by_cases hlt : p.ups < names.length
      · -- a name of the folder is taken back
        obtain ⟨k, hk⟩ : ∃ k, names.length - p.ups = k + 1 := ⟨names.length - p.ups - 1, by omega⟩
        have hk' : names.length - (p.ups + 1) = k := by omega
        have hover : p.ups - names.length = 0 := by omega
        have hover' : p.ups + 1 - names.length = 0 := by omega
        have htake : names.take (k + 1) = names.take k ++ [names[k]] := (List.take_append_getElem (by omega)).symm
        have hlast : (names.take (k + 1)).getLast? = some names[k] := by
          rw [htake, List.getLast?_concat]
        rw [hk, hk', hover, hover', List.replicate_zero, List.append_nil, List.append_nil,
          normalizeSegments_up_name hlast (hnames _ (List.getElem_mem _)), htake, List.dropLast_concat]
      · -- the folder is left, or has been before
        have hzero : names.length - p.ups = 0 := by omega
        have hzero' : names.length - (p.ups + 1) = 0 := by omega
        have hover : p.ups + 1 - names.length = p.ups - names.length + 1 := by omega
        rw [hzero, hzero', hover, List.take_zero, List.nil_append, List.nil_append, normalizeSegments_up_replicate]
    · -- a name of the path itself is taken back
      obtain ⟨hups, hdrop⟩ := RelativePath.push_up hnil
      have hlast : (p.under names).getLast? = some (p.names.getLast hnil) := by
        rw [RelativePath.under, List.getLast?_append_of_ne_nil _ hnil, List.getLast?_eq_some_getLast hnil]
      rw [normalizeSegments_up_name hlast (p.isName _ (List.getLast_mem hnil)), RelativePath.under, RelativePath.under,
        hups, hdrop, List.dropLast_append_of_ne_nil hnil]
  · obtain ⟨hups, hnames'⟩ := @RelativePath.push_name p segment hname
    rw [normalizeSegments, if_neg (not_or.2 ⟨hname.1, hname.2.1⟩), if_neg hname.2.2, normalizeSegments,
      RelativePath.under, RelativePath.under, hups, hnames', List.append_assoc]

/-- **All segments**, by induction on them. -/
theorem normalizeSegments_under {names : List String} (hnames : ∀ name ∈ names, IsName name) (xs : List String) :
    ∀ p : RelativePath, normalizeSegments true (p.under names) xs = (xs.foldl RelativePath.push p).under names := by
  induction xs with
  | nil => exact fun _ => rfl
  | cons segment xs ih =>
    intro p
    rw [normalizeSegments_cons, normalizeSegments_push hnames, ih, List.foldl_cons]

/-- The segments of a path are the path in its form. -/
theorem normalizeSegments_eq_walk (xs : List String) :
    normalizeSegments true [] xs = List.replicate (RelativePath.walk xs).ups ".." ++ (RelativePath.walk xs).names := by
  rw [← RelativePath.under_nil]
  exact normalizeSegments_under (fun _ h => absurd h List.not_mem_nil) xs RelativePath.here

/-- Resolved segments stay as they are. -/
theorem normalizeSegments_idem (xs : List String) :
    normalizeSegments true [] (normalizeSegments true [] xs) = normalizeSegments true [] xs := by
  rw [normalizeSegments_eq_walk xs, normalizeSegments_eq_walk, RelativePath.walk_eq]

theorem normalizeSegments_empty (resolved : List String) : normalizeSegments true resolved [""] = resolved := by
  rw [normalizeSegments, if_pos (.inl rfl), normalizeSegments]

/-! ## Joining paths -/

theorem mem_segments {segment : String} (h : segment ∈ segments path) : segment ≠ "" ∧ '/' ∉ segment.toList := by
  rw [segments, normalizeSegments_eq_walk, List.mem_append, List.mem_replicate] at h
  rcases h with ⟨-, rfl⟩ | hname
  · decide
  · exact ⟨((RelativePath.walk _).isName _ hname).1, notMem_of_mem_split (RelativePath.mem_of_mem_walk hname)⟩

/-- A joined text begins as its first part does. -/
theorem head_intercalate {first : String} (hne : first ≠ "") (rest : List String) :
    (String.intercalate "/" (first :: rest)).toList.head? = first.toList.head? := by
  cases rest with
  | nil => rw [String.intercalate_singleton]
  | cons next rest =>
    have hlist : first.toList ≠ [] := by simpa using hne
    rw [String.intercalate_cons_cons, String.toList_append, String.toList_append, List.append_assoc,
      List.head?_append_of_ne_nil _ hlist]

theorem ne_empty_of_head {text : String} {c : Char} (h : text.toList.head? = some c) : text ≠ "" := by
  rintro rfl
  cases h

theorem head_ne_empty {text : String} (hne : text ≠ "") : ∃ c, text.toList.head? = some c ∧ c ∈ text.toList := by
  cases hlist : text.toList with
  | nil => exact absurd (String.toList_eq_nil_iff.1 hlist) hne
  | cons c cs => exact ⟨c, rfl, List.mem_cons_self⟩

/-- The resolved segments, joined. -/
theorem intercalate_segments (path : String) : (segments path = [] ∧ String.intercalate "/" (segments path) = "") ∨
    String.intercalate "/" (segments path) ≠ "" ∧ IsRelative (String.intercalate "/" (segments path)) ∧
      split (String.intercalate "/" (segments path)) '/' = segments path := by
  cases hseg : segments path with
  | nil => exact .inl ⟨rfl, String.intercalate_nil⟩
  | cons first rest =>
    have hmem : ∀ segment ∈ first :: rest, segment ≠ "" ∧ '/' ∉ segment.toList := by
      intro segment h
      rw [← hseg] at h
      exact mem_segments h
    obtain ⟨hne, hslash⟩ := hmem first List.mem_cons_self
    obtain ⟨c, hc, hcmem⟩ := head_ne_empty hne
    have hhead := (head_intercalate hne rest).trans hc
    refine .inr ⟨ne_empty_of_head hhead, ?_, ?_⟩
    · rw [IsRelative, hhead]
      rintro ⟨⟩
      exact hslash hcmem
    · have hsplit : split (String.intercalate "/" (first :: rest)) '/' =
          (first :: rest).flatMap fun text => split text '/' := split_intercalate (List.cons_ne_nil first rest)
      have hself : ∀ xs : List String, (∀ segment ∈ xs, '/' ∉ segment.toList) →
          (xs.flatMap fun text => split text '/') = xs := by
        intro xs h
        induction xs with
        | nil => rfl
        | cons x xs ih =>
          rw [List.flatMap_cons, split_self (h x List.mem_cons_self),
            ih fun segment hs => h segment (List.mem_cons_of_mem _ hs), List.singleton_append]
      rw [hsplit, hself _ fun segment hs => (hmem segment hs).2]

theorem normalize_eq (hrel : IsRelative path) : normalize path =
    if String.intercalate "/" (segments path) = "" then if path.toList.getLast? = some '/' then "./" else "."
    else String.intercalate "/" (segments path) ++ if path.toList.getLast? = some '/' then "/" else "" := by
  have habs : decide (path.toList.head? = some '/') = false := decide_eq_false hrel
  unfold normalize
  simp only [habs, Bool.not_false, if_neg hrel, String.empty_append]
  rfl

/-- **Normalizing a relative path** keeps it relative, and its segments. -/
theorem segments_normalize (hrel : IsRelative path) :
    IsRelative (normalize path) ∧ normalize path ≠ "" ∧ segments (normalize path) = segments path := by
  rw [normalize_eq hrel]
  rcases intercalate_segments path with ⟨hnil, hempty⟩ | ⟨hne, hrelative, hsplit⟩
  · rw [if_pos hempty, hnil]
    split
    · exact ⟨(by decide : "./".toList.head? ≠ some '/'), by decide, by decide +kernel⟩
    · exact ⟨(by decide : ".".toList.head? ≠ some '/'), by decide, by decide +kernel⟩
  · rw [if_neg hne]
    obtain ⟨c, hc, -⟩ := head_ne_empty hne
    have hidem : normalizeSegments true [] (segments path) = segments path := normalizeSegments_idem _
    split
    · -- the trailing separator leaves an empty segment
      have hhead : (String.intercalate "/" (segments path) ++ "/").toList.head? = some c := by
        rw [String.toList_append, List.head?_append, hc]
        rfl
      refine ⟨?_, ne_empty_of_head hhead, ?_⟩
      · rwa [IsRelative, hhead, ← hc]
      · have hslash : split (String.intercalate "/" (segments path) ++ "/") '/' = segments path ++ [""] := by
          have hsep := split_append_sep (String.intercalate "/" (segments path)) "" '/'
          have hnone : split "" '/' = [""] := split_self (by decide)
          rw [String.append_empty, hsplit, hnone] at hsep
          exact hsep
        rw [segments, hslash, normalizeSegments_append, hidem, normalizeSegments_empty]
    · rw [String.append_empty]
      refine ⟨hrelative, hne, ?_⟩
      rw [segments, hsplit, hidem]

/-- Empty parts do not count. -/
theorem normalizeSegments_filter (paths : List String) : ∀ resolved,
    normalizeSegments true resolved ((paths.filter (· ≠ "")).flatMap fun path => split path '/') =
      normalizeSegments true resolved (paths.flatMap fun path => split path '/') := by
  induction paths with
  | nil => exact fun _ => rfl
  | cons path paths ih =>
    intro resolved
    rw [List.flatMap_cons, normalizeSegments_append]
    by_cases hempty : path = ""
    · subst hempty
      rw [List.filter_cons_of_neg (by decide), ih, split_self (by decide), normalizeSegments_empty]
    · rw [List.filter_cons_of_pos (by simpa using hempty), List.flatMap_cons, normalizeSegments_append, ih]

/-- **Joining paths** after a relative one puts their segments together. -/
theorem segments_join {first : String} (hne : first ≠ "") (hrel : IsRelative first) (rest : List String) :
    IsRelative (join (first :: rest)) ∧ join (first :: rest) ≠ "" ∧ segments (join (first :: rest)) =
      normalizeSegments true [] ((first :: rest).flatMap fun path => split path '/') := by
  have hfilter : (first :: rest).filter (· ≠ "") = first :: rest.filter (· ≠ "") :=
    List.filter_cons_of_pos (by simpa using hne)
  have hhead : (String.intercalate "/" ((first :: rest).filter (· ≠ ""))).toList.head? = first.toList.head? := by
    rw [hfilter, head_intercalate hne]
  obtain ⟨c, hc, -⟩ := head_ne_empty hne
  have hjoin : join (first :: rest) = normalize (String.intercalate "/" ((first :: rest).filter (· ≠ ""))) :=
    if_neg (ne_empty_of_head (hhead.trans hc))
  have hjoined : IsRelative (String.intercalate "/" ((first :: rest).filter (· ≠ ""))) := by
    rwa [IsRelative, hhead]
  obtain ⟨hrelative, hnonempty, hsegments⟩ := segments_normalize hjoined
  rw [hjoin]
  refine ⟨hrelative, hnonempty, ?_⟩
  have hsplit : split (String.intercalate "/" ((first :: rest).filter (· ≠ ""))) '/' =
      ((first :: rest).filter (· ≠ "")).flatMap fun path => split path '/' := by
    refine split_intercalate ?_
    rw [hfilter]
    exact List.cons_ne_nil _ _
  rw [hsegments, segments, hsplit, normalizeSegments_filter]

/-! ## The path of an upload -/

/-- The configured folder: a relative path that is not empty and does not go up. -/
structure IsStorageFolder (folder : String) : Prop where
  nonempty : folder ≠ ""
  relative : IsRelative folder
  down : ".." ∉ split folder '/'

/-- **Strictly below a folder**: a relative path that goes on where the folder ends. -/
def Below (folder path : String) : Prop :=
  IsRelative path ∧ ∃ rest, rest ≠ [] ∧ ".." ∉ rest ∧ segments path = segments folder ++ rest

/-- What comes after the configured folder: the folder of the upload, and the date. -/
def innerFolder (toLowerCase : String → String) (x : Upload) : List String :=
  [toLowerCase (replaceBlanks x.folder), toString (Date.yearFromDay (Date.day x.clock.year)),
    toString (Date.monthFromDay (Date.day x.clock.month) + 1), toString (Date.dateFromDay (Date.day x.clock.day))]

/-- **The path inside the configured folder**, with the file name. -/
def inner (toLowerCase : String → String) (x : Upload) : RelativePath :=
  RelativePath.walk ((innerFolder toLowerCase x ++ [filename x]).flatMap fun path => split path '/')

/-- The names of the configured folder. -/
theorem isName_of_mem_segments {folder name : String} (hfolder : IsStorageFolder folder) (h : name ∈ segments folder) :
    IsName name := by
  rw [segments, normalizeSegments_eq_walk, RelativePath.ups_walk hfolder.down, List.replicate_zero,
    List.nil_append] at h
  exact (RelativePath.walk _).isName name h

/-- **The path of an upload** leads from the configured folder along the path inside. -/
theorem segments_destination (hfolder : IsStorageFolder config.folder) (x : Upload) :
    IsRelative (destination config toLowerCase x) ∧
      segments (destination config toLowerCase x) = (inner toLowerCase x).under (segments config.folder) := by
  have hfolderOf : folder config toLowerCase x = join (config.folder :: innerFolder toLowerCase x) := rfl
  obtain ⟨hrelative, hnonempty, hsegments⟩ :=
    segments_join hfolder.nonempty hfolder.relative (innerFolder toLowerCase x)
  rw [← hfolderOf] at hrelative hnonempty hsegments
  -- the file name is joined to the folder in a second call
  obtain ⟨hdestination, -, hpath⟩ := segments_join hnonempty hrelative [filename x]
  refine ⟨hdestination, ?_⟩
  have hinner := normalizeSegments_under (fun name => isName_of_mem_segments hfolder)
    ((innerFolder toLowerCase x ++ [filename x]).flatMap fun path => split path '/') RelativePath.here
  rw [RelativePath.under_here] at hinner
  calc segments (destination config toLowerCase x)
      = normalizeSegments true [] ([folder config toLowerCase x, filename x].flatMap fun path => split path '/') := hpath
    _ = normalizeSegments true (segments (folder config toLowerCase x)) (split (filename x) '/') := by
        rw [List.flatMap_cons, normalizeSegments_append, List.flatMap_cons, List.flatMap_nil, List.append_nil, segments]
    _ = normalizeSegments true (segments config.folder)
          ((innerFolder toLowerCase x ++ [filename x]).flatMap fun path => split path '/') := by
        rw [hsegments, List.flatMap_cons, normalizeSegments_append, List.flatMap_append, List.flatMap_cons,
          List.flatMap_nil, List.append_nil, normalizeSegments_append, segments]
    _ = (inner toLowerCase x).under (segments config.folder) := hinner

/-- **When an upload stays inside**: the path inside the configured folder goes up no further than this has
names, comes back through the last of them, and goes on. -/
def StaysInside (config : Config) (toLowerCase : String → String) (x : Upload) : Prop :=
  (inner toLowerCase x).ups ≤ (segments config.folder).length ∧ ∃ rest, rest ≠ [] ∧ (inner toLowerCase x).names =
    (segments config.folder).drop ((segments config.folder).length - (inner toLowerCase x).ups) ++ rest

theorem below_destination_iff (hfolder : IsStorageFolder config.folder) (x : Upload) :
    Below config.folder (destination config toLowerCase x) ↔ StaysInside config toLowerCase x := by
  obtain ⟨hrelative, hsegments⟩ := segments_destination hfolder x
  have hdown : ".." ∉ segments config.folder := fun h => (isName_of_mem_segments hfolder h).2.2 rfl
  rw [Below, hsegments, RelativePath.below_iff hdown, StaysInside]
  exact and_iff_right hrelative

/-- A copy to a path strictly below the configured folder. -/
def CopiesBelow (folder : String) : Cmd → Prop
  | .copyFile _ path => Below folder path
  | _ => True

/-- **When uploads stay inside the folder**: all that an upload can copy, whatever the answers to its
commands. -/
theorem contained_iff (toLowerCase : String → String) (hfolder : IsStorageFolder config.folder) (x : Upload) :
    (upload config toLowerCase x).Uses (CopiesBelow config.folder) ↔ StaysInside config toLowerCase x := by
  rw [← below_destination_iff hfolder]
  constructor
  · rintro ⟨-, h⟩
    exact (h (.ok ())).1
  · intro hbelow
    refine ⟨trivial, fun made => ?_⟩
    match made with
    | .error e => exact trivial
    | .ok _ =>
      refine ⟨hbelow, fun copy => ?_⟩
      match copy with
      | .error e => exact trivial
      | .ok content => exact ⟨trivial, fun _ => trivial⟩

/-! ## Two uploads -/

/-- An upload of `a.png` into the folder, on the first of January 1970 at midnight. -/
def uploadOf (folder originalname : String) : Upload where
  file := ⟨originalname, "image/png", 1, "/tmp/a"⟩
  folder := folder
  clock := ⟨0, 0, 0, 0, 0, 0, 0⟩

theorem isStorageFolder_media : IsStorageFolder "storage/media" where
  nonempty := by decide
  relative := (by decide : "storage/media".toList.head? ≠ some '/')
  down := by decide +kernel

/-- **The name of the file** leads out of the folder. -/
theorem escapes :
    destination ⟨"storage/media", ""⟩ id (uploadOf "images" "/../../../../../../../etc/passwd") = "etc/passwd" ∧
      ¬ (upload ⟨"storage/media", ""⟩ id (uploadOf "images" "/../../../../../../../etc/passwd")).Uses
        (CopiesBelow "storage/media") := by
  have hpath : destination ⟨"storage/media", ""⟩ id (uploadOf "images" "/../../../../../../../etc/passwd") =
      "etc/passwd" := by decide +kernel
  refine ⟨hpath, fun h => ?_⟩
  have hbelow : Below "storage/media" (destination ⟨"storage/media", ""⟩ id
      (uploadOf "images" "/../../../../../../../etc/passwd")) := (h.2 (.ok ())).1
  rw [hpath] at hbelow
  obtain ⟨-, rest, -, -, hsegments⟩ := hbelow
  have hetc : segments "etc/passwd" = ["etc", "passwd"] := by decide +kernel
  have hmedia : segments "storage/media" = ["storage", "media"] := by decide +kernel
  rw [hetc, hmedia, List.cons_append, List.cons.injEq] at hsegments
  exact absurd hsegments.1 (by decide)

/-- An upload that stays inside. -/
theorem contained_image : (upload ⟨"storage/media", ""⟩ id (uploadOf "my images" "a.png")).Uses
    (CopiesBelow "storage/media") := by
  have hups : (inner id (uploadOf "my images" "a.png")).ups = 0 := by decide +kernel
  have hnames : (inner id (uploadOf "my images" "a.png")).names =
      ["my-images", "1970", "1", "1", "0-0-0-0__a.png"] := by decide +kernel
  have hinside : StaysInside ⟨"storage/media", ""⟩ id (uploadOf "my images" "a.png") := by
    rw [StaysInside, hups, hnames]
    refine ⟨Nat.zero_le _, ["my-images", "1970", "1", "1", "0-0-0-0__a.png"], List.cons_ne_nil _ _, ?_⟩
    rw [Nat.sub_zero, List.drop_length, List.nil_append]
  exact (@contained_iff ⟨"storage/media", ""⟩ id isStorageFolder_media (uploadOf "my images" "a.png")).2 hinside

end NodeToolkit.FsCloudProvider
