import NodeToolkit.Base.Date
import NodeToolkit.Base.Text
import NodeToolkit.Spec.MediaManager

/-!
# The cloud provider over the file system

`FsCloudProvider` over a file system and a repository of paths by id, cut at its awaits. `uuid` are the
ids in the order in which they are generated, `toLowerCase` is that of JavaScript; the world chooses which
file operations fail beyond a missing source.
-/

namespace NodeToolkit.FsCloudProvider

open Async Media

/-! ## Paths -/

/-- The segments of a path, resolved: `resolved` are those before. -/
def normalizeSegments (allowAboveRoot : Bool) (resolved : List String) : List String → List String
  | [] => resolved
  | segment :: segments =>
    if segment = "" ∨ segment = "." then normalizeSegments allowAboveRoot resolved segments
    else if segment = ".." then
      match resolved.getLast? with
      | none => normalizeSegments allowAboveRoot (if allowAboveRoot then [".."] else []) segments
      | some ".." => normalizeSegments allowAboveRoot (resolved ++ [".."]) segments
      | some _ => normalizeSegments allowAboveRoot resolved.dropLast segments
    else normalizeSegments allowAboveRoot (resolved ++ [segment]) segments

/-- `path.normalize` of a path that is not empty. -/
def normalize (path : String) : String :=
  let isAbsolute := path.toList.head? = some '/'
  let trailingSeparator := path.toList.getLast? = some '/'
  let resolved := String.intercalate "/" (normalizeSegments (!isAbsolute) [] (split path '/'))
  if resolved = "" then
    if isAbsolute then "/" else if trailingSeparator then "./" else "."
  else (if isAbsolute then "/" else "") ++ resolved ++ if trailingSeparator then "/" else ""

/-- `path.join`. -/
def join (paths : List String) : String :=
  let joined := String.intercalate "/" (paths.filter (· ≠ ""))
  if joined = "" then "." else normalize joined

/-! ## Uploads -/

structure Config where
  folder : String
  publicBaseUrl : String

/-- The readings of the clock that an upload makes one after another, in local time. -/
structure Readings where
  year : ℤ
  month : ℤ
  day : ℤ
  hour : ℤ
  minute : ℤ
  second : ℤ
  millisecond : ℤ

structure Upload where
  file : LocalFile
  folder : String
  clock : Readings

/-- `folder.replace(/[ _]/g, '-')`. -/
def replaceBlanks (folder : String) : String :=
  String.ofList (folder.toList.map fun c => if c = ' ' ∨ c = '_' then '-' else c)

def folder (config : Config) (toLowerCase : String → String) (x : Upload) : String :=
  join [config.folder, toLowerCase (replaceBlanks x.folder),
    toString (Date.yearFromDay (Date.day x.clock.year)),
    toString (Date.monthFromDay (Date.day x.clock.month) + 1),
    toString (Date.dateFromDay (Date.day x.clock.day))]

def filename (x : Upload) : String :=
  toString (Date.hourFromTime x.clock.hour) ++ "-" ++ toString (Date.minFromTime x.clock.minute) ++ "-" ++
    toString (Date.secFromTime x.clock.second) ++ "-" ++ toString (Date.msFromTime x.clock.millisecond) ++
    "__" ++ x.file.originalname

def destination (config : Config) (toLowerCase : String → String) (x : Upload) : String :=
  join [folder config toLowerCase x, filename x]

/-- The file system, the repository, and the number of ids generated. -/
structure Stores where
  files : OMap String String
  paths : OMap String String
  generated : ℕ

/-- The message of an operation that fails, if it does. -/
structure Choice where
  failure : Option String

inductive Cmd where
  | mkdir (folder : String)
  | copyFile (source destination : String)
  /-- `GenerateUuid` and `save`. -/
  | save (path : String)
  | ofId (id : String)
  | unlink (path : String)

@[reducible] def Resp : Cmd → Type
  | .mkdir _ => Except String Unit
  -- with the content that was copied
  | .copyFile _ _ => Except String String
  | .save _ => String
  | .ofId _ => Option String
  | .unlink _ => Except String Unit

def noSuchFile : String := "ENOENT: no such file or directory"

def exec (uuid : ℕ → String) (i : Choice) (s : Stores) : (c : Cmd) → Stores × Resp c
  -- folders are not part of the map
  | .mkdir _ =>
    match i.failure with
    | some message => (s, .error message)
    | none => (s, .ok ())
  | .copyFile source destination =>
    match i.failure with
    | some message => (s, .error message)
    | none =>
      match s.files.get source with
      | none => (s, .error noSuchFile)
      | some content => ({ s with files := s.files.set destination content }, .ok content)
  | .save path =>
    ({ s with paths := s.paths.set (uuid s.generated) path, generated := s.generated + 1 }, uuid s.generated)
  | .ofId id => (s, s.paths.get id)
  | .unlink path =>
    match i.failure with
    | some message => (s, .error message)
    | none =>
      match s.files.get path with
      | none => (s, .error noSuchFile)
      | some _ => ({ s with files := s.files.erase path }, .ok ())

abbrev Client (α : Type) : Type := Prog Resp α

def upload (config : Config) (toLowerCase : String → String) (x : Upload) : Client (Except Exception Uploaded) := do
  match ← Prog.await (.mkdir (folder config toLowerCase x)) .ret with
  | .error message => return .error (CannotUploadFileException message)
  | .ok _ => do
    let destination := destination config toLowerCase x
    match ← Prog.await (.copyFile x.file.path destination) .ret with
    | .error message => return .error (CannotUploadFileException message)
    | .ok _ => do
      let id ← .await (.save destination) .ret
      return .ok ⟨config.publicBaseUrl ++ "/" ++ folder config toLowerCase x ++ "/" ++ filename x, id⟩

def delete (idInCloud : String) : Client (Except String Unit) := do
  match ← Prog.await (.ofId idInCloud) .ret with
  | none => return .ok ()
  -- an empty path counts as none
  | some file => if file = "" then return .ok () else .await (.unlink file) .ret

inductive Call where
  | upload (x : Upload)
  | delete (idInCloud : String)

inductive Reply where
  | uploaded (r : Except Exception Uploaded)
  | deleted (r : Except String Unit)

def prog (config : Config) (toLowerCase : String → String) : Call → Client Reply
  | .upload x => return .uploaded (← upload config toLowerCase x)
  | .delete idInCloud => return .deleted (← delete idInCloud)

def machine (uuid : ℕ → String) (config : Config) (toLowerCase : String → String) :
    Machine Resp Stores Choice Empty Call Reply where
  exec := exec uuid
  env := fun e _ => e.elim
  enter := fun _ s => s
  prog := prog config toLowerCase

end NodeToolkit.FsCloudProvider
