import NodeToolkit.Async.Alone

/-!
# The media manager

`MediaManagerFacade` over `InMemoryMediaAssetRepository` and a cloud provider. The provider keeps
objects by id and serves each under a url of its own (`location`); the world chooses whether an upload
succeeds and under which id, and what a compressor makes of a file.
-/

namespace NodeToolkit.Media

open Async

structure LocalFile where
  originalname : String
  mimetype : String
  /-- In bytes. -/
  size : ℕ
  path : String
deriving DecidableEq

structure MediaAsset where
  id : String
  idInCloud : String
  url : String
  label : String
  folder : String
  filename : String
  createdAt : ℕ
deriving DecidableEq

/-- What an operation throws: an exception of the component, or what a compressor has thrown. -/
inductive Exception where
  | coded (code message : String)
  | compressor (message : String)
deriving DecidableEq

/-- `new NotFoundException(message)`. -/
def NotFoundException (message : String) : Exception := .coded "MEDIA.NOT_FOUND" message

/-- `new CannotUploadFileException(message)`. -/
def CannotUploadFileException (message : String) : Exception := .coded "MEDIA.CANNOT_UPLOAD" message

/-- A generated id and a clock reading. -/
structure Draft where
  id : String
  now : ℕ

def CreateMediaAsset (file : LocalFile) (folder label idInCloud url : String) (draft : Draft) : MediaAsset where
  id := draft.id
  idInCloud
  url
  label
  folder
  filename := file.originalname
  createdAt := draft.now

/-- The repository and the objects of the cloud. -/
structure Stores where
  assets : OMap String MediaAsset
  objects : OMap String LocalFile

def Stores.empty : Stores := ⟨.empty, .empty⟩

/-- What is chosen outside: what the compressor returns or throws, the id of an uploaded object
or the message of a failed upload, and what a new asset gets. -/
structure Choice where
  compressed : Except String LocalFile
  uploaded : Except String String
  draft : Draft

inductive Cmd where
  | compress (file : LocalFile)
  | unlink (path : String)
  | upload (file : LocalFile) (folder : String)
  | draft
  | save (asset : MediaAsset)
  | ofId (id : String)
  | delete (idInCloud : String)

/-- A url and an id in the cloud. -/
structure Uploaded where
  url : String
  idInCloud : String

@[reducible] def Resp : Cmd → Type
  | .compress _ => Except String LocalFile
  | .unlink _ => Unit
  | .upload _ _ => Except Exception Uploaded
  | .draft => Draft
  | .save _ => Unit
  | .ofId _ => Option MediaAsset
  | .delete _ => Unit

def exec (location : String → String) (i : Choice) (s : Stores) : (c : Cmd) → Stores × Resp c
  | .compress _ => (s, i.compressed)
  -- the local files are none of the stores, and an error is caught
  | .unlink _ => (s, ())
  | .upload file _ =>
    match i.uploaded with
    | .error message => (s, .error (CannotUploadFileException message))
    | .ok id => ({ s with objects := s.objects.set id file }, .ok ⟨location id, id⟩)
  | .draft => (s, i.draft)
  | .save asset => ({ s with assets := s.assets.set asset.id asset }, ())
  | .ofId id => (s, s.assets.get id)
  | .delete idInCloud => ({ s with objects := s.objects.erase idInCloud }, ())

abbrev Client (α : Type) : Type := Prog Resp α

structure UploadFileCommand where
  file : LocalFile
  folder : String
  label : String

structure UploadFileCommandResponse where
  id : String
  url : String
deriving DecidableEq

/-- The first lines of `upload`: the file itself, or a smaller one in its place. -/
def compressed (supports : LocalFile → Bool) (file : LocalFile) : Client (Except String LocalFile) :=
  if supports file then
    .await (.compress file) fun result =>
      match result with
      | .error e => .ret (.error e)
      | .ok small => .await (.unlink file.path) fun _ => .ret (.ok small)
  else .ret (.ok file)

def upload (supports : LocalFile → Bool) (command : UploadFileCommand) :
    Client (Except Exception UploadFileCommandResponse) := do
  let file ← compressed supports command.file
  match file with
  | .error e => return .error (.compressor e)
  | .ok file => do
    let res ← .await (.upload file ("myapp/" ++ command.folder)) .ret
    match res with
    | .error e => return .error e
    | .ok ⟨url, idInCloud⟩ => do
      let draft ← .await .draft .ret
      let asset := CreateMediaAsset file command.folder command.label idInCloud url draft
      .await (.save asset) .ret
      .await (.unlink file.path) .ret
      return .ok ⟨asset.id, asset.url⟩

def notFound (id : String) : Exception := NotFoundException ("not media assert found with id " ++ id)

def delete (id : String) : Client (Except Exception String) := do
  let asset ← .await (.ofId id) .ret
  match asset with
  | none => return .error (notFound id)
  | some asset => do
    .await (.delete asset.idInCloud) .ret
    return .ok asset.id

def getById (id : String) : Client (Except Exception String) := do
  let asset ← .await (.ofId id) .ret
  match asset with
  | none => return .error (notFound id)
  | some asset => return .ok asset.url

inductive Call where
  | upload (command : UploadFileCommand)
  | delete (id : String)
  | getById (id : String)

inductive Reply where
  | uploaded (r : Except Exception UploadFileCommandResponse)
  | deleted (r : Except Exception String)
  | url (r : Except Exception String)
deriving DecidableEq

def prog (supports : LocalFile → Bool) : Call → Client Reply
  | .upload command => return .uploaded (← upload supports command)
  | .delete id => return .deleted (← delete id)
  | .getById id => return .url (← getById id)

def machine (location : String → String) (supports : LocalFile → Bool) :
    Machine Resp Stores Choice Empty Call Reply where
  exec := exec location
  env := fun e _ => e.elim
  enter := fun _ s => s
  prog := prog supports

end NodeToolkit.Media
