import NodeToolkit.Async.Pool
import NodeToolkit.Base.Json

/-!
# The file logger

`FsLogger`: any number of log calls and of `clear` calls, interleaved at their awaits. Every file
operation is one step; an append may fail, and then writes nothing.

A file is the list of what has been written to it: lines, and texts that the logger puts between
them. Lines carry the number of their log call, so that two logs with the same text are two lines;
the number and the list `logged` are for the statements only. A line ends in `os.EOL`, which is
`"\n"` here.
-/

namespace NodeToolkit.FsLogger

open Async

structure Config where
  withMemCache : Bool
  maxLogsInMemoryCache : Option ℕ

/-- `config.maxLogsInMemoryCache ?? 1000`. -/
def Config.max (config : Config) : ℕ := config.maxLogsInMemoryCache.getD 1000

structure Error where
  name : String
  message : String
  stack : Option String
deriving DecidableEq

inductive Log where
  | info (correlationId context : String) (payload : Option Json)
  | error (correlationId context : String) (error : Error) (payload : Option Json)
  | warn (correlationId context : String) (error : Option Error) (payload : Option Json)

/-- `JSON.stringify(payload) ?? {}` in a template. -/
def data (payload : Option Json) : String := (payload.map Json.stringify).getD "[object Object]"

/-- `stack?.replace(RegExp(os.EOL, 'g'), ' ') ?? 'NO STACK'`. -/
def flatStack (stack : Option String) : String :=
  (stack.map fun s => String.ofList (s.toList.map fun c => if c = '\n' then ' ' else c)).getD "NO STACK"

def errorRelated (error : Error) : String :=
  "error: " ++ error.name ++ " (" ++ error.message ++ ") - stack: " ++ flatStack error.stack

def Log.str (date : String) : Log → String
  | .info correlationId context payload =>
    "[" ++ correlationId ++ "] - [" ++ date ++ "] - INFO - [" ++ context ++ "] - data: " ++ data payload
  | .error correlationId context e payload =>
    "[" ++ correlationId ++ "] - [" ++ date ++ "] - ERROR - [" ++ context ++ "] - " ++ errorRelated e ++
      " - data: " ++ data payload
  | .warn correlationId context e payload =>
    "[" ++ correlationId ++ "] - [" ++ date ++ "] - WARNING - [" ++ context ++ "] - " ++
      (e.map errorRelated).getD "error: NO ERROR" ++ " - data: " ++ data payload

structure Line where
  number : ℕ
  text : String
deriving DecidableEq

inductive Entry where
  | line (line : Line)
  | mark (text : String)
deriving DecidableEq

def startMark (date : String) : Entry := .mark ("START: " ++ date ++ "\n\n")

def endMark (date : String) : Entry := .mark ("END: " ++ date ++ "\n")

def savedAt (date : String) : String := "SAVED-AT-" ++ date ++ ".log"

/-- `logsCache.join(os.EOL) + os.EOL`: an empty cache gives an empty line. -/
def joined (logsCache : List Line) : List Entry :=
  if logsCache = [] then [.mark "\n"] else logsCache.map .line

/-- The logger, the current file, the saved ones by name, and the console. -/
structure Logger where
  file : List Entry
  archives : OMap String (List Entry)
  logsCache : List Line
  console : List Line
  /-- All lines so far, in the order of their numbers. -/
  logged : List Line

/-- A logger that has just been constructed, over a file that may have been there. -/
def Logger.opened (old : List String) : Logger := ⟨old.map .mark, .empty, [], [], []⟩

/-- The clock, and the message of an append that fails. -/
structure Choice where
  now : ℕ
  failure : Option String

inductive Cmd where
  /-- `logsCache.push(str)`, and the cache if it is full then. -/
  | push (log : Log)
  /-- `appendFile` of one line. -/
  | appendLine (log : Log)
  /-- `appendFile` of the cache, as it was when the call took it. -/
  | appendCache (logsCache : List Line)
  | resetCache
  | print (line : Line)
  /-- `clear` reads the clock, and takes the cache. -/
  | takeCache
  /-- `clear` without `saveOld` reads the clock, and empties the cache. -/
  | dropCache
  | appendEnd (date : String)
  | copyFile (date : String)
  | writeFile (date : String)

@[reducible] def Resp : Cmd → Type
  | .push _ => Line × Option (List Line)
  | .appendLine _ => Line × Option String
  | .appendCache _ => Option String
  | .resetCache => Unit
  | .print _ => Unit
  | .takeCache => String × List Line
  | .dropCache => String
  | .appendEnd _ => Option String
  | .copyFile _ => Unit
  | .writeFile _ => Unit

/-- The line of a log. -/
def Logger.line (s : Logger) (log : Log) (now : ℕ) : Line := ⟨s.logged.length, log.str (toISOString now)⟩

/-- `appendFile`: what is written, or the message of the failure. -/
def Logger.append (s : Logger) (i : Choice) (entries : List Entry) : Logger × Option String :=
  match i.failure with
  | none => ({ s with file := s.file ++ entries }, none)
  | some message => (s, some message)

def exec (config : Config) (i : Choice) (s : Logger) : (c : Cmd) → Logger × Resp c
  | .push log =>
    let line := s.line log i.now
    let logsCache := s.logsCache ++ [line]
    ({ s with logsCache, logged := s.logged ++ [line] },
      (line, if logsCache.length = config.max then some logsCache else none))
  | .appendLine log =>
    let line := s.line log i.now
    let (s, failure) := s.append i [.line line]
    ({ s with logged := s.logged ++ [line] }, (line, failure))
  | .appendCache logsCache => s.append i (joined logsCache)
  | .resetCache => ({ s with logsCache := [] }, ())
  | .print line => ({ s with console := s.console ++ [line] }, ())
  | .takeCache => (s, (toISOString i.now, s.logsCache))
  | .dropCache => ({ s with logsCache := [] }, toISOString i.now)
  | .appendEnd date => s.append i [endMark date]
  | .copyFile date => ({ s with archives := s.archives.set (savedAt date) s.file }, ())
  | .writeFile date => ({ s with file := [startMark date] }, ())

abbrev Client (α : Type) : Type := Prog Resp α

/-- `commitCache`, from the point where it has taken the cache. -/
def commitCache (logsCache : List Line) : Client (Except String Unit) := do
  match ← Prog.await (.appendCache logsCache) .ret with
  | some message => return .error message
  | none => do
    .await .resetCache .ret
    return .ok ()

def append (config : Config) (log : Log) : Client Unit := do
  if config.withMemCache then
    let (line, full) ← .await (.push log) .ret
    match full with
    | none => return ()
    | some logsCache =>
      match ← commitCache logsCache with
      | .ok _ => return ()
      | .error _ => .await (.print line) .ret
  else
    let (line, failure) ← .await (.appendLine log) .ret
    match failure with
    | none => return ()
    | some _ => .await (.print line) .ret

def clear (saveOld : Bool) : Client (Except String Unit) := do
  if saveOld then
    let (date, logsCache) ← .await .takeCache .ret
    match ← commitCache logsCache with
    | .error message => return .error message
    | .ok _ =>
      match ← Prog.await (.appendEnd date) .ret with
      | some message => return .error message
      | none => do
        .await (.copyFile date) .ret
        .await (.writeFile date) .ret
        return .ok ()
  else
    let date ← .await .dropCache .ret
    .await (.writeFile date) .ret
    return .ok ()

inductive Call where
  | log (log : Log)
  | clear (saveOld : Bool)

/-- Whether a call is rejected, and with what. -/
abbrev Reply : Type := Except String Unit

def prog (config : Config) : Call → Client Reply
  | .log log => do
    append config log
    return .ok ()
  | .clear saveOld => clear saveOld

def machine (config : Config) : Machine Resp Logger Choice Empty Call Reply where
  exec := exec config
  env := fun e _ => e.elim
  enter := fun _ s => s
  prog := prog config

end NodeToolkit.FsLogger
