import MacroModules.CommandLine.Options
import MacroModules.Document.Outline
import MacroModules.Expansion.Batch

/-!
# Runs

A run reads all inputs, then expands them one by one and writes each expansion next to its input. It
stops at the first failure; what has been written by then stays.

* `FileError`: a file that cannot be read or written.
* `Event`: what a run tells while it is going on.
* `readInput`, `checkOutputs`, `writeOutput`, `compileFiles`: the steps of a run and the whole of
  it.
* `run`: a run from its command line to its exit code.
-/

namespace MacroModules

/-- A file that cannot be read or written. -/
structure FileError where
  /-- What was to be done. -/
  operation : String
  path : String
  reason : String
  deriving DecidableEq

/-- The error as a text. -/
def FileError.render (e : FileError) : String :=
  "error: could not " ++ e.operation ++ " file '" ++ e.path ++ "': " ++ e.reason

namespace CommandLine

/-- Why a run fails. -/
inductive Failure where
  | file (e : FileError)
  /-- An input is no document. -/
  | fault (source : Source) (f : Fault)
  /-- An input cannot be expanded. -/
  | compile (e : Expansion.CompileError)
  /-- A range bound has this many digits, which is too many. -/
  | longBound (digits : Nat)
  /-- An expansion gets stuck. -/
  | stuck (i : Expansion.Impasse)
  /-- An input has no name to give an extension to. -/
  | path (f : Path.Fault)
  /-- The path of a file holds a null character. -/
  | nullCharacter
  /-- A file cannot be closed. -/
  | unclosed (e : SystemError)
  /-- There are no options, for a reason that has no exit code. -/
  | options (f : Options.Fault)
  deriving DecidableEq

namespace Failure

/-- The failure to read a source. -/
def ofRead (source : Source) : ReadFailure → Failure
  | .fault f => fault source f
  | .longBound digits => longBound digits

/-- The failure to do something to the file at a path. -/
def ofFile (operation : String) (path : Path) : FileSystem.Fault → Failure
  | .nullCharacter => nullCharacter
  | f => file ⟨operation, path.toString, f.message⟩

/-- The failure to write the file at a path as a whole. -/
def ofShortfall (path : Path) (s : Shortfall) : Failure :=
  match s.stage with
  | .writing => file ⟨"write", path.toString, s.error.reason⟩
  | .closing => unclosed s.error

/-- The failure to expand a document. -/
def ofExpansion : Expansion.Failure → Failure
  | .error e => compile e
  | .stuck i => stuck i

end Failure

/-- What a run tells while it is going on. -/
inductive Event where
  /-- An input has been read and has so many modules. -/
  | parsed (path : String) (modules : Nat)
  /-- The registry is being built. -/
  | registry (notice : Registry.Notice)
  /-- An output has been written. -/
  | wrote (path : String)
  /-- The outline of an input. -/
  | outline (text : String)
  deriving DecidableEq

/-- An event as a text. Only outlines are shown to those who have not asked for more. -/
def Event.render (verbose : Bool) : Event → String
  | parsed path modules =>
    line "DEBUG mmgx.cli: " ("parsed " ++ path ++ ": " ++ Nat.repr modules ++ " module(s)")
  | registry notice => line "DEBUG mmgx.expand: " notice.message
  | wrote path => line "INFO mmgx.cli: " ("wrote " ++ path)
  | outline text => text
where
  line (origin message : String) : String := if verbose then origin ++ message ++ "\n" else ""

/-- What has happened in a run, and the state it has come to. -/
structure Outcome (α : Type) where
  events : List Event
  result : α

/-- The text in some bytes of a file. -/
def decodeInput (path : Path) (bytes : List UInt8) : Except Failure Source :=
  match Utf8.decode bytes with
  | .ok text => .ok ⟨path.toString, text⟩
  | .error f =>
    .error (.file ⟨"read", path.toString,
      "not valid UTF-8 (" ++ f.reason.message ++ " at byte " ++ Nat.repr f.start ++ ")"⟩)

/-- The document in the file at a path. -/
def readInput (fs : FileSystem) (path : Path) : Except Failure Document := do
  let bytes ← (fs.load path).mapError (.ofFile "read" path)
  let source ← decodeInput path bytes
  (Document.read source).mapError (.ofRead source)

/-- The documents in the files at some paths, up to the first that cannot be read. -/
def readInputs (fs : FileSystem) : List Path → Outcome (Except Failure (List Document))
  | [] => ⟨[], .ok []⟩
  | path :: paths =>
    match readInput fs path with
    | .error e => ⟨[], .error e⟩
    | .ok d =>
      let rest := readInputs fs paths
      ⟨.parsed path.toString d.modules.length :: rest.events, rest.result.map (d :: ·)⟩

/-- The output paths of some inputs. None of them may hold a null character or be its own input. -/
def checkOutputs (fs : FileSystem) (extension : String) : List Path → Except Failure (List Path)
  | [] => .ok []
  | path :: paths => do
    let out ← (path.withExtension extension).mapError .path
    if out.hasNull then .error .nullCharacter
    else if fs.normalize out = fs.normalize path then
      .error (.file ⟨"open", path.toString, "output would overwrite the input file"⟩)
    else return out :: (← checkOutputs fs extension paths)

/-- Expands a document and writes the expansion to a path. -/
def writeOutput (r : Registry) (fs : FileSystem) (d : Document) (out : Path) :
    FileSystem × Option Failure :=
  match Expansion.document r d with
  | .error e => (fs, some (.ofExpansion e))
  | .ok text =>
    match fs.write out (Utf8.encode text) with
    | .error f => (fs, some (.ofFile "open" out f))
    | .ok (fs, shortfall) => (fs, shortfall.map (.ofShortfall out))

/-- Expands documents and writes the expansions to paths, up to the first failure. -/
def writeOutputs (r : Registry) (fs : FileSystem) :
    List (Document × Path) → Outcome (FileSystem × Option Failure)
  | [] => ⟨[], fs, none⟩
  | (d, out) :: rest =>
    match writeOutput r fs d out with
    | (fs, some e) => ⟨[], fs, some e⟩
    | (fs, none) =>
      let rest := writeOutputs r fs rest
      ⟨.wrote out.toString :: rest.events, rest.result⟩

/-- Carries out the options: reads every input, then expands and writes one after the other. -/
def compileFiles (fs : FileSystem) (o : Options) : Outcome (FileSystem × Option Failure) :=
  let inputs := readInputs fs o.inputs
  match inputs.result with
  | .error e => ⟨inputs.events, fs, some e⟩
  | .ok ds =>
    match checkOutputs fs o.extension o.inputs with
    | .error e => ⟨inputs.events, fs, some e⟩
    | .ok outs =>
      let outlines := if o.debug then ds.map fun d => Event.outline (Outline.text d) else []
      let notices := (Registry.notices ds).map Event.registry
      let written := writeOutputs (Registry.ofDocuments ds) fs (ds.zip outs)
      ⟨inputs.events ++ outlines ++ notices ++ written.events, written.result⟩

/-- How a run ends. -/
inductive Ending where
  | exit (code : Nat)
  /-- The run breaks off, with a failure that it has no exit code for. -/
  | broken (failure : Failure)
  deriving DecidableEq

/-- Everything that comes of a run. -/
structure Result where
  ending : Ending
  stdout : String
  stderr : String
  files : FileSystem

/-- How a failure ends a run, and what is said about it. -/
def Failure.ending : Failure → Ending × String
  | .file e => (.exit 1, e.render ++ "\n")
  | .fault source f => (.exit 1, (f.report source).render ++ "\n")
  | .compile e => (.exit 2, e.report.render ++ "\n")
  | f => (.broken f, "")

/-- How options at fault end a run, and what is said about them. -/
def optionsEnding (f : Options.Fault) : Ending × String :=
  match f with
  | .config (.format _) | .configFile .. =>
    (.exit 2, "error: invalid config: " ++ f.message ++ "\n")
  | .voidExtension => (.broken (.options f), "")
  | _ => (.exit 2, "error: " ++ f.message ++ "\n")

/-- A run with the given options. -/
def runOptions (fs : FileSystem) (o : Options) : Result :=
  let outcome := compileFiles fs o
  let told := String.join (outcome.events.map (Event.render o.verbose))
  match outcome.result with
  | (fs, none) => ⟨.exit 0, "", told, fs⟩
  | (fs, some e) => ⟨e.ending.1, "", told ++ e.ending.2, fs⟩

/-- A run with the given command line. -/
def run (v : Platform) (fs : FileSystem) (words : List String) : Result :=
  match Arguments.read v words with
  | .error stop =>
    let (code, out, err) := stop.answer v
    ⟨.exit code, out, err, fs⟩
  | .ok args =>
    match Options.resolve v fs args with
    | .error f => ⟨(optionsEnding f).1, "", (optionsEnding f).2, fs⟩
    | .ok o => runOptions fs o

end CommandLine

end MacroModules
