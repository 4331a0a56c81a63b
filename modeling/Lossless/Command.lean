import Lossless.Diagnostic.Snippet
import Lossless.Disk
import Lossless.Options
import Lossless.Parse
import Lossless.View.Declaration

/-!
# Commands

The program has three commands: `dump` prints the tree of a file, `check` parses files and counts
what it finds, and `extract` pulls one class declaration out of a larger file. A command runs on any
host and with any renderer for its diagnostics; its outcome is a transcript of what goes to the two
output channels and the exit code.
-/

namespace Lossless

/-! ## Transcripts -/

/-- What a command prints and how it ends. -/
structure Transcript where
  code : Nat
  out : String
  err : String
deriving DecidableEq, Repr

namespace Transcript

/-- A command that ends well and prints a text. -/
def success (out : String) : Transcript := ⟨0, out, ""⟩

/-- A command that fails with a message, and a cause if there is one. -/
def failure (message : String) (cause : Option FileCause) : Transcript where
  code := 1
  out := ""
  err :=
    s!"Error: {message}\n" ++
      match cause with
      | some cause => s!"\nCaused by:\n    {cause.message}\n"
      | none => ""

/-- The same transcript with something printed before it. -/
def after (out err : String) (t : Transcript) : Transcript :=
  { t with out := out ++ t.out, err := err ++ t.err }

end Transcript

/-- An event on one line of the log, if the log shows it. -/
def Event.logLine? : Event → Option String
  | .declaration offset => some s!"DEBUG parsing declaration offset={offset}\n"
  | .parsedClass name children =>
    some s!"DEBUG parsed class declaration class={name} children={children}\n"
  | .passedThrough _ _ => none

namespace Command

/-- The log of a parse, which only a verbose run shows. -/
def logText (verbose : Bool) (events : List Event) : String :=
  if verbose then String.join (events.filterMap Event.logLine?) else ""

/-- An error as it is reported for a file with a given text. -/
def reportText (render : Renderer) (path text : String) (e : Error) : String :=
  match e.diagnostic? with
  | some d => render d path text.toList ++ "\n"
  | none => s!"{path}: {e.display}\n"

/-- The message for a file that cannot be read. -/
def unreadable (path : String) : String := s!"failed to read `{path}`"

/-- How many classes and members a tree has. -/
def summary (tree : Node) : String :=
  match tree.view? .compilationUnit with
  | some unit =>
    let classes := UnitView.allClasses unit
    let members := (classes.flatMap ClassView.members).length
    s!"{classes.length} classes, {members} members"
  | none => ""

/-- Prints the tree of a file. -/
def runDump {m : Type → Type} [Monad m] (host : Host m) (render : Renderer) (verbose : Bool)
    (path : String) : m Transcript := do
  match ← host.read path with
  | .error cause => return .failure (unreadable path) (some cause)
  | .ok text =>
    let report := reportUnit text
    let log := logText verbose report.events
    match report.result with
    | .ok tree => return (Transcript.success tree.dump).after "" log
    | .error e =>
      return (Transcript.failure s!"failed to parse `{path}`" none).after ""
        (log ++ reportText render path text e)

/-- Parses one of several files: what is printed, and whether all is well. -/
def checkOne {m : Type → Type} [Monad m] (host : Host m) (render : Renderer) (verbose : Bool)
    (path : String) : m (String × String × Bool) := do
  match ← host.read path with
  | .error cause => return ("", s!"{unreadable path}: {cause.message}\n", false)
  | .ok text =>
    let report := reportUnit text
    let log := logText verbose report.events
    match report.result with
    | .ok tree => return (s!"{path}: {summary tree}\n", log, true)
    | .error e => return ("", log ++ reportText render path text e, false)

/-- Parses files and counts those that fail. -/
def runCheck {m : Type → Type} [Monad m] (host : Host m) (render : Renderer) (verbose : Bool)
    (paths : List String) : m Transcript := do
  let results ← paths.mapM (checkOne host render verbose)
  let failures := (results.filter fun r => !r.2.2).length
  let out := String.join (results.map fun r => r.1)
  let err := String.join (results.map fun r => r.2.1)
  let ending :=
    if failures = 0 then Transcript.success ""
    else Transcript.failure s!"{failures} of {paths.length} files failed to parse" none
  return ending.after out err

/-- Pulls the declaration that begins with a marker out of a file. -/
def runExtract {m : Type → Type} [Monad m] (host : Host m) (render : Renderer) (verbose : Bool)
    (path marker : String) (output : Option String) : m Transcript := do
  match ← host.read path with
  | .error cause => return .failure (unreadable path) (some cause)
  | .ok text =>
    match declarationOffset? text marker with
    | none => return .failure s!"`{marker}` does not occur in `{path}`" none
    | some offset =>
      let report := reportDeclarationAt text offset
      let log := logText verbose report.events
      match report.result with
      | .error e =>
        let message := s!"failed to parse the declaration at offset {offset}"
        return (Transcript.failure message none).after "" (log ++ reportText render path text e)
      | .ok tree =>
        match output with
        | none => return (Transcript.success tree.reconstruct).after "" log
        | some output =>
          match ← host.write output tree.reconstruct with
          | .ok () => return (Transcript.success "").after "" log
          | .error cause =>
            return (Transcript.failure s!"failed to write `{output}`" (some cause)).after "" log

/-- Runs a command. -/
def run {m : Type → Type} [Monad m] (host : Host m) (render : Renderer) (options : Options) :
    m Transcript :=
  match options.command with
  | .dump path => runDump host render options.verbose path
  | .check paths => runCheck host render options.verbose paths
  | .extract path marker output => runExtract host render options.verbose path marker output

/-- Runs the program on its arguments. Its diagnostics are plain if nothing else is asked for. -/
def runArgs {m : Type → Type} [Monad m] (host : Host m) (args : List String)
    (render : Renderer := Diagnostic.render) : m Transcript :=
  match Options.parse args with
  | .ok options => run host render options
  | .error e => return ⟨2, "", s!"error: {e.message}\n"⟩

end Command

/-- Parses the file at a path. -/
def parseFile {m : Type → Type} [Monad m] (host : Host m) (path : String) :
    m (Except Error Node) := do
  match ← host.read path with
  | .ok text => return parseUnit text
  | .error cause => return .error (.unreadable path cause)

end Lossless
