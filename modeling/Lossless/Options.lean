/-!
# Command lines

The arguments of the program name one of three commands and what it works on. Flags may stand in
front of the command or among its own arguments; a double dash ends the options.
-/

namespace Lossless

/-- What is to be done. -/
inductive Command where
  | dump (path : String)
  | check (paths : List String)
  | extract (path marker : String) (output : Option String)
deriving DecidableEq, Repr

/-- The command line. -/
structure Options where
  verbose : Bool
  command : Command
deriving DecidableEq, Repr

/-- Why arguments are not understood. -/
inductive UsageError where
  | noCommand
  | unknownCommand (word : String)
  | unknownOption (word : String)
  | repeatedOption (name : String)
  | missingValue (name : String)
  | missingArgument (name : String)
  | extraArgument (word : String)
deriving DecidableEq, Repr

def UsageError.message : UsageError → String
  | .noCommand => "a command is required: dump, check or extract"
  | .unknownCommand word => s!"unrecognized command '{word}'"
  | .unknownOption word => s!"unexpected option '{word}'"
  | .repeatedOption name => s!"the option '{name}' cannot be used more than once"
  | .missingValue name => s!"a value is required for '{name}'"
  | .missingArgument name => s!"the argument '{name}' is required"
  | .extraArgument word => s!"unexpected argument '{word}'"

namespace Options

/-! ## Words -/

/-- Whether a word is an option and no value. A single dash is a value. -/
def isOption (word : String) : Bool :=
  match word.toList with
  | '-' :: _ :: _ => true
  | _ => false

/-- Whether a word asks for the log. -/
def isVerbose (word : String) : Bool := word == "-v" || word == "--verbose"

/-- The value in an argument of the form `name=value`. -/
def inlineValue? (name word : String) : Option String :=
  if (name ++ "=").toList.isPrefixOf word.toList then
    some (String.ofList (word.toList.drop (name.length + 1)))
  else none

/-! ## Arguments of a command -/

/-- The arguments of a command, sorted into options and everything else in order. -/
structure Sorted where
  verbose : Bool := false
  marker : Option String := none
  output : Option String := none
  paths : List String := []
deriving DecidableEq, Repr

/-- Sets the verbose flag, which can be given once. -/
def Sorted.setVerbose (s : Sorted) : Except UsageError Sorted :=
  if s.verbose then .error (.repeatedOption "--verbose") else .ok { s with verbose := true }

/-- Sets the marker, which can be given once. -/
def Sorted.setMarker (s : Sorted) (value : String) : Except UsageError Sorted :=
  if s.marker.isSome then .error (.repeatedOption "--marker")
  else .ok { s with marker := some value }

/-- Sets the output path, which can be given once. -/
def Sorted.setOutput (s : Sorted) (value : String) : Except UsageError Sorted :=
  if s.output.isSome then .error (.repeatedOption "--output")
  else .ok { s with output := some value }

/-- The value that an option takes from the next word. -/
def nextValue (name value : String) : Except UsageError String :=
  if isOption value then .error (.missingValue name) else .ok value

/-- Sorts the arguments of a command. -/
def sort (s : Sorted) : List String → Except UsageError Sorted
  | [] => .ok s
  | "--" :: rest => .ok { s with paths := s.paths ++ rest }
  | ["--marker"] => .error (.missingValue "--marker")
  | ["--output"] => .error (.missingValue "--output")
  | "--marker" :: value :: rest => do sort (← s.setMarker (← nextValue "--marker" value)) rest
  | "--output" :: value :: rest => do sort (← s.setOutput (← nextValue "--output" value)) rest
  | word :: rest => do
    if isVerbose word then sort (← s.setVerbose) rest
    else if let some value := inlineValue? "--marker" word then sort (← s.setMarker value) rest
    else if let some value := inlineValue? "--output" word then sort (← s.setOutput value) rest
    else if isOption word then throw (.unknownOption word)
    else sort { s with paths := s.paths ++ [word] } rest

/-- Refuses the options that only `extract` has. -/
def Sorted.refuseExtractOptions (s : Sorted) : Except UsageError Unit := do
  if s.marker.isSome then throw (.unknownOption "--marker")
  if s.output.isSome then throw (.unknownOption "--output")

/-- The command that a word names, with these arguments. -/
def Sorted.command (s : Sorted) (word : String) : Except UsageError Command := do
  match word with
  | "dump" =>
    s.refuseExtractOptions
    match s.paths with
    | [] => throw (.missingArgument "PATH")
    | [path] => return .dump path
    | _ :: extra :: _ => throw (.extraArgument extra)
  | "check" =>
    s.refuseExtractOptions
    match s.paths with
    | [] => throw (.missingArgument "PATHS")
    | paths => return .check paths
  | "extract" =>
    match s.paths, s.marker with
    | [], _ => throw (.missingArgument "PATH")
    | _ :: extra :: _, _ => throw (.extraArgument extra)
    | _, none => throw (.missingArgument "--marker")
    | [path], some marker => return .extract path marker s.output
  | word => throw (.unknownCommand word)

/-- Reads the arguments of the program. -/
def parse (args : List String) : Except UsageError Options := do
  let flags := args.takeWhile isVerbose
  if 1 < flags.length then throw (.repeatedOption "--verbose")
  match args.drop flags.length with
  | [] => throw .noCommand
  | word :: rest =>
    if isOption word then throw (.unknownOption word)
    let sorted ← sort {} rest
    return ⟨!flags.isEmpty || sorted.verbose, ← sorted.command word⟩

end Options

end Lossless
