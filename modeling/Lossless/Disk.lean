import Lossless.Diagnostic

/-!
# Files

What a program can do with files, in any setting (`Host`), and one such setting in which the files
are a value (`Disk`). A file is read as a whole and has to be UTF-8; a file that is written replaces
what stood under its path.
-/

namespace Lossless

/-- Reading and writing files. -/
structure Host (m : Type → Type) where
  read : String → m (Except FileCause String)
  write : String → String → m (Except FileCause Unit)

/-- The text that bytes encode. -/
def decodeText (bytes : ByteArray) : Except FileCause String :=
  match String.fromUTF8? bytes with
  | some text => .ok text
  | none => .error .notText

/-! ## Paths -/

/-- The pieces of a path between its slashes. -/
def segments : List Char → List (List Char)
  | [] => [[]]
  | c :: cs =>
    match c, segments cs with
    | '/', ss => [] :: ss
    | c, s :: ss => (c :: s) :: ss
    | c, [] => [[c]]

/-- A location below the directory in which a program runs: the names on the way to it. -/
abbrev Location := List (List Char)

/-! ## Files that are a value -/

/-- Files and their locations. A directory is there if a file is below it. -/
structure Disk where
  files : List (Location × ByteArray)

/-- What a path leads to. -/
inductive Spot where
  | file (location : Location) (bytes : ByteArray)
  | directory (location : Location)
  /-- A directory that is not on the disk; nothing is known to be in it. -/
  | outside
  /-- Nothing, in a directory that is there. -/
  | vacant (location : Location)

namespace Disk

/-- Whether a location is a directory: the outermost one is, and any other with a file below it. -/
def hasDirectory (d : Disk) (location : Location) : Bool :=
  location.isEmpty || d.files.any fun f => location.isPrefixOf f.1.dropLast

/-- What is at a location whose directory is there. -/
def spotAt (d : Disk) (location : Location) : Spot :=
  match d.files.lookup location with
  | some bytes => .file location bytes
  | none => if d.hasDirectory location then .directory location else .vacant location

/-- Goes down a path piece by piece. Only from a directory is there a way on; an empty piece and a
single point stay in it, and two points go up. -/
def walk (d : Disk) : Spot → List (List Char) → Except FileCause Spot
  | spot, [] => .ok spot
  | .file _ _, _ :: _ => .error .notDirectory
  | .vacant _, _ :: _ => .error .notFound
  | .outside, s :: ss =>
    if s = [] ∨ s = ['.'] ∨ s = ['.', '.'] then d.walk .outside ss else .error .notFound
  | .directory location, s :: ss =>
    if s = [] ∨ s = ['.'] then d.walk (.directory location) ss
    else if s = ['.', '.'] then
      d.walk (if location.isEmpty then .outside else .directory location.dropLast) ss
    else d.walk (d.spotAt (location ++ [s])) ss

/-- Where a path starts: outside if it begins with a slash, and otherwise in the directory in which
the program runs. -/
def start (path : List Char) : Spot := if path.head? = some '/' then .outside else .directory []

/-- The text of a file. -/
def read (d : Disk) (path : String) : Except FileCause String :=
  if path.isEmpty then .error .notFound
  else do
    match ← d.walk (start path.toList) (segments path.toList) with
    | .file _ bytes => decodeText bytes
    | .directory _ | .outside => throw .isDirectory
    | .vacant _ => throw .notFound

/-- The disk with a file at a location, in place of what was there. -/
def put (d : Disk) (location : Location) (bytes : ByteArray) : Disk :=
  ⟨(location, bytes) :: d.files.filter (·.1 != location)⟩

/-- The disk with a file written. The directory of the file must be there, and a path that ends with
a slash is that of a directory. -/
def write (d : Disk) (path text : String) : Except FileCause Disk :=
  if path.isEmpty then .error .notFound
  else do
    let named := ((segments path.toList).reverse.dropWhile List.isEmpty).reverse
    match ← d.walk (start path.toList) named with
    | .file location _ | .vacant location =>
      if path.toList.getLast? = some '/' then throw .isDirectory
      else return d.put location text.toUTF8
    | .directory _ | .outside => throw .isDirectory

/-- The disk with the given files under their paths. -/
def ofFiles (files : List (String × ByteArray)) : Disk :=
  ⟨files.map fun f => ((segments f.1.toList).filter fun s => s != [] && s != ['.'], f.2)⟩

/-- Reading and writing on a disk that is a value. -/
def host : Host (StateM Disk) where
  read path := do return (← get).read path
  write path text := do
    match (← get).write path text with
    | .ok d =>
      set d
      return .ok ()
    | .error cause => return .error cause

end Disk

end Lossless
