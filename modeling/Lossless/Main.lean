import Lossless.Command

/-!
# The program

Connects the commands to the file system and to the standard channels.
-/

namespace Lossless

/-- The cause of a failed access to a file. -/
def FileCause.ofSystem : IO.Error → FileCause
  | .noFileOrDirectory .. => .notFound
  | .inappropriateType _ 21 _ => .isDirectory
  | .inappropriateType _ 20 _ => .notDirectory
  | e => .other (toString e)

/-- The files of the file system. -/
def systemHost : Host IO where
  read path := do
    try
      return decodeText (← IO.FS.readBinFile path)
    catch e => return .error (.ofSystem e)
  write path text := do
    try
      IO.FS.writeBinFile path text.toUTF8
      return .ok ()
    catch e => return .error (.ofSystem e)

end Lossless

open Lossless in
/-- Runs a command and ends with its exit code. -/
def main (args : List String) : IO UInt32 := do
  let transcript ← Command.runArgs systemHost args
  IO.print transcript.out
  IO.eprint transcript.err
  return UInt32.ofNat transcript.code
