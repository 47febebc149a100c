import ChocoRV.Command.Run

/-!
# The command line program

Commands on the files of the disk.
-/

namespace ChocoRV

namespace Disk

/-- The error that the system reported. -/
def fileError : IO.Error → FileError
  | .noFileOrDirectory .. => .notFound
  | .alreadyExists .. => .alreadyExists
  | .inappropriateType _ code details =>
    if code = 20 then .notDirectory
    else if code = 21 then .isDirectory
    else .other details
  | .invalidArgument _ code details => if code = 36 then .nameTooLong else .other details
  | e => .other (toString e)

/-- Perform an operation and catch its error. -/
def attempt {α : Type} (act : IO α) : IO (Except FileError α) := do
  try
    return .ok (← act)
  catch e => return .error (fileError e)

def fileSystem : FileSystem IO where
  readText path := attempt (IO.FS.readFile path)
  writeText path text := attempt (IO.FS.writeFile path text)
  makeDir path := attempt (IO.FS.createDir path)
  isFile path := do
    match ← attempt (do return (← (← IO.FS.realPath path).metadata).type) with
    | .ok .file => return true
    | _ => return false
  isDir path := do
    match ← attempt (do return (← (← IO.FS.realPath path).metadata).type) with
    | .ok .dir => return true
    | _ => return false
  canonical? path := do
    match ← attempt (IO.FS.realPath path) with
    | .ok p => return some p.toString
    | .error _ => return none

end Disk

end ChocoRV

def main (args : List String) : IO UInt32 := do
  let report ← ChocoRV.Command.execute ChocoRV.Disk.fileSystem args
  IO.print report.stdout
  IO.eprint report.stderr
  return report.exit.toUInt32
