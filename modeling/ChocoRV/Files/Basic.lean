/-!
# Files

What a command needs of a file system, apart from what provides it: a disk, or a tree of files in
memory.
-/

namespace ChocoRV

/-- Why an operation on files failed. -/
inductive FileError where
  | notFound
  | alreadyExists
  | notDirectory
  | isDirectory
  | nameTooLong
  /-- Anything else, in the words of the system. -/
  | other (text : String)
deriving DecidableEq, Repr, Inhabited

namespace FileError

def text : FileError → String
  | .notFound => "No such file or directory (os error 2)"
  | .alreadyExists => "File exists (os error 17)"
  | .notDirectory => "Not a directory (os error 20)"
  | .isDirectory => "Is a directory (os error 21)"
  | .nameTooLong => "File name too long (os error 36)"
  | .other text => text

end FileError

/-- The operations on files that a command uses, each given a path. -/
structure FileSystem (m : Type → Type) where
  readText : String → m (Except FileError String)
  /-- Make a file or replace what it holds. -/
  writeText : String → String → m (Except FileError Unit)
  /-- Make one directory. -/
  makeDir : String → m (Except FileError Unit)
  isFile : String → m Bool
  isDir : String → m Bool
  /-- The path from the root without detours, for paths that lead somewhere. -/
  canonical? : String → m (Option String)

end ChocoRV
