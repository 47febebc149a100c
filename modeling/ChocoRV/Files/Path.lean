/-!
# Paths

Paths are texts with slashes between names. Commands show paths the way they were given, so that
nothing here changes more of a path than it has to.
-/

namespace ChocoRV.Path

/-- What stands between slashes. -/
def parts (path : String) : List String := path.splitOn "/"

def isAbsolute (path : String) : Bool := path.startsWith "/"

/-- The path of an entry of a directory. -/
def join (dir name : String) : String :=
  if dir.isEmpty then name
  else if dir.endsWith "/" then dir ++ name
  else dir ++ "/" ++ name

/-- The extension of a name is what follows its last dot, unless the name begins with that dot. -/
def withoutExtension (name : List Char) : List Char :=
  match name.reverse.dropWhile (· != '.') with
  | _ :: stem@(_ :: _) => stem.reverse
  | _ => name

/-- Replace the extension of the last name of a path, or give it one. Two dots before an extension
are what is left of the name: they stand for the directory above, which has no extension. -/
def withExtension (path ext : String) : String :=
  let cs := path.toList
  let name := (cs.reverse.takeWhile (· != '/')).reverse
  let dir := cs.take (cs.length - name.length)
  let stem := withoutExtension name
  if stem == ['.'] then String.ofList dir ++ ".."
  else String.ofList (dir ++ stem) ++ "." ++ ext

/-- The most bytes that a name has. -/
def maxNameSize : Nat := 255

/-- The most bytes that a path has. -/
def maxSize : Nat := 4095

/-- Parts that name the directory before them. -/
def isVoid (part : String) : Bool := part.isEmpty || part == "."

/-- The parts of the directory around what the parts lead to; the last part comes first. -/
def parentParts (rev : List String) : List String :=
  ((rev.dropWhile isVoid).drop 1).dropWhile isVoid

/-- The path itself, then the directories around it, as long as the path names them; `fuel` bounds
their number. -/
def outwardFrom (absolute : Bool) : Nat → List String → List String
  | 0, _ => []
  | fuel + 1, rev =>
    match parentParts rev with
    | [] => [if absolute then "/" else ""]
    | up => "/".intercalate up.reverse :: outwardFrom absolute fuel up

/-- A path and the directories around it. -/
def outward (path : String) : List String :=
  path :: outwardFrom (isAbsolute path) (parts path).length (parts path).reverse

end ChocoRV.Path
