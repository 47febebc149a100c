import ChocoRV.Files.Basic
import ChocoRV.Files.Path

/-!
# Trees of files

A file system in memory. A place in it is given by the names on the way from the root. Paths are
followed name by name: every name but the last has to be that of a directory, also before the parts
for this directory and for the one above. Names and paths have a greatest size, and one beyond it is
an error where it is met.
-/

namespace ChocoRV

/-- The names on the way from the root. -/
abbrev Place := List String

inductive FileNode where
  | dir
  | file (text : String)
deriving DecidableEq, Repr, Inhabited

structure FileTree where
  nodes : List (Place × FileNode) := []
  /-- Where paths start that do not start at the root. -/
  current : Place := []
deriving DecidableEq, Repr, Inhabited

namespace FileTree

/-- What is at a place; the root is always there. -/
def node? (t : FileTree) : Place → Option FileNode
  | [] => some .dir
  | place => t.nodes.lookup place

/-- Put a node at a place. -/
def put (t : FileTree) (place : Place) (node : FileNode) : FileTree :=
  { t with nodes := (place, node) :: t.nodes.filter (·.1 != place) }

/-- The place of an entry of a directory. -/
def entry (dir : Place) (name : String) : Except FileError Place :=
  if name.utf8ByteSize ≤ Path.maxNameSize then .ok (dir ++ [name]) else .error .nameTooLong

/-- Follow the parts of a path from a place. -/
def follow (t : FileTree) : Place → List String → Except FileError Place
  | place, [] => .ok place
  | place, part :: rest =>
    match t.node? place with
    | none => .error .notFound
    | some (.file _) => .error .notDirectory
    | some .dir =>
      if Path.isVoid part then t.follow place rest
      else if part == ".." then t.follow place.dropLast rest
      else
        match entry place part with
        | .error e => .error e
        | .ok next => if (t.node? next).isNone then .error .notFound else t.follow next rest

/-- Where a path starts. -/
def start (t : FileTree) (path : String) : Except FileError Place :=
  if path.isEmpty then .error .notFound
  else if path.utf8ByteSize > Path.maxSize then .error .nameTooLong
  else .ok (if Path.isAbsolute path then [] else t.current)

/-- The place a path leads to. -/
def find (t : FileTree) (path : String) : Except FileError Place := do
  t.follow (← t.start path) (Path.parts path)

def found? (t : FileTree) (path : String) : Option FileNode :=
  match t.find path with
  | .ok place => t.node? place
  | .error _ => none

def isFile (t : FileTree) (path : String) : Bool :=
  match t.found? path with
  | some (.file _) => true
  | _ => false

def isDir (t : FileTree) (path : String) : Bool := t.found? path == some .dir

def canonical? (t : FileTree) (path : String) : Option String :=
  match t.find path with
  | .ok place => some ("/" ++ "/".intercalate place)
  | .error _ => none

def readText (t : FileTree) (path : String) : Except FileError String := do
  match t.node? (← t.find path) with
  | some (.file text) => return text
  | some .dir => throw .isDirectory
  | none => throw .notFound

/-- The parts of a path without the slashes at its end. -/
def trimmed (path : String) : List String :=
  ((Path.parts path).reverse.dropWhile (·.isEmpty)).reverse

/-- The directory in which a path names its last part, which need not exist. -/
def findParent (t : FileTree) (path : String) : Except FileError Place := do
  let place ← t.follow (← t.start path) (trimmed path).dropLast
  match t.node? place with
  | some .dir => return place
  | some (.file _) => throw .notDirectory
  | none => throw .notFound

/-- The name that the last part of a path is, unless it is one of the parts that stand for a
directory that exists. -/
def lastName? (path : String) : Option String :=
  match (trimmed path).getLast? with
  | some part => if Path.isVoid part || part == ".." then none else some part
  | none => none

/-- A path with a slash at its end can only name a directory. -/
def writeText (t : FileTree) (path text : String) : Except FileError FileTree := do
  let parent ← t.findParent path
  match lastName? path with
  | some name =>
    if path.endsWith "/" then throw .isDirectory
    let place ← entry parent name
    if t.node? place == some .dir then throw .isDirectory
    return t.put place (.file text)
  | none => throw .isDirectory

def makeDir (t : FileTree) (path : String) : Except FileError FileTree := do
  let parent ← t.findParent path
  match lastName? path with
  | some name =>
    let place ← entry parent name
    if (t.node? place).isSome then throw .alreadyExists
    return t.put place .dir
  | none => throw .alreadyExists

/-- Follow the parts of a path from a place and make the directories that are missing. -/
def makeWay : FileTree → Place → List String → FileTree × Place
  | t, place, [] => (t, place)
  | t, place, part :: rest =>
    if Path.isVoid part then makeWay t place rest
    else if part == ".." then makeWay t place.dropLast rest
    else
      let next := place ++ [part]
      makeWay (if (t.node? next).isNone then t.put next .dir else t) next rest

/-- Make a file and all directories on the way to it. -/
def addFile (t : FileTree) (path text : String) : FileTree :=
  let parts := Path.parts path
  let (t, dir) := t.makeWay t.current parts.dropLast
  t.put (dir ++ parts.getLast?.toList) (.file text)

/-- A tree that holds a directory `current` and in it the files at the given paths. -/
def ofFiles (current : Place) (files : List (String × String)) : FileTree :=
  let (empty, _) := makeWay { current } [] current
  files.foldl (fun t (path, text) => t.addFile path text) empty

/-- The files below the current directory, by path from there. -/
def files (t : FileTree) : List (String × String) :=
  t.nodes.filterMap fun (place, node) =>
    match node with
    | .file text =>
      if t.current.isPrefixOf place then
        some ("/".intercalate (place.drop t.current.length), text)
      else none
    | .dir => none

/-- Perform an operation that may change the tree. -/
def change (f : FileTree → Except FileError FileTree) : StateM FileTree (Except FileError Unit) :=
  fun t =>
    match f t with
    | .ok t' => (.ok (), t')
    | .error e => (.error e, t)

/-- The tree as a file system. -/
def fileSystem : FileSystem (StateM FileTree) where
  readText path := fun t => (t.readText path, t)
  writeText path text := change fun t => t.writeText path text
  makeDir path := change fun t => t.makeDir path
  isFile path := fun t => (t.isFile path, t)
  isDir path := fun t => (t.isDir path, t)
  canonical? path := fun t => (t.canonical? path, t)

end FileTree

end ChocoRV
