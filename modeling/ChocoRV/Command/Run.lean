import ChocoRV.Asm.Listing
import ChocoRV.Command.Arguments
import ChocoRV.Compile
import ChocoRV.Files.Basic
import ChocoRV.Files.Path
import ChocoRV.Machine.Run
import ChocoRV.Settings.Reader

/-!
# Running commands

What each command does with files and prints. The file system is a parameter, so that commands can
be run on a disk and on a tree of files in memory.
-/

namespace ChocoRV

/-- How a command ended. -/
structure Report where
  exit : UInt8
  stdout : String := ""
  stderr : String := ""
deriving DecidableEq, Repr, Inhabited

namespace Command

variable {m : Type → Type} [Monad m]

/-- Lines for the user that say why a command failed. -/
abbrev Failure := List String

/-- The line for a failure, with what was being done. -/
def failure (doing : List String) (reason : String) : Failure :=
  ["error: " ++ ": ".intercalate (doing ++ [reason])]

/-- The outcome of a file operation, with what it was for. -/
def during {α : Type} (doing : String) : Except FileError α → ExceptT Failure m α
  | .ok a => pure a
  | .error e => throw (failure [doing] e.text)

/-- The first file among paths. -/
def firstFile (fs : FileSystem m) : List String → m (Option String)
  | [] => return none
  | path :: rest => do
    if ← fs.isFile path then return some path else firstFile fs rest

/-- The settings file nearest to a source file, in its directory or in one above. -/
def findSettings (fs : FileSystem m) (source : String) : m (Option String) := do
  match ← fs.canonical? source with
  | none => return none
  | some path => firstFile fs (((Path.outward path).drop 1).map (Path.join · Settings.fileName))

def loadSettings (fs : FileSystem m) (path : String) : ExceptT Failure m Settings := do
  let text ← during ("reading " ++ path) (← fs.readText path)
  match Settings.parse? text with
  | some s => return s
  | none => throw (failure ["reading " ++ path] "malformed settings")

/-- The settings for a source file, with the options put over them. -/
def resolveSettings (fs : FileSystem m) (source : String) (o : CodegenOptions) :
    ExceptT Failure m Settings := do
  let file ← match o.config with
    | some path => pure (some path)
    | none => ExceptT.lift (findSettings fs source)
  let settings ← match file with
    | some path => loadSettings fs path
    | none => pure {}
  let settings := { settings with codegen := o.apply settings.codegen }
  if settings.codegen.effectivePoolSize = 0 then
    throw (failure [] "pool_size must be at least 1")
  return settings

def compileFile (fs : FileSystem m) (path : String) (settings : CodegenSettings) :
    ExceptT Failure m Assembly := do
  let source ← fs.readText path
  match compileSource (source.mapError FileError.text) settings with
  | .ok a => return a
  | .error e => throw (e.diagnostic.inFile path :: failure [] "compilation failed")

/-- Compile a program to a file. -/
def runBuild (fs : FileSystem m) (path : String) (output : Option String) (o : CodegenOptions) :
    ExceptT Failure m Report := do
  let settings ← resolveSettings fs path o
  let a ← compileFile fs path settings.codegen
  match a.render with
  | .error e => throw (failure ["rendering assembly"] e.message)
  | .ok text =>
    let out := output.getD (Path.withExtension path "s")
    during ("writing " ++ out) (← fs.writeText out text)
    return { exit := 0, stdout := "Wrote " ++ out ++ "\n" }

/-- Compile a program and run it; its exit code becomes that of the command. -/
def runRun (fs : FileSystem m) (path : String) (maxSteps : Option Nat) (o : CodegenOptions) :
    ExceptT Failure m Report := do
  let settings ← resolveSettings fs path o
  let a ← compileFile fs path settings.codegen
  match Image.load a with
  | .error f => throw (failure ["loading program"] f.message)
  | .ok (img, s) =>
    match (img.run Function.main (maxSteps.getD settings.run.maxSteps) s).1 with
    | .error f => throw (failure ["executing program"] f.message)
    | .ok o => return { exit := o.exitCode.toUInt32.toUInt8, stdout := o.stdout }

/-- Make a directory, given with the ones around it, and of those the ones that are missing. -/
def makeDirs (fs : FileSystem m) : List String → m (Except FileError Unit)
  | [] => return .ok ()
  | path :: up => do
    if path.isEmpty then return .ok ()
    match ← fs.makeDir path with
    | .ok () => return .ok ()
    | .error .notFound =>
      match ← makeDirs fs up with
      | .error e => return .error e
      | .ok () =>
        match ← fs.makeDir path with
        | .ok () => return .ok ()
        | .error e => if ← fs.isDir path then return .ok () else return .error e
    | .error e => if ← fs.isDir path then return .ok () else return .error e

/-- Write a settings file unless there is one. -/
def runInit (fs : FileSystem m) (dir : String) : ExceptT Failure m Report := do
  let path := Path.join dir Settings.fileName
  if (← fs.isFile path) || (← fs.isDir path) then
    throw (failure [] (path ++ " already exists"))
  during ("creating " ++ dir) (← ExceptT.lift (makeDirs fs (Path.outward dir)))
  during ("writing " ++ path) (← fs.writeText path Settings.defaultText)
  return { exit := 0, stdout := "Created " ++ path ++ "\n" }

def perform (fs : FileSystem m) : Command → ExceptT Failure m Report
  | .build path output o => runBuild fs path output o
  | .run path maxSteps o => runRun fs path maxSteps o
  | .init dir => runInit fs dir

/-- Do what a command line says. -/
def execute (fs : FileSystem m) (words : List String) : m Report := do
  match ofWords words with
  | .error (.help topic) => return { exit := 0, stdout := topic.helpText }
  | .error .noCommand => return { exit := 2, stderr := Topic.program.helpText }
  | .error (.misuse e) => return { exit := 2, stderr := e.text }
  | .ok c =>
    match ← (perform fs c).run with
    | .ok report => return report
    | .error lines => return { exit := 1, stderr := String.join (lines.map (· ++ "\n")) }

end Command

end ChocoRV
