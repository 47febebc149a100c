import ChocoRV.Source.Decode
import ChocoRV.Symbol.Analysis
import ChocoRV.Draft.Function
import ChocoRV.Routine.Code
import ChocoRV.DataSegment

/-!
# Compiling programs

The top level, then every function and method, then the support routines; the data beside them.
-/

namespace ChocoRV

/-- The assembly of a program. -/
def compile (p : Program) (settings : CodegenSettings) : Except CompileError Assembly := do
  let table ← SymbolTable.ofProgram p
  let (main, pool) ← Function.topLevel settings table p.body {}
  let (funcs, pool) ← Function.all settings table table.compiled pool
  let (routines, pool) ← Routine.all table pool
  return { text := main ++ funcs ++ routines, data := DataSegment.all table pool }

/-- Why a source file gave no assembly. -/
inductive SourceError where
  /-- The file could not be read, for the reason given. -/
  | unreadable (reason : String)
  /-- The text is not that of a program. -/
  | malformed
  | invalid (e : CompileError)
deriving DecidableEq, Repr, Inhabited

namespace SourceError

def diagnostic : SourceError → Diagnostic
  | .unreadable reason => { message := "failed to read file: " ++ reason }
  | .malformed => { message := "malformed AST" }
  | .invalid e => .ofCompileError e

end SourceError

/-- The assembly of a source text, or the reason why it could not be read. -/
def compileSource (source : Except String String) (settings : CodegenSettings) :
    Except SourceError Assembly :=
  match source with
  | .error reason => .error (.unreadable reason)
  | .ok text =>
    match Program.parse? text with
    | none => .error .malformed
    | some p => (compile p settings).mapError .invalid

end ChocoRV
