import Mathlib
import ChocoRV.Proofs.Draft.Links

/-!
# Errors about static chains

Two of the errors of the compiler would say that static links do not lead where they should: that a
variable is in a frame out of reach, and that a nested function has no parent
(`CompileError.BrokenChain`). All other errors are told apart from these by the first letters of
their messages.
-/

namespace ChocoRV

/-- Errors that would say that static links do not lead to a frame that is needed. -/
inductive CompileError.BrokenChain : CompileError → Prop
  | frame (name : String) (span : Span) :
      BrokenChain (.unsupported ("access to a variable of '" ++ name ++ "'") span)
  | parent (name : String) :
      BrokenChain (.invalidProgram ("nested function '" ++ name ++ "' has no parent"))

/-- The computation does not fail with an error about a static chain. -/
def Unbroken {α : Type} (x : Except CompileError α) : Prop := ∀ e, x = .error e → ¬ e.BrokenChain

namespace Unbroken

variable {α β : Type}

theorem ok (a : α) : Unbroken (.ok a) := fun _ h => nomatch h

theorem bind {x : Except CompileError α} {f : α → Except CompileError β} (hx : Unbroken x)
    (hf : ∀ a, x = .ok a → Unbroken (f a)) : Unbroken (x >>= f) := by
  cases x with
  | error e =>
    rintro e' ⟨⟩
    exact hx e rfl
  | ok a => exact hf a rfl

theorem map {x : Except CompileError α} (hx : Unbroken x) (f : α → β) : Unbroken (x.map f) := by
  cases x with
  | error e =>
    rintro e' ⟨⟩
    exact hx e rfl
  | ok a => exact .ok _

theorem unsupported {what : String} {span : Span}
    (h : ∀ name, what ≠ "access to a variable of '" ++ name ++ "'") :
    Unbroken (.error (.unsupported what span) : Except CompileError α) := by
  rintro e ⟨⟩ ⟨⟩
  exact h _ rfl

theorem invalidProgram {reason : String}
    (h : ∀ name, reason ≠ "nested function '" ++ name ++ "' has no parent") :
    Unbroken (.error (.invalidProgram reason) : Except CompileError α) := by
  rintro e ⟨⟩ ⟨⟩
  exact h _ rfl

theorem unresolved {name : String} {span : Span} :
    Unbroken (.error (.unresolved name span) : Except CompileError α) := by
  rintro e ⟨⟩ ⟨⟩

end Unbroken

/-! ## Symbol tables -/

namespace SymbolTable

variable (t : SymbolTable)

theorem unbroken_lookup (scope : Nat) (name : String) (span : Span) :
    Unbroken (t.lookup scope name span) := by
  unfold lookup
  split
  · exact .ok _
  · exact .unresolved

theorem unbroken_classNamed (name : String) : Unbroken (t.classNamed name) := by
  refine (t.unbroken_lookup _ _ _).bind fun sym _ => ?_
  cases sym with
  | cls id => exact .ok _
  | func | attr | global | stack => exact .invalidProgram (by simp [← String.toList_inj])

theorem unbroken_classOf (type : ValueType) : Unbroken (t.classOf type) := by
  cases type with
  | named name => exact t.unbroken_classNamed name
  | list elem => exact .invalidProgram (by simp [← String.toList_inj])

theorem unbroken_attrOf (c : ClassInfo) (name : String) : Unbroken (t.attrOf c name) := by
  refine (t.unbroken_lookup _ _ _).bind fun sym _ => ?_
  cases sym with
  | attr a => exact .ok _
  | cls | func | global | stack => exact .invalidProgram (by simp [← String.toList_inj])

theorem unbroken_localEntries (id : Nat) (name : String) (decls : List Decl)
    (acc : Entries × List LocalVar) : Unbroken (t.localEntries id name decls acc) := by
  induction decls generalizing acc with
  | nil => exact .ok _
  | cons d rest ih =>
    obtain ⟨entries, locals⟩ := acc
    cases d with
    | var span v init => exact ih _
    | global span g =>
      rw [localEntries]
      split
      · exact ih _
      · exact .unresolved
    | cls => exact .invalidProgram (by simp [← String.toList_inj])
    | nonlocal | func => exact ih _

theorem unbroken_openFunction (site : Site) (span : Span) (params : List TypedVar)
    (result : ValueType) (decls : List Decl) (body : List Stmt) :
    Unbroken (t.openFunction site span params result decls body) :=
  (t.unbroken_localEntries _ _ _ _).bind fun _ _ => .ok _

theorem unbroken_addNested :
    (∀ (t : SymbolTable) (id : Nat) (d : Decl), Unbroken (t.addNestedDecl id d)) ∧
    (∀ (t : SymbolTable) (id : Nat) (ds : List Decl), Unbroken (t.addNested id ds)) := by
  refine addNestedDecl.mutual_induct (fun t id d => Unbroken (t.addNestedDecl id d))
    (fun t id ds => Unbroken (t.addNested id ds)) ?func ?other ?nil ?cons
  case func =>
    intro t id span name params result decls body nested ih
    rw [addNestedDecl]
    exact (t.unbroken_openFunction _ _ _ _ _ _).bind fun t₁ _ => (ih t₁).bind fun _ _ => .ok _
  case other =>
    intro d t id hd
    rw [addNestedDecl]
    · exact .ok _
    · exact hd
  case nil => exact fun t id => .ok _
  case cons =>
    intro t id d rest ihd ihrest
    rw [addNested]
    exact ihd.bind fun t₁ _ => ihrest t₁

theorem unbroken_addFunction (qualified : String) (span : Span) (params : List TypedVar)
    (result : ValueType) (decls : List Decl) (body : List Stmt) :
    Unbroken (t.addFunction qualified span params result decls body) :=
  (t.unbroken_openFunction _ _ _ _ _ _).bind fun t₁ _ => unbroken_addNested.2 t₁ _ _

theorem unbroken_addMethods (id : Nat) (className : String) (decls : List Decl) :
    Unbroken (t.addMethods id className decls) := by
  induction decls generalizing t with
  | nil => exact .ok _
  | cons d rest ih =>
    cases d with
    | var => exact ih _
    | func => exact (t.unbroken_addFunction _ _ _ _ _ _).bind fun t₁ _ => ih _
    | cls | global | nonlocal => exact .invalidProgram (by simp [← String.toList_inj])

theorem unbroken_addDecls (decls : List Decl) : Unbroken (t.addDecls decls) := by
  induction decls generalizing t with
  | nil => exact .ok _
  | cons d rest ih =>
    cases d with
    | var => exact ih _
    | func => exact (t.unbroken_addFunction _ _ _ _ _ _).bind fun t₁ _ => ih _
    | cls span name superName decls =>
      refine Unbroken.bind ?_ fun t₁ _ => ih _
      unfold addUserClass
      split
      · exact unbroken_addMethods _ _ _ _
      · exact .invalidProgram (by simp [← String.toList_inj])
    | global | nonlocal => exact .invalidProgram (by simp [← String.toList_inj])

theorem unbroken_ofProgram (p : Program) : Unbroken (ofProgram p) := unbroken_addDecls _ _

end SymbolTable

namespace Env

/-! ## Code -/

theorem unbroken_resolve (env : Env) (name : String) (span : Span) :
    Unbroken (env.resolve name span) :=
  env.table.unbroken_lookup _ _ _

theorem unbroken_nameType (env : Env) (name : String) (span : Span) :
    Unbroken (env.nameType name span) := by
  refine (env.unbroken_resolve _ _).bind fun sym _ => ?_
  cases sym with
  | global g => exact .ok _
  | stack v => exact .ok _
  | cls | func | attr => exact .unsupported (by simp [← String.toList_inj])

theorem unbroken_attrOf (env : Env) (object : Expr) (attr : String) (span : Span) :
    Unbroken (env.attrOf object attr span) := by
  refine (env.table.unbroken_classOf _).bind fun c _ => ?_
  split
  · exact .ok _
  · exact .unresolved

theorem unbroken_checkConcat (span : Span) (result left right : ValueType) :
    Unbroken (checkConcat span result left right) := by
  unfold checkConcat
  split
  · exact .ok _
  · dsimp only
    split
    · exact .ok _
    · exact .unsupported (by simp [← String.toList_inj])

theorem unbroken_checkArgCount (span : Span) (given expected : Nat) :
    Unbroken (checkArgCount span given expected) := by
  unfold checkArgCount
  split
  · exact .ok _
  · exact .invalidProgram (by simp [← String.toList_inj])

theorem unbroken_methodOf (env : Env) (object : Expr) (method : String) (span : Span) :
    Unbroken (env.methodOf object method span) := by
  refine (env.table.unbroken_classOf _).bind fun c _ => ?_
  split
  · exact .ok _
  · exact .unresolved

theorem unbroken_targetType (env : Env) (target : Expr) : Unbroken (env.targetType target) := by
  unfold targetType
  split
  · exact env.unbroken_nameType _ _
  · exact (env.unbroken_attrOf _ _ _).bind fun _ _ => .ok _
  · exact .ok _
  · exact .unsupported (by simp [← String.toList_inj])

theorem unbroken_elementType (span : Span) (seq : ValueType) :
    Unbroken (elementType span seq) := by
  unfold elementType
  split
  · exact .ok _
  · split
    · exact .ok _
    · exact .unsupported (by simp [← String.toList_inj])

end Env

end ChocoRV
