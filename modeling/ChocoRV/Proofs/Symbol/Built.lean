import Mathlib
import ChocoRV.Proofs.Symbol.Closed

/-!
# How symbol tables are built

The table of a program comes about in a few kinds of steps. `SymbolTable.Built` has one rule for
each of them, with what is known at the time of the step: where a function is entered, the function
around it is in the table already, and its scope hangs off the scope of that one.
`SymbolTable.Built.ofProgram` goes through the declarations of a program once; what holds of every
table is then shown by induction on `SymbolTable.Built`.
-/

namespace ChocoRV

namespace SymbolTable

/-! ## Owners of scopes -/

/-- The scope of the names that a function declares, or the top level. -/
def scopeOf (t : SymbolTable) : Option Nat → Nat
  | none => globalScope
  | some f => (t.func f).scope

/-- How many functions enclose a function that `owner` declares. -/
def innerDepth (t : SymbolTable) : Option Nat → Nat
  | none => 0
  | some f => (t.func f).depth + 1

/-- The top level, or a function of the table. -/
def Owner (t : SymbolTable) (owner : Option Nat) : Prop :=
  ∀ f, owner = some f → f < t.funcs.size

theorem owner_none (t : SymbolTable) : t.Owner none := fun _ h => nomatch h

theorem owner_some {t : SymbolTable} {f : Nat} : t.Owner (some f) ↔ f < t.funcs.size :=
  ⟨fun h => h f rfl, fun h _ he => Option.some.inj he ▸ h⟩

/-- Scope and depth of the site are those of a function that its parent declares. -/
structure Site.Inside (t : SymbolTable) (site : Site) : Prop where
  parent : t.Owner site.parent
  outer : site.outer = t.scopeOf site.parent
  depth : site.depth = t.innerDepth site.parent

/-- The constructor that every object has. -/
def objectConstructor : Method :=
  { name := "__init__", label := Routine.objectInit, func := none }

/-! ## Steps -/

/-- Tables that come about step by step. -/
inductive Built : SymbolTable → Prop
  | empty : Built (({} : SymbolTable).addScope none)
  | cls {t : SymbolTable} (h : Built t) (name : String) (tag : Int32) {superClass : Option Nat}
      (hs : ∀ s ∈ superClass, s < t.classes.size) : Built (t.addClass name tag superClass)
  | constructor {t : SymbolTable} (h : Built t) {id : Nat}
      (hnew : ∀ name, t.entry? (t.cls id).scope name = none) :
      Built { t with
        classes := t.classes.modify id fun c => { c with methods := [objectConstructor] } }
  | attr {t : SymbolTable} (h : Built t) (id : Nat) (var : TypedVar) (init : Literal) :
      Built (t.addAttr id var init)
  | method {t : SymbolTable} (h : Built t) (id : Nat) (name : String) {func : Nat}
      (hf : func < t.funcs.size) (hp : (t.func func).parent = none) :
      Built (t.addMethod id name func)
  | builtin {t : SymbolTable} (h : Built t) {name : String} (result : ValueType)
      (hname : Label.global name ∈ [Routine.print, Routine.len]) : Built (t.addBuiltin name result)
  | global {t : SymbolTable} (h : Built t) (v : TypedVar) (init : Literal) :
      Built (t.addGlobal v init)
  | func {t t' : SymbolTable} (h : Built t) {site : Site} (hsite : site.Inside t) {span : Span}
      {params : List TypedVar} {result : ValueType} {decls : List Decl} {body : List Stmt}
      (ho : t.openFunction site span params result decls body = .ok t') : Built t'
  /-- A function gets its name in the scope of what declares it. -/
  | name {t : SymbolTable} (h : Built t) {func : Nat} (hf : func < t.funcs.size) (name : String) :
      Built (t.define (t.scopeOf (t.func func).parent) name (.func func))

namespace Built

variable {t t' : SymbolTable}

theorem closed (h : Built t) : t.Closed := by
  induction h with
  | empty => exact empty_closed.addScope none
  | cls _ name tag _ ih => exact ih.addClass name tag _
  | @constructor t _ id _ ih =>
    refine ⟨fun he => ?_, fun c hc m hm => ?_, ih.builtin⟩
    · refine Grows.inTable (modifyClass_grows t id ?_) (ih.entries he)
      exact fun _ => rfl
    · rcases mem_classes_modify hc with hc | ⟨c₀, -, rfl⟩
      · exact ih.methods c hc m hm
      · cases List.mem_singleton.mp hm
        exact .inl rfl
  | attr _ id var init ih => exact ih.addAttr id var init
  | method _ id name hf _ ih => exact ih.addMethod hf
  | builtin _ result hname ih => exact ih.addBuiltin result hname
  | global _ v init ih => exact ih.addGlobal v init
  | func _ _ ho ih => exact (ih.openFunction ho).1
  | name _ hf name ih => exact ih.define hf

end Built

/-! ## Entering functions -/

variable {t t' : SymbolTable}

theorem func_push {info : FuncInfo} (ht' : t'.funcs = t.funcs.push info) :
    t'.func t.funcs.size = info := by
  simp [func, ht', Array.getD]

variable {params : List TypedVar} {result : ValueType} {decls : List Decl}

/-- What entering a function does: the function and its scope are added. -/
theorem openFunction_eq_ok {site : Site} {span : Span} {body : List Stmt}
    (ho : t.openFunction site span params result decls body = .ok t') :
    ∃ entries locals, t.localEntries t.funcs.size site.name decls
        (paramEntries t.funcs.size site.depth params ∅, []) = .ok (entries, locals) ∧
      t' = { t with
        funcs := t.funcs.push
          { name := site.name, label := userLabel site.name, depth := site.depth,
            parent := site.parent, params, locals, result, body, scope := t.scopes.size, span,
            builtin := false }
        scopes := t.scopes.push ⟨some site.outer, entries⟩ } := by
  obtain ⟨⟨entries, locals⟩, hl, ho⟩ := bind_eq_ok_iff.mp ho
  cases ho
  exact ⟨entries, locals, hl, rfl⟩

theorem parent_openFunction {site : Site} {span : Span} {body : List Stmt}
    (ho : t.openFunction site span params result decls body = .ok t') :
    (t'.func t.funcs.size).parent = site.parent := by
  obtain ⟨entries, locals, -, rfl⟩ := openFunction_eq_ok ho
  rw [func_push rfl]

namespace Built

/-- Entering what is nested in a function of the table. It changes no class. -/
theorem addNested :
    (∀ (t : SymbolTable) (id : Nat) (d : Decl) (t' : SymbolTable), t.Built → id < t.funcs.size →
      t.addNestedDecl id d = .ok t' → t'.Built ∧ Grows t t' ∧ t'.classes = t.classes) ∧
    (∀ (t : SymbolTable) (id : Nat) (ds : List Decl) (t' : SymbolTable), t.Built →
      id < t.funcs.size → t.addNested id ds = .ok t' →
        t'.Built ∧ Grows t t' ∧ t'.classes = t.classes) := by
  refine addNestedDecl.mutual_induct
    (fun t id d => ∀ t', t.Built → id < t.funcs.size → t.addNestedDecl id d = .ok t' →
      t'.Built ∧ Grows t t' ∧ t'.classes = t.classes)
    (fun t id ds => ∀ t', t.Built → id < t.funcs.size → t.addNested id ds = .ok t' →
      t'.Built ∧ Grows t t' ∧ t'.classes = t.classes)
    ?func ?other ?nil ?cons
  case func =>
    intro t id span name params result decls body nested ih t' h hid ha
    rw [addNestedDecl] at ha
    obtain ⟨t₁, ho, ha⟩ := bind_eq_ok_iff.mp ha
    obtain ⟨t₂, hn, ha⟩ := bind_eq_ok_iff.mp ha
    cases ha
    obtain ⟨-, hg₁, hsize⟩ := h.closed.openFunction ho
    have hnested : nested < t₁.funcs.size := by
      rw [hsize]
      exact Nat.lt_succ_self _
    obtain ⟨h₂, hg₂, hc₂⟩ := ih t₁ t₂ (h.func ⟨owner_some.mpr hid, rfl, rfl⟩ ho) hnested hn
    have hnested₂ : nested < t₂.funcs.size := Nat.lt_of_lt_of_le hnested hg₂.funcs_size_le
    have hparent : (t₂.func nested).parent = some id := by
      rw [hg₂.func_eq hnested]
      exact parent_openFunction ho
    have hscope : t₂.scopeOf (some id) = (t.func id).scope :=
      congrArg FuncInfo.scope ((hg₁.trans hg₂).func_eq hid)
    have hb := h₂.name hnested₂ name
    rw [hparent, hscope] at hb
    refine ⟨hb, hg₁.trans (hg₂.trans (define_grows ..)), hc₂.trans ?_⟩
    obtain ⟨entries, locals, -, rfl⟩ := openFunction_eq_ok ho
    rfl
  case other =>
    intro d t id hd t' h _ ha
    rw [addNestedDecl] at ha
    · cases ha
      exact ⟨h, .refl _, rfl⟩
    · exact hd
  case nil =>
    intro t id t' h _ ha
    cases ha
    exact ⟨h, .refl _, rfl⟩
  case cons =>
    intro t id d rest ihd ihrest t' h hid ha
    rw [SymbolTable.addNested] at ha
    obtain ⟨t₁, hd, ha⟩ := bind_eq_ok_iff.mp ha
    obtain ⟨h₁, hg₁, hc₁⟩ := ihd t₁ h hid hd
    obtain ⟨h₂, hg₂, hc₂⟩ := ihrest t₁ t' h₁ (Nat.lt_of_lt_of_le hid hg₁.funcs_size_le) ha
    exact ⟨h₂, hg₁.trans hg₂, hc₂.trans hc₁⟩

/-- Entering a function of the top level or of a class: it is declared by no other function. -/
theorem addFunction (h : t.Built) {qualified : String} {span : Span} {body : List Stmt}
    (ha : t.addFunction qualified span params result decls body = .ok t') :
    t'.Built ∧ Grows t t' ∧ t.funcs.size < t'.funcs.size ∧
      (t'.func t.funcs.size).parent = none := by
  obtain ⟨t₁, ho, ha⟩ := bind_eq_ok_iff.mp ha
  obtain ⟨-, hg₁, hsize⟩ := h.closed.openFunction ho
  have hid : t.funcs.size < t₁.funcs.size := by omega
  obtain ⟨h₂, hg₂, -⟩ := addNested.2 _ _ _ _ (h.func ⟨owner_none t, rfl, rfl⟩ ho) hid ha
  refine ⟨h₂, hg₁.trans hg₂, Nat.lt_of_lt_of_le hid hg₂.funcs_size_le, ?_⟩
  rw [hg₂.func_eq hid]
  exact parent_openFunction ho

theorem addAttrs (h : t.Built) (id : Nat) (decls : List Decl) :
    (t.addAttrs id decls).Built ∧ Grows t (t.addAttrs id decls) := by
  induction decls generalizing t with
  | nil => exact ⟨h, .refl _⟩
  | cons d rest ih =>
    cases d with
    | var span v init =>
      obtain ⟨h', hg⟩ := ih (h.attr id v init)
      exact ⟨h', (addAttr_grows t id v init).trans hg⟩
    | func | cls | global | nonlocal => exact ih h

theorem addMethods {id : Nat} {className : String} (h : t.Built)
    (ha : t.addMethods id className decls = .ok t') : t'.Built ∧ Grows t t' := by
  induction decls generalizing t with
  | nil =>
    cases ha
    exact ⟨h, .refl _⟩
  | cons d rest ih =>
    cases d with
    | var => exact ih h ha
    | func span name params result decls body =>
      obtain ⟨t₁, hf, ha⟩ := bind_eq_ok_iff.mp ha
      obtain ⟨h₁, hg₁, hlt, hparent⟩ := h.addFunction hf
      obtain ⟨h₂, hg₂⟩ := ih (h₁.method id name hlt hparent) ha
      exact ⟨h₂, hg₁.trans ((addMethod_grows ..).trans hg₂)⟩
    | cls | global | nonlocal => cases ha

theorem addUserClass {name superName : String} (h : t.Built)
    (ha : t.addUserClass name superName decls = .ok t') : t'.Built ∧ Grows t t' := by
  unfold SymbolTable.addUserClass at ha
  split at ha
  · rename_i s hs
    have hlt : ∀ s' ∈ some s, s' < t.classes.size := by
      rintro s' ⟨⟩
      exact h.closed.entries hs
    obtain ⟨h₁, hg₁⟩ := (h.cls name t.nextTag hlt).addAttrs t.classes.size decls
    obtain ⟨h₂, hg₂⟩ := h₁.addMethods ha
    exact ⟨h₂, (addClass_grows ..).trans (hg₁.trans hg₂)⟩
  · cases ha

theorem addGlobals (h : t.Built) (decls : List Decl) :
    (t.addGlobals decls).Built ∧ Grows t (t.addGlobals decls) := by
  induction decls generalizing t with
  | nil => exact ⟨h, .refl _⟩
  | cons d rest ih =>
    cases d with
    | var span v init =>
      obtain ⟨h', hg⟩ := ih (h.global v init)
      exact ⟨h', (addGlobal_grows t v init).trans hg⟩
    | func | cls | global | nonlocal => exact ih h

theorem addDecls (h : t.Built) (ha : t.addDecls decls = .ok t') : t'.Built ∧ Grows t t' := by
  induction decls generalizing t with
  | nil =>
    cases ha
    exact ⟨h, .refl _⟩
  | cons d rest ih =>
    cases d with
    | var => exact ih h ha
    | func span name params result decls body =>
      obtain ⟨t₁, hf, ha⟩ := bind_eq_ok_iff.mp ha
      obtain ⟨h₁, hg₁, hlt, hparent⟩ := h.addFunction hf
      have hb := h₁.name hlt name
      rw [hparent] at hb
      obtain ⟨h₂, hg₂⟩ := ih hb ha
      exact ⟨h₂, hg₁.trans ((define_grows ..).trans hg₂)⟩
    | cls span name superName decls =>
      obtain ⟨t₁, hc, ha⟩ := bind_eq_ok_iff.mp ha
      obtain ⟨h₁, hg₁⟩ := h.addUserClass hc
      obtain ⟨h₂, hg₂⟩ := ih h₁ ha
      exact ⟨h₂, hg₁.trans hg₂⟩
    | global | nonlocal => cases ha

theorem addBoxClass (h : t.Built) (name : String) (tag : Int32) (init : Literal) {object : Nat}
    (hobject : object < t.classes.size) : (t.addBoxClass name tag init object).Built := by
  have hcls : Built (t.addClass name tag (some object)) := by
    refine h.cls name tag ?_
    rintro s ⟨⟩
    exact hobject
  unfold SymbolTable.addBoxClass
  dsimp only
  split
  · exact hcls.attr _ _ _
  · exact hcls

theorem predefined : SymbolTable.predefined.Built := by
  unfold SymbolTable.predefined
  refine ((((?_ : Built _).addBoxClass _ _ _ ?_).addBoxClass _ _ _ ?_).addBoxClass
    _ _ _ ?_).builtin _
    (by simp [Routine.print]) |>.builtin _ (by simp [Routine.len])
  · refine (Built.empty.cls "object" Object.objectTag ?_).constructor ?_
    · rintro s ⟨⟩
    · exact fun name => rfl
  all_goals decide

/-- The table of a program is built in these steps. -/
theorem ofProgram {p : Program} (h : SymbolTable.ofProgram p = .ok t) : t.Built :=
  ((predefined.addGlobals p.decls).1.addDecls h).1

end Built

/-- The table of a program is closed, and holds all that is predefined. -/
theorem Closed.ofProgram {p : Program} (h : SymbolTable.ofProgram p = .ok t) :
    t.Closed ∧ Grows predefined t := by
  obtain ⟨h₁, hg₁⟩ := Built.predefined.addGlobals p.decls
  obtain ⟨h₂, hg₂⟩ := h₁.addDecls h
  exact ⟨h₂.closed, hg₁.trans hg₂⟩

end SymbolTable

end ChocoRV
