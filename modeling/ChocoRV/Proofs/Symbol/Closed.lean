import Mathlib
import ChocoRV.Symbol.Analysis
import ChocoRV.Proofs.Except

/-!
# What symbol tables refer to

Entering a declaration only adds to a symbol table (`SymbolTable.Grows`), and whatever a table
refers to is in it (`SymbolTable.Closed`): a name stands for a class, a function or a global
variable that has been entered, and a method is the constructor of objects or a function of the
table.
-/

namespace ChocoRV

/-- What a name stands for is in the table. -/
def Symbol.InTable (t : SymbolTable) : Symbol → Prop
  | .cls id => id < t.classes.size
  | .func id => id < t.funcs.size
  | .global g => g ∈ t.globals
  | .attr _ | .stack _ => True

/-- A method is the constructor of objects or a function of the table. -/
def Method.InTable (t : SymbolTable) (m : Method) : Prop :=
  m.label = Routine.objectInit ∨ ∃ f ∈ t.funcs.toList, m.label = f.label

namespace SymbolTable

/-- What never changes about a class once it has been entered. -/
def classHeads (t : SymbolTable) : List (Int32 × Label × Label) :=
  t.classes.toList.map fun c => (c.tag, c.prototype, c.dispatchTable)

/-- Table `t'` is `t` with more in it; attributes and methods of classes aside, all that was there
is there as it was. -/
structure Grows (t t' : SymbolTable) : Prop where
  funcs : t.funcs.toList <+: t'.funcs.toList
  heads : t.classHeads <+: t'.classHeads
  globals : t.globals <+: t'.globals

/-- All that the table refers to is in it. -/
structure Closed (t : SymbolTable) : Prop where
  entries : ∀ {scope : Nat} {name : String} {sym : Symbol},
    t.entry? scope name = some sym → sym.InTable t
  methods : ∀ c ∈ t.classes.toList, ∀ m ∈ c.methods, m.InTable t
  builtin : ∀ f ∈ t.funcs.toList, f.builtin = true → f.label ∈ [Routine.print, Routine.len]

variable {t t' t'' : SymbolTable}

/-! ## Growing -/

variable {sym : Symbol} {id : Nat}

namespace Grows

theorem refl (t : SymbolTable) : Grows t t :=
  ⟨List.prefix_rfl, List.prefix_rfl, List.prefix_rfl⟩

theorem trans (h : Grows t t') (h' : Grows t' t'') : Grows t t'' :=
  ⟨h.funcs.trans h'.funcs, h.heads.trans h'.heads, h.globals.trans h'.globals⟩

theorem funcs_size_le (h : Grows t t') : t.funcs.size ≤ t'.funcs.size := h.funcs.length_le

theorem classes_size_le (h : Grows t t') : t.classes.size ≤ t'.classes.size := by
  simpa [classHeads] using h.heads.length_le

theorem inTable (h : Grows t t') (hs : sym.InTable t) : sym.InTable t' := by
  cases sym with
  | cls id => exact Nat.lt_of_lt_of_le hs h.classes_size_le
  | func id => exact Nat.lt_of_lt_of_le hs h.funcs_size_le
  | global g => exact h.globals.subset hs
  | attr _ | stack _ => trivial

theorem method_inTable (h : Grows t t') {m : Method} (hm : m.InTable t) : m.InTable t' :=
  hm.imp_right fun ⟨f, hf, hl⟩ => ⟨f, h.funcs.subset hf, hl⟩

/-- Functions keep their numbers. -/
theorem func_eq (h : Grows t t') (hid : id < t.funcs.size) : t'.func id = t.func id := by
  have hid' : id < t'.funcs.size := Nat.lt_of_lt_of_le hid h.funcs_size_le
  have heq : t'.funcs[id] = t.funcs[id] := (h.funcs.getElem hid).symm
  simp [func, Array.getD, hid, hid', heq]

end Grows

theorem mem_of_func (hid : id < t.funcs.size) : t.func id ∈ t.funcs.toList := by
  simp [func, Array.getD, hid]

theorem mem_of_cls (hid : id < t.classes.size) : t.cls id ∈ t.classes.toList := by
  simp [cls, Array.getD, hid]

/-! ## Looking names up -/

variable {scope : Nat} {name : String}

theorem lookup_eq_ok_iff {span : Span} :
    t.lookup scope name span = .ok sym ↔ t.lookup? scope name = some sym := by
  unfold lookup
  cases t.lookup? scope name with
  | none => simp
  | some sym' => simp

/-- A name that stands for something has an entry in some scope. -/
theorem exists_entry_of_lookup? (h : t.lookup? scope name = some sym) :
    ∃ scope', t.entry? scope' name = some sym := by
  have hwithin : ∀ (fuel scope : Nat), t.lookupWithin name fuel scope = some sym →
      ∃ scope', t.entry? scope' name = some sym := by
    intro fuel
    induction fuel with
    | zero => exact fun _ h => nomatch h
    | succ fuel ih =>
      intro scope h
      rw [lookupWithin] at h
      cases he : t.entry? scope name with
      | some sym' =>
        rw [he] at h
        exact ⟨scope, he.trans h⟩
      | none =>
        rw [he] at h
        obtain ⟨outer, -, h⟩ := Option.bind_eq_some_iff.mp h
        exact ih outer h
  exact hwithin _ _ h

theorem Closed.lookup? (h : t.Closed) (hl : t.lookup? scope name = some sym) : sym.InTable t := by
  obtain ⟨scope', he⟩ := exists_entry_of_lookup? hl
  exact h.entries he

/-! ## Scopes -/

theorem define_grows (t : SymbolTable) (scope : Nat) (name : String) (sym : Symbol) :
    Grows t (t.define scope name sym) :=
  ⟨List.prefix_rfl, List.prefix_rfl, List.prefix_rfl⟩

/-- A name stands for what it was defined as or for what it stood for before. -/
theorem entry?_define {scope' : Nat} {name' : String} {sym' : Symbol}
    (h : SymbolTable.entry? (t.define scope name sym) scope' name' = some sym') :
    (scope' = scope ∧ name' = name ∧ sym' = sym) ∨ t.entry? scope' name' = some sym' := by
  unfold define entry? at h
  rw [Array.getElem?_modify] at h
  split at h
  · rename_i hscope
    obtain ⟨s, hs, h⟩ := Option.bind_eq_some_iff.mp h
    obtain ⟨s₀, hs₀, rfl⟩ := Option.map_eq_some_iff.mp hs
    rw [Std.ExtTreeMap.getElem?_insert] at h
    split at h
    · rename_i hname
      exact .inl ⟨hscope.symm, (Std.compare_eq_iff_eq.mp hname).symm, (Option.some.inj h).symm⟩
    · exact .inr (Option.bind_eq_some_iff.mpr ⟨s₀, hs₀, h⟩)
  · exact .inr h

theorem Closed.define (h : t.Closed) (hs : sym.InTable t) : (t.define scope name sym).Closed where
  entries he := by
    rcases entry?_define he with ⟨-, -, rfl⟩ | he
    · exact hs
    · exact h.entries he
  methods := h.methods
  builtin := h.builtin

/-- A name of a table with one more scope stands for what it did, or the new scope defines it. -/
theorem entry?_push {s : Scope}
    (h : SymbolTable.entry? { t with scopes := t.scopes.push s } scope name = some sym) :
    s.entries[name]? = some sym ∨ t.entry? scope name = some sym := by
  unfold entry? at h
  rw [Array.getElem?_push] at h
  split at h
  · exact .inl h
  · exact .inr h

theorem Closed.addScope (h : t.Closed) (parent : Option Nat) : (t.addScope parent).Closed where
  entries he := by
    rcases entry?_push he with he | he
    · simp at he
    · exact h.entries he
  methods := h.methods
  builtin := h.builtin

/-! ## Classes -/

theorem addClass_grows (t : SymbolTable) (name : String) (tag : Int32) (superClass : Option Nat) :
    Grows t (t.addClass name tag superClass) := by
  refine ⟨List.prefix_rfl, ?_, List.prefix_rfl⟩
  show t.classHeads <+: (t.classes.push _).toList.map _
  rw [Array.toList_push, List.map_append]
  exact List.prefix_append _ _

/-- The methods of a class are in the table, whatever its number. -/
theorem Closed.cls_methods (h : t.Closed) (id : Nat) : ∀ m ∈ (t.cls id).methods, m.InTable t := by
  by_cases hid : id < t.classes.size
  · exact h.methods _ (mem_of_cls hid)
  · intro m hm
    have hdefault : (t.cls id).methods = [] := by
      simp [cls, Array.getD, hid]
      rfl
    rw [hdefault] at hm
    exact nomatch hm

theorem Closed.addClass (h : t.Closed) (name : String) (tag : Int32) (superClass : Option Nat) :
    (t.addClass name tag superClass).Closed := by
  have hinherited : ∀ m ∈ ((superClass.map t.cls).map ClassInfo.methods).getD [], m.InTable t := by
    cases superClass with
    | none => exact fun m hm => nomatch hm
    | some s => exact h.cls_methods s
  refine Closed.define ?_ ?_
  · refine ⟨fun he => ?_, fun c hc m hm => ?_, h.builtin⟩
    · -- The scope of the class defines nothing yet.
      rcases entry?_push he with he | he
      · simp at he
      · exact (addClass_grows t name tag superClass).inTable (h.entries he)
    · rw [Array.toList_push] at hc
      rcases List.mem_append.mp hc with hc | hc
      · exact h.methods c hc m hm
      · cases List.mem_singleton.mp hc
        exact hinherited m hm
  · show t.classes.size < (t.classes.push _).size
    rw [Array.size_push]
    exact Nat.lt_succ_self _

/-- Changing a class in what is not its head changes nothing that stays. -/
theorem modifyClass_grows (t : SymbolTable) (id : Nat) {f : ClassInfo → ClassInfo}
    (hf : ∀ c, ((f c).tag, (f c).prototype, (f c).dispatchTable) =
      (c.tag, c.prototype, c.dispatchTable)) :
    Grows t { t with classes := t.classes.modify id f } := by
  have hheads : { t with classes := t.classes.modify id f }.classHeads = t.classHeads := by
    refine List.ext_getElem? fun k => ?_
    simp only [classHeads, Array.toList_modify, List.getElem?_map, List.getElem?_modify]
    cases t.classes.toList[k]? with
    | none => rfl
    | some c =>
      simp only [Option.map_eq_map, Option.map_some, Option.some.injEq]
      split
      · exact hf c
      · rfl
  exact ⟨List.prefix_rfl, hheads ▸ List.prefix_rfl, List.prefix_rfl⟩

/-- A class of a table in which one class has been changed. -/
theorem mem_classes_modify {f : ClassInfo → ClassInfo} {c : ClassInfo}
    (hc : c ∈ (t.classes.modify id f).toList) :
    c ∈ t.classes.toList ∨ ∃ c₀ ∈ t.classes.toList, c = f c₀ := by
  rw [Array.toList_modify] at hc
  obtain ⟨k, hk⟩ := List.mem_iff_getElem?.mp hc
  rw [List.getElem?_modify] at hk
  obtain ⟨c₀, hc₀, hk⟩ := Option.map_eq_some_iff.mp hk
  have hmem : c₀ ∈ t.classes.toList := List.mem_iff_getElem?.mpr ⟨k, hc₀⟩
  split at hk
  · exact .inr ⟨c₀, hmem, hk.symm⟩
  · exact .inl (hk ▸ hmem)

theorem addAttr_grows (t : SymbolTable) (id : Nat) (var : TypedVar) (init : Literal) :
    Grows t (t.addAttr id var init) := by
  refine Grows.trans (modifyClass_grows t id ?_) (define_grows ..)
  exact fun _ => rfl

theorem Closed.addAttr (h : t.Closed) (id : Nat) (var : TypedVar) (init : Literal) :
    (t.addAttr id var init).Closed := by
  refine Closed.define ?_ ?_
  · refine ⟨fun he => (addAttr_grows t id var init).inTable (h.entries he), fun c hc m hm => ?_,
      h.builtin⟩
    rcases mem_classes_modify hc with hc | ⟨c₀, hc₀, rfl⟩
    · exact h.methods c hc m hm
    · exact h.methods c₀ hc₀ m hm
  · trivial

theorem mem_putMethod {methods : List Method} {m m' : Method} (h : m' ∈ putMethod methods m) :
    m' = m ∨ m' ∈ methods := by
  grind [putMethod]

theorem addMethod_grows (t : SymbolTable) (id : Nat) (name : String) (func : Nat) :
    Grows t (t.addMethod id name func) := by
  refine Grows.trans (modifyClass_grows t id ?_) (define_grows ..)
  exact fun _ => rfl

theorem Closed.addMethod (h : t.Closed) {func : Nat} (hf : func < t.funcs.size) :
    (t.addMethod id name func).Closed := by
  refine Closed.define ?_ ?_
  · refine ⟨fun he => (addMethod_grows t id name func).inTable (h.entries he), fun c hc m hm => ?_,
      h.builtin⟩
    rcases mem_classes_modify hc with hc | ⟨c₀, hc₀, rfl⟩
    · exact h.methods c hc m hm
    · rcases mem_putMethod hm with rfl | hm
      · exact .inr ⟨_, mem_of_func hf, rfl⟩
      · exact h.methods c₀ hc₀ m hm
  · exact hf

/-! ## Functions -/

/-- All that the names of a scope stand for is in the table. -/
def EntriesIn (t : SymbolTable) (entries : Entries) : Prop :=
  ∀ (name : String) (sym : Symbol), entries[name]? = some sym → sym.InTable t

theorem entriesIn_empty (t : SymbolTable) : t.EntriesIn ∅ := by
  intro name sym h
  simp at h

theorem EntriesIn.insert {entries : Entries} (h : t.EntriesIn entries) (hs : sym.InTable t) :
    t.EntriesIn (entries.insert name sym) := by
  intro name' sym' he
  rw [Std.ExtTreeMap.getElem?_insert] at he
  split at he
  · exact Option.some.inj he ▸ hs
  · exact h name' sym' he

/-- Variables in frames are in every table. -/
theorem EntriesIn.insertStack {entries : Entries} (h : t.EntriesIn entries) {v : StackVar} :
    t.EntriesIn (entries.insert name (.stack v)) :=
  h.insert (show (Symbol.stack v).InTable t from trivial)

theorem paramEntries_in (id depth : Nat) (params : List TypedVar) :
    t.EntriesIn (paramEntries id depth params ∅) := by
  unfold paramEntries
  exact List.foldlRecOn _ _ (entriesIn_empty t) fun entries h p _ => h.insertStack

/-- What a local and a global variable keep is kept by the declarations of a function. -/
theorem localEntries_rec {P : Entries → List LocalVar → Prop} {decls : List Decl}
    {acc acc' : Entries × List LocalVar}
    (hvar : ∀ entries locals (v : TypedVar) init, P entries locals →
      P (entries.insert v.name (.stack ⟨v.name, v.type, id, .localVar,
        Frame.localOffset locals.length⟩))
        (locals ++ [⟨v.name, v.type, init⟩]))
    (hglobal : ∀ entries locals g var, t.entry? globalScope g = some (.global var) →
    P entries locals →
      P (entries.insert g (.global var)) locals) (hacc : P acc.1 acc.2)
    (hl : t.localEntries id name decls acc = .ok acc') : P acc'.1 acc'.2 := by
  induction decls generalizing acc with
  | nil =>
    cases hl
    exact hacc
  | cons d rest ih =>
    obtain ⟨entries, locals⟩ := acc
    cases d with
    | var span v init =>
      rw [localEntries] at hl
      exact ih (hvar _ _ v init hacc) hl
    | global span g =>
      rw [localEntries] at hl
      split at hl
      · rename_i var hg
        exact ih (hglobal _ _ g var hg hacc) hl
      · cases hl
    | cls => cases hl
    | nonlocal | func => exact ih hacc hl

theorem localEntries_in (h : t.Closed) {decls : List Decl} {acc acc' : Entries × List LocalVar}
    (hacc : t.EntriesIn acc.1) (hl : t.localEntries id name decls acc = .ok acc') :
    t.EntriesIn acc'.1 := by
  refine localEntries_rec (P := fun entries _ => t.EntriesIn entries) ?_ ?_ hacc hl
  · intro _ _ _ _ hin
    exact hin.insertStack
  · intro _ _ _ var hg hin
    have hvar : (Symbol.global var).InTable t := h.entries hg
    exact hin.insert hvar

/-- Entering a function adds one function, and keeps the table closed. -/
theorem Closed.openFunction (h : t.Closed) {site : Site} {span : Span} {params : List TypedVar}
    {result : ValueType} {decls : List Decl} {body : List Stmt}
    (ho : t.openFunction site span params result decls body = .ok t') :
    t'.Closed ∧ Grows t t' ∧ t'.funcs.size = t.funcs.size + 1 := by
  obtain ⟨⟨entries, locals⟩, hl, ho⟩ := bind_eq_ok_iff.mp ho
  have hentries : t.EntriesIn entries := localEntries_in h (paramEntries_in _ _ _) hl
  cases ho
  have hfuncs : ∀ f, (t.funcs.push f).toList = t.funcs.toList ++ [f] := fun f => Array.toList_push
  have hgrows : Grows t { t with
      funcs := t.funcs.push
        { name := site.name, label := userLabel site.name, depth := site.depth,
          parent := site.parent, params, locals, result, body, scope := t.scopes.size, span,
          builtin := false }
      scopes := t.scopes.push ⟨some site.outer, entries⟩ } := by
    refine ⟨?_, List.prefix_rfl, List.prefix_rfl⟩
    rw [hfuncs]
    exact List.prefix_append _ _
  refine ⟨⟨fun he => ?_, fun c hc m hm => ?_, fun f hf hb => ?_⟩, hgrows, Array.size_push _⟩
  · rcases entry?_push he with he | he
    · exact hgrows.inTable (hentries _ _ he)
    · exact hgrows.inTable (h.entries he)
  · exact hgrows.method_inTable (h.methods c hc m hm)
  · rw [hfuncs] at hf
    rcases List.mem_append.mp hf with hf | hf
    · exact h.builtin f hf hb
    · cases List.mem_singleton.mp hf
      exact nomatch hb

/-! ## Programs -/

theorem addGlobal_grows (t : SymbolTable) (v : TypedVar) (init : Literal) :
    Grows t (t.addGlobal v init) :=
  ⟨List.prefix_rfl, List.prefix_rfl, List.prefix_append _ _⟩

theorem Closed.addGlobal (h : t.Closed) (v : TypedVar) (init : Literal) :
    (t.addGlobal v init).Closed := by
  refine Closed.define ?_ ?_
  · exact ⟨fun he => (addGlobal_grows t v init).inTable (h.entries he), h.methods, h.builtin⟩
  · exact List.mem_append_right _ (List.mem_singleton.mpr rfl)

theorem Closed.addBuiltin (h : t.Closed) (result : ValueType)
    (hname : Label.global name ∈ [Routine.print, Routine.len]) :
    (t.addBuiltin name result).Closed := by
  have hfuncs : ∀ f, (t.funcs.push f).toList = t.funcs.toList ++ [f] := fun f => Array.toList_push
  have hg : Grows t (t.addBuiltin name result) := by
    refine ⟨?_, List.prefix_rfl, List.prefix_rfl⟩
    show t.funcs.toList <+: (t.funcs.push _).toList
    rw [hfuncs]
    exact List.prefix_append _ _
  refine Closed.define ?_ ?_
  · refine ⟨fun he => ?_, fun c hc m hm => hg.method_inTable (h.methods c hc m hm),
      fun f hf _ => ?_⟩
    · rcases entry?_push he with he | he
      · simp at he
      · exact hg.inTable (h.entries he)
    · rw [hfuncs] at hf
      rcases List.mem_append.mp hf with hf | hf
      · exact h.builtin f hf ‹_›
      · cases List.mem_singleton.mp hf
        exact hname
  · show t.funcs.size < (t.funcs.push _).size
    rw [Array.size_push]
    exact Nat.lt_succ_self _

theorem empty_closed : ({} : SymbolTable).Closed where
  entries h := by simp [ entry?] at h
  methods c hc := by simp at hc
  builtin f hf := by simp at hf

end SymbolTable

end ChocoRV
