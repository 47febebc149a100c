import Mathlib
import ChocoRV.Proofs.Alloc.Expand
import ChocoRV.Proofs.DataSegment
import ChocoRV.Proofs.Draft.Units

/-!
# Compiled programs are closed

Every label that a compiled program uses is defined, so every compiled program can be loaded. Uses
and definitions come about in different places: the units place their own labels, their entries and
their exits, the support routines are the same for all programs, and the data segment defines the
variables, the classes and the constants of all of them.
-/

namespace ChocoRV

open Assembly

/-! ## Choosing registers keeps labels and targets -/

theorem Supply.run_labels {pool : List PhysReg} {evs : List Event} {s final : Supply}
    {items : List Item} (h : run pool s evs = .ok (items, final)) :
    labels items = labels (Body.draftItems evs) ∧
      targets items = targets (Body.draftItems evs) := by
  induction evs generalizing s items with
  | nil =>
    cases h
    exact ⟨rfl, rfl⟩
  | cons e evs ih =>
    cases e with
    | item i =>
      obtain ⟨⟨rest, final'⟩, hrest, h⟩ := bind_eq_ok_iff.mp h
      cases h
      obtain ⟨hl, ht⟩ := ih hrest
      cases i with
      | label l => exact ⟨congrArg (l :: ·) hl, ht⟩
      | instr i =>
        refine ⟨hl, ?_⟩
        show targets (.instr _ :: rest) = targets (.instr i :: Body.draftItems evs)
        rw [targets_cons_instr, targets_cons_instr, ht, Op.target?_mapRegs]
    | take t what span =>
      rw [run] at h
      split at h
      · exact ih h
      · cases h
    | release t => exact ih h

variable {b : Body}

/-- A body has the labels and the targets of its draft, in both modes. -/
theorem Body.ofDraft_labels {mode : RegisterMode} {pool : List PhysReg} {spillBase : Int32}
    {function : String} {d : Draft.Result Unit}
    (h : ofDraft mode pool spillBase function d = .ok b) :
    d.value = .ok () ∧ labels b.items = labels (draftItems d.events) ∧
      targets b.items = targets (draftItems d.events) := by
  cases mode with
  | physical =>
    obtain ⟨⟨items, final⟩, hrun, h⟩ := bind_eq_ok_iff.mp h
    obtain ⟨⟨⟩, hvalue, h⟩ := bind_eq_ok_iff.mp h
    cases h
    exact ⟨hvalue, Supply.run_labels hrun⟩
  | virtual =>
    obtain ⟨⟨⟩, hvalue, h⟩ := bind_eq_ok_iff.mp h
    obtain ⟨a, ha, h⟩ := bind_eq_ok_iff.mp h
    cases h
    obtain ⟨final, -, ha⟩ := bind_eq_ok_iff.mp ha
    cases ha
    exact ⟨hvalue, Assignment.labels_apply _ _⟩

/-! ## Units -/

theorem Frame.labels_prologue (f : Frame) : labels f.prologue = [] ∧ targets f.prologue = [] := by
  have hstores (l : List (PhysReg × Nat)) (off : Nat → Int32) :
      labels (l.map fun p => Item.op (.sw (.phys p.1) .fp (off p.2))) = [] ∧
        targets (l.map fun p => Item.op (.sw (.phys p.1) .fp (off p.2))) = [] := by
    induction l with
    | nil => exact ⟨rfl, rfl⟩
    | cons p l ih => exact ih
  unfold prologue
  dsimp only
  split
  · exact ⟨rfl, rfl⟩
  · rw [labels_append, labels_append, targets_append, targets_append]
    have h₁ := hstores (PhysReg.args.take f.args).zipIdx paramOffset
    have h₂ := hstores f.saved.zipIdx f.saveSlot
    exact ⟨by rw [h₁.1, h₂.1]; rfl, by rw [h₁.2, h₂.2]; rfl⟩

theorem Frame.labels_epilogue (f : Frame) (exit : Label) :
    labels (f.epilogue exit) = [exit] ∧ targets (f.epilogue exit) = [] := by
  have hloads (l : List (PhysReg × Nat)) :
      labels (l.map fun p => Item.op (.lw (.phys p.1) .fp (f.saveSlot p.2))) = [] ∧
        targets (l.map fun p => Item.op (.lw (.phys p.1) .fp (f.saveSlot p.2))) = [] := by
    induction l with
    | nil => exact ⟨rfl, rfl⟩
    | cons p l ih => exact ih
  unfold epilogue
  split
  · exact ⟨rfl, rfl⟩
  · rw [List.cons_append, labels_cons_label, targets_cons_label, labels_append, targets_append,
      (hloads _).1, (hloads _).2]
    exact ⟨rfl, rfl⟩

namespace Function

theorem labels_wrap (table : SymbolTable) (u : Option Nat) (b : Body) :
    labels (wrap table u b) =
      entryOf table u :: (labels b.items ++ [.nth (entryOf table u).name 0]) := by
  simp [wrap, Frame.labels_prologue, Frame.labels_epilogue]

theorem targets_wrap (table : SymbolTable) (u : Option Nat) (b : Body) :
    targets (wrap table u b) = targets b.items := by
  simp [wrap, Frame.labels_prologue, Frame.labels_epilogue]

end Function

/-! ## Support routines -/

namespace Routine

/-- The routines whose code is the same in every program. -/
def fixedItems : List Item :=
  abortItems ++ allocItems ++ alloc2Items ++ objectInitItems ++ lenItems ++ strCharItems ++
  concatItems strcat strPrototype .byte ++ concatItems listconcat listPrototype .word ++ streqlItems

/-- What is true of the instructions of every error exit, of printing and of the routines that are
the same in every program is true of those of all routines. -/
theorem forall_items {P : Instr → Prop} {m : Messages} {payload : Int32}
    (exits : ∀ name code text message,
      ∀ i ∈ instrs (errorExit name code text message payload), P i)
    (printing : ∀ i ∈ instrs (printItems m), P i) (fixed : ∀ i ∈ instrs fixedItems, P i) :
    ∀ i ∈ instrs (items m payload), P i := by
  intro i hi
  have hfixed := fixed i
  simp only [items, fixedItems, instrs_append, List.mem_append] at hi hfixed
  grind

/-- The labels that a routine places and the ones that it aims at. -/
def Uses (items : List Item) (placed aimed : List Label) : Prop :=
  labels items = placed ∧ targets items = aimed

theorem uses_errorExit (name : Label) (code : Int32) (text : String) (message : Label)
    (payload : Int32) : Uses (errorExit name code text message payload) [name] [message, abort] :=
  ⟨rfl, rfl⟩

theorem uses_abort : Uses abortItems [abort] [] := ⟨rfl, rfl⟩

theorem uses_alloc : Uses allocItems [alloc, loc alloc 0, loc alloc 1] [loc alloc 1, loc alloc 0] :=
  ⟨rfl, rfl⟩

theorem uses_alloc2 :
    Uses alloc2Items [alloc2, loc alloc2 0, loc alloc2 1] [loc alloc2 1, loc alloc2 0] :=
  ⟨rfl, rfl⟩

theorem uses_objectInit : Uses objectInitItems [objectInit] [] := ⟨rfl, rfl⟩

theorem uses_print (m : Messages) :
    Uses (printItems m) [print, loc print 0, loc print 1, loc print 2, loc print 3]
      [errorNone, loc print 0, loc print 1, loc print 2, m.object, loc print 2, loc print 3, m.yes,
        loc print 2, m.no] :=
  ⟨rfl, rfl⟩

theorem uses_len : Uses lenItems [len] [errorNone] := ⟨rfl, rfl⟩

theorem uses_strChar : Uses strCharItems [strChar] [strPrototype, alloc2] := ⟨rfl, rfl⟩

theorem uses_concat (routine prototype : Label) (width : Width) :
    Uses (concatItems routine prototype width)
      [routine, loc routine 0, loc routine 1, loc routine 2, loc routine 3]
      ((match width with | .byte => [] | .word => [errorNone, errorNone]) ++
        [prototype, alloc2, loc routine 1, loc routine 0, loc routine 3, loc routine 2]) := by
  cases width <;> exact ⟨rfl, rfl⟩

theorem uses_streql :
    Uses streqlItems [streql, loc streql 0, loc streql 1, loc streql 2]
      [loc streql 2, loc streql 1, loc streql 2, loc streql 0] :=
  ⟨rfl, rfl⟩

theorem Uses.append {xs ys : List Item} {p p' a a' : List Label} (h : Uses xs p a)
    (h' : Uses ys p' a') : Uses (xs ++ ys) (p ++ p') (a ++ a') :=
  ⟨by rw [labels_append, h.1, h'.1], by rw [targets_append, h.2, h'.2]⟩

/-- All routines together. -/
theorem uses_items (m : Messages) (payload : Int32) :
    Uses (items m payload)
      [errorNone, errorDiv, errorOob, abort, alloc, loc alloc 0, loc alloc 1, alloc2, loc alloc2 0,
        loc alloc2 1, objectInit, print, loc print 0, loc print 1, loc print 2, loc print 3, len,
        strChar, strcat, loc strcat 0, loc strcat 1, loc strcat 2, loc strcat 3, listconcat,
        loc listconcat 0, loc listconcat 1, loc listconcat 2, loc listconcat 3, streql,
          loc streql 0,
        loc streql 1, loc streql 2]
      [m.onNone, abort, m.division, abort, m.bounds, abort, loc alloc 1, loc alloc 0, loc alloc2 1,
        loc alloc2 0, errorNone, loc print 0, loc print 1, loc print 2, m.object, loc print 2,
        loc print 3, m.yes, loc print 2, m.no, errorNone, strPrototype, alloc2,
          strPrototype, alloc2,
        loc strcat 1, loc strcat 0, loc strcat 3, loc strcat 2, errorNone, errorNone, listPrototype,
        alloc2, loc listconcat 1, loc listconcat 0, loc listconcat 3, loc listconcat 2,
          loc streql 2,
        loc streql 1, loc streql 2, loc streql 0] := by
  have errors := ((uses_errorExit errorNone Object.operationOnNone "Operation on None" m.onNone
    payload).append (uses_errorExit errorDiv Object.divisionByZero "Division by zero" m.division
    payload)).append (uses_errorExit errorOob Object.indexOutOfBounds "Index out of bounds" m.bounds
    payload)
  have objects := (((errors.append uses_abort).append uses_alloc).append uses_alloc2).append
    uses_objectInit
  have strings := ((objects.append (uses_print m)).append uses_len).append uses_strChar
  exact ((strings.append (uses_concat strcat strPrototype .byte)).append
    (uses_concat listconcat listPrototype .word)).append uses_streql

/-- The messages with their texts. -/
def Messages.texts (m : Messages) : List (Label × String) :=
  [(m.onNone, "Operation on None"), (m.division, "Division by zero"),
    (m.bounds, "Index out of bounds"), (m.object, "<object>"), (m.yes, "True"), (m.no, "False")]

/-- The labels of the messages. -/
def Messages.labels (m : Messages) : List Label :=
  [m.onNone, m.division, m.bounds, m.object, m.yes, m.no]

/-- The routines aim at their own labels, at the messages and at two prototypes. -/
theorem targets_items (m : Messages) (payload : Int32) : ∀ l ∈ targets (items m payload),
    l ∈ labels (items m payload) ∨ l ∈ m.labels ∨ l ∈ [strPrototype, listPrototype] := by
  rw [(uses_items m payload).1, (uses_items m payload).2]
  simp [Messages.labels]

/-- The texts of the messages are constants of the pool. -/
theorem messages_stores (pool : ConstantPool) :
    pool.entries <+: (messages pool).2.entries ∧
      ∀ e ∈ (messages pool).1.texts, (messages pool).2.Stores e.1 (.str e.2) := by
  -- Each message joins the pool that the one before it has left.
  rcases h₁ : pool.intern (.str "Operation on None") with ⟨l₁, p₁⟩
  rcases h₂ : p₁.intern (.str "Division by zero") with ⟨l₂, p₂⟩
  rcases h₃ : p₂.intern (.str "Index out of bounds") with ⟨l₃, p₃⟩
  rcases h₄ : p₃.intern (.str "<object>") with ⟨l₄, p₄⟩
  rcases h₅ : p₄.intern (.str "True") with ⟨l₅, p₅⟩
  rcases h₆ : p₅.intern (.str "False") with ⟨l₆, p₆⟩
  simp only [messages, h₁, h₂, h₃, h₄, h₅, h₆, Messages.texts, List.forall_mem_cons]
  obtain ⟨e₁, k₁⟩ := ConstantPool.intern_of_eq h₁
  obtain ⟨e₂, k₂⟩ := ConstantPool.intern_of_eq h₂
  obtain ⟨e₃, k₃⟩ := ConstantPool.intern_of_eq h₃
  obtain ⟨e₄, k₄⟩ := ConstantPool.intern_of_eq h₄
  obtain ⟨e₅, k₅⟩ := ConstantPool.intern_of_eq h₅
  obtain ⟨e₆, k₆⟩ := ConstantPool.intern_of_eq h₆
  have e₅ := e₅.trans e₆
  have e₄ := e₄.trans e₅
  have e₃ := e₃.trans e₄
  have e₂ := e₂.trans e₃
  exact ⟨e₁.trans e₂, k₁.mono e₂, k₂.mono e₃, k₃.mono e₄, k₄.mono e₅, k₅.mono e₆, k₆,
    List.forall_mem_nil _⟩

theorem messages_spec (pool : ConstantPool) :
    pool.entries <+: (messages pool).2.entries ∧
      ∀ l ∈ (messages pool).1.labels, (messages pool).2.Holds l := by
  obtain ⟨hp, htexts⟩ := messages_stores pool
  refine ⟨hp, fun l hl => ?_⟩
  have hl : l ∈ (messages pool).1.texts.map Prod.fst := hl
  obtain ⟨e, he, rfl⟩ := List.mem_map.mp hl
  exact (htexts e he).holds

theorem all_eq_ok {table : SymbolTable} {pool pool' : ConstantPool} {code : List Item}
    (h : all table pool = .ok (code, pool')) :
    ∃ str attr, table.classNamed "str" = .ok str ∧ table.attrOf str "__str__" = .ok attr ∧
      code = items (messages pool).1 attr.offset ∧ pool' = (messages pool).2 := by
  obtain ⟨str, hstr, h⟩ := bind_eq_ok_iff.mp h
  obtain ⟨attr, hattr, h⟩ := bind_eq_ok_iff.mp h
  obtain ⟨hcode, hpool⟩ := Prod.mk.inj (Except.ok.inj h)
  exact ⟨str, attr, hstr, hattr, hcode.symm, hpool.symm⟩

end Routine

/-! ## Programs -/

/-- The drafts of all units of a program. -/
abbrev Function.programDrafts (p : Program) (comments : Bool) (table : SymbolTable) :
    List (Option Nat × Draft.Result Unit) :=
  drafts table comments p.body (units table) {}

theorem Function.map_fst_programDrafts (p : Program) (comments : Bool) (table : SymbolTable) :
    (programDrafts p comments table).map (·.1) = units table :=
  map_fst_drafts

/-- The constants after the drafts of all units. -/
abbrev Function.constants (p : Program) (comments : Bool) (table : SymbolTable) : ConstantPool :=
  poolAfter {} (programDrafts p comments table)

/-- How the assembly of a program is put together. -/
structure CompiledAs (p : Program) (settings : CodegenSettings) (a : Assembly) (table : SymbolTable)
    (bodies : List Body) (payload : Int32) : Prop where
  symbols : SymbolTable.ofProgram p = .ok table
  made : List.Forall₂ (fun (ud : Option Nat × Draft.Result Unit) b =>
    Function.bodyOf settings table ud.1 ud.2 = .ok b)
    (Function.programDrafts p settings.comments table) bodies
  text : a.text = (List.zipWith (fun ud b => Function.wrap table ud.1 b)
      (Function.programDrafts p settings.comments table) bodies).flatten ++
    Routine.items (Routine.messages (Function.constants p settings.comments table)).1 payload
  data : a.data = DataSegment.all table (Routine.messages
    (Function.constants p settings.comments table)).2

variable {settings : CodegenSettings}

/-- How the assembly of a program comes about. The payload of strings is where the attribute that
stands for it lies. -/
theorem compile_eq_ok_attr {p : Program} {a : Assembly} (h : compile p settings = .ok a) :
    ∃ table bodies str attr, SymbolTable.classNamed table "str" = .ok str ∧
      SymbolTable.attrOf table str "__str__" = .ok attr ∧
      CompiledAs p settings a table bodies attr.offset := by
  rw [compile_eq_lower] at h
  obtain ⟨⟨table, text, pool⟩, hl, hrest⟩ := bind_eq_ok_iff.mp h
  obtain ⟨⟨routines, pool'⟩, hr, hret⟩ := bind_eq_ok_iff.mp hrest
  have ha : a = ⟨text ++ routines, DataSegment.all table pool'⟩ := (Except.ok.inj hret).symm
  obtain ⟨ht, hpool, bs, hbs, htext⟩ := lower_eq_ok hl
  obtain ⟨str, attr, hstr, hattr, hcode, hpool'⟩ := Routine.all_eq_ok hr
  rw [hpool] at hcode hpool'
  exact ⟨table, bs, str, attr, hstr, hattr, ht, hbs, by rw [ha, htext, hcode], by rw [ha, hpool']⟩

theorem compile_eq_ok {p : Program} {a : Assembly} (h : compile p settings = .ok a) :
    ∃ table bodies payload, CompiledAs p settings a table bodies payload := by
  obtain ⟨table, bodies, -, attr, -, -, hc⟩ := compile_eq_ok_attr h
  exact ⟨table, bodies, attr.offset, hc⟩

namespace CompiledAs

variable {p : Program} {settings : CodegenSettings} {a : Assembly} {table : SymbolTable}
  {bodies : List Body} {payload : Int32}

variable {l : Label}

/-- A label of the text is defined. -/
theorem text_mem (hl : .label l ∈ a.text) : l.name ∈ a.defs :=
  List.mem_append_left _ (List.mem_map_of_mem (mem_labels.mpr hl))

/-- A label of a routine is in the text. -/
theorem routine_label (h : CompiledAs p settings a table bodies payload)
    (hl : l ∈ labels (Routine.items (Routine.messages
      (Function.constants p settings.comments table)).1 payload)) : .label l ∈ a.text := by
  rw [h.text]
  exact List.mem_append_right _ (mem_labels.mp hl)

theorem routine_mem (h : CompiledAs p settings a table bodies payload)
    (hl : l ∈ labels (Routine.items (Routine.messages
      (Function.constants p settings.comments table)).1 payload)) : l.name ∈ a.defs :=
  text_mem (h.routine_label hl)

variable {ud : Option Nat × Draft.Result Unit}

section

variable (h : CompiledAs p settings a table bodies payload)

include h

/-- The code of a unit is part of the text. -/
theorem wrap_subset
    (hb : (ud, b) ∈ (Function.programDrafts p settings.comments table).zip bodies) :
    Function.wrap table ud.1 b ⊆ a.text := by
  intro i hi
  rw [h.text]
  refine List.mem_append_left _ (List.mem_flatten.mpr ⟨_, ?_, hi⟩)
  rw [← List.map_uncurry_zip_eq_zipWith]
  exact List.mem_map.mpr ⟨(ud, b), hb, rfl⟩

/-- A label of a unit is in the text. -/
theorem wrap_label
    (hb : (ud, b) ∈ (Function.programDrafts p settings.comments table).zip bodies)
    (hl : l ∈ labels (Function.wrap table ud.1 b)) : .label l ∈ a.text :=
  h.wrap_subset hb (mem_labels.mp hl)

theorem wrap_mem
    (hb : (ud, b) ∈ (Function.programDrafts p settings.comments table).zip bodies)
    (hl : l ∈ labels (Function.wrap table ud.1 b)) : l.name ∈ a.defs :=
  text_mem (h.wrap_label hb hl)

theorem data_mem
    (hl : .label l ∈ DataSegment.all table (Routine.messages
      (Function.constants p settings.comments table)).2) : l.name ∈ a.defs := by
  rw [← h.data] at hl
  exact List.mem_append_right _ (List.mem_map_of_mem (List.mem_filterMap.mpr ⟨_, hl, rfl⟩))

/-- How the body of a unit has come about. -/
theorem body_eq_ok
    (hb : (ud, b) ∈ (Function.programDrafts p settings.comments table).zip bodies) :
    ud.1 ∈ Function.units table ∧ Function.bodyOf settings table ud.1 ud.2 = .ok b ∧
      ∃ pool, ud.2 = Function.draftOf table settings.comments p.body pool ud.1 := by
  have hud : ud ∈ Function.programDrafts p settings.comments table := (List.of_mem_zip hb).1
  refine ⟨?_, (List.forall₂_iff_zip.mp h.made).2 hb, Function.mem_drafts hud⟩
  rw [← Function.map_fst_programDrafts p settings.comments]
  exact List.mem_map_of_mem hud

end

variable {u : Option Nat}

variable (h : CompiledAs p settings a table bodies payload)

include h

/-- Every unit has a draft and a body. -/
theorem exists_body
    (hu : u ∈ Function.units table) :
    ∃ d b, ((u, d), b) ∈ (Function.programDrafts p settings.comments table).zip bodies := by
  rw [← Function.map_fst_programDrafts p settings.comments] at hu
  obtain ⟨⟨u, d⟩, hud, rfl⟩ := List.mem_map.mp hu
  rw [← List.map_fst_zip h.made.length_eq.le] at hud
  obtain ⟨⟨ud, b⟩, hb, rfl⟩ := List.mem_map.mp hud
  exact ⟨d, b, hb⟩

/-- A program without functions has one unit. -/
theorem body_alone
    (hcompiled : table.compiled = []) (hb : Function.bodyOf settings table none
      (Function.draftOf table settings.comments p.body {} none) = .ok b) :
    ((none, Function.draftOf table settings.comments p.body {} none), b) ∈
      (Function.programDrafts p settings.comments table).zip bodies := by
  have hdrafts : Function.programDrafts p settings.comments table =
      [(none, Function.draftOf table settings.comments p.body {} none)] := by
    rw [Function.programDrafts, Function.units, hcompiled]
    rfl
  have hmade := h.made
  rw [hdrafts] at hmade ⊢
  obtain ⟨b', bodies, hb', hnil, rfl⟩ := List.forall₂_cons_left_iff.mp hmade
  cases hb'.symm.trans hb
  exact List.mem_cons_self

theorem entry_label
    (hu : u ∈ Function.units table) : .label (Function.entryOf table u) ∈ a.text := by
  obtain ⟨d, b, hb⟩ := h.exists_body hu
  refine h.wrap_label hb ?_
  rw [Function.labels_wrap]
  exact List.mem_cons_self

theorem entry_mem (hu : u ∈ Function.units table)
    : (Function.entryOf table u).name ∈ a.defs :=
  text_mem (h.entry_label hu)

/-- A function of the table is a routine or a unit, so its label is in the text. -/
theorem func_label {f : FuncInfo}
    (hf : f ∈ table.funcs.toList) : .label f.label ∈ a.text := by
  obtain ⟨hclosed, -⟩ := SymbolTable.Closed.ofProgram h.symbols
  cases hb : f.builtin with
  | true =>
    refine h.routine_label ?_
    rw [(Routine.uses_items _ _).1]
    rcases List.mem_pair.mp (hclosed.builtin f hf hb) with hl | hl <;> simp [hl]
  | false =>
    obtain ⟨id, hid, rfl⟩ := List.mem_iff_getElem.mp hf
    have hid' : id < table.funcs.size := hid
    have hfunc : table.func id = table.funcs.toList[id] := by
      simp [SymbolTable.func, Array.getD, hid']
    have hu : some id ∈ Function.units table := by
      refine List.mem_cons_of_mem _ (List.mem_map_of_mem (List.mem_filter.mpr ⟨?_, ?_⟩))
      · exact List.mem_range.mpr hid'
      · rw [hfunc, hb]
        rfl
    have he := h.entry_label hu
    rw [← hfunc]
    exact he

/-- The label of a method is in the text. -/
theorem method_label {c : ClassInfo}
    (hc : c ∈ table.classes.toList) {m : Method} (hm : m ∈ c.methods) :
    .label m.label ∈ a.text := by
  obtain ⟨hclosed, -⟩ := SymbolTable.Closed.ofProgram h.symbols
  rcases hclosed.methods c hc m hm with hinit | ⟨f, hf, hlabel⟩
  · refine h.routine_label ?_
    rw [hinit, (Routine.uses_items _ _).1]
    simp
  · rw [hlabel]
    exact h.func_label hf

/-- All that the code of a unit may aim at outside of it is defined. -/
theorem reaches_mem
    (hu : u ∈ Function.units table) (hl : (Function.envOf table settings.comments u).Reaches l) :
    l.name ∈ a.defs := by
  obtain ⟨hclosed, hgrows⟩ := SymbolTable.Closed.ofProgram h.symbols
  have htable : (Function.envOf table settings.comments u).table = table := by cases u <;> rfl
  have hsym {name : String} {span : Span} {sym : Symbol}
      (hs : (Function.envOf table settings.comments u).resolve name span = .ok sym) :
      sym.InTable table := by
    unfold Env.resolve at hs
    rw [htable] at hs
    obtain ⟨scope, hs⟩ :=
      SymbolTable.exists_entry_of_lookup? (SymbolTable.lookup_eq_ok_iff.mp hs)
    exact hclosed.entries hs
  cases hl with
  | error hl | routine hl =>
    refine h.routine_mem ?_
    rw [(Routine.uses_items _ _).1]
    revert hl l
    simp
  | prototype hl =>
    rcases List.mem_pair.mp hl with rfl | rfl
    · exact h.data_mem DataSegment.listPrototype_mem_all
    · have hint : (Object.intTag, Routine.intPrototype, Label.global "$int$dispatchTable") ∈
          SymbolTable.predefined.classHeads := by
        rw [DataSegment.predefined_heads]
        exact .tail _ (.head _)
      exact h.data_mem (DataSegment.predefined_mem_all hgrows hint).1
  | bool b => exact h.data_mem (DataSegment.holds_mem_all (.inr ⟨b, rfl⟩))
  | exit =>
    obtain ⟨d, b, hb⟩ := h.exists_body hu
    refine h.wrap_mem hb ?_
    have hexit : (Function.envOf table settings.comments u).exit =
        .nth (Function.entryOf table u).name 0 := by cases u <;> rfl
    rw [Function.labels_wrap, hexit]
    simp
  | global hs => exact h.data_mem (DataSegment.global_mem_all (hsym hs))
  | func hs =>
    rw [htable]
    exact text_mem (h.func_label (SymbolTable.mem_of_func (hsym hs)))
  | cls hs =>
    rw [htable]
    exact h.data_mem (DataSegment.class_mem_all (SymbolTable.mem_of_cls (hsym hs))).1

/-- The code of a unit aims at what is defined. -/
theorem unit_targets
    (hb : (ud, b) ∈ (Function.programDrafts p settings.comments table).zip bodies) :
    ∀ l ∈ targets (Function.wrap table ud.1 b), l.name ∈ a.defs := by
  have hok : ∀ ud ∈ Function.programDrafts p settings.comments table, ud.2.value = .ok () := by
    intro ud hud
    obtain ⟨b, hb⟩ : ∃ b, (ud, b) ∈ (Function.programDrafts p settings.comments table).zip
        bodies := by
      rw [← List.map_fst_zip h.made.length_eq.le] at hud
      obtain ⟨⟨ud, b⟩, hb, rfl⟩ := List.mem_map.mp hud
      exact ⟨b, hb⟩
    exact (Body.ofDraft_labels (h.body_eq_ok hb).2.1).1
  obtain ⟨hu, hbody, pool, hd⟩ := h.body_eq_ok hb
  obtain ⟨hvalue, hlabels, htargets⟩ := Body.ofDraft_labels hbody
  have hpool := (Function.pool_extends_drafts hok).2 ud (List.of_mem_zip hb).1
  rw [hd] at hvalue hlabels htargets hpool
  have hknown := ((Function.draftOf_traced hvalue).targets_in (K := (· ∈ a.defs))
    (List.forall_mem_singleton.mpr (h.reaches_mem hu .exit)) (fun l hl => nomatch hl)
    (fun l hl => h.reaches_mem hu hl) (fun l hl => ?_) (fun l hl => ?_)).2
  · intro l hl
    rw [Function.targets_wrap, htargets] at hl
    obtain ⟨i, hi, ht⟩ := mem_targets.mp hl
    exact hknown i (Body.mem_draftItems.mp hi) l ht
  · refine h.data_mem (DataSegment.holds_mem_all (hl.mono ?_))
    exact hpool.trans ((Routine.messages_spec _).1.trans (DataSegment.finalPool_extends _ _))
  · refine h.wrap_mem hb ?_
    rw [Function.labels_wrap, hlabels]
    have hmem : l ∈ labels (Body.draftItems (Function.draftOf table settings.comments p.body pool
        ud.1).events) := mem_labels.mpr (Body.mem_draftItems.mpr hl)
    simp [hmem]

/-- The routines aim at what is defined. -/
theorem routine_targets :
    ∀ l ∈ targets (Routine.items (Routine.messages
      (Function.constants p settings.comments table)).1 payload), l.name ∈ a.defs := by
  intro l hl
  obtain ⟨-, hgrows⟩ := SymbolTable.Closed.ofProgram h.symbols
  rcases Routine.targets_items _ _ l hl with hl | hl | hl
  · exact h.routine_mem hl
  · refine h.data_mem (DataSegment.holds_mem_all ?_)
    exact ((Routine.messages_spec _).2 l hl).mono (DataSegment.finalPool_extends _ _)
  · rcases List.mem_pair.mp hl with rfl | rfl
    · have hstr : (Object.strTag, Routine.strPrototype, Label.global "$str$dispatchTable") ∈
          SymbolTable.predefined.classHeads := by
        rw [DataSegment.predefined_heads]
        exact .tail _ (.tail _ (.tail _ (.head _)))
      exact h.data_mem (DataSegment.predefined_mem_all hgrows hstr).1
    · exact h.data_mem DataSegment.listPrototype_mem_all

/-- A compiled program is closed. -/
theorem closed : a.Closed := by
  obtain ⟨-, hgrows⟩ := SymbolTable.Closed.ofProgram h.symbols
  intro l hl
  rcases List.mem_append.mp hl with hl | hl
  · rw [h.text, targets_append] at hl
    rcases List.mem_append.mp hl with hl | hl
    · obtain ⟨i, hi, ht⟩ := mem_targets.mp hl
      obtain ⟨code, hcode, hi⟩ := List.mem_flatten.mp hi
      rw [← List.map_uncurry_zip_eq_zipWith] at hcode
      obtain ⟨⟨ud, b⟩, hb, rfl⟩ := List.mem_map.mp hcode
      exact h.unit_targets hb l (mem_targets.mpr ⟨i, hi, ht⟩)
    · exact h.routine_targets l hl
  · obtain ⟨d, hd, hl⟩ := List.mem_filterMap.mp hl
    cases d with
    | address l' =>
      cases hl
      rw [h.data] at hd
      rcases DataSegment.address_mem_all hgrows hd with ⟨l', hl', hname⟩ | ⟨c, hc, m, hm, rfl⟩
      · rw [← hname]
        exact h.data_mem hl'
      · exact text_mem (h.method_label hc hm)
    | label | word | ascii | align => exact nomatch hl

end CompiledAs

/-- A compiled program can be loaded. -/
theorem load_of_compile {p : Program} {a : Assembly} (h : compile p settings = .ok a) :
    ∃ img s, Image.load a = .ok (img, s) := by
  obtain ⟨table, bodies, payload, hc⟩ := compile_eq_ok h
  obtain ⟨⟨img, s⟩, hl⟩ := Image.load_ok_iff.mpr hc.closed
  exact ⟨img, s, hl⟩

/-- **Link closure.** If a program compiles, every label that the assembly uses, as the target of an
instruction or as an address in data, is defined in its text or its data, and so is `main`; hence
the assembly can be loaded, and the image knows where to begin. -/
theorem compiled_program_links {p : Program} {settings : CodegenSettings} {a : Assembly}
    (h : compile p settings = .ok a) :
    (∀ l ∈ a.refs, l.name ∈ a.defs) ∧ Function.main ∈ a.defs ∧
      ∃ img s addr, Image.load a = .ok (img, s) ∧ img.label? Function.main = some addr := by
  obtain ⟨table, bodies, payload, hc⟩ := compile_eq_ok h
  have hmain : Function.main ∈ a.defs := hc.entry_mem (u := none) List.mem_cons_self
  obtain ⟨img, s, hl⟩ := load_of_compile h
  have hlabels : img.labels = Image.labelTable a := Image.labels_of_load hl
  have hmem : Function.main ∈ img.labels := by
    rw [hlabels]
    exact Image.mem_labelTable.mpr hmain
  obtain ⟨addr, haddr⟩ := Option.isSome_iff_exists.mp
    (Std.ExtTreeMap.mem_iff_isSome_getElem?.mp hmem)
  exact ⟨hc.closed, hmain, img, s, addr, hl, haddr⟩

/-- A class whose method is called in a loop over a list, by a function nested in another one. -/
def counterLoop : Program :=
  let int (n : Int32) : Expr := .int ⟨{}, .int⟩ n
  let name (type : ValueType) (s : String) : Expr := .name ⟨{}, type⟩ s
  let counter : ValueType := .named "Counter"
  let seen : Expr := .member ⟨{}, .int⟩ (name counter "self") "seen"
  let add : Decl := .func {} "add" [⟨"self", counter⟩, ⟨"n", .int⟩] .none []
    [.assign {} [seen] (.binary ⟨{}, .int⟩ seen .add (name .int "n"))]
  let visit : Decl := .func {} "visit" [] .none []
    [.forEach {} "k" (.list ⟨{}, .list .int⟩ [int 1, int 2])
      [.expr {} (.methodCall ⟨{}, .none⟩ (name counter "c") "add" [name .int "k"])]]
  { decls := [.cls {} "Counter" "object" [.var {} ⟨"seen", .int⟩ (.int 0), add],
      .func {} "count" [] .int
        [.var {} ⟨"c", counter⟩ .none, .var {} ⟨"k", .int⟩ (.int 0), visit]
        [.assign {} [name counter "c"] (.call ⟨{}, counter⟩ "Counter" []),
          .expr {} (.call ⟨{}, .none⟩ "visit" []),
          .ret {} (some (.member ⟨{}, .int⟩ (name counter "c") "seen"))]]
    body := [.expr {} (.call ⟨{}, .none⟩ "print" [.call ⟨{}, .int⟩ "count" []])] }

theorem counterLoop_links :
    ∃ a, compile counterLoop ⟨.virtual, true, 1⟩ = .ok a ∧ (∀ l ∈ a.refs, l.name ∈ a.defs) ∧
      Function.main ∈ a.defs ∧
      ∃ img s addr, Image.load a = .ok (img, s) ∧ img.label? Function.main = some addr := by
  have hok : (compile counterLoop ⟨.virtual, true, 1⟩).isOk = true := by decide +kernel
  obtain ⟨a, h⟩ := exists_ok_of_isOk hok
  exact ⟨a, h, compiled_program_links h⟩

end ChocoRV
