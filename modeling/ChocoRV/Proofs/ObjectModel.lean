import Mathlib
import ChocoRV.Proofs.ClassLayout
import ChocoRV.Proofs.Link
import ChocoRV.Proofs.Machine.Objects

/-!
# The loaded data segment is the object model

What a running program may rely on: where the machine begins, every class has its prototype and its
dispatch table, every variable of the top level its initial value, and every constant its object,
all of them with the words that the code reads at fixed distances from their labels
(`loaded_data_is_object_model`). The segment has to end before the addresses wrap around, and no
name may be defined twice.
-/

namespace ChocoRV

/-- Memory holds the objects of a program: its classes, variables and constants. -/
structure ObjectModel (p : Program) (table : SymbolTable) (pool : ConstantPool) (a : Assembly)
    (img : Image) (m : Memory) : Prop where
  /-- The labels of classes, and which one of them is `str`. -/
  named : ∀ c ∈ table.classes.toList, c.Labelled ∧ (c.tag = Object.strTag ↔ c.name = "str")
  classes : ∀ c ∈ table.classes.toList, ∃ proto dispatch, img.ClassAt m c proto dispatch
  /-- The labels of methods, which dispatch tables hold, are addresses of the text. -/
  methods : ∀ c ∈ table.classes.toList, ∀ method ∈ c.methods, ∃ pre post,
    a.text = pre ++ .label method.label :: post ∧
      img.label? method.label.name = some (Image.pcOf (Assembly.instrs pre).length)
  declared {span : Span} {v : TypedVar} {init : Literal} (h : .var span v init ∈ p.decls) :
    ⟨v.name, v.type, .global ("$" ++ v.name), init⟩ ∈ table.globals
  globals : ∀ g ∈ table.globals, ∃ addr, img.label? g.label.name = some addr ∧
    img.Represents m (m.readWord addr) g.init g.type
  constants : img.PoolAt m pool
  listPrototype : ∃ addr, img.label? Routine.listPrototype.name = some addr ∧
    img.ObjectAt m addr Object.listTag "$object$dispatchTable" 0

/-- The constants of a compiled program: those of its code and then those of its data. -/
def Function.allConstants (p : Program) (comments : Bool) (table : SymbolTable) : ConstantPool :=
  DataSegment.finalPool table (Routine.messages (Function.constants p comments table)).2

/-! ## What the symbol table has -/

namespace SymbolTable

variable {t : SymbolTable}

theorem Built.mem_addGlobals (h : t.Built) {decls : List Decl} {span : Span} {v : TypedVar}
    {init : Literal} (hd : .var span v init ∈ decls) :
    ⟨v.name, v.type, .global ("$" ++ v.name), init⟩ ∈ (t.addGlobals decls).globals := by
  induction decls generalizing t with
  | nil => cases hd
  | cons d rest ih =>
    rcases List.mem_cons.mp hd with rfl | hrest
    · refine ((h.global v init).addGlobals rest).2.globals.subset ?_
      exact List.mem_append_right _ (List.mem_singleton.mpr rfl)
    · cases d with
      | var span' v' init' => exact ih (h.global v' init') hrest
      | func | cls | global | nonlocal => exact ih h hrest

/-- A variable that a program declares is in its table. -/
theorem mem_globals_of_decl {p : Program} (h : SymbolTable.ofProgram p = .ok t) {span : Span}
    {v : TypedVar} {init : Literal} (hd : .var span v init ∈ p.decls) :
    ⟨v.name, v.type, .global ("$" ++ v.name), init⟩ ∈ t.globals :=
  ((Built.predefined.addGlobals p.decls).1.addDecls h).2.globals.subset
    (Built.predefined.mem_addGlobals hd)

variable {p : Program}

/-- The class with the tag of strings is `str`. -/
theorem Layered.name_of_strTag (h : Layered t (boxClasses ++ p.classDecls))
    (hwords : t.classes.size ≤ 2147483648) {c : ClassInfo} (hc : c ∈ t.classes.toList)
    (htag : c.tag = Object.strTag) : c.name = "str" := by
  rw [toList_classes] at hc
  obtain ⟨k, hk, rfl⟩ := List.mem_map.mp hc
  have hnumber := h.toInt_tag hwords (List.mem_range.mp hk)
  rw [htag, show Object.strTag.toInt = 3 from rfl] at hnumber
  obtain rfl : k = 2 + 1 := by omega
  exact (h.declared (k := 2) rfl).1

theorem Layered.exists_str (h : Layered t (boxClasses ++ p.classDecls)) :
    ∃ c ∈ t.classes.toList, c.tag = Object.strTag ∧ c.name = "str" := by
  have hsize : 3 < t.classes.size := by
    rw [h.size, List.length_append, show boxClasses.length = 3 from rfl]
    omega
  exact ⟨t.cls 3, mem_of_cls hsize, h.tags hsize (by decide), (h.declared (k := 2) rfl).1⟩

/-- The class that lists dispatch as is `object`. -/
theorem Layered.find_object {ds : List ClassDecl} (h : Layered t ds) :
    t.classes.toList.find? (·.tag == Object.objectTag) = some (t.cls 0) ∧
      (t.cls 0).name = "object" := by
  have hsize : 0 < t.classes.size := by
    rw [h.size]
    omega
  refine ⟨?_, h.object.1⟩
  rw [toList_classes, h.size, List.range_succ_eq_map, List.map_cons]
  exact List.find?_cons_of_pos (by rw [h.tags hsize (by decide)]; rfl)

end SymbolTable

theorem DataSegment.listPrototype_eq {table : SymbolTable} {ds : List ClassDecl}
    (h : table.Layered ds) (hlabelled : ∀ c ∈ table.classes.toList, c.Labelled) :
    listPrototype table = ConstantPool.header Object.listTag "$object$dispatchTable"
      (Int32.ofNat 0) ++
      [.label Routine.listPrototype] := by
  obtain ⟨hfind, hname⟩ := h.find_object
  obtain ⟨-, hdispatch⟩ := hlabelled _ (List.mem_of_find?_eq_some hfind)
  rw [hname] at hdispatch
  rw [listPrototype, hfind]
  simp only [hdispatch]
  rfl

/-! ## The result -/

/-- **The loaded data segment is the object model.** -/
theorem loaded_data_is_object_model {p : Program} {settings : CodegenSettings} {a : Assembly}
    (h : compile p settings = .ok a) (hnames : a.defs.Nodup) (hfits : a.dataTop ≤ 4294967296) :
    ∃ table img s, SymbolTable.ofProgram p = .ok table ∧ Image.load a = .ok (img, s) ∧
      ObjectModel p table (Function.allConstants p settings.comments table) a img s.memory := by
  obtain ⟨table, bodies, payload, hc⟩ := compile_eq_ok h
  obtain ⟨img, s, hload⟩ := load_of_compile h
  have hlayered := SymbolTable.Layered.ofProgram hc.symbols
  have hlaid := Image.laid_of_load hload hnames hfits
  rw [hc.data, DataSegment.all_eq] at hlaid
  obtain ⟨hlaid, hconstants⟩ := hlaid.append
  obtain ⟨hlaid, hlist⟩ := hlaid.append
  obtain ⟨hglobals, hclasses⟩ := hlaid.append
  have hpool := hconstants.pool
  have hclassAt := DataSegment.classes_laid hclasses List.prefix_rfl hpool
  have hwords : table.classes.size ≤ 2147483648 := by
    have hle := DataSegment.le_top_classes table.classes.toList (DataSegment.globals table.globals
      (Routine.messages (Function.constants p settings.comments table)).2).2
      (Datum.top Image.dataBase.toNat (DataSegment.globals table.globals
        (Routine.messages (Function.constants p settings.comments table)).2).1)
    have htop := hclasses.top_le
    rw [Array.length_toList] at hle
    omega
  have hlabelled := (SymbolTable.Built.ofProgram hc.symbols).labelled
  refine ⟨table, img, s, hc.symbols, hload, ?_⟩
  constructor
  case named =>
    refine fun c hmem => ⟨hlabelled c hmem, hlayered.name_of_strTag hwords hmem, fun hname => ?_⟩
    -- By its label, the prototype of `c` is that of the predefined class.
    obtain ⟨str, hstr, htag, hstrName⟩ := hlayered.exists_str
    obtain ⟨proto, _, hat⟩ := hclassAt c hmem
    obtain ⟨proto', _, hat'⟩ := hclassAt str hstr
    have hlabel := hat.prototype
    rw [(hlabelled c hmem).1, hname, ← hstrName, ← (hlabelled str hstr).1, hat'.prototype] at hlabel
    cases hlabel
    rw [← hat.object.tagWord, hat'.object.tagWord, htag]
  case classes => exact hclassAt
  case methods =>
    intro c hmem method hmethod
    obtain ⟨pre, post, hsplit⟩ := List.append_of_mem (hc.method_label hmem hmethod)
    refine ⟨pre, post, hsplit, ?_⟩
    rw [Image.label?, Image.labels_of_load hload]
    exact Image.find_eq_ok_iff.mp (Image.find_text hnames hsplit)
  case declared => exact fun {_ _ _} hd => SymbolTable.mem_globals_of_decl hc.symbols hd
  case globals =>
    refine DataSegment.globals_laid hglobals (by decide) ?_ hpool
    exact (DataSegment.classes_spec _ _).1
  case constants => exact hpool
  case listPrototype =>
    rw [DataSegment.listPrototype_eq hlayered hlabelled] at hlist
    obtain ⟨hlabel, hobject, -⟩ := hlist.object (by decide)
    exact ⟨_, hlabel, hobject⟩

/-- A class with attributes of four kinds: a string, a number, a boxed number and no value. -/
def account : Program :=
  { decls := [.var {} ⟨"count", .int⟩ (.int 3), .var {} ⟨"title", .str⟩ (.str "é"),
      .cls {} "Account" "object" [.var {} ⟨"owner", .str⟩ (.str "é"),
        .var {} ⟨"limit", .int⟩ (.int 5), .var {} ⟨"note", .object⟩ (.int 7),
          .var {} ⟨"next", .named "Account"⟩ .none,
        .func {} "close" [⟨"self", .named "Account"⟩] .none [] []]] }

theorem account_loaded :
    ∃ a table img s, compile account ⟨.physical, false, 4⟩ = .ok a ∧ a.defs.Nodup ∧
      a.dataTop ≤ 4294967296 ∧ SymbolTable.ofProgram account = .ok table ∧
      Image.load a = .ok (img, s) ∧
      ObjectModel account table (Function.allConstants account false table) a img s.memory := by
  have hok : (compile account ⟨.physical, false, 4⟩).toOption.any (fun a =>
      decide a.defs.Nodup && decide (a.dataTop ≤ 4294967296)) = true := by decide +kernel
  obtain ⟨a, h, hok⟩ := exists_ok_of_any hok
  simp only [Bool.and_eq_true, decide_eq_true_eq] at hok
  obtain ⟨table, img, s, htable, hload, hmodel⟩ := loaded_data_is_object_model h hok.1 hok.2
  exact ⟨a, table, img, s, h, hok.1, hok.2, htable, hload, hmodel⟩

end ChocoRV
