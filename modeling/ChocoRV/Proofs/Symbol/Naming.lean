import Mathlib
import ChocoRV.Proofs.Symbol.Classes

/-!
# Qualified names of functions

A function inside another one, or inside a class, has the name of what encloses it before its own,
with a dot between them. `Decl.functionNames` lists the qualified names that a declaration brings,
and `SymbolTable.names_ofProgram` says that the functions of a table have these names. If the names
in a program have no dot in them and names in one place are different, so are the qualified names:
split at the dots, a name begins with the name of the declaration that it comes from.
-/

namespace ChocoRV

/-! ## Splitting names -/

/-- The parts of a name between the occurrences of a character. -/
def nameParts (sep : Char) (name : String) : List (List Char) := name.toList.splitOn sep

theorem nameParts_join {sep : Char} {joint : String} (hj : joint.toList = [sep])
    (left right : String) :
    nameParts sep (left ++ joint ++ right) = nameParts sep left ++ nameParts sep right := by
  unfold nameParts
  rw [String.toList_append, String.toList_append, hj, List.append_assoc, List.singleton_append,
    List.splitOn_append_cons_self]

variable {name : String}

theorem nameParts_of_not_mem {sep : Char} (h : sep ∉ name.toList) :
    nameParts sep name = [name.toList] :=
  List.splitOn_eq_singleton h

/-- A name without the characters that join names; every name of letters, digits and underscores is
one. -/
def PlainName (name : String) : Prop := '.' ∉ name.toList ∧ '$' ∉ name.toList

instance (name : String) : Decidable (PlainName name) := inferInstanceAs (Decidable (_ ∧ _))

theorem dotted_parts (h : PlainName name) (outer : String) :
    nameParts '.' (outer ++ "." ++ name) = nameParts '.' outer ++ [name.toList] := by
  rw [nameParts_join rfl, nameParts_of_not_mem h.1]

/-- Two names with the same beginning and different parts after it. -/
theorem part_eq_of_prefixes (ps : List (List Char)) {m n : String} {q : List (List Char)}
    (hm : ps ++ [m.toList] <+: q) (hn : ps ++ [n.toList] <+: q) : m = n := by
  have h : ps ++ [m.toList] = ps ++ [n.toList] :=
    (List.prefix_of_prefix_length_le hm hn (by simp)).eq_of_length (by simp)
  exact String.toList_inj.mp (List.singleton_injective (List.append_cancel_left h))

/-! ## Declared names -/

namespace Decl

/-- The name of a function. -/
def funcName? : Decl → Option String
  | .func _ name .. => some name
  | _ => none

/-- The global variable that a declaration of the top level brings. -/
def globalVar? : Decl → Option GlobalVar
  | .var _ v init => some ⟨v.name, v.type, SymbolTable.userLabel v.name, init⟩
  | _ => none

/-- The name that a declaration of the top level brings. -/
def name? : Decl → Option String
  | .var _ v _ => some v.name
  | .func _ name .. | .cls _ name .. => some name
  | .global .. | .nonlocal .. => none

mutual

/-- The qualified names of a function inside `outer` and of all functions inside it. -/
def nestedNames (outer : String) : Decl → List String
  | .func _ name _ _ decls _ =>
    (outer ++ "." ++ name) :: nestedNamesAll (outer ++ "." ++ name) decls
  | _ => []

def nestedNamesAll (outer : String) : List Decl → List String
  | [] => []
  | d :: rest => d.nestedNames outer ++ nestedNamesAll outer rest

end

/-- The qualified names of the functions that a declaration of the top level brings. -/
def functionNames : Decl → List String
  | .func _ name _ _ decls _ => name :: nestedNamesAll name decls
  | .cls _ name _ decls => nestedNamesAll name decls
  | _ => []

mutual

/-- Names of functions and classes are plain, and functions in one place have different names. -/
def WellNamed : Decl → Prop
  | .func _ name _ _ decls _ | .cls _ name _ decls =>
    PlainName name ∧ (decls.filterMap funcName?).Nodup ∧ AllWellNamed decls
  | _ => True

def AllWellNamed : List Decl → Prop
  | [] => True
  | d :: rest => d.WellNamed ∧ AllWellNamed rest

end

end Decl

/-- The qualified names of the functions of a program. -/
def Program.functionNames (p : Program) : List String := p.decls.flatMap Decl.functionNames

def Program.globalVars (p : Program) : List GlobalVar := p.decls.filterMap Decl.globalVar?

/-- The names of all classes that a program has, the predefined ones first. -/
def Program.classNames (p : Program) : List String :=
  "object" :: (boxClasses ++ p.classDecls).map ClassDecl.name

/-- The names in a program: those of the top level are plain and different from each other, and none
of its classes has the name of a predefined one. -/
structure Program.WellNamed (p : Program) : Prop where
  plain : ∀ name ∈ p.decls.filterMap Decl.name?, PlainName name
  distinct : (p.decls.filterMap Decl.name?).Nodup
  nested : Decl.AllWellNamed p.decls
  classes : ∀ c ∈ p.classDecls, c.name ∉ ["object", "int", "bool", "str"]

namespace Decl

/-- The qualified names of functions inside `outer`: they are different, each of them begins with
`outer` and the name of a function that is declared there, and no dollar comes in. -/
structure Qualified (outer : String) (declared names : List String) : Prop where
  nodup : names.Nodup
  under : ∀ q ∈ names, ∃ n ∈ declared, nameParts '.' outer ++ [n.toList] <+: nameParts '.' q
  dollar : '$' ∉ outer.toList → ∀ q ∈ names, '$' ∉ q.toList

theorem Qualified.nil (outer : String) (declared : List String) : Qualified outer declared [] :=
  ⟨List.nodup_nil, fun _ h => absurd h List.not_mem_nil, fun _ _ h => absurd h List.not_mem_nil⟩

/-- Names of declarations that have no name in common are different. -/
theorem Qualified.append {outer : String} {ds ds' names names' : List String}
    (h : Qualified outer ds names) (h' : Qualified outer ds' names') (hd : ds.Disjoint ds') :
    Qualified outer (ds ++ ds') (names ++ names') where
  nodup := by
    refine List.nodup_append'.mpr ⟨h.nodup, h'.nodup, fun q hq hq' => ?_⟩
    obtain ⟨n, hn, hp⟩ := h.under q hq
    obtain ⟨n', hn', hp'⟩ := h'.under q hq'
    exact hd hn (part_eq_of_prefixes _ hp hp' ▸ hn')
  under q hq := by
    rcases List.mem_append.mp hq with hq | hq
    · obtain ⟨n, hn, hp⟩ := h.under q hq
      exact ⟨n, List.mem_append_left _ hn, hp⟩
    · obtain ⟨n, hn, hp⟩ := h'.under q hq
      exact ⟨n, List.mem_append_right _ hn, hp⟩
  dollar ho q hq := by
    rcases List.mem_append.mp hq with hq | hq
    · exact h.dollar ho q hq
    · exact h'.dollar ho q hq

/-- A function and all functions inside it. -/
theorem Qualified.func {outer : String} {ds names : List String} (hname : PlainName name)
    (h : Qualified (outer ++ "." ++ name) ds names) :
    Qualified outer [name] ((outer ++ "." ++ name) :: names) := by
  have hunder : ∀ q ∈ names, nameParts '.' outer ++ [name.toList] <+: nameParts '.' q ∧
      (nameParts '.' outer ++ [name.toList]).length < (nameParts '.' q).length := by
    intro q hq
    obtain ⟨n, -, hp⟩ := h.under q hq
    rw [dotted_parts hname] at hp
    have hlen := hp.length_le
    rw [List.length_append, List.length_singleton] at hlen
    exact ⟨(List.prefix_append _ _).trans hp, hlen⟩
  refine ⟨List.nodup_cons.mpr ⟨fun hq => ?_, h.nodup⟩, fun q hq => ?_, fun ho q hq => ?_⟩
  · have hlt := (hunder _ hq).2
    rw [dotted_parts hname] at hlt
    exact Nat.lt_irrefl _ hlt
  · refine ⟨name, List.mem_singleton.mpr rfl, ?_⟩
    rcases List.mem_cons.mp hq with rfl | hq
    · rw [dotted_parts hname]
    · exact (hunder q hq).1
  · have hdot : '$' ∉ (outer ++ "." ++ name).toList := by
      simp [ho, hname.2]
    rcases List.mem_cons.mp hq with rfl | hq
    · exact hdot
    · exact h.dollar hdot q hq

mutual

theorem nestedNames_qualified (outer : String) (d : Decl) (h : d.WellNamed) :
    Qualified outer d.funcName?.toList (d.nestedNames outer) := by
  cases d with
  | func span name params result decls body =>
    rw [WellNamed] at h
    obtain ⟨hname, hdistinct, hall⟩ := h
    rw [nestedNames]
    exact (nestedNamesAll_qualified _ decls hall hdistinct).func hname
  | var | cls | global | nonlocal =>
    rw [nestedNames]
    · exact Qualified.nil _ _
    · rintro _ _ _ _ _ _ ⟨⟩

theorem nestedNamesAll_qualified (outer : String) (ds : List Decl) (h : AllWellNamed ds)
    (hd : (ds.filterMap funcName?).Nodup) :
    Qualified outer (ds.filterMap funcName?) (nestedNamesAll outer ds) := by
  cases ds with
  | nil => exact Qualified.nil _ _
  | cons d rest =>
    rw [AllWellNamed] at h
    have hsplit : (d :: rest).filterMap funcName? = d.funcName?.toList ++
        rest.filterMap funcName? := by
      cases hf : d.funcName? with
      | none => rw [List.filterMap_cons_none hf]; rfl
      | some n => rw [List.filterMap_cons_some hf]; rfl
    rw [hsplit] at hd ⊢
    obtain ⟨-, hrest, hdisj⟩ := List.nodup_append'.mp hd
    rw [nestedNamesAll]
    exact (nestedNames_qualified outer d h.1).append (nestedNamesAll_qualified outer rest h.2 hrest)
      hdisj

end

/-- The names that a declaration of the top level brings begin with its own. -/
theorem functionNames_spec {d : Decl} (h : d.WellNamed) :
    d.functionNames.Nodup ∧ ∀ q ∈ d.functionNames, '$' ∉ q.toList ∧
      ∃ n ∈ d.name?, [n.toList] <+: nameParts '.' q := by
  have inside {name : String} {decls : List Decl} (hname : PlainName name)
      (hdistinct : (decls.filterMap funcName?).Nodup) (hall : AllWellNamed decls) :
      (nestedNamesAll name decls).Nodup ∧ ∀ q ∈ nestedNamesAll name decls, '$' ∉ q.toList ∧
        [name.toList] <+: nameParts '.' q ∧ q ≠ name := by
    have hq := nestedNamesAll_qualified name decls hall hdistinct
    refine ⟨hq.nodup, fun q hmem => ⟨hq.dollar hname.2 q hmem, ?_⟩⟩
    obtain ⟨n, -, hp⟩ := hq.under q hmem
    rw [nameParts_of_not_mem hname.1] at hp
    refine ⟨(List.prefix_append _ _).trans hp, ?_⟩
    rintro rfl
    have hlen := hp.length_le
    rw [nameParts_of_not_mem hname.1] at hlen
    simp at hlen
  cases d with
  | func span name params result decls body =>
    rw [WellNamed] at h
    obtain ⟨hname, hdistinct, hall⟩ := h
    obtain ⟨hnodup, hin⟩ := inside hname hdistinct hall
    refine ⟨List.nodup_cons.mpr ⟨fun hq => (hin _ hq).2.2 rfl, hnodup⟩, fun q hq => ?_⟩
    rcases List.mem_cons.mp hq with rfl | hq
    · exact ⟨hname.2, q, rfl, by rw [nameParts_of_not_mem hname.1]⟩
    · exact ⟨(hin q hq).1, name, rfl, (hin q hq).2.1⟩
  | cls span name superName decls =>
    rw [WellNamed] at h
    obtain ⟨hname, hdistinct, hall⟩ := h
    obtain ⟨hnodup, hin⟩ := inside hname hdistinct hall
    exact ⟨hnodup, fun q hq => ⟨(hin q hq).1, name, rfl, (hin q hq).2.1⟩⟩
  | var | global | nonlocal => exact ⟨List.nodup_nil, fun q hq => absurd hq List.not_mem_nil⟩

end Decl

/-! ## Names of a program -/

theorem Decl.allWellNamed_iff {ds : List Decl} : AllWellNamed ds ↔ ∀ d ∈ ds, d.WellNamed := by
  induction ds with
  | nil => simp [AllWellNamed]
  | cons d rest ih => rw [AllWellNamed, ih, List.forall_mem_cons]

/-- The names of two declarations of the top level are different. -/
def Decl.Apart (d d' : Decl) : Prop := ∀ n ∈ d.name?, ∀ n' ∈ d'.name?, n ≠ n'

instance : Std.Symm Decl.Apart := ⟨fun _ _ h n hn n' hn' => (h n' hn' n hn).symm⟩

theorem Decl.name?_of_globalVar? {d : Decl} {g : GlobalVar} (h : d.globalVar? = some g) :
    d.name? = some g.name := by
  cases d with
  | var =>
    cases h
    rfl
  | func | cls | global | nonlocal => cases h

theorem Decl.name?_of_class? {d : Decl} {c : ClassDecl} (h : d.class? = some c) :
    d.name? = some c.name := by
  cases d with
  | cls =>
    cases h
    rfl
  | var | func | global | nonlocal => cases h

namespace Program.WellNamed

variable {p : Program}

/-- Different declarations of the top level bring different names. -/
theorem pairwise (h : p.WellNamed) : p.decls.Pairwise Decl.Apart :=
  List.pairwise_filterMap.mp h.distinct

/-- The names of functions and variables are different. -/
theorem nodup_names (h : p.WellNamed) :
    (p.functionNames ++ p.globalVars.map GlobalVar.name).Nodup := by
  have hwell := Decl.allWellNamed_iff.mp h.nested
  refine List.nodup_append'.mpr ⟨List.nodup_flatMap.mpr ⟨fun d hd => ?_, ?_⟩, ?_, fun q hq hv => ?_⟩
  · exact (Decl.functionNames_spec (hwell d hd)).1
  · refine h.pairwise.imp_of_mem fun {d d'} hd hd' hne q hq hq' => ?_
    obtain ⟨-, n, hn, hp⟩ := (Decl.functionNames_spec (hwell d hd)).2 q hq
    obtain ⟨-, n', hn', hp'⟩ := (Decl.functionNames_spec (hwell d' hd')).2 q hq'
    exact hne n hn n' hn' (part_eq_of_prefixes [] hp hp')
  · rw [globalVars, List.map_filterMap]
    refine List.pairwise_filterMap.mpr (h.pairwise.imp fun {d d'} hne n hn n' hn' => ?_)
    obtain ⟨g, hg, rfl⟩ := Option.map_eq_some_iff.mp hn
    obtain ⟨g', hg', rfl⟩ := Option.map_eq_some_iff.mp hn'
    exact hne _ (Decl.name?_of_globalVar? hg) _ (Decl.name?_of_globalVar? hg')
  · -- The variable would have the name of the declaration that the function comes from.
    obtain ⟨d, hd, hq⟩ := List.mem_flatMap.mp hq
    obtain ⟨g, hg, rfl⟩ := List.mem_map.mp hv
    obtain ⟨d', hd', hg⟩ := List.mem_filterMap.mp hg
    cases d' with
    | var span v init =>
      cases hg
      obtain ⟨-, n, hn, hp⟩ := (Decl.functionNames_spec (hwell d hd)).2 v.name hq
      have hplain : PlainName v.name := h.plain _ (List.mem_filterMap.mpr ⟨_, hd', rfl⟩)
      rw [nameParts_of_not_mem hplain.1] at hp
      have hname : n = v.name := part_eq_of_prefixes [] hp List.prefix_rfl
      have hdiff : d ≠ .var span v init := by
        rintro rfl
        cases hq
      exact h.pairwise.forall hd hd' hdiff n hn _ rfl hname
    | func | cls | global | nonlocal => cases hg

/-- No dollar comes into the names of functions and variables. -/
theorem not_dollar_mem (h : p.WellNamed) : ∀ n ∈ p.functionNames ++ p.globalVars.map GlobalVar.name,
    '$' ∉ n.toList := by
  intro n hn
  rcases List.mem_append.mp hn with hn | hn
  · obtain ⟨d, hd, hn⟩ := List.mem_flatMap.mp hn
    exact ((Decl.functionNames_spec (Decl.allWellNamed_iff.mp h.nested d hd)).2 n hn).1
  · obtain ⟨g, hg, rfl⟩ := List.mem_map.mp hn
    obtain ⟨d, hd, hg⟩ := List.mem_filterMap.mp hg
    exact (h.plain _ (List.mem_filterMap.mpr ⟨d, hd, Decl.name?_of_globalVar? hg⟩)).2

/-- Names of classes are plain and different, also from those of the predefined classes. -/
theorem classes_nodup (h : p.WellNamed) :
    p.classNames.Nodup ∧
      ∀ c ∈ p.classNames, PlainName c := by
  have hdeclared : (p.classDecls.map ClassDecl.name).Nodup := by
    rw [classDecls, List.map_filterMap]
    refine List.pairwise_filterMap.mpr (h.pairwise.imp fun {d d'} hne n hn n' hn' => ?_)
    obtain ⟨c, hc, rfl⟩ := Option.map_eq_some_iff.mp hn
    obtain ⟨c', hc', rfl⟩ := Option.map_eq_some_iff.mp hn'
    exact hne _ (Decl.name?_of_class? hc) _ (Decl.name?_of_class? hc')
  have hsplit : p.classNames =
      ["object", "int", "bool", "str"] ++ p.classDecls.map ClassDecl.name := rfl
  rw [hsplit]
  refine ⟨List.nodup_append'.mpr ⟨by decide, hdeclared, fun n hn hn' => ?_⟩, fun n hn => ?_⟩
  · obtain ⟨c, hc, rfl⟩ := List.mem_map.mp hn'
    exact h.classes c hc hn
  · rcases List.mem_append.mp hn with hn | hn
    · have hbox : ∀ n ∈ ["object", "int", "bool", "str"], PlainName n := by decide
      exact hbox n hn
    · obtain ⟨c, hc, rfl⟩ := List.mem_map.mp hn
      obtain ⟨d, hd, hc⟩ := List.mem_filterMap.mp hc
      exact h.plain _ (List.mem_filterMap.mpr ⟨d, hd, Decl.name?_of_class? hc⟩)

end Program.WellNamed

/-! ## Names in the table -/

namespace SymbolTable

/-- The names of the functions that have a body. -/
def userNames (t : SymbolTable) : List String :=
  (t.funcs.toList.filter (!·.builtin)).map FuncInfo.name

/-- Table `t'` has functions of these names after those of `t`, and the same global variables. -/
structure Enters (t t' : SymbolTable) (names : List String) : Prop where
  funcs : t'.userNames = t.userNames ++ names
  globals : t'.globals = t.globals

namespace Enters

variable {t t' t'' : SymbolTable} {names names' : List String}

/-- Steps that change neither functions nor global variables. -/
theorem none (hf : t'.funcs = t.funcs) (hg : t'.globals = t.globals) : Enters t t' [] :=
  ⟨by rw [userNames, hf, List.append_nil]; rfl, hg⟩

theorem trans (h : Enters t t' names) (h' : Enters t' t'' names') :
    Enters t t'' (names ++ names') :=
  ⟨by rw [h'.funcs, h.funcs, List.append_assoc], h'.globals.trans h.globals⟩

/-- A step before the functions. -/
theorem after (h : Enters t t' []) (h' : Enters t' t'' names) : Enters t t'' names :=
  h.trans h'

end Enters

variable {t t' : SymbolTable}

variable {decls : List Decl}

theorem openFunction_enters {site : Site} {span : Span} {params : List TypedVar}
    {result : ValueType} {body : List Stmt}
    (ho : t.openFunction site span params result decls body = .ok t') :
    Enters t t' [site.name] ∧ (t'.func t.funcs.size).name = site.name := by
  obtain ⟨entries, locals, -, rfl⟩ := openFunction_eq_ok ho
  refine ⟨⟨?_, rfl⟩, by rw [func_push rfl]⟩
  unfold userNames
  dsimp only
  rw [Array.toList_push, List.filter_append, List.map_append]
  rfl

/-- What is nested in a function has its name before its own. -/
theorem addNested_enters :
    (∀ (t : SymbolTable) (id : Nat) (d : Decl) (t' : SymbolTable), t.Built → id < t.funcs.size →
      t.addNestedDecl id d = .ok t' → Enters t t' (d.nestedNames (t.func id).name)) ∧
    (∀ (t : SymbolTable) (id : Nat) (ds : List Decl) (t' : SymbolTable), t.Built →
      id < t.funcs.size → t.addNested id ds = .ok t' →
      Enters t t' (Decl.nestedNamesAll (t.func id).name ds)) := by
  refine addNestedDecl.mutual_induct
    (fun t id d => ∀ t', t.Built → id < t.funcs.size → t.addNestedDecl id d = .ok t' →
      Enters t t' (d.nestedNames (t.func id).name))
    (fun t id ds => ∀ t', t.Built → id < t.funcs.size → t.addNested id ds = .ok t' →
      Enters t t' (Decl.nestedNamesAll (t.func id).name ds))
    ?func ?other ?nil ?cons
  case func =>
    intro t id span name params result decls body nested ih t' h hid ha
    rw [addNestedDecl] at ha
    obtain ⟨t₁, ho, ha⟩ := bind_eq_ok_iff.mp ha
    obtain ⟨t₂, hn, ha⟩ := bind_eq_ok_iff.mp ha
    cases ha
    obtain ⟨-, -, hsize⟩ := h.closed.openFunction ho
    obtain ⟨hopen, hname⟩ := openFunction_enters ho
    have hin := ih t₁ t₂ (h.func ⟨owner_some.mpr hid, rfl, rfl⟩ ho) (by omega) hn
    rw [hname] at hin
    have hall : Enters t t₂ ([(t.func id).name ++ "." ++ name] ++ _) := hopen.trans hin
    rw [Decl.nestedNames]
    exact ⟨hall.funcs, hall.globals⟩
  case other =>
    intro d t id hd t' h _ ha
    rw [addNestedDecl] at ha
    · cases ha
      rw [Decl.nestedNames]
      · exact .none rfl rfl
      · exact hd
    · exact hd
  case nil =>
    intro t id t' h _ ha
    cases ha
    exact .none rfl rfl
  case cons =>
    intro t id d rest ihd ihrest t' h hid ha
    rw [addNested] at ha
    obtain ⟨t₁, hd, ha⟩ := bind_eq_ok_iff.mp ha
    obtain ⟨h₁, hg₁, -⟩ := Built.addNested.1 _ _ _ _ h hid hd
    have hrest := ihrest t₁ t' h₁ (Nat.lt_of_lt_of_le hid hg₁.funcs_size_le) ha
    rw [hg₁.func_eq hid] at hrest
    rw [Decl.nestedNamesAll]
    exact (ihd t₁ h hid hd).trans hrest

theorem addFunction_enters (h : t.Built) {qualified : String} {span : Span} {params : List TypedVar}
    {result : ValueType} {body : List Stmt}
    (ha : t.addFunction qualified span params result decls body = .ok t') :
    Enters t t' (qualified :: Decl.nestedNamesAll qualified decls) := by
  obtain ⟨t₁, ho, ha⟩ := bind_eq_ok_iff.mp ha
  obtain ⟨-, -, hsize⟩ := h.closed.openFunction ho
  obtain ⟨hopen, hname⟩ := openFunction_enters ho
  have hin := addNested_enters.2 _ _ _ _ (h.func ⟨owner_none t, rfl, rfl⟩ ho) (by omega) ha
  rw [hname] at hin
  exact hopen.trans hin

theorem addAttrs_enters (t : SymbolTable) (id : Nat) (decls : List Decl) :
    Enters t (t.addAttrs id decls) [] := by
  induction decls generalizing t with
  | nil => exact .none rfl rfl
  | cons d rest ih =>
    cases d with
    | var span v init =>
      have hattr : Enters t (t.addAttr id v init) [] := .none rfl rfl
      exact hattr.after (ih _)
    | func | cls | global | nonlocal => exact ih t

theorem addMethods_enters (h : t.Built) {id : Nat} {className : String}
    (ha : t.addMethods id className decls = .ok t') :
    Enters t t' (Decl.nestedNamesAll className decls) := by
  induction decls generalizing t with
  | nil =>
    cases ha
    exact .none rfl rfl
  | cons d rest ih =>
    cases d with
    | var => exact ih h ha
    | func span name params result decls body =>
      obtain ⟨t₁, hf, ha⟩ := bind_eq_ok_iff.mp ha
      obtain ⟨h₁, -, hlt, hparent⟩ := h.addFunction hf
      have hmethod : Enters t₁ (t₁.addMethod id name t.funcs.size) [] := .none rfl rfl
      rw [Decl.nestedNamesAll, Decl.nestedNames]
      exact (addFunction_enters h hf).trans (hmethod.after (ih (h₁.method id name hlt hparent) ha))
    | cls | global | nonlocal => cases ha

theorem addUserClass_enters (h : t.Built) {superName : String}
    (ha : t.addUserClass name superName decls = .ok t') :
    Enters t t' (Decl.nestedNamesAll name decls) := by
  unfold addUserClass at ha
  split at ha
  · rename_i s hs
    have hclass : Enters t (t.addClass name t.nextTag (some s)) [] := .none rfl rfl
    have h₁ : (t.addClass name t.nextTag (some s)).Built := by
      refine h.cls name t.nextTag ?_
      rintro s' ⟨⟩
      exact h.closed.entries hs
    exact hclass.after ((addAttrs_enters _ _ _).after
      (addMethods_enters (h₁.addAttrs t.classes.size decls).1 ha))
  · cases ha

theorem addDecls_enters (h : t.Built) (ha : t.addDecls decls = .ok t') :
    Enters t t' (decls.flatMap Decl.functionNames) := by
  induction decls generalizing t with
  | nil =>
    cases ha
    exact .none rfl rfl
  | cons d rest ih =>
    cases d with
    | var => exact ih h ha
    | func span name params result decls body =>
      obtain ⟨t₁, hf, ha⟩ := bind_eq_ok_iff.mp ha
      obtain ⟨h₁, -, hlt, hparent⟩ := h.addFunction hf
      have hnamed := h₁.name hlt name
      rw [hparent] at hnamed
      have hname : Enters t₁ (t₁.define globalScope name (.func t.funcs.size)) [] := .none rfl rfl
      exact (addFunction_enters h hf).trans (hname.after (ih hnamed ha))
    | cls span name superName decls =>
      obtain ⟨t₁, hc, ha⟩ := bind_eq_ok_iff.mp ha
      exact (addUserClass_enters h hc).trans (ih (h.addUserClass hc).1 ha)
    | global | nonlocal => cases ha

/-- Global variables are entered as they are declared. -/
theorem addGlobals_eq (t : SymbolTable) (decls : List Decl) :
    (t.addGlobals decls).userNames = t.userNames ∧ (t.addGlobals decls).globals = t.globals ++
      decls.filterMap Decl.globalVar? := by
  induction decls generalizing t with
  | nil => exact ⟨rfl, (List.append_nil _).symm⟩
  | cons d rest ih =>
    cases d with
    | var span v init =>
      obtain ⟨hfuncs, hglobals⟩ := ih (t.addGlobal v init)
      refine ⟨hfuncs, hglobals.trans ?_⟩
      exact List.append_assoc _ _ _
    | func | cls | global | nonlocal => exact ih t

/-- The functions of a program have the qualified names of its declarations, and its global
variables are those that it declares. -/
theorem names_ofProgram {p : Program} (h : ofProgram p = .ok t) :
    t.userNames = p.functionNames ∧
      t.globals = p.globalVars := by
  have h₁ := (Built.predefined.addGlobals p.decls).1
  obtain ⟨hfuncs, hglobals⟩ := addDecls_enters h₁ h
  obtain ⟨hfuncs', hglobals'⟩ := addGlobals_eq predefined p.decls
  rw [hfuncs, hfuncs', hglobals, hglobals']
  exact ⟨rfl, rfl⟩

end SymbolTable

end ChocoRV
