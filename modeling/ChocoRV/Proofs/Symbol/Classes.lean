import Mathlib
import ChocoRV.Proofs.Symbol.Built

/-!
# How classes come about

A class begins as a copy of the class that it extends; then its own attributes are added and its own
methods are put into the dispatch table. `ClassInfo.Extends` says what comes of this in terms of the
members that the class declares, and `SymbolTable.Layered` that every class of a program but
`object` extends an earlier one in this way. The predefined classes `int`, `bool` and `str` are
described by declarations as well (`boxClasses`), so that they need no treatment of their own.
-/

namespace ChocoRV

/-! ## Declarations -/

/-- The labels of a class are made from its name. -/
def ClassInfo.Labelled (c : ClassInfo) : Prop :=
  c.prototype = .global ("$" ++ c.name ++ "$prototype") ∧
    c.dispatchTable = .global ("$" ++ c.name ++ "$dispatchTable")

/-- A class as a program declares it. -/
structure ClassDecl where
  name : String
  superName : String
  members : List Decl

namespace Decl

def class? : Decl → Option ClassDecl
  | .cls _ name superName members => some ⟨name, superName, members⟩
  | _ => none

/-- The declaration is that of a function of this name. -/
def defines (name : String) : Decl → Bool
  | .func _ n .. => n == name
  | _ => false

def isFunc : Decl → Bool
  | .func .. => true
  | _ => false

/-- The last of the declarations that defines a function of this name. -/
def lastDefining? (name : String) (decls : List Decl) : Option Decl :=
  decls.reverse.find? (defines name)

end Decl

/-- The classes that a program declares, in order. -/
def Program.classDecls (p : Program) : List ClassDecl := p.decls.filterMap Decl.class?

/-- A predefined class whose objects hold one value. -/
def boxClass (name attr : String) (init : Literal) : ClassDecl :=
  ⟨name, "object", [.var {} ⟨attr, .named name⟩ init]⟩

/-- The predefined classes after `object`. -/
def boxClasses : List ClassDecl :=
  [boxClass "int" "__int__" (.int 0), boxClass "bool" "__bool__" (.bool false),
    boxClass "str" "__str__" (.str "")]

/-- The attributes that declarations bring, when `k` attributes come before them. -/
def ownAttrs : Nat → List Decl → List Attribute
  | _, [] => []
  | k, .var _ v init :: rest =>
    ⟨v.name, v.type, k, Object.slotOffset k, init⟩ :: ownAttrs (k + 1) rest
  | k, _ :: rest => ownAttrs k rest

/-! ## Dispatch tables -/

/-- The last method of a name. -/
def lastNamed? (name : String) (ms : List Method) : Option Method :=
  ms.reverse.find? (·.name == name)

variable {name : String}

theorem name_of_lastNamed? {ms : List Method} {m : Method} (h : lastNamed? name ms = some m) :
    m.name = name := by
  have := List.find?_some h
  exact beq_iff_eq.mp this

theorem lastNamed?_concat (name : String) (ms : List Method) (m : Method) :
    lastNamed? name (ms ++ [m]) = if m.name = name then some m else lastNamed? name ms := by
  grind [lastNamed?]

namespace SymbolTable

variable {ms news : List Method} {m e : Method}

/-- The names of a table stay in their places; a new name comes last. -/
theorem map_name_putMethod (ms : List Method) (m : Method) :
    (putMethod ms m).map Method.name =
      if m.name ∈ ms.map Method.name then ms.map Method.name
      else ms.map Method.name ++ [m.name] := by
  have hmap : ms.map (Method.name ∘ fun old => if old.name == m.name then m else old) =
      ms.map Method.name := List.map_congr_left fun old _ => by grind
  grind [putMethod]

theorem names_putMethod (ms : List Method) (m : Method) :
    ms.map Method.name <+: (putMethod ms m).map Method.name := by
  grind [map_name_putMethod]

theorem nodup_putMethod (h : (ms.map Method.name).Nodup) (m : Method) :
    ((putMethod ms m).map Method.name).Nodup := by
  grind [map_name_putMethod]

/-- What stands at a place of a table is replaced by a method of its name and by no other. -/
theorem getElem?_putMethod {k : Nat} (h : ms[k]? = some e) (m : Method) :
    (putMethod ms m)[k]? = some (if m.name = e.name then m else e) := by
  grind [putMethod]

theorem mem_putMethod_self (ms : List Method) (m : Method) : m ∈ putMethod ms m := by
  grind [putMethod]

/-- A table after methods have been put into it one after the other. -/
def putMethods (ms news : List Method) : List Method := news.foldl putMethod ms

theorem putMethods_concat (ms news : List Method) (m : Method) :
    putMethods ms (news ++ [m]) = putMethod (putMethods ms news) m := by
  rw [putMethods, List.foldl_concat]
  rfl

theorem names_putMethods (ms news : List Method) :
    ms.map Method.name <+: (putMethods ms news).map Method.name := by
  induction news using List.reverseRecOn with
  | nil => exact List.prefix_rfl
  | append_singleton news m ih =>
    rw [putMethods_concat]
    exact ih.trans (names_putMethod _ m)

theorem nodup_putMethods (h : (ms.map Method.name).Nodup) (news : List Method) :
    ((putMethods ms news).map Method.name).Nodup := by
  induction news using List.reverseRecOn with
  | nil => exact h
  | append_singleton news m ih =>
    rw [putMethods_concat]
    exact nodup_putMethod ih m

/-- What stood at a place of the table before is there unless there is a new method of its name, and
then it is the last one. -/
theorem getElem?_putMethods {k : Nat} (h : ms[k]? = some e) (news : List Method) :
    (putMethods ms news)[k]? = some ((lastNamed? e.name news).getD e) := by
  induction news using List.reverseRecOn with
  | nil => exact h
  | append_singleton news m ih =>
    rw [putMethods_concat, getElem?_putMethod ih, lastNamed?_concat]
    cases hl : lastNamed? e.name news <;> grind [name_of_lastNamed?]

/-- The last new method of a name is in the table. -/
theorem mem_putMethods_of_last (h : lastNamed? name news = some m) : m ∈ putMethods ms news := by
  induction news using List.reverseRecOn generalizing m with
  | nil => cases h
  | append_singleton news m' ih =>
    rw [lastNamed?_concat] at h
    rw [putMethods_concat]
    split at h
    · cases h
      exact mem_putMethod_self _ _
    · have hold := ih h
      grind [putMethod, name_of_lastNamed?]

/-- A method of the table was there before or is a new one. -/
theorem mem_putMethods (h : e ∈ putMethods ms news) : e ∈ ms ∨ e ∈ news := by
  induction news using List.reverseRecOn with
  | nil => exact .inl h
  | append_singleton news m ih => grind [putMethods_concat, mem_putMethod]

end SymbolTable

variable {c : ClassInfo}

/-- With different names a table has one place for each of them. -/
theorem ClassInfo.method?_eq_some_iff (hc : (c.methods.map Method.name).Nodup) {k : Nat}
    {e : Method} : c.method? name = some (k, e) ↔ c.methods[k]? = some e ∧ e.name = name := by
  have hfind (k : Nat) : c.methods.findIdx? (·.name == name) = some k ↔
      ∃ e, c.methods[k]? = some e ∧ e.name = name := by
    rw [List.findIdx?_eq_some_iff_getElem]
    rw [List.nodup_iff_pairwise_ne, List.pairwise_map, List.pairwise_iff_getElem] at hc
    grind
  simp only [method?, Option.bind_eq_some_iff, hfind, Option.map_eq_some_iff, Prod.mk.injEq]
  grind

/-! ## Functions of a class -/

/-- `f` is what a table keeps of the definition of a function that is nested in no other. -/
def FuncInfo.IsOf (f : FuncInfo) (qualified : String) : Decl → Prop
  | .func span _ params result _ body =>
    f.name = qualified ∧ f.label = SymbolTable.userLabel qualified ∧ f.params = params ∧
      f.result = result ∧ f.body = body ∧ f.span = span ∧ f.parent = none ∧ f.builtin = false
  | _ => False

/-- Method `m` is the function of the table that the definition `d` in class `className` brings. -/
structure Method.Implements (t : SymbolTable) (className : String) (d : Decl) (m : Method) :
    Prop where
  defines : d.defines m.name = true
  label : m.label = SymbolTable.userLabel (className ++ "." ++ m.name)
  func : ∃ id < t.funcs.size, m.func = some id ∧ (t.func id).IsOf (className ++ "." ++ m.name) d

variable {decls : List Decl}

namespace SymbolTable

variable {t t' : SymbolTable}

theorem Grows.implements (h : Grows t t') {className : String} {d : Decl} {m : Method}
    (hm : m.Implements t className d) : m.Implements t' className d := by
  obtain ⟨hdef, hlabel, id, hid, hfunc, hof⟩ := hm
  refine ⟨hdef, hlabel, id, Nat.lt_of_lt_of_le hid h.funcs_size_le, hfunc, ?_⟩
  rw [h.func_eq hid]
  exact hof

/-- Entering a function of the top level or of a class: no class changes, and the function has the
number after those before it. -/
theorem addFunction_eq_ok (h : t.Built) (name : String) {qualified : String} {span : Span}
    {params : List TypedVar} {result : ValueType} {body : List Stmt}
    (ha : t.addFunction qualified span params result decls body = .ok t') : t'.classes = t.classes ∧
      (t'.func t.funcs.size).IsOf qualified (.func span name params result decls body) := by
  obtain ⟨t₁, ho, ha⟩ := bind_eq_ok_iff.mp ha
  obtain ⟨-, -, hsize⟩ := h.closed.openFunction ho
  obtain ⟨-, hg₂, hclasses⟩ :=
    Built.addNested.2 _ _ _ _ (h.func ⟨owner_none t, rfl, rfl⟩ ho) (by omega) ha
  obtain ⟨entries, locals, -, rfl⟩ := openFunction_eq_ok ho
  refine ⟨hclasses, ?_⟩
  rw [hg₂.func_eq (by omega), func_push rfl]
  exact ⟨rfl, rfl, rfl, rfl, rfl, rfl, rfl, rfl⟩

/-! ## One class -/

variable {cs : Array ClassInfo}

theorem cls_of_classes_push (h : t.classes = cs.push c) : t.cls cs.size = c := by
  simp [cls, h, Array.getD]

theorem cls_of_classes_push_lt (h : t.classes = cs.push c) (h' : t'.classes = cs) {k : Nat}
    (hk : k < cs.size) : t.cls k = t'.cls k := by
  simp [cls, h, h', Array.getD, hk, Nat.lt_succ_of_lt hk, Array.getElem_push_lt]

theorem modify_push_size (cs : Array ClassInfo) (c : ClassInfo) (f : ClassInfo → ClassInfo) :
    (cs.push c).modify cs.size f = cs.push (f c) := by
  grind

theorem classes_addAttr (t : SymbolTable) (id : Nat) (v : TypedVar) (init : Literal) :
    (t.addAttr id v init).classes = t.classes.modify id fun c => { c with
      attrs := c.attrs ++ [⟨v.name, v.type, (t.cls id).attrs.length,
        Object.slotOffset (t.cls id).attrs.length, init⟩] } := rfl

theorem classes_addMethod (t : SymbolTable) (id : Nat) (name : String) (func : Nat) :
    (t.addMethod id name func).classes = t.classes.modify id fun c => { c with
      methods := putMethod c.methods ⟨name, (t.func func).label, some func⟩ } := rfl

/-- The attributes that the last class of a table gets. -/
theorem classes_addAttrs (h : t.classes = cs.push c) (decls : List Decl) :
    (t.addAttrs cs.size decls).classes =
      cs.push { c with attrs := c.attrs ++ ownAttrs c.attrs.length decls } := by
  induction decls generalizing t c with
  | nil =>
    rw [ownAttrs, List.append_nil]
    exact h
  | cons d rest ih =>
    cases d with
    | var span v init =>
      have hadd : (t.addAttr cs.size v init).classes = cs.push { c with
          attrs := c.attrs ++ [⟨v.name, v.type, c.attrs.length, Object.slotOffset c.attrs.length,
            init⟩] } := by
        rw [classes_addAttr, cls_of_classes_push h, h, modify_push_size]
      have := ih hadd
      rw [List.length_append, List.length_singleton, List.append_assoc] at this
      exact this
    | func | cls | global | nonlocal => exact ih h

/-- The methods that the last class of a table gets. -/
theorem classes_addMethods (h : t.Built) (hcs : t.classes = cs.push c) {className : String}
    (ha : t.addMethods cs.size className decls = .ok t') :
    ∃ news, List.Forall₂ (Method.Implements t' className) (decls.filter Decl.isFunc) news ∧
      t'.classes = cs.push { c with methods := putMethods c.methods news } := by
  induction decls generalizing t c with
  | nil =>
    cases ha
    exact ⟨[], .nil, hcs⟩
  | cons d rest ih =>
    cases d with
    | var => exact ih h hcs ha
    | func span name params result decls body =>
      obtain ⟨t₁, hf, ha⟩ := bind_eq_ok_iff.mp ha
      obtain ⟨h₁, -, hlt, hparent⟩ := h.addFunction hf
      obtain ⟨hclasses, hof⟩ := addFunction_eq_ok h name hf
      have hlabel : (t₁.func t.funcs.size).label = userLabel (className ++ "." ++ name) := hof.2.1
      have hput : (t₁.addMethod cs.size name t.funcs.size).classes = cs.push { c with
          methods := putMethod c.methods
            ⟨name, userLabel (className ++ "." ++ name), some t.funcs.size⟩ } := by
        rw [classes_addMethod, hclasses, hcs, modify_push_size, hlabel]
      have h₂ := h₁.method cs.size name hlt hparent
      obtain ⟨-, hg⟩ := h₂.addMethods ha
      obtain ⟨news, hnews, hfinal⟩ := ih h₂ hput ha
      refine ⟨_ :: news, .cons (hg.implements ?_) hnews, hfinal⟩
      exact ⟨beq_self_eq_true name, rfl, _, hlt, rfl, hof⟩
    | cls | global | nonlocal => cases ha

end SymbolTable

/-- Class `c` extends class `s` by the members `decls`. -/
structure ClassInfo.Extends (t : SymbolTable) (c : ClassInfo) (s : Nat) (decls : List Decl) :
    Prop where
  super : c.superClass = some s
  attrs : c.attrs = (t.cls s).attrs ++ ownAttrs (t.cls s).attrs.length decls
  methods : ∃ news, List.Forall₂ (Method.Implements t c.name) (decls.filter Decl.isFunc) news ∧
    c.methods = SymbolTable.putMethods (t.cls s).methods news

namespace SymbolTable

variable {t t' : SymbolTable}

theorem Grows.extends (hg : Grows t t') {s : Nat} (hs : t'.cls s = t.cls s)
    (h : c.Extends t s decls) : c.Extends t' s decls := by
  obtain ⟨news, hnews, hmethods⟩ := h.methods
  refine ⟨h.super, ?_, news, hnews.imp fun _ _ hm => hg.implements hm, ?_⟩
  · rw [hs]
    exact h.attrs
  · rw [hs]
    exact hmethods

/-- Entering a class of the program adds one class, which extends an earlier one. -/
theorem addUserClass_eq_ok (h : t.Built) {superName : String}
    (ha : t.addUserClass name superName decls = .ok t') :
    ∃ s c, s < t.classes.size ∧ t'.classes = t.classes.push c ∧ c.name = name ∧
      c.tag = t.nextTag ∧ c.Extends t' s decls := by
  unfold addUserClass at ha
  split at ha
  · rename_i s hs
    have hlt : s < t.classes.size := h.closed.entries hs
    have h₁ : (t.addClass name t.nextTag (some s)).Built := by
      refine h.cls name t.nextTag ?_
      rintro s' ⟨⟩
      exact hlt
    have hattrs := classes_addAttrs (t := t.addClass name t.nextTag (some s)) rfl decls
    obtain ⟨news, hnews, hclasses⟩ := classes_addMethods (h₁.addAttrs t.classes.size decls).1 hattrs
      ha
    have hsuper : t'.cls s = t.cls s := cls_of_classes_push_lt hclasses rfl hlt
    refine ⟨s, _, hlt, hclasses, rfl, rfl, rfl, ?_, news, hnews, ?_⟩
    · rw [hsuper]
      rfl
    · rw [hsuper]
      rfl
  · cases ha

/-! ## All classes -/

/-- The classes of a table: `object`, and then one for each declaration, which extends an earlier
one. As long as there are words for them, the tags are the numbers of the classes. -/
structure Layered (t : SymbolTable) (ds : List ClassDecl) : Prop where
  size : t.classes.size = ds.length + 1
  object : (t.cls 0).name = "object" ∧ (t.cls 0).superClass = none ∧ (t.cls 0).attrs = [] ∧
    (t.cls 0).methods = [objectConstructor]
  declared {k : Nat} {d : ClassDecl} (hd : ds[k]? = some d) :
    (t.cls (k + 1)).name = d.name ∧ ∃ s ≤ k, (t.cls (k + 1)).Extends t s d.members
  tags {k : Nat} (hk : k < t.classes.size) (hword : k < 2147483648) : (t.cls k).tag = Int32.ofNat k

namespace Layered

variable {ds : List ClassDecl}

/-- Functions may be added. -/
theorem grow (h : Layered t ds) (hg : Grows t t') (hc : t'.classes = t.classes) :
    Layered t' ds := by
  have hcls : ∀ k, t'.cls k = t.cls k := fun k => by rw [cls, cls, hc]
  refine ⟨by rw [hc]; exact h.size, by rw [hcls]; exact h.object, fun {k d} hd => ?_, fun hk => ?_⟩
  · obtain ⟨hname, s, hs, hext⟩ := h.declared hd
    rw [hcls]
    exact ⟨hname, s, hs, hg.extends (hcls s) hext⟩
  · rw [hc] at hk
    rw [hcls]
    exact h.tags hk

/-- One more class. -/
theorem push (h : Layered t ds) (hg : Grows t t') {s : Nat} {d : ClassDecl}
    (hc : t'.classes = t.classes.push c) (hs : s < t.classes.size) (hname : c.name = d.name)
    (hext : c.Extends t' s d.members)
    (htag : t.classes.size < 2147483648 → c.tag = Int32.ofNat t.classes.size) :
    Layered t' (ds ++ [d]) := by
  have hold : ∀ k < t.classes.size, t'.cls k = t.cls k :=
    fun k hk => cls_of_classes_push_lt hc rfl hk
  have hnew : t'.cls t.classes.size = c := cls_of_classes_push hc
  have hext' {s : Nat} (hs : s < t.classes.size) (c : ClassInfo) (decls : List Decl)
      (h : c.Extends t s decls) : c.Extends t' s decls := hg.extends (hold s hs) h
  obtain ⟨hsize, hobject, hdecl, htags⟩ := h
  refine ⟨?_, ?_, ?_, ?_⟩
  all_goals grind

end Layered

theorem toList_classes (t : SymbolTable) :
    t.classes.toList = (List.range t.classes.size).map t.cls := by
  refine List.ext_getElem? fun k => ?_
  by_cases hk : k < t.classes.size <;> simp [cls, Array.getD, hk]

theorem firstUserTag_le_iff {k : Nat} (hk : k < 2147483648) :
    Object.firstUserTag ≤ Int32.ofNat k ↔ 4 ≤ k := by
  have h : (Int32.ofNat k).toInt = k := Int32.toInt_ofNat_of_lt hk
  rw [Int32.le_iff_toInt_le, h]
  show (4 : Int) ≤ k ↔ _
  omega

theorem countP_range_four (n : Nat) : (List.range n).countP (fun k => decide (4 ≤ k)) = n - 4 := by
  induction n with
  | zero => rfl
  | succ n ih => grind [List.range_succ]

/-- The next tag is the number of the class that gets it. -/
theorem Layered.nextTag_eq {ds : List ClassDecl} (h : Layered t ds) (hbox : 3 ≤ ds.length)
    (hword : t.classes.size < 2147483648) : t.nextTag = Int32.ofNat t.classes.size := by
  have hsize := h.size
  have hcount : t.classes.toList.countP (fun c => Object.firstUserTag ≤ c.tag) =
      t.classes.size - 4 := by
    rw [toList_classes, List.countP_map, ← countP_range_four]
    refine List.countP_congr fun k hk => ?_
    have hk := List.mem_range.mp hk
    have hkw : k < 2147483648 := by omega
    show decide (_ ≤ (t.cls k).tag) = true ↔ _
    rw [h.tags hk hkw, decide_eq_true_iff, decide_eq_true_iff]
    exact firstUserTag_le_iff hkw
  rw [nextTag, hcount]
  show Int32.ofNat 4 + _ = _
  rw [← Int32.ofNat_add]
  congr 1
  omega

theorem layered_predefined : Layered predefined boxClasses := by
  refine ⟨rfl, ⟨rfl, rfl, rfl, rfl⟩, fun {k d} hd => ?_, fun {k} hk _ => ?_⟩
  · have hk : k < 3 := (List.getElem?_eq_some_iff.mp hd).1
    interval_cases k
    all_goals
      cases hd
      exact ⟨rfl, 0, Nat.zero_le _, rfl, rfl, [], .nil, rfl⟩
  · have hk : k < 4 := hk
    interval_cases k <;> rfl

theorem classes_addGlobals (t : SymbolTable) (decls : List Decl) :
    (t.addGlobals decls).classes = t.classes := by
  induction decls generalizing t with
  | nil => rfl
  | cons d rest ih =>
    cases d with
    | var span v init => exact ih (t.addGlobal v init)
    | func | cls | global | nonlocal => exact ih t

theorem Layered.addDecls {ds : List ClassDecl} (h : Layered t ds) (hbox : 3 ≤ ds.length)
    (hb : t.Built) (ha : t.addDecls decls = .ok t') :
    Layered t' (ds ++ decls.filterMap Decl.class?) ∧ t.classes.toList <+: t'.classes.toList := by
  induction decls generalizing t ds with
  | nil =>
    cases ha
    rw [List.filterMap_nil, List.append_nil]
    exact ⟨h, List.prefix_rfl⟩
  | cons d rest ih =>
    cases d with
    | var => exact ih h hbox hb ha
    | func span name params result decls body =>
      obtain ⟨t₁, hf, ha⟩ := bind_eq_ok_iff.mp ha
      obtain ⟨h₁, hg₁, hlt, hparent⟩ := hb.addFunction hf
      have hnamed := h₁.name hlt name
      rw [hparent] at hnamed
      have hclasses := (addFunction_eq_ok hb name hf).1
      have hlayered : Layered (t₁.define globalScope name (.func t.funcs.size)) ds :=
        h.grow (hg₁.trans (define_grows ..)) hclasses
      obtain ⟨hrest, hprefix⟩ := ih hlayered hbox hnamed ha
      refine ⟨hrest, ?_⟩
      rw [← hclasses]
      exact hprefix
    | cls span name superName members =>
      obtain ⟨t₁, hc, ha⟩ := bind_eq_ok_iff.mp ha
      obtain ⟨h₁, hg₁⟩ := hb.addUserClass hc
      obtain ⟨s, c, hs, hclasses, hname, htag, hext⟩ := addUserClass_eq_ok hb hc
      have hpush : Layered t₁ (ds ++ [⟨name, superName, members⟩]) :=
        h.push hg₁ hclasses hs hname hext fun hword => htag.trans (h.nextTag_eq hbox hword)
      have hbox₁ : 3 ≤ (ds ++ [(⟨name, superName, members⟩ : ClassDecl)]).length := by
        rw [List.length_append]
        omega
      obtain ⟨hrest, hprefix⟩ := ih hpush hbox₁ h₁ ha
      rw [List.append_assoc] at hrest
      rw [hclasses, Array.toList_push] at hprefix
      exact ⟨hrest, (List.prefix_append _ _).trans hprefix⟩
    | global | nonlocal => cases ha

/-- The classes of a program are the predefined ones and then those that it declares, in order; the
predefined ones are as they were. -/
theorem Layered.exists_ofProgram {p : Program} (h : SymbolTable.ofProgram p = .ok t) :
    Layered t (boxClasses ++ p.classDecls) ∧ predefined.classes.toList <+: t.classes.toList := by
  obtain ⟨h₁, hg₁⟩ := Built.predefined.addGlobals p.decls
  have hclasses := classes_addGlobals predefined p.decls
  rw [← hclasses]
  exact (layered_predefined.grow hg₁ hclasses).addDecls (Nat.le_refl 3) h₁ h

theorem Layered.ofProgram {p : Program} (h : SymbolTable.ofProgram p = .ok t) :
    Layered t (boxClasses ++ p.classDecls) :=
  (exists_ofProgram h).1

/-- The names of all classes, in order. -/
theorem Layered.names {ds : List ClassDecl} (h : Layered t ds) :
    t.classes.toList.map (·.name) = "object" :: ds.map (·.name) := by
  obtain ⟨hsize, hobject, hdecl, -⟩ := h
  rw [toList_classes]
  refine List.ext_getElem? fun k => ?_
  cases k <;> grind

/-! ## Labels -/

theorem Built.labelled (h : Built t) : ∀ c ∈ t.classes.toList, c.Labelled := by
  induction h with
  | empty => exact fun c hc => absurd hc List.not_mem_nil
  | @cls t _ name tag superClass _ ih =>
    intro c hc
    have hc : c ∈ (t.classes.push _).toList := hc
    rw [Array.toList_push] at hc
    rcases List.mem_append.mp hc with hc | hc
    · exact ih c hc
    · cases List.mem_singleton.mp hc
      exact ⟨rfl, rfl⟩
  | constructor _ _ ih | attr _ _ _ _ ih | method _ _ _ _ _ ih =>
    intro c hc
    rcases mem_classes_modify hc with hc | ⟨c₀, hc₀, rfl⟩
    · exact ih c hc
    · exact ih c₀ hc₀
  | builtin _ _ _ ih | global _ _ _ ih | name _ _ _ ih => exact ih
  | func _ _ ho ih =>
    obtain ⟨entries, locals, -, rfl⟩ := openFunction_eq_ok ho
    exact ih

end SymbolTable

end ChocoRV
