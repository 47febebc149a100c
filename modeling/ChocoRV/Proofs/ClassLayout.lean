import Mathlib
import ChocoRV.Proofs.Symbol.Classes

/-!
# Class layout supports subtyping

An object of a class can stand wherever one of a class above it is expected, since the code for the
latter finds attributes and methods at the same places. `SymbolTable.SupportsSubtyping` collects
what this needs of a symbol table, and `class_layout_supports_subtyping` says that the table of
every program has it.
-/

namespace ChocoRV

/-- The layout of a class by itself: attributes in order, one word each, and a dispatch table with
different names that begins with the constructor. -/
structure ClassInfo.WellLaid (c : ClassInfo) : Prop where
  attrs {i : Nat} {a : Attribute} (h : c.attrs[i]? = some a) :
    a.index = i ∧ a.offset = Int32.ofNat (4 * i)
  names : (c.methods.map Method.name).Nodup
  constructor : ∃ e, c.methods[0]? = some e ∧ e.name = "__init__"

/-- Class `s` is class `c` itself or one above it. -/
inductive SymbolTable.Ancestor (t : SymbolTable) : Nat → Nat → Prop
  | self (c : Nat) : Ancestor t c c
  | above {c s a : Nat} (hs : (t.cls c).superClass = some s) (h : Ancestor t s a) : Ancestor t c a

/-- The classes of a table are laid out so that a class can stand in for those above it. -/
structure SymbolTable.SupportsSubtyping (t : SymbolTable) (p : Program) : Prop where
  /-- The classes are the predefined ones and then those of the program, in order. -/
  classes : t.classes.toList.map (·.name) =
    ["object", "int", "bool", "str"] ++ p.classDecls.map (·.name)
  /-- Their tags are their numbers, so those of the program are numbered from 4 on, and no two
  classes have the same; provided that there are enough words to number them all. -/
  tags (hwords : t.classes.size ≤ 2147483648) :
    (∀ c < t.classes.size, (t.cls c).tag.toInt = c) ∧ (t.classes.toList.map (·.tag)).Nodup
  wellLaid {c : Nat} (hc : c < t.classes.size) : (t.cls c).WellLaid
  /-- The attributes and the slots of the class above come first. -/
  inherits {c s : Nat} (hc : c < t.classes.size) (hs : (t.cls c).superClass = some s) :
    s < c ∧ (t.cls s).attrs <+: (t.cls c).attrs ∧
      (t.cls s).methods.map Method.name <+: (t.cls c).methods.map Method.name
  /-- A method has the same slot in all classes below one that has it. -/
  slots {c a : Nat} (hc : c < t.classes.size) (ha : t.Ancestor c a) {name : String} {slot : Nat}
    {e : Method} (he : (t.cls a).method? name = some (slot, e)) :
    ∃ e', (t.cls c).method? name = some (slot, e')
  /-- What a class defines is in its table, the last definition of each name. -/
  own {k : Nat} {d : ClassDecl} (hd : (boxClasses ++ p.classDecls)[k]? = some d) {name : String}
    {definition : Decl} (hdef : Decl.lastDefining? name d.members = some definition) :
    ∃ slot e, (t.cls (k + 1)).method? name = some (slot, e) ∧ e.Implements t d.name definition
  /-- For what it does not define, its table is the one of the class above. -/
  inherited {k s : Nat} {d : ClassDecl} (hd : (boxClasses ++ p.classDecls)[k]? = some d)
    (hs : (t.cls (k + 1)).superClass = some s) {name : String}
    (hdef : Decl.lastDefining? name d.members = none) :
    (t.cls (k + 1)).method? name = (t.cls s).method? name

/-! ## Attributes -/

theorem getElem?_ownAttrs {k i : Nat} {decls : List Decl} {a : Attribute}
    (h : (ownAttrs k decls)[i]? = some a) :
    a.index = k + i ∧ a.offset = Object.slotOffset (k + i) := by
  induction decls generalizing k i with
  | nil => cases h
  | cons d rest ih =>
    cases d with
    | var span v init =>
      cases i with
      | zero =>
        cases h
        exact ⟨rfl, rfl⟩
      | succ i =>
        have := @ih (k + 1) i h
        rw [Nat.add_right_comm, Nat.add_assoc] at this
        exact this
    | func | cls | global | nonlocal => exact ih h

/-! ## Definitions and methods -/

theorem Method.Implements.defines_iff {t : SymbolTable} {className : String} {d : Decl} {m : Method}
    (h : m.Implements t className d) (name : String) : d.defines name = (m.name == name) := by
  have hd := h.defines
  cases d with
  | func span n params result decls body =>
    have hn : n = m.name := beq_iff_eq.mp hd
    rw [← hn]
    rfl
  | var | cls | global | nonlocal => cases hd

/-- Searching two lists side by side finds entries that belong together. -/
theorem find?_rel {α β : Type} {R : α → β → Prop} {p : α → Bool} {q : β → Bool} {xs : List α}
    {ys : List β} (h : List.Forall₂ R xs ys) (hpq : ∀ x y, R x y → p x = q y) :
    Option.Rel R (xs.find? p) (ys.find? q) := by
  induction h with
  | nil => exact .none
  | @cons x y xs ys hxy _ ih =>
    rw [List.find?_cons, List.find?_cons, hpq x y hxy]
    cases q y with
    | true => exact .some hxy
    | false => exact ih

/-- The last method of a name belongs to the last definition of that name. -/
theorem lastNamed?_rel {t : SymbolTable} {className : String} {members : List Decl}
    {news : List Method}
    (h : List.Forall₂ (Method.Implements t className) (members.filter Decl.isFunc) news)
    (name : String) : Option.Rel (Method.Implements t className)
      (Decl.lastDefining? name members) (lastNamed? name news) := by
  have hfunc : Decl.lastDefining? name members =
      (members.filter Decl.isFunc).reverse.find? (Decl.defines name) := by
    rw [Decl.lastDefining?, ← List.filter_reverse, List.find?_filter]
    congr 1
    funext d
    cases d with
    | func => simp [Decl.isFunc]
    | var | cls | global | nonlocal => rfl
  rw [hfunc, lastNamed?]
  exact find?_rel (List.rel_reverse h) fun d m hm => hm.defines_iff name

/-! ## Inheriting -/

namespace SymbolTable

variable {t : SymbolTable} {ds : List ClassDecl}

namespace Layered

variable {c : Nat}

variable (h : Layered t ds)

include h

theorem exists_decl (hc : c < t.classes.size) :
    c = 0 ∨ ∃ k d, c = k + 1 ∧ ds[k]? = some d := by
  have hsize := h.size
  cases c with
  | zero => exact .inl rfl
  | succ k =>
    have hk : k < ds.length := by omega
    exact .inr ⟨k, ds[k], rfl, List.getElem?_eq_getElem hk⟩

/-- A class that extends another one comes from a declaration. -/
theorem extends_of_super {s : Nat} (hc : c < t.classes.size)
    (hs : (t.cls c).superClass = some s) : s < c ∧ ∃ decls, (t.cls c).Extends t s decls := by
  rcases h.exists_decl hc with rfl | ⟨k, d, rfl, hd⟩
  · rw [h.object.2.1] at hs
    cases hs
  · obtain ⟨-, s', hle, hext⟩ := h.declared hd
    obtain rfl : s' = s := Option.some.inj (hext.super.symm.trans hs)
    exact ⟨Nat.lt_succ_of_le hle, d.members, hext⟩

theorem inherits {s : Nat} (hc : c < t.classes.size)
    (hs : (t.cls c).superClass = some s) : s < c ∧ (t.cls s).attrs <+: (t.cls c).attrs ∧
      (t.cls s).methods.map Method.name <+: (t.cls c).methods.map Method.name := by
  obtain ⟨hlt, decls, hext⟩ := h.extends_of_super hc hs
  obtain ⟨news, -, hmethods⟩ := hext.methods
  refine ⟨hlt, ?_, ?_⟩
  · rw [hext.attrs]
    exact List.prefix_append _ _
  · rw [hmethods]
    exact names_putMethods _ _

theorem wellLaid (hc : c < t.classes.size) : (t.cls c).WellLaid := by
  -- Classes extend earlier ones, so the induction goes over all classes before this one.
  induction c using Nat.strongRecOn with
  | ind c ih =>
  rcases h.exists_decl hc with rfl | ⟨k, d, rfl, hd⟩
  · obtain ⟨-, -, hattrs, hmethods⟩ := h.object
    refine ⟨fun ha => ?_, ?_, objectConstructor, ?_, rfl⟩
    · rw [hattrs] at ha
      cases ha
    · rw [hmethods]
      exact List.nodup_singleton _
    · rw [hmethods]
      rfl
  · obtain ⟨-, s, hle, hext⟩ := h.declared hd
    have hs := ih s (Nat.lt_succ_of_le hle) (by omega)
    obtain ⟨news, -, hmethods⟩ := hext.methods
    refine ⟨fun {i a} ha => ?_, ?_, ?_⟩
    · rw [hext.attrs] at ha
      by_cases hi : i < (t.cls s).attrs.length
      · rw [List.getElem?_append_left hi] at ha
        exact hs.attrs ha
      · rw [List.getElem?_append_right (Nat.le_of_not_lt hi)] at ha
        obtain ⟨hindex, hoffset⟩ := getElem?_ownAttrs ha
        rw [Nat.add_sub_cancel' (Nat.le_of_not_lt hi)] at hindex hoffset
        exact ⟨hindex, hoffset.trans (Object.slotOffset_eq i)⟩
    · rw [hmethods]
      exact nodup_putMethods hs.names news
    · obtain ⟨e, he, hname⟩ := hs.constructor
      rw [hmethods]
      refine ⟨_, getElem?_putMethods he news, ?_⟩
      cases hlast : lastNamed? e.name news with
      | none => exact hname
      | some m => exact (name_of_lastNamed? hlast).trans hname

/-- A slot of the class above is a slot of the class, for a method of the same name. -/
theorem slot_of_super {s : Nat} (hc : c < t.classes.size)
    (hs : (t.cls c).superClass = some s) {name : String} {slot : Nat} {e : Method}
    (he : (t.cls s).method? name = some (slot, e)) :
    ∃ e', (t.cls c).method? name = some (slot, e') := by
  obtain ⟨hlt, -, hnames⟩ := h.inherits hc hs
  obtain ⟨hslot, hname⟩ := (ClassInfo.method?_eq_some_iff
    (h.wellLaid (Nat.lt_trans hlt hc)).names).mp he
  have hat : ((t.cls s).methods.map Method.name)[slot]? = some name := by
    rw [List.getElem?_map, hslot, Option.map_some, hname]
  obtain ⟨rest, hrest⟩ := hnames
  have hat' : ((t.cls c).methods.map Method.name)[slot]? = some name := by
    rw [← hrest, List.getElem?_append_left (List.getElem?_eq_some_iff.mp hat).1, hat]
  rw [List.getElem?_map] at hat'
  obtain ⟨e', he', hname'⟩ := Option.map_eq_some_iff.mp hat'
  exact ⟨e', (ClassInfo.method?_eq_some_iff (h.wellLaid hc).names).mpr ⟨he', hname'⟩⟩

theorem slot_of_ancestor {a : Nat} (ha : t.Ancestor c a)
    (hc : c < t.classes.size) {name : String} {slot : Nat} {e : Method}
    (he : (t.cls a).method? name = some (slot, e)) :
    ∃ e', (t.cls c).method? name = some (slot, e') := by
  induction ha with
  | self c => exact ⟨e, he⟩
  | above hs _ ih =>
    obtain ⟨e', he'⟩ := ih (Nat.lt_trans (h.inherits hc hs).1 hc) he
    exact h.slot_of_super hc hs he'

theorem own_method {k : Nat} {d : ClassDecl} (hd : ds[k]? = some d)
    {name : String} {definition : Decl}
    (hdef : Decl.lastDefining? name d.members = some definition) :
    ∃ slot e, (t.cls (k + 1)).method? name = some (slot, e) ∧ e.Implements t d.name definition := by
  have hsize := h.size
  have hk := (List.getElem?_eq_some_iff.mp hd).1
  have hnames := (h.wellLaid (show k + 1 < t.classes.size by omega)).names
  obtain ⟨hname, s, -, hext⟩ := h.declared hd
  obtain ⟨news, hnews, hmethods⟩ := hext.methods
  have hrel := lastNamed?_rel hnews name
  rw [hdef] at hrel
  cases hlast : lastNamed? name news with
  | none =>
    rw [hlast] at hrel
    cases hrel
  | some m =>
    rw [hlast] at hrel
    cases hrel with
    | some hm =>
      have hmem : m ∈ (t.cls (k + 1)).methods := by
        rw [hmethods]
        exact mem_putMethods_of_last hlast
      obtain ⟨slot, hslot⟩ := List.mem_iff_getElem?.mp hmem
      rw [hname] at hm
      exact ⟨slot, m, (ClassInfo.method?_eq_some_iff hnames).mpr ⟨hslot, name_of_lastNamed? hlast⟩,
        hm⟩

theorem inherited_method {k s : Nat} {d : ClassDecl} (hd : ds[k]? = some d)
    (hs : (t.cls (k + 1)).superClass = some s) {name : String}
    (hdef : Decl.lastDefining? name d.members = none) :
    (t.cls (k + 1)).method? name = (t.cls s).method? name := by
  have hsize := h.size
  have hk := (List.getElem?_eq_some_iff.mp hd).1
  have hc : k + 1 < t.classes.size := by omega
  have hnames := (h.wellLaid hc).names
  obtain ⟨-, s', hle, hext⟩ := h.declared hd
  obtain rfl : s' = s := Option.some.inj (hext.super.symm.trans hs)
  have hnames' := (h.wellLaid (show s' < t.classes.size by omega)).names
  obtain ⟨news, hnews, hmethods⟩ := hext.methods
  have hlast : lastNamed? name news = none := by
    have hrel := lastNamed?_rel hnews name
    rw [hdef] at hrel
    cases hl : lastNamed? name news with
    | none => rfl
    | some m =>
      rw [hl] at hrel
      cases hrel
  have hkept {slot : Nat} {e : Method} (he : (t.cls s').methods[slot]? = some e)
      (hname : e.name = name) : (t.cls (k + 1)).methods[slot]? = some e := by
    rw [hmethods, getElem?_putMethods he, hname, hlast]
    rfl
  refine Option.ext fun ⟨slot, e⟩ => ?_
  rw [ClassInfo.method?_eq_some_iff hnames, ClassInfo.method?_eq_some_iff hnames']
  constructor
  · rintro ⟨he, hname⟩
    -- The entry is no new one, so it stood in the table above, and at the same place.
    have hmem : e ∈ putMethods (t.cls s').methods news := hmethods ▸ List.mem_of_getElem? he
    rcases mem_putMethods hmem with hold | hnew
    · obtain ⟨slot', hslot'⟩ := List.mem_iff_getElem?.mp hold
      have hsame := (ClassInfo.method?_eq_some_iff hnames).mpr ⟨he, hname⟩
      rw [(ClassInfo.method?_eq_some_iff hnames).mpr ⟨hkept hslot' hname, hname⟩] at hsame
      cases hsame
      exact ⟨hslot', hname⟩
    · rw [lastNamed?, List.find?_eq_none] at hlast
      exact absurd (beq_iff_eq.mpr hname) (hlast e (List.mem_reverse.mpr hnew))
  · rintro ⟨he, hname⟩
    exact ⟨hkept he hname, hname⟩

theorem toInt_tag (hwords : t.classes.size ≤ 2147483648)
    (hc : c < t.classes.size) : (t.cls c).tag.toInt = c := by
  rw [h.tags hc (by omega)]
  exact Int32.toInt_ofNat_of_lt (by omega)

theorem nodup_tags (hwords : t.classes.size ≤ 2147483648) :
    (t.classes.toList.map (·.tag)).Nodup := by
  rw [toList_classes, List.map_map]
  refine List.Nodup.map_on (fun c hc c' hc' heq => ?_) List.nodup_range
  have htag : (t.cls c).tag = (t.cls c').tag := heq
  have := h.toInt_tag hwords (List.mem_range.mp hc)
  rw [htag, h.toInt_tag hwords (List.mem_range.mp hc')] at this
  omega

end Layered

end SymbolTable

/-! ## The result -/

/-- **Class layout supports subtyping**, in the table of every program. -/
theorem class_layout_supports_subtyping {p : Program} {t : SymbolTable}
    (h : SymbolTable.ofProgram p = .ok t) : t.SupportsSubtyping p := by
  have hl := SymbolTable.Layered.ofProgram h
  exact {
    classes := hl.names.trans (by rw [List.map_append]; rfl)
    tags := fun hwords => ⟨fun c hc => hl.toInt_tag hwords hc, hl.nodup_tags hwords⟩
    wellLaid := hl.wellLaid
    inherits := hl.inherits
    slots := fun {_ _} hc ha {_ _ _} he => hl.slot_of_ancestor ha hc he
    own := hl.own_method
    inherited := hl.inherited_method }

/-- The class `Square` defines `area` twice, and with it overrides a method of `Shape`. -/
def shapes : Program :=
  let area (line : UInt32) : Decl := .func ⟨line, 1, line, 1⟩ "area" [⟨"self", .object⟩] .int [] []
  let name : Decl := .func {} "name" [⟨"self", .object⟩] .str [] []
  { decls := [.cls {} "Shape" "object" [.var {} ⟨"id", .int⟩ (.int 7), area 1, name],
      .cls {} "Square" "Shape" [area 2, .var {} ⟨"side", .int⟩ (.int 1), area 3]] }

/-- Both classes have `area` in slot 1. In the table of `Square` the slot holds the second
definition of `Square`, and slot 2 what `Shape` has there. -/
theorem shapes_support_subtyping :
    ∃ t e e' id, SymbolTable.ofProgram shapes = .ok t ∧ t.SupportsSubtyping shapes ∧
      (t.cls 4).method? "area" = some (1, e) ∧ (t.cls 5).method? "area" = some (1, e') ∧
      e'.func = some id ∧ (t.func id).name = "Square.area" ∧ (t.func id).span = ⟨3, 1, 3, 1⟩ ∧
      (t.cls 5).method? "name" = (t.cls 4).method? "name" ∧ (t.cls 5).tag.toInt = 5 := by
  have hok : (SymbolTable.ofProgram shapes).toOption.any (fun t =>
      t.classes.size == 6 && (t.cls 5).superClass == some 4 &&
        ((t.cls 4).method? "area").any (·.1 == 1)) = true := by decide +kernel
  obtain ⟨t, ht, hok⟩ := exists_ok_of_any hok
  have hlay := class_layout_supports_subtyping ht
  simp only [Bool.and_eq_true, beq_iff_eq] at hok
  obtain ⟨⟨hsize, hsuper⟩, harea⟩ := hok
  obtain ⟨⟨slot, e⟩, he, hslot⟩ := (Option.any_eq_true _ _).mp harea
  obtain rfl : slot = 1 := beq_iff_eq.mp hslot
  have hc : 5 < t.classes.size := by omega
  obtain ⟨e', he'⟩ := hlay.slots hc (.above hsuper (.self 4)) he
  have hd : (boxClasses ++ shapes.classDecls)[4]? = some ⟨"Square", "Shape", _⟩ := rfl
  obtain ⟨slot, e'', he'', himpl⟩ :=
    @SymbolTable.SupportsSubtyping.own _ _ hlay _ _ hd "area" _ rfl
  obtain ⟨rfl, rfl⟩ : slot = 1 ∧ e'' = e' := by simpa using he''.symm.trans he'
  obtain ⟨id, -, hfunc, hname, -, -, -, -, hspan, -, -⟩ := himpl.func
  have hnamed : e''.name = "area" :=
    ((ClassInfo.method?_eq_some_iff (hlay.wellLaid hc).names).mp he'').2
  rw [hnamed] at hname
  exact ⟨t, e, e'', id, ht, hlay, he, he'', hfunc, hname, hspan,
    hlay.inherited hd hsuper rfl, (hlay.tags (by omega)).1 5 hc⟩

end ChocoRV
