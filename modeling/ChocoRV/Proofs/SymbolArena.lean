import Mathlib
import ChocoRV.Proofs.ClassLayout
import ChocoRV.Proofs.Symbol.Members

/-!
# The symbol table is well-founded

Functions, classes and scopes refer to each other by number. Every number is that of something in
the table, and what comes above something else has a lower number, so the ways up end. From this
follows what looking a name up finds, and that the scopes above a function or a class are those of
the functions around it and of the classes that it extends.
-/

namespace ChocoRV

/-- What a name stands for is given by numbers of the table. -/
def Symbol.InRange (t : SymbolTable) : Symbol → Prop
  | .cls id => id < t.classes.size
  | .func id => id < t.funcs.size
  | .stack v => v.func < t.funcs.size
  | .attr _ | .global _ => True

/-- The numbers from `n` upward, to one that nothing is above. -/
inductive Lineage (up : Nat → Option Nat) : Nat → List Nat → Prop
  | last {n : Nat} (h : up n = none) : Lineage up n [n]
  | next {n m : Nat} {l : List Nat} (h : up n = some m) (hm : Lineage up m l) :
    Lineage up n (n :: l)

namespace Lineage

variable {up : Nat → Option Nat} {n : Nat} {l l' : List Nat}

theorem unique (h : Lineage up n l) (h' : Lineage up n l') : l = l' := by
  induction h generalizing l' with
  | last hn =>
    cases h' with
    | last => rfl
    | next hm _ => cases hn.symm.trans hm
  | next hm _ ih =>
    cases h' with
    | last hn => cases hn.symm.trans hm
    | next hm' hl =>
      cases hm.symm.trans hm'
      rw [ih hl]

/-- Where what is above has a lower number, the way up ends. -/
theorem exists_of_lt {size : Nat} (hlt : ∀ n < size, ∀ m, up n = some m → m < n) (hn : n < size) :
    ∃ l, Lineage up n l := by
  induction n using Nat.strongRecOn with
  | ind n ih =>
    cases h : up n with
    | none => exact ⟨[n], .last h⟩
    | some m =>
      have hm := hlt n hn m h
      obtain ⟨l, hl⟩ := ih m hm (Nat.lt_trans hm hn)
      exact ⟨n :: l, .next h hl⟩

/-- What holds of a number and goes upward holds of the whole lineage. -/
theorem forall_mem {P : Nat → Prop} (h : Lineage up n l) (hn : P n)
    (hup : ∀ n m, P n → up n = some m → P m) : ∀ k ∈ l, P k := by
  induction h with
  | last => simpa using hn
  | next hm _ ih => exact List.forall_mem_cons.mpr ⟨hn, ih (hup _ _ hn hm)⟩

end Lineage

namespace SymbolTable

variable {t : SymbolTable}

/-! ## Looking names up -/

variable {l : List Nat}

theorem Ranged.lookupWithin (h : t.Ranged) {s fuel : Nat} (hl : Lineage t.parent? s l)
    (hfuel : s < fuel) (name : String) :
    t.lookupWithin name fuel s = l.findSome? fun s => t.entry? s name := by
  induction hl generalizing fuel with
  | @last s hp =>
    obtain ⟨fuel, rfl⟩ := Nat.exists_eq_add_one.mpr (Nat.zero_lt_of_lt hfuel)
    rw [SymbolTable.lookupWithin, List.findSome?_cons, hp]
    cases t.entry? s name <;> rfl
  | @next s p l hp _ ih =>
    obtain ⟨fuel, rfl⟩ := Nat.exists_eq_add_one.mpr (Nat.zero_lt_of_lt hfuel)
    have hlt := h.parent_lt hp
    rw [SymbolTable.lookupWithin, List.findSome?_cons, hp]
    cases t.entry? s name with
    | some sym => rfl
    | none => exact ih (by omega)

theorem Ranged.lookup?_eq (h : t.Ranged) {s : Nat} (hl : Lineage t.parent? s l) (name : String) :
    t.lookup? s name = l.findSome? fun s => t.entry? s name :=
  h.lookupWithin hl (Nat.lt_succ_self s) name

theorem lookup_eq_error_iff {s : Nat} {name : String} {span : Span} :
    t.lookup s name span = .error (.unresolved name span) ↔ t.lookup? s name = none := by
  unfold lookup
  cases t.lookup? s name with
  | none => simp
  | some sym => simp

/-! ## The scopes above functions and classes -/

/-- The scopes above that of a function are those of the functions around it, and then the top
level's. -/
theorem Chained.lineage (h : t.Chained) {f : Nat} (hf : f < t.funcs.size)
    (hl : Lineage (fun f => (t.func f).parent) f l) :
    Lineage t.parent? (t.func f).scope (l.map (fun g => (t.func g).scope) ++ [globalScope]) := by
  induction hl with
  | @last f hp =>
    have hout := h.outer hf
    rw [hp] at hout
    exact .next hout (.last h.root)
  | @next f p l hp _ ih =>
    have hout := h.outer hf
    rw [show (t.func f).parent = some p from hp] at hout
    exact .next hout (ih (h.owner_parent hf p hp))

/-- The scopes above that of a class are those of the classes that it extends. -/
theorem Membered.lineage (h : t.Membered) {c : Nat} (hc : c < t.classes.size)
    (hl : Lineage (fun c => (t.cls c).superClass) c l) :
    Lineage t.parent? (t.cls c).scope (l.map fun d => (t.cls d).scope) := by
  induction hl with
  | @last c hs =>
    have hout := h.parent hc
    rw [hs] at hout
    exact .last hout
  | @next c s l hs _ ih =>
    have hout := h.parent hc
    rw [show (t.cls c).superClass = some s from hs] at hout
    exact .next hout (ih (Nat.lt_trans (h.super_lt hc hs) hc))

/-- An attribute's name, if no method has it, stands for an attribute of the class along its
scopes. -/
theorem Membered.exists_attr (h : t.Membered) {ds : List ClassDecl} (hlay : t.Layered ds) {c : Nat}
    (hc : c < t.classes.size) (hl : Lineage (fun c => (t.cls c).superClass) c l) {a : Attribute}
    (ha : a ∈ (t.cls c).attrs) (hmethod : a.name ∉ (t.cls c).methods.map Method.name) :
    ∃ b ∈ (t.cls c).attrs, b.name = a.name ∧
      (l.map fun d => (t.cls d).scope).findSome? (fun s => t.entry? s a.name) = some (.attr b) := by
  -- In the scope of a class the name can stand for nothing else.
  have hown {c : Nat} (hc : c < t.classes.size)
      (hmethod : a.name ∉ (t.cls c).methods.map Method.name) {sym : Symbol}
      (he : t.entry? (t.cls c).scope a.name = some sym) :
      ∃ b ∈ (t.cls c).attrs, b.name = a.name ∧ sym = .attr b := by
    have hmem := h.bound hc he
    cases sym with
    | attr b => exact ⟨b, hmem.1, hmem.2, rfl⟩
    | func => exact absurd hmem hmethod
    | cls | global | stack => exact hmem.elim
  induction hl with
  | @last c hs =>
    rw [List.map_singleton, List.findSome?_cons]
    cases he : t.entry? (t.cls c).scope a.name with
    | some sym =>
      obtain ⟨b, hb, hname, rfl⟩ := hown hc hmethod he
      exact ⟨b, hb, hname, rfl⟩
    | none =>
      rcases h.declared hc ha with hne | ⟨s, hs', -⟩
      · exact absurd he hne
      · cases (show (t.cls c).superClass = none from hs).symm.trans hs'
  | @next c s l hs _ ih =>
    rw [List.map_cons, List.findSome?_cons]
    cases he : t.entry? (t.cls c).scope a.name with
    | some sym =>
      obtain ⟨b, hb, hname, rfl⟩ := hown hc hmethod he
      exact ⟨b, hb, hname, rfl⟩
    | none =>
      obtain ⟨hlt, hattrs, hnames⟩ := hlay.inherits hc hs
      rcases h.declared hc ha with hne | ⟨s', hs', ha⟩
      · exact absurd he hne
      · obtain rfl : s = s' :=
          Option.some.inj ((show (t.cls c).superClass = some s from hs).symm.trans hs')
        obtain ⟨b, hb, hfound⟩ :=
          ih (Nat.lt_trans hlt hc) ha fun hm => hmethod (hnames.subset hm)
        exact ⟨b, hattrs.subset hb, hfound⟩

/-- An attribute whose name no other member has is what its name stands for. -/
theorem Membered.attrOf_eq (h : t.Membered) (hr : t.Ranged) {ds : List ClassDecl}
    (hlay : t.Layered ds) {c : Nat} (hc : c < t.classes.size)
    (hl : Lineage (fun c => (t.cls c).superClass) c l) {a : Attribute} (ha : a ∈ (t.cls c).attrs)
    (honce : (t.cls c).attrs.countP (·.name == a.name) = 1)
    (hmethod : a.name ∉ (t.cls c).methods.map Method.name) : t.attrOf (t.cls c) a.name = .ok a := by
  obtain ⟨b, hb, hname, hfound⟩ := h.exists_attr hlay hc hl ha hmethod
  obtain ⟨only, honly⟩ := List.length_eq_one_iff.mp (List.countP_eq_length_filter.symm.trans honce)
  have hunique {x : Attribute} (hx : x ∈ (t.cls c).attrs) (hxa : x.name = a.name) : x = only := by
    have hmem : x ∈ (t.cls c).attrs.filter (·.name == a.name) :=
      List.mem_filter.mpr ⟨hx, beq_iff_eq.mpr hxa⟩
    rw [honly] at hmem
    exact List.mem_singleton.mp hmem
  obtain rfl : b = a := (hunique hb hname).trans (hunique ha rfl).symm
  have hlookup := (hr.lookup?_eq (h.lineage hc hl) b.name).trans hfound
  exact bind_eq_ok_iff.mpr ⟨_, lookup_eq_ok_iff.mpr hlookup, rfl⟩

/-! ## The result -/

/-- Numbers are in range and go down on every way up. -/
structure Arena (t : SymbolTable) : Prop where
  entries {s : Nat} {name : String} {sym : Symbol} (he : t.entry? s name = some sym) : sym.InRange t
  scope {s p : Nat} (hp : t.parent? s = some p) : p < s ∧ s < t.scopes.size
  func {f : Nat} (hf : f < t.funcs.size) :
    (t.func f).scope < t.scopes.size ∧ ∀ p, (t.func f).parent = some p → p < f
  cls {c : Nat} (hc : c < t.classes.size) :
    (t.cls c).scope < t.scopes.size ∧ (∀ s, (t.cls c).superClass = some s → s < c) ∧
      ∀ m ∈ (t.cls c).methods, ∀ f, m.func = some f → f < t.funcs.size
  /-- A name stands for what the nearest of the scopes around it has for it, and for nothing if
  there is no such scope. -/
  lookup {s : Nat} (hs : s < t.scopes.size) : ∃! l, Lineage t.parent? s l ∧ ∀ name span,
    t.lookup? s name = l.findSome? (fun s => t.entry? s name) ∧
      (t.lookup s name span = .error (.unresolved name span) ↔ ∀ s ∈ l, t.entry? s name = none)
  around {f : Nat} (hf : f < t.funcs.size) : ∃ l, Lineage (fun f => (t.func f).parent) f l ∧
    Lineage t.parent? (t.func f).scope (l.map (fun g => (t.func g).scope) ++ [globalScope])
  members {c : Nat} (hc : c < t.classes.size) : ∃ l, Lineage (fun c => (t.cls c).superClass) c l ∧
    Lineage t.parent? (t.cls c).scope (l.map fun d => (t.cls d).scope) ∧
      globalScope ∉ l.map fun d => (t.cls d).scope
  /-- An attribute that shares its name with no other member is found by its name. -/
  attr {c : Nat} (hc : c < t.classes.size) {a : Attribute} (ha : a ∈ (t.cls c).attrs)
    (honce : (t.cls c).attrs.countP (·.name == a.name) = 1)
    (hmethod : ∀ m ∈ (t.cls c).methods, m.name ≠ a.name) : t.attrOf (t.cls c) a.name = .ok a

end SymbolTable

open SymbolTable

/-- **The symbol table is well-founded**, for every program that has one. -/
theorem symbol_table_well_founded {p : Program} {t : SymbolTable} (h : ofProgram p = .ok t) :
    t.Arena := by
  have hb := Built.ofProgram h
  have hclosed := hb.closed
  have hch := hb.chained
  have hm := hb.membered
  have hr := hb.ranged
  refine {
    entries := fun {s name sym} he => ?_
    scope := fun {s p} hp => ⟨hr.parent_lt hp, ?_⟩
    func := fun hf => ⟨hch.scope_lt hf, fun p hp => hch.parent_lt hf hp⟩
    cls := fun hc => ⟨hm.scope_lt hc, fun s hs => hm.super_lt hc hs,
      fun m hmem f hf => hr.method (mem_of_cls hc) hmem hf⟩
    lookup := fun {s} hs => ?_
    around := fun {f} hf => ?_
    members := fun {c} hc => ?_
    attr := fun {c} hc {a} ha honce hmethod => ?_ }
  · have hin := hclosed.entries he
    cases sym with
    | cls | func => exact hin
    | stack v => exact hr.stack he
    | attr | global => trivial
  · obtain ⟨sc, hsc, -⟩ := Option.bind_eq_some_iff.mp hp
    exact (Array.getElem?_eq_some_iff.mp hsc).1
  · obtain ⟨l, hl⟩ := Lineage.exists_of_lt (fun s _ p hp => hr.parent_lt hp) hs
    refine ⟨l, ⟨hl, fun name span => ⟨hr.lookup?_eq hl name, ?_⟩⟩, fun l' hl' => hl'.1.unique hl⟩
    rw [lookup_eq_error_iff, hr.lookup?_eq hl]
    exact List.findSome?_eq_none_iff
  · obtain ⟨l, hl⟩ := Lineage.exists_of_lt (fun g hg p hp => hch.parent_lt hg hp) hf
    exact ⟨l, hl, hch.lineage hf hl⟩
  · obtain ⟨l, hl⟩ := Lineage.exists_of_lt (fun d hd s hs => hm.super_lt hd hs) hc
    refine ⟨l, hl, hm.lineage hc hl, fun hmem => ?_⟩
    have hall := hl.forall_mem hc fun d s hd hs => Nat.lt_trans (hm.super_lt hd hs) hd
    obtain ⟨d, hd, heq⟩ := List.mem_map.mp hmem
    exact absurd heq (Nat.ne_of_gt (hm.scope_pos (hall d hd)))
  · obtain ⟨l, hl⟩ := Lineage.exists_of_lt (fun d hd s hs => hm.super_lt hd hs) hc
    refine hm.attrOf_eq hr (Layered.ofProgram h) hc hl ha honce fun hmem => ?_
    obtain ⟨m, hmem, hname⟩ := List.mem_map.mp hmem
    exact hmethod m hmem hname

/-- `Square` finds the attribute that it has from `Shape`. -/
theorem shapes_find_inherited_attr :
    ∃ t a, ofProgram shapes = .ok t ∧ (t.cls 5).superClass = some 4 ∧ a ∈ (t.cls 4).attrs ∧
      a.name = "id" ∧ t.attrOf (t.cls 5) "id" = .ok a := by
  have hok : (ofProgram shapes).toOption.any (fun t =>
      t.classes.size == 6 && (t.cls 5).superClass == some 4 &&
        (t.cls 5).attrs.countP (·.name == "id") == 1 && (t.cls 5).methods.all (·.name != "id") &&
        (t.cls 4).attrs.any fun a => a.name == "id" && (t.cls 5).attrs.contains a) = true := by
    decide +kernel
  obtain ⟨t, ht, hok⟩ := exists_ok_of_any hok
  simp only [Bool.and_eq_true, beq_iff_eq, List.all_eq_true, List.any_eq_true, bne_iff_ne,
    List.contains_iff_mem] at hok
  obtain ⟨⟨⟨⟨hsize, hsuper⟩, honce⟩, hmethod⟩, a, ha, hname, ha'⟩ := hok
  have hattr := (symbol_table_well_founded ht).attr (by rw [hsize]; decide) ha'
    (by rw [hname]; exact honce)
    (by rw [hname]; exact hmethod)
  rw [hname] at hattr
  exact ⟨t, a, ht, hsuper, ha, hname, hattr⟩

end ChocoRV
