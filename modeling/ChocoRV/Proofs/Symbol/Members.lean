import Mathlib
import ChocoRV.Proofs.Symbol.Classes
import ChocoRV.Proofs.Symbol.Params

/-!
# Scopes of members

The members of a class stand in two places: in the lists of the class, with those that are
inherited, and in a scope of the class's own, which hangs off the scope of the class that it
extends. `SymbolTable.Membered` says that the two agree, and that scopes of classes are none of the
others; `SymbolTable.Ranged` that scopes hang off earlier ones, that functions are given by numbers
of the table, and that classes go by their own names.
-/

namespace ChocoRV

/-- What a name may stand for in the scope of a class: an attribute of the class, or a function if
the class has a method of that name. -/
def Symbol.MemberOf (c : ClassInfo) (name : String) : Symbol → Prop
  | .attr a => a ∈ c.attrs ∧ a.name = name
  | .func _ => name ∈ c.methods.map Method.name
  | .cls _ | .global _ | .stack _ => False

/-- A new name stands for no variable of a frame, and for a class only if that has the name. -/
def Symbol.Named (t : SymbolTable) (name : String) (sym : Symbol) : Prop :=
  (∀ v, sym ≠ .stack v) ∧ ∀ id, sym = .cls id → (t.cls id).name = name

namespace SymbolTable

/-- Classes and the scopes of their members agree. -/
structure Membered (t : SymbolTable) : Prop where
  scope_pos {c : Nat} (hc : c < t.classes.size) : globalScope < (t.cls c).scope
  scope_lt {c : Nat} (hc : c < t.classes.size) : (t.cls c).scope < t.scopes.size
  scope_inj {c d : Nat} (hc : c < t.classes.size) (hd : d < t.classes.size)
    (h : (t.cls c).scope = (t.cls d).scope) : c = d
  apart {c f : Nat} (hc : c < t.classes.size) (hf : f < t.funcs.size) :
    (t.cls c).scope ≠ (t.func f).scope
  super_lt {c s : Nat} (hc : c < t.classes.size) (hs : (t.cls c).superClass = some s) : s < c
  parent {c : Nat} (hc : c < t.classes.size) :
    t.parent? (t.cls c).scope = (t.cls c).superClass.map fun s => (t.cls s).scope
  bound {c : Nat} (hc : c < t.classes.size) {name : String} {sym : Symbol}
    (he : t.entry? (t.cls c).scope name = some sym) : sym.MemberOf (t.cls c) name
  /-- An attribute is inherited, or its name is bound in the scope of the class itself. -/
  declared {c : Nat} (hc : c < t.classes.size) {a : Attribute} (ha : a ∈ (t.cls c).attrs) :
    t.entry? (t.cls c).scope a.name ≠ none ∨ ∃ s, (t.cls c).superClass = some s ∧
      a ∈ (t.cls s).attrs

/-- Scopes hang off earlier ones, functions that hold variables or are methods are in the table, and
a name that stands for a class is its name. -/
structure Ranged (t : SymbolTable) : Prop where
  parent_lt {s p : Nat} (h : t.parent? s = some p) : p < s
  stack {s : Nat} {name : String} {v : StackVar} (he : t.entry? s name = some (.stack v)) :
    v.func < t.funcs.size
  named {s : Nat} {name : String} {id : Nat} (he : t.entry? s name = some (.cls id)) :
    (t.cls id).name = name
  method {c : ClassInfo} (hc : c ∈ t.classes.toList) {m : Method} (hm : m ∈ c.methods) {f : Nat}
    (hf : m.func = some f) : f < t.funcs.size

variable {t t' : SymbolTable}

/-! ## Tables with a class that has changed -/

theorem cls_modify (t : SymbolTable) {id : Nat} (f : ClassInfo → ClassInfo) {c : Nat}
    (hc : c < t.classes.size) :
    SymbolTable.cls { t with classes := t.classes.modify id f } c = if id = c then f (t.cls c) else
      t.cls c := by
  simp [cls, Array.getD, hc, Array.getElem_modify]

variable {scope : Nat}

theorem entry?_define_self (hs : scope < t.scopes.size) (name : String) (sym : Symbol) :
    SymbolTable.entry? (t.define scope name sym) scope name = some sym := by
  rw [SymbolTable.entry?, define, Array.getElem?_modify, if_pos rfl, Array.getElem?_eq_getElem hs]
  exact Std.ExtTreeMap.getElem?_insert_self

/-- A name that has been defined keeps standing for something. -/
theorem entry?_define_ne_none {name : String} {sym : Symbol} {s : Nat} {n : String}
    (h : t.entry? s n ≠ none) : SymbolTable.entry? (t.define scope name sym) s n ≠ none := by
  rcases entry?_define_cases t scope name sym s n with heq | heq
  · rw [heq]
    exact h
  · rw [heq]
    exact Option.some_ne_none sym

namespace Membered

/-- A class is told apart by its scope even from classes that are not there. -/
theorem eq_of_scope (h : t.Membered) {c id : Nat} (hc : c < t.classes.size)
    (heq : (t.cls c).scope = (t.cls id).scope) : id = c := by
  by_cases hid : id < t.classes.size
  · exact h.scope_inj hid hc heq.symm
  · have hdefault : (t.cls id).scope = globalScope := by
      simp [cls, Array.getD, hid]
      rfl
    exact absurd (heq.trans hdefault) (Nat.ne_of_gt (h.scope_pos hc))

/-- Scopes and classes keep their places; what names stand for may change. -/
theorem congr (h : t.Membered) (hsize : t'.classes.size = t.classes.size)
    (hfuncs : t'.funcs = t.funcs) (hscopes : t'.scopes.size = t.scopes.size)
    (hparent : ∀ s, t'.parent? s = t.parent? s) (hcls : ∀ c < t.classes.size,
      (t'.cls c).scope = (t.cls c).scope ∧ (t'.cls c).superClass = (t.cls c).superClass)
    (hbound : ∀ c < t.classes.size, ∀ name sym, t'.entry? (t.cls c).scope name = some sym →
      sym.MemberOf (t'.cls c) name)
    (hdeclared : ∀ c < t.classes.size, ∀ a ∈ (t'.cls c).attrs,
    t'.entry? (t.cls c).scope a.name ≠ none ∨
      ∃ s, (t.cls c).superClass = some s ∧ a ∈ (t'.cls s).attrs) : t'.Membered := by
  refine ⟨?_, ?_, ?_, ?_, ?_, ?_, ?_, ?_⟩
  all_goals
    intro c
    rw [hsize]
  · intro hc
    rw [(hcls c hc).1]
    exact h.scope_pos hc
  · intro hc
    rw [(hcls c hc).1, hscopes]
    exact h.scope_lt hc
  · intro d hc hd
    rw [(hcls c hc).1, (hcls d hd).1]
    exact h.scope_inj hc hd
  · intro f hc hf
    rw [hfuncs] at hf
    rw [(hcls c hc).1, func, hfuncs]
    exact h.apart hc hf
  · intro s hc
    rw [(hcls c hc).2]
    exact h.super_lt hc
  · intro hc
    rw [(hcls c hc).1, (hcls c hc).2, hparent, h.parent hc]
    refine Option.map_congr fun s hs => ?_
    exact (hcls s (Nat.lt_trans (h.super_lt hc hs) hc)).1.symm
  · intro hc name sym he
    rw [(hcls c hc).1] at he
    exact hbound c hc name sym he
  · intro hc a ha
    rw [(hcls c hc).1, (hcls c hc).2]
    exact hdeclared c hc a ha

/-- A name that is defined in a scope that is no class's. -/
theorem define (h : t.Membered) (hs : ∀ c < t.classes.size, (t.cls c).scope ≠ scope) (name : String)
    (sym : Symbol) : (t.define scope name sym).Membered := by
  refine h.congr rfl rfl Array.size_modify (parent?_define t scope name sym)
    (fun c _ => ⟨rfl, rfl⟩) (fun c hc n sym' he => ?_) fun c hc a ha => ?_
  · rcases entry?_define he with ⟨heq, -⟩ | he
    · exact absurd heq (hs c hc)
    · exact h.bound hc he
  · exact (h.declared hc ha).imp_left entry?_define_ne_none

theorem defineGlobal (h : t.Membered) (name : String) (sym : Symbol) :
    (t.define globalScope name sym).Membered :=
  h.define (fun _ hc => Nat.ne_of_gt (h.scope_pos hc)) name sym

/-- One more member of a class. -/
theorem addMember (h : t.Membered) {id : Nat} {f : ClassInfo → ClassInfo} {name : String}
    {sym : Symbol}
    (hf : ∀ c, (f c).scope = c.scope ∧ (f c).superClass = c.superClass ∧ c.attrs ⊆ (f c).attrs ∧
      c.methods.map Method.name ⊆ (f c).methods.map Method.name)
    (hsym : sym.MemberOf (f (t.cls id)) name)
    (hnew : ∀ a ∈ (f (t.cls id)).attrs, a ∈ (t.cls id).attrs ∨ a.name = name) :
    SymbolTable.Membered
      (SymbolTable.define { t with classes := t.classes.modify id f } (t.cls id).scope
      name sym) := by
  have hgrow (c : Nat) (hc : c < t.classes.size) :
      (t.cls c).attrs ⊆ (SymbolTable.cls { t with classes := t.classes.modify id f } c).attrs := by
    rw [cls_modify t f hc]
    split
    · exact (hf _).2.2.1
    · exact List.Subset.refl _
  refine h.congr Array.size_modify rfl Array.size_modify (parent?_define _ _ name sym)
    (fun c hc => ?_) (fun c hc n sym' he => ?_) fun c hc a ha => ?_
  · refine cls_modify t f hc ▸ ?_
    split
    · exact ⟨(hf _).1, (hf _).2.1⟩
    · exact ⟨rfl, rfl⟩
  · show sym'.MemberOf (SymbolTable.cls { t with classes := t.classes.modify id f } c) n
    rcases entry?_define he with ⟨heq, rfl, rfl⟩ | he
    · obtain rfl := h.eq_of_scope hc heq
      rw [cls_modify t f hc, if_pos rfl]
      exact hsym
    · have hold := h.bound hc he
      rw [cls_modify t f hc]
      split
      · cases sym' with
        | attr a => exact ⟨(hf _).2.2.1 hold.1, hold.2⟩
        | func g => exact (hf _).2.2.2 hold
        | cls | global | stack => exact hold
      · exact hold
  · have hcase : a ∈ (t.cls c).attrs ∨ (id = c ∧ a.name = name) := by
      have ha : a ∈ (SymbolTable.cls { t with classes := t.classes.modify id f } c).attrs := ha
      rw [cls_modify t f hc] at ha
      split at ha
      · rename_i heq
        subst heq
        exact (hnew a ha).imp_right fun hname => ⟨rfl, hname⟩
      · exact .inl ha
    rcases hcase with ha | ⟨rfl, rfl⟩
    · rcases h.declared hc ha with hentry | ⟨s, hs, ha⟩
      · exact .inl (entry?_define_ne_none hentry)
      · exact .inr ⟨s, hs, hgrow s (Nat.lt_trans (h.super_lt hc hs) hc) ha⟩
    · refine .inl ?_
      rw [entry?_define_self (t := { t with classes := t.classes.modify id f }) (h.scope_lt hc)]
      exact Option.some_ne_none sym

/-- One more function, with a scope of its own. -/
theorem pushFunc (h : t.Membered) {info : FuncInfo} {sc : Scope}
    (hscope : info.scope = t.scopes.size) (hclasses : t'.classes = t.classes)
    (hfuncs : t'.funcs = t.funcs.push info) (hscopes : t'.scopes = t.scopes.push sc) :
    t'.Membered := by
  have hcls (c : Nat) : t'.cls c = t.cls c := by rw [cls, cls, hclasses]
  refine ⟨?_, ?_, ?_, ?_, ?_, ?_, ?_, ?_⟩
  all_goals
    intro c
    rw [hclasses]
    simp only [hcls]
  · exact h.scope_pos
  · intro hc
    rw [hscopes, Array.size_push]
    exact Nat.lt_succ_of_lt (h.scope_lt hc)
  · exact h.scope_inj
  · intro f hc hf
    rw [hfuncs, Array.size_push] at hf
    rcases Nat.lt_succ_iff_lt_or_eq.mp hf with hf | rfl
    · rw [show t'.func f = t.func f by
        simp [func, hfuncs, Array.getD, hf, Nat.lt_succ_of_lt hf, Array.getElem_push_lt]]
      exact h.apart hc hf
    · rw [func_push hfuncs, hscope]
      exact Nat.ne_of_lt (h.scope_lt hc)
  · exact h.super_lt
  · intro hc
    rw [parent?_push_of_lt hscopes (h.scope_lt hc)]
    exact h.parent hc
  · intro hc name sym he
    rw [entry?_push_of_lt hscopes (h.scope_lt hc)] at he
    exact h.bound hc he
  · intro hc a ha
    rw [entry?_push_of_lt hscopes (h.scope_lt hc)]
    exact h.declared hc ha

/-- One more class, with a scope of its own that hangs off that of the class that it extends. -/
theorem pushClass (h : t.Membered) (hch : t.Chained) {info : ClassInfo}
    (hs : ∀ s ∈ info.superClass, s < t.classes.size) (hscope : info.scope = t.scopes.size)
    (hattrs : ∀ a ∈ info.attrs, ∃ s, info.superClass = some s ∧ a ∈ (t.cls s).attrs)
    (hclasses : t'.classes = t.classes.push info) (hfuncs : t'.funcs = t.funcs)
    (hscopes : t'.scopes = t.scopes.push ⟨info.superClass.map fun s => (t.cls s).scope, ∅⟩) :
    t'.Membered := by
  have hnew : t'.cls t.classes.size = info := cls_of_classes_push hclasses
  have hold {c : Nat} (hc : c < t.classes.size) : t'.cls c = t.cls c :=
    cls_of_classes_push_lt hclasses rfl hc
  have hcases {c : Nat} (hc : c < t'.classes.size) : c < t.classes.size ∨ c = t.classes.size := by
    rw [hclasses, Array.size_push] at hc
    omega
  have hroom : t'.scopes.size = t.scopes.size + 1 := by rw [hscopes, Array.size_push]
  have hsupers {o : Option Nat} (ho : ∀ s ∈ o, s < t.classes.size) :
      o.map (fun s => (t'.cls s).scope) = o.map fun s => (t.cls s).scope :=
    Option.map_congr fun s hs => by rw [hold (ho s hs)]
  refine ⟨?_, ?_, ?_, ?_, ?_, ?_, ?_, ?_⟩
  · intro c hc
    rcases hcases hc with hc | rfl
    · rw [hold hc]
      exact h.scope_pos hc
    · rw [hnew, hscope]
      exact hch.exists_root
  · intro c hc
    rw [hroom]
    rcases hcases hc with hc | rfl
    · rw [hold hc]
      exact Nat.lt_succ_of_lt (h.scope_lt hc)
    · rw [hnew, hscope]
      exact Nat.lt_succ_self _
  · intro c d hc hd heq
    rcases hcases hc with hc | rfl
    · rcases hcases hd with hd | rfl
      · rw [hold hc, hold hd] at heq
        exact h.scope_inj hc hd heq
      · rw [hold hc, hnew, hscope] at heq
        exact absurd heq (Nat.ne_of_lt (h.scope_lt hc))
    · rcases hcases hd with hd | rfl
      · rw [hold hd, hnew, hscope] at heq
        exact absurd heq (Nat.ne_of_gt (h.scope_lt hd))
      · rfl
  · intro c f hc hf
    rw [func, hfuncs]
    rw [hfuncs] at hf
    rcases hcases hc with hc | rfl
    · rw [hold hc]
      exact h.apart hc hf
    · rw [hnew, hscope]
      exact Nat.ne_of_gt (hch.scope_lt hf)
  · intro c s hc hsup
    rcases hcases hc with hc | rfl
    · rw [hold hc] at hsup
      exact h.super_lt hc hsup
    · rw [hnew] at hsup
      exact hs s hsup
  · intro c hc
    rcases hcases hc with hc | rfl
    · rw [hold hc, hsupers fun s hsup => Nat.lt_trans (h.super_lt hc hsup) hc,
        parent?_push_of_lt hscopes (h.scope_lt hc)]
      exact h.parent hc
    · rw [hnew, hsupers hs, hscope, parent?, getElem?_scopes_push hscopes]
      rfl
  · intro c hc name sym he
    rcases hcases hc with hc | rfl
    · rw [hold hc, entry?_push_of_lt hscopes (h.scope_lt hc)] at he
      rw [hold hc]
      exact h.bound hc he
    · rw [hnew, hscope, SymbolTable.entry?, getElem?_scopes_push hscopes] at he
      simp at he
  · intro c hc a ha
    rcases hcases hc with hc | rfl
    · rw [hold hc] at ha ⊢
      rw [entry?_push_of_lt hscopes (h.scope_lt hc)]
      refine (h.declared hc ha).imp_right ?_
      rintro ⟨s, hsup, ha⟩
      refine ⟨s, hsup, ?_⟩
      rw [hold (Nat.lt_trans (h.super_lt hc hsup) hc)]
      exact ha
    · rw [hnew] at ha ⊢
      obtain ⟨s, hsup, ha⟩ := hattrs a ha
      refine .inr ⟨s, hsup, ?_⟩
      rw [hold (hs s hsup)]
      exact ha

end Membered

/-- The attributes that a new class begins with are those of the class that it extends. -/
theorem mem_inherited {superClass : Option Nat} {a : Attribute}
    (ha : a ∈ ((superClass.map t.cls).map ClassInfo.attrs).getD []) :
    ∃ s, superClass = some s ∧ a ∈ (t.cls s).attrs := by
  cases superClass with
  | none => exact absurd ha List.not_mem_nil
  | some s => exact ⟨s, rfl, ha⟩

/-- **Members and scopes agree**, in the table of every program. -/
theorem Built.membered (h : Built t) : t.Membered := by
  induction h with
  | empty =>
    refine ⟨fun hc => ?_, fun hc => ?_, fun hc => ?_, fun hc => ?_, fun hc => ?_, fun hc => ?_,
      fun hc => ?_, fun hc => ?_⟩
    all_goals exact absurd hc (Nat.not_lt_zero _)
  | @cls t h name tag superClass hs ih =>
    refine Membered.defineGlobal ?_ name _
    refine ih.pushClass h.chained hs rfl (fun a ha => mem_inherited ha) rfl rfl ?_
    simp only [SymbolTable.addScope, Option.map_map]
    rfl
  | @constructor t _ id hnew ih =>
    let f (c : ClassInfo) : ClassInfo := { c with methods := [objectConstructor] }
    have hattrs {c : Nat} (hc : c < t.classes.size) :
        (SymbolTable.cls { t with classes := t.classes.modify id f } c).attrs =
          (t.cls c).attrs := by
      rw [cls_modify t f hc]
      split <;> rfl
    refine ih.congr Array.size_modify rfl rfl (fun _ => rfl) (fun c hc => ?_)
      (fun c hc n sym he => ?_)
      fun c hc a ha => ?_
    · rw [cls_modify t f hc]
      split <;> exact ⟨rfl, rfl⟩
    · have he : t.entry? (t.cls c).scope n = some sym := he
      rw [cls_modify t f hc]
      split
      · rename_i heq
        subst heq
        rw [hnew n] at he
        cases he
      · exact ih.bound hc he
    · rw [hattrs hc] at ha
      refine (ih.declared hc ha).imp_right ?_
      rintro ⟨s, hs, ha⟩
      refine ⟨s, hs, ?_⟩
      rw [hattrs (Nat.lt_trans (ih.super_lt hc hs) hc)]
      exact ha
  | @attr t _ id var init ih =>
    refine ih.addMember (fun c => ?_) ?_ fun a ha => ?_
    · exact ⟨rfl, rfl, List.subset_append_left _ _, List.Subset.refl _⟩
    · exact ⟨List.mem_append_right _ (List.mem_singleton_self _), rfl⟩
    · refine (List.mem_append.mp ha).imp_right fun ha => ?_
      rw [List.mem_singleton.mp ha]
  | @method t _ id name func hf hp ih =>
    refine ih.addMember (fun c => ?_) ?_ fun a ha => ?_
    · exact ⟨rfl, rfl, List.Subset.refl _, (names_putMethod _ _).subset⟩
    · exact List.mem_map_of_mem (mem_putMethod_self _ _)
    · exact .inl ha
  | @builtin t h name result _ ih =>
    refine Membered.defineGlobal ?_ name _
    exact ih.pushFunc rfl rfl rfl rfl
  | @global t _ v init ih =>
    refine Membered.defineGlobal ?_ _ _
    exact ⟨ih.scope_pos, ih.scope_lt, ih.scope_inj, ih.apart, ih.super_lt, ih.parent, ih.bound,
      ih.declared⟩
  | @func t t' h site hsite _ _ _ _ _ ho ih =>
    obtain ⟨entries, locals, hl, rfl⟩ := openFunction_eq_ok ho
    exact ih.pushFunc rfl rfl rfl rfl
  | @name t h func hf name ih =>
    refine ih.define (fun c hc => ?_) name _
    cases hp : (t.func func).parent with
    | none => exact Nat.ne_of_gt (ih.scope_pos hc)
    | some p => exact ih.apart hc (h.chained.owner_parent hf p hp)

/-! ## Numbers -/

namespace Ranged

/-- Numbers stay in the table when functions are added. -/
theorem congr (h : t.Ranged) (hsize : t.funcs.size ≤ t'.funcs.size)
    (hparent : ∀ s, t'.parent? s = t.parent? s)
    (hentry : ∀ s name sym, t'.entry? s name = some sym →
      t.entry? s name = some sym ∨ Symbol.Named t' name sym)
    (hname : ∀ s name id, t.entry? s name = some (.cls id) → (t'.cls id).name = (t.cls id).name)
    (hmethod : ∀ c ∈ t'.classes.toList, ∀ m ∈ c.methods, ∀ f, m.func = some f → f < t'.funcs.size) :
    t'.Ranged where
  parent_lt hp := h.parent_lt ((hparent _).symm.trans hp)
  stack he := by
    rcases hentry _ _ _ he with he | ⟨hno, -⟩
    · exact Nat.lt_of_lt_of_le (h.stack he) hsize
    · exact absurd rfl (hno _)
  named he := by
    rcases hentry _ _ _ he with he | ⟨-, hnamed⟩
    · rw [hname _ _ _ he]
      exact h.named he
    · exact hnamed _ rfl
  method hc _ hm _ hf := hmethod _ hc _ hm _ hf

theorem define (h : t.Ranged) {name : String} {sym : Symbol} (hsym : Symbol.Named t name sym) :
    (t.define scope name sym).Ranged := by
  refine h.congr (Nat.le_refl _) (parent?_define t scope name sym) (fun s n sym' he => ?_)
    (fun _ _ _ _ => rfl)
    fun c hc m hm f hf => h.method hc hm hf
  rcases entry?_define he with ⟨-, rfl, rfl⟩ | he
  · exact .inr hsym
  · exact .inl he

/-- One more scope, and maybe one more function. -/
theorem push (h : t.Ranged) {sc : Scope} (hparent : ∀ p ∈ sc.parent, p < t.scopes.size)
    (hsize : t.funcs.size ≤ t'.funcs.size)
    (hentries : ∀ (name : String) (sym : Symbol), sc.entries[name]? = some sym →
      (∃ v, sym = .stack v ∧ v.func < t'.funcs.size) ∨ ∃ g, sym = .global g)
    (hclasses : t'.classes = t.classes) (hscopes : t'.scopes = t.scopes.push sc) : t'.Ranged where
  parent_lt {s p} hp := by
    rw [parent?, hscopes, Array.getElem?_push] at hp
    split at hp
    · rename_i heq
      rw [heq]
      exact hparent p hp
    · exact h.parent_lt hp
  stack {s name v} he := by
    rw [SymbolTable.entry?, hscopes, Array.getElem?_push] at he
    split at he
    · rcases hentries name _ he with ⟨v', heq, hv⟩ | ⟨g, heq⟩
      · cases heq
        exact hv
      · cases heq
    · exact Nat.lt_of_lt_of_le (h.stack he) hsize
  named {s name id} he := by
    rw [SymbolTable.entry?, hscopes, Array.getElem?_push] at he
    rw [cls, hclasses]
    split at he
    · rcases hentries name _ he with ⟨v, heq, -⟩ | ⟨g, heq⟩
      · cases heq
      · cases heq
    · exact h.named he
  method hc _ hm _ hf := by
    rw [hclasses] at hc
    exact Nat.lt_of_lt_of_le (h.method hc hm hf) hsize

/-- A class may change as long as its methods are in the table. -/
theorem modifyClass (h : t.Ranged) (hc : t.Closed) {id : Nat} {f : ClassInfo → ClassInfo}
    (hname : ∀ c, (f c).name = c.name)
    (hf : ∀ c, ∀ m ∈ (f c).methods, m ∈ c.methods ∨ ∀ g, m.func = some g → g < t.funcs.size) :
    SymbolTable.Ranged { t with classes := t.classes.modify id f } := by
  refine h.congr (Nat.le_refl _) (fun _ => rfl) (fun _ _ _ he => .inl he) (fun s n k he => ?_)
    fun c hc m hm g hg => ?_
  · rw [cls_modify t f (hc.entries he)]
    split
    · exact hname _
    · rfl
  · rcases mem_classes_modify hc with hc | ⟨c₀, hc₀, rfl⟩
    · exact h.method hc hm hg
    · rcases hf c₀ m hm with hm | hm
      · exact h.method hc₀ hm hg
      · exact hm g hg

end Ranged

theorem named_func (t : SymbolTable) (name : String)
    (id : Nat) : Symbol.Named t name (.func id) := by
  constructor
  · rintro v ⟨⟩
  · rintro c ⟨⟩

/-- **Numbers are in range**, in the table of every program. -/
theorem Built.ranged (h : Built t) : t.Ranged := by
  induction h with
  | empty =>
    have hnone {s : Nat} {name : String} {sym : Symbol}
        (he : SymbolTable.entry? (({} : SymbolTable).addScope none) s name = some sym) : False := by
      rcases entry?_push he with he | he
      · simp at he
      · simp [SymbolTable.entry?] at he
    refine ⟨fun {s p} hp => ?_, fun he => (hnone he).elim, fun he => (hnone he).elim,
      fun hc => absurd hc List.not_mem_nil⟩
    rw [parent?, SymbolTable.addScope, Array.getElem?_push] at hp
    split at hp
    · cases hp
    · simp at hp
  | @cls t h name tag superClass hs ih =>
    have hscope : (t.addScope ((superClass.map t.cls).map ClassInfo.scope)).Ranged := by
      refine ih.push ?_ (Nat.le_refl _) (fun n v he => ?_) rfl rfl
      · cases superClass with
        | none => rintro p ⟨⟩
        | some s =>
          rintro p ⟨⟩
          exact h.membered.scope_lt (hs s rfl)
      · simp at he
    have hclosed : (t.addScope ((superClass.map t.cls).map ClassInfo.scope)).Closed :=
      h.closed.addScope _
    refine Ranged.define ?_ ⟨?_, ?_⟩
    · refine hscope.congr (Nat.le_refl _) (fun _ => rfl) (fun _ _ _ he => .inl he)
        (fun s n id he => ?_)
        fun c hc m hm f hf => ?_
      · exact congrArg ClassInfo.name (cls_of_classes_push_lt rfl rfl (hclosed.entries he))
      · rw [Array.toList_push] at hc
        rcases List.mem_append.mp hc with hc | hc
        · exact ih.method hc hm hf
        · cases List.mem_singleton.mp hc
          cases superClass with
          | none => exact absurd hm List.not_mem_nil
          | some s => exact ih.method (mem_of_cls (hs s rfl)) hm hf
    · rintro v ⟨⟩
    · rintro id ⟨⟩
      simp [SymbolTable.cls, Array.getD]
  | @constructor t h id hnew ih =>
    refine ih.modifyClass h.closed (fun _ => rfl) fun c m hm => .inr ?_
    rw [List.mem_singleton.mp hm]
    rintro g ⟨⟩
  | @attr t h id var init ih =>
    refine Ranged.define ?_ ⟨?_, ?_⟩
    · exact ih.modifyClass h.closed (fun _ => rfl) fun c m hm => .inl hm
    · rintro v ⟨⟩
    · rintro c ⟨⟩
  | @method t h id name func hf hp ih =>
    refine Ranged.define ?_ (named_func _ _ _)
    refine ih.modifyClass h.closed (fun _ => rfl) fun c m hm => ?_
    rcases mem_putMethod hm with rfl | hm
    · refine .inr ?_
      rintro g ⟨⟩
      exact hf
    · exact .inl hm
  | @builtin t h name result _ ih =>
    refine Ranged.define ?_ (named_func _ _ _)
    refine ih.push ?_ (by rw [Array.size_push]; exact Nat.le_succ _) (fun n v he => ?_) rfl rfl
    · rintro p ⟨⟩
      exact h.chained.exists_root
    · simp at he
  | @global t _ v init ih =>
    refine Ranged.define ?_ ⟨?_, ?_⟩
    · exact ⟨ih.parent_lt, ih.stack, ih.named, ih.method⟩
    · rintro v ⟨⟩
    · rintro c ⟨⟩
  | @func t t' h site hsite _ _ _ _ _ ho ih =>
    obtain ⟨entries, locals, hl, rfl⟩ := openFunction_eq_ok ho
    refine ih.push ?_ (by rw [Array.size_push]; exact Nat.le_succ _) (fun n sym he => ?_) rfl rfl
    · rintro p ⟨⟩
      rw [hsite.outer]
      exact h.chained.scopeOf_lt hsite.parent
    · refine (locals_localEntries (locals_paramEntries _ _ _) hl n sym he).imp_left ?_
      rintro ⟨v, rfl, hv⟩
      refine ⟨v, rfl, ?_⟩
      rw [hv, Array.size_push]
      exact Nat.lt_succ_self _
  | @name t h func hf name ih => exact ih.define (named_func _ _ _)

end SymbolTable

end ChocoRV
