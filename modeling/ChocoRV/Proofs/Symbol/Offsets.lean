import Mathlib
import ChocoRV.Proofs.Symbol.Chain

/-!
# Where variables and attributes lie

A name that stands for a variable gives its offset in the frame of the function that declares it,
and a name that stands for an attribute its offset in objects. `Symbol.PlacedIn` says that these are
among the offsets that frames and objects have places for: words of the call, words for locals, and
attributes of some class. `SymbolTable.Built.placed` shows it for every name of a table. The steps
that come after a declaration only make more room, which is what `SymbolTable.Widens` says.
-/

namespace ChocoRV

/-- The offset that the symbol stands for is one of a word passed to its function, of a local
variable of its function, or of an attribute. -/
def Symbol.PlacedIn (t : SymbolTable) : Symbol → Prop
  | .stack v => v.func < t.funcs.size ∧ (t.func v.func).builtin = false ∧
      ((∃ k < (t.func v.func).argCount, v.offset = Frame.paramOffset k) ∨
        ∃ k < (t.func v.func).locals.length, v.offset = Frame.localOffset k)
  | .attr a => a.offset = Object.slotOffset a.index ∧
      (a.index = 0 ∨ ∃ c ∈ t.classes.toList, a.index < c.attrs.length)
  | .cls _ | .func _ | .global _ => True

namespace SymbolTable

variable {t t' : SymbolTable}

/-- Functions stay as they are, and classes lose no attributes. -/
structure Widens (t t' : SymbolTable) : Prop where
  funcs : t.funcs.toList <+: t'.funcs.toList
  attrs : ∀ c ∈ t.classes.toList, ∃ c' ∈ t'.classes.toList, c.attrs.length ≤ c'.attrs.length

variable {sym : Symbol}

namespace Widens

/-- Steps that leave classes alone. -/
theorem of_classes_eq (hfuncs : t.funcs.toList <+: t'.funcs.toList) (h : t'.classes = t.classes) :
    Widens t t' :=
  ⟨hfuncs, fun c hc => ⟨c, by rwa [h], le_rfl⟩⟩

/-- Steps that enter a function and leave classes alone. -/
theorem of_funcs_push {info : FuncInfo} (hfuncs : t'.funcs = t.funcs.push info)
    (h : t'.classes = t.classes) : Widens t t' := by
  refine of_classes_eq ?_ h
  rw [hfuncs, Array.toList_push]
  exact List.prefix_append _ _

/-- Steps that enter a class. -/
theorem of_classes_push {info : ClassInfo} (hfuncs : t'.funcs = t.funcs)
    (h : t'.classes = t.classes.push info) : Widens t t' := by
  refine ⟨by rw [hfuncs], fun c hc => ⟨c, ?_, le_rfl⟩⟩
  rw [h, Array.toList_push]
  exact List.mem_append_left _ hc

/-- Steps that change one class and take no attribute from it. -/
theorem of_classes_modify (t : SymbolTable) (id : Nat) {f : ClassInfo → ClassInfo}
    (hf : ∀ c, c.attrs.length ≤ (f c).attrs.length) :
    Widens t { t with classes := t.classes.modify id f } := by
  refine ⟨List.prefix_rfl, fun c hc => ?_⟩
  obtain ⟨k, hk⟩ := List.mem_iff_getElem?.mp hc
  have hget : (t.classes.modify id f).toList[k]? = some (if id = k then f c else c) := by
    rw [Array.toList_modify, List.getElem?_modify, hk]
    split <;> rfl
  refine ⟨_, List.mem_of_getElem? hget, ?_⟩
  split
  · exact hf c
  · exact le_rfl

theorem placedIn (h : Widens t t') (hs : sym.PlacedIn t) : sym.PlacedIn t' := by
  cases sym with
  | cls | func | global => trivial
  | stack v =>
    obtain ⟨hlt, hplace⟩ := hs
    have hfunc : t'.func v.func = t.func v.func := by
      have hlt' : v.func < t'.funcs.size := Nat.lt_of_lt_of_le hlt h.funcs.length_le
      have heq := h.funcs.getElem (i := v.func) hlt
      simp only [Array.getElem_toList] at heq
      simp [func, Array.getD, hlt, hlt', heq]
    show v.func < t'.funcs.size ∧ _
    rw [hfunc]
    exact ⟨Nat.lt_of_lt_of_le hlt h.funcs.length_le, hplace⟩
  | attr a =>
    refine ⟨hs.1, hs.2.imp_right ?_⟩
    rintro ⟨c, hc, hlt⟩
    obtain ⟨c', hc', hle⟩ := h.attrs c hc
    exact ⟨c', hc', Nat.lt_of_lt_of_le hlt hle⟩

end Widens

/-- All that names stand for is placed. -/
def Placed (t : SymbolTable) : Prop :=
  ∀ ⦃scope : Nat⦄ ⦃name : String⦄ ⦃sym : Symbol⦄, t.entry? scope name = some sym → sym.PlacedIn t

namespace Placed

/-- A step that keeps the names. -/
theorem widen (h : t.Placed) (hscopes : t'.scopes = t.scopes) (hw : Widens t t') : t'.Placed := by
  intro scope name sym he
  rw [SymbolTable.entry?, hscopes] at he
  exact hw.placedIn (h he)

theorem define (h : t.Placed) (scope : Nat) (name : String) (hs : sym.PlacedIn t) :
    (t.define scope name sym).Placed := by
  intro scope' name' sym' he
  rcases entry?_define he with ⟨-, -, rfl⟩ | he
  · cases sym' <;> exact hs
  · have := h he
    cases sym' <;> exact this

/-- A step that adds a scope. -/
theorem push (h : t.Placed) {sc : Scope} (hscopes : t'.scopes = t.scopes.push sc) (hw : Widens t t')
    (hs : ∀ (name : String) (sym : Symbol), sc.entries[name]? = some sym → sym.PlacedIn t') :
    t'.Placed := by
  intro scope name sym he
  have he : SymbolTable.entry? { t with scopes := t.scopes.push sc } scope name = some sym := by
    rwa [SymbolTable.entry?, hscopes] at he
  rcases entry?_push he with he | he
  · exact hs name sym he
  · exact hw.placedIn (h he)

end Placed

/-! ## Entries of a new function -/

/-- The entries of function `id` while its locals are being declared: variables are at words below
`words` or at the locals so far. -/
def Placing (id words : Nat) (entries : Entries) (locals : List LocalVar) : Prop :=
  ∀ (name : String) (v : StackVar), entries[name]? = some (.stack v) → v.func = id ∧
    ((∃ k < words, v.offset = Frame.paramOffset k) ∨
      ∃ k < locals.length, v.offset = Frame.localOffset k)

/-- Nothing in the scope of a function stands for an attribute. -/
def NoAttrs (entries : Entries) : Prop :=
  ∀ (name : String) (a : Attribute), entries[name]? ≠ some (.attr a)

theorem NoAttrs.insert {entries : Entries} (h : NoAttrs entries) (name : String)
    (hs : ∀ a, sym ≠ .attr a) : NoAttrs (entries.insert name sym) := by
  intro n a he
  rw [Std.ExtTreeMap.getElem?_insert] at he
  split at he
  · exact hs a (Option.some.inj he)
  · exact h n a he

theorem Placing.insert {id words : Nat} {entries : Entries} {locals locals' : List LocalVar}
    (h : Placing id words entries locals) (hle : locals.length ≤ locals'.length) (name : String)
    (hs : ∀ v, sym = .stack v → v.func = id ∧
      ((∃ k < words, v.offset = Frame.paramOffset k) ∨
        ∃ k < locals'.length, v.offset = Frame.localOffset k)) :
    Placing id words (entries.insert name sym) locals' := by
  intro n v he
  rw [Std.ExtTreeMap.getElem?_insert] at he
  split at he
  · exact hs v (Option.some.inj he)
  · obtain ⟨hfunc, hword | ⟨k, hk, hoff⟩⟩ := h n v he
    · exact ⟨hfunc, .inl hword⟩
    · exact ⟨hfunc, .inr ⟨k, Nat.lt_of_lt_of_le hk hle, hoff⟩⟩

theorem paramEntries_placing (id depth : Nat) (params : List TypedVar) :
    Placing id ((if 0 < depth then 1 else 0) + params.length) (paramEntries id depth params ∅) [] ∧
      NoAttrs (paramEntries id depth params ∅) := by
  have hstart : Placing id ((if 0 < depth then 1 else 0) + params.length) ∅ [] ∧ NoAttrs ∅ :=
    ⟨fun n v h => by simp at h, fun n a h => by simp at h⟩
  unfold paramEntries
  refine List.foldlRecOn (motive := fun entries =>
    Placing id ((if 0 < depth then 1 else 0) + params.length) entries [] ∧ NoAttrs entries)
    _ _ hstart fun entries h pk hpk => ?_
  obtain ⟨p, k⟩ := pk
  have hk := (List.getElem?_eq_some_iff.mp (List.mem_zipIdx_iff_getElem?.mp hpk)).1
  refine ⟨h.1.insert le_rfl _ fun v hv => ?_, h.2.insert _ fun a ha => ?_⟩
  · cases hv
    exact ⟨rfl, .inl ⟨_, by omega, rfl⟩⟩
  · cases ha

theorem localEntries_placing {id words : Nat} {name : String} {decls : List Decl}
    {acc acc' : Entries × List LocalVar} (hacc : Placing id words acc.1 acc.2)
    (hattrs : NoAttrs acc.1) (hl : t.localEntries id name decls acc = .ok acc') :
    Placing id words acc'.1 acc'.2 ∧ NoAttrs acc'.1 := by
  refine localEntries_rec (P := fun entries locals => Placing id words entries locals ∧
    NoAttrs entries)
    ?_ ?_ ⟨hacc, hattrs⟩ hl
  · rintro _ locals v init ⟨h, hattrs⟩
    have hlt : locals.length < (locals ++ [(⟨v.name, v.type, init⟩ : LocalVar)]).length := by
      rw [List.length_append]
      exact Nat.lt_succ_self _
    refine ⟨Placing.insert h (Nat.le_of_lt hlt) v.name fun w hw => ?_,
      hattrs.insert v.name fun a ha => ?_⟩
    · -- The new variable takes the first place after the locals so far.
      cases hw
      exact ⟨rfl, .inr ⟨locals.length, hlt, rfl⟩⟩
    · cases ha
  · rintro _ _ g _ _ ⟨h, hattrs⟩
    refine ⟨Placing.insert h le_rfl g fun w hw => ?_, hattrs.insert g fun a ha => ?_⟩
    · cases hw
    · cases ha

/-! ## Tables -/

/-- The attribute that a class is given next. -/
def nextAttr (t : SymbolTable) (id : Nat) (var : TypedVar) (init : Literal) : Attribute where
  name := var.name
  type := var.type
  index := (t.cls id).attrs.length
  offset := Object.slotOffset (t.cls id).attrs.length
  init := init

/-- It has the place after the attributes so far. -/
theorem placedIn_nextAttr (t : SymbolTable) (id : Nat) (var : TypedVar) (init : Literal) :
    (Symbol.attr (t.nextAttr id var init)).PlacedIn
      { t with classes := t.classes.modify id fun c =>
        { c with attrs := c.attrs ++ [t.nextAttr id var init] } } := by
  refine ⟨rfl, ?_⟩
  by_cases hid : id < t.classes.size
  · right
    have hget : (t.classes.modify id fun c =>
        { c with attrs := c.attrs ++ [t.nextAttr id var init] }).toList[id]? =
          some { t.cls id with attrs := (t.cls id).attrs ++ [t.nextAttr id var init] } := by
      rw [Array.toList_modify, List.getElem?_modify]
      simp [cls, Array.getD, hid]
    refine ⟨_, List.mem_of_getElem? hget, ?_⟩
    simp [nextAttr]
  · -- There is no such class, and nothing to be added to.
    left
    simp [nextAttr, cls, Array.getD, hid]
    rfl

/-- **Variables and attributes are placed**, in the table of every program. -/
theorem Built.placed (h : Built t) : t.Placed := by
  induction h with
  | empty =>
    intro scope name sym he
    rcases entry?_push he with he | he
    · simp at he
    · simp [SymbolTable.entry?] at he
  | cls h name tag _ ih =>
    refine Placed.define ?_ _ _ ?_
    · refine ih.push rfl (.of_classes_push rfl rfl) fun name sym he => ?_
      simp at he
    · trivial
  | @constructor t h id _ ih =>
    refine ih.widen rfl (.of_classes_modify t id ?_)
    exact fun c => le_rfl
  | @attr t h id var init ih =>
    refine Placed.define ?_ _ _ ?_
    · refine ih.widen rfl (.of_classes_modify t id ?_)
      intro c
      rw [List.length_append]
      exact Nat.le_add_right _ _
    · exact placedIn_nextAttr t id var init
  | @method t h id name _ _ _ ih =>
    refine Placed.define ?_ _ _ ?_
    · refine ih.widen rfl (.of_classes_modify t id ?_)
      exact fun c => le_rfl
    · trivial
  | builtin h result _ ih =>
    refine Placed.define ?_ _ _ ?_
    · refine ih.push rfl (.of_funcs_push rfl rfl) fun name sym he => ?_
      simp at he
    · trivial
  | global h v init ih =>
    refine Placed.define ?_ _ _ ?_
    · exact ih.widen rfl (.of_classes_eq List.prefix_rfl rfl)
    · trivial
  | @func t t' h site _ _ params _ _ _ ho ih =>
    obtain ⟨entries, locals, hl, rfl⟩ := openFunction_eq_ok ho
    refine ih.push rfl (.of_funcs_push rfl rfl) fun name sym he => ?_
    obtain ⟨hparams, hattrs⟩ := paramEntries_placing t.funcs.size site.depth params
    obtain ⟨hstack, hattrs⟩ := localEntries_placing hparams hattrs hl
    cases sym with
    | cls | func | global => trivial
    | attr a => exact absurd he (hattrs name a)
    | stack v =>
      obtain ⟨hfunc, hplace⟩ := hstack name v he
      refine ⟨?_, ?_⟩
      · rw [hfunc, Array.size_push]
        exact Nat.lt_succ_self _
      · rw [hfunc, func_push rfl]
        refine ⟨rfl, hplace.imp_left ?_⟩
        rintro ⟨k, hk, hoff⟩
        refine ⟨k, ?_, hoff⟩
        simp only [FuncInfo.argCount, FuncInfo.hasStaticLink, decide_eq_true_eq]
        omega
  | name h hf name ih =>
    refine Placed.define ih _ _ ?_
    trivial

end SymbolTable

end ChocoRV
