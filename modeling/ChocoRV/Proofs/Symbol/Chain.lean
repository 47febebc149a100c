import Mathlib
import ChocoRV.Proofs.Symbol.Built

/-!
# Static chains

A function reaches the variables of the functions around it along a chain of links, one for each
function that encloses it. `SymbolTable.Chained` ties the three things together that have to agree
for this: the functions that declare each other, the scopes around each other and the depths. A name
seen from a function then stands for something that the function or one of its ancestors declares,
and the difference of the depths is the number of links to that ancestor.
-/

namespace ChocoRV

/-- What a name may stand for in the scope of `owner`: a variable in the frame of `owner` itself,
and of the functions that others declare only those of `owner`. -/
def Symbol.DeclaredBy (t : SymbolTable) (owner : Option Nat) : Symbol → Prop
  | .stack v => owner = some v.func
  | .func g => (t.func g).parent = none ∨ (t.func g).parent = owner
  | .cls _ | .attr _ | .global _ => True

namespace SymbolTable

/-- The function reached from function `f` by `n` links, each to the function that declares it. -/
def ancestor? (t : SymbolTable) : Nat → Nat → Option Nat
  | 0, f => some f
  | n + 1, f => (t.func f).parent.bind (t.ancestor? n)

/-- Parents, scopes and depths of functions agree. -/
structure Chained (t : SymbolTable) : Prop where
  parent_lt {f p : Nat} (hf : f < t.funcs.size) (hp : (t.func f).parent = some p) : p < f
  depth_eq {f : Nat} (hf : f < t.funcs.size) : (t.func f).depth = t.innerDepth (t.func f).parent
  scope_pos {f : Nat} (hf : f < t.funcs.size) : globalScope < (t.func f).scope
  scope_lt {f : Nat} (hf : f < t.funcs.size) : (t.func f).scope < t.scopes.size
  scope_inj {f g : Nat} (hf : f < t.funcs.size) (hg : g < t.funcs.size)
    (h : (t.func f).scope = (t.func g).scope) : f = g
  /-- The scope of a function hangs off the scope of what declares it. -/
  outer {f : Nat} (hf : f < t.funcs.size) :
    t.parent? (t.func f).scope = some (t.scopeOf (t.func f).parent)
  exists_root : globalScope < t.scopes.size
  root : t.parent? globalScope = none
  entries {owner : Option Nat} (ho : t.Owner owner) {name : String} {sym : Symbol}
    (he : t.entry? (t.scopeOf owner) name = some sym) : sym.DeclaredBy t owner

variable {t t' : SymbolTable}

/-! ## Scopes that are added or changed -/

theorem parent?_define (t : SymbolTable) (scope : Nat) (name : String) (sym : Symbol) (s : Nat) :
    (t.define scope name sym).parent? s = t.parent? s := by
  unfold define parent?
  rw [Array.getElem?_modify]
  split
  · cases t.scopes[s]? <;> rfl
  · rfl

theorem parent?_push_of_lt {sc : Scope} (ht' : t'.scopes = t.scopes.push sc) {s : Nat}
    (hs : s < t.scopes.size) : t'.parent? s = t.parent? s := by
  rw [parent?, parent?, ht', Array.getElem?_push_lt hs, Array.getElem?_eq_getElem hs]

theorem entry?_push_of_lt {sc : Scope} (ht' : t'.scopes = t.scopes.push sc) {s : Nat}
    (hs : s < t.scopes.size) (name : String) : t'.entry? s name = t.entry? s name := by
  rw [SymbolTable.entry?, SymbolTable.entry?, ht', Array.getElem?_push_lt hs,
    Array.getElem?_eq_getElem hs]

theorem getElem?_scopes_push {sc : Scope} (ht' : t'.scopes = t.scopes.push sc) :
    t'.scopes[t.scopes.size]? = some sc := by
  rw [ht', Array.getElem?_push_size]

variable {f : Nat} {entries : Entries}

namespace Chained

/-- Owners are told apart by their scopes. -/
theorem scopeOf_inj (h : t.Chained) {o o' : Option Nat} (ho : t.Owner o) (ho' : t.Owner o')
    (heq : t.scopeOf o = t.scopeOf o') : o = o' := by
  cases o with
  | none =>
    cases o' with
    | none => rfl
    | some g => exact absurd heq (Nat.ne_of_lt (h.scope_pos (owner_some.mp ho')))
  | some f =>
    cases o' with
    | none => exact absurd heq.symm (Nat.ne_of_lt (h.scope_pos (owner_some.mp ho)))
    | some g => exact congrArg some (h.scope_inj (owner_some.mp ho) (owner_some.mp ho') heq)

theorem scopeOf_lt (h : t.Chained) {o : Option Nat} (ho : t.Owner o) :
    t.scopeOf o < t.scopes.size := by
  cases o with
  | none => exact h.exists_root
  | some f => exact h.scope_lt (owner_some.mp ho)

/-- A function is declared by the top level or by a function of the table. -/
theorem owner_parent (h : t.Chained) (hf : f < t.funcs.size) : t.Owner (t.func f).parent :=
  fun _ hp => Nat.lt_trans (h.parent_lt hf hp) hf

/-- What classes hold does not matter. -/
theorem congr (h : t.Chained) (hfuncs : t'.funcs = t.funcs) (hscopes : t'.scopes = t.scopes) :
    t'.Chained := by
  obtain ⟨funcs, classes, scopes, globals⟩ := t
  obtain ⟨funcs', classes', scopes', globals'⟩ := t'
  cases hfuncs
  cases hscopes
  exact ⟨h.parent_lt, h.depth_eq, h.scope_pos, h.scope_lt, h.scope_inj, h.outer, h.exists_root,
    h.root, h.entries⟩

/-- A name may stand for what every owner of the scope may declare. -/
theorem define (h : t.Chained) {scope : Nat} {sym : Symbol}
    (hs : ∀ owner, t.Owner owner → t.scopeOf owner = scope → sym.DeclaredBy t owner)
    (name : String) : (t.define scope name sym).Chained where
  parent_lt := h.parent_lt
  depth_eq := h.depth_eq
  scope_pos := h.scope_pos
  scope_lt hf := by
    show _ < (t.scopes.modify _ _).size
    rw [Array.size_modify]
    exact h.scope_lt hf
  scope_inj := h.scope_inj
  outer hf := by
    rw [parent?_define]
    exact h.outer hf
  exists_root := by
    show _ < (t.scopes.modify _ _).size
    rw [Array.size_modify]
    exact h.exists_root
  root := by
    rw [parent?_define]
    exact h.root
  entries {owner} ho {name'} {sym'} he := by
    rcases entry?_define he with ⟨hscope, -, rfl⟩ | he
    · exact hs owner ho hscope
    · exact h.entries ho he

/-- A new scope that belongs to no function. -/
theorem addScope (h : t.Chained) (parent : Option Nat) : (t.addScope parent).Chained where
  parent_lt := h.parent_lt
  depth_eq := h.depth_eq
  scope_pos := h.scope_pos
  scope_lt hf := Nat.lt_of_lt_of_eq (Nat.lt_succ_of_lt (h.scope_lt hf)) (Array.size_push _).symm
  scope_inj := h.scope_inj
  outer hf := (parent?_push_of_lt rfl (h.scope_lt hf)).trans (h.outer hf)
  exists_root :=
    Nat.lt_of_lt_of_eq (Nat.lt_succ_of_lt h.exists_root) (Array.size_push _).symm
  root := (parent?_push_of_lt rfl h.exists_root).trans h.root
  entries {owner} ho {name} {sym} he := by
    have hold : t.entry? (t.scopeOf owner) name = some sym :=
      (entry?_push_of_lt rfl (h.scopeOf_lt ho) name).symm.trans he
    exact h.entries ho hold

/-- What the names of a new function stand for: variables in its frame, and global ones. -/
def Locals (f : Nat) (entries : Entries) : Prop :=
  ∀ (name : String) (sym : Symbol), entries[name]? = some sym →
    (∃ v : StackVar, sym = .stack v ∧ v.func = f) ∨ ∃ g, sym = .global g

/-- A new function, with a scope of its own that hangs off the scope of what declares it. -/
theorem push (h : t.Chained) (hc : t.Closed) {info : FuncInfo}
    (hfuncs : t'.funcs = t.funcs.push info)
    (hscopes : t'.scopes = t.scopes.push ⟨some (t.scopeOf info.parent), entries⟩)
    (hparent : t.Owner info.parent) (hdepth : info.depth = t.innerDepth info.parent)
    (hscope : info.scope = t.scopes.size) (hentries : Locals t.funcs.size entries) :
    t'.Chained := by
  have hsize : t'.funcs.size = t.funcs.size + 1 := by rw [hfuncs, Array.size_push]
  have hnew : t'.func t.funcs.size = info := func_push hfuncs
  have hold {f : Nat} (hf : f < t.funcs.size) : t'.func f = t.func f := by
    simp [func, hfuncs, Array.getD, hf, Nat.lt_succ_of_lt hf, Array.getElem_push_lt]
  have hscopeOf {o : Option Nat} (ho : t.Owner o) : t'.scopeOf o = t.scopeOf o := by
    cases o with
    | none => rfl
    | some f => exact congrArg FuncInfo.scope (hold (owner_some.mp ho))
  have hinner {o : Option Nat} (ho : t.Owner o) : t'.innerDepth o = t.innerDepth o := by
    cases o with
    | none => rfl
    | some f => exact congrArg (FuncInfo.depth · + 1) (hold (owner_some.mp ho))
  have hcases {f : Nat} (hf : f < t'.funcs.size) : f < t.funcs.size ∨ f = t.funcs.size := by omega
  have hroom : t'.scopes.size = t.scopes.size + 1 := by rw [hscopes, Array.size_push]
  refine ⟨?_, ?_, ?_, ?_, ?_, ?_, ?_, ?_, ?_⟩
  · intro f p hf hp
    rcases hcases hf with hf | rfl
    · rw [hold hf] at hp
      exact h.parent_lt hf hp
    · rw [hnew] at hp
      exact hparent p hp
  · intro f hf
    rcases hcases hf with hf | rfl
    · rw [hold hf, hinner (h.owner_parent hf)]
      exact h.depth_eq hf
    · rw [hnew, hinner hparent]
      exact hdepth
  · intro f hf
    rcases hcases hf with hf | rfl
    · rw [hold hf]
      exact h.scope_pos hf
    · rw [hnew, hscope]
      exact h.exists_root
  · intro f hf
    rcases hcases hf with hf | rfl
    · rw [hold hf, hroom]
      exact Nat.lt_succ_of_lt (h.scope_lt hf)
    · rw [hnew, hscope, hroom]
      exact Nat.lt_succ_self _
  · intro f g hf hg heq
    rcases hcases hf with hf | rfl
    · rcases hcases hg with hg | rfl
      · rw [hold hf, hold hg] at heq
        exact h.scope_inj hf hg heq
      · rw [hold hf, hnew, hscope] at heq
        exact absurd heq (Nat.ne_of_lt (h.scope_lt hf))
    · rcases hcases hg with hg | rfl
      · rw [hold hg, hnew, hscope] at heq
        exact absurd heq.symm (Nat.ne_of_lt (h.scope_lt hg))
      · rfl
  · intro f hf
    rcases hcases hf with hf | rfl
    · rw [hold hf, hscopeOf (h.owner_parent hf), parent?_push_of_lt hscopes (h.scope_lt hf)]
      exact h.outer hf
    · rw [hnew, hscopeOf hparent, hscope, parent?, getElem?_scopes_push hscopes]
      rfl
  · rw [hroom]
    exact Nat.lt_succ_of_lt h.exists_root
  · rw [parent?_push_of_lt hscopes h.exists_root]
    exact h.root
  · intro owner ho name sym he
    by_cases ho' : t.Owner owner
    · -- The scope was there before, and so was all that its names stand for.
      rw [hscopeOf ho', entry?_push_of_lt hscopes (h.scopeOf_lt ho')] at he
      have hd := h.entries ho' he
      cases sym with
      | func g =>
        have hg : g < t.funcs.size := hc.entries he
        show (t'.func g).parent = none ∨ (t'.func g).parent = owner
        rw [hold hg]
        exact hd
      | stack v => exact hd
      | cls | attr | global => trivial
    · -- The owner is the new function.
      obtain ⟨f, rfl⟩ : ∃ f, owner = some f := by
        cases owner with
        | none => exact absurd (owner_none t) ho'
        | some f => exact ⟨f, rfl⟩
      rcases hcases (owner_some.mp ho) with hf | rfl
      · exact absurd (owner_some.mpr hf) ho'
      · rw [scopeOf, hnew, hscope, SymbolTable.entry?, getElem?_scopes_push hscopes] at he
        rcases hentries name sym he with ⟨v, rfl, hv⟩ | ⟨g, rfl⟩
        · exact congrArg some hv.symm
        · trivial

end Chained

/-! ## Names of a new function -/

theorem Chained.Locals.insertStack (h : Chained.Locals f entries) (name : String) {v : StackVar}
    (hv : v.func = f) : Chained.Locals f (entries.insert name (.stack v)) := by
  intro name' sym he
  rw [Std.ExtTreeMap.getElem?_insert] at he
  split at he
  · exact .inl ⟨v, (Option.some.inj he).symm, hv⟩
  · exact h name' sym he

theorem Chained.Locals.insertGlobal (h : Chained.Locals f entries) (name : String) (g : GlobalVar) :
    Chained.Locals f (entries.insert name (.global g)) := by
  intro name' sym he
  rw [Std.ExtTreeMap.getElem?_insert] at he
  split at he
  · exact .inr ⟨g, (Option.some.inj he).symm⟩
  · exact h name' sym he

theorem locals_paramEntries (f depth : Nat) (params : List TypedVar) :
    Chained.Locals f (paramEntries f depth params ∅) := by
  unfold paramEntries
  refine List.foldlRecOn _ _ (fun name sym he => ?_) fun entries h p _ => h.insertStack _ rfl
  simp at he

variable {name : String}

theorem locals_localEntries {decls : List Decl} {acc acc' : Entries × List LocalVar}
    (hacc : Chained.Locals f acc.1) (hl : t.localEntries f name decls acc = .ok acc') :
    Chained.Locals f acc'.1 := by
  refine localEntries_rec (P := fun entries _ => Chained.Locals f entries) ?_ ?_ hacc hl
  · intro _ _ _ _ h
    exact h.insertStack _ rfl
  · intro _ _ _ _ _ h
    exact h.insertGlobal _ _

/-! ## Every table is chained -/

/-- Parents, scopes and depths agree in the table of every program. -/
theorem Built.chained (h : Built t) : t.Chained := by
  induction h with
  | empty =>
    refine ⟨fun hf => ?_, fun hf => ?_, fun hf => ?_, fun hf => ?_, fun hf => ?_, fun hf => ?_,
      Nat.one_pos, rfl, fun {owner} ho {name sym} he => ?_⟩
    · exact absurd hf (Nat.not_lt_zero _)
    · exact absurd hf (Nat.not_lt_zero _)
    · exact absurd hf (Nat.not_lt_zero _)
    · exact absurd hf (Nat.not_lt_zero _)
    · exact absurd hf (Nat.not_lt_zero _)
    · exact absurd hf (Nat.not_lt_zero _)
    · cases owner with
      | none => simp [scopeOf, globalScope, SymbolTable.addScope, SymbolTable.entry?] at he
      | some f => exact absurd (owner_some.mp ho) (Nat.not_lt_zero _)
  | @cls t _ name tag superClass _ ih =>
    refine Chained.define ?_ ?_ name
    · exact (ih.addScope _).congr rfl rfl
    · exact fun _ _ _ => trivial
  | constructor _ _ ih => exact ih.congr rfl rfl
  | @attr t _ id var init ih =>
    refine Chained.define ?_ ?_ _
    · exact ih.congr rfl rfl
    · exact fun _ _ _ => trivial
  | @method t _ id name func _ hp ih =>
    refine Chained.define ?_ ?_ name
    · exact ih.congr rfl rfl
    · exact fun _ _ _ => .inl hp
  | @builtin t h name result _ ih =>
    refine Chained.define (ih.push h.closed rfl rfl (owner_none t) rfl rfl ?_) ?_ name
    · intro name sym he
      simp at he
    · intro owner _ _
      refine .inl ?_
      show FuncInfo.parent (SymbolTable.func _ t.funcs.size) = none
      rw [func_push rfl]
  | @global t _ v init ih =>
    refine Chained.define ?_ ?_ _
    · exact ih.congr rfl rfl
    · exact fun _ _ _ => trivial
  | @func t t' h site hsite _ _ _ _ _ ho ih =>
    obtain ⟨entries, locals, hl, rfl⟩ := openFunction_eq_ok ho
    refine ih.push h.closed rfl ?_ hsite.parent hsite.depth rfl
      (locals_localEntries (locals_paramEntries _ _ _) hl)
    rw [← hsite.outer]
  | @name t _ func hf name ih =>
    refine ih.define ?_ name
    intro owner ho heq
    exact .inr (ih.scopeOf_inj ho (ih.owner_parent hf) heq).symm

/-! ## Looking names up -/

namespace Chained

/-- A function that is `n` links away is nested `n` levels less deep. -/
theorem depth_ancestor (h : t.Chained) {n g : Nat} (hf : f < t.funcs.size)
    (hg : t.ancestor? n f = some g) : (t.func f).depth = (t.func g).depth + n := by
  induction n generalizing f with
  | zero =>
    cases hg
    rfl
  | succ n ih =>
    obtain ⟨p, hp, hg⟩ := Option.bind_eq_some_iff.mp hg
    have hpf := h.owner_parent hf p hp
    rw [h.depth_eq hf, hp, innerDepth, ih hpf hg]
    omega

variable {owner : Option Nat}

/-- What a name stands for is declared by the function itself, by one of its ancestors or by the top
level. -/
theorem lookupWithin_declared (h : t.Chained) {fuel : Nat} {sym : Symbol} (ho : t.Owner owner)
    (hl : t.lookupWithin name fuel (t.scopeOf owner) = some sym) :
    ∃ owner', sym.DeclaredBy t owner' ∧ ∀ g, owner' = some g →
      ∃ f n, owner = some f ∧ t.ancestor? n f = some g := by
  induction fuel generalizing owner with
  | zero => cases hl
  | succ fuel ih =>
    rw [lookupWithin] at hl
    split at hl
    · rename_i sym' he
      cases hl
      exact ⟨owner, h.entries ho he, fun g hg => ⟨g, 0, hg, rfl⟩⟩
    · cases owner with
      | none =>
        rw [scopeOf, h.root] at hl
        cases hl
      | some f =>
        have hf := owner_some.mp ho
        rw [scopeOf, h.outer hf, Option.bind_some] at hl
        obtain ⟨owner', hd, hchain⟩ := ih (h.owner_parent hf) hl
        refine ⟨owner', hd, fun g hg => ?_⟩
        obtain ⟨p, n, hp, hn⟩ := hchain g hg
        refine ⟨f, n + 1, rfl, ?_⟩
        rw [ancestor?, hp]
        exact hn

theorem lookup?_declared (h : t.Chained) {sym : Symbol} (ho : t.Owner owner)
    (hl : t.lookup? (t.scopeOf owner) name = some sym) :
    ∃ owner', sym.DeclaredBy t owner' ∧ ∀ g, owner' = some g →
      ∃ f n, owner = some f ∧ t.ancestor? n f = some g :=
  h.lookupWithin_declared ho hl

/-- The owner of what a name stands for is as many links away as the depths differ. -/
theorem ancestor_of_links (h : t.Chained) {n g : Nat} (hf : f < t.funcs.size)
    (hn : t.ancestor? n f = some g) : (t.func g).depth ≤ (t.func f).depth ∧
      t.ancestor? ((t.func f).depth - (t.func g).depth) f = some g := by
  have hdepth := h.depth_ancestor hf hn
  have heq : (t.func f).depth - (t.func g).depth = n := by omega
  rw [heq]
  exact ⟨by omega, hn⟩

/-- A variable in a frame is seen from the function of that frame and from those inside it. -/
theorem ancestor_of_stack (h : t.Chained) {v : StackVar} (ho : t.Owner owner)
    (hl : t.lookup? (t.scopeOf owner) name = some (.stack v)) :
    ∃ f, owner = some f ∧ (t.func v.func).depth ≤ (t.func f).depth ∧
      t.ancestor? ((t.func f).depth - (t.func v.func).depth) f = some v.func := by
  obtain ⟨owner', hd, hchain⟩ := h.lookup?_declared ho hl
  obtain ⟨f, n, rfl, hn⟩ := hchain v.func hd
  exact ⟨f, rfl, h.ancestor_of_links (owner_some.mp ho) hn⟩

/-- A nested function is seen from the function that declares it and from those inside it. -/
theorem ancestor_of_nested (h : t.Chained) (hc : t.Closed) {g : Nat} (ho : t.Owner owner)
    (hl : t.lookup? (t.scopeOf owner) name = some (.func g)) (hdepth : 0 < (t.func g).depth) :
    ∃ f p, owner = some f ∧ (t.func g).parent = some p ∧ (t.func p).depth ≤ (t.func f).depth ∧
      t.ancestor? ((t.func f).depth - (t.func p).depth) f = some p := by
  have hg : g < t.funcs.size := hc.lookup? hl
  obtain ⟨owner', hd, hchain⟩ := h.lookup?_declared ho hl
  obtain ⟨p, hp⟩ : ∃ p, (t.func g).parent = some p := by
    cases hp : (t.func g).parent with
    | none =>
      rw [h.depth_eq hg, hp, innerDepth] at hdepth
      exact absurd hdepth (Nat.lt_irrefl 0)
    | some p => exact ⟨p, rfl⟩
  rcases hd with hd | hd
  · rw [hp] at hd
    exact nomatch hd
  · obtain ⟨f, n, rfl, hn⟩ := hchain p (hd.symm.trans hp)
    exact ⟨f, p, rfl, hp, h.ancestor_of_links (owner_some.mp ho) hn⟩

end Chained

end SymbolTable

end ChocoRV
