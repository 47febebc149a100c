import Mathlib
import ChocoRV.Proofs.Symbol.Chain

/-!
# Where parameters are

A parameter is found at the word in which the caller passes it: its number, counted from the word
after the static link if there is one. `ParamsAt` says this of the names of one scope, and
`SymbolTable.Built.paramsAt` that it holds for every function of a program. A name that is declared
again stands for what the last declaration makes of it.
-/

namespace ChocoRV

/-- The number of words before the parameters: a nested function gets a static link. -/
def FuncInfo.firstWord (f : FuncInfo) : Nat := if f.hasStaticLink then 1 else 0

/-- Every parameter has an entry among `entries`, and an entry for a parameter is at the word of the
last parameter of that name. -/
structure ParamsAt (id first : Nat) (params : List TypedVar) (entries : String → Option Symbol) :
    Prop where
  known : ∀ p ∈ params, ∃ sym, entries p.name = some sym
  placed {name : String} {v : StackVar} (he : entries name = some (.stack v)) (hk :
    v.kind = .param) :
    ∃ i p, params[i]? = some p ∧ p.name = name ∧
      (∀ j q, i < j → params[j]? = some q → q.name ≠ name) ∧
      v = ⟨name, p.type, id, .param, Frame.paramOffset (first + i)⟩

/-- What stands for no parameter. -/
def Symbol.NoParam (sym : Symbol) : Prop := ∀ v, sym = .stack v → v.kind ≠ .param

namespace ParamsAt

variable {id first : Nat} {params : List TypedVar} {entries entries' : String → Option Symbol}

theorem empty (id first : Nat) : ParamsAt id first [] fun _ => none where
  known _ hp := absurd hp List.not_mem_nil
  placed he := nomatch he

/-- Names that are declared again. -/
theorem redeclare (h : ParamsAt id first params entries)
    (hnew : ∀ name, entries' name = entries name ∨ ∃ sym, entries' name = some sym ∧ sym.NoParam) :
    ParamsAt id first params entries' where
  known p hp := by
    rcases hnew p.name with hold | ⟨sym, hsym, -⟩
    · rw [hold]
      exact h.known p hp
    · exact ⟨sym, hsym⟩
  placed {name v} he hk := by
    rcases hnew name with hold | ⟨sym, hsym, hno⟩
    · rw [hold] at he
      exact h.placed he hk
    · rw [he] at hsym
      exact absurd hk (hno v (Option.some.inj hsym).symm)

/-- The variable of a parameter is at its word. -/
theorem offset_eq (h : ParamsAt id first params entries) {i : Nat} {p : TypedVar}
    (hi : params[i]? = some p) (hlast : ∀ j q, i < j → params[j]? = some q → q.name ≠ p.name)
    {v : StackVar} (he : entries p.name = some (.stack v)) (hk : v.kind = .param) :
    v.offset = Frame.paramOffset (first + i) := by
  obtain ⟨j, q, hj, hname, hlast', rfl⟩ := h.placed he hk
  rcases Nat.lt_trichotomy i j with hij | rfl | hij
  · exact absurd hname (hlast j q hij hj)
  · rfl
  · exact absurd rfl (hlast' i p hij hi)

/-- One more parameter. -/
theorem concat (h : ParamsAt id first params entries) {p : TypedVar}
    (hself : entries' p.name =
      some (.stack ⟨p.name, p.type, id, .param, Frame.paramOffset (first + params.length)⟩))
    (hother : ∀ name, name ≠ p.name → entries' name = entries name) :
    ParamsAt id first (params ++ [p]) entries' where
  known q hq := by
    by_cases hname : q.name = p.name
    · rw [hname]
      exact ⟨_, hself⟩
    · rw [hother _ hname]
      rcases List.mem_append.mp hq with hq | hq
      · exact h.known q hq
      · exact absurd (congrArg TypedVar.name (List.mem_singleton.mp hq)) hname
  placed {name v} he hk := by
    by_cases hname : name = p.name
    · -- The new parameter is the last one of its name.
      subst hname
      rw [hself] at he
      cases he
      refine ⟨params.length, p, List.getElem?_concat_length, rfl, fun j q hj hq => ?_, rfl⟩
      rw [List.getElem?_eq_none (by rw [List.length_append, List.length_singleton]; omega)] at hq
      cases hq
    · rw [hother _ hname] at he
      obtain ⟨i, q, hi, hq, hlast, hv⟩ := h.placed he hk
      have hlt := (List.getElem?_eq_some_iff.mp hi).1
      refine ⟨i, q, by rw [List.getElem?_append_left hlt, hi], hq, fun j r hj hr => ?_, hv⟩
      by_cases hjlen : j < params.length
      · rw [List.getElem?_append_left hjlen] at hr
        exact hlast j r hj hr
      · rw [List.getElem?_append_right (Nat.le_of_not_lt hjlen)] at hr
        rw [List.mem_singleton.mp (List.mem_of_getElem? hr)]
        exact Ne.symm hname

end ParamsAt

namespace SymbolTable

variable {t t' : SymbolTable}

/-! ## Entries of a new function -/

theorem paramsAt_paramEntries (id depth : Nat) (params : List TypedVar) :
    ParamsAt id (if 0 < depth then 1 else 0) params fun name =>
      (paramEntries id depth params ∅)[name]? := by
  induction params using List.reverseRecOn with
  | nil =>
    refine (ParamsAt.empty id _).redeclare fun name => .inl ?_
    exact Std.ExtTreeMap.getElem?_empty
  | append_singleton params p ih =>
    have hsplit : paramEntries id depth (params ++ [p]) ∅ =
        (paramEntries id depth params ∅).insert p.name (.stack ⟨p.name, p.type, id, .param,
          Frame.paramOffset ((if 0 < depth then 1 else 0) + params.length)⟩) := by
      rw [paramEntries, List.zipIdx_append, List.foldl_append, Nat.zero_add]
      rfl
    refine ih.concat ?_ fun name hname => ?_
    · rw [hsplit, Std.ExtTreeMap.getElem?_insert_self]
    · rw [hsplit, Std.ExtTreeMap.getElem?_insert, if_neg]
      exact fun e => hname (Std.LawfulEqCmp.eq_of_compare e).symm

/-- Declarations of local and global variables. -/
theorem paramsAt_localEntries {id first : Nat} {params : List TypedVar} {name : String}
    {decls : List Decl} {acc acc' : Entries × List LocalVar}
    (hacc : ParamsAt id first params fun n => acc.1[n]?)
    (hl : t.localEntries id name decls acc = .ok acc') :
    ParamsAt id first params fun n => acc'.1[n]? := by
  have hinsert {entries : Entries} (h : ParamsAt id first params fun n => entries[n]?) (x : String)
      {sym : Symbol} (hsym : sym.NoParam) :
      ParamsAt id first params fun n => (entries.insert x sym)[n]? := by
    refine h.redeclare fun n => ?_
    rw [Std.ExtTreeMap.getElem?_insert]
    split
    · exact .inr ⟨sym, rfl, hsym⟩
    · exact .inl rfl
  refine localEntries_rec (P := fun entries _ => ParamsAt id first params fun n => entries[n]?)
    ?_ ?_ hacc hl
  · intro _ _ _ _ h
    refine hinsert h _ fun w hw hk => ?_
    cases hw
    cases hk
  · intro _ _ _ _ _ h
    refine hinsert h _ fun w hw => ?_
    cases hw

/-! ## All functions -/

/-- The parameters of every function of the program are at their words. -/
def ParamsPlaced (t : SymbolTable) : Prop :=
  ∀ id < t.funcs.size, (t.func id).builtin = false →
    ParamsAt id (t.func id).firstWord (t.func id).params fun name =>
      t.entry? (t.func id).scope name

theorem entry?_define_cases (t : SymbolTable) (scope : Nat) (name : String) (sym : Symbol)
    (scope' : Nat) (name' : String) :
    SymbolTable.entry? (t.define scope name sym) scope' name' = t.entry? scope' name' ∨
      SymbolTable.entry? (t.define scope name sym) scope' name' = some sym := by
  unfold define entry?
  rw [Array.getElem?_modify]
  split
  · cases t.scopes[scope']? with
    | none => exact .inl rfl
    | some s =>
      simp only [Option.map_some, Option.bind_some]
      rw [Std.ExtTreeMap.getElem?_insert]
      split
      · exact .inr rfl
      · exact .inl rfl
  · exact .inl rfl

/-- A property of a function and of the names in its scope that holds once the function is entered
and does not depend on names that stand for no variable of a frame. -/
structure ScopeProperty (P : Nat → FuncInfo → (String → Option Symbol) → Prop) : Prop where
  opened {t : SymbolTable} {site : Site} {span : Span} {params : List TypedVar} {result : ValueType}
    {decls : List Decl} {body : List Stmt} {entries : Entries} {locals : List LocalVar}
    (hl : t.localEntries t.funcs.size site.name decls
      (paramEntries t.funcs.size site.depth params ∅, []) = .ok (entries, locals)) :
    P t.funcs.size
      { name := site.name, label := userLabel site.name, depth := site.depth, parent := site.parent,
        params, locals, result, body, scope := t.scopes.size, span, builtin := false }
      fun n => entries[n]?
  redeclare {id : Nat} {f : FuncInfo} {entries entries' : String → Option Symbol}
    (h : P id f entries)
    (hnew : ∀ name, entries' name = entries name ∨
      ∃ sym, entries' name = some sym ∧ ∀ v, sym ≠ .stack v) : P id f entries'

/-- The property holds for all functions that have a body. -/
def ScopesHave (P : Nat → FuncInfo → (String → Option Symbol) → Prop) (t : SymbolTable) : Prop :=
  ∀ id < t.funcs.size, (t.func id).builtin = false →
    P id (t.func id) fun name => t.entry? (t.func id).scope name

namespace ScopesHave

variable {P : Nat → FuncInfo → (String → Option Symbol) → Prop}

theorem define (hP : ScopeProperty P) (h : t.ScopesHave P) (scope : Nat) (name : String)
    {sym : Symbol} (hsym : ∀ v, sym ≠ .stack v) : (t.define scope name sym).ScopesHave P := by
  intro id hid hb
  refine hP.redeclare (h id hid hb) fun n => ?_
  rcases entry?_define_cases t scope name sym (t.func id).scope n with heq | heq
  · exact .inl heq
  · exact .inr ⟨sym, heq, hsym⟩

theorem congr (h : t.ScopesHave P) (hfuncs : t'.funcs = t.funcs) (hscopes : t'.scopes = t.scopes) :
    t'.ScopesHave P := by
  obtain ⟨funcs, classes, scopes, globals⟩ := t
  obtain ⟨funcs', classes', scopes', globals'⟩ := t'
  cases hfuncs
  cases hscopes
  exact h

theorem addScope (hP : ScopeProperty P) (h : t.ScopesHave P) (hc : t.Chained)
    (parent : Option Nat) :
    (t.addScope parent).ScopesHave P := by
  intro id hid hb
  refine hP.redeclare (h id hid hb) fun n => .inl ?_
  exact entry?_push_of_lt rfl (hc.scope_lt hid) n

/-- A new function with a scope of its own. -/
theorem push (hP : ScopeProperty P) (h : t.ScopesHave P) (hc : t.Chained) {info : FuncInfo}
    {sc : Scope} (hfuncs : t'.funcs = t.funcs.push info) (hscopes : t'.scopes = t.scopes.push sc)
    (hscope : info.scope = t.scopes.size)
    (hnew : info.builtin = false → P t.funcs.size info fun n => sc.entries[n]?) :
    t'.ScopesHave P := by
  intro id hid hb
  rw [hfuncs, Array.size_push] at hid
  by_cases hlt : id < t.funcs.size
  · have hold : t'.func id = t.func id := by
      simp [func, hfuncs, Array.getD, hlt, Nat.lt_succ_of_lt hlt, Array.getElem_push_lt]
    rw [hold] at hb ⊢
    refine hP.redeclare (h id hlt hb) fun n => .inl ?_
    exact entry?_push_of_lt hscopes (hc.scope_lt hlt) n
  · obtain rfl : id = t.funcs.size := by omega
    rw [func_push hfuncs] at hb ⊢
    refine hP.redeclare (hnew hb) fun n => .inl ?_
    rw [hscope, SymbolTable.entry?, getElem?_scopes_push hscopes]
    rfl

end ScopesHave

/-- What holds of a function once it is entered holds of it in the table of the program. -/
theorem Built.scopesHave {P : Nat → FuncInfo → (String → Option Symbol) → Prop}
    (hP : ScopeProperty P) (h : Built t) : t.ScopesHave P := by
  induction h with
  | empty => exact fun id hid => absurd hid (Nat.not_lt_zero _)
  | @cls t h name tag superClass _ ih =>
    exact ((ih.addScope hP h.chained _).congr rfl rfl).define hP _ _ fun v => nofun
  | constructor _ _ ih => exact ih.congr rfl rfl
  | attr _ id var init ih => exact (ih.congr rfl rfl).define hP _ _ fun v => nofun
  | method _ id name _ _ ih => exact (ih.congr rfl rfl).define hP _ _ fun v => nofun
  | @builtin t h name result _ ih =>
    refine ScopesHave.define hP (ih.push hP h.chained rfl rfl rfl ?_) _ _ fun v => nofun
    exact fun hb => nomatch hb
  | global _ v init ih => exact (ih.congr rfl rfl).define hP _ _ fun v => nofun
  | @func t t' h site _ _ _ _ _ _ ho ih =>
    obtain ⟨entries, locals, hl, rfl⟩ := openFunction_eq_ok ho
    exact ih.push hP h.chained rfl rfl rfl fun _ => hP.opened hl
  | name _ _ name ih => exact ih.define hP _ _ fun v => nofun

/-- **Where parameters are**, in the table of every program. -/
theorem Built.paramsPlaced (h : Built t) : t.ParamsPlaced := by
  refine h.scopesHave (P := fun id f entries => ParamsAt id f.firstWord f.params entries) ⟨?_, ?_⟩
  · intro t site _ params _ _ _ entries locals hl
    have hfirst : (if 0 < site.depth then 1 else 0) = if decide (0 < site.depth) then 1 else 0 := by
      simp
    have := paramsAt_localEntries (paramsAt_paramEntries t.funcs.size site.depth params) hl
    rw [hfirst] at this
    exact this
  · intro id f entries entries' hparams hnew
    refine hparams.redeclare fun name => (hnew name).imp_right ?_
    rintro ⟨sym, hsym, hno⟩
    exact ⟨sym, hsym, fun v hv => absurd hv (hno v)⟩

end SymbolTable

end ChocoRV
