import Mathlib
import ChocoRV.Proofs.Draft.Units

/-!
# Static chains reach the right activation

The result about static chains as a whole: what the symbol table of a program says about the owners
of names, the loads that code makes of it, and that no program fails for want of a frame.
-/

namespace ChocoRV

/-- What names stand for is found along the chain of functions that declare each other. -/
structure SymbolTable.StaticChains (t : SymbolTable) : Prop where
  /-- A variable in a frame belongs to the function itself, or to the ancestor that is as many links
  away as the depths differ. -/
  stack {f : Nat} {name : String} {v : StackVar} (hf : f < t.funcs.size)
    (hl : t.lookup? (t.func f).scope name = some (.stack v)) :
    (t.func v.func).depth ≤ (t.func f).depth ∧
      t.ancestor? ((t.func f).depth - (t.func v.func).depth) f = some v.func
  /-- A nested function is declared by the function itself or by such an ancestor. -/
  nested {f g : Nat} {name : String} (hf : f < t.funcs.size)
    (hl : t.lookup? (t.func f).scope name = some (.func g)) (hg : 0 < (t.func g).depth) :
    ∃ p, (t.func g).parent = some p ∧ (t.func p).depth ≤ (t.func f).depth ∧
      t.ancestor? ((t.func f).depth - (t.func p).depth) f = some p
  /-- The top level sees neither of them. -/
  global {name : String} {sym : Symbol} (hl : t.lookup? globalScope name = some sym) :
    (∀ v, sym ≠ .stack v) ∧ ∀ g, sym = .func g → (t.func g).depth = 0
  depth {f : Nat} (hf : f < t.funcs.size) :
    ((t.func f).depth = 0 ↔ (t.func f).parent = none) ∧
      ∀ p, (t.func f).parent = some p → (t.func f).depth = (t.func p).depth + 1

/-- Code loads exactly the static links that lead to the frames it needs. -/
structure Env.FollowsChains (env : Env) : Prop where
  /-- To the frame of a variable. -/
  stack {name : String} {span : Span} {v : StackVar} (hr : env.resolve name span = .ok (.stack v)) :
    ∃ f, env.func = some f ∧
      let hops := (env.table.func f).depth - (env.table.func v.func).depth
      env.table.ancestor? hops f = some v.func ∧
        ∀ {mode} span (s : Draft.StateOf mode), env.frameOf v.func span s =
          ⟨env.linkLoads hops, s, .ok (linkReg hops)⟩
  /-- To the frame that a nested function is given as its static link. -/
  nested {name : String} {span : Span} {g : Nat} (hr : env.resolve name span = .ok (.func g))
    (hg : 0 < (env.table.func g).depth) :
    ∃ f p, env.func = some f ∧ (env.table.func g).parent = some p ∧
      let hops := (env.table.func f).depth - (env.table.func p).depth
      env.table.ancestor? hops f = some p ∧
        ∀ {mode} span (s : Draft.StateOf mode), env.passLink (env.table.func g) span s =
          ⟨env.linkLoads hops ++ [.item (.instr ⟨.sw (linkReg hops) .sp 0,
            if env.comments then some ("static link for " ++ (env.table.func g).name) else none⟩)],
            s, .ok ()⟩

namespace SymbolTable

variable {t : SymbolTable}

theorem Chained.depth_eq_zero_iff (h : t.Chained) {f : Nat} (hf : f < t.funcs.size) :
    (t.func f).depth = 0 ↔ (t.func f).parent = none := by
  rw [h.depth_eq hf]
  cases (t.func f).parent <;> simp [innerDepth]

theorem Built.staticChains (h : t.Built) : t.StaticChains where
  stack {f name v} hf hl := by
    obtain ⟨f', ⟨⟩, hle, hanc⟩ := h.chained.ancestor_of_stack (owner_some.mpr hf) hl
    exact ⟨hle, hanc⟩
  nested {f g name} hf hl hg := by
    obtain ⟨f', p, ⟨⟩, hp, hle, hanc⟩ :=
      h.chained.ancestor_of_nested h.closed (owner_some.mpr hf) hl hg
    exact ⟨p, hp, hle, hanc⟩
  global {name sym} hl := by
    refine ⟨?_, ?_⟩
    · rintro v rfl
      obtain ⟨f, hf, -⟩ := h.chained.ancestor_of_stack (owner_none t) hl
      exact nomatch hf
    · rintro g rfl
      by_contra hne
      obtain ⟨f, p, hf, -⟩ := h.chained.ancestor_of_nested h.closed (owner_none t) hl
        (Nat.pos_of_ne_zero hne)
      exact nomatch hf
  depth {f} hf := by
    refine ⟨h.chained.depth_eq_zero_iff hf, fun p hp => ?_⟩
    rw [h.chained.depth_eq hf, hp, innerDepth]

end SymbolTable

theorem Env.InUnit.followsChains {env : Env} (h : env.InUnit) : env.FollowsChains where
  stack hr := h.frameOf_stack hr
  nested {name span g} hr hg := by
    obtain ⟨f, p, hf, hp, hanc, hframe⟩ := h.frameOf_parent hr hg
    refine ⟨f, p, hf, hp, hanc, fun span s => ?_⟩
    have hlink : (env.table.func g).hasStaticLink = true := decide_eq_true hg
    unfold Env.passLink
    rw [hlink, hp]
    show Draft.bind (env.frameOf p span) _ s = _
    simp only [Draft.bind, hframe]
    rfl

variable {t : SymbolTable}

/-- Every unit of a program looks names up from its own scope. -/
theorem Function.inUnit_envOf (h : t.Built) (comments : Bool) {u : Option Nat} (hu : t.Owner u) :
    (envOf t comments u).InUnit := by
  cases u with
  | none => exact ⟨h.chained, h.closed, hu, rfl⟩
  | some id => exact ⟨h.chained, h.closed, hu, rfl⟩

/-- The units of a program are the top level and functions of its table. -/
theorem Function.owner_of_mem_units {u : Option Nat} (hu : u ∈ units t) : t.Owner u := by
  rcases List.mem_cons.mp hu with rfl | hu
  · exact SymbolTable.owner_none t
  · obtain ⟨id, hid, rfl⟩ := List.mem_map.mp hu
    exact SymbolTable.owner_some.mpr (List.mem_range.mp (List.mem_of_mem_filter hid))

/-! ## Errors -/

theorem Supply.unbroken_run (pool : List PhysReg) (s : Supply) (evs : List Event) :
    Unbroken (run pool s evs) := by
  induction evs generalizing s with
  | nil => exact .ok _
  | cons e evs ih =>
    cases e with
    | item i => exact (ih s).bind fun _ _ => .ok _
    | release t => exact ih _
    | take t what span =>
      rw [run]
      split
      · exact ih _
      · rintro e ⟨⟩ ⟨⟩

theorem Scan.unbroken_spill (setup : Setup) (s : State) (v : Nat) : Unbroken (spill setup s v) := by
  unfold spill
  dsimp only
  split
  · rintro e ⟨⟩ ⟨⟩
  · exact .ok _

theorem Scan.unbroken_visit (setup : Setup) (s : State) (iv : Interval) :
    Unbroken (visit setup s iv) := by
  unfold visit
  dsimp only
  split
  · exact .ok _
  · split
    · split
      · exact (unbroken_spill _ _ _).bind fun _ _ => .ok _
      · exact unbroken_spill _ _ _
    · exact unbroken_spill _ _ _

theorem Scan.unbroken_run (setup : Setup) (intervals : List Interval) :
    Unbroken (run setup intervals) := by
  have hfold (s : State) : Unbroken (intervals.foldlM (visit setup) s) := by
    induction intervals generalizing s with
    | nil => exact .ok _
    | cons iv intervals ih =>
      rw [List.foldlM_cons]
      exact (unbroken_visit setup s iv).bind fun s' _ => ih s'
  exact hfold start

theorem Function.unbroken_bodyOf (settings : CodegenSettings) (u : Option Nat)
    {d : Draft.Result Unit} (hd : Unbroken d.value) : Unbroken (bodyOf settings t u d) := by
  unfold bodyOf Body.ofDraft
  split
  · exact (Supply.unbroken_run _ _ _).bind fun _ _ => hd.bind fun _ _ => .ok _
  · refine hd.bind fun _ _ => Unbroken.bind ?_ fun _ _ => .ok _
    exact (Scan.unbroken_run _ _).bind fun _ _ => .ok _

/-- A draft that keeps to the rules does not fail for want of a frame, in a unit of a program. -/
theorem Draft.Drawn.unbroken {α : Type} {env : Env} {E : Prop} {σ : Scene} {x : Draft .virtual α}
    {Q : α → Scene → Prop} (h : Drawn env E σ x Q) (hin : env.InUnit) (s : State) :
    Unbroken (x s).value := by
  induction h generalizing s with
  | @bind α β σ x f Q R hx _ ihx ihf =>
    show Unbroken (Draft.bind x f s).value
    cases hv : (x s).value with
    | error e =>
      simp only [Draft.bind, hv]
      rintro e' ⟨⟩
      exact ihx s e hv
    | ok a =>
      obtain ⟨σ', hQ, -⟩ := hx.traced (yields_of_value hv)
      simp only [Draft.bind, hv]
      exact ihf a σ' hQ _
  | fail h => exact h hin
  | @ofExcept _ _ x h =>
    cases x with
    | ok | error => exact h
  | drop _ _ ih => exact ih s
  | pure | record | take | release | label | place | intern => exact .ok _
  | loadLiteral => rw [loadLiteral_eq]; exact .ok _

/-- The draft of a unit does not fail for want of a frame. -/
theorem Function.unbroken_draftOf (h : t.Built) {comments : Bool} (body : List Stmt)
    {pool : ConstantPool} {u : Option Nat} (hu : t.Owner u) :
    Unbroken (draftOf t comments body pool u).value := by
  have hin := inUnit_envOf h comments hu
  cases u with
  | none =>
    exact ((Env.stmts_drawn _ False.elim).2 body False.elim _ Draft.Scene.forStmt_unit).unbroken
      hin _
  | some id =>
    exact (draft_drawn False.elim False.elim False.elim Draft.Scene.forStmt_unit).unbroken hin _

theorem Function.unbroken_all (h : t.Built) (settings : CodegenSettings) {ids : List Nat}
    (hids : ∀ id ∈ ids, id < t.funcs.size) (pool : ConstantPool) :
    Unbroken (all settings t ids pool) := by
  induction ids generalizing pool with
  | nil => exact .ok _
  | cons id ids ih =>
    rw [List.forall_mem_cons] at hids
    refine Unbroken.bind ?_ fun _ _ => (ih hids.2 _).bind fun _ _ => .ok _
    rw [func_eq settings t []]
    exact Unbroken.map (unbroken_bodyOf settings _
      (unbroken_draftOf h [] (SymbolTable.owner_some.mpr hids.1))) _

/-- No program fails to compile for want of a frame or of a parent. -/
theorem unbroken_compile (p : Program) (settings : CodegenSettings) :
    Unbroken (compile p settings) := by
  refine (SymbolTable.unbroken_ofProgram p).bind fun t ht => ?_
  have hb := SymbolTable.Built.ofProgram ht
  refine Unbroken.bind ?_ fun _ _ => Unbroken.bind ?_ fun _ _ => Unbroken.bind ?_ fun _ _ => .ok _
  · rw [Function.topLevel_eq]
    exact Unbroken.map (Function.unbroken_bodyOf settings _
      (Function.unbroken_draftOf hb p.body (SymbolTable.owner_none t))) _
  · refine Function.unbroken_all hb settings (fun id hid => ?_) _
    exact List.mem_range.mp (List.mem_of_mem_filter hid)
  · exact (t.unbroken_classNamed _).bind fun _ _ => (t.unbroken_attrOf _ _).bind fun _ _ => .ok _

/-! ## The result -/

/-- **Static chains reach the right activation.** In the table of a program, names stand for
variables and nested functions of the function that looks them up or of an ancestor as many links
away as the depths differ; the code of every unit loads exactly these links; and no program fails to
compile for want of a frame or of a parent. -/
theorem static_chains_reach_owners (p : Program) :
    (∀ t, SymbolTable.ofProgram p = .ok t →
      t.StaticChains ∧ ∀ comments, ∀ u ∈ Function.units t,
        (Function.envOf t comments u).FollowsChains) ∧
      ∀ settings e, compile p settings = .error e → ¬ e.BrokenChain := by
  refine ⟨fun t ht => ?_, unbroken_compile p⟩
  have hb := SymbolTable.Built.ofProgram ht
  refine ⟨hb.staticChains, fun comments u hu => ?_⟩
  exact (Function.inUnit_envOf hb comments (Function.owner_of_mem_units hu)).followsChains

/-- Functions in functions: `count` holds `n`, and `step` inside `turn` inside it adds to it. -/
def nestedCounter : Program :=
  let n : Expr := .name ⟨{}, .int⟩ "n"
  let call (f : String) : Stmt := .expr {} (.call ⟨{}, .none⟩ f [])
  let step : Decl := .func {} "step" [] .none [.nonlocal {} "n"]
    [.assign {} [n] (.binary ⟨{}, .int⟩ n .add (.int ⟨{}, .int⟩ 1))]
  let turn : Decl := .func {} "turn" [] .none [step] [call "step"]
  { decls := [.func {} "count" [] .int [.var {} ⟨"n", .int⟩ (.int 0), turn]
      [call "turn", .ret {} (some n)]]
    body := [.expr {} (.call ⟨{}, .int⟩ "count" [])] }

/-- `step` is the fifth function of the table, two links away from the owner of `n`. -/
theorem nestedCounter_static_chain :
    ∃ t v, SymbolTable.ofProgram nestedCounter = .ok t ∧
      t.lookup? (t.func 4).scope "n" = some (.stack v) ∧ (t.func v.func).name = "count" ∧
      t.ancestor? 2 4 = some v.func := by
  have hok : (SymbolTable.ofProgram nestedCounter).toOption.any (fun t =>
      t.funcs.size == 5 && (t.func 4).depth == 2 &&
        (t.lookup? (t.func 4).scope "n").any fun
          | .stack v => (t.func v.func).name == "count" && (t.func v.func).depth == 0
          | _ => false) = true := by decide +kernel
  obtain ⟨t, ht, hok⟩ := exists_ok_of_any hok
  simp only [Bool.and_eq_true, beq_iff_eq] at hok
  obtain ⟨⟨hsize, hdepth⟩, hl⟩ := hok
  cases hs : t.lookup? (t.func 4).scope "n" with
  | none =>
    rw [hs] at hl
    cases hl
  | some sym =>
    rw [hs] at hl
    cases sym with
    | stack v =>
      simp only [Option.any_some, Bool.and_eq_true, beq_iff_eq] at hl
      have hchain := (((static_chains_reach_owners nestedCounter).1 t ht).1.stack
        (by rw [hsize]; decide) hs).2
      rw [hdepth, hl.2] at hchain
      exact ⟨t, v, ht, hs, hl.1, hchain⟩
    | cls | func | attr | global => cases hl

end ChocoRV
