import Mathlib
import ChocoRV.Compile
import ChocoRV.Proofs.Draft.BothModes
import ChocoRV.Proofs.Draft.Forms
import ChocoRV.Proofs.Draft.Trace

/-!
# The units of a program

The code of a program is that of its units, the top level and the functions that have a body. Each
unit is drafted, with the constants of the units before it; a body is made of the draft, and a frame
laid around the body. `lower_eq_ok` says this of a program that has been lowered.
-/

namespace ChocoRV

namespace Function

/-- The units of a program: the top level, then the functions that have a body. -/
def units (table : SymbolTable) : List (Option Nat) := none :: table.compiled.map some

/-- Where the code of a unit is drafted. -/
def envOf (table : SymbolTable) (comments : Bool) : Option Nat → Env
  | none => topLevelEnv table comments
  | some id => funcEnv table comments id

/-- The code of a unit, to be drafted in either register mode. -/
def code (table : SymbolTable) (comments : Bool) (body : List Stmt) :
    Option Nat → (mode : RegisterMode) → Draft mode Unit
  | none, _ => (topLevelEnv table comments).block body
  | some id, _ => draft (funcEnv table comments id) (table.func id)

/-- The draft of a unit over temporaries, begun with the constants so far. -/
abbrev draftOf (table : SymbolTable) (comments : Bool) (body : List Stmt) (pool : ConstantPool)
    (u : Option Nat) : Draft.Result Unit := code table comments body u .virtual (start pool)

/-- The label at which a unit is entered. -/
def entryOf (table : SymbolTable) : Option Nat → Label
  | none => .global main
  | some id => (table.func id).label

/-- The frame of a unit before its body is known. -/
def frameOf (table : SymbolTable) : Option Nat → Frame
  | none => .topLevel
  | some id => .ofFunc (table.func id)

/-- The frame of a unit once its body is known. -/
def frameWith (table : SymbolTable) (u : Option Nat) (b : Body) : Frame :=
  { frameOf table u with spillSlots := b.spillSlots, saved := b.saved }

/-- The code of a unit: its frame around its body. -/
def wrap (table : SymbolTable) (u : Option Nat) (b : Body) : List Item :=
  .label (entryOf table u) :: (frameWith table u b).prologue ++ b.items ++
    (frameWith table u b).epilogue (.nth (entryOf table u).name 0)

/-- Units with their drafts in order, each draft begun with the constants of the one before. -/
def draftsIn (mode : RegisterMode) (regs : List PhysReg) (table : SymbolTable) (comments : Bool)
    (body : List Stmt) :
    List (Option Nat) → ConstantPool → List (Option Nat × Draft.ResultOf mode Unit)
  | [], _ => []
  | u :: us, pool =>
    let d := code table comments body u mode (start pool regs)
    (u, d) :: draftsIn mode regs table comments body us d.state.pool

/-- Units with their drafts over temporaries. -/
abbrev drafts (table : SymbolTable) (comments : Bool) (body : List Stmt) :
    List (Option Nat) → ConstantPool → List (Option Nat × Draft.Result Unit) :=
  draftsIn .virtual [] table comments body

/-- The constants after drafts that began with `pool`. -/
def poolAfter {mode : RegisterMode} (pool : ConstantPool) :
    List (Option Nat × Draft.ResultOf mode Unit) → ConstantPool
  | [] => pool
  | (_, d) :: ds => poolAfter d.state.pool ds

variable {settings : CodegenSettings} {table : SymbolTable} {body : List Stmt}
  {pool pool' : ConstantPool} {items : List Item}

/-- The body of a unit over registers. -/
def bodyOf (settings : CodegenSettings) (table : SymbolTable) (u : Option Nat)
    (d : Draft.Result Unit) : Except CompileError Body :=
  Body.ofDraft settings.registers settings.pool (frameOf table u).spillBase (frameOf table u).name d

/-- The two runs of a unit go in lockstep. -/
theorem code_lockstep {regs : List PhysReg} (hregs : regs.Nodup) (comments : Bool)
    (body : List Stmt) : ∀ u : Option Nat, Draft.Lockstep regs []
      (code table comments body u .virtual) (code table comments body u .physical) Draft.Same
  | none => (Env.stmts_lockstep _ hregs).2 body []
  | some _ => draft_lockstep hregs _ _

/-- The body of a unit is made of its draft over temporaries. -/
theorem body_code (settings : CodegenSettings) (table : SymbolTable) (body : List Stmt)
    (pool : ConstantPool) (u : Option Nat) :
    Function.body settings (frameOf table u) (code table settings.comments body u) pool =
      (bodyOf settings table u (draftOf table settings.comments body pool u)).map
        (·, (draftOf table settings.comments body pool u).state.pool) :=
  body_eq settings _ (code_lockstep settings.nodup_pool _ body u) pool

/-- The code of the top level is its frame around its body. -/
theorem topLevel_eq (settings : CodegenSettings) (table : SymbolTable) (body : List Stmt)
    (pool : ConstantPool) :
    topLevel settings table body pool =
      (bodyOf settings table none (draftOf table settings.comments body pool none)).map
        fun b =>
          (wrap table none b, (draftOf table settings.comments body pool none).state.pool) := by
  show (Function.body settings (frameOf table none) (code table _ body none) pool >>= _) = _
  rw [body_code]
  cases bodyOf settings table none (draftOf table settings.comments body pool none) <;> rfl

/-- The code of a function is its frame around its body. -/
theorem func_eq (settings : CodegenSettings) (table : SymbolTable) (body : List Stmt) (id : Nat)
    (pool : ConstantPool) :
    let d := draftOf table settings.comments body pool (some id)
    func settings table id pool =
      (bodyOf settings table (some id) d).map fun b => (wrap table (some id) b, d.state.pool) := by
  intro d
  show (Function.body settings (frameOf table (some id)) (code table _ body (some id)) pool
    >>= _) = _
  rw [body_code]
  cases bodyOf settings table (some id) d <;> rfl

/-- Lowering functions gives the code of each around its body, and the constants after all
drafts. -/
theorem all_eq_ok (body : List Stmt) : ∀ {ids : List Nat} {pool : ConstantPool} {items : List Item},
    all settings table ids pool = .ok (items, pool') →
    let ds := drafts table settings.comments body (ids.map some) pool
    ∃ bs, List.Forall₂ (fun (p : Option Nat × Draft.Result Unit) b =>
        bodyOf settings table p.1 p.2 = .ok b) ds bs ∧
      items = (List.zipWith (fun p b => wrap table p.1 b) ds bs).flatten ∧ pool' = poolAfter pool ds
  | [], pool, items, h => by
    cases h
    exact ⟨[], .nil, rfl, rfl⟩
  | id :: ids, pool, items, h => by
    obtain ⟨⟨code, pool₁⟩, hcode, h⟩ := bind_eq_ok_iff.mp h
    obtain ⟨⟨more, pool₂⟩, hmore, h⟩ := bind_eq_ok_iff.mp h
    cases h
    rw [func_eq settings table body] at hcode
    obtain ⟨b, hb, hpair⟩ := map_eq_ok_iff.mp hcode
    cases hpair
    obtain ⟨bs, hbs, rfl, rfl⟩ := all_eq_ok body hmore
    exact ⟨b :: bs, .cons hb hbs, rfl, rfl⟩

/-- The top level is lowered if its body can be made. -/
theorem topLevel_of_body {b : Body}
    (hb : bodyOf settings table none (draftOf table settings.comments body pool none) = .ok b) :
    topLevel settings table body pool =
      .ok (wrap table none b, (draftOf table settings.comments body pool none).state.pool) := by
  rw [topLevel_eq, hb]
  rfl

/-- A function is lowered if its body can be made. -/
theorem func_of_body (body : List Stmt) {id : Nat} {b : Body}
    (hb : bodyOf settings table (some id) (draftOf table settings.comments body pool (some id)) =
      .ok b) :
    func settings table id pool =
      .ok (wrap table (some id) b,
        (draftOf table settings.comments body pool (some id)).state.pool) := by
  rw [func_eq settings table body, hb]
  rfl

/-- Functions whose bodies can be made are lowered. -/
theorem all_of_bodies (body : List Stmt) :
    ∀ {ids : List Nat} {pool : ConstantPool} {bs : List Body},
    List.Forall₂ (fun (p : Option Nat × Draft.Result Unit) b =>
      bodyOf settings table p.1 p.2 = .ok b)
      (drafts table settings.comments body (ids.map some) pool) bs →
    ∃ items pool', all settings table ids pool = .ok (items, pool')
  | [], pool, bs, _ => ⟨[], pool, rfl⟩
  | id :: ids, pool, bs, h => by
    obtain ⟨b, bs', hb, hbs, rfl⟩ := List.forall₂_cons_left_iff.mp h
    obtain ⟨more, pool₂, hmore⟩ := all_of_bodies body hbs
    refine ⟨wrap table (some id) b ++ more, pool₂, ?_⟩
    show (func settings table id pool >>= _) = _
    rw [func_of_body body hb]
    show (all settings table ids _ >>= _) = _
    rw [hmore]
    rfl

variable {comments : Bool}

theorem mem_drafts {ud : Option Nat × Draft.Result Unit} :
    ∀ {us : List (Option Nat)} {pool : ConstantPool}, ud ∈ drafts table comments body us pool →
      ∃ pool', ud.2 = draftOf table comments body pool' ud.1
  | [], _, h => nomatch h
  | u :: us, pool, h => by
    rcases List.mem_cons.mp h with rfl | h
    · exact ⟨pool, rfl⟩
    · exact mem_drafts h

/-- The draft of a unit keeps to the rules, and ends with nothing open. -/
theorem draftOf_traced {u : Option Nat} (h : (draftOf table comments body pool u).value = .ok ()) :
    let d := draftOf table comments body pool u
    Traced (envOf table comments u) False (.unit (envOf table comments u)) (start pool) d.events
      d.state (.unit (envOf table comments u)) := by
  cases u with
  | none =>
    exact ((Env.stmts_drawn _ False.elim).2 body False.elim _ Draft.Scene.forStmt_unit).traced_to
      (Draft.yields_of_value h)
  | some id =>
    exact (draft_drawn False.elim False.elim False.elim Draft.Scene.forStmt_unit).traced_to
      (Draft.yields_of_value h)

theorem map_fst_drafts : ∀ {us : List (Option Nat)} {pool : ConstantPool},
    (drafts table comments body us pool).map (·.1) = us
  | [], _ => rfl
  | u :: _, _ => congrArg (u :: ·) map_fst_drafts

/-- Constants only join the pool from one draft to the next. -/
theorem pool_extends_drafts {us : List (Option Nat)}
    (hok : ∀ ud ∈ drafts table comments body us pool, ud.2.value = .ok ()) :
    pool.entries <+: (poolAfter pool (drafts table comments body us pool)).entries ∧
      ∀ ud ∈ drafts table comments body us pool,
        ud.2.state.pool.entries <+:
          (poolAfter pool (drafts table comments body us pool)).entries := by
  induction us generalizing pool with
  | nil => exact ⟨List.prefix_rfl, fun ud h => nomatch h⟩
  | cons u us ih =>
    have hu : (draftOf table comments body pool u).value = .ok () := hok (u, _) List.mem_cons_self
    obtain ⟨hp, hrest⟩ := ih fun ud h => hok ud (List.mem_cons_of_mem _ h)
    refine ⟨(draftOf_traced hu).pool_extends.trans hp, fun ud h => ?_⟩
    rcases List.mem_cons.mp h with rfl | h
    · exact hp
    · exact hrest ud h

end Function

/-- Lower a program: its symbol table, the code of all its units, and the constants after them. -/
def lower (p : Program) (settings : CodegenSettings) :
    Except CompileError (SymbolTable × List Item × ConstantPool) := do
  let table ← SymbolTable.ofProgram p
  let (main, pool) ← Function.topLevel settings table p.body {}
  let (funcs, pool) ← Function.all settings table table.compiled pool
  return (table, main ++ funcs, pool)

/-- Compiling a program is lowering it and adding the support routines and the data. -/
theorem compile_eq_lower (p : Program) (settings : CodegenSettings) :
    compile p settings = (do
      let (table, text, pool) ← lower p settings
      let (routines, pool) ← Routine.all table pool
      return { text := text ++ routines, data := DataSegment.all table pool }) := by
  unfold compile lower
  cases SymbolTable.ofProgram p with
  | error e => rfl
  | ok table =>
    show (Function.topLevel settings table p.body {} >>= _) =
      (Function.topLevel settings table p.body {} >>= _) >>= _
    cases Function.topLevel settings table p.body {} with
    | error e => rfl
    | ok main =>
      obtain ⟨main, pool₀⟩ := main
      show (Function.all settings table table.compiled pool₀ >>= _) =
        (Function.all settings table table.compiled pool₀ >>= _) >>= _
      cases Function.all settings table table.compiled pool₀ with
      | error e => rfl
      | ok funcs => rfl

/-- What lowering a program has done: every unit has been drafted, the body of each has been made of
its draft, and the code is that of the frames around the bodies. -/
theorem lower_eq_ok {p : Program} {settings : CodegenSettings} {table : SymbolTable}
    {text : List Item} {pool : ConstantPool} (h : lower p settings = .ok (table, text, pool)) :
    let ds := Function.drafts table settings.comments p.body (Function.units table) {}
    SymbolTable.ofProgram p = .ok table ∧ pool = Function.poolAfter {} ds ∧
      ∃ bs, List.Forall₂ (fun (ud : Option Nat × Draft.Result Unit) b =>
          Function.bodyOf settings table ud.1 ud.2 = .ok b) ds bs ∧
        text = (List.zipWith (fun ud b => Function.wrap table ud.1 b) ds bs).flatten := by
  obtain ⟨table', ht, h⟩ := bind_eq_ok_iff.mp h
  obtain ⟨⟨main, pool₀⟩, hm, h⟩ := bind_eq_ok_iff.mp h
  obtain ⟨⟨funcs, pool₁⟩, hf, h⟩ := bind_eq_ok_iff.mp h
  cases h
  rw [Function.topLevel_eq] at hm
  obtain ⟨b, hb, hpair⟩ := map_eq_ok_iff.mp hm
  cases hpair
  obtain ⟨bs, hbs, rfl, rfl⟩ := Function.all_eq_ok p.body hf
  exact ⟨ht, rfl, b :: bs, .cons hb hbs, rfl⟩

/-- A program is lowered if the bodies of all its units can be made. -/
theorem lower_of_bodies {p : Program} {settings : CodegenSettings} {table : SymbolTable}
    {bs : List Body} (ht : SymbolTable.ofProgram p = .ok table)
    (hbs : List.Forall₂ (fun (ud : Option Nat × Draft.Result Unit) b =>
      Function.bodyOf settings table ud.1 ud.2 = .ok b)
      (Function.drafts table settings.comments p.body (Function.units table) {}) bs) :
    ∃ text pool, lower p settings = .ok (table, text, pool) := by
  obtain ⟨b, bs', hb, hrest, rfl⟩ := List.forall₂_cons_left_iff.mp hbs
  obtain ⟨funcs, pool, hfuncs⟩ := Function.all_of_bodies p.body hrest
  refine ⟨Function.wrap table none b ++ funcs, pool, ?_⟩
  show (SymbolTable.ofProgram p >>= _) = _
  rw [ht]
  show (Function.topLevel settings table p.body {} >>= _) = _
  rw [Function.topLevel_of_body hb]
  show (Function.all settings table table.compiled _ >>= _) = _
  rw [hfuncs]
  rfl

end ChocoRV
