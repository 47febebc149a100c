import ChocoRV.Proofs.Draft.Lockstep

/-!
# Every form of code in both register modes

The drafts of all expressions, statements and functions go in lockstep in the two register modes, by
induction over the forms of code. The rules of `Draft.Lockstep` follow each draft step by step, so a
case below reads as the draft it is about.

## Main statements

* `Env.exprs_lockstep`, `Env.stmts_lockstep`, `Function.draft_lockstep`: the two runs of an
  expression, a statement and a function.
* `Function.body_eq`: in either mode the body of a function is the one that its draft over
  temporaries leads to. So what is proved of that draft holds of both modes.
-/

namespace ChocoRV

variable {regs : List PhysReg}

namespace Env

open Draft (Lockstep Given Same Granted Named)

variable {env : Env} {Γ : Given} {r r' i i' : Reg}

/-! ## Parts of expressions -/

theorem followLinks_lockstep : ∀ (n : Nat) (q : PhysReg),
    Lockstep regs Γ (env.followLinks n (.phys q)) (env.followLinks n (.phys q)) Named
  | 0, q => .pure fun _ _ _ => ⟨q, rfl, rfl⟩
  | n + 1, _ => .seq .note fun _ => followLinks_lockstep n .t0

theorem frameOf_lockstep (owner : Nat) (span : Span) :
    Lockstep regs Γ (env.frameOf owner span) (env.frameOf owner span) Named := by
  unfold frameOf
  dsimp only
  split
  · exact .ite (followLinks_lockstep _ _) (.fail _)
  · exact .fail _

theorem loadName_lockstep (name : String) (span : Span) :
    Lockstep regs Γ (env.loadName name span) (env.loadName name span) (Granted regs) := by
  refine .ofExcept fun sym _ => .temp (.take _ _) fun t p => ?_
  cases sym with
  | global g => exact .seq .emit fun _ => .seq .note fun _ => .deliver
  | stack v => exact .named (frameOf_lockstep _ _) fun q => .seq .note fun _ => .deliver
  | cls | func | attr => exact .fail _

theorem storeName_lockstep [Γ.Stands r r'] (name : String) (span : Span) :
    Lockstep regs Γ (env.storeName name r span) (env.storeName name r' span) Same := by
  refine .ofExcept fun sym _ => ?_
  cases sym with
  | global g => exact .seq .emit fun _ => .note
  | stack v => exact .named (frameOf_lockstep _ _) fun q => .note
  | cls | func | attr => exact .fail _

theorem noneCheck_lockstep [Γ.Stands r r'] :
    Lockstep regs Γ (env.noneCheck r) (env.noneCheck r') Same := .note

theorem boundsCheck_lockstep [Γ.Stands r r'] [Γ.Stands i i'] :
    Lockstep regs Γ (env.boundsCheck r i) (env.boundsCheck r' i') Same :=
  .seq .note fun _ => .emit

theorem elementAddr_lockstep [Γ.Stands r r'] [Γ.Stands i i'] :
    Lockstep regs Γ (elementAddr r i) (elementAddr r' i') Same :=
  .seq .emit fun _ => .emit

theorem charAt_lockstep {dst dst' : Reg} [Γ.Stands dst dst'] [Γ.Stands r r'] [Γ.Stands i i'] :
    Lockstep regs Γ (charAt dst r i) (charAt dst' r' i') Same :=
  .seq .emit fun _ => .seq .emit fun _ => .seq .emit fun _ => .emit

theorem coerce_lockstep [Γ.Stands r r'] (src dst : ValueType) :
    Lockstep regs Γ (env.coerce r src dst) (env.coerce r' src dst) Same := by
  unfold coerce
  refine .ite .skip (.ite ?_ ?_)
  · exact .seq (.label env) fun _ => .seq (.label env) fun _ => .seq .note fun _ =>
      .seq .emit fun _ => .seq .emit fun _ => .seq (.place _) fun _ => .seq .emit fun _ => .place _
  · exact .seq .note fun _ => .seq .emit fun _ => .seq .emit fun _ => .emit

/-! ## Operators -/

theorem callRoutine_lockstep [Γ.Stands r r'] [Γ.Stands i i'] (routine : Label) :
    Lockstep regs Γ (callRoutine routine r i) (callRoutine routine r' i') Same :=
  .seq .emit fun _ => .seq .emit fun _ => .seq .emit fun _ => .emit

theorem floorDiv_lockstep [Γ.Stands r r'] [Γ.Stands i i'] :
    Lockstep regs Γ (env.floorDiv r i) (env.floorDiv r' i') Same :=
  .seq .note fun _ => .seq .emit fun _ => .seq .emit fun _ => .seq .emit fun _ =>
    .seq .emit fun _ => .seq .emit fun _ => .seq .emit fun _ => .emit

theorem floorMod_lockstep [Γ.Stands r r'] [Γ.Stands i i'] :
    Lockstep regs Γ (env.floorMod r i) (env.floorMod r' i') Same :=
  .seq .note fun _ => .seq .emit fun _ => .seq .emit fun _ => .seq .emit fun _ =>
    .seq .emit fun _ => .seq .emit fun _ => .seq .emit fun _ => .emit

theorem applyOp_lockstep [Γ.Stands r r'] [Γ.Stands i i'] (info : ExprInfo) (op : BinOp)
    (left right : ValueType) : Lockstep regs Γ (env.applyOp info op left right r i)
      (env.applyOp info op left right r' i') Same := by
  cases op with
  | add =>
    refine .ite (callRoutine_lockstep _) (.ite ?_ .emit)
    exact .ofExcept fun _ _ => callRoutine_lockstep _
  | sub | mul | lt | gt => exact .emit
  | floorDiv => exact floorDiv_lockstep
  | mod => exact floorMod_lockstep
  | eq => exact .ite (callRoutine_lockstep _) (.seq .emit fun _ => .emit)
  | ne => exact .ite (.seq (callRoutine_lockstep _) fun _ => .emit) (.seq .emit fun _ => .emit)
  | is | le | ge => exact .seq .emit fun _ => .emit
  | and | or => exact .fail _

/-! ## Calls -/

theorem reserveArgs_lockstep (words : Nat) :
    Lockstep regs Γ (env.reserveArgs words) (env.reserveArgs words) Same := .ite .note .skip

theorem loadArgRegs_lockstep (words : Nat) :
    Lockstep regs Γ (loadArgRegs words) (loadArgRegs words) Same := .forM fun _ _ => .emit

theorem dispatch_lockstep (slot : Nat) (name : String) :
    Lockstep regs Γ (env.dispatch slot name) (env.dispatch slot name) Same :=
  .seq .emit fun _ => .seq .note fun _ => .emit

theorem finishCall_lockstep (words : Nat) (what : String) (span : Span) :
    Lockstep regs Γ (finishCall words what span) (finishCall words what span) (Granted regs) := by
  unfold finishCall
  refine .ite (.seq .emit fun _ => ?_) ?_
  all_goals exact .temp (.take _ _) fun _ _ => .seq .emit fun _ => .deliver

theorem passLink_lockstep (f : FuncInfo) (span : Span) :
    Lockstep regs Γ (env.passLink f span) (env.passLink f span) Same := by
  refine .ite ?_ .skip
  split
  · exact .named (frameOf_lockstep _ _) fun _ => .note
  · exact .fail _

theorem construct_lockstep (c : ClassInfo) (span : Span) :
    Lockstep regs Γ (env.construct c span) (env.construct c span) (Granted regs) := by
  refine .temp (.take _ _) fun t p => .ite (.seq .emit fun _ => .deliver) (.ite ?_ ?_)
  · exact .seq (.intern _) fun _ => .seq .emit fun _ => .deliver
  · cases c.method? "__init__" with
    | none => exact .fail _
    | some m =>
      exact .seq .note fun _ => .seq .emit fun _ => .seq .emit fun _ =>
        .seq (reserveArgs_lockstep 1) fun _ => .seq .emit fun _ =>
        .seq (dispatch_lockstep _ _) fun _ => .seq .emit fun _ => .deliver

/-! ## Expressions -/

/-- All expressions, the arguments of a call and the elements of a list display. -/
theorem exprs_lockstep (env : Env) (hregs : regs.Nodup) :
    (∀ e Γ, Lockstep regs Γ (env.expr e) (env.expr e) (Granted regs)) ∧
      (∀ dst type k es (Γ : Given) dst' [Γ.Stands dst dst'],
        Lockstep regs Γ (env.elements dst type k es) (env.elements dst' type k es) Same) ∧
      (∀ k ps es Γ, Lockstep regs Γ (env.args k ps es) (env.args k ps es) Same) := by
  refine Env.expr.mutual_induct env
    (fun e => ∀ Γ, Lockstep regs Γ (env.expr e) (env.expr e) (Granted regs))
    (fun dst type k es => ∀ (Γ : Given) dst' [Γ.Stands dst dst'],
      Lockstep regs Γ (env.elements dst type k es) (env.elements dst' type k es) Same)
    (fun k ps es => ∀ Γ, Lockstep regs Γ (env.args k ps es) (env.args k ps es) Same)
    ?int ?bool ?str ?none ?name ?unary ?and ?or ?binary ?cond ?call ?methodCall ?member ?index ?list
    ?elementsNil ?elementsCons ?argsCons ?argsNil
  case int | bool =>
    intro i v Γ
    simp only [Env.expr]
    exact .temp (.take _ _) fun t p => .seq .emit fun _ => .deliver
  case str =>
    intro i v Γ
    simp only [Env.expr]
    exact .temp (.take _ _) fun t p => .seq (.intern _) fun l => .seq .emit fun _ => .deliver
  case none =>
    intro i Γ
    simp only [Env.expr]
    exact .temp (.take _ _) fun t p => .seq .emit fun _ => .deliver
  case name =>
    intro i n Γ
    simp only [Env.expr]
    exact loadName_lockstep _ _
  case unary =>
    intro i op e ih Γ
    simp only [Env.expr]
    refine .temp (ih Γ) fun t p => ?_
    cases op with
    | neg | not => exact .seq .emit fun _ => .deliver
  case and | or =>
    intro i left right ihl ihr Γ
    simp only [Env.expr]
    exact .temp (ihl Γ) fun t p => .seq (.label env) fun done => .seq .note fun _ =>
      .temp (ihr _) fun u q => .seq .emit fun _ => .seq (.release hregs) fun _ =>
      .seq (.place done) fun _ => .deliver
  case binary =>
    intro i left op right hand hor ihl ihr Γ
    simp only [Env.expr]
    exact .temp (ihl Γ) fun t p => .temp (ihr _) fun u q =>
      .seq (applyOp_lockstep _ _ _ _) fun _ => .seq (.release hregs) fun _ => .deliver
  case cond =>
    intro i test onTrue onFalse iht ihy ihn Γ
    simp only [Env.expr]
    exact .temp (.take _ _) fun t p => .temp (iht _) fun c r => .seq (.label env) fun other =>
      .seq (.label env) fun done => .seq .emit fun _ => .seq (.release hregs) fun _ =>
      .temp (ihy _) fun u q => .seq (coerce_lockstep _ _) fun _ => .seq .emit fun _ =>
      .seq (.release hregs) fun _ => .seq .emit fun _ => .seq (.place other) fun _ =>
      .temp (ihn _) fun u q => .seq (coerce_lockstep _ _) fun _ => .seq .emit fun _ =>
      .seq (.release hregs) fun _ => .seq (.place done) fun _ => .deliver
  case call =>
    intro i function args ihargs Γ
    simp only [Env.expr]
    refine .ofExcept fun sym _ => ?_
    cases sym with
    | cls id => exact construct_lockstep _ _
    | func id =>
      exact .seq (reserveArgs_lockstep _) fun _ => .ofExcept fun _ _ => .seq (ihargs _ _) fun _ =>
        .seq (passLink_lockstep _ _) fun _ => .seq (loadArgRegs_lockstep _) fun _ =>
        .seq .emit fun _ => finishCall_lockstep _ _ _
    | global | stack | attr => exact .fail _
  case methodCall =>
    intro i object method args iho ihargs Γ
    simp only [Env.expr]
    exact .ofExcept fun _ _ => .seq (reserveArgs_lockstep _) fun _ => .temp (iho _) fun t p =>
      .seq noneCheck_lockstep fun _ => .seq .note fun _ => .seq (.release hregs) fun _ =>
      .ofExcept fun _ _ => .seq (ihargs _ _) fun _ =>
      .seq (loadArgRegs_lockstep _) fun _ => .seq (dispatch_lockstep _ _) fun _ =>
      finishCall_lockstep _ _ _
  case member =>
    intro i object attr ih Γ
    simp only [Env.expr]
    exact .temp (ih Γ) fun t p => .seq noneCheck_lockstep fun _ =>
      .ofExcept fun a _ => .seq .note fun _ => .deliver
  case index =>
    intro i seq idx ihs ihi Γ
    simp only [Env.expr]
    refine .temp (ihs Γ) fun t p => .ite ?_ ?_
    · exact .temp (ihi _) fun u q => .seq boundsCheck_lockstep fun _ =>
        .seq charAt_lockstep fun _ => .seq (.release hregs) fun _ => .deliver
    · exact .seq noneCheck_lockstep fun _ => .temp (ihi _) fun u q =>
        .seq boundsCheck_lockstep fun _ => .seq elementAddr_lockstep fun _ => .seq .emit fun _ =>
        .seq (.release hregs) fun _ => .deliver
  case list =>
    intro i elements ih Γ
    simp only [Env.expr]
    exact .seq .note fun _ => .seq .emit fun _ => .seq .emit fun _ => .seq .emit fun _ =>
      .temp (.take _ _) fun t p => .seq .emit fun _ => .seq (ih _ _ _) fun _ => .deliver
  case elementsNil =>
    intro dst type k Γ dst' hdst
    simp only [Env.elements]
    exact .skip
  case elementsCons =>
    intro dst type k e es ihe ihes Γ dst' hdst
    simp only [Env.elements]
    refine .temp (ihe Γ) fun u q => ?_
    cases type with
    | none => exact .seq .emit fun _ => .seq (.release hregs) fun _ => ihes _ _
    | some type =>
      exact .seq (coerce_lockstep _ _) fun _ => .seq .emit fun _ =>
        .seq (.release hregs) fun _ => ihes _ _
  case argsCons =>
    intro k p ps e es ihe ihes Γ
    simp only [Env.args]
    exact .temp (ihe Γ) fun t r => .seq (coerce_lockstep _ _) fun _ => .seq .note fun _ =>
      .seq (.release hregs) fun _ => ihes _
  case argsNil =>
    intro es k ps hne Γ
    rw [Env.args, Env.args]
    · exact .skip
    all_goals exact hne

/-! ## Statements -/

theorem store_lockstep (hregs : regs.Nodup) [Γ.Stands r r'] (target : Expr) :
    Lockstep regs Γ (env.store target r) (env.store target r') Same := by
  have expr := (exprs_lockstep env hregs).1
  cases target with
  | name i n => exact storeName_lockstep _ _
  | member i object attr =>
    exact .temp (expr _ _) fun u q => .seq noneCheck_lockstep fun _ =>
      .ofExcept fun a _ => .seq .note fun _ => .release hregs
  | index i seq idx =>
    exact .temp (expr _ _) fun u q => .seq noneCheck_lockstep fun _ =>
      .temp (expr _ _) fun v r => .seq boundsCheck_lockstep fun _ =>
      .seq elementAddr_lockstep fun _ => .seq .emit fun _ => .seq (.release hregs) fun _ =>
      .release hregs
  | _ => exact .fail _

theorem assignAll_lockstep (hregs : regs.Nodup) (type : ValueType) :
    ∀ (targets : List Expr) {Γ : Given} [Γ.Stands r r'],
      Lockstep regs Γ (env.assignAll type r targets) (env.assignAll type r' targets) Same
  | [], _, _ => .skip
  | target :: rest, _, _ => by
    refine .ofExcept fun dst _ => .ite ?_ ?_
    · exact .temp (.take _ _) fun u q => .seq .emit fun _ =>
        .seq (coerce_lockstep _ _) fun _ => .seq (store_lockstep hregs _) fun _ =>
        .seq (.release hregs) fun _ => assignAll_lockstep hregs type rest
    · exact .seq (store_lockstep hregs _) fun _ => assignAll_lockstep hregs type rest

/-- All statements. -/
theorem stmts_lockstep (env : Env) (hregs : regs.Nodup) :
    (∀ s Γ, Lockstep regs Γ (env.stmt s) (env.stmt s) Same) ∧
      (∀ ss Γ, Lockstep regs Γ (env.block ss) (env.block ss) Same) := by
  have expr := (exprs_lockstep env hregs).1
  refine @Env.stmt.mutual_induct .virtual env
    (fun s => ∀ Γ, Lockstep regs Γ (env.stmt s) (env.stmt s) Same)
    (fun ss => ∀ Γ, Lockstep regs Γ (env.block ss) (env.block ss) Same)
    ?expr ?assign ?ifElse ?whileLoop ?forEach ?ret ?retNone ?pass ?nil ?cons
  case expr =>
    intro span e Γ
    simp only [Env.stmt]
    exact .temp (expr e Γ) fun t p => .release hregs
  case assign =>
    intro span targets value Γ
    simp only [Env.stmt]
    exact .temp (expr value Γ) fun t p => .seq (assignAll_lockstep hregs _ _) fun _ =>
      .release hregs
  case ifElse =>
    intro span test onTrue onFalse ihy ihn Γ
    simp only [Env.stmt]
    exact .temp (expr test Γ) fun t p => .seq (.label env) fun other =>
      .seq (.label env) fun done => .seq .emit fun _ => .seq (.release hregs) fun _ =>
      .seq (ihy _) fun _ => .seq .emit fun _ => .seq (.place other) fun _ =>
      .seq (ihn _) fun _ => .place done
  case whileLoop =>
    intro span test body ih Γ
    simp only [Env.stmt]
    exact .seq (.label env) fun top => .seq (.label env) fun done => .seq (.place top) fun _ =>
      .temp (expr test _) fun t p => .seq .note fun _ => .seq (.release hregs) fun _ =>
      .seq (ih _) fun _ => .seq .emit fun _ => .place done
  case forEach =>
    intro span var seq body ih Γ
    simp only [Env.stmt]
    refine .ofExcept fun elem _ => .ofExcept fun type _ => .temp (expr seq Γ) fun t p =>
      .ite (.seq noneCheck_lockstep fun _ => ?_) ?_
    -- What comes after the check is the same whether or not there is one.
    all_goals
      refine .temp (.take _ _) fun u q => .seq .emit fun _ => .seq (.label env) fun top =>
        .seq (.label env) fun done => .seq (.place top) fun _ => .seq .note fun _ =>
        .seq .emit fun _ => .temp (.take _ _) fun v r =>
        .ite (.seq charAt_lockstep fun _ => ?_)
          (.seq elementAddr_lockstep fun _ => .seq .emit fun _ => ?_)
      all_goals
        exact .seq (coerce_lockstep _ _) fun _ => .seq (storeName_lockstep _ _) fun _ =>
          .seq (.release hregs) fun _ => .seq .emit fun _ => .seq (ih _) fun _ =>
          .seq .emit fun _ => .seq (.place done) fun _ => .seq (.release hregs) fun _ =>
          .release hregs
  case ret =>
    intro span e Γ
    simp only [Env.stmt]
    refine .temp (expr e Γ) fun t p => ?_
    cases env.func with
    | none => exact .seq .emit fun _ => .seq (.release hregs) fun _ => .note
    | some f =>
      exact .seq (coerce_lockstep _ _) fun _ => .seq .emit fun _ =>
        .seq (.release hregs) fun _ => .note
  case retNone =>
    intro span Γ
    simp only [Env.stmt]
    exact .seq .emit fun _ => .note
  case pass =>
    intro span Γ
    simp only [Env.stmt]
    exact .skip
  case nil =>
    intro Γ
    simp only [Env.block]
    exact .skip
  case cons =>
    intro s ss ihs ihss Γ
    simp only [Env.block]
    exact .seq (ihs Γ) fun _ => ihss Γ

end Env

theorem CodegenSettings.nodup_pool (settings : CodegenSettings) : settings.pool.Nodup :=
  (List.take_sublist _ _).nodup (by decide)

namespace Function

open Draft (Lockstep Same)

/-! ## Functions -/

theorem initLocals_lockstep {Γ : Draft.Given} (env : Env) (locals : List LocalVar) :
    Lockstep regs Γ (initLocals env locals) (initLocals env locals) Same := by
  have hload (lit : Literal) (type : ValueType) : Lockstep regs Γ (Draft.loadLiteral .t0 lit type)
      (Draft.loadLiteral .t0 lit type) Same := by
    cases lit with
    | int n => exact .ite .emit (.seq (.intern _) fun l => .emit)
    | bool b => exact .ite .emit .emit
    | str s => exact .seq (.intern _) fun l => .emit
    | none => exact .emit
  exact .forM fun v _ => .seq (hload _ _) fun _ => .note

theorem draft_lockstep (hregs : regs.Nodup) (env : Env) (f : FuncInfo) :
    Lockstep regs [] (draft env f) (draft env f) Same :=
  .seq (initLocals_lockstep env _) fun _ => .seq ((env.stmts_lockstep hregs).2 _ _) fun _ => .note

variable {code : ∀ mode, Draft mode Unit} {pool : ConstantPool}

/-- The two runs from the beginning of a function. -/
theorem follows (h : Lockstep regs [] (code .virtual) (code .physical) Same) (pool : ConstantPool) :
    Draft.Follows regs {} 0 Same (code .virtual (start pool)) (code .physical (start pool regs)) :=
  h (start pool) {} nofun

/-- The body of a function in either mode is that of its draft over temporaries. -/
theorem body_eq (settings : CodegenSettings) (frame : Frame)
    (h : Lockstep settings.pool [] (code .virtual) (code .physical) Same) (pool : ConstantPool) :
    body settings frame code pool =
      (Body.ofDraft settings.registers settings.pool frame.spillBase frame.name
        (code .virtual (start pool))).map (·, (code .virtual (start pool)).state.pool) := by
  unfold body Body.ofDraft
  cases settings.registers with
  | virtual => rfl
  | physical =>
    dsimp only
    cases follows h pool with
    | exhausted hrun hdirect =>
      rw [Body.ofDirect, hdirect, hrun]
      rfl
    | failed hrun hvalue hdirect =>
      rw [Body.ofDirect, hdirect, hrun, hvalue]
      rfl
    | done hrun hstate hvalue hdirect =>
      rw [Body.ofDirect, hdirect, hrun, hvalue, hstate]
      rfl

end Function

end ChocoRV
