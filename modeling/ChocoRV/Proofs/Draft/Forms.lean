import Mathlib
import ChocoRV.Draft.Function
import ChocoRV.Proofs.Draft.Rules

/-!
# All forms of code keep to the rules

`Env.exprs_drawn`, `Env.stmts_drawn` and `Function.draft_drawn` go through all forms of code once.
An expression delivers its value in one more temporary, and everything else leaves what is open as
it was. The code of a statement that stands before a nested block is a draft of its own
(`Env.beforeTrue` and the like).
-/

namespace ChocoRV

namespace Draft

variable {α β γ : Type}

theorem pure_bind (a : α) (f : α → Draft .virtual β) : Pure.pure a >>= f = f a := by
  funext s
  rfl

theorem bind_assoc (x : Draft .virtual α) (f : α → Draft .virtual β) (g : β → Draft .virtual γ) :
    x >>= f >>= g = x >>= fun a => f a >>= g := by
  funext s
  show Draft.bind (Draft.bind x f) g s = Draft.bind x (fun a => Draft.bind (f a) g) s
  cases hx : (x s).value with
  | error e => simp only [Draft.bind, hx]
  | ok a =>
    cases hf : (f a (x s).state).value with
    | error e => simp only [Draft.bind, hx, hf]
    | ok b => simp only [Draft.bind, hx, hf, List.append_assoc]

end Draft

namespace Env

open Draft (Drawn Restores Delivers Scene Context emit place take release)

variable {env : Env} {E : Prop} {σ : Scene}

/-! ## Parts of expressions -/

/-- A walk along static links ends with `t0`, or where it began. -/
theorem followLinks_drawn : ∀ (n : Nat) {p : PhysReg}, p ∈ [PhysReg.fp, .t0] →
    Drawn env E σ (env.followLinks n (.phys p)) fun r σ' => (r = .fp ∨ r = .t0) ∧ σ' = σ
  | 0, p, hp => .pure _ ⟨by simpa using hp, rfl⟩
  | n + 1, p, hp => by
    rw [followLinks]
    refine .seq (.emit ?_) fun _ => followLinks_drawn n (by simp)
    rcases List.mem_pair.mp hp with rfl | rfl <;> simp

variable {span : Span}

theorem frameOf_drawn {owner : Nat} (h : env.InUnit → env.Sees owner) :
    Drawn env E σ (env.frameOf owner span) fun r σ' => (r = .fp ∨ r = .t0) ∧ σ' = σ := by
  unfold frameOf
  dsimp only
  split
  · rename_i depth hdepth
    split
    · exact followLinks_drawn _ (by simp)
    · rename_i hlt
      refine .fail fun hin => ?_
      obtain ⟨depth', hdepth', hle⟩ := h hin
      cases hdepth.symm.trans hdepth'
      exact absurd hle hlt
  · rename_i hdepth
    refine .fail fun hin => ?_
    obtain ⟨depth', hdepth', -⟩ := h hin
    cases hdepth.symm.trans hdepth'

/-- Go on with the frame of a function. -/
theorem frameOf_then {β : Type} {owner : Nat} {f : Reg → Draft .virtual β} {R : β → Scene → Prop}
    (h : env.InUnit → env.Sees owner)
    (hf : ∀ q : PhysReg, q.plain = true → q ≠ .sp → Drawn env E σ (f (.phys q)) R) :
    Drawn env E σ (env.frameOf owner span >>= f) R := by
  refine .bind (frameOf_drawn h) ?_
  rintro _ _ ⟨rfl | rfl, rfl⟩
  · exact hf .fp (by simp) (by simp)
  · exact hf .t0 (by simp) (by simp)

theorem loadName_drawn (ht : E → env.table.Compact) (name : String) (span : Span) :
    Delivers env E σ (env.loadName name span) := by
  unfold loadName
  refine .given (env.unbroken_resolve _ _) fun sym hsym => .temp (.take _ _) fun r => ?_
  cases sym with
  | global g =>
    exact .seq (.fill rfl (by simp [Reaches.global hsym]) rfl) fun _ =>
      .seq (.emit (by simp)) fun _ => .pure _ ⟨r, rfl, rfl⟩
  | stack v =>
    exact frameOf_then (·.sees_stack hsym) fun q hq _ =>
      .seq (.fill rfl (by simpa [hq] using fun h => short_of_resolve (ht h) hsym) rfl) fun _ =>
      .pure _ ⟨r, rfl, rfl⟩
  | cls _ | func _ | attr _ => exact .fail fun _ => .unsupported (by simp [← String.toList_inj])

variable {r : Reg}

theorem storeName_drawn (ht : E → env.table.Compact) (name : String) (span : Span)
    (hr : r.Readable σ.filled) : Restores env E σ (env.storeName name r span) := by
  unfold storeName
  refine .given (env.unbroken_resolve _ _) fun sym hsym => ?_
  cases sym with
  | global g => exact .seq (.emit (by simp [Reaches.global hsym])) fun _ => .emit (by simp [hr])
  | stack v =>
    exact frameOf_then (·.sees_stack hsym) fun q hq hsp =>
      .emit (by simpa [hr, hq, hsp] using fun h => short_of_resolve (ht h) hsym)
  | cls _ | func _ | attr _ => exact .fail fun _ => .unsupported (by simp [← String.toList_inj])

theorem noneCheck_drawn (hr : r.Readable σ.filled) : Restores env E σ (env.noneCheck r) :=
  .emit (by simp [hr, Context.meets_of_error])

theorem boundsCheck_drawn {seq idx : Reg} (hs : seq.Readable σ.filled)
    (hi : idx.Readable σ.filled) :
    Restores env E σ (env.boundsCheck seq idx) :=
  .seq (.emit (by simp [hs])) fun _ => .emit (by simp [hi, Context.meets_of_error])

theorem elementAddr_drawn {seq idx : Reg} (hs : seq.Readable σ.filled)
    (hi : idx.Readable σ.filled) :
    Restores env E σ (elementAddr seq idx) :=
  .seq (.emit (by simp [hi])) fun _ => .emit (by simp [hs])

variable {t : Nat}

/-- What reads the byte of a string and makes a string of it; keeping it is up to the last move. -/
theorem charAt_drawn {str idx : Reg} (ht : t ∈ σ.held) (hs : str.Readable σ.filled)
    (hi : idx.Readable σ.filled) {κ : Context} (hκ : σ.context.Becomes (some t) κ) :
    Drawn env E σ (charAt (.virt t) str idx) fun _ σ' => σ' = { σ with context := κ } :=
  .seq (.emit (by simp [hs, hi])) fun _ => .seq (.emit (by simp)) fun _ =>
    .seq (.emit (by simp [Reaches.routine])) fun _ => .record (.plain (by simp [ht]) hκ)

/-- Boxing replaces the value of a temporary. -/
theorem coerce_drawn (src dst : ValueType) (ht : t ∈ σ.filled) :
    Restores env E σ (env.coerce (.virt t) src dst) := by
  have hheld : t ∈ σ.held := σ.context.filled_subset_held ht
  unfold coerce
  refine .ite (.pure _ rfl) (.ite ?_ ?_)
  · refine .fresh σ.context fun falsy => .fresh σ.context fun done =>
      .seq (.emit ?_) fun _ => .seq (.emit ?_) fun _ => .seq (.emit ?_) fun _ =>
      .seq (.placeFirst rfl ?_ .same) fun _ => .seq (.emit ?_) fun _ =>
      .drop (.placeLast rfl ?_ .same) ?_
    all_goals simp [ht, hheld, Reaches.bool]
  · refine .seq (.emit ?_) fun _ => .seq (.emit ?_) fun _ => .seq (.emit ?_) fun _ => .emit ?_
    all_goals simp [ht, hheld, Reaches.routine, Reaches.prototype]

/-! ## Operators -/

theorem callRoutine_drawn {routine : Label} (ht : t ∈ σ.filled) (hr : r.Readable σ.filled)
    (h : env.Reaches routine) : Restores env E σ (callRoutine routine (.virt t) r) := by
  have hheld : t ∈ σ.held := σ.context.filled_subset_held ht
  unfold callRoutine
  refine .seq (.emit ?_) fun _ => .seq (.emit ?_) fun _ => .seq (.emit ?_) fun _ => .emit ?_
  all_goals simp [ht, hheld, hr, h]

theorem floorDiv_drawn (ht : t ∈ σ.filled) (hr : r.Readable σ.filled) :
    Restores env E σ (env.floorDiv (.virt t) r) := by
  have hheld : t ∈ σ.held := σ.context.filled_subset_held ht
  refine .seq (.emit ?_) fun _ => .seq (.emit ?_) fun _ => .seq (.emit ?_) fun _ =>
    .seq (.emit ?_) fun _ => .seq (.emit ?_) fun _ => .seq (.emit ?_) fun _ =>
    .seq (.emit ?_) fun _ => .emit ?_
  all_goals simp [ht, hheld, hr, Context.meets_of_error]

theorem floorMod_drawn (ht : t ∈ σ.filled) (hr : r.Readable σ.filled) :
    Restores env E σ (env.floorMod (.virt t) r) := by
  have hheld : t ∈ σ.held := σ.context.filled_subset_held ht
  refine .seq (.emit ?_) fun _ => .seq (.emit ?_) fun _ => .seq (.emit ?_) fun _ =>
    .seq (.emit ?_) fun _ => .seq (.emit ?_) fun _ => .seq (.emit ?_) fun _ =>
    .seq (.emit ?_) fun _ => .emit ?_
  all_goals simp [ht, hheld, hr, Context.meets_of_error]

theorem applyOp_drawn (info : ExprInfo) (op : BinOp) (left right : ValueType) (ht : t ∈ σ.filled)
    (hr : r.Readable σ.filled) : Restores env E σ (env.applyOp info op left right (.virt t) r) := by
  have hheld : t ∈ σ.held := σ.context.filled_subset_held ht
  have routine (name : Label) (h : name ∈ [Routine.alloc, Routine.alloc2, Routine.strChar,
      Routine.strcat, Routine.listconcat, Routine.streql]) :
      Restores env E σ (callRoutine name (.virt t) r) := callRoutine_drawn ht hr (.routine h)
  cases op with
  | add =>
    exact .ite (routine _ (by simp)) (.ite (.given (unbroken_checkConcat _ _ _ _) fun _ _ =>
      routine _ (by simp)) (.emit (by simp [ht, hheld, hr])))
  | sub | mul | lt | gt => exact .emit (by simp [ht, hheld, hr])
  | floorDiv => exact floorDiv_drawn ht hr
  | mod => exact floorMod_drawn ht hr
  | eq =>
    refine .ite (routine _ (by simp)) (.seq (.emit ?_) fun _ => .emit ?_)
    all_goals simp [ht, hheld, hr]
  | ne =>
    refine .ite (.seq (routine _ (by simp)) fun _ => .emit ?_) (.seq (.emit ?_) fun _ => .emit ?_)
    all_goals simp [ht, hheld, hr]
  | is | le | ge =>
    refine .seq (.emit ?_) fun _ => .emit ?_
    all_goals simp [ht, hheld, hr]
  | and | or => exact .fail fun _ => .unsupported (by simp [← String.toList_inj])

/-! ## Calls -/

theorem reserveArgs_drawn (words : Nat) :
    Drawn env E σ (env.reserveArgs words) fun _ σ' => σ' = σ.reserve words := by
  unfold reserveArgs
  split
  · rename_i h
    rw [Scene.reserve, Draft.reserved_of_pos h]
    exact .record (.reserve words)
  · rename_i h
    rw [Scene.reserve, Draft.reserved, if_neg h]
    exact .pure _ rfl

/-- Store a word of a call. -/
theorem passWord_drawn {words k : Nat} {rooms : List Nat} {comment : Option String}
    (h : σ.rooms = words :: rooms) (hk : k < words) (hr : r.Readable σ.filled) :
    Restores env E σ (Draft.record (.item (.instr ⟨.sw r .sp (Object.slotOffset k), comment⟩))) :=
  .record (.pass h hk hr)

theorem loadArgRegs_drawn (words : Nat) : Restores env E σ (loadArgRegs words) := by
  refine .forM fun ak hak => .emit ?_
  obtain ⟨a, k⟩ := ak
  have ha : a ∈ PhysReg.args := List.mem_of_mem_take (List.fst_mem_of_mem_zipIdx hak)
  have hplain : ∀ a ∈ PhysReg.args, (a.plain = true ∧ a ≠ .fp) ∧ a ≠ .sp := by decide
  have hk := (List.getElem?_eq_some_iff.mp (List.mem_zipIdx_iff_getElem?.mp hak)).1
  have hargs : PhysReg.args.length ≤ 8 := by decide
  rw [List.length_take] at hk
  simpa [hplain a ha] using fun _ => short_slotOffset (by omega)

theorem dispatch_drawn {slot : Nat} (h : E → slot ≤ 511) (name : String) :
    Restores env E σ (env.dispatch slot name) :=
  .seq (.emit (by simp)) fun _ => .seq (.emit (by simpa using fun hE => short_slotOffset (h hE)))
    fun _ => .emit (by simp)

theorem finishCall_drawn {words : Nat} (h : E → words ≤ 511) (what : String) (span : Span) :
    Drawn env E (σ.reserve words) (finishCall words what span)
      fun r σ' => ∃ t, r = .virt t ∧ σ' = σ.push t true := by
  have keep : Delivers env E σ (do
      let dst ← take what span
      emit (.mv dst .a0)
      return dst) :=
    .temp (.take _ _) fun dst => .seq (.fill rfl (by simp) rfl) fun _ => .pure _ ⟨dst, rfl, rfl⟩
  unfold finishCall
  split
  · rename_i hpos
    exact .seq (.record (.giveBack words (Draft.reserved_of_pos hpos) h)) fun _ => keep
  · rename_i hpos
    rw [Scene.reserve, Draft.reserved, if_neg hpos]
    exact keep

theorem passLink_drawn {name : String} {span' : Span} {id : Nat}
    (hres : env.resolve name span = .ok (.func id)) :
    Restores env E (σ.reserve (env.table.func id).argCount)
      (env.passLink (env.table.func id) span') := by
  unfold passLink
  split
  · rename_i hlink
    have hpos : 0 < (env.table.func id).argCount := by
      rw [FuncInfo.argCount, hlink]
      simp
    split
    · rename_i parent hparent
      refine frameOf_then (fun hin => ?_) fun q hq _ =>
        passWord_drawn (k := 0) (Draft.reserved_of_pos hpos) hpos (by simpa using hq)
      obtain ⟨p, hp, hsees⟩ := hin.sees_parent hres hlink
      cases hparent.symm.trans hp
      exact hsees
    · rename_i hparent
      refine .fail fun hin => ?_
      obtain ⟨p, hp, -⟩ := hin.sees_parent hres hlink
      cases hparent.symm.trans hp
  · exact .pure _ rfl

theorem construct_drawn (ht : E → env.table.Compact) {name : String} {id : Nat}
    (h : env.resolve name span = .ok (.cls id)) :
    Delivers env E σ (env.construct (env.table.cls id) span) := by
  unfold construct
  refine .temp (.take _ _) fun dst => .ite ?_ (.ite ?_ ?_)
  · exact .seq (.fill rfl (by simp) rfl) fun _ => .pure _ ⟨dst, rfl, rfl⟩
  · exact .constant fun l => .seq (.drop (.fill rfl (by simp) rfl) (by simp)) fun _ =>
      .pure _ ⟨dst, rfl, rfl⟩
  · split
    · exact .fail fun _ => .unresolved
    · rename_i slot m hm
      refine .seq (.emit ?_) fun _ => .seq (.emit ?_) fun _ => .seq (.fill rfl ?_ rfl) fun _ =>
        .seq (reserveArgs_drawn 1) fun _ =>
        .seq (passWord_drawn (k := 0) rfl Nat.one_pos (by simp)) fun _ =>
        .seq (dispatch_drawn (fun hE => ?_) _) fun _ =>
        .seq (.record (.giveBack 1 rfl fun _ => by omega)) fun _ =>
        .pure _ ⟨dst, rfl, rfl⟩
      case refine_4 =>
        have hslot := slot_lt_of_method? hm
        have hmethods := (ht hE).methods id
        omega
      all_goals simp [Reaches.routine, Reaches.cls h]

theorem checkArgCount_eq_ok {given expected : Nat} {u : Unit}
    (h : checkArgCount span given expected = .ok u) : expected = given := by
  unfold checkArgCount at h
  split at h
  · assumption
  · cases h

/-! ## Expressions -/

/-- An expression delivers its value. The elements of a list and the arguments of a call, which are
stored to the words of the call from word `k` on, leave what is open as it was. -/
theorem exprs_drawn (env : Env) (ht : E → env.table.Compact) :
    (∀ e : Expr, (E → e.displaysWithin 512) → ∀ σ, Delivers env E σ (env.expr e)) ∧
      (∀ (dst : Reg) (type : Option ValueType) (k : Nat) (es : List Expr),
        (E → k + es.length ≤ 512 ∧ Expr.allDisplaysWithin 512 es) → ∀ σ : Scene,
          dst.Readable σ.filled → dst ≠ .sp → Restores env E σ (env.elements dst type k es)) ∧
      (∀ (k : Nat) (ps : List TypedVar) (es : List Expr), (E → Expr.allDisplaysWithin 512 es) →
        ∀ (σ : Scene) (words : Nat), k + es.length ≤ words →
          Restores env E (σ.reserve words) (env.args k ps es)) := by
  refine Env.expr.mutual_induct env
    (fun e => (E → e.displaysWithin 512) → ∀ σ, Delivers env E σ (env.expr e))
    (fun dst type k es => (E → k + es.length ≤ 512 ∧ Expr.allDisplaysWithin 512 es) → ∀ σ : Scene,
      dst.Readable σ.filled → dst ≠ .sp → Restores env E σ (env.elements dst type k es))
    (fun k ps es => (E → Expr.allDisplaysWithin 512 es) → ∀ (σ : Scene) (words : Nat),
      k + es.length ≤ words → Restores env E (σ.reserve words) (env.args k ps es))
    ?int ?bool ?str ?none ?name ?unary ?and ?or ?binary ?cond ?call ?methodCall ?member ?index ?list
    ?elementsNil ?elementsCons ?argsCons ?argsNil
  case int | bool =>
    intro i v _ σ
    rw [Env.expr]
    exact .temp (.take _ _) fun r => .seq (.fill rfl (by simp) rfl) fun _ => .pure _ ⟨r, rfl, rfl⟩
  case str =>
    intro i v _ σ
    rw [Env.expr]
    exact .temp (.take _ _) fun r => .constant fun l =>
      .seq (.drop (.fill rfl (by simp) rfl) (by simp)) fun _ => .pure _ ⟨r, rfl, rfl⟩
  case none =>
    intro i _ σ
    rw [Env.expr]
    exact .temp (.take _ _) fun r => .seq (.fill rfl (by simp) rfl) fun _ => .pure _ ⟨r, rfl, rfl⟩
  case name =>
    intro i n _ σ
    rw [Env.expr]
    exact loadName_drawn ht n i.span
  case unary =>
    intro i op e ih hd σ
    rw [Env.expr]
    refine .temp (ih hd σ) fun r => ?_
    cases op with
    | neg | not => exact .seq (.emit (by simp)) fun _ => .pure _ ⟨r, rfl, rfl⟩
  case and | or =>
    intro i left right ihl ihr hd σ
    simp only [Expr.displaysWithin, Bool.and_eq_true] at hd
    rw [Env.expr]
    -- Both ways to the label leave the answer in the temporary of the left operand.
    exact .temp (ihl (fun h => (hd h).1) σ) fun l => .fresh (σ.context.push l true) fun done =>
      .seq (.emit (by simp)) fun _ => .temp (ihr (fun h => (hd h).2) _) fun r =>
      .seq (.emit (by simp)) fun _ => .seq (.release rfl) fun _ =>
      .seq (.drop (.placeLast rfl (by simp) .same) (by simp)) fun _ => .pure _ ⟨l, rfl, rfl⟩
  case binary =>
    intro i left op right hand hor ihl ihr hd σ
    simp only [Expr.displaysWithin, Bool.and_eq_true] at hd
    rw [Env.expr]
    · exact .temp (ihl (fun h => (hd h).1) σ) fun l => .temp (ihr (fun h => (hd h).2) _) fun r =>
        .seq (applyOp_drawn i op _ _ (by simp) (by simp)) fun _ => .seq (.release rfl) fun _ =>
        .pure _ ⟨l, rfl, rfl⟩
    · exact hand
    · exact hor
  case cond =>
    intro i test onTrue onFalse iht ihy ihn hd σ
    simp only [Expr.displaysWithin, Bool.and_eq_true] at hd
    rw [Env.expr]
    -- The answer's temporary is taken first and written last, on both ways.
    refine .temp (.take _ _) fun dst => .temp (iht (fun h => (hd h).1.1) _) fun c =>
      .fresh (σ.context.push dst false) fun other => .fresh (σ.context.push dst true) fun done =>
      .seq (.emit ?_) fun _ => .seq (.release rfl) fun _ =>
        .temp (ihy (fun h => (hd h).1.2) _) fun v =>
      .seq (coerce_drawn _ _ ?_) fun _ => .seq (.fillUnder rfl ?_ rfl) fun _ =>
      .seq (.release rfl) fun _ => .seq (.emit ?_) fun _ =>
      .seq (.placeFirst rfl (κ := σ.context.push dst false) ?_ ⟨rfl, ?_, rfl⟩) fun _ =>
      .temp (ihn (fun h => (hd h).2) _) fun w => .seq (coerce_drawn _ _ ?_) fun _ =>
      .seq (.fillUnder rfl ?_ rfl) fun _ => .seq (.release rfl) fun _ =>
      .seq (.drop (.placeLast rfl ?_ .same) ?_) fun _ => .pure _ ⟨dst, rfl, rfl⟩
    all_goals simp
  case call =>
    intro i function args ih hd σ
    simp only [Expr.displaysWithin] at hd
    rw [Env.expr]
    refine .given (env.unbroken_resolve _ _) fun sym hsym => ?_
    cases sym with
    | cls id => exact construct_drawn ht hsym
    | func id =>
      refine .seq (reserveArgs_drawn _) fun _ => .given (unbroken_checkArgCount _ _ _)
        fun _ hcount =>
        .seq (ih _ hd σ _ ?_) fun _ => .seq (passLink_drawn hsym) fun _ =>
        .seq (loadArgRegs_drawn _) fun _ => .seq (.emit (by simp [Reaches.func hsym])) fun _ =>
        finishCall_drawn (fun h => (ht h).args id) _ _
      have hlen := checkArgCount_eq_ok hcount
      rw [FuncInfo.argCount]
      omega
    | attr _ | global _ | stack _ =>
      exact .fail fun _ => .unsupported (by simp [← String.toList_inj])
  case methodCall =>
    intro i object method args iho iha hd σ
    simp only [Expr.displaysWithin, Bool.and_eq_true] at hd
    rw [Env.expr]
    refine .given (env.unbroken_methodOf _ _ _) fun found hfound => ?_
    obtain ⟨slot, params⟩ := found
    have hroom : Draft.reserved (1 + args.length) σ.rooms = (1 + args.length) :: σ.rooms :=
      Draft.reserved_of_pos (by omega)
    refine .seq (reserveArgs_drawn _) fun _ => .temp (iho (fun h => (hd h).1) _) fun o =>
      .seq (noneCheck_drawn (by simp)) fun _ =>
      .seq (passWord_drawn (k := 0) hroom (by omega) (by simp)) fun _ =>
        .seq (.release rfl) fun _ =>
      .given (unbroken_checkArgCount _ _ _) fun _ hcount =>
      .seq (iha params (fun h => (hd h).2) σ _ le_rfl) fun _ => .seq (loadArgRegs_drawn _) fun _ =>
      .seq (dispatch_drawn (fun h => (bounds_of_methodOf (ht h) hfound).1) _) fun _ =>
      finishCall_drawn (fun h => ?_) _ _
    have hparams := (bounds_of_methodOf (ht h) hfound).2
    rwa [checkArgCount_eq_ok hcount] at hparams
  case member =>
    intro i object attr ih hd σ
    rw [Env.expr]
    exact .temp (ih hd σ) fun o => .seq (noneCheck_drawn (by simp)) fun _ =>
      .given (env.unbroken_attrOf _ _ _) fun a ha =>
      .seq (.emit (by simpa using fun h => short_of_attrOf (ht h) ha)) fun _ =>
      .pure _ ⟨o, rfl, rfl⟩
  case index =>
    intro i seq idx ihs ihi hd σ
    simp only [Expr.displaysWithin, Bool.and_eq_true] at hd
    rw [Env.expr]
    refine .temp (ihs (fun h => (hd h).1) σ) fun s => .ite ?_ ?_
    · exact .temp (ihi (fun h => (hd h).2) _) fun k =>
        .seq (boundsCheck_drawn (by simp) (by simp)) fun _ =>
        .seq (charAt_drawn (by simp) (by simp) (by simp) .same) fun _ =>
          .seq (.release rfl) fun _ =>
        .pure _ ⟨s, rfl, rfl⟩
    · exact .seq (noneCheck_drawn (by simp)) fun _ => .temp (ihi (fun h => (hd h).2) _) fun k =>
        .seq (boundsCheck_drawn (by simp) (by simp)) fun _ =>
        .seq (elementAddr_drawn (by simp) (by simp)) fun _ => .seq (.emit (by simp)) fun _ =>
        .seq (.release rfl) fun _ => .pure _ ⟨s, rfl, rfl⟩
  case list =>
    intro i elements ih hd σ
    simp only [Expr.displaysWithin, Bool.and_eq_true, decide_eq_true_eq] at hd
    rw [Env.expr]
    refine .seq (.emit ?_) fun _ => .seq (.emit ?_) fun _ => .seq (.emit ?_) fun _ =>
      .seq (.emit ?_) fun _ => .temp (.take _ _) fun dst => .seq (.fill rfl ?_ rfl) fun _ =>
      .seq (ih _ (fun h => ⟨by have := (hd h).1; omega, (hd h).2⟩) _ ?_ ?_) fun _ =>
      .pure _ ⟨dst, rfl, rfl⟩
    all_goals simp [Reaches.prototype, Reaches.routine]
  case elementsNil =>
    intro dst type k _ σ _ _
    rw [Env.elements]
    exact .pure _ rfl
  case elementsCons =>
    intro dst type k e es ihe ihes hd σ hr hsp
    simp only [Expr.allDisplaysWithin, Bool.and_eq_true, List.length_cons] at hd
    rw [Env.elements]
    refine .temp (ihe (fun h => (hd h).2.1) σ) fun r => ?_
    have store : Drawn env E (σ.push r true) (do
        emit (.sw (.virt r) dst (Object.slotOffset k))
        release (.virt r)
        env.elements dst type (k + 1) es) fun _ σ' => σ' = σ := by
      refine .seq (.emit ?_) fun _ => .seq (.release rfl) fun _ =>
        ihes (fun h => ⟨by have := (hd h).1; omega, (hd h).2.2⟩) σ hr hsp
      simpa [hr.push, hsp] using fun h => short_slotOffset (by have := (hd h).1; omega)
    cases type with
    | none => exact store
    | some t => exact .seq (coerce_drawn _ _ (by simp)) fun _ => store
  case argsCons =>
    intro k p ps e es ihe ihes hd σ words hk
    simp only [Expr.allDisplaysWithin, Bool.and_eq_true] at hd
    rw [List.length_cons] at hk
    rw [Env.args]
    have hroom : Draft.reserved words σ.rooms = words :: σ.rooms :=
      Draft.reserved_of_pos (by omega)
    exact .temp (ihe (fun h => (hd h).1) _) fun r => .seq (coerce_drawn _ _ (by simp)) fun _ =>
      .seq (passWord_drawn hroom (by omega) (by simp)) fun _ => .seq (.release rfl) fun _ =>
      ihes (fun h => (hd h).2) σ words (by omega)
  case argsNil =>
    intro es k ps hne _ σ words hk
    rw [Env.args]
    · exact .pure _ rfl
    · exact hne

theorem store_drawn (ht : E → env.table.Compact) {target : Expr}
    (hd : E → target.displaysWithin 512) (hr : r.Readable σ.filled) :
    Restores env E σ (env.store target r) := by
  have expr := (exprs_drawn env ht).1
  cases target with
  | name i n => exact storeName_drawn ht _ _ hr
  | member i object attr =>
    exact .temp (expr object hd σ) fun o => .seq (noneCheck_drawn (by simp)) fun _ =>
      .given (env.unbroken_attrOf _ _ _) fun a ha =>
      .seq (.emit (by simpa [hr.push] using fun h => short_of_attrOf (ht h) ha)) fun _ =>
        .release rfl
  | index i seq idx =>
    simp only [Expr.displaysWithin, Bool.and_eq_true] at hd
    refine .temp (expr seq (fun h => (hd h).1) σ) fun s => .seq (noneCheck_drawn ?_) fun _ =>
      .temp (expr idx (fun h => (hd h).2) _) fun k => .seq (boundsCheck_drawn ?_ ?_) fun _ =>
      .seq (elementAddr_drawn ?_ ?_) fun _ => .seq (.emit ?_) fun _ => .seq (.release rfl) fun _ =>
      .release rfl
    all_goals simp [hr.push.push]
  | int | bool | str | none | binary | unary | cond | call | methodCall | list =>
    exact .fail fun _ => .unsupported (by simp [← String.toList_inj])

theorem assignAll_drawn (ht : E → env.table.Compact) (type : ValueType) (hr : r.Readable σ.filled) :
    ∀ {targets : List Expr},
      (E → Expr.allDisplaysWithin 512 targets) → Restores env E σ (env.assignAll type r targets)
  | [], _ => .pure _ rfl
  | target :: rest, hd => by
    simp only [Expr.allDisplaysWithin, Bool.and_eq_true] at hd
    rw [assignAll]
    refine .given (env.unbroken_targetType _) fun dst _ => .ite ?_ ?_
    · exact .temp (.take _ _) fun boxed => .seq (.fill rfl (by simp [hr]) rfl) fun _ =>
        .seq (coerce_drawn _ _ (by simp)) fun _ =>
        .seq (store_drawn ht (fun h => (hd h).1) (by simp)) fun _ => .seq (.release rfl) fun _ =>
        assignAll_drawn ht type hr fun h => (hd h).2
    · exact .seq (store_drawn ht (fun h => (hd h).1) hr) fun _ =>
        assignAll_drawn ht type hr fun h => (hd h).2

/-! ## What stands before a nested block -/

/-- The code of a choice before its first block, with the labels of the second block and of the
end. -/
def beforeTrue (env : Env) (test : Expr) : Draft .virtual (Label × Label) := do
  let c ← env.expr test
  let other ← env.label
  let done ← env.label
  emit (.beqz c other)
  release c
  return (other, done)

/-- The code of a choice before its second block, with the label of the end. -/
def beforeFalse (env : Env) (test : Expr) (onTrue : List Stmt) : Draft .virtual Label := do
  let l ← env.beforeTrue test
  env.block onTrue
  emit (.jump l.2)
  place l.1
  return l.2

/-- The code of a loop before its block, with the labels of the test and of the end. -/
def beforeBody (env : Env) (test : Expr) : Draft .virtual (Label × Label) := do
  let top ← env.label
  let done ← env.label
  place top
  let c ← env.expr test
  env.note (.beqz c done) "while"
  release c
  return (top, done)

/-- The code of a loop over a sequence before its block, with what is needed after it. -/
def beforeTurn (env : Env) (span : Span) (var : String) (seq : Expr) :
    Draft .virtual ((Reg × Reg) × Label × Label) := do
  let elem ← Draft.ofExcept (elementType span seq.type)
  let type ← Draft.ofExcept (env.nameType var span)
  let s ← env.expr seq
  if !seq.type.isStr then env.noneCheck s
  let idx ← take "ForStmt" span
  emit (.li idx 0)
  let top ← env.label
  let done ← env.label
  place top
  env.note (.lw .t0 s Object.sizeOffset) "length"
  emit (.bge idx .t0 done)
  let item ← take "ForStmt" span
  if seq.type.isStr then charAt item s idx
  else
    elementAddr s idx
    emit (.lw item .t0 0)
  env.coerce item elem type
  env.storeName var item span
  release item
  emit (.addi idx idx 1)
  return ((s, idx), top, done)

theorem stmt_ifElse (env : Env) (span : Span) (test : Expr) (onTrue onFalse : List Stmt) :
    env.stmt (.ifElse span test onTrue onFalse) = (do
      let l ← env.beforeTrue test
      env.block onTrue
      emit (.jump l.2)
      place l.1
      env.block onFalse
      place l.2) := by
  rw [Env.stmt]
  simp only [beforeTrue, Draft.bind_assoc, Draft.pure_bind]

theorem stmt_ifElse_second (env : Env) (span : Span) (test : Expr) (onTrue onFalse : List Stmt) :
    env.stmt (.ifElse span test onTrue onFalse) = (do
      let done ← env.beforeFalse test onTrue
      env.block onFalse
      place done) := by
  rw [stmt_ifElse]
  simp only [beforeFalse, Draft.bind_assoc, Draft.pure_bind]

theorem stmt_whileLoop (env : Env) (span : Span) (test : Expr) (body : List Stmt) :
    env.stmt (.whileLoop span test body) = (do
      let l ← env.beforeBody test
      env.block body
      emit (.jump l.1)
      place l.2) := by
  rw [Env.stmt]
  simp only [beforeBody, Draft.bind_assoc, Draft.pure_bind]

theorem stmt_forEach (env : Env) (span : Span) (var : String) (seq : Expr) (body : List Stmt) :
    env.stmt (.forEach span var seq body) = (do
      let l ← env.beforeTurn span var seq
      env.block body
      emit (.jump l.2.1)
      place l.2.2
      release l.1.2
      release l.1.1) := by
  rw [Env.stmt]
  cases hstr : seq.type.isStr <;>
    simp [beforeTurn, hstr, Draft.bind_assoc, Draft.pure_bind]

theorem beforeTrue_drawn (ht : E → env.table.Compact) {test : Expr}
    (hd : E → test.displaysWithin 512) :
    Drawn env E σ (env.beforeTrue test)
      fun l σ' => σ' = (σ.declare l.1 σ.context).declare l.2 σ.context :=
  .temp ((exprs_drawn env ht).1 test hd σ) fun c => .fresh σ.context fun other =>
    .fresh σ.context fun done => .seq (.emit (by simp)) fun _ => .seq (.release rfl) fun _ =>
    .pure _ rfl

theorem beforeFalse_drawn (ht : E → env.table.Compact) {test : Expr} {onTrue : List Stmt}
    (hd : E → test.displaysWithin 512) (hσ : σ.ForStmt env)
    (hblock : ∀ σ : Scene, σ.ForStmt env → Restores env E σ (env.block onTrue)) :
    Drawn env E σ (env.beforeFalse test onTrue) fun l σ' => σ' = σ.declare l σ.context := by
  refine .bind (beforeTrue_drawn ht hd) ?_
  rintro ⟨other, done⟩ _ rfl
  exact .seq (hblock _ ⟨.tail _ (.tail _ hσ.exit), hσ.rooms⟩) fun _ =>
    .seq (.emit (by simp)) fun _ =>
    .seq (.drop (.placeFirst rfl (by simp) .same) (by simp)) fun _ => .pure _ rfl

theorem beforeBody_drawn (ht : E → env.table.Compact) {test : Expr}
    (hd : E → test.displaysWithin 512) :
    Drawn env E σ (env.beforeBody test) fun l σ' => σ' = σ.inLoop σ.context l.1 l.2 :=
  .fresh σ.context fun top => .fresh σ.context fun done =>
    .seq (.placeFirst rfl (by simp) .same) fun _ =>
    .temp ((exprs_drawn env ht).1 test hd _) fun c => .seq (.emit (by simp)) fun _ =>
    .seq (.release rfl) fun _ => .pure _ rfl

/-- The sequence and the index stay in two temporaries while the loop runs. -/
theorem beforeTurn_drawn (ht : E → env.table.Compact) {var : String} {seq : Expr}
    (hd : E → seq.displaysWithin 512) :
    Drawn env E σ (env.beforeTurn span var seq) fun l σ' => ∃ s idx, l.1 = (.virt s, .virt idx) ∧
      σ' = σ.inLoop ((σ.context.push s true).push idx true) l.2.1 l.2.2 := by
  refine .given (unbroken_elementType _ _) fun elem _ => .given (env.unbroken_nameType _ _)
    fun type _ => .temp ((exprs_drawn env ht).1 seq hd σ) fun s =>
    .iteThen (noneCheck_drawn (by simp)) fun _ => .temp (.take _ _) fun idx =>
    .seq (.fill rfl (by simp) rfl) fun _ =>
    .fresh ((σ.context.push s true).push idx true) fun top =>
    .fresh ((σ.context.push s true).push idx true) fun done =>
    .seq (.placeFirst rfl (by simp) .same) fun _ => .seq (.emit (by simp)) fun _ =>
    .seq (.emit (by simp)) fun _ => .temp (.take _ _) fun item => ?_
  -- However the element has been fetched, it goes to the variable.
  have turn : Drawn env E
      ((σ.inLoop ((σ.context.push s true).push idx true) top done).push item true)
      (do
        env.coerce (.virt item) elem type
        env.storeName var (.virt item) span
        release (.virt item)
        emit (.addi (.virt idx) (.virt idx) 1)
        return (((.virt s, .virt idx), top, done) : (Reg × Reg) × Label × Label))
      fun l σ' => ∃ s idx, l.1 = (.virt s, .virt idx) ∧
        σ' = σ.inLoop ((σ.context.push s true).push idx true) l.2.1 l.2.2 :=
    .seq (coerce_drawn _ _ (by simp)) fun _ => .seq (storeName_drawn ht _ _ (by simp)) fun _ =>
      .seq (.release rfl) fun _ => .seq (.emit (by simp)) fun _ => .pure _ ⟨s, idx, rfl, rfl⟩
  exact .ite (.seq (charAt_drawn (by simp) (by simp) (by simp) .fill) fun _ => turn)
    (.seq (elementAddr_drawn (by simp) (by simp)) fun _ => .seq (.fill rfl (by simp) rfl) fun _ =>
      turn)

/-! ## Statements -/

/-- Where the function may be left. -/
theorem jump_exit_drawn (hσ : σ.ForStmt env) :
    Restores env E σ (env.note (.jump env.exit) "return") :=
  .emit (Op.fits_jump.mpr (.inr ⟨{}, hσ.exit, List.nil_subset _, hσ.rooms.symm⟩))

/-- Statements leave what is open as it was. -/
theorem stmts_drawn (env : Env) (ht : E → env.table.Compact) :
    (∀ s : Stmt, (E → s.displaysWithin 512) → ∀ σ : Scene, σ.ForStmt env →
        Restores env E σ (env.stmt s)) ∧
      (∀ ss : List Stmt, (E → Stmt.allDisplaysWithin 512 ss) → ∀ σ : Scene, σ.ForStmt env →
        Restores env E σ (env.block ss)) := by
  have expr := (exprs_drawn env ht).1
  refine @Env.stmt.mutual_induct .virtual env
    (fun s => (E → s.displaysWithin 512) → ∀ σ : Scene, σ.ForStmt env →
      Restores env E σ (env.stmt s))
    (fun ss => (E → Stmt.allDisplaysWithin 512 ss) → ∀ σ : Scene, σ.ForStmt env →
      Restores env E σ (env.block ss))
    ?expr ?assign ?ifElse ?whileLoop ?forEach ?ret ?retNone ?pass ?nil ?cons
  case expr =>
    intro span e hd σ _
    rw [Env.stmt]
    exact .temp (expr e hd σ) fun r => .release rfl
  case assign =>
    intro span targets value hd σ _
    simp only [Stmt.displaysWithin, Bool.and_eq_true] at hd
    rw [Env.stmt]
    exact .temp (expr value (fun h => (hd h).2) σ) fun r =>
      .seq (assignAll_drawn ht _ (by simp) fun h => (hd h).1) fun _ => .release rfl
  case ifElse =>
    intro span test onTrue onFalse ihy ihn hd σ hσ
    simp only [Stmt.displaysWithin, Bool.and_eq_true] at hd
    rw [stmt_ifElse_second]
    refine .bind (beforeFalse_drawn ht (fun h => (hd h).1.1) hσ (ihy fun h => (hd h).1.2)) ?_
    rintro done _ rfl
    exact .seq (ihn (fun h => (hd h).2) _ ⟨.tail _ hσ.exit, hσ.rooms⟩) fun _ =>
      .drop (.placeLast rfl (by simp) .same) (by simp)
  case whileLoop =>
    intro span test body ih hd σ hσ
    simp only [Stmt.displaysWithin, Bool.and_eq_true] at hd
    rw [stmt_whileLoop]
    refine .bind (beforeBody_drawn ht fun h => (hd h).1) ?_
    rintro ⟨top, done⟩ _ rfl
    exact .seq (ih (fun h => (hd h).2) _ ⟨.tail _ (.tail _ hσ.exit), hσ.rooms⟩) fun _ =>
      .seq (.emit (by simp)) fun _ => .drop (.placeLast rfl (by simp) .same) (by simp)
  case forEach =>
    intro span var seq body ih hd σ hσ
    simp only [Stmt.displaysWithin, Bool.and_eq_true] at hd
    rw [stmt_forEach]
    refine .bind (beforeTurn_drawn ht fun h => (hd h).1) ?_
    rintro ⟨_, top, done⟩ _ ⟨s, idx, rfl, rfl⟩
    exact .seq (ih (fun h => (hd h).2) _ ⟨.tail _ (.tail _ hσ.exit), hσ.rooms⟩) fun _ =>
      .seq (.emit (by simp)) fun _ =>
      .seq (.drop (.placeLast rfl (by simp) .same) (by simp)) fun _ =>
      .seq (.release rfl) fun _ => .release rfl
  case ret =>
    intro span e hd σ hσ
    have hd : E → e.displaysWithin 512 := by simpa [Stmt.displaysWithin] using hd
    rw [Env.stmt]
    refine .temp (expr e hd σ) fun r => ?_
    have leave : Drawn env E (σ.push r true) (do
        emit (.mv .a0 (.virt r))
        release (.virt r)
        env.note (.jump env.exit) "return") fun _ σ' => σ' = σ :=
      .seq (.emit (by simp)) fun _ => .seq (.release rfl) fun _ => jump_exit_drawn hσ
    split
    · exact .seq (coerce_drawn _ _ (by simp)) fun _ => leave
    · exact leave
  case retNone =>
    intro span _ σ hσ
    rw [Env.stmt]
    exact .seq (.emit (by simp)) fun _ => jump_exit_drawn hσ
  case pass =>
    intro span _ σ _
    rw [Env.stmt]
    exact .pure _ rfl
  case nil =>
    intro _ σ _
    rw [Env.block]
    exact .pure _ rfl
  case cons =>
    intro s ss ihs ihss hd σ hσ
    simp only [Stmt.allDisplaysWithin, Bool.and_eq_true] at hd
    rw [Env.block]
    exact .seq (ihs (fun h => (hd h).1) σ hσ) fun _ => ihss (fun h => (hd h).2) σ hσ

end Env

namespace Function

open Draft (Restores Scene)

theorem initLocals_drawn {env : Env} {E : Prop} {σ : Scene} {locals : List LocalVar}
    (h : E → locals.length ≤ 510) : Restores env E σ (initLocals env locals) := by
  refine .forM fun vk hvk => ?_
  obtain ⟨v, k⟩ := vk
  have hk := (List.getElem?_eq_some_iff.mp (List.mem_zipIdx_iff_getElem?.mp hvk)).1
  refine .seq (.loadLiteral _ _) fun _ => .emit ?_
  simpa using fun hE => Frame.short_localOffset (by have := h hE; omega)

/-- A function leaves what is open as it was. -/
theorem draft_drawn {env : Env} {E : Prop} {σ : Scene} {f : FuncInfo} (ht : E → env.table.Compact)
    (hlocals : E → f.locals.length ≤ 510) (hd : E → Stmt.allDisplaysWithin 512 f.body)
    (hσ : σ.ForStmt env) : Restores env E σ (draft env f) :=
  .seq (initLocals_drawn hlocals) fun _ => .seq ((Env.stmts_drawn env ht).2 _ hd σ hσ) fun _ =>
    .emit (by simp)

end Function

end ChocoRV
