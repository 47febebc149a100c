import Mathlib
import ChocoRV.Proofs.Draft.Supply
import ChocoRV.Proofs.Draft.Units

/-!
# One translator for both ways of choosing registers

A program is drafted in both register modes. In the direct one the takes return registers of the
pool; in the other one temporaries, for which the allocator finds registers afterwards.

## Main definitions

* `Draft.StateOf.taken?`: the register that the `n`-th take of a direct run has returned.
* `Draft.ResultOf.Agrees`: the drafts of a unit in the two modes have the same labels and constants,
  and item by item the same code, with the register that the `n`-th take has returned in place of
  temporary `n`.
* `OneTranslation`: this of all units of a program, and what follows for the compiled programs.

## Main statements

* `Draft.take_returns`: what `Draft.StateOf.taken?` says of a take.
* `direct_lowering_agrees`: if the direct mode lowers a program, the two modes agree on it.
-/

namespace ChocoRV

namespace Draft

/-- The register that the `n`-th take has returned. -/
def StateOf.taken? (s : StateOf .physical) (n : Nat) : Option PhysReg :=
  (s.supply.slots.lookup n).bind (s.regs[·]?)

/-- A take returns a register, and it is on record which one. -/
theorem take_returns {what : String} {span : Span} {s : StateOf .physical} {r : Reg}
    (h : (take what span s).value = .ok r) :
    let s' := (take what span s).state
    ∃ p, r = .phys p ∧ s'.temps = s.temps + 1 ∧ s'.taken? s.temps = some p ∧
      ∀ n ≠ s.temps, s'.taken? n = s.taken? n := by
  rcases s.supply.next?_eq s.regs with ⟨-, hnext⟩ | ⟨k, p, -, hp, hnext⟩
  · rw [take_eq_of_exhausted hnext] at h
    cases h
  · rw [take_eq_of_next hnext] at h ⊢
    cases h
    refine ⟨p, rfl, rfl, ?_, fun n hn => ?_⟩
    · rw [StateOf.taken?, Supply.lookup_take, if_pos rfl]
      exact hp
    · rw [StateOf.taken?, Supply.lookup_take, if_neg hn]
      rfl

/-- The drafts of a unit over temporaries and over registers have both come to their end and
agree. -/
structure ResultOf.Agrees (d : Result Unit) (d' : ResultOf .physical Unit) : Prop where
  finished : d.value = .ok () ∧ d'.value = .ok ()
  labels : d'.state.labels = d.state.labels
  temps : d'.state.temps = d.state.temps
  constants : d'.state.pool = d.state.pool
  /-- Temporary `n` is replaced by the register that the `n`-th take has returned; all else
  stays. -/
  items : ∃ regs : List PhysReg, (∀ n, regs[n]? = d'.state.taken? n) ∧
    List.Forall₂ (Item.PlacedAs regs) (Body.draftItems d.events) (Body.draftItems d'.events)

end Draft

/-- Settings for the direct mode. -/
abbrev direct (comments : Bool) (size : Nat) : CodegenSettings := ⟨.physical, comments, size⟩

/-- Settings for the mode that allocates registers for whole functions. -/
abbrev allocating (comments : Bool) (size : Nat) : CodegenSettings := ⟨.virtual, comments, size⟩

namespace Function

variable {table : SymbolTable} {comments : Bool} {size : Nat} {body : List Stmt}
  {pool : ConstantPool}

/-- The draft of a unit in the direct mode, begun with the constants so far. -/
abbrev directOf (table : SymbolTable) (comments : Bool) (size : Nat) (body : List Stmt)
    (pool : ConstantPool) (u : Option Nat) : Draft.ResultOf .physical Unit :=
  code table comments body u .physical (start pool (direct comments size).pool)

/-- Units with their drafts in the direct mode. -/
abbrev directs (table : SymbolTable) (comments : Bool) (size : Nat) (body : List Stmt) :
    List (Option Nat) → ConstantPool → List (Option Nat × Draft.ResultOf .physical Unit) :=
  draftsIn .physical (direct comments size).pool table comments body

/-- A unit that has a body in the direct mode: the two runs agree, and the body is what the direct
run has come to. -/
theorem directOf_agrees {u : Option Nat} {b : Body}
    (h : bodyOf (direct comments size) table u (draftOf table comments body pool u) = .ok b) :
    (draftOf table comments body pool u).Agrees (directOf table comments size body pool u) ∧
      Body.ofDirect (directOf table comments size body pool u) = .ok b := by
  obtain ⟨⟨items, final⟩, hreplay, h⟩ := bind_eq_ok_iff.mp h
  obtain ⟨⟨⟩, hvalue, h⟩ := bind_eq_ok_iff.mp h
  cases h
  have hn : Nested 0 [] (draftOf table comments body pool u).events
      (draftOf table comments body pool u).state.temps [] := (draftOf_traced hvalue).nested
  cases follows (code_lockstep (direct comments size).nodup_pool comments body u) pool with
  | exhausted hrun => cases hrun.symm.trans hreplay
  | failed _ hfail => cases hvalue.symm.trans hfail
  | @done sup _ _ hrun hstate _ hdirect =>
    obtain ⟨rfl, rfl⟩ := Prod.mk.inj (Except.ok.inj (hrun.symm.trans hreplay))
    refine ⟨⟨⟨hvalue, hdirect⟩, by rw [hstate]; rfl, by rw [hstate]; rfl, by rw [hstate]; rfl,
      Supply.granted (direct comments size).pool {} (draftOf table comments body pool u).events,
      fun n => ?_, ?_⟩, ?_⟩
    · rw [Supply.granted_getElem? hn Supply.stacked_init hrun, Nat.zero_add, hstate]
      rfl
    · rw [Supply.run_eq_place hn hrun]
      refine Item.forall₂_placedAs fun i hi t ht => ?_
      have hlt := hn.virts_lt (fun t ht => nomatch ht) i (Body.mem_draftItems.mp hi) t ht
      have hlen := Supply.granted_length hn Supply.stacked_init hrun
      omega
    · rw [Body.ofDirect, hdirect, hstate]
      rfl

/-- The two runs agree on units in order, each begun with the constants that its own mode has come
to. -/
theorem directs_agree {us : List (Option Nat)} {bs : List Body}
    (h : List.Forall₂ (fun (ud : Option Nat × Draft.Result Unit) b =>
      bodyOf (direct comments size) table ud.1 ud.2 = .ok b)
        (drafts table comments body us pool) bs) :
    List.Forall₂ (fun ud ud' => ud.1 = ud'.1 ∧ ud.2.Agrees ud'.2)
        (drafts table comments body us pool) (directs table comments size body us pool) ∧
      List.Forall₂ (fun ud' b => Body.ofDirect ud'.2 = .ok b)
        (directs table comments size body us pool) bs ∧
      List.zipWith (fun ud b => wrap table ud.1 b) (drafts table comments body us pool) bs =
        List.zipWith (fun ud' b => wrap table ud'.1 b)
          (directs table comments size body us pool) bs ∧
      poolAfter pool (directs table comments size body us pool) =
        poolAfter pool (drafts table comments body us pool) := by
  induction us generalizing pool bs with
  | nil =>
    cases h
    exact ⟨.nil, .nil, rfl, rfl⟩
  | cons u us ih =>
    obtain ⟨b, bs, hb, hbs, rfl⟩ := List.forall₂_cons_left_iff.mp h
    obtain ⟨hagrees, hbody⟩ := directOf_agrees hb
    -- The next unit begins with the same constants in both modes.
    have hpool : (directOf table comments size body pool u).state.pool =
        (draftOf table comments body pool u).state.pool := hagrees.constants
    obtain ⟨hall, hbodies, htext, hafter⟩ := ih hbs
    rw [directs, draftsIn, hpool]
    exact ⟨.cons ⟨rfl, hagrees⟩ hall, .cons hbody hbodies, congrArg _ htext, by
      rw [poolAfter, hpool, hafter]; rfl⟩

end Function

/-- What the two modes share for a program with symbol table `table`, of which the direct mode has
made the code `text` and the constants `pool`. -/
structure OneTranslation (p : Program) (comments : Bool) (size : Nat) (table : SymbolTable)
    (text : List Item) (pool : ConstantPool) : Prop where
  /-- The drafts of each unit in the two modes agree. -/
  agree : List.Forall₂ (fun ud ud' => ud.1 = ud'.1 ∧ ud.2.Agrees ud'.2)
    (Function.drafts table comments p.body (Function.units table) {})
    (Function.directs table comments size p.body (Function.units table) {})
  /-- The code of the direct mode is that of the frames around what its drafts have come to. -/
  code : ∃ bodies, List.Forall₂ (fun ud' b => Body.ofDirect ud'.2 = .ok b)
      (Function.directs table comments size p.body (Function.units table) {}) bodies ∧
    text = (List.zipWith (fun ud' b => Function.wrap table ud'.1 b)
      (Function.directs table comments size p.body (Function.units table) {}) bodies).flatten
  /-- What the allocating mode goes on to do with a unit is to allocate registers for its code over
  temporaries. -/
  reaches : ∀ ud ∈ Function.drafts table comments p.body (Function.units table) {},
    let frame := Function.frameOf table ud.1
    Body.ofTemporaries (allocating comments size).pool frame.spillBase frame.name ud.2 = (do
      let a ← Allocation.allocate (Body.draftItems ud.2.events) (allocating comments size).pool
        frame.spillBase frame.name
      return ⟨a.items, a.spillSlots, a.used⟩)
  /-- The constants are those of the drafts of either mode, and the allocating mode leaves the same
  ones. -/
  constants :
    pool = Function.poolAfter {}
      (Function.directs table comments size p.body (Function.units table) {}) ∧
    pool = Function.poolAfter {} (Function.drafts table comments p.body (Function.units table) {}) ∧
    ∀ {table' : SymbolTable} {text' : List Item} {pool' : ConstantPool},
      lower p (allocating comments size) = .ok (table', text', pool') → pool' = pool
  /-- The compiled programs have the same data. -/
  data : ∀ {a b : Assembly}, compile p (direct comments size) = .ok a →
    compile p (allocating comments size) = .ok b → a.data = b.data

/-- Lowering depends on the settings only in the code: symbols and constants are the same for all
settings with the same comments. -/
theorem lower_same {p : Program} {s₁ s₂ : CodegenSettings} {table₁ table₂ : SymbolTable}
    {text₁ text₂ : List Item} {pool₁ pool₂ : ConstantPool}
    (h₁ : lower p s₁ = .ok (table₁, text₁, pool₁)) (h₂ : lower p s₂ = .ok (table₂, text₂, pool₂))
    (hc : s₁.comments = s₂.comments) :
    table₁ = table₂ ∧ pool₁ = pool₂ := by
  obtain ⟨ht₁, rfl, -⟩ := lower_eq_ok h₁
  obtain ⟨ht₂, rfl, -⟩ := lower_eq_ok h₂
  cases ht₁.symm.trans ht₂
  exact ⟨rfl, by rw [hc]⟩

theorem compile_data_same {p : Program} {s₁ s₂ : CodegenSettings} {a b : Assembly}
    (ha : compile p s₁ = .ok a) (hb : compile p s₂ = .ok b) (hc : s₁.comments = s₂.comments) :
    a.data = b.data := by
  rw [compile_eq_lower] at ha hb
  obtain ⟨⟨table₁, text₁, pool₁⟩, hl₁, ha⟩ := bind_eq_ok_iff.mp ha
  obtain ⟨⟨table₂, text₂, pool₂⟩, hl₂, hb⟩ := bind_eq_ok_iff.mp hb
  obtain ⟨rfl, rfl⟩ := lower_same hl₁ hl₂ hc
  obtain ⟨⟨routines₁, pool₁'⟩, hr₁, ha⟩ := bind_eq_ok_iff.mp ha
  obtain ⟨⟨routines₂, pool₂'⟩, hr₂, hb⟩ := bind_eq_ok_iff.mp hb
  cases hr₁.symm.trans hr₂
  cases ha
  cases hb
  rfl

/-- **One translator for both modes.** If the direct mode lowers a program, then the allocating mode
gets as far as the allocation of registers for every unit, with the same labels and constants, and
the code of the direct mode is the code over temporaries with the registers that the takes have
returned in their place. -/
theorem direct_lowering_agrees {p : Program} {comments : Bool} {size : Nat} {table : SymbolTable}
    {text : List Item} {pool : ConstantPool}
    (h : lower p (direct comments size) = .ok (table, text, pool)) :
    OneTranslation p comments size table text pool := by
  obtain ⟨-, hpool, bodies, hbodies, htext⟩ := lower_eq_ok h
  obtain ⟨hagree, hcode, hwrap, hafter⟩ := Function.directs_agree hbodies
  have hfinished : ∀ ud ∈ Function.drafts table comments p.body (Function.units table) {},
      ud.2.value = .ok () :=
    ((List.forall₂_and_left _ _).mp (hagree.imp fun _ _ h => ⟨h.2.finished.1, h⟩)).1
  refine ⟨hagree, ⟨bodies, hcode, hwrap ▸ htext⟩, fun ud hud => ?_,
    ⟨hpool.trans hafter.symm, hpool, fun hv => (lower_same hv h rfl).2⟩,
    fun ha hb => compile_data_same ha hb rfl⟩
  show (do ud.2.value; _) = _
  rw [hfinished ud hud]
  rfl

/-- The assignment `n = f(n) + (n - 2)`, where `f(x)` is `x * (x + 1)`. Its four temporaries share
three registers. -/
def nestedSums : Program :=
  let name (s : String) : Expr := .name ⟨{}, .int⟩ s
  let lit (n : Int32) : Expr := .int ⟨{}, .int⟩ n
  let arith (l : Expr) (op : BinOp) (r : Expr) : Expr := .binary ⟨{}, .int⟩ l op r
  { decls := [.var {} ⟨"n", .int⟩ (.int 1),
      .func {} "f" [⟨"x", .int⟩] .int []
        [.ret {} (some (arith (name "x") .mul (arith (name "x") .add (lit 1))))]]
    body := [.assign {} [name "n"]
      (arith (.call ⟨{}, .int⟩ "f" [name "n"]) .add (arith (name "n") .sub (lit 2)))] }

theorem nestedSums_direct_lowering_agrees :
    ∃ table text pool, lower nestedSums (direct true 3) = .ok (table, text, pool) ∧
      OneTranslation nestedSums true 3 table text pool := by
  have hok : (lower nestedSums (direct true 3)).isOk = true := by decide +kernel
  obtain ⟨⟨table, text, pool⟩, h⟩ := exists_ok_of_isOk hok
  exact ⟨table, text, pool, h, direct_lowering_agrees h⟩

end ChocoRV
