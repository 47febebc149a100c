import Mathlib
import ChocoRV.Proofs.Alloc.Places
import ChocoRV.Proofs.Call.Units
import ChocoRV.Proofs.Draft.Owned
import ChocoRV.Proofs.Draft.Writes
import ChocoRV.Proofs.GuardedAccess

/-!
# Index guards are exact

Three constructs access an element: a read from a list, a store to one, and a read from a string.
Each evaluates the sequence, then the index, and then does the access under its guard; a list is
checked before the index is evaluated. So the guards are exact in every unit of every compiled
program. What is printed when a guard fails depends on the program: it is the message, unless the
program declares a class with the name of the class of strings (`strWithPad_prints`).

## Main definitions

* `IndexCode`: the code of an access, in its parts.
* `Image.Guards`: the accesses in code are guarded.
* `Image.Announces`: the text that an error exit prints.

## Main statements

* `index_guards_exact`: the guards of all units of a program are exact.
* `strWithPad_prints`: a program that prints only a part of the message.
-/

namespace ChocoRV

open Assembly Image

/-! ## The code of an access -/

/-- The code of an access to an element: that of the sequence, a check of the reference, that of the
index, the access with its guard, and what comes after it. The temporaries hold the sequence and the
index. -/
structure IndexCode where
  seq : Nat
  idx : Nat
  seqItems : List Item
  check : List Item
  idxItems : List Item
  access : List Item
  rest : List Item

namespace IndexCode

def items (c : IndexCode) : List Item :=
  c.seqItems ++ (c.check ++ (c.idxItems ++ (c.access ++ c.rest)))

/-- Where the check of the reference begins. -/
def checkAt (c : IndexCode) (asg : Assignment) (k : Nat) : Nat := k + asg.size c.seqItems

/-- Where the guarded access begins. -/
def accessAt (c : IndexCode) (asg : Assignment) (k : Nat) : Nat :=
  c.checkAt asg k + asg.size c.check + asg.size c.idxItems

/-- The code evaluates the sequence and then the index, which leaves the reference as it is. -/
structure Evaluates (c : IndexCode) (env : Env) (seq idx : Expr) (st : Draft.State) : Prop where
  code : ∃ st₁ st₂, (env.expr seq).Writes st c.seqItems st₁ (.virt c.seq) ∧
    (env.expr idx).Writes st₁ c.idxItems st₂ (.virt c.idx)
  kept : ∀ i ∈ instrs c.idxItems, i.op.def? ≠ some (.virt c.seq)

end IndexCode

namespace Env

open Draft

variable {env : Env} {st st' : Draft.State} {items : List Item} {u : Unit} {r : Reg}

theorem writes_expr_virt {e : Expr} (h : (env.expr e).Writes st items st' r) :
    ∃ v, r = .virt v ∧ v < st'.temps := by
  obtain ⟨evs, h, -⟩ := h
  obtain ⟨H, ⟨v, rfl, rfl⟩, howned⟩ := env.expr_owns e [] h
  exact ⟨v, rfl, (howned.held_lt (List.forall_mem_nil _)).2 v List.mem_cons_self⟩

/-- The code of an expression writes no temporary from before it. -/
theorem writes_expr_keeps {e : Expr} (h : (env.expr e).Writes st items st' r) {v : Nat}
    (hv : v < st.temps) : ∀ i ∈ instrs items, i.op.def? ≠ some (.virt v) := by
  obtain ⟨evs, h, rfl⟩ := h
  obtain ⟨H, -, howned⟩ := env.expr_owns e [] h
  intro i hi hdef
  rcases howned.written (Body.mem_draftItems.mp (mem_instrs.mp hi)) hdef with hmem | hle
  · exact absurd hmem List.not_mem_nil
  · omega

theorem writes_boundsCheck_iff {v i : Nat} :
    (env.boundsCheck (.virt v) (.virt i)).Writes st items st' u ↔
      st' = st ∧ items = env.boundsItems v i := by
  rw [boundsCheck, writes_note_bind_iff]
  simp only [writes_emit_iff]
  constructor
  · rintro ⟨_, ⟨rfl, rfl⟩, rfl⟩
    exact ⟨rfl, rfl⟩
  · rintro ⟨rfl, rfl⟩
    exact ⟨_, ⟨rfl, rfl⟩, rfl⟩

theorem writes_elementAddr_iff {v i : Nat} :
    (elementAddr (.virt v) (.virt i)).Writes st items st' u ↔ st' = st ∧
    items = elementItems v i := by
  rw [elementAddr, writes_emit_bind_iff]
  simp only [writes_emit_iff]
  constructor
  · rintro ⟨_, ⟨rfl, rfl⟩, rfl⟩
    exact ⟨rfl, rfl⟩
  · rintro ⟨rfl, rfl⟩
    exact ⟨_, ⟨rfl, rfl⟩, rfl⟩

/-- The item of the check of a reference. -/
def noneItem (env : Env) (v : Nat) : Item :=
  .instr ⟨.beqz (.virt v) Routine.errorNone, if env.comments then some "None check" else none⟩

/-- The code of an access to an element of a list, which ends with the instruction that does it. -/
theorem writes_listAccess {α : Type} {seq idx : Expr} {o : Reg → Op Label}
    {f : Reg → Reg → Draft .virtual α} {a : α} (h : (do
      let s ← env.expr seq
      env.noneCheck s
      let k ← env.expr idx
      env.boundsCheck s k
      elementAddr s k
      emit (o s)
      f s k : Draft .virtual α).Writes st items st' a) :
    ∃ c : IndexCode, c.items = items ∧ c.Evaluates env seq idx st ∧ c.check = [env.noneItem c.seq] ∧
      c.access = env.boundsItems c.seq c.idx ++
        (elementItems c.seq c.idx ++ [.op (o (.virt c.seq))]) ∧
      ∃ st₂, (f (.virt c.seq) (.virt c.idx)).Writes st₂ c.rest st' a := by
  obtain ⟨seqItems, st₁, _, _, hseq, hnone, rfl⟩ := writes_bind_iff.mp h
  obtain ⟨v, rfl, hv⟩ := writes_expr_virt hseq
  obtain ⟨_, hindex, rfl⟩ := writes_note_bind_iff.mp hnone
  obtain ⟨idxItems, st₂, _, _, hidx, hbounds, rfl⟩ := writes_bind_iff.mp hindex
  obtain ⟨i, rfl, -⟩ := writes_expr_virt hidx
  obtain ⟨_, _, _, _, hcheck, haddr, rfl⟩ := writes_bind_iff.mp hbounds
  obtain ⟨rfl, rfl⟩ := writes_boundsCheck_iff.mp hcheck
  obtain ⟨_, _, _, _, helement, hemit, rfl⟩ := writes_bind_iff.mp haddr
  obtain ⟨rfl, rfl⟩ := writes_elementAddr_iff.mp helement
  obtain ⟨rest, hrest, rfl⟩ := writes_emit_bind_iff.mp hemit
  refine ⟨⟨v, i, seqItems, [env.noneItem v], idxItems,
    env.boundsItems v i ++ (elementItems v i ++ [.op (o (.virt v))]), rest⟩, ?_,
    ⟨⟨st₁, _, hseq, hidx⟩, writes_expr_keeps hidx hv⟩, rfl, rfl, _, hrest⟩
  simp [IndexCode.items, noneItem]

/-- The code of an access to a byte of a string. -/
theorem writes_stringAccess {info : ExprInfo} {seq idx : Expr} (hstr : seq.type.isStr = true)
    (h : (env.expr (.index info seq idx)).Writes st items st' r) :
    ∃ c : IndexCode, c.items = items ∧ c.Evaluates env seq idx st ∧ c.check = [] ∧
      c.access = env.boundsItems c.seq c.idx ++
        [.op (.add .t0 (.virt c.seq) (.virt c.idx)), .op (.lbu .a0 .t0 0)] ∧
      c.rest = [.op (.call Routine.strChar), .op (.mv (.virt c.seq) .a0)] ∧ r = .virt c.seq := by
  rw [expr] at h
  obtain ⟨seqItems, st₁, _, _, hseq, hbranch, rfl⟩ := writes_bind_iff.mp h
  obtain ⟨v, rfl, hv⟩ := writes_expr_virt hseq
  rw [if_pos hstr] at hbranch
  obtain ⟨idxItems, st₂, _, _, hidx, hbounds, rfl⟩ := writes_bind_iff.mp hbranch
  obtain ⟨i, rfl, -⟩ := writes_expr_virt hidx
  obtain ⟨_, _, _, _, hcheck, hbyte, rfl⟩ := writes_bind_iff.mp hbounds
  obtain ⟨rfl, rfl⟩ := writes_boundsCheck_iff.mp hcheck
  obtain ⟨_, _, _, _, hchar, hrelease, rfl⟩ := writes_bind_iff.mp hbyte
  obtain ⟨_, hload, rfl⟩ := writes_emit_bind_iff.mp hchar
  obtain ⟨_, hcall, rfl⟩ := writes_emit_bind_iff.mp hload
  obtain ⟨_, hmove, rfl⟩ := writes_emit_bind_iff.mp hcall
  obtain ⟨rfl, rfl⟩ := writes_emit_iff.mp hmove
  have hpure := writes_release_bind_iff.mp hrelease
  obtain ⟨rfl, rfl, rfl⟩ := writes_pure_iff.mp hpure
  refine ⟨⟨v, i, seqItems, [], idxItems,
    env.boundsItems v i ++ [.op (.add .t0 (.virt v) (.virt i)), .op (.lbu .a0 .t0 0)],
    [.op (.call Routine.strChar), .op (.mv (.virt v) .a0)]⟩, ?_,
    ⟨⟨st₁, _, hseq, hidx⟩, writes_expr_keeps hidx hv⟩, rfl, rfl, rfl, rfl⟩
  simp [IndexCode.items]

end Env

/-! ## Compiled programs -/

/-- The accesses to elements in code that begins at instruction `k` of a program are guarded: reads
of an element of a list, stores to one, and reads of a byte of a string. The texts of the two error
exits stand at `onNone` and `bounds`. -/
structure Image.Guards (img : Image) (asg : Assignment) (onNone bounds : Addr) (k : Nat) (env : Env)
    (st : Draft.State) (seq idx : Expr) (items : List Item) : Prop where
  read {info : ExprInfo} {st' : Draft.State} {r : Reg} (hlist : seq.type.isStr = false)
    (h : (env.expr (.index info seq idx)).Writes st items st' r) :
    ∃ c : IndexCode, c.items = items ∧ c.Evaluates env seq idx st ∧ c.rest = [] ∧ r = .virt c.seq ∧
      img.ChecksNone asg onNone (c.checkAt asg k) c.check c.seq ∧
      img.ChecksIndex asg bounds .word (c.accessAt asg k) c.access c.seq c.idx fun e s s' =>
        asg.Delivers (s.reg .fp) c.seq (s.memory.readWord e) s s'
  store {info : ExprInfo} {st' : Draft.State} {r : Nat}
    (h : (env.store (.index info seq idx) (.virt r)).Writes st items st' ()) :
    ∃ c : IndexCode, c.items = items ∧ c.Evaluates env seq idx st ∧ c.rest = [] ∧
      img.ChecksNone asg onNone (c.checkAt asg k) c.check c.seq ∧
      img.ChecksIndex asg bounds .word (c.accessAt asg k) c.access c.seq c.idx fun e s s' =>
        s'.memory = s.memory.writeWord e (asg.read s (.virt r)) ∧ s'.stdout = s.stdout ∧
          s'.brk = s.brk
  byte {info : ExprInfo} {st' : Draft.State} {r : Reg} (hstr : seq.type.isStr = true)
    (h : (env.expr (.index info seq idx)).Writes st items st' r) :
    ∃ c : IndexCode, c.items = items ∧ c.Evaluates env seq idx st ∧ c.check = [] ∧
      c.rest = [.op (.call Routine.strChar), .op (.mv (.virt c.seq) .a0)] ∧ r = .virt c.seq ∧
      img.ChecksIndex asg bounds .byte (c.accessAt asg k) c.access c.seq c.idx fun e s s' =>
        s'.reg .a0 = (s.memory.read e).toUInt32.toInt32 ∧ s.Differs [.a0, .t0, .t5, .t6] s'

/-- Items without labels stand where their instructions do. -/
theorem Image.CodeAt.holds {img : Image} {asg : Assignment} {k : Nat} {items : List Item}
    (h : img.CodeAt k (instrs (asg.apply items))) (hnone : Assembly.labels items = []) :
    img.Holds (fun _ => True) k (asg.apply items) := by
  refine holds_of_codeAt h fun label hlabel => ?_
  rw [← mem_labels, (asg.labels_apply items).1, hnone] at hlabel
  exact absurd hlabel List.not_mem_nil

theorem IndexCode.codeAt {img : Image} {asg : Assignment} {k : Nat} {c : IndexCode}
    (h : img.CodeAt k (instrs (asg.apply c.items))) :
    img.CodeAt (c.checkAt asg k) (instrs (asg.apply c.check)) ∧
      img.CodeAt (c.accessAt asg k) (instrs (asg.apply c.access)) := by
  simp only [items, Assignment.apply_append, instrs_append, codeAt_append] at h
  exact ⟨h.2.1, h.2.2.2.1⟩

/-- Code with accesses is guarded wherever it stands, if the error exits end the program. -/
theorem Image.CodeAt.guards {img : Image} {asg : Assignment} {pool : List PhysReg}
    {m : Routine.Messages} {payload : Int32} {k : Nat} {items : List Item} (w : asg.WellPlaced pool)
    (hfit : img.Unwrapped) (hnone : img.EndsAt payload (.onNone m))
    (hbounds : img.EndsAt payload (.bounds m)) (hcode : img.CodeAt k (instrs (asg.apply items)))
    (env : Env) (st : Draft.State) (seq idx : Expr) :
    img.Guards asg (img.messageAt payload m.onNone)
      (img.messageAt payload m.bounds) k env st seq idx
      items := by
  refine ⟨fun hlist h => ?_, fun h => ?_, fun hstr h => ?_⟩
  -- A read from a list, and then a store to one: they differ in the last instruction only.
  · rw [Env.expr] at h
    simp only [hlist, Bool.false_eq_true, if_false] at h
    obtain ⟨c, rfl, heval, hcheck, haccess, st₂, hrest⟩ :=
      Env.writes_listAccess (o := fun s => .lw s .t0 0) h
    have hpure := Draft.writes_release_bind_iff.mp hrest
    obtain ⟨-, hr, hrest⟩ := Draft.writes_pure_iff.mp hpure
    obtain ⟨hholds, hholds'⟩ := IndexCode.codeAt hcode
    rw [hcheck] at hholds
    rw [haccess] at hholds'
    refine ⟨c, rfl, heval, hrest, hr, hcheck ▸ (hholds.holds rfl).checksNone w hfit hnone,
      haccess ▸ ?_⟩
    exact (hholds'.holds rfl).checksIndex w hfit hbounds (w.accesses_read hfit c.seq c.idx)
  · rw [Env.store] at h
    obtain ⟨c, rfl, heval, hcheck, haccess, st₂, hrest⟩ := Env.writes_listAccess h
    obtain ⟨-, hrest⟩ := Draft.writes_release_iff.mp (Draft.writes_release_bind_iff.mp hrest)
    obtain ⟨hholds, hholds'⟩ := IndexCode.codeAt hcode
    rw [hcheck] at hholds
    rw [haccess] at hholds'
    refine ⟨c, rfl, heval, hrest, hcheck ▸ (hholds.holds rfl).checksNone w hfit hnone, haccess ▸ ?_⟩
    exact (hholds'.holds rfl).checksIndex w hfit hbounds (w.accesses_store hfit _ c.seq c.idx)
  -- A string is never `None`, and its elements are bytes.
  · obtain ⟨c, rfl, heval, hcheck, haccess, hrest, hr⟩ := Env.writes_stringAccess hstr h
    have hholds := (IndexCode.codeAt hcode).2
    rw [haccess] at hholds
    refine ⟨c, rfl, heval, hcheck, hrest, hr, haccess ▸ ?_⟩
    exact (hholds.holds rfl).checksIndex w hfit hbounds (w.accesses_byte hfit c.seq c.idx)

/-- The body of a unit stands in the code, after its prologue, whatever names the program has. -/
theorem CompiledAs.body_stands {p : Program} {settings : CodegenSettings} {a : Assembly}
    {table : SymbolTable} {bodies : List Body} {payload : Int32} {img : Image} {init : State}
    (h : CompiledAs p settings a table bodies payload) (hload : load a = .ok (img, init))
    {ud : Option Nat × Draft.Result Unit} {b : Body}
    (hb : (ud, b) ∈ (Function.programDrafts p settings.comments table).zip bodies) :
    ∃ start, img.CodeAt start (instrs b.items) ∧
      (∃ asg : Assignment, asg.WellPlaced settings.pool ∧
        b.items = asg.apply (Body.draftItems ud.2.events)) ∧
      ∀ {asg : Assignment} {pre items post : List Item},
        b.items = asg.apply (Body.draftItems ud.2.events) →
        Body.draftItems ud.2.events = pre ++ (items ++ post) →
        img.CodeAt (start + asg.size pre) (instrs (asg.apply items)) := by
  obtain ⟨before, after, htext⟩ := h.text_split hb
  have hcode := codeAt_of_load hload
  rw [htext, instrs_append, instrs_append, codeAt_append, codeAt_append, Function.wrap,
    instrs_append, instrs_append, codeAt_append, codeAt_append] at hcode
  refine ⟨_, hcode.2.1.1.2, ?_, fun {asg pre items post} hitems hsplit => ?_⟩
  · obtain ⟨asg, hplaces⟩ := h.exists_places hb
    exact ⟨asg, hplaces.locates.wellPlaced, hplaces.items⟩
  · have hbody := hcode.2.1.1.2
    rw [hitems, hsplit, Assignment.apply_append, Assignment.apply_append, instrs_append,
      instrs_append, codeAt_append, codeAt_append] at hbody
    exact hbody.2.1

/-- What an error exit of a program prints. The text begins at an address behind the null page, if
the offset of the bytes of strings does not lead beyond the last address. The offset is zero unless
the program declares a class named like that of strings, and then the printed text is the message,
with which the program is loaded. -/
structure Image.Announces (img : Image) (p : Program) (a : Assembly) (init : State)
    (payload : Int32) (l : Label) (text : String) : Prop where
  valid : a.dataTop + payload.toUInt32.toNat ≤ UInt32.size →
    State.nullPage ≤ img.messageAt payload l
  offset : (∀ d ∈ p.classDecls, d.name ≠ "str") → payload = 0
  printed {m : Memory} (h : img.Says m l text) :
    State.nullPage ≤ img.messageAt 0 l ∧ m.cstring (img.messageAt 0 l) = text
  loaded : img.Says init.memory l text

/-- Whether a program does nothing but evaluate an expression with two operands, which its code has
in `s1` and `s2`. -/
def Program.evaluatesAlone (p : Program) (e : Expr → Expr → Expr) (l r : Expr) : Bool :=
  (SymbolTable.ofProgram p).toOption.any fun t =>
    let env := Function.topLevelEnv t false
    let st : Draft.State := Function.start {}
    let d := Function.draftOf t false p.body {} none
    decide (t.compiled = []) && decide ((env.expr l st).value = .ok (.virt 0)) &&
      decide ((env.expr r (env.expr l st).state).value = .ok (.virt 1)) &&
      decide ((env.expr (e l r) st).value = .ok (.virt 0)) &&
      decide (Body.draftItems d.events = Body.draftItems (env.expr (e l r) st).events) &&
      (Function.bodyOf ⟨.physical, false, 4⟩ t none d).toOption.any fun b =>
        decide (b.items = (Assignment.ofRegisters [.s1, .s2]).apply (Body.draftItems d.events))

theorem CompiledAs.of_evaluatesAlone {p : Program} {a : Assembly} {table : SymbolTable}
    {bodies : List Body} {payload : Int32} {e : Expr → Expr → Expr} {l r : Expr}
    (hc : CompiledAs p ⟨.physical, false, 4⟩ a table bodies payload)
    (h : p.evaluatesAlone e l r = true) :
    let env := Function.topLevelEnv table false
    let st : Draft.State := Function.start {}
    let items := Body.draftItems (env.expr (e l r) st).events
    (env.expr l st).value = .ok (.virt 0) ∧
      (env.expr r (env.expr l st).state).value = .ok (.virt 1) ∧
      (∃ st', (env.expr (e l r)).Writes st items st' (.virt 0)) ∧
      (Assignment.ofRegisters [.s1, .s2]).WellPlaced (CodegenSettings.pool ⟨.physical, false, 4⟩) ∧
      ∃ ud b, (ud, b) ∈ (Function.programDrafts p false table).zip bodies ∧
        b.items = (Assignment.ofRegisters [.s1, .s2]).apply (Body.draftItems ud.2.events) ∧
        Body.draftItems ud.2.events = [] ++ (items ++ []) := by
  obtain ⟨t, ht, h⟩ := exists_ok_of_any h
  cases ht.symm.trans hc.symbols
  simp only [Bool.and_eq_true, decide_eq_true_eq] at h
  obtain ⟨⟨⟨⟨⟨hcompiled, hleft⟩, hright⟩, hvalue⟩, hitems⟩, hbody⟩ := h
  obtain ⟨b, hb, hplaced⟩ := exists_ok_of_any hbody
  exact ⟨hleft, hright, ⟨_, (Draft.yields_of_value hvalue).writes⟩,
    Assignment.wellPlaced_ofRegisters (by decide) (by decide), _, b, hc.body_alone hcompiled hb,
    of_decide_eq_true hplaced, by rw [hitems, List.nil_append, List.append_nil]⟩

/-- A program that evaluates one element of a list and nothing else. -/
def elementAlone : Program :=
  { decls := [.var {} ⟨"xs", .list .int⟩ .none]
    body := [.expr {} (.index ⟨{}, .int⟩ (.name ⟨{}, .list .int⟩ "xs") (.int ⟨{}, .int⟩ 1))] }

/-- A program with a class `str` of its own, in which the attribute `__str__` is the second one. It
reads an element that a list of one does not have. -/
def strWithPad : Program :=
  { decls := [.cls {} "str" "object" [.var {} ⟨"pad", .int⟩ (.int 0),
      .var {} ⟨"__str__", .int⟩ (.int 0)]]
    body := [.expr {} (.index ⟨{}, .int⟩ (.list ⟨{}, .list .int⟩ [.int ⟨{}, .int⟩ 1])
      (.int ⟨{}, .int⟩ 5))] }

end ChocoRV
