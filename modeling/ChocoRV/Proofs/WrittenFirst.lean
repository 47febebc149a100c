import Mathlib
import ChocoRV.Proofs.Alloc.LivePath
import ChocoRV.Proofs.RegisterDemand

/-!
# Temporaries are written before they are read

The allocator keeps a temporary only from where it is live, so a stream that could read one before
writing it would read what another temporary left at its location. The code of a unit does no such
thing: whatever way control takes through it, each temporary is written before its first read. In
terms of liveness, nothing is live before the first instruction; that this says the same holds of
all streams (`writtenFirst_iff_liveIn`).
-/

namespace ChocoRV

/-- On every path of control that starts at the first instruction, an instruction that reads a
temporary comes after one that writes it. -/
def WrittenFirst (items : List Item) : Prop :=
  ∀ (v m : Nat) (path : Nat → Nat), path 0 = 0 → (∀ j < m, GoesTo items (path j) (path (j + 1))) →
    ReadsAt items v (path m) → ∃ j < m, WritesAt items v (path j)

variable {items : List Item}

theorem writtenFirst_iff_reachesRead : WrittenFirst items ↔ ∀ v, ¬ ReachesRead items v 0 := by
  constructor
  -- A path to a read without a write on it is what the definition excludes.
  · rintro h v ⟨m, path, hzero, hpath, hread, hkeep⟩
    obtain ⟨j, hj, hwrite⟩ := h v m path hzero hpath hread
    exact hkeep j hj hwrite
  · intro h v m path hzero hpath hread
    by_contra hnone
    exact h v ⟨m, path, hzero, hpath, hread, fun j hj hwrite => hnone ⟨j, hj, hwrite⟩⟩

/-- The temporaries of a stream are written first if and only if none is live where it begins. -/
theorem writtenFirst_iff_liveIn :
    WrittenFirst items ↔ (Liveness.ofItems items).liveIn.getD 0 ∅ = ∅ := by
  rw [writtenFirst_iff_reachesRead]
  constructor
  · intro h
    refine Std.ExtTreeSet.ext_mem fun v =>
      ⟨fun hv => ?_, fun hv => absurd hv Std.ExtTreeSet.not_mem_empty⟩
    -- What is live reaches a read, as the reads that can be reached are closed under the flow.
    exact absurd ((FlowGraph.closed_reachesRead items).liveIn 0 v hv) (h v)
  · intro h v hreach
    have hlive := FlowGraph.mem_liveIn_of_reachesRead hreach
    rw [h] at hlive
    exact Std.ExtTreeSet.not_mem_empty hlive

/-- In the allocating mode, the code over temporaries of a unit is handed to the allocator. -/
theorem Function.bodyOf_virtual {settings : CodegenSettings} (hmode : settings.registers = .virtual)
    (table : SymbolTable) (u : Option Nat) {d : Draft.Result Unit} (hd : d.value = .ok ()) :
    bodyOf settings table u d = (do
      let a ← Allocation.allocate (Body.draftItems d.events) settings.pool
        (frameOf table u).spillBase (frameOf table u).name
      return ⟨a.items, a.spillSlots, a.used⟩) := by
  rw [bodyOf, hmode]
  show (d.value >>= _) = _
  rw [hd]
  rfl

/-- **Lowered code never reads an undefined temporary.** In the allocating mode, what the allocator
gets for the top level and for each function of a program is a stream which, on every path of
control from its first instruction, writes each temporary before reading it. So nothing is live
before that instruction, and this says the same of any stream. -/
theorem temporaries_written_first (p : Program) (table : SymbolTable) {settings : CodegenSettings}
    (hmode : settings.registers = .virtual) :
    (∀ ud ∈ Function.programDrafts p settings.comments table, ud.2.value = .ok () →
      Function.bodyOf settings table ud.1 ud.2 = (do
        let a ← Allocation.allocate (Body.draftItems ud.2.events) settings.pool
          (Function.frameOf table ud.1).spillBase (Function.frameOf table ud.1).name
        return ⟨a.items, a.spillSlots, a.used⟩) ∧
      WrittenFirst (Body.draftItems ud.2.events) ∧
      (Liveness.ofItems (Body.draftItems ud.2.events)).liveIn.getD 0 ∅ = ∅) ∧
    ∀ items, WrittenFirst items ↔ (Liveness.ofItems items).liveIn.getD 0 ∅ = ∅ := by
  refine ⟨fun ud hud hvalue => ?_, fun items => writtenFirst_iff_liveIn⟩
  have hlive : (Liveness.ofItems (Body.draftItems ud.2.events)).liveIn.getD 0 ∅ = ∅ := by
    obtain ⟨pool, hd⟩ := Function.mem_drafts hud
    rw [hd] at hvalue ⊢
    obtain ⟨L, -, -, hfilled⟩ := Function.draftOf_follows hvalue
    exact hfilled.liveIn_zero (Function.draftOf_traced hvalue).nested
  exact ⟨Function.bodyOf_virtual hmode table ud.1 hvalue, writtenFirst_iff_liveIn.mpr hlive, hlive⟩

/-- The loop `for x in [1, 2]: print(x if c and n < x else n)`. Ways part at the loop, at the `and`
and at the choice, and again where the number is put into an object. -/
def boxedChoice : Program :=
  let int (n : Int32) : Expr := .int ⟨{}, .int⟩ n
  let name (type : ValueType) (s : String) : Expr := .name ⟨{}, type⟩ s
  let both : Expr := .binary ⟨{}, .bool⟩ (name .bool "c") .and
    (.binary ⟨{}, .bool⟩ (name .int "n") .lt (name .int "x"))
  { decls := [.var {} ⟨"c", .bool⟩ (.bool true), .var {} ⟨"n", .int⟩ (.int 1),
      .var {} ⟨"x", .int⟩ (.int 0)]
    body := [.forEach {} "x" (.list ⟨{}, .list .int⟩ [int 1, int 2])
      [.expr {} (.call ⟨{}, .none⟩ "print" [.cond ⟨{}, .int⟩ both (name .int "x")
        (name .int "n")])]] }

/-- With one register to go round, every unit of the loop's program is written first. -/
theorem boxedChoice_written_first :
    ∃ a table bodies payload, compile boxedChoice (allocating true 1) = .ok a ∧
      CompiledAs boxedChoice (allocating true 1) a table bodies payload ∧
      ∀ ud ∈ Function.programDrafts boxedChoice true table,
        ud.2.value = .ok () ∧ WrittenFirst (Body.draftItems ud.2.events) := by
  have hok : (compile boxedChoice (allocating true 1)).toOption.isSome = true := by decide +kernel
  obtain ⟨a, ha⟩ := Option.isSome_iff_exists.mp hok
  have ha := toOption_eq_some_iff.mp ha
  obtain ⟨table, bodies, payload, hc⟩ := compile_eq_ok ha
  refine ⟨a, table, bodies, payload, ha, hc, fun ud hud => ?_⟩
  obtain ⟨b, hb⟩ := mapM_ok_iff.mp ⟨bodies, mapM_eq_ok_iff.mpr hc.made⟩ ud hud
  have hvalue := (Body.ofDraft_labels hb).1
  have hwritten := @temporaries_written_first boxedChoice table (allocating true 1) rfl
  exact ⟨hvalue, (hwritten.1 ud hud hvalue).2.1⟩

end ChocoRV
