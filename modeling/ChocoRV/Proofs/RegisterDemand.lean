import Mathlib
import ChocoRV.Proofs.Alloc.NoSpill
import ChocoRV.Proofs.Call.Units
import ChocoRV.Proofs.Draft.Modes

/-!
# Both register modes need the same registers

Where the direct mode finds a register for every temporary, the allocating mode does so too, with
the same pool: it spills nothing, and its code is the code over temporaries with registers in their
place.
-/

namespace ChocoRV

open Assembly

/-- Where the members of a list have partners for one relation, they have partners for another one
that follows. -/
theorem exists_forall₂ {α β γ : Type} {R : α → β → Prop} {S : α → γ → Prop} {as : List α}
    {bs : List β} (h : List.Forall₂ R as bs) (himp : ∀ a ∈ as, ∀ b, R a b → ∃ c, S a c) :
    ∃ cs, List.Forall₂ S as cs := by
  induction h with
  | nil => exact ⟨[], .nil⟩
  | cons hab _ ih =>
    rw [List.forall_mem_cons] at himp
    obtain ⟨c, hc⟩ := himp.1 _ hab
    obtain ⟨cs, hcs⟩ := ih himp.2
    exact ⟨c :: cs, .cons hc hcs⟩

/-- The registers of an operation in which others have been put in place of temporaries. -/
theorem Op.regs_mapRegs {f : Reg → Reg} (hf : ∀ p, f (.phys p) = .phys p) (o : Op Label) :
    (o.mapRegs f f).regs = o.regs.map f := by
  cases o <;> simp [mapRegs, regs, def?, uses, hf]

/-! ## Allocation without spills -/

/-- The register that a location is. -/
def Location.reg? : Location → Option PhysReg
  | .reg p => some p
  | .spill _ => none

namespace Assignment

variable {asg : Assignment}

/-- The registers of the first `n` temporaries, where one that has none counts as `zero`. -/
def registers (asg : Assignment) (n : Nat) : List PhysReg :=
  (List.range n).map fun v => (asg[v]?.bind Location.reg?).getD .zero

theorem length_registers (asg : Assignment) (n : Nat) : (asg.registers n).length = n := by
  simp [registers]

theorem getElem?_registers {n v : Nat} {p : PhysReg} (hv : v < n) (h : asg[v]? = some (.reg p)) :
    (asg.registers n)[v]? = some p := by
  simp [registers, hv, h, Location.reg?]

theorem place_registers {n v : Nat} {p : PhysReg} (hv : v < n) (h : asg[v]? = some (.reg p)) :
    (Reg.virt v).place (asg.registers n) = .phys p := by
  rw [Reg.place, getElem?_registers hv h]

/-- An instruction whose temporaries all have registers stays one instruction. -/
theorem applyInstr_of_no_spill {n : Nat} {i : Instr}
    (hregs : ∀ v ∈ i.op.virts, v < n ∧ ∃ p, asg[v]? = some (.reg p)) :
    asg.applyInstr i =
      [.instr ⟨i.op.mapRegs (·.place (asg.registers n)) (·.place (asg.registers n)),
      i.comment⟩] := by
  have hspill {v : Nat} (hv : v ∈ i.op.virts) : asg.spillOf? v = none := by
    obtain ⟨-, p, hp⟩ := hregs v hv
    rw [spillOf?, hp]
  have hreloads : asg.reloads i.op = [] := by
    have hfilter : (i.op.virtUses.filter fun v => (asg.spillOf? v).isSome) = [] := by
      refine List.filter_eq_nil_iff.mpr fun v hv => ?_
      rw [hspill (List.mem_append_right _ hv)]
      exact Bool.false_ne_true
    rw [reloads, hfilter]
    rfl
  have hspills : asg.spillItems i.op = [] := by
    unfold spillItems
    split
    · rename_i v hv
      rw [hspill (List.mem_append_left _ (Option.mem_toList.mpr hv))]
    · rfl
  have hsource : ∀ r ∈ i.op.uses, asg.source [] r = r.place (asg.registers n) := by
    intro r hr
    cases r with
    | phys p => rfl
    | virt v =>
      obtain ⟨hlt, p, hp⟩ := hregs v (Op.mem_virts_iff.mpr (List.mem_append_right _ hr))
      rw [place_registers hlt hp, source, hp]
  have htarget : ∀ r ∈ i.op.def?, asg.target r = r.place (asg.registers n) := by
    intro r hr
    cases r with
    | phys p => rfl
    | virt v =>
      obtain ⟨hlt, p, hp⟩ :=
        hregs v (Op.mem_virts_iff.mpr (List.mem_append_left _ (Option.mem_toList.mpr hr)))
      rw [place_registers hlt hp, target, hp]
  rw [applyInstr, hreloads, hspills, Op.mapRegs_congr hsource htarget]
  rfl

theorem apply_of_no_spill {n : Nat} {items : List Item}
    (hregs : ∀ i ∈ instrs items, ∀ v ∈ i.op.virts, v < n ∧ ∃ p, asg[v]? = some (.reg p)) :
    asg.apply items = items.map (Item.place (asg.registers n)) := by
  rw [apply, List.map_eq_flatMap]
  refine List.flatMap_congr fun x hx => ?_
  cases x with
  | label l => rfl
  | instr i => exact applyInstr_of_no_spill (hregs i (mem_instrs.mpr hx))

end Assignment

namespace Allocation

variable {items : List Item} {pool : List PhysReg} {base : Int32} {function : String}
  {alloc : Allocation}

/-- A temporary that an instruction mentions has a location. -/
theorem Locates.placed_of_mem {asg : Assignment} (h : Locates items pool asg) {i : Instr}
    (hi : i ∈ instrs items) {v : Nat} (hv : v ∈ i.op.virts) : ∃ loc, asg[v]? = some loc := by
  obtain ⟨k, hk⟩ := List.mem_iff_getElem?.mp hi
  refine h.placed (List.getElem?_eq_some_iff.mp hk).1 ?_
  have ho := FlowGraph.getElem?_ops items k
  rw [hk] at ho
  rw [Interval.occupants, ho, Std.ExtTreeSet.mem_union_iff, Std.ExtTreeSet.mem_ofList,
    List.contains_iff_mem]
  exact .inr hv

/-- An allocation in which every temporary has a register puts these in place of temporaries, and
does nothing else. -/
theorem items_of_no_spill (h : allocate items pool base function = .ok alloc) {n : Nat}
    (hregs : ∀ i ∈ instrs items, ∀ v ∈ i.op.virts,
      v < n ∧ ∃ r, alloc.assignment[v]? = some (.reg r)) :
    alloc.items = items.map (Item.place (alloc.assignment.registers n)) := by
  obtain ⟨final, -, -, hitems⟩ := allocate_eq_ok h
  rw [hitems, Assignment.apply_of_no_spill hregs]

end Allocation

/-! ## Units -/

namespace Function

variable {table : SymbolTable} {comments : Bool} {body : List Stmt} {pool : ConstantPool}
  {u : Option Nat}

/-- The allocating mode makes the body `b` of the draft `d` of a unit with the allocation `alloc`,
which spills nothing. The list `regs` has a register of the pool for each temporary that the draft
mentions, and the items of the body are those of the draft with these registers in place. -/
structure Unspilled (settings : CodegenSettings) (table : SymbolTable) (u : Option Nat)
    (d : Draft.Result Unit) (b : Body) (alloc : Allocation) (regs : List PhysReg) : Prop where
  allocated : Allocation.allocate (Body.draftItems d.events) settings.pool
    (frameOf table u).spillBase (frameOf table u).name = .ok alloc
  body : b = ⟨alloc.items, alloc.spillSlots, alloc.used⟩
  slots : alloc.spillSlots = 0
  items : List.Forall₂ (Item.PlacedAs regs) (Body.draftItems d.events) b.items
  registers : ∀ i ∈ instrs (Body.draftItems d.events), ∀ v ∈ i.op.virts,
    ∃ r ∈ settings.pool, regs[v]? = some r

/-- Where the direct mode makes a body of a draft, the allocating mode makes one that spills
nothing. -/
theorem bodyOf_allocating {size : Nat} {b : Body}
    (h : bodyOf (direct comments size) table u (draftOf table comments body pool u) = .ok b) :
    ∃ b' alloc regs,
      bodyOf (allocating comments size) table u (draftOf table comments body pool u) = .ok b' ∧
      Unspilled (allocating comments size) table u (draftOf table comments body pool u) b' alloc
        regs := by
  obtain ⟨⟨items, final⟩, hrun, hrest⟩ := bind_eq_ok_iff.mp h
  obtain ⟨⟨⟩, hvalue, -⟩ := bind_eq_ok_iff.mp hrest
  have hn := (draftOf_traced hvalue).nested
  obtain ⟨L, -, -, hfilled⟩ := draftOf_follows hvalue
  have hnodup := (allocating comments size).nodup_pool
  obtain ⟨alloc, halloc, hslots, hnone⟩ := Allocation.allocate_of_supply hfilled hn hnodup hrun
    (frameOf table u).spillBase (frameOf table u).name
  have hlocates := Allocation.locates_of_allocate hnodup (allocating comments size).pool_subset
    halloc
  have hvirts : ∀ i ∈ instrs (Body.draftItems (draftOf table comments body pool u).events),
      ∀ v ∈ i.op.virts, v < (draftOf table comments body pool u).state.temps := by
    intro i hi v hv
    exact hn.virts_lt (fun t ht => absurd ht List.not_mem_nil) i
      (Body.mem_draftItems.mp (mem_instrs.mp hi)) v hv
  have hregs : ∀ i ∈ instrs (Body.draftItems (draftOf table comments body pool u).events),
      ∀ v ∈ i.op.virts, ∃ r ∈ (allocating comments size).pool,
        alloc.assignment[v]? = some (.reg r) := by
    intro i hi v hv
    obtain ⟨loc, hloc⟩ := hlocates.placed_of_mem hi hv
    cases loc with
    | reg r => exact ⟨r, hlocates.wellPlaced.reg hloc, hloc⟩
    | spill o => exact absurd hloc (hnone v o)
  refine ⟨⟨alloc.items, alloc.spillSlots, alloc.used⟩, alloc,
    alloc.assignment.registers (draftOf table comments body pool u).state.temps, ?_,
    ⟨halloc, rfl, hslots, ?_, fun i hi v hv => ?_⟩⟩
  · show ((draftOf table comments body pool u).value >>= _) = _
    rw [hvalue]
    show (Allocation.allocate _ _ _ _ >>= _) = _
    rw [halloc]
    rfl
  · show List.Forall₂ _ _ alloc.items
    rw [Allocation.items_of_no_spill halloc fun i hi v hv =>
      ⟨hvirts i hi v hv, (hregs i hi v hv).imp fun r hr => hr.2⟩]
    refine Item.forall₂_placedAs fun i hi v hv => ?_
    rw [Assignment.length_registers]
    exact hvirts i (mem_instrs.mpr hi) v hv
  · obtain ⟨r, hr, hloc⟩ := hregs i hi v hv
    exact ⟨r, hr, Assignment.getElem?_registers (hvirts i hi v hv) hloc⟩

/-- A body that spills nothing does not mention the scratch registers. -/
theorem Unspilled.not_scratch {settings : CodegenSettings} {b : Body} {alloc : Allocation}
    {regs : List PhysReg} (hvalue : (draftOf table comments body pool u).value = .ok ())
    (h : Unspilled settings table u (draftOf table comments body pool u) b alloc regs) {i : Instr}
    (hi : i ∈ instrs b.items) {r : PhysReg} (hr : r ∈ PhysReg.scratch) : .phys r ∉ i.op.regs := by
  have hother : ∀ q ∈ PhysReg.scratch, q.plain = false ∧ q ∉ PhysReg.allocatable := by decide
  intro hmem
  obtain ⟨k, hk, hget⟩ := List.mem_iff_getElem.mp (mem_instrs.mp hi)
  obtain ⟨hlen, hplaced⟩ := List.forall₂_iff_get.mp h.items
  have hplaced := hplaced k (hlen ▸ hk) hk
  rw [List.get_eq_getElem, List.get_eq_getElem, hget] at hplaced
  have hx := List.getElem_mem (hlen ▸ hk)
  generalize (Body.draftItems (draftOf table comments body pool u).events)[k] = x at hplaced hx
  cases hplaced with
  | instr j taken =>
    rw [Op.regs_mapRegs fun p => rfl] at hmem
    obtain ⟨q, hq, heq⟩ := List.mem_map.mp hmem
    cases q with
    | phys p =>
      cases heq
      have hplain := ((draftOf_traced hvalue).plain j (Body.mem_draftItems.mp hx)).1 r hq
      rw [(hother r hr).1] at hplain
      cases hplain
    | virt v =>
      obtain ⟨p, hp, hget⟩ := h.registers j (mem_instrs.mpr hx) v (Op.mem_virts_iff.mpr hq)
      rw [Reg.place, hget] at heq
      cases heq
      exact (hother r hr).2 (settings.pool_subset r hp)

end Function

/-! ## Programs -/

/-- The program `p` compiles in the allocating mode to `b`, and nothing is spilled: not in the top
level or in any function, and no instruction of the text moves a spilled temporary. -/
structure SpillsNothing (p : Program) (comments : Bool) (size : Nat) (b : Assembly)
    (table : SymbolTable) (bodies : List Body) (payload : Int32) : Prop where
  compiled : CompiledAs p (allocating comments size) b table bodies payload
  units : List.Forall₂ (fun (ud : Option Nat × Draft.Result Unit) body =>
      ∃ alloc regs, Function.Unspilled (allocating comments size) table ud.1 ud.2 body alloc regs)
    (Function.programDrafts p comments table) bodies
  moves : ∀ i ∈ instrs b.text, ¬ i.op.SpillMove
  scratch : ∀ i ∈ instrs b.text, ∀ r ∈ PhysReg.scratch, .phys r ∉ i.op.regs

theorem Op.SpillMove.scratch {o : Op Label} (h : o.SpillMove) :
    ∃ r ∈ PhysReg.scratch, .phys r ∈ o.regs := by
  cases h with
  | reload hp offset => exact ⟨_, hp, List.mem_cons_self⟩
  | spill offset => exact ⟨.t5, by decide, List.mem_cons_of_mem _ List.mem_cons_self⟩

/-- Where no unit spills anything, no instruction mentions a scratch register. -/
theorem CompiledAs.not_scratch {p : Program} {settings : CodegenSettings} {b : Assembly}
    {table : SymbolTable} {bodies : List Body} {payload : Int32}
    (h : CompiledAs p settings b table bodies payload)
    (hunits : List.Forall₂ (fun (ud : Option Nat × Draft.Result Unit) body =>
      ∃ alloc regs, Function.Unspilled settings table ud.1 ud.2 body alloc regs)
      (Function.programDrafts p settings.comments table) bodies) :
    ∀ i ∈ instrs b.text, ∀ r ∈ PhysReg.scratch, .phys r ∉ i.op.regs := by
  intro i hi r hr hmem
  obtain ⟨u, d, body, hb, hi⟩ := h.body_of_scratch hi hr hmem
  obtain ⟨-, hbody, pool, hd⟩ := h.body_eq_ok hb
  obtain ⟨alloc, regs, hunit⟩ := (List.forall₂_iff_zip.mp hunits).2 hb
  dsimp only at hbody hd hunit
  rw [hd] at hbody hunit
  exact hunit.not_scratch (Body.ofDraft_labels hbody).1 hi hr hmem

/-- **Both modes need the same registers.** If the direct mode compiles a program with a pool of
some size, the allocating mode compiles it too with a pool of that size, and spills nothing. -/
theorem allocating_spills_nothing {p : Program} {comments : Bool} {size : Nat} {a : Assembly}
    (h : compile p (direct comments size) = .ok a) :
    ∃ b table bodies payload, compile p (allocating comments size) = .ok b ∧
      SpillsNothing p comments size b table bodies payload := by
  rw [compile_eq_lower] at h
  obtain ⟨⟨table, text, pool⟩, hl, h⟩ := bind_eq_ok_iff.mp h
  obtain ⟨⟨routines, pool'⟩, hr, -⟩ := bind_eq_ok_iff.mp h
  obtain ⟨ht, hpool, bodies, hbodies, -⟩ := lower_eq_ok hl
  -- Each unit has a body in the allocating mode as well.
  have hunits : ∃ bodies', List.Forall₂ (fun (ud : Option Nat × Draft.Result Unit) b' =>
      Function.bodyOf (allocating comments size) table ud.1 ud.2 = .ok b' ∧
        ∃ alloc regs, Function.Unspilled (allocating comments size) table ud.1 ud.2 b' alloc regs)
      (Function.programDrafts p comments table) bodies' := by
    refine exists_forall₂ hbodies fun ud hud b hb => ?_
    obtain ⟨pool₀, hd⟩ := Function.mem_drafts hud
    rw [hd] at hb ⊢
    obtain ⟨b', alloc, regs, hb', hunit⟩ := Function.bodyOf_allocating hb
    exact ⟨b', hb', alloc, regs, hunit⟩
  obtain ⟨bodies', hunits⟩ := hunits
  obtain ⟨text', pool'', hl'⟩ := lower_of_bodies ht (hunits.imp fun _ _ hub => hub.1)
  obtain rfl : pool'' = pool := (lower_same hl' hl rfl).2
  have hb : compile p (allocating comments size) =
      .ok ⟨text' ++ routines, DataSegment.all table pool'⟩ := by
    rw [compile_eq_lower, hl']
    show (Routine.all table pool'' >>= _) = _
    rw [hr]
    rfl
  obtain ⟨table', bodies'', payload, hc⟩ := compile_eq_ok hb
  obtain rfl : table' = table := Except.ok.inj (hc.symbols.symm.trans ht)
  obtain rfl : bodies'' = bodies' := Except.ok.inj ((mapM_eq_ok_iff.mpr hc.made).symm.trans
    (mapM_eq_ok_iff.mpr (hunits.imp fun _ _ hub => hub.1)))
  have hscratch := hc.not_scratch (hunits.imp fun _ _ hub => hub.2)
  refine ⟨_, table', bodies'', payload, hb, hc, hunits.imp fun _ _ hub => hub.2, ?_, hscratch⟩
  intro i hi hmove
  obtain ⟨r, hr, hmem⟩ := hmove.scratch
  exact hscratch i hi r hr hmem

/-- The loop `for x in [1, 2]: n = n + (x if n < x else n - x)`. At its deepest place six
temporaries are held. -/
def loopedChoice : Program :=
  let int (n : Int32) : Expr := .int ⟨{}, .int⟩ n
  let n : Expr := .name ⟨{}, .int⟩ "n"
  let x : Expr := .name ⟨{}, .int⟩ "x"
  { decls := [.var {} ⟨"n", .int⟩ (.int 0), .var {} ⟨"x", .int⟩ (.int 0)]
    body := [.forEach {} "x" (.list ⟨{}, .list .int⟩ [int 1, int 2])
      [.assign {} [n] (.binary ⟨{}, .int⟩ n .add
        (.cond ⟨{}, .int⟩ (.binary ⟨{}, .bool⟩ n .lt x) x (.binary ⟨{}, .int⟩ n .sub x)))]] }

/-- The loop is compiled with six registers, and not with five. -/
theorem loopedChoice_spills_nothing :
    (compile loopedChoice (direct true 5)).toOption = none ∧
      ∃ a, compile loopedChoice (direct true 6) = .ok a ∧
        ∃ b table bodies payload, compile loopedChoice (allocating true 6) = .ok b ∧
          SpillsNothing loopedChoice true 6 b table bodies payload := by
  have hfive : (compile loopedChoice (direct true 5)).toOption.isNone = true := by decide +kernel
  have hsix : (compile loopedChoice (direct true 6)).toOption.isSome = true := by decide +kernel
  obtain ⟨a, ha⟩ := Option.isSome_iff_exists.mp hsix
  have ha := toOption_eq_some_iff.mp ha
  exact ⟨Option.isNone_iff_eq_none.mp hfive, a, ha, allocating_spills_nothing ha⟩

end ChocoRV
