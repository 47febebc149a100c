import Mathlib
import ChocoRV.Proofs.Alloc.Interference
import ChocoRV.Proofs.Alloc.Places
import ChocoRV.Asm.Listing

/-!
# No temporary is left

Allocation replaces every item of a stream by a few (`Assignment.Replaces`): a label by itself, an
instruction by one of the same shape with loads of spilled operands before it and the store of a
spilled result after it. Every temporary of the stream has a location, whatever the pool, so none is
left. The direct mode grants a register to each temporary. So no instruction of a compiled program
mentions a temporary, and every compiled program has a listing
(`allocation_eliminates_temporaries`).
-/

namespace ChocoRV

open Assembly

/-! ## Every temporary is placed -/

/-- Allocation gives a location to every temporary of the stream, also from a pool that is empty or
has repetitions. -/
theorem Allocation.placed_of_mentions {items : List Item} {pool : List PhysReg} {base : Int32}
    {function : String} {alloc : Allocation} (h : allocate items pool base function = .ok alloc)
    {v : Nat} (hv : Mentions items v) : ∃ loc, alloc.assignment[v]? = some loc := by
  obtain ⟨i, hi, rfl⟩ := Interval.mentions_iff.mp hv
  exact (handed_of_allocate h).placed i (List.mem_reverse.mpr hi)

/-! ## What becomes of an instruction -/

/-- The second operand stands for the first: a register stays as it is. -/
def Reg.Stays (r r' : Reg) : Prop := ∀ p, r = .phys p → r' = .phys p

/-- Two operations differ in their temporaries only: opcode, constant, target and all operands that
are registers are the same. -/
structure Op.SameShape (o o' : Op Label) : Prop where
  opcode : o'.mnemonic = o.mnemonic
  imm : o'.imm? = o.imm?
  target : o'.target? = o.target?
  uses : List.Forall₂ Reg.Stays o.uses o'.uses
  def? : Option.Rel Reg.Stays o.def? o'.def?

theorem Op.sameShape_mapRegs {src dst : Reg → Reg} (hsrc : ∀ p, src (.phys p) = .phys p)
    (hdst : ∀ p, dst (.phys p) = .phys p) (o : Op Label) : o.SameShape (o.mapRegs src dst) := by
  have huse (r : Reg) : r.Stays (src r) := by
    rintro p rfl
    exact hsrc p
  have hdef (r : Reg) : r.Stays (dst r) := by
    rintro p rfl
    exact hdst p
  have hsame (r : Reg) : r.Stays r := fun p hp => hp
  cases o with
  | alu op rd a b => exact ⟨rfl, rfl, rfl, .cons (huse a) (.cons (huse b) .nil), .some (hdef rd)⟩
  | aluImm op rd a n => exact ⟨rfl, rfl, rfl, .cons (huse a) .nil, .some (hdef rd)⟩
  | shift op rd a k => exact ⟨rfl, rfl, rfl, .cons (huse a) .nil, .some (hdef rd)⟩
  | li rd n => exact ⟨rfl, rfl, rfl, .nil, .some (hdef rd)⟩
  | la rd l => exact ⟨rfl, rfl, rfl, .nil, .some (hdef rd)⟩
  | unary op rd a => exact ⟨rfl, rfl, rfl, .cons (huse a) .nil, .some (hdef rd)⟩
  | load w rd a n => exact ⟨rfl, rfl, rfl, .cons (huse a) .nil, .some (hdef rd)⟩
  | store w a base n => exact ⟨rfl, rfl, rfl, .cons (huse base) (.cons (huse a) .nil), .none⟩
  | jump l => exact ⟨rfl, rfl, rfl, .nil, .none⟩
  | call l => exact ⟨rfl, rfl, rfl, .nil, .some (hsame .ra)⟩
  | callReg a => exact ⟨rfl, rfl, rfl, .cons (huse a) .nil, .some (hsame .ra)⟩
  | jumpReg a => exact ⟨rfl, rfl, rfl, .cons (huse a) .nil, .none⟩
  | branch c a b l => exact ⟨rfl, rfl, rfl, .cons (huse a) (.cons (huse b) .nil), .none⟩
  | branchZero c a l => exact ⟨rfl, rfl, rfl, .cons (huse a) .nil, .none⟩
  | ecall => exact ⟨rfl, rfl, rfl, .nil, .none⟩

/-- With registers in place of all operands no temporary is left. -/
theorem Op.hasVirt_mapRegs {src dst : Reg → Reg} {o : Op Label} (hra : dst .ra = .ra)
    (hsrc : ∀ r ∈ o.uses, ∃ p, src r = .phys p) (hdst : ∀ r ∈ o.def?, ∃ p, dst r = .phys p) :
    (o.mapRegs src dst).hasVirt = false := by
  rw [hasVirt_eq_false_iff]
  intro v hv
  rcases List.mem_append.mp hv with hv | hv
  · obtain ⟨r, hr, heq⟩ := def?_mapRegs (Option.mem_toList.mp hv) hra
    obtain ⟨p, hp⟩ := hdst r hr
    rw [hp] at heq
    cases heq
  · rw [uses_mapRegs] at hv
    obtain ⟨r, hr, heq⟩ := List.mem_map.mp hv
    obtain ⟨p, hp⟩ := hsrc r hr
    rw [hp] at heq
    cases heq

/-- An instruction that writes a temporary goes on with the next one. -/
theorem Op.flow_of_def {o : Op Label} {v : Nat} (h : o.def? = some (.virt v)) : o.flow = .next := by
  cases o with
  | jump | jumpReg | branch | branchZero => cases h
  | alu | aluImm | shift | li | la | unary | load | store | call | callReg | ecall => rfl

namespace Assignment

/-- The load of a spilled temporary into a scratch register. -/
def loadOf (e : Nat × PhysReg × Int32) : Item :=
  .noted (.lw (.phys e.2.1) .fp e.2.2) ("reload " ++ (Reg.virt e.1).text)

/-- The stores after an operation: that of a spilled result, and then the operation goes on with the
next instruction. -/
inductive StoresAfter (asg : Assignment) (o : Op Label) : List Item → Prop
  | none : StoresAfter asg o []
  | spill {v : Nat} {offset : Int32} (hdef : o.def? = some (.virt v))
      (hloc : asg[v]? = some (.spill offset)) (hflow : o.flow = .next) :
      StoresAfter asg o [.noted (.sw .t5 .fp offset) ("spill " ++ (Reg.virt v).text)]

/-- What an item is replaced by. Before an instruction come loads of the spilled temporaries that it
reads, all of them, into different scratch registers. -/
inductive Replaces (asg : Assignment) : Item → List Item → Prop
  | label (l : Label) : Replaces asg (.label l) [.label l]
  | instr {i i' : Instr} {loads : List (Nat × PhysReg × Int32)} {stores : List Item}
      (hshape : i.op.SameShape i'.op) (hcomment : i'.comment = i.comment) (htwo : loads.length ≤ 2)
      (hloads : ∀ e ∈ loads, .virt e.1 ∈ i.op.uses ∧ asg[e.1]? = some (.spill e.2.2) ∧
        (e.2.1 = .t5 ∨ e.2.1 = .t6))
      (hdistinct : (loads.map (·.2.1)).Nodup)
      (hall : ∀ (v : Nat) (o : Int32), .virt v ∈ i.op.uses → asg[v]? = some (.spill o) →
        ∃ e ∈ loads, e.1 = v)
      (hstores : StoresAfter asg i.op stores) :
      Replaces asg (.instr i) (loads.map loadOf ++ .instr i' :: stores)

variable {asg : Assignment} {i : Instr}

theorem storesAfter_spillItems (asg : Assignment) (o : Op Label) :
    StoresAfter asg o (asg.spillItems o) := by
  unfold spillItems
  split
  · rename_i v hv
    have hdef := Op.virtDef?_eq_some_iff.mp hv
    split
    · rename_i offset ho
      exact .spill hdef (spillOf?_eq_some_iff.mp ho) (Op.flow_of_def hdef)
    · exact .none
  · exact .none

theorem mem_reloads_cases {o : Op Label} {e : Nat × PhysReg} (he : e ∈ asg.reloads o) :
    .virt e.1 ∈ o.uses ∧ asg[e.1]? = some (.spill ((asg.spillOf? e.1).getD 0)) ∧
      e.2 ∈ PhysReg.scratch := by
  obtain ⟨hv, hp⟩ := List.of_mem_zip he
  rw [List.mem_eraseDups, List.mem_filter] at hv
  obtain ⟨o, ho⟩ := Option.isSome_iff_exists.mp hv.2
  refine ⟨Op.mem_virtUses_iff.mp hv.1, ?_, hp⟩
  rw [ho]
  exact spillOf?_eq_some_iff.mp ho

theorem replaces_applyItem (asg : Assignment) (x : Item) : Replaces asg x (asg.applyItem x) := by
  cases x with
  | label l => exact .label l
  | instr i =>
    have hloads : (asg.reloads i.op).map asg.reloadItem =
        ((asg.reloads i.op).map fun e => (e.1, e.2, (asg.spillOf? e.1).getD 0)).map loadOf := by
      rw [List.map_map]
      rfl
    rw [applyItem, applyInstr, hloads]
    refine .instr (Op.sameShape_mapRegs (fun p => rfl) (fun p => rfl) i.op) rfl ?_ ?_ ?_ ?_
      (storesAfter_spillItems asg i.op)
    · rw [List.length_map, reloads, List.length_zip]
      exact Nat.min_le_right _ _
    · intro e he
      obtain ⟨e', he', rfl⟩ := List.mem_map.mp he
      obtain ⟨huse, hloc, hp⟩ := mem_reloads_cases he'
      exact ⟨huse, hloc, List.mem_pair.mp hp⟩
    · rw [List.map_map]
      exact (map_snd_zip_sublist _ _).nodup (by decide)
    · intro v o hv hloc
      have hspill : (asg.spillOf? v).isSome := by
        rw [spillOf?_eq_some_iff.mpr hloc]
        rfl
      obtain ⟨e, he, rfl⟩ := List.mem_map.mp (mem_reloads (Op.mem_virtUses_iff.mpr hv) hspill)
      exact ⟨_, List.mem_map_of_mem he, rfl⟩

/-- An instruction whose temporaries all have locations leaves none of them. -/
theorem hasVirt_of_mem_applyInstr
    (hplaced : ∀ v : Nat, .virt v ∈ i.op.regs → ∃ loc, asg[v]? = some loc) :
    ∀ j ∈ instrs (asg.applyInstr i), j.op.hasVirt = false := by
  intro j hj
  rw [applyInstr, instrs_append, instrs_cons_instr, List.mem_append, List.mem_cons] at hj
  rcases hj with hj | rfl | hj
  · obtain ⟨e, he, heq⟩ := List.mem_map.mp (mem_instrs.mp hj)
    cases heq
    rfl
  · refine Op.hasVirt_mapRegs rfl (fun r hr => ?_) fun r hr => ?_
    · cases r with
      | phys p => exact ⟨p, rfl⟩
      | virt v =>
        obtain ⟨loc, hloc⟩ := hplaced v (List.mem_append_right _ hr)
        cases loc with
        | reg p => exact ⟨p, by rw [source, hloc]⟩
        | spill o =>
          have hspill : (asg.spillOf? v).isSome := by
            rw [spillOf?_eq_some_iff.mpr hloc]
            rfl
          obtain ⟨e, he, hev⟩ := List.mem_map.mp (mem_reloads (Op.mem_virtUses_iff.mpr hr) hspill)
          have hsome : ((asg.reloads i.op).lookup v).isSome :=
            List.lookup_isSome_iff.mpr ⟨e, he, beq_iff_eq.mpr hev.symm⟩
          obtain ⟨p, hp⟩ := Option.isSome_iff_exists.mp hsome
          exact ⟨p, by simp only [source, hloc, hp]⟩
    · cases r with
      | phys p => exact ⟨p, rfl⟩
      | virt v =>
        obtain ⟨loc, hloc⟩ :=
          hplaced v (List.mem_append_left _ (Option.mem_toList.mpr hr))
        cases loc with
        | reg p => exact ⟨p, by rw [target, hloc]⟩
        | spill o => exact ⟨.t5, by rw [target, hloc]⟩
  · generalize hstores : asg.spillItems i.op = stores at hj
    cases hstores ▸ storesAfter_spillItems asg i.op with
    | none => exact absurd hj List.not_mem_nil
    | spill =>
      cases List.mem_singleton.mp hj
      rfl

theorem hasVirt_of_mem_apply {items : List Item}
    (hplaced : ∀ i ∈ instrs items, ∀ v : Nat, .virt v ∈ i.op.regs → ∃ loc, asg[v]? = some loc) :
    ∀ j ∈ instrs (asg.apply items), j.op.hasVirt = false := by
  intro j hj
  rw [instrs_apply] at hj
  obtain ⟨i, hi, hj⟩ := List.mem_flatMap.mp hj
  exact hasVirt_of_mem_applyInstr (hplaced i hi) j hj

end Assignment

/-! ## Allocated streams -/

namespace Allocation

variable {items : List Item} {pool : List PhysReg} {base : Int32} {function : String}
  {alloc : Allocation}

theorem hasVirt_of_mem_items (h : allocate items pool base function = .ok alloc) :
    ∀ j ∈ instrs alloc.items, j.op.hasVirt = false := by
  obtain ⟨final, -, -, hitems⟩ := allocate_eq_ok h
  rw [hitems]
  exact Assignment.hasVirt_of_mem_apply fun i hi v hv => placed_of_mentions h ⟨i, hi, hv⟩

theorem exists_blocks (h : allocate items pool base function = .ok alloc) :
    ∃ blocks, alloc.items = blocks.flatten ∧
      List.Forall₂ alloc.assignment.Replaces items blocks := by
  obtain ⟨final, -, -, hitems⟩ := allocate_eq_ok h
  refine ⟨items.map alloc.assignment.applyItem, ?_, ?_⟩
  · rw [hitems, Assignment.apply, List.flatMap_def]
  · rw [List.forall₂_map_right_iff]
    exact List.forall₂_same.mpr fun x _ => Assignment.replaces_applyItem _ x

end Allocation

/-! ## Compiled programs -/


/-- Frames are made of registers. -/
theorem Frame.hasVirt_of_mem {f : Frame} (exit : Label) {i : Instr}
    (h : i ∈ instrs f.prologue ∨ i ∈ instrs (f.epilogue exit)) : i.op.hasVirt = false := by
  have hfixed {is : List Instr} (his : is.all (!·.op.hasVirt) = true) (hi : i ∈ is) :
      i.op.hasVirt = false := by
    simpa using List.all_eq_true.mp his i hi
  cases htop : f.isTopLevel with
  | true =>
    rcases h with h | h
    · rw [prologue, htop] at h
      exact hfixed rfl h
    · rw [epilogue, htop] at h
      exact hfixed rfl h
  | false =>
    rcases h with h | h
    · rw [instrs_prologue htop] at h
      change i ∈ [_, _, _, _] ++ RegSlots.stores .fp (f.homed ++ f.kept) at h
      rcases List.mem_append.mp h with h | h
      · exact hfixed rfl h
      · obtain ⟨q, hq, rfl⟩ := List.mem_map.mp h
        rfl
    · rw [instrs_epilogue htop] at h
      rcases List.mem_append.mp h with h | h
      · obtain ⟨q, hq, rfl⟩ := List.mem_map.mp h
        rfl
      · exact hfixed rfl h

theorem Routine.hasVirt_of_mem_items {m : Messages} {payload : Int32} :
    ∀ i ∈ instrs (items m payload), i.op.hasVirt = false := by
  intro i hi
  rw [Op.hasVirt_eq_false_iff]
  intro v hv
  obtain ⟨p, -, heq⟩ := named_items m payload i hi _ hv
  cases heq

/-- No instruction of a compiled program mentions a temporary. -/
theorem CompiledAs.hasVirt_of_mem_text {p : Program} {settings : CodegenSettings} {a : Assembly}
    {table : SymbolTable} {bodies : List Body} {payload : Int32}
    (h : CompiledAs p settings a table bodies payload) :
    ∀ i ∈ instrs a.text, i.op.hasVirt = false := by
  intro i hi
  rw [h.text, instrs_append, ← List.map_uncurry_zip_eq_zipWith] at hi
  rcases List.mem_append.mp hi with hi | hi
  · obtain ⟨items, hitems, hi⟩ := List.mem_flatten.mp (mem_instrs.mp hi)
    obtain ⟨⟨⟨u, d⟩, b⟩, hb, rfl⟩ := List.mem_map.mp hitems
    have hi : i ∈ instrs (Function.wrap table u b) := mem_instrs.mpr hi
    rw [Function.wrap, instrs_append, List.cons_append, instrs_cons_label, instrs_append,
      List.mem_append, List.mem_append] at hi
    rcases hi with (hi | hi) | hi
    · exact Frame.hasVirt_of_mem (.nth (Function.entryOf table u).name 0) (.inl hi)
    · obtain ⟨asg, hplaces⟩ := h.exists_places hb
      rw [hplaces.items] at hi
      exact Assignment.hasVirt_of_mem_apply (fun i hi v hv =>
        hplaces.locates.placed_of_mem hi (Op.mem_virts_iff.mpr hv)) i hi
    · exact Frame.hasVirt_of_mem _ (.inr hi)
  · exact Routine.hasVirt_of_mem_items i hi

/-- A program without temporaries has a listing. -/
theorem Assembly.exists_render {a : Assembly} (h : ∀ i ∈ instrs a.text, i.op.hasVirt = false) :
    ∃ text, a.render = .ok text := by
  have hlines : ∀ x ∈ a.text, ∃ ls, Listing.itemLines x = .ok ls := by
    intro x hx
    cases x with
    | label l => exact ⟨_, rfl⟩
    | instr i =>
      refine ⟨[Listing.instrLine i], ?_⟩
      rw [Listing.itemLines, h i (mem_instrs.mpr hx)]
      rfl
  obtain ⟨ls, hls⟩ := mapM_ok_iff.mpr hlines
  exact ⟨_, bind_eq_ok_iff.mpr ⟨_, bind_eq_ok_iff.mpr ⟨ls, hls, rfl⟩, rfl⟩⟩

/-- **Allocation eliminates the temporaries and nothing else.** Whatever the stream and the pool,
no instruction of an allocated stream mentions a temporary, and the stream is the old one with
each item replaced as `Assignment.Replaces` says. Every compiled program can be listed, in either
mode. -/
theorem allocation_eliminates_temporaries :
    (∀ {items : List Item} {pool : List PhysReg} {base : Int32} {function : String}
      {alloc : Allocation}, Allocation.allocate items pool base function = .ok alloc →
      (∀ i ∈ instrs alloc.items, i.op.hasVirt = false) ∧
        ∃ blocks, alloc.items = blocks.flatten ∧
          List.Forall₂ alloc.assignment.Replaces items blocks) ∧
    ∀ {p : Program} {settings : CodegenSettings} {a : Assembly}, compile p settings = .ok a →
      ∃ text, a.render = .ok text := by
  refine ⟨fun h => ⟨Allocation.hasVirt_of_mem_items h, Allocation.exists_blocks h⟩, fun h => ?_⟩
  obtain ⟨table, bodies, payload, hcompiled⟩ := compile_eq_ok h
  exact Assembly.exists_render hcompiled.hasVirt_of_mem_text

/-- A sum whose operands and result all live in the frame. -/
def spilledSum : List Item :=
  [.op (.li (.virt 0) 1), .op (.li (.virt 1) 2), .noted (.add (.virt 2) (.virt 0) (.virt 1)) "sum",
    .label (.nth "f" 0), .op (.mv .a0 (.virt 2))]

/-- Without registers the sum stands after two loads. With a pool of one register, three times,
nothing is spilled. The program of nested sums can be listed. -/
theorem spilledSum_eliminated :
    (∃ alloc blocks, Allocation.allocate spilledSum [] (-12) "f" = .ok alloc ∧
      alloc.items[4]? = some (.noted (.lw .t5 .fp (-12)) "reload %v0") ∧
      alloc.items[6]? = some (.noted (.add .t5 .t5 .t6) "sum") ∧
      (∀ i ∈ instrs alloc.items, i.op.hasVirt = false) ∧ alloc.items = blocks.flatten ∧
      List.Forall₂ alloc.assignment.Replaces spilledSum blocks) ∧
    (∃ alloc, Allocation.allocate spilledSum [.s1, .s1, .s1] (-12) "f" = .ok alloc ∧
      alloc.spillSlots = 0 ∧ ∀ i ∈ instrs alloc.items, i.op.hasVirt = false) ∧
    ∃ a text, compile nestedSums (allocating true 0) = .ok a ∧ a.render = .ok text := by
  have hempty : (Allocation.allocate spilledSum [] (-12) "f").toOption.map
      (fun a => (a.items[4]?, a.items[6]?)) =
        some (some (.noted (.lw .t5 .fp (-12)) "reload %v0"),
          some (.noted (.add .t5 .t5 .t6) "sum")) := by decide +kernel
  have hrepeated : (Allocation.allocate spilledSum [.s1, .s1, .s1] (-12) "f").toOption.map
      (·.spillSlots) = some 0 := by decide +kernel
  have hcompile : (compile nestedSums (allocating true 0)).toOption.isSome = true := by
    decide +kernel
  obtain ⟨alloc, halloc, hitems⟩ := Option.map_eq_some_iff.mp hempty
  obtain ⟨alloc', halloc', hslots⟩ := Option.map_eq_some_iff.mp hrepeated
  obtain ⟨a, ha⟩ := Option.isSome_iff_exists.mp hcompile
  have halloc := toOption_eq_some_iff.mp halloc
  have halloc' := toOption_eq_some_iff.mp halloc'
  have ha := toOption_eq_some_iff.mp ha
  obtain ⟨hfour, hsix⟩ := Prod.mk.inj hitems
  obtain ⟨hnone, blocks, hblocks⟩ := allocation_eliminates_temporaries.1 halloc
  obtain ⟨text, htext⟩ := allocation_eliminates_temporaries.2 ha
  exact ⟨⟨alloc, blocks, halloc, hfour, hsix, hnone, hblocks⟩,
    ⟨alloc', halloc', hslots, (allocation_eliminates_temporaries.1 halloc').1⟩, a, text, ha, htext⟩

end ChocoRV
