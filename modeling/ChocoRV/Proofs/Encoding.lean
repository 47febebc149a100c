import Mathlib
import ChocoRV.Proofs.Alloc.Places
import ChocoRV.Proofs.Call.Observed
import ChocoRV.Proofs.Call.Passing
import ChocoRV.Proofs.Symbol.Offsets

/-!
# Which programs can be encoded

Compiled code consists of frames around bodies and of routines. The operands of twelve bits in it
grow with the frames, with the words of calls, with the attributes and methods of classes and with
the list displays of a program. `SmallParts` bounds all of these, and `encodable_of_smallParts` says
that the code of a program within the bounds can be encoded.

Only one of the bounds is checked by the compiler: the allocator gives no spilled temporary an
offset below the least one of twelve bits. A program that exceeds another one is compiled all the
same, and its code cannot be encoded (`longDisplay_not_encodable`).
-/

namespace ChocoRV

open Assembly

/-! ## Frames -/

namespace Frame

variable {f : Frame}

/-- The number of words that the frame has room for. -/
def room (f : Frame) : Nat :=
  2 + f.locals + f.spillSlots + if f.isTopLevel then 0 else f.saved.length

/-- The size is rounded up to a multiple of 16, so that 508 words are the most for which it is
short. -/
theorem size_bounds (h : f.room ≤ 508) : 0 ≤ f.size.toInt ∧ f.size.toInt ≤ 2032 := by
  have hall : ∀ words ≤ 508, 0 ≤ ((Int32.ofNat words * 4 + 15) / 16 * 16).toInt ∧
      ((Int32.ofNat words * 4 + 15) / 16 * 16).toInt ≤ 2032 := by
    decide +kernel
  exact hall f.room h

theorem short_size (h : f.room ≤ 508) :
    Short f.size ∧ Short (-f.size) ∧ Short (f.size + savedFpOffset) ∧
      Short (f.size + savedRaOffset) := by
  obtain ⟨hlow, hhigh⟩ := size_bounds h
  have hshort (n : Int32) (hn : n.toInt ≤ 0) (hn' : -16 ≤ n.toInt) : Short (f.size + n) := by
    rw [Short, Int32.toInt_add, Int.bmod_eq_of_le (by omega) (by omega)]
    omega
  refine ⟨⟨by omega, by omega⟩, ?_, hshort _ (by decide) (by decide),
    hshort _ (by decide) (by decide)⟩
  rw [Short, Int32.toInt_neg, Int.bmod_eq_of_le (by omega) (by omega)]
  omega

theorem short_of_mem_homed {q : PhysReg × Int32} (h : q ∈ f.homed) : Short q.2 := by
  obtain ⟨⟨r, k⟩, he, rfl⟩ := List.mem_map.mp h
  have hk := (List.getElem?_eq_some_iff.mp (List.mem_zipIdx_iff_getElem?.mp he)).1
  have hargs : PhysReg.args.length ≤ 8 := by decide
  rw [List.length_take] at hk
  exact short_paramOffset (by omega)

theorem short_of_mem_kept (htop : f.isTopLevel = false) (h : f.room ≤ 508) {q : PhysReg × Int32}
    (hq : q ∈ f.kept) : Short q.2 := by
  obtain ⟨r, n⟩ := q
  obtain ⟨k, hk, rfl⟩ := mem_kept_iff.mp hq
  have hlt := (List.getElem?_eq_some_iff.mp hk).1
  rw [room, htop] at h
  simp only [Bool.false_eq_true, if_false] at h
  rw [saveSlot_eq_ofInt]
  exact short_ofInt (by omega) (by omega)

theorem prologue_encodable (h : f.room ≤ 508) : ∀ i ∈ instrs f.prologue, i.op.Encodable := by
  obtain ⟨hsize, hneg, hfp, hra⟩ := short_size h
  cases htop : f.isTopLevel with
  | true => simp [prologue, htop, hsize, hneg, hfp, hra, instrs, Item.noted, Item.instr?]
  | false =>
    rw [instrs_prologue htop]
    have hstores : ∀ i ∈ RegSlots.stores .fp (f.homed ++ f.kept), i.op.Encodable := by
      intro i hi
      obtain ⟨q, hq, rfl⟩ := List.mem_map.mp hi
      rcases List.mem_append.mp hq with hq | hq
      · simpa using short_of_mem_homed hq
      · simpa using short_of_mem_kept htop h hq
    simpa [hsize, hneg, hfp, hra] using hstores

theorem epilogue_encodable (h : f.room ≤ 508) (exit : Label) :
    ∀ i ∈ instrs (f.epilogue exit), i.op.Encodable := by
  cases htop : f.isTopLevel with
  | true =>
    simp only [epilogue, htop, if_true, instrs_cons_label, instrs_cons_instr, instrs_nil]
    simp
  | false =>
    rw [instrs_epilogue htop]
    intro i hi
    rcases List.mem_append.mp hi with hi | hi
    · obtain ⟨q, hq, rfl⟩ := List.mem_map.mp hi
      rcases List.mem_append.mp hq with hq | hq
      · simpa using short_of_mem_kept htop h hq
      · have hra : Short savedRaOffset := by decide
        rw [List.mem_singleton.mp hq]
        simpa using hra
    · have hfp : Short savedFpOffset := by decide
      simp only [List.mem_cons, List.not_mem_nil, or_false] at hi
      rcases hi with rfl | rfl | rfl <;> simp [hfp]

end Frame

/-! ## Drafts -/

/-- Where no room is too large, the instructions of a draft of a small program can be encoded. Room
is made before it is known that it is not too large, so that is carried backwards. -/
theorem Traced.encodable {env : Env} {σ σ' : Draft.Scene} {s s' : Draft.State} {evs : List Event}
    (h : Traced env True σ s evs s' σ') (hrooms : ∀ words ∈ σ'.rooms, words ≤ 511) :
    (∀ words ∈ σ.rooms, words ≤ 511) ∧ ∀ i, .item (.instr i) ∈ evs → i.op.Encodable := by
  induction h with
  | nil | fresh | intern => exact ⟨hrooms, fun i hi => absurd hi List.not_mem_nil⟩
  | append _ _ ih₁ ih₂ =>
    obtain ⟨hrooms₁, h₂⟩ := ih₂ hrooms
    obtain ⟨hrooms₀, h₁⟩ := ih₁ hrooms₁
    exact ⟨hrooms₀, fun i hi => (List.mem_append.mp hi).elim (h₁ i) (h₂ i)⟩
  | @instr σ _ i κ h =>
    have hstep : (∀ words ∈ σ.rooms, words ≤ 511) ∧ i.op.Encodable := by
      generalize i.op = o at h
      cases h with
      | plain h hκ =>
        rw [Draft.Scene.rooms, hκ.rooms] at hrooms
        exact ⟨hrooms, h.short trivial⟩
      | reserve words =>
        obtain ⟨hwords, hrooms⟩ := List.forall_mem_cons.mp hrooms
        exact ⟨hrooms, by simpa using short_neg_slotOffset (by omega)⟩
      | giveBack words h hshort =>
        rw [h]
        exact ⟨List.forall_mem_cons.mpr ⟨hshort trivial, hrooms⟩,
          by simpa using short_slotOffset (hshort trivial)⟩
      | pass h hk =>
        have hwords : _ ≤ 511 := hrooms _ (h ▸ List.mem_cons_self)
        exact ⟨hrooms, by simpa using short_slotOffset (by omega)⟩
    refine ⟨hstep.1, fun j hj => ?_⟩
    cases List.mem_singleton.mp hj
    exact hstep.2
  | take => exact ⟨hrooms, fun i hi => by cases List.mem_singleton.mp hi⟩
  | release h =>
    rw [Draft.Scene.rooms, h]
    exact ⟨hrooms, fun i hi => by cases List.mem_singleton.mp hi⟩
  | label _ hκ =>
    rw [Draft.Scene.rooms, hκ.rooms] at hrooms
    exact ⟨hrooms, fun i hi => by cases List.mem_singleton.mp hi⟩
  | drop _ _ ih => exact ih hrooms
  | @literal _ s lit type =>
    refine ⟨hrooms, fun i hi => ?_⟩
    cases List.mem_singleton.mp hi
    cases (s.pool.literal lit type).1 with
    | word => exact Op.encodable_li
    | address => exact Op.encodable_la

/-! ## Bodies -/


/-- Loads and stores of spilled temporaries can be encoded, and so can an instruction between them
if it could before. -/
theorem Assignment.applyInstr_encodable {asg : Assignment}
    (h : ∀ v o, asg.spillOf? v = some o → Short o) {i : Instr} (hi : i.op.Encodable) :
    ∀ j, .instr j ∈ asg.applyInstr i → j.op.Encodable := by
  intro j hj
  rcases List.mem_append.mp hj with hj | hj
  · obtain ⟨e, -, he⟩ := List.mem_map.mp hj
    cases he
    show Op.Encodable (.lw (.phys e.2) .fp ((asg.spillOf? e.1).getD 0))
    cases ho : asg.spillOf? e.1 with
    | none => simp
    | some o => simpa using h _ _ ho
  · rcases List.mem_cons.mp hj with hj | hj
    · cases hj
      simpa using hi
    · unfold spillItems at hj
      split at hj
      · split at hj
        · rename_i o ho
          cases List.mem_singleton.mp hj
          show Op.Encodable (.sw .t5 .fp o)
          simpa using h _ o ho
        · exact absurd hj List.not_mem_nil
      · exact absurd hj List.not_mem_nil

/-- A body can be encoded if its draft can and spilled temporaries start at a short offset. -/
theorem Function.Places.encodable {items : List Item} {pool : List PhysReg} {base : Int32}
    {b : Body} {asg : Assignment} (h : Places items pool base b asg) (hbase : base.toInt ≤ 2047)
    (hd : ∀ i, .instr i ∈ items → i.op.Encodable) : ∀ i ∈ instrs b.items, i.op.Encodable := by
  intro i hi
  rw [h.items, Assignment.instrs_apply] at hi
  obtain ⟨j, hj, hji⟩ := List.mem_flatMap.mp hi
  refine Assignment.applyInstr_encodable (fun v o ho => ?_) (hd j (mem_instrs.mp hj)) i
    (mem_instrs.mp hji)
  have hbounds := h.spills (Assignment.spillOf?_eq_some_iff.mp ho)
  exact ⟨hbounds.1, by omega⟩

/-! ## Routines -/

namespace Routine

/-- All instructions among the items can be encoded. -/
def Encodes (items : List Item) : Prop := ∀ i ∈ instrs items, i.op.Encodable

theorem encodes_of_fields {items : List Item} (fields : List Int32)
    (h : (instrs items).filterMap (·.op.field?) = fields) (hs : ∀ n ∈ fields, Short n) :
    Encodes items := by
  intro i hi n hn
  refine hs n ?_
  rw [← h]
  exact List.mem_filterMap.mpr ⟨i, hi, hn⟩

theorem encodes_of_all {items : List Item}
    (h : ((instrs items).filterMap (·.op.field?)).all (fun n => decide (Short n)) = true) :
    Encodes items :=
  encodes_of_fields _ (Eq.refl _) fun n hn => of_decide_eq_true (List.all_eq_true.mp h n hn)

/-- **The support routines** have short operands if the payload of strings has a short offset. -/
theorem encodes_items (m : Messages) {payload : Int32} (h : Short payload) :
    Encodes (items m payload) :=
  forall_items (fun _ _ _ _ => encodes_of_fields [payload] rfl (by simpa using h))
    (encodes_of_fields [Object.tagOffset, 0, 0] rfl (by simp)) (encodes_of_all (by decide +kernel))

end Routine

/-! ## Programs -/

/-- The sizes up to which all operands of a program are short. -/
structure SmallParts (p : Program) (table : SymbolTable) (bodies : List Body) : Prop where
  frames : ∀ ub ∈ (Function.units table).zip bodies,
    (Function.frameWith table ub.1 ub.2).room ≤ 508
  args : ∀ f ∈ table.funcs.toList, f.argCount ≤ 511
  attrs : ∀ c ∈ table.classes.toList, c.attrs.length ≤ 512
  methods : ∀ c ∈ table.classes.toList, c.methods.length ≤ 512
  displays : Stmt.allDisplaysWithin 512 p.body ∧
    ∀ id ∈ table.compiled, Stmt.allDisplaysWithin 512 (table.func id).body

namespace SmallParts

variable {p : Program} {settings : CodegenSettings} {a : Assembly} {table : SymbolTable}
  {bodies : List Body} {payload : Int32}

variable {u : Option Nat}

variable (h : SmallParts p table bodies)

include h

theorem room_le {d : Draft.Result Unit} {b : Body}
    (hb : ((u, d), b) ∈ (Function.programDrafts p settings.comments table).zip bodies) :
    (Function.frameWith table u b).room ≤ 508 := by
  refine h.frames (u, b) ?_
  have hfst : (Function.programDrafts p settings.comments table).map (·.1) = Function.units table :=
    Function.map_fst_drafts
  rw [← hfst, List.zip_map_left]
  exact List.mem_map.mpr ⟨((u, d), b), hb, rfl⟩

/-- A function that has a frame has few locals. -/
theorem locals_le
    (hc : CompiledAs p settings a table bodies payload) {id : Nat} (hid : id ∈ table.compiled) :
    (table.func id).locals.length ≤ 506 := by
  obtain ⟨d, b, hb⟩ := hc.exists_body (u := some id)
    (List.mem_cons_of_mem _ (List.mem_map_of_mem hid))
  have hroom := h.room_le hb
  have hlocals : (Function.frameWith table (some id) b).locals = (table.func id).locals.length :=
    rfl
  rw [Frame.room, hlocals] at hroom
  omega

/-- Within the sizes a table hands out short operands only. -/
theorem compact
    (hc : CompiledAs p settings a table bodies payload) : table.Compact := by
  have hplaced := (SymbolTable.Built.ofProgram hc.symbols).placed
  refine ⟨fun hl => ?_, fun hl => ?_, fun id => ?_, fun id => ?_⟩
  · obtain ⟨scope, he⟩ := SymbolTable.exists_entry_of_lookup? hl
    obtain ⟨hlt, hbuiltin, ⟨k, hk, hoff⟩ | ⟨k, hk, hoff⟩⟩ := hplaced he
    · have hargs := h.args _ (SymbolTable.mem_of_func hlt)
      rw [hoff]
      exact Frame.short_paramOffset (by omega)
    · have hlocals := h.locals_le hc (List.mem_filter.mpr
        ⟨List.mem_range.mpr hlt, by rw [hbuiltin]; rfl⟩)
      rw [hoff]
      exact Frame.short_localOffset (by omega)
  · obtain ⟨scope, he⟩ := SymbolTable.exists_entry_of_lookup? hl
    obtain ⟨hoff, hindex | ⟨c, hcls, hindex⟩⟩ := hplaced he
    · rw [hoff, hindex]
      decide
    · have hattrs := h.attrs c hcls
      rw [hoff]
      exact short_slotOffset (by omega)
  · by_cases hid : id < table.funcs.size
    · exact h.args _ (SymbolTable.mem_of_func hid)
    · have hdefault : table.func id = default := by simp [SymbolTable.func, Array.getD, hid]
      rw [hdefault]
      decide
  · by_cases hid : id < table.classes.size
    · exact h.methods _ (SymbolTable.mem_of_cls hid)
    · have hdefault : table.cls id = default := by simp [SymbolTable.cls, Array.getD, hid]
      rw [hdefault]
      decide

/-- The draft of a unit can be encoded. -/
theorem draft_encodable
    (hc : CompiledAs p settings a table bodies payload) (hu : u ∈ Function.units table)
    {pool : ConstantPool}
    (hok : (Function.draftOf table settings.comments p.body pool u).value = .ok ()) :
    ∀ i, .item (.instr i) ∈ (Function.draftOf table settings.comments p.body pool u).events →
      i.op.Encodable := by
  have hcompact := h.compact hc
  cases u with
  | none =>
    have hblock := (Env.stmts_drawn (Function.topLevelEnv table settings.comments) (E := True)
      fun _ => hcompact).2 p.body (fun _ => h.displays.1) _ Draft.Scene.forStmt_unit
    exact ((hblock.traced_to (Draft.yields_of_value hok)).encodable (by rintro _ ⟨⟩)).2
  | some id =>
    have hid : id ∈ table.compiled := by simpa [Function.units] using hu
    have hlocals := h.locals_le hc hid
    have hdraft : Draft.Restores (Function.funcEnv table settings.comments id) True
        (.unit (Function.funcEnv table settings.comments id)) (Function.draft _ (table.func id)) :=
      Function.draft_drawn (fun _ => hcompact) (fun _ => by omega) (fun _ => h.displays.2 id hid)
        Draft.Scene.forStmt_unit
    exact ((hdraft.traced_to (Draft.yields_of_value hok)).encodable (by rintro _ ⟨⟩)).2

/-- Spilled temporaries start at a short offset. -/
theorem spillBase_le
    (hc : CompiledAs p settings a table bodies payload) (hu : u ∈ Function.units table) :
    (Function.frameOf table u).spillBase.toInt ≤ 2047 := by
  cases u with
  | none =>
    show Frame.topLevel.spillBase.toInt ≤ 2047
    decide
  | some id =>
    have hid : id ∈ table.compiled := by simpa [Function.units] using hu
    have hlocals := h.locals_le hc hid
    have hshort : Short (Frame.localOffset (table.func id).locals.length) :=
      Frame.short_localOffset (by omega)
    exact hshort.2

/-- The code of a unit can be encoded. -/
theorem wrap_encodable
    (hc : CompiledAs p settings a table bodies payload) {d : Draft.Result Unit} {b : Body}
    (hb : ((u, d), b) ∈ (Function.programDrafts p settings.comments table).zip bodies) :
    ∀ i ∈ instrs (Function.wrap table u b), i.op.Encodable := by
  obtain ⟨hu, hbody, pool, hd⟩ := hc.body_eq_ok hb
  dsimp only at hu hbody hd
  subst hd
  have hok := (Body.ofDraft_labels hbody).1
  have hroom := h.room_le hb
  obtain ⟨asg, hplaces⟩ := Function.exists_places hbody
  have hitems := hplaces.encodable (h.spillBase_le hc hu) fun i hi =>
    h.draft_encodable hc hu hok i (Body.mem_draftItems.mp hi)
  intro i hi
  have hsplit : instrs (Function.wrap table u b) = instrs (Function.frameWith table u b).prologue ++
      instrs b.items ++ instrs ((Function.frameWith table u b).epilogue
        (.nth (Function.entryOf table u).name 0)) := by
    rw [← instrs_append, ← instrs_append]
    rfl
  rw [hsplit] at hi
  rcases List.mem_append.mp hi with hi | hi
  · rcases List.mem_append.mp hi with hi | hi
    · exact Frame.prologue_encodable hroom i hi
    · exact hitems i hi
  · exact Frame.epilogue_encodable hroom _ i hi

end SmallParts

/-- **Programs with small parts can be encoded.** Spilled temporaries stay in reach whatever the
sizes of the program. -/
theorem encodable_of_smallParts {p : Program} {settings : CodegenSettings} {a : Assembly}
    (h : compile p settings = .ok a) :
    ∃ table bodies payload, CompiledAs p settings a table bodies payload ∧
      (∀ u d b, ((u, d), b) ∈ (Function.programDrafts p settings.comments table).zip bodies →
        ∀ k < b.spillSlots, -2048 ≤ (Function.frameOf table u).spillBase.toInt - 4 * k) ∧
      (SmallParts p table bodies → ∀ i ∈ instrs a.text, i.op.Encodable) := by
  obtain ⟨table, bodies, str, attr, -, hattr, hc⟩ := compile_eq_ok_attr h
  refine ⟨table, bodies, attr.offset, hc, fun u d b hb k hk => ?_, fun hsmall i hi => ?_⟩
  · obtain ⟨asg, hplaces⟩ := hc.exists_places hb
    exact hplaces.reach k hk
  · rw [hc.text, instrs_append] at hi
    rcases List.mem_append.mp hi with hi | hi
    · rw [← List.map_uncurry_zip_eq_zipWith] at hi
      obtain ⟨items, hitems, hi⟩ := List.mem_flatten.mp (mem_instrs.mp hi)
      obtain ⟨⟨⟨u, d⟩, b⟩, hb, rfl⟩ := List.mem_map.mp hitems
      exact hsmall.wrap_encodable hc hb i (mem_instrs.mpr hi)
    · refine Routine.encodes_items _ ?_ i hi
      obtain ⟨sym, hsym, hattr⟩ := bind_eq_ok_iff.mp hattr
      cases sym with
      | attr b =>
        cases hattr
        exact (hsmall.compact hc).attr (SymbolTable.lookup_eq_ok_iff.mp hsym)
      | cls | func | global | stack => cases hattr

/-- A function with a parameter and a local variable, and a list display that calls it. -/
def smallDisplay : Program :=
  let int (n : Int32) : Expr := .int ⟨{}, .int⟩ n
  { decls := [.func {} "f" [⟨"a", .int⟩] .int [.var {} ⟨"b", .int⟩ (.int 1)]
      [.ret {} (some (.binary ⟨{}, .int⟩ (.name ⟨{}, .int⟩ "a") .add (.name ⟨{}, .int⟩ "b")))]]
    body := [.expr {} (.list ⟨{}, .list .int⟩ [.call ⟨{}, .int⟩ "f" [int 1], int 2])] }

/-- The program has small parts. With one register for temporaries it also has a spilled one. -/
theorem smallDisplay_encodable :
    ∃ a table bodies payload, compile smallDisplay ⟨.virtual, false, 1⟩ = .ok a ∧
      CompiledAs smallDisplay ⟨.virtual, false, 1⟩ a table bodies payload ∧
      SmallParts smallDisplay table bodies ∧ (∃ b ∈ bodies, 0 < b.spillSlots) ∧
      ∀ i ∈ instrs a.text, i.op.Encodable := by
  have hcheck : (ObservedUnit.ofProgram smallDisplay ⟨.virtual, false, 1⟩ 0).any
    (fun c : ObservedUnit => decide
      ((∀ ub ∈ (Function.units c.table).zip c.bodies,
          (Function.frameWith c.table ub.1 ub.2).room ≤ 508) ∧
        (∀ f ∈ c.table.funcs.toList, f.argCount ≤ 511) ∧
        (∀ k ∈ c.table.classes.toList, k.attrs.length ≤ 512) ∧
        (∀ k ∈ c.table.classes.toList, k.methods.length ≤ 512) ∧
        (Stmt.allDisplaysWithin 512 smallDisplay.body ∧
          ∀ id ∈ c.table.compiled, Stmt.allDisplaysWithin 512 (c.table.func id).body) ∧
        ∃ b ∈ c.bodies, 0 < b.spillSlots)) = true := by
    decide +kernel
  obtain ⟨c, hrun, hcheck⟩ := (Option.any_eq_true _ _).mp hcheck
  obtain ⟨hframes, hargs, hattrs, hmethods, hdisplays, hspilled⟩ := of_decide_eq_true hcheck
  have hunit := ObservedUnit.isUnit_of_ofProgram hrun
  have hsmall : SmallParts smallDisplay c.table c.bodies :=
    ⟨hframes, hargs, hattrs, hmethods, hdisplays⟩
  obtain ⟨table, bodies, payload, hc, -, hencodable⟩ := encodable_of_smallParts hunit.compiles
  obtain ⟨_, hunits⟩ := hunit.units
  obtain ⟨rfl, rfl⟩ := hc.unique hunits
  exact ⟨c.assembly, c.table, c.bodies, payload, hunit.compiles, hc, hsmall, hspilled,
    hencodable hsmall⟩

/-- A list display of 513 elements, the last of them 2048 bytes from the first. -/
def longDisplay : Program :=
  { decls := []
    body := [.expr {} (.list ⟨{}, .list .int⟩ (List.replicate 513 (.int ⟨{}, .int⟩ 0)))] }

/-- The program is compiled, and the store of its last element cannot be encoded. -/
theorem longDisplay_not_encodable :
    ∃ a, compile longDisplay ⟨.physical, false, 11⟩ = .ok a ∧
      ∃ i ∈ instrs a.text, i.op.field? = some 2048 ∧ ¬ i.op.Encodable := by
  have hcheck : (compile longDisplay ⟨.physical, false, 11⟩).toOption.any (fun a =>
      (instrs a.text).any fun i => i.op.field? == some 2048) = true := by
    decide +kernel
  obtain ⟨a, ha, hcheck⟩ := exists_ok_of_any hcheck
  obtain ⟨i, hi, hfield⟩ := List.any_eq_true.mp hcheck
  have hfield : i.op.field? = some 2048 := eq_of_beq hfield
  have hlong : ¬ Short 2048 := by decide
  refine ⟨a, ha, i, hi, hfield, ?_⟩
  rwa [Op.encodable_iff_of_eq_some hfield]

end ChocoRV
