import Mathlib
import ChocoRV.Proofs.RegisterDemand

/-!
# Both modes place temporaries

The allocating mode gives every temporary a register or a frame word. The direct mode does so as
well: each temporary has the register that its take was given. Temporaries that need a location at
the same place are held there together, so they lie on one stack and their registers differ. Hence
the body of a unit is its draft over the locations of an assignment in either mode
(`Function.Places`), and what is known of such assignments holds for both.
-/

namespace ChocoRV

open Assembly

/-! ## Registers as locations -/

namespace Assignment

/-- Temporary `n` lives in the `n`-th register. -/
def ofRegisters (regs : List PhysReg) : Assignment :=
  .ofList (regs.zipIdx.map fun e => (e.2, Location.reg e.1))

theorem getElem?_ofRegisters (regs : List PhysReg) (v : Nat) :
    (ofRegisters regs)[v]? = regs[v]?.map .reg := by
  have hkeys : (regs.zipIdx.map fun e => (e.2, Location.reg e.1)).map Prod.fst =
      List.range regs.length := by
    rw [List.map_map, List.range_eq_range']
    exact List.zipIdx_map_snd 0 regs
  cases hv : regs[v]? with
  | some p =>
    refine Std.ExtTreeMap.getElem?_ofList_of_mem Std.ReflCmp.compare_self ?_ ?_
    · have hnodup : (List.range regs.length).Nodup := List.nodup_range
      rw [← hkeys] at hnodup
      exact (List.pairwise_map.mp hnodup).imp fun hne heq => hne (Nat.compare_eq_eq.mp heq)
    · exact List.mem_map.mpr ⟨(p, v), List.mem_zipIdx_iff_getElem?.mpr hv, rfl⟩
  | none =>
    refine Std.ExtTreeMap.getElem?_ofList_of_contains_eq_false ?_
    rw [hkeys]
    simpa using hv

theorem ofRegisters_ne_spill {regs : List PhysReg} {v : Nat} {o : Int32} :
    (ofRegisters regs)[v]? ≠ some (.spill o) := by
  intro h
  rw [getElem?_ofRegisters] at h
  obtain ⟨p, -, hp⟩ := Option.map_eq_some_iff.mp h
  cases hp

theorem wellPlaced_ofRegisters {regs pool : List PhysReg}
    (hsub : ∀ p ∈ pool, p ∈ PhysReg.allocatable) (h : ∀ p ∈ regs, p ∈ pool) :
    (ofRegisters regs).WellPlaced pool := by
  refine ⟨hsub, fun {v p} hp => h p ?_, fun {v w o o'} ho => absurd ho ofRegisters_ne_spill⟩
  rw [getElem?_ofRegisters] at hp
  obtain ⟨q, hq, hqp⟩ := Option.map_eq_some_iff.mp hp
  cases hqp
  exact List.mem_of_getElem? hq

theorem registers_ofRegisters (regs : List PhysReg) :
    (ofRegisters regs).registers regs.length = regs := by
  refine List.ext_getElem (length_registers _ _) fun v hv hv' => ?_
  have hloc : (ofRegisters regs)[v]? = some (.reg (regs.get ⟨v, hv'⟩)) := by
    rw [getElem?_ofRegisters, List.getElem?_eq_getElem hv']
    rfl
  have hget := getElem?_registers hv' hloc
  exact (List.getElem?_eq_some_iff.mp hget).2

/-- Temporaries with registers are replaced by them. -/
theorem apply_ofRegisters {regs : List PhysReg} {items : List Item}
    (h : ∀ i ∈ instrs items, ∀ v ∈ i.op.virts, v < regs.length) :
    (ofRegisters regs).apply items = items.map (Item.place regs) := by
  have hloc : ∀ i ∈ instrs items, ∀ v ∈ i.op.virts,
      v < regs.length ∧ ∃ p, (ofRegisters regs)[v]? = some (.reg p) := by
    intro i hi v hv
    refine ⟨h i hi v hv, regs.get ⟨v, h i hi v hv⟩, ?_⟩
    rw [getElem?_ofRegisters, List.getElem?_eq_getElem (h i hi v hv)]
    rfl
  rw [apply_of_no_spill hloc, registers_ofRegisters]

end Assignment

/-! ## The registers of held temporaries -/

namespace Nested

variable {n n' : Nat} {H H' : List Nat} {evs : List Event} {pool : List PhysReg} {s final : Supply}
  {items : List Item}

/-- A held temporary has the slot that its place on the stack of held temporaries gives it. -/
theorem slot_of_mem_heldAt (h : Nested n H evs n' H') (hs : s.Stacked n H)
    (hr : Supply.run pool s evs = .ok (items, final)) {k t : Nat} (ht : t ∈ heldAt H evs k) :
    ∃ H₁, (t :: H₁) <:+ heldAt H evs k ∧ final.slots.lookup t = some H₁.length := by
  -- What is held now keeps its slot to the end.
  have hnow {n n' : Nat} {H H' : List Nat} {evs : List Event} {s : Supply} {items : List Item}
      (h : Nested n H evs n' H') (hs : s.Stacked n H)
      (hr : Supply.run pool s evs = .ok (items, final)) (ht : t ∈ H) :
      ∃ H₁, (t :: H₁) <:+ H ∧ final.slots.lookup t = some H₁.length := by
    obtain ⟨pre, H₁, hsplit⟩ := List.append_of_mem ht
    have hsuffix : (t :: H₁) <:+ H := ⟨pre, hsplit.symm⟩
    refine ⟨H₁, hsuffix, ?_⟩
    rw [(Supply.run_stacked h hs hr).2 t (hs.taken t ht), hs.slot t H₁ hsuffix]
  induction h generalizing s items k with
  | nil => exact hnow .nil hs hr ht
  | label _ ih =>
    obtain ⟨rest, hr, -⟩ := Supply.run_item_eq_ok hr
    exact ih hs hr ht
  | instr held h ih =>
    cases k with
    | zero => exact hnow (.instr held h) hs hr ht
    | succ k =>
      obtain ⟨rest, hr, -⟩ := Supply.run_item_eq_ok hr
      exact ih hs hr ht
  | take _ ih =>
    obtain ⟨-, hr⟩ := Supply.run_take_eq_ok hs hr
    exact ih hs.take hr ht
  | release _ ih => exact ih hs.release hr ht

/-- Only temporaries that have been taken are held. -/
theorem lt_of_mem_heldAt (h : Nested n H evs n' H') (hH : ∀ t ∈ H, t < n) {k t : Nat}
    (ht : t ∈ heldAt H evs k) : t < n' := by
  induction h generalizing k with
  | nil => exact hH t ht
  | label _ ih => exact ih hH ht
  | instr held h ih =>
    cases k with
    | zero => exact Nat.lt_of_lt_of_le (hH t ht) h.le
    | succ k => exact ih hH ht
  | take _ ih => exact ih (lt_of_mem_cons hH) ht
  | release _ ih => exact ih (fun u hu => hH u (List.mem_cons_of_mem _ hu)) ht

end Nested

namespace Supply

variable {n' : Nat} {H' : List Nat} {evs : List Event} {pool : List PhysReg} {final : Supply}
  {items : List Item} {unit : String} {L : List (List Nat)} {F' : List Nat}

/-- The registers that takes are given are locations for the temporaries. -/
theorem locates_of_run (hfilled : Filled unit L [] evs F') (hn : Nested 0 [] evs n' H')
    (hpool : pool.Nodup) (hsub : ∀ p ∈ pool, p ∈ PhysReg.allocatable)
    (hr : run pool {} evs = .ok (items, final)) :
    Allocation.Locates (Body.draftItems evs) pool (.ofRegisters (granted pool {} evs)) := by
  have hgranted (t : Nat) :
      (granted pool {} evs)[t]? = (final.slots.lookup t).bind (pool[·]?) := by
    have hg := granted_getElem? hn stacked_init hr t
    rwa [Nat.zero_add] at hg
  have hheld {k v : Nat} (hk : k < (instrs (Body.draftItems evs)).length)
      (hv : v ∈ Interval.occupants (FlowGraph.ofItems (Body.draftItems evs))
        (Liveness.ofItems (Body.draftItems evs)) k) : v ∈ heldAt [] evs k :=
    hfilled.mem_heldAt_of_occupants hn (by rwa [FlowGraph.size_ofItems]) hv
  have hsome {k v : Nat} (hk : k < (instrs (Body.draftItems evs)).length)
      (hv : v ∈ Interval.occupants (FlowGraph.ofItems (Body.draftItems evs))
        (Liveness.ofItems (Body.draftItems evs)) k) : ∃ p, (granted pool {} evs)[v]? = some p := by
    have hlen := granted_length hn stacked_init hr
    have hlt := hn.lt_of_mem_heldAt (fun t ht => absurd ht List.not_mem_nil) (hheld hk hv)
    exact ⟨_, List.getElem?_eq_getElem (by omega)⟩
  refine ⟨Assignment.wellPlaced_ofRegisters hsub fun p hp => ?_, fun {k v} hk hv => ?_,
    fun {k u v} hk hu hv hne heq => ?_⟩
  · obtain ⟨t, ht⟩ := List.mem_iff_getElem?.mp hp
    rw [hgranted] at ht
    obtain ⟨j, -, hj⟩ := Option.bind_eq_some_iff.mp ht
    exact List.mem_of_getElem? hj
  · obtain ⟨p, hp⟩ := hsome hk hv
    exact ⟨.reg p, by rw [Assignment.getElem?_ofRegisters, hp]; rfl⟩
  · obtain ⟨p, hp⟩ := hsome hk hu
    obtain ⟨q, hq⟩ := hsome hk hv
    rw [Assignment.getElem?_ofRegisters, Assignment.getElem?_ofRegisters, hp, hq] at heq
    cases heq
    obtain ⟨H₁, hsuf₁, hslot₁⟩ := hn.slot_of_mem_heldAt stacked_init hr (hheld hk hu)
    obtain ⟨H₂, hsuf₂, hslot₂⟩ := hn.slot_of_mem_heldAt stacked_init hr (hheld hk hv)
    rw [hgranted, hslot₁] at hp
    rw [hgranted, hslot₂] at hq
    have hlt := (List.getElem?_eq_some_iff.mp hp).1
    have hdepth : H₁.length = H₂.length := (List.getElem?_inj hlt hpool).mp (hp.trans hq.symm)
    have hsame : u :: H₁ = v :: H₂ :=
      List.IsSuffix.eq_of_length (List.suffix_of_suffix_length_le hsuf₁ hsuf₂
        (by simp [hdepth])) (by simp [hdepth])
    exact hne (List.cons.inj hsame).1

end Supply

/-! ## Bodies -/

namespace Function

/-- A body is what an assignment makes of a stream over temporaries; `base` is where the frame words
of temporaries begin. -/
structure Places (items : List Item) (pool : List PhysReg) (base : Int32) (b : Body)
    (asg : Assignment) : Prop where
  locates : Allocation.Locates items pool asg
  items : b.items = asg.apply items
  spills {v : Nat} {o : Int32} (h : asg[v]? = some (.spill o)) :
    -2048 ≤ o.toInt ∧ o.toInt ≤ base.toInt
  reach : ∀ k < b.spillSlots, -2048 ≤ base.toInt - 4 * k

/-- Allocation places the temporaries of a stream. -/
theorem places_of_allocate {items : List Item} {pool : List PhysReg} {base : Int32}
    {function : String} {alloc : Allocation} (hpool : pool.Nodup)
    (hsub : ∀ p ∈ pool, p ∈ PhysReg.allocatable)
    (h : Allocation.allocate items pool base function = .ok alloc) :
    Places items pool base ⟨alloc.items, alloc.spillSlots, alloc.used⟩ alloc.assignment := by
  obtain ⟨-, -, -, hitems⟩ := Allocation.allocate_eq_ok h
  have hhanded := Allocation.handed_of_allocate h
  exact ⟨Allocation.locates_of_allocate hpool hsub h, hitems, hhanded.bounds, hhanded.reach⟩

/-- **Both modes place temporaries.** -/
theorem exists_places {settings : CodegenSettings} {table : SymbolTable} {body : List Stmt}
    {pool : ConstantPool} {u : Option Nat} {b : Body}
    (h : bodyOf settings table u (draftOf table settings.comments body pool u) = .ok b) :
    ∃ asg, Places (Body.draftItems (draftOf table settings.comments body pool u).events)
      settings.pool (frameOf table u).spillBase b asg := by
  have hvalue := (Body.ofDraft_labels h).1
  have hn : Nested 0 [] _ _ [] := (draftOf_traced hvalue).nested
  obtain ⟨mode, comments, size⟩ := settings
  cases mode with
  | physical =>
    obtain ⟨L, -, -, hfilled⟩ := draftOf_follows hvalue
    obtain ⟨⟨items, final⟩, hrun, h⟩ := bind_eq_ok_iff.mp h
    obtain ⟨⟨⟩, -, h⟩ := bind_eq_ok_iff.mp h
    cases h
    refine ⟨_, Supply.locates_of_run hfilled hn (CodegenSettings.nodup_pool _)
      (CodegenSettings.pool_subset _) hrun, ?_, fun {v o} ho =>
        absurd ho Assignment.ofRegisters_ne_spill,
      fun k hk => absurd hk (Nat.not_lt_zero k)⟩
    have hlen := Supply.granted_length hn Supply.stacked_init hrun
    rw [Assignment.apply_ofRegisters fun i hi v hv => ?_]
    · exact Supply.run_eq_place hn hrun
    · rw [Nat.zero_add] at hlen
      rw [hlen]
      exact hn.virts_lt (fun t ht => absurd ht List.not_mem_nil) i
        (Body.mem_draftItems.mp (mem_instrs.mp hi)) v hv
  | virtual =>
    obtain ⟨⟨⟩, -, h⟩ := bind_eq_ok_iff.mp h
    obtain ⟨alloc, halloc, h⟩ := bind_eq_ok_iff.mp h
    cases h
    exact ⟨_, places_of_allocate (CodegenSettings.nodup_pool _)
      (CodegenSettings.pool_subset _) halloc⟩

end Function

theorem CompiledAs.exists_places {p : Program} {settings : CodegenSettings} {a : Assembly}
    {table : SymbolTable} {bodies : List Body} {payload : Int32}
    (h : CompiledAs p settings a table bodies payload) {ud : Option Nat × Draft.Result Unit}
    {b : Body} (hb : (ud, b) ∈ (Function.programDrafts p settings.comments table).zip bodies) :
    ∃ asg, Function.Places (Body.draftItems ud.2.events) settings.pool
      (Function.frameOf table ud.1).spillBase b asg := by
  obtain ⟨-, hbody, pool, hd⟩ := h.body_eq_ok hb
  rw [hd] at hbody ⊢
  exact Function.exists_places hbody

end ChocoRV
