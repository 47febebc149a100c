import Mathlib
import ChocoRV.Proofs.Call.Activation

/-!
# Passing words

A call passes its words above the stack pointer and the first of them in registers as well. The
prologue of the function stores these back beside the others, so that all of them stand above the
frame pointer (`FuncCode.receives`). `callTail` is the end of a call, which loads the registers and
goes to the function, and `FuncCode.called` takes it together with the prologue.
-/

namespace ChocoRV

open Assembly Image

/-! ## Addresses around a base -/

/-- An address is the sum of base and offset, unless this wraps around. -/
theorem State.toNat_addrOf {s : State} {base : Reg} {z : Int}
    (hlow : 0 ≤ (s.reg base).toUInt32.toNat + z)
    (hhigh : (s.reg base).toUInt32.toNat + z < UInt32.size) :
    ((s.addrOf base (Int32.ofInt z)).toNat : Int) = (s.reg base).toUInt32.toNat + z := by
  have hz : (Int32.ofInt z).toUInt32.toNat = (z % 4294967296).toNat := BitVec.toNat_ofInt z
  have hsize : UInt32.size = 4294967296 := rfl
  rw [addrOf, Int32.toUInt32_add, UInt32.toNat_add, hz]
  omega

/-- A word is as it was if each register is stored apart from it, or holds what stands there. -/
theorem RegSlots.readWord_write {s : State} {base : Reg} {ps : RegSlots} {m : Memory} {a : Addr}
    {v : Int32} (hm : m.readWord a = v)
    (h : ∀ p ∈ ps, (s.addrOf base p.2 = a ∧ s.reg (.phys p.1) = v) ∨
      ∀ b, Addr.InWord a b → ¬ Addr.InWord (s.addrOf base p.2) b) :
    (write s base ps m).readWord a = v := by
  induction ps generalizing m with
  | nil => exact hm
  | cons p ps ih =>
    rw [List.forall_mem_cons] at h
    rw [write_cons]
    refine ih ?_ h.2
    rcases h.1 with ⟨rfl, rfl⟩ | hapart
    · exact Memory.readWord_writeWord_self m _ _
    · rw [Memory.readWord_writeWord_of_disjoint m _ _ hapart, hm]

/-! ## The words of a frame -/

namespace Frame

variable (f : Frame)

/-- The number of words that the frame uses below the frame pointer. -/
def words : Nat := 2 + f.locals + f.spillSlots + f.saved.length

theorem saveSlot_eq_ofInt (k : Nat) :
    f.saveSlot k = Int32.ofInt (-(4 * (3 + f.locals + f.spillSlots + k : Nat))) := by
  have hofNat (n : Nat) : Int32.ofNat n = Int32.ofInt n := Int32.ofInt_eq_ofNat.symm
  rw [saveSlot, spillBase, localOffset, hofNat, hofNat]
  push_cast
  simp only [Int32.ofInt_add, Int32.ofInt_neg, Int32.ofInt_mul]
  have h3 : Int32.ofInt 3 = 3 := rfl
  have h4 : Int32.ofInt 4 = 4 := rfl
  rw [h3, h4]
  grind

variable {f}

/-- The prologue stores argument registers to their own words above the frame pointer, and all else
to words of the frame below it. -/
theorem mem_stored {p : PhysReg × Int32} (h : p ∈ f.stored) :
    (∃ k, (PhysReg.args.take f.args)[k]? = some p.1 ∧ p.2 = paramOffset k) ∨
      ∃ m, 0 < m ∧ m ≤ f.words ∧ p.2 = Int32.ofInt (-(4 * (m : Nat))) := by
  rcases List.mem_cons.mp h with rfl | h
  · exact .inr ⟨1, Nat.one_pos, by unfold words; omega, rfl⟩
  rcases List.mem_cons.mp h with rfl | h
  · exact .inr ⟨2, Nat.two_pos, by unfold words; omega, rfl⟩
  rcases List.mem_append.mp h with h | h
  · obtain ⟨⟨r, k⟩, he, rfl⟩ := List.mem_map.mp h
    exact .inl ⟨k, List.mem_zipIdx_iff_getElem?.mp he, rfl⟩
  · obtain ⟨r, n⟩ := p
    obtain ⟨k, hk, rfl⟩ := mem_kept_iff.mp h
    have hlt := (List.getElem?_eq_some_iff.mp hk).1
    exact .inr ⟨3 + f.locals + f.spillSlots + k, by omega, by unfold words; omega,
      f.saveSlot_eq_ofInt k⟩

end Frame

/-! ## Entering a function -/

/-- A call passes the words `w` to a function with frame `f`: they stand at the stack pointer and
above, there is room for the frame below it, and no address wraps around. -/
structure Passes (f : Frame) (w : Nat → Int32) (s : State) : Prop where
  words : ∀ k < f.args, s.memory.readWord (s.addrOf .sp (Object.slotOffset k)) = w k
  room : State.nullPage.toNat + 4 * f.words ≤ (s.reg .sp).toUInt32.toNat
  top : (s.reg .sp).toUInt32.toNat + 4 * f.args ≤ UInt32.size

/-- The first words of the call are in registers. -/
def InRegisters (f : Frame) (w : Nat → Int32) (s : State) : Prop :=
  ∀ k r, (PhysReg.args.take f.args)[k]? = some r → s.reg (.phys r) = w k

namespace Passes

variable {f : Frame} {w : Nat → Int32} {s : State}

theorem congr {s' : State} (h : Passes f w s) (hsp : s'.reg .sp = s.reg .sp)
    (hmemory : s'.memory = s.memory) : Passes f w s' := by
  refine ⟨fun k hk => ?_, ?_, ?_⟩
  · rw [State.addrOf, hsp, hmemory]
    exact h.words k hk
  · rw [hsp]
    exact h.room
  · rw [hsp]
    exact h.top

theorem toNat_slot (h : Passes f w s) {k : Nat} (hk : k < f.args) :
    (s.addrOf .sp (Object.slotOffset k)).toNat = (s.reg .sp).toUInt32.toNat + 4 * k := by
  have htop := h.top
  have := @State.toNat_addrOf s .sp (4 * k) (by omega) (by omega)
  rw [slotOffset_eq_ofInt]
  omega

theorem toNat_below (h : Passes f w s) {m : Nat} (hpos : 0 < m) (hm : m ≤ f.words) :
    (s.addrOf .sp (Int32.ofInt (-(4 * m)))).toNat + 4 * m = (s.reg .sp).toUInt32.toNat := by
  have hroom := h.room
  have hlt := (s.reg .sp).toUInt32.toNat_lt_size
  have := @State.toNat_addrOf s .sp (-(4 * m)) (by omega) (by omega)
  omega

theorem lt_args_of_getElem? {k : Nat} {r : PhysReg}
    (h : (PhysReg.args.take f.args)[k]? = some r) : k < f.args := by
  have := (List.getElem?_eq_some_iff.mp h).1
  rw [List.length_take] at this
  omega

theorem valid_slot (h : Passes f w s) {k : Nat} (hk : k < f.args) :
    State.nullPage ≤ s.addrOf .sp (Object.slotOffset k) := by
  have hroom := h.room
  rw [UInt32.le_iff_toNat_le, h.toNat_slot hk]
  omega

/-- The prologue stores to valid addresses. -/
theorem valid_stored (h : Passes f w s) : RegSlots.Valid s .sp f.stored := by
  intro p hp
  have hroom := h.room
  rcases Frame.mem_stored hp with ⟨k, hk, hn⟩ | ⟨m, hpos, hm, hn⟩
  · rw [hn]
    exact h.valid_slot (lt_args_of_getElem? hk)
  · rw [hn, UInt32.le_iff_toNat_le]
    have := h.toNat_below hpos hm
    omega

/-- The prologue leaves the words of the call as they are. -/
theorem readWord_entered (h : Passes f w s) (hregs : InRegisters f w s) {k : Nat}
    (hk : k < f.args) :
    (f.entered s).memory.readWord (s.addrOf .sp (Object.slotOffset k)) = w k := by
  have hroom := h.room
  have htop := h.top
  have hslot := h.toNat_slot hk
  rw [Frame.memory_entered]
  refine RegSlots.readWord_write (h.words k hk) fun p hp => ?_
  rcases Frame.mem_stored hp with ⟨j, hj, hn⟩ | ⟨m, hpos, hm, hn⟩
  · by_cases hjk : j = k
    · -- The register is stored to the word that it was loaded from.
      subst hjk
      exact .inl ⟨by rw [hn]; rfl, hregs j _ hj⟩
    · have hlt := lt_args_of_getElem? hj
      have hslot' := h.toNat_slot hlt
      refine .inr fun b hb => ?_
      rw [hn]
      show ¬ Addr.InWord (s.addrOf .sp (Object.slotOffset j)) b
      exact Addr.not_inWord_of_apart (by omega) (by omega) (by omega) hb
  · have hbelow := h.toNat_below hpos hm
    refine .inr fun b hb => ?_
    rw [hn]
    exact Addr.not_inWord_of_apart (by omega) (by omega) (by omega) hb

end Passes

/-! ## The end of a call -/

/-- The registers for the first words of a call, with the offsets of these words. -/
def argSlots (words : Nat) : RegSlots :=
  (PhysReg.args.take words).zipIdx.map fun e => (e.1, Object.slotOffset e.2)

theorem mem_argSlots {words : Nat} {p : PhysReg × Int32} :
    p ∈ argSlots words ↔ ∃ k, (PhysReg.args.take words)[k]? = some p.1 ∧
      p.2 = Object.slotOffset k := by
  obtain ⟨r, n⟩ := p
  simp only [argSlots, List.mem_map, Prod.mk.injEq, Prod.exists, List.mem_zipIdx_iff_getElem?]
  constructor
  · rintro ⟨_, k, hk, rfl, rfl⟩
    exact ⟨k, hk, rfl⟩
  · rintro ⟨k, hk, rfl⟩
    exact ⟨r, k, hk, rfl, rfl⟩

theorem nodup_fst_argSlots (words : Nat) : ((argSlots words).map (·.1)).Nodup := by
  have hargs : PhysReg.args.Nodup := by decide
  have hfst : (argSlots words).map (·.1) = PhysReg.args.take words := by
    rw [argSlots, List.map_map]
    exact List.zipIdx_map_fst 0 _
  rw [hfst]
  exact hargs.sublist (List.take_sublist _ _)

/-- How a call goes to a function: by its name, or through a slot of the dispatch table of the
object in the first argument register. -/
inductive CallJump where
  | direct (l : Label)
  | dispatch (slot : Nat) (comment : Option String)

namespace CallJump

def code : CallJump → List Instr
  | .direct l => [⟨.call l, none⟩]
  | .dispatch slot comment =>
    [⟨.lw .t0 .a0 Object.dispatchTableOffset, none⟩,
      ⟨.lw .t0 .t0 (Object.slotOffset slot), comment⟩, ⟨.callReg .t0, none⟩]

/-- The jump goes to `pc` if the object is `object`: the label names this address, or the slot of
the dispatch table holds it. -/
def LeadsTo (img : Image) (m : Memory) (object : Int32) (pc : Addr) : CallJump → Prop
  | .direct l => find img.labels l.name = .ok pc
  | .dispatch slot _ =>
    State.nullPage ≤ (object + Object.dispatchTableOffset).toUInt32 ∧
      ∃ methods, m.readWord (object + Object.dispatchTableOffset).toUInt32 = methods ∧
        State.nullPage ≤ (methods + Object.slotOffset slot).toUInt32 ∧
        m.readWord (methods + Object.slotOffset slot).toUInt32 = pc.toInt32

/-- Only dispatching needs an object. -/
def OnObject : CallJump → Prop
  | .direct _ => False
  | .dispatch .. => True

/-- The jump changes nothing but `ra` and `t0`. -/
theorem steps {img : Image} {jump : CallJump} {s : State} {pc : Addr}
    (h : img.Finds s.pc jump.code) (hleads : jump.LeadsTo img s.memory (s.reg .a0) pc) :
    ∃ s', Steps img jump.code.length s s' ∧ s'.pc = pc ∧ s'.memory = s.memory ∧
      ∀ r : PhysReg, r ≠ .ra → r ≠ .t0 → s'.reg (.phys r) = s.reg (.phys r) := by
  cases jump with
  | direct l =>
    obtain ⟨⟨op, hf, hres⟩, -⟩ := h
    rw [Op.resolve] at hres
    obtain ⟨a, ha, hres⟩ := bind_eq_ok_iff.mp hres
    cases hres
    obtain rfl : a = pc := Except.ok.inj (ha.symm.trans hleads)
    refine ⟨_, .step hf rfl (.refl _), rfl, rfl, fun r hra _ => ?_⟩
    exact State.reg_setReg_of_ne s _ fun e => hra (Reg.phys.inj e)
  | dispatch slot comment =>
    obtain ⟨⟨op₁, hf₁, hres₁⟩, ⟨op₂, hf₂, hres₂⟩, ⟨op₃, hf₃, hres₃⟩, -⟩ := h
    cases hres₁
    cases hres₂
    cases hres₃
    obtain ⟨hobject, methods, hmethods, hslot, hword⟩ := hleads
    obtain ⟨s₁, hs₁⟩ : ∃ t, t = s.put .t0 methods := ⟨_, rfl⟩
    have he₁ : s.exec (.lw .t0 .a0 Object.dispatchTableOffset) = .running s₁ := by
      rw [State.exec_lw hobject, hs₁, ← hmethods]
      rfl
    have ht₁ : s₁.reg .t0 = methods := by rw [hs₁, State.reg_put_self _ _ (by decide)]
    have hmem₁ : s₁.memory = s.memory := by rw [hs₁, State.memory_put]
    have haddr : s₁.addrOf .t0 (Object.slotOffset slot) =
        (methods + Object.slotOffset slot).toUInt32 := by rw [State.addrOf, ht₁]
    obtain ⟨s₂, hs₂⟩ : ∃ t, t = s₁.put .t0 pc.toInt32 := ⟨_, rfl⟩
    have he₂ : s₁.exec (.lw .t0 .t0 (Object.slotOffset slot)) = .running s₂ := by
      rw [State.exec_lw (by rwa [haddr]), haddr, hmem₁, hword, hs₂]
    have ht₂ : s₂.reg .t0 = pc.toInt32 := by rw [hs₂, State.reg_put_self _ _ (by decide)]
    have hpc₁ : s₁.pc = s.pc + 4 := by rw [hs₁, State.pc_put]
    have hpc₂ : s₂.pc = s.pc + 4 + 4 := by rw [hs₂, State.pc_put, hpc₁]
    rw [← hpc₁] at hf₂
    rw [← hpc₂] at hf₃
    refine ⟨_, .step hf₁ he₁ (.step hf₂ he₂ (.step hf₃ rfl (.refl _))), ?_, ?_, fun r hra ht => ?_⟩
    · show (s₂.reg .t0).toUInt32 = pc
      rw [ht₂]
      rfl
    · show s₂.memory = s.memory
      rw [hs₂, State.memory_put, hmem₁]
    · have hra : Reg.phys r ≠ .ra := fun e => hra (Reg.phys.inj e)
      have ht : Reg.phys r ≠ .t0 := fun e => ht (Reg.phys.inj e)
      show (s₂.setReg .ra _).reg (.phys r) = s.reg (.phys r)
      rw [State.reg_setReg_of_ne _ _ hra, hs₂, State.reg_put_of_ne _ _ ht, hs₁,
        State.reg_put_of_ne _ _ ht]

end CallJump

/-- The end of a call with this number of words: the first ones are loaded into registers, then the
function is called. -/
def callTail (words : Nat) (jump : CallJump) : List Instr :=
  RegSlots.loads .sp (argSlots words) ++ jump.code

namespace FuncCode

/-- What the body of a function finds that has been entered at `entry` by a call made in state
`s`. -/
structure Receives (f : FuncCode) (entry : Addr) (w : Nat → Int32) (s s' : State) : Prop where
  pc : s'.pc = past entry f.enter.length
  fp : s'.reg .fp = s.reg .sp
  words : ∀ k < f.frame.args, s'.memory.readWord (s'.addrOf .fp (Frame.paramOffset k)) = w k

variable {f : FuncCode} {img : Image} {w : Nat → Int32} {s : State}

/-- A function that is entered with its words and with the first of them in registers. -/
theorem receives (hf : f.Saves) (hcode : img.Finds s.pc f.code) (hpass : Passes f.frame w s)
    (hregs : InRegisters f.frame w s) :
    ∃ s', Steps img f.enter.length s s' ∧ f.Receives s.pc w s s' := by
  have henter : img.Finds s.pc (instrs f.frame.prologue) :=
    (finds_append.mp (finds_append.mp hcode).1).1
  have hsteps := (Frame.steps_prologue_iff hf.func hf.kept henter).mpr ⟨hpass.valid_stored, rfl⟩
  have hfp : (f.frame.entered s).reg .fp = s.reg .sp := Frame.reg_reserved_fp f.frame s
  refine ⟨f.frame.entered s, hsteps, rfl, hfp, fun k hk => ?_⟩
  rw [State.addrOf, hfp]
  exact hpass.readWord_entered hregs hk

/-- The words of a call are loaded into registers. -/
theorem loads_words {frame : Frame} (h : img.Finds s.pc (RegSlots.loads .sp (argSlots frame.args)))
    (hpass : Passes frame w s) :
    ∃ s', Steps img (argSlots frame.args).length s s' ∧
      s'.pc = past s.pc (argSlots frame.args).length ∧ s'.reg .sp = s.reg .sp ∧
      s'.memory = s.memory ∧ InRegisters frame w s' := by
  have hother : ∀ r ∈ PhysReg.args, r ≠ .sp ∧ r ≠ .zero := by decide
  have hargs : ∀ p ∈ argSlots frame.args, p.1 ≠ .sp ∧ p.1 ≠ .zero := by
    intro p hp
    obtain ⟨k, hk, -⟩ := mem_argSlots.mp hp
    exact hother _ (List.mem_of_mem_take (List.mem_of_getElem? hk))
  have hbase : ∀ p ∈ argSlots frame.args, Reg.phys p.1 ≠ .sp :=
    fun p hp e => (hargs p hp).1 (Reg.phys.inj e)
  have hvalid : RegSlots.Valid s .sp (argSlots frame.args) := by
    intro p hp
    obtain ⟨k, hk, hn⟩ := mem_argSlots.mp hp
    rw [hn]
    exact hpass.valid_slot (Passes.lt_args_of_getElem? hk)
  obtain ⟨hmemory, hpc⟩ := State.loaded_frame s .sp (argSlots frame.args)
  refine ⟨_, steps_loads h hbase hvalid, hpc,
    State.reg_loaded_of_not_mem fun p hp => (hbase p hp).symm, hmemory, fun k r hk => ?_⟩
  rw [State.reg_loaded_of_mem hbase (fun p hp => (hargs p hp).2) (nodup_fst_argSlots _)
    (mem_argSlots.mpr ⟨k, hk, rfl⟩)]
  exact hpass.words k (Passes.lt_args_of_getElem? hk)

/-- **Calls.** The end of a call and the prologue of the function take the words of the call to
where the body looks for them. -/
theorem called (hf : f.Saves) {jump : CallJump} {entry : Addr} (hcode : img.Finds entry f.code)
    (htail : img.Finds s.pc (callTail f.frame.args jump)) (hpass : Passes f.frame w s)
    (hleads : jump.LeadsTo img s.memory (w 0) entry) (hobject : jump.OnObject → 0 < f.frame.args) :
    ∃ s', Steps img ((callTail f.frame.args jump).length + f.enter.length) s s' ∧
      f.Receives entry w s s' := by
  obtain ⟨hloads, hjump⟩ := finds_append.mp htail
  obtain ⟨s₁, hs₁, hpc₁, hsp₁, hmem₁, hregs₁⟩ := loads_words hloads hpass
  rw [RegSlots.length_loads, ← hpc₁] at hjump
  have hleads₁ : jump.LeadsTo img s₁.memory (s₁.reg .a0) entry := by
    rw [hmem₁]
    cases jump with
    | direct l => exact hleads
    | dispatch slot comment =>
      have ha0 : (PhysReg.args.take f.frame.args)[0]? = some .a0 := by
        rw [List.getElem?_take_of_lt (hobject trivial)]
        rfl
      rw [show s₁.reg .a0 = w 0 from hregs₁ 0 .a0 ha0]
      exact hleads
  obtain ⟨s₂, hs₂, hpc₂, hmem₂, hkeep⟩ := CallJump.steps hjump hleads₁
  have hsp₂ : s₂.reg .sp = s.reg .sp := (hkeep .sp (by decide) (by decide)).trans hsp₁
  have hpass₂ : Passes f.frame w s₂ := hpass.congr hsp₂ (hmem₂.trans hmem₁)
  have hother : ∀ r ∈ PhysReg.args, r ≠ .ra ∧ r ≠ .t0 := by decide
  have hregs₂ : InRegisters f.frame w s₂ := by
    intro k r hk
    obtain ⟨hra, ht⟩ := hother r (List.mem_of_mem_take (List.mem_of_getElem? hk))
    rw [hkeep r hra ht]
    exact hregs₁ k r hk
  rw [← hpc₂] at hcode
  obtain ⟨s', hs', hgot⟩ := receives hf hcode hpass₂ hregs₂
  refine ⟨s', ?_, ?_⟩
  · rw [callTail, List.length_append, RegSlots.length_loads]
    exact (hs₁.trans hs₂).trans hs'
  · exact ⟨hpc₂ ▸ hgot.pc, hgot.fp.trans hsp₂, hgot.words⟩

end FuncCode

end ChocoRV
