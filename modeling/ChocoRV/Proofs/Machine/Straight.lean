import Mathlib
import ChocoRV.Proofs.Machine.Place
import ChocoRV.Proofs.Machine.Run
import ChocoRV.Proofs.Machine.State

/-!
# Straight code

Code without jumps runs from its first address to the one after its last. `Image.Finds` says which
instructions the machine meets from an address on. Two kinds of straight code make up the frames of
functions and the ends of calls: registers stored to words around a base (`steps_stores_iff`) and
words around a base loaded into registers (`steps_loads`).
-/

namespace ChocoRV

variable {s s' : State}

namespace Image

variable {img : Image}

/-! ## Addresses and steps -/

/-- The address `n` instructions after `pc`. -/
def past (pc : Addr) (n : Nat) : Addr := pc + 4 * UInt32.ofNat n

@[simp] theorem past_zero (pc : Addr) : past pc 0 = pc := UInt32.add_zero pc

theorem past_past (pc : Addr) (n m : Nat) : past (past pc n) m = past pc (n + m) := by
  rw [past, past, past, UInt32.ofNat_add, UInt32.mul_add, UInt32.add_assoc]

theorem past_one (pc : Addr) : past pc 1 = pc + 4 := rfl

namespace Steps

variable {n m : Nat} {s s' s'' : State}

theorem unique (h : Steps img n s s') (h' : Steps img n s s'') : s' = s'' := by
  rcases h.linear h' with ⟨k, hk, hlen⟩ | ⟨k, hk, hlen⟩
  · obtain rfl : k = 0 := by omega
    cases hk
    rfl
  · obtain rfl : k = 0 := by omega
    cases hk
    rfl

end Steps

theorem steps_succ_iff {n : Nat} {op : Op Addr} (hf : img.fetch s.pc = some op) :
    Steps img (n + 1) s s' ↔ ∃ t, s.exec op = .running t ∧ Steps img n t s' := by
  constructor
  · intro h
    cases h with
    | step hf' he h =>
      rw [hf] at hf'
      cases hf'
      exact ⟨_, he, h⟩
  · rintro ⟨t, he, h⟩
    exact .step hf he h

theorem steps_running_iff {n : Nat} {t : State} {op : Op Addr} (hf : img.fetch s.pc = some op)
    (he : s.exec op = .running t) : Steps img (n + 1) s s' ↔ Steps img n t s' := by
  rw [steps_succ_iff hf, he]
  simp only [StepResult.running.injEq, exists_eq_left']

/-- The state after `n` steps, if the program is still running then. -/
def after (img : Image) : Nat → State → Option State
  | 0, s => some s
  | n + 1, s =>
    (img.fetch s.pc).bind fun op =>
      match s.exec op with
      | .running t => after img n t
      | .exited .. | .faulted .. => none

theorem steps_of_after {n : Nat} (h : img.after n s = some s') : Steps img n s s' := by
  induction n generalizing s with
  | zero =>
    cases h
    exact .refl s'
  | succ n ih =>
    obtain ⟨op, hf, h⟩ := Option.bind_eq_some_iff.mp h
    cases he : s.exec op with
    | running t =>
      rw [he] at h
      exact .step hf he (ih h)
    | exited code t =>
      rw [he] at h
      cases h
    | faulted f t =>
      rw [he] at h
      cases h

/-! ## What the machine finds -/

/-- From address `pc` on, the machine finds these instructions, with addresses for labels. -/
def Finds (img : Image) : Addr → List Instr → Prop
  | _, [] => True
  | pc, i :: is =>
    (∃ op, img.fetch pc = some op ∧ i.op.resolve (fun l => find img.labels l.name) = .ok op) ∧
      Finds img (pc + 4) is

instance decidableFinds (img : Image) : (pc : Addr) → (is : List Instr) →
    Decidable (img.Finds pc is)
  | _, [] => .isTrue trivial
  | pc, i :: is =>
    have := decidableFinds img (pc + 4) is
    have : Decidable (∃ op, img.fetch pc = some op ∧
        i.op.resolve (fun l => find img.labels l.name) = .ok op) :=
      match img.fetch pc, hr : i.op.resolve (fun l => find img.labels l.name) with
      | some op, .ok op' => decidable_of_iff (op = op') (by simp [hr, eq_comm])
      | none, _ => .isFalse (by simp)
      | some _, .error _ => .isFalse (by simp [hr])
    inferInstanceAs (Decidable (_ ∧ _))

theorem finds_append {pc : Addr} {is js : List Instr} :
    img.Finds pc (is ++ js) ↔ img.Finds pc is ∧ img.Finds (past pc is.length) js := by
  induction is generalizing pc with
  | nil => simp [Finds]
  | cons i is ih =>
    rw [List.cons_append, Finds, Finds, ih, ← past_one, past_past, List.length_cons, Nat.add_comm 1,
      and_assoc]

theorem finds_of_codeAt (himg : img.Unwrapped) {k : Nat} {is : List Instr} (h : img.CodeAt k is) :
    img.Finds (pcOf k) is := by
  induction is generalizing k with
  | nil => trivial
  | cons i is ih =>
    obtain ⟨⟨op, hop, hres⟩, h⟩ := codeAt_cons.mp h
    refine ⟨⟨op, himg.fetch_of_getElem? hop, hres⟩, ?_⟩
    rw [pcOf_add_four]
    exact ih h

end Image

/-! ## Stores -/

open Image

/-- A list of registers with the offsets of words they go to or come from. -/
abbrev RegSlots := List (PhysReg × Int32)

namespace RegSlots

/-- The instructions that store the registers around a base. -/
def stores (base : Reg) (ps : RegSlots) : List Instr :=
  ps.map fun p => ⟨.sw (.phys p.1) base p.2, none⟩

/-- The instructions that load the registers from around a base. -/
def loads (base : Reg) (ps : RegSlots) : List Instr :=
  ps.map fun p => ⟨.lw (.phys p.1) base p.2, none⟩

@[simp] theorem length_stores (base : Reg) (ps : RegSlots) : (stores base ps).length = ps.length :=
  List.length_map _

@[simp] theorem length_loads (base : Reg) (ps : RegSlots) : (loads base ps).length = ps.length :=
  List.length_map _

/-- Every word around the base is at a valid address. -/
def Valid (s : State) (base : Reg) (ps : RegSlots) : Prop :=
  ∀ p ∈ ps, State.nullPage ≤ s.addrOf base p.2

/-- The memory once the registers of `s` have been stored. -/
def write (s : State) (base : Reg) (ps : RegSlots) (m : Memory) : Memory :=
  ps.foldl (fun m p => m.writeWord (s.addrOf base p.2) (s.reg (.phys p.1))) m

end RegSlots

variable {base : Reg}

namespace State

/-- A store goes through exactly if its address is valid. -/
theorem exec_sw_eq_running_iff {src : Reg} {n : Int32} :
    s.exec (.sw src base n) = .running s' ↔ nullPage ≤ s.addrOf base n ∧
      s' = { s with memory := s.memory.writeWord (s.addrOf base n) (s.reg src), pc :=
        s.pc + 4 } := by
  by_cases h : nullPage ≤ s.addrOf base n
  · rw [exec, access_of_le h]
    simp [h, eq_comm]
  · rw [exec, access_of_lt (UInt32.not_le.mp h)]
    simp [h]

theorem exec_lw {rd : Reg} {n : Int32} (h : nullPage ≤ s.addrOf base n) :
    s.exec (.lw rd base n) = .running (s.put rd (s.memory.readWord (s.addrOf base n))) := by
  rw [exec, access_of_le h]

end State

namespace Image

variable {img : Image}

theorem steps_sw_iff {n : Nat} {src : Reg} {k : Int32} (hf : img.fetch s.pc = some (.sw src base k))
    : Steps img (n + 1) s s' ↔ State.nullPage ≤ s.addrOf base k ∧
      Steps img n { s with
        memory := s.memory.writeWord (s.addrOf base k) (s.reg src), pc := s.pc + 4 } s' := by
  rw [steps_succ_iff hf]
  simp only [State.exec_sw_eq_running_iff]
  constructor
  · rintro ⟨t, ⟨hvalid, rfl⟩, h⟩
    exact ⟨hvalid, h⟩
  · rintro ⟨hvalid, h⟩
    exact ⟨_, ⟨hvalid, rfl⟩, h⟩

/-- **Stored registers.** Stores around a base run to their end exactly if all their addresses are
valid, and change nothing but the words they go to. -/
theorem steps_stores_iff {ps : RegSlots} (h : img.Finds s.pc (RegSlots.stores base ps)) :
    Steps img ps.length s s' ↔ RegSlots.Valid s base ps ∧
      s' = { s with memory := RegSlots.write s base ps s.memory, pc := past s.pc ps.length } := by
  induction ps generalizing s with
  | nil =>
    constructor
    · intro hs
      cases hs
      exact ⟨fun p hp => absurd hp List.not_mem_nil, by rw [List.length_nil, past_zero]; rfl⟩
    · rintro ⟨-, rfl⟩
      rw [List.length_nil, past_zero]
      exact .refl s
  | cons p ps ih =>
    obtain ⟨⟨op, hf, hres⟩, hrest⟩ := h
    cases hres
    have hpc : past (s.pc + 4) ps.length = past s.pc (ps.length + 1) := by
      rw [← past_one, past_past, Nat.add_comm]
    -- The registers are as before the first store, and so are the addresses of the others.
    rw [List.length_cons, steps_sw_iff hf, ih hrest, ← hpc, RegSlots.Valid, RegSlots.Valid,
      List.forall_mem_cons, and_assoc]
    exact Iff.rfl

end Image

/-! ## Loads -/

/-- The state once words around a base have been loaded. -/
def State.loaded (s : State) (base : Reg) (ps : RegSlots) : State :=
  ps.foldl (fun t p => t.put (.phys p.1) (s.memory.readWord (s.addrOf base p.2))) s

namespace State

variable {base : Reg} {ps : RegSlots} {s : State}

/-- Loads into registers other than the base see one base and one memory. -/
theorem loaded_cons {p : PhysReg × Int32} (hp : .phys p.1 ≠ base) :
    s.loaded base (p :: ps) =
      (s.put (.phys p.1) (s.memory.readWord (s.addrOf base p.2))).loaded base ps := by
  have haddr (v n : Int32) : (s.put (.phys p.1) v).addrOf base n = s.addrOf base n := by
    rw [addrOf, addrOf, reg_put_of_ne _ _ hp.symm]
  simp only [loaded, List.foldl_cons, haddr, memory_put]

theorem loaded_frame (s : State) (base : Reg) (ps : RegSlots) :
    (s.loaded base ps).memory = s.memory ∧ (s.loaded base ps).pc = past s.pc ps.length := by
  suffices h : ∀ t : State, let t' := ps.foldl (fun t p => t.put (.phys p.1)
      (s.memory.readWord (s.addrOf base p.2))) t
      t'.memory = t.memory ∧ t'.pc = past t.pc ps.length from h s
  induction ps with
  | nil => exact fun t => ⟨rfl, (past_zero t.pc).symm⟩
  | cons p ps ih =>
    intro t
    obtain ⟨hmem, hpc⟩ := ih (t.put (.phys p.1) (s.memory.readWord (s.addrOf base p.2)))
    refine ⟨hmem, hpc.trans ?_⟩
    rw [pc_put, ← past_one, past_past, Nat.add_comm, List.length_cons]

theorem reg_loaded_of_not_mem {r : Reg} (h : ∀ p ∈ ps, r ≠ .phys p.1) :
    (s.loaded base ps).reg r = s.reg r := by
  suffices hall : ∀ t : State, (ps.foldl (fun t p => t.put (.phys p.1)
      (s.memory.readWord (s.addrOf base p.2))) t).reg r = t.reg r from hall s
  induction ps with
  | nil => exact fun t => rfl
  | cons p ps ih =>
    rw [List.forall_mem_cons] at h
    exact fun t => (ih h.2 _).trans (reg_put_of_ne _ _ h.1)

/-- Each register ends with the word that was loaded into it. -/
theorem reg_loaded_of_mem (hne : ∀ p ∈ ps, .phys p.1 ≠ base) (hzero : ∀ p ∈ ps, p.1 ≠ .zero)
    (hnodup : (ps.map (·.1)).Nodup) {r : PhysReg} {n : Int32} (h : (r, n) ∈ ps) :
    (s.loaded base ps).reg (.phys r) = s.memory.readWord (s.addrOf base n) := by
  induction ps generalizing s with
  | nil => exact absurd h List.not_mem_nil
  | cons p ps ih =>
    rw [List.map_cons, List.nodup_cons] at hnodup
    rw [List.forall_mem_cons] at hne hzero
    rw [loaded_cons hne.1]
    rcases List.mem_cons.mp h with rfl | h
    · rw [reg_loaded_of_not_mem, reg_put_self]
      · exact fun e => hzero.1 (Reg.phys.inj e)
      · intro q hq e
        obtain rfl : r = q.1 := Reg.phys.inj e
        exact hnodup.1 (List.mem_map.mpr ⟨q, hq, rfl⟩)
    · rw [ih hne.2 hzero.2 hnodup.2 h, memory_put, addrOf, reg_put_of_ne _ _ hne.1.symm]
      rfl

end State

/-- **Loaded registers.** Loads around a base run to their end if all their addresses are valid. -/
theorem Image.steps_loads {img : Image} {ps : RegSlots}
    (h : img.Finds s.pc (RegSlots.loads base ps)) (hne : ∀ p ∈ ps, .phys p.1 ≠ base)
    (hvalid : RegSlots.Valid s base ps) : Steps img ps.length s (s.loaded base ps) := by
  induction ps generalizing s with
  | nil => exact .refl s
  | cons p ps ih =>
    obtain ⟨⟨op, hf, hres⟩, hrest⟩ := h
    cases hres
    rw [List.forall_mem_cons] at hne
    obtain ⟨hp, hps⟩ := List.forall_mem_cons.mp hvalid
    rw [State.loaded_cons hne.1]
    refine .step hf (State.exec_lw hp) (ih hrest hne.2 fun q hq => ?_)
    rw [State.addrOf, State.reg_put_of_ne _ _ hne.1.symm]
    exact hps q hq

end ChocoRV
