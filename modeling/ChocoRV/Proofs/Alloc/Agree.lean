import Mathlib
import ChocoRV.Alloc.Allocation
import ChocoRV.Proofs.Machine.Region

/-!
# States before and after temporaries are placed

`Assignment.Agree` relates a state in which temporaries have registers of their own to one in which
they live in pool registers and frame words: the two agree on all that the code can see, and every
live temporary has its value at its location. The lemmas say what keeps the relation: writes to
registers, to memory, and to the locations themselves.
-/

namespace ChocoRV

/-- What a location holds. -/
def Location.value (s : State) : Location → Int32
  | .reg p => s.reg (.phys p)
  | .spill offset => s.memory.readWord (s.addrOf .fp offset)

/-- Two words that start a multiple of four apart and share a byte are the same. -/
theorem Addr.InWord.unique {a a' b : Addr} (h : InWord a b) (h' : InWord a' b)
    (hmod : a.toNat % 4 = a'.toNat % 4) : a = a' := by
  rw [← UInt32.toNat_inj]
  have ha := a.toNat_lt
  have ha' := a'.toNat_lt
  have key {a : Addr} (h : InWord a b) : ∃ i < 4, b.toNat = (a.toNat + i) % 4294967296 := by
    rcases h with rfl | rfl | rfl | rfl
    · exact ⟨0, by omega, by have := b.toNat_lt; omega⟩
    · exact ⟨1, by omega, UInt32.toNat_add _ _⟩
    · exact ⟨2, by omega, UInt32.toNat_add _ _⟩
    · exact ⟨3, by omega, UInt32.toNat_add _ _⟩
  obtain ⟨i, hi, hb⟩ := key h
  obtain ⟨j, hj, hb'⟩ := key h'
  omega

namespace Assignment

/-- Registers that only come in when temporaries are placed. -/
def Reserved (pool : List PhysReg) (p : PhysReg) : Prop := p ∈ pool ∨ p ∈ PhysReg.scratch

theorem ne_of_reserved {pool : List PhysReg} {p q : PhysReg} (hp : Reserved pool p)
    (hq : ¬ Reserved pool q) : Reg.phys q ≠ .phys p := by
  rintro ⟨⟩
  exact hq hp

/-- The bytes of the frame words that temporaries live in, for a frame at `frame`. -/
def Slots (asg : Assignment) (frame : Int32) (a : Addr) : Prop :=
  ∃ (v : Nat) (offset : Int32), asg[v]? = some (.spill offset) ∧
    Addr.InWord (frame + offset).toUInt32 a

/-- Locations are registers of the pool and frame words that overlap only if they are the same. -/
structure WellPlaced (asg : Assignment) (pool : List PhysReg) : Prop where
  allocatable : ∀ p ∈ pool, p ∈ PhysReg.allocatable
  reg {v : Nat} {p : PhysReg} (h : asg[v]? = some (.reg p)) : p ∈ pool
  aligned {v w : Nat} {o o' : Int32} (h : asg[v]? = some (.spill o))
    (h' : asg[w]? = some (.spill o')) : o.toUInt32.toNat % 4 = o'.toUInt32.toNat % 4

/-- A state over temporaries and one over locations agree while the temporaries in `live` count. -/
structure Agree (asg : Assignment) (pool : List PhysReg) (frame : Int32) (live : Nat → Prop)
    (s₁ s₂ : State) : Prop where
  regs (p : PhysReg) (hp : ¬ Reserved pool p) : s₂.reg (.phys p) = s₁.reg (.phys p)
  memory (a : Addr) (ha : ¬ asg.Slots frame a) : s₂.memory.read a = s₁.memory.read a
  brk : s₂.brk = s₁.brk
  stdout : s₂.stdout = s₁.stdout
  frame : s₁.reg .fp = frame
  temps (v : Nat) (hv : live v) : ∃ loc, asg[v]? = some loc ∧ loc.value s₂ = s₁.reg (.virt v)

variable {asg : Assignment} {pool : List PhysReg} {frame : Int32} {live after : Nat → Prop}
variable {s₁ s₂ : State}

/-! ## Locations -/

namespace WellPlaced

variable (w : asg.WellPlaced pool)

include w

theorem not_reserved {p : PhysReg} (hp : p ∉ PhysReg.allocatable) (hs : p ∉ PhysReg.scratch) :
    ¬ Reserved pool p := by
  rintro (h | h)
  · exact hp (w.allocatable p h)
  · exact hs h

theorem fp_not_reserved : ¬ Reserved pool .fp := w.not_reserved (by decide) (by decide)

theorem a0_not_reserved : ¬ Reserved pool .a0 := w.not_reserved (by decide) (by decide)

theorem a7_not_reserved : ¬ Reserved pool .a7 := w.not_reserved (by decide) (by decide)

theorem ne_of_mem {p q : PhysReg} (hp : p ∈ pool) (hq : q ∉ PhysReg.allocatable) : p ≠ q := by
  rintro rfl
  exact hq (w.allocatable p hp)

/-- Frame words of temporaries with different offsets share no byte. -/
theorem apart {v u : Nat} {o o' : Int32} (h : asg[v]? = some (.spill o))
    (h' : asg[u]? = some (.spill o')) (hne : o ≠ o') {b : Addr}
    (hb : Addr.InWord (frame + o).toUInt32 b) : ¬ Addr.InWord (frame + o').toUInt32 b := by
  intro hb'
  have hmod := w.aligned h h'
  have hadd (x : Int32) :
      (frame + x).toUInt32.toNat = (frame.toUInt32.toNat + x.toUInt32.toNat) % 4294967296 := by
    rw [Int32.toUInt32_add]
    exact UInt32.toNat_add _ _
  have heq := hb.unique hb' (by rw [hadd, hadd]; omega)
  have heq' : frame + o = frame + o' := congrArg UInt32.toInt32 heq
  exact hne ((Int32.add_right_inj frame).mp heq')

end WellPlaced

/-! ## What keeps states in agreement -/

namespace Agree

section

variable (h : asg.Agree pool frame live s₁ s₂)

include h

theorem fp_eq (w : asg.WellPlaced pool) :
    s₂.reg .fp = frame := by
  rw [h.regs .fp w.fp_not_reserved, h.frame]

theorem addrOf_fp (w : asg.WellPlaced pool) (o : Int32) :
    s₂.addrOf .fp o = (frame + o).toUInt32 := by
  rw [State.addrOf, h.fp_eq w]

/-- Temporaries that no longer count may be forgotten. -/
theorem mono (hlive : ∀ v, after v → live v) :
    asg.Agree pool frame after s₁ s₂ :=
  { h with temps := fun v hv => h.temps v (hlive v hv) }

/-- The relation does not depend on where the two programs are. -/
theorem goto (a₁ a₂ : Addr) :
    asg.Agree pool frame live (s₁.goto a₁) (s₂.goto a₂) :=
  ⟨h.regs, h.memory, h.brk, h.stdout, h.frame, h.temps⟩

theorem print (text : String) :
    asg.Agree pool frame live (s₁.print text) (s₂.print text) :=
  { h with stdout := congrArg (· ++ text) h.stdout }

end

/-- A location keeps its value if no register or byte of it changes. -/
theorem value_congr {s s' : State} {loc : Location}
    (hreg : ∀ p, loc = .reg p → s'.reg (.phys p) = s.reg (.phys p))
    (hfp : s'.reg .fp = s.reg .fp)
    (hmem : ∀ o, loc = .spill o → ∀ b, Addr.InWord (s.addrOf .fp o) b →
      s'.memory.read b = s.memory.read b) : loc.value s' = loc.value s := by
  cases loc with
  | reg p => exact hreg p rfl
  | spill o =>
    have haddr : s'.addrOf .fp o = s.addrOf .fp o := by rw [State.addrOf, State.addrOf, hfp]
    rw [Location.value, Location.value, haddr]
    exact Memory.readWord_congr (hmem o rfl)

variable (h : asg.Agree pool frame live s₁ s₂)

include h

/-- Both programs write the same value to a register of the code. -/
theorem put_phys (w : asg.WellPlaced pool) {p : PhysReg}
    (hp : ¬ Reserved pool p) (hfp : p ≠ .fp) (v : Int32) :
    asg.Agree pool frame live (s₁.put (.phys p) v) (s₂.put (.phys p) v) where
  regs q hq := by
    by_cases hqp : q = p
    · subst hqp
      by_cases hz : Reg.phys q = .zero
      · rw [hz]
        rfl
      · rw [State.reg_put_self _ _ hz, State.reg_put_self _ _ hz]
    · have hqp' : Reg.phys q ≠ .phys p := fun e => hqp (Reg.phys.inj e)
      rw [State.reg_put_of_ne _ _ hqp', State.reg_put_of_ne _ _ hqp', h.regs q hq]
  memory := h.memory
  brk := h.brk
  stdout := h.stdout
  frame := by
    rw [State.reg_put_of_ne _ _ fun e => hfp (Reg.phys.inj e).symm, h.frame]
  temps u hu := by
    obtain ⟨loc, hloc, hval⟩ := h.temps u hu
    refine ⟨loc, hloc, ?_⟩
    rw [State.reg_put_of_ne _ _ (by simp), ← hval]
    refine value_congr (fun q hq => ?_) ?_ (fun o _ b _ => rfl)
    · subst hq
      exact State.reg_put_of_ne _ _ (ne_of_reserved (.inl (w.reg hloc)) hp).symm
    · exact State.reg_put_of_ne _ _ fun e => hfp (Reg.phys.inj e).symm

/-- A temporary that lives in a register is written. -/
theorem put_reg (w : asg.WellPlaced pool) {t : Nat}
    {p : PhysReg} (ht : asg[t]? = some (.reg p)) (hkept : ∀ v, after v → live v ∨ v = t)
    (hapart : ∀ v, after v → v ≠ t → asg[v]? ≠ asg[t]?) (x : Int32) :
    asg.Agree pool frame after (s₁.put (.virt t) x) (s₂.put (.phys p) x) where
  regs q hq := by
    rw [State.reg_put_of_ne _ _ (ne_of_reserved (.inl (w.reg ht)) hq),
      State.reg_put_of_ne _ _ (by simp), h.regs q hq]
  memory := h.memory
  brk := h.brk
  stdout := h.stdout
  frame := by rw [State.reg_put_of_ne _ _ (by simp), h.frame]
  temps u hu := by
    have hpool := w.reg ht
    by_cases hut : u = t
    · subst hut
      refine ⟨_, ht, ?_⟩
      rw [State.reg_put_self _ _ (by simp), Location.value]
      exact State.reg_put_self _ _ fun e => w.ne_of_mem hpool (by decide) (Reg.phys.inj e)
    · obtain ⟨loc, hloc, hval⟩ := h.temps u ((hkept u hu).resolve_right hut)
      refine ⟨loc, hloc, ?_⟩
      rw [State.reg_put_of_ne _ _ fun e => hut (Reg.virt.inj e), ← hval]
      refine value_congr (fun q hq => ?_) ?_ (fun o _ b _ => rfl)
      · subst hq
        refine State.reg_put_of_ne _ _ fun e => hapart u hu hut ?_
        rw [hloc, ht, Reg.phys.inj e]
      · exact State.reg_put_of_ne _ _ fun e => w.ne_of_mem hpool (by decide) (Reg.phys.inj e).symm

/-- A temporary that lives in the frame is written. -/
theorem put_spill (w : asg.WellPlaced pool) {t : Nat}
    {o : Int32} (ht : asg[t]? = some (.spill o)) (hkept : ∀ v, after v → live v ∨ v = t)
    (hapart : ∀ v, after v → v ≠ t → asg[v]? ≠ asg[t]?) (x : Int32) (pc : Addr) :
    asg.Agree pool frame after (s₁.put (.virt t) x)
      { s₂ with memory := s₂.memory.writeWord (frame + o).toUInt32 x, pc } where
  regs q hq := by
    rw [State.reg_put_of_ne _ _ (by simp)]
    exact h.regs q hq
  memory a ha := by
    rw [State.memory_put, ← h.memory a ha]
    exact Memory.read_writeWord_of_not_inWord _ _ _ fun hin => ha ⟨t, o, ht, hin⟩
  brk := h.brk
  stdout := h.stdout
  frame := by rw [State.reg_put_of_ne _ _ (by simp), h.frame]
  temps u hu := by
    have hfp : s₂.addrOf .fp = fun o => (frame + o).toUInt32 := funext (h.addrOf_fp w)
    by_cases hut : u = t
    · subst hut
      refine ⟨_, ht, ?_⟩
      rw [State.reg_put_self _ _ (by simp), Location.value]
      show (s₂.memory.writeWord _ x).readWord (s₂.addrOf .fp o) = x
      rw [hfp]
      exact Memory.readWord_writeWord_self _ _ _
    · obtain ⟨loc, hloc, hval⟩ := h.temps u ((hkept u hu).resolve_right hut)
      refine ⟨loc, hloc, ?_⟩
      rw [State.reg_put_of_ne _ _ fun e => hut (Reg.virt.inj e), ← hval]
      refine value_congr (fun q _ => rfl) rfl (fun o' ho' b hb => ?_)
      subst ho'
      rw [hfp] at hb
      have hne : o' ≠ o := by
        rintro rfl
        exact hapart u hu hut (hloc.trans ht.symm)
      exact Memory.read_writeWord_of_not_inWord _ _ _ (w.apart hloc ht hne hb)

/-- Both programs write the same outside of the frame words. -/
theorem write (w : asg.WellPlaced pool) {wd : Width} {a : Addr}
    (ha : ∀ b, wd.Bytes a b → ¬ asg.Slots frame b) (v : Int32) (pc₁ pc₂ : Addr) :
    asg.Agree pool frame live { s₁ with memory := wd.write s₁.memory a v, pc := pc₁ }
      { s₂ with memory := wd.write s₂.memory a v, pc := pc₂ } where
  regs := h.regs
  memory b hb := Memory.read_write_congr (h.memory b hb)
  brk := h.brk
  stdout := h.stdout
  frame := h.frame
  temps u hu := by
    obtain ⟨loc, hloc, hval⟩ := h.temps u hu
    refine ⟨loc, hloc, Eq.trans (value_congr (s := s₂) (fun q _ => rfl) rfl fun o ho b hb => ?_)
      hval⟩
    subst ho
    rw [h.addrOf_fp w] at hb
    exact Memory.read_write_of_not_bytes fun hin => ha b hin ⟨u, o, hloc, hb⟩

end Agree

end Assignment

end ChocoRV
