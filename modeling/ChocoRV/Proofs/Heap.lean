import Mathlib
import ChocoRV.Proofs.ErrorExits
import ChocoRV.Proofs.Machine.Straight
import ChocoRV.Proofs.Routine.Alloc

/-!
# Objects on the heap do not overlap

A run makes objects by calling one of two routines, and no other code moves the break:
`Image.History` is such a run, with the objects that it has made. Every call takes the room from the
break on and moves the break behind it. So the break is above all objects, whatever else the code
does to registers and memory, and a new object lies apart from all of them.
-/

namespace ChocoRV

open Assembly Image

/-! ## Calls that return -/

namespace Image

/-- A call of code that begins at instruction `k` leads from `s` to `s'`: it goes through
instructions before `last`, and there back to the address in `ra`. -/
def Returns (img : Image) (k last : Nat) (s s' : State) : Prop :=
  ∃ t, img.Comes (fun j => k ≤ j ∧ j < last) s t ∧ t.pc = pcOf last ∧
    s' = t.goto (t.reg .ra).toUInt32

variable {img : Image} {k j last : Nat} {s s' s'' : State}

/-- Different instructions have different addresses. -/
theorem Unwrapped.pcOf_inj (himg : img.Unwrapped) {op op' : Op Addr} (hk : img.code[k]? = some op)
    (hj : img.code[j]? = some op') (h : pcOf k = pcOf j) : k = j := by
  have hlt {i : Nat} {op : Op Addr} (hi : img.code[i]? = some op) :
      textBase.toNat + 4 * i < UInt32.size := by
    obtain ⟨hi, -⟩ := Array.getElem?_eq_some_iff.mp hi
    have hsize : textBase.toNat + 4 * img.code.size ≤ UInt32.size := himg
    omega
  have hnat := congrArg UInt32.toNat h
  rw [toNat_pcOf (hlt hk), toNat_pcOf (hlt hj)] at hnat
  omega

/-- The first state outside of the instructions that a program comes by is one only. -/
theorem Comes.unique (himg : img.Unwrapped) {inside : Nat → Prop} {op op' : Op Addr}
    (hk : img.code[k]? = some op) (hj : img.code[j]? = some op') (hout : ¬ inside k)
    (hout' : ¬ inside j) (h : img.Comes inside s s') (h' : img.Comes inside s s'')
    (hpc : s'.pc = pcOf k) (hpc' : s''.pc = pcOf j) : s' = s'' := by
  obtain ⟨n, hw⟩ := h
  obtain ⟨n', hw'⟩ := h'
  -- The walk that is longer would have left the instruction, which is not one of those inside.
  have hshort {n n' i : Nat} {op : Op Addr} {t t' : State}
      (hw : Walk img (Safe img inside fun _ => True) n s t)
      (hw' : Walk img (Safe img inside fun _ => True) n' s t') (hi : img.code[i]? = some op)
      (hout : ¬ inside i) (hpc : t.pc = pcOf i) : n' ≤ n := by
    by_contra hlt
    obtain ⟨_, _, hj, hcode, hin, -⟩ := hw'.visits hw.steps (Nat.lt_of_not_le hlt)
    exact hout (himg.pcOf_inj hcode hi (hj.symm.trans hpc) ▸ hin)
  obtain rfl := Nat.le_antisymm (hshort hw' hw hj hout' hpc') (hshort hw hw' hk hout hpc)
  exact hw.steps.unique hw'.steps

/-- A call leads to one state only. -/
theorem Returns.unique (himg : img.Unwrapped) {op : Op Addr} (hlast : img.code[last]? = some op)
    (h : img.Returns k last s s') (h' : img.Returns k last s s'') : s' = s'' := by
  obtain ⟨t, hc, hpc, rfl⟩ := h
  obtain ⟨t', hc', hpc', rfl⟩ := h'
  have hout : ¬ (k ≤ last ∧ last < last) := fun hin => Nat.lt_irrefl last hin.2
  rw [hc.unique himg hlast hlast hout hout hc' hpc hpc']

end Image

/-! ## The allocators -/

/-- The routines that make objects. -/
inductive Allocator where
  | copying
  | making

namespace Allocator

def label : Allocator → Label
  | .copying => Routine.alloc
  | .making => Routine.alloc2

def items : Allocator → List Item
  | .copying => Routine.allocItems
  | .making => Routine.alloc2Items

/-- How many payload words the object is to have. -/
def asked (s : State) : Allocator → Int32
  | .copying => s.memory.readWord (s.reg .a0 + Object.sizeOffset).toUInt32
  | .making => s.reg .a2

/-- The number of bytes that are taken from the object whose header begins at the prototype. -/
def taken (n : Nat) : Allocator → Nat
  | .copying => 12 + 4 * n
  | .making => 8

/-- The words of the new object, header and payload: those of the prototype, or its tag and its
dispatch table, a size and zeros. -/
def contents (s : State) (p : Addr) (n : Nat) : Allocator → List Int32
  | .copying => s.memory.elements .word p (n + 3)
  | .making => s.memory.readWord p :: s.memory.readWord (p + 4) :: s.reg .a1 :: List.replicate n 0

/-- The number of instructions before the one that returns. -/
def length (r : Allocator) : Nat := (instrs r.items.dropLast).length

end Allocator

namespace Image

/-- A call of an allocator for an object of `n` payload words, with a prototype whose header begins
at `p`. What is taken from the prototype is at valid addresses and not in the room for the new
object, and the break does not wrap around. -/
structure Asks (img : Image) (r : Allocator) (p : Addr) (n : Nat) (s : State) : Prop where
  entry : img.label? r.label.name = some s.pc
  words : r.asked s = Int32.ofNat n
  proto : s.reg .a0 = (p + 12).toInt32
  valid : State.nullPage.toNat ≤ p.toNat
  whole : p.toNat + r.taken n ≤ UInt32.size
  room : s.brk.toNat + (12 + 4 * n) < UInt32.size
  apart : Region.Apart ⟨p, r.taken n⟩ ⟨s.brk, 12 + 4 * n⟩

/-- An allocator is called in `s` and has come back in `s'`. -/
def Calls (img : Image) (r : Allocator) (s s' : State) : Prop :=
  ∃ k, img.Holds (fun _ => True) k r.items ∧ s.pc = pcOf k ∧ img.Returns k (k + r.length) s s'

end Image

/-- What an allocator does: there is a new object at the break, four-aligned, with the words it is
to have. The break is behind it, and nothing else has changed but registers that callers save. -/
structure State.Made (s : State) (r : Allocator) (p : Addr) (n : Nat) (s' : State) : Prop where
  pc : s'.pc = (s.reg .ra).toUInt32
  result : s'.reg .a0 = (s.brk + 12).toInt32
  aligned : 4 ∣ (s.brk + 12).toNat
  words : s'.memory.elements .word s.brk (n + 3) = r.contents s p n
  others : Memory.Frame [⟨s.brk, 12 + 4 * n⟩] s.memory s'.memory
  brk : s'.brk.toNat = s.brk.toNat + (12 + 4 * n)
  regs : s.Preserves [.a0, .a7, .t0, .t1, .t2, .t3, .t4] s'
  stdout : s'.stdout = s.stdout

/-- Words whose bytes are zero. -/
theorem Memory.elements_eq_replicate {m : Memory} {a : Addr} {n : Nat}
    (ha : a.toNat + 4 * n ≤ UInt32.size) (h : ∀ b, Region.Contains ⟨a, 4 * n⟩ b → m.read b = 0) :
    m.elements .word a n = List.replicate n 0 := by
  refine List.eq_replicate_iff.mpr ⟨m.length_elements .word a n, fun w hw => ?_⟩
  obtain ⟨i, hi, rfl⟩ := List.mem_map.mp hw
  have hi := List.mem_range.mp hi
  obtain ⟨haddr, hlast⟩ := Memory.element_within (w := .word) ha hi
  rw [show Width.word.size = 4 from rfl] at haddr hlast ⊢
  have hzero (b : Addr) (hb : Addr.InWord (a + UInt32.ofNat (4 * i)) b) : m.read b = 0 := by
    have hword := Addr.toNat_of_inWord (by omega) hb
    exact h b (Region.contains_mk.mpr (by omega))
  show m.readWord _ = 0
  rw [readWord, hzero _ (.inl rfl), hzero _ (.inr (.inl rfl)), hzero _ (.inr (.inr (.inl rfl))),
    hzero _ (.inr (.inr (.inr rfl)))]
  rfl

/-- A four-aligned break moves by whole words. -/
theorem toNat_align4_add {a : Addr} {n : Nat} (ha : 4 ∣ a.toNat) (hn : 4 ∣ n)
    (h : a.toNat + n < UInt32.size) :
    (Addr.align4 (a + UInt32.ofNat n)).toNat = a.toNat + n := by
  have hsum : a + UInt32.ofNat n = UInt32.ofNat (a.toNat + n) := by
    rw [UInt32.ofNat_add, UInt32.ofNat_toNat]
  rw [hsum, Addr.align4_ofNat, alignUp_eq_self (Nat.dvd_add ha hn), UInt32.toNat_ofNat_of_lt' h]

variable {img : Image} {r : Allocator} {k n : Nat} {p : Addr} {s : State}

/-- A call of an allocator returns with the object made. -/
theorem Image.Asks.returns (h : img.Asks r p n s) (himg : img.Unwrapped)
    (hcode : img.Holds (fun _ => True) k r.items) (hpc : s.pc = pcOf k)
    (hbrk : State.nullPage.toNat ≤ s.brk.toNat) (haligned : 4 ∣ s.brk.toNat) :
    ∃ s', img.Returns k (k + r.length) s s' ∧ s.Made r p n s' := by
  have hroom := h.room
  have hsize : UInt32.size = 4294967296 := rfl
  obtain ⟨h4, h8, h12⟩ := Addr.toNat_words (a := s.brk) (by omega)
  let inside : Nat → Prop := fun j => k ≤ j ∧ j < k + r.length
  have hitems : r.items = r.items.dropLast ++ [.op (.jumpReg .ra)] := by cases r <;> rfl
  have hbody : img.At inside k (r.items.dropLast ++ []) s := by
    rw [hitems] at hcode
    rw [List.append_nil]
    exact ⟨(holds_append.mp hcode).1.within fun j hl hh => ⟨hl, hh⟩, hpc⟩
  -- All but the last instruction make the object.
  obtain ⟨t, hcomes, hat, halloc, hwords⟩ : ∃ t, img.Comes inside s t ∧
      img.At inside (k + r.length) [] t ∧ s.Allocates n t ∧
      t.memory.elements .word s.brk (n + 3) = r.contents s p n := by
    cases r with
    | copying =>
      have hn : s.memory.readWord (p + 8) = Int32.ofNat n := by
        rw [← h.words, Allocator.asked, h.proto]
        exact congrArg s.memory.readWord (Object.size_addr p).symm
      exact hbody.duplicates himg hn hbrk hroom h.proto h.valid h.whole h.apart
    | making =>
      obtain ⟨t, hcomes, hat, hmakes⟩ :=
        hbody.makes himg h.words hbrk hroom h.proto h.valid h.whole h.apart
      refine ⟨t, hcomes, hat, hmakes.toAllocates, ?_⟩
      have hnext (a : Addr) : a + UInt32.ofNat Width.word.size = a + 4 := rfl
      rw [Memory.elements_succ, Memory.elements_succ, Memory.elements_succ, hnext, hnext, hnext,
        show s.brk + 4 + 4 = s.brk + 8 from by rw [UInt32.add_assoc]; rfl,
        show s.brk + 8 + 4 = s.brk + 12 from by rw [UInt32.add_assoc]; rfl,
        Memory.elements_eq_replicate (by omega) hmakes.zeros]
      show t.memory.readWord s.brk :: t.memory.readWord (s.brk + 4) ::
        t.memory.readWord (s.brk + 8) :: _ = _
      rw [hmakes.tag, hmakes.dispatch, hmakes.size]
      rfl
  have hra : t.reg .ra = s.reg .ra := halloc.regs .ra (by decide)
  refine ⟨_, ⟨t, hcomes, hat.pc, rfl⟩, ?_, halloc.result, ?_, hwords, halloc.frame, ?_, halloc.regs,
    halloc.stdout⟩
  · rw [State.pc_goto, hra]
  · rw [h12]
    exact Nat.dvd_add haligned (by decide)
  · rw [State.brk_goto, halloc.brk]
    exact toNat_align4_add haligned (Nat.dvd_add (by decide) (Nat.dvd_mul_right 4 n)) hroom

/-! ## Runs -/

/-- The operation is the system call that moves the break. -/
def State.MovesBreak (s : State) (op : Op Addr) : Prop :=
  op = .ecall ∧ Syscall.ofNumber? (s.reg .a7) = some .sbrk

/-- No other operation moves the break. -/
theorem State.brk_of_exec {s s' : State} {op : Op Addr} (h : s.exec op = .running s')
    (hop : ¬ s.MovesBreak op) : s'.brk = s.brk := by
  cases op with
  | alu | aluImm | shift | li | la | unary | jump | call | callReg | jumpReg =>
    cases h
    rfl
  | load w rd base n | store w rd base n =>
    simp only [exec, access] at h
    split at h
    · cases h
    · cases w <;> cases h <;> rfl
  | branch c a b t | branchZero c a t =>
    simp only [exec] at h
    split at h <;> cases h <;> rfl
  | ecall =>
    -- Of the system calls that go on, those that print are left.
    simp only [exec, syscall] at h
    split at h
    · cases h
      rfl
    · rw [access] at h
      split at h <;> cases h
      rfl
    · cases h
      rfl
    · rename_i hcall
      exact absurd ⟨rfl, hcall⟩ hop
    · cases h
    · cases h
    · cases h

/-- A run from a state whose break is `start`, with the references to the objects that it has made
and their numbers of payload words, the last one first. It takes steps that do not move the break,
and calls allocators. -/
inductive Image.History (img : Image) (start : Addr) : List (Addr × Nat) → State → Prop
  | begins {s : State} (h : s.brk = start) : History img start [] s
  | step {os : List (Addr × Nat)} {s s' : State} {op : Op Addr} (h : History img start os s)
      (hf : img.fetch s.pc = some op) (he : s.exec op = .running s') (hop : ¬ s.MovesBreak op) :
      History img start os s'
  | call {os : List (Addr × Nat)} {s s' : State} {r : Allocator} {p : Addr} {n : Nat}
      (h : History img start os s) (hasks : img.Asks r p n s) (hcalls : img.Calls r s s') :
      History img start (((s'.reg .a0).toUInt32, n) :: os) s'

/-- Where an object is: its header begins twelve bytes before its reference. -/
def Object.extent (o : Addr × Nat) : Region := ⟨o.1 - 12, 12 + 4 * o.2⟩

/-- The break is above all that has been allocated. -/
structure State.Heap (s : State) (bottom : Nat) (os : List (Addr × Nat)) : Prop where
  aligned : 4 ∣ s.brk.toNat
  above : bottom ≤ s.brk.toNat
  within : ∀ o ∈ os, bottom ≤ (Object.extent o).base.toNat ∧
    (Object.extent o).base.toNat + (Object.extent o).size ≤ s.brk.toNat
  apart : os.Pairwise fun o o' => (Object.extent o).Apart (Object.extent o')

/-- Code that leaves the break alone keeps the heap. -/
theorem State.Heap.of_brk {s s' : State} {bottom : Nat} {os : List (Addr × Nat)}
    (h : s.Heap bottom os) (hbrk : s'.brk = s.brk) : s'.Heap bottom os :=
  ⟨hbrk ▸ h.aligned, hbrk ▸ h.above, hbrk ▸ h.within, h.apart⟩

/-- A new object joins the heap. -/
theorem State.Heap.made {s s' : State} {bottom : Nat} {os : List (Addr × Nat)}
    (h : s.Heap bottom os) (hmade : s.Made r p n s') :
    s'.Heap bottom (((s'.reg .a0).toUInt32, n) :: os) := by
  have hbrk := hmade.brk
  have habove := h.above
  have hextent : Object.extent ((s'.reg .a0).toUInt32, n) = ⟨s.brk, 12 + 4 * n⟩ := by
    rw [hmade.result]
    exact congrArg (Region.mk · _) (UInt32.add_sub_cancel s.brk 12)
  refine ⟨?_, by omega, ?_, ?_⟩
  · rw [hbrk]
    exact Nat.dvd_add h.aligned (Nat.dvd_add (by decide) (Nat.dvd_mul_right 4 n))
  · refine List.forall_mem_cons.mpr ⟨?_, fun o ho => ?_⟩
    · rw [hextent]
      exact ⟨habove, by rw [hbrk]⟩
    · obtain ⟨hl, hh⟩ := h.within o ho
      exact ⟨hl, by omega⟩
  · refine List.pairwise_cons.mpr ⟨fun o ho => ?_, h.apart⟩
    rw [hextent]
    exact Region.apart_of_le (.inr (h.within o ho).2)

/-- A call of an allocator comes back, in one state only. -/
theorem Image.Asks.calls (h : img.Asks r p n s) (himg : img.Unwrapped)
    (hcode : ∃ k, img.Holds (fun _ => True) k r.items) (hbrk : State.nullPage.toNat ≤ s.brk.toNat)
    (haligned : 4 ∣ s.brk.toNat) : ∃ s', s.Made r p n s' ∧ ∀ s'', img.Calls r s s'' ↔ s'' = s' := by
  -- The code of an allocator begins with its label and an instruction.
  have hfirst {k : Nat} (hcode : img.Holds (fun _ => True) k r.items) :
      img.label? r.label.name = some (pcOf k) ∧ ∃ op, img.code[k]? = some op := by
    cases r with
    | copying | making =>
      obtain ⟨op, hop, -⟩ := hcode.2.1.1
      exact ⟨find_eq_ok_iff.mp hcode.1, op, hop⟩
  obtain ⟨k, hcode⟩ := hcode
  obtain ⟨hlabel, op, hop⟩ := hfirst hcode
  have hpc : s.pc = pcOf k := Option.some.inj (h.entry.symm.trans hlabel)
  obtain ⟨s', hreturns, hmade⟩ := h.returns himg hcode hpc hbrk haligned
  refine ⟨s', hmade, fun s'' => ⟨?_, ?_⟩⟩
  · rintro ⟨k', hcode', hpc', hreturns'⟩
    obtain ⟨-, op', hop'⟩ := hfirst hcode'
    obtain rfl := himg.pcOf_inj hop' hop (hpc'.symm.trans hpc)
    have hitems : r.items = r.items.dropLast ++ [.op (.jumpReg .ra)] := by cases r <;> rfl
    rw [hitems] at hcode
    obtain ⟨⟨⟨last, hlast, -⟩, -⟩, -⟩ := (holds_append.mp hcode).2
    exact hreturns'.unique himg hlast hreturns
  · rintro rfl
    exact ⟨k, hcode, hpc, hreturns⟩

/-- In a run from a break that is four-aligned and at a valid address the heap stays in order. -/
theorem Image.History.heap {start : Addr} {bottom : Nat} {os : List (Addr × Nat)}
    (h : img.History start os s) (himg : img.Unwrapped)
    (hcode : ∀ r : Allocator, ∃ k, img.Holds (fun _ => True) k r.items)
    (hbottom : State.nullPage.toNat ≤ bottom) (hstart : bottom ≤ start.toNat)
    (haligned : 4 ∣ start.toNat) : s.Heap bottom os := by
  induction h with
  | begins h =>
    subst h
    exact ⟨haligned, hstart, List.forall_mem_nil _, .nil⟩
  | step _ _ he hop ih => exact ih.of_brk (State.brk_of_exec he hop)
  | @call _ _ _ r _ _ _ hasks hcalls ih =>
    have hvalid := ih.above
    obtain ⟨s', hmade, huniq⟩ := hasks.calls himg (hcode r) (by omega) ih.aligned
    obtain rfl := (huniq _).mp hcalls
    exact ih.made hmade

/-- In every run of a compiled program, every call of an allocator comes back with a new object that
has the words it is to have, four-aligned and twelve bytes above the break, and changes nothing else
in memory. All objects that the run has made are pairwise apart and lie above the data. -/
theorem heap_objects_apart {prog : Program} {settings : CodegenSettings} {a : Assembly}
    {img : Image} {init : State} (hcompile : compile prog settings = .ok a)
    (hload : load a = .ok (img, init)) (himg : img.Unwrapped)
    (hdata : alignUp a.dataTop < UInt32.size) {os : List (Addr × Nat)} {s : State}
    (h : img.History init.brk os s) :
    (∀ r p n, img.Asks r p n s → ∃ s', s.Made r p n s' ∧ ∀ s'', img.Calls r s s'' ↔ s'' = s') ∧
      (os.Pairwise fun o o' => (Object.extent o).Apart (Object.extent o')) ∧
      ∀ o ∈ os, a.dataTop ≤ (Object.extent o).base.toNat ∧
        (Object.extent o).base.toNat + (Object.extent o).size ≤ s.brk.toNat := by
  obtain ⟨table, bodies, payload, hc⟩ := compile_eq_ok hcompile
  have hcode (r : Allocator) : ∃ k, img.Holds (fun _ => True) k r.items := by
    refine hc.holds_routine hload ?_
    cases r with
    | copying | making => simp [Routine.parts, Allocator.items]
  have hstart : init.brk.toNat = alignUp a.dataTop := by
    rw [brk_of_load hload, UInt32.toNat_ofNat_of_lt' hdata]
  have hbase : State.nullPage.toNat ≤ a.dataTop :=
    Nat.le_trans (by decide) (Datum.le_top dataBase.toNat a.data)
  have hheap := h.heap himg hcode hbase (hstart ▸ le_alignUp _) (hstart ▸ dvd_alignUp _)
  refine ⟨fun r p n hasks => ?_, hheap.apart, hheap.within⟩
  exact hasks.calls himg (hcode r) (Nat.le_trans hbase hheap.above) hheap.aligned

/-- A copy of the prototype of integers, and then an object with its header and two words of
payload. -/
theorem twoObjects_apart :
    ∃ (a : Assembly) (img : Image) (init : State) (q : Addr) (s s' s'' : State),
      compile {} ⟨.physical, false, 4⟩ = .ok a ∧ load a = .ok (img, init) ∧
      img.label? Routine.intPrototype.name = some (q + 12) ∧ s.brk = init.brk ∧
      s.Made .copying q 1 s' ∧ s'.Made .making s.brk 2 s'' ∧
      (Object.extent (s.brk + 12, 1)).Apart (Object.extent (s'.brk + 12, 2)) := by
  have hcheck : Program.loadsWith {} ⟨.physical, false, 4⟩ (fun a img init =>
      decide (alignUp a.dataTop + 1000 < UInt32.size) &&
        (img.label? Routine.intPrototype.name).any fun ref =>
          (img.label? Routine.alloc.name).isSome && (img.label? Routine.alloc2.name).isSome &&
            decide (init.memory.readWord (ref.toInt32 + Object.sizeOffset).toUInt32 = 1) &&
            decide (State.nullPage.toNat + 12 ≤ ref.toNat) &&
            decide (ref.toNat + 4 ≤ init.brk.toNat)) = true := by decide +kernel
  obtain ⟨a, img, init, hcompile, hload, himg, hcheck⟩ := Program.exists_loaded hcheck
  simp only [Option.any_eq_true, Bool.and_eq_true, decide_eq_true_eq, Option.isSome_iff_exists]
    at hcheck
  obtain ⟨hdata, ref, href, ⟨⟨⟨⟨alloc, halloc⟩, alloc2, halloc2⟩, hlen⟩, hvalid⟩, hbelow⟩ := hcheck
  have hdata' : alignUp a.dataTop < UInt32.size := by omega
  have hstart : init.brk.toNat = alignUp a.dataTop := by
    rw [brk_of_load hload, UInt32.toNat_ofNat_of_lt' hdata']
  have hsize : UInt32.size = 4294967296 := rfl
  -- The first call goes back to the second one, with the new object as its prototype.
  obtain ⟨s, hpc, hm, hbrk, ha0, hra, ha2⟩ := init.exists_with_regs alloc init.memory
    [(.a0, ref.toInt32), (.ra, alloc2.toInt32), (.a2, 2)] (by simp) (by simp)
  obtain ⟨q, rfl⟩ : ∃ q, ref = q + 12 := ⟨ref - 12, (UInt32.sub_add_cancel ref 12).symm⟩
  have hnull : State.nullPage.toNat = 4096 := rfl
  have hq : (q + 12).toNat = q.toNat + 12 := by
    have hlt := q.toNat_lt_size
    rw [UInt32.toNat_add, show (12 : UInt32).toNat = 12 from rfl] at hvalid ⊢
    omega
  have hasks : img.Asks .copying q 1 s := by
    refine ⟨halloc.trans (congrArg some hpc.symm), ?_, ha0, by omega, ?_, ?_,
      Region.apart_of_le (.inl ?_)⟩
    · rw [Allocator.asked, ha0, hm]
      exact hlen
    · show q.toNat + 16 ≤ _
      omega
    · rw [hbrk]
      omega
    · rw [hbrk]
      show q.toNat + 16 ≤ _
      omega
  obtain ⟨s', hmade, hcalls⟩ := (heap_objects_apart hcompile hload himg hdata' (.begins hbrk)).1
    _ _ _ hasks
  have hrun := Image.History.call (.begins hbrk) hasks ((hcalls s').mpr rfl)
  have hbrk' := hmade.brk
  have hasks' : img.Asks .making s.brk 2 s' := by
    refine ⟨?_, ?_, hmade.result, ?_, ?_, ?_, Region.apart_of_le (.inl ?_)⟩
    · rw [hmade.pc, hra]
      exact halloc2
    · exact (hmade.regs .a2 (by decide)).trans ha2
    · rw [hbrk]
      omega
    · rw [hbrk]
      show _ + 8 ≤ _
      omega
    · rw [hbrk', hbrk]
      omega
    · rw [hbrk']
      show _ + 8 ≤ _
      omega
  obtain ⟨s'', hmade', hcalls'⟩ := (heap_objects_apart hcompile hload himg hdata' hrun).1
    _ _ _ hasks'
  have hapart := (heap_objects_apart hcompile hload himg hdata'
    (hrun.call hasks' ((hcalls' s'').mpr rfl))).2.1
  rw [hmade.result, hmade'.result, List.pairwise_cons] at hapart
  exact ⟨a, img, init, q, s, s', s'', hcompile, hload, href, hbrk, hmade, hmade',
    (hapart.1 _ List.mem_cons_self).symm⟩

end ChocoRV
