import Mathlib
import ChocoRV.Proofs.Machine.Block
import ChocoRV.Routine.Code

/-!
# How programs are left

A program ends with a system call. The error exits of the support routines all go through `abort`,
which prints a message and a line feed and exits with a code. They touch the message and nothing
else, and leave memory alone.
-/

namespace ChocoRV

open Assembly

/-! ## System calls -/

theorem Syscall.ofNumber?_number (c : Syscall) : ofNumber? c.number = some c := by
  cases c <;> rfl

namespace State

variable {s : State} {c : Syscall}

theorem ofNumber?_of_reg (h : s.reg .a7 = c.number) : Syscall.ofNumber? (s.reg .a7) = some c := by
  rw [h]
  exact c.ofNumber?_number

theorem syscall_printString (h : s.reg .a7 = Syscall.number .printString)
    (hvalid : nullPage ≤ (s.reg .a0).toUInt32) :
    s.syscall = .running (s.print (s.memory.cstring (s.reg .a0).toUInt32)) := by
  simp only [syscall, ofNumber?_of_reg h]
  exact access_of_le hvalid

theorem syscall_printChar (h : s.reg .a7 = Syscall.number .printChar) :
    s.syscall = .running
      (s.print (String.singleton (Char.ofNat (s.reg .a0).toUInt32.toUInt8.toNat))) := by
  simp only [syscall, ofNumber?_of_reg h]

theorem syscall_exitCode (h : s.reg .a7 = Syscall.number .exitCode) :
    s.syscall = .exited (s.reg .a0) s := by
  simp only [syscall, ofNumber?_of_reg h]

@[simp] theorem pc_print (s : State) (text : String) : (s.print text).pc = s.pc + 4 := rfl

@[simp] theorem reg_print (s : State) (text : String)
    (r : Reg) : (s.print text).reg r = s.reg r := rfl

@[simp] theorem memory_print (s : State) (text : String) : (s.print text).memory = s.memory := rfl

@[simp] theorem stdout_print (s : State) (text : String) :
    (s.print text).stdout = s.stdout ++ text := rfl

end State

/-- The text at an address ends with the first zero byte. -/
theorem Memory.bytesFrom_eq {m : Memory} {bs : List UInt8} {a : Addr} {fuel : Nat}
    (h : ∀ i b, (bs ++ [0])[i]? = some b → m.read (a + UInt32.ofNat i) = b) (hbs : ∀ b ∈ bs, b ≠ 0)
    (hfuel : bs.length < fuel) : m.bytesFrom fuel a = bs := by
  induction bs generalizing a fuel with
  | nil =>
    obtain ⟨fuel, rfl⟩ : ∃ n, fuel = n + 1 := ⟨fuel - 1, by rw [List.length_nil] at hfuel; omega⟩
    have hzero : m.read a = 0 := by
      have := h 0 0 rfl
      rwa [show UInt32.ofNat 0 = 0 from rfl, UInt32.add_zero] at this
    simp [bytesFrom, hzero]
  | cons b bs ih =>
    rw [List.forall_mem_cons] at hbs
    rw [List.length_cons] at hfuel
    obtain ⟨fuel, rfl⟩ : ∃ n, fuel = n + 1 := ⟨fuel - 1, by omega⟩
    have hb : m.read a = b := by
      have := h 0 b rfl
      rwa [show UInt32.ofNat 0 = 0 from rfl, UInt32.add_zero] at this
    -- The rest of the text is one byte further on.
    have hrest : m.bytesFrom fuel (a + 1) = bs := by
      refine ih (fun i c hi => ?_) hbs.2 (by omega)
      have hnext := h (i + 1) c hi
      rwa [Nat.add_comm i 1, UInt32.ofNat_add, ← UInt32.add_assoc] at hnext
    simp [bytesFrom, hb, hbs.1, hrest]

/-- From an address on memory has the bytes of a text and a zero byte. -/
def Memory.Says (m : Memory) (addr : Addr) (text : String) : Prop :=
  ∀ i b, (Utf8.encode text ++ [0])[i]? = some b → m.read (addr + UInt32.ofNat i) = b

/-- A text that can be written and read back, and does not end before its end. -/
structure Utf8.Plain (text : String) : Prop where
  read : decodeLossy (encode text) = text
  nonzero : ∀ b ∈ encode text, b ≠ 0
  short : (encode text).length < UInt32.size

namespace Memory.Says

variable {m : Memory} {addr : Addr} {text : String}

theorem bytesFrom_eq (h : m.Says addr text) (ht : Utf8.Plain text) :
    m.bytesFrom UInt32.size addr = Utf8.encode text :=
  Memory.bytesFrom_eq h ht.nonzero ht.short

theorem cstring_eq (h : m.Says addr text) (ht : Utf8.Plain text) : m.cstring addr = text := by
  rw [cstring, h.bytesFrom_eq ht, ht.read]

end Memory.Says

/-! ## Leaving -/

theorem State.syscall_lineFeed {s : State} (h : s.reg .a7 = Syscall.number .printChar)
    (ha0 : s.reg .a0 = 10) : s.syscall = .running (s.print "\n") := by
  rw [syscall_printChar h, ha0]
  rfl

namespace Image.At

variable {img : Image} {inside : Nat → Prop} {k j : Nat} {rest : List Item} {s : State}
  {c : Option String} {text : String} (himg : img.Unwrapped)

include himg

/-- A system call that prints. -/
theorem prints {c : Syscall} (h : img.At inside k (Routine.syscall c ++ rest) s)
    (hcall : (s.put .a7 c.number).syscall = .running ((s.put .a7 c.number).print text)) :
    img.Comes inside s ((s.put .a7 c.number).print text) ∧
      img.At inside (k + 2) rest ((s.put .a7 c.number).print text) := by
  obtain ⟨hc₁, h₁⟩ := h.perform himg rfl trivial
  obtain ⟨hc₂, h₂⟩ := h₁.ecall himg hcall rfl
  exact ⟨hc₁.trans hc₂, h₂⟩

/-- A text at a valid address is printed up to its first zero byte. -/
theorem printsString (h : img.At inside k (Routine.syscall .printString ++ rest) s)
    (hvalid : State.nullPage ≤ (s.reg .a0).toUInt32) :
    ∃ t, t = s.put .a7 Syscall.printString.number ∧
      img.Comes inside s (t.print (s.memory.cstring (s.reg .a0).toUInt32)) ∧
      img.At inside (k + 2) rest (t.print (s.memory.cstring (s.reg .a0).toUInt32)) := by
  have ha0 : (s.put .a7 Syscall.printString.number).reg .a0 = s.reg .a0 :=
    s.reg_put_of_ne _ (by decide)
  have hcall := State.syscall_printString (s.reg_put_self Syscall.printString.number (by decide))
    (ha0 ▸ hvalid)
  rw [ha0] at hcall
  exact ⟨_, rfl, h.prints himg hcall⟩

/-- A line feed is printed. -/
theorem printsFeed (h : img.At inside k (.op (.li .a0 10) ::
    (Routine.syscall .printChar ++ rest)) s) :
    ∃ t, t = (s.put .a0 10).put .a7 Syscall.printChar.number ∧
      img.Comes inside s (t.print "\n") ∧ img.At inside (k + 1 + 2) rest (t.print "\n") := by
  obtain ⟨hc₁, h₁⟩ := h.perform himg rfl trivial
  obtain ⟨hc₂, h₂⟩ := h₁.prints himg (State.syscall_lineFeed (by simp) (by simp))
  exact ⟨_, rfl, hc₁.trans hc₂, h₂⟩

/-- A system call that ends the program. -/
theorem exits (h : img.At inside k (.instr ⟨.ecall, c⟩ :: rest) s)
    (ha7 : s.reg .a7 = Syscall.number .exitCode) : ExitsAt img s (s.reg .a0) := by
  obtain ⟨⟨⟨⟨op, hop, hres⟩, -⟩, -⟩, hpc⟩ := h
  cases hres
  have hf := himg.fetch_of_getElem? hop
  rw [← hpc] at hf
  exact .exit hf (State.syscall_exitCode ha7)

/-- The end of all error exits prints the text at `a1` and a line feed, and exits with the code in
`a0`. -/
theorem aborts (h : img.At inside k Routine.abortItems s)
    (hvalid : State.nullPage ≤ (s.reg .a1).toUInt32) :
    ∃ s', Ends img s (s.reg .a0) s' ∧ s'.memory = s.memory ∧
      s'.stdout = s.stdout ++ (s.memory.cstring (s.reg .a1).toUInt32 ++ "\n") := by
  -- The exit code waits in `t0` while the text and the line feed are printed.
  let moves : List Instr := [⟨.mv .t0 .a0, none⟩, ⟨.mv .a0 .a1, none⟩]
  obtain ⟨hc₁, h₁⟩ := h.label.straight himg moves rfl (by simp [moves])
  obtain ⟨t, ht, hc₂, h₂⟩ := h₁.printsString himg (by simpa [moves] using hvalid)
  obtain ⟨u, hu, hc₃, h₃⟩ := h₂.printsFeed himg
  let exit : List Instr := [⟨.mv .a0 .t0, none⟩, ⟨.li .a7 Syscall.exitCode.number, none⟩]
  obtain ⟨hc₄, h₄⟩ := h₃.straight himg exit rfl (by simp [exit])
  obtain ⟨n, hsteps⟩ := (hc₁.trans (hc₂.trans (hc₃.trans hc₄))).steps
  have hexit := h₄.exits himg (by simp [exit])
  have hcode : (img.performs exit (u.print "\n")).reg .a0 = s.reg .a0 := by
    simp [exit, hu, ht, moves]
  rw [hcode] at hexit
  refine ⟨_, ⟨n, hsteps, hexit⟩, by simp [exit, hu, ht, moves], ?_⟩
  simp [exit, hu, ht, moves, String.append_assoc]

/-- An error exit prints the text that stands so many bytes behind the label of its message, and a
line feed, and exits with its code. -/
theorem exitsWith {name message : Label} {code payload : Int32} {note : String}
    (h : img.At inside k (Routine.errorExit name code note message payload) s)
    (habort : img.Holds inside j Routine.abortItems)
    (hvalid : State.nullPage ≤ ((img.addressOf message).toInt32 + payload).toUInt32) :
    ∃ s', Ends img s code s' ∧ s'.memory = s.memory ∧ s'.stdout = s.stdout ++
      (s.memory.cstring ((img.addressOf message).toInt32 + payload).toUInt32 ++ "\n") := by
  let loads : List Instr := [⟨.li .a0 code, some ("exit code for: " ++ note)⟩,
    ⟨.la .a1 message, none⟩, ⟨.addi .a1 .a1 payload, some "message bytes"⟩]
  obtain ⟨hc₁, h₁⟩ := h.label.straight himg loads rfl (by simp [loads])
  obtain ⟨t, ht⟩ : ∃ t, t = img.performs loads s := ⟨_, rfl⟩
  rw [← ht] at hc₁ h₁
  have ha0 : t.reg .a0 = code := by simp [ht, loads]
  have ha1 : t.reg .a1 = (img.addressOf message).toInt32 + payload := by simp [ht, loads]
  have hm : t.memory = s.memory := by simp [ht, loads]
  have hout : t.stdout = s.stdout := by simp [ht]
  have hc₂ := h₁.jump himg habort.1
  have hat : img.At inside j Routine.abortItems (t.goto (pcOf j)) := ⟨habort, rfl⟩
  obtain ⟨s', ⟨n, hsteps, hexit⟩, hm', hout'⟩ :=
    hat.aborts himg (by rw [← ha1] at hvalid; exact hvalid)
  obtain ⟨n', hsteps'⟩ := (hc₁.trans hc₂).steps
  refine ⟨s', ⟨n' + n, hsteps'.trans hsteps, ?_⟩, hm'.trans hm, ?_⟩
  · rwa [← ha0]
  · rw [hout', ← ha1, ← hm, ← hout]
    rfl

end Image.At

end ChocoRV
