import Mathlib
import ChocoRV.Proofs.Texts

/-!
# Printing

The routine that prints an object looks at its tag. It shows integers, Booleans and strings by value
and all else by a placeholder, and then a line feed. The text of a string is read from memory up to
the first zero byte, though the number of its bytes is in its size word. So a text is shown up to
its first character with number zero, and as a whole if it has none.
-/

namespace ChocoRV

open Assembly Image

variable {text : String}

/-- A message is read up to its first character with number zero. -/
theorem Image.Says.cstring {img : Image} {m : Memory} {l : Label} (h : img.Says m l text) :
    State.nullPage ≤ img.addressOf l ∧ m.cstring (img.addressOf l) = Utf8.beforeNul text := by
  obtain ⟨addr, hlabel, hvalid, htext⟩ := h
  rw [addressOf_eq (find_eq_ok_iff.mpr hlabel)]
  exact ⟨hvalid, htext.cstring⟩

/-! ## What is shown of an object -/

/-- The message that is the name of a Boolean. -/
def Routine.Messages.nameOf (names : Routine.Messages) : Bool → Label
  | true => names.yes
  | false => names.no

/-- The name of a Boolean. -/
def boolName : Bool → String
  | true => "True"
  | false => "False"

/-- What is shown of the object with a reference: an integer in decimal, a Boolean by its name, a
string up to its first character with number zero, and all else by a placeholder. Names and
placeholder are messages of the program, which have to be in memory. -/
inductive Image.Shows (img : Image) (names : Routine.Messages) (m : Memory)
    (q : Int32) : String → Prop
  | int (htag : m.readWord (q + Object.tagOffset).toUInt32 = Object.intTag) :
    img.Shows names m q (toString (m.readWord q.toUInt32).toInt)
  | bool (htag : m.readWord (q + Object.tagOffset).toUInt32 = Object.boolTag) (b : Bool)
      (hvalue : m.readWord q.toUInt32 = boolWord b)
      (hname : img.Says m (names.nameOf b) (boolName b)) :
    img.Shows names m q (boolName b)
  | text (text : String) (h : m.TextAt q text) : img.Shows names m q (Utf8.beforeNul text)
  | other (htag : m.readWord (q + Object.tagOffset).toUInt32 ∉
    [Object.intTag, Object.boolTag, Object.strTag])
      (hname : img.Says m names.object "<object>") : img.Shows names m q "<object>"

/-- All that printing changes in registers. -/
def Routine.printRegs : List Reg := [.a0, .a7, .t0, .t1]

/-- A text has been printed, and the routine has gone back with nothing as its result. -/
structure State.Prints (s : State) (text : String) (s' : State) : Prop where
  pc : s'.pc = (s.reg .ra).toUInt32
  result : s'.reg .a0 = 0
  stdout : s'.stdout = s.stdout ++ text
  memory : s'.memory = s.memory
  brk : s'.brk = s.brk
  regs : s.Preserves Routine.printRegs s'

namespace State.Prints

variable {s t s' : State} {text : String}

/-- What comes before may change the registers that printing changes. -/
theorem of_differs (h : t.Prints text s') (hdiffers : s.Differs Routine.printRegs t) :
    s.Prints text s' where
  pc := by rw [h.pc, hdiffers.regs .ra (by decide)]
  result := h.result
  stdout := by rw [h.stdout, hdiffers.stdout]
  memory := h.memory.trans hdiffers.memory
  brk := h.brk.trans hdiffers.brk
  regs := State.Preserves.trans hdiffers.regs h.regs

/-- A system call prints what comes first. -/
theorem of_print {out : String} (h : (t.print out).Prints text s')
    (hdiffers : s.Differs Routine.printRegs t) : s.Prints (out ++ text) s' := by
  have ht : t.Prints (out ++ text) s' :=
    ⟨h.pc, h.result, by rw [h.stdout, State.stdout_print, String.append_assoc], h.memory,
      h.brk, h.regs⟩
  exact ht.of_differs hdiffers

end State.Prints

theorem State.syscall_printInt {s : State} (h : s.reg .a7 = Syscall.number .printInt) :
    s.syscall = .running (s.print (toString (s.reg .a0).toInt)) := by
  simp only [syscall, ofNumber?_of_reg h]

/-! ## The parts of the routine -/

namespace Routine

/-- A line feed, and back. -/
def printLine : List Item :=
  .label (loc print 3) :: .op (.li .a0 10) ::
    (syscall .printChar ++ [.op (.li .a0 0), .op (.jumpReg .ra)])

/-- The text at `a0`. -/
def printText : List Item := .label (loc print 2) :: (syscall .printString ++ printLine)

/-- The name of a Boolean. -/
def printBool (m : Messages) : List Item :=
  .label (loc print 1) :: .op (.lw .t0 .a0 0) :: .op (.la .a0 m.yes) ::
    .op (.bnez .t0 (loc print 2)) ::
    .op (.la .a0 m.no) :: printText

/-- An integer. -/
def printNumber (m : Messages) : List Item :=
  .label (loc print 0) :: .op (.lw .a0 .a0 0) ::
    (syscall .printInt ++ .op (.jump (loc print 3)) :: printBool m)

/-- The placeholder. -/
def printOther (m : Messages) : List Item :=
  .op (.la .a0 m.object) :: .op (.jump (loc print 2)) :: printNumber m

/-- The part that shows objects with a tag. -/
def printPart (m : Messages) (tag : Int32) : List Item :=
  if tag = Object.intTag then printNumber m
  else if tag = Object.boolTag then printBool m
  else if tag = Object.strTag then printText
  else printOther m

/-- Objects with a tag are shown elsewhere. -/
def tagCase (tag : Int32) (n : Nat) :
    List Item := [.op (.li .t1 tag), .op (.beq .t0 .t1 (loc print n))]

/-- The tag is compared with those of integers, Booleans and strings. -/
def printSelect (m : Messages) : List Item :=
  .op (.lw .t0 .a0 Object.tagOffset) ::
    (tagCase Object.intTag 0 ++ (tagCase Object.boolTag 1 ++
      (tagCase Object.strTag 2 ++ printOther m)))

theorem printItems_eq (m : Messages) :
    printItems m = .label print :: .op (.beqz .a0 errorNone) :: printSelect m := rfl

end Routine

namespace Image.At

variable {img : Image} {inside : Nat → Prop} {k : Nat} {rest : List Item} {s : State}
  {m : Routine.Messages}

variable (himg : img.Unwrapped)

include himg

/-- A jump to a label in the code. -/
theorem jumpsTo {c : Option String} {l : Label} {j : Nat} {items : List Item}
    (h : img.At inside k (.instr ⟨.jump l, c⟩ :: rest) s)
    (hcode : img.Holds inside j (.label l :: items)) :
    ∃ s', img.Comes inside s s' ∧ img.At inside j (.label l :: items) s' ∧ s.Differs [] s' :=
  ⟨_, h.jump himg hcode.1, ⟨hcode, rfl⟩, .goto s _⟩

/-- The routine goes back with nothing as its result. -/
theorem returns
    (h : img.At inside k [.op (.li .a0 0), .op (.jumpReg .ra)] s) :
    ∃ s', img.Comes inside s s' ∧ s.Prints "" s' := by
  obtain ⟨hc, hat⟩ := h.perform himg rfl trivial
  exact ⟨_, hc.trans (hat.ret himg), by simp, by simp, by simp, rfl, rfl, .put (by decide) s _⟩

/-- The end of the routine prints a line feed. -/
theorem printsLine (h : img.At inside k Routine.printLine s) :
    ∃ s', img.Comes inside s s' ∧ s.Prints "\n" s' := by
  obtain ⟨t, rfl, hc, hat⟩ := h.label.printsFeed himg
  obtain ⟨s', hc', hprints⟩ := hat.returns himg
  exact ⟨s', hc.trans hc',
    hprints.of_print ((State.Differs.put (by decide) s _).trans (.put (by decide) _ _))⟩

/-- A text at a valid address is printed up to its first zero byte. -/
theorem printsText (h : img.At inside k Routine.printText s)
    (hvalid : State.nullPage ≤ (s.reg .a0).toUInt32) :
    ∃ s', img.Comes inside s s' ∧ s.Prints (s.memory.cstring (s.reg .a0).toUInt32 ++ "\n") s' := by
  obtain ⟨t, rfl, hc, hat⟩ := h.label.printsString himg hvalid
  obtain ⟨s', hc', hprints⟩ := hat.printsLine himg
  exact ⟨s', hc.trans hc', hprints.of_print (.put (by decide) s _)⟩

/-- A Boolean is shown by its name. -/
theorem printsBool {b : Bool} (h : img.At inside k (Routine.printBool m) s)
    (hvalid : State.nullPage ≤ (s.reg .a0).toUInt32)
    (hvalue : s.memory.readWord (s.reg .a0).toUInt32 = boolWord b)
    (hname : img.Says s.memory (m.nameOf b) (boolName b)) :
    ∃ s', img.Comes inside s s' ∧ s.Prints (boolName b ++ "\n") s' := by
  obtain ⟨-, -, -, -, -, htext⟩ := h.code
  obtain ⟨hlow, hcstring⟩ := hname.cstring
  rw [Utf8.beforeNul_eq_self (by cases b <;> decide)] at hcstring
  let loads : List Instr := [⟨.lw .t0 .a0 0, none⟩, ⟨.la .a0 m.yes, none⟩]
  obtain ⟨hc₁, h₁⟩ := h.label.straight himg loads rfl (by simp [loads, hvalid])
  obtain ⟨t, htdef⟩ : ∃ t, t = img.performs loads s := ⟨_, rfl⟩
  rw [← htdef] at hc₁ h₁
  have ht0 : t.reg .t0 = boolWord b := by simp [htdef, loads, Width.read, hvalue]
  have ht : s.Differs Routine.printRegs t := by
    refine ⟨?_, by simp [htdef, loads], by simp [htdef], by simp [htdef]⟩
    rw [htdef]
    exact keeps_performs (by simp [loads, Routine.printRegs]) s
  -- The text is printed from the message, whichever of them is in `a0`.
  have hprinted {u : State} {j : Nat} (hc : img.Comes inside s u) (hu :
    s.Differs Routine.printRegs u)
      (hat : img.At inside j Routine.printText u) (ha0 :
        (u.reg .a0).toUInt32 = img.addressOf (m.nameOf b)) :
      ∃ s', img.Comes inside s s' ∧ s.Prints (boolName b ++ "\n") s' := by
    obtain ⟨s', hc', hprints⟩ := hat.printsText himg (by rwa [ha0])
    rw [ha0, hu.memory, hcstring] at hprints
    exact ⟨s', hc.trans hc', hprints.of_differs hu⟩
  cases b with
  | true =>
    have hc₂ := h₁.branchZero himg htext.1 (bne_iff_ne.mpr (by rw [ht0]; decide))
    exact hprinted (hc₁.trans hc₂) (ht.trans (.goto t _)) ⟨htext, rfl⟩
      (by simp [htdef, loads, Routine.Messages.nameOf])
  | false =>
    obtain ⟨hc₂, h₂⟩ := h₁.skipZero himg (bne_eq_false_iff_eq.mpr (by rw [ht0]; rfl))
    obtain ⟨hc₃, h₃⟩ := h₂.perform himg rfl trivial
    exact hprinted (hc₁.trans (hc₂.trans hc₃))
      (ht.trans (.trans (.goto t _) (.put (by decide) _ _))) h₃
      (by simp [Routine.Messages.nameOf])

/-- An integer is shown in decimal. -/
theorem printsNumber (h : img.At inside k (Routine.printNumber m) s)
    (hvalid : State.nullPage ≤ (s.reg .a0).toUInt32) :
    ∃ s', img.Comes inside s s' ∧
      s.Prints (toString (s.memory.readWord (s.reg .a0).toUInt32).toInt ++ "\n") s' := by
  obtain ⟨-, -, -, -, -, -, -, -, -, -, -, -, -, hline⟩ := h.code
  obtain ⟨t, htdef⟩ : ∃ t, t = s.put .a0 (s.memory.readWord (s.reg .a0).toUInt32) := ⟨_, rfl⟩
  obtain ⟨hc₁, h₁⟩ := h.label.perform himg rfl (by simpa using hvalid)
  have ht : img.perform s (.lw .a0 .a0 0) = t := by simp [htdef, Width.read]
  rw [ht] at hc₁ h₁
  have hcall := State.syscall_printInt (t.reg_put_self Syscall.printInt.number (by decide))
  rw [State.reg_put_of_ne _ _ (by decide), htdef, State.reg_put_self _ _ (by decide),
    ← htdef] at hcall
  obtain ⟨hc₂, h₂⟩ := h₁.prints himg hcall
  obtain ⟨u, hc₃, h₃, hu⟩ := h₂.jumpsTo himg hline
  obtain ⟨s', hc₄, hprints⟩ := printsLine himg h₃
  refine ⟨s', hc₁.trans (hc₂.trans (hc₃.trans hc₄)),
    (hprints.of_differs (hu.mono (List.nil_subset _))).of_print ?_⟩
  rw [htdef]
  exact (State.Differs.put (by decide) s _).trans (.put (by decide) _ _)

/-- The tag in `t0` is compared with another one. -/
theorem comparesTag {tag : Int32} {n j : Nat} {items : List Item}
    (h : img.At inside k (Routine.tagCase tag n ++ rest) s)
    (hcode : img.Holds inside j (.label (Routine.loc Routine.print n) :: items)) :
    ∃ s', img.Comes inside s s' ∧ s.Differs [.t1] s' ∧
      (s.reg .t0 = tag → img.At inside j (.label (Routine.loc Routine.print n) :: items) s') ∧
      (s.reg .t0 ≠ tag → img.At inside (k + 2) rest s') := by
  obtain ⟨hc₁, h₁⟩ := h.perform himg rfl trivial
  have hput : s.Differs [.t1] (img.perform s (.li .t1 tag)) := .put (by decide) s _
  have ht0 : (img.perform s (.li .t1 tag)).reg .t0 = s.reg .t0 := hput.regs .t0 (by decide)
  have ht1 : (img.perform s (.li .t1 tag)).reg .t1 = tag := s.reg_put_self _ (by decide)
  by_cases htag : s.reg .t0 = tag
  · have hc₂ := h₁.branch himg hcode.1 (beq_iff_eq.mpr (by rw [ht0, ht1, htag]))
    exact ⟨_, hc₁.trans hc₂, hput.trans (.goto _ _), fun _ => ⟨hcode, rfl⟩, fun hne =>
      absurd htag hne⟩
  · obtain ⟨hc₂, h₂⟩ := h₁.skip himg (beq_eq_false_iff_ne.mpr (by rwa [ht0, ht1]))
    exact ⟨_, hc₁.trans hc₂, hput.trans (.goto _ _), fun heq => absurd heq htag, fun _ => h₂⟩

/-- The tag of an object decides which part of the routine shows it. -/
theorem selects (h : img.At inside k (Routine.printSelect m) s)
    (hvalid : State.nullPage ≤ (s.reg .a0 + Object.tagOffset).toUInt32) :
    ∃ j s', img.Comes inside s s' ∧ s.Differs [.t0, .t1] s' ∧
      img.At inside j
        (Routine.printPart m (s.memory.readWord (s.reg .a0 + Object.tagOffset).toUInt32)) s' := by
  obtain ⟨-, -, -, -, -, -, -, -, -, hnumber⟩ := h.code
  obtain ⟨-, -, -, -, hbool⟩ := hnumber.2
  obtain ⟨-, -, -, -, htext⟩ := hbool.2
  obtain ⟨hc, h₁⟩ := h.perform himg rfl hvalid
  obtain ⟨tag, htag⟩ : ∃ tag, tag = s.memory.readWord (s.reg .a0 + Object.tagOffset).toUInt32 :=
    ⟨_, rfl⟩
  obtain ⟨t, htdef⟩ : ∃ t, t = s.put .t0 tag := ⟨_, rfl⟩
  have ht : img.perform s (.lw .t0 .a0 Object.tagOffset) = t := by
    simp [htdef, Width.read, htag, -Int32.toUInt32_add]
  rw [ht] at hc h₁
  rw [← htag, Routine.printPart]
  have ht0 : t.reg .t0 = tag := by rw [htdef, s.reg_put_self _ (by decide)]
  have hdiffers : s.Differs [.t0, .t1] t := htdef ▸ .put (by decide) s _
  -- One comparison after the other, each with the tag still in its register.
  obtain ⟨u, hc₁, hu, hhit, hmiss⟩ := h₁.comparesTag himg hnumber
  have hdiffers₁ := hdiffers.trans (hu.mono (by decide))
  have hcomes₁ := hc.trans hc₁
  rw [ht0] at hhit hmiss
  split
  · exact ⟨_, u, hcomes₁, hdiffers₁, hhit ‹_›⟩
  obtain ⟨v, hc₂, hv, hhit, hmiss⟩ := (hmiss ‹_›).comparesTag himg hbool
  have hdiffers₂ := hdiffers₁.trans (hv.mono (by decide))
  have hcomes₂ := hcomes₁.trans hc₂
  rw [hu.regs .t0 (by decide), ht0] at hhit hmiss
  split
  · exact ⟨_, v, hcomes₂, hdiffers₂, hhit ‹_›⟩
  obtain ⟨w, hc₃, hw, hhit, hmiss⟩ := (hmiss ‹_›).comparesTag himg htext
  have hdiffers₃ := hdiffers₂.trans (hw.mono (by decide))
  rw [hv.regs .t0 (by decide), hu.regs .t0 (by decide), ht0] at hhit hmiss
  split
  · exact ⟨_, w, hcomes₂.trans hc₃, hdiffers₃, hhit ‹_›⟩
  · exact ⟨_, w, hcomes₂.trans hc₃, hdiffers₃, hmiss ‹_›⟩

/-- All other objects are shown by a placeholder. -/
theorem printsOther (h : img.At inside k (Routine.printOther m) s)
    (hname : img.Says s.memory m.object "<object>") :
    ∃ s', img.Comes inside s s' ∧ s.Prints ("<object>" ++ "\n") s' := by
  obtain ⟨-, -, -, -, -, -, -, hbool⟩ := h.code
  obtain ⟨-, -, -, -, htext⟩ := hbool.2
  obtain ⟨hlow, hcstring⟩ := hname.cstring
  rw [Utf8.beforeNul_eq_self (by decide)] at hcstring
  obtain ⟨hc₁, h₁⟩ := h.perform himg rfl trivial
  obtain ⟨t, hc₂, h₂, ht⟩ := h₁.jumpsTo himg htext
  have ha0 : (t.reg .a0).toUInt32 = img.addressOf m.object := by
    rw [ht.regs .a0 (by decide)]
    simp
  obtain ⟨s', hc₃, hprints⟩ := printsText himg h₂ (by rwa [ha0])
  rw [ha0, ht.memory] at hprints
  have hput : s.Differs Routine.printRegs (img.perform s (.la .a0 m.object)) := .put (by decide) s _
  rw [hput.memory, hcstring] at hprints
  exact ⟨s', hc₁.trans (hc₂.trans hc₃), hprints.of_differs
    (hput.trans (ht.mono (List.nil_subset _)))⟩

/-- An object is shown as its tag says. -/
theorem printsObject (h : img.At inside k (Routine.printSelect m) s)
    (hvalid : State.nullPage.toNat + 12 ≤ (s.reg .a0).toUInt32.toNat)
    (hshows : img.Shows m s.memory (s.reg .a0) text) :
    ∃ s', img.Comes inside s s' ∧ s.Prints (text ++ "\n") s' := by
  have htag : State.nullPage ≤ (s.reg .a0 + Object.tagOffset).toUInt32 := by
    have hq := (s.reg .a0).toUInt32.toNat_lt_size
    have hsize : UInt32.size = 4294967296 := rfl
    have hoffset : Object.tagOffset.toUInt32.toNat = 4294967284 := rfl
    rw [UInt32.le_iff_toNat_le, Int32.toUInt32_add, UInt32.toNat_add, hoffset]
    omega
  have hpayload : State.nullPage ≤ (s.reg .a0).toUInt32 := UInt32.le_iff_toNat_le.mpr (by omega)
  obtain ⟨j, t, hc, ht, hat⟩ := h.selects himg htag
  have ha0 : t.reg .a0 = s.reg .a0 := ht.regs .a0 (by decide)
  rw [← ha0] at hpayload
  rw [← ha0, ← ht.memory] at hshows hat
  obtain ⟨s', hc', hprints⟩ : ∃ s', img.Comes inside t s' ∧ t.Prints (text ++ "\n") s' := by
    cases hshows with
    | int htag =>
      rw [htag] at hat
      exact printsNumber himg hat hpayload
    | bool htag b hvalue hname =>
      rw [htag] at hat
      exact printsBool himg hat hpayload hvalue hname
    | text text h =>
      rw [h.tag] at hat
      rw [← h.bytes.cstring]
      exact printsText himg hat hpayload
    | other htag hname =>
      simp only [List.mem_cons, List.not_mem_nil, or_false, not_or] at htag
      rw [Routine.printPart, if_neg htag.1, if_neg htag.2.1, if_neg htag.2.2] at hat
      exact hat.printsOther himg hname
  exact ⟨s', hc.trans hc', hprints.of_differs (ht.mono (by decide))⟩

end Image.At

/-- From its label the routine shows an object. -/
theorem Image.Holds.shows {img : Image} {inside : Nat → Prop} {k : Nat} {s : State}
    {names : Routine.Messages} (himg : img.Unwrapped)
    (h : img.Holds inside k (Routine.printItems names)) (hpc : s.pc = pcOf k)
    (hvalid : State.nullPage.toNat + 12 ≤ (s.reg .a0).toUInt32.toNat)
    (hshows : img.Shows names s.memory (s.reg .a0) text) :
    ∃ s', img.Comes inside s s' ∧ s.Prints (text ++ "\n") s' := by
  rw [Routine.printItems_eq] at h
  have hat : img.At inside k (.op (.beqz .a0 Routine.errorNone) :: Routine.printSelect names) s :=
    ⟨h.2, hpc⟩
  have hne : s.reg .a0 ≠ 0 := fun h0 => by
    rw [h0] at hvalid
    exact absurd hvalid (by decide)
  obtain ⟨hc, hat'⟩ := hat.skipZero himg (beq_eq_false_iff_ne.mpr hne)
  obtain ⟨s', hc', hprints⟩ := hat'.printsObject himg hvalid hshows
  exact ⟨s', hc.trans hc', hprints.of_differs (.goto s _)⟩

/-- Zero for an object leads to the error exit. -/
theorem Image.Holds.endsNone {img : Image} {inside : Nat → Prop} {k : Nat} {s : State}
    {names : Routine.Messages} (himg : img.Unwrapped)
    (h : img.Holds inside k (Routine.printItems names)) (hpc : s.pc = pcOf k)
    (hends : img.EndsAt 0 (.onNone names)) (hzero : s.reg .a0 = 0)
    (htext : img.Says s.memory names.onNone "Operation on None") :
    ∃ s', Ends img s 4 s' ∧ s'.memory = s.memory ∧
      s'.stdout = s.stdout ++ "Operation on None\n" := by
  obtain ⟨addr, herror, hends⟩ := hends
  rw [Routine.printItems_eq] at h
  have hat : img.At inside k (.op (.beqz .a0 Routine.errorNone) :: Routine.printSelect names) s :=
    ⟨h.2, hpc⟩
  obtain ⟨n, hsteps⟩ := (hat.branchZero himg (find_eq_ok_iff.mpr herror)
    (beq_iff_eq.mpr hzero)).steps
  obtain ⟨hvalid, hmessage⟩ := htext.printed (ErrorExit.plain_text (ErrorExit.onNone_mem names))
  obtain ⟨s', ⟨n', hsteps', hexit⟩, hm, hout⟩ := hends (s.goto addr) rfl hvalid
  refine ⟨s', ⟨n + n', hsteps.trans hsteps', hexit⟩, hm, hout.trans ?_⟩
  show s.stdout ++ (s.memory.cstring (img.messageAt 0 names.onNone) ++ "\n") = _
  rw [hmessage]
  rfl

/-! ## Programs -/

/-- In a compiled program an object is shown by its value, with a line feed behind it. A string is
shown as a whole if and only if no character of its text has number zero. Constants of the program
and strings that it makes are strings of their texts. With nothing to be shown the program ends. -/
theorem printing_shows {prog : Program} {settings : CodegenSettings} {a : Assembly} {img : Image}
    {init : State} (hcompile : compile prog settings = .ok a) (hload : load a = .ok (img, init))
    (himg : img.Unwrapped) :
    ∃ table bodies payload, CompiledAs prog settings a table bodies payload ∧
      (∀ s text, img.label? Routine.print.name = some s.pc →
        State.nullPage.toNat + 12 ≤ (s.reg .a0).toUInt32.toNat →
        img.Shows (CompiledAs.messages prog settings table) s.memory (s.reg .a0) text →
        ∃ n s', Steps img n s s' ∧ s.Prints (text ++ "\n") s') ∧
      (∀ s text, img.label? Routine.print.name = some s.pc →
        State.nullPage.toNat + 12 ≤ (s.reg .a0).toUInt32.toNat → s.memory.TextAt (s.reg .a0) text →
        ∃ n s', Steps img n s s' ∧ s.Prints (Utf8.beforeNul text ++ "\n") s' ∧
          (s.Prints (text ++ "\n") s' ↔ Utf8.nul ∉ text.toList)) ∧
      (∀ s, (∀ d ∈ prog.classDecls, d.name ≠ "str") → img.label? Routine.print.name = some s.pc →
        s.reg .a0 = 0 →
        img.Says s.memory (CompiledAs.messages prog settings table).onNone "Operation on None" →
        ∃ s', Ends img s 4 s' ∧ s'.memory = s.memory ∧
          s'.stdout = s.stdout ++ "Operation on None\n") ∧
      (a.dataTop ≤ UInt32.size →
        (∀ l text, (l, text) ∈ (CompiledAs.messages prog settings table).texts →
          img.Says init.memory l text) ∧
        ∀ k text, (CompiledAs.constants prog settings table).entries[k]? = some (.str text) →
          ∃ addr, img.label? (ConstantPool.label k).name = some addr ∧ dataBase ≤ addr ∧
            init.memory.TextAt addr.toInt32 text) ∧
      (∀ s text text', a.dataTop ≤ s.brk.toNat → img.label? Routine.strcat.name = some s.pc →
        s.Operands .byte (Utf8.encode text).length (Utf8.encode text').length →
        s.memory.Says (s.reg .a0).toUInt32 text → s.memory.Says (s.reg .a1).toUInt32 text' →
        img.MakesText s (text ++ text')) ∧
      (∀ s text, a.dataTop ≤ s.brk.toNat → img.label? Routine.strChar.name = some s.pc →
      s.HasRoom 1 →
        Utf8.encode text = [(s.reg .a0).toUInt32.toUInt8] → img.MakesText s text) := by
  obtain ⟨table, bodies, payload, hc, hpayload⟩ := compile_eq_ok_payload hcompile
  obtain ⟨k, hk⟩ : ∃ k, img.Holds (fun _ => True) k
      (Routine.printItems (CompiledAs.messages prog settings table)) :=
    hc.holds_routine hload (by simp [Routine.parts])
  have hplace {s : State} (hpc : img.label? Routine.print.name = some s.pc) : s.pc = pcOf k :=
    Option.some.inj (hpc.symm.trans (find_eq_ok_iff.mp hk.1))
  have hshows {s : State} {text : String} (hpc : img.label? Routine.print.name = some s.pc)
      (hvalid : State.nullPage.toNat + 12 ≤ (s.reg .a0).toUInt32.toNat)
      (h : img.Shows (CompiledAs.messages prog settings table) s.memory (s.reg .a0) text) :
      ∃ n s', Steps img n s s' ∧ s.Prints (text ++ "\n") s' := by
    obtain ⟨s', hcomes, hprints⟩ := hk.shows himg (hplace hpc) hvalid h
    obtain ⟨n, hsteps⟩ := hcomes.steps
    exact ⟨n, s', hsteps, hprints⟩
  refine ⟨table, bodies, payload, hc, fun s text => hshows, ?_, ?_, ?_, ?_, ?_⟩
  · intro s text hpc hvalid htext
    obtain ⟨n, s', hsteps, hprints⟩ := hshows hpc hvalid (.text text htext)
    refine ⟨n, s', hsteps, hprints, fun hwhole => ?_, fun hnul => ?_⟩
    -- What has been printed is known, so the text is what comes before its first zero.
    · have hout := hprints.stdout.symm.trans hwhole.stdout
      rw [← String.toList_inj, String.toList_append, String.toList_append, String.toList_append,
        String.toList_append, List.append_cancel_left_eq, List.append_cancel_right_eq,
        String.toList_inj] at hout
      exact Utf8.beforeNul_eq_self_iff.mp hout
    · rwa [Utf8.beforeNul_eq_self hnul] at hprints
  · intro s hclasses hpc hzero htext
    have hends := hc.ends_error hload himg (ErrorExit.onNone_mem _)
    rw [hpayload hclasses] at hends
    exact hk.endsNone himg (hplace hpc) hends hzero htext
  · exact fun hdata => ⟨fun l text hl => hc.says_of_load hdata hload hl,
      fun k text hk => hc.textAt_of_load hdata hload hk⟩
  · exact fun s text text' hheap hpc hop htext htext' =>
      hc.makesText_concat hload himg hheap hpc hop htext htext'
  · exact fun s text hheap hpc hroom htext => hc.makesText_char hload himg hheap hpc hroom htext

/-- A reference to the string `hi`. -/
def hiAlone : State where
  pc := 0
  regs := Registers.zeros.set .a0 805306368
  memory := ((Memory.empty.writeWord 805306356 Object.strTag).writeWord 805306364 2).writeBytes
    805306368 [104, 105, 0]
  brk := 536870912
  stdout := ""

theorem hiAlone_text : hiAlone.memory.TextAt 805306368 "hi" :=
  ⟨by decide +kernel, by decide +kernel, Memory.says_iff.mpr ⟨by decide +kernel, by decide +kernel⟩⟩

/-- A string is shown, and with nothing to be shown the program ends. -/
theorem hi_printed :
    ∃ (a : Assembly) (img : Image) (init : State) (pc : Addr),
      compile {} ⟨.physical, false, 4⟩ = .ok a ∧
      load a = .ok (img, init) ∧ img.label? Routine.print.name = some pc ∧
      (∃ n s', Steps img n (hiAlone.goto pc) s' ∧ (hiAlone.goto pc).Prints "hi\n" s') ∧
      ∃ s s', s.pc = pc ∧ s.reg .a0 = 0 ∧ s.memory = init.memory ∧ Ends img s 4 s' ∧
        s'.stdout = s.stdout ++ "Operation on None\n" := by
  obtain ⟨a, img, init, hcompile, hload, himg, hdata, hlabels⟩ := exists_loaded_empty
  obtain ⟨pc, hpc⟩ := hlabels Routine.print (by simp)
  obtain ⟨table, bodies, payload, -, -, hstrings, hnone, hloaded, -⟩ :=
    printing_shows hcompile hload himg
  obtain ⟨hmessages, -⟩ := hloaded (Nat.le_trans hdata (by decide))
  refine ⟨a, img, init, pc, hcompile, hload, hpc, ?_, ?_⟩
  · have hvalid : State.nullPage.toNat + 12 ≤ (hiAlone.reg .a0).toUInt32.toNat := by decide
    obtain ⟨n, s', hsteps, -, hwhole⟩ := hstrings (hiAlone.goto pc) "hi" hpc hvalid hiAlone_text
    exact ⟨n, s', hsteps, hwhole.mpr (by decide)⟩
  · have hzero : (init.setReg .a0 0).reg .a0 = 0 := init.reg_setReg_self _ (by decide)
    obtain ⟨s', hends, -, hout⟩ := hnone ((init.setReg .a0 0).goto pc)
      (fun _ hd => absurd hd List.not_mem_nil) hpc hzero
        (hmessages _ _ (by simp [Routine.Messages.texts]))
    exact ⟨(init.setReg .a0 0).goto pc, s', rfl, hzero, rfl, hends, hout⟩

/-- A program that prints a text with a character of number zero in it. -/
def printsNul : Program :=
  { body :=
    [.expr {} (.call ⟨{}, .none⟩ "print" [.str ⟨{}, .str⟩ (String.ofList ['a', Utf8.nul, 'b'])])] }

/-- It prints what comes before that character. -/
theorem nul_ends_text :
    ∃ a img init, compile printsNul ⟨.physical, false, 11⟩ = .ok a ∧ load a = .ok (img, init) ∧
      (img.run Function.main 100 init).1.toOption = some ⟨0, "a\n", 28⟩ := by
  have hcheck : printsNul.loadsWith ⟨.physical, false, 11⟩ (fun _ img init =>
      (img.run Function.main 100 init).1.toOption == some ⟨0, "a\n", 28⟩) = true := by
    decide +kernel
  obtain ⟨a, img, init, hcompile, hload, -, hrun⟩ := Program.exists_loaded hcheck
  exact ⟨a, img, init, hcompile, hload, eq_of_beq hrun⟩

end ChocoRV
