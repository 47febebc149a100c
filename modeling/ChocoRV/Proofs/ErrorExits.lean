import Mathlib
import ChocoRV.Proofs.Machine.Block
import ChocoRV.Proofs.Machine.Exits
import ChocoRV.Proofs.Routine.Loaded
import ChocoRV.Proofs.Symbol.Predefined

/-!
# The error exits of a program

A program that fails at run time goes to one of three places, each with a message and an exit code
of its own. The text that is printed begins at the offset of the bytes of a string behind the label
of the message. This is the label itself, unless a program declares a class with the name of the
class of strings: then the offset is that of an attribute of this class.

## Main definitions

* `ErrorExit`: an exit with its code and its message.
* `Image.messageAt`: where the printed text begins.
* `Image.EndsAt`: what a program does from the label of an exit on.

## Main statements

* `compile_eq_ok_payload`: the offset is zero unless a class is named like that of strings.
* `CompiledAs.says_of_load`: a program is loaded with its messages.
* `CompiledAs.ends_error`: the exits of every compiled program end it with their codes.
-/

namespace ChocoRV

open Assembly Image

/-! ## The exits -/

/-- An error exit: its label, its exit code, and the message with its label. -/
structure ErrorExit where
  name : Label
  code : Int32
  text : String
  message : Label

namespace ErrorExit

open Routine

def onNone (m : Messages) : ErrorExit :=
  ⟨errorNone, Object.operationOnNone, "Operation on None", m.onNone⟩

def division (m : Messages) : ErrorExit :=
  ⟨errorDiv, Object.divisionByZero, "Division by zero", m.division⟩

def bounds (m : Messages) : ErrorExit :=
  ⟨errorOob, Object.indexOutOfBounds, "Index out of bounds", m.bounds⟩

def all (m : Messages) : List ErrorExit := [onNone m, division m, bounds m]

def items (e : ErrorExit) (payload : Int32) : List Item :=
  errorExit e.name e.code e.text e.message payload

theorem onNone_mem (m : Messages) : onNone m ∈ all m := List.mem_cons_self

theorem bounds_mem (m : Messages) : bounds m ∈ all m := by simp [all]

variable {m : Messages} {e : ErrorExit}

theorem mem_texts (h : e ∈ all m) : (e.message, e.text) ∈ m.texts := by
  simp only [all, List.mem_cons, List.not_mem_nil, or_false] at h
  rcases h with rfl | rfl | rfl <;> simp [onNone, division, bounds, Messages.texts]

theorem plain_text (h : e ∈ all m) : Utf8.Plain e.text := by
  have hnone : Utf8.Plain "Operation on None" := ⟨by decide, by decide +kernel, by decide⟩
  have hdivision : Utf8.Plain "Division by zero" := ⟨by decide, by decide +kernel, by decide⟩
  have hbounds : Utf8.Plain "Index out of bounds" := ⟨by decide, by decide +kernel, by decide⟩
  simp only [all, List.mem_cons, List.not_mem_nil, or_false] at h
  rcases h with rfl | rfl | rfl
  · exact hnone
  · exact hdivision
  · exact hbounds

/-- The routines begin with the error exits and what is common to them. -/
theorem holds_items {img : Image} {inside : Nat → Prop} {k : Nat} {payload : Int32}
    (h : img.Holds inside k (Routine.items m payload)) :
    (∀ e ∈ all m, ∃ j, img.Holds inside j (e.items payload)) ∧
      ∃ j, img.Holds inside j abortItems := by
  simp only [Routine.items, List.append_assoc, holds_append] at h
  obtain ⟨hnone, hdivision, hbounds, habort, -⟩ := h
  refine ⟨?_, _, habort⟩
  simp only [all, List.forall_mem_cons]
  exact ⟨⟨_, hnone⟩, ⟨_, hdivision⟩, ⟨_, hbounds⟩, List.forall_mem_nil _⟩

end ErrorExit

/-- A text stands in memory where its label says. -/
def Image.Says (img : Image) (m : Memory) (l : Label) (text : String) : Prop :=
  ∃ addr, img.label? l.name = some addr ∧ State.nullPage ≤ addr ∧ m.Says addr text

/-- Where the text begins that an error exit prints: so many bytes behind the label of its
message. -/
def Image.messageAt (img : Image) (payload : Int32) (message : Label) : Addr :=
  ((img.addressOf message).toInt32 + payload).toUInt32

/-- A message that is in memory is the text at its label. -/
theorem Image.Says.printed {img : Image} {m : Memory} {l : Label} {text : String}
    (h : img.Says m l text) (ht : Utf8.Plain text) :
    State.nullPage ≤ img.messageAt 0 l ∧ m.cstring (img.messageAt 0 l) = text := by
  obtain ⟨addr, hlabel, hvalid, hsays⟩ := h
  have haddr : img.messageAt 0 l = addr := by
    rw [messageAt, addressOf_eq (find_eq_ok_iff.mpr hlabel), Int32.add_zero]
    rfl
  rw [haddr]
  exact ⟨hvalid, hsays.cstring_eq ht⟩

/-- From the label of an error exit the program prints the text behind its message and a line feed,
and ends with the code of the exit. -/
def Image.EndsAt (img : Image) (payload : Int32) (e : ErrorExit) : Prop :=
  ∃ addr, img.label? e.name.name = some addr ∧
    ∀ t : State, t.pc = addr → State.nullPage ≤ img.messageAt payload e.message →
      ∃ t', Ends img t e.code t' ∧ t'.memory = t.memory ∧
        t'.stdout = t.stdout ++ (t.memory.cstring (img.messageAt payload e.message) ++ "\n")

/-! ## Programs -/

/-- The bytes of strings begin where references point, if a program has no class of that name of its
own. -/
theorem compile_eq_ok_payload {p : Program} {settings : CodegenSettings} {a : Assembly}
    (h : compile p settings = .ok a) :
    ∃ table bodies payload, CompiledAs p settings a table bodies payload ∧
      ((∀ d ∈ p.classDecls, d.name ≠ "str") → payload = 0) := by
  obtain ⟨table, bodies, str, attr, hstr, hattr, hc⟩ := compile_eq_ok_attr h
  exact ⟨table, bodies, _, hc, fun hclasses =>
    SymbolTable.offset_of_str hclasses hc.symbols hstr hattr⟩

namespace CompiledAs

variable {p : Program} {settings : CodegenSettings} {a : Assembly} {table : SymbolTable}
  {bodies : List Body} {payload : Int32} {img : Image} {s : State}

variable (h : CompiledAs p settings a table bodies payload)

include h

/-- The messages of a loaded program are among the constants at the end of its data. -/
theorem exists_message
    (hdata : a.dataTop ≤ UInt32.size) (hload : load a = .ok (img, s)) {l : Label} {text : String}
    (hl : (l, text) ∈ (messages p settings table).texts) :
    ∃ addr, img.label? l.name = some addr ∧ State.nullPage ≤ addr ∧ addr.toNat < a.dataTop ∧
      s.memory.Says addr text := by
  obtain ⟨k, hk, rfl⟩ := ((Routine.messages_stores _).2 _ hl).mono
    (DataSegment.finalPool_extends table _)
  obtain ⟨c, hbase, htop, hlaid⟩ := h.laid_constants hload hdata
  obtain ⟨n, hn, hlt, hlabel, hstr⟩ := hlaid.pool_text hk
  have hnull : State.nullPage.toNat ≤ dataBase.toNat := by decide
  have htoNat : (UInt32.ofNat n).toNat = n := UInt32.toNat_ofNat_of_lt' (by omega)
  refine ⟨UInt32.ofNat n, hlabel, ?_, by omega, hstr.bytes⟩
  rw [UInt32.le_iff_toNat_le]
  omega

/-- A program is loaded with its messages. -/
theorem says_of_load
    (hdata : a.dataTop ≤ UInt32.size) (hload : load a = .ok (img, s)) {l : Label} {text : String}
    (hl : (l, text) ∈ (messages p settings table).texts) : img.Says s.memory l text := by
  obtain ⟨addr, hlabel, hvalid, -, hsays⟩ := h.exists_message hdata hload hl
  exact ⟨addr, hlabel, hvalid, hsays⟩

/-- The printed text begins behind the null page, if the offset does not lead beyond the last
address. -/
theorem messageAt_valid
    (hload : load a = .ok (img, s)) (hdata : a.dataTop + payload.toUInt32.toNat ≤ UInt32.size)
    {e : ErrorExit} (he : e ∈ ErrorExit.all (messages p settings table)) :
    State.nullPage ≤ img.messageAt payload e.message := by
  obtain ⟨addr, hlabel, hvalid, hlt, -⟩ :=
    h.exists_message (by omega) hload (ErrorExit.mem_texts he)
  have hsum : img.messageAt payload e.message = addr + payload.toUInt32 := by
    rw [messageAt, addressOf_eq (find_eq_ok_iff.mpr hlabel), Int32.toUInt32_add]
    rfl
  have hsize : UInt32.size = 2 ^ 32 := rfl
  rw [UInt32.le_iff_toNat_le] at hvalid ⊢
  rw [hsum, UInt32.toNat_add, Nat.mod_eq_of_lt (by omega)]
  omega

/-- The error exits of a program end it. -/
theorem ends_error (hload : load a = .ok (img, s))
    (hfit : img.Unwrapped) {e : ErrorExit}
    (he : e ∈ ErrorExit.all (messages p settings table)) : img.EndsAt payload e := by
  obtain ⟨_, hroutines⟩ := h.holds_routines hload
  obtain ⟨hexits, j, habort⟩ := ErrorExit.holds_items hroutines
  obtain ⟨k, hk⟩ := hexits e he
  refine ⟨pcOf k, find_eq_ok_iff.mp hk.1, fun t hpc hvalid => ?_⟩
  have hat : img.At (fun _ => True) k (e.items payload) t := ⟨hk, hpc⟩
  exact hat.exitsWith hfit habort hvalid

end CompiledAs

end ChocoRV
