import ChocoRV.Symbol.Table
import ChocoRV.Object
import ChocoRV.Machine.Step

/-!
# Stack frames

The frame pointer of a function is the stack pointer of its caller at the call, so the words that
the caller passed stand at `fp` and above. Below `fp` are the saved frame pointer, the return
address, the locals, the spilled temporaries and the saved registers, in this order. The size of a
frame is a multiple of 16.
-/

namespace ChocoRV

/-- The parts of a frame. -/
structure Frame where
  name : String
  /-- Words passed by the caller. -/
  args : Nat := 0
  locals : Nat := 0
  spillSlots : Nat := 0
  /-- Registers that the body writes and the function has to give back. -/
  saved : List PhysReg := []
  /-- The frame of the top level, which is never left by returning. -/
  isTopLevel : Bool := false
deriving DecidableEq, Repr, Inhabited

namespace Frame

def paramOffset (index : Nat) : Int32 := Int32.ofNat index * 4

def localOffset (index : Nat) : Int32 := -(3 + Int32.ofNat index) * 4

def savedFpOffset : Int32 := -4

def savedRaOffset : Int32 := -8

/-- The frame of a function before its body is known. -/
def ofFunc (f : FuncInfo) : Frame :=
  { name := f.name, args := f.argCount, locals := f.locals.length }

def topLevel : Frame := { name := "main", isTopLevel := true }

/-- The offset of the first spilled temporary; later ones lie a word further down each. -/
def spillBase (f : Frame) : Int32 := localOffset f.locals

/-- The offset at which the `k`-th saved register is kept. -/
def saveSlot (f : Frame) (k : Nat) : Int32 := f.spillBase - Int32.ofNat (f.spillSlots + k) * 4

def size (f : Frame) : Int32 :=
  let words := 2 + f.locals + f.spillSlots + if f.isTopLevel then 0 else f.saved.length
  (Int32.ofNat words * 4 + 15) / 16 * 16

/-- The instructions that enter the frame. The first argument words arrive in registers and are
stored beside the others. -/
def prologue (f : Frame) : List Item :=
  let fp : Reg := if f.isTopLevel then .zero else .fp
  let ra : Reg := if f.isTopLevel then .zero else .ra
  let enter : List Item :=
    [.noted (.addi .sp .sp (-f.size)) "reserve frame",
      .noted (.sw fp .sp (f.size + savedFpOffset)) "save caller fp",
      .noted (.sw ra .sp (f.size + savedRaOffset)) "save return address",
      .noted (.addi .fp .sp f.size) "new fp"]
  if f.isTopLevel then enter
  else
    enter ++
      (PhysReg.args.take f.args).zipIdx.map
        (fun (a, k) => .op (.sw (.phys a) .fp (paramOffset k))) ++
      f.saved.zipIdx.map (fun (r, k) => .op (.sw (.phys r) .fp (f.saveSlot k)))

/-- The instructions that leave the frame, from the one exit label on. -/
def epilogue (f : Frame) (exit : Label) : List Item :=
  if f.isTopLevel then
    [.label exit, .op (.li .a7 Syscall.exit.number), .noted .ecall "exit(0)"]
  else
    .label exit ::
      f.saved.zipIdx.map (fun (r, k) => .op (.lw (.phys r) .fp (f.saveSlot k))) ++
      [.op (.lw .ra .fp savedRaOffset), .op (.mv .sp .fp), .op (.lw .fp .sp savedFpOffset),
        .op (.jumpReg .ra)]

end Frame

end ChocoRV
