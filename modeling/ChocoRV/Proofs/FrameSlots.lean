import Mathlib
import ChocoRV.Proofs.Encoding
import ChocoRV.Proofs.Symbol.Locals

/-!
# The words of a frame

Below the frame pointer a frame has words of five kinds, each with a formula of its own for the
offset of the word: the saved frame pointer, the return address, locals, spilled temporaries and
saved registers. `Frame.Slot` names them all, and `Frame.Slot.offset_eq_ofInt` brings the formulas
to one form: a slot is the word with a certain number below the frame pointer. Different slots have
different numbers, and the numbers are those from one to the number of words of the frame, so the
slots lie apart from each other and fill the frame up to its rounding (`Frame.NoAlias`,
`Frame.LeastSize`). Addresses are taken modulo their range, so that nothing is assumed of the frame
pointer.
-/

namespace ChocoRV

namespace Frame

variable {f : Frame}

/-- A word below the frame pointer. -/
inductive Slot where
  | callerFp
  | returnAddress
  | localVar (k : Nat)
  | spilled (k : Nat)
  | saved (k : Nat)
deriving DecidableEq

namespace Slot

/-- The slots that a frame has. The frame of the top level keeps no registers. -/
def In (f : Frame) : Slot → Prop
  | .callerFp | .returnAddress => True
  | .localVar k => k < f.locals
  | .spilled k => k < f.spillSlots
  | .saved k => f.isTopLevel = false ∧ k < f.saved.length

/-- The offset that code uses for a slot. -/
def offset (f : Frame) : Slot → Int32
  | .callerFp => savedFpOffset
  | .returnAddress => savedRaOffset
  | .localVar k => localOffset k
  | .spilled k => Scan.spillOffset f.spillBase k
  | .saved k => f.saveSlot k

/-- The number of a slot, counted from the frame pointer downward. -/
def number (f : Frame) : Slot → Nat
  | .callerFp => 1
  | .returnAddress => 2
  | .localVar k => 3 + k
  | .spilled k => 3 + f.locals + k
  | .saved k => 3 + f.locals + f.spillSlots + k

variable {x y : Slot}

/-- A slot is the word of its number. -/
theorem offset_eq_ofInt (f : Frame) (x : Slot) :
    x.offset f = Int32.ofInt (-(4 * (x.number f : Nat))) := by
  -- The other formulas are those for saved registers of a frame with fewer parts.
  cases x with
  | callerFp | returnAddress => rfl
  | localVar k =>
    have h := saveSlot_eq_ofInt { f with locals := k, spillSlots := 0 } 0
    rwa [saveSlot, show Int32.ofNat (0 + 0) * 4 = 0 from rfl, Int32.sub_zero] at h
  | spilled k =>
    have h := saveSlot_eq_ofInt { f with spillSlots := 0 } k
    rwa [saveSlot, Nat.zero_add] at h
  | saved k => exact saveSlot_eq_ofInt f k

theorem number_pos (f : Frame) (x : Slot) : 0 < x.number f := by
  cases x <;> simp only [number] <;> omega

theorem number_le_room (hx : x.In f) : x.number f ≤ f.room := by
  unfold room
  cases x with
  | callerFp | returnAddress => simp only [number]; omega
  | localVar k =>
    have hk : k < f.locals := hx
    simp only [number]
    omega
  | spilled k =>
    have hk : k < f.spillSlots := hx
    simp only [number]
    omega
  | saved k =>
    obtain ⟨htop, hk⟩ := hx
    rw [htop]
    simp only [number, Bool.false_eq_true, if_false]
    omega

/-- Different slots of a frame are different words. -/
theorem eq_of_number_eq (hx : x.In f) (hy : y.In f) (h : x.number f = y.number f) : x = y := by
  cases x <;> cases y <;> simp only [number, In, reduceCtorEq, localVar.injEq, spilled.injEq,
    saved.injEq]
    at hx hy h ⊢ <;> omega

/-- Every word of the frame is a slot. -/
theorem exists_number_eq {n : Nat} (hpos : 0 < n) (hn : n ≤ f.room) :
    ∃ x : Slot, x.In f ∧ x.number f = n := by
  unfold room at hn
  by_cases h1 : n = 1
  · exact ⟨.callerFp, trivial, h1.symm⟩
  by_cases h2 : n = 2
  · exact ⟨.returnAddress, trivial, h2.symm⟩
  by_cases hlocal : n - 3 < f.locals
  · exact ⟨.localVar (n - 3), hlocal, by simp only [number]; omega⟩
  by_cases hspill : n - 3 - f.locals < f.spillSlots
  · exact ⟨.spilled (n - 3 - f.locals), hspill, by simp only [number]; omega⟩
  split at hn
  · omega
  · rename_i htop
    refine ⟨.saved (n - 3 - f.locals - f.spillSlots), ⟨Bool.eq_false_iff.mpr htop, by omega⟩, ?_⟩
    simp only [number]
    omega

end Slot

/-! ## The size of a frame -/

/-- The size of the frame is a number of 31 bits. -/
def Fits (f : Frame) : Prop := (4 * f.room + 15 : Nat) ≤ Int32.maxValue.toInt

/-- The words are rounded up to a multiple of 16 bytes. -/
theorem toInt_size (h : f.Fits) : f.size.toInt = ((4 * f.room + 15) / 16 * 16 : Nat) := by
  have hmax : Int32.maxValue.toInt = 2147483647 := rfl
  rw [Fits, hmax] at h
  have hroom : (Int32.ofNat f.room).toInt = f.room := by
    rw [Int32.toInt_ofNat_of_lt]
    omega
  have h4 : (4 : Int32).toInt = 4 := rfl
  have h15 : (15 : Int32).toInt = 15 := rfl
  have h16 : (16 : Int32).toInt = 16 := rfl
  have hbytes : (Int32.ofNat f.room * 4 + 15).toInt = 4 * f.room + 15 := by
    rw [Int32.toInt_add, Int32.toInt_mul, hroom, h4, h15, Int.bmod_add_bmod,
      Int.bmod_eq_of_le (by omega) (by omega)]
    omega
  have hquot : ((Int32.ofNat f.room * 4 + 15) / 16).toInt = (4 * f.room + 15) / 16 := by
    rw [Int32.toInt_div, hbytes, h16, Int.tdiv_eq_ediv_of_nonneg (by omega)]
    exact Int.bmod_eq_of_le (by omega) (by omega)
  show ((Int32.ofNat f.room * 4 + 15) / 16 * 16).toInt = _
  rw [Int32.toInt_mul, hquot, h16, Int.bmod_eq_of_le (by omega) (by omega)]
  omega

theorem toInt_offset (h : f.Fits) {x : Slot} (hx : x.In f) :
    (x.offset f).toInt = -(4 * (x.number f : Nat)) := by
  have hmax : Int32.maxValue.toInt = 2147483647 := rfl
  have hle := x.number_le_room hx
  rw [Fits, hmax] at h
  rw [x.offset_eq_ofInt]
  exact Int32.toInt_ofInt_of_le (by omega) (by omega)

/-- The size is the least multiple of 16 that covers all slots. -/
structure LeastSize (f : Frame) : Prop where
  dvd : 16 ∣ f.size.toInt
  covers : ∀ x : Slot, x.In f → 0 ≤ (x.offset f).toInt + f.size.toInt
  least : ∀ n : Int, 16 ∣ n → (∀ x : Slot, x.In f → 0 ≤ (x.offset f).toInt + n) → f.size.toInt ≤ n

theorem leastSize (h : f.Fits) : f.LeastSize where
  dvd := by
    rw [toInt_size h]
    omega
  covers x hx := by
    have hle := x.number_le_room hx
    rw [toInt_offset h hx, toInt_size h]
    omega
  least n hn hcovers := by
    have hpos : 0 < f.room := by
      unfold room
      omega
    -- The lowest slot is the last word of the frame.
    obtain ⟨x, hx, hnumber⟩ := Slot.exists_number_eq hpos le_rfl
    have := hcovers x hx
    rw [toInt_offset h hx, hnumber] at this
    rw [toInt_size h]
    omega

/-! ## Addresses -/

/-- The address at an offset from the frame pointer. -/
def wordAt (fp : Addr) (offset : Int32) : Addr := fp + offset.toUInt32

/-- The bytes of a word, by their distance from its address. -/
theorem exists_of_inWord {a b : Addr} (h : Addr.InWord a b) : ∃ j < 4, b = a + UInt32.ofNat j := by
  rcases h with rfl | rfl | rfl | rfl
  · exact ⟨0, by omega, (UInt32.add_zero b).symm⟩
  · exact ⟨1, by omega, rfl⟩
  · exact ⟨2, by omega, rfl⟩
  · exact ⟨3, by omega, rfl⟩

/-- How far below the frame pointer the bytes of a slot are. -/
theorem depth_of_inWord {fp b : Addr} {n : Nat} (hpos : 0 < n) (hn : 4 * n < UInt32.size)
    (h : Addr.InWord (wordAt fp (Int32.ofInt (-(4 * (n : Nat))))) b) :
    4 * n < (fp - b).toNat + 4 ∧ (fp - b).toNat ≤ 4 * n := by
  obtain ⟨j, hj, rfl⟩ := exists_of_inWord h
  have hsize : UInt32.size = 4294967296 := rfl
  have hz : (Int32.ofInt (-(4 * (n : Nat)))).toUInt32.toNat =
      ((-(4 * n) : Int) % 4294967296).toNat :=
    BitVec.toNat_ofInt _
  have hlt := fp.toNat_lt_size
  rw [wordAt, UInt32.toNat_sub, UInt32.toNat_add, UInt32.toNat_add, hz, UInt32.toNat_ofNat']
  omega

/-- How far above the frame pointer the bytes of an argument word are, unless this wraps around. -/
theorem height_of_inWord {fp b : Addr} {k : Nat} (h : Addr.InWord (wordAt fp (paramOffset k)) b) :
    ∃ j < 4, (b - fp).toNat = (4 * k + j) % UInt32.size := by
  obtain ⟨j, hj, rfl⟩ := exists_of_inWord h
  refine ⟨j, hj, ?_⟩
  have hk : (paramOffset k).toUInt32 = UInt32.ofNat (4 * k) := by
    rw [paramOffset, Int32.toUInt32_mul, mul_comm, UInt32.ofNat_mul]
    rfl
  rw [wordAt, hk, add_assoc, ← UInt32.ofNat_add, add_sub_cancel_left, UInt32.toNat_ofNat']

/-- The slots of a frame lie apart from each other, below the frame pointer and within the size of
the frame. The argument words lie above the frame pointer, and apart from the slots and from each
other unless they come round to the frame again. -/
structure NoAlias (f : Frame) (fp : Addr) : Prop where
  apart {x y : Slot} (hx : x.In f) (hy : y.In f) (hne : x ≠ y) {b : Addr} :
    Addr.InWord (wordAt fp (x.offset f)) b → ¬ Addr.InWord (wordAt fp (y.offset f)) b
  below {x : Slot} (hx : x.In f) {b : Addr} (hb : Addr.InWord (wordAt fp (x.offset f)) b) :
    0 < (fp - b).toNat ∧ (fp - b).toNat ≤ f.size.toInt
  above {k : Nat} (hk : k < f.args) {b : Addr} (hb : Addr.InWord (wordAt fp (paramOffset k)) b) :
    (b - fp).toNat < 4 * f.args
  argsApart (hroom : f.size.toInt + 4 * f.args ≤ UInt32.size) {k : Nat} (hk : k < f.args) {b : Addr}
    (hb : Addr.InWord (wordAt fp (paramOffset k)) b) :
    (∀ x : Slot, x.In f → ¬ Addr.InWord (wordAt fp (x.offset f)) b) ∧
      ∀ l < f.args, l ≠ k → ¬ Addr.InWord (wordAt fp (paramOffset l)) b

theorem noAlias (h : f.Fits) (fp : Addr) : f.NoAlias fp := by
  have hsize : UInt32.size = 4294967296 := rfl
  have hbytes : 4 * f.room + 15 < 2147483648 := by
    have hmax : Int32.maxValue.toInt = 2147483647 := rfl
    rw [Fits, hmax] at h
    omega
  have hdepth {x : Slot} (hx : x.In f) {b : Addr} (hb : Addr.InWord (wordAt fp (x.offset f)) b) :
      4 * x.number f < (fp - b).toNat + 4 ∧ (fp - b).toNat ≤ 4 * x.number f := by
    have hle := x.number_le_room hx
    rw [x.offset_eq_ofInt] at hb
    exact depth_of_inWord (x.number_pos f) (by omega) hb
  have hbelow {x : Slot} (hx : x.In f) {b : Addr} (hb : Addr.InWord (wordAt fp (x.offset f)) b) :
      0 < (fp - b).toNat ∧ (fp - b).toNat ≤ f.size.toInt := by
    have hle := x.number_le_room hx
    have hpos := x.number_pos f
    have := hdepth hx hb
    rw [toInt_size h]
    omega
  refine ⟨fun {x y} hx hy hne {b} hbx hby => hne ?_, hbelow, fun {k} hk {b} hb => ?_,
    fun hroom {k} hk {b} hb => ⟨fun x hx hbx => ?_, fun l hl hne hbl => hne ?_⟩⟩
  · have := hdepth hx hbx
    have := hdepth hy hby
    exact Slot.eq_of_number_eq hx hy (by omega)
  · obtain ⟨j, hj, heq⟩ := height_of_inWord hb
    have := Nat.mod_le (4 * k + j) UInt32.size
    omega
  · -- Above and below the frame pointer at once the byte would be a whole turn away from itself.
    obtain ⟨j, hj, heq⟩ := height_of_inWord hb
    have hle := Nat.mod_le (4 * k + j) UInt32.size
    have := hbelow hx hbx
    rw [UInt32.toNat_sub] at this heq
    have := b.toNat_lt_size
    have := fp.toNat_lt_size
    omega
  · have hbound : 0 ≤ f.size.toInt := by
      rw [toInt_size h]
      omega
    obtain ⟨j, hj, heq⟩ := height_of_inWord hb
    obtain ⟨i, hi, heq'⟩ := height_of_inWord hbl
    rw [Nat.mod_eq_of_lt (by omega)] at heq heq'
    omega

end Frame

/-! ## Spilled temporaries -/

/-- Temporaries are spilled to slots of the frame, each to one of its own. -/
theorem Allocation.spilled_slots {items : List Item} {pool : List PhysReg} {function : String}
    {f : Frame} {alloc : Allocation} (h : allocate items pool f.spillBase function = .ok alloc)
    (hslots : f.spillSlots = alloc.spillSlots) :
    (∀ (v : Nat) (o : Int32), alloc.assignment[v]? = some (.spill o) →
      ∃ k, (Frame.Slot.spilled k).In f ∧ o = (Frame.Slot.spilled k).offset f) ∧
    ∀ (v w : Nat) (o : Int32), alloc.assignment[v]? = some (.spill o) →
      alloc.assignment[w]? = some (.spill o) → v = w := by
  have hhanded := handed_of_allocate h
  refine ⟨fun v o hv => ?_, fun v w o => hhanded.alone⟩
  obtain ⟨k, hk, rfl⟩ := hhanded.spilled hv
  exact ⟨k, hk.trans_eq hslots.symm, rfl⟩

/-- **Frame slots never alias.** In every frame whose size is a number of 31 bits, that of the top
level included, the saved frame pointer, the return address, locals, spilled temporaries and saved
registers have words apart from each other within the size of the frame below the frame pointer, the
argument words are above it, and the size is the least multiple of 16 that will do. The slots of
locals are at the offsets that the symbol table of a program has for them, and those of spilled
temporaries at the offsets that the allocator chooses, each for one temporary. -/
theorem frame_slots_never_alias :
    (∀ f : Frame, f.Fits → f.LeastSize ∧ ∀ fp : Addr, f.NoAlias fp) ∧
    (∀ (p : Program) (table : SymbolTable), SymbolTable.ofProgram p = .ok table →
      ∀ id < table.funcs.size, (table.func id).builtin = false →
        ∀ (f : Frame), f.locals = (Frame.ofFunc (table.func id)).locals →
          ∀ (name : String) (v : StackVar),
            table.entry? (table.func id).scope name = some (.stack v) →
            v.kind = .localVar → ∃ k l, (table.func id).locals[k]? = some l ∧ l.name = name ∧
              (∀ j m, k < j → (table.func id).locals[j]? = some m → m.name ≠ name) ∧
              (Frame.Slot.localVar k).In f ∧ v.offset = (Frame.Slot.localVar k).offset f) ∧
    (∀ (f : Frame) (items : List Item) (pool : List PhysReg) (function : String)
      (alloc : Allocation),
      Allocation.allocate items pool f.spillBase function = .ok alloc →
        f.spillSlots = alloc.spillSlots →
        (∀ (v : Nat) (o : Int32), alloc.assignment[v]? = some (.spill o) →
          ∃ k, (Frame.Slot.spilled k).In f ∧ o = (Frame.Slot.spilled k).offset f) ∧
        ∀ (v w : Nat) (o : Int32), alloc.assignment[v]? = some (.spill o) →
          alloc.assignment[w]? = some (.spill o) → v = w) := by
  refine ⟨fun f hf => ⟨Frame.leastSize hf, Frame.noAlias hf⟩, ?_, ?_⟩
  · intro p table hp id hid hbuiltin f hlocals name v he hkind
    obtain ⟨k, l, hl, hname, hlast, hv⟩ :=
      ((SymbolTable.Built.ofProgram hp).localsPlaced id hid hbuiltin).placed he hkind
    have hk : k < (table.func id).locals.length := (List.getElem?_eq_some_iff.mp hl).1
    refine ⟨k, l, hl, hname, hlast, hk.trans_eq hlocals.symm, ?_⟩
    rw [hv]
    rfl
  · intro f items pool function alloc halloc hslots
    exact Allocation.spilled_slots halloc hslots

/-- A function with one parameter that declares one of its locals twice. -/
def redeclared : Program :=
  { decls := [.func {} "f" [⟨"a", .int⟩] .none
      [.var {} ⟨"x", .int⟩ (.int 0), .var {} ⟨"y", .int⟩ (.int 1),
        .var {} ⟨"x", .bool⟩ (.bool true)] []]
    body := [] }

/-- The frame of this function with two saved registers and three temporaries that are spilled: ten
words, rounded up to twelve. The name declared twice stands for the later local. -/
theorem redeclared_slots :
    ∃ table alloc, SymbolTable.ofProgram redeclared = .ok table ∧
      ∃ f : Frame, f = { Frame.ofFunc (table.func 2) with
          spillSlots := alloc.spillSlots, saved := [.s1, .s2] } ∧
        Allocation.allocate [.op (.li (.virt 0) 1), .op (.li (.virt 1) 2),
          .op (.add (.virt 2) (.virt 0) (.virt 1)), .op (.mv .a0 (.virt 2))] [] f.spillBase
            "f" = .ok alloc ∧
        f.size = 48 ∧ f.LeastSize ∧ (∀ fp, f.NoAlias fp) ∧
        (∃ v k, table.entry? (table.func 2).scope "x" = some (.stack v) ∧ v.type = .bool ∧
          (Frame.Slot.localVar k).In f ∧ v.offset = (Frame.Slot.localVar k).offset f) ∧
        ∀ (v w : Nat) (o : Int32), alloc.assignment[v]? = some (.spill o) →
          alloc.assignment[w]? = some (.spill o) → v = w := by
  have htable : (SymbolTable.ofProgram redeclared).toOption.map (fun t =>
      (t.funcs.size, (t.func 2).builtin, (t.func 2).locals.map (·.name), (t.func 2).argCount,
        (t.entry? (t.func 2).scope "x"))) =
      some (3, false, ["x", "y", "x"], 1,
        some (.stack ⟨"x", .bool, 2, .localVar, Frame.localOffset 2⟩)) := by decide +kernel
  have hspill : (Allocation.allocate [.op (.li (.virt 0) 1), .op (.li (.virt 1) 2),
      .op (.add (.virt 2) (.virt 0) (.virt 1)), .op (.mv .a0 (.virt 2))] [] (-24) "f").toOption.map
      (·.spillSlots) = some 3 := by decide +kernel
  obtain ⟨table, ht, hparts⟩ := Option.map_eq_some_iff.mp htable
  obtain ⟨alloc, ha, hslots⟩ := Option.map_eq_some_iff.mp hspill
  have ht := toOption_eq_some_iff.mp ht
  have ha := toOption_eq_some_iff.mp ha
  simp only [Prod.mk.injEq] at hparts
  obtain ⟨hsize, hbuiltin, hnames, -, hentry⟩ := hparts
  have hlocals : (table.func 2).locals.length = 3 := by
    rw [← List.length_map (f := (·.name)), hnames]
    rfl
  obtain ⟨hframes, hrecorded, hspilled⟩ := frame_slots_never_alias
  refine ⟨table, alloc, ht, _, rfl, ?_⟩
  generalize hf : ({ Frame.ofFunc (table.func 2) with
    spillSlots := alloc.spillSlots, saved := [.s1, .s2] } : Frame) = f
  have hbase : f.spillBase = -24 := by
    rw [← hf]
    show Frame.localOffset (table.func 2).locals.length = -24
    rw [hlocals]
    rfl
  have hroom : f.room = 10 := by
    rw [← hf]
    show 2 + (table.func 2).locals.length + alloc.spillSlots + 2 = 10
    rw [hlocals, hslots]
  have hfits : f.Fits := by
    rw [Frame.Fits, hroom]
    decide
  rw [← hbase] at ha
  obtain ⟨k, -, -, -, -, hk, hoffset⟩ := hrecorded redeclared table ht 2 (by omega) hbuiltin f
    (by rw [← hf]) "x" _ hentry rfl
  refine ⟨ha, ?_, (hframes f hfits).1, (hframes f hfits).2, ⟨_, k, hentry, rfl, hk, hoffset⟩, ?_⟩
  · show (Int32.ofNat f.room * 4 + 15) / 16 * 16 = 48
    rw [hroom]
    rfl
  · exact (hspilled f _ _ _ alloc ha (by rw [← hf])).2

end ChocoRV
