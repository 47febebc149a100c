import Mathlib
import ChocoRV.Proofs.Routine.Fresh
import ChocoRV.Proofs.Utf8

/-!
# Texts as objects

A string has the number of its bytes in its size word and a zero byte behind them. Texts become
strings in three ways: as constants of a program, by concatenation, and as a single character of
another string. All of them leave the zero byte, so the bytes up to it can be read as the text, up
to its first character with number zero.
-/

namespace ChocoRV

open Assembly Image

/-! ## Reading texts -/

namespace Memory

variable {m : Memory} {a : Addr} {text : String}

/-- Bytes with a zero among them are read up to the first zero. -/
theorem bytesFrom_eq_takeWhile {bs : List UInt8}
    (h : ∀ i b, bs[i]? = some b → m.read (a + UInt32.ofNat i) = b) (hzero : 0 ∈ bs) :
    m.bytesFrom UInt32.size a = bs.takeWhile (· != 0) := by
  obtain ⟨pre, rest, rfl, hpre⟩ : ∃ pre rest, bs = pre ++ 0 :: rest ∧ 0 ∉ pre :=
    List.eq_append_cons_of_mem hzero
  have hne : ∀ b ∈ pre, b ≠ 0 := fun b hb e => hpre (e ▸ hb)
  have htake : (pre ++ 0 :: rest).takeWhile (· != 0) = pre := by
    rw [List.takeWhile_append_of_pos fun b hb => bne_iff_ne.mpr (hne b hb),
      List.takeWhile_cons_of_neg (by decide), List.append_nil]
  rw [htake]
  refine bytesFrom_eq (fun i b hi => h i b ?_) hne ?_
  · rwa [List.append_cons, List.getElem?_append_left (List.getElem?_eq_some_iff.mp hi).1]
  -- Addresses wrap around, so the zero would be where another byte is.
  · by_contra hlong
    have hsize : UInt32.size = 4294967296 := rfl
    have hi : pre.length - UInt32.size < pre.length := by omega
    have hsame : UInt32.ofNat (pre.length - UInt32.size) = UInt32.ofNat pre.length := by
      rw [← UInt32.toNat_inj, UInt32.toNat_ofNat', UInt32.toNat_ofNat']
      omega
    have hbyte := h _ pre[pre.length - UInt32.size] (by
      rw [List.getElem?_append_left hi, List.getElem?_eq_getElem hi])
    have hend := h pre.length 0 (by
      rw [List.getElem?_append_right (Nat.le_refl _), Nat.sub_self]
      rfl)
    rw [hsame, hend] at hbyte
    exact hne _ (List.getElem_mem hi) hbyte.symm

/-- A text is read up to its first character with number zero. -/
theorem Says.cstring (h : m.Says a text) : m.cstring a = Utf8.beforeNul text := by
  rw [Memory.cstring, bytesFrom_eq_takeWhile h (List.mem_append_right _ List.mem_cons_self),
    Utf8.takeWhile_encode, Utf8.decodeLossy_encode]

/-- The bytes of a text are the elements of a string, and a zero byte comes next. -/
theorem says_iff :
    m.Says a text ↔
      m.elements .byte a (Utf8.encode text).length = (Utf8.encode text).map (·.toUInt32.toInt32) ∧
      m.read (a + UInt32.ofNat (Utf8.encode text).length) = 0 := by
  rw [elements_byte_eq_iff]
  constructor
  · refine fun h => ⟨fun i b hi => h i b ?_, h _ 0 List.getElem?_concat_length⟩
    rwa [List.getElem?_append_left (List.getElem?_eq_some_iff.mp hi).1]
  · rintro ⟨h, hzero⟩ i b hi
    rcases Nat.lt_trichotomy i (Utf8.encode text).length with hlt | rfl | hgt
    · exact h i b (by rwa [List.getElem?_append_left hlt] at hi)
    · rw [List.getElem?_concat_length, Option.some.injEq] at hi
      exact hi ▸ hzero
    · rw [List.getElem?_eq_none (by rw [List.length_append]; exact hgt)] at hi
      cases hi

end Memory

theorem Utf8.encode_append (text text' : String) :
    encode (text ++ text') = encode text ++ encode text' := by
  rw [encode, String.toList_append, List.flatMap_append]
  rfl

/-! ## Strings -/

/-- A string of a text: its size word counts the bytes of the text, and a zero byte follows them. -/
structure Memory.TextAt (m : Memory) (q : Int32) (text : String) : Prop where
  tag : m.readWord (q + Object.tagOffset).toUInt32 = Object.strTag
  size : (m.readWord (q + Object.sizeOffset).toUInt32).toUInt32.toNat = (Utf8.encode text).length
  bytes : m.Says q.toUInt32 text

variable {text : String}

/-- Constants of a program. -/
theorem Image.StrAt.textAt {img : Image} {m : Memory} {addr : Addr} (h : img.StrAt m addr text) :
    m.TextAt addr.toInt32 text := by
  have hback (n : Int32) : (addr.toInt32 + -n).toUInt32 = addr - n.toUInt32 := by
    rw [Int32.toUInt32_add, UInt32.sub_eq_add_neg]
    rfl
  refine ⟨?_, ?_, h.bytes⟩
  · rw [show (addr.toInt32 + Object.tagOffset).toUInt32 = addr - 12 from hback 12]
    exact h.object.tagWord
  · rw [show (addr.toInt32 + Object.sizeOffset).toUInt32 = addr - 4 from hback 4]
    exact h.object.sizeWord

/-- A program is loaded with its string constants. -/
theorem CompiledAs.textAt_of_load {p : Program} {settings : CodegenSettings} {a : Assembly}
    {table : SymbolTable} {bodies : List Body} {payload : Int32} {img : Image} {s : State}
    (h : CompiledAs p settings a table bodies payload) (hdata : a.dataTop ≤ UInt32.size)
    (hload : load a = .ok (img, s)) {k : Nat}
    (hk : (constants p settings table).entries[k]? = some (.str text)) :
    ∃ addr, img.label? (ConstantPool.label k).name = some addr ∧ dataBase ≤ addr ∧
      s.memory.TextAt addr.toInt32 text := by
  obtain ⟨c, hbase, htop, hlaid⟩ := h.laid_constants hload hdata
  obtain ⟨n, hn, hlt, hlabel, hstr⟩ := hlaid.pool_text hk
  refine ⟨UInt32.ofNat n, hlabel, ?_, hstr.textAt⟩
  rw [UInt32.le_iff_toNat_le, UInt32.toNat_ofNat_of_lt' (by omega)]
  omega

/-- A new string: its header begins twelve bytes before what it refers to. -/
theorem Memory.textAt_of_header {m : Memory} {b : Addr} (htag : m.readWord b = Object.strTag)
    (hsize : (m.readWord (b + 8)).toUInt32.toNat = (Utf8.encode text).length)
    (hbytes : m.Says (b + 12) text) : m.TextAt (b + 12).toInt32 text := by
  have hback (k : Int32) : ((b + 12).toInt32 + k).toUInt32 = b + (12 + k.toUInt32) := by
    rw [Int32.toUInt32_add, ← UInt32.add_assoc]
    rfl
  refine ⟨?_, ?_, hbytes⟩
  · rwa [show ((b + 12).toInt32 + Object.tagOffset).toUInt32 = b + 0 from hback _, UInt32.add_zero]
  · rwa [show ((b + 12).toInt32 + Object.sizeOffset).toUInt32 = b + 8 from hback _]

/-- Two texts, one behind the other. -/
theorem State.Concatenated.textAt {s s' : State} {p : Addr} {m n : Nat} {text' : String}
    (h : s.Concatenated .byte p m n s') (hsum : m + n < UInt32.size)
    (htag : s'.memory.readWord p = Object.strTag) (hm : m = (Utf8.encode text).length)
    (hn : n = (Utf8.encode text').length) (htext : s.memory.Says (s.reg .a0).toUInt32 text)
    (htext' : s.memory.Says (s.reg .a1).toUInt32 text') :
    s'.memory.TextAt (s'.reg .a0) (text ++ text') := by
  have hlength : (Utf8.encode (text ++ text')).length = m + n := by
    rw [Utf8.encode_append, List.length_append, hm, hn]
  have hpayload : s'.memory.elements .byte (s.brk + 12) (m + n) =
      (Utf8.encode (text ++ text')).map (·.toUInt32.toInt32) := by
    refine h.payload.trans ?_
    rw [hm, hn, (Memory.says_iff.mp htext).1, (Memory.says_iff.mp htext').1, ← List.map_append,
      Utf8.encode_append]
  rw [h.result]
  refine Memory.textAt_of_header (h.tag.trans htag) ?_ ?_
  · rw [h.size, hlength]
    exact toNat_ofNat_word hsum
  · rw [Memory.says_iff, hlength]
    exact ⟨hpayload, h.zeros _ (by show 1 * _ ≤ _; omega) (h.terminated rfl)⟩

/-! ## Single characters -/

/-- A text of one byte. -/
theorem State.Spells.textAt {s s' : State} {p : Addr} (h : s.Spells p s')
    (htag : s'.memory.readWord p = Object.strTag)
    (htext : Utf8.encode text = [(s.reg .a0).toUInt32.toUInt8]) :
    s'.memory.TextAt (s'.reg .a0) text := by
  rw [h.result]
  refine Memory.textAt_of_header (h.tag.trans htag) (by rw [h.size, htext]; rfl) ?_
  intro i b hi
  rw [htext] at hi
  cases i with
  | zero =>
    obtain rfl := Option.some.inj hi
    rw [show UInt32.ofNat 0 = 0 from rfl, UInt32.add_zero]
    exact h.byte
  | succ i =>
    -- Behind the only byte there is the zero, and nothing behind that one.
    rw [List.singleton_append, List.getElem?_cons_succ] at hi
    obtain ⟨hlt, rfl⟩ := List.getElem?_eq_some_iff.mp hi
    obtain rfl : i = 0 := Nat.lt_one_iff.mp hlt
    rw [UInt32.add_assoc]
    exact h.zero

/-! ## Strings that programs make -/

/-- The routine at `s` goes back with the string of a text in `a0`, as long as the prototype of
strings has their tag. -/
def Image.MakesText (img : Image) (s : State) (text : String) : Prop :=
  ∃ p n s', img.label? Routine.strPrototype.name = some (p + 12) ∧ Steps img n s s' ∧
    s'.pc = (s.reg .ra).toUInt32 ∧
    (s'.memory.readWord p = Object.strTag → s'.memory.TextAt (s'.reg .a0) text)

namespace CompiledAs

variable {p : Program} {settings : CodegenSettings} {a : Assembly} {table : SymbolTable}
  {bodies : List Body} {payload : Int32} {img : Image} {init s : State} {text text' : String}

/-- Texts are concatenated. -/
theorem makesText_concat (h : CompiledAs p settings a table bodies payload)
    (hload : load a = .ok (img, init)) (himg : img.Unwrapped) (hheap : a.dataTop ≤ s.brk.toNat)
    (hpc : img.label? Routine.strcat.name = some s.pc)
    (hop : s.Operands .byte (Utf8.encode text).length (Utf8.encode text').length)
    (htext : s.memory.Says (s.reg .a0).toUInt32 text)
    (htext' : s.memory.Says (s.reg .a1).toUInt32 text') :
    img.MakesText s (text ++ text') := by
  obtain ⟨q, n, s', hlabel, hsteps, hdone⟩ := h.concatenates hload himg hheap (w := .byte) hpc hop
  have hsum := hop.sum
  have hsize : UInt32.size = 4294967296 := rfl
  exact ⟨q, n, s', hlabel, hsteps, hdone.pc, fun htag =>
    hdone.textAt (by omega) htag rfl rfl htext htext'⟩

/-- A byte that is a text becomes a string. -/
theorem makesText_char (h : CompiledAs p settings a table bodies payload)
    (hload : load a = .ok (img, init)) (himg : img.Unwrapped) (hheap : a.dataTop ≤ s.brk.toNat)
    (hpc : img.label? Routine.strChar.name = some s.pc)
    (hroom : s.HasRoom 1) (htext : Utf8.encode text = [(s.reg .a0).toUInt32.toUInt8]) :
    img.MakesText s text := by
  have hlt := s.brk.toNat_lt_size
  obtain ⟨k, hk⟩ : ∃ k, img.Holds (fun _ => True) k Routine.strCharItems :=
    h.holds_routine hload (by simp [Routine.parts])
  obtain ⟨j, halloc⟩ : ∃ j, img.Holds (fun _ => True) j Routine.alloc2Items :=
    h.holds_routine hload (by simp [Routine.parts])
  obtain ⟨q, hlabel, hlow, hhigh⟩ :=
    h.prototype_header hload (l := Routine.strPrototype) (by omega) List.mem_cons_self
  have hpc' : s.pc = pcOf k := Option.some.inj (hpc.symm.trans (find_eq_ok_iff.mp hk.1))
  obtain ⟨s', hcomes, hspells⟩ := hk.spells himg hpc' halloc hroom (by omega)
    (addressOf_eq (find_eq_ok_iff.mpr hlabel)) hlow (by omega) (Region.apart_of_le (by omega))
  obtain ⟨n, hsteps⟩ := hcomes.steps
  exact ⟨q, n, s', hlabel, hsteps, hspells.pc, fun htag => hspells.textAt htag htext⟩

end CompiledAs

end ChocoRV
