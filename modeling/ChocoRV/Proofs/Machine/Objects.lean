import Mathlib
import ChocoRV.Proofs.DataSegment
import ChocoRV.Proofs.Machine.Layout

/-!
# Objects in the data segment

An object is its payload, with three header words right below: `Image.ObjectAt`. Boxed integers and
booleans have one payload word (`Image.BoxAt`), strings the bytes of their text and a zero byte
(`Image.StrAt`). The word of a variable represents a literal (`Image.Represents`) by being the
number itself, zero or the address of such an object.

Headers come before the label of their object, and constants join the pool while the segment is
written. So every part of the segment is described for any pool that extends the one after the part.
-/

namespace ChocoRV

namespace Image

section Parts

variable (img : Image) (m : Memory)

/-- The header of the object at an address: its tag, the address of its dispatch table and its
size. -/
structure ObjectAt (addr : Addr) (tag : Int32) (dispatch : String) (size : Nat) : Prop where
  tagWord : m.readWord (addr - 12) = tag
  dispatchWord : ∃ table, img.label? dispatch = some table ∧ m.readWord (addr - 8) = table.toInt32
  sizeWord : (m.readWord (addr - 4)).toUInt32.toNat = size

/-- An object with one payload word. -/
structure BoxAt (addr : Addr) (tag : Int32) (dispatch : String) (value : Int32) : Prop where
  object : img.ObjectAt m addr tag dispatch 1
  valueWord : m.readWord addr = value

/-- A string: its size counts the bytes of the text, and a zero byte follows them. -/
structure StrAt (addr : Addr) (text : String) : Prop where
  object : img.ObjectAt m addr Object.strTag "$str$dispatchTable" (Utf8.encode text).length
  bytes : ∀ i b, (Utf8.encode text ++ [0])[i]? = some b → m.read (addr + UInt32.ofNat i) = b

def ConstantAt (addr : Addr) : Constant → Prop
  | .str text => img.StrAt m addr text
  | .int n => img.BoxAt m addr Object.intTag "$int$dispatchTable" n

def BoolAt (addr : Addr) (b : Bool) : Prop :=
  img.BoxAt m addr Object.boolTag "$bool$dispatchTable" (boolWord b)

/-- A word is the initial value `lit` of a variable of some type: the number itself for integers and
booleans in variables of these types, zero for `None`, and else the address of a constant that holds
the literal. -/
def Represents (w : Int32) (lit : Literal) (type : ValueType) : Prop :=
  match lit with
  | .none => w = 0
  | .int n =>
    if type.isUnboxed then w = n
    else ∃ addr : Addr, w = addr.toInt32 ∧ img.ConstantAt m addr (.int n)
  | .bool b =>
    if type.isUnboxed then w = boolWord b
    else ∃ addr : Addr, w = addr.toInt32 ∧ img.BoolAt m addr b
  | .str text => ∃ addr : Addr, w = addr.toInt32 ∧ img.ConstantAt m addr (.str text)

/-- All constants of a pool are in memory, each at its label. -/
structure PoolAt (pool : ConstantPool) : Prop where
  constants {k : Nat} {c : Constant} (h : pool.entries[k]? = some c) :
    ∃ addr, img.label? (ConstantPool.label k).name = some addr ∧ img.ConstantAt m addr c
  bools (b : Bool) :
    ∃ addr, img.label? (ConstantPool.boolLabel b).name = some addr ∧ img.BoolAt m addr b

/-- The prototype and the dispatch table of a class. A string has no attribute words. -/
structure ClassAt (c : ClassInfo) (proto dispatch : Addr) : Prop where
  prototype : img.label? c.prototype.name = some proto
  dispatchTable : img.label? c.dispatchTable.name = some dispatch
  object : img.ObjectAt m proto c.tag c.dispatchTable.name
    (if c.tag = Object.strTag then 0 else c.attrs.length)
  attrs (htag : c.tag ≠ Object.strTag) {i : Nat} {attr : Attribute} (hi : c.attrs[i]? = some attr) :
    img.Represents m (m.readWord (proto + 4 * UInt32.ofNat i)) attr.init attr.type
  methods {j : Nat} {method : Method} (hj : c.methods[j]? = some method) :
    ∃ addr, img.label? method.label.name = some addr ∧
      m.readWord (dispatch + 4 * UInt32.ofNat j) = addr.toInt32

end Parts

end Image

/-! ## Words -/

namespace Datum

/-- The entry takes one word. -/
def IsWord : Datum → Prop
  | .word _ | .address _ => True
  | .label _ | .ascii _ | .align => False

theorem IsWord.endFrom_eq {d : Datum} (h : d.IsWord) (c : Nat) : d.endFrom c = alignUp c + 4 := by
  cases d with
  | word | address => rfl
  | label | ascii | align => exact h.elim

end Datum

theorem alignUp_alignUp_add (n k : Nat) : alignUp (alignUp n + 4 * k) = alignUp n + 4 * k :=
  alignUp_eq_self ((dvd_alignUp n).add (Nat.dvd_mul_right 4 k))

/-- A word is the one that a value stands for in an image. -/
def WordValue.Is (img : Image) (w : Int32) : WordValue → Prop
  | .word n => w = n
  | .address l => ∃ addr, img.label? l.name = some addr ∧ w = addr.toInt32

theorem WordValue.isWord_toDatum (v : WordValue) : v.toDatum.IsWord := by
  cases v <;> trivial

theorem WordValue.laidAt_toDatum {v : WordValue} {img : Image} {m : Memory} {c : Nat} :
    v.toDatum.LaidAt img m c ↔ v.Is img (m.readWord (UInt32.ofNat (alignUp c))) := by
  cases v <;> rfl

namespace Image

variable {img : Image} {m : Memory} {c : Nat}

/-- Words from an aligned place on follow each other without gaps. -/
theorem top_words {words : List Datum} (hc : 4 ∣ c) (hwords : ∀ d ∈ words, d.IsWord) :
    Datum.top c words = c + 4 * words.length := by
  induction words generalizing c with
  | nil => rfl
  | cons d words ih =>
    obtain ⟨hd, hwords⟩ := List.forall_mem_cons.mp hwords
    rw [Datum.top_cons, hd.endFrom_eq, alignUp_eq_self hc, ih (hc.add (Nat.dvd_refl 4)) hwords,
      List.length_cons]
    omega

theorem Laid.word {words : List Datum} (h : img.Laid m c words) (hc : 4 ∣ c)
    (hwords : ∀ d ∈ words, d.IsWord) {i : Nat} {d : Datum} (hi : words[i]? = some d) :
    d.LaidAt img m (c + 4 * i) := by
  induction words generalizing c i with
  | nil => cases hi
  | cons d' words ih =>
    obtain ⟨hd, hwords⟩ := List.forall_mem_cons.mp hwords
    cases i with
    | zero =>
      cases hi
      exact h.1
    | succ i =>
      have hrest := h.2
      rw [hd.endFrom_eq, alignUp_eq_self hc] at hrest
      have := ih hrest (hc.add (Nat.dvd_refl 4)) hwords hi
      rw [show c + 4 * (i + 1) = c + 4 + 4 * i by omega]
      exact this

theorem ofNat_add_words (c i : Nat) :
    UInt32.ofNat c + 4 * UInt32.ofNat i = UInt32.ofNat (c + 4 * i) := by
  rw [UInt32.ofNat_add, UInt32.ofNat_mul]
  rfl

/-- Some part of data is laid out where the part before it ends. -/
theorem Laid.flatMap {α : Type} {xs : List α} {f : α → List Datum} {x : α}
    (h : img.Laid m c (xs.flatMap f)) (hx : x ∈ xs) :
    ∃ c' ≥ c, Datum.top c' (f x) ≤ Datum.top c (xs.flatMap f) ∧ img.Laid m c' (f x) := by
  obtain ⟨ys, zs, rfl⟩ := List.append_of_mem hx
  rw [List.flatMap_append, List.flatMap_cons] at h ⊢
  refine ⟨_, Datum.le_top c _, ?_, h.append.2.append.1⟩
  rw [Datum.top_append, Datum.top_append]
  exact Datum.le_top _ _

/-! ## Objects -/

/-- A header and the label after it: the label names the place three words after the header
begins. -/
theorem Laid.object {tag : Int32} {dispatch : String} {size : Nat} {l : Label} {rest : List Datum}
    (h : img.Laid m c (ConstantPool.header tag dispatch (Int32.ofNat size) ++ .label l :: rest))
    (hsize : size < 4294967296) :
    img.label? l.name = some (UInt32.ofNat (alignUp c + 12)) ∧
      img.ObjectAt m (UInt32.ofNat (alignUp c + 12)) tag dispatch size ∧
      img.Laid m (alignUp c + 12) rest := by
  obtain ⟨⟨htag, hdispatch, hsizeWord, -⟩, hlabel, hrest⟩ := h.append
  have h₁ := alignUp_alignUp_add c 1
  have h₂ := alignUp_alignUp_add c 2
  have htop : Datum.top c (ConstantPool.header tag dispatch (Int32.ofNat size)) =
      alignUp c + 12 := by
    simp only [ConstantPool.header, Datum.top_cons, Datum.top_nil, Datum.endFrom]
    rw [h₁, h₂]
  rw [htop] at hlabel hrest
  simp only [Datum.LaidAt, Datum.endFrom] at hdispatch hsizeWord
  rw [h₁] at hdispatch
  rw [h₁, h₂] at hsizeWord
  have hback (k j : Nat) : UInt32.ofNat (k + j) - UInt32.ofNat j = UInt32.ofNat k := by
    rw [UInt32.ofNat_add, UInt32.add_sub_cancel]
  refine ⟨hlabel (alignUp_alignUp_add c 3 ▸ dvd_alignUp _), ⟨?_, ?_, ?_⟩, hrest⟩
  · rw [show UInt32.ofNat (alignUp c + 12) - 12 = UInt32.ofNat (alignUp c) from hback _ 12]
    exact htag
  · rw [show UInt32.ofNat (alignUp c + 12) - 8 = UInt32.ofNat (alignUp c + 4) from hback _ 8]
    exact hdispatch
  · rw [show UInt32.ofNat (alignUp c + 12) - 4 = UInt32.ofNat (alignUp c + 8) from hback _ 4]
    rw [show alignUp c + 4 + 4 = alignUp c + 8 from rfl] at hsizeWord
    rw [hsizeWord]
    exact toNat_ofNat_word hsize

theorem Laid.box {tag : Int32} {dispatch : String} {l : Label} {value : Int32}
    (h : img.Laid m c (ConstantPool.header tag dispatch 1 ++ [.label l, .word value])) :
    ∃ addr, img.label? l.name = some addr ∧ img.BoxAt m addr tag dispatch value := by
  have h : img.Laid m c (ConstantPool.header tag dispatch (Int32.ofNat 1) ++
      .label l :: [.word value]) := h
  obtain ⟨hlabel, hobject, hvalue, -⟩ := h.object (by decide)
  refine ⟨_, hlabel, hobject, ?_⟩
  rw [Datum.LaidAt, alignUp_alignUp_add c 3] at hvalue
  exact hvalue

theorem length_encode (text : String) : (Utf8.encode text).length = text.utf8ByteSize := by
  rw [Utf8.encode, ← List.size_toByteArray]
  exact congrArg ByteArray.size String.utf8Encode_toList

/-- A string constant: its label names where its bytes begin. -/
theorem Laid.text {l : Label} {text : String}
    (h : img.Laid m c (ConstantPool.constantData l (.str text))) :
    ∃ n ≥ c, n + (Utf8.encode text).length < Datum.top c (ConstantPool.constantData l (.str text)) ∧
      img.label? l.name = some (UInt32.ofNat n) ∧
      img.StrAt m (UInt32.ofNat n) text := by
  have heq : ConstantPool.constantData l (.str text) = ConstantPool.header Object.strTag
      "$str$dispatchTable" (Int32.ofNat (Utf8.encode text).length) ++
        .label l :: [.ascii text, .align] := by
    rw [length_encode]
    rfl
  have hend : alignUp c + 12 + (Utf8.encode text).length <
      Datum.top c (ConstantPool.constantData l (.str text)) := by
    rw [heq]
    simp only [ConstantPool.header, Datum.top_append, Datum.top_cons, Datum.top_nil, Datum.endFrom]
    rw [alignUp_alignUp_add c 1, alignUp_alignUp_add c 2]
    have := le_alignUp (alignUp c + 4 * 2 + 4 + (Utf8.encode text).length + 1)
    omega
  have htop := h.top_le
  rw [heq] at h
  obtain ⟨hlabel, hobject, hbytes, -⟩ := h.object (by omega)
  have hle := le_alignUp c
  refine ⟨alignUp c + 12, by omega, hend, hlabel, hobject, fun i b hi => ?_⟩
  rw [← UInt32.ofNat_add]
  exact hbytes i b hi

theorem Laid.constant {l : Label} {const : Constant}
    (h : img.Laid m c (ConstantPool.constantData l const)) :
    ∃ addr, img.label? l.name = some addr ∧ img.ConstantAt m addr const := by
  cases const with
  | int n => exact h.box
  | str text =>
    obtain ⟨n, -, -, hlabel, hstr⟩ := h.text
    exact ⟨_, hlabel, hstr⟩

/-- The constants of a pool are laid out with it. -/
theorem Laid.pool {pool : ConstantPool} (h : img.Laid m c pool.data) : img.PoolAt m pool := by
  obtain ⟨hbools, hconstants⟩ := h.append
  obtain ⟨hfalse, htrue⟩ := hbools.append
  constructor
  · intro k const hk
    have hmem := List.mem_of_getElem? (ConstantPool.getElem?_entries.mp hk)
    obtain ⟨c', -, -, hlaid⟩ := hconstants.flatMap hmem
    exact hlaid.constant
  · intro b
    cases b with
    | false => exact hfalse.box
    | true => exact htrue.box

/-- Where the bytes of a string constant of the pool are. -/
theorem Laid.pool_text {pool : ConstantPool} {k : Nat} {text : String} (h : img.Laid m c pool.data)
    (hk : pool.entries[k]? = some (.str text)) :
    ∃ n ≥ c, n + (Utf8.encode text).length < Datum.top c pool.data ∧
      img.label? (ConstantPool.label k).name = some (UInt32.ofNat n) ∧
      img.StrAt m (UInt32.ofNat n) text := by
  obtain ⟨-, hconstants⟩ := h.append
  have hmem := List.mem_of_getElem? (ConstantPool.getElem?_entries.mp hk)
  obtain ⟨c', hc', htop, hlaid⟩ := hconstants.flatMap hmem
  obtain ⟨n, hn, hlt, hlabel, hstr⟩ := hlaid.text
  have hle := Datum.le_top c (ConstantPool.boolData false ++ ConstantPool.boolData true)
  refine ⟨n, by omega, ?_, hlabel, hstr⟩
  rw [ConstantPool.data, Datum.top_append]
  exact Nat.lt_of_lt_of_le hlt htop

end Image

/-! ## Literals -/

/-- What a literal becomes as the value of a variable of some type, with the constants of a pool. -/
def ConstantPool.Encodes (pool : ConstantPool) (lit : Literal) (type : ValueType) (v : WordValue) :
    Prop :=
  match lit with
  | .none => v = .word 0
  | .int n =>
    if type.isUnboxed then v = .word n
    else ∃ k, pool.entries[k]? = some (.int n) ∧ v = .address (label k)
  | .bool b => v = if type.isUnboxed then .word (boolWord b) else .address (boolLabel b)
  | .str text => ∃ k, pool.entries[k]? = some (.str text) ∧ v = .address (label k)

/-- A constant keeps its place when the pool is extended. -/
theorem ConstantPool.exists_label_intern {pool final : ConstantPool} {c : Constant}
    (h : (pool.intern c).2.entries <+: final.entries) :
    ∃ k, final.entries[k]? = some c ∧ WordValue.address (pool.intern c).1 = .address (label k) := by
  obtain ⟨k, hk, hl⟩ := (intern_spec pool c).2
  obtain ⟨more, hmore⟩ := h
  refine ⟨k, ?_, by rw [hl]⟩
  rw [← hmore, List.getElem?_append_left (List.getElem?_eq_some_iff.mp hk).1, hk]

theorem ConstantPool.encodes_literal {pool final : ConstantPool} {lit : Literal} {type : ValueType}
    (h : (pool.literal lit type).2.entries <+: final.entries) :
    final.Encodes lit type (pool.literal lit type).1 := by
  cases lit with
  | none => rfl
  | int n =>
    unfold literal at h ⊢
    dsimp only [Encodes] at h ⊢
    split
    · rfl
    · rename_i hboxed
      rw [if_neg hboxed] at h
      exact exists_label_intern h
  | bool b =>
    unfold literal
    dsimp only [Encodes]
    split <;> rfl
  | str text => exact exists_label_intern h

theorem Image.PoolAt.represents {img : Image} {m : Memory} {pool : ConstantPool}
    (h : img.PoolAt m pool) {lit : Literal} {type : ValueType} {v : WordValue} {w : Int32}
    (hv : pool.Encodes lit type v) (hw : v.Is img w) : img.Represents m w lit type := by
  -- The word of a constant is the address of its object.
  have hconstant {k : Nat} {c : Constant} (hk : pool.entries[k]? = some c)
      (hw : (WordValue.address (ConstantPool.label k)).Is img w) :
      ∃ addr : Addr, w = addr.toInt32 ∧ img.ConstantAt m addr c := by
    obtain ⟨addr, haddr, hobject⟩ := h.constants hk
    obtain ⟨addr', haddr', hword⟩ := hw
    cases haddr.symm.trans haddr'
    exact ⟨addr, hword, hobject⟩
  cases lit with
  | none =>
    cases hv
    exact hw
  | int n =>
    dsimp only [ConstantPool.Encodes, Represents] at hv ⊢
    split at hv
    · rename_i hplain
      cases hv
      rw [if_pos hplain]
      exact hw
    · rename_i hboxed
      obtain ⟨k, hk, rfl⟩ := hv
      rw [if_neg hboxed]
      exact hconstant hk hw
  | bool b =>
    dsimp only [ConstantPool.Encodes, Represents] at hv ⊢
    split at hv
    · rename_i hplain
      cases hv
      rw [if_pos hplain]
      exact hw
    · rename_i hboxed
      cases hv
      rw [if_neg hboxed]
      obtain ⟨addr, haddr, hobject⟩ := h.bools b
      obtain ⟨addr', haddr', hword⟩ := hw
      cases haddr.symm.trans haddr'
      exact ⟨addr, hword, hobject⟩
  | str text =>
    obtain ⟨k, hk, rfl⟩ := hv
    exact hconstant hk hw

/-! ## Variables and classes -/

namespace DataSegment

variable {img : Image} {m : Memory} {pool final : ConstantPool} {c : Nat}

theorem isWord_literalWords (ls : List (Literal × ValueType)) (pool : ConstantPool) :
    ∀ d ∈ (literalWords ls pool).1, d.IsWord := by
  induction ls generalizing pool with
  | nil => exact fun d hd => absurd hd List.not_mem_nil
  | cons p ls ih =>
    rw [literalWords_cons]
    exact List.forall_mem_cons.mpr ⟨WordValue.isWord_toDatum _, ih _⟩

theorem length_literalWords (ls : List (Literal × ValueType)) (pool : ConstantPool) :
    (literalWords ls pool).1.length = ls.length := by
  induction ls generalizing pool with
  | nil => rfl
  | cons p ls ih => exact congrArg (· + 1) (ih _)

theorem getElem?_literalWords {ls : List (Literal × ValueType)} {lit : Literal} {type : ValueType}
    {i : Nat} (hfinal : (literalWords ls pool).2.entries <+: final.entries)
    (hi : ls[i]? = some (lit, type)) :
    ∃ v, (literalWords ls pool).1[i]? = some v.toDatum ∧ final.Encodes lit type v := by
  induction ls generalizing pool i with
  | nil => cases hi
  | cons p ls ih =>
    rw [literalWords_cons] at hfinal ⊢
    cases i with
    | zero =>
      cases hi
      refine ⟨_, rfl, ConstantPool.encodes_literal ?_⟩
      exact (literalWords_spec ls (pool.literal lit type).2).1.trans hfinal
    | succ i => exact ih hfinal hi

/-- A variable of the top level has its label and its initial value. -/
theorem globals_laid {gs : List GlobalVar} (h : img.Laid m c (globals gs pool).1) (hc : 4 ∣ c)
    (hfinal : (globals gs pool).2.entries <+: final.entries) (hpool : img.PoolAt m final) :
    ∀ g ∈ gs, ∃ addr, img.label? g.label.name = some addr ∧
      img.Represents m (m.readWord addr) g.init g.type := by
  induction gs generalizing pool c with
  | nil => exact fun g hg => absurd hg List.not_mem_nil
  | cons g gs ih =>
    rw [globals_cons] at h hfinal
    obtain ⟨hlabel, hword, hrest⟩ := h
    rw [Datum.endFrom, (WordValue.isWord_toDatum _).endFrom_eq] at hrest
    rw [Datum.endFrom, WordValue.laidAt_toDatum, alignUp_eq_self hc] at hword
    refine List.forall_mem_cons.mpr ⟨⟨_, hlabel hc, hpool.represents ?_ hword⟩, ?_⟩
    · exact ConstantPool.encodes_literal ((globals_spec gs _).1.trans hfinal)
    · exact ih hrest ((dvd_alignUp c).add (Nat.dvd_refl 4)) hfinal

theorem dispatchTable_laid {cls : ClassInfo} (h : img.Laid m c (dispatchTable cls)) (hc : 4 ∣ c) :
    img.label? cls.dispatchTable.name = some (UInt32.ofNat c) ∧
      ∀ {j : Nat} {method : Method}, cls.methods[j]? = some method →
        ∃ addr, img.label? method.label.name = some addr ∧
          m.readWord (UInt32.ofNat c + 4 * UInt32.ofNat j) = addr.toInt32 := by
  have hmethods : img.Laid m c (cls.methods.map fun m => .address m.label) := h.2
  refine ⟨h.1 hc, fun {j method} hj => ?_⟩
  have hwords : ∀ d ∈ cls.methods.map (fun m => Datum.address m.label), d.IsWord := by
    intro d hd
    obtain ⟨m, -, rfl⟩ := List.mem_map.mp hd
    trivial
  have hentry : (cls.methods.map fun m => Datum.address m.label)[j]? =
      some (.address method.label) := by
    rw [List.getElem?_map, hj]
    rfl
  obtain ⟨addr, haddr, hword⟩ := Image.Laid.word hmethods hc hwords hentry
  rw [alignUp_eq_self (hc.add (Nat.dvd_mul_right 4 j))] at hword
  rw [Image.ofNat_add_words]
  exact ⟨addr, haddr, hword⟩

/-- A class has its prototype and, right after it, its dispatch table. -/
theorem class_laid {cls : ClassInfo}
    (h : img.Laid m c ((prototype cls pool).1 ++ dispatchTable cls))
    (hfinal : (prototype cls pool).2.entries <+: final.entries) (hpool : img.PoolAt m final) :
    ∃ proto dispatch, img.ClassAt m cls proto dispatch := by
  obtain ⟨hproto, htable⟩ := h.append
  have hc : 4 ∣ alignUp c + 12 := alignUp_alignUp_add c 3 ▸ dvd_alignUp _
  by_cases htag : cls.tag = Object.strTag
  · -- The payload of the empty string is one word, all of it zero.
    have heq : (prototype cls pool).1 = ConstantPool.header cls.tag cls.dispatchTable.name
        (Int32.ofNat 0) ++ .label cls.prototype :: [.word 0] := by
      rw [prototype, if_pos htag]
      rfl
    have htop : Datum.top c (prototype cls pool).1 = alignUp c + 16 := by
      rw [heq]
      simp only [ConstantPool.header, Datum.top_append, Datum.top_cons, Datum.top_nil,
        Datum.endFrom]
      rw [alignUp_alignUp_add c 1, alignUp_alignUp_add c 2, alignUp_alignUp_add c 3]
    rw [heq] at hproto
    rw [htop] at htable
    obtain ⟨hlabel, hobject, -⟩ := hproto.object (by decide)
    obtain ⟨htableLabel, hmethods⟩ := dispatchTable_laid htable (hc.add (Nat.dvd_refl 4))
    exact ⟨_, _, hlabel, htableLabel, by rw [if_pos htag]; exact hobject,
      fun hne => absurd htag hne, hmethods⟩
  · have heq : (prototype cls pool).1 = ConstantPool.header cls.tag cls.dispatchTable.name
        (Int32.ofNat cls.attrs.length) ++ .label cls.prototype ::
          (literalWords (cls.attrs.map fun a => (a.init, a.type)) pool).1 := by
      rw [prototype, if_neg htag]
    have hpoolEq : (prototype cls pool).2 =
        (literalWords (cls.attrs.map fun a => (a.init, a.type)) pool).2 := by
      rw [prototype, if_neg htag]
    have hwords := isWord_literalWords (cls.attrs.map fun a => (a.init, a.type)) pool
    have htop : Datum.top c (prototype cls pool).1 = alignUp c + 12 + 4 * cls.attrs.length := by
      rw [heq, Datum.top_append, Datum.top_cons, Datum.endFrom]
      simp only [ConstantPool.header, Datum.top_cons, Datum.top_nil, Datum.endFrom]
      rw [alignUp_alignUp_add c 1, alignUp_alignUp_add c 2, Image.top_words hc hwords,
        length_literalWords, List.length_map]
    have hsize : cls.attrs.length < 4294967296 := by
      have hle := hproto.top_le
      omega
    rw [htop] at htable
    rw [heq] at hproto
    rw [hpoolEq] at hfinal
    obtain ⟨hlabel, hobject, hattrs⟩ := hproto.object hsize
    obtain ⟨htableLabel, hmethods⟩ :=
      dispatchTable_laid htable (hc.add (Nat.dvd_mul_right 4 _))
    refine ⟨_, _, hlabel, htableLabel, by rw [if_neg htag]; exact hobject, fun _ {i attr} hi => ?_,
      hmethods⟩
    have hlit : (cls.attrs.map fun a => (a.init, a.type))[i]? = some (attr.init, attr.type) := by
      rw [List.getElem?_map, hi]
      rfl
    obtain ⟨v, hv, hencodes⟩ := getElem?_literalWords hfinal hlit
    have hword := Image.Laid.word hattrs hc hwords hv
    rw [WordValue.laidAt_toDatum, alignUp_eq_self (hc.add (Nat.dvd_mul_right 4 i))] at hword
    rw [Image.ofNat_add_words]
    exact hpool.represents hencodes hword

theorem classes_laid {cs : List ClassInfo} (h : img.Laid m c (classes cs pool).1)
    (hfinal : (classes cs pool).2.entries <+: final.entries) (hpool : img.PoolAt m final) :
    ∀ cls ∈ cs, ∃ proto dispatch, img.ClassAt m cls proto dispatch := by
  induction cs generalizing pool c with
  | nil => exact fun cls hcls => absurd hcls List.not_mem_nil
  | cons cls cs ih =>
    obtain ⟨hcls, hrest⟩ := h.append
    refine List.forall_mem_cons.mpr ⟨class_laid hcls ?_ hpool, ih hrest hfinal⟩
    exact (classes_spec cs (prototype cls pool).2).1.trans hfinal

/-- Every class takes three words at least. -/
theorem le_top_classes (cs : List ClassInfo) (pool : ConstantPool) (c : Nat) :
    c + 12 * cs.length ≤ Datum.top c (classes cs pool).1 := by
  induction cs generalizing pool c with
  | nil => exact Nat.le_refl c
  | cons cls cs ih =>
    have hproto : c + 12 ≤ Datum.top c (prototype cls pool).1 := by
      obtain ⟨size, rest, heq⟩ : ∃ size rest, (prototype cls pool).1 =
          ConstantPool.header cls.tag cls.dispatchTable.name size ++ rest := by
        unfold prototype
        split
        · exact ⟨_, _, rfl⟩
        · exact ⟨_, _, rfl⟩
      rw [heq, Datum.top_append]
      refine Nat.le_trans ?_ (Datum.le_top _ rest)
      simp only [ConstantPool.header, Datum.top_cons, Datum.top_nil, Datum.endFrom]
      have h₀ := le_alignUp c
      have h₁ := le_alignUp (alignUp c + 4)
      have h₂ := le_alignUp (alignUp (alignUp c + 4) + 4)
      omega
    have htable := Datum.le_top (Datum.top c (prototype cls pool).1) (dispatchTable cls)
    have hrest := ih (prototype cls pool).2
      (Datum.top (Datum.top c (prototype cls pool).1) (dispatchTable cls))
    have heq : (classes (cls :: cs) pool).1 = (prototype cls pool).1 ++ dispatchTable cls ++
        (classes cs (prototype cls pool).2).1 := rfl
    rw [heq, Datum.top_append, Datum.top_append, List.length_cons]
    omega

end DataSegment

end ChocoRV
