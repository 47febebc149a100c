import Mathlib
import ChocoRV.Alloc.FlowGraph
import ChocoRV.Machine.Run
import ChocoRV.Proofs.Machine.Load

/-!
# Where instructions and labels are

Instruction `k` of a loaded program is at address `Image.pcOf k`. In a program whose names are all
different, a label of the text names the address of the instruction after it, and a label of the
data an address that does not depend on the text.
-/

namespace ChocoRV

open Assembly

/-- The segments of a program do not overlap: the text ends before the data begins, and the data
before the addresses wrap around. -/
structure Assembly.Fits (a : Assembly) : Prop where
  text : Image.textBase.toNat + 4 * (instrs a.text).length ≤ Image.dataBase.toNat
  data : ∀ e ∈ Image.dataLabels Image.dataBase a.data, Image.dataBase ≤ e.2

namespace Image

/-! ## Addresses of instructions -/

/-- The address of instruction `k`. -/
def pcOf (k : Nat) : Addr := textBase + 4 * UInt32.ofNat k

theorem pcOf_zero : pcOf 0 = textBase := rfl

theorem pcOf_add_four (k : Nat) : pcOf k + 4 = pcOf (k + 1) := by
  rw [pcOf, pcOf, UInt32.ofNat_add, UInt32.mul_add, UInt32.add_assoc]
  rfl

variable {k : Nat}

theorem toNat_pcOf (h : textBase.toNat + 4 * k < UInt32.size) :
    (pcOf k).toNat = textBase.toNat + 4 * k := by
  have ht : textBase.toNat = 4194304 := rfl
  have hsize : UInt32.size = 4294967296 := rfl
  rw [hsize, ht] at h
  have h4 : (4 : UInt32).toNat = 4 := rfl
  rw [pcOf, UInt32.toNat_add, UInt32.toNat_mul, UInt32.toNat_ofNat', h4, ht]
  omega

theorem pcOf_ne_halt (h : textBase.toNat + 4 * k ≤ dataBase.toNat) : pcOf k ≠ haltAddress := by
  intro e
  have hk := toNat_pcOf (Nat.lt_of_le_of_lt h (by decide))
  rw [e, show haltAddress.toNat = 0 from rfl, show textBase.toNat = 4194304 from rfl] at hk
  omega

variable {img : Image}

theorem fetch_pcOf (h : textBase.toNat + 4 * k < UInt32.size) :
    img.fetch (pcOf k) = img.code[k]? := by
  have hk := toNat_pcOf h
  have hle : textBase ≤ pcOf k := by
    rw [UInt32.le_iff_toNat_le]
    omega
  have hnot : ¬ pcOf k < textBase := UInt32.not_lt.mpr hle
  have hindex : ((pcOf k - textBase) / 4).toNat = k := by
    rw [UInt32.toNat_div, UInt32.toNat_sub_of_le _ _ hle, hk, show (4 : UInt32).toNat = 4 from rfl]
    omega
  rw [fetch, if_neg hnot, hindex]

/-- There is no code in the data segment. -/
theorem fetch_data {a : Addr} (hsize : textBase.toNat + 4 * img.code.size ≤ dataBase.toNat)
    (ha : dataBase ≤ a) : img.fetch a = none := by
  have ht : textBase.toNat = 4194304 := rfl
  have hd : dataBase.toNat = 268435456 := rfl
  rw [UInt32.le_iff_toNat_le] at ha
  have hle : textBase ≤ a := by
    rw [UInt32.le_iff_toNat_le]
    omega
  have hnot : ¬ a < textBase := UInt32.not_lt.mpr hle
  have hindex : img.code.size ≤ ((a - textBase) / 4).toNat := by
    rw [UInt32.toNat_div, UInt32.toNat_sub_of_le _ _ hle, show (4 : UInt32).toNat = 4 from rfl]
    omega
  rw [fetch, if_neg hnot]
  exact Array.getElem?_eq_none hindex

theorem data_ne_halt {a : Addr} (ha : dataBase ≤ a) : a ≠ haltAddress := by
  rintro rfl
  exact absurd ha (by decide)

/-! ## Code -/

variable {a : Assembly} {s : State}

/-- The instructions of a loaded program are those of its text, with addresses for labels. -/
theorem code_of_load (h : load a = .ok (img, s)) :
    List.Forall₂ (fun i op => i.op.resolve (fun l => find (labelTable a) l.name) = .ok op)
      (instrs a.text) img.code.toList := by
  obtain ⟨m, -, h⟩ := bind_eq_ok_iff.mp h
  obtain ⟨code, hcode, h⟩ := bind_eq_ok_iff.mp h
  cases h
  exact mapM_eq_ok_iff.mp hcode

theorem size_of_load (h : load a = .ok (img, s)) : img.code.size = (instrs a.text).length :=
  (code_of_load h).length_eq.symm

theorem getElem?_of_load {i : Instr} (h : load a = .ok (img, s)) (hk : (instrs a.text)[k]? = some i)
    : ∃ op, img.code[k]? = some op ∧
      i.op.resolve (fun l => find (labelTable a) l.name) = .ok op := by
  have hcode := List.forall₂_iff_get.mp (code_of_load h)
  obtain ⟨hk, hi⟩ := List.getElem?_eq_some_iff.mp hk
  have hk' : k < img.code.toList.length := hcode.1 ▸ hk
  refine ⟨img.code.toList.get ⟨k, hk'⟩, ?_, ?_⟩
  · rw [← Array.getElem?_toList, List.getElem?_eq_getElem hk']
    rfl
  · rw [← hi]
    exact hcode.2 k hk hk'

/-- From instruction `k` on, the program consists of these instructions. -/
def CodeAt (img : Image) (k : Nat) (is : List Instr) : Prop :=
  ∀ n i, is[n]? = some i →
    ∃ op, img.code[k + n]? = some op ∧ i.op.resolve (fun l => find img.labels l.name) = .ok op

theorem codeAt_append {is js : List Instr} :
    img.CodeAt k (is ++ js) ↔ img.CodeAt k is ∧ img.CodeAt (k + is.length) js := by
  constructor
  · intro h
    constructor
    · intro n i hi
      refine h n i ?_
      rw [List.getElem?_append_left (List.getElem?_eq_some_iff.mp hi).1, hi]
    · intro n i hi
      rw [Nat.add_assoc]
      refine h _ i ?_
      rw [List.getElem?_append_right (Nat.le_add_right _ _), Nat.add_sub_cancel_left, hi]
  · rintro ⟨hl, hr⟩ n i hi
    by_cases hn : n < is.length
    · rw [List.getElem?_append_left hn] at hi
      exact hl n i hi
    · rw [List.getElem?_append_right (Nat.le_of_not_lt hn)] at hi
      obtain ⟨op, hop, hres⟩ := hr _ i hi
      rw [show k + is.length + (n - is.length) = k + n by omega] at hop
      exact ⟨op, hop, hres⟩

theorem codeAt_cons {i : Instr} {is : List Instr} : img.CodeAt k (i :: is) ↔
      (∃ op, img.code[k]? = some op ∧ i.op.resolve (fun l => find img.labels l.name) = .ok op) ∧
        img.CodeAt (k + 1) is := by
  rw [show i :: is = [i] ++ is from rfl, codeAt_append]
  refine and_congr_left' ⟨fun h => h 0 i rfl, fun h n j hj => ?_⟩
  cases n with
  | zero =>
    cases hj
    exact h
  | succ n => exact nomatch hj

theorem codeAt_of_load (h : load a = .ok (img, s)) : img.CodeAt 0 (instrs a.text) := by
  intro n i hi
  rw [Nat.zero_add, labels_of_load h]
  exact getElem?_of_load h hi

/-- The addresses of the code do not wrap around. -/
def Unwrapped (img : Image) : Prop := textBase.toNat + 4 * img.code.size ≤ UInt32.size

theorem Unwrapped.fetch_of_getElem? {op : Op Addr} (h : img.Unwrapped) (hk : img.code[k]? = some op)
    : img.fetch (pcOf k) = some op := by
  obtain ⟨hlt, -⟩ := Array.getElem?_eq_some_iff.mp hk
  unfold Unwrapped at h
  rw [fetch_pcOf (by omega), hk]

/-- The code lies below the data segment. -/
def Fits (img : Image) : Prop := textBase.toNat + 4 * img.code.size ≤ dataBase.toNat

theorem Fits.unwrapped (h : img.Fits) : img.Unwrapped :=
  Nat.le_trans h (by decide)

theorem fits_of_load (h : load a = .ok (img, s)) (hfit : a.Fits) : img.Fits := by
  rw [Fits, size_of_load h]
  exact hfit.text

theorem Fits.fetch (hfit : img.Fits) (hk : k ≤ img.code.size) :
    img.fetch (pcOf k) = img.code[k]? := by
  refine fetch_pcOf (Nat.lt_of_le_of_lt ?_ (by decide : dataBase.toNat < UInt32.size))
  have := hfit
  unfold Fits at this
  omega

/-! ## Labels -/

variable {name : String}

theorem getElem?_foldl_insert_of_not_mem {β : Type} {entries : List (String × β)}
    {table : Std.ExtTreeMap String β} {v : β} (hname : name ∉ entries.map (·.1))
    (hv : table[name]? = some v) :
    (entries.foldl (fun table entry => table.insert entry.1 entry.2) table)[name]? = some v := by
  induction entries generalizing table with
  | nil => exact hv
  | cons e entries ih =>
    rw [List.map_cons, List.mem_cons, not_or] at hname
    refine ih hname.2 ?_
    rw [Std.ExtTreeMap.getElem?_insert, if_neg, hv]
    rw [Std.compare_eq_iff_eq]
    exact Ne.symm hname.1

/-- In a table made of entries with different names, every entry is found. -/
theorem getElem?_foldl_insert {β : Type} {entries : List (String × β)}
    {table : Std.ExtTreeMap String β} (h : (entries.map (·.1)).Nodup) {v : β}
    (hv : (name, v) ∈ entries) :
    (entries.foldl (fun table entry => table.insert entry.1 entry.2) table)[name]? = some v := by
  induction entries generalizing table with
  | nil => exact nomatch hv
  | cons e entries ih =>
    rw [List.map_cons, List.nodup_cons] at h
    rw [List.foldl_cons]
    rcases List.mem_cons.mp hv with rfl | hv
    · exact getElem?_foldl_insert_of_not_mem h.1 Std.ExtTreeMap.getElem?_insert_self
    · exact ih h.2 hv

/-- What is found in a table made of entries is one of them, or was there before. -/
theorem mem_of_getElem?_foldl_insert {β : Type} {entries : List (String × β)}
    {table : Std.ExtTreeMap String β} {v : β}
    (h : (entries.foldl (fun table entry => table.insert entry.1 entry.2) table)[name]? = some v) :
    (name, v) ∈ entries ∨ table[name]? = some v := by
  induction entries generalizing table with
  | nil => exact .inr h
  | cons e entries ih =>
    rcases ih h with hmem | hv
    · exact .inl (List.mem_cons_of_mem e hmem)
    · rw [Std.ExtTreeMap.getElem?_insert] at hv
      split at hv
      · rename_i heq
        cases hv
        rw [Std.compare_eq_iff_eq] at heq
        exact .inl (heq ▸ List.mem_cons_self)
      · exact .inr hv

/-- A label of the text names the address of the instruction after it. -/
theorem textLabels_eq (k : Nat) (items : List Item) :
    textLabels (pcOf k) items = (FlowGraph.positions k items).map fun e => (e.1, pcOf e.2) := by
  induction items generalizing k with
  | nil => rfl
  | cons i items ih =>
    cases i with
    | label l => exact congrArg ((l.name, pcOf k) :: ·) (ih k)
    | instr i =>
      rw [textLabels, pcOf_add_four, ih]
      rfl

theorem mem_positions {j : Nat} {items : List Item} : (name, k) ∈ FlowGraph.positions j items ↔
      ∃ pre l post, items = pre ++ .label l :: post ∧ l.name = name ∧
        k = j + (instrs pre).length := by
  induction items generalizing j with
  | nil => simp [FlowGraph.positions]
  | cons i items ih =>
    cases i with
    | label l =>
      rw [FlowGraph.positions, List.mem_cons, ih]
      constructor
      · rintro (h | ⟨pre, l', post, rfl, hl, hk⟩)
        · cases h
          exact ⟨[], l, items, rfl, rfl, rfl⟩
        · exact ⟨.label l :: pre, l', post, rfl, hl, hk⟩
      · rintro ⟨pre, l', post, hitems, hl, hk⟩
        cases pre with
        | nil =>
          cases hitems
          exact .inl (Prod.ext hl.symm hk)
        | cons p pre =>
          cases hitems
          exact .inr ⟨pre, l', post, rfl, hl, hk⟩
    | instr i =>
      rw [FlowGraph.positions, ih]
      constructor
      · rintro ⟨pre, l', post, rfl, hl, hk⟩
        refine ⟨.instr i :: pre, l', post, rfl, hl, ?_⟩
        rw [hk, show instrs (.instr i :: pre) = i :: instrs pre from rfl, List.length_cons]
        omega
      · rintro ⟨pre, l', post, hitems, hl, hk⟩
        cases pre with
        | nil => exact nomatch hitems
        | cons p pre =>
          cases hitems
          refine ⟨pre, l', post, rfl, hl, ?_⟩
          rw [hk, show instrs (.instr i :: pre) = i :: instrs pre from rfl, List.length_cons]
          omega

section Find

variable {a : Assembly}

/-- The labels of a program with their addresses. -/
theorem map_fst_entries (a : Assembly) :
    (textLabels textBase a.text ++ dataLabels dataBase a.data).map (·.1) = a.defs := by
  rw [List.map_append, map_fst_textLabels, map_fst_dataLabels]
  rfl

theorem find_of_mem {addr : Addr} (hnames : a.defs.Nodup)
    (h : (name, addr) ∈ textLabels textBase a.text ++ dataLabels dataBase a.data) :
    find (labelTable a) name = .ok addr := by
  rw [← map_fst_entries] at hnames
  rw [find, labelTable_eq, getElem?_foldl_insert hnames h]

theorem find_text {pre post : List Item} {l : Label} (hnames : a.defs.Nodup)
    (h : a.text = pre ++ .label l :: post) :
    find (labelTable a) l.name = .ok (pcOf (instrs pre).length) := by
  refine find_of_mem hnames (List.mem_append_left _ ?_)
  rw [← pcOf_zero, textLabels_eq, List.mem_map]
  exact ⟨_, mem_positions.mpr ⟨pre, l, post, h, rfl, (Nat.zero_add _).symm⟩, rfl⟩

theorem find_data {addr : Addr} (hnames : a.defs.Nodup)
    (h : (name, addr) ∈ dataLabels dataBase a.data) : find (labelTable a) name = .ok addr :=
  find_of_mem hnames (List.mem_append_right _ h)

/-- A name that a program defines belongs to a label of its text or of its data. -/
theorem mem_defs_cases (h : name ∈ a.defs) :
    (∃ pre l post, a.text = pre ++ .label l :: post ∧ l.name = name) ∨
      ∃ addr, (name, addr) ∈ dataLabels dataBase a.data := by
  rw [← map_fst_entries, List.map_append, List.mem_append, map_fst_textLabels] at h
  rcases h with h | h
  · obtain ⟨l, hl, rfl⟩ := List.mem_map.mp h
    obtain ⟨pre, post, hsplit⟩ := List.append_of_mem (mem_labels.mp hl)
    exact .inl ⟨pre, l, post, hsplit, rfl⟩
  · obtain ⟨⟨name', addr⟩, he, rfl⟩ := List.mem_map.mp h
    exact .inr ⟨addr, he⟩

end Find

end Image

end ChocoRV
