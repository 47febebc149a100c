import Mathlib
import ChocoRV.Machine.Image
import ChocoRV.Proofs.Except

/-!
# When a program can be loaded

Loading fails for one reason only, a label that is used but not defined. `Assembly.defs` and
`Assembly.refs` collect the two sides from text and data, and `Image.load_ok_iff` says that a
program can be loaded exactly if the second are all among the first.
-/

namespace ChocoRV

namespace Datum

def label? : Datum → Option Label
  | .label l => some l
  | _ => none

def address? : Datum → Option Label
  | .address l => some l
  | _ => none

end Datum

namespace Assembly

/-- The labels that instructions aim at. -/
def targets (items : List Item) : List Label := (instrs items).filterMap (·.op.target?)

/-- The names that a program defines. -/
def defs (a : Assembly) : List String :=
  (labels a.text).map Label.name ++ (a.data.filterMap Datum.label?).map Label.name

/-- The labels that a program uses: as the target of an instruction, or as an address in data. -/
def refs (a : Assembly) : List Label := targets a.text ++ a.data.filterMap Datum.address?

/-- Every label that is used is defined. -/
def Closed (a : Assembly) : Prop := ∀ l ∈ a.refs, l.name ∈ a.defs

@[simp] theorem labels_append (xs ys : List Item) : labels (xs ++ ys) = labels xs ++ labels ys :=
  List.filterMap_append

@[simp] theorem instrs_append (xs ys : List Item) : instrs (xs ++ ys) = instrs xs ++ instrs ys :=
  List.filterMap_append

@[simp] theorem targets_append (xs ys : List Item) :
    targets (xs ++ ys) = targets xs ++ targets ys := by
  simp [targets]

@[simp] theorem labels_cons_label (l : Label) (items : List Item) :
    labels (.label l :: items) = l :: labels items := rfl

@[simp] theorem labels_cons_instr (i : Instr) (items : List Item) :
    labels (.instr i :: items) = labels items := rfl

@[simp] theorem targets_cons_label (l : Label) (items : List Item) :
    targets (.label l :: items) = targets items := rfl

@[simp] theorem instrs_nil : instrs [] = [] := rfl

@[simp] theorem instrs_cons_label (l : Label) (items : List Item) :
    instrs (.label l :: items) = instrs items := rfl

@[simp] theorem instrs_cons_instr (i : Instr) (items : List Item) :
    instrs (.instr i :: items) = i :: instrs items := rfl

theorem targets_cons_instr (i : Instr) (items : List Item) :
    targets (.instr i :: items) = i.op.target?.toList ++ targets items := by
  rw [targets, instrs_cons_instr, List.filterMap_cons]
  cases i.op.target? <;> rfl

theorem mem_labels {l : Label} {items : List Item} : l ∈ labels items ↔ .label l ∈ items := by
  simp only [labels, List.mem_filterMap]
  constructor
  · rintro ⟨i, hi, h⟩
    cases i with
    | label l' =>
      cases h
      exact hi
    | instr i => exact nomatch h
  · exact fun h => ⟨_, h, rfl⟩

theorem mem_instrs {i : Instr} {items : List Item} : i ∈ instrs items ↔ .instr i ∈ items := by
  simp only [instrs, List.mem_filterMap]
  constructor
  · rintro ⟨j, hj, h⟩
    cases j with
    | label l => exact nomatch h
    | instr j =>
      cases h
      exact hj
  · exact fun h => ⟨_, h, rfl⟩

theorem mem_targets {l : Label} {items : List Item} :
    l ∈ targets items ↔ ∃ i, .instr i ∈ items ∧ i.op.target? = some l := by
  simp only [targets, List.mem_filterMap, mem_instrs]

end Assembly

/-- Bytes written one after another, the first one at `a`. -/
def Memory.writeBytes (m : Memory) (a : Addr) : List UInt8 → Memory
  | [] => m
  | b :: bs => (m.write a b).writeBytes (a + 1) bs

/-- An operation can be resolved exactly if its target can. -/
theorem Op.resolve_ok_iff {τ σ ε : Type} {f : τ → Except ε σ} {o : Op τ} :
    (∃ o', o.resolve f = .ok o') ↔ ∀ t ∈ o.target?, ∃ s, f t = .ok s := by
  have one (t : τ) (g : σ → Op σ) : (∃ o', (f t).map g = .ok o') ↔ ∃ s, f t = .ok s := by
    cases f t <;> simp [Except.map]
  cases o <;> simp [resolve, target?, one]

namespace Image

open Assembly (targets)

/-! ## Where data goes

One step of laying data out, for both passes over it: `advance` says where the next entry can begin.
-/

/-- Where data after `cursor` goes on behind an entry that begins at or after it. -/
def advance (cursor : Addr) : Datum → Addr
  | .label _ => cursor
  | .word _ | .address _ => Addr.align4 cursor + 4
  | .ascii text => cursor + UInt32.ofNat (Utf8.encode text).length + 1
  | .align => Addr.align4 cursor

/-- Where the next entry that takes room begins. -/
def nextStart : Addr → List Datum → Addr
  | cursor, [] => cursor
  | cursor, .label _ :: rest => nextStart cursor rest
  | cursor, .align :: rest => nextStart (Addr.align4 cursor) rest
  | cursor, .ascii _ :: _ => cursor
  | cursor, .word _ :: _ | cursor, .address _ :: _ => Addr.align4 cursor

def dataLabels : Addr → List Datum → List (String × Addr)
  | _, [] => []
  | cursor, .label l :: rest => (l.name, nextStart cursor rest) :: dataLabels cursor rest
  | cursor, d :: rest => dataLabels (advance cursor d) rest

/-- The end of the data that begins at `cursor`. -/
def dataEnd (cursor : Addr) (data : List Datum) : Addr := data.foldl advance cursor

/-- The first pass gives the pending labels the place of the next entry. -/
theorem placeData_eq (cursor : Addr) (pending : List String) (data : List Datum) :
    placeData cursor pending data =
      (pending.map (·, nextStart cursor data) ++ dataLabels cursor data, dataEnd cursor data) := by
  fun_induction placeData cursor pending data with
  | case1 => simp [nextStart, dataLabels, dataEnd]
  | case2 cursor pending l rest ih => simp [ih, nextStart, dataLabels, dataEnd, advance]
  | case3 cursor pending rest ih => simp [ih, nextStart, dataLabels, dataEnd, advance]
  | case4 cursor pending text rest labels last heq ih =>
    rw [heq] at ih
    simp_all [nextStart, dataLabels, dataEnd, advance]
  | case5 cursor pending w rest start labels last heq ih
  | case6 cursor pending l rest start labels last heq ih =>
    rw [heq] at ih
    simp_all [nextStart, dataLabels, dataEnd, advance, start]

theorem writeText_eq (m : Memory) (cursor : Addr) (bytes : List UInt8) :
    writeText m cursor bytes =
      (m.writeBytes cursor (bytes ++ [0]), cursor + UInt32.ofNat bytes.length + 1) := by
  induction bytes generalizing m cursor with
  | nil => simp [writeText, Memory.writeBytes]
  | cons b bytes ih =>
    rw [writeText, ih]
    simp only [Memory.writeBytes, List.cons_append, List.length_cons, UInt32.ofNat_add,
      Prod.mk.injEq, true_and]
    ac_rfl

section SecondPass

variable (table : LabelTable) (m : Memory) (cursor : Addr) (rest : List Datum)

/-! The second pass moves on as the first one does. -/

theorem writeData_label (l : Label) : writeData table m cursor (.label l :: rest) =
    writeData table m (advance cursor (.label l)) rest := rfl

theorem writeData_align : writeData table m cursor (.align :: rest) =
    writeData table m (advance cursor .align) rest := rfl

theorem writeData_word (w : Int32) : writeData table m cursor (.word w :: rest) =
    writeData table (m.writeWord (Addr.align4 cursor) w) (advance cursor (.word w)) rest := rfl

theorem writeData_address (l : Label) : writeData table m cursor (.address l :: rest) = (do
    let addr ← find table l.name
    writeData table (m.writeWord (Addr.align4 cursor) addr.toInt32) (advance cursor (.address l))
      rest) := rfl

theorem writeData_ascii (text : String) : writeData table m cursor (.ascii text :: rest) =
    writeData table (m.writeBytes cursor (Utf8.encode text ++ [0])) (advance cursor (.ascii text))
      rest := by
  rw [writeData, writeText_eq]
  rfl

end SecondPass

/-! ## The label table -/

theorem labelTable_eq (a : Assembly) : labelTable a =
    (textLabels textBase a.text ++ dataLabels dataBase a.data).foldl
      (fun table entry => table.insert entry.1 entry.2) ∅ := by
  rw [labelTable, placeData_eq]
  rfl

theorem map_fst_textLabels (pc : Addr) (items : List Item) :
    (textLabels pc items).map (·.1) = (Assembly.labels items).map Label.name := by
  induction items generalizing pc with
  | nil => rfl
  | cons i items ih =>
    cases i with
    | label l => exact congrArg (l.name :: ·) (ih pc)
    | instr i => exact ih (pc + 4)

theorem map_fst_dataLabels (cursor : Addr) (data : List Datum) :
    (dataLabels cursor data).map (·.1) = (data.filterMap Datum.label?).map Label.name := by
  induction data generalizing cursor with
  | nil => rfl
  | cons d data ih =>
    cases d with
    | label l => exact congrArg (l.name :: ·) (ih cursor)
    | word _ | address _ | ascii _ | align => exact ih _

variable {table : LabelTable} {name : String}

theorem mem_foldl_insert {entries : List (String × Addr)} :
    name ∈ entries.foldl (fun table entry => table.insert entry.1 entry.2) table ↔
      name ∈ entries.map (·.1) ∨ name ∈ table := by
  induction entries generalizing table with
  | nil => simp
  | cons e entries ih =>
    rw [List.foldl_cons, ih, Std.ExtTreeMap.mem_insert]
    simp only [compare_eq_iff_eq, List.map_cons, List.mem_cons]
    tauto

theorem mem_labelTable {a : Assembly} : name ∈ labelTable a ↔ name ∈ a.defs := by
  rw [labelTable_eq, mem_foldl_insert, List.map_append, map_fst_textLabels, map_fst_dataLabels]
  simp [Assembly.defs]

theorem find_eq_ok_iff {addr : Addr} : find table name = .ok addr ↔ table[name]? = some addr := by
  unfold find
  cases table[name]? <;> simp

theorem find_ok_iff : (∃ addr, find table name = .ok addr) ↔ name ∈ table := by
  simp only [find_eq_ok_iff, Std.ExtTreeMap.mem_iff_isSome_getElem?, Option.isSome_iff_exists]

/-! ## Loading -/

theorem writeData_ok_iff {data : List Datum} {m : Memory} {cursor : Addr} :
    (∃ m', writeData table m cursor data = .ok m') ↔
      ∀ l ∈ data.filterMap Datum.address?, l.name ∈ table := by
  induction data generalizing m cursor with
  | nil => simp [writeData]
  | cons d data ih =>
    cases d with
    | label _ | word _ | align => exact ih
    | ascii _ =>
      simp only [writeData_ascii]
      exact ih
    | address l =>
      have hrefs : (Datum.address l :: data).filterMap Datum.address? =
          l :: data.filterMap Datum.address? := rfl
      simp only [writeData, bind_eq_ok_iff]
      rw [hrefs, List.forall_mem_cons, ← find_ok_iff]
      constructor
      · rintro ⟨m', addr, hl, hm⟩
        exact ⟨⟨addr, hl⟩, ih.mp ⟨m', hm⟩⟩
      · rintro ⟨⟨addr, hl⟩, hrest⟩
        obtain ⟨m', hm⟩ := ih.mpr hrest
        exact ⟨m', addr, hl, hm⟩

/-- A program can be loaded exactly if every label that it uses is defined. -/
theorem load_ok_iff {a : Assembly} : (∃ r, load a = .ok r) ↔ a.Closed := by
  have hcode : (∃ code, (Assembly.instrs a.text).mapM
      (fun i => i.op.resolve fun l => find (labelTable a) l.name) = .ok code) ↔
      ∀ l ∈ targets a.text, l.name ∈ a.defs := by
    rw [mapM_ok_iff]
    simp only [Op.resolve_ok_iff, find_ok_iff, mem_labelTable, Option.mem_def, targets,
      List.mem_filterMap]
    grind
  have hdata : (∃ m, writeData (labelTable a) .empty dataBase a.data = .ok m) ↔
      ∀ l ∈ a.data.filterMap Datum.address?, l.name ∈ a.defs := by
    rw [writeData_ok_iff]
    simp only [mem_labelTable]
  have hload : (∃ r, load a = .ok r) ↔
      (∃ m, writeData (labelTable a) .empty dataBase a.data = .ok m) ∧
        ∃ code, (Assembly.instrs a.text).mapM
          (fun i => i.op.resolve fun l => find (labelTable a) l.name) = .ok code := by
    constructor
    · rintro ⟨r, h⟩
      obtain ⟨m, hm, h⟩ := bind_eq_ok_iff.mp h
      obtain ⟨code, hcode, -⟩ := bind_eq_ok_iff.mp h
      exact ⟨⟨m, hm⟩, code, hcode⟩
    · rintro ⟨⟨m, hm⟩, code, hcode⟩
      exact ⟨_, bind_eq_ok_iff.mpr ⟨m, hm, bind_eq_ok_iff.mpr ⟨code, hcode, rfl⟩⟩⟩
  rw [hload, hcode, hdata, and_comm]
  exact (List.forall_mem_append).symm

theorem labels_of_load {a : Assembly} {img : Image} {s : State} (h : load a = .ok (img, s)) :
    img.labels = labelTable a := by
  obtain ⟨m, -, h⟩ := bind_eq_ok_iff.mp h
  obtain ⟨code, -, h⟩ := bind_eq_ok_iff.mp h
  cases h
  rfl

end Image

end ChocoRV
