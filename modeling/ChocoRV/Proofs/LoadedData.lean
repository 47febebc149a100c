import Mathlib
import ChocoRV.Proofs.Machine.LastLabels

/-!
# Labels and data agree

Loading goes through the data twice: once for the addresses of labels, before any entry is written,
and once to write the entries. Both times words are moved up to a multiple of four, and a label has
to wait for the entry after it to know how far. `Assembly.entryAt` is where an entry begins, as a
number that does not wrap around, and `Image.Agrees` says that both passes come to these places:
labels name them, and the entries are found there, one after the other and below the break.
-/

namespace ChocoRV

open Assembly

namespace Datum

/-- The entry takes room: it is a word, an address or a text. -/
def takesRoom : Datum → Bool
  | .word _ | .address _ | .ascii _ => true
  | .label _ | .align => false

/-- Where an entry begins if the data before it ends at `c`. -/
def startFrom (c : Nat) : Datum → Nat
  | .word _ | .address _ => alignUp c
  | .ascii _ | .label _ | .align => c

/-- The number of bytes that an entry is written to. -/
def room : Datum → Nat
  | .word _ | .address _ => 4
  | .ascii text => (Utf8.encode text).length + 1
  | .label _ | .align => 0

/-- An entry is found at a place: a word at a multiple of four, the address of a label likewise, and
the bytes of a text with a zero after them. -/
def FoundAt (img : Image) (m : Memory) (n : Nat) : Datum → Prop
  | .word w => 4 ∣ n ∧ m.readWord (UInt32.ofNat n) = w
  | .address l => 4 ∣ n ∧ ∃ addr, img.label? l.name = some addr ∧
    m.readWord (UInt32.ofNat n) = addr.toInt32
  | .ascii text => ∀ i b, (Utf8.encode text ++ [0])[i]? = some b → m.read (UInt32.ofNat (n + i)) = b
  | .label _ | .align => True

theorem le_startFrom (c : Nat) (d : Datum) : c ≤ d.startFrom c := by
  cases d with
  | word | address => exact le_alignUp c
  | label | align | ascii => exact Nat.le_refl c

/-- Data goes on right behind an entry, or at the next multiple of four. -/
theorem startFrom_add_room_le (c : Nat) (d : Datum) : d.startFrom c + d.room ≤ d.endFrom c := by
  cases d with
  | word | address | ascii | label => exact Nat.le_refl _
  | align => exact le_alignUp c

theorem LaidAt.foundAt {img : Image} {m : Memory} {c : Nat} {d : Datum} (h : d.LaidAt img m c) :
    d.FoundAt img m (d.startFrom c) := by
  cases d with
  | word | address => exact ⟨dvd_alignUp c, h⟩
  | ascii => exact h
  | label | align => trivial

end Datum

/-- Where an entry of the data of a program begins, by the entries before it. -/
def Assembly.entryAt (before : List Datum) (d : Datum) : Nat :=
  d.startFrom (Datum.top Image.dataBase.toNat before)

namespace Image

/-! ## Labels -/

/-- Labels and alignment before an entry do not part a label from it. -/
theorem nextStart_gap {c : Nat} {gap : List Datum} (hgap : ∀ g ∈ gap, g.takesRoom = false)
    (rest : List Datum) :
    nextStart (UInt32.ofNat c) (gap ++ rest) = nextStart (UInt32.ofNat (Datum.top c gap)) rest := by
  induction gap generalizing c with
  | nil => rfl
  | cons g gap ih =>
    obtain ⟨hg, hrest⟩ := List.forall_mem_cons.mp hgap
    cases g with
    | label l => exact ih hrest
    | align =>
      rw [List.cons_append, nextStart, Addr.align4_ofNat]
      exact ih hrest
    | word | address | ascii => cases hg

theorem nextStart_entry {c : Nat} {d : Datum} (hd : d.takesRoom = true) (rest : List Datum) :
    nextStart (UInt32.ofNat c) (d :: rest) = UInt32.ofNat (d.startFrom c) := by
  cases d with
  | word | address => exact Addr.align4_ofNat c
  | ascii => rfl
  | label | align => cases hd

variable {a : Assembly} {img : Image} {s : State}

/-- A label of the data names what `nextStart` finds after it. -/
theorem label?_data (hload : load a = .ok (img, s)) (hnames : a.defs.Nodup)
    {before after : List Datum} {l : Label} (hdata : a.data = before ++ .label l :: after) :
    img.label? l.name = some (nextStart (UInt32.ofNat (Datum.top dataBase.toNat before))
      after) := by
  have hmem : (l.name, nextStart (dataEnd dataBase before) after) ∈ dataLabels dataBase a.data := by
    obtain ⟨front, hfront⟩ := exists_dataLabels_append dataBase before (.label l :: after)
    rw [hdata, hfront]
    exact List.mem_append_right _ List.mem_cons_self
  have hend : dataEnd dataBase before = UInt32.ofNat (Datum.top dataBase.toNat before) :=
    dataEnd_ofNat dataBase.toNat before
  rw [hend] at hmem
  rw [label?, labels_of_load hload]
  exact find_eq_ok_iff.mp (find_data hnames hmem)

end Image

/-! ## Failing -/

section Failing

variable {ε α β : Type}

/-- A sequence fails if its first part does, or the second one after it. -/
theorem bind_eq_error {x : Except ε α} {f : α → Except ε β} {e : ε} (h : (x >>= f) = .error e) :
    x = .error e ∨ ∃ a, x = .ok a ∧ f a = .error e := by
  cases x with
  | error e' =>
    cases h
    exact .inl rfl
  | ok a => exact .inr ⟨a, rfl, h⟩

/-- A traversal fails at some element. -/
theorem mapM_eq_error {f : α → Except ε β} {xs : List α} {e : ε} (h : xs.mapM f = .error e) :
    ∃ x ∈ xs, f x = .error e := by
  induction xs with
  | nil => cases h
  | cons x xs ih =>
    rw [List.mapM_cons] at h
    rcases bind_eq_error h with hx | ⟨y, -, h⟩
    · exact ⟨x, List.mem_cons_self, hx⟩
    rcases bind_eq_error h with hxs | ⟨ys, -, h⟩
    · obtain ⟨x', hx', he⟩ := ih hxs
      exact ⟨x', List.mem_cons_of_mem x hx', he⟩
    · cases h

/-- An operation cannot be resolved because its target cannot. -/
theorem Op.resolve_eq_error {τ σ : Type} {f : τ → Except ε σ} {o : Op τ} {e : ε}
    (h : o.resolve f = .error e) : ∃ t, o.target? = some t ∧ f t = .error e := by
  have hmap {t : τ} {g : σ → Op σ} (h : (f t).map g = .error e) : f t = .error e := by
    generalize f t = x at h ⊢
    cases x with
    | error e' =>
      cases h
      rfl
    | ok s => cases h
  cases o with
  | la _ t | jump t | call t | branch _ _ _ t | branchZero _ _ t => exact ⟨t, rfl, hmap h⟩
  | alu | aluImm | shift | li | unary | load | store | callReg | jumpReg | ecall => cases h

end Failing

namespace Image

variable {a : Assembly} {img : Image} {s : State}

theorem find_eq_error {table : LabelTable} {name : String} {f : Fault}
    (h : find table name = .error f) :
    name ∉ table ∧ f = .undefinedLabel name := by
  refine ⟨fun hmem => ?_, ?_⟩
  · obtain ⟨addr, haddr⟩ := find_ok_iff.mpr hmem
    rw [haddr] at h
    cases h
  · unfold find at h
    split at h
    · cases h
    · exact (Except.error.inj h).symm

theorem writeData_eq_error {table : LabelTable} {data : List Datum} {m : Memory} {cursor : Addr}
    {f : Fault} (h : writeData table m cursor data = .error f) :
    ∃ l ∈ data.filterMap Datum.address?, l.name ∉ table ∧ f = .undefinedLabel l.name := by
  induction data generalizing m cursor with
  | nil => cases h
  | cons d data ih =>
    cases d with
    | label | word | align => exact ih h
    | ascii =>
      rw [writeData_ascii] at h
      exact ih h
    | address l =>
      have hrefs : (Datum.address l :: data).filterMap Datum.address? =
          l :: data.filterMap Datum.address? := rfl
      rw [hrefs]
      rcases bind_eq_error h with hfind | ⟨addr, -, hrest⟩
      · exact ⟨l, List.mem_cons_self, find_eq_error hfind⟩
      · obtain ⟨l', hl', hundefined⟩ := ih hrest
        exact ⟨l', List.mem_cons_of_mem l hl', hundefined⟩

/-- Loading fails with the name of a label that is used and not defined. -/
theorem load_eq_error {f : Fault} (h : load a = .error f) :
    ∃ l ∈ a.refs, l.name ∉ a.defs ∧ f = .undefinedLabel l.name := by
  simp only [refs, List.mem_append, ← mem_labelTable]
  rcases bind_eq_error h with hdata | ⟨m, -, h⟩
  · obtain ⟨l, hl, hundefined⟩ := writeData_eq_error hdata
    exact ⟨l, .inr hl, hundefined⟩
  rcases bind_eq_error h with hcode | ⟨code, -, h⟩
  · obtain ⟨i, hi, hres⟩ := mapM_eq_error hcode
    obtain ⟨l, hl, hfind⟩ := Op.resolve_eq_error hres
    exact ⟨l, .inl (List.mem_filterMap.mpr ⟨i, hi, hl⟩), find_eq_error hfind⟩
  · cases h

/-! ## Agreeing -/

/-- What a loaded program has: every label names the place of what comes after it, and every entry
of the data is in its place, below those after it and below the break. -/
structure Agrees (img : Image) (a : Assembly) (s : State) : Prop where
  /-- A label of the text names the address of the instruction after it. -/
  text {before after : List Item} {l : Label} (h : a.text = before ++ .label l :: after) :
    img.label? l.name = some (textBase + 4 * UInt32.ofNat (instrs before).length)
  /-- A label of the data names the next entry that takes room. -/
  entry {before gap after : List Datum} {l : Label} {d : Datum}
    (h : a.data = before ++ .label l :: (gap ++ d :: after)) (hgap : ∀ g ∈ gap, g.takesRoom = false)
    (hd : d.takesRoom = true) :
    img.label? l.name = some (UInt32.ofNat (entryAt (before ++ .label l :: gap) d))
  /-- A label after the last such entry names the end of the data. -/
  last {before gap : List Datum} {l : Label} (h : a.data = before ++ .label l :: gap)
    (hgap : ∀ g ∈ gap, g.takesRoom = false) : img.label? l.name = some (UInt32.ofNat a.dataTop)
  found {before after : List Datum} {d : Datum} (h : a.data = before ++ d :: after) :
    d.FoundAt img s.memory (entryAt before d)
  /-- Entries begin where those before them have ended. -/
  apart {before between after : List Datum} {d d' : Datum}
    (h : a.data = before ++ d :: (between ++ d' :: after)) :
    entryAt before d + d.room ≤ entryAt (before ++ d :: between) d'
  below {before after : List Datum} {d : Datum} (h : a.data = before ++ d :: after) :
    dataBase.toNat ≤ entryAt before d ∧ entryAt before d + d.room ≤ a.dataTop
  aligned : 4 ∣ s.brk.toNat
  /-- The break is above all entries, unless the data ends in the last word of the address space. -/
  break_le (h : a.dataTop + 4 ≤ UInt32.size) : a.dataTop ≤ s.brk.toNat

theorem entryAt_add_room_le (before after : List Datum) (d : Datum) :
    entryAt before d + d.room ≤ Datum.top dataBase.toNat (before ++ d :: after) := by
  rw [Datum.top_append, Datum.top_cons]
  exact (Datum.startFrom_add_room_le _ d).trans (Datum.le_top _ after)

/-- The break of a loaded program as a number. -/
theorem toNat_brk_of_load (hload : load a = .ok (img, s)) :
    4 ∣ s.brk.toNat ∧ (a.dataTop + 4 ≤ UInt32.size → a.dataTop ≤ s.brk.toNat) := by
  have hsize : UInt32.size = 4294967296 := rfl
  have hdvd := dvd_alignUp a.dataTop
  have hle := le_alignUp a.dataTop
  rw [brk_of_load hload, UInt32.toNat_ofNat']
  refine ⟨by omega, fun hfit => ?_⟩
  have hlt : alignUp a.dataTop < a.dataTop + 4 := by
    unfold alignUp
    omega
  omega

theorem agrees_of_load (hload : load a = .ok (img, s)) (hnames : a.defs.Nodup)
    (hfit : a.dataTop ≤ UInt32.size) : img.Agrees a s where
  text h := by
    rw [label?, labels_of_load hload]
    exact find_eq_ok_iff.mp (find_text hnames h)
  entry {before gap after l d} h hgap hd := by
    rw [label?_data hload hnames h, nextStart_gap hgap, nextStart_entry hd, entryAt,
      Datum.top_append]
    rfl
  last {before gap l} h hgap := by
    have hnext := nextStart_gap (c := Datum.top dataBase.toNat before) hgap []
    rw [List.append_nil] at hnext
    rw [label?_data hload hnames h, hnext, dataTop, h, Datum.top_append]
    rfl
  found {before after d} h := by
    have hlaid := laid_of_load hload hnames hfit
    rw [h] at hlaid
    exact hlaid.append.2.1.foundAt
  apart {before between after d d'} h := by
    have hroom := entryAt_add_room_le before between d
    exact hroom.trans (Datum.le_startFrom _ d')
  below {before after d} h := by
    have hroom := entryAt_add_room_le before after d
    rw [← h] at hroom
    exact ⟨(Datum.le_top _ before).trans (Datum.le_startFrom _ d), hroom⟩
  aligned := (toNat_brk_of_load hload).1
  break_le := (toNat_brk_of_load hload).2

/-- **Labels and data agree.** A program with different names, whose data ends before the addresses
wrap around, cannot be loaded if and only if it uses a label that it does not define, and the fault
then names such a label. Otherwise it is loaded, and where a label says that something is, there it
is. -/
theorem labels_and_data_agree {a : Assembly} (hnames : a.defs.Nodup)
    (hfit : a.dataTop ≤ UInt32.size) :
    ((∃ name, load a = .error (.undefinedLabel name)) ↔ ∃ l ∈ a.refs, l.name ∉ a.defs) ∧
    (∀ f, load a = .error f → ∃ l ∈ a.refs, l.name ∉ a.defs ∧ f = .undefinedLabel l.name) ∧
    ((∀ l ∈ a.refs, l.name ∈ a.defs) → ∃ img s, load a = .ok (img, s) ∧ img.Agrees a s) := by
  refine ⟨⟨?_, ?_⟩, fun f => load_eq_error, fun hclosed => ?_⟩
  · rintro ⟨name, h⟩
    obtain ⟨l, hl, hundefined, -⟩ := load_eq_error h
    exact ⟨l, hl, hundefined⟩
  · rintro ⟨l, hl, hundefined⟩
    cases h : load a with
    | ok r => exact absurd (load_ok_iff.mp ⟨r, h⟩ l hl) hundefined
    | error f =>
      obtain ⟨l', -, -, rfl⟩ := load_eq_error h
      exact ⟨l'.name, rfl⟩
  · obtain ⟨⟨img, s⟩, hload⟩ := load_ok_iff.mpr hclosed
    exact ⟨img, s, hload, agrees_of_load hload hnames hfit⟩

/-- Data of every kind: a text that ends in the middle of a word, labels that wait for alignment, an
address of a label that comes later, and labels at the end. -/
def mixedData : Assembly where
  text := [.label (.global "main"), .op (.la .a0 (.global "table")),
    .label (.global "exit"), .op .ecall]
  data := [.label (.global "text"), .ascii "hello", .label (.global "table"), .align,
    .label (.global "first"), .address (.global "end"), .address (.global "exit"), .word 7,
      .ascii "é", .align, .label (.global "end")]

/-- The labels before the first address have waited for it, and the address is that of the end. -/
theorem mixedData_agrees :
    ∃ img s, load mixedData = .ok (img, s) ∧ img.Agrees mixedData s ∧
      img.label? "table" = some 0x10000008 ∧ s.memory.readWord 0x10000008 = 0x10000018 ∧
      s.brk.toNat = 0x10000018 := by
  have hclosed : ∀ l ∈ mixedData.refs, l.name ∈ mixedData.defs := by decide +kernel
  have htop : mixedData.dataTop = 0x10000018 := by decide +kernel
  obtain ⟨-, -, hloads⟩ := labels_and_data_agree (a := mixedData) (by decide +kernel)
    (by rw [htop]; decide)
  obtain ⟨img, s, hload, hagrees⟩ := hloads hclosed
  -- The three places of the data that the statement is about.
  have hlast : mixedData.data = mixedData.data.dropLast ++ .label (.global "end") :: [] := rfl
  have hfirst : mixedData.data =
      mixedData.data.take 5 ++ .address (.global "end") :: mixedData.data.drop 6 := rfl
  have hgap : mixedData.data = mixedData.data.take 2 ++ .label (.global "table") ::
      ([.align, .label (.global "first")] ++ .address (.global "end") :: mixedData.data.drop 6) :=
        rfl
  have hplace : entryAt (mixedData.data.take 5) (.address (.global "end")) = 0x10000008 := by
    decide +kernel
  have hend := hagrees.last hlast (List.forall_mem_nil _)
  obtain ⟨-, addr, haddr, hword⟩ := hagrees.found hfirst
  rw [hplace] at hword
  cases hend.symm.trans haddr
  refine ⟨img, s, hload, hagrees, ?_, hword.trans (by rw [htop]; rfl), ?_⟩
  · exact (hagrees.entry hgap (by decide) rfl).trans
      (congrArg (fun n => some (UInt32.ofNat n)) hplace)
  · rw [brk_of_load hload, htop]
    rfl

end Image

end ChocoRV
