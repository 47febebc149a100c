import Mathlib
import ChocoRV.Proofs.Machine.Place
import ChocoRV.Proofs.Machine.State

/-!
# Where data is

The addresses of the data segment, as numbers that do not wrap around. `Datum.top c data` is where
data ends that begins at `c`, and `Image.Laid img m c data` says that memory `m` holds the data from
`c` on: words at multiples of four, the bytes of a text with a zero after them, and at every aligned
place the label that stands there. If the segment ends before the addresses wrap around, all of it
is laid out in the freshly loaded machine (`Image.laid_of_load`).
-/

namespace ChocoRV

/-- The least multiple of four that is not below a number. -/
def alignUp (n : Nat) : Nat := (n + 3) / 4 * 4

theorem le_alignUp (n : Nat) : n ≤ alignUp n := by
  unfold alignUp
  omega

variable {n : Nat}

theorem alignUp_eq_self (h : 4 ∣ n) : alignUp n = n := by
  unfold alignUp
  omega

theorem dvd_alignUp (n : Nat) : 4 ∣ alignUp n := Dvd.intro_left _ rfl

namespace Datum

/-- Where data goes on behind an entry that begins at or after `c`. -/
def endFrom (c : Nat) : Datum → Nat
  | .label _ => c
  | .word _ | .address _ => alignUp c + 4
  | .ascii text => c + (Utf8.encode text).length + 1
  | .align => alignUp c

/-- Where data ends that begins at `c`. -/
def top (c : Nat) (data : List Datum) : Nat := data.foldl endFrom c

@[simp] theorem top_nil (c : Nat) : top c [] = c := rfl

@[simp] theorem top_cons (c : Nat) (d : Datum) (data : List Datum) :
    top c (d :: data) = top (d.endFrom c) data := rfl

@[simp] theorem top_append (c : Nat) (xs ys : List Datum) :
    top c (xs ++ ys) = top (top c xs) ys := List.foldl_append

theorem le_endFrom (c : Nat) (d : Datum) : c ≤ d.endFrom c := by
  have := le_alignUp c
  cases d <;> simp only [endFrom] <;> omega

theorem le_top (c : Nat) (data : List Datum) : c ≤ top c data := by
  induction data generalizing c with
  | nil => exact Nat.le_refl c
  | cons d data ih => exact (le_endFrom c d).trans (ih _)

end Datum

/-- Where the data of a program ends; the segment fits if this is at most 2³². -/
def Assembly.dataTop (a : Assembly) : Nat := Datum.top Image.dataBase.toNat a.data

/-! ## Addresses as numbers -/

variable {c : Nat}

namespace Addr

/-- The mask clears the two lowest bits. -/
theorem and_mask_eq (h : n < 4294967296) : n &&& 4294967292 = n / 4 * 4 := by
  have hlow : (n &&& 4294967292) % 2 ^ 2 = 0 := by
    rw [Nat.and_mod_two_pow, show 4294967292 % 2 ^ 2 = 0 from rfl, Nat.and_zero]
  have hhigh : (n &&& 4294967292) / 2 ^ 2 = n / 4 := by
    rw [Nat.and_div_two_pow, show 4294967292 / 2 ^ 2 = 2 ^ 30 - 1 from rfl,
      Nat.and_two_pow_sub_one_eq_mod]
    omega
  omega

theorem align4_ofNat (n : Nat) : align4 (UInt32.ofNat n) = UInt32.ofNat (alignUp n) := by
  refine UInt32.toNat_inj.mp ?_
  have hmask : (0xFFFFFFFC : UInt32).toNat = 4294967292 := rfl
  have hthree : (3 : UInt32).toNat = 3 := rfl
  rw [align4, UInt32.toNat_and, UInt32.toNat_add, UInt32.toNat_ofNat', UInt32.toNat_ofNat', hmask,
    hthree, and_mask_eq (Nat.mod_lt _ (by decide)), alignUp]
  omega

theorem ofNat_inj {k : Nat} (hn : n < 4294967296) (hk : k < 4294967296)
    (h : UInt32.ofNat n = UInt32.ofNat k) : n = k := by
  have := congrArg UInt32.toNat h
  rw [UInt32.toNat_ofNat', UInt32.toNat_ofNat'] at this
  omega

/-- A word that does not begin below `c` does not reach there. -/
theorem not_inWord_of_lt (hn : n < c) (hc : c + 4 ≤ 4294967296) :
    ¬ InWord (UInt32.ofNat c) (UInt32.ofNat n) := by
  have hne {j : Nat} (hj : j < 4) : UInt32.ofNat n ≠ UInt32.ofNat c + UInt32.ofNat j := by
    rw [← UInt32.ofNat_add]
    intro h
    have := ofNat_inj (by omega) (by omega) h
    omega
  rintro (h | h | h | h)
  · exact hne (j := 0) (by decide) (h.trans (UInt32.add_zero _).symm)
  · exact hne (j := 1) (by decide) h
  · exact hne (j := 2) (by decide) h
  · exact hne (j := 3) (by decide) h

end Addr

namespace Memory

variable {m : Memory}

theorem read_writeBytes_of_lt {bs : List UInt8} (hn : n < c) (hc : c + bs.length ≤ 4294967296) :
    (m.writeBytes (UInt32.ofNat c) bs).read (UInt32.ofNat n) = m.read (UInt32.ofNat n) := by
  induction bs generalizing m c with
  | nil => rfl
  | cons b bs ih =>
    rw [List.length_cons] at hc
    have hnext : UInt32.ofNat c + 1 = UInt32.ofNat (c + 1) := (UInt32.ofNat_add c 1).symm
    have hne : UInt32.ofNat c ≠ UInt32.ofNat n := by
      intro h
      have := Addr.ofNat_inj (by omega) (by omega) h
      omega
    rw [writeBytes, hnext, ih (by omega) (by omega), read_write, if_neg hne]

/-- Bytes that have been written are read back. -/
theorem read_writeBytes {bs : List UInt8} {i : Nat} {b : UInt8} (hi : bs[i]? = some b)
    (hc : c + bs.length ≤ 4294967296) :
    (m.writeBytes (UInt32.ofNat c) bs).read (UInt32.ofNat (c + i)) = b := by
  induction bs generalizing m c i with
  | nil => cases hi
  | cons b' bs ih =>
    rw [List.length_cons] at hc
    have hnext : UInt32.ofNat c + 1 = UInt32.ofNat (c + 1) := (UInt32.ofNat_add c 1).symm
    rw [writeBytes, hnext]
    cases i with
    | zero =>
      cases hi
      rw [Nat.add_zero, read_writeBytes_of_lt (by omega) (by omega), read_write]
      exact if_pos rfl
    | succ i =>
      rw [show c + (i + 1) = c + 1 + i by omega]
      exact ih hi (by omega)

end Memory

/-! ## Data in memory -/

variable {data : List Datum}

namespace Image

theorem advance_ofNat (c : Nat) (d : Datum) :
    advance (UInt32.ofNat c) d = UInt32.ofNat (d.endFrom c) := by
  cases d with
  | label l => rfl
  | word w | address l =>
    rw [advance, Addr.align4_ofNat]
    exact (UInt32.ofNat_add _ 4).symm
  | ascii text =>
    rw [advance, Datum.endFrom, UInt32.ofNat_add, UInt32.ofNat_add]
    rfl
  | align => exact Addr.align4_ofNat c

/-- A label at an aligned place names this place, whatever comes after it. -/
theorem nextStart_of_aligned {cursor : Addr} (h : Addr.align4 cursor = cursor) (data : List Datum) :
    nextStart cursor data = cursor := by
  induction data with
  | nil => rfl
  | cons d data ih =>
    cases d with
    | label l => exact ih
    | align =>
      rw [nextStart, h]
      exact ih
    | ascii text => rfl
    | word w | address l => exact h

/-- What a label names lies in the data after it. -/
theorem nextStart_ofNat (c : Nat) (data : List Datum) :
    ∃ n, c ≤ n ∧ n ≤ Datum.top c data ∧ nextStart (UInt32.ofNat c) data = UInt32.ofNat n := by
  induction data generalizing c with
  | nil => exact ⟨c, Nat.le_refl c, Nat.le_refl c, rfl⟩
  | cons d data ih =>
    have hle := Datum.le_top (d.endFrom c) data
    cases d with
    | label l => exact ih c
    | align =>
      obtain ⟨n, hn, htop, heq⟩ := ih (alignUp c)
      refine ⟨n, (le_alignUp c).trans hn, htop, ?_⟩
      rw [nextStart, Addr.align4_ofNat, heq]
    | ascii text => exact ⟨c, Nat.le_refl c, (Datum.le_endFrom c _).trans hle, rfl⟩
    | word w | address l =>
      refine ⟨alignUp c, le_alignUp c, (Nat.le_add_right _ 4).trans hle, ?_⟩
      rw [nextStart, Addr.align4_ofNat]

/-- The labels of data name places in it. -/
theorem mem_dataLabels_ofNat {e : String × Addr} (h : e ∈ dataLabels (UInt32.ofNat c) data) :
    ∃ n, c ≤ n ∧ n ≤ Datum.top c data ∧ e.2 = UInt32.ofNat n := by
  induction data generalizing c with
  | nil => exact absurd h List.not_mem_nil
  | cons d data ih =>
    have hrest (h : e ∈ dataLabels (UInt32.ofNat (d.endFrom c)) data) :
        ∃ n, c ≤ n ∧ n ≤ Datum.top c (d :: data) ∧ e.2 = UInt32.ofNat n := by
      obtain ⟨n, hn, htop, heq⟩ := ih h
      exact ⟨n, (Datum.le_endFrom c d).trans hn, htop, heq⟩
    rw [← advance_ofNat] at hrest
    cases d with
    | label l =>
      rcases List.mem_cons.mp h with rfl | h
      · exact nextStart_ofNat c data
      · exact hrest h
    | align | word w | address l | ascii text => exact hrest h

/-- Data leaves memory below it alone. -/
theorem read_of_writeData {table : LabelTable} {m m' : Memory}
    (h : writeData table m (UInt32.ofNat c) data = .ok m') (htop : Datum.top c data ≤ 4294967296)
    (hn : n < c) : m'.read (UInt32.ofNat n) = m.read (UInt32.ofNat n) := by
  induction data generalizing m c with
  | nil =>
    cases h
    rfl
  | cons d data ih =>
    have hle := (Datum.le_top (d.endFrom c) data).trans htop
    have hlt := Nat.lt_of_lt_of_le hn (Datum.le_endFrom c d)
    have hword (w : Int32) (hd : alignUp c + 4 ≤ 4294967296) :
        (m.writeWord (UInt32.ofNat (alignUp c)) w).read (UInt32.ofNat n) =
          m.read (UInt32.ofNat n) :=
      Memory.read_writeWord_of_not_inWord m _ w
        (Addr.not_inWord_of_lt (Nat.lt_of_lt_of_le hn (le_alignUp c)) hd)
    cases d with
    | label l =>
      rw [writeData_label, advance_ofNat] at h
      exact ih h htop hlt
    | align =>
      rw [writeData_align, advance_ofNat] at h
      exact ih h htop hlt
    | word w =>
      rw [writeData_word, advance_ofNat, Addr.align4_ofNat] at h
      exact (ih h htop hlt).trans (hword w hle)
    | address l =>
      rw [writeData_address] at h
      obtain ⟨addr, -, h⟩ := bind_eq_ok_iff.mp h
      rw [advance_ofNat, Addr.align4_ofNat] at h
      exact (ih h htop hlt).trans (hword addr.toInt32 hle)
    | ascii text =>
      rw [writeData_ascii, advance_ofNat] at h
      refine (ih h htop hlt).trans (Memory.read_writeBytes_of_lt hn ?_)
      rw [List.length_append]
      exact hle

/-- A word below data stays. -/
theorem readWord_of_writeData {table : LabelTable} {m m' : Memory}
    (h : writeData table m (UInt32.ofNat c) data = .ok m') (htop : Datum.top c data ≤ 4294967296)
    (hn : n + 4 ≤ c) : m'.readWord (UInt32.ofNat n) = m.readWord (UInt32.ofNat n) := by
  refine Memory.readWord_congr fun b hb => ?_
  obtain ⟨j, hj, rfl⟩ : ∃ j < 4, b = UInt32.ofNat (n + j) := by
    rcases hb with rfl | rfl | rfl | rfl
    · exact ⟨0, by decide, rfl⟩
    · exact ⟨1, by decide, (UInt32.ofNat_add n 1).symm⟩
    · exact ⟨2, by decide, (UInt32.ofNat_add n 2).symm⟩
    · exact ⟨3, by decide, (UInt32.ofNat_add n 3).symm⟩
  exact read_of_writeData h htop (by omega)

end Image

/-- One entry is in memory, and a label names its place if that is aligned. -/
def Datum.LaidAt (img : Image) (m : Memory) (c : Nat) : Datum → Prop
  | .label l => 4 ∣ c → img.label? l.name = some (UInt32.ofNat c)
  | .word w => m.readWord (UInt32.ofNat (alignUp c)) = w
  | .address l => ∃ addr, img.label? l.name = some addr ∧
      m.readWord (UInt32.ofNat (alignUp c)) = addr.toInt32
  | .ascii text => ∀ i b, (Utf8.encode text ++ [0])[i]? = some b → m.read (UInt32.ofNat (c + i)) = b
  | .align => True

namespace Image

/-- Data is in memory from `c` on and ends before the addresses wrap around. -/
def Laid (img : Image) (m : Memory) : Nat → List Datum → Prop
  | c, [] => c ≤ 4294967296
  | c, d :: data => d.LaidAt img m c ∧ Laid img m (d.endFrom c) data

section Laid

variable {img : Image} {m : Memory} {c : Nat}

theorem Laid.top_le (h : img.Laid m c data) : Datum.top c data ≤ 4294967296 := by
  induction data generalizing c with
  | nil => exact h
  | cons d data ih => exact ih h.2

theorem Laid.append {xs ys : List Datum} (h : img.Laid m c (xs ++ ys)) :
    img.Laid m c xs ∧ img.Laid m (Datum.top c xs) ys := by
  induction xs generalizing c with
  | nil => exact ⟨(Datum.le_top c ys).trans h.top_le, h⟩
  | cons d xs ih =>
    obtain ⟨hxs, hys⟩ := ih h.2
    exact ⟨⟨h.1, hxs⟩, hys⟩

theorem laid_of_writeData {m' : Memory} (h : writeData img.labels m (UInt32.ofNat c) data = .ok m')
    (hlabels : ∀ e ∈ dataLabels (UInt32.ofNat c) data, img.label? e.1 = some e.2)
    (htop : Datum.top c data ≤ 4294967296) : img.Laid m' c data := by
  induction data generalizing m c with
  | nil => exact htop
  | cons d data ih =>
    have hend := advance_ofNat c d
    have hword (w : Int32) (hrest : writeData img.labels (m.writeWord (UInt32.ofNat (alignUp c)) w)
          (UInt32.ofNat (alignUp c + 4)) data = .ok m')
        (hfit : Datum.top (alignUp c + 4) data ≤ 4294967296) :
        m'.readWord (UInt32.ofNat (alignUp c)) = w := by
      rw [readWord_of_writeData hrest hfit (Nat.le_refl _)]
      exact Memory.readWord_writeWord_self m _ w
    cases d with
    | label l =>
      rw [writeData_label, hend] at h
      refine ⟨fun haligned => ?_, ih h (fun e he => hlabels e (List.mem_cons_of_mem _ he)) htop⟩
      have hplace : Addr.align4 (UInt32.ofNat c) = UInt32.ofNat c := by
        rw [Addr.align4_ofNat, alignUp_eq_self haligned]
      rw [hlabels (l.name, _) List.mem_cons_self, nextStart_of_aligned hplace]
    | align =>
      rw [dataLabels, hend] at hlabels
      · rw [writeData_align, hend] at h
        exact ⟨trivial, ih h hlabels htop⟩
      · intro l hl
        cases hl
    | word w =>
      rw [dataLabels, hend] at hlabels
      · rw [writeData_word, hend, Addr.align4_ofNat] at h
        exact ⟨hword w h htop, ih h hlabels htop⟩
      · intro l hl
        cases hl
    | address l =>
      rw [dataLabels, hend] at hlabels
      · rw [writeData_address] at h
        obtain ⟨addr, haddr, h⟩ := bind_eq_ok_iff.mp h
        rw [hend, Addr.align4_ofNat] at h
        exact ⟨⟨addr, find_eq_ok_iff.mp haddr, hword addr.toInt32 h htop⟩, ih h hlabels htop⟩
      · intro l hl
        cases hl
    | ascii text =>
      rw [dataLabels, hend] at hlabels
      · rw [writeData_ascii, hend] at h
        refine ⟨fun i b hi => ?_, ih h hlabels htop⟩
        have hlen : c + (Utf8.encode text ++ [0]).length ≤ 4294967296 := by
          rw [List.length_append]
          exact (Datum.le_top _ data).trans htop
        have hlt : i < (Utf8.encode text ++ [0]).length := (List.getElem?_eq_some_iff.mp hi).1
        rw [read_of_writeData h htop]
        · exact Memory.read_writeBytes hi hlen
        · rw [List.length_append, List.length_singleton] at hlt
          show c + i < c + (Utf8.encode text).length + 1
          omega
      · intro l hl
        cases hl

/-- The data of a freshly loaded program is in memory. -/
theorem laid_of_load {a : Assembly} {s : State} (h : load a = .ok (img, s)) (hnames : a.defs.Nodup)
    (htop : a.dataTop ≤ 4294967296) : img.Laid s.memory dataBase.toNat a.data := by
  have hlabels := labels_of_load h
  obtain ⟨m, hm, h⟩ := bind_eq_ok_iff.mp h
  obtain ⟨code, -, h⟩ := bind_eq_ok_iff.mp h
  cases h
  refine laid_of_writeData hm (fun e he => ?_) htop
  exact find_eq_ok_iff.mp (find_data hnames he)

end Laid

end Image

end ChocoRV
