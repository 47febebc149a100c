import Mathlib
import ChocoRV.Proofs.Machine.Sequence

/-!
# Regions of memory

A region is a run of bytes. `Memory.Frame` says that two memories agree outside of some regions, so
that whatever lies apart from them has been kept. The two loops over memory that the routines have
are given as functions of memories, `Memory.copy` and `Memory.clear`, with what they leave in their
region and the frame of each.
-/

namespace ChocoRV

variable {n : Nat}

namespace Addr

/-- Addresses that do not wrap around are added as numbers. -/
theorem toNat_add_ofNat {a : Addr} (h : a.toNat + n < UInt32.size) :
    (a + UInt32.ofNat n).toNat = a.toNat + n := by
  have hsize : UInt32.size = 4294967296 := rfl
  rw [UInt32.toNat_add, UInt32.toNat_ofNat']
  omega

/-- The words of a header do not wrap around. -/
theorem toNat_words {a : Addr} (h : a.toNat + 12 < UInt32.size) : (a + 4).toNat = a.toNat + 4 ∧
    (a + 8).toNat = a.toNat + 8 ∧ (a + 12).toNat = a.toNat + 12 :=
  ⟨toNat_add_ofNat (n := 4) (by omega), toNat_add_ofNat (n := 8) (by omega),
    toNat_add_ofNat (n := 12) h⟩

theorem add_ofNat_add (a : Addr) (m n : Nat) :
    a + UInt32.ofNat (m + n) = a + UInt32.ofNat m + UInt32.ofNat n := by
  rw [UInt32.ofNat_add, UInt32.add_assoc]

end Addr

/-! ## Regions -/

/-- The `size` bytes from `base` on. -/
structure Region where
  base : Addr
  size : Nat
deriving DecidableEq

namespace Region

/-- The addresses of a region. -/
def Contains (r : Region) (b : Addr) : Prop :=
  r.base.toNat ≤ b.toNat ∧ b.toNat < r.base.toNat + r.size

/-- Regions that have no byte in common. -/
def Apart (r r' : Region) : Prop := ∀ b, r.Contains b → ¬ r'.Contains b

/-- A region that is part of another one. -/
def Within (r r' : Region) : Prop := ∀ b, r.Contains b → r'.Contains b

variable {r r' r'' : Region}

theorem Apart.symm (h : r.Apart r') : r'.Apart r := fun b hb hb' => h b hb' hb

theorem Apart.left (h : r.Apart r') (hin : r''.Within r) : r''.Apart r' :=
    fun b hb => h b (hin b hb)

theorem Apart.right (h : r.Apart r') (hin : r''.Within r') : r.Apart r'' :=
  fun b hb hb' => h b hb (hin b hb')

variable {a a' b : Addr} {n n' : Nat}

theorem contains_mk : Contains ⟨a, n⟩ b ↔ a.toNat ≤ b.toNat ∧ b.toNat < a.toNat + n := Iff.rfl

theorem apart_of_le (h : a.toNat + n ≤ a'.toNat ∨ a'.toNat + n' ≤ a.toNat) :
    Apart ⟨a, n⟩ ⟨a', n'⟩ := by
  intro b hb hb'
  rw [contains_mk] at hb hb'
  omega

theorem within_of_le (hl : a'.toNat ≤ a.toNat) (hh : a.toNat + n ≤ a'.toNat + n') :
    Within ⟨a, n⟩ ⟨a', n'⟩ := by
  intro b hb
  rw [contains_mk] at hb ⊢
  omega

end Region

theorem Width.size_pos (w : Width) : 0 < w.size := by cases w <;> decide

/-- The bytes of an access that does not wrap around. -/
theorem Width.Bytes.contains {w : Width} {a b : Addr} (ha : a.toNat + w.size ≤ UInt32.size)
    (h : w.Bytes a b) : Region.Contains ⟨a, w.size⟩ b := by
  cases w with
  | word => exact Addr.toNat_of_inWord ha h
  | byte =>
    cases h
    exact ⟨Nat.le_refl _, Nat.lt_succ_self _⟩

/-- The four bytes of a word are at their offsets. -/
theorem Addr.inWord_of_contains {a b : Addr} (h : Region.Contains ⟨a, 4⟩ b) : InWord a b := by
  obtain ⟨hl, hh⟩ := Region.contains_mk.mp h
  have hb : b = a + UInt32.ofNat (b.toNat - a.toNat) := by
    rw [← UInt32.toNat_inj, Addr.toNat_add_ofNat]
    · omega
    · have := b.toNat_lt_size
      omega
  have hoffset : b.toNat - a.toNat = 0 ∨ b.toNat - a.toNat = 1 ∨ b.toNat - a.toNat = 2 ∨
      b.toNat - a.toNat = 3 := by omega
  rcases hoffset with h | h | h | h <;> rw [h] at hb
  · exact .inl (hb.trans (UInt32.add_zero a))
  · exact .inr (.inl hb)
  · exact .inr (.inr (.inl hb))
  · exact .inr (.inr (.inr hb))

/-! ## Reads and writes -/

/-- The memory after a store. -/
def Width.write (m : Memory) (a : Addr) (v : Int32) : Width → Memory
  | .word => m.writeWord a v
  | .byte => m.write a v.toUInt32.toUInt8

theorem State.exec_load (s : State) (w : Width) (rd base : Reg) (n : Int32) :
    s.exec (.load w rd base n) = s.access (s.addrOf base n) fun s' =>
      .running (s'.put rd (w.read s'.memory (s.addrOf base n))) := by
  cases w <;> rfl

theorem State.exec_store (s : State) (w : Width) (src base : Reg) (n : Int32) :
    s.exec (.store w src base n) = s.access (s.addrOf base n) fun s' =>
      .running { s' with memory := w.write s'.memory (s.addrOf base n) (s.reg src), pc :=
        s'.pc + 4 } := by
  cases w <;> rfl

/-- A byte is read as a word without sign, so no two give the same word. -/
theorem toInt32_toUInt32_injective : Function.Injective fun b : UInt8 => b.toUInt32.toInt32 := by
  intro b b' h
  have hbyte : b.toUInt32 = b'.toUInt32 := congrArg Int32.toUInt32 h
  rw [← UInt8.toUInt8_toUInt32 b, hbyte, UInt8.toUInt8_toUInt32]

namespace Memory

variable {m m' m'' : Memory} {w : Width} {a b : Addr} {v : Int32}

/-- An element depends on its bytes only. -/
theorem read_congr_width (h : ∀ b, w.Bytes a b → m'.read b = m.read b) :
    w.read m' a = w.read m a := by
  cases w with
  | word => exact readWord_congr h
  | byte => exact congrArg (fun x : UInt8 => x.toUInt32.toInt32) (h a rfl)

theorem read_write_of_not_bytes (h : ¬ w.Bytes a b) : (w.write m a v).read b = m.read b := by
  cases w with
  | word => exact read_writeWord_of_not_inWord m a v h
  | byte => exact (read_write m a b _).trans (if_neg (Ne.symm h))

/-- Writing the same to two memories that agree at a byte leaves them agreeing there. -/
theorem read_write_congr (h : m.read b = m'.read b) :
    (w.write m a v).read b = (w.write m' a v).read b := by
  cases w <;> simp only [Width.write, writeWord, read_write, h]

/-- What has been read is read again where it is written. -/
theorem read_write_read (m m' : Memory) (w : Width) (a b : Addr) :
    w.read (w.write m b (w.read m' a)) b = w.read m' a := by
  cases w with
  | word => exact readWord_writeWord_self m b _
  | byte =>
    have hbyte : ((m'.read a).toUInt32.toInt32.toUInt32).toUInt8 = m'.read a :=
      UInt8.toUInt8_toUInt32 _
    show ((m.write b _).read b).toUInt32.toInt32 = (m'.read a).toUInt32.toInt32
    rw [read_write, if_pos rfl]
    exact congrArg (fun x : UInt8 => x.toUInt32.toInt32) hbyte

/-! ## Frames -/

/-- The second memory agrees with the first one outside of the regions. -/
def Frame (rs : List Region) (m m' : Memory) : Prop :=
  ∀ b, (∀ r ∈ rs, ¬ r.Contains b) → m'.read b = m.read b

namespace Frame

variable {rs rs' : List Region}

theorem refl (rs : List Region) (m : Memory) : Frame rs m m := fun _ _ => rfl

theorem trans (h : Frame rs m m') (h' : Frame rs m' m'') : Frame rs m m'' :=
  fun b hb => (h' b hb).trans (h b hb)

theorem mono (h : Frame rs m m') (hrs : rs ⊆ rs') : Frame rs' m m' :=
  fun b hb => h b fun r hr => hb r (hrs hr)

/-- Regions that lie within one of others. -/
theorem widen {r' : Region} (h : Frame rs m m') (hin : ∀ r ∈ rs, r.Within r') (hmem : r' ∈ rs') :
    Frame rs' m m' :=
  fun b hb => h b fun r hr hb' => hb r' hmem (hin r hr b hb')

theorem write (m : Memory) (ha : a.toNat + w.size ≤ UInt32.size) (v : Int32) :
    Frame [⟨a, w.size⟩] m (w.write m a v) :=
  fun _ hb => read_write_of_not_bytes fun h => hb _ List.mem_cons_self (h.contains ha)

/-- An element apart from the regions is kept. -/
theorem read (h : Frame rs m m') (ha : a.toNat + w.size ≤ UInt32.size)
    (hapart : ∀ r ∈ rs, Region.Apart ⟨a, w.size⟩ r) : w.read m' a = w.read m a :=
  read_congr_width fun b hb => h b fun r hr => hapart r hr b (hb.contains ha)

theorem readWord (h : Frame rs m m') (ha : a.toNat + 4 ≤ UInt32.size)
    (hapart : ∀ r ∈ rs, Region.Apart ⟨a, 4⟩ r) : m'.readWord a = m.readWord a :=
  h.read (w := .word) ha hapart

end Frame

/-- The memory after words have been written one after the other. -/
def writeWords (m : Memory) : List (Addr × Int32) → Memory
  | [] => m
  | e :: es => (m.writeWord e.1 e.2).writeWords es

/-- Words that do not wrap around and have no byte in common. -/
structure Separate (es : List (Addr × Int32)) : Prop where
  whole : ∀ e ∈ es, e.1.toNat + 4 ≤ UInt32.size
  apart : es.Pairwise fun e e' => e.1.toNat + 4 ≤ e'.1.toNat ∨ e'.1.toNat + 4 ≤ e.1.toNat

variable {es : List (Addr × Int32)}

theorem Frame.writeWords (m : Memory) (h : ∀ e ∈ es, e.1.toNat + 4 ≤ UInt32.size) :
    Frame (es.map fun e => ⟨e.1, 4⟩) m (m.writeWords es) := by
  induction es generalizing m with
  | nil => exact .refl [] m
  | cons e es ih =>
    rw [List.forall_mem_cons] at h
    exact ((Frame.write (w := .word) m h.1 e.2).mono (by simp [Width.size])).trans
      ((ih _ h.2).mono (List.subset_cons_self _ _))

/-- Separate words are read as they have been written. -/
theorem readWord_writeWords (hes : Separate es) (he : (a, v) ∈ es) :
    (m.writeWords es).readWord a = v := by
  obtain ⟨hwhole, hapart⟩ := hes
  induction es generalizing m with
  | nil => exact absurd he List.not_mem_nil
  | cons e' es ih =>
    rw [List.forall_mem_cons] at hwhole
    rw [List.pairwise_cons] at hapart
    rcases List.mem_cons.mp he with rfl | he
    · rw [writeWords, (Frame.writeWords _ hwhole.2).readWord hwhole.1, readWord_writeWord_self]
      exact List.forall_mem_map.mpr fun e' he' => Region.apart_of_le (hapart.1 e' he')
    · exact ih he hwhole.2 hapart.2

/-! ## Elements -/

/-- The `n` elements from `a` on. -/
def elements (m : Memory) (w : Width) (a : Addr) (n : Nat) : List Int32 :=
  (List.range n).map fun i => w.read m (a + UInt32.ofNat (w.size * i))

@[simp] theorem length_elements (m : Memory) (w : Width) (a : Addr) (n : Nat) :
    (m.elements w a n).length = n := by simp [elements]

@[simp] theorem elements_zero (m : Memory) (w : Width) (a : Addr) : m.elements w a 0 = [] := rfl

theorem elements_add (m : Memory) (w : Width) (a : Addr) (k n : Nat) :
    m.elements w a (k + n) = m.elements w a k ++ m.elements w
      (a + UInt32.ofNat (w.size * k)) n := by
  rw [elements, List.range_add, List.map_append, List.map_map]
  refine congrArg _ (List.map_congr_left fun i _ => ?_)
  rw [Function.comp_apply, Nat.mul_add, Addr.add_ofNat_add]

theorem elements_succ (m : Memory) (w : Width) (a : Addr) (n : Nat) :
    m.elements w a (n + 1) = w.read m a :: m.elements w (a + UInt32.ofNat w.size) n := by
  rw [Nat.add_comm, elements_add, Nat.mul_one]
  show [w.read m (a + UInt32.ofNat (w.size * 0))] ++ _ = _
  rw [Nat.mul_zero, show UInt32.ofNat 0 = 0 from rfl, UInt32.add_zero]
  rfl

theorem elements_congr
    (h : ∀ i < n, w.read m' (a + UInt32.ofNat (w.size * i)) =
    w.read m (a + UInt32.ofNat (w.size * i)))
    : m'.elements w a n = m.elements w a n :=
  List.map_congr_left fun i hi => h i (List.mem_range.mp hi)

/-- Elements of one byte each are what is read byte by byte. -/
theorem elements_byte_eq_iff {bytes : List UInt8} :
    m.elements .byte a bytes.length = bytes.map (·.toUInt32.toInt32) ↔
      ∀ i b, bytes[i]? = some b → m.read (a + UInt32.ofNat i) = b := by
  have helement {i : Nat} (hi : i < bytes.length) :
      (m.elements .byte a bytes.length)[i]? =
        some (m.read (a + UInt32.ofNat i)).toUInt32.toInt32 := by
    rw [elements, List.getElem?_map, List.getElem?_range hi]
    simp [Width.read, Width.size]
  refine ⟨fun h i b hi => ?_, fun h => List.ext_getElem? fun i => ?_⟩
  · have hread := helement (List.getElem?_eq_some_iff.mp hi).1
    rw [h, List.getElem?_map, hi, Option.map_some, Option.some.injEq] at hread
    exact (toInt32_toUInt32_injective hread).symm
  · by_cases hi : i < bytes.length
    · rw [helement hi, List.getElem?_map, List.getElem?_eq_getElem hi, Option.map_some,
        h i _ (List.getElem?_eq_getElem hi)]
    · rw [List.getElem?_eq_none (by simpa using hi), List.getElem?_eq_none (by simpa using hi)]

/-- Element `i` of `n` lies among them. -/
theorem element_within {i : Nat} (ha : a.toNat + w.size * n ≤ UInt32.size) (hi : i < n) :
    (a + UInt32.ofNat (w.size * i)).toNat = a.toNat + w.size * i ∧
      a.toNat + w.size * i + w.size ≤ a.toNat + w.size * n := by
  have hlast : w.size * i + w.size ≤ w.size * n := by
    rw [← Nat.mul_succ]
    exact Nat.mul_le_mul_left _ hi
  have hpos := w.size_pos
  exact ⟨Addr.toNat_add_ofNat (by omega), by omega⟩

/-- Elements apart from the regions of a frame are kept. -/
theorem Frame.elements {rs : List Region} (h : Frame rs m m')
    (ha : a.toNat + w.size * n ≤ UInt32.size) (hapart : ∀ r ∈ rs, Region.Apart ⟨a, w.size * n⟩ r) :
    m'.elements w a n = m.elements w a n := by
  refine elements_congr fun i hi => ?_
  obtain ⟨haddr, hlast⟩ := element_within ha hi
  refine h.read (by omega) fun r hr => (hapart r hr).left ?_
  exact Region.within_of_le (by omega) (by omega)

/-! ## Loops over memory -/

/-- Copy `n` elements from `a` on to `b` and after, one after the other. -/
def copy (w : Width) : Nat → Addr → Addr → Memory → Memory
  | 0, _, _, m => m
  | n + 1, a, b, m =>
    copy w n (a + UInt32.ofNat w.size) (b + UInt32.ofNat w.size) (w.write m b (w.read m a))

/-- Write `n` zero words from `a` on. -/
def clear : Nat → Addr → Memory → Memory
  | 0, _, m => m
  | n + 1, a, m => clear n (a + 4) (m.writeWord a 0)

/-- Elements that do not wrap around are the first one and the others, which lie apart from it. -/
theorem first_and_others (ha : a.toNat + w.size * (n + 1) ≤ UInt32.size) :
    a.toNat + w.size ≤ UInt32.size ∧
      (a + UInt32.ofNat w.size).toNat + w.size * n ≤ UInt32.size ∧
      Region.Within ⟨a, w.size⟩ ⟨a, w.size * (n + 1)⟩ ∧
      Region.Within ⟨a + UInt32.ofNat w.size, w.size * n⟩ ⟨a, w.size * (n + 1)⟩ ∧
      Region.Apart ⟨a, w.size⟩ ⟨a + UInt32.ofNat w.size, w.size * n⟩ := by
  have hpos := w.size_pos
  rw [Nat.mul_succ] at ha ⊢
  have hfirst : Region.Within ⟨a, w.size⟩ ⟨a, w.size * n + w.size⟩ :=
    Region.within_of_le (Nat.le_refl _) (by omega)
  rcases Nat.eq_zero_or_pos n with rfl | hn
  -- There are no others, and the address after the first one may have wrapped around.
  · have hlt := (a + UInt32.ofNat w.size).toNat_lt_size
    have hempty (b : Addr) : ¬ Region.Contains ⟨a + UInt32.ofNat w.size, w.size * 0⟩ b := by
      rintro ⟨hl, hh⟩
      exact absurd hh (Nat.not_lt.mpr hl)
    exact ⟨by omega, by omega, hfirst, fun b hb => absurd hb (hempty b), fun b _ => hempty b⟩
  · have hothers : 0 < w.size * n := Nat.mul_pos hpos hn
    have hnext : (a + UInt32.ofNat w.size).toNat = a.toNat + w.size :=
      Addr.toNat_add_ofNat (by omega)
    exact ⟨by omega, by omega, hfirst, Region.within_of_le (by omega) (by omega),
      Region.apart_of_le (.inl (by omega))⟩

/-- Copying changes the target only. -/
theorem Frame.copy (m : Memory) (a : Addr) (hb : b.toNat + w.size * n ≤ UInt32.size) :
    Frame [⟨b, w.size * n⟩] m (m.copy w n a b) := by
  induction n generalizing m a b with
  | zero => exact Frame.refl _ m
  | succ n ih =>
    obtain ⟨hfirst, hothers, hin, hin', -⟩ := first_and_others hb
    have hwrite : Frame [⟨b, w.size * (n + 1)⟩] m (w.write m b (w.read m a)) :=
      (Frame.write m hfirst _).widen (List.forall_mem_singleton.mpr hin) List.mem_cons_self
    exact hwrite.trans ((ih _ _ hothers).widen (List.forall_mem_singleton.mpr hin')
      List.mem_cons_self)

/-- What is copied to another place arrives. -/
theorem elements_copy (ha : a.toNat + w.size * n ≤ UInt32.size)
    (hb : b.toNat + w.size * n ≤ UInt32.size)
    (hapart : Region.Apart ⟨a, w.size * n⟩ ⟨b, w.size * n⟩) :
    (m.copy w n a b).elements w b n = m.elements w a n := by
  induction n generalizing m a b with
  | zero => rfl
  | succ n ih =>
    obtain ⟨-, hsource, -, hfrom, -⟩ := first_and_others ha
    obtain ⟨hfirst, htarget, hin, hto, hrest⟩ := first_and_others hb
    rw [elements_succ, elements_succ m, Memory.copy]
    congr 1
    -- The first element has been written, and the others go elsewhere.
    · rw [(Frame.copy _ _ htarget).read hfirst (by simpa using hrest), read_write_read]
    -- What the others are copied from is still the same.
    · rw [ih hsource htarget ((hapart.left hfrom).right hto)]
      exact (Frame.write m hfirst _).elements hsource (by simpa using (hapart.left hfrom).right hin)

/-- Clearing changes the words that it clears only. -/
theorem Frame.clear (m : Memory) (ha : a.toNat + 4 * n ≤ UInt32.size) :
    Frame [⟨a, 4 * n⟩] m (m.clear n a) := by
  induction n generalizing m a with
  | zero => exact Frame.refl _ m
  | succ n ih =>
    obtain ⟨hfirst, hothers, hin, hin', -⟩ := first_and_others (w := .word) ha
    have hwrite : Frame [⟨a, 4 * (n + 1)⟩] m (m.writeWord a 0) :=
      (Frame.write (w := .word) m hfirst 0).widen (List.forall_mem_singleton.mpr hin)
        List.mem_cons_self
    exact hwrite.trans ((ih _ hothers).widen (List.forall_mem_singleton.mpr hin')
      List.mem_cons_self)

/-- All bytes that have been cleared are zero. -/
theorem read_clear (ha : a.toNat + 4 * n ≤ UInt32.size) (hb : Region.Contains ⟨a, 4 * n⟩ b) :
    (m.clear n a).read b = 0 := by
  induction n generalizing m a with
  | zero => exact absurd hb.2 (Nat.not_lt.mpr hb.1)
  | succ n ih =>
    obtain ⟨-, hothers, -, -, hrest⟩ := first_and_others (w := .word) ha
    rw [Region.contains_mk] at hb
    rcases Nat.lt_or_ge b.toNat (a.toNat + 4) with hlt | hge
    -- A byte of the first word, which the other ones are apart from.
    · have hword := Region.contains_mk.mpr ⟨hb.1, hlt⟩
      have hkept : (m.clear (n + 1) a).read b = (m.writeWord a 0).read b :=
        Frame.clear _ hothers b fun r hr => List.mem_singleton.mp hr ▸ hrest b hword
      obtain ⟨h0, h1, h2, h3⟩ := read_writeWord m a 0
      rw [hkept]
      rcases Addr.inWord_of_contains hword with rfl | rfl | rfl | rfl
      · exact h0
      · exact h1
      · exact h2
      · exact h3
    · have hnext : (a + 4).toNat = a.toNat + 4 :=
        Addr.toNat_add_ofNat (n := 4) (Nat.lt_of_le_of_lt hge b.toNat_lt_size)
      refine ih hothers (Region.contains_mk.mpr ?_)
      omega

end Memory

end ChocoRV
