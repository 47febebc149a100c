import Mathlib
import ChocoRV.Proofs.Machine.Layout
import ChocoRV.Proofs.OperandEffects

/-!
# Reading a string always ends

A string is read upward from its address to the first zero byte, and addresses wrap around at the
top of memory. What ends every such read is the null page. Data lies above it, a store below
`nullPage` fails, and a word that is stored at the very top of memory reaches no further than bytes
0, 1 and 2; so the other bytes of the page are zero in every state that a program can be in.
-/

namespace ChocoRV

namespace Memory

/-- The bytes of the null page that no store can reach are zero. -/
def NullPageClear (m : Memory) : Prop := ∀ b : Addr, 3 ≤ b → b < State.nullPage → m.read b = 0

/-- The first zero byte from an address upward is `n` bytes above it. -/
structure EndsAfter (m : Memory) (a : Addr) (n : Nat) : Prop where
  zero : m.read (a + UInt32.ofNat n) = 0
  nonzero (k : Nat) (hk : k < n) : m.read (a + UInt32.ofNat k) ≠ 0

/-! ## Strings -/

variable {m : Memory}

theorem bytesFrom_of_endsAfter {a : Addr} {n fuel : Nat} (h : m.EndsAfter a n) (hfuel : n < fuel) :
    m.bytesFrom fuel a = (List.range n).map fun k => m.read (a + UInt32.ofNat k) := by
  induction n generalizing a fuel with
  | zero =>
    obtain ⟨fuel, rfl⟩ := Nat.exists_eq_add_of_lt hfuel
    have hzero : m.read a = 0 := by simpa using h.zero
    simp [bytesFrom, hzero]
  | succ n ih =>
    obtain ⟨fuel, rfl⟩ := Nat.exists_eq_add_one.mpr (Nat.zero_lt_of_lt hfuel)
    have hnext (k : Nat) : a + 1 + UInt32.ofNat k = a + UInt32.ofNat (k + 1) := by
      rw [UInt32.ofNat_add, UInt32.add_assoc, UInt32.add_comm 1]
      rfl
    have hrest : m.EndsAfter (a + 1) n := by
      refine ⟨?_, fun k hk => ?_⟩
      · rw [hnext]
        exact h.zero
      · rw [hnext]
        exact h.nonzero (k + 1) (Nat.succ_lt_succ hk)
    have hfirst : m.read a ≠ 0 := by simpa using h.nonzero 0 (Nat.succ_pos n)
    simp only [bytesFrom, beq_iff_eq, hfirst, if_false, ih hrest (Nat.lt_of_succ_lt_succ hfuel),
      hnext, List.range_succ_eq_map, List.map_cons, List.map_map]
    simp [Function.comp_def]

/-- Every walk upward comes to the null page. -/
theorem NullPageClear.endsAfter (h : m.NullPageClear)
    (a : Addr) : ∃ n < UInt32.size, m.EndsAfter a n := by
  have hthree : m.read (a + UInt32.ofNat (3 - a).toNat) = 0 := by
    rw [UInt32.ofNat_toNat, UInt32.add_comm, UInt32.sub_add_cancel]
    exact h 3 (by decide) (by decide)
  have hzero : ∃ n, m.read (a + UInt32.ofNat n) = 0 := ⟨_, hthree⟩
  refine ⟨Nat.find hzero, ?_, Nat.find_spec hzero, fun k hk => Nat.find_min hzero hk⟩
  exact Nat.lt_of_le_of_lt (Nat.find_min' hzero hthree) (3 - a).toNat_lt

/-! ## Stores -/

/-- A word at a valid address has none of the bytes. -/
theorem NullPageClear.writeWord (h : m.NullPageClear) {a : Addr} (ha : State.nullPage ≤ a)
    (w : Int32) :
    (m.writeWord a w).NullPageClear := by
  intro b hlow hpage
  rw [read_writeWord_of_not_inWord m a w]
  · exact h b hlow hpage
  · have hlow := UInt32.le_iff_toNat_le.mp hlow
    have hpage := UInt32.lt_iff_toNat_lt.mp hpage
    have ha := UInt32.le_iff_toNat_le.mp ha
    have hmax := a.toNat_lt
    rintro (rfl | rfl | rfl | rfl)
    all_goals
      simp [UInt32.toNat_add, State.nullPage] at hlow hpage ha
      omega

theorem NullPageClear.write (h : m.NullPageClear) {a : Addr} (ha : State.nullPage ≤ a) (v : UInt8) :
    (m.write a v).NullPageClear := by
  intro b hlow hpage
  rw [read_write, if_neg]
  · exact h b hlow hpage
  · rintro rfl
    exact absurd hpage (UInt32.not_lt.mpr ha)

end Memory

open Memory (NullPageClear)

theorem State.nullPageClear_access {s : State} {a : Addr} {f : State → StepResult}
    (hs : s.memory.NullPageClear) (hf : nullPage ≤ a → (f s).state.memory.NullPageClear) :
    (s.access a f).state.memory.NullPageClear := by
  unfold access
  split
  · exact hs
  · exact hf (UInt32.not_lt.mp ‹_›)

/-- No operation writes to the null page. -/
theorem State.nullPageClear_exec {s : State} (hs : s.memory.NullPageClear) (op : Op Addr) :
    (s.exec op).state.memory.NullPageClear := by
  cases op with
  | load w =>
    simp only [exec]
    refine nullPageClear_access hs fun _ => ?_
    cases w <;> exact hs
  | store w =>
    simp only [exec]
    refine nullPageClear_access hs fun ha => ?_
    cases w with
    | word => exact hs.writeWord ha _
    | byte => exact hs.write ha _
  | branch | branchZero =>
    simp only [exec]
    split <;> exact hs
  | ecall =>
    simp only [exec, syscall]
    split
    case h_2 => exact nullPageClear_access hs fun _ => hs
    all_goals exact hs
  | _ => exact hs

namespace Image

variable {img : Image} {init s : State}

/-- The states of a machine that is used: freshly loaded, after a run, however it ended, or after a
change of a register. -/
inductive Reached (img : Image) (init : State) : State → Prop
  | init : Reached img init init
  | run {s : State} (h : Reached img init s) (entry : String) (limit : Nat) :
      Reached img init (img.run entry limit s).2
  | setReg {s : State} (h : Reached img init s) (r : Reg)
    (v : Int32) : Reached img init (s.setReg r v)

theorem nullPageClear_runSteps (hs : s.memory.NullPageClear) (limit fuel : Nat) :
    (img.runSteps limit fuel s).2.memory.NullPageClear := by
  induction fuel generalizing s with
  | zero =>
    unfold runSteps
    split <;> exact hs
  | succ fuel ih =>
    unfold runSteps
    split
    · exact hs
    cases hf : img.fetch s.pc with
    | none => exact hs
    | some op =>
      have hstep := State.nullPageClear_exec hs op
      cases he : s.exec op with
      | running s' =>
        simp only [he]
        rw [he] at hstep
        exact ih hstep
      | exited code s' | faulted f s' =>
        simp only [he]
        rw [he] at hstep
        exact hstep

theorem Reached.nullPageClear (h : Reached img init s) (hinit : init.memory.NullPageClear) :
    s.memory.NullPageClear := by
  induction h with
  | init => exact hinit
  | run _ entry limit ih =>
    unfold Image.run
    split
    · exact ih
    · exact nullPageClear_runSteps (s := enter _ _) ih limit limit
  | setReg _ r v ih => exact ih

/-- Data lies above the null page. -/
theorem nullPageClear_of_load {a : Assembly} (h : load a = .ok (img, init))
    (htop : a.dataTop ≤ 4294967296) :
    init.memory.NullPageClear := by
  obtain ⟨m, hm, h⟩ := bind_eq_ok_iff.mp h
  obtain ⟨code, -, h⟩ := bind_eq_ok_iff.mp h
  cases h
  intro b _ hpage
  have hlt : b.toNat < dataBase.toNat := (UInt32.lt_iff_toNat_lt.mp hpage).trans (by decide)
  have hread := read_of_writeData hm htop hlt
  rw [UInt32.ofNat_toNat] at hread
  exact hread.trans (by simp [Memory.read, Memory.empty])

/-- **Reading a string always ends.** In every state of a machine whose data does not wrap around,
the null page is clear from byte 3 on. So a read at any address below the page's end fails, and at
any other there is a first zero byte on the way up and around: the read stops there, whatever more
it might have taken, and gives the text of the bytes before. -/
theorem string_reads_end {a : Assembly} {img : Image} {init s : State}
    (hload : load a = .ok (img, init)) (htop : a.dataTop ≤ 4294967296) (h : Reached img init s) :
    s.memory.NullPageClear ∧ ∀ addr,
      (addr < State.nullPage → s.loadCString addr = .error (.invalidAddress addr s.pc)) ∧
      (State.nullPage ≤ addr → ∃ n < UInt32.size, s.memory.EndsAfter addr n ∧
        let bytes := (List.range n).map fun k => s.memory.read (addr + UInt32.ofNat k)
        (∀ fuel > n, s.memory.bytesFrom fuel addr = bytes) ∧
        s.loadCString addr = .ok (Utf8.decodeLossy bytes)) := by
  have hclear := h.nullPageClear (nullPageClear_of_load hload htop)
  refine ⟨hclear, fun addr => ⟨fun hlt => if_pos hlt, fun hle => ?_⟩⟩
  obtain ⟨n, hn, hend⟩ := hclear.endsAfter addr
  refine ⟨n, hn, hend, fun fuel hfuel => Memory.bytesFrom_of_endsAfter hend hfuel, ?_⟩
  rw [State.loadCString, if_neg (UInt32.not_lt.mpr hle), Memory.cstring,
    Memory.bytesFrom_of_endsAfter hend hn]

/-- A program that stores a word at the top of memory; three bytes of it go to the null page. -/
def storeAtTop : Assembly where
  text := [.label (.global "main"), .op (.li .a0 (-1)), .op (.store .word .a0 .a0 0)]

/-- A string that begins at the top of memory has four bytes then: the next one is zero. -/
theorem storeAtTop_read_ends :
    ∃ img init, load storeAtTop = .ok (img, init) ∧ (img.run "main" 2 init).2.memory.read 2 = 255 ∧
      (img.run "main" 2 init).2.memory.read 3 = 0 ∧
      ∃ n, (img.run "main" 2 init).2.memory.EndsAfter 0xffffffff n := by
  have hcheck : (load storeAtTop).toOption.any
      (fun r => (r.1.run "main" 2 r.2).2.memory.read 2 == 255) = true := by decide +kernel
  obtain ⟨⟨img, init⟩, hload, hread⟩ := exists_ok_of_any hcheck
  obtain ⟨hclear, hreads⟩ := string_reads_end hload (by decide) (.run .init "main" 2)
  obtain ⟨n, -, hend, -⟩ := (hreads 0xffffffff).2 (by decide)
  exact ⟨img, init, hload, beq_iff_eq.mp hread, hclear 3 (by decide) (by decide), n, hend⟩

end Image

end ChocoRV
