import Mathlib
import ChocoRV.Proofs.Alloc.Rewrite

/-!
# A program over locations

A program whose temporaries have been placed simulates the program before: where the first one is at
instruction `k`, the second one is at the first instruction that comes of it. This needs what
`Assignment.Placed` says of every instruction that the program can reach.
-/

namespace ChocoRV

open Assembly Image

/-- Instruction `k'` may come right after instruction `k`, which performs `o`. -/
inductive Follows (text : List Item) (k : Nat) (o : Op Label) : Nat → Prop
  | next (h : o.flow.falls = true) : Follows text k o (k + 1)
  | target {l l' : Label} {pre post : List Item} (h : o.flow.target? = some l)
      (hsplit : text = pre ++ .label l' :: post) (hname : l'.name = l.name) :
      Follows text k o (instrs pre).length

namespace Assignment

/-- The instructions in `inside` can be carried out over locations, if the temporaries `live k` are
live before instruction `k`. -/
structure Placed (asg : Assignment) (pool : List PhysReg) (a : Assembly) (inside : Nat → Prop)
    (live : Nat → Nat → Prop) : Prop where
  covers {k : Nat} {i : Instr} (hk : inside k) (hi : (instrs a.text)[k]? = some i) :
    asg.Covers pool i.op (live k) fun v => ∃ k', Follows a.text k i.op k' ∧ live k' v
  data {k : Nat} {i : Instr} (hk : inside k) (hi : (instrs a.text)[k]? = some i) {rd : Reg}
    {l : Label} (h : i.op = .la rd l) : ∃ addr, (l.name, addr) ∈ dataLabels dataBase a.data

/-- No operation of the run from `s` touches a byte of the frame words. -/
def Untouched (asg : Assignment) (frame : Int32) (img : Image) (s : State) : Prop :=
  Always img (fun s => ∀ op a, img.fetch s.pc = some op → s.Touches op a → ¬ asg.Slots frame a) s

/-- The run from `s` performs instructions in `inside` only. -/
def Stays (inside : Nat → Prop) (img : Image) (s : State) : Prop :=
  Always img (fun s => ∀ k op, s.pc = pcOf k → img.code[k]? = some op → inside k) s

/-- The two programs are at the same place: at an instruction and at what comes of it, or both
outside of the code. -/
inductive Related (asg : Assignment) (pool : List PhysReg) (frame : Int32) (text : List Item)
    (live : Nat → Nat → Prop) (s₁ s₂ : State) : Prop
  | here (k : Nat) (hle : k ≤ (instrs text).length)
      (agree : asg.Agree pool frame (live k) s₁ s₂) (hpc₁ : s₁.pc = pcOf k)
      (hpc₂ : s₂.pc = pcOf (asg.offset (instrs text) k))
  | lost (h : dataBase ≤ s₁.pc) (heq : s₂.pc = s₁.pc)

section Program

variable {asg : Assignment} {pool : List PhysReg} {frame : Int32} {a : Assembly}
variable {inside : Nat → Prop} {live : Nat → Nat → Prop} {img₁ img₂ : Image} {i₁ i₂ s₁ s₂ : State}

theorem defs_apply (asg : Assignment) (a : Assembly) :
    Assembly.defs ⟨asg.apply a.text, a.data⟩ = a.defs := by
  rw [Assembly.defs, Assembly.defs, (labels_apply asg a.text).1]

/-- A label is at the same place in both programs. -/
theorem find_apply (hnames : a.defs.Nodup) {name : String} {addr₁ addr₂ : Addr}
    (h₁ : find (labelTable a) name = .ok addr₁)
    (h₂ : find (labelTable ⟨asg.apply a.text, a.data⟩) name = .ok addr₂) :
    (∃ pre l post, a.text = pre ++ .label l :: post ∧ l.name = name ∧
      addr₁ = pcOf (instrs pre).length ∧
      addr₂ = pcOf (asg.offset (instrs a.text) (instrs pre).length)) ∨
      ((name, addr₁) ∈ dataLabels dataBase a.data ∧ addr₂ = addr₁) := by
  have hnames₂ : (Assembly.defs ⟨asg.apply a.text, a.data⟩).Nodup := by rwa [defs_apply]
  have hdef : name ∈ a.defs := mem_labelTable.mp (find_ok_iff.mp ⟨addr₁, h₁⟩)
  rcases mem_defs_cases hdef with ⟨pre, l, post, hsplit, rfl⟩ | ⟨addr, haddr⟩
  · refine .inl ⟨pre, l, post, hsplit, rfl, ?_, ?_⟩
    · rw [find_text hnames hsplit] at h₁
      exact (Except.ok.inj h₁).symm
    · have hsplit₂ : asg.apply a.text = asg.apply pre ++ .label l :: asg.apply post := by
        rw [hsplit, apply_append]
        rfl
      rw [find_text hnames₂ hsplit₂] at h₂
      rw [← Except.ok.inj h₂, instrs_apply, offset, hsplit, instrs_append, List.take_left]
  · refine .inr ?_
    have e₁ := (find_data hnames haddr).symm.trans h₁
    have e₂ := (find_data hnames₂ haddr).symm.trans h₂
    cases e₁
    cases e₂
    exact ⟨haddr, rfl⟩

theorem length_le_apply (asg : Assignment) (is : List Instr) :
    is.length ≤ (is.flatMap asg.expand).length := by
  induction is with
  | nil => exact Nat.le_refl 0
  | cons i is ih =>
    have hone : 1 ≤ (asg.expand i).length := by
      rw [expand, applyInstr, instrs_append, instrs_cons_instr, List.length_append,
        List.length_cons]
      omega
    rw [List.flatMap_cons, List.length_append, List.length_cons]
    omega

variable (w : asg.WellPlaced pool) (hvalid : asg.ValidSlots frame)
variable (placed : asg.Placed pool a inside live) (hnames : a.defs.Nodup)
variable (hfits : Assembly.Fits ⟨asg.apply a.text, a.data⟩) (hload₁ : load a = .ok (img₁, i₁))
variable (hload₂ : load ⟨asg.apply a.text, a.data⟩ = .ok (img₂, i₂))

include hfits hload₁ in
theorem fits_of_apply : img₁.Fits := by
  have hlen := length_le_apply asg (instrs a.text)
  have htext := hfits.text
  rw [instrs_apply] at htext
  rw [Image.Fits, size_of_load hload₁]
  omega

include hnames hfits hload₁ hload₂ in
/-- After a step the two programs are at the same place again. -/
theorem related_of_moves {k : Nat} {i : Instr}
    (hi : (instrs a.text)[k]? = some i)
    (hagree : asg.Agree pool frame (fun v => ∃ k', Follows a.text k i.op k' ∧ live k' v) s₁ s₂)
    (hmoves : Moves img₁ img₂ i.op (pcOf (k + 1)) (pcOf (asg.offset (instrs a.text) (k + 1)))
      s₁.pc s₂.pc) : asg.Related pool frame a.text live s₁ s₂ := by
  have hgo (k' : Nat) (hf : Follows a.text k i.op k') :
      asg.Agree pool frame (live k') s₁ s₂ := hagree.mono fun v hv => ⟨k', hf, hv⟩
  rcases hmoves with ⟨hfalls, hpc₁, hpc₂⟩ | ⟨l, htarget, hl₁, hl₂⟩
  · have hag := hgo (k + 1) (.next hfalls)
    exact .here (k + 1) (List.getElem?_eq_some_iff.mp hi).1 hag hpc₁ hpc₂
  · rw [labels_of_load hload₁] at hl₁
    rw [labels_of_load hload₂] at hl₂
    rcases find_apply hnames hl₁ hl₂ with ⟨pre, l', post, hsplit, hname, hpc₁, hpc₂⟩ | ⟨hmem, heq⟩
    · refine .here _ ?_ (hgo _ (.target htarget hsplit hname)) hpc₁ hpc₂
      rw [hsplit, instrs_append, List.length_append]
      exact Nat.le_add_right _ _
    · exact .lost (hfits.data _ hmem) heq

include w hvalid placed hnames hfits hload₁ hload₂ in
/-- What comes of a step of the first program is answered by the second. -/
theorem step_answers {k : Nat} {op : Op Addr} (hk : inside k)
    (hagree : asg.Agree pool frame (live k) s₁ s₂) (hpc₁ : s₁.pc = pcOf k)
    (hpc₂ : s₂.pc = pcOf (asg.offset (instrs a.text) k)) (hop : img₁.code[k]? = some op)
    (htouch : ∀ b, s₁.Touches op b → ¬ asg.Slots frame b) :
    ∃ i, (instrs a.text)[k]? = some i ∧
      asg.Answers pool frame (fun v => ∃ k', Follows a.text k i.op k' ∧ live k' v) img₂
        (Moves img₁ img₂ i.op (pcOf (k + 1)) (pcOf (asg.offset (instrs a.text) (k + 1)))) s₂
        (s₁.exec op) := by
  have hlen : k < (instrs a.text).length := by
    rw [← size_of_load hload₁]
    exact (Array.getElem?_eq_some_iff.mp hop).1
  have hi := List.getElem?_eq_getElem hlen
  refine ⟨_, hi, ?_⟩
  obtain ⟨op', hop', hres⟩ := codeAt_of_load hload₁ k _ hi
  rw [Nat.zero_add, hop] at hop'
  cases hop'
  -- In the second program, what comes of instruction `k` stands at its offset.
  have hcode := codeAt_of_load hload₂
  have hsplit : instrs (asg.apply a.text) = _ := (instrs_apply asg a.text).trans
    (flatMap_expand_split hi)
  rw [hsplit, codeAt_append, Nat.zero_add, codeAt_append] at hcode
  have hla (rd : Reg) (l : Label) (hop : ((instrs a.text)[k]).op = .la rd l) :
      find img₁.labels l.name = find img₂.labels l.name := by
    obtain ⟨addr, haddr⟩ := placed.data hk hi hop
    have hnames₂ : (Assembly.defs ⟨asg.apply a.text, a.data⟩).Nodup := by rwa [defs_apply]
    rw [labels_of_load hload₁, labels_of_load hload₂, find_data hnames haddr,
      find_data hnames₂ haddr]
  rw [offset_succ hi, ← pcOf_add_four, ← hpc₁]
  exact expand_answers w hvalid (fits_of_load hload₂ hfits).unwrapped (placed.covers hk hi) hagree
    hpc₂ hres hcode.2.1 hla htouch

include w hvalid placed hnames hfits hload₁ hload₂ in
/-- A program over locations does what the program over temporaries does. -/
theorem simulation :
    Simulation img₁ img₂
      (fun s₁ s₂ => asg.Related pool frame a.text live s₁ s₂ ∧ asg.Untouched frame img₁ s₁ ∧
        Stays inside img₁ s₁)
      (asg.Agree pool frame fun _ => False) := by
  have hfit₁ := fits_of_apply hfits hload₁
  have hfit₂ := fits_of_load hload₂ hfits
  have hsize₁ := size_of_load hload₁
  have hanswers {s₁ s₂ : State} {k : Nat} {op : Op Addr} (hle : k ≤ (instrs a.text).length)
      (hagree : asg.Agree pool frame (live k) s₁ s₂) (hpc₁ : s₁.pc = pcOf k)
      (hpc₂ : s₂.pc = pcOf (asg.offset (instrs a.text) k)) (hf : img₁.fetch s₁.pc = some op)
      (hun : asg.Untouched frame img₁ s₁) (hin : Stays inside img₁ s₁) :
      ∃ i, (instrs a.text)[k]? = some i ∧
        asg.Answers pool frame (fun v => ∃ k', Follows a.text k i.op k' ∧ live k' v) img₂
          (Moves img₁ img₂ i.op (pcOf (k + 1)) (pcOf (asg.offset (instrs a.text) (k + 1)))) s₂
          (s₁.exec op) := by
    have hop : img₁.code[k]? = some op := by
      rw [hpc₁, hfit₁.fetch (hsize₁ ▸ hle)] at hf
      exact hf
    exact step_answers w hvalid placed hnames hfits hload₁ hload₂
      (hin.now k op hpc₁ hop) hagree hpc₁
      hpc₂ hop (hun.now op · hf)
  refine ⟨?_, ?_, ?_⟩
  · rintro s₁ s₂ s₁' op ⟨hrel, hun, hin⟩ hf he
    cases hrel with
    | lost h heq => exact nomatch (fetch_data hfit₁ h).symm.trans hf
    | here k hle hagree hpc₁ hpc₂ =>
      obtain ⟨i, hi, hans⟩ := hanswers hle hagree hpc₁ hpc₂ hf hun hin
      rw [he] at hans
      obtain ⟨n, s₂', hs, ha, hm⟩ := hans
      exact ⟨n, s₂', hs, related_of_moves hnames hfits hload₁ hload₂ hi ha hm, hun.step hf he,
        hin.step hf he⟩
  · rintro s₁ s₂ code ⟨hrel, hun, hin⟩ hx
    cases hrel with
    | lost h heq =>
      cases hx with
      | halt hpc => exact absurd hpc (data_ne_halt h)
      | exit hf _ => exact nomatch (fetch_data hfit₁ h).symm.trans hf
    | here k hle hagree hpc₁ hpc₂ =>
      cases hx with
      | halt hpc =>
        refine absurd (hpc₁.symm.trans hpc) (pcOf_ne_halt ?_)
        have := hfit₁
        rw [Image.Fits, hsize₁] at this
        omega
      | exit hf he =>
        obtain ⟨i, hi, hans⟩ := hanswers hle hagree hpc₁ hpc₂ hf hun hin
        rw [he, State.exec_exited he] at hans
        exact hans
  · rintro s₁ s₂ f ⟨hrel, hun, hin⟩ hx
    cases hrel with
    | lost h heq =>
      rw [← heq] at h
      exact ⟨0, s₂, _, .refl s₂, .outOfRange (data_ne_halt h) (fetch_data hfit₂ h)⟩
    | here k hle hagree hpc₁ hpc₂ =>
      cases hx with
      | fault hf he =>
        obtain ⟨i, hi, hans⟩ := hanswers hle hagree hpc₁ hpc₂ hf hun hin
        rw [he] at hans
        exact hans
      | outOfRange hpc hf =>
        -- Control has run past the last instruction, and so it has in the second program.
        rw [hpc₁, hfit₁.fetch (hsize₁ ▸ hle)] at hf
        have hk' : k = (instrs a.text).length := by
          have := Array.getElem?_eq_none_iff.mp hf
          omega
        have hend : asg.offset (instrs a.text) k = img₂.code.size := by
          rw [size_of_load hload₂, instrs_apply, hk', offset, List.take_length]
        refine ⟨0, s₂, _, .refl s₂, .outOfRange ?_ ?_⟩
        · rw [hpc₂, hend]
          exact pcOf_ne_halt hfit₂
        · rw [hpc₂, hend, hfit₂.fetch (Nat.le_refl _)]
          exact Array.getElem?_eq_none (Nat.le_refl _)

end Program

end Assignment

end ChocoRV
