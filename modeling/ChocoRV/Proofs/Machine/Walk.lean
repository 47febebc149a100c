import Mathlib
import ChocoRV.Proofs.Machine.Place
import ChocoRV.Proofs.Machine.Run
import ChocoRV.Proofs.Machine.State

/-!
# Walks through a program

`Image.Holds` says that a stream stands at a place of a loaded program, with its labels. A walk is a
sequence of steps with a property of every state it leaves, so that what a walk avoids is known of a
whole run: of one that exits, and of one that walks on for ever.
-/

namespace ChocoRV

open Assembly

namespace Image

/-! ## Walks -/

/-- After `n` steps from `s` the program is in state `s'`, and every state before was in `Q`. -/
inductive Walk (img : Image) (Q : State → Prop) : Nat → State → State → Prop
  | refl (s : State) : Walk img Q 0 s s
  | step {n : Nat} {s s' s'' : State} {op : Op Addr} (hq : Q s) (hf : img.fetch s.pc = some op)
      (he : s.exec op = .running s') (h : Walk img Q n s' s'') : Walk img Q (n + 1) s s''

namespace Walk

variable {img : Image} {Q : State → Prop} {n m : Nat} {s s' s'' : State}

theorem trans (h : Walk img Q n s s') (h' : Walk img Q m s' s'') : Walk img Q (n + m) s s'' := by
  induction h with
  | refl s =>
    rw [Nat.zero_add]
    exact h'
  | step hq hf he _ ih =>
    rw [Nat.add_right_comm]
    exact .step hq hf he (ih h')

theorem steps (h : Walk img Q n s s') : Steps img n s s' := by
  induction h with
  | refl s => exact .refl s
  | step _ hf he _ ih => exact .step hf he ih

/-- A run that is shorter than a walk is at one of its states. -/
theorem visits (h : Walk img Q n s s') (hs : Steps img m s s'') (hlt : m < n) : Q s'' := by
  induction h generalizing m with
  | refl s => exact absurd hlt (Nat.not_lt_zero m)
  | step hq hf he _ ih =>
    cases hs with
    | refl => exact hq
    | step hf' he' hs =>
      rw [hf] at hf'
      cases hf'
      rw [he] at he'
      cases he'
      exact ih hs (Nat.lt_of_succ_lt_succ hlt)

end Walk

/-! ## Code at a place -/

/-- From instruction `k` on, the program consists of these items, with addresses for labels, and all
of their instructions are in `inside`. -/
def Holds (img : Image) (inside : Nat → Prop) : Nat → List Item → Prop
  | _, [] => True
  | k, .label l :: rest => find img.labels l.name = .ok (pcOf k) ∧ Holds img inside k rest
  | k, .instr i :: rest =>
    ((∃ op, img.code[k]? = some op ∧ i.op.resolve (fun l => find img.labels l.name) = .ok op) ∧
      inside k) ∧ Holds img inside (k + 1) rest

section Holds

variable {img : Image} {inside : Nat → Prop} {k : Nat}

@[simp] theorem holds_nil : img.Holds inside k [] := trivial

theorem holds_label {l : Label} {rest : List Item} :
    img.Holds inside k (.label l :: rest) ↔
      find img.labels l.name = .ok (pcOf k) ∧ img.Holds inside k rest := Iff.rfl

theorem holds_instr {i : Instr} {rest : List Item} :
    img.Holds inside k (.instr i :: rest) ↔
      ((∃ op, img.code[k]? = some op ∧ i.op.resolve (fun l => find img.labels l.name) = .ok op) ∧
        inside k) ∧ img.Holds inside (k + 1) rest := Iff.rfl

theorem holds_append {xs ys : List Item} :
    img.Holds inside k (xs ++ ys) ↔
      img.Holds inside k xs ∧ img.Holds inside (k + (instrs xs).length) ys := by
  induction xs generalizing k with
  | nil => exact (true_and _).symm.to_iff
  | cons x xs ih =>
    cases x with
    | label l =>
      rw [List.cons_append, holds_label, holds_label, ih, instrs_cons_label, and_assoc]
    | instr i =>
      rw [List.cons_append, holds_instr, holds_instr, ih, instrs_cons_instr, List.length_cons,
        Nat.add_right_comm, Nat.add_assoc]
      exact and_assoc.symm

/-- It only matters where the items themselves are. -/
theorem Holds.within {inside' : Nat → Prop} {items : List Item} (h : img.Holds inside k items)
    (hin : ∀ j, k ≤ j → j < k + (instrs items).length → inside' j) : img.Holds inside' k items := by
  induction items generalizing k with
  | nil => trivial
  | cons x items ih =>
    cases x with
    | label l => exact ⟨h.1, ih h.2 hin⟩
    | instr i =>
      rw [instrs_cons_instr, List.length_cons] at hin
      exact ⟨⟨h.1.1, hin k (Nat.le_refl k) (by omega)⟩,
        ih h.2 fun j hj hlt => hin j (by omega) (by omega)⟩

/-- Without labels, only the instructions count. -/
theorem holds_of_codeAt {items : List Item} (h : img.CodeAt k (instrs items))
    (hlabels : ∀ l, .label l ∉ items) : img.Holds (fun _ => True) k items := by
  induction items generalizing k with
  | nil => trivial
  | cons x items ih =>
    have hrest : ∀ l, .label l ∉ items := fun l hl => hlabels l (List.mem_cons_of_mem _ hl)
    cases x with
    | label l => exact absurd List.mem_cons_self (hlabels l)
    | instr i =>
      rw [instrs_cons_instr, codeAt_cons] at h
      exact ⟨⟨h.1, trivial⟩, ih h.2 hrest⟩

/-- A program holds a part of its text whose labels are found at their places. -/
theorem holds_of_labels {a : Assembly} {s : State} (hload : load a = .ok (img, s))
    {pre mid post : List Item} (htext : a.text = pre ++ (mid ++ post))
    (hlabels : ∀ front l back, mid = front ++ .label l :: back →
      find img.labels l.name = .ok (pcOf (instrs (pre ++ front)).length))
    (hin : ∀ j < (instrs mid).length, inside ((instrs pre).length + j)) :
    img.Holds inside (instrs pre).length mid := by
  induction mid generalizing pre with
  | nil => trivial
  | cons x mid ih =>
    have hsplit : a.text = (pre ++ [x]) ++ (mid ++ post) := by
      rw [htext, List.append_assoc, List.cons_append, List.singleton_append]
    have hrest := ih hsplit fun front l back hmid => by
      rw [List.append_assoc, List.singleton_append]
      exact hlabels (x :: front) l back (by rw [hmid, List.cons_append])
    rw [instrs_append, List.length_append] at hrest
    cases x with
    | label l =>
      refine ⟨?_, hrest hin⟩
      have hl := hlabels [] l mid rfl
      rwa [List.append_nil] at hl
    | instr i =>
      rw [instrs_cons_instr, List.length_cons] at hin
      refine ⟨⟨?_, hin 0 (Nat.succ_pos _)⟩, hrest fun j hj => ?_⟩
      · have hi : (instrs a.text)[(instrs pre).length]? = some i := by
          rw [htext, instrs_append, List.getElem?_append_right (Nat.le_refl _), Nat.sub_self]
          rfl
        rw [labels_of_load hload]
        exact getElem?_of_load hload hi
      · have := hin (1 + j) (by omega)
        rwa [← Nat.add_assoc] at this

end Holds

/-! ## Steps of a walk -/

/-- The next operation is one of those in `inside` and touches no byte but those in `clear`. -/
def Safe (img : Image) (inside : Nat → Prop) (clear : Addr → Prop) (s : State) : Prop :=
  ∃ k op, s.pc = pcOf k ∧ img.code[k]? = some op ∧ inside k ∧ ∀ a, s.Touches op a → clear a

end Image

/-- An operation that computes a word from registers. -/
def Op.computes {τ : Type} : Op τ → Bool
  | .alu .. | .aluImm .. | .shift .. | .li .. | .unary .. => true
  | _ => false

/-- The state after an operation that computes a word. -/
def State.compute {τ : Type} (s : State) : Op τ → State
  | .alu op rd a b => s.put rd (op.eval (s.reg a) (s.reg b))
  | .aluImm op rd a n => s.put rd (op.eval (s.reg a) n)
  | .shift op rd a k => s.put rd (op.eval (s.reg a) k)
  | .li rd n => s.put rd n
  | .unary op rd a => s.put rd (op.eval (s.reg a))
  | _ => s

/-- All that differs between two states is where they are and what is in some registers. -/
structure State.Differs (rs : List Reg) (s s' : State) : Prop where
  regs : ∀ q ∉ rs, s'.reg q = s.reg q
  memory : s'.memory = s.memory
  brk : s'.brk = s.brk
  stdout : s'.stdout = s.stdout

namespace State.Differs

variable {rs : List Reg} {s s' s'' : State}

theorem goto (s : State) (a : Addr) : s.Differs rs (s.goto a) := ⟨fun _ _ => rfl, rfl, rfl, rfl⟩

theorem mono {rs' : List Reg} (h : s.Differs rs s') (hrs : rs ⊆ rs') : s.Differs rs' s' :=
  ⟨fun q hq => h.regs q fun hmem => hq (hrs hmem), h.memory, h.brk, h.stdout⟩

theorem trans (h : s.Differs rs s') (h' : s'.Differs rs s'') : s.Differs rs s'' :=
  ⟨fun q hq => (h'.regs q hq).trans (h.regs q hq), h'.memory.trans h.memory, h'.brk.trans h.brk,
    h'.stdout.trans h.stdout⟩

theorem put {rd : Reg} (hrd : rd ∈ rs) (s : State) (v : Int32) : s.Differs rs (s.put rd v) :=
  ⟨fun _ hq => s.reg_put_of_ne v fun e => hq (e ▸ hrd), rfl, rfl, rfl⟩

theorem compute {o : Op Label} (hdef : ∀ rd, o.def? = some rd → rd ∈ rs) (s : State) :
    s.Differs rs (s.compute o) := by
  cases o with
  | alu | aluImm | shift | li | unary => exact put (hdef _ rfl) s _
  | _ => exact ⟨fun _ _ => rfl, rfl, rfl, rfl⟩

theorem computeAll {os : List (Op Label)} (hdef : ∀ o ∈ os, ∀ rd, o.def? = some rd → rd ∈ rs)
    (s : State) : s.Differs rs (os.foldl State.compute s) := by
  induction os generalizing s with
  | nil => exact ⟨fun _ _ => rfl, rfl, rfl, rfl⟩
  | cons o os ih =>
    rw [List.forall_mem_cons] at hdef
    exact (compute hdef.1 s).trans (ih hdef.2 _)

end State.Differs

namespace Image.Holds

variable {img : Image} {inside : Nat → Prop} {clear : Addr → Prop} {k : Nat} {s : State}
variable {rest : List Item} {c : Option String}

/-- What all steps have in common. -/
theorem walk_one (hfit : img.Unwrapped) {op : Op Addr} {s' : State} (hpc : s.pc = pcOf k)
    (hop : img.code[k]? = some op) (hin : inside k) (hclear : ∀ a, s.Touches op a → clear a)
    (he : s.exec op = .running s') : Walk img (Safe img inside clear) 1 s s' := by
  have hf := hfit.fetch_of_getElem? hop
  rw [← hpc] at hf
  exact .step ⟨k, op, hpc, hop, hin, hclear⟩ hf he (.refl s')

theorem walk_lw (hfit : img.Unwrapped) {rd base : Reg} {n : Int32}
    (h : img.Holds inside k (.instr ⟨.lw rd base n, c⟩ :: rest))
    (hvalid : State.nullPage ≤ s.addrOf base n)
    (hclear : ∀ b, Addr.InWord (s.addrOf base n) b → clear b) (hpc : s.pc = pcOf k) :
    Walk img (Safe img inside clear) 1 s (s.put rd (s.memory.readWord (s.addrOf base n))) := by
  obtain ⟨⟨⟨op, hop, hres⟩, hin⟩, -⟩ := h
  cases hres
  refine walk_one hfit hpc hop hin (fun a ha => hclear a ha.2) ?_
  rw [State.exec, State.access_of_le hvalid]

theorem walk_sw (hfit : img.Unwrapped) {src base : Reg} {n : Int32}
    (h : img.Holds inside k (.instr ⟨.sw src base n, c⟩ :: rest))
    (hvalid : State.nullPage ≤ s.addrOf base n)
    (hclear : ∀ b, Addr.InWord (s.addrOf base n) b → clear b) (hpc : s.pc = pcOf k) :
    Walk img (Safe img inside clear) 1 s
      { s with memory := s.memory.writeWord (s.addrOf base n) (s.reg src), pc := s.pc + 4 } := by
  obtain ⟨⟨⟨op, hop, hres⟩, hin⟩, -⟩ := h
  cases hres
  refine walk_one hfit hpc hop hin (fun a ha => hclear a ha.2) ?_
  rw [State.exec, State.access_of_le hvalid]

end Image.Holds

end ChocoRV
