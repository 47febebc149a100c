import Mathlib
import ChocoRV.Proofs.Draft.Nesting

/-!
# Registers for nested temporaries

Going through nested events, the supply hands out slots like a stack: a temporary that is taken
while `k` others are held gets slot `k`. So every temporary keeps the slot of its take, and the code
over registers is the code over temporaries with a fixed register in place of each temporary, the
one that its take was given (`run_eq_place`).
-/

namespace ChocoRV

namespace Reg

/-- The register that stands for an operand where temporary `n` has been given the `n`-th of the
registers. -/
def place (granted : List PhysReg) : Reg → Reg
  | .phys p => .phys p
  | .virt n =>
    match granted[n]? with
    | some p => .phys p
    | none => .virt n

end Reg

namespace Item

/-- An item with registers in place of temporaries. All else stays: the label, or the operation with
its constant and its target, and the comment. -/
def place (granted : List PhysReg) : Item → Item
  | .label l => .label l
  | .instr i => .instr { i with op := i.op.mapRegs (·.place granted) (·.place granted) }

end Item

/-- The second item is the first one with the granted registers in place of its temporaries, all of
which have been granted one: labels are the same, and so are the operations with their constants and
targets, the comments, and all operands that are not temporaries. -/
inductive Item.PlacedAs (granted : List PhysReg) : Item → Item → Prop
  | label (l : Label) : PlacedAs granted (.label l) (.label l)
  | instr (i : Instr) (taken : ∀ t ∈ i.op.virts, t < granted.length) :
      PlacedAs granted (.instr i)
        (.instr ⟨i.op.mapRegs (·.place granted) (·.place granted), i.comment⟩)

/-- Items in which only temporaries with a granted register occur. -/
theorem Item.forall₂_placedAs {granted : List PhysReg} {items : List Item}
    (h : ∀ i, .instr i ∈ items → ∀ t ∈ i.op.virts, t < granted.length) :
    List.Forall₂ (PlacedAs granted) items (items.map (Item.place granted)) := by
  rw [List.forall₂_map_right_iff]
  refine List.forall₂_same.mpr fun x hx => ?_
  cases x with
  | label l => exact .label l
  | instr i => exact .instr i (h i hx)

namespace Op

variable {τ : Type}

/-- Only what is put in place of the registers that an operation mentions matters. -/
theorem mapRegs_congr {src dst f g : Reg → Reg} {o : Op τ} (hsrc : ∀ r ∈ o.uses, src r = f r)
    (hdst : ∀ r ∈ o.def?, dst r = g r) : o.mapRegs src dst = o.mapRegs f g := by
  cases o with
  | alu | aluImm | shift | li | la | unary | load | store | callReg | jumpReg | branch
  | branchZero => simp_all [mapRegs, def?, uses]
  | jump | call | ecall => rfl

end Op

namespace Supply

/-- The registers that the takes among events are given, in order. -/
def granted (pool : List PhysReg) : Supply → List Event → List PhysReg
  | _, [] => []
  | s, .item _ :: rest => granted pool s rest
  | s, .take t _ _ :: rest =>
    match s.free? pool.length with
    | some k => pool[k]?.toList ++ granted pool (s.take t k) rest
    | none => []
  | s, .release t :: rest => granted pool (s.release t) rest

/-- The supply while the temporaries `H` are held and `n` have been taken: each of `H` has the slot
whose number is how many were held when it was taken, and these slots are the ones in use. -/
structure Stacked (s : Supply) (n : Nat) (H : List Nat) : Prop where
  busy : ∀ k, k ∈ s.busy ↔ k < H.length
  slot : ∀ t H', (t :: H') <:+ H → s.slots.lookup t = some H'.length
  fresh : ∀ t, n ≤ t → s.slots.lookup t = none
  taken : ∀ t ∈ H, t < n

theorem stacked_init : Stacked {} 0 [] where
  busy k := by simp
  slot t H' h := by simp at h
  fresh t _ := rfl
  taken t h := by simp at h

namespace Stacked

variable {s : Supply} {n : Nat} {H : List Nat}

/-- The next slot is the first one above those of the held temporaries. -/
theorem free?_eq (hs : s.Stacked n H) (size : Nat) :
    s.free? size = if H.length < size then some H.length else none := by
  have hfree : ∀ k, (!s.busy.contains k) = true ↔ H.length ≤ k := by
    intro k
    rw [Bool.not_eq_true', ← Bool.not_eq_true, List.contains_iff_mem, hs.busy, Nat.not_lt]
  split
  · next hlt =>
    rw [free?, List.find?_range_eq_some]
    refine ⟨(hfree _).mpr (Nat.le_refl _), List.mem_range.mpr hlt, fun j hj => ?_⟩
    have := mt (hfree j).mp (Nat.not_le.mpr hj)
    simpa using this
  · next hge =>
    rw [free?, List.find?_range_eq_none]
    intro k hk
    have := mt (hfree k).mp (by omega)
    simpa using this

theorem take (hs : s.Stacked n H) : (s.take n H.length).Stacked (n + 1) (n :: H) where
  busy k := by
    simp only [Supply.take, List.mem_cons, hs.busy, List.length_cons]
    omega
  slot t H' h := by
    rcases List.suffix_cons_iff.mp h with heq | h
    · obtain ⟨rfl, rfl⟩ := List.cons.inj heq
      rw [lookup_take, if_pos rfl]
    · have ht : t < n := hs.taken t (h.subset (List.mem_cons_self ..))
      rw [lookup_take, if_neg (by omega)]
      exact hs.slot t H' h
  fresh t ht := by
    rw [lookup_take, if_neg (by omega)]
    exact hs.fresh t (by omega)
  taken t ht := by
    rcases List.mem_cons.mp ht with rfl | ht
    · omega
    · have := hs.taken t ht
      omega

theorem release {t : Nat} (hs : s.Stacked n (t :: H)) : (s.release t).Stacked n H := by
  have hk : s.slots.lookup t = some H.length := hs.slot t H (List.suffix_refl _)
  have hr : s.release t = { s with busy := s.busy.filter (· != H.length) } := by
    rw [Supply.release, hk]
    rfl
  rw [hr]
  refine ⟨fun k => ?_, fun u H' h => ?_, hs.fresh, fun u hu => ?_⟩
  · simp only [List.mem_filter, hs.busy, List.length_cons, bne_iff_ne, ne_eq]
    omega
  · exact hs.slot u H' (h.trans (List.suffix_cons t H))
  · exact hs.taken u (List.mem_cons_of_mem t hu)

end Stacked

variable {pool : List PhysReg} {n n' : Nat} {H H' : List Nat} {evs : List Event} {s final : Supply}
  {items : List Item}

/-- What a successful pass over an item has done. -/
theorem run_item_eq_ok {i : Item}
    (h : run pool s (.item i :: evs) = .ok (items, final)) :
    ∃ rest, run pool s evs = .ok (rest, final) ∧ items = s.item pool i :: rest := by
  rw [run] at h
  cases hr : run pool s evs with
  | error e => rw [hr] at h; exact nomatch h
  | ok p =>
    obtain ⟨rest, last⟩ := p
    rw [hr] at h
    obtain ⟨rfl, rfl⟩ := Prod.mk.inj (Except.ok.inj h)
    exact ⟨rest, rfl, rfl⟩

/-- What a successful pass over a take has done: there was a slot left. -/
theorem run_take_eq_ok {what : String} {span : Span} (hs : s.Stacked n H)
    (h : run pool s (.take n what span :: evs) = .ok (items, final)) :
    H.length < pool.length ∧ run pool (s.take n H.length) evs = .ok (items, final) := by
  rw [run, hs.free?_eq] at h
  split at h
  · next heq =>
    split at heq
    · next hlt =>
      cases heq
      exact ⟨hlt, h⟩
    · exact nomatch heq
  · exact nomatch h

/-- The pass keeps the order of the slots, and no temporary taken before loses its slot. -/
theorem run_stacked (h : Nested n H evs n' H') (hs : s.Stacked n H)
    (hr : run pool s evs = .ok (items, final)) :
    final.Stacked n' H' ∧ ∀ t < n, final.slots.lookup t = s.slots.lookup t := by
  induction h generalizing s items with
  | nil =>
    obtain ⟨rfl, rfl⟩ := Prod.mk.inj (Except.ok.inj hr)
    exact ⟨hs, fun _ _ => rfl⟩
  | label _ ih | instr _ _ ih =>
    obtain ⟨rest, hr, -⟩ := run_item_eq_ok hr
    exact ih hs hr
  | @take n _ H _ _ _ _ _ ih =>
    obtain ⟨-, hr⟩ := run_take_eq_ok hs hr
    obtain ⟨hf, hkeep⟩ := ih hs.take hr
    refine ⟨hf, fun t ht => ?_⟩
    rw [hkeep t (by omega), lookup_take, if_neg (by omega)]
  | @release n _ t H _ _ _ ih =>
    obtain ⟨hf, hkeep⟩ := ih hs.release hr
    refine ⟨hf, fun u hu => ?_⟩
    rw [hkeep u hu, Supply.release, hs.slot t H (List.suffix_refl _)]
    rfl

/-- The `t`-th register that is granted is the one of the slot of the `t`-th temporary taken. -/
theorem granted_getElem? (h : Nested n H evs n' H') (hs : s.Stacked n H)
    (hr : run pool s evs = .ok (items, final)) (t : Nat) :
    (granted pool s evs)[t]? = (final.slots.lookup (n + t)).bind (pool[·]?) := by
  induction h generalizing s items t with
  | nil =>
    obtain ⟨rfl, rfl⟩ := Prod.mk.inj (Except.ok.inj hr)
    rw [granted, hs.fresh _ (Nat.le_add_right ..)]
    rfl
  | label _ ih | instr _ _ ih =>
    obtain ⟨rest, hr, -⟩ := run_item_eq_ok hr
    exact ih hs hr t
  | @take n _ H _ what span evs h ih =>
    obtain ⟨hlt, hr⟩ := run_take_eq_ok hs hr
    have hg : granted pool s (.take n what span :: evs) =
        pool[H.length] :: granted pool (s.take n H.length) evs := by
      rw [granted, hs.free?_eq, if_pos hlt]
      simp [List.getElem?_eq_getElem hlt]
    rw [hg]
    cases t with
    | zero =>
      have hslot : final.slots.lookup n = some H.length := by
        rw [(run_stacked h hs.take hr).2 n (by omega)]
        exact hs.take.slot n H (List.suffix_refl _)
      simp [hslot, List.getElem?_eq_getElem hlt]
    | succ t =>
      rw [List.getElem?_cons_succ, ih hs.take hr t]
      congr 2
      omega
  | release _ ih => exact ih hs.release hr t

/-- The code over registers is the code over temporaries, each temporary replaced by the register
that it has at the end. -/
theorem run_items (h : Nested n H evs n' H') (hs : s.Stacked n H)
    (hr : run pool s evs = .ok (items, final)) :
    items = (Body.draftItems evs).map (final.item pool) := by
  induction h generalizing s items with
  | nil =>
    obtain ⟨rfl, rfl⟩ := Prod.mk.inj (Except.ok.inj hr)
    rfl
  | label _ ih =>
    obtain ⟨rest, hrest, rfl⟩ := run_item_eq_ok hr
    rw [ih hs hrest]
    rfl
  | @instr n _ H _ i evs held h ih =>
    obtain ⟨rest, hrest, rfl⟩ := run_item_eq_ok hr
    -- The temporaries of the instruction are held here, so their slots are the final ones.
    have hsame : ∀ r ∈ i.op.regs, s.reg pool r = final.reg pool r := by
      intro r hmem
      cases r with
      | phys p => rfl
      | virt t =>
        have ht : t < n := hs.taken t (held t (Op.mem_virts_iff.mpr hmem))
        simp only [reg, (run_stacked h hs hrest).2 t ht]
    rw [ih hs hrest]
    show Item.instr _ :: _ = Item.instr _ :: _
    rw [Op.mapRegs_congr (fun r hr => hsame r (List.mem_append_right _ hr)) fun r hr =>
      hsame r (List.mem_append_left _ (Option.mem_toList.mpr hr))]
    rfl
  | take _ ih =>
    obtain ⟨-, hr⟩ := run_take_eq_ok hs hr
    exact ih hs.take hr
  | release _ ih => exact ih hs.release hr

/-- **Fixed registers.** The code that the supply makes of nested events is the code over
temporaries with the register in place of each temporary that its take was given. -/
theorem run_eq_place (h : Nested 0 [] evs n' H') (hr : run pool {} evs = .ok (items, final)) :
    items = (Body.draftItems evs).map (Item.place (granted pool {} evs)) := by
  rw [run_items h stacked_init hr]
  refine List.map_congr_left fun i _ => ?_
  have hreg : final.reg pool = Reg.place (granted pool {} evs) := by
    funext r
    cases r with
    | phys p => rfl
    | virt t =>
      have hg := granted_getElem? h stacked_init hr t
      rw [Nat.zero_add] at hg
      show (match (final.slots.lookup t).bind (pool[·]?) with
        | some p => Reg.phys p
        | none => Reg.virt t) = Reg.place (granted pool {} evs) (.virt t)
      rw [Reg.place, hg]
  cases i with
  | label l => rfl
  | instr i => simp only [item, Item.place, hreg]

/-- Every take is given a register, so that no temporary is left over. -/
theorem granted_length (h : Nested n H evs n' H') (hs : s.Stacked n H)
    (hr : run pool s evs = .ok (items, final)) : n + (granted pool s evs).length = n' := by
  induction h generalizing s items with
  | nil => rfl
  | label _ ih | instr _ _ ih =>
    obtain ⟨rest, hr, -⟩ := run_item_eq_ok hr
    exact ih hs hr
  | @take n _ H _ _ _ evs h ih =>
    obtain ⟨hlt, hr⟩ := run_take_eq_ok hs hr
    have := ih hs.take hr
    rw [granted, hs.free?_eq, if_pos hlt]
    simp only [List.getElem?_eq_getElem hlt, Option.toList, List.singleton_append,
      List.length_cons]
    omega
  | release _ ih => exact ih hs.release hr

end Supply

end ChocoRV
