import Mathlib
import ChocoRV.Proofs.Draft.Units
import ChocoRV.Proofs.Stack.Levels

/-!
# Temporaries that hold a value

A temporary is written before it is read, on every way through the code. `Filled` goes along the
events of a draft with the temporaries that have been written on every way to a place and have not
been released since:

- an instruction reads only temporaries that are filled, and fills the one that it writes,
- every label has its own filled temporaries, and whatever jumps to it, or runs into it, has filled
  at least those,
- a temporary that has been released is not filled any more.

`Traced.follows` shows it of the events of every draft, together with the rooms that are open along
them.
-/

namespace ChocoRV

open Draft (Context Scene)

/-! ## Events -/

/-- An operand that is no temporary or one of those in `F`. -/
def Reg.FilledIn (F : List Nat) (r : Reg) : Prop := ∀ t ∈ r.virt?, t ∈ F

@[simp] theorem Reg.filledIn_phys {F : List Nat} {p : PhysReg} : (Reg.phys p).FilledIn F := by
  intro t ht
  cases ht

@[simp] theorem Reg.filledIn_virt {F : List Nat} {t : Nat} : (Reg.virt t).FilledIn F ↔ t ∈ F := by
  simp [FilledIn, virt?]

theorem Reg.Readable.filledIn {F : List Nat} {r : Reg} (h : r.Readable F) : r.FilledIn F := by
  cases r with
  | phys p => exact filledIn_phys
  | virt t => exact filledIn_virt.mpr h

theorem Reg.FilledIn.mono {F F' : List Nat} {r : Reg} (h : r.FilledIn F) (hsub : F ⊆ F') :
    r.FilledIn F' := fun t ht => hsub (h t ht)

/-- The temporaries that are filled along events: `F` before them and `F'` after them. Forgetting
that a temporary is filled does no harm, so both may be chosen smaller than they are. -/
inductive Filled (unit : String) (L : List (List Nat)) : List Nat → List Event → List Nat → Prop
  | nil {F F' : List Nat} (hsub : F' ⊆ F) : Filled unit L F [] F'
  | take {F F' : List Nat} {t : Nat} {what : String} {span : Span} {evs : List Event}
      (h : Filled unit L F evs F') : Filled unit L F (.take t what span :: evs) F'
  | release {F F₁ F' : List Nat} {t : Nat} {evs : List Event} (hsub : F₁ ⊆ F) (ht : t ∉ F₁)
      (h : Filled unit L F₁ evs F') : Filled unit L F (.release t :: evs) F'
  | label {F K F' : List Nat} {l : Label} {evs : List Event} (hl : l.HasLevel unit L K)
      (hsub : K ⊆ F) (h : Filled unit L K evs F') : Filled unit L F (.item (.label l) :: evs) F'
  | instr {F F₁ F' : List Nat} {i : Instr} {evs : List Event}
      (reads : ∀ r ∈ i.op.uses, r.FilledIn F)
      (aims : ∀ l ∈ i.op.flow.target?,
        (∃ K, l.HasLevel unit L K ∧ K ⊆ F) ∨ l ∈ Routine.errors)
      (hsub : F₁ ⊆ i.op.virtDef?.toList ++ F) (h : Filled unit L F₁ evs F') :
      Filled unit L F (.item (.instr i) :: evs) F'

namespace Filled

variable {unit : String} {L L' : List (List Nat)} {F F₁ F₂ : List Nat} {xs ys : List Event}

/-- It does no harm if more is filled at the start. -/
theorem weaken (h : Filled unit L F₁ xs F₂) (hsub : F₁ ⊆ F) : Filled unit L F xs F₂ := by
  induction h generalizing F with
  | nil hsub' => exact .nil (List.Subset.trans hsub' hsub)
  | take _ ih => exact .take (ih hsub)
  | release hsub' ht h _ => exact .release (List.Subset.trans hsub' hsub) ht h
  | label hl hsub' h _ => exact .label hl (List.Subset.trans hsub' hsub) h
  | instr reads aims hsub' h _ =>
    refine .instr (fun r hr => (reads r hr).mono hsub) (fun l hl => ?_) ?_ h
    · refine (aims l hl).imp_left ?_
      rintro ⟨K, hK, hKF⟩
      exact ⟨K, hK, List.Subset.trans hKF hsub⟩
    · exact List.Subset.trans hsub' (List.append_subset_of_subset_of_subset
        (List.subset_append_left _ _) (List.subset_append_of_subset_right _ hsub))

theorem append (h₁ : Filled unit L F xs F₁) (h₂ : Filled unit L F₁ ys F₂) :
    Filled unit L F (xs ++ ys) F₂ := by
  induction h₁ with
  | nil hsub => exact h₂.weaken hsub
  | take _ ih => exact .take (ih h₂)
  | release hsub ht _ ih => exact .release hsub ht (ih h₂)
  | label hl hsub _ ih => exact .label hl hsub (ih h₂)
  | instr reads aims hsub _ ih => exact .instr reads aims hsub (ih h₂)

/-- Labels that join later change nothing. -/
theorem mono (h : Filled unit L F xs F₁) (hL : L <+: L') : Filled unit L' F xs F₁ := by
  induction h with
  | nil hsub => exact .nil hsub
  | take _ ih => exact .take ih
  | release hsub ht _ ih => exact .release hsub ht ih
  | label hl hsub _ ih => exact .label (hl.mono hL) hsub ih
  | instr reads aims hsub _ ih =>
    refine .instr reads (fun l hl => (aims l hl).imp_left ?_) hsub ih
    rintro ⟨K, hK, hKF⟩
    exact ⟨K, hK.mono hL, hKF⟩

end Filled

/-! ## Drafts -/

namespace Traced

variable {env : Env} {E : Prop} {σ σ' : Scene} {s s' : Draft.State} {evs : List Event}

/-- Temporaries get new numbers, so those that are held at a time differ. -/
theorem distinct (h : Traced env E σ s evs s' σ') (hσ : σ.held.Nodup)
    (hlt : ∀ t ∈ σ.held, t < s.temps) : σ'.held.Nodup ∧ ∀ t ∈ σ'.held, t < s'.temps := by
  induction h with
  | nil | fresh | intern | literal => exact ⟨hσ, hlt⟩
  | append _ _ ih₁ ih₂ =>
    obtain ⟨hσ₁, hlt₁⟩ := ih₁ hσ hlt
    exact ih₂ hσ₁ hlt₁
  | instr h =>
    rw [Scene.held, h.held_eq]
    exact ⟨hσ, hlt⟩
  | take =>
    refine ⟨List.nodup_cons.mpr ⟨fun hmem => (hlt _ hmem).ne rfl, hσ⟩, ?_⟩
    exact List.forall_mem_cons.mpr ⟨Nat.lt_succ_self _, fun t ht =>
      (hlt t ht).trans (Nat.lt_succ_self _)⟩
  | release h =>
    rw [Scene.held, h, Context.held_push] at hσ hlt
    exact ⟨hσ.of_cons, fun t ht => hlt t (List.mem_cons_of_mem _ ht)⟩
  | label _ hκ =>
    rw [Scene.held, hκ.held]
    exact ⟨hσ, hlt⟩
  | drop _ _ ih => exact ih hσ hlt

/-- Along the events of a draft, each label has what is open there, and whatever reaches it comes
with the same rooms and has filled at least the same temporaries. -/
theorem follows (h : Traced env E σ s evs s' σ') (hσ : σ.held.Nodup)
    (hlt : ∀ t ∈ σ.held, t < s.temps) {L : List Context} (hlen : L.length = s.labels)
    (hL : σ.Knows env.unit L) :
    ∃ L', L <+: L' ∧ L'.length = s'.labels ∧ σ'.Knows env.unit L' ∧
      Along env.unit (L'.map (·.rooms)) σ.rooms (Body.draftItems evs) σ'.rooms ∧
      Filled env.unit (L'.map (·.filled)) σ.filled evs σ'.filled := by
  induction h generalizing L with
  | nil => exact ⟨L, List.prefix_rfl, hlen, hL, .nil _, .nil (List.Subset.refl _)⟩
  | intern c =>
    refine ⟨L, List.prefix_rfl, hlen, fun l κ hl => ?_, .nil _, .nil (List.Subset.refl _)⟩
    rcases List.mem_cons.mp hl with heq | hl
    · cases heq
    · exact hL l κ hl
  | append h₁ _ ih₁ ih₂ =>
    obtain ⟨hσ₁, hlt₁⟩ := h₁.distinct hσ hlt
    obtain ⟨L₁, hL₁, hlen₁, hknows₁, halong₁, hfilled₁⟩ := ih₁ hσ hlt hlen hL
    obtain ⟨L₂, hL₂, hlen₂, hknows₂, halong₂, hfilled₂⟩ := ih₂ hσ₁ hlt₁ hlen₁ hknows₁
    refine ⟨L₂, hL₁.trans hL₂, hlen₂, hknows₂, ?_, (hfilled₁.mono (hL₂.map _)).append hfilled₂⟩
    rw [Body.draftItems, List.filterMap_append]
    exact (halong₁.mono (hL₂.map _)).append halong₂
  | instr h =>
    refine ⟨L, List.prefix_rfl, hlen, hL, .instr (h.shifts hL) (.nil _),
      .instr (fun r hr => Reg.Readable.filledIn (h.allowed.reads r hr)) (fun l hl => ?_)
        h.filled_subset
        (.nil (List.Subset.refl _))⟩
    rcases h.flows l hl with herror | ⟨κ', hmem, hfilled, -⟩
    · exact .inr herror
    · exact .inl ⟨κ'.filled, hL.hasLevel hmem (·.filled), hfilled⟩
  | take => exact ⟨L, List.prefix_rfl, hlen, hL, .nil _, .take (.nil (List.Subset.refl _))⟩
  | @release _ _ κ t b h =>
    rw [Scene.held, h, Context.held_push] at hσ
    refine ⟨L, List.prefix_rfl, hlen, hL, ?_, .release ?_ ?_ (.nil (List.Subset.refl κ.filled))⟩
    · rw [Scene.rooms, h]
      exact .nil _
    · rw [Scene.filled, h]
      cases b
      · exact List.Subset.refl _
      · exact List.subset_cons_self _ _
    · exact fun hmem => hσ.notMem (κ.filled_subset_held hmem)
  | @fresh _ s κ =>
    refine ⟨L ++ [κ], List.prefix_append _ _, by simp [hlen], ?_, .nil _, .nil (List.Subset.refl _)⟩
    intro l κ' hl
    rcases List.mem_cons.mp hl with heq | hl
    · cases heq
      exact ⟨s.labels, rfl, by rw [← hlen, List.getElem?_concat_length]⟩
    · exact hL.mono (List.prefix_append _ _) l κ' hl
  | label hl hκ ho =>
    refine ⟨L, List.prefix_rfl, hlen, hL, ?_, ?_⟩
    · rw [Scene.rooms, ← hκ.rooms]
      exact .label (hL.hasLevel hl (·.rooms)) (.nil _)
    · exact .label (hL.hasLevel hl (·.filled)) hκ.filled (.nil (List.Subset.refl _))
  | drop _ hΛ ih =>
    obtain ⟨L', hL', hlen', hknows, halong, hfilled⟩ := ih hσ hlt hlen hL
    exact ⟨L', hL', hlen', fun l κ hl => hknows l κ (hΛ hl), halong, hfilled⟩
  | @literal _ s lit type =>
    refine ⟨L, List.prefix_rfl, hlen, hL, ?_, ?_⟩
    · cases (s.pool.literal lit type).1 with
      | word | address => exact .instr (.other ⟨by rintro ⟨⟩, by rintro ⟨⟩, by rintro ⟨⟩⟩
          (by rintro _ ⟨⟩)) (.nil _)
    · cases (s.pool.literal lit type).1 with
      | word | address =>
        exact .instr (by rintro _ ⟨⟩) (by rintro _ ⟨⟩) (List.subset_append_right _ _)
          (.nil (List.Subset.refl _))

end Traced

/-- The draft of a unit begins and ends with no room open and nothing filled. -/
theorem Function.draftOf_follows {table : SymbolTable} {comments : Bool} {body : List Stmt}
    {pool : ConstantPool} {u : Option Nat}
    (h : (draftOf table comments body pool u).value = .ok ()) :
    let unit := (envOf table comments u).unit
    let evs := (draftOf table comments body pool u).events
    ∃ L : List Context, L[0]? = some ⟨[], []⟩ ∧
      Along unit (L.map (·.rooms)) [] (Body.draftItems evs) [] ∧
      Filled unit (L.map (·.filled)) [] evs [] := by
  obtain ⟨L, hL, -, -, halong, hfilled⟩ := (draftOf_traced h).follows List.nodup_nil nofun
    (L := [{}]) rfl Scene.knows_unit
  obtain ⟨more, rfl⟩ := hL
  exact ⟨_, rfl, halong, hfilled⟩

end ChocoRV
