import Mathlib
import ChocoRV.Proofs.Constant
import ChocoRV.Proofs.Draft.Rules

/-!
# The events of a draft

`Traced` says the same of a list of events as `Draft.Drawn` of a draft: which instructions may
occur, how temporaries come and go, and how labels and constants come about. `Draft.Drawn.traced`
shows it of everything that a draft yields. What holds of the events of all drafts follows by
induction on it.
-/

namespace ChocoRV

open Draft (Scene Context)

theorem Body.mem_draftItems {i : Item} {evs : List Event} : i ∈ draftItems evs ↔ .item i ∈ evs := by
  simp only [draftItems, List.mem_filterMap]
  constructor
  · rintro ⟨e, he, h⟩
    cases e with
    | item j =>
      cases h
      exact he
    | take | release => exact nomatch h
  · exact fun h => ⟨_, h, rfl⟩

/-- Drafting from state `s`, at a place where `σ` is open, records the events `evs` and ends in
state `s'` at a place where `σ'` is open. -/
inductive Traced (env : Env) (E : Prop) :
    Scene → Draft.State → List Event → Draft.State → Scene → Prop
  | nil {σ : Scene} {s : Draft.State} : Traced env E σ s [] s σ
  | append {σ σ₁ σ₂ : Scene} {s s₁ s₂ : Draft.State} {e₁ e₂ : List Event}
      (h₁ : Traced env E σ s e₁ s₁ σ₁) (h₂ : Traced env E σ₁ s₁ e₂ s₂ σ₂) :
      Traced env E σ s (e₁ ++ e₂) s₂ σ₂
  | instr {σ : Scene} {s : Draft.State} {i : Instr} {κ : Context} (h : i.op.Steps env E σ κ) :
      Traced env E σ s [.item (.instr i)] s { σ with context := κ }
  | take {σ : Scene} {s : Draft.State} (what : String) (span : Span) :
      Traced env E σ s [.take s.temps what span] { s with temps := s.temps + 1 }
        (σ.push s.temps false)
  | release {σ : Scene} {s : Draft.State} {κ : Context} {t : Nat} {b : Bool}
      (h : σ.context = κ.push t b) : Traced env E σ s [.release t] s { σ with context := κ }
  | fresh {σ : Scene} {s : Draft.State} (κ : Context) :
      Traced env E σ s [] { s with labels := s.labels + 1 } (σ.declare (.nth env.unit s.labels) κ)
  | label {σ : Scene} {s : Draft.State} {l : Label} {κ : Context} (hl : (l, some κ) ∈ σ.labels)
      (hκ : σ.context.Becomes none κ) {before after : List Label}
      (ho : σ.owed = before ++ l :: after) :
      Traced env E σ s [.item (.label l)] s { σ with context := κ, owed := before ++ after }
  | drop {σ : Scene} {s s' : Draft.State} {evs : List Event} {κ : Context}
      {Λ Λ' : List (Label × Option Context)} {owed : List Label}
      (h : Traced env E σ s evs s' ⟨κ, Λ', owed⟩)
      (hΛ : Λ ⊆ Λ') : Traced env E σ s evs s' ⟨κ, Λ, owed⟩
  | intern {σ : Scene} {s : Draft.State} (c : Constant) :
      Traced env E σ s [] { s with pool := (s.pool.intern c).2 }
        { σ with labels := ((s.pool.intern c).1, none) :: σ.labels }
  | literal {σ : Scene} {s : Draft.State} (lit : Literal) (type : ValueType) :
      Traced env E σ s [.item (.op ((s.pool.literal lit type).1.load .t0))]
        { s with pool := (s.pool.literal lit type).2 } σ

/-- Whatever a draft yields has been made step by step, and ends as its rules say. -/
theorem Draft.Drawn.traced {α : Type} {env : Env} {E : Prop} {σ : Scene} {x : Draft .virtual α}
    {Q : α → Scene → Prop} {s s' : State} {evs : List Event} {a : α} (h : Drawn env E σ x Q)
    (hy : x.Yields s evs s' a) : ∃ σ', Q a σ' ∧ Traced env E σ s evs s' σ' := by
  induction h generalizing s s' evs with
  | pure b hQ =>
    obtain ⟨rfl, rfl, rfl⟩ := yields_pure_iff.mp hy
    exact ⟨_, hQ, .nil⟩
  | bind _ _ ihx ihf =>
    obtain ⟨e₁, s₁, b, e₂, h₁, h₂, rfl⟩ := yields_bind_iff.mp hy
    obtain ⟨σ₁, hQ, ht₁⟩ := ihx h₁
    obtain ⟨σ₂, hR, ht₂⟩ := ihf b σ₁ hQ h₂
    exact ⟨σ₂, hR, ht₁.append ht₂⟩
  | fail => exact absurd hy not_yields_fail
  | ofExcept =>
    obtain ⟨ha, rfl, rfl⟩ := yields_ofExcept_iff.mp hy
    exact ⟨_, ⟨ha, rfl⟩, .nil⟩
  | record h =>
    obtain ⟨rfl, rfl⟩ := yields_record_iff.mp hy
    exact ⟨_, rfl, .instr h⟩
  | take what span =>
    obtain ⟨rfl, rfl, rfl⟩ := yields_take_iff.mp hy
    exact ⟨_, ⟨_, rfl, rfl⟩, .take what span⟩
  | release h =>
    obtain ⟨rfl, rfl⟩ := yields_release_iff.mp hy
    exact ⟨_, rfl, .release h⟩
  | label κ =>
    obtain ⟨rfl, rfl, rfl⟩ := Env.yields_label_iff.mp hy
    exact ⟨_, rfl, .fresh κ⟩
  | place hl hκ before after ho =>
    obtain ⟨rfl, rfl⟩ := yields_place_iff.mp hy
    exact ⟨_, rfl, .label hl hκ ho⟩
  | drop _ hΛ ih =>
    obtain ⟨_, rfl, ht⟩ := ih hy
    exact ⟨_, rfl, ht.drop hΛ⟩
  | intern c =>
    obtain ⟨rfl, rfl, rfl⟩ := yields_intern_iff.mp hy
    exact ⟨_, rfl, .intern c⟩
  | loadLiteral lit type =>
    obtain ⟨rfl, rfl⟩ := yields_loadLiteral_iff.mp hy
    exact ⟨_, rfl, .literal lit type⟩

/-- What a draft that ends where `τ` is open yields. -/
theorem Draft.Drawn.traced_to {α : Type} {env : Env} {E : Prop} {σ τ : Scene} {x : Draft .virtual α}
    {s s' : State} {evs : List Event} {a : α} (h : Drawn env E σ x fun _ σ' => σ' = τ)
    (hy : x.Yields s evs s' a) : Traced env E σ s evs s' τ := by
  obtain ⟨_, rfl, ht⟩ := h.traced hy
  exact ht

namespace Traced

variable {env : Env} {E : Prop} {σ σ' : Scene} {s s' : Draft.State} {evs : List Event}

/-- Drafting only adds constants. -/
theorem pool_extends (h : Traced env E σ s evs s' σ') : s.pool.entries <+: s'.pool.entries := by
  induction h with
  | nil | instr | take | release | fresh | label => exact List.prefix_rfl
  | append _ _ ih₁ ih₂ => exact ih₁.trans ih₂
  | drop _ _ ih => exact ih
  | @intern _ s c => exact ConstantPool.intern_extends s.pool c
  | @literal _ s lit type => exact ConstantPool.literal_extends s.pool lit type

variable {K : String → Prop}

/-- A label that is to be placed is placed on the way or is still to be placed at the end. -/
theorem owed_in (h : Traced env E σ s evs s' σ') (howed : ∀ l ∈ σ'.owed, K l.name)
    (hplaced : ∀ l, .item (.label l) ∈ evs → K l.name) : ∀ l ∈ σ.owed, K l.name := by
  induction h with
  | nil | instr | take | release | intern | literal => exact howed
  | append _ _ ih₁ ih₂ =>
    exact ih₁ (ih₂ howed fun l hl => hplaced l (List.mem_append_right _ hl))
      fun l hl => hplaced l (List.mem_append_left _ hl)
  | fresh => exact fun l hl => howed l (List.mem_cons_of_mem _ hl)
  | label _ _ ho =>
    intro l hl
    rw [ho, List.mem_append, List.mem_cons] at hl
    rcases hl with hl | rfl | hl
    · exact howed l (List.mem_append_left _ hl)
    · exact hplaced _ (List.mem_singleton.mpr rfl)
    · exact howed l (List.mem_append_right _ hl)
  | drop _ _ ih => exact ih howed hplaced

/-- A set of names holds whatever the instructions aim at if it holds the labels that are known, the
constants and the labels that are placed. -/
theorem targets_in (h : Traced env E σ s evs s' σ') (hΛ : ∀ e ∈ σ.labels, K e.1.name)
    (howed : ∀ l ∈ σ'.owed, K l.name) (hreach : ∀ l, env.Reaches l → K l.name)
    (hconst : ∀ l, s'.pool.Holds l → K l.name)
    (hplaced : ∀ l, .item (.label l) ∈ evs → K l.name) :
    (∀ e ∈ σ'.labels, K e.1.name) ∧
      ∀ i, .item (.instr i) ∈ evs → ∀ l ∈ i.op.target?, K l.name := by
  induction h with
  | nil => exact ⟨hΛ, fun i hi => nomatch hi⟩
  | @append _ _ _ _ _ _ _ e₂ h₁ h₂ ih₁ ih₂ =>
    have hplaced₂ (l : Label) (hl : .item (.label l) ∈ e₂) := hplaced l (List.mem_append_right _ hl)
    obtain ⟨hΛ₁, hi₁⟩ := ih₁ hΛ (h₂.owed_in howed hplaced₂)
      (fun l hl => hconst l (hl.mono h₂.pool_extends))
      fun l hl => hplaced l (List.mem_append_left _ hl)
    obtain ⟨hΛ₂, hi₂⟩ := ih₂ hΛ₁ howed hconst hplaced₂
    exact ⟨hΛ₂, fun i hi => (List.mem_append.mp hi).elim (hi₁ i) (hi₂ i)⟩
  | instr h =>
    refine ⟨hΛ, fun i hi l hl => ?_⟩
    cases List.mem_singleton.mp hi
    rcases h.allowed.aims l hl with ⟨κ, hl⟩ | hl
    · exact hΛ _ hl
    · exact hreach l hl
  | take | release | label => exact ⟨hΛ, fun i hi => nomatch List.mem_singleton.mp hi⟩
  | fresh => exact ⟨List.forall_mem_cons.mpr ⟨howed _ List.mem_cons_self, hΛ⟩,
      fun i hi => nomatch hi⟩
  | drop _ hsub ih =>
    obtain ⟨hΛ', hi⟩ := ih hΛ howed hconst hplaced
    exact ⟨fun e he => hΛ' e (hsub he), hi⟩
  | @intern _ s c =>
    exact ⟨List.forall_mem_cons.mpr ⟨hconst _ (ConstantPool.holds_intern s.pool c), hΛ⟩,
      fun i hi => nomatch hi⟩
  | @literal _ s lit type =>
    refine ⟨hΛ, fun i hi l hl => ?_⟩
    cases List.mem_singleton.mp hi
    cases hv : (s.pool.literal lit type).1 with
    | word n =>
      rw [hv] at hl
      exact nomatch hl
    | address l' =>
      rw [hv] at hl
      cases hl
      exact hconst _ (ConstantPool.holds_literal hv)

end Traced

end ChocoRV
