import Mathlib
import ChocoRV.Draft.Stmt
import ChocoRV.Proofs.Constant

/-!
# What a draft yields

`Draft.Yields x s evs s' a` says that drafting `x` from state `s` succeeds: it records the events
`evs`, leaves the state `s'` and gives the value `a`. The equivalences below take a draft apart, one
for each way in which drafts are made, so that later proofs need not open the monad.
-/

namespace ChocoRV

variable {evs : List Event} {u : Unit}

namespace Draft

variable {α β : Type}

/-- Drafting `x` from `s` succeeds with these events, this state and this value. -/
def Yields (x : Draft .virtual α) (s : State) (evs : List Event) (s' : State) (a : α) : Prop :=
  x s = ⟨evs, s', .ok a⟩

variable {s : State}

/-- A draft whose value is known to be there yields what it has recorded. -/
theorem yields_of_value {x : Draft .virtual α} {a : α} (h : (x s).value = .ok a) :
    x.Yields s (x s).events (x s).state a := by
  show x s = ⟨(x s).events, (x s).state, .ok a⟩
  rw [← h]

variable {s' : State}

/-- Two successful results are the same if all that they hold is. -/
theorem result_eq_iff {e : List Event} {a b : α} :
    (⟨e, s, .ok a⟩ : Result α) = ⟨evs, s', .ok b⟩ ↔ evs = e ∧ s' = s ∧ b = a := by
  rw [ResultOf.mk.injEq, Except.ok.injEq]
  constructor
  · rintro ⟨rfl, rfl, rfl⟩
    exact ⟨rfl, rfl, rfl⟩
  · rintro ⟨rfl, rfl, rfl⟩
    exact ⟨rfl, rfl, rfl⟩

/-- A draft is a function: what it yields from a state is determined. -/
theorem Yields.unique {x : Draft .virtual α} {s₁ s₂ : State} {e₁ e₂ : List Event} {a₁ a₂ : α}
    (h₁ : x.Yields s e₁ s₁ a₁) (h₂ : x.Yields s e₂ s₂ a₂) : e₁ = e₂ ∧ s₁ = s₂ ∧ a₁ = a₂ := by
  exact result_eq_iff.mp (h₂.symm.trans h₁)

theorem yields_pure_iff {a b : α} :
    (pure a : Draft .virtual α).Yields s evs s' b ↔ evs = [] ∧ s' = s ∧ b = a :=
  result_eq_iff

/-- A sequence yields the events of its parts, one after the other. -/
theorem yields_bind_iff {x : Draft .virtual α} {f : α → Draft .virtual β}
    {b : β} : (x >>= f).Yields s evs s' b ↔
      ∃ e₁ s₁ a e₂, x.Yields s e₁ s₁ a ∧ (f a).Yields s₁ e₂ s' b ∧ evs = e₁ ++ e₂ := by
  constructor
  · intro h
    have h : Draft.bind x f s = ⟨evs, s', .ok b⟩ := h
    cases hv : (x s).value with
    | error e =>
      simp only [Draft.bind, hv, ResultOf.mk.injEq] at h
      exact nomatch h.2.2
    | ok a =>
      simp only [Draft.bind, hv, ResultOf.mk.injEq] at h
      obtain ⟨rfl, rfl, hb⟩ := h
      exact ⟨_, _, a, _, yields_of_value hv, yields_of_value hb, rfl⟩
  · rintro ⟨e₁, s₁, a, e₂, hx, hf, rfl⟩
    have hx : x s = ⟨e₁, s₁, .ok a⟩ := hx
    have hf : f a s₁ = ⟨e₂, s', .ok b⟩ := hf
    show Draft.bind x f s = _
    simp only [Draft.bind, hx, hf]

theorem not_yields_fail {e : CompileError}
    {a : α} : ¬ (fail e : Draft .virtual α).Yields s evs s' a := by
  intro h
  have h : (⟨[], s, .error e⟩ : Result α) = ⟨evs, s', .ok a⟩ := h
  simp at h

theorem yields_ofExcept_iff {x : Except CompileError α} {a : α} :
    (ofExcept x).Yields s evs s' a ↔ x = .ok a ∧ evs = [] ∧ s' = s := by
  cases x with
  | error e =>
    constructor
    · intro h
      exact absurd h not_yields_fail
    · rintro ⟨h, -⟩
      exact nomatch h
  | ok b =>
    have h : (ofExcept (.ok b) : Draft .virtual α).Yields s evs s' a ↔ evs = [] ∧ s' = s ∧ a = b :=
      yields_pure_iff
    rw [h]
    constructor
    · rintro ⟨rfl, rfl, rfl⟩
      exact ⟨rfl, rfl, rfl⟩
    · rintro ⟨hab, rfl, rfl⟩
      exact ⟨rfl, rfl, (Except.ok.inj hab).symm⟩

theorem yields_record_iff {e : Event} : (record e).Yields s evs s' u ↔ evs = [e] ∧ s' = s :=
  result_eq_iff.trans (by simp)

theorem yields_emit_iff {o : Op Label} :
    (emit o).Yields s evs s' u ↔ evs = [.item (.op o)] ∧ s' = s :=
  yields_record_iff

theorem yields_place_iff {l : Label} :
    (place l).Yields s evs s' u ↔ evs = [.item (.label l)] ∧ s' = s :=
  yields_record_iff

theorem yields_take_iff {what : String} {span : Span} {r : Reg} :
    (take what span).Yields s evs s' r ↔
      evs = [.take s.temps what span] ∧ s' = { s with temps := s.temps + 1 } ∧
        r = .virt s.temps :=
  result_eq_iff

theorem yields_release_iff {r : Reg} :
    (release r).Yields s evs s' u ↔ evs = (r.virt?.map Event.release).toList ∧ s' = s := by
  cases r with
  | virt t => exact yields_record_iff
  | phys p =>
    have h : (release (.phys p)).Yields s evs s' u ↔ evs = [] ∧ s' = s ∧ u = () := yields_pure_iff
    rw [h]
    simp [Reg.virt?]

theorem yields_intern_iff {c : Constant} {l : Label} : (intern c).Yields s evs s' l ↔
      evs = [] ∧ s' = { s with pool := (s.pool.intern c).2 } ∧ l = (s.pool.intern c).1 :=
  result_eq_iff

/-- The table for code loads the value of a literal. -/
theorem loadLiteral_eq {mode : RegisterMode} (rd : Reg) (lit : Literal) (type : ValueType)
    (s : StateOf mode) :
    loadLiteral rd lit type s = ⟨[.item (.op ((s.pool.literal lit type).1.load rd))],
      { s with pool := (s.pool.literal lit type).2 }, .ok ()⟩ := by
  cases lit with
  | int n | bool b =>
    unfold loadLiteral ConstantPool.literal
    dsimp only
    split <;> rfl
  | str s | none => rfl

theorem yields_loadLiteral_iff {rd : Reg} {lit : Literal} {type : ValueType} :
    (loadLiteral rd lit type).Yields s evs s' u ↔
      evs = [.item (.op ((s.pool.literal lit type).1.load rd))] ∧
        s' = { s with pool := (s.pool.literal lit type).2 } := by
  rw [Yields, loadLiteral_eq, result_eq_iff]
  simp

end Draft

namespace Env

open Draft (Yields)

theorem yields_note_iff {env : Env} {o : Op Label} {comment : String} {s s' : Draft.State} :
    (env.note o comment).Yields s evs s' u ↔
      evs = [.item (.instr ⟨o, if env.comments then some comment else none⟩)] ∧ s' = s :=
  Draft.yields_record_iff

theorem yields_label_iff {env : Env} {s s' : Draft.State} {l : Label} :
    env.label.Yields s evs s' l ↔
      evs = [] ∧ s' = { s with labels := s.labels + 1 } ∧ l = .nth env.unit s.labels :=
  Draft.result_eq_iff

end Env

end ChocoRV
