import Mathlib
import ChocoRV.Draft.Placement
import ChocoRV.Proofs.Draft.Yields

/-!
# The items that a draft writes

`Draft.Writes` is `Draft.Yields` without the events that only say which temporaries are in use.
There is an equivalence for each first step of a draft, so that rewriting with them turns a draft
into the list of its items.
-/

namespace ChocoRV

namespace Draft

variable {α β : Type} {s s' : State} {items : List Item} {b : β} {u : Unit}

/-- Drafting `x` from `s` succeeds and writes these items; which temporaries are taken and released
is left out. -/
def Writes (x : Draft .virtual α) (s : State) (items : List Item) (s' : State) (a : α) : Prop :=
  ∃ evs, x.Yields s evs s' a ∧ Body.draftItems evs = items

theorem Yields.writes {x : Draft .virtual α} {a : α} {evs : List Event} (h : x.Yields s evs s' a) :
    x.Writes s (Body.draftItems evs) s' a :=
  ⟨evs, h, rfl⟩

theorem writes_pure_iff {a b : α} :
    (Pure.pure a : Draft .virtual α).Writes s items s' b ↔ s' = s ∧ b = a ∧ items = [] := by
  constructor
  · rintro ⟨evs, h, rfl⟩
    obtain ⟨rfl, rfl, rfl⟩ := yields_pure_iff.mp h
    exact ⟨rfl, rfl, rfl⟩
  · rintro ⟨rfl, rfl, rfl⟩
    exact ⟨[], yields_pure_iff.mpr ⟨rfl, rfl, rfl⟩, rfl⟩

theorem writes_bind_iff {x : Draft .virtual α} {f : α → Draft .virtual β} :
    (x >>= f).Writes s items s' b ↔
      ∃ is₁ s₁ a is₂, x.Writes s is₁ s₁ a ∧ (f a).Writes s₁ is₂ s' b ∧ items = is₁ ++ is₂ := by
  constructor
  · rintro ⟨evs, h, rfl⟩
    obtain ⟨e₁, s₁, a, e₂, hx, hf, rfl⟩ := yields_bind_iff.mp h
    exact ⟨_, s₁, a, _, hx.writes, hf.writes, List.filterMap_append⟩
  · rintro ⟨_, s₁, a, _, ⟨e₁, hx, rfl⟩, ⟨e₂, hf, rfl⟩, rfl⟩
    exact ⟨e₁ ++ e₂, yields_bind_iff.mpr ⟨e₁, s₁, a, e₂, hx, hf, rfl⟩, List.filterMap_append⟩

/-- A piece of drafting whose outcome is known, and what comes after it. -/
theorem writes_bind_of_yields {x : Draft .virtual α} {f : α → Draft .virtual β} {evs : List Event}
    {s₁ : State} {a : α} (h : x.Yields s evs s₁ a) :
    (x >>= f).Writes s items s' b ↔
      ∃ rest, (f a).Writes s₁ rest s' b ∧ items = Body.draftItems evs ++ rest := by
  rw [writes_bind_iff]
  constructor
  · rintro ⟨_, _, _, is₂, ⟨e, hx, rfl⟩, hf, rfl⟩
    obtain ⟨rfl, rfl, rfl⟩ := h.unique hx
    exact ⟨is₂, hf, rfl⟩
  · rintro ⟨rest, hf, rfl⟩
    exact ⟨_, s₁, a, rest, h.writes, hf, rfl⟩

theorem writes_record_iff {i : Item} :
    (record (.item i)).Writes s items s' u ↔ s' = s ∧ items = [i] := by
  constructor
  · rintro ⟨evs, h, rfl⟩
    obtain ⟨rfl, rfl⟩ := yields_record_iff.mp h
    exact ⟨rfl, rfl⟩
  · rintro ⟨rfl, rfl⟩
    exact ⟨_, yields_record_iff.mpr ⟨rfl, rfl⟩, rfl⟩

theorem writes_record_bind_iff {i : Item} {f : Unit → Draft .virtual β} :
    (record (.item i) >>= f).Writes s items s' b ↔
      ∃ rest, (f ()).Writes s rest s' b ∧ items = i :: rest :=
  writes_bind_of_yields (yields_record_iff.mpr ⟨rfl, rfl⟩)

theorem writes_emit_iff {o : Op Label} : (emit o).Writes s items s' u ↔ s' = s ∧ items = [.op o] :=
  writes_record_iff

theorem writes_emit_bind_iff {o : Op Label} {f : Unit → Draft .virtual β} :
    (emit o >>= f).Writes s items s' b ↔
      ∃ rest, (f ()).Writes s rest s' b ∧ items = .op o :: rest :=
  writes_record_bind_iff

theorem yields_release (t : Nat) (s : State) : (release (.virt t)).Yields s [.release t] s () :=
  yields_release_iff.mpr ⟨rfl, rfl⟩

theorem writes_release_iff {t : Nat} :
    (release (.virt t)).Writes s items s' u ↔ s' = s ∧ items = [] := by
  constructor
  · rintro ⟨evs, h, rfl⟩
    obtain ⟨rfl, rfl⟩ := yields_release_iff.mp h
    exact ⟨rfl, rfl⟩
  · rintro ⟨rfl, rfl⟩
    exact ⟨_, yields_release t s', rfl⟩

theorem writes_release_bind_iff {t : Nat} {f : Unit → Draft .virtual β} :
    (release (.virt t) >>= f).Writes s items s' b ↔ (f ()).Writes s items s' b := by
  rw [writes_bind_of_yields (yields_release t s)]
  exact exists_eq_right'

end Draft

namespace Env

open Draft

variable {β : Type} {env : Env} {s s' : Draft.State} {items : List Item} {b : β} {u : Unit}

theorem writes_note_bind_iff {o : Op Label} {comment : String} {f : Unit → Draft .virtual β} :
    (env.note o comment >>= f).Writes s items s' b ↔
      ∃ rest, (f ()).Writes s rest s' b ∧
        items = .instr ⟨o, if env.comments then some comment else none⟩ :: rest :=
  writes_record_bind_iff

end Env

end ChocoRV
