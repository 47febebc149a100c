import Mathlib
import ChocoRV.Proofs.Symbol.Params

/-!
# Where local variables are

The locals of a function have words of its frame in the order of their declarations. `LocalsAt` says
that a name which stands for a local variable stands for the word of the last declaration of that
name, and `SymbolTable.Built.localsPlaced` that this holds for every function of a program.
-/

namespace ChocoRV

/-- An entry for a local variable is at the word of the last local of that name, and a local that is
declared has an entry. -/
structure LocalsAt (id : Nat) (locals : List LocalVar) (entries : String → Option Symbol) :
    Prop where
  known : ∀ l ∈ locals, ∃ sym, entries l.name = some sym
  placed {name : String} {v : StackVar} (he : entries name = some (.stack v)) (hk :
    v.kind = .localVar) :
    ∃ k l, locals[k]? = some l ∧ l.name = name ∧
      (∀ j m, k < j → locals[j]? = some m → m.name ≠ name) ∧
      v = ⟨name, l.type, id, .localVar, Frame.localOffset k⟩

/-- What stands for no local variable. -/
def Symbol.NoLocal (sym : Symbol) : Prop := ∀ v, sym = .stack v → v.kind ≠ .localVar

namespace LocalsAt

variable {id : Nat} {locals : List LocalVar} {entries entries' : String → Option Symbol}

/-- Names that are declared again. -/
theorem redeclare (h : LocalsAt id locals entries)
    (hnew : ∀ name, entries' name = entries name ∨ ∃ sym, entries' name = some sym ∧ sym.NoLocal) :
    LocalsAt id locals entries' where
  known l hl := by
    rcases hnew l.name with hold | ⟨sym, hsym, -⟩
    · rw [hold]
      exact h.known l hl
    · exact ⟨sym, hsym⟩
  placed {name v} he hk := by
    rcases hnew name with hold | ⟨sym, hsym, hno⟩
    · rw [hold] at he
      exact h.placed he hk
    · rw [he] at hsym
      exact absurd hk (hno v (Option.some.inj hsym).symm)

/-- One more local, in the first word after those so far. -/
theorem concat (h : LocalsAt id locals entries) {l : LocalVar}
    (hself : entries' l.name =
      some (.stack ⟨l.name, l.type, id, .localVar, Frame.localOffset locals.length⟩))
    (hother : ∀ name, name ≠ l.name → entries' name = entries name) :
    LocalsAt id (locals ++ [l]) entries' where
  known m hm := by
    by_cases hname : m.name = l.name
    · rw [hname]
      exact ⟨_, hself⟩
    · rw [hother _ hname]
      rcases List.mem_append.mp hm with hm | hm
      · exact h.known m hm
      · exact absurd (congrArg LocalVar.name (List.mem_singleton.mp hm)) hname
  placed {name v} he hk := by
    by_cases hname : name = l.name
    · -- The new local is the last one of its name.
      subst hname
      rw [hself] at he
      cases he
      refine ⟨locals.length, l, List.getElem?_concat_length, rfl, fun j m hj hm => ?_, rfl⟩
      rw [List.getElem?_eq_none (by rw [List.length_append, List.length_singleton]; omega)] at hm
      cases hm
    · rw [hother _ hname] at he
      obtain ⟨k, m, hget, hm, hlast, hv⟩ := h.placed he hk
      have hlt := (List.getElem?_eq_some_iff.mp hget).1
      refine ⟨k, m, by rw [List.getElem?_append_left hlt, hget], hm, fun j n hj hn => ?_, hv⟩
      by_cases hjlen : j < locals.length
      · rw [List.getElem?_append_left hjlen] at hn
        exact hlast j n hj hn
      · rw [List.getElem?_append_right (Nat.le_of_not_lt hjlen)] at hn
        rw [List.mem_singleton.mp (List.mem_of_getElem? hn)]
        exact Ne.symm hname

end LocalsAt

namespace SymbolTable

variable {t : SymbolTable}

/-- Parameters are no locals. -/
theorem localsAt_paramEntries (id depth : Nat) (params : List TypedVar) :
    LocalsAt id [] fun name => (paramEntries id depth params ∅)[name]? where
  known l hl := absurd hl List.not_mem_nil
  placed {name v} he hk := by
    unfold paramEntries at he
    have hno : ∀ (n : String) (w : StackVar),
        (params.zipIdx.foldl (fun entries p => entries.insert p.1.name
          (.stack ⟨p.1.name, p.1.type, id, .param,
            Frame.paramOffset ((if 0 < depth then 1 else 0) + p.2)⟩)) (∅ : Entries))[n]? =
          some (.stack w) → w.kind = .param := by
      refine List.foldlRecOn (motive := fun entries : Entries =>
        ∀ (n : String) (w : StackVar), entries[n]? = some (.stack w) → w.kind = .param) _ _
        (fun n w hw => by simp at hw) fun entries h p hp n w hw => ?_
      rw [Std.ExtTreeMap.getElem?_insert] at hw
      split at hw
      · cases hw
        rfl
      · exact h n w hw
    have := hno name v he
    rw [hk] at this
    cases this

/-- Declarations of local and global variables. -/
theorem localsAt_localEntries {id : Nat} {name : String} {decls : List Decl}
    {acc acc' : Entries × List LocalVar} (hacc : LocalsAt id acc.2 fun n => acc.1[n]?)
    (hl : t.localEntries id name decls acc = .ok acc') : LocalsAt id acc'.2 fun n =>
    acc'.1[n]? := by
  refine localEntries_rec (P := fun entries locals => LocalsAt id locals fun n => entries[n]?)
    ?_ ?_ hacc hl
  · intro _ _ v _ h
    refine h.concat Std.ExtTreeMap.getElem?_insert_self fun n hn => ?_
    rw [Std.ExtTreeMap.getElem?_insert, if_neg]
    exact fun e => hn (Std.LawfulEqCmp.eq_of_compare e).symm
  · intro _ _ g _ _ h
    refine h.redeclare fun n => ?_
    rw [Std.ExtTreeMap.getElem?_insert]
    split
    · refine .inr ⟨_, rfl, fun w hw => ?_⟩
      cases hw
    · exact .inl rfl

/-- **Where locals are**, in the table of every program. -/
theorem Built.localsPlaced (h : Built t) :
    t.ScopesHave fun id f entries => LocalsAt id f.locals entries := by
  refine h.scopesHave ⟨?_, ?_⟩
  · intro t site _ params _ _ _ entries locals hl
    exact localsAt_localEntries (localsAt_paramEntries t.funcs.size site.depth params) hl
  · intro id f entries entries' hlocals hnew
    refine hlocals.redeclare fun name => (hnew name).imp_right ?_
    rintro ⟨sym, hsym, hno⟩
    exact ⟨sym, hsym, fun v hv => absurd hv (hno v)⟩

end SymbolTable

end ChocoRV
