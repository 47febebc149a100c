import Mathlib
import ChocoRV.Constant

/-!
# The constant pool

What the three collections of a pool come to together: `ConstantPool.entries` is the list of its
constants, and the pool works as if it searched that list. The maps find a constant exactly if it
stands there (`label?_eq`), under the label of its place, and a new one is added at the end
(`exists_intern_new`).

* `intern_spec`: interning only adds constants at the end of the pool, and the label it gives is
  that of the place at which the constant stands.
* `literalWord_eq`: a literal becomes a plain word, the label of a constant of the pool or the label
  of a boolean. `ConstantPool.literal` says which; data words and loads are two ways to hold it.
-/

namespace ChocoRV

/-- What a literal is as a machine word. -/
inductive WordValue where
  | word (value : Int32)
  | address (l : Label)
deriving DecidableEq, Repr, Inhabited

namespace WordValue

/-- A data word that holds it. -/
def toDatum : WordValue → Datum
  | .word n => .word n
  | .address l => .address l

/-- The operation that loads it. -/
def load (rd : Reg) : WordValue → Op Label
  | .word n => .li rd n
  | .address l => .la rd l

end WordValue

namespace ConstantPool

/-! ## The pool as a list -/

/-- The constants in the order of first use. -/
def entries (pool : ConstantPool) : List Constant := pool.rows.map (·.2)

variable {c : Constant} {k : Nat}

theorem getElem?_entries {pool : ConstantPool} :
    pool.entries[k]? = some c ↔ pool.rows[k]? = some (label k, c) := by
  rw [entries, List.getElem?_map]
  constructor
  · intro h
    obtain ⟨⟨l, c'⟩, hrow, rfl⟩ := Option.map_eq_some_iff.mp h
    rw [hrow, ← pool.consistent.numbered hrow]
  · intro h
    rw [h]
    rfl

/-- The maps know exactly the constants of the pool, each with the label that it stands under. -/
theorem label?_eq_some_iff {pool : ConstantPool} {l : Label} :
    pool.label? c = some l ↔ ∃ k, pool.entries[k]? = some c ∧ l = label k := by
  have hrow : pool.label? c = some l ↔ (l, c) ∈ pool.rows := by
    cases c with
    | str text => exact pool.consistent.strings text l
    | int n => exact pool.consistent.ints n l
  rw [hrow]
  constructor
  · intro h
    obtain ⟨k, hk⟩ := List.mem_iff_getElem?.mp h
    obtain rfl : l = label k := pool.consistent.numbered hk
    exact ⟨k, getElem?_entries.mpr hk, rfl⟩
  · rintro ⟨k, hk, rfl⟩
    exact List.mem_of_getElem? (getElem?_entries.mp hk)

/-- Looking a constant up in its map is searching the list for it. -/
theorem label?_eq (pool : ConstantPool) (c : Constant) :
    pool.label? c = (pool.entries.idxOf? c).map label := by
  cases hidx : pool.entries.idxOf? c with
  | some k =>
    obtain ⟨hk, hc, -⟩ := List.idxOf?_eq_some_iff.mp hidx
    exact label?_eq_some_iff.mpr ⟨k, List.getElem?_eq_some_iff.mpr ⟨hk, by simpa using hc⟩, rfl⟩
  | none =>
    refine Option.eq_none_iff_forall_ne_some.mpr fun l hl => ?_
    obtain ⟨k, hk, -⟩ := label?_eq_some_iff.mp hl
    exact List.idxOf?_eq_none_iff.mp hidx (List.mem_of_getElem? hk)

theorem entries_push {pool : ConstantPool} (h : pool.label? c = none) :
    (pool.push c h).entries = pool.entries ++ [c] := by
  cases c <;> simp [push, entries]

/-- A constant that is there is found, and the pool stays. -/
theorem intern_old {pool : ConstantPool} (h : pool.entries.idxOf? c = some k) :
    pool.intern c = (label k, pool) := by
  have hlabel : pool.label? c = some (label k) := by rw [label?_eq, h, Option.map_some]
  rw [intern]
  split
  · next l hl => rw [Option.some.inj (hl.symm.trans hlabel)]
  · next hnone => cases hnone.symm.trans hlabel

/-- A constant that is new comes to the end. -/
theorem exists_intern_new {pool : ConstantPool} (h : c ∉ pool.entries) :
    ∃ pool', pool.intern c = (label pool.entries.length, pool') ∧
      pool'.entries = pool.entries ++ [c] := by
  have hlabel : pool.label? c = none := by
    rw [label?_eq, List.idxOf?_eq_none_iff.mpr h, Option.map_none]
  refine ⟨pool.push c hlabel, ?_, entries_push hlabel⟩
  rw [intern]
  split
  · next hl => cases hl.symm.trans hlabel
  · rw [nextLabel, entries, List.length_map]

/-- The objects of all constants, by their places. -/
theorem data_eq (pool : ConstantPool) : pool.data =
    boolData false ++ boolData true ++
      pool.entries.zipIdx.flatMap fun entry => constantData (label entry.2) entry.1 := by
  have hrows : pool.rows = pool.entries.zipIdx.map fun entry => (label entry.2, entry.1) := by
    refine List.ext_getElem? fun k => ?_
    rw [List.getElem?_map, List.getElem?_zipIdx]
    cases hk : pool.entries[k]? with
    | none => simpa [entries] using hk
    | some c => simpa using getElem?_entries.mp hk
  rw [data, hrows, List.flatMap_map]

/-- A literal as the value of a variable of some type, and the pool after it. -/
def literal (pool : ConstantPool) (lit : Literal) (type : ValueType) : WordValue × ConstantPool :=
  match lit with
  | .int n =>
    if type.isUnboxed then (.word n, pool)
    else (.address (pool.intern (.int n)).1, (pool.intern (.int n)).2)
  | .bool b =>
    if type.isUnboxed then (.word (boolWord b), pool) else (.address (boolLabel b), pool)
  | .str s => (.address (pool.intern (.str s)).1, (pool.intern (.str s)).2)
  | .none => (.word 0, pool)

/-- The table for data words puts the value of a literal there. -/
theorem literalWord_eq (pool : ConstantPool) (lit : Literal) (type : ValueType) :
    pool.literalWord lit type =
      ((pool.literal lit type).1.toDatum, (pool.literal lit type).2) := by
  cases lit with
  | int n | bool b =>
    unfold literalWord literal
    dsimp only
    split <;> rfl
  | str s | none => rfl

/-! ## Labels of the pool -/

/-- A label of an object that the pool lays out. -/
def Holds (pool : ConstantPool) (l : Label) : Prop :=
  (∃ k < pool.entries.length, l = label k) ∨ ∃ b, l = boolLabel b

variable {pool pool' : ConstantPool}

theorem Holds.mono {l : Label} (h : pool.Holds l) (hp : pool.entries <+: pool'.entries) :
    pool'.Holds l :=
  h.imp_left fun ⟨k, hk, hl⟩ => ⟨k, Nat.lt_of_lt_of_le hk hp.length_le, hl⟩

/-- A constant stands in the pool at the place of its label. -/
def Stores (pool : ConstantPool) (l : Label) (c : Constant) : Prop :=
  ∃ k, pool.entries[k]? = some c ∧ l = label k

namespace Stores

variable {l : Label} {c : Constant}

theorem mono (h : pool.Stores l c) (hp : pool.entries <+: pool'.entries) : pool'.Stores l c := by
  obtain ⟨k, hk, rfl⟩ := h
  obtain ⟨more, hmore⟩ := hp
  refine ⟨k, ?_, rfl⟩
  rw [← hmore, List.getElem?_append_left (List.getElem?_eq_some_iff.mp hk).1, hk]

theorem holds (h : pool.Stores l c) : pool.Holds l := by
  obtain ⟨k, hk, rfl⟩ := h
  exact .inl ⟨k, (List.getElem?_eq_some_iff.mp hk).1, rfl⟩

end Stores

/-- Interning a constant finds its place or makes one at the end. -/
theorem intern_spec (pool : ConstantPool) (c : Constant) :
    pool.entries <+: (pool.intern c).2.entries ∧ (pool.intern c).2.Stores (pool.intern c).1 c := by
  cases h : pool.entries.idxOf? c with
  | some k =>
    obtain ⟨hk, hc, -⟩ := List.idxOf?_eq_some_iff.mp h
    rw [intern_old h]
    exact ⟨List.prefix_rfl, k, List.getElem?_eq_some_iff.mpr ⟨hk, by simpa using hc⟩, rfl⟩
  | none =>
    obtain ⟨pool', heq, hentries⟩ := exists_intern_new (List.idxOf?_eq_none_iff.mp h)
    rw [heq, hentries]
    exact ⟨List.prefix_append _ _, pool.entries.length, by rw [hentries]; simp, rfl⟩

theorem intern_extends (pool : ConstantPool) (c : Constant) :
    pool.entries <+: (pool.intern c).2.entries :=
  (intern_spec pool c).1

theorem holds_intern (pool : ConstantPool) (c : Constant) :
    (pool.intern c).2.Holds (pool.intern c).1 :=
  (intern_spec pool c).2.holds

/-- As `intern_spec`, where the result has been named. -/
theorem intern_of_eq {c : Constant} {l : Label} (h : pool.intern c = (l, pool')) :
    pool.entries <+: pool'.entries ∧ pool'.Stores l c := by
  have hspec := intern_spec pool c
  rwa [h] at hspec

theorem literal_extends (pool : ConstantPool) (lit : Literal) (type : ValueType) :
    pool.entries <+: (pool.literal lit type).2.entries := by
  cases lit with
  | int n =>
    unfold literal
    dsimp only
    split
    · exact List.prefix_rfl
    · exact intern_extends pool _
  | bool b =>
    unfold literal
    dsimp only
    split <;> exact List.prefix_rfl
  | str s => exact intern_extends pool _
  | none => exact List.prefix_rfl

theorem holds_literal {lit : Literal} {type : ValueType} {l : Label}
    (h : (pool.literal lit type).1 = .address l) : (pool.literal lit type).2.Holds l := by
  cases lit with
  | int n =>
    unfold literal at h ⊢
    dsimp only at h ⊢
    split at h
    · exact nomatch h
    · cases h
      rename_i hu
      rw [if_neg hu]
      exact holds_intern pool _
  | bool b =>
    unfold literal at h
    dsimp only at h
    split at h
    · exact nomatch h
    · cases h
      exact .inr ⟨b, rfl⟩
  | str s =>
    cases h
    exact holds_intern pool _
  | none => exact nomatch h

end ConstantPool

end ChocoRV
