import Mathlib
import ChocoRV.DataSegment
import ChocoRV.Proofs.Constant
import ChocoRV.Proofs.Symbol.Closed

/-!
# Labels and addresses of the data segment

Which labels the data segment defines and which ones its words hold the addresses of. Constants join
the pool while the segment is written, so each part is described with the pool after it.
-/

namespace ChocoRV

namespace DataSegment

open ConstantPool (Holds)

variable {pool : ConstantPool} {l : Label}

/-- The word of a literal holds the address of a constant, if any. -/
theorem holds_toDatum {lit : Literal} {type : ValueType}
    (h : Datum.address l = (pool.literal lit type).1.toDatum) :
    (pool.literal lit type).2.Holds l := by
  cases hv : (pool.literal lit type).1 with
  | word n =>
    rw [hv] at h
    exact nomatch h
  | address l' =>
    rw [hv] at h
    cases h
    exact ConstantPool.holds_literal hv

theorem literalWords_cons (lit : Literal) (type : ValueType) (ls : List (Literal × ValueType))
    (pool : ConstantPool) : literalWords ((lit, type) :: ls) pool =
      ((pool.literal lit type).1.toDatum :: (literalWords ls (pool.literal lit type).2).1,
        (literalWords ls (pool.literal lit type).2).2) := by
  rw [literalWords, ConstantPool.literalWord_eq]

theorem globals_cons (g : GlobalVar) (gs : List GlobalVar) (pool : ConstantPool) :
    globals (g :: gs) pool =
      (.label g.label :: (pool.literal g.init g.type).1.toDatum ::
        (globals gs (pool.literal g.init g.type).2).1,
        (globals gs (pool.literal g.init g.type).2).2) := by
  rw [globals, ConstantPool.literalWord_eq]

theorem literalWords_spec (ls : List (Literal × ValueType)) (pool : ConstantPool) :
    pool.entries <+: (literalWords ls pool).2.entries ∧
      ∀ l, .address l ∈ (literalWords ls pool).1 → (literalWords ls pool).2.Holds l := by
  induction ls generalizing pool with
  | nil => exact ⟨List.prefix_rfl, fun l hl => nomatch hl⟩
  | cons p ls ih =>
    obtain ⟨lit, type⟩ := p
    obtain ⟨hp, ha⟩ := ih (pool.literal lit type).2
    rw [literalWords_cons]
    refine ⟨(ConstantPool.literal_extends pool lit type).trans hp, fun l hl => ?_⟩
    rcases List.mem_cons.mp hl with hl | hl
    · exact (holds_toDatum hl).mono hp
    · exact ha l hl

theorem globals_spec (gs : List GlobalVar) (pool : ConstantPool) :
    pool.entries <+: (globals gs pool).2.entries ∧
      (∀ l, .address l ∈ (globals gs pool).1 → (globals gs pool).2.Holds l) ∧
      ∀ g ∈ gs, .label g.label ∈ (globals gs pool).1 := by
  induction gs generalizing pool with
  | nil => exact ⟨List.prefix_rfl, fun l hl => (nomatch hl), fun g hg => nomatch hg⟩
  | cons g gs ih =>
    obtain ⟨hp, ha, hl⟩ := ih (pool.literal g.init g.type).2
    rw [globals_cons]
    refine ⟨(ConstantPool.literal_extends pool g.init g.type).trans hp, fun l h => ?_,
      fun g' h => ?_⟩
    · rcases List.mem_cons.mp h with h | h
      · exact nomatch h
      · rcases List.mem_cons.mp h with h | h
        · exact (holds_toDatum h).mono hp
        · exact ha l h
    · rcases List.mem_cons.mp h with rfl | h
      · exact List.mem_cons_self
      · exact List.mem_cons_of_mem _ (List.mem_cons_of_mem _ (hl g' h))

/-- The one address in a header is that of a dispatch table. -/
theorem address_mem_header {tag size : Int32} {table : String} :
    .address l ∈ ConstantPool.header tag table size ↔ l = .global table := by
  simp [ConstantPool.header]

theorem prototype_spec (c : ClassInfo) (pool : ConstantPool) :
    pool.entries <+: (prototype c pool).2.entries ∧
      (∀ l, .address l ∈ (prototype c pool).1 →
        l = .global c.dispatchTable.name ∨ (prototype c pool).2.Holds l) ∧
      .label c.prototype ∈ (prototype c pool).1 := by
  unfold prototype
  split
  · refine ⟨List.prefix_rfl, fun l h => ?_, by simp⟩
    rcases List.mem_append.mp h with h | h
    · exact .inl (address_mem_header.mp h)
    · simp at h
  · obtain ⟨hp, ha⟩ := literalWords_spec (c.attrs.map fun a => (a.init, a.type)) pool
    refine ⟨hp, fun l h => ?_, by simp⟩
    rcases List.mem_append.mp h with h | h
    · exact .inl (address_mem_header.mp h)
    · rcases List.mem_cons.mp h with h | h
      · exact nomatch h
      · exact .inr (ha l h)

theorem classes_spec (cs : List ClassInfo) (pool : ConstantPool) :
    pool.entries <+: (classes cs pool).2.entries ∧
      (∀ l, .address l ∈ (classes cs pool).1 →
        (∃ c ∈ cs, l = .global c.dispatchTable.name ∨ ∃ m ∈ c.methods, l = m.label) ∨
          (classes cs pool).2.Holds l) ∧
      ∀ c ∈ cs, .label c.prototype ∈ (classes cs pool).1 ∧
        .label c.dispatchTable ∈ (classes cs pool).1 := by
  induction cs generalizing pool with
  | nil =>
    exact ⟨List.prefix_rfl, fun l hl => (List.not_mem_nil hl).elim,
      fun c hc => (List.not_mem_nil hc).elim⟩
  | cons c cs ih =>
    obtain ⟨hp₁, ha₁, hl₁⟩ := prototype_spec c pool
    obtain ⟨hp₂, ha₂, hl₂⟩ := ih (prototype c pool).2
    have hsplit : (classes (c :: cs) pool).1 = (prototype c pool).1 ++ dispatchTable c ++
        (classes cs (prototype c pool).2).1 := rfl
    refine ⟨hp₁.trans hp₂, fun l h => ?_, fun c' h => ?_⟩
    · rw [hsplit, List.append_assoc] at h
      rcases List.mem_append.mp h with h | h
      · rcases ha₁ l h with h | h
        · exact .inl ⟨c, List.mem_cons_self, .inl h⟩
        · exact .inr (h.mono hp₂)
      · rcases List.mem_append.mp h with h | h
        · refine .inl ⟨c, List.mem_cons_self, .inr ?_⟩
          simpa [dispatchTable, eq_comm] using h
        · rcases ha₂ l h with ⟨c', hc', h⟩ | h
          · exact .inl ⟨c', List.mem_cons_of_mem _ hc', h⟩
          · exact .inr h
    · rw [hsplit]
      rcases List.mem_cons.mp h with rfl | h
      · simp [hl₁, dispatchTable]
      · exact ⟨List.mem_append_right _ (hl₂ c' h).1, List.mem_append_right _ (hl₂ c' h).2⟩

theorem holds_data (h : pool.Holds l) : .label l ∈ pool.data := by
  rw [ConstantPool.data_eq]
  rcases h with ⟨k, hk, rfl⟩ | ⟨b, rfl⟩
  · refine List.mem_append_right _ (List.mem_flatMap.mpr ⟨(pool.entries[k], k), ?_, ?_⟩)
    · exact List.mem_zipIdx_iff_getElem?.mpr (List.getElem?_eq_getElem hk)
    · cases pool.entries[k] <;> simp [ConstantPool.constantData]
  · cases b <;> simp [ConstantPool.boolData]

/-- Constants dispatch as objects of the predefined classes. -/
theorem address_mem_data (h : .address l ∈ pool.data) :
    l ∈ [Label.global "$int$dispatchTable", .global "$bool$dispatchTable",
      .global "$str$dispatchTable"] := by
  rw [ConstantPool.data_eq] at h
  rcases List.mem_append.mp h with h | h
  · simp [ConstantPool.boolData, ConstantPool.header] at h
    simp [h]
  · obtain ⟨⟨c, k⟩, -, h⟩ := List.mem_flatMap.mp h
    cases c <;> simp [ConstantPool.constantData, ConstantPool.header] at h <;> simp [h]

/-! ## The whole segment -/

/-- The pool after the constants that the segment itself brings. -/
def finalPool (table : SymbolTable) (pool : ConstantPool) : ConstantPool :=
  (classes table.classes.toList (globals table.globals pool).2).2

theorem all_eq (table : SymbolTable) (pool : ConstantPool) :
    all table pool = (globals table.globals pool).1 ++
      (classes table.classes.toList (globals table.globals pool).2).1 ++ listPrototype table ++
      (finalPool table pool).data := rfl

theorem finalPool_extends (table : SymbolTable) (pool : ConstantPool) :
    pool.entries <+: (finalPool table pool).entries :=
  (globals_spec _ _).1.trans (classes_spec _ _).1

variable {table : SymbolTable}

theorem global_mem_all {g : GlobalVar} (h : g ∈ table.globals) :
    .label g.label ∈ all table pool := by
  rw [all_eq]
  simp [(globals_spec table.globals pool).2.2 g h]

theorem class_mem_all {c : ClassInfo} (h : c ∈ table.classes.toList) :
    .label c.prototype ∈ all table pool ∧ .label c.dispatchTable ∈ all table pool := by
  obtain ⟨hp, hd⟩ := (classes_spec table.classes.toList (globals table.globals pool).2).2.2 c h
  rw [all_eq]
  simp [hp, hd]

theorem listPrototype_mem_all : .label Routine.listPrototype ∈ all table pool := by
  rw [all_eq]
  simp [listPrototype]

theorem holds_mem_all (h : (finalPool table pool).Holds l) : .label l ∈ all table pool := by
  rw [all_eq]
  exact List.mem_append_right _ (holds_data h)

/-- The predefined classes have their objects in every segment. -/
theorem predefined_mem_all (hg : SymbolTable.predefined.Grows table) {tag : Int32}
    {proto disp : Label} (h : (tag, proto, disp) ∈ SymbolTable.predefined.classHeads) :
    .label proto ∈ all table pool ∧ .label disp ∈ all table pool := by
  obtain ⟨c, hc, heq⟩ := List.mem_map.mp (hg.heads.subset h)
  cases heq
  exact class_mem_all hc

/-- The heads of the predefined classes. -/
theorem predefined_heads : SymbolTable.predefined.classHeads =
    [(Object.objectTag, .global "$object$prototype", .global "$object$dispatchTable"),
      (Object.intTag, .global "$int$prototype", .global "$int$dispatchTable"),
      (Object.boolTag, .global "$bool$prototype", .global "$bool$dispatchTable"),
      (Object.strTag, .global "$str$prototype", .global "$str$dispatchTable")] := by
  decide +kernel

/-- Lists dispatch as objects of some class with the tag of objects. -/
theorem address_mem_listPrototype (hg : SymbolTable.predefined.Grows table)
    (h : .address l ∈ listPrototype table) :
    ∃ c ∈ table.classes.toList, l = .global c.dispatchTable.name := by
  have hobject : ∃ c ∈ table.classes.toList, c.tag == Object.objectTag := by
    have hmem := hg.heads.subset (predefined_heads ▸ List.mem_cons_self)
    obtain ⟨c, hc, heq⟩ := List.mem_map.mp hmem
    exact ⟨c, hc, by simp [(Prod.mk.inj heq).1]⟩
  unfold listPrototype at h
  cases hf : table.classes.toList.find? (·.tag == Object.objectTag) with
  | none =>
    obtain ⟨c, hc, htag⟩ := hobject
    exact absurd htag (by simpa using List.find?_eq_none.mp hf c hc)
  | some c =>
    refine ⟨c, List.mem_of_find?_eq_some hf, ?_⟩
    rw [hf] at h
    simpa [ConstantPool.header] using h

/-- Every address in the segment is that of a label of the segment or of a method. -/
theorem address_mem_all (hg : SymbolTable.predefined.Grows table)
    (h : .address l ∈ all table pool) :
    (∃ l', .label l' ∈ all table pool ∧ l'.name = l.name) ∨
      ∃ c ∈ table.classes.toList, ∃ m ∈ c.methods, l = m.label := by
  have holds {l : Label} (h : (finalPool table pool).Holds l) :
      ∃ l', .label l' ∈ all table pool ∧ l'.name = l.name := ⟨l, holds_mem_all h, rfl⟩
  have dispatch {c : ClassInfo} (hc : c ∈ table.classes.toList) :
      ∃ l', .label l' ∈ all table pool ∧ l'.name = (Label.global c.dispatchTable.name).name :=
    ⟨_, (class_mem_all hc).2, rfl⟩
  rw [all_eq, List.append_assoc, List.append_assoc] at h
  rcases List.mem_append.mp h with h | h
  · exact .inl (holds (((globals_spec _ _).2.1 l h).mono (classes_spec _ _).1))
  rcases List.mem_append.mp h with h | h
  · rcases (classes_spec _ _).2.1 l h with ⟨c, hc, rfl | ⟨m, hm, rfl⟩⟩ | h
    · exact .inl (dispatch hc)
    · exact .inr ⟨c, hc, m, hm, rfl⟩
    · exact .inl (holds h)
  rcases List.mem_append.mp h with h | h
  · obtain ⟨c, hc, rfl⟩ := address_mem_listPrototype hg h
    exact .inl (dispatch hc)
  · refine .inl ⟨l, ?_, rfl⟩
    have hheads := predefined_heads
    rcases List.mem_cons.mp (address_mem_data h) with rfl | h
    · exact (predefined_mem_all hg (by rw [hheads]; exact .tail _ (.head _))).2
    rcases List.mem_pair.mp h with rfl | rfl
    · exact (predefined_mem_all hg (by rw [hheads]; exact .tail _ (.tail _ (.head _)))).2
    · exact (predefined_mem_all hg (by rw [hheads]; exact .tail _ (.tail _ (.tail _ (.head _))))).2

end DataSegment

end ChocoRV
