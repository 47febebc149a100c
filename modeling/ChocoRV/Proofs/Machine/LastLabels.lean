import Mathlib
import ChocoRV.Proofs.Machine.Layout
import ChocoRV.Proofs.Machine.Walk

/-!
# Labels that come last

Of several labels with one name the last one counts, and those of the data come after those of the
text. So the last part of a text is found at its place if its own names are different and none of
them is in the data, and the last part of the data if its own names are different, whatever the
names before are. A name of the data always stands for a place in the data.
-/

namespace ChocoRV

open Assembly

namespace Image

variable {a : Assembly} {img : Image} {s : State}

/-! ## Text -/

theorem textLabels_append (k : Nat) (xs ys : List Item) :
    textLabels (pcOf k) (xs ++ ys) =
      textLabels (pcOf k) xs ++ textLabels (pcOf (k + (instrs xs).length)) ys := by
  induction xs generalizing k with
  | nil => rfl
  | cons x xs ih =>
    cases x with
    | label l => exact congrArg ((l.name, pcOf k) :: ·) (ih k)
    | instr i =>
      rw [List.cons_append, textLabels, textLabels, pcOf_add_four, ih, instrs_cons_instr,
        List.length_cons, Nat.add_assoc, Nat.add_comm 1]

/-- A label that no later one has the name of. -/
theorem find_last {pre post : List Item} {l : Label} (htext : a.text = pre ++ .label l :: post)
    (hpost : l.name ∉ (Assembly.labels post).map Label.name)
    (hdata : l.name ∉ (a.data.filterMap Datum.label?).map Label.name) :
    find (labelTable a) l.name = .ok (pcOf (instrs pre).length) := by
  rw [find_eq_ok_iff, labelTable_eq, htext, ← pcOf_zero, textLabels_append,
    Nat.zero_add, textLabels, List.append_assoc, List.foldl_append, List.cons_append,
      List.foldl_cons]
  refine getElem?_foldl_insert_of_not_mem ?_ Std.ExtTreeMap.getElem?_insert_self
  rw [List.map_append, map_fst_textLabels, map_fst_dataLabels, List.mem_append, not_or]
  exact ⟨hpost, hdata⟩

/-- The last part of a text, if it has different names and the data has none of them. -/
theorem holds_last {inside : Nat → Prop} (hload : load a = .ok (img, s)) {pre mid : List Item}
    (htext : a.text = pre ++ mid) (hnodup : ((Assembly.labels mid).map Label.name).Nodup)
    (hdata : ∀ name ∈ (Assembly.labels mid).map Label.name,
      name ∉ (a.data.filterMap Datum.label?).map Label.name)
    (hin : ∀ j < (instrs mid).length, inside ((instrs pre).length + j)) :
    img.Holds inside (instrs pre).length mid := by
  refine holds_of_labels hload (htext.trans (by rw [List.append_nil]))
    (fun front l back hmid => ?_) hin
  rw [hmid, labels_append, labels_cons_label, List.map_append, List.map_cons] at hnodup hdata
  rw [labels_of_load hload]
  have hlabel : a.text = (pre ++ front) ++ .label l :: back := by
    rw [htext, hmid, List.append_assoc]
  exact find_last hlabel (List.nodup_cons.mp hnodup.of_append_right).1
    (hdata _ (List.mem_append_right _ List.mem_cons_self))

/-! ## Data -/

/-- Of several entries with one name the last one is found. -/
theorem exists_getElem?_foldl_insert {β : Type} {entries : List (String × β)}
    {table : Std.ExtTreeMap String β} {name : String} (h : name ∈ entries.map (·.1)) :
    ∃ v, (name, v) ∈ entries ∧
      (entries.foldl (fun table entry => table.insert entry.1 entry.2) table)[name]? = some v := by
  induction entries generalizing table with
  | nil => exact absurd h List.not_mem_nil
  | cons e entries ih =>
    by_cases hmem : name ∈ entries.map (·.1)
    · obtain ⟨v, hv, hfound⟩ := ih hmem
      exact ⟨v, List.mem_cons_of_mem e hv, hfound⟩
    · rw [List.map_cons, List.mem_cons, or_iff_left hmem] at h
      subst h
      refine ⟨e.2, List.mem_cons_self, ?_⟩
      rw [List.foldl_cons]
      exact getElem?_foldl_insert_of_not_mem hmem Std.ExtTreeMap.getElem?_insert_self

/-- A name of the data stands for a place in the data. -/
theorem label?_of_data (hload : load a = .ok (img, s)) {name : String}
    (h : name ∈ (a.data.filterMap Datum.label?).map Label.name) :
    ∃ n, dataBase.toNat ≤ n ∧ n ≤ a.dataTop ∧ img.label? name = some (UInt32.ofNat n) := by
  rw [← map_fst_dataLabels dataBase] at h
  rw [label?, labels_of_load hload, labelTable_eq, List.foldl_append]
  obtain ⟨addr, hmem, hfound⟩ := exists_getElem?_foldl_insert h
  obtain ⟨n, hn, htop, heq⟩ := mem_dataLabels_ofNat (c := dataBase.toNat) hmem
  exact ⟨n, hn, htop, hfound.trans (congrArg some heq)⟩

theorem dataEnd_ofNat (c : Nat) (data : List Datum) :
    dataEnd (UInt32.ofNat c) data = UInt32.ofNat (Datum.top c data) := by
  induction data generalizing c with
  | nil => rfl
  | cons d data ih =>
    show dataEnd (advance (UInt32.ofNat c) d) data = _
    rw [advance_ofNat, ih]
    rfl

/-- A loaded program has its break at the end of the data, rounded up. -/
theorem brk_of_load (hload : load a = .ok (img, s)) : s.brk = UInt32.ofNat (alignUp a.dataTop) := by
  obtain ⟨m, -, h⟩ := bind_eq_ok_iff.mp hload
  obtain ⟨code, -, h⟩ := bind_eq_ok_iff.mp h
  cases h
  rw [placeData_eq, ← Addr.align4_ofNat]
  exact congrArg Addr.align4 (dataEnd_ofNat dataBase.toNat a.data)

/-- The labels of the last part of data are those that it has alone. -/
theorem exists_dataLabels_append (cursor : Addr) (xs ys : List Datum) :
    ∃ front, dataLabels cursor (xs ++ ys) = front ++ dataLabels (dataEnd cursor xs) ys := by
  induction xs generalizing cursor with
  | nil => exact ⟨[], rfl⟩
  | cons d xs ih =>
    obtain ⟨front, hfront⟩ := ih (advance cursor d)
    cases d with
    | label l => exact ⟨(l.name, nextStart cursor (xs ++ ys)) :: front, congrArg (_ :: ·) hfront⟩
    | align | word w | address l | ascii text => exact ⟨front, hfront⟩

theorem writeData_append {table : LabelTable} {m m' : Memory} {cursor : Addr} {xs ys : List Datum}
    (h : writeData table m cursor (xs ++ ys) = .ok m') :
    ∃ m'', writeData table m'' (dataEnd cursor xs) ys = .ok m' := by
  induction xs generalizing m cursor with
  | nil => exact ⟨m, h⟩
  | cons d xs ih =>
    cases d with
    | label | align | word => exact ih h
    | ascii =>
      rw [List.cons_append, writeData_ascii] at h
      exact ih h
    | address l =>
      obtain ⟨addr, -, h⟩ := bind_eq_ok_iff.mp h
      exact ih h

/-- The last part of the data, if it has different names. -/
theorem laid_last (hload : load a = .ok (img, s)) {front back : List Datum}
    (hdata : a.data = front ++ back) (hnodup : ((back.filterMap Datum.label?).map Label.name).Nodup)
    (htop : a.dataTop ≤ UInt32.size) :
    img.Laid s.memory (Datum.top dataBase.toNat front) back := by
  have hend : dataEnd dataBase front = UInt32.ofNat (Datum.top dataBase.toNat front) :=
    dataEnd_ofNat dataBase.toNat front
  have hlabels := labels_of_load hload
  obtain ⟨m, hm, h⟩ := bind_eq_ok_iff.mp hload
  obtain ⟨code, -, h⟩ := bind_eq_ok_iff.mp h
  cases h
  rw [hdata] at hm
  obtain ⟨m', hm'⟩ := writeData_append hm
  rw [hend] at hm'
  refine laid_of_writeData hm' (fun e he => ?_) ?_
  · obtain ⟨before, hbefore⟩ := exists_dataLabels_append dataBase front back
    rw [label?, hlabels, labelTable_eq, hdata, hbefore, ← List.append_assoc, List.foldl_append]
    rw [hend]
    refine getElem?_foldl_insert ?_ he
    rwa [map_fst_dataLabels]
  · rw [← Datum.top_append, ← hdata]
    exact htop

end Image

end ChocoRV
