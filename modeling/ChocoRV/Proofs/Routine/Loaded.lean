import Mathlib
import ChocoRV.Proofs.Machine.LastLabels
import ChocoRV.Proofs.Machine.Objects
import ChocoRV.Proofs.UniqueLabels

/-!
# The routines of a loaded program

The routines are the last part of the text of every compiled program, and the constants are the last
part of its data. No routine has a name of the data. So both are found where they stand, whatever a
program declares: two declarations of one name, or a second class of a predefined name, change
nothing about them.
-/

namespace ChocoRV

open Assembly Image

/-- The parts of code at a place. -/
theorem Image.Holds.part {img : Image} {inside : Nat → Prop} {xss : List (List Item)} {k : Nat}
    (h : img.Holds inside k xss.flatten) {xs : List Item} (hxs : xs ∈ xss) :
    ∃ j, img.Holds inside j xs := by
  induction xss generalizing k with
  | nil => exact absurd hxs List.not_mem_nil
  | cons ys xss ih =>
    rw [List.flatten_cons, holds_append] at h
    rcases List.mem_cons.mp hxs with rfl | hxs
    · exact ⟨k, h.1⟩
    · exact ih h.2 hxs

namespace Routine

/-- The routines, one by one. -/
def parts (m : Messages) (payload : Int32) : List (List Item) :=
  [errorExit errorNone Object.operationOnNone "Operation on None" m.onNone payload,
    errorExit errorDiv Object.divisionByZero "Division by zero" m.division payload,
    errorExit errorOob Object.indexOutOfBounds "Index out of bounds" m.bounds payload,
    abortItems, allocItems, alloc2Items, objectInitItems, printItems m, lenItems, strCharItems,
    concatItems strcat strPrototype .byte, concatItems listconcat listPrototype .word, streqlItems]

theorem items_eq_flatten (m : Messages) (payload : Int32) :
    items m payload = (parts m payload).flatten := by
  simp only [items, parts, List.flatten_cons, List.flatten_nil, List.append_nil, List.append_assoc]

theorem nodup_names (m : Messages) (payload : Int32) :
    ((labels (items m payload)).map Label.name).Nodup := by
  rw [labels_eq_codes]
  decide +kernel

/-- Names of routines do not begin like those of data. -/
theorem names_spec {m : Messages} {payload : Int32} {name : String}
    (h : name ∈ (labels (items m payload)).map Label.name) :
    ¬ "$".toList <+: name.toList ∧ ¬ "const_".toList <+: name.toList := by
  rw [labels_eq_codes] at h
  have hall : ∀ name ∈ (codes.flatMap LabelSource.ofCode).map LabelSource.label,
      ¬ "$".toList <+: name.toList ∧ ¬ "const_".toList <+: name.toList := by decide +kernel
  exact hall name h

end Routine

namespace CompiledAs

variable {p : Program} {settings : CodegenSettings} {a : Assembly} {table : SymbolTable}
  {bodies : List Body} {payload : Int32} {img : Image} {s : State}

/-- The messages that the routines of a program print. -/
abbrev messages (p : Program) (settings : CodegenSettings) (table : SymbolTable) :
    Routine.Messages :=
  (Routine.messages (Function.constants p settings.comments table)).1

/-- The constants of a program. -/
abbrev constants (p : Program) (settings : CodegenSettings) (table : SymbolTable) : ConstantPool :=
  DataSegment.finalPool table (Routine.messages (Function.constants p settings.comments table)).2

variable (h : CompiledAs p settings a table bodies payload)

include h

/-- Names of variables and classes begin with a dollar, those of constants like each other. -/
theorem data_names {name : String}
    (hname : name ∈ DataSegment.defined a.data) :
    "$".toList <+: name.toList ∨ "const_".toList <+: name.toList := by
  have hdollar (rest : String) : "$".toList <+: ("$" ++ rest).toList := by
    rw [String.toList_append]
    exact List.prefix_append _ _
  rw [h.data, DataSegment.defined_all, h.globals_labels, h.classes_labels] at hname
  simp only [List.mem_append] at hname
  rcases hname with ((hvar | hcls) | hlist) | hconst
  · rw [List.map_map, List.map_map] at hvar
    obtain ⟨g, -, rfl⟩ := List.mem_map.mp hvar
    exact .inl (hdollar g.name)
  · obtain ⟨_, hmem, rfl⟩ := List.mem_map.mp hcls
    obtain ⟨cls, -, hmem⟩ := List.mem_flatMap.mp hmem
    obtain ⟨object, rfl⟩ := LabelSource.eq_of_mem_ofClass hmem
    show "$".toList <+: ("$" ++ cls ++ "$" ++ object).toList ∨ _
    rw [String.append_assoc, String.append_assoc]
    exact .inl (hdollar _)
  · rw [List.mem_singleton.mp hlist]
    exact .inl (by decide)
  · exact .inr (ConstantPool.names_spec (List.mem_append.mpr hconst)).1

/-- Routines at the end of the text of a loaded program, in terms of what comes before them. -/
theorem holds_routines_after
    (hload : load a = .ok (img, s)) {pre : List Item} {inside : Nat → Prop}
    (htext : a.text = pre ++ Routine.items (messages p settings table) payload)
    (hin : ∀ j, (instrs pre).length ≤ j → inside j) :
    img.Holds inside (instrs pre).length (Routine.items (messages p settings table) payload) := by
  refine holds_last hload htext (Routine.nodup_names _ _) (fun name hname hdata => ?_)
    fun j _ => hin _ (Nat.le_add_right _ j)
  obtain ⟨hdollar, hconst⟩ := Routine.names_spec hname
  exact (h.data_names hdata).elim hdollar hconst

/-- The routines of a loaded program stand at the end of its text. -/
theorem holds_routines (hload : load a = .ok (img, s)) :
    ∃ k, img.Holds (fun _ => True) k (Routine.items (messages p settings table) payload) :=
  ⟨_, h.holds_routines_after hload h.text fun _ _ => trivial⟩

theorem holds_routine (hload : load a = .ok (img, s))
    {items : List Item} (hitems : items ∈ Routine.parts (messages p settings table) payload) :
    ∃ k, img.Holds (fun _ => True) k items := by
  obtain ⟨k, hk⟩ := h.holds_routines hload
  rw [Routine.items_eq_flatten] at hk
  exact hk.part hitems

/-- The constants of a loaded program are in memory at the end of its data. -/
theorem laid_constants (hload : load a = .ok (img, s))
    (hdata : a.dataTop ≤ UInt32.size) :
    ∃ c, dataBase.toNat ≤ c ∧ Datum.top c (constants p settings table).data = a.dataTop ∧
      img.Laid s.memory c (constants p settings table).data := by
  have hsplit := h.data
  rw [DataSegment.all_eq] at hsplit
  refine ⟨_, Datum.le_top _ _, ?_, laid_last hload hsplit ?_ hdata⟩
  · rw [← Datum.top_append, ← hsplit]
    rfl
  · show (DataSegment.defined _).Nodup
    rw [DataSegment.defined_pool]
    exact ConstantPool.nodup_names _

/-- The prototypes that routines take headers from are in the data. -/
theorem label?_prototype
    (hload : load a = .ok (img, s)) {l : Label}
    (hl : l ∈ [Routine.strPrototype, Routine.listPrototype]) :
    ∃ n, dataBase.toNat ≤ n ∧ n ≤ a.dataTop ∧ img.label? l.name = some (UInt32.ofNat n) := by
  refine label?_of_data hload (List.mem_map_of_mem (List.mem_filterMap.mpr ⟨.label l, ?_, rfl⟩))
  rw [h.data]
  obtain ⟨-, hgrows⟩ := SymbolTable.Closed.ofProgram h.symbols
  rcases List.mem_pair.mp hl with rfl | rfl
  · have hstr : (Object.strTag, Routine.strPrototype, Label.global "$str$dispatchTable") ∈
        SymbolTable.predefined.classHeads := by
      rw [DataSegment.predefined_heads]
      exact .tail _ (.tail _ (.tail _ (.head _)))
    exact (DataSegment.predefined_mem_all hgrows hstr).1
  · exact DataSegment.listPrototype_mem_all

/-- The header of a prototype begins twelve bytes before its label. -/
theorem prototype_header (hload : load a = .ok (img, s))
    (hdata : a.dataTop < UInt32.size) {l : Label}
    (hl : l ∈ [Routine.strPrototype, Routine.listPrototype]) :
    ∃ q : Addr, img.label? l.name = some (q + 12) ∧ State.nullPage.toNat ≤ q.toNat ∧
      q.toNat + 12 ≤ a.dataTop := by
  obtain ⟨n, hlow, hhigh, hlabel⟩ := h.label?_prototype hload hl
  have hbase : dataBase.toNat = 268435456 := rfl
  have hnull : State.nullPage.toNat = 4096 := rfl
  have hn : UInt32.ofNat n = UInt32.ofNat (n - 12) + 12 :=
    (congrArg UInt32.ofNat (Nat.sub_add_cancel (by omega)).symm).trans
      (UInt32.ofNat_add (n - 12) 12)
  have hq : (UInt32.ofNat (n - 12)).toNat = n - 12 := UInt32.toNat_ofNat_of_lt' (by omega)
  exact ⟨_, hn ▸ hlabel, by omega, by omega⟩

end CompiledAs

/-- Whether a program is compiled and loaded, with code that does not wrap around, and passes a
check. -/
def Program.loadsWith (p : Program) (settings : CodegenSettings)
    (check : Assembly → Image → State → Bool) : Bool :=
  (compile p settings).toOption.any fun a => (load a).toOption.any fun r =>
    decide (textBase.toNat + 4 * r.1.code.size ≤ UInt32.size) && check a r.1 r.2

theorem Program.exists_loaded {p : Program} {settings : CodegenSettings}
    {check : Assembly → Image → State → Bool} (h : p.loadsWith settings check = true) :
    ∃ a img init, compile p settings = .ok a ∧ load a = .ok (img, init) ∧ img.Unwrapped ∧
      check a img init = true := by
  obtain ⟨a, hcompile, h⟩ := exists_ok_of_any h
  obtain ⟨⟨img, init⟩, hload, h⟩ := exists_ok_of_any h
  rw [Bool.and_eq_true, decide_eq_true_eq] at h
  exact ⟨a, img, init, hcompile, hload, h.1, h.2⟩

/-- The program without statements is compiled and loaded, with all routines. Its data ends far
below the stack. -/
theorem exists_loaded_empty :
    ∃ (a : Assembly) (img : Image) (init : State), compile {} ⟨.physical, false, 4⟩ = .ok a ∧
      load a = .ok (img, init) ∧ img.Unwrapped ∧ a.dataTop ≤ 536870912 ∧
      ∀ l ∈ [Routine.strcat, Routine.listconcat, Routine.streql, Routine.print],
        ∃ addr, img.label? l.name = some addr := by
  have hcheck : Program.loadsWith {} ⟨.physical, false, 4⟩ (fun a img _ =>
      decide (a.dataTop ≤ 536870912) &&
        [Routine.strcat, Routine.listconcat, Routine.streql, Routine.print].all
          fun l => (img.label? l.name).isSome) = true := by decide +kernel
  obtain ⟨a, img, init, hcompile, hload, himg, ha⟩ := Program.exists_loaded hcheck
  rw [Bool.and_eq_true, decide_eq_true_eq, List.all_eq_true] at ha
  exact ⟨a, img, init, hcompile, hload, himg, ha.1, fun l hl =>
    Option.isSome_iff_exists.mp (ha.2 l hl)⟩

end ChocoRV
