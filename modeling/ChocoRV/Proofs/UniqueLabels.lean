import Mathlib
import ChocoRV.Proofs.Link
import ChocoRV.Proofs.Listing.Operation
import ChocoRV.Proofs.Symbol.Naming

/-!
# No label is defined twice

Labels come from the units of a program, the support routines, the variables, the classes and the
constants. `LabelSource` is what a label comes from; the name of the label, split at its dollars,
tells the source. So it is enough that the sources of an assembly are different, which they are for
programs whose names are plain and different in each place.
-/

namespace ChocoRV

open Assembly

/-! ## Where labels come from -/

/-- What has a label of its own: a part that every program has, under a fixed name, or a function or
variable of the program. -/
inductive LabelOwner where
  | fixed (name : String)
  | user (name : String)
deriving DecidableEq

namespace LabelOwner

def label : LabelOwner → String
  | .fixed name => name
  | .user name => "$" ++ name

/-- Owners whose labels can be told apart. -/
def Proper : LabelOwner → Prop
  | .fixed name => name ≠ "" ∧ '$' ∉ name.toList
  | .user name => '$' ∉ name.toList

/-- The label between its dollars. -/
def parts : LabelOwner → List (List Char)
  | .fixed name => [name.toList]
  | .user name => [[], name.toList]

theorem nameParts_user {name : String} (h : '$' ∉ name.toList) :
    nameParts '$' ("$" ++ name) = [[], name.toList] := by
  have hempty : "$" ++ name = "" ++ "$" ++ name := by rw [String.empty_append]
  rw [hempty, nameParts_join rfl, nameParts_of_not_mem h, nameParts_of_not_mem (by simp)]
  rfl

theorem nameParts_label {o : LabelOwner} (h : o.Proper) : nameParts '$' o.label = o.parts := by
  cases o with
  | fixed name => exact nameParts_of_not_mem h.2
  | user name => exact nameParts_user h

theorem nodup_owners {fixedNames userNames : List String} (hf : fixedNames.Nodup)
    (hu : userNames.Nodup) : (fixedNames.map fixed ++ userNames.map user).Nodup :=
  List.nodup_append'.mpr ⟨hf.map fun _ _ => fixed.inj, hu.map fun _ _ => user.inj,
    by simp [List.disjoint_left]⟩

end LabelOwner

/-- What a label comes from: an owner itself, the code of an owner, where labels have numbers, or a
class, which has two objects. -/
inductive LabelSource where
  | own (o : LabelOwner)
  | inner (o : LabelOwner) (k : Nat)
  | classObject (cls object : String)

namespace LabelSource

def label : LabelSource → String
  | .own o => o.label
  | .inner o k => (Label.nth o.label k).name
  | .classObject cls object => (LabelOwner.user cls).label ++ "$" ++ object

def Proper : LabelSource → Prop
  | .own o | .inner o _ => o.Proper
  | .classObject cls object => (LabelOwner.user cls).Proper ∧
    object ∈ ["prototype", "dispatchTable"]

def parts : LabelSource → List (List Char)
  | .own o => o.parts
  | .inner o k => o.parts ++ ['L' :: (toString k).toList]
  | .classObject cls object => (LabelOwner.user cls).parts ++ [object.toList]

variable {s : LabelSource}

theorem nameParts_label (h : s.Proper) : nameParts '$' s.label = s.parts := by
  cases s with
  | own o => exact LabelOwner.nameParts_label h
  | inner o k =>
    have hjoin : (Label.nth o.label k).name = o.label ++ "$" ++ ("L" ++ toString k) := by
      show o.label ++ ("$" ++ "L") ++ toString k = _
      rw [← String.append_assoc, ← String.append_assoc]
    have hl : '$' ∉ ("L" ++ toString k).toList := by
      rw [String.toList_append, List.mem_append, not_or]
      exact ⟨by decide, fun hk => absurd (Listing.isDigit_of_mem_toString hk) (by decide)⟩
    show nameParts '$' (Label.nth o.label k).name = _
    rw [hjoin, nameParts_join rfl, LabelOwner.nameParts_label h, nameParts_of_not_mem hl,
      String.toList_append]
    rfl
  | classObject cls object =>
    have hobject : '$' ∉ object.toList := by
      rcases List.mem_pair.mp h.2 with rfl | rfl
      · decide
      · decide
    show nameParts '$' ((LabelOwner.user cls).label ++ "$" ++ object) = _
    rw [nameParts_join rfl, LabelOwner.nameParts_label h.1, nameParts_of_not_mem hobject]
    rfl

theorem parts_inj {s' : LabelSource} (h : s.Proper) (h' : s'.Proper) (heq : s.parts = s'.parts) :
    s = s' := by
  have hnumber {k k' : Nat} (hk : (toString k).toList = (toString k').toList) : k = k' :=
    Nat.repr_injective (String.toList_inj.mp hk)
  -- No object of a class is called as a number is.
  have hobject (k : Nat) : ∀ object ∈ ["prototype", "dispatchTable"],
      object.toList ≠ 'L' :: (toString k).toList := by simp
  rcases s with (_ | _) | ⟨_ | _, _⟩ | ⟨_, _⟩ <;> rcases s' with (_ | _) | ⟨_ | _, _⟩ | ⟨_, _⟩ <;>
    grind [Proper, parts, LabelOwner.Proper, LabelOwner.parts, String.toList_inj,
      String.toList_eq_nil_iff]

/-- Different sources have different labels. -/
theorem label_inj {s' : LabelSource} (h : s.Proper) (h' : s'.Proper) (heq : s.label = s'.label) :
    s = s' := by
  refine parts_inj h h' ?_
  rw [← nameParts_label h, ← nameParts_label h', heq]

/-! ### Sources of code and of data -/

/-- The code of an owner: its own label and numbered ones. -/
def ofCode (code : LabelOwner × List Nat) : List LabelSource :=
  .own code.1 :: code.2.map (.inner code.1)

/-- The two objects of a class. -/
def ofClass (cls : String) : List LabelSource :=
  [.classObject cls "prototype", .classObject cls "dispatchTable"]

def owner? : LabelSource → Option LabelOwner
  | .own o | .inner o _ => some o
  | .classObject .. => none

theorem owner?_of_mem_ofCode {code : LabelOwner × List Nat} (h : s ∈ ofCode code) :
    s.owner? = some code.1 := by
  grind [ofCode, owner?]

theorem nodup_ofCode {code : LabelOwner × List Nat} (h : code.2.Nodup) : (ofCode code).Nodup :=
  List.nodup_cons.mpr ⟨by simp, h.map fun _ _ hjk => (inner.inj hjk).2⟩

/-- Code of different owners, each with different numbers. -/
theorem nodup_flatMap_ofCode {codes : List (LabelOwner × List Nat)}
    (ho : (codes.map Prod.fst).Nodup) (hk : ∀ code ∈ codes, code.2.Nodup) :
    (codes.flatMap ofCode).Nodup := by
  refine List.nodup_flatMap.mpr ⟨fun code hcode => nodup_ofCode (hk code hcode), ?_⟩
  refine (List.pairwise_map.mp ho).imp fun {code code'} hne s hs hs' => hne ?_
  exact Option.some.inj ((owner?_of_mem_ofCode hs).symm.trans (owner?_of_mem_ofCode hs'))

/-- All sources of an assembly: code, variables, classes, the prototype of lists and constants. -/
def all (codes : List (LabelOwner × List Nat)) (vars : List LabelOwner) (classes : List String)
    (constants : List LabelOwner) : List LabelSource :=
  codes.flatMap ofCode ++
    (vars.map own ++ classes.flatMap ofClass ++ [classObject ".list" "prototype"] ++
      constants.map own)

theorem eq_of_mem_ofClass {cls : String} (h : s ∈ ofClass cls) :
    ∃ object, s = .classObject cls object := by
  grind [ofClass]

variable {classes : List String}

/-- Different classes have different objects, and none of them is the prototype of lists. -/
theorem nodup_classes (hc : (classes ++ [".list"]).Nodup) :
    (classes.flatMap ofClass ++ [classObject ".list" "prototype"]).Nodup := by
  obtain ⟨hclasses, -, hlist⟩ := List.nodup_append'.mp hc
  refine List.nodup_append'.mpr ⟨List.nodup_flatMap.mpr ⟨fun cls _ => ?_, ?_⟩,
    List.nodup_singleton _, fun s hs hs' => ?_⟩
  · simp [ofClass]
  · refine hclasses.imp fun {cls cls'} hne s hs hs' => hne ?_
    obtain ⟨object, rfl⟩ := eq_of_mem_ofClass hs
    obtain ⟨object', heq⟩ := eq_of_mem_ofClass hs'
    exact (classObject.inj heq).1
  · obtain ⟨cls, hcls, hs⟩ := List.mem_flatMap.mp hs
    obtain ⟨object, rfl⟩ := eq_of_mem_ofClass hs
    exact hlist (hcls) (List.mem_singleton.mpr (classObject.inj (List.mem_singleton.mp hs')).1)

/-- The sources are different if the owners are, the numbers in the code of each, and the
classes. -/
theorem nodup_all {codes : List (LabelOwner × List Nat)} {vars : List LabelOwner}
    {constants : List LabelOwner} (ho : (codes.map Prod.fst ++ (vars ++ constants)).Nodup)
    (hk : ∀ code ∈ codes, code.2.Nodup) (hc : (classes ++ [".list"]).Nodup) :
    (all codes vars classes constants).Nodup := by
  obtain ⟨hcodes, hdata, hdisj⟩ := List.nodup_append'.mp ho
  -- The constants come last; for the proof they stand beside the variables.
  have hperm : (vars.map own ++ classes.flatMap ofClass ++ [classObject ".list" "prototype"] ++
      constants.map own).Perm ((vars ++ constants).map own ++
        (classes.flatMap ofClass ++ [classObject ".list" "prototype"])) := by
    rw [List.map_append, List.append_assoc, List.append_assoc, List.append_assoc]
    refine List.Perm.append_left _ ?_
    rw [← List.append_assoc]
    exact List.perm_append_comm
  have hclasses {s : LabelSource}
      (hs : s ∈ classes.flatMap ofClass ++ [classObject ".list" "prototype"]) :
        s.owner? = none := by
    rcases List.mem_append.mp hs with hs | hs
    · obtain ⟨cls, -, hs⟩ := List.mem_flatMap.mp hs
      obtain ⟨object, rfl⟩ := eq_of_mem_ofClass hs
      rfl
    · cases List.mem_singleton.mp hs
      rfl
  have hall : ((vars ++ constants).map own ++
      (classes.flatMap ofClass ++ [classObject ".list" "prototype"])).Nodup := by
    refine List.nodup_append'.mpr ⟨hdata.map fun o o' h => own.inj h, nodup_classes hc,
      fun s hs hs' => ?_⟩
    obtain ⟨o, -, rfl⟩ := List.mem_map.mp hs
    cases hclasses hs'
  refine List.nodup_append'.mpr ⟨nodup_flatMap_ofCode hcodes hk, hperm.nodup_iff.mpr hall,
    fun s hs hs' => ?_⟩
  obtain ⟨code, hcode, hs⟩ := List.mem_flatMap.mp hs
  have howner := owner?_of_mem_ofCode hs
  rcases List.mem_append.mp (hperm.mem_iff.mp hs') with hs' | hs'
  · obtain ⟨o, ho, rfl⟩ := List.mem_map.mp hs'
    cases howner
    exact hdisj (List.mem_map_of_mem hcode) ho
  · rw [hclasses hs'] at howner
    cases howner

theorem proper_all {codes : List (LabelOwner × List Nat)} {vars : List LabelOwner}
    {constants : List LabelOwner} (ho : ∀ o ∈ codes.map Prod.fst ++ (vars ++ constants), o.Proper)
    (hc : ∀ cls ∈ classes, '$' ∉ cls.toList) :
    ∀ s ∈ all codes vars classes constants, s.Proper := by
  intro s hs
  simp only [List.forall_mem_append, List.forall_mem_map] at ho
  simp only [all, ofCode, ofClass, List.mem_append, List.mem_flatMap, List.mem_cons, List.mem_map,
    List.not_mem_nil, or_false] at hs
  rcases hs with ⟨code, hcode, rfl | ⟨k, -, rfl⟩⟩ | ((⟨o, hv, rfl⟩ | ⟨cls, hcls, rfl | rfl⟩) | rfl)
    | ⟨o, hk, rfl⟩
  · exact ho.1 code hcode
  · exact ho.1 code hcode
  · exact ho.2.1 o hv
  · exact ⟨hc cls hcls, by decide⟩
  · exact ⟨hc cls hcls, by decide⟩
  · exact ⟨by show '$' ∉ ".list".toList; decide, by decide⟩
  · exact ho.2.2 o hk

end LabelSource

/-! ## Code -/

namespace SymbolTable

/-- A function of the program has a label of its own kind. -/
theorem Built.userLabel {t : SymbolTable} (h : Built t) :
    ∀ f ∈ t.funcs.toList, f.builtin = false → f.label = SymbolTable.userLabel f.name := by
  induction h with
  | empty => exact fun f hf => absurd hf List.not_mem_nil
  | cls _ _ _ _ ih | constructor _ _ ih | attr _ _ _ _ ih | method _ _ _ _ _ ih | global _ _ _ ih
  | name _ _ _ ih => exact ih
  | @builtin t _ name result _ ih =>
    intro f hf hb
    have hf : f ∈ (t.funcs.push _).toList := hf
    rw [Array.toList_push] at hf
    rcases List.mem_append.mp hf with hf | hf
    · exact ih f hf hb
    · cases List.mem_singleton.mp hf
      cases hb
  | func _ _ ho ih =>
    obtain ⟨entries, locals, -, rfl⟩ := openFunction_eq_ok ho
    intro f hf hb
    rw [Array.toList_push] at hf
    rcases List.mem_append.mp hf with hf | hf
    · exact ih f hf hb
    · cases List.mem_singleton.mp hf
      rfl

theorem toList_funcs (t : SymbolTable) :
    t.funcs.toList = (List.range t.funcs.size).map t.func := by
  refine List.ext_getElem? fun k => ?_
  rw [List.getElem?_map, Array.getElem?_toList]
  by_cases hk : k < t.funcs.size
  · simp [func, Array.getD, hk]
  · simp [hk]

theorem map_func_compiled (t : SymbolTable) :
    t.compiled.map t.func = t.funcs.toList.filter (!·.builtin) := by
  rw [toList_funcs, List.filter_map]
  rfl

end SymbolTable

namespace Function

/-- What owns the label of a unit. -/
def ownerOf (table : SymbolTable) : Option Nat → LabelOwner
  | none => .fixed main
  | some id => .user (table.func id).name

theorem map_ownerOf (table : SymbolTable) :
    (units table).map (ownerOf table) = .fixed main :: table.userNames.map .user := by
  rw [SymbolTable.userNames, ← table.map_func_compiled]
  simp [units, ownerOf]

theorem label_ownerOf {p : Program} {table : SymbolTable} (h : SymbolTable.ofProgram p = .ok table)
    {u : Option Nat} (hu : u ∈ units table) : (ownerOf table u).label = (entryOf table u).name := by
  rcases List.mem_cons.mp hu with rfl | hu
  · rfl
  · obtain ⟨id, hid, rfl⟩ := List.mem_map.mp hu
    obtain ⟨hlt, hb⟩ := List.mem_filter.mp hid
    have hlabel := (SymbolTable.Built.ofProgram h).userLabel _
      (SymbolTable.mem_of_func (List.mem_range.mp hlt)) (by simpa using hb)
    show "$" ++ (table.func id).name = (table.func id).label.name
    rw [hlabel]
    rfl

end Function

namespace Routine

/-- The routines with the numbers of their labels. -/
def codes : List (LabelOwner × List Nat) :=
  [(.fixed "error.None", []), (.fixed "error.Div", []), (.fixed "error.OOB", []),
    (.fixed "abort", []), (.fixed "alloc", [0, 1]), (.fixed "alloc2", [0, 1]),
    (.fixed "object.__init__", []), (.fixed "print", [0, 1, 2, 3]), (.fixed "len", []),
    (.fixed "str.char", []), (.fixed "strcat", [0, 1, 2, 3]), (.fixed "listconcat", [0, 1, 2, 3]),
    (.fixed "streql", [0, 1, 2])]

theorem labels_eq_codes (m : Messages) (payload : Int32) :
    (labels (items m payload)).map Label.name = (codes.flatMap LabelSource.ofCode).map
      LabelSource.label := by
  rw [(uses_items m payload).1]
  rfl

end Routine

/-! ## Units -/

open scoped List in
/-- The labels that are to be placed and those that are made are placed, each of them once, except
for those that are still to be placed at the end. -/
theorem Traced.placed {env : Env} {E : Prop} {σ σ' : Draft.Scene} {s s' : Draft.State}
    {evs : List Event} (h : Traced env E σ s evs s' σ') :
    ∃ n, s'.labels = s.labels + n ∧ (labels (Body.draftItems evs) ++ σ'.owed).Perm
      (σ.owed ++ (List.range' s.labels n).map (.nth env.unit)) := by
  induction h with
  | nil | instr | take | release | intern | literal =>
      exact ⟨0, rfl, .of_eq (List.append_nil _).symm⟩
  | @append σ σ₁ σ₂ s s₁ s₂ e₁ e₂ _ _ ih₁ ih₂ =>
    obtain ⟨m, hm, h₁⟩ := ih₁
    obtain ⟨n, hn, h₂⟩ := ih₂
    refine ⟨m + n, by omega, ?_⟩
    rw [Body.draftItems, List.filterMap_append, labels_append, List.append_assoc,
      ← List.range'_append_1, List.map_append, ← hm]
    calc
      _ ~ labels (Body.draftItems e₁) ++ (σ₁.owed ++ _) := h₂.append_left _
      _ = labels (Body.draftItems e₁) ++ σ₁.owed ++ _ := (List.append_assoc ..).symm
      _ ~ σ.owed ++ _ ++ _ := h₁.append_right _
      _ = _ := List.append_assoc ..
  | fresh =>
    refine ⟨1, rfl, ?_⟩
    exact (List.perm_append_singleton _ _).symm
  | @label _ _ l _ _ _ before after ho =>
    refine ⟨0, rfl, ?_⟩
    rw [ho, List.range'_zero, List.map_nil, List.append_nil]
    show l :: (before ++ after) ~ _
    exact List.perm_middle.symm
  | drop _ _ ih => exact ih

/-- The draft of a unit places numbered labels, different ones and none with the number of its
exit. -/
theorem Function.labels_draftOf {table : SymbolTable} {comments : Bool} {body : List Stmt}
    {pool : ConstantPool} {u : Option Nat}
    (h : (draftOf table comments body pool u).value = .ok ()) :
    ∃ ks : List Nat, (ks ++ [0]).Nodup ∧
      labels (Body.draftItems (draftOf table comments body pool u).events) =
        ks.map (Label.nth (entryOf table u).name) := by
  have hunit : (envOf table comments u).unit = (entryOf table u).name := by cases u <;> rfl
  obtain ⟨n, -, hperm⟩ := (draftOf_traced h).placed
  rw [List.append_nil, List.nil_append, hunit] at hperm
  obtain ⟨ks, heq, hks⟩ :
      Relation.Comp (· = List.map (Label.nth (entryOf table u).name) ·) List.Perm
        (labels (Body.draftItems (draftOf table comments body pool u).events))
        (List.range' 1 n) := by
    rw [List.eq_map_comp_perm]
    exact hperm
  refine ⟨ks, ?_, heq⟩
  rw [((hks.append_right [0]).trans (List.perm_append_singleton 0 _)).nodup_iff]
  exact List.nodup_cons.mpr ⟨by simp, List.nodup_range'⟩

namespace CompiledAs

variable {p : Program} {settings : CodegenSettings} {a : Assembly} {table : SymbolTable}
  {bodies : List Body} {payload : Int32}

/-- The labels of one unit. -/
theorem unit_labels (h : CompiledAs p settings a table bodies payload)
    {ud : Option Nat × Draft.Result Unit} {b : Body}
    (hb : (ud, b) ∈ (Function.programDrafts p settings.comments table).zip bodies) :
    ∃ ks : List Nat, ks.Nodup ∧ (labels (Function.wrap table ud.1 b)).map Label.name =
      (LabelSource.ofCode (Function.ownerOf table ud.1, ks)).map LabelSource.label := by
  obtain ⟨hu, hbody, pool, hd⟩ := h.body_eq_ok hb
  obtain ⟨hvalue, hlabels, -⟩ := Body.ofDraft_labels hbody
  rw [hd] at hvalue hlabels
  obtain ⟨ks, hks, hdraft⟩ := Function.labels_draftOf hvalue
  refine ⟨ks ++ [0], hks, ?_⟩
  rw [Function.labels_wrap, hlabels, hdraft]
  have hname := Function.label_ownerOf h.symbols hu
  simp [LabelSource.ofCode, LabelSource.label, hname]

/-- The labels of all units, in order. -/
theorem units_labels (h : CompiledAs p settings a table bodies payload) :
    ∃ codes : List (LabelOwner × List Nat), (∀ code ∈ codes, code.2.Nodup) ∧
      codes.map Prod.fst = (Function.units table).map (Function.ownerOf table) ∧
      (labels (List.zipWith (fun ud b => Function.wrap table ud.1 b)
        (Function.programDrafts p settings.comments table) bodies).flatten).map Label.name =
        (codes.flatMap LabelSource.ofCode).map LabelSource.label := by
  choose! ks hks hlabels using fun x
    (hx : x ∈ (Function.programDrafts p settings.comments table).zip bodies) => h.unit_labels hx
  refine ⟨((Function.programDrafts p settings.comments table).zip bodies).map fun x =>
    (Function.ownerOf table x.1.1, ks x), List.forall_mem_map.mpr hks, ?_, ?_⟩
  · have hzip := List.map_fst_zip h.made.length_eq.le
    rw [← Function.map_fst_programDrafts p settings.comments]
    nth_rewrite 2 [← hzip]
    simp [Function.comp_def]
  · rw [← List.map_uncurry_zip_eq_zipWith, ← List.flatMap_def, labels, List.filterMap_flatMap,
      List.flatMap_map, List.map_flatMap, List.map_flatMap]
    exact List.flatMap_congr hlabels

end CompiledAs

/-! ## Data -/

namespace DataSegment

/-- The labels that a part of the data segment defines. -/
def defined (ds : List Datum) : List String := (ds.filterMap Datum.label?).map Label.name

theorem defined_append (xs ys : List Datum) : defined (xs ++ ys) = defined xs ++ defined ys := by
  unfold defined
  rw [List.filterMap_append, List.map_append]

@[simp] theorem label?_toDatum (v : WordValue) : v.toDatum.label? = none := by
  cases v with
  | word | address => rfl

theorem defined_literalWords (ls : List (Literal × ValueType)) (pool : ConstantPool) :
    defined (literalWords ls pool).1 = [] := by
  induction ls generalizing pool with
  | nil => rfl
  | cons l ls ih =>
    rw [literalWords_cons]
    simpa [defined] using ih _

theorem defined_globals (gs : List GlobalVar) (pool : ConstantPool) :
    defined (globals gs pool).1 = gs.map (·.label.name) := by
  induction gs generalizing pool with
  | nil => rfl
  | cons g gs ih =>
    rw [globals_cons]
    have htail := ih (pool.literal g.init g.type).2
    rw [defined] at htail ⊢
    rw [List.filterMap_cons, List.filterMap_cons_none (label?_toDatum _)]
    exact congrArg (g.label.name :: ·) htail

theorem defined_prototype (c : ClassInfo) (pool : ConstantPool) :
    defined (prototype c pool).1 = [c.prototype.name] := by
  unfold prototype
  split
  · rfl
  · exact congrArg (c.prototype.name :: ·) (defined_literalWords _ pool)

theorem defined_dispatchTable (c : ClassInfo) :
    defined (dispatchTable c) = [c.dispatchTable.name] := by
  simp [defined, dispatchTable, Datum.label?]

theorem defined_classes (cs : List ClassInfo) (pool : ConstantPool) :
    defined (classes cs pool).1 = cs.flatMap fun c => [c.prototype.name, c.dispatchTable.name] := by
  induction cs generalizing pool with
  | nil => rfl
  | cons c cs ih => simp [classes, defined_append, defined_prototype, defined_dispatchTable, ih]

theorem defined_constants (cs : List Constant) (n : Nat) :
    defined ((cs.zipIdx n).flatMap fun (c, k) => ConstantPool.constantData
      (ConstantPool.label k) c) =
      (List.range' n cs.length).map fun k => "const_" ++ toString k := by
  induction cs generalizing n with
  | nil => rfl
  | cons c cs ih =>
    rw [List.zipIdx_cons, List.flatMap_cons, defined_append, ih, List.length_cons, List.range'_succ,
      List.map_cons]
    cases c with
    | str | int => rfl

/-- The labels of the constants. -/
theorem defined_pool (pool : ConstantPool) :
    defined pool.data = ["const_false", "const_true"] ++
      (List.range pool.entries.length).map fun k => "const_" ++ toString k := by
  rw [ConstantPool.data_eq, defined_append, defined_constants, List.range_eq_range']
  rfl

/-- The labels of the data segment. -/
theorem defined_all (table : SymbolTable) (pool : ConstantPool) :
    defined (all table pool) = table.globals.map (·.label.name) ++
      (table.classes.toList.flatMap fun c => [c.prototype.name, c.dispatchTable.name]) ++
      ["$.list$prototype"] ++ (["const_false", "const_true"] ++
        (List.range (finalPool table pool).entries.length).map
          fun k => "const_" ++ toString k) := by
  have hlist : defined (listPrototype table) = ["$.list$prototype"] := rfl
  rw [all_eq, defined_append, defined_append, defined_append, defined_globals,
    defined_classes, hlist, defined_pool]

end DataSegment

/-! ## Programs -/

/-! ### Fixed names -/

/-- The names of constants: the booleans, and the others by number. -/
def ConstantPool.names (n : Nat) : List String :=
  ["const_false", "const_true"] ++ (List.range n).map fun k => "const_" ++ toString k

theorem ConstantPool.nodup_names (n : Nat) : (names n).Nodup := by
  refine List.nodup_append'.mpr ⟨by decide, ?_, fun name hname hk => ?_⟩
  · refine List.nodup_range.map fun j k hjk => ?_
    exact Nat.repr_injective ((String.append_right_inj "const_").mp hjk)
  · -- The name of a boolean ends in a letter.
    obtain ⟨k, -, rfl⟩ := List.mem_map.mp hk
    have hletter : 'e' ∈ ("const_" ++ toString k).toList := by
      rcases List.mem_pair.mp hname with heq | heq <;> rw [heq] <;> decide
    rcases List.mem_append.mp (String.toList_append ▸ hletter) with he | he
    · exact absurd he (by decide)
    · exact absurd (Listing.isDigit_of_mem_toString he) (by decide)

theorem ConstantPool.names_spec {n : Nat} {name : String} (h : name ∈ names n) :
    "const_".toList <+: name.toList ∧ '$' ∉ name.toList := by
  rcases List.mem_append.mp h with h | h
  · rcases List.mem_pair.mp h with rfl | rfl
    · decide
    · decide
  · obtain ⟨k, -, rfl⟩ := List.mem_map.mp h
    rw [String.toList_append]
    refine ⟨List.prefix_append _ _, fun hd => ?_⟩
    rcases List.mem_append.mp hd with hd | hd
    · exact absurd hd (by decide)
    · exact absurd (Listing.isDigit_of_mem_toString hd) (by decide)

/-- The names of the top level and of the routines. -/
def codeNames : List String :=
  [Function.main, "error.None", "error.Div", "error.OOB", "abort", "alloc", "alloc2",
    "object.__init__", "print", "len", "str.char", "strcat", "listconcat", "streql"]

theorem nodup_fixedNames (n : Nat) : (codeNames ++ ConstantPool.names n).Nodup := by
  refine List.nodup_append'.mpr ⟨by decide, ConstantPool.nodup_names n, fun name hname hc => ?_⟩
  have hcode : ∀ name ∈ codeNames, ¬ "const_".toList <+: name.toList := by decide
  exact hcode name hname (ConstantPool.names_spec hc).1

theorem proper_fixedNames {n : Nat} {name : String} (h : name ∈ codeNames ++ ConstantPool.names n) :
    (LabelOwner.fixed name).Proper := by
  rcases List.mem_append.mp h with h | h
  · have hcode : ∀ name ∈ codeNames, name ≠ "" ∧ '$' ∉ name.toList := by decide
    exact hcode name h
  · obtain ⟨hconst, hdollar⟩ := ConstantPool.names_spec h
    refine ⟨?_, hdollar⟩
    rintro rfl
    exact absurd hconst (by decide)

/-! ### The whole assembly -/

namespace CompiledAs

variable {p : Program} {settings : CodegenSettings} {a : Assembly} {table : SymbolTable}
  {bodies : List Body} {payload : Int32}

theorem globals_labels (h : CompiledAs p settings a table bodies payload) :
    table.globals.map (·.label.name) = ((p.globalVars.map
      fun g => LabelOwner.user g.name).map .own).map LabelSource.label := by
  rw [(SymbolTable.names_ofProgram h.symbols).2, List.map_map, List.map_map]
  refine List.map_congr_left fun g hg => ?_
  obtain ⟨d, -, hd⟩ := List.mem_filterMap.mp hg
  cases d with
  | var =>
    cases hd
    rfl
  | func | cls | global | nonlocal => cases hd

theorem classes_labels (h : CompiledAs p settings a table bodies payload) :
    table.classes.toList.flatMap (fun c => [c.prototype.name, c.dispatchTable.name]) =
      (p.classNames.flatMap
        LabelSource.ofClass).map LabelSource.label := by
  rw [Program.classNames, ← (SymbolTable.Layered.ofProgram h.symbols).names, List.flatMap_map,
    List.map_flatMap]
  refine List.flatMap_congr fun c hc => ?_
  obtain ⟨hproto, hdisp⟩ := (SymbolTable.Built.ofProgram h.symbols).labelled c hc
  have hjoin (object : String) : "$" ++ c.name ++ ("$" ++ object) = "$" ++ c.name ++ "$" ++
      object := by
    rw [← String.append_assoc]
  rw [hproto, hdisp]
  exact congrArg₂ (fun x y => [x, y]) (hjoin "prototype") (hjoin "dispatchTable")

/-- What the labels of an assembly come from: the units and the routines with the numbers of their
labels, the variables, the classes and the constants. -/
theorem defs_eq (h : CompiledAs p settings a table bodies payload) :
    ∃ (codes : List (LabelOwner × List Nat)) (n : Nat), (∀ code ∈ codes, code.2.Nodup) ∧
      codes.map Prod.fst = .fixed Function.main :: p.functionNames.map .user ∧
      a.defs = (LabelSource.all (codes ++ Routine.codes)
        (p.globalVars.map fun g => .user g.name)
        p.classNames
        ((ConstantPool.names n).map .fixed)).map LabelSource.label := by
  obtain ⟨codes, hks, hfst, hlabels⟩ := h.units_labels
  rw [Function.map_ownerOf, (SymbolTable.names_ofProgram h.symbols).1] at hfst
  refine ⟨codes, (DataSegment.finalPool table (Routine.messages
    (Function.constants p settings.comments table)).2).entries.length, hks, hfst, ?_⟩
  have htext : (labels a.text).map Label.name =
      ((codes ++ Routine.codes).flatMap LabelSource.ofCode).map LabelSource.label := by
    rw [h.text, labels_append, List.map_append, hlabels, Routine.labels_eq_codes,
      List.flatMap_append, List.map_append]
  have hconstants (names : List String) :
      ((names.map LabelOwner.fixed).map LabelSource.own).map LabelSource.label = names := by
    rw [List.map_map, List.map_map]
    exact List.map_id names
  show (labels a.text).map Label.name ++ DataSegment.defined a.data = _
  rw [htext, h.data, DataSegment.defined_all, h.globals_labels, h.classes_labels, LabelSource.all,
    List.map_append, List.map_append, List.map_append, List.map_append, hconstants]
  rfl

end CompiledAs

/-- Owners under fixed names and owners under names of the program, which stand mixed in an
assembly. -/
theorem owners_perm {p : Program} {codes : List (LabelOwner × List Nat)} (n : Nat)
    (hfst : codes.map Prod.fst = .fixed Function.main :: p.functionNames.map .user) :
    ((codes ++ Routine.codes).map Prod.fst ++
      (p.globalVars.map (fun g => LabelOwner.user g.name) ++
        (ConstantPool.names n).map LabelOwner.fixed)).Perm
      ((codeNames ++ ConstantPool.names n).map LabelOwner.fixed ++
        (p.functionNames ++ p.globalVars.map GlobalVar.name).map LabelOwner.user) := by
  have hperm (m : LabelOwner) (fs rs gs ks : List LabelOwner) :
      (m :: (fs ++ rs) ++ (gs ++ ks)).Perm (m :: (rs ++ ks) ++ (fs ++ gs)) := by
    refine .cons m ?_
    show (fs ++ rs ++ (gs ++ ks)).Perm (rs ++ ks ++ (fs ++ gs))
    rw [← Multiset.coe_eq_coe]
    simp only [← Multiset.coe_add]
    abel
  have hvars : p.globalVars.map (fun g => LabelOwner.user g.name) =
      (p.globalVars.map GlobalVar.name).map LabelOwner.user := by
    rw [List.map_map]
    rfl
  rw [List.map_append, hfst, hvars, List.map_append, List.map_append]
  exact hperm _ _ (Routine.codes.map Prod.fst) _ _

/-- The labels of a compiled program come from different owners, and owners have different
labels. -/
theorem CompiledAs.nodup_defs {p : Program} {settings : CodegenSettings} {a : Assembly}
    {table : SymbolTable} {bodies : List Body} {payload : Int32}
    (hc : CompiledAs p settings a table bodies payload) (hp : p.WellNamed) : a.defs.Nodup := by
  obtain ⟨codes, n, hks, hfst, hdefs⟩ := hc.defs_eq
  obtain ⟨hclasses, hplain⟩ := hp.classes_nodup
  have hperm := owners_perm n hfst
  have hproper : ∀ o ∈ (codes ++ Routine.codes).map Prod.fst ++
      (p.globalVars.map (fun g => LabelOwner.user g.name) ++
        (ConstantPool.names n).map LabelOwner.fixed), o.Proper := by
    intro o ho
    rcases List.mem_append.mp (hperm.mem_iff.mp ho) with ho | ho
    · obtain ⟨name, hname, rfl⟩ := List.mem_map.mp ho
      exact proper_fixedNames hname
    · obtain ⟨name, hname, rfl⟩ := List.mem_map.mp ho
      exact hp.not_dollar_mem name hname
  have hsources := LabelSource.proper_all hproper fun c hc => (hplain c hc).2
  rw [hdefs]
  refine List.Nodup.map_on (fun s hs s' hs' => LabelSource.label_inj (hsources s hs)
    (hsources s' hs'))
    (LabelSource.nodup_all ?_ ?_ ?_)
  · exact hperm.nodup_iff.mpr (LabelOwner.nodup_owners (nodup_fixedNames n) hp.nodup_names)
  · have hroutines : ∀ code ∈ Routine.codes, code.2.Nodup := by decide
    exact List.forall_mem_append.mpr ⟨hks, hroutines⟩
  · refine List.nodup_append'.mpr ⟨hclasses, List.nodup_singleton _, fun c hc hlist => ?_⟩
    obtain rfl := List.mem_singleton.mp hlist
    exact absurd (hplain _ hc) (by decide)

/-- **Labels are unique.** In the assembly of a program whose names are plain and different in each
place, no label is defined twice, in text and data together. -/
theorem compiled_labels_unique {p : Program} {settings : CodegenSettings} {a : Assembly}
    (hp : p.WellNamed) (h : compile p settings = .ok a) : a.defs.Nodup := by
  obtain ⟨table, bodies, payload, hc⟩ := compile_eq_ok h
  exact hc.nodup_defs hp

theorem counterLoop_wellNamed : counterLoop.WellNamed where
  plain := by decide
  distinct := by decide
  nested := by
    simp only [counterLoop, Decl.AllWellNamed, Decl.WellNamed]
    decide
  classes := by
    show ∀ c ∈ counterLoop.decls.filterMap Decl.class?, _
    simp [counterLoop, Decl.class?]

theorem counterLoop_labels_unique :
    counterLoop.WellNamed ∧ ∃ a, compile counterLoop ⟨.physical, false, 4⟩ = .ok a ∧
      a.defs.Nodup := by
  refine ⟨counterLoop_wellNamed, ?_⟩
  have hok : (compile counterLoop ⟨.physical, false, 4⟩).isOk = true := by decide +kernel
  obtain ⟨a, h⟩ := exists_ok_of_isOk hok
  exact ⟨a, h, compiled_labels_unique counterLoop_wellNamed h⟩

end ChocoRV
