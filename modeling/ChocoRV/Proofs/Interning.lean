import Mathlib
import ChocoRV.Proofs.Draft.Yields
import ChocoRV.Proofs.LoadedData
import ChocoRV.Proofs.Machine.Objects
import ChocoRV.Proofs.UniqueLabels

/-!
# Constants and their labels

What a pool of constants does over a whole history of requests. The pool only ever grows at its end,
so the place of a constant is fixed by the requests before the first one for it: `ConstantPool.rank`
counts the different constants among them. One request keeps this (`Numbered.serve`), so every
history does (`numbered_after`), and the answer to a request can be read off the history without
running it (`answer?_eq`).

## Main definitions

* `ConstantPool.Request`, `ConstantPool.after`: what a pool is asked for, and the pool after that.
* `ConstantPool.Stored`: an object that the pool lays out, with all its entries.
* `SameValue`: an operation of the code and a word of the data stand for the same value.
* `ConstantPool.Corresponds`: what is to hold of a history. It speaks of the rows and of both maps
  of the pool, of the objects in the data, and of the two tables that turn a literal into an
  operation and into a data word.

## Main statement

* `ConstantPool.constants_and_labels_correspond`: it holds of every history.
-/

namespace ChocoRV

variable {r : Request} {i : Nat}

namespace ConstantPool

/-! ## Histories -/

/-- What a pool is asked for: a constant, or a literal as the value of a variable of some type. -/
inductive Request where
  | str (text : String)
  | int (n : Int32)
  | literal (lit : Literal) (type : ValueType)
deriving DecidableEq, Repr, Inhabited

namespace Request

/-- The answer to a request as a data word, and the pool after it. -/
def serve (pool : ConstantPool) : Request → Datum × ConstantPool
  | .str text => ⟨.address (pool.intern (.str text)).1, (pool.intern (.str text)).2⟩
  | .int n => ⟨.address (pool.intern (.int n)).1, (pool.intern (.int n)).2⟩
  | .literal lit type => pool.literalWord lit type

/-- The constant that a request needs. Plain words need none, and booleans always exist. -/
def constant? : Request → Option Constant
  | .str text | .literal (.str text) _ => some (.str text)
  | .int n => some (.int n)
  | .literal (.int n) type => if type.isUnboxed then none else some (.int n)
  | .literal (.bool _) _ | .literal .none _ => none

/-- What a request is answered with if constants are numbered in some way. -/
def value (number : Constant → Nat) : Request → Datum
  | .str text | .literal (.str text) _ => .address (label (number (.str text)))
  | .int n => .address (label (number (.int n)))
  | .literal (.int n) type => if type.isUnboxed then .word n else .address (label (number (.int n)))
  | .literal (.bool b) type => if type.isUnboxed then .word (boolWord b) else .address (boolLabel b)
  | .literal .none _ => .word 0

/-- A request that needs a constant is one to intern it. -/
theorem of_constant {c : Constant} (h : r.constant? = some c) :
    (∀ pool, r.serve pool = (.address (pool.intern c).1, (pool.intern c).2)) ∧
      ∀ number, r.value number = .address (label (number c)) := by
  cases r with
  | str | int =>
    cases h
    exact ⟨fun _ => rfl, fun _ => rfl⟩
  | literal lit type =>
    cases lit with
    | str =>
      cases h
      exact ⟨fun _ => rfl, fun _ => rfl⟩
    | int n =>
      obtain ⟨hboxed, hc⟩ := Option.ite_none_left_eq_some.mp h
      cases hc
      exact ⟨fun _ => if_neg hboxed, fun _ => if_neg hboxed⟩
    | bool | none => cases h

/-- A request that needs no constant leaves the pool alone and does not depend on it. -/
theorem of_plain (h : r.constant? = none) (pool : ConstantPool) (number : Constant → Nat) :
    r.serve pool = (r.value number, pool) := by
  cases r with
  | str | int => cases h
  | literal lit type =>
    cases lit with
    | str => cases h
    | int n =>
      have hplain : type.isUnboxed = true := by
        by_contra hboxed
        rw [constant?, if_neg hboxed] at h
        cases h
      exact (if_pos hplain).trans (congrArg (·, pool) (if_pos hplain).symm)
    | bool b =>
      rw [serve, literalWord, value]
      split <;> rfl
    | none => rfl

end Request

/-- The pool after requests to a new one. -/
def after (reqs : List Request) : ConstantPool := reqs.foldl (fun pool r => (r.serve pool).2) {}

/-- The answer to the request with number `i`. -/
def answer? (reqs : List Request) (i : Nat) : Option Datum :=
  reqs[i]?.map fun r => (r.serve (after (reqs.take i))).1

/-- The constants that requests need, as often as they need them. -/
def asked (reqs : List Request) : List Constant := reqs.filterMap Request.constant?

/-- How many different constants are asked for before `c` is for the first time. -/
def rank (cs : List Constant) (c : Constant) : Nat := (cs.take (cs.idxOf c)).toFinset.card

theorem after_append (reqs : List Request) (r : Request) :
    after (reqs ++ [r]) = (r.serve (after reqs)).2 :=
  List.foldl_concat _ _ _ _

theorem asked_append (xs ys : List Request) : asked (xs ++ ys) = asked xs ++ asked ys :=
    List.filterMap_append

theorem asked_singleton (r : Request) : asked [r] = r.constant?.toList := by
  unfold asked
  cases h : r.constant? with
  | none => rw [List.filterMap_cons_none h, List.filterMap_nil, Option.toList_none]
  | some c => rw [List.filterMap_cons_some h, List.filterMap_nil, Option.toList_some]

theorem mem_asked {reqs : List Request} {c : Constant} (hi : reqs[i]? = some r)
    (hc : r.constant? = some c) : c ∈ asked reqs :=
  List.mem_filterMap.mpr ⟨r, List.mem_of_getElem? hi, hc⟩

/-- Later requests do not change the rank of a constant. -/
theorem rank_append {cs : List Constant} {c : Constant} (h : c ∈ cs) (more : List Constant) :
    rank (cs ++ more) c = rank cs c := by
  rw [rank, List.idxOf_append_of_mem h, List.take_append_of_le_length (List.idxOf_le_length), rank]

/-- A constant that is new comes after all others. -/
theorem rank_new {cs : List Constant} {c : Constant}
    (h : c ∉ cs) : rank (cs ++ [c]) c = cs.toFinset.card := by
  rw [rank, List.idxOf_append_of_notMem h, List.idxOf_cons_self, Nat.add_zero, List.take_left]

/-! ## The numbering -/

/-- The entries of a pool are the constants that have been asked for, in the order of the first
requests. -/
structure Numbered (pool : ConstantPool) (cs : List Constant) : Prop where
  nodup : pool.entries.Nodup
  mem_iff {c : Constant} : c ∈ pool.entries ↔ c ∈ cs
  place {k : Nat} {c : Constant} (h : pool.entries[k]? = some c) : k = rank cs c

namespace Numbered

variable {pool : ConstantPool} {cs : List Constant} {c d : Constant}

variable (h : pool.Numbered cs)

include h

theorem length_eq : pool.entries.length = cs.toFinset.card := by
  have hsame : pool.entries.toFinset = cs.toFinset := by
    ext c
    rw [List.mem_toFinset, List.mem_toFinset, h.mem_iff]
  rw [← hsame, List.toFinset_card_of_nodup h.nodup]

theorem getElem?_rank (hc : c ∈ cs) : pool.entries[rank cs c]? = some c := by
  obtain ⟨k, hk⟩ := List.mem_iff_getElem?.mp (h.mem_iff.mpr hc)
  rw [← h.place hk]
  exact hk

theorem rank_inj (hc : c ∈ cs) (hd : d ∈ cs) : rank cs c = rank cs d ↔ c = d := by
  refine ⟨fun heq => ?_, congrArg _⟩
  have hplace := h.getElem?_rank hd
  rw [← heq, h.getElem?_rank hc] at hplace
  exact Option.some.inj hplace

/-- A constant that has been asked for is found, and the pool stays. -/
theorem intern_asked (hc : c ∈ cs) :
    pool.intern c = (label (rank cs c), pool) := by
  refine intern_old (List.idxOf?_eq_some_iff.mpr ?_)
  obtain ⟨hlt, hget⟩ := List.getElem?_eq_some_iff.mp (h.getElem?_rank hc)
  refine ⟨hlt, by simpa using hget, fun j hj heq => ?_⟩
  have := h.nodup.getElem_inj_iff.mp ((by simpa using heq : pool.entries[j] = c).trans hget.symm)
  omega

theorem again (hc : c ∈ cs) : pool.Numbered (cs ++ [c]) where
  nodup := h.nodup
  mem_iff := by
    intro d
    rw [h.mem_iff, List.mem_append, List.mem_singleton]
    exact ⟨.inl, fun hd => hd.elim id (· ▸ hc)⟩
  place hk := by
    rw [rank_append (h.mem_iff.mp (List.mem_of_getElem? hk))]
    exact h.place hk

/-- A constant that is new comes to the end. -/
theorem push {pool' : ConstantPool} (hc : c ∉ cs)
    (hpool' : pool'.entries = pool.entries ++ [c]) : pool'.Numbered (cs ++ [c]) where
  nodup := by
    rw [hpool']
    refine List.nodup_append'.mpr ⟨h.nodup, List.nodup_singleton c, ?_⟩
    exact List.disjoint_singleton.mpr (mt h.mem_iff.mp hc)
  mem_iff := by
    intro d
    rw [hpool', List.mem_append, List.mem_append, h.mem_iff]
  place {k d} hk := by
    rw [hpool'] at hk
    rcases Nat.lt_or_ge k pool.entries.length with hold | hnew
    · rw [List.getElem?_append_left hold] at hk
      rw [rank_append (h.mem_iff.mp (List.mem_of_getElem? hk))]
      exact h.place hk
    · rw [List.getElem?_append_right hnew, List.getElem?_singleton] at hk
      obtain ⟨hlast, hd⟩ := Option.ite_none_right_eq_some.mp hk
      cases hd
      rw [rank_new hc, ← h.length_eq]
      omega

/-- One request keeps the numbering, and the answer to it follows the numbering. -/
theorem serve (r : Request) :
    Numbered (r.serve pool).2 (cs ++ r.constant?.toList) ∧
      (r.serve pool).1 = r.value (rank (cs ++ r.constant?.toList)) := by
  cases hr : r.constant? with
  | none =>
    rw [Option.toList_none, List.append_nil, Request.of_plain hr pool (rank cs)]
    exact ⟨h, rfl⟩
  | some c =>
    obtain ⟨hserve, hvalue⟩ := Request.of_constant hr
    rw [Option.toList_some, hserve, hvalue]
    by_cases hc : c ∈ cs
    · rw [h.intern_asked hc, rank_append hc]
      exact ⟨h.again hc, rfl⟩
    · obtain ⟨pool', hintern, hpool'⟩ := exists_intern_new (mt h.mem_iff.mp hc)
      rw [hintern, rank_new hc, ← h.length_eq]
      exact ⟨h.push hc hpool', rfl⟩

end Numbered

/-- Every history keeps the numbering. -/
theorem numbered_after (reqs : List Request) : (after reqs).Numbered (asked reqs) := by
  induction reqs using List.reverseRecOn with
  | nil =>
    refine ⟨List.nodup_nil, Iff.rfl, fun h => ?_⟩
    cases h
  | append_singleton reqs r ih =>
    rw [after_append, asked_append, asked_singleton]
    exact (ih.serve r).1

/-- What a request is answered with is fixed by the constants that have been asked for up to then,
and stays so. -/
theorem answer?_eq {reqs : List Request} (hi : reqs[i]? = some r) :
    answer? reqs i = some (r.value (rank (asked reqs))) := by
  have hsplit : reqs = (reqs.take i ++ [r]) ++ reqs.drop (i + 1) := by
    have htake : reqs.take (i + 1) = reqs.take i ++ [r] := by
      rw [List.take_add_one, hi, Option.toList_some]
    rw [← htake, List.take_append_drop]
  rw [answer?, hi, Option.map_some, ((numbered_after (reqs.take i)).serve r).2]
  cases hr : r.constant? with
  | none =>
    have hplain := Request.of_plain hr {}
    exact congrArg (fun answer => some answer.1) ((hplain _).symm.trans (hplain _))
  | some c =>
    have hvalue := (Request.of_constant hr).2
    have hmem : c ∈ asked (reqs.take i) ++ [c] := List.mem_append_right _ List.mem_cons_self
    have hasked : asked reqs = (asked (reqs.take i) ++ [c]) ++ asked (reqs.drop (i + 1)) := by
      conv_lhs => rw [hsplit]
      rw [asked_append, asked_append, asked_singleton, hr, Option.toList_some]
    rw [hvalue, hvalue, hasked, rank_append hmem, Option.toList_some]

/-! ## Objects -/

/-- What the pool lays out: a constant that has been asked for, or a boolean. -/
inductive Stored where
  | constant (c : Constant)
  | bool (b : Bool)
deriving DecidableEq, Repr, Inhabited

variable {x : Stored}

namespace Stored

/-- The object with a label: three header words, the label, and the payload behind it. -/
def data (l : Label) : Stored → List Datum
  | .constant (.str text) =>
    [.word Object.strTag, .address (.global "$str$dispatchTable"),
      .word (Int32.ofNat text.utf8ByteSize), .label l, .ascii text, .align]
  | .constant (.int n) =>
    [.word Object.intTag, .address (.global "$int$dispatchTable"), .word 1, .label l, .word n]
  | .bool b =>
    [.word Object.boolTag, .address (.global "$bool$dispatchTable"), .word 1, .label l,
    .word (boolWord b)]

/-- The label that an object has to have after requests for constants. -/
def Labelled (cs : List Constant) (l : Label) : Stored → Prop
  | .constant c => c ∈ cs ∧ l = label (rank cs c)
  | .bool b => l = boolLabel b

theorem data_constant (l : Label) (c : Constant) : (constant c).data l = constantData l c := by
  cases c <;> rfl

/-- The label of an object comes after its header. -/
theorem label_at {l : Label} {ds : List Datum} (h : x.data l <+: ds.drop i) :
    ds[i + 3]? = some (.label l) := by
  obtain ⟨rest, hrest⟩ := h
  rw [← List.getElem?_drop, ← hrest]
  cases x with
  | constant c => cases c <;> rfl
  | bool b => rfl

/-- An object can be told from what is laid out for it. -/
theorem eq_of_data {y : Stored} {l : Label} {ds : List Datum} (hx : x.data l <+: ds)
    (hy : y.data l <+: ds) : x = y := by
  obtain ⟨restx, hx⟩ := hx
  obtain ⟨resty, hy⟩ := hy
  have hsame := hx.trans hy.symm
  -- The tags are different, and so is what stands behind the label.
  have hbool {b b' : Bool} (h : boolWord b = boolWord b') : b = b' := by
    revert h
    cases b <;> cases b' <;> decide
  rcases x with ⟨text | n⟩ | b <;> rcases y with ⟨text' | n'⟩ | b' <;>
    simp [data, Object.strTag, Object.intTag, Object.boolTag] at hsame ⊢
  · exact hsame.2.1
  · exact hsame.1
  · exact hbool hsame.1

theorem Labelled.unique {cs : List Constant} {l l' : Label} (h : x.Labelled cs l)
    (h' : x.Labelled cs l') : l = l' := by
  cases x with
  | constant c => exact h.2.trans h'.2.symm
  | bool b => exact Eq.trans h (Eq.symm h')

end Stored

section Emitted

variable {pool : ConstantPool} {cs : List Constant} {l : Label}

/-- A label of the data stands in one place. -/
theorem index_unique {j : Nat} (hi : pool.data[i]? = some (.label l))
    (hj : pool.data[j]? = some (.label l)) : i = j := by
  have hnodup : (DataSegment.defined pool.data).Nodup := by
    rw [DataSegment.defined_pool]
    exact nodup_names _
  rw [DataSegment.defined, List.map_filterMap, List.Nodup, List.pairwise_filterMap,
    List.pairwise_iff_getElem] at hnodup
  obtain ⟨hilt, hi⟩ := List.getElem?_eq_some_iff.mp hi
  obtain ⟨hjlt, hj⟩ := List.getElem?_eq_some_iff.mp hj
  have hne {i j : Nat} (hilt : i < pool.data.length) (hjlt : j < pool.data.length)
      (hi : pool.data[i] = .label l) (hj : pool.data[j] = .label l) : ¬ i < j := by
    intro hlt
    exact hnodup i j hilt hjlt hlt l.name (by rw [hi]; rfl) l.name (by rw [hj]; rfl) rfl
  exact Nat.le_antisymm (Nat.le_of_not_lt (hne hjlt hilt hj hi))
    (Nat.le_of_not_lt (hne hilt hjlt hi hj))

theorem holds_of_mem_data (h : .label l ∈ pool.data) : pool.Holds l := by
  rw [data_eq] at h
  rcases List.mem_append.mp h with h | h
  · rcases List.mem_append.mp h with h | h
    · exact .inr ⟨false, by simpa [boolData, header] using h⟩
    · exact .inr ⟨true, by simpa [boolData, header] using h⟩
  · obtain ⟨⟨c, k⟩, hmem, h⟩ := List.mem_flatMap.mp h
    have hk := (List.getElem?_eq_some_iff.mp (List.mem_zipIdx_iff_getElem?.mp hmem)).1
    refine .inl ⟨k, hk, ?_⟩
    cases c <;> simpa [constantData, header] using h

/-- Every object with a label is in the data. -/
theorem Numbered.exists_object (h : pool.Numbered cs) (hx : x.Labelled cs l) :
    ∃ i, x.data l <+: pool.data.drop i := by
  have hpart {object : List Datum} (hdata : ∃ before rest, pool.data = before ++ (object ++ rest)) :
      ∃ i, object <+: pool.data.drop i := by
    obtain ⟨before, rest, hdata⟩ := hdata
    refine ⟨before.length, ?_⟩
    rw [hdata, List.drop_left]
    exact List.prefix_append object rest
  cases x with
  | constant c =>
    obtain ⟨hc, rfl⟩ := hx
    have hmem : (c, rank cs c) ∈ pool.entries.zipIdx :=
      List.mem_zipIdx_iff_getElem?.mpr (h.getElem?_rank hc)
    obtain ⟨before, rest, hsplit⟩ := List.append_of_mem hmem
    rw [Stored.data_constant]
    apply hpart
    rw [data_eq, hsplit, List.flatMap_append, List.flatMap_cons, ← List.append_assoc]
    exact ⟨_, _, rfl⟩
  | bool b =>
    cases hx
    cases b with
    | false => exact hpart ⟨[], _, List.append_assoc _ _ _⟩
    | true => exact hpart ⟨_, _, List.append_assoc _ _ _⟩

/-- The label of a place where an object stands is the one that the object has to have. -/
theorem Numbered.labelled (h : pool.Numbered cs) (hx : x.data l <+: pool.data.drop i) :
    x.Labelled cs l := by
  have hlabel := Stored.label_at hx
  -- Some object has this label, and it stands where its label does.
  obtain ⟨y, hy⟩ : ∃ y : Stored, y.Labelled cs l := by
    rcases holds_of_mem_data (List.mem_of_getElem? hlabel) with ⟨k, hk, rfl⟩ | ⟨b, rfl⟩
    · have hget := List.getElem?_eq_getElem hk
      refine ⟨.constant pool.entries[k], h.mem_iff.mp (List.getElem_mem hk), ?_⟩
      exact congrArg label (h.place hget)
    · exact ⟨.bool b, rfl⟩
  obtain ⟨j, hj⟩ := h.exists_object hy
  have hplace : i + 3 = j + 3 := index_unique hlabel (Stored.label_at hj)
  rw [← Nat.add_right_cancel hplace] at hj
  rw [Stored.eq_of_data hx hj]
  exact hy

end Emitted

end ConstantPool

/-! ## Literals in code and in data -/

open Assembly in
/-- An operation and an entry of the data stand for the same value. -/
structure SameValue (rd : Reg) (o : Op Label) (d : Datum) : Prop where
  /-- Both have the same integer, or the address of the same label. -/
  form : (∃ n, o = .li rd n ∧ d = .word n) ∨ ∃ l, o = .la rd l ∧ d = .address l
  /-- In a program that has both, the operation puts the word into its register that the entry
  becomes. -/
  word {a : Assembly} {img : Image} {s : State} (hload : Image.load a = .ok (img, s))
    (hfit : a.dataTop ≤ UInt32.size) {before after : List Item} {note : Option String}
    (htext : a.text = before ++ .instr ⟨o, note⟩ :: after) {front back : List Datum}
    (hdata : a.data = front ++ d :: back) :
    ∃ o', img.code[(instrs before).length]? = some o' ∧
      ∀ t : State, t.exec o' = .running
        (t.put rd (s.memory.readWord (UInt32.ofNat (entryAt front d))))

namespace WordValue

open Assembly

variable {a : Assembly} {img : Image} {s : State} {v : WordValue}

/-- The word that loading writes for a value, whatever names the program has. -/
theorem is_of_load (hload : Image.load a = .ok (img, s)) (hfit : a.dataTop ≤ UInt32.size)
    {front back : List Datum} (hdata : a.data = front ++ v.toDatum :: back) :
    v.Is img (s.memory.readWord (UInt32.ofNat (entryAt front v.toDatum))) := by
  obtain ⟨m, hm, h⟩ := bind_eq_ok_iff.mp hload
  obtain ⟨code, -, h⟩ := bind_eq_ok_iff.mp h
  cases h
  rw [hdata] at hm
  obtain ⟨m', hm⟩ := Image.writeData_append hm
  have hend : Image.dataEnd Image.dataBase front =
      UInt32.ofNat (Datum.top Image.dataBase.toNat front) :=
    Image.dataEnd_ofNat Image.dataBase.toNat front
  rw [dataTop, hdata, Datum.top_append] at hfit
  rw [hend] at hm
  -- What comes after the word does not reach down to it.
  have hword {c : Nat} {w : Int32} (hm : Image.writeData (Image.labelTable a)
      (m'.writeWord (UInt32.ofNat (alignUp c)) w) (UInt32.ofNat (alignUp c + 4)) back = .ok m)
      (hfit : Datum.top (alignUp c + 4) back ≤ UInt32.size) :
      m.readWord (UInt32.ofNat (alignUp c)) = w := by
    rw [Image.readWord_of_writeData hm hfit (Nat.le_refl _)]
    exact Memory.readWord_writeWord_self m' _ w
  cases v with
  | word n =>
    rw [toDatum, Image.writeData_word, Image.advance_ofNat, Addr.align4_ofNat] at hm
    exact hword hm hfit
  | address l =>
    rw [toDatum, Image.writeData_address] at hm
    obtain ⟨addr, haddr, hm⟩ := bind_eq_ok_iff.mp hm
    rw [Image.advance_ofNat, Addr.align4_ofNat] at hm
    exact ⟨addr, Image.find_eq_ok_iff.mp haddr, hword hm hfit⟩

/-- The operation that loads a value puts its word into the register. -/
theorem exec_load (hload : Image.load a = .ok (img, s)) {before after : List Item}
    {note : Option String} {rd : Reg} (htext : a.text = before ++ .instr ⟨v.load rd, note⟩ :: after)
    {w : Int32} (hw : v.Is img w) :
    ∃ o, img.code[(instrs before).length]? = some o ∧ ∀ t : State,
      t.exec o = .running (t.put rd w) := by
  have hinstr : (instrs a.text)[(instrs before).length]? = some ⟨v.load rd, note⟩ := by
    rw [htext, instrs_append, instrs_cons_instr, List.getElem?_append_right (Nat.le_refl _),
      Nat.sub_self, List.getElem?_cons_zero]
  obtain ⟨o, hcode, hresolve⟩ := Image.getElem?_of_load hload hinstr
  refine ⟨o, hcode, ?_⟩
  cases v with
  | word n =>
    cases hresolve
    cases hw
    exact fun t => rfl
  | address l =>
    obtain ⟨addr, haddr, rfl⟩ := hw
    rw [Image.label?, Image.labels_of_load hload] at haddr
    rw [load, Op.resolve, Image.find_eq_ok_iff.mpr haddr] at hresolve
    cases hresolve
    exact fun t => rfl

theorem toDatum_inj {v w : WordValue} (h : v.toDatum = w.toDatum) : v = w := by
  cases v <;> cases w <;> cases h <;> rfl

theorem sameValue (v : WordValue) (rd : Reg) : SameValue rd (v.load rd) v.toDatum where
  form := by
    cases v with
    | word n => exact .inl ⟨n, rfl, rfl⟩
    | address l => exact .inr ⟨l, rfl, rfl⟩
  word hload hfit _ _ _ htext _ _ hdata := exec_load hload htext (is_of_load hload hfit hdata)

end WordValue

/-! ## All together -/

namespace ConstantPool

/-- Constants and labels correspond over a history of requests. -/
structure Corresponds (reqs : List Request) : Prop where
  /-- Two requests that need constants are answered with one label exactly if they need one
  constant. -/
  same_iff {i j : Nat} {r r' : Request} {c c' : Constant} (hi : reqs[i]? = some r)
    (hj : reqs[j]? = some r') (hc : r.constant? = some c) (hc' : r'.constant? = some c') :
    answer? reqs i = answer? reqs j ↔ c = c'
  /-- Labels are numbered in the order of first use. -/
  numbered {i : Nat} {r : Request} {c : Constant} (hi : reqs[i]? = some r)
    (hc : r.constant? = some c) :
    answer? reqs i = some (.address (.global ("const_" ++ toString (rank (asked reqs) c))))
  /-- Whatever comes in between, a constant keeps its label and does not join the pool again. -/
  kept (more : List Request) {r : Request} {c : Constant} (hasked : c ∈ asked reqs)
    (hc : r.constant? = some c) : r.serve (after (reqs ++ more)) =
      (.address (label (rank (asked reqs) c)), after (reqs ++ more))
  /-- The three collections hold the constants that have been asked for, and no others, with the
  same labels. -/
  rows {k : Nat} {l : Label} {c : Constant} : (after reqs).rows[k]? = some (l, c) ↔
    c ∈ asked reqs ∧ k = rank (asked reqs) c ∧ l = label k
  strings {text : String} {l : Label} : (after reqs).strings[text]? = some l ↔
    .str text ∈ asked reqs ∧ l = label (rank (asked reqs) (.str text))
  ints {n : Int32} {l : Label} : (after reqs).ints[n]? = some l ↔
    .int n ∈ asked reqs ∧ l = label (rank (asked reqs) (.int n))
  /-- The objects laid out are those of the constants that have been asked for and of the two
  booleans, each with its label. -/
  laid_iff {x : Stored} {l : Label} :
    (∃ i, x.data l <+: (after reqs).data.drop i) ↔ x.Labelled (asked reqs) l
  /-- No object is laid out twice, not even with another label. -/
  once {x : Stored} {l l' : Label} {i j : Nat} (hi : x.data l <+: (after reqs).data.drop i)
    (hj : x.data l' <+: (after reqs).data.drop j) : i = j
  /-- No other label is defined. -/
  labels : DataSegment.defined (after reqs).data = names (asked reqs).toFinset.card
  /-- A literal that is asked for both by code, for a local variable, and by the data, for a
  variable of the top level or an attribute, is the same value, whoever comes first and whatever is
  asked for in between. The two tables, one for operations and one for data words, agree. -/
  literals {i j : Nat} {lit : Literal} {type : ValueType} (hi : reqs[i]? = some (.literal lit type))
    (hj : reqs[j]? = some (.literal lit type)) (rd : Reg) :
    ∃ o d, SameValue rd o d ∧ d = (Request.literal lit type).value (rank (asked reqs)) ∧
      (∀ {mode : RegisterMode} (s : Draft.StateOf mode), s.pool = after (reqs.take i) →
        Draft.loadLiteral rd lit type s =
          ⟨[.item (.op o)], { s with pool := after (reqs.take (i + 1)) }, .ok ()⟩) ∧
      (after (reqs.take j)).literalWord lit type = (d, after (reqs.take (j + 1))) ∧
      DataSegment.literalWords [(lit, type)] (after (reqs.take j)) =
        ([d], after (reqs.take (j + 1))) ∧
      ∀ g : GlobalVar, g.init = lit → g.type = type →
        DataSegment.globals [g] (after (reqs.take j)) =
          ([.label g.label, d], after (reqs.take (j + 1)))

theorem after_take {reqs : List Request} (hi : reqs[i]? = some r) :
    after (reqs.take (i + 1)) = (r.serve (after (reqs.take i))).2 := by
  rw [List.take_add_one, hi, Option.toList_some, after_append]

/-- What is looked up in the map of a constant after a history. -/
theorem label?_after_eq_some_iff {reqs : List Request} {c : Constant} {l : Label} :
    (after reqs).label? c = some l ↔ c ∈ asked reqs ∧ l = label (rank (asked reqs) c) := by
  have hnumbered := numbered_after reqs
  rw [label?_eq_some_iff]
  constructor
  · rintro ⟨k, hk, rfl⟩
    exact ⟨hnumbered.mem_iff.mp (List.mem_of_getElem? hk), congrArg label (hnumbered.place hk)⟩
  · rintro ⟨hc, rfl⟩
    exact ⟨_, hnumbered.getElem?_rank hc, rfl⟩

/-- The data word and the operation for one literal, at two points of a history. -/
theorem literal_after {reqs : List Request} {lit : Literal} {type : ValueType} {i j : Nat}
    (hi : reqs[i]? = some (.literal lit type)) (hj : reqs[j]? = some (.literal lit type)) :
    ((after (reqs.take i)).literal lit type).1 = ((after (reqs.take j)).literal lit type).1 ∧
      ((after (reqs.take i)).literal lit type).2 = after (reqs.take (i + 1)) ∧
      ((after (reqs.take j)).literal lit type).1.toDatum =
        (Request.literal lit type).value (rank (asked reqs)) := by
  have hdatum {k : Nat} (hk : reqs[k]? = some (.literal lit type)) :
      ((after (reqs.take k)).literal lit type).1.toDatum =
        (Request.literal lit type).value (rank (asked reqs)) := by
    have heq := answer?_eq hk
    rw [answer?, hk, Option.map_some, Request.serve, literalWord_eq] at heq
    exact Option.some.inj heq
  refine ⟨WordValue.toDatum_inj ((hdatum hi).trans (hdatum hj).symm), ?_, hdatum hj⟩
  rw [after_take hi, Request.serve, literalWord_eq]

/-- **The constant pool is a bijection.** Over every history of requests to a new pool, constants
and labels correspond. -/
theorem constants_and_labels_correspond (reqs : List Request) : Corresponds reqs where
  same_iff {i j r r' c c'} hi hj hc hc' := by
    have hnumbered := numbered_after reqs
    rw [answer?_eq hi, answer?_eq hj, (Request.of_constant hc).2, (Request.of_constant hc').2,
      ← hnumbered.rank_inj (mem_asked hi hc) (mem_asked hj hc')]
    refine ⟨fun heq => ?_, fun heq => by rw [heq]⟩
    have hname : "const_" ++ toString (rank (asked reqs) c) =
        "const_" ++ toString (rank (asked reqs) c') :=
      congrArg Label.name (Datum.address.inj (Option.some.inj heq))
    exact Nat.repr_injective ((String.append_right_inj "const_").mp hname)
  numbered hi hc := by
    rw [answer?_eq hi, (Request.of_constant hc).2]
    rfl
  kept more {r c} hasked hc := by
    have hmore : c ∈ asked (reqs ++ more) := by
      rw [asked_append]
      exact List.mem_append_left _ hasked
    rw [(Request.of_constant hc).1, (numbered_after (reqs ++ more)).intern_asked hmore,
      asked_append, rank_append hasked]
  rows {k l c} := by
    have hnumbered := numbered_after reqs
    constructor
    · intro h
      obtain rfl : l = label k := (after reqs).consistent.numbered h
      have hk := getElem?_entries.mpr h
      exact ⟨hnumbered.mem_iff.mp (List.mem_of_getElem? hk), hnumbered.place hk, rfl⟩
    · rintro ⟨hc, rfl, rfl⟩
      exact getElem?_entries.mp (hnumbered.getElem?_rank hc)
  strings {text l} := @label?_after_eq_some_iff reqs (.str text) l
  ints {n l} := @label?_after_eq_some_iff reqs (.int n) l
  laid_iff := by
    refine ⟨?_, (numbered_after reqs).exists_object⟩
    rintro ⟨i, hi⟩
    exact (numbered_after reqs).labelled hi
  once {x l l' i j} hi hj := by
    have hlabel := ((numbered_after reqs).labelled hi).unique ((numbered_after reqs).labelled hj)
    rw [← hlabel] at hj
    exact Nat.add_right_cancel (index_unique (Stored.label_at hi) (Stored.label_at hj))
  labels := by
    rw [DataSegment.defined_pool, (numbered_after reqs).length_eq, names]
  literals {i j lit type} hi hj rd := by
    obtain ⟨hsame, hcode, hvalue⟩ := literal_after hi hj
    obtain ⟨-, hdata, -⟩ := literal_after hj hi
    refine ⟨_, _, WordValue.sameValue _ rd, hvalue, fun s hs => ?_, ?_, ?_, ?_⟩
    · rw [Draft.loadLiteral_eq, hs, hsame, hcode]
    · rw [literalWord_eq, hdata]
    · rw [DataSegment.literalWords_cons, hdata]
      rfl
    · rintro g rfl rfl
      rw [DataSegment.globals_cons, hdata]
      rfl

/-- A text and the number that it spells are two constants; asked for again as literals, they have
their labels. -/
example : (List.range 4).map
    (answer? [.str "5", .int 5, .literal (.int 5) .object, .literal (.str "5") .str]) =
      [0, 1, 1, 0].map fun k => some (.address (label k)) := by
  decide +kernel

end ConstantPool

end ChocoRV
