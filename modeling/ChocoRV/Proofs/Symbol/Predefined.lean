import Mathlib
import ChocoRV.Proofs.ClassLayout
import ChocoRV.Proofs.Symbol.Members

/-!
# Predefined classes

The declarations of a program leave the predefined classes as they are, and a class that is not one
of them has a name of its own. Hence the bytes of a string begin where its reference points,
whatever a program declares.
-/

namespace ChocoRV

namespace SymbolTable

variable {t : SymbolTable} {p : Program}

/-- An attribute that is found from the scope of a class is one of the class. -/
theorem Membered.attr_of_lookupWithin (h : t.Membered) {ds : List ClassDecl} (hlay : t.Layered ds)
    {fuel c : Nat} (hc : c < t.classes.size) {name : String} {a : Attribute}
    (hl : t.lookupWithin name fuel (t.cls c).scope = some (.attr a)) : a ∈ (t.cls c).attrs := by
  induction fuel generalizing c with
  | zero => cases hl
  | succ fuel ih =>
    rw [lookupWithin] at hl
    split at hl
    · rename_i sym he
      cases hl
      exact (h.bound hc he).1
    · obtain ⟨s', hs', hl⟩ := Option.bind_eq_some_iff.mp hl
      rw [h.parent hc] at hs'
      obtain ⟨s, hs, rfl⟩ := Option.map_eq_some_iff.mp hs'
      obtain ⟨hlt, hattrs, -⟩ := hlay.inherits hc hs
      exact hattrs.subset (ih (Nat.lt_trans hlt hc) hl)

/-- The only class named `str` is the predefined one. -/
theorem Layered.eq_of_name_str (h : Layered t (boxClasses ++ p.classDecls))
    (hnames : ∀ d ∈ p.classDecls, d.name ≠ "str") {c : Nat} (hc : c < t.classes.size)
    (hname : (t.cls c).name = "str") : c = 3 := by
  rcases h.exists_decl hc with rfl | ⟨k, d, rfl, hd⟩
  · rw [h.object.1] at hname
    exact absurd hname (by decide)
  · rw [(h.declared hd).1] at hname
    by_cases hk : k < 3
    · interval_cases k
      · cases hd
        exact absurd hname (by decide)
      · cases hd
        exact absurd hname (by decide)
      · rfl
    · rw [List.getElem?_append_right (Nat.not_lt.mp hk)] at hd
      exact absurd hname (hnames d (List.mem_of_getElem? hd))

/-- The bytes of a string begin where its reference points. -/
theorem offset_of_str (hnames : ∀ d ∈ p.classDecls, d.name ≠ "str") (h : ofProgram p = .ok t)
    {str : ClassInfo} (hstr : t.classNamed "str" = .ok str) {attr : Attribute}
    (hattr : t.attrOf str "__str__" = .ok attr) : attr.offset = 0 := by
  have hb := Built.ofProgram h
  obtain ⟨hlay, hprefix⟩ := Layered.exists_ofProgram h
  obtain ⟨sym, hsym, hstr⟩ := bind_eq_ok_iff.mp hstr
  cases sym with
  | attr | func | global | stack => cases hstr
  | cls id =>
    cases hstr
    obtain ⟨scope, he⟩ := exists_entry_of_lookup? (lookup_eq_ok_iff.mp hsym)
    have hid : id < t.classes.size := hb.closed.entries he
    obtain rfl := hlay.eq_of_name_str hnames hid (hb.ranged.named he)
    obtain ⟨sym, hsym, hattr⟩ := bind_eq_ok_iff.mp hattr
    cases sym with
    | cls | func | global | stack => cases hattr
    | attr a =>
      cases hattr
      have hmem := hb.membered.attr_of_lookupWithin hlay hid (lookup_eq_ok_iff.mp hsym)
      have hcls : t.cls 3 = predefined.cls 3 := by
        have hlt : 3 < predefined.classes.size := by decide
        have heq := hprefix.getElem (show 3 < predefined.classes.toList.length from hlt)
        simpa [cls, Array.getD, hid, hlt] using heq.symm
      rw [hcls] at hmem
      obtain rfl : attr = ⟨"__str__", .named "str", 0, 0, .str ""⟩ := List.mem_singleton.mp hmem
      rfl

end SymbolTable

end ChocoRV
