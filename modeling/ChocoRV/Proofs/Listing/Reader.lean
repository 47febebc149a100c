import Mathlib
import ChocoRV.Proofs.Listing.Operation
import ChocoRV.Proofs.Except

/-!
# The listing determines the program

A reader for whole listings. Lines are of few kinds, told apart by their first characters
(`Listing.Line`): an empty line ends the data segment, a directive makes the label on the next line
global, a label stands at the start of its line, and all else is indented. `Listing.read?_render`
says that the reader gives back the program of every listing, so that two programs with the same
listing are the same (`listing_determines_program`); only whether a label is global where it is used
is not in the listing (`Assembly.bare`).
-/

namespace ChocoRV

/-! ## What a listing shows -/

/-- The entry without what its line does not show. -/
def Item.bare : Item → Item
  | .label l => .label l
  | .instr i => .instr ⟨i.op.bare, i.comment⟩

def Datum.bare : Datum → Datum
  | .address l => .address l.bare
  | d => d

/-- The program with all labels private where they are used, as targets or as addresses; where they
are defined they stay as they are. -/
def Assembly.bare (a : Assembly) : Assembly := ⟨a.text.map Item.bare, a.data.map Datum.bare⟩

/-- The labels of the entry can be read back, and its comment is on one line. -/
def Item.Legible : Item → Prop
  | .label l => l.Legible
  | .instr i => i.op.Legible ∧ ∀ c ∈ i.comment, '\n' ∉ c.toList

def Datum.Legible : Datum → Prop
  | .label l | .address l => l.Legible
  | _ => True

/-- All labels can be read back, and all comments are on one line. -/
structure Assembly.Legible (a : Assembly) : Prop where
  text : ∀ i ∈ a.text, i.Legible
  data : ∀ d ∈ a.data, d.Legible

namespace Listing

/-! ## Strings -/

/-- The value of a lower-case hexadecimal digit. -/
def hexValue (c : Char) : Nat := if c.isDigit then c.toNat - 48 else c.toNat - 87

/-- The text that has been written with escapes. -/
def unescape : List Char → List Char
  | [] => []
  | '\\' :: 'n' :: cs => '\n' :: unescape cs
  | '\\' :: 't' :: cs => '\t' :: unescape cs
  | '\\' :: 'x' :: a :: b :: cs => Char.ofNat (16 * hexValue a + hexValue b) :: unescape cs
  | '\\' :: c :: cs => c :: unescape cs
  | c :: cs => c :: unescape cs

theorem hexValue_digitChar {n : Nat} (h : n < 16) : hexValue (Nat.digitChar n) = n := by
  interval_cases n <;> rfl

theorem unescape_of_ne {c : Char} (h : c ≠ '\\') (rest : List Char) :
    unescape (c :: rest) = c :: unescape rest := by
  rw [unescape]
  · exact fun _ hc => absurd hc h
  · exact fun _ hc => absurd hc h
  · exact fun _ _ _ hc => absurd hc h
  · exact fun _ _ hc => absurd hc h

theorem unescape_hexByte {n : Nat} (h : n < 256) (rest : List Char) :
    unescape ('\\' :: 'x' :: (hexByte n ++ rest)) = Char.ofNat n :: unescape rest := by
  show Char.ofNat (16 * hexValue (Nat.digitChar (n / 16 % 16)) +
    hexValue (Nat.digitChar (n % 16))) :: unescape rest = _
  rw [hexValue_digitChar (Nat.mod_lt _ (by decide)), hexValue_digitChar (Nat.mod_lt _ (by decide)),
    Nat.mod_eq_of_lt (by omega), Nat.div_add_mod]

/-- The characters that have an escape of their own, the ones that are given by number, and all
others. -/
theorem escapeChar_cases {P : Char → List Char → Prop} (quote : P '"' ['\\', '"'])
    (slash : P '\\' ['\\', '\\']) (newline : P '\n' ['\\', 'n']) (tab : P '\t' ['\\', 't'])
    (number : ∀ c, c.toNat < 256 → P c ('\\' :: 'x' :: hexByte c.toNat))
    (plain : ∀ c, c ≠ '\\' → c ≠ '\n' → P c [c]) (c : Char) : P c (escapeChar c) := by
  unfold escapeChar
  by_cases hquote : c = '"'
  · subst hquote
    exact quote
  by_cases hslash : c = '\\'
  · subst hslash
    exact slash
  by_cases hnewline : c = '\n'
  · subst hnewline
    exact newline
  by_cases htab : c = '\t'
  · subst htab
    exact tab
  rw [if_neg (by simpa using hquote), if_neg (by simpa using hslash),
    if_neg (by simpa using hnewline), if_neg (by simpa using htab)]
  by_cases hcontrol : (decide (c.toNat < 0x20) || c.toNat == 0x7f) = true
  · rw [if_pos hcontrol]
    refine number c ?_
    rcases Bool.or_eq_true_iff.mp hcontrol with h | h
    · have := of_decide_eq_true h
      omega
    · rw [beq_iff_eq.mp h]
      decide
  · rw [if_neg hcontrol]
    exact plain c hslash hnewline

theorem unescape_escapeChar (c : Char) (rest : List Char) :
    unescape (escapeChar c ++ rest) = c :: unescape rest := by
  refine escapeChar_cases (P := fun c cs => unescape (cs ++ rest) = c :: unescape rest)
    rfl rfl rfl rfl
    (fun c hc => ?_) (fun c hc _ => unescape_of_ne hc rest) c
  rw [List.cons_append, List.cons_append, unescape_hexByte hc, Char.ofNat_toNat]

/-- Every text is read back from its escaped form. -/
theorem unescape_escape (text : String) : unescape (escape text).toList = text.toList := by
  rw [escape, String.toList_ofList]
  induction text.toList with
  | nil => rfl
  | cons c cs ih => rw [List.flatMap_cons, unescape_escapeChar, ih]

/-- An escaped text is on one line. -/
theorem not_newline_mem_escape (text : String) : '\n' ∉ (escape text).toList := by
  intro h
  rw [escape, String.toList_ofList] at h
  obtain ⟨c, -, h⟩ := List.mem_flatMap.mp h
  have hdigit : ∀ n < 16, Nat.digitChar n ≠ '\n' := by decide
  revert h
  refine escapeChar_cases (P := fun _ cs => '\n' ∉ cs) (by decide) (by decide)
    (by decide) (by decide)
    (fun c _ h => ?_) (fun c _ hc h => ?_) c
  · have h : '\n' ∈ hexByte c.toNat := by simpa using h
    rcases List.mem_pair.mp h with h | h
    · exact hdigit _ (Nat.mod_lt _ (by decide)) h.symm
    · exact hdigit _ (Nat.mod_lt _ (by decide)) h.symm
  · exact hc (List.mem_singleton.mp h).symm

/-! ## Lines -/

/-- The kinds of lines. -/
inductive Line where
  /-- An empty line. -/
  | blank
  /-- The label on the next line is global. -/
  | globl
  | label (name : String)
  /-- An indented line. -/
  | entry (cs : List Char)

/-- Lines are told apart by their first characters. -/
def Line.of : List Char → Line
  | [] => .blank
  | ' ' :: ' ' :: '.' :: 'g' :: _ => .globl
  | ' ' :: ' ' :: cs => .entry cs
  | cs => .label (String.ofList cs.dropLast)

/-- The line as the reader sees it. -/
def lineOf (s : String) : Line := .of s.toList

theorem lineOf_globl (name : String) : lineOf ("  .globl " ++ name) = .globl := by
  unfold lineOf
  rw [String.toList_append]
  rfl

theorem lineOf_label {l : Label} (h : l.Legible) : lineOf (l.name ++ ":") = .label l.name := by
  obtain ⟨c, cs, hname⟩ := List.exists_cons_of_ne_nil h.solid.nonempty
  have hblank : c ≠ ' ' := by
    rintro rfl
    exact h.solid.not_mem (c := ' ') (by decide) (by rw [hname]; exact List.mem_cons_self)
  have hline : (l.name ++ ":").toList = l.name.toList ++ [':'] := String.toList_append
  rw [lineOf, hline]
  unfold Line.of
  split
  · rename_i heq
    simp at heq
  · rename_i heq
    rw [hname] at heq
    exact absurd (List.cons.inj heq).1 hblank
  · rename_i heq
    rw [hname] at heq
    exact absurd (List.cons.inj heq).1 hblank
  · rw [List.dropLast_concat, String.ofList_toList]

/-- An indented line that is no directive. -/
theorem Line.of_entry {cs : List Char} (h : cs.head? ≠ some '.') :
    of (' ' :: ' ' :: cs) = .entry cs := by
  rw [of]
  rintro rest rfl
  exact h rfl

/-! ## Reading segments -/

/-- A word is a number if it begins as one, and an address otherwise. -/
def wordDatum (cs : List Char) : Datum :=
  if cs.head?.any (fun c => c.isDigit || c == '-') then .word (wordOf cs)
  else .address (Form.labelOf cs)

/-- A data directive. -/
def readDatum? : List Char → Option Datum
  | '.' :: 'w' :: cs => some (wordDatum (cs.drop 4))
  | '.' :: 's' :: cs => some (.ascii (String.ofList (unescape (cs.drop 7).dropLast)))
  | '.' :: 'a' :: _ => some .align
  | _ => none

/-- The entries of the data segment and the lines after it; `isGlobal` says whether the next label
has been made global. -/
def readData? (isGlobal : Bool) : List Line → Option (List Datum × List Line)
  | [] => none
  | .blank :: rest => some ([], rest)
  | .globl :: rest => readData? true rest
  | .label name :: rest =>
    (readData? false rest).map fun p => (.label ⟨name, isGlobal⟩ :: p.1, p.2)
  | .entry cs :: rest =>
    (readDatum? cs).bind fun d => (readData? false rest).map fun p => (d :: p.1, p.2)

def commentOf? : List Char → Option String
  | '#' :: ' ' :: cs => some (String.ofList cs)
  | _ => none

def readInstr? (cs : List Char) : Option Instr :=
  (readOp? (cs.takeWhile (· != '#'))).map (⟨·, commentOf? (cs.dropWhile (· != '#'))⟩)

/-- The entries of the text segment. -/
def readText? (isGlobal : Bool) : List Line → Option (List Item)
  | [] => some []
  | .blank :: rest => readText? isGlobal rest
  | .globl :: rest => readText? true rest
  | .label name :: rest => (readText? false rest).map (.label ⟨name, isGlobal⟩ :: ·)
  | .entry cs :: rest => (readInstr? cs).bind fun i => (readText? false rest).map (.instr i :: ·)

/-- The program of a listing: the data segment between the first line and an empty one, the text
segment after the line behind that. -/
def read? (text : String) : Option Assembly := do
  let (data, rest) ← readData? false (((text.toList.splitOn '\n').map Line.of).drop 1)
  let text ← readText? false (rest.drop 1)
  return ⟨text, data⟩

/-! ## Data -/

theorem wordDatum_word (w : Int32) : wordDatum (toString w.toInt).toList = .word w := by
  obtain ⟨c, cs, hcs⟩ := List.exists_cons_of_ne_nil (solid_toString_int w.toInt).nonempty
  have hc : c = '-' ∨ c.isDigit = true := mem_toString_int (hcs ▸ List.mem_cons_self)
  unfold wordDatum
  rw [if_pos, wordOf_toString]
  rw [hcs]
  rcases hc with rfl | hc
  · rfl
  · simp [hc]

theorem wordDatum_address {l : Label} (h : l.Legible) :
    wordDatum l.name.toList = .address l.bare := by
  obtain ⟨c, cs, hcs⟩ := List.exists_cons_of_ne_nil h.solid.nonempty
  obtain ⟨hdigit, hminus⟩ := h.head c (by rw [hcs]; rfl)
  unfold wordDatum
  rw [if_neg, labelOf_name]
  rw [hcs]
  simp [hdigit, hminus]

/-- An entry that is no label has one line, and its directive is read back. -/
theorem readDatum?_directive {d : Datum} (h : d.Legible) (hd : ∀ l, d ≠ .label l) :
    ∃ directive, (datumLines d).map lineOf = [.entry directive] ∧
      readDatum? directive = some d.bare := by
  cases d with
  | label l => exact absurd rfl (hd l)
  | word w =>
    refine ⟨".word ".toList ++ (toString w.toInt).toList, ?_, ?_⟩
    · show [Line.of ("  .word " ++ toString w.toInt).toList] = _
      rw [String.toList_append]
      rfl
    · show some (wordDatum (toString w.toInt).toList) = _
      rw [wordDatum_word]
      rfl
  | address l =>
    refine ⟨".word ".toList ++ l.name.toList, ?_, ?_⟩
    · show [Line.of ("  .word " ++ l.name).toList] = _
      rw [String.toList_append]
      rfl
    · show some (wordDatum l.name.toList) = _
      rw [wordDatum_address h]
      rfl
  | ascii text =>
    refine ⟨".string \"".toList ++ ((escape text).toList ++ ['"']), ?_, ?_⟩
    · show [Line.of ("  .string \"" ++ escape text ++ "\"").toList] = _
      rw [String.toList_append, String.toList_append, List.append_assoc]
      rfl
    · have hdrop (cs : List Char) : readDatum? (".string \"".toList ++ cs) =
          some (.ascii (String.ofList (unescape cs.dropLast))) := rfl
      rw [hdrop, List.dropLast_concat, unescape_escape, String.ofList_toList]
      rfl
  | align => exact ⟨".align 2".toList, rfl, rfl⟩

/-- The lines of an entry are read as the entry. -/
theorem readData?_datumLines {d : Datum} (h : d.Legible) (rest : List Line) :
    readData? false ((datumLines d).map lineOf ++ rest) =
      (readData? false rest).map fun p => (d.bare :: p.1, p.2) := by
  by_cases hd : ∃ l, d = .label l
  · obtain ⟨l, rfl⟩ := hd
    have hl : l.Legible := h
    obtain ⟨name, isGlobal⟩ := l
    cases isGlobal with
    | false =>
      show readData? false (lineOf (name ++ ":") :: rest) = _
      rw [lineOf_label hl]
      rfl
    | true =>
      show readData? false (lineOf ("  .globl " ++ name) :: lineOf (name ++ ":") :: rest) = _
      rw [lineOf_globl, lineOf_label hl]
      rfl
  · obtain ⟨directive, hline, hread⟩ := readDatum?_directive h fun l hl => hd ⟨l, hl⟩
    rw [hline, List.singleton_append, readData?, hread, Option.bind_some]

theorem readData?_data {ds : List Datum} (h : ∀ d ∈ ds, d.Legible) (rest : List Line) :
    readData? false ((ds.flatMap datumLines).map lineOf ++ .blank :: rest) =
      some (ds.map Datum.bare, rest) := by
  induction ds with
  | nil => rfl
  | cons d ds ih =>
    obtain ⟨hd, hds⟩ := List.forall_mem_cons.mp h
    rw [List.flatMap_cons, List.map_append, List.append_assoc, readData?_datumLines hd, ih hds]
    rfl

/-! ## Text -/

/-- What stands before the comment sign and what comes from it on. -/
theorem readInstr?_append {code rest : List Char} (hcode : '#' ∉ code)
    (hrest : ∀ c ∈ rest.head?, c = '#') :
    readInstr? (code ++ rest) = (readOp? code).map (⟨·, commentOf? rest⟩) := by
  have hpos : ∀ c ∈ code, (c != '#') = true := by
    intro c hc
    rw [bne_iff_ne]
    rintro rfl
    exact hcode hc
  have hsplit : rest.takeWhile (· != '#') = [] ∧ rest.dropWhile (· != '#') = rest := by
    cases rest with
    | nil => exact ⟨rfl, rfl⟩
    | cons c cs =>
      cases hrest c rfl
      exact ⟨rfl, rfl⟩
  unfold readInstr?
  rw [List.takeWhile_append_of_pos hpos, List.dropWhile_append_of_pos hpos, hsplit.1, hsplit.2,
    List.append_nil]

theorem toList_padRight (width : Nat) (s : String) :
    (padRight width s).toList = s.toList ++ List.replicate (width - s.length) ' ' := by
  rw [padRight, String.toList_append, String.toList_ofList]

/-- The line of an instruction: its text, blanks and its comment. -/
theorem toList_instrLine (i : Instr) : ∃ k comment, (instrLine i).toList =
      ' ' :: ' ' :: (i.text.toList ++ List.replicate k ' ' ++ comment) ∧
    (∀ c ∈ comment.head?, c = '#') ∧ commentOf? comment = i.comment ∧
    ∀ c ∈ comment, c ∈ ['#', ' '] ∨ ∃ text ∈ i.comment, c ∈ text.toList := by
  unfold instrLine
  cases hc : i.comment with
  | none =>
    refine ⟨0, [], ?_, fun c hc => (nomatch hc), rfl, fun c hc => nomatch hc⟩
    rw [String.toList_append, List.replicate_zero, List.append_nil, List.append_nil]
    rfl
  | some text =>
    refine ⟨commentColumn - i.text.length, '#' :: ' ' :: text.toList, ?_, ?_, ?_, ?_⟩
    · show ("  " ++ padRight commentColumn i.text ++ "# " ++ text).toList = _
      rw [String.toList_append, String.toList_append, String.toList_append, toList_padRight,
        List.append_assoc]
      rfl
    · rintro c ⟨⟩
      rfl
    · show some (String.ofList text.toList) = _
      rw [String.ofList_toList]
    · intro c hmem
      simp only [List.mem_cons] at hmem
      rcases hmem with rfl | rfl | hmem
      · exact .inl (by decide)
      · exact .inl (by decide)
      · exact .inr ⟨text, rfl, hmem⟩

/-- The line of an instruction is read as the instruction. -/
theorem readInstr?_instrLine {i : Instr} (hv : i.op.hasVirt = false) (hi : i.op.Legible) :
    ∃ cs, lineOf (instrLine i) = .entry cs ∧ readInstr? cs = some ⟨i.op.bare, i.comment⟩ := by
  obtain ⟨k, comment, hline, hhead, hcomment, -⟩ := toList_instrLine i
  obtain ⟨hclean, hdot⟩ := text_clean hv hi
  refine ⟨i.text.toList ++ List.replicate k ' ' ++ comment, ?_, ?_⟩
  · show Line.of (instrLine i).toList = _
    rw [hline]
    refine Line.of_entry ?_
    have hne : i.text.toList ≠ [] := fun hnil => by
      have hops := operands_text hv hi
      rw [show (i.op.text Label.name).toList = [] from hnil] at hops
      cases hops
    rw [List.append_assoc, List.head?_append_of_ne_nil _ hne]
    exact hdot
  · have hsign : '#' ∉ i.text.toList ++ List.replicate k ' ' := by
      intro hmem
      rcases List.mem_append.mp hmem with hmem | hmem
      · exact hclean _ hmem (by decide)
      · exact absurd (List.eq_of_mem_replicate hmem) (by decide)
    rw [readInstr?_append hsign hhead, hcomment]
    show (readOp? ((i.op.text Label.name).toList ++ _)).map _ = _
    rw [readOp?_text hv hi]
    rfl

/-- The lines of an entry are read as the entry. -/
theorem readText?_itemLines {i : Item} {ls : List String} (h : i.Legible)
    (hls : itemLines i = .ok ls) (rest : List Line) : readText? false (ls.map lineOf ++ rest) =
      (readText? false rest).map (i.bare :: ·) := by
  cases i with
  | label l =>
    have hl : l.Legible := h
    obtain ⟨name, isGlobal⟩ := l
    cases isGlobal with
    | false =>
      cases hls
      show readText? false (lineOf (name ++ ":") :: rest) = _
      rw [lineOf_label hl]
      rfl
    | true =>
      cases hls
      show readText? false (.blank :: lineOf ("  .globl " ++ name) ::
        lineOf (name ++ ":") :: rest) = _
      rw [lineOf_globl, lineOf_label hl]
      rfl
  | instr i =>
    rw [itemLines] at hls
    split at hls
    · cases hls
    · rename_i hv
      cases hls
      obtain ⟨cs, hline, hread⟩ := readInstr?_instrLine (Bool.eq_false_iff.mpr hv) h.1
      rw [List.map_singleton, hline, List.singleton_append, readText?, hread, Option.bind_some]
      rfl

theorem readText?_text {is : List Item} {ls : List (List String)} (h : ∀ i ∈ is, i.Legible)
    (hls : is.mapM itemLines = .ok ls) (rest : List Line) :
    readText? false (ls.flatten.map lineOf ++ rest) =
      (readText? false rest).map (is.map Item.bare ++ ·) := by
  induction is generalizing ls with
  | nil =>
    cases hls
    show readText? false rest = (readText? false rest).map (fun x => x)
    rw [Option.map_id']
  | cons i is ih =>
    obtain ⟨hi, his⟩ := List.forall_mem_cons.mp h
    rw [List.mapM_cons] at hls
    obtain ⟨l, hl, hls⟩ := bind_eq_ok_iff.mp hls
    obtain ⟨ls', hls', hls⟩ := bind_eq_ok_iff.mp hls
    cases hls
    rw [List.flatten_cons, List.map_append, List.append_assoc, readText?_itemLines hi hl,
      ih his hls', Option.map_map]
    rfl

/-! ## Whole listings -/

/-- Lines that end with line feeds are split at them. -/
theorem splitOn_lines {ls : List String} (h : ∀ l ∈ ls, '\n' ∉ l.toList) :
    (String.join (ls.map (· ++ "\n"))).toList.splitOn '\n' = ls.map String.toList ++ [[]] := by
  rw [String.toList_join, List.flatMap_map]
  induction ls with
  | nil => rfl
  | cons l ls ih =>
    obtain ⟨hl, hls⟩ := List.forall_mem_cons.mp h
    rw [List.flatMap_cons, String.toList_append]
    show (l.toList ++ ['\n'] ++ _).splitOn '\n' = _
    rw [List.append_assoc, List.singleton_append, List.splitOn_append_cons_self_of_not_mem hl,
      ih hls]
    rfl

theorem not_newline_mem_append {x y : String} (hx : '\n' ∉ x.toList) (hy : '\n' ∉ y.toList) :
    '\n' ∉ (x ++ y).toList := by
  rw [String.toList_append, List.mem_append, not_or]
  exact ⟨hx, hy⟩

/-- The lines of a label, with or without an empty line before them. -/
theorem not_newline_mem_label {l : Label} (h : l.Legible) :
    '\n' ∉ ("  .globl " ++ l.name).toList ∧ '\n' ∉ (l.name ++ ":").toList := by
  have hname : '\n' ∉ l.name.toList := h.solid.not_mem (by decide)
  exact ⟨not_newline_mem_append (by decide) hname, not_newline_mem_append hname (by decide)⟩

theorem not_newline_mem_datumLines {d : Datum} (h : d.Legible) :
    ∀ l ∈ datumLines d, '\n' ∉ l.toList := by
  cases d with
  | label l =>
    obtain ⟨hglobl, hlabel⟩ := not_newline_mem_label h
    rw [datumLines]
    split
    · exact List.forall_mem_cons.mpr ⟨hglobl, List.forall_mem_singleton.mpr hlabel⟩
    · exact List.forall_mem_singleton.mpr hlabel
  | word w =>
    refine List.forall_mem_singleton.mpr (not_newline_mem_append (by decide) ?_)
    exact (solid_toString_int w.toInt).not_mem (by decide)
  | address l =>
    exact List.forall_mem_singleton.mpr (not_newline_mem_append (by decide)
      (h.solid.not_mem (by decide)))
  | ascii text =>
    exact List.forall_mem_singleton.mpr (not_newline_mem_append (not_newline_mem_append (by decide)
      (not_newline_mem_escape text)) (by decide))
  | align => exact List.forall_mem_singleton.mpr (by decide)

theorem not_newline_mem_itemLines {i : Item} {ls : List String} (h : i.Legible)
    (hls : itemLines i = .ok ls) : ∀ l ∈ ls, '\n' ∉ l.toList := by
  cases i with
  | label l =>
    obtain ⟨hglobl, hlabel⟩ := not_newline_mem_label h
    cases hls
    split
    · exact List.forall_mem_cons.mpr ⟨by decide, List.forall_mem_cons.mpr
        ⟨hglobl, List.forall_mem_singleton.mpr hlabel⟩⟩
    · exact List.forall_mem_singleton.mpr hlabel
  | instr i =>
    rw [itemLines] at hls
    split at hls
    · cases hls
    · rename_i hv
      cases hls
      refine List.forall_mem_singleton.mpr fun hmem => ?_
      obtain ⟨k, comment, hline, -, -, hcomment⟩ := toList_instrLine i
      have hclean := (text_clean (Bool.eq_false_iff.mpr hv) h.1).1
      rw [hline, List.mem_cons, List.mem_cons, List.mem_append, List.mem_append] at hmem
      rcases hmem with hmem | hmem | (hmem | hmem) | hmem
      · exact absurd hmem (by decide)
      · exact absurd hmem (by decide)
      · exact hclean _ hmem (by decide)
      · exact absurd (List.eq_of_mem_replicate hmem) (by decide)
      · rcases hcomment _ hmem with hmem | ⟨text, htext, hmem⟩
        · exact absurd hmem (by decide)
        · exact h.2 text htext hmem

theorem not_newline_mem_text {is : List Item} {ls : List (List String)} (h : ∀ i ∈ is, i.Legible)
    (hls : is.mapM itemLines = .ok ls) : ∀ l ∈ ls.flatten, '\n' ∉ l.toList := by
  induction is generalizing ls with
  | nil =>
    cases hls
    exact List.forall_mem_nil _
  | cons i is ih =>
    obtain ⟨hi, his⟩ := List.forall_mem_cons.mp h
    rw [List.mapM_cons] at hls
    obtain ⟨l, hl, hls⟩ := bind_eq_ok_iff.mp hls
    obtain ⟨ls', hls', hls⟩ := bind_eq_ok_iff.mp hls
    cases hls
    rw [List.flatten_cons]
    exact List.forall_mem_append.mpr ⟨not_newline_mem_itemLines hi hl, ih his hls'⟩

/-- The program of a listing is read back. -/
theorem read?_render {a : Assembly} {text : String} (h : a.Legible) (hr : a.render = .ok text) :
    read? text = some a.bare := by
  rw [Assembly.render] at hr
  obtain ⟨ls, hls, hr⟩ := bind_eq_ok_iff.mp hr
  rw [lines] at hls
  obtain ⟨items, hitems, hls⟩ := bind_eq_ok_iff.mp hls
  cases hls
  cases hr
  have hclean : ∀ l ∈ "  .data" :: a.data.flatMap datumLines ++ "" :: "  .text" :: items.flatten,
      '\n' ∉ l.toList := by
    intro l hl
    rw [List.cons_append, List.mem_cons, List.mem_append, List.mem_cons, List.mem_cons] at hl
    rcases hl with rfl | hl | rfl | rfl | hl
    · decide
    · obtain ⟨d, hd, hl⟩ := List.mem_flatMap.mp hl
      exact not_newline_mem_datumLines (h.data d hd) l hl
    · decide
    · decide
    · exact not_newline_mem_text h.text hitems l hl
  -- Behind the last line feed the reader sees one more line, an empty one.
  have hlines : (((String.join (("  .data" :: a.data.flatMap datumLines ++
      "" :: "  .text" :: items.flatten).map (· ++ "\n"))).toList.splitOn '\n').map Line.of).drop 1 =
      (a.data.flatMap datumLines).map lineOf ++ .blank ::
        (lineOf "  .text" :: (items.flatten.map lineOf ++ [.blank])) := by
    have hmap (ls : List String) : (ls.map String.toList).map Line.of = ls.map lineOf := by
      rw [List.map_map]
      rfl
    rw [splitOn_lines hclean, List.map_append, hmap, List.map_append, List.append_assoc]
    rfl
  unfold read?
  rw [hlines, readData?_data h.data]
  show (readText? false (items.flatten.map lineOf ++ [.blank])).bind _ = _
  rw [readText?_text h.text hitems]
  show some (Assembly.mk (a.text.map Item.bare ++ []) (a.data.map Datum.bare)) = _
  rw [List.append_nil]
  rfl

end Listing

/-- **The listing determines the program.** Two programs with the same listing are equal, entry by
entry in text and data, up to whether labels are global where they are used; and the reader recovers
the program from the listing. -/
theorem listing_determines_program {a b : Assembly} {text : String} (ha : a.Legible)
    (hb : b.Legible) (hra : a.render = .ok text) (hrb : b.render = .ok text) :
    a.bare = b.bare ∧ Listing.read? text = some a.bare := by
  have hreadA := Listing.read?_render ha hra
  have hreadB := Listing.read?_render hb hrb
  exact ⟨Option.some.inj (hreadA.symm.trans hreadB), hreadA⟩

/-- A text with a quote, a tab and a control character, and code that refers to it. -/
def greeting (isGlobal : Bool) : Assembly where
  text := [.label (.global "main"), .noted (.la .a0 ⟨"const_0", isGlobal⟩) "say # hi",
    .op (.sw .a0 .fp (-12)), .label (.nth "main" 0), .op (.call ⟨"print", isGlobal⟩)]
  data := [.word (-3), .address ⟨"$str$dispatchTable", isGlobal⟩, .label (.global "const_0"),
    .ascii "say \"hi\"\t\\\x07", .align]

theorem greeting_legible (isGlobal : Bool) : (greeting isGlobal).Legible where
  text := by
    simp only [greeting, List.forall_mem_cons, Item.Legible, Op.Legible]
    cases isGlobal <;> simp [Op.target?] <;> decide
  data := by
    cases isGlobal <;> simp [greeting, Datum.Legible] <;> decide

theorem greeting_determined : greeting true ≠ greeting false ∧
    ∃ text, (greeting true).render = .ok text ∧ (greeting false).render = .ok text ∧
      (greeting true).bare = (greeting false).bare ∧
      Listing.read? text = some (greeting true).bare := by
  refine ⟨by decide, ?_⟩
  have hok : (greeting true).render.isOk = true := by decide +kernel
  have hsame : (greeting false).render = (greeting true).render := by decide +kernel
  obtain ⟨text, h⟩ := exists_ok_of_isOk hok
  rw [h] at hsame
  exact ⟨text, h, hsame, listing_determines_program (greeting_legible true)
    (greeting_legible false) h hsame⟩

end ChocoRV
