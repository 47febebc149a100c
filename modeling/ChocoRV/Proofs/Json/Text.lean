import Mathlib
import ChocoRV.Json.Parser
import ChocoRV.Json.Printer

/-!
# Reading JSON text back

The text of a value is read as one syntax tree, `Json.raw`, in which strings and numbers stand as
they are spelled (`Json.parse?_render`), and the tree has the value that has been written
(`Json.value?_raw`), as long as it does not nest too deep. Numbers that are not integers have many
spellings and are left out, as are integers that doubles do not hold (`Json.Plain`).
-/

namespace ChocoRV

namespace Json

/-! ## Strings -/

/-- The characters of a text: those with an escape of their own, the other ones below the blank, and
all others. -/
theorem escapeChar_cases {P : Char → List Char → Prop} (quote : P '"' ['\\', '"'])
    (slash : P '\\' ['\\', '\\']) (backspace : P '\x08' ['\\', 'b']) (tab : P '\t' ['\\', 't'])
    (newline : P '\n' ['\\', 'n']) (feed : P '\x0c' ['\\', 'f']) (ret : P '\r' ['\\', 'r'])
    (control : ∀ c, c.toNat < 0x20 → P c (escapeControl c))
    (plain : ∀ c, c ≠ '"' → c ≠ '\\' → ¬ c.toNat < 0x20 → P c [c]) (c : Char) :
    P c (escapeChar c) := by
  unfold escapeChar shortEscape?
  by_cases hquote : c = '"'
  · subst hquote
    exact quote
  by_cases hslash : c = '\\'
  · subst hslash
    exact slash
  by_cases hbackspace : c = '\x08'
  · subst hbackspace
    exact backspace
  by_cases htab : c = '\t'
  · subst htab
    exact tab
  by_cases hnewline : c = '\n'
  · subst hnewline
    exact newline
  by_cases hfeed : c = '\x0c'
  · subst hfeed
    exact feed
  by_cases hret : c = '\r'
  · subst hret
    exact ret
  simp only [hquote, hslash, hbackspace, htab, hnewline, hfeed, hret, beq_iff_eq, if_false]
  by_cases hcontrol : c.toNat < 0x20
  · rw [if_pos hcontrol]
    exact control c hcontrol
  · rw [if_neg hcontrol]
    exact plain c hquote hslash hcontrol

theorem hexValue?_digitChar {n : Nat} (h : n < 16) :
    RawJson.hexValue? (Nat.digitChar n) = some n := by
  interval_cases n <;> rfl

theorem isHex_digitChar {n : Nat} (h : n < 16) : RawJson.isHex (Nat.digitChar n) = true := by
  rw [RawJson.isHex, hexValue?_digitChar h]
  rfl

theorem stringBody_escapeChar (c : Char) (acc rest : List Char) :
    RawJson.stringBody acc (escapeChar c ++ rest) =
      RawJson.stringBody ((escapeChar c).reverse ++ acc) rest := by
  refine escapeChar_cases (P := fun _ cs => RawJson.stringBody acc (cs ++ rest) =
    RawJson.stringBody (cs.reverse ++ acc) rest) rfl rfl rfl rfl rfl rfl rfl (fun c hc => ?_)
    (fun c hquote hslash hlow => ?_) c
  · show (if RawJson.isHex '0' && RawJson.isHex '0' && RawJson.isHex
      (Nat.digitChar (c.toNat / 16)) &&
      RawJson.isHex (Nat.digitChar (c.toNat % 16)) then _ else _) = _
    rw [isHex_digitChar (by omega), isHex_digitChar (Nat.mod_lt _ (by decide))]
    rfl
  · rw [List.singleton_append, RawJson.stringBody.eq_def]
    split
    · contradiction
    · exact absurd (List.cons.inj ‹_›).1 hquote
    · exact absurd (List.cons.inj ‹_›).1 hslash
    · exact absurd (List.cons.inj ‹_›).1 hslash
    · rename_i heq
      obtain ⟨rfl, rfl⟩ := List.cons.inj heq
      rw [if_neg (by simp [hlow, hslash])]
      rfl

/-- The text of a string ends at its closing quote. -/
theorem stringBody_escape (s : String) (rest : List Char) :
    RawJson.stringBody [] (escape s ++ '"' :: rest) = some (escape s, rest) := by
  have hacc : ∀ (cs acc : List Char), RawJson.stringBody acc
    (cs.flatMap escapeChar ++ '"' :: rest) =
      some (acc.reverse ++ cs.flatMap escapeChar, rest) := by
    intro cs
    induction cs with
    | nil =>
      intro acc
      rw [List.flatMap_nil, List.append_nil]
      rfl
    | cons c cs ih =>
      intro acc
      rw [List.flatMap_cons, List.append_assoc, stringBody_escapeChar, ih, List.reverse_append,
        List.reverse_reverse, List.append_assoc]
  exact hacc s.toList []

theorem unescape_escapeChar (c : Char) (acc rest : List Char) :
    RawJson.unescape acc (escapeChar c ++ rest) = RawJson.unescape (c :: acc) rest := by
  refine escapeChar_cases (P := fun c cs => RawJson.unescape acc (cs ++ rest) =
    RawJson.unescape (c :: acc) rest) rfl rfl rfl rfl rfl rfl rfl (fun c hc => ?_)
    (fun c _ hslash _ => ?_) c
  · have hhex : RawJson.hex4 '0' '0' (Nat.digitChar (c.toNat / 16)) (Nat.digitChar (c.toNat % 16)) =
        c.toNat := by
      rw [RawJson.hex4, hexValue?_digitChar (by omega),
        hexValue?_digitChar (Nat.mod_lt _ (by decide))]
      show ((0 * 16 + 0) * 16 + c.toNat / 16) * 16 + c.toNat % 16 = _
      omega
    rw [RawJson.unescape.eq_def]
    simp only [escapeControl, List.cons_append, List.nil_append, hhex]
    rw [if_neg, if_neg, Char.ofNat_toNat]
    · simp only [RawJson.isLowSurrogate, Bool.and_eq_true, decide_eq_true_eq]
      omega
    · simp only [RawJson.isHighSurrogate, Bool.and_eq_true, decide_eq_true_eq]
      omega
  · rw [List.singleton_append, RawJson.unescape.eq_def]
    split
    · contradiction
    · exact absurd (List.cons.inj ‹_›).1 hslash
    · exact absurd (List.cons.inj ‹_›).1 hslash
    · rename_i heq
      obtain ⟨rfl, rfl⟩ := List.cons.inj heq
      rfl

/-- Every string is read back from its escaped form. -/
theorem unescape_escape (s : String) : RawJson.unescape [] (escape s) = some s := by
  have hacc : ∀ (cs acc : List Char), RawJson.unescape acc (cs.flatMap escapeChar) =
      some (String.ofList (acc.reverse ++ cs)) := by
    intro cs
    induction cs with
    | nil =>
      intro acc
      rw [List.append_nil]
      rfl
    | cons c cs ih =>
      intro acc
      rw [List.flatMap_cons, unescape_escapeChar, ih, List.reverse_cons, List.append_assoc,
        List.singleton_append]
  rw [escape, hacc, List.reverse_nil, List.nil_append, String.ofList_toList]

end Json

/-! ## Numbers -/

theorem eq_digitChar_of_isDigit {c : Char} (h : c.isDigit = true) :
    ∃ n < 10, c = Nat.digitChar n := by
  have hrange : 48 ≤ c.toNat ∧ c.toNat ≤ 57 := by
    simpa [Char.isDigit, UInt32.le_iff_toNat_le] using h
  refine ⟨c.toNat - 48, by omega, ?_⟩
  have hc : c = Char.ofNat c.toNat := (Char.ofNat_toNat c).symm
  generalize c.toNat = n at hrange hc
  obtain ⟨hlo, hhi⟩ := hrange
  subst hc
  interval_cases n <;> rfl

/-- Only zero is spelled with a zero in front. -/
theorem toDigits_eq_cons {m : Nat} (h : 0 < m) :
    ∃ d ds, Nat.toDigits 10 m = d :: ds ∧ d ≠ '0' := by
  induction m using Nat.strong_induction_on with
  | _ m ih =>
    by_cases hm : m < 10
    · refine ⟨Nat.digitChar m, [], Nat.toDigits_of_lt_base hm, ?_⟩
      interval_cases m <;> decide
    · obtain ⟨d, ds, hds, hd⟩ := ih (m / 10) (Nat.div_lt_self h (by decide)) (by omega)
      refine ⟨d, ds ++ [Nat.digitChar (m % 10)], ?_, hd⟩
      rw [Nat.toDigits_of_base_le (by decide) (by omega), hds, List.cons_append]

namespace JsonNumber

/-- An integer as it is spelled. -/
def ofInt (n : Int) : JsonNumber := ⟨decide (n < 0), Nat.toDigits 10 n.natAbs, [], none⟩

theorem digitsValue_toDigits (m : Nat) : digitsValue (Nat.toDigits 10 m) = m := by
  have hfold : ∀ (ds : List Char) (k : Nat), ds.foldl (fun n c => n * 10 + (c.toNat - 48)) k =
      Nat.ofDigitChars 10 ds k := by
    intro ds
    induction ds with
    | nil => exact fun _ => rfl
    | cons d ds ih =>
      intro k
      rw [List.foldl_cons, ih, Nat.mul_comm]
      rfl
  rw [digitsValue, hfold, Nat.ofDigitChars_ten_toDigits]

theorem int?_ofInt (n : Int) : (ofInt n).int? = some n := by
  show (if decide (n < 0) = true then (if digitsValue (Nat.toDigits 10 n.natAbs) = 0 then none
    else some (-(digitsValue (Nat.toDigits 10 n.natAbs) : Int)))
    else some (digitsValue (Nat.toDigits 10 n.natAbs) : Int)) = some n
  rw [digitsValue_toDigits]
  by_cases hn : n < 0
  · rw [if_pos (by simpa using hn), if_neg (by omega)]
    congr 1
    omega
  · rw [if_neg (by simpa using hn)]
    congr 1
    omega

/-- Digits whose value fits 64 bits are all taken. -/
theorem takeWhole_eq (ds : List Char) (sig : Nat)
    (h : ds.foldl (fun n c => n * 10 + (c.toNat - 48)) sig ≤ maxSignificand) :
    takeWhole sig ds = (ds.foldl (fun n c => n * 10 + (c.toNat - 48)) sig, 0) := by
  have hle : ∀ (ds : List Char) (k : Nat), k ≤ ds.foldl (fun n c => n * 10 + (c.toNat - 48)) k := by
    intro ds
    induction ds with
    | nil => exact fun _ => Nat.le_refl _
    | cons d ds ih => exact fun k => Nat.le_trans (by omega) (ih (k * 10 + (d.toNat - 48)))
  induction ds generalizing sig with
  | nil => rfl
  | cons d ds ih =>
    rw [takeWhole, if_neg (Nat.not_lt.mpr (Nat.le_trans (hle ds _) h)), ih _ h]
    rfl

/-- Doubles hold all natural numbers of 53 bits. -/
def exactLimit : Nat := 9007199254740992

theorem roundToDouble_eq {m : Nat} (h : m < exactLimit) : roundToDouble m = m := by
  have hlog : m.log2 - 52 = 0 := by
    by_cases hm : m = 0
    · subst hm
      rfl
    · have hlt : m.log2 < 53 := (Nat.log2_lt hm).mpr h
      omega
  rw [roundToDouble, hlog]
  simp [Nat.mod_one]

theorem isFinite_ofInt {n : Int} (h : n.natAbs < exactLimit) : (ofInt n).isFinite = true := by
  have hscaled : (ofInt n).scaled = (n.natAbs, Int.ofNat 0) := by
    have hvalue := digitsValue_toDigits n.natAbs
    rw [digitsValue] at hvalue
    have htake := takeWhole_eq (Nat.toDigits 10 n.natAbs) 0 (by
      rw [hvalue]
      exact Nat.le_of_lt (Nat.lt_trans h (by decide)))
    rw [hvalue] at htake
    simp only [scaled, ofInt, htake, takeFrac]
    rfl
  simp only [isFinite, hscaled, roundToDouble_eq h]
  rw [Bool.or_eq_true, Bool.and_eq_true, decide_eq_true_eq, decide_eq_true_eq]
  refine .inr ⟨by decide, ?_⟩
  have hone : roundToDouble (Nat.pow 10 0) = 1 := by decide
  rw [hone, Nat.mul_one]
  exact Nat.lt_trans h (by decide +kernel)

end JsonNumber

namespace RawJson

/-- What may stand behind a value: nothing, a comma or a closing bracket. -/
def Ends : List Char → Prop
  | [] => True
  | c :: _ => c = ',' ∨ c = ']' ∨ c = '}'

/-- A run of digits ends where a value ends. -/
theorem takeDigits_append {ds rest : List Char} (hds : ∀ d ∈ ds, d.isDigit = true) (h : Ends rest) :
    takeDigits (ds ++ rest) = (ds, rest) := by
  have hrest : rest.takeWhile Char.isDigit = [] ∧ rest.dropWhile Char.isDigit = rest := by
    cases rest with
    | nil => exact ⟨rfl, rfl⟩
    | cons c cs => rcases h with rfl | rfl | rfl <;> exact ⟨rfl, rfl⟩
  rw [takeDigits, List.takeWhile_append_of_pos hds, List.dropWhile_append_of_pos hds,
    hrest.1, hrest.2, List.append_nil]

theorem unsignedNumber_toDigits (neg : Bool) (m : Nat) {rest : List Char} (h : Ends rest) :
    unsignedNumber neg (Nat.toDigits 10 m ++ rest) =
      some (⟨neg, Nat.toDigits 10 m, [], none⟩, rest) := by
  have hwhole : wholePart (Nat.toDigits 10 m ++ rest) = some (Nat.toDigits 10 m, rest) := by
    by_cases hm : m = 0
    · subst hm
      rfl
    · obtain ⟨d, ds, hds, hd⟩ := toDigits_eq_cons (Nat.pos_of_ne_zero hm)
      have htake := takeDigits_append
        (fun c hc => Nat.isDigit_of_mem_toDigits (b := 10) (n := m) (by decide) (by decide) hc) h
      rw [hds] at htake ⊢
      rw [List.cons_append] at htake ⊢
      rw [wholePart, htake]
      exact fun _ hcons => hd (List.cons.inj hcons).1
  have hfrac : fracPart rest = some ([], rest) := by
    cases rest with
    | nil => rfl
    | cons c cs => rcases h with rfl | rfl | rfl <;> rfl
  have hexp : expPart rest = some (none, rest) := by
    cases rest with
    | nil => rfl
    | cons c cs => rcases h with rfl | rfl | rfl <;> rfl
  simp only [unsignedNumber, hwhole, hfrac, hexp, Option.bind_eq_bind, Option.bind_some]
  rfl

theorem skipBlanks_cons {c : Char} (h : isBlank c = false) (cs : List Char) :
    skipBlanks (c :: cs) = c :: cs := by
  rw [skipBlanks, List.dropWhile_cons_of_neg (by simp [h])]

/-- A text that starts with a digit or a sign can only be a number. -/
theorem value_number {c : Char} (h : c = '-' ∨ c.isDigit = true) (fuel : Nat) (cs : List Char) :
    value (fuel + 1) (c :: cs) = (number (c :: cs)).map fun r => (.num r.1, r.2) := by
  rcases h with rfl | h
  · rfl
  · obtain ⟨n, hn, rfl⟩ := eq_digitChar_of_isDigit h
    interval_cases n <;> rfl

theorem value_arr {c : Char} (hblank : isBlank c = false) (hc : c ≠ ']') (fuel : Nat)
    (cs : List Char) : value (fuel + 1) ('[' :: c :: cs) = items fuel [] (c :: cs) := by
  have hopen : skipBlanks ('[' :: c :: cs) = '[' :: c :: cs := rfl
  simp only [value, hopen, skipBlanks_cons hblank]
  split
  · rename_i heq
    exact absurd (List.cons.inj heq).1 hc
  · rfl

theorem value_obj (fuel : Nat) (cs : List Char) :
    value (fuel + 1) ('{' :: '"' :: cs) = members fuel [] ('"' :: cs) := rfl

section Parts

variable {fuel : Nat} {cs rest rest' name : List Char} {item : RawJson}

theorem items_comma (acc : List RawJson) (h : value fuel cs = some (item, ',' :: rest)) :
    items (fuel + 1) acc cs = items fuel (item :: acc) rest := by
  rw [items, h]
  rfl

theorem items_close (acc : List RawJson) (h : value fuel cs = some (item, ']' :: rest)) :
    items (fuel + 1) acc cs = some (.arr (item :: acc).reverse, rest) := by
  rw [items, h]
  rfl

theorem members_comma (acc : List (List Char × RawJson))
    (hname : stringBody [] cs = some (name, ':' :: rest))
    (h : value fuel rest = some (item, ',' :: rest')) :
    members (fuel + 1) acc ('"' :: cs) = members fuel ((name, item) :: acc) rest' := by
  have hquote : skipBlanks ('"' :: cs) = '"' :: cs := rfl
  have hcolon : skipBlanks (':' :: rest) = ':' :: rest := rfl
  simp only [members, hquote, hname, hcolon, h]
  rfl

theorem members_close (acc : List (List Char × RawJson))
    (hname : stringBody [] cs = some (name, ':' :: rest))
    (h : value fuel rest = some (item, '}' :: rest')) :
    members (fuel + 1) acc ('"' :: cs) = some (.obj ((name, item) :: acc).reverse, rest') := by
  have hquote : skipBlanks ('"' :: cs) = '"' :: cs := rfl
  have hcolon : skipBlanks (':' :: rest) = ':' :: rest := rfl
  simp only [members, hquote, hname, hcolon, h]
  rfl

end Parts

end RawJson

/-! ## Syntax trees -/

namespace Json

mutual

/-- The syntax tree of the text of a value. -/
def raw : Json → RawJson
  | .null => .null
  | .bool b => .bool b
  | .int n => .num (.ofInt n)
  | .real n => .num n
  | .str s => .str (escape s)
  | .arr items => .arr (rawItems items)
  | .obj members => .obj (rawMembers members)

def rawItems : List Json → List RawJson
  | [] => []
  | v :: rest => raw v :: rawItems rest

def rawMembers : List (String × Json) → List (List Char × RawJson)
  | [] => []
  | (name, v) :: rest => (escape name, raw v) :: rawMembers rest

end

mutual

/-- All numbers are integers, and doubles hold them. -/
def Plain : Json → Prop
  | .null => True
  | .bool _ => True
  | .int n => n.natAbs < JsonNumber.exactLimit
  | .real _ => False
  | .str _ => True
  | .arr items => PlainItems items
  | .obj members => PlainMembers members

def PlainItems : List Json → Prop
  | [] => True
  | v :: rest => Plain v ∧ PlainItems rest

def PlainMembers : List (String × Json) → Prop
  | [] => True
  | (_, v) :: rest => Plain v ∧ PlainMembers rest

end

mutual

/-- How many arrays and objects nest. -/
def depth : Json → Nat
  | .arr items => itemsDepth items + 1
  | .obj members => membersDepth members + 1
  | _ => 0

def itemsDepth : List Json → Nat
  | [] => 0
  | v :: rest => max (depth v) (itemsDepth rest)

def membersDepth : List (String × Json) → Nat
  | [] => 0
  | (_, v) :: rest => max (depth v) (membersDepth rest)

end

/-- A property holds of every value if it holds of an array and of an object whenever it holds of
the parts. -/
theorem nested_induction {P : Json → Prop} (null : P .null) (bool : ∀ b, P (.bool b))
    (int : ∀ n, P (.int n)) (real : ∀ n, P (.real n)) (str : ∀ s, P (.str s))
    (arr : ∀ items, (∀ v ∈ items, P v) → P (.arr items))
    (obj : ∀ members, (∀ m ∈ members, P m.2) → P (.obj members)) (j : Json) : P j :=
  @Json.rec P (fun items => ∀ v ∈ items, P v) (fun members => ∀ m ∈ members, P m.2) (fun m => P m.2)
    null bool int real str arr obj (List.forall_mem_nil _)
    (fun _ _ hv hvs => List.forall_mem_cons.mpr ⟨hv, hvs⟩) (List.forall_mem_nil _)
    (fun _ _ hv hvs => List.forall_mem_cons.mpr ⟨hv, hvs⟩) (fun _ _ h => h) j

theorem toList_toString_int (n : Int) : (toString n).toList =
    (if n < 0 then ['-'] else []) ++ Nat.toDigits 10 n.natAbs := by
  cases n with
  | ofNat m =>
    rw [if_neg (by simp)]
    show (toString m).toList = _
    rw [Nat.toString_eq_ofList_toDigits, String.toList_ofList]
    rfl
  | negSucc m =>
    rw [if_pos (by simp)]
    show ("-" ++ toString (m + 1)).toList = _
    rw [String.toList_append, Nat.toString_eq_ofList_toDigits]
    exact congrArg ('-' :: ·) String.toList_ofList

theorem toList_intercalate_cons (t u : String) (ts : List String) :
    (",".intercalate (t :: u :: ts)).toList = t.toList ++ ',' ::
    (",".intercalate (u :: ts)).toList := by
  simp only [String.toList_intercalate, List.map_cons, List.intercalate_cons_cons]
  simp

theorem toList_intercalate_head (t : String) (ts : List String) :
    ∃ cs, (",".intercalate (t :: ts)).toList = t.toList ++ cs := by
  cases ts with
  | nil => exact ⟨[], by simp⟩
  | cons u ts => exact ⟨_, toList_intercalate_cons t u ts⟩

theorem toList_render_arr (items : List Json) : (Json.arr items).render.toList =
    '[' :: ((",".intercalate (renderItems items)).toList ++ [']']) := by
  rw [render, String.toList_append, String.toList_append]
  rfl

theorem toList_render_obj (members : List (String × Json)) : (Json.obj members).render.toList =
    '{' :: ((",".intercalate (renderMembers members)).toList ++ ['}']) := by
  rw [render, String.toList_append, String.toList_append]
  rfl

theorem toList_quote (cs : List Char) : (quote cs).toList = '"' :: (cs ++ ['"']) := by
  simp [quote]

theorem value_int (n : Int) (fuel : Nat) {rest : List Char} (h : RawJson.Ends rest) :
    RawJson.value (fuel + 1) ((toString n).toList ++ rest) = some (.num (.ofInt n), rest) := by
  rw [toList_toString_int]
  by_cases hn : n < 0
  · rw [if_pos hn, List.singleton_append, List.cons_append, RawJson.value_number (.inl rfl)]
    show (RawJson.unsignedNumber true _).map _ = _
    rw [RawJson.unsignedNumber_toDigits true _ h, Option.map_some, JsonNumber.ofInt,
      decide_eq_true hn]
  · rw [if_neg hn, List.nil_append]
    have hread := RawJson.unsignedNumber_toDigits false n.natAbs h
    have hdigit : ∀ c ∈ Nat.toDigits 10 n.natAbs, c.isDigit = true := fun c hc =>
      Nat.isDigit_of_mem_toDigits (by decide) (by decide) hc
    rw [JsonNumber.ofInt, decide_eq_false hn]
    cases hds : Nat.toDigits 10 n.natAbs with
    | nil => exact absurd hds Nat.toDigits_ne_nil
    | cons d ds =>
      rw [hds] at hread hdigit
      rw [List.cons_append] at hread ⊢
      have hd := hdigit d (List.mem_cons_self ..)
      rw [RawJson.value_number (.inr hd), RawJson.number, hread]
      · rfl
      · exact fun _ hcons => absurd ((List.cons.inj hcons).1 ▸ hd) (by decide)

variable {j : Json}

/-- The text of a value starts with neither a blank nor a closing bracket. -/
theorem render_eq_cons (hj : j.Plain) :
    ∃ c cs, j.render.toList = c :: cs ∧ RawJson.isBlank c = false ∧ c ≠ ']' := by
  cases j with
  | null => exact ⟨'n', _, rfl, rfl, by decide⟩
  | bool b =>
    cases b with
    | true => exact ⟨'t', _, rfl, rfl, by decide⟩
    | false => exact ⟨'f', _, rfl, rfl, by decide⟩
  | int n =>
    rw [render, toList_toString_int]
    by_cases hn : n < 0
    · rw [if_pos hn]
      exact ⟨'-', _, rfl, rfl, by decide⟩
    · rw [if_neg hn]
      cases hds : Nat.toDigits 10 n.natAbs with
      | nil => exact absurd hds Nat.toDigits_ne_nil
      | cons d ds =>
        have hd : d.isDigit = true :=
          Nat.isDigit_of_mem_toDigits (b := 10) (n := n.natAbs) (by decide) (by decide)
            (hds ▸ List.mem_cons_self ..)
        obtain ⟨k, hk, rfl⟩ := eq_digitChar_of_isDigit hd
        refine ⟨_, _, rfl, ?_⟩
        interval_cases k <;> decide
  | real n => exact hj.elim
  | str s => exact ⟨'"', _, by rw [render, toList_quote], rfl, by decide⟩
  | arr items => exact ⟨'[', _, toList_render_arr items, rfl, by decide⟩
  | obj members => exact ⟨'{', _, toList_render_obj members, rfl, by decide⟩

theorem plain_of_mem_items {vs : List Json} (h : PlainItems vs) {v : Json} (hv : v ∈ vs) :
    v.Plain := by
  induction vs with
  | nil => cases hv
  | cons w ws ih =>
    rcases List.mem_cons.mp hv with rfl | hv
    · exact h.1
    · exact ih h.2 hv

theorem plain_of_mem_members {vs : List (String × Json)} (h : PlainMembers vs) {v : String × Json}
    (hv : v ∈ vs) : v.2.Plain := by
  induction vs with
  | nil => cases hv
  | cons w ws ih =>
    rcases List.mem_cons.mp hv with rfl | hv
    · exact h.1
    · exact ih h.2 hv

theorem items_eq_cons {v : Json} (hv : v.Plain) (vs : List Json) :
    ∃ c cs, (",".intercalate (renderItems (v :: vs))).toList = c :: cs ∧
      RawJson.isBlank c = false ∧ c ≠ ']' := by
  obtain ⟨c, cs, hhead, hc⟩ := render_eq_cons hv
  obtain ⟨more, hmore⟩ := toList_intercalate_head v.render (renderItems vs)
  exact ⟨c, cs ++ more, by rw [renderItems, hmore, hhead, List.cons_append], hc⟩

theorem members_eq_cons (name : String) (v : Json) (vs : List (String × Json)) :
    ∃ cs, (",".intercalate (renderMembers ((name, v) :: vs))).toList = '"' :: cs := by
  obtain ⟨more, hmore⟩ := toList_intercalate_head (quote (escape name) ++ ":" ++ v.render)
    (renderMembers vs)
  rw [renderMembers, hmore, String.toList_append, String.toList_append, toList_quote]
  exact ⟨_, rfl⟩

theorem members_singleton (name : String) (v : Json) :
    (",".intercalate (renderMembers [(name, v)])).toList =
      '"' :: (escape name ++ '"' :: ':' :: v.render.toList) := by
  simp [renderMembers, toList_quote]

theorem members_cons_cons (name : String) (v : Json) (w : String × Json)
    (ws : List (String × Json)) :
    (",".intercalate (renderMembers ((name, v) :: w :: ws))).toList =
      '"' :: (escape name ++ '"' :: ':' :: (v.render.toList ++
        ',' :: (",".intercalate (renderMembers (w :: ws))).toList)) := by
  obtain ⟨name', v'⟩ := w
  rw [renderMembers, renderMembers, toList_intercalate_cons]
  simp [toList_quote]

/-- Reading takes the text of the value and stops behind it. Every character of the text pays for
two calls of the reader. -/
def Reads (j : Json) : Prop :=
  ∀ (fuel : Nat) (rest : List Char), 2 * j.render.toList.length ≤ fuel → RawJson.Ends rest →
    RawJson.value fuel (j.render.toList ++ rest) = some (j.raw, rest)

theorem items_render {vs : List Json} (hvs : ∀ v ∈ vs, v.Reads) (hne : vs ≠ []) (acc : List RawJson)
    (fuel : Nat) (rest : List Char)
    (hfuel : 2 * (",".intercalate (renderItems vs)).toList.length + 1 ≤ fuel) :
    RawJson.items fuel acc ((",".intercalate (renderItems vs)).toList ++ ']' :: rest) =
      some (.arr (acc.reverse ++ rawItems vs), rest) := by
  induction vs generalizing acc fuel with
  | nil => exact absurd rfl hne
  | cons v vs ih =>
    obtain ⟨fuel, rfl⟩ : ∃ k, fuel = k + 1 := ⟨fuel - 1, by omega⟩
    rw [List.forall_mem_cons] at hvs
    cases vs with
    | nil =>
      have htext : (",".intercalate (renderItems [v])).toList = v.render.toList := by
        simp [renderItems]
      rw [htext] at hfuel ⊢
      rw [RawJson.items_close acc (hvs.1 fuel _ (by omega) (.inr (.inl rfl))), List.reverse_cons]
      rfl
    | cons w ws =>
      have htext : (",".intercalate (renderItems (v :: w :: ws))).toList =
          v.render.toList ++ ',' :: (",".intercalate (renderItems (w :: ws))).toList :=
        toList_intercalate_cons v.render w.render (renderItems ws)
      rw [htext] at hfuel ⊢
      rw [List.length_append, List.length_cons] at hfuel
      rw [List.append_assoc, List.cons_append,
        RawJson.items_comma acc (hvs.1 fuel _ (by omega) (.inl rfl)),
        ih hvs.2 (by simp) (v.raw :: acc) fuel (by omega), List.reverse_cons, List.append_assoc]
      rfl

theorem members_render {vs : List (String × Json)} (hvs : ∀ v ∈ vs, v.2.Reads) (hne : vs ≠ [])
    (acc : List (List Char × RawJson)) (fuel : Nat) (rest : List Char)
    (hfuel : 2 * (",".intercalate (renderMembers vs)).toList.length + 1 ≤ fuel) :
    RawJson.members fuel acc ((",".intercalate (renderMembers vs)).toList ++ '}' :: rest) =
      some (.obj (acc.reverse ++ rawMembers vs), rest) := by
  induction vs generalizing acc fuel with
  | nil => exact absurd rfl hne
  | cons v vs ih =>
    obtain ⟨name, v⟩ := v
    obtain ⟨fuel, rfl⟩ : ∃ k, fuel = k + 1 := ⟨fuel - 1, by omega⟩
    obtain ⟨hv, hvs⟩ := List.forall_mem_cons.mp hvs
    have hv : v.Reads := hv
    cases vs with
    | nil =>
      rw [members_singleton] at hfuel ⊢
      rw [List.length_cons, List.length_append, List.length_cons, List.length_cons] at hfuel
      rw [List.cons_append, List.append_assoc, List.cons_append, List.cons_append,
        RawJson.members_close acc (stringBody_escape name _)
          (hv fuel _ (by omega) (.inr (.inr rfl))), List.reverse_cons]
      rfl
    | cons w ws =>
      rw [members_cons_cons] at hfuel ⊢
      rw [List.length_cons, List.length_append, List.length_cons, List.length_cons,
        List.length_append, List.length_cons] at hfuel
      rw [List.cons_append, List.append_assoc, List.cons_append, List.cons_append,
        List.append_assoc, List.cons_append, RawJson.members_comma acc (stringBody_escape name _)
          (hv fuel _ (by omega) (.inl rfl)),
        ih hvs (by simp) ((escape name, v.raw) :: acc) fuel (by omega), List.reverse_cons,
        List.append_assoc]
      rfl

theorem Reads.of_succ (hj : j.Plain)
    (h : ∀ (fuel : Nat) (rest : List Char), 2 * j.render.toList.length ≤ fuel + 1 →
      RawJson.Ends rest → RawJson.value (fuel + 1) (j.render.toList ++ rest) = some (j.raw, rest)) :
    j.Reads := by
  intro fuel rest hfuel hrest
  obtain ⟨c, cs, hcons, -⟩ := render_eq_cons hj
  obtain ⟨fuel, rfl⟩ : ∃ k, fuel = k + 1 :=
    ⟨fuel - 1, by rw [hcons, List.length_cons] at hfuel; omega⟩
  exact h fuel rest hfuel hrest

theorem reads_str (s : String) : (Json.str s).Reads := by
  refine .of_succ trivial fun fuel rest _ _ => ?_
  rw [render, raw, toList_quote, List.cons_append, List.append_assoc, List.singleton_append]
  show (RawJson.stringBody [] _).map _ = _
  rw [stringBody_escape]
  rfl

theorem reads_arr {items : List Json} (hitems : PlainItems items) (h : ∀ v ∈ items, v.Reads) :
    (Json.arr items).Reads := by
  refine .of_succ hitems fun fuel rest hfuel _ => ?_
  cases items with
  | nil => rfl
  | cons v vs =>
    obtain ⟨c, cs, hhead, hblank, hc⟩ := items_eq_cons hitems.1 vs
    rw [toList_render_arr] at hfuel ⊢
    rw [List.length_cons, List.length_append] at hfuel
    have hread := items_render h (by simp) [] fuel rest (by omega)
    rw [hhead, List.cons_append] at hread
    rw [hhead, List.cons_append, List.cons_append, List.cons_append, List.append_assoc,
      RawJson.value_arr hblank hc]
    exact hread

theorem reads_obj {members : List (String × Json)} (hmembers : PlainMembers members)
    (h : ∀ m ∈ members, m.2.Reads) : (Json.obj members).Reads := by
  refine .of_succ hmembers fun fuel rest hfuel _ => ?_
  cases members with
  | nil => rfl
  | cons m ms =>
    obtain ⟨cs, hhead⟩ := members_eq_cons m.1 m.2 ms
    rw [toList_render_obj] at hfuel ⊢
    rw [List.length_cons, List.length_append] at hfuel
    have hread := members_render h (by simp) [] fuel rest (by omega)
    rw [hhead, List.cons_append] at hread
    rw [hhead, List.cons_append, List.cons_append, List.cons_append, List.append_assoc,
      RawJson.value_obj]
    exact hread

theorem Plain.reads (hj : j.Plain) : j.Reads := by
  induction j using nested_induction with
  | null => exact .of_succ trivial fun _ _ _ _ => rfl
  | bool b => cases b <;> exact .of_succ trivial fun _ _ _ _ => rfl
  | int n => exact .of_succ hj fun fuel _ _ hrest => value_int n fuel hrest
  | real n => exact hj.elim
  | str s => exact reads_str s
  | arr items ih => exact reads_arr hj fun v hv => ih v hv (plain_of_mem_items hj hv)
  | obj members ih => exact reads_obj hj fun m hm => ih m hm (plain_of_mem_members hj hm)

/-- The text of a value is read as its syntax tree. -/
theorem parse?_render (hj : j.Plain) : RawJson.parse? j.render = some j.raw := by
  have hvalue := hj.reads (2 * j.render.toList.length + 2) [] (by omega) trivial
  rw [List.append_nil] at hvalue
  rw [RawJson.parse?]
  simp only [hvalue]
  rfl

theorem values?_rawItems {vs : List Json} {d : Nat}
    (h : ∀ v ∈ vs, RawJson.value? d v.raw = if v.depth ≤ d then some v else none) :
    RawJson.values? d (rawItems vs) = if itemsDepth vs ≤ d then some vs else none := by
  induction vs with
  | nil => rw [rawItems, RawJson.values?, itemsDepth, if_pos (Nat.zero_le d)]
  | cons v vs ih =>
    rw [List.forall_mem_cons] at h
    rw [rawItems, RawJson.values?, h.1, ih h.2, itemsDepth]
    by_cases hv : v.depth ≤ d
    · by_cases hvs : itemsDepth vs ≤ d
      · rw [if_pos hv, if_pos hvs, if_pos (by omega)]
      · rw [if_pos hv, if_neg hvs, if_neg (by omega)]
    · have hdeep : ¬ max v.depth (itemsDepth vs) ≤ d := by omega
      rw [if_neg hv, if_neg hdeep]

theorem memberValues?_rawMembers {vs : List (String × Json)} {d : Nat}
    (h : ∀ m ∈ vs, RawJson.value? d m.2.raw = if m.2.depth ≤ d then some m.2 else none) :
    RawJson.memberValues? d (rawMembers vs) = if membersDepth vs ≤ d then some vs else none := by
  induction vs with
  | nil => rw [rawMembers, RawJson.memberValues?, membersDepth, if_pos (Nat.zero_le d)]
  | cons m vs ih =>
    obtain ⟨name, v⟩ := m
    rw [List.forall_mem_cons] at h
    rw [rawMembers, RawJson.memberValues?, unescape_escape, h.1, ih h.2, membersDepth]
    by_cases hv : v.depth ≤ d
    · by_cases hvs : membersDepth vs ≤ d
      · rw [if_pos hv, if_pos hvs, if_pos (by omega)]
      · rw [if_pos hv, if_neg hvs, if_neg (by omega)]
    · have hdeep : ¬ max v.depth (membersDepth vs) ≤ d := by omega
      rw [if_neg hv, if_neg hdeep]

/-- A syntax tree stands for the value that it has been made from, unless that nests too deep. -/
theorem value?_raw (hj : j.Plain) (d : Nat) :
    RawJson.value? d j.raw = if j.depth ≤ d then some j else none := by
  induction j using nested_induction generalizing d with
  | null => rw [depth, if_pos (Nat.zero_le d), raw, RawJson.value?] <;> simp
  | bool b => rw [depth, if_pos (Nat.zero_le d), raw, RawJson.value?] <;> simp
  | int n =>
    rw [depth, if_pos (Nat.zero_le d), raw, RawJson.value?, if_pos (JsonNumber.isFinite_ofInt hj)]
    · simp only [JsonNumber.int?_ofInt]
    · simp
    · simp
  | real n => exact hj.elim
  | str s =>
    rw [depth, if_pos (Nat.zero_le d), raw, RawJson.value?, unescape_escape, Option.map_some] <;>
      simp
  | arr items ih =>
    rw [raw, depth]
    cases d with
    | zero => rw [RawJson.value?, if_neg (by omega)]
    | succ d =>
      rw [RawJson.value?, values?_rawItems fun v hv => ih v hv (plain_of_mem_items hj hv) d]
      by_cases hd : itemsDepth items ≤ d
      · rw [if_pos hd, if_pos (by omega), Option.map_some]
      · rw [if_neg hd, if_neg (by omega), Option.map_none]
  | obj members ih =>
    rw [raw, depth]
    cases d with
    | zero => rw [RawJson.value?, if_neg (by omega)]
    | succ d =>
      rw [RawJson.value?,
        memberValues?_rawMembers fun m hm => ih m hm (plain_of_mem_members hj hm) d]
      by_cases hd : membersDepth members ≤ d
      · rw [if_pos hd, if_pos (by omega), Option.map_some]
      · rw [if_neg hd, if_neg (by omega), Option.map_none]

end Json

end ChocoRV
