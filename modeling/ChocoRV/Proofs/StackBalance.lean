import Mathlib
import ChocoRV.Proofs.Link
import ChocoRV.Proofs.Stack.Balance

/-!
# The stack pointer is balanced

Within the body of a function every place has one offset of the stack pointer from the frame
pointer, whichever way control comes to it. `StackBalanced` states this together with the open
reservations that the offset comes from; `stack_pointer_balanced` shows it of every function of a
compiled program in both register modes, and that the whole frame is free of reservations before and
after the code of every statement.
-/

namespace ChocoRV

open Assembly

/-! ## What an operation does to the reservations, read backwards -/

namespace Op.Shifts

variable {unit : String} {L : List (List Nat)} {R R' : List Nat} {o : Op Label}

variable (h : o.Shifts unit L R R')

include h

theorem moves :
    (∃ n, o = .addi .sp .sp n ∧ o.spShift = n) ∨ (o.def? ≠ some .sp ∧ o.spShift = 0) := by
  cases h with
  | reserve words => exact .inl ⟨_, rfl, rfl⟩
  | giveBack words => exact .inl ⟨_, rfl, rfl⟩
  | pass src hk => exact .inr ⟨nofun, rfl⟩
  | other h ht => exact .inr ⟨h.1, h.spShift_eq⟩

theorem def?_ne_fp : o.def? ≠ some .fp := by
  cases h with
  | reserve | giveBack | pass => simp [Op.def?]
  | other h ht => exact h.2.1

theorem target {l : Label} (hl : o.flow.target? = some l) :
    l.HasLevel unit L R ∨ l ∈ Routine.errors := by
  cases h with
  | reserve | giveBack | pass => cases hl
  | other h ht => exact ht l hl

theorem reserves {n : Int32} (ho : o = .addi .sp .sp n) :
    (∃ words, n = -Object.slotOffset words ∧ R' = words :: R) ∨
      ∃ words, n = Object.slotOffset words ∧ R = words :: R' := by
  cases h with
  | reserve words =>
    cases ho
    exact .inl ⟨words, rfl, rfl⟩
  | giveBack words =>
    cases ho
    exact .inr ⟨words, rfl, rfl⟩
  | pass => cases ho
  | other h ht =>
    subst ho
    exact absurd rfl h.1

theorem keeps (ho : o.def? ≠ some .sp) : R' = R := by
  cases h with
  | reserve | giveBack => exact absurd rfl ho
  | pass | other => rfl

theorem stores {w : Width} {src : Reg} {n : Int32}
    (ho : o = .store w src .sp n) :
    w = .word ∧ ∃ words rest j, R = words :: rest ∧ j < words ∧ n = Object.slotOffset j := by
  cases h with
  | reserve | giveBack => cases ho
  | pass src hk =>
    cases ho
    exact ⟨rfl, _, _, _, rfl, hk, rfl⟩
  | other h ht =>
    subst ho
    exact absurd rfl h.2.2

end Op.Shifts

/-! ## Balance -/

/-- The stack pointer in a body `items` within a frame of size `size`, which is left at `exit`.
Before instruction `k` it is `offset k` from the frame pointer, and the reservations `room k` are
open, each a number of words, the innermost first. -/
structure StackBalanced (size : Int32) (items : List Item) (exit : Label) (offset : Nat → Int32)
    (room : Nat → List Nat) : Prop where
  entry : offset 0 = -size ∧ room 0 = []
  /-- Additions to the stack pointer move it by their constant, and nothing else does. -/
  moves {k : Nat} {i : Instr} (hi : (instrs items)[k]? = some i) :
    (∃ n, i.op = .addi .sp .sp n ∧ offset (k + 1) = offset k + n) ∨
      (i.op.def? ≠ some .sp ∧ offset (k + 1) = offset k)
  /-- The frame pointer stays where it is. -/
  frame {k : Nat} {i : Instr} (hi : (instrs items)[k]? = some i) : i.op.def? ≠ some .fp
  /-- A jump finds at its label what it left. -/
  edges {k : Nat} {i : Instr} {l l' : Label} {before after : List Item}
    (hi : (instrs items)[k]? = some i) (ht : i.op.flow.target? = some l)
    (hl : items = before ++ .label l' :: after) (hname : l'.name = l.name) :
    offset (instrs before).length = offset k ∧ room (instrs before).length = room k
  /-- The body is left, by a jump or at its end, with nothing reserved. -/
  leaves {k : Nat} {i : Instr} {l : Label} (hi : (instrs items)[k]? = some i)
    (ht : i.op.flow.target? = some l) (hname : l.name = exit.name) : offset k = -size
  ends : offset (instrs items).length = -size
  /-- An addition to the stack pointer opens a reservation or closes the innermost one. -/
  reserves {k : Nat} {i : Instr} {n : Int32} (hi : (instrs items)[k]? = some i)
    (ho : i.op = .addi .sp .sp n) :
    (∃ words, n = -Object.slotOffset words ∧ room (k + 1) = words :: room k) ∨
      ∃ words, n = Object.slotOffset words ∧ room k = words :: room (k + 1)
  keeps {k : Nat} {i : Instr} (hi : (instrs items)[k]? = some i) (ho : i.op.def? ≠ some .sp) :
    room (k + 1) = room k
  /-- The stack pointer is below the frame by as many words as are reserved; so it never gets above
  the frame. -/
  below {k : Nat} (hk : k ≤ (instrs items).length) :
    offset k = -size - Object.slotOffset (room k).sum ∧
      (0 ≤ size.toInt → size.toInt + 4 * (room k).sum ≤ 2147483648 →
        (offset k).toInt = -size.toInt - 4 * (room k).sum)
  /-- What is stored through the stack pointer is a word of the innermost reservation. -/
  stores {k : Nat} {i : Instr} {w : Width} {src : Reg} {n : Int32}
    (hi : (instrs items)[k]? = some i) (ho : i.op = .store w src .sp n) :
    w = .word ∧ ∃ words rest j, room k = words :: rest ∧ j < words ∧ n = Object.slotOffset j ∧
      (4 * words < 2147483648 → 0 ≤ n.toInt ∧ n.toInt + 4 ≤ 4 * words)

theorem toInt_slotOffset {j : Nat} (h : 4 * j < 2147483648) :
    (Object.slotOffset j).toInt = 4 * j := by
  have hj : (Int32.ofNat j).toInt = j := Int32.toInt_ofNat_of_lt (by omega)
  have h4 : Object.wordSize.toInt = 4 := rfl
  rw [Object.slotOffset, Int32.toInt_mul, hj, h4, Int.bmod_eq_of_le (by omega) (by omega)]
  omega

theorem toInt_neg_sub_slotOffset {size : Int32} {n : Nat} (hsize : 0 ≤ size.toInt)
    (h : size.toInt + 4 * n ≤ 2147483648) :
    (-size - Object.slotOffset n).toInt = -size.toInt - 4 * n := by
  have heq : -size - Object.slotOffset n = Int32.ofInt (-size.toInt - 4 * n) := by
    rw [slotOffset_eq_ofInt, Int32.ofInt_sub, Int32.ofInt_neg, Int32.ofInt_toInt]
  rw [heq, Int32.toInt_ofInt_of_le]
  · omega
  · omega

theorem spOffset_succ (size : Int32) {is : List Instr} {k : Nat} {i : Instr}
    (hi : is[k]? = some i) :
    spAfter (-size) (is.take (k + 1)) = spAfter (-size) (is.take k) + i.op.spShift := by
  rw [List.take_add_one, hi, spAfter_append]
  rfl

/-- A stream with reservations that come to nothing is balanced. -/
theorem Along.stackBalanced {unit : String} {L : List (List Nat)} {items : List Item}
    (h : Along unit L [] items []) (hexit : L[0]? = some []) (size : Int32) :
    ∃ room, StackBalanced size items (.nth unit 0)
      (fun k => spAfter (-size) ((instrs items).take k)) room := by
  obtain ⟨room, hzero, hlast, hstep, hlabel⟩ := h.rooms
  have hbelow : ∀ k ≤ (instrs items).length,
      spAfter (-size) ((instrs items).take k) = -size - Object.slotOffset (room k).sum := by
    intro k hk
    induction k with
    | zero =>
      rw [hzero]
      exact (Int32.sub_zero _).symm
    | succ k ih =>
      have hi := List.getElem?_eq_getElem (l := instrs items) hk
      rw [spOffset_succ size hi, ih (by omega), (hstep k _ hi).offset]
  have hlt {k : Nat} {i : Instr} (hi : (instrs items)[k]? = some i) :
      k < (instrs items).length := (List.getElem?_eq_some_iff.mp hi).1
  have hedge {k : Nat} {i : Instr} {l : Label} {n : Nat} (hi : (instrs items)[k]? = some i)
      (ht : i.op.flow.target? = some l) (hname : (Label.nth unit n).name = l.name) :
      L[n]? = some (room k) := by
    rcases (hstep k i hi).target ht with ⟨m, rfl, hm⟩ | herror
    · rw [Label.nth_inj hname, hm]
    · exact absurd hname (Label.nth_not_error herror)
  have hnone : -size - Object.slotOffset ([] : List Nat).sum = -size := Int32.sub_zero _
  refine ⟨room, {
    entry := ⟨rfl, hzero⟩
    moves := fun {k i} hi => ?_
    frame := fun {k i} hi => (hstep k i hi).def?_ne_fp
    edges := fun {k i l l' before after} hi ht hl hname => ?_
    leaves := fun {k i l} hi ht hname => ?_
    ends := ?_
    reserves := fun {k i n} hi ho => (hstep k i hi).reserves ho
    keeps := fun {k i} hi ho => (hstep k i hi).keeps ho
    below := fun {k} hk => ⟨hbelow k hk, fun hsize hsum => ?_⟩
    stores := fun {k i w src n} hi ho => ?_ }⟩
  · rw [spOffset_succ size hi]
    rcases (hstep k i hi).moves with ⟨n, ho, hn⟩ | ⟨ho, hn⟩
    · exact .inl ⟨n, ho, by rw [hn]⟩
    · exact .inr ⟨ho, by rw [hn, Int32.add_zero]⟩
  · obtain ⟨n, rfl, hn⟩ := hlabel before l' after hl
    have hroom : room (instrs before).length = room k :=
      Option.some.inj (hn.symm.trans (hedge hi ht hname))
    have hlen : (instrs before).length ≤ (instrs items).length := by
      rw [hl, instrs_append, List.length_append]
      omega
    refine ⟨?_, hroom⟩
    rw [hbelow _ hlen, hroom, hbelow k (hlt hi).le]
  · have hroom : room k = [] := Option.some.inj ((hedge hi ht hname.symm).symm.trans hexit)
    rw [hbelow k (hlt hi).le, hroom, hnone]
  · rw [hbelow _ le_rfl, hlast, hnone]
  · rw [hbelow k hk]
    exact toInt_neg_sub_slotOffset hsize hsum
  · obtain ⟨hw, words, rest, j, hroom, hj, rfl⟩ := (hstep k i hi).stores ho
    refine ⟨hw, words, rest, j, hroom, hj, rfl, fun hwords => ?_⟩
    rw [toInt_slotOffset (by omega)]
    omega

/-! ## Statements -/

/-- The stack pointer ends where it began. -/
def Neutral (items : List Item) : Prop := ∀ offset, spAfter offset (instrs items) = offset

theorem Neutral.append {xs ys : List Item} (hx : Neutral xs) (hy : Neutral ys) :
    Neutral (xs ++ ys) := by
  intro offset
  rw [instrs_append, spAfter_append, hx, hy]

section Statements

variable {mode : RegisterMode} {regs : List PhysReg} {place : Item → List Item}
  (hp : Body.Placing mode regs place) (hregs : ∀ p ∈ regs, p ∈ PhysReg.allocatable)
include hp hregs

theorem Traced.neutral {env : Env} {σ : Draft.Scene} {s s' : Draft.State} {evs : List Event}
    (h : Traced env False (.unit env) s evs s' σ) (hσ : σ.rooms = []) (hs : 0 < s.labels) :
    0 < s'.labels ∧ Neutral ((Body.draftItems evs).flatMap place) := by
  obtain ⟨n, hn⟩ := Nat.exists_eq_add_one.mpr hs
  obtain ⟨L, hL, hlen, -, halong, -⟩ := h.follows List.nodup_nil nofun
    (L := {} :: List.replicate n {}) (by simp [hn]) Draft.Scene.knows_unit
  have hle := hL.length_le
  rw [List.length_cons, hlen] at hle
  refine ⟨by omega, fun offset => ?_⟩
  rw [hσ] at halong
  have := (halong.flatMap_place hp hregs).spAfter_eq offset
  rwa [show Object.slotOffset ([] : List Nat).sum = 0 from rfl, Int32.sub_zero] at this

/-- No room stays open after a statement. -/
theorem Draft.Yields.neutral {env : Env} {t : Stmt} {s s' : Draft.State} {evs : List Event}
    (h : (env.stmt t).Yields s evs s' ()) (hs : 0 < s.labels) :
    0 < s'.labels ∧ Neutral ((Body.draftItems evs).flatMap place) :=
  Traced.neutral hp hregs
    (((env.stmts_drawn False.elim).1 t False.elim _ Scene.forStmt_unit).traced_to
    h) rfl hs

theorem Env.Within.neutral {env : Env} {t : Stmt} {σ s : Draft.State} {ss : List Stmt}
    {pre : List Event} (h : env.Within t σ ss s pre) (hs : 0 < s.labels) :
    0 < σ.labels ∧ Neutral ((Body.draftItems pre).flatMap place) := by
  have happend (e pre : List Event) : (Body.draftItems (e ++ pre)).flatMap place =
      (Body.draftItems e).flatMap place ++ (Body.draftItems pre).flatMap place := by
    rw [Body.draftItems, List.filterMap_append, List.flatMap_append]
    rfl
  induction h with
  | here ss => exact ⟨hs, fun offset => rfl⟩
  | later hu _ ih =>
    obtain ⟨hs₁, hneutral⟩ := Draft.Yields.neutral hp hregs hu hs
    obtain ⟨hσ, hrest⟩ := ih hs₁
    rw [happend]
    exact ⟨hσ, hneutral.append hrest⟩
  | nested ho hx _ ih =>
    obtain ⟨σ, hσ, ht⟩ := ho.traced hx
    obtain ⟨hs₁, hneutral⟩ := ht.neutral hp hregs hσ hs
    obtain ⟨hσ, hrest⟩ := ih hs₁
    rw [happend]
    exact ⟨hσ, hneutral.append hrest⟩

end Statements

namespace Function

/-- In the draft of a unit that begins with the constants `pool`, the statement `t` is drafted from
state `σ`, after the events `pre`. -/
inductive StatementAt (table : SymbolTable) (comments : Bool) (body : List Stmt)
    (pool : ConstantPool) (t : Stmt) (σ : Draft.State) : Option Nat → List Event → Prop
  | top {pre : List Event} (h : (topLevelEnv table comments).Within t σ body (start pool) pre) :
      StatementAt table comments body pool t σ none pre
  | func {id : Nat} {s : Draft.State} {e pre : List Event}
      (hi : (initLocals (funcEnv table comments id) (table.func id).locals).Yields
        (start pool) e s ())
      (h : (funcEnv table comments id).Within t σ (table.func id).body s pre) :
      StatementAt table comments body pool t σ (some id) (e ++ pre)

variable {table : SymbolTable} {comments : Bool} {body : List Stmt} {pool : ConstantPool}
  {u : Option Nat}

/-- The code of a statement of a unit, and the stack pointer before and after it. -/
theorem StatementAt.neutral {t : Stmt} {σ : Draft.State} {pre : List Event}
    (h : StatementAt table comments body pool t σ u pre)
    (hok : (draftOf table comments body pool u).value = .ok ()) {mode : RegisterMode}
    {regs : List PhysReg} {place : Item → List Item} (hp : Body.Placing mode regs place)
    (hregs : ∀ p ∈ regs, p ∈ PhysReg.allocatable) :
    ∃ code σ' post, ((envOf table comments u).stmt t).Yields σ code σ' () ∧
      (draftOf table comments body pool u).events = pre ++ code ++ post ∧
      Neutral ((Body.draftItems pre).flatMap place) ∧
      Neutral ((Body.draftItems code).flatMap place) := by
  have hstart : 0 < (start pool : Draft.State).labels := Nat.one_pos
  cases h with
  | top h =>
    obtain ⟨code, σ', post, hy, hevents⟩ := h.split (Draft.yields_of_value hok)
    obtain ⟨hσ, hpre⟩ := Env.Within.neutral hp hregs h hstart
    exact ⟨code, σ', post, hy, hevents, hpre, (Draft.Yields.neutral hp hregs hy hσ).2⟩
  | @func id s e pre hi h =>
    obtain ⟨e', s', ⟨⟩, rest, hi', hrest, hevents⟩ :=
      Draft.yields_bind_iff.mp (Draft.yields_of_value hok)
    obtain ⟨rfl, rfl, -⟩ := hi.unique hi'
    obtain ⟨block, s₂, ⟨⟩, last, hblock, -, rfl⟩ := Draft.yields_bind_iff.mp hrest
    obtain ⟨code, σ', post, hy, rfl⟩ := h.split hblock
    obtain ⟨hs, hinit⟩ :=
      ((initLocals_drawn False.elim).traced_to hi).neutral hp hregs rfl hstart
    obtain ⟨hσ, hpre⟩ := Env.Within.neutral hp hregs h hs
    refine ⟨code, σ', post ++ last, hy, ?_, ?_, (Draft.Yields.neutral hp hregs hy hσ).2⟩
    · refine hevents.trans ?_
      simp only [List.append_assoc]
    · rw [Body.draftItems, List.filterMap_append, List.flatMap_append]
      exact hinit.append hpre

end Function

/-- Instructions before a place of a body. -/
theorem spAfter_before (size : Int32) {items before after : List Item}
    (h : items = before ++ after) (hn : Neutral before) :
    spAfter (-size) ((instrs items).take (instrs before).length) = -size := by
  rw [h, instrs_append, List.take_left]
  exact hn (-size)

/-- The body `b` of a unit whose draft begins with the constants `pool`: `place` puts registers in
place of temporaries, the stack pointer is balanced, and before and after the code of each statement
it is where the frame ends. -/
structure BalancedUnit (settings : CodegenSettings) (table : SymbolTable) (body : List Stmt)
    (pool : ConstantPool) (u : Option Nat) (b : Body) (place : Item → List Item)
    (offset : Nat → Int32) (room : Nat → List Nat) : Prop where
  placing : Body.Placing settings.registers b.saved place
  items : b.items = (Body.draftItems
    (Function.draftOf table settings.comments body pool u).events).flatMap place
  balanced : StackBalanced (Function.frameWith table u b).size b.items
    (.nth (Function.entryOf table u).name 0) offset room
  statements {t : Stmt} {σ : Draft.State} {pre : List Event}
    (h : Function.StatementAt table settings.comments body pool t σ u pre) :
    ∃ code σ' post, ((Function.envOf table settings.comments u).stmt t).Yields σ code σ' () ∧
      (Function.draftOf table settings.comments body pool u).events = pre ++ code ++ post ∧
      offset (instrs ((Body.draftItems pre).flatMap place)).length =
        -(Function.frameWith table u b).size ∧
      offset (instrs ((Body.draftItems (pre ++ code)).flatMap place)).length =
        -(Function.frameWith table u b).size

theorem Function.balancedUnit {settings : CodegenSettings} {table : SymbolTable} {body : List Stmt}
    {pool : ConstantPool} {u : Option Nat} {b : Body}
    (h : bodyOf settings table u (draftOf table settings.comments body pool u) = .ok b) :
    ∃ place offset room, BalancedUnit settings table body pool u b place offset room := by
  have hok := (Body.ofDraft_labels h).1
  obtain ⟨place, hp, hitems, hsaved, -⟩ := Body.placing_of_ofDraft (draftOf_traced hok).nested h
  have hregs : ∀ p ∈ b.saved, p ∈ PhysReg.allocatable := fun p hp =>
    settings.pool_subset p (hsaved p hp)
  obtain ⟨L, hexit, halong, -⟩ := draftOf_follows hok
  rw [show (envOf table settings.comments u).unit = (entryOf table u).name by cases u <;> rfl]
    at halong
  obtain ⟨room, hroom⟩ := (halong.flatMap_place hp hregs).stackBalanced
    (by rw [List.getElem?_map, hexit]; rfl) (frameWith table u b).size
  rw [← hitems] at hroom
  refine ⟨place, _, room, hp, hitems, hroom, fun {t σ pre} hat => ?_⟩
  obtain ⟨code, σ', post, hy, hevents, hpre, hcode⟩ := hat.neutral hok hp hregs
  have hsplit {e rest : List Event}
      (he : (draftOf table settings.comments body pool u).events = e ++ rest) :
      b.items = (Body.draftItems e).flatMap place ++ (Body.draftItems rest).flatMap place := by
    rw [hitems, he, Body.draftItems, List.filterMap_append, List.flatMap_append]
    rfl
  refine ⟨code, σ', post, hy, hevents, ?_, ?_⟩
  · exact spAfter_before _ (hsplit (hevents.trans (List.append_assoc ..))) hpre
  · refine spAfter_before _ (hsplit hevents) ?_
    rw [Body.draftItems, List.filterMap_append, List.flatMap_append]
    exact hpre.append hcode

/-- **The stack pointer is balanced on every path.** If a program compiles, then in the body of the
top level and of every function each place has one offset of the stack pointer from the frame
pointer. It is changed only by additions of constants, is the same along every edge of control, lies
below the frame by the words that are reserved, and is that of the frame where the function is left,
and before and after the code of every statement. Stores through the stack pointer go to words of
the innermost reservation. -/
theorem stack_pointer_balanced {p : Program} {settings : CodegenSettings} {a : Assembly}
    (h : compile p settings = .ok a) :
    ∃ table bodies payload, CompiledAs p settings a table bodies payload ∧
      ∀ u d b, ((u, d), b) ∈ (Function.programDrafts p settings.comments table).zip bodies →
        ∃ pool place offset room, d = Function.draftOf table settings.comments p.body pool u ∧
          BalancedUnit settings table p.body pool u b place offset room := by
  obtain ⟨table, bodies, payload, hc⟩ := compile_eq_ok h
  refine ⟨table, bodies, payload, hc, fun u d b hb => ?_⟩
  obtain ⟨-, hbody, pool, hd⟩ := hc.body_eq_ok hb
  dsimp only at hd hbody
  rw [hd] at hbody
  obtain ⟨place, offset, room, hunit⟩ := Function.balancedUnit hbody
  exact ⟨pool, place, offset, room, hd, hunit⟩

/-- The statement `print(f(1 if c and d else 2, f(3, n)))`, where `f(a, b)` is `a + b`: a call
within a call, and ways that part and meet while the words of a call are half stored. -/
def callInCall : Program :=
  let int (n : Int32) : Expr := .int ⟨{}, .int⟩ n
  let name (type : ValueType) (s : String) : Expr := .name ⟨{}, type⟩ s
  let both : Expr := .binary ⟨{}, .bool⟩ (name .bool "c") .and (name .bool "d")
  let call (l r : Expr) : Expr := .call ⟨{}, .int⟩ "f" [l, r]
  { decls := [.var {} ⟨"c", .bool⟩ (.bool true), .var {} ⟨"d", .bool⟩ (.bool false),
      .var {} ⟨"n", .int⟩ (.int 4),
      .func {} "f" [⟨"a", .int⟩, ⟨"b", .int⟩] .int []
        [.ret {} (some (.binary ⟨{}, .int⟩ (name .int "a") .add (name .int "b")))]]
    body := [.expr {} (.call ⟨{}, .none⟩ "print"
      [call (.cond ⟨{}, .int⟩ both (int 1) (int 2)) (call (int 3) (name .int "n"))])] }

theorem callInCall_balanced :
    ∃ a table bodies payload, compile callInCall ⟨.virtual, true, 2⟩ = .ok a ∧
      CompiledAs callInCall ⟨.virtual, true, 2⟩ a table bodies payload ∧
      ∀ u d b, ((u, d), b) ∈ (Function.programDrafts callInCall true table).zip bodies →
        ∃ pool place offset room, d = Function.draftOf table true callInCall.body pool u ∧
          BalancedUnit ⟨.virtual, true, 2⟩ table callInCall.body pool u b place offset room := by
  have hok : (compile callInCall ⟨.virtual, true, 2⟩).isOk = true := by decide +kernel
  obtain ⟨a, h⟩ := exists_ok_of_isOk hok
  obtain ⟨table, bodies, payload, hc, hunits⟩ := stack_pointer_balanced h
  exact ⟨a, table, bodies, payload, h, hc, hunits⟩

end ChocoRV
