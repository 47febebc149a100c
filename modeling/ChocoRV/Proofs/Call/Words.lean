import Mathlib
import ChocoRV.Proofs.Call.Passing
import ChocoRV.Proofs.Draft.Fills
import ChocoRV.Proofs.Symbol.Params

/-!
# Filling the words of a call

The code of a call makes room for its words, computes one word after the other and stores it to its
place, and then goes to the function. `CallCode` describes this for a list of words with their
numbers; `Env.call_code` and `Env.methodCall_code` say that calls of functions and of methods are
drafted in this way, with which words. What computes a word keeps to room that it has made itself
(`OwnRoom`), so between its store and the end of the call no word is stored to again.
-/

namespace ChocoRV

open Draft (Delivers)

/-! ## Words -/

/-- What a word of a call holds. -/
inductive CallWord where
  /-- The value of an argument, as a value of the type of its parameter. -/
  | arg (e : Expr) (type : ValueType)
  /-- The object whose method is called. -/
  | object (e : Expr)
  /-- The frame of the function that declares the one that is called. -/
  | link (owner : Nat) (span : Span)

/-- The words for arguments, from word `first` on. -/
def argWords (first : Nat) : List TypedVar → List Expr → List (Nat × CallWord)
  | p :: ps, e :: es => (first, .arg e p.type) :: argWords (first + 1) ps es
  | _, _ => []

/-- The words of a call of function `f`. -/
def FuncInfo.callWords (f : FuncInfo) (args : List Expr) (span : Span) : List (Nat × CallWord) :=
  argWords f.firstWord f.params args ++
    if f.hasStaticLink then (f.parent.map fun owner => (0, CallWord.link owner span)).toList else []

/-- The words of a call of a method with these parameters after the object itself. -/
def methodWords (object : Expr) (params : List TypedVar) (args : List Expr) :
    List (Nat × CallWord) :=
  (0, .object object) :: argWords 1 params args

theorem map_fst_argWords {ps : List TypedVar} {es : List Expr} (h : ps.length = es.length)
    (first : Nat) : (argWords first ps es).map (·.1) = List.range' first es.length := by
  induction ps generalizing es first with
  | nil =>
    cases es with
    | nil => rfl
    | cons => cases h
  | cons p ps ih =>
    cases es with
    | nil => cases h
    | cons e es => exact congrArg (first :: ·) (ih (Nat.succ.inj h) (first + 1))

/-- Argument `i` is word `first + i`. -/
theorem argWords_getElem? {ps : List TypedVar} {es : List Expr} {first i : Nat} {p : TypedVar}
    {e : Expr} (hp : ps[i]? = some p) (he : es[i]? = some e) :
    (argWords first ps es)[i]? = some (first + i, .arg e p.type) := by
  induction ps generalizing es first i with
  | nil => cases hp
  | cons q ps ih =>
    cases es with
    | nil => cases he
    | cons d es =>
      cases i with
      | zero =>
        cases hp
        cases he
        rfl
      | succ i =>
        have := @ih _ (first + 1) _ hp he
        rw [Nat.add_right_comm] at this
        exact this

variable {args : List Expr}

/-- The words of a method call are all different and are all words of the call. -/
theorem map_fst_methodWords {object : Expr} {params : List TypedVar}
    (h : params.length = args.length) :
    ((methodWords object params args).map (·.1)).Perm (List.range (1 + args.length)) := by
  rw [methodWords, List.map_cons, map_fst_argWords h, Nat.add_comm, List.range_eq_range',
    List.range'_succ]

/-! ## Code that keeps to its own room -/

/-- The code gives back all room that it makes for words of calls, and stores through the stack
pointer only to such room. -/
def OwnRoom (env : Env) (code : List Event) : Prop :=
  ∃ L, Along env.unit L [] (Body.draftItems code) []

variable {s s' : Draft.State}

theorem Traced.ownRoom {env : Env} {σ : Draft.Scene} {code : List Event}
    (h : Traced env False {} s code s' σ) (hσ : σ.rooms = []) : OwnRoom env code := by
  obtain ⟨L, -, -, -, halong, -⟩ := h.follows List.nodup_nil nofun (L := List.replicate s.labels {})
    List.length_replicate nofun
  rw [hσ] at halong
  exact ⟨_, halong⟩

namespace Env

variable {env : Env}

/-- Compute a word of a call. -/
def wordValue (env : Env) : CallWord → Draft .virtual Reg
  | .arg e type => do
    let r ← env.expr e
    env.coerce r e.type type
    return r
  | .object e => do
    let o ← env.expr e
    env.noneCheck o
    return o
  | .link owner span => env.frameOf owner span

variable {span : Span}

/-- Where the frame of a function is found, the function is seen. -/
theorem sees_of_frameOf {owner : Nat} {code : List Event} {r : Reg}
    (hy : (env.frameOf owner span).Yields s code s' r) : env.Sees owner := by
  unfold frameOf at hy
  dsimp only at hy
  split at hy
  · rename_i depth hdepth
    split at hy
    · rename_i hle
      exact ⟨depth, hdepth, hle⟩
    · exact absurd hy Draft.not_yields_fail
  · exact absurd hy Draft.not_yields_fail

/-- The code that computes a word keeps to its own room. -/
theorem wordValue_ownRoom {w : CallWord} {code : List Event} {r : Reg}
    (hy : (env.wordValue w).Yields s code s' r) : OwnRoom env code := by
  have hexpr (e : Expr) : Delivers env False {} (env.expr e) :=
    (env.exprs_drawn False.elim).1 e False.elim {}
  cases w with
  | arg e type =>
    have h : Delivers env False {} (env.wordValue (.arg e type)) :=
      .temp (hexpr e) fun t => .seq (coerce_drawn _ _ (by simp)) fun _ => .pure _ ⟨t, rfl, rfl⟩
    obtain ⟨_, ⟨t, -, rfl⟩, ht⟩ := h.traced hy
    exact ht.ownRoom rfl
  | object e =>
    have h : Delivers env False {} (env.wordValue (.object e)) :=
      .temp (hexpr e) fun t => .seq (noneCheck_drawn (by simp)) fun _ => .pure _ ⟨t, rfl, rfl⟩
    obtain ⟨_, ⟨t, -, rfl⟩, ht⟩ := h.traced hy
    exact ht.ownRoom rfl
  | link owner span =>
    obtain ⟨_, ⟨-, rfl⟩, ht⟩ := (frameOf_drawn fun _ => sees_of_frameOf hy).traced hy
    exact ht.ownRoom rfl

/-- Compute a word of a call and store it to its place. -/
inductive Puts (env : Env) : Nat × CallWord → List Event → Prop
  | word {k : Nat} {w : CallWord} {s s' : Draft.State} {code : List Event} {r : Reg}
      (hy : (env.wordValue w).Yields s code s' r) (hroom : OwnRoom env code) (comment : String) :
      Puts env (k, w) (code ++ .item (.instr ⟨.sw r .sp (Object.slotOffset k),
        if env.comments then some comment else none⟩) :: (r.virt?.map Event.release).toList)

/-- The stack pointer is moved by so many words, if there are any. -/
def moveSp (n : Nat) (offset : Int32) (comment : Option String) : List Event :=
  if 0 < n then [.item (.instr ⟨.addi .sp .sp offset, comment⟩)] else []

/-- The code of a call with `n` words, which goes to the function by `jump`. -/
structure CallCode (env : Env) (words : List (Nat × CallWord)) (n : Nat) (jump : CallJump)
    (evs : List Event) : Prop where
  /-- Each word of the call is stored once. -/
  once : (words.map (·.1)).Perm (List.range n)
  /-- Room for the words is made, they are put into their places, the call is made, the room is
  given back and the result is kept. -/
  parts : ∃ comment filled t what span, List.Forall₂ env.Puts words filled ∧
    evs = moveSp n (-Object.slotOffset n) comment ++ filled.flatten ++
      (callTail n jump).map (.item ∘ .instr) ++ moveSp n (Object.slotOffset n) none ++
      [.take t what span, .item (.op (.mv (.virt t) .a0))]

/-! ## Drafts of calls -/

variable {evs : List Event}

theorem yields_forM_emit {γ : Type} {g : γ → Op Label} {f : γ → Draft .virtual PUnit}
    (hf : ∀ c, f c = Draft.emit (g c)) {cs : List γ} {u : PUnit} (h : (cs.forM f).Yields s evs s' u)
    : evs = cs.map (fun c => .item (.op (g c))) ∧ s' = s := by
  induction cs generalizing s evs with
  | nil =>
    obtain ⟨rfl, rfl, -⟩ := Draft.yields_pure_iff.mp h
    exact ⟨rfl, rfl⟩
  | cons c cs ih =>
    have h : (f c >>= fun _ => cs.forM f).Yields s evs s' u := h
    rw [hf] at h
    obtain ⟨e₁, s₁, a, e₂, h₁, h₂, rfl⟩ := Draft.yields_bind_iff.mp h
    obtain ⟨rfl, rfl⟩ := Draft.yields_emit_iff.mp h₁
    obtain ⟨rfl, rfl⟩ := ih h₂
    exact ⟨rfl, rfl⟩

variable {u : Unit}

theorem yields_loadArgRegs {n : Nat} (h : (loadArgRegs n).Yields s evs s' u) :
    evs = (RegSlots.loads .sp (argSlots n)).map (.item ∘ .instr) ∧ s' = s := by
  let g (e : PhysReg × Nat) : Op Label := .lw (.phys e.1) .sp (Object.slotOffset e.2)
  have h : ((PhysReg.args.take n).zipIdx.forM fun e => Draft.emit (g e)).Yields s evs s' u := h
  obtain ⟨rfl, rfl⟩ := yields_forM_emit (fun _ => rfl) h
  refine ⟨?_, rfl⟩
  rw [RegSlots.loads, argSlots, List.map_map, List.map_map]
  rfl

theorem yields_reserveArgs {n : Nat} (h : (env.reserveArgs n).Yields s evs s' u) :
    (∃ comment, evs = moveSp n (-Object.slotOffset n) comment) ∧ s' = s := by
  unfold reserveArgs at h
  unfold moveSp
  split at h
  · rename_i hn
    obtain ⟨rfl, rfl⟩ := yields_note_iff.mp h
    exact ⟨⟨_, (if_pos hn).symm⟩, rfl⟩
  · rename_i hn
    obtain ⟨rfl, rfl, -⟩ := Draft.yields_pure_iff.mp h
    exact ⟨⟨none, (if_neg hn).symm⟩, rfl⟩

theorem yields_finishCall {n : Nat} {what : String} {r : Reg}
    (h : (finishCall n what span).Yields s evs s' r) : evs = moveSp n (Object.slotOffset n) none ++
      [.take s.temps what span, .item (.op (.mv (.virt s.temps) .a0))] := by
  have hkeep {s : Draft.State} {evs : List Event} (h : (do
      let dst ← Draft.take what span
      Draft.emit (.mv dst .a0)
      return dst : Draft .virtual Reg).Yields s evs s' r) :
      evs = [.take s.temps what span, .item (.op (.mv (.virt s.temps) .a0))] := by
    obtain ⟨e₁, s₁, dst, _, h₁, hrest, rfl⟩ := Draft.yields_bind_iff.mp h
    obtain ⟨e₂, s₂, _, e₃, h₂, h₃, rfl⟩ := Draft.yields_bind_iff.mp hrest
    obtain ⟨rfl, rfl, rfl⟩ := Draft.yields_take_iff.mp h₁
    obtain ⟨rfl, rfl⟩ := Draft.yields_emit_iff.mp h₂
    obtain ⟨rfl, -, -⟩ := Draft.yields_pure_iff.mp h₃
    rfl
  unfold finishCall at h
  unfold moveSp
  split at h
  · rename_i hn
    obtain ⟨e₁, s₁, _, e₂, h₁, h₂, rfl⟩ := Draft.yields_bind_iff.mp h
    obtain ⟨rfl, rfl⟩ := Draft.yields_emit_iff.mp h₁
    rw [hkeep h₂, if_pos hn]
  · rename_i hn
    rw [hkeep h, if_neg hn, List.nil_append]

theorem yields_dispatch {slot : Nat} {name : String}
    (h : (env.dispatch slot name).Yields s evs s' u) : evs = (CallJump.dispatch slot
      (if env.comments then some ("method " ++ name) else none)).code.map (.item ∘ .instr) ∧
      s' = s := by
  obtain ⟨e₁, s₁, _, _, h₁, hrest, rfl⟩ := Draft.yields_bind_iff.mp h
  obtain ⟨e₂, s₂, _, e₃, h₂, h₃, rfl⟩ := Draft.yields_bind_iff.mp hrest
  obtain ⟨rfl, rfl⟩ := Draft.yields_emit_iff.mp h₁
  obtain ⟨rfl, rfl⟩ := yields_note_iff.mp h₂
  obtain ⟨rfl, rfl⟩ := Draft.yields_emit_iff.mp h₃
  exact ⟨rfl, rfl⟩

/-- Arguments are put into the words from word `k` on. -/
theorem args_puts {k : Nat} {ps : List TypedVar} {es : List Expr}
    (h : (env.args k ps es).Yields s evs s' u) :
    ∃ filled, List.Forall₂ env.Puts (argWords k ps es) filled ∧ evs = filled.flatten := by
  induction ps generalizing es k s evs with
  | nil =>
    rw [Env.args] at h
    · obtain ⟨rfl, -, -⟩ := Draft.yields_pure_iff.mp h
      exact ⟨[], .nil, rfl⟩
    · intro p ps e es hps
      cases hps
  | cons p ps ih =>
    cases es with
    | nil =>
      rw [Env.args] at h
      · obtain ⟨rfl, -, -⟩ := Draft.yields_pure_iff.mp h
        exact ⟨[], .nil, rfl⟩
      · intro p ps e es _ hes
        cases hes
    | cons e es =>
      rw [Env.args] at h
      obtain ⟨e₁, s₁, r, _, h₁, hcoerce, rfl⟩ := Draft.yields_bind_iff.mp h
      obtain ⟨e₂, s₂, _, _, h₂, hstore, rfl⟩ := Draft.yields_bind_iff.mp hcoerce
      obtain ⟨e₃, s₃, _, _, h₃, hrelease, rfl⟩ := Draft.yields_bind_iff.mp hstore
      obtain ⟨e₄, s₄, _, e₅, h₄, h₅, rfl⟩ := Draft.yields_bind_iff.mp hrelease
      obtain ⟨rfl, rfl⟩ := yields_note_iff.mp h₃
      obtain ⟨rfl, rfl⟩ := Draft.yields_release_iff.mp h₄
      obtain ⟨filled, hfilled, rfl⟩ := ih h₅
      have hy : (env.wordValue (.arg e p.type)).Yields s (e₁ ++ e₂) s₄ r := by
        refine Draft.yields_bind_iff.mpr ⟨e₁, s₁, r, e₂, h₁, ?_, rfl⟩
        exact Draft.yields_bind_iff.mpr ⟨e₂, s₄, (), [], h₂,
          Draft.yields_pure_iff.mpr ⟨rfl, rfl, rfl⟩, (List.append_nil _).symm⟩
      refine ⟨_ :: filled, .cons (.word hy (wordValue_ownRoom hy) ("arg " ++ p.name)) hfilled, ?_⟩
      rw [List.flatten_cons]
      simp only [List.append_assoc, List.cons_append, List.nil_append]

/-- The static link is put into the first word. -/
theorem passLink_puts {f : FuncInfo} (h : (env.passLink f span).Yields s evs s' u) :
    (f.hasStaticLink = true → ∃ owner, f.parent = some owner) ∧
      ∃ filled, List.Forall₂ env.Puts (if f.hasStaticLink then
        (f.parent.map fun owner => (0, CallWord.link owner span)).toList else []) filled ∧
        evs = filled.flatten := by
  unfold passLink at h
  split at h
  · rename_i hlink
    split at h
    · rename_i owner hparent
      obtain ⟨e₁, s₁, base, e₂, h₁, h₂, rfl⟩ := Draft.yields_bind_iff.mp h
      obtain ⟨rfl, rfl⟩ := yields_note_iff.mp h₂
      have hy : (env.wordValue (.link owner span)).Yields s e₁ s' base := h₁
      -- The register is no temporary, so there is nothing to release.
      obtain ⟨-, ⟨hbase, -⟩, -⟩ := (frameOf_drawn (E := False) (σ := {})
        fun _ => sees_of_frameOf h₁).traced h₁
      have hrelease : (base.virt?.map Event.release).toList = [] := by
        rcases hbase with rfl | rfl <;> rfl
      refine ⟨fun _ => ⟨owner, hparent⟩, [_], ?_, (List.flatten_singleton).symm⟩
      rw [if_pos hlink, hparent]
      have := Puts.word (k := 0) hy (wordValue_ownRoom hy)
        ("static link for " ++ f.name)
      rw [hrelease] at this
      exact .cons this .nil
    · exact absurd h Draft.not_yields_fail
  · rename_i hlink
    obtain ⟨rfl, -, -⟩ := Draft.yields_pure_iff.mp h
    rw [if_neg hlink]
    exact ⟨fun hl => absurd hl hlink, [], .nil, rfl⟩

/-- The words of a call of a function are all different and are all words of the call. -/
theorem map_fst_callWords {f : FuncInfo} (hlen : f.params.length = args.length)
    (hparent : f.hasStaticLink = true → ∃ owner, f.parent = some owner) :
    ((f.callWords args span).map (·.1)).Perm (List.range f.argCount) := by
  rw [FuncInfo.callWords, List.map_append, map_fst_argWords hlen, FuncInfo.argCount, hlen,
    FuncInfo.firstWord]
  by_cases hlink : f.hasStaticLink = true
  · -- The link comes last and has the lowest number.
    obtain ⟨owner, hparent⟩ := hparent hlink
    rw [if_pos hlink, if_pos hlink, hparent, List.range_eq_range', List.range'_succ]
    exact List.perm_append_singleton 0 _
  · rw [if_neg hlink, if_neg hlink, List.range_eq_range']
    exact .of_eq (List.append_nil _)

/-- **Calls of functions.** The arguments are put into their words, then the static link. -/
theorem call_code {i : ExprInfo} {name : String} {id : Nat} {r : Reg}
    (hres : env.resolve name i.span = .ok (.func id))
    (hy : (env.expr (.call i name args)).Yields s evs s' r) :
    args.length = (env.table.func id).params.length ∧
      env.CallCode ((env.table.func id).callWords args i.span) (env.table.func id).argCount
        (.direct (env.table.func id).label) evs := by
  rw [Env.expr, hres] at hy
  obtain ⟨e₀, s₀, sym, _, h₀, hrest₀, rfl⟩ := Draft.yields_bind_iff.mp hy
  obtain ⟨hsym, rfl, rfl⟩ := Draft.yields_ofExcept_iff.mp h₀
  cases hsym
  obtain ⟨e₁, s₁, _, _, h₁, hrest₁, rfl⟩ := Draft.yields_bind_iff.mp hrest₀
  obtain ⟨e₂, s₂, _, _, h₂, hrest₂, rfl⟩ := Draft.yields_bind_iff.mp hrest₁
  obtain ⟨e₃, s₃, _, _, h₃, hrest₃, rfl⟩ := Draft.yields_bind_iff.mp hrest₂
  obtain ⟨e₄, s₄, _, _, h₄, hrest₄, rfl⟩ := Draft.yields_bind_iff.mp hrest₃
  obtain ⟨e₅, s₅, _, _, h₅, hrest₅, rfl⟩ := Draft.yields_bind_iff.mp hrest₄
  obtain ⟨e₆, s₆, _, e₇, h₆, h₇, rfl⟩ := Draft.yields_bind_iff.mp hrest₅
  obtain ⟨⟨comment, rfl⟩, rfl⟩ := yields_reserveArgs h₁
  obtain ⟨hcount, rfl, rfl⟩ := Draft.yields_ofExcept_iff.mp h₂
  obtain ⟨filled, hfilled, rfl⟩ := args_puts h₃
  obtain ⟨hparent, link, hlink, rfl⟩ := passLink_puts h₄
  obtain ⟨rfl, rfl⟩ := yields_loadArgRegs h₅
  obtain ⟨rfl, rfl⟩ := Draft.yields_emit_iff.mp h₆
  have hlen := checkArgCount_eq_ok hcount
  refine ⟨hlen.symm, map_fst_callWords hlen hparent, comment, filled ++ link, s₆.temps,
    "CallExpr", i.span, List.rel_append hfilled hlink, ?_⟩
  rw [yields_finishCall h₇, List.flatten_append, callTail, List.map_append]
  simp only [List.append_assoc, List.nil_append]
  rfl

/-- **Calls of methods.** The object is put into the first word, the arguments into those after
it. -/
theorem methodCall_code {i : ExprInfo} {object : Expr} {method : String} {slot : Nat}
    {params : List TypedVar} {r : Reg}
    (hres : env.methodOf object method i.span = .ok (slot, params))
    (hy : (env.expr (.methodCall i object method args)).Yields s evs s' r) :
    args.length = params.length ∧
      env.CallCode (methodWords object params args) (1 + args.length)
        (.dispatch slot (if env.comments then some ("method " ++ method) else none)) evs := by
  rw [Env.expr, hres] at hy
  obtain ⟨e₀, s₀, found, _, h₀, hrest₀, rfl⟩ := Draft.yields_bind_iff.mp hy
  obtain ⟨hfound, rfl, rfl⟩ := Draft.yields_ofExcept_iff.mp h₀
  cases hfound
  obtain ⟨e₁, s₁, _, _, h₁, hrest₁, rfl⟩ := Draft.yields_bind_iff.mp hrest₀
  obtain ⟨e₂, s₂, o, _, h₂, hrest₂, rfl⟩ := Draft.yields_bind_iff.mp hrest₁
  obtain ⟨e₃, s₃, _, _, h₃, hrest₃, rfl⟩ := Draft.yields_bind_iff.mp hrest₂
  obtain ⟨e₄, s₄, _, _, h₄, hrest₄, rfl⟩ := Draft.yields_bind_iff.mp hrest₃
  obtain ⟨e₅, s₅, _, _, h₅, hrest₅, rfl⟩ := Draft.yields_bind_iff.mp hrest₄
  obtain ⟨e₆, s₆, _, _, h₆, hrest₆, rfl⟩ := Draft.yields_bind_iff.mp hrest₅
  obtain ⟨e₇, s₇, _, _, h₇, hrest₇, rfl⟩ := Draft.yields_bind_iff.mp hrest₆
  obtain ⟨e₈, s₈, _, _, h₈, hrest₈, rfl⟩ := Draft.yields_bind_iff.mp hrest₇
  obtain ⟨e₉, s₉, _, e₁₀, h₉, h₁₀, rfl⟩ := Draft.yields_bind_iff.mp hrest₈
  obtain ⟨⟨comment, rfl⟩, rfl⟩ := yields_reserveArgs h₁
  obtain ⟨rfl, rfl⟩ := yields_note_iff.mp h₄
  obtain ⟨rfl, rfl⟩ := Draft.yields_release_iff.mp h₅
  obtain ⟨hcount, rfl, rfl⟩ := Draft.yields_ofExcept_iff.mp h₆
  obtain ⟨filled, hfilled, rfl⟩ := args_puts h₇
  obtain ⟨rfl, rfl⟩ := yields_loadArgRegs h₈
  obtain ⟨rfl, rfl⟩ := yields_dispatch h₉
  have hlen := checkArgCount_eq_ok hcount
  have hobject : (env.wordValue (.object object)).Yields s₁ (e₂ ++ e₃) s₆ o := by
    refine Draft.yields_bind_iff.mpr ⟨e₂, s₂, o, e₃, h₂, ?_, rfl⟩
    exact Draft.yields_bind_iff.mpr ⟨e₃, s₆, (), [], h₃, Draft.yields_pure_iff.mpr ⟨rfl, rfl, rfl⟩,
      (List.append_nil _).symm⟩
  have hself := Puts.word (k := 0) hobject (wordValue_ownRoom hobject) "self"
  refine ⟨hlen.symm, map_fst_methodWords hlen, comment, _ :: filled, s₉.temps, "MethodCallExpr",
    i.span, .cons hself hfilled, ?_⟩
  rw [yields_finishCall h₁₀, List.flatten_cons, callTail, List.map_append]
  simp only [List.append_assoc, List.cons_append, List.nil_append]
  rfl

end Env

end ChocoRV
