import Mathlib
import ChocoRV.Proofs.Call.Observed
import ChocoRV.Proofs.Call.Words

/-!
# Caller and callee agree on the words of a call

A caller stores the words of a call at its stack pointer and above; a function looks for them at its
frame pointer and above, at the offsets that its parameters have in the symbol table. `CallsPass`
says which word of a call gets which argument, `Receiving` that a function finds each word where it
was stored, and `arguments_agree` that both hold in every compiled program.
-/

namespace ChocoRV

open Assembly Image

/-- The caller's side. Each word of a call is stored once, at the stack pointer with which the call
is made. -/
structure CallsPass (env : Env) : Prop where
  /-- Calls of a function: argument `k` goes to the word of parameter `k`, the static link of a
  nested function to word 0. -/
  function {i : ExprInfo} {name : String} {args : List Expr} {id : Nat} {s s' : Draft.State}
    {evs : List Event} {r : Reg} (hres : env.resolve name i.span = .ok (.func id))
    (hy : (env.expr (.call i name args)).Yields s evs s' r) :
    let f := env.table.func id
    args.length = f.params.length ∧
      ∃ words, env.CallCode words f.argCount (.direct f.label) evs ∧
        (∀ k p e, f.params[k]? = some p → args[k]? = some e →
          (f.firstWord + k, .arg e p.type) ∈ words) ∧
        (f.hasStaticLink = true → ∃ owner, f.parent = some owner ∧ (0, .link owner i.span) ∈ words)
  /-- Calls of a method: the object goes to word 0 and argument `k` to the word of parameter
  `k + 1`, since the object is the first parameter. -/
  method {i : ExprInfo} {object : Expr} {method : String} {args : List Expr} {c : ClassInfo}
    {slot : Nat} {m : Method} {id : Nat} {s s' : Draft.State} {evs : List Event} {r : Reg}
    (hc : env.table.classOf object.type = .ok c) (hm : c.method? method = some (slot, m))
    (hf : m.func = some id) (hy : (env.expr (.methodCall i object method args)).Yields s evs s' r) :
    let f := env.table.func id
    args.length = (f.params.drop 1).length ∧
      ∃ words comment, env.CallCode words (1 + args.length) (.dispatch slot comment) evs ∧
        (0, .object object) ∈ words ∧
        ∀ k p e, f.params[k + 1]? = some p → args[k]? = some e → (k + 1, .arg e p.type) ∈ words

/-- The callee's side: the code `f` of function `id`. -/
structure Receiving (a : Assembly) (table : SymbolTable) (id : Nat) (f : FuncCode) : Prop where
  /-- The function takes as many words as its callers pass. -/
  args : f.frame.args = (table.func id).argCount
  /-- The parameters have the offsets of their words. -/
  params : ParamsAt id (table.func id).firstWord (table.func id).params
    fun name => table.entry? (table.func id).scope name
  /-- The end of a call and the prologue run to the first instruction of the body. There the frame
  pointer is the stack pointer of the caller, all words are as the caller has passed them, and so
  each parameter is the word at its offset from the frame pointer. -/
  arrives {img : Image} {s₀ : State} (hload : load a = .ok (img, s₀)) (himg : img.Unwrapped) :
    ∃ entry, find img.labels (table.func id).label.name = .ok entry ∧ img.Finds entry f.code ∧
      ∀ {jump : CallJump} {w : Nat → Int32} {s : State},
        img.Finds s.pc (callTail f.frame.args jump) → jump.LeadsTo img s.memory (w 0) entry →
        (jump.OnObject → 0 < f.frame.args) → Passes f.frame w s →
        ∃ s', Steps img ((callTail f.frame.args jump).length + f.enter.length) s s' ∧
          f.Receives entry w s s' ∧
          ∀ i p, (table.func id).params[i]? = some p →
            s'.memory.readWord (s'.addrOf .fp (Frame.paramOffset ((table.func id).firstWord + i))) =
              w ((table.func id).firstWord + i) ∧
            ∀ v, table.entry? (table.func id).scope p.name = some (.stack v) → v.kind = .param →
              (∀ j q, i < j → (table.func id).params[j]? = some q → q.name ≠ p.name) →
              s'.memory.readWord (s'.addrOf .fp v.offset) = w ((table.func id).firstWord + i)

theorem Env.callsPass (env : Env) : CallsPass env where
  function {i name args id s s' evs r} hres hy := by
    obtain ⟨hlen, hcode⟩ := Env.call_code hres hy
    refine ⟨hlen, _, hcode, fun k p e hp he => ?_, fun hlink => ?_⟩
    · exact List.mem_append_left _ (List.mem_of_getElem? (argWords_getElem? hp he))
    · -- Word 0 is stored, and no argument goes there.
      have hzero : 0 ∈ ((env.table.func id).callWords args i.span).map (·.1) := by
        refine hcode.once.mem_iff.mpr (List.mem_range.mpr ?_)
        rw [FuncInfo.argCount, if_pos hlink]
        omega
      rw [FuncInfo.callWords, List.map_append, map_fst_argWords hlen.symm, FuncInfo.firstWord,
        if_pos hlink, if_pos hlink] at hzero
      rcases List.mem_append.mp hzero with hzero | hzero
      · exact absurd (List.mem_range'.mp hzero) (by omega)
      · obtain ⟨w, hw, -⟩ := List.mem_map.mp hzero
        obtain ⟨owner, howner, rfl⟩ := Option.map_eq_some_iff.mp (Option.mem_toList.mp hw)
        refine ⟨owner, howner, List.mem_append_right _ ?_⟩
        rw [if_pos hlink]
        exact hw
  method {i object method args c slot m id s s' evs r} hc hm hf hy := by
    have hres : env.methodOf object method i.span =
        .ok (slot, (env.table.func id).params.drop 1) := by
      rw [Env.methodOf, hc]
      simp only [bind, Except.bind, hm, hf]
      rfl
    obtain ⟨hlen, hcode⟩ := Env.methodCall_code hres hy
    refine ⟨hlen, _, _, hcode, List.mem_cons_self, fun k p e hp he => List.mem_cons_of_mem _ ?_⟩
    have hp : ((env.table.func id).params.drop 1)[k]? = some p := by
      rw [List.getElem?_drop, Nat.add_comm, hp]
    rw [Nat.add_comm]
    exact List.mem_of_getElem? (argWords_getElem? hp he)

theorem CompiledAs.receiving {p : Program} {settings : CodegenSettings} {a : Assembly}
    {table : SymbolTable} {bodies : List Body} {payload : Int32}
    (h : CompiledAs p settings a table bodies payload) (hnames : a.defs.Nodup) {id : Nat}
    {d : Draft.Result Unit} {b : Body}
    (hb : ((some id, d), b) ∈ (Function.programDrafts p settings.comments table).zip bodies) :
    Receiving a table id (.ofUnit table (some id) b) := by
  have hid : id < table.funcs.size ∧ (table.func id).builtin = false := by
    have hmem := (h.body_eq_ok hb).1
    have hmem : id ∈ table.compiled := by
      simpa [Function.units] using hmem
    obtain ⟨hlt, hb⟩ := List.mem_filter.mp hmem
    exact ⟨List.mem_range.mp hlt, by simpa using hb⟩
  have hplaced := (SymbolTable.Built.ofProgram h.symbols).paramsPlaced id hid.1 hid.2
  refine ⟨rfl, hplaced, fun {img s₀} hload himg => ?_⟩
  obtain ⟨entry, hcode, hlabel⟩ := h.stands ⟨_, _, _, hb, rfl⟩ hload himg
  refine ⟨entry, hlabel hnames, hcode, fun {jump w s} htail hleads hobject hpass => ?_⟩
  obtain ⟨s', hsteps, hgot⟩ := FuncCode.called (h.saves ⟨id, d, b, hb, rfl⟩) hcode htail
    hpass hleads
    hobject
  refine ⟨s', hsteps, hgot, fun i q hq => ?_⟩
  have hword : s'.memory.readWord
      (s'.addrOf .fp (Frame.paramOffset ((table.func id).firstWord + i))) =
      w ((table.func id).firstWord + i) := by
    refine hgot.words _ ?_
    have hlt := (List.getElem?_eq_some_iff.mp hq).1
    show _ < FuncInfo.argCount _
    rw [FuncInfo.argCount, FuncInfo.firstWord]
    omega
  refine ⟨hword, fun v he hk hlast => ?_⟩
  rw [hplaced.offset_eq hq hlast he hk]
  exact hword

/-- **Caller and callee agree on where arguments are**, in every program that compiles to different
names. -/
theorem arguments_agree {p : Program} {settings : CodegenSettings} {a : Assembly}
    (h : compile p settings = .ok a) (hnames : a.defs.Nodup) :
    ∃ table bodies payload, CompiledAs p settings a table bodies payload ∧
      (∀ u ∈ Function.units table, CallsPass (Function.envOf table settings.comments u)) ∧
      ∀ id d b, ((some id, d), b) ∈ (Function.programDrafts p settings.comments table).zip bodies →
        Receiving a table id (.ofUnit table (some id) b) := by
  obtain ⟨table, bodies, payload, hc⟩ := compile_eq_ok h
  exact ⟨table, bodies, payload, hc, fun u _ => Env.callsPass _,
    fun id d b hb => hc.receiving hnames hb⟩

/-- The function `g` is nested in `f` and has five parameters: with the static link it is passed six
words, two more than there are argument registers. -/
def nestedCall : Program :=
  let int (n : Int32) : Expr := .int ⟨{}, .int⟩ n
  { decls := [.func {} "f" [] .int
      [.func {} "g" [⟨"a", .int⟩, ⟨"b", .int⟩, ⟨"c", .int⟩, ⟨"d", .int⟩, ⟨"e", .int⟩] .int []
        [.ret {} (some (.name ⟨{}, .int⟩ "e"))]]
      [.ret {} (some (.call ⟨{}, .int⟩ "g" [int 1, int 2, int 3, int 4, int 5]))]]
    body := [.expr {} (.call ⟨{}, .int⟩ "f" [])] }

/-- The run of the program comes to the end of the call of `g`, and from there to the body of `g`,
which finds the last argument at the offset of its last parameter. -/
theorem nestedCall_arguments_agree :
    ∃ a table bodies payload img s₀ b entry s s' v,
      compile nestedCall ⟨.physical, false, 11⟩ = .ok a ∧ a.defs.Nodup ∧
      CompiledAs nestedCall ⟨.physical, false, 11⟩ a table bodies payload ∧
      Receiving a table 3 (.ofUnit table (some 3) b) ∧ load a = .ok (img, s₀) ∧ img.Unwrapped ∧
      img.Finds s.pc (callTail 6 (.direct (table.func 3).label)) ∧
      s.memory.readWord (s.addrOf .sp (Object.slotOffset 5)) = 5 ∧
      Steps img (5 + (FuncCode.ofUnit table (some 3) b).enter.length) s s' ∧
      s'.pc = past entry (FuncCode.ofUnit table (some 3) b).enter.length ∧
      s'.reg .fp = s.reg .sp ∧ (table.func 3).params[4]? = some ⟨"e", .int⟩ ∧
      table.entry? (table.func 3).scope "e" = some (.stack v) ∧
      s'.memory.readWord (s'.addrOf .fp v.offset) = 5 := by
  have hcheck : (ObservedUnit.ofProgram nestedCall ⟨.physical, false, 11⟩ 2).any (fun c =>
      (c.image.after 22 c.start).any fun s => decide (c.Proper ∧ c.unit.1.1 = some 3 ∧
        c.func.frame.args = 6 ∧ c.image.Finds s.pc (callTail 6 (.direct (c.table.func 3).label)) ∧
        (State.nullPage.toNat + 4 * c.func.frame.words ≤ (s.reg .sp).toUInt32.toNat ∧
          (s.reg .sp).toUInt32.toNat + 4 * 6 ≤ UInt32.size) ∧
        s.memory.readWord (s.addrOf .sp (Object.slotOffset 5)) = 5 ∧
        (c.table.func 3).params[4]? = some ⟨"e", .int⟩ ∧ (c.table.func 3).params.length = 5 ∧
        (c.table.func 3).firstWord = 1 ∧
        c.table.entry? (c.table.func 3).scope "e" = some (.stack ⟨"e", .int, 3, .param, 20⟩))) =
      true := by
    decide +kernel
  obtain ⟨c, hrun, hcheck⟩ := (Option.any_eq_true _ _).mp hcheck
  obtain ⟨s, -, hs⟩ := (Option.any_eq_true _ _).mp hcheck
  obtain ⟨hproper, hid, hargs, htail, ⟨hroom, htop⟩, hfive, hparam, hlen, hfirst, hentry⟩ :=
    of_decide_eq_true hs
  have hunit := ObservedUnit.isUnit_of_ofProgram hrun
  obtain ⟨table, bodies, payload, hc, -, hreceive⟩ := arguments_agree hunit.compiles hproper.2.1
  obtain ⟨_, hunits⟩ := hunit.units
  obtain ⟨rfl, rfl⟩ := hc.unique hunits
  have hmem := hunit.unit
  have hfunc : c.func = .ofUnit c.table (some 3) c.unit.2 := by rw [← hid]; rfl
  have hreceive := hreceive 3 c.unit.1.2 c.unit.2 (by rw [← hid]; exact hmem)
  rw [hfunc] at hargs hroom
  obtain ⟨entry, hlabel, -, harrives⟩ := hreceive.arrives hunit.loads hproper.2.2
  rw [hargs] at harrives
  have hpass : Passes (FuncCode.ofUnit c.table (some 3) c.unit.2).frame
      (fun k => s.memory.readWord (s.addrOf .sp (Object.slotOffset k))) s :=
    ⟨fun k _ => rfl, hroom, by rw [hargs]; exact htop⟩
  obtain ⟨s', hsteps, hgot, hwords⟩ := harrives htail hlabel (fun h => h.elim) hpass
  have hlast : ∀ j q, 4 < j → (c.table.func 3).params[j]? = some q → q.name ≠ "e" := by
    intro j q hj hq
    have := (List.getElem?_eq_some_iff.mp hq).1
    omega
  have he := (hwords 4 _ hparam).2 _ hentry rfl hlast
  rw [hfirst] at he
  exact ⟨c.assembly, c.table, c.bodies, payload, c.image, c.loaded, c.unit.2, entry, s, s', _,
    hunit.compiles, hproper.2.1, hc, hreceive, hunit.loads, hproper.2.2, htail, hfive, hsteps,
    hgot.pc, hgot.fp, hparam, hentry, he.trans hfive⟩

end ChocoRV
