import Mathlib
import ChocoRV.Draft.Function
import ChocoRV.Proofs.Draft.Replay
import ChocoRV.Proofs.Except

/-!
# Two runs in lockstep

The same code is drafted in both register modes: once over temporaries, and once with the registers
of the pool taken where they are needed. This module compares two such runs. They make the same
labels and constants at the same points and record the same items, except that an operand that is
temporary `n` in one run is, in the other, the register that was handed out for it.

## Main definitions

* `Supply.Grants`: which register a temporary has been given.
* `Draft.Follows`: what two runs have come to. The run over temporaries records its takes and
  releases, and going through these with the pool (`Supply.run`) tells what the direct run has done:
  it failed where no register was left, or where the other run failed, or it got as far with the
  same items, labels and constants.
* `Draft.Lockstep`: two drafts do the same from any two states that agree.
* `Draft.Given.Stands`, `Op.Stands`: an operand, or an operation, is the other one with registers in
  place of temporaries. Both are classes, with an instance for each form of operation, so that the
  rules below need no proof of them at each step.

## Main statements

* `Draft.Lockstep.bind` puts two parts together. The other rules are one for each step of drafting:
  an item, a label, a constant, a register taken or given back.
-/

namespace ChocoRV

variable {regs : List PhysReg}

/-! ## The register of a temporary -/

namespace Supply

variable {sup sup' : Supply} {n n' : Nat} {r r' : Reg}

/-- While `n` temporaries have been taken, the operand `r` stands for `r'`: it is a temporary that
has been given this register, or both are the same register. -/
def Grants (sup : Supply) (regs : List PhysReg) (n : Nat) (r r' : Reg) : Prop :=
  sup.reg regs r = r' ∧ ∀ t, r = .virt t → t < n

/-- The first `n` temporaries have the same slots in both. -/
def Keeps (n : Nat) (sup sup' : Supply) : Prop :=
  ∀ t < n, sup'.slots.lookup t = sup.slots.lookup t

theorem Keeps.trans {sup'' : Supply} (h : Keeps n sup sup') (h' : Keeps n' sup' sup'')
    (hle : n ≤ n') : Keeps n sup sup'' :=
  fun t ht => (h' t (by omega)).trans (h t ht)

theorem Grants.mono (h : sup.Grants regs n r r') (hkeeps : Keeps n sup sup') (hle : n ≤ n') :
    sup'.Grants regs n' r r' := by
  obtain ⟨hreg, hlt⟩ := h
  refine ⟨?_, fun t ht => Nat.lt_of_lt_of_le (hlt t ht) hle⟩
  cases r with
  | phys p => exact hreg
  | virt t => rw [← hreg, reg, reg, hkeeps t (hlt t rfl)]

/-- A temporary that has been given a register has a slot. -/
theorem Grants.slot {t : Nat} {p : PhysReg} (h : sup.Grants regs n (.virt t) (.phys p)) :
    ∃ k, sup.slots.lookup t = some k ∧ regs[k]? = some p := by
  have hreg := h.1
  rw [reg] at hreg
  split at hreg
  · next hslot =>
    cases hreg
    exact Option.bind_eq_some_iff.mp hslot
  · cases hreg

theorem keeps_take (sup : Supply) (n k : Nat) : Keeps n sup (sup.take n k) := by
  intro t ht
  rw [lookup_take, if_neg (by omega)]

/-- A new temporary is given the register of its slot. -/
theorem grants_take {k : Nat} {p : PhysReg} (sup : Supply) (n : Nat) (hp : regs[k]? = some p) :
    (sup.take n k).Grants regs (n + 1) (.virt n) (.phys p) := by
  refine ⟨?_, fun t ht => ?_⟩
  · rw [reg, lookup_take, if_pos rfl, Option.bind_some, hp]
  · cases ht
    exact Nat.lt_succ_self n

/-- The slot that is free next has a register. -/
theorem next?_eq (sup : Supply) (regs : List PhysReg) :
    (sup.free? regs.length = none ∧ sup.next? regs = none) ∨
      ∃ k p, sup.free? regs.length = some k ∧ regs[k]? = some p ∧ sup.next? regs = some (k, p) := by
  cases hk : sup.free? regs.length with
  | none => exact .inl ⟨rfl, by rw [next?, hk, Option.bind_none]⟩
  | some k =>
    have hlt : k < regs.length := List.mem_range.mp (List.mem_of_find?_eq_some hk)
    refine .inr ⟨k, regs[k], rfl, List.getElem?_eq_getElem hlt, ?_⟩
    rw [next?, hk, Option.bind_some, List.getElem?_eq_getElem hlt, Option.map_some]

/-- The pass goes on with the supply that it has come to. -/
theorem run_append (xs ys : List Event) (sup : Supply) :
    run regs sup (xs ++ ys) = run regs sup xs >>= fun front =>
      (run regs front.2 ys).map fun back => (front.1 ++ back.1, back.2) := by
  induction xs generalizing sup with
  | nil =>
    show run regs sup ys = (run regs sup ys).map fun back => ([] ++ back.1, back.2)
    cases run regs sup ys <;> rfl
  | cons e xs ih =>
    cases e with
    | item i =>
      rw [List.cons_append, run, run, ih]
      cases run regs sup xs with
      | error e => rfl
      | ok front =>
        show ((run regs front.2 ys).map _ >>= _) = (run regs front.2 ys).map _
        cases run regs front.2 ys <;> rfl
    | take t what span =>
      rw [List.cons_append, run, run]
      cases sup.free? regs.length with
      | none => rfl
      | some k => exact ih _
    | release t => exact ih _

theorem run_append_of_ok {xs ys : List Event} {items : List Item}
    (h : run regs sup xs = .ok (items, sup')) : run regs sup (xs ++ ys) =
      (run regs sup' ys).map fun back => (items ++ back.1, back.2) := by
  rw [run_append, h]
  rfl

end Supply

namespace Draft

/-! ## Two runs -/

/-- The state of the direct run that agrees with one of the run over temporaries. -/
def StateOf.direct (s : State) (regs : List PhysReg) (sup : Supply) : StateOf .physical :=
  { labels := s.labels, temps := s.temps, pool := s.pool, regs, supply := sup }

section Direct

variable {s : StateOf .physical} {what : String} {span : Span} {k : Nat} {p : PhysReg}

/-- The direct run is given the register that is free next. -/
theorem take_eq_of_next (h : s.supply.next? s.regs = some (k, p)) : take what span s =
    ⟨[], { s with temps := s.temps + 1, supply := s.supply.take s.temps k }, .ok (.phys p)⟩ := by
  simp only [take, h]

theorem take_eq_of_exhausted (h : s.supply.next? s.regs = none) :
    take what span s = ⟨[], s, .error (.poolExhausted what span)⟩ := by
  simp only [take, h]

/-- The slot of a register that is given back is free again. -/
theorem release_eq_of_idx (h : s.regs.idxOf? p = some k) :
    release (.phys p) s = ⟨[], { s with supply := s.supply.free k }, .ok ()⟩ := by
  simp only [release, h]

end Direct

variable {α α' β β' : Type}

/-- What the direct run has come to, which began with `sup` after `n` takes, if the run over
temporaries has come to `r`. Where both have a value, the values are related. -/
inductive Follows (regs : List PhysReg) (sup : Supply) (n : Nat)
    (R : Nat → Supply → α → α' → Prop) (r : Result α) (r' : ResultOf .physical α') : Prop
  /-- No register was left at some take. -/
  | exhausted {e : CompileError} (hrun : Supply.run regs sup r.events = .error e)
      (hdirect : r'.value = .error e)
  /-- Both runs failed, at the same point. -/
  | failed {e : CompileError} {items : List Item} {sup' : Supply}
      (hrun : Supply.run regs sup r.events = .ok (items, sup')) (hvalue : r.value = .error e)
      (hdirect : r'.value = .error e)
  | done {sup' : Supply} {a : α} {a' : α'}
      (hrun : Supply.run regs sup r.events = .ok (Body.draftItems r'.events, sup'))
      (hstate : r'.state = r.state.direct regs sup') (hvalue : r.value = .ok a)
      (hdirect : r'.value = .ok a') (hle : n ≤ r.state.temps) (hkeeps : sup.Keeps n sup')
      (hrel : R r.state.temps sup' a a')

/-- The operands that code knows of, each with the register that it stands for. -/
abbrev Given := List (Reg × Reg)

/-- All given operands stand for their registers. -/
def Given.Valid (regs : List PhysReg) (n : Nat) (sup : Supply) (Γ : Given) : Prop :=
  ∀ r r', (r, r') ∈ Γ → sup.Grants regs n r r'

/-- From states that agree, two drafts do the same. -/
def Lockstep (regs : List PhysReg) (Γ : Given) (x : Draft .virtual α) (y : Draft .physical α')
    (R : Nat → Supply → α → α' → Prop) : Prop :=
  ∀ s sup, Γ.Valid regs s.temps sup → Follows regs sup s.temps R (x s) (y (s.direct regs sup))

/-- Both give the same value. -/
abbrev Same : Nat → Supply → α → α → Prop := fun _ _ a b => a = b

/-- One gives a temporary, the other one its register. -/
abbrev Granted (regs : List PhysReg) : Nat → Supply → Reg → Reg → Prop :=
  fun n sup r r' => ∃ t p, r = .virt t ∧ r' = .phys p ∧ sup.Grants regs n r r'

/-- Both give the same register, which is no temporary. -/
abbrev Named : Nat → Supply → Reg → Reg → Prop :=
  fun _ _ r r' => ∃ q, r = .phys q ∧ r' = .phys q

end Draft

/-! ## Operands -/

/-- The map leaves the registers as they are and has the given ones for the operands of `Γ`. -/
structure Draft.Given.Sends (Γ : Draft.Given) (f : Reg → Reg) : Prop where
  phys : ∀ q, f (.phys q) = .phys q
  given : ∀ r r', (r, r') ∈ Γ → f r = r'

/-- The operand `r` is given the register `r'`, or both are the same register. This is a class, as
the form of the list tells which operands are given. -/
class Draft.Given.Stands (Γ : Draft.Given) (r r' : Reg) : Prop where
  mem_or_same : (r, r') ∈ Γ ∨ ∃ q, r = .phys q ∧ r' = .phys q

/-- The second operation is the first one with registers in place of the operands of `Γ`. -/
class Op.Stands (Γ : Draft.Given) (o o' : Op Label) : Prop where
  mapRegs_eq : ∀ f, Γ.Sends f → o.mapRegs f f = o'

section Stands

variable {Γ : Draft.Given} {r r' a a' b b' : Reg}

instance (q : PhysReg) : Γ.Stands (.phys q) (.phys q) := ⟨.inr ⟨q, rfl, rfl⟩⟩

instance : Draft.Given.Stands ((r, r') :: Γ) r r' := ⟨.inl (List.mem_cons_self ..)⟩

instance (x : Reg × Reg) [h : Γ.Stands r r'] : Draft.Given.Stands (x :: Γ) r r' :=
  ⟨h.mem_or_same.imp_left (List.mem_cons_of_mem x)⟩

/-- A temporary has its register from the list. -/
theorem Draft.Given.Stands.mem {t : Nat} (h : Γ.Stands (.virt t) r') : (.virt t, r') ∈ Γ :=
  h.mem_or_same.resolve_right fun ⟨_, hphys, _⟩ => nomatch hphys

theorem Draft.Given.Stands.apply_eq (h : Γ.Stands r r') {f : Reg → Reg} (hf : Γ.Sends f) :
    f r = r' := by
  rcases h.mem_or_same with hmem | ⟨q, rfl, rfl⟩
  · exact hf.given r r' hmem
  · exact hf.phys q

/-! An operation stands for another one of its form, operand by operand. -/

instance (l : Label) : Op.Stands Γ (.jump l) (.jump l) := ⟨fun _ _ => rfl⟩

instance (l : Label) : Op.Stands Γ (.call l) (.call l) := ⟨fun _ _ => rfl⟩

instance {c : Prop} [Decidable c] {o o' u u' : Op Label} [ho : Op.Stands Γ o o']
    [hu : Op.Stands Γ u u'] : Op.Stands Γ (if c then o else u) (if c then o' else u') := by
  split
  · exact ho
  · exact hu

variable [hr : Γ.Stands r r']

instance (n : Int32) : Op.Stands Γ (.li r n) (.li r' n) :=
  ⟨fun f hf => by rw [Op.mapRegs, hr.apply_eq hf]⟩

instance (l : Label) : Op.Stands Γ (.la r l) (.la r' l) :=
  ⟨fun f hf => by rw [Op.mapRegs, hr.apply_eq hf]⟩

instance : Op.Stands Γ (.callReg r) (.callReg r') :=
  ⟨fun f hf => by rw [Op.mapRegs, hr.apply_eq hf]⟩

instance (c : ZeroCmp) (l : Label) : Op.Stands Γ (.branchZero c r l) (.branchZero c r' l) :=
  ⟨fun f hf => by rw [Op.mapRegs, hr.apply_eq hf]⟩

variable [ha : Γ.Stands a a']

instance (op : ImmOp) (n : Int32) : Op.Stands Γ (.aluImm op r a n) (.aluImm op r' a' n) :=
  ⟨fun f hf => by rw [Op.mapRegs, hr.apply_eq hf, ha.apply_eq hf]⟩

instance (op : ShiftOp) (k : Fin 32) : Op.Stands Γ (.shift op r a k) (.shift op r' a' k) :=
  ⟨fun f hf => by rw [Op.mapRegs, hr.apply_eq hf, ha.apply_eq hf]⟩

instance (op : UnaryOp) : Op.Stands Γ (.unary op r a) (.unary op r' a') :=
  ⟨fun f hf => by rw [Op.mapRegs, hr.apply_eq hf, ha.apply_eq hf]⟩

instance (w : Width) (n : Int32) : Op.Stands Γ (.load w r a n) (.load w r' a' n) :=
  ⟨fun f hf => by rw [Op.mapRegs, hr.apply_eq hf, ha.apply_eq hf]⟩

instance (w : Width) (n : Int32) : Op.Stands Γ (.store w r a n) (.store w r' a' n) :=
  ⟨fun f hf => by rw [Op.mapRegs, hr.apply_eq hf, ha.apply_eq hf]⟩

instance (c : Cmp) (l : Label) : Op.Stands Γ (.branch c r a l) (.branch c r' a' l) :=
  ⟨fun f hf => by rw [Op.mapRegs, hr.apply_eq hf, ha.apply_eq hf]⟩

instance (op : AluOp) [hb : Γ.Stands b b'] : Op.Stands Γ (.alu op r a b) (.alu op r' a' b') :=
  ⟨fun f hf => by rw [Op.mapRegs, hr.apply_eq hf, ha.apply_eq hf, hb.apply_eq hf]⟩

end Stands

namespace Draft

namespace Lockstep

variable {Γ : Given} {R : Nat → Supply → β → β' → Prop} {r r' : Reg}

/-! ## Rules -/

/-- A step that records nothing and touches no register. -/
theorem silent {x : Draft .virtual α} {y : Draft .physical α'} {Q : Nat → Supply → α → α' → Prop}
    (h : ∀ s sup, Γ.Valid regs s.temps sup → ∃ s' a a',
      x s = ⟨[], s', .ok a⟩ ∧ y (s.direct regs sup) = ⟨[], s'.direct regs sup, .ok a'⟩ ∧
        s'.temps = s.temps ∧ Q s.temps sup a a') : Lockstep regs Γ x y Q := by
  intro s sup hΓ
  obtain ⟨s', a, a', hx, hy, htemps, hQ⟩ := h s sup hΓ
  rw [hx, hy]
  exact .done rfl rfl rfl rfl htemps.ge (fun _ _ => rfl) (htemps ▸ hQ)

theorem pure {a : α} {a' : α'} {Q : Nat → Supply → α → α' → Prop}
    (h : ∀ n sup, Γ.Valid regs n sup → Q n sup a a') :
    Lockstep regs Γ (Pure.pure a) (Pure.pure a') Q :=
  silent fun s sup hΓ => ⟨s, a, a', rfl, rfl, rfl, h _ sup hΓ⟩

theorem skip {a : α} : Lockstep regs Γ (Pure.pure a) (Pure.pure a) Same :=
  .pure fun _ _ _ => rfl

/-- A temporary and its register are handed on. -/
theorem deliver {t : Nat} {p : PhysReg} [h : Γ.Stands (.virt t) (.phys p)] :
    Lockstep regs Γ (Pure.pure (.virt t)) (Pure.pure (.phys p)) (Granted regs) :=
  .pure fun _ _ hΓ => ⟨t, p, rfl, rfl, hΓ _ _ h.mem⟩

theorem fail (e : CompileError) {Q : Nat → Supply → α → α' → Prop} :
    Lockstep regs Γ (Draft.fail e) (Draft.fail e) Q :=
  fun _ _ _ => .failed rfl rfl rfl

/-- What the second part does is told from where the first one ends. -/
theorem bind {x : Draft .virtual α} {y : Draft .physical α'} {f : α → Draft .virtual β}
    {g : α' → Draft .physical β'} {Q : Nat → Supply → α → α' → Prop} (hx : Lockstep regs Γ x y Q)
    (hf : ∀ a a' s sup, Γ.Valid regs s.temps sup → Q s.temps sup a a' →
      Follows regs sup s.temps R (f a s) (g a' (s.direct regs sup))) :
    Lockstep regs Γ (x >>= f) (y >>= g) R := by
  intro s sup hΓ
  show Follows regs sup s.temps R (Draft.bind x f s) (Draft.bind y g (s.direct regs sup))
  have hevents {a : α} (ha : (x s).value = .ok a) : Draft.bind x f s =
      ⟨(x s).events ++ (f a (x s).state).events, (f a (x s).state).state,
        (f a (x s).state).value⟩ := by
    rw [Draft.bind, ha]
  cases hx s sup hΓ with
  | @exhausted e hrun hdirect =>
    refine .exhausted (e := e) ?_ (by rw [Draft.bind, hdirect])
    cases ha : (x s).value with
    | error e => rw [Draft.bind, ha]; exact hrun
    | ok a => rw [hevents ha, Supply.run_append, hrun]; rfl
  | failed hrun hvalue hdirect =>
    exact .failed (by rw [Draft.bind, hvalue]; exact hrun) (by rw [Draft.bind, hvalue])
      (by rw [Draft.bind, hdirect])
  | @done sup₁ a a' hrun hstate hvalue hdirect hle hkeeps hQ =>
    have hy : Draft.bind y g (s.direct regs sup) =
        ⟨(y (s.direct regs sup)).events ++ (g a' ((x s).state.direct regs sup₁)).events,
          (g a' ((x s).state.direct regs sup₁)).state,
          (g a' ((x s).state.direct regs sup₁)).value⟩ := by
      rw [Draft.bind, hdirect, hstate]
    rw [hevents hvalue, hy]
    have hrest := hf a a' (x s).state sup₁ (fun r r' h => (hΓ r r' h).mono hkeeps hle) hQ
    cases hrest with
    | exhausted hrun₂ hdirect₂ =>
      refine .exhausted ?_ hdirect₂
      rw [Supply.run_append_of_ok hrun, hrun₂]
      rfl
    | failed hrun₂ hvalue₂ hdirect₂ =>
      exact .failed ((Supply.run_append_of_ok hrun).trans (congrArg _ hrun₂)) hvalue₂ hdirect₂
    | done hrun₂ hstate₂ hvalue₂ hdirect₂ hle₂ hkeeps₂ hR =>
      refine .done ?_ hstate₂ hvalue₂ hdirect₂ (hle.trans hle₂) (hkeeps.trans hkeeps₂ hle) hR
      rw [Supply.run_append_of_ok hrun, hrun₂]
      simp [Body.draftItems, Except.map]

/-- Go on with the value that both give. -/
theorem seq {x : Draft .virtual α} {y : Draft .physical α} {f : α → Draft .virtual β}
    {g : α → Draft .physical β'} (hx : Lockstep regs Γ x y Same)
    (hf : ∀ a, Lockstep regs Γ (f a) (g a) R) : Lockstep regs Γ (x >>= f) (y >>= g) R :=
  .bind hx fun a _ s sup hΓ hsame => hsame ▸ hf a s sup hΓ

/-- Go on with a temporary, of which the register is known from now on. -/
theorem temp {x : Draft .virtual Reg} {y : Draft .physical Reg} {f : Reg → Draft .virtual β}
    {g : Reg → Draft .physical β'} (hx : Lockstep regs Γ x y (Granted regs))
    (hf : ∀ t p, Lockstep regs ((.virt t, .phys p) :: Γ) (f (.virt t)) (g (.phys p)) R) :
    Lockstep regs Γ (x >>= f) (y >>= g) R := by
  refine .bind hx fun r r' s sup hΓ hgranted => ?_
  obtain ⟨t, p, rfl, rfl, h⟩ := hgranted
  refine hf t p s sup fun u q hmem => ?_
  rcases List.mem_cons.mp hmem with heq | hmem
  · cases heq
    exact h
  · exact hΓ u q hmem

theorem named {x : Draft .virtual Reg} {y : Draft .physical Reg} {f : Reg → Draft .virtual β}
    {g : Reg → Draft .physical β'} (hx : Lockstep regs Γ x y Named)
    (hf : ∀ q, Lockstep regs Γ (f (.phys q)) (g (.phys q)) R) :
    Lockstep regs Γ (x >>= f) (y >>= g) R := by
  refine .bind hx fun r r' s sup hΓ hnamed => ?_
  obtain ⟨q, rfl, rfl⟩ := hnamed
  exact hf q s sup hΓ

theorem ofExcept {x : Except CompileError α} {f : α → Draft .virtual β}
    {g : α → Draft .physical β'} (hf : ∀ a, x = .ok a → Lockstep regs Γ (f a) (g a) R) :
    Lockstep regs Γ (Draft.ofExcept x >>= f) (Draft.ofExcept x >>= g) R := by
  cases x with
  | error e => exact fun _ _ _ => .failed rfl rfl rfl
  | ok a => exact hf a rfl

theorem ite {c : Prop} [Decidable c] {x x' : Draft .virtual α} {y y' : Draft .physical α'}
    {Q : Nat → Supply → α → α' → Prop} (h : Lockstep regs Γ x y Q) (h' : Lockstep regs Γ x' y' Q) :
    Lockstep regs Γ (if c then x else x') (if c then y else y') Q := by
  split
  · exact h
  · exact h'

theorem instr {o o' : Op Label} {comment : Option String} [h : o.Stands Γ o'] :
    Lockstep regs Γ (record (.item (.instr ⟨o, comment⟩))) (record (.item (.instr ⟨o', comment⟩)))
      Same := by
  intro s sup hΓ
  refine .done ?_ rfl rfl rfl (Nat.le_refl _) (fun _ _ => rfl) rfl
  have heq : o.mapRegs (sup.reg regs) (sup.reg regs) = o' :=
    h.mapRegs_eq _ ⟨fun _ => rfl, fun r r' hmem => (hΓ r r' hmem).1⟩
  rw [← heq]
  rfl

theorem emit {o o' : Op Label} [o.Stands Γ o'] :
    Lockstep regs Γ (Draft.emit o) (Draft.emit o') Same := .instr

theorem note {env : Env} {o o' : Op Label} {comment : String} [o.Stands Γ o'] :
    Lockstep regs Γ (env.note o comment) (env.note o' comment) Same := .instr

theorem place (l : Label) : Lockstep regs Γ (Draft.place l) (Draft.place l) Same :=
  fun _ _ _ => .done rfl rfl rfl rfl (Nat.le_refl _) (fun _ _ => rfl) rfl

theorem label (env : Env) : Lockstep regs Γ env.label env.label Same :=
  silent fun s _ _ => ⟨{ s with labels := s.labels + 1 }, _, _, rfl, rfl, rfl, rfl⟩

theorem intern (c : Constant) : Lockstep regs Γ (Draft.intern c) (Draft.intern c) Same :=
  silent fun s _ _ => ⟨{ s with pool := (s.pool.intern c).2 }, _, _, rfl, rfl, rfl, rfl⟩

/-- The slot that a take is given is free in both runs, or there is none. -/
theorem take (what : String) (span : Span) :
    Lockstep regs Γ (Draft.take what span) (Draft.take what span) (Granted regs) := by
  intro s sup hΓ
  rcases sup.next?_eq regs with ⟨hnone, hnext⟩ | ⟨k, p, hk, hp, hnext⟩
  · refine .exhausted (e := .poolExhausted what span) ?_ ?_
    · show Supply.run regs sup [.take s.temps what span] = _
      rw [Supply.run, hnone]
    · rw [take_eq_of_exhausted (s := s.direct regs sup) hnext]
  · rw [take_eq_of_next (s := s.direct regs sup) hnext]
    refine .done ?_ rfl rfl rfl (Nat.le_succ _) (sup.keeps_take _ k)
      ⟨s.temps, p, rfl, rfl, sup.grants_take _ hp⟩
    show Supply.run regs sup [.take s.temps what span] = _
    rw [Supply.run, hk]
    rfl

/-- A register stands once in the pool, so its slot is found. -/
theorem release {t : Nat} {p : PhysReg} (hregs : regs.Nodup) [h : Γ.Stands (.virt t) (.phys p)] :
    Lockstep regs Γ (Draft.release (.virt t)) (Draft.release (.phys p)) Same := by
  intro s sup hΓ
  obtain ⟨k, hk, hp⟩ := (hΓ _ _ h.mem).slot
  have hidx : regs.idxOf? p = some k := by
    obtain ⟨hlt, hget⟩ := List.getElem?_eq_some_iff.mp hp
    refine List.idxOf?_eq_some_iff.mpr ⟨hlt, hget, fun j hj heq => ?_⟩
    have := hregs.getElem_inj_iff.mp (heq.trans hget.symm)
    omega
  rw [release_eq_of_idx (s := s.direct regs sup) hidx]
  refine .done ?_ rfl rfl rfl (Nat.le_refl _) (fun _ _ => rfl) rfl
  show Supply.run regs (sup.release t) [] = _
  rw [Supply.release, hk]
  rfl

theorem forM {γ : Type} {f : γ → Draft .virtual PUnit} {g : γ → Draft .physical PUnit} :
    ∀ {cs : List γ}, (∀ c ∈ cs, Lockstep regs Γ (f c) (g c) Same) →
      Lockstep regs Γ (cs.forM f) (cs.forM g) Same
  | [], _ => .skip
  | c :: _, hf => .seq (hf c (List.mem_cons_self ..)) fun _ =>
    forM fun c' hc' => hf c' (List.mem_cons_of_mem c hc')

end Lockstep

end Draft

end ChocoRV
