import Mathlib
import ChocoRV.Proofs.Call.Activation
import ChocoRV.Proofs.Draft.Modes
import ChocoRV.Proofs.Draft.Owned
import ChocoRV.Proofs.Draft.Placing
import ChocoRV.Proofs.Draft.Supply

/-!
# Held temporaries are kept

In the direct mode a temporary is a slot of the pool that is in use. Whatever slots are in use when
the code of an expression begins, one more is when it ends, the one that holds the value; a
statement leaves them as they are. On the way a slot is given only while nothing else has it, and an
instruction writes only the slots of temporaries that the code has taken itself (`Supply.Above`). So
the registers in use before are not written, and what they hold survives a run of the code.
-/

namespace ChocoRV

open Assembly Image

namespace Supply

variable {base s final : Supply} {pool : List PhysReg} {size n n' k : Nat} {H H' : List Nat}
  {evs : List Event} {items : List Item}

theorem free?_eq_some (h : s.free? size = some k) : k < size ∧ k ∉ s.busy := by
  obtain ⟨hk, hmem, -⟩ := List.find?_range_eq_some.mp h
  exact ⟨List.mem_range.mp hmem, by simpa using hk⟩

theorem lookup_take_self (s : Supply) (n k : Nat) : (s.take n k).slots.lookup n = some k := by
  rw [lookup_take, if_pos rfl]

theorem lookup_take_of_ne {t : Nat} (h : t ≠ n) :
    (s.take n k).slots.lookup t = s.slots.lookup t := by
  rw [lookup_take, if_neg h]

theorem slots_release (s : Supply) (t : Nat) : (s.release t).slots = s.slots := by
  unfold release
  split <;> rfl

/-- The supply `s` comes of `base` by code of its own, while the temporaries `H` of that code are
held and `n` have been taken. Each of them has a slot that was not in use in `base`, no two have the
same, and the slots in use are these and the ones from before. -/
structure Above (base : Supply) (size n : Nat) (H : List Nat) (s : Supply) : Prop where
  slot : ∀ t ∈ H, ∃ k < size, s.slots.lookup t = some k ∧ k ∉ base.busy
  apart : ∀ t ∈ H, ∀ u ∈ H, s.slots.lookup t = s.slots.lookup u → t = u
  busy : ∀ k, k ∈ s.busy ↔ k ∈ base.busy ∨ ∃ t ∈ H, s.slots.lookup t = some k
  taken : ∀ t ∈ H, t < n
  nodup : H.Nodup

namespace Above

theorem refl (s : Supply) (size n : Nat) : Above s size n [] s where
  slot t h := absurd h List.not_mem_nil
  apart t h := absurd h List.not_mem_nil
  busy k := by simp
  taken t h := absurd h List.not_mem_nil
  nodup := List.nodup_nil

/-- The slot that a new temporary gets is in use neither before nor by another temporary. -/
theorem take (h : Above base size n H s) (hk : s.free? size = some k) :
    Above base size (n + 1) (n :: H) (s.take n k) := by
  obtain ⟨hlt, hfree⟩ := free?_eq_some hk
  rw [h.busy, not_or] at hfree
  -- The new temporary has a higher number than the others, so their entries are found as before.
  have hold : ∀ t ∈ H, (s.take n k).slots.lookup t = s.slots.lookup t := fun t ht =>
    lookup_take_of_ne (Nat.ne_of_lt (h.taken t ht))
  have hnew : ∀ t ∈ H, (s.take n k).slots.lookup t ≠ some k := by
    intro t ht hslot
    rw [hold t ht] at hslot
    exact hfree.2 ⟨t, ht, hslot⟩
  refine ⟨?_, ?_, fun j => ?_, ?_, ?_⟩
  · rw [List.forall_mem_cons]
    refine ⟨⟨k, hlt, lookup_take_self s n k, hfree.1⟩, fun t ht => ?_⟩
    rw [hold t ht]
    exact h.slot t ht
  · intro t ht u hu heq
    rcases List.mem_cons.mp ht with htn | ht' <;> rcases List.mem_cons.mp hu with hun | hu'
    · rw [htn, hun]
    · rw [htn, lookup_take_self] at heq
      exact absurd heq.symm (hnew u hu')
    · rw [hun, lookup_take_self] at heq
      exact absurd heq (hnew t ht')
    · rw [hold t ht', hold u hu'] at heq
      exact h.apart t ht' u hu' heq
  · have hbusy : (s.take n k).busy = k :: s.busy := rfl
    have hheld : (∃ t ∈ H, (s.take n k).slots.lookup t = some j) ↔
        ∃ t ∈ H, s.slots.lookup t = some j :=
      exists_congr fun t => and_congr_right fun ht => by rw [hold t ht]
    rw [hbusy, List.mem_cons, h.busy, List.exists_mem_cons_iff, lookup_take_self, hheld,
      Option.some.injEq]
    grind
  · rw [List.forall_mem_cons]
    exact ⟨Nat.lt_succ_self n, fun t ht => Nat.lt_succ_of_lt (h.taken t ht)⟩
  · exact List.nodup_cons.mpr ⟨fun hmem => Nat.lt_irrefl n (h.taken n hmem), h.nodup⟩

theorem release {t : Nat} (h : Above base size n (t :: H) s) :
    Above base size n H (s.release t) := by
  obtain ⟨k, -, hk, hfree⟩ := h.slot t List.mem_cons_self
  have hbusy : (s.release t).busy = s.busy.filter (· != k) := by
    rw [Supply.release, hk]
    rfl
  have ht : t ∉ H := (List.nodup_cons.mp h.nodup).1
  refine ⟨fun u hu => ?_, fun u hu v hv => ?_, fun j => ?_, fun u hu => ?_,
    (List.nodup_cons.mp h.nodup).2⟩
  · rw [slots_release]
    exact h.slot u (List.mem_cons_of_mem t hu)
  · rw [slots_release]
    exact h.apart u (List.mem_cons_of_mem t hu) v (List.mem_cons_of_mem t hv)
  · rw [hbusy, slots_release, List.mem_filter, h.busy, List.exists_mem_cons_iff, bne_iff_ne, hk,
      Option.some.injEq]
    constructor
    · rintro ⟨hold | heq | hheld, hne⟩
      · exact .inl hold
      · exact absurd heq.symm hne
      · exact .inr hheld
    · rintro (hold | ⟨u, hu, hslot⟩)
      · exact ⟨.inl hold, fun e => hfree (e ▸ hold)⟩
      -- No other temporary has the slot that is released.
      · refine ⟨.inr (.inr ⟨u, hu, hslot⟩), fun e => ht ?_⟩
        have hsame : s.slots.lookup u = s.slots.lookup t := by rw [hslot, hk, e]
        rw [← h.apart u (List.mem_cons_of_mem t hu) t List.mem_cons_self hsame]
        exact hu
  · exact h.taken u (List.mem_cons_of_mem t hu)

/-- An instruction that writes its own temporaries and plain registers writes no register that was
in use. -/
theorem spares (h : Above base size n H s) (hsize : size = pool.length) (hpool : pool.Nodup)
    (hsub : ∀ p ∈ pool, p ∈ PhysReg.allocatable) {o : Op Label} (hw : ∀ r ∈ o.def?, r.Writable H)
    {p : PhysReg} (hk : k ∈ base.busy) (hp : pool[k]? = some p) :
    (o.mapRegs (s.reg pool) (s.reg pool)).def? ≠ some (.phys p) := by
  have hplain : ∀ q ∈ PhysReg.allocatable, q.plain = false := by decide
  intro hdef
  obtain ⟨r, hr, hreg⟩ := Op.def?_mapRegs hdef rfl
  cases r with
  | phys q =>
    cases hreg
    have := (hw _ hr).1
    rw [hplain p (hsub p (List.mem_of_getElem? hp))] at this
    cases this
  | virt t =>
    -- A temporary of the code has a slot that was free, and a slot is one register of the pool.
    obtain ⟨j, hj, hslot, hfree⟩ := h.slot t (hw _ hr)
    have hget : pool[j]? = some (pool.get ⟨j, hsize ▸ hj⟩) := List.getElem?_eq_getElem (hsize ▸ hj)
    rw [reg, hslot, Option.bind_some, hget] at hreg
    cases hreg
    obtain ⟨hlt, -⟩ := List.getElem?_eq_some_iff.mp hp
    rw [(List.getElem?_inj hlt hpool).mp (hp.trans hget.symm)] at hk
    exact hfree hk

end Above

/-- What a successful pass over a take has done, whatever slots are in use. -/
theorem run_take_eq_ok_of_free {t : Nat} {what : String} {span : Span}
    (h : run pool s (.take t what span :: evs) = .ok (items, final)) :
    ∃ k, s.free? pool.length = some k ∧ run pool (s.take t k) evs = .ok (items, final) := by
  rw [run] at h
  cases hk : s.free? pool.length with
  | none =>
    rw [hk] at h
    cases h
  | some k =>
    rw [hk] at h
    exact ⟨k, rfl, h⟩

/-- Going through owned events, the supply stays above the one at the beginning, and no instruction
writes a register that was in use there. -/
theorem run_above (h : Owned n H evs n' H') (hs : Above base pool.length n H s) (hpool : pool.Nodup)
    (hsub : ∀ p ∈ pool, p ∈ PhysReg.allocatable) (hr : run pool s evs = .ok (items, final)) :
    Above base pool.length n' H' final ∧
      ∀ i ∈ instrs items, ∀ k ∈ base.busy, ∀ p, pool[k]? = some p → i.op.def? ≠ some (.phys p) := by
  induction h generalizing s items with
  | nil =>
    cases hr
    exact ⟨hs, fun i hi => absurd hi List.not_mem_nil⟩
  | label _ ih =>
    obtain ⟨rest, hrest, rfl⟩ := run_item_eq_ok hr
    rw [item, instrs_cons_label]
    exact ih hs hrest
  | instr writes _ ih =>
    obtain ⟨rest, hrest, rfl⟩ := run_item_eq_ok hr
    obtain ⟨hfinal, hkept⟩ := ih hs hrest
    refine ⟨hfinal, ?_⟩
    rw [item, instrs_cons_instr, List.forall_mem_cons]
    exact ⟨fun k hk p hp => hs.spares rfl hpool hsub writes hk hp, hkept⟩
  | take _ ih =>
    obtain ⟨k, hk, hr⟩ := run_take_eq_ok_of_free hr
    exact ih (hs.take hk) hr
  | release _ ih => exact ih hs.release hr

/-- Code leaves the registers in use alone. No instruction writes one of them, and so they hold the
same words all along a run of the code, with steps of support routines that leave the pool alone and
with activations of functions on the way. -/
structure Spares (pool : List PhysReg) (s : Supply) (items : List Item) : Prop where
  unwritten : ∀ k ∈ s.busy, ∀ p, pool[k]? = some p → ∀ i ∈ instrs items, i.op.def? ≠ some (.phys p)
  survives : ∀ k ∈ s.busy, ∀ p, pool[k]? = some p →
    ∀ {img : Image} {funcs : FuncCode → Prop} {support : List Item} {σ σ' : State},
      (∀ g, funcs g → g.Saves) →
      (∀ i ∈ instrs support, ∀ r ∈ PhysReg.allocatable, i.op.def? ≠ some (.phys r)) →
      Runs img funcs support items σ σ' → σ'.reg (.phys p) = σ.reg (.phys p)

end Supply

/-! ## Lowering -/

namespace Draft

variable {α α' : Type} {settings : CodegenSettings} {x : Draft .virtual α}
  {y : Draft .physical α'} {s s' : State} {sup sup' : Supply} {items : List Item} {a : α}

/-- The direct mode lowers `y`: from the state `st` it gets to `st'`, emits the items and has the
value `a`. -/
def Lowers (y : Draft .physical α') (st : StateOf .physical) (items : List Item)
    (st' : StateOf .physical) (a : α') : Prop :=
  ∃ evs, y st = ⟨evs, st', .ok a⟩ ∧ items = Body.draftItems evs

/-- Going through the events of a draft over temporaries, from the supply `sup`, gives the items and
the supply `sup'`. -/
def Replays (regs : List PhysReg) (x : Draft .virtual α) (s : State) (sup : Supply)
    (items : List Item) (s' : State) (sup' : Supply) (a : α) : Prop :=
  ∃ evs, x.Yields s evs s' a ∧ Supply.run regs sup evs = .ok (items, sup')

/-- What is lowered in the direct mode has a draft over temporaries, of which it is the replay. -/
theorem Lockstep.replays {regs : List PhysReg} {Γ : Given} {R : Nat → Supply → α → α' → Prop}
    (h : Lockstep regs Γ x y R) (hΓ : Γ.Valid regs s.temps sup) {st' : StateOf .physical} {a' : α'}
    (hl : y.Lowers (s.direct regs sup) items st' a') :
    ∃ s' sup' a, x.Replays regs s sup items s' sup' a ∧ st' = s'.direct regs sup' ∧
      R s'.temps sup' a a' := by
  obtain ⟨evs, hy, rfl⟩ := hl
  cases h s sup hΓ with
  | exhausted _ hdirect | failed _ _ hdirect =>
    rw [hy] at hdirect
    cases hdirect
  | @done sup' a b hrun hstate hvalue hdirect _ _ hrel =>
    rw [hy] at hrun hstate hdirect
    cases hdirect
    exact ⟨_, sup', a, ⟨_, yields_of_value hvalue, hrun⟩, hstate, hrel⟩

/-- Lowering code that owns what it writes. -/
theorem Owns.above {Q : α → List Nat → Prop} (h : x.Owns [] Q)
    (hl : x.Replays settings.pool s sup items s' sup' a) :
    (∃ H, Q a H ∧ Supply.Above sup settings.pool.length s'.temps H sup') ∧
      sup.Spares settings.pool items := by
  obtain ⟨evs, hy, hr⟩ := hl
  obtain ⟨H, hQ, howned⟩ := h hy
  obtain ⟨habove, hspares⟩ := Supply.run_above howned (.refl sup _ _) settings.nodup_pool
    settings.pool_subset hr
  have hunwritten : ∀ k ∈ sup.busy, ∀ p, settings.pool[k]? = some p → ∀ i ∈ instrs items,
      i.op.def? ≠ some (.phys p) := fun k hk p hp i hi => hspares i hi k hk p hp
  refine ⟨⟨H, hQ, habove⟩, hunwritten, ?_⟩
  intro k hk p hp img funcs support σ σ' hfuncs hsupport hrun
  exact hrun.keeps hfuncs hsupport p (settings.pool_subset p (List.mem_of_getElem? hp))
    (hunwritten k hk p hp)

/-- Code that keeps its own temporaries leaves the slots in use as they are. -/
theorem Owns.restores {x : Draft .virtual Unit} {y : Draft .physical Unit} {Γ : Given}
    {st' : StateOf .physical} {u : Unit} (h : x.Owns [] fun _ H' => H' = [])
    (hstep : Lockstep settings.pool Γ x y Same) (hΓ : Γ.Valid settings.pool s.temps sup)
    (hl : y.Lowers (s.direct settings.pool sup) items st' u) :
    (∀ j, j ∈ st'.supply.busy ↔ j ∈ sup.busy) ∧ sup.Spares settings.pool items := by
  obtain ⟨s', sup', a, hreplays, rfl, -⟩ := hstep.replays hΓ hl
  obtain ⟨⟨_, rfl, habove⟩, hspares⟩ := h.above hreplays
  refine ⟨fun j => ?_, hspares⟩
  show j ∈ sup'.busy ↔ _
  rw [habove.busy]
  simp

end Draft

/-- Code that may come while the value of an expression is held, besides that of other expressions
and of statements. -/
inductive Env.Aside (env : Env) : Draft .physical Unit → Prop
  /-- The arguments of a call, from word `k` on. -/
  | args (k : Nat) (params : List TypedVar) (args : List Expr) : Aside env (env.args k params args)
  /-- The targets of an assignment, to which the value that a register holds is stored. -/
  | targets (type : ValueType) (p : PhysReg) (targets : List Expr) :
      Aside env (env.assignAll type (.phys p) targets)
  /-- The body of a loop. -/
  | body (body : List Stmt) : Aside env (env.block body)

/-- **Temporaries are never clobbered or leaked.** In the direct mode, whatever slots of the pool
are in use before: after the code of an expression one more is, that of the register with its value,
and after the code of a statement the same ones are. No instruction on the way writes a register
that was in use, so that what it holds survives the code. The same goes for the arguments of a call,
the targets of an assignment and the body of a loop, which come while values are held. -/
theorem held_temporaries_kept (settings : CodegenSettings) (env : Env)
    {st : Draft.StateOf .physical} (hregs : st.regs = settings.pool) :
    (∀ e items st' r, (env.expr e).Lowers st items st' r →
      (∃ k p, r = .phys p ∧ settings.pool[k]? = some p ∧ k ∉ st.supply.busy ∧
        ∀ j, j ∈ st'.supply.busy ↔ j ∈ st.supply.busy ∨ j = k) ∧
        st.supply.Spares settings.pool items) ∧
    (∀ c items st' u, (env.stmt c).Lowers st items st' u →
      (∀ j, j ∈ st'.supply.busy ↔ j ∈ st.supply.busy) ∧ st.supply.Spares settings.pool items) ∧
    ∀ y items st' u, env.Aside y → y.Lowers st items st' u →
      (∀ j, j ∈ st'.supply.busy ↔ j ∈ st.supply.busy) ∧ st.supply.Spares settings.pool items := by
  have hpool := settings.nodup_pool
  -- The run over temporaries that goes with this one.
  obtain ⟨s, sup, rfl⟩ : ∃ (s : Draft.State) (sup : Supply), st = s.direct settings.pool sup := by
    obtain ⟨labels, temps, pool, regs, sup⟩ := st
    cases hregs
    exact ⟨⟨labels, temps, pool, [], {}⟩, sup, rfl⟩
  have hnone : Draft.Given.Valid settings.pool s.temps sup [] := nofun
  refine ⟨fun e items st' r hl => ?_, fun c items st' u hl => ?_, fun y items st' u hy hl => ?_⟩
  -- At the end of an expression one temporary is held: its value.
  · obtain ⟨s', sup', _, hreplays, rfl, t, p, rfl, rfl, hgrants⟩ :=
      ((env.exprs_lockstep hpool).1 e []).replays hnone hl
    obtain ⟨⟨_, ⟨_, ht, rfl⟩, habove⟩, hspares⟩ := (env.expr_owns e []).above hreplays
    cases ht
    obtain ⟨k, hslot, hp⟩ := hgrants.slot
    obtain ⟨j, -, hj, hfree⟩ := habove.slot t List.mem_cons_self
    cases hslot.symm.trans hj
    refine ⟨⟨k, p, rfl, hp, hfree, fun j => ?_⟩, hspares⟩
    show j ∈ sup'.busy ↔ _
    rw [habove.busy, List.exists_mem_cons_iff, hslot, Option.some.injEq, eq_comm]
    simp [Draft.StateOf.direct]
  · exact (env.stmts_own.1 c).restores ((env.stmts_lockstep hpool).1 c []) hnone hl
  · cases hy with
    | args k params args =>
      exact (env.stmts_own.2.2 k params args).restores
        ((env.exprs_lockstep hpool).2.2 k params args []) hnone hl
    | targets type p targets =>
      exact (env.assignAll_owns type (.phys p) targets).restores
        (Env.assignAll_lockstep hpool type targets) hnone hl
    | body body =>
      exact (env.stmts_own.2.1 body).restores ((env.stmts_lockstep hpool).2 body []) hnone hl

/-- The sum `1 + 2 * 3`. -/
def smallSum : Expr :=
  let int (n : Int32) : Expr := .int ⟨{}, .int⟩ n
  .binary ⟨{}, .int⟩ (int 1) .add (.binary ⟨{}, .int⟩ (int 2) .mul (int 3))

/-- With the first and the third of five registers in use, the value of the sum is left in the
second one, and a statement that evaluates it leaves the two in use. -/
theorem smallSum_kept :
    let env := Function.topLevelEnv {} true
    let pool := (direct true 5).pool
    let st : Draft.StateOf .physical :=
      { labels := 1, temps := 0, pool := {}, regs := pool, supply := { busy := [2, 0] } }
    (∃ items st', (env.expr smallSum).Lowers st items st' (.phys .s2) ∧
      (∀ j, j ∈ st'.supply.busy ↔ j ∈ [2, 0] ∨ j = 1) ∧ st.supply.Spares pool items) ∧
    ∃ items st' u, (env.stmt (.expr {} smallSum)).Lowers st items st' u ∧
      (∀ j, j ∈ st'.supply.busy ↔ j ∈ [2, 0]) ∧ st.supply.Spares pool items := by
  intro env pool st
  have hkept := @held_temporaries_kept (direct true 5) env st rfl
  constructor
  · have hvalue : (env.expr smallSum st).value = .ok (.phys .s2) := by decide +kernel
    have hl : (env.expr smallSum).Lowers st _ (env.expr smallSum st).state (.phys .s2) :=
      ⟨_, by rw [← hvalue], rfl⟩
    obtain ⟨⟨k, p, hr, hp, -, hbusy⟩, hspares⟩ := hkept.1 _ _ _ _ hl
    cases hr
    have hone : pool[1]? = some PhysReg.s2 := by decide
    obtain rfl : k = 1 :=
      (List.getElem?_inj (List.getElem?_eq_some_iff.mp hp).1 (direct true 5).nodup_pool).mp
        (hp.trans hone.symm)
    exact ⟨_, _, hl, hbusy, hspares⟩
  · have hvalue : (env.stmt (.expr {} smallSum) st).value = .ok () := by decide +kernel
    have hl : (env.stmt (.expr {} smallSum)).Lowers st _
        (env.stmt (.expr {} smallSum) st).state () := ⟨_, by rw [← hvalue], rfl⟩
    exact ⟨_, _, (), hl, hkept.2.1 _ _ _ _ hl⟩

end ChocoRV
