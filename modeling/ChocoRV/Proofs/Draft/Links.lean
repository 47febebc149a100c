import Mathlib
import ChocoRV.Draft.Function
import ChocoRV.Proofs.Symbol.Chain

/-!
# Static links in code

Code reaches the frame of an enclosing function by as many loads as the depths of the two functions
differ. Since every name is looked up from the function that the code belongs to (`Env.InUnit`), the
frame is always one that the chain of links leads to.
-/

namespace ChocoRV

namespace Env

/-- The code belongs to the top level or to a function of the table, and looks names up from
there. -/
structure InUnit (env : Env) : Prop where
  chained : env.table.Chained
  closed : env.table.Closed
  owner : env.table.Owner env.func
  scope : env.scope = env.table.scopeOf env.func

/-- The loads along `n` static links: the first link is in the frame of the function itself, every
other one in the frame that the link before it leads to. -/
def linkLoads (env : Env) (n : Nat) : List Event :=
  ((Reg.fp :: List.replicate n .t0).take n).map fun base =>
    .item (.instr ⟨.lw .t0 base 0, if env.comments then some "static link" else none⟩)

/-- The register that points to the frame at the end of `n` static links. -/
def linkReg (n : Nat) : Reg := if n = 0 then .fp else .t0

theorem followLinks_eq (env : Env) (n : Nat) (base : Reg) {mode : RegisterMode}
    (s : Draft.StateOf mode) :
    env.followLinks n base s =
      ⟨((base :: List.replicate n .t0).take n).map fun base =>
          .item (.instr ⟨.lw .t0 base 0, if env.comments then some "static link" else none⟩),
        s, .ok (if n = 0 then base else .t0)⟩ := by
  induction n generalizing base with
  | zero => rfl
  | succ n ih =>
    have htake : (base :: List.replicate (n + 1) Reg.t0).take (n + 1) =
        base :: (Reg.t0 :: List.replicate n Reg.t0).take n := by
      rw [List.take_succ_cons, List.replicate_succ]
    show Draft.bind (env.note (.lw .t0 base 0) "static link") (fun _ => env.followLinks n .t0) s = _
    rw [htake]
    simp [Draft.bind, note, Draft.record, ih]

variable {env : Env}

/-- The frame of a function that is no deeper than the code: as many loads as the depths differ. -/
theorem frameOf_eq {depth owner : Nat} {mode : RegisterMode} (span : Span)
    (s : Draft.StateOf mode) (hd : env.depth? = some depth)
    (hle : (env.table.func owner).depth ≤ depth) :
    env.frameOf owner span s =
      ⟨env.linkLoads (depth - (env.table.func owner).depth), s,
        .ok (linkReg (depth - (env.table.func owner).depth))⟩ := by
  unfold frameOf
  rw [hd]
  simp only [hle, if_true]
  exact followLinks_eq env _ _ s

/-- The frame of the function is one that the code can come to. -/
def Sees (env : Env) (owner : Nat) : Prop :=
  ∃ depth, env.depth? = some depth ∧ (env.table.func owner).depth ≤ depth

namespace InUnit

variable {name : String} {span : Span}

theorem lookup? (h : env.InUnit) {sym : Symbol} (hr : env.resolve name span = .ok sym) :
    env.table.lookup? (env.table.scopeOf env.func) name = some sym := by
  rw [← h.scope]
  exact SymbolTable.lookup_eq_ok_iff.mp hr

theorem sees_stack (h : env.InUnit) {v : StackVar} (hr : env.resolve name span = .ok (.stack v)) :
    env.Sees v.func := by
  obtain ⟨f, hf, hle, -⟩ := h.chained.ancestor_of_stack h.owner (h.lookup? hr)
  exact ⟨_, by rw [depth?, hf]; rfl, hle⟩

theorem sees_parent (h : env.InUnit) {g : Nat} (hr : env.resolve name span = .ok (.func g))
    (hg : (env.table.func g).hasStaticLink = true) :
    ∃ p, (env.table.func g).parent = some p ∧ env.Sees p := by
  obtain ⟨f, p, hf, hp, hle, -⟩ :=
    h.chained.ancestor_of_nested h.closed h.owner (h.lookup? hr) (of_decide_eq_true hg)
  exact ⟨p, hp, _, by rw [depth?, hf]; rfl, hle⟩

/-- The frame of a variable that the code sees. -/
theorem frameOf_stack (h : env.InUnit) {v : StackVar} (hr : env.resolve name span = .ok (.stack v))
    : ∃ f, env.func = some f ∧
      env.table.ancestor? ((env.table.func f).depth - (env.table.func v.func).depth) f =
        some v.func ∧
      ∀ {mode} span (s : Draft.StateOf mode), env.frameOf v.func span s =
        ⟨env.linkLoads ((env.table.func f).depth - (env.table.func v.func).depth), s,
          .ok (linkReg ((env.table.func f).depth - (env.table.func v.func).depth))⟩ := by
  obtain ⟨f, hf, hle, hanc⟩ := h.chained.ancestor_of_stack h.owner (h.lookup? hr)
  refine ⟨f, hf, hanc, fun span s => frameOf_eq span s ?_ hle⟩
  rw [depth?, hf]
  rfl

/-- The frame that a nested function is given when the code calls it. -/
theorem frameOf_parent (h : env.InUnit) {g : Nat} (hr : env.resolve name span = .ok (.func g))
    (hg : 0 < (env.table.func g).depth) :
    ∃ f p, env.func = some f ∧ (env.table.func g).parent = some p ∧
      env.table.ancestor? ((env.table.func f).depth - (env.table.func p).depth) f = some p ∧
      ∀ {mode} span (s : Draft.StateOf mode), env.frameOf p span s =
        ⟨env.linkLoads ((env.table.func f).depth - (env.table.func p).depth), s,
          .ok (linkReg ((env.table.func f).depth - (env.table.func p).depth))⟩ := by
  obtain ⟨f, p, hf, hp, hle, hanc⟩ :=
    h.chained.ancestor_of_nested h.closed h.owner (h.lookup? hr) hg
  refine ⟨f, p, hf, hp, hanc, fun span s => frameOf_eq span s ?_ hle⟩
  rw [depth?, hf]
  rfl

end InUnit

end Env

end ChocoRV
