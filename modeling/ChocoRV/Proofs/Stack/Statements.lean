import Mathlib
import ChocoRV.Proofs.Draft.Forms
import ChocoRV.Proofs.Draft.Trace

/-!
# Where the code of a statement stands

`Env.Within t σ ss s pre` says that drafting the statements `ss` from state `s` comes, after the
events `pre`, to the statement `t`, in state `σ`: as one of `ss`, or as one that is nested in them
to any depth. What stands before a nested block is a draft of its own (`Env.beforeTrue` and the
like), in which no room stays open (`Env.Opens.traced`). `Env.Within.split` shows that the code of
`t` does stand there.
-/

namespace ChocoRV

open Assembly

/-! ## Drafts in sequence -/

/-- In a draft that goes on with `y` after `x`, what `y` yields stands behind what `x` yields. -/
theorem Draft.yields_inside {α β γ : Type} {x : Draft .virtual α} {y : α → Draft .virtual β}
    {g : α → β → Draft .virtual γ} {s s₁ s' : State} {e evs : List Event} {a : α} {c : γ}
    (hx : x.Yields s e s₁ a) (h : (x >>= fun a => y a >>= g a).Yields s evs s' c) :
    ∃ mid s₂ b post, (y a).Yields s₁ mid s₂ b ∧ evs = e ++ mid ++ post := by
  obtain ⟨e', s₁', a', rest, hx', hrest, rfl⟩ := yields_bind_iff.mp h
  obtain ⟨rfl, rfl, rfl⟩ := hx.unique hx'
  obtain ⟨mid, s₂, b, post, hy, -, rfl⟩ := yields_bind_iff.mp hrest
  exact ⟨mid, s₂, b, post, hy, by rw [List.append_assoc]⟩

/-! ## Statements within statements -/

namespace Env

/-- The code of the statement begins with `x`, and then comes the block `inner`. -/
inductive Opens (env : Env) : Stmt → {α : Type} → Draft .virtual α → List Stmt → Prop
  | onTrue (span : Span) (test : Expr) (onTrue onFalse : List Stmt) :
      Opens env (.ifElse span test onTrue onFalse) (env.beforeTrue test) onTrue
  | onFalse (span : Span) (test : Expr) (onTrue onFalse : List Stmt) :
      Opens env (.ifElse span test onTrue onFalse) (env.beforeFalse test onTrue) onFalse
  | whileBody (span : Span) (test : Expr) (body : List Stmt) :
      Opens env (.whileLoop span test body) (env.beforeBody test) body
  | forBody (span : Span) (var : String) (seq : Expr) (body : List Stmt) :
      Opens env (.forEach span var seq body) (env.beforeTurn span var seq) body

theorem Opens.stmt_eq {env : Env} {u : Stmt} {α : Type} {x : Draft .virtual α} {inner : List Stmt}
    (h : env.Opens u x inner) :
    ∃ g : α → Unit → Draft .virtual Unit, env.stmt u = x >>= fun a => env.block inner >>= g a := by
  cases h with
  | onTrue => exact ⟨_, env.stmt_ifElse ..⟩
  | onFalse => exact ⟨_, env.stmt_ifElse_second ..⟩
  | whileBody => exact ⟨_, env.stmt_whileLoop ..⟩
  | forBody => exact ⟨_, env.stmt_forEach ..⟩

/-- No room is open where a nested block begins. -/
theorem Opens.traced {env : Env} {u : Stmt} {α : Type} {x : Draft .virtual α} {inner : List Stmt}
    (h : env.Opens u x inner) {s s' : Draft.State} {evs : List Event} {a : α}
    (hx : x.Yields s evs s' a) :
    ∃ σ', σ'.rooms = [] ∧ Traced env False (.unit env) s evs s' σ' := by
  cases h with
  | onTrue =>
    obtain ⟨_, rfl, ht⟩ := (beforeTrue_drawn False.elim False.elim).traced hx
    exact ⟨_, rfl, ht⟩
  | onFalse =>
    obtain ⟨_, rfl, ht⟩ := (beforeFalse_drawn False.elim False.elim Draft.Scene.forStmt_unit
      ((env.stmts_drawn False.elim).2 _ False.elim)).traced hx
    exact ⟨_, rfl, ht⟩
  | whileBody =>
    obtain ⟨_, rfl, ht⟩ := (beforeBody_drawn False.elim False.elim).traced hx
    exact ⟨_, rfl, ht⟩
  | forBody =>
    obtain ⟨_, ⟨_, _, -, rfl⟩, ht⟩ := (beforeTurn_drawn False.elim False.elim).traced hx
    exact ⟨_, rfl, ht⟩

/-- Drafting `ss` from `s` comes to the statement `t`, in state `σ`, after the events `pre`. -/
inductive Within (env : Env) (t : Stmt) (σ : Draft.State) :
    List Stmt → Draft.State → List Event → Prop
  | here (ss : List Stmt) : Within env t σ (t :: ss) σ []
  | later {u : Stmt} {ss : List Stmt} {s s₁ : Draft.State} {e pre : List Event}
      (hu : (env.stmt u).Yields s e s₁ ()) (h : Within env t σ ss s₁ pre) :
      Within env t σ (u :: ss) s (e ++ pre)
  | nested {u : Stmt} {α : Type} {x : Draft .virtual α} {inner ss : List Stmt} {s s₁ : Draft.State}
      {e pre : List Event} {a : α} (ho : env.Opens u x inner) (hx : x.Yields s e s₁ a)
      (h : Within env t σ inner s₁ pre) : Within env t σ (u :: ss) s (e ++ pre)

variable {env : Env} {t : Stmt} {σ s s' : Draft.State} {ss : List Stmt} {pre evs : List Event}

/-- The code of the statement stands where it is said to. -/
theorem Within.split (h : env.Within t σ ss s pre) (hy : (env.block ss).Yields s evs s' ()) :
    ∃ mid σ' post, (env.stmt t).Yields σ mid σ' () ∧ evs = pre ++ mid ++ post := by
  induction h generalizing s' evs with
  | here ss =>
    rw [Env.block] at hy
    obtain ⟨mid, σ', ⟨⟩, post, ht, -, rfl⟩ := Draft.yields_bind_iff.mp hy
    exact ⟨mid, σ', post, ht, rfl⟩
  | later hu _ ih =>
    rw [Env.block] at hy
    obtain ⟨e', s₁', ⟨⟩, rest, hu', hrest, rfl⟩ := Draft.yields_bind_iff.mp hy
    obtain ⟨rfl, rfl, -⟩ := hu.unique hu'
    obtain ⟨mid, σ', post, ht, rfl⟩ := ih hrest
    exact ⟨mid, σ', post, ht, by simp only [List.append_assoc]⟩
  | nested ho hx _ ih =>
    rw [Env.block] at hy
    obtain ⟨e₁, s₁', ⟨⟩, rest, hu, -, rfl⟩ := Draft.yields_bind_iff.mp hy
    obtain ⟨g, hg⟩ := ho.stmt_eq
    rw [hg] at hu
    obtain ⟨block, s₂, ⟨⟩, post, hblock, rfl⟩ := Draft.yields_inside hx hu
    obtain ⟨mid, σ', post', ht, rfl⟩ := ih hblock
    exact ⟨mid, σ', post' ++ (post ++ rest), ht, by simp only [List.append_assoc]⟩

end Env

end ChocoRV
