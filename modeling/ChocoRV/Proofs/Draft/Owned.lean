import Mathlib
import ChocoRV.Proofs.Draft.Forms
import ChocoRV.Proofs.Draft.Trace

/-!
# What a piece of code writes

While code is drafted, temporaries from before may be held: an operand while its sibling is
evaluated, the value of an assignment while its targets are, the state of a loop while its body is.
The code may read such a temporary, but it writes only those that it has taken itself. `Owned` says
so of a list of events, with the stack of these temporaries alone, and `Draft.Drawn.owns` of all
drafts that are begun with none of their own.
-/

namespace ChocoRV

/-- Events `evs` start with `n` temporaries taken before them and end with `n'`. Of those that are
their own, `H` are held at first and `H'` at the end, the last one first. Instructions may read any
temporary, but write only these and plain registers. -/
inductive Owned : Nat → List Nat → List Event → Nat → List Nat → Prop
  | nil {n : Nat} {H : List Nat} : Owned n H [] n H
  | label {n n' : Nat} {H H' : List Nat} {l : Label} {evs : List Event} :
      Owned n H evs n' H' → Owned n H (.item (.label l) :: evs) n' H'
  | instr {n n' : Nat} {H H' : List Nat} {i : Instr} {evs : List Event}
      (writes : ∀ r ∈ i.op.def?, r.Writable H) :
      Owned n H evs n' H' → Owned n H (.item (.instr i) :: evs) n' H'
  | take {n n' : Nat} {H H' : List Nat} {what : String} {span : Span} {evs : List Event} :
      Owned (n + 1) (n :: H) evs n' H' → Owned n H (.take n what span :: evs) n' H'
  | release {n n' t : Nat} {H H' : List Nat} {evs : List Event} :
      Owned n H evs n' H' → Owned n (t :: H) (.release t :: evs) n' H'

variable {evs : List Event}

theorem Owned.append {n n' n'' : Nat} {H H' H'' : List Nat} {evs' : List Event}
    (h : Owned n H evs n' H') (h' : Owned n' H' evs' n'' H'') :
    Owned n H (evs ++ evs') n'' H'' := by
  induction h with
  | nil => exact h'
  | label _ ih => exact .label (ih h')
  | instr writes _ ih => exact .instr writes (ih h')
  | take _ ih => exact .take (ih h')
  | release _ ih => exact .release (ih h')

/-- What is held has been taken. -/
theorem Owned.held_lt {n n' : Nat} {H H' : List Nat} (h : Owned n H evs n' H') (hH : ∀ t ∈ H, t < n)
    : n ≤ n' ∧ ∀ t ∈ H', t < n' := by
  induction h with
  | nil => exact ⟨Nat.le_refl _, hH⟩
  | label _ ih | instr _ _ ih => exact ih hH
  | take _ ih =>
    obtain ⟨hle, hlt⟩ := ih (List.forall_mem_cons.mpr
      ⟨Nat.lt_succ_self _, fun t ht => Nat.lt_succ_of_lt (hH t ht)⟩)
    exact ⟨Nat.le_of_succ_le hle, hlt⟩
  | release _ ih => exact ih fun t ht => hH t (List.mem_cons_of_mem _ ht)

/-- A temporary that is written was held at first or is taken on the way. -/
theorem Owned.written {n n' : Nat} {H H' : List Nat} (h : Owned n H evs n' H') {i : Instr}
    (hi : .item (.instr i) ∈ evs) {t : Nat} (ht : i.op.def? = some (.virt t)) : t ∈ H ∨ n ≤ t := by
  induction h with
  | nil => exact absurd hi List.not_mem_nil
  | label _ ih => exact ih (List.mem_of_ne_of_mem (by simp) hi)
  | instr writes _ ih =>
    rcases List.mem_cons.mp hi with heq | hi
    · cases heq
      exact .inl (writes _ ht)
    · exact ih hi
  | take _ ih =>
    rcases ih (List.mem_of_ne_of_mem (by simp) hi) with hmem | hle
    · rcases List.mem_cons.mp hmem with rfl | hmem
      · exact .inr (Nat.le_refl _)
      · exact .inl hmem
    · exact .inr (Nat.le_of_succ_le hle)
  | release _ ih =>
    exact (ih (List.mem_of_ne_of_mem (by simp) hi)).imp_left (List.mem_cons_of_mem _)

/-- What is traced while temporaries are held is owned by them. -/
theorem Traced.owned {env : Env} {E : Prop} {σ σ' : Draft.Scene} {s s' : Draft.State}
    (h : Traced env E σ s evs s' σ') : Owned s.temps σ.held evs s'.temps σ'.held := by
  induction h with
  | nil | fresh | intern => exact .nil
  | append _ _ ih₁ ih₂ => exact ih₁.append ih₂
  | instr h =>
    rw [Draft.Scene.held, Draft.Scene.held, h.held_eq]
    exact .instr h.allowed.writes .nil
  | take => exact .take .nil
  | release h =>
    rw [Draft.Scene.held, h]
    exact .release .nil
  | label _ hκ =>
    rw [Draft.Scene.held, Draft.Scene.held, hκ.held]
    exact .label .nil
  | drop _ _ ih => exact ih
  | @literal _ s lit type =>
    refine .instr (fun r hr => ?_) .nil
    have ht0 : ((s.pool.literal lit type).1.load .t0).def? = some .t0 := by
      cases (s.pool.literal lit type).1 <;> rfl
    cases ht0.symm.trans hr
    simp

namespace Draft

variable {α β : Type}

/-- Whatever `x` yields is owned. It begins with the temporaries `H` of its own held, and ends with
a value `a` and `H'` held such that `Q a H'`. -/
def Owns (H : List Nat) (x : Draft .virtual α) (Q : α → List Nat → Prop) : Prop :=
  ∀ ⦃s s' : State⦄ ⦃evs : List Event⦄ ⦃a : α⦄, x.Yields s evs s' a →
    ∃ H', Q a H' ∧ Owned s.temps H evs s'.temps H'

theorem Drawn.owns {env : Env} {E : Prop} {σ : Scene} {x : Draft .virtual α} {Q : α → Scene → Prop}
    {H : List Nat} {R : α → List Nat → Prop} (h : Drawn env E σ x Q) (hσ : σ.held = H)
    (hR : ∀ a σ', Q a σ' → R a σ'.held) : x.Owns H R := by
  subst hσ
  intro s s' evs a hy
  obtain ⟨σ', hQ, ht⟩ := h.traced hy
  exact ⟨σ'.held, hR a σ' hQ, ht.owned⟩

/-- A place where the temporaries `H` are held, and nothing else is open. -/
def Scene.holding (H : List Nat) : Scene := { context := { temps := H.map (·, true) } }

theorem Scene.held_holding (H : List Nat) : (holding H).held = H := by
  simp [holding, Context.held, Function.comp_def]

namespace Owns

variable {H K : List Nat} {x : Draft .virtual α} {f : α → Draft .virtual β}
  {R : β → List Nat → Prop}

theorem fail (e : CompileError) : (Draft.fail e : Draft .virtual β).Owns H R :=
  fun _ _ _ _ hy => absurd hy not_yields_fail

theorem bind {Q : α → List Nat → Prop} (hx : x.Owns H Q) (hf : ∀ a H', Q a H' → (f a).Owns H' R) :
    (x >>= f).Owns H R := by
  intro s s' evs b hy
  obtain ⟨e₁, s₁, a, e₂, h₁, h₂, rfl⟩ := yields_bind_iff.mp hy
  obtain ⟨H₁, hQ, ho₁⟩ := hx h₁
  obtain ⟨H₂, hR, ho₂⟩ := hf a H₁ hQ h₂
  exact ⟨H₂, hR, ho₁.append ho₂⟩

/-- Go on after a part that ends with the temporaries `K` held, whatever its value. -/
theorem seq (hx : x.Owns H fun _ H' => H' = K) (hf : ∀ a, (f a).Owns K R) : (x >>= f).Owns H R := by
  refine bind hx ?_
  rintro a _ rfl
  exact hf a

/-- Go on with the temporary that a part has left. -/
theorem temp {x : Draft .virtual Reg} {f : Reg → Draft .virtual β}
    (hx : x.Owns H fun r H' => ∃ t, r = .virt t ∧ H' = t :: H)
    (hf : ∀ t, (f (.virt t)).Owns (t :: H) R) : (x >>= f).Owns H R := by
  refine bind hx ?_
  rintro _ _ ⟨t, rfl, rfl⟩
  exact hf t

theorem given {y : Except CompileError α} (hf : ∀ a, y = .ok a → (f a).Owns H R) :
    (ofExcept y >>= f).Owns H R := by
  refine bind (Q := fun a H' => y = .ok a ∧ H' = H) (fun s s' evs a hy => ?_) ?_
  · obtain ⟨ha, rfl, rfl⟩ := yields_ofExcept_iff.mp hy
    exact ⟨H, ⟨ha, rfl⟩, .nil⟩
  · rintro a _ ⟨ha, rfl⟩
    exact hf a ha

theorem record {i : Instr} (h : ∀ r ∈ i.op.def?, r.Writable H) :
    (Draft.record (.item (.instr i))).Owns H fun _ H' => H' = H := by
  intro s s' evs a hy
  obtain ⟨rfl, rfl⟩ := yields_record_iff.mp hy
  exact ⟨H, rfl, .instr h .nil⟩

theorem release (t : Nat) : (Draft.release (.virt t)).Owns (t :: H) fun _ H' => H' = H := by
  intro s s' evs a hy
  obtain ⟨rfl, rfl⟩ := yields_release_iff.mp hy
  exact ⟨H, rfl, .release .nil⟩

end Owns

end Draft

namespace Env

open Draft (Owns Scene)

variable {env : Env} {H : List Nat}

theorem storeName_owns (name : String) (r : Reg) (span : Span) :
    (env.storeName name r span).Owns H fun _ H' => H' = H := by
  unfold storeName
  refine .given fun sym hsym => ?_
  cases sym with
  | global g => exact .seq (.record (by simp [Op.def?])) fun _ => .record (by simp [Op.def?])
  | stack v =>
    have hframe : (env.frameOf v.func span).Owns H fun _ H' => H' = H :=
      (frameOf_drawn (E := False) (·.sees_stack hsym)).owns (Scene.held_holding H)
        fun _ _ h => h.2 ▸ Scene.held_holding H
    exact .seq hframe fun _ => .record (by simp [Op.def?])
  | cls _ | func _ | attr _ => exact .fail _

theorem expr_owns (env : Env) (e : Expr) (H : List Nat) :
    (env.expr e).Owns H fun r H' => ∃ t, r = .virt t ∧ H' = t :: H := by
  refine ((exprs_drawn env False.elim).1 e False.elim (Scene.holding H)).owns
    (Scene.held_holding H) ?_
  rintro _ _ ⟨t, rfl, rfl⟩
  exact ⟨t, rfl, congrArg (t :: ·) (Scene.held_holding H)⟩

/-- The code of an assignment target writes no temporary from before it, the value that it stores
least of all. -/
theorem store_owns (target : Expr) (r : Reg) :
    (env.store target r).Owns H fun _ H' => H' = H := by
  unfold store
  split
  · exact storeName_owns _ r _
  · exact .temp (expr_owns env _ H) fun o => .seq (.record (by simp [Op.def?])) fun _ =>
      .given fun a _ => .seq (.record (by simp [Op.def?])) fun _ => .release o
  · refine .temp (expr_owns env _ H) fun s => .seq (.record (by simp [Op.def?])) fun _ =>
      .temp (expr_owns env _ _) fun k => .seq (.seq (.record ?_) fun _ => .record ?_) fun _ =>
      .seq (.seq (.record ?_) fun _ => .record ?_) fun _ => .seq (.record ?_) fun _ =>
      .seq (.release k) fun _ => .release s
    all_goals simp [Op.def?]
  · exact .fail _

theorem assignAll_owns (type : ValueType) (r : Reg) :
    ∀ targets : List Expr, (env.assignAll type r targets).Owns H fun _ H' => H' = H
  | [] => fun s s' evs a hy => by
    obtain ⟨rfl, rfl, -⟩ := Draft.yields_pure_iff.mp hy
    exact ⟨H, rfl, .nil⟩
  | target :: rest => by
    rw [assignAll]
    refine .given fun dst _ => ?_
    split
    · have htake : (Draft.take "AssignStmt" target.span).Owns H
          fun r H' => ∃ t, r = .virt t ∧ H' = t :: H := by
        intro s s' evs a hy
        obtain ⟨rfl, rfl, rfl⟩ := Draft.yields_take_iff.mp hy
        exact ⟨_, ⟨_, rfl, rfl⟩, .take .nil⟩
      refine .temp htake fun boxed => .seq (.record (by simp [Op.def?])) fun _ => ?_
      have hcoerce : (env.coerce (.virt boxed) type dst).Owns (boxed :: H)
          fun _ H' => H' = boxed :: H :=
        (coerce_drawn (E := False) _ _ (by simp [Scene.holding, Draft.Context.filled])).owns
          (Scene.held_holding _) fun _ _ h => h ▸ Scene.held_holding _
      exact .seq hcoerce fun _ => .seq (store_owns target _) fun _ => .seq (.release boxed) fun _ =>
        assignAll_owns type r rest
    · exact .seq (store_owns target r) fun _ => assignAll_owns type r rest

/-- Statements, blocks and the arguments of a call release whatever they take. -/
theorem stmts_own (env : Env) :
    (∀ c, (env.stmt c).Owns [] fun _ H' => H' = []) ∧
      (∀ body, (env.block body).Owns [] fun _ H' => H' = []) ∧
      ∀ k params args, (env.args k params args).Owns [] fun _ H' => H' = [] := by
  have keeps {x : Draft .virtual Unit} {σ : Scene} (hσ : σ.held = []) (h :
    Draft.Restores env False σ x) :
      x.Owns [] fun _ H' => H' = [] := h.owns hσ fun _ _ h => h ▸ hσ
  refine ⟨fun c => ?_, fun body => ?_, fun k params args => ?_⟩
  · exact keeps rfl ((stmts_drawn env False.elim).1 c False.elim _ Scene.forStmt_unit)
  · exact keeps rfl ((stmts_drawn env False.elim).2 body False.elim _ Scene.forStmt_unit)
  · exact keeps (σ := Scene.reserve {} _) rfl
      ((exprs_drawn env False.elim).2.2 k params args False.elim {} _ le_rfl)

end Env

end ChocoRV
