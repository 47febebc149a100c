import Mathlib
import ChocoRV.Proofs.Call.Units
import ChocoRV.Proofs.Draft.Modes

/-!
# The least pool for a program

In the direct mode a program needs as many registers as the temporaries that one of its units holds
at once. `Supply.run_eq_of_peak_le` says that a pool of that size or a larger one makes no
difference to the code, `Supply.run_exhausts` that a smaller one runs dry, and `pool_threshold` both
of whole programs.
-/

namespace ChocoRV

namespace Event

/-- How many temporaries are held after an event, if `held` are before it. -/
def heldAfter (held : Nat) : Event → Nat
  | .item _ => held
  | .take .. => held + 1
  | .release _ => held - 1

/-- The largest number of temporaries held at once while events are gone through, if `held` are at
their beginning. -/
def peak (held : Nat) : List Event → Nat
  | [] => held
  | e :: rest => max held (peak (e.heldAfter held) rest)

theorem le_peak (held : Nat) (evs : List Event) : held ≤ peak held evs := by
  cases evs with
  | nil => exact Nat.le_refl _
  | cons e rest => exact Nat.le_max_left ..

theorem peak_item (held : Nat) (i : Item) (rest : List Event) :
    peak held (.item i :: rest) = peak held rest :=
  max_eq_right (le_peak held rest)

theorem peak_take (held t : Nat) (what : String) (span : Span) (rest : List Event) :
    peak held (.take t what span :: rest) = peak (held + 1) rest :=
  max_eq_right ((Nat.le_succ held).trans (le_peak (held + 1) rest))

theorem peak_release (held t : Nat) (rest : List Event) :
    peak (held + 1) (.release t :: rest) = max (held + 1) (peak held rest) :=
  rfl

end Event

/-- The computation ends because no register is left for a temporary. -/
def Exhausts {α : Type} (x : Except CompileError α) : Prop :=
  ∃ what span, x = .error (.poolExhausted what span)

theorem Exhausts.bind {α β : Type} {x : Except CompileError α} (h : Exhausts x)
    (f : α → Except CompileError β) : Exhausts (x >>= f) := by
  obtain ⟨what, span, rfl⟩ := h
  exact ⟨what, span, rfl⟩

theorem Exhausts.map {α β : Type} {x : Except CompileError α} (h : Exhausts x) (f : α → β) :
    Exhausts (x.map f) := by
  obtain ⟨what, span, rfl⟩ := h
  exact ⟨what, span, rfl⟩

namespace Supply

open Event (peak)

variable {P Q : List PhysReg} {n n' N : Nat} {H H' : List Nat} {evs : List Event} {s final : Supply}
  {items : List Item}

/-- The slot of a temporary that is held. -/
theorem Stacked.slot_of_mem (hs : s.Stacked n H) {t : Nat} (ht : t ∈ H) :
    ∃ k < H.length, s.slots.lookup t = some k := by
  obtain ⟨above, below, rfl⟩ := List.append_of_mem ht
  refine ⟨below.length, ?_, hs.slot t below (List.suffix_append above _)⟩
  simp only [List.length_append, List.length_cons]
  omega

theorem getElem?_eq_of_take_eq (hPQ : P.take N = Q.take N) {k : Nat} (hk : k < N) :
    P[k]? = Q[k]? := by
  rw [← List.getElem?_take_of_lt hk, hPQ, List.getElem?_take_of_lt hk]

/-- An instruction over held temporaries does not show what the pool has beyond their slots. -/
theorem Stacked.item_eq (hs : s.Stacked n H) (hN : H.length ≤ N) (hPQ : P.take N = Q.take N)
    {i : Instr} (held : ∀ t ∈ i.op.virts, t ∈ H) :
    s.item P (.instr i) = s.item Q (.instr i) := by
  have hreg : ∀ r ∈ i.op.regs, s.reg P r = s.reg Q r := by
    intro r hr
    cases r with
    | phys p => rfl
    | virt t =>
      obtain ⟨k, hk, hslot⟩ := hs.slot_of_mem (held t (Op.mem_virts_iff.mpr hr))
      have hget : P[k]? = Q[k]? := getElem?_eq_of_take_eq hPQ (by omega)
      simp only [reg, hslot, Option.bind_some, hget]
  show Item.instr _ = Item.instr _
  rw [Op.mapRegs_congr (fun r hr => hreg r (List.mem_append_right _ hr)) fun r hr =>
    hreg r (List.mem_append_left _ (Option.mem_toList.mpr hr))]

/-- **Enough registers.** Two pools with the same first `N` registers make the same code of events
that never hold more than `N` temporaries. -/
theorem run_eq_of_peak_le (h : Nested n H evs n' H') (hs : s.Stacked n H)
    (hN : peak H.length evs ≤ N) (hP : N ≤ P.length) (hQ : N ≤ Q.length)
    (hPQ : P.take N = Q.take N) : run P s evs = run Q s evs := by
  induction h generalizing s with
  | nil => rfl
  | label _ ih =>
    rw [Event.peak_item] at hN
    rw [run, run, ih hs hN]
    rfl
  | instr held _ ih =>
    rw [Event.peak_item] at hN
    rw [run, run, ih hs hN, hs.item_eq ((Event.le_peak _ _).trans hN) hPQ held]
  | take _ ih =>
    rw [Event.peak_take] at hN
    have hlt := (Event.le_peak _ _).trans hN
    rw [run, run, hs.free?_eq, hs.free?_eq, if_pos (by omega), if_pos (by omega)]
    exact ih hs.take hN
  | release _ ih =>
    rw [List.length_cons, Event.peak_release] at hN
    rw [run, run]
    exact ih hs.release ((Nat.le_max_right _ _).trans hN)

/-- **Too few registers.** The pool runs dry where events hold more temporaries than it has
registers. -/
theorem run_exhausts (h : Nested n H evs n' H') (hs : s.Stacked n H) (hheld : H.length ≤ P.length)
    (hlt : P.length < peak H.length evs) : Exhausts (run P s evs) := by
  induction h generalizing s with
  | nil => exact absurd hlt (Nat.not_lt.mpr hheld)
  | label _ ih | instr _ _ ih =>
    rw [Event.peak_item] at hlt
    rw [run]
    exact (ih hs hheld hlt).bind _
  | @take _ _ H _ what span _ _ ih =>
    rw [Event.peak_take] at hlt
    rw [run, hs.free?_eq]
    by_cases hroom : H.length < P.length
    · rw [if_pos hroom]
      exact ih hs.take hroom hlt
    · rw [if_neg hroom]
      exact ⟨what, span, rfl⟩
  | release _ ih =>
    rw [List.length_cons] at hheld hlt
    rw [Event.peak_release] at hlt
    rw [run]
    -- The pool suffices for what is held here, so it runs dry after the release.
    rcases lt_max_iff.mp hlt with hlt | hlt
    · exact absurd hlt (Nat.not_lt.mpr hheld)
    · exact ih hs.release (Nat.le_of_succ_le hheld) hlt

/-- The slots that come into use lie below the number of temporaries held at once. -/
theorem run_touched (h : Nested n H evs n' H') (hs : s.Stacked n H)
    (hr : run P s evs = .ok (items, final)) {k : Nat} (hk : k ∈ final.touched) :
    k ∈ s.touched ∨ k < peak H.length evs := by
  induction h generalizing s items with
  | nil =>
    obtain ⟨-, rfl⟩ := Prod.mk.inj (Except.ok.inj hr)
    exact .inl hk
  | label _ ih | instr _ _ ih =>
    obtain ⟨rest, hr, -⟩ := run_item_eq_ok hr
    rw [Event.peak_item]
    exact ih hs hr
  | @take _ _ H _ _ _ evs _ ih =>
    obtain ⟨-, hr⟩ := run_take_eq_ok hs hr
    rw [Event.peak_take]
    rcases ih hs.take hr with h | h
    · have hcons : k = H.length ∨ k ∈ s.touched := by
        rw [take] at h
        split at h
        · exact .inr h
        · exact List.mem_cons.mp h
      rcases hcons with rfl | h
      · exact .inr (Event.le_peak (H.length + 1) evs)
      · exact .inl h
    · exact .inr h
  | @release _ _ t _ _ _ _ ih =>
    have htouched : (s.release t).touched = s.touched := by
      rw [release]
      split <;> rfl
    rw [← htouched, List.length_cons, Event.peak_release]
    exact (ih hs.release hr).imp_right fun h => h.trans_le (Nat.le_max_right _ _)

/-- The registers that have been in use are the same for two pools with the same first registers. -/
theorem used_eq_of_take_eq (ht : ∀ k ∈ s.touched, k < N) (hPQ : P.take N = Q.take N) :
    s.used P = s.used Q := by
  have hcut (pool : List PhysReg) : s.used pool = s.used (pool.take N) := by
    have hrest : ((pool.drop N).zipIdx (pool.take N).length).filter
        (fun x => s.touched.contains x.2) = [] := by
      refine List.filter_eq_nil_iff.mpr fun x hx hcontains => ?_
      have hlt := ht x.2 (List.contains_iff_mem.mp hcontains)
      have hge : (pool.take N).length ≤ x.2 := List.le_snd_of_mem_zipIdx hx
      have hne : (pool.drop N).length ≠ 0 := by
        intro h
        rw [List.length_eq_zero_iff.mp h] at hx
        exact absurd hx List.not_mem_nil
      rw [List.length_drop] at hne
      rw [List.length_take] at hge
      omega
    conv_lhs => rw [used, ← List.take_append_drop N pool, List.zipIdx_append, List.filter_append,
      Nat.zero_add]
    rw [hrest, List.append_nil]
    rfl
  rw [hcut P, hPQ, ← hcut Q]

end Supply

/-! ## Units -/

namespace CodegenSettings

variable {n N : Nat}

/-- A pool of at least `N` registers begins with the first `N` that there are. -/
theorem take_pool (comments : Bool) (hN : N ≤ maxPoolSize) (hn : N ≤ n) :
    N ≤ (pool (direct comments n)).length ∧
      (pool (direct comments n)).take N = PhysReg.allocatable.take N := by
  have hle : N ≤ effectivePoolSize (direct comments n) := le_min hn hN
  refine ⟨?_, ?_⟩
  · rw [pool, List.length_take]
    exact le_min hle hN
  · rw [pool, List.take_take, min_eq_left hle]

theorem length_pool_le (comments : Bool) (n : Nat) : (pool (direct comments n)).length ≤ n := by
  rw [pool, List.length_take]
  exact (Nat.min_le_left _ _).trans (Nat.min_le_left _ _)

end CodegenSettings

variable {settings : CodegenSettings}

namespace Function

variable {table : SymbolTable} {comments : Bool} {body : List Stmt} {pool : ConstantPool}
  {u : Option Nat} {d : Draft.Result Unit} {n N : Nat}

/-- A pool that suffices for a draft makes the same body of it as all registers together. -/
theorem bodyOf_direct_eq (hd : Nested 0 [] d.events d.state.temps [])
    (hpeak : Event.peak 0 d.events ≤ N) (hN : N ≤ CodegenSettings.maxPoolSize) (hn : N ≤ n) :
    bodyOf (direct comments n) table u d =
      bodyOf (direct comments CodegenSettings.maxPoolSize) table u d := by
  obtain ⟨hP, htakeP⟩ := CodegenSettings.take_pool comments hN hn
  obtain ⟨hQ, htakeQ⟩ := CodegenSettings.take_pool comments hN hN
  have hPQ := htakeP.trans htakeQ.symm
  have hrun := Supply.run_eq_of_peak_le hd Supply.stacked_init hpeak hP hQ hPQ
  show (Supply.run _ {} d.events >>= _) = (Supply.run _ {} d.events >>= _)
  rw [hrun]
  cases hr : Supply.run (direct comments CodegenSettings.maxPoolSize).pool {} d.events with
  | error e => rfl
  | ok result =>
    obtain ⟨items, final⟩ := result
    have htouched : ∀ k ∈ final.touched, k < N := by
      intro k hk
      rcases Supply.run_touched hd Supply.stacked_init hr hk with h | h
      · exact absurd h List.not_mem_nil
      · exact h.trans_le hpeak
    show (d.value >>= fun _ => Except.ok (Body.mk items 0 _)) =
      (d.value >>= fun _ => Except.ok (Body.mk items 0 _))
    rw [Supply.used_eq_of_take_eq htouched hPQ]

/-- A pool that is too small for a draft makes no body of it. -/
theorem bodyOf_direct_exhausts (hd : Nested 0 [] d.events d.state.temps [])
    (hlt : n < Event.peak 0 d.events) : Exhausts (bodyOf (direct comments n) table u d) := by
  have hlen := CodegenSettings.length_pool_le comments n
  exact (Supply.run_exhausts hd Supply.stacked_init (Nat.zero_le _) (hlen.trans_lt hlt)).bind _

/-- The body of a unit that has one in the direct mode tells how much its draft holds at most. -/
theorem peak_le_of_bodyOf {b : Body} (hd : Nested 0 [] d.events d.state.temps [])
    (h : bodyOf (direct comments n) table u d = .ok b) : Event.peak 0 d.events ≤ n := by
  refine Nat.not_lt.mp fun hlt => ?_
  have hex : Exhausts (bodyOf (direct comments n) table u d) := bodyOf_direct_exhausts hd hlt
  obtain ⟨what, span, he⟩ := hex
  rw [h] at he
  cases he

/-- The functions of a program are not lowered if one of them has too few registers and no other
error comes before that. -/
theorem all_exhausts (body : List Stmt) : ∀ {ids : List Nat} {pool : ConstantPool},
      (∀ ud ∈ drafts table settings.comments body (ids.map some) pool,
        (∃ b, bodyOf settings table ud.1 ud.2 = .ok b) ∨
        Exhausts (bodyOf settings table ud.1 ud.2)) →
      (∃ ud ∈ drafts table settings.comments body (ids.map some) pool,
        Exhausts (bodyOf settings table ud.1 ud.2)) →
      Exhausts (all settings table ids pool)
  | [], _, _, h => by
    obtain ⟨ud, hud, -⟩ := h
    exact absurd hud List.not_mem_nil
  | id :: ids, pool, hall, h => by
    rw [List.map_cons, drafts, draftsIn, List.forall_mem_cons] at hall
    obtain ⟨⟨b, hb⟩ | hfirst, hall⟩ := hall
    · -- The first function is lowered, so the one that is not comes after it.
      show Exhausts (func settings table id pool >>= _)
      rw [func_of_body body hb]
      refine (all_exhausts body hall ?_).bind _
      obtain ⟨ud, hud, hex⟩ := h
      rcases List.mem_cons.mp hud with rfl | hud
      · obtain ⟨what, span, he⟩ := hex
        rw [hb] at he
        cases he
      · exact ⟨ud, hud, hex⟩
    · have hfunc : Exhausts (func settings table id pool) := by
        rw [func_eq settings table body]
        exact hfirst.map _
      exact hfunc.bind _

end Function

/-! ## Programs -/

variable {table : SymbolTable}

/-- A program is not lowered if one of its units has too few registers and no other error comes
before that. -/
theorem lower_exhausts {p : Program} (ht : SymbolTable.ofProgram p = .ok table)
    (hall : ∀ ud ∈ Function.programDrafts p settings.comments table,
      (∃ b, Function.bodyOf settings table ud.1 ud.2 = .ok b) ∨
        Exhausts (Function.bodyOf settings table ud.1 ud.2))
    (h : ∃ ud ∈ Function.programDrafts p settings.comments table,
      Exhausts (Function.bodyOf settings table ud.1 ud.2)) : Exhausts (lower p settings) := by
  show Exhausts (SymbolTable.ofProgram p >>= _)
  rw [ht]
  show Exhausts (Function.topLevel settings table p.body {} >>= _)
  rw [Function.programDrafts, Function.units, Function.drafts, Function.draftsIn] at hall h
  rw [List.forall_mem_cons] at hall
  obtain ⟨⟨b, hb⟩ | hfirst, hall⟩ := hall
  · rw [Function.topLevel_of_body hb]
    refine (Function.all_exhausts p.body hall ?_).bind _
    obtain ⟨ud, hud, hex⟩ := h
    rcases List.mem_cons.mp hud with rfl | hud
    · obtain ⟨what, span, he⟩ := hex
      rw [hb] at he
      cases he
    · exact ⟨ud, hud, hex⟩
  · have htop : Exhausts (Function.topLevel settings table p.body {}) := by
      rw [Function.topLevel_eq]
      exact hfirst.map _
    exact htop.bind _

/-- The number of registers that a program with symbol table `table` needs in the direct mode: the
largest number of temporaries that one of its units holds at once. -/
def registerDemand (p : Program) (comments : Bool) (table : SymbolTable) : Nat :=
  ((Function.programDrafts p comments table).map fun ud => Event.peak 0 ud.2.events).foldr max 0

theorem peak_le_registerDemand {p : Program} {comments : Bool} {ud : Option Nat × Draft.Result Unit}
    (hud : ud ∈ Function.programDrafts p comments table) :
    Event.peak 0 ud.2.events ≤ registerDemand p comments table :=
  List.le_max_of_le (List.mem_map_of_mem hud) (Nat.le_refl _)

/-- A smaller number is exceeded by the demand of some unit. -/
theorem exists_lt_peak {p : Program} {comments : Bool} {n : Nat}
    (hn : n < registerDemand p comments table) :
    ∃ ud ∈ Function.programDrafts p comments table, n < Event.peak 0 ud.2.events := by
  by_contra hnone
  push Not at hnone
  refine Nat.not_le.mpr hn (List.max_le_of_forall_le _ _ fun k hk => ?_)
  obtain ⟨ud, hud, rfl⟩ := List.mem_map.mp hk
  exact hnone ud hud

/-- The bodies of its units determine what a program is lowered to. -/
theorem lower_eq_of_bodies {p : Program} {bs : List Body} (ht : SymbolTable.ofProgram p = .ok table)
    (hbs : List.Forall₂ (fun (ud : Option Nat × Draft.Result Unit) b =>
      Function.bodyOf settings table ud.1 ud.2 = .ok b)
      (Function.programDrafts p settings.comments table) bs) : lower p settings = .ok (table,
      (List.zipWith (fun ud b => Function.wrap table ud.1 b)
        (Function.programDrafts p settings.comments table) bs).flatten,
      Function.poolAfter {} (Function.programDrafts p settings.comments table)) := by
  obtain ⟨text, pool, hl⟩ := lower_of_bodies ht hbs
  obtain ⟨-, rfl, bs', hbs', rfl⟩ := lower_eq_ok hl
  obtain rfl : bs' = bs :=
    Except.ok.inj ((mapM_eq_ok_iff.mpr hbs').symm.trans (mapM_eq_ok_iff.mpr hbs))
  exact hl

/-- **The least pool.** If the direct mode compiles a program with all eleven registers, then it
does so with any pool of at least as many registers as a unit of the program holds temporaries at
once, and the assembly is the same. A smaller pool runs dry. -/
theorem pool_threshold {p : Program} {comments : Bool} {a : Assembly}
    (h : compile p (direct comments 11) = .ok a) :
    ∃ table, SymbolTable.ofProgram p = .ok table ∧ registerDemand p comments table ≤ 11 ∧
      (∀ n < registerDemand p comments table, Exhausts (compile p (direct comments n))) ∧
      ∀ n, registerDemand p comments table ≤ n → compile p (direct comments n) = .ok a := by
  have hcompile := h
  rw [compile_eq_lower] at h
  obtain ⟨⟨table, text, pool⟩, hl, -⟩ := bind_eq_ok_iff.mp h
  obtain ⟨ht, -, bodies, hbodies, -⟩ := lower_eq_ok hl
  have hok : ∀ ud ∈ Function.programDrafts p comments table,
      ∃ b, Function.bodyOf (direct comments 11) table ud.1 ud.2 = .ok b :=
    mapM_ok_iff.mp ⟨bodies, mapM_eq_ok_iff.mpr hbodies⟩
  have hnested : ∀ ud ∈ Function.programDrafts p comments table,
      Nested 0 [] ud.2.events ud.2.state.temps [] := by
    intro ud hud
    obtain ⟨b, hb⟩ := hok ud hud
    have hvalue := (Body.ofDraft_labels hb).1
    obtain ⟨pool', hd⟩ := Function.mem_drafts hud
    rw [hd] at hvalue ⊢
    exact (Function.draftOf_traced hvalue).nested
  have hdemand : registerDemand p comments table ≤ 11 := by
    refine Nat.not_lt.mp fun hlt => ?_
    obtain ⟨ud, hud, hpeak⟩ := exists_lt_peak hlt
    obtain ⟨b, hb⟩ := hok ud hud
    exact Nat.not_le.mpr hpeak (Function.peak_le_of_bodyOf (hnested ud hud) hb)
  -- From the demand on every unit has the body that all registers together give it.
  have hsame : ∀ n, registerDemand p comments table ≤ n →
      ∀ ud ∈ Function.programDrafts p comments table,
        Function.bodyOf (direct comments n) table ud.1 ud.2 =
          Function.bodyOf (direct comments 11) table ud.1 ud.2 := fun n hn ud hud =>
    Function.bodyOf_direct_eq (hnested ud hud) (peak_le_registerDemand hud) hdemand hn
  refine ⟨table, ht, hdemand, fun n hn => ?_, fun n hn => ?_⟩
  · rw [compile_eq_lower]
    refine (lower_exhausts ht (fun ud hud => ?_) ?_).bind _
    · by_cases hpeak : n < Event.peak 0 ud.2.events
      · exact .inr (Function.bodyOf_direct_exhausts (hnested ud hud) hpeak)
      · obtain ⟨b, hb⟩ := hok ud hud
        have hle : Event.peak 0 ud.2.events ≤ 11 := (peak_le_registerDemand hud).trans hdemand
        refine .inl ⟨b, ?_⟩
        rw [← hb]
        exact Function.bodyOf_direct_eq (hnested ud hud) (Nat.le_refl _) hle (Nat.not_lt.mp hpeak)
    · obtain ⟨ud, hud, hpeak⟩ := exists_lt_peak hn
      exact ⟨ud, hud, Function.bodyOf_direct_exhausts (hnested ud hud) hpeak⟩
  · have hbodies' : List.Forall₂ (fun (ud : Option Nat × Draft.Result Unit) b =>
        Function.bodyOf (direct comments n) table ud.1 ud.2 = .ok b)
        (Function.programDrafts p comments table) bodies := by
      refine ((List.forall₂_and_left _ _).mpr ⟨fun _ hud => hud, hbodies⟩).imp ?_
      rintro ud b ⟨hud, hb⟩
      rw [hsame n hn ud hud]
      exact hb
    have hlower : lower p (direct comments n) = lower p (direct comments 11) :=
      (lower_eq_of_bodies ht hbodies').trans (lower_eq_of_bodies ht hbodies).symm
    rw [compile_eq_lower, hlower, ← compile_eq_lower]
    exact hcompile

/-- The assignment `n = f(n) + (n - 2)` needs three registers: two do not suffice, and forty make no
difference. -/
theorem nestedSums_pool_threshold :
    ∃ a table, compile nestedSums (direct true 11) = .ok a ∧
      SymbolTable.ofProgram nestedSums = .ok table ∧ registerDemand nestedSums true table = 3 ∧
      Exhausts (compile nestedSums (direct true 2)) ∧
      compile nestedSums (direct true 3) = .ok a ∧ compile nestedSums (direct true 40) = .ok a := by
  have hok : (compile nestedSums (direct true 11)).toOption.isSome = true := by decide +kernel
  have hthree : (SymbolTable.ofProgram nestedSums).toOption.map (registerDemand nestedSums true) =
      some 3 := by decide +kernel
  obtain ⟨a, ha⟩ := Option.isSome_iff_exists.mp hok
  have ha := toOption_eq_some_iff.mp ha
  obtain ⟨table, ht, -, hlow, hhigh⟩ := pool_threshold ha
  have hdemand : registerDemand nestedSums true table = 3 := by
    rw [ht] at hthree
    exact Option.some.inj hthree
  rw [hdemand] at hlow hhigh
  exact ⟨a, table, ha, ht, hdemand, hlow 2 (by decide), hhigh 3 (by decide), hhigh 40 (by decide)⟩

end ChocoRV
