import Mathlib
import ChocoRV.Proofs.Alloc.Agree
import ChocoRV.Proofs.Alloc.Expand
import ChocoRV.Proofs.Machine.Walk

/-!
# Loading operands

Before an operation, loads bring its spilled operands into scratch registers, one register for each
of them. After that every operand of the operation has the value of its temporary, and nothing but
scratch registers has changed.
-/

namespace ChocoRV

open Assembly Image

/-- A register that holds no temporary and is not the frame pointer. -/
def Reg.isPassing : Reg → Bool
  | .phys p => p ∉ PhysReg.allocatable && p != .fp
  | .virt _ => false

/-- Anything but a scratch register. -/
def Reg.isSteady : Reg → Bool
  | .phys p => p ∉ PhysReg.scratch
  | .virt _ => true

namespace Assignment

/-- The frame words of temporaries are at valid addresses. -/
def ValidSlots (asg : Assignment) (frame : Int32) : Prop :=
  ∀ (v : Nat) (o : Int32), asg[v]? = some (.spill o) → State.nullPage ≤ (frame + o).toUInt32

/-- What an operand stands for: a register for itself, a temporary for what its location holds. -/
def read (asg : Assignment) (s : State) : Reg → Int32
  | .phys p => s.reg (.phys p)
  | .virt v =>
    match asg[v]? with
    | some loc => loc.value s
    | none => s.reg (.virt v)

variable {asg : Assignment} {pool : List PhysReg} {frame : Int32} {s s' : State}

theorem read_of_none {v : Nat} (h : asg[v]? = none) (s : State) :
    asg.read s (.virt v) = s.reg (.virt v) := by
  simp only [read, h]

theorem read_of_some {v : Nat} {loc : Location} (h : asg[v]? = some loc) (s : State) :
    asg.read s (.virt v) = loc.value s := by
  simp only [read, h]

/-- Temporaries keep their values while other registers change. -/
theorem read_of_differs (w : asg.WellPlaced pool) {rs : List Reg}
    (hrs : rs.all Reg.isPassing = true) (h : s.Differs rs s')
    (v : Nat) : asg.read s' (.virt v) = asg.read s (.virt v) := by
  rw [List.all_eq_true] at hrs
  have hnot {r : Reg} (hr : r.isPassing = false) : s'.reg r = s.reg r := by
    refine h.regs r fun hmem => ?_
    rw [hrs r hmem] at hr
    cases hr
  cases hloc : asg[v]? with
  | none =>
    rw [read_of_none hloc, read_of_none hloc]
    exact hnot rfl
  | some loc =>
    rw [read_of_some hloc, read_of_some hloc]
    cases loc with
    | reg p => exact hnot (by simp [Reg.isPassing, w.allocatable p (w.reg hloc)])
    | spill o =>
      show s'.memory.readWord (s'.addrOf .fp o) = s.memory.readWord (s.addrOf .fp o)
      rw [State.addrOf, State.addrOf, hnot rfl, h.memory]

theorem spillOf?_eq_some_iff {v : Nat} {o : Int32} :
    asg.spillOf? v = some o ↔ asg[v]? = some (.spill o) := by
  unfold spillOf?
  split <;> simp_all

/-! ## The loads of an operation -/

theorem length_eraseDups_le (vs : List Nat) : vs.eraseDups.length ≤ vs.length := by
  match vs with
  | [] => exact Nat.le_refl _
  | v :: vs =>
    have hrest := length_eraseDups_le (vs.filter fun u => !u == v)
    have hfilter := List.length_filter_le (fun u => !u == v) vs
    rw [List.eraseDups_cons, List.length_cons, List.length_cons]
    omega
termination_by vs.length
decreasing_by exact Nat.lt_succ_of_le (List.length_filter_le _ _)

theorem map_snd_zip_sublist {α β : Type} (xs : List α) (ys : List β) :
    ((xs.zip ys).map (·.2)).Sublist ys := by
  induction xs generalizing ys with
  | nil => exact List.nil_sublist ys
  | cons x xs ih =>
    cases ys with
    | nil => exact List.Sublist.refl _
    | cons y ys => exact (ih ys).cons_cons y

/-- A spilled temporary that an operation reads is among the loaded ones: an operation reads two
registers at most, and there are two scratch registers. -/
theorem mem_reloads {o : Op Label} {v : Nat} (hv : v ∈ o.virtUses)
    (hs : (asg.spillOf? v).isSome) : v ∈ (asg.reloads o).map (·.1) := by
  -- The zip of temporaries and scratch registers cuts nothing off.
  have hlen : (o.virtUses.filter fun v => (asg.spillOf? v).isSome).eraseDups.length ≤
      PhysReg.scratch.length := by
    calc _ ≤ (o.virtUses.filter fun v => (asg.spillOf? v).isSome).length :=
          length_eraseDups_le _
      _ ≤ o.virtUses.length := List.length_filter_le _ _
      _ ≤ o.uses.length := List.length_filterMap_le _ _
      _ ≤ 2 := o.length_uses_le
  rw [reloads, List.map_fst_zip hlen, List.mem_eraseDups, List.mem_filter]
  exact ⟨hv, hs⟩

/-- The loads of an operation use each scratch register once. -/
theorem nodup_reloads (asg : Assignment) (o : Op Label) : ((asg.reloads o).map (·.2)).Nodup :=
  (map_snd_zip_sublist _ _).nodup (by decide)

theorem of_mem_reloads {o : Op Label} {e : Nat × PhysReg} (h : e ∈ asg.reloads o) :
    e.1 ∈ o.virtUses ∧ (asg.spillOf? e.1).isSome ∧ e.2 ∈ PhysReg.scratch := by
  obtain ⟨hv, hp⟩ := List.of_mem_zip h
  rw [List.mem_eraseDups, List.mem_filter] at hv
  exact ⟨hv.1, hv.2, hp⟩

theorem length_instrs_reloads (asg : Assignment) (entries : List (Nat × PhysReg)) :
    (instrs (entries.map asg.reloadItem)).length = entries.length := by
  induction entries with
  | nil => rfl
  | cons e entries ih => exact congrArg (· + 1) ih

/-- The operand that a spilled temporary becomes is the register into which it is loaded. -/
theorem source_of_spill {o : Op Label} {v : Nat} {off : Int32} (hv : v ∈ o.virtUses)
    (hloc : asg[v]? = some (.spill off)) :
    ∃ p, (v, p) ∈ asg.reloads o ∧ asg.source (asg.reloads o) (.virt v) = .phys p := by
  have hs : (asg.spillOf? v).isSome := by
    rw [spillOf?_eq_some_iff.mpr hloc]
    rfl
  obtain ⟨e, he, hev⟩ := List.mem_map.mp (mem_reloads hv hs)
  have hsome : ((asg.reloads o).lookup v).isSome :=
    List.lookup_isSome_iff.mpr ⟨e, he, beq_iff_eq.mpr hev.symm⟩
  obtain ⟨p, hp⟩ := Option.isSome_iff_exists.mp hsome
  obtain ⟨l, r, hsplit, -⟩ := List.lookup_eq_some_iff.mp hp
  refine ⟨p, ?_, by simp only [source, hloc, hp]⟩
  rw [hsplit]
  exact List.mem_append_right _ List.mem_cons_self

/-! ## Walks through loads -/

variable {img : Image} {inside : Nat → Prop} {clear : Addr → Prop} {k : Nat} {rest : List Item}

/-- Loads of spilled temporaries, each into a scratch register of its own. -/
theorem walk_reloads (w : asg.WellPlaced pool) (hfit : img.Unwrapped)
    (hvalid : asg.ValidSlots frame) (hslots : ∀ b, asg.Slots frame b → clear b)
    {entries : List (Nat × PhysReg)} (h : img.Holds inside k (entries.map asg.reloadItem ++ rest))
    (hpc : s.pc = pcOf k) (hfp : s.reg .fp = frame)
    (hentries : ∀ e ∈ entries, (asg.spillOf? e.1).isSome ∧ e.2 ∈ PhysReg.scratch)
    (hnodup : (entries.map (·.2)).Nodup) :
    ∃ t, Walk img (Safe img inside clear) entries.length s t ∧ t.pc = pcOf (k + entries.length) ∧
      s.Differs (entries.map fun e => .phys e.2) t ∧
      (∀ e ∈ entries, t.reg (.phys e.2) = asg.read s (.virt e.1)) ∧
      img.Holds inside (k + entries.length) rest := by
  induction entries generalizing k s with
  | nil => exact ⟨s, .refl s, hpc, ⟨fun _ _ => rfl, rfl, rfl, rfl⟩, List.forall_mem_nil _, h⟩
  | cons e entries ih =>
    rw [List.forall_mem_cons] at hentries
    rw [List.map_cons, List.nodup_cons] at hnodup
    obtain ⟨⟨hspill, hscratch⟩, hentries⟩ := hentries
    obtain ⟨o, ho⟩ := Option.isSome_iff_exists.mp hspill
    have hloc := spillOf?_eq_some_iff.mp ho
    rw [List.map_cons, List.cons_append, reloadItem, ho] at h
    have haddr : s.addrOf .fp o = (frame + o).toUInt32 := by rw [State.addrOf, hfp]
    have hw : Walk img (Safe img inside clear) 1 s
        (s.put (.phys e.2) (s.memory.readWord (s.addrOf .fp o))) := by
      refine h.walk_lw hfit (haddr ▸ hvalid e.1 o hloc) (fun b hb => hslots b ?_) hpc
      exact ⟨e.1, o, hloc, haddr ▸ hb⟩
    -- A scratch register holds no temporary, so the loads that follow read what they would have.
    have hother : ∀ q ∈ PhysReg.scratch, Reg.phys q ≠ .fp ∧ Reg.phys q ≠ .zero ∧
        (Reg.phys q).isPassing = true := by decide
    obtain ⟨hnefp, hnezero, hpassing⟩ := hother e.2 hscratch
    have hput : s.Differs [.phys e.2] (s.put (.phys e.2) (s.memory.readWord (s.addrOf .fp o))) :=
      .put List.mem_cons_self s _
    have hpc' : (s.put (.phys e.2) (s.memory.readWord (s.addrOf .fp o))).pc = pcOf (k + 1) := by
      rw [State.pc_put, hpc, pcOf_add_four]
    obtain ⟨t, hwalk, htpc, hdiffers, hloaded, hrest⟩ := ih h.2 hpc'
      ((s.reg_put_of_ne _ hnefp.symm).trans hfp) hentries hnodup.2
    rw [List.length_cons, Nat.add_comm entries.length 1, ← Nat.add_assoc]
    refine ⟨t, hw.trans hwalk, htpc, ?_, ?_, hrest⟩
    · refine State.Differs.trans (hput.mono ?_) (hdiffers.mono ?_)
      · simp
      · exact fun r hr => List.mem_cons_of_mem _ hr
    · rw [List.forall_mem_cons]
      refine ⟨?_, fun e' he' => ?_⟩
      · rw [hdiffers.regs, s.reg_put_self _ hnezero, read_of_some hloc]
        · rfl
        intro hmem
        obtain ⟨e', he', heq⟩ := List.mem_map.mp hmem
        exact hnodup.1 (List.mem_map.mpr ⟨e', he', Reg.phys.inj heq⟩)
      · rw [hloaded e' he']
        refine read_of_differs w ?_ hput e'.1
        rw [List.all_cons, hpassing]
        rfl

/-- After the loads every operand of an operation has its value. -/
theorem reg_source_of_loaded {o : Op Label} {t : State} (w : asg.WellPlaced pool)
    (hdiffers : s.Differs [.t5, .t6] t)
    (hloaded : ∀ e ∈ asg.reloads o, t.reg (.phys e.2) = asg.read s (.virt e.1))
    (huses : o.uses.all Reg.isSteady = true) {r : Reg} (hr : r ∈ o.uses) :
    t.reg (asg.source (asg.reloads o) r) = asg.read s r := by
  have hkeep {p : PhysReg} (hp : p ∉ PhysReg.scratch) : t.reg (.phys p) = s.reg (.phys p) := by
    refine hdiffers.regs _ fun hmem => hp ?_
    rcases List.mem_pair.mp hmem with heq | heq
    · cases heq
      decide
    · cases heq
      decide
  cases r with
  | phys p => exact hkeep (of_decide_eq_true (List.all_eq_true.mp huses _ hr))
  | virt v =>
    cases hloc : asg[v]? with
    | none =>
      -- Without a location a temporary stands for itself.
      rw [read_of_none hloc]
      simp only [source, hloc]
      exact hdiffers.regs _ (by simp)
    | some loc =>
      cases loc with
      | reg p =>
        have hall : ∀ p ∈ PhysReg.allocatable, p ∉ PhysReg.scratch := by decide
        rw [read_of_some hloc]
        simp only [source, hloc]
        exact hkeep (hall p (w.allocatable p (w.reg hloc)))
      | spill off =>
        obtain ⟨p, hp, hsource⟩ := source_of_spill (Op.mem_virtUses_iff.mpr hr) hloc
        rw [hsource, hloaded (v, p) hp]

end Assignment

end ChocoRV
