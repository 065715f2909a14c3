import RowAlgebra.Proofs.Expr.Undefined
import RowAlgebra.Proofs.Expr.Views
import RowAlgebra.Proofs.Manager.Tags
import RowAlgebra.Proofs.Workspace.Failure

/-!
# What keeps a result from being remembered

A result that has been computed is remembered together with its non-zero count and its sides. The
count is derived from what is scaled and transposed on the way down to a leaf, and on that way an
integer of more than 64 bits cannot be asked whether it is finite (`Expr.MeetsWide`). The expression
and its plan are written down before anything is computed, which needs room on the stack and no
integer of too many digits (`Expr.IsWritable`). The sides cannot be told if the rows of a range
cannot be counted. Nothing else keeps a manager from remembering what its library can compute
(`Managed.materialization_obstacles`); but these do (`Managed.wide_scaling_refused`).
-/

namespace RowAlgebra

variable {α : Type}

/-! ## Non-zero counts -/

namespace Scalar

theorem isFinite_wide {s : Scalar} (h : s.isWide = true) : s.isFinite = .error (.fault .type) := by
  cases s with
  | int n =>
    have hn : ¬ (-(2 ^ 63 : Int) ≤ n ∧ n < 2 ^ 64) := of_decide_eq_false (Bool.not_eq_true' _ ▸ h)
    rw [isFinite, if_neg hn]
  | _ => cases h

theorem isZero_wide {s : Scalar} (h : s.isWide = true) : s.isZero = false := by
  cases s with
  | int n =>
    rw [Bool.eq_false_iff]
    intro hzero
    have hmagnitude : Magnitude.ofInt n = .finite 0 := eq_of_beq hzero
    have hrat : (n : Rat) = (0 : Int) := Magnitude.finite.inj hmagnitude
    obtain rfl : n = 0 := Rat.intCast_inj.1 hrat
    cases h
  | _ => cases h

/-- Any other real number can be asked whether it is finite. -/
theorem isFinite_of_isReal {s : Scalar} (hreal : s.isReal = true) (h : s.isWide = false) :
    ∃ finite, s.isFinite = .ok finite := by
  cases s with
  | int n =>
    have hn : -(2 ^ 63 : Int) ≤ n ∧ n < 2 ^ 64 := by simpa [isWide] using h
    exact ⟨true, if_pos hn⟩
  | bool b => exact ⟨true, rfl⟩
  | float x => exact ⟨_, rfl⟩
  | absent | text => cases hreal

end Scalar

namespace UnaryOp

/-- Whether an operator scales by an integer of more than 64 bits. -/
def scalesWide : UnaryOp α → Bool
  | scalar .times s | scalar .divide s => s.isWide
  | _ => false

/-- An operator that scales so cannot say whether it keeps the non-zero cells. -/
theorem keepsNonZeros_wide {op : UnaryOp α} (h : op.scalesWide = true) :
    op.keepsNonZeros = .error (.fault .type) := by
  cases op with
  | scalar f s =>
    cases f with
    | times | divide =>
      have hs : s.isWide = true := h
      rw [keepsNonZeros, Scalar.isZero_wide hs, Scalar.isFinite_wide hs]
      rfl
    | _ => cases h
  | _ => cases h

/-- Any other operator on real numbers can say so. -/
theorem keepsNonZeros_of_real {op : UnaryOp α} (hreal : ∀ f s, op = .scalar f s → s.isReal = true)
    (h : op.scalesWide = false) : ∃ keeps, op.keepsNonZeros = .ok keeps := by
  cases op with
  | transpose | transposeAnyKey => exact ⟨true, rfl⟩
  | scalar f s =>
    cases f with
    | times | divide =>
      obtain ⟨finite, hfinite⟩ := Scalar.isFinite_of_isReal (hreal _ s rfl) h
      rw [keepsNonZeros, hfinite]
      split
      · exact ⟨false, rfl⟩
      · exact ⟨finite, rfl⟩
    | _ => exact ⟨false, rfl⟩
  | _ => exact ⟨false, rfl⟩

end UnaryOp

namespace Expr

/-- Whether `x` lies on the way from `e` down to a leaf on which non-zero counts are derived: all
operators above it keep the number of non-zero cells. -/
inductive CountsOn : Expr α → Expr α → Prop
  | self (e : Expr α) : CountsOn e e
  | through (i : NodeId) {op : UnaryOp α} {a x : Expr α} (hop : op.keepsNonZeros = .ok true)
      (h : CountsOn a x) : CountsOn (unary i op a) x

/-- Whether the derivation of a non-zero count meets an integer of more than 64 bits. -/
def MeetsWide (e : Expr α) : Prop :=
  ∃ i op a, CountsOn e (unary i op a) ∧ op.scalesWide = true

theorem MeetsWide.of_input {i : NodeId} {op : UnaryOp α} {a : Expr α} (h : a.MeetsWide)
    (hop : op.keepsNonZeros = .ok true) : (unary i op a).MeetsWide := by
  obtain ⟨j, op', b, hb, hw⟩ := h
  exact ⟨j, op', b, hb.through i hop, hw⟩

/-- Unless the operator itself scales so, an integer that is met comes from the input. -/
theorem MeetsWide.input {i : NodeId} {op : UnaryOp α} {a : Expr α} (h : (unary i op a).MeetsWide)
    (hop : op.scalesWide = false) : op.keepsNonZeros = .ok true ∧ a.MeetsWide := by
  obtain ⟨j, op', b, hb, hw⟩ := h
  cases hb with
  | self => exact absurd (hop.symm.trans hw) nofun
  | through _ hkeeps hb => exact ⟨hkeeps, j, op', b, hb, hw⟩

/-- What meets too wide an integer has no count, not even an unknown one. -/
theorem nonZeroCount_wide {e : Expr α} (h : e.MeetsWide) :
    e.nonZeroCount = .error (.fault .type) := by
  induction e with
  | checkpoint i c => obtain ⟨_, _, _, ⟨⟩, -⟩ := h
  | foreign i shape => obtain ⟨_, _, _, ⟨⟩, -⟩ := h
  | binary i op a b => obtain ⟨_, _, _, ⟨⟩, -⟩ := h
  | unary i op a ih =>
    cases hw : op.scalesWide with
    | true =>
      rw [nonZeroCount, UnaryOp.keepsNonZeros_wide hw]
      rfl
    | false =>
      obtain ⟨hkeeps, ha⟩ := h.input hw
      rw [nonZeroCount, hkeeps]
      exact ih ha

/-- Any other expression has a count, or an operator without a rule. -/
theorem nonZeroCount_of_real {e : Expr α}
    (hreal : ∀ f x, .scalar f x ∈ e.unaries → x.isReal = true) (h : ¬ e.MeetsWide) :
    Fails e.nonZeroCount fun error => ∃ t, error = .countUnsupported t := by
  induction e with
  | checkpoint i c => exact .ok _
  | foreign i shape => exact Ends.error ⟨_, rfl⟩
  | binary i op a b => exact Ends.error ⟨_, rfl⟩
  | unary i op a ih =>
    have hw : op.scalesWide = false := by
      cases hw : op.scalesWide with
      | true => exact absurd ⟨i, op, a, .self _, hw⟩ h
      | false => rfl
    have hop : ∀ f x, op = .scalar f x → x.isReal = true := by
      rintro f x rfl
      exact hreal f x List.mem_cons_self
    obtain ⟨keeps, hkeeps⟩ := UnaryOp.keepsNonZeros_of_real hop hw
    rw [nonZeroCount, hkeeps]
    cases keeps with
    | false => exact Ends.error ⟨_, rfl⟩
    | true =>
      have ha : ¬ a.MeetsWide := fun ha => h (ha.of_input hkeeps)
      exact ih (fun f x hx => hreal f x (List.mem_cons_of_mem _ hx)) ha

theorem determineNonZeroCount_wide {e : Expr α} (h : e.MeetsWide) :
    e.determineNonZeroCount = .error (.fault .type) := by
  rw [determineNonZeroCount, nonZeroCount_wide h]

/-- An operator without a rule is no obstacle. -/
theorem determineNonZeroCount_of_real {e : Expr α}
    (hreal : ∀ f x, .scalar f x ∈ e.unaries → x.isReal = true) (h : ¬ e.MeetsWide) :
    ∃ count, e.determineNonZeroCount = .ok count := by
  have hends := nonZeroCount_of_real hreal h
  unfold determineNonZeroCount
  cases hcount : e.nonZeroCount with
  | ok count => exact ⟨count, rfl⟩
  | error error =>
    obtain ⟨t, rfl⟩ := hends.of_error hcount
    exact ⟨.unknown, rfl⟩

end Expr

/-! ## Announcements -/

/-- Whether an expression can be written down with so much room. -/
structure Expr.IsWritable (e : Expr α) (room : Nat) : Prop where
  height_le : e.height ≤ room
  short : ¬ e.HasLongInt

/-- Why an expression cannot be written down with so much room. -/
def Expr.Unwritable (e : Expr α) (room : Nat) (error : Error) : Prop :=
  (error = .fault .recursion ∧ room < e.height) ∨ (error = .fault .value ∧ e.HasLongInt)

namespace Managed

/-- A plan is announced if the expression and the plan can be written down. -/
theorem announcement_ends (s : Managed α) (e plan : Expr α) : Ends (s.announcement e plan)
    (fun _ => e.IsWritable s.substrate.room ∧ plan.IsWritable s.substrate.room)
    fun error => e.Unwritable s.substrate.room error ∨ plan.Unwritable s.substrate.room error := by
  have he := e.representation_ends s.substrate.room
  have hplan := plan.representation_ends s.substrate.room
  refine (he.mapBad fun _ h => .inl h).bind fun _ hshown => ?_
  exact (hplan.mapBad fun _ h => .inr h).bind fun _ h =>
    Ends.ok ⟨⟨hshown.1, hshown.2⟩, h.1, h.2⟩

theorem announcement_eq_ok_iff {s : Managed α} {e plan : Expr α} :
    (∃ words, s.announcement e plan = .ok words) ↔
      e.IsWritable s.substrate.room ∧ plan.IsWritable s.substrate.room := by
  constructor
  · rintro ⟨words, h⟩
    exact (s.announcement_ends e plan).of_ok h
  · rintro ⟨he, hplan⟩
    obtain ⟨t, ht⟩ := Expr.representation_eq_ok_iff.2 ⟨he.height_le, he.short⟩
    obtain ⟨t', ht'⟩ := Expr.representation_eq_ok_iff.2 ⟨hplan.height_le, hplan.short⟩
    exact ⟨_, bind_eq_ok_iff.2 ⟨t, ht, bind_eq_ok_iff.2 ⟨t', ht', rfl⟩⟩⟩

/-! ## Materialization -/

theorem finish_eq_ok_iff {s : Managed α} {e plan : Expr α} {result : Placed α} {storage : Storage}
    {count : NonZeroCount} {level : StorageLevel} :
    (∃ r, (s.finish e plan result storage count level).1 = .ok r) ↔
      ∃ shape, e.shape = .ok shape := by
  unfold finish
  dsimp only
  cases e.shape with
  | ok shape => exact ⟨fun _ => ⟨shape, rfl⟩, fun _ => ⟨_, rfl⟩⟩
  | error error => exact ⟨nofun, nofun⟩

variable [Cell α] (blocks : BlockCatalogue α) (s : Managed α) {e : Expr α}

/-- What can be computed is remembered unless it cannot be announced, or its sides cannot be
told. -/
theorem materialize_computed {plan : Expr α} {n : NodeId} {handle : Handle α}
    (hcount : ∃ count, e.determineNonZeroCount = .ok count)
    (hplan : e.optimize s.substrate.nextNode = .ok (plan, n))
    (hexec : (plan.exec blocks s.substrate.nextCall).result = .ok handle) (level : StorageLevel) :
    ((∃ r, (s.materialize blocks e level).1 = .ok r) ↔
      (∃ words, s.announcement e plan = .ok words) ∧ ∃ shape, e.shape = .ok shape) ∧
    ∀ error, (s.materialize blocks e level).1 = .error error →
      s.announcement e plan = .error error ∨ e.shape = .error error := by
  obtain ⟨count, hcount⟩ := hcount
  cases ha : s.announcement e plan with
  | error err =>
    simp only [materialize, hcount, hplan, ha]
    refine ⟨⟨?_, ?_⟩, fun error herror => .inl (congrArg _ (Except.error.inj herror))⟩
    · rintro ⟨r, hr⟩
      cases hr
    · rintro ⟨⟨words, hwords⟩, -⟩
      cases hwords
  | ok words =>
    simp only [materialize, hcount, hplan, ha, Expr.execPlaced_result, hexec, Except.map]
    exact ⟨finish_eq_ok_iff.trans ⟨fun h => ⟨⟨words, rfl⟩, h⟩, And.right⟩,
      fun error herror => .inr (finish_error herror)⟩

/-- A wide integer is met before anything is computed. -/
theorem materialize_wide (h : e.MeetsWide) (level : StorageLevel) :
    s.materialize blocks e level = (.error (.fault .type), s) := by
  rw [materialize, Expr.determineNonZeroCount_wide h]

/-- **What keeps a result from being remembered** are too wide an integer, a text that cannot be
written, and too long a range. On real numbers the non-zero count is known or unknown, unless its
derivation meets an integer of more than 64 bits. If a plan can be made and executed, then a
checkpoint comes of it exactly if it is there already, or if no such integer is met, the expression
and the plan can be written down, and the sides can be told; and they can be told unless there is a
range with too many rows. -/
theorem materialization_obstacles
    (hreal : ∀ f x, .scalar f x ∈ e.unaries → x.isReal = true) :
    (¬ e.MeetsWide → ∃ count, e.determineNonZeroCount = .ok count) ∧
    (e.MeetsWide → e.determineNonZeroCount = .error (.fault .type)) ∧
    ∀ level plan n handle, e.optimize s.substrate.nextNode = .ok (plan, n) →
      (plan.exec blocks s.substrate.nextCall).result = .ok handle →
      ((∃ r, (s.checkpoint blocks e level).1 = .ok r) ↔
        ((∃ i c, e = .checkpoint i c) ∨ s.manager.isCheckpointed e = true) ∨
          ¬ e.MeetsWide ∧ (e.IsWritable s.substrate.room ∧ plan.IsWritable s.substrate.room) ∧
            ∃ shape, e.shape = .ok shape) ∧
      ∀ error, (s.checkpoint blocks e level).1 = .error error →
        (e.MeetsWide ∧ error = .fault .type) ∨
        (¬ e.MeetsWide ∧ ((e.Unwritable s.substrate.room error ∨
            plan.Unwritable s.substrate.room error) ∨
          (e.HasLongRange ∧ error = .fault .overflow))) := by
  refine ⟨Expr.determineNonZeroCount_of_real hreal, Expr.determineNonZeroCount_wide,
    fun level plan n handle hplan hexec => ?_⟩
  rcases s.checkpoint_known_or_materialized blocks e level with ⟨hknown, r, hr⟩ | ⟨hnew, hm⟩
  · rw [hr]
    exact ⟨⟨fun _ => .inl hknown, fun _ => ⟨r, rfl⟩⟩, nofun⟩
  · rw [hm]
    by_cases hw : e.MeetsWide
    · rw [s.materialize_wide blocks hw level]
      refine ⟨⟨nofun, ?_⟩, fun error herror => .inl ⟨hw, ?_⟩⟩
      · rintro (hknown | ⟨hno, -⟩)
        · exact absurd hknown hnew
        · exact absurd hw hno
      · cases herror
        rfl
    · have hcount := Expr.determineNonZeroCount_of_real hreal hw
      obtain ⟨hok, herror⟩ := s.materialize_computed blocks hcount hplan hexec level
      rw [announcement_eq_ok_iff] at hok
      refine ⟨hok.trans ⟨fun hmade => .inr ⟨hw, hmade⟩, ?_⟩, fun error h => .inr ⟨hw, ?_⟩⟩
      · rintro (hknown | ⟨-, hmade⟩)
        · exact absurd hknown hnew
        · exact hmade
      · rcases herror error h with hwords | hshape
        · exact .inl ((s.announcement_ends e plan).of_error hwords)
        · exact .inr ⟨Expr.hasLongRange_of_shape hshape, Expr.shape_eq_error hshape⟩

/-- A manager without results. Two nodes have been made. -/
def sampleManaged : Managed Float :=
  ⟨{ Substrate.ofScript [8] with nextNode := 2 }, .ofLibrary 0⟩

/-- The double of a leaf is remembered. -/
theorem materialization_obstacles_doubled :
    let e : Expr Float := .unary 1 (.scalar .times (.int 2)) sampleLeaf
    ∀ blocks, ∃ r, (sampleManaged.checkpoint blocks e .memoryOnly).1 = .ok r := by
  intro e blocks
  have hreal : ∀ f x, .scalar f x ∈ e.unaries → x.isReal = true := by
    intro f x hx
    cases List.mem_singleton.1 hx
    rfl
  obtain ⟨-, hwide, hcheckpoint⟩ := materialization_obstacles blocks sampleManaged hreal
  obtain ⟨hok, -⟩ := hcheckpoint .memoryOnly e 2 _ rfl rfl
  have hwritable : e.IsWritable sampleManaged.substrate.room := by
    refine ⟨?_, ?_⟩
    · decide
    · unfold e
      decide
  refine hok.2 (.inr ⟨fun h => ?_, ⟨hwritable, hwritable⟩, _, rfl⟩)
  cases hwide h

/-- Scaled by 2⁶⁴, a leaf can be planned and executed, but neither counted nor remembered. -/
theorem wide_scaling_refused :
    let e : Expr Float := .unary 1 (.scalar .times (.int (2 ^ 64))) sampleLeaf
    ∀ blocks, (∃ plan n handle, e.optimize sampleManaged.substrate.nextNode = .ok (plan, n) ∧
        (plan.exec blocks sampleManaged.substrate.nextCall).result = .ok handle) ∧
      e.determineNonZeroCount = .error (.fault .type) ∧
      (sampleManaged.checkpoint blocks e .memoryOnly).1 = .error (.fault .type) :=
  fun _ => ⟨⟨_, _, _, rfl, rfl⟩, rfl, rfl⟩

end Managed

end RowAlgebra
