import RowAlgebra.Expr.Algebra
import RowAlgebra.Proofs.Exec.Failures
import RowAlgebra.Proofs.Exec.Run
import RowAlgebra.Proofs.Plan.Stranded

/-!
# Plans can be executed

The planner and the execution agree on the operators: the nodes of a plan are `Executable`, that is,
each of them has a physical counterpart, and no transposition is left below another one
(`CleanForm.isExecutable`). So executing a plan never meets an unknown operator (`exec_fails`). An
expression is refused if it has an unknown operator or a stranded transposition, and otherwise only
if keys of a derived class come to light in one operand of an element-wise operator alone
(`optimize_decides`, `derivedSum_refused`). **The planner and the execution are in sync**
(`optimize_exec_in_sync`).
-/

namespace RowAlgebra.Expr

variable {α : Type}

/-- Whether a node is a product that the first pass rewrites. -/
def isRewritten : Expr α → Bool
  | unary _ (.leftMultiply _) _ => true
  | binary _ .matMul _ _ => true
  | _ => false

/-- Whether a node transposes a matrix that has just been transposed. -/
def isDouble : Expr α → Bool
  | unary _ .transpose a => a.isTransposed
  | _ => false

/-! ## The nodes of plans -/

theorem not_isRewritten_of_isExecutable {x : Expr α} (h : x.isExecutable = true) :
    x.isRewritten = false := by
  unfold isRewritten
  split
  · cases h
  · cases h
  · rfl

theorem NormalForm.not_isRewritten [Cell α] {e e' : Expr α} (h : NormalForm e e') :
    ∀ x ∈ e'.walk, x.isRewritten = false := by
  induction h with
  | checkpoint i c => simp [walk, isRewritten]
  | gramian i j k hop hs ha ih => exact forall_walk_unary.2 ⟨rfl, ih⟩
  | timesTransposed i j k hg ha hb iha ihb => exact forall_walk_binary.2 ⟨rfl, iha, ihb⟩
  | transposedTimes i j k hop hs ht ha hb iha ihb => exact forall_walk_binary.2 ⟨rfl, iha, ihb⟩
  | @times i j k a a' b b' hl ht ha hb iha ihb =>
    refine forall_walk_binary.2 ⟨rfl, iha, forall_walk_unary.2 ⟨?_, ihb⟩⟩
    cases b.keyType <;> rfl
  | leftMultiply i j k l m ha ih =>
    exact forall_walk_unary.2 ⟨rfl, forall_walk_unary.2 ⟨rfl, forall_walk_unary.2 ⟨rfl, ih⟩⟩⟩
  | @unary i j op a a' hop ha ih =>
    refine forall_walk_unary.2 ⟨?_, ih⟩
    cases op <;> first | rfl | exact absurd rfl (hop _)
  | @binary i j op a a' b b' hop ha hb iha ihb =>
    refine forall_walk_binary.2 ⟨?_, iha, ihb⟩
    cases op <;> first | rfl | exact absurd rfl hop

theorem CleanForm.not_isDouble {e e' : Expr α} (h : CleanForm e e') :
    ∀ x ∈ e'.walk, x.isDouble = false := by
  induction h with
  | checkpoint i c => simp [walk, isDouble]
  | double i j ha ih => exact ih
  | @unary i j op a a' hop ht ha ih =>
    refine forall_walk_unary.2 ⟨?_, ih⟩
    cases op with
    | transpose => exact ha.isTransposed_eq (ht rfl)
    | _ => rfl
  | binary i j op ha hb iha ihb => exact forall_walk_binary.2 ⟨rfl, iha, ihb⟩

theorem CleanForm.isExecutable {e e' : Expr α} (h : CleanForm e e')
    (hn : ∀ x ∈ e.walk, x.isRewritten = false) : ∀ x ∈ e'.walk, x.isExecutable = true := by
  induction h with
  | checkpoint i c => simp [walk, Expr.isExecutable]
  | double i j ha ih => exact ih (forall_walk_unary.1 (forall_walk_unary.1 hn).2).2
  | @unary i j op a a' hop ht ha ih =>
    obtain ⟨hroot, hinput⟩ := forall_walk_unary.1 hn
    refine forall_walk_unary.2 ⟨?_, ih hinput⟩
    cases op with
    | transposeAnyKey => exact absurd rfl hop
    | leftMultiply m => cases hroot
    | _ => rfl
  | @binary i j op a a' b b' ha hb iha ihb =>
    obtain ⟨hroot, hleft, hright⟩ := forall_walk_binary.1 hn
    refine forall_walk_binary.2 ⟨?_, iha hleft, ihb hright⟩
    cases op <;> first | rfl | cases hroot

/-! ## Execution -/

/-- What executing a plan fails with is ordinary, or comes from a block function. -/
theorem exec_fails [Cell α] [OrdinaryCell α] (blocks : BlockCatalogue α) {e : Expr α}
    (h : ∀ x ∈ e.walk, x.isExecutable = true) (call : Nat) :
    Fails (e.exec blocks call).result (PlanFailure blocks) := by
  have hkeeps : Keeps blocks (fun _ _ => True) (PlanFailure blocks) e.walk := by
    refine ⟨fun x hx hn => ?_, fun _ _ _ => trivial, ?_, ?_⟩
    · exact absurd ((h x hx).symm.trans hn) nofun
    · exact fun i op a _ call kernel hk g _ => UnaryOp.kernel_fails blocks call _ hk g
    · exact fun i op a b _ kernel hk f g _ _ =>
        (BinaryOp.kernel_fails _ _ _ hk f g).mapBad fun _ he => .inl he
  exact exec_ends hkeeps call

/-! ## The outcome of planning -/

section Outcome

variable [Cell α] [LawfulSame α] {next : NodeId} {nodes : Set (Expr α)}
  (hp : Population next nodes)

include hp in
/-- What becomes of an expression depends on its unknown operators, on its stranded transpositions
and on its derived keys only. -/
theorem optimize_decides {e : Expr α} (he : e ∈ nodes) :
    e.optimize.Yields next nodes
      (fun error => (e.hasForeign = true ∧ error.kind = .unsupportedOperator) ∨
        (e.hasForeign = false ∧ e.isStranded = true ∧ error.kind = .invariantViolation) ∨
        (e.hasForeign = false ∧ e.hasDerivedKeys = true ∧ error = .elementwiseKeys))
      fun plan => e.hasForeign = false ∧ e.isStranded = false ∧
        ∀ x ∈ plan.walk, x.isExecutable = true ∧ x.isDouble = false := by
  refine ((optimize_yields hp he).mapBad ?_).imp ?_
  · rintro error (⟨hf, t, rfl⟩ | ⟨middle, hm, -, hunclean⟩)
    · exact .inl ⟨hf, rfl⟩
    · cases hunclean with
      | foreign hf name =>
        exact absurd ((hm.normalForm.hasForeign_eq.symm.trans hf).symm.trans hm.known) nofun
      | anyKey hk type =>
        exact .inr (.inl ⟨hm.known, (hasAnyKey_normalForm hp hm.normalForm he) ▸ hk, rfl⟩)
      | keys hd => exact .inr (.inr ⟨hm.known, hm.normalForm.hasDerivedKeys_of hd, rfl⟩)
  · rintro plan ⟨middle, hm, hc⟩
    exact ⟨hm.known, (hasAnyKey_normalForm hp hm.normalForm he) ▸ hc.noAnyKey, fun x hx =>
      ⟨hc.cleanForm.isExecutable hm.normalForm.not_isRewritten x hx, hc.cleanForm.not_isDouble x hx⟩⟩

include hp in
/-- **The planner and the execution are in sync**: the planner refuses an expression for an unknown
operator or a stranded transposition. There is one more reason, which takes a leaf with keys of a
derived class: the operands of an element-wise operator may have keys of different types once double
transpositions are gone. All nodes of plans can be executed, so that only a block function can
complain of an unknown operator. -/
theorem optimize_exec_in_sync [OrdinaryCell α] {e : Expr α} (he : e ∈ nodes) :
    ((∃ error, e.optimize next = .error error ∧ error.kind = .unsupportedOperator) ↔
      e.hasForeign = true) ∧
    (e.hasForeign = false → e.isStranded = true → ∃ error, e.optimize next = .error error) ∧
    (∀ error, e.optimize next = .error error → e.hasForeign = false →
      (error.kind = .invariantViolation ∧ e.isStranded = true) ∨
        (error = .elementwiseKeys ∧ e.hasDerivedKeys = true)) ∧
    ∀ plan next', e.optimize next = .ok (plan, next') →
      (∀ x ∈ plan.walk, x.isExecutable = true ∧ x.isDouble = false) ∧
      ∀ (blocks : BlockCatalogue α) call error, (plan.exec blocks call).result = .error error →
        error.kind = .unsupportedOperator → ∃ fn keys block, blocks fn keys block = .error error := by
  have h := optimize_decides hp he
  refine ⟨⟨?_, fun hf => ?_⟩, fun hf hs => ?_, fun error herr hf => ?_, fun plan next' hplan => ?_⟩
  · rintro ⟨error, herr, hkind⟩
    rcases h.of_error herr with ⟨hf, -⟩ | ⟨-, -, hk⟩ | ⟨-, -, rfl⟩
    · exact hf
    · rw [hk] at hkind
      cases hkind
    · cases hkind
  · rcases h with ⟨error, herr, ⟨-, hk⟩ | ⟨hf', -⟩ | ⟨hf', -⟩⟩ | ⟨plan, _, _, -, -, -, -, -, hf', -⟩
    · exact ⟨error, herr, hk⟩
    all_goals exact absurd (hf.symm.trans hf') nofun
  · rcases h with ⟨error, herr, -⟩ | ⟨plan, _, _, -, -, -, -, -, -, hs', -⟩
    · exact ⟨error, herr⟩
    · exact absurd (hs.symm.trans hs') nofun
  · rcases h.of_error herr with ⟨hf', -⟩ | ⟨-, hs, hk⟩ | ⟨-, hd, hk⟩
    · exact absurd (hf.symm.trans hf') nofun
    · exact .inl ⟨hk, hs⟩
    · exact .inr ⟨hk, hd⟩
  · obtain ⟨_, -, -, -, -, -, hx⟩ := h.of_ok hplan
    refine ⟨hx, fun blocks call error herr hkind => ?_⟩
    rcases (exec_fails blocks (fun x hm => (hx x hm).1) call).of_error herr with ho | hb
    · exact absurd hkind ho
    · exact hb

end Outcome

/-- A transposed matrix with texts for keys has no plan, since no product takes it in. -/
theorem optimize_exec_in_sync_text_keys :
    let a : Expr Float := checkpoint 0 (.ofShape 2 3 .text 1)
    let e := unary 1 .transposeAnyKey a
    ∃ error, e.optimize 2 = .error error ∧ error.kind = .invariantViolation := by
  intro a e
  have hp : Population 2 (insert e (insert a ∅)) := by
    refine ((Population.empty 0).insert rfl ?_ ?_).insert rfl ?_ ?_
    all_goals first | trivial | simp [a, e, children]
  obtain ⟨-, hfails, hreasons, -⟩ := optimize_exec_in_sync hp (Set.mem_insert _ _)
  obtain ⟨error, herr⟩ := hfails rfl rfl
  rcases hreasons error herr rfl with ⟨hkind, -⟩ | ⟨-, hd⟩
  · exact ⟨error, herr, hkind⟩
  · cases hd

/-- A row with a plain integer for a key. -/
def plainRow : Expr Float :=
  checkpoint 3 (.ofShape 1 1 .int 8)

def derivedSum : Expr Float :=
  binary 4 (.elementwise .plus) derivedRowTwice plainRow

/-- A sum may have no plan though all of its operators are known and no transposition is stranded:
without the double transposition on its left-hand side its operands have keys of different types. -/
theorem derivedSum_refused :
    (do transposed (← transposed derivedRow)) 1 = .ok (derivedRowTwice, 3) ∧
      arith .plus (.matrix derivedRowTwice) (.matrix plainRow) 4 = .ok (derivedSum, 5) ∧
      derivedSum.hasForeign = false ∧ derivedSum.isStranded = false ∧
      derivedSum.optimize 5 = .error .elementwiseKeys ∧ Error.elementwiseKeys.kind = .value :=
  ⟨rfl, rfl, rfl, rfl, rfl, rfl⟩

end RowAlgebra.Expr
