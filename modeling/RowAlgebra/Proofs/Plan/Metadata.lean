import RowAlgebra.Proofs.Plan.Tags

/-!
# Metadata of plans

What is known of an expression without computing it stays known when the planner rewrites it. A
schema refines another one if it agrees with it on both sides, has its type of keys or one derived
from it, and has its tag unless that is unknown (`Schema.Refines`). Each pass refines the schema of
its input, the first one never fails on known operators, so none of the checks that it repeats on
rewritten operands ever fails, and it keeps the type of keys exactly (`metadata_refined`). The second
one brings back the class of keys that a double transposition has hidden
(`derivedRowTwice_changes_type`). The operators of a plan are those of its expression, and a few that
the planner brings in (`Planned.mem_unaries`).
-/

namespace RowAlgebra

/-- What is known by `t` is known by `s`; the tag may become known, and the class of integer keys. -/
structure Schema.Refines (s t : Schema) : Prop extends s.Specializes t where
  tag : t.tag ≠ .unknown → s.tag = t.tag

namespace Schema.Refines

theorem trans {s t u : Schema} (h : Refines s t) (h' : Refines t u) : Refines s u := by
  refine ⟨h.toSpecializes.trans h'.toSpecializes, fun hu => ?_⟩
  have ht : t.tag = u.tag := h'.tag hu
  exact (h.tag (ht ▸ hu)).trans ht

end Schema.Refines

variable {α : Type}

/-- Whether an operator on one input is among those that the planner brings in. -/
def UnaryOp.isIntroduced : UnaryOp α → Bool
  | transpose | transposeAnyKey | selfGramian | rightMultiply _ => true
  | _ => false

namespace Expr

/-! ## Operators -/

theorem isIntroduced_transposition (t : KeyType) :
    (transposition t : UnaryOp α).isIntroduced = true := by
  unfold transposition
  split <;> rfl

theorem CleanForm.mem_unaries {e e' : Expr α} (h : CleanForm e e') {op : UnaryOp α}
    (hop : op ∈ e'.unaries) : op ∈ e.unaries := by
  induction h with
  | checkpoint => exact hop
  | double i j ha ih => exact List.mem_cons_of_mem _ (List.mem_cons_of_mem _ (ih hop))
  | unary i j _ ht ha ih =>
    rcases List.mem_cons.1 hop with rfl | hop
    · exact List.mem_cons_self
    · exact List.mem_cons_of_mem _ (ih hop)
  | binary i j _ ha hb iha ihb => exact List.mem_append.2 ((List.mem_append.1 hop).imp iha ihb)

theorem NormalForm.mem_unaries [Cell α] {e e' : Expr α} (h : NormalForm e e') {op : UnaryOp α}
    (hop : op ∈ e'.unaries) : op ∈ e.unaries ∨ op.isIntroduced = true := by
  induction h with
  | checkpoint => exact .inl hop
  | gramian i j k hj hs ha ih =>
    rcases List.mem_cons.1 hop with rfl | hop
    · exact .inr rfl
    · exact (ih hop).imp_left fun h => List.mem_append_left _ (List.mem_cons_of_mem _ h)
  | timesTransposed i j k hg ha hb iha ihb =>
    rcases List.mem_append.1 hop with hop | hop
    · exact (iha hop).imp_left (List.mem_append_left _)
    · exact (ihb hop).imp_left fun h => List.mem_append_right _ (List.mem_cons_of_mem _ h)
  | transposedTimes i j k hj hs ht ha hb iha ihb =>
    rcases List.mem_append.1 hop with hop | hop
    · exact (iha hop).imp_left fun h => List.mem_append_left _ (List.mem_cons_of_mem _ h)
    · exact (ihb hop).imp_left (List.mem_append_right _)
  | times i j k hl ht ha hb iha ihb =>
    rcases List.mem_append.1 hop with hop | hop
    · exact (iha hop).imp_left (List.mem_append_left _)
    · rcases List.mem_cons.1 hop with rfl | hop
      · exact .inr (isIntroduced_transposition _)
      · exact (ihb hop).imp_left (List.mem_append_right _)
  | leftMultiply i j k l m ha ih =>
    simp only [unaries, List.mem_cons] at hop ⊢
    rcases hop with rfl | rfl | rfl | hop
    · exact .inr rfl
    · exact .inr rfl
    · exact .inr rfl
    · exact (ih hop).imp_left .inr
  | unary i j _ ha ih =>
    rcases List.mem_cons.1 hop with rfl | hop
    · exact .inl List.mem_cons_self
    · exact (ih hop).imp_left (List.mem_cons_of_mem _)
  | binary i j _ ha hb iha ihb =>
    rcases List.mem_append.1 hop with hop | hop
    · exact (iha hop).imp_left (List.mem_append_left _)
    · exact (ihb hop).imp_left (List.mem_append_right _)

/-- A plan has the operators of its expression, and those that the planner brings in. -/
theorem Planned.mem_unaries [Cell α] {e plan : Expr α} (h : e.Planned plan) {op : UnaryOp α}
    (hop : op ∈ plan.unaries) : op ∈ e.unaries ∨ op.isIntroduced = true := by
  obtain ⟨middle, hn, hc⟩ := h
  exact hn.normalForm.mem_unaries (hc.cleanForm.mem_unaries hop)

/-! ## Schemas -/

theorem Cleaned.refines {e e' : Expr α} (h : e.Cleaned e') : e'.schema.Refines e.schema :=
  ⟨h.specializes, h.cleanForm.tag_eq⟩

/-- A schema that is refined without a derived class keeps its type of keys. -/
theorem keyType_eq_of_refines {e e' : Expr α} (h : e'.schema.Refines e.schema)
    (hd : e'.hasDerivedKeys = true → e.hasDerivedKeys = true) (he : e.hasDerivedKeys = false) :
    e'.keyType = e.keyType := by
  refine h.keyType.eq_of_not_isDerived (Bool.eq_false_iff.2 fun hk => ?_)
  exact absurd he (ne_false_of_eq_true (hd (hasDerivedKeys_of_isDerived hk)))

variable [Cell α]

theorem Normalized.refines {e e' : Expr α} (h : e.Normalized e') : e'.schema.Refines e.schema :=
  ⟨h.alike.specializes, h.normalForm.tag_eq⟩

theorem Planned.refines {e plan : Expr α} (h : e.Planned plan) :
    plan.schema.Refines e.schema := by
  obtain ⟨middle, hn, hc⟩ := h
  exact hc.refines.trans hn.refines

/-- **The planner keeps metadata**: on known operators the first pass never fails, and whatever
either pass, or both, deliver has the sides and the known tag of the expression. The first pass keeps
the type of keys; the second one, and so both, keep it unless it is that of the integers, which may
become one of the derived classes that the keys of leaves have. -/
theorem metadata_refined {next : NodeId} {nodes : Set (Expr α)} (hp : Population next nodes)
    {e : Expr α} (he : e ∈ nodes) (hknown : e.hasForeign = false) :
    (∃ middle next', e.normalize next = .ok (middle, next') ∧
      middle.schema.Refines e.schema ∧ middle.keyType = e.keyType) ∧
    (∀ clean next', e.cleanup next = .ok (clean, next') → clean.schema.Refines e.schema ∧
      (e.hasDerivedKeys = false → clean.keyType = e.keyType)) ∧
    ∀ plan next', e.optimize next = .ok (plan, next') → plan.schema.Refines e.schema ∧
      (e.hasDerivedKeys = false → plan.keyType = e.keyType) := by
  refine ⟨?_, fun clean next' h => ?_, fun plan next' h => ?_⟩
  · rcases normalize_yields hp he with ⟨error, -, hf, -⟩ | ⟨middle, n, -, h, -, -, -, -, hm⟩
    · exact absurd (hknown.symm.trans hf) nofun
    · exact ⟨middle, n, h, hm.refines, hm.alike.keyType⟩
  · obtain ⟨-, -, -, -, hc⟩ := (cleanup_yields hp he).of_ok h
    exact ⟨hc.refines, keyType_eq_of_refines hc.refines hc.cleanForm.hasDerivedKeys_of⟩
  · obtain ⟨-, -, -, -, hplan⟩ := planned_of_optimize hp he h
    exact ⟨hplan.refines, keyType_eq_of_refines hplan.refines hplan.hasDerivedKeys_of⟩

/-- The left factor of a product is moved through two transpositions, and the product still has as
many rows as the factor, and integer keys. -/
theorem metadata_refined_left_factor :
    let a : Expr Float := checkpoint 0 (.ofShape 2 3 .int 1)
    let e := unary 1 (.leftMultiply (.ofFn fun (_ : Fin 1) (_ : Fin 2) => 1)) a
    ∃ middle next', e.normalize 2 = .ok (middle, next') ∧
      middle.nrow = 1 ∧ middle.ncol = 3 ∧ middle.keyType = .int := by
  intro a e
  have hp : Population 2 (insert e (insert a ∅)) := by
    refine ((Population.empty 0).insert rfl ?_ ?_).insert rfl ?_ ?_
    all_goals first | trivial | simp [a, e, children]
  obtain ⟨middle, next', h, hm⟩ := (metadata_refined hp (Set.mem_insert _ _) rfl).1
  exact ⟨middle, next', h, congrArg Side.length hm.1.rows, congrArg Side.length hm.1.columns, hm.2⟩

/-- The keys of a matrix that has been transposed twice are plain integers, those of its plan are of
the class that its leaf has them in. -/
theorem derivedRowTwice_changes_type :
    (do transposed (← transposed derivedRow)) 1 = .ok (derivedRowTwice, 3) ∧
      derivedRowTwice.hasForeign = false ∧ derivedRowTwice.keyType = .int ∧
      ∃ plan, derivedRowTwice.cleanup 3 = .ok (plan, 3) ∧ derivedRowTwice.optimize 3 = .ok (plan, 3) ∧
        plan.keyType = .derived ⟨0, "RowId"⟩ :=
  ⟨rfl, rfl, rfl, derivedRow, rfl, rfl, rfl⟩

/-- A tag that is unknown may become known: `A''` has no tag, and its clean form is `A`. -/
example (c : Checkpoint Float) :
    let e := unary 2 .transpose (unary 1 .transpose (checkpoint 0 c))
    e.tag = .unknown ∧ e.cleanup 3 = .ok (checkpoint 0 c, 3) := by
  exact ⟨rfl, by rw [cleanup_double, cleanup]; rfl⟩

end Expr

end RowAlgebra
