import RowAlgebra.Proofs.Plan.CleanForm

/-!
# What both passes do

`Planned e plan` says that `plan` is the clean form of a normal form of `e`. `optimize` yields such a
plan unless the first pass meets an unknown operator, or the second one refuses its normal form
(`optimize_yields`). A computation that has succeeded has taken the good
way (`Build.Yields.of_ok`), which is how most theorems on plans begin (`planned_of_optimize`).
-/

namespace RowAlgebra

namespace Build.Yields

variable {α : Type} {m : Build (Expr α)} {next : NodeId} {nodes : Set (Expr α)}
  {Bad : Error → Prop} {Good : Expr α → Prop}

theorem of_ok (h : m.Yields next nodes Bad Good) {e : Expr α} {next' : NodeId}
    (he : m next = .ok (e, next')) :
    ∃ nodes', nodes ⊆ nodes' ∧ Population next' nodes' ∧ e ∈ nodes' ∧ Good e := by
  rcases h with ⟨error, hm, -⟩ | ⟨e', n, N, hm, -, hs, hp, hmem, hg⟩
  · rw [hm] at he
    cases he
  · obtain ⟨rfl, rfl⟩ : e' = e ∧ n = next' := by simpa [hm] using he
    exact ⟨N, hs, hp, hmem, hg⟩

theorem of_error (h : m.Yields next nodes Bad Good) {error : Error}
    (he : m next = .error error) : Bad error := by
  rcases h with ⟨error', hm, hb⟩ | ⟨e', n, N, hm, -⟩
  · obtain rfl : error' = error := by simpa [hm] using he
    exact hb
  · rw [hm] at he
    cases he

end Build.Yields

namespace Expr

variable {α : Type} [Cell α]

theorem NormalForm.hasForeign_eq {e e' : Expr α} (h : NormalForm e e') :
    e'.hasForeign = e.hasForeign := by
  induction h with
  | checkpoint => rfl
  | gramian i j k hop hs ha iha =>
    simp only [hasForeign, iha, (same_iff_equal.1 hs).hasForeign_eq, Bool.or_self]
  | timesTransposed i j k hg ha hb iha ihb => simp only [hasForeign, iha, ihb]
  | transposedTimes i j k hop hs ht ha hb iha ihb => simp only [hasForeign, iha, ihb]
  | times i j k hl ht ha hb iha ihb => simp only [hasForeign, iha, ihb]
  | leftMultiply i j k l m ha iha => exact iha
  | unary i j hop ha iha => exact iha
  | binary i j hop ha hb iha ihb => simp only [hasForeign, iha, ihb]

theorem NormalForm.hasDerivedKeys_of {e e' : Expr α} (h : NormalForm e e')
    (hd : e'.hasDerivedKeys = true) : e.hasDerivedKeys = true := by
  induction h with
  | checkpoint => exact hd
  | gramian i j k hop hs ha iha => simp [hasDerivedKeys, iha hd]
  | leftMultiply i j k l m ha iha => exact iha hd
  | unary i j hop ha iha => exact iha hd
  | timesTransposed i j k _ ha hb iha ihb | transposedTimes i j k _ _ _ ha hb iha ihb
  | times i j k _ _ ha hb iha ihb | binary i j _ ha hb iha ihb =>
    simp only [hasDerivedKeys, Bool.or_eq_true] at hd ⊢
    exact hd.imp iha ihb

/-- How an expression is refused: by the first pass, or by the second one. -/
def Refused (e : Expr α) (error : Error) : Prop :=
  e.Unknown error ∨
    ∃ middle, e.Normalized middle ∧ middle.cleanKeyType = .error error ∧ middle.Unclean error

/-- An expression and its plan. -/
def Planned (e plan : Expr α) : Prop :=
  ∃ middle, e.Normalized middle ∧ middle.Cleaned plan

theorem Planned.hasDerivedKeys_of {e plan : Expr α} (h : e.Planned plan)
    (hd : plan.hasDerivedKeys = true) : e.hasDerivedKeys = true := by
  obtain ⟨middle, hm, hc⟩ := h
  exact hm.normalForm.hasDerivedKeys_of (hc.cleanForm.hasDerivedKeys_of hd)

theorem optimize_yields {next : NodeId} {nodes : Set (Expr α)} (hp : Population next nodes)
    {e : Expr α} (he : e ∈ nodes) : e.optimize.Yields next nodes e.Refused e.Planned := by
  refine (normalize_yields hp he).bind (fun error h => .inl h) fun middle n N hs hp' hm h => ?_
  have hclean := cleanup_yields hp' hm
  have hunclean := cleanKeyType_ends fun x hx => hp'.admitted x (hp'.walk_subset hm x hx)
  exact (hclean.imp fun plan hplan => ⟨middle, h, hplan⟩).mapBad fun error herr =>
    .inr ⟨middle, h, herr, hunclean.of_error herr⟩

/-- A plan comes from a normal form, and it joins the nodes that exist. -/
theorem planned_of_optimize {next next' : NodeId} {nodes : Set (Expr α)}
    (hp : Population next nodes) {e plan : Expr α} (he : e ∈ nodes)
    (h : e.optimize next = .ok (plan, next')) :
    ∃ nodes', nodes ⊆ nodes' ∧ Population next' nodes' ∧ plan ∈ nodes' ∧ e.Planned plan :=
  (optimize_yields hp he).of_ok h

end Expr

end RowAlgebra
