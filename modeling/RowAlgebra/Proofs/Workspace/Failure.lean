import RowAlgebra.Proofs.Expr.Admission
import RowAlgebra.Proofs.Expr.Nodes
import RowAlgebra.Proofs.Manager.Outcome
import RowAlgebra.Proofs.Tag.Source
import RowAlgebra.Workspace

/-!
# Failing requests

A request that a manager refuses leaves results and storage as they were, and at most adds calls to
the trace (`Managed.failing_requests`). A tag is drawn once a plan without a known tag has been
executed (`Managed.Draws`). The sides of the result are counted only after that, so a range with
more rows than can be counted takes a tag along when it fails (`Workspace.uncounted_draws`). Leaves
draw their tags when nothing can fail any more.
-/

namespace RowAlgebra

variable {α : Type}

/-! ## Requests -/

namespace Managed

theorem finish_tags (s : Managed α) (e plan : Expr α) (result : Placed α) (storage : Storage)
    (count : NonZeroCount) (level : StorageLevel) :
    (s.finish e plan result storage count level).2.substrate.tags =
      if plan.tag = .unknown then s.substrate.tags.next.2 else s.substrate.tags := by
  unfold finish
  rw [resultTag_eq]
  dsimp only
  cases e.shape with
  | error error => rfl
  | ok shape => rfl

theorem finish_error {s : Managed α} {e plan : Expr α} {result : Placed α} {storage : Storage}
    {count : NonZeroCount} {level : StorageLevel} {error : Error}
    (h : (s.finish e plan result storage count level).1 = .error error) :
    e.shape = .error error := by
  unfold finish at h
  dsimp only at h
  cases hs : e.shape with
  | error err =>
    rw [hs] at h
    cases h
    rfl
  | ok shape =>
    rw [hs] at h
    cases h

variable [Cell α] (blocks : BlockCatalogue α) (s : Managed α)

/-- Whether the materialization of an expression gets as far as drawing a tag. -/
structure Draws (e : Expr α) : Prop where
  counted : ∃ count, e.determineNonZeroCount = .ok count
  executed : ∃ plan n words handle, e.optimize s.substrate.nextNode = .ok (plan, n) ∧
    s.announcement e plan = .ok words ∧
    (plan.exec blocks s.substrate.nextCall).result = .ok handle ∧ plan.tag = .unknown

/-- A tag is drawn for what has been computed and has none, whether a result comes of it or not. -/
theorem materialize_tags (e : Expr α) (level : StorageLevel) :
    (s.Draws blocks e → (s.materialize blocks e level).2.substrate.tags = s.substrate.tags.next.2) ∧
    (¬ s.Draws blocks e → (s.materialize blocks e level).2.substrate.tags = s.substrate.tags) := by
  unfold materialize
  cases hc : e.determineNonZeroCount with
  | error error =>
    refine ⟨fun h => ?_, fun _ => rfl⟩
    obtain ⟨count, hcount⟩ := h.counted
    cases hc.symm.trans hcount
  | ok count =>
    dsimp only
    cases ho : e.optimize s.substrate.nextNode with
    | error error =>
      refine ⟨fun h => ?_, fun _ => rfl⟩
      obtain ⟨plan, n, words, handle, hplan, -⟩ := h.executed
      cases ho.symm.trans hplan
    | ok result =>
      obtain ⟨plan, n⟩ := result
      dsimp only
      cases ha : s.announcement e plan with
      | error error =>
        refine ⟨fun h => ?_, fun _ => rfl⟩
        obtain ⟨plan', n', words, handle, hplan, hwords, -⟩ := h.executed
        cases ho.symm.trans hplan
        cases ha.symm.trans hwords
      | ok words =>
        dsimp only
        rw [Expr.execPlaced_result]
        cases hx : (plan.exec blocks s.substrate.nextCall).result with
        | error error =>
          refine ⟨fun h => ?_, fun _ => rfl⟩
          obtain ⟨plan', n', words', handle, hplan, -, hexec, -⟩ := h.executed
          cases ho.symm.trans hplan
          cases hx.symm.trans hexec
        | ok handle =>
          dsimp only [Except.map]
          rw [finish_tags]
          refine ⟨fun h => ?_, fun h => if_neg fun htag => h ?_⟩
          · obtain ⟨plan', n', words', handle', hplan, -, -, htag⟩ := h.executed
            cases ho.symm.trans hplan
            exact if_pos htag
          · exact ⟨⟨count, hc⟩, plan, n, words, handle, ho, ha, hx, htag⟩

/-- A materialization that fails although it has drawn a tag could not count its rows. -/
theorem shape_of_draws {e : Expr α} (h : s.Draws blocks e) {level : StorageLevel} {error : Error}
    (herror : (s.materialize blocks e level).1 = .error error) : e.shape = .error error := by
  obtain ⟨count, hcount⟩ := h.counted
  obtain ⟨plan, n, words, handle, hplan, hwords, hexec, -⟩ := h.executed
  simp only [materialize, hcount, hplan, hwords, Expr.execPlaced_result, hexec, Except.map] at herror
  exact finish_error herror

/-- What is not there already is materialized. -/
theorem checkpoint_known_or_materialized (e : Expr α) (level : StorageLevel) :
    (((∃ i c, e = .checkpoint i c) ∨ s.manager.isCheckpointed e = true) ∧
      ∃ r, s.checkpoint blocks e level = (.ok r, s)) ∨
    (¬ ((∃ i c, e = .checkpoint i c) ∨ s.manager.isCheckpointed e = true) ∧
      s.checkpoint blocks e level = s.materialize blocks e level) := by
  by_cases hleaf : ∃ i c, e = .checkpoint i c
  · obtain ⟨i, c, rfl⟩ := hleaf
    exact .inl ⟨.inl ⟨i, c, rfl⟩, _, rfl⟩
  · have he : ∀ i c, e ≠ .checkpoint i c := fun i c h => hleaf ⟨i, c, h⟩
    cases hf : s.manager.find? e.id with
    | some entry =>
      refine .inl ⟨.inr ?_, _, s.checkpoint_of_remembered blocks level he hf⟩
      rw [Manager.isCheckpointed, hf]
      rfl
    | none =>
      refine .inr ⟨?_, s.checkpoint_of_forgotten blocks level he hf⟩
      rw [not_or, Manager.isCheckpointed, hf]
      exact ⟨hleaf, nofun⟩

/-- **A failing request leaves the manager as it was**, up to calls at the end of the trace, and up
to a tag that is lost if the rows of the result cannot be counted. A leaf draws just one tag, and a
new result does so if the tag of its plan is unknown. -/
theorem failing_requests :
    (∀ matrix partitions keys level error,
      (s.parallelize matrix partitions keys level).1 = .error error →
        (s.parallelize matrix partitions keys level).2 = s) ∧
    (∀ matrix partitions keys level r, (s.parallelize matrix partitions keys level).1 = .ok r →
      (s.parallelize matrix partitions keys level).2.substrate.tags = s.substrate.tags.next.2) ∧
    (∀ e level error, (s.checkpoint blocks e level).1 = .error error →
      (s.checkpoint blocks e level).2.manager.entries = s.manager.entries ∧
      (s.checkpoint blocks e level).2.substrate.storage = s.substrate.storage ∧
      s.manager.library.trace <+: (s.checkpoint blocks e level).2.manager.library.trace ∧
      ((∀ i start stop a, .unary i (.rowRange start stop) a ∈ e.walk → stop - start < 2 ^ 63) →
        (s.checkpoint blocks e level).2.substrate.tags = s.substrate.tags) ∧
      ((s.checkpoint blocks e level).2.substrate.tags ≠ s.substrate.tags ↔
        s.Draws blocks e ∧ e.shape = .error error)) ∧
    ∀ e level r, (s.checkpoint blocks e level).1 = .ok r →
      (((∃ i c, e = .checkpoint i c) ∨ s.manager.isCheckpointed e = true) ∧
        (s.checkpoint blocks e level).2 = s) ∨
      ∃ plan n, e.optimize s.substrate.nextNode = .ok (plan, n) ∧
        (s.checkpoint blocks e level).2.substrate.tags =
          if plan.tag = .unknown then s.substrate.tags.next.2 else s.substrate.tags := by
  refine ⟨fun matrix partitions keys level error h => ?_, fun matrix partitions keys level r h => ?_,
    fun e level error h => ?_, fun e level r h => ?_⟩
  · rcases s.parallelize_cases matrix partitions keys level with ⟨error', hs⟩ | ⟨m, n, c, hok, -⟩
    · rw [hs]
    · rw [hok] at h
      cases h
  · rcases s.parallelize_cases matrix partitions keys level with ⟨error, hs⟩ | ⟨m, n, c, -, hd⟩
    · rw [hs] at h
      cases h
    · exact hd.tags.trans (if_pos rfl)
  · rcases s.checkpoint_known_or_materialized blocks e level with ⟨-, r, hr⟩ | ⟨-, hm⟩
    · rw [hr] at h
      cases h
    · rw [hm] at h ⊢
      rcases s.materialize_cases blocks e level with ⟨_, -, hf⟩ | ⟨plan, n, c, hok, -⟩
      · obtain ⟨hdraws, hkeeps⟩ := s.materialize_tags blocks e level
        refine ⟨hf.entries, hf.storage, hf.trace, fun hranges => hkeeps fun hd => ?_, ?_⟩
        · have hshape := s.shape_of_draws blocks hd h
          rw [Expr.shape_of_ranges hranges] at hshape
          cases hshape
        · constructor
          · intro hne
            have hd : s.Draws blocks e := by_contra fun hd => hne (hkeeps hd)
            exact ⟨hd, s.shape_of_draws blocks hd h⟩
          · rintro ⟨hd, -⟩
            exact hdraws hd ▸ s.substrate.tags.next_ne
      · rw [hok] at h
        cases h
  · rcases s.checkpoint_known_or_materialized blocks e level with ⟨hknown, r', hr⟩ | ⟨-, hm⟩
    · exact .inl ⟨hknown, congrArg Prod.snd hr⟩
    · rw [hm] at h ⊢
      rcases s.materialize_cases blocks e level with ⟨error, herror, -⟩ | ⟨plan, n, c, -, hn⟩
      · rw [herror] at h
        cases h
      · exact .inr ⟨plan, n, hn.optimize, hn.tags⟩

end Managed

/-- The range of an operator that no rule knows is refused, and the next tag is still to come. -/
theorem Managed.failing_requests_foreign :
    let s : Managed Float := ⟨{ Substrate.ofScript [7] with nextNode := 2 }, .ofLibrary 0⟩
    let e : Expr Float := .unary 1 (.rowRange 0 2) (.foreign 0 ⟨3, 1⟩)
    ∀ blocks, ∃ error, (s.checkpoint blocks e .memoryOnly).1 = .error error ∧
      (s.checkpoint blocks e .memoryOnly).2.substrate.tags = s.substrate.tags := by
  intro s e blocks
  have hranges : ∀ i start stop a, .unary i (.rowRange start stop) a ∈ e.walk →
      stop - start < 2 ^ 63 := by
    intro i start stop a h
    simp only [e, Expr.walk, List.mem_cons, List.not_mem_nil, or_false, reduceCtorEq] at h
    cases h
    decide
  have herror : ∃ error, (s.checkpoint blocks e .memoryOnly).1 = .error error := ⟨_, rfl⟩
  obtain ⟨error, h⟩ := herror
  have hkept := (failing_requests blocks s).2.2.1 e .memoryOnly error h
  exact ⟨error, h, hkept.2.2.2.1 hranges⟩

/-! ### Too many rows -/

/-- All rows of a leaf that is said to have one more than can be counted. -/
def uncountedRange : Action Float (Expr Float) := do
  let leaf ← Workspace.adopt fun slot => { Checkpoint.ofShape (2 ^ 63) 1 .int .unknown with slot }
  Workspace.build (Expr.ofUnary (.rowRange 0 (2 ^ 63)) leaf)

/-- A request for too many rows fails, and still it draws a tag. -/
theorem Workspace.uncounted_draws : ∃ e w, uncountedRange (.initial [1, 2]) = (.ok e, w) ∧
    ∀ blocks, (Workspace.checkpoint blocks defaultManager e .memoryOnly w).1 =
        .error (.fault .overflow) ∧
      (Workspace.checkpoint blocks defaultManager e .memoryOnly w).2.substrate.tags ≠
        w.substrate.tags := by
  refine ⟨_, _, rfl, fun blocks => ⟨rfl, fun h => ?_⟩⟩
  have hscript : ([2] : List Int) = [1, 2] := congrArg TagSource.script h
  cases hscript

end RowAlgebra
