import Mathlib.Data.List.Induction
import RowAlgebra.Forest.CrossValidation
import RowAlgebra.Proofs.Ending

/-!
# Calls of a validation

A call classifies one instance, tree by tree: each tree puts its prediction into its row (`filled`),
until one of them fails. So a call that is not refused at once has changed the rows of the trees before
the failing one (`map_cases`), whatever calls there have been before (`exists_after`). It follows when
**a failing call leaves all predictions as they were**: exactly if each of these trees had already
predicted the same (`failing_map`).
-/

namespace RowAlgebra.Forest.Validation

open Json (Value)

/-! ## One instance, tree by tree -/

section Trees

variable (id : Value) (sample : Sample)

def Predicts (tree : Tree) : Prop :=
  ∃ placed, predict id sample tree = .ok placed

/-- The row of a tree after the tree has put its prediction into it. -/
def filled (tree : Tree) (row : Array Prediction) : Array Prediction :=
  match predict id sample tree with
  | .ok (place, p) => place.fill p row
  | .error _ => row

/-- The rows after the trees of the first ones have put their predictions into them. -/
def filledRows : List Tree → List (Array Prediction) → List (Array Prediction)
  | tree :: trees, row :: rows => filled id sample tree row :: filledRows trees rows
  | _, rows => rows

/-- Either all trees predict, or there is a first one that does not. -/
theorem predict_or_fail (trees : List Tree) :
    (∀ tree ∈ trees, Predicts id sample tree) ∨
    ∃ before tree rest error, trees = before ++ tree :: rest ∧
      (∀ tree ∈ before, Predicts id sample tree) ∧ predict id sample tree = .error error := by
  induction trees with
  | nil => exact .inl nofun
  | cons tree trees ih =>
    cases htree : predict id sample tree with
    | error error => exact .inr ⟨[], tree, trees, error, rfl, nofun, htree⟩
    | ok placed =>
      rcases ih with hall | ⟨before, failing, rest, error, rfl, hbefore, hfailing⟩
      · exact .inl (List.forall_mem_cons.2 ⟨⟨placed, htree⟩, hall⟩)
      · exact .inr ⟨tree :: before, failing, rest, error, rfl,
          List.forall_mem_cons.2 ⟨⟨placed, htree⟩, hbefore⟩, hfailing⟩

end Trees

variable {id : Value} {sample : Sample}

theorem filled_of_ok {tree : Tree} {place : Place} {p : Prediction}
    (h : predict id sample tree = .ok (place, p)) (row : Array Prediction) :
    filled id sample tree row = place.fill p row := by
  rw [filled, h]

theorem length_filledRows (trees : List Tree) (rows : List (Array Prediction)) :
    (filledRows id sample trees rows).length = rows.length := by
  induction trees generalizing rows with
  | nil => rfl
  | cons tree trees ih =>
    cases rows with
    | nil => rfl
    | cons row rows => exact congrArg Nat.succ (ih rows)

theorem filledRows_eq_self_iff {trees : List Tree} {rows : List (Array Prediction)} :
    filledRows id sample trees rows = rows ↔
      ∀ pair ∈ trees.zip rows, filled id sample pair.1 pair.2 = pair.2 := by
  induction trees generalizing rows with
  | nil => simp [filledRows]
  | cons tree trees ih =>
    cases rows with
    | nil => simp [filledRows]
    | cons row rows =>
      rw [filledRows, List.cons_eq_cons, ih, List.zip_cons_cons, List.forall_mem_cons]

theorem record_cons_of_ok {tree : Tree} {placed : Place × Prediction}
    (h : predict id sample tree = .ok placed) (trees : List Tree) (row : Array Prediction)
    (rows : List (Array Prediction)) :
    record id sample (tree :: trees) (row :: rows) =
      ((record id sample trees rows).1,
        filled id sample tree row :: (record id sample trees rows).2) := by
  rw [record, filled, h]

theorem record_of_predicts {trees : List Tree} (h : ∀ tree ∈ trees, Predicts id sample tree)
    (rows : List (Array Prediction)) :
    record id sample trees rows = (.ok (), filledRows id sample trees rows) := by
  induction trees generalizing rows with
  | nil => rfl
  | cons tree trees ih =>
    obtain ⟨⟨placed, hplaced⟩, htrees⟩ := List.forall_mem_cons.1 h
    cases rows with
    | nil => rfl
    | cons row rows => rw [record_cons_of_ok hplaced, ih htrees, filledRows]

/-- The trees from the failing one on leave their rows alone. -/
theorem record_of_failing {before rest : List Tree} {tree : Tree} {error : Error}
    (h : ∀ tree ∈ before, Predicts id sample tree) (hfails : predict id sample tree = .error error)
    {rows : List (Array Prediction)} (hrows : rows.length = (before ++ tree :: rest).length) :
    record id sample (before ++ tree :: rest) rows =
      (.error error, filledRows id sample before rows) := by
  induction before generalizing rows with
  | nil =>
    obtain ⟨row, rows, rfl⟩ := List.exists_cons_of_length_eq_add_one hrows
    rw [List.nil_append, record, hfails]
    rfl
  | cons first before ih =>
    obtain ⟨⟨placed, hplaced⟩, hbefore⟩ := List.forall_mem_cons.1 h
    obtain ⟨row, rows, rfl⟩ := List.exists_cons_of_length_eq_add_one hrows
    rw [List.cons_append, record_cons_of_ok hplaced, ih hbefore (Nat.succ.inj hrows), filledRows]

/-! ## Calls -/

theorem map_of_contains {v : Validation} (h : v.contains id = .ok true) :
    v.map id sample = ((record id sample v.trees v.predictions).1,
      { v with predictions := (record id sample v.trees v.predictions).2 }) := by
  rw [map, h]

theorem map_of_not_contains {v : Validation} (h : v.contains id ≠ .ok true) :
    ∃ error, v.map id sample = (.error error, v) := by
  unfold map
  cases hid : v.contains id with
  | error error => exact ⟨error, rfl⟩
  | ok b =>
    cases b with
    | true => exact absurd hid h
    | false => exact ⟨_, rfl⟩

/-- A call is refused for its instance, or all trees predict, or the first one that fails ends it. -/
theorem map_cases (v : Validation) (hrows : v.predictions.length = v.trees.length) (id : Value)
    (sample : Sample) :
    (v.contains id ≠ .ok true ∧ ∃ error, v.map id sample = (.error error, v)) ∨
    (v.contains id = .ok true ∧ (∀ tree ∈ v.trees, Predicts id sample tree) ∧
      v.map id sample =
        (.ok (), { v with predictions := filledRows id sample v.trees v.predictions })) ∨
    (v.contains id = .ok true ∧ ∃ before tree rest error, v.trees = before ++ tree :: rest ∧
      (∀ tree ∈ before, Predicts id sample tree) ∧ predict id sample tree = .error error ∧
      v.map id sample =
        (.error error, { v with predictions := filledRows id sample before v.predictions })) := by
  by_cases hid : v.contains id = .ok true
  · rcases predict_or_fail id sample v.trees with hall | ⟨before, tree, rest, error, ht, hb, hf⟩
    · refine .inr (.inl ⟨hid, hall, ?_⟩)
      rw [map_of_contains hid, record_of_predicts hall]
    · refine .inr (.inr ⟨hid, before, tree, rest, error, ht, hb, hf, ?_⟩)
      rw [map_of_contains hid, ht, record_of_failing hb hf (ht ▸ hrows)]
  · exact .inl ⟨hid, map_of_not_contains hid⟩

/-- The validation after some calls, whatever they have answered. -/
def after (v : Validation) (calls : List (Value × Sample)) : Validation :=
  calls.foldl (fun v call => (v.map call.1 call.2).2) v

theorem after_concat (v : Validation) (calls : List (Value × Sample)) (call : Value × Sample) :
    v.after (calls ++ [call]) = ((v.after calls).map call.1 call.2).2 := by
  rw [after, List.foldl_append]
  rfl

/-- Calls change predictions only, and no tree gains or loses a row. -/
theorem exists_after {v : Validation} (hrows : v.predictions.length = v.trees.length)
    (calls : List (Value × Sample)) :
    ∃ rows, rows.length = v.trees.length ∧ v.after calls = { v with predictions := rows } := by
  induction calls using List.reverseRecOn with
  | nil => exact ⟨v.predictions, hrows, rfl⟩
  | append_singleton calls call ih =>
    obtain ⟨rows, hlength, hafter⟩ := ih
    rw [after_concat, hafter]
    rcases map_cases { v with predictions := rows } hlength call.1 call.2 with
      ⟨-, error, h⟩ | ⟨-, -, h⟩ | ⟨-, before, -, -, error, -, -, -, h⟩
    · exact ⟨rows, hlength, congrArg Prod.snd h⟩
    · exact ⟨_, (length_filledRows _ _).trans hlength, congrArg Prod.snd h⟩
    · exact ⟨_, (length_filledRows _ _).trans hlength, congrArg Prod.snd h⟩

/-! ## Before the first call -/

/-- The checks before the first call, in their order. -/
theorem start_eq (partition : Value) (ids : List TreeId) (trees : List Tree) (instances : Value) :
    start partition ids trees instances = (do
      if ← partition.less (.int 0) then .error (.negativePartition partition.displayAlone)
      else if ids.length ≠ trees.length then .error (.keysForTrees ids.length trees.length)
      else if ids.any fun id => !id.partition.same partition then
        .error (.foreignTrees partition.displayAlone)
      else
        let n ← tableLength trees.length instances
        return ⟨partition, ids, trees, n, trees.map fun _ => .replicate n unknownPrediction⟩) := by
  unfold start
  refine bind_congr fun negative => ?_
  split
  · rfl
  · split
    · rfl
    · split <;> rfl

theorem start_eq_ok_iff {partition instances : Value} {ids : List TreeId} {trees : List Tree}
    {v : Validation} : start partition ids trees instances = .ok v ↔
      partition.less (.int 0) = .ok false ∧ ids.length = trees.length ∧
      (∀ id ∈ ids, id.partition.same partition = true) ∧
      ∃ n, tableLength trees.length instances = .ok n ∧
        v = ⟨partition, ids, trees, n, trees.map fun _ => .replicate n unknownPrediction⟩ := by
  rw [start_eq, bind_eq_ok_iff]
  constructor
  · rintro ⟨negative, hnegative, h⟩
    split at h
    · cases h
    · next hfalse =>
      split at h
      · cases h
      · next hlength =>
        split at h
        · cases h
        · next howners =>
          obtain ⟨n, hn, h⟩ := bind_eq_ok_iff.1 h
          cases h
          rw [Bool.not_eq_true] at hfalse
          exact ⟨hfalse ▸ hnegative, not_not.1 hlength, by simpa using howners, n, hn, rfl⟩
  · rintro ⟨hnegative, hlength, howners, n, hn, rfl⟩
    refine ⟨false, hnegative, ?_⟩
    have howners' : ¬(ids.any fun id => !id.partition.same partition) = true := by
      simpa using howners
    rw [if_neg Bool.false_ne_true, if_neg (not_not_intro hlength), if_neg howners', hn]
    rfl

/-! ## Failing calls -/

/-- **A failing call keeps the predictions of the trees before the failing one.** If the instance is
refused, nothing changes. Otherwise there is a first tree that fails; the trees before it have put
their predictions into their rows, and all other rows are as they were. So all predictions are as they
were exactly if these trees had predicted the same for the instance already. -/
theorem failing_map {partition instances : Value} {ids : List TreeId} {trees : List Tree}
    {v : Validation} (hstart : start partition ids trees instances = .ok v)
    (calls : List (Value × Sample)) {id : Value} {sample : Sample} {error : Error}
    (h : ((v.after calls).map id sample).1 = .error error) :
    ∃ before rest, trees = before ++ rest ∧ (∀ tree ∈ before, Predicts id sample tree) ∧
      ((v.after calls).contains id ≠ .ok true → before = []) ∧
      ((v.after calls).contains id = .ok true →
        ∃ tree ∈ rest.head?, predict id sample tree = .error error) ∧
      ((v.after calls).map id sample).2 = { v.after calls with
        predictions := filledRows id sample before (v.after calls).predictions } ∧
      (((v.after calls).map id sample).2.predictions = (v.after calls).predictions ↔
        ∀ pair ∈ before.zip (v.after calls).predictions,
          filled id sample pair.1 pair.2 = pair.2) := by
  obtain ⟨-, -, -, n, -, rfl⟩ := start_eq_ok_iff.1 hstart
  have hstarted : (trees.map fun _ => Array.replicate n unknownPrediction).length = trees.length :=
    List.length_map _
  obtain ⟨rows, hrows, hafter⟩ := exists_after (v := ⟨partition, ids, trees, n, _⟩) hstarted calls
  rw [hafter] at h ⊢
  rcases map_cases ⟨partition, ids, trees, n, rows⟩ hrows id sample with
    ⟨hid, e, hmap⟩ | ⟨-, -, hmap⟩ | ⟨hid, before, tree, rest, e, rfl, hbefore, hfails, hmap⟩
  · rw [hmap]
    exact ⟨[], trees, rfl, nofun, fun _ => rfl, fun hok => absurd hok hid, rfl, by simp⟩
  · rw [hmap] at h
    cases h
  · rw [hmap] at h ⊢
    cases h
    exact ⟨before, tree :: rest, rfl, hbefore, fun hne => absurd hid hne,
      fun _ => ⟨tree, rfl, hfails⟩, rfl, filledRows_eq_self_iff⟩

/-! ### A tree that asks for too much -/

/-- A tree that knows its answer, and one that asks for the fourth feature. -/
def unequalTrees : List Tree :=
  [.leaf (.int 7), .split (.int 3) (.int 0) (.leaf (.int 1)) (.leaf (.int 2))]

/-- One instance, which no tree has classified. -/
def unequal : Validation :=
  ⟨.int 0, [⟨.int 0, .int 0⟩, ⟨.int 0, .int 1⟩], unequalTrees, 1, [#[-1], #[-1]]⟩

/-- An instance with a single feature. -/
def shortSample : Sample :=
  .list [.int 5]

theorem start_unequal : start unequal.partition unequal.ids unequal.trees (.int 1) = .ok unequal := by
  rfl

/-- The first tree has put its prediction into its row when the second one fails. -/
theorem failing_map_unequal :
    ((unequal.after []).map (.int 0) shortSample).1 = .error (.fault .index) ∧
    ((unequal.after []).map (.int 0) shortSample).2 = { unequal with
      predictions := filledRows (.int 0) shortSample [.leaf (.int 7)] unequal.predictions } := by
  have hfailed : ((unequal.after []).map (.int 0) shortSample).1 = .error (.fault .index) := rfl
  obtain ⟨before, rest, htrees, hbefore, -, hnext, hstate, -⟩ :=
    failing_map start_unequal [] hfailed
  obtain ⟨tree, htree, hfails⟩ := hnext rfl
  refine ⟨hfailed, hstate.trans ?_⟩
  match before with
  | [] =>
    cases htrees
    cases htree
    cases hfails
  | [first] =>
    cases htrees
    rfl
  | first :: second :: before =>
    obtain ⟨rfl, -⟩ := List.cons.inj (List.cons.inj htrees).2
    obtain ⟨placed, hplaced⟩ := hbefore _ (List.mem_cons_of_mem _ List.mem_cons_self)
    cases hplaced

/-- An instance is left classified by some trees only. -/
theorem halfway_classified :
    start unequal.partition unequal.ids unequal.trees (.int 1) = .ok unequal ∧
    (unequal.map (.int 0) shortSample).1 = .error (.fault .index) ∧
    unequal.outputs = [(⟨.int 0, .int 0⟩, [-1]), (⟨.int 0, .int 1⟩, [-1])] ∧
    (unequal.map (.int 0) shortSample).2.outputs =
      [(⟨.int 0, .int 0⟩, [7]), (⟨.int 0, .int 1⟩, [-1])] :=
  ⟨rfl, rfl, rfl, rfl⟩

end RowAlgebra.Forest.Validation
