import RowAlgebra.Forest.Results

/-!
# What the contents of a file of trees give back

A tree is read as it was written (`Tree.ofJson_toJson`). So a partition that loads the `contents` of a
file gets the trees of the others, which now are its own (`adopted`), provided that the file `Fits`: the
partition exists, and there are as many partitions and trees as it expects, of others too
(`load_of_fits`). Contents that do not fit are refused as a wrong value (`load_of_not_fits`).
-/

namespace RowAlgebra.Forest

open Json (Value)

/-! ## One tree -/

theorem Tree.ofJson_toJson (tree : Tree) : ofJson tree.toJson = .ok tree := by
  induction tree with
  | leaf label => rfl
  | split feature threshold lo hi ihlo ihhi =>
    have hread : ofJson (split feature threshold lo hi).toJson = (do
        let lo ← ofJson lo.toJson
        return split feature threshold lo (← ofJson hi.toJson)) := rfl
    rw [hread, ihlo, ihhi]
    rfl

/-- What a file holds of a tree. -/
def entry (id : TreeId) (tree : Tree) : Value :=
  .object [("key", id.toJson), ("tree", tree.toJson)]

/-- What a file of trees holds. -/
def contents (ids : List TreeId) (trees : List Tree) (sizes : List Value) : Value :=
  .object [("sizes", .list sizes), ("trees", .list (List.zipWith entry ids trees))]

/-- A stored tree is skipped by the partition that it belongs to, and becomes that of any other. -/
theorem loadTree_entry (partition : Value) (id : TreeId) (tree : Tree) :
    loadTree partition (entry id tree) =
      .ok (if id.partition.same partition then none else some (⟨partition, id.index⟩, tree)) := by
  have hread : loadTree partition (entry id tree) =
      if id.partition.same partition then .ok none
      else (do return some (⟨partition, id.index⟩, ← Tree.ofJson tree.toJson)) := by
    unfold loadTree
    rfl
  rw [hread, Tree.ofJson_toJson]
  split <;> rfl

/-! ## All trees -/

/-- The trees of other partitions, which now belong to the given one. -/
def adopted (partition : Value) (ids : List TreeId) (trees : List Tree) : List (TreeId × Tree) :=
  ((ids.zip trees).filter fun e => !e.1.partition.same partition).map
    fun e => (⟨partition, e.1.index⟩, e.2)

theorem adopted_cons (partition : Value) (id : TreeId) (ids : List TreeId) (tree : Tree)
    (trees : List Tree) : adopted partition (id :: ids) (tree :: trees) =
      if id.partition.same partition then adopted partition ids trees
      else (⟨partition, id.index⟩, tree) :: adopted partition ids trees := by
  rw [adopted, List.zip_cons_cons, List.filter_cons]
  by_cases howner : id.partition.same partition = true
  · simp [howner, adopted]
  · simp [howner, adopted]

theorem length_adopted (partition : Value) {ids : List TreeId} {trees : List Tree}
    (h : ids.length = trees.length) :
    (adopted partition ids trees).length = ids.countP fun id => !id.partition.same partition := by
  induction ids generalizing trees with
  | nil => rfl
  | cons id ids ih =>
    cases trees with
    | nil => cases h
    | cons tree trees =>
      have hlength := ih (Nat.succ.inj h)
      rw [adopted_cons, List.countP_cons]
      by_cases howner : id.partition.same partition = true
      · simp [howner, hlength]
      · simp [howner, hlength]

theorem mapM_loadTree (partition : Value) (ids : List TreeId) (trees : List Tree) :
    ∃ entries, (List.zipWith entry ids trees).mapM (loadTree partition) = .ok entries ∧
      (entries.filterMap fun entry => entry) = adopted partition ids trees := by
  induction ids generalizing trees with
  | nil => exact ⟨[], rfl, rfl⟩
  | cons id ids ih =>
    cases trees with
    | nil => exact ⟨[], rfl, rfl⟩
    | cons tree trees =>
      obtain ⟨entries, hentries, hadopted⟩ := ih trees
      rw [List.zipWith_cons_cons, List.mapM_cons, loadTree_entry, hentries, adopted_cons,
        ← hadopted]
      refine ⟨_, rfl, ?_⟩
      by_cases howner : id.partition.same partition = true
      · simp [howner]
      · simp [howner]

/-! ## Files that fit -/

/-- Whether a file with some numbers of partitions and trees, of which some belong to others than a
partition, is the one that the partition expects. -/
structure Fits (stored forests others : Nat) (partitions trees partition : Int) : Prop where
  partition_nonneg : 0 ≤ partition
  partitions_eq : (stored : Int) = partitions
  trees_eq : (forests : Int) = trees
  others_eq : concernedTrees partitions trees partition = .ok (others : Int)

/-- There are as many trees of other partitions as there are trees beyond those that a partition has
built itself. -/
theorem concernedTrees_of_ok {partitions trees partition built : Int} (hpartition : 0 ≤ partition)
    (hbuilt : builtTrees partitions trees partition = .ok built) :
    concernedTrees partitions trees partition = .ok (trees - built) := by
  rw [concernedTrees, if_neg (Int.not_lt.2 hpartition), hbuilt]
  rfl

theorem builtTrees_of_ne {partitions : Int} (h : partitions ≠ 0) (trees partition : Int) :
    ∃ built, builtTrees partitions trees partition = .ok built := by
  rw [builtTrees, if_neg h]
  exact ⟨_, rfl⟩

theorem less_int (m n : Int) : Value.less (.int m) (.int n) = .ok (decide (m < n)) := by
  rw [← Magnitude.below_ofInt]
  rfl

/-- All that matters of a partition is whether it is the first one. -/
theorem builtTrees_partitionNumber (partitions trees partition : Int) :
    builtTrees partitions trees (partitionNumber (.int partition)) =
      builtTrees partitions trees partition := by
  have hsame : Value.same (.int partition) (.int 0) = (partition == 0) := Magnitude.same_ofInt _ _
  rw [partitionNumber, hsame]
  by_cases h : partition = 0
  · simp [h]
  · simp [builtTrees, h]

theorem expectedTrees_int (partitions trees partition : Int) :
    expectedTrees partitions trees (.int partition) = concernedTrees partitions trees partition := by
  rw [expectedTrees, less_int]
  by_cases h : partition < 0
  · rw [decide_eq_true h, concernedTrees.eq_1 partitions trees partition, if_pos h]
    rfl
  · have hnumber : ¬partitionNumber (.int partition) < 0 := by
      rw [partitionNumber]
      split <;> decide
    rw [decide_eq_false h, concernedTrees.eq_1 partitions trees partition, if_neg h,
      ← builtTrees_partitionNumber]
    exact if_neg hnumber

/-- Loaded trees, unless their number is not the expected one. -/
def received (partition : Int) (loaded : List (TreeId × Tree)) (others : Int) :
    Except Error (List (TreeId × Tree)) :=
  if (loaded.length : Int) ≠ others then
    .error (.receivedTrees (Value.int partition).displayAlone (Value.int others).display
      loaded.length)
  else .ok loaded

variable {ids : List TreeId} {trees : List Tree}

/-- The checks on a file, in their order. -/
theorem load_contents (h : ids.length = trees.length) (sizes : List Value) (m n p : Int) :
    load (contents ids trees sizes) (.int m) (.int n) (.int p) =
      if m ≠ sizes.length then .error (.storedPartitions sizes.length (Value.int m).displayAlone)
      else if n ≠ trees.length then .error (.storedTrees trees.length (Value.int n).displayAlone)
      else concernedTrees m n p >>= received p (adopted (.int p) ids trees) := by
  obtain ⟨entries, hentries, hadopted⟩ := mapM_loadTree (.int p) ids trees
  have hcount : (List.zipWith entry ids trees).length = trees.length := by
    rw [List.length_zipWith, h, Nat.min_self]
  have hload : load (contents ids trees sizes) (.int m) (.int n) (.int p) =
      if !(Value.int m).same (.int sizes.length) then
        .error (.storedPartitions sizes.length (Value.int m).displayAlone)
      else if !(Value.int n).same (.int (List.zipWith entry ids trees).length) then
        .error (.storedTrees (List.zipWith entry ids trees).length (Value.int n).displayAlone)
      else (List.zipWith entry ids trees).mapM (loadTree (.int p)) >>= fun entries =>
        expectedTrees sizes.length (List.zipWith entry ids trees).length (.int p) >>=
          received p (entries.filterMap fun entry => entry) := by
    unfold load
    rfl
  have hm : (Value.int m).same (.int sizes.length) = (m == sizes.length) := Magnitude.same_ofInt _ _
  have hn : (Value.int n).same (.int trees.length) = (n == trees.length) := Magnitude.same_ofInt _ _
  rw [hload, hcount, hm, hn, hentries, expectedTrees_int]
  by_cases hsizes : m = sizes.length
  · by_cases htrees : n = trees.length
    · simp only [hsizes, htrees, beq_self_eq_true, Bool.not_true, Bool.false_eq_true, if_false,
        ne_eq, not_true_eq_false]
      rw [← hadopted]
      rfl
    · simp [hsizes, htrees]
  · simp [hsizes]

/-- A file that fits gives a partition the trees of all others. -/
theorem load_of_fits (h : ids.length = trees.length) {sizes : List Value} {m n p : Int}
    (hfits : Fits sizes.length trees.length (ids.countP fun id => !id.partition.same (.int p))
      m n p) :
    load (contents ids trees sizes) (.int m) (.int n) (.int p) =
      .ok (adopted (.int p) ids trees) := by
  have hcount := length_adopted (.int p) h
  rw [load_contents h, if_neg (not_not_intro hfits.partitions_eq.symm),
    if_neg (not_not_intro hfits.trees_eq.symm), hfits.others_eq]
  change received p _ _ = _
  rw [received, hcount, if_neg (not_not_intro rfl)]

/-- A file that does not fit is refused. -/
theorem load_of_not_fits (h : ids.length = trees.length) {sizes : List Value} {m n p : Int}
    (hm : m ≠ 0) (hfits : ¬Fits sizes.length trees.length
      (ids.countP fun id => !id.partition.same (.int p)) m n p) :
    ∃ error, load (contents ids trees sizes) (.int m) (.int n) (.int p) = .error error ∧
      error.kind = .value := by
  rw [load_contents h]
  by_cases hsizes : m = sizes.length
  · by_cases htrees : n = trees.length
    · rw [if_neg (not_not_intro hsizes), if_neg (not_not_intro htrees)]
      by_cases hp : p < 0
      · rw [concernedTrees, if_pos hp]
        exact ⟨_, rfl, rfl⟩
      · obtain ⟨built, hbuilt⟩ := builtTrees_of_ne hm n p
        have hothers := concernedTrees_of_ok (Int.not_lt.1 hp) hbuilt
        have hcount := length_adopted (.int p) h
        rw [hothers]
        change ∃ error, received p _ _ = _ ∧ _
        rw [received, hcount, if_pos]
        · exact ⟨_, rfl, rfl⟩
        · intro hequal
          exact hfits ⟨Int.not_lt.1 hp, hsizes.symm, htrees.symm, hequal ▸ hothers⟩
    · rw [if_neg (not_not_intro hsizes), if_pos htrees]
      exact ⟨_, rfl, rfl⟩
  · rw [if_pos hsizes]
    exact ⟨_, rfl, rfl⟩

end RowAlgebra.Forest
