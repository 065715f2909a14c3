import RowAlgebra.Forest.CrossValidation
import RowAlgebra.Proofs.Forest.Storing

/-!
# Every tree goes to all other partitions

The numbers of trees that the partitions build sum up to all trees (`sum_shares`), so the trees of a
forest can be numbered partition by partition, and the partition that has built a tree is known from
its number (`builder`). If the trees can be stored, each partition then loads exactly the trees of the
others, in the order of their numbers (`routing`). Other files are loaded just if they fit. Trees that
are too deep for the writer cannot be stored (`routing_needs_calls`).
-/

namespace RowAlgebra.Forest

open Json (Value)

/-! ## Shares -/

/-- The number of trees that a partition builds. -/
def share (partitions trees partition : Nat) : Nat :=
  if partition = 0 then trees / partitions + (trees - trees / partitions * partitions)
  else trees / partitions

def shares (partitions trees : Nat) : List Nat :=
  (List.range partitions).map (share partitions trees)

theorem builtTrees_eq {partitions : Nat} (h : 1 ≤ partitions) (trees partition : Nat) :
    builtTrees partitions trees partition = .ok (share partitions trees partition : Int) := by
  have hpartitions : (partitions : Int) ≠ 0 := by omega
  have hle := Nat.div_mul_le_self trees partitions
  rw [builtTrees, if_neg hpartitions, ← Int.ofNat_fdiv, share]
  by_cases hp : partition = 0
  · simp only [hp, Int.natCast_zero, if_true]
    rw [Int.natCast_add, Int.natCast_sub hle, Int.natCast_mul]
  · have hpartition : (partition : Int) ≠ 0 := by omega
    simp only [hp, hpartition, if_false]

theorem sum_shares {partitions : Nat} (h : 1 ≤ partitions) (trees : Nat) :
    (shares partitions trees).sum = trees := by
  obtain ⟨others, rfl⟩ : ∃ others, partitions = others + 1 := ⟨partitions - 1, by omega⟩
  have hothers : ((List.range others).map Nat.succ).map (share (others + 1) trees) =
      List.replicate others (trees / (others + 1)) := by
    rw [List.eq_replicate_iff]
    refine ⟨by simp, ?_⟩
    intro count hcount
    obtain ⟨p, hp, rfl⟩ := List.mem_map.1 hcount
    obtain ⟨q, -, rfl⟩ := List.mem_map.1 hp
    exact if_neg (Nat.succ_ne_zero q)
  have hle := Nat.div_mul_le_self trees (others + 1)
  rw [Nat.mul_succ] at hle
  rw [shares, List.range_succ_eq_map, List.map_cons, hothers, List.sum_cons,
    List.sum_replicate_nat, share, if_pos rfl, Nat.mul_succ, Nat.mul_comm others]
  omega

theorem exists_counts {partitions : Nat} (h : 1 ≤ partitions) (trees : Nat) :
    ∃ counts : List Nat, counts.length = partitions ∧ counts.sum = trees ∧
      ∀ partition (h : partition < counts.length),
        builtTrees partitions trees partition = .ok (counts[partition] : Int) := by
  refine ⟨shares partitions trees, by simp [shares], sum_shares h trees, fun partition _ => ?_⟩
  rw [builtTrees_eq h]
  simp [shares]

/-! ## Builders -/

/-- The partition that builds a tree, if each builds the given number of trees in turn. -/
def builder : List Nat → Nat → Nat
  | [], _ => 0
  | count :: counts, i => if i < count then 0 else builder counts (i - count) + 1

theorem builder_add (count : Nat) (counts : List Nat) (i : Nat) :
    builder (count :: counts) (count + i) = builder counts i + 1 := by
  rw [builder, if_neg (by omega), Nat.add_sub_cancel_left]

/-- A partition builds the trees from the number of those that the partitions before it build up to
the number of those that it has then built with them. -/
theorem builder_eq_iff {counts : List Nat} {i : Nat} (hi : i < counts.sum) (p : Nat) :
    builder counts i = p ↔ (counts.take p).sum ≤ i ∧ i < (counts.take (p + 1)).sum := by
  induction counts generalizing i p with
  | nil => simp at hi
  | cons count counts ih =>
    rw [List.sum_cons] at hi
    by_cases hfirst : i < count
    · cases p with
      | zero => simp [builder, hfirst]
      | succ p =>
        simp only [builder, hfirst, if_true, List.take_succ_cons, List.sum_cons]
        omega
    · obtain ⟨j, rfl⟩ : ∃ j, i = count + j := ⟨i - count, by omega⟩
      rw [builder_add]
      cases p with
      | zero => simp
      | succ p =>
        have hj := ih (i := j) (by omega) p
        simp only [List.take_succ_cons, List.sum_cons] at hj ⊢
        omega

theorem countP_builder (counts : List Nat) (p : Nat) :
    (List.range counts.sum).countP (fun i => builder counts i == p) = counts.getD p 0 := by
  induction counts generalizing p with
  | nil => rfl
  | cons count counts ih =>
    have hfirst : (List.range count).countP (fun i => builder (count :: counts) i == p) =
        if p = 0 then count else 0 := by
      have hbuilder : ∀ i ∈ List.range count,
          (builder (count :: counts) i == p) = decide (p = 0) := by
        intro i hi
        rw [builder, if_pos (List.mem_range.1 hi)]
        rw [Bool.eq_iff_iff, beq_iff_eq, decide_eq_true_iff]
        exact eq_comm
      rw [List.countP_congr fun i hi => by rw [hbuilder i hi]]
      by_cases hp : p = 0 <;> simp [hp]
    rw [List.sum_cons, List.range_add, List.countP_append, List.countP_map, hfirst]
    simp only [Function.comp_def, builder_add]
    cases p with
    | zero => simp
    | succ p => simpa using ih p

theorem builtIds_eq (counts : List Nat) (first partition : Nat) :
    builtIds first ((List.range' partition counts.length).zip counts) =
      (List.range counts.sum).map fun i =>
        ⟨.int (partition + builder counts i : Nat), .int (first + i : Nat)⟩ := by
  induction counts generalizing first partition with
  | nil => rfl
  | cons count counts ih =>
    rw [List.length_cons, List.range'_succ, List.zip_cons_cons, builtIds, ih, List.sum_cons,
      List.range_add, List.map_append, List.map_map]
    congr 1
    · apply List.map_congr_left
      intro i hi
      rw [builder, if_pos (List.mem_range.1 hi), Nat.add_zero]
    · apply List.map_congr_left
      intro i _
      simp only [Function.comp_apply, builder_add]
      rw [Nat.add_assoc first, Nat.add_right_comm, Nat.add_assoc partition]

/-! ## Routing -/

/-- The trees whose number is not among those of one partition, as trees of that partition. -/
def othersOf (counts : List Nat) (trees : List Tree) (partition : Nat) : List (TreeId × Tree) :=
  (trees.zipIdx.filter fun e =>
      !((counts.take partition).sum ≤ e.2 && e.2 < (counts.take (partition + 1)).sum)).map
    fun e => (⟨.int partition, .int e.2⟩, e.1)

theorem same_int (m n : Nat) : Value.same (.int m) (.int n) = (m == n) := by
  have hsame : Value.same (.int m) (.int n) = ((m : Int) == n) := Magnitude.same_ofInt _ _
  rw [hsame, Bool.eq_iff_iff, beq_iff_eq, beq_iff_eq, Int.natCast_inj]

variable {counts : List Nat} {trees : List Tree} {partition : Nat}

theorem builtIds_range (counts : List Nat) :
    builtIds 0 ((List.range counts.length).zip counts) =
      (List.range counts.sum).map fun i => ⟨.int (builder counts i : Nat), .int (i : Nat)⟩ := by
  rw [List.range_eq_range', builtIds_eq]
  simp only [Nat.zero_add, List.range_eq_range']

theorem length_builtIds (h : counts.sum = trees.length) :
    (builtIds 0 ((List.range counts.length).zip counts)).length = trees.length := by
  rw [builtIds_range, List.length_map, List.length_range, h]

theorem adopted_builtIds (h : counts.sum = trees.length) (partition : Nat) :
    adopted (.int partition) (builtIds 0 ((List.range counts.length).zip counts)) trees =
      othersOf counts trees partition := by
  have hzip : (builtIds 0 ((List.range counts.length).zip counts)).zip trees =
      trees.zipIdx.map fun e => (⟨.int (builder counts e.2 : Nat), .int (e.2 : Nat)⟩, e.1) := by
    rw [builtIds_range, h]
    apply List.ext_getElem
    · simp
    · intro i hi hi'
      simp
  rw [adopted, hzip, List.filter_map, List.map_map, othersOf]
  congr 1
  apply List.filter_congr
  rintro ⟨tree, i⟩ he
  have hi : i < counts.sum := by
    have := List.snd_lt_of_mem_zipIdx he
    omega
  have hbuilder := builder_eq_iff hi partition
  simp only [Function.comp_apply, same_int, Bool.not_inj_iff]
  rw [Bool.eq_iff_iff]
  simpa using hbuilder

theorem countP_builtIds (h : counts.sum = trees.length) {partition : Nat}
    (hpartition : partition < counts.length) :
    ((builtIds 0 ((List.range counts.length).zip counts)).countP
        fun id => !id.partition.same (.int partition)) + counts[partition] = trees.length := by
  have hown := countP_builder counts partition
  have hget : counts.getD partition 0 = counts[partition] := by simp [List.getD, hpartition]
  have hall := List.length_eq_countP_add_countP (fun i => builder counts i == partition)
    (l := List.range counts.sum)
  rw [List.length_range, hown, hget] at hall
  simp only [Bool.not_eq_true, Bool.decide_eq_false] at hall
  rw [builtIds_range, List.countP_map]
  simp only [Function.comp_def, same_int]
  omega

theorem loadText_of_parse {file : String} {v : Value} (h : Json.parse file = .ok v) (m n p : Value) :
    loadText file m n p = load v m n p := by
  rw [loadText, h]
  rfl

/-- **Every tree goes to all partitions but the one that has built it.** The trees that the partitions
build are all trees. They can be stored with the identifiers that they then have just if enough calls of
the writer may be open, and each partition loads exactly the trees of the others from the text of the
file, in the order of their numbers, as its own. Any other stored trees are loaded just if the file fits
the partition, and are refused as a wrong value if it does not. -/
theorem routing :
    (∀ (partitions : Nat) (trees : List Tree), 1 ≤ partitions →
      ∃ counts : List Nat, counts.length = partitions ∧ counts.sum = trees.length ∧
        (∀ partition (h : partition < counts.length),
          builtTrees partitions trees.length partition = .ok (counts[partition] : Int)) ∧
        ∀ ids sizes, ids = builtIds 0 ((List.range partitions).zip counts) →
          sizes.length = partitions → PortableFile ids trees sizes →
          ∀ room ≤ Json.nestingLimit,
            (room < storeFrames ids trees sizes →
              store room ids trees sizes = .error (.fault .recursion)) ∧
            (storeFrames ids trees sizes ≤ room →
              ∃ file, store room ids trees sizes = .ok file ∧
                ∀ partition < partitions,
                  loadText file.shown (.int partitions) (.int trees.length) (.int partition) =
                    .ok (othersOf counts trees partition))) ∧
    ∀ ids trees sizes, PortableFile ids trees sizes → ∀ room ≤ Json.nestingLimit,
      ∀ file, store room ids trees sizes = .ok file → ∀ m n p : Int, m ≠ 0 →
        ((∃ loaded, loadText file.shown (.int m) (.int n) (.int p) = .ok loaded) ↔
          Fits sizes.length trees.length (ids.countP fun id => !id.partition.same (.int p)) m n p) ∧
        ∀ error, loadText file.shown (.int m) (.int n) (.int p) = .error error →
          error.kind = .value := by
  refine ⟨fun partitions trees hpartitions => ?_,
    fun ids trees sizes hportable room hroom file hstore m n p hm => ?_⟩
  · obtain ⟨counts, rfl, hsum, hbuilt⟩ := exists_counts hpartitions trees.length
    refine ⟨counts, rfl, hsum, hbuilt, ?_⟩
    rintro _ sizes rfl hsizes hportable room hroom
    have hlength := length_builtIds hsum
    refine ⟨store_of_lt hportable hlength, fun hframes => ?_⟩
    obtain ⟨file, hstore⟩ := store_of_le hportable hlength hframes
    have hfile := (parse_of_store hportable hroom hstore).2
    refine ⟨file, hstore, fun partition hpartition => ?_⟩
    have hcount := countP_builtIds hsum hpartition
    have hothers := concernedTrees_of_ok (Int.natCast_nonneg partition) (hbuilt partition hpartition)
    rw [loadText_of_parse hfile, load_of_fits hlength, adopted_builtIds hsum]
    refine ⟨Int.natCast_nonneg partition, congrArg Int.ofNat hsizes, rfl, ?_⟩
    rw [hothers]
    congr 1
    omega
  · obtain ⟨hlength, hfile⟩ := parse_of_store hportable hroom hstore
    rw [loadText_of_parse hfile]
    by_cases hfits : Fits sizes.length trees.length
        (ids.countP fun id => !id.partition.same (.int p)) m n p
    · rw [load_of_fits hlength hfits]
      exact ⟨⟨fun _ => hfits, fun _ => ⟨_, rfl⟩⟩, nofun⟩
    · obtain ⟨error, herror, hkind⟩ := load_of_not_fits hlength hm hfits
      rw [herror]
      refine ⟨⟨?_, fun h => absurd h hfits⟩, ?_⟩
      · rintro ⟨_, ⟨⟩⟩
      · rintro _ ⟨⟩
        exact hkind

/-! ### A forest with a single tree -/

def sampleTree : Tree :=
  .leaf (.int 7)

/-- The first of two partitions builds the only tree, and the second one loads it. -/
theorem routing_sampleTree :
    ∃ file, store Json.nestingLimit [⟨.int 0, .int 0⟩] [sampleTree] [.int 4, .int 4] = .ok file ∧
      loadText file.shown (.int 2) (.int 1) (.int 1) = .ok [(⟨.int 1, .int 0⟩, sampleTree)] ∧
      ∃ error, loadText file.shown (.int 2) (.int 1) (.int (-1)) = .error error ∧
        error.kind = .value := by
  obtain ⟨counts, hlength, hsum, hbuilt, hfile⟩ := routing.1 2 [sampleTree] (by decide)
  obtain ⟨first, second, rfl⟩ := List.length_eq_two.1 hlength
  have hbuilds : builtTrees 2 1 0 = .ok 1 := rfl
  have hfirst : (1 : Int) = first := Except.ok.inj (hbuilds.symm.trans (hbuilt 0 Nat.two_pos))
  have hall : first + second = 1 := by simpa using hsum
  obtain rfl : first = 1 := by omega
  obtain rfl : second = 0 := by omega
  have hportable : PortableFile [⟨.int 0, .int 0⟩] [sampleTree] [.int 4, .int 4] := by
    refine ⟨List.forall_mem_singleton.2 ⟨rfl, rfl⟩, List.forall_mem_singleton.2 fun v hv => ?_,
      fun size hsize => ?_⟩
    · rw [List.mem_singleton.1 hv]
      rfl
    · rw [List.eq_of_mem_replicate (n := 2) hsize]
      rfl
  obtain ⟨file, hstore, hload⟩ := (hfile [⟨.int 0, .int 0⟩] [.int 4, .int 4] rfl rfl hportable
    Json.nestingLimit (Nat.le_refl _)).2 (by decide)
  refine ⟨file, hstore, hload 1 (by decide), ?_⟩
  obtain ⟨hfits, hkind⟩ := routing.2 _ _ _ hportable _ (Nat.le_refl _) file hstore 2 1 (-1) (by decide)
  cases hloaded : loadText file.shown (.int 2) (.int 1) (.int (-1)) with
  | ok loaded =>
    have := (hfits.1 ⟨loaded, hloaded⟩).partition_nonneg
    omega
  | error error => exact ⟨error, rfl, hkind error hloaded⟩

/-! ### A tree that is too deep -/

/-- A tree in which each split stands above the next one. -/
def chain : Nat → Tree
  | 0 => .leaf (.int 0)
  | n + 1 => .split (.int 0) (.int 0) (.leaf (.int 0)) (chain n)

theorem depth_chain (n : Nat) : (chain n).depth = n + 1 := by
  induction n with
  | zero => rfl
  | succ n ih =>
    rw [chain, Tree.depth, ih, Tree.depth, Nat.max_eq_right (Nat.le_add_left _ _)]

theorem eq_zero_of_mem_chain {n : Nat} {v : Value} (h : v ∈ (chain n).values) : v = .int 0 := by
  induction n with
  | zero => exact List.mem_singleton.1 h
  | succ n ih =>
    simp only [chain, Tree.values, List.mem_cons, List.mem_append, List.not_mem_nil, or_false] at h
    rcases h with h | h | h | h
    · exact h
    · exact h
    · exact h
    · exact ih h

/-- The first of two partitions builds a single tree, and it cannot be stored. -/
theorem routing_needs_calls :
    PortableFile [⟨.int 0, .int 0⟩] [chain 350] [.int 1, .int 1] ∧
      builtTrees 2 1 0 = .ok 1 ∧ builtTrees 2 1 1 = .ok 0 ∧
      store Json.nestingLimit [⟨.int 0, .int 0⟩] [chain 350] [.int 1, .int 1] =
        .error (.fault .recursion) := by
  have hportable : PortableFile [⟨.int 0, .int 0⟩] [chain 350] [.int 1, .int 1] := by
    refine ⟨List.forall_mem_singleton.2 ⟨rfl, rfl⟩, List.forall_mem_singleton.2 fun v hv => ?_,
      fun size hsize => ?_⟩
    · rw [eq_zero_of_mem_chain hv]
      rfl
    · rw [List.eq_of_mem_replicate (n := 2) hsize]
      rfl
  refine ⟨hportable, rfl, rfl, store_of_deep hportable rfl (List.mem_singleton_self _) ?_⟩
  rw [depth_chain]
  decide

end RowAlgebra.Forest
