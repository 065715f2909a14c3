import RowAlgebra.Forest.Share
import RowAlgebra.Proofs.Forest.Loading

/-!
# A data set in parts

A data set that is cut into parts is given by its slices (`splitData_eq_slices`): the parts but the
last one are consecutive slices of one size, and the last part is the rest behind them. Put together,
slices are what they were cut from (`flatten_slices`), so no instance is lost and none stands in two
parts (`splitData_exact`).
-/

namespace RowAlgebra.Forest

variable {β : Type}

/-! ## Slices -/

/-- The first slices of a data set, which have one size. -/
def slices (size count : Nat) (data : List β) : List (List β) :=
  (List.range count).map fun i => data.extract (i * size) ((i + 1) * size)

theorem extract_slice (size i : Nat) (data : List β) :
    data.extract (i * size) ((i + 1) * size) = (data.drop (i * size)).take size := by
  rw [List.extract_eq_take_drop, Nat.succ_mul, Nat.add_sub_cancel_left]

theorem slices_succ (size count : Nat) (data : List β) :
    slices size (count + 1) data = data.take size :: slices size count (data.drop size) := by
  simp only [slices, List.range_succ_eq_map, List.map_cons, List.map_map, extract_slice]
  congr 1
  · rw [Nat.zero_mul, List.drop_zero]
  · refine List.map_congr_left fun i _ => ?_
    rw [Function.comp_apply, List.drop_drop, Nat.succ_mul, Nat.add_comm size]

theorem cut_eq_slices (size count rest : Nat) (data : List β) :
    Collection.cut (List.replicate count size ++ [rest]) data =
      slices size count data ++ [(data.drop (count * size)).take rest] := by
  induction count generalizing data with
  | zero => simp [Collection.cut, slices]
  | succ count ih =>
    rw [List.replicate_succ, List.cons_append, Collection.cut, ih, slices_succ, List.cons_append,
      List.drop_drop, Nat.succ_mul, Nat.add_comm size]

/-- Slices are put together to what they cover. -/
theorem flatten_slices (size count : Nat) (data : List β) :
    (slices size count data).flatten = data.take (count * size) := by
  induction count with
  | zero => simp [slices]
  | succ count ih =>
    rw [slices, List.range_succ, List.map_append, List.flatten_append, ← slices, ih,
      List.map_singleton, List.flatten_singleton, extract_slice, Nat.succ_mul, List.take_add]

theorem length_of_mem_slices {size count : Nat} {data part : List β}
    (hcount : count * size ≤ data.length) (h : part ∈ slices size count data) :
    part.length = size := by
  obtain ⟨i, hi, rfl⟩ := List.mem_map.1 h
  have hle : (i + 1) * size ≤ count * size :=
    Nat.mul_le_mul_right size (List.mem_range.1 hi)
  rw [Nat.succ_mul] at hle
  rw [extract_slice, List.length_take, List.length_drop]
  omega

/-! ## Parts -/

/-- At least one part of a data set: slices, and what is behind them. -/
theorem splitData_eq_slices (data : List β) (others : Nat) :
    splitData data (.int (others + 1 : Nat)) = .ok (
      slices (data.length / (others + 1)) others data ++
        [data.drop (others * (data.length / (others + 1)))]) := by
  have hsizes : partSizes data.length (others + 1) =
      List.replicate others (data.length / (others + 1)) ++
        [data.length - others * (data.length / (others + 1))] := rfl
  have hsplit : splitData data (.int (others + 1 : Nat)) =
      .ok (Collection.cut (partSizes data.length (others + 1)) data) := by
    rw [splitData, less_int, decide_eq_false (by omega)]
    rfl
  rw [hsplit, hsizes, cut_eq_slices, List.take_of_length_le (List.length_drop ▸ Nat.le_refl _)]

theorem splitData_of_lt {k : Int} (h : k < 1) (data : List β) :
    ∃ error, splitData data (.int k) = .error error ∧ error.kind = .value := by
  rw [splitData, less_int, decide_eq_true h]
  exact ⟨_, rfl, rfl⟩

/-- What slices leave of a data set is a slice more and fewer instances than parts. -/
theorem length_rest (data : List β) (others : Nat) :
    others * (data.length / (others + 1)) ≤ data.length ∧
      data.length / (others + 1) ≤ data.length - others * (data.length / (others + 1)) ∧
      data.length - others * (data.length / (others + 1)) <
        data.length / (others + 1) + (others + 1) := by
  have hall := Nat.div_add_mod data.length (others + 1)
  have hmod : data.length % (others + 1) < others + 1 := Nat.mod_lt _ (Nat.succ_pos others)
  rw [Nat.succ_mul] at hall
  generalize data.length / (others + 1) = size at *
  omega

/-- **Cutting a data set into parts loses and doubles nothing.** There are as many parts as asked for,
which put together are the data set in its order; all but the last one have the same size, and the last
one takes the remaining instances, of which there are fewer than parts. A number of parts below one
is refused as a wrong value. -/
theorem splitData_exact (data : List β) (k : Int) :
    (1 ≤ k → ∃ parts last, splitData data (.int k) = .ok (parts ++ [last]) ∧
      (parts ++ [last]).flatten = data ∧
      ((parts ++ [last]).length : Int) = k ∧
      (∀ part ∈ parts, (part.length : Int) = data.length / k) ∧
      (last.length : Int) = data.length - (k - 1) * (data.length / k) ∧
      (data.length / k : Int) ≤ last.length ∧ (last.length : Int) < data.length / k + k) ∧
    (k < 1 → ∃ error, splitData data (.int k) = .error error ∧ error.kind = .value) := by
  refine ⟨fun hk => ?_, fun hk => splitData_of_lt hk data⟩
  obtain ⟨others, rfl⟩ : ∃ others : Nat, k = (others + 1 : Nat) := ⟨(k - 1).toNat, by omega⟩
  obtain ⟨hcovered, hlower, hupper⟩ := length_rest data others
  have hothers : ((others + 1 : Nat) - 1 : Int) = others := by omega
  rw [hothers, ← Int.natCast_ediv, ← Int.natCast_mul]
  refine ⟨_, _, splitData_eq_slices data others, ?_, ?_, fun part hpart => ?_, ?_⟩
  · rw [List.flatten_append, flatten_slices, List.flatten_singleton, List.take_append_drop]
  · simp [slices]
  · rw [length_of_mem_slices hcovered hpart]
  · rw [List.length_drop, Int.natCast_sub hcovered]
    refine ⟨rfl, ?_, ?_⟩ <;> omega

/-- Two instances in three parts, and in none. -/
theorem splitData_exact_fewInstances :
    (1 ≤ (3 : Int) ∧ ∃ parts last, splitData [7, 8] (.int 3) = .ok (parts ++ [last]) ∧
      (parts ++ [last]).flatten = [7, 8] ∧ (∀ part ∈ parts, part = []) ∧ last.length = 2) ∧
    (0 : Int) < 1 ∧ ∃ error, splitData [7, 8] (.int 0) = .error error ∧ error.kind = .value := by
  obtain ⟨parts, last, hparts, hflatten, -, hsizes, hlast, -⟩ :=
    (splitData_exact [7, 8] 3).1 (by decide)
  refine ⟨⟨by decide, parts, last, hparts, hflatten, fun part hpart => ?_, ?_⟩, by decide,
    (splitData_exact [7, 8] 0).2 (by decide)⟩
  · exact List.length_eq_zero_iff.1 (Int.natCast_inj.1 (hsizes part hpart))
  · exact Int.natCast_inj.1 hlast

end RowAlgebra.Forest
