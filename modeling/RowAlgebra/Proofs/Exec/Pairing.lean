import RowAlgebra.Exec
import RowAlgebra.Proofs.Key.Value
import Mathlib.Data.List.Forall2

/-!
# How rows are paired

A product `A'B` adds up the outer products of rows with equal keys. It pairs the rows by position if
both operands are known to be partitioned alike, partition by partition, and looks each key up
otherwise; a product `A'A` pairs each row with itself. All three are one loop over the rows of `A`
(`foldlM_eq_addZipped`) once each key of `A` finds the row at its own position in `B`
(`find?_rows`). So **the way of pairing never shows** (`pairing_immaterial`), whatever adding and
multiplying cells means.
-/

namespace RowAlgebra

variable {α : Type}

/-! ## Rows at equal positions -/

namespace Collection

/-- Whether no key comes twice. -/
def DistinctKeys (c : Collection α) : Prop :=
  c.keys.Pairwise fun k l => k.same l = false

theorem DistinctKeys.nodup {c : Collection α} (h : c.DistinctKeys) (hv : c.Valued) :
    (c.keys.map Key.value?).Nodup := by
  refine List.pairwise_map.2 (List.Pairwise.imp_of_mem (fun {k l} hk _ hkl heq => ?_) h)
  have hsame : k.same l = true := Key.same_iff.2 ⟨hv k hk, heq⟩
  rw [hkl] at hsame
  cases hsame

theorem findIn?_eq_none {k : Key} {rows : List (KeyedRow α)}
    (h : ∀ entry ∈ rows, k.same entry.1 = false) : findIn? k rows = none := by
  induction rows with
  | nil => rfl
  | cons entry rows ih =>
    obtain ⟨hentry, hrows⟩ := List.forall_mem_cons.1 h
    rw [findIn?, ih hrows, hentry]
    rfl

/-- Where no value comes twice, a search finds the row whose key has the value. -/
theorem findIn?_of_mem {rows : List (KeyedRow α)} (h : (rows.map fun e => e.1.value?).Nodup)
    {k : Key} (hk : k.value?.isSome = true) {entry : KeyedRow α} (he : entry ∈ rows)
    (hv : k.value? = entry.1.value?) : findIn? k rows = some entry.2 := by
  induction rows with
  | nil => cases he
  | cons e rows ih =>
    obtain ⟨hnew, hrows⟩ := List.nodup_cons.1 h
    rw [findIn?]
    rcases List.mem_cons.1 he with rfl | he
    · have hrest : findIn? k rows = none := by
        refine findIn?_eq_none fun other ho => Bool.eq_false_iff.2 fun hs => hnew ?_
        change entry.1.value? ∈ _
        rw [← hv, (Key.same_iff.1 hs).2]
        exact List.mem_map_of_mem (f := fun e : KeyedRow α => e.1.value?) ho
      have hfound : k.same entry.1 = true := Key.same_iff.2 ⟨hk, hv⟩
      rw [hrest, hfound]
      rfl
    · rw [ih hrows he]

section SameKeys

variable {c d : Collection α} (h : c.samePartitionKeys d = true)

include h in
theorem length_eq_of_samePartitionKeys :
    List.Forall₂ (fun p q => p.length = q.length) c.partitions d.partitions := by
  obtain ⟨-, hlayout⟩ := samePartitionKeys_iff.1 h
  unfold layout partitionKeys at hlayout
  rw [List.map_map, List.map_map] at hlayout
  have h := List.forall₂_map_left_iff.1 (List.forall₂_map_right_iff.1
    (List.forall₂_eq_eq_eq ▸ hlayout))
  exact h.imp fun p q hpq => by simpa using congrArg List.length hpq

include h in
theorem values_eq_of_samePartitionKeys :
    (c.rows.map fun e => e.1.value?) = d.rows.map fun e => e.1.value? := by
  obtain ⟨-, hlayout⟩ := samePartitionKeys_iff.1 h
  have hflat := congrArg List.flatten hlayout
  simpa [layout, partitionKeys, rows, List.map_flatten, Function.comp_def] using hflat

include h in
/-- Each key finds the row at its own position. -/
theorem find?_rows (hc : c.DistinctKeys) :
    List.Forall₂ (fun x y => c.find? x.1 = some x.2 ∧ d.find? x.1 = some y.2) c.rows d.rows := by
  obtain ⟨hvalued, -⟩ := samePartitionKeys_iff.1 h
  have hvalues := values_eq_of_samePartitionKeys h
  have hnodup := hc.nodup hvalued
  rw [keys, List.map_map] at hnodup
  have hpaired : List.Forall₂ (fun x y : KeyedRow α => x.1.value? = y.1.value?) c.rows d.rows :=
    List.forall₂_map_left_iff.1 (List.forall₂_map_right_iff.1 (List.forall₂_eq_eq_eq ▸ hvalues))
  obtain ⟨hlength, hzip⟩ := List.forall₂_iff_zip.1 hpaired
  refine List.forall₂_iff_zip.2 ⟨hlength, fun {x y} hxy => ?_⟩
  obtain ⟨hx, hy⟩ := List.of_mem_zip hxy
  have hsome : x.1.value?.isSome = true := hvalued _ (List.mem_map_of_mem hx)
  exact ⟨findIn?_of_mem hnodup hsome hx rfl, findIn?_of_mem (hvalues ▸ hnodup) hsome hy (hzip hxy)⟩

end SameKeys

end Collection

/-! ## One loop over rows -/

variable [Cell α]

namespace Handle

theorem addZipped_append {r c : Nat} {p q : List (KeyedRow α)} (h : p.length = q.length)
    (ps qs : List (KeyedRow α)) (grid : Grid α r c) :
    addZipped grid (p ++ ps) (q ++ qs) = (addZipped grid p q >>= fun grid => addZipped grid ps qs) := by
  induction p generalizing q grid with
  | nil =>
    obtain rfl := List.length_eq_zero_iff.1 h.symm
    rfl
  | cons a p ih =>
    cases q with
    | nil => cases h
    | cons b q =>
      rw [List.cons_append, List.cons_append, addZipped, addZipped, bind_assoc]
      exact bind_congr fun grid => ih (Nat.succ.inj h) grid

/-- Zipping partition by partition is zipping all rows, if partitions are equally long. -/
theorem addZippedPartitions_eq {r c : Nat} {ps qs : List (List (KeyedRow α))}
    (h : List.Forall₂ (fun p q => p.length = q.length) ps qs) (grid : Grid α r c) :
    addZippedPartitions grid ps qs = addZipped grid ps.flatten qs.flatten := by
  induction h generalizing grid with
  | nil => rfl
  | cons hlength _ ih =>
    rw [addZippedPartitions, List.flatten_cons, List.flatten_cons, addZipped_append hlength]
    exact bind_congr fun grid => ih grid

/-- A loop that adds the outer product of each row and its partner zips the rows. -/
theorem foldlM_eq_addZipped {r c : Nat} {step : Grid α r c → KeyedRow α → Except Error (Grid α r c)}
    {as bs : List (KeyedRow α)}
    (h : List.Forall₂ (fun x y => ∀ grid, step grid x = Cells.addOuter grid x.2 y.2) as bs)
    (grid : Grid α r c) : as.foldlM step grid = addZipped grid as bs := by
  induction h generalizing grid with
  | nil => rfl
  | cons hstep _ ih =>
    rw [List.foldlM_cons, addZipped, hstep]
    exact bind_congr fun grid => ih grid

variable {a b : Handle α}

section Pairing

variable (hsame : a.collection.samePartitionKeys b.collection = true)
  (hdistinct : a.collection.DistinctKeys)

include hsame hdistinct in
theorem foldlM_addJoined_eq {r c : Nat} (grid : Grid α r c) :
    a.collection.rows.foldlM (addJoined b.collection.index) grid =
      addZipped grid a.collection.rows b.collection.rows := by
  refine foldlM_eq_addZipped ((Collection.find?_rows hsame hdistinct).imp fun x y hxy grid => ?_) grid
  rw [addJoined, Collection.find?_index, hxy.2]

include hsame hdistinct in
theorem foldlM_addOuter_eq {r c : Nat}
    (hrows : ∀ k ∈ a.collection.keys, a.collection.find? k = b.collection.find? k)
    (grid : Grid α r c) :
    a.collection.rows.foldlM (fun grid entry => Cells.addOuter grid entry.2 entry.2) grid =
      addZipped grid a.collection.rows b.collection.rows := by
  obtain ⟨hlength, hfound⟩ := List.forall₂_iff_zip.1 (Collection.find?_rows hsame hdistinct)
  refine foldlM_eq_addZipped (List.forall₂_iff_zip.2 ⟨hlength, fun {x y} hxy grid => ?_⟩) grid
  have hkey : x.1 ∈ a.collection.keys := List.mem_map_of_mem (List.of_mem_zip hxy).1
  obtain ⟨hx, hy⟩ := hfound hxy
  rw [← hrows _ hkey, hx] at hy
  rw [Option.some.inj hy]

include hsame hdistinct in
/-- Pairing by position computes what pairing by key computes. -/
theorem transposedTimes_zippable (shape : Shape) :
    a.transposedTimes b shape true = a.transposedTimes b shape false := by
  have hzip {r c : Nat} (grid : Grid α r c) : addZippedPartitions grid a.collection.partitions
      b.collection.partitions = a.collection.rows.foldlM (addJoined b.collection.index) grid := by
    rw [addZippedPartitions_eq (Collection.length_eq_of_samePartitionKeys hsame),
      foldlM_addJoined_eq hsame hdistinct]
    rfl
  simp only [transposedTimes, hsame, if_true, hzip, Bool.false_eq_true, if_false]

include hsame hdistinct in
/-- Pairing each row with itself computes what pairing by key computes, if rows with equal keys are
equal. -/
theorem gramian_eq (hrows : ∀ k ∈ a.collection.keys, a.collection.find? k = b.collection.find? k)
    (shape : Shape) : a.gramian shape = a.transposedTimes b shape false := by
  have hfold {r c : Nat} (grid : Grid α r c) : a.collection.rows.foldlM
      (fun grid entry => Cells.addOuter grid entry.2 entry.2) grid =
        a.collection.rows.foldlM (addJoined b.collection.index) grid := by
    rw [foldlM_addOuter_eq hsame hdistinct hrows, foldlM_addJoined_eq hsame hdistinct]
  simp only [gramian, transposedTimes, hfold, Bool.false_eq_true, if_false]

end Pairing

/-- **The way of pairing never shows**: of operands with the same distinct keys at the same places,
the product is the same whether rows are paired by position or by key, and if the operands have
equal rows, it is the self-gramian, too. So no tag and no rule for self-gramians changes a result,
be it a handle or an error. -/
theorem pairing_immaterial (hsame : a.collection.samePartitionKeys b.collection = true)
    (hdistinct : a.collection.DistinctKeys) :
    (∀ shape, a.transposedTimes b shape true = a.transposedTimes b shape false) ∧
    (∀ out left right left' right',
      (BinaryOp.matMulTransA.kernel? out left right).map (fun kernel => kernel.run (a, b)) =
        (BinaryOp.matMulTransA.kernel? out left' right').map fun kernel => kernel.run (a, b)) ∧
    ((∀ k ∈ a.collection.keys, a.collection.find? k = b.collection.find? k) →
      (∀ shape zippable, a.gramian shape = a.transposedTimes b shape zippable) ∧
      ∀ (blocks : BlockCatalogue α) call out left right,
        (UnaryOp.selfGramian.kernel? blocks call out).map (fun kernel => kernel.run a) =
          (BinaryOp.matMulTransA.kernel? out left right).map fun kernel => kernel.run (a, b)) := by
  have hany (shape : Shape) (zippable : Bool) :
      a.transposedTimes b shape zippable = a.transposedTimes b shape false := by
    cases zippable with
    | false => rfl
    | true => exact transposedTimes_zippable hsame hdistinct shape
  refine ⟨fun shape => hany shape true, fun out l r l' r' => ?_, fun hrows => ⟨fun shape z => ?_,
    fun blocks call out l r => ?_⟩⟩
  · exact congrArg some (bind_congr fun shape => (hany shape _).trans (hany shape _).symm)
  · exact (gramian_eq hsame hdistinct hrows shape).trans (hany shape z).symm
  · exact congrArg some (bind_congr fun shape =>
      (gramian_eq hsame hdistinct hrows shape).trans (hany shape _).symm)

/-- Integers and truth values as keys of equal rows, with an empty partition between them. -/
theorem pairing_immaterial_truth_values :
    let row (x : Float) : Cells Float := .plain [x, x]
    let a : Handle Float := ⟨⟨[[(.int 1, row 0.1)], [], [(.int 0, row 0.2)]], .int⟩, 2⟩
    let b : Handle Float := ⟨⟨[[(.bool true, row 0.1)], [], [(.bool false, row 0.2)]], .bool⟩, 2⟩
    (∀ shape, a.transposedTimes b shape true = a.transposedTimes b shape false) ∧
      ∀ shape, a.gramian shape = a.transposedTimes b shape true := by
  intro row a b
  have hsame : a.collection.samePartitionKeys b.collection = true := rfl
  have hdistinct : a.collection.DistinctKeys :=
    .cons (List.forall_mem_singleton.2 rfl) (List.pairwise_singleton _ _)
  obtain ⟨hzip, -, hgramian⟩ := pairing_immaterial hsame hdistinct
  refine ⟨hzip, fun shape => (hgramian ?_).1 shape true⟩
  rintro k (_ | ⟨_, _ | ⟨_, ⟨⟩⟩⟩) <;> rfl

end Handle

end RowAlgebra
