import RowAlgebra.Proofs.Forest.Loading
import RowAlgebra.Proofs.Forest.Validation

/-!
# What a validation predicts

The predictions of a validation are told by the last calls: the prediction of a tree for an instance is
the label of the sample that was last handed in for it, and the unknown one if there was none
(`Tree.prediction`). One call changes this at its instance only (`filled_row`), so it holds after any
sequence of calls on samples that all trees classify (`after_requests`). Everything else follows:
which calls are accepted, what the outputs are, and that calls for different instances commute
(`outputs_of_last_calls`).
-/

namespace RowAlgebra.Forest

open Json (Value)

/-! ## Labels -/

namespace Tree

/-- The labels at the leaves. -/
def labels : Tree → List Value
  | leaf label => [label]
  | split _ _ lo hi => lo.labels ++ hi.labels

theorem mem_labels_of_classify {tree : Tree} {sample : Sample} {label : Value}
    (h : tree.classify sample = .ok label) : label ∈ tree.labels := by
  induction tree with
  | leaf l =>
    cases h
    exact List.mem_singleton_self label
  | split feature threshold lo hi ihlo ihhi =>
    obtain ⟨v, -, h⟩ := bind_eq_ok_iff.1 h
    obtain ⟨below, -, h⟩ := bind_eq_ok_iff.1 h
    cases below with
    | true => exact List.mem_append_left _ (ihlo h)
    | false => exact List.mem_append_right _ (ihhi h)

/-- Whether the label of a sample is an integer of 64 bits. -/
def Classifies (tree : Tree) (sample : Sample) : Prop :=
  ∃ n : Int, tree.classify sample = .ok (.int n) ∧ -(2 ^ 63) ≤ n ∧ n < 2 ^ 63

/-- The label of a sample, as a prediction. -/
def predicted (tree : Tree) (sample : Sample) : Prediction :=
  match tree.classify sample with
  | .ok (.int n) => n
  | _ => unknownPrediction

variable {tree : Tree} {sample : Sample}

theorem predicted_of_classify {n : Int} (h : tree.classify sample = .ok (.int n)) :
    tree.predicted sample = n := by
  rw [predicted, h]

theorem Classifies.predict_eq (h : tree.Classifies sample) (i : Int) :
    Validation.predict (.int i) sample tree = .ok (.only i.toNat, tree.predicted sample) := by
  obtain ⟨n, hn, hlower, hupper⟩ := h
  have hlabel : Prediction.ofLabel (.int n) = .ok n := if_pos ⟨hlower, hupper⟩
  rw [predicted_of_classify hn, Validation.predict, hn]
  change (do return (← Place.ofInstance (.int i), ← Prediction.ofLabel (.int n))) = _
  rw [hlabel]
  rfl

end Tree

/-! ## Last calls -/

/-- Whether all trees classify the samples of some calls. -/
def Classified (trees : List Tree) (calls : List (Int × Sample)) : Prop :=
  ∀ call ∈ calls, ∀ tree ∈ trees, tree.Classifies call.2

theorem Classified.concat {trees : List Tree} {calls : List (Int × Sample)} {call : Int × Sample}
    (hcalls : Classified trees calls) (hcall : Classified trees [call]) :
    Classified trees (calls ++ [call]) :=
  List.forall_mem_append.2 ⟨hcalls, hcall⟩

/-- The sample of the last call for an instance. -/
def lastSample? (calls : List (Int × Sample)) (i : Int) : Option Sample :=
  (calls.reverse.find? fun call => call.1 == i).map Prod.snd

theorem lastSample?_concat (calls : List (Int × Sample)) (call : Int × Sample) (i : Int) :
    lastSample? (calls ++ [call]) i = if call.1 = i then some call.2 else lastSample? calls i := by
  rw [lastSample?, List.reverse_concat, List.find?_cons]
  by_cases h : call.1 = i
  · simp [h]
  · rw [beq_eq_false_iff_ne.2 h, if_neg h, lastSample?]

theorem lastSample?_eq_some {calls : List (Int × Sample)} {i : Int} {sample : Sample}
    (h : lastSample? calls i = some sample) : (i, sample) ∈ calls := by
  obtain ⟨call, hcall, rfl⟩ := Option.map_eq_some_iff.1 h
  have hid := List.find?_some hcall
  have hmem := List.mem_of_find?_eq_some hcall
  rw [← beq_iff_eq.1 hid]
  exact List.mem_reverse.1 hmem

theorem exists_lastSample {calls : List (Int × Sample)} {call : Int × Sample} (h : call ∈ calls) :
    ∃ sample, lastSample? calls call.1 = some sample := by
  rw [← Option.isSome_iff_exists, lastSample?, Option.isSome_map, List.find?_isSome]
  exact ⟨call, List.mem_reverse.2 h, beq_self_eq_true _⟩

/-- Calls for different instances may be exchanged. -/
theorem lastSample?_swap {a b : Int × Sample} (h : a.1 ≠ b.1) (calls : List (Int × Sample)) (i : Int) :
    lastSample? (calls ++ [a] ++ [b]) i = lastSample? (calls ++ [b] ++ [a]) i := by
  simp only [lastSample?_concat]
  by_cases ha : a.1 = i
  · have hb : b.1 ≠ i := fun hb => h (ha.trans hb.symm)
    simp [ha, hb]
  · simp [ha]

/-- What a tree predicts for an instance after some calls. -/
def Tree.prediction (tree : Tree) (calls : List (Int × Sample)) (i : Int) : Prediction :=
  (lastSample? calls i).elim unknownPrediction tree.predicted

/-- The predictions of a tree for the first instances. -/
def Tree.predictions (tree : Tree) (calls : List (Int × Sample)) (n : ℕ) : List Prediction :=
  (List.range n).map fun i : ℕ => tree.prediction calls i

namespace Tree

variable {tree : Tree} {calls : List (Int × Sample)}

theorem prediction_of_none {i : Int} (h : lastSample? calls i = none) :
    tree.prediction calls i = unknownPrediction := by
  rw [prediction, h, Option.elim]

theorem classify_eq_prediction (hcalls : ∀ call ∈ calls, tree.Classifies call.2) {i : Int}
    {sample : Sample} (h : lastSample? calls i = some sample) :
    tree.classify sample = .ok (.int (tree.prediction calls i)) := by
  obtain ⟨n, hn, -, -⟩ := hcalls _ (lastSample?_eq_some h)
  rw [prediction, h, Option.elim, predicted_of_classify hn, hn]

/-- A tree whose labels are not negative predicts something for each instance that it was asked for. -/
theorem unknownPrediction_notMem (hcalls : ∀ call ∈ calls, tree.Classifies call.2)
    (hlabels : ∀ n : Int, .int n ∈ tree.labels → 0 ≤ n) {n : ℕ}
    (hall : ∀ i < n, ∃ call ∈ calls, call.1 = (i : Int)) :
    unknownPrediction ∉ tree.predictions calls n := by
  intro hmem
  obtain ⟨i, hi, heq⟩ := List.mem_map.1 hmem
  obtain ⟨call, hcall, hid⟩ := hall i (List.mem_range.1 hi)
  obtain ⟨sample, hsample⟩ := exists_lastSample hcall
  have hlabel := mem_labels_of_classify (classify_eq_prediction hcalls (hid ▸ hsample))
  rw [heq] at hlabel
  exact absurd (hlabels _ hlabel) (by decide)

end Tree

namespace Validation

/-! ## Runs -/

/-- Calls for instances that are given by their numbers. -/
def requests (calls : List (Int × Sample)) : List (Value × Sample) :=
  calls.map fun call => (.int call.1, call.2)

theorem contains_int (v : Validation) (i : Int) :
    v.contains (.int i) = .ok (decide (0 ≤ i ∧ i < v.instances)) := by
  have hsame : Value.same (.int i) (.int 0) = (i == 0) := Magnitude.same_ofInt _ _
  have hcontains : v.contains (.int i) =
      if (decide (0 < i) || i == 0) = true then .ok (decide (i < v.instances)) else .ok false := by
    rw [contains, less_int, less_int, hsame]
    rfl
  rw [hcontains]
  by_cases h : 0 ≤ i
  · rw [if_pos (by simp only [Bool.or_eq_true, decide_eq_true_eq, beq_iff_eq]; omega)]
    simp [h]
  · rw [if_neg (by simp only [Bool.or_eq_true, decide_eq_true_eq, beq_iff_eq]; omega)]
    simp [h]

/-- The row of a tree after some calls, for `n` instances. -/
def row (n : ℕ) (calls : List (Int × Sample)) (tree : Tree) : Array Prediction :=
  .ofFn fun i : Fin n => tree.prediction calls (i : ℕ)

theorem row_nil (n : ℕ) (tree : Tree) : row n [] tree = .replicate n unknownPrediction := by
  refine Array.ext (by simp [row]) fun i _ _ => ?_
  simp [row, Tree.prediction, lastSample?]

theorem toList_row (n : ℕ) (calls : List (Int × Sample)) (tree : Tree) :
    (row n calls tree).toList = tree.predictions calls n := by
  rw [row, Array.toList_ofFn, Tree.predictions]
  refine List.ext_getElem (by simp) fun i _ _ => by simp

/-- A tree that predicts for an instance changes its row there only. -/
theorem filled_row {n : ℕ} {tree : Tree} {call : Int × Sample} (h : tree.Classifies call.2)
    (hid : 0 ≤ call.1 ∧ call.1 < n) (calls : List (Int × Sample)) :
    filled (.int call.1) call.2 tree (row n calls tree) = row n (calls ++ [call]) tree := by
  rw [filled_of_ok (h.predict_eq call.1)]
  refine Array.ext (by simp [row, Place.fill]) fun i _ hi => ?_
  have hn : i < n := by simpa [row] using hi
  by_cases heq : call.1 = (i : Int)
  · simp [Place.fill, row, Tree.prediction, lastSample?_concat, heq]
  · have hnat : call.1.toNat ≠ i := by omega
    simp [Place.fill, row, Tree.prediction, lastSample?_concat, heq, hn, hnat]

/-- A validation with the predictions that some calls have left. -/
def recorded (v : Validation) (calls : List (Int × Sample)) : Validation :=
  { v with predictions := v.trees.map (row v.instances calls) }

theorem outputs_recorded (v : Validation) (calls : List (Int × Sample)) :
    (v.recorded calls).outputs =
      (v.ids.zip v.trees).map fun (id, tree) => (id, tree.predictions calls v.instances) := by
  have hrow : (fun tree => (row v.instances calls tree).toList) =
      fun tree : Tree => tree.predictions calls v.instances :=
    funext fun tree => toList_row v.instances calls tree
  rw [outputs, recorded, List.map_map, List.zip_map_right]
  exact congrArg (fun f => (v.ids.zip v.trees).map (Prod.map id f)) hrow

theorem recorded_congr (v : Validation) {calls calls' : List (Int × Sample)}
    (h : ∀ i : Int, 0 ≤ i ∧ i < v.instances → lastSample? calls i = lastSample? calls' i) :
    v.recorded calls = v.recorded calls' := by
  have hrow : row v.instances calls = row v.instances calls' := by
    funext tree
    refine congrArg Array.ofFn (funext fun i => ?_)
    rw [Tree.prediction, h _ ⟨Int.natCast_nonneg _, Int.ofNat_lt.2 i.isLt⟩, Tree.prediction]
  rw [recorded, hrow, recorded]

theorem filledRows_map {id : Value} {sample : Sample} {f g : Tree → Array Prediction}
    {trees : List Tree} (h : ∀ tree ∈ trees, filled id sample tree (f tree) = g tree) :
    filledRows id sample trees (trees.map f) = trees.map g := by
  induction trees with
  | nil => rfl
  | cons tree trees ih =>
    obtain ⟨htree, htrees⟩ := List.forall_mem_cons.1 h
    rw [List.map_cons, filledRows, htree, ih htrees, List.map_cons]

variable {v : Validation} {call : Int × Sample}

/-- A call on a sample that all trees classify. -/
theorem map_recorded (hcall : Classified v.trees [call]) (hid : 0 ≤ call.1 ∧ call.1 < v.instances)
    (calls : List (Int × Sample)) :
    (v.recorded calls).map (.int call.1) call.2 = (.ok (), v.recorded (calls ++ [call])) := by
  have hcall : ∀ tree ∈ v.trees, tree.Classifies call.2 := List.forall_mem_singleton.1 hcall
  have hcontains : (v.recorded calls).contains (.int call.1) = .ok true :=
    (contains_int _ _).trans (congrArg Except.ok (decide_eq_true hid))
  have hpredicts : ∀ tree ∈ v.trees, Predicts (.int call.1) call.2 tree :=
    fun tree htree => ⟨_, (hcall tree htree).predict_eq call.1⟩
  have hrows := filledRows_map fun tree htree => filled_row (hcall tree htree) hid calls
  rw [map_of_contains hcontains]
  change ((record (.int call.1) call.2 v.trees (v.trees.map (row v.instances calls))).1, _) = _
  rw [recorded, record_of_predicts hpredicts, hrows]
  rfl

theorem map_recorded_of_outside (hid : ¬(0 ≤ call.1 ∧ call.1 < v.instances))
    (calls : List (Int × Sample)) :
    (v.recorded calls).map (.int call.1) call.2 =
      (.error (.instanceOutside (Value.int call.1).displayAlone v.partition.displayAlone
        (toString v.instances)), v.recorded calls) := by
  have hcontains : (v.recorded calls).contains (.int call.1) = .ok false :=
    (contains_int _ _).trans (congrArg Except.ok (decide_eq_false hid))
  rw [map, hcontains]
  rfl

theorem recorded_concat_of_outside (hid : ¬(0 ≤ call.1 ∧ call.1 < v.instances))
    (calls : List (Int × Sample)) : v.recorded (calls ++ [call]) = v.recorded calls := by
  refine recorded_congr v fun i hi => ?_
  have hne : call.1 ≠ i := fun heq => hid (heq ▸ hi)
  rw [lastSample?_concat, if_neg hne]

theorem after_requests {calls : List (Int × Sample)} (hcalls : Classified v.trees calls) :
    (v.recorded []).after (requests calls) = v.recorded calls := by
  induction calls using List.reverseRecOn with
  | nil => rfl
  | append_singleton calls call ih =>
    obtain ⟨hbefore, hcall⟩ := List.forall_mem_append.1 hcalls
    rw [requests, List.map_append, List.map_singleton, after_concat, ← requests, ih hbefore]
    by_cases hid : 0 ≤ call.1 ∧ call.1 < v.instances
    · rw [map_recorded hcall hid]
    · rw [map_recorded_of_outside hid, recorded_concat_of_outside hid]

/-! ## Validations -/

theorem tableLength_eq_ok_iff {trees m : ℕ} {n : Int} : tableLength trees (.int n) = .ok m ↔
    0 ≤ n ∧ Capacity.tableFault? trees n.toNat = none ∧ m = n.toNat := by
  rw [tableLength]
  by_cases hn : n < 0
  · rw [if_pos hn]
    exact ⟨nofun, fun h => absurd h.1 (Int.not_le.2 hn)⟩
  · rw [if_neg hn]
    cases Capacity.tableFault? trees n.toNat with
    | some kind => exact ⟨nofun, fun h => nomatch h.2.1⟩
    | none => exact ⟨fun h => by cases h; exact ⟨Int.not_lt.1 hn, rfl, rfl⟩, fun h => h.2.2 ▸ rfl⟩

/-- A partition that has trees of its own starts whenever their tables can be held. -/
theorem start_int {p : Int} (hp : 0 ≤ p) {ids : List TreeId} {trees : List Tree}
    (hids : ids.length = trees.length) (howners : ∀ id ∈ ids, id.partition.same (.int p) = true)
    {instances : Int} {v : Validation} :
    start (.int p) ids trees (.int instances) = .ok v ↔
      (0 ≤ instances ∧ Capacity.tableFault? trees.length instances.toNat = none) ∧
      v = recorded ⟨.int p, ids, trees, instances.toNat, []⟩ [] := by
  have hnonneg : Value.less (.int p) (.int 0) = .ok false :=
    (less_int p 0).trans (congrArg Except.ok (decide_eq_false (Int.not_lt.2 hp)))
  have hrows : recorded ⟨.int p, ids, trees, instances.toNat, []⟩ [] =
      ⟨.int p, ids, trees, instances.toNat,
        trees.map fun _ => .replicate instances.toNat unknownPrediction⟩ :=
    congrArg (fun f => (⟨.int p, ids, trees, instances.toNat, trees.map f⟩ : Validation))
      (funext (row_nil instances.toNat))
  rw [start_eq_ok_iff, hrows]
  constructor
  · rintro ⟨-, -, -, n, hn, rfl⟩
    obtain ⟨hinstances, hfits, rfl⟩ := tableLength_eq_ok_iff.1 hn
    exact ⟨⟨hinstances, hfits⟩, rfl⟩
  · rintro ⟨⟨hinstances, hfits⟩, rfl⟩
    exact ⟨hnonneg, hids, howners, _, tableLength_eq_ok_iff.2 ⟨hinstances, hfits, rfl⟩, rfl⟩

/-- **The predictions of a validation are those of the last calls.** A validation exists for any trees
of a partition and any number of instances whose tables can be held. After any calls on samples that
all trees classify, with a label of 64 bits,
- the next call is accepted exactly if its instance is one of the partition, and a call that is not
  accepted fails with an index error and changes nothing;
- there is an output for each tree, in their order, with the label of the last sample for each
  instance, or the unknown prediction if there was none;
- calls for different instances commute;
- after calls for all instances, a tree whose labels are not negative has no unknown prediction. -/
theorem outputs_of_last_calls {p : Int} (hp : 0 ≤ p) {ids : List TreeId} {trees : List Tree}
    (hids : ids.length = trees.length) (howners : ∀ id ∈ ids, id.partition.same (.int p) = true)
    (instances : Int) :
    ((∃ v, start (.int p) ids trees (.int instances) = .ok v) ↔
      0 ≤ instances ∧ Capacity.tableFault? trees.length instances.toNat = none) ∧
    ∀ v, start (.int p) ids trees (.int instances) = .ok v →
      ∀ calls : List (Int × Sample), Classified trees calls →
        (∀ call : Int × Sample,
          (0 ≤ call.1 ∧ call.1 < instances → Classified trees [call] →
            ((v.after (requests calls)).map (.int call.1) call.2).1 = .ok ()) ∧
          (¬(0 ≤ call.1 ∧ call.1 < instances) → ∃ error, error.kind = .index ∧
            (v.after (requests calls)).map (.int call.1) call.2 =
              (.error error, v.after (requests calls)))) ∧
        (v.after (requests calls)).outputs =
          (ids.zip trees).map (fun (id, tree) => (id, tree.predictions calls instances.toNat)) ∧
        (∀ tree ∈ trees, ∀ i : Int,
          (∀ sample, lastSample? calls i = some sample →
            tree.classify sample = .ok (.int (tree.prediction calls i))) ∧
          (lastSample? calls i = none → tree.prediction calls i = unknownPrediction)) ∧
        (∀ a b : Int × Sample, Classified trees [a] → Classified trees [b] → a.1 ≠ b.1 →
          v.after (requests (calls ++ [a] ++ [b])) = v.after (requests (calls ++ [b] ++ [a]))) ∧
        ((∀ i : ℕ, i < instances → ∃ call ∈ calls, call.1 = i) →
          ∀ tree ∈ trees, (∀ n : Int, .int n ∈ tree.labels → 0 ≤ n) →
            unknownPrediction ∉ tree.predictions calls instances.toNat) := by
  refine ⟨⟨fun ⟨v, hv⟩ => ((start_int hp hids howners).1 hv).1,
    fun h => ⟨_, (start_int hp hids howners).2 ⟨h, rfl⟩⟩⟩, fun v hv calls hcalls => ?_⟩
  obtain ⟨⟨hinstances, -⟩, rfl⟩ := (start_int hp hids howners).1 hv
  have hcount : ((instances.toNat : ℕ) : Int) = instances := Int.toNat_of_nonneg hinstances
  have hafter : ∀ calls, Classified trees calls →
      (recorded ⟨.int p, ids, trees, instances.toNat, []⟩ []).after (requests calls) =
        recorded ⟨.int p, ids, trees, instances.toNat, []⟩ calls :=
    fun calls => after_requests (v := ⟨.int p, ids, trees, instances.toNat, []⟩)
  rw [hafter calls hcalls]
  refine ⟨fun call => ⟨fun hid hcall => ?_, fun hid => ?_⟩, outputs_recorded _ _,
    fun tree htree i => ?_, fun a b ha hb hne => ?_, fun hall tree htree hlabels => ?_⟩
  · exact congrArg Prod.fst
      (map_recorded (v := ⟨.int p, ids, trees, _, []⟩) hcall (hcount.symm ▸ hid) calls)
  · exact ⟨_, rfl,
      map_recorded_of_outside (v := ⟨.int p, ids, trees, _, []⟩) (hcount.symm ▸ hid) calls⟩
  · exact ⟨fun sample => Tree.classify_eq_prediction fun call hcall => hcalls call hcall tree htree,
      Tree.prediction_of_none⟩
  · rw [hafter _ ((hcalls.concat ha).concat hb), hafter _ ((hcalls.concat hb).concat ha)]
    exact recorded_congr _ fun i _ => lastSample?_swap hne calls i
  · exact Tree.unknownPrediction_notMem (fun call hcall => hcalls call hcall tree htree) hlabels
      fun i hi => hall i (by omega)

/-- A tree that asks, and one that knows. -/
def askingTrees : List Tree :=
  [.split (.int 0) (.int 5) (.leaf (.int 1)) (.leaf (.int 2)), .leaf (.int 3)]

/-- The instance 1 is classified twice, the others are never classified. -/
def askingCalls : List (Int × Sample) :=
  [(1, .list [.int 9]), (3, .list [.int 0]), (1, .list [.int 4]), (-1, .list [.int 6])]

/-- Their identifiers. -/
def askingIds : List TreeId :=
  [⟨.int 1, .int 0⟩, ⟨.int 1, .int 4⟩]

theorem outputs_askingTrees : ∃ v, start (.int 1) askingIds askingTrees (.int 3) = .ok v ∧
    (v.after (requests askingCalls)).outputs =
      [(⟨.int 1, .int 0⟩, [-1, 1, -1]), (⟨.int 1, .int 4⟩, [-1, 3, -1])] := by
  have hids : askingIds.length = askingTrees.length := rfl
  have howners : ∀ id ∈ askingIds, id.partition.same (.int 1) = true := by decide
  have hknown : ∀ sample, (Tree.leaf (.int 3)).Classifies sample := fun _ => ⟨3, rfl, by decide⟩
  have hcalls : Classified askingTrees askingCalls := by
    simp only [Classified, askingTrees, askingCalls, List.forall_mem_cons, hknown, List.not_mem_nil,
      false_imp_iff, implies_true, and_true]
    exact ⟨⟨2, rfl, by decide⟩, ⟨1, rfl, by decide⟩, ⟨1, rfl, by decide⟩, ⟨2, rfl, by decide⟩⟩
  obtain ⟨hstart, hruns⟩ := outputs_of_last_calls (by decide) hids howners 3
  obtain ⟨v, hv⟩ := hstart.2 ⟨by decide, rfl⟩
  obtain ⟨-, houtputs, -⟩ := hruns v hv askingCalls hcalls
  exact ⟨v, hv, houtputs.trans rfl⟩

/-- A label of 65 bits is classified, but not predicted. -/
theorem outputs_of_long_label : ∃ v,
    start (.int 0) [⟨.int 0, .int 9⟩] [.leaf (.int (2 ^ 63))] (.int 1) = .ok v ∧
    (Tree.leaf (.int (2 ^ 63))).classify (.list []) = .ok (.int (2 ^ 63)) ∧
    (v.map (.int 0) (.list [])).1 = .error (.fault .overflow) ∧
    (v.map (.int 0) (.list [])).2.outputs = [(⟨.int 0, .int 9⟩, [-1])] :=
  ⟨⟨.int 0, [⟨.int 0, .int 9⟩], [.leaf (.int (2 ^ 63))], 1, [#[-1]]⟩, rfl, rfl, rfl, rfl⟩

end Validation

end RowAlgebra.Forest
