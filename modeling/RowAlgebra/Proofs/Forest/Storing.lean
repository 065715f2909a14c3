import RowAlgebra.Proofs.Forest.Codec
import RowAlgebra.Proofs.Json.Written

/-!
# What is read of a file of trees

The text that is written for some trees is read as the `contents` that it stands for
(`parse_of_store`), as the values in the trees come back on their own. The writer opens three calls for
each node on the way into a tree, besides those for the values of the node, so trees that are too deep
cannot be stored (`store_of_deep`); all others can (`store_of_le`).
-/

namespace RowAlgebra.Forest

open Json (Datum Value)

/-! ## One tree -/

namespace Tree

theorem value?_toDatum (tree : Tree) : tree.toDatum.value? = some tree.toJson := by
  induction tree with
  | leaf label =>
    simp [toDatum, toJson, Datum.value?, Datum.fields?, Json.Label.text?, Value.value?_toDatum]
  | split feature threshold lo hi ihlo ihhi =>
    simp [toDatum, toJson, Datum.value?, Datum.fields?, Json.Label.text?, Value.value?_toDatum, ihlo,
      ihhi]

theorem isPortable_toJson {tree : Tree} (h : ∀ v ∈ tree.values, v.IsPortable) :
    tree.toJson.IsPortable := by
  induction tree with
  | leaf label =>
    have hlabel := h label (List.mem_singleton_self label)
    have hnames : (["type", "label"] : List Text).Nodup := by decide
    exact ⟨hnames, Text.noPairs_ofString _, Text.noPairs_ofString _, Text.noPairs_ofString _,
      hlabel, trivial⟩
  | split feature threshold lo hi ihlo ihhi =>
    simp only [values, List.forall_mem_cons, List.forall_mem_append] at h
    obtain ⟨hfeature, hthreshold, hlo, hhi⟩ := h
    have hnames : (["type", "attribute", "split", "lo", "hi"] : List Text).Nodup := by decide
    exact ⟨hnames, Text.noPairs_ofString _, Text.noPairs_ofString _, Text.noPairs_ofString _,
      hfeature, Text.noPairs_ofString _, hthreshold, Text.noPairs_ofString _, ihlo hlo,
      Text.noPairs_ofString _, ihhi hhi, trivial⟩

/-- The number of nodes on the longest way into a tree. -/
def depth : Tree → Nat
  | leaf _ => 1
  | split _ _ lo hi => max lo.depth hi.depth + 1

theorem le_frames (tree : Tree) (detour : Nat) :
    (detour + 1) * tree.depth ≤ tree.toDatum.frames detour := by
  induction tree with
  | leaf label =>
    simp only [toDatum, Datum.frames, depth]
    omega
  | split feature threshold lo hi ihlo ihhi =>
    simp only [toDatum, Datum.frames, Datum.framesOfFields, depth, Nat.mul_succ,
      ← Nat.mul_max_mul_left]
    omega

end Tree

/-! ## All trees -/

variable {ids : List TreeId} {trees : List Tree} {sizes : List Value} {room : Nat}

/-- Whether the numbers in an identifier come back. -/
def TreeId.IsPortable (id : TreeId) : Prop :=
  id.partition.IsPortable ∧ id.index.IsPortable

theorem values?_sizes (sizes : List Value) :
    Datum.values? (sizes.map Value.toDatum) = some sizes := by
  induction sizes with
  | nil => rfl
  | cons size sizes ih => simp [Datum.values?, Value.value?_toDatum, ih]

theorem value?_storedTree (id : TreeId) (tree : Tree) :
    (storedTree id tree).value? = some (entry id tree) := by
  simp [storedTree, entry, Datum.value?, Datum.fields?, Json.Label.text?, Value.value?_toDatum,
    Tree.value?_toDatum]

theorem values?_storedTrees (ids : List TreeId) (trees : List Tree) :
    Datum.values? (List.zipWith storedTree ids trees) = some (List.zipWith entry ids trees) := by
  induction ids generalizing trees with
  | nil => rfl
  | cons id ids ih =>
    cases trees with
    | nil => rfl
    | cons tree trees => simp [Datum.values?, value?_storedTree, ih]

theorem value?_stored (ids : List TreeId) (trees : List Tree) (sizes : List Value) :
    (stored ids trees sizes).value? = some (contents ids trees sizes) := by
  simp [stored, contents, Datum.value?, Datum.fields?, Json.Label.text?, values?_sizes,
    values?_storedTrees]

/-- Whether everything in a file of trees is read as it is written. -/
structure PortableFile (ids : List TreeId) (trees : List Tree) (sizes : List Value) : Prop where
  ids : ∀ id ∈ ids, id.IsPortable
  trees : ∀ tree ∈ trees, ∀ v ∈ tree.values, v.IsPortable
  sizes : ∀ size ∈ sizes, size.IsPortable

theorem isPortable_entry {id : TreeId} (hid : id.IsPortable) {tree : Tree}
    (htree : ∀ v ∈ tree.values, v.IsPortable) : (entry id tree).IsPortable := by
  have hkey : (["partition", "tree_id"] : List Text).Nodup := by decide
  have hentry : (["key", "tree"] : List Text).Nodup := by decide
  exact ⟨hentry, Text.noPairs_ofString _,
    ⟨hkey, Text.noPairs_ofString _, hid.1, Text.noPairs_ofString _, hid.2, trivial⟩,
    Text.noPairs_ofString _, Tree.isPortable_toJson htree, trivial⟩

theorem PortableFile.isPortable_contents (h : PortableFile ids trees sizes) :
    (contents ids trees sizes).IsPortable := by
  have hnames : (["sizes", "trees"] : List Text).Nodup := by decide
  refine ⟨hnames, Text.noPairs_ofString _, Value.arePortable_iff.2 h.sizes,
    Text.noPairs_ofString _, Value.arePortable_iff.2 fun e he => ?_, trivial⟩
  rw [← List.map_uncurry_zip_eq_zipWith] at he
  obtain ⟨⟨id, tree⟩, hmem, rfl⟩ := List.mem_map.1 he
  exact isPortable_entry (h.ids id (List.of_mem_zip hmem).1) (h.trees tree (List.of_mem_zip hmem).2)

/-! ## Storing -/

/-- How many calls of the writer are open at once while trees are stored. -/
abbrev storeFrames (ids : List TreeId) (trees : List Tree) (sizes : List Value) : Nat :=
  (stored ids trees sizes).frames Json.Style.plain.piecewise.detour

theorem store_of_le (h : PortableFile ids trees sizes) (hlength : ids.length = trees.length)
    (hroom : storeFrames ids trees sizes ≤ room) : ∃ file, store room ids trees sizes = .ok file := by
  rw [store, if_neg (not_not_intro hlength)]
  exact Datum.write_of_le (value?_stored ids trees sizes) h.isPortable_contents hroom

theorem store_of_lt (h : PortableFile ids trees sizes) (hlength : ids.length = trees.length)
    (hroom : room < storeFrames ids trees sizes) :
    store room ids trees sizes = .error (.fault .recursion) := by
  rw [store, if_neg (not_not_intro hlength)]
  exact Datum.write_of_lt (value?_stored ids trees sizes) h.isPortable_contents hroom

/-- A file of trees is read as what it has been written for. -/
theorem parse_of_store (h : PortableFile ids trees sizes) (hroom : room ≤ Json.nestingLimit)
    {file : Text} (hstore : store room ids trees sizes = .ok file) :
    ids.length = trees.length ∧ Json.parse file.shown = .ok (contents ids trees sizes) := by
  rw [store] at hstore
  split at hstore
  · cases hstore
  · next hlength =>
    exact ⟨not_not.1 hlength, Datum.parse_of_write (value?_stored ids trees sizes)
      h.isPortable_contents hroom hstore⟩

theorem frames_le_framesOfItems {d : Datum} {items : List Datum} (h : d ∈ items) (detour : Nat) :
    d.frames detour ≤ Datum.framesOfItems detour items := by
  induction items with
  | nil => cases h
  | cons item items ih =>
    rcases List.mem_cons.1 h with rfl | hrest
    · exact Nat.le_max_left _ _
    · exact Nat.le_trans (ih hrest) (Nat.le_max_right _ _)

/-- Trees that are too deep for the writer are not stored. -/
theorem store_of_deep (h : PortableFile ids trees sizes) (hlength : ids.length = trees.length)
    {tree : Tree} (htree : tree ∈ trees) (hdepth : room < 3 * tree.depth) :
    store room ids trees sizes = .error (.fault .recursion) := by
  refine store_of_lt h hlength (Nat.lt_of_lt_of_le hdepth ?_)
  obtain ⟨i, hi, rfl⟩ := List.getElem_of_mem htree
  have hmem : storedTree ids[i] trees[i] ∈ List.zipWith storedTree ids trees := by
    have hzip : i < (List.zipWith storedTree ids trees).length := by
      rw [List.length_zipWith, hlength, Nat.min_self]
      exact hi
    rw [← List.getElem_zipWith (h := hzip)]
    exact List.getElem_mem hzip
  calc 3 * trees[i].depth ≤ trees[i].toDatum.frames 2 := trees[i].le_frames 2
    _ ≤ (storedTree ids[i] trees[i]).frames 2 := by
      simp only [storedTree, Datum.frames, Datum.framesOfFields]
      omega
    _ ≤ Datum.framesOfItems 2 (List.zipWith storedTree ids trees) := frames_le_framesOfItems hmem 2
    _ ≤ storeFrames ids trees sizes := by
      simp only [storeFrames, stored, Datum.frames, Datum.framesOfFields]
      change _ ≤ max (_ + 1) (max (Datum.framesOfItems 2 _ + 1) 0) + 1
      omega

end RowAlgebra.Forest
