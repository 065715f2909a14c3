import RowAlgebra.Proofs.Ending
import RowAlgebra.Proofs.Forest.Loading
import RowAlgebra.Proofs.Json.ReadBack

/-!
# Which values are trees

The values that are read as a tree are told by a grammar (`Tree.Form`): a node is an object with the
fields of its kind, and what a split has below it is of this form, too. Every other value is refused
as a wrong value, at whatever depth it departs from the form (`Tree.ofJson_ends`). What is written of
a tree that has been read is the value without the fields that are not read (`Tree.trimmed`), in some
order of its fields. With the round trip of a tree this is all that reading and writing do
(`Tree.codec_exact`).
-/

namespace RowAlgebra.Forest.Tree

open Json (Value)
open Json.Value (fieldIn?)

/-! ## The grammar -/

/-- The values that are the JSON form of a tree, possibly with further fields. -/
inductive Form : Value → Prop where
  | leaf {fields : List (Text × Value)} {label : Value}
      (htype : fieldIn? "type" fields = some (.text "leaf"))
      (hlabel : fieldIn? "label" fields = some label) : Form (.object fields)
  | split {fields : List (Text × Value)} {feature threshold lo hi : Value}
      (htype : fieldIn? "type" fields = some (.text "numerical"))
      (hfeature : fieldIn? "attribute" fields = some feature)
      (hthreshold : fieldIn? "split" fields = some threshold)
      (hlo : fieldIn? "lo" fields = some lo) (hhi : fieldIn? "hi" fields = some hi)
      (formlo : Form lo) (formhi : Form hi) : Form (.object fields)

/-- The names of the fields that are read of a node. -/
def nodeNames (fields : List (Text × Value)) : List Text :=
  match fieldIn? "type" fields with
  | some (.text kind) =>
    if kind = "leaf" then ["type", "label"]
    else if kind = "numerical" then ["type", "attribute", "split", "lo", "hi"]
    else []
  | _ => []

mutual

/-- A value without the fields that are not read of it as a tree. -/
def trimmed : Value → Value
  | .object fields => .object (trimmedFields (nodeNames fields) fields)
  | v => v

/-- The fields with one of the given names, where subtrees are trimmed in turn. -/
def trimmedFields (names : List Text) : List (Text × Value) → List (Text × Value)
  | [] => []
  | (name, v) :: rest =>
    if name ∈ names then
      (name, if name = "lo" ∨ name = "hi" then trimmed v else v) :: trimmedFields names rest
    else trimmedFields names rest

end

theorem fieldIn?_trimmedFields (name : Text) (names : List Text) (fields : List (Text × Value)) :
    fieldIn? name (trimmedFields names fields) =
      if name ∈ names then
        (fieldIn? name fields).map fun v => if name = "lo" ∨ name = "hi" then trimmed v else v
      else none := by
  induction fields with
  | nil => simp [trimmedFields, fieldIn?]
  | cons field fields ih =>
    obtain ⟨key, v⟩ := field
    rw [trimmedFields]
    by_cases hread : key ∈ names
    · rw [if_pos hread, fieldIn?, fieldIn?, ih]
      by_cases hkey : key = name
      · subst hkey
        simp [hread]
      · simp [hkey]
    · rw [if_neg hread, fieldIn?, ih]
      by_cases hkey : key = name
      · subst hkey
        simp [hread]
      · simp [hkey]

/-! ## Reading -/

section

variable {fields : List (Text × Value)}

theorem subtree?_eq (name : Text) (fields : List (Text × Value)) :
    subtree? name fields = (fieldIn? name fields).map ofJson := by
  induction fields with
  | nil => rfl
  | cons field fields ih =>
    obtain ⟨key, v⟩ := field
    rw [subtree?, fieldIn?, ih]
    split <;> rfl

theorem ofJson_leaf {label : Value} (htype : fieldIn? "type" fields = some (.text "leaf"))
    (hlabel : fieldIn? "label" fields = some label) :
    ofJson (.object fields) = .ok (leaf label) := by
  have hheader : header? fields = some (.leaf label) := by
    rw [header?, htype]
    simp [hlabel]
  rw [ofJson, hheader]

theorem ofJson_split {feature threshold lo hi : Value}
    (htype : fieldIn? "type" fields = some (.text "numerical"))
    (hfeature : fieldIn? "attribute" fields = some feature)
    (hthreshold : fieldIn? "split" fields = some threshold)
    (hlo : fieldIn? "lo" fields = some lo) (hhi : fieldIn? "hi" fields = some hi) :
    ofJson (.object fields) = do
      let lo ← ofJson lo
      return split feature threshold lo (← ofJson hi) := by
  have hheader : header? fields = some (.split feature threshold) := by
    rw [header?, htype, hfeature, hthreshold]
    rfl
  rw [ofJson, hheader, subtree?_eq, subtree?_eq, hlo, hhi]
  rfl

theorem header?_eq_some {header : Header} (h : header? fields = some header) :
    (∃ label, header = .leaf label ∧ fieldIn? "type" fields = some (.text "leaf") ∧
      fieldIn? "label" fields = some label) ∨
    ∃ feature threshold, header = .split feature threshold ∧
      fieldIn? "type" fields = some (.text "numerical") ∧
      fieldIn? "attribute" fields = some feature ∧ fieldIn? "split" fields = some threshold := by
  rw [header?] at h
  split at h
  · next kind htype =>
    split at h
    · next hkind =>
      obtain ⟨label, hlabel, rfl⟩ := Option.map_eq_some_iff.1 h
      exact .inl ⟨label, rfl, hkind ▸ htype, hlabel⟩
    · split at h
      · next hkind =>
        obtain ⟨feature, hfeature, h⟩ := Option.bind_eq_some_iff.1 h
        obtain ⟨threshold, hthreshold, h⟩ := Option.bind_eq_some_iff.1 h
        cases h
        exact .inr ⟨feature, threshold, rfl, hkind ▸ htype, hfeature, hthreshold⟩
      · cases h
  · cases h

/-- What reading can come to: a leaf, a split if its two subtrees can be read, or a refusal. -/
theorem ofJson_cases (v : Value) :
    (∃ fields label, v = .object fields ∧ fieldIn? "type" fields = some (.text "leaf") ∧
      fieldIn? "label" fields = some label) ∨
    (∃ fields feature threshold lo hi, v = .object fields ∧
      fieldIn? "type" fields = some (.text "numerical") ∧
      fieldIn? "attribute" fields = some feature ∧ fieldIn? "split" fields = some threshold ∧
      fieldIn? "lo" fields = some lo ∧ fieldIn? "hi" fields = some hi) ∨
    ∃ data, ofJson v = .error (.unknownTreeNode data) := by
  cases v with
  | object fields =>
    rw [ofJson, subtree?_eq, subtree?_eq]
    split
    · next hheader =>
      obtain ⟨label, -, htype, hlabel⟩ | ⟨_, _, ⟨⟩, -⟩ := header?_eq_some hheader
      exact .inl ⟨fields, label, rfl, htype, hlabel⟩
    · next hheader hlo hhi =>
      obtain ⟨_, ⟨⟩, -⟩ | ⟨feature, threshold, -, htype, hfeature, hthreshold⟩ :=
        header?_eq_some hheader
      obtain ⟨lo, hlo, -⟩ := Option.map_eq_some_iff.1 hlo
      obtain ⟨hi, hhi, -⟩ := Option.map_eq_some_iff.1 hhi
      exact .inr (.inl ⟨fields, feature, threshold, lo, hi, rfl, htype, hfeature, hthreshold, hlo,
        hhi⟩)
    · exact .inr (.inr ⟨_, rfl⟩)
  | _ => exact .inr (.inr ⟨_, ofJson.eq_2 _ nofun⟩)

end

/-- What can be read is of the form of a tree, and all else is refused as a wrong value. -/
theorem ofJson_ends (v : Value) :
    Ends (ofJson v) (fun _ => Form v) fun error => error.kind = .value := by
  induction v using Json.Value.fields_induction with | h v ih =>
  obtain ⟨fields, label, rfl, htype, hlabel⟩ |
    ⟨fields, feature, threshold, lo, hi, rfl, htype, hfeature, hthreshold, hlo, hhi⟩ |
    ⟨data, hdata⟩ := ofJson_cases v
  · rw [ofJson_leaf htype hlabel]
    exact Form.leaf htype hlabel
  · -- A subtree that is refused refuses the split, the lower one first.
    rw [ofJson_split htype hfeature hthreshold hlo hhi]
    exact (ih fields "lo" lo rfl hlo).bind fun _ formlo =>
      (ih fields "hi" hi rfl hhi).bind fun _ formhi =>
        Form.split htype hfeature hthreshold hlo hhi formlo formhi
  · rw [hdata]
    exact rfl

/-! ## What is written of what was read -/

section

open Json.Value (Reordered)

variable {fields : List (Text × Value)}

/-- An object has the fields that are read of a node, up to their order, if its names are theirs and
behind each name is what is left there. -/
theorem reordered_trimmed {written : List (Text × Value)}
    (hnames : written.map Prod.fst = nodeNames fields)
    (hvalues : ∀ field ∈ written, ∃ v, fieldIn? field.1 fields = some v ∧
      Reordered field.2 (if field.1 = "lo" ∨ field.1 = "hi" then trimmed v else v)) :
    Reordered (.object written) (trimmed (.object fields)) := by
  rw [trimmed]
  refine .object (fun name => ?_) fun name w w' hw hw' => ?_
  · rw [Json.Value.fieldIn?_eq_none_iff, fieldIn?_trimmedFields, hnames]
    by_cases hname : name ∈ nodeNames fields
    · obtain ⟨field, hfield, rfl⟩ := List.mem_map.1 (hnames ▸ hname)
      obtain ⟨v, hv, -⟩ := hvalues field hfield
      simp [hname, hv]
    · simp [hname]
  · have hfield := Json.Value.mem_of_fieldIn? hw
    have hname : name ∈ nodeNames fields := hnames ▸ List.mem_map_of_mem hfield
    obtain ⟨v, hv, hreordered⟩ := hvalues _ hfield
    rw [fieldIn?_trimmedFields, if_pos hname, hv] at hw'
    cases hw'
    exact hreordered

theorem toJson_leaf_reordered {label : Value}
    (htype : fieldIn? "type" fields = some (.text "leaf"))
    (hlabel : fieldIn? "label" fields = some label) :
    Reordered (leaf label).toJson (trimmed (.object fields)) := by
  have hnames : nodeNames fields = ["type", "label"] := by
    rw [nodeNames, htype]
    exact if_pos rfl
  refine reordered_trimmed hnames.symm ?_
  simp only [List.forall_mem_cons]
  refine ⟨⟨_, htype, .refl _⟩, ⟨_, hlabel, .refl _⟩, nofun⟩

theorem toJson_split_reordered {feature threshold lo hi : Value} {below above : Tree}
    (htype : fieldIn? "type" fields = some (.text "numerical"))
    (hfeature : fieldIn? "attribute" fields = some feature)
    (hthreshold : fieldIn? "split" fields = some threshold)
    (hlo : fieldIn? "lo" fields = some lo) (hhi : fieldIn? "hi" fields = some hi)
    (hbelow : Reordered below.toJson (trimmed lo)) (habove : Reordered above.toJson (trimmed hi)) :
    Reordered (split feature threshold below above).toJson (trimmed (.object fields)) := by
  have hnames : nodeNames fields = ["type", "attribute", "split", "lo", "hi"] := by
    rw [nodeNames, htype]
    exact (if_neg (by decide)).trans (if_pos rfl)
  refine reordered_trimmed hnames.symm ?_
  simp only [List.forall_mem_cons]
  exact ⟨⟨_, htype, .refl _⟩, ⟨_, hfeature, .refl _⟩, ⟨_, hthreshold, .refl _⟩, ⟨_, hlo, hbelow⟩,
    ⟨_, hhi, habove⟩, nofun⟩

end

theorem Form.exists_ok {v : Value} (h : Form v) :
    ∃ tree, ofJson v = .ok tree ∧ Json.Value.Reordered tree.toJson (trimmed v) := by
  induction h with
  | leaf htype hlabel =>
    exact ⟨_, ofJson_leaf htype hlabel, toJson_leaf_reordered htype hlabel⟩
  | split htype hfeature hthreshold hlo hhi _ _ ihlo ihhi =>
    obtain ⟨below, hbelow, hlow⟩ := ihlo
    obtain ⟨above, habove, hhigh⟩ := ihhi
    refine ⟨Tree.split _ _ below above, ?_,
      toJson_split_reordered htype hfeature hthreshold hlo hhi hlow hhigh⟩
    rw [ofJson_split htype hfeature hthreshold hlo hhi, hbelow, habove]
    rfl

/-! ## Equality -/

/-- The values that the nodes of a tree hold. -/
def values : Tree → List Value
  | leaf label => [label]
  | split feature threshold lo hi => feature :: threshold :: (lo.values ++ hi.values)

def isProper (tree : Tree) : Bool :=
  tree.values.all Json.Value.isProper

/-- Whether a tree holds an undefined number. -/
def hasUndefined (tree : Tree) : Bool :=
  tree.values.any Json.Value.hasUndefined

theorem same_self {tree : Tree} (hproper : tree.isProper = true)
    (hdefined : tree.hasUndefined = false) : tree.same tree = true := by
  have hself : ∀ v ∈ tree.values, v.same v = true := fun v hv =>
    Json.Value.same_self (List.all_eq_true.1 hproper v hv)
      (Bool.eq_false_of_not_eq_true (List.any_eq_false.1 hdefined v hv))
  clear hproper hdefined
  induction tree with
  | leaf label => exact hself label (List.mem_singleton_self label)
  | split feature threshold lo hi ihlo ihhi =>
    simp only [values, List.forall_mem_cons, List.forall_mem_append] at hself
    obtain ⟨hfeature, hthreshold, hlo, hhi⟩ := hself
    simp only [same, hfeature, hthreshold, ihlo hlo, ihhi hhi, Bool.and_self]

/-- What a tree holds stands in the value that it is read from. -/
theorem Form.isProper {v : Value} (h : Form v) (hv : v.isProper = true) :
    Ensures (ofJson v) fun tree => tree.isProper = true := by
  induction h with
  | leaf htype hlabel =>
    have hproper := Json.Value.isProper_of_fieldIn? hv hlabel
    rw [ofJson_leaf htype hlabel]
    exact List.all_eq_true.2 (List.forall_mem_singleton.2 hproper)
  | split htype hfeature hthreshold hlo hhi _ _ ihlo ihhi =>
    have hfields := fun name field (h : fieldIn? name _ = some field) =>
      Json.Value.isProper_of_fieldIn? hv h
    rw [ofJson_split htype hfeature hthreshold hlo hhi]
    refine (ihlo (hfields _ _ hlo)).bind fun below hbelow => ?_
    refine (ihhi (hfields _ _ hhi)).bind fun above habove => List.all_eq_true.2 ?_
    simp only [values, List.forall_mem_cons, List.forall_mem_append]
    exact ⟨hfields _ _ hfeature, hfields _ _ hthreshold, List.all_eq_true.1 hbelow,
      List.all_eq_true.1 habove⟩

/-- **Trees are read and written exactly.** A value can be read as a tree just if it has the form of
one, and all other values are refused as wrong values; what is then written is the value without the
fields that are not read. A tree that is written is read again as it was: it classifies all samples
as before, and it equals what it was if it holds no undefined number. All trees that texts give are
proper. -/
theorem codec_exact :
    (∀ v, Form v → ∃ tree, ofJson v = .ok tree ∧
      Json.Value.Reordered tree.toJson (trimmed v)) ∧
    (∀ v, ¬Form v → ∃ error, ofJson v = .error error ∧ error.kind = .value) ∧
    (∀ tree : Tree, ofJson tree.toJson = .ok tree ∧
      (∀ sample, (ofJson tree.toJson >>= classify sample) = tree.classify sample) ∧
      (tree.isProper = true → tree.hasUndefined = false → tree.same tree = true)) ∧
    ∀ text v tree, Json.parse text = .ok v → ofJson v = .ok tree → tree.isProper = true := by
  refine ⟨fun v => Form.exists_ok, fun v hform => ?_, fun tree => ?_, fun text v tree htext htree => ?_⟩
  · have hends := ofJson_ends v
    cases h : ofJson v with
    | ok tree => exact absurd (hends.of_ok h) hform
    | error error => exact ⟨error, rfl, hends.of_error h⟩
  · refine ⟨ofJson_toJson tree, fun sample => ?_, same_self⟩
    rw [ofJson_toJson]
    rfl
  · have hform := (ofJson_ends v).of_ok htree
    exact (hform.isProper (Json.parse_isProper htext)).of_ok htree

/-! ### A split with further fields -/

def furtherForm : Value := .object [
  ("hi", .object [("label", .int 2), ("type", .text "leaf")]), ("depth", .int 1),
  ("lo", .object [("type", .text "leaf"), ("label", .int 1), ("lo", .null)]),
  ("split", .int 3), ("type", .text "numerical"), ("attribute", .int 0)]

def furtherTree : Tree := split (.int 0) (.int 3) (leaf (.int 1)) (leaf (.int 2))

theorem isPortable_furtherForm : furtherForm.IsPortable := by
  have hnames : (["hi", "depth", "lo", "split", "type", "attribute"] : List Text).Nodup := by decide
  have hhi : (["label", "type"] : List Text).Nodup := by decide
  have hlo : (["type", "label", "lo"] : List Text).Nodup := by decide
  have htext := Text.noPairs_ofString
  exact ⟨hnames, htext _, ⟨hhi, htext _, rfl, htext _, htext _, trivial⟩, htext _, rfl, htext _,
    ⟨hlo, htext _, htext _, htext _, rfl, htext _, trivial, trivial⟩, htext _, rfl, htext _, htext _,
    htext _, rfl, trivial⟩

/-- A split with a leaf that has no label. -/
def unlabelled : Value := .object [
  ("type", .text "numerical"), ("attribute", .int 0), ("split", .int 3),
  ("lo", .object [("type", .text "leaf"), ("lo", .int 1)]), ("hi", (leaf (.int 2)).toJson)]

theorem not_form_unlabelled : ¬Form unlabelled := by
  intro h
  cases h with
  | leaf htype _ => cases htype
  | split _ _ _ hlo _ hform _ =>
    cases hlo
    cases hform with
    | leaf _ hlabel => cases hlabel
    | split htype => cases htype

theorem codec_exact_furtherFields :
    ofJson furtherForm = .ok furtherTree ∧
      Json.Value.Reordered furtherTree.toJson (trimmed furtherForm) ∧
      (∃ error, ofJson unlabelled = .error error ∧ error.kind = .value) ∧
      furtherTree.isProper = true ∧ furtherTree.same furtherTree = true := by
  have hform : Form furtherForm := .split rfl rfl rfl rfl rfl (.leaf rfl rfl) (.leaf rfl rfl)
  obtain ⟨tree, htree, hwritten⟩ := codec_exact.1 furtherForm hform
  obtain rfl : furtherTree = tree := Except.ok.inj htree
  have htext : Json.parse (String.ofList furtherForm.chars) = .ok furtherForm :=
    Json.parse_chars isPortable_furtherForm (by decide)
  have hproper := codec_exact.2.2.2 _ furtherForm furtherTree htext htree
  exact ⟨htree, hwritten, codec_exact.2.1 unlabelled not_form_unlabelled, hproper,
    (codec_exact.2.2.1 furtherTree).2.2 hproper (by decide)⟩

/-! ### A threshold that is no number -/

def undefinedSplit : Tree := split (.int 0) (.float (0.0 / 0.0)) (leaf (.int 0)) (leaf (.int 1))

/-- A tree with an undefined number is read again as it was, and does not equal what it was. -/
theorem codec_exact_needs_defined :
    ofJson undefinedSplit.toJson = .ok undefinedSplit ∧
      undefinedSplit.same undefinedSplit = false :=
  ⟨ofJson_toJson undefinedSplit, by decide⟩

end RowAlgebra.Forest.Tree
