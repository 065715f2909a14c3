import RowAlgebra.Json.Value
import RowAlgebra.Proofs.Expr.Undefined

/-!
# When JSON values are equal

A value whose objects name each of their fields once (`Value.isProper`) equals itself unless it holds
an undefined number somewhere (`Value.same_self`). Values may also be the same but for the order in
which the fields of an object stand (`Value.Reordered`); whether the numbers in them are defined does
not matter for that.
-/

namespace RowAlgebra.Json.Value

/-! ## Fields -/

theorem fieldIn?_eq_none_iff {name : Text} {fields : List (Text × Value)} :
    fieldIn? name fields = none ↔ name ∉ fields.map Prod.fst := by
  induction fields with
  | nil => simp [fieldIn?]
  | cons field fields ih =>
    obtain ⟨key, v⟩ := field
    rw [fieldIn?, List.map_cons, List.mem_cons]
    by_cases h : key = name
    · simp [h]
    · rw [if_neg h, ih, not_or]
      exact (and_iff_right (Ne.symm h)).symm

theorem mem_of_fieldIn? {name : Text} {fields : List (Text × Value)} {v : Value}
    (h : fieldIn? name fields = some v) : (name, v) ∈ fields := by
  induction fields with
  | nil => cases h
  | cons field fields ih =>
    obtain ⟨key, w⟩ := field
    rw [fieldIn?] at h
    split at h
    · next hkey =>
      cases h
      rw [hkey]
      exact List.mem_cons_self
    · exact List.mem_cons_of_mem _ (ih h)

theorem sizeOf_fieldIn? {name : Text} {fields : List (Text × Value)} {v : Value}
    (h : fieldIn? name fields = some v) : sizeOf v < sizeOf (object fields) := by
  have hmem := List.sizeOf_lt_of_mem (mem_of_fieldIn? h)
  rw [Prod.mk.sizeOf_spec] at hmem
  rw [object.sizeOf_spec]
  omega

/-- A property of all values follows from that of the fields that a value has by name. -/
theorem fields_induction {P : Value → Prop}
    (h : ∀ v, (∀ fields name field, v = object fields → fieldIn? name fields = some field →
      P field) → P v) (v : Value) : P v :=
  (measure fun v : Value => sizeOf v).wf.induction v fun v ih =>
    h v fun _ _ field hv hfield => ih field (hv ▸ sizeOf_fieldIn? hfield)

/-- If each name stands once, a field is found by its name. -/
theorem fieldIn?_of_mem {fields : List (Text × Value)} (hnames : (fields.map Prod.fst).Nodup)
    {field : Text × Value} (h : field ∈ fields) : fieldIn? field.1 fields = some field.2 := by
  induction fields with
  | nil => cases h
  | cons first fields ih =>
    rw [List.map_cons, List.nodup_cons] at hnames
    rw [fieldIn?]
    rcases List.mem_cons.1 h with rfl | hrest
    · exact if_pos rfl
    · have hname : field.1 ∈ fields.map Prod.fst := List.mem_map_of_mem hrest
      have hne : first.1 ≠ field.1 := fun heq => hnames.1 (heq ▸ hname)
      rw [if_neg hne, ih hnames.2 hrest]

/-! ## Proper values without undefined numbers -/

mutual

/-- Whether no object names a field twice. -/
def isProper : Value → Bool
  | list items => areProper items
  | object fields => (fields.map Prod.fst).Nodup && haveProper fields
  | _ => true

def areProper : List Value → Bool
  | [] => true
  | item :: items => isProper item && areProper items

def haveProper : List (Text × Value) → Bool
  | [] => true
  | (_, v) :: rest => isProper v && haveProper rest

end

theorem haveProper_iff {fields : List (Text × Value)} :
    haveProper fields = true ↔ ∀ field ∈ fields, field.2.isProper = true := by
  induction fields with
  | nil => simp [haveProper]
  | cons field fields ih => rw [haveProper, Bool.and_eq_true, ih, List.forall_mem_cons]

theorem isProper_object_iff {fields : List (Text × Value)} :
    (object fields).isProper = true ↔
      (fields.map Prod.fst).Nodup ∧ ∀ field ∈ fields, field.2.isProper = true := by
  rw [isProper, Bool.and_eq_true, decide_eq_true_iff, haveProper_iff]

theorem isProper_of_fieldIn? {name : Text} {fields : List (Text × Value)} {v : Value}
    (hfields : (object fields).isProper = true) (h : fieldIn? name fields = some v) :
    v.isProper = true :=
  (isProper_object_iff.1 hfields).2 _ (mem_of_fieldIn? h)

mutual

/-- Whether one of the numbers in a value is undefined. -/
def hasUndefined : Value → Bool
  | float x => (Magnitude.ofFloat x).isUndefined
  | list items => anyUndefined items
  | object fields => anyFieldUndefined fields
  | _ => false

def anyUndefined : List Value → Bool
  | [] => false
  | item :: items => hasUndefined item || anyUndefined items

def anyFieldUndefined : List (Text × Value) → Bool
  | [] => false
  | (_, v) :: rest => hasUndefined v || anyFieldUndefined rest

end

theorem sameFields_of_found {fields all : List (Text × Value)}
    (h : ∀ field ∈ fields, fieldIn? field.1 all = some field.2 ∧ same field.2 field.2 = true) :
    sameFields fields all = true := by
  induction fields with
  | nil => rfl
  | cons field fields ih =>
    obtain ⟨hfield, hrest⟩ := List.forall_mem_cons.1 h
    rw [sameFields, hfield.1]
    dsimp only
    rw [hfield.2, ih hrest, Bool.and_self]

mutual

theorem same_self : ∀ {v : Value}, v.isProper = true → v.hasUndefined = false → v.same v = true
  | null, _, _ => rfl
  | bool b, _, _ => Magnitude.same_self (.ofBool b)
  | int n, _, _ => Magnitude.same_self (.ofInt n)
  | float x, _, h => (Magnitude.same_self (.ofFloat x)).trans (congrArg not h)
  | text s, _, _ => beq_self_eq_true s
  | list items, hproper, h => by
    rw [isProper] at hproper
    rw [hasUndefined] at h
    rw [same, sameItems_self hproper h]
  | object fields, hproper, h => by
    have hnames := (isProper_object_iff.1 hproper).1
    rw [isProper, Bool.and_eq_true] at hproper
    rw [hasUndefined] at h
    have hself := fields_same_self hproper.2 h
    -- Fields are compared with those found under their names, so each has to be found under its own.
    rw [same, beq_self_eq_true, Bool.true_and]
    exact sameFields_of_found fun field hfield =>
      ⟨fieldIn?_of_mem hnames hfield, hself field hfield⟩

theorem sameItems_self : ∀ {items : List Value}, areProper items = true →
    anyUndefined items = false → sameItems items items = true
  | [], _, _ => by rw [sameItems]
  | item :: items, hproper, h => by
    rw [areProper, Bool.and_eq_true] at hproper
    rw [anyUndefined, Bool.or_eq_false_iff] at h
    rw [sameItems, same_self hproper.1 h.1, sameItems_self hproper.2 h.2, Bool.and_self]

theorem fields_same_self : ∀ {fields : List (Text × Value)}, haveProper fields = true →
    anyFieldUndefined fields = false → ∀ field ∈ fields, same field.2 field.2 = true
  | [], _, _ => by simp
  | (name, v) :: rest, hproper, h => by
    rw [haveProper, Bool.and_eq_true] at hproper
    rw [anyFieldUndefined, Bool.or_eq_false_iff] at h
    rw [List.forall_mem_cons]
    exact ⟨same_self hproper.1 h.1, fields_same_self hproper.2 h.2⟩

end

/-! ## The order of fields -/

/-- The same value but for the order of the fields of an object, and of the objects in its fields. A
name stands for the first field of that name. -/
inductive Reordered : Value → Value → Prop where
  | refl (v : Value) : Reordered v v
  | object {fs gs : List (Text × Value)}
      (names : ∀ name, fieldIn? name fs = none ↔ fieldIn? name gs = none)
      (values : ∀ name v w, fieldIn? name fs = some v → fieldIn? name gs = some w →
        Reordered v w) :
      Reordered (object fs) (object gs)

end RowAlgebra.Json.Value
