import RowAlgebra.Collection

/-!
# Row indices

Whoever looks up the keys of a whole collection in another one would have to search it again for
every key. A `RowIndex` sorts the rows into buckets by a number that equal keys have in common
(`Key.code`), so that only one bucket has to be searched. It finds what a search through all rows
finds (`RowIndex.find?_ofRows`).
-/

namespace RowAlgebra

/-! ## Codes of keys -/

namespace Magnitude

/-- A number that equal values have in common. -/
def code : Magnitude → Nat
  | finite q => q.num.natAbs
  | _ => 0

end Magnitude

namespace Text

/-- A number that is likely to tell texts apart. -/
def code (t : Text) : Nat :=
  t.points.foldl (fun n p => (31 * n + p.number) % 2 ^ 32) 0

end Text

namespace Key

/-- A number that equal keys have in common. -/
def code : Key → Nat
  | int n => n.natAbs
  | text s => s.code
  | bool b => if b then 1 else 0
  | float x => (Magnitude.ofFloat x).code
  | undefined _ => 0

theorem code_of_magnitude_ne {k : Key} (h : k.magnitude ≠ .undefined) :
    k.code = k.magnitude.code := by
  cases k with
  | int n => simp [code, magnitude, Magnitude.ofInt, Magnitude.code]
  | text s => exact absurd rfl h
  | bool b => cases b <;> rfl
  | float x => rfl
  | undefined m => exact absurd rfl h

theorem code_eq_of_magnitude_same {a b : Key} (h : a.magnitude.same b.magnitude = true) :
    a.code = b.code := by
  obtain ⟨ha, hab⟩ := Magnitude.same_eq_true_iff.1 h
  rw [code_of_magnitude_ne ha, code_of_magnitude_ne (hab ▸ ha), hab]

theorem code_eq_of_same {a b : Key} (h : a.same b = true) : a.code = b.code := by
  unfold same at h
  split at h
  · rw [eq_of_beq h]
  · rfl
  · rw [eq_of_beq h]
  · exact code_eq_of_magnitude_same h

end Key

/-! ## Buckets -/

/-- Rows in buckets by the codes of their keys. -/
structure RowIndex (α : Type) where
  buckets : Array (List (KeyedRow α))

namespace RowIndex

variable {α : Type}

def insert (entry : KeyedRow α) (index : RowIndex α) : RowIndex α :=
  ⟨index.buckets.modify (entry.1.code % index.buckets.size) (entry :: ·)⟩

/-- Sorts rows into `n` buckets. -/
def bucketed (n : Nat) (rows : List (KeyedRow α)) : RowIndex α :=
  rows.foldr insert ⟨.replicate n []⟩

def ofRows (rows : List (KeyedRow α)) : RowIndex α :=
  bucketed rows.length rows

/-- The last row with a key. -/
def find? (index : RowIndex α) (k : Key) : Option (Cells α) :=
  Collection.findIn? k (index.buckets.getD (k.code % index.buckets.size) [])

theorem size_bucketed (n : Nat) (rows : List (KeyedRow α)) :
    (bucketed n rows).buckets.size = n := by
  induction rows with
  | nil => simp [bucketed]
  | cons entry rows ih =>
    change (insert entry (bucketed n rows)).buckets.size = n
    simp [insert, ih]

/-- A bucket holds the rows whose keys have its number, in their order. -/
theorem getD_bucketed {n : Nat} (rows : List (KeyedRow α)) {i : Nat} (h : i < n) :
    (bucketed n rows).buckets.getD i [] = rows.filter fun entry => entry.1.code % n == i := by
  induction rows with
  | nil => simp [bucketed, h]
  | cons entry rows ih =>
    have hs := size_bucketed n rows
    rw [List.filter_cons, ← ih]
    change (insert entry (bucketed n rows)).buckets.getD i [] = _
    simp only [insert, Array.getD_eq_getD_getElem?, Array.getElem?_modify, hs, beq_iff_eq]
    split <;> simp [hs, h]

theorem findIn?_filter (k : Key) (p : KeyedRow α → Bool) (rows : List (KeyedRow α))
    (h : ∀ entry, k.same entry.1 = true → p entry = true) :
    Collection.findIn? k (rows.filter p) = Collection.findIn? k rows := by
  induction rows with
  | nil => rfl
  | cons entry rows ih =>
    rw [List.filter_cons, Collection.findIn?, ← ih]
    by_cases hp : p entry = true
    · rw [if_pos hp]
      rfl
    · have hk : k.same entry.1 = false := Bool.eq_false_iff.2 fun hk => hp (h entry hk)
      rw [if_neg hp, hk]
      cases Collection.findIn? k (rows.filter p) <;> rfl

theorem find?_ofRows (rows : List (KeyedRow α)) (k : Key) :
    (ofRows rows).find? k = Collection.findIn? k rows := by
  cases rows with
  | nil => rfl
  | cons entry rows =>
    rw [find?, ofRows, size_bucketed, getD_bucketed _ (Nat.mod_lt _ (by simp))]
    exact findIn?_filter _ _ _ fun _ hk => by rw [Key.code_eq_of_same hk, beq_self_eq_true]

end RowIndex

namespace Collection

variable {α : Type}

/-- The rows of a collection, ready to be looked up by their keys. -/
def index (c : Collection α) : RowIndex α :=
  .ofRows c.rows

theorem find?_index (c : Collection α) (k : Key) : c.index.find? k = c.find? k :=
  RowIndex.find?_ofRows c.rows k

theorem isSome_find?_eq_hasKey (c : Collection α) (k : Key) :
    (c.find? k).isSome = c.hasKey k := by
  unfold find? hasKey keys
  induction c.rows with
  | nil => rfl
  | cons entry rows ih =>
    rw [findIn?, List.map_cons, List.any_cons, ← ih]
    cases findIn? k rows <;> cases k.same entry.1 <;> rfl

end Collection

end RowAlgebra
