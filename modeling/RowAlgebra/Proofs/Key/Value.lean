import RowAlgebra.Collection

/-!
# The values of keys

Keys are compared by what they stand for. `Key.value?` is that value, where a key has one, and two
keys are the same exactly if they have the same value (`Key.same_iff`). So sequences of keys are the
same if their values are (`Key.sameAll_iff`), and two collections hold the same keys at the same
places if their layouts are equal (`Collection.samePartitionKeys_iff`). Settled keys have values
(`Key.isSome_value?_settle`), and keys that have one are settled already.
-/

namespace RowAlgebra

/-- What a key stands for. -/
inductive KeyValue where
  | number (m : Magnitude)
  | text (s : Text)
  | mark (m : Mark)
  deriving DecidableEq

namespace Magnitude

/-- The key value of a number. -/
def keyValue? (m : Magnitude) : Option KeyValue :=
  if m = .undefined then none else some (.number m)

theorem same_iff_keyValue? {a b : Magnitude} :
    a.same b = true ↔ a.keyValue?.isSome = true ∧ a.keyValue? = b.keyValue? := by
  rw [same_eq_true_iff]
  unfold keyValue?
  constructor
  · rintro ⟨ha, rfl⟩
    simp [ha]
  · rintro ⟨ha, hab⟩
    by_cases h : a = .undefined
    · simp [h] at ha
    · by_cases h' : b = .undefined
      · simp [h, h'] at hab
      · simpa [h, h'] using hab

end Magnitude

namespace Magnitude

theorem keyValue?_ne_text (m : Magnitude) (s : Text) : m.keyValue? ≠ some (.text s) := by
  unfold keyValue?
  split <;> simp

theorem keyValue?_ne_mark (m : Magnitude) (mark : Mark) : m.keyValue? ≠ some (.mark mark) := by
  unfold keyValue?
  split <;> simp

theorem same_undefined (m : Magnitude) : m.same .undefined = false := by
  cases m <;> simp [same]

end Magnitude

namespace Key

/-- The value that a key stands for, if it has one. -/
def value? : Key → Option KeyValue
  | text s => some (.text s)
  | undefined m => if m = .fresh then none else some (.mark m)
  | k => k.magnitude.keyValue?

/-- Whether a key stands for a number, if it has a value at all. -/
def isNumeric : Key → Bool
  | text _ | undefined _ => false
  | _ => true

theorem value?_of_isNumeric {k : Key} (h : k.isNumeric = true) :
    k.value? = k.magnitude.keyValue? := by
  cases k <;> first | rfl | cases h

theorem same_of_isNumeric {a b : Key} (h : a.isNumeric = true ∨ b.isNumeric = true) :
    a.same b = a.magnitude.same b.magnitude := by
  cases a <;> cases b <;> first | rfl | exact (Magnitude.same_ofInt _ _).symm | simp [isNumeric] at h

/-- A number differs from everything that is none. -/
theorem value?_ne_of_isNumeric {a b : Key} (ha : a.isNumeric = true) (hb : b.isNumeric = false)
    (h : a.value?.isSome = true) : a.value? ≠ b.value? := by
  intro hab
  rw [value?_of_isNumeric ha] at hab h
  cases b with
  | text s => exact Magnitude.keyValue?_ne_text _ s hab
  | undefined m =>
    by_cases hm : m = .fresh
    · simp [hab, value?, hm] at h
    · exact Magnitude.keyValue?_ne_mark _ m (by simpa [value?, hm] using hab)
  | _ => cases hb

theorem magnitude_of_not_isNumeric {k : Key} (h : k.isNumeric = false) :
    k.magnitude = .undefined := by
  cases k <;> first | rfl | cases h

/-- Keys are the same if they stand for the same value. -/
theorem same_iff {a b : Key} :
    a.same b = true ↔ a.value?.isSome = true ∧ a.value? = b.value? := by
  cases ha : a.isNumeric with
  | true =>
    rw [same_of_isNumeric (.inl ha)]
    cases hb : b.isNumeric with
    | true =>
      rw [value?_of_isNumeric ha, value?_of_isNumeric hb]
      exact Magnitude.same_iff_keyValue?
    | false =>
      rw [magnitude_of_not_isNumeric hb, Magnitude.same_undefined]
      exact ⟨nofun, fun h => absurd h.2 (value?_ne_of_isNumeric ha hb h.1)⟩
  | false =>
    cases hb : b.isNumeric with
    | true =>
      rw [same_of_isNumeric (.inr hb), magnitude_of_not_isNumeric ha]
      refine ⟨nofun, fun h => ?_⟩
      exact absurd h.2.symm (value?_ne_of_isNumeric hb ha (h.2 ▸ h.1))
    | false =>
      cases a <;> cases b <;> simp only [isNumeric, Bool.true_eq_false] at ha hb
      case text.text s t => simp [same, value?]
      case text.undefined s m =>
        by_cases h : m = .fresh <;> simp [same, value?, magnitude, Magnitude.same, h]
      case undefined.text m s =>
        by_cases h : m = .fresh <;> simp [same, value?, magnitude, Magnitude.same, h]
      case undefined.undefined m n => cases m <;> cases n <;> simp [same, value?, Mark.same]

theorem same_symm {a b : Key} (h : a.same b = true) : b.same a = true := by
  rw [same_iff] at *
  exact ⟨h.2 ▸ h.1, h.2.symm⟩

theorem same_trans {a b c : Key} (h₁ : a.same b = true) (h₂ : b.same c = true) :
    a.same c = true := by
  rw [same_iff] at *
  exact ⟨h₁.1, h₁.2.trans h₂.2⟩

theorem same_self_iff {k : Key} : k.same k = true ↔ k.value?.isSome = true := by
  simp [same_iff]

/-! ## Settled keys -/

theorem isSome_value?_settle (call position : Nat) (k : Key) :
    (k.settle call position).value?.isSome = true := by
  cases k with
  | int n => rfl
  | text s => rfl
  | bool b => rfl
  | float x =>
    unfold settle
    dsimp only
    split
    · rfl
    · next h => simp [value?, magnitude, Magnitude.keyValue?, h]
  | undefined m => cases m <;> rfl

/-- A key that has a value is settled. -/
theorem settle_eq_self {k : Key} (h : k.value?.isSome = true) (call position : Nat) :
    k.settle call position = k := by
  cases k with
  | float x =>
    have hx : Magnitude.ofFloat x ≠ .undefined := by
      intro hx
      simp [value?, magnitude, Magnitude.keyValue?, hx] at h
    simp [settle, hx]
  | undefined m => cases m <;> first | rfl | cases h
  | _ => rfl

/-! ## Sequences of keys -/

theorem sameAll_iff : ∀ {as bs : List Key}, sameAll as bs = true ↔
    (∀ a ∈ as, a.value?.isSome = true) ∧ as.map value? = bs.map value?
  | [], [] => by simp [sameAll]
  | [], _ :: _ => by simp [sameAll]
  | _ :: _, [] => by simp [sameAll]
  | a :: as, b :: bs => by
    simp only [sameAll, Bool.and_eq_true, same_iff, sameAll_iff, List.forall_mem_cons, List.map_cons,
      List.cons.injEq]
    exact and_and_and_comm

end Key

namespace Collection

variable {α : Type}

/-- The values of all keys, partition by partition. -/
def layout (c : Collection α) : List (List (Option KeyValue)) :=
  c.partitionKeys.map fun p => p.map Key.value?

/-- Whether all keys have values. -/
def Valued (c : Collection α) : Prop :=
  ∀ k ∈ c.keys, k.value?.isSome = true

theorem sameLayout_iff : ∀ {ps qs : List (List Key)}, sameLayout ps qs = true ↔
    (∀ p ∈ ps, ∀ k ∈ p, k.value?.isSome = true) ∧
      ps.map (fun p => p.map Key.value?) = qs.map fun q => q.map Key.value?
  | [], [] => by simp [sameLayout]
  | [], _ :: _ => by simp [sameLayout]
  | _ :: _, [] => by simp [sameLayout]
  | p :: ps, q :: qs => by
    simp only [sameLayout, Bool.and_eq_true, Key.sameAll_iff, sameLayout_iff, List.forall_mem_cons,
      List.map_cons, List.cons.injEq]
    exact and_and_and_comm

theorem keys_eq_flatten (c : Collection α) : c.keys = c.partitionKeys.flatten := by
  simp [keys, rows, partitionKeys, List.map_flatten]

/-- Collections hold the same keys at the same places if their layouts are equal. -/
theorem samePartitionKeys_iff {c d : Collection α} :
    c.samePartitionKeys d = true ↔ c.Valued ∧ c.layout = d.layout := by
  rw [samePartitionKeys, sameLayout_iff]
  have hv : c.Valued ↔ ∀ p ∈ c.partitionKeys, ∀ k ∈ p, k.value?.isSome = true := by
    rw [Valued, keys_eq_flatten]
    simp only [List.mem_flatten]
    exact ⟨fun h p hp k hk => h k ⟨p, hp, hk⟩, fun h k ⟨p, hp, hk⟩ => h p hp k hk⟩
  rw [hv]
  rfl

end Collection

end RowAlgebra
