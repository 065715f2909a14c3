import Mathlib.Data.List.Nodup
import RowAlgebra.Json.Parser
import RowAlgebra.Proofs.Ending
import RowAlgebra.Proofs.Json.Equality

/-!
# What is read is proper

A JSON text may name a field of an object several times, but a value that is read from it does not
(`parse_isProper`): a field that comes again takes the place of the one before
(`Value.isProper_setField`). The reader of values and those of items and fields are followed together
(`readers_proper`), as they call one another with less and less fuel.
-/

namespace RowAlgebra.Json

namespace Value

theorem names_setField (name : Text) (v : Value) (fields : List (Text × Value)) :
    (setField name v fields).map Prod.fst =
      if name ∈ fields.map Prod.fst then fields.map Prod.fst
      else fields.map Prod.fst ++ [name] := by
  induction fields with
  | nil => rfl
  | cons field fields ih =>
    rw [setField]
    by_cases h : field.1 = name
    · simp [h]
    · rw [if_neg h, List.map_cons, List.map_cons, ih]
      simp only [List.mem_cons, Ne.symm h, false_or]
      split <;> rfl

theorem mem_setField {name : Text} {v : Value} {fields : List (Text × Value)}
    {field : Text × Value} (h : field ∈ setField name v fields) :
    field.2 = v ∨ field ∈ fields := by
  induction fields with
  | nil => exact .inl (congrArg Prod.snd (List.mem_singleton.1 h))
  | cons first fields ih =>
    rw [setField] at h
    split at h
    · rcases List.mem_cons.1 h with rfl | hrest
      · exact .inl rfl
      · exact .inr (List.mem_cons_of_mem _ hrest)
    · rcases List.mem_cons.1 h with rfl | hrest
      · exact .inr List.mem_cons_self
      · exact (ih hrest).imp_right (List.mem_cons_of_mem _)

theorem isProper_setField {name : Text} {v : Value} {fields : List (Text × Value)}
    (hv : v.isProper = true) (hfields : (object fields).isProper = true) :
    (object (setField name v fields)).isProper = true := by
  rw [isProper_object_iff] at hfields ⊢
  refine ⟨?_, fun field hfield => ?_⟩
  · rw [names_setField]
    split
    · exact hfields.1
    · next hname =>
      rw [← List.concat_eq_append]
      exact List.Nodup.concat hname hfields.1
  · rcases mem_setField hfield with heq | hold
    · rw [heq]
      exact hv
    · exact hfields.2 field hold

end Value

/-! ## Numbers and words -/

/-- Whether a reader that succeeds has read a proper value. -/
abbrev ReadsProper (x : Except Error (Value × List Char)) : Prop :=
  Ensures x fun read => read.1.isProper = true

theorem readUnsigned_proper (negative : Bool) (cs : List Char) :
    ReadsProper (readUnsigned negative cs) := by
  refine .ite trivial (.ite ?_ rfl)
  exact (Ends.any _).bind fun _ _ => rfl

theorem readWord_proper (word : String) {v : Value} (h : v.isProper = true) (cs : List Char) :
    ReadsProper (readWord word v cs) := by
  unfold readWord
  split
  · exact h
  · exact trivial

theorem readAtom_proper (cs : List Char) : ReadsProper (readAtom cs) := by
  unfold readAtom
  split <;> first | exact readWord_proper _ rfl _ | exact readUnsigned_proper _ _

/-! ## Values -/

section

variable {fuel : Nat}

theorem readValue_proper
    (hitems : ∀ room cs, Ensures (readItems fuel room cs) fun read =>
      Value.areProper read.1 = true)
    (hfields : ∀ room fields cs, (Value.object fields).isProper = true →
      Ensures (readFields fuel room fields cs) fun read =>
        (Value.object read.1).isProper = true)
    (room : Nat) (cs : List Char) : ReadsProper (readValue (fuel + 1) room cs) := by
  unfold readValue
  split
  · exact (Ends.any _).bind fun _ _ => rfl
  · split
    · exact trivial
    · split
      · exact rfl
      · exact (hitems _ _).bind fun _ hread => hread
  · split
    · exact trivial
    · split
      · exact rfl
      · exact (hfields _ _ _ rfl).bind fun _ hread => hread
  · exact readAtom_proper _

variable (hvalue : ∀ room cs, ReadsProper (readValue fuel room cs))
include hvalue

theorem readItems_proper
    (hitems : ∀ room cs, Ensures (readItems fuel room cs) fun read =>
      Value.areProper read.1 = true)
    (room : Nat) (cs : List Char) :
    Ensures (readItems (fuel + 1) room cs) fun read => Value.areProper read.1 = true := by
  unfold readItems
  refine (hvalue _ _).bind fun (item, rest) hitem => ?_
  dsimp only
  split
  · exact Bool.and_eq_true_iff.2 ⟨hitem, rfl⟩
  · exact (hitems _ _).bind fun _ hrest => Bool.and_eq_true_iff.2 ⟨hitem, hrest⟩
  · exact trivial

theorem readFields_proper
    (hfields : ∀ room fields cs, (Value.object fields).isProper = true →
      Ensures (readFields fuel room fields cs) fun read =>
        (Value.object read.1).isProper = true)
    (room : Nat) (fields : List (Text × Value)) (cs : List Char)
    (h : (Value.object fields).isProper = true) :
    Ensures (readFields (fuel + 1) room fields cs) fun read =>
      (Value.object read.1).isProper = true := by
  unfold readFields
  split
  · refine (Ends.any _).bind fun (name, rest) _ => ?_
    dsimp only
    split
    · refine (hvalue _ _).bind fun (v, rest) hv => ?_
      dsimp only
      split
      · exact Value.isProper_setField hv h
      · exact hfields _ _ _ (Value.isProper_setField hv h)
      · exact trivial
    · exact trivial
  · exact trivial

end

/-- With every amount of fuel, what each of the three readers reads is proper. -/
theorem readers_proper (fuel : Nat) :
    (∀ room cs, ReadsProper (readValue fuel room cs)) ∧
      (∀ room cs, Ensures (readItems fuel room cs) fun read => Value.areProper read.1 = true) ∧
      ∀ room fields cs, (Value.object fields).isProper = true →
        Ensures (readFields fuel room fields cs) fun read =>
          (Value.object read.1).isProper = true := by
  induction fuel with
  | zero =>
    refine ⟨fun room cs => ?_, fun room cs => ?_, fun room fields cs _ => ?_⟩
    · rw [readValue]
      exact trivial
    · rw [readItems]
      exact trivial
    · rw [readFields]
      exact trivial
  | succ fuel ih =>
    obtain ⟨hvalue, hitems, hfields⟩ := ih
    exact ⟨readValue_proper hitems hfields, readItems_proper hvalue hitems,
      readFields_proper hvalue hfields⟩

theorem parse_isProper {s : String} {v : Value} (h : parse s = .ok v) : v.isProper = true := by
  have hparse : Ensures (parse s) fun v => v.isProper = true := by
    unfold parse
    refine ((readers_proper _).1 _ _).bind fun (v, rest) hv => ?_
    dsimp only
    split
    · exact hv
    · exact trivial
  exact hparse.of_ok h

end RowAlgebra.Json
