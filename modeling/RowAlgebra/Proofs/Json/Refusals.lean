import RowAlgebra.Json.Parser
import RowAlgebra.Proofs.Ending

/-!
# How a JSON text is refused

The readers refuse a text for three reasons only (`Refusal`): it is malformed, it is nested too
deeply, or it writes an integer of too many digits (`parse_refusal`). The reader of values and those
of items and fields call one another with less and less fuel, and are followed together
(`readers_refusal`).
-/

namespace RowAlgebra.Json

/-- The reasons for which a text is refused. -/
inductive Refusal : Error → Prop where
  | malformed : Refusal (.fault .jsonDecode)
  | tooDeep : Refusal (.fault .recursion)
  | tooLong : Refusal (.fault .value)

theorem required_refusal {β : Type} (x : Option β) : Fails (required x) Refusal := by
  cases x with
  | none => exact Refusal.malformed
  | some v => exact .ok v

/-! ## Strings, numbers and words -/

theorem readString_refusal (seen : List CodePoint) (cs : List Char) :
    Fails (readString seen cs) Refusal := by
  fun_induction readString seen cs with
  | case1 => exact .ok _
  | case2 seen a b c d rest ih => exact (required_refusal _).bind ih
  | case3 seen c rest _ ih => exact (required_refusal _).bind ih
  | case4 => exact Refusal.malformed
  | case5 _ _ _ _ _ _ _ ih => exact ih
  | case6 => exact Refusal.malformed

theorem wholeNumber_refusal (ds : List Char) : Fails (Decimal.wholeNumber ds) Refusal :=
  .ite Refusal.tooLong (.ok _)

theorem readUnsigned_refusal (negative : Bool) (cs : List Char) :
    Fails (readUnsigned negative cs) Refusal := by
  refine .ite Refusal.malformed (.ite ?_ (.ok _))
  exact ((wholeNumber_refusal _).bind fun n => .ok _).bind fun n => .ok _

theorem readWord_refusal (word : String) (v : Value) (cs : List Char) :
    Fails (readWord word v cs) Refusal := by
  unfold readWord
  split
  · exact .ok _
  · exact Refusal.malformed

theorem readAtom_refusal (cs : List Char) : Fails (readAtom cs) Refusal := by
  unfold readAtom
  split <;> first | exact readWord_refusal _ _ _ | exact readUnsigned_refusal _ _

/-! ## Values -/

section

variable {fuel : Nat}

theorem readValue_refusal (hitems : ∀ room cs, Fails (readItems fuel room cs) Refusal)
    (hfields : ∀ room fields cs, Fails (readFields fuel room fields cs) Refusal) (room : Nat)
    (cs : List Char) : Fails (readValue (fuel + 1) room cs) Refusal := by
  unfold readValue
  split
  · exact (readString_refusal _ _).bind fun _ => .ok _
  · split
    · exact Refusal.tooDeep
    · split
      · exact .ok _
      · exact (hitems _ _).bind fun _ => .ok _
  · split
    · exact Refusal.tooDeep
    · split
      · exact .ok _
      · exact (hfields _ _ _).bind fun _ => .ok _
  · exact readAtom_refusal _

variable (hvalue : ∀ room cs, Fails (readValue fuel room cs) Refusal)
include hvalue

theorem readItems_refusal (hitems : ∀ room cs, Fails (readItems fuel room cs) Refusal)
    (room : Nat) (cs : List Char) : Fails (readItems (fuel + 1) room cs) Refusal := by
  unfold readItems
  refine (hvalue _ _).bind fun (item, rest) => ?_
  dsimp only
  split
  · exact .ok _
  · exact (hitems _ _).bind fun _ => .ok _
  · exact Refusal.malformed

theorem readFields_refusal
    (hfields : ∀ room fields cs, Fails (readFields fuel room fields cs) Refusal) (room : Nat)
    (fields : List (Text × Value)) (cs : List Char) :
    Fails (readFields (fuel + 1) room fields cs) Refusal := by
  unfold readFields
  split
  · refine (readString_refusal _ _).bind fun (name, rest) => ?_
    dsimp only
    split
    · refine (hvalue _ _).bind fun (v, rest) => ?_
      dsimp only
      split
      · exact .ok _
      · exact hfields _ _ _
      · exact Refusal.malformed
    · exact Refusal.malformed
  · exact Refusal.malformed

end

/-- With every amount of fuel, each of the three readers refuses for these reasons only. -/
theorem readers_refusal (fuel : Nat) :
    (∀ room cs, Fails (readValue fuel room cs) Refusal) ∧
      (∀ room cs, Fails (readItems fuel room cs) Refusal) ∧
      ∀ room fields cs, Fails (readFields fuel room fields cs) Refusal := by
  induction fuel with
  | zero =>
    refine ⟨fun room cs => ?_, fun room cs => ?_, fun room fields cs => ?_⟩
    · rw [readValue]
      exact Refusal.malformed
    · rw [readItems]
      exact Refusal.malformed
    · rw [readFields]
      exact Refusal.malformed
  | succ fuel ih =>
    obtain ⟨hvalue, hitems, hfields⟩ := ih
    exact ⟨readValue_refusal hitems hfields, readItems_refusal hvalue hitems,
      readFields_refusal hvalue hfields⟩

theorem parse_refusal {s : String} {e : Error} (h : parse s = .error e) : Refusal e := by
  have hparse : Fails (parse s) Refusal :=
    ((readers_refusal _).1 _ _).bind fun (v, rest) => .ite (.ok v) Refusal.malformed
  exact hparse.of_error h

end RowAlgebra.Json
