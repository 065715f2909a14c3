import Mathlib.Data.List.TakeWhile
import RowAlgebra.Json.Parser
import RowAlgebra.Json.Writer

/-!
# Numerals are read as they were written

The reader of a number stops at the first character that is not part of it, so a numeral is read the
same whatever `Closes` it (`Closes.readAtom_append`). The digits of an integer are then read as that
integer, if there are not too many of them (`Closes.readAtom_int`). Whether the digits of a double are
read as that double is a matter of correct rounding, and is asked for where it is needed (`ReadsBack`).
-/

namespace RowAlgebra.Json

/-! ## What closes a numeral -/

/-- Whether some characters, if there are any, begin with what ends a value. -/
def Closes (rest : List Char) : Prop :=
  ∀ c ∈ rest.head?, c = ',' ∨ c = ']' ∨ c = '\x7d'

theorem closes_nil : Closes [] :=
  nofun

theorem closes_comma (rest : List Char) : Closes (',' :: rest) := by
  rintro _ ⟨⟩
  exact .inl rfl

theorem closes_bracket (rest : List Char) : Closes (']' :: rest) := by
  rintro _ ⟨⟩
  exact .inr (.inl rfl)

theorem closes_brace (rest : List Char) : Closes ('\x7d' :: rest) := by
  rintro _ ⟨⟩
  exact .inr (.inr rfl)

variable {rest : List Char}

theorem Closes.cases (h : Closes rest) :
    rest = [] ∨ (∃ tail, rest = ',' :: tail) ∨ (∃ tail, rest = ']' :: tail) ∨
      ∃ tail, rest = '\x7d' :: tail := by
  rcases rest with _ | ⟨c, tail⟩
  · exact .inl rfl
  · rcases h c rfl with rfl | rfl | rfl
    · exact .inr (.inl ⟨tail, rfl⟩)
    · exact .inr (.inr (.inl ⟨tail, rfl⟩))
    · exact .inr (.inr (.inr ⟨tail, rfl⟩))

theorem Closes.takeWhile_isDigit (h : Closes rest) : rest.takeWhile Decimal.isDigit = [] := by
  rcases h.cases with rfl | ⟨tail, rfl⟩ | ⟨tail, rfl⟩ | ⟨tail, rfl⟩ <;> rfl

theorem Closes.dropWhile_isDigit (h : Closes rest) : rest.dropWhile Decimal.isDigit = rest := by
  rcases h.cases with rfl | ⟨tail, rfl⟩ | ⟨tail, rfl⟩ | ⟨tail, rfl⟩ <;> rfl

theorem Closes.takeWhile_append (h : Closes rest) (cs : List Char) :
    (cs ++ rest).takeWhile Decimal.isDigit = cs.takeWhile Decimal.isDigit := by
  rw [List.takeWhile_append, h.takeWhile_isDigit]
  split
  · next hall => rw [List.append_nil, (List.takeWhile_prefix _).eq_of_length hall]
  · rfl

theorem Closes.dropWhile_append (h : Closes rest) (cs : List Char) :
    (cs ++ rest).dropWhile Decimal.isDigit = cs.dropWhile Decimal.isDigit ++ rest := by
  rw [List.dropWhile_append, h.dropWhile_isDigit]
  split
  · next hall => rw [List.isEmpty_iff.1 hall, List.nil_append]
  · rfl

/-! ## Numbers -/

theorem Closes.readFraction_append (h : Closes rest) (cs : List Char) :
    readFraction (cs ++ rest) = ((readFraction cs).1, (readFraction cs).2 ++ rest) := by
  rcases cs with _ | ⟨c, cs⟩
  · rcases h.cases with rfl | ⟨tail, rfl⟩ | ⟨tail, rfl⟩ | ⟨tail, rfl⟩ <;> rfl
  · by_cases hc : c = '.'
    · subst hc
      simp only [List.cons_append, readFraction, h.takeWhile_append, h.dropWhile_append]
      split <;> rfl
    · simp [readFraction, hc]

theorem Closes.signed_append (h : Closes rest) (cs : List Char) :
    Decimal.signed (cs ++ rest) = ((Decimal.signed cs).1, (Decimal.signed cs).2 ++ rest) := by
  rcases cs with _ | ⟨c, cs⟩
  · rcases h.cases with rfl | ⟨tail, rfl⟩ | ⟨tail, rfl⟩ | ⟨tail, rfl⟩ <;> rfl
  · by_cases hminus : c = '-'
    · subst hminus
      rfl
    · by_cases hplus : c = '+'
      · subst hplus
        rfl
      · simp [Decimal.signed, hminus, hplus]

theorem Closes.readExponent_append (h : Closes rest) (cs : List Char) :
    Decimal.readExponent (cs ++ rest) =
      (Decimal.readExponent cs).map fun read => (read.1, read.2 ++ rest) := by
  rcases cs with _ | ⟨e, cs⟩
  · rcases h.cases with rfl | ⟨tail, rfl⟩ | ⟨tail, rfl⟩ | ⟨tail, rfl⟩ <;> rfl
  · by_cases he : e = 'e' ∨ e = 'E'
    · simp only [List.cons_append, Decimal.readExponent, if_pos he, h.signed_append,
        h.takeWhile_append, h.dropWhile_append]
      split <;> rfl
    · simp only [List.cons_append, Decimal.readExponent, if_neg he, Option.map_none]

theorem Closes.readUnsigned_append (h : Closes rest) {negative : Bool} {cs after : List Char}
    {v : Value} (hread : readUnsigned negative cs = .ok (v, after)) :
    readUnsigned negative (cs ++ rest) = .ok (v, after ++ rest) := by
  simp only [readUnsigned] at hread ⊢
  rw [h.takeWhile_append]
  have hdigits := (cs.takeWhile_prefix Decimal.isDigit).length_le
  generalize cs.takeWhile Decimal.isDigit = digits at *
  have hwhole : (if digits.head? = some '0' then ['0'] else digits).length ≤ cs.length := by
    split
    · next hzero =>
      have := List.length_pos_of_mem (List.mem_of_mem_head? hzero)
      exact Nat.le_trans this hdigits
    · exact hdigits
  generalize (if digits.head? = some '0' then ['0'] else digits) = whole at *
  rw [List.drop_append_of_le_length hwhole, h.readFraction_append, h.readExponent_append]
  generalize readFraction (cs.drop whole.length) = read at *
  generalize hexponent : Decimal.readExponent read.2 = exponent at *
  have hgetD : (exponent.map fun read => (read.1, read.2 ++ rest)).getD (0, read.2 ++ rest) =
      ((exponent.getD (0, read.2)).1, (exponent.getD (0, read.2)).2 ++ rest) := by
    cases exponent <;> rfl
  simp only [Option.isNone_map, hgetD]
  split at hread
  · cases hread
  · next hnonempty =>
    rw [if_neg hnonempty]
    split at hread
    · next hint =>
      rw [if_pos hint]
      cases hnumber : Decimal.wholeNumber whole with
      | error e =>
        rw [hnumber] at hread
        cases hread
      | ok n =>
        rw [hnumber] at hread
        cases hread
        rfl
    · next hint =>
      rw [if_neg hint]
      cases hread
      rfl

/-! ## Words -/

theorem expect_append {word cs after : List Char} (h : expect word cs = some after)
    (rest : List Char) : expect word (cs ++ rest) = some (after ++ rest) := by
  fun_induction expect word cs with
  | case1 cs =>
    cases h
    rw [expect]
  | case2 => cases h
  | case3 w ws cs ih =>
    rw [List.cons_append, expect, if_pos rfl]
    exact ih h
  | case4 => cases h

theorem readWord_append {word : String} {w v : Value} {cs after : List Char}
    (h : readWord word w cs = .ok (v, after)) (rest : List Char) :
    readWord word w (cs ++ rest) = .ok (v, after ++ rest) := by
  unfold readWord at h ⊢
  split at h
  · next hexpect =>
    cases h
    rw [expect_append hexpect]
  · cases h

/-- The characters that begin a word or a negative number. -/
def wordHeads : List Char :=
  ['n', 't', 'f', 'N', 'I', '-']

theorem readAtom_of_number {c : Char} (h : c ∉ wordHeads) (cs : List Char) :
    readAtom (c :: cs) = readUnsigned false (c :: cs) := by
  rw [readAtom] <;> rintro tail ⟨⟩ <;> simp [wordHeads] at h

/-- A word or a number is read the same whatever closes it. -/
theorem Closes.readAtom_append (h : Closes rest) {cs after : List Char} {v : Value}
    (hread : readAtom cs = .ok (v, after)) : readAtom (cs ++ rest) = .ok (v, after ++ rest) := by
  unfold readAtom at hread
  split at hread
  · exact readWord_append hread rest
  · exact readWord_append hread rest
  · exact readWord_append hread rest
  · exact readWord_append hread rest
  · exact readWord_append hread rest
  · exact readWord_append hread rest
  · next cs hinfinity =>
    rw [List.cons_append, readAtom]
    · exact h.readUnsigned_append hread
    · intro tail heq
      rcases cs with _ | ⟨c, cs⟩
      · cases hread
      · cases heq
        exact hinfinity _ rfl
  · rcases cs with _ | ⟨c, cs⟩
    · cases hread
    · have hc : c ∉ wordHeads := by
        intro hmem
        simp_all [wordHeads]
      rw [List.cons_append, readAtom_of_number hc]
      exact h.readUnsigned_append hread

/-! ## Integers -/

theorem isDigit_of_mem_toDigits {n : Nat} {c : Char} (h : c ∈ Nat.toDigits 10 n) :
    Decimal.isDigit c = true :=
  Nat.isDigit_of_mem_toDigits (by decide) (by decide) h

theorem not_isDigit_of_mem_wordHeads {c : Char} (h : c ∈ wordHeads) :
    ¬ Decimal.isDigit c = true := by
  have hall : (wordHeads.all fun c => !Decimal.isDigit c) = true := by decide
  simpa using List.all_eq_true.1 hall c h

theorem digitsValue_toDigits (n : Nat) : Decimal.digitsValue (Nat.toDigits 10 n) = n := by
  have hvalue : ∀ (ds : List Char) (m : Nat),
      ds.foldl (fun n d => n * 10 + (d.toNat - 48)) m = Nat.ofDigitChars 10 ds m := by
    intro ds
    induction ds with
    | nil => exact fun _ => rfl
    | cons d ds ih =>
      intro m
      rw [List.foldl_cons, ih, Nat.mul_comm]
      rfl
  exact (hvalue _ 0).trans Nat.ofDigitChars_ten_toDigits

/-- Only the digits of zero begin with a zero. -/
theorem toDigits_of_head?_zero {n : Nat} (h : (Nat.toDigits 10 n).head? = some '0') :
    Nat.toDigits 10 n = ['0'] := by
  induction n using Nat.strongRecOn with
  | _ n ih =>
    rw [Nat.toDigits_eq_if (by decide)] at h ⊢
    split at h
    · next hlt =>
      rw [if_pos hlt]
      exact congrArg (· :: []) (Option.some.inj h)
    · next hlt =>
      have hhead : (Nat.toDigits 10 (n / 10)).head? = some '0' := by
        obtain ⟨d, ds, hds⟩ := List.exists_cons_of_ne_nil (Nat.toDigits_ne_nil (n := n / 10))
        rw [hds] at h ⊢
        exact h
      have hzero := congrArg Decimal.digitsValue (ih (n / 10) (by omega) hhead)
      rw [digitsValue_toDigits] at hzero
      change n / 10 = 0 at hzero
      omega

/-- The digits of a number are read as that number, if there are not too many of them. -/
theorem readUnsigned_toDigits (negative : Bool) {n : Nat}
    (h : Decimal.digitCount n ≤ Decimal.digitLimit) :
    readUnsigned negative (Nat.toDigits 10 n) = .ok (.int (if negative then -n else n), []) := by
  have hdigits : (Nat.toDigits 10 n).takeWhile Decimal.isDigit = Nat.toDigits 10 n :=
    List.takeWhile_eq_self_iff.2 fun c hc => isDigit_of_mem_toDigits hc
  have hwhole : (if (Nat.toDigits 10 n).head? = some '0' then ['0'] else Nat.toDigits 10 n) =
      Nat.toDigits 10 n := by
    split
    · next hzero => exact (toDigits_of_head?_zero hzero).symm
    · rfl
  have hnumber : Decimal.wholeNumber (Nat.toDigits 10 n) = .ok n := by
    rw [Decimal.wholeNumber, digitsValue_toDigits]
    exact if_neg (Nat.not_lt.2 h)
  simp only [readUnsigned]
  rw [hdigits, hwhole, if_neg (by simp [Nat.toDigits_ne_nil]), List.drop_length, hnumber]
  rfl

theorem toList_toString (n : Int) : (toString n).toList =
    if n < 0 then '-' :: Nat.toDigits 10 n.natAbs else Nat.toDigits 10 n.natAbs := by
  rw [Int.toString_eq_repr, Int.repr_eq_if]
  by_cases hn : n < 0
  · have habs : (-n).toNat = n.natAbs := by omega
    rw [if_neg (Int.not_le.2 hn), if_pos hn, String.toList_append, Nat.toList_repr, habs]
    rfl
  · have habs : n.toNat = n.natAbs := by omega
    rw [if_pos (Int.not_lt.1 hn), if_neg hn, Nat.toList_repr, habs]

/-- An integer is read as it was written, whatever closes it. -/
theorem Closes.readAtom_int (h : Closes rest) {n : Int} (hn : Decimal.isLong n = false) :
    readAtom ((toString n).toList ++ rest) = .ok (.int n, rest) := by
  have hshort : Decimal.digitCount n.natAbs ≤ Decimal.digitLimit :=
    Nat.not_lt.1 (of_decide_eq_false hn)
  obtain ⟨d, ds, hds⟩ := List.exists_cons_of_ne_nil (Nat.toDigits_ne_nil (n := n.natAbs))
  have hd : Decimal.isDigit d = true :=
    isDigit_of_mem_toDigits (n := n.natAbs) (hds ▸ List.mem_cons_self)
  have hread : readAtom (toString n).toList = .ok (.int n, []) := by
    rw [toList_toString]
    split
    · next hneg =>
      rw [readAtom, readUnsigned_toDigits true hshort]
      · have habs : -(n.natAbs : Int) = n := by omega
        rw [if_pos rfl, habs]
      · intro tail heq
        rw [hds] at heq
        cases heq
        exact absurd hd (by decide)
    · next hneg =>
      have hnumber : d ∉ wordHeads := fun hmem =>
        absurd hd (not_isDigit_of_mem_wordHeads hmem)
      have habs : (n.natAbs : Int) = n := by omega
      rw [hds, readAtom_of_number hnumber, ← hds, readUnsigned_toDigits false hshort]
      simp [habs]
  simpa using h.readAtom_append hread

/-! ## Doubles -/

/-- Whether the digits of a double are read as that double. -/
def ReadsBack (x : Float) : Prop :=
  readAtom (FloatLayout.json.text x).toList = .ok (.float x, [])

end RowAlgebra.Json
