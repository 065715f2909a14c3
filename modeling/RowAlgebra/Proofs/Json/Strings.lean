import Mathlib.Data.List.Chain
import RowAlgebra.Json.Parser
import RowAlgebra.Json.Writer

/-!
# Strings are read as they were written

The writer escapes the code points of a text one by one, and the reader puts them together again, one
after the other (`readString_stringPoint`). Code points beyond the first plane are written as the two
halves of a surrogate pair, which become one character when they are read. So a text comes back unless
the two halves of a pair stand next to each other in it, as code points of their own
(`readString_literal`).
-/

namespace RowAlgebra

/-! ## Characters -/

namespace CodePoint

theorem ofChar_shown {p : CodePoint} (h : p.isHalf = false) : ofChar p.shown = p := by
  obtain ⟨n, hn⟩ := p
  have hgap : n < 0xD800 ∨ 0xE000 ≤ n := by
    have : 0xD800 ≤ n → 0xE000 ≤ n := by simpa [isHalf] using h
    omega
  have hvalid : n.isValidChar := by
    simp only [Nat.isValidChar]
    omega
  have hshown : shown ⟨n, hn⟩ = Char.ofNat n := if_neg (by simp [h])
  have hnumber : (Char.ofNat n).toNat = n := by
    rw [Char.ofNat, dif_pos hvalid]
    rfl
  rw [hshown]
  simp only [ofChar, hnumber]

theorem number_shown {p : CodePoint} (h : p.isHalf = false) : p.shown.toNat = p.number :=
  congrArg number (ofChar_shown h)

/-- Whether two code points are the halves of a surrogate pair, in their order. -/
def IsPair (p q : CodePoint) : Prop :=
  0xD800 ≤ p.number ∧ p.number < 0xDC00 ∧ 0xDC00 ≤ q.number ∧ q.number < 0xE000

end CodePoint

namespace Text

/-- The characters that show a text. -/
def chars (t : Text) : List Char :=
  t.points.map CodePoint.shown

theorem shown_eq (t : Text) : t.shown = String.ofList t.chars :=
  rfl

@[simp]
theorem chars_append (s t : Text) : (s ++ t).chars = s.chars ++ t.chars :=
  List.map_append

@[simp]
theorem chars_ofString (s : String) : (ofString s).chars = s.toList := by
  simp [chars, ofString, Function.comp_def, CodePoint.shown_ofChar]

theorem chars_intercalate (separator : Text) (texts : List Text) :
    (intercalate separator texts).chars = separator.chars.intercalate (texts.map chars) := by
  rcases texts with _ | ⟨first, rest⟩
  · rfl
  · induction rest generalizing first with
    | nil => simp [intercalate, chars]
    | cons second rest ih =>
      have hrest := ih second
      simp only [intercalate, chars, List.map_cons, List.intercalate_cons_cons,
        List.map_append] at hrest ⊢
      rw [hrest]

/-- Whether no two code points in a row are the halves of one character. -/
def NoPairs (t : Text) : Prop :=
  t.points.IsChain fun p q => ¬ p.IsPair q

/-- Texts of characters hold no halves at all. -/
theorem noPairs_ofString (s : String) : (ofString s).NoPairs := by
  refine List.Pairwise.isChain (List.pairwise_of_forall_mem_list fun p hp q _ hpair => ?_)
  obtain ⟨c, -, rfl⟩ := List.mem_map.1 hp
  have hhalf : (CodePoint.ofChar c).isHalf = true := by
    simp only [CodePoint.isHalf, Bool.and_eq_true, decide_eq_true_eq]
    exact ⟨hpair.1, Nat.lt_trans hpair.2.1 (by decide)⟩
  rw [CodePoint.isHalf_ofChar] at hhalf
  cases hhalf

end Text

namespace Json

/-! ## Escapes -/

theorem hexDigit?_digitChar : ∀ d < 16, hexDigit? (Nat.digitChar d) = some d := by
  decide

theorem hexPadded_one {n : Nat} (h : n < 16) : Text.hexPadded 1 n = [n.digitChar] := by
  rw [Text.hexPadded, Nat.toDigits_of_lt_base h]
  rfl

theorem hexPadded_succ {width : Nat} (h : 0 < width) (n : Nat) :
    Text.hexPadded (width + 1) n = Text.hexPadded width (n / 16) ++ [(n % 16).digitChar] := by
  rw [Text.hexPadded, Nat.toDigits_eq_if (by decide)]
  split
  · next hlt =>
    obtain ⟨width, rfl⟩ := Nat.exists_eq_add_of_lt h
    rw [Nat.div_eq_of_lt hlt, Nat.mod_eq_of_lt hlt, Text.hexPadded,
      Nat.toDigits_of_lt_base (by decide)]
    simp [Nat.digitChar, List.replicate_succ']
  · simp [Text.hexPadded]

theorem hexPadded_four {n : Nat} (h : n < 0x10000) : Text.hexPadded 4 n =
    [(n / 4096).digitChar, (n / 256 % 16).digitChar, (n / 16 % 16).digitChar,
      (n % 16).digitChar] := by
  rw [hexPadded_succ (by decide), hexPadded_succ (by decide), hexPadded_succ (by decide),
    hexPadded_one (by omega), Nat.div_div_eq_div_mul n 16 16, Nat.div_div_eq_div_mul]
  rfl

theorem unitOf?_digitChars {n : Nat} (h : n < 0x10000) :
    unitOf? (n / 4096).digitChar (n / 256 % 16).digitChar (n / 16 % 16).digitChar
      (n % 16).digitChar = some n := by
  rw [unitOf?, hexDigit?_digitChar _ (by omega), hexDigit?_digitChar _ (by omega),
    hexDigit?_digitChar _ (by omega), hexDigit?_digitChar _ (by omega)]
  exact congrArg some (by omega)

/-- The escape of a unit is read as that unit. -/
theorem readString_unit {n : Nat} (h : n < 0x10000) (seen : List CodePoint) (rest : List Char) :
    readString seen ('\\' :: 'u' :: Text.hexPadded 4 n ++ rest) =
      readString (pushUnit n seen) rest := by
  rw [hexPadded_four h]
  change (do readString (pushUnit (← required (unitOf? _ _ _ _)) seen) rest) = _
  rw [unitOf?_digitChars h]
  rfl

/-- A letter behind a backslash is read as the character that it stands for. -/
theorem readString_letter (letter c : Char) (hu : letter ≠ 'u')
    (h : simpleEscape? letter = some c) (seen : List CodePoint) (rest : List Char) :
    readString seen ([('\\' : CodePoint), letter].map CodePoint.shown ++ rest) =
      readString (c :: seen) rest := by
  simp only [List.map_cons, List.map_nil, CodePoint.shown_ofChar, List.cons_append, List.nil_append]
  rw [readString, h]
  · rfl
  · exact fun _ _ _ _ _ heq => absurd heq hu

/-- Any other character stands for itself. -/
theorem readString_plain {c : Char} (hquote : c ≠ '"') (hslash : c ≠ '\\')
    (hcontrol : ¬ c.toNat < 0x20) (seen : List CodePoint) (rest : List Char) :
    readString seen (c :: rest) = readString (.ofChar c :: seen) rest := by
  rw [readString]
  · rw [if_neg (not_or.2 ⟨hcontrol, hslash⟩)]
  all_goals simp_all

/-! ## Units -/

theorem ofNumber_number (p : CodePoint) : CodePoint.ofNumber p.number = p :=
  dif_pos p.number_lt

theorem pushUnit_number {p : CodePoint} {seen : List CodePoint}
    (h : ∀ q ∈ seen.head?, ¬ q.IsPair p) : pushUnit p.number seen = p :: seen := by
  cases seen with
  | nil => rw [pushUnit, ofNumber_number]
  | cons q seen =>
    have hpair : ¬ (0xD800 ≤ q.number ∧ q.number < 0xDC00 ∧ 0xDC00 ≤ p.number ∧
        p.number < 0xE000) := h q rfl
    rw [pushUnit, if_neg hpair, ofNumber_number]

/-- The halves of a character beyond the first plane become that character. -/
theorem pushUnit_halves {p : CodePoint} (h : 0x10000 ≤ p.number) (seen : List CodePoint) :
    pushUnit (0xDC00 + (p.number - 0x10000) % 0x400)
      (pushUnit (0xD800 + (p.number - 0x10000) / 0x400) seen) = p :: seen := by
  have hlt := p.number_lt
  let high : CodePoint := ⟨0xD800 + (p.number - 0x10000) / 0x400, by omega⟩
  have hhigh : pushUnit high.number seen = high :: seen :=
    pushUnit_number fun q _ hpair => by
      have : 0xDC00 ≤ 0xD800 + (p.number - 0x10000) / 0x400 := hpair.2.2.1
      omega
  have hnumber : 0x10000 + (high.number - 0xD800) * 0x400 +
      (0xDC00 + (p.number - 0x10000) % 0x400 - 0xDC00) = p.number := by
    simp only [high]
    omega
  change pushUnit _ (pushUnit high.number seen) = _
  rw [hhigh, pushUnit, if_pos, hnumber, ofNumber_number]
  simp only [high]
  omega

/-! ## Code points -/

/-- A code point is read as it was written, unless it makes a pair with the one before it. -/
theorem readString_stringPoint {p : CodePoint} {seen : List CodePoint}
    (h : ∀ q ∈ seen.head?, ¬ q.IsPair p) (rest : List Char) :
    readString seen ((stringPoint true p).map CodePoint.shown ++ rest) =
      readString (p :: seen) rest := by
  unfold stringPoint
  split
  · next hself =>
    rcases hself with rfl | rfl
    · exact readString_letter '"' '"' (by decide) rfl seen rest
    · exact readString_letter '\\' '\\' (by decide) rfl seen rest
  split
  · next hp => exact hp ▸ readString_letter 'n' '\n' (by decide) rfl seen rest
  split
  · next hp => exact hp ▸ readString_letter 'r' '\r' (by decide) rfl seen rest
  split
  · next hp => exact hp ▸ readString_letter 't' '\t' (by decide) rfl seen rest
  split
  · next hp => exact hp ▸ readString_letter 'b' '\x08' (by decide) rfl seen rest
  split
  · next hp => exact hp ▸ readString_letter 'f' '\x0c' (by decide) rfl seen rest
  split
  · have hescapes : ((unitEscapes p.number).map CodePoint.ofChar).map CodePoint.shown =
        unitEscapes p.number := by
      simp [Function.comp_def, CodePoint.shown_ofChar]
    rw [hescapes, unitEscapes]
    split
    · next hn => rw [readString_unit hn, pushUnit_number h]
    · next hn =>
      have hlt := p.number_lt
      rw [List.append_assoc, readString_unit (by omega), readString_unit (by omega),
        pushUnit_halves (Nat.not_lt.1 hn)]
  · next hself _ _ _ _ _ hrange =>
    have hhalf : p.isHalf = false := by
      simp only [not_or, not_and, Nat.not_lt] at hrange
      have := hrange.2 trivial
      simp only [CodePoint.isHalf, Bool.and_eq_false_iff, decide_eq_false_iff_not]
      omega
    have hpoint := CodePoint.ofChar_shown hhalf
    have hnumber := CodePoint.number_shown hhalf
    change readString seen (p.shown :: rest) = _
    rw [readString_plain, hpoint]
    · exact fun heq => hself (.inl (hpoint.symm.trans (congrArg _ heq)))
    · exact fun heq => hself (.inr (hpoint.symm.trans (congrArg _ heq)))
    · omega

theorem readString_points {ps seen : List CodePoint}
    (h : (seen.take 1 ++ ps).IsChain fun p q => ¬ p.IsPair q) (rest : List Char) :
    readString seen ((ps.flatMap (stringPoint true)).map CodePoint.shown ++ '"' :: rest) =
      .ok (⟨seen.reverse ++ ps⟩, rest) := by
  induction ps generalizing seen with
  | nil => simp [readString]
  | cons p ps ih =>
    have hhead : ∀ q ∈ seen.head?, ¬ q.IsPair p := by
      cases seen with
      | nil => nofun
      | cons q seen =>
        rintro _ ⟨⟩
        exact (List.isChain_cons_cons.1 h).1
    have htail : ((p :: seen).take 1 ++ ps).IsChain fun p q => ¬ p.IsPair q := by
      cases seen with
      | nil => exact h
      | cons q seen => exact (List.isChain_cons_cons.1 h).2
    rw [List.flatMap_cons, List.map_append, List.append_assoc, readString_stringPoint hhead,
      ih htail]
    simp

/-- A text without pairs is read as it was written. -/
theorem readString_literal {s : Text} (h : s.NoPairs) (rest : List Char) :
    ∃ inner, (stringText true s).chars = '"' :: inner ∧
      readString [] (inner ++ rest) = .ok (s, rest) := by
  refine ⟨(s.points.flatMap (stringPoint true)).map CodePoint.shown ++ ['"'], ?_, ?_⟩
  · simp [stringText, Text.chars, CodePoint.shown_ofChar]
  · rw [List.append_assoc]
    have hpoints : (([] : List CodePoint).take 1 ++ s.points).IsChain fun p q => ¬ p.IsPair q := h
    exact readString_points hpoints rest

end Json

end RowAlgebra
