import RowAlgebra.Number

/-!
# Texts

A `Text` is a sequence of code points. Nearly all of them are characters; the escapes of JSON also
admit one half of a surrogate pair on its own, which no character is and which a `String` cannot
hold. A string is a text (`Text.ofString`), and `Text.shown` goes back, where a half becomes the
replacement character; on texts of characters nothing is lost (`Text.shown_ofString`). Whatever a
user may have written is a text, so that no two names become one.
-/

namespace RowAlgebra

/-- A character, or one half of a surrogate pair, by its number. -/
structure CodePoint where
  number : Nat
  number_lt : number < 0x110000
  deriving DecidableEq

namespace CodePoint

instance : Inhabited CodePoint := ⟨⟨0, by decide⟩⟩

theorem toNat_lt (c : Char) : c.toNat < 0x110000 := by
  have h := c.valid
  simp only [UInt32.isValidChar, Nat.isValidChar] at h
  change c.val.toNat < 0x110000
  omega

def ofChar (c : Char) : CodePoint :=
  ⟨c.toNat, toNat_lt c⟩

instance : Coe Char CodePoint := ⟨ofChar⟩

/-- The code point with a number; numbers beyond the last one have none. -/
def ofNumber (n : Nat) : CodePoint :=
  if h : n < 0x110000 then ⟨n, h⟩ else default

/-- Whether a code point is one half of a surrogate pair. The halves lie in a gap of the
characters. -/
def isHalf (p : CodePoint) : Bool :=
  0xD800 ≤ p.number && p.number < 0xE000

/-- What is shown of a code point where only characters can be. -/
def shown (p : CodePoint) : Char :=
  if p.isHalf then '\uFFFD' else Char.ofNat p.number

theorem isHalf_ofChar (c : Char) : (ofChar c).isHalf = false := by
  have h := c.valid
  simp only [UInt32.isValidChar, Nat.isValidChar] at h
  have : (ofChar c).number = c.val.toNat := rfl
  simp only [isHalf, this, Bool.and_eq_false_iff, decide_eq_false_iff_not]
  omega

theorem shown_ofChar (c : Char) : (ofChar c).shown = c := by
  rw [shown, isHalf_ofChar]
  simp [ofChar]

end CodePoint

structure Text where
  points : List CodePoint
  deriving DecidableEq, Inhabited

namespace Text

def ofString (s : String) : Text :=
  ⟨s.toList.map .ofChar⟩

instance : Coe String Text := ⟨ofString⟩

instance : Append Text := ⟨fun s t => ⟨s.points ++ t.points⟩⟩

def shown (t : Text) : String :=
  String.ofList (t.points.map CodePoint.shown)

theorem shown_ofString (s : String) : (ofString s).shown = s := by
  simp [ofString, shown, Function.comp_def, CodePoint.shown_ofChar]

/-- The characters of a text that holds nothing else. -/
def toString? (t : Text) : Option String :=
  if t.points.any CodePoint.isHalf then none else some t.shown

theorem toString?_ofString (s : String) : (ofString s).toString? = some s := by
  have h : (ofString s).points.any CodePoint.isHalf = false := by
    simp [ofString, CodePoint.isHalf_ofChar]
  simp [toString?, h, shown_ofString]

def empty : Text := ⟨[]⟩

def isEmpty (t : Text) : Bool :=
  t.points.isEmpty

def length (t : Text) : Nat :=
  t.points.length

def spaces (n : Nat) : Text :=
  ⟨List.replicate n ' '⟩

def join (texts : List Text) : Text :=
  ⟨texts.flatMap points⟩

def intercalate (separator : Text) (texts : List Text) : Text :=
  ⟨separator.points.intercalate (texts.map points)⟩

/-- Whether a sequence of code points comes before another. -/
def pointsBefore : List CodePoint → List CodePoint → Bool
  | _, [] => false
  | [], _ :: _ => true
  | p :: ps, q :: qs => if p = q then pointsBefore ps qs else decide (p.number < q.number)

/-- The order of texts by the numbers of their code points. -/
def before (s t : Text) : Bool :=
  pointsBefore s.points t.points

end Text

end RowAlgebra
