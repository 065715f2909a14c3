import RowAlgebra.Text

/-!
# Texts as bytes

The system knows names as bytes. A character is passed on in its UTF-8 form, and the halves from
U+DC80 to U+DCFF stand for single bytes that are part of no character; the other halves cannot be
passed on at all (`Text.bytes?`). Coming back, bytes become characters wherever they can
(`Text.ofBytes`), so bytes that were given one by one may come back as a character.
-/

namespace RowAlgebra

namespace CodePoint

def bytes? (p : CodePoint) : Option (List Nat) :=
  let n := p.number
  if 0xDC80 ≤ n ∧ n ≤ 0xDCFF then some [n - 0xDC00]
  else if p.isHalf then none
  else if n < 0x80 then some [n]
  else if n < 0x800 then some [0xC0 + n / 64, 0x80 + n % 64]
  else if n < 0x10000 then some [0xE0 + n / 4096, 0x80 + n / 64 % 64, 0x80 + n % 64]
  else some [0xF0 + n / 262144, 0x80 + n / 4096 % 64, 0x80 + n / 64 % 64, 0x80 + n % 64]

/-- The code point that has the bytes at the start of a list, which begins with `b`, and the number
of them behind `b`. A byte that starts no character is the half that stands for it. -/
def ofBytes (b : Nat) (rest : List Nat) : CodePoint × Nat :=
  let decoded (first size : Nat) : Option (CodePoint × Nat) :=
    let n := (rest.take size).foldl (fun n c => n * 64 + (c - 0x80)) (b - first)
    let p := ofNumber n
    if p.bytes? = some (b :: rest.take size) then some (p, size) else none
  ((decoded 0 0).or ((decoded 0xC0 1).or ((decoded 0xE0 2).or (decoded 0xF0 3)))).getD
    (ofNumber (0xDC00 + b), 0)

end CodePoint

namespace Text

def bytes? (t : Text) : Option (List Nat) :=
  (t.points.mapM CodePoint.bytes?).map List.flatten

/-- The text that bytes stand for, where `skipped` of them are part of a character already. -/
def pointsOfBytes (skipped : Nat) : List Nat → List CodePoint
  | [] => []
  | b :: rest =>
    match skipped with
    | n + 1 => pointsOfBytes n rest
    | 0 =>
      let (p, n) := CodePoint.ofBytes b rest
      p :: pointsOfBytes n rest

def ofBytes (bytes : List Nat) : Text :=
  ⟨pointsOfBytes 0 bytes⟩

end Text

end RowAlgebra
