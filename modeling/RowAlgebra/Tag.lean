import RowAlgebra.Number

/-!
# Partitioning tags

A tag names the way in which the rows of a collection are spread over partitions. Equal known tags
are evidence that two collections are spread alike; the tag `0` is unknown and evidence of nothing.
Fresh tags come from a `TagSource`, a stream of draws of 64 random bits each, which become signed
numbers. A draw that yields the unknown tag is repeated.
-/

namespace RowAlgebra

abbrev Tag := Int

namespace Tag

def unknown : Tag := 0

/-- Whether two tags are evidence of equal partitioning. -/
def evident (a b : Tag) : Bool :=
  a != unknown && a == b

def ofDraw (draw : Int) : Tag :=
  draw - 2 ^ 63

end Tag

/-- A source of draws: the given ones first, then multiples of an odd constant, which come around
only after all 64-bit words. -/
structure TagSource where
  script : List Int
  /-- How many draws beyond the script have been made. -/
  drawn : Nat
  deriving DecidableEq

namespace TagSource

def ofScript (script : List Int) : TagSource := ⟨script, 0⟩

def draw (s : TagSource) : Int × TagSource :=
  match s.script with
  | next :: rest => (next, ⟨rest, s.drawn⟩)
  | [] =>
    let bits : UInt64 := UInt64.ofNat (s.drawn + 1) * 0x9E3779B97F4A7C15
    (bits.toNat, ⟨[], s.drawn + 1⟩)

/-- The first known tag among the next `fuel` draws. -/
def nextWithin : Nat → TagSource → Tag × TagSource
  | 0, s => (1, s)
  | fuel + 1, s =>
    let (draw, s) := s.draw
    let tag := Tag.ofDraw draw
    if tag = Tag.unknown then nextWithin fuel s else (tag, s)

/-- The next known tag. Any number of draws in the script can yield the unknown tag, but beyond it
no two draws in a row do, so the bound is never met. -/
def next (s : TagSource) : Tag × TagSource :=
  nextWithin (s.script.length + 2) s

end TagSource

end RowAlgebra
