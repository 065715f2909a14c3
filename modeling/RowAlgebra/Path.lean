import RowAlgebra.Text.Bytes
import RowAlgebra.Text.Lines

/-!
# File paths

A path is written in one way: its parts separated by single slashes, without `.` parts and without a
slash at the end. `..` parts stay, since what they lead to depends on the file system. Exactly two
slashes at the start are kept, any other number of them is one.
-/

namespace RowAlgebra

/-- A path as its root and its parts. -/
structure FilePath where
  root : String
  parts : List Text
  deriving DecidableEq

namespace FilePath

/-- The root of a path that starts with `slashes` slashes. -/
def rootOf (slashes : Nat) : String :=
  match slashes with
  | 0 => ""
  | 2 => "//"
  | _ => "/"

def ofText (t : Text) : FilePath :=
  let slashes := (t.points.takeWhile (· == CodePoint.ofChar '/')).length
  ⟨rootOf slashes, (t.splitAt '/').filter fun p => p != "" && p != "."⟩

instance : Coe String FilePath := ⟨fun s => ofText s⟩

/-- The written form; a path without parts and root is the current directory. -/
def text (p : FilePath) : Text :=
  if p.root = "" ∧ p.parts = [] then "."
  else p.root ++ Text.intercalate "/" p.parts

/-- The most bytes that one part of a path may have, and the most that a whole path may have. -/
def partLimit : Nat := 255

def textLimit : Nat := 4095

/-- The path `q` as seen from `p`. -/
def join (p q : FilePath) : FilePath :=
  if q.root = "" then { p with parts := p.parts ++ q.parts } else q

end FilePath

end RowAlgebra
