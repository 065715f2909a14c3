/-!
# Arithmetic symbols

`CellOp` combines two matrices cell by cell, `ScalarOp` a matrix with a scalar; the reversed symbols
put the scalar on the left-hand side. Each is written by a short symbol and read back from it.
-/

namespace RowAlgebra

/-- Arithmetic between the cells of two matrices. -/
inductive CellOp where
  | plus
  | minus
  | hadamard
  | divide
  deriving DecidableEq, Repr

namespace CellOp

def symbol : CellOp → String
  | plus => "+"
  | minus => "-"
  | hadamard => "*"
  | divide => "/"

def name : CellOp → String
  | plus => "Plus"
  | minus => "Minus"
  | hadamard => "Hadamard"
  | divide => "Divide"

def all : List CellOp := [plus, minus, hadamard, divide]

def ofSymbol? (s : String) : Option CellOp :=
  all.find? fun op => op.symbol == s

theorem ofSymbol?_symbol (op : CellOp) : ofSymbol? op.symbol = some op := by
  cases op <;> rfl

end CellOp

/-- Arithmetic between the cells of a matrix and a scalar. -/
inductive ScalarOp where
  | plus
  | minus
  | minusReversed
  | times
  | divide
  | divideReversed
  deriving DecidableEq, Repr

namespace ScalarOp

def symbol : ScalarOp → String
  | plus => "+"
  | minus => "-"
  | minusReversed => "-:"
  | times => "*"
  | divide => "/"
  | divideReversed => "/:"

def name : ScalarOp → String
  | plus => "Plus"
  | minus => "Minus"
  | minusReversed => "MinusReversed"
  | times => "Times"
  | divide => "Divide"
  | divideReversed => "DivideReversed"

def all : List ScalarOp := [plus, minus, minusReversed, times, divide, divideReversed]

def ofSymbol? (s : String) : Option ScalarOp :=
  all.find? fun op => op.symbol == s

theorem ofSymbol?_symbol (op : ScalarOp) : ofSymbol? op.symbol = some op := by
  cases op <;> rfl

end ScalarOp

end RowAlgebra
