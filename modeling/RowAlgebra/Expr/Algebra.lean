import RowAlgebra.Expr.Build

/-!
# The algebra of matrices

The operators that users write down: arithmetic between matrices and scalars, products,
transposition and the selection of rows. Each builds one node, or refuses its operands.
-/

namespace RowAlgebra

/-- An operand of `+ - * /`. -/
inductive Operand (α : Type) where
  | matrix (e : Expr α)
  | scalar (s : Scalar)

namespace CellOp

def withScalarRight : CellOp → ScalarOp
  | plus => .plus
  | minus => .minus
  | hadamard => .times
  | divide => .divide

def withScalarLeft : CellOp → ScalarOp
  | plus => .plus
  | minus => .minusReversed
  | hadamard => .times
  | divide => .divideReversed

end CellOp

/-- The integers from `start` on in steps of `step`, up to but without `stop`. -/
structure IndexRange where
  start : Int
  stop : Int
  step : Int
  deriving DecidableEq, Repr

namespace IndexRange

def ofStep (start stop step : Int) : Except Error IndexRange :=
  if step = 0 then .error (.fault .value) else .ok ⟨start, stop, step⟩

def text (r : IndexRange) : String :=
  if r.step = 1 then rangeText r.start r.stop
  else "range(" ++ String.intercalate ", " ([r.start, r.stop, r.step].map toString) ++ ")"

def size (r : IndexRange) : Nat :=
  if 0 < r.step then ((r.stop - r.start + r.step - 1) / r.step).toNat
  else ((r.start - r.stop - r.step - 1) / -r.step).toNat

/-- The integers of a range in their order, if they can be held. -/
def toList (r : IndexRange) : Except Error (List Int) := do
  Capacity.sequence r.size
  return (List.range r.size).map fun (k : Nat) => r.start + k * r.step

/-- One bound of a slice of `length` items, which lies between `lower` and `upper`; a negative bound
counts from the end. -/
def resolveBound (length lower upper bound : Int) : Int :=
  if bound < 0 then max lower (bound + length) else min upper bound

/-- The range that a slice with optional bounds selects from `length` items. -/
def ofSlice (length : Int) (start stop step : Option Int) : Except Error IndexRange :=
  let step := step.getD 1
  if step = 0 ∨ length < 0 then .error (.fault .value)
  else
    let lower := if step < 0 then -1 else 0
    let upper := if step < 0 then length - 1 else length
    let resolve := resolveBound length lower upper
    .ok {
      start := start.elim (if step < 0 then upper else lower) resolve
      stop := stop.elim (if step < 0 then lower else upper) resolve
      step }

end IndexRange

namespace Expr

variable {α : Type}

/-- Arithmetic between two operands, at least one of which is a matrix. A scalar has to be a real
number. -/
def arith (op : CellOp) : Operand α → Operand α → Build (Expr α)
  | .matrix a, .matrix b => ofBinary (.elementwise op) a b
  | .matrix a, .scalar s =>
    if s.isReal then ofUnary (.scalar op.withScalarRight s) a else throw (.fault .type)
  | .scalar s, .matrix a =>
    if s.isReal then ofUnary (.scalar op.withScalarLeft s) a else throw (.fault .type)
  | .scalar _, .scalar _ => throw (.fault .type)

def neg (a : Expr α) : Build (Expr α) :=
  ofUnary (.scalar .minusReversed (.int 0)) a

def matMul (a b : Expr α) : Build (Expr α) :=
  ofBinary .matMul a b

def timesMatrix (a : Expr α) (m : InCore α) : Build (Expr α) := do
  ofUnary (.rightMultiply (← m.toDense .notTwoDimensional)) a

def matrixTimes (m : InCore α) (a : Expr α) : Build (Expr α) := do
  ofUnary (.leftMultiply (← m.toDense .notTwoDimensional)) a

def ofRange (a : Expr α) (r : IndexRange) : Build (Expr α) := do
  Build.require a.keyType.isInt .rangeKeys
  Build.require (r.step == 1) (.rangeStep r.text)
  ofUnary (.rowRange r.start r.stop) a

def slice (a : Expr α) (start stop step : Option Int) : Build (Expr α) := do
  ofRange a (← IndexRange.ofSlice (← a.schema.rows.count) start stop step)

/-- A block function on every partition, which keeps the number of columns unless it is given. -/
def mapBlock (a : Expr α) (fn : BlockName) (ncol : Option Int) (keepsKeys : Bool) :
    Build (Expr α) := do
  let ncol ← match ncol with
    | some n => pure n
    | none => a.schema.columns.count
  ofUnary (.mapBlock fn ncol keepsKeys) a

/-! ## Other inputs -/

/-- A unary node with another input, if one is given. -/
def replaceInput (e : Expr α) (new : Option (Expr α)) : Build (Expr α) :=
  match e with
  | unary id op input => withInput id op input (new.getD input)
  | binary _ _ _ _ => throw (.fault .type)
  | checkpoint _ _ | foreign _ _ => throw (.fault .member)

/-- A binary node with other inputs, where they are given. -/
def replaceInputs (e : Expr α) (newLeft newRight : Option (Expr α)) : Build (Expr α) :=
  match e with
  | binary id op left right =>
    withInputs id op left right (newLeft.getD left) (newRight.getD right)
  | unary _ _ _ => throw (.fault .type)
  | checkpoint _ _ | foreign _ _ => throw (.fault .member)

end Expr

end RowAlgebra
