import RowAlgebra.Exec

/-!
# Single invocations

A physical operator can be invoked on its own, with a node that describes the result and with the
arguments that it is applied to. The node need not have these arguments as its inputs; what counts
is what the operator reads off it, and a node that lacks it is refused. As many arguments are needed
as the operator takes. One of the wrong kind is found out only during the call (`Family.compute`).
-/

namespace RowAlgebra

variable {α : Type}

namespace Expr

def selectedRows : Expr α → Except Error (Int × Int)
  | unary _ (.rowRange start stop) _ => .ok (start, stop)
  | _ => .error (.fault .member)

def matrix : Expr α → Except Error (Dense α)
  | unary _ (.leftMultiply m) _ | unary _ (.rightMultiply m) _ => .ok m
  | _ => .error (.fault .member)

/-- The block function of a node, and what the node asks of it. -/
def block (blocks : BlockCatalogue α) : Expr α → BlockFunction α × BlockContract
  | unary _ (.mapBlock fn ncol keepsKeys) _ => (blocks fn, ⟨fn, ncol, keepsKeys⟩)
  | e => (fun _ _ => .error (.fault .member), ⟨e.name, e.ncol, false⟩)

end Expr

inductive Argument (α : Type) where
  | handle (h : Handle α)
  | scalar (s : Scalar)

namespace Family

def arity : Family → Nat
  | checkpoint => 0
  | timesTransposed | transposedTimes | elementwise _ | scalar _ => 2
  | transpose | gramian | rowRange | rightMultiply | mapBlock => 1

/-- What a call records beside its node, if the operator takes that many arguments. A flag
`zippable` is needed for the products that have one, and refused otherwise. -/
def params? (family : Family) (args : List (Argument α)) (zippable : Option Bool) :
    Option CallParams :=
  if args.length ≠ family.arity then none
  else
    match family, args, zippable with
    | transposedTimes, _, some z => some (.zippable z)
    | transposedTimes, _, none | _, _, some _ => none
    | scalar _, [_, .scalar s], none => some (.scalar s)
    | scalar _, _, none => some .handleAsScalar
    | _, _, none => some .nothing

/-- Why nothing can be invoked under a name that is no family's. Storing and releasing are asked of
rows, not of nodes; they notice first if they are given too much or too little. -/
def refusal (name : String) (args : List (Argument α)) (zippable : Option Bool) : ErrorKind :=
  if zippable.isNone && [("cache", 1), ("uncache", 0)].contains (name, args.length) then .member
  else if name = "cache" ∨ name = "uncache" then .type
  else .member

variable [Cell α]

/-- What an operator computes for a node in the call with a number. A handle in place of a scalar
acts like an absent one. A scalar in place of a handle has no rows to ask for; small products ask
for them only after they have reserved their result. -/
def compute (blocks : BlockCatalogue α) (call : Nat) (node : Expr α) (family : Family)
    (args : List (Argument α)) (zippable : Bool) : Except Error (Handle α) :=
  match family, args with
  | checkpoint, _ =>
    match node with
    | .checkpoint _ c => .ok c.rows
    | _ => .error (.fault .member)
  | transpose, [.handle a] => do a.transposed (← node.schema.columns.count)
  | timesTransposed, [.handle a, .handle b] => do
    a.timesTransposed b (← node.schema.columns.count)
  | transposedTimes, [.handle a, .handle b] => do a.transposedTimes b (← node.shape) zippable
  | gramian, [.handle a] => do a.gramian (← node.shape)
  | transposedTimes, _ | gramian, _ => do
    let shape ← node.shape
    let _ ← Dense.sides α shape.nrow shape.ncol
    throw (.fault .member)
  | elementwise op, [.handle a, .handle b] => do
    a.combine op b (← node.schema.columns.count)
  | scalar op, [.handle a, .scalar s] => a.withScalar op s
  | scalar op, [.handle a, .handle _] => a.withScalar op .absent
  | rowRange, [.handle a] => do
    let (start, stop) ← node.selectedRows
    return a.rowRange start stop call
  | rightMultiply, [.handle a] => do
    let product ← a.timesDense (← node.matrix)
    return { product with ncol := ← node.schema.columns.count }
  | mapBlock, [.handle a] => do
    let (f, contract) := node.block blocks
    let mapped ← a.mapBlock f contract call
    return { mapped with ncol := ← node.schema.columns.count }
  | _, _ => .error (.fault .member)

/-- Invokes an operator, as the call with a number. Arguments that do not fit are refused before
there is a call. -/
def invoke (blocks : BlockCatalogue α) (call : Nat) (family : Family) (node : Expr α)
    (args : List (Argument α)) (zippable : Option Bool) : Traced α (Handle α) :=
  match family.params? args zippable with
  | some params =>
    .invoke ⟨family, node, params⟩
      (family.compute blocks call node args (zippable.getD false))
  | none => .fail (.fault .type)

end Family

end RowAlgebra
