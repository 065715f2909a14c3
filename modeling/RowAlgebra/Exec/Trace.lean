import RowAlgebra.Expr.Label

/-!
# Traces

Every physical operator that is invoked leaves a `Call`: its family, the node that it computes and
further parameters. A `Traced` computation yields its calls whether it succeeds or not; a failing
one keeps the calls that were made before it failed.
-/

namespace RowAlgebra

inductive Family where
  | checkpoint
  | transpose
  | timesTransposed
  | transposedTimes
  | gramian
  | elementwise (op : CellOp)
  | scalar (op : ScalarOp)
  | rowRange
  | rightMultiply
  | mapBlock
  deriving DecidableEq, Repr

namespace Family

def name : Family → String
  | checkpoint => "checkpoint"
  | transpose => "at"
  | timesTransposed => "abt"
  | transposedTimes => "atb"
  | gramian => "ata"
  | elementwise .plus => "a_plus_b"
  | elementwise .minus => "a_minus_b"
  | elementwise .hadamard => "a_hadamard_b"
  | elementwise .divide => "a_eldiv_b"
  | scalar .plus => "a_plus_scalar"
  | scalar .minus => "a_minus_scalar"
  | scalar .minusReversed => "scalar_minus_a"
  | scalar .times => "a_times_scalar"
  | scalar .divide => "a_div_scalar"
  | scalar .divideReversed => "scalar_div_a"
  | rowRange => "row_range"
  | rightMultiply => "right_multiply"
  | mapBlock => "map_block"

def all : List Family :=
  [checkpoint, transpose, timesTransposed, transposedTimes, gramian, rowRange, rightMultiply,
    mapBlock] ++ CellOp.all.map elementwise ++ ScalarOp.all.map scalar

def ofName? (s : String) : Option Family :=
  all.find? fun family => family.name == s

end Family

/-- What a call was given beside its node and the inputs. -/
inductive CallParams where
  | nothing
  | zippable (b : Bool)
  | scalar (s : Scalar)
  /-- A handle in place of a scalar. -/
  | handleAsScalar

structure Call (α : Type) where
  family : Family
  node : Expr α
  params : CallParams

/-- A computation that records its calls. -/
structure Traced (α β : Type) where
  calls : List (Call α)
  result : Except Error β

namespace Traced

variable {α β γ : Type}

instance : Monad (Traced α) where
  pure x := ⟨[], .ok x⟩
  bind x f :=
    match x.result with
    | .ok v => ⟨x.calls ++ (f v).calls, (f v).result⟩
    | .error e => ⟨x.calls, .error e⟩

def fail (e : Error) : Traced α β :=
  ⟨[], .error e⟩

/-- Records a call and answers with its result. -/
def invoke (call : Call α) (result : Except Error β) : Traced α β :=
  ⟨[call], result⟩

theorem result_bind (x : Traced α β) (f : β → Traced α γ) :
    (x >>= f).result = x.result >>= fun v => (f v).result := by
  obtain ⟨calls, _ | _⟩ := x <;> rfl

theorem calls_bind_ok {x : Traced α β} {v : β} (h : x.result = .ok v) (f : β → Traced α γ) :
    (x >>= f).calls = x.calls ++ (f v).calls := by
  obtain ⟨calls, r⟩ := x
  subst h
  rfl

theorem calls_bind_error {x : Traced α β} {e : Error} (h : x.result = .error e)
    (f : β → Traced α γ) : (x >>= f).calls = x.calls := by
  obtain ⟨calls, r⟩ := x
  subst h
  rfl

end Traced

end RowAlgebra
