import RowAlgebra.Key
import RowAlgebra.Text.Bracketed
import RowAlgebra.Text.Quoted

/-!
# Errors

`Error` lists the causes for which an operation refuses its input or gives up. `Error.kind` sorts
them into classes, which stand in a hierarchy (`ErrorKind.parent?`), and `Error.message?` words
them. A `fault` is a failure of the underlying arithmetic or of a function handed in by a caller; it
has a kind but no words.
-/

namespace RowAlgebra

inductive ErrorKind where
  | base
  | exception
  | runtime
  | recursion
  | lookup
  | arithmetic
  | memory
  | system
  | value
  | encoding
  | type
  | elementType
  | index
  | key
  | member
  | zeroDivision
  | overflow
  | jsonDecode
  | logic
  | state
  | invariantViolation
  | unsupportedOperator
  | unsupportedOperation
  | configuration
  deriving DecidableEq, Repr

namespace ErrorKind

def name : ErrorKind → String
  | base => "BaseException"
  | exception => "Exception"
  | runtime => "RuntimeError"
  | recursion => "RecursionError"
  | lookup => "LookupError"
  | arithmetic => "ArithmeticError"
  | memory => "MemoryError"
  | system => "OSError"
  | value => "ValueError"
  | encoding => "UnicodeEncodeError"
  | type => "TypeError"
  | elementType => "UFuncTypeError"
  | index => "IndexError"
  | key => "KeyError"
  | member => "AttributeError"
  | zeroDivision => "ZeroDivisionError"
  | overflow => "OverflowError"
  | jsonDecode => "JSONDecodeError"
  | logic => "LogicError"
  | state => "StateError"
  | invariantViolation => "InvariantViolationError"
  | unsupportedOperator => "UnsupportedOperatorError"
  | unsupportedOperation => "UnsupportedOperationError"
  | configuration => "ConfigurationError"

/-- The classes of this library, as opposed to those that it builds on. -/
def own : List ErrorKind :=
  [logic, state, invariantViolation, unsupportedOperator, unsupportedOperation, configuration]

/-- The class of this library with a name. -/
def ofName? (s : String) : Option ErrorKind :=
  own.find? fun kind => kind.name == s

def parent? : ErrorKind → Option ErrorKind
  | base => none
  | exception => some base
  | runtime | lookup | arithmetic | memory | system | value | type | member => some exception
  | index | key => some lookup
  | zeroDivision | overflow => some arithmetic
  | encoding | jsonDecode | configuration => some value
  | elementType => some type
  | recursion | logic | state | unsupportedOperation => some runtime
  | invariantViolation | unsupportedOperator => some logic

def depth : ErrorKind → Nat
  | base => 0
  | exception => 1
  | runtime | lookup | arithmetic | memory | system | value | type | member => 2
  | index | key | zeroDivision | overflow | encoding | jsonDecode | configuration | elementType
  | recursion | logic | state | unsupportedOperation => 3
  | invariantViolation | unsupportedOperator => 4

theorem depth_of_parent? {k p : ErrorKind} (h : k.parent? = some p) : p.depth < k.depth := by
  cases k <;> simp [parent?] at h <;> subst h <;> decide

/-- A class and all classes above it, from the bottom up. -/
def ancestry (k : ErrorKind) : List ErrorKind :=
  match h : k.parent? with
  | none => [k]
  | some p =>
    have := depth_of_parent? h
    k :: ancestry p
termination_by k.depth

end ErrorKind

/-- The three products of distributed matrices whose operands have to fit together. -/
inductive Product where
  | plain
  | transposedLeft
  | transposedRight
  deriving DecidableEq, Repr

/-- How a product is written. -/
def Product.written : Product → String
  | plain => "product"
  | transposedLeft => "A'B"
  | transposedRight => "AB'"

/-- The number of rows and of columns. -/
structure Shape where
  nrow : Int
  ncol : Int
  deriving DecidableEq, Repr

namespace Shape

def text (s : Shape) : String :=
  toString s.nrow ++ "x" ++ toString s.ncol

end Shape

/-- The ways in which an operation fails. -/
inductive Error where
  /-- A failure without words of its own. -/
  | fault (kind : ErrorKind)
  -- Counts, matrices and leaves
  | countOutOfRange (value : Text)
  | countUnknown
  | countUnsupported (operator : String)
  | notTwoDimensional (shape : List Nat)
  | notDistributable (shape : List Nat)
  | rowKeyCount (expected actual : Nat)
  | mixedRowKeys
  | noPartitions (count : Text)
  -- Building expressions
  | notARowRange (selector : Text)
  | transposedKeys (type : KeyType)
  | productShapes (product : Product) (left right : Shape)
  | rightOperandKeys
  | elementwiseShapes (left right : Shape)
  | elementwiseKeys
  | rangeKeys
  | rangeStep (range : String)
  | rangeBounds (range : String) (nrow : Int)
  | leftFactorKeys
  -- Planning
  | noNormalForm (expression : Text)
  | noCleanupRule (expression : Text)
  | noExecPolicy (expression : Text)
  | survivingTransposition (type : KeyType)
  -- Execution
  | collectedKeys (type : KeyType)
  | notIdenticallyPartitioned
  | blockShape (function : String) (actual expected : Shape)
  | blockKeys (function : String)
  -- Sessions
  | foreignLibrary
  | sessionClosed (name : Text)
  | noSession
  | severalSessions (names : List Text)
  | configMissing (path directory : Text)
  | configNotJson (path : Text)
  | configNotObject (path : Text)
  | homeRequired
  | notExecutable (path : Text)
  | noClasspath
  -- Decision forests
  | unknownTreeNode (data : Text)
  | negativePartition (partition : Text)
  | keysForTrees (keys trees : Nat)
  | storedPartitions (actual : Nat) (expected : Text)
  | storedTrees (actual : Nat) (expected : Text)
  | receivedTrees (partition expected : Text) (actual : Nat)
  | foreignTrees (partition : Text)
  | instanceOutside (id partition instances : Text)
  | noSplits (count : Text)

namespace Error

/-- The error about something that is shown by its text. If there is no way to write that, this is
the error. -/
def about (words : Text → Error) : Except Error Text → Error
  | .ok text => words text
  | .error error => error

def kind : Error → ErrorKind
  | fault kind => kind
  | countUnknown | sessionClosed _ | noSession => .state
  | countUnsupported _ => .unsupportedOperation
  | notARowRange _ => .type
  | noNormalForm _ | noCleanupRule _ | noExecPolicy _ => .unsupportedOperator
  | survivingTransposition _ => .invariantViolation
  | configMissing .. | configNotJson _ | configNotObject _ | homeRequired | notExecutable _
  | noClasspath => .configuration
  | instanceOutside .. => .index
  | _ => .value

private def incompatible (operation : String) (left right : Shape) : String :=
  "Incompatible operand shapes for " ++ operation ++ ": " ++ left.text ++ " and " ++ right.text

private def shapeTuple (shape : Shape) : Text :=
  Text.tuple [toString shape.nrow, toString shape.ncol]

/-- The words of an error, if it has any. -/
def message? : Error → Option Text
  | fault _ => none
  | countOutOfRange v =>
    some ("Non-zero counts must be non-negative (or -1 for unknown counts), not " ++ v)
  | countUnknown =>
    some ("Non-zero count is unknown. Use is_known() to check, or get() to handle the sentinel " ++
      "yourself.")
  | countUnsupported op => some s!"Non-zero count is not supported for {op}"
  | notTwoDimensional shape =>
    some ("In-core operands must be two-dimensional matrices, not of shape " ++
      Text.tuple (shape.map fun n => toString n))
  | notDistributable shape =>
    some ("Only two-dimensional matrices can be distributed, not of shape " ++
      Text.tuple (shape.map fun n => toString n))
  | rowKeyCount expected actual => some s!"Expected {expected} row keys, but got {actual}"
  | mixedRowKeys => some "All row keys must have the same type"
  | noPartitions n => some ("At least one partition is required, not " ++ n)
  | notARowRange selector =>
    some ("Distributed matrices can only be sliced by row ranges, not by " ++ selector)
  | transposedKeys t =>
    some ("Only int-keyed matrices can be transposed physically, not " ++ t.name ++
      "-keyed ones. Use TransposeAnyKey instead.")
  | productShapes product left right => some (incompatible product.written left right)
  | rightOperandKeys => some "Right operand of AB' must be int-keyed"
  | elementwiseShapes left right =>
    some ("Element-wise operands must have the same shape: " ++ left.text ++ " and " ++ right.text)
  | elementwiseKeys => some "Element-wise operands must have the same key type"
  | rangeKeys => some "Row ranges can only be selected from int-keyed matrices"
  | rangeStep range => some s!"Row ranges must be contiguous, not {range}"
  | rangeBounds range nrow =>
    some s!"Row range {range} is out of bounds for a matrix with {nrow} rows"
  | leftFactorKeys => some "Left-multiplication requires an int-keyed distributed operand"
  | noNormalForm e => some ("Internal: optimizer has no rewrite rule for " ++ e)
  | noCleanupRule e => some ("Internal: optimizer has no cleanup rule for " ++ e)
  | noExecPolicy e => some ("Internal: optimizer has no exec policy for operator " ++ e)
  | survivingTransposition t =>
    some ("'A' must be int-keyed in this A.t expression (A has " ++ t.name ++ " keys)")
  | collectedKeys t =>
    some ("Only int-keyed matrices can be collected, not " ++ t.name ++ "-keyed ones")
  | notIdenticallyPartitioned =>
    some "Operands of a zipped A'B product are not identically partitioned"
  | blockShape fn actual expected =>
    some ("Block function of MapBlock(" ++ fn ++ ") produced a block of shape " ++
      shapeTuple actual ++ ", expected " ++ shapeTuple expected)
  | blockKeys fn =>
    some ("Block function of MapBlock(" ++ fn ++ ") is declared to be identically partitioned, " ++
      "but changed the row keys")
  | foreignLibrary => some "Checkpoint manager must use the physical library of the session"
  | sessionClosed name => some ("Session '" ++ name ++ "' is already closed")
  | noSession =>
    some ("No session registered. Use make_session() to create one, or pass a manager " ++
      "explicitly.")
  | severalSessions names =>
    some ("Multiple sessions registered: " ++ Text.bracketed "[" "]" (names.map Text.quoted) ++
      ". Use retrieve_session() instead.")
  | configMissing path directory =>
    some ("Session config file '" ++ path ++ "' does not exist. Your working directory is " ++
      directory ++ ".")
  | configNotJson path => some ("Session config file '" ++ path ++ "' is not valid JSON")
  | configNotObject path =>
    some ("Session config file '" ++ path ++ "' must contain a JSON object")
  | homeRequired =>
    some ("MAHOUT_HOME is required to spawn mahout-based jobs. Please either supply the " ++
      "directory directly, put it into a session config file, or set the MAHOUT_HOME " ++
      "environment variable.")
  | notExecutable path => some ("Cannot execute " ++ path ++ ".")
  | noClasspath => some "Unable to read output from \"mahout classpath\""
  | unknownTreeNode data => some ("Unknown tree node: " ++ data)
  | negativePartition p => some ("Partition must not be negative, not " ++ p)
  | keysForTrees keys trees => some s!"Got {keys} keys for {trees} trees"
  | storedPartitions actual expected =>
    some ("Stored results describe " ++ toString actual ++ " partitions, expected " ++ expected)
  | storedTrees actual expected =>
    some ("Stored results describe " ++ toString actual ++ " trees, expected " ++ expected)
  | receivedTrees p expected actual =>
    some ("Partition " ++ p ++ " should receive " ++ expected ++ " trees, but " ++
      toString actual ++ " were stored")
  | foreignTrees p => some ("All trees must be assigned to partition " ++ p)
  | instanceOutside id p instances =>
    some ("Instance " ++ id ++ " is not part of partition " ++ p ++ " (" ++ instances ++
      " instances)")
  | noSplits n => some ("At least one split is required, not " ++ n)

end Error

end RowAlgebra
