import RowAlgebra.Error
import RowAlgebra.Path
import RowAlgebra.Text.Lines

/-!
# Classpaths and jars

The script of an installation prints its classpath, possibly after other lines. The classpath is the
first line with more than ten entries. Of its entries, the jars of the algebra's own modules are
shipped to the workers, and test jars are not.
-/

namespace RowAlgebra

/-- The state of the script that prints the classpath. -/
inductive Script where
  /-- There is no script, or it cannot be executed. -/
  | unusable
  /-- The script prints a text. -/
  | printing (output : String)

namespace Classpath

def script (home : FilePath) : FilePath :=
  { home with parts := home.parts ++ [("bin" : Text), ("mahout" : Text)] }

def entries (line : Text) : List Text :=
  line.trimmed.splitAt ':'

/-- The entries of the first line with more than ten of them. -/
def ofOutput? (output : Text) : Option (List Text) :=
  (output.lines.map entries).find? fun es => decide (10 < es.length)

/-- The classpath that the script of an installation prints. Its line ends may be those of any
terminal. -/
def discover (directory home : FilePath) : Script → Except Error (List Text)
  | .unusable => .error (.notExecutable (directory.join (script home)).text)
  | .printing output =>
    match ofOutput? (String.ofList (Text.feedLines output.toList) : String) with
    | some es => .ok es
    | none => .error .noClasspath

end Classpath

/-! ## Jars -/

namespace Jar

def holdsLineFeed (ps : List CodePoint) : Bool :=
  ps.contains '\n'

/-- Whether `part`, then anything but line feeds, and then `.jar` at the end make up the rest of
`ps` from some position on, before which there are no line feeds. -/
def namesModule (part : List CodePoint) : List CodePoint → Bool
  | [] => false
  | p :: ps =>
    (part.isPrefixOf (p :: ps) && endsInJar ((p :: ps).drop part.length)) ||
      (!holdsLineFeed [p] && namesModule part ps)
where
  /-- Whether `ps` is anything but line feeds, followed by `.jar`. -/
  endsInJar (ps : List CodePoint) : Bool :=
    (".jar" : Text).points.isSuffixOf ps && !holdsLineFeed (ps.take (ps.length - 4))

/-- The modules whose jars are shipped. -/
def modules : List Text :=
  ["mahout-math-", "mahout-math-scala-", "mahout-core-", "mahout-spark-"]

/-- Whether an entry is a test jar: its last ten code points are `-tests`, any but a line feed, and
`jar`. -/
def isTestJar (entry : List CodePoint) : Bool :=
  let (start, ending) := entry.splitAt (entry.length - 10)
  ("-tests" : Text).points.isPrefixOf ending && ("jar" : Text).points.isSuffixOf ending &&
    ending.length == 10 && !holdsLineFeed (start ++ ending)

/-- Whether an entry of a classpath is shipped to the workers. -/
def isShipped (entry : Text) : Bool :=
  modules.any (fun part => namesModule part.points entry.points) && !isTestJar entry.points

/-- The entries that are shipped to the workers. -/
def select (entries : List Text) : List Text :=
  entries.filter isShipped

end Jar

end RowAlgebra
