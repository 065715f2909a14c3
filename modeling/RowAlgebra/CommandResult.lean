import RowAlgebra.Text.Lines
import RowAlgebra.Text.Quoted

/-!
# Results of commands

What a helper command leaves behind: the text that it printed, the text of its complaints, and its
exit code.
-/

namespace RowAlgebra

structure CommandResult where
  output : Text
  complaints : Text
  exitCode : Int

namespace CommandResult

def succeeded (r : CommandResult) : Bool :=
  r.exitCode == 0

def lines (r : CommandResult) : List Text :=
  Text.lines r.output

def display (r : CommandResult) : Text :=
  "ProcResult(exit_code=" ++ toString r.exitCode ++ ", stdout=" ++ r.output.quoted ++
    ", stderr=" ++ r.complaints.quoted ++ ")"

end CommandResult

end RowAlgebra
