import Formula.Command

/-!
# The program

Runs `Formula.Command.run` on the arguments and writes its report.
-/

/-- Answers the expression given on the command line. -/
def main (arguments : List String) : IO UInt32 := do
  let report := Formula.Command.run arguments
  (← IO.getStdout).putStr report.output
  (← IO.getStderr).putStr report.errors
  return UInt32.ofNat report.code
