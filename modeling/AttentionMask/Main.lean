import AttentionMask.Report

/-! The command line: print the copy-task demonstration for the half length given. -/

def main (args : List String) : IO UInt32 := do
  let outcome := AttentionMask.Report.run args
  IO.print outcome.out
  IO.eprint outcome.err
  return outcome.exit
