import SlabHeap.Command

/-! The entry point of the command: arguments in, texts and an exit code out. -/

def main (arguments : List String) : IO UInt32 := do
  let report := SlabHeap.Command.run .descending arguments
  IO.print report.out
  IO.eprint report.err
  return report.code.toUInt32
