import ContextFree.Tool.Run

/-!
# The command-line program
-/

namespace ContextFree

namespace Tool

/-- How the program is called. -/
def usage : String :=
  "usage: [-v]... [-t] [--cnf] [--table] [-p cyk|unger|unger-empty] [--] GRAMMAR INPUT"

/-- The bytes of a file, if it can be read. -/
def readFile? (path : String) : IO (Option (List UInt8)) := do
  try
    return some (← IO.FS.readBinFile path).toList
  catch _ => return none

/-- Numbers are words of 64 bits, and what does not fit is cut off. -/
def arithmetic : Arithmetic :=
  .wrapping 64

/-- Carries out the command that the arguments make up. -/
def program (args : List String) : IO UInt32 := do
  let some command := Command.ofArgs? args | do
    IO.eprintln usage
    return 1
  let some outcome := command.run? arithmetic (← readFile? command.path) | return 101
  let report := outcome.report command.options.verbosity
  IO.eprint report.stderr
  IO.print report.stdout
  return report.exitCode.toUInt32

end Tool

end ContextFree

def main (args : List String) : IO UInt32 :=
  ContextFree.Tool.program args
