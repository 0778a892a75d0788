import ByteRegex.CommandLine

/-!
# The program

Answers its arguments on the standard streams.
-/

open ByteRegex

def main (args : List String) : IO UInt32 := do
  let answer := CommandLine.run (args.map CommandLine.argument)
  match answer with
  | .printed text => IO.print text
  | .rejected message => IO.eprint message
  | .misused => IO.eprint CommandLine.usageText
  return .ofNat answer.exitCode
