import ObjectMachine.CommandLine

/-! The program: reads its arguments, runs the command and prints what it gives. -/

open ObjectMachine

/-- Entry point. Arguments that spell no command end with exit code 2. -/
def main (args : List String) : IO UInt32 := do
  match CommandLine.read? args with
  | none =>
    IO.eprintln "usage: [--gc-threshold N] [--stress-gc] arith LHS OP RHS [--hex] | table COUNT [--dump]"
    return 2
  | some invocation =>
    let output := CommandLine.run invocation
    IO.print output.out
    IO.eprint output.err
    return UInt32.ofNat output.exitCode
