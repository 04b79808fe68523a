import Calculator.Command.Run
import Calculator.Text.Duration

/-!
# The command line

Answers the arguments against the clock, and prints the response.
-/

namespace Calculator

def Timer.clock : Timer IO where
  measure f := do
    let start ← IO.monoNanosNow
    let result ← IO.lazyPure f
    let stop ← IO.monoNanosNow
    return (result, stop - start)
  render := Duration.render

def Command.main (args : List String) : IO UInt32 := do
  let response ← Command.runArgs Timer.clock args
  (← IO.getStdout).putStr response.stdout
  (← IO.getStderr).putStr response.stderr
  return response.exitCode.toUInt32

end Calculator

def main (args : List String) : IO UInt32 := Calculator.Command.main args
