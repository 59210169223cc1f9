import TimingWheel.Demo.Basic

/-!
# Command line of the demo

Plays one case of the demo and prints its transcript at the pace at which it was said.
The variable `RUST_LOG` holds the log filter.
-/

namespace TimingWheel.Demo

/-- Prints lines, each at its time. The time `shown` has been reached. -/
def printLines (shown : Nat) : List Line → IO Unit
  | [] => return
  | line :: rest => do
    IO.sleep (line.time - shown).toUInt32
    IO.println line.entry.text
    (← IO.getStdout).flush
    printLines (max shown line.time) rest

end TimingWheel.Demo

open TimingWheel in
def main (words : List String) : IO UInt32 := do
  let filter := Log.Filter.ofSetting (← IO.getEnv "RUST_LOG")
  let response := Demo.respond words filter 0
  if response.usage then
    for line in Demo.usage do
      IO.println line
  Demo.printLines 0 response.transcript
  IO.eprint response.complaintText
  return response.exitCode
