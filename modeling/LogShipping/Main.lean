import LogShipping.Cli

/-!
# The executable

Files are those of the operating system and stores are kept in memory. Without a network a node is
alone in its cluster.
-/

namespace LogShipping.Main

open Cli

/-- The fault behind a failed call of the operating system. -/
def faultOf : IO.Error → FileFault
  | .noFileOrDirectory .. => .missing
  | .inappropriateType .. => .isFolder
  | .invalidArgument .. => .nameTooLong
  | .userError .. => .notText
  | _ => .notFolder

/-- Runs a call of the operating system. -/
def attempt {α : Type} (call : IO α) : IO (Except FileFault α) := do
  try return .ok (← call)
  catch error => return .error (faultOf error)

/-- The surroundings that the operating system offers. -/
def surroundings : Surroundings IO where
  readText path := attempt (IO.FS.readFile path)
  writeText path content := attempt (IO.FS.writeFile path content)
  openStore c := return .ok { engine := c.store.backend.engine }
  listens address := return isLocalAddress address
  clock := return UInt64.ofNat (← IO.monoMsNow)

end LogShipping.Main

/-- Runs the program on its arguments. -/
def main (args : List String) : IO UInt32 := do
  let report ← LogShipping.Cli.run LogShipping.Main.surroundings args
  IO.print report.out
  IO.eprint report.err
  return UInt32.ofNat report.exit
