import ChunkSort.CommandLine.Program

/-!
The command line program on the files of the machine.
-/

namespace ChunkSort.CommandLine

def attempt {α : Type} (action : IO α) : IO (Except String α) := do
  try return .ok (← action) catch e => return .error (toString e)

/-- Tries out whether a directory can be made at the path. -/
def isUsable (path : Path) : IO Bool := do
  let now ← IO.monoNanosNow
  let trial := s!"{path.toString}/chunks-{now}"
  let tried ← attempt do
    IO.FS.createDir trial
    IO.FS.removeDir trial
  return tried.isOk

def machine : Host IO IO.FS.Handle where
  openInput name := attempt (IO.FS.Handle.mk name .read)
  createOutput name := attempt (IO.FS.Handle.mk name .write)
  usable := isUsable
  read input := attempt do return (← input.readBinToEnd).toList
  write output bytes := attempt do
    output.write ⟨bytes.toArray⟩
    output.flush
  print := IO.println
  complain := IO.eprintln

end ChunkSort.CommandLine

def main (arguments : List String) : IO UInt32 :=
  ChunkSort.CommandLine.program ChunkSort.CommandLine.machine arguments
