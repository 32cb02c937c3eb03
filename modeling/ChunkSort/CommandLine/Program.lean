import ChunkSort.CommandLine.LineSorter

/-!
The command line program. It reads the input file, sorts its lines and writes the output file, by the operations of the
system that it runs on.
-/

namespace ChunkSort.CommandLine

/-- What the program does to the system that it runs on. What fails does so with a text. -/
structure Host (m : Type → Type) (File : Type) where
  openInput : String → m (Except String File)
  /-- Makes a file, or empties the one that is there. -/
  createOutput : String → m (Except String File)
  /-- Whether files can be made in a directory. -/
  usable : Path → m Bool
  read : File → m (Except String (List UInt8))
  write : File → List UInt8 → m (Except String Unit)
  print : String → m Unit
  complain : String → m Unit

structure Abort where
  exitCode : UInt32
  context : String
  text : String

section Program

variable {m : Type → Type} {File : Type} [Monad m]

def orAbort {α ε : Type} (operation : m (Except ε α)) (abort : ε → Abort) : ExceptT Abort m α :=
  ExceptT.adapt abort (ExceptT.mk operation)

variable (host : Host m File)

def Host.storage : Option Path → m Storage
  | none => return .memory
  | some path => do
    if ← host.usable path then
      return .directory
    else
      return .unavailable s!"{path.toString} cannot be used"

/-- The output file is made before anything is read, so it stays empty if sorting fails. -/
def sortFile (settings : Settings) (schedule : Schedule) : ExceptT Abort m Unit := do
  let source ← orAbort (host.openInput settings.input) (.mk 1 "input file opening error")
  let target ← orAbort (host.createOutput settings.output) (.mk 1 "output file creation error")
  let storage ← host.storage settings.scratch
  let sorter ← orAbort (return (settings.sorterConfig storage schedule).build) fun error =>
    ⟨1, "sorter initialization error", error.message⟩
  let input ← orAbort (host.read source) (.mk 1 "input reading error")
  let output ← orAbort (return settings.sortLines sorter input) fun failure => ⟨1, failure.context, failure.message⟩
  orAbort (host.write target output) (.mk 1 "line writing error")

def usageLines : List String :=
  "chunked bounded-window line sorter" :: "" ::
    Parameter.all.map fun p => s!"    -{p.letter}, --{p.name} <{p.name}>    {p.help}"

def serve (arguments : List String) (schedule : Schedule) : ExceptT Abort m Unit := do
  let refuse (error : UsageError) : Abort := ⟨2, "error", error.message⟩
  match ← orAbort (return Request.ofArguments arguments) refuse with
  | .help => usageLines.forM fun line => (host.print line : m Unit)
  | .values given => sortFile host (← orAbort (return Settings.ofValues given) refuse) schedule

def program (arguments : List String) (schedule : Schedule := {}) : m UInt32 := do
  match ← (serve host arguments schedule).run with
  | .ok () => return 0
  | .error abort =>
    host.complain s!"{abort.context}: {abort.text}"
    return abort.exitCode

end Program

structure Disk where
  files : String → Option (List UInt8)
  creatable : String → Bool
  usable : Path → Bool

namespace Disk

def write (disk : Disk) (name : String) (bytes : List UInt8) : Disk :=
  { disk with files := fun other => if other = name then some bytes else disk.files other }

def host : Host (StateM Disk) String where
  openInput name := return if ((← get).files name).isSome then .ok name else .error s!"{name} does not exist"
  createOutput name := do
    if (← get).creatable name then
      modify (·.write name [])
      return .ok name
    else
      return .error s!"{name} cannot be made"
  usable path := return (← get).usable path
  read name := return (((← get).files name).map .ok).getD (.error s!"{name} does not exist")
  write name bytes := do
    modify (·.write name bytes)
    return .ok ()
  print _ := return
  complain _ := return

def run (disk : Disk) (arguments : List String) (schedule : Schedule := {}) : UInt32 × Disk :=
  (program host arguments schedule).run disk

end Disk
end ChunkSort.CommandLine
