import ChunkSort.CommandLine.Program
import ChunkSort.Proofs.CommandLine.LineSorter

/-!
The line sorter from its arguments to the files that it leaves.
-/

namespace ChunkSort.CommandLine

/-! ### Operations on a disk -/

section Operations

variable {α β ε : Type} {operation : StateM Disk (Except ε α)} {disk disk' : Disk}

theorem orAbort_ok {a : α} (h : operation.run disk = (.ok a, disk')) (abort : ε → Abort)
    (next : α → ExceptT Abort (StateM Disk) β) :
    (orAbort operation abort >>= next).run.run disk = (next a).run.run disk' := by
  simp only [orAbort, ExceptT.run_bind, ExceptT.run_adapt, ExceptT.run_mk, bind_map_left, StateT.run_bind, h]
  rfl

theorem orAbort_error {e : ε} (h : operation.run disk = (.error e, disk')) (abort : ε → Abort)
    (next : α → ExceptT Abort (StateM Disk) β) :
    (orAbort operation abort >>= next).run.run disk = (.error (abort e), disk') := by
  simp only [orAbort, ExceptT.run_bind, ExceptT.run_adapt, ExceptT.run_mk, bind_map_left, StateT.run_bind, h]
  rfl

theorem orAbort_pure_ok {result : Except ε α} {a : α} (h : result = .ok a) (abort : ε → Abort)
    (next : α → ExceptT Abort (StateM Disk) β) :
    (orAbort (pure result : StateM Disk _) abort >>= next).run.run disk = (next a).run.run disk :=
  orAbort_ok (congrArg (Prod.mk · disk) h) abort next

theorem orAbort_pure_error {result : Except ε α} {e : ε} (h : result = .error e) (abort : ε → Abort)
    (next : α → ExceptT Abort (StateM Disk) β) :
    (orAbort (pure result : StateM Disk _) abort >>= next).run.run disk = (.error (abort e), disk) :=
  orAbort_error (congrArg (Prod.mk · disk) h) abort next

theorem lift_bind {operation : StateM Disk α} {a : α} (h : operation.run disk = (a, disk'))
    (next : α → ExceptT Abort (StateM Disk) β) :
    ((operation : ExceptT Abort (StateM Disk) α) >>= next).run.run disk = (next a).run.run disk' := by
  simp only [ExceptT.run_bind, ExceptT.run_monadLift, monadLift_self, bind_map_left, StateT.run_bind, h]
  rfl

end Operations

namespace Disk

theorem write_write (disk : Disk) (name : String) (bytes bytes' : List UInt8) :
    (disk.write name bytes).write name bytes' = disk.write name bytes' := by
  unfold write
  congr 1
  funext other
  by_cases h : other = name <;> simp [h]

theorem createOutput_ok {disk : Disk} {name : String} (h : disk.creatable name = true) :
    (host.createOutput name).run disk = (.ok name, disk.write name []) := by
  show (if disk.creatable name = true then _ else _ : StateM Disk _) disk = _
  rw [if_pos h]
  rfl

theorem createOutput_error {disk : Disk} {name : String} (h : ¬disk.creatable name = true) :
    (host.createOutput name).run disk = (.error s!"{name} cannot be made", disk) := by
  show (if disk.creatable name = true then _ else _ : StateM Disk _) disk = _
  rw [if_neg h]
  rfl

theorem read_ok {disk : Disk} {name : String} {bytes : List UInt8} (h : disk.files name = some bytes) :
    (host.read name).run disk = (.ok bytes, disk) := by
  show (((disk.files name).map Except.ok).getD _, disk) = _
  rw [h]
  rfl

theorem openInput_ok {disk : Disk} {name : String} {bytes : List UInt8} (h : disk.files name = some bytes) :
    (host.openInput name).run disk = (.ok name, disk) := by
  show (if (disk.files name).isSome = true then _ else _, disk) = _
  rw [if_pos (Option.isSome_of_eq_some h)]

theorem storage_ok (disk : Disk) {scratch : Option Path} (h : ∀ path ∈ scratch, disk.usable path = true) :
    ∃ storage, (host.storage scratch).run disk = (storage, disk) ∧ ∀ reason, storage ≠ .unavailable reason := by
  cases scratch with
  | none => exact ⟨.memory, rfl, nofun⟩
  | some path =>
    refine ⟨.directory, ?_, nofun⟩
    show (if disk.usable path = true then _ else _ : StateM Disk _) disk = _
    rw [if_pos (h path rfl)]
    rfl

end Disk

/-! ### The program -/

theorem exists_sorter (config : SorterConfig) (hcapacity : 0 < config.capacity ∧ config.capacity ≤ maxCapacity)
    (hwindow : chunksPerMerge ≤ config.window)
    (hprojection : ∀ selected ∈ config.projection, selected.length = config.schema.length)
    (hstorage : ∀ reason, config.storage ≠ .unavailable reason) :
    ∃ s : Sorter, config.build = .ok s ∧ s.layout.schema = config.schema ∧ s.layout.sideLimit = config.sideLimit ∧
      s.projection = config.projection := by
  have hlayout : Layout.build config.schema config.capacity config.sideLimit =
      .ok ⟨config.schema, config.capacity, config.sideLimit, hcapacity.1, hcapacity.2⟩ := dif_pos hcapacity
  simp only [SorterConfig.build, hlayout, bind, Except.bind, dif_pos hwindow, dif_pos hprojection]
  cases hs : config.storage with
  | memory => exact ⟨_, rfl, rfl, rfl, rfl⟩
  | directory => exact ⟨_, rfl, rfl, rfl, rfl⟩
  | unavailable reason => exact absurd hs (hstorage reason)

section Program

variable {settings : Settings} {disk : Disk}

/-- What the program comes to read. An output file in the place of the input file empties it. -/
def bytesRead (settings : Settings) (input : List UInt8) : List UInt8 :=
  if settings.output = settings.input then [] else input

theorem files_write_input {input : List UInt8} (h : disk.files settings.input = some input) :
    (disk.write settings.output []).files settings.input =
      some (bytesRead settings input) := by
  show (if settings.input = settings.output then some [] else disk.files settings.input) = _
  rw [h, bytesRead]
  by_cases hsame : settings.output = settings.input
  · rw [if_pos hsame, if_pos hsame.symm]
  · rw [if_neg hsame, if_neg (Ne.symm hsame)]

theorem sortFile_run (hrows : 0 < settings.chunkRows ∧ settings.chunkRows ≤ maxCapacity)
    (hwindow : chunksPerMerge ≤ settings.window) (hscratch : ∀ path ∈ settings.scratch, disk.usable path = true)
    {input : List UInt8} (hinput : disk.files settings.input = some input) (schedule : Schedule) :
    ∃ abort : Abort, abort.exitCode = 1 ∧ (sortFile Disk.host settings schedule).run.run disk =
      if disk.creatable settings.output then
        if LinesFit settings.sideBytes (pieces (bytesRead settings input)) then
          (.ok (), disk.write settings.output (joinLines (sortedLines settings.descending (pieces (bytesRead settings input)))))
        else (.error abort, disk.write settings.output [])
      else (.error abort, disk) := by
  unfold sortFile
  rw [orAbort_ok (Disk.openInput_ok hinput)]
  by_cases hmade : disk.creatable settings.output = true
  · obtain ⟨storage, hstorage, husable⟩ := Disk.storage_ok (disk.write settings.output []) hscratch
    obtain ⟨s, hbuild, hschema, (hlimit : s.layout.sideLimit = settings.sideBytes), hprojection⟩ :=
      exists_sorter (settings.sorterConfig storage schedule) hrows hwindow (by nofun) husable
    rw [orAbort_ok (Disk.createOutput_ok hmade), lift_bind hstorage, orAbort_pure_ok hbuild,
      orAbort_ok (Disk.read_ok (files_write_input hinput))]
    have hsort := settings.sortLines_outcome ⟨hschema, hprojection⟩ (bytesRead settings input)
    rw [hlimit] at hsort
    cases hr : settings.sortLines s (bytesRead settings input) with
    | ok output =>
      obtain ⟨hfit, rfl⟩ := hsort.of_ok hr
      refine ⟨⟨1, "", ""⟩, rfl, ?_⟩
      rw [orAbort_pure_ok rfl, if_pos hmade, if_pos hfit]
      exact congrArg (Prod.mk _) (disk.write_write ..)
    | error failure =>
      refine ⟨⟨1, failure.context, failure.message⟩, rfl, ?_⟩
      rw [orAbort_pure_error rfl, if_pos hmade, if_neg (hsort.of_error hr)]
  · refine ⟨⟨1, "output file creation error", s!"{settings.output} cannot be made"⟩, rfl, ?_⟩
    rw [orAbort_error (Disk.createOutput_error hmade), if_neg hmade]

end Program

/-- Whatever the sizes and bounds it is given, and whatever order its threads work in, the program leaves the lines of one
flat sort in the output file if no line is too long. With a longer one it fails and leaves that file empty, and no other
file is touched. If the output file cannot be made, nothing is. All such settings can be asked for. -/
theorem run_sorts_lines (disk : Disk) (schedule : Schedule) :
    (∀ arguments given settings input, Request.ofArguments arguments = .ok (.values given) →
      Settings.ofValues given = .ok settings → 1 ≤ settings.chunkRows → settings.chunkRows ≤ 2 ^ 30 →
      4 ≤ settings.window → (∀ path ∈ settings.scratch, disk.usable path = true) →
      disk.files settings.input = some input →
      disk.run arguments schedule =
        if disk.creatable settings.output then
          if LinesFit settings.sideBytes (pieces (bytesRead settings input)) then
            (0, disk.write settings.output (joinLines (sortedLines settings.descending (pieces (bytesRead settings input)))))
          else (1, disk.write settings.output [])
        else (1, disk)) ∧
    ∀ (input output : String) (descending : Bool) (scratch : Option String) (chunkRows : Nat) (sideBytes : Option Nat)
      (window : Nat), chunkRows ≤ 2 ^ 30 → (∀ bytes ∈ sideBytes, bytes < 2 ^ 64) → window < 2 ^ 64 →
      ∃ arguments given, Request.ofArguments arguments = .ok (.values given) ∧
        Settings.ofValues given =
          .ok ⟨input, output, descending, scratch.map Path.ofString, chunkRows, sideBytes, window⟩ := by
  constructor
  · intro arguments given settings input hrequest hsettings hpos hle hwindow hscratch hinput
    obtain ⟨abort, hcode, hrun⟩ := sortFile_run ⟨hpos, hle⟩ hwindow hscratch hinput schedule
    have hserve : (serve Disk.host arguments schedule).run.run disk =
        (sortFile Disk.host settings schedule).run.run disk := by
      unfold serve
      rw [orAbort_pure_ok hrequest]
      exact orAbort_pure_ok hsettings ..
    rw [Disk.run, program, StateT.run_bind, hserve, hrun]
    split
    next =>
      split
      next => rfl
      next => exact congrArg (Prod.mk · _) hcode
    next => exact congrArg (Prod.mk · _) hcode
  · intro input output descending scratch chunkRows sideBytes window hrows hbytes hwindow
    exact ⟨_, _, ofArguments_spelled _, ofValues_options input output descending scratch (by omega)
      (fun bytes hb => Nat.le_of_lt_succ (hbytes bytes hb)) (Nat.le_of_lt_succ hwindow)⟩

def fiveLines (sideBytes : String) : List String :=
  ["-i", "in", "--output=out", "-sdesc", "--chunk-rows", "2", "-w=4", "-b", sideBytes, "-d", "spilled"]

def fiveLinesDisk : Disk where
  files name := if name = "in" then some [98, 10, 10, 97, 98, 99, 10, 98, 10, 97, 98] else none
  creatable name := name = "out"
  usable _ := true

theorem run_sorts_five_lines :
    fiveLinesDisk.run (fiveLines "3") =
        (0, fiveLinesDisk.write "out" [98, 10, 98, 10, 97, 98, 99, 10, 97, 98, 10, 10]) ∧
      fiveLinesDisk.run (fiveLines "2") = (1, fiveLinesDisk.write "out" []) := by
  have key := (run_sorts_lines fiveLinesDisk {}).1
  have three := key (fiveLines "3") _ ⟨"in", "out", true, some (Path.ofString "spilled"), 2, some 3, 4⟩ _ rfl rfl
    (by decide) (by decide) (by decide) (fun _ _ => rfl) rfl
  have two := key (fiveLines "2") _ ⟨"in", "out", true, some (Path.ofString "spilled"), 2, some 2, 4⟩ _ rfl rfl
    (by decide) (by decide) (by decide) (fun _ _ => rfl) rfl
  rw [if_pos (by decide), if_pos (by decide)] at three
  rw [if_pos (by decide), if_neg (by decide)] at two
  rw [three, two]
  have hsorted : joinLines (sortedLines true (pieces [98, 10, 10, 97, 98, 99, 10, 98, 10, 97, 98])) =
      [98, 10, 98, 10, 97, 98, 99, 10, 97, 98, 10, 10] := by
    cbv
  exact ⟨congrArg (fun bytes => (0, fiveLinesDisk.write "out" bytes)) hsorted, rfl⟩

end ChunkSort.CommandLine
