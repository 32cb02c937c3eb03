import ChunkSort.CommandLine.ByteSize
import ChunkSort.CommandLine.Path
import ChunkSort.Limits

/-!
The arguments of the line sorter. Options have a letter and a long name and take one value each, and none of
them may be given twice.
-/

namespace ChunkSort.CommandLine

inductive Parameter where
  | input
  | output
  | order
  | logLevel
  | threads
  | scratch
  | chunkRows
  | sideBytes
  | window
  deriving DecidableEq

namespace Parameter

def letter : Parameter → Char
  | input => 'i'
  | output => 'o'
  | order => 's'
  | logLevel => 'l'
  | threads => 't'
  | scratch => 'd'
  | chunkRows => 'c'
  | sideBytes => 'b'
  | window => 'w'

def name : Parameter → String
  | input => "input"
  | output => "output"
  | order => "sort"
  | logLevel => "loglevel"
  | threads => "threads"
  | scratch => "tmp-dir"
  | chunkRows => "chunk-rows"
  | sideBytes => "side-buffer-size"
  | window => "window"

def help : Parameter → String
  | input => "file with the lines to sort"
  | output => "file to write sorted lines to"
  | order => "line order"
  | logLevel => "log verbosity"
  | threads => "number of threads running the sorting network lanes"
  | scratch => "directory to spill chunks waiting for a merge to"
  | chunkRows => "number of lines per chunk"
  | sideBytes => "line bytes per loaded chunk"
  | window => "maximum number of resident chunks"

def all : List Parameter := [input, output, order, logLevel, threads, scratch, chunkRows, sideBytes, window]

def ofLetter? (c : Char) : Option Parameter := all.find? (·.letter = c)

def ofName? (name : String) : Option Parameter := all.find? (·.name = name)

end Parameter

inductive UsageError where
  | unexpected (argument : String)
  | missingValue (parameter : Parameter)
  | repeated (parameter : Parameter)
  | missing (parameter : Parameter)
  | invalidValue (parameter : Parameter) (text : String)
  deriving DecidableEq

def UsageError.message : UsageError → String
  | unexpected argument => s!"unexpected argument {argument}"
  | missingValue parameter => s!"--{parameter.name} takes a value"
  | repeated parameter => s!"--{parameter.name} is given more than once"
  | missing parameter => s!"--{parameter.name} is required"
  | invalidValue parameter text => s!"--{parameter.name} does not take the value {text}"

inductive Request where
  | help
  | values (given : List (Parameter × String))
  deriving DecidableEq

inductive Argument where
  | help
  | option (parameter : Parameter) (attached : Option String)
  /-- Ends the options. -/
  | terminator
  | unknown
  /-- No option, and so the value of one if a value is expected. -/
  | plain

/-- A value that is attached to an option letter may follow an equals sign. -/
def attachedValue : List Char → Option String
  | [] => none
  | '=' :: text | text => some (String.ofList text)

def Argument.ofString (text : String) : Argument :=
  match text.toList with
  | ['-', '-'] => terminator
  | '-' :: '-' :: long =>
    let name := String.ofList (long.takeWhile (· ≠ '='))
    let attached := match long.dropWhile (· ≠ '=') with
      | [] => none
      | _ :: value => some (String.ofList value)
    match Parameter.ofName? name with
    | some parameter => option parameter attached
    | none => if name = "help" ∧ attached = none then help else unknown
  | '-' :: c :: rest =>
    match Parameter.ofLetter? c with
    | some parameter => option parameter (attachedValue rest)
    | none => if c = 'h' then help else unknown
  | _ => plain

def Request.add (parameter : Parameter) (value : String) : Request → Request
  | help => help
  | values given => values ((parameter, value) :: given)

/-- Reads the arguments from left to right. A call for help counts once everything before it is in order, but
a value that is missing there, like one that is wrong, is only noticed at the end. -/
def Request.ofArguments : List String → Except UsageError Request
  | [] => .ok (.values [])
  | argument :: rest =>
    match Argument.ofString argument with
    | .help => .ok .help
    | .unknown | .plain => .error (.unexpected argument)
    | .terminator =>
      match rest with
      | [] => .ok (.values [])
      | next :: _ => .error (.unexpected next)
    | .option parameter (some value) => (ofArguments rest).map (.add parameter value)
    | .option parameter none =>
      match rest with
      | [] => .error (.missingValue parameter)
      | next :: more =>
        match Argument.ofString next with
        | .plain => (ofArguments more).map (.add parameter next)
        | _ =>
          match ofArguments (next :: more) with
          | .ok .help => .ok .help
          | _ => .error (.missingValue parameter)

structure Settings where
  input : String
  output : String
  descending : Bool
  scratch : Option Path
  chunkRows : Nat
  sideBytes : Option Nat
  window : Nat
  deriving DecidableEq

namespace Settings

def lookup {α : Type} (given : List (Parameter × String)) (parameter : Parameter) (parse : String → Option α)
    (default : Except UsageError α) : Except UsageError α :=
  match given.filter (·.1 = parameter) with
  | [] => default
  | [(_, text)] => ((parse text).map .ok).getD (.error (.invalidValue parameter text))
  | _ => .error (.repeated parameter)

def parseOrder : String → Option Bool
  | "asc" => some false
  | "desc" => some true
  | _ => none

def parseLogLevel (text : String) : Option String :=
  ["off", "error", "warn", "info", "debug", "trace"].find? (· = text)

def ofValues (given : List (Parameter × String)) : Except UsageError Settings := do
  let _ ← lookup given .logLevel parseLogLevel (.ok "info")
  let _ ← lookup given .threads (fun text => (parseWord text).map some) (.ok none)
  return {
    input := ← lookup given .input some (.error (.missing .input))
    output := ← lookup given .output some (.error (.missing .output))
    descending := ← lookup given .order parseOrder (.ok false)
    scratch := ← lookup given .scratch (fun text => some (some (Path.ofString text))) (.ok none)
    chunkRows := ← lookup given .chunkRows parseWord (.ok 65536)
    sideBytes := ← lookup given .sideBytes (fun text => (ByteSize.parse text).map some) (.ok none)
    window := ← lookup given .window parseWord (.ok chunksPerMerge) }

end Settings
end ChunkSort.CommandLine
