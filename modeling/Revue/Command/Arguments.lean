/-!
# Arguments

What is asked for on the command line. Arguments are read from left to right, and the first fault
decides. An option that is given apart from its value takes it only when the next argument is
understood, so an argument that makes no sense is reported before a value that does not.
-/

namespace Revue.Command

/-- How caveats are reported. -/
inductive ReportFormat where
  | human
  | json
deriving DecidableEq, Repr

namespace ReportFormat

def text : ReportFormat → String
  | human => "human"
  | json => "json"

def ofText? : String → Option ReportFormat
  | "human" => some human
  | "json" => some json
  | _ => none

end ReportFormat

/-- A run that is asked for. -/
structure Arguments where
  input : String
  /-- Where the new component goes if not to the standard output. -/
  output : Option String := none
  isTyped : Bool := false
  isFlow : Bool := false
  format : ReportFormat := .human
  failsOnCaveats : Bool := false
  emitsModel : Bool := false
  verbosity : Nat := 0
deriving DecidableEq, Repr

def Arguments.logLevel (a : Arguments) : String :=
  match a.verbosity with
  | 0 => "warn"
  | 1 => "debug"
  | _ => "trace"

/-- Why arguments ask for no run. -/
inductive UsageError where
  | missingInput
  /-- An option without a value, or with one that it does not know. -/
  | invalidValue
  | unknownArgument
  /-- A second time what may be given once. -/
  | repeated
  /-- A value for what takes none. -/
  | unexpectedValue
  /-- The help is asked for, in its long form or the short one. -/
  | help (isLong : Bool)
  | version
deriving DecidableEq, Repr

inductive Switch where
  | typed
  | flow
  | failOnCaveats
  | emitModel
  | verbose
  | help
  | version
deriving DecidableEq, Repr

inductive Setting where
  | output
  | format
deriving DecidableEq, Repr

abbrev Named := Switch ⊕ Setting

def longNames : List (String × Named) :=
  [("output", .inr .output), ("ts", .inl .typed), ("flow", .inl .flow), ("format", .inr .format),
    ("fail-on-caveats", .inl .failOnCaveats), ("emit-model", .inl .emitModel),
    ("verbose", .inl .verbose), ("help", .inl .help), ("version", .inl .version)]

def shortNames : List (Char × Named) :=
  [('o', .inr .output), ('v', .inl .verbose), ('h', .inl .help), ('V', .inl .version)]

/-- What has been read so far. -/
structure Draft where
  input : Option String := none
  output : Option String := none
  format : Option ReportFormat := none
  switches : List Switch := []
  verbosity : Nat := 0
  /-- A setting that is not taken yet, and its value if it has been read. -/
  pending : Option (Setting × Option String) := none
  /-- Whether all that follows is taken as it stands. -/
  isPlain : Bool := false
deriving DecidableEq, Repr

namespace Draft

def set (d : Draft) : Setting → String → Except UsageError Draft
  | .output, value =>
    if d.output.isSome then .error .repeated else .ok { d with output := some value }
  | .format, value =>
    if d.format.isSome then .error .repeated
    else match ReportFormat.ofText? value with
      | some format => .ok { d with format := some format }
      | none => .error .invalidValue

def settle (d : Draft) : Except UsageError Draft :=
  match d.pending with
  | none => .ok d
  | some (_, none) => .error .invalidValue
  | some (setting, some value) => { d with pending := none }.set setting value

/-- Turns a switch on. More than 255 steps of verbosity are not counted. -/
def turnOn (d : Draft) (isLong : Bool) : Switch → Except UsageError Draft
  | .help => .error (.help isLong)
  | .version => .error .version
  | .verbose => .ok { d with verbosity := min 255 (d.verbosity + 1) }
  | switch =>
    if d.switches.contains switch then .error .repeated
    else .ok { d with switches := switch :: d.switches }

/-- An argument with two hyphens, by its name and the value after an equals sign. -/
def readLong (d : Draft) (name : String) (value : Option String) : Except UsageError Draft :=
  match longNames.lookup name, value with
  | none, _ => .error .unknownArgument
  | some (.inl _), some _ => .error .unexpectedValue
  | some (.inl switch), none => do (← d.settle).turnOn true switch
  | some (.inr setting), some value => do (← d.settle).set setting value
  | some (.inr setting), none => do return { ← d.settle with pending := some (setting, none) }

/-- The letters of an argument with one hyphen. A setting takes what follows its letter. -/
def readShort (d : Draft) : List Char → Except UsageError Draft
  | [] => .ok d
  | c :: cs =>
    match shortNames.lookup c with
    | none => .error .unknownArgument
    | some (.inl switch) => do ((← (← d.settle).turnOn false switch)).readShort cs
    | some (.inr setting) => do
      let d ← d.settle
      match cs with
      | [] => return { d with pending := some (setting, none) }
      | '=' :: value => d.set setting (String.ofList value)
      | value => d.set setting (String.ofList value)

/-- An argument without a name. There is one. -/
def readInput (d : Draft) (arg : String) : Except UsageError Draft :=
  match d.input with
  | some _ => .error .unknownArgument
  | none => do return { ← d.settle with input := some arg }

def splitEquals (cs : List Char) : String × Option String :=
  let name := cs.takeWhile (· != '=')
  match cs.drop name.length with
  | [] => (String.ofList name, none)
  | _ :: value => (String.ofList name, some (String.ofList value))

def read (d : Draft) (arg : String) : Except UsageError Draft :=
  if d.isPlain then d.readInput arg
  else match arg.toList with
    | ['-', '-'] => .ok { d with isPlain := true }
    | '-' :: '-' :: cs =>
      let (name, value) := splitEquals cs
      d.readLong name value
    | '-' :: c :: cs => d.readShort (c :: cs)
    | _ =>
      match d.pending with
      | some (setting, none) => .ok { d with pending := some (setting, some arg) }
      | _ => d.readInput arg

def finish (d : Draft) : Except UsageError Arguments := do
  let d ← d.settle
  match d.input with
  | none => .error .missingInput
  | some input =>
    return { input := input
             output := d.output
             isTyped := d.switches.contains .typed
             isFlow := d.switches.contains .flow
             format := d.format.getD .human
             failsOnCaveats := d.switches.contains .failOnCaveats
             emitsModel := d.switches.contains .emitModel
             verbosity := d.verbosity }

end Draft

def Arguments.ofList (args : List String) : Except UsageError Arguments := do
  (← args.foldlM Draft.read {}).finish

end Revue.Command
