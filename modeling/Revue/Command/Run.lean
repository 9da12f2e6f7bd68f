import Revue.Command.Files
import Revue.Command.Help
import Revue.Command.ModelDocument
import Revue.Command.Report
import Revue.Command.Settings
import Revue.Vue.Options

/-!
# Runs

A run reads one file, finds the configuration, and writes the new component and a report. It sees
the world through a host that reads and writes files; `run` is the run on a given set of files.
Nothing is written before the source is understood.
-/

namespace Revue.Command
open Text Component

/-- What reads and writes files. A write makes the directories that it needs. -/
structure Host (m : Type → Type) where
  read? : String → m (Option String)
  write : String → String → m Bool

/-- Why a run comes to nothing. -/
inductive Fatal where
  | usage (e : UsageError)
  | unreadable (path : String)
  | configuration (path : String)
  | failure (f : Analysis.Failure)
  /-- A site of the model splits a character. -/
  | misplacedSite
  | unwritable (path : String)
deriving DecidableEq, Repr

namespace Fatal

def exitCode : Fatal → Nat
  | usage _ => 2
  | failure .breakdown => 101
  | misplacedSite => 101
  | _ => 1

def text : Fatal → String
  | usage .missingInput => "the input is missing"
  | usage .invalidValue => "a value is missing or not known"
  | usage .unknownArgument => "unexpected argument"
  | usage .repeated => "an argument cannot be used multiple times"
  | usage .unexpectedValue => "a value for an argument that takes none"
  | usage (.help _) => "help"
  | usage .version => "version"
  | unreadable path => "failed to read " ++ path
  | configuration path => "invalid configuration in " ++ path
  | failure f => f.text
  | misplacedSite => "a site of the model splits a character"
  | unwritable path => "failed to write " ++ path

end Fatal

/-- What a run leaves behind, apart from files. -/
structure Outcome where
  exitCode : Nat := 0
  stdout : String := ""
  stderr : String := ""
  fatal? : Option Fatal := none
deriving DecidableEq, Repr

/-- A run that came to nothing, with what it had printed. -/
def Outcome.ofFatal (f : Fatal) (stdout : String) : Outcome where
  exitCode := f.exitCode
  stdout := stdout
  fatal? := some f

/-- A source that is read: its model and the text that the spans of the model point into. -/
structure Conversion where
  model : Model
  source : String
  failsOnCaveats : Bool

namespace Conversion

def ofSource (s : Settings) (source : String) : Except Fatal Conversion :=
  match Analysis.analyze s.options source with
  | .ok model => .ok ⟨model, Source.preprocess source s.options.isFlow, s.failsOnCaveats⟩
  | .error f => .error (.failure f)

def modelText (a : Arguments) (c : Conversion) : String :=
  if a.emitsModel then (modelJson c.model).pretty ++ "\n" else ""

def reportText (a : Arguments) (c : Conversion) : String :=
  if c.model.caveats.isEmpty then ""
  else report a.format c.model.caveats.toList a.input c.source

def exitCode (c : Conversion) : Nat :=
  if c.failsOnCaveats && !c.model.caveats.isEmpty then 1 else 0

end Conversion

def configurationPaths (input : String) : List String :=
  (Path.ancestors input).map fun dir =>
    (if Path.isAbsolute input then "/" else "") ++
      "/".intercalate (dir ++ [Configuration.fileName])

variable {m : Type → Type} [Monad m]

/-- The first configuration that is there; without one everything is left open. -/
def findConfiguration (host : Host m) : List String → m (Except Fatal Configuration)
  | [] => pure (.ok {})
  | path :: paths => do
    match ← host.read? path with
    | none => findConfiguration host paths
    | some text =>
      match Configuration.ofText? text with
      | some c => return .ok c
      | none => return .error (.configuration path)

def deliver (host : Host m) (a : Arguments) (c : Conversion) : m Outcome :=
  match Vue.generate c.model, a.output with
  | none, _ => pure (.ofFatal .misplacedSite (c.modelText a))
  | some component, none =>
    pure
      { exitCode := c.exitCode
        stdout := if a.emitsModel then c.modelText a else component
        stderr := c.reportText a }
  | some component, some path => do
    if ← host.write path component then
      return { exitCode := c.exitCode, stdout := c.modelText a, stderr := c.reportText a }
    else return .ofFatal (.unwritable path) (c.modelText a)

def runArguments (host : Host m) (a : Arguments) : m Outcome := do
  match ← host.read? a.input with
  | none => return .ofFatal (.unreadable a.input) ""
  | some source =>
    match ← findConfiguration host (configurationPaths a.input) with
    | .error f => return .ofFatal f ""
    | .ok config =>
      match Conversion.ofSource (.resolve a config source) source with
      | .error f => return .ofFatal f ""
      | .ok c => deliver host a c

def runWith (host : Host m) (args : List String) : m Outcome :=
  match Arguments.ofList args with
  | .error (.help isLong) => pure { stdout := helpText isLong }
  | .error .version => pure { stdout := versionText }
  | .error e => pure (.ofFatal (.usage e) "")
  | .ok a => runArguments host a

def Files.host : Host (StateM Files) where
  read? path := do return (← get).read? path
  write path content := do
    match (← get).write? path content with
    | some files =>
      set files
      return true
    | none => return false

/-- A run on a set of files, and the files after it. -/
def run (args : List String) (files : Files) : Outcome × Files :=
  (runWith Files.host args).run files

end Revue.Command
