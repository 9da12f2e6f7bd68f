import Revue.Analysis.Assembly
import Revue.Command.Arguments
import Revue.Text.Json
import Revue.Text.Path

/-!
# Settings

How a source is read and whether caveats make a run fail. The arguments come first, then the
configuration of the project, then what the file itself suggests.
-/

namespace Revue.Command
open Text

/-- What a project says about all of its files. -/
structure Configuration where
  isTyped? : Option Bool := none
  isFlow? : Option Bool := none
  failsOnCaveats? : Option Bool := none
deriving DecidableEq, Repr

namespace Configuration

def fileName : String := ".react-to-vue.json"

def choice? : Json → Option (Option Bool)
  | .null => some none
  | .bool b => some (some b)
  | _ => none

def keys : List String := ["ts", "flow", "failOnCaveats"]

/-- The configuration with the given entries, each of them known and given once. -/
def ofEntries? (entries : List (String × Json)) : Option Configuration := do
  let names := entries.map (·.1)
  if names.all keys.contains && names.eraseDups.length == names.length then
    let chosen ← entries.mapM fun (key, j) => (choice? j).map fun b => (key, b)
    let get (key : String) : Option Bool := (chosen.lookup key).join
    return ⟨get "ts", get "flow", get "failOnCaveats"⟩
  else none

/-- The configuration that a document holds: an object, or an array of all values. -/
def ofJson? : Json → Option Configuration
  | .object entries => ofEntries? entries
  | .array [ts, flow, failOnCaveats] => do
    return ⟨← choice? ts, ← choice? flow, ← choice? failOnCaveats⟩
  | _ => none

def ofText? (text : String) : Option Configuration :=
  (Json.ofText? text).bind ofJson?

end Configuration

def isTypedPath (path : String) : Bool :=
  match Path.extension? path with
  | some extension => extension == "ts" || extension == "tsx"
  | none => false

/-- Whether the pragma stands in the comments that lines start with, up to the first line of code.
`inBlock` holds inside of a block comment. -/
def pragmaInLines (inBlock : Bool) : List (List Char) → Bool
  | [] => false
  | line :: rest =>
    let line := trim line
    let opensBlock := "/*".toList.isPrefixOf line
    if line.isEmpty then pragmaInLines inBlock rest
    else if !inBlock && !opensBlock && !"//".toList.isPrefixOf line then false
    else if contains "@flow".toList line then true
    else pragmaInLines ((opensBlock || inBlock) && !contains "*/".toList line) rest

/-- Whether the comments at the head of a source say that it is written with flow types. -/
def hasFlowPragma (source : String) : Bool :=
  pragmaInLines false (lines (source.toList.dropWhile (· == '\ufeff')))

structure Settings where
  options : Analysis.Options
  failsOnCaveats : Bool

def Settings.resolve (a : Arguments) (c : Configuration) (source : String) : Settings where
  options :=
    { isTyped := a.isTyped || c.isTyped?.getD (isTypedPath a.input)
      isFlow := a.isFlow || c.isFlow?.getD (hasFlowPragma source) }
  failsOnCaveats := a.failsOnCaveats || c.failsOnCaveats?.getD false

end Revue.Command
