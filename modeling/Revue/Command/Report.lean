import Revue.Command.Arguments
import Revue.Component.Caveat
import Revue.Text.Json
import Revue.Text.LineIndex

/-!
# Reports

The caveats of a run for a reader or for another program. Lines and columns are counted from one;
an offset outside of the text is reported as its beginning.
-/

namespace Revue.Command
open Text Component

def positionOf (index : LineIndex) (offset : Nat) : Nat × Nat :=
  let p := (index.lineCol? offset).getD ⟨0, 0⟩
  (p.line + 1, p.col + 1)

def summary (count : Nat) : String :=
  "react-to-vue raised " ++ toString count ++ (if count = 1 then " caveat" else " caveats")

def caveatText (index : LineIndex) (path : String) (c : Caveat) : String :=
  let place := match c.span? with
    | some span =>
      let (line, column) := positionOf index span.start
      path ++ ":" ++ toString line ++ ":" ++ toString column
    | none => path
  place ++ "\nCaveat: " ++ c.message ++ " (" ++ c.code.text ++ ")\n\n"

def positionJson (index : LineIndex) (offset : Nat) : Json :=
  let (line, column) := positionOf index offset
  .object [("line", .nat line), ("column", .nat column), ("offset", .nat offset)]

def caveatJson (index : LineIndex) (path : String) (c : Caveat) : Json :=
  .object
    [("code", .string c.code.text), ("message", .string c.message), ("filename", .string path),
      ("start", .option (fun s => positionJson index s.start) c.span?),
      ("end", .option (fun s => positionJson index s.stop) c.span?)]

def report (format : ReportFormat) (caveats : List Caveat) (path source : String) : String :=
  let index := LineIndex.ofText source.toList
  match format with
  | .human =>
    String.join (caveats.map (caveatText index path)) ++ summary caveats.length ++ "\n"
  | .json => (Json.array (caveats.map (caveatJson index path))).pretty

end Revue.Command
