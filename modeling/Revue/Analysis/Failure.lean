import Revue.Syntax.Module
import Revue.Text.LineIndex

/-!
# Failures

Why a source has no model, and how that is said.
-/

namespace Revue.Analysis
open Text

/-- How a source is not well formed: it could not be read, or only by passing over a mistake. -/
inductive FaultKind where
  | rejected
  | recovered
deriving DecidableEq, Repr

/-- A mistake in a source: what it is and where. -/
structure Fault where
  kind : FaultKind
  message : String
  position : LineCol

/-- The text for a mistake. Lines and columns are counted from one. -/
def Fault.text (f : Fault) : String :=
  (match f.kind with
    | .rejected => "syntax error: "
    | .recovered => "syntax error (recovered by parser, rejected): ") ++
    f.message ++ " at " ++ toString (f.position.line + 1) ++ ":" ++ toString (f.position.col + 1)

/-- Why a source has no model. -/
inductive Failure where
  /-- The source is not well formed. -/
  | parse
  /-- Reading the source broke down. -/
  | breakdown
  /-- A second class at the top level, after the first. -/
  | multipleComponents (first second : String) (span : Span)
deriving DecidableEq, Repr

namespace Failure

def ofParse : Syntax.ParseFailure → Failure
  | .invalid => parse
  | .breakdown => breakdown

def text : Failure → String
  | parse => "syntax error"
  | breakdown => "reading broke down"
  | multipleComponents first second _ =>
    "multiple components: `" ++ second ++ "` is declared after `" ++ first ++
      "`, only one class component per file is supported"

def span? : Failure → Option Span
  | parse | breakdown => none
  | multipleComponents _ _ span => some span

end Failure

end Revue.Analysis
