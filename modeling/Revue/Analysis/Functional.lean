import Revue.Analysis.Sites

/-!
# Functional components

A function that is declared at the top of a module, or a variable there whose value is an arrow
function.
-/

namespace Revue.Analysis
open Text Syntax Component

def patternText? (r : Reading) : Tree → Option String
  | .node _ .defaultPattern _ (left :: _) => patternText? r left
  | t =>
    match t.kind with
    | .name text => some text
    | .objectPattern =>
      let stop := match t.get? .type with
        | some type => min type.span.start t.span.stop
        | none => t.span.stop
      let text := trimEnd (r.text ⟨t.span.start, stop⟩).toList
      let text := (text.reverse.dropWhile (· == ':')).reverse
      some (String.ofList (trimEnd text))
    | _ => none

def functionalSetting (first : Option Tree) : Setting :=
  .functional (first.bind (·.name?))

def functionalComponent (r : Reading) (name : String) (params : List Tree) (body : Body)
    (origin : Origin) (isAsync : Bool) (span : Span) : FunctionalComponent where
  name := name
  params := params.map fun p => r.text p.span
  propsBinding := params.head?.bind (patternText? r)
  body := body
  origin := origin
  isAsync := isAsync
  source := r.text span
  span := span

/-- The component that a function is, if it has a body; `span` covers its declaration. -/
def componentOfFunction? (r : Reading) (name : String) (t : Tree) (span : Span) :
    Option FunctionalComponent :=
  let params := (t.all .param).filterMap parameterPattern?
  let isAsync := match t.kind with
    | .function flags => flags.isAsync
    | _ => false
  (t.get? .body).map fun body =>
    functionalComponent r name params (.block (fragmentOf r (functionalSetting params.head?) body))
      .declaration isAsync span

def componentOfArrow (r : Reading) (name : String) (t : Tree) (isAsync : Bool) (span : Span) :
    FunctionalComponent :=
  let params := t.all .param
  let body := (t.get? .body).getD t
  let f := fragmentOf r (functionalSetting params.head?) body
  functionalComponent r name params (if body.kind = .block then .block f else .expr f) .arrow
    isAsync span

def arrowDeclarator? (t : Tree) : Option (String × Tree × Bool) := do
  let name ← (t.get? .name).bind (·.name?)
  let value ← t.get? .initializer
  let inner := value.withoutParens
  match inner.kind with
  | .arrow isAsync => return (name, inner, isAsync)
  | _ => none

end Revue.Analysis
