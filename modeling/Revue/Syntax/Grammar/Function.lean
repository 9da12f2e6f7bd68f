import Revue.Syntax.Grammar.TypeExpr

/-!
# Functions

Blocks, parameters and bodies, for functions that are declared, written as expressions, or members
of a class or an object.
-/

namespace Revue.Syntax
open Text

variable (g : Grammar) (c : Context)

def statements : Parser (List Tree) :=
  many do
    if ← atMark .rbrace then return none
    return some ((← g.statement c true).as .statement)

def block : Parser Tree := do
  let start ← position
  expect .lbrace
  let body ← statements g c
  expect .rbrace
  close .block start body

def functionBody? (flags : FunctionFlags) : Parser (List Tree) := do
  if ← atMark .lbrace then return [(← block g (c.inFunction flags)).as .body]
  else if ← eatEnding then return []
  else fail

def functionRest (flags : FunctionFlags) (marks : List Tree) : Parser (List Tree) := do
  let generics ← typeParameters? g c
  expect .lparen
  let inner := c.inSignature flags
  let ps ← parameters g inner (g.decorator inner)
  let result ← returnType? g c
  let body ← functionBody? g c flags
  return ps ++ marks ++ body ++ generics ++ result

/-- How a function stands: as an expression with a body, as a declaration with a name, or as a
declaration that may lack one. -/
inductive FunctionPlace where
  | expression
  | declaration
  | exportDefault
deriving DecidableEq

def functionDef (start : Nat) (isAsync : Bool) (place : FunctionPlace) : Parser Tree := do
  expectKeyword .kFunction
  let flags : FunctionFlags := ⟨isAsync, ← eat .star⟩
  let names ← if place = .declaration then pure [(← bindingName c).as .name] else bindingName? c
  let parts ← functionRest g { c with allowsSuper := false } flags []
  if place = .expression && parts.all (·.role != .body) then fail
  close (.function flags) start (names ++ parts)

def atAsyncFunction : Parser Bool := do
  return (← atKeyword .kAsync) && (← peekKeywordOnLine .kFunction)

def functionExpr (place : FunctionPlace) : Parser Tree := do
  let start ← position
  let isAsync ← eatKeyword .kAsync
  functionDef g c start isAsync place

end Revue.Syntax
