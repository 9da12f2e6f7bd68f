import Revue.Text.Span

/-!
# Caveats

Constructs that do not carry over faithfully. A caveat has a code, a message and, if it is about a
place, a span. The log keeps them in the order in which they arose and merges none.
-/

namespace Revue.Component
open Text

inductive CaveatCode where
  /-- A component that is built or placed somewhere else than at the top level. -/
  | higherOrder
  | decorators
  /-- A prop whose type is not known. -/
  | ambiguousProp
  | missingValidation
  /-- Props that are declared by a type and by validators. -/
  | duplicateContract
  | unsupportedLifecycle
  | staticMember
  | setter
  /-- A change of state whose new form has to be checked. -/
  | stateUpdater
  | untransferred
deriving DecidableEq, Repr

namespace CaveatCode

def text : CaveatCode → String
  | higherOrder => "higher-order-component"
  | decorators => "decorators"
  | ambiguousProp => "ambiguous-prop-type"
  | missingValidation => "missing-prop-validation"
  | duplicateContract => "duplicate-prop-contract"
  | unsupportedLifecycle => "unsupported-lifecycle"
  | staticMember => "static-member"
  | setter => "setter"
  | stateUpdater => "state-updater"
  | untransferred => "untransferred-statement"

def all : List CaveatCode :=
  [higherOrder, decorators, ambiguousProp, missingValidation, duplicateContract,
    unsupportedLifecycle, staticMember, setter, stateUpdater, untransferred]

def ofText? (s : String) : Option CaveatCode :=
  all.find? (·.text == s)

end CaveatCode

structure Caveat where
  code : CaveatCode
  message : String
  span? : Option Span
deriving DecidableEq, Repr

namespace Caveat

def at_ (code : CaveatCode) (message : String) (span : Span) : Caveat :=
  ⟨code, message, some span⟩

def unanchored (code : CaveatCode) (message : String) : Caveat :=
  ⟨code, message, none⟩

def display (c : Caveat) : String :=
  c.code.text ++ ": " ++ c.message

def higherOrder (span : Span) : Caveat :=
  at_ .higherOrder "possible higher-order-component pattern, unsupported" span

def decorators (span : Span) : Caveat :=
  at_ .decorators "decorators unsupported" span

def ambiguousProp (prop component : String) (span : Span) : Caveat :=
  at_ .ambiguousProp
    ("ambiguous prop type for `" ++ prop ++ "` on `" ++ component ++ "`, validation skipped") span

def missingValidation : Caveat :=
  unanchored .missingValidation "There is no props validation, manual check required."

def duplicateContract (component : String) (span : Span) : Caveat :=
  at_ .duplicateContract
    ("`" ++ component ++ "` declares props both by type and by propTypes, propTypes ignored") span

def unsupportedLifecycle (name : String) (span : Span) : Caveat :=
  at_ .unsupportedLifecycle
    ("lifecycle `" ++ name ++ "` has no Vue counterpart, kept as a method") span

def staticMethod (name : String) (span : Span) : Caveat :=
  at_ .staticMember ("static member `" ++ name ++ "` unsupported, kept as a method") span

def staticField (name : String) (span : Span) : Caveat :=
  at_ .staticMember ("static member `" ++ name ++ "` unsupported, dropped") span

def staticBlock (span : Span) : Caveat :=
  at_ .staticMember "static block unsupported" span

def setter (name : String) (span : Span) : Caveat :=
  at_ .setter ("setter `" ++ name ++ "` unsupported, dropped") span

def stateUpdater (span : Span) : Caveat :=
  at_ .stateUpdater
    "setState with a callback or non-object argument, check the rewritten call" span

def member (what : String) (span : Span) : Caveat :=
  at_ .untransferred ("class member `" ++ what ++ "` not transferred") span

def statement (snippet : String) (span : Span) : Caveat :=
  at_ .untransferred ("top-level statement not transferred: `" ++ snippet ++ "`") span

end Caveat

/-- Caveats in the order in which they arose. -/
structure CaveatLog where
  toList : List Caveat := []
deriving DecidableEq, Repr

namespace CaveatLog

def push (log : CaveatLog) (c : Caveat) : CaveatLog :=
  ⟨log.toList ++ [c]⟩

def extend (log : CaveatLog) (cs : List Caveat) : CaveatLog :=
  ⟨log.toList ++ cs⟩

def size (log : CaveatLog) : Nat :=
  log.toList.length

def isEmpty (log : CaveatLog) : Bool :=
  log.toList.isEmpty

def contains (log : CaveatLog) (code : CaveatCode) : Bool :=
  log.toList.any (·.code = code)

def messages (log : CaveatLog) : List String :=
  log.toList.map (·.message)

end CaveatLog

end Revue.Component
