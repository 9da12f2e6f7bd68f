import Revue.Analysis.Sites
import Revue.Analysis.StaticField

/-!
# Class components

The members of a class, taken apart: the initial state, what runs when an instance is made, and the
methods by the role that they play.
-/

namespace Revue.Analysis
open Text Syntax Component

/-- A class as far as it has been taken apart, and the model with what was noted on the way. -/
structure ClassDraft where
  model : Model
  state : Option Fragment := none
  created : List Fragment := []
  members : List Member := []

namespace ClassDraft

def addCaveat (d : ClassDraft) (c : Caveat) : ClassDraft :=
  { d with model := d.model.addCaveat c }

/-- Notes the changes of state in a node whose new form has to be checked. -/
def addUpdaters (d : ClassDraft) (spans : List Span) : ClassDraft :=
  { d with model := d.model.addCaveats (spans.map Caveat.stateUpdater) }

end ClassDraft

def isSuperCall (t : Tree) : Bool :=
  t.kind = .call && (t.get? .callee).any (·.kind = .super)

/-- An access to a member of `this`, by a name or in brackets. -/
def isMemberOfThis (t : Tree) : Bool :=
  t.kind = .member && (t.get? .object).any (·.kind = .this)

def isBindOfThis (t : Tree) : Bool :=
  t.kind = .call &&
    (match (t.get? .callee).bind namedMember? with
      | some (object, "bind") => isMemberOfThis object
      | _ => false) &&
    (match t.all .argument with
      | [.node _ .spread _ [argument]] => argument.kind = .this
      | [argument] => argument.kind = .this
      | _ => false)

/-- An assignment `this.x = this.y.bind(this)`. -/
def isBindAssignment (t : Tree) : Bool :=
  match t with
  | .node _ (.assign _) _ [target, value] =>
    isMemberOfThis target && isBindOfThis value.withoutParens
  | _ => false

def stateAssignment? (t : Tree) : Option Tree :=
  match t with
  | .node _ (.assign "=") _ [target, value] =>
    if memberOfThis? target = some "state" then some value else none
  | _ => none

def statementExpr? (t : Tree) : Option Tree :=
  if t.kind = .expressionStatement then t.get? .operand else none

/-- A statement of a constructor that makes no sense in the new component. -/
def isBoilerplate (t : Tree) : Bool :=
  (statementExpr? t).any fun e => isSuperCall e || isBindAssignment e

def addStatement (r : Reading) (setting : Setting) (d : ClassDraft) (t : Tree) : ClassDraft :=
  if isBoilerplate t then d
  else match (statementExpr? t).bind stateAssignment? with
    | some value =>
      { d.addUpdaters (updatersOf r setting value) with
        state := some (fragmentOf r setting value) }
    | none =>
      let f := fragmentOf r setting t
      { d.addUpdaters (updatersOf r setting t) with
        created := d.created ++ [{ f with text := r.withTrailing f.text t.span.stop }] }

def constructorProps? (t : Tree) : Option String :=
  match t.get? .param with
  | some (.node _ .parameter _ parts) =>
    (parts.find? (·.role = .value)).bind (·.name?)
  | _ => none

def addConstructor (r : Reading) (d : ClassDraft) (t : Tree) : ClassDraft :=
  match t.get? .body with
  | some body =>
    (body.all .statement).foldl (addStatement r (.classMember (constructorProps? t))) d
  | none => d

/-- The value that a body which is only a returned expression gives. -/
def conciseBody? (body : Tree) : Option Tree :=
  match body.all .statement with
  | [.node _ .returnStatement span [value]] => if span = body.span then some value else none
  | _ => none

/-- The body of a method. One that was only an expression is written out. -/
def methodBody (r : Reading) (body : Tree) : Fragment :=
  let setting := Setting.classMember none
  match conciseBody? body with
  | some value => (fragmentOf r setting value).wrapped "\x7b return " "; \x7d"
  | none => fragmentOf r setting body

def bodyUpdaters (r : Reading) (body : Tree) : List Span :=
  updatersOf r (.classMember none) ((conciseBody? body).getD body)

def roleOf (name : String) : MemberRole :=
  if name = "render" then .render
  else match Hook.ofMethod? name with
    | some hook => .lifecycle hook
    | none => .method

def paramsText (r : Reading) (t : Tree) : String :=
  ", ".intercalate ((t.all .param).map fun p => r.text p.span)

def addMember (r : Reading) (d : ClassDraft) (t body : Tree) (name : String) (role : MemberRole)
    (flags : FunctionFlags) : ClassDraft :=
  { d.addUpdaters (bodyUpdaters r body) with
    members := d.members ++
      [{ name := name
         role := role
         params := paramsText r t
         body := methodBody r body
         isAsync := flags.isAsync
         isGenerator := flags.isGenerator
         leadingComments := r.leadingComments t.span.start }] }

def addNamedMethod (r : Reading) (d : ClassDraft) (t body : Tree) (name : String)
    (sort : MethodSort) (isStatic : Bool) (flags : FunctionFlags) : ClassDraft :=
  if isStatic then addMember r (d.addCaveat (.staticMethod name t.span)) t body name .static flags
  else match sort with
    | .getter => addMember r d t body name .getter flags
    | .setter => d.addCaveat (.setter name t.span)
    | .method =>
      let d := if roleOf name = .method && isUnsupportedLifecycle name then
          d.addCaveat (.unsupportedLifecycle name t.span)
        else d
      addMember r d t body name (roleOf name) flags

def addMethod (r : Reading) (d : ClassDraft) (t : Tree) (sort : MethodSort) (isStatic : Bool)
    (flags : FunctionFlags) : ClassDraft :=
  match (t.get? .key).bind keyName?, t.get? .body with
  | none, _ => d.addCaveat (.member "computed method" t.span)
  | some _, none => d
  | some name, some body => addNamedMethod r d t body name sort isStatic flags

def addStaticField (r : Reading) (component : String) (d : ClassDraft) (t value : Tree)
    (name : String) : ClassDraft :=
  match (StaticField.ofName? name).bind fun field =>
      recordStatic? r d.model component field value with
  | some model => { d with model := model }
  | none => d.addCaveat (.staticField name t.span)

def addInstanceField (r : Reading) (d : ClassDraft) (value : Tree) (name : String) : ClassDraft :=
  let setting := Setting.classMember none
  let f := fragmentOf r setting value
  let d := d.addUpdaters (updatersOf r setting value)
  if name = "state" then { d with state := some f }
  else { d with created := d.created ++ [f.wrapped ("this." ++ name ++ " = ") ";"] }

def addField (r : Reading) (component : String) (d : ClassDraft) (t : Tree) (isStatic : Bool) :
    ClassDraft :=
  match (t.get? .key).bind keyName?, t.get? .value with
  | none, _ => d.addCaveat (.member "computed field" t.span)
  | some _, none => d
  | some name, some value =>
    if isStatic then addStaticField r component d t value name
    else addInstanceField r d value name

def privateKey? (t : Tree) : Option String :=
  match t.get? .key with
  | some (.node _ (.privateName name) _ _) => some ("#" ++ name)
  | _ => none

def addClassMember (r : Reading) (component : String) (d : ClassDraft) (t : Tree) : ClassDraft :=
  match t.kind, privateKey? t with
  | .constructorDef _, _ => addConstructor r d t
  | .accessor _, _ => d.addCaveat (.member "accessor" t.span)
  | .staticBlock, _ => d.addCaveat (.staticBlock t.span)
  | .method _ _ _, some name => d.addCaveat (.member name t.span)
  | .field _, some name => d.addCaveat (.member name t.span)
  | .method sort flags functionFlags, none =>
    addMethod r d t sort flags.isStatic functionFlags
  | .field flags, none => addField r component d t flags.isStatic
  | _, _ => d

/-- Takes a class apart and puts it into a model. A class that is not at the top level is worth a
caveat, as are its decorators. -/
def addClass (r : Reading) (m : Model) (name : String) (t : Tree) (isNested : Bool) : Model :=
  let m := if isNested then m.addCaveat (.higherOrder t.span) else m
  let m := match t.get? .decorator with
    | some mark => m.addCaveat (.decorators mark.span)
    | none => m
  let d := (t.all .member).foldl (addClassMember r name) { model := m }
  { d.model with
    classComponent := some
      { name := name
        span := t.span
        state := d.state
        created := d.created
        members := d.members } }

end Revue.Analysis
