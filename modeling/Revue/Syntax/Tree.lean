import Revue.Text.Span

/-!
# Parse trees

A parse tree is a finitely branching tree. Each node has a kind, the span that it covers, and its
parts in the order in which a traversal visits them; each part carries the role that it plays in
the node above it. One type for expressions, statements, patterns, types, markup and declarations
makes every question about "a node at any depth" a question about `subtrees`.
-/

namespace Revue.Syntax
open Text

/-- The part that a node plays in the node above it. -/
inductive Role where
  | item
  | name
  | key
  | value
  | type
  | object
  | property
  | callee
  | argument
  | typeArgument
  | left
  | right
  | test
  | consequent
  | alternate
  | operand
  | initializer
  | update
  | body
  | param
  | decorator
  | member
  | superclass
  | superTypeArgument
  | typeParam
  | heritage
  | declarator
  | declaration
  | specifier
  | source
  | attributes
  | tag
  | chunk
  | label
  | handler
  | finalizer
  | clause
  | statement
  | attribute
  | child
  | opening
  | closing
  | constraint
  | fallback
  | returnType
deriving DecidableEq, Repr, Inhabited

inductive Access where
  | isPublic
  | isProtected
  | isPrivate
deriving DecidableEq, Repr

/-- What a method is called for. -/
inductive MethodSort where
  | method
  | getter
  | setter
deriving DecidableEq, Repr

structure FunctionFlags where
  isAsync : Bool := false
  isGenerator : Bool := false
deriving DecidableEq, Repr

/-- What stands in front of a class member's name. -/
structure MemberFlags where
  isStatic : Bool := false
  access : Option Access := none
  isOptional : Bool := false
  isOverride : Bool := false
  isAbstract : Bool := false
deriving DecidableEq, Repr

/-- What a node is. -/
inductive Kind where
  /-- An identifier, by the name that it spells. -/
  | name (text : String)
  /-- A name with a number sign before it. -/
  | privateName (text : String)
  | this
  | super
  | string (value : String)
  /-- A number, as it is spelled. -/
  | number (spelling : String)
  | bigInteger
  | constant (word : String)
  | regex
  | template
  | templateChunk
  | taggedTemplate
  | array
  | object
  | property
  | shorthand
  | shorthandDefault
  | objectMethod (flags : FunctionFlags)
  | objectGetter
  | objectSetter
  | spread
  /-- An expression in square brackets, as a key or after an object. -/
  | computed
  /-- A function, as a declaration or an expression. -/
  | function (flags : FunctionFlags)
  | arrow (isAsync : Bool)
  | unary (operator : String)
  | updated (operator : String)
  | binary (operator : String)
  | assign (operator : String)
  | conditional
  | sequence
  | member
  | superMember
  /-- An optional chain around a member access or an optional call. -/
  | chain (isOptional : Bool)
  | call
  | optionalCall
  | importRef
  | construct
  | yield
  | await
  | parenthesized
  | metaProperty
  | asType
  | asConst
  | satisfies
  | nonNull
  | instantiation
  /-- What stands where an expression or a pattern is missing. -/
  | missing
  | element
  | fragment
  | openingTag
  | closingTag
  | attribute
  | spreadAttribute
  | spreadChild
  | container
  | emptyContainer
  | markupText
  | memberTag
  | namespacedName
  | arrayPattern
  | objectPattern
  | restPattern
  | defaultPattern
  | patternProperty
  | patternShorthand
  | parameter
  | fieldParameter
  | decorator
  /-- A class, as a declaration or an expression. -/
  | classDef
  | constructorDef (flags : MemberFlags)
  | method (sort : MethodSort) (flags : MemberFlags) (functionFlags : FunctionFlags)
  | field (flags : MemberFlags)
  | accessor (flags : MemberFlags)
  | staticBlock
  | indexSignature
  /-- A type and the colon in front of it. -/
  | colonType
  | typeKeyword (word : String)
  | typeRef
  | qualifiedName
  | functionType
  | constructorType
  | unionType
  | intersectionType
  | arrayType
  | indexedType
  | tupleType
  | tupleElement
  | optionalType
  | restType
  | conditionalType
  | inferType
  | operatorType (operator : String)
  | mappedType
  | literalType
  | templateType
  | queryType
  | importType
  | predicateType
  | thisType
  | parenthesizedType
  | typeLiteral
  | typeParameter
  | propertySignature (isOptional : Bool)
  | methodSignature (isOptional : Bool)
  | callSignature
  | constructSignature
  | getterSignature
  | setterSignature
  | heritageClause
  | block
  | empty
  | debuggerStatement
  | withStatement
  | returnStatement
  | labeledStatement
  | breakStatement
  | continueStatement
  | ifStatement
  | switchStatement
  | switchCase
  | throwStatement
  | tryStatement
  | catchClause
  | whileStatement
  | doStatement
  | forStatement
  | forInStatement
  | forOfStatement
  | expressionStatement
  | variables (keyword : String)
  | declarator
  | usingVariables
  | interfaceDef
  | aliasDef
  | enumDef
  | enumMember
  | namespaceDef
  | namespaceBlock
  | importDef
  | importSpecifier
  | importEquals
  | exportDeclaration
  | exportDefaultDeclaration
  | exportDefaultExpression
  | exportNames
  | exportSpecifier
  | exportAll
  | exportEquals
  | exportNamespace
  | module
deriving DecidableEq, Repr, Inhabited

inductive Tree where
  | node (role : Role) (kind : Kind) (span : Span) (parts : List Tree)
deriving Inhabited

namespace Tree

def role : Tree → Role
  | node r _ _ _ => r

def kind : Tree → Kind
  | node _ k _ _ => k

def span : Tree → Span
  | node _ _ s _ => s

def parts : Tree → List Tree
  | node _ _ _ ps => ps

def as (r : Role) : Tree → Tree
  | node _ k s ps => node r k s ps

def all (r : Role) (t : Tree) : List Tree :=
  t.parts.filter (·.role = r)

def get? (r : Role) (t : Tree) : Option Tree :=
  t.parts.find? (·.role = r)

mutual

/-- The node and all nodes below it, each before its own parts. -/
def subtrees : Tree → List Tree
  | node r k s ps => node r k s ps :: subtreesOf ps

def subtreesOf : List Tree → List Tree
  | [] => []
  | t :: ts => subtrees t ++ subtreesOf ts

end

def withoutParens : Tree → Tree
  | node _ .parenthesized _ [inner] => inner.withoutParens
  | t => t

def name? (t : Tree) : Option String :=
  match t.kind with
  | .name text => some text
  | _ => none

end Tree

end Revue.Syntax

namespace Revue

-- Without this the name is ambiguous where another `Tree` is known, and is elaborated twice.
export Syntax (Tree)

end Revue
