import Revue.Analysis.Reading
import Revue.Proofs.LaidTrees

/-!
# Scopes

Which names a node binds for its parts, in the code of a module: parameters, what a block declares,
variables that belong to the function around them. A chain goes from a node down to one below it. A
name is taken on a chain if one of its nodes binds the name for the next one, so that at its end the
name does not mean what it means at its start.
-/

namespace Revue.Syntax
open Analysis

def Kind.patternRole? : Kind → Option Role
  | .arrayPattern | .objectPattern => some .item
  | .restPattern => some .operand
  | .patternProperty | .parameter | .fieldParameter => some .value
  | .patternShorthand => some .key
  | .defaultPattern => some .left
  | _ => none

mutual

def patternNodes : Tree → List Tree
  | .node r k s ps =>
    .node r k s ps ::
      (match k.patternRole? with
        | some role => patternNodesIn role ps
        | none => [])

def patternNodesIn (role : Role) : List Tree → List Tree
  | [] => []
  | t :: ts => (if t.role = role then patternNodes t else []) ++ patternNodesIn role ts

end

def patternNames (t : Tree) : List String :=
  (patternNodes t).filterMap (·.name?)

/-- Whether something is evaluated when a pattern is bound: a value that stands in for a missing
one, or a computed key. -/
def hasPatternExpression (t : Tree) : Bool :=
  (patternNodes t).any fun n =>
    match n.kind with
    | .defaultPattern => true
    | .patternShorthand => (n.get? .value).isSome
    | .patternProperty => (n.get? .key).any (·.kind = .computed)
    | _ => false

def variableNames (t : Tree) : List String :=
  (t.all .declarator).flatMap fun d => (d.all .name).flatMap patternNames

/-- The name that a declaration gives to what it declares; of a name with dots the first part. -/
def ownNames (t : Tree) : List String :=
  (t.all .name).filterMap fun n => n.name?.or ((n.get? .name).bind (·.name?))

def lexicalNames (t : Tree) : List String :=
  match t.kind with
  | .variables keyword => if keyword = "var" then [] else variableNames t
  | .usingVariables => variableNames t
  | .classDef | .enumDef | .namespaceDef | .importEquals => ownNames t
  | _ => []

def functionNames (t : Tree) : List String :=
  match t.kind with
  | .function _ => ownNames t
  | _ => []

def Kind.isFunction : Kind → Bool
  | .function _ | .arrow _ | .objectMethod _ | .objectGetter | .objectSetter | .constructorDef _
  | .method _ _ _ => true
  | _ => false

mutual

def varNames : Tree → List String
  | .node r k s ps =>
    if k.isFunction || k = .classDef || k = .namespaceBlock then []
    else (if k = .variables "var" then variableNames (.node r k s ps) else []) ++ varNamesIn ps

def varNamesIn : List Tree → List String
  | [] => []
  | t :: ts => varNames t ++ varNamesIn ts

end

def declarationOf (t : Tree) : Tree :=
  (t.get? .declaration).getD t

def blockNames (ts : List Tree) : List String :=
  ts.flatMap fun t => lexicalNames t ++ functionNames t

def scopeNames (t p : Tree) : List String :=
  match t.kind with
  | .function _ => "arguments" :: (ownNames t ++ if p.role = .body then varNames p else [])
  | .arrow _ => if p.role = .body then varNames p else []
  | .objectMethod _ | .objectGetter | .objectSetter | .constructorDef _ | .method _ _ _ =>
    "arguments" :: if p.role = .body then varNames p else []
  | .staticBlock => varNames p
  | .classDef => ownNames t
  | .block => blockNames (t.all .statement)
  | .switchStatement =>
    if p.role = .clause then
      (t.all .clause).flatMap fun clause => blockNames (clause.all .statement)
    else []
  | .forStatement => (t.all .initializer).flatMap lexicalNames
  | .forInStatement | .forOfStatement => (t.all .left).flatMap lexicalNames
  | .namespaceBlock =>
    let items := (t.all .item).map declarationOf
    blockNames items ++ items.flatMap varNames
  | .enumDef => (t.all .member).flatMap fun m => (m.all .key).filterMap keyName?
  | _ => []

/-- The names that a node binds for one of its parts. Keys and decorators stand outside. -/
def boundNames (t p : Tree) : List String :=
  if p.role = .key || p.role = .decorator then []
  else (t.all .param).flatMap patternNames ++ scopeNames t p

/-- Whether a chain goes from a parameter to one of its decorators, which stand outside of the
function. -/
def entersParameterMark (p : Tree) (rest : List Tree) : Bool :=
  (p.kind = .parameter || p.kind = .fieldParameter) && rest.head?.any (·.role = .decorator)

def isTaken (name : String) : List Tree → Bool
  | t :: p :: rest =>
    ((boundNames t p).contains name && !entersParameterMark p rest) || isTaken name (p :: rest)
  | _ => false

/-- Whether the body of a function binds a name anew that is one of its parameters. A variable or a
function is the parameter itself, unless the parameters are evaluated in a scope of their own. -/
def redeclares (name : String) (t : Tree) : Bool :=
  (t.get? .body).any fun body =>
    ((body.all .statement).flatMap lexicalNames).contains name ||
      (t.all .param).any hasPatternExpression &&
        (varNames body ++ (body.all .statement).flatMap functionNames).contains name

def withoutBodyBlock : List Tree → List Tree
  | [] => []
  | t :: rest => if t.role = .body && t.kind = .block then rest else t :: rest

/-- Whether the name of a parameter of a function has another meaning at the end of a chain in its
body. -/
def isCaptured (name : String) (t : Tree) (chain : List Tree) : Bool :=
  redeclares name t || isTaken name (withoutBodyBlock chain)

mutual

def chains : Tree → List (List Tree)
  | .node r k s ps => [.node r k s ps] :: chainsIn (.node r k s ps) ps

def chainsIn (above : Tree) : List Tree → List (List Tree)
  | [] => []
  | t :: ts => (chains t).map (above :: ·) ++ chainsIn above ts

end

theorem chainsIn_eq (above : Tree) (ts : List Tree) :
    chainsIn above ts = ts.flatMap fun t => (chains t).map (above :: ·) := by
  induction ts with
  | nil => rfl
  | cons t ts ih => rw [chainsIn, ih, List.flatMap_cons]

theorem chains_eq (t : Tree) :
    chains t = [t] :: t.parts.flatMap fun p => (chains p).map (t :: ·) := by
  cases t with
  | node r k s ps => rw [chains, chainsIn_eq]; rfl

/-- Every chain of a node starts there. -/
theorem exists_eq_cons_of_mem_chains {t : Tree} {chain : List Tree} (h : chain ∈ chains t) :
    ∃ rest, chain = t :: rest := by
  rw [chains_eq, List.mem_cons, List.mem_flatMap] at h
  rcases h with rfl | ⟨p, -, hchain⟩
  · exact ⟨[], rfl⟩
  · obtain ⟨rest, -, rfl⟩ := List.mem_map.1 hchain
    exact ⟨rest, rfl⟩

structure BindsNowhereElse (name : String) (t piece : Tree) : Prop where
  body : redeclares name t = false
  inside : ∀ n ∈ piece.subtrees, ∀ p ∈ n.parts, name ∉ boundNames n p

theorem isTaken_eq_false {name : String} (t : Tree)
    (h : ∀ n ∈ t.subtrees, ∀ p ∈ n.parts, name ∉ boundNames n p) {chain : List Tree}
    (hchain : chain ∈ chains t) : isTaken name chain = false := by
  induction t using Tree.induction generalizing chain with
  | h r k s ps ih =>
    rw [chains_eq, List.mem_cons, List.mem_flatMap] at hchain
    rcases hchain with rfl | ⟨p, hp, hchain⟩
    · rfl
    · obtain ⟨below, hbelow, rfl⟩ := List.mem_map.1 hchain
      have htail := ih p hp (fun n hn => h n (Tree.mem_subtrees_of_part hp hn)) hbelow
      obtain ⟨rest, rfl⟩ := exists_eq_cons_of_mem_chains hbelow
      have hself := h _ (Tree.mem_subtrees_self _) p hp
      simp [isTaken, hself, htail]

theorem isTaken_withoutBodyBlock {name : String} {chain : List Tree}
    (h : isTaken name chain = false) : isTaken name (withoutBodyBlock chain) = false := by
  cases chain with
  | nil => rfl
  | cons t rest =>
    rw [withoutBodyBlock]
    split
    · cases rest with
      | nil => rfl
      | cons p rest => exact (Bool.or_eq_false_iff.1 h).2
    · exact h

theorem BindsNowhereElse.isCaptured {name : String} {t piece : Tree}
    (h : BindsNowhereElse name t piece) {chain : List Tree} (hchain : chain ∈ chains piece) :
    isCaptured name t chain = false := by
  rw [Syntax.isCaptured, h.body, Bool.false_or]
  exact isTaken_withoutBodyBlock (isTaken_eq_false piece h.inside hchain)

end Revue.Syntax
