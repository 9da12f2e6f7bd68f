import Revue.Syntax.Module

/-!
# The nodes that items are read as

A statement is read as a node of one of few kinds, none of which is that of a default export. So a
default export at the top of a module comes from where the words `export default` are read, and it
ends where the declaration in it does: both are closed at the same token.
-/

namespace Revue.Syntax
open Text

variable {kind : Kind} {parts : List Tree} {p : Parser Tree}

/-! ### What a parser gives -/

/-- What a parser gives, and the state in which it leaves off, have a property. -/
def Gives {α : Type} (P : α → State → Prop) (p : Parser α) : Prop :=
  ∀ ⦃s a s'⦄, p s = .ok (a, s') → P a s'

theorem exists_of_bind {α β : Type} {p : Parser α} {f : α → Parser β} {s s' : State} {b : β}
    (h : (p >>= f) s = .ok (b, s')) : ∃ a s₁, p s = .ok (a, s₁) ∧ f a s₁ = .ok (b, s') := by
  change (p s >>= fun x => f x.1 x.2) = _ at h
  cases hfirst : p s with
  | error e =>
    rw [hfirst] at h
    cases h
  | ok x =>
    rw [hfirst] at h
    exact ⟨x.1, x.2, rfl, h⟩

namespace Gives
variable {α β : Type} {P : β → State → Prop} {Q : α → State → Prop}

theorem bind_at {p : Parser α} {f : α → Parser β} (hp : Gives Q p)
    (h : ∀ a s, Q a s → ∀ b s', f a s = .ok (b, s') → P b s') : Gives P (p >>= f) := by
  intro s b s' hb
  obtain ⟨a, s₁, hfirst, hb⟩ := exists_of_bind hb
  exact h a s₁ (hp hfirst) b s' hb

theorem bind_of {Q : α → Prop} {p : Parser α} {f : α → Parser β} (hp : Gives (fun a _ => Q a) p)
    (h : ∀ a, Q a → Gives P (f a)) : Gives P (p >>= f) :=
  bind_at hp fun a _ ha _ _ hb => h a ha hb

/-- What is read last decides. -/
theorem bind {p : Parser α} {f : α → Parser β} (h : ∀ a, Gives P (f a)) : Gives P (p >>= f) :=
  bind_of (Q := fun _ => True) (fun _ _ _ _ => trivial) fun a _ => h a

theorem ite {c : Prop} [Decidable c] {p q : Parser β} (hp : Gives P p) (hq : Gives P q) :
    Gives P (if c then p else q) := by
  split
  · exact hp
  · exact hq

theorem fail : Gives P (fail : Parser β) := fun _ _ _ h => nomatch h

theorem pure {b : β} (h : ∀ s, P b s) : Gives P (pure b : Parser β) := by
  intro s b' s' hb
  obtain ⟨rfl, rfl⟩ := Prod.mk.inj (Except.ok.inj hb)
  exact h s

theorem close {P : Tree → State → Prop} {start : Nat}
    (h : ∀ s : State, P (.node .item kind ⟨start, s.prevEnd⟩ parts) s) :
    Gives P (close kind start parts) := by
  intro s t s' ht
  obtain ⟨rfl, rfl⟩ := Prod.mk.inj (Except.ok.inj ht)
  exact h s

theorem mono {p : Parser α} {P : α → State → Prop} (hp : Gives Q p)
    (h : ∀ a s, Q a s → P a s) : Gives P p :=
  fun _ a s' ha => h a s' (hp ha)

theorem repeatAtMost {P : α → Prop} {p : Parser (Option α)}
    (hp : Gives (fun o _ => ∀ a ∈ o, P a) p) (n : Nat) :
    Gives (fun l _ => ∀ a ∈ l, P a) (repeatAtMost p n) := by
  induction n with
  | zero => exact .fail
  | succ n ih =>
    refine bind_of hp fun o ho => ?_
    cases o with
    | none => exact .pure fun _ => by simp
    | some a =>
      refine bind_of ih fun l hl => .pure fun _ => ?_
      simpa using ⟨ho a rfl, hl⟩

theorem many {P : α → Prop} {p : Parser (Option α)} (hp : Gives (fun o _ => ∀ a ∈ o, P a) p) :
    Gives (fun l _ => ∀ a ∈ l, P a) (many p) :=
  fun _ _ _ h => repeatAtMost hp _ h

end Gives

/-! ### Statements -/

def Kind.isStatement : Kind → Bool
  | .block | .empty | .debuggerStatement | .withStatement | .returnStatement | .labeledStatement
  | .breakStatement | .continueStatement | .ifStatement | .switchStatement | .throwStatement
  | .tryStatement | .whileStatement | .doStatement | .forStatement | .forInStatement
  | .forOfStatement | .expressionStatement | .variables _ | .usingVariables | .function _
  | .classDef | .interfaceDef | .aliasDef | .enumDef | .namespaceDef => true
  | _ => false

def GivesStatement (p : Parser Tree) : Prop := Gives (fun t _ => t.kind.isStatement = true) p

def GivesClosed (p : Parser Tree) : Prop :=
  Gives (fun t s => t.kind.isStatement = true ∧ t.span.stop = s.prevEnd) p

def GivesStatement? (p : Parser (Option Tree)) : Prop :=
  Gives (fun o _ => ∀ t ∈ o, t.kind.isStatement = true) p

def GivesLoop (p : Parser (Kind × List Tree)) : Prop :=
  Gives (fun x _ => x.1.isStatement = true) p

theorem GivesClosed.statement (h : GivesClosed p) : GivesStatement p :=
  h.mono fun _ _ ht => ht.1

theorem GivesStatement.some (h : GivesStatement p) : GivesStatement? (do return some (← p)) :=
  .bind_of h fun t ht => .pure fun _ => by simpa using ht

section Statements
variable (g : Grammar) (c : Context) (start : Nat) (marks : List Tree)

theorem functionDef_closed (isAsync : Bool) (place : FunctionPlace) :
    GivesClosed (functionDef g c start isAsync place) := by
  unfold functionDef
  repeat' first | refine .bind fun _ => ?_ | refine .ite ?_ ?_
  all_goals exact .close fun _ => ⟨rfl, rfl⟩

theorem variablesDef_statement (isLoop : Bool) :
    GivesStatement (variablesDef g c start isLoop) := by
  refine .bind fun l => ?_
  split
  · repeat' first | refine .bind fun _ => ?_ | refine .ite ?_ ?_
    all_goals exact .close fun _ => rfl
  · exact .fail

theorem classDef_closed (needsName : Bool) :
    GivesClosed (classDef g c start marks needsName) := by
  unfold classDef
  repeat' first | refine .bind fun _ => ?_ | refine .ite ?_ ?_
  all_goals exact .close fun _ => ⟨rfl, rfl⟩

theorem interfaceRest_closed : GivesClosed (interfaceRest g c start) := by
  unfold interfaceRest
  repeat' first | refine .bind fun _ => ?_ | refine .ite ?_ ?_
  all_goals exact .close fun _ => ⟨rfl, rfl⟩

theorem enumRest_statement : GivesStatement (enumRest g c start) :=
  .bind fun _ => .bind fun _ => .bind fun _ => .bind fun _ => .close fun _ => rfl

theorem aliasRest_statement : GivesStatement (aliasRest g c start) :=
  .bind fun _ => .bind fun _ => .bind fun _ => .bind fun _ => .bind fun _ => .close fun _ => rfl

theorem namespaceRest_statement : GivesStatement (namespaceRest g c start) :=
  .bind fun _ => .bind fun _ => .close fun _ => rfl

theorem ambientModuleRest_statement : GivesStatement (ambientModuleRest g c start) :=
  .bind fun _ => .bind fun _ => .ite (.bind fun _ => .close fun _ => rfl)
    (.bind fun _ => .close fun _ => rfl)

theorem forHead_loop : GivesLoop (forHead g c) := by
  unfold forHead
  repeat' first | refine .bind fun _ => ?_ | refine .ite ?_ ?_
  all_goals exact .pure fun _ => rfl

theorem forLoop_statement : GivesStatement (forLoop g c start) := by
  refine .bind fun _ => .bind fun _ => .bind fun _ => .bind_of (forHead_loop g c) fun x hkind => ?_
  repeat' first | refine .bind fun _ => ?_ | refine .ite ?_ ?_
  all_goals exact .close fun _ => hkind

theorem expressionStatement_statement : GivesStatement (expressionStatement g c start) := by
  unfold expressionStatement
  repeat' first | refine .bind fun _ => ?_ | refine .ite ?_ ?_
  all_goals first | exact .close fun _ => rfl | exact .fail

/-- A declaration that is read only under a condition. -/
theorem declares_statement {condition : Bool} (h : GivesStatement p) :
    GivesStatement? (if condition then do skip; return some (← p) else return none) :=
  .ite (.bind fun _ => h.some) (.pure fun _ => by simp)

theorem wordDeclaration?_statement (isSure : Bool) :
    GivesStatement? (wordDeclaration? g c start marks isSure) := by
  refine .bind fun next => .bind fun l => ?_
  dsimp only
  split
  · exact declares_statement (classDef_closed g c start marks true).statement
  · exact declares_statement (enumRest_statement g c start)
  · exact declares_statement (interfaceRest_closed g c start).statement
  · exact declares_statement (aliasRest_statement g c start)
  · exact declares_statement (namespaceRest_statement g c start)
  · refine .ite (.bind fun _ => .ite (.pure fun _ => by simp) ?_)
      (.bind fun _ => .ite (.pure fun _ => by simp) ?_)
    all_goals
      split
      · exact declares_statement (ambientModuleRest_statement g _ start)
      · exact declares_statement (namespaceRest_statement g c start)
  · exact .ite (ambientModuleRest_statement g c start).some (.pure fun _ => by simp)
  · exact .pure fun _ => by simp

theorem ambientDeclaration?_statement : GivesStatement? (ambientDeclaration? g c start marks) := by
  refine .bind fun l => ?_
  split
  · exact (functionDef_closed g _ start false .declaration).statement.some
  · exact (classDef_closed g _ start marks true).statement.some
  · exact .bind fun _ => .ite (.bind fun _ => .bind fun _ => (enumRest_statement g _ start).some)
      (variablesDef_statement g _ start false).some
  · exact (variablesDef_statement g _ start false).some
  · exact (variablesDef_statement g _ start false).some
  · exact (ambientModuleRest_statement g _ start).some
  · exact wordDeclaration?_statement g _ start marks true

theorem wordStatement_statement : GivesStatement (wordStatement g c start marks) := by
  refine .bind fun _ => .bind fun _ => .bind fun _ => .bind fun _ => .ite
    (.bind fun _ => .bind_of (ambientDeclaration?_statement g c _ marks) fun declared h => ?_)
    (.bind_of (wordDeclaration?_statement g c _ marks false) fun declared h => ?_)
  all_goals
    cases declared with
    | none => exact .bind fun _ => expressionStatement_statement g c start
    | some t => exact .pure fun _ => h t rfl

theorem keywordStatement_statement (k : Keyword) (mayDeclare : Bool) :
    GivesStatement (keywordStatement g c k start marks mayDeclare) := by
  have hexpression := expressionStatement_statement g c start
  unfold keywordStatement
  split
  case h_5 => exact forLoop_statement g c start
  case h_6 => exact .bind fun _ => (functionDef_closed g c _ false .declaration).statement
  case h_7 => exact (classDef_closed g c start marks true).statement
  case h_17 => exact variablesDef_statement g _ start false
  case h_18 =>
    have hconst : GivesStatement (do
        if ← peekKeyword .kEnum then
          skip
          skip
          enumRest g c start
        else variablesDef g c.bracketed start false) :=
      .bind fun _ => .ite (.bind fun _ => .bind fun _ => enumRest_statement g c start)
        (variablesDef_statement g _ start false)
    exact .ite (.bind fun _ => hconst) hconst
  case h_19 => exact .bind fun _ => .ite (variablesDef_statement g _ start false) hexpression
  case h_24 => exact .fail
  case h_25 => exact .ite hexpression (wordStatement_statement g c start marks)
  all_goals
    repeat' first | refine .bind fun _ => ?_ | refine .ite ?_ ?_
    all_goals first | exact .close fun _ => rfl | exact .pure fun _ => rfl | exact .fail

theorem statementOf_statement (mayDeclare : Bool) :
    GivesStatement (statementOf g c mayDeclare) := by
  refine .bind fun _ => .bind fun _ => .bind fun l => ?_
  split
  · exact .bind fun _ => .bind fun _ => .bind fun _ => .bind fun _ => .close fun _ => rfl
  · exact .bind fun _ => .bind fun _ => .close fun _ => rfl
  · exact keywordStatement_statement g _ _ _ _ mayDeclare
  · exact expressionStatement_statement g _ _

end Statements

/-! ### Items -/

/-- A default export ends where what it declares ends. -/
def EndsWithDeclaration (t : Tree) : Prop :=
  t.kind = .exportDefaultDeclaration → ∀ d ∈ t.parts, d.span.stop = t.span.stop

def GivesItem (p : Parser Tree) : Prop := Gives (fun t _ => EndsWithDeclaration t) p

section Items
variable (g : Grammar) (c : Context) (start : Nat) (marks : List Tree)

theorem close_item (h : kind ≠ .exportDefaultDeclaration) : GivesItem (close kind start parts) :=
  .close fun _ hkind => absurd hkind h

theorem GivesStatement.item (h : GivesStatement p) : GivesItem p := by
  refine h.mono fun t _ ht hkind => ?_
  rw [hkind] at ht
  cases ht

theorem GivesClosed.declared (h : GivesClosed p) :
    GivesItem (p >>= fun t => close .exportDefaultDeclaration start [t.as .declaration]) := by
  refine .bind_at h fun t s ht u s' hu => ?_
  obtain ⟨rfl, rfl⟩ := Prod.mk.inj (Except.ok.inj hu)
  intro _ d hd
  obtain rfl : d = t.as .declaration := by simpa [Tree.parts] using hd
  cases t with
  | node r k span ps => exact ht.2

theorem exportDefault_item : GivesItem (exportDefault g c start marks) := by
  refine .bind fun _ => .bind fun _ => .bind fun _ => .bind fun _ => .ite ?_ ?_
  · exact .bind fun _ => (classDef_closed g c _ _ false).declared start
  refine .bind fun _ => .bind fun _ => .bind fun _ => .ite ?_ ?_
  · exact .bind fun _ => .bind fun _ => .bind fun _ => (interfaceRest_closed g c _).declared start
  refine .bind fun _ => .ite ?_ ?_
  · exact (classDef_closed g c _ _ false).declared start
  refine .bind fun _ => .bind fun _ => .ite ?_ ?_
  · have hfunction : GivesClosed (functionExpr g c .exportDefault) :=
      .bind fun _ => .bind fun _ => functionDef_closed g c _ _ .exportDefault
    exact hfunction.declared start
  · exact .bind fun _ => .bind fun _ => close_item start (by decide)

theorem exportNames_item : GivesItem (exportNames g c start) := by
  unfold exportNames
  repeat' first | refine .bind fun _ => ?_ | refine .ite ?_ ?_
  all_goals exact close_item start (by decide)

theorem exportedDeclaration_item : GivesItem (exportedDeclaration g c start marks) := by
  unfold exportedDeclaration
  repeat' first | refine .bind fun _ => ?_ | refine .ite ?_ ?_
  all_goals exact close_item start (by decide)

theorem importEqualsRest_item (name : Tree) : GivesItem (importEqualsRest c start name) := by
  unfold importEqualsRest
  repeat' first | refine .bind fun _ => ?_ | refine .ite ?_ ?_
  all_goals exact close_item start (by decide)

theorem importEnd_item (phase : ImportPhase) (specifiers : List Tree) :
    GivesItem (importEnd g c start phase specifiers) :=
  .bind fun _ => .bind fun _ => close_item start (by decide)

theorem importAfterName_item (phase : ImportPhase) (name : Tree) :
    GivesItem (importAfterName g c start phase name) :=
  .bind fun _ => .ite (.bind fun _ => importEnd_item g c start phase _)
    (importEnd_item g c start phase _)

theorem importAfterDefault_item (name : Tree) : GivesItem (importAfterDefault g c start name) := by
  refine .bind fun _ => .ite (importEqualsRest_item c start name) ?_
  split
  · exact importAfterName_item g c start .evaluation name
  · rename_i phase _
    exact .bind fun _ => .ite (importEnd_item g c start phase [])
      (.bind fun _ => .bind fun _ => .bind fun _ => .ite
        (.bind fun _ => importAfterName_item g c start phase _)
        (importAfterName_item g c start .evaluation name))

theorem importAfterType_item (word : Tree) : GivesItem (importAfterType g c start word) :=
  .bind fun _ => .ite (importEnd_item g c start .evaluation []) (.bind fun _ => .bind fun _ =>
    .bind fun _ => .ite (.bind fun _ => importAfterDefault_item g c start _) (.bind fun _ =>
      .bind fun _ => .ite (.bind fun _ => importAfterDefault_item g c start _)
        (importAfterDefault_item g c start word)))

theorem importItem_item : GivesItem (importItem g c) := by
  refine .bind fun _ => .bind fun _ => .bind fun l => ?_
  split
  · exact .bind fun _ => .bind fun _ => .bind fun _ => close_item _ (by decide)
  · exact .bind fun _ => .ite (.bind fun _ => .bind fun _ => .ite (importAfterType_item g c _ _)
      (importAfterDefault_item g c _ _)) (importEnd_item g c _ .evaluation [])

theorem exportItem_item : GivesItem (exportItem g c marks) := by
  refine .bind fun start => .bind fun _ => .bind fun inner => .bind fun _ => .ite
    (.bind fun _ => .bind fun ambient => ?_) (.bind fun ambient => ?_)
  -- However a declaration was looked for, the rest depends on what was found.
  all_goals
    cases ambient
    all_goals first
      | refine .bind fun _ => .ite (.bind fun word => ?_) (.bind fun word => ?_)
      | refine .bind fun word => ?_
  all_goals
    cases word with
    | some t => exact close_item start (by decide)
    | none =>
      have himport : GivesItem (do
          let name ← anyName
          importEqualsRest c start name) :=
        .bind fun _ => importEqualsRest_item c start _
      refine .bind fun _ => .ite
        (.bind fun _ => .bind fun _ => .ite (.bind fun _ => himport) himport)
        (.bind fun _ => .ite (.bind fun _ => .bind fun _ => close_item start (by decide)) ?_)
      refine .bind fun _ => .ite
        (.bind fun _ => .bind fun _ => .bind fun _ => close_item start (by decide)) ?_
      refine .bind fun _ => .bind fun _ => .bind fun _ => .ite
        (.bind fun _ => exportNames_item g c start) (.bind fun _ => .ite ?_ ?_)
      · exact exportDefault_item g c start marks
      · exact exportedDeclaration_item g c start marks

theorem moduleItemOf_item (hg : ∀ c mayDeclare, GivesStatement (g.statement c mayDeclare)) :
    GivesItem (moduleItemOf g c) := by
  refine .bind fun _ => .bind fun _ => .bind fun l => ?_
  split
  · exact .bind fun _ => .ite (hg c true).item (importItem_item g c)
  · exact exportItem_item g c _
  · exact .bind fun _ => .ite (hg c true).item (.bind fun _ => .bind fun _ => .bind fun _ =>
      .bind fun _ => close_item _ (by decide))
  · exact .bind fun _ => (hg c true).item

end Items

/-! ### Modules -/

theorem Grammar.stack_succ (n : Nat) (g : Grammar) : stack (n + 1) g = (stack n g).step := by
  induction n generalizing g with
  | zero => rfl
  | succ n ih => exact ih g.step

theorem moduleBody_items (g : Grammar) (hg : ∀ c, GivesItem (g.moduleItem c)) :
    Gives (fun t _ => t.kind = .module ∧ ∀ u ∈ t.parts, EndsWithDeclaration u) (moduleBody g) := by
  have hitem : Gives (fun o _ => ∀ t ∈ o, EndsWithDeclaration t) (do
      if (← lexeme) == .eof then return none
      return some (← g.moduleItem {})) :=
    .bind fun _ => .ite (.pure fun _ => by simp)
      (.bind_of (hg {}) fun t ht => .pure fun _ => by simpa using ht)
  exact .bind_of (.many hitem) fun items hitems => .close fun _ => ⟨rfl, hitems⟩

theorem endsWithDeclaration_of_parse {source : List Char} {m : Module}
    (h : parse source = .ok m) :
    m.tree.kind = .module ∧ ∀ t ∈ m.items, EndsWithDeclaration t := by
  have hstatement : ∀ (n : Nat) (c : Context) (mayDeclare : Bool),
      GivesStatement ((Grammar.stack (n + 1) .none).statement c mayDeclare) := by
    intro n c mayDeclare
    rw [Grammar.stack_succ]
    exact statementOf_statement _ c mayDeclare
  have hitem : ∀ c, GivesItem
      ((Grammar.stack (4 * source.length + 16) .none).moduleItem c) := by
    intro c
    rw [Grammar.stack_succ]
    exact moduleItemOf_item _ c (hstatement _)
  unfold parse at h
  dsimp only at h
  split at h
  · rename_i tree s hbody
    have hitems := moduleBody_items _ hitem hbody
    split at h
    · cases h
    · obtain rfl := Except.ok.inj h
      exact hitems
  · cases h

end Revue.Syntax
