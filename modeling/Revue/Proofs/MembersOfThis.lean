import Revue.Proofs.CreatedStatements
import Revue.Proofs.ItemShapes
import Revue.Proofs.MovedCode

/-!
# Statements that start with `this` and a dot

Behind `this` and a dot a name is read, and with it an access to a member of `this`. Whatever else
follows makes another node of it: an access to a member of that member, a call, an operation. So if
such a statement is an assignment to a member of `this` at all, the member is the one that the name
right behind the dot spells; and it is one if an equals sign follows the name.
-/

namespace Revue.Syntax
open Text Analysis

variable {left object t : Tree} {α : Type} {s' : State}

/-! ### What is built on an operand -/

def Kind.isBuilt : Kind → Bool
  | .call | .taggedTemplate | .nonNull | .instantiation | .chain _ | .updated _ | .binary _
  | .asType | .asConst | .satisfies | .conditional | .missing => true
  | _ => false

/-- A node that is built on an operand and is no access to a member of `this`. -/
def isBeyond (t : Tree) : Bool :=
  match t.kind, t.parts with
  | .member, object :: _ => object.kind != .this
  | kind, _ => kind.isBuilt

theorem isBeyond_of_isBuilt (h : t.kind.isBuilt = true) : isBeyond t = true := by
  unfold isBeyond
  split
  · rename_i hkind _
    rw [hkind] at h
    cases h
  · exact h

theorem isBeyond_as (t : Tree) (r : Role) : isBeyond (t.as r) = isBeyond t := by
  cases t with
  | node _ k s ps => rfl

def GivesBeyond (p : Parser Tree) : Prop := Gives (fun t _ => isBeyond t = true) p

theorem Gives.attempt? {P : α → Prop} {p : Parser (Option α)}
    (hp : Gives (fun o _ => ∀ a ∈ o, P a) p) : Gives (fun o _ => ∀ a ∈ o, P a) (attempt? p) := by
  intro s o s' h
  unfold Syntax.attempt? at h
  split at h
  · rename_i a s₁ ha
    obtain ⟨rfl, -⟩ := Prod.mk.inj (Except.ok.inj h)
    exact hp ha
  · obtain ⟨rfl, -⟩ := Prod.mk.inj (Except.ok.inj h)
    simp
  · split at h
    · cases h
    · obtain ⟨rfl, -⟩ := Prod.mk.inj (Except.ok.inj h)
      simp

theorem Gives.iterateAtMost {I : α → Prop} {p : α → Parser (Option α)}
    (hp : ∀ a, I a → Gives (fun o _ => ∀ a' ∈ o, I a') (p a)) (n : Nat) {a : α} (ha : I a) :
    Gives (fun b _ => I b) (iterateAtMost p n a) := by
  induction n generalizing a with
  | zero => exact .fail
  | succ n ih =>
    refine .bind_of (hp a ha) fun o ho => ?_
    cases o with
    | none => exact .pure fun _ => ha
    | some a' => exact ih (ho a' rfl)

section Beyond
variable (g : Grammar) (c : Context) (start : Nat)

theorem callRest_beyond (callee : Tree) (isOptional : Bool) (types : List Tree) :
    GivesBeyond (callRest g c start callee isOptional types) := by
  refine .bind fun args => .ite (.ite (.bind fun _ => ?_) (.bind fun _ => ?_)) ?_
  · exact .bind fun _ => .pure fun _ => isBeyond_of_isBuilt rfl
  · exact .pure fun _ => isBeyond_of_isBuilt rfl
  · exact .close fun _ => isBeyond_of_isBuilt rfl

theorem instantiated_beyond (ht : isBeyond t = true) : GivesBeyond (instantiated g c start t) := by
  refine .bind fun types => ?_
  split
  · exact .close fun _ => isBeyond_of_isBuilt rfl
  · exact .pure fun _ => ht

theorem taggedTemplate_beyond (tag : Tree) (types : List Tree) :
    GivesBeyond (taggedTemplate g c start tag types) :=
  .bind fun _ => .close fun _ => isBeyond_of_isBuilt rfl

theorem isBeyond_chained (isOptional : Bool) (object : Tree) {inner : Tree}
    (hinner : isBeyond inner = true) : isBeyond (chained isOptional object inner) = true := by
  unfold chained
  split
  · exact isBeyond_of_isBuilt rfl
  · exact hinner

section Object
variable {object : Tree} (hthis : object.kind ≠ .this) (hsuper : object.kind ≠ .super)
include hthis hsuper

theorem memberAccess_beyond (property : Tree) (isOptional : Bool) :
    GivesBeyond (memberAccess c object property isOptional) := by
  unfold memberAccess
  rw [if_neg (by simpa using hsuper)]
  refine .close fun _ => ?_
  change ((object.as .object).kind != .this) = true
  simpa [Tree.kind_as] using hthis

/-- An access that was read, with the types that may follow it. -/
theorem accessed_beyond (property : Tree) (isOptional : Bool) :
    GivesBeyond (do
      let inner ← memberAccess c object property isOptional
      instantiated g c start (chained isOptional object inner)) :=
  .bind_of (memberAccess_beyond c hthis hsuper property isOptional) fun _ hinner =>
    instantiated_beyond g c start (isBeyond_chained isOptional object hinner)

theorem dotRest_beyond (isOptional : Bool) : GivesBeyond (dotRest g c start object isOptional) := by
  have haccess := fun property => accessed_beyond g c start hthis hsuper property isOptional
  have hproperty : ∀ p : Parser Tree, GivesBeyond (do
      let property ← p
      if object.kind == .importRef then fail
      let inner ← memberAccess c object property isOptional
      instantiated g c start (chained isOptional object inner)) :=
    fun p => .bind fun property => .ite (.bind fun _ => haccess property) (haccess property)
  refine .bind fun l => ?_
  dsimp only
  split
  · exact hproperty privateName
  · exact hproperty anyName

theorem indexRest_beyond (isOptional : Bool) :
    GivesBeyond (indexRest g c start object isOptional) := by
  have haccess := fun property => accessed_beyond g c start hthis hsuper property isOptional
  refine .bind fun _ => .bind fun _ => .bind fun _ => .bind fun _ => .bind fun property => ?_
  exact .ite (.bind fun _ => haccess property) (haccess property)

theorem optionalSubscript_beyond (noIndex : Bool) :
    GivesBeyond (optionalSubscript g c noIndex start object) := by
  refine .bind fun _ => .bind fun _ => .bind fun _ => .ite ?_ (.ite ?_ (.ite ?_ ?_))
  · exact indexRest_beyond g c start hthis hsuper true
  · exact callRest_beyond g c start object true []
  · exact .bind fun types => callRest_beyond g c start object true types
  · exact dotRest_beyond g c start hthis hsuper true

end Object

def GivesBeyond? (p : Parser (Option (Tree × Bool))) : Prop :=
  Gives (fun o _ => ∀ x ∈ o, isBeyond x.1 = true) p

theorem GivesBeyond.some {p : Parser Tree} (h : GivesBeyond p) (goes : Bool) :
    GivesBeyond? (do return some (← p, goes)) :=
  .bind_of h fun t ht => .pure fun _ => by simpa using ht

theorem givesBeyond?_none : GivesBeyond? (pure none) := .pure fun _ => by simp

theorem typedSubscript_beyond (noCall : Bool) (object : Tree) :
    GivesBeyond? (typedSubscript g c noCall start object) := by
  refine .attempt? (.bind fun types => ?_)
  have hwhole : GivesBeyond (close .instantiation start (object.as .operand :: types)) :=
    .close fun _ => isBeyond_of_isBuilt rfl
  have hcall := callRest_beyond g c start object false types
  refine .bind fun l => ?_
  split
  · exact .ite (.bind fun _ => hcall.some true) (hcall.some true)
  · exact (taggedTemplate_beyond g c start object types).some true
  · exact hwhole.some false
  · exact hwhole.some false
  · exact hwhole.some false
  · exact .bind fun _ => .ite (hwhole.some true) givesBeyond?_none

theorem subscript_beyond (hthis : object.kind ≠ .this) (hsuper : object.kind ≠ .super)
    (noCall noIndex : Bool) :
    GivesBeyond? (subscript g c noCall noIndex start object) := by
  have hnonNull : GivesBeyond (close .nonNull start [object.as .operand]) :=
    .close fun _ => isBeyond_of_isBuilt rfl
  have hcall := callRest_beyond g c start object false []
  have htagged := taggedTemplate_beyond g c start object []
  have hindex := indexRest_beyond g c start hthis hsuper false
  have hdot := dotRest_beyond g c start hthis hsuper false
  have hoptional := optionalSubscript_beyond g c start hthis hsuper noIndex
  refine .bind fun l => .bind fun isAfterBreak => .ite ?_ ?_
  · exact .ite (.bind fun _ => .bind fun _ => hnonNull.some true)
      (.bind fun _ => hnonNull.some true)
  refine .ite (.bind_of (typedSubscript_beyond g c start noCall object) fun typed htyped => ?_)
    (.bind_of givesBeyond?_none fun typed htyped => ?_)
  all_goals
    cases typed with
    | some result => exact .pure fun _ => htyped
    | none =>
      refine .bind fun isOptional => .ite (hoptional.some true) ?_
      split
      · exact .ite givesBeyond?_none (hindex.some true)
      · exact .ite (.ite (.bind fun _ => givesBeyond?_none) givesBeyond?_none) (hcall.some true)
      · exact .bind fun _ => hdot.some true
      · exact .ite (.bind fun _ => htagged.some true) (htagged.some true)
      · exact .ite .fail givesBeyond?_none

theorem kind_ne_of_isBeyond (h : isBeyond t = true) : t.kind ≠ .this ∧ t.kind ≠ .super := by
  obtain ⟨role, kind, span, parts⟩ := t
  constructor <;> (rintro rfl; cases h)

theorem subscripts_beyond (h : isBeyond object = true) (noCall noIndex : Bool) :
    GivesBeyond (subscripts g c noCall noIndex start object) := by
  refine .bind_of (Q := fun x => isBeyond x.1 = true) (fun s x s' hx => ?_) fun x hx =>
    .pure fun _ => hx
  refine Gives.iterateAtMost (I := fun x => isBeyond x.1 = true) ?_ _ h hx
  rintro ⟨t, goes⟩ ht
  have hkind := kind_ne_of_isBeyond ht
  exact .ite givesBeyond?_none (subscript_beyond g c start hkind.1 hkind.2 noCall noIndex)

def Grammar.TailsBeyond (g : Grammar) : Prop :=
  ∀ c least left, Gives (fun t _ => t = left ∨ isBeyond t = true) (g.binaryTail c least left)

variable {g}

/-- Binary operators behind what is built on an operand build on it again. -/
theorem Grammar.TailsBeyond.of_isBuilt (h : g.TailsBeyond) (least : Nat)
    (hleft : left.kind.isBuilt = true) : GivesBeyond (g.binaryTail c least left) := by
  refine (h c least left).mono fun t _ ht => ?_
  rcases ht with rfl | ht
  · exact isBeyond_of_isBuilt hleft
  · exact ht

theorem Grammar.TailsBeyond.step (h : g.TailsBeyond) : g.step.TailsBeyond := by
  intro c least left
  have hcast (isSatisfies : Bool) :
      Gives (fun t _ => t.kind.isBuilt = true) (castRest g c left isSatisfies) := by
    refine .bind fun _ => .bind fun isConst => .ite (.close fun _ => rfl) ?_
    refine .bind fun type => .close fun _ => ?_
    cases isSatisfies <;> rfl
  have hbuilt {t : Tree} (ht : t.kind.isBuilt = true) :
      Gives (fun t _ => t = left ∨ isBeyond t = true) (g.binaryTail c least t) :=
    (h.of_isBuilt c least ht).mono fun _ _ => Or.inr
  refine .bind fun l => .bind fun isAfterBreak => .ite ?_ ?_
  · exact .bind_of (hcast _) fun t ht => hbuilt ht
  refine .bind fun operator => ?_
  split
  · exact .pure fun _ => .inl rfl
  refine .ite (.pure fun _ => .inl rfl) (.ite (.bind fun _ => ?_) ?_)
  all_goals exact .bind fun _ => .bind fun _ => .bind fun _ => hbuilt rfl

theorem tailsBeyond_stack (n : Nat) : (Grammar.stack n .none).TailsBeyond := by
  induction n with
  | zero => exact fun _ _ _ => .fail
  | succ n ih =>
    rw [Grammar.stack_succ]
    exact ih.step

end Beyond

/-! ### Reading from a state -/

def GivesFrom {α : Type} (s : State) (P : α → State → Prop) (p : Parser α) : Prop :=
  ∀ ⦃a s'⦄, p s = .ok (a, s') → P a s'

theorem Gives.from {P : α → State → Prop} {p : Parser α} (h : Gives P p) (s : State) :
    GivesFrom s P p :=
  fun _ _ hp => h hp

namespace GivesFrom
variable {α β : Type} {s : State} {P : β → State → Prop} {Q : α → State → Prop}

theorem bind {p : Parser α} {f : α → Parser β} (hp : GivesFrom s Q p)
    (h : ∀ a s', Q a s' → GivesFrom s' P (f a)) : GivesFrom s P (p >>= f) := by
  intro b s' hb
  obtain ⟨a, s₁, hfirst, hb⟩ := exists_of_bind hb
  exact h a s₁ (hp hfirst) hb

/-- What is read first is known. -/
theorem after {p : Parser α} {f : α → Parser β} {a : α} (hrun : p s = .ok (a, s'))
    (h : GivesFrom s' P (f a)) : GivesFrom s P (p >>= f) := by
  intro b s'' hb
  rw [run_bind hrun] at hb
  exact h hb

theorem pure {b : β} (h : P b s) : GivesFrom s P (pure b : Parser β) := by
  intro b' s' hb
  obtain ⟨rfl, rfl⟩ := Prod.mk.inj (Except.ok.inj hb)
  exact h

theorem mono {p : Parser α} {P : α → State → Prop} (hp : GivesFrom s Q p)
    (h : ∀ a s', Q a s' → P a s') : GivesFrom s P p :=
  fun a s' ha => h a s' (hp ha)

theorem skip : GivesFrom s (fun _ s' => s' = s.advance .script) skip := by
  intro u s' h
  unfold Syntax.skip goOn at h
  split at h
  · cases h
  · exact (Prod.mk.inj (Except.ok.inj h)).2.symm

theorem peekMark (m : Mark) : GivesFrom s (fun _ s' => s' = s) (peekMark m) := by
  refine .bind (Q := fun _ s' => s' = s) ?_ fun t s' hs => .pure hs
  intro t s' h
  unfold peek at h
  dsimp only at h
  split at h
  · cases h
  · exact (Prod.mk.inj (Except.ok.inj h)).2.symm

theorem leaf (kind : Kind) :
    GivesFrom s (fun t s' => t.kind = kind ∧ s' = s.advance .script) (leaf kind) := by
  refine .after run_position (.bind skip fun _ s' hs t s'' h => ?_)
  obtain ⟨rfl, rfl⟩ := Prod.mk.inj (Except.ok.inj h)
  exact ⟨rfl, hs⟩

theorem recover {P : α → Prop} {p : Parser α} (hp : GivesFrom s (fun a _ => P a) p) :
    GivesFrom s (fun o _ => ∀ a ∈ o, P a) (recover p) := by
  intro o s' h
  unfold Syntax.recover at h
  split at h
  · rename_i a s₁ ha
    obtain ⟨rfl, -⟩ := Prod.mk.inj (Except.ok.inj h)
    simpa using hp ha
  · split at h
    · cases h
    · obtain ⟨rfl, -⟩ := Prod.mk.inj (Except.ok.inj h)
      simp

/-- What the first round gives and each further one keeps. -/
theorem iterate {I : α → Prop} {p : α → Parser (Option α)} {a : α}
    (hfirst : GivesFrom s (fun o _ => ∀ a' ∈ o, I a') (p a))
    (hp : ∀ a, I a → Gives (fun o _ => ∀ a' ∈ o, I a') (p a)) :
    GivesFrom s (fun b _ => b = a ∨ I b) (iterate p a) := by
  refine .bind hfirst fun o s' ho => ?_
  cases o with
  | none => exact .pure (.inl rfl)
  | some a' => exact ((Gives.iterateAtMost hp _ (ho a' rfl)).mono fun _ _ => .inr).from s'

end GivesFrom

/-! ### The member behind the dot -/

def State.behindDot (s : State) : Option Lexeme :=
  if s.token.lexeme = .mark .dot then some (s.advance .script).token.lexeme else none

def IsNamed (behind : Option Lexeme) (property : Tree) : Prop :=
  (∃ name, property.kind = .privateName name) ∨
    ∃ name keyword, property.kind = .name name ∧ behind = some (.word name keyword)

/-- What an operand that starts with `this` may be, given the token behind a dot: the access to the
member that the token names, or something that is built on an operand. -/
inductive Operand (behind : Option Lexeme) : Tree → Prop
  | member (role : Role) (span : Span) {object property : Tree} (hobject : object.kind = .this)
      (hproperty : IsNamed behind property) :
      Operand behind (.node role .member span [object, property])
  | beyond {t : Tree} (ht : isBeyond t = true) : Operand behind t

def FromThis (behind : Option Lexeme) (t : Tree) : Prop := t.kind = .this ∨ Operand behind t

/-- An expression that starts with `this`: something may be assigned to it, and others may follow it
behind commas. -/
inductive Assigned (behind : Option Lexeme) : Tree → Prop
  | plain {t : Tree} (ht : FromThis behind t) : Assigned behind t
  | assign (operator : String) (span : Span) {target value : Tree} (ht : FromThis behind target) :
      Assigned behind (.node .item (.assign operator) span [target, value])
  | sequence {t : Tree} (ht : t.kind = .sequence) : Assigned behind t

section Shapes
variable {behind : Option Lexeme} {t : Tree}

theorem Operand.kind_ne (h : Operand behind t) : t.kind ≠ .this ∧ t.kind ≠ .super := by
  cases h with
  | member => constructor <;> rintro ⟨⟩
  | beyond ht => exact kind_ne_of_isBeyond ht

theorem FromThis.of_isBuilt (h : t.kind.isBuilt = true) : FromThis behind t :=
  .inr (.beyond (isBeyond_of_isBuilt h))

theorem FromThis.kind (h : FromThis behind t) :
    t.kind = .this ∨ t.kind = .member ∨ t.kind.isBuilt = true := by
  rcases h with hthis | ⟨⟩ | ht
  · exact .inl hthis
  · exact .inr (.inl rfl)
  · unfold isBeyond at ht
    split at ht
    · exact .inr (.inl ‹_›)
    · exact .inr (.inr ht)

theorem FromThis.as (h : FromThis behind t) (role : Role) : FromThis behind (t.as role) := by
  obtain ⟨role', kind, span, parts⟩ := t
  rcases h with hthis | ⟨-, -, hobject, hproperty⟩ | ht
  · exact .inl hthis
  · exact .inr (.member _ _ hobject hproperty)
  · exact .inr (.beyond ((isBeyond_as _ role).trans ht))

/-- What starts with `this` is assigned to as it stands. -/
theorem FromThis.asPattern (h : FromThis behind t) : asPattern .target t = pure t := by
  have hkind := h.kind
  obtain ⟨role, kind, span, parts⟩ := t
  unfold Syntax.asPattern toPattern?
  -- An object, an array, dots or another assignment would be read anew.
  cases kind with
  | object | array | spread | assign => rcases hkind with hkind | hkind | hkind <;> cases hkind
  | _ => rfl

end Shapes

def Lexeme.isDotted : Lexeme → Bool
  | .mark .dot | .mark .dots | .number _ | .bigInteger | .bad => true
  | _ => false

section Object
variable (g : Grammar) (c : Context) (start : Nat) {s : State} {object : Tree}

theorem privateName_named :
    GivesFrom s (fun t _ => IsNamed (some s.token.lexeme) t) privateName := by
  refine .after run_lexeme ?_
  split
  · exact .mono (.leaf _) fun _ _ h => .inl ⟨_, h.1⟩
  · exact Gives.fail.from s

theorem anyName_named : GivesFrom s (fun t _ => IsNamed (some s.token.lexeme) t) anyName := by
  refine .after run_lexeme ?_
  split
  · rename_i hl
    exact .mono (.leaf _) fun _ _ h => .inr ⟨_, _, h.1, congrArg some hl⟩
  · exact Gives.fail.from s

variable (hthis : object.kind = .this)
include hthis

theorem isChain_of_this : isChain object = false := by
  obtain ⟨role, kind, span, parts⟩ := object
  obtain rfl : kind = .this := hthis
  rfl

/-- An access to a member of `this`, with the types that may follow it. -/
theorem accessed_of_this {behind : Option Lexeme} {property : Tree}
    (hproperty : IsNamed behind property) :
    Gives (fun t _ => Operand behind t) (do
      let inner ← memberAccess c object property false
      instantiated g c start (chained false object inner)) := by
  have hsuper : (object.kind == .super) = false := by simp [hthis]
  have haccess : Gives (fun t _ => Operand behind t) (memberAccess c object property false) := by
    rw [memberAccess, hsuper]
    refine .close fun _ => .member _ _ ((Tree.kind_as _ _).trans hthis) ?_
    rw [IsNamed, Tree.kind_as]
    exact hproperty
  refine .bind_of haccess fun inner hinner => ?_
  rw [chained, isChain_of_this hthis]
  refine .bind fun types => ?_
  split
  · exact .close fun _ => .beyond (isBeyond_of_isBuilt rfl)
  · exact .pure fun _ => hinner

theorem dotRest_of_this (s : State) :
    GivesFrom s (fun t _ => Operand (some s.token.lexeme) t)
      (dotRest g c start object false) := by
  have himport : (object.kind == .importRef) = false := by simp [hthis]
  have hproperty {p : Parser Tree}
      (hp : GivesFrom s (fun t _ => IsNamed (some s.token.lexeme) t) p) :
      GivesFrom s (fun t _ => Operand (some s.token.lexeme) t) (do
        let property ← p
        if object.kind == .importRef then fail
        let inner ← memberAccess c object property false
        instantiated g c start (chained false object inner)) := by
    refine .bind hp fun property s' hproperty => ?_
    rw [himport]
    exact (accessed_of_this g c start hthis hproperty).from s'
  refine .after run_lexeme ?_
  dsimp only
  split
  · exact hproperty privateName_named
  · exact hproperty anyName_named

variable (hdotted : s.token.lexeme.isDotted = true)
include hdotted

/-- Only a dot goes on with `this`. -/
theorem subscript_of_this (noCall noIndex : Bool) :
    GivesFrom s (fun o _ => ∀ x ∈ o, Operand s.behindDot x.1)
      (subscript g c noCall noIndex start object) := by
  have hbare : isBareCallee object = false := by simp [isBareCallee, hthis]
  have hbehind (hl : s.token.lexeme = .mark .dot) :
      s.behindDot = some (s.advance .script).token.lexeme := if_pos hl
  refine .after run_lexeme (.after run_afterBreak ?_)
  rw [hbare]
  generalize s.token.lexeme = l at hdotted hbehind ⊢
  unfold Lexeme.isDotted at hdotted
  split at hdotted
  · rw [hbehind rfl]
    refine .after rfl (.bind (.peekMark .dot) fun b s' hs => ?_)
    subst hs
    refine .bind .skip fun _ s'' hs => ?_
    subst hs
    refine .bind (dotRest_of_this g c start hthis _) fun t _ ht => .pure ?_
    simpa using ht
  case h_6 => cases hdotted
  all_goals
    refine .after rfl (.bind (.peekMark .dot) fun b s' hs => ?_)
    exact .pure (by simp)

/-- What follows `this` reads the member behind a dot, and then something that is built on it. -/
theorem subscripts_of_this (noCall noIndex : Bool) :
    GivesFrom s (fun t _ => FromThis s.behindDot t)
      (subscripts g c noCall noIndex start object) := by
  refine .bind (.iterate (I := fun x => Operand s.behindDot x.1) ?_ ?_) fun x s' hx => .pure ?_
  · exact subscript_of_this g c start hthis hdotted noCall noIndex
  · rintro ⟨t, goes⟩ ht
    have hstep := subscript_beyond g c start ht.kind_ne.1 ht.kind_ne.2 noCall noIndex
    exact .ite (.pure fun _ => by simp) (hstep.mono fun _ _ ho x hx => .beyond (ho x hx))
  · rcases hx with rfl | hx
    · exact .inl hthis
    · exact .inr hx

end Object

/-! ### Expressions and statements that start with `this` -/

structure State.AtThis (s : State) : Prop where
  this : ∃ word, s.token.lexeme = .word word (some .kThis)
  dotted : (s.advance .script).token.lexeme.isDotted = true

def assignedIn? (t : Tree) : Option (Tree × Tree) :=
  match t with
  | .node _ .expressionStatement _ [.node _ (.assign "=") _ [target, value]] => some (target, value)
  | _ => none

section Shapes
variable {behind : Option Lexeme} {e : Tree} (h : Assigned behind e)
include h

theorem Assigned.name? : e.name? = none := by
  cases h with
  | plain ht =>
    unfold Tree.name?
    split
    · rename_i hname
      have hkind := ht.kind
      rw [hname] at hkind
      rcases hkind with hkind | hkind | hkind <;> cases hkind
    · rfl
  | assign => rfl
  | sequence ht => rw [Tree.name?, ht]

theorem Assigned.fromThis {span : Span} :
    ∀ x ∈ assignedIn? (.node .item .expressionStatement span [e.as .operand]),
      FromThis behind x.1 := by
  rintro x hx
  unfold assignedIn? at hx
  split at hx
  · rename_i target value hnode
    obtain ⟨-, -, -, hparts⟩ := Tree.node.inj hnode
    obtain ⟨he, -⟩ := List.cons.inj hparts
    obtain rfl := Option.some.inj hx
    have hkind : e.kind = .assign "=" :=
      (Tree.kind_as e .operand).symm.trans (congrArg Tree.kind he)
    cases h with
    | plain ht =>
      have hplain := ht.kind
      rw [hkind] at hplain
      rcases hplain with hplain | hplain | hplain <;> cases hplain
    | assign operator span ht =>
      obtain ⟨-, -, -, hparts⟩ := Tree.node.inj he
      obtain ⟨rfl, -⟩ := List.cons.inj hparts
      exact ht
    | sequence ht =>
      rw [hkind] at ht
      cases ht
  · cases hx

end Shapes

def GivesFromThis (s : State) (p : Parser Tree) : Prop :=
  GivesFrom s (fun t _ => FromThis (s.advance .script).behindDot t) p

def GivesAssigned (s : State) (p : Parser Tree) : Prop :=
  GivesFrom s (fun t _ => Assigned (s.advance .script).behindDot t) p

section This
variable (g : Grammar) (c : Context) (start : Nat) {s : State}

theorem assignmentRest_of_this {behind : Option Lexeme} (h : FromThis behind left) :
    Gives (fun t _ => Assigned behind t) (assignmentRest g c start left) := by
  have hassign (operator : String) (value : Tree) : Gives (fun t _ => Assigned behind t)
      (close (.assign operator) start [left.as .left, value.as .right]) :=
    .close fun _ => .assign operator _ (h.as .left)
  unfold assignmentRest
  rw [h.asPattern]
  refine .bind fun l => ?_
  split
  · refine .ite (.pure fun _ => .plain h) ?_
    simp only [pure_bind, ite_self]
    refine .ite (.bind fun _ => ?_) ?_
    all_goals
      refine .ite (.bind fun _ => ?_) ?_
      all_goals exact .bind fun _ => .bind fun right => hassign _ right
  · exact .pure fun _ => .plain h

variable (h : s.AtThis)
include h

theorem primary_of_this :
    GivesFrom s (fun t s' => t.kind = .this ∧ s' = s.advance .script) (primary g c) := by
  obtain ⟨word, hl⟩ := h.this
  refine .after rfl ?_
  rw [hl]
  exact .leaf .this

theorem constructExpr_of_this : GivesFromThis s (constructExpr g c) := by
  obtain ⟨word, hl⟩ := h.this
  refine .after run_position (.after run_lexeme ?_)
  rw [hl]
  refine .bind (primary_of_this g c h) fun t s' ht => ?_
  obtain ⟨hthis, rfl⟩ := ht
  have harrow : isArrow t = false := by simp [isArrow, hthis]
  have hlt : (s.advance .script).token.lexeme.isMark .lt = false := by
    refine Bool.eq_false_iff.2 fun hlt => ?_
    have hdotted := h.dotted
    rw [eq_mark_of_isMark hlt] at hdotted
    cases hdotted
  have htypes : instantiation? g c (s.advance .script) = .ok (none, s.advance .script) := by
    rw [instantiation?, run_bind (run_atMark _), hlt]
    rfl
  rw [harrow]
  refine .after (a := t) ((run_bind htypes).trans rfl) ?_
  exact subscripts_of_this g c _ hthis h.dotted true false

theorem leftHandSide_of_this : GivesFromThis s (leftHandSide g c) := by
  obtain ⟨word, hl⟩ := h.this
  refine .after run_position (.after run_lexeme ?_)
  rw [hl]
  refine .bind (constructExpr_of_this g c h) fun t s' ht => Gives.from ?_ s'
  refine .ite (.pure fun _ => ht) (.bind fun types => .bind fun isCalled => .ite ?_ ?_)
  · refine .bind_of (callRest_beyond g c _ t false types) fun call hcall => ?_
    exact (subscripts_beyond g c _ hcall false false).mono fun _ _ h => .inr (.beyond h)
  · exact .pure fun _ => ht

theorem unaryExpr_of_this : GivesFromThis s (unaryExpr g c) := by
  obtain ⟨word, hl⟩ := h.this
  refine .after run_position (.after run_lexeme ?_)
  rw [hl]
  refine .bind (leftHandSide_of_this g c h) fun t s' ht => Gives.from ?_ s'
  refine .bind fun isAfterBreak => .ite (.pure fun _ => ht) (.bind fun l => ?_)
  split
  · exact .bind fun _ => .bind fun _ => .close fun _ => .of_isBuilt rfl
  · exact .bind fun _ => .bind fun _ => .close fun _ => .of_isBuilt rfl
  · exact .pure fun _ => ht

variable {g} (hg : g.TailsBeyond)
include hg

theorem binaryExpr_of_this : GivesFromThis s (binaryExpr g.step c) := by
  refine .after run_position (.bind (.recover (unaryExpr_of_this g c h)) fun o s' ho => ?_)
  refine Gives.from ?_ s'
  cases o with
  | none =>
    have hmissing : GivesBeyond (g.step.binaryTail c 0 (missing s.token.span.start)) :=
      hg.step.of_isBuilt c 0 rfl
    refine .bind fun isIn => .bind fun isInstanceof => .bind fun isMark => .ite ?_ .fail
    exact hmissing.mono fun _ _ h => .inr (.beyond h)
  | some left =>
    have hleft := ho left rfl
    refine .ite (.pure fun _ => hleft) ((hg.step c 0 left).mono fun t _ ht => ?_)
    rcases ht with rfl | ht
    · exact hleft
    · exact .inr (.beyond ht)

theorem conditionalExpr_of_this : GivesFromThis s (conditionalExpr g.step c) := by
  refine .after run_position (.bind (binaryExpr_of_this c h hg) fun t s' ht => ?_)
  refine Gives.from (.ite (.pure fun _ => ht) (.bind fun isTest => .ite ?_ (.pure fun _ => ht))) s'
  exact .bind fun _ => .bind fun _ => .bind fun _ => .pure fun _ => .of_isBuilt rfl

theorem assignmentExpr_of_this : GivesAssigned s (assignmentExpr g.step c) := by
  obtain ⟨word, hl⟩ := h.this
  have hplain : GivesAssigned s (plainAssignment g.step c) := by
    refine .after (run_atKeyword _) ?_
    rw [hl, show (Lexeme.word word (some .kThis)).isKeyword .kYield = false from rfl,
      Bool.and_false]
    refine .after run_position (.after run_lexeme (.after (run_modify _) ?_))
    have hexpr : s.atExpression.AtThis := ⟨h.this, h.dotted⟩
    refine .bind (conditionalExpr_of_this c hexpr hg) fun t s' ht => Gives.from ?_ s'
    split
    case h_6 => exact assignmentRest_of_this _ c _ ht
    all_goals exact .pure fun _ => .plain ht
  refine .after (run_atMark _) ?_
  rw [hl]
  exact hplain

theorem expression_of_this : GivesAssigned s (expression g.step.step c) := by
  refine .after run_position (.bind (assignmentExpr_of_this c h hg) fun t s' ht => Gives.from ?_ s')
  refine .bind fun hasMore => .ite (.bind fun rest => .close fun _ => .sequence rfl) ?_
  exact .pure fun _ => ht

theorem expressionStatement_of_this :
    GivesFrom s (fun t _ => ∀ x ∈ assignedIn? t, FromThis (s.advance .script).behindDot x.1)
      (expressionStatement g.step.step c start) := by
  refine .bind (expression_of_this c.bracketed h hg) fun e s' he => Gives.from ?_ s'
  have hclose {e : Tree} (he : Assigned (s.advance .script).behindDot e) :
      Gives (fun t _ => ∀ x ∈ assignedIn? t, FromThis (s.advance .script).behindDot x.1)
        (close .expressionStatement start [e.as .operand]) :=
    .close fun _ => he.fromThis
  rw [he.name?]
  refine .bind fun isLabel => .ite (.bind fun body => .close fun _ => by simp [assignedIn?]) ?_
  refine .bind_of (Q := (· = false)) (.pure fun _ => rfl) fun isInterface hinterface => ?_
  rw [if_neg (by simp [hinterface])]
  refine .bind fun isEnding => .ite (hclose he) (.bind fun isBinary => .ite ?_ .fail)
  refine .bind_of (hg.step.step c.bracketed 0 e) fun whole hwhole => hclose ?_
  rcases hwhole with rfl | hwhole
  · exact he
  · exact .plain (.inr (.beyond hwhole))

/-- If a statement that starts with `this` assigns to a member, it is the one behind the dot. -/
theorem statementOf_of_this (mayDeclare : Bool) :
    GivesFrom s (fun t _ => ∀ x ∈ assignedIn? t, FromThis (s.advance .script).behindDot x.1)
      (statementOf g.step.step c mayDeclare) := by
  obtain ⟨word, hl⟩ := h.this
  have hstart : s.token.lexeme.startsOperand = true := by rw [hl]; rfl
  have hbrace : s.token.lexeme ≠ .mark .lbrace := by simp [hl]
  intro t s' ht
  rw [run_statementOf_of_startsOperand hstart hbrace] at ht
  exact expressionStatement_of_this _ _ h hg ht

end This

/-! ### Assignments to a member of `this` -/

def State.further (s : State) : Nat → State
  | 0 => s
  | n + 1 => (s.further n).advance .script

section
variable {s : State}

theorem isBroken_of_advance {style : Style} (h : (s.advance style).isBroken = false) :
    s.isBroken = false := by
  unfold State.advance at h
  dsimp only at h
  generalize (_ : Scanned).fault = fault at h
  cases fault with
  | none => exact h
  | slip => exact h
  | breakdown => cases h

theorem kind_of_memberOfThis? {name : String} (h : memberOfThis? t = some name) :
    t.kind = .member := by
  obtain ⟨object, hnamed, -⟩ := memberOfThis?_eq_some h
  obtain ⟨-, hkind, -⟩ := namedMember?_eq_some hnamed
  exact hkind

theorem memberOfThis?_as (t : Tree) (r : Role) : memberOfThis? (t.as r) = memberOfThis? t := by
  rw [memberOfThis?, memberOfThis?, namedMember?_as]

/-- `this`, a dot, a word and an equals sign are the next tokens, and the one behind them does not
make reading break down. -/
structure State.AtAccess (s : State) (word : String) : Prop where
  this : ∃ text, s.token.lexeme = .word text (some .kThis)
  dot : (s.further 1).token.lexeme = .mark .dot
  word : ∃ keyword, (s.further 2).token.lexeme = .word word keyword
  equals : (s.further 3).token.lexeme = .mark .eq
  unbroken : (s.further 4).isBroken = false

section Access
variable (g : Grammar) (c : Context) (start : Nat) {word : String} (h : s.AtAccess word)
include h

theorem State.AtAccess.startsOperand : s.token.lexeme.startsOperand = true := by
  obtain ⟨text, hl⟩ := h.this
  rw [hl]
  rfl

theorem State.AtAccess.ends : (s.further 3).Ends := by
  refine ⟨?_, fun hline => ?_, h.unbroken⟩
  · rw [h.equals]
    rfl
  · rw [h.equals] at hline
    cases hline

theorem run_primary_of_this : ∃ t, t.kind = .this ∧ primary g c s = .ok (t, s.further 1) := by
  obtain ⟨text, hl⟩ := h.this
  have hnext : (s.advance .script).isBroken = false :=
    isBroken_of_advance (isBroken_of_advance (isBroken_of_advance h.unbroken))
  refine ⟨.node .item .this ⟨s.token.span.start, (s.advance .script).prevEnd⟩ [], rfl, ?_⟩
  rw [primary, run_bind (show (get : Parser State) s = .ok (s, s) from rfl), hl]
  exact run_leaf hnext .this

theorem run_dotRest_of_this (hthis : object.kind = .this) :
    ∃ t, memberOfThis? t = some word ∧
      dotRest g c start object false (s.further 2) = .ok (t, s.further 3) := by
  obtain ⟨keyword, hword⟩ := h.word
  have hnext : ((s.further 2).advance .script).isBroken = false := isBroken_of_advance h.unbroken
  have hlt : (s.further 3).token.lexeme.isMark .lt = false := by
    rw [h.equals]
    rfl
  have hname : anyName (s.further 2) = .ok (.node .item (.name word)
      ⟨(s.further 2).token.span.start, (s.further 3).prevEnd⟩ [], s.further 3) := by
    rw [anyName, run_bind run_lexeme, hword]
    exact run_leaf hnext (.name word)
  refine ⟨.node .item .member ⟨object.span.start, (s.further 3).prevEnd⟩ [object.as .object,
    .node .property (.name word) ⟨(s.further 2).token.span.start, (s.further 3).prevEnd⟩ []],
    ?_, ?_⟩
  · rw [memberOfThis?]
    change (if (object.as .object).kind = .this then some word else none) = some word
    rw [Tree.kind_as, if_pos hthis]
  rw [dotRest, run_bind run_lexeme, hword]
  change (anyName >>= _) _ = _
  rw [run_bind hname, hthis]
  change (memberAccess c object _ false >>= _) _ = _
  rw [memberAccess, hthis]
  change instantiated g c start (chained false object _) _ = _
  rw [chained, isChain_of_this hthis]
  exact run_instantiated g c start _ hlt

theorem run_subscript_of_dot (hthis : object.kind = .this) (noCall : Bool) :
    ∃ t, memberOfThis? t = some word ∧ subscript g c noCall false start object (s.further 1) =
      .ok (some (t, true), s.further 3) := by
  obtain ⟨t, ht, hdot⟩ := run_dotRest_of_this g c start h hthis
  have hmark {m : Mark} (hm : m ≠ .dot) : (s.further 1).token.lexeme.isMark m = false := by
    rw [h.dot]
    exact decide_eq_false hm.symm
  have hbare : isBareCallee object = false := by simp [isBareCallee, hthis]
  have hnext : ((s.further 1).advance .script).isBroken = false :=
    isBroken_of_advance (isBroken_of_advance h.unbroken)
  refine ⟨t, ht, ?_⟩
  rw [subscript, run_bind run_lexeme, run_bind run_afterBreak,
    hmark (by decide : Mark.bang ≠ .dot), hmark (by decide : Mark.lt ≠ .dot),
    hmark (by decide : Mark.question ≠ .dot)]
  simp only [Bool.false_and, Bool.false_eq_true, if_false, Bool.and_false, hbare, pure_bind]
  rw [run_bind (run_peekMark hnext .dot), h.dot]
  change (skip >>= _) _ = _
  rw [run_bind (run_skip hnext)]
  exact (run_bind hdot).trans rfl

theorem run_constructExpr_of_this :
    ∃ t, memberOfThis? t = some word ∧ constructExpr g c s = .ok (t, s.further 3) := by
  obtain ⟨this, hthis, hprimary⟩ := run_primary_of_this g c h
  obtain ⟨t, ht, hdot⟩ := run_subscript_of_dot g c s.token.span.start h hthis true
  have harrow : isArrow this = false := by simp [isArrow, hthis]
  have hlt : (s.further 1).token.lexeme.isMark .lt = false := by
    rw [h.dot]
    rfl
  have hbare : isBareCallee t = false := by simp [isBareCallee, kind_of_memberOfThis? ht]
  have hdone := subscript_stops g c s.token.span.start h.ends hbare true false
  refine ⟨t, ht, ?_⟩
  rw [constructExpr_of_operand h.startsOperand, run_bind hprimary, harrow]
  change (instantiated g c s.token.span.start this >>= _) _ = _
  rw [run_bind (run_instantiated g c _ this hlt)]
  exact (run_bind (iterate_of_some hdot hdone)).trans rfl

theorem run_conditionalExpr_of_this :
    ∃ t, memberOfThis? t = some word ∧ conditionalExpr g.step c s = .ok (t, s.further 3) := by
  obtain ⟨t, ht, hread⟩ := run_constructExpr_of_this g c h
  have hleft := run_leftHandSide_of_construct h.ends h.startsOperand hread
  exact ⟨t, ht, run_conditionalExpr_of_unary h.ends
    (run_unaryExpr_of_leftHandSide h.ends h.startsOperand hleft)⟩

end Access

/-- An assignment to a member of `this` is read as such, and ends at the semicolon behind it. -/
theorem run_statementOf_of_this {g : Grammar} {c : Context} {word : String} {value : Tree}
    (h : s.atExpression.AtAccess word)
    (hvalue : g.step.assign c.inStatement.bracketed (s.atExpression.further 4) = .ok (value, s'))
    (hsemi : s'.token.lexeme = .mark .semi) (hnext : (s'.advance .script).isBroken = false)
    (mayDeclare : Bool) :
    ∃ t target, statementOf g.step.step c mayDeclare s = .ok (t, s'.advance .script) ∧
      assignedIn? t = some (target, value.as .right) ∧ memberOfThis? target = some word := by
  obtain ⟨left, hleft, hread⟩ := run_conditionalExpr_of_this g c.inStatement.bracketed h
  have hkind := kind_of_memberOfThis? hleft
  have hstart : s.token.lexeme.startsOperand = true := h.startsOperand
  obtain ⟨text, hl⟩ : ∃ text, s.token.lexeme = .word text (some .kThis) := h.this
  have hbrace : s.token.lexeme ≠ .mark .lbrace := by simp [hl]
  have hassign := run_assignmentRest s.token.span.start (.inl hkind) h.equals (run_skip h.unbroken)
    hvalue
  have hends : EndsStatement [] s' (s'.advance .script) := .semicolon hsemi hnext
  have hexpr := run_assignmentExpr hstart hread hassign fun hcomposed => by
    rw [hkind] at hcomposed
    cases hcomposed
  refine ⟨_, left.as .left, (run_statementOf_of_startsOperand hstart hbrace mayDeclare).trans
    (run_expressionStatement _ hexpr hends.stops hends.run_eatEnding), rfl, ?_⟩
  rw [memberOfThis?_as, hleft]

end

end Revue.Syntax
