import Revue.Proofs.WordTokens

/-!
# The properties that fields are assigned to

A field becomes a statement in which its name stands behind `this` and a dot. If the name is spelled
like a word, the statement assigns to the property of that name. Otherwise it does not, whatever it
is read as: behind the dot comes a word that is only the beginning of the name, or none.
-/

namespace Revue.Text.Double

variable {text : List Char}

/-! ### Numbers in a script -/

/-- The fewest digits of a number and their power of ten, counted from `-350`. -/
def shortest (m e : Nat) : Nat × Nat :=
  let n := m * pow2 e
  let d := pow2 1074
  let found := shortestOn (.finite m e) n d 350 (leading n d 350) 20 1
  dropZeros 400 found.1 found.2

/-- Writes `n · 10 ^ (p - 350)` as a script does: with an exponent where its digits are far from the
point. -/
def scientific (n p : Nat) : String :=
  let digits := Nat.toDigits 10 n
  let point := digits.length + p
  if 344 < point ∧ point ≤ 371 then positional n p 350
  else
    let fraction := if digits.length = 1 then [] else '.' :: digits.drop 1
    let exponent :=
      if 350 < point then '+' :: Nat.toDigits 10 (point - 351)
      else '-' :: Nat.toDigits 10 (351 - point)
    String.ofList (digits.take 1 ++ (fraction ++ 'e' :: exponent))

def scriptText : Double → String
  | .infinity => "Infinity"
  | .finite 0 _ => "0"
  | .finite m e => scientific (shortest m e).1 (shortest m e).2

def StartsWithDigit (text : List Char) : Prop :=
  ∃ c rest, text = c :: rest ∧ c.isDigit = true

theorem startsWithDigit_toDigits (n : Nat) : StartsWithDigit (Nat.toDigits 10 n) := by
  cases h : Nat.toDigits 10 n with
  | nil => exact absurd h Nat.toDigits_ne_nil
  | cons c rest =>
    have hc : c ∈ Nat.toDigits 10 n := by
      rw [h]
      exact List.mem_cons_self
    exact ⟨c, rest, rfl, Nat.isDigit_of_mem_toDigits (by decide) (by decide) hc⟩

theorem StartsWithDigit.append (h : StartsWithDigit text) (more : List Char) :
    StartsWithDigit (text ++ more) := by
  obtain ⟨c, rest, rfl, hc⟩ := h
  exact ⟨c, rest ++ more, rfl, hc⟩

theorem StartsWithDigit.take (h : StartsWithDigit text) {n : Nat} (hn : 0 < n) :
    StartsWithDigit (text.take n) := by
  obtain ⟨c, rest, rfl, hc⟩ := h
  obtain ⟨n, rfl⟩ := Nat.exists_eq_succ_of_ne_zero (Nat.ne_of_gt hn)
  exact ⟨c, rest.take n, rfl, hc⟩

theorem startsWithDigit_positional (n p q : Nat) :
    StartsWithDigit (positional n p q).toList := by
  have hdigits := startsWithDigit_toDigits n
  unfold positional
  dsimp only
  split
  · rw [String.toList_ofList]
    exact hdigits.append _
  · rw [String.toList_ofList]
    refine .append (.take ?_ ?_) _
    · cases q - p + 1 - (Nat.toDigits 10 n).length with
      | zero => exact hdigits
      | succ k => exact ⟨'0', List.replicate k '0' ++ Nat.toDigits 10 n, rfl, rfl⟩
    · simp only [List.length_append, List.length_replicate]
      omega

theorem startsWithDigit_scientific (n p : Nat) : StartsWithDigit (scientific n p).toList := by
  unfold scientific
  dsimp only
  split
  · exact startsWithDigit_positional _ _ _
  · rw [String.toList_ofList]
    exact ((startsWithDigit_toDigits n).take Nat.one_pos).append _

theorem startsWithDigit_scriptText {x : Double} (h : x ≠ .infinity) :
    StartsWithDigit x.scriptText.toList := by
  unfold scriptText
  split
  · exact absurd rfl h
  · exact ⟨'0', [], rfl, rfl⟩
  · exact startsWithDigit_scientific _ _

end Revue.Text.Double

namespace Revue.Analysis
open Text Syntax Component Vue

variable {key t v : Tree} {s' : State} {word : String}

/-! ### Properties -/

inductive PropertyName where
  | text (text : String)
  /-- A keyword that keeps its escapes. -/
  | escaped (word : String)
deriving DecidableEq, Repr

def PropertyName.ofWord (word : String) : PropertyName :=
  if '\\' ∈ word.toList then .escaped word else .text word

def literalText? (t : Tree) : Option String :=
  match t.kind with
  | .string text => some text
  | .number spelling => some (Double.ofLiteral spelling).scriptText
  | _ => none

def keyProperty? (key : Tree) : Option PropertyName :=
  match key.kind with
  | .name word => some (.ofWord word)
  | _ => (literalText? key).map .text

inductive IsPropertyOfThis : PropertyName → Tree → Prop
  | named {t : Tree} {word : String} (ht : memberOfThis? t = some word) (hword : IsWord word) :
      IsPropertyOfThis (.ofWord word) t
  | computed {role role' : Role} {span span' : Span} {object key : Tree} {text : String}
      (hobject : object.kind = .this) (hkey : literalText? key = some text) :
      IsPropertyOfThis (.text text)
        (.node role .member span [object, .node role' .computed span' [key]])

/-- A statement that assigns a value to the property of `this` that a key names. -/
def AssignsTo (key value t : Tree) : Prop :=
  ∃ target p, assignedIn? t = some (target, value) ∧ keyProperty? key = some p ∧
    IsPropertyOfThis p target

/-- A key that is spelled like a word. -/
def IsNameKey (key : Tree) : Prop :=
  match key.kind with
  | .name word => IsWord word
  | .string text => isNameText text.toList = true
  | _ => False

theorem PropertyName.ofWord_inj {word' : String} (h : ofWord word = ofWord word') :
    word = word' := by
  unfold ofWord at h
  split at h
  · split at h
    · exact PropertyName.escaped.inj h
    · cases h
  · split at h
    · cases h
    · exact PropertyName.text.inj h

theorem PropertyName.eq_of_ofWord {text : String} (h : ofWord word = .text text) :
    word = text ∧ '\\' ∉ word.toList := by
  unfold ofWord at h
  split at h
  · cases h
  · exact ⟨PropertyName.text.inj h, ‹_›⟩

theorem PropertyName.ofWord_of_isNameText (h : isNameText word.toList = true) :
    ofWord word = .text word := by
  refine if_neg fun hslash => ?_
  have hpart := List.all_eq_true.1 (Bool.and_eq_true_iff.1 h).2 _ hslash
  exact absurd hpart (by decide)

theorem not_isNameText_of_startsWithDigit {text : List Char} (h : Double.StartsWithDigit text) :
    isNameText text = false := by
  obtain ⟨c, rest, rfl, hc⟩ := h
  refine Bool.eq_false_iff.2 fun hname => ?_
  have hstart : isNameStart c = true := by simpa using (Bool.and_eq_true_iff.1 hname).1
  obtain ⟨-, hdigit, -⟩ := isSolid_of_start (Bool.or_eq_true_iff.2 (.inl hstart))
  rw [hc] at hdigit
  cases hdigit

section Read
variable {behind : Option Lexeme}

/-- The member that is accessed is the one that the word behind the dot names. -/
theorem exists_behind_of_memberOfThis? (h : FromThis behind t)
    (hmember : memberOfThis? t = some word) : ∃ keyword, behind = some (.word word keyword) := by
  obtain ⟨object', hnamed, hthis'⟩ := memberOfThis?_eq_some hmember
  obtain ⟨name, hkind, hparts, hname⟩ := namedMember?_eq_some hnamed
  rcases h with hthis | ⟨_, _, _, hproperty⟩ | hbeyond
  · rw [hkind] at hthis
    cases hthis
  · obtain ⟨-, hparts⟩ := List.cons.inj hparts
    obtain ⟨rfl, -⟩ := List.cons.inj hparts
    rcases hproperty with ⟨_, hprivate⟩ | ⟨name', keyword, hname', hbehind⟩
    · rw [hname] at hprivate
      cases hprivate
    · rw [hname] at hname'
      cases hname'
      exact ⟨keyword, hbehind⟩
  · simp [isBeyond, hkind, hparts, hthis'] at hbeyond

theorem not_fromThis_computed {role role' : Role} {span span' : Span} {object : Tree}
    (hobject : object.kind = .this) :
    ¬ FromThis behind (.node role .member span [object, .node role' .computed span' [key]]) := by
  rintro (hthis | ⟨_, _, _, ⟨_, hprivate⟩ | ⟨_, _, hname, -⟩⟩ | hbeyond)
  · cases hthis
  · cases hprivate
  · cases hname
  · change (object.kind != .this) = true at hbeyond
    simp [hobject] at hbeyond

end Read

/-- A value is read as an expression, up to the semicolon behind it. -/
structure ReadsValue (g : Grammar) (c : Context) (s : State) (value : Tree) (s' : State) :
    Prop where
  unbroken : s.isBroken = false
  reads : g.assign c s = .ok (value, s')
  semicolon : s'.token.lexeme = .mark .semi
  next : (s'.advance .script).isBroken = false

section Field
variable {key : Tree} {name : String} (hname : keyName? key = some name)
variable {s : State} {value : List Char}
  (hthis : ∃ text, s.token.lexeme = .word text (some .kThis))
  (hrest : s.rest = '.' :: name.toList ++ ' ' :: '=' :: ' ' :: value)
variable (n : Nat) (c : Context) (mayDeclare : Bool)
include hname

theorem isWord_of_isNameKey (hkey : IsNameKey key) :
    IsWord name ∧ keyProperty? key = some (.ofWord name) := by
  unfold IsNameKey at hkey
  unfold keyName? at hname
  unfold keyProperty? literalText?
  split at hkey
  · rename_i hkind
    rw [hkind] at hname ⊢
    obtain rfl := Option.some.inj hname
    exact ⟨hkey, rfl⟩
  · rename_i hkind
    rw [hkind] at hname ⊢
    obtain rfl := Option.some.inj hname
    refine ⟨isWord_of_isNameText hkey, ?_⟩
    rw [PropertyName.ofWord_of_isNameText hkey]
    rfl
  · exact hkey.elim

include hthis hrest

theorem exists_assignsTo (hkey : IsNameKey key)
    (hvalue : ReadsValue (Grammar.stack (n + 1) .none) c.inStatement.bracketed
      (s.atExpression.further 4) v s') :
    ∃ t, (Grammar.stack (n + 3) .none).statement c mayDeclare s = .ok (t, s'.advance .script) ∧
      AssignsTo key (v.as .right) t := by
  obtain ⟨hword, hproperty⟩ := isWord_of_isNameKey hname hkey
  have haccess := atAccess_of_isWord (s := s.atExpression) hword hthis hrest hvalue.unbroken
  rw [Grammar.stack_succ] at hvalue
  obtain ⟨t, target, hread, hassign, hmember⟩ :=
    run_statementOf_of_this haccess hvalue.reads hvalue.semicolon hvalue.next mayDeclare
  refine ⟨t, ?_, target, _, hassign, hproperty, .named hmember hword⟩
  rw [Grammar.stack_succ, Grammar.stack_succ, Grammar.stack_succ]
  exact hread

theorem not_assignsTo (hkey : ¬ IsNameKey key)
    (hread : (Grammar.stack (n + 3) .none).statement c mayDeclare s = .ok (t, s')) :
    ¬ AssignsTo key v t := by
  rintro ⟨target, p, hassign, hproperty, htarget⟩
  have hat : s.AtThis := ⟨hthis, isDotted_advance hrest⟩
  rw [Grammar.stack_succ, Grammar.stack_succ, Grammar.stack_succ] at hread
  have hfrom := statementOf_of_this c hat (tailsBeyond_stack n) mayDeclare hread _ hassign
  cases htarget with
  | @named _ word hmember hword =>
    obtain ⟨keyword, hbehind⟩ := exists_behind_of_memberOfThis? hfrom hmember
    unfold IsNameKey at hkey
    unfold keyName? at hname
    unfold keyProperty? literalText? at hproperty
    cases hkind : key.kind with
    | name word' =>
      rw [hkind] at hkey hproperty
      obtain rfl := PropertyName.ofWord_inj (Option.some.inj hproperty)
      exact hkey hword
    | string text =>
      rw [hkind] at hkey hproperty
      obtain ⟨rfl, hplain⟩ := PropertyName.eq_of_ofWord (Option.some.inj hproperty).symm
      exact hkey (hword.isNameText hplain)
    | number spelling =>
      rw [hkind] at hname hproperty
      obtain ⟨rfl, hplain⟩ := PropertyName.eq_of_ofWord (Option.some.inj hproperty).symm
      have htext := hword.isNameText hplain
      by_cases hinfinity : Double.ofLiteral spelling = .infinity
      · -- An infinite number has a word for its name, and another stands in the statement.
        obtain rfl : numberKey spelling = name := Option.some.inj hname
        rw [numberKey, hinfinity] at hrest
        have hinf : IsWord "inf" := isWord_of_isNameText (by decide)
        obtain ⟨keyword', hdot, hread, -⟩ := behindDot_of_isWord hinf hrest
        rw [State.behindDot, if_pos hdot, hread, hinfinity] at hbehind
        obtain ⟨hspelled, -⟩ := Lexeme.word.inj (Option.some.inj hbehind)
        exact absurd hspelled (by decide)
      · have hdigit := Double.startsWithDigit_scriptText hinfinity
        rw [not_isNameText_of_startsWithDigit hdigit] at htext
        cases htext
    | _ =>
      rw [hkind] at hproperty
      cases hproperty
  | computed hobject => exact not_fromThis_computed hobject hfrom

end Field

/-- A field of an instance is assigned to the property that its key names if and only if the key is
spelled like a word: the statement that it leaves is then read as a single assignment of its value,
and otherwise it is not read as an assignment to that property. -/
theorem created_assigns_iff_isNameKey {r : Reading} (component : String) (d : ClassDraft)
    {t key value : Tree} {flags : MemberFlags} {name : String} (hfield : t.kind = .field flags)
    (hstatic : flags.isStatic = false) (hkey : t.get? .key = some key)
    (hname : keyName? key = some name) (hstate : name ≠ "state")
    (hvalue : t.get? .value = some value) (hlaid : Laid r.source value) :
    ∃ statement text, (addClassMember r component d t).created = d.created ++ [statement] ∧
      replaceSites (fragmentOf r (.classMember none) value) = some text ∧
      replaceSites statement = some (("this." ++ name ++ " = ").toList ++ (text ++ [';'])) ∧
      ∀ (n : Nat) (c : Context) (mayDeclare : Bool) (s : State) (tail : List Char),
        s.token.lexeme = .word "this" (some .kThis) →
        "this".toList ++ s.rest = ("this." ++ name ++ " = ").toList ++ (text ++ ';' :: tail) →
        (IsNameKey key → ∀ v s',
          ReadsValue (Grammar.stack (n + 1) .none) c.inStatement.bracketed
            (s.atExpression.further 4) v s' →
          ∃ t', (Grammar.stack (n + 3) .none).statement c mayDeclare s =
              .ok (t', s'.advance .script) ∧ AssignsTo key (v.as .right) t') ∧
        (¬ IsNameKey key → ∀ t' v s',
          (Grammar.stack (n + 3) .none).statement c mayDeclare s = .ok (t', s') →
          ¬ AssignsTo key v t') := by
  obtain ⟨statement, text, hcreated, htext, hwritten⟩ :=
    addInstanceField_assigns d hlaid hstate
  have hprivate : privateKey? t = none := by
    rw [privateKey?, hkey]
    split
    · rename_i hnode
      obtain rfl := Option.some.inj hnode
      cases hname
    · rfl
  refine ⟨statement, text, ?_, htext, hwritten, ?_⟩
  · rw [addClassMember, hfield, hprivate]
    simp only [addField, hkey, hvalue, hstatic, Option.bind_some, hname, Bool.false_eq_true,
      if_false]
    exact hcreated
  · intro n c mayDeclare s tail hthis hstands
    have hrest : s.rest = '.' :: name.toList ++ ' ' :: '=' :: ' ' :: (text ++ ';' :: tail) := by
      simpa using hstands
    refine ⟨fun hnameKey v s' hread => ?_, fun hnameKey t' v s' hread => ?_⟩
    · exact exists_assignsTo hname ⟨_, hthis⟩ hrest n c mayDeclare hnameKey hread
    · exact not_assignsTo hname ⟨_, hthis⟩ hrest n c mayDeclare hnameKey hread

def firstField? (s : Setup) : Option (Tree × Tree × Tree) := do
  let t ← s.reading.module.tree.subtrees.find? (·.kind = .field {})
  let key ← t.get? .key
  let value ← t.get? .value
  return (t, key, value)

theorem firstField?_eq_some {s : Setup} {value : Tree} (h : firstField? s = some (t, key, value)) :
    t.kind = .field {} ∧ t.get? .key = some key ∧ t.get? .value = some value := by
  obtain ⟨t', ht, h⟩ := Option.bind_eq_some_iff.1 h
  obtain ⟨key', hkey, h⟩ := Option.bind_eq_some_iff.1 h
  obtain ⟨value', hvalue, h⟩ := Option.bind_eq_some_iff.1 h
  obtain ⟨rfl, rfl, rfl⟩ : t' = t ∧ key' = key ∧ value' = value := by simpa using h
  exact ⟨by simpa using List.find?_some ht, hkey, hvalue⟩

def quotedName : String := "class A \x7b \x27b\x27 = this.props.c; \x7d"

set_option maxRecDepth 100000 in
/-- The statement is read as an assignment to the property of that name. -/
theorem created_assigns_quotedName :
    ∃ s m t key value statement, setupOf? {} quotedName = some s ∧ modelOf s = .ok m ∧
      firstField? s = some (t, key, value) ∧ key.kind = .string "b" ∧ Laid s.reading.source value ∧
      (addClassMember s.reading "A" { model := {} } t).created = [statement] ∧
      replaceSites statement = some "this.b = this.c;".toList ∧
      ∃ t' v s', (Grammar.stack 8 .none).statement {} true
          (State.ofText "this.b = this.c;".toList) = .ok (t', s') ∧ AssignsTo key v t' := by
  obtain ⟨s, m, ⟨t, key, value⟩, hsetup, hmodel, hfound, hkind, hlaid, htext⟩ :=
    exists_found? {} quotedName firstField? (fun s _ x =>
      x.2.1.kind = .string "b" ∧ Laid s.reading.source x.2.2 ∧
      replaceSites (fragmentOf s.reading (.classMember none) x.2.2) = some "this.c".toList)
      (by decide +kernel)
  obtain ⟨hfield, hkey, hvalue⟩ := firstField?_eq_some hfound
  have hname : keyName? key = some "b" := by rw [keyName?, hkind]
  obtain ⟨statement, text, hcreated, htext', hwritten, hreads⟩ :=
    created_assigns_iff_isNameKey "A" { model := {} } hfield rfl hkey hname (by decide) hvalue hlaid
  obtain rfl : "this.c".toList = text := Option.some.inj (htext.symm.trans htext')
  refine ⟨s, m, t, key, value, statement, hsetup, hmodel, hfound, hkind, hlaid, hcreated,
    hwritten, ?_⟩
  have hnameKey : IsNameKey key := by
    rw [IsNameKey, hkind]
    decide
  obtain ⟨hthis, hrest, hunbroken, hvalue⟩ :
      (State.ofText "this.b = this.c;".toList).token.lexeme = .word "this" (some .kThis) ∧
      (State.ofText "this.b = this.c;".toList).rest = ".b = this.c;".toList ∧
      ((State.ofText "this.b = this.c;".toList).atExpression.further 4).isBroken = false ∧
      answers ((Grammar.stack 6 .none).assign (Context.bracketed (Context.inStatement {})))
        ((State.ofText "this.b = this.c;".toList).atExpression.further 4)
        (fun _ s' => s'.token.lexeme == .mark .semi && !(s'.advance .script).isBroken) = true := by
    decide +kernel
  obtain ⟨v, s', hread, hend⟩ := exists_of_answers hvalue
  simp only [Bool.and_eq_true, beq_iff_eq, Bool.not_eq_true'] at hend
  obtain ⟨t', hstatement, hassigns⟩ := (hreads 5 {} true _ [] hthis (by rw [hrest]; rfl)).1 hnameKey
    v s' ⟨hunbroken, hread, hend.1, hend.2⟩
  exact ⟨t', _, _, hstatement, hassigns⟩

def dottedName : String := "class A \x7b \x27a.b\x27 = 1; \x7d"

set_option maxRecDepth 100000 in
/-- The statement is read as an assignment, but not to the property of that name. -/
theorem created_misses_dottedName :
    ∃ s m t key value statement, setupOf? {} dottedName = some s ∧ modelOf s = .ok m ∧
      firstField? s = some (t, key, value) ∧ key.kind = .string "a.b" ∧
      Laid s.reading.source value ∧
      (addClassMember s.reading "A" { model := {} } t).created = [statement] ∧
      replaceSites statement = some "this.a.b = 1;".toList ∧
      ∃ t' s', (Grammar.stack 8 .none).statement {} true (State.ofText "this.a.b = 1;".toList) =
          .ok (t', s') ∧ (assignedIn? t').isSome ∧ ∀ v, ¬ AssignsTo key v t' := by
  obtain ⟨s, m, ⟨t, key, value⟩, hsetup, hmodel, hfound, hkind, hlaid, hcreated⟩ :=
    exists_found? {} dottedName firstField? (fun s _ x =>
      x.2.1.kind = .string "a.b" ∧ Laid s.reading.source x.2.2 ∧
      (addClassMember s.reading "A" { model := {} } x.1).created.map replaceSites =
        [some "this.a.b = 1;".toList]) (by decide +kernel)
  obtain ⟨statement, hstatement, hwritten⟩ := List.map_eq_singleton_iff.1 hcreated
  refine ⟨s, m, t, key, value, statement, hsetup, hmodel, hfound, hkind, hlaid, hstatement,
    hwritten, ?_⟩
  obtain ⟨hthis, hrest, hread⟩ :
      (State.ofText "this.a.b = 1;".toList).token.lexeme = .word "this" (some .kThis) ∧
      (State.ofText "this.a.b = 1;".toList).rest = ".a.b = 1;".toList ∧
      answers ((Grammar.stack 8 .none).statement {} true) (State.ofText "this.a.b = 1;".toList)
        (fun t' _ => (assignedIn? t').isSome) = true := by
    decide +kernel
  obtain ⟨t', s', hstatement', hassignment⟩ := exists_of_answers hread
  have hname : keyName? key = some "a.b" := by rw [keyName?, hkind]
  have hnot : ¬ IsNameKey key := by
    rw [IsNameKey, hkind]
    decide
  refine ⟨t', s', hstatement', hassignment, fun v => ?_⟩
  exact not_assignsTo hname ⟨_, hthis⟩ (hrest.trans rfl) 5 {} true hnot hstatement'

end Revue.Analysis
