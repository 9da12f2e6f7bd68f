import Revue.Proofs.MovedCode

/-!
# Arrow functions in fields

A field that holds an arrow function becomes a method before a class is taken apart. The member that
is made of it is the one of the method written out, wherever the two stand: it has the same name,
role and flags, the same notes are made, and its body is the code of the arrow function, which is
returned in braces if it is an expression. Only the parameters may differ. Those of the method are
the patterns of the arrow function, and a pattern is not always all of a parameter: the dots of one
that takes the rest and the question mark of one that is optional are outside of it unless a type
follows, and so are decorators and words in front. The members are the same just when each
parameter is a pattern and nothing else.
-/

namespace Revue.Syntax
open Text

variable {isAsync : Bool} {span : Span} {arrow key t : Tree} {flags : MemberFlags}

def Kind.isField : Kind → Bool
  | field _ => true
  | _ => false

namespace Tree

/-- Fields are members of classes only. -/
def FieldsInClasses (t : Tree) : Prop :=
  ∀ n ∈ t.subtrees, n.kind.isField = true → n.role = .member

instance (t : Tree) : Decidable t.FieldsInClasses :=
  inferInstanceAs (Decidable (∀ n ∈ t.subtrees, n.kind.isField = true → n.role = .member))

theorem FieldsInClasses.of_mem {n : Tree} (h : t.FieldsInClasses) (hn : n ∈ t.subtrees) :
    n.FieldsInClasses :=
  fun m hm => h m (mem_subtrees_trans hn hm)

theorem FieldsInClasses.isField_eq_false (h : t.FieldsInClasses) (hrole : t.role ≠ .member) :
    t.kind.isField = false := by
  by_contra hfield
  exact hrole (h t t.mem_subtrees_self (by simpa using hfield))

/-! ### What a repair leaves in place -/

theorem fieldArrow?_of_isField_eq_false (h : t.kind.isField = false) : t.fieldArrow? = none := by
  cases harrow : t.fieldArrow? with
  | none => rfl
  | some arrow =>
    obtain ⟨flags, -, -, hkind, -⟩ := fieldArrow?_eq_some_iff.1 harrow
    rw [hkind] at h
    cases h

theorem arrowFieldsAsMethods_eq (t : Tree) : t.arrowFieldsAsMethods =
    (node t.role t.kind t.span (t.parts.map arrowFieldsAsMethods)).arrowFieldAsMethod := by
  cases t with
  | node r k s ps => exact arrowFieldsAsMethods_node r k s ps

theorem arrowFieldsAsMethods_of_isField_eq_false (h : t.kind.isField = false) :
    t.arrowFieldsAsMethods = node t.role t.kind t.span (t.parts.map arrowFieldsAsMethods) := by
  rw [arrowFieldsAsMethods_eq]
  exact arrowFieldAsMethod_of_none (fieldArrow?_of_isField_eq_false h)

theorem role_arrowFieldsAsMethods (h : t.FieldsInClasses) :
    t.arrowFieldsAsMethods.role = t.role := by
  by_cases hfield : t.kind.isField = true
  · rw [h t t.mem_subtrees_self hfield]
    obtain ⟨-, hrole | hrole, -⟩ := t.arrowFieldsAsMethods_shape
    · rw [hrole, h t t.mem_subtrees_self hfield]
    · exact hrole
  · rw [arrowFieldsAsMethods_of_isField_eq_false (by simpa using hfield), role]

theorem get?_eq_head?_all (t : Tree) (r : Role) : t.get? r = (t.all r).head? :=
  List.head?_filter.symm

section Parts
variable {t : Tree} (h : t.FieldsInClasses) (r : Role) (k : Kind) (s : Span) (role : Role)
include h

theorem all_map_arrowFieldsAsMethods :
    (node r k s (t.parts.map arrowFieldsAsMethods)).all role =
      (t.all role).map arrowFieldsAsMethods := by
  rw [all, parts, List.filter_map, all]
  refine congrArg _ (List.filter_congr fun p hp => ?_)
  have hrole := role_arrowFieldsAsMethods (h.of_mem (mem_subtrees_of_part hp p.mem_subtrees_self))
  simp [hrole]

theorem get?_map_arrowFieldsAsMethods :
    (node r k s (t.parts.map arrowFieldsAsMethods)).get? role =
      (t.get? role).map arrowFieldsAsMethods := by
  rw [get?_eq_head?_all, all_map_arrowFieldsAsMethods h, List.head?_map, get?_eq_head?_all]

end Parts

/-! ### The parts of the method -/

theorem filter_role {ts : List Tree} {r : Role} (h : ∀ p ∈ ts, p.role = r) (role : Role) :
    ts.filter (·.role = role) = if r = role then ts else [] := by
  split
  · rename_i heq
    exact List.filter_eq_self.2 fun p hp => by simpa [h p hp] using heq
  · rename_i hne
    exact List.filter_eq_nil_iff.2 fun p hp => by simpa [h p hp] using hne

theorem role_blockOf {body : Tree} (h : body.role = .body) : (blockOf body).role = .body := by
  unfold blockOf
  split
  · exact h
  · rfl

theorem all_methodOfArrow_of_ne (hkey : key.role = .key) {role : Role} (hne : role ≠ .key) :
    (methodOfArrow span flags key arrow isAsync).all role =
      (if .param = role then (arrow.all .param).map asParameter else []) ++
        (if .body = role then (arrow.all .body).map blockOf else []) ++
        (if .typeParam = role then arrow.all .typeParam else []) ++
        (if .returnType = role then arrow.all .returnType else []) := by
  have hrole : ∀ r, ∀ p ∈ arrow.all r, p.role = r := fun r p hp => (mem_all.1 hp).2
  have hparams : ∀ p ∈ (arrow.all .param).map asParameter, p.role = .param := by
    intro p hp
    obtain ⟨q, -, rfl⟩ := List.mem_map.1 hp
    rfl
  have hbodies : ∀ p ∈ (arrow.all .body).map blockOf, p.role = .body := by
    intro p hp
    obtain ⟨q, hq, rfl⟩ := List.mem_map.1 hp
    exact role_blockOf (hrole _ q hq)
  rw [all, methodOfArrow, parts, List.filter_cons_of_neg (by simpa [hkey] using hne.symm),
    List.filter_append, List.filter_append, List.filter_append, filter_role hparams,
    filter_role hbodies, filter_role (hrole .typeParam), filter_role (hrole .returnType)]

theorem all_methodOfArrow (hkey : key.role = .key) :
    (methodOfArrow span flags key arrow isAsync).all .param =
        (arrow.all .param).map asParameter ∧
      (methodOfArrow span flags key arrow isAsync).all .body = (arrow.all .body).map blockOf ∧
      (methodOfArrow span flags key arrow isAsync).all .typeParam = arrow.all .typeParam ∧
      (methodOfArrow span flags key arrow isAsync).all .returnType = arrow.all .returnType := by
  refine ⟨?_, ?_, ?_, ?_⟩ <;> rw [all_methodOfArrow_of_ne hkey (by decide)] <;> simp

end Tree

end Revue.Syntax

namespace Revue.Analysis
open Text Syntax Component

variable {c : Code} {body key t : Tree} {text : String} {r : Reading} {ps ws : List String}

/-! ### Repaired code -/

namespace Code

theorem ext {c' : Code} (htext : c.text = c'.text) (htree : c.tree = c'.tree) : c = c' := by
  cases c
  cases c'
  cases htext
  cases htree
  rfl

def repaired (c : Code) : Code where
  text := c.text
  tree := c.tree.arrowFieldsAsMethods
  span_eq := c.tree.arrowFieldsAsMethods_shape.1.trans c.span_eq
  within := fun s hs => c.within s (Tree.mem_spans_arrowFieldsAsMethods hs)

theorem tree_repaired (c : Code) : c.repaired.tree = c.tree.arrowFieldsAsMethods := rfl

/-- The body of the method that an arrow function with this body is. -/
def written (c : Code) : Code := if c.tree.kind = .block then c else c.returned

section
variable (h : c.tree.kind.isField = false)
include h

theorem repaired_returned : c.returned.repaired = c.repaired.returned := by
  have hoperand : ((c.tree.as .operand).shift 9).arrowFieldsAsMethods =
      (c.tree.arrowFieldsAsMethods.as .operand).shift 9 := by
    rw [Tree.arrowFieldsAsMethods_shift,
      Tree.arrowFieldsAsMethods_of_isField_eq_false (t := c.tree.as .operand) (by simpa using h),
      Tree.arrowFieldsAsMethods_of_isField_eq_false h, Tree.role_as, Tree.parts_as, Tree.kind_as,
      Tree.span_as]
    rfl
  refine ext rfl ?_
  rw [tree_repaired, tree_returned, Tree.arrowFieldsAsMethods_of_isField_eq_false rfl, Tree.parts,
    List.map_singleton, Tree.arrowFieldsAsMethods_of_isField_eq_false rfl, Tree.parts,
    List.map_singleton, hoperand]
  rfl

theorem kind_repaired : c.repaired.tree.kind = c.tree.kind := by
  rw [tree_repaired, Tree.arrowFieldsAsMethods_of_isField_eq_false h, Tree.kind]

theorem repaired_written : c.written.repaired = c.repaired.written := by
  unfold written
  rw [kind_repaired h]
  split
  · rfl
  · exact repaired_returned h

end

end Code

theorem Placed.repaired (h : Placed r t c) : Placed r t.arrowFieldsAsMethods c.repaired := by
  obtain ⟨before, after, hsource, rfl⟩ := h
  exact ⟨before, after, hsource, c.tree.arrowFieldsAsMethods_shift _⟩

theorem Placed.as (h : Placed r t c) (setting : Setting) (role : Role) :
    fragmentOf r setting (t.as role) = c.fragment setting ∧
      (updatersOf r setting (t.as role)).length = (c.updaters setting).length := by
  have hsame : fragmentOf r setting (t.as role) = fragmentOf r setting t := by
    rw [fragmentOf, fragmentOf, findings_as, Tree.span_as]
  obtain ⟨n, hupdaters⟩ := h.updatersOf_eq setting
  rw [hsame, updatersOf, findings_as, ← updatersOf, hupdaters, List.length_map]
  exact ⟨h.fragmentOf_eq setting, rfl⟩

/-! ### The bodies of both -/

/-- No statement covers all of a block. -/
def Braced (body : Tree) : Prop := ∀ s ∈ body.all .statement, s.span ≠ body.span

instance (body : Tree) : Decidable (Braced body) :=
  inferInstanceAs (Decidable (∀ s ∈ body.all .statement, s.span ≠ body.span))

theorem Braced.conciseBody?_eq_none (h : Braced body) : conciseBody? body = none := by
  unfold conciseBody?
  split
  · rename_i role span value hstatements
    have hne := h (.node role .returnStatement span [value])
      (by rw [hstatements]; exact List.mem_cons_self)
    exact if_neg hne
  · rfl

section Bodies
variable {r : Reading} {body : Tree} {c : Code}

theorem methodBody_of_placed (h : Placed r body c) (hbraced : Braced body) :
    methodBody r body = c.fragment (.classMember none) ∧
      (bodyUpdaters r body).length = (c.updaters (.classMember none)).length := by
  obtain ⟨n, hupdaters⟩ := h.updatersOf_eq (.classMember none)
  have hconcise := hbraced.conciseBody?_eq_none
  rw [methodBody, bodyUpdaters, hconcise, Option.getD_none, hupdaters, List.length_map]
  exact ⟨h.fragmentOf_eq _, rfl⟩

/-- The body that an arrow function is given as a method is the one that is written out. -/
theorem methodBody_blockOf (h : Placed r body c) (hbraced : body.kind = .block → Braced body) :
    methodBody r (Tree.blockOf body) = c.written.fragment (.classMember none) ∧
      (bodyUpdaters r (Tree.blockOf body)).length =
        (c.written.updaters (.classMember none)).length := by
  unfold Tree.blockOf Code.written
  rw [← h.kind_eq]
  split
  · rename_i hblock
    exact methodBody_of_placed h (hbraced hblock)
  · obtain ⟨hfragment, hupdaters⟩ := h.as (.classMember none) .operand
    have hconcise : conciseBody? (.node .body .block body.span
        [.node .statement .returnStatement body.span [body.as .operand]]) =
        some (body.as .operand) := if_pos rfl
    rw [methodBody, bodyUpdaters, hconcise, Option.getD_some, Code.fragment_returned,
      Code.updaters_returned, List.length_map, hupdaters]
    dsimp only
    rw [hfragment]
    exact ⟨rfl, rfl⟩

end Bodies

/-! ### What is made of a method -/

/-- A method of a class that has a body. -/
structure MethodDef where
  tree : Tree
  flags : MemberFlags
  key : Tree
  isAsync : Bool
  body : Tree
  kind_eq : tree.kind = .method .method flags ⟨isAsync, false⟩
  key_eq : tree.get? .key = some key
  body_eq : tree.get? .body = some body

def privateText? (key : Tree) : Option String :=
  match key.kind with
  | .privateName name => some ("#" ++ name)
  | _ => none

theorem privateKey?_eq (t : Tree) : privateKey? t = (t.get? .key).bind privateText? := by
  unfold privateKey?
  cases t.get? .key with
  | none => rfl
  | some key =>
    cases key with
    | node r k s ps => cases k <;> rfl

theorem keyName?_of_privateText? (h : privateText? key = some text) : keyName? key = none := by
  unfold privateText? at h
  split at h
  · rename_i name hkind
    rw [keyName?, hkind]
  · cases h

def nameNotes (name : String) (isStatic : Bool) (span : Span) : List Caveat :=
  if isStatic then [.staticMethod name span]
  else if roleOf name = .method && isUnsupportedLifecycle name then
    [.unsupportedLifecycle name span]
  else []

def methodNotes (key : Tree) (isStatic : Bool) (span : Span) : List Caveat :=
  match privateText? key, keyName? key with
  | some text, _ => [.member text span]
  | none, none => [.member "computed method" span]
  | none, some name => nameNotes name isStatic span

def methodMembers (key : Tree) (isStatic isAsync : Bool) (params : List String) (body : Fragment)
    (comments : List String) : List Member :=
  (keyName? key).toList.map fun name =>
    { name := name
      role := if isStatic then .static else roleOf name
      params := ", ".intercalate params
      body := body
      isAsync := isAsync
      isGenerator := false
      leadingComments := comments }

theorem addCaveats_append (m : Model) (first second : List Caveat) :
    m.addCaveats (first ++ second) = (m.addCaveats first).addCaveats second := by
  simp [Model.addCaveats, CaveatLog.extend]

theorem addCaveats_nil (m : Model) : m.addCaveats [] = m := by
  simp [Model.addCaveats, CaveatLog.extend]

theorem addNamedMethod_eq (r : Reading) (d : ClassDraft) (t body : Tree) (name : String)
    (isStatic : Bool) (flags : FunctionFlags) :
    addNamedMethod r d t body name .method isStatic flags =
      addMember r { d with model := d.model.addCaveats (nameNotes name isStatic t.span) } t body
        name (if isStatic then .static else roleOf name) flags := by
  unfold addNamedMethod nameNotes
  cases isStatic with
  | true => rfl
  | false =>
    rw [if_neg Bool.false_ne_true, if_neg Bool.false_ne_true, if_neg Bool.false_ne_true]
    dsimp only
    split
    · rfl
    · rw [addCaveats_nil]

namespace MethodDef
variable (m : MethodDef)

def params (r : Reading) : List String := (m.tree.all .param).map fun p => r.text p.span

theorem addClassMember_eq (r : Reading) (component : String) (d : ClassDraft) :
    addClassMember r component d m.tree =
      { d with
        model := d.model.addCaveats (methodNotes m.key m.flags.isStatic m.tree.span ++
          (keyName? m.key).toList.flatMap fun _ => (bodyUpdaters r m.body).map .stateUpdater)
        members := d.members ++ methodMembers m.key m.flags.isStatic m.isAsync (m.params r)
          (methodBody r m.body) (r.leadingComments m.tree.span.start) } := by
  have hprivateKey : privateKey? m.tree = privateText? m.key := by
    rw [privateKey?_eq, m.key_eq, Option.bind_some]
  rw [methodNotes, methodMembers]
  cases hprivate : privateText? m.key with
  | some text =>
    rw [keyName?_of_privateText? hprivate]
    simp only [addClassMember, m.kind_eq, hprivateKey, hprivate]
    simp only [Option.toList_none, List.flatMap_nil, List.map_nil, List.append_nil]
    rfl
  | none =>
    simp only [addClassMember, m.kind_eq, hprivateKey, hprivate, addMethod, m.key_eq, m.body_eq,
      Option.bind_some]
    cases keyName? m.key with
    | none =>
      simp only [Option.toList_none, List.flatMap_nil, List.map_nil, List.append_nil]
      rfl
    | some name =>
      simp only [Option.toList_some, List.flatMap_singleton, List.map_singleton,
        addNamedMethod_eq, addCaveats_append]
      rfl

end MethodDef

section Keys
variable {key key' : Tree} (h : key.kind = key'.kind)
include h

theorem keyName?_congr : keyName? key = keyName? key' := by rw [keyName?, keyName?, h]

theorem methodNotes_congr (isStatic : Bool) (span : Span) :
    methodNotes key isStatic span = methodNotes key' isStatic span := by
  rw [methodNotes, methodNotes, keyName?_congr h, privateText?, privateText?, h]

theorem methodMembers_congr (isStatic isAsync : Bool) (params : List String) (body : Fragment)
    (comments : List String) :
    methodMembers key isStatic isAsync params body comments =
      methodMembers key' isStatic isAsync params body comments := by
  rw [methodMembers, methodMembers, keyName?_congr h]

end Keys

def MethodDef.repaired (m : MethodDef) (h : m.tree.FieldsInClasses) : MethodDef where
  tree := m.tree.arrowFieldsAsMethods
  flags := m.flags
  key := m.key.arrowFieldsAsMethods
  isAsync := m.isAsync
  body := m.body.arrowFieldsAsMethods
  kind_eq := by
    rw [Tree.arrowFieldsAsMethods_of_isField_eq_false (by rw [m.kind_eq]; rfl)]
    exact m.kind_eq
  key_eq := by
    rw [Tree.arrowFieldsAsMethods_of_isField_eq_false (by rw [m.kind_eq]; rfl),
      Tree.get?_map_arrowFieldsAsMethods h, m.key_eq, Option.map_some]
  body_eq := by
    rw [Tree.arrowFieldsAsMethods_of_isField_eq_false (by rw [m.kind_eq]; rfl),
      Tree.get?_map_arrowFieldsAsMethods h, m.body_eq, Option.map_some]

theorem MethodDef.params_repaired (m : MethodDef) (h : m.tree.FieldsInClasses) (r : Reading) :
    (m.repaired h).params r = m.params r := by
  change (m.tree.arrowFieldsAsMethods.all .param).map _ = _
  rw [Tree.arrowFieldsAsMethods_of_isField_eq_false (by rw [m.kind_eq]; rfl),
    Tree.all_map_arrowFieldsAsMethods h, List.map_map]
  refine List.map_congr_left fun p _ => ?_
  rw [Function.comp_apply, p.arrowFieldsAsMethods_shape.1]

theorem MethodDef.addClassMember_repaired (m : MethodDef) (h : m.tree.FieldsInClasses)
    (r : Reading) (component : String) (d : ClassDraft) :
    addClassMember r component d m.tree.arrowFieldsAsMethods =
      { d with
        model := d.model.addCaveats (methodNotes m.key m.flags.isStatic m.tree.span ++
          (keyName? m.key).toList.flatMap fun _ =>
            (bodyUpdaters r m.body.arrowFieldsAsMethods).map .stateUpdater)
        members := d.members ++ methodMembers m.key m.flags.isStatic m.isAsync (m.params r)
          (methodBody r m.body.arrowFieldsAsMethods) (r.leadingComments m.tree.span.start) } := by
  have hfields := h.of_mem (Tree.mem_subtrees_of_get? m.key_eq)
  have hkey : (m.repaired h).key.kind = m.key.kind := by
    change m.key.arrowFieldsAsMethods.kind = m.key.kind
    rw [Tree.arrowFieldsAsMethods_of_isField_eq_false (hfields.isField_eq_false
      (by rw [(Tree.mem_parts_of_get? m.key_eq).2]; decide)), Tree.kind]
  have hspan : (m.repaired h).tree.span = m.tree.span := m.tree.arrowFieldsAsMethods_shape.1
  have heq := (m.repaired h).addClassMember_eq r component d
  rw [keyName?_congr hkey, methodNotes_congr hkey, methodMembers_congr hkey, hspan,
    m.params_repaired h] at heq
  exact heq

/-! ### Fields that hold an arrow function -/

structure ArrowField where
  tree : Tree
  flags : MemberFlags
  key : Tree
  arrow : Tree
  isAsync : Bool
  body : Tree
  kind_eq : tree.kind = .field flags
  key_eq : tree.get? .key = some key
  value_eq : tree.get? .value = some arrow
  arrow_kind : arrow.kind = .arrow isAsync
  body_eq : arrow.get? .body = some body
  fields : tree.FieldsInClasses

namespace ArrowField
variable (f : ArrowField)

def patterns (r : Reading) : List String := (f.arrow.all .param).map fun p => r.text p.span

theorem arrow_fields : f.arrow.FieldsInClasses :=
  f.fields.of_mem (Tree.mem_subtrees_of_get? f.value_eq)

theorem role_key : f.key.role = .key := (Tree.mem_parts_of_get? f.key_eq).2

theorem key_fields : f.key.FieldsInClasses :=
  f.fields.of_mem (Tree.mem_subtrees_of_get? f.key_eq)

theorem kind_key : f.key.arrowFieldsAsMethods.kind = f.key.kind := by
  rw [Tree.arrowFieldsAsMethods_of_isField_eq_false
    (f.key_fields.isField_eq_false (by rw [f.role_key]; decide)), Tree.kind]

theorem arrow_eq : f.arrow.arrowFieldsAsMethods =
    .node f.arrow.role (.arrow f.isAsync) f.arrow.span
      (f.arrow.parts.map Tree.arrowFieldsAsMethods) := by
  rw [Tree.arrowFieldsAsMethods_of_isField_eq_false (by rw [f.arrow_kind]; rfl), f.arrow_kind]

theorem all_arrow (role : Role) :
    f.arrow.arrowFieldsAsMethods.all role = (f.arrow.all role).map Tree.arrowFieldsAsMethods := by
  rw [f.arrow_eq]
  exact Tree.all_map_arrowFieldsAsMethods f.arrow_fields _ _ _ role

theorem role_repaired : f.key.arrowFieldsAsMethods.role = .key :=
  (Tree.role_arrowFieldsAsMethods f.key_fields).trans f.role_key

def inner : Tree :=
  .node f.tree.role (.field f.flags) f.tree.span (f.tree.parts.map Tree.arrowFieldsAsMethods)

theorem tree_repaired : f.tree.arrowFieldsAsMethods = f.inner.arrowFieldAsMethod := by
  rw [Tree.arrowFieldsAsMethods_eq, f.kind_eq, inner]

theorem get?_inner (role : Role) :
    f.inner.get? role = (f.tree.get? role).map Tree.arrowFieldsAsMethods :=
  Tree.get?_map_arrowFieldsAsMethods f.fields _ _ _ role

theorem repaired_of_public (h : privateText? f.key = none) :
    f.tree.arrowFieldsAsMethods = Tree.methodOfArrow f.tree.span f.flags
      f.key.arrowFieldsAsMethods f.arrow.arrowFieldsAsMethods f.isAsync := by
  have hkey : f.inner.get? .key = some f.key.arrowFieldsAsMethods := by
    rw [get?_inner, f.key_eq, Option.map_some]
  have hvalue : f.inner.get? .value = some f.arrow.arrowFieldsAsMethods := by
    rw [get?_inner, f.value_eq, Option.map_some]
  have harrow : f.arrow.arrowFieldsAsMethods.kind = .arrow f.isAsync := by
    rw [f.arrow_eq, Tree.kind]
  have hpublic : ∀ name, f.key.arrowFieldsAsMethods.kind ≠ .privateName name := by
    intro name hname
    rw [f.kind_key] at hname
    simp [privateText?, hname] at h
  rw [tree_repaired]
  exact Tree.arrowFieldAsMethod_of_some
    (Tree.fieldArrow?_eq_some_iff.2 ⟨_, _, _, rfl, hkey, hpublic, hvalue, harrow⟩) rfl hkey harrow

theorem repaired_of_private (h : privateText? f.key = some text) :
    f.tree.arrowFieldsAsMethods = f.inner := by
  rw [tree_repaired]
  apply Tree.arrowFieldAsMethod_of_none
  by_contra hsome
  obtain ⟨arrow, harrow⟩ := Option.ne_none_iff_exists'.1 hsome
  obtain ⟨-, key, -, -, hkey, hpublic, -⟩ := Tree.fieldArrow?_eq_some_iff.1 harrow
  rw [get?_inner, f.key_eq, Option.map_some, Option.some.injEq] at hkey
  subst hkey
  rw [f.kind_key] at hpublic
  unfold privateText? at h
  split at h
  · rename_i name hname
    exact hpublic name hname
  · cases h

def toMethod (h : privateText? f.key = none) : MethodDef where
  tree := f.tree.arrowFieldsAsMethods
  flags := { f.flags with isAbstract := false }
  key := f.key.arrowFieldsAsMethods
  isAsync := f.isAsync
  body := Tree.blockOf f.body.arrowFieldsAsMethods
  kind_eq := by rw [f.repaired_of_public h]; rfl
  key_eq := by
    rw [f.repaired_of_public h, Tree.get?, Tree.methodOfArrow, Tree.parts]
    exact List.find?_cons_of_pos (by simp [f.role_repaired])
  body_eq := by
    rw [f.repaired_of_public h, Tree.get?_eq_head?_all,
      (Tree.all_methodOfArrow f.role_repaired).2.1, f.all_arrow, List.head?_map, List.head?_map,
      ← Tree.get?_eq_head?_all, f.body_eq]
    rfl

theorem params_toMethod (h : privateText? f.key = none) (r : Reading) :
    (f.toMethod h).params r = f.patterns r := by
  change (f.tree.arrowFieldsAsMethods.all .param).map _ = _
  rw [f.repaired_of_public h, (Tree.all_methodOfArrow f.role_repaired).1, f.all_arrow,
    List.map_map, List.map_map]
  refine List.map_congr_left fun p _ => ?_
  change r.text p.arrowFieldsAsMethods.span = r.text p.span
  rw [p.arrowFieldsAsMethods_shape.1]

theorem addClassMember_eq (r : Reading) (component : String) (d : ClassDraft) :
    addClassMember r component d f.tree.arrowFieldsAsMethods =
      { d with
        model := d.model.addCaveats (methodNotes f.key f.flags.isStatic f.tree.span ++
          (keyName? f.key).toList.flatMap fun _ =>
            (bodyUpdaters r (Tree.blockOf f.body.arrowFieldsAsMethods)).map .stateUpdater)
        members := d.members ++ methodMembers f.key f.flags.isStatic f.isAsync (f.patterns r)
          (methodBody r (Tree.blockOf f.body.arrowFieldsAsMethods))
          (r.leadingComments f.tree.span.start) } := by
  have hspan : f.tree.arrowFieldsAsMethods.span = f.tree.span := f.tree.arrowFieldsAsMethods_shape.1
  cases hprivate : privateText? f.key with
  | none =>
    have heq := (f.toMethod hprivate).addClassMember_eq r component d
    rw [params_toMethod] at heq
    have hkey : (f.toMethod hprivate).key.kind = f.key.kind := f.kind_key
    rw [keyName?_congr hkey, methodNotes_congr hkey, methodMembers_congr hkey] at heq
    have hspan' : (f.toMethod hprivate).tree.span = f.tree.span := hspan
    rw [hspan'] at heq
    exact heq
  | some text =>
    have hprivateKey : privateKey? f.inner = some text := by
      rw [privateKey?_eq, get?_inner, f.key_eq, Option.map_some, Option.bind_some, privateText?,
        f.kind_key]
      exact hprivate
    rw [f.repaired_of_private hprivate, methodNotes, methodMembers,
      keyName?_of_privateText? hprivate, hprivate]
    simp only [Option.toList_none, List.flatMap_nil, List.map_nil, List.append_nil]
    simp only [addClassMember, inner, Tree.kind] at hprivateKey ⊢
    rw [hprivateKey]
    rfl

end ArrowField

/-! ### Texts of parameters -/

def arePieces : List String → List String → Bool
  | [], _ => true
  | _ :: _, [] => false
  | p :: ps, w :: ws =>
    (decide (p.toList <:+: w.toList) && arePieces ps ws) || arePieces (p :: ps) ws

/-- The characters of texts in a list, with a comma and a blank behind each. -/
def joinedLength : List String → Nat
  | [] => 0
  | t :: ts => t.length + 2 + joinedLength ts

theorem joinedLength_cons (t : String) (ts : List String) :
    joinedLength (t :: ts) = t.length + 2 + joinedLength ts := rfl

theorem length_intercalate (t : String) (ts : List String) :
    (", ".intercalate (t :: ts)).length + 2 = joinedLength (t :: ts) := by
  induction ts generalizing t with
  | nil => simp [joinedLength]
  | cons u ts ih =>
    have hcomma : ", ".length = 2 := by decide
    rw [String.intercalate_cons_cons, String.length_append, String.length_append, Nat.add_assoc,
      ih u, hcomma, joinedLength_cons t]

theorem joinedLength_of_arePieces (h : arePieces ps ws = true) :
    joinedLength ps ≤ joinedLength ws ∧ (joinedLength ps = joinedLength ws → ps = ws) := by
  fun_induction arePieces ps ws with
  | case1 ws =>
    refine ⟨Nat.zero_le _, fun hlength => ?_⟩
    cases ws with
    | nil => rfl
    | cons w ws =>
      have hnil : joinedLength [] = 0 := rfl
      rw [joinedLength_cons] at hlength
      omega
  | case2 => cases h
  | case3 p ps w ws ih₁ ih₂ =>
    rw [Bool.or_eq_true, Bool.and_eq_true, decide_eq_true_eq] at h
    obtain ⟨hpiece, hrest⟩ | hrest := h
    · obtain ⟨hle, heq⟩ := ih₁ hrest
      have hlength : p.length ≤ w.length := hpiece.length_le
      rw [joinedLength_cons, joinedLength_cons]
      refine ⟨by omega, fun hsum => ?_⟩
      have hsame : p.toList = w.toList := hpiece.eq_of_length (by
        change p.length = w.length
        omega)
      rw [String.toList_injective hsame, heq (by omega)]
    · obtain ⟨hle, -⟩ := ih₂ hrest
      rw [joinedLength_cons w ws]
      exact ⟨by omega, fun hsum => absurd hsum (by omega)⟩

theorem intercalate_inj_of_arePieces (h : arePieces ps ws = true) (hempty : "" ∉ ws) :
    ", ".intercalate ps = ", ".intercalate ws ↔ ps = ws := by
  refine ⟨fun htext => ?_, congrArg _⟩
  obtain ⟨-, heq⟩ := joinedLength_of_arePieces h
  have hlength := congrArg String.length htext
  cases ps with
  | nil =>
    cases ws with
    | nil => rfl
    | cons w ws =>
      have hw := length_intercalate w ws
      rw [joinedLength_cons, ← hlength] at hw
      change 0 + 2 = _ at hw
      obtain rfl : w = "" := String.length_eq_zero_iff.1 (by omega)
      exact absurd List.mem_cons_self hempty
  | cons p ps =>
    cases ws with
    | nil => cases h
    | cons w ws =>
      have hp := length_intercalate p ps
      have hw := length_intercalate w ws
      exact heq (by omega)

/-! ### The method written out -/

/-- A method is what a field with an arrow function says. Both have a key and flags in common, the
patterns of the one are pieces of the parameters of the other, and the code of the one, in braces
if it is an expression, is the body of the other. -/
structure WritesOut (r : Reading) (f : ArrowField) (r' : Reading) (m : MethodDef) (c : Code) :
    Prop where
  key : m.key.kind = f.key.kind
  isStatic : m.flags.isStatic = f.flags.isStatic
  isAsync : m.isAsync = f.isAsync
  params : arePieces (f.patterns r) (m.params r') = true
  nonempty : "" ∉ m.params r'
  body : Placed r f.body c
  written : Placed r' m.body c.written
  braced : Braced m.body
  fields : m.tree.FieldsInClasses
  comments : r'.leadingComments m.tree.span.start = r.leadingComments f.tree.span.start

theorem braced_shift {n : Nat} : Braced (t.shift n) ↔ Braced t := by
  have hspan : ∀ s u : Span, s.shift n = u.shift n ↔ s = u := by
    rintro ⟨start, stop⟩ ⟨start', stop'⟩
    simp [Span.shift]
  simp [Braced, hspan]

theorem Braced.repaired (h : Braced body) (hfield : body.kind.isField = false)
    (hfields : body.FieldsInClasses) : Braced body.arrowFieldsAsMethods := by
  intro s hs
  rw [Tree.arrowFieldsAsMethods_of_isField_eq_false hfield,
    Tree.all_map_arrowFieldsAsMethods hfields] at hs
  obtain ⟨p, hp, rfl⟩ := List.mem_map.1 hs
  rw [p.arrowFieldsAsMethods_shape.1, body.arrowFieldsAsMethods_shape.1]
  exact h p hp

def unplaced (c : Caveat) : Caveat := { c with span? := none }

def ClassDraft.unplaced (d : ClassDraft) : ClassDraft :=
  { d with model := { d.model with caveats := ⟨d.model.caveats.toList.map Analysis.unplaced⟩ } }

theorem ClassDraft.unplaced_addCaveats {d : ClassDraft} {notes notes' : List Caveat}
    (h : notes.map Analysis.unplaced = notes'.map Analysis.unplaced)
    (members members' : List Member) :
    ({ d with model := d.model.addCaveats notes, members := members } : ClassDraft).unplaced =
      { ({ d with model := d.model.addCaveats notes', members := members' } :
          ClassDraft).unplaced with members := members } := by
  simp [ClassDraft.unplaced, Model.addCaveats, CaveatLog.extend, h]

theorem map_unplaced_methodNotes (key : Tree) (isStatic : Bool) (span span' : Span) :
    (methodNotes key isStatic span).map unplaced =
      (methodNotes key isStatic span').map unplaced := by
  unfold methodNotes nameNotes
  repeat' split
  all_goals rfl

theorem map_unplaced_stateUpdater {spans spans' : List Span} (h : spans.length = spans'.length) :
    (spans.map Caveat.stateUpdater).map unplaced =
      (spans'.map Caveat.stateUpdater).map unplaced := by
  have hconst : ∀ spans : List Span, (spans.map Caveat.stateUpdater).map unplaced =
      List.replicate spans.length (unplaced (.stateUpdater ⟨0, 0⟩)) := by
    intro spans
    refine List.eq_replicate_iff.2 ⟨by simp, fun c hc => ?_⟩
    rw [List.map_map] at hc
    obtain ⟨s, -, rfl⟩ := List.mem_map.1 hc
    rfl
  rw [hconst, hconst, h]

namespace WritesOut
variable {r r' : Reading} {f : ArrowField} {m : MethodDef} {c : Code}

theorem isField_body : f.body.kind.isField = false := by
  have hrole := (Tree.mem_parts_of_get? f.body_eq).2
  have hfields := f.arrow_fields.of_mem (Tree.mem_subtrees_of_get? f.body_eq)
  exact hfields.isField_eq_false (by rw [hrole]; decide)

theorem body_eq (h : WritesOut r f r' m c) :
    methodBody r (Tree.blockOf f.body.arrowFieldsAsMethods) =
        c.written.repaired.fragment (.classMember none) ∧
      methodBody r' m.body.arrowFieldsAsMethods =
        c.written.repaired.fragment (.classMember none) ∧
      (bodyUpdaters r (Tree.blockOf f.body.arrowFieldsAsMethods)).length =
        (bodyUpdaters r' m.body.arrowFieldsAsMethods).length := by
  have hkind := h.body.kind_eq
  have hfield : c.tree.kind.isField = false := by
    rw [← hkind]
    exact isField_body
  have hfields := f.arrow_fields.of_mem (Tree.mem_subtrees_of_get? f.body_eq)
  have hfields' := h.fields.of_mem (Tree.mem_subtrees_of_get? m.body_eq)
  have hfield' : m.body.kind.isField = false :=
    hfields'.isField_eq_false (by rw [(Tree.mem_parts_of_get? m.body_eq).2]; decide)
  have hbraced : f.body.arrowFieldsAsMethods.kind = .block →
      Braced f.body.arrowFieldsAsMethods := by
    intro hblock
    rw [Tree.arrowFieldsAsMethods_of_isField_eq_false isField_body, Tree.kind] at hblock
    obtain ⟨before, after, -, hbody⟩ := h.body
    obtain ⟨before', after', -, hbody'⟩ := h.written
    rw [Code.written, if_pos (hkind.symm.trans hblock)] at hbody'
    have hcode : Braced c.tree := braced_shift.1 (hbody' ▸ h.braced)
    exact Braced.repaired (hbody ▸ braced_shift.2 hcode) isField_body hfields
  obtain ⟨hfragment, hupdaters⟩ := methodBody_blockOf h.body.repaired hbraced
  obtain ⟨hfragment', hupdaters'⟩ :=
    methodBody_of_placed h.written.repaired (h.braced.repaired hfield' hfields')
  rw [← Code.repaired_written hfield] at hfragment hupdaters
  exact ⟨hfragment, hfragment', hupdaters.trans hupdaters'.symm⟩

end WritesOut

theorem methodMembers_inj {isStatic isAsync : Bool} {params params' : List String}
    {body : Fragment} {comments : List String} :
    methodMembers key isStatic isAsync params body comments =
        methodMembers key isStatic isAsync params' body comments ↔
      keyName? key = none ∨ ", ".intercalate params = ", ".intercalate params' := by
  unfold methodMembers
  cases keyName? key <;> simp

/-- The member of a field that holds an arrow function is the one of the method written out, apart
from the text of its parameters, which are those of the method just when each is a pattern and
nothing else. -/
theorem arrowField_member_iff {r r' : Reading} {f : ArrowField} {m : MethodDef} {c : Code}
    (h : WritesOut r f r' m c) (component : String) (d : ClassDraft) :
    let a := addClassMember r component d f.tree.arrowFieldsAsMethods
    let b := addClassMember r' component d m.tree.arrowFieldsAsMethods
    let members := fun params => methodMembers f.key f.flags.isStatic f.isAsync params
      (c.written.repaired.fragment (.classMember none)) (r.leadingComments f.tree.span.start)
    a.members = d.members ++ members (f.patterns r) ∧
    b.members = d.members ++ members (m.params r') ∧
    a.unplaced = { b.unplaced with members := a.members } ∧
    (a.members = b.members ↔ keyName? f.key = none ∨ f.patterns r = m.params r') := by
  intro a b members
  obtain ⟨hfragment, hfragment', hupdaters⟩ := h.body_eq
  have ha := f.addClassMember_eq r component d
  have hb := m.addClassMember_repaired h.fields r' component d
  rw [hfragment] at ha
  rw [keyName?_congr h.key, methodNotes_congr h.key, methodMembers_congr h.key, h.isStatic,
    h.isAsync, h.comments, hfragment'] at hb
  have hmembers : a.members = d.members ++ members (f.patterns r) :=
    congrArg ClassDraft.members ha
  have hmembers' : b.members = d.members ++ members (m.params r') :=
    congrArg ClassDraft.members hb
  refine ⟨hmembers, hmembers', ?_, ?_⟩
  · rw [hmembers, show a = _ from ha, show b = _ from hb]
    apply ClassDraft.unplaced_addCaveats
    rw [List.map_append, List.map_append, List.map_flatMap, List.map_flatMap,
      map_unplaced_stateUpdater hupdaters]
    exact congrArg (· ++ _) (map_unplaced_methodNotes _ _ _ _)
  · rw [hmembers, hmembers', List.append_cancel_left_eq, methodMembers_inj,
      intercalate_inj_of_arePieces h.params h.nonempty]

/-! ### Both spellings in a source -/

theorem placed_iff :
    Placed r t c ↔
      ((cut? t.span.start r.source).any fun halves => c.text.isPrefixOf halves.2) = true ∧
        t = c.tree.shift t.span.start := by
  have hstart : ∀ n, (c.tree.shift n).span.start = n := by
    intro n
    rw [Tree.span_shift, c.span_eq]
    exact Nat.zero_add n
  constructor
  · rintro ⟨before, after, hsource, rfl⟩
    rw [hstart, hsource, cut?_append]
    exact ⟨List.isPrefixOf_iff_prefix.2 (List.prefix_append _ _), rfl⟩
  · rintro ⟨hany, htree⟩
    obtain ⟨⟨before, rest⟩, hcut, hprefix⟩ := (Option.any_eq_true _ _).1 hany
    obtain ⟨hsource, hbefore⟩ := cut?_eq_some_iff.1 hcut
    obtain ⟨after, rfl⟩ := List.isPrefixOf_iff_prefix.1 hprefix
    exact ⟨before, after, hsource, by rw [hbefore]; exact htree⟩

instance (r : Reading) (t : Tree) (c : Code) : Decidable (Placed r t c) :=
  decidable_of_iff _ placed_iff.symm

instance (r : Reading) (f : ArrowField) (r' : Reading) (m : MethodDef) (c : Code) :
    Decidable (WritesOut r f r' m c) :=
  decidable_of_iff
    (m.key.kind = f.key.kind ∧ m.flags.isStatic = f.flags.isStatic ∧ m.isAsync = f.isAsync ∧
      arePieces (f.patterns r) (m.params r') = true ∧ "" ∉ m.params r' ∧ Placed r f.body c ∧
      Placed r' m.body c.written ∧ Braced m.body ∧ m.tree.FieldsInClasses ∧
      r'.leadingComments m.tree.span.start = r.leadingComments f.tree.span.start)
    ⟨fun ⟨h1, h2, h3, h4, h5, h6, h7, h8, h9, h10⟩ => ⟨h1, h2, h3, h4, h5, h6, h7, h8, h9, h10⟩,
      fun ⟨h1, h2, h3, h4, h5, h6, h7, h8, h9, h10⟩ => ⟨h1, h2, h3, h4, h5, h6, h7, h8, h9, h10⟩⟩

def ArrowField.ofTree? (t : Tree) : Option ArrowField :=
  match hkind : t.kind, hkey : t.get? .key, hvalue : t.get? .value with
  | .field flags, some key, some arrow =>
    match harrow : arrow.kind, hbody : arrow.get? .body with
    | .arrow isAsync, some body =>
      if hfields : t.FieldsInClasses then
        some ⟨t, flags, key, arrow, isAsync, body, hkind, hkey, hvalue, harrow, hbody, hfields⟩
      else none
    | _, _ => none
  | _, _, _ => none

def MethodDef.ofTree? (t : Tree) : Option MethodDef :=
  match hkind : t.kind, hkey : t.get? .key, hbody : t.get? .body with
  | .method .method flags ⟨isAsync, false⟩, some key, some body =>
    some ⟨t, flags, key, isAsync, body, hkind, hkey, hbody⟩
  | _, _, _ => none

def firstMember? (source : List Char) : Option (Reading × Tree) :=
  match parse source with
  | .ok m => (m.tree.subtrees.find? (·.role = .member)).map fun t =>
      (⟨source, m.repair source⟩, t)
  | .error _ => none

def bothMembers? (source source' : List Char) :
    Option ((Reading × ArrowField) × (Reading × MethodDef)) :=
  (firstMember? source).bind fun (r, t) =>
    (firstMember? source').bind fun (r', u) =>
      (ArrowField.ofTree? t).bind fun f =>
        (MethodDef.ofTree? u).map fun m => ((r, f), (r', m))

theorem exists_bothMembers? (source source' : String)
    (P : Reading → ArrowField → Reading → MethodDef → Prop) [∀ r f r' m, Decidable (P r f r' m)]
    (h : (bothMembers? (Source.readChars source) (Source.readChars source')).any fun x =>
      P x.1.1 x.1.2 x.2.1 x.2.2) :
    ∃ r f r' m, bothMembers? source.toList source'.toList = some ((r, f), (r', m)) ∧
      P r f r' m := by
  rw [Source.readChars_eq, Source.readChars_eq] at h
  obtain ⟨⟨⟨r, f⟩, ⟨r', m⟩⟩, hboth, hP⟩ := (Option.any_eq_true _ _).1 h
  exact ⟨r, f, r', m, hboth, of_decide_eq_true hP⟩

theorem map_toList_injective : Function.Injective (List.map String.toList) :=
  List.map_injective_iff.2 fun _ _ h => String.toList_injective h

def typedField : String :=
  "class A \x7b f = async (a: T, \x7b b \x7d = \x7b\x7d, ...c: T[]) => this.setState(a); \x7d"

def typedMethod : String :=
  "class A \x7b async f(a: T, \x7b b \x7d = \x7b\x7d, ...c: T[]) " ++
    "\x7b return this.setState(a); \x7d \x7d"

def updateCode : Code where
  text := "this.setState(a)".toList
  tree := .node .body .call ⟨0, 16⟩
    [.node .callee .member ⟨0, 13⟩
      [.node .object .this ⟨0, 4⟩ [], .node .property (.name "setState") ⟨5, 13⟩ []],
     .node .argument (.name "a") ⟨14, 15⟩ []]
  span_eq := by decide
  within := by decide

set_option maxRecDepth 100000 in
/-- The types, the fallback value and the dots in front of a type are kept. -/
theorem arrowField_member_typedField :
    ∃ r f r' m, bothMembers? typedField.toList typedMethod.toList =
        some ((r, f), (r', m)) ∧
      WritesOut r f r' m updateCode ∧
      f.patterns r = ["a: T", "\x7b b \x7d = \x7b\x7d", "...c: T[]"] ∧
      ∀ component d, (addClassMember r component d f.tree.arrowFieldsAsMethods).members =
        (addClassMember r' component d m.tree.arrowFieldsAsMethods).members := by
  obtain ⟨r, f, r', m, hboth, hwrites, hpatterns, hparams⟩ :=
    exists_bothMembers? typedField typedMethod
      (fun r f r' m => WritesOut r f r' m updateCode ∧
        (f.patterns r).map String.toList =
          ["a: T", "\x7b b \x7d = \x7b\x7d", "...c: T[]"].map String.toList ∧
        (m.params r').map String.toList =
          ["a: T", "\x7b b \x7d = \x7b\x7d", "...c: T[]"].map String.toList)
      (by decide +kernel)
  refine ⟨r, f, r', m, hboth, hwrites, map_toList_injective hpatterns, fun component d => ?_⟩
  exact (arrowField_member_iff hwrites component d).2.2.2.2
    (.inr (map_toList_injective (hpatterns.trans hparams.symm)))

def restField : String := "class A \x7b f = (...a) => this.g(a); \x7d"

def restMethod : String := "class A \x7b f(...a) \x7b return this.g(a); \x7d \x7d"

def restCode : Code where
  text := "this.g(a)".toList
  tree := .node .body .call ⟨0, 9⟩
    [.node .callee .member ⟨0, 6⟩
      [.node .object .this ⟨0, 4⟩ [], .node .property (.name "g") ⟨5, 6⟩ []],
     .node .argument (.name "a") ⟨7, 8⟩ []]
  span_eq := by decide
  within := by decide

set_option maxRecDepth 100000 in
/-- The dots of the parameter are lost, and the member is not the one of the method. -/
theorem arrowField_member_fails_restField :
    ∃ r f r' m, bothMembers? restField.toList restMethod.toList =
        some ((r, f), (r', m)) ∧
      WritesOut r f r' m restCode ∧
      let a := addClassMember r "A" { model := {} } f.tree.arrowFieldsAsMethods
      let b := addClassMember r' "A" { model := {} } m.tree.arrowFieldsAsMethods
      a.members.map (·.params) = ["a"] ∧ b.members.map (·.params) = ["...a"] ∧
        a.members ≠ b.members := by
  obtain ⟨r, f, r', m, hboth, hwrites, hparams, hparams'⟩ :=
    exists_bothMembers? restField restMethod
      (fun r f r' m => WritesOut r f r' m restCode ∧
        (addClassMember r "A" { model := {} } f.tree.arrowFieldsAsMethods).members.map
          (·.params.toList) = ["a".toList] ∧
        (addClassMember r' "A" { model := {} } m.tree.arrowFieldsAsMethods).members.map
          (·.params.toList) = ["...a".toList])
      (by decide +kernel)
  have htexts : ∀ {ms : List Member} {ts : List String},
      ms.map (·.params.toList) = ts.map String.toList → ms.map (·.params) = ts := by
    intro ms ts h
    apply map_toList_injective
    rw [List.map_map]
    exact h
  have hrest : _ = ["a"] := htexts hparams
  have hrest' : _ = ["...a"] := htexts hparams'
  refine ⟨r, f, r', m, hboth, hwrites, hrest, hrest', fun heq => ?_⟩
  rw [heq, hrest'] at hrest
  exact absurd hrest (by decide)

end Revue.Analysis
