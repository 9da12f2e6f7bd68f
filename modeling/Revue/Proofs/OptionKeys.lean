import Mathlib.Data.List.Nodup
import Revue.Proofs.NestedClasses
import Revue.Proofs.RepairFrame

/-!
# The keys of the options

The object that is written for a class has an entry for each option, and `computed` and `methods`
have one for each getter and each method. The keys are those of the class, but not one for one: the
two spellings of a hook have one key, and what is static stands in `methods` with what is not. So
members of a class that are distinct may meet under one key, and of two entries with one key the
object keeps the second. The keys are distinct just when no two members meet.
-/

namespace Revue.Vue
open Text Component

variable {key : String} {sections : List (List Char)}

/-! ### Entries -/

structure Entry where
  comments : List String
  key : String

def methodMarks : List (List Char) := [[], "async ".toList, ['*'], "async *".toList]

/-- A text is an entry: its comments, the words in front of a method, its key, and the colon or the
parenthesis behind the key. -/
def Entry.IsWritten (e : Entry) (text : List Char) : Prop :=
  ∃ marks ∈ methodMarks, ∃ c rest, (c = ':' ∨ c = '(') ∧
    text = withComments e.comments (marks ++ objectKey e.key ++ c :: rest)

def optionIf (present : Bool) (key : String) : List Entry :=
  if present then [⟨[], key⟩] else []

def memberEntry (x : Member) : Entry := ⟨x.leadingComments, x.name⟩

def entryOfHook? (x : Member) : Option Entry :=
  match x.role with
  | .lifecycle hook => some ⟨x.leadingComments, hook.optionName⟩
  | _ => none

def gettersOf (c : ClassComponent) : List Member := c.members.filter (·.role = .getter)

def methodsOf (c : ClassComponent) : List Member := c.members.filter fun x => isMethodRole x.role

def optionEntries (m : Model) (c : ClassComponent) : List Entry :=
  ⟨[], "name"⟩ :: optionIf (propsSection? m c.name).isSome "props" ++
    optionIf c.state.isSome "data" ++ optionIf (!(gettersOf c).isEmpty) "computed" ++
    optionIf (!(methodsOf c).isEmpty) "methods" ++ c.members.filterMap entryOfHook? ++
    optionIf (!c.created.isEmpty) "created" ++
    (c.members.find? (·.role = .render)).toList.map fun x => ⟨x.leadingComments, "render"⟩

def WritesObject (sections : List (List Char)) (key : String) (xs : List Member) : Prop :=
  ∃ texts, List.Forall₂ Entry.IsWritten (xs.map memberEntry) texts ∧
    (xs ≠ [] → objectSection key.toList texts ∈ sections)

structure WritesOptions (m : Model) (c : ClassComponent) (sections : List (List Char)) :
    Prop where
  options : List.Forall₂ Entry.IsWritten (optionEntries m c) sections
  computed : WritesObject sections "computed" (gettersOf c)
  methods : WritesObject sections "methods" (methodsOf c)

/-! ### Sections -/

/-- A text that starts with a header is an entry if the header starts with one. -/
theorem isWritten_of_header (e : Entry) {marks : List Char} (hmarks : marks ∈ methodMarks)
    {c : Char} (hc : c = ':' ∨ c = '(') {header : List Char} (rest : List Char)
    (hheader : header = marks ++ objectKey e.key ++ c :: rest) (tail : List Char) :
    e.IsWritten (withComments e.comments (header ++ tail)) := by
  refine ⟨marks, hmarks, c, rest ++ tail, hc, ?_⟩
  rw [hheader, List.append_assoc (marks ++ objectKey e.key), List.cons_append]

/-- The same for an option, which has no comments. -/
theorem isWritten_option {key : String} {c : Char} (hc : c = ':' ∨ c = '(') {header : List Char}
    (rest : List Char) (hheader : header = objectKey key ++ c :: rest) (tail : List Char) :
    (⟨[], key⟩ : Entry).IsWritten (header ++ tail) :=
  isWritten_of_header ⟨[], key⟩ List.mem_cons_self hc rest hheader tail

theorem functionBlock_eq_append (header : List Char) (before : List (List Char))
    (body : List Char) : ∃ tail, functionBlock header before body = header ++ tail := by
  unfold functionBlock
  split
  · exact ⟨_, rfl⟩
  · split
    · exact ⟨_, rfl⟩
    · exact ⟨_, by rw [braced, List.append_assoc, List.append_assoc]⟩

theorem isWritten_memberAs {x : Member} {text : List Char}
    (h : memberAs (objectKey key) x = some text) :
    (⟨x.leadingComments, key⟩ : Entry).IsWritten text := by
  obtain ⟨body, -, hbody⟩ := Option.bind_eq_some_iff.1 h
  obtain rfl := Option.some.inj hbody
  obtain ⟨tail, htail⟩ := functionBlock_eq_append (memberHeader x (objectKey key)) [] body
  have hmarks : (if x.isAsync then "async ".toList else []) ++
      (if x.isGenerator then ['*'] else []) ∈ methodMarks := by
    cases x.isAsync <;> cases x.isGenerator <;> decide
  rw [htail]
  refine isWritten_of_header ⟨x.leadingComments, key⟩ hmarks (.inr rfl) (x.params.toList ++ [')'])
    ?_ tail
  simp only [memberHeader, List.append_assoc, List.cons_append]

theorem isWritten_objectSection (hkey : objectKey key = key.toList) (texts : List (List Char)) :
    (⟨[], key⟩ : Entry).IsWritten (objectSection key.toList texts) := by
  rw [objectSection, braced, List.append_assoc, List.append_assoc]
  exact isWritten_option (.inl rfl) [] (by rw [hkey]) _

section Sections
variable {m : Model} {c : ClassComponent} {texts : List (List Char)}

theorem isWritten_nameSection (m : Model) (component : String) :
    (⟨[], "name"⟩ : Entry).IsWritten (nameSection m component) :=
  isWritten_option (.inl rfl) [' '] rfl _

theorem forall₂_propsSection? (m : Model) (component : String) :
    List.Forall₂ Entry.IsWritten (optionIf (propsSection? m component).isSome "props")
      (propsSection? m component).toList := by
  unfold propsSection?
  split
  · exact .nil
  · exact .cons (isWritten_objectSection rfl _) .nil

theorem forall₂_stateSection (h : stateSection c = some texts) :
    List.Forall₂ Entry.IsWritten (optionIf c.state.isSome "data") texts := by
  unfold stateSection at h
  split at h
  · rename_i hstate
    obtain rfl := Option.some.inj h
    rw [hstate]
    exact .nil
  · rename_i f hstate
    obtain ⟨state, -, htexts⟩ := Option.bind_eq_some_iff.1 h
    obtain rfl := Option.some.inj htexts
    rw [hstate, braced, List.append_assoc, List.append_assoc]
    exact .cons (isWritten_option (.inr rfl) [')'] rfl _) .nil

theorem forall₂_createdSection (h : createdSection c = some texts) :
    List.Forall₂ Entry.IsWritten (optionIf (!c.created.isEmpty) "created") texts := by
  obtain ⟨statements, hstatements, htexts⟩ := Option.bind_eq_some_iff.1 h
  have hlength := (forall₂_of_mapM hstatements).length_eq
  cases statements with
  | nil =>
    obtain rfl := Option.some.inj htexts
    rw [List.eq_nil_of_length_eq_zero hlength]
    exact .nil
  | cons statement statements =>
    obtain rfl := Option.some.inj htexts
    have hsome : c.created.isEmpty = false := by
      cases hcreated : c.created with
      | nil => simp [hcreated] at hlength
      | cons f fs => rfl
    rw [hsome, braced, List.append_assoc, List.append_assoc]
    exact .cons (isWritten_option (.inr rfl) [')'] rfl _) .nil

theorem forall₂_methodsSection {key : String} {xs : List Member}
    (hkey : objectKey key = key.toList) (h : methodsSection key xs = some texts) :
    List.Forall₂ Entry.IsWritten (optionIf (!xs.isEmpty) key) texts ∧
      WritesObject texts key xs := by
  obtain ⟨entries, hentries, htexts⟩ := Option.bind_eq_some_iff.1 h
  have hwritten : List.Forall₂ Entry.IsWritten (xs.map memberEntry) entries :=
    List.forall₂_map_left_iff.2
      ((forall₂_of_mapM hentries).imp fun x text htext => isWritten_memberAs htext)
  cases xs with
  | nil =>
    cases hwritten
    obtain rfl := Option.some.inj htexts
    exact ⟨.nil, [], .nil, fun hne => absurd rfl hne⟩
  | cons x xs =>
    cases entries with
    | nil => cases hwritten
    | cons entry entries =>
      obtain rfl := Option.some.inj htexts
      exact ⟨.cons (isWritten_objectSection hkey _) .nil, _, hwritten, fun _ => by simp⟩

theorem forall₂_hookSections (h : hookSections c = some texts) :
    List.Forall₂ Entry.IsWritten (c.members.filterMap entryOfHook?) texts := by
  unfold hookSections at h
  generalize c.members = members at h ⊢
  induction members generalizing texts with
  | nil =>
    obtain rfl : [] = texts := by simpa using h
    exact .nil
  | cons x members ih =>
    cases hrole : x.role with
    | lifecycle hook =>
      have hentry : entryOfHook? x = some ⟨x.leadingComments, hook.optionName⟩ := by
        simp [entryOfHook?, hrole]
      have hsection : hookSection? x = some (memberAs hook.optionName.toList x) := by
        simp [hookSection?, hrole]
      rw [List.filterMap_cons_some hsection, List.mapM_cons] at h
      obtain ⟨text, htext, hrest⟩ := Option.bind_eq_some_iff.1 h
      obtain ⟨texts', htexts, hcons⟩ := Option.bind_eq_some_iff.1 hrest
      obtain rfl := Option.some.inj hcons
      have hkey : objectKey hook.optionName = hook.optionName.toList := by cases hook <;> decide
      rw [List.filterMap_cons_some hentry]
      exact .cons (isWritten_memberAs (by rw [hkey]; exact htext)) (ih htexts)
    | _ =>
      rw [List.filterMap_cons_none (by simp [hookSection?, hrole])] at h
      rw [List.filterMap_cons_none (by simp [entryOfHook?, hrole])]
      exact ih h

theorem forall₂_renderSection (h : renderSection c = some texts) :
    List.Forall₂ Entry.IsWritten ((c.members.find? (·.role = .render)).toList.map
      fun x => ⟨x.leadingComments, "render"⟩) texts := by
  unfold renderSection at h
  split at h
  · rename_i hnone
    obtain rfl := Option.some.inj h
    rw [hnone]
    exact .nil
  · rename_i x hx
    obtain ⟨body, -, htexts⟩ := Option.bind_eq_some_iff.1 h
    obtain rfl := Option.some.inj htexts
    obtain ⟨tail, htail⟩ := functionBlock_eq_append "render(h)".toList [] body
    have hheader : "render(h)".toList = [] ++ objectKey "render" ++ '(' :: "h)".toList := by decide
    rw [hx, htail]
    exact .cons (isWritten_of_header ⟨x.leadingComments, "render"⟩ List.mem_cons_self (.inr rfl) _
      hheader tail) .nil

theorem WritesObject.mono {xs : List Member} (h : WritesObject texts key xs)
    (hsub : texts ⊆ sections) : WritesObject sections key xs := by
  obtain ⟨entries, hentries, hmem⟩ := h
  exact ⟨entries, hentries, fun hne => hsub (hmem hne)⟩

theorem writesOptions_classSections (h : classSections m c = some sections) :
    WritesOptions m c sections := by
  obtain ⟨state, hstate, h⟩ := Option.bind_eq_some_iff.1 h
  obtain ⟨computed, hcomputed, h⟩ := Option.bind_eq_some_iff.1 h
  obtain ⟨methods, hmethods, h⟩ := Option.bind_eq_some_iff.1 h
  obtain ⟨hooks, hhooks, h⟩ := Option.bind_eq_some_iff.1 h
  obtain ⟨created, hcreated, h⟩ := Option.bind_eq_some_iff.1 h
  obtain ⟨render, hrender, h⟩ := Option.bind_eq_some_iff.1 h
  obtain rfl := Option.some.inj h
  obtain ⟨hcomputed, hgetters⟩ := forall₂_methodsSection (by decide) hcomputed
  obtain ⟨hmethods, hlisted⟩ := forall₂_methodsSection (by decide) hmethods
  refine ⟨?_, hgetters.mono fun text ht => by simp [ht], hlisted.mono fun text ht => by simp [ht]⟩
  have hname := List.Forall₂.cons (isWritten_nameSection m c.name)
    (forall₂_propsSection? m c.name)
  exact List.rel_append (List.rel_append (List.rel_append (List.rel_append (List.rel_append
    (List.rel_append hname (forall₂_stateSection hstate)) hcomputed) hmethods)
    (forall₂_hookSections hhooks)) (forall₂_createdSection hcreated))
    (forall₂_renderSection hrender)

end Sections

/-! ### Distinct keys -/

/-- No two entries of the options, of `computed` or of `methods` have one key. -/
structure DistinctKeys (m : Model) (c : ClassComponent) : Prop where
  options : ((optionEntries m c).map Entry.key).Nodup
  computed : ((gettersOf c).map Member.name).Nodup
  methods : ((methodsOf c).map Member.name).Nodup

def hookOf? : MemberRole → Option Hook
  | .lifecycle hook => some hook
  | _ => none

section Keys
variable (m : Model) (c : ClassComponent)

theorem map_key_optionIf_sublist (present : Bool) (key : String) :
    ((optionIf present key).map Entry.key).Sublist [key] := by
  cases present <;> simp [optionIf]

theorem entryOfHook?_map_key (x : Member) :
    (entryOfHook? x).map Entry.key = (hookOf? x.role).map Hook.optionName := by
  unfold entryOfHook? hookOf?
  cases x.role <;> rfl

theorem map_key_hookEntries :
    (c.members.filterMap entryOfHook?).map Entry.key =
      (c.members.filterMap fun x => hookOf? x.role).map Hook.optionName := by
  rw [List.map_filterMap, List.map_filterMap]
  exact List.filterMap_congr fun x _ => entryOfHook?_map_key x

theorem optionName_injective : Function.Injective Hook.optionName := by
  intro a b h
  cases a <;> cases b <;> revert h <;> decide

def keysBefore : List String := ["name", "props", "data", "computed", "methods"]

def keysAfter : List String := ["created", "render"]

theorem nodup_keys_iff (hooks : List Hook) :
    (keysBefore ++ hooks.map Hook.optionName ++ keysAfter).Nodup ↔ hooks.Nodup := by
  have hapart : ∀ key ∈ keysBefore ++ keysAfter, ∀ option ∈ hooks.map Hook.optionName,
      key ≠ option := by
    intro key hkey option hoption
    obtain ⟨hook, -, rfl⟩ := List.mem_map.1 hoption
    cases hook <;> revert key <;> decide
  have hperm : (keysBefore ++ hooks.map Hook.optionName ++ keysAfter).Perm
      (keysBefore ++ keysAfter ++ hooks.map Hook.optionName) := by
    rw [List.append_assoc, List.append_assoc]
    exact List.perm_append_comm.append_left _
  rw [hperm.nodup_iff, List.nodup_append, List.nodup_map_iff optionName_injective]
  exact ⟨fun h => h.2.1, fun h => ⟨by decide, h, hapart⟩⟩

theorem map_key_optionEntries_sublist :
    ((optionEntries m c).map Entry.key).Sublist
      (keysBefore ++ (c.members.filterMap fun x => hookOf? x.role).map Hook.optionName ++
        keysAfter) := by
  have hif := map_key_optionIf_sublist
  have hrender : (((c.members.find? (·.role = .render)).toList.map
      fun x => (⟨x.leadingComments, "render"⟩ : Entry)).map Entry.key).Sublist ["render"] := by
    cases c.members.find? (·.role = .render) <;> simp
  have hbefore := ((((hif (propsSection? m c.name).isSome "props").cons_cons "name").append
    (hif c.state.isSome "data")).append (hif (!(gettersOf c).isEmpty) "computed")).append
    (hif (!(methodsOf c).isEmpty) "methods")
  have hall := ((hbefore.append (.refl ((c.members.filterMap fun x => hookOf? x.role).map
    Hook.optionName))).append (hif (!c.created.isEmpty) "created")).append hrender
  rw [List.append_assoc _ ["created"]] at hall
  simp only [optionEntries, List.map_append, List.map_cons, map_key_hookEntries]
  exact hall

/-- All options but the hooks have fixed keys, each its own. -/
theorem nodup_optionEntries_iff :
    ((optionEntries m c).map Entry.key).Nodup ↔
      (c.members.filterMap fun x => hookOf? x.role).Nodup := by
  refine ⟨fun hnodup => ?_, fun hnodup => ?_⟩
  · have hsub : ((c.members.filterMap entryOfHook?).map Entry.key).Sublist
        ((optionEntries m c).map Entry.key) := by
      refine List.Sublist.map _ ?_
      rw [optionEntries, List.append_assoc, List.append_assoc]
      exact (List.sublist_append_left _ _).trans (List.sublist_append_right _ _)
    rw [map_key_hookEntries] at hsub
    exact (List.nodup_map_iff optionName_injective).1 (hnodup.sublist hsub)
  · exact ((nodup_keys_iff _).2 hnodup).sublist (map_key_optionEntries_sublist m c)

end Keys

end Revue.Vue

namespace Revue.Analysis
open Text Syntax Component Vue

variable {t : Tree} {sort : MethodSort} {flags : MemberFlags} {functionFlags : FunctionFlags}

/-! ### Members that meet -/

structure MethodSignature where
  name : String
  sort : MethodSort
  isStatic : Bool
deriving DecidableEq

inductive Signature where
  | method (s : MethodSignature)
  | field (name : String) (isStatic : Bool)
deriving DecidableEq

def signature? (t : Tree) : Option Signature :=
  ((t.get? .key).bind keyName?).bind fun name =>
    match t.kind with
    | .method sort flags _ => (t.get? .body).map fun _ => .method ⟨name, sort, flags.isStatic⟩
    | .field flags => some (.field name flags.isStatic)
    | _ => none

def methodSignature? (t : Tree) : Option MethodSignature :=
  (signature? t).bind fun
    | .method s => some s
    | .field name isStatic =>
      (t.fieldArrow?.bind (·.get? .body)).map fun _ => ⟨name, .method, isStatic⟩

namespace MethodSignature
variable (s : MethodSignature)

def role? : Option MemberRole := methodRole? s.sort s.isStatic s.name

def hook? : Option Hook :=
  if s.sort = .method ∧ s.isStatic = false then Hook.ofMethod? s.name else none

def isListed : Bool :=
  s.isStatic || s.sort = .method && roleOf s.name = .method

/-- Two methods are called at one hook, or have one name in `methods`. -/
def Meets (s s' : MethodSignature) : Prop :=
  (s.hook?.isSome = true ∧ s.hook? = s'.hook?) ∨
    s.name = s'.name ∧ s.isListed = true ∧ s'.isListed = true

instance (s s' : MethodSignature) : Decidable (s.Meets s') :=
  inferInstanceAs (Decidable (_ ∨ _))

theorem roleOf_cases (name : String) :
    (name = "render" ∧ roleOf name = .render) ∨
      (∃ hook, Hook.ofMethod? name = some hook ∧ roleOf name = .lifecycle hook) ∨
      Hook.ofMethod? name = none ∧ roleOf name = .method := by
  unfold roleOf
  by_cases h : name = "render"
  · exact .inl ⟨h, if_pos h⟩
  · rw [if_neg h]
    cases hhook : Hook.ofMethod? name with
    | none => exact .inr (.inr ⟨rfl, rfl⟩)
    | some hook => exact .inr (.inl ⟨hook, rfl, rfl⟩)

theorem role?_bind_hookOf? : s.role?.bind hookOf? = s.hook? := by
  unfold role? hook? methodRole?
  cases s.isStatic with
  | true => simp [hookOf?]
  | false =>
    cases s.sort with
    | getter => rfl
    | setter => rfl
    | method =>
      obtain ⟨hname, hrole⟩ | ⟨hook, hhook, hrole⟩ | ⟨hhook, hrole⟩ := roleOf_cases s.name
      · have hnone : Hook.ofMethod? "render" = none := rfl
        rw [hname] at hrole ⊢
        simp [hrole, hnone, hookOf?]
      · simp [hrole, hhook, hookOf?]
      · simp [hrole, hhook, hookOf?]

theorem role?_any_isMethodRole : s.role?.any isMethodRole = s.isListed := by
  unfold role? isListed methodRole?
  cases s.isStatic with
  | true => simp [isMethodRole]
  | false =>
    cases s.sort with
    | getter => simp [isMethodRole]
    | setter => simp
    | method =>
      obtain ⟨-, hrole⟩ | ⟨hook, -, hrole⟩ | ⟨-, hrole⟩ := roleOf_cases s.name <;>
        simp [hrole, isMethodRole]

theorem role?_any_getter :
    s.role?.any (· = .getter) = (s.sort = .getter && !s.isStatic) := by
  unfold role? methodRole?
  cases s.isStatic with
  | true => simp
  | false =>
    cases s.sort with
    | getter => simp
    | setter => simp
    | method =>
      obtain ⟨-, hrole⟩ | ⟨hook, -, hrole⟩ | ⟨-, hrole⟩ := roleOf_cases s.name <;> simp [hrole]

end MethodSignature

def keptAs? (t : Tree) : Option (String × MemberRole) :=
  (methodSignature? t).bind fun s => s.role?.map fun role => (s.name, role)

section Kept
variable {t : Tree}

theorem keyName?_map_arrowFieldsAsMethods (h : t.FieldsInClasses) :
    ((t.get? .key).map Tree.arrowFieldsAsMethods).bind keyName? = (t.get? .key).bind keyName? := by
  cases hkey : t.get? .key with
  | none => rfl
  | some key => exact keyName?_congr (Tree.kind_of_get? h (by decide) hkey)

theorem keptMethod?_of_method (hkind : t.kind = .method sort flags functionFlags) :
    ((keptMethod? t).map fun method => (method.1, method.2.1)) =
      ((t.get? .key).bind keyName?).bind fun name => (t.get? .body).bind fun _ =>
        (methodRole? sort flags.isStatic name).map fun role => (name, role) := by
  unfold keptMethod?
  rw [hkind]
  cases (t.get? .key).bind keyName? with
  | none => rfl
  | some name =>
    cases t.get? .body with
    | none => rfl
    | some body => cases hrole : methodRole? sort flags.isStatic name <;> simp [hrole]

theorem keptAs?_of_method (hkind : t.kind = .method sort flags functionFlags) :
    keptAs? t = ((t.get? .key).bind keyName?).bind fun name => (t.get? .body).bind fun _ =>
      (methodRole? sort flags.isStatic name).map fun role => (name, role) := by
  unfold keptAs? methodSignature? signature?
  rw [hkind]
  cases (t.get? .key).bind keyName? with
  | none => rfl
  | some name => cases t.get? .body <;> rfl

theorem keptAs?_of_fieldArrow? {arrow : Tree} (harrow : t.fieldArrow? = some arrow)
    (hkind : t.kind = .field flags) :
    keptAs? t = ((t.get? .key).bind keyName?).bind fun name => (arrow.get? .body).bind fun _ =>
      (methodRole? .method flags.isStatic name).map fun role => (name, role) := by
  unfold keptAs? methodSignature? signature?
  rw [hkind, harrow]
  cases (t.get? .key).bind keyName? with
  | none => rfl
  | some name =>
    cases hbody : arrow.get? .body with
    | none => simp [hbody]
    | some body => simp [hbody, MethodSignature.role?]

theorem exists_of_signature? {s : Signature} (h : signature? t = some s)
    (hkind : ∀ sort flags functionFlags, t.kind ≠ .method sort flags functionFlags) :
    ∃ name isStatic, s = .field name isStatic := by
  obtain ⟨name, -, hs⟩ := Option.bind_eq_some_iff.1 h
  split at hs
  · rename_i sort flags functionFlags hmethod
    exact absurd hmethod (hkind sort flags functionFlags)
  · exact ⟨_, _, (Option.some.inj hs).symm⟩
  · cases hs

theorem methodSignature?_of_none (h : t.fieldArrow? = none)
    (hkind : ∀ sort flags functionFlags, t.kind ≠ .method sort flags functionFlags) :
    methodSignature? t = none := by
  unfold methodSignature?
  cases hs : signature? t with
  | none => rfl
  | some s =>
    obtain ⟨name, isStatic, rfl⟩ := exists_of_signature? hs hkind
    simp [h]

theorem keptMethod?_of_no_method
    (hkind : ∀ sort flags functionFlags, t.kind ≠ .method sort flags functionFlags) :
    keptMethod? t = none := by
  unfold keptMethod?
  split
  · rename_i hmethod
    exact absurd hmethod (hkind _ _ _)
  · rfl

/-- What is kept of a repaired member is what its signature says. -/
theorem keptMethod?_arrowFieldsAsMethods (h : t.FieldsInClasses) :
    ((keptMethod? t.arrowFieldsAsMethods).map fun method => (method.1, method.2.1)) =
      keptAs? t := by
  have hkey : (t.arrowFieldsAsMethods.get? .key).bind keyName? = (t.get? .key).bind keyName? := by
    rw [(Tree.keepsMember_arrowFieldsAsMethods h).key, keyName?_map_arrowFieldsAsMethods h]
  cases harrow : t.fieldArrow? with
  | none =>
    have hsame := Tree.arrowFieldsAsMethods_of_none h harrow
    by_cases hmethod : ∃ sort flags functionFlags, t.kind = .method sort flags functionFlags
    · obtain ⟨sort, flags, functionFlags, hkind⟩ := hmethod
      have hkind' : t.arrowFieldsAsMethods.kind = .method sort flags functionFlags := by
        rw [hsame, Tree.kind, hkind]
      have hbody : t.arrowFieldsAsMethods.get? .body =
          (t.get? .body).map Tree.arrowFieldsAsMethods := by
        rw [hsame]
        exact Tree.get?_map_arrowFieldsAsMethods h _ _ _ _
      rw [keptAs?_of_method hkind, keptMethod?_of_method hkind', hkey, hbody]
      simp only [Option.bind_map]
      rfl
    · have hkind : ∀ sort flags functionFlags, t.kind ≠ .method sort flags functionFlags :=
        fun sort flags functionFlags heq => hmethod ⟨sort, flags, functionFlags, heq⟩
      have hkind' : ∀ sort flags functionFlags,
          t.arrowFieldsAsMethods.kind ≠ .method sort flags functionFlags := by
        rw [hsame]
        exact hkind
      rw [keptMethod?_of_no_method hkind', keptAs?, methodSignature?_of_none harrow hkind]
      rfl
  | some arrow =>
    have hmethod := Tree.isMethodFor_arrowFieldsAsMethods h harrow
    obtain ⟨flags, isAsync, hfield, -, hkind⟩ := hmethod.kind
    have hbody {α : Type} (x : Option α) :
        (t.arrowFieldsAsMethods.get? .body).bind (fun _ => x) =
          (arrow.get? .body).bind fun _ => x := by
      have hbodies := hmethod.body
      rw [Tree.get?_eq_head?_all, Tree.get?_eq_head?_all]
      generalize arrow.all .body = bodies at hbodies ⊢
      generalize t.arrowFieldsAsMethods.all .body = bodies' at hbodies ⊢
      cases hbodies <;> rfl
    rw [keptMethod?_of_method hkind, keptAs?_of_fieldArrow? harrow hfield, hkey]
    simp only [hbody]

end Kept

/-! ### The keys of a class -/

/-- The methods of a class, and its fields with an arrow function, in their order. -/
def methodSignatures (t : Tree) : List MethodSignature := (t.all .member).filterMap methodSignature?

/-- No two members of a class have one name, one kind and are both static or both not. -/
def DistinctMembers (t : Tree) : Prop := ((t.all .member).filterMap signature?).Nodup

instance (t : Tree) : Decidable (DistinctMembers t) :=
  inferInstanceAs (Decidable (List.Nodup _))

theorem signature?_of_getter {s : MethodSignature} (h : methodSignature? t = some s)
    (hsort : s.sort = .getter) : signature? t = some (.method s) := by
  obtain ⟨signature, hsignature, hs⟩ := Option.bind_eq_some_iff.1 h
  cases signature with
  | method s' => rw [hsignature, Option.some.inj hs]
  | field name isStatic =>
    obtain ⟨body, -, rfl⟩ := Option.map_eq_some_iff.1 hs
    cases hsort

theorem map_eq_filterMap_of_forall₂ {α β γ : Type} {R : α → β → Prop} {f : α → Option γ}
    {g : β → γ} (hR : ∀ a b, R a b → f a = some (g b)) {as : List α} {bs : List β}
    (h : List.Forall₂ R as bs) : bs.map g = as.filterMap f := by
  induction h with
  | nil => rfl
  | cons hab _ ih => rw [List.filterMap_cons_some (hR _ _ hab), List.map_cons, ih]

theorem map_fst_filter_role? (p : MemberRole → Bool) (signatures : List MethodSignature) :
    ((signatures.filterMap fun s => s.role?.map fun role => (s.name, role)).filter
        fun x => p x.2).map Prod.fst =
      (signatures.filter fun s => s.role?.any p).map MethodSignature.name := by
  induction signatures with
  | nil => rfl
  | cons s signatures ih =>
    cases hrole : s.role? with
    | none => simpa [hrole] using ih
    | some role => cases hp : p role <;> simpa [hrole, hp] using ih

section Class
variable {r : Reading} {t : Tree} {c : ClassComponent} (hclass : t.kind = .classDef)
  (hfields : t.FieldsInClasses) (hcomponent : IsComponentOf r t.arrowFieldsAsMethods c)
include hclass hfields hcomponent

/-- The members of a component are those that are kept of the class, by name and role. -/
theorem members_eq_filterMap_role? :
    c.members.map (fun x => (x.name, x.role)) =
      (methodSignatures t).filterMap fun s => s.role?.map fun role => (s.name, role) := by
  obtain ⟨m, isNested, hc⟩ := hcomponent
  have hall : t.arrowFieldsAsMethods.all .member =
      (t.all .member).map Tree.arrowFieldsAsMethods :=
    Tree.all_arrowFieldsAsMethods hfields (by rw [hclass]; rfl) _
  have hkept : ∀ u x, IsMemberOf r u x →
      (keptMethod? u).map (fun method => (method.1, method.2.1)) = some (x.name, x.role) := by
    intro u x hx
    obtain ⟨body, hmethod, -⟩ := hx.method
    rw [hmethod]
    rfl
  rw [map_eq_filterMap_of_forall₂ hkept (members_addClass r m _ _ isNested hc), keptMethods, hall,
    List.filterMap_filter, List.filterMap_map, methodSignatures, List.filterMap_filterMap]
  refine List.filterMap_congr fun u hu => ?_
  rw [← keptAs?, ← keptMethod?_arrowFieldsAsMethods
    (hfields.of_mem (Tree.mem_subtrees_of_all hu)), Function.comp_apply]
  cases keptMethod? u.arrowFieldsAsMethods <;> rfl

theorem hooks_eq :
    (c.members.filterMap fun x => hookOf? x.role) =
      (methodSignatures t).filterMap MethodSignature.hook? := by
  have hmembers := congrArg (List.filterMap fun x : String × MemberRole => hookOf? x.2)
    (members_eq_filterMap_role? hclass hfields hcomponent)
  rw [List.filterMap_map, List.filterMap_filterMap] at hmembers
  rw [show (fun x : Member => hookOf? x.role) =
    (fun x : String × MemberRole => hookOf? x.2) ∘ fun x => (x.name, x.role) from rfl, hmembers]
  refine List.filterMap_congr fun s _ => ?_
  rw [← s.role?_bind_hookOf?, Option.bind_map]
  rfl

theorem names_eq (p : MemberRole → Bool) :
    (c.members.filter fun x => p x.role).map Member.name =
      ((methodSignatures t).filter fun s => s.role?.any p).map MethodSignature.name := by
  rw [← map_fst_filter_role?, ← members_eq_filterMap_role? hclass hfields hcomponent,
    List.filter_map, List.map_map]
  rfl

end Class

theorem nodup_hooks_iff (signatures : List MethodSignature) :
    (signatures.filterMap MethodSignature.hook?).Nodup ↔
      signatures.Pairwise fun s s' => ¬ (s.hook?.isSome = true ∧ s.hook? = s'.hook?) := by
  rw [List.Nodup, List.pairwise_filterMap]
  refine List.Pairwise.iff fun s s' => ⟨?_, ?_⟩
  · rintro h ⟨hsome, heq⟩
    obtain ⟨hook, hs⟩ := Option.isSome_iff_exists.1 hsome
    exact h hook hs hook (heq ▸ hs) rfl
  · rintro h hook hs hook' hs' rfl
    exact h ⟨by rw [hs]; rfl, hs.trans hs'.symm⟩

theorem nodup_names_iff (p : MethodSignature → Bool) (signatures : List MethodSignature) :
    ((signatures.filter p).map MethodSignature.name).Nodup ↔
      signatures.Pairwise fun s s' => ¬ (s.name = s'.name ∧ p s = true ∧ p s' = true) := by
  rw [List.Nodup, List.pairwise_map, List.pairwise_filter]
  refine List.Pairwise.iff fun s s' => ⟨?_, ?_⟩
  · rintro h ⟨hname, hs, hs'⟩
    exact h hs hs' hname
  · rintro h hs hs' hname
    exact h ⟨hname, hs, hs'⟩

/-- Getters with one name would have one signature. -/
theorem DistinctMembers.getters (h : DistinctMembers t) :
    (methodSignatures t).Pairwise fun s s' =>
      ¬ (s.name = s'.name ∧ (s.sort = .getter && !s.isStatic) = true ∧
        (s'.sort = .getter && !s'.isStatic) = true) := by
  rw [DistinctMembers, List.Nodup, List.pairwise_filterMap] at h
  rw [methodSignatures, List.pairwise_filterMap]
  refine h.imp fun {a b} hab s hs s' hs' => ?_
  rintro ⟨hname, hgetter, hgetter'⟩
  obtain ⟨hsort, hstatic⟩ : s.sort = .getter ∧ s.isStatic = false := by simpa using hgetter
  obtain ⟨hsort', hstatic'⟩ : s'.sort = .getter ∧ s'.isStatic = false := by simpa using hgetter'
  have hsame : s = s' := by
    cases s
    cases s'
    simp_all
  exact hab _ (signature?_of_getter hs hsort) _ (signature?_of_getter hs' hsort') (by rw [hsame])

/-- The options of a class whose members are distinct are written with these keys, and the keys are
distinct exactly if no two methods meet. -/
theorem options_distinctKeys_iff {r : Reading} {t : Tree} {c : ClassComponent} {m : Model}
    {sections : List (List Char)} (hclass : t.kind = .classDef) (hfields : t.FieldsInClasses)
    (hdistinct : DistinctMembers t) (hcomponent : IsComponentOf r t.arrowFieldsAsMethods c)
    (hsections : classSections m c = some sections) :
    WritesOptions m c sections ∧
      (DistinctKeys m c ↔ (methodSignatures t).Pairwise fun s s' => ¬ s.Meets s') := by
  refine ⟨writesOptions_classSections hsections, ?_⟩
  have hhooks := nodup_optionEntries_iff m c
  rw [hooks_eq hclass hfields hcomponent, nodup_hooks_iff] at hhooks
  have hmethods : ((methodsOf c).map Member.name).Nodup ↔ (methodSignatures t).Pairwise
      fun s s' => ¬ (s.name = s'.name ∧ s.isListed = true ∧ s'.isListed = true) := by
    have hnames := names_eq hclass hfields hcomponent isMethodRole
    simp only [MethodSignature.role?_any_isMethodRole] at hnames
    rw [methodsOf, hnames, nodup_names_iff]
  have hgetters : ((gettersOf c).map Member.name).Nodup := by
    have hnames := names_eq hclass hfields hcomponent (· = .getter)
    simp only [MethodSignature.role?_any_getter] at hnames
    rw [gettersOf, hnames, nodup_names_iff]
    exact hdistinct.getters
  simp only [MethodSignature.Meets, not_or]
  rw [List.pairwise_and_iff, ← hhooks, ← hmethods]
  constructor
  · rintro ⟨hoptions, -, hnames⟩
    exact ⟨hoptions, hnames⟩
  · rintro ⟨hoptions, hnames⟩
    exact ⟨hoptions, hgetters, hnames⟩

def writtenClass? (source : List Char) :
    Option (Reading × Tree × ClassComponent × List (List Char)) := do
  let m ← (parse source).toOption
  let t ← m.tree.subtrees.find? (·.kind = .classDef)
  let r : Reading := ⟨source, m.repair source⟩
  let repaired := t.arrowFieldsAsMethods
  let c ← (addClass r {} (nameOrAnonymous repaired) repaired false).classComponent
  let sections ← classSections {} c
  return (r, t, c, sections)

theorem exists_writtenClass? (text : String) (P : Tree → ClassComponent → Prop)
    [∀ t c, Decidable (P t c)]
    (h : ((writtenClass? (Source.readChars text)).any fun x => P x.2.1 x.2.2.1) = true) :
    ∃ r t c sections, writtenClass? text.toList = some (r, t, c, sections) ∧
      t.kind = .classDef ∧ IsComponentOf r t.arrowFieldsAsMethods c ∧
      classSections {} c = some sections ∧ P t c := by
  rw [Source.readChars_eq] at h
  obtain ⟨⟨r, t, c, sections⟩, hwritten, hP⟩ := (Option.any_eq_true _ _).1 h
  refine ⟨r, t, c, sections, hwritten, ?_⟩
  obtain ⟨m, -, hm⟩ := Option.bind_eq_some_iff.1 hwritten
  obtain ⟨t', ht, hm⟩ := Option.bind_eq_some_iff.1 hm
  obtain ⟨c', hc, hm⟩ := Option.bind_eq_some_iff.1 hm
  obtain ⟨sections', hsections, hm⟩ := Option.bind_eq_some_iff.1 hm
  obtain ⟨rfl, rfl, rfl, rfl⟩ : _ = r ∧ t' = t ∧ c' = c ∧ sections' = sections := by
    simpa using Option.some.inj hm
  exact ⟨by simpa using List.find?_some ht, ⟨{}, false, hc⟩, hsections, of_decide_eq_true hP⟩

def sharedName : String :=
  "class A \x7b static f() \x7b\x7d get f() \x7b return 1; \x7d f = 2; g = () => 3; " ++
    "componentDidMount() \x7b\x7d render() \x7b\x7d \x7d"

set_option maxRecDepth 100000 in
/-- Three members have one name, and the keys are distinct. -/
theorem options_distinctKeys_sharedName :
    ∃ r t c sections, writtenClass? sharedName.toList = some (r, t, c, sections) ∧
      t.kind = .classDef ∧ t.FieldsInClasses ∧ DistinctMembers t ∧
      IsComponentOf r t.arrowFieldsAsMethods c ∧ classSections {} c = some sections ∧
      WritesOptions {} c sections ∧ DistinctKeys {} c := by
  obtain ⟨r, t, c, sections, hwritten, hclass, hcomponent, hsections, hfields, hdistinct, hmeet⟩ :=
    exists_writtenClass? sharedName (fun t _ => t.FieldsInClasses ∧ DistinctMembers t ∧
      (methodSignatures t).Pairwise fun s s' => ¬ s.Meets s') (by decide +kernel)
  have hoptions := options_distinctKeys_iff hclass hfields hdistinct hcomponent hsections
  exact ⟨r, t, c, sections, hwritten, hclass, hfields, hdistinct, hcomponent, hsections, hoptions.1,
    hoptions.2.2 hmeet⟩

def bothSpellings : String :=
  "class A \x7b componentWillMount() \x7b a(); \x7d UNSAFE_componentWillMount() \x7b b(); \x7d \x7d"

set_option maxRecDepth 100000 in
/-- The two methods have one key. -/
theorem options_repeat_bothSpellings :
    ∃ r t c sections, writtenClass? bothSpellings.toList = some (r, t, c, sections) ∧
      t.kind = .classDef ∧ t.FieldsInClasses ∧ DistinctMembers t ∧
      IsComponentOf r t.arrowFieldsAsMethods c ∧ classSections {} c = some sections ∧
      (optionEntries {} c).map Entry.key = ["name", "beforeMount", "beforeMount"] ∧
      ¬ DistinctKeys {} c := by
  obtain ⟨r, t, c, sections, hwritten, hclass, hcomponent, hsections, hfields, hdistinct, hkeys⟩ :=
    exists_writtenClass? bothSpellings (fun t c => t.FieldsInClasses ∧ DistinctMembers t ∧
      (optionEntries {} c).map Entry.key = ["name", "beforeMount", "beforeMount"])
      (by decide +kernel)
  refine ⟨r, t, c, sections, hwritten, hclass, hfields, hdistinct, hcomponent, hsections, hkeys,
    fun hkeys' => ?_⟩
  have hnodup := hkeys'.options
  rw [hkeys] at hnodup
  exact absurd hnodup (by decide)

end Revue.Analysis
