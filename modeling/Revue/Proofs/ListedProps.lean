import Revue.Proofs.ObjectEntries
import Revue.Vue.Props

/-!
# The props of a component in their order

What is recorded for a component is collected in tables: one for each object or type, one for all of
them, and one more that joins declarations and default values. In each of them a name keeps the
place of its first entry and gets the value of its last. So the props option lists the names in the
order in which they were recorded first, declared ones before those with a default value only, and
each with what was recorded for it last.
-/

namespace Revue.Vue
open Text Component Analysis

section Defaults
variable (t : Table PropEntry) (defaults : Table String)

def addDefaults : Table PropEntry :=
  defaults.foldl (fun t (name, value) => addDefault t name value) t

theorem addDefaults_concat (p : String × String) :
    addDefaults t (defaults ++ [p]) = addDefault (addDefaults t defaults) p.1 p.2 :=
  List.foldl_concat _ _ _ _

theorem keys_addDefaults (hkeys : t.keys.eraseDups = t.keys) :
    (addDefaults t defaults).keys = (t.keys ++ defaults.keys).eraseDups := by
  induction defaults using List.reverseRecOn with
  | nil => exact hkeys.symm.trans (by rw [Table.keys_nil, List.append_nil])
  | append_singleton defaults p ih =>
    rw [addDefaults_concat, addDefault, Table.keys_insert, ih, Table.keys_concat,
      ← List.append_assoc, eraseDups_concat]
    simp

theorem get?_addDefaults (name : String) :
    ((addDefaults t defaults).get? name).getD {} =
      { (t.get? name).getD {} with
        default := (defaults.last? name).or ((t.get? name).getD {}).default } := by
  induction defaults using List.reverseRecOn with
  | nil => rfl
  | append_singleton defaults p ih =>
    rw [addDefaults_concat, Table.last?_concat, addDefault]
    split
    · rename_i hname
      subst hname
      rw [Table.get?_insert_self, Option.getD_some, ih]
      rfl
    · rename_i hname
      rw [Table.get?_insert_of_ne (Ne.symm hname), ih]

end Defaults

theorem last?_map_spec (declared : PropTable) (name : String) :
    Table.last? name
        (declared.map fun (name, spec) => (name, ({ spec := some spec } : PropEntry))) =
      (declared.last? name).map fun spec => { spec := some spec } := by
  induction declared using List.reverseRecOn with
  | nil => rfl
  | append_singleton declared p ih =>
    obtain ⟨key, spec⟩ := p
    rw [List.map_append, List.map_singleton, Table.last?_concat, Table.last?_concat, ih]
    by_cases hkey : key = name <;> simp [hkey]

/-- The props of a component, given what its tables list. -/
theorem propEntries_eq {m : Model} {component : String} {declared : List (String × PropSpec)}
    {defaults : List (String × String)}
    (hdeclared : ((m.propTypes.get? component).getD []).Lists declared)
    (hdefaults : ((m.defaultProps.get? component).getD []).Lists defaults) :
    propEntries m component = (Table.keys declared ++ Table.keys defaults).eraseDups.map fun name =>
      (name, ⟨Table.last? name declared, Table.last? name defaults⟩) := by
  let specs : Table PropEntry := ((m.propTypes.get? component).getD []).map fun (name, spec) =>
    (name, { spec := some spec })
  have hspecs := Table.lists_extend specs
  have hkeys : (propEntries m component).keys =
      (Table.keys declared ++ Table.keys defaults).eraseDups := by
    have hnames : specs.keys = Table.keys ((m.propTypes.get? component).getD []) := by
      simp [specs, Table.keys]
    refine (keys_addDefaults _ _ hspecs.keys_eraseDups).trans ?_
    rw [hspecs.keys, hnames, hdeclared.keys, hdefaults.keys, eraseDups_eraseDups,
      eraseDups_append_eraseDups]
  refine (Table.eq_map_keys (hkeys ▸ nodup_eraseDups _) {}).trans ?_
  rw [hkeys]
  refine List.map_congr_left fun name _ => Prod.ext rfl ?_
  refine (get?_addDefaults _ _ name).trans ?_
  rw [hspecs.values, last?_map_spec, hdeclared.last?_eq, hdefaults.last?_eq]
  cases Table.last? name declared <;> cases Table.last? name defaults <;> rfl

end Revue.Vue

