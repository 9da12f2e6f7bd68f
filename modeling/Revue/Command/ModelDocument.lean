import Revue.Component.Model
import Revue.Text.Json

/-!
# Models as documents

A component model written out for inspection.
-/

namespace Revue.Command
open Text Component

def spanJson (s : Span) : Json :=
  .object [("start", .nat s.start), ("end", .nat s.stop)]

def siteJson (s : Site) : Json :=
  .object [("range", spanJson s.range), ("kind", .string s.kind.text)]

def fragmentJson (f : Fragment) : Json :=
  .object [("text", .string f.text), ("sites", .array (f.sites.map siteJson))]

def roleJson : MemberRole → Json
  | .render => .string "Render"
  | .lifecycle hook => .object [("Lifecycle", .string hook.text)]
  | .getter => .string "Getter"
  | .method => .string "Method"
  | .static => .string "Static"

def memberJson (m : Member) : Json :=
  .object
    [("name", .string m.name), ("role", roleJson m.role), ("params", .string m.params),
      ("body", fragmentJson m.body), ("is_async", .bool m.isAsync),
      ("is_generator", .bool m.isGenerator), ("leading_comments", .strings m.leadingComments)]

def classJson (c : ClassComponent) : Json :=
  .object
    [("name", .string c.name), ("span", spanJson c.span), ("state", .option fragmentJson c.state),
      ("created", .array (c.created.map fragmentJson)),
      ("members", .array (c.members.map memberJson))]

def bodyJson : Body → Json
  | .block f => .object [("Block", fragmentJson f)]
  | .expr f => .object [("Expr", fragmentJson f)]

def originJson : Origin → Json
  | .declaration => .string "declaration"
  | .arrow => .string "arrow"

def functionalJson (c : FunctionalComponent) : Json :=
  .object
    [("name", .string c.name), ("params", .strings c.params),
      ("props_binding", .option .string c.propsBinding), ("body", bodyJson c.body),
      ("origin", originJson c.origin), ("is_async", .bool c.isAsync),
      ("source", .string c.source), ("span", spanJson c.span)]

def specJson (p : PropSpec) : Json :=
  .object
    [("kind", .string (match p.kind with | .typed => "typed" | .validated => "validated")),
      ("vue_type", .option (fun t => .string t.constructorName) p.type?),
      ("required", .bool p.isRequired), ("has_custom_validator", .bool p.acceptsAll)]

def tableJson {α : Type} (f : α → Json) (t : Table α) : Json :=
  .object (t.map fun (key, value) => (key, f value))

def loggedJson (c : Caveat) : Json :=
  .object
    [("code", .string c.code.text), ("message", .string c.message),
      ("span", .option spanJson c.span?)]

def modelJson (m : Model) : Json :=
  .object
    [("imports", .strings m.imports), ("declarations", .strings m.declarations),
      ("class_component", .option classJson m.classComponent),
      ("functional_components", .array (m.functionalComponents.map functionalJson)),
      ("prop_types", tableJson (tableJson specJson) m.propTypes),
      ("default_props", tableJson (tableJson .string) m.defaultProps),
      ("display_names", tableJson .string m.displayNames),
      ("caveats", .array (m.caveats.toList.map loggedJson)),
      ("export_name", .option .string m.exportName)]

end Revue.Command
