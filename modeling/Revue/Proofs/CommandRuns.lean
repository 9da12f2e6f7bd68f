import Revue.Command.Run

/-!
# Runs are all or nothing

A run on a set of files reads the input and the nearest configuration, makes a model of the source,
and only then prints or writes. `Ends` lists all ways in which such a run can end. A run that ends
at its input leaves the files alone and prints nothing; one that ends well has put the whole
component in its place, whether or not its caveats make it fail.
-/

namespace Revue.Command
open Text Component

variable {after : Files} {model : Model} {source : String} {s : Settings} {args : List String}

namespace Files
variable {files : Files} {place other : List String} {content : String}

end Files

/-- The configuration of a project: the first of some files that is there, if it holds one. -/
def configurationAt? (files : Files) (paths : List String) : Option Configuration :=
  (paths.findSome? files.read?).elim (some {}) Configuration.ofText?

def settingsFor? (files : Files) (a : Arguments) (source : String) : Option Settings :=
  (configurationAt? files (configurationPaths a.input)).map fun config => .resolve a config source

structure Understands (a : Arguments) (files : Files) (source : String) (s : Settings)
    (model : Model) : Prop where
  read : files.read? a.input = some source
  settings : settingsFor? files a source = some s
  model : Analysis.analyze s.options source = .ok model

def conversionOf (s : Settings) (source : String) (model : Model) : Conversion :=
  ⟨model, Source.preprocess source s.options.isFlow, s.failsOnCaveats⟩

inductive Ends (a : Arguments) (files : Files) : Outcome × Files → Prop
  | unreadable (hread : files.read? a.input = none) :
      Ends a files (.ofFatal (.unreadable a.input) "", files)
  | misconfigured {source : String} (path : String) (hread : files.read? a.input = some source)
      (hsettings : settingsFor? files a source = none) :
      Ends a files (.ofFatal (.configuration path) "", files)
  | failed {source : String} {s : Settings} {f : Analysis.Failure}
      (hread : files.read? a.input = some source) (hsettings : settingsFor? files a source = some s)
      (hfailed : Analysis.analyze s.options source = .error f) :
      Ends a files (.ofFatal (.failure f) "", files)
  | misplaced {source : String} {s : Settings} {model : Model} (stdout : String)
      (h : Understands a files source s model) (hnone : Vue.generate model = none) :
      Ends a files (.ofFatal .misplacedSite stdout, files)
  | unwritable {source text path : String} {s : Settings} {model : Model} (stdout : String)
      (h : Understands a files source s model) (htext : Vue.generate model = some text)
      (houtput : a.output = some path) (hwrite : files.write? path text = none) :
      Ends a files (.ofFatal (.unwritable path) stdout, files)
  | printed {source text : String} {s : Settings} {model : Model} {o : Outcome}
      (h : Understands a files source s model) (htext : Vue.generate model = some text)
      (houtput : a.output = none) (hfatal : o.fatal? = none)
      (hexit : o.exitCode = (conversionOf s source model).exitCode)
      (hstdout : o.stdout =
        if a.emitsModel then (conversionOf s source model).modelText a else text) :
      Ends a files (o, files)
  | written {source text path : String} {s : Settings} {model : Model} {o : Outcome}
      {after : Files} (h : Understands a files source s model)
      (htext : Vue.generate model = some text) (houtput : a.output = some path)
      (hwrite : files.write? path text = some after) (hfatal : o.fatal? = none)
      (hexit : o.exitCode = (conversionOf s source model).exitCode) :
      Ends a files (o, after)

section
variable {files : Files} {a : Arguments}

theorem Understands.unique {source' : String} {s' : Settings} {model' : Model}
    (h : Understands a files source s model) (h' : Understands a files source' s' model') :
    source' = source ∧ s' = s ∧ model' = model := by
  obtain rfl := Option.some.inj (h'.read.symm.trans h.read)
  obtain rfl := Option.some.inj (h'.settings.symm.trans h.settings)
  exact ⟨rfl, rfl, Except.ok.inj (h'.model.symm.trans h.model)⟩

namespace Ends
variable {r : Outcome × Files}

section
variable (h : Ends a files r)
include h

end

end Ends

end

end Revue.Command
