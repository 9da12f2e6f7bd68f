/-!
# Help

What is printed when the help or the version is asked for.
-/

namespace Revue.Command

def about : String := "Converts React components into Vue components"

def versionText : String := "react-to-vue 0.3.0\n"

/-- An argument in the help: how it is given, and what it is for. -/
structure HelpEntry where
  usage : String
  purpose : String
  /-- What the short form adds to the purpose. -/
  note : String := ""
  /-- The lines that the long form adds below the purpose. -/
  details : List String := []

def helpInput : HelpEntry :=
  ⟨"<INPUT>", "React component file to convert", "", []⟩

def helpOptions : List HelpEntry :=
  [{ usage := "-o, --output <OUTPUT>"
     purpose := "Write the Vue component to this file instead of stdout" },
    { usage := "    --ts"
      purpose := "Read props from TypeScript interfaces (default for .ts/.tsx files)" },
    { usage := "    --flow"
      purpose := "Erase Flow annotations before parsing (default with an @flow pragma)" },
    { usage := "    --format <FORMAT>"
      purpose := "Caveat report format"
      note := " [default: human] [possible values: human, json]"
      details :=
        ["          ", "          [default: human]", "", "          Possible values:",
          "          - human: Human-readable output (default)", "          - json:  JSON output"] },
    { usage := "    --fail-on-caveats"
      purpose := "Exit with an error when any caveat is raised" },
    { usage := "    --emit-model"
      purpose := "Print the extracted component model as JSON (for debugging)" },
    { usage := "-v, --verbose..."
      purpose := "Increase log verbosity (-v debug, -vv trace)" },
    { usage := "-h, --help", purpose := "Print help" },
    { usage := "-V, --version", purpose := "Print version" }]

def padded (width : Nat) (s : String) : String :=
  s ++ String.ofList (List.replicate (width - s.length) ' ')

def HelpEntry.short (width : Nat) (e : HelpEntry) : String :=
  "  " ++ padded width e.usage ++ "  " ++ e.purpose ++ e.note

def HelpEntry.long (e : HelpEntry) : String :=
  "\n".intercalate (("  " ++ e.usage) :: ("          " ++ e.purpose) :: e.details)

/-- The entry for the help says what the other form is. -/
def HelpEntry.pointing (isLong : Bool) (e : HelpEntry) : HelpEntry :=
  if e.purpose = "Print help" then
    { e with purpose := e.purpose ++
        (if isLong then " (see a summary with '-h')" else " (see more with '--help')") }
  else e

def helpText (isLong : Bool) : String :=
  let options := helpOptions.map (·.pointing isLong)
  let width := (helpOptions.map (·.usage.length)).foldl max 0
  let (input, listed) :=
    if isLong then (helpInput.long, "\n\n".intercalate (options.map (·.long)))
    else (helpInput.short 7, "\n".intercalate (options.map (·.short width)))
  about ++ "\n\nUsage: react-to-vue [OPTIONS] <INPUT>\n\nArguments:\n" ++ input ++
    "\n\nOptions:\n" ++ listed ++ "\n"

end Revue.Command
