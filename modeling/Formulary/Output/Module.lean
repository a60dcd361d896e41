import Formulary.Output.Class
import Formulary.Settings.Basic

set_option autoImplicit false

namespace Formulary

/-- The line between the shared code and the classes. -/
def classesMarker : String := "# ----- Generated classes below -----"

/-- The collection class and the maker of identifiers, the same in every module. -/
def sharedCode : List String :=
  ["import uuid",
    "",
    "# Append-only, insertion-ordered collection so callers can do obj.items.add(x).",
    "class CollectionWrapper:",
    "    def __init__(self, parent_object, attr_name):",
    "        self.parent_object = parent_object",
    "        self.attr_name = attr_name",
    "        if not hasattr(parent_object, '_collections'):",
    "            parent_object._collections = \x7b\x7d",
    "        if attr_name not in parent_object._collections:",
    "            parent_object._collections[attr_name] = []",
    "",
    "    def add(self, item):",
    "        self.parent_object._collections[self.attr_name].append(item)",
    "",
    "    def __iter__(self):",
    "        return iter(self.parent_object._collections[self.attr_name])",
    "",
    "    def __len__(self):",
    "        return len(self.parent_object._collections[self.attr_name])",
    "",
    "    def __getitem__(self, index):",
    "        return self.parent_object._collections[self.attr_name][index]",
    "",
    "",
    "def _auto_id():",
    "    \"\"\"Generate an ID for objects created without one.\"\"\"",
    "    return str(uuid.uuid4())",
    ""]

def sampleEntryPoint : List String :=
  ["def sample_main():",
    "    \"\"\"",
    "    Minimal demonstration of how to use the generated classes.",
    "    \"\"\"",
    "    print(\"sample_main() not fully implemented. Please fill in your usage.\")",
    "",
    "",
    "if __name__ == \"__main__\":",
    "    sample_main()"]

/-- The imports that the classes need. -/
def importLines (settings : Settings) (needs : Needs) : List String :=
  ["import math", "import numpy as np"] ++
    (if needs.statistics then ["import statistics"] else []) ++
    (if needs.blocks.isEmpty then []
      else ["from " ++ settings.blockModule ++ " import " ++
        ", ".intercalate needs.blocks.toList])

/-- Ends a text with exactly one line feed. -/
def endLine (text : String) : String :=
  String.ofList ((text.toList.reverse.dropWhile (· == '\n')).reverse ++ ['\n'])

/-- The module for a rulebook: a docstring, imports, the code that all modules share, the classes in
the order of the entities, and a sample entry point if one is asked for. The text ends with one
line feed. -/
structure ModuleCode where
  source : String
  needs : Needs
  failures : List Failure
  log : List LogRecord

namespace Rulebook

/-- The classes of all entities. -/
def classes (rulebook : Rulebook) : List ClassCode := rulebook.entities.map ClassCode.ofEntity

end Rulebook

namespace ModuleCode

/-- The lines of a module, where a class counts as one. -/
def lines (settings : Settings) (needs : Needs) (classes : List ClassCode) : List String :=
  tripleQuote :: Text.lines settings.header ++ [tripleQuote] ++ importLines settings needs ++
    ["", ""] ++ sharedCode ++ ["", classesMarker, ""] ++
    (classes.flatMap fun code => [code.text, "", ""]) ++
    (if settings.sampleMain then sampleEntryPoint else [])

def ofRulebook (settings : Settings) (rulebook : Rulebook) : ModuleCode :=
  let classes := rulebook.classes
  let needs := Needs.joinAll (classes.map ClassCode.needs)
  let failures := classes.flatMap ClassCode.failures
  let summary : LogRecord :=
    ⟨.info, "generated " ++ toString rulebook.entities.length ++ " entities (" ++
      toString rulebook.formulaCount ++ " formulas, " ++ toString failures.length ++ " failed)"⟩
  { source := endLine ("\n".intercalate (lines settings needs classes))
    needs := needs
    failures := failures
    log := classes.flatMap ClassCode.log ++ [summary] }

end ModuleCode

end Formulary
