import Formulary.CommandLine.Options
import Formulary.Output.Module
import Formulary.Rulebook.Load
import Formulary.Settings.Load

set_option autoImplicit false

namespace Formulary

/-- Reading and writing of files as actions. -/
structure Disk (m : Type → Type) where
  readText : String → m (Except FileFault String)
  writeText : String → String → m (Except FileFault Unit)

namespace Files

/-- A tree of files as a disk. -/
def disk : Disk (StateM Files) where
  readText path := do return (← get).readText path
  writeText path text := do
    match (← get).writeText path text with
    | .ok files => set files; return .ok ()
    | .error fault => return .error fault

end Files

/-- What a run shows. -/
structure Outcome where
  exitCode : Nat
  output : String
  errors : String
  deriving DecidableEq, Repr

namespace Outcome

/-- A run that cannot go on, with the step that failed and why. -/
def failed (step cause : String) : Outcome :=
  ⟨1, "", "Error: " ++ step ++ "\n\nCaused by:\n    " ++ cause ++ "\n"⟩

/-- The arguments are wrong. -/
def misused : Outcome := ⟨2, "", ""⟩

/-- A run that only shows a text. -/
def shown (text : String) : Outcome := ⟨0, text, ""⟩

end Outcome

def versionText : String := "formula-designer 0.1.0\n"

def helpText : String :=
  "\n".intercalate
    ["Generate Python classes from a JSON entity schema, compiling every calculated field and " ++
      "aggregation formula into a property",
      "",
      "Usage: formula-designer [OPTIONS] --input <INPUT> --output <OUTPUT>",
      "",
      "Options:",
      "  -i, --input <INPUT>",
      "          Path to the input JSON schema",
      "  -o, --output <OUTPUT>",
      "          Path to the output .py file",
      "      --include-sample-main",
      "          Also emit a sample_main() entry point",
      "      --config <CONFIG>",
      "          TOML file with generator settings. Flags override it",
      "      --building-block-module <BUILDING_BLOCK_MODULE>",
      "          Module the building blocks are imported from",
      "      --strict",
      "          Exit with an error if any formula failed to compile",
      "  -h, --help",
      "          Print help",
      "  -V, --version",
      "          Print version",
      ""]

namespace Failure

def warning (failure : Failure) : String :=
  "warning: " ++ failure.entity ++ "." ++ failure.member ++ ": " ++ failure.fault.message ++ "\n"

end Failure

namespace Options

/-- Options of the command line win over loaded settings. -/
def adjust (options : Options) (settings : Settings) : Settings :=
  { settings with
    blockModule := options.blockModule.getD settings.blockModule
    sampleMain := options.sampleMain || settings.sampleMain }

/-- The report on a module that was written. -/
def report (options : Options) (code : ModuleCode) : Outcome :=
  let output := "Generated Python code written to " ++ options.output ++ "\n" ++
    (if code.needs.blocks.isEmpty then ""
      else "Detected usage of building blocks: " ++ ", ".intercalate code.needs.blocks.toList ++
        "\n")
  let warnings := "".intercalate (code.failures.map Failure.warning)
  if options.strict && !code.failures.isEmpty then
    ⟨1, output, warnings ++ "Error: " ++ toString code.failures.length ++
      " formula(s) failed to compile\n"⟩
  else ⟨0, output, warnings⟩

variable {m : Type → Type} [Monad m]

/-- The settings from the file that the options name, or else the defaults. -/
def loadSettings (disk : Disk m) (environment : Option String) (options : Options) :
    m (Except SettingsFault Settings) :=
  match options.config with
  | none => return .ok (Settings.default.withEnvironment environment)
  | some path => do return Settings.ofFile path environment (← disk.readText path)

def loadRulebook (disk : Disk m) (options : Options) : m (Except SchemaFault Rulebook) := do
  return Rulebook.ofFile options.input (← disk.readText options.input)

/-- Generates a module as the options say. -/
def run (disk : Disk m) (environment : Option String) (options : Options) : m Outcome := do
  match ← options.loadSettings disk environment with
  | .error fault => return .failed ("loading config " ++ options.config.getD "") fault.message
  | .ok settings =>
    match ← options.loadRulebook disk with
    | .error fault => return .failed ("loading schema " ++ options.input) fault.message
    | .ok rulebook =>
      let code := ModuleCode.ofRulebook (options.adjust settings) rulebook
      match ← disk.writeText options.output code.source with
      | .error fault => return .failed ("writing " ++ options.output) fault.message
      | .ok () => return options.report code

end Options

namespace CommandLine

/-- Runs the command line with its arguments and the module that the environment names. -/
def run {m : Type → Type} [Monad m] (disk : Disk m) (environment : Option String)
    (arguments : List String) : m Outcome :=
  match Command.ofArguments arguments with
  | none => return .misused
  | some .help => return .shown helpText
  | some .version => return .shown versionText
  | some (.generate options) => options.run disk environment

/-- A run on a tree of files: what it shows, and the tree after it. -/
def runOn (files : Files) (environment : Option String) (arguments : List String) :
    Outcome × Files :=
  run Files.disk environment arguments files

end CommandLine

end Formulary
