set_option autoImplicit false

namespace Formulary

/-- What a run is asked to do. -/
structure Options where
  input : String
  output : String
  config : Option String
  blockModule : Option String
  sampleMain : Bool
  strict : Bool
  deriving DecidableEq, Repr

/-- What the arguments ask for. They are read from left to right; the first one that is wrong, or
that asks for the help or the version, decides. -/
inductive Command where
  | help
  | version
  | generate (options : Options)
  deriving DecidableEq, Repr

/-- Options that take a value. -/
inductive Setting where
  | input
  | output
  | config
  | blockModule
  deriving DecidableEq, Repr

/-- Options that take none. -/
inductive Switch where
  | sampleMain
  | strict
  | help
  | version
  deriving DecidableEq, Repr

inductive Argument where
  | switch (which : Switch)
  /-- The value is missing if it is the next argument. -/
  | setting (which : Setting) (value : Option String)
  /-- No option may follow. -/
  | separator
  deriving DecidableEq, Repr

namespace Argument

/-- An option by its long name, without the two dashes. -/
def ofName? : String → Option Argument
  | "input" => some (.setting .input none)
  | "output" => some (.setting .output none)
  | "config" => some (.setting .config none)
  | "building-block-module" => some (.setting .blockModule none)
  | "include-sample-main" => some (.switch .sampleMain)
  | "strict" => some (.switch .strict)
  | "help" => some (.switch .help)
  | "version" => some (.switch .version)
  | _ => none

/-- An option by its letter, with the text right after it. -/
def ofLetter? (letter : Char) (attached : List Char) : Option Argument :=
  let value := match attached with
    | [] => none
    | '=' :: rest => some (String.ofList rest)
    | _ => some (String.ofList attached)
  match letter with
  | 'i' => some (.setting .input value)
  | 'o' => some (.setting .output value)
  | 'h' => some (.switch .help)
  | 'V' => some (.switch .version)
  | _ => none

/-- Puts a value that is given after an equals sign into its option. A switch takes none. -/
def withValue (value : String) : Argument → Option Argument
  | setting which none => some (.setting which (some value))
  | _ => none

/-- An option as it is written. Nothing but options is understood. -/
def ofText? (text : String) : Option Argument :=
  match text.toList with
  | ['-', '-'] => some .separator
  | '-' :: '-' :: rest =>
    let name := String.ofList (rest.takeWhile (· != '='))
    match rest.dropWhile (· != '=') with
    | [] => ofName? name
    | _ :: value => (ofName? name).bind (withValue (String.ofList value))
  | '-' :: letter :: attached => ofLetter? letter attached
  | _ => none

/-- Whether a text can be a value in an argument of its own. A dash alone can. -/
def isValue (text : String) : Bool :=
  match text.toList with
  | '-' :: _ :: _ => false
  | _ => true

end Argument

/-- The options found so far. -/
structure Given where
  input : Option String
  output : Option String
  config : Option String
  blockModule : Option String
  sampleMain : Bool
  strict : Bool

namespace Given

def nothing : Given := ⟨none, none, none, none, false, false⟩

/-- Sets an option that was not set before. Only the name of a module may be empty. -/
def set (given : Given) (which : Setting) (value : String) : Option Given :=
  match which with
  | .input =>
    if given.input.isSome ∨ value = "" then none else some { given with input := some value }
  | .output =>
    if given.output.isSome ∨ value = "" then none else some { given with output := some value }
  | .config =>
    if given.config.isSome ∨ value = "" then none else some { given with config := some value }
  | .blockModule =>
    if given.blockModule.isSome then none else some { given with blockModule := some value }

/-- The options are complete with an input and an output. -/
def complete (given : Given) : Option Command := do
  let input ← given.input
  let output ← given.output
  return .generate
    ⟨input, output, given.config, given.blockModule, given.sampleMain, given.strict⟩

/-- Reads the arguments that are left. -/
def read (given : Given) : List String → Option Command
  | [] => given.complete
  | text :: rest =>
    match Argument.ofText? text with
    | none => none
    | some .separator => if rest = [] then given.complete else none
    | some (.switch .help) => some .help
    | some (.switch .version) => some .version
    | some (.switch .sampleMain) =>
      if given.sampleMain then none else read { given with sampleMain := true } rest
    | some (.switch .strict) =>
      if given.strict then none else read { given with strict := true } rest
    | some (.setting which (some value)) =>
      match given.set which value with
      | none => none
      | some given => read given rest
    | some (.setting which none) =>
      match rest with
      | [] => none
      | value :: rest =>
        if Argument.isValue value then
          match given.set which value with
          | none => none
          | some given => read given rest
        else none

end Given

namespace Command

/-- The command that arguments spell. -/
def ofArguments (arguments : List String) : Option Command := Given.nothing.read arguments

end Command

end Formulary
