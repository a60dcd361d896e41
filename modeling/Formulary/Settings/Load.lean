import Formulary.Files
import Formulary.Settings.Basic
import Formulary.Text.Blank
import Formulary.Toml.Reader

set_option autoImplicit false

namespace Formulary

inductive SettingsFault where
  /-- The text is no TOML document, or a setting in it has a value of another type. -/
  | notSettings
  | unreadable (path : String) (cause : FileFault)
  deriving DecidableEq, Repr

namespace SettingsFault

def message : SettingsFault → String
  | notSettings => "invalid settings"
  | unreadable path cause => "failed to read " ++ path ++ ": " ++ cause.message

end SettingsFault

namespace Settings

def textAt (entries : Toml.Entries) (key fallback : String) : Option String :=
  match entries.lookup key with
  | none => some fallback
  | some (.scalar (.string value)) => some value
  | some _ => none

def flagAt (entries : Toml.Entries) (key : String) (fallback : Bool) : Option Bool :=
  match entries.lookup key with
  | none => some fallback
  | some (.scalar (.boolean value)) => some value
  | some _ => none

/-- A key that is left out keeps its default and an unknown key is skipped; a known key has to have
a value of its type. -/
def ofEntries (entries : Toml.Entries) : Option Settings := do
  let blockModule ← textAt entries "building_block_module" default.blockModule
  let sampleMain ← flagAt entries "include_sample_main" default.sampleMain
  let header ← textAt entries "header" default.header
  return ⟨blockModule, sampleMain, header⟩

/-- The settings in a text. -/
def ofText (text : String) : Except SettingsFault Settings :=
  match (Toml.parse? text).bind ofEntries with
  | some settings => .ok settings
  | none => .error .notSettings

/-- The environment may name another module for the building blocks. A blank name is none. -/
def withEnvironment (environment : Option String) (settings : Settings) : Settings :=
  match environment.map Text.trim with
  | none => settings
  | some "" => settings
  | some name => { settings with blockModule := name }

/-- The settings in a file that has been read, or not, after a look at the environment. -/
def ofFile (path : String) (environment : Option String) :
    Except FileFault String → Except SettingsFault Settings
  | .ok text => (ofText text).map (withEnvironment environment)
  | .error cause => .error (.unreadable path cause)

end Settings

end Formulary
