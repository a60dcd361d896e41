import Formulary.CommandLine.Run

set_option autoImplicit false

namespace Formulary

/-- The variable that names another module for the building blocks. -/
def environmentVariable : String := "FORMULA_DESIGNER_BLOCK_MODULE"

def fileFault : IO.Error → FileFault
  | .noFileOrDirectory .. => .notFound
  | .inappropriateType .. => .notDirectory
  | error => .other (toString error)

/-- The files of the system as a disk. -/
def systemDisk : Disk IO where
  readText path := do
    try
      match String.fromUTF8? (← IO.FS.readBinFile path) with
      | some text => return .ok text
      | none => return .error .notText
    catch error => return .error (fileFault error)
  writeText path text := do
    try
      IO.FS.writeFile path text
      return .ok ()
    catch error => return .error (fileFault error)

end Formulary

def main (arguments : List String) : IO UInt32 := do
  let environment ← IO.getEnv Formulary.environmentVariable
  let outcome ← Formulary.CommandLine.run Formulary.systemDisk environment arguments
  IO.print outcome.output
  IO.eprint outcome.errors
  return outcome.exitCode.toUInt32
