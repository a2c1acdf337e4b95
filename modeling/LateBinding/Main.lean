import LateBinding.CommandLine.Response

/-!
# LateBinding.Main

The command line: reads files, prints the answer and ends with its code.
-/

namespace LateBinding.CommandLine

/-- The content of a file, if it can be read. -/
def readFile? (path : String) : IO (Option ByteArray) := do
  try
    return some (← IO.FS.readBinFile path)
  catch _ =>
    return none

end LateBinding.CommandLine

open LateBinding.CommandLine in
/-- Answer to the arguments of the process. -/
def main (args : List String) : IO UInt32 := do
  let response ← respond readFile? args
  IO.print response.output
  if let some error := response.error then
    IO.eprintln ("Error: " ++ error)
  else if response.exitCode == 2 then
    IO.eprint usageText
  return response.exitCode
