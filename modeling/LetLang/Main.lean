import LetLang.CommandLine

/-!
The command as a program: it reads the file or standard input and writes the outcome.
-/

namespace LetLang.CommandLine

def systemReason : IO.Error → String
  | .noFileOrDirectory _ code _ => "No such file or directory (os error " ++ toString code ++ ")"
  | .permissionDenied _ code _ => "Permission denied (os error " ++ toString code ++ ")"
  | e => toString e

def readInput (file : Option String) : IO (Except String String) := do
  try
    let bytes ←
      match file with
      | some path => IO.FS.readBinFile path
      | none => (← IO.getStdin).readBinToEnd
    return decode bytes
  catch e => return .error (systemReason e)

end LetLang.CommandLine

def main (args : List String) : IO UInt32 := do
  let outcome ← LetLang.CommandLine.run args LetLang.CommandLine.readInput
  (← IO.getStdout).putStr outcome.output
  (← IO.getStderr).putStr outcome.errors
  return outcome.code.toUInt32
