import Replay.CommandLine
/-!
The program: reads what the arguments ask for, and prints the answer.
-/

namespace Replay
namespace Program

open CommandLine

def readSource (source : Source) : IO (Except ReadFailure String) := do
  match source with
  | .inline text => return .ok text
  | .file path =>
    try
      return decode (← IO.FS.readBinFile path)
    catch
      | .noFileOrDirectory .. => return .error .missing
      | e => return .error (.other (toString e))
  | .standardInput => return decode (← (← IO.getStdin).readBinToEnd)

def answer (arguments : List String) : IO Answer := do
  match request arguments with
  | .version => return versionAnswer
  | .help => return helpAnswer
  | .misuse => return misuseAnswer
  | .run options =>
    match ← readSource options.source with
    | .error failure => return readFailureAnswer failure
    | .ok script =>
      match runAnswer Script.ampleFuel options.maxDepth script with
      | some answer => return answer
      | none => return ⟨2, "", "The script did not end.\n"⟩

end Program
end Replay

def main (arguments : List String) : IO UInt32 := do
  let answer ← Replay.Program.answer arguments
  IO.print answer.stdout
  IO.eprint answer.stderr
  return answer.exitCode
