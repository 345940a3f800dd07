import TapeMachine.CommandLine

/-!
# The program

Reads what the options ask for, and prints what the command line answers.
-/

namespace TapeMachine.Main

/-- The cause of a failed reading. -/
def readError : IO.Error → ReadError
  | .noFileOrDirectory _ _ _ => .notFound
  | .inappropriateType _ code details =>
    if code = 21 then .isFolder else if code = 20 then .notAFolder else .other details
  | .permissionDenied _ _ _ => .denied
  | .invalidArgument _ code details => if code = 36 then .nameTooLong else .other details
  | e => .other e.toString

/-- The bytes of a file, or why it cannot be read. -/
def readPath (path : String) : IO (Except ReadError ByteArray) := do
  try
    return .ok (← IO.FS.readBinFile path)
  catch e =>
    return .error (readError e)

/-- The bytes that are left of a stream, after those read before. -/
partial def readRest (input : IO.FS.Stream) (before : ByteArray) : IO ByteArray := do
  let chunk ← input.read 65536
  if chunk.isEmpty then return before else readRest input (before ++ chunk)

/-- What the options make the command line read. -/
def surroundings (o : CommandLine.Options) : IO CommandLine.Surroundings := do
  match o.list, o.name, o.file with
  | false, none, some path =>
    let content ← readPath path
    return ⟨fun _ ↦ content, none⟩
  | false, none, none =>
    let input ← IO.getStdin
    if ← input.isTty then return ⟨fun _ ↦ .error .notFound, none⟩
    else return ⟨fun _ ↦ .error .notFound, some (← readRest input ByteArray.empty)⟩
  | _, _, _ => return ⟨fun _ ↦ .error .notFound, none⟩

end TapeMachine.Main

open TapeMachine in
/-- Runs the command line on the arguments of the process. -/
def main (args : List String) : IO UInt32 := do
  let known ← match CommandLine.Options.ofArguments args with
    | .ok o => Main.surroundings o
    | .error _ => pure ⟨fun _ ↦ .error .notFound, none⟩
  let result := CommandLine.respond args known
  IO.print result.output
  if let some failure := result.failure then
    IO.eprintln ("Error: " ++ failure.text)
  return result.exit.toUInt32
