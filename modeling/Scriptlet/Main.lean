import Std.Time.DateTime.Timestamp
import Scriptlet.CommandLine

/-!
# The program

Reads files, the clock and the standard input, and writes what `Scriptlet.CommandLine` answers.
-/

namespace Scriptlet.Main

open CommandLine

/-- The time in seconds, to hundredths. -/
def readClock : IO Number := do
  let now ← Std.Time.Timestamp.now
  let ms := now.toMillisecondsSinceUnixEpoch.val.toNat
  return (Number.ofMagnitude false (Number.nearest ms 1000)).roundToHundredths

/-- The bytes of a file, if it can be read. -/
def readFile? (path : String) : IO (Option (List UInt8)) := do
  try
    return some (← IO.FS.readBinFile path).data.toList
  catch _ => return none

/-- The bytes of the next line of the standard input, if there is one. -/
partial def readLine? (stdin : IO.FS.Stream) (line : Array UInt8) : IO (Option (List UInt8)) := do
  let bytes ← stdin.read 1
  match bytes.data.toList with
  | [] => return if line.isEmpty then none else some line.toList
  | b :: _ => if b == 10 then return some (Line.chomp line.toList) else readLine? stdin (line.push b)

/-- Writes to an output and flushes it. -/
def put (out : IO.FS.Stream) (text : String) : IO Unit := do
  out.putStr text
  out.flush

/-- Answers the lines of the standard input one by one. -/
partial def prompt (session : Session) : IO UInt32 := do
  put (← IO.getStdout) Prompt.mark
  match ← readLine? (← IO.getStdin) #[] with
  | none => return 0
  | some line =>
    let session := { session with machine := { session.machine with clock := ← readClock } }
    match Prompt.feed ampleSteps session line with
    | none => return UInt32.ofNat exitFailure
    | some reply =>
      put (← IO.getStdout) reply.stdout
      put (← IO.getStderr) reply.stderr
      match reply.next with
      | .ok session => prompt session
      | .error exit => return UInt32.ofNat exit

end Scriptlet.Main

open Scriptlet Scriptlet.CommandLine Scriptlet.Main in
def main (args : List String) : IO UInt32 := do
  let clock ← readClock
  let settings? := match Request.ofArgs? args with
    | some (.run settings) => some settings
    | _ => none
  if settings?.any (·.log) then IO.FS.writeFile logFile ""
  if settings?.any (·.script.isNone) then prompt (.start clock none)
  else
    let path := (settings?.bind (·.script)).getD ""
    let bytes ← if path.isEmpty then pure none else readFile? path
    match respond ampleSteps clock (fun _ => bytes) [] args with
    | none => return UInt32.ofNat exitFailure
    | some r =>
      put (← IO.getStdout) r.stdout
      put (← IO.getStderr) r.stderr
      return UInt32.ofNat r.exit
