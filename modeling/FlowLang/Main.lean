import FlowLang.Command

/-!
# The program

A call (`Command.callWith`) whose files are those of the operating system. Its output is collected
and printed at the end.

The argument parser and the log are those of the plain host.
-/

namespace FlowLang.Command

/-- The operating system's words and number for a failed access. -/
def systemText : IO.Error → String
  | .noFileOrDirectory _ code details => s!"{details} (os error {code})"
  | .inappropriateType _ code details => s!"{details} (os error {code})"
  | .permissionDenied _ code details => s!"{details} (os error {code})"
  | .invalidArgument _ code details => s!"{details} (os error {code})"
  | .unsupportedOperation code details => s!"{details} (os error {code})"
  | .otherError code details => s!"{details} (os error {code})"
  | e => toString e

/-- The files of the operating system. -/
def systemFiles : Files IO where
  contents source := do
    let action := if source = "-" then do (← IO.getStdin).readBinToEnd else IO.FS.readBinFile source
    match ← action.toBaseIO with
    | .ok data => return sourceText data
    | .error e => return .error [systemText e]
  write path object := do
    match ← (IO.FS.writeFile path object.listing).toBaseIO with
    | .ok () => return .ok ()
    | .error e => return .error (systemText e)

end FlowLang.Command

open FlowLang in
def main (arguments : List String) : IO UInt32 := do
  let outcome ← Command.callWith Command.plainHost Command.systemFiles arguments Sink.unlimited
  (← IO.getStdout).write outcome.console.stdout.written
  (← IO.getStderr).putStr outcome.console.stderr
  return UInt32.ofNat outcome.code
