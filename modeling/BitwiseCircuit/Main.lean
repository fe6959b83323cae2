import BitwiseCircuit.Command.Session

/-!
# The command

Reads what the command line asks for, hands it to the session, and writes what
the session leaves.
-/

namespace BitwiseCircuit.Command

/-- Why the system could not read an input. -/
def readFailure (error : IO.Error) : ReadFailure :=
  match error with
  | .noFileOrDirectory .. => .notFound
  | .inappropriateType _ 20 _ => .notDirectory
  | .inappropriateType .. => .isDirectory
  | .permissionDenied _ number reason
  | .invalidArgument _ number reason
  | .resourceExhausted _ number reason => .refused reason number.toNat
  | _ => .refused (toString error) 0

/-- Reads the text of an input. -/
def readInput (input : String) : IO (Except ReadFailure String) := do
  try
    let bytes ←
      if input = "-" then
        (← IO.getStdin).readBinToEnd
      else
        IO.FS.readBinFile input
    return textOfBytes bytes
  catch error =>
    return .error (readFailure error)

end BitwiseCircuit.Command

/-- Runs the command. -/
def main (words : List String) : IO UInt32 := do
  let invocation := BitwiseCircuit.Command.Invocation.ofWords words
  let source ←
    match invocation.input? with
    | some input => BitwiseCircuit.Command.readInput input
    | none => pure (.ok "")
  let outcome := invocation.outcome source
  IO.print outcome.stdout
  IO.eprint outcome.stderr
  return outcome.status.toUInt32
