import TypedWire.Command

/-! The program: `decode` shows the message given as an argument, or else on standard input; `encode`
    writes a sample message. -/

open TypedWire

/-- Prints what a command leaves behind. -/
def finish (result : Command.Result) : IO UInt32 := do
  IO.print result.stdout
  IO.eprint result.stderr
  return .ofNat result.status

/-- Runs the command that the arguments name. -/
def main (args : List String) : IO UInt32 := do
  match args with
  | "decode" :: text :: _ => finish (Command.decodeText text)
  | "encode" :: _ => finish Command.encodeSample
  | _ =>
    let bytes ← (← IO.getStdin).readBinToEnd
    finish (Command.decodeStream bytes.toList)
