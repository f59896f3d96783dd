import TypedWire.Message.Draft
import TypedWire.Session
import TypedWire.Store.Factory
import TypedWire.Text.Blank
import TypedWire.Value.Text

/-! The two commands: one shows the arguments of a message that is given in hexadecimal, the other
    writes a sample message. -/

namespace TypedWire.Command

/-- What a command leaves behind. -/
structure Result where
  status : Nat
  stdout : String
  stderr : String
  deriving DecidableEq, Repr

/-- A command that failed, with the reason. -/
def failed (reason : String) : Result := ⟨1, "", reason ++ "\n"⟩

/-- A command that printed a line. -/
def printed (line : String) : Result := ⟨0, line ++ "\n", ""⟩

/-- What is left of a text without the white space around it and without the mark of hexadecimal
    numbers in front. -/
def digits (text : String) : String :=
  match Blank.trim text.toList with
  | '0' :: 'x' :: rest | '0' :: 'X' :: rest => String.ofList rest
  | rest => String.ofList rest

/-- Reads `left` more arguments after those in `done`, the latest first. -/
def readArgs : (left : Nat) → (done : List ValueId) → Action Session.State (List ValueId)
  | 0, done => pure done.reverse
  | left + 1, done => do
    let (_, value) ← Session.readNext
    readArgs left (value :: done)

/-- Shows the arguments of a message. -/
def showMessage (bytes : List UInt8) : Result :=
  match Session.start bytes {} {} with
  | .error e _ => failed ("failed to parse DIDL header: " ++ e.message)
  | .ok session store =>
    let session := { session with topics := .warnings }
    match readArgs session.header.args.length [] ⟨session, store⟩ with
    | .error e s =>
      failed ("failed to decode argument " ++ toString s.session.nextArg ++ ": " ++ e.message)
    | .ok values ⟨session, store⟩ =>
      match Session.finish store session with
      | .error e _ => failed ("trailing bytes in input: " ++ e.message)
      | .ok _ _ => printed ((store.argsText? values).getD "")

/-- Shows the arguments of a message in hexadecimal. -/
def decodeText (text : String) : Result :=
  match Hex.decode (utf8 (digits text)) with
  | .ok bytes => showMessage bytes
  | .error e => failed ("invalid hex input: " ++ e.message)

/-- Shows the arguments of a message in hexadecimal, read as a stream of bytes. -/
def decodeStream (bytes : List UInt8) : Result :=
  match utf8? bytes with
  | some text => decodeText text
  | none => failed "failed to read input: stream did not contain valid UTF-8"

/-- The arguments of the sample message: a truth value, a number, a text, and a record of a number
    and two texts. -/
def sample : Action Draft.State Unit := do
  Draft.addPrimitive .bool (Output.flag true)
  Draft.addPrimitive (.fixed .nat64) (Output.fixed ⟨.nat64, 42⟩)
  Draft.addPrimitive .text (Output.text "hello")
  let nat ← Draft.put (Store.putType (.primitive .nat))
  let text ← Draft.put (Store.putType (.primitive .text))
  let tagsType ← Draft.put (Store.putType (.vec text))
  let itemType ← Draft.put
    (Store.putRecordType [⟨.ofName "id", nat⟩, ⟨.ofName "tags", tagsType⟩])
  let id ← Draft.put (Store.putNat (Leb128.encodeUnsigned 7))
  let a ← Draft.put (Store.putText "a")
  let b ← Draft.put (Store.putText "b")
  let tags ← Draft.put (Store.putValue (.vec [a, b]))
  let item ← Draft.put (Store.putRecord [⟨.ofName "id", id⟩, ⟨.ofName "tags", tags⟩])
  Draft.add itemType item

/-- Writes the sample message. -/
def encodeSample : Result :=
  match sample ⟨{}, {}⟩ with
  | .error e _ => failed ("Error: " ++ e.message)
  | .ok _ ⟨draft, store⟩ =>
    match draft.encodeHex store with
    | .ok text => printed text
    | .error e => failed ("Error: " ++ e.message)

end TypedWire.Command
