import TypedWire.Value.Coerce
import TypedWire.Message.Header
import TypedWire.Session.Decode
import TypedWire.Session.Skip

/-! A session reads the arguments of one message, one after another. -/

namespace TypedWire

/-- What a session is asked to observe. A quota of zero means that there is no limit. -/
structure Config where
  /-- The most that reading may cost. -/
  decodingQuota : Nat := 0
  /-- The most that skipping may cost. -/
  skippingQuota : Nat := 0
  /-- What to do where a type does not fit under an `opt`. -/
  optPolicy : OptPolicy := .warning
  /-- Whether warnings name the types involved. -/
  fullWarnings : Bool := true
  /-- How deep values and subtype derivations may nest. -/
  maxDepth : Nat := Subtype.defaultDepth
  deriving DecidableEq, Repr

/-- The state of a session. -/
structure Session where
  header : Header
  config : Config
  /-- What the observer asked for. -/
  topics : Topics := {}
  /-- Where the next argument begins. -/
  reader : Reader
  /-- The number of the next argument. -/
  nextArg : Nat := 0
  cost : Nat := 0
  skipCost : Nat := 0
  /-- What the observer was told. -/
  log : Array Event := #[]

namespace Session

/-- A session and the store that it puts things into. -/
structure State where
  session : Session
  store : Store

/-- Whether every argument has been read or skipped. -/
def allRead (s : Session) : Bool := s.header.args.length ≤ s.nextArg

/-- How many bytes are left to read. -/
def remaining (s : Session) : Nat := s.reader.remaining

/-- What the values of the session are decoded with. -/
def context (s : Session) : Decode.Context :=
  { env := s.header.env, quota := s.config.decodingQuota, topics := s.topics }

/-- Charges `n` units. -/
def spend (s : Session) (n : Nat) : Except Fault Unit × Session :=
  let cost := Cost.add s.cost n
  let s := { s with cost, log := s.topics.note s.log (.cost n cost) }
  if Cost.exceeds s.config.decodingQuota cost then (.error .overflow, s)
  else (.ok (), s)

/-- Opens a session on a message: reads its header, at four units a byte. -/
def start (bytes : List UInt8) (config : Config) : Action Store Session := do
  let (header, length) ← Header.parse bytes
  let session : Session := { header, config, reader := .ofBytes bytes length }
  match session.spend (4 * length) with
  | (.ok (), session) => return session
  | (.error e, _) => Action.fail e

/-- Tells the observer something. -/
def note (s : Session) (event : Event) : Session := { s with log := s.topics.note s.log event }

/-- Reads the next argument by its own type: the type and the value. If that fails, the argument is
    still the next one. -/
def readNext : Action State (TypeId × ValueId) := fun ⟨s, store⟩ =>
  match s.header.args[s.nextArg]? with
  | none => .error .invalid ⟨s, store⟩
  | some type =>
    let s := s.note (.argStart s.nextArg type s.reader.offset)
    match Decode.value s.context s.config.maxDepth type ⟨s.reader, store, s.cost, s.log⟩ with
    | .ok v ⟨reader, store, cost, log⟩ =>
      let s := { s with cost, log }.note (.argEnd s.nextArg reader.offset none)
      .ok (type, v) ⟨{ s with reader, nextArg := s.nextArg + 1 }, store⟩
    | .error e ⟨reader, store, cost, log⟩ =>
      .error e ⟨{ s with cost, log }.note (.argEnd s.nextArg reader.offset (some e)), store⟩

/-- Checks whether `type` fits `expected`, with nothing assumed. -/
def judge (type expected : TypeId) : Action State Verdict := fun ⟨s, store⟩ =>
  let cx : Subtype.Context :=
    { store, env := s.header.env, policy := s.config.optPolicy, topics := s.topics }
  match Subtype.fits cx s.config.maxDepth type expected ⟨{}, s.log⟩ with
  | .ok verdict ⟨_, log⟩ => .ok verdict ⟨{ s with log }, store⟩
  | .error e ⟨_, log⟩ => .error e ⟨{ s with log }, store⟩

/-- Reads the next argument, and reshapes it to an expected type that its own type fits. The argument
    counts as read as soon as its value is. -/
def readNextAs (expected : TypeId) : Action State ValueId := do
  let (type, v) ← readNext
  if (← judge type expected) = .fail then Action.fail .invalid
  fun ⟨s, store⟩ =>
    match coerce s.header.env v type expected store with
    | .ok v store => .ok v ⟨s, store⟩
    | .error e store => .error e ⟨s, store⟩

/-- Passes over the next argument: how many bytes it took. If that fails, nothing has changed. -/
def skipNext (store : Store) : Action Session Nat := fun s =>
  match s.header.args[s.nextArg]? with
  | none => .error .invalid s
  | some type =>
    let cx : Skip.Context := { store, env := s.header.env, quota := s.config.skippingQuota }
    match Skip.value cx s.config.maxDepth type ⟨s.reader, s.skipCost⟩ with
    | .ok _ ⟨reader, spent⟩ =>
      .ok (reader.offset - s.reader.offset)
        { s with reader, skipCost := spent, nextArg := s.nextArg + 1 }
    | .error e _ => .error e s

/-- Passes over the next `count` arguments. -/
def skipMany (store : Store) (count : Nat) : Action Session Unit :=
  Action.iterate (do let _ ← skipNext store) count

/-- Ends a session: passes over the arguments that are left, after which nothing may follow. -/
def finish (store : Store) : Action Session Unit := do
  let s ← get
  skipMany store (s.header.args.length - s.nextArg)
  if 0 < (← get).remaining then Action.fail .invalid

end Session

/-- Passes over one value of a type at an offset of `bytes`: how many bytes it takes. -/
def skipOne (store : Store) (env : Env) (type : TypeId) (bytes : List UInt8) (offset : Nat) :
    Except Fault Nat :=
  match Skip.value { store, env } Subtype.defaultDepth type ⟨.ofBytes bytes offset, 0⟩ with
  | .ok _ s => .ok (s.reader.offset - offset)
  | .error e _ => .error e

end TypedWire
