import TypedWire.Schema.Env
import TypedWire.Session.Event

/-! Whether a value of one type may be taken where another type is expected. Types may be cyclic, so
    the check keeps the pairs that it is in the middle of, and takes them for granted when it meets
    them again. -/

namespace TypedWire

/-- The outcome of a check. -/
inductive Verdict where
  /-- The type fits. -/
  | ok
  /-- The type does not fit. -/
  | fail
  /-- The type fits if what does not fit under an `opt` is left out. -/
  | optSpecial
  deriving DecidableEq, Repr

namespace Verdict

/-- The verdict on two parts together. -/
def and : Verdict → Verdict → Verdict
  | .fail, _ | _, .fail => .fail
  | .optSpecial, _ | _, .optSpecial => .optSpecial
  | .ok, .ok => .ok

/-- Whether the type may be taken. -/
def holds : Verdict → Bool
  | .ok | .optSpecial => true
  | .fail => false

end Verdict

/-- What to do where a type does not fit under an `opt`. -/
inductive OptPolicy where
  | silence | warning | error
  deriving DecidableEq, Repr

/-- Pairs of types that are taken to fit. -/
structure Assumptions where
  pairs : List (TypeId × TypeId) := []
  deriving DecidableEq, Repr

namespace Assumptions

/-- Whether a pair is assumed. -/
def contains (g : Assumptions) (t1 t2 : TypeId) : Bool := g.pairs.contains (t1, t2)

/-- Assumes one more pair. -/
def insert (g : Assumptions) (t1 t2 : TypeId) : Assumptions :=
  if g.contains t1 t2 then g else ⟨(t1, t2) :: g.pairs⟩

/-- Gives an assumption up. -/
def erase (g : Assumptions) (t1 t2 : TypeId) : Assumptions := ⟨g.pairs.erase (t1, t2)⟩

/-- How many pairs are assumed. -/
def size (g : Assumptions) : Nat := g.pairs.length

end Assumptions

/-- Whether a field of the type may be missing: it is `null`, `reserved` or an `opt`. -/
def Env.isOptional (env : Env) (s : Store) (type : TypeId) : Bool :=
  match env.resolve s type with
  | .ok (.primitive .null) | .ok (.primitive .reserved) | .ok (.opt _) => true
  | _ => false

namespace Subtype

/-- What a check works on, and what it is asked to do. -/
structure Context where
  store : Store
  env : Env
  policy : OptPolicy := .warning
  topics : Topics := {}

/-- What a check keeps. -/
structure State where
  assumed : Assumptions := {}
  log : Array Event := #[]

/-- The verdict on all members together; the first that fails ends the check. -/
def all {α : Type} (check : α → Action State Verdict) : Verdict → List α → Action State Verdict
  | verdict, [] => pure verdict
  | verdict, a :: rest => do
    match verdict.and (← check a) with
    | .fail => return .fail
    | verdict => all check verdict rest

/-- Whether two types that are no names fit by themselves, without a look at their parts. -/
def evident : TypeNode → TypeNode → Bool
  | _, .primitive .reserved | .primitive .empty, _ | .primitive .nat, .primitive .int => true
  | .primitive p, .primitive q => p = q
  | _, _ => false

/-- Accepts a type that does not fit under an `opt`, unless that is to be an error. -/
def special (cx : Context) (t1 t2 : TypeId) : Action State Verdict :=
  match cx.policy with
  | .silence => pure .optSpecial
  | .warning => fun s => .ok .optSpecial { s with log := cx.topics.note s.log (.optSpecial t1 t2) }
  | .error => pure .fail

/-- Whether the type `t1`, whose node is `n1`, fits `t2`, which is an `opt` of `inner`. -/
def fitsOpt (cx : Context) (check : TypeId → TypeId → Action State Verdict)
    (t1 : TypeId) (n1 : TypeNode) (t2 inner : TypeId) : Action State Verdict := do
  if n1 = .primitive .null then return .ok
  if let .opt inner1 := n1 then
    let verdict ← check inner1 inner
    if verdict.holds then return verdict
  unless cx.env.isOptional cx.store inner do
    let verdict ← check t1 inner
    if verdict.holds then return verdict
  special cx t1 t2

/-- Whether a record with `fields1` fits one with `fields2`: each field expected is there and fits,
    or may be missing. -/
def fitsRecord (cx : Context) (check : TypeId → TypeId → Action State Verdict)
    (fields1 fields2 : List Field) : Action State Verdict :=
  all (fun want =>
    match fields1.find? (·.label.id = want.label.id) with
    | some have1 => check have1.type want.type
    | none => pure (if cx.env.isOptional cx.store want.type then .ok else .fail)) .ok fields2

/-- Whether a variant with `fields1` fits one with `fields2`: each field that it may hold is expected
    and fits. -/
def fitsVariant (check : TypeId → TypeId → Action State Verdict)
    (fields1 fields2 : List Field) : Action State Verdict :=
  all (fun have1 =>
    match fields2.find? (·.label.id = have1.label.id) with
    | some want => check have1.type want.type
    | none => pure .fail) .ok fields1

/-- Whether a function fits: it takes what is given, gives what is expected, and its modes agree. -/
def fitsFunc (check : TypeId → TypeId → Action State Verdict)
    (f1 f2 : Signature) : Action State Verdict := do
  if f1.args.length ≠ f2.args.length ∨ f1.results.length ≠ f2.results.length then return .fail
  let verdict ← all (fun p => check p.2 p.1) .ok (f1.args.zip f2.args)
  if verdict = .fail then return .fail
  let verdict ← all (fun p => check p.1 p.2) verdict (f1.results.zip f2.results)
  return if f1.modes = f2.modes then verdict else .fail

/-- Whether a service fits: each method expected is there and fits. -/
def fitsService (check : TypeId → TypeId → Action State Verdict)
    (methods1 methods2 : List Method) : Action State Verdict :=
  all (fun want =>
    match methods1.find? (·.name = want.name) with
    | some have1 => check have1.type want.type
    | none => pure .fail) .ok methods2

/-- Whether `t1`, whose node is `n1`, fits `t2`, whose node is `n2`; neither is a name. -/
def fitsNodes (cx : Context) (check : TypeId → TypeId → Action State Verdict)
    (t1 : TypeId) (n1 : TypeNode) (t2 : TypeId) (n2 : TypeNode) : Action State Verdict :=
  if evident n1 n2 then pure .ok
  else match n1, n2 with
    | .vec e1, .vec e2 => check e1 e2
    | _, .opt inner => fitsOpt cx check t1 n1 t2 inner
    | .record f1, .record f2 => fitsRecord cx check f1 f2
    | .variant f1, .variant f2 => fitsVariant check f1 f2
    | .func f1, .func f2 => fitsFunc check f1 f2
    | .service m1, .service m2 => fitsService check m1 m2
    | _, _ => pure .fail

/-- Whether `t1` fits `t2`, one of them being a name. The pair is assumed from here on, and given up
    if it turns out not to fit. -/
def fitsNames (cx : Context) (check : TypeId → TypeId → Action State Verdict)
    (t1 t2 : TypeId) : Action State Verdict := do
  if (← get).assumed.contains t1 t2 then return .ok
  match cx.env.follow cx.store t1, cx.env.follow cx.store t2 with
  | .ok r1, .ok r2 =>
    modify fun s => { s with assumed := s.assumed.insert t1 t2 }
    let verdict ← check r1 r2
    if verdict = .fail then modify fun s => { s with assumed := s.assumed.erase t1 t2 }
    return verdict
  | _, _ => return .fail

/-- Whether `t1` fits `t2`, with a derivation that nests at most `depth` deep. -/
def fits (cx : Context) : (depth : Nat) → TypeId → TypeId → Action State Verdict
  | 0, t1, t2 => if t1 = t2 then pure .ok else Action.fail .overflow
  | depth + 1, t1, t2 => do
    if t1 = t2 then return .ok
    match ← Action.ofExcept (cx.store.typeAt t1), ← Action.ofExcept (cx.store.typeAt t2) with
    | .var _, _ | _, .var _ => fitsNames cx (fits cx depth) t1 t2
    | n1, n2 => fitsNodes cx (fits cx depth) t1 n1 t2 n2

/-- How deep values, derivations and skips may nest unless something else is asked for. -/
def defaultDepth : Nat := 512

/-- Whether `t1` fits `t2`, with nothing assumed. -/
def verdict (store : Store) (env : Env) (t1 t2 : TypeId) : Except Fault Verdict :=
  ((fits { store, env } defaultDepth t1 t2).outcome {}).1

end Subtype

end TypedWire
