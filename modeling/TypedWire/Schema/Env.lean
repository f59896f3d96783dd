import TypedWire.Store

/-! Names of types. A binding is never changed, so what a name stands for stays the same. -/

namespace TypedWire

/-- Names bound to types, no name twice; the latest binding comes first. -/
structure Env where
  bindings : List (String × TypeId) := []

namespace Env

/-- The type that a name is bound to. -/
def find? (env : Env) (name : String) : Option TypeId := env.bindings.lookup name

/-- Binds a name, unless it is bound to another type. -/
def insert (env : Env) (name : String) (type : TypeId) : Except Fault Env :=
  match env.find? name with
  | some bound => if bound = type then .ok env else .error .invalid
  | none => .ok ⟨(name, type) :: env.bindings⟩

/-- The type that `type` stands for, if that takes fewer than `hops` names. -/
def followWithin (env : Env) (s : Store) : (hops : Nat) → TypeId → Except Fault TypeId
  | 0, _ => .error .invalid
  | hops + 1, type => do
    match ← s.typeAt type with
    | .var name =>
      match env.find? name with
      | some bound => followWithin env s hops bound
      | none => throw .invalid
    | _ => return type

/-- The type that `type` stands for, through any number of names. A chain that takes more names than
    are bound meets one of them twice, and so has no end. -/
def follow (env : Env) (s : Store) (type : TypeId) : Except Fault TypeId :=
  env.followWithin s (env.bindings.length + 1) type

/-- The node that `type` stands for. -/
def resolve (env : Env) (s : Store) (type : TypeId) : Except Fault TypeNode := do
  s.typeAt (← env.follow s type)

/-- The type that a bound name stands for; none if the name is not bound. -/
def followName (env : Env) (s : Store) (name : String) : Except Fault (Option TypeId) :=
  match env.find? name with
  | some bound => some <$> env.follow s bound
  | none => .ok none

end Env

end TypedWire
