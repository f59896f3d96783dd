/-! The types without parts, and the number of each in a message. -/

namespace TypedWire

/-- The number types of fixed width, written as little-endian bits. -/
inductive Fixed where
  | nat8 | nat16 | nat32 | nat64
  | int8 | int16 | int32 | int64
  | float32 | float64
  deriving DecidableEq, Repr

namespace Fixed

/-- How many bytes a number takes. -/
def width : Fixed → Nat
  | .nat8 | .int8 => 1
  | .nat16 | .int16 => 2
  | .nat32 | .int32 | .float32 => 4
  | .nat64 | .int64 | .float64 => 8

/-- How many bits a number takes. -/
abbrev bits (f : Fixed) : Nat := 8 * f.width

/-- All of them, in the order of their opcodes. -/
def all : List Fixed :=
  [.nat8, .nat16, .nat32, .nat64, .int8, .int16, .int32, .int64, .float32, .float64]

/-- The number of the type in a message. -/
def opcode : Fixed → Int
  | .nat8 => -5 | .nat16 => -6 | .nat32 => -7 | .nat64 => -8
  | .int8 => -9 | .int16 => -10 | .int32 => -11 | .int64 => -12
  | .float32 => -13 | .float64 => -14

/-- The keyword of the type. -/
def keyword : Fixed → String
  | .nat8 => "nat8" | .nat16 => "nat16" | .nat32 => "nat32" | .nat64 => "nat64"
  | .int8 => "int8" | .int16 => "int16" | .int32 => "int32" | .int64 => "int64"
  | .float32 => "float32" | .float64 => "float64"

end Fixed

/-- The types without parts. -/
inductive Primitive where
  | null | bool | nat | int
  | fixed (f : Fixed)
  | text | reserved | empty | principal
  deriving DecidableEq, Repr

namespace Primitive

/-- All of them, in the order of their opcodes. -/
def all : List Primitive :=
  [.null, .bool, .nat, .int] ++ Fixed.all.map .fixed ++ [.text, .reserved, .empty, .principal]

/-- The number of the type in a message; table slots take the numbers from zero on. -/
def opcode : Primitive → Int
  | .null => -1 | .bool => -2 | .nat => -3 | .int => -4
  | .fixed f => f.opcode
  | .text => -15 | .reserved => -16 | .empty => -17 | .principal => -24

/-- The keyword of the type. -/
def keyword : Primitive → String
  | .null => "null" | .bool => "bool" | .nat => "nat" | .int => "int"
  | .fixed f => f.keyword
  | .text => "text" | .reserved => "reserved" | .empty => "empty" | .principal => "principal"

/-- The type that a number in a message stands for. -/
def ofOpcode? (n : Int) : Option Primitive := all.find? (·.opcode = n)

end Primitive

/-- The sorts of type nodes. -/
inductive Kind where
  | primitive (p : Primitive)
  | opt | vec | record | variant | func | service | var
  deriving DecidableEq, Repr

namespace Kind

/-- All of them, in the order of their opcodes; a named type has none of its own. -/
def all : List Kind :=
  Primitive.all.map .primitive ++ [.opt, .vec, .record, .variant, .func, .service, .var]

/-- The number of the sort in a message. A named type is written as the slot it stands for, so it
    has no number, and zero is given. -/
def opcode : Kind → Int
  | .primitive p => p.opcode
  | .opt => -18 | .vec => -19 | .record => -20 | .variant => -21 | .func => -22 | .service => -23
  | .var => 0

/-- The keyword of the sort. -/
def keyword : Kind → String
  | .primitive p => p.keyword
  | .opt => "opt" | .vec => "vec" | .record => "record" | .variant => "variant"
  | .func => "func" | .service => "service" | .var => "var"

/-- Whether the sort has no parts, and so takes no slot of a type table. -/
def isPrimitive : Kind → Bool
  | .primitive _ => true
  | _ => false

end Kind

end TypedWire
