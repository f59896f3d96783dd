import TypedWire.Number.Decimal
import TypedWire.Number.Shortest
import TypedWire.Store
import TypedWire.Text.Quoted

/-! Values as text. -/

namespace TypedWire

/-- A number of fixed width as text; its type is added unless it is plain from the number. -/
def FixedNumber.text (n : FixedNumber) : String :=
  match n.kind with
  | .nat8 | .nat16 | .nat32 | .nat64 => toString n.bits.toNat ++ " : " ++ n.kind.keyword
  | .int8 | .int16 | .int32 | .int64 => toString n.bits.toInt ++ " : " ++ n.kind.keyword
  | .float32 => Shortest.text Shortest.single n.bits.toNat ++ " : " ++ n.kind.keyword
  | .float64 => Shortest.text Shortest.double n.bits.toNat

namespace Store

/-- Items between braces. -/
def braced (keyword : String) (items : List String) : String :=
  if items.isEmpty then keyword ++ " \x7b\x7d" else keyword ++ " \x7b " ++ "; ".intercalate items ++ " \x7d"

/-- A value as text, as far as `depth` nodes down. -/
def textWithin (s : Store) : (depth : Nat) → ValueId → Except Fault String
  | 0, _ => .error .overflow
  | depth + 1, id => do
    match ← s.valueAt id with
    | .null => return "null"
    | .reserved => return "reserved"
    | .bool b => return if b then "true" else "false"
    | .nat span => return Decimal.natural (← s.bytesAt span)
    | .int span => return Decimal.integer (← s.bytesAt span) ++ " : int"
    | .fixed n => return n.text
    | .text span => return Quoted.text (← s.textAt span)
    | .blob span => return "blob " ++ Quoted.blob (← s.bytesAt span)
    | .principal span => return "principal " ++ Quoted.hex (← s.bytesAt span)
    | .service span => return "service " ++ Quoted.hex (← s.bytesAt span)
    | .func service method =>
      return "func " ++ Quoted.hex (← s.bytesAt service) ++ "." ++ (← s.textAt method)
    | .opt none => return "null"
    | .opt (some v) => return "opt " ++ (← s.textWithin depth v)
    | .vec items => return braced "vec" (← items.mapM (s.textWithin depth))
    | .record fields =>
      return braced "record" (← fields.mapM fun f =>
        return f.label.text ++ " = " ++ (← s.textWithin depth f.value))
    | .variant _ field =>
      return braced "variant" [field.label.text ++ " = " ++ (← s.textWithin depth field.value)]

/-- A value as text, if all its nodes are in the store and its texts are UTF-8. -/
def text? (s : Store) (id : ValueId) : Option String := (s.textWithin s.depthBound id).toOption

/-- A list of arguments as text. -/
def argsText? (s : Store) (ids : List ValueId) : Option String := do
  return "(" ++ ", ".intercalate (← ids.mapM s.text?) ++ ")"

end Store

end TypedWire
