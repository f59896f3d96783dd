/-! Labels of record and variant fields. On the wire a label is a 32-bit number; a name is only a
    way to write the number that it hashes to. -/

namespace TypedWire

/-- The bytes of a text in UTF-8. -/
def utf8 (s : String) : List UInt8 := s.toUTF8.data.toList

/-- The text that bytes spell in UTF-8. -/
def utf8? (bytes : List UInt8) : Option String := String.fromUTF8? ⟨bytes.toArray⟩

/-- The number of a name: its bytes as digits to the base 223, in 32 bits. -/
def labelHash (name : String) : UInt32 :=
  (utf8 name).foldl (fun h b => h * 223 + b.toUInt32) 0

/-- The label of a field. -/
inductive Label where
  /-- A number without a name. -/
  | bare (id : UInt32)
  /-- A name and the number it stands for. -/
  | named (name : String) (id : UInt32)
  deriving DecidableEq, Repr

namespace Label

/-- The label with this name, under the number that the name hashes to. -/
def ofName (name : String) : Label := .named name (labelHash name)

/-- The number on the wire, by which fields are matched and ordered. -/
def id : Label → UInt32
  | .bare id | .named _ id => id

/-- The name, if the label has one. -/
def name? : Label → Option String
  | .bare _ => none
  | .named name _ => some name

/-- The label as shown to a user: its name, else its number. -/
def text : Label → String
  | .bare id => toString id.toNat
  | .named name _ => name

end Label

end TypedWire
