import TypedWire.Store

/-! Equality of values that may lie in different stores: payloads by their bytes, fields by their
    numbers, numbers of fixed width by their bits. -/

namespace TypedWire.Store

/-- Whether two spans, each in its store, hold the same bytes. -/
def sameBytes (a b : Store) (p q : Span) : Except Fault Bool := do
  let x ← a.bytesAt p
  let y ← b.bytesAt q
  return x = y

/-- Whether `x` in `a` and `y` in `b` are equal, as far as `depth` nodes down. -/
def equalWithin (a b : Store) : Nat → ValueId → ValueId → Except Fault Bool
  | 0, _, _ => .error .overflow
  | depth + 1, x, y => do
    match ← a.valueAt x, ← b.valueAt y with
    | .null, .null | .reserved, .reserved => return true
    | .bool p, .bool q => return p = q
    | .fixed p, .fixed q => return p = q
    | .nat p, .nat q | .int p, .int q | .text p, .text q | .principal p, .principal q
    | .blob p, .blob q | .service p, .service q => sameBytes a b p q
    | .func s m, .func s' m' => do
      if ← sameBytes a b s s' then sameBytes a b m m' else return false
    | .opt none, .opt none => return true
    | .opt (some p), .opt (some q) => equalWithin a b depth p q
    | .vec ps, .vec qs => allPairs (equalWithin a b depth) ps qs
    | .record ps, .record qs =>
      allPairs (fun p q =>
        if p.label.id = q.label.id then equalWithin a b depth p.value q.value else .ok false) ps qs
    | .variant i p, .variant j q =>
      if i = j ∧ p.label.id = q.label.id then equalWithin a b depth p.value q.value
      else return false
    | _, _ => return false

/-- Whether `x` in `a` and `y` in `b` are equal. Of the two one may be cyclic. Comparisons lie one
    inside the other, and one that meets the same two nodes again has no end; so there are no more of
    them than pairs of nodes, and one last that finds a node missing. -/
def equal (a : Store) (x : ValueId) (b : Store) (y : ValueId) : Except Fault Bool :=
  equalWithin a b (a.values.size * b.values.size + 1) x y

end TypedWire.Store
