import TypedWire.Schema.Env

/-! Comparing types by their structure. -/

namespace TypedWire

/-- Whether two nodes that are no names are equal, if `test` compares their parts. -/
def TypeNode.same (test : TypeId → TypeId → Except Fault Bool) : TypeNode → TypeNode → Except Fault Bool
  | .opt x, .opt y | .vec x, .vec y => test x y
  | .record xs, .record ys | .variant xs, .variant ys =>
    allPairs (fun x y => if x.label.id = y.label.id then test x.type y.type else .ok false) xs ys
  | .func x, .func y => do
    if x.modes = y.modes then
      if ← allPairs test x.args y.args then allPairs test x.results y.results else return false
    else return false
  | .service xs, .service ys =>
    allPairs (fun x y => if x.name = y.name then test x.type y.type else .ok false) xs ys
  | .primitive p, .primitive q => .ok (p = q)
  | _, _ => .ok false

/-- Whether two types are equal as far as `levels` levels show; below, only the same handle is taken
    for equal. The same name stands for the same type. -/
def Env.sameWithin (env : Env) (s : Store) : (levels : Nat) → TypeId → TypeId → Except Fault Bool
  | 0, a, b => .ok (a = b)
  | levels + 1, a, b => do
    if a = b then return true
    let nodeA ← s.typeAt a
    let nodeB ← s.typeAt b
    if nodeA.kind = .var ∧ nodeA = nodeB then return true
    let a ← env.follow s a
    let b ← env.follow s b
    if a = b then return true
    let nodeA ← s.typeAt a
    let nodeB ← s.typeAt b
    nodeA.same (env.sameWithin s levels) nodeB

end TypedWire
