import TypedWire.Proofs.Schema.Canonical
import TypedWire.Proofs.Schema.SameTree
import TypedWire.Proofs.Store.Extends

/-! Values as trees, apart from any store. A value node of a store holds a tree, and a tree is of a
    type; both are said one level at a time, so that a number bounds how deep the tree nests, which is
    what decoding counts. -/

namespace TypedWire

/-- A value with all that it is made of. -/
inductive Datum where
  | null
  | reserved
  | bool (b : Bool)
  | nat (number : List UInt8)
  | int (number : List UInt8)
  | fixed (n : FixedNumber)
  | text (text : String)
  | principal (bytes : List UInt8)
  /-- A `vec nat8`, as its bytes. -/
  | blob (bytes : List UInt8)
  | opt (content : Option Datum)
  | vec (items : List Datum)
  | record (fields : List (UInt32 × Datum))
  | variant (index : Nat) (id : UInt32) (content : Datum)
  | service (principal : List UInt8)
  | func (service : List UInt8) (method : String)

/-! ### Trees without parts -/

mutual

/-- The parts of a tree that have no parts themselves. -/
def Datum.leaves : Datum → List Datum
  | .opt (some d) | .variant _ _ d => d.leaves
  | .vec items => Datum.itemLeaves items
  | .record fields => Datum.fieldLeaves fields
  | d => [d]

def Datum.itemLeaves : List Datum → List Datum
  | [] => []
  | d :: ds => d.leaves ++ Datum.itemLeaves ds

def Datum.fieldLeaves : List (UInt32 × Datum) → List Datum
  | [] => []
  | (_, d) :: fields => d.leaves ++ Datum.fieldLeaves fields

end

theorem Datum.itemLeaves_eq : ∀ ds : List Datum, Datum.itemLeaves ds = ds.flatMap Datum.leaves
  | [] => rfl
  | d :: ds => by rw [itemLeaves, itemLeaves_eq ds, List.flatMap_cons]

theorem Datum.fieldLeaves_eq : ∀ ds : List (UInt32 × Datum),
    Datum.fieldLeaves ds = ds.flatMap fun d => d.2.leaves
  | [] => rfl
  | (_, d) :: ds => by rw [fieldLeaves, fieldLeaves_eq ds, List.flatMap_cons]

/-- The byte strings that a store has for a tree without parts. -/
def Datum.strings : Datum → List (List UInt8)
  | .nat bytes | .int bytes | .principal bytes | .blob bytes | .service bytes => [bytes]
  | .text string => [utf8 string]
  | .func bytes method => [bytes, utf8 method]
  | _ => []

/-- One of the byte strings that a store has for the tree is of this length. -/
def Datum.Lengths (d : Datum) (n : Nat) : Prop :=
  ∃ leaf ∈ d.leaves, ∃ bytes ∈ leaf.strings, bytes.length = n

theorem Datum.Lengths.string {d : Datum} {bytes : List UInt8} (hd : d.leaves = [d])
    (hb : bytes ∈ d.strings) : d.Lengths bytes.length :=
  ⟨d, hd ▸ List.mem_singleton_self d, bytes, hb, rfl⟩

theorem Datum.Lengths.item {d : Datum} {ds : List Datum} {n : Nat} (h : d.Lengths n) (hd : d ∈ ds) :
    (Datum.vec ds).Lengths n := by
  obtain ⟨leaf, hleaf, hstrings⟩ := h
  refine ⟨leaf, ?_, hstrings⟩
  rw [leaves, itemLeaves_eq]
  exact List.mem_flatMap_of_mem hd hleaf

theorem Datum.Lengths.field {d : UInt32 × Datum} {ds : List (UInt32 × Datum)} {n : Nat}
    (h : d.2.Lengths n) (hd : d ∈ ds) : (Datum.record ds).Lengths n := by
  obtain ⟨leaf, hleaf, hstrings⟩ := h
  refine ⟨leaf, ?_, hstrings⟩
  rw [leaves, fieldLeaves_eq]
  exact List.mem_flatMap_of_mem hd hleaf

/-! ### Held by a store -/

/-- The node shows the tree, if its parts and those of the tree are related. -/
inductive Store.Shows (s : Store) (sub : ValueId → Datum → Prop) : Value → Datum → Prop where
  | null : Shows s sub .null .null
  | reserved : Shows s sub .reserved .reserved
  | bool (b : Bool) : Shows s sub (.bool b) (.bool b)
  | nat {p : Span} {bytes : List UInt8} : s.bytesAt p = .ok bytes → Shows s sub (.nat p) (.nat bytes)
  | int {p : Span} {bytes : List UInt8} : s.bytesAt p = .ok bytes → Shows s sub (.int p) (.int bytes)
  | fixed (n : FixedNumber) : Shows s sub (.fixed n) (.fixed n)
  | text {p : Span} {text : String} : s.textAt p = .ok text → Shows s sub (.text p) (.text text)
  | principal {p : Span} {bytes : List UInt8} : s.bytesAt p = .ok bytes →
      Shows s sub (.principal p) (.principal bytes)
  | blob {p : Span} {bytes : List UInt8} : s.bytesAt p = .ok bytes →
      Shows s sub (.blob p) (.blob bytes)
  | none : Shows s sub (.opt .none) (.opt .none)
  | some {v : ValueId} {d : Datum} : sub v d → Shows s sub (.opt (.some v)) (.opt (.some d))
  | vec {vs : List ValueId} {ds : List Datum} : List.Forall₂ sub vs ds →
      Shows s sub (.vec vs) (.vec ds)
  | record {fs : List FieldValue} {ds : List (UInt32 × Datum)} :
      List.Forall₂ (fun f d => f.label.id = d.1 ∧ sub f.value d.2) fs ds →
      Shows s sub (.record fs) (.record ds)
  | variant {index : Nat} {f : FieldValue} {id : UInt32} {d : Datum} : f.label.id = id →
      sub f.value d → Shows s sub (.variant index f) (.variant index id d)
  | service {p : Span} {bytes : List UInt8} : s.bytesAt p = .ok bytes →
      Shows s sub (.service p) (.service bytes)
  | func {p q : Span} {bytes : List UInt8} {text : String} : s.bytesAt p = .ok bytes →
      s.textAt q = .ok text → Shows s sub (.func p q) (.func bytes text)

/-- The value `v` of the store is the tree `d`, which nests at most `depth` deep. -/
def Store.Holds (s : Store) : (depth : Nat) → ValueId → Datum → Prop
  | 0, _, _ => False
  | depth + 1, v, d => ∃ x, s.valueAt v = .ok x ∧ s.Shows (s.Holds depth) x d

namespace Store

variable {s s' : Store} {sub sub' : ValueId → Datum → Prop} {x : Value} {v : ValueId} {d d' : Datum}

theorem Shows.mono (h : s.Shows sub x d) (hs : s.Extends s') (hsub : ∀ v d, sub v d → sub' v d) :
    s'.Shows sub' x d := by
  cases h with
  | null => exact .null
  | reserved => exact .reserved
  | bool b => exact .bool b
  | nat hb => exact .nat (hs.bytesAt _ _ hb)
  | int hb => exact .int (hs.bytesAt _ _ hb)
  | fixed n => exact .fixed n
  | text ht => exact .text (hs.textAt ht)
  | principal hb => exact .principal (hs.bytesAt _ _ hb)
  | blob hb => exact .blob (hs.bytesAt _ _ hb)
  | none => exact .none
  | some h => exact .some (hsub _ _ h)
  | vec h => exact .vec (h.imp hsub)
  | record h => exact .record (h.imp fun _ _ hfd => ⟨hfd.1, hsub _ _ hfd.2⟩)
  | variant hid h => exact .variant hid (hsub _ _ h)
  | service hb => exact .service (hs.bytesAt _ _ hb)
  | func hb ht => exact .func (hs.bytesAt _ _ hb) (hs.textAt ht)

theorem Holds.extends (hs : s.Extends s') : ∀ {depth : Nat} {v : ValueId} {d : Datum},
    s.Holds depth v d → s'.Holds depth v d
  | 0, _, _, h => h
  | _ + 1, v, _, ⟨x, hx, h⟩ => ⟨x, hs.valueAt v x hx, h.mono hs fun _ _ => Holds.extends hs⟩

theorem Holds.succ : ∀ {depth : Nat} {v : ValueId} {d : Datum},
    s.Holds depth v d → s.Holds (depth + 1) v d
  | 0, _, _, h => h.elim
  | _ + 1, _, _, ⟨x, hx, h⟩ => ⟨x, hx, h.mono (.refl s) fun _ _ => Holds.succ⟩

theorem Holds.le {depth depth' : Nat} (hle : depth ≤ depth') (h : s.Holds depth v d) :
    s.Holds depth' v d := by
  induction hle with
  | refl => exact h
  | step _ ih => exact ih.succ

theorem forall₂_functional {α β : Type} {R R' : α → β → Prop} :
    ∀ {xs : List α} {ys zs : List β}, (∀ x y z, R x y → R' x z → y = z) →
      List.Forall₂ R xs ys → List.Forall₂ R' xs zs → ys = zs
  | [], _, _, _, .nil, .nil => rfl
  | _ :: _, _, _, hR, .cons h hs, .cons h' hs' => by
    rw [hR _ _ _ h h', forall₂_functional hR hs hs']

theorem Shows.functional (hsub : ∀ v d d', sub v d → sub' v d' → d = d') (h : s.Shows sub x d)
    (h' : s.Shows sub' x d') : d = d' := by
  cases h with
  | null => cases h'; rfl
  | reserved => cases h'; rfl
  | bool b => cases h'; rfl
  | fixed n => cases h'; rfl
  | none => cases h'; rfl
  | nat hb | int hb | principal hb | blob hb | service hb => cases h'; simp_all
  | text ht =>
    cases h' with
    | text ht' => simpa [ht] using ht'
  | some h =>
    cases h' with
    | some h' => rw [hsub _ _ _ h h']
  | vec h =>
    cases h' with
    | vec h' => rw [forall₂_functional hsub h h']
  | record h =>
    cases h' with
    | record h' =>
      refine congrArg _ (forall₂_functional (fun f p q hp hq => ?_) h h')
      exact Prod.ext (hp.1.symm.trans hq.1) (hsub _ _ _ hp.2 hq.2)
  | variant hid h =>
    cases h' with
    | variant hid' h' => rw [← hid, ← hid', hsub _ _ _ h h']
  | func hb ht =>
    cases h' with
    | func hb' ht' =>
      rw [hb, Except.ok.injEq] at hb'
      rw [ht, Except.ok.injEq] at ht'
      rw [hb', ht']

/-- A value is one tree. -/
theorem Holds.functional : ∀ {depth depth' : Nat} {v : ValueId} {d d' : Datum},
    s.Holds depth v d → s.Holds depth' v d' → d = d'
  | depth + 1, depth' + 1, _, _, _, ⟨x, hx, h⟩, ⟨y, hy, h'⟩ => by
    rw [hx, Except.ok.injEq] at hy
    subst hy
    have hsub : ∀ v d d', s.Holds depth v d → s.Holds depth' v d' → d = d' :=
      fun _ _ _ hv hv' => Holds.functional hv hv'
    exact h.functional hsub h'

end Store

/-! ### Of a type -/

/-- What stands for a node that has no name admits the tree, if the parts of the tree are of the types
    that `sub` relates them to. The fields of a record are handed over in any order, and are put in
    the order of their numbers. -/
inductive Scope.Admits (w : Scope) (sub : Datum → TypeId → Prop) : TypeNode → Datum → Prop where
  | null : Admits w sub (.primitive .null) .null
  | reserved : Admits w sub (.primitive .reserved) .reserved
  | bool (b : Bool) : Admits w sub (.primitive .bool) (.bool b)
  | nat {bytes : List UInt8} : Leb128.IsNumber bytes → Payload bytes →
      Admits w sub (.primitive .nat) (.nat bytes)
  | int {bytes : List UInt8} : Leb128.IsNumber bytes → Payload bytes →
      Admits w sub (.primitive .int) (.int bytes)
  | fixed (n : FixedNumber) : Admits w sub (.primitive (.fixed n.kind)) (.fixed n)
  | text {text : String} : Payload (utf8 text) → Admits w sub (.primitive .text) (.text text)
  | principal {bytes : List UInt8} : bytes.length ≤ maxPrincipal →
      Admits w sub (.primitive .principal) (.principal bytes)
  | blob {e r : TypeId} {bytes : List UInt8} : w.StandsFor e r (.primitive (.fixed .nat8)) →
      Payload bytes → Admits w sub (.vec e) (.blob bytes)
  | none (inner : TypeId) : Admits w sub (.opt inner) (.opt .none)
  | some {inner : TypeId} {d : Datum} : sub d inner → Admits w sub (.opt inner) (.opt (.some d))
  | vec {e : TypeId} {ds : List Datum} : ds.length < 2 ^ 64 → (∀ d ∈ ds, sub d e) →
      Admits w sub (.vec e) (.vec ds)
  | record {fields : List Field} {ordered given ds : List (UInt32 × Datum)} :
      List.Forall₂ (fun f d => f.label.id = d.1 ∧ sub d.2 f.type) fields ordered →
      given.Perm ordered → inLabelOrder? (fun d => .bare d.1) given = Option.some ds →
      Admits w sub (.record fields) (.record ds)
  | variant {fields : List Field} {index : Nat} {f : Field} {d : Datum} :
      fields[index]? = Option.some f → sub d f.type →
      Admits w sub (.variant fields) (.variant index f.label.id d)
  | service {methods : List Method} {bytes : List UInt8} : bytes.length ≤ maxPrincipal →
      Admits w sub (.service methods) (.service bytes)
  | func {signature : Signature} {bytes : List UInt8} {method : String} :
      bytes.length ≤ maxPrincipal → Payload (utf8 method) →
      Admits w sub (.func signature) (.func bytes method)

/-- The tree `d` is of type `t`, and nests at most `depth` deep. -/
def Scope.Types (w : Scope) : (depth : Nat) → Datum → TypeId → Prop
  | 0, _, _ => False
  | depth + 1, d, t => ∃ r n, w.StandsFor t r n ∧ w.Admits (w.Types depth) n d

end TypedWire
