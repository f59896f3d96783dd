import TypedWire.Message.TypeTable
import TypedWire.Proofs.Congruence
import TypedWire.Proofs.Prompt
import TypedWire.Session.Decode
import TypedWire.Session.Skip

/-! Walks over a value, step by step. Decoding and skipping are put together of a few kinds of steps: they
    read, look types up, charge, and put what they find into a store. So a relation of runs that is kept
    by each kind of step, and where runs are put together, relates whole walks. -/

namespace TypedWire

open TypedWire.Action

/-! ### Decoding -/

namespace Decode

variable {Rel : ∀ ⦃α : Type⦄, Action State α → Action State α → Prop} {cx cx' : Context} {depth : Nat}
variable {α : Type} {item item' : TypeId → Action State ValueId}

/-- The relation is kept by every kind of step that decoding takes. -/
structure Walk (Rel : ∀ ⦃α : Type⦄, Action State α → Action State α → Prop) (cx cx' : Context) : Prop
    extends Congruence Rel where
  read : ∀ {α : Type} {x : Action Reader α}, Reader.Program x → Rel (Decode.read x) (Decode.read x)
  put : ∀ {α : Type} (x : Action Store α), Rel (Decode.put x) (Decode.put x)
  resolve : ∀ t, Rel (Decode.resolve cx t) (Decode.resolve cx' t)
  offset : Rel Decode.offset Decode.offset
  spend : ∀ n, Rel (Decode.spend cx n) (Decode.spend cx' n)

/-- The relation is kept by every kind of step that decoding takes, where no types are met but those of
    which `own` holds. -/
structure WalkOver (own : TypeId → Prop) (Rel : ∀ ⦃α : Type⦄, Action State α → Action State α → Prop)
    (cx cx' : Context) : Prop extends Congruence Rel where
  read : ∀ {α : Type} {x : Action Reader α}, Reader.Program x → Rel (Decode.read x) (Decode.read x)
  putValue : ∀ x, Rel (Decode.put (Store.putValue x)) (Decode.put (Store.putValue x))
  putBytes : ∀ bytes, Rel (Decode.put (Store.putBytes bytes)) (Decode.put (Store.putBytes bytes))
  resolve : ∀ {α : Type} {f g : TypeNode → Action State α} (t : TypeId), own t →
    (∀ n, (∀ c ∈ TypeTable.parts n, own c) → Rel (f n) (g n)) →
    Rel (Decode.resolve cx t >>= f) (Decode.resolve cx' t >>= g)
  offset : Rel Decode.offset Decode.offset
  spend : ∀ n, Rel (Decode.spend cx n) (Decode.spend cx' n)

theorem Walk.over (h : Walk Rel cx cx') : WalkOver (fun _ => True) Rel cx cx' where
  toCongruence := h.toCongruence
  read := h.read
  putValue _ := h.put _
  putBytes _ := h.put _
  resolve t _ hfg := h.seq (h.resolve t) fun n => hfg n fun _ _ => trivial
  offset := h.offset
  spend := h.spend

namespace WalkOver

variable {own : TypeId → Prop}

theorem spendSince (h : WalkOver own Rel cx cx') (start : Nat) :
    Rel (spendSince cx start) (spendSince cx' start) :=
  h.seq h.offset fun _ => h.spend _

theorem finish (h : WalkOver own Rel cx cx') (start : Nat) (x : Value) :
    Rel (finish cx start x) (finish cx' start x) :=
  h.seq (h.spendSince start) fun _ => h.putValue _

/-- A payload is read, and put into the store. -/
theorem payload (h : WalkOver own Rel cx cx') {x : Action Reader α} {bytes : α → List UInt8}
    {make : Span → Value} (hx : Reader.Program x) :
    Rel (do return make (← Decode.put (Store.putBytes (bytes (← Decode.read x)))))
      (do return make (← Decode.put (Store.putBytes (bytes (← Decode.read x))))) :=
  h.seq (h.read hx) fun _ => h.seq (h.putBytes _) fun _ => h.answer _

theorem primitive (h : WalkOver own Rel cx cx') (p : Primitive) : Rel (primitive p) (primitive p) := by
  cases p with
  | null => exact h.answer _
  | reserved => exact h.answer _
  | empty => exact h.fault .invalid
  | bool =>
    refine h.seq (h.read Reader.program_byte) fun b => ?_
    split
    · exact h.answer _
    · exact h.answer _
    · exact h.fault .invalid
  | fixed f => exact h.seq (h.read (Reader.program_fixed f)) fun _ => h.answer _
  | nat => exact h.payload Reader.program_number
  | int => exact h.payload Reader.program_number
  | text => exact h.payload Reader.program_text
  | principal => exact h.payload Reader.program_principal

theorem service (h : WalkOver own Rel cx cx') : Rel service service := h.payload Reader.program_service

theorem func (h : WalkOver own Rel cx cx') : Rel func func :=
  h.seq (h.read Reader.program_func) fun ⟨_, _⟩ => h.seq (h.putBytes _) fun _ =>
    h.seq (h.putBytes _) fun _ => h.answer _

end WalkOver

/-- One level of decoding, the decoder of the parts being `item`. -/
def level (cx : Context) (item : TypeId → Action State ValueId) (type : TypeId) : Action State ValueId := do
  let node ← resolve cx type
  let start ← offset
  match node with
  | .primitive p => finish cx start (← primitive p)
  | .service _ => finish cx start (← service)
  | .func _ => finish cx start (← func)
  | .opt inner => opt cx start (item inner)
  | .vec element => vec cx start element (item element)
  | .record fields => record item fields
  | .variant fields => variant cx start item fields
  | .var _ => Action.fail .invalid

section Over

variable {own : TypeId → Prop}

/-- What relates the decoders of the parts relates the decoders of the whole. -/
theorem WalkOver.level (h : WalkOver own Rel cx cx') (hitem : ∀ t, own t → Rel (item t) (item' t))
    (t : TypeId) (ht : own t) : Rel (level cx item t) (level cx' item' t) := by
  refine h.resolve t ht fun n hparts => h.seq h.offset fun start => ?_
  cases n with
  | primitive p => exact h.seq (h.primitive p) fun x => h.finish start x
  | service methods => exact h.seq h.service fun x => h.finish start x
  | func signature => exact h.seq h.func fun x => h.finish start x
  | opt inner =>
    have hinner : own inner := hparts inner List.mem_cons_self
    refine h.seq (h.read Reader.program_byte) fun flag => ?_
    split
    · exact h.finish start _
    · exact h.seq (h.spendSince start) fun _ => h.seq (hitem inner hinner) fun _ => h.putValue _
    · exact h.fault .invalid
  | vec element =>
    have helement : own element := hparts element List.mem_cons_self
    refine h.seq (h.read Reader.program_unsigned) fun count => ?_
    refine h.seq (h.spendSince start) fun _ => h.seq (h.spend count) fun _ => ?_
    refine h.resolve element helement fun n _ => ?_
    split
    · exact h.seq (h.read (Reader.program_bytes count)) fun _ => h.seq (h.putBytes _) fun _ => h.putValue _
    · exact h.seq (h.replicate (hitem element helement) count) fun _ => h.putValue _
  | record fields =>
    refine h.seq (h.mapM_mem fields fun field hfield => ?_) fun _ => h.putValue _
    exact h.seq (hitem field.type (hparts _ (List.mem_map_of_mem hfield))) fun _ => h.answer _
  | variant fields =>
    refine h.seq (h.read Reader.program_unsigned) fun index => h.seq (h.spendSince start) fun _ => ?_
    split
    · next field hfield =>
      have htype : own field.type := hparts _ (List.mem_map_of_mem (List.mem_of_getElem? hfield))
      exact h.seq (hitem field.type htype) fun _ => h.putValue _
    · exact h.fault .invalid
  | var name => exact h.fault .invalid

theorem WalkOver.value (h : WalkOver own Rel cx cx') : ∀ (depth : Nat) (t : TypeId), own t →
    Rel (value cx depth t) (value cx' depth t)
  | 0, _, _ => h.fault .overflow
  | depth + 1, t, ht => h.level (h.value depth) t ht

end Over

theorem Walk.level (h : Walk Rel cx cx') (hitem : ∀ t, Rel (item t) (item' t)) (t : TypeId) :
    Rel (level cx item t) (level cx' item' t) :=
  h.over.level (fun t _ => hitem t) t trivial

theorem Walk.value (h : Walk Rel cx cx') (depth : Nat) (t : TypeId) :
    Rel (value cx depth t) (value cx' depth t) :=
  h.over.value depth t trivial

end Decode

/-! ### Skipping -/

namespace Skip

variable {Rel : ∀ ⦃α : Type⦄, Action State α → Action State α → Prop} {cx cx' : Context} {depth : Nat}
variable {item item' : TypeId → Action State Unit}

theorem program_primitive (p : Primitive) : Reader.Program (primitive p) := by
  cases p with
  | null => exact .answer ()
  | reserved => exact .answer ()
  | empty => exact .fault .invalid
  | bool =>
    refine .seq Reader.program_byte fun b => ?_
    split
    · exact .fault .invalid
    · exact .answer ()
  | fixed f => exact Reader.program_skip f.width
  | nat => exact .seq Reader.program_number fun _ => .answer ()
  | int => exact .seq Reader.program_number fun _ => .answer ()
  | text => exact .seq Reader.program_text fun _ => .answer ()
  | principal => exact .seq Reader.program_principal fun _ => .answer ()

/-- The relation is kept by every kind of step that skipping takes. -/
structure Walk (Rel : ∀ ⦃α : Type⦄, Action State α → Action State α → Prop) (cx cx' : Context) : Prop
    extends Congruence Rel where
  read : ∀ {α : Type} {x : Action Reader α}, Reader.Program x → Rel (Skip.read x) (Skip.read x)
  resolve : ∀ t, Rel (Action.ofExcept (cx.env.resolve cx.store t))
    (Action.ofExcept (cx'.env.resolve cx'.store t))
  offset : Rel Skip.offset Skip.offset
  spend : ∀ n, Rel (Skip.spend cx n) (Skip.spend cx' n)

theorem Walk.spendSince (h : Walk Rel cx cx') (start : Nat) :
    Rel (spendSince cx start) (spendSince cx' start) :=
  h.seq h.offset fun _ => h.spend _

/-- One level of skipping, the parts being passed over by `item`. -/
def level (cx : Context) (item : TypeId → Action State Unit) (type : TypeId) : Action State Unit := do
  let node ← Action.ofExcept (cx.env.resolve cx.store type)
  let start ← offset
  match node with
  | .primitive p =>
    read (primitive p)
    spendSince cx start
  | .service _ =>
    let _ ← read Reader.service
    spendSince cx start
  | .func _ =>
    let _ ← read Reader.func
    spendSince cx start
  | .opt inner => opt cx start (item inner)
  | .vec element => vec cx start element (item element)
  | .record fields => record item fields
  | .variant fields => variant cx start item fields
  | .var _ => Action.fail .invalid

/-- What relates the walks over the parts relates the walks over the whole. -/
theorem Walk.level (h : Walk Rel cx cx') (hitem : ∀ t, Rel (item t) (item' t)) (t : TypeId) :
    Rel (level cx item t) (level cx' item' t) := by
  refine h.seq (h.resolve t) fun n => h.seq h.offset fun start => ?_
  cases n with
  | primitive p => exact h.seq (h.read (program_primitive p)) fun _ => h.spendSince start
  | service methods => exact h.seq (h.read Reader.program_service) fun _ => h.spendSince start
  | func signature => exact h.seq (h.read Reader.program_func) fun _ => h.spendSince start
  | opt inner =>
    refine h.seq (h.read Reader.program_byte) fun flag => ?_
    split
    · exact h.spendSince start
    · exact h.seq (h.spendSince start) fun _ => hitem inner
    · exact h.fault .invalid
  | vec element =>
    refine h.seq (h.read Reader.program_unsigned) fun count => ?_
    refine h.seq (h.spendSince start) fun _ => h.seq (h.spend count) fun _ => ?_
    refine h.seq (h.resolve element) fun n => ?_
    split
    · exact h.read (Reader.program_skip count)
    · exact h.iterate (hitem element) count
  | record fields => exact h.forM (fun field => hitem field.type) fields
  | variant fields =>
    refine h.seq (h.read Reader.program_unsigned) fun index => ?_
    split
    · exact h.seq (h.spendSince start) fun _ => hitem _
    · exact h.fault .invalid
  | var name => exact h.fault .invalid

theorem Walk.value (h : Walk Rel cx cx') : ∀ (depth : Nat) (t : TypeId),
    Rel (value cx depth t) (value cx' depth t)
  | 0, _ => h.fault .overflow
  | depth + 1, t => h.level (h.value depth) t

end Skip

end TypedWire
