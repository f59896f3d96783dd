import Mathlib.Computability.Language
import TypedWire.Message.Header
import TypedWire.Proofs.Number.Numeral
import TypedWire.Proofs.Schema.Canonical
import TypedWire.Proofs.Text.Utf8

/-! The grammar of headers, apart from how one is read: what a header may say, the strings of bytes that
    say it, and which nodes it stands for. References may go to any slot of the table, so nothing is
    said of the order of entries. One thing is said by many strings, as numbers may be padded. -/

namespace TypedWire.Grammar

variable {α ρ : Type}

/-! ### Numbers and lists -/

/-- The spellings of an unsigned number. -/
def unsigned (n : Nat) : Language UInt8 := {bytes | Leb128.Unsigned bytes n}

/-- The spellings of a signed number. -/
def signed (i : Int) : Language UInt8 := {bytes | Leb128.Signed bytes i}

/-- The spellings of a list: how many items there are, and then the items. -/
def counted (item : α → Language UInt8) (items : List α) : Language UInt8 :=
  unsigned items.length * (items.map item).prod

/-- The spellings of a byte string: how many bytes there are, and then the bytes. -/
def sized (bytes : List UInt8) : Language UInt8 := unsigned bytes.length * {bytes}

/-! ### What a header says -/

/-- A reference: the number of a table slot, or a type without parts. -/
inductive Ref where
  | slot (i : Nat)
  | primitive (p : Primitive)
  deriving DecidableEq, Repr

/-- An entry of the table, whose references are of type `ρ`. -/
inductive Entry (ρ : Type) where
  | opt (inner : ρ)
  | vec (element : ρ)
  | record (fields : List (UInt32 × ρ))
  | variant (fields : List (UInt32 × ρ))
  | func (args results : List ρ) (mode : Option Mode)
  | service (methods : List (String × ρ))
  /-- A type of the future, whose payload means nothing yet. -/
  | future (opcode : Int) (payload : List UInt8)

/-- All that a header says. -/
structure Preamble where
  table : List (Entry Ref)
  args : List Ref

/-! ### How it is said -/

/-- The spellings of a reference, if there are so many slots. -/
def Ref.spellings (slots : Nat) : Ref → Language UInt8
  | .slot i => {bytes | i < slots ∧ bytes ∈ signed i}
  | .primitive p => signed p.opcode

section Spellings

variable (ref : ρ → Language UInt8)

/-- The spellings of the fields of a record or variant type, in the order of their numbers. -/
def fieldList (fs : List (UInt32 × ρ)) : Language UInt8 :=
  {bytes | Increasing Prod.fst fs ∧ bytes ∈ counted (fun f => unsigned f.1.toNat * ref f.2) fs}

/-- The spellings of the methods of a service type, in the order of the bytes of their names. -/
def methodList (ms : List (String × ρ)) : Language UInt8 :=
  {bytes | Increasing (fun m => utf8 m.1) ms ∧ bytes ∈ counted (fun m => sized (utf8 m.1) * ref m.2) ms}

/-- The spellings of a table entry: its opcode, and what goes with it. -/
def Entry.spellings : Entry ρ → Language UInt8
  | .opt inner => signed (-18) * ref inner
  | .vec element => signed (-19) * ref element
  | .record fs => signed (-20) * fieldList ref fs
  | .variant fs => signed (-21) * fieldList ref fs
  | .func args results mode => signed (-22) * (counted ref args * (counted ref results *
      counted (fun m => unsigned m.wire) mode.toList))
  | .service ms => signed (-23) * methodList ref ms
  | .future opcode payload => {bytes | opcode < -24 ∧ bytes ∈ signed opcode * sized payload}

end Spellings

/-- The spellings of a header. -/
def Preamble.spellings (p : Preamble) : Language UInt8 :=
  {utf8 "DIDL"} * (counted (Entry.spellings (Ref.spellings p.table.length)) p.table *
    counted (Ref.spellings p.table.length) p.args)

/-! ### What is meant -/

/-- The node of what is referred to: a slot goes by its name. -/
def Ref.node : Ref → TypeNode
  | .slot i => .var (Header.slotName i)
  | .primitive p => .primitive p

/-- The handle is that of what is referred to. -/
def Ref.Denotes (s : Store) (r : Ref) (t : TypeId) : Prop := s.typeAt t = .ok r.node

/-- The node that an entry stands for, where `R` tells which handles its references stand for. -/
inductive Entry.Denotes (R : ρ → TypeId → Prop) : Entry ρ → TypeNode → Prop where
  | opt {r t} (h : R r t) : Denotes R (.opt r) (.opt t)
  | vec {r t} (h : R r t) : Denotes R (.vec r) (.vec t)
  | record {fs gs} (h : List.Forall₂ (fun f g => g.label = .bare f.1 ∧ R f.2 g.type) fs gs) :
      Denotes R (.record fs) (.record gs)
  | variant {fs gs} (h : List.Forall₂ (fun f g => g.label = .bare f.1 ∧ R f.2 g.type) fs gs) :
      Denotes R (.variant fs) (.variant gs)
  | func {args results mode args' results'} (ha : List.Forall₂ R args args')
      (hr : List.Forall₂ R results results') :
      Denotes R (.func args results mode) (.func ⟨args', results', mode.toList⟩)
  | service {ms ks} (h : List.Forall₂ (fun m k => k.name = m.1 ∧ R m.2 k.type) ms ks) :
      Denotes R (.service ms) (.service ks)
  | future {opcode payload} : Denotes R (.future opcode payload) (.primitive .reserved)

theorem Entry.Denotes.mono {R R' : ρ → TypeId → Prop} {e : Entry ρ} {n : TypeNode}
    (h : e.Denotes R n) (hR : ∀ r t, R r t → R' r t) : e.Denotes R' n := by
  cases h with
  | opt h => exact .opt (hR _ _ h)
  | vec h => exact .vec (hR _ _ h)
  | record h => exact .record (h.imp fun _ _ hfg => ⟨hfg.1, hR _ _ hfg.2⟩)
  | variant h => exact .variant (h.imp fun _ _ hfg => ⟨hfg.1, hR _ _ hfg.2⟩)
  | func ha hr => exact .func (ha.imp hR) (hr.imp hR)
  | service h => exact .service (h.imp fun _ _ hmk => ⟨hmk.1, hR _ _ hmk.2⟩)
  | future => exact .future

/-- The header says this of the store: its types are what the entries and references stand for. -/
structure Preamble.Denotes (p : Preamble) (header : Header) (s : Store) : Prop where
  table : List.Forall₂ (fun e t => ∃ n, s.typeAt t = .ok n ∧ e.Denotes (Ref.Denotes s) n)
    p.table header.table
  args : List.Forall₂ (Ref.Denotes s) p.args header.args

theorem increasing_utf8 {ms : List (String × ρ)} :
    Increasing (fun m => utf8 m.1) ms ↔ Increasing Prod.fst ms := by
  simp only [Increasing, utf8_lt_iff]

/-! ### Sizes -/

section Sizes

variable {bytes : List UInt8} {ref : ρ → Language UInt8}

theorem unsigned_pos {n : Nat} (h : bytes ∈ unsigned n) : 0 < bytes.length :=
  Leb128.IsNumber.pos (Leb128.Unsigned.number h)

theorem signed_pos {i : Int} (h : bytes ∈ signed i) : 0 < bytes.length :=
  Leb128.IsNumber.pos (Leb128.Signed.number h)

theorem mul_pos {l m : Language UInt8} (hl : ∀ front ∈ l, 0 < front.length) (h : bytes ∈ l * m) :
    0 < bytes.length := by
  obtain ⟨front, hfront, more, -, rfl⟩ := Language.mem_mul.mp h
  have := hl front hfront
  rw [List.length_append]
  omega

theorem Ref.spellings_pos {slots : Nat} : ∀ {r : Ref}, bytes ∈ r.spellings slots → 0 < bytes.length
  | .slot _, h => signed_pos h.2
  | .primitive _, h => signed_pos h

theorem Entry.spellings_pos : ∀ {e : Entry ρ}, bytes ∈ e.spellings ref → 0 < bytes.length
  | .opt _, h | .vec _, h | .record _, h | .variant _, h | .func _ _ _, h | .service _, h =>
    mul_pos (fun _ => signed_pos) h
  | .future _ _, h => mul_pos (fun _ => signed_pos) h.2

end Sizes

end TypedWire.Grammar
