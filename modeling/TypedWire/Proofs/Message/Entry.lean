import Mathlib.Data.List.Forall2
import TypedWire.Message.TypeTable
import TypedWire.Proofs.Schema.Alias

/-! What a message has for a type with parts: the number of its kind, and what follows it, in which
    each part is referred to by a number of its own. -/

namespace TypedWire

/-- The items of a list, after their number. -/
def listBytes {α : Type} (item : α → List UInt8) (items : List α) : List UInt8 :=
  Leb128.encodeUnsigned items.length ++ (items.map item).flatten

section Entry

variable (code : TypeId → Int)

/-- A reference. -/
def refBytes (t : TypeId) : List UInt8 := Leb128.encodeSigned (code t)

def Field.entryBytes (f : Field) : List UInt8 :=
  Leb128.encodeUnsigned f.label.id.toNat ++ refBytes code f.type

def Method.entryBytes (m : Method) : List UInt8 :=
  Leb128.encodeUnsigned (utf8 m.name).length ++ utf8 m.name ++ refBytes code m.type

def Mode.entryBytes (m : Mode) : List UInt8 := Leb128.encodeUnsigned m.wire

def Signature.entryBytes (f : Signature) : List UInt8 :=
  listBytes (refBytes code) f.args ++ listBytes (refBytes code) f.results ++
    listBytes Mode.entryBytes f.modes

/-- What follows the number of the kind. -/
def TypeNode.contentBytes : TypeNode → List UInt8
  | .opt t | .vec t => refBytes code t
  | .record fields | .variant fields => listBytes (Field.entryBytes code) fields
  | .func f => f.entryBytes code
  | .service methods => listBytes (Method.entryBytes code) methods
  | .primitive _ | .var _ => []

/-- What is written for a node whose parts have these numbers. -/
def TypeNode.entryBytes (n : TypeNode) : List UInt8 :=
  Leb128.encodeSigned n.kind.opcode ++ n.contentBytes code

end Entry

/-! ### Types without parts -/

/-- One more type is kept for those without parts. -/
theorem forall_lookup_cons {shared : List (Primitive × TypeId)} {P : Primitive → TypeId → Prop}
    {p : Primitive} {t : TypeId} (ht : P p t) (h : ∀ q u, shared.lookup q = some u → P q u) :
    ∀ q u, ((p, t) :: shared).lookup q = some u → P q u := by
  intro q u hu
  rw [List.lookup_cons] at hu
  split at hu
  · next heq =>
    obtain rfl : t = u := Option.some.inj hu
    rwa [eq_of_beq heq]
  · exact h q u hu

/-! ### Writing -/

namespace TypeTable

variable {t : TypeTable} {s : Store} {env : Env} {code : TypeId → Int} {P : TypeId → Prop}

theorem modeBytes_eq (m : Mode) : m.entryBytes = [UInt8.ofNat m.wire] := by
  rw [Mode.entryBytes, Leb128.encodeUnsigned, if_pos (by cases m <;> decide)]

theorem modes_bytes (modes : List Mode) :
    Leb128.encodeUnsigned (modes.map fun m => UInt8.ofNat m.wire).length ++
      modes.map (fun m => UInt8.ofNat m.wire) = listBytes Mode.entryBytes modes := by
  have hflat : modes.map (fun m => UInt8.ofNat m.wire) = (modes.map Mode.entryBytes).flatten := by
    induction modes with
    | nil => rfl
    | cons m modes ih => rw [List.map_cons, List.map_cons, List.flatten_cons, ← ih, modeBytes_eq]; rfl
  rw [List.length_map, hflat, listBytes]

/-- If a reference is written by the number of the type, so is all that is made of references. -/
theorem encodeRefs_eq_ok
    (h : ∀ c bytes, t.encodeRef s env c = .ok bytes → bytes = refBytes code c ∧ P c)
    {types : List TypeId} {bytes : List UInt8} (hb : t.encodeRefs s env types = .ok bytes) :
    bytes = listBytes (refBytes code) types ∧ ∀ c ∈ types, P c := by
  simp only [encodeRefs, Except.bind_eq_ok, Except.pure_eq_ok] at hb
  obtain ⟨refs, hrefs, rfl⟩ := hb
  obtain ⟨rfl, hP⟩ := Except.mapM_eq_ok h hrefs
  exact ⟨rfl, hP⟩

theorem encodeFields_eq_ok
    (h : ∀ c bytes, t.encodeRef s env c = .ok bytes → bytes = refBytes code c ∧ P c)
    {fields : List Field} {bytes : List UInt8} (hb : t.encodeFields s env fields = .ok bytes) :
    bytes = listBytes (Field.entryBytes code) fields ∧ ∀ f ∈ fields, P f.type := by
  simp only [encodeFields, Except.bind_eq_ok, Except.pure_eq_ok] at hb
  obtain ⟨items, hitems, rfl⟩ := hb
  have hitem : ∀ (f : Field) (b : List UInt8), (do
      return Leb128.encodeUnsigned f.label.id.toNat ++ (← t.encodeRef s env f.type)) = Except.ok b →
      b = f.entryBytes code ∧ P f.type := by
    intro f b hf
    simp only [Except.bind_eq_ok, Except.pure_eq_ok] at hf
    obtain ⟨ref, href, rfl⟩ := hf
    obtain ⟨rfl, hPf⟩ := h _ _ href
    exact ⟨rfl, hPf⟩
  obtain ⟨rfl, hP⟩ := Except.mapM_eq_ok hitem hitems
  exact ⟨rfl, hP⟩

theorem encodeMethods_eq_ok
    (h : ∀ c bytes, t.encodeRef s env c = .ok bytes → bytes = refBytes code c ∧ P c)
    {methods : List Method} {bytes : List UInt8} (hb : t.encodeMethods s env methods = .ok bytes) :
    bytes = listBytes (Method.entryBytes code) methods ∧ ∀ m ∈ methods, P m.type := by
  simp only [encodeMethods, Except.bind_eq_ok, Except.pure_eq_ok] at hb
  obtain ⟨items, hitems, rfl⟩ := hb
  have hitem : ∀ (m : Method) (b : List UInt8), (do
      return Leb128.encodeUnsigned (utf8 m.name).length ++ utf8 m.name ++
        (← t.encodeRef s env m.type)) = Except.ok b → b = m.entryBytes code ∧ P m.type := by
    intro m b hm
    simp only [Except.bind_eq_ok, Except.pure_eq_ok] at hm
    obtain ⟨ref, href, rfl⟩ := hm
    obtain ⟨rfl, hPm⟩ := h _ _ href
    exact ⟨rfl, hPm⟩
  obtain ⟨rfl, hP⟩ := Except.mapM_eq_ok hitem hitems
  exact ⟨rfl, hP⟩

theorem encodeNode_eq_ok
    (h : ∀ c bytes, t.encodeRef s env c = .ok bytes → bytes = refBytes code c ∧ P c)
    {n : TypeNode} {bytes : List UInt8} (hb : t.encodeNode s env n = .ok bytes) :
    bytes = n.entryBytes code ∧ ∀ c ∈ parts n, P c := by
  cases n with
  | opt inner =>
    simp only [encodeNode, Except.bind_eq_ok, Except.pure_eq_ok] at hb
    obtain ⟨content, hcontent, rfl⟩ := hb
    obtain ⟨rfl, hP⟩ := h _ _ hcontent
    exact ⟨rfl, by simpa [parts] using hP⟩
  | vec element =>
    simp only [encodeNode, Except.bind_eq_ok, Except.pure_eq_ok] at hb
    obtain ⟨content, hcontent, rfl⟩ := hb
    obtain ⟨rfl, hP⟩ := h _ _ hcontent
    exact ⟨rfl, by simpa [parts] using hP⟩
  | record fields =>
    simp only [encodeNode, Except.bind_eq_ok, Except.pure_eq_ok] at hb
    obtain ⟨content, hcontent, rfl⟩ := hb
    obtain ⟨rfl, hP⟩ := encodeFields_eq_ok h hcontent
    exact ⟨rfl, by simpa [parts] using hP⟩
  | variant fields =>
    simp only [encodeNode, Except.bind_eq_ok, Except.pure_eq_ok] at hb
    obtain ⟨content, hcontent, rfl⟩ := hb
    obtain ⟨rfl, hP⟩ := encodeFields_eq_ok h hcontent
    exact ⟨rfl, by simpa [parts] using hP⟩
  | func f =>
    simp only [encodeNode, Except.bind_eq_ok, Except.pure_eq_ok] at hb
    obtain ⟨args, hargs, results, hresults, content, rfl, rfl⟩ := hb
    obtain ⟨rfl, hPargs⟩ := encodeRefs_eq_ok h hargs
    obtain ⟨rfl, hPresults⟩ := encodeRefs_eq_ok h hresults
    refine ⟨?_, fun c hc => ?_⟩
    · rw [TypeNode.entryBytes, TypeNode.contentBytes, Signature.entryBytes, ← modes_bytes,
        List.append_assoc, List.append_assoc]
    · rcases List.mem_append.mp hc with hc | hc
      · exact hPargs c hc
      · exact hPresults c hc
  | service methods =>
    simp only [encodeNode, Except.bind_eq_ok, Except.pure_eq_ok] at hb
    obtain ⟨content, hcontent, rfl⟩ := hb
    obtain ⟨rfl, hP⟩ := encodeMethods_eq_ok h hcontent
    exact ⟨rfl, by simpa [parts] using hP⟩
  | primitive p =>
    simp only [encodeNode, Except.bind_eq_ok, Except.throw_ne_ok, false_and, exists_false] at hb
  | var name =>
    simp only [encodeNode, Except.bind_eq_ok, Except.throw_ne_ok, false_and, exists_false] at hb

end TypeTable

end TypedWire
