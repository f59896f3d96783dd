import TypedWire.Proofs.Text.Utf8
import TypedWire.Proofs.Value.Parts

/-! The tree that a stored value denotes: at each node what the node says by itself, with payloads by their
    bytes and fields by their numbers, and below it the trees of its parts. An acyclic value all of whose
    payloads can be read denotes one tree, and no other value denotes any. -/

namespace TypedWire

open Relation

/-- What a value node says by itself, apart from what its parts say. A text is given by its bytes, also if
    these are no UTF-8. -/
inductive Mark where
  | null
  | reserved
  | bool (b : Bool)
  | nat (number : List UInt8)
  | int (number : List UInt8)
  | fixed (n : FixedNumber)
  | text (bytes : List UInt8)
  | principal (bytes : List UInt8)
  | blob (bytes : List UInt8)
  | opt (present : Bool)
  | vec
  /-- The numbers of the fields, in order. -/
  | record (ids : List UInt32)
  /-- The place of the active field, and its number. -/
  | variant (index : Nat) (id : UInt32)
  | service (principal : List UInt8)
  | func (service method : List UInt8)
  deriving DecidableEq

/-- A value with all that it is made of. -/
inductive ValueTree where
  | node (mark : Mark) (parts : List ValueTree)

/-- The payloads of a node. -/
def Value.spans : Value → List Span
  | .nat p | .int p | .text p | .principal p | .blob p | .service p => [p]
  | .func p q => [p, q]
  | _ => []

namespace Store

/-- The node says this by itself. -/
inductive Marks (s : Store) : Value → Mark → Prop where
  | null : Marks s .null .null
  | reserved : Marks s .reserved .reserved
  | bool (b : Bool) : Marks s (.bool b) (.bool b)
  | nat {p : Span} {bytes : List UInt8} : s.bytesAt p = .ok bytes → Marks s (.nat p) (.nat bytes)
  | int {p : Span} {bytes : List UInt8} : s.bytesAt p = .ok bytes → Marks s (.int p) (.int bytes)
  | fixed (n : FixedNumber) : Marks s (.fixed n) (.fixed n)
  | text {p : Span} {bytes : List UInt8} : s.bytesAt p = .ok bytes → Marks s (.text p) (.text bytes)
  | principal {p : Span} {bytes : List UInt8} : s.bytesAt p = .ok bytes →
      Marks s (.principal p) (.principal bytes)
  | blob {p : Span} {bytes : List UInt8} : s.bytesAt p = .ok bytes → Marks s (.blob p) (.blob bytes)
  | none : Marks s (.opt .none) (.opt false)
  | some (v : ValueId) : Marks s (.opt (.some v)) (.opt true)
  | vec (items : List ValueId) : Marks s (.vec items) .vec
  | record {fields : List FieldValue} {ids : List UInt32} : fields.map (·.label.id) = ids →
      Marks s (.record fields) (.record ids)
  | variant {index : Nat} {field : FieldValue} {id : UInt32} : field.label.id = id →
      Marks s (.variant index field) (.variant index id)
  | service {p : Span} {bytes : List UInt8} : s.bytesAt p = .ok bytes →
      Marks s (.service p) (.service bytes)
  | func {p q : Span} {service method : List UInt8} : s.bytesAt p = .ok service →
      s.bytesAt q = .ok method → Marks s (.func p q) (.func service method)

/-- The stored value `v` denotes the tree: its node says what the tree says on top, and its parts denote the
    trees below, in order. -/
inductive Denotes (s : Store) : ValueId → ValueTree → Prop where
  | node {v : ValueId} {x : Value} {m : Mark} {ts : List ValueTree} : s.valueAt v = .ok x →
      s.Marks x m → List.Forall₂ (Denotes s) x.parts ts → Denotes s v (.node m ts)

/-- A value without a circle, whose nodes are all in the store and whose payloads can all be read. -/
structure Whole (s : Store) (v : ValueId) : Prop where
  acyclic : s.Acyclic v
  payloads : ∀ u x p, ReflTransGen s.Has v u → s.valueAt u = .ok x → p ∈ x.spans →
    ∃ bytes, s.bytesAt p = .ok bytes

variable {s : Store} {v u : ValueId} {x : Value} {m m' : Mark} {t t' : ValueTree} {depth : Nat}

/-! ### Lists that match -/

/-- Members that each have a partner are a list that has one. -/
theorem forall₂_exists {α β : Type} {R : α → β → Prop} {xs : List α} (h : ∀ x ∈ xs, ∃ y, R x y) :
    ∃ ys, List.Forall₂ R xs ys := by
  induction xs with
  | nil => exact ⟨[], .nil⟩
  | cons x xs ih =>
    rw [List.forall_mem_cons] at h
    obtain ⟨y, hy⟩ := h.1
    obtain ⟨ys, hys⟩ := ih h.2
    exact ⟨y :: ys, .cons hy hys⟩

/-- Two lists whose members have partners in common have a list of partners in common. -/
theorem forall₂_common {α β γ : Type} {R : α → γ → Prop} {R' : β → γ → Prop} {xs : List α} {ys : List β}
    (h : List.Forall₂ (fun x y => ∃ z, R x z ∧ R' y z) xs ys) :
    ∃ zs, List.Forall₂ R xs zs ∧ List.Forall₂ R' ys zs := by
  induction h with
  | nil => exact ⟨[], .nil, .nil⟩
  | cons hxy _ ih =>
    obtain ⟨z, hx, hy⟩ := hxy
    obtain ⟨zs, hxs, hys⟩ := ih
    exact ⟨z :: zs, .cons hx hxs, .cons hy hys⟩

/-! ### What a node says -/

theorem Marks.functional (h : s.Marks x m) (h' : s.Marks x m') : m = m' := by
  cases h with
  | nat hb | int hb | text hb | principal hb | blob hb | service hb => cases h'; simp_all
  | func hp hq => cases h'; simp_all
  | record hids => cases h'; simp_all
  | variant hid => cases h'; simp_all
  | _ => cases h'; rfl

theorem exists_marks (h : ∀ p ∈ x.spans, ∃ bytes, s.bytesAt p = .ok bytes) : ∃ m, s.Marks x m := by
  cases x with
  | nat p | int p | text p | principal p | blob p | service p =>
    obtain ⟨bytes, hb⟩ := h p (by simp [Value.spans])
    exact ⟨_, by constructor; exact hb⟩
  | func p q =>
    obtain ⟨service, hp⟩ := h p (by simp [Value.spans])
    obtain ⟨method, hq⟩ := h q (by simp [Value.spans])
    exact ⟨_, .func hp hq⟩
  | record fields => exact ⟨_, .record rfl⟩
  | variant index field => exact ⟨_, .variant rfl⟩
  | opt inner =>
    cases inner with
    | none => exact ⟨_, .none⟩
    | some v => exact ⟨_, .some v⟩
  | _ => exact ⟨_, by constructor⟩

theorem Marks.readable (h : s.Marks x m) : ∀ p ∈ x.spans, ∃ bytes, s.bytesAt p = .ok bytes := by
  cases h with
  | nat hb | int hb | text hb | principal hb | blob hb | service hb => simpa [Value.spans] using ⟨_, hb⟩
  | func hp hq => simpa [Value.spans] using ⟨⟨_, hp⟩, _, hq⟩
  | _ => simp [Value.spans]

/-! ### What a value denotes -/

/-- Induction along the tree: a node is reached when its parts have been. -/
theorem Denotes.induction {P : ValueId → ValueTree → Prop}
    (step : ∀ {v x m ts}, s.valueAt v = .ok x → s.Marks x m →
      List.Forall₂ (fun u t => s.Denotes u t ∧ P u t) x.parts ts → P v (.node m ts))
    (h : s.Denotes v t) : P v t :=
  @Denotes.rec s (fun v t _ => P v t) (fun us ts _ => List.Forall₂ (fun u t => s.Denotes u t ∧ P u t) us ts)
    (fun hx hm _ ih => step hx hm ih) .nil (fun h _ ih ihs => .cons ⟨h, ih⟩ ihs) v t h

/-- A value denotes one tree. -/
theorem Denotes.functional (h : s.Denotes v t) (h' : s.Denotes v t') : t = t' := by
  refine h.induction (P := fun v t => ∀ t', s.Denotes v t' → t = t') ?_ t' h'
  rintro v x m ts hx hm hparts - ⟨hy, hn, hparts'⟩
  obtain rfl := Except.ok.inj (hx.symm.trans hy)
  obtain rfl := hm.functional hn
  rw [forall₂_functional (fun u t t' hu hu' => hu.2 t' hu') hparts hparts']

theorem Denotes.nests (h : s.Denotes v t) : ∃ depth, s.Nests depth v := by
  refine h.induction (P := fun v _ => ∃ depth, s.Nests depth v) ?_
  intro v x m ts hx hm hparts
  obtain ⟨depth, hdepth⟩ := nests_all fun u hu => by
    obtain ⟨t, -, -, ht⟩ := forall₂_partner hparts.flip u hu
    exact ht
  exact ⟨depth + 1, x, hx, hdepth⟩

theorem Denotes.part (h : s.Denotes v t) (hu : s.Has v u) : ∃ t, s.Denotes u t := by
  obtain ⟨hx, -, hparts⟩ := h
  obtain ⟨y, hy, hmem⟩ := hu
  obtain rfl := Except.ok.inj (hx.symm.trans hy)
  obtain ⟨t, -, ht⟩ := forall₂_partner hparts.flip u hmem
  exact ⟨t, ht⟩

theorem Denotes.reached (h : s.Denotes v t) (hu : ReflTransGen s.Has v u) : ∃ t, s.Denotes u t := by
  induction hu with
  | refl => exact ⟨t, h⟩
  | tail _ hlast ih =>
    obtain ⟨t, ht⟩ := ih
    exact ht.part hlast

/-! ### Which values denote a tree -/

theorem Whole.part (h : s.Whole v) (hu : s.Has v u) : s.Whole u where
  acyclic := ⟨fun w hw => h.acyclic.live w (hw.head hu), fun w hw => h.acyclic.once w (hw.head hu)⟩
  payloads w x p hw := h.payloads w x p (hw.head hu)

theorem Nests.denotes (h : s.Nests depth v) (hwhole : s.Whole v) : ∃ t, s.Denotes v t := by
  induction depth generalizing v with
  | zero => exact h.elim
  | succ depth ih =>
    obtain ⟨x, hx, hparts⟩ := h
    obtain ⟨m, hm⟩ := exists_marks fun p => hwhole.payloads v x p .refl hx
    obtain ⟨ts, hts⟩ := forall₂_exists fun u hu => ih (hparts u hu) (hwhole.part ⟨x, hx, hu⟩)
    exact ⟨.node m ts, .node hx hm hts⟩

/-- The values that denote a tree are those without a circle whose nodes and payloads are there. -/
theorem whole_iff : s.Whole v ↔ ∃ t, s.Denotes v t := by
  constructor
  · intro h
    obtain ⟨depth, hdepth⟩ := h.acyclic.nests
    exact hdepth.denotes h
  · rintro ⟨t, h⟩
    refine ⟨acyclic_iff_nests.mpr h.nests, fun u x p hu hx => ?_⟩
    obtain ⟨t, hy, hm, -⟩ := h.reached hu
    obtain rfl := Except.ok.inj (hx.symm.trans hy)
    exact hm.readable p

theorem Whole.existsUnique (h : s.Whole v) : ∃! t, s.Denotes v t := by
  obtain ⟨t, ht⟩ := whole_iff.mp h
  exact ⟨t, ht, fun t' ht' => ht'.functional ht⟩

end Store

/-! ### Data -/

mutual

/-- A datum, with its texts as their bytes. -/
def Datum.tree : Datum → ValueTree
  | .null => .node .null []
  | .reserved => .node .reserved []
  | .bool b => .node (.bool b) []
  | .nat number => .node (.nat number) []
  | .int number => .node (.int number) []
  | .fixed n => .node (.fixed n) []
  | .text s => .node (.text (utf8 s)) []
  | .principal bytes => .node (.principal bytes) []
  | .blob bytes => .node (.blob bytes) []
  | .opt none => .node (.opt false) []
  | .opt (some d) => .node (.opt true) [d.tree]
  | .vec items => .node .vec (Datum.trees items)
  | .record fields => .node (.record (fields.map (·.1))) (Datum.fieldTrees fields)
  | .variant index id d => .node (.variant index id) [d.tree]
  | .service bytes => .node (.service bytes) []
  | .func p method => .node (.func p (utf8 method)) []

def Datum.trees : List Datum → List ValueTree
  | [] => []
  | d :: ds => d.tree :: Datum.trees ds

def Datum.fieldTrees : List (UInt32 × Datum) → List ValueTree
  | [] => []
  | (_, d) :: fields => d.tree :: Datum.fieldTrees fields

end

theorem Datum.trees_eq : ∀ ds : List Datum, Datum.trees ds = ds.map Datum.tree
  | [] => rfl
  | d :: ds => by rw [trees, trees_eq ds, List.map_cons]

theorem Datum.fieldTrees_eq : ∀ ds : List (UInt32 × Datum), Datum.fieldTrees ds = ds.map fun d => d.2.tree
  | [] => rfl
  | (_, d) :: ds => by rw [fieldTrees, fieldTrees_eq ds, List.map_cons]

namespace Store

variable {s : Store} {p : Span} {text : String} {depth : Nat} {v : ValueId} {d : Datum}

theorem bytesAt_of_textAt (h : s.textAt p = .ok text) : s.bytesAt p = .ok (utf8 text) := by
  obtain ⟨bytes, hb, htext⟩ := textAt_eq_ok.mp h
  rwa [utf8?_eq_some htext] at hb

/-- A value that holds a datum denotes its tree. -/
theorem Holds.denotes : ∀ {depth : Nat} {v : ValueId} {d : Datum}, s.Holds depth v d → s.Denotes v d.tree
  | 0, _, _, h => h.elim
  | depth + 1, v, d, ⟨x, hx, h⟩ => by
    cases h with
    | null => exact .node hx .null .nil
    | reserved => exact .node hx .reserved .nil
    | bool b => exact .node hx (.bool b) .nil
    | nat hb => exact .node hx (.nat hb) .nil
    | int hb => exact .node hx (.int hb) .nil
    | fixed n => exact .node hx (.fixed n) .nil
    | text ht => exact .node hx (.text (bytesAt_of_textAt ht)) .nil
    | principal hb => exact .node hx (.principal hb) .nil
    | blob hb => exact .node hx (.blob hb) .nil
    | none => exact .node hx .none .nil
    | some hu => exact .node hx (.some _) (.cons hu.denotes .nil)
    | vec hus =>
      rw [Datum.tree, Datum.trees_eq]
      exact .node hx (.vec _) (List.forall₂_map_right_iff.mpr (hus.imp fun _ _ hu => hu.denotes))
    | record hfs =>
      rw [Datum.tree, Datum.fieldTrees_eq]
      refine .node hx (.record ?_) (List.forall₂_map_left_iff.mpr (List.forall₂_map_right_iff.mpr ?_))
      · rw [← List.forall₂_eq_eq_eq, List.forall₂_map_left_iff, List.forall₂_map_right_iff]
        exact hfs.imp fun _ _ hf => hf.1
      · exact hfs.imp fun _ _ hf => hf.2.denotes
    | variant hid hu => exact .node hx (.variant hid) (.cons hu.denotes .nil)
    | service hb => exact .node hx (.service hb) .nil
    | func hb ht => exact .node hx (.func hb (bytesAt_of_textAt ht)) .nil

end Store

end TypedWire
