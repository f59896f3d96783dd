import TypedWire.Proofs.Schema.Growing

/-! Stored values that are of a type: the nodes of the value and of the type are compared one by one,
    with the labels of fields and the places of variants. As with types, a number bounds how deep the
    value nests. -/

namespace TypedWire

/-- What is asked of the nodes of a value, beyond what makes them of their type. -/
structure Form where
  /-- The label of a field is the one that the type has, not only a label of the same number. -/
  named : Bool
  /-- The items of a `vec nat8`, and of no other `vec`, are a byte string. -/
  packed : Bool

namespace Form

/-- The form of a value that has been decoded. -/
def decoded : Form := ⟨true, true⟩

/-- The form of a value that has been reshaped: a `vec nat8` may have been made item by item. -/
def reshaped : Form := ⟨true, false⟩

variable {form form' : Form} {a b : Label}

/-- The first label may stand where the type has the second. -/
def SameLabel (form : Form) (a b : Label) : Prop := if form.named then a = b else a.id = b.id

/-- Whatever has the first form has the second. -/
structure Implies (form form' : Form) : Prop where
  named : form'.named = true → form.named = true
  packed : form'.packed = true → form.packed = true

theorem Implies.refl (form : Form) : form.Implies form := ⟨id, id⟩

theorem decoded_implies : decoded.Implies reshaped := ⟨id, by simp [reshaped]⟩

theorem sameLabel_refl (form : Form) (a : Label) : form.SameLabel a a := by
  unfold SameLabel
  split <;> rfl

theorem SameLabel.id_eq (h : form.SameLabel a b) : a.id = b.id := by
  unfold SameLabel at h
  split at h
  · rw [h]
  · exact h

/-- Fields that are labelled as their types have it have the numbers of their types. -/
theorem sameLabel_ids {P : Field → FieldValue → Prop} {fields : List Field} {xs : List FieldValue}
    (h : List.Forall₂ (fun f x => form.SameLabel x.label f.label ∧ P f x) fields xs) :
    fields.map (·.label.id) = xs.map (·.label.id) := by
  rw [← List.forall₂_eq_eq_eq, List.forall₂_map_left_iff, List.forall₂_map_right_iff]
  exact h.imp fun _ _ hfx => hfx.1.id_eq.symm

theorem SameLabel.implied (h : form.SameLabel a b) (hform : form.Implies form') :
    form'.SameLabel a b := by
  unfold SameLabel
  split
  · next hnamed => simpa only [SameLabel, hform.named hnamed, if_true] using h
  · exact h.id_eq

end Form

namespace Store

/-- The value node is as the type node demands, if its parts are of the types that `sub` relates them
    to. -/
inductive Fills (s : Store) (w : Scope) (form : Form) (sub : ValueId → TypeId → Prop) :
    Value → TypeNode → Prop where
  | null : Fills s w form sub .null (.primitive .null)
  | reserved : Fills s w form sub .reserved (.primitive .reserved)
  | bool (b : Bool) : Fills s w form sub (.bool b) (.primitive .bool)
  | nat {p : Span} {bytes : List UInt8} : s.bytesAt p = .ok bytes → Leb128.IsNumber bytes →
      Fills s w form sub (.nat p) (.primitive .nat)
  | int {p : Span} {bytes : List UInt8} : s.bytesAt p = .ok bytes → Leb128.IsNumber bytes →
      Fills s w form sub (.int p) (.primitive .int)
  | fixed (n : FixedNumber) : Fills s w form sub (.fixed n) (.primitive (.fixed n.kind))
  | text {p : Span} {text : String} : s.textAt p = .ok text →
      Fills s w form sub (.text p) (.primitive .text)
  | principal {p : Span} {bytes : List UInt8} : s.bytesAt p = .ok bytes →
      bytes.length ≤ maxPrincipal → Fills s w form sub (.principal p) (.primitive .principal)
  | blob {p : Span} {bytes : List UInt8} {e r : TypeId} : s.bytesAt p = .ok bytes →
      w.StandsFor e r (.primitive (.fixed .nat8)) → Fills s w form sub (.blob p) (.vec e)
  | none (inner : TypeId) : Fills s w form sub (.opt .none) (.opt inner)
  | some {v : ValueId} {inner : TypeId} : sub v inner → Fills s w form sub (.opt (.some v)) (.opt inner)
  | vec {items : List ValueId} {e : TypeId} :
      (form.packed = true → ∃ r n, w.StandsFor e r n ∧ n ≠ .primitive (.fixed .nat8)) →
      (∀ v ∈ items, sub v e) → Fills s w form sub (.vec items) (.vec e)
  | record {xs : List FieldValue} {fields : List Field} :
      List.Forall₂ (fun f x => form.SameLabel x.label f.label ∧ sub x.value f.type) fields xs →
      Fills s w form sub (.record xs) (.record fields)
  | variant {fields : List Field} {index : Nat} {f : Field} {x : FieldValue} :
      fields[index]? = Option.some f → form.SameLabel x.label f.label → sub x.value f.type →
      Fills s w form sub (.variant index x) (.variant fields)
  | service {p : Span} {bytes : List UInt8} {methods : List Method} : s.bytesAt p = .ok bytes →
      bytes.length ≤ maxPrincipal → Fills s w form sub (.service p) (.service methods)
  | func {p q : Span} {bytes : List UInt8} {text : String} {signature : Signature} :
      s.bytesAt p = .ok bytes → bytes.length ≤ maxPrincipal → s.textAt q = .ok text →
      Fills s w form sub (.func p q) (.func signature)

/-- The stored value `v` is of type `t` in the scope, and nests at most `depth` deep. -/
def OfType (s : Store) (w : Scope) (form : Form) : (depth : Nat) → ValueId → TypeId → Prop
  | 0, _, _ => False
  | depth + 1, v, t => ∃ r n, w.StandsFor t r n ∧
      ∃ x, s.valueAt v = .ok x ∧ s.Fills w form (s.OfType w form depth) x n

/-- The stored value `v` is as the type node demands, and its parts nest at most `depth` deep. -/
def OfNode (s : Store) (w : Scope) (form : Form) (depth : Nat) (v : ValueId) (n : TypeNode) : Prop :=
  ∃ x, s.valueAt v = .ok x ∧ s.Fills w form (s.OfType w form depth) x n

/-- The stored value `v` is of type `t`. -/
def WellTyped (s : Store) (env : Env) (form : Form) (v : ValueId) (t : TypeId) : Prop :=
  ∃ depth, s.OfType ⟨s, env⟩ form depth v t

variable {s s' : Store} {w w' : Scope} {form form' : Form} {sub sub' : ValueId → TypeId → Prop}
variable {x : Value} {n n' : TypeNode} {v : ValueId} {t r : TypeId} {depth depth' : Nat}

theorem Fills.mono (h : s.Fills w form sub x n) (hs : s.Extends s')
    (hw : ∀ t r n, w.StandsFor t r n → w'.StandsFor t r n) (hform : form.Implies form')
    (hsub : ∀ v t, sub v t → sub' v t) : s'.Fills w' form' sub' x n := by
  cases h with
  | null => exact .null
  | reserved => exact .reserved
  | bool b => exact .bool b
  | nat hb hnum => exact .nat (hs.bytesAt _ _ hb) hnum
  | int hb hnum => exact .int (hs.bytesAt _ _ hb) hnum
  | fixed n => exact .fixed n
  | text ht => exact .text (hs.textAt ht)
  | principal hb hle => exact .principal (hs.bytesAt _ _ hb) hle
  | blob hb hbyte => exact .blob (hs.bytesAt _ _ hb) (hw _ _ _ hbyte)
  | none inner => exact .none inner
  | some h => exact .some (hsub _ _ h)
  | vec hbyte h =>
    refine .vec (fun hpacked => ?_) fun v hv => hsub _ _ (h v hv)
    obtain ⟨r, n, hn, hne⟩ := hbyte (hform.packed hpacked)
    exact ⟨r, n, hw _ _ _ hn, hne⟩
  | record h => exact .record (h.imp fun _ _ hfx => ⟨hfx.1.implied hform, hsub _ _ hfx.2⟩)
  | variant hf hlabel h => exact .variant hf (hlabel.implied hform) (hsub _ _ h)
  | service hb hle => exact .service (hs.bytesAt _ _ hb) hle
  | func hb hle ht => exact .func (hs.bytesAt _ _ hb) hle (hs.textAt ht)

theorem OfType.mono (hs : s.Extends s') (hw : ∀ t r n, w.StandsFor t r n → w'.StandsFor t r n)
    (hform : form.Implies form') : ∀ {depth : Nat} {v : ValueId} {t : TypeId},
    s.OfType w form depth v t → s'.OfType w' form' depth v t
  | 0, _, _, h => h
  | _ + 1, v, _, ⟨r, n, ht, x, hx, h⟩ =>
    ⟨r, n, hw _ _ _ ht, x, hs.valueAt v x hx, h.mono hs hw hform fun _ _ => OfType.mono hs hw hform⟩

theorem OfType.extends (h : s.OfType w form depth v t) (hs : s.Extends s') :
    s'.OfType w form depth v t :=
  h.mono hs (fun _ _ _ => id) (.refl form)

theorem OfType.succ : ∀ {depth : Nat} {v : ValueId} {t : TypeId},
    s.OfType w form depth v t → s.OfType w form (depth + 1) v t
  | 0, _, _, h => h.elim
  | _ + 1, _, _, ⟨r, n, ht, x, hx, h⟩ =>
    ⟨r, n, ht, x, hx, h.mono (.refl s) (fun _ _ _ => id) (.refl form) fun _ _ => OfType.succ⟩

theorem OfNode.ofType (h : s.OfNode w form depth v n) (ht : w.StandsFor t r n) :
    s.OfType w form (depth + 1) v t :=
  ⟨r, n, ht, h⟩

theorem OfType.ofNode (h : s.OfType w form (depth + 1) v t) (ht : w.StandsFor t r n) :
    s.OfNode w form depth v n := by
  obtain ⟨_, m, ht', hnode⟩ := h
  obtain rfl := ht.node_eq ht'
  exact hnode

/-- A value of a type keeps it as long as the scope and the store only grow. -/
theorem WellTyped.extends {env env' : Env} (h : s.WellTyped env form v t) (hs : s.Extends s')
    (hw : Scope.Extends ⟨s, env⟩ ⟨s', env'⟩) (hform : form.Implies form') :
    s'.WellTyped env' form' v t := by
  obtain ⟨depth, h⟩ := h
  exact ⟨depth, h.mono hs (fun _ _ _ ht => ht.extends hw) hform⟩

/-! ### Lists of what is allowed -/

variable {lists lists' : List ValueId → TypeId → Prop}

/-- The stored value `v` is of type `t`, nests at most `depth` deep, and has no `vec` in it but with items
    that `lists` allows for their type. -/
def OfTypeWith (s : Store) (w : Scope) (form : Form) (lists : List ValueId → TypeId → Prop) :
    (depth : Nat) → ValueId → TypeId → Prop
  | 0, _, _ => False
  | depth + 1, v, t => ∃ r n, w.StandsFor t r n ∧ ∃ x, s.valueAt v = .ok x ∧
      s.Fills w form (s.OfTypeWith w form lists depth) x n ∧
      ∀ items e, x = .vec items → n = .vec e → lists items e

/-- The stored value `v` is as the type node demands, its parts nest at most `depth` deep, and there is no
    `vec` in it but with items that `lists` allows for their type. -/
def OfNodeWith (s : Store) (w : Scope) (form : Form) (lists : List ValueId → TypeId → Prop) (depth : Nat)
    (v : ValueId) (n : TypeNode) : Prop :=
  ∃ x, s.valueAt v = .ok x ∧ s.Fills w form (s.OfTypeWith w form lists depth) x n ∧
    ∀ items e, x = .vec items → n = .vec e → lists items e

theorem OfTypeWith.mono (hs : s.Extends s') (hw : ∀ t r n, w.StandsFor t r n → w'.StandsFor t r n)
    (hlists : ∀ items e, lists items e → lists' items e) : ∀ {depth depth' : Nat} {v : ValueId}
    {t : TypeId}, depth ≤ depth' → s.OfTypeWith w form lists depth v t →
      s'.OfTypeWith w' form lists' depth' v t
  | 0, _, _, _, _, h => h.elim
  | _ + 1, 0, _, _, hle, _ => absurd hle (by omega)
  | _ + 1, _ + 1, v, _, hle, ⟨r, n, ht, x, hx, h, hvec⟩ =>
    ⟨r, n, hw _ _ _ ht, x, hs.valueAt v x hx,
      h.mono hs hw (.refl form) fun _ _ => OfTypeWith.mono hs hw hlists (by omega),
      fun items e hitems he => hlists _ _ (hvec items e hitems he)⟩

theorem OfTypeWith.extends (h : s.OfTypeWith w form lists depth v t) (hs : s.Extends s') :
    s'.OfTypeWith w form lists depth v t :=
  h.mono hs (fun _ _ _ => id) (fun _ _ => id) (Nat.le_refl _)

theorem OfTypeWith.le (hle : depth ≤ depth') (h : s.OfTypeWith w form lists depth v t) :
    s.OfTypeWith w form lists depth' v t :=
  h.mono (.refl s) (fun _ _ _ => id) (fun _ _ => id) hle

theorem OfNodeWith.ofType (h : s.OfNodeWith w form lists depth v n) (ht : w.StandsFor t r n) :
    s.OfTypeWith w form lists (depth + 1) v t :=
  ⟨r, n, ht, h⟩

theorem OfTypeWith.ofNode (h : s.OfTypeWith w form lists (depth + 1) v t) (ht : w.StandsFor t r n) :
    s.OfNodeWith w form lists depth v n := by
  obtain ⟨_, m, ht', hnode⟩ := h
  obtain rfl := ht.node_eq ht'
  exact hnode

theorem OfNodeWith.le (hle : depth ≤ depth') (h : s.OfNodeWith w form lists depth v n) :
    s.OfNodeWith w form lists depth' v n := by
  obtain ⟨x, hx, h, hvec⟩ := h
  exact ⟨x, hx, h.mono (.refl s) (fun _ _ _ => id) (.refl form) fun _ _ => OfTypeWith.le hle, hvec⟩

/-- What is allowed for a value of a type that fills its node is allowed for all of it. -/
theorem OfType.with (hlists : ∀ sub items e, s.Fills w form sub (.vec items) (.vec e) → lists items e)
    (hform : form.Implies form') : ∀ {depth : Nat} {v : ValueId} {t : TypeId},
      s.OfType w form depth v t → s.OfTypeWith w form' lists depth v t
  | 0, _, _, h => h.elim
  | _ + 1, _, _, ⟨r, n, ht, x, hx, h⟩ => by
    refine ⟨r, n, ht, x, hx,
      h.mono (.refl s) (fun _ _ _ => id) hform fun _ _ => OfType.with hlists hform, ?_⟩
    rintro items e rfl rfl
    exact hlists _ items e h

theorem OfTypeWith.without : ∀ {depth : Nat} {v : ValueId} {t : TypeId},
    s.OfTypeWith w form lists depth v t → s.OfType w form depth v t
  | 0, _, _, h => h.elim
  | _ + 1, _, _, ⟨r, n, ht, x, hx, h, _⟩ =>
    ⟨r, n, ht, x, hx, h.mono (.refl s) (fun _ _ _ => id) (.refl form) fun _ _ => OfTypeWith.without⟩

end Store

end TypedWire
