import TypedWire.Proofs.Value.Typed

/-! What a reshaped value has kept of the value that it was made from. The two are compared place by
    place: where an `opt` is expected there is content wherever there was something to put there, and
    what is left out is only what the type that was read does not have. -/

namespace TypedWire

/-- What stands for a field that is not there, where its type lets it be missing. -/
def TypeNode.blank? : TypeNode → Option Value
  | .opt _ => some (.opt none)
  | .primitive .null => some .null
  | .primitive .reserved => some .reserved
  | _ => none

namespace Store

/-- The value `v` is what stands for a missing field of type `t`. -/
def Blank (s : Store) (w : Scope) (t : TypeId) (v : ValueId) : Prop :=
  ∃ r n x, w.StandsFor t r n ∧ n.blank? = some x ∧ s.valueAt v = .ok x

/-- A field `y` of the type `want` that a record has after reshaping: what became of the field of the
    same number, or a blank if the type that was read has no field of that number. -/
def Supplied (s : Store) (w : Scope) (sub : ValueId → TypeId → ValueId → TypeId → Prop)
    (f1 : List Field) (xs : List FieldValue) (want : Field) (y : FieldValue) : Prop :=
  y.label = want.label ∧
    ((∃ have1 ∈ f1, ∃ x ∈ xs, have1.label.id = want.label.id ∧ x.label.id = want.label.id ∧
        sub x.value have1.type y.value want.type) ∨
      ((∀ have1 ∈ f1, have1.label.id ≠ want.label.id) ∧ s.Blank w want.type y.value))

/-- The node `x` of the value `v`, whose type lies at `r`, is carried over to the node `y`. The nodes of
    the two types are given, and the parts are as `sub` relates them. -/
inductive Carries (s : Store) (w : Scope) (sub : ValueId → TypeId → ValueId → TypeId → Prop)
    (v : ValueId) (r : TypeId) : TypeNode → Value → TypeNode → Value → Prop where
  | reserved (n1 : TypeNode) (x : Value) : Carries s w sub v r n1 x (.primitive .reserved) .reserved
  | widen {p q : Span} {bytes wide : List UInt8} : s.bytesAt p = .ok bytes →
      Leb128.widen bytes = .ok wide → s.bytesAt q = .ok wide →
      Carries s w sub v r (.primitive .nat) (.nat p) (.primitive .int) (.int q)
  | primitive (p : Primitive) (x : Value) : Carries s w sub v r (.primitive p) x (.primitive p) x
  | null (inner : TypeId) : Carries s w sub v r (.primitive .null) .null (.opt inner) (.opt none)
  | none (inner1 inner : TypeId) :
      Carries s w sub v r (.opt inner1) (.opt none) (.opt inner) (.opt none)
  | some {u u' : ValueId} {inner1 inner : TypeId} : sub u inner1 u' inner →
      Carries s w sub v r (.opt inner1) (.opt (some u)) (.opt inner) (.opt (some u'))
  | lift {n1 : TypeNode} {x : Value} {u' : ValueId} {inner : TypeId} : n1 ≠ .primitive .null →
      (∀ inner1, n1 ≠ .opt inner1) → sub v r u' inner →
      Carries s w sub v r n1 x (.opt inner) (.opt (some u'))
  | blob {e1 e2 : TypeId} (p : Span) : Carries s w sub v r (.vec e1) (.blob p) (.vec e2) (.blob p)
  | bytes {e1 e2 : TypeId} {p : Span} {bytes : List UInt8} {items : List ValueId} :
      s.bytesAt p = .ok bytes →
      List.Forall₂ (fun b u' => ∃ u, s.valueAt u = .ok (.fixed (.ofByte b)) ∧ sub u e1 u' e2)
        bytes items →
      Carries s w sub v r (.vec e1) (.blob p) (.vec e2) (.vec items)
  | vec {e1 e2 : TypeId} {us items : List ValueId} :
      List.Forall₂ (fun u u' => sub u e1 u' e2) us items →
      Carries s w sub v r (.vec e1) (.vec us) (.vec e2) (.vec items)
  | record {f1 f2 : List Field} {xs ys : List FieldValue} :
      List.Forall₂ (s.Supplied w sub f1 xs) f2 ys →
      Carries s w sub v r (.record f1) (.record xs) (.record f2) (.record ys)
  | variant {f1 f2 : List Field} {have1 want : Field} {i j : Nat} {x y : FieldValue} :
      f1[i]? = Option.some have1 → f2[j]? = Option.some want → have1.label.id = want.label.id →
      y.label = want.label → sub x.value have1.type y.value want.type →
      Carries s w sub v r (.variant f1) (.variant i x) (.variant f2) (.variant j y)
  | func (g1 g2 : Signature) (x : Value) : Carries s w sub v r (.func g1) x (.func g2) x
  | service (m1 m2 : List Method) (x : Value) : Carries s w sub v r (.service m1) x (.service m2) x

/-- The value `v'` of type `t'` has kept all of the value `v` of type `t`, with at most `depth` steps
    one inside the other: it is the value itself where the types are the same, and else its node carries
    the other's. -/
def Keeps (s : Store) (w : Scope) :
    (depth : Nat) → ValueId → TypeId → (v' : ValueId) → (t' : TypeId) → Prop
  | 0, _, _, _, _ => False
  | depth + 1, v, t, v', t' => ∃ r n r' n', w.StandsFor t r n ∧ w.StandsFor t' r' n' ∧
      ((r = r' ∧ v = v') ∨ ∃ x x', s.valueAt v = .ok x ∧ s.valueAt v' = .ok x' ∧
        s.Carries w (s.Keeps w depth) v r n x n' x')

variable {s s' : Store} {w w' : Scope} {sub sub' : ValueId → TypeId → ValueId → TypeId → Prop}
variable {v v' u : ValueId} {t t' r r' i : TypeId} {n n' : TypeNode} {x x' : Value} {depth : Nat}

theorem Blank.mono (h : s.Blank w t v) (hs : s.Extends s')
    (hw : ∀ t r n, w.StandsFor t r n → w'.StandsFor t r n) : s'.Blank w' t v := by
  obtain ⟨r, n, x, hn, hx, hv⟩ := h
  exact ⟨r, n, x, hw _ _ _ hn, hx, hs.valueAt v x hv⟩

theorem Supplied.mono {f1 : List Field} {xs : List FieldValue} {want : Field} {y : FieldValue}
    (h : s.Supplied w sub f1 xs want y) (hs : s.Extends s')
    (hw : ∀ t r n, w.StandsFor t r n → w'.StandsFor t r n)
    (hsub : ∀ v t v' t', sub v t v' t' → sub' v t v' t') : s'.Supplied w' sub' f1 xs want y := by
  obtain ⟨hlabel, ⟨have1, hm, x, hx, hid, hxid, hkept⟩ | ⟨habsent, hblank⟩⟩ := h
  · exact ⟨hlabel, .inl ⟨have1, hm, x, hx, hid, hxid, hsub _ _ _ _ hkept⟩⟩
  · exact ⟨hlabel, .inr ⟨habsent, hblank.mono hs hw⟩⟩

theorem Carries.mono (h : s.Carries w sub v r n x n' x') (hs : s.Extends s')
    (hw : ∀ t r n, w.StandsFor t r n → w'.StandsFor t r n)
    (hsub : ∀ v t v' t', sub v t v' t' → sub' v t v' t') : s'.Carries w' sub' v r n x n' x' := by
  cases h with
  | reserved => exact .reserved _ _
  | widen hp hwide hq => exact .widen (hs.bytesAt _ _ hp) hwide (hs.bytesAt _ _ hq)
  | primitive p => exact .primitive p _
  | null inner => exact .null inner
  | none => exact .none _ _
  | some h => exact .some (hsub _ _ _ _ h)
  | lift hnull hopt h => exact .lift hnull hopt (hsub _ _ _ _ h)
  | blob p => exact .blob p
  | bytes hb h =>
    refine .bytes (hs.bytesAt _ _ hb) (h.imp fun b u' => ?_)
    rintro ⟨u, hu, hkept⟩
    exact ⟨u, hs.valueAt _ _ hu, hsub _ _ _ _ hkept⟩
  | vec h => exact .vec (h.imp fun _ _ => hsub _ _ _ _)
  | record h => exact .record (h.imp fun _ _ h => h.mono hs hw hsub)
  | variant hi hj hid hlabel h => exact .variant hi hj hid hlabel (hsub _ _ _ _ h)
  | func => exact .func _ _ _
  | service => exact .service _ _ _

theorem Keeps.mono (hs : s.Extends s') (hw : ∀ t r n, w.StandsFor t r n → w'.StandsFor t r n) :
    ∀ {depth : Nat} {v : ValueId} {t : TypeId} {v' : ValueId} {t' : TypeId},
    s.Keeps w depth v t v' t' → s'.Keeps w' depth v t v' t'
  | 0, _, _, _, _, h => h
  | _ + 1, _, _, _, _, ⟨r, n, r', n', ht, ht', h⟩ => by
    refine ⟨r, n, r', n', hw _ _ _ ht, hw _ _ _ ht', ?_⟩
    rcases h with hsame | ⟨x, x', hx, hx', h⟩
    · exact .inl hsame
    · exact .inr ⟨x, x', hs.valueAt _ _ hx, hs.valueAt _ _ hx',
        h.mono hs hw fun _ _ _ _ => Keeps.mono hs hw⟩

theorem Keeps.extends (h : s.Keeps w depth v t v' t') (hs : s.Extends s') :
    s'.Keeps w depth v t v' t' :=
  h.mono hs fun _ _ _ => id

/-! ### Where an opt is expected -/

/-- Where an `opt` is expected, content is kept, and what may not be missing becomes content. -/
theorem Keeps.content (h : s.Keeps w depth v t v' t') (ht' : w.StandsFor t' r' (.opt i))
    (hcontent : s.valueAt v = .ok (.opt (some u)) ∨
      ∃ r n, w.StandsFor t r n ∧ n ≠ .primitive .null ∧ ∀ inner, n ≠ .opt inner) :
    ∃ u', s.valueAt v' = .ok (.opt (some u')) := by
  cases depth with
  | zero => exact h.elim
  | succ depth =>
    obtain ⟨r, n, r'', n', ht, ht'', hkept⟩ := h
    obtain rfl := ht'.node_eq ht''
    rcases hkept with ⟨rfl, rfl⟩ | ⟨x, x', hx, hx', hcarries⟩
    · -- The value is the same, and its type is an `opt`.
      obtain rfl := ht.root.node_eq ht''.root
      rcases hcontent with hv | ⟨r1, n1, ht1, -, hopt⟩
      · exact ⟨u, hv⟩
      · exact absurd (ht.node_eq ht1).symm (hopt i)
    · cases hcarries with
      | null =>
        rcases hcontent with hv | ⟨r1, n1, ht1, hnull, -⟩
        · exact absurd (hx.symm.trans hv) (by simp)
        · exact absurd (ht1.node_eq ht) hnull
      | none inner1 =>
        rcases hcontent with hv | ⟨r1, n1, ht1, -, hopt⟩
        · exact absurd (hx.symm.trans hv) (by simp)
        · exact absurd (ht1.node_eq ht) (hopt inner1)
      | some => exact ⟨_, hx'⟩
      | lift => exact ⟨_, hx'⟩

/-- Where an `opt` is expected, it is left empty only where it was, or for `null`. -/
theorem Keeps.empty (h : s.Keeps w depth v t v' t') (ht' : w.StandsFor t' r' (.opt i))
    (hnone : s.valueAt v' = .ok (.opt none)) :
    s.valueAt v = .ok (.opt none) ∨ s.valueAt v = .ok .null := by
  cases depth with
  | zero => exact h.elim
  | succ depth =>
    obtain ⟨r, n, r'', n', ht, ht'', hkept⟩ := h
    obtain rfl := ht'.node_eq ht''
    rcases hkept with ⟨-, rfl⟩ | ⟨x, x', hx, hx', hcarries⟩
    · exact .inl hnone
    · cases hcarries with
      | null => exact .inr hx
      | none => exact .inl hx
      | some => exact absurd (hx'.symm.trans hnone) (by simp)
      | lift => exact absurd (hx'.symm.trans hnone) (by simp)

end Store

end TypedWire
