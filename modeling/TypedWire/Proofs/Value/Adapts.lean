import TypedWire.Proofs.Schema.Support
import TypedWire.Proofs.Value.Typed

/-! Values that can be adapted to another type, going by the value. A value of a type that fits is one,
    but so are others: the types are only looked at where the value has something of them. What a value
    that can be adapted has of a type that does not fit, it hides. -/

namespace TypedWire.Store

/-! ### What can be adapted -/

/-- What a record has for an expected field: a field of its number that `sub` relates to it, or nothing,
    where it may be missing and the type has none. -/
def Covers (w : Scope) (sub : ValueId → TypeId → TypeId → Prop) (fields : List Field)
    (xs : List FieldValue) (want : Field) : Prop :=
  (∃ f ∈ fields, f.label.id = want.label.id ∧
    ∃ x ∈ xs, x.label.id = want.label.id ∧ sub x.value f.type want.type) ∨
  (w.Optional want.type ∧ ∀ f ∈ fields, f.label.id ≠ want.label.id)

/-- The value `v` is adapted from the one node to the other, if its parts are as `sub` relates them. The
    bytes of a byte string have no values of their own, so they go by the type. -/
inductive Adapting (s : Store) (w : Scope) (sub : ValueId → TypeId → TypeId → Prop) (v : ValueId) :
    TypeNode → TypeNode → Prop where
  | reserved (n : TypeNode) : Adapting s w sub v n (.primitive .reserved)
  | widen : Adapting s w sub v (.primitive .nat) (.primitive .int)
  | primitive (p : Primitive) : Adapting s w sub v (.primitive p) (.primitive p)
  | opt (n : TypeNode) (inner : TypeId) : Adapting s w sub v n (.opt inner)
  | blob {p : Span} {bytes : List UInt8} {e e' r : TypeId} {n : TypeNode} : s.valueAt v = .ok (.blob p) →
      s.bytesAt p = .ok bytes → w.StandsFor e' r n → (bytes ≠ [] → w.Fits .lenient e e') →
      Adapting s w sub v (.vec e) (.vec e')
  | vec {items : List ValueId} {e e' : TypeId} : s.valueAt v = .ok (.vec items) →
      (∀ u ∈ items, sub u e e') → Adapting s w sub v (.vec e) (.vec e')
  | record {xs : List FieldValue} {f1 f2 : List Field} : s.valueAt v = .ok (.record xs) →
      (∀ want ∈ f2, Covers w sub f1 xs want) → Adapting s w sub v (.record f1) (.record f2)
  | variant {index : Nat} {x : FieldValue} {f1 f2 : List Field} {f want : Field} :
      s.valueAt v = .ok (.variant index x) → f ∈ f1 → want ∈ f2 → f.label.id = x.label.id →
      want.label.id = x.label.id → sub x.value f.type want.type →
      Adapting s w sub v (.variant f1) (.variant f2)
  | func (g g' : Signature) : Adapting s w sub v (.func g) (.func g')
  | service (ms ms' : List Method) : Adapting s w sub v (.service ms) (.service ms')

/-- The value `v` can be adapted from the type `t` to the type `t'`. -/
inductive Adapts (s : Store) (w : Scope) : ValueId → TypeId → TypeId → Prop where
  | same {v : ValueId} {t t' r : TypeId} {n : TypeNode} : w.StandsFor t r n → w.StandsFor t' r n →
      Adapts s w v t t'
  | nodes {v : ValueId} {t t' r r' : TypeId} {n n' : TypeNode}
      {sub : ValueId → TypeId → TypeId → Prop} : w.StandsFor t r n → w.StandsFor t' r' n' →
      Adapting s w sub v n n' → (∀ u e e', sub u e e' → Adapts s w u e e') → Adapts s w v t t'

variable {s : Store} {w : Scope} {sub sub' : ValueId → TypeId → TypeId → Prop} {v : ValueId}
variable {t t' r r' e e' : TypeId} {n n' : TypeNode} {p : Primitive} {f1 f2 : List Field} {f want : Field}

theorem Adapting.mono (hsub : ∀ u e e', sub u e e' → sub' u e e') (h : s.Adapting w sub v n n') :
    s.Adapting w sub' v n n' := by
  cases h with
  | reserved => exact .reserved _
  | widen => exact .widen
  | primitive => exact .primitive _
  | opt => exact .opt _ _
  | blob hv hb he' hfit => exact .blob hv hb he' hfit
  | vec hv hitems => exact .vec hv fun u hu => hsub _ _ _ (hitems u hu)
  | record hv hall =>
    refine .record hv fun want hwant => (hall want hwant).imp_left ?_
    rintro ⟨f, hf, hid, x, hx, hxid, h⟩
    exact ⟨f, hf, hid, x, hx, hxid, hsub _ _ _ h⟩
  | variant hv hf hwant hid hwid h => exact .variant hv hf hwant hid hwid (hsub _ _ _ h)
  | func => exact .func _ _
  | service => exact .service _ _

/-! What is asked of a value whose node is known. -/

theorem adapting_blob_iff {span : Span} {bytes : List UInt8} (hv : s.valueAt v = .ok (.blob span))
    (hb : s.bytesAt span = .ok bytes) : s.Adapting w sub v (.vec e) (.vec e') ↔
      (∃ r n, w.StandsFor e' r n) ∧ (bytes ≠ [] → w.Fits .lenient e e') := by
  refine ⟨fun h => ?_, fun ⟨⟨r, n, he'⟩, hfit⟩ => .blob hv hb he' hfit⟩
  cases h with
  | blob hv' hb' he' hfit =>
    obtain rfl : span = _ := by simpa using hv.symm.trans hv'
    obtain rfl : bytes = _ := Except.ok.inj (hb.symm.trans hb')
    exact ⟨⟨_, _, he'⟩, hfit⟩
  | vec hv' => exact absurd (hv.symm.trans hv') (by simp)

theorem adapting_vec_iff {items : List ValueId} (hv : s.valueAt v = .ok (.vec items)) :
    s.Adapting w sub v (.vec e) (.vec e') ↔ ∀ u ∈ items, sub u e e' := by
  refine ⟨fun h => ?_, .vec hv⟩
  cases h with
  | blob hv' => exact absurd (hv.symm.trans hv') (by simp)
  | vec hv' hitems =>
    obtain rfl : items = _ := by simpa using hv.symm.trans hv'
    exact hitems

theorem adapting_record_iff {xs : List FieldValue} (hv : s.valueAt v = .ok (.record xs)) :
    s.Adapting w sub v (.record f1) (.record f2) ↔ ∀ want ∈ f2, Covers w sub f1 xs want := by
  refine ⟨fun h => ?_, .record hv⟩
  cases h with
  | record hv' hall =>
    obtain rfl : xs = _ := by simpa using hv.symm.trans hv'
    exact hall

theorem covers_iff_of_mem {xs : List FieldValue} {x : FieldValue} (hnd : (f1.map (·.label.id)).Nodup)
    (hndx : (xs.map (·.label.id)).Nodup) (hf : f ∈ f1) (hid : f.label.id = want.label.id) (hx : x ∈ xs)
    (hxid : x.label.id = want.label.id) : Covers w sub f1 xs want ↔ sub x.value f.type want.type := by
  refine ⟨?_, fun h => .inl ⟨f, hf, hid, x, hx, hxid, h⟩⟩
  rintro (⟨g, hg, hgid, y, hy, hyid, h⟩ | ⟨-, habsent⟩)
  · obtain rfl := List.inj_on_of_nodup_map hnd hg hf (hgid.trans hid.symm)
    obtain rfl := List.inj_on_of_nodup_map hndx hy hx (hyid.trans hxid.symm)
    exact h
  · exact absurd hid (habsent f hf)

theorem covers_iff_of_absent {xs : List FieldValue} (habsent : ∀ f ∈ f1, f.label.id ≠ want.label.id) :
    Covers w sub f1 xs want ↔ w.Optional want.type := by
  refine ⟨?_, fun hopt => .inr ⟨hopt, habsent⟩⟩
  rintro (⟨f, hf, hid, -⟩ | ⟨hopt, -⟩)
  · exact absurd hid (habsent f hf)
  · exact hopt

theorem adapting_variant_iff {index : Nat} {x : FieldValue} (hv : s.valueAt v = .ok (.variant index x))
    (hnd1 : (f1.map (·.label.id)).Nodup) (hnd2 : (f2.map (·.label.id)).Nodup) (hf : f ∈ f1)
    (hid : f.label.id = x.label.id) (hwant : want ∈ f2) (hwid : want.label.id = x.label.id) :
    s.Adapting w sub v (.variant f1) (.variant f2) ↔ sub x.value f.type want.type := by
  refine ⟨fun h => ?_, .variant hv hf hwant hid hwid⟩
  cases h with
  | variant hv' hg hg2 hgid hgid2 h =>
    obtain ⟨rfl, rfl⟩ : _ ∧ x = _ := by simpa using hv.symm.trans hv'
    obtain rfl := List.inj_on_of_nodup_map hnd1 hg hf (hgid.trans hid.symm)
    obtain rfl := List.inj_on_of_nodup_map hnd2 hg2 hwant (hgid2.trans hwid.symm)
    exact h

theorem Adapting.active {index : Nat} {x : FieldValue} (h : s.Adapting w sub v (.variant f1) (.variant f2))
    (hv : s.valueAt v = .ok (.variant index x)) : ∃ want ∈ f2, want.label.id = x.label.id := by
  cases h with
  | variant hv' _ hwant _ hwid _ =>
    obtain ⟨rfl, rfl⟩ : _ ∧ x = _ := by simpa using hv.symm.trans hv'
    exact ⟨_, hwant, hwid⟩

theorem Adapts.standsFor (h : s.Adapts w v t t') : ∃ r n, w.StandsFor t' r n := by
  cases h with
  | same _ h' => exact ⟨_, _, h'⟩
  | nodes _ h' => exact ⟨_, _, h'⟩

/-- Types that stand for different nodes are adapted by their nodes. -/
theorem adapts_iff (h : w.StandsFor t r n) (h' : w.StandsFor t' r' n') (hne : r ≠ r') :
    s.Adapts w v t t' ↔ s.Adapting w (s.Adapts w) v n n' := by
  refine ⟨fun hadapts => ?_, fun hnodes => .nodes h h' hnodes fun _ _ _ => id⟩
  cases hadapts with
  | same h1 h1' => exact absurd ((h.root_eq h1).trans (h'.root_eq h1').symm) hne
  | nodes h1 h1' hnodes hsub =>
    obtain rfl := h.node_eq h1
    obtain rfl := h'.node_eq h1'
    exact hnodes.mono hsub

theorem fits_of_same (h : w.StandsFor t r n) (h' : w.StandsFor t' r n) : w.Fits .lenient t t' :=
  .of_justified ⟨r, n, r, n, h, h', Subtype.rule_refl (fun _ => ⟨Eq, fun _ _ => .inl, rfl⟩) h⟩

/-- A byte has no parts, so it goes by its type. -/
theorem adapts_byte_iff (h : w.StandsFor t r (.primitive (.fixed .nat8))) :
    s.Adapts w v t t' ↔ w.Fits .lenient t t' := by
  constructor
  · intro hadapts
    cases hadapts with
    | same h1 h1' => exact fits_of_same h1 h1'
    | nodes h1 h1' hnodes _ =>
      obtain rfl := h.node_eq h1
      refine .of_justified ⟨_, _, _, _, h1, h1', ?_⟩
      cases hnodes with
      | reserved => exact .reserved _
      | primitive => exact .primitive _
      | opt => exact .special rfl
  · intro hfit
    rcases hfit.unfold with rfl | ⟨r1, n1, r2, n2, h1, h2, hrule⟩
    · exact .same h h
    · obtain rfl := h.node_eq h1
      have hnodes : s.Adapting w (s.Adapts w) v (.primitive (.fixed .nat8)) n2 := by
        cases hrule with
        | reserved => exact .reserved _
        | primitive => exact .primitive _
        | lift | special => exact .opt _ _
      exact .nodes h1 h2 hnodes fun _ _ _ => id

/-! ### What is hidden -/

/-- The value `v` of type `t` has a place where `t` does not fit `t'` and which does not show it: a list
    without items, a variant whose active field is another, or a reference, whose type is not looked
    into. -/
inductive Hides (s : Store) (w : Scope) : ValueId → TypeId → TypeId → Prop where
  | noItems {v : ValueId} {t t' r r' e e' : TypeId} : w.StandsFor t r (.vec e) →
      w.StandsFor t' r' (.vec e') → s.valueAt v = .ok (.vec []) → ¬ w.Fits .lenient e e' → Hides s w v t t'
  | noBytes {v : ValueId} {t t' r r' e e' : TypeId} {p : Span} : w.StandsFor t r (.vec e) →
      w.StandsFor t' r' (.vec e') → s.valueAt v = .ok (.blob p) → s.bytesAt p = .ok [] →
      ¬ w.Fits .lenient e e' → Hides s w v t t'
  | inactive {v : ValueId} {t t' r r' : TypeId} {fields fields' : List Field} {index : Nat}
      {x : FieldValue} {f : Field} : w.StandsFor t r (.variant fields) →
      w.StandsFor t' r' (.variant fields') → s.valueAt v = .ok (.variant index x) → f ∈ fields →
      f.label.id ≠ x.label.id →
      (∀ want ∈ fields', want.label.id = f.label.id → ¬ w.Fits .lenient f.type want.type) → Hides s w v t t'
  | func {v : ValueId} {t t' r r' : TypeId} {g g' : Signature} : w.StandsFor t r (.func g) →
      w.StandsFor t' r' (.func g') → ¬ w.Fits .lenient t t' → Hides s w v t t'
  | service {v : ValueId} {t t' r r' : TypeId} {ms ms' : List Method} : w.StandsFor t r (.service ms) →
      w.StandsFor t' r' (.service ms') → ¬ w.Fits .lenient t t' → Hides s w v t t'
  | item {v u : ValueId} {t t' r r' e e' : TypeId} {items : List ValueId} : w.StandsFor t r (.vec e) →
      w.StandsFor t' r' (.vec e') → s.valueAt v = .ok (.vec items) → u ∈ items → Hides s w u e e' →
      Hides s w v t t'
  | field {v : ValueId} {t t' r r' : TypeId} {fields fields' : List Field} {xs : List FieldValue}
      {x : FieldValue} {f want : Field} : w.StandsFor t r (.record fields) →
      w.StandsFor t' r' (.record fields') → s.valueAt v = .ok (.record xs) → x ∈ xs → f ∈ fields →
      want ∈ fields' → x.label.id = want.label.id → f.label.id = want.label.id →
      Hides s w x.value f.type want.type → Hides s w v t t'
  | active {v : ValueId} {t t' r r' : TypeId} {fields fields' : List Field} {index : Nat}
      {x : FieldValue} {f want : Field} : w.StandsFor t r (.variant fields) →
      w.StandsFor t' r' (.variant fields') → s.valueAt v = .ok (.variant index x) → f ∈ fields →
      want ∈ fields' → f.label.id = x.label.id → want.label.id = x.label.id →
      Hides s w x.value f.type want.type → Hides s w v t t'

/-- What has no parts hides nothing. -/
theorem Hides.not_primitive (h : s.Hides w v t t') (ht : w.StandsFor t r (.primitive p)) : False := by
  cases h with
  | noItems h1 | noBytes h1 | inactive h1 | func h1 | service h1 | item h1 | field h1 | active h1 =>
    exact absurd (ht.node_eq h1) (by simp)

/-- A list hides what its items do, or is empty. -/
theorem Hides.list {e e' r' : TypeId} {items : List ValueId} (h : s.Hides w v t t')
    (ht : w.StandsFor t r (.vec e)) (ht' : w.StandsFor t' r' (.vec e'))
    (hv : s.valueAt v = .ok (.vec items)) : items = [] ∨ ∃ u ∈ items, s.Hides w u e e' := by
  cases h with
  | noItems _ _ hv' => exact .inl (by simpa using hv.symm.trans hv')
  | noBytes _ _ hv' => exact absurd (hv.symm.trans hv') (by simp)
  | item h1 h2 hv' hu hhides =>
    obtain rfl : items = _ := by simpa using hv.symm.trans hv'
    obtain rfl : e = _ := by simpa using ht.node_eq h1
    obtain rfl : e' = _ := by simpa using ht'.node_eq h2
    exact .inr ⟨_, hu, hhides⟩
  | inactive h1 | func h1 | service h1 | field h1 | active h1 => exact absurd (ht.node_eq h1) (by simp)

/-- A value that can be adapted to a type that its own does not fit hides that. -/
theorem Adapts.hides (h : s.Adapts w v t t') (hd : w.Distinct t) :
    w.Fits .lenient t t' ∨ s.Hides w v t t' := by
  induction h with
  | same h h' => exact .inl (fits_of_same h h')
  | @nodes v t t' r r' n n' sub h1 h2 hnodes _ ih =>
    have hfits : w.Rule .lenient (w.Fits .lenient) r n n' → w.Fits .lenient t t' := fun hrule =>
      .of_justified ⟨r, n, r', n', h1, h2, hrule⟩
    cases hnodes with
    | reserved => exact .inl (hfits (.reserved _))
    | widen => exact .inl (hfits .widen)
    | primitive => exact .inl (hfits (.primitive _))
    | opt => exact .inl (hfits (.special rfl))
    | @blob p bytes e e' _ _ hv hb _ hbytes =>
      by_cases hfit : w.Fits .lenient e e'
      · exact .inl (hfits (.vec hfit))
      · obtain rfl : bytes = [] := not_imp_comm.mp hbytes hfit
        exact .inr (.noBytes h1 h2 hv hb hfit)
    | @vec items e e' hv hitems =>
      cases items with
      | nil => exact (Classical.em _).imp (fun hfit => hfits (.vec hfit)) (.noItems h1 h2 hv)
      | cons u us =>
        have hitem := ih u e e' (hitems u List.mem_cons_self) (hd.part h1 List.mem_cons_self)
        exact hitem.imp (fun hfit => hfits (.vec hfit)) (.item h1 h2 hv List.mem_cons_self)
    | @record xs f1 f2 hv hall =>
      by_cases hhides : s.Hides w v t t'
      · exact .inr hhides
      · refine .inl (hfits (.record fun want hwant => (hall want hwant).imp_left ?_))
        rintro ⟨f, hf, hid, x, hx, hxid, hadapts⟩
        have hfield := ih x.value f.type want.type hadapts (hd.part h1 (List.mem_map_of_mem hf))
        exact ⟨f, hf, hid, hfield.resolve_right fun hfield =>
          hhides (.field h1 h2 hv hx hf hwant hxid hid hfield)⟩
    | @variant index x f1 f2 f want hv hf hwant hid hwid hadapts =>
      rcases ih x.value f.type want.type hadapts (hd.part h1 (List.mem_map_of_mem hf)) with hfit | hhides
      · by_cases hall : ∀ g ∈ f1, ∃ want ∈ f2, want.label.id = g.label.id ∧
            w.Fits .lenient g.type want.type
        · exact .inl (hfits (.variant hall))
        · -- A field that does not fit is not the active one, which does.
          push Not at hall
          obtain ⟨g, hg, hunfit⟩ := hall
          refine .inr (.inactive h1 h2 hv hg (fun hgid => ?_) hunfit)
          obtain rfl := List.inj_on_of_nodup_map (hd.node h1) hg hf (hgid.trans hid.symm)
          exact hunfit want hwant (hwid.trans hgid.symm) hfit
      · exact .inr (.active h1 h2 hv hf hwant hid hwid hhides)
    | func => exact (Classical.em _).imp_right (.func h1 h2)
    | service => exact (Classical.em _).imp_right (.service h1 h2)

end TypedWire.Store
