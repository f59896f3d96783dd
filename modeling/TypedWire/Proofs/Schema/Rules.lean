import Mathlib.Data.List.Forall2
import TypedWire.Message.TypeTable
import TypedWire.Proofs.Schema.Scope

/-! When a type fits another, said without the check that decides it. Two types fit by rules on the
    nodes that they stand for, which ask the same of some of their parts; types may be cyclic, so the
    relation is the largest that the rules justify. The rules come in two readings, which differ in
    what fits an `opt`. A derivation from assumptions is the finite counterpart: its leaves are pairs
    of equal handles and assumed pairs. -/

namespace TypedWire

/-- What fits an `opt`. -/
inductive OptRule where
  /-- `null`, an `opt` whose content fits the content, and a type that fits the content itself. -/
  | strict
  /-- Every type. -/
  | lenient
  deriving DecidableEq

namespace Scope

/-- The rules for two nodes, of which the first lies at `r1`. What is asked of their parts is that
    `sub` relates them. -/
inductive Rule (w : Scope) (how : OptRule) (sub : TypeId → TypeId → Prop) (r1 : TypeId) :
    TypeNode → TypeNode → Prop where
  | reserved (n1 : TypeNode) : Rule w how sub r1 n1 (.primitive .reserved)
  | empty (n2 : TypeNode) : Rule w how sub r1 (.primitive .empty) n2
  | widen : Rule w how sub r1 (.primitive .nat) (.primitive .int)
  | primitive (p : Primitive) : Rule w how sub r1 (.primitive p) (.primitive p)
  | vec {e1 e2 : TypeId} : sub e1 e2 → Rule w how sub r1 (.vec e1) (.vec e2)
  | null (inner : TypeId) : Rule w how sub r1 (.primitive .null) (.opt inner)
  | opt {inner1 inner : TypeId} : sub inner1 inner → Rule w how sub r1 (.opt inner1) (.opt inner)
  | lift {n1 : TypeNode} {inner : TypeId} : ¬ w.Optional inner → sub r1 inner →
      Rule w how sub r1 n1 (.opt inner)
  | special {n1 : TypeNode} {inner : TypeId} : how = .lenient → Rule w how sub r1 n1 (.opt inner)
  | record {f1 f2 : List Field} :
      (∀ want ∈ f2,
        (∃ have1 ∈ f1, have1.label.id = want.label.id ∧ sub have1.type want.type) ∨
        (w.Optional want.type ∧ ∀ have1 ∈ f1, have1.label.id ≠ want.label.id)) →
      Rule w how sub r1 (.record f1) (.record f2)
  | variant {f1 f2 : List Field} :
      (∀ have1 ∈ f1, ∃ want ∈ f2, want.label.id = have1.label.id ∧ sub have1.type want.type) →
      Rule w how sub r1 (.variant f1) (.variant f2)
  | func {g1 g2 : Signature} :
      List.Forall₂ (fun a1 a2 => sub a2 a1) g1.args g2.args →
      List.Forall₂ sub g1.results g2.results → g1.modes = g2.modes →
      Rule w how sub r1 (.func g1) (.func g2)
  | service {m1 m2 : List Method} :
      (∀ want ∈ m2, ∃ have1 ∈ m1, have1.name = want.name ∧ sub have1.type want.type) →
      Rule w how sub r1 (.service m1) (.service m2)

/-- What the rules justify by `sub`: two types that stand for nodes which fit. -/
def Justified (w : Scope) (how : OptRule) (sub : TypeId → TypeId → Prop) (t1 t2 : TypeId) : Prop :=
  ∃ r1 n1 r2 n2, w.StandsFor t1 r1 n1 ∧ w.StandsFor t2 r2 n2 ∧ w.Rule how sub r1 n1 n2

/-- `t1` fits `t2`: the largest relation in which related types are the same handle, or stand for
    nodes that the rules relate. -/
def Fits (w : Scope) (how : OptRule) (t1 t2 : TypeId) : Prop :=
  ∃ R : TypeId → TypeId → Prop, (∀ a b, R a b → a = b ∨ w.Justified how R a b) ∧ R t1 t2

/-- `t1` fits `t2` by a finite derivation from the assumed pairs. -/
inductive Derives (w : Scope) (how : OptRule) (assumed : TypeId → TypeId → Prop) :
    TypeId → TypeId → Prop where
  | same (t : TypeId) : Derives w how assumed t t
  | assumed {t1 t2 : TypeId} : assumed t1 t2 → Derives w how assumed t1 t2
  | rule {t1 t2 : TypeId} {sub : TypeId → TypeId → Prop} : w.Justified how sub t1 t2 →
      (∀ a b, sub a b → Derives w how assumed a b) → Derives w how assumed t1 t2

variable {w : Scope} {how : OptRule} {sub sub' assumed assumed' : TypeId → TypeId → Prop}
variable {t t1 t2 r r1 r2 : TypeId} {n n1 n2 : TypeNode}

/-! ### Monotonicity -/

theorem Rule.mono (hsub : ∀ a b, sub a b → sub' a b) (h : w.Rule how sub r1 n1 n2) :
    w.Rule how sub' r1 n1 n2 := by
  cases h with
  | reserved => exact .reserved _
  | empty => exact .empty _
  | widen => exact .widen
  | primitive => exact .primitive _
  | vec h => exact .vec (hsub _ _ h)
  | null => exact .null _
  | opt h => exact .opt (hsub _ _ h)
  | lift ho h => exact .lift ho (hsub _ _ h)
  | special h => exact .special h
  | record h =>
    refine .record fun want hw => (h want hw).imp_left ?_
    exact fun ⟨have1, hm, hid, hs⟩ => ⟨have1, hm, hid, hsub _ _ hs⟩
  | variant h =>
    refine .variant fun have1 hm => ?_
    obtain ⟨want, hw, hid, hs⟩ := h have1 hm
    exact ⟨want, hw, hid, hsub _ _ hs⟩
  | func ha hr hm => exact .func (ha.imp fun _ _ => hsub _ _) (hr.imp hsub) hm
  | service h =>
    refine .service fun want hw => ?_
    obtain ⟨have1, hm, hn, hs⟩ := h want hw
    exact ⟨have1, hm, hn, hsub _ _ hs⟩

theorem Justified.mono (hsub : ∀ a b, sub a b → sub' a b) (h : w.Justified how sub t1 t2) :
    w.Justified how sub' t1 t2 := by
  obtain ⟨r1, n1, r2, n2, h1, h2, hr⟩ := h
  exact ⟨r1, n1, r2, n2, h1, h2, hr.mono hsub⟩

theorem Derives.mono (has : ∀ a b, assumed a b → assumed' a b) (h : w.Derives how assumed t1 t2) :
    w.Derives how assumed' t1 t2 := by
  induction h with
  | same t => exact .same t
  | assumed h => exact .assumed (has _ _ h)
  | rule hj _ ih => exact .rule hj ih

/-! ### The largest relation -/

/-- The relation is one that the rules justify by itself. -/
theorem Fits.unfold (h : w.Fits how t1 t2) : t1 = t2 ∨ w.Justified how (w.Fits how) t1 t2 := by
  obtain ⟨R, hR, h12⟩ := h
  exact (hR _ _ h12).imp_right fun hj => hj.mono fun a b hab => ⟨R, hR, hab⟩

theorem Fits.of_justified (h : w.Justified how (w.Fits how) t1 t2) : w.Fits how t1 t2 := by
  refine ⟨fun a b => w.Fits how a b ∨ w.Justified how (w.Fits how) a b, ?_, .inr h⟩
  rintro a b (hab | hab)
  · exact hab.unfold.imp_right fun hj => hj.mono fun _ _ => .inl
  · exact .inr (hab.mono fun _ _ => .inl)

/-- The nodes of types that fit are related by a rule; so are the handles where they lie. -/
theorem Fits.roots (h : w.Fits how t1 t2) (h1 : w.StandsFor t1 r1 n1) (h2 : w.StandsFor t2 r2 n2) :
    w.Fits how r1 r2 := by
  rcases h.unfold with rfl | ⟨r1', n1', r2', n2', h1', h2', hr⟩
  · exact h1.root_eq h2 ▸ ⟨Eq, fun _ _ => .inl, rfl⟩
  · obtain rfl := h1.root_eq h1'
    obtain rfl := h2.root_eq h2'
    exact .of_justified ⟨_, _, _, _, h1'.root, h2'.root, hr⟩

theorem Fits.rule (h : w.Fits how t1 t2) (hne : t1 ≠ t2) (h1 : w.StandsFor t1 r1 n1)
    (h2 : w.StandsFor t2 r2 n2) : w.Rule how (w.Fits how) r1 n1 n2 := by
  rcases h.unfold with heq | ⟨_, _, _, _, h1', h2', hrule⟩
  · exact absurd heq hne
  · obtain rfl := h1.root_eq h1'
    obtain rfl := h1.node_eq h1'
    obtain rfl := h2.node_eq h2'
    exact hrule

theorem Fits.standsFor (h : w.Fits how t1 t2) (h1 : w.StandsFor t1 r1 n1) :
    ∃ r2 n2, w.StandsFor t2 r2 n2 := by
  rcases h.unfold with rfl | ⟨_, _, r2, n2, -, h2, -⟩
  · exact ⟨r1, n1, h1⟩
  · exact ⟨r2, n2, h2⟩

/-- What may be missing fits only what may be missing too. -/
theorem Fits.optional (h : w.Fits how t1 t2) (h1 : w.Optional t1) : w.Optional t2 := by
  rcases h.unfold with rfl | ⟨r1, n1, r2, n2, hs1, hs2, hrule⟩
  · exact h1
  · rw [hs1.optional_iff] at h1
    rw [hs2.optional_iff]
    cases hrule <;> simp_all

/-- Assumptions that each other justify, and what is derived from them, hold. -/
theorem Derives.fits (hself : ∀ a b, assumed a b → w.Justified how (w.Derives how assumed) a b)
    (h : w.Derives how assumed t1 t2) : w.Fits how t1 t2 := by
  refine ⟨w.Derives how assumed, fun a b hab => ?_, h⟩
  cases hab with
  | same => exact .inl rfl
  | assumed hab => exact .inr (hself _ _ hab)
  | rule hj hsub => exact .inr (hj.mono hsub)

/-- Whatever fits by the strict rules fits by the lenient ones. -/
theorem Fits.lenient (h : w.Fits .strict t1 t2) : w.Fits .lenient t1 t2 := by
  obtain ⟨R, hR, h12⟩ := h
  refine ⟨R, fun a b hab => (hR a b hab).imp_right ?_, h12⟩
  rintro ⟨r1, n1, r2, n2, h1, h2, hr⟩
  refine ⟨r1, n1, r2, n2, h1, h2, ?_⟩
  cases hr with
  | reserved => exact .reserved _
  | empty => exact .empty _
  | widen => exact .widen
  | primitive => exact .primitive _
  | vec h => exact .vec h
  | null => exact .null _
  | opt h => exact .opt h
  | lift ho h => exact .lift ho h
  | special h => exact .special rfl
  | record h => exact .record h
  | variant h => exact .variant h
  | func ha hr hm => exact .func ha hr hm
  | service h => exact .service h

end Scope

end TypedWire
