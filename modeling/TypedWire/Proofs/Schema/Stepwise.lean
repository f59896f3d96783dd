import TypedWire.Proofs.Growth
import TypedWire.Proofs.Schema.Calls

/-! Two checks step by step. A check of two nodes gives verdicts and goes on with the verdicts on parts,
    and on its way nothing else happens but what a misfit at an `opt` gives rise to. So a relation of
    runs that verdicts and sequences keep relates the checks of two nodes, if it relates the checks of
    parts and what is done at such a misfit. A check of names reads and changes the assumptions too. -/

namespace TypedWire.Subtype

open TypedWire.Action

/-- The relation is kept where a verdict is given, and where two runs go on with the same verdict. -/
structure Stepwise (Rel : Action State Verdict → Action State Verdict → Prop) : Prop where
  answer : ∀ v, Rel (pure v) (pure v)
  seq : ∀ {x y : Action State Verdict} {f g : Verdict → Action State Verdict}, Rel x y →
    (∀ v, Rel (f v) (g v)) → Rel (x >>= f) (y >>= g)

/-- The relation is also kept where both give up, and where both look at the assumptions or change
    them. -/
structure Statewise (Rel : Action State Verdict → Action State Verdict → Prop) : Prop
    extends Stepwise Rel where
  fault : ∀ e, Rel (fail e) (fail e)
  look : ∀ {x x' y y' : Action State Verdict} (test : Assumptions → Bool), Rel x y → Rel x' y' →
    Rel (do if test (← get).assumed then x else x') (do if test (← get).assumed then y else y')
  change : ∀ {x y : Action State Verdict} (edit : Assumptions → Assumptions), Rel x y →
    Rel (do modify fun s => { s with assumed := edit s.assumed }; x)
      (do modify fun s => { s with assumed := edit s.assumed }; y)

variable {Rel : Action State Verdict → Action State Verdict → Prop} {cx cx' : Context}
variable {check check' : TypeId → TypeId → Action State Verdict} {t1 t2 inner : TypeId} {n1 n2 : TypeNode}

theorem stepwise_of_congruence {Rel : ∀ ⦃α : Type⦄, Action State α → Action State α → Prop}
    (h : Congruence Rel) : Stepwise fun x y => Rel x y :=
  ⟨fun v => h.answer v, fun hxy hf => h.seq hxy hf⟩

/-- A misfit at an `opt` is reported at most. -/
theorem keeps_special {R : State → State → Prop} [IsPreorder State R] {cx : Context} {t1 t2 : TypeId}
    (h : ∀ s, R s { s with log := cx.topics.note s.log (.optSpecial t1 t2) }) :
    Keeps R (special cx t1 t2) (special cx t1 t2) := by
  refine ⟨rfl, fun s => ?_⟩
  unfold special
  split
  · exact leads_pure trivial
  · exact runs_of_ok rfl ⟨h s, trivial⟩
  · exact leads_pure trivial

/-- Where the assumptions do not matter, what looks at them or changes them leads on too. -/
theorem statewise_keeps {R : State → State → Prop} [IsPreorder State R]
    (hassumed : ∀ s s', s'.log = s.log → R s s') : Statewise (Keeps R) where
  toStepwise := stepwise_of_congruence congruence_keeps
  fault e := congruence_keeps.fault e
  look test hx hy := by
    obtain ⟨rfl, hx⟩ := hx
    obtain ⟨rfl, hy⟩ := hy
    refine ⟨rfl, fun s => runs_bind (runs_of_ok rfl ?_)⟩
    split
    · exact hx s
    · exact hy s
  change edit h := by
    obtain ⟨rfl, h⟩ := h
    exact ⟨rfl, fun s => runs_bind (runs_of_ok rfl ((h _).after (hassumed _ _ rfl)))⟩

theorem ofExcept_ok_bind {α β : Type} (a : α) (f : α → Action State β) :
    (ofExcept (.ok a) >>= f) = f a := rfl

/-! ### Checks of parts -/

theorem Stepwise.all (hrel : Stepwise Rel) {α : Type} {test test' : α → Action State Verdict}
    (h : ∀ a, Rel (test a) (test' a)) : ∀ (members : List α) (verdict : Verdict),
    Rel (all test verdict members) (all test' verdict members)
  | [], verdict => hrel.answer verdict
  | a :: members, verdict => by
    unfold Subtype.all
    refine hrel.seq (h a) fun answer => ?_
    split
    · exact hrel.answer _
    · exact hrel.all h members _

theorem Stepwise.attempt (hrel : Stepwise Rel) (hcheck : ∀ t1 t2, Rel (check t1 t2) (check' t1 t2))
    {next next' : Action State Verdict} (hnext : Rel next next') :
    Rel (attempt check t1 t2 next) (attempt check' t1 t2 next') := by
  refine hrel.seq (hcheck t1 t2) fun verdict => ?_
  split
  · exact hrel.answer _
  · exact hnext

section Scope

variable (hrel : Stepwise Rel) (hscope : cx'.scope = cx.scope)
variable (hcheck : ∀ t1 t2, Rel (check t1 t2) (check' t1 t2))

include hscope in
theorem isOptional_eq (type : TypeId) :
    cx'.env.isOptional cx'.store type = cx.env.isOptional cx.store type := by
  obtain ⟨hstore, henv⟩ := Scope.mk.inj hscope
  rw [hstore, henv]

include hrel hscope hcheck

theorem Stepwise.fitsContent (hspecial : Rel (special cx t1 t2) (special cx' t1 t2)) :
    Rel (fitsContent cx check t1 t2 inner) (fitsContent cx' check' t1 t2 inner) := by
  unfold Subtype.fitsContent
  rw [isOptional_eq hscope]
  split
  · exact hspecial
  · exact hrel.attempt hcheck hspecial

theorem Stepwise.fitsOpt
    (hspecial : n1 ≠ .primitive .null → Rel (special cx t1 t2) (special cx' t1 t2)) :
    Rel (fitsOpt cx check t1 n1 t2 inner) (fitsOpt cx' check' t1 n1 t2 inner) := by
  by_cases hnull : n1 = .primitive .null
  · subst hnull
    rw [fitsOpt_null, fitsOpt_null]
    exact hrel.answer _
  by_cases hopt : ∃ inner1, n1 = .opt inner1
  · obtain ⟨inner1, rfl⟩ := hopt
    rw [fitsOpt_opt, fitsOpt_opt]
    exact hrel.attempt hcheck (hrel.fitsContent hscope hcheck (hspecial hnull))
  · rw [fitsOpt_other hnull fun i hi => hopt ⟨i, hi⟩, fitsOpt_other hnull fun i hi => hopt ⟨i, hi⟩]
    exact hrel.fitsContent hscope hcheck (hspecial hnull)

omit hscope in
theorem Stepwise.fitsFunc (f1 f2 : Signature) : Rel (fitsFunc check f1 f2) (fitsFunc check' f1 f2) := by
  unfold Subtype.fitsFunc
  split
  · exact hrel.answer _
  refine hrel.seq (hrel.all (fun p : TypeId × TypeId => hcheck p.2 p.1) _ _) fun verdict => ?_
  split
  · exact hrel.answer _
  · exact hrel.seq (hrel.all (fun p : TypeId × TypeId => hcheck p.1 p.2) _ _) fun _ => hrel.answer _

/-- What relates the checks of parts relates the checks of two nodes. -/
theorem Stepwise.fitsNodes (hspecial : ∀ inner, n2 = .opt inner → n1 ≠ .primitive .null →
    Rel (special cx t1 t2) (special cx' t1 t2)) :
    Rel (fitsNodes cx check t1 n1 t2 n2) (fitsNodes cx' check' t1 n1 t2 n2) := by
  unfold Subtype.fitsNodes
  split
  · exact hrel.answer _
  split
  · exact hcheck _ _
  · exact hrel.fitsOpt hscope hcheck (hspecial _ rfl)
  · refine hrel.all (fun want => ?_) _ _
    split
    · exact hcheck _ _
    · rw [isOptional_eq hscope]
      exact hrel.answer _
  · refine hrel.all (fun have1 => ?_) _ _
    split
    · exact hcheck _ _
    · exact hrel.answer _
  · exact hrel.fitsFunc hcheck _ _
  · refine hrel.all (fun want => ?_) _ _
    split
    · exact hcheck _ _
    · exact hrel.answer _
  · exact hrel.answer _

end Scope

/-! ### Names, and any two types -/

theorem Statewise.fitsNames (hrel : Statewise Rel) (hscope : cx'.scope = cx.scope)
    (hcheck : ∀ t1 t2, Rel (check t1 t2) (check' t1 t2)) :
    Rel (fitsNames cx check t1 t2) (fitsNames cx' check' t1 t2) := by
  obtain ⟨hstore, henv⟩ := Scope.mk.inj hscope
  unfold Subtype.fitsNames
  rw [hstore, henv]
  refine hrel.look (·.contains t1 t2) (hrel.answer _) ?_
  split
  · refine hrel.change (·.insert t1 t2) (hrel.seq (hcheck _ _) fun verdict => ?_)
    split
    · exact hrel.change (·.erase t1 t2) (hrel.answer _)
    · exact hrel.answer _
  · exact hrel.answer _

/-- One level of a check, the checks of parts being `check`. -/
def fitsLevel (cx : Context) (check : TypeId → TypeId → Action State Verdict) (t1 t2 : TypeId) :
    Action State Verdict := do
  if t1 = t2 then return .ok
  match ← Action.ofExcept (cx.store.typeAt t1), ← Action.ofExcept (cx.store.typeAt t2) with
  | .var _, _ | _, .var _ => fitsNames cx check t1 t2
  | n1, n2 => fitsNodes cx check t1 n1 t2 n2

/-- What relates the checks of parts relates the checks of two types. -/
theorem Statewise.fitsLevel (hrel : Statewise Rel) (hscope : cx'.scope = cx.scope)
    (hcheck : ∀ t1 t2, Rel (check t1 t2) (check' t1 t2))
    (hspecial : ∀ n1 inner, t1 ≠ t2 → cx.store.typeAt t1 = .ok n1 → n1 ≠ .primitive .null →
      cx.store.typeAt t2 = .ok (.opt inner) → Rel (special cx t1 t2) (special cx' t1 t2)) :
    Rel (fitsLevel cx check t1 t2) (fitsLevel cx' check' t1 t2) := by
  obtain ⟨hstore, -⟩ := Scope.mk.inj hscope
  unfold Subtype.fitsLevel
  rw [hstore]
  split
  · exact hrel.answer _
  next hne =>
  cases h1 : cx.store.typeAt t1 with
  | error e => exact hrel.fault e
  | ok n1 =>
    cases h2 : cx.store.typeAt t2 with
    | error e => exact hrel.fault e
    | ok n2 =>
      simp only [ofExcept_ok_bind]
      split
      · exact hrel.fitsNames hscope hcheck
      · exact hrel.fitsNames hscope hcheck
      · exact hrel.toStepwise.fitsNodes hscope hcheck fun inner hopt hnull =>
          hspecial _ inner hne h1 hnull (hopt ▸ h2)

end TypedWire.Subtype
