import TypedWire.Proofs.Schema.SameTree
import TypedWire.Proofs.Schema.Support

/-! A plain verdict is exact. No check gives up an assumption and goes on to answer `ok`: the one
    place where a refusal is forgotten and the answer may still be `ok` asks whether an `opt` fits what
    is no `opt`, which is refused, as such a pair is never assumed for longer than its own check.
    So the assumptions at the end of a check that answers `ok` justify each other. -/

namespace TypedWire.Subtype

variable {w : Scope} {cx : Context} {check : TypeId → TypeId → Action State Verdict}
variable {s s1 s' : State} {v : Verdict} {calls : List Call} {depth : Nat}
variable {t1 t2 r1 r2 : TypeId} {n1 n2 : TypeNode}

/-! ### An opt where none is expected -/

/-- The first type is an `opt`, and the second may not be missing. -/
def Hopeless (w : Scope) (t1 t2 : TypeId) : Prop :=
  (∃ r inner, w.StandsFor t1 r (.opt inner)) ∧ ¬ w.Optional t2

/-- No hopeless pair is assumed. -/
def State.Sane (w : Scope) (s : State) : Prop := ∀ a b, s.Assumes a b → ¬ Hopeless w a b

theorem State.Sane.of_subset (h : s.Sane w) (hsub : ∀ a b, s'.Assumes a b → s.Assumes a b) :
    s'.Sane w :=
  fun a b hab => h a b (hsub a b hab)

theorem State.Sane.of_assumed (h : s.Sane w) (ha : s'.assumed = s.assumed) : s'.Sane w :=
  h.of_subset fun a b hab => by simpa [State.Assumes, ha] using hab

theorem State.Sane.assume (h : s.Sane w) (hh : ¬ Hopeless w t1 t2) : (s.assume t1 t2).Sane w := by
  intro a b hab
  rcases assumes_assume.mp hab with ⟨rfl, rfl⟩ | hab
  · exact hh
  · exact h a b hab

theorem hopeless_nodes {inner : TypeId} (h2 : cx.scope.StandsFor r2 r2 n2)
    (ho : ¬ cx.scope.Optional r2) (h : fitsNodes cx check r1 (.opt inner) r2 n2 s = .ok v s') :
    v = .fail ∧ s' = s := by
  rw [h2.optional_iff] at ho
  have hrun : fitsNodes cx check r1 (.opt inner) r2 n2 = pure .fail := by
    cases n2 with
    | opt i => exact absurd (.inr (.inr ⟨i, rfl⟩)) ho
    | primitive p => cases p <;> first | rfl | simp at ho
    | _ => rfl
  rw [hrun, Action.pure_eq_ok] at h
  exact ⟨h.1.symm, h.2.symm⟩

theorem drop_assume (h : ¬ s.Assumes t1 t2) : (s.assume t1 t2).drop t1 t2 = s := by
  have hc : s.assumed.contains t1 t2 = false := by
    rw [← Bool.not_eq_true, contains_iff]
    exact h
  simp [State.assume, State.drop, Assumptions.insert, Assumptions.erase, hc]

/-- A hopeless pair is refused, and what is assumed stays the same. -/
theorem hopeless_refused (hs : s.Sane cx.scope) (hh : Hopeless cx.scope t1 t2)
    (h : fits cx depth t1 t2 s = .ok v s') : v = .fail ∧ s' = s := by
  obtain ⟨⟨r1, inner, h1⟩, ho⟩ := hh
  rcases fits_run h with ⟨rfl, -, -⟩ | ⟨d, rfl, -, ⟨n1, n2, hn1, hn2, hn⟩ | ⟨-, hn⟩⟩
  · exact absurd (h1.optional_iff.mpr (.inr (.inr ⟨_, rfl⟩))) ho
  · obtain rfl := h1.root_eq hn1
    obtain rfl := h1.node_eq hn1
    exact hopeless_nodes hn2 ho hn
  · rcases fitsNames_run hn with ⟨ha, -, -⟩ | ⟨hv, hss, -⟩ | ⟨hna, r, n, r2, n2, s1, hr, h2, hc, rfl⟩
    · exact absurd ⟨⟨r1, inner, h1⟩, ho⟩ (hs _ _ ha)
    · exact ⟨hv, hss⟩
    · obtain rfl := h1.node_eq hr
      have ho2 : ¬ cx.scope.Optional r2 := by rwa [h2.root.optional_iff, ← h2.optional_iff]
      rcases fits_roots_run hr.root h2.root hc with ⟨rfl, -, -⟩ | ⟨e, -, hnodes⟩
      · exact absurd (hr.root.optional_iff.mpr (.inr (.inr ⟨_, rfl⟩))) ho2
      · obtain ⟨rfl, rfl⟩ := hopeless_nodes h2.root ho2 hnodes
        exact ⟨rfl, drop_assume hna⟩

theorem Calls.sane (hcheck : ∀ t1 t2 v s s', s.Sane w → check t1 t2 s = .ok v s' → s'.Sane w)
    (h : Calls check s calls s') (hs : s.Sane w) : s'.Sane w :=
  h.invariant (P := fun s s' => s.Sane w → s'.Sane w) (fun _ _ ha hs => hs.of_assumed ha)
    (fun _ _ _ h1 h2 hs => h2 (h1 hs)) (fun _ _ _ _ _ hc hs => hcheck _ _ _ _ _ hs hc) hs

/-- No check leaves a hopeless pair behind. -/
theorem fits_sane : ∀ (depth : Nat) (t1 t2 : TypeId) (v : Verdict) (s s' : State),
    s.Sane cx.scope → fits cx depth t1 t2 s = .ok v s' → s'.Sane cx.scope
  | depth, t1, t2, v, s, s', hs, h => by
    by_cases hh : Hopeless cx.scope t1 t2
    · exact (hopeless_refused hs hh h).2 ▸ hs
    rcases fits_run h with ⟨-, -, rfl⟩ | ⟨d, rfl, -, ⟨n1, n2, h1, -, hn⟩ | ⟨-, hn⟩⟩
    · exact hs
    · obtain ⟨calls, hcs, -, -⟩ := fitsNodes_outcome h1 hn
      exact hcs.sane (fits_sane d) hs
    · rcases fitsNames_run hn with ⟨-, -, rfl⟩ | ⟨-, rfl, -⟩ | ⟨-, r1, n1, r2, n2, s1, -, -, hc, rfl⟩
      · exact hs
      · exact hs
      · have hs1 := fits_sane d _ _ _ _ _ (hs.assume hh) hc
        split
        · exact hs1.of_subset fun _ _ => assumes_of_drop
        · exact hs1

/-- What was refused under an `opt` is not accepted in another way. -/
theorem not_retried (hs : s.Sane cx.scope) (h1 : cx.scope.StandsFor r1 r1 n1) :
    ¬ Retried cx (fits cx depth) s r1 n1 n2 := by
  rintro ⟨inner1, inner, s1, s2, rfl, rfl, ho, hc1, hc2⟩
  have hs1 := fits_sane _ _ _ _ _ _ hs hc1
  exact absurd (hopeless_refused hs1 ⟨⟨r1, inner1, h1⟩, ho⟩ hc2).1 (by simp)

/-! ### What is accepted fits -/

/-- All pairs of types. -/
abbrev Every (_ _ : TypeId) : Prop := True

theorem nodes_support
    (ih : ∀ t1 t2 s s', s.Sane cx.scope → fits cx depth t1 t2 s = .ok .ok s' →
      Supports cx.scope .strict Every s s' .ok t1 t2)
    (hs : s.Sane cx.scope) (h1 : cx.scope.StandsFor r1 r1 n1)
    (h : fitsNodes cx (fits cx depth) r1 n1 r2 n2 s = .ok .ok s') :
    Kept cx.scope .strict Every s s' ∧
      cx.scope.Rule .strict (cx.scope.Derives .strict (s'.Among Every)) r1 n1 n2 := by
  obtain ⟨calls, hcs, ho, hok⟩ := fitsNodes_outcome h1 h
  have hclean := (hok rfl).resolve_right (not_retried hs h1)
  obtain ⟨hkept, hder⟩ := hcs.supports .strict (I := State.Sane cx.scope) (w := cx.scope)
    (K := Every) (fun _ _ ha hs => hs.of_assumed ha)
    (fun _ _ _ _ _ hs hc => fits_sane _ _ _ _ _ _ hs hc) hs fun c hc s s' hs hrun => by
      rw [hclean c hc] at hrun ⊢
      exact ih _ _ _ _ hs hrun
  refine ⟨hkept, (ho.grants .strict rfl).mono ?_⟩
  rintro a b ⟨u, hu, hc⟩
  exact hder _ hc hu trivial

theorem fits_support : ∀ (depth : Nat) (t1 t2 : TypeId) (s s' : State), s.Sane cx.scope →
    fits cx depth t1 t2 s = .ok .ok s' → Supports cx.scope .strict Every s s' .ok t1 t2
  | depth, t1, t2, s, s', hs, h => by
    have hopeful : ¬ Hopeless cx.scope t1 t2 := fun hh => by simpa using (hopeless_refused hs hh h).1
    rcases fits_run h with ⟨rfl, -, rfl⟩ | ⟨d, rfl, -, ⟨n1, n2, h1, h2, hn⟩ | ⟨-, hn⟩⟩
    · exact ⟨.of_assumed rfl, fun _ _ => .same _⟩
    · obtain ⟨hkept, hrule⟩ := nodes_support (fits_support d) hs h1 hn
      exact ⟨hkept, fun _ _ => .rule ⟨_, _, _, _, h1, h2, hrule⟩ fun _ _ => id⟩
    · rcases fitsNames_run hn with ⟨ha, -, rfl⟩ | ⟨hv, -, -⟩ | ⟨-, r1, n1, r2, n2, s1, h1, h2, hc, hend⟩
      · exact ⟨.of_assumed rfl, fun _ _ => .assumed ⟨ha, trivial⟩⟩
      · exact absurd hv (by simp)
      · have hassume : (s.assume t1 t2).Sane cx.scope := by
          intro a b hab
          rcases assumes_assume.mp hab with ⟨rfl, rfl⟩ | hab
          · exact hopeful
          · exact hs a b hab
        have hroots : Kept cx.scope .strict Every (s.assume t1 t2) s1 ∧
            cx.scope.Rule .strict (cx.scope.Derives .strict (s1.Among Every)) r1 n1 n2 := by
          rcases fits_roots_run h1.root h2.root hc with ⟨rfl, -, rfl⟩ | ⟨e, rfl, hnodes⟩
          · obtain rfl := h1.root.node_eq h2.root
            exact ⟨.of_assumed rfl, rule_refl .same h1⟩
          · exact nodes_support (fits_support e) (hs.assume hopeful) h1.root hnodes
        rw [hend]
        exact .of_assume h1 h2 hroots.1 (fun _ _ => hroots.2) (fun _ => rfl) (fun _ => rfl)

/-! ### No special answers where they are errors -/

/-- No run answers that a type fits but for what is under an `opt`. -/
def Plain (x : Action State Verdict) : Prop := ∀ s v s', x s = .ok v s' → v ≠ .optSpecial

theorem plain_pure (hv : v ≠ .optSpecial) : Plain (pure v) := by
  intro s u s' h
  exact (Action.pure_eq_ok.mp h).1 ▸ hv

theorem plain_bind {x : Action State Verdict} {f : Verdict → Action State Verdict} (hx : Plain x)
    (hf : ∀ v, v ≠ .optSpecial → Plain (f v)) : Plain (x >>= f) := by
  intro s v s' h
  obtain ⟨u, s1, hu, hv⟩ := Action.bind_eq_ok.mp h
  exact hf u (hx _ _ _ hu) _ _ _ hv

theorem plain_all {α : Type} {test : α → Action State Verdict} (htest : ∀ x, Plain (test x)) :
    ∀ (xs : List α) (acc : Verdict), acc ≠ .optSpecial → Plain (all test acc xs)
  | [], _, hacc => plain_pure hacc
  | x :: xs, acc, hacc => by
    refine plain_bind (htest x) fun u hu => ?_
    cases acc <;> cases u <;> simp only [Verdict.and, ne_eq, not_true_eq_false] at hacc hu ⊢
    · exact plain_all htest xs .ok (by simp)
    all_goals exact plain_pure (by simp)

theorem plain_special (hp : cx.policy = .error) (t1 t2 : TypeId) : Plain (special cx t1 t2) := by
  simp only [special, hp]
  exact plain_pure (by simp)

theorem plain_opt (hp : cx.policy = .error) (hcheck : ∀ t1 t2, Plain (check t1 t2))
    (r1 r2 inner : TypeId) (n1 : TypeNode) : Plain (fitsOpt cx check r1 n1 r2 inner) := by
  have hattempt : ∀ (a b : TypeId) {next : Action State Verdict}, Plain next →
      Plain (attempt check a b next) := by
    intro a b next hnext
    refine plain_bind (hcheck a b) fun v hv => ?_
    split
    · exact plain_pure hv
    · exact hnext
  have hcontent : Plain (fitsContent cx check r1 r2 inner) := by
    unfold fitsContent
    split
    · exact plain_special hp _ _
    · exact hattempt _ _ (plain_special hp _ _)
  by_cases hnull : n1 = .primitive .null
  · subst hnull
    exact plain_pure (by simp)
  by_cases hopt : ∃ i, n1 = .opt i
  · obtain ⟨i, rfl⟩ := hopt
    exact hattempt _ _ hcontent
  · rw [fitsOpt_other hnull fun i hi => hopt ⟨i, hi⟩]
    exact hcontent

theorem plain_func (hcheck : ∀ t1 t2, Plain (check t1 t2)) (g1 g2 : Signature) :
    Plain (fitsFunc check g1 g2) := by
  unfold fitsFunc
  split
  · exact plain_pure (by simp)
  refine plain_bind (plain_all (fun _ => hcheck _ _) _ _ (by simp)) fun u hu => ?_
  split
  · exact plain_pure (by simp)
  refine plain_bind (plain_all (fun _ => hcheck _ _) _ _ hu) fun u' hu' => ?_
  split
  · exact plain_pure hu'
  · exact plain_pure (by simp)

theorem plain_nodes (hp : cx.policy = .error) (hcheck : ∀ t1 t2, Plain (check t1 t2)) :
    Plain (fitsNodes cx check r1 n1 r2 n2) := by
  unfold fitsNodes
  split
  · exact plain_pure (by simp)
  split
  · exact hcheck _ _
  · exact plain_opt hp hcheck _ _ _ _
  · refine plain_all (fun want => ?_) _ _ (by simp)
    split
    · exact hcheck _ _
    · exact plain_pure (by split <;> simp)
  · refine plain_all (fun have1 => ?_) _ _ (by simp)
    split
    · exact hcheck _ _
    · exact plain_pure (by simp)
  · exact plain_func hcheck _ _
  · refine plain_all (fun want => ?_) _ _ (by simp)
    split
    · exact hcheck _ _
    · exact plain_pure (by simp)
  · exact plain_pure (by simp)

theorem fits_plain (hp : cx.policy = .error) : ∀ (depth : Nat) (t1 t2 : TypeId),
    Plain (fits cx depth t1 t2)
  | depth, t1, t2, s, v, s', h => by
    rcases fits_run h with ⟨-, rfl, -⟩ | ⟨d, rfl, -, ⟨n1, n2, -, -, hn⟩ | ⟨-, hn⟩⟩
    · simp
    · exact plain_nodes hp (fits_plain hp d) _ _ _ hn
    · rcases fitsNames_run hn with ⟨-, rfl, -⟩ | ⟨rfl, -, -⟩ | ⟨-, _, _, _, _, _, -, -, hc, -⟩
      · simp
      · simp
      · exact fits_plain hp d _ _ _ _ _ hc

/-! ### The verdict -/

/-- Started with nothing assumed, a check answers `ok` exactly for types that fit strictly. -/
theorem fits_ok (cx : Context) (hs : s.assumed = {}) (hd1 : cx.scope.Distinct t1)
    (hd2 : cx.scope.Distinct t2)
    (h : fits cx depth t1 t2 s = .ok v s') : v = .ok ↔ cx.scope.Fits .strict t1 t2 := by
  have hnone : ∀ a b, ¬ s.Assumes a b := by simp [State.Assumes, hs]
  constructor
  · rintro rfl
    obtain ⟨hkept, hder⟩ := fits_support depth t1 t2 s s' (fun a b hab => absurd hab (hnone a b)) h
    refine (hder rfl trivial).fits fun a b hab => ?_
    exact hkept.rests a b trivial hab.1 (hnone a b)
  · exact fun hf => fits_grants cx .strict depth t1 t2 s v s' hd1 hd2 (by simp) hf h

/-- A plain verdict is exact under every policy and budget: the check answers `ok` exactly if the
    types fit strictly, however types that fit only under an `opt` are treated. So runs that differ in
    policy, budget or log agree on what is plainly ok, types that unfold to the same tree are, and
    where a special answer is to be an error there is none. -/
theorem fits_ok_iff (cx : Context) (depth : Nat) (t1 t2 : TypeId) (s s' : State) (v : Verdict)
    (hs : s.assumed = {}) (hd1 : cx.scope.Distinct t1) (hd2 : cx.scope.Distinct t2)
    (h : fits cx depth t1 t2 s = .ok v s') :
    (v = .ok ↔ cx.scope.Fits .strict t1 t2) ∧
    (∀ (policy : OptPolicy) (topics : Topics) (budget : Nat) (u : Verdict) (s1 s1' : State),
      s1.assumed = {} → fits { cx with policy, topics } budget t1 t2 s1 = .ok u s1' →
      (u = .ok ↔ v = .ok)) ∧
    (cx.policy = .error → v ≠ .optSpecial) ∧
    (cx.scope.SameTree t1 cx.scope t2 → v = .ok) := by
  have hv := fits_ok cx hs hd1 hd2 h
  refine ⟨hv, fun policy topics budget u s1 s1' hs1 h1 => ?_, fun hp => fits_plain hp _ _ _ _ _ _ h,
    fun htree => hv.mpr htree.fits⟩
  exact (fits_ok { cx with policy, topics } hs1 hd1 hd2 h1).trans hv.symm

/-- Two lists of numbers, each through a name of its own. -/
def twoLists : Context where
  store :=
    { types := #[.var "a", .var "b", .record [⟨.bare 0, ⟨6⟩⟩, ⟨.bare 1, ⟨4⟩⟩],
        .record [⟨.bare 0, ⟨6⟩⟩, ⟨.bare 1, ⟨5⟩⟩], .opt ⟨0⟩, .opt ⟨1⟩, .primitive .nat] }
  env := ⟨[("a", ⟨2⟩), ("b", ⟨3⟩)]⟩
  policy := .error

theorem twoLists_fit :
    (∀ t, twoLists.scope.Distinct t) ∧
    fits twoLists 8 ⟨0⟩ ⟨1⟩ {} = .ok .ok { assumed := ⟨[(⟨0⟩, ⟨1⟩)]⟩ } ∧
    twoLists.scope.Fits .strict ⟨0⟩ ⟨1⟩ := by
  have hd : ∀ t, twoLists.scope.Distinct t := .of_store (by decide)
  have hrun : fits twoLists 8 ⟨0⟩ ⟨1⟩ {} = .ok .ok { assumed := ⟨[(⟨0⟩, ⟨1⟩)]⟩ } := rfl
  exact ⟨hd, hrun, (fits_ok_iff twoLists 8 ⟨0⟩ ⟨1⟩ {} _ .ok rfl (hd _) (hd _) hrun).1.mp rfl⟩

end TypedWire.Subtype
