import TypedWire.Proofs.Schema.Calls

/-! Runs of the check. A run ends at once, looks at two nodes, or assumes a pair of which one is a
    name and goes on with what the two stand for. A type that fits is never refused; and whatever the
    check assumes, and does not give up, rests on assumptions that are there in the end. -/

namespace TypedWire.Subtype

variable {cx : Context} {how : OptRule} {check : TypeId → TypeId → Action State Verdict}
variable {s s1 s' : State} {v : Verdict} {calls : List Call} {depth : Nat}
variable {t1 t2 r1 r2 : TypeId} {n1 n2 : TypeNode}

/-! ### Assumptions -/

/-- The check takes it for granted that `t1` fits `t2`. -/
def State.Assumes (s : State) (t1 t2 : TypeId) : Prop := (t1, t2) ∈ s.assumed.pairs

/-- The state with one more pair assumed. -/
def State.assume (s : State) (t1 t2 : TypeId) : State := { s with assumed := s.assumed.insert t1 t2 }

/-- The state with an assumption given up. -/
def State.drop (s : State) (t1 t2 : TypeId) : State := { s with assumed := s.assumed.erase t1 t2 }

theorem contains_iff {g : Assumptions} : g.contains t1 t2 = true ↔ (t1, t2) ∈ g.pairs := by
  simp [Assumptions.contains]

theorem assumes_assume {a b : TypeId} :
    (s.assume t1 t2).Assumes a b ↔ (a = t1 ∧ b = t2) ∨ s.Assumes a b := by
  simp only [State.Assumes, State.assume, Assumptions.insert]
  split
  · next h =>
    rw [contains_iff] at h
    constructor
    · exact .inr
    · rintro (⟨rfl, rfl⟩ | hab)
      · exact h
      · exact hab
  · simp

theorem assumes_of_drop {a b : TypeId} (h : (s.drop t1 t2).Assumes a b) : s.Assumes a b :=
  List.mem_of_mem_erase h

theorem assumes_drop {a b : TypeId} (h : s.Assumes a b) (hne : ¬ (a = t1 ∧ b = t2)) :
    (s.drop t1 t2).Assumes a b :=
  (List.mem_erase_of_ne (by simpa using hne)).mpr h

/-! ### Runs -/

theorem fitsNames_run (h : fitsNames cx check t1 t2 s = .ok v s') :
    (s.Assumes t1 t2 ∧ v = .ok ∧ s' = s) ∨
    (v = .fail ∧ s' = s ∧ ∀ r1 n1 r2 n2, cx.scope.StandsFor t1 r1 n1 →
      ¬ cx.scope.StandsFor t2 r2 n2) ∨
    (¬ s.Assumes t1 t2 ∧ ∃ r1 n1 r2 n2 s1, cx.scope.StandsFor t1 r1 n1 ∧
      cx.scope.StandsFor t2 r2 n2 ∧ check r1 r2 (s.assume t1 t2) = .ok v s1 ∧
      s' = if v = .fail then s1.drop t1 t2 else s1) := by
  simp only [fitsNames, Action.bind_eq_ok, Action.get_eq_ok] at h
  obtain ⟨_, _, ⟨rfl, rfl⟩, h⟩ := h
  split at h
  · next hc =>
    simp only [Action.pure_eq_ok] at h
    exact .inl ⟨contains_iff.mp hc, h.1.symm, h.2.symm⟩
  · next hc =>
    rw [contains_iff] at hc
    have hunbound : ∀ e, (cx.env.follow cx.store t1 = .error e ∨ cx.env.follow cx.store t2 = .error e) →
        ∀ r1 n1 r2 n2, cx.scope.StandsFor t1 r1 n1 → ¬ cx.scope.StandsFor t2 r2 n2 := by
      rintro e (he | he) r1 n1 r2 n2 h1 h2
      · exact absurd (h1.follow.symm.trans he) (by simp)
      · exact absurd (h2.follow.symm.trans he) (by simp)
    cases hr1 : cx.env.follow cx.store t1 with
    | error e =>
      simp only [hr1, Action.pure_eq_ok] at h
      exact .inr (.inl ⟨h.1.symm, h.2.symm, hunbound e (.inl hr1)⟩)
    | ok r1 =>
      cases hr2 : cx.env.follow cx.store t2 with
      | error e =>
        simp only [hr1, hr2, Action.pure_eq_ok] at h
        exact .inr (.inl ⟨h.1.symm, h.2.symm, hunbound e (.inr hr2)⟩)
      | ok r2 =>
        obtain ⟨n1, h1⟩ := Scope.StandsFor.of_follow (w := cx.scope) hr1
        obtain ⟨n2, h2⟩ := Scope.StandsFor.of_follow (w := cx.scope) hr2
        simp only [hr1, hr2, Action.bind_eq_ok, Action.modify_eq_ok] at h
        obtain ⟨_, _, rfl, u, s1, hu, h⟩ := h
        refine .inr (.inr ⟨hc, r1, n1, r2, n2, s1, h1, h2, ?_⟩)
        split at h
        · next hf =>
          simp only [Action.bind_eq_ok, Action.modify_eq_ok, Action.pure_eq_ok] at h
          obtain ⟨_, _, rfl, rfl, rfl⟩ := h
          exact ⟨hu, (if_pos hf).symm⟩
        · next hf =>
          simp only [Action.pure_eq_ok] at h
          obtain ⟨rfl, rfl⟩ := h
          exact ⟨hu, (if_neg hf).symm⟩

/-- The three ways in which a check ends. -/
theorem fits_run (h : fits cx depth t1 t2 s = .ok v s') :
    (t1 = t2 ∧ v = .ok ∧ s' = s) ∨ ∃ d, depth = d + 1 ∧ t1 ≠ t2 ∧
      ((∃ n1 n2, cx.scope.StandsFor t1 t1 n1 ∧ cx.scope.StandsFor t2 t2 n2 ∧
        fitsNodes cx (fits cx d) t1 n1 t2 n2 s = .ok v s') ∨
      (∃ name, cx.store.typeAt t1 = .ok (.var name) ∨ cx.store.typeAt t2 = .ok (.var name)) ∧
        fitsNames cx (fits cx d) t1 t2 s = .ok v s') := by
  cases depth with
  | zero =>
    simp only [fits] at h
    split at h
    · next heq =>
      simp only [Action.pure_eq_ok] at h
      exact .inl ⟨heq, h.1.symm, h.2.symm⟩
    · exact absurd h Action.fail_eq_ok
  | succ d =>
    simp only [fits] at h
    split at h
    · next heq =>
      simp only [Action.pure_eq_ok] at h
      exact .inl ⟨heq, h.1.symm, h.2.symm⟩
    · next hne =>
      simp only [Action.bind_eq_ok, Action.ofExcept_eq_ok] at h
      obtain ⟨m1, _, ⟨hm1, rfl⟩, m2, _, ⟨hm2, rfl⟩, h⟩ := h
      refine .inr ⟨d, rfl, hne, ?_⟩
      split at h
      · exact .inr ⟨⟨_, .inl hm1⟩, h⟩
      · exact .inr ⟨⟨_, .inr hm2⟩, h⟩
      · next hv1 hv2 =>
        exact .inl ⟨m1, m2, .of_node hm1 fun name hn => hv1 name hn,
          .of_node hm2 fun name hn => hv2 name hn, h⟩

/-- A check of two types that are no names looks at their nodes. -/
theorem fits_roots_run (h1 : cx.scope.StandsFor r1 r1 n1) (h2 : cx.scope.StandsFor r2 r2 n2)
    (h : fits cx depth r1 r2 s = .ok v s') :
    (r1 = r2 ∧ v = .ok ∧ s' = s) ∨ ∃ d, depth = d + 1 ∧
      fitsNodes cx (fits cx d) r1 n1 r2 n2 s = .ok v s' := by
  rcases fits_run h with hsame | ⟨d, hd, -, ⟨m1, m2, hm1, hm2, hn⟩ | ⟨⟨name, hvar⟩, -⟩⟩
  · exact .inl hsame
  · obtain rfl := h1.node_eq hm1
    obtain rfl := h2.node_eq hm2
    exact .inr ⟨d, hd, hn⟩
  · rcases hvar with hvar | hvar
    · exact absurd (Except.ok.inj (h1.node.symm.trans hvar)) (h1.not_var name)
    · exact absurd (Except.ok.inj (h2.node.symm.trans hvar)) (h2.not_var name)

/-! ### What fits is not refused -/

theorem Part.distinct (hd1 : cx.scope.Distinct r1) (hd2 : cx.scope.Distinct r2)
    (h1 : cx.scope.StandsFor r1 r1 n1) (h2 : cx.scope.StandsFor r2 r2 n2) {t : TypeId}
    (hp : Part r1 n1 n2 t) : cx.scope.Distinct t := by
  rcases hp with rfl | hp | hp
  · exact hd1
  · exact hd1.part h1 hp
  · exact hd2.part h2 hp

/-- Each check that a run consists of began somewhere and ended somewhere. -/
theorem Calls.ran (h : Calls check s calls s') :
    ∀ c ∈ calls, ∃ a b, check c.left c.right a = .ok c.verdict b := by
  induction h with
  | done => simp
  | call _ hc _ ih => exact List.forall_mem_cons.mpr ⟨⟨_, _, hc⟩, ih⟩

theorem fits_grants (cx : Context) (how : OptRule) :
    ∀ (depth : Nat) (t1 t2 : TypeId) (s : State) (v : Verdict) (s' : State),
    cx.scope.Distinct t1 → cx.scope.Distinct t2 → (how = .lenient → cx.policy ≠ .error) →
    cx.scope.Fits how t1 t2 → fits cx depth t1 t2 s = .ok v s' → v.Grants how
  | depth, t1, t2, s, v, s', hd1, hd2, hp, hf, h => by
    rcases fits_run h with ⟨-, rfl, -⟩ | ⟨d, rfl, hne, ⟨n1, n2, h1, h2, hn⟩ | ⟨-, hn⟩⟩
    · simp
    · by_contra hg
      obtain ⟨calls, hcs, ho, -⟩ := fitsNodes_outcome h1 hn
      rcases hf.unfold with rfl | ⟨r1, m1, r2, m2, hr1, hr2, hrule⟩
      · exact hne rfl
      obtain rfl := h1.root_eq hr1
      obtain rfl := h1.node_eq hr1
      obtain rfl := h2.node_eq hr2
      obtain ⟨c, hc, hng, hfc⟩ := ho.refuses (hd1.node h1) (hd2.node h2) how hg hp hrule
      obtain ⟨a, b, hran⟩ := hcs.ran c hc
      obtain ⟨hl, hr⟩ := ho.parts c hc
      exact hng (fits_grants cx how d _ _ _ _ _ (hl.distinct hd1 hd2 h1 h2) (hr.distinct hd1 hd2 h1 h2)
        hp hfc hran)
    · rcases fitsNames_run hn with ⟨-, rfl, -⟩ | ⟨-, -, hnone⟩ | ⟨-, r1, n1, r2, n2, s1, h1, h2, hr, -⟩
      · simp
      · rcases hf.unfold with rfl | ⟨r1, m1, r2, m2, hr1, hr2, -⟩
        · exact absurd rfl hne
        · exact absurd hr2 (hnone _ _ _ _ hr1)
      · exact fits_grants cx how d _ _ _ _ _ (hd1.root h1) (hd2.root h2) hp (hf.roots h1 h2) hr

/-- Types that are refused do not fit, whatever was assumed when the check began and however deep it
    may nest: by no strict rules, and where a special answer is allowed not even with every `opt`
    accepted. -/
theorem fits_refused (cx : Context) (depth : Nat) (t1 t2 : TypeId) (s s' : State)
    (hd1 : cx.scope.Distinct t1) (hd2 : cx.scope.Distinct t2)
    (h : fits cx depth t1 t2 s = .ok .fail s') :
    ¬ cx.scope.Fits .strict t1 t2 ∧ (cx.policy ≠ .error → ¬ cx.scope.Fits .lenient t1 t2) := by
  have hrefused : ∀ how : OptRule, (how = .lenient → cx.policy ≠ .error) →
      ¬ cx.scope.Fits how t1 t2 := by
    intro how hp hf
    have hgrants : Verdict.fail.Grants how := fits_grants cx how depth t1 t2 s .fail s' hd1 hd2 hp hf h
    simp at hgrants
  exact ⟨hrefused .strict (by simp), fun hp => hrefused .lenient fun _ => hp⟩

/-- A list of numbers and a list of texts, each through a name of its own. -/
def numbersAndTexts : Context where
  store :=
    { types := #[.var "numbers", .var "texts", .record [⟨.bare 0, ⟨6⟩⟩, ⟨.bare 1, ⟨4⟩⟩],
        .record [⟨.bare 0, ⟨7⟩⟩, ⟨.bare 1, ⟨5⟩⟩], .opt ⟨0⟩, .opt ⟨1⟩, .primitive .nat,
        .primitive .text] }
  env := ⟨[("numbers", ⟨2⟩), ("texts", ⟨3⟩)]⟩

/-- They are refused also where the converse, and that their tails fit, is taken for granted. -/
theorem numbersAndTexts_refused :
    fits numbersAndTexts 8 ⟨0⟩ ⟨1⟩ { assumed := ⟨[(⟨1⟩, ⟨0⟩), (⟨4⟩, ⟨5⟩)]⟩ } =
      .ok .fail { assumed := ⟨[(⟨1⟩, ⟨0⟩), (⟨4⟩, ⟨5⟩)]⟩ } ∧
    ¬ numbersAndTexts.scope.Fits .strict ⟨0⟩ ⟨1⟩ ∧ ¬ numbersAndTexts.scope.Fits .lenient ⟨0⟩ ⟨1⟩ := by
  have hd : ∀ t, numbersAndTexts.scope.Distinct t := .of_store (by decide)
  have hrun : fits numbersAndTexts 8 ⟨0⟩ ⟨1⟩ { assumed := ⟨[(⟨1⟩, ⟨0⟩), (⟨4⟩, ⟨5⟩)]⟩ } =
      .ok .fail { assumed := ⟨[(⟨1⟩, ⟨0⟩), (⟨4⟩, ⟨5⟩)]⟩ } := rfl
  have hnone := fits_refused numbersAndTexts 8 ⟨0⟩ ⟨1⟩ _ _ (hd _) (hd _) hrun
  exact ⟨hrun, hnone.1, hnone.2 (by decide)⟩

end TypedWire.Subtype
