import TypedWire.Proofs.Schema.Check

/-! What the assumptions rest on. Of all pairs of types a relation picks those of interest; a stretch
    of a check is sound for them if it gives up none that was assumed, and if each that it assumes is
    justified by those assumed in the end. Such stretches go together, and so do the derivations that
    they leave. -/

namespace TypedWire.Subtype

variable {w : Scope} {cx : Context} {how : OptRule} {K : TypeId → TypeId → Prop}
variable {check : TypeId → TypeId → Action State Verdict}
variable {s s1 s' : State} {v : Verdict} {calls : List Call} {t1 t2 r1 r2 : TypeId}
variable {n1 n2 : TypeNode}

/-- The assumed pairs that are of interest. -/
def State.Among (s : State) (K : TypeId → TypeId → Prop) (a b : TypeId) : Prop :=
  s.Assumes a b ∧ K a b

/-- From `s` to `s'` no pair of interest is given up, and each new one is justified. -/
structure Kept (w : Scope) (how : OptRule) (K : TypeId → TypeId → Prop) (s s' : State) : Prop where
  keeps : ∀ a b, K a b → s.Assumes a b → s'.Assumes a b
  rests : ∀ a b, K a b → s'.Assumes a b → ¬ s.Assumes a b →
    w.Justified how (w.Derives how (s'.Among K)) a b

theorem Kept.among (h : Kept w how K s s') (a b : TypeId) (hab : s.Among K a b) : s'.Among K a b :=
  ⟨h.keeps a b hab.2 hab.1, hab.2⟩

theorem Kept.of_assumed (h : s'.assumed = s.assumed) : Kept w how K s s' where
  keeps a b _ hab := by simpa [State.Assumes, h] using hab
  rests a b _ hab hn := absurd (by simpa [State.Assumes, h] using hab) hn

theorem Kept.trans (h : Kept w how K s s1) (h' : Kept w how K s1 s') : Kept w how K s s' where
  keeps a b hk hab := h'.keeps a b hk (h.keeps a b hk hab)
  rests a b hk hab hn := by
    by_cases h1 : s1.Assumes a b
    · exact (h.rests a b hk h1 hn).mono fun _ _ hd => hd.mono h'.among
    · exact h'.rests a b hk hab h1

/-- A check of two types is sound: it keeps what is of interest, and if its verdict grants that the
    two fit, and they are of interest, they are derived. -/
def Supports (w : Scope) (how : OptRule) (K : TypeId → TypeId → Prop) (s s' : State) (v : Verdict)
    (t1 t2 : TypeId) : Prop :=
  Kept w how K s s' ∧ (v.Grants how → K t1 t2 → w.Derives how (s'.Among K) t1 t2)

/-- Checks that are sound one by one, where a state is as `I` demands, are sound together. -/
theorem Calls.supports (how : OptRule) {I : State → Prop}
    (hlog : ∀ s s', s'.assumed = s.assumed → I s → I s')
    (hI : ∀ t1 t2 v s s', I s → check t1 t2 s = .ok v s' → I s')
    (h : Calls check s calls s') (hs : I s)
    (hsup : ∀ c ∈ calls, ∀ s s', I s → check c.left c.right s = .ok c.verdict s' →
      Supports w how K s s' c.verdict c.left c.right) :
    Kept w how K s s' ∧ ∀ c ∈ calls, c.verdict.Grants how → K c.left c.right →
      w.Derives how (s'.Among K) c.left c.right := by
  induction h with
  | done hs' => exact ⟨.of_assumed hs', by simp⟩
  | @call t1 t2 v s s0 s1 s' calls hs0 hc _ ih =>
    rw [List.forall_mem_cons] at hsup
    have hI0 := hlog _ _ hs0 hs
    obtain ⟨hk1, hd1⟩ := hsup.1 s0 s1 hI0 hc
    obtain ⟨hk2, hd2⟩ := ih (hI _ _ _ _ _ hI0 hc) hsup.2
    refine ⟨((Kept.of_assumed hs0).trans hk1).trans hk2, List.forall_mem_cons.mpr ⟨?_, hd2⟩⟩
    exact fun hg hk => (hd1 hg hk).mono hk2.among

/-- A pair that is assumed for the time of a check of what it stands for, and given up if that is
    refused. A pair of interest is not refused, and is justified by what the check derives. -/
theorem Supports.of_assume (h1 : w.StandsFor t1 r1 n1) (h2 : w.StandsFor t2 r2 n2)
    (hkept : Kept w how K (s.assume t1 t2) s1)
    (hrule : v.Grants how → K t1 t2 → w.Rule how (w.Derives how (s1.Among K)) r1 n1 n2)
    (hgrants : K t1 t2 → v.Grants how) (hfail : v ≠ .fail → v.Grants how) :
    Supports w how K s (if v = .fail then s1.drop t1 t2 else s1) v t1 t2 := by
  have hkeep1 : ∀ a b, K a b → s.Assumes a b → s1.Assumes a b :=
    fun a b hk hab => hkept.keeps a b hk (assumes_assume.mpr (.inr hab))
  split
  · next hf =>
    have hnk : ¬ K t1 t2 := fun hk => Verdict.fail_grants how (hf ▸ hgrants hk)
    have hne : ∀ a b, K a b → ¬ (a = t1 ∧ b = t2) := by
      rintro a b hk ⟨rfl, rfl⟩
      exact hnk hk
    refine ⟨⟨fun a b hk hab => assumes_drop (hkeep1 a b hk hab) (hne a b hk), ?_⟩, fun hg => ?_⟩
    · intro a b hk hab hn
      have hn' : ¬ (s.assume t1 t2).Assumes a b := by
        rw [assumes_assume]
        exact fun h => h.elim (hne a b hk) hn
      refine (hkept.rests a b hk (assumes_of_drop hab) hn').mono fun _ _ hd => hd.mono ?_
      exact fun x y hxy => ⟨assumes_drop hxy.1 (hne x y hxy.2), hxy.2⟩
    · exact absurd (hf ▸ hg) (Verdict.fail_grants how)
  · next hf =>
    refine ⟨⟨hkeep1, fun a b hk hab hn => ?_⟩, fun _ hk => .assumed ⟨?_, hk⟩⟩
    · by_cases heq : a = t1 ∧ b = t2
      · obtain ⟨rfl, rfl⟩ := heq
        exact ⟨r1, n1, r2, n2, h1, h2, hrule (hfail hf) hk⟩
      · refine hkept.rests a b hk hab ?_
        rw [assumes_assume]
        exact fun h => h.elim heq hn
    · exact hkept.keeps t1 t2 hk (assumes_assume.mpr (.inl ⟨rfl, rfl⟩))

/-- A node fits itself if every type is related to itself. -/
theorem rule_refl {sub : TypeId → TypeId → Prop} (hsub : ∀ t, sub t t) {n : TypeNode}
    (hs : w.StandsFor t1 r1 n) : w.Rule how sub r1 n n := by
  cases n with
  | primitive p => exact .primitive p
  | opt inner => exact .opt (hsub inner)
  | vec e => exact .vec (hsub e)
  | record fields => exact .record fun want hw => .inl ⟨want, hw, rfl, hsub _⟩
  | variant fields => exact .variant fun have1 hm => ⟨have1, hm, rfl, hsub _⟩
  | func g =>
    exact .func (List.forall₂_same.mpr fun a _ => hsub a) (List.forall₂_same.mpr fun a _ => hsub a) rfl
  | service methods => exact .service fun want hw => ⟨want, hw, rfl, hsub _⟩
  | var name => exact absurd rfl (hs.not_var name)

end TypedWire.Subtype
