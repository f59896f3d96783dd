import TypedWire.Proofs.Schema.Rules
import TypedWire.Proofs.Schema.Distinct

/-! What a check of two nodes does: it checks some of their parts, one after another. Its verdict
    grants that the nodes fit if those of the parts that a rule needs do, and only a rule's need that
    was refused makes it say less. All that the check does to the assumptions it does in the checks
    of parts. -/

namespace TypedWire

/-- Whether a verdict grants that a type fits by the rules: by the strict ones only if it fits
    outright. -/
def Verdict.Grants (v : Verdict) : OptRule → Prop
  | .strict => v = .ok
  | .lenient => v ≠ .fail

namespace Verdict

@[simp] theorem ok_grants (how : OptRule) : ok.Grants how := by cases how <;> simp [Grants]

@[simp] theorem fail_grants (how : OptRule) : ¬ fail.Grants how := by cases how <;> simp [Grants]

theorem and_grants {a b : Verdict} {how : OptRule} :
    (a.and b).Grants how ↔ a.Grants how ∧ b.Grants how := by
  cases how <;> cases a <;> cases b <;> simp [Grants, Verdict.and]

theorem and_eq_ok {a b : Verdict} : a.and b = .ok ↔ a = .ok ∧ b = .ok := by
  cases a <;> cases b <;> simp [Verdict.and]

theorem holds_iff {v : Verdict} : v.holds = true ↔ v ≠ .fail := by cases v <;> simp [holds]

end Verdict

namespace Subtype

/-- The store and the names that a check works on. -/
def Context.scope (cx : Context) : Scope := ⟨cx.store, cx.env⟩

/-- A check of two types that was made, and its verdict. -/
structure Call where
  left : TypeId
  right : TypeId
  verdict : Verdict

/-- The checks made on the way from one state to another. Between them the assumptions stay. -/
inductive Calls (check : TypeId → TypeId → Action State Verdict) : State → List Call → State → Prop where
  | done {s s' : State} : s'.assumed = s.assumed → Calls check s [] s'
  | call {t1 t2 : TypeId} {v : Verdict} {s s0 s1 s' : State} {calls : List Call} :
      s0.assumed = s.assumed → check t1 t2 s0 = .ok v s1 → Calls check s1 calls s' →
      Calls check s (⟨t1, t2, v⟩ :: calls) s'

variable {check : TypeId → TypeId → Action State Verdict} {cx : Context} {how : OptRule}
variable {s s1 s' : State} {v acc : Verdict} {calls calls' : List Call} {t1 t2 r1 r2 : TypeId}
variable {n1 n2 : TypeNode}

theorem Calls.refl (s : State) : Calls check s [] s := .done rfl

theorem Calls.one (h : check t1 t2 s = .ok v s') : Calls check s [⟨t1, t2, v⟩] s' :=
  .call rfl h (.refl s')

theorem Calls.append (h : Calls check s calls s1) (h' : Calls check s1 calls' s') :
    Calls check s (calls ++ calls') s' := by
  induction h with
  | done ha =>
    cases h' with
    | done hb => exact .done (hb.trans ha)
    | call hs hc hr => exact .call (hs.trans ha) hc hr
  | call hs hc _ ih => exact .call hs hc (ih h')

/-- What a run of checks keeps if each check keeps it. -/
theorem Calls.invariant {P : State → State → Prop}
    (hlog : ∀ s s', s'.assumed = s.assumed → P s s')
    (htrans : ∀ s s1 s', P s s1 → P s1 s' → P s s')
    (hcheck : ∀ t1 t2 v s s', check t1 t2 s = .ok v s' → P s s')
    (h : Calls check s calls s') : P s s' := by
  induction h with
  | done hs => exact hlog _ _ hs
  | call hs hc _ ih => exact htrans _ _ _ (hlog _ _ hs) (htrans _ _ _ (hcheck _ _ _ _ _ hc) ih)

/-! ### All members of a list -/

/-- What is asked of one member: a check of two types, or nothing, the verdict being plain. -/
inductive Question where
  | check (t1 t2 : TypeId)
  | plain (v : Verdict)

/-- How a question is answered. -/
def Question.ask (check : TypeId → TypeId → Action State Verdict) : Question → Action State Verdict
  | .check t1 t2 => check t1 t2
  | .plain v => pure v

/-- The answer to a question, where these checks were made. -/
def Question.Answered (calls : List Call) (v : Verdict) : Question → Prop
  | .check t1 t2 => ⟨t1, t2, v⟩ ∈ calls
  | .plain u => u = v

theorem Question.Answered.mono {q : Question} (hsub : ∀ c ∈ calls, c ∈ calls')
    (h : q.Answered calls v) : q.Answered calls' v := by
  cases q with
  | check t1 t2 => exact hsub _ h
  | plain u => exact h

/-- What the verdict on all members tells of the answers that it rests on. -/
structure Summary {α : Type} (ask : α → Question) (xs : List α) (acc v : Verdict)
    (calls : List Call) : Prop where
  grants : ∀ how, v.Grants how → acc.Grants how ∧
    ∀ x ∈ xs, ∃ u, u.Grants how ∧ (ask x).Answered calls u
  refuses : ∀ how, ¬ v.Grants how → ¬ acc.Grants how ∨
    ∃ x ∈ xs, ∃ u, ¬ u.Grants how ∧ (ask x).Answered calls u
  clean : v = .ok → ∀ c ∈ calls, c.verdict = .ok
  asked : ∀ c ∈ calls, ∃ x ∈ xs, ask x = .check c.left c.right

theorem ask_calls {q : Question} (h : q.ask check s = .ok v s') :
    ∃ calls, Calls check s calls s' ∧ q.Answered calls v ∧
      ∀ c ∈ calls, c.verdict = v ∧ q = .check c.left c.right := by
  cases q with
  | check t1 t2 =>
    exact ⟨[⟨t1, t2, v⟩], .one h, List.mem_singleton.mpr rfl, by simp⟩
  | plain u =>
    simp only [Question.ask, Action.pure_eq_ok] at h
    exact ⟨[], h.2 ▸ .refl s, h.1, by simp⟩

theorem all_calls {α : Type} {test : α → Action State Verdict} (ask : α → Question)
    (htest : ∀ x, test x = (ask x).ask check) : ∀ (xs : List α) (acc v : Verdict) (s s' : State),
    all test acc xs s = .ok v s' → ∃ calls, Calls check s calls s' ∧ Summary ask xs acc v calls
  | [], acc, v, s, s', h => by
    simp only [all, Action.pure_eq_ok] at h
    obtain ⟨rfl, rfl⟩ := h
    exact ⟨[], .refl s, fun _ hv => ⟨hv, by simp⟩, fun _ hv => .inl hv, by simp, by simp⟩
  | x :: xs, acc, v, s, s', h => by
    simp only [all, Action.bind_eq_ok, htest] at h
    obtain ⟨u, s1, hu, h⟩ := h
    obtain ⟨calls1, hc1, ha, hclean⟩ := ask_calls hu
    by_cases hand : acc.and u = .fail
    · simp only [hand, Action.pure_eq_ok] at h
      obtain ⟨rfl, rfl⟩ := h
      refine ⟨calls1, hc1, fun how hv => absurd hv (by simp), fun how _ => ?_, by simp,
        fun c hc => ⟨x, List.mem_cons_self, (hclean c hc).2⟩⟩
      have hnot : ¬ (acc.and u).Grants how := by rw [hand]; simp
      rw [Verdict.and_grants, not_and_or] at hnot
      exact hnot.imp_right fun hu => ⟨x, List.mem_cons_self, u, hu, ha⟩
    · have h : all test (acc.and u) xs s1 = .ok v s' := by
        cases hv : acc.and u <;> simp_all
      obtain ⟨calls2, hc2, hsum⟩ := all_calls ask htest xs _ v s1 s' h
      have hleft : ∀ c ∈ calls1, c ∈ calls1 ++ calls2 := fun c hc => List.mem_append_left _ hc
      have hright : ∀ c ∈ calls2, c ∈ calls1 ++ calls2 := fun c hc => List.mem_append_right _ hc
      refine ⟨calls1 ++ calls2, hc1.append hc2, fun how hv => ?_, fun how hv => ?_, fun hv => ?_,
        fun c hc => ?_⟩
      · obtain ⟨hand, hall⟩ := hsum.grants how hv
        rw [Verdict.and_grants] at hand
        refine ⟨hand.1, fun y hy => ?_⟩
        rcases List.mem_cons.mp hy with rfl | hy
        · exact ⟨u, hand.2, ha.mono hleft⟩
        · obtain ⟨u', hu', hans⟩ := hall y hy
          exact ⟨u', hu', hans.mono hright⟩
      · rcases hsum.refuses how hv with hand | ⟨y, hy, u', hu', hans⟩
        · rw [Verdict.and_grants, not_and_or] at hand
          exact hand.imp_right fun hu => ⟨x, List.mem_cons_self, u, hu, ha.mono hleft⟩
        · exact .inr ⟨y, List.mem_cons_of_mem _ hy, u', hu', hans.mono hright⟩
      · have hu' : u = .ok := (Verdict.and_eq_ok.mp (hsum.grants .strict hv).1).2
        intro c hc
        rcases List.mem_append.mp hc with hc | hc
        · exact (hclean c hc).1.trans hu'
        · exact hsum.clean hv c hc
      · rcases List.mem_append.mp hc with hc | hc
        · exact ⟨x, List.mem_cons_self, (hclean c hc).2⟩
        · obtain ⟨y, hy, hask⟩ := hsum.asked c hc
          exact ⟨y, List.mem_cons_of_mem _ hy, hask⟩

/-! ### The rules, kind by kind -/

/-- What is checked for two nodes, the first at `r1`: their parts, and the first type itself. -/
def Part (r1 : TypeId) (n1 n2 : TypeNode) (t : TypeId) : Prop :=
  t = r1 ∨ t ∈ TypeTable.parts n1 ∨ t ∈ TypeTable.parts n2

/-- What the verdict on two nodes, the first at `r1`, tells of the checks that it rests on. If it
    grants that the nodes fit, so do the parts that some rule needs; if it refuses what a rule
    allows, it is for a part that was refused. -/
structure Outcome (cx : Context) (r1 : TypeId) (n1 n2 : TypeNode) (v : Verdict)
    (calls : List Call) : Prop where
  parts : ∀ c ∈ calls, Part r1 n1 n2 c.left ∧ Part r1 n1 n2 c.right
  grants : ∀ how, v.Grants how →
    cx.scope.Rule how (fun a b => ∃ u, u.Grants how ∧ ⟨a, b, u⟩ ∈ calls) r1 n1 n2
  refuses : n1.Distinct → n2.Distinct → ∀ how, ¬ v.Grants how →
    (how = .lenient → cx.policy ≠ .error) → cx.scope.Rule how (cx.scope.Fits how) r1 n1 n2 →
    ∃ c ∈ calls, ¬ c.verdict.Grants how ∧ cx.scope.Fits how c.left c.right

/-- A verdict given without any check. -/
theorem Outcome.nil (hg : ∀ how, v.Grants how → cx.scope.Rule how (fun _ _ => False) r1 n1 n2)
    (hr : ∀ how, ¬ v.Grants how → (how = .lenient → cx.policy ≠ .error) →
      ¬ cx.scope.Rule how (cx.scope.Fits how) r1 n1 n2) : Outcome cx r1 n1 n2 v [] where
  parts := by simp
  grants how hv := (hg how hv).mono fun _ _ h => h.elim
  refuses _ _ how hv hp hrule := absurd hrule (hr how hv hp)

theorem special_run (h : special cx t1 t2 s = .ok v s') :
    s'.assumed = s.assumed ∧ v ≠ .ok ∧ (cx.policy ≠ .error → v ≠ .fail) := by
  cases hp : cx.policy with
  | silence =>
    simp only [special, hp, Action.pure_eq_ok] at h
    simp [← h.1, ← h.2]
  | warning =>
    simp only [special, hp, EStateM.Result.ok.injEq] at h
    simp [← h.1, ← h.2]
  | error =>
    simp only [special, hp, Action.pure_eq_ok] at h
    simp [← h.1, ← h.2]

/-- Checks two types, and goes on if they do not fit. -/
def attempt (check : TypeId → TypeId → Action State Verdict) (t1 t2 : TypeId)
    (next : Action State Verdict) : Action State Verdict := do
  let v ← check t1 t2
  if v.holds then return v else next

theorem attempt_run {next : Action State Verdict} (h : attempt check t1 t2 next s = .ok v s') :
    (v ≠ .fail ∧ check t1 t2 s = .ok v s') ∨
    ∃ s1, check t1 t2 s = .ok .fail s1 ∧ next s1 = .ok v s' := by
  simp only [attempt, Action.bind_eq_ok] at h
  obtain ⟨u, s1, hu, h⟩ := h
  split at h
  · next hh =>
    simp only [Action.pure_eq_ok] at h
    exact .inl ⟨h.1 ▸ Verdict.holds_iff.mp hh, h.1 ▸ h.2 ▸ hu⟩
  · next hh =>
    have hf : u = .fail := by cases u <;> simp_all [Verdict.holds]
    exact .inr ⟨s1, hf ▸ hu, h⟩

/-- The alternatives at an `opt` after the one for another `opt`. -/
def fitsContent (cx : Context) (check : TypeId → TypeId → Action State Verdict)
    (t1 t2 inner : TypeId) : Action State Verdict :=
  if cx.env.isOptional cx.store inner then special cx t1 t2
  else attempt check t1 inner (special cx t1 t2)

theorem fitsOpt_null (cx : Context) (t1 t2 inner : TypeId) :
    fitsOpt cx check t1 (.primitive .null) t2 inner = pure .ok := rfl

theorem fitsOpt_opt (cx : Context) (t1 t2 inner1 inner : TypeId) :
    fitsOpt cx check t1 (.opt inner1) t2 inner =
      attempt check inner1 inner (fitsContent cx check t1 t2 inner) := rfl

theorem fitsOpt_other (hnull : n1 ≠ .primitive .null) (hopt : ∀ i, n1 ≠ .opt i) (t2 inner : TypeId) :
    fitsOpt cx check t1 n1 t2 inner = fitsContent cx check t1 t2 inner := by
  cases n1 with
  | primitive p => exact if_neg hnull
  | opt i => exact absurd rfl (hopt i)
  | _ => rfl

/-- An `opt` never fits a type that is neither `reserved` nor an `opt`. -/
theorem not_fits_of_opt {inner1 inner : TypeId} (hs : cx.scope.StandsFor r1 r1 (.opt inner1))
    (ho : ¬ cx.scope.Optional inner) : ¬ cx.scope.Fits how r1 inner := by
  intro h
  rcases h.unfold with rfl | ⟨r, n, r', n', h1, h2, hr⟩
  · exact ho (hs.optional_iff.mpr (.inr (.inr ⟨_, rfl⟩)))
  · obtain rfl := hs.node_eq h1
    rw [h2.optional_iff] at ho
    cases hr <;> simp_all

theorem fitsContent_outcome {inner : TypeId} (h : fitsContent cx check r1 r2 inner s = .ok v s') :
    ∃ calls, Calls check s calls s' ∧ (∀ c ∈ calls, c.left = r1 ∧ c.right = inner) ∧
      (∀ how n1, v.Grants how →
        cx.scope.Rule how (fun a b => ∃ u, u.Grants how ∧ ⟨a, b, u⟩ ∈ calls) r1 n1 (.opt inner)) ∧
      (cx.policy ≠ .error → v ≠ .fail) ∧
      (v ≠ .ok → ¬ cx.scope.Optional inner → ∃ u, u ≠ .ok ∧ (v = .fail → u = .fail) ∧
        ⟨r1, inner, u⟩ ∈ calls) ∧
      (v = .ok → ¬ cx.scope.Optional inner ∧ check r1 inner s = .ok .ok s' ∧
        ∀ c ∈ calls, c.verdict = .ok) := by
  unfold fitsContent at h
  split at h
  · next ho =>
    obtain ⟨hs, hne, hpol⟩ := special_run h
    refine ⟨[], .done hs, by simp, fun how n1 hv => .special ?_, hpol, fun _ hno => absurd ho hno,
      fun hok => absurd hok hne⟩
    cases how with
    | strict => exact absurd hv hne
    | lenient => rfl
  · next ho =>
    rcases attempt_run h with ⟨hv, hc⟩ | ⟨s1, hc, hsp⟩
    · refine ⟨[⟨r1, inner, v⟩], .one hc, by simp, fun how n1 hg => .lift ho ⟨v, hg, by simp⟩,
        fun _ => hv, fun hok _ => ⟨v, hok, id, by simp⟩, fun hok => ⟨ho, hok ▸ hc, by simp [hok]⟩⟩
    · obtain ⟨hs, hne, hpol⟩ := special_run hsp
      refine ⟨[⟨r1, inner, .fail⟩], (Calls.one hc).append (.done hs), by simp,
        fun how n1 hg => .special ?_, hpol,
        fun _ _ => ⟨.fail, by simp, fun _ => rfl, by simp⟩, fun hok => absurd hok hne⟩
      cases how with
      | strict => exact absurd hg hne
      | lenient => rfl

/-- The content of one `opt` was refused at the content of another, and then the first `opt` itself
    was accepted there. -/
def Retried (cx : Context) (check : TypeId → TypeId → Action State Verdict) (s : State)
    (r1 : TypeId) (n1 n2 : TypeNode) : Prop :=
  ∃ inner1 inner s1 s2, n1 = .opt inner1 ∧ n2 = .opt inner ∧ ¬ cx.scope.Optional inner ∧
    check inner1 inner s = .ok .fail s1 ∧ check r1 inner s1 = .ok .ok s2

theorem fitsOpt_outcome {inner : TypeId} (hs1 : cx.scope.StandsFor r1 r1 n1)
    (hev : evident n1 (.opt inner) = false) (h : fitsOpt cx check r1 n1 r2 inner s = .ok v s') :
    ∃ calls, Calls check s calls s' ∧ Outcome cx r1 n1 (.opt inner) v calls ∧
      (v = .ok → (∀ c ∈ calls, c.verdict = .ok) ∨ Retried cx check s r1 n1 (.opt inner)) := by
  by_cases hnull : n1 = .primitive .null
  · subst hnull
    rw [fitsOpt_null, Action.pure_eq_ok] at h
    obtain ⟨rfl, rfl⟩ := h
    exact ⟨[], .refl s, .nil (fun _ _ => .null inner) fun how hv => absurd (by simp) hv, by simp⟩
  by_cases hopt : ∃ inner1, n1 = .opt inner1
  · obtain ⟨inner1, rfl⟩ := hopt
    rw [fitsOpt_opt] at h
    have hlift : ∀ how, ¬ cx.scope.Optional inner → ¬ cx.scope.Fits how r1 inner :=
      fun how => not_fits_of_opt hs1
    rcases attempt_run h with ⟨hv, hc⟩ | ⟨s1, hc, hrest⟩
    · refine ⟨[⟨inner1, inner, v⟩], .one hc,
        ⟨by simp [Part, TypeTable.parts], fun how hg => .opt ⟨v, hg, by simp⟩, ?_⟩,
        fun hok => .inl (by simp [hok])⟩
      intro _ _ how hg _ hrule
      cases hrule with
      | opt hf => exact ⟨⟨inner1, inner, v⟩, by simp, hg, hf⟩
      | lift ho hf => exact absurd hf (hlift how ho)
      | special hl => exact absurd (hl ▸ hv) hg
    · obtain ⟨calls, hcs, hparts, hgr, hpol, -, hok⟩ := fitsContent_outcome hrest
      refine ⟨⟨inner1, inner, .fail⟩ :: calls, (Calls.one hc).append hcs, ⟨?_, ?_, ?_⟩, fun hv => ?_⟩
      · rw [List.forall_mem_cons]
        exact ⟨by simp [Part, TypeTable.parts], fun c hc => by
          simp [Part, TypeTable.parts, (hparts c hc).1, (hparts c hc).2]⟩
      · intro how hg
        refine (hgr how (.opt inner1) hg).mono ?_
        rintro a b ⟨u, hu, hm⟩
        exact ⟨u, hu, List.mem_cons_of_mem _ hm⟩
      · intro _ _ how hg hp hrule
        cases hrule with
        | opt hf => exact ⟨_, List.mem_cons_self, by simp, hf⟩
        | lift ho hf => exact absurd hf (hlift how ho)
        | special hl => exact absurd (hl ▸ hpol (hp hl)) hg
      · obtain ⟨ho, hr, -⟩ := hok hv
        exact .inr ⟨inner1, inner, s1, s', rfl, rfl, ho, hc, hr⟩
  · rw [fitsOpt_other hnull fun i hi => hopt ⟨i, hi⟩] at h
    obtain ⟨calls, hcs, hparts, hgr, hpol, href, hok⟩ := fitsContent_outcome h
    refine ⟨calls, hcs, ⟨fun c hc => ?_, fun how => hgr how n1, ?_⟩, fun hv => .inl (hok hv).2.2⟩
    · simp [Part, TypeTable.parts, (hparts c hc).1, (hparts c hc).2]
    intro _ _ how hg hp hrule
    cases hrule with
    | empty => simp [evident] at hev
    | null => exact absurd rfl hnull
    | opt => exact absurd ⟨_, rfl⟩ hopt
    | lift ho hf =>
      have hne : v ≠ .ok := fun hv => hg (hv ▸ Verdict.ok_grants how)
      obtain ⟨u, hu, huf, hm⟩ := href hne ho
      refine ⟨_, hm, ?_, hf⟩
      cases how with
      | strict => exact hu
      | lenient => exact fun hn => hn (huf (by simpa [Verdict.Grants] using hg))
    | special hl => exact absurd (hl ▸ hpol (hp hl)) hg

section Lookup

variable {α β κ : Type} [DecidableEq κ] (keyA : α → κ) (keyB : β → κ)
  (sides : α → β → TypeId × TypeId) (spare : α → Bool) (ys : List β)

/-- What is asked of a member whose partner is looked up in `ys` by its key: a check of the two, or
    nothing if there is no partner, which is all right for those that can be spared. -/
def askPartner (a : α) : Question :=
  match ys.find? (keyB · = keyA a) with
  | some b => .check (sides a b).1 (sides a b).2
  | none => .plain (if spare a then .ok else .fail)

/-- Each member has a partner that `sub` relates it to, or can be spared. -/
def Partnered (sub : TypeId → TypeId → Prop) (xs : List α) : Prop :=
  ∀ a ∈ xs, (∃ b ∈ ys, keyB b = keyA a ∧ sub (sides a b).1 (sides a b).2) ∨
    (spare a = true ∧ ∀ b ∈ ys, keyB b ≠ keyA a)

theorem partners_calls (check : TypeId → TypeId → Action State Verdict)
    {test : α → Action State Verdict} {xs : List α}
    (htest : ∀ a, test a = (askPartner keyA keyB sides spare ys a).ask check)
    (h : all test .ok xs s = .ok v s') :
    ∃ calls, Calls check s calls s' ∧ (v = .ok → ∀ c ∈ calls, c.verdict = .ok) ∧
      (∀ c ∈ calls, ∃ a ∈ xs, ∃ b ∈ ys, (c.left, c.right) = sides a b) ∧
      (∀ how, v.Grants how →
        Partnered keyA keyB sides spare ys (fun a b => ∃ u, u.Grants how ∧ ⟨a, b, u⟩ ∈ calls) xs) ∧
      ((ys.map keyB).Nodup → ∀ how sub, ¬ v.Grants how → Partnered keyA keyB sides spare ys sub xs →
        ∃ c ∈ calls, ¬ c.verdict.Grants how ∧ sub c.left c.right) := by
  obtain ⟨calls, hcs, hsum⟩ := all_calls _ htest _ _ _ _ _ h
  refine ⟨calls, hcs, hsum.clean, fun c hc => ?_, fun how hg a ha => ?_, fun hnd how sub hg hall => ?_⟩
  · obtain ⟨a, ha, hask⟩ := hsum.asked c hc
    simp only [askPartner] at hask
    split at hask
    · next b hf =>
      simp only [Question.check.injEq] at hask
      exact ⟨a, ha, b, List.mem_of_find?_eq_some hf, by simp [← hask.1, ← hask.2]⟩
    · exact absurd hask (by simp)
  · obtain ⟨u, hu, hans⟩ := (hsum.grants how hg).2 a ha
    simp only [askPartner] at hans
    split at hans
    · next b hf =>
      exact .inl ⟨b, List.mem_of_find?_eq_some hf, by simpa using List.find?_some hf, u, hu, hans⟩
    · next hf =>
      refine .inr ⟨?_, fun b hb => by simpa using List.find?_eq_none.mp hf b hb⟩
      simp only [Question.Answered] at hans
      by_contra hspare
      rw [if_neg hspare] at hans
      exact Verdict.fail_grants how (hans ▸ hu)
  · obtain ⟨a, ha, u, hu, hans⟩ := (hsum.refuses how hg).resolve_left (by simp)
    rcases hall a ha with ⟨b, hb, hkey, hsub⟩ | ⟨hspare, hnone⟩
    · have hfind := find?_key keyB hnd hb
      simp only [hkey] at hfind
      simp only [askPartner, hfind] at hans
      exact ⟨_, hans, hu, hsub⟩
    · have hfind : ys.find? (keyB · = keyA a) = none := by simpa using hnone
      simp only [askPartner, hfind, hspare, if_true, Question.Answered] at hans
      exact absurd (Verdict.ok_grants how) (hans ▸ hu)

end Lookup

theorem fitsRecord_outcome {f1 f2 : List Field} (h : fitsRecord cx check f1 f2 s = .ok v s') :
    ∃ calls, Calls check s calls s' ∧ Outcome cx r1 (.record f1) (.record f2) v calls ∧
      (v = .ok → ∀ c ∈ calls, c.verdict = .ok) := by
  obtain ⟨calls, hcs, hclean, hparts, hgr, href⟩ := partners_calls
    (fun want : Field => want.label.id) (fun have1 : Field => have1.label.id)
    (fun want have1 => (have1.type, want.type))
    (fun want => cx.env.isOptional cx.store want.type) f1 check
    (fun want => by simp only [askPartner]; generalize f1.find? _ = o; cases o <;> rfl) h
  refine ⟨calls, hcs, ⟨fun c hc => ?_, fun how hg => .record (hgr how hg), ?_⟩, hclean⟩
  · obtain ⟨want, hw, have1, hm, hsides⟩ := hparts c hc
    rw [Prod.mk.injEq] at hsides
    exact ⟨.inr (.inl (hsides.1 ▸ List.mem_map_of_mem hm)),
      .inr (.inr (hsides.2 ▸ List.mem_map_of_mem hw))⟩
  · intro hd1 _ how hg _ hrule
    cases hrule with
    | record hall => exact href hd1 how _ hg hall

theorem fitsVariant_outcome {f1 f2 : List Field} (h : fitsVariant check f1 f2 s = .ok v s') :
    ∃ calls, Calls check s calls s' ∧ Outcome cx r1 (.variant f1) (.variant f2) v calls ∧
      (v = .ok → ∀ c ∈ calls, c.verdict = .ok) := by
  obtain ⟨calls, hcs, hclean, hparts, hgr, href⟩ := partners_calls
    (fun have1 : Field => have1.label.id) (fun want : Field => want.label.id)
    (fun have1 want => (have1.type, want.type)) (fun _ => false) f2 check
    (fun have1 => by simp only [askPartner]; generalize f2.find? _ = o; cases o <;> rfl) h
  refine ⟨calls, hcs, ⟨fun c hc => ?_, fun how hg => .variant ?_, ?_⟩, hclean⟩
  · obtain ⟨have1, hm, want, hw, hsides⟩ := hparts c hc
    rw [Prod.mk.injEq] at hsides
    exact ⟨.inr (.inl (hsides.1 ▸ List.mem_map_of_mem hm)),
      .inr (.inr (hsides.2 ▸ List.mem_map_of_mem hw))⟩
  · exact fun have1 hm => (hgr how hg have1 hm).resolve_right (by simp)
  · intro _ hd2 how hg _ hrule
    cases hrule with
    | variant hall => exact href hd2 how _ hg fun have1 hm => .inl (hall have1 hm)

theorem fitsService_outcome {m1 m2 : List Method} (h : fitsService check m1 m2 s = .ok v s') :
    ∃ calls, Calls check s calls s' ∧ Outcome cx r1 (.service m1) (.service m2) v calls ∧
      (v = .ok → ∀ c ∈ calls, c.verdict = .ok) := by
  obtain ⟨calls, hcs, hclean, hparts, hgr, href⟩ := partners_calls Method.name Method.name
    (fun want have1 => (have1.type, want.type)) (fun _ => false) m1 check
    (fun want => by simp only [askPartner]; generalize m1.find? _ = o; cases o <;> rfl) h
  refine ⟨calls, hcs, ⟨fun c hc => ?_, fun how hg => .service ?_, ?_⟩, hclean⟩
  · obtain ⟨want, hw, have1, hm, hsides⟩ := hparts c hc
    rw [Prod.mk.injEq] at hsides
    exact ⟨.inr (.inl (hsides.1 ▸ List.mem_map_of_mem hm)),
      .inr (.inr (hsides.2 ▸ List.mem_map_of_mem hw))⟩
  · exact fun want hw => (hgr how hg want hw).resolve_right (by simp)
  · intro hd1 _ how hg _ hrule
    cases hrule with
    | service hall => exact href hd1 how _ hg fun want hw => .inl (hall want hw)

theorem forall₂_iff_zip {α β : Type} {R : α → β → Prop} {xs : List α} {ys : List β} :
    List.Forall₂ R xs ys ↔ xs.length = ys.length ∧ ∀ p ∈ xs.zip ys, R p.1 p.2 := by
  rw [List.forall₂_iff_zip]
  exact and_congr_right fun _ => ⟨fun h p hp => h hp, fun h _ _ hp => h _ hp⟩

/-- The two lists of a function's check, and then its modes. -/
theorem fitsFunc_run {g1 g2 : Signature} (h : fitsFunc check g1 g2 s = .ok v s')
    (hargs : g1.args.length = g2.args.length) (hresults : g1.results.length = g2.results.length) :
    ∃ u s1, all (fun p => check p.2 p.1) .ok (g1.args.zip g2.args) s = .ok u s1 ∧
      ((u = .fail ∧ v = .fail ∧ s' = s1) ∨
        ∃ u', all (fun p => check p.1 p.2) u (g1.results.zip g2.results) s1 = .ok u' s' ∧
          v = if g1.modes = g2.modes then u' else .fail) := by
  simp only [fitsFunc, hargs, hresults, ne_eq, not_true_eq_false, or_self, if_false,
    Action.bind_eq_ok] at h
  obtain ⟨u, s1, hu, h⟩ := h
  refine ⟨u, s1, hu, ?_⟩
  split at h
  · next hf =>
    simp only [Action.pure_eq_ok] at h
    exact .inl ⟨hf, h.1.symm, h.2.symm⟩
  · simp only [Action.bind_eq_ok, Action.pure_eq_ok] at h
    obtain ⟨u', s2, hu', hv, rfl⟩ := h
    exact .inr ⟨u', hu', hv.symm⟩

theorem fitsFunc_outcome {g1 g2 : Signature} (h : fitsFunc check g1 g2 s = .ok v s') :
    ∃ calls, Calls check s calls s' ∧ Outcome cx r1 (.func g1) (.func g2) v calls ∧
      (v = .ok → ∀ c ∈ calls, c.verdict = .ok) := by
  by_cases hlen : g1.args.length = g2.args.length ∧ g1.results.length = g2.results.length
  · obtain ⟨u, s1, hu, hrest⟩ := fitsFunc_run h hlen.1 hlen.2
    obtain ⟨calls1, hc1, hsum1⟩ := all_calls
      (fun p : TypeId × TypeId => .check p.2 p.1) (fun _ => rfl) _ _ _ _ _ hu
    have hrefuse1 : ∀ how, ¬ u.Grants how → ∀ calls : List Call, (∀ c ∈ calls1, c ∈ calls) →
        cx.scope.Rule how (cx.scope.Fits how) r1 (.func g1) (.func g2) →
        ∃ c ∈ calls, ¬ c.verdict.Grants how ∧ cx.scope.Fits how c.left c.right := by
      intro how hg calls hsub hrule
      obtain ⟨p, hp, u', hu', ha⟩ := (hsum1.refuses how hg).resolve_left (by simp)
      cases hrule with
      | func hargs _ _ => exact ⟨_, hsub _ ha, hu', (forall₂_iff_zip.mp hargs).2 p hp⟩
    have hparts1 : ∀ c ∈ calls1, Part r1 (.func g1) (.func g2) c.left ∧
        Part r1 (.func g1) (.func g2) c.right := by
      intro c hc
      obtain ⟨p, hp, hask⟩ := hsum1.asked c hc
      rw [Question.check.injEq] at hask
      obtain ⟨hp1, hp2⟩ := List.of_mem_zip hp
      exact ⟨.inr (.inr (hask.1 ▸ List.mem_append_left _ hp2)),
        .inr (.inl (hask.2 ▸ List.mem_append_left _ hp1))⟩
    rcases hrest with ⟨rfl, rfl, rfl⟩ | ⟨u', hu', rfl⟩
    · exact ⟨calls1, hc1, ⟨hparts1, fun how hg => absurd hg (by simp), fun _ _ how hg _ hrule =>
        hrefuse1 how hg calls1 (fun _ => id) hrule⟩, by simp⟩
    · obtain ⟨calls2, hc2, hsum2⟩ := all_calls
        (fun p : TypeId × TypeId => .check p.1 p.2) (fun _ => rfl) _ _ _ _ _ hu'
      have hleft : ∀ c ∈ calls1, c ∈ calls1 ++ calls2 := fun c hc => List.mem_append_left _ hc
      have hright : ∀ c ∈ calls2, c ∈ calls1 ++ calls2 := fun c hc => List.mem_append_right _ hc
      refine ⟨calls1 ++ calls2, hc1.append hc2,
        ⟨fun c hc => ?_, fun how hg => ?_, fun _ _ how hg _ hrule => ?_⟩, ?_⟩
      · rcases List.mem_append.mp hc with hc | hc
        · exact hparts1 c hc
        · obtain ⟨p, hp, hask⟩ := hsum2.asked c hc
          rw [Question.check.injEq] at hask
          obtain ⟨hp1, hp2⟩ := List.of_mem_zip hp
          exact ⟨.inr (.inl (hask.1 ▸ List.mem_append_right _ hp1)),
            .inr (.inr (hask.2 ▸ List.mem_append_right _ hp2))⟩
      · split at hg
        · next hmodes =>
          obtain ⟨hu, h2⟩ := hsum2.grants how hg
          obtain ⟨-, h1⟩ := hsum1.grants how hu
          refine .func (forall₂_iff_zip.mpr ⟨hlen.1, fun p hp => ?_⟩)
            (forall₂_iff_zip.mpr ⟨hlen.2, fun p hp => ?_⟩) hmodes
          · obtain ⟨w, hw, ha⟩ := h1 p hp
            exact ⟨w, hw, hleft _ ha⟩
          · obtain ⟨w, hw, ha⟩ := h2 p hp
            exact ⟨w, hw, hright _ ha⟩
        · exact absurd hg (by simp)
      · have hrule' := hrule
        cases hrule' with
        | func _ hresults hmodes =>
          rw [if_pos hmodes] at hg
          rcases hsum2.refuses how hg with hu | ⟨p, hp, w, hw, ha⟩
          · exact hrefuse1 how hu _ hleft hrule
          · exact ⟨_, hright _ ha, hw, (forall₂_iff_zip.mp hresults).2 p hp⟩
      · intro hok c hc
        have hu'ok : u' = .ok := by
          split at hok
          · exact hok
          · exact absurd hok (by simp)
        rcases List.mem_append.mp hc with hc | hc
        · exact hsum1.clean (hsum2.grants .strict hu'ok).1 c hc
        · exact hsum2.clean hu'ok c hc
  · have hne : g1.args.length ≠ g2.args.length ∨ g1.results.length ≠ g2.results.length := by tauto
    simp only [fitsFunc, hne, if_true, Action.pure_eq_ok] at h
    obtain ⟨rfl, rfl⟩ := h
    refine ⟨[], .refl s, .nil (fun how hg => absurd hg (by simp)) fun how _ _ hrule => ?_, by simp⟩
    cases hrule with
    | func ha hr _ => exact absurd ⟨ha.length_eq, hr.length_eq⟩ hlen

@[simp] theorem evident_reserved (n : TypeNode) : evident n (.primitive .reserved) = true := by
  unfold evident
  rfl

@[simp] theorem evident_empty (n : TypeNode) : evident (.primitive .empty) n = true := by
  unfold evident
  split <;> simp_all

@[simp] theorem evident_widen : evident (.primitive .nat) (.primitive .int) = true := rfl

@[simp] theorem evident_self (p : Primitive) : evident (.primitive p) (.primitive p) = true := by
  unfold evident
  split <;> simp_all

/-- What a check of two nodes that are no names does, and what its verdict tells. -/
theorem fitsNodes_outcome (hs1 : cx.scope.StandsFor r1 r1 n1)
    (h : fitsNodes cx check r1 n1 r2 n2 s = .ok v s') :
    ∃ calls, Calls check s calls s' ∧ Outcome cx r1 n1 n2 v calls ∧
      (v = .ok → (∀ c ∈ calls, c.verdict = .ok) ∨ Retried cx check s r1 n1 n2) := by
  unfold fitsNodes at h
  split at h
  · next hev =>
    simp only [Action.pure_eq_ok] at h
    obtain ⟨rfl, rfl⟩ := h
    refine ⟨[], .refl s, .nil (fun how _ => ?_) fun how hg => absurd (by simp) hg, by simp⟩
    unfold evident at hev
    split at hev
    · exact .reserved _
    · exact .empty _
    · exact .widen
    · simp only [decide_eq_true_eq] at hev
      exact hev ▸ .primitive _
    · exact absurd hev (by simp)
  · next hev =>
    rw [Bool.not_eq_true] at hev
    split at h
    · refine ⟨[⟨_, _, v⟩], .one h,
        ⟨by simp [Part, TypeTable.parts], fun how hg => .vec ⟨v, hg, by simp⟩, ?_⟩,
        fun hv => .inl (by simp [hv])⟩
      intro _ _ how hg _ hrule
      cases hrule with
      | vec hf => exact ⟨_, List.mem_singleton_self _, hg, hf⟩
    · exact fitsOpt_outcome hs1 hev h
    · obtain ⟨calls, hcs, ho, hclean⟩ := fitsRecord_outcome h
      exact ⟨calls, hcs, ho, fun hv => .inl (hclean hv)⟩
    · obtain ⟨calls, hcs, ho, hclean⟩ := fitsVariant_outcome h
      exact ⟨calls, hcs, ho, fun hv => .inl (hclean hv)⟩
    · obtain ⟨calls, hcs, ho, hclean⟩ := fitsFunc_outcome h
      exact ⟨calls, hcs, ho, fun hv => .inl (hclean hv)⟩
    · obtain ⟨calls, hcs, ho, hclean⟩ := fitsService_outcome h
      exact ⟨calls, hcs, ho, fun hv => .inl (hclean hv)⟩
    · next hopt hvec hrec hvar hfunc hserv =>
      simp only [Action.pure_eq_ok] at h
      obtain ⟨rfl, rfl⟩ := h
      refine ⟨[], .refl s, .nil (fun how hg => absurd hg (by simp)) fun how _ _ hrule => ?_, by simp⟩
      cases hrule with
      | reserved | empty | widen | primitive => simp at hev
      | vec => exact (hvec _ _ rfl rfl).elim
      | null | opt | lift | special => exact (hopt _ rfl).elim
      | record => exact (hrec _ _ rfl rfl).elim
      | variant => exact (hvar _ _ rfl rfl).elim
      | func => exact (hfunc _ _ rfl rfl).elim
      | service => exact (hserv _ _ rfl rfl).elim

end Subtype

end TypedWire
