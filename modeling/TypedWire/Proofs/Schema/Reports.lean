import TypedWire.Proofs.Schema.Exact
import TypedWire.Proofs.Schema.Stepwise

/-! What a check reports. Whether misfits at an `opt` are reported or passed over in silence makes no
    difference to the verdict and to what is assumed. A check that starts with nothing assumed reports
    one if the verdict is special, and none if it is plain: what is reported in a part that is refused in
    the end is not forgotten without a special verdict or a refusal of the whole. -/

namespace TypedWire.Subtype

open TypedWire.Action

variable {cx : Context} {check : TypeId → TypeId → Action State Verdict} {depth : Nat}
variable {s s1 s' : State} {u v acc : Verdict} {t1 t2 a b : TypeId} {n1 n2 : TypeNode} {P : Event → Prop}

/-! ### Silence and warnings -/

/-- From states that assume the same, the second run ends as the first does, in a state that assumes the
    same. -/
def Alike (x y : Action State Verdict) : Prop :=
  ∀ s k, s.assumed = k.assumed → Runs x s
    (fun v s' => ∃ k', y k = .ok v k' ∧ s'.assumed = k'.assumed)
    fun e s' => ∃ k', y k = .error e k' ∧ s'.assumed = k'.assumed

theorem statewise_alike : Statewise Alike where
  answer _ _ k hsame := runs_pure ⟨k, rfl, hsame⟩
  fault _ _ k hsame := runs_fail ⟨k, rfl, hsame⟩
  seq h hf s k hsame := by
    refine runs_bind ((h s k hsame).mono ?_ ?_)
    · rintro v s1 ⟨k1, hy, hsame1⟩
      rw [bind_run hy]
      exact hf v s1 k1 hsame1
    · rintro e s' ⟨k', hy, hsame'⟩
      exact ⟨k', bind_eq_error.mpr (.inl hy), hsame'⟩
  look {x x' y y'} test hx hy s k hsame := by
    have hrun : (do if test (← get).assumed then y else y' : Action State Verdict) k =
        (if test k.assumed then y else y') k := rfl
    refine runs_bind (runs_of_ok rfl ?_)
    rw [hrun, ← hsame]
    split
    · exact hx s k hsame
    · exact hy s k hsame
  change edit h s k hsame :=
    runs_bind (runs_of_ok rfl (h _ { k with assumed := edit k.assumed } (congrArg edit hsame)))

/-- A check that keeps silence and one that warns. -/
theorem alike_fits (store : Store) (env : Env) (topics topics' : Topics) : ∀ (depth : Nat) (t1 t2 : TypeId),
    Alike (fits ⟨store, env, .silence, topics⟩ depth t1 t2)
      (fits ⟨store, env, .warning, topics'⟩ depth t1 t2)
  | 0, t1, t2 => by
    unfold fits
    split
    · exact statewise_alike.answer _
    · exact statewise_alike.fault _
  | depth + 1, t1, t2 =>
    statewise_alike.fitsLevel rfl (alike_fits store env topics topics' depth) fun _ _ _ _ _ _ =>
      fun _ _ hsame => runs_of_ok rfl ⟨_, rfl, hsame⟩

/-- Where two runs are alike, they have the same answer and leave the same assumptions. -/
theorem Alike.outcome {x y : Action State Verdict} (h : Alike x y) {k : State}
    (hsame : s.assumed = k.assumed) :
    (x.outcome s).1 = (y.outcome k).1 ∧ (x.outcome s).2.assumed = (y.outcome k).2.assumed := by
  unfold Action.outcome
  rcases (h s k hsame).ends with ⟨v, s', hx, k', hy, hsame'⟩ | ⟨e, s', hx, k', hy, hsame'⟩
  · rw [hx, hy]
    exact ⟨rfl, hsame'⟩
  · rw [hx, hy]
    exact ⟨rfl, hsame'⟩

/-! ### What is reported -/

/-- More was reported, all of it as `P` says. -/
def Adds (P : Event → Prop) (s s' : State) : Prop :=
  ∃ told : Array Event, s'.log = s.log ++ told ∧ ∀ e ∈ told, P e

theorem Adds.of_log (h : s'.log = s.log) : Adds P s s' := ⟨#[], by simpa using h, by simp⟩

theorem Adds.one {e : Event} (h : P e) : Adds P s { s with log := s.log.push e } :=
  ⟨#[e], rfl, by simpa using h⟩

instance : IsPreorder State (Adds P) where
  refl _ := .of_log rfl
  trans := by
    rintro s s1 s' ⟨told, hlog, htold⟩ ⟨told', hlog', htold'⟩
    refine ⟨told ++ told', by rw [hlog', hlog, Array.append_assoc], fun e he => ?_⟩
    exact (Array.mem_append.mp he).elim (htold e) (htold' e)

theorem adds_note (h : P (.optSpecial t1 t2)) (s : State) :
    Adds P s { s with log := cx.topics.note s.log (.optSpecial t1 t2) } := by
  unfold Topics.note
  split
  · exact .one h
  · exact .of_log rfl

/-- A misfit that may be reported: a type that is not `null` at another type, which is an `opt`. -/
def Misfit (store : Store) (a b : TypeId) : Prop :=
  a ≠ b ∧ (∃ inner, store.typeAt b = .ok (.opt inner)) ∧
    ∃ n, store.typeAt a = .ok n ∧ n ≠ .primitive .null

/-- An event that tells of a misfit. -/
def TellsMisfit (store : Store) (e : Event) : Prop := ∃ a b, e = .optSpecial a b ∧ Misfit store a b

/-- However a check ends, what it has reported are misfits. -/
theorem leads_misfits (cx : Context) : ∀ (depth : Nat) (t1 t2 : TypeId) (s : State),
    Leads (Adds (TellsMisfit cx.store)) (fits cx depth t1 t2) s fun _ _ => True
  | 0, t1, t2, s => by
    unfold fits
    split
    · exact leads_pure trivial
    · exact leads_fail
  | depth + 1, t1, t2, s => by
    have hstep : Statewise (Keeps (Adds (TellsMisfit cx.store))) := statewise_keeps fun _ _ => .of_log
    refine (hstep.fitsLevel rfl (fun t1 t2 => ⟨rfl, leads_misfits cx depth t1 t2⟩) ?_).2 s
    intro n1 inner hne h1 hnull h2
    exact keeps_special (adds_note ⟨t1, t2, rfl, hne, ⟨inner, h2⟩, n1, h1, hnull⟩)

/-! ### Pairs that a check comes to -/

/-- The check of one pair is barred: it gives up, for a cause that no check gives up for. -/
def barred (a b : TypeId) (check : TypeId → TypeId → Action State Verdict) (t1 t2 : TypeId) :
    Action State Verdict :=
  if t1 = a ∧ t2 = b then fail .unsupported else check t1 t2

/-- The same check with one pair barred, at every level. -/
def fitsBarred (cx : Context) (a b : TypeId) : (depth : Nat) → TypeId → TypeId → Action State Verdict
  | 0 => barred a b (fits cx 0)
  | depth + 1 => barred a b (fitsLevel cx (fitsBarred cx a b depth))

/-- The check of `t1` and `t2` comes to the pair of `a` and `b`: it does not get past that pair if it is
    barred. -/
def Visits (cx : Context) (depth : Nat) (t1 t2 : TypeId) (s : State) (a b : TypeId) : Prop :=
  ((fitsBarred cx a b depth t1 t2).outcome s).1 = .error .unsupported

section Avoids

variable {α β : Type} {x y : Action State α} {f g : α → Action State β}

/-- The second run gives up at what is barred, or does the same as the first, which has not reported
    the pair. -/
def Avoids (a b : TypeId) (x y : Action State α) : Prop :=
  ∀ s, (∃ s', y s = .error .unsupported s') ∨
    y s = x s ∧ Leads (Adds (· ≠ .optSpecial a b)) x s fun _ _ => True

theorem avoids_refl (h : ∀ s, Leads (Adds (· ≠ .optSpecial a b)) x s fun _ _ => True) :
    Avoids a b x x :=
  fun s => .inr ⟨rfl, h s⟩

theorem avoids_pure (c : α) : Avoids a b (pure c) (pure c) := avoids_refl fun _ => leads_pure trivial

theorem avoids_fail (e : Fault) : Avoids a b (fail e : Action State α) (fail e) :=
  avoids_refl fun _ => leads_fail

theorem Avoids.bind (h : Avoids a b x y) (hf : ∀ c, Avoids a b (f c) (g c)) :
    Avoids a b (x >>= f) (y >>= g) := by
  intro s
  rcases h s with ⟨s', hy⟩ | ⟨hsame, hx⟩
  · exact .inl ⟨s', bind_eq_error.mpr (.inl hy)⟩
  rcases hx.ends with ⟨c, s1, hc, hadds, -⟩ | ⟨e, s1, he, hadds⟩
  · rcases hf c s1 with ⟨s', hg⟩ | ⟨hsame', hfc⟩
    · exact .inl ⟨s', bind_eq_error.mpr (.inr ⟨c, s1, hsame.trans hc, hg⟩)⟩
    · have hrun : (y >>= g) s = (x >>= f) s := by rw [bind_run (hsame.trans hc), hsame', bind_run hc]
      exact .inr ⟨hrun, runs_bind (runs_of_ok hc (hfc.after hadds))⟩
  · have hx : (x >>= f) s = .error e s1 := bind_eq_error.mpr (.inl he)
    have hy : (y >>= g) s = .error e s1 := bind_eq_error.mpr (.inl (hsame.trans he))
    exact .inr ⟨hy.trans hx.symm, runs_of_error hx hadds⟩

end Avoids

theorem statewise_avoids (a b : TypeId) : Statewise (Avoids a b) where
  answer := avoids_pure
  seq := Avoids.bind
  fault := avoids_fail
  look test hx hy := by
    refine (avoids_refl (x := get) fun s => runs_of_ok rfl ⟨.of_log rfl, trivial⟩).bind fun s => ?_
    split
    · exact hx
    · exact hy
  change edit h := (avoids_refl (x := modify fun s => { s with assumed := edit s.assumed })
    fun s => runs_of_ok rfl ⟨.of_log rfl, trivial⟩).bind fun _ => h

theorem avoids_barred {check' : TypeId → TypeId → Action State Verdict}
    (h : ¬ (t1 = a ∧ t2 = b) → Avoids a b (check t1 t2) (check' t1 t2)) :
    Avoids a b (check t1 t2) (barred a b check' t1 t2) := by
  unfold barred
  split
  · exact fun s => .inl ⟨s, rfl⟩
  · next hother => exact h hother

theorem avoids_fits (cx : Context) (a b : TypeId) : ∀ (depth : Nat) (t1 t2 : TypeId),
    Avoids a b (fits cx depth t1 t2) (fitsBarred cx a b depth t1 t2)
  | 0, t1, t2 => avoids_barred fun _ => by
    unfold fits
    split
    · exact avoids_pure _
    · exact avoids_fail _
  | depth + 1, t1, t2 => avoids_barred fun hother => by
    refine (statewise_avoids a b).fitsLevel rfl (avoids_fits cx a b depth) fun _ _ _ _ _ _ => ?_
    refine avoids_refl (keeps_special (adds_note ?_)).2
    rintro ⟨rfl, rfl⟩
    exact hother ⟨rfl, rfl⟩

/-- A check reports no pair that it does not come to. -/
theorem visits_of_reported (hlog : .optSpecial a b ∉ s.log)
    (h : .optSpecial a b ∈ ((fits cx depth t1 t2).outcome s).2.log) : Visits cx depth t1 t2 s a b := by
  rcases avoids_fits cx a b depth t1 t2 s with ⟨s', hbar⟩ | ⟨-, hled⟩
  · simp only [Visits, outcome, hbar]
  · obtain ⟨told, happend, htold⟩ := hled.outcome
    rw [happend] at h
    exact ((Array.mem_append.mp h).elim hlog fun htell => htold _ htell rfl).elim

/-! ### Reports and verdicts -/

/-- A run on from the verdict `acc` to the verdict `v`. If that is plain, then it was plain before and
    nothing was reported; if it is special, then it was so before or something was reported. -/
structure Told (acc : Verdict) (s : State) (v : Verdict) (s' : State) : Prop where
  grows : s.log.size ≤ s'.log.size
  plain : v = .ok → acc = .ok ∧ s'.log = s.log
  special : v = .optSpecial → acc = .optSpecial ∨ s.log.size < s'.log.size

theorem Told.refl (v : Verdict) (s : State) : Told v s v s := ⟨Nat.le_refl _, fun h => ⟨h, rfl⟩, .inl⟩

theorem told_refused (h : s.log.size ≤ s'.log.size) : Told acc s .fail s' := ⟨h, by simp, by simp⟩

theorem Told.of_ne_special (h : v ≠ .optSpecial) (s : State) : Told .ok s v s := by
  cases v with
  | ok => exact .refl _ _
  | fail => exact told_refused (Nat.le_refl _)
  | optSpecial => exact absurd rfl h

theorem Told.step (h : Told .ok s u s1) (h' : Told (acc.and u) s1 v s') : Told acc s v s' where
  grows := Nat.le_trans h.grows h'.grows
  plain hv := by
    obtain ⟨hand, hlog⟩ := h'.plain hv
    obtain ⟨hacc, hu⟩ := Verdict.and_eq_ok.mp hand
    exact ⟨hacc, hlog.trans (h.plain hu).2⟩
  special hv := by
    rcases h'.special hv with hand | hlt
    · have hor : acc = .optSpecial ∨ u = .optSpecial := by
        cases acc <;> cases u <;> simp_all [Verdict.and]
      refine hor.imp_right fun hu => ?_
      exact Nat.lt_of_lt_of_le ((h.special hu).resolve_left (by simp)) h'.grows
    · exact .inr (Nat.lt_of_le_of_lt h.grows hlt)

/-- What was refused before does not matter for a verdict that is not plain. -/
theorem Told.after (h : Told .ok s u s1) (h' : Told .ok s1 v s') (hne : v ≠ .ok) : Told .ok s v s' where
  grows := Nat.le_trans h.grows h'.grows
  plain hv := absurd hv hne
  special hv := (h'.special hv).imp_right (Nat.lt_of_le_of_lt h.grows)

/-- From a sane state the check reports as its verdict says. -/
def Tells (w : Scope) (x : Action State Verdict) : Prop :=
  ∀ s v s', s.Sane w → x s = .ok v s' → Told .ok s v s' ∧ s'.Sane w

theorem tells_pure {w : Scope} (h : v ≠ .optSpecial) : Tells w (pure v) := by
  intro s u s' hs hrun
  obtain ⟨rfl, rfl⟩ := Action.pure_eq_ok.mp hrun
  exact ⟨.of_ne_special h s, hs⟩

theorem told_all {w : Scope} {α : Type} {test : α → Action State Verdict} (htest : ∀ x, Tells w (test x)) :
    ∀ (xs : List α) (acc : Verdict) (s : State) (v : Verdict) (s' : State), s.Sane w →
      all test acc xs s = .ok v s' → Told acc s v s' ∧ s'.Sane w
  | [], acc, s, v, s', hs, h => by
    obtain ⟨rfl, rfl⟩ := Action.pure_eq_ok.mp h
    exact ⟨.refl _ _, hs⟩
  | x :: xs, acc, s, v, s', hs, h => by
    simp only [all, Action.bind_eq_ok] at h
    obtain ⟨u, s1, hu, h⟩ := h
    obtain ⟨htold, hs1⟩ := htest x s u s1 hs hu
    by_cases hand : acc.and u = .fail
    · simp only [hand, Action.pure_eq_ok] at h
      obtain ⟨rfl, rfl⟩ := h
      exact ⟨told_refused htold.grows, hs1⟩
    · have hrest : all test (acc.and u) xs s1 = .ok v s' := by
        cases hv : acc.and u <;> simp_all
      obtain ⟨hsaid, hs'⟩ := told_all htest xs _ s1 v s' hs1 hrest
      exact ⟨htold.step hsaid, hs'⟩

theorem tells_all {w : Scope} {α : Type} {test : α → Action State Verdict} (htest : ∀ x, Tells w (test x))
    (xs : List α) : Tells w (all test .ok xs) :=
  fun s v s' => told_all htest xs .ok s v s'

theorem tells_fitsFunc {w : Scope} (hcheck : ∀ t1 t2, Tells w (check t1 t2)) (f1 f2 : Signature) :
    Tells w (fitsFunc check f1 f2) := by
  unfold fitsFunc
  split
  · exact tells_pure (by simp)
  intro s v s' hs h
  obtain ⟨u, s1, hu, h⟩ := Action.bind_eq_ok.mp h
  obtain ⟨hargs, hs1⟩ := tells_all (fun p : TypeId × TypeId => hcheck p.2 p.1) _ _ _ _ hs hu
  split at h
  · obtain ⟨rfl, rfl⟩ := Action.pure_eq_ok.mp h
    exact ⟨told_refused hargs.grows, hs1⟩
  obtain ⟨u', s2, hu', h⟩ := Action.bind_eq_ok.mp h
  obtain ⟨hresults, hs2⟩ := told_all (fun p : TypeId × TypeId => hcheck p.1 p.2) _ _ _ _ _ hs1 hu'
  obtain ⟨rfl, rfl⟩ := Action.pure_eq_ok.mp h
  have hboth : Told .ok s u' s2 := hargs.step (by cases u <;> exact hresults)
  split
  · exact ⟨hboth, hs2⟩
  · exact ⟨told_refused hboth.grows, hs2⟩

section Warned

variable (hpolicy : cx.policy = .warning) (htopics : cx.topics.subtype = true)

include hpolicy htopics

theorem told_special (h : special cx t1 t2 s = .ok v s') :
    v = .optSpecial ∧ s.log.size < s'.log.size ∧ s'.assumed = s.assumed := by
  simp only [special, hpolicy, Topics.note, Topics.cover, htopics, if_true, EStateM.Result.ok.injEq] at h
  obtain ⟨rfl, rfl⟩ := h
  exact ⟨rfl, by simp, rfl⟩

theorem tells_special (t1 t2 : TypeId) : Tells cx.scope (special cx t1 t2) := by
  intro s v s' hs h
  obtain ⟨rfl, hlt, hassumed⟩ := told_special hpolicy htopics h
  exact ⟨⟨Nat.le_of_lt hlt, by simp, fun _ => .inr hlt⟩, hs.of_assumed hassumed⟩

theorem tells_fitsContent (hcheck : ∀ t1 t2, Tells cx.scope (check t1 t2)) (t1 t2 inner : TypeId) :
    Tells cx.scope (fitsContent cx check t1 t2 inner) := by
  unfold fitsContent
  split
  · exact tells_special hpolicy htopics t1 t2
  intro s v s' hs h
  rcases attempt_run h with ⟨-, hc⟩ | ⟨s1, hc, hsp⟩
  · exact hcheck _ _ _ _ _ hs hc
  · obtain ⟨htold, hs1⟩ := hcheck _ _ _ _ _ hs hc
    obtain ⟨hsaid, hs'⟩ := tells_special hpolicy htopics _ _ _ _ _ hs1 hsp
    exact ⟨htold.after hsaid (by simp [(told_special hpolicy htopics hsp).1]), hs'⟩

/-- Where the content was refused, a plain verdict would be owed to the `opt` itself; but that is never
    accepted where its content was not. -/
theorem tells_fitsOpt (hcheck : ∀ t1 t2, Tells cx.scope (fits cx depth t1 t2))
    (h1 : cx.scope.StandsFor t1 t1 n1) (t2 inner : TypeId) :
    Tells cx.scope (fitsOpt cx (fits cx depth) t1 n1 t2 inner) := by
  by_cases hnull : n1 = .primitive .null
  · subst hnull
    rw [fitsOpt_null]
    exact tells_pure (by simp)
  by_cases hopt : ∃ inner1, n1 = .opt inner1
  · obtain ⟨inner1, rfl⟩ := hopt
    rw [fitsOpt_opt]
    intro s v s' hs h
    rcases attempt_run h with ⟨-, hc⟩ | ⟨s1, hc, hrest⟩
    · exact hcheck _ _ _ _ _ hs hc
    · obtain ⟨htold, hs1⟩ := hcheck _ _ _ _ _ hs hc
      obtain ⟨hsaid, hs'⟩ := tells_fitsContent hpolicy htopics hcheck _ _ _ _ _ _ hs1 hrest
      refine ⟨htold.after hsaid ?_, hs'⟩
      rintro rfl
      obtain ⟨_, -, -, -, -, -, hok⟩ := fitsContent_outcome hrest
      obtain ⟨ho, hretry, -⟩ := hok rfl
      have hretried : Retried cx (fits cx depth) s t1 (.opt inner1) (.opt inner) :=
        ⟨inner1, inner, s1, s', rfl, rfl, ho, hc, hretry⟩
      exact not_retried hs h1 hretried
  · rw [fitsOpt_other hnull fun i hi => hopt ⟨i, hi⟩]
    exact tells_fitsContent hpolicy htopics hcheck t1 t2 inner

theorem tells_fitsNodes (hcheck : ∀ t1 t2, Tells cx.scope (fits cx depth t1 t2))
    (h1 : cx.scope.StandsFor t1 t1 n1) (t2 : TypeId) (n2 : TypeNode) :
    Tells cx.scope (fitsNodes cx (fits cx depth) t1 n1 t2 n2) := by
  unfold fitsNodes
  split
  · exact tells_pure (by simp)
  split
  · exact hcheck _ _
  · exact tells_fitsOpt hpolicy htopics hcheck h1 t2 _
  · refine tells_all (fun want => ?_) _
    split
    · exact hcheck _ _
    · exact tells_pure (by split <;> simp)
  · refine tells_all (fun have1 => ?_) _
    split
    · exact hcheck _ _
    · exact tells_pure (by simp)
  · exact tells_fitsFunc hcheck _ _
  · refine tells_all (fun want => ?_) _
    split
    · exact hcheck _ _
    · exact tells_pure (by simp)
  · exact tells_pure (by simp)

theorem tells_fits : ∀ (depth : Nat) (t1 t2 : TypeId), Tells cx.scope (fits cx depth t1 t2)
  | depth, t1, t2 => by
    intro s v s' hs h
    refine ⟨?_, fits_sane depth t1 t2 v s s' hs h⟩
    by_cases hh : Hopeless cx.scope t1 t2
    · obtain ⟨rfl, rfl⟩ := hopeless_refused hs hh h
      exact .of_ne_special (by simp) _
    rcases fits_run h with ⟨-, rfl, rfl⟩ | ⟨d, rfl, -, ⟨n1, n2, h1, -, hn⟩ | ⟨-, hn⟩⟩
    · exact .refl _ _
    · exact (tells_fitsNodes hpolicy htopics (tells_fits d) h1 _ _ _ _ _ hs hn).1
    · rcases fitsNames_run hn with ⟨-, rfl, rfl⟩ | ⟨rfl, rfl, -⟩ | ⟨-, r1, m1, r2, m2, s1, -, -, hc, rfl⟩
      · exact .refl _ _
      · exact .of_ne_special (by simp) _
      · have htold := (tells_fits d _ _ _ _ _ (hs.assume hh) hc).1
        split
        · exact ⟨htold.grows, htold.plain, htold.special⟩
        · exact ⟨htold.grows, htold.plain, htold.special⟩

end Warned

/-- What is reported by a check that begins with nothing assumed. -/
theorem reported (hpolicy : cx.policy = .warning) (htopics : cx.topics.subtype = true)
    {answer : Except Fault Verdict} (h : (fits cx depth t1 t2).outcome {} = (answer, s')) :
    (answer = .ok .ok → s'.log = #[]) ∧ (answer = .ok .optSpecial → s'.log ≠ #[]) ∧
      ∀ e ∈ s'.log, ∃ a b, e = .optSpecial a b ∧ Visits cx depth t1 t2 {} a b ∧
        Misfit cx.store a b := by
  have hsane : State.Sane cx.scope {} := fun a b hab => absurd hab (by simp [State.Assumes])
  have htold : ∀ v, answer = .ok v → Told .ok {} v s' := by
    rintro v rfl
    exact (tells_fits hpolicy htopics depth t1 t2 _ _ _ hsane (outcome_eq_ok.mp h)).1
  obtain rfl : ((fits cx depth t1 t2).outcome {}).2 = s' := congrArg Prod.snd h
  refine ⟨fun hv => ((htold _ hv).plain rfl).2, fun hv hempty => ?_, fun e he => ?_⟩
  · have hlt := ((htold _ hv).special rfl).resolve_left (by simp)
    rw [hempty] at hlt
    exact absurd hlt (Nat.lt_irrefl _)
  · obtain ⟨told, hlog, htells⟩ := (leads_misfits cx depth t1 t2 {}).outcome
    obtain ⟨a, b, rfl, hmisfit⟩ := htells e (by simpa [hlog] using he)
    exact ⟨a, b, rfl, visits_of_reported (by simp) he, hmisfit⟩

/-- Silence and warnings make no difference to the answer of a check and to what it leaves assumed. With
    warnings that are listened to, and with nothing assumed in the beginning, a plain verdict comes
    without any report and a special one with a report at least. However the check ends, each report is
    of a pair that the check came to: of a type that is not `null` and another type that is an `opt`. -/
theorem fits_reports (store : Store) (env : Env) (topics topics' : Topics) (depth : Nat) (t1 t2 : TypeId) :
    (((fits ⟨store, env, .silence, topics⟩ depth t1 t2).outcome {}).1 =
        ((fits ⟨store, env, .warning, topics'⟩ depth t1 t2).outcome {}).1 ∧
      ((fits ⟨store, env, .silence, topics⟩ depth t1 t2).outcome {}).2.assumed =
        ((fits ⟨store, env, .warning, topics'⟩ depth t1 t2).outcome {}).2.assumed) ∧
    ∀ (answer : Except Fault Verdict) (s' : State), topics'.subtype = true →
      (fits ⟨store, env, .warning, topics'⟩ depth t1 t2).outcome {} = (answer, s') →
      (answer = .ok .ok → s'.log = #[]) ∧ (answer = .ok .optSpecial → s'.log ≠ #[]) ∧
      ∀ e ∈ s'.log, ∃ a b, e = .optSpecial a b ∧
        Visits ⟨store, env, .warning, topics'⟩ depth t1 t2 {} a b ∧ Misfit store a b :=
  ⟨(alike_fits store env topics topics' depth t1 t2).outcome rfl,
    fun _ _ htopics h => reported rfl htopics h⟩

/-- Two records whose only fields are an `opt` of a number and one of a text. -/
def misfitFields : Store where
  types := #[.primitive .nat, .primitive .text, .opt ⟨0⟩, .opt ⟨1⟩, .record [⟨.bare 0, ⟨2⟩⟩],
    .record [⟨.bare 0, ⟨3⟩⟩]]

/-- The records fit but for the field, and the types of the field are what is reported. -/
theorem misfitFields_reported :
    (fits ⟨misfitFields, {}, .warning, .warnings⟩ 512 ⟨4⟩ ⟨5⟩).outcome {} =
      (.ok .optSpecial, ⟨{}, #[.optSpecial ⟨2⟩ ⟨3⟩]⟩) ∧
    ((fits ⟨misfitFields, {}, .silence, {}⟩ 512 ⟨4⟩ ⟨5⟩).outcome {}).1 = .ok .optSpecial ∧
    Visits ⟨misfitFields, {}, .warning, .warnings⟩ 512 ⟨4⟩ ⟨5⟩ {} ⟨2⟩ ⟨3⟩ ∧
    ¬ Visits ⟨misfitFields, {}, .warning, .warnings⟩ 512 ⟨4⟩ ⟨5⟩ {} ⟨3⟩ ⟨2⟩ := by
  have hrun : (fits ⟨misfitFields, {}, .warning, .warnings⟩ 512 ⟨4⟩ ⟨5⟩).outcome {} =
      (.ok .optSpecial, ⟨{}, #[.optSpecial ⟨2⟩ ⟨3⟩]⟩) := rfl
  obtain ⟨⟨hsame, -⟩, hall⟩ := fits_reports misfitFields {} {} .warnings 512 ⟨4⟩ ⟨5⟩
  obtain ⟨-, -, hreports⟩ := hall _ _ rfl hrun
  obtain ⟨a, b, hevent, hvisits, -⟩ := hreports (.optSpecial ⟨2⟩ ⟨3⟩) (by simp)
  cases hevent
  refine ⟨hrun, hsame.trans (congrArg Prod.fst hrun), hvisits, ?_⟩
  simp [Visits, show (fitsBarred ⟨misfitFields, {}, .warning, .warnings⟩ ⟨3⟩ ⟨2⟩ 512 ⟨4⟩ ⟨5⟩).outcome {} =
    (.ok .optSpecial, ⟨{}, #[.optSpecial ⟨2⟩ ⟨3⟩]⟩) from rfl]

end TypedWire.Subtype
