import TypedWire.Proofs.Message.Paired

/-! A call that fails is not seen in what is done with the message afterwards, whatever it had put into
    the table by then, and whatever is remembered of it. -/

namespace TypedWire.Draft

open TypedWire.Action TypedWire.TypeTable

/-! ### What is done with a message -/

/-- Something that is done with a message: a name is bound, an argument is added, or it is looked at. -/
inductive Step where
  | bind (name : String) (type : TypeId)
  | call (call : Call)
  | size
  | encode

/-- What is answered. -/
inductive Answer where
  | done
  | size (n : Nat)
  | bytes (bytes : List UInt8)
  deriving DecidableEq

/-- What the step does and answers. -/
def Step.take : Step → Action State Answer
  | .bind name type => fun s =>
    match s.draft.env.insert name type with
    | .ok env => .ok .done { s with draft := { s.draft with env } }
    | .error e => .error e s
  | .call c => do
    c.perform
    return .done
  | .size => fun s => .ok (.size s.draft.size) s
  | .encode => fun s =>
    match s.draft.encode s.store with
    | .ok bytes => .ok (.bytes bytes) s
    | .error e => .error e s

/-- What is answered, step by step. -/
def answers : List Step → State → List (Except Fault Answer)
  | [], _ => []
  | step :: rest, s => (step.take.outcome s).1 :: answers rest (step.take.outcome s).2

/-- The message and its store after all steps. -/
def after : List Step → State → State
  | [], s => s
  | step :: rest, s => after rest (step.take.outcome s).2

/-- A message and its store after any steps, whether they succeeded or not. In between more may be put
    into the store. -/
inductive Reached : State → Prop where
  | start (store : Store) : Reached ⟨{}, store⟩
  | stored {draft : Draft} {store store' : Store} : Reached ⟨draft, store⟩ → store.Extends store' →
      Reached ⟨draft, store'⟩
  | stepped {s : State} (step : Step) : Reached s → Reached (step.take.outcome s).2

/-- The handles that the steps name: as a type that is passed, or, as far as the store of `s` goes, as a
    part of such a type or through a name. -/
inductive Named (s : State) (steps : List Step) : TypeId → Prop where
  | passed {type : TypeId} {value : ValueId} : .call (.typed type value) ∈ steps → Named s steps type
  | part {c d : TypeId} {n : TypeNode} : Named s steps c → s.store.typeAt c = .ok n → d ∈ parts n →
      Named s steps d
  | bound {c u : TypeId} {name : String} : Named s steps c → s.store.typeAt c = .ok (.var name) →
      s.draft.env.find? name = some u ∨ .bind name u ∈ steps → Named s steps u

variable {s s' s1 t t1 : State} {steps rest : List Step} {step : Step} {call : Call} {e : Fault}
variable {last last' : Store} {a c d u : TypeId} {n : TypeNode} {name : String} {code : Int}

/-! ### One message -/

theorem take_call (call : Call) (s : State) : (Step.call call).take.outcome s =
    ((call.perform.outcome s).1.map fun _ => .done, (call.perform.outcome s).2) := by
  cases hrun : call.perform s with
  | ok _ s' =>
    have htake : (Step.call call).take s = .ok .done s' := bind_run hrun
    simp only [outcome, htake, hrun]
    rfl
  | error e s' =>
    have htake : (Step.call call).take s = .error e s' := bind_eq_error.mpr (.inl hrun)
    simp only [outcome, htake, hrun]
    rfl

/-- What a step leaves: what is in the store stays there, and no name is bound but by the step. -/
structure Leaves (s : State) (step : Step) (s' : State) : Prop where
  kept : Kept s'
  store : s.store.Extends s'.store
  scope : s.scope.Extends s'.scope
  env : ∀ name u, s'.draft.env.find? name = some u →
    s.draft.env.find? name = some u ∨ step = .bind name u

theorem find?_insert {env env' : Env} {type : TypeId} (h : env.insert name type = .ok env') :
    env' = env ∨ env' = ⟨(name, type) :: env.bindings⟩ := by
  unfold Env.insert at h
  split at h
  · split at h
    · exact .inl (Except.ok.inj h).symm
    · exact absurd h (by simp)
  · exact .inr (Except.ok.inj h).symm

theorem leaves_take (h : Kept s) (step : Step) : Leaves s step (step.take.outcome s).2 := by
  have hnone : Leaves s step s := ⟨h, .refl _, .refl _, fun _ _ => .inl⟩
  cases step with
  | size => exact hnone
  | encode =>
    simp only [Step.take, outcome]
    cases s.draft.encode s.store <;> exact hnone
  | call call =>
    have hleaves : ∀ s1, Kept s1 → s.store.Extends s1.store → s1.draft.env = s.draft.env →
        Leaves s (.call call) s1 := by
      intro s1 h1 hs henv
      refine ⟨h1, hs, ?_, fun name u hu => .inl (henv ▸ hu)⟩
      simp only [State.scope, henv]
      exact Scope.extends_store s.draft.env hs
    rw [take_call]
    rcases (kept_perform h call).ends with ⟨_, s1, hrun, h1, hs, henv⟩ | ⟨e, s1, hrun, h1, hr⟩
    · simp only [outcome, hrun]
      exact hleaves s1 h1 hs henv
    · simp only [outcome, hrun]
      exact hleaves s1 h1 hr.store hr.env
  | bind name type =>
    cases hinsert : s.draft.env.insert name type with
    | error e => simpa only [Step.take, outcome, hinsert] using hnone
    | ok env =>
      simp only [Step.take, outcome, hinsert]
      have hscope := Scope.extends_insert s.store hinsert
      refine ⟨h.extends hscope, .refl _, hscope, fun other u hu => ?_⟩
      rcases find?_insert hinsert with rfl | rfl
      · exact .inl hu
      · simp only [Env.find?, List.lookup_cons] at hu
        split at hu
        · next heq => exact .inr (by rw [eq_of_beq heq, Option.some.inj hu])
        · exact .inl hu

theorem Reached.kept (h : Reached s) : Kept s := by
  induction h with
  | start store => exact kept_start store
  | stored _ hs ih => exact ih.stored hs
  | stepped step _ ih => exact (leaves_take ih step).kept

theorem extends_after (h : Kept s) : ∀ steps : List Step, s.store.Extends (after steps s).store := by
  intro steps
  induction steps generalizing s with
  | nil => exact .refl _
  | cons step rest ih =>
    have hleaves := leaves_take h step
    exact hleaves.store.trans (ih hleaves.kept)

/-! ### Handles that keep what they name -/

/-- What is the same in a store and in a later one is so in between. -/
theorem typeAt_between {store store1 : Store} (h : store.Extends store1) (h1 : store1.Extends last)
    (hsame : store.typeAt a = last.typeAt a) : store1.typeAt a = store.typeAt a := by
  cases hn : store.typeAt a with
  | ok n => exact h.typeAt a n hn
  | error e =>
    cases hm : store1.typeAt a with
    | ok m =>
      rw [hn, h1.typeAt a m hm] at hsame
      exact absurd hsame (by simp)
    | error e' => rw [Scope.typeAt_fault hn, Scope.typeAt_fault hm]

/-- A name that a type stands for something through is bound, to a type that stands for the same. -/
theorem standsFor_bound {w : Scope} {r : TypeId} (hs : w.StandsFor c r n)
    (hc : w.store.typeAt c = .ok (.var name)) (hu : w.env.find? name = some u) :
    w.StandsFor u r n := by
  have hfollow := hs.follow
  simp only [Env.follow, Env.followWithin, Except.bind_eq_ok, hc, Except.ok.injEq, exists_eq_left',
    hu] at hfollow
  exact ⟨Scope.followWithin_extends (.refl w) (Nat.le_succ _) hfollow, hs.node⟩

theorem standsFor_find? {w : Scope} {r : TypeId} (hs : w.StandsFor c r n)
    (hc : w.store.typeAt c = .ok (.var name)) : ∃ u, w.env.find? name = some u := by
  have hfollow := hs.follow
  simp only [Env.follow, Env.followWithin, Except.bind_eq_ok, hc, Except.ok.injEq,
    exists_eq_left'] at hfollow
  cases hu : w.env.find? name with
  | none => simp [hu] at hfollow
  | some u => exact ⟨u, rfl⟩

theorem standsFor_later {w w' : Scope} (hw : w.Extends w') (h : ∃ r n, w.StandsFor a r n) :
    ∃ r n, w'.StandsFor a r n := by
  obtain ⟨r, n, hs⟩ := h
  exact ⟨r, n, hs.extends hw⟩

/-- The parts of a type that has a number have numbers. -/
theorem Kept.refers_part (h : Kept s) (hc : s.draft.table.Refers s.scope c code)
    (hn : s.store.typeAt c = .ok n) (hd : d ∈ parts n) :
    ∃ code, s.draft.table.Refers s.scope d code := by
  have hself : s.scope.StandsFor c c n := by
    refine .of_node hn ?_
    rintro name rfl
    simp [parts] at hd
  rcases hc with ⟨r, p, hs, -⟩ | ⟨j, a, ha, halias, -⟩
  · obtain rfl := hself.node_eq hs
    simp [parts] at hd
  · obtain ⟨m, hm, -⟩ := h.faithful.linked.root j a ha
    obtain ⟨r, n', hs, halike⟩ := halias.standsFor hm
    obtain rfl := hself.node_eq hs
    obtain ⟨b, hb, hdb⟩ := halike.part hd
    rw [← Array.getElem?_toList] at ha
    obtain ⟨code, hcode⟩ := h.joins a (List.mem_of_getElem? ha) m hm b hb
    exact ⟨code, hcode.alias hdb⟩

/-! ### Two messages, step by step -/

/-- Two messages on which the rest of `steps` is to be taken, one of which ends with the store `last`, and
    the other with `last'`. They hold the same arguments; a handle that is named stays related to
    itself; and related handles name for good what they name by now. -/
structure Level (before : State) (steps : List Step) (last last' : Store)
    (R : TypeId → TypeId → Prop) (s t : State) : Prop where
  paired : Paired R s t
  named : ∀ c, Named before steps c → R c c
  settled : ∀ a b, R a b → s.store.typeAt a = last.typeAt a ∧ t.store.typeAt b = last'.typeAt b
  known : ∀ a b, R a b → Named before steps a ∨ ∃ r n, s.scope.StandsFor a r n
  env : ∀ name u, s.draft.env.find? name = some u →
    before.draft.env.find? name = some u ∨ .bind name u ∈ steps

section Stepping

variable {before : State} {R : TypeId → TypeId → Prop}

theorem Level.origin (h : Level before steps last last' R s t) (hstep : step ∈ steps)
    (hu : (step.take.outcome s).2.draft.env.find? name = some u) :
    before.draft.env.find? name = some u ∨ .bind name u ∈ steps := by
  rcases (leaves_take h.paired.left step).env name u hu with hu | rfl
  · exact h.env name u hu
  · exact .inr hstep

theorem Level.still (h : Level before steps last last' R s t) (hs : s.store.Extends s1.store)
    (ht : t.store.Extends t1.store) (hlast : s1.store.Extends last) (hlast' : t1.store.Extends last') :
    Still R s s1 t t1 := by
  intro a b hab
  obtain ⟨ha, hb⟩ := h.settled a b hab
  exact ⟨typeAt_between hs hlast ha, typeAt_between ht hlast' hb⟩

theorem Level.called (h : Level before steps last last' R s t) (hstep : .call call ∈ steps)
    (hroom : FindsRoom call.perform s) (hroom' : FindsRoom call.perform t)
    (hlast : (call.perform.outcome s).2.store.Extends last)
    (hlast' : (call.perform.outcome t).2.store.Extends last') :
    Agree call.perform call.perform s t fun s1 t1 => ∃ R', Level before steps last last' R' s1 t1 := by
  have hleaves := leaves_take h.paired.left (.call call)
  have hleaves' := leaves_take h.paired.right (.call call)
  have horigin : ∀ name u, ((Step.call call).take.outcome s).2.draft.env.find? name = some u →
      before.draft.env.find? name = some u ∨ .bind name u ∈ steps := fun _ _ => h.origin hstep
  rw [take_call] at hleaves hleaves' horigin
  have hstill := h.still hleaves.store hleaves'.store hlast hlast'
  have htype : ∀ type value, call = .typed type value → R type type := by
    rintro type value rfl
    exact h.named type (.passed hstep)
  refine (paired_perform h.paired call htype hroom hroom' hstill).mono ?_
  rintro ⟨R', hpaired, hold, hnew⟩
  refine ⟨R', hpaired, fun c hc => hold c c (h.named c hc), fun a b hab => ?_, fun a b hab => ?_, horigin⟩
  · rcases hnew a b hab with hab | ⟨n, m, hn, hm, -⟩
    · obtain ⟨ha, hb⟩ := hstill a b hab
      rw [ha, hb]
      exact h.settled a b hab
    · exact ⟨hn.trans (hlast.typeAt a n hn).symm, hm.trans (hlast'.typeAt b m hm).symm⟩
  · rcases hnew a b hab with hab | ⟨n, m, hn, -, halike⟩
    · exact (h.known a b hab).imp id (standsFor_later hleaves.scope)
    · refine .inr ⟨a, n, .of_node hn ?_⟩
      rintro name rfl
      exact halike.kind_ne_var rfl

theorem Level.bound {type : TypeId} (h : Level before steps last last' R s t)
    (hstep : .bind name type ∈ steps)
    (hlife : ∀ c, Named before steps c → last.typeAt c = before.store.typeAt c) {env : Env}
    (henv : s.draft.env.insert name type = .ok env) :
    Level before steps last last' R { s with draft := { s.draft with env } }
      { t with draft := { t.draft with env } } := by
  have hscope := Scope.extends_insert s.store henv
  have hsame : t.draft.env = s.draft.env := h.paired.twin.env
  have hscope' : Scope.Extends ⟨t.store, t.draft.env⟩ ⟨t.store, env⟩ :=
    Scope.extends_insert t.store (hsame ▸ henv)
  have horigin : ∀ name u, env.find? name = some u →
      before.draft.env.find? name = some u ∨ .bind name u ∈ steps := by
    intro other u hu
    refine h.origin hstep ?_
    simpa only [Step.take, outcome, henv] using hu
  -- A related handle is named, so what it names next is named too, or the name was bound already.
  have hbound : ∀ a b other u, R a b → s.store.typeAt a = .ok (.var other) →
      env.find? other = some u → R u u := by
    intro a b other u hab ha hu
    rcases h.known a b hab with hnamed | ⟨r, n, hs⟩
    · have hbefore : before.store.typeAt a = .ok (.var other) := by
        rw [← hlife a hnamed, ← (h.settled a b hab).1, ha]
      exact h.named u (.bound hnamed hbefore (horigin other u hu))
    · obtain ⟨v, hv⟩ := standsFor_find? hs ha
      obtain rfl : v = u := Option.some.inj ((hscope.bound other v hv).symm.trans hu)
      exact h.paired.twin.bound a b other v hab ha hv
  have htwin : Scope.Twin R ⟨s.store, env⟩ ⟨t.store, env⟩ :=
    ⟨rfl, h.paired.twin.node, hbound, h.paired.twin.same⟩
  refine ⟨h.paired.bound hscope hscope' htwin, h.named, h.settled, fun a b hab => ?_, horigin⟩
  exact (h.known a b hab).imp id (standsFor_later hscope)

/-- One step: the same answer, and the messages are level again. -/
theorem Level.taken (h : Level before steps last last' R s t) (hstep : step ∈ steps)
    (hlife : ∀ c, Named before steps c → last.typeAt c = before.store.typeAt c)
    (hroom : s.store.limit = none ∨ (step.take.outcome s).1 ≠ .error .storeFull)
    (hroom' : t.store.limit = none ∨ (step.take.outcome t).1 ≠ .error .storeFull)
    (hlast : (step.take.outcome s).2.store.Extends last)
    (hlast' : (step.take.outcome t).2.store.Extends last') :
    (step.take.outcome s).1 = (step.take.outcome t).1 ∧
      ∃ R', Level before steps last last' R' (step.take.outcome s).2 (step.take.outcome t).2 := by
  have hsame : t.draft.env = s.draft.env := h.paired.twin.env
  cases step with
  | size =>
    simp only [Step.take, outcome, h.paired.size]
    exact ⟨trivial, R, h⟩
  | encode =>
    simp only [Step.take, outcome, h.paired.encode]
    cases s.draft.encode s.store <;> exact ⟨rfl, R, h⟩
  | bind name type =>
    simp only [Step.take, outcome, hsame]
    cases henv : s.draft.env.insert name type with
    | error e => exact ⟨rfl, R, h⟩
    | ok env => exact ⟨rfl, R, h.bound hstep hlife henv⟩
  | call call =>
    simp only [take_call] at hroom hroom' hlast hlast' ⊢
    have hfinds : ∀ {s}, s.store.limit = none ∨
        ((call.perform.outcome s).1.map fun _ => Answer.done) ≠ .error .storeFull →
        FindsRoom call.perform s := by
      refine fun hroom => hroom.imp id fun hne hfull => ?_
      exact hne (by rw [hfull]; rfl)
    obtain ⟨hanswer, hlevel⟩ := h.called hstep (hfinds hroom) (hfinds hroom') hlast hlast'
    exact ⟨by rw [hanswer], hlevel⟩

/-- All steps. -/
theorem Level.answers
    (hlife : ∀ c, Named before steps c → last.typeAt c = before.store.typeAt c) :
    ∀ {rest : List Step} {R : TypeId → TypeId → Prop} {s t : State},
      Level before steps last last' R s t → rest ⊆ steps → (after rest s).store = last →
      (after rest t).store = last' → s.store.limit = none ∨ .error .storeFull ∉ answers rest s →
      t.store.limit = none ∨ .error .storeFull ∉ answers rest t → answers rest s = answers rest t
  | [], _, _, _, _, _, _, _, _, _ => rfl
  | step :: rest, R, s, t, h, hsub, hlast, hlast', hroom, hroom' => by
    rw [List.cons_subset] at hsub
    simp only [Draft.answers, List.mem_cons, not_or] at hroom hroom'
    have hleft := leaves_take h.paired.left step
    have hright := leaves_take h.paired.right step
    obtain ⟨hanswer, R', h'⟩ := h.taken hsub.1 hlife (hroom.imp id fun hne => Ne.symm hne.1)
      (hroom'.imp id fun hne => Ne.symm hne.1) (hlast ▸ extends_after hleft.kept rest)
      (hlast' ▸ extends_after hright.kept rest)
    have hrest := Level.answers hlife h' hsub.2 hlast hlast'
      (hroom.imp hleft.store.limit.trans And.right) (hroom'.imp hright.store.limit.trans And.right)
    rw [Draft.answers, Draft.answers, hanswer, hrest]

end Stepping

/-! ### A call that failed -/

/-- The steps name the handle, or it has a number in the table of `s`. -/
def Held (s : State) (steps : List Step) (a : TypeId) : Prop :=
  Named s steps a ∨ ∃ code, s.draft.table.Refers s.scope a code

/-- What a store that has grown names at a handle that has a number, or that is named by the steps and
    keeps what it names. -/
theorem typeAt_kept {store : Store} (h : Kept s)
    (hlife : ∀ c, Named s steps c → last.typeAt c = s.store.typeAt c) (hs : s.store.Extends store)
    (hlast : store.Extends last) (ha : Held s steps a) :
    store.typeAt a = s.store.typeAt a ∧ last.typeAt a = s.store.typeAt a := by
  rcases ha with hnamed | ⟨code, hcode⟩
  · exact ⟨typeAt_between hs hlast (hlife a hnamed).symm, hlife a hnamed⟩
  · obtain ⟨r, n, hstands⟩ := h.faithful.linked.standsFor hcode
    obtain ⟨m, hm, -⟩ := hstands.typeAt
    have hnow := hs.typeAt a m hm
    exact ⟨hnow.trans hm.symm, (hlast.typeAt a m hnow).trans hm.symm⟩

/-- What a handle that is held leads to is held as well. -/
theorem Held.part (h : Kept s) (ha : Held s steps a) (hn : s.store.typeAt a = .ok n) (hc : c ∈ parts n) :
    Held s steps c := by
  rcases ha with hnamed | ⟨code, hcode⟩
  · exact .inl (.part hnamed hn hc)
  · exact .inr (h.refers_part hcode hn hc)

theorem Held.bound (h : Kept s) (ha : Held s steps a) (hn : s.store.typeAt a = .ok (.var name))
    (hu : s.draft.env.find? name = some c) : Held s steps c := by
  rcases ha with hnamed | ⟨code, hcode⟩
  · exact .inl (.bound hnamed hn (.inl hu))
  · obtain ⟨r, n, hstands⟩ := h.faithful.linked.standsFor hcode
    have halias : s.scope.Alias c a := .trans (.root (standsFor_bound hstands hn hu)) (.unroot hstands)
    exact .inr ⟨code, hcode.alias halias⟩

/-- A registered type has the number of its slot. -/
theorem held_registered (ha : a ∈ s.draft.table.registered.toList) : Held s steps a := by
  obtain ⟨k, hk⟩ := List.mem_iff_getElem?.mp ha
  rw [Array.getElem?_toList] at hk
  exact .inr ⟨k, .inr ⟨k, a, hk, .refl a, rfl⟩⟩

/-- Two messages that differ from `s` in what is remembered only are level: each handle that has a
    number, or is named by the steps, is related to itself. -/
theorem level_start (h : Kept s) (hs : Kept s1 ∧ Retains s s1) (ht : Kept t1 ∧ Retains s t1)
    (hlast : s1.store.Extends last) (hlast' : t1.store.Extends last')
    (hlife : ∀ c, Named s steps c →
      last.typeAt c = s.store.typeAt c ∧ last'.typeAt c = s.store.typeAt c) :
    ∃ R, Level s steps last last' R s1 t1 := by
  have hkeeps := fun a => typeAt_kept (a := a) h (fun c hc => (hlife c hc).1) hs.2.store hlast
  have hkeeps' := fun a => typeAt_kept (a := a) h (fun c hc => (hlife c hc).2) ht.2.store hlast'
  have htwin : Scope.Twin (fun a b => a = b ∧ Held s steps a) s1.scope t1.scope := by
    refine .of_closed (ht.2.env.trans hs.2.env.symm)
      (fun a ha => (hkeeps' a ha).1.trans (hkeeps a ha).1.symm) ?_ ?_
    · intro a n c ha hn hc
      exact ha.part h ((hkeeps a ha).1.symm.trans hn) hc
    · intro a name u ha hn hu
      exact ha.bound h ((hkeeps a ha).1.symm.trans hn) (hs.2.env ▸ hu)
  refine ⟨_, ⟨hs.1, ht.1, htwin, ht.2.entries.trans hs.2.entries.symm, ?_, ?_,
    ht.2.values.trans hs.2.values.symm, ht.2.stored.trans hs.2.stored.symm,
    ht.2.blocks.trans hs.2.blocks.symm⟩, fun c hc => ⟨rfl, .inl hc⟩, ?_, ?_, ?_⟩
  · rw [hs.2.registered, ht.2.registered]
    exact List.forall₂_same.mpr fun a ha => ⟨rfl, held_registered ha⟩
  · rw [hs.2.args, ht.2.args]
    exact List.forall₂_same.mpr fun a ha => .related ⟨rfl, .inr (h.faithful.refers (h.args a ha))⟩
  · rintro a b ⟨rfl, ha⟩
    exact ⟨(hkeeps a ha).1.trans (hkeeps a ha).2.symm, (hkeeps' a ha).1.trans (hkeeps' a ha).2.symm⟩
  · rintro a b ⟨rfl, ha⟩
    have hscope : s.scope.Extends s1.scope := by
      simp only [State.scope, hs.2.env]
      exact Scope.extends_store s.draft.env hs.2.store
    refine ha.imp id fun hcode => ?_
    obtain ⟨code, hcode⟩ := hcode
    exact standsFor_later hscope (h.faithful.linked.standsFor hcode)
  · intro name u hu
    exact .inl (hs.2.env ▸ hu)

theorem not_named_nil : ¬ Named s [] c := by
  intro h
  induction h with
  | passed hmem => exact absurd hmem (by simp)
  | part _ _ _ ih => exact ih
  | bound _ _ _ ih => exact ih

/-! ### A call that put nothing into the store -/

/-- One step on messages in one store: the same answer, and they are in one store again. -/
theorem same_taken (h : Same s t) (step : Step) :
    (step.take.outcome s).1 = (step.take.outcome t).1 ∧
      Same (step.take.outcome s).2 (step.take.outcome t).2 := by
  have hsame : t.draft.env = s.draft.env := h.paired.twin.env
  cases step with
  | size =>
    simp only [Step.take, outcome, h.paired.size]
    exact ⟨trivial, h⟩
  | encode =>
    simp only [Step.take, outcome, h.paired.encode]
    cases s.draft.encode s.store <;> exact ⟨rfl, h⟩
  | call call =>
    obtain ⟨hanswer, hend⟩ := same_perform h call
    simp only [take_call]
    exact ⟨by rw [hanswer], hend⟩
  | bind name type =>
    simp only [Step.take, outcome, hsame]
    cases henv : s.draft.env.insert name type with
    | error e => exact ⟨rfl, h⟩
    | ok env =>
      refine ⟨rfl, h.paired.bound (Scope.extends_insert s.store henv)
        (Scope.extends_insert t.store (hsame ▸ henv)) ?_, h.store, h.shared⟩
      rw [h.store]
      exact .refl _

theorem Same.answers : ∀ (steps : List Step) {s t : State}, Same s t → answers steps s = answers steps t
  | [], _, _, _ => rfl
  | step :: rest, s, t, h => by
    obtain ⟨hanswer, hend⟩ := same_taken h step
    rw [Draft.answers, Draft.answers, hanswer, Same.answers rest hend]

/-- An argument whose type and value are in the store is added, or not, without putting in more. -/
theorem typed_store {type : TypeId} {value : ValueId}
    (hcall : (Call.typed type value).perform s = .error e s') : s'.store = s.store := by
  have hout := (append_outcome type (fun store => Output.value store value) s).1
  have hrun : append type (fun store => Output.value store value) s = .error e s' := hcall
  simpa only [outcome, hrun] using hout

/-- A call that fails leaves the number of arguments and the bytes of the message as they were, and is
    not seen in what follows: whatever names are bound and arguments added, the message after the call
    answers as the message before it. If the call made no node, as one that passes a type and a value
    makes none, that is all. Else it is so both on the store as it was and on the store as the call
    left it, if the store has no limit or no call finds it full, and if each handle that is named names
    in the end what it did when the call failed, so that none comes to life by what calls put in. -/
theorem failed_call_unseen (h : Reached s) (hcall : call.perform s = .error e s') :
    s'.draft.size = s.draft.size ∧ s'.draft.encode s'.store = s.draft.encode s.store ∧
      ((∃ type value, call = .typed type value) ∨ s'.store = s.store →
        ∀ steps, answers steps s = answers steps s') ∧
      ∀ store, store = s.store ∨ store = s'.store → ∀ steps : List Step,
        (∀ c, Named s steps c →
          (after steps ⟨s.draft, store⟩).store.typeAt c = s.store.typeAt c ∧
            (after steps s').store.typeAt c = s.store.typeAt c) →
        s.store.limit = none ∨ .error .storeFull ∉ answers steps ⟨s.draft, store⟩ ∧
          .error .storeFull ∉ answers steps s' →
        answers steps ⟨s.draft, store⟩ = answers steps s' := by
  have hkept := h.kept
  have hfailed := (kept_perform hkept call).error hcall
  obtain ⟨R, hlevel⟩ : ∃ R, Level s [] s.store s'.store R s s' :=
    level_start hkept ⟨hkept, .refl s⟩ hfailed (.refl _) (.refl _) fun c hc => absurd hc not_named_nil
  refine ⟨hlevel.paired.size, hlevel.paired.encode, fun hnone steps => ?_,
    fun store hstore steps hlife hroom => ?_⟩
  · have hstore : s'.store = s.store := by
      rcases hnone with ⟨type, value, rfl⟩ | hstore
      · exact typed_store hcall
      · exact hstore
    refine (hkept.same.moved ⟨hkept, .refl s⟩ hfailed hstore ?_).answers steps
    exact hfailed.2.shared (by rw [hstore])
  · have hbefore : Kept ⟨s.draft, store⟩ ∧ Retains s ⟨s.draft, store⟩ := by
      rcases hstore with rfl | rfl
      · exact ⟨hkept, .refl s⟩
      · have hr := hfailed.2
        exact ⟨hkept.stored hr.store, hr.store, hr.nodes, fun _ => rfl, hr.stored, hr.blocks, rfl, rfl,
          rfl, rfl, rfl⟩
    obtain ⟨R', hstart⟩ := level_start hkept hbefore hfailed (extends_after hbefore.1 steps)
      (extends_after hfailed.1 steps) hlife
    exact hstart.answers (fun c hc => (hlife c hc).1) (List.Subset.refl steps) rfl rfl
      (hroom.imp hbefore.2.store.limit.trans And.left) (hroom.imp hfailed.2.store.limit.trans And.right)

/-- A principal that is too long. -/
def tooLong : Call := .principal (List.replicate 30 0)

/-- A list type and a name, and an empty list. -/
def lists : Store where
  types := #[.primitive .nat, .vec ⟨0⟩, .var "list"]
  values := #[.vec []]

theorem list_unseen :
    let s : State := after [.call (.typed ⟨1⟩ ⟨0⟩)] ⟨{}, lists⟩
    let steps : List Step :=
      [.bind "list" ⟨1⟩, .call (.typed ⟨2⟩ ⟨0⟩), .call (.principal [1]), .encode]
    (∃ s', (Call.typed ⟨2⟩ ⟨0⟩).perform s = .error .invalid s' ∧ answers steps s = answers steps s') ∧
      ∃ s', tooLong.perform s = .error .invalid s' ∧ s'.draft.encode s'.store = s.draft.encode s.store ∧
        answers steps s = answers steps s' ∧
        answers steps ⟨s.draft, s'.store⟩ = answers steps s' := by
  intro s steps
  have hs : Reached s := .stepped (.call (.typed ⟨1⟩ ⟨0⟩)) (.start lists)
  have hunbound : (Call.typed ⟨2⟩ ⟨0⟩).perform s =
      .error .invalid (after [.call (.typed ⟨2⟩ ⟨0⟩)] s) := rfl
  have hlong : tooLong.perform s = .error .invalid (after [.call tooLong] s) := rfl
  have hnamed : ∀ c, Named s steps c → c = ⟨0⟩ ∨ c = ⟨1⟩ ∨ c = ⟨2⟩ := by
    intro c hc
    induction hc with
    | passed hmem =>
      simp only [steps, List.mem_cons, reduceCtorEq, Step.call.injEq, Call.typed.injEq, false_or,
        List.not_mem_nil, or_false] at hmem
      exact .inr (.inr hmem.1)
    | part _ hn hd ih =>
      rcases ih with rfl | rfl | rfl <;> cases hn
      · exact absurd hd List.not_mem_nil
      · exact .inl (List.mem_singleton.mp hd)
      · exact absurd hd List.not_mem_nil
    | bound _ hn hu ih =>
      rcases ih with rfl | rfl | rfl <;> cases hn
      rcases hu with hu | hu
      · cases hu
      · simp only [steps, List.mem_cons, reduceCtorEq, Step.bind.injEq, true_and, List.not_mem_nil,
          or_false] at hu
        exact .inr (.inl hu)
  obtain ⟨-, -, houtright, -⟩ := failed_call_unseen hs hunbound
  obtain ⟨-, hencode, -, hunseen⟩ := failed_call_unseen hs hlong
  refine ⟨⟨_, hunbound, houtright (.inl ⟨_, _, rfl⟩) steps⟩, _, hlong, hencode,
    hunseen _ (.inl rfl) steps (fun c hc => ?_) (.inl rfl),
    hunseen _ (.inr rfl) steps (fun c hc => ?_) (.inl rfl)⟩
  all_goals rcases hnamed c hc with rfl | rfl | rfl <;> decide +kernel

/-- Where a call has made a node, it can be seen that it failed: by the room that is left in the store, and
    by a handle that names the node; both whether the message before the call goes on with the store as
    it was or with the store as the call left it. -/
theorem failed_call_seen :
    let tight : State := ⟨{}, { limit := some 72 }⟩
    let wide : State := ⟨{}, { limit := some 144 }⟩
    let spare : State := ⟨{}, { values := #[.null] }⟩
    (Reached tight ∧ Reached wide ∧ Reached spare) ∧
      (answers [.call tooLong] tight = [.error .invalid] ∧
        answers [.call (.bool true)] tight = [.ok .done] ∧
        answers [.call (.bool true)] (after [.call tooLong] tight) = [.error .storeFull]) ∧
      (answers [.call tooLong] wide = [.error .invalid] ∧
        answers [.call (.principal []), .call (.bool true)] ⟨{}, (after [.call tooLong] wide).store⟩ =
          [.ok .done, .error .storeFull] ∧
        answers [.call (.principal []), .call (.bool true)] (after [.call tooLong] wide) =
          [.ok .done, .ok .done]) ∧
      (answers [.call tooLong] spare = [.error .invalid] ∧
        answers [.call (.typed ⟨0⟩ ⟨0⟩)] spare = [.error .invalid] ∧
        answers [.call (.typed ⟨0⟩ ⟨0⟩)] (after [.call tooLong] spare) = [.ok .done]) ∧
      answers [.call (.principal []), .call (.typed ⟨1⟩ ⟨0⟩)]
          ⟨{}, (after [.call tooLong] spare).store⟩ = [.ok .done, .ok .done] ∧
        answers [.call (.principal []), .call (.typed ⟨1⟩ ⟨0⟩)] (after [.call tooLong] spare) =
          [.ok .done, .error .invalid] := by
  refine ⟨⟨.start _, .start _, .start _⟩, ?_⟩
  decide +kernel

end TypedWire.Draft
