import TypedWire.Fault

/-! Runs of computations that may give up, read backwards: what a run that ended well says of the
    runs it is put together from. -/

namespace TypedWire

/-! ### Answers without a state -/

section Except

variable {α β : Type}

@[simp] theorem Except.pure_eq_ok {a b : α} : (pure a : Except Fault α) = .ok b ↔ a = b := by
  simp [pure, Except.pure]

@[simp] theorem Except.bind_eq_ok {x : Except Fault α} {f : α → Except Fault β} {b : β} :
    (x >>= f) = .ok b ↔ ∃ a, x = .ok a ∧ f a = .ok b := by
  cases x with
  | error e => simp [bind, Except.bind]
  | ok a => simp [bind, Except.bind]

@[simp] theorem Except.pure_ne_error {a : α} {e : Fault} : (pure a : Except Fault α) ≠ .error e := by
  simp [pure, Except.pure]

@[simp] theorem Except.bind_eq_error {x : Except Fault α} {f : α → Except Fault β} {e : Fault} :
    (x >>= f) = .error e ↔ x = .error e ∨ ∃ a, x = .ok a ∧ f a = .error e := by
  cases x with
  | error e => simp [bind, Except.bind]
  | ok a => simp [bind, Except.bind]

@[simp] theorem Except.throw_eq_error {e e' : Fault} :
    (throw e : Except Fault α) = .error e' ↔ e = e' := by
  simp [throw, throwThe, MonadExceptOf.throw]

@[simp] theorem Except.throw_ne_ok {e : Fault} {b : α} : (throw e : Except Fault α) ≠ .ok b := by
  simp [throw, throwThe, MonadExceptOf.throw]

/-- A list of answers, each of which is known if there is one. -/
theorem Except.mapM_eq_ok {f : α → Except Fault β} {g : α → β} {P : α → Prop}
    (h : ∀ a b, f a = .ok b → b = g a ∧ P a) : ∀ {as : List α} {bs : List β},
    as.mapM f = .ok bs → bs = as.map g ∧ ∀ a ∈ as, P a
  | [], bs, hbs => by
    rw [List.mapM_nil, Except.pure_eq_ok] at hbs
    simp [← hbs]
  | a :: as, bs, hbs => by
    simp only [List.mapM_cons, Except.bind_eq_ok, Except.pure_eq_ok] at hbs
    obtain ⟨b, hb, bs', hbs', rfl⟩ := hbs
    obtain ⟨rfl, ha⟩ := h a b hb
    obtain ⟨rfl, has⟩ := Except.mapM_eq_ok h hbs'
    exact ⟨rfl, List.forall_mem_cons.mpr ⟨ha, has⟩⟩

end Except

/-! ### Runs on a state -/

namespace Action

variable {σ α β : Type}

@[simp] theorem pure_eq_ok {a b : α} {s s' : σ} :
    (pure a : Action σ α) s = .ok b s' ↔ a = b ∧ s = s' := by
  change EStateM.Result.ok a s = .ok b s' ↔ _
  simp

@[simp] theorem fail_eq_ok {e : Fault} {b : α} {s s' : σ} :
    ¬ (fail e : Action σ α) s = .ok b s' := by
  simp [fail]

@[simp] theorem get_eq_ok {s t s' : σ} : (get : Action σ σ) s = .ok t s' ↔ s = t ∧ s = s' := by
  change EStateM.Result.ok s s = .ok t s' ↔ _
  simp

@[simp] theorem modify_eq_ok {f : σ → σ} {u : Unit} {s s' : σ} :
    (modify f : Action σ Unit) s = .ok u s' ↔ f s = s' := by
  change EStateM.Result.ok () (f s) = .ok u s' ↔ _
  simp

@[simp] theorem ofExcept_eq_ok {x : Except Fault α} {b : α} {s s' : σ} :
    ofExcept x s = .ok b s' ↔ x = .ok b ∧ s = s' := by
  cases x <;> simp [ofExcept]

@[simp] theorem bind_eq_ok {x : Action σ α} {f : α → Action σ β} {b : β} {s s' : σ} :
    (x >>= f) s = .ok b s' ↔ ∃ a t, x s = .ok a t ∧ f a t = .ok b s' := by
  change EStateM.bind x f s = _ ↔ _
  unfold EStateM.bind
  cases h : x s with
  | ok a t =>
    constructor
    · intro hf
      exact ⟨a, t, rfl, hf⟩
    · rintro ⟨_, _, hx, hf⟩
      cases hx
      exact hf
  | error e t => simp

/-! ### What a run ends in -/

/-- The run from `s` ends in `post`, or gives up in `lost`. -/
def Runs (x : Action σ α) (s : σ) (post : α → σ → Prop) (lost : Fault → σ → Prop) : Prop :=
  match x s with
  | .ok a s' => post a s'
  | .error e s' => lost e s'

variable {x : Action σ α} {f : α → Action σ β} {s s' : σ} {a : α}
variable {post post' : α → σ → Prop} {postB : β → σ → Prop} {lost lost' : Fault → σ → Prop}

theorem Runs.mono (h : Runs x s post lost) (hpost : ∀ a s', post a s' → post' a s')
    (hlost : ∀ e s', lost e s' → lost' e s') : Runs x s post' lost' := by
  unfold Runs at h ⊢
  split at h
  · exact hpost _ _ h
  · exact hlost _ _ h

theorem Runs.post_mono (h : Runs x s post lost) (hpost : ∀ a s', post a s' → post' a s') :
    Runs x s post' lost :=
  h.mono hpost fun _ _ => id

theorem Runs.ok (h : Runs x s post lost) (hx : x s = .ok a s') : post a s' := by
  simpa only [Runs, hx] using h

theorem Runs.error {e : Fault} (h : Runs x s post lost) (hx : x s = .error e s') : lost e s' := by
  simpa only [Runs, hx] using h

/-- The two ways in which a run ends. -/
theorem Runs.ends (h : Runs x s post lost) :
    (∃ a s', x s = .ok a s' ∧ post a s') ∨ ∃ e s', x s = .error e s' ∧ lost e s' := by
  cases hx : x s with
  | ok a s' => exact .inl ⟨a, s', rfl, h.ok hx⟩
  | error e s' => exact .inr ⟨e, s', rfl, h.error hx⟩

theorem Runs.succeeds (h : Runs x s post fun _ _ => False) : ∃ a s', x s = .ok a s' ∧ post a s' := by
  obtain ⟨a, s', hx, ha⟩ | ⟨_, _, -, hnever⟩ := h.ends
  · exact ⟨a, s', hx, ha⟩
  · exact hnever.elim

theorem runs_of_ok (hx : x s = .ok a s') (h : post a s') : Runs x s post lost := by
  simpa only [Runs, hx] using h

theorem runs_of_error {e : Fault} (hx : x s = .error e s') (h : lost e s') : Runs x s post lost := by
  simpa only [Runs, hx] using h

/-- A run on a part of the state, and what it makes of the whole. -/
theorem runs_lift {τ : Type} {y : Action τ α} {t : τ} (whole : τ → σ)
    (hok : ∀ a t', y t = .ok a t' → x s = .ok a (whole t'))
    (herror : ∀ e t', y t = .error e t' → x s = .error e (whole t'))
    (h : Runs y t (fun a t' => post a (whole t')) fun e t' => lost e (whole t')) :
    Runs x s post lost := by
  rcases h.ends with ⟨a, t', hy, ha⟩ | ⟨e, t', hy, he⟩
  · exact runs_of_ok (hok a t' hy) ha
  · exact runs_of_error (herror e t' hy) he

theorem runs_pure (h : post a s) : Runs (pure a) s post lost := h

theorem runs_fail {e : Fault} (h : lost e s) : Runs (fail e) s post lost := h

theorem runs_bind (h : Runs x s (fun a s' => Runs (f a) s' postB lost) lost) :
    Runs (x >>= f) s postB lost := by
  change Runs (EStateM.bind x f) s postB lost
  unfold Runs at h
  unfold Runs EStateM.bind
  cases hx : x s with
  | ok a s' =>
    rw [hx] at h
    exact h
  | error e s' =>
    rw [hx] at h
    exact h

theorem runs_ofExcept {y : Except Fault α} (hy : y = .ok a) (h : post a s) :
    Runs (ofExcept y) s post lost := by
  subst hy
  exact h

/-- An answer that needs no state, whatever it is. -/
theorem runs_answer {y : Except Fault α} (hok : ∀ a, y = .ok a → post a s)
    (herror : ∀ e, y = .error e → lost e s) : Runs (ofExcept y) s post lost := by
  cases y with
  | ok a => exact hok a rfl
  | error e => exact herror e rfl

theorem runs_mapM_nil {g : β → Action σ α} {postL : List α → σ → Prop} (h : postL [] s) :
    Runs (List.mapM g []) s postL lost := h

theorem runs_mapM_cons {g : β → Action σ α} {b : β} {bs : List β} {postL : List α → σ → Prop}
    (h : Runs (g b) s (fun a s1 => Runs (bs.mapM g) s1 (fun as s' => postL (a :: as) s') lost) lost) :
    Runs ((b :: bs).mapM g) s postL lost := by
  rw [List.mapM_cons]
  exact runs_bind (h.post_mono fun _ _ h => runs_bind (h.post_mono fun _ _ h => h))

/-! ### Repetition -/

theorem collect_append (step : Action σ α) : ∀ (count : Nat) (done : List α),
    collect step count done = (do return (← collect step count []) ++ done)
  | 0, done => by simp [collect]
  | count + 1, done => by
    rw [collect, collect]
    simp only [collect_append step count (_ :: _), bind_assoc, pure_bind, List.append_assoc,
      List.cons_append, List.nil_append]

/-- The first run, then the others. -/
theorem replicate_succ (count : Nat) (step : Action σ α) :
    replicate (count + 1) step = (do
      let a ← step
      let as ← replicate count step
      return a :: as) := by
  simp only [replicate, collect, collect_append step count [_], bind_assoc, pure_bind,
    List.reverse_append, List.reverse_cons, List.reverse_nil, List.nil_append, List.cons_append]

section Kept

variable {inv : σ → Prop}

/-- What each run keeps is kept by all of them. -/
theorem runs_replicate {step : Action σ α} (h : ∀ s, inv s → Runs step s (fun _ => inv) lost) :
    ∀ {count : Nat} {s : σ}, inv s →
      Runs (replicate count step) s (fun as s' => as.length = count ∧ inv s') lost
  | 0, _, hs => runs_pure ⟨rfl, hs⟩
  | count + 1, s, hs => by
    rw [replicate_succ]
    refine runs_bind ((h s hs).post_mono fun a s1 hs1 => ?_)
    refine runs_bind ((runs_replicate h hs1).post_mono fun as s2 ⟨hlength, hs2⟩ => runs_pure ⟨?_, hs2⟩)
    rw [List.length_cons, hlength]

theorem runs_mapM {g : β → Action σ α} (h : ∀ b s, inv s → Runs (g b) s (fun _ => inv) lost) :
    ∀ {bs : List β} {s : σ}, inv s → Runs (bs.mapM g) s (fun _ => inv) lost
  | [], _, hs => runs_mapM_nil hs
  | b :: _, s, hs => runs_mapM_cons ((h b s hs).post_mono fun _ _ hs1 => runs_mapM h hs1)

end Kept

end Action

end TypedWire
