import TypedWire.Proofs.Growth

/-! Two runs side by side, on states that are level: how the second ends is known from how the first
    does. There is a rule for each way in which runs are put together, and for a step that only the
    first run takes. -/

namespace TypedWire

namespace Action

variable {σ τ α β γ δ : Type} {level : σ → τ → Prop} {spared : Fault → Prop} {x : Action σ α} {y : Action τ β}
variable {f : α → Action σ γ} {g : β → Action τ δ} {post : α → β → Prop} {postF : γ → δ → Prop}

/-- From states that are level, the second run ends as the first does: well, in states that are level
    and with answers as `post` says, or with the same fault. Where the first meets a fault that is
    `spared`, nothing is said of the second. -/
def Abreast (level : σ → τ → Prop) (spared : Fault → Prop) (x : Action σ α) (y : Action τ β)
    (post : α → β → Prop) : Prop :=
  ∀ s t, level s t → Runs x s
    (fun a s' => ∃ b t', y t = .ok b t' ∧ level s' t' ∧ post a b)
    fun e _ => spared e ∨ ∃ t', y t = .error e t'

theorem abreast_pure {a : α} {b : β} (h : post a b) : Abreast level spared (pure a) (pure b) post :=
  fun _ t hlevel => runs_pure ⟨b, t, rfl, hlevel, h⟩

theorem abreast_fail (e : Fault) : Abreast level spared (fail e : Action σ α) (fail e : Action τ β) post :=
  fun _ t _ => runs_fail (.inr ⟨t, rfl⟩)

theorem Abreast.bind (h : Abreast level spared x y post)
    (hf : ∀ a b, post a b → Abreast level spared (f a) (g b) postF) :
    Abreast level spared (x >>= f) (y >>= g) postF := by
  intro s t hlevel
  refine runs_bind ((h s t hlevel).mono ?_ ?_)
  · rintro a s' ⟨b, t', hy, hlevel', hab⟩
    refine (hf a b hab s' t' hlevel').mono ?_ ?_
    · rintro c s'' ⟨d, t'', hg, hrest⟩
      exact ⟨d, t'', bind_eq_ok.mpr ⟨b, t', hy, hg⟩, hrest⟩
    · rintro e s'' (hfull | ⟨t'', hg⟩)
      · exact .inl hfull
      · exact .inr ⟨t'', bind_eq_error.mpr (.inr ⟨b, t', hy, hg⟩)⟩
  · rintro e s' (hfull | ⟨t', hy⟩)
    · exact .inl hfull
    · exact .inr ⟨t', bind_eq_error.mpr (.inl hy)⟩

theorem Abreast.mono {post' : α → β → Prop} (h : Abreast level spared x y post)
    (hpost : ∀ a b, post a b → post' a b) : Abreast level spared x y post' := by
  intro s t hlevel
  refine (h s t hlevel).post_mono ?_
  rintro a s' ⟨b, t', hy, hlevel', hab⟩
  exact ⟨b, t', hy, hlevel', hpost a b hab⟩

/-- A step that only the first run takes. -/
theorem Abreast.left {postC : γ → β → Prop}
    (hx : ∀ s t, level s t → Runs x s (fun _ s' => level s' t) fun e _ => spared e)
    (hf : ∀ a, Abreast level spared (f a) y postC) : Abreast level spared (x >>= f) y postC := by
  intro s t hlevel
  refine runs_bind ((hx s t hlevel).mono ?_ fun _ _ => .inl)
  exact fun a s' hlevel' => hf a s' t hlevel'

/-- What only the first run does after the second has ended. -/
theorem Abreast.last {postC : γ → β → Prop} (h : Abreast level spared x y post)
    (hf : ∀ a b, post a b → Abreast level spared (f a) (pure b) postC) :
    Abreast level spared (x >>= f) y postC := by
  have hall := h.bind hf
  rwa [bind_pure] at hall

/-- The same run on the same state. -/
theorem abreast_refl (x : Action σ α) : Abreast (· = ·) spared x x (· = ·) := by
  rintro s _ rfl
  cases hx : x s with
  | ok a s' => exact runs_of_ok hx ⟨a, s', rfl, rfl, rfl⟩
  | error e s' => exact runs_of_error hx (.inr ⟨s', rfl⟩)

theorem congruence_abreast {level : σ → σ → Prop} :
    Congruence fun _ (x y : Action σ _) => Abreast level spared x y (· = ·) where
  answer _ := abreast_pure rfl
  fault := abreast_fail
  seq h hf := h.bind fun a _ hab => hab ▸ hf a

/-- The results of the first run are put together, the second has none. -/
theorem abreast_replicate {y : Action τ Unit} (h : Abreast level spared x y fun _ _ => True) :
    ∀ count, Abreast level spared (replicate count x) (iterate y count) fun _ _ => True
  | 0 => abreast_pure trivial
  | count + 1 => by
    rw [replicate_succ, iterate]
    exact h.bind fun a _ _ => (abreast_replicate h count).last fun _ _ _ => abreast_pure trivial

theorem abreast_iterate {x : Action σ Unit} {y : Action τ Unit}
    (h : Abreast level spared x y fun _ _ => True) :
    ∀ count, Abreast level spared (iterate x count) (iterate y count) fun _ _ => True
  | 0 => abreast_pure trivial
  | count + 1 => h.bind fun _ _ _ => abreast_iterate h count

theorem abreast_mapM {ι : Type} {x : ι → Action σ α} {y : ι → Action τ Unit} : ∀ {is : List ι},
    (∀ i ∈ is, Abreast level spared (x i) (y i) fun _ _ => True) →
    Abreast level spared (is.mapM x) (is.forM y) fun _ _ => True
  | [], _ => abreast_pure trivial
  | i :: is, h => by
    rw [List.forall_mem_cons] at h
    rw [List.mapM_cons, List.forM]
    exact h.1.bind fun a _ _ => (abreast_mapM h.2).last fun _ _ _ => abreast_pure trivial

/-- Both go by the same byte, and refuse what is neither 0 nor 1. -/
theorem abreast_flag {x0 x1 : Action σ α} {y0 y1 : Action τ β} {flag : UInt8} {e : Fault}
    (h0 : Abreast level spared x0 y0 post) (h1 : Abreast level spared x1 y1 post) :
    Abreast level spared (match flag with | 0 => x0 | 1 => x1 | _ => fail e)
      (match flag with | 0 => y0 | 1 => y1 | _ => fail e) post := by
  split
  · exact h0
  · exact h1
  · exact abreast_fail e

/-- Where no fault is spared, the two runs answer alike. -/
theorem Abreast.answer {x : Action σ Unit} {y : Action τ Unit} {s : σ} {t : τ}
    (h : Abreast level (fun _ => False) x y fun _ _ => True) (hlevel : level s t) :
    (x.outcome s).1 = (y.outcome t).1 := by
  unfold outcome
  rcases (h s t hlevel).ends with ⟨_, s', hx, _, t', hy, -⟩ | ⟨e, s', hx, hfalse | ⟨t', hy⟩⟩
  · simp only [hx, hy]
  · exact hfalse.elim
  · simp only [hx, hy]

end Action

end TypedWire
