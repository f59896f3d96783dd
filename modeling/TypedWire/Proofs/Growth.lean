import Mathlib.Data.List.Forall2
import Mathlib.Order.Defs.Unbundled
import TypedWire.Proofs.Congruence
import TypedWire.Proofs.Store.Extends

/-! Runs that lead along a relation, whether they end well or give up. What is put into a store only
    makes it grow, so a run that failed has harmed nothing. -/

namespace TypedWire

namespace Action

variable {σ α β : Type}

@[simp] theorem bind_eq_error {x : Action σ α} {f : α → Action σ β} {e : Fault} {s s' : σ} :
    (x >>= f) s = .error e s' ↔ x s = .error e s' ∨ ∃ a t, x s = .ok a t ∧ f a t = .error e s' := by
  change EStateM.bind x f s = _ ↔ _
  unfold EStateM.bind
  cases h : x s with
  | ok a t =>
    constructor
    · intro hf
      exact .inr ⟨a, t, rfl, hf⟩
    · rintro (hx | ⟨_, _, hx, hf⟩)
      · exact absurd hx (by simp)
      · cases hx
        exact hf
  | error e t => simp

theorem bind_run {x : Action σ α} {f : α → Action σ β} {s t : σ} {a : α} (hx : x s = .ok a t) :
    (x >>= f) s = f a t := by
  change EStateM.bind x f s = f a t
  unfold EStateM.bind
  rw [hx]

theorem bind_agree {x y : Action σ α} {f g : α → Action σ β} {s : σ} (hx : x s = y s)
    (hf : ∀ a s1, y s = .ok a s1 → f a s1 = g a s1) : (x >>= f) s = (y >>= g) s := by
  change EStateM.bind x f s = EStateM.bind y g s
  unfold EStateM.bind
  rw [hx]
  cases hy : y s with
  | ok a s1 => exact hf a s1 hy
  | error e s1 => rfl

theorem answer_run {x : Except Fault α} {f : α → Action σ β} {s : σ} {a : α} (hx : x = .ok a) :
    (ofExcept x >>= f) s = f a s :=
  bind_run (by rw [hx]; rfl)

theorem Runs.and {x : Action σ α} {s : σ} {post post' : α → σ → Prop} {lost lost' : Fault → σ → Prop}
    (h : Runs x s post lost) (h' : Runs x s post' lost') :
    Runs x s (fun a s' => post a s' ∧ post' a s') fun e s' => lost e s' ∧ lost' e s' := by
  rcases h.ends with ⟨a, s', hx, ha⟩ | ⟨e, s', hx, he⟩
  · exact runs_of_ok hx ⟨ha, h'.ok hx⟩
  · exact runs_of_error hx ⟨he, h'.error hx⟩

theorem runs_outcome (x : Action σ α) (s : σ) :
    Runs x s (fun _ s' => (x.outcome s).2 = s') fun _ s' => (x.outcome s).2 = s' := by
  cases hx : x s with
  | ok a s' => exact runs_of_ok hx (by rw [outcome, hx])
  | error e s' => exact runs_of_error hx (by rw [outcome, hx])

theorem outcome_eq_ok {x : Action σ α} {s s' : σ} {a : α} :
    x.outcome s = (.ok a, s') ↔ x s = .ok a s' := by
  unfold outcome
  cases x s <;> simp

/-- Whether the run from `s` ends well, in what passes the test. -/
def passes (x : Action σ α) (s : σ) (test : α → σ → Bool) : Bool :=
  match x s with
  | .ok a s' => test a s'
  | .error _ _ => false

theorem passes_iff {x : Action σ α} {s : σ} {test : α → σ → Bool} :
    x.passes s test = true ↔ ∃ a s', x s = .ok a s' ∧ test a s' = true := by
  unfold passes
  cases x s <;> simp

/-- However the run from `s` ends, it has led along `R`; if it ends well, then in `post`. -/
def Leads (R : σ → σ → Prop) (x : Action σ α) (s : σ) (post : α → σ → Prop) : Prop :=
  Runs x s (fun a s' => R s s' ∧ post a s') fun _ s' => R s s'

variable {R : σ → σ → Prop} {x : Action σ α} {f : α → Action σ β} {s s1 s' : σ} {a : α}
variable {post post' : α → σ → Prop} {postB : β → σ → Prop} {lost : Fault → σ → Prop}

theorem Leads.mono (h : Leads R x s post) (hpost : ∀ a s', R s s' → post a s' → post' a s') :
    Leads R x s post' :=
  Runs.post_mono h fun a s' ⟨hs, ha⟩ => ⟨hs, hpost a s' hs ha⟩

theorem Leads.outcome (h : Leads R x s post) : R s (x.outcome s).2 := by
  unfold Action.outcome
  rcases h.ends with ⟨a, s', hx, hs, -⟩ | ⟨e, s', hx, hs⟩
  · simpa only [hx] using hs
  · simpa only [hx] using hs

theorem Leads.weaken {R' : σ → σ → Prop} (h : Leads R x s post) (hR : ∀ s', R s s' → R' s s') :
    Leads R' x s post :=
  Runs.mono h (fun _ s' ⟨hs, ha⟩ => ⟨hR s' hs, ha⟩) fun _ s' => hR s'

/-- From `s` both runs end alike, having led along `R`. -/
structure Agrees (R : σ → σ → Prop) (s : σ) (x y : Action σ α) : Prop where
  same : x s = y s
  leads : Leads R y s fun _ _ => True

theorem Leads.agrees (h : Leads R x s post) : Agrees R s x x := ⟨rfl, h.mono fun _ _ _ _ => trivial⟩

variable [IsPreorder σ R]

theorem leads_pure (h : post a s) : Leads R (pure a) s post := runs_pure ⟨refl_of R s, h⟩

theorem leads_fail {e : Fault} : Leads R (fail e : Action σ α) s post := runs_fail (refl_of R s)

/-- An answer that leaves the state as it is. -/
theorem leads_answer (y : σ → Except Fault α) (hx : ∀ s, x s = ofExcept (y s) s)
    (hpost : ∀ a, y s = .ok a → post a s) : Leads R x s post := by
  unfold Leads Runs
  rw [hx]
  cases hy : y s with
  | ok a => exact ⟨refl_of R s, hpost a hy⟩
  | error e => exact refl_of R s

theorem Leads.after {x : Action σ α} (hs : R s s1) (h : Leads R x s1 post) :
    Runs x s1 (fun a s' => R s s' ∧ post a s') fun _ s' => R s s' :=
  Runs.mono h (fun _ _ ⟨hs', ha⟩ => ⟨trans_of R hs hs', ha⟩) fun _ _ hs' => trans_of R hs hs'

theorem Leads.bind (h : Leads R x s post)
    (hf : ∀ a s1, R s s1 → post a s1 → Leads R (f a) s1 postB) : Leads R (x >>= f) s postB :=
  runs_bind (Runs.post_mono h fun a s1 ⟨hs, ha⟩ => (hf a s1 hs ha).after hs)

/-- The same run on each member of a list: what it gives for one is not lost on the others. -/
theorem leads_mapM {g : β → Action σ α} {P : σ → β → α → Prop}
    (hP : ∀ s s' b a, R s s' → P s b a → P s' b a) : ∀ {bs : List β} {s : σ},
    (∀ b ∈ bs, ∀ s1, R s s1 → Leads R (g b) s1 fun a s' => P s' b a) →
    Leads R (bs.mapM g) s fun as s' => List.Forall₂ (P s') bs as
  | [], _, _ => leads_pure .nil
  | b :: bs, s, h => by
    rw [List.forall_mem_cons] at h
    rw [List.mapM_cons]
    refine (h.1 s (refl_of R s)).bind fun a s1 hs1 ha => ?_
    have hrest := leads_mapM hP (s := s1) fun c hc s2 hs2 => h.2 c hc s2 (trans_of R hs1 hs2)
    exact hrest.bind fun as s2 hs2 has => leads_pure (.cons (hP s1 s2 b a hs2 ha) has)

/-- The same run again and again. -/
theorem leads_replicate {step : Action σ α} {P : σ → α → Prop}
    (hP : ∀ s s' a, R s s' → P s a → P s' a) : ∀ {count : Nat} {s : σ},
    (∀ s1, R s s1 → Leads R step s1 fun a s' => P s' a) →
    Leads R (replicate count step) s fun as s' => as.length = count ∧ ∀ a ∈ as, P s' a
  | 0, _, _ => leads_pure ⟨rfl, by simp⟩
  | count + 1, s, h => by
    rw [replicate_succ]
    refine (h s (refl_of R s)).bind fun a s1 hs1 ha => ?_
    have hrest : Leads R (replicate count step) s1 fun as s' => as.length = count ∧ ∀ a ∈ as, P s' a :=
      leads_replicate hP fun s2 hs2 => h s2 (trans_of R hs1 hs2)
    refine hrest.bind fun as s2 hs2 ⟨hlength, has⟩ => leads_pure ⟨by rw [List.length_cons, hlength], ?_⟩
    exact List.forall_mem_cons.mpr ⟨hP s1 s2 a hs2 ha, has⟩

theorem leads_iterate {step : Action σ Unit} (h : ∀ s, Leads R step s fun _ _ => True) :
    ∀ (count : Nat) {s : σ}, Leads R (iterate step count) s fun _ _ => True
  | 0, _ => leads_pure trivial
  | count + 1, s => (h s).bind fun _ _ _ _ => leads_iterate h count

/-! ### Runs that end alike -/

theorem Agrees.bind {y : Action σ α} {g : α → Action σ β} (h : Agrees R s x y)
    (hf : ∀ a s1, R s s1 → y s = .ok a s1 → Agrees R s1 (f a) (g a)) : Agrees R s (x >>= f) (y >>= g) := by
  have hrun : Runs y s (fun a s1 => y s = .ok a s1) fun _ _ => True := by
    unfold Runs
    split
    · next hy => exact hy
    · trivial
  refine ⟨bind_agree h.same fun a s1 hy => (hf a s1 (h.leads.ok hy).1 hy).same, ?_⟩
  refine runs_bind ((Runs.and h.leads hrun).mono ?_ fun _ _ hs => hs.1)
  rintro a s1 ⟨⟨hs, -⟩, hy⟩
  exact (hf a s1 hs hy).leads.after hs

/-- From wherever `P` holds, runs that keep it are put together of steps that do. -/
theorem congruence_agrees {P : σ → Prop} (hP : ∀ s s', R s s' → P s → P s') :
    Congruence fun _ (x y : Action σ _) => ∀ s, P s → Agrees R s x y where
  answer _ _ _ := ⟨rfl, leads_pure trivial⟩
  fault _ _ _ := ⟨rfl, leads_fail⟩
  seq h hf s hs := (h s hs).bind fun a s1 hs1 _ => hf a s1 (hP s s1 hs1 hs)

/-! ### Wherever a run begins -/

/-- Wherever it begins and however it ends, a run of `x` has led along `R`. -/
abbrev Along (R : σ → σ → Prop) (x : Action σ α) : Prop := ∀ s, Leads R x s fun _ _ => True

theorem along_pure (a : α) : Along R (pure a) := fun _ => leads_pure trivial

theorem along_fail (e : Fault) : Along R (fail e : Action σ α) := fun _ => leads_fail

theorem Along.bind (h : Along R x) (hf : ∀ a, Along R (f a)) : Along R (x >>= f) := fun s =>
  (h s).bind fun a s1 _ _ => hf a s1

/-- An answer that leaves the state as it is. -/
theorem along_answer (y : σ → Except Fault α) (hx : ∀ s, x s = ofExcept (y s) s) : Along R x := fun _ =>
  leads_answer y hx fun _ _ => trivial

/-- Leading along a relation, as a relation of a run with itself. -/
def Keeps (R : σ → σ → Prop) (x y : Action σ α) : Prop := x = y ∧ Along R x

theorem congruence_keeps : Congruence fun _ x y => Keeps R x y where
  answer a := ⟨rfl, along_pure a⟩
  fault e := ⟨rfl, along_fail e⟩
  seq h hf := by
    obtain rfl := h.1
    obtain rfl := funext fun a => (hf a).1
    exact ⟨rfl, h.2.bind fun a => (hf a).2⟩

theorem along_mapM {g : β → Action σ α} (h : ∀ b, Along R (g b)) (bs : List β) : Along R (bs.mapM g) :=
  (congruence_keeps.mapM (fun b => ⟨rfl, h b⟩) bs).2

theorem along_replicate (h : Along R x) (count : Nat) : Along R (replicate count x) :=
  (congruence_keeps.replicate ⟨rfl, h⟩ count).2

theorem along_iterate {x : Action σ Unit} (h : Along R x) (count : Nat) : Along R (iterate x count) :=
  (congruence_keeps.iterate ⟨rfl, h⟩ count).2

end Action

/-! ### Runs of a store -/

namespace Store

open TypedWire.Action

instance : IsPreorder Store Grows where
  refl := Grows.refl
  trans _ _ _ := Grows.trans

theorem leads_putValue (x : Value) (s : Store) :
    Leads Grows (putValue x) s fun v s' => s'.valueAt v = .ok x := by
  refine (runs_putValue s x).mono (fun v s' ⟨hs, hv, _⟩ => ⟨hs, hv⟩) ?_
  rintro e s' ⟨rfl, -⟩
  exact .refl s'

theorem leads_putBytes (bytes : List UInt8) (s : Store) :
    Leads Grows (putBytes bytes) s fun p s' => s'.bytesAt p = .ok bytes :=
  (runs_putBytes s bytes).mono (fun _ _ ⟨hs, hp, _⟩ => ⟨hs.toGrows, hp⟩) fun _ _ ⟨hs, _⟩ => hs.toGrows

end Store

end TypedWire
