import TypedWire.Proofs.Budget
import TypedWire.Proofs.Session.Agreement
import TypedWire.Proofs.Session.Quota
import TypedWire.Proofs.Value.Parts
import TypedWire.Proofs.Walk

/-! The nesting bound cuts off exactly the values that nest deeper. A run under a bound does the same, step
    by step, as one under a larger bound until the bound is spent; and it is spent only where the value
    that the other run gives nests deeper than it. -/

namespace TypedWire

open TypedWire.Action

namespace Store

variable {s s' : Store} {w : Scope} {form : Form} {sub : ValueId → TypeId → Prop} {depth : Nat}
variable {v u : ValueId} {x : Value} {n : TypeNode} {t : TypeId}

/-- What fills a node has parts of the types that the node names. -/
theorem Fills.parts (h : s.Fills w form sub x n) (hu : u ∈ x.parts) : ∃ t, sub u t := by
  cases h with
  | some hv => exact ⟨_, List.mem_singleton.mp hu ▸ hv⟩
  | vec _ hitems => exact ⟨_, hitems u hu⟩
  | record hfields =>
    obtain ⟨field, hfield, rfl⟩ := List.mem_map.mp hu
    obtain ⟨i, hi, rfl⟩ := List.getElem_of_mem hfield
    exact ⟨_, ((List.forall₂_iff_get.mp hfields).2 i (hfields.length_eq ▸ hi) hi).2⟩
  | variant _ _ hv => exact ⟨_, List.mem_singleton.mp hu ▸ hv⟩
  | _ => exact absurd hu List.not_mem_nil

theorem OfType.nests : ∀ {depth : Nat} {v : ValueId} {t : TypeId}, s.OfType w form depth v t →
    s.Nests depth v
  | 0, _, _, h => h.elim
  | _ + 1, _, _, ⟨_, _, _, x, hx, h⟩ => by
    refine ⟨x, hx, fun u hu => ?_⟩
    obtain ⟨t, ht⟩ := h.parts hu
    exact OfType.nests ht

end Store

/-! ### Until the bound is spent -/

namespace Skip

theorem walk_cuts (cx : Context) : Walk (fun _ x y => Cuts x y) cx cx where
  toCongruence := congruence_cuts
  read _ := cuts_refl _
  resolve _ := cuts_refl _
  offset := cuts_refl _
  spend _ := cuts_refl _

theorem cuts_value (cx : Context) : ∀ {depth depth' : Nat}, depth ≤ depth' → ∀ t : TypeId,
    Cuts (value cx depth t) (value cx depth' t)
  | 0, _, _, _ => cuts_spent _
  | _ + 1, 0, hle, _ => absurd hle (by omega)
  | _ + 1, _ + 1, hle, t => (walk_cuts cx).level (cuts_value cx (by omega)) t

end Skip

namespace Decode

variable {cx : Context} {fin : Store} {depth depth' : Nat} {s s' : State} {t : TypeId} {v : ValueId}
variable {α β ι : Type} {x y : Action State α} {f g : α → Action State β}

theorem walk_cuts (cx : Context) : Walk (fun _ x y => Cuts x y) cx cx where
  toCongruence := congruence_cuts
  read _ := cuts_refl _
  put _ := cuts_refl _
  resolve _ := cuts_refl _
  offset := cuts_refl _
  spend _ := cuts_refl _

theorem cuts_value (cx : Context) : ∀ {depth depth' : Nat}, depth ≤ depth' → ∀ t : TypeId,
    Cuts (value cx depth t) (value cx depth' t)
  | 0, _, _, _ => cuts_spent _
  | _ + 1, 0, hle, _ => absurd hle (by omega)
  | _ + 1, _ + 1, hle, t => (walk_cuts cx).level (cuts_value cx (by omega)) t

/-! ### Where the bound is enough -/

theorem along_value (cx : Context) (depth : Nat) (t : TypeId) : Along Grown (value cx depth t) := fun s =>
  (typing cx s.store depth t s rfl).mono fun _ _ _ _ => trivial

/-- Where `y` ends well, in a store that grows to `fin`, and its result is `small`, `x` ends in the same
    way. -/
def Suffices (x y : Action State α) (small : α → Prop) (fin : Store) : Prop :=
  ∀ s a s', y s = .ok a s' → s'.store.Extends fin → small a → x s = .ok a s'

variable {small : α → Prop} {smallB : β → Prop}

theorem suffices_refl (x : Action State α) (small : α → Prop) (fin : Store) : Suffices x x small fin :=
  fun _ _ _ h _ _ => h

/-- What is done first is the same in both runs. -/
theorem suffices_after (x : Action State α) (hf : ∀ a, Suffices (f a) (g a) smallB fin) :
    Suffices (x >>= f) (x >>= g) smallB fin := by
  intro s b s' h hfin hb
  obtain ⟨a, s1, hx, hg⟩ := bind_eq_ok.mp h
  exact bind_eq_ok.mpr ⟨a, s1, hx, hf a s1 b s' hg hfin hb⟩

/-- What comes first is small if what comes of it is. -/
theorem Suffices.bind (h : Suffices x y small fin) (hf : ∀ a, Suffices (f a) (g a) smallB fin)
    (hgrown : ∀ a, Along Grown (g a))
    (hsmall : ∀ a s b s', g a s = .ok b s' → s'.store.Extends fin → smallB b → small a) :
    Suffices (x >>= f) (y >>= g) smallB fin := by
  intro s b s' hrun hfin hb
  obtain ⟨a, s1, hy, hg⟩ := bind_eq_ok.mp hrun
  have hgrows : s1.store.Grows s'.store := ((hgrown a s1).ok hg).1
  have hx := h s a s1 hy (hgrows.toExtends.trans hfin) (hsmall a s1 b s' hg hfin hb)
  exact bind_eq_ok.mpr ⟨a, s1, hx, hf a s1 b s' hg hfin hb⟩

/-- A node that is put in nests one deeper than its parts. -/
theorem Suffices.put {node : α → Value} (h : Suffices x y small fin)
    (hsmall : ∀ a, (∀ u ∈ (node a).parts, fin.Nests depth u) → small a) :
    Suffices (x >>= fun a => put (Store.putValue (node a))) (y >>= fun a => put (Store.putValue (node a)))
      (fin.Nests (depth + 1)) fin := by
  have hput : ∀ a s, Leads Grown (Decode.put (Store.putValue (node a))) s fun v s' =>
      s'.store.valueAt v = .ok (node a) := fun a s => leads_put (Store.leads_putValue (node a) s.store)
  refine h.bind (fun a => suffices_refl _ _ fin) (fun a s => (hput a s).mono fun _ _ _ _ => trivial) ?_
  rintro a s v s' hrun hfin ⟨x, hx, hparts⟩
  rw [hfin.valueAt v _ ((hput a s).ok hrun).2, Except.ok.injEq] at hx
  exact hsmall a (hx ▸ hparts)

/-- One more result in front of a list of them. -/
theorem Suffices.cons {xs ys : Action State (List α)} (h : Suffices x y small fin)
    (hs : Suffices xs ys (fun as => ∀ a ∈ as, small a) fin) (hgrown : Along Grown ys) :
    Suffices (do let a ← x; let as ← xs; return a :: as) (do let a ← y; let as ← ys; return a :: as)
      (fun as => ∀ a ∈ as, small a) fin := by
  refine h.bind (fun a => ?_) (fun a => Along.bind hgrown fun as => along_pure (a :: as)) ?_
  · refine hs.bind (fun as => suffices_refl _ _ fin) (fun as => along_pure (a :: as)) ?_
    rintro as s _ s' hrun - hall
    obtain ⟨rfl, rfl⟩ := pure_eq_ok.mp hrun
    exact fun b hb => hall b (List.mem_cons_of_mem a hb)
  · rintro a s _ s' hrun - hall
    obtain ⟨as, s1, -, hrun⟩ := bind_eq_ok.mp hrun
    obtain ⟨rfl, rfl⟩ := pure_eq_ok.mp hrun
    exact hall a List.mem_cons_self

theorem suffices_mapM {x y : ι → Action State α} (h : ∀ i, Suffices (x i) (y i) small fin)
    (hgrown : ∀ i, Along Grown (y i)) : ∀ is : List ι,
    Suffices (is.mapM x) (is.mapM y) (fun as => ∀ a ∈ as, small a) fin
  | [] => suffices_refl _ _ fin
  | i :: is => by
    rw [List.mapM_cons, List.mapM_cons]
    exact (h i).cons (suffices_mapM h hgrown is) (along_mapM hgrown is)

theorem suffices_replicate (h : Suffices x y small fin) (hgrown : Along Grown y) : ∀ count,
    Suffices (replicate count x) (replicate count y) (fun as => ∀ a ∈ as, small a) fin
  | 0 => suffices_refl _ _ fin
  | count + 1 => by
    rw [replicate_succ, replicate_succ]
    exact h.cons (suffices_replicate h hgrown count) (along_replicate hgrown count)

/-- A bound that the value keeps to is enough for it. -/
theorem suffices_value (cx : Context) (fin : Store) : ∀ (depth depth' : Nat) (t : TypeId),
    Suffices (value cx depth t) (value cx depth' t) (fin.Nests depth) fin
  | 0, _, _ => fun _ _ _ _ _ h => h.elim
  | _ + 1, 0, _ => fun _ _ _ h _ _ => absurd h fail_eq_ok
  | depth + 1, depth' + 1, t => by
    have ih : ∀ t, Suffices (value cx depth t) (value cx depth' t) (fin.Nests depth) fin :=
      suffices_value cx fin depth depth'
    refine suffices_after _ fun node => suffices_after _ fun start => ?_
    cases node with
    | opt inner =>
      refine suffices_after _ fun flag => ?_
      split
      · exact suffices_refl _ _ fin
      · exact suffices_after _ fun _ => (ih inner).put fun v hv => hv v List.mem_cons_self
      · exact suffices_refl _ _ fin
    | vec element =>
      refine suffices_after _ fun count => suffices_after _ fun _ => suffices_after _ fun _ => ?_
      refine suffices_after _ fun node => ?_
      split
      · exact suffices_refl _ _ fin
      · exact (suffices_replicate (ih element) (along_value cx depth' element) count).put fun vs hvs => hvs
    | record fields =>
      have hfield : ∀ field : Field, Suffices
          (do return (⟨field.label, ← value cx depth field.type⟩ : FieldValue))
          (do return ⟨field.label, ← value cx depth' field.type⟩) (fun x => fin.Nests depth x.value) fin := by
        refine fun field => (ih field.type).bind (fun v => suffices_refl _ _ fin)
          (fun v => along_pure _) ?_
        rintro v s _ s' hrun - hv
        obtain ⟨rfl, rfl⟩ := pure_eq_ok.mp hrun
        exact hv
      have hgrown : ∀ field : Field, Along Grown
          (do return (⟨field.label, ← value cx depth' field.type⟩ : FieldValue)) := fun field =>
        Along.bind (along_value cx depth' field.type) fun v => along_pure _
      exact (suffices_mapM hfield hgrown fields).put fun xs hxs x hx => hxs _ (List.mem_map_of_mem hx)
    | variant fields =>
      refine suffices_after _ fun index => suffices_after _ fun _ => ?_
      split
      · exact (ih _).put fun v hv => hv v List.mem_cons_self
      · exact suffices_refl _ _ fin
    | _ => exact suffices_refl _ _ fin

end Decode

/-! ### Sessions -/

/-- The same end of a run, with the state that it leaves seen through `f`. -/
def Action.endAs {σ τ α : Type} (f : σ → τ) : EStateM.Result Fault σ α → EStateM.Result Fault τ α
  | .ok a s => .ok a (f s)
  | .error e s => .error e (f s)

/-- The same configuration with another bound on how deep values may nest. -/
def Config.deep (config : Config) (depth : Nat) : Config := { config with maxDepth := depth }

/-- The same session with another bound. -/
def Session.deep (k : Session) (depth : Nat) : Session := { k with config := k.config.deep depth }

namespace Session

/-- The same state with another bound. -/
def State.deep (s : State) (depth : Nat) : State := ⟨s.session.deep depth, s.store⟩

variable {d D : Nat} {s s' : State} {t : TypeId} {v : ValueId} {k : Session} {store : Store}

/-- Without an argument nothing is decoded. -/
theorem readNext_none (harg : k.header.args[k.nextArg]? = none) :
    readNext ⟨k, store⟩ = .error .invalid ⟨k, store⟩ := by
  simp only [readNext, harg]

/-- Reading under a bound is decoding under it. -/
theorem readNext_deep (harg : k.header.args[k.nextArg]? = some t) (depth : Nat) :
    readNext (State.deep ⟨k, store⟩ depth) =
      endAs (·.deep depth) (closing k t (Decode.value k.context depth t (begun k store t))) := by
  have harg' : (k.deep depth).header.args[(k.deep depth).nextArg]? = some t := harg
  refine (readNext_closing harg').trans ?_
  have hcontext : (k.deep depth).context = k.context := rfl
  have hbegun : begun (k.deep depth) store t = begun k store t := rfl
  have hbound : (k.deep depth).config.maxDepth = depth := rfl
  rw [hcontext, hbegun, hbound]
  cases Decode.value k.context depth t (begun k store t) <;> rfl

/-- What passing over an argument makes of how the walk over it ends. -/
def passing (k : Session) : EStateM.Result Fault Skip.State Unit → EStateM.Result Fault Session Nat
  | .ok _ r => .ok (r.reader.offset - k.reader.offset)
      { k with reader := r.reader, skipCost := r.spent, nextArg := k.nextArg + 1 }
  | .error e _ => .error e k

/-- What passing over an argument works on. -/
def skipContext (k : Session) (store : Store) : Skip.Context :=
  { store, env := k.header.env, quota := k.config.skippingQuota }

/-- Passing over an argument under a bound is a walk under it. -/
theorem skipNext_deep (harg : k.header.args[k.nextArg]? = some t) (depth : Nat) :
    skipNext store (k.deep depth) = endAs (·.deep depth)
      (passing k (Skip.value (k.skipContext store) depth t ⟨k.reader, k.skipCost⟩)) := by
  have harg' : (k.deep depth).header.args[(k.deep depth).nextArg]? = some t := harg
  have hwalk : ∀ k : Session, k.header.args[k.nextArg]? = some t → skipNext store k =
      passing k (Skip.value (k.skipContext store) k.config.maxDepth t ⟨k.reader, k.skipCost⟩) := by
    intro k harg
    simp only [skipNext, harg, skipContext]
    cases Skip.value _ _ _ _ <;> rfl
  have hcontext : (k.deep depth).skipContext store = k.skipContext store := rfl
  have hbound : (k.deep depth).config.maxDepth = depth := rfl
  have hplace : (⟨(k.deep depth).reader, (k.deep depth).skipCost⟩ : Skip.State) =
      ⟨k.reader, k.skipCost⟩ := rfl
  rw [hwalk _ harg', hcontext, hbound, hplace]
  cases Skip.value (k.skipContext store) depth t ⟨k.reader, k.skipCost⟩ <;> rfl

/-- Under a larger bound an argument is read in the same way, or the smaller one is spent. -/
theorem readNext_cuts (hle : d ≤ D) (s : State) :
    readNext (s.deep D) = endAs (·.deep D) (readNext (s.deep d)) ∨
      ∃ s', readNext (s.deep d) = .error .overflow s' := by
  obtain ⟨k, store⟩ := s
  cases harg : k.header.args[k.nextArg]? with
  | none =>
    have hnone : ∀ depth, readNext (State.deep ⟨k, store⟩ depth) =
        .error .invalid (State.deep ⟨k, store⟩ depth) := fun _ => readNext_none harg
    exact .inl (by rw [hnone, hnone]; rfl)
  | some t =>
    rw [readNext_deep harg, readNext_deep harg]
    rcases Decode.cuts_value k.context hle t (begun k store t) with hsame | ⟨r, hover⟩
    · left
      rw [← hsame]
      cases Decode.value k.context d t (begun k store t) <;> rfl
    · exact .inr ⟨_, by rw [hover]; rfl⟩

/-- Under a larger bound an argument is passed over in the same way, or the smaller one is spent. -/
theorem skipNext_cuts (hle : d ≤ D) (store : Store) (k : Session) :
    skipNext store (k.deep D) = endAs (·.deep D) (skipNext store (k.deep d)) ∨
      skipNext store (k.deep d) = .error .overflow (k.deep d) := by
  cases harg : k.header.args[k.nextArg]? with
  | none =>
    have hnone : ∀ depth, skipNext store (k.deep depth) = .error .invalid (k.deep depth) := by
      intro depth
      have harg' : (k.deep depth).header.args[(k.deep depth).nextArg]? = none := harg
      simp only [skipNext, harg']
    exact .inl (by rw [hnone, hnone]; rfl)
  | some t =>
    rw [skipNext_deep harg, skipNext_deep harg]
    rcases Skip.cuts_value (k.skipContext store) hle t ⟨k.reader, k.skipCost⟩ with hsame | ⟨r, hover⟩
    · left
      rw [← hsame]
      cases Skip.value (k.skipContext store) d t ⟨k.reader, k.skipCost⟩ <;> rfl
    · exact .inr (by rw [hover]; rfl)

/-- What is read under a bound nests no deeper. -/
theorem nests_of_readNext (h : readNext (s.deep d) = .ok (t, v) s') : s'.store.Nests d v :=
  (leads_readNextWithin.ok h).2.2.2.2.nests

/-- Reading ends well under a bound that the value keeps to, where it does under another. -/
theorem readNext_suffices (h : readNext (s.deep D) = .ok (t, v) s') (hnests : s'.store.Nests d v) :
    ∃ s1, readNext (s.deep d) = .ok (t, v) s1 := by
  obtain ⟨k, store⟩ := s
  have harg : k.header.args[k.nextArg]? = some t := (readNext_eq_ok h).1
  rw [readNext_deep harg] at h ⊢
  cases hvalue : Decode.value k.context D t (begun k store t) with
  | error e r =>
    rw [hvalue] at h
    exact absurd h (by simp [endAs, closing])
  | ok u r =>
    rw [hvalue, closing, endAs, EStateM.Result.ok.injEq, Prod.mk.injEq] at h
    obtain ⟨⟨-, rfl⟩, rfl⟩ := h
    have hrun := Decode.suffices_value k.context r.store d D t _ u r hvalue (.refl _) hnests
    exact ⟨_, by rw [hrun]; rfl⟩

/-- What is read under a bound is what is read under a larger one and nests no deeper than the bound. -/
theorem readNext_deep_iff (hle : d ≤ D) (t : TypeId) (v : ValueId) :
    (∃ s1, readNext (s.deep d) = .ok (t, v) s1) ↔
      ∃ s1, readNext (s.deep D) = .ok (t, v) s1 ∧ s1.store.Nests d v := by
  constructor
  · rintro ⟨s1, h⟩
    rcases readNext_cuts hle s with hsame | ⟨s2, hover⟩
    · have hnests : s1.store.Nests d v := nests_of_readNext h
      exact ⟨s1.deep D, by rw [hsame, h]; rfl, hnests⟩
    · exact absurd (h.symm.trans hover) (by simp)
  · rintro ⟨s1, h, hnests⟩
    exact readNext_suffices h hnests

/-- A value that nests deeper spends the bound. -/
theorem readNext_deeper (hle : d ≤ D) (h : readNext (s.deep D) = .ok (t, v) s')
    (hdeeper : ¬ s'.store.Nests d v) : ∃ s1, readNext (s.deep d) = .error .overflow s1 := by
  refine (readNext_cuts hle s).resolve_left fun hsame => ?_
  rw [h] at hsame
  cases hrun : readNext (s.deep d) with
  | error e s1 =>
    rw [hrun, endAs] at hsame
    exact absurd hsame (by simp)
  | ok found s1 =>
    rw [hrun, endAs, EStateM.Result.ok.injEq] at hsame
    obtain ⟨rfl, rfl⟩ := hsame
    have hwithin : s1.store.Nests d v := nests_of_readNext hrun
    exact hdeeper hwithin

/-- Passing over an argument goes as reading it does, under every bound for which a larger one finds room
    in the store: there is room under the smaller one too. -/
theorem skipNext_mates (hle : d ≤ D) (hdecode : s.session.config.decodingQuota = 0)
    (hskip : s.session.config.skippingQuota = 0) (hroom : ∀ s1, readNext (s.deep D) ≠ .error .storeFull s1) :
    Runs readNext (s.deep d)
      (fun _ _ => ∃ length k, skipNext s.store (s.session.deep d) = .ok length k)
      fun e _ => skipNext s.store (s.session.deep d) = .error e (s.session.deep d) := by
  have hboth : Runs readNext (s.deep d) _ _ := readNext_agrees hdecode hskip
  rcases hboth.ends with ⟨found, s1, hrun, -, length, k, hskipped, -⟩ | ⟨e, s1, hrun, -, -, hfault⟩
  · exact runs_of_ok hrun ⟨length, k, hskipped⟩
  · refine runs_of_error hrun (hfault.resolve_left ?_)
    rintro rfl
    rcases readNext_cuts hle s with hsame | ⟨s2, hover⟩
    · exact hroom (s1.deep D) (by rw [hsame, hrun]; rfl)
    · exact absurd (hrun.symm.trans hover) (by simp)

/-- The bound cuts off exactly what nests deeper. Reading gives a value under it if and only if it gives
    this value under a larger one and the value nests no deeper than the bound; where it nests deeper, the
    bound is spent; and any end but that is the end under the larger bound too, with all that is left in
    the session and in the store. Without quotas, and where the store has room, the same holds of passing
    over the argument. -/
theorem readNext_cutOff (s : State) (d D : Nat) (hle : d ≤ D) :
    (∀ t v, (∃ s1, readNext (s.deep d) = .ok (t, v) s1) ↔
      ∃ s1, readNext (s.deep D) = .ok (t, v) s1 ∧ s1.store.Nests d v) ∧
    (∀ t v s1, readNext (s.deep D) = .ok (t, v) s1 → ¬ s1.store.Nests d v →
      ∃ s2, readNext (s.deep d) = .error .overflow s2) ∧
    ((readNext.outcome (s.deep d)).1 ≠ .error .overflow →
      readNext (s.deep D) = endAs (·.deep D) (readNext (s.deep d))) ∧
    (((skipNext s.store).outcome (s.session.deep d)).1 ≠ .error .overflow →
      skipNext s.store (s.session.deep D) = endAs (·.deep D) (skipNext s.store (s.session.deep d))) ∧
    (s.session.config.decodingQuota = 0 → s.session.config.skippingQuota = 0 →
      (∀ s1, readNext (s.deep D) ≠ .error .storeFull s1) →
      (∀ length, (∃ k, skipNext s.store (s.session.deep d) = .ok length k) ↔
        (∃ k, skipNext s.store (s.session.deep D) = .ok length k) ∧
          ∃ t v s1, readNext (s.deep D) = .ok (t, v) s1 ∧ s1.store.Nests d v) ∧
      ∀ t v s1, readNext (s.deep D) = .ok (t, v) s1 → ¬ s1.store.Nests d v →
        skipNext s.store (s.session.deep d) = .error .overflow (s.session.deep d)) := by
  refine ⟨readNext_deep_iff hle, fun t v s1 => readNext_deeper hle,
    fun hspare => (readNext_cuts hle s).resolve_right ?_,
    fun hspare => (skipNext_cuts hle s.store s.session).resolve_right ?_, fun hdecode hskip hroom => ?_⟩
  · rintro ⟨s2, hover⟩
    exact hspare (by rw [outcome, hover])
  · intro hover
    exact hspare (by rw [outcome, hover])
  have hmates := skipNext_mates hle hdecode hskip hroom
  refine ⟨fun length => ⟨?_, ?_⟩, fun t v s1 h hdeeper => ?_⟩
  · rintro ⟨k, hskipped⟩
    rcases hmates.ends with ⟨⟨t, v⟩, s1, hrun, -⟩ | ⟨e, s1, -, hfault⟩
    · refine ⟨?_, t, v, (readNext_deep_iff hle t v).mp ⟨s1, hrun⟩⟩
      rcases skipNext_cuts hle s.store s.session with hsame | hspent
      · exact ⟨k.deep D, by rw [hsame, hskipped]; rfl⟩
      · exact absurd (hskipped.symm.trans hspent) (by simp)
    · exact absurd (hskipped.symm.trans hfault) (by simp)
  · rintro ⟨⟨k, hskipped⟩, t, v, hdeep⟩
    obtain ⟨s1, hrun⟩ := (readNext_deep_iff hle t v).mpr hdeep
    obtain ⟨length', k', hskipped'⟩ := hmates.ok hrun
    rcases skipNext_cuts hle s.store s.session with hsame | hspent
    · rw [hskipped, hskipped', endAs, EStateM.Result.ok.injEq] at hsame
      exact ⟨k', hsame.1 ▸ hskipped'⟩
    · exact absurd (hskipped'.symm.trans hspent) (by simp)
  · obtain ⟨s2, hspent⟩ := readNext_deeper hle h hdeeper
    exact hmates.error hspent

/-- A message with an `opt` in an `opt`, and a number in that. -/
def nestedMessage : List UInt8 := [0x44, 0x49, 0x44, 0x4c, 2, 0x6e, 1, 0x6e, 0x7d, 1, 0, 1, 1, 5]

/-- The value is three nodes deep: it is read under a bound of three, and not under one of two. -/
theorem nested_cutOff : ∃ session store, start nestedMessage {} {} = .ok session store ∧
    ∃ t v s1, readNext (State.deep ⟨session, store⟩ 3) = .ok (t, v) s1 ∧ s1.store.Nests 3 v ∧
      ¬ s1.store.Nests 2 v ∧ (∃ s2, readNext (State.deep ⟨session, store⟩ 2) = .error .overflow s2) ∧
      skipNext store (session.deep 2) = .error .overflow (session.deep 2) := by
  have hread : (start nestedMessage {}).passes {} (fun session store =>
      readNext.passes (State.deep ⟨session, store⟩ 3) fun found s1 =>
        decide (s1.store.Nests 3 found.2 ∧ ¬ s1.store.Nests 2 found.2)) = true := by decide +kernel
  obtain ⟨session, store, hstart, hread⟩ := passes_iff.mp hread
  obtain ⟨⟨t, v⟩, s1, hread, hnests⟩ := passes_iff.mp hread
  rw [decide_eq_true_eq] at hnests
  obtain ⟨_, -, hconfig, -⟩ := start_eq_ok hstart
  obtain ⟨-, hdeeper, -, -, hskip⟩ := readNext_cutOff ⟨session, store⟩ 2 3 (by decide)
  obtain ⟨-, hspent⟩ := hskip (congrArg Config.decodingQuota hconfig) (congrArg Config.skippingQuota hconfig)
    (by simp [hread])
  exact ⟨session, store, hstart, t, v, s1, hread, hnests.1, hnests.2, hdeeper t v s1 hread hnests.2,
    hspent t v s1 hread hnests.2⟩

end Session

end TypedWire
