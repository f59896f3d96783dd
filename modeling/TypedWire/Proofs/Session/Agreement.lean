import TypedWire.Proofs.Abreast
import TypedWire.Proofs.Session.Run
import TypedWire.Proofs.Walk

/-! Skipping agrees with decoding. Two walks over the same bytes by the same type are compared step by
    step: both end well at the same place, having charged the same, or both give up with the same
    fault, unless the one that keeps the value finds the store full. -/

namespace TypedWire

open TypedWire.Action

namespace Skip

/-! ### Skipping and skipping -/

/-- Two walks that pass over values stand at the same place. -/
def Level (k k' : State) : Prop := k.reader = k'.reader

/-- Two contexts that differ in what else lies in the store. -/
structure Same (cx cx' : Context) : Prop where
  env : cx.env = cx'.env
  types : cx.store.types = cx'.store.types
  quota : cx.quota = 0
  quota' : cx'.quota = 0

variable {cx cx' : Context} {α : Type} {t : TypeId} {spared : Fault → Prop}

theorem abreast_read (x : Action Reader α) : Abreast Level spared (read x) (read x) (· = ·) := by
  rintro ⟨reader, spent⟩ ⟨_, spent'⟩ rfl
  cases hx : x reader with
  | ok a r =>
    have hread : ∀ spent, read x ⟨reader, spent⟩ = .ok a ⟨r, spent⟩ := fun _ => by simp only [read, hx]
    exact runs_of_ok (hread spent) ⟨a, _, hread spent', rfl, rfl⟩
  | error e r =>
    have hread : ∀ spent, read x ⟨reader, spent⟩ = .error e ⟨r, spent⟩ :=
      fun _ => by simp only [read, hx]
    exact runs_of_error (hread spent) (.inr ⟨_, hread spent'⟩)

/-- Without a quota nothing costs too much. -/
theorem spend_free {cx : Context} (hquota : cx.quota = 0) (n : Nat) (k : State) :
    spend cx n k = .ok () ⟨k.reader, Cost.add k.spent n⟩ := by
  have hfree : ¬ Cost.exceeds cx.quota (Cost.add k.spent n) = true := hquota ▸ Cost.not_exceeds _
  simp only [spend, if_neg hfree]

theorem read_bind {β : Type} (x : Action Reader α) (f : α → Action Reader β) :
    read (x >>= f) = read x >>= fun a => read (f a) := by
  funext ⟨reader, spent⟩
  simp only [read, bind, EStateM.bind]
  cases x reader <;> rfl

theorem abreast_spend (h : Same cx cx') (n : Nat) :
    Abreast Level spared (spend cx n) (spend cx' n) (· = ·) :=
  fun k k' hlevel => runs_of_ok (spend_free h.quota n k) ⟨(), _, spend_free h.quota' n k', hlevel, rfl⟩

theorem abreast_resolve (h : Same cx cx') (t : TypeId) : Abreast Level spared
    (Action.ofExcept (cx.env.resolve cx.store t)) (Action.ofExcept (cx'.env.resolve cx'.store t))
    (· = ·) := by
  rw [h.env, Scope.resolve_congr cx'.env h.types t]
  intro k k' hlevel
  cases cx'.env.resolve cx'.store t with
  | ok n => exact runs_of_ok rfl ⟨n, k', rfl, hlevel, rfl⟩
  | error e => exact runs_of_error rfl (.inr ⟨k', rfl⟩)

theorem walk_abreast (h : Same cx cx') : Walk (fun _ x y => Abreast Level spared x y (· = ·)) cx cx' where
  toCongruence := congruence_abreast
  read _ := abreast_read _
  resolve := abreast_resolve h
  offset _ k' hlevel := runs_of_ok rfl ⟨_, k', rfl, hlevel, congrArg Reader.offset hlevel⟩
  spend := abreast_spend h

/-- Passing over a value depends on nothing but the bytes and the types. -/
theorem abreast_value (h : Same cx cx') (depth : Nat) (t : TypeId) :
    Abreast Level spared (value cx depth t) (value cx' depth t) fun _ _ => True :=
  ((walk_abreast h).value depth t).mono fun _ _ _ => trivial

end Skip

namespace Decode

/-! ### Decoding and skipping -/

/-- The total has gone up by `n` since it was `start`, unless that passes the most that is counted. -/
def Charged (start n total : Nat) : Prop :=
  total = start + n ∨ Cost.most ≤ total ∧ Cost.most < start + n

theorem Charged.add {start n total : Nat} (h : Charged start n total) (k : Nat) :
    Charged start (n + k) (Cost.add total k) := by
  unfold Charged Cost.add at *
  omega

/-- A walk that keeps the values and one that passes over them stand at the same place, over the same
    types, and have charged the same since the totals were `cost` and `spent`. -/
structure Level (base : Store) (cost spent : Nat) (s : State) (k : Skip.State) : Prop where
  reader : s.reader = k.reader
  types : s.store.types = base.types
  charged : ∃ n, Charged cost n s.cost ∧ Charged spent n k.spent

/-- A step of decoding and one of skipping agree, unless decoding finds the store full. -/
abbrev Agree {α β : Type} (base : Store) (cost spent : Nat) (x : Action State α)
    (y : Action Skip.State β) (post : α → β → Prop) : Prop :=
  Abreast (Level base cost spent) (· = .storeFull) x y post

/-- A context of decoding and one of skipping, over the same types and without quotas. -/
structure Mates (base : Store) (cx : Context) (cx' : Skip.Context) : Prop where
  env : cx.env = cx'.env
  types : cx'.store.types = base.types
  quota : cx.quota = 0
  quota' : cx'.quota = 0

variable {base : Store} {cost spent : Nat} {cx : Context} {cx' : Skip.Context} {α β : Type}
variable {post : α → β → Prop} {depth : Nat} {t : TypeId} {y : Action Skip.State α}

theorem abreast_read {x : Action Reader α} {y : Action Reader β}
    (h : Abreast (· = ·) (· = .storeFull) x y post) : Agree base cost spent (read x) (Skip.read y) post := by
  rintro s k hlevel
  refine runs_read ((h s.reader k.reader hlevel.reader).mono ?_ ?_)
  · rintro a reader ⟨b, _, hy, rfl, hab⟩
    have hskip : Skip.read y k = .ok b { k with reader } := by simp only [Skip.read, hy]
    exact ⟨b, _, hskip, ⟨rfl, hlevel.types, hlevel.charged⟩, hab⟩
  · rintro e reader (hfull | ⟨reader', hy⟩)
    · exact .inl hfull
    · exact .inr ⟨{ k with reader := reader' }, by simp only [Skip.read, hy]⟩

theorem abreast_spend (h : Mates base cx cx') (n : Nat) :
    Agree base cost spent (spend cx n) (Skip.spend cx' n) fun _ _ => True := by
  rintro s k ⟨hreader, htypes, m, hcost, hspent⟩
  refine runs_spend (fun log _ => ?_) fun _ hover => absurd hover (h.quota ▸ Cost.not_exceeds _)
  have hcharged : ∃ k', Charged cost k' (Cost.add s.cost n) ∧ Charged spent k' (Cost.add k.spent n) :=
    ⟨m + n, hcost.add n, hspent.add n⟩
  exact ⟨(), _, Skip.spend_free h.quota' n k, ⟨hreader, htypes, hcharged⟩, trivial⟩

theorem abreast_offset : Agree base cost spent offset Skip.offset (· = ·) :=
  fun _ k hlevel => runs_of_ok rfl ⟨_, k, rfl, hlevel, congrArg Reader.offset hlevel.reader⟩

theorem abreast_spendSince (h : Mates base cx cx') (start : Nat) :
    Agree base cost spent (spendSince cx start) (Skip.spendSince cx' start)
      fun _ _ => True := by
  refine abreast_offset.bind ?_
  rintro stop _ rfl
  exact abreast_spend h _

theorem abreast_resolve (h : Mates base cx cx') (t : TypeId) : Agree base cost spent
    (resolve cx t) (Action.ofExcept (cx'.env.resolve cx'.store t)) (· = ·) := by
  intro s k hlevel
  have hsame : cx.env.resolve s.store t = cx'.env.resolve cx'.store t := by
    rw [h.env, Scope.resolve_congr cx'.env (hlevel.types.trans h.types.symm) t]
  cases hn : cx'.env.resolve cx'.store t with
  | ok n =>
    have hresolve : resolve cx t s = .ok n s := by simp only [resolve, hsame, hn]
    exact runs_of_ok hresolve ⟨n, k, rfl, hlevel, rfl⟩
  | error e =>
    have hresolve : resolve cx t s = .error e s := by simp only [resolve, hsame, hn]
    exact runs_of_error hresolve (.inr ⟨k, rfl⟩)

/-! ### What only decoding does -/

theorem abreast_put {γ : Type} {x : Action Store α} {f : α → Action State β} {y : Action Skip.State γ}
    (hx : ∀ s, Runs x s (fun _ s' => s.Grows s') fun e _ => e = .storeFull)
    (hf : ∀ a, Agree base cost spent (f a) y fun _ _ => True) :
    Agree base cost spent (put x >>= f) y fun _ _ => True := by
  refine Abreast.left (fun s k hlevel => runs_put ((hx s.store).post_mono fun _ store hs => ?_)) hf
  exact ⟨hlevel.reader, hs.types.trans hlevel.types, hlevel.charged⟩

theorem runs_putBytes (bytes : List UInt8) (s : Store) :
    Runs (Store.putBytes bytes) s (fun _ s' => s.Grows s') fun e _ => e = .storeFull :=
  (Store.runs_putBytes s bytes).mono (fun _ _ h => h.1.toGrows) fun _ _ h => h.2.1

theorem abreast_putValue (x : Value) : Agree base cost spent (put (Store.putValue x))
    (pure () : Action Skip.State Unit) fun _ _ => True := by
  have hput : ∀ s, Runs (Store.putValue x) s (fun _ s' => s.Grows s') fun e _ => e = .storeFull :=
    fun s => (Store.runs_putValue s x).mono (fun _ _ h => h.1) fun _ _ h => h.2.1
  have hall : Agree base cost spent (put (Store.putValue x) >>= pure)
      (pure () : Action Skip.State Unit) fun _ _ => True :=
    abreast_put hput fun _ => abreast_pure trivial
  rwa [bind_pure] at hall

theorem abreast_finish (h : Mates base cx cx') (start : Nat) (x : Value) :
    Agree base cost spent (finish cx start x) (Skip.spendSince cx' start) fun _ _ => True :=
  (abreast_spendSince h start).last fun _ _ _ => abreast_putValue x

/-- A payload is put into the store, and skipped over otherwise. -/
theorem abreast_payload {x : Action Reader α} {bytes : α → List UInt8} {make : Span → Value}
    {y : Action Reader Unit} (h : Abreast (· = ·) (· = .storeFull) x y fun _ _ => True) :
    Agree base cost spent (do return make (← put (Store.putBytes (bytes (← read x)))))
      (Skip.read y) fun _ _ => True :=
  (abreast_read h).last fun _ _ _ => abreast_put (runs_putBytes _) fun _ => abreast_pure trivial

/-! ### Values without parts -/

/-- What is read is dropped. -/
theorem abreast_drop (x : Action Reader α) :
    Abreast (· = ·) (· = .storeFull) x (do let _ ← x) fun _ _ => True := by
  have hall : Abreast (· = ·) (· = .storeFull) (x >>= pure) (do let _ ← x) fun _ _ => True :=
    (abreast_refl x).bind fun _ _ _ => abreast_pure trivial
  rwa [bind_pure] at hall

theorem abreast_primitive (p : Primitive) :
    Agree base cost spent (primitive p) (Skip.read (Skip.primitive p)) fun _ _ => True := by
  cases p with
  | null => exact fun s k hlevel => runs_pure ⟨(), k, rfl, hlevel, trivial⟩
  | reserved => exact fun s k hlevel => runs_pure ⟨(), k, rfl, hlevel, trivial⟩
  | empty => exact fun s k _ => runs_fail (.inr ⟨k, rfl⟩)
  | bool =>
    unfold primitive Skip.primitive
    rw [Skip.read_bind]
    refine (abreast_read (abreast_refl _)).bind ?_
    rintro b _ rfl
    split
    · exact fun s k hlevel => runs_pure ⟨(), k, rfl, hlevel, trivial⟩
    · exact fun s k hlevel => runs_pure ⟨(), k, rfl, hlevel, trivial⟩
    · next h0 h1 =>
      have hlarge : 1 < b := by
        have h0 : b.toNat ≠ 0 := fun h => h0 (UInt8.toNat_inj.mp h)
        have h1 : b.toNat ≠ 1 := fun h => h1 (UInt8.toNat_inj.mp h)
        rw [UInt8.lt_iff_toNat_lt]
        show 1 < b.toNat
        omega
      rw [if_pos hlarge]
      exact fun s k _ => runs_fail (.inr ⟨k, rfl⟩)
  | fixed f =>
    have hskip : Abreast (· = ·) (· = .storeFull) (Reader.fixed f) (Reader.skip f.width) fun _ _ => True :=
      (abreast_refl (Reader.bytes f.width)).bind fun _ _ _ => abreast_pure trivial
    exact (abreast_read hskip).last fun _ _ _ => abreast_pure trivial
  | nat => exact abreast_payload (abreast_drop _)
  | int => exact abreast_payload (abreast_drop _)
  | text => exact abreast_payload (abreast_drop _)
  | principal => exact abreast_payload (abreast_drop _)

theorem abreast_service : Agree base cost spent service (Skip.read Reader.service)
    fun _ _ => True :=
  (abreast_read (abreast_refl _)).last fun _ _ _ =>
    abreast_put (runs_putBytes _) fun _ => abreast_pure trivial

theorem abreast_func : Agree base cost spent func (Skip.read Reader.func) fun _ _ => True :=
  (abreast_read (abreast_refl _)).last fun ⟨_, _⟩ _ _ => abreast_put (runs_putBytes _) fun _ =>
    abreast_put (runs_putBytes _) fun _ => abreast_pure trivial

/-! ### Values with parts -/

/-- The place of the active field is looked up before it is charged in one walk, and after in the
    other. Both refuse a place that is not there. -/
theorem abreast_variant (h : Mates base cx cx') (start : Nat) (fields : List Field)
    (ih : ∀ t, Agree base cost spent (value cx depth t) (Skip.value cx' depth t)
      fun _ _ => True) :
    Agree base cost spent (variant cx start (value cx depth) fields)
      (Skip.variant cx' start (Skip.value cx' depth) fields) fun _ _ => True := by
  refine (abreast_read (abreast_refl _)).bind ?_
  rintro index _ rfl
  cases fields[index]? with
  | some field =>
    refine (abreast_spendSince h start).bind fun _ _ _ => (ih field.type).last fun v _ _ => ?_
    exact abreast_putValue _
  | none =>
    intro s k _
    refine runs_bind (runs_bind (runs_of_ok rfl (runs_spend (fun _ _ => ?_) fun _ hover => ?_)))
    · exact runs_fail (.inr ⟨k, rfl⟩)
    · exact absurd hover (h.quota ▸ Cost.not_exceeds _)

/-- Decoding a value and passing over it agree. -/
theorem abreast_value (h : Mates base cx cx') : ∀ (depth : Nat) (t : TypeId),
    Agree base cost spent (value cx depth t) (Skip.value cx' depth t) fun _ _ => True := by
  intro depth
  induction depth with
  | zero => exact fun t => abreast_fail .overflow
  | succ depth ih =>
    intro t
    refine (abreast_resolve h t).bind ?_
    rintro n _ rfl
    refine abreast_offset.bind ?_
    rintro start _ rfl
    cases n with
    | primitive p => exact (abreast_primitive p).bind fun x _ _ => abreast_finish h start x
    | service methods => exact abreast_service.bind fun x _ _ => abreast_finish h start x
    | func signature => exact abreast_func.bind fun x _ _ => abreast_finish h start x
    | opt inner =>
      refine (abreast_read (abreast_refl _)).bind ?_
      rintro flag _ rfl
      refine abreast_flag (abreast_finish h start _) ?_
      refine (abreast_spendSince h start).bind fun _ _ _ => (ih inner).last fun v _ _ => ?_
      exact abreast_putValue _
    | vec element =>
      refine (abreast_read (abreast_refl _)).bind ?_
      rintro count _ rfl
      refine (abreast_spendSince h start).bind fun _ _ _ => (abreast_spend h count).bind fun _ _ _ => ?_
      refine (abreast_resolve h element).bind ?_
      rintro n _ rfl
      split
      · have hskip : Abreast (· = ·) (· = .storeFull) (Reader.bytes count) (Reader.skip count)
            fun _ _ => True :=
          abreast_drop _
        refine (abreast_read hskip).last fun bytes _ _ => abreast_put (runs_putBytes _) fun p => ?_
        exact abreast_putValue _
      · exact (abreast_replicate (ih element) count).last fun vs _ _ => abreast_putValue _
    | record fields =>
      have hfields : Agree base cost spent (fields.mapM fun field =>
          return (⟨field.label, ← value cx depth field.type⟩ : FieldValue))
          (fields.forM fun field => Skip.value cx' depth field.type) fun _ _ => True :=
        abreast_mapM fun field _ => (ih field.type).last fun _ _ _ => abreast_pure trivial
      exact hfields.last fun xs _ _ => abreast_putValue _
    | variant fields => exact abreast_variant h start fields ih
    | var name => exact abreast_fail .invalid

end Decode

namespace Session

variable {s s' : State} {k k' : Session} {store store' : Store} {call : Call}

/-! ### Sessions that stand at the same argument -/

/-- What skipping depends on is the same in both sessions, and there is no quota on it. -/
structure Level (k k' : Session) : Prop where
  header : k.header = k'.header
  config : k.config = k'.config
  reader : k.reader = k'.reader
  nextArg : k.nextArg = k'.nextArg
  quota : k.config.skippingQuota = 0

theorem abreast_skipNext (htypes : store.types = store'.types) :
    Abreast Level (fun _ => False) (skipNext store) (skipNext store') fun _ _ => True := by
  intro k k' hlevel
  have hquota' : k'.config.skippingQuota = 0 := hlevel.config ▸ hlevel.quota
  have hargs : k'.header.args[k'.nextArg]? = k.header.args[k.nextArg]? := by
    rw [hlevel.header, hlevel.nextArg]
  have hvalue : ∀ t, Abreast Skip.Level (fun _ => False)
      (Skip.value { store, env := k.header.env, quota := k.config.skippingQuota } k.config.maxDepth t)
      (Skip.value { store := store', env := k'.header.env, quota := k'.config.skippingQuota }
        k'.config.maxDepth t) fun _ _ => True := by
    intro t
    rw [hlevel.header, hlevel.config]
    refine Skip.abreast_value ?_ _ t
    exact ⟨rfl, htypes, hquota', hquota'⟩
  refine runs_skipping (fun hnone => .inr ⟨k', by simp only [skipNext, hargs, hnone]⟩) fun t harg => ?_
  refine (hvalue t ⟨k.reader, k.skipCost⟩ ⟨k'.reader, k'.skipCost⟩ hlevel.reader).mono ?_ ?_
  · rintro _ r ⟨_, r', hskip, hreader, -⟩
    refine ⟨r'.reader.offset - k'.reader.offset, { k' with
      reader := r'.reader, skipCost := r'.spent, nextArg := k'.nextArg + 1 }, ?_,
      ⟨hlevel.header, hlevel.config, hreader, congrArg (· + 1) hlevel.nextArg, hlevel.quota⟩, trivial⟩
    simp only [skipNext, hargs, harg, hskip]
  · rintro e r (hfalse | ⟨r', hskip⟩)
    · exact hfalse.elim
    · exact .inr ⟨k', by simp only [skipNext, hargs, harg, hskip]⟩

theorem abreast_finish (htypes : store.types = store'.types) :
    Abreast Level (fun _ => False) (Session.finish store) (Session.finish store') fun _ _ => True := by
  have hget : Abreast Level (fun _ => False) (get : Action Session Session) get Level :=
    fun k k' hlevel => runs_of_ok rfl ⟨k', k', rfl, hlevel, hlevel⟩
  refine hget.bind fun k k' hlevel => ?_
  rw [hlevel.header, hlevel.nextArg]
  have hskip : Abreast Level (fun _ => False) (do let _ ← skipNext store) (do let _ ← skipNext store')
      fun _ _ => True :=
    (abreast_skipNext htypes).bind fun _ _ _ => abreast_pure trivial
  refine (abreast_iterate hskip _).bind fun _ _ _ => hget.bind fun r r' hlevel => ?_
  rw [remaining, remaining, hlevel.reader]
  split
  · exact abreast_fail .invalid
  · exact abreast_pure trivial

/-! ### The verdict -/

/-- The state after some calls. One that fails is passed over. -/
def State.after (s : State) (calls : List Call) : State :=
  calls.foldl (fun s call => (call.perform.outcome s).2) s

/-- What ending the session answers. -/
def State.verdict (s : State) : Except Fault Unit := (Call.finish.perform.outcome s).1

theorem verdict_eq (s : State) : s.verdict = ((Session.finish s.store).outcome s.session).1 := by
  unfold State.verdict Call.perform within outcome
  dsimp only
  cases Session.finish s.store s.session <;> rfl

/-- Sessions that stand at the same argument are ended alike. -/
theorem verdict_level (hlevel : Level s.session s'.session) (htypes : s.store.types = s'.store.types) :
    s.verdict = s'.verdict := by
  rw [verdict_eq, verdict_eq]
  exact Abreast.answer (abreast_finish htypes) hlevel

theorem skipNext_eq_ok {length : Nat} (h : skipNext store k = .ok length k') :
    k'.header = k.header ∧ k'.nextArg = k.nextArg + 1 ∧ k.nextArg < k.header.args.length := by
  have hrun : Runs (skipNext store) k (fun _ k' => k'.header = k.header ∧ k'.nextArg = k.nextArg + 1 ∧
      k.nextArg < k.header.args.length) fun _ _ => True := by
    refine runs_skipping (fun _ => trivial) fun t harg => ?_
    have hlt := (List.getElem?_eq_some_iff.mp harg).1
    unfold Runs
    split
    · exact ⟨rfl, rfl, hlt⟩
    · trivial
  exact hrun.ok h

theorem skipNext_error {e : Fault} (h : skipNext store k = .error e k') : k' = k := by
  have hrun : Runs (skipNext store) k (fun _ _ => True) fun _ k' => k' = k := by
    refine runs_skipping (fun _ => rfl) fun t _ => ?_
    unfold Runs
    split
    · trivial
    · rfl
  exact hrun.error h

/-- Ending a session begins with the next argument. -/
theorem verdict_skipped {length : Nat} (h : skipNext s.store s.session = .ok length k) :
    (⟨k, s.store⟩ : State).verdict = s.verdict := by
  obtain ⟨hheader, hnext, hlt⟩ := skipNext_eq_ok h
  have hstep : (do let _ ← skipNext s.store : Action Session Unit) s.session = .ok () k := bind_run h
  have hleft : s.session.header.args.length - s.session.nextArg =
      (k.header.args.length - k.nextArg) + 1 := by
    rw [hheader, hnext]
    omega
  have hfinish : Session.finish s.store s.session = Session.finish s.store k := by
    have hget : ∀ k : Session, (get : Action Session Session) k = .ok k k := fun _ => rfl
    unfold Session.finish
    rw [bind_run (hget s.session), bind_run (hget k), hleft, skipMany, iterate, bind_assoc,
      bind_run hstep]
    rfl
  rw [verdict_eq, verdict_eq, outcome, outcome, hfinish]

/-! ### Reading and skipping -/

/-- Reading the next argument and passing over it agree. Reading does not move on where it fails, and
    adds no types. -/
theorem readNext_agrees (hdecode : s.session.config.decodingQuota = 0)
    (hskip : s.session.config.skippingQuota = 0) : Runs readNext s
    (fun _ s' => s'.store.types = s.store.types ∧ ∃ length k, skipNext s.store s.session = .ok length k ∧
      Level k s'.session ∧ length = s'.session.reader.offset - s.session.reader.offset ∧
      ∃ n, Decode.Charged s.session.cost n s'.session.cost ∧
        Decode.Charged s.session.skipCost n k.skipCost)
    fun e s' => s'.store.types = s.store.types ∧ Level s.session s'.session ∧
      (e = .storeFull ∨ skipNext s.store s.session = .error e s.session) := by
  refine runs_reading (fun hnone => ⟨rfl, ⟨rfl, rfl, rfl, rfl, hskip⟩, .inr ?_⟩) fun t log harg => ?_
  · simp only [skipNext, hnone]
  · have hmates : Decode.Mates s.store s.session.context
        { store := s.store, env := s.session.header.env, quota := s.session.config.skippingQuota } :=
      ⟨rfl, rfl, hdecode, hskip⟩
    have hstart : Decode.Level s.store s.session.cost s.session.skipCost
        ⟨s.session.reader, s.store, s.session.cost, log⟩ ⟨s.session.reader, s.session.skipCost⟩ :=
      ⟨rfl, rfl, 0, .inl rfl, .inl rfl⟩
    have htypes := Decode.typing s.session.context s.store s.session.config.maxDepth t
      ⟨s.session.reader, s.store, s.session.cost, log⟩ rfl
    refine (Runs.and htypes (Decode.abreast_value hmates s.session.config.maxDepth t _ _ hstart)).mono
      ?_ ?_
    · rintro v d ⟨⟨hgrown, -⟩, _, k, hvalue, ⟨hreader, -, hcharged⟩, -⟩ log'
      refine ⟨hgrown.types, k.reader.offset - s.session.reader.offset, { s.session with
        reader := k.reader, skipCost := k.spent, nextArg := s.session.nextArg + 1 }, ?_,
        ⟨rfl, rfl, hreader.symm, rfl, hskip⟩, by rw [hreader], hcharged⟩
      simp only [skipNext, harg, hvalue]
    · rintro e d ⟨hgrown, hfault⟩ log'
      refine ⟨hgrown.types, ⟨rfl, rfl, rfl, rfl, hskip⟩, hfault.imp id ?_⟩
      rintro ⟨k, hvalue⟩
      simp only [skipNext, harg, hvalue]

/-- Neither reading an argument nor passing over it changes how the session will end. -/
theorem verdict_call (hdecode : s.session.config.decodingQuota = 0)
    (hskip : s.session.config.skippingQuota = 0) (hcall : call = .read ∨ call = .skip) :
    ((call.perform.outcome s).2).verdict = s.verdict := by
  rcases hcall with rfl | rfl
  · have hread : Runs Call.read.perform s (fun _ s' => s'.verdict = s.verdict)
        fun _ s' => s'.verdict = s.verdict := by
      refine runs_bind ((readNext_agrees hdecode hskip).mono ?_ ?_)
      · rintro p s' ⟨htypes, length, k, hskipped, hlevel, -⟩
        refine runs_pure ?_
        have hsame : (⟨k, s.store⟩ : State).verdict = s'.verdict := verdict_level hlevel htypes.symm
        rw [← hsame, verdict_skipped hskipped]
      · rintro e s' ⟨htypes, hlevel, -⟩
        exact (verdict_level hlevel htypes.symm).symm
    unfold outcome
    rcases hread.ends with ⟨_, s', hs', h⟩ | ⟨e, s', hs', h⟩
    · simpa only [hs'] using h
    · simpa only [hs'] using h
  · cases hskipped : skipNext s.store s.session with
    | ok length k =>
      have hcall : Call.skip.perform s = .ok () ⟨k, s.store⟩ := by
        have hdrop : (do let _ ← skipNext s.store : Action Session Unit) s.session = .ok () k :=
          bind_run hskipped
        simp only [Call.perform, within, hdrop]
      simpa only [outcome, hcall] using verdict_skipped hskipped
    | error e k =>
      obtain rfl := skipNext_error hskipped
      have hcall : Call.skip.perform s = .error e s := by
        have hdrop : (do let _ ← skipNext s.store : Action Session Unit) s.session =
            .error e s.session := bind_eq_error.mpr (.inl hskipped)
        simp only [Call.perform, within, hdrop]
      simp only [outcome, hcall]

/-- The configuration is not changed by them either. -/
theorem config_call (hcall : call = .read ∨ call = .skip) :
    (call.perform.outcome s).2.session.config = s.session.config := by
  rcases hcall with rfl | rfl
  · have hread : Leads State.Later Call.read.perform s fun _ _ => True :=
      leads_readNext.bind fun _ _ _ _ => leads_pure trivial
    exact hread.outcome.config
  · exact beside_skip.outcome.moved.config

theorem verdict_after (calls : List Call) (hcalls : ∀ call ∈ calls, call = .read ∨ call = .skip)
    (hdecode : s.session.config.decodingQuota = 0) (hskip : s.session.config.skippingQuota = 0) :
    (s.after calls).verdict = s.verdict := by
  induction calls generalizing s with
  | nil => rfl
  | cons call calls ih =>
    rw [List.forall_mem_cons] at hcalls
    have hconfig := config_call (s := s) hcalls.1
    have hrest := ih hcalls.2 (hconfig ▸ hdecode) (hconfig ▸ hskip)
    exact hrest.trans (verdict_call hdecode hskip hcalls.1)

/-- Passing over an argument agrees with reading it, where neither costs too much and the store has
    room: the one ends well where the other does, at the same byte and the same next argument, with the
    same amount added to either total unless that passes the most that is counted; otherwise both give
    up with the same fault. So it makes no difference to how the session ends which arguments are
    read and which are passed over. -/
theorem skipNext_agrees (s : State) (hdecode : s.session.config.decodingQuota = 0)
    (hskip : s.session.config.skippingQuota = 0) (hroom : ∀ s', readNext s ≠ .error .storeFull s') :
    ((∃ p s', readNext s = .ok p s') ↔ ∃ length k, skipNext s.store s.session = .ok length k) ∧
    (∀ p s' length k, readNext s = .ok p s' → skipNext s.store s.session = .ok length k →
      k.reader = s'.session.reader ∧ k.nextArg = s'.session.nextArg ∧
      ∃ n, Decode.Charged s.session.cost n s'.session.cost ∧
        Decode.Charged s.session.skipCost n k.skipCost) ∧
    (∀ e s' e' k, readNext s = .error e s' → skipNext s.store s.session = .error e' k → e = e') ∧
    ∀ calls, (∀ call ∈ calls, call = .read ∨ call = .skip) →
      (s.after calls).verdict = (s.after (List.replicate s.session.header.args.length .read)).verdict := by
  have hagree := readNext_agrees hdecode hskip
  refine ⟨⟨?_, ?_⟩, ?_, ?_, ?_⟩
  · rintro ⟨p, s', hread⟩
    obtain ⟨-, length, k, hskipped, -⟩ := hagree.ok hread
    exact ⟨length, k, hskipped⟩
  · rintro ⟨length, k, hskipped⟩
    rcases hagree.ends with ⟨p, s', hread, -⟩ | ⟨e, s', hread, -, -, hfull | hfault⟩
    · exact ⟨p, s', hread⟩
    · exact absurd (hfull ▸ hread) (hroom s')
    · exact absurd (hskipped.symm.trans hfault) (by simp)
  · intro p s' length k hread hskipped
    obtain ⟨-, length', k', hskipped', hlevel, -, hcharged⟩ := hagree.ok hread
    rw [hskipped, EStateM.Result.ok.injEq] at hskipped'
    obtain ⟨-, rfl⟩ := hskipped'
    exact ⟨hlevel.reader, hlevel.nextArg, hcharged⟩
  · intro e s' e' k hread hskipped
    obtain ⟨-, -, hfull | hfault⟩ := hagree.error hread
    · exact absurd (hfull ▸ hread) (hroom s')
    · rw [hskipped, EStateM.Result.error.injEq] at hfault
      exact hfault.1.symm
  · intro calls hcalls
    rw [verdict_after calls hcalls hdecode hskip, verdict_after _ ?_ hdecode hskip]
    exact fun call hcall => .inl (List.eq_of_mem_replicate hcall)

theorem number_agrees : ∃ session store, start numberMessage {} {} = .ok session store ∧
    ∃ p s length k, readNext ⟨session, store⟩ = .ok p s ∧ skipNext store session = .ok length k ∧
      k.reader = s.session.reader ∧
      ((⟨session, store⟩ : State).after [.skip]).verdict = ((⟨session, store⟩ : State).after
        (List.replicate session.header.args.length .read)).verdict := by
  have hopen : (start numberMessage {}).passes {} (fun session store =>
      readNext.passes ⟨session, store⟩ fun _ _ => true) = true := by decide +kernel
  obtain ⟨session, store, hstart, hread⟩ := passes_iff.mp hopen
  obtain ⟨p, s, hread, -⟩ := passes_iff.mp hread
  obtain ⟨_, -, hconfig, -⟩ := start_eq_ok hstart
  obtain ⟨hiff, hsame, -, hverdict⟩ := skipNext_agrees ⟨session, store⟩
    (congrArg Config.decodingQuota hconfig) (congrArg Config.skippingQuota hconfig) (by simp [hread])
  obtain ⟨length, k, hskipped⟩ := hiff.mp ⟨p, s, hread⟩
  refine ⟨session, store, hstart, p, s, length, k, hread, hskipped, ?_, hverdict _ ?_⟩
  · exact (hsame p s length k hread hskipped).1
  · simp

end Session

end TypedWire
