import TypedWire.Proofs.Message.Closed
import TypedWire.Proofs.Session.RoundTrip
import TypedWire.Proofs.Session.Typed
import TypedWire.Proofs.Value.Preservation

/-! Sessions after any number of calls, some of which may fail. Whatever is called, the types of the
    arguments stay what the header made them, so an argument that is read by an expected type is always
    of that type. -/

namespace TypedWire.Session

open TypedWire.Action

/-! ### Calls -/

/-- Something that can be asked of a session. -/
inductive Call where
  | read
  | readAs (expected : TypeId)
  | skip
  | finish
  | charge (n : Nat)
  | bind (name : String) (type : TypeId)
  | observe (topics : Topics)

/-- An action on the session alone. -/
def within {α : Type} (action : Store → Action Session α) : Action State α := fun s =>
  match action s.store s.session with
  | .ok a session => .ok a ⟨session, s.store⟩
  | .error e session => .error e ⟨session, s.store⟩

namespace Call

/-- What the call does. -/
def perform : Call → Action State Unit
  | .read => do let _ ← readNext
  | .readAs expected => do let _ ← readNextAs expected
  | .skip => within fun store => do let _ ← skipNext store
  | .finish => within Session.finish
  | .charge n => within fun _ s =>
    match s.spend n with
    | (.ok (), s) => .ok () s
    | (.error e, s) => .error e s
  | .bind name type => within fun _ s =>
    match s.header.env.insert name type with
    | .ok env => .ok () { s with header := { s.header with env } }
    | .error e => .error e s
  | .observe topics => within fun _ s => .ok () { s with topics }

end Call

/-- The value nodes that have been put into the store since `s`. -/
def State.since (s s' : State) : List Value := s'.store.values.toList.drop s.store.values.size

/-- The value nodes that the call puts into the store by reading an argument. What reshaping adds is not
    counted. -/
def Call.made (call : Call) (s : State) : List Value :=
  match call with
  | .read | .readAs _ => s.since (readNext.outcome s).2
  | _ => []

/-- A session on `bytes` after any number of calls, the value nodes that were made by reading, and
    whether all calls ended well. In between more may be put into the store. -/
inductive Run (bytes : List UInt8) (config : Config) :
    State → (made : List Value) → (clean : Bool) → Prop where
  | start {store store' : Store} {session : Session} :
      Session.start bytes config store = .ok session store' → Run bytes config ⟨session, store'⟩ [] true
  | stored {s : State} {made : List Value} {clean : Bool} {store : Store} :
      Run bytes config s made clean → s.store.Extends store →
      Run bytes config ⟨s.session, store⟩ made clean
  | called {s : State} {made : List Value} {clean : Bool} (call : Call) :
      Run bytes config s made clean → Run bytes config (call.perform.outcome s).2
        (made ++ call.made s) (clean && (call.perform.outcome s).1.toBool)

variable {s s' : State} {t expected : TypeId} {α : Type} {session : Session} {store : Store}

/-! ### What a call leaves -/

/-- What has become of a state: names and types may have been added, the arguments are the same. -/
structure State.Later (s s' : State) : Prop where
  store : s.store.Extends s'.store
  scope : Scope.Extends ⟨s.store, s.session.header.env⟩ ⟨s'.store, s'.session.header.env⟩
  args : s'.session.header.args = s.session.header.args
  config : s'.session.config = s.session.config

instance : IsPreorder State State.Later where
  refl _ := ⟨.refl _, .refl _, rfl, rfl⟩
  trans _ _ _ h h' :=
    ⟨h.store.trans h'.store, h.scope.trans h'.scope, h'.args.trans h.args, h'.config.trans h.config⟩

/-- Where the header and the configuration are the same and the store has grown, nothing is lost. -/
theorem State.later_of_header (hs : s.store.Extends s'.store)
    (hheader : s'.session.header = s.session.header) (hconfig : s'.session.config = s.session.config) :
    s.Later s' :=
  ⟨hs, hheader ▸ Scope.extends_store _ hs, congrArg Header.args hheader, hconfig⟩

/-- Reading the next argument is decoding a value of its type. -/
theorem runs_reading {post : TypeId × ValueId → State → Prop} {lost : Fault → State → Prop}
    (hnone : s.session.header.args[s.session.nextArg]? = none → lost .invalid s)
    (hsome : ∀ t log, s.session.header.args[s.session.nextArg]? = some t →
      Runs (Decode.value s.session.context s.session.config.maxDepth t)
        ⟨s.session.reader, s.store, s.session.cost, log⟩
        (fun v d => ∀ log, post (t, v) ⟨{ s.session with
          reader := d.reader, nextArg := s.session.nextArg + 1, cost := d.cost, log }, d.store⟩)
        fun e d => ∀ log, lost e ⟨{ s.session with cost := d.cost, log }, d.store⟩) :
    Runs readNext s post lost := by
  obtain ⟨session, store⟩ := s
  cases harg : session.header.args[session.nextArg]? with
  | none =>
    have hread : readNext ⟨session, store⟩ = .error .invalid ⟨session, store⟩ := by
      simp only [readNext, harg]
    exact runs_of_error hread (hnone harg)
  | some t =>
    have hread := readNext_eq store harg
    dsimp only at hread
    rcases (hsome t _ harg).ends with ⟨v, ⟨reader, store', cost, log⟩, hvalue, hpost⟩ |
      ⟨e, ⟨reader, store', cost, log⟩, hvalue, hlost⟩
    · dsimp only at hvalue
      rw [hvalue] at hread
      exact runs_of_ok hread (hpost _)
    · dsimp only at hvalue
      rw [hvalue] at hread
      exact runs_of_error hread (hlost _)

/-- What is read is the next argument, and the one after it is the next then. -/
theorem readNext_eq_ok {v : ValueId} (h : readNext s = .ok (t, v) s') :
    s.session.header.args[s.session.nextArg]? = some t ∧
      s'.session.nextArg = s.session.nextArg + 1 ∧ s'.session.header = s.session.header := by
  have hread : Runs readNext s (fun found s' =>
      s.session.header.args[s.session.nextArg]? = some found.1 ∧
        s'.session.nextArg = s.session.nextArg + 1 ∧ s'.session.header = s.session.header)
      fun _ _ => True := by
    refine runs_reading (fun _ => trivial) fun t log harg => ?_
    unfold Runs
    split
    · exact fun _ => ⟨harg, rfl, rfl⟩
    · exact fun _ => trivial
  exact hread.ok h

/-- Reading gives a value of the type that the argument has, which nests no deeper than the session
    allows. -/
theorem leads_readNextWithin : Leads State.Later readNext s fun (t, v) s' =>
    t ∈ s.session.header.args ∧ s.store.Grows s'.store ∧
      s'.session.header = s.session.header ∧
      s'.store.OfType ⟨s'.store, s'.session.header.env⟩ .decoded s.session.config.maxDepth v t := by
  refine runs_reading (fun _ => refl_of _ s) fun t log harg => ?_
  have hdecode := Decode.typing s.session.context s.store s.session.config.maxDepth t
    ⟨s.session.reader, s.store, s.session.cost, log⟩ rfl
  refine Runs.mono hdecode (fun v d ⟨hs, hv⟩ log => ?_) fun e d hs log => ?_
  · have hgrows : s.store.Grows d.store := hs
    refine ⟨State.later_of_header hgrows.toExtends rfl rfl, List.mem_of_getElem? harg, hgrows, rfl, ?_⟩
    refine hv.mono (.refl d.store) (fun t r n ht => ?_) (.refl .decoded)
    exact ht.extends (Scope.extends_store _ hgrows.toExtends)
  · exact State.later_of_header (Store.Grows.toExtends hs) rfl rfl

/-- Reading gives a value of the type that the argument has. -/
theorem leads_readNext : Leads State.Later readNext s fun (t, v) s' =>
    t ∈ s.session.header.args ∧ s.store.Grows s'.store ∧
      s'.session.header = s.session.header ∧
      s'.store.WellTyped s'.session.header.env .decoded v t :=
  leads_readNextWithin.mono fun _ _ _ ⟨ht, hs, hheader, hv⟩ => ⟨ht, hs, hheader, _, hv⟩

/-- The argument types lie in a closed part of the store. -/
def State.Sane (s : State) : Prop :=
  ∃ own, Scope.Closed ⟨s.store, s.session.header.env⟩ own ∧ ∀ t ∈ s.session.header.args, own t

theorem State.Sane.later (h : s.Sane) (hs : s.Later s') : s'.Sane := by
  obtain ⟨own, hclosed, hargs⟩ := h
  exact ⟨own, hclosed.extends hs.scope, hs.args ▸ hargs⟩

theorem State.Sane.canonical (h : s.Sane) (ht : t ∈ s.session.header.args) :
    Scope.Throughout ⟨s.store, s.session.header.env⟩ TypeNode.Canonical t := by
  obtain ⟨own, hclosed, hargs⟩ := h
  exact hclosed.canonical (hargs t ht)

/-! ### What is not charged -/

/-- Only where a session is has changed. -/
structure Moved (k k' : Session) : Prop where
  header : k'.header = k.header
  config : k'.config = k.config
  cost : k'.cost = k.cost

instance : IsPreorder Session Moved where
  refl _ := ⟨rfl, rfl, rfl⟩
  trans _ _ _ h h' := ⟨h'.header.trans h.header, h'.config.trans h.config, h'.cost.trans h.cost⟩

/-- Nothing has been charged: the session has moved at most, and the store has grown at most. -/
structure State.Beside (s s' : State) : Prop where
  store : s.store.Extends s'.store
  moved : Moved s.session s'.session

instance : IsPreorder State State.Beside where
  refl s := ⟨.refl _, refl_of Moved s.session⟩
  trans _ _ _ h h' := ⟨h.store.trans h'.store, trans_of Moved h.moved h'.moved⟩

theorem State.Beside.later (h : s.Beside s') : s.Later s' :=
  State.later_of_header h.store h.moved.header h.moved.config

theorem leads_judge : Leads State.Beside (judge t expected) s fun _ _ => True := by
  have hsame : ∀ log, s.Beside ⟨{ s.session with log }, s.store⟩ := fun _ => ⟨.refl _, rfl, rfl, rfl⟩
  unfold Leads Runs judge
  dsimp only
  split
  · next hrun =>
    split at hrun
    · simp only [EStateM.Result.ok.injEq] at hrun
      exact hrun.2 ▸ ⟨hsame _, trivial⟩
    · exact absurd hrun (by simp)
  · next hrun =>
    split at hrun
    · exact absurd hrun (by simp)
    · simp only [EStateM.Result.error.injEq] at hrun
      exact hrun.2 ▸ hsame _

/-- What is done with an argument that is read by an expected type. -/
def reshape (expected : TypeId) : TypeId × ValueId → Action State ValueId := fun (t, v) => do
  if (← judge t expected) = .fail then Action.fail .invalid
  fun ⟨s, store⟩ =>
    match coerce s.header.env v t expected store with
    | .ok v store => .ok v ⟨s, store⟩
    | .error e store => .error e ⟨s, store⟩

theorem readNextAs_eq : readNextAs expected = readNext >>= reshape expected := rfl

/-- Reshaping gives a value of the expected type. -/
theorem leads_reshape {v : ValueId} (h : s.Sane) (ht : t ∈ s.session.header.args)
    (hv : s.store.WellTyped s.session.header.env .reshaped v t) :
    Leads State.Beside (reshape expected (t, v)) s fun v' s' =>
      s'.store.WellTyped s'.session.header.env .reshaped v' expected := by
  refine leads_judge.bind fun verdict s1 hs1 _ => ?_
  have hdistinct : Scope.Distinct ⟨s1.store, s1.session.header.env⟩ t := fun u r n hu hn =>
    ((h.later hs1.later).canonical (hs1.later.args ▸ ht) u r n hu hn).distinct
  have hv1 := hv.extends hs1.store hs1.later.scope (.refl .reshaped)
  have hrun := Coerce.leads_coerce s1.session.header.env expected rfl hv1 hdistinct
  have hmoved := refl_of Moved s1.session
  split
  · exact leads_fail.bind fun _ _ _ => False.elim
  · refine runs_lift (fun store => ⟨s1.session, store⟩) (fun a store h => by simp only [h])
      (fun e store h => by simp only [h]) (Runs.mono hrun (fun v' store ⟨hs, hv'⟩ => ?_) fun e store hs => ?_)
    · exact ⟨⟨hs.toExtends, hmoved⟩, hv'⟩
    · exact ⟨hs.toExtends, hmoved⟩

/-- Reading by an expected type gives a value of that type, if it gives one. -/
theorem leads_readNextAs (h : s.Sane) : Leads State.Later (readNextAs expected) s fun v s' =>
    s'.store.WellTyped s'.session.header.env .reshaped v expected := by
  rw [readNextAs_eq]
  refine leads_readNext.bind fun (t, v) s1 hs1 ⟨ht, _, _, hv⟩ => ?_
  have hargs : t ∈ s1.session.header.args := hs1.args ▸ ht
  have hreshaped := hv.extends (.refl s1.store) (.refl _) Form.decoded_implies
  exact (leads_reshape (h.later hs1) hargs hreshaped).weaken fun _ hs => hs.later

/-! ### Calls of the other kinds -/

theorem runs_within {action : Store → Action Session α} {post : α → State → Prop}
    {lost : Fault → State → Prop} (h : Runs (action s.store) s.session
      (fun a session => post a ⟨session, s.store⟩) fun e session => lost e ⟨session, s.store⟩) :
    Runs (within action) s post lost :=
  runs_lift (fun session => ⟨session, s.store⟩) (fun a session h => by simp only [within, h])
    (fun e session h => by simp only [within, h]) h

/-- Passing over the next argument is passing over a value of its type. -/
theorem runs_skipping {post : Nat → Session → Prop} {lost : Fault → Session → Prop}
    (hnone : session.header.args[session.nextArg]? = none → lost .invalid session)
    (hsome : ∀ t, session.header.args[session.nextArg]? = some t →
      Runs (Skip.value { store, env := session.header.env, quota := session.config.skippingQuota }
          session.config.maxDepth t) ⟨session.reader, session.skipCost⟩
        (fun _ k => post (k.reader.offset - session.reader.offset) { session with
          reader := k.reader, skipCost := k.spent, nextArg := session.nextArg + 1 })
        fun e _ => lost e session) :
    Runs (skipNext store) session post lost := by
  cases harg : session.header.args[session.nextArg]? with
  | none =>
    have hskip : skipNext store session = .error .invalid session := by simp only [skipNext, harg]
    exact runs_of_error hskip (hnone harg)
  | some t =>
    rcases (hsome t harg).ends with ⟨_, k, hvalue, hpost⟩ | ⟨e, k, hvalue, hlost⟩
    · have hskip : skipNext store session = .ok (k.reader.offset - session.reader.offset)
          { session with reader := k.reader, skipCost := k.spent, nextArg := session.nextArg + 1 } := by
        simp only [skipNext, harg, hvalue]
      exact runs_of_ok hskip hpost
    · have hskip : skipNext store session = .error e session := by
        simp only [skipNext, harg, hvalue]
      exact runs_of_error hskip hlost

theorem leads_skipNext : Leads Moved (do let _ ← skipNext store) session fun _ _ => True := by
  have hskip : Leads Moved (skipNext store) session fun _ _ => True := by
    refine runs_skipping (fun _ => refl_of _ session) fun t _ => ?_
    unfold Runs
    split
    · exact ⟨⟨rfl, rfl, rfl⟩, trivial⟩
    · exact refl_of _ session
  exact hskip.bind fun _ _ _ _ => leads_pure trivial

theorem leads_finish : Leads Moved (Session.finish store) session fun _ _ => True := by
  refine runs_bind (runs_of_ok rfl ?_)
  refine (leads_iterate (fun _ => leads_skipNext) _).bind fun _ session' _ _ => ?_
  refine runs_bind (runs_of_ok rfl ?_)
  split
  · exact leads_fail
  · exact leads_pure trivial

theorem leads_within {action : Store → Action Session Unit}
    (h : Leads Moved (action s.store) s.session fun _ _ => True) :
    Leads State.Beside (within action) s fun _ _ => True :=
  runs_within (Runs.mono h (fun _ _ hs => ⟨⟨.refl _, hs.1⟩, trivial⟩) fun _ _ hs => ⟨.refl _, hs⟩)

/-- Passing over arguments charges nothing for reading. -/
theorem beside_skip : Leads State.Beside Call.skip.perform s fun _ _ => True := by
  unfold Call.perform
  exact leads_within leads_skipNext

theorem beside_finish : Leads State.Beside Call.finish.perform s fun _ _ => True := by
  unfold Call.perform
  exact leads_within leads_finish

/-- What charging does to a session, and when it fails. -/
theorem spend_eq (session : Session) (n : Nat) : ∃ log, session.spend n =
    (if Cost.exceeds session.config.decodingQuota (Cost.add session.cost n) then .error .overflow
      else .ok (), { session with cost := Cost.add session.cost n, log }) := by
  refine ⟨session.topics.note session.log (.cost n (Cost.add session.cost n)), ?_⟩
  unfold spend
  dsimp only
  split <;> rfl

section Performed

variable {post : Unit → State → Prop} {lost : Fault → State → Prop}

theorem runs_charge {n : Nat}
    (hok : ∀ log, ¬ Cost.exceeds s.session.config.decodingQuota (Cost.add s.session.cost n) = true →
      post () ⟨{ s.session with cost := Cost.add s.session.cost n, log }, s.store⟩)
    (hover : ∀ log, lost .overflow ⟨{ s.session with cost := Cost.add s.session.cost n, log }, s.store⟩) :
    Runs (Call.charge n).perform s post lost := by
  obtain ⟨log, hspend⟩ := spend_eq s.session n
  unfold Call.perform
  refine runs_within ?_
  unfold Runs
  dsimp only
  rw [hspend]
  by_cases h : Cost.exceeds s.session.config.decodingQuota (Cost.add s.session.cost n) = true
  · rw [if_pos h]
    exact hover log
  · rw [if_neg h]
    exact hok log h

theorem runs_bindName {name : String} {type : TypeId}
    (hok : ∀ env, s.session.header.env.insert name type = .ok env →
      post () ⟨{ s.session with header := { s.session.header with env } }, s.store⟩)
    (hdone : ∀ e, lost e s) : Runs (Call.bind name type).perform s post lost := by
  unfold Call.perform
  refine runs_within ?_
  unfold Runs
  dsimp only
  cases henv : s.session.header.env.insert name type with
  | ok env => exact hok env henv
  | error e => exact hdone e

theorem runs_observe {topics : Topics} (hok : post () ⟨{ s.session with topics }, s.store⟩) :
    Runs (Call.observe topics).perform s post lost := by
  unfold Call.perform
  exact runs_within (runs_of_ok rfl hok)

end Performed

/-- Whatever is called, nothing is lost. -/
theorem leads_call (h : s.Sane) (call : Call) :
    Leads State.Later call.perform s fun _ _ => True := by
  have hsame : ∀ {session : Session}, session.header = s.session.header →
      session.config = s.session.config → s.Later ⟨session, s.store⟩ :=
    fun hheader hconfig => State.later_of_header (.refl _) hheader hconfig
  cases call with
  | read => exact leads_readNext.bind fun _ _ _ _ => leads_pure trivial
  | readAs expected => exact (leads_readNextAs h).bind fun _ _ _ _ => leads_pure trivial
  | skip => exact beside_skip.weaken fun _ hs => hs.later
  | finish => exact beside_finish.weaken fun _ hs => hs.later
  | charge n => exact runs_charge (fun _ _ => ⟨hsame rfl rfl, trivial⟩) fun _ => hsame rfl rfl
  | bind name type =>
    refine runs_bindName (fun env henv => ⟨?_, trivial⟩) fun _ => refl_of State.Later s
    exact ⟨.refl _, Scope.extends_insert s.store henv, rfl, rfl⟩
  | observe topics => exact runs_observe ⟨hsame rfl rfl, trivial⟩

/-! ### Every state of a session -/

variable {bytes : List UInt8} {config : Config} {made : List Value} {clean : Bool}

theorem start_eq_ok {store' : Store} (h : Session.start bytes config store = .ok session store') :
    ∃ length, Header.parse bytes store = .ok (session.header, length) store' ∧
      session.config = config ∧ session.nextArg = 0 ∧ session.cost = Cost.add 0 (4 * length) ∧
      session.skipCost = 0 ∧ session.reader = .ofBytes bytes length ∧
      ¬ Cost.exceeds config.decodingQuota session.cost = true := by
  obtain ⟨⟨header, length⟩, s1, hparse, hspend⟩ := bind_eq_ok.mp h
  dsimp only at hspend
  obtain ⟨log, hcharge⟩ :=
    spend_eq { header, config, reader := .ofBytes bytes length } (4 * length)
  rw [hcharge] at hspend
  by_cases hover : Cost.exceeds config.decodingQuota (Cost.add 0 (4 * length)) = true
  · rw [if_pos hover] at hspend
    exact absurd hspend fail_eq_ok
  · rw [if_neg hover] at hspend
    obtain ⟨rfl, rfl⟩ := pure_eq_ok.mp hspend
    exact ⟨length, hparse, rfl, rfl, rfl, rfl, rfl, hover⟩

theorem Run.sane (h : Run bytes config s made clean) : s.Sane := by
  induction h with
  | start hstart =>
    obtain ⟨length, hparse, -⟩ := start_eq_ok hstart
    obtain ⟨own, hclosed, hargs, -⟩ := Header.parse_closed hparse
    exact ⟨own, hclosed, hargs⟩
  | stored _ hs ih => exact ih.later (State.later_of_header hs rfl rfl)
  | called call _ ih => exact ih.later (leads_call ih call).outcome

/-- What is reshaped, or read by an expected type, is of that type, whether or not the type that it had
    fits: a record has the fields of the type, in order and with their labels, a variant the place and
    label of one of them, and so on inside, where a `vec nat8` is a byte string or a list of numbers. A
    value whose labels have the right numbers only is reshaped to one of that kind. -/
theorem reshaped_wellTyped :
    (∀ (s s' : Store) (env : Env) (named : Bool) (v v' : ValueId) (wire expected : TypeId),
      s.WellTyped env ⟨named, false⟩ v wire → Scope.Distinct ⟨s, env⟩ wire →
      coerce env v wire expected s = .ok v' s' → s'.WellTyped env ⟨named, false⟩ v' expected) ∧
    ∀ (bytes : List UInt8) (config : Config) (s s' : State) (made : List Value) (clean : Bool)
      (expected : TypeId) (v : ValueId),
      Run bytes config s made clean → readNextAs expected s = .ok v s' →
      s'.store.WellTyped s'.session.header.env .reshaped v expected := by
  constructor
  · intro s s' env named v v' wire expected hv hd hcoerce
    exact ((Coerce.leads_coerce env expected rfl hv hd).ok hcoerce).2
  · intro bytes config s s' made clean expected v hrun hread
    exact ((leads_readNextAs hrun.sane).ok hread).2

/-- A message with a record of a number. -/
def numberMessage : List UInt8 := [0x44, 0x49, 0x44, 0x4c, 1, 0x6c, 1, 0, 0x7d, 1, 0, 0x7f]

theorem numbered_wellTyped :
    (∃ v s, coerce {} ⟨1⟩ ⟨2⟩ ⟨3⟩ Coerce.numbered = .ok v s ∧ s.WellTyped {} .reshaped v ⟨3⟩) ∧
    ∃ session store, start numberMessage {} Coerce.numbered = .ok session store ∧
      ∃ v s, readNextAs ⟨3⟩ ⟨session, store⟩ = .ok v s ∧
        s.store.WellTyped s.session.header.env .reshaped v ⟨3⟩ := by
  have htyped : Coerce.numbered.WellTyped {} .reshaped ⟨1⟩ ⟨2⟩ := by
    refine ⟨2, ⟨2⟩, _, ⟨rfl, rfl⟩, _, rfl, .record (.cons ⟨rfl, ?_⟩ .nil)⟩
    exact ⟨⟨0⟩, _, ⟨rfl, rfl⟩, _, rfl, .nat rfl (by decide)⟩
  have hd : Scope.Distinct ⟨Coerce.numbered, {}⟩ ⟨2⟩ := .of_store (by decide) _
  have hread : (start numberMessage {}).passes Coerce.numbered (fun session store =>
      (readNextAs ⟨3⟩).passes ⟨session, store⟩ fun _ _ => true) = true := by decide +kernel
  have hreshaped : (coerce {} ⟨1⟩ ⟨2⟩ ⟨3⟩).passes Coerce.numbered (fun _ _ => true) = true := by
    decide +kernel
  constructor
  · obtain ⟨v, s, hcoerce, -⟩ := passes_iff.mp hreshaped
    exact ⟨v, s, hcoerce, reshaped_wellTyped.1 _ _ _ _ _ _ _ _ htyped hd hcoerce⟩
  · obtain ⟨session, store, hstart, hread⟩ := passes_iff.mp hread
    obtain ⟨v, s, hread, -⟩ := passes_iff.mp hread
    exact ⟨session, store, hstart, v, s, hread, reshaped_wellTyped.2 _ _ _ _ _ _ _ _ (.start hstart) hread⟩

end TypedWire.Session
