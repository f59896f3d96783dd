import TypedWire.Proofs.Message.HeaderSteady
import TypedWire.Proofs.Onward
import TypedWire.Proofs.Session.Agreement

/-! Where a session stands. Four kinds of calls share the cursor, the number of the next argument and
    two totals; whatever is called, in any order and with any outcome, none of them goes down, and the
    first two stay within the message. -/

namespace TypedWire.Session

open TypedWire.Action

variable {bytes : List UInt8} {config : Config} {s s1 s' : State} {made : List Value} {clean : Bool}
variable {store : Store} {k k' : Session} {expected : TypeId}

/-! ### Standing and moving on -/

/-- The session stands inside the message, and its totals are ones that can be counted. -/
structure Placed (bytes : List UInt8) (k : Session) : Prop where
  inside : k.reader.offset ≤ bytes.length
  reader : k.reader = .ofBytes bytes k.reader.offset
  nextArg : k.nextArg ≤ k.header.args.length
  cost : k.cost ≤ Cost.most
  skipCost : k.skipCost ≤ Cost.most

/-- The session has moved on, by bytes and arguments that were left, and what was charged stays
    charged. -/
structure Onward (k k' : Session) : Prop where
  reader : k.reader.Onward k'.reader
  args : k'.header.args = k.header.args
  nextArg : k.nextArg ≤ k'.nextArg
  last : k.nextArg ≤ k.header.args.length → k'.nextArg ≤ k.header.args.length
  cost : Cost.Onward k.cost k'.cost
  skipCost : Cost.Onward k.skipCost k'.skipCost

instance : IsPreorder Session Onward where
  refl k := ⟨refl_of _ k.reader, rfl, Nat.le_refl _, id, refl_of Cost.Onward k.cost,
    refl_of Cost.Onward k.skipCost⟩
  trans _ _ _ h h' := ⟨trans_of _ h.reader h'.reader, h'.args.trans h.args, h.nextArg.trans h'.nextArg,
    fun hk => h.args ▸ h'.last (h.args ▸ h.last hk), trans_of Cost.Onward h.cost h'.cost,
    trans_of Cost.Onward h.skipCost h'.skipCost⟩

theorem Placed.onward (hk : Placed bytes k) (h : Onward k k') : Placed bytes k' where
  inside := (h.reader.within hk.inside hk.reader).1
  reader := (h.reader.within hk.inside hk.reader).2
  nextArg := h.args ▸ h.last hk.nextArg
  cost := (h.cost hk.cost).2
  skipCost := (h.skipCost hk.skipCost).2

/-- The session of the state has moved on. -/
def State.Onward (s s' : State) : Prop := Session.Onward s.session s'.session

instance : IsPreorder State State.Onward where
  refl s := refl_of Session.Onward s.session
  trans _ _ _ h h' := trans_of Session.Onward h h'

/-- Nothing of the session has changed but what the observer was told. -/
def State.Noted (s s' : State) : Prop := ∃ log, s'.session = { s.session with log }

instance : IsPreorder State State.Noted where
  refl s := ⟨s.session.log, rfl⟩
  trans := by
    rintro s s1 s' ⟨log, h⟩ ⟨log', h'⟩
    exact ⟨log', by rw [h', h]⟩

theorem State.Noted.onward (h : s.Noted s') : s.Onward s' := by
  obtain ⟨log, h⟩ := h
  unfold State.Onward
  rw [h]
  exact ⟨refl_of _ s.session.reader, rfl, Nat.le_refl _, id, refl_of Cost.Onward s.session.cost,
    refl_of Cost.Onward s.session.skipCost⟩

/-! ### Calls -/

/-- Reading moves on to the argument after the next; where it fails, only the cost is another. -/
theorem readNext_moves (s : State) : Runs readNext s
    (fun _ s' => s.Onward s' ∧ s'.session.nextArg = s.session.nextArg + 1 ∧
      s'.session.skipCost = s.session.skipCost)
    fun _ s' => s.Onward s' ∧ ∃ cost log, s'.session = { s.session with cost, log } := by
  refine runs_reading (fun _ => ⟨refl_of State.Onward s, s.session.cost, s.session.log, rfl⟩)
    fun t log harg => ?_
  have hlt : s.session.nextArg < s.session.header.args.length := (List.getElem?_eq_some_iff.mp harg).1
  refine Runs.mono (Decode.onward_value s.session.context s.session.config.maxDepth t _)
    (fun v d ⟨hd, _⟩ log => ⟨?_, rfl, rfl⟩) fun e d hd log => ⟨?_, d.cost, log, rfl⟩
  · exact ⟨hd.reader, rfl, Nat.le_succ _, fun _ => hlt, hd.cost, refl_of Cost.Onward s.session.skipCost⟩
  · exact ⟨refl_of _ s.session.reader, rfl, Nat.le_refl _, id, hd.cost,
      refl_of Cost.Onward s.session.skipCost⟩

theorem onward_readNext : Along State.Onward readNext := fun s =>
  (readNext_moves s).mono (fun _ _ h => ⟨h.1, trivial⟩) fun _ _ h => h.1

/-- Whatever the check and the reshaping answer, the session stays where it is. -/
theorem noted_reshape (found : TypeId × ValueId) : Along State.Noted (reshape expected found) := by
  obtain ⟨t, v⟩ := found
  have hjudge : Along State.Noted (judge t expected) := by
    intro s
    have hsame : ∀ log, s.Noted ⟨{ s.session with log }, s.store⟩ := fun log => ⟨log, rfl⟩
    unfold Leads Runs judge
    dsimp only
    split
    · next hrun =>
      split at hrun
      · exact (EStateM.Result.ok.inj hrun).2 ▸ ⟨hsame _, trivial⟩
      · exact absurd hrun (by simp)
    · next hrun =>
      split at hrun
      · exact absurd hrun (by simp)
      · exact (EStateM.Result.error.inj hrun).2 ▸ hsame _
  refine Along.bind hjudge fun verdict => ?_
  split
  · exact (along_fail .invalid : Along State.Noted (Action.fail .invalid : Action State ValueId))
  · rintro ⟨k, store⟩
    have hsame : ∀ store', State.Noted ⟨k, store⟩ ⟨k, store'⟩ := fun _ => ⟨k.log, rfl⟩
    unfold Leads Runs
    dsimp only
    cases coerce k.header.env v t expected store with
    | ok v store' => exact ⟨hsame store', trivial⟩
    | error e store' => exact hsame store'

theorem onward_readNextAs : Along State.Onward (readNextAs expected) := by
  rw [readNextAs_eq]
  refine Along.bind onward_readNext fun found s => ?_
  exact (noted_reshape found s).weaken fun _ hs => hs.onward

theorem onward_skipNext : Along Onward (do let _ ← skipNext store) := by
  have hskip : Along Onward (skipNext store) := by
    intro k
    refine runs_skipping (fun _ => refl_of Onward k) fun t harg => ?_
    have hlt : k.nextArg < k.header.args.length := (List.getElem?_eq_some_iff.mp harg).1
    refine Runs.mono (Skip.onward_value _ _ t _) (fun _ d ⟨hd, _⟩ => ⟨?_, trivial⟩)
      fun _ _ _ => refl_of Onward k
    exact ⟨hd.reader, rfl, Nat.le_succ _, fun _ => hlt, refl_of Cost.Onward k.cost, hd.spent⟩
  exact Along.bind hskip fun _ => along_pure ()

theorem onward_finish : Along Onward (finish store) := by
  refine Along.bind (along_answer .ok fun _ => rfl) fun k => ?_
  refine Along.bind (along_iterate onward_skipNext _) fun _ => ?_
  refine Along.bind (along_answer .ok fun _ => rfl) fun k' => ?_
  split
  · exact along_fail .invalid
  · exact along_pure ()

/-- Whatever is called, the session only moves on. -/
theorem onward_call (call : Call) : Along State.Onward call.perform := by
  have hwithin : ∀ {action : Store → Action Session Unit}, (∀ store, Along Onward (action store)) →
      Along State.Onward (within action) := fun haction s =>
    runs_within (Runs.mono (haction s.store s.session) (fun _ _ h => h) fun _ _ h => h)
  intro s
  have hsame := refl_of State.Onward s
  cases call with
  | read => exact Along.bind onward_readNext (fun _ => along_pure ()) s
  | readAs expected => exact Along.bind onward_readNextAs (fun _ => along_pure ()) s
  | skip =>
    unfold Call.perform
    exact hwithin (fun _ => onward_skipNext) s
  | finish =>
    unfold Call.perform
    exact hwithin (fun _ => onward_finish) s
  | charge n =>
    have hcharged : ∀ log, s.Onward ⟨{ s.session with cost := Cost.add s.session.cost n, log }, s.store⟩ :=
      fun _ => ⟨hsame.reader, rfl, hsame.nextArg, id, Cost.onward_add _ n, hsame.skipCost⟩
    exact runs_charge (fun log _ => ⟨hcharged log, trivial⟩) hcharged
  | bind name type =>
    exact runs_bindName (fun _ _ => ⟨⟨hsame.reader, rfl, hsame.nextArg, id, hsame.cost, hsame.skipCost⟩,
      trivial⟩) fun _ => hsame
  | observe topics =>
    exact runs_observe ⟨⟨hsame.reader, rfl, hsame.nextArg, id, hsame.cost, hsame.skipCost⟩, trivial⟩

theorem onward_after (calls : List Call) (s : State) : s.Onward (s.after calls) := by
  induction calls generalizing s with
  | nil => exact refl_of State.Onward s
  | cons call calls ih => exact trans_of State.Onward (onward_call call s).outcome (ih _)

/-! ### Every state of a session -/

/-- A header lies within the message that it opens. -/
theorem start_placed {store' : Store} (h : start bytes config store = .ok k store') : Placed bytes k := by
  obtain ⟨length, hparse, -, hfirst, hcost, hskip, hreader, -⟩ := start_eq_ok h
  have hle : length ≤ bytes.length := ((Header.parse_append bytes [] store).ok hparse).2
  refine ⟨hreader ▸ hle, by rw [hreader]; rfl, hfirst ▸ Nat.zero_le _, ?_, hskip ▸ Nat.zero_le _⟩
  exact hcost ▸ Nat.min_le_right _ _

theorem Run.placed (h : Run bytes config s made clean) : Placed bytes s.session := by
  induction h with
  | start hstart => exact start_placed hstart
  | stored _ _ ih => exact ih
  | called call _ ih => exact ih.onward (onward_call call _).outcome

theorem skipMany_passed : ∀ {count : Nat} {k k' : Session},
    skipMany store count k = .ok () k' → k'.nextArg = k.nextArg + count
  | 0, k, k', h => by
    obtain ⟨-, rfl⟩ := pure_eq_ok.mp h
    rfl
  | count + 1, k, k', h => by
    obtain ⟨_, k1, hstep, hrest⟩ := bind_eq_ok.mp h
    obtain ⟨length, k2, hskip, hpure⟩ := bind_eq_ok.mp hstep
    obtain ⟨-, rfl⟩ := pure_eq_ok.mp hpure
    have hnext : k2.nextArg = k.nextArg + 1 := (skipNext_eq_ok hskip).2.1
    have hnext' := skipMany_passed hrest
    omega

/-- A session that is ended well has passed every argument, and nothing is left to read. -/
theorem finish_eq_ok_placed (hk : Placed bytes k) (h : finish store k = .ok () k') :
    k'.nextArg = k'.header.args.length ∧ k'.reader.offset = bytes.length := by
  have hon : Onward k k' := ((onward_finish k).ok h).1
  have hplaced := hk.onward hon
  obtain ⟨_, _, hget, h⟩ := bind_eq_ok.mp h
  obtain ⟨rfl, rfl⟩ := get_eq_ok.mp hget
  obtain ⟨_, k1, hskip, h⟩ := bind_eq_ok.mp h
  obtain ⟨_, _, hget, h⟩ := bind_eq_ok.mp h
  obtain ⟨rfl, rfl⟩ := get_eq_ok.mp hget
  split at h
  · exact absurd h fail_eq_ok
  · next hleft =>
    obtain ⟨-, rfl⟩ := pure_eq_ok.mp h
    have hpassed := skipMany_passed hskip
    have hargs := hon.args
    have hnext := hk.nextArg
    refine ⟨by rw [hargs]; omega, ?_⟩
    have hinside := hplaced.inside
    rw [remaining, hplaced.reader, Reader.remaining, Reader.ofBytes, if_pos hinside, Option.getD_some,
      List.length_drop] at hleft
    omega

/-- Reading by an expected type begins with reading: where that fails it fails alike, and where that
    moves on it leaves the session there, whatever else it answers. -/
theorem readNextAs_moves (expected : TypeId) (s : State) :
    (∀ found s1, readNext s = .ok found s1 → s1.Noted ((readNextAs expected).outcome s).2) ∧
    ∀ e s1, readNext s = .error e s1 → readNextAs expected s = .error e s1 := by
  constructor
  · intro found s1 hread
    have hrest : (readNextAs expected).outcome s = (reshape expected found).outcome s1 := by
      rw [readNextAs_eq, outcome, outcome, bind_run hread]
    rw [hrest]
    exact (noted_reshape found s1).outcome
  · intro e s1 hread
    exact bind_eq_error.mpr (.inl hread)

/-- In every state of a session, whatever was called before and however that ended: the cursor is within
    the message, and the next argument is one of its arguments or the end of them. From there on neither
    goes back, and neither total goes down, whatever is called. Reading or passing over an argument that
    fails leaves cursor, next argument and skipping cost as they are. Reading by an expected type passes
    its argument exactly where reading does, and then stands where reading stands. And a session is
    ended well only if no argument and no byte is left. -/
theorem calls_onward (bytes : List UInt8) (config : Config) (s : State) (made : List Value) (clean : Bool)
    (h : Run bytes config s made clean) :
    (s.session.reader.offset ≤ bytes.length ∧ s.session.nextArg ≤ s.session.header.args.length) ∧
    (∀ calls, s.session.reader.offset ≤ (s.after calls).session.reader.offset ∧
      s.session.nextArg ≤ (s.after calls).session.nextArg ∧
      s.session.cost ≤ (s.after calls).session.cost ∧
      s.session.skipCost ≤ (s.after calls).session.skipCost) ∧
    (∀ e s', readNext s = .error e s' → s'.session.reader = s.session.reader ∧
      s'.session.nextArg = s.session.nextArg ∧ s'.session.skipCost = s.session.skipCost) ∧
    (∀ e k, skipNext s.store s.session = .error e k → k = s.session) ∧
    (∀ expected, (((readNextAs expected).outcome s).2.session.nextArg = s.session.nextArg + 1 ↔
        ∃ found s1, readNext s = .ok found s1) ∧
      ((readNextAs expected).outcome s).2.session.reader = (readNext.outcome s).2.session.reader ∧
      ((readNextAs expected).outcome s).2.session.nextArg = (readNext.outcome s).2.session.nextArg ∧
      ((readNextAs expected).outcome s).2.session.cost = (readNext.outcome s).2.session.cost ∧
      ((readNextAs expected).outcome s).2.session.skipCost = s.session.skipCost) ∧
    ∀ k, finish s.store s.session = .ok () k →
      k.nextArg = k.header.args.length ∧ k.reader.offset = bytes.length := by
  have hplaced := h.placed
  refine ⟨⟨hplaced.inside, hplaced.nextArg⟩, fun calls => ?_, fun e s' hread => ?_,
    fun e k hskip => skipNext_error hskip, fun expected => ?_, fun k => finish_eq_ok_placed hplaced⟩
  · have hon : s.Onward (s.after calls) := onward_after calls s
    exact ⟨hon.reader.offset_le, hon.nextArg, (hon.cost hplaced.cost).1,
      (hon.skipCost hplaced.skipCost).1⟩
  · obtain ⟨-, cost, log, hs'⟩ := (readNext_moves s).error hread
    rw [hs']
    exact ⟨rfl, rfl, rfl⟩
  · obtain ⟨hmoved, hfailed⟩ := readNextAs_moves expected s
    rcases (readNext_moves s).ends with ⟨found, s1, hread, -, hnext, hskip⟩ |
      ⟨e, s1, hread, -, cost, log, hs1⟩
    · obtain ⟨log, hs'⟩ := hmoved found s1 hread
      have hout : readNext.outcome s = (.ok found, s1) := by rw [outcome, hread]
      rw [hs', hout]
      exact ⟨⟨fun _ => ⟨found, s1, hread⟩, fun _ => hnext⟩, rfl, rfl, rfl, hskip⟩
    · have hout : readNext.outcome s = (.error e, s1) := by rw [outcome, hread]
      have hout' : (readNextAs expected).outcome s = (.error e, s1) := by
        rw [outcome, hfailed e s1 hread]
      rw [hout, hout', hs1]
      refine ⟨⟨fun hnext => absurd hnext (by simp), ?_⟩, rfl, rfl, rfl, rfl⟩
      rintro ⟨found, s2, hread'⟩
      exact absurd (hread.symm.trans hread') (by simp)

/-- A session that is read by a type that does not fit, and is then ended. -/
theorem number_onward : ∃ s made clean, Run numberMessage {} s made clean ∧ s.session.nextArg = 1 ∧
    s.session.reader.offset ≤ numberMessage.length ∧ ∃ k, finish s.store s.session = .ok () k ∧
      k.nextArg = k.header.args.length ∧ k.reader.offset = numberMessage.length := by
  have hall : (start numberMessage {}).passes { types := #[.primitive .text] } (fun session store =>
      let ended := (Call.readAs ⟨0⟩).perform.outcome ⟨session, store⟩
      !ended.1.toBool && (ended.2.session.nextArg = 1 &&
        (finish ended.2.store).passes ended.2.session fun _ _ => true)) = true := by
    decide +kernel
  obtain ⟨session, store, hstart, htest⟩ := passes_iff.mp hall
  rw [Bool.and_eq_true, Bool.and_eq_true, decide_eq_true_eq] at htest
  obtain ⟨-, hnext, hend⟩ := htest
  obtain ⟨_, k, hend, -⟩ := passes_iff.mp hend
  have hrun := Run.called (.readAs ⟨0⟩) (.start hstart)
  obtain ⟨⟨hinside, -⟩, -, -, -, -, hfinish⟩ := calls_onward _ _ _ _ _ hrun
  exact ⟨_, _, _, hrun, hnext, hinside, k, hend, hfinish k hend⟩

end TypedWire.Session
