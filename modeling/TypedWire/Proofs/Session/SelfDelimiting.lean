import TypedWire.Proofs.Message.HeaderSteady
import TypedWire.Proofs.Session.Run
import TypedWire.Proofs.Walk

/-! Messages say themselves where they end. One that is cut short is refused for that, wherever the cut
    is; and what follows a message changes nothing of what is read from it, and is then refused. -/

namespace TypedWire

open TypedWire.Action

/-! ### Values -/

namespace Decode

/-- Two states that differ only in what bytes follow. -/
def Ahead (all more : List UInt8) (s s' : State) : Prop :=
  ∃ r', Reader.Ahead all more s.reader r' ∧ s' = { s with reader := r' }

variable {all more : List UInt8} {α : Type} {cx : Context} {depth : Nat}

theorem steady_read {x : Action Reader α} (h : Reader.Program x) : Steady (Ahead all more) (read x) := by
  have hx : Steady (Reader.Ahead all more) x := h.steady
  refine steady_lift State.reader (fun s reader => { s with reader })
    (fun s a t hrun => ?_) (fun s e t hrun => ?_) ?_ ?_ hx
  · simp only [read, hrun]
  · simp only [read, hrun]
  · rintro s _ ⟨r', hahead, rfl⟩
    exact hahead
  · rintro s _ t t' ⟨r', -, rfl⟩ hahead
    exact ⟨t', hahead, rfl⟩

theorem steady_put (x : Action Store α) : Steady (Ahead all more) (put x) := by
  refine steady_lift State.store (fun s store => { s with store })
    (fun s a t hx => ?_) (fun s e t hx => ?_) ?_ ?_ (steady_refl x)
  · simp only [put, hx]
  · simp only [put, hx]
  · rintro s _ ⟨r', -, rfl⟩
    rfl
  · rintro s _ t _ ⟨r', hahead, rfl⟩ rfl
    exact ⟨r', hahead, rfl⟩

theorem steady_resolve (t : TypeId) : Steady (Ahead all more) (resolve cx t) := by
  refine steady_answer (y := fun s => cx.env.resolve s.store t) (fun s => ?_) ?_
  · unfold resolve
    cases cx.env.resolve s.store t <;> rfl
  · rintro s _ ⟨r', -, rfl⟩
    rfl

theorem steady_offset : Steady (Ahead all more) offset := by
  refine steady_answer (y := fun s => .ok s.reader.offset) (fun _ => rfl) ?_
  rintro s _ ⟨r', hahead, rfl⟩
  exact congrArg Except.ok hahead.offset_eq.symm

theorem steady_spend (n : Nat) : Steady (Ahead all more) (spend cx n) := by
  rintro ⟨reader, store, cost, log⟩ _ ⟨r', hahead, rfl⟩
  unfold Runs spend
  dsimp only
  split
  · next hrun =>
    split at hrun
    · exact absurd hrun (by simp)
    · next hover =>
      rw [EStateM.Result.ok.injEq] at hrun
      obtain ⟨-, rfl⟩ := hrun
      exact ⟨(), _, if_neg hover, ⟨r', hahead, rfl⟩, rfl⟩
  · next hrun =>
    split at hrun
    · next hover =>
      rw [EStateM.Result.error.injEq] at hrun
      obtain ⟨rfl, -⟩ := hrun
      exact .inr ⟨_, if_pos hover⟩
    · exact absurd hrun (by simp)

theorem walk_steady (all more : List UInt8) (cx : Context) :
    Walk (fun _ x y => Abreast (Ahead all more) (· = .truncated) x y (· = ·)) cx cx where
  toCongruence := congruence_abreast
  read := steady_read
  put := steady_put
  resolve := steady_resolve
  offset := steady_offset
  spend := steady_spend

theorem steady_value (depth : Nat) (t : TypeId) : Steady (Ahead all more) (value cx depth t) :=
  (walk_steady all more cx).value depth t

end Decode

/-! ### Arguments -/

namespace Session

/-- Two states that differ only in what bytes follow. -/
def State.Ahead (all more : List UInt8) (s s' : State) : Prop :=
  ∃ r', Reader.Ahead all more s.session.reader r' ∧
    s' = ⟨{ s.session with reader := r' }, s.store⟩

/-- Opens a session on a message, and reads every argument: the session then, and the type and value of
    each argument. -/
def readAll (config : Config) (bytes : List UInt8) :
    Action Store (Session × List (TypeId × ValueId)) := fun store =>
  match start bytes config store with
  | .error e store => .error e store
  | .ok session store =>
    match Action.replicate session.header.args.length readNext ⟨session, store⟩ with
    | .ok values s => .ok (s.session, values) s.store
    | .error e s => .error e s.store

variable {all more bytes cut : List UInt8} {config : Config} {store store' : Store}
variable {session : Session} {values : List (TypeId × ValueId)}

section Reading

variable {t : TypeId} {v : ValueId} {reader : Reader} {cost : Nat} {log : Array Event} {e : Fault}

/-- The state that decoding starts from: the beginning of the argument has been noted. -/
def begun (session : Session) (store : Store) (t : TypeId) : Decode.State :=
  ⟨session.reader, store, session.cost,
    session.topics.note session.log (.argStart session.nextArg t session.reader.offset)⟩

theorem readNext_of_ok (harg : session.header.args[session.nextArg]? = some t)
    (h : Decode.value session.context session.config.maxDepth t (begun session store t) =
      .ok v ⟨reader, store', cost, log⟩) :
    readNext ⟨session, store⟩ = .ok (t, v) ⟨{ session with
      reader, nextArg := session.nextArg + 1, cost
      log := session.topics.note log (.argEnd session.nextArg reader.offset none) }, store'⟩ := by
  have hread := readNext_eq store harg
  unfold begun at h
  unfold note at hread
  dsimp only at hread
  rwa [h] at hread

theorem readNext_of_error (harg : session.header.args[session.nextArg]? = some t)
    (h : Decode.value session.context session.config.maxDepth t (begun session store t) =
      .error e ⟨reader, store', cost, log⟩) :
    ∃ s, readNext ⟨session, store⟩ = .error e s := by
  have hread := readNext_eq store harg
  unfold begun at h
  unfold note at hread
  dsimp only at hread
  rw [h] at hread
  exact ⟨_, hread⟩

end Reading

theorem steady_readNext : Steady (State.Ahead all more) readNext := by
  rintro ⟨session, store⟩ _ ⟨r', hahead, rfl⟩
  dsimp only at hahead ⊢
  cases harg : session.header.args[session.nextArg]? with
  | none =>
    have hread : ∀ reader, readNext ⟨{ session with reader }, store⟩ =
        .error .invalid ⟨{ session with reader }, store⟩ := fun reader => by
      simp only [readNext, harg]
    exact runs_of_error (hread session.reader) (.inr ⟨_, hread r'⟩)
  | some t =>
    have harg' : ({ session with reader := r' } : Session).header.args[session.nextArg]? = some t := harg
    have hbegun : Decode.Ahead all more (begun session store t)
        (begun { session with reader := r' } store t) := by
      refine ⟨r', hahead, ?_⟩
      unfold begun
      rw [hahead.offset_eq]
    have hvalue : Steady (Decode.Ahead all more)
        (Decode.value session.context session.config.maxDepth t) := Decode.steady_value _ t
    rcases (hvalue _ _ hbegun).ends with ⟨v, ⟨r1, store1, cost1, log1⟩, hrun, _, _, hrun', ⟨r1', hahead1, rfl⟩, rfl⟩ |
      ⟨e, ⟨r1, store1, cost1, log1⟩, hrun, hcut | ⟨⟨r1', store1', cost1', log1'⟩, hrun'⟩⟩
    · refine runs_of_ok (readNext_of_ok harg hrun) ⟨_, _, readNext_of_ok harg' hrun', ?_, rfl⟩
      refine ⟨r1', hahead1, ?_⟩
      dsimp only
      rw [hahead1.offset_eq]
    · obtain ⟨s, hread⟩ := readNext_of_error harg hrun
      exact runs_of_error hread (.inl hcut)
    · obtain ⟨s, hread⟩ := readNext_of_error harg hrun
      obtain ⟨s', hread'⟩ := readNext_of_error harg' hrun'
      exact runs_of_error hread (.inr ⟨s', hread'⟩)

/-! ### Messages -/

theorem start_append (config : Config) (bytes more : List UInt8) (store : Store) :
    Runs (start bytes config) store
      (fun session store' => ∃ session', start (bytes ++ more) config store = .ok session' store' ∧
        State.Ahead bytes more ⟨session, store'⟩ ⟨session', store'⟩)
      fun e _ => e = .truncated ∨ ∃ store', start (bytes ++ more) config store = .error e store' := by
  refine runs_bind ((Header.parse_append bytes more store).mono ?_ ?_)
  · rintro ⟨header, length⟩ s1 ⟨hparse, hle⟩
    have hlong : start (bytes ++ more) config store = _ := bind_run hparse
    rw [hlong]
    by_cases hover : Cost.exceeds config.decodingQuota (Cost.add 0 (4 * length)) = true
    · simp only [spend, if_pos hover]
      exact runs_fail (.inr ⟨s1, rfl⟩)
    · simp only [spend, if_neg hover]
      exact runs_pure ⟨_, rfl, _, Reader.ahead_ofBytes bytes more hle, rfl⟩
  · rintro e s1 (hcut | ⟨store', hlong⟩)
    · exact .inl hcut
    · exact .inr ⟨store', bind_eq_error.mpr (.inl hlong)⟩

/-- What is read from a message is read from it whatever follows, and one that is cut short gives the
    same until it wants more bytes than there are. -/
theorem readAll_append (config : Config) (bytes more : List UInt8) (store : Store) :
    Runs (readAll config bytes) store
      (fun found store' => ∃ session', readAll config (bytes ++ more) store = .ok (session', found.2) store' ∧
        State.Ahead bytes more ⟨found.1, store'⟩ ⟨session', store'⟩)
      fun e _ => e = .truncated ∨ ∃ store', readAll config (bytes ++ more) store = .error e store' := by
  rcases (start_append config bytes more store).ends with
    ⟨session, s1, hstart, session', hstart', hahead⟩ | ⟨e, s1, hstart, hcut | ⟨s1', hstart'⟩⟩
  · obtain ⟨r', hr', hsession⟩ := hahead
    obtain ⟨rfl, -⟩ := State.mk.inj hsession
    have hrest : Steady (State.Ahead bytes more)
        (Action.replicate session.header.args.length readNext) := steady_replicate steady_readNext _
    rcases (hrest ⟨session, s1⟩ _ ⟨r', hr', rfl⟩).ends with ⟨values, s2, hrun, _, _, hrun', ⟨r2', hr2, rfl⟩, rfl⟩ |
      ⟨e, s2, hrun, hcut | ⟨s2', hrun'⟩⟩
    · have hall : readAll config bytes store = .ok (s2.session, values) s2.store := by
        simp only [readAll, hstart, hrun]
      refine runs_of_ok hall ⟨_, ?_, r2', hr2, rfl⟩
      simp only [readAll, hstart', hrun']
    · have hall : readAll config bytes store = .error e s2.store := by
        simp only [readAll, hstart, hrun]
      exact runs_of_error hall (.inl hcut)
    · have hall : readAll config bytes store = .error e s2.store := by
        simp only [readAll, hstart, hrun]
      refine runs_of_error hall (.inr ⟨s2'.store, ?_⟩)
      simp only [readAll, hstart', hrun']
  · have hall : readAll config bytes store = .error e s1 := by simp only [readAll, hstart]
    exact runs_of_error hall (.inl hcut)
  · have hall : readAll config bytes store = .error e s1 := by simp only [readAll, hstart]
    refine runs_of_error hall (.inr ⟨s1', ?_⟩)
    simp only [readAll, hstart']

/-- After a number of arguments have been read the session is as many further on; their types are those
    that the header has there. -/
theorem replicate_readNext : ∀ {count : Nat} {s s' : State} {values : List (TypeId × ValueId)},
    Action.replicate count readNext s = .ok values s' →
    s'.session.nextArg = s.session.nextArg + count ∧ s'.session.header = s.session.header ∧
      values.map (·.1) = (s.session.header.args.drop s.session.nextArg).take count
  | 0, s, s', values, h => by
    obtain ⟨rfl, rfl⟩ := pure_eq_ok.mp h
    exact ⟨rfl, rfl, rfl⟩
  | count + 1, s, s', values, h => by
    rw [replicate_succ] at h
    obtain ⟨⟨t, v⟩, s1, hread, h⟩ := bind_eq_ok.mp h
    obtain ⟨rest, s2, hrest, h⟩ := bind_eq_ok.mp h
    obtain ⟨rfl, rfl⟩ := pure_eq_ok.mp h
    obtain ⟨harg, hnext, hheader⟩ := readNext_eq_ok hread
    obtain ⟨hlt, rfl⟩ := List.getElem?_eq_some_iff.mp harg
    obtain ⟨hnext', hheader', htypes⟩ := replicate_readNext hrest
    rw [hnext, hheader] at htypes
    refine ⟨by omega, hheader'.trans hheader, ?_⟩
    rw [List.map_cons, htypes, List.drop_eq_getElem_cons hlt, List.take_succ_cons]

/-- Where no argument is left, the session ends if nothing follows. -/
theorem finish_passed (h : session.header.args.length ≤ session.nextArg) :
    finish store session =
      if 0 < session.remaining then .error .invalid session else .ok () session := by
  have hleft : session.header.args.length - session.nextArg = 0 := by omega
  have hget : (get : Action Session Session) session = .ok session session := rfl
  have hskip : skipMany store (session.header.args.length - session.nextArg) session =
      .ok () session := by
    rw [hleft]
    rfl
  refine (bind_run hget).trans ((bind_run hskip).trans ((bind_run hget).trans ?_))
  split <;> rfl

/-- Reading a message as a whole is opening a session and reading as many arguments as there are. -/
theorem readAll_eq_ok (h : readAll config bytes store = .ok (session, values) store') :
    ∃ opened s1, start bytes config store = .ok opened s1 ∧
      Action.replicate opened.header.args.length readNext ⟨opened, s1⟩ = .ok values ⟨session, store'⟩ := by
  unfold readAll at h
  split at h
  · exact absurd h (by simp)
  · next opened s1 hstart =>
    split at h
    · next found s2 hrun =>
      rw [EStateM.Result.ok.injEq, Prod.mk.injEq] at h
      obtain ⟨⟨rfl, rfl⟩, rfl⟩ := h
      exact ⟨opened, s1, hstart, hrun⟩
    · exact absurd h (by simp)

theorem readAll_passed (h : readAll config bytes store = .ok (session, values) store') :
    session.header.args.length ≤ session.nextArg := by
  obtain ⟨opened, s1, -, hrun⟩ := readAll_eq_ok h
  obtain ⟨hnext, hheader, -⟩ := replicate_readNext hrun
  dsimp only at hnext hheader
  rw [hheader]
  omega

/-- A message that is read to its end says itself where that is. Cut short anywhere, it is refused
    because its bytes end, while the header or an argument is read. With anything behind it, the same
    values are read from it, and then the session does not end. -/
theorem readAll_selfDelimiting {ended : Session}
    (hread : readAll config bytes store = .ok (session, values) store')
    (hend : finish store' session = .ok () ended) :
    (∀ cut more, bytes = cut ++ more → more ≠ [] →
      ∃ s, readAll config cut store = .error .truncated s) ∧
    ∀ more, more ≠ [] → ∃ session', readAll config (bytes ++ more) store = .ok (session', values) store' ∧
      ∃ s, finish store' session' = .error .invalid s := by
  -- A session that has read the same from bytes that more follows still has that to read.
  have hmore : ∀ {front more : List UInt8} {s s' : State}, s.Ahead front more s' → more ≠ [] →
      0 < s'.session.remaining := by
    rintro front more s _ ⟨r', hahead, rfl⟩ hne
    have hlength := List.length_pos_iff.mpr hne
    have hremaining := hahead.remaining_le
    show 0 < r'.remaining
    omega
  constructor
  · rintro cut more rfl hne
    rcases (readAll_append config cut more store).ends with
      ⟨⟨session1, values1⟩, s1, -, session', hlong, hahead⟩ | ⟨e, s1, hcut, rfl | ⟨s', hlong⟩⟩
    · rw [hread, EStateM.Result.ok.injEq, Prod.mk.injEq] at hlong
      obtain ⟨⟨rfl, -⟩, rfl⟩ := hlong
      rw [finish_passed (readAll_passed hread), if_pos (hmore hahead hne)] at hend
      exact absurd hend (by simp)
    · exact ⟨s1, hcut⟩
    · exact absurd (hread.symm.trans hlong) (by simp)
  · intro more hne
    obtain ⟨session', hlong, hahead⟩ := (readAll_append config bytes more store).ok hread
    refine ⟨session', hlong, session', ?_⟩
    rw [finish_passed (readAll_passed hlong), if_pos (hmore hahead hne)]

theorem number_selfDelimiting : ∃ session values store ended,
    readAll {} numberMessage {} = .ok (session, values) store ∧ finish store session = .ok () ended ∧
    (∀ cut more, numberMessage = cut ++ more → more ≠ [] →
      ∃ s, readAll {} cut {} = .error .truncated s) ∧
    ∀ more, more ≠ [] → ∃ session', readAll {} (numberMessage ++ more) {} = .ok (session', values) store ∧
      ∃ s, finish store session' = .error .invalid s := by
  have hall : (readAll {} numberMessage).passes {} (fun found store =>
      (finish store).passes found.1 fun _ _ => true) = true := by decide +kernel
  obtain ⟨⟨session, values⟩, store, hread, hall⟩ := passes_iff.mp hall
  obtain ⟨_, ended, hend, -⟩ := passes_iff.mp hall
  exact ⟨session, values, store, ended, hread, hend, readAll_selfDelimiting hread hend⟩

end Session

end TypedWire
