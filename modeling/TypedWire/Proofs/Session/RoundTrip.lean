import TypedWire.Session
import TypedWire.Proofs.Message.Draft
import TypedWire.Proofs.Message.HeaderRoundTrip
import TypedWire.Proofs.Session.Decode
import TypedWire.Proofs.Value.Equal

/-! A message is read back: whatever calls it was put together by, a session opened on it gives the
    arguments that were added, in order, and then ends. -/

namespace TypedWire

open TypedWire.Action

/-! ### What is written -/

/-- A message that is written begins with the magic bytes and the table, and ends with the values. -/
theorem Draft.encode_eq_ok {draft : Draft} {store : Store} {bytes : List UInt8}
    (h : draft.table.Linked ⟨store, draft.env⟩) (hb : draft.encode store = .ok bytes) :
    ∃ code : TypeId → Int,
      (∀ c ∈ draft.table.args.toList, draft.table.Refers ⟨store, draft.env⟩ c (code c)) ∧
      bytes = Header.magic ++ Header.bodyBytes draft.table code ++ draft.values.toList := by
  simp only [Draft.encode, Except.bind_eq_ok, Except.pure_eq_ok] at hb
  obtain ⟨header, hheader, rfl⟩ := hb
  obtain ⟨code, hrefers, rfl⟩ := Header.encode_eq_ok h hheader
  exact ⟨code, hrefers, rfl⟩

namespace Session

/-! ### What is read -/

/-- Reads the arguments that are left, as long as there are some; `most` is how many at most. -/
def readRest : (most : Nat) → Action State (List ValueId)
  | 0 => pure []
  | most + 1 => do
    if (← get).session.allRead then return []
    let (_, v) ← readNext
    return v :: (← readRest most)

/-- Reads a message as a whole: opens a session on it, reads arguments as long as there are some, and
    ends the session. -/
def receive (most : Nat) (bytes : List UInt8) : Action Store (List ValueId) := fun store =>
  match start bytes {} store with
  | .error e store => .error e store
  | .ok session store =>
    match readRest most ⟨session, store⟩ with
    | .error e s => .error e s.store
    | .ok values s =>
      match finish s.store s.session with
      | .ok _ _ => .ok values s.store
      | .error e _ => .error e s.store

variable {w : Scope} {t u : TypeId} {d : Datum} {lengths : Nat → Prop} {s : State} {k : Nat}
variable {rest : List UInt8}

/-- The length of one of the byte strings that are put in when what was passed is read. -/
def Brings (w : Scope) (passed : List (TypeId × Datum)) (n : Nat) : Prop :=
  ∃ p ∈ passed, (w.readBack Subtype.defaultDepth p.1 p.2).Lengths n

/-- What is left of a session: the types and values of the arguments that come next. Of the byte strings
    that they bring, each has one of the `lengths`. -/
structure Pending (w : Scope) (lengths : Nat → Prop) (s : State) (passed : List (TypeId × Datum)) :
    Prop where
  config : s.session.config = {}
  reader : s.session.reader.unread = some (passed.map fun p => p.2.encode).flatten
  args : List.Forall₂ (fun p u => w.SameTree p.1 ⟨s.store, s.session.header.env⟩ u) passed
    (s.session.header.args.drop s.session.nextArg)
  brings : Brings w passed ≤ lengths
  typed : ∀ p ∈ passed, w.Types Subtype.defaultDepth p.2 p.1 ∧ w.Throughout TypeNode.Canonical p.1

/-- The type of the next argument, and the types of the others. -/
theorem Pending.next {p : TypeId × Datum} {passed : List (TypeId × Datum)}
    (h : Pending w lengths s (p :: passed)) :
    ∃ u, s.session.header.args[s.session.nextArg]? = some u ∧
      w.SameTree p.1 ⟨s.store, s.session.header.env⟩ u ∧
      List.Forall₂ (fun p u => w.SameTree p.1 ⟨s.store, s.session.header.env⟩ u) passed
        (s.session.header.args.drop (s.session.nextArg + 1)) := by
  obtain ⟨u, us, hsame, hrest, hdrop⟩ := List.forall₂_cons_left_iff.mp h.args
  refine ⟨u, ?_, hsame, ?_⟩
  · rw [← List.head?_drop, hdrop]
    rfl
  · rw [← List.drop_drop, hdrop]
    exact hrest

/-- Reading the next argument is decoding a value of its type, between two notes. -/
theorem readNext_eq {session : Session} (store : Store)
    (harg : session.header.args[session.nextArg]? = some u) :
    readNext ⟨session, store⟩ =
      let begun := session.note (.argStart session.nextArg u session.reader.offset)
      match Decode.value session.context session.config.maxDepth u
        ⟨session.reader, store, session.cost, begun.log⟩ with
      | .ok v ⟨reader, store, cost, log⟩ => .ok (u, v) ⟨{ { begun with cost, log }.note
          (.argEnd begun.nextArg reader.offset none) with
            reader, nextArg := begun.nextArg + 1 }, store⟩
      | .error e ⟨reader, store, cost, log⟩ => .error e ⟨{ begun with cost, log }.note
          (.argEnd begun.nextArg reader.offset (some e)), store⟩ := by
  simp only [readNext, harg]
  rfl

/-- The next argument is read, and the others are pending. -/
theorem runs_readNext {p : TypeId × Datum} {passed : List (TypeId × Datum)}
    (h : Pending w lengths s (p :: passed)) :
    Runs readNext s (fun (_, v) s' => Pending w lengths s' passed ∧ s.store.Extends s'.store ∧
        s.store.Spends p.2.encode.length s'.store ∧
        s'.store.Holds Subtype.defaultDepth v (w.readBack Subtype.defaultDepth p.1 p.2))
      fun e s' => e = .storeFull ∧ s.store.RunsOut p.2.encode.length lengths s'.store := by
  obtain ⟨u, harg, hsame, hrest⟩ := h.next
  obtain ⟨session, store⟩ := s
  have htyped := List.forall_mem_cons.mp h.typed
  have hreader : session.reader.unread = some (p.2.encode ++
      (passed.map fun p => p.2.encode).flatten) := h.reader
  have hquota : session.context.quota = 0 := congrArg Config.decodingQuota h.config
  have hdepth : session.config.maxDepth = Subtype.defaultDepth := congrArg Config.maxDepth h.config
  have hdecode : Decode.view.Takes lengths store (Decode.value session.context Subtype.defaultDepth u)
      p.2.encode fun s v =>
        s.Holds Subtype.defaultDepth v (w.readBack Subtype.defaultDepth p.1 p.2) :=
    Decode.reverts hquota _ (fun n hn => h.brings n ⟨p, List.mem_cons_self, hn⟩) htyped.1.1
      htyped.1.2 hsame
  have hstart : session.reader = ⟨session.reader.offset, some (p.2.encode ++
      (passed.map fun p => p.2.encode).flatten)⟩ := by
    rw [← hreader]
  have hvalue := hdecode ⟨session.reader, store, session.cost,
    (session.note (.argStart session.nextArg u session.reader.offset)).log⟩ _ _ trivial (.refl _) hstart
  have hnext := readNext_eq store harg
  dsimp only at hnext
  rw [hdepth] at hnext
  rcases hvalue.ends with ⟨v, ⟨reader, store', cost, log⟩, hvalue, -, hs, hspends, hafter, hholds⟩ |
    ⟨e, ⟨reader, store', cost, log⟩, hvalue, he⟩
  · rw [hvalue] at hnext
    refine runs_of_ok hnext
      ⟨⟨h.config, congrArg Reader.unread hafter, ?_, ?_, htyped.2⟩, hs, hspends, hholds⟩
    · exact hrest.imp fun _ _ h => h.extends (.refl w) (Scope.extends_store _ hs)
    · exact fun n ⟨q, hq, hn⟩ => h.brings n ⟨q, List.mem_cons_of_mem _ hq, hn⟩
  · rw [hvalue] at hnext
    exact runs_of_error hnext he

theorem allRead_iff (h : Pending w lengths s passed) : s.session.allRead = true ↔ passed = [] := by
  rw [allRead, decide_eq_true_eq, ← List.drop_eq_nil_iff, ← List.length_eq_zero_iff,
    ← List.length_eq_zero_iff, h.args.length_eq]

/-- The run reads the arguments that are left, in order; `value` says where each of its answers has the value
    that was read. -/
def ReadsAll {α : Type} (w : Scope) (lengths : Nat → Prop) (value : α → ValueId)
    (x : Action State (List α)) (passed : List (TypeId × Datum)) (s : State) : Prop :=
  Runs x s (fun found s' => Pending w lengths s' [] ∧ s.store.Extends s'.store ∧
      List.Forall₂ (fun p a => s'.store.Holds Subtype.defaultDepth (value a)
        (w.readBack Subtype.defaultDepth p.1 p.2)) passed found)
    fun e s' => e = .storeFull ∧
      s.store.RunsOut (passed.map fun p => p.2.encode).flatten.length lengths s'.store

theorem readsAll_nil {α : Type} {value : α → ValueId} (h : Pending w lengths s []) :
    ReadsAll w lengths value (pure []) [] s := runs_pure ⟨h, .refl _, .nil⟩

/-- One argument is read, and then the others. -/
theorem readsAll_cons {α : Type} {value : α → ValueId} {f : TypeId × ValueId → α}
    {x : Action State (List α)} {p : TypeId × Datum} {passed : List (TypeId × Datum)}
    (hvalue : ∀ a, value (f a) = a.2) (h : Pending w lengths s (p :: passed))
    (hx : ∀ s1, Pending w lengths s1 passed → ReadsAll w lengths value x passed s1) :
    ReadsAll w lengths value (do
      let a ← readNext
      return f a :: (← x)) (p :: passed) s := by
  unfold ReadsAll
  rw [List.map_cons, List.flatten_cons, List.length_append]
  refine runs_bind ((runs_readNext h).mono ?_ ?_)
  · rintro a s1 ⟨h1, hs1, hspends, hv⟩
    refine runs_bind ((hx s1 h1).mono ?_ ?_)
    · rintro found s2 ⟨h2, hs2, hfound⟩
      refine runs_pure ⟨h2, hs1.trans hs2, .cons ?_ hfound⟩
      rw [hvalue]
      exact hv.extends hs2
    · exact fun e s2 ⟨he, hout⟩ => ⟨he, hout.after hspends hs1.limit⟩
  · exact fun e s1 ⟨he, hout⟩ => ⟨he, hout.mono (Nat.le_add_right _ _) fun _ => id⟩

/-- The arguments that are left are read until none is left. -/
theorem readsAll_rest : ∀ {passed : List (TypeId × Datum)} {most : Nat} {s : State},
    Pending w lengths s passed → passed.length ≤ most →
    ReadsAll w lengths (fun v => v) (readRest most) passed s
  | [], 0, _, h, _ => readsAll_nil h
  | [], most + 1, s, h, _ => by
    refine runs_bind (runs_of_ok rfl ?_)
    rw [if_pos ((allRead_iff h).mpr rfl)]
    exact readsAll_nil h
  | p :: passed, 0, _, _, hmost => absurd hmost (by simp)
  | p :: passed, most + 1, s, h, hmost => by
    refine runs_bind (runs_of_ok rfl ?_)
    rw [if_neg (mt (allRead_iff h).mp (by simp))]
    exact readsAll_cons (f := Prod.snd) (fun _ => rfl) h
      fun s1 h1 => readsAll_rest h1 (Nat.le_of_succ_le_succ hmost)

/-- Without a quota nothing costs too much. -/
theorem spend_free {session : Session} (h : session.config = {}) (k : Nat) :
    session.spend k = (.ok (), { session with
      cost := Cost.add session.cost k
      log := session.topics.note session.log (.cost k (Cost.add session.cost k)) }) := by
  have hfree : ¬ Cost.exceeds session.config.decodingQuota (Cost.add session.cost k) = true := by
    simp [Cost.exceeds, h]
  simp only [spend, if_neg hfree]

/-- A session opens on the message, with every argument pending, and what the header takes of the message is
    all that is spent. -/
theorem runs_start {draft : Draft} {store : Store} {bytes : List UInt8}
    (h : Draft.Tracks ⟨draft, store⟩ passed) (hb : draft.encode store = .ok bytes)
    (hlength : bytes.length < 2 ^ 63) (receiver : Store) :
    Runs (start bytes {}) receiver
      (fun session s => Pending ⟨store, draft.env⟩ (Brings ⟨store, draft.env⟩ passed) ⟨session, s⟩
          passed ∧ receiver.Extends s ∧
        ∃ front, front + (passed.map fun p => p.2.encode).flatten.length = bytes.length ∧
          receiver.Spends front s)
      fun e s => e = .storeFull ∧
        receiver.RunsOut bytes.length (Brings ⟨store, draft.env⟩ passed) s := by
  obtain ⟨code, hrefers, rfl⟩ := Draft.encode_eq_ok h.table.toLinked hb
  have hvalues : draft.values.toList = (passed.map fun p => p.2.encode).flatten := h.values
  have hargs : draft.table.args.toList = passed.map (·.1) := h.args
  have hbody : (Header.bodyBytes draft.table code).length < 2 ^ 63 := by
    simp only [List.length_append] at hlength
    omega
  refine runs_bind ((Header.runs_parse receiver h.table hrefers hbody draft.values.toList).mono ?_ ?_)
  · rintro ⟨header, length⟩ s ⟨hs, hspends, rfl, hsame⟩
    dsimp only
    rw [spend_free rfl]
    refine runs_pure ⟨⟨rfl, ?_, ?_, fun _ => id, ?_⟩, hs, _, ?_, hspends⟩
    · show (Reader.ofBytes _ _).unread = _
      rw [Reader.ofBytes, if_pos (by simp), List.drop_left, hvalues]
    · rw [hargs, List.forall₂_map_left_iff] at hsame
      exact hsame
    · exact fun p hp => ⟨(h.carries p hp).types, (h.carries p hp).canonical⟩
    · rw [← hvalues, ← List.length_append]
  · rintro e s ⟨he, hout⟩
    exact ⟨he, hout.mono (List.prefix_append _ _).length_le fun _ => False.elim⟩

/-- Where no argument is left and nothing follows, the session ends. -/
theorem finish_eq_ok (h : Pending w lengths s []) : finish s.store s.session = .ok () s.session := by
  have hleft : s.session.header.args.length - s.session.nextArg = 0 := by
    have hargs := (List.forall₂_nil_left_iff.mp h.args)
    rw [List.drop_eq_nil_iff] at hargs
    omega
  have hend : ¬ 0 < s.session.remaining := by
    rw [remaining, Reader.remaining, h.reader]
    simp
  simp only [finish, Action.bind_eq_ok]
  refine ⟨s.session, s.session, rfl, (), s.session, ?_, s.session, s.session, rfl, ?_⟩
  · rw [hleft]
    rfl
  · rw [if_neg hend]
    rfl

/-- Whatever calls a message was put together by, the arguments that were added are read back from it,
    in order, and nothing is left. Each is equal to any value that holds what was passed, where a
    `vec nat8` is a byte string. Reading fails only where the receiver is full: it was not spacious for as
    many bytes as the message has, and it has a limit, or has come to a byte string of one of the
    arguments that it does not take. A message that lies in memory is shorter than `2 ^ 63` bytes. -/
theorem runs_receive {draft : Draft} {store : Store} {bytes : List UInt8} {most : Nat}
    (h : Draft.Run ⟨draft, store⟩ passed) (hb : draft.encode store = .ok bytes)
    (hlength : bytes.length < 2 ^ 63) (hmost : passed.length ≤ most) (receiver : Store) :
    Runs (receive most bytes) receiver
      (fun values s => List.Forall₂ (fun p v =>
        s.Holds Subtype.defaultDepth v
          (Scope.readBack ⟨store, draft.env⟩ Subtype.defaultDepth p.1 p.2) ∧
        ∀ (sender : Store) (k : Nat) (x : ValueId),
          sender.Holds k x (Scope.readBack ⟨store, draft.env⟩ Subtype.defaultDepth p.1 p.2) →
          Store.equal sender x s v = .ok true) passed values)
      fun e s => e = .storeFull ∧
        receiver.RunsOut bytes.length (Brings ⟨store, draft.env⟩ passed) s := by
  rcases (runs_start h.tracks hb hlength receiver).ends with
    ⟨session, s, hopen, hpending, hs, front, hfront, hspends⟩ | ⟨e, s, hopen, he⟩
  · rcases (readsAll_rest hpending hmost).ends with
      ⟨values, s', hread, hend, -, hall⟩ | ⟨e, s', hread, he, hout⟩
    · have hreceive : receive most bytes receiver = .ok values s'.store := by
        simp only [receive, hopen, hread, finish_eq_ok hend]
      refine runs_of_ok hreceive (hall.imp fun p v hv => ⟨hv, ?_⟩)
      exact fun sender k x hx => Store.equal_of_holds hx hv
    · have hreceive : receive most bytes receiver = .error e s'.store := by
        simp only [receive, hopen, hread]
      exact runs_of_error hreceive ⟨he, hfront ▸ hout.after hspends hs.limit⟩
  · have hreceive : receive most bytes receiver = .error e s := by
      simp only [receive, hopen]
    exact runs_of_error hreceive he

/-- A list type that names itself, and a list of one item. -/
def links : Store where
  types := #[.primitive (.fixed .nat8), .var "list", .opt ⟨1⟩, .record [⟨.bare 0, ⟨0⟩⟩, ⟨.bare 1, ⟨2⟩⟩]]
  values := #[.fixed ⟨.nat8, 7⟩, .opt none, .record [⟨.bare 0, ⟨0⟩⟩, ⟨.bare 1, ⟨1⟩⟩]]

/-- The list of one item. -/
def link : Datum := .record [(0, .fixed ⟨.nat8, 7⟩), (1, .opt none)]

theorem links_received : ∃ draft bytes,
    Draft.Run ⟨draft, links⟩ [(⟨3⟩, link)] ∧ draft.encode links = .ok bytes ∧
    ∃ v s, receive 1 bytes links.cleared = .ok [v] s ∧ links.equal ⟨2⟩ s v = .ok true := by
  have hheld : links.Holds 2 ⟨2⟩ link :=
    ⟨_, rfl, .record (.cons ⟨rfl, _, rfl, .fixed _⟩ (.cons ⟨rfl, _, rfl, .none⟩ .nil))⟩
  have htypes : Scope.Types ⟨links, ⟨[("list", ⟨3⟩)]⟩⟩ Subtype.defaultDepth link ⟨3⟩ :=
    ⟨⟨3⟩, _, ⟨rfl, rfl⟩, .record (.cons ⟨rfl, ⟨0⟩, _, ⟨rfl, rfl⟩, .fixed ⟨.nat8, 7⟩⟩
      (.cons ⟨rfl, ⟨2⟩, .opt ⟨1⟩, ⟨rfl, rfl⟩, .none ⟨1⟩⟩ .nil))
      (.swap (0, .fixed ⟨.nat8, 7⟩) (1, .opt none) [])
      (by simp [inLabelOrder?, distinctNeighbours, List.mergeSort, Label.id])⟩
  have hcanon : Scope.Throughout ⟨links, ⟨[("list", ⟨3⟩)]⟩⟩ TypeNode.Canonical ⟨3⟩ := by
    refine .of_store (fun n hn => ?_) ⟨3⟩
    have hn : n ∈ links.types := hn
    simp only [links, List.mem_toArray, List.mem_cons, List.not_mem_nil, or_false] at hn
    rcases hn with rfl | rfl | rfl | rfl
    all_goals simp [TypeNode.Canonical, Increasing, Label.id]
  have hempty : Draft.Run ⟨{ env := ⟨[("list", ⟨3⟩)]⟩ }, links⟩ [] :=
    .bound (.start links) (rfl : Env.insert {} "list" ⟨3⟩ = _)
  have hfailed : Draft.Run _ [] := .failed hempty (rfl : (Draft.Call.typed ⟨9⟩ ⟨2⟩).perform _ = _)
  have hadded : ∃ draft, Draft.Run ⟨draft, links⟩ [(⟨3⟩, link)] ∧ draft.encode links =
      .ok [0x44, 0x49, 0x44, 0x4c, 2, 0x6c, 2, 0, 0x7b, 1, 1, 0x6e, 0, 1, 0, 7, 0] := by
    refine ⟨_, .added hfailed (rfl : (Draft.Call.typed ⟨3⟩ ⟨2⟩).perform _ = _) rfl ?_, ?_⟩
    · exact ⟨rfl, ⟨2, hheld⟩, htypes, hcanon⟩
    · decide +kernel
  obtain ⟨draft, hrun, hbytes⟩ := hadded
  refine ⟨draft, _, hrun, hbytes, ?_⟩
  -- The receiver is a variable, so that nothing is run here.
  have hspacious : links.cleared.Spacious 17 := by decide
  generalize links.cleared = receiver at hspacious ⊢
  rcases (runs_receive hrun hbytes (by simp) (Nat.le_refl 1) receiver).ends with
    ⟨values, s, hok, hall⟩ | ⟨e, s, -, -, hfull⟩
  · rw [List.forall₂_cons_left_iff] at hall
    obtain ⟨v, rest, ⟨-, hv⟩, hrest, rfl⟩ := hall
    obtain rfl := List.forall₂_nil_left_iff.mp hrest
    exact ⟨v, s, hok, hv links 2 ⟨2⟩ hheld⟩
  · exact absurd hspacious hfull.short

end Session

end TypedWire
