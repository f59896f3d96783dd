import TypedWire.Proofs.Message.Added
import TypedWire.Proofs.Message.Settling
import TypedWire.Proofs.Session.SelfDelimiting

/-! A message that was read can be written again. The types that its header gives are settled and the
    values that were read hold trees of them, so the arguments can be added to a new message as they
    are, and that message is read as the first was. -/

namespace TypedWire.Session

open TypedWire.Action

variable {bytes : List UInt8} {config : Config} {store s0 : Store} {session : Session}
variable {s s' : State} {p : TypeId × ValueId} {pairs : List (TypeId × ValueId)}
variable {passed : List (TypeId × Datum)} {w : Scope} {lengths : Nat → Prop}

/-! ### What has been read -/

/-- One of the types of the arguments and a value of that type. -/
structure State.Gives (s : State) (p : TypeId × ValueId) : Prop where
  arg : p.1 ∈ s.session.header.args
  typed : s.store.OfType ⟨s.store, s.session.header.env⟩ .decoded s.session.config.maxDepth p.2 p.1

theorem State.Gives.later (h : s.Gives p) (hs : s.Later s') : s'.Gives p := by
  refine ⟨hs.args ▸ h.arg, hs.config ▸ h.typed.mono hs.store (fun t r n ht => ?_) (.refl .decoded)⟩
  exact ht.extends hs.scope

theorem leads_readMany (count : Nat) (s : State) :
    Leads State.Later (Action.replicate count readNext) s fun found s' => ∀ p ∈ found, s'.Gives p := by
  refine (leads_replicate (P := State.Gives) (fun s s' p hs h => h.later hs) fun s1 _ => ?_).mono
    fun found s' _ h => h.2
  refine leads_readNextWithin.mono fun (t, v) s' hs ⟨ht, _, _, hv⟩ => ⟨hs.args ▸ ht, ?_⟩
  rw [hs.config]
  exact hv

/-- What reading a message as a whole gives: a header with the types of the arguments, which are settled,
    and of each argument the type and a value of it. -/
structure Received (config : Config) (session : Session) (pairs : List (TypeId × ValueId)) (s : Store) :
    Prop where
  config : session.config = config
  named : ∃ s0, session.header.Named s0
  settled : ∃ own, Scope.Settled ⟨s, session.header.env⟩ own ∧ ∀ t ∈ session.header.args, own t
  types : pairs.map (·.1) = session.header.args
  gives : ∀ p ∈ pairs, State.Gives ⟨session, s⟩ p

theorem readAll_received (h : readAll config bytes store = .ok (session, pairs) s0) :
    Received config session pairs s0 := by
  obtain ⟨opened, s1, hstart, hrun⟩ := readAll_eq_ok h
  obtain ⟨length, hparse, hconfig, hfirst, -⟩ := start_eq_ok hstart
  obtain ⟨-, hheader, htypes⟩ := replicate_readNext hrun
  obtain ⟨hlater, hgives⟩ := (leads_readMany _ _).ok hrun
  obtain ⟨own, hsettled, hargs⟩ := Header.parse_settled hparse
  dsimp only at hheader htypes
  rw [hfirst, List.drop_zero, List.take_length] at htypes
  refine ⟨hlater.config.trans hconfig, ⟨s1, ?_⟩, ⟨own, hsettled.extends hlater.scope, ?_⟩, ?_, hgives⟩
  · exact hheader ▸ Header.parse_named hparse
  · exact hheader ▸ hargs
  · rw [hheader, htypes]

/-! ### What is read of it -/

/-- As many arguments are read as there are left. -/
theorem readsAll_many : ∀ {passed : List (TypeId × Datum)} {s : State}, Pending w lengths s passed →
    ReadsAll w lengths Prod.snd (Action.replicate passed.length readNext) passed s
  | [], _, h => readsAll_nil h
  | p :: passed, s, h => by
    rw [List.length_cons, replicate_succ]
    exact readsAll_cons (f := id) (fun _ => rfl) h fun s1 h1 => readsAll_many h1

/-- A message is read as a whole: its arguments have the types that were passed, and values that hold
    what was passed, where a `vec nat8` is a byte string. -/
theorem runs_readAll {draft : Draft} (h : Draft.Tracks ⟨draft, store⟩ passed)
    (hb : draft.encode store = .ok bytes) (hlength : bytes.length < 2 ^ 63) (receiver : Store) :
    Runs (readAll {} bytes) receiver
      (fun (session, found) s => finish s session = .ok () session ∧
        List.Forall₂ (fun p u => Scope.SameTree ⟨store, draft.env⟩ p.1 ⟨s, session.header.env⟩ u)
          passed session.header.args ∧
        List.Forall₂ (fun p f => s.Holds Subtype.defaultDepth f.2
          (Scope.readBack ⟨store, draft.env⟩ Subtype.defaultDepth p.1 p.2)) passed found)
      fun e s => e = .storeFull ∧
        receiver.RunsOut bytes.length (Brings ⟨store, draft.env⟩ passed) s := by
  rcases (runs_start h hb hlength receiver).ends with
    ⟨session, s, hopen, hpending, hs, front, hfront, hspends⟩ | ⟨e, s, hopen, he⟩
  · have hargs := hpending.args
    obtain ⟨-, -, -, hfirst, -⟩ := start_eq_ok hopen
    dsimp only at hargs
    rw [hfirst, List.drop_zero] at hargs
    have hread := readsAll_many hpending
    rw [hargs.length_eq] at hread
    rcases hread.ends with ⟨found, s', hrun, hend, hs', hfound⟩ | ⟨e, s', hrun, he, hout⟩
    · have hall : readAll {} bytes receiver = .ok (s'.session, found) s'.store := by
        simp only [readAll, hopen, hrun]
      obtain ⟨-, hheader, -⟩ := replicate_readNext hrun
      refine runs_of_ok hall ⟨finish_eq_ok hend, ?_, hfound⟩
      dsimp only at hheader hs' ⊢
      rw [hheader]
      exact hargs.imp fun p u hsame => hsame.extends (.refl _) (Scope.extends_store _ hs')
    · have hall : readAll {} bytes receiver = .error e s'.store := by
        simp only [readAll, hopen, hrun]
      exact runs_of_error hall ⟨he, hfront ▸ hout.after hspends hs.limit⟩
  · have hall : readAll {} bytes receiver = .error e s := by simp only [readAll, hopen]
    exact runs_of_error hall he

/-! ### The copy -/

/-- Writing a message again preserves it. When every argument of a message has been read, a new message,
    in which the names that its header bound are bound to the same types, takes each argument as it was
    read, and can be written; what is written is read as a whole by any receiver that has room for it.
    It has as many arguments, whose types unfold to the same trees, and each value is equal to the one
    that was read first. A receiver that is full was not spacious for as many bytes as the copy has, and has
    a limit, or has come to a byte string of one of the values that it does not take. The lengths of the
    spans that were read have 32 bits, and those of the lists 64, as the handles of a store have. -/
theorem readAll_copied {env : Env} {s : Store}
    (hread : readAll {} bytes store = .ok (session, pairs) s)
    (henv : ∀ name t, session.header.env.find? name = some t → env.find? name = some t)
    (hsized : s.Sized) :
    ∃ draft, (pairs.forM fun p => Draft.add p.1 p.2) ⟨{ env }, s⟩ = .ok () ⟨draft, s⟩ ∧
      ∃ copy, draft.encode s = .ok copy ∧ (copy.length < 2 ^ 63 → ∀ receiver,
        Runs (readAll {} copy) receiver
          (fun (session', pairs') s' => finish s' session' = .ok () session' ∧
            List.Forall₂ (fun t t' =>
              Scope.SameTree ⟨s, session.header.env⟩ t ⟨s', session'.header.env⟩ t')
              session.header.args session'.header.args ∧
            List.Forall₂ (fun p p' => s.equal p.2 s' p'.2 = .ok true) pairs pairs')
          fun e s' => e = .storeFull ∧ receiver.RunsOut copy.length
            (fun n => ∃ p ∈ pairs, ∃ d, s.Holds Subtype.defaultDepth p.2 d ∧ d.Lengths n) s') := by
  obtain ⟨hconfig, ⟨s0, hnamed⟩, ⟨own, hsettled, hargs⟩, htypes, hgives⟩ := readAll_received hread
  have hw : Scope.Extends ⟨s, session.header.env⟩ ⟨s, env⟩ := hnamed.extends s henv
  have hsettled' : Scope.Settled ⟨s, env⟩ own := hsettled.extends hw
  have hbears : ∀ p ∈ pairs, s.Bears ⟨s, env⟩ Subtype.defaultDepth p.2 p.1 := by
    intro p hp
    obtain ⟨harg, hv⟩ := hgives p hp
    rw [hconfig] at hv
    refine Store.OfType.bears hsized (hsettled'.canonical (hargs p.1 harg)) ?_
    exact hv.mono (.refl s) (fun t r n ht => ht.extends hw) (.refl .decoded)
  have : Nonempty Datum := ⟨.null⟩
  choose! d hholds hwritten hreadBack using hbears
  have hfits : List.Forall₂ (Draft.Fit own ⟨{ env }, s⟩) pairs (pairs.map fun p => (p.1, d p)) :=
    List.forall₂_map_right_iff.mpr (List.forall₂_same.mpr fun p hp =>
      ⟨rfl, hargs p.1 (hgives p hp).arg, ⟨_, hholds p hp⟩, hwritten p hp⟩)
  have hadd := Draft.runs_addAll (s := ⟨{ env }, s⟩) hsettled' (Draft.holding_start own env s) hfits
  obtain ⟨_, ⟨draft, s1⟩, hadd, hstore, henv1, hholding⟩ := hadd.succeeds
  dsimp only at hstore henv1
  subst hstore henv1
  obtain ⟨copy, hcopy⟩ := hholding.encode_ok
  refine ⟨draft, hadd, copy, hcopy, fun hlength receiver => ?_⟩
  refine (runs_readAll hholding.toTracks hcopy hlength receiver).mono ?_ ?_
  · rintro ⟨session', pairs'⟩ s' ⟨hend, hargs', hfound⟩
    rw [List.nil_append, List.forall₂_map_left_iff] at hargs' hfound
    refine ⟨hend, ?_, ?_⟩
    · rw [← htypes, List.forall₂_map_left_iff]
      exact ((List.forall₂_and_left _ _).mpr ⟨fun p hp => hargs p.1 (hgives p hp).arg, hargs'⟩).imp
        fun p t ⟨hown, htree⟩ => hsettled.sameTree hw hown htree
    · refine ((List.forall₂_and_left _ _).mpr ⟨fun p hp => hp, hfound⟩).imp fun p p' ⟨hp, hv⟩ => ?_
      rw [hreadBack p hp] at hv
      exact Store.equal_of_holds (hholds p hp) hv
  · rintro e s' ⟨he, hout⟩
    refine ⟨he, hout.mono (Nat.le_refl _) ?_⟩
    rintro n ⟨_, hq, hn⟩
    obtain ⟨p, hp, rfl⟩ := List.mem_map.mp hq
    rw [hreadBack p hp] at hn
    exact ⟨p, hp, d p, hholds p hp, hn⟩

/-- A message with two lists of numbers. The length of its table is written longer than it needs to be,
    the two record types unfold to one tree, and the last entry, which nothing refers to, is of a kind
    yet to come. -/
def oddMessage : List UInt8 :=
  [0x44, 0x49, 0x44, 0x4c, 0x84, 0, 0x6e, 1, 0x6c, 2, 0, 0x7d, 1, 0, 0x6c, 2, 0, 0x7d, 1, 0,
    0x66, 2, 0xaa, 0xbb, 2, 1, 2, 7, 1, 8, 0, 7, 0]

/-- What becomes of it when it is written again. -/
def oddCopy : List UInt8 :=
  [0x44, 0x49, 0x44, 0x4c, 2, 0x6c, 2, 0, 0x7d, 1, 1, 0x6e, 0, 2, 0, 0, 7, 1, 8, 0, 7, 0]

theorem odd_copied : ∃ session pairs s, readAll {} oddMessage {} = .ok (session, pairs) s ∧
    (∀ name t, session.header.env.find? name = some t → session.header.env.find? name = some t) ∧
    s.Sized ∧ ∃ draft,
      (pairs.forM fun p => Draft.add p.1 p.2) ⟨{ env := session.header.env }, s⟩ = .ok () ⟨draft, s⟩ ∧
      draft.encode s = .ok oddCopy ∧ ∃ session' pairs' s',
        readAll {} oddCopy {} = .ok (session', pairs') s' ∧ finish s' session' = .ok () session' ∧
        List.Forall₂ (fun t t' =>
          Scope.SameTree ⟨s, session.header.env⟩ t ⟨s', session'.header.env⟩ t')
          session.header.args session'.header.args ∧
        List.Forall₂ (fun p p' => s.equal p.2 s' p'.2 = .ok true) pairs pairs' := by
  have hall : (readAll {} oddMessage).passes {} (fun found s => decide s.Sized &&
      (found.2.forM fun p => Draft.add p.1 p.2).passes ⟨{ env := found.1.header.env }, s⟩ fun _ s' =>
        (s'.draft.encode s'.store).toOption = some oddCopy) = true := by decide +kernel
  obtain ⟨⟨session, pairs⟩, s, hread, hall⟩ := passes_iff.mp hall
  rw [Bool.and_eq_true, decide_eq_true_eq] at hall
  obtain ⟨draft, hadd, copy, hcopy, hback⟩ := readAll_copied hread (fun _ _ => id) hall.1
  have hsame : copy = oddCopy := by
    obtain ⟨_, s', hadd', hsame⟩ := passes_iff.mp hall.2
    obtain ⟨-, rfl⟩ := EStateM.Result.ok.inj (hadd'.symm.trans hadd)
    simpa [hcopy, Except.toOption] using hsame
  subst hsame
  refine ⟨session, pairs, s, hread, fun _ _ => id, hall.1, draft, hadd, hcopy, ?_⟩
  -- The receiver is a variable, so that nothing is run here.
  have hspacious : Store.Spacious {} 22 := by decide
  generalize ({} : Store) = receiver at hspacious ⊢
  rcases (hback (by simp [oddCopy]) receiver).ends with
    ⟨⟨session', pairs'⟩, s', hread', hend, hsame⟩ | ⟨e, _, -, -, hfull⟩
  · exact ⟨session', pairs', s', hread', hend, hsame⟩
  · exact absurd hspacious hfull.short

end TypedWire.Session
