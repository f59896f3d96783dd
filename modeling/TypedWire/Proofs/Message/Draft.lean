import TypedWire.Message.Draft
import TypedWire.Proofs.Message.Register
import TypedWire.Proofs.Value.ReadBack

/-! Adding arguments to a message, in any number and order, some of which may fail: what has been
    written are the values of the arguments that were added, and the table holds their types. A call
    that fails leaves no trace in the message. -/

namespace TypedWire.Draft

open TypedWire.Action

/-! ### Calls -/

/-- A call that adds an argument: a value with a type, or a value by itself. -/
inductive Call where
  | typed (type : TypeId) (value : ValueId)
  | null
  | bool (b : Bool)
  | fixed (n : FixedNumber)
  | nat (v : UInt64)
  | int (v : Int64)
  | text (s : String)
  | principal (bytes : List UInt8)
  | blob (bytes : List UInt8)

namespace Call

/-- What the call does. -/
def perform : Call → Action State Unit
  | .typed type value => Draft.add type value
  | .null => addPrimitive .null (pure ())
  | .bool b => addPrimitive .bool (Output.flag b)
  | .fixed n => addPrimitive (.fixed n.kind) (Output.fixed n)
  | .nat v => addPrimitive .nat (Output.unsigned v.toNat)
  | .int v => addPrimitive .int (Output.signed v.toInt)
  | .text s => addPrimitive .text (Output.text s)
  | .principal bytes => addPrimitive .principal (Output.principal bytes)
  | .blob bytes => addBlob bytes

/-- The call passes the value `d` with the type `t`, and well typed. A type that is handed over is one
    that the factories make, and a payload is one that a span can name. -/
def Passes (w : Scope) (t : TypeId) (d : Datum) : Call → Prop
  | .typed type value => type = t ∧ (∃ depth, w.store.Holds depth value d) ∧
      w.Types Subtype.defaultDepth d t ∧ w.Throughout TypeNode.Canonical t
  | .null => d = .null
  | .bool b => d = .bool b
  | .fixed n => d = .fixed n
  | .nat v => d = .nat (Leb128.encodeUnsigned v.toNat)
  | .int v => d = .int (Leb128.encodeSigned v.toInt)
  | .text s => d = .text s ∧ Payload (utf8 s)
  | .principal bytes => d = .principal bytes
  | .blob bytes => d = .blob bytes ∧ Payload bytes

end Call

/-- A message and its store after any number of calls, and the type and value of each argument that
    was added. In between more may be put into the store, and names may be bound. -/
inductive Run : State → List (TypeId × Datum) → Prop where
  | start (store : Store) : Run ⟨{}, store⟩ []
  | stored {draft : Draft} {store store' : Store} {passed : List (TypeId × Datum)} :
      Run ⟨draft, store⟩ passed → store.Extends store' → Run ⟨draft, store'⟩ passed
  | bound {draft : Draft} {store : Store} {passed : List (TypeId × Datum)} {name : String}
      {type : TypeId} {env : Env} : Run ⟨draft, store⟩ passed →
      draft.env.insert name type = .ok env → Run ⟨{ draft with env }, store⟩ passed
  | failed {s s' : State} {passed : List (TypeId × Datum)} {call : Call} {e : Fault} :
      Run s passed → call.perform s = .error e s' → Run s' passed
  | added {s s' : State} {passed : List (TypeId × Datum)} {call : Call} {t : TypeId} {d : Datum} :
      Run s passed → call.perform s = .ok () s' → s'.draft.table.args.back? = some t →
      call.Passes ⟨s'.store, s'.draft.env⟩ t d → Run s' (passed ++ [(t, d)])

/-! ### What holds after each call -/

/-- The names and types that a message takes its types from. -/
def State.scope (s : State) : Scope := ⟨s.store, s.draft.env⟩

/-- The type is one of the message, and the value is of it. -/
structure Carries (s : State) (t : TypeId) (d : Datum) : Prop where
  refers : ∃ code, s.draft.table.Refers s.scope t code
  types : s.scope.Types Subtype.defaultDepth d t
  canonical : s.scope.Throughout TypeNode.Canonical t

/-- The message holds the arguments that were passed. -/
structure Tracks (s : State) (passed : List (TypeId × Datum)) : Prop where
  table : s.draft.table.Complete s.scope
  shared : ∀ p t, s.draft.shared.lookup p = some t → s.store.typeAt t = .ok (.primitive p)
  args : s.draft.table.args.toList = passed.map (·.1)
  values : s.draft.values.toList = (passed.map fun p => p.2.encode).flatten
  carries : ∀ p ∈ passed, Carries s p.1 p.2

/-- What a call may have done when it gives up. -/
structure Stray (s s' : State) : Prop where
  store : s.store.Extends s'.store
  env : s'.draft.env = s.draft.env
  shared : ∀ p t, s'.draft.shared.lookup p = some t → s'.store.typeAt t = .ok (.primitive p)
  linked : s'.draft.table.Linked s'.scope
  later : s.draft.table.Later s'.draft.table
  values : s.draft.values.toList <+: s'.draft.values.toList

variable {s s' s'' : State} {passed : List (TypeId × Datum)} {t type : TypeId} {d : Datum}

theorem tracks_start (store : Store) : Tracks ⟨{}, store⟩ [] where
  table := TypeTable.complete_empty _
  shared := by simp
  args := rfl
  values := rfl
  carries := by simp

/-- More in the store, and more names bound. -/
theorem Tracks.extends {draft : Draft} {store store' : Store} {env : Env}
    (h : Tracks ⟨draft, store⟩ passed) (hw : Scope.Extends ⟨store, draft.env⟩ ⟨store', env⟩) :
    Tracks ⟨{ draft with env }, store'⟩ passed where
  table := h.table.extends hw
  shared p t ht := hw.typeAt _ _ (h.shared p t ht)
  args := h.args
  values := h.values
  carries p hp := by
    obtain ⟨⟨code, hcode⟩, htypes, hcanon⟩ := h.carries p hp
    exact ⟨⟨code, hcode.extends hw⟩, htypes.extends hw, h.table.throughout hcode hw hcanon⟩

theorem Tracks.stray (h : Tracks s passed) : Stray s s :=
  ⟨.refl _, rfl, h.shared, h.table.toLinked, .refl _, List.prefix_rfl⟩

theorem Stray.trans (h : Stray s s') (h' : Stray s' s'') : Stray s s'' :=
  ⟨h.store.trans h'.store, h'.env.trans h.env, h'.shared, h'.linked, h.later.trans h'.later,
    h.values.trans h'.values⟩

theorem Stray.extends (h : Stray s s') : s.scope.Extends s'.scope := by
  show Scope.Extends ⟨s.store, s.draft.env⟩ ⟨s'.store, s'.draft.env⟩
  rw [h.env]
  exact Scope.extends_store s.draft.env h.store

/-! ### Taking back -/

/-- What was added of an argument that failed is taken back, as far as the message is concerned. -/
theorem Tracks.undo (h : Tracks s passed) (hs : Stray s s') :
    Tracks { s' with draft := { s'.draft with
      table := s'.draft.table.restore s.draft.table.mark
      values := s'.draft.values.take s.draft.values.size } } passed := by
  have htable := (h.table.extends hs.extends).restore hs.later hs.linked
  have hrestore := hs.later.restore h.table.size
  refine ⟨htable, hs.shared, ?_, ?_, fun p hp => ?_⟩
  · rw [hrestore]
    exact h.args
  · rw [TypeTable.take_of_front hs.values]
    exact h.values
  · obtain ⟨⟨code, hcode⟩, htypes, hcanon⟩ := h.carries p hp
    refine ⟨⟨code, ?_⟩, htypes.extends hs.extends, h.table.throughout hcode hs.extends hcanon⟩
    rw [hrestore]
    exact (hcode.extends hs.extends).later List.prefix_rfl

theorem runs_wholly {action : Action State Unit} {post : Unit → State → Prop} (h : Tracks s passed)
    (hrun : Runs action s post fun _ s' => Stray s s') :
    Runs (wholly action) s post fun _ s' => Tracks s' passed := by
  rcases hrun.ends with ⟨a, s', haction, ha⟩ | ⟨e, s', haction, hs⟩
  · have hwhole : wholly action s = .ok a s' := by simp only [wholly, haction]
    exact runs_of_ok hwhole ha
  · have hwhole : wholly action s = .error e { s' with draft := { s'.draft with
        table := s'.draft.table.restore s.draft.table.mark
        values := s'.draft.values.take s.draft.values.size } } := by
      simp only [wholly, haction]
    exact runs_of_error hwhole (h.undo hs)

/-! ### One argument -/

/-- What adding the type and the bytes of an argument leaves. -/
structure Adds (s : State) (type : TypeId) (P : List UInt8 → Prop) (s' : State) : Prop where
  store : s'.store = s.store
  env : s'.draft.env = s.draft.env
  shared : s'.draft.shared = s.draft.shared
  args : s'.draft.table.args = s.draft.table.args.push type
  later : s.draft.table.Later s'.draft.table
  refers : ∃ code, s'.draft.table.Refers s'.scope type code
  complete : s'.scope.Throughout TypeNode.Canonical type → s'.draft.table.Complete s'.scope
  values : ∃ more, s'.draft.values.toList = s.draft.values.toList ++ more ∧ P more

theorem runs_addType (h : Tracks s passed) (type : TypeId) :
    Runs (addType type) s (fun _ s' => Stray s s' ∧ Adds s type (· = []) s') fun _ s' => Stray s s' := by
  refine runs_lift (y := TypeTable.addArg s.store s.draft.env type)
    (fun table => { s with draft := { s.draft with table } })
    (fun _ table htable => by simp only [addType, htable])
    (fun _ table htable => by simp only [addType, htable])
    ((TypeTable.runs_addArg h.table type).mono ?_ ?_)
  · rintro - table ⟨hlinked, hlater, hargs, hcode, hcomplete⟩
    exact ⟨⟨.refl _, rfl, h.shared, hlinked, hlater, List.prefix_rfl⟩,
      ⟨rfl, rfl, rfl, hargs, hlater, hcode, hcomplete, ⟨[], by simp, rfl⟩⟩⟩
  · rintro - table ⟨hlinked, hlater⟩
    exact ⟨.refl _, rfl, h.shared, hlinked, hlater, List.prefix_rfl⟩

theorem runs_write {content : Store → Action Output Unit} {P : List UInt8 → Prop}
    (hs : Stray s s') (ha : Adds s type (· = []) s') (hP : Output.Writes (content s'.store) P) :
    Runs (write content) s' (fun _ s2 => Adds s type P s2) fun _ s2 => Stray s s2 := by
  refine runs_lift (fun values => { s' with draft := { s'.draft with values } })
    (fun _ values hvalues => by simp only [write, hvalues])
    (fun _ values hvalues => by simp only [write, hvalues])
    ((hP s'.draft.values).mono ?_ ?_)
  · rintro - values ⟨more, hmore, hPmore⟩
    obtain ⟨none, hnone, rfl⟩ := ha.values
    rw [List.append_nil] at hnone
    exact ⟨ha.store, ha.env, ha.shared, ha.args, ha.later, ha.refers, ha.complete,
      ⟨more, hmore.trans (by rw [hnone]), hPmore⟩⟩
  · intro _ values hpre
    exact ⟨hs.store, hs.env, hs.shared, hs.linked, hs.later, hs.values.trans hpre⟩

/-- A type, and then the bytes of a value. -/
theorem runs_argument {content : Store → Action Output Unit} {P : List UInt8 → Prop}
    (h : Tracks s passed) (type : TypeId) (hP : Output.Writes (content s.store) P) :
    Runs (do addType type; write content) s (fun _ s' => Adds s type P s') fun _ s' => Stray s s' := by
  refine runs_bind ((runs_addType h type).post_mono ?_)
  rintro - s1 ⟨hs1, ha⟩
  exact runs_write hs1 ha (ha.store ▸ hP)

/-- The argument that was added is one more that the message holds. -/
theorem Tracks.add {P : List UInt8 → Prop} (h : Tracks s passed) (ha : Adds s type P s')
    (hP : ∀ more, P more → more = d.encode) (htypes : s'.scope.Types Subtype.defaultDepth d type)
    (hcanon : s'.scope.Throughout TypeNode.Canonical type) : Tracks s' (passed ++ [(type, d)]) := by
  have hscope : s'.scope = s.scope := by
    simp only [State.scope, ha.store, ha.env]
  refine ⟨ha.complete hcanon, ?_, ?_, ?_, fun p hp => ?_⟩
  · rw [ha.shared, ha.store]
    exact h.shared
  · rw [ha.args, Array.toList_push, h.args, List.map_append]
    rfl
  · obtain ⟨more, hmore, hPmore⟩ := ha.values
    rw [hmore, hP more hPmore, h.values, List.map_append, List.flatten_append]
    simp
  · rcases List.mem_append.mp hp with hp | hp
    · obtain ⟨⟨code, hcode⟩, hold, hall⟩ := h.carries p hp
      rw [← hscope] at hcode hold hall
      exact ⟨⟨code, hcode.later ha.later.registered⟩, hold, hall⟩
    · obtain rfl := List.mem_singleton.mp hp
      exact ⟨ha.refers, htypes, hcanon⟩

/-! ### Each call -/

theorem runs_put {α : Type} {action : Action Store α} {post : α → State → Prop}
    {lost : Fault → State → Prop}
    (hrun : Runs action s.store (fun a store => post a { s with store })
      fun e store => lost e { s with store }) : Runs (put action) s post lost :=
  runs_lift (fun store => { s with store })
    (fun a store h => by simp only [put, h]) (fun e store h => by simp only [put, h]) hrun

theorem Tracks.stored (h : Tracks s passed) {store : Store} (hs : s.store.Extends store) :
    Tracks { s with store } passed :=
  h.extends (Scope.extends_store s.draft.env hs)

/-- Putting a type node into the store leaves the message as it is. -/
theorem runs_putType (h : Tracks s passed) (n : TypeNode) :
    Runs (put (Store.putType n)) s
      (fun t s' => Tracks s' passed ∧ Stray s s' ∧ s'.store.typeAt t = .ok n ∧
        s'.draft.shared = s.draft.shared) fun _ s' => Tracks s' passed ∧ Stray s s' := by
  have hstray : ∀ store, s.store.Extends store → Stray s { s with store } :=
    fun store hs => ⟨hs, rfl, (h.stored hs).shared, (h.stored hs).table.toLinked, .refl _,
      List.prefix_rfl⟩
  refine runs_put ((Store.runs_putType s.store n).mono ?_ ?_)
  · rintro t store ⟨hs, ht, -⟩
    exact ⟨h.stored hs, hstray store hs, ht, rfl⟩
  · rintro e store ⟨rfl, -⟩
    exact ⟨h, h.stray⟩

/-- The node of a type without parts is one, and stays one. -/
theorem runs_primitiveNode (h : Tracks s passed) (p : Primitive) :
    Runs (primitiveNode p) s
      (fun t s' => Tracks s' passed ∧ Stray s s' ∧ s'.store.typeAt t = .ok (.primitive p))
      fun _ s' => Stray s s' := by
  refine runs_bind (runs_of_ok rfl ?_)
  split
  · next t ht => exact runs_pure ⟨h, h.stray, h.shared p t ht⟩
  · refine runs_bind ((runs_putType h (.primitive p)).mono ?_ fun _ _ hs => hs.2)
    rintro t s' ⟨h', hs', ht, hshared⟩
    have hlookup : ∀ q u, ((p, t) :: s'.draft.shared).lookup q = some u →
        s'.store.typeAt u = .ok (.primitive q) := forall_lookup_cons ht h'.shared
    refine runs_bind (runs_of_ok rfl (runs_pure ⟨?_, ?_, ht⟩))
    · refine ⟨h'.table, hlookup, h'.args, h'.values, fun q hq => ?_⟩
      obtain ⟨hcode, htypes, hcanon⟩ := h'.carries q hq
      exact ⟨hcode, htypes, hcanon⟩
    · exact ⟨hs'.store, hs'.env, hlookup, hs'.linked, hs'.later, hs'.values⟩

/-- What a call leaves: one more argument, if it passed a value of a type. -/
def Ends (passed : List (TypeId × Datum)) (call : Call) (s : State) : Prop :=
  ∀ t d, s.draft.table.args.back? = some t → call.Passes s.scope t d → Tracks s (passed ++ [(t, d)])

theorem runs_add (h : Tracks s passed) (type : TypeId) (value : ValueId) :
    Runs (add type value) s (fun _ => Ends passed (.typed type value)) fun _ s' => Tracks s' passed := by
  refine runs_wholly h ((runs_argument h type (Output.writes_valueWithin s.store _ value)).post_mono ?_)
  rintro - s' ha t d - ⟨rfl, ⟨depth, hholds⟩, htypes, hcanon⟩
  refine h.add ha (fun more hmore => ?_) htypes hcanon
  exact hmore depth d (ha.store ▸ hholds)

/-- A value without parts, with the type that it has by itself. -/
theorem runs_addPrimitive (h : Tracks s passed) {p : Primitive} {content : Action Output Unit}
    {P : List UInt8 → Prop} {call : Call} (hwrites : Output.Writes content P)
    (hpasses : ∀ more, P more → ∀ w t d, call.Passes w t d →
      more = d.encode ∧ w.Admits (w.Types 511) (.primitive p) d) :
    Runs (addPrimitive p content) s (fun _ => Ends passed call) fun _ s' => Tracks s' passed := by
  refine runs_wholly h (runs_bind ((runs_primitiveNode h p).post_mono ?_))
  rintro type s1 ⟨h1, hs1, htype⟩
  refine (runs_argument h1 type hwrites).mono ?_ fun _ _ hs2 => hs1.trans hs2
  rintro - s' ha t d ht hcall
  obtain ⟨more, -, hmore⟩ := ha.values
  have hadm := (hpasses more hmore _ t d hcall).2
  obtain rfl : type = t := by simpa [ha.args] using ht
  have hnode : s'.scope.StandsFor type type (.primitive p) := by
    refine .of_node ?_ (by simp)
    rw [State.scope, ha.store]
    exact htype
  have hcanon : s'.scope.Throughout TypeNode.Canonical type :=
    .of_parts hnode trivial (by simp [TypeTable.parts])
  exact h1.add ha (fun more hmore => (hpasses more hmore _ _ d hcall).1) ⟨type, _, hnode, hadm⟩ hcanon

theorem runs_addBlob (h : Tracks s passed) (bytes : List UInt8) :
    Runs (addBlob bytes) s (fun _ => Ends passed (.blob bytes)) fun _ s' => Tracks s' passed := by
  refine runs_bind ((runs_putType h _).mono ?_ fun _ _ hs => hs.1)
  rintro element s1 ⟨h1, -, helement, -⟩
  refine runs_bind ((runs_putType h1 _).mono ?_ fun _ _ hs => hs.1)
  rintro type s2 ⟨h2, hs2, htype, -⟩
  refine runs_wholly h2 ((runs_argument h2 type (Output.writes_blob bytes)).post_mono ?_)
  rintro - s' ha t d ht ⟨rfl, hpay⟩
  obtain rfl : type = t := by simpa [ha.args] using ht
  have hscope : s'.scope = s2.scope := by
    simp only [State.scope, ha.store, ha.env]
  have hbyte : s'.scope.StandsFor element element (.primitive (.fixed .nat8)) := by
    rw [hscope]
    exact .of_node (hs2.store.typeAt _ _ helement) (by simp)
  have hvec : s'.scope.StandsFor type type (.vec element) := by
    rw [hscope]
    exact .of_node htype (by simp)
  have hcanon : s'.scope.Throughout TypeNode.Canonical type := by
    refine .of_parts hvec trivial fun c hc => ?_
    obtain rfl : c = element := by simpa [TypeTable.parts] using hc
    exact .of_parts hbyte trivial (by simp [TypeTable.parts])
  exact h2.add ha (fun _ hmore => hmore) ⟨type, _, hvec, .blob hbyte hpay⟩ hcanon

/-- Whatever the call, it adds the argument that it passes, or leaves no trace. -/
theorem runs_perform (h : Tracks s passed) (call : Call) :
    Runs call.perform s (fun _ => Ends passed call) fun _ s' => Tracks s' passed := by
  cases call with
  | typed type value => exact runs_add h type value
  | blob bytes => exact runs_addBlob h bytes
  | null =>
    refine runs_addPrimitive h (Output.writes_pure rfl) ?_
    rintro _ rfl w t d rfl
    exact ⟨rfl, .null⟩
  | bool b =>
    refine runs_addPrimitive h (Output.writes_byte _) ?_
    rintro _ rfl w t d rfl
    exact ⟨rfl, .bool b⟩
  | fixed n =>
    refine runs_addPrimitive h (Output.writes_bytes _) ?_
    rintro _ rfl w t d rfl
    exact ⟨rfl, .fixed n⟩
  | nat v =>
    refine runs_addPrimitive h (Output.writes_bytes _) ?_
    rintro _ rfl w t d rfl
    have hlength := Leb128.length_encodeUnsigned 9 (v := v.toNat) (Nat.lt_trans v.toNat_lt (by decide))
    exact ⟨rfl, .nat (Leb128.encodeUnsigned_isNumber _) (Nat.lt_of_le_of_lt hlength (by decide))⟩
  | int v =>
    refine runs_addPrimitive h (Output.writes_bytes _) ?_
    rintro _ rfl w t d rfl
    obtain ⟨hnum, hlength⟩ := Leb128.encodeSigned_isNumber 9 (v := v.toInt)
      (by have := v.le_toInt; omega) (by have := v.toInt_lt; omega)
    exact ⟨rfl, .int hnum (Nat.lt_of_le_of_lt hlength (by decide))⟩
  | text s =>
    refine runs_addPrimitive h (Output.writes_blob _) ?_
    rintro _ rfl w t d ⟨rfl, hpay⟩
    exact ⟨rfl, .text hpay⟩
  | principal bytes =>
    refine runs_addPrimitive h (Output.writes_principal _) ?_
    rintro _ ⟨rfl, hle⟩ w t d rfl
    exact ⟨rfl, .principal hle⟩

/-- After any calls the message holds the arguments that were passed. -/
theorem Run.tracks (h : Run s passed) : Tracks s passed := by
  induction h with
  | start store => exact tracks_start store
  | stored _ hs ih => exact ih.stored hs
  | bound _ henv ih => exact ih.extends (Scope.extends_insert _ henv)
  | failed _ hcall ih => exact (runs_perform ih _).error hcall
  | added _ hcall ht hpasses ih => exact (runs_perform ih _).ok hcall _ _ ht hpasses

end TypedWire.Draft
