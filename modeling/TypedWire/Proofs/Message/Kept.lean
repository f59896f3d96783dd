import TypedWire.Proofs.Message.Draft
import TypedWire.Proofs.Message.Noted

/-! What holds of a message after any calls, whatever they passed: its table only remembers what a
    search finds, all that is met inside its types is known, and each of its arguments can be written.
    A call that fails keeps the message as it was, but for what is remembered of slots and of nodes of
    types without parts, and the store as it was, but for such nodes. -/

namespace TypedWire.Draft

open TypedWire.Action

variable {s s' s'' : State} {c d type : TypeId} {e : Fault} {content : Store → Action Output Unit}
variable {P : List UInt8 → Prop} {p : Primitive}

/-- What is known of a message at any time. -/
structure Kept (s : State) : Prop where
  faithful : s.draft.table.Faithful s.scope
  joins : ∀ a ∈ s.draft.table.registered.toList, s.draft.table.Joins s.scope a
  args : ∀ c ∈ s.draft.table.args.toList, s.draft.table.Numbered s.scope c
  shared : ∀ p t, s.draft.shared.lookup p = some t → s.store.typeAt t = .ok (.primitive p)

/-- Types are put into the store; of the message nothing changes but what is remembered. -/
structure Retains (s s' : State) : Prop where
  store : s.store.Extends s'.store
  nodes : s.store.types.size ≤ s'.store.types.size
  shared : s'.store.types.size = s.store.types.size → s'.draft.shared = s.draft.shared
  stored : s'.store.values = s.store.values
  blocks : s'.store.blocks = s.store.blocks
  env : s'.draft.env = s.draft.env
  entries : s'.draft.table.entries = s.draft.table.entries
  registered : s'.draft.table.registered = s.draft.table.registered
  args : s'.draft.table.args = s.draft.table.args
  values : s'.draft.values = s.draft.values

theorem kept_start (store : Store) : Kept ⟨{}, store⟩ :=
  ⟨TypeTable.faithful_empty _, by simp, by simp, by simp⟩

theorem Retains.refl (s : State) : Retains s s :=
  ⟨.refl _, Nat.le_refl _, fun _ => rfl, rfl, rfl, rfl, rfl, rfl, rfl, rfl⟩

theorem Retains.trans (h : Retains s s') (h' : Retains s' s'') : Retains s s'' where
  store := h.store.trans h'.store
  nodes := Nat.le_trans h.nodes h'.nodes
  shared hsize := by
    have hle := h.nodes
    have hle' := h'.nodes
    rw [h'.shared (by omega), h.shared (by omega)]
  stored := h'.stored.trans h.stored
  blocks := h'.blocks.trans h.blocks
  env := h'.env.trans h.env
  entries := h'.entries.trans h.entries
  registered := h'.registered.trans h.registered
  args := h'.args.trans h.args
  values := h'.values.trans h.values

/-- More in the store, and more names bound. -/
theorem Kept.extends {draft : Draft} {store store' : Store} {env : Env} (h : Kept ⟨draft, store⟩)
    (hw : Scope.Extends ⟨store, draft.env⟩ ⟨store', env⟩) : Kept ⟨{ draft with env }, store'⟩ where
  faithful := h.faithful.extends hw
  joins a ha n hn c hc := by
    obtain ⟨m, hm, -⟩ := h.faithful.root a ha
    obtain rfl := hn.node_eq (hm.extends hw)
    obtain ⟨code, hcode⟩ := h.joins a ha n hm c hc
    exact ⟨code, hcode.extends hw⟩
  args c hc := (h.args c hc).extends hw
  shared p t ht := hw.typeAt _ _ (h.shared p t ht)

theorem Kept.stored (h : Kept s) {store : Store} (hs : s.store.Extends store) :
    Kept { s with store } :=
  h.extends (Scope.extends_store s.draft.env hs)

/-! ### Adding an argument and taking it back -/

/-- Adds an argument of a type that is in the store. -/
def append (type : TypeId) (content : Store → Action Output Unit) : Action State Unit :=
  wholly do
    addType type
    write content

/-- What adding an argument comes to. -/
theorem append_eq (type : TypeId) (content : Store → Action Output Unit) (s : State) :
    append type content s =
      match TypeTable.addArg s.store s.draft.env type s.draft.table with
      | .error e table => .error e { s with draft := { s.draft with
          table := table.restore s.draft.table.mark
          values := s.draft.values.take s.draft.values.size } }
      | .ok _ table =>
        match content s.store s.draft.values with
        | .error e values => .error e { s with draft := { s.draft with
            table := table.restore s.draft.table.mark
            values := values.take s.draft.values.size } }
        | .ok _ values => .ok () { s with draft := { s.draft with table, values } } := by
  cases hadd : TypeTable.addArg s.store s.draft.env type s.draft.table with
  | error e table =>
    have hrun : addType type s = .error e { s with draft := { s.draft with table } } := by
      simp only [addType, hadd]
    simp only [append, wholly, Action.bind_eq_error.mpr (.inl hrun)]
  | ok u table =>
    have hrun : addType type s = .ok () { s with draft := { s.draft with table } } := by
      simp only [addType, hadd]
    simp only [append, wholly, Action.bind_run hrun, write]
    cases content s.store s.draft.values <;> rfl

/-- What was registered for an argument that failed is taken back; what was there is still known. -/
theorem Kept.restore (h : Kept s) {table : TypeTable} {values : Output}
    (hf : TypeTable.Further s.scope s.draft.table table) (hlater : s.draft.table.Later table)
    (hvalues : s.draft.values.toList <+: values.toList) :
    let s' := { s with draft := { s.draft with
      table := table.restore s.draft.table.mark
      values := values.take s.draft.values.size } }
    Kept s' ∧ Retains s s' := by
  have hfaithful := h.faithful.restore hlater hf.faithful
  have hrestore := hlater.restore h.faithful.size
  refine ⟨⟨hfaithful, fun a ha => ?_, fun c hc => ?_, h.shared⟩,
    ⟨.refl _, Nat.le_refl _, fun _ => rfl, rfl, rfl, rfl, ?_, ?_, ?_,
      TypeTable.take_of_front hvalues⟩⟩
  · rw [hrestore] at ha ⊢
    exact (h.joins a ha).later List.prefix_rfl
  · rw [hrestore] at hc ⊢
    refine (h.args c hc).imp id fun hnoted => ?_
    obtain ⟨slot, hslot⟩ := hnoted
    refine ⟨slot, ?_⟩
    obtain ⟨a, ha, -⟩ := h.faithful.linked.slot c slot hslot
    have hlt : slot < s.draft.table.entries.size :=
      h.faithful.size ▸ (Array.getElem?_eq_some_iff.mp ha).1
    exact List.mem_filter.mpr ⟨hf.slots.subset hslot, decide_eq_true hlt⟩
  all_goals simp only [hrestore]

/-- An argument is added to what is known, or nothing is. -/
theorem kept_append (h : Kept s) (type : TypeId) (hw : Output.Writes (content s.store) P) :
    Runs (append type content) s
      (fun _ s' => Kept s' ∧ s'.store = s.store ∧ s'.draft.env = s.draft.env ∧
        s'.draft.table.args = s.draft.table.args.push type)
      fun _ s' => (Kept s' ∧ Retains s s') ∧ s'.store = s.store := by
  unfold Runs
  rw [append_eq]
  rcases (TypeTable.further_addArg h.faithful type).ends with
    ⟨_, table, hrun, hf, hlater, hargs, hc, hj⟩ | ⟨e, table, hrun, hf, hlater⟩
  · simp only [State.scope] at hrun
    simp only [hrun]
    rcases (hw s.draft.values).ends with ⟨_, values, hwrite, -⟩ | ⟨e, values, hwrite, hpre⟩
    · simp only [hwrite]
      refine ⟨⟨hf.faithful, fun a ha => ?_, fun c hc' => ?_, h.shared⟩, trivial, trivial, hargs⟩
      · exact (hj a ha).elim (fun ha => (h.joins a ha).later hf.registered) id
      · simp only [hargs, Array.toList_push, List.mem_append, List.mem_singleton] at hc'
        rcases hc' with hc' | rfl
        · exact (h.args c hc').later hf.slots
        · exact hc
    · simp only [hwrite]
      exact ⟨h.restore hf hlater hpre, trivial⟩
  · simp only [State.scope] at hrun
    simp only [hrun]
    exact ⟨h.restore hf hlater List.prefix_rfl, trivial⟩

/-! ### Nodes that are made for an argument -/

/-- Where there is a node at a handle that named nothing, there are more nodes. -/
theorem size_lt_of_new {store store' : Store} {n : TypeNode} (hn : store'.typeAt c = .ok n)
    (hnew : store.typeAt c = .error .invalid) : store.types.size < store'.types.size := by
  have hlt := (Array.getElem?_eq_some_iff.mp (Store.typeAt_eq_ok.mp hn)).1
  by_contra hle
  have hold : store.typeAt c = .ok store.types[c.index] :=
    Store.typeAt_eq_ok.mpr (Array.getElem?_eq_getElem (by omega))
  exact absurd (hold.symm.trans hnew) (by simp)

/-- A new node is put where nothing was; there is no other way to fail than that the store is full. -/
theorem kept_putType (h : Kept s) (n : TypeNode) :
    Runs (put (Store.putType n)) s
      (fun t s' => (Kept s' ∧ Retains s s') ∧ s'.draft = s.draft ∧ s'.store.typeAt t = .ok n ∧
        s.store.typeAt t = .error .invalid)
      fun e s' => e = .storeFull ∧ s' = s ∧ s.store.limit ≠ none := by
  have hkeeps : Runs (Store.putType n) s.store
      (fun _ store => store.values = s.store.values ∧ store.blocks = s.store.blocks)
      fun _ _ => True := by
    refine runs_bind ((Store.runs_charge s.store _).mono ?_ fun _ _ _ => trivial)
    rintro - store rfl
    exact runs_of_ok rfl ⟨rfl, rfl⟩
  refine runs_put (((Store.runs_putType s.store n).and hkeeps).mono ?_ ?_)
  · rintro t store ⟨⟨hs, ht, hindex, htypes, -⟩, hvalues, hblocks⟩
    refine ⟨⟨h.stored hs, hs, ?_, fun _ => rfl, hvalues, hblocks, rfl, rfl, rfl, rfl, rfl⟩, rfl, ht, ?_⟩
    · simp [htypes]
    · simp [Store.typeAt, hindex]
  · rintro e store ⟨⟨rfl, he, hlimit⟩, -⟩
    exact ⟨he, rfl, hlimit⟩

theorem kept_primitiveNode (h : Kept s) (p : Primitive) :
    Runs (primitiveNode p) s
      (fun t s' => (Kept s' ∧ Retains s s') ∧ s'.draft.table = s.draft.table ∧
        s'.store.typeAt t = .ok (.primitive p))
      fun e s' => e = .storeFull ∧ s' = s ∧ s.store.limit ≠ none := by
  refine runs_bind (runs_of_ok rfl ?_)
  split
  · next t ht => exact runs_pure ⟨⟨h, .refl s⟩, rfl, h.shared p t ht⟩
  · refine runs_bind ((kept_putType h (.primitive p)).mono ?_ fun _ _ hlost => hlost)
    rintro t s1 ⟨⟨h1, hr⟩, hdraft, ht, hnew⟩
    have hshared := forall_lookup_cons ht h1.shared
    have hlt := size_lt_of_new ht hnew
    refine runs_bind (runs_of_ok rfl (runs_pure ⟨⟨⟨h1.faithful, h1.joins, h1.args, hshared⟩, ?_⟩, ?_, ht⟩))
    · exact ⟨hr.store, hr.nodes, fun hsize => absurd hsize (Nat.ne_of_gt hlt), hr.stored, hr.blocks,
        hr.env, hr.entries, hr.registered, hr.args, hr.values⟩
    · simp only [hdraft]

/-- Once the node of the type is there, the argument is added to it. -/
theorem addPrimitive_eq (content : Action Output Unit) (hnode : primitiveNode p s = .ok c s')
    (hr : Retains s s') (htable : s'.draft.table = s.draft.table) :
    addPrimitive p content s = append c (fun _ => content) s' := by
  have hrest : (do addType (← primitiveNode p); write fun _ => content : Action State Unit) s =
      (do addType c; write fun _ => content : Action State Unit) s' := bind_run hnode
  simp only [addPrimitive, append, wholly, hrest, htable, hr.values]

theorem addPrimitive_full (h : Kept s) (content : Action Output Unit)
    (hnode : primitiveNode p s = .error e s) :
    ∃ s', addPrimitive p content s = .error e s' ∧ (Kept s' ∧ Retains s s') ∧ s'.store = s.store ∧
      s'.draft.shared = s.draft.shared := by
  have hrest : (do addType (← primitiveNode p); write fun _ => content : Action State Unit) s =
      .error e s := bind_eq_error.mpr (.inl hnode)
  refine ⟨_, ?_, h.restore h.faithful.further (.refl _) List.prefix_rfl, rfl, rfl⟩
  simp only [addPrimitive, wholly, hrest]

/-! ### Calls -/

/-- The three ways to pass an argument: a type and a value that are in the store, a byte string, or
    some other value by itself. -/
inductive Call.Shape : Call → Prop where
  | typed (type : TypeId) (value : ValueId) : Shape (.typed type value)
  | blob (bytes : List UInt8) : Shape (.blob bytes)
  | primitive {call : Call} {p : Primitive} {content : Action Output Unit} {P : List UInt8 → Prop} :
      call.perform = addPrimitive p content → Output.Writes content P → Shape call

theorem Call.shape (call : Call) : call.Shape := by
  cases call with
  | typed type value => exact .typed type value
  | blob bytes => exact .blob bytes
  | null => exact .primitive rfl (Output.writes_pure (P := (· = [])) rfl)
  | bool b => exact .primitive rfl (Output.writes_byte _)
  | fixed n => exact .primitive rfl (Output.writes_bytes _)
  | nat v => exact .primitive rfl (Output.writes_bytes _)
  | int v => exact .primitive rfl (Output.writes_bytes _)
  | text s => exact .primitive rfl (Output.writes_blob _)
  | principal bytes => exact .primitive rfl (Output.writes_principal bytes)

theorem kept_addPrimitive (h : Kept s) {content : Action Output Unit}
    (hw : Output.Writes content P) : Runs (addPrimitive p content) s
      (fun _ s' => Kept s' ∧ s.store.Extends s'.store ∧ s'.draft.env = s.draft.env)
      fun _ s' => Kept s' ∧ Retains s s' := by
  rcases (kept_primitiveNode h p).ends with ⟨c, s1, hnode, ⟨h1, hr⟩, htable, -⟩ | ⟨e, s1, hnode, -, rfl, -⟩
  · unfold Runs
    rw [addPrimitive_eq content hnode hr htable]
    refine (kept_append h1 c hw).mono ?_ ?_
    · rintro - s2 ⟨h2, hstore, henv, -⟩
      exact ⟨h2, hstore ▸ hr.store, henv.trans hr.env⟩
    · rintro e s2 ⟨⟨h2, hr2⟩, -⟩
      exact ⟨h2, hr.trans hr2⟩
  · obtain ⟨s2, hrun, h2, -⟩ := addPrimitive_full h content hnode
    exact runs_of_error hrun h2

theorem kept_addBlob (h : Kept s) (bytes : List UInt8) : Runs (addBlob bytes) s
    (fun _ s' => Kept s' ∧ s.store.Extends s'.store ∧ s'.draft.env = s.draft.env)
    fun _ s' => Kept s' ∧ Retains s s' := by
  refine runs_bind ((kept_putType h _).mono ?_ ?_)
  · rintro element s1 ⟨⟨h1, hr1⟩, -⟩
    refine runs_bind ((kept_putType h1 _).mono ?_ ?_)
    · rintro type s2 ⟨⟨h2, hr2⟩, -⟩
      have hr := hr1.trans hr2
      refine (kept_append h2 type (Output.writes_blob bytes)).mono ?_ ?_
      · rintro - s3 ⟨h3, hstore, henv, -⟩
        exact ⟨h3, hstore ▸ hr.store, henv.trans hr.env⟩
      · rintro e s3 ⟨⟨h3, hr3⟩, -⟩
        exact ⟨h3, hr.trans hr3⟩
    · rintro e s2 ⟨-, rfl, -⟩
      exact ⟨h1, hr1⟩
  · rintro e s1 ⟨-, rfl, -⟩
    exact ⟨h, .refl _⟩

/-- A call that fails leaves no trace in the message but what is remembered. -/
theorem kept_perform (h : Kept s) (call : Call) : Runs call.perform s
    (fun _ s' => Kept s' ∧ s.store.Extends s'.store ∧ s'.draft.env = s.draft.env)
    fun _ s' => Kept s' ∧ Retains s s' := by
  cases call.shape with
  | typed type value =>
    refine (kept_append h type (Output.writes_valueWithin s.store _ value)).mono ?_ ?_
    · rintro - s1 ⟨h1, hstore, henv, -⟩
      exact ⟨h1, hstore ▸ .refl _, henv⟩
    · rintro e s1 ⟨hlost, -⟩
      exact hlost
  | blob bytes => exact kept_addBlob h bytes
  | primitive hcall hw =>
    rw [hcall]
    exact kept_addPrimitive h hw

end TypedWire.Draft
