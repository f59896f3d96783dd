import TypedWire.Proofs.Session.Nesting
import TypedWire.Proofs.Value.Replica

/-! What reading costs, to the unit. Every byte of a value is charged once, wherever it lies, and every
    `vec` but a byte string is charged for its items besides; the check of the types and the reshaping
    that follows are free. So the cost of a session is told by its header, by where it stands, and by
    the lists in what it has read. -/

namespace TypedWire

open TypedWire.Action

/-! ### The lists of a tree -/

mutual

/-- How many items the lists of a tree have together, at every depth. A byte string is no list. -/
def Datum.listItems : Datum → Nat
  | .opt (some d) | .variant _ _ d => d.listItems
  | .vec items => items.length + Datum.listItemsOfAll items
  | .record fields => Datum.listItemsOfFields fields
  | _ => 0

def Datum.listItemsOfAll : List Datum → Nat
  | [] => 0
  | d :: ds => d.listItems + Datum.listItemsOfAll ds

def Datum.listItemsOfFields : List (UInt32 × Datum) → Nat
  | [] => 0
  | (_, d) :: fields => d.listItems + Datum.listItemsOfFields fields

end

namespace Datum

theorem listItemsOfAll_eq : ∀ ds : List Datum, listItemsOfAll ds = (ds.map listItems).sum
  | [] => rfl
  | d :: ds => by rw [listItemsOfAll, listItemsOfAll_eq ds, List.map_cons, List.sum_cons]

theorem listItemsOfFields_eq : ∀ ds : List (UInt32 × Datum),
    listItemsOfFields ds = (ds.map fun d => d.2.listItems).sum
  | [] => rfl
  | (_, d) :: ds => by rw [listItemsOfFields, listItemsOfFields_eq ds, List.map_cons, List.sum_cons]

@[simp] theorem listItems_some (d : Datum) : (opt (some d)).listItems = d.listItems := by
  rw [listItems]

@[simp] theorem listItems_variant (index : Nat) (id : UInt32) (d : Datum) :
    (variant index id d).listItems = d.listItems := by
  rw [listItems]

@[simp] theorem listItems_vec (ds : List Datum) :
    (vec ds).listItems = ds.length + (ds.map listItems).sum := by
  rw [listItems, listItemsOfAll_eq]

@[simp] theorem listItems_record (ds : List (UInt32 × Datum)) :
    (record ds).listItems = (ds.map fun d => d.2.listItems).sum := by
  rw [listItems, listItemsOfFields_eq]

end Datum

namespace Store

variable {s : Store} {sub : ValueId → Datum → Prop} {x : Value} {d : Datum} {n : TypeNode} {depth : Nat}

/-- A node without parts has no lists. -/
theorem Shows.listItems_eq_zero (h : s.Shows sub x d) (hparts : x.parts = []) : d.listItems = 0 := by
  cases h with
  | some hv => exact absurd hparts (by simp [Value.parts])
  | variant hid hv => exact absurd hparts (by simp [Value.parts])
  | vec hvs =>
    obtain rfl : _ = [] := hparts
    cases hvs
    rfl
  | record hfs =>
    obtain rfl := List.map_eq_nil_iff.mp hparts
    cases hfs
    rfl
  | _ => rfl

/-- What fills a node, whatever its parts have to be, has none. -/
theorem Fills.shows_leaf (h : ∀ w form sub, s.Fills w form sub x n) :
    ∃ d, s.Shows (s.Holds depth) x d ∧ d.listItems = 0 := by
  have hfills : s.Fills ⟨s, {}⟩ .decoded (fun _ _ => False) x n := h _ _ _
  obtain ⟨d, hd⟩ := hfills.shows fun _ _ => False.elim
  refine ⟨d, hd, hd.listItems_eq_zero (List.eq_nil_iff_forall_not_mem.mpr fun u hu => ?_)⟩
  obtain ⟨_, hfalse⟩ := hfills.parts hu
  exact hfalse

end Store

/-! ### Decoding -/

theorem Reader.bytes_eq_ok {r r' : Reader} {n : Nat} {front : List UInt8}
    (h : Reader.bytes n r = .ok front r') : r'.offset = r.offset + n := by
  unfold Reader.bytes next at h
  split at h
  · exact absurd h (by simp)
  split at h
  · next hread =>
    dsimp only at hread
    split at hread
    · obtain ⟨-, rfl⟩ := Prod.mk.inj (Except.ok.inj hread)
      obtain ⟨-, rfl⟩ := EStateM.Result.ok.inj h
      rfl
    · exact absurd hread (by simp)
  · exact absurd h (by simp)

namespace Decode

variable {cx : Context} {s0 s s' : State} {α : Type} {depth n m paid due least : Nat} {t element : TypeId}
variable {x : Value} {d : Datum} {post : α → Prop} {postS : α → Store → Prop}

/-- Where the run from `s` ends well, it ends in `post`. -/
abbrev Ends (x : Action State α) (s : State) (post : α → State → Prop) : Prop :=
  Runs x s post fun _ _ => True

/-- From `s0` to `s` so many bytes have been read and so many units charged, and the store has grown. -/
structure Metered (read paid : Nat) (s0 s : State) : Prop where
  store : s0.store.Extends s.store
  offset : s.reader.offset = s0.reader.offset + read
  cost : s0.cost ≤ Cost.most → s.cost = Cost.add s0.cost paid

theorem Metered.refl (s : State) : Metered 0 0 s s := ⟨.refl _, rfl, fun h => by unfold Cost.add; omega⟩

theorem Metered.trans (h : Metered n paid s0 s) (h' : Metered m due s s') :
    Metered (n + m) (paid + due) s0 s' where
  store := h.store.trans h'.store
  offset := by rw [h'.offset, h.offset, Nat.add_assoc]
  cost hmost := by
    have hcost := h.cost hmost
    rw [h'.cost (hcost ▸ Nat.min_le_right _ _), hcost, Cost.add_add]

/-- The value holds a tree, for which its bytes and the items of its lists have been paid. -/
def Priced (depth : Nat) (s0 : State) (v : ValueId) (s : State) : Prop :=
  ∃ d n, s.store.Holds depth v d ∧ Metered n (n + d.listItems) s0 s

/-! ### Steps -/

theorem metered_read {x : Action Reader α} (hx : Reader.Gives x least post) (h : Metered n paid s0 s) :
    Ends (read x) s fun _ s' => ∃ n, Metered n paid s0 s' := by
  refine runs_read (hx.runs.mono (fun a reader ⟨hle, _⟩ => ⟨n + (reader.offset - s.reader.offset), ?_⟩)
    fun _ _ _ => trivial)
  refine ⟨h.store, ?_, h.cost⟩
  have hoffset := h.offset
  dsimp only
  omega

theorem metered_bytes (count : Nat) (h : Metered n paid s0 s) :
    Ends (read (Reader.bytes count)) s fun _ s' => Metered (n + count) paid s0 s' := by
  refine runs_read ?_
  cases hx : Reader.bytes count s.reader with
  | ok front reader =>
    refine runs_of_ok hx ⟨h.store, ?_, h.cost⟩
    dsimp only
    rw [Reader.bytes_eq_ok hx, h.offset, Nat.add_assoc]
  | error e reader => exact runs_of_error hx trivial

theorem metered_spend (k : Nat) (h : Metered n paid s0 s) :
    Ends (spend cx k) s fun _ s' => Metered n (paid + k) s0 s' ∧ s'.store = s.store := by
  refine runs_spend (fun log _ => ⟨⟨h.store, h.offset, fun hmost => ?_⟩, rfl⟩) fun _ _ => trivial
  dsimp only
  rw [h.cost hmost, Cost.add_add]

/-- All that has been read is charged. -/
theorem metered_spendSince (h : Metered n paid s0 s) :
    Ends (spendSince cx s0.reader.offset) s fun _ s' =>
      Metered n (paid + n) s0 s' ∧ s'.store = s.store := by
  have hread : s.reader.offset - s0.reader.offset = n := by
    have hoffset := h.offset
    omega
  have hspend : Ends (spend cx n) s fun _ s' => Metered n (paid + n) s0 s' ∧ s'.store = s.store :=
    metered_spend n h
  rw [← hread] at hspend ⊢
  exact runs_bind (runs_of_ok rfl hspend)

theorem metered_put {x : Action Store α} (hx : Leads Store.Grows x s.store postS)
    (h : Metered n paid s0 s) :
    Ends (put x) s fun a s' => Metered n paid s0 s' ∧ postS a s'.store :=
  runs_put (Runs.mono hx (fun _ _ ⟨hs, ha⟩ => ⟨⟨h.store.trans hs.toExtends, h.offset, h.cost⟩, ha⟩)
    fun _ _ _ => trivial)

theorem metered_resolve (h : Metered n paid s0 s) :
    Ends (resolve cx t) s fun _ s' => Metered n paid s0 s' :=
  Runs.mono idle_resolve (fun _ _ ⟨_, hs⟩ => hs ▸ h) fun _ _ _ => trivial

/-- A value node that is put in holds what it shows. -/
theorem priced_putValue (h : Metered n paid s0 s) (hx : s.store.Shows (s.store.Holds depth) x d)
    (hpaid : paid = n + d.listItems) :
    Ends (put (Store.putValue x)) s fun v s' => Priced (depth + 1) s0 v s' := by
  subst hpaid
  refine runs_put ((Store.runs_putValue s.store x).mono (fun v store ⟨hs, hv, _⟩ => ?_)
    fun _ _ _ => trivial)
  refine ⟨d, n, ⟨x, hv, hx.mono hs.toExtends fun _ _ => Store.Holds.extends hs.toExtends⟩, ?_⟩
  exact ⟨h.store.trans hs.toExtends, h.offset, h.cost⟩

/-- A node without parts is paid by its bytes. -/
theorem priced_finish (h : Metered n 0 s0 s) (hx : s.store.Shows (s.store.Holds depth) x d)
    (hd : d.listItems = 0) :
    Ends (finish cx s0.reader.offset x) s fun v s' => Priced (depth + 1) s0 v s' := by
  refine runs_bind ((metered_spendSince h).post_mono fun _ s1 ⟨h1, hs1⟩ => ?_)
  rw [← hs1] at hx
  exact priced_putValue h1 hx (by omega)

/-- What is read whole, and fills a node whatever its parts have to be, is paid by its bytes. -/
theorem priced_whole {x : Action State Value} {n : TypeNode}
    (hfills : Leads Grown x s fun x s' => ∀ w form sub, s'.store.Fills w form sub x n)
    (hidle : Leads Idle x s fun x s' => s.reader.offset + x.dues ≤ s'.reader.offset) :
    Ends (do finish cx s.reader.offset (← x)) s fun v s' => Priced (depth + 1) s v s' := by
  refine runs_bind (Runs.mono (Runs.and hfills hidle) ?_ fun _ _ _ => trivial)
  rintro x s1 ⟨⟨hgrown, hx⟩, hs1, hread⟩
  obtain ⟨d, hshow, hd⟩ : ∃ d, s1.store.Shows (s1.store.Holds depth) x d ∧ d.listItems = 0 :=
    Store.Fills.shows_leaf hx
  have h1 : Metered (s1.reader.offset - s.reader.offset) 0 s s1 := by
    refine ⟨Store.Grows.toExtends hgrown, by omega, fun hmost => ?_⟩
    rw [hs1.cost, Cost.add]
    omega
  exact priced_finish h1 hshow hd

/-! ### Values with parts -/

/-- What the decoder of the parts does: what it gives is priced. -/
def Pricing (cx : Context) (depth : Nat) : Prop :=
  ∀ t s, Ends (value cx depth t) s (Priced depth s)

theorem priced_opt (ih : Pricing cx depth) :
    Ends (opt cx s.reader.offset (value cx depth t)) s (Priced (depth + 1) s) := by
  refine runs_bind ((metered_read Reader.gives_byte (.refl s)).post_mono fun flag s1 ⟨n, h1⟩ => ?_)
  split
  · exact priced_finish h1 .none rfl
  · refine runs_bind ((metered_spendSince h1).post_mono fun _ s2 ⟨h2, _⟩ => ?_)
    refine runs_bind ((ih t s2).post_mono fun v s3 ⟨d, m, hv, h3⟩ => ?_)
    refine priced_putValue (h2.trans h3) (.some hv) ?_
    rw [Datum.listItems_some]
    omega
  · exact runs_fail trivial

/-- Values one after another are priced together. -/
theorem priced_items (ih : Pricing cx depth) : ∀ (count : Nat) (s : State),
    Ends (Action.replicate count (value cx depth t)) s fun vs s' => ∃ ds n,
      List.Forall₂ (s'.store.Holds depth) vs ds ∧ vs.length = count ∧
      Metered n (n + (ds.map Datum.listItems).sum) s s'
  | 0, s => runs_pure ⟨[], 0, .nil, rfl, .refl s⟩
  | count + 1, s => by
    rw [replicate_succ]
    refine runs_bind ((ih t s).post_mono fun v s1 ⟨d, n, hv, h1⟩ => ?_)
    refine runs_bind ((priced_items ih count s1).post_mono fun vs s2 ⟨ds, m, hvs, hlength, h2⟩ => ?_)
    refine runs_pure ⟨d :: ds, n + m, .cons (hv.extends h2.store) hvs, congrArg Nat.succ hlength, ?_⟩
    have h12 := h1.trans h2
    rwa [List.map_cons, List.sum_cons, Nat.add_add_add_comm]

theorem priced_fields (ih : Pricing cx depth) : ∀ (fields : List Field) (s : State),
    Ends (fields.mapM fun field => return (⟨field.label, ← value cx depth field.type⟩ : FieldValue)) s
      fun xs s' => ∃ (ds : List (UInt32 × Datum)) (n : Nat),
        List.Forall₂ (fun x d => x.label.id = d.1 ∧ s'.store.Holds depth x.value d.2) xs ds ∧
        Metered n (n + (ds.map fun d => d.2.listItems).sum) s s'
  | [], s => runs_mapM_nil ⟨[], 0, .nil, .refl s⟩
  | field :: fields, s => by
    refine runs_mapM_cons (runs_bind ((ih field.type s).post_mono ?_))
    rintro v s1 ⟨d, n, hv, h1⟩
    refine runs_pure ((priced_fields ih fields s1).post_mono ?_)
    rintro xs s2 ⟨ds, m, hxs, h2⟩
    refine ⟨(field.label.id, d) :: ds, n + m, .cons ⟨rfl, hv.extends h2.store⟩ hxs, ?_⟩
    have h12 := h1.trans h2
    rwa [List.map_cons, List.sum_cons, Nat.add_add_add_comm]

/-- The items of a byte string are its bytes, and those are not charged again. -/
theorem priced_vec (ih : Pricing cx depth) :
    Ends (vec cx s.reader.offset element (value cx depth element)) s (Priced (depth + 1) s) := by
  refine runs_bind ((metered_read Reader.gives_unsigned (.refl s)).post_mono fun count s1 ⟨n, h1⟩ => ?_)
  refine runs_bind ((metered_spendSince h1).post_mono fun _ s2 ⟨h2, _⟩ => ?_)
  refine runs_bind ((metered_spend count h2).post_mono fun _ s3 ⟨h3, _⟩ => ?_)
  refine runs_bind ((metered_resolve h3).post_mono fun _ s4 h4 => ?_)
  split
  · refine runs_bind ((metered_bytes count h4).post_mono fun bytes s5 h5 => ?_)
    refine runs_bind ((metered_put (Store.leads_putBytes bytes _) h5).post_mono ?_)
    rintro p s6 ⟨h6, hp⟩
    have hblob : (Datum.blob bytes).listItems = 0 := rfl
    exact priced_putValue h6 (.blob hp) (by omega)
  · refine runs_bind ((priced_items ih count s4).post_mono ?_)
    rintro vs s5 ⟨ds, m, hvs, hlength, h5⟩
    refine priced_putValue (h4.trans h5) (.vec hvs) ?_
    rw [Datum.listItems_vec, ← hvs.length_eq, hlength]
    omega

theorem priced_record (fields : List Field) (ih : Pricing cx depth) :
    Ends (record (value cx depth) fields) s (Priced (depth + 1) s) := by
  refine runs_bind ((priced_fields ih fields s).post_mono fun xs s1 ⟨ds, n, hxs, h1⟩ => ?_)
  exact priced_putValue h1 (.record hxs) (by rw [Datum.listItems_record])

theorem priced_variant (fields : List Field) (ih : Pricing cx depth) :
    Ends (variant cx s.reader.offset (value cx depth) fields) s (Priced (depth + 1) s) := by
  refine runs_bind ((metered_read Reader.gives_unsigned (.refl s)).post_mono fun index s1 ⟨n, h1⟩ => ?_)
  refine runs_bind ((metered_spendSince h1).post_mono fun _ s2 ⟨h2, _⟩ => ?_)
  split
  · refine runs_bind ((ih _ s2).post_mono fun v s3 ⟨d, m, hv, h3⟩ => ?_)
    refine priced_putValue (h2.trans h3) (.variant rfl hv) ?_
    rw [Datum.listItems_variant]
    omega
  · exact runs_fail trivial

/-- Decoding a value charges its bytes and the items of its lists. -/
theorem pricing (cx : Context) : ∀ depth, Pricing cx depth := by
  intro depth
  induction depth with
  | zero => exact fun t s => runs_fail trivial
  | succ depth ih =>
    intro t s
    refine runs_bind (Runs.mono idle_resolve ?_ fun _ _ _ => trivial)
    rintro n s1 ⟨-, rfl⟩
    refine runs_bind (runs_of_ok rfl ?_)
    split
    · exact priced_whole (leads_primitive _) (idle_primitive _)
    · next methods => exact priced_whole (leads_service methods) idle_service
    · next signature => exact priced_whole (leads_func signature) idle_func
    · exact priced_opt ih
    · exact priced_vec ih
    · exact priced_record _ ih
    · exact priced_variant _ ih
    · exact runs_fail trivial

end Decode

/-! ### Sessions -/

namespace Session

variable {bytes : List UInt8} {config : Config} {length : Nat} {s s1 s' : State} {wire : List ValueId}
variable {t : TypeId} {v : ValueId} {session : Session} {store store' : Store}

/-- A session on a message whose header takes `length` bytes, in which arguments have only been read, by
    their own types or by expected ones, and each of them could be decoded, whether or not it then was of
    the type that was expected: the values that were decoded. In between more may be put into the store,
    names may be bound, and the observer may be another. -/
inductive Readings (bytes : List UInt8) (config : Config) (length : Nat) : State → List ValueId → Prop where
  | start {store store' : Store} {session : Session} :
      Session.start bytes config store = .ok session store' →
      Header.parse bytes store = .ok (session.header, length) store' →
      Readings bytes config length ⟨session, store'⟩ []
  | stored {s : State} {wire : List ValueId} {store : Store} : Readings bytes config length s wire →
      s.store.Extends store → Readings bytes config length ⟨s.session, store⟩ wire
  | bound {s : State} {wire : List ValueId} (name : String) (type : TypeId) :
      Readings bytes config length s wire →
      Readings bytes config length ((Call.bind name type).perform.outcome s).2 wire
  | observed {s : State} {wire : List ValueId} (topics : Topics) : Readings bytes config length s wire →
      Readings bytes config length ((Call.observe topics).perform.outcome s).2 wire
  | read {s s' : State} {wire : List ValueId} {t : TypeId} {v : ValueId} :
      Readings bytes config length s wire → readNext s = .ok (t, v) s' →
      Readings bytes config length s' (wire ++ [v])
  | readAs {s s1 : State} {wire : List ValueId} {t : TypeId} {v : ValueId} (expected : TypeId) :
      Readings bytes config length s wire → readNext s = .ok (t, v) s1 →
      Readings bytes config length ((readNextAs expected).outcome s).2 (wire ++ [v])

/-! ### What is free -/

/-- Nothing has been read or charged, and the store has grown. -/
structure State.Free (s s' : State) : Prop where
  store : s.store.Extends s'.store
  reader : s'.session.reader = s.session.reader
  cost : s'.session.cost = s.session.cost

theorem free_bind (name : String) (type : TypeId) (s : State) :
    s.Free ((Call.bind name type).perform.outcome s).2 := by
  have hbind : Leads State.Free (Call.bind name type).perform s fun _ _ => True :=
    runs_bindName (fun _ _ => ⟨⟨.refl _, rfl, rfl⟩, trivial⟩) fun _ => ⟨.refl _, rfl, rfl⟩
  exact hbind.outcome

theorem free_observe (topics : Topics) (s : State) :
    s.Free ((Call.observe topics).perform.outcome s).2 := by
  have hobserve : Leads State.Free (Call.observe topics).perform s fun _ _ => True :=
    runs_observe ⟨⟨.refl _, rfl, rfl⟩, trivial⟩
  exact hobserve.outcome

/-- The check of the types and the reshaping read and charge nothing, whatever they answer. -/
theorem free_reshape (hsane : s.Sane) (hread : readNext s = .ok (t, v) s1) (expected : TypeId) :
    s1.Free ((readNextAs expected).outcome s).2 := by
  have hrest : (readNextAs expected).outcome s = (reshape expected (t, v)).outcome s1 := by
    rw [readNextAs_eq, outcome, outcome, bind_run hread]
  obtain ⟨hlater, ht, -, -, hv⟩ := leads_readNext.ok hread
  have hreshaped := hv.extends (.refl _) (.refl _) Form.decoded_implies
  have hbeside : s1.Beside ((reshape expected (t, v)).outcome s1).2 :=
    (leads_reshape (hsane.later hlater) (hlater.args ▸ ht) hreshaped).outcome
  obtain ⟨log, hsession⟩ := (readNextAs_moves expected s).1 _ _ hread
  rw [hrest] at hsession ⊢
  exact ⟨hbeside.store, by rw [hsession], by rw [hsession]⟩

/-- Reading by an expected type is charged as reading is, in every state and with any outcome. -/
theorem readNextAs_cost (expected : TypeId) (s : State) :
    ((readNextAs expected).outcome s).2.session.cost = (readNext.outcome s).2.session.cost := by
  obtain ⟨hmoved, hfailed⟩ := readNextAs_moves expected s
  cases hread : readNext s with
  | ok found s1 =>
    obtain ⟨log, hs'⟩ := hmoved found s1 hread
    rw [hs', outcome, hread]
  | error e s1 => rw [outcome, outcome, hread, hfailed e s1 hread]

/-! ### What has been read -/

/-- What reading costs if nothing is too much to be counted: four units for each byte of the header, one
    for each byte of the values, and one for each item of their lists. -/
def price (length read : Nat) (ds : List Datum) : Nat :=
  4 * length + read + (ds.map Datum.listItems).sum

/-- The session stands behind its header and so many bytes of values, and has been charged the price of
    the values that have been decoded. -/
structure Accounted (length : Nat) (s : State) (wire : List ValueId) (read : Nat) (ds : List Datum) :
    Prop where
  holds : List.Forall₂ (fun v d => ∃ depth, s.store.Holds depth v d) wire ds
  offset : s.session.reader.offset = length + read
  cost : s.session.cost = min (price length read ds) Cost.most

variable {read : Nat} {ds : List Datum}

theorem start_accounted (hstart : Session.start bytes config store = .ok session store')
    (hparse : Header.parse bytes store = .ok (session.header, length) store') :
    Accounted length ⟨session, store'⟩ [] 0 [] := by
  obtain ⟨k, hk, -, -, hcost, -, hreader, -⟩ := start_eq_ok hstart
  obtain rfl : k = length := by
    rw [hparse, EStateM.Result.ok.injEq, Prod.mk.injEq] at hk
    exact hk.1.2.symm
  refine ⟨.nil, ?_, ?_⟩
  · dsimp only
    rw [hreader]
    rfl
  · dsimp only
    rw [hcost, Cost.add, price, List.map_nil, List.sum_nil, Nat.zero_add]
    rfl

theorem Accounted.free (h : Accounted length s wire read ds) (hs : s.Free s') :
    Accounted length s' wire read ds where
  holds := h.holds.imp fun _ _ ⟨depth, hd⟩ => ⟨depth, hd.extends hs.store⟩
  offset := hs.reader ▸ h.offset
  cost := hs.cost ▸ h.cost

/-- An argument that is read is paid. -/
theorem Accounted.next (h : Accounted length s wire read ds) (hread : readNext s = .ok (t, v) s') :
    ∃ n d, Accounted length s' (wire ++ [v]) (read + n) (ds ++ [d]) := by
  have hrun : Runs readNext s
      (fun found s' => ∃ n d, Accounted length s' (wire ++ [found.2]) (read + n) (ds ++ [d]))
      fun _ _ => True := by
    refine runs_reading (fun _ => trivial) fun t log _ => ?_
    refine (Decode.pricing s.session.context s.session.config.maxDepth t _).mono ?_ fun _ _ _ _ => trivial
    rintro v decoded ⟨d, n, hd, hmeter⟩ log
    refine ⟨n, d, ?_, ?_, ?_⟩
    · refine List.rel_append (h.holds.imp ?_) (.cons ⟨_, hd⟩ .nil)
      exact fun _ _ ⟨depth, hd⟩ => ⟨depth, hd.extends hmeter.store⟩
    · exact hmeter.offset.trans (h.offset ▸ Nat.add_assoc _ _ _)
    · have hcost := h.cost
      have hpaid := hmeter.cost
      dsimp only at hpaid ⊢
      rw [hpaid (by omega), hcost, price, price, Cost.add, List.map_append, List.sum_append,
        List.map_singleton, List.sum_singleton]
      omega
  exact hrun.ok hread

theorem Readings.sane (h : Readings bytes config length s wire) : s.Sane := by
  induction h with
  | start hstart _ => exact (Run.start hstart).sane
  | stored _ hs ih => exact ih.later (State.later_of_header hs rfl rfl)
  | bound name type _ ih => exact ih.later (leads_call ih (.bind name type)).outcome
  | observed topics _ ih => exact ih.later (leads_call ih (.observe topics)).outcome
  | read _ hread ih => exact ih.later (leads_readNext.ok hread).1
  | readAs expected _ _ ih => exact ih.later (leads_readNextAs ih).outcome

theorem Readings.accounted (h : Readings bytes config length s wire) :
    ∃ read ds, Accounted length s wire read ds := by
  induction h with
  | start hstart hparse => exact ⟨0, [], start_accounted hstart hparse⟩
  | stored _ hs ih =>
    obtain ⟨read, ds, hall⟩ := ih
    exact ⟨read, ds, hall.free ⟨hs, rfl, rfl⟩⟩
  | bound name type _ ih =>
    obtain ⟨read, ds, hall⟩ := ih
    exact ⟨read, ds, hall.free (free_bind name type _)⟩
  | observed topics _ ih =>
    obtain ⟨read, ds, hall⟩ := ih
    exact ⟨read, ds, hall.free (free_observe topics _)⟩
  | read _ hread ih =>
    obtain ⟨read, ds, hall⟩ := ih
    obtain ⟨n, d, hnext⟩ := hall.next hread
    exact ⟨read + n, ds ++ [d], hnext⟩
  | readAs expected hs hread ih =>
    obtain ⟨read, ds, hall⟩ := ih
    obtain ⟨n, d, hnext⟩ := hall.next hread
    exact ⟨read + n, ds ++ [d], hnext.free (free_reshape hs.sane hread expected)⟩

/-- As long as the total can be counted, the cost of a session in which arguments have only been read is
    four times the length of its header, the bytes of values that have been read, and the lengths of all
    lists that have been decoded, at every depth; of these, byte strings are none. So it is never less
    than what has been read. A total that cannot be counted stays at the most that can. What is done to
    read by an expected type, beyond reading, is free, whether or not it succeeds. -/
theorem readings_cost (bytes : List UInt8) (config : Config) (length : Nat) (s : State)
    (wire : List ValueId) (h : Readings bytes config length s wire) :
    (∃ read ds, s.session.reader.offset = length + read ∧
      List.Forall₂ (fun v d => ∃ depth, s.store.Holds depth v d) wire ds ∧
      s.session.cost = min (price length read ds) Cost.most ∧
      (price length read ds ≤ Cost.most →
        s.session.cost = 4 * length + read + (ds.map Datum.listItems).sum ∧
          s.session.reader.offset ≤ s.session.cost)) ∧
    ∀ expected, ((readNextAs expected).outcome s).2.session.cost =
      (readNext.outcome s).2.session.cost := by
  refine ⟨?_, fun expected => readNextAs_cost expected s⟩
  obtain ⟨read, ds, hall⟩ := h.accounted
  refine ⟨read, ds, hall.offset, hall.holds, hall.cost, fun hle => ?_⟩
  have hcost : s.session.cost = 4 * length + read + (ds.map Datum.listItems).sum := by
    rw [hall.cost, Nat.min_eq_left hle, price]
  refine ⟨hcost, ?_⟩
  rw [hall.offset, hcost]
  omega

/-- A message with two lists of numbers inside a list, and a byte string. -/
def listsMessage : List UInt8 :=
  [0x44, 0x49, 0x44, 0x4c, 3, 0x6d, 1, 0x6d, 0x7d, 0x6d, 0x7b, 2, 0, 2, 2, 2, 7, 8, 1, 9, 3, 1, 2, 3]

/-- The lists are read by their own type, and the byte string by one that it does not fit: 14 bytes of the
    header, 10 of the values, and 5 items. -/
theorem lists_cost : ∃ s wire, Readings listsMessage {} 14 s wire ∧ s.session.cost = 71 ∧
    s.session.reader.offset = 24 ∧ ∃ ds,
      List.Forall₂ (fun v d => ∃ depth, s.store.Holds depth v d) wire ds ∧
      71 = 4 * 14 + 10 + (ds.map Datum.listItems).sum := by
  have hall : (start listsMessage {}).passes { types := #[.primitive .text] } (fun session store =>
      decide (session.cost = 56) && readNext.passes ⟨session, store⟩ fun _ s1 =>
        readNext.passes s1 fun _ _ =>
          let (answer, s) := (readNextAs ⟨0⟩).outcome s1
          !answer.toBool && decide (s.session.cost = 71 ∧ s.session.reader.offset = 24)) = true := by
    decide +kernel
  obtain ⟨session, store, hstart, hall⟩ := passes_iff.mp hall
  rw [Bool.and_eq_true, decide_eq_true_eq] at hall
  obtain ⟨hopen, hall⟩ := hall
  obtain ⟨⟨t, v⟩, s1, hread, hall⟩ := passes_iff.mp hall
  obtain ⟨⟨t', v'⟩, s2, hread', hall⟩ := passes_iff.mp hall
  rw [Bool.and_eq_true, decide_eq_true_eq] at hall
  obtain ⟨-, hcost, hoffset⟩ := hall
  obtain ⟨length, hparse, -, -, hcharged, -⟩ := start_eq_ok hstart
  obtain rfl : length = 14 := by
    rw [hopen, Cost.add, Cost.most] at hcharged
    omega
  have hs := Readings.readAs ⟨0⟩ (.read (.start hstart hparse) hread) hread'
  obtain ⟨⟨read, ds, hread, hholds, hmin, hexact⟩, -⟩ := readings_cost _ _ _ _ _ hs
  obtain rfl : read = 10 := by omega
  have hle : price 14 10 ds ≤ Cost.most := by
    rw [hcost, Cost.most] at hmin
    rw [Cost.most]
    omega
  exact ⟨_, _, hs, hcost, hoffset, ds, hholds, hcost ▸ (hexact hle).1⟩

end Session

end TypedWire
