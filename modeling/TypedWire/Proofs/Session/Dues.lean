import TypedWire.Proofs.Session.Run

/-! What reading is charged for the value nodes that it makes. Each node that takes bytes of its own is
    paid by them, and a `vec` is charged for its items before any of them is read. Of `null`, `reserved`
    and records, which take none, a message can have more made than is charged. -/

namespace TypedWire

open TypedWire.Action

/-- What is charged at least for a value node. -/
def Value.dues : Value → Nat
  | .null | .reserved | .record _ => 0
  | .vec items => 1 + items.length
  | _ => 1

/-- What is charged at least for some value nodes. -/
def Value.totalDues (xs : List Value) : Nat := (xs.map dues).sum

@[simp] theorem Value.totalDues_append (xs ys : List Value) :
    totalDues (xs ++ ys) = totalDues xs + totalDues ys := by
  simp [totalDues]

@[simp] theorem Value.totalDues_singleton (x : Value) : totalDues [x] = x.dues := by
  simp [totalDues]

theorem Cost.add_add (total n m : Nat) : add (add total n) m = add total (n + m) := by
  unfold add
  omega

theorem Cost.add_le_add {total total' n n' : Nat} (h : total ≤ total') (hn : n ≤ n') :
    add total n ≤ add total' n' := by
  unfold add
  omega

namespace Decode

variable {cx : Context} {s0 s s' : State} {α : Type} {post : α → Prop} {postS : α → State → Prop}
variable {credit n least start depth : Nat} {t element : TypeId}

/-! ### What is neither charged nor made -/

/-- Nothing has been charged, and no value nodes have been made. -/
structure Idle (s s' : State) : Prop where
  cost : s'.cost = s.cost
  values : s'.store.values = s.store.values

instance : IsPreorder State Idle where
  refl _ := ⟨rfl, rfl⟩
  trans _ _ _ h h' := ⟨h'.cost.trans h.cost, h'.values.trans h.values⟩

theorem idle_read {x : Action Reader α} (hx : Reader.Gives x least post) :
    Leads Idle (read x) s fun _ s' => s.reader.offset + least ≤ s'.reader.offset :=
  runs_read (hx.runs.mono (fun _ _ ⟨hle, _⟩ => ⟨⟨rfl, rfl⟩, hle⟩) fun _ _ _ => ⟨rfl, rfl⟩)

theorem idle_putBytes (bytes : List UInt8) :
    Leads Idle (put (Store.putBytes bytes)) s fun _ s' => s'.reader = s.reader :=
  runs_put ((Store.runs_putBytes s.store bytes).mono (fun _ _ hs => ⟨⟨rfl, hs.1.values⟩, rfl⟩)
    fun _ _ hs => ⟨rfl, hs.1.values⟩)

theorem idle_resolve : Leads Idle (resolve cx t) s fun _ s' => s' = s := by
  refine leads_answer (fun s => cx.env.resolve s.store t) (fun s => ?_) fun _ _ => rfl
  unfold resolve
  cases cx.env.resolve s.store t <;> rfl

/-- A payload takes a byte at least. -/
theorem idle_payload {x : Action Reader α} {bytes : α → List UInt8} {make : Span → Value}
    (hx : Reader.Gives x 1 post) (hmake : ∀ p, (make p).dues ≤ 1) :
    Leads Idle (do return make (← put (Store.putBytes (bytes (← read x))))) s fun x s' =>
      s.reader.offset + x.dues ≤ s'.reader.offset := by
  refine (idle_read hx).bind fun a s1 _ hs1 => ?_
  refine (idle_putBytes _).bind fun p s2 _ hs2 => leads_pure ?_
  have hp := hmake p
  rw [hs2]
  omega

/-- The bytes of a value without parts pay for its node. -/
theorem idle_primitive (p : Primitive) : Leads Idle (primitive p) s fun x s' =>
    s.reader.offset + x.dues ≤ s'.reader.offset := by
  cases p with
  | null => exact leads_pure (Nat.le_refl _)
  | reserved => exact leads_pure (Nat.le_refl _)
  | empty => exact leads_fail
  | bool =>
    refine (idle_read Reader.gives_byte).bind fun b s1 _ hs1 => ?_
    split
    · exact leads_pure hs1
    · exact leads_pure hs1
    · exact leads_fail
  | fixed f => exact (idle_read (Reader.gives_fixed f)).bind fun _ _ _ hs1 => leads_pure hs1
  | nat => exact idle_payload Reader.gives_number fun _ => Nat.le_refl 1
  | int => exact idle_payload Reader.gives_number fun _ => Nat.le_refl 1
  | text => exact idle_payload Reader.gives_text fun _ => Nat.le_refl 1
  | principal => exact idle_payload Reader.gives_principal fun _ => Nat.le_refl 1

theorem idle_service : Leads Idle service s fun x s' => s.reader.offset + x.dues ≤ s'.reader.offset :=
  idle_payload Reader.gives_service fun _ => Nat.le_refl 1

theorem idle_func : Leads Idle func s fun x s' => s.reader.offset + x.dues ≤ s'.reader.offset := by
  refine (idle_read Reader.gives_func).bind fun (principal, method) s1 _ hs1 => ?_
  refine (idle_putBytes principal).bind fun p s2 _ hs2 => ?_
  refine (idle_putBytes (utf8 method)).bind fun q s3 _ hs3 => leads_pure ?_
  rw [hs3, hs2]
  exact hs1

/-! ### What has been charged for what has been made -/

/-- Since `s0`, at least what the value nodes owe that have been made has been charged, and `credit`
    more. -/
def Covers (credit : Nat) (s0 s : State) : Prop :=
  ∃ made n, s.store.values.toList = s0.store.values.toList ++ made ∧ Cost.add s0.cost n ≤ s.cost ∧
    Value.totalDues made + credit ≤ n

/-- What has been made is covered, and the quota is kept if it was before. -/
structure Settled (cx : Context) (credit : Nat) (s0 s : State) : Prop where
  covers : Covers credit s0 s
  kept : ¬ Cost.exceeds cx.quota s0.cost = true → ¬ Cost.exceeds cx.quota s.cost = true

theorem Settled.refl (cx : Context) (s : State) : Settled cx 0 s s :=
  ⟨⟨[], 0, (List.append_nil _).symm, Nat.min_le_left _ _, Nat.le_refl 0⟩, id⟩

theorem Covers.le {k : Nat} (h : Covers credit s0 s) (hk : k ≤ credit) : Covers k s0 s := by
  obtain ⟨made, n, hmade, hcost, hdues⟩ := h
  exact ⟨made, n, hmade, hcost, by omega⟩

theorem Covers.idle (h : Covers credit s0 s) (hs : Idle s s') : Covers credit s0 s' := by
  obtain ⟨made, n, hmade, hcost, hdues⟩ := h
  exact ⟨made, n, hs.values ▸ hmade, hs.cost ▸ hcost, hdues⟩

theorem Settled.idle (h : Settled cx credit s0 s) (hs : Idle s s') : Settled cx credit s0 s' :=
  ⟨h.covers.idle hs, hs.cost ▸ h.kept⟩

theorem Settled.spare (h : Settled cx credit s0 s) : Covers 0 s0 s := h.covers.le (Nat.zero_le _)

/-- Where the run from `s` ends well, what has been made since `s0` is covered, with `credit` to spare;
    where it gives up, it is covered too. -/
abbrev Settles (cx : Context) (s0 : State) (x : Action State α) (s : State) (credit : Nat) : Prop :=
  Runs x s (fun _ s' => Settled cx credit s0 s') fun _ s' => Covers 0 s0 s'

/-- What charges and makes nothing settles nothing. -/
theorem settled_idle {x : Action State α} (hx : Leads Idle x s postS) (h : Settled cx credit s0 s) :
    Runs x s (fun a s' => Settled cx credit s0 s' ∧ postS a s') fun _ s' => Covers 0 s0 s' :=
  Runs.mono hx (fun _ _ ⟨hs, ha⟩ => ⟨h.idle hs, ha⟩) fun _ _ hs => h.spare.idle hs

theorem settled_spend (n : Nat) (h : Settled cx credit s0 s) :
    Settles cx s0 (spend cx n) s (credit + n) := by
  have hcovers : ∀ log, Covers (credit + n) s0 { s with cost := Cost.add s.cost n, log } := by
    intro log
    obtain ⟨made, m, hmade, hcost, hdues⟩ := h.covers
    refine ⟨made, m + n, hmade, ?_, by omega⟩
    rw [← Cost.add_add]
    exact Cost.add_le_add hcost (Nat.le_refl n)
  exact runs_spend (fun log hkept => ⟨hcovers log, fun _ => hkept⟩)
    fun log _ => (hcovers log).le (Nat.zero_le _)

theorem settled_spendSince (h : Settled cx credit s0 s) (hread : start + n ≤ s.reader.offset) :
    Settles cx s0 (spendSince cx start) s (credit + n) := by
  refine runs_bind (runs_of_ok rfl ((settled_spend _ h).post_mono fun _ s' hs' => ?_))
  exact ⟨hs'.covers.le (by omega), hs'.kept⟩

/-- A value node is paid out of the credit. -/
theorem settled_putValue (x : Value) (h : Settled cx (credit + x.dues) s0 s) :
    Settles cx s0 (put (Store.putValue x)) s credit := by
  refine runs_put ((Store.runs_putValue s.store x).mono (fun _ store ⟨_, _, hvalues, _⟩ => ⟨?_, h.kept⟩)
    fun _ store hsame => h.spare.idle ⟨rfl, congrArg Store.values hsame.1⟩)
  obtain ⟨made, n, hmade, hcost, hdues⟩ := h.covers
  refine ⟨made ++ [x], n, ?_, hcost, ?_⟩
  · rw [hvalues, Array.toList_push, hmade, List.append_assoc]
  · rw [Value.totalDues_append, Value.totalDues_singleton]
    omega

theorem settled_finish (x : Value) (h : Settled cx credit s0 s)
    (hread : start + x.dues ≤ s.reader.offset) : Settles cx s0 (finish cx start x) s credit :=
  runs_bind ((settled_spendSince h hread).post_mono fun _ _ hs => settled_putValue x hs)

theorem settled_read {x : Action Reader α} (hx : Reader.Gives x least post) (h : Settled cx credit s0 s) :
    Runs (read x) s
      (fun _ s' => Settled cx credit s0 s' ∧ s.reader.offset + least ≤ s'.reader.offset)
      fun _ s' => Covers 0 s0 s' :=
  settled_idle (idle_read hx) h

/-- The bytes of a value without parts pay for it. -/
theorem settled_whole {x : Action State Value}
    (hx : Leads Idle x s fun v s' => s.reader.offset + v.dues ≤ s'.reader.offset)
    (h : Settled cx credit s0 s) :
    Settles cx s0 (do finish cx s.reader.offset (← x)) s credit :=
  runs_bind ((settled_idle hx h).post_mono fun v _ ⟨h1, hread⟩ => settled_finish v h1 hread)

/-! ### Values with parts -/

/-- What the decoder of the parts does: whatever credit there was, is left. -/
def Settling (cx : Context) (depth : Nat) : Prop :=
  ∀ t credit s0 s, Settled cx credit s0 s → Settles cx s0 (value cx depth t) s credit

theorem settled_opt (ih : Settling cx depth) (h : Settled cx credit s0 s) :
    Settles cx s0 (opt cx s.reader.offset (value cx depth t)) s credit := by
  refine runs_bind ((settled_read Reader.gives_byte h).post_mono fun flag s1 ⟨h1, hread⟩ => ?_)
  split
  · exact settled_finish _ h1 hread
  · refine runs_bind ((settled_spendSince h1 hread).post_mono fun _ s2 h2 => ?_)
    refine runs_bind ((ih t _ s0 s2 h2).post_mono fun v s3 h3 => ?_)
    exact settled_putValue (.opt (some v)) h3
  · exact runs_fail h1.spare

/-- The items are charged before they are read. -/
theorem settled_vec (ih : Settling cx depth) (h : Settled cx credit s0 s) :
    Settles cx s0 (vec cx s.reader.offset element (value cx depth element)) s credit := by
  refine runs_bind ((settled_read Reader.gives_unsigned h).post_mono fun count s1 ⟨h1, hread⟩ => ?_)
  refine runs_bind ((settled_spendSince h1 hread).post_mono fun _ s2 h2 => ?_)
  refine runs_bind ((settled_spend count h2).post_mono fun _ s3 h3 => ?_)
  refine runs_bind ((settled_idle idle_resolve h3).post_mono fun n s4 ⟨h4, _⟩ => ?_)
  split
  · refine runs_bind ((settled_read (Reader.gives_bytes count) h4).post_mono fun bytes s5 ⟨h5, _⟩ => ?_)
    refine runs_bind ((settled_idle (idle_putBytes bytes) h5).post_mono fun p s6 ⟨h6, _⟩ => ?_)
    refine settled_putValue (.blob p) ⟨h6.covers.le ?_, h6.kept⟩
    show credit + 1 ≤ credit + 1 + count
    omega
  · have hitem := ih element (credit + 1 + count) s0
    refine runs_bind ((runs_replicate hitem h4).post_mono fun vs s5 ⟨hlength, h5⟩ => ?_)
    refine settled_putValue (.vec vs) ?_
    rwa [Value.dues, hlength, ← Nat.add_assoc]

theorem settled_record (fields : List Field) (ih : Settling cx depth) (h : Settled cx credit s0 s) :
    Settles cx s0 (record (value cx depth) fields) s credit := by
  refine runs_bind ((runs_mapM (fun field s1 h1 => ?_) h).post_mono fun xs s1 h1 => ?_)
  · exact runs_bind ((ih field.type credit s0 s1 h1).post_mono fun v s2 h2 => runs_pure h2)
  · exact settled_putValue (.record xs) h1

theorem settled_variant (fields : List Field) (ih : Settling cx depth) (h : Settled cx credit s0 s) :
    Settles cx s0 (variant cx s.reader.offset (value cx depth) fields) s credit := by
  refine runs_bind ((settled_read Reader.gives_unsigned h).post_mono fun index s1 ⟨h1, hread⟩ => ?_)
  refine runs_bind ((settled_spendSince h1 hread).post_mono fun _ s2 h2 => ?_)
  split
  · next field _ =>
    refine runs_bind ((ih field.type _ s0 s2 h2).post_mono fun v s3 h3 => ?_)
    exact settled_putValue (.variant index ⟨field.label, v⟩) h3
  · exact runs_fail h2.spare

/-- Decoding a value charges what its nodes owe. -/
theorem settling (cx : Context) : ∀ depth, Settling cx depth := by
  intro depth
  induction depth with
  | zero => exact fun t credit s0 s h => runs_fail h.spare
  | succ depth ih =>
    intro t credit s0 s h
    refine runs_bind ((settled_idle idle_resolve h).post_mono ?_)
    rintro n s1 ⟨h1, rfl⟩
    refine runs_bind (runs_of_ok rfl ?_)
    split
    · exact settled_whole (idle_primitive _) h1
    · exact settled_whole idle_service h1
    · exact settled_whole idle_func h1
    · exact settled_opt ih h1
    · exact settled_vec ih h1
    · exact settled_record _ ih h1
    · exact settled_variant _ ih h1
    · exact runs_fail h1.spare

end Decode

namespace Session

variable {s s' : State} {made : List Value} {bytes : List UInt8} {config : Config} {clean : Bool}

/-! ### Calls -/

/-- From `s` to `s'`, at least what the value nodes owe has been charged. -/
def Paid (made : List Value) (s s' : State) : Prop :=
  ∃ n, Value.totalDues made ≤ n ∧ Cost.add s.session.cost n ≤ s'.session.cost

/-- The quota is kept. -/
def State.Within (s : State) : Prop :=
  ¬ Cost.exceeds s.session.config.decodingQuota s.session.cost = true

theorem Paid.of_cost_eq (h : s'.session.cost = s.session.cost) : Paid [] s s' :=
  ⟨0, Nat.le_refl 0, h ▸ Nat.min_le_left _ _⟩

theorem Paid.beside {s'' : State} (h : Paid made s s') (hs : s'.Beside s'') : Paid made s s'' := by
  obtain ⟨n, hdues, hcost⟩ := h
  exact ⟨n, hdues, hs.moved.cost ▸ hcost⟩

theorem State.Beside.within (h : s.Beside s') (hs : s.Within) : s'.Within := by
  unfold State.Within
  rwa [h.moved.cost, h.moved.config]

/-- However the run from `s` ends, what the value nodes owe has been charged; if it ends well, the quota
    is kept. -/
def Pays {α : Type} (x : Action State α) (s : State) (made : List Value) : Prop :=
  Runs x s (fun _ s' => Paid made s s' ∧ (s.Within → s'.Within)) fun _ s' => Paid made s s'

theorem pays_of_beside {x : Action State Unit} (h : Leads State.Beside x s fun _ _ => True) :
    Pays x s [] :=
  Runs.mono h (fun _ _ ⟨hs, _⟩ => ⟨.of_cost_eq hs.moved.cost, hs.within⟩)
    fun _ _ hs => .of_cost_eq hs.moved.cost

theorem since_eq {values : List Value} (h : s'.store.values.toList = s.store.values.toList ++ values) :
    s.since s' = values := by
  rw [State.since, ← Array.length_toList, h, List.drop_left]

/-- Reading the next argument pays for the value nodes that it makes, whether it ends well or not. -/
theorem readNext_pays : Pays readNext s (s.since (readNext.outcome s).2) := by
  have hread : Runs readNext s (fun _ s' => Paid (s.since s') s s' ∧ (s.Within → s'.Within))
      fun _ s' => Paid (s.since s') s s' := by
    have hpaid : ∀ {d d' : Decode.State} {session : Session}, Decode.Covers 0 d d' →
        d.store = s.store → d.cost = s.session.cost → d'.cost = session.cost →
        Paid (s.since ⟨session, d'.store⟩) s ⟨session, d'.store⟩ := by
      rintro d d' session ⟨values, n, hvalues, hle, hdues⟩ hstore hcost hcost'
      rw [hstore] at hvalues
      rw [hcost, hcost'] at hle
      have hsince : s.since ⟨session, d'.store⟩ = values := since_eq hvalues
      exact ⟨n, hsince ▸ hdues, hle⟩
    refine runs_reading (fun _ => ?_) fun t log harg => ?_
    · exact since_eq (List.append_nil _).symm ▸ .of_cost_eq rfl
    · have hsettled := Decode.Settled.refl s.session.context
        ⟨s.session.reader, s.store, s.session.cost, log⟩
      refine (Decode.settling s.session.context s.session.config.maxDepth t 0 _ _ hsettled).mono ?_ ?_
      · exact fun v d hd log => ⟨hpaid hd.covers rfl rfl rfl, hd.kept⟩
      · exact fun e d hd log => hpaid hd rfl rfl rfl
  refine (hread.and (runs_outcome readNext s)).mono ?_ ?_
  · rintro p s' ⟨hpaid, rfl⟩
    exact hpaid
  · rintro e s' ⟨hpaid, rfl⟩
    exact hpaid

/-- Whatever is called pays for what it makes. -/
theorem call_pays (h : s.Sane) (call : Call) : Pays call.perform s (call.made s) := by
  cases call with
  | read => exact runs_bind (Runs.post_mono readNext_pays fun _ _ hpaid => runs_pure hpaid)
  | readAs expected =>
    refine runs_bind ?_
    rw [readNextAs_eq]
    refine runs_bind ((Runs.and readNext_pays leads_readNext).mono ?_ fun _ _ hs => hs.1)
    rintro ⟨t, v⟩ s' ⟨⟨hpaid, hwithin⟩, hlater, ht, -, -, hv⟩
    have hreshaped := hv.extends (.refl _) (.refl _) Form.decoded_implies
    refine Runs.mono (leads_reshape (h.later hlater) (hlater.args ▸ ht) hreshaped) ?_ ?_
    · exact fun v' s'' ⟨hs, _⟩ => runs_pure ⟨hpaid.beside hs, fun hs0 => hs.within (hwithin hs0)⟩
    · exact fun e s'' hs => hpaid.beside hs
  | skip => exact pays_of_beside beside_skip
  | finish => exact pays_of_beside beside_finish
  | charge n =>
    have hpaid : ∀ log, Paid [] s ⟨{ s.session with cost := Cost.add s.session.cost n, log }, s.store⟩ :=
      fun _ => ⟨n, Nat.zero_le n, Nat.le_refl _⟩
    exact runs_charge (fun log hkept => ⟨hpaid log, fun _ => hkept⟩) hpaid
  | bind name type => exact runs_bindName (fun _ _ => ⟨.of_cost_eq rfl, id⟩) fun _ => .of_cost_eq rfl
  | observe topics => exact runs_observe ⟨.of_cost_eq rfl, id⟩

/-! ### Sessions -/

theorem Run.paid (h : Run bytes config s made clean) : s.session.config = config ∧
    Cost.add 0 (Value.totalDues made) ≤ s.session.cost ∧ (clean = true → s.Within) := by
  induction h with
  | start hstart =>
    obtain ⟨length, -, hconfig, -, -, -, -, hquota⟩ := start_eq_ok hstart
    refine ⟨hconfig, Nat.zero_le _, fun _ => ?_⟩
    unfold State.Within
    rwa [hconfig]
  | stored _ _ ih => exact ih
  | @called s made clean call hrun ih =>
    obtain ⟨hconfig, hcost, hclean⟩ := ih
    have hlater := (leads_call hrun.sane call).outcome
    have hsum : ∀ s', Paid (call.made s) s s' →
        Cost.add 0 (Value.totalDues (made ++ call.made s)) ≤ s'.session.cost := by
      rintro s' ⟨n, hdues, hle⟩
      rw [Value.totalDues_append, ← Cost.add_add]
      exact (Cost.add_le_add hcost hdues).trans hle
    refine ⟨hlater.config.trans hconfig, ?_⟩
    unfold outcome
    rcases Runs.ends (call_pays hrun.sane call) with ⟨_, s', hcall, hpaid, hwithin⟩ | ⟨e, s', hcall, hpaid⟩
    · simp only [hcall]
      exact ⟨hsum s' hpaid, fun hall => hwithin (hclean (Bool.and_eq_true_iff.mp hall).1)⟩
    · simp only [hcall]
      exact ⟨hsum s' hpaid, fun hall => absurd hall (by simp [Except.toBool])⟩

/-- Of the value nodes that are made by reading, all but `null`, `reserved` and records are charged, and
    so are the items of every `vec`: together they are never more than the cost, as far as that is
    counted. Where all calls end well, the cost is within the quota, so they are too. -/
theorem made_charged (bytes : List UInt8) (config : Config) (s : State) (made : List Value) (clean : Bool)
    (h : Run bytes config s made clean) : min (Value.totalDues made) Cost.most ≤ s.session.cost ∧
      (clean = true → 0 < config.decodingQuota → s.session.cost ≤ config.decodingQuota ∧
        (config.decodingQuota < Cost.most → Value.totalDues made ≤ config.decodingQuota)) := by
  obtain ⟨rfl, hcost, hwithin⟩ := h.paid
  rw [Cost.add, Nat.zero_add] at hcost
  refine ⟨hcost, fun hclean hquota => ?_⟩
  have hle : s.session.cost ≤ s.session.config.decodingQuota := by
    have hkept := hwithin hclean
    simp only [State.Within, Cost.exceeds, Bool.and_eq_true, decide_eq_true_eq, not_and, not_lt] at hkept
    exact hkept hquota
  exact ⟨hle, fun hmost => by omega⟩

theorem number_charged : ∃ s made, Run numberMessage { decodingQuota := 50 } s made true ∧
    Value.totalDues made = 1 ∧ 1 ≤ s.session.cost ∧ s.session.cost ≤ 50 := by
  have hopen : (start numberMessage { decodingQuota := 50 }).passes {} (fun session store =>
      (Call.read.perform.outcome ⟨session, store⟩).1.toBool &&
        decide (Value.totalDues (Call.read.made ⟨session, store⟩) = 1)) = true := by decide +kernel
  obtain ⟨session, store, hstart, htest⟩ := passes_iff.mp hopen
  rw [Bool.and_eq_true, decide_eq_true_eq] at htest
  have hrun := Run.called .read (.start hstart)
  rw [htest.1] at hrun
  have hcharged := made_charged _ _ _ _ _ hrun
  rw [List.nil_append, htest.2] at hcharged
  exact ⟨_, _, hrun, htest.2, hcharged.1, (hcharged.2 rfl (by decide)).1⟩

/-- A message with a list of 30 records of three `null`s. -/
def nullsMessage : List UInt8 :=
  [0x44, 0x49, 0x44, 0x4c, 2, 0x6c, 3, 0, 0x7f, 1, 0x7f, 2, 0x7f, 0x6d, 0, 1, 1, 30]

/-- A `null`, and a record that holds nothing else, are made for nothing: here are more value nodes than
    the cost, and more than the quota, in a session whose calls end well. -/
theorem nulls_uncharged : ∃ s made, Run nullsMessage { decodingQuota := 100 } s made true ∧
    s.session.cost < made.length ∧ 100 < made.length := by
  have hopen : (start nullsMessage { decodingQuota := 100 }).passes {} (fun session store =>
      let (answer, s) := Call.read.perform.outcome ⟨session, store⟩
      let made := Call.read.made ⟨session, store⟩
      answer.toBool && decide (s.session.cost < made.length ∧ 100 < made.length)) = true := by
    decide +kernel
  obtain ⟨session, store, hstart, htest⟩ := passes_iff.mp hopen
  rw [Bool.and_eq_true, decide_eq_true_eq] at htest
  have hrun := Run.called .read (.start hstart)
  rw [htest.1] at hrun
  exact ⟨_, _, hrun, htest.2⟩

end Session

end TypedWire
