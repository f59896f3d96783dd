import TypedWire.Session.Decode
import TypedWire.Proofs.Reading
import TypedWire.Proofs.Schema.Growing
import TypedWire.Proofs.Value.ReadBack

/-! Decoding a value: where the type unfolds to the same tree as the type that the value was written
    with, the bytes of the value are taken, and the value that is put into the store is the one that was
    written. -/

namespace TypedWire

theorem Cost.not_exceeds (total : Nat) : ¬ Cost.exceeds 0 total = true := by
  simp [Cost.exceeds]

namespace Decode

open TypedWire.Action TypedWire.Reader

/-- A state of the decoder. -/
def view : View State where
  reader := State.reader
  store := State.store
  Fit _ := True

variable {cx : Context} {lengths : Nat → Prop} {base s : Store} {w : Scope} {depth : Nat} {d : Datum}
variable {t u r : TypeId} {n : TypeNode} {α : Type} {bytes : List UInt8}

/-! ### Steps -/

theorem runs_read {x : Action Reader α} {s : State} {post : α → State → Prop}
    {lost : Fault → State → Prop} (hrun : Runs x s.reader (fun a reader => post a { s with reader })
      fun e reader => lost e { s with reader }) : Runs (read x) s post lost :=
  runs_lift (fun reader => { s with reader })
    (fun a reader h => by simp only [read, h]) (fun e reader h => by simp only [read, h]) hrun

theorem runs_put {action : Action Store α} {s : State} {post : α → State → Prop}
    {lost : Fault → State → Prop}
    (hrun : Runs action s.store (fun a store => post a { s with store })
      fun e store => lost e { s with store }) : Runs (put action) s post lost :=
  runs_lift (fun store => { s with store })
    (fun a store h => by simp only [put, h]) (fun e store h => by simp only [put, h]) hrun

/-- What has been charged is charged, whether or not it is too much. -/
theorem runs_spend {k : Nat} {s : State} {post : Unit → State → Prop} {lost : Fault → State → Prop}
    (hok : ∀ log, ¬ Cost.exceeds cx.quota (Cost.add s.cost k) = true →
      post () { s with cost := Cost.add s.cost k, log })
    (hover : ∀ log, Cost.exceeds cx.quota (Cost.add s.cost k) = true →
      lost .overflow { s with cost := Cost.add s.cost k, log }) : Runs (spend cx k) s post lost := by
  let log := cx.topics.note s.log (.cost k (Cost.add s.cost k))
  by_cases h : Cost.exceeds cx.quota (Cost.add s.cost k) = true
  · have hrun : spend cx k s = .error .overflow { s with cost := Cost.add s.cost k, log } := by
      simp only [spend, if_pos h, log]
    exact runs_of_error hrun (hover log h)
  · have hrun : spend cx k s = .ok () { s with cost := Cost.add s.cost k, log } := by
      simp only [spend, if_neg h, log]
    exact runs_of_ok hrun (hok log h)

theorem uses_read {x : Action Reader α} {a : α} (hx : Reads x bytes a) :
    view.Uses 0 lengths base (read x) bytes fun _ b => b = a := by
  intro s offset rest _ _ hreader
  have hrun := hx offset rest
  rw [← show s.reader = _ from hreader] at hrun
  exact runs_read (runs_of_ok hrun ⟨trivial, .refl _, .refl _ 0, rfl, rfl⟩)

theorem takes_read {x : Action Reader α} {a : α} (hx : Reads x bytes a) :
    view.Takes lengths base (read x) bytes fun _ b => b = a := (uses_read hx).takes (Nat.zero_le _)

theorem takes_putValue (x : Value) :
    view.Takes lengths base (put (Store.putValue x)) [] fun s v => s.valueAt v = .ok x := by
  intro s offset rest _ _ hreader
  refine runs_put ((Store.runs_putValue s.store x).mono ?_ ?_)
  · exact fun v store ⟨hs, hv, _, hspends⟩ => ⟨trivial, hs.toExtends, hspends, hreader, hv⟩
  · rintro e store ⟨rfl, rfl, hlimit⟩
    exact ⟨rfl, Store.runsOut_of_limit hlimit⟩

theorem uses_putBytes (hlengths : lengths bytes.length) :
    view.Uses bytes.length lengths base (put (Store.putBytes bytes)) []
      fun s p => s.bytesAt p = .ok bytes := by
  intro s offset rest _ _ hreader
  refine runs_put ((Store.runs_putBytes s.store bytes).mono ?_ ?_)
  · exact fun p store ⟨hs, hp, hspends⟩ => ⟨trivial, hs.toExtends, hspends, hreader, hp⟩
  · rintro e store ⟨-, rfl, hout⟩
    refine ⟨rfl, hout.mono (Nat.le_refl _) ?_⟩
    rintro _ rfl
    exact hlengths

/-- Without a quota nothing costs too much. -/
theorem takes_spend (hquota : cx.quota = 0) (k : Nat) :
    view.Takes lengths base (spend cx k) [] fun _ _ => True :=
  fun _ _ _ _ _ hreader => runs_spend (fun _ _ => ⟨trivial, .refl _, .refl _ 0, hreader, trivial⟩)
    fun _ hover => absurd hover (hquota ▸ Cost.not_exceeds _)

theorem takes_offset : view.Takes lengths base offset [] fun _ _ => True :=
  fun _ _ _ _ _ hreader => runs_of_ok rfl ⟨trivial, .refl _, .refl _ 0, hreader, trivial⟩

theorem takes_spendSince (hquota : cx.quota = 0) (start : Nat) :
    view.Takes lengths base (spendSince cx start) [] fun _ _ => True :=
  takes_offset.last fun _ _ _ _ => takes_spend hquota _

theorem takes_finish (hquota : cx.quota = 0) (start : Nat) (x : Value) :
    view.Takes lengths base (finish cx start x) [] fun s v => s.valueAt v = .ok x :=
  (takes_spendSince hquota start).last fun _ _ _ _ => takes_putValue x

theorem takes_resolve (hs : Scope.StandsFor ⟨base, cx.env⟩ u r n) :
    view.Takes lengths base (resolve cx u) [] fun _ m => m = n := by
  intro s offset rest _ hbase hreader
  have hn : cx.env.resolve s.store u = .ok n := (hs.extends (Scope.extends_store cx.env hbase)).resolve
  have hrun : resolve cx u s = .ok n s := by simp only [resolve, hn]
  exact runs_of_ok hrun ⟨trivial, .refl _, .refl _ 0, hreader, rfl⟩

/-! ### Values without parts -/

/-- Bytes that are read, and are put in as they are. -/
theorem takes_payload {x : Action Reader (List UInt8)} {make : Span → Value} {payload : List UInt8}
    (hx : Reads x bytes payload) (hle : payload.length ≤ bytes.length) (hlengths : lengths payload.length)
    (hshow : ∀ s : Store, ∀ p, s.bytesAt p = .ok payload → s.Shows (s.Holds depth) (make p) d) :
    view.Takes lengths base (do return make (← put (Store.putBytes (← read x)))) bytes
      fun s x => s.Shows (s.Holds depth) x d := by
  refine ((uses_read hx).last ?_).takes (Nat.le_trans (Nat.le_of_eq (Nat.zero_add _)) hle)
  rintro _ s hs rfl
  exact (uses_putBytes hlengths).map fun s p _ hp => hshow s p hp

theorem sizedBytes_length (bytes : List UInt8) : bytes.length ≤ (sizedBytes bytes).length := by
  simp [sizedBytes]

theorem principalBytes_length (bytes : List UInt8) : bytes.length ≤ (principalBytes bytes).length :=
  Nat.le_succ_of_le (sizedBytes_length bytes)

theorem takes_primitive (depth : Nat) {sub : Datum → TypeId → Prop} {p : Primitive}
    (hlengths : d.Lengths ≤ lengths) (hadm : w.Admits sub (.primitive p) d) :
    view.Takes lengths base (primitive p) d.encode fun s x => s.Shows (s.Holds depth) x d := by
  cases hadm with
  | null => exact View.takes_pure fun _ _ => .null
  | reserved => exact View.takes_pure fun _ _ => .reserved
  | bool b =>
    refine (takes_read (reads_byte _)).last ?_
    rintro c s hs hc
    subst hc
    cases b <;> exact View.takes_pure fun _ _ => .bool _
  | nat hnum _ =>
    exact takes_payload (reads_number hnum) (Nat.le_refl _) (hlengths _ (.string rfl (.head _)))
      fun _ _ => .nat
  | int hnum _ =>
    exact takes_payload (reads_number hnum) (Nat.le_refl _) (hlengths _ (.string rfl (.head _)))
      fun _ _ => .int
  | fixed n =>
    refine (takes_read (reads_fixed n)).last ?_
    rintro m s hs hm
    subst hm
    exact View.takes_pure fun _ _ => .fixed m
  | @text text hpay =>
    have hlength : (utf8 text).length < 2 ^ 64 := Nat.lt_of_lt_of_le hpay (by decide)
    refine ((uses_read (reads_text (Leb128.unsigned_encode hlength))).last (n := (utf8 text).length)
      ?_).takes ?_
    · rintro m s hs hm
      subst hm
      exact (uses_putBytes (hlengths _ (.string rfl (.head _)))).map fun s p _ hp =>
        .text (Store.textAt_eq_ok.mpr ⟨_, hp, utf8?_utf8 m⟩)
    · exact (Nat.zero_add _).symm ▸ sizedBytes_length (utf8 text)
  | @principal bytes hle =>
    exact takes_payload (reads_principal hle) (principalBytes_length bytes)
      (hlengths _ (.string rfl (.head _))) fun _ _ => .principal

theorem takes_service (depth : Nat) (hlengths : (Datum.service bytes).Lengths ≤ lengths)
    (hle : bytes.length ≤ maxPrincipal) :
    view.Takes lengths base service (principalBytes bytes) fun s x =>
      s.Shows (s.Holds depth) x (.service bytes) :=
  takes_payload (reads_service hle) (principalBytes_length bytes) (hlengths _ (.string rfl (.head _)))
    fun _ _ => .service

theorem takes_func (depth : Nat) {method : String}
    (hlengths : (Datum.func bytes method).Lengths ≤ lengths)
    (hle : bytes.length ≤ maxPrincipal) (hpay : Payload (utf8 method)) :
    view.Takes lengths base func (funcBytes bytes method) fun s x =>
      s.Shows (s.Holds depth) x (.func bytes method) := by
  have hlength : (utf8 method).length < 2 ^ 64 := Nat.lt_of_lt_of_le hpay (by decide)
  refine ((uses_read (reads_func hle hlength)).last (n := bytes.length + (utf8 method).length)
    ?_).takes ?_
  · rintro m s hs hm
    subst hm
    refine (uses_putBytes (hlengths _ (.string rfl (.head _)))).last fun p s1 hs1 hp => ?_
    exact (uses_putBytes (hlengths _ (.string rfl (.tail _ (.head _))))).map fun s2 q hs2 hq =>
      .func (hs2.bytesAt p _ hp) (Store.textAt_eq_ok.mpr ⟨_, hq, utf8?_utf8 method⟩)
  · have hservice := principalBytes_length bytes
    have hmethod := sizedBytes_length (utf8 method)
    rw [funcBytes, List.length_cons, List.length_append]
    omega

/-! ### Values with parts -/

/-- What the decoder of the parts does: where the type unfolds to the same tree, it takes the bytes of a
    value and gives what the value is read back as. -/
def Reverts (lengths : Nat → Prop) (cx : Context) (w : Scope) (depth : Nat) : Prop :=
  ∀ ⦃d : Datum⦄ ⦃t u : TypeId⦄ ⦃base : Store⦄, (w.readBack depth t d).Lengths ≤ lengths →
    w.Types depth d t → w.Throughout TypeNode.Canonical t → w.SameTree t ⟨base, cx.env⟩ u →
    view.Takes lengths base (value cx depth u) d.encode
      fun s v => s.Holds depth v (w.readBack depth t d)

/-- The value node shows the tree, so the value holds it. -/
theorem takes_shown {x : Value} (hshow : base.Shows (base.Holds depth) x d) :
    view.Takes lengths base (put (Store.putValue x)) [] fun s v => s.Holds (depth + 1) v d :=
  (takes_putValue x).mono fun _ _ hs hv => ⟨x, hv, hshow.mono hs fun _ _ => Store.Holds.extends hs⟩

theorem takes_finished {x : Value} (hquota : cx.quota = 0) (start : Nat)
    (hshow : base.Shows (base.Holds depth) x d) :
    view.Takes lengths base (finish cx start x) [] fun s v => s.Holds (depth + 1) v d :=
  (takes_finish hquota start x).mono fun _ _ hs hv =>
    ⟨x, hv, hshow.mono hs fun _ _ => Store.Holds.extends hs⟩

theorem takes_opt {content : Option Datum} {a b : TypeId} (hquota : cx.quota = 0) (start : Nat)
    (ih : Reverts lengths cx w depth)
    (hlengths : (w.readNode (w.readBack depth) (.opt a) (.opt content)).Lengths ≤ lengths)
    (hadm : w.Admits (w.Types depth) (.opt a) (.opt content))
    (hcanon : w.Throughout TypeNode.Canonical a)
    (hsame : w.SameTree a ⟨base, cx.env⟩ b) :
    view.Takes lengths base (opt cx start (value cx depth b)) (Datum.opt content).encode
      fun s v => s.Holds (depth + 1) v (w.readNode (w.readBack depth) (.opt a) (.opt content)) := by
  cases hadm with
  | none =>
    refine (takes_read (reads_byte 0)).last ?_
    rintro c s hs hc
    subst hc
    exact (takes_finish hquota start _).mono fun _ v _ hv => ⟨_, hv, .none⟩
  | @some _ d hd =>
    have hbytes : (Datum.opt (some d)).encode = [1] ++ d.encode := rfl
    rw [hbytes]
    refine (takes_read (reads_byte 1)).bind ?_
    rintro c s hs hc
    subst hc
    refine (takes_spendSince hquota start).bind fun _ s1 hs1 _ => ?_
    have hsame1 := hsame.extends (.refl w) (Scope.extends_store cx.env (hs.trans hs1))
    exact (ih hlengths hd hcanon hsame1).last fun v s2 hs2 hv => takes_shown (.some hv)

/-- The front of a `vec`: the number of its items, and then either bytes or items. -/
theorem takes_vecCount {b : TypeId} {item : Action State ValueId} {more : List UInt8} {count : Nat}
    {post : Store → ValueId → Prop} (hquota : cx.quota = 0) (start : Nat)
    (hs : Scope.StandsFor ⟨base, cx.env⟩ b r n) (hcount : count < 2 ^ 64)
    (hrest : ∀ s, base.Extends s → view.Takes lengths s
      (if n = .primitive (.fixed .nat8) then do
        let bytes ← read (Reader.bytes count)
        let span ← put (Store.putBytes bytes)
        put (Store.putValue (.blob span))
      else do
        let items ← Action.replicate count item
        put (Store.putValue (.vec items))) more post) :
    view.Takes lengths base (vec cx start b item) (Leb128.encodeUnsigned count ++ more) post := by
  refine (takes_read (reads_unsigned (Leb128.unsigned_encode hcount))).bind ?_
  rintro k s hs1 hk
  subst hk
  refine (takes_spendSince hquota start).bind fun _ s1 hs2 _ => ?_
  refine (takes_spend hquota k).bind fun _ s2 hs3 _ => ?_
  have hgrown := hs1.trans (hs2.trans hs3)
  refine (takes_resolve (hs.extends (Scope.extends_store cx.env hgrown))).bind fun m s3 hs4 hm => ?_
  subst hm
  exact hrest s3 (hgrown.trans hs4)

theorem takes_vecBytes {b : TypeId} {item : Action State ValueId} (hquota : cx.quota = 0) (start : Nat)
    (hlengths : lengths bytes.length) (hcount : bytes.length < 2 ^ 64)
    (hs : Scope.StandsFor ⟨base, cx.env⟩ b r (.primitive (.fixed .nat8))) :
    view.Takes lengths base (vec cx start b item) (sizedBytes bytes)
      fun s v => s.Holds (depth + 1) v (.blob bytes) := by
  refine takes_vecCount hquota start hs hcount fun s hs1 => ?_
  rw [if_pos rfl]
  refine ((uses_read (reads_bytes bytes)).last (n := bytes.length) ?_).takes (Nat.zero_add _).le
  rintro payload s1 hs2 hpayload
  subst hpayload
  exact (uses_putBytes hlengths).last fun p s2 hs3 hp => takes_shown (.blob hp)

theorem takes_vec {a b : TypeId} (hquota : cx.quota = 0) (start : Nat)
    (ih : Reverts lengths cx w depth)
    (hlengths : (w.readNode (w.readBack depth) (.vec a) d).Lengths ≤ lengths)
    (hadm : w.Admits (w.Types depth) (.vec a) d) (hcanon : w.Throughout TypeNode.Canonical a)
    (hsame : w.SameTree a ⟨base, cx.env⟩ b) :
    view.Takes lengths base (vec cx start b (value cx depth b)) d.encode
      fun s v => s.Holds (depth + 1) v (w.readNode (w.readBack depth) (.vec a) d) := by
  obtain ⟨r, n, r', n', hs, hs', halike⟩ := hsame.unfold
  cases hadm with
  | @blob _ _ bytes hbyte hpay =>
    obtain rfl := hs.node_eq hbyte
    cases halike with
    | primitive =>
      exact takes_vecBytes hquota start (hlengths _ (.string rfl (.head _)))
        (Nat.lt_of_lt_of_le hpay (by decide)) hs'
  | @vec _ ds hlength hall =>
    by_cases hbyte : n = .primitive (.fixed .nat8)
    · subst hbyte
      cases halike with
      | primitive =>
        have hread : w.readNode (w.readBack depth) (.vec a) (.vec ds) = .blob (ds.map Datum.byte) := by
          rw [Scope.readNode, hs.isByte, decide_eq_true rfl, if_pos rfl]
        have hbytes : (Datum.vec ds).encode = sizedBytes (ds.map Datum.byte) := by
          rw [Datum.encode, Scope.encodeItems_bytes hs hall, sizedBytes, List.length_map]
        rw [hread] at hlengths ⊢
        rw [hbytes]
        exact takes_vecBytes hquota start (hlengths _ (.string rfl (.head _)))
          (by rwa [List.length_map]) hs'
    · have hread : w.readNode (w.readBack depth) (.vec a) (.vec ds) =
          .vec (ds.map (w.readBack depth a)) := by
        rw [Scope.readNode, hs.isByte, decide_eq_false hbyte, if_neg (by simp)]
      have hbyte' : n' ≠ .primitive (.fixed .nat8) := by
        rintro rfl
        cases halike
        exact hbyte rfl
      rw [hread] at hlengths ⊢
      rw [Datum.encode, Datum.encodeItems_eq]
      refine takes_vecCount hquota start hs' hlength fun s hs1 => ?_
      rw [if_neg hbyte']
      have hsame1 := hsame.extends (.refl w) (Scope.extends_store cx.env hs1)
      have hitem : ∀ d ∈ ds, view.Takes lengths s (value cx depth b) d.encode
          fun s v => s.Holds depth v (w.readBack depth a d) := fun d hd =>
        ih (fun n hn => hlengths n (hn.item (List.mem_map_of_mem hd))) (hall d hd) hcanon hsame1
      have hitems := View.takes_replicate Datum.encode (fun _ _ _ _ hs hv => hv.extends hs) ds hitem
      refine hitems.last fun vs s2 hs2 hvs => takes_shown (.vec ?_)
      exact List.forall₂_map_right_iff.mpr hvs.flip

theorem takes_fields (ih : Reverts lengths cx w depth) : ∀ {fs gs : List Field}
    {ds : List (UInt32 × Datum)} {base : Store},
    (∀ d ∈ fs.zipWith (fun f d => (d.1, w.readBack depth f.type d.2)) ds, d.2.Lengths ≤ lengths) →
    List.Forall₂ (fun f d => f.label.id = d.1 ∧ w.Types depth d.2 f.type) fs ds →
    (∀ f ∈ fs, w.Throughout TypeNode.Canonical f.type) →
    List.Forall₂ (fun f g => f.label.id = g.label.id ∧ w.SameTree f.type ⟨base, cx.env⟩ g.type) fs gs →
    view.Takes lengths base
      (gs.mapM fun field => do return (⟨field.label, ← value cx depth field.type⟩ : FieldValue))
      (ds.map fun d => d.2.encode).flatten
      fun s vs => List.Forall₂ (fun v d => v.label.id = d.1 ∧ s.Holds depth v.value d.2) vs
        (fs.zipWith (fun f d => (d.1, w.readBack depth f.type d.2)) ds)
  | [], [], [], base, _, .nil, _, .nil => View.takes_pure fun _ _ => .nil
  | f :: fs, g :: gs, d :: ds, base, hlengths, .cons hd hds, hcanon, .cons hg hgs => by
    rw [List.forall_mem_cons] at hcanon
    rw [List.zipWith_cons_cons, List.forall_mem_cons] at hlengths
    rw [List.map_cons, List.flatten_cons, List.mapM_cons]
    have hfirst : view.Takes lengths base
        (do return (⟨g.label, ← value cx depth g.type⟩ : FieldValue)) d.2.encode
        fun s v => v.label.id = d.1 ∧ s.Holds depth v.value (w.readBack depth f.type d.2) := by
      refine (ih hlengths.1 hd.2 hcanon.1 hg.2).last fun v s _ hv => ?_
      exact View.takes_pure fun s1 hs1 => ⟨hg.1.symm.trans hd.1, hv.extends hs1⟩
    refine hfirst.bind fun v s hs hv => ?_
    have hgs1 : List.Forall₂ (fun f g => f.label.id = g.label.id ∧
        w.SameTree f.type ⟨s, cx.env⟩ g.type) fs gs :=
      hgs.imp fun _ _ hfg => ⟨hfg.1, hfg.2.extends (.refl w) (Scope.extends_store cx.env hs)⟩
    refine (takes_fields ih hlengths.2 hds hcanon.2 hgs1).last
      fun vs s1 hs1 hvs => View.takes_pure fun s2 hs2 => ?_
    exact .cons ⟨hv.1, hv.2.extends (hs1.trans hs2)⟩ (hvs.imp fun _ _ h => ⟨h.1, h.2.extends hs2⟩)

theorem takes_record {fs gs : List Field} {ds : List (UInt32 × Datum)} (ih : Reverts lengths cx w depth)
    (hlengths : (w.readNode (w.readBack depth) (.record fs) (.record ds)).Lengths ≤ lengths)
    (hadm : w.Admits (w.Types depth) (.record fs) (.record ds)) (hinc : Increasing (·.label.id) fs)
    (hcanon : ∀ f ∈ fs, w.Throughout TypeNode.Canonical f.type)
    (hsame : List.Forall₂
      (fun f g => f.label.id = g.label.id ∧ w.SameTree f.type ⟨base, cx.env⟩ g.type) fs gs) :
    view.Takes lengths base (record (value cx depth) gs) (Datum.record ds).encode
      fun s v => s.Holds (depth + 1) v (w.readNode (w.readBack depth) (.record fs) (.record ds)) := by
  rw [Datum.encode, Datum.encodeFields_eq]
  refine (takes_fields ih (fun d hd n hn => hlengths n (hn.field hd)) (hadm.record_ordered hinc) hcanon
    hsame).last fun vs s hs hvs => ?_
  exact takes_shown (.record hvs)

theorem takes_variant {fs gs : List Field} {index : Nat} {id : UInt32} (hquota : cx.quota = 0)
    (start : Nat) (ih : Reverts lengths cx w depth)
    (hlengths : (w.readNode (w.readBack depth) (.variant fs) (.variant index id d)).Lengths ≤ lengths)
    (hadm : w.Admits (w.Types depth) (.variant fs) (.variant index id d))
    (hinc : Increasing (·.label.id) fs) (hcanon : ∀ f ∈ fs, w.Throughout TypeNode.Canonical f.type)
    (hsame : List.Forall₂
      (fun f g => f.label.id = g.label.id ∧ w.SameTree f.type ⟨base, cx.env⟩ g.type) fs gs) :
    view.Takes lengths base (variant cx start (value cx depth) gs) (Datum.variant index id d).encode
      fun s v => s.Holds (depth + 1) v
        (w.readNode (w.readBack depth) (.variant fs) (.variant index id d)) := by
  cases hadm with
  | @variant _ _ f _ hf hd =>
    obtain ⟨g, hg, hid, hfg⟩ := forall₂_getElem? hsame hf
    have hindex : index < 2 ^ 64 := by
      have hle := Increasing.place_le 0 hinc (fun _ _ => Nat.zero_le _) hf
      have hlt := f.label.id.toNat_lt
      omega
    rw [Scope.readNode, hf, Option.map_some, Option.getD_some] at hlengths ⊢
    rw [Datum.encode]
    refine (takes_read (reads_unsigned (Leb128.unsigned_encode hindex))).bind ?_
    rintro i s hs hi
    subst hi
    refine (takes_spendSince hquota start).bind fun _ s1 hs1 _ => ?_
    rw [hg]
    have hsame1 := hfg.extends (.refl w) (Scope.extends_store cx.env (hs.trans hs1))
    exact (ih hlengths hd (hcanon f (List.mem_of_getElem? hf)) hsame1).last
      fun v s2 hs2 hv => takes_shown (.variant hid.symm hv)

/-- Whatever the type, what was written for a value is read back. -/
theorem reverts (hquota : cx.quota = 0) : ∀ depth, Reverts lengths cx w depth
  | 0, _, _, _, _, _, htypes, _, _ => htypes.elim
  | depth + 1, d, t, u, base, hlengths, ⟨r, n, hs, hadm⟩, hcanon, hsame => by
    have ih : Reverts lengths cx w depth := reverts hquota depth
    obtain ⟨r', n', v, m, hs', hu, halike⟩ := hsame.unfold
    obtain rfl := hs.node_eq hs'
    rw [hs.readBack] at hlengths ⊢
    refine (takes_resolve hu).bind fun node s hs1 hnode => ?_
    subst hnode
    refine takes_offset.bind fun start s1 hs2 _ => ?_
    have hgrown := hs1.trans hs2
    have hpart : ∀ {a b}, w.SameTree a ⟨base, cx.env⟩ b → w.SameTree a ⟨s1, cx.env⟩ b :=
      fun h => h.extends (.refl w) (Scope.extends_store cx.env hgrown)
    have hfields : ∀ {fs gs : List Field},
        List.Forall₂
          (fun f g => f.label.id = g.label.id ∧ w.SameTree f.type ⟨base, cx.env⟩ g.type) fs gs →
        List.Forall₂
          (fun f g => f.label.id = g.label.id ∧ w.SameTree f.type ⟨s1, cx.env⟩ g.type) fs gs :=
      fun h => h.imp fun _ _ hfg => ⟨hfg.1, hpart hfg.2⟩
    cases halike with
    | primitive p =>
      have hnode : w.readNode (w.readBack depth) (.primitive p) d = d := rfl
      rw [hnode] at hlengths ⊢
      exact (takes_primitive depth hlengths hadm).last fun x s2 hs3 hx => takes_finished hquota start hx
    | opt h =>
      cases hadm with
      | none =>
        exact takes_opt hquota start ih hlengths (.none _) (hcanon.part hs (by simp [TypeTable.parts]))
          (hpart h)
      | some hd =>
        exact takes_opt hquota start ih hlengths (.some hd)
          (hcanon.part hs (by simp [TypeTable.parts])) (hpart h)
    | vec h =>
      exact takes_vec hquota start ih hlengths hadm
        (hcanon.part hs (by simp [TypeTable.parts])) (hpart h)
    | @record fs gs h =>
      have hparts : ∀ f ∈ fs, w.Throughout TypeNode.Canonical f.type :=
        fun f hf => hcanon.part hs (List.mem_map_of_mem hf)
      cases hadm with
      | record hds hperm horder =>
        exact takes_record ih hlengths (.record hds hperm horder) (hcanon.node hs) hparts (hfields h)
    | @variant fs gs h =>
      have hparts : ∀ f ∈ fs, w.Throughout TypeNode.Canonical f.type :=
        fun f hf => hcanon.part hs (List.mem_map_of_mem hf)
      cases hadm with
      | variant hf hd =>
        exact takes_variant hquota start ih hlengths (.variant hf hd) (hcanon.node hs) hparts (hfields h)
    | func =>
      cases hadm with
      | func hle hpay =>
        exact (takes_func depth hlengths hle hpay).last fun x s2 hs3 hx => takes_finished hquota start hx
    | service =>
      cases hadm with
      | service hle =>
        exact (takes_service depth hlengths hle).last fun x s2 hs3 hx => takes_finished hquota start hx

end Decode

end TypedWire
