import TypedWire.Proofs.Growth
import TypedWire.Proofs.Session.Decode
import TypedWire.Proofs.Taken
import TypedWire.Proofs.Value.Typed

/-! Decoded values are of the type that they were decoded by, whatever the bytes were, and decoding
    only makes the store grow, whether it ends well or not. -/

namespace TypedWire.Decode

open TypedWire.Action

/-- The store has grown. -/
def Grown (s s' : State) : Prop := s.store.Grows s'.store

instance : IsPreorder State Grown where
  refl s := .refl s.store
  trans _ _ _ := Store.Grows.trans

variable {cx : Context} {base : Store} {s s' : State} {w : Scope} {form : Form} {depth k : Nat}
variable {t element inner : TypeId} {n : TypeNode} {x : Value}
variable {α : Type} {post : α → Prop} {postS : α → Store → Prop}

/-! ### Steps -/

theorem leads_read {x : Action Reader α} (hx : Reader.Gives x k post) :
    Leads Grown (read x) s fun a s' => s'.store = s.store ∧ post a :=
  runs_read (hx.runs.mono (fun _ _ ⟨_, ha⟩ => ⟨.refl s.store, rfl, ha⟩) fun _ _ _ => .refl s.store)

theorem leads_put {x : Action Store α} (hx : Leads Store.Grows x s.store postS) :
    Leads Grown (put x) s fun a s' => postS a s'.store :=
  runs_put hx

theorem leads_spend (k : Nat) : Leads Grown (spend cx k) s fun _ s' => s'.store = s.store :=
  runs_spend (fun _ _ => ⟨.refl s.store, rfl⟩) fun _ _ => .refl s.store

theorem leads_offset : Leads Grown offset s fun _ s' => s' = s :=
  leads_answer (fun s => .ok s.reader.offset) (fun _ => rfl) fun _ _ => rfl

theorem leads_spendSince (start : Nat) :
    Leads Grown (spendSince cx start) s fun _ s' => s'.store = s.store := by
  refine leads_offset.bind fun k s1 _ hs1 => ?_
  subst hs1
  exact leads_spend _

theorem leads_resolve (hs : s.store.types = base.types) :
    Leads Grown (resolve cx t) s fun n s' => s' = s ∧ ∃ r, Scope.StandsFor ⟨base, cx.env⟩ t r n := by
  refine leads_answer (fun s => cx.env.resolve s.store t) (fun s => ?_) fun n hn => ⟨rfl, ?_⟩
  · unfold resolve
    cases cx.env.resolve s.store t <;> rfl
  · exact Scope.standsFor_of_resolve ((Scope.resolve_congr cx.env hs t).symm.trans hn)

/-- A value node that is put in is of the type node, if its contents are. -/
theorem leads_putValue (hx : s.store.Fills w form (s.store.OfType w form depth) x n) :
    Leads Grown (put (Store.putValue x)) s fun v s' => s'.store.OfNode w form depth v n := by
  have hput : Leads Grown (put (Store.putValue x)) s fun v s' => s'.store.valueAt v = .ok x :=
    leads_put (Store.leads_putValue x s.store)
  refine hput.mono fun v s' hs hv => ⟨x, hv, ?_⟩
  exact hx.mono hs.toExtends (fun _ _ _ => id) (.refl form) fun _ _ h => h.extends hs.toExtends

theorem leads_finish (start : Nat) (hx : s.store.Fills w form (s.store.OfType w form depth) x n) :
    Leads Grown (finish cx start x) s fun v s' => s'.store.OfNode w form depth v n :=
  (leads_spendSince start).bind fun _ _ _ hs => leads_putValue (hs ▸ hx)

theorem leads_putBytes (bytes : List UInt8) :
    Leads Grown (put (Store.putBytes bytes)) s fun p s' => s'.store.bytesAt p = .ok bytes :=
  leads_put (Store.leads_putBytes bytes s.store)

theorem leads_putText (text : String) :
    Leads Grown (put (Store.putBytes (utf8 text))) s fun p s' => s'.store.textAt p = .ok text :=
  (leads_putBytes (utf8 text)).mono fun _ _ _ hp => Store.textAt_eq_ok.mpr ⟨_, hp, utf8?_utf8 text⟩

/-! ### Values without parts -/

theorem leads_primitive (p : Primitive) : Leads Grown (primitive p) s fun x s' =>
    ∀ w form sub, s'.store.Fills w form sub x (.primitive p) := by
  cases p with
  | null => exact leads_pure fun _ _ _ => .null
  | reserved => exact leads_pure fun _ _ _ => .reserved
  | empty => exact leads_fail
  | bool =>
    refine (leads_read Reader.gives_byte).bind fun b s1 _ _ => ?_
    split
    · exact leads_pure fun _ _ _ => .bool false
    · exact leads_pure fun _ _ _ => .bool true
    · exact leads_fail
  | fixed f =>
    refine (leads_read (Reader.gives_fixed f)).bind fun number s1 _ ⟨_, hkind⟩ => leads_pure ?_
    subst hkind
    exact fun _ _ _ => .fixed number
  | nat =>
    refine (leads_read Reader.gives_number).bind fun number s1 _ ⟨_, hnum⟩ => ?_
    exact (leads_putBytes number).bind fun p s2 _ hp => leads_pure fun _ _ _ => .nat hp hnum
  | int =>
    refine (leads_read Reader.gives_number).bind fun number s1 _ ⟨_, hnum⟩ => ?_
    exact (leads_putBytes number).bind fun p s2 _ hp => leads_pure fun _ _ _ => .int hp hnum
  | text =>
    refine (leads_read Reader.gives_text).bind fun text s1 _ _ => ?_
    exact (leads_putText text).bind fun p s2 _ hp => leads_pure fun _ _ _ => .text hp
  | principal =>
    refine (leads_read Reader.gives_principal).bind fun bytes s1 _ ⟨_, hle⟩ => ?_
    exact (leads_putBytes bytes).bind fun p s2 _ hp => leads_pure fun _ _ _ => .principal hp hle

theorem leads_service (methods : List Method) : Leads Grown service s fun x s' =>
    ∀ w form sub, s'.store.Fills w form sub x (.service methods) := by
  refine (leads_read Reader.gives_service).bind fun bytes s1 _ ⟨_, hle⟩ => ?_
  exact (leads_putBytes bytes).bind fun p s2 _ hp => leads_pure fun _ _ _ => .service hp hle

theorem leads_func (signature : Signature) : Leads Grown func s fun x s' =>
    ∀ w form sub, s'.store.Fills w form sub x (.func signature) := by
  refine (leads_read Reader.gives_func).bind fun (bytes, method) s1 _ ⟨_, hle⟩ => ?_
  refine (leads_putBytes bytes).bind fun p s2 _ hp => ?_
  refine (leads_putText method).bind fun q s3 hs3 hq => leads_pure ?_
  exact fun _ _ _ => .func (hs3.bytesAt p _ hp) hle hq

/-! ### Values with parts -/

/-- What the decoder of the parts does: it gives values of their types. -/
def Typing (cx : Context) (base : Store) (depth : Nat) : Prop :=
  ∀ t s, s.store.types = base.types → Leads Grown (value cx depth t) s fun v s' =>
    s'.store.OfType ⟨base, cx.env⟩ .decoded depth v t

theorem leads_opt (start : Nat) (ih : Typing cx base depth) (hs : s.store.types = base.types) :
    Leads Grown (opt cx start (value cx depth inner)) s fun v s' =>
      s'.store.OfNode ⟨base, cx.env⟩ .decoded depth v (.opt inner) := by
  refine (leads_read Reader.gives_byte).bind fun flag s1 hs1 _ => ?_
  split
  · exact leads_finish start (.none inner)
  · refine (leads_spendSince start).bind fun _ s2 hs2 _ => ?_
    have htypes : s2.store.types = base.types := hs2.types.trans (hs1.types.trans hs)
    exact (ih inner s2 htypes).bind fun v s3 _ hv => leads_putValue (.some hv)
  · exact leads_fail

theorem leads_vec (start : Nat) (ih : Typing cx base depth) (hs : s.store.types = base.types) :
    Leads Grown (vec cx start element (value cx depth element)) s fun v s' =>
      s'.store.OfNode ⟨base, cx.env⟩ .decoded depth v (.vec element) := by
  refine (leads_read Reader.gives_unsigned).bind fun count s1 hs1 _ => ?_
  refine (leads_spendSince start).bind fun _ s2 hs2 _ => ?_
  refine (leads_spend count).bind fun _ s3 hs3 _ => ?_
  have htypes : s3.store.types = base.types :=
    hs3.types.trans (hs2.types.trans (hs1.types.trans hs))
  refine (leads_resolve htypes).bind fun n s4 _ ⟨hs4, r, hn⟩ => ?_
  subst hs4
  split
  · next hbyte =>
    subst hbyte
    refine (leads_read (Reader.gives_bytes count)).bind fun bytes s5 _ _ => ?_
    exact (leads_putBytes bytes).bind fun p s6 _ hp => leads_putValue (.blob hp hn)
  · next hbyte =>
    have hitems : Leads Grown (Action.replicate count (value cx depth element)) s4 fun vs s' =>
        vs.length = count ∧ ∀ v ∈ vs, s'.store.OfType ⟨base, cx.env⟩ .decoded depth v element :=
      leads_replicate (P := fun s v => s.store.OfType ⟨base, cx.env⟩ .decoded depth v element)
        (fun _ _ _ hs h => h.extends hs.toExtends)
        fun s5 hs5 => ih element s5 (Store.Grows.types hs5 |>.trans htypes)
    exact hitems.bind fun vs s5 _ ⟨_, hvs⟩ => leads_putValue (.vec (fun _ => ⟨r, n, hn, hbyte⟩) hvs)

theorem leads_record (fields : List Field) (ih : Typing cx base depth)
    (hs : s.store.types = base.types) :
    Leads Grown (record (value cx depth) fields) s fun v s' =>
      s'.store.OfNode ⟨base, cx.env⟩ .decoded depth v (.record fields) := by
  have hall : Leads Grown (fields.mapM fun field =>
      return (⟨field.label, ← value cx depth field.type⟩ : FieldValue)) s fun xs s' =>
      List.Forall₂ (fun f x => Form.decoded.SameLabel x.label f.label ∧
        s'.store.OfType ⟨base, cx.env⟩ .decoded depth x.value f.type) fields xs := by
    refine leads_mapM (fun s1 s2 _ _ hs h => ⟨h.1, h.2.extends hs.toExtends⟩) fun f _ s1 hs1 => ?_
    refine (ih f.type s1 (hs1.types.trans hs)).bind fun v s2 _ hv => leads_pure ⟨?_, hv⟩
    exact Form.sameLabel_refl .decoded f.label
  exact hall.bind fun xs s1 _ hxs => leads_putValue (.record hxs)

theorem leads_variant (start : Nat) (fields : List Field) (ih : Typing cx base depth)
    (hs : s.store.types = base.types) :
    Leads Grown (variant cx start (value cx depth) fields) s fun v s' =>
      s'.store.OfNode ⟨base, cx.env⟩ .decoded depth v (.variant fields) := by
  refine (leads_read Reader.gives_unsigned).bind fun index s1 hs1 _ => ?_
  refine (leads_spendSince start).bind fun _ s2 hs2 _ => ?_
  split
  · next field hfield =>
    have htypes : s2.store.types = base.types := hs2.types.trans (hs1.types.trans hs)
    refine (ih field.type s2 htypes).bind fun v s3 _ hv => leads_putValue ?_
    exact .variant hfield (Form.sameLabel_refl .decoded field.label) hv
  · exact leads_fail

/-- Decoding gives values of the type that it goes by. -/
theorem typing (cx : Context) (base : Store) : ∀ depth, Typing cx base depth := by
  intro depth
  induction depth with
  | zero => exact fun t s _ => leads_fail
  | succ depth ih =>
    intro t s hs
    refine (leads_resolve hs).bind fun n s1 _ ⟨hs1, r, hn⟩ => ?_
    subst hs1
    refine leads_offset.bind fun start s2 _ hs2 => ?_
    subst hs2
    suffices hnode : Leads Grown _ s2 fun v s' => s'.store.OfNode ⟨base, cx.env⟩ .decoded depth v n from
      hnode.mono fun v s' _ hv => hv.ofType hn
    split
    · exact (leads_primitive _).bind fun x s3 _ hx => leads_finish start (hx _ _ _)
    · exact (leads_service _).bind fun x s3 _ hx => leads_finish start (hx _ _ _)
    · exact (leads_func _).bind fun x s3 _ hx => leads_finish start (hx _ _ _)
    · exact leads_opt start ih hs
    · exact leads_vec start ih hs
    · exact leads_record _ ih hs
    · exact leads_variant start _ ih hs
    · exact leads_fail

end TypedWire.Decode
