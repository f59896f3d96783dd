import TypedWire.Value.Write
import TypedWire.Proofs.Reader
import TypedWire.Proofs.Value.Datum

/-! The bytes of a value. What is written for a stored value are the bytes of the tree that it holds; a
    write that gives up leaves what was there before. -/

namespace TypedWire

open TypedWire.Action

mutual

/-- What a message has for a value. -/
def Datum.encode : Datum → List UInt8
  | .null | .reserved => []
  | .bool b => [if b then 1 else 0]
  | .nat number | .int number => number
  | .fixed n => n.bytes
  | .text s => sizedBytes (utf8 s)
  | .principal bytes | .service bytes => principalBytes bytes
  | .blob bytes => sizedBytes bytes
  | .opt none => [0]
  | .opt (some d) => 1 :: d.encode
  | .vec items => Leb128.encodeUnsigned items.length ++ Datum.encodeItems items
  | .record fields => Datum.encodeFields fields
  | .variant index _ d => Leb128.encodeUnsigned index ++ d.encode
  | .func p method => funcBytes p method

def Datum.encodeItems : List Datum → List UInt8
  | [] => []
  | d :: ds => d.encode ++ Datum.encodeItems ds

def Datum.encodeFields : List (UInt32 × Datum) → List UInt8
  | [] => []
  | (_, d) :: fields => d.encode ++ Datum.encodeFields fields

end

theorem Datum.encodeItems_eq : ∀ ds : List Datum, Datum.encodeItems ds = (ds.map Datum.encode).flatten
  | [] => rfl
  | d :: ds => by rw [encodeItems, encodeItems_eq ds, List.map_cons, List.flatten_cons]

theorem Datum.encodeFields_eq : ∀ ds : List (UInt32 × Datum),
    Datum.encodeFields ds = (ds.map fun d => d.2.encode).flatten
  | [] => rfl
  | (_, d) :: ds => by rw [encodeFields, encodeFields_eq ds, List.map_cons, List.flatten_cons]

namespace Output

variable {α : Type} {x y : Action Output Unit} {P Q R : List UInt8 → Prop} {s : Store}

/-- The run adds bytes to those that are there: on success, as `P` says. -/
def Writes (x : Action Output Unit) (P : List UInt8 → Prop) : Prop :=
  ∀ out : Output, Runs x out (fun _ out' => ∃ more, out'.toList = out.toList ++ more ∧ P more)
    fun _ out' => out.toList <+: out'.toList

theorem Writes.mono (h : Writes x P) (hPQ : ∀ bytes, P bytes → Q bytes) : Writes x Q :=
  fun out => (h out).post_mono fun _ _ ⟨more, hout, hP⟩ => ⟨more, hout, hPQ more hP⟩

theorem writes_pure (h : P []) : Writes (pure ()) P := fun _ => runs_pure ⟨[], by simp, h⟩

theorem writes_fail (e : Fault) : Writes (Action.fail e) P := fun _ => runs_fail List.prefix_rfl

theorem writes_bytes (bs : List UInt8) : Writes (bytes bs) (· = bs) :=
  fun _ => runs_of_ok rfl ⟨bs, by simp, rfl⟩

theorem writes_byte (b : UInt8) : Writes (byte b) (· = [b]) :=
  fun _ => runs_of_ok rfl ⟨[b], by simp, rfl⟩

theorem Writes.then (hx : Writes x P) (hy : Writes y Q) (h : ∀ b c, P b → Q c → R (b ++ c)) :
    Writes (do x; y) R := by
  intro out
  refine runs_bind ((hx out).post_mono ?_)
  rintro - out1 ⟨b, hb, hP⟩
  refine (hy out1).mono ?_ ?_
  · rintro - out2 ⟨c, hc, hQ⟩
    exact ⟨b ++ c, by rw [hc, hb, List.append_assoc], h b c hP hQ⟩
  · intro _ out2 hpre
    exact (hb ▸ List.prefix_append _ _).trans hpre

theorem writes_answer {answer : Except Fault α} {f : α → Action Output Unit}
    (h : ∀ a, answer = .ok a → Writes (f a) P) : Writes (do f (← Action.ofExcept answer)) P :=
  fun out => runs_bind (runs_answer (fun a ha => h a ha out) fun _ _ => List.prefix_rfl)

/-! ### Contents -/

theorem writes_blob (bs : List UInt8) : Writes (blob bs) (· = sizedBytes bs) :=
  (writes_bytes _).then (writes_bytes bs) fun _ _ hb hc => hb ▸ hc ▸ rfl

theorem writes_principal (bs : List UInt8) :
    Writes (principal bs) fun b => b = principalBytes bs ∧ bs.length ≤ maxPrincipal := by
  have hrest : Writes (do byte 1; blob bs) (· = principalBytes bs) := by
    refine (writes_byte 1).then (writes_blob bs) ?_
    rintro b c rfl rfl
    rfl
  unfold principal
  split
  · exact (writes_fail (P := fun _ => False) .invalid).then hrest fun _ _ hfail _ => hfail.elim
  · next hle => exact hrest.mono fun _ hb => ⟨hb, Nat.not_lt.mp hle⟩

theorem writes_func (service : List UInt8) (method : String) :
    Writes (func service method) (· = funcBytes service method) := by
  have hrest : Writes (do principal service; text method)
      (· = principalBytes service ++ sizedBytes (utf8 method)) := by
    refine (writes_principal service).then (writes_blob (utf8 method)) ?_
    rintro b c ⟨rfl, -⟩ rfl
    rfl
  refine (writes_byte 1).then hrest ?_
  rintro b c rfl rfl
  rfl

/-! ### Values -/

/-- Items written one after another. -/
theorem writes_items {γ : Type} {write : γ → Action Output Unit} {sub : γ → Datum → Prop}
    (hwrite : ∀ v, Writes (write v) fun bytes => ∀ d, sub v d → bytes = d.encode) :
    ∀ vs : List γ, Writes (vs.forM write) fun bytes =>
      ∀ ds : List Datum, List.Forall₂ sub vs ds → bytes = (ds.map Datum.encode).flatten
  | [] => writes_pure fun ds hds => by cases hds; rfl
  | v :: vs => by
    refine (hwrite v).then (writes_items hwrite vs) fun b c hb hc ds hds => ?_
    cases hds with
    | cons hd hds => rw [hb _ hd, hc _ hds, List.map_cons, List.flatten_cons]

/-- A payload is looked up, and written as `code` says. -/
theorem writes_payload {answer : Except Fault α} {f : α → Action Output Unit} {code : α → List UInt8}
    (hf : ∀ a, Writes (f a) (· = code a)) :
    Writes (do f (← Action.ofExcept answer)) fun bytes => ∀ a, answer = .ok a → bytes = code a := by
  refine writes_answer fun a ha => (hf a).mono fun bytes hbytes a' ha' => ?_
  obtain rfl : a = a' := Except.ok.inj (ha.symm.trans ha')
  exact hbytes

/-- If the parts are written as the trees that they are related to, a node is written as the tree that
    it shows. -/
theorem writes_node {fuel : Nat} {sub : ValueId → Datum → Prop} {v : ValueId} {x : Value}
    (hx : s.valueAt v = .ok x)
    (hpart : ∀ u, Writes (valueWithin s fuel u) fun bytes => ∀ d, sub u d → bytes = d.encode) :
    Writes (valueWithin s (fuel + 1) v) fun bytes => ∀ d, s.Shows sub x d → bytes = d.encode := by
  have hprincipal : ∀ bs, Writes (principal bs) (· = principalBytes bs) :=
    fun bs => (writes_principal bs).mono fun _ => And.left
  refine writes_answer fun y hy => ?_
  obtain rfl : y = x := Except.ok.inj (hy.symm.trans hx)
  cases y with
  | null => exact writes_pure fun d hd => by cases hd; rfl
  | reserved => exact writes_pure fun d hd => by cases hd; rfl
  | bool b => exact (writes_byte _).mono fun _ h d hd => by cases hd; exact h
  | fixed n => exact (writes_bytes _).mono fun _ h d hd => by cases hd; exact h
  | nat span =>
    refine (writes_payload writes_bytes).mono fun _ h d hd => ?_
    cases hd with
    | nat hb => exact h _ hb
  | int span =>
    refine (writes_payload writes_bytes).mono fun _ h d hd => ?_
    cases hd with
    | int hb => exact h _ hb
  | text span =>
    refine (writes_payload fun t => writes_blob (utf8 t)).mono fun _ h d hd => ?_
    cases hd with
    | text ht => exact h _ ht
  | blob span =>
    refine (writes_payload writes_blob).mono fun _ h d hd => ?_
    cases hd with
    | blob hb => exact h _ hb
  | principal span =>
    refine (writes_payload hprincipal).mono fun _ h d hd => ?_
    cases hd with
    | principal hb => exact h _ hb
  | service span =>
    refine (writes_payload hprincipal).mono fun _ h d hd => ?_
    cases hd with
    | service hb => exact h _ hb
  | func span name =>
    refine writes_answer fun bs hbs => (writes_payload (writes_func bs)).mono fun _ h d hd => ?_
    cases hd with
    | func hb ht =>
      obtain rfl := Except.ok.inj (hbs.symm.trans hb)
      exact h _ ht
  | opt content =>
    cases content with
    | none => exact (writes_byte _).mono fun _ h d hd => by cases hd; exact h
    | some u =>
      refine (writes_byte _).then (hpart u) ?_
      rintro b c rfl hc d hd
      cases hd with
      | some hu => rw [hc _ hu]; rfl
  | vec items =>
    refine (writes_bytes _).then (writes_items hpart items) ?_
    rintro b c rfl hc d hd
    cases hd with
    | vec h => rw [hc _ h, Datum.encode, Datum.encodeItems_eq, h.length_eq]
  | record fields =>
    refine (writes_items (fun f : FieldValue => hpart f.value) fields).mono fun c hc d hd => ?_
    cases hd with
    | @record _ ds h =>
      have hvalues : List.Forall₂ (fun f d => sub f.value d) fields (ds.map (·.2)) :=
        List.forall₂_map_right_iff.mpr (h.imp fun _ _ hfd => hfd.2)
      rw [hc _ hvalues, Datum.encode, Datum.encodeFields_eq, List.map_map]
      rfl
  | variant index field =>
    refine (writes_bytes _).then (hpart field.value) ?_
    rintro b c rfl hc d hd
    cases hd with
    | variant _ hu => rw [hc _ hu]; rfl

theorem writes_valueWithin (s : Store) : ∀ (fuel : Nat) (v : ValueId),
    Writes (valueWithin s fuel v) fun bytes => ∀ k d, s.Holds k v d → bytes = d.encode
  | 0, _ => writes_fail _
  | fuel + 1, v => by
    have hpart : ∀ u, Writes (valueWithin s fuel u) fun bytes =>
        ∀ d, (∃ k, s.Holds k u d) → bytes = d.encode :=
      fun u => (writes_valueWithin s fuel u).mono fun _ h d ⟨k, hd⟩ => h k d hd
    cases hx : s.valueAt v with
    | error e =>
      exact writes_answer fun x hok => absurd (hx.symm.trans hok) (by simp)
    | ok x =>
      refine (writes_node hx hpart).mono fun bytes hbytes k d hd => ?_
      match k, hd with
      | k + 1, ⟨y, hy, hshow⟩ =>
        obtain rfl : x = y := Except.ok.inj (hx.symm.trans hy)
        exact hbytes d (hshow.mono (.refl s) fun _ _ hu => ⟨k, hu⟩)

end Output

end TypedWire
