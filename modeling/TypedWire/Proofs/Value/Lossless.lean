import Mathlib.Data.List.ProdSigma
import TypedWire.Proofs.Value.Carried
import TypedWire.Proofs.Value.Preservation

/-! Reshaping loses nothing where the types fit plainly. The strict rules for an `opt` leave no room for
    a mismatch below it, so nothing is swallowed on the way, and only a full store can end it early. -/

namespace TypedWire.Coerce

open TypedWire.Action

variable {w : Scope} {form : Form} {s s1 s' : Store} {v : ValueId} {x : Value} {n1 n2 : TypeNode}
variable {t wire expected r1 r2 inner : TypeId} {n k fuel : Nat} {α β : Type}

/-! ### Runs that only a full store can end early -/

/-- The run ends in a store that has grown and in `post`, unless the store is full. -/
def Ends (x : Action Store α) (s : Store) (post : α → Store → Prop) : Prop :=
  Runs x s (fun a s' => s.Grows s' ∧ post a s') fun e _ => e = .storeFull

variable {post post' : α → Store → Prop} {postB : β → Store → Prop}

theorem Ends.mono {x : Action Store α} (h : Ends x s post)
    (hpost : ∀ a s', s.Grows s' → post a s' → post' a s') : Ends x s post' :=
  Runs.post_mono h fun a s' ⟨hs, ha⟩ => ⟨hs, hpost a s' hs ha⟩

theorem ends_pure {a : α} (h : post a s) : Ends (pure a) s post := runs_pure ⟨.refl s, h⟩

theorem Ends.bind {x : Action Store α} {f : α → Action Store β} (h : Ends x s post)
    (hf : ∀ a s1, s.Grows s1 → post a s1 → Ends (f a) s1 postB) : Ends (x >>= f) s postB := by
  refine runs_bind (Runs.post_mono h fun a s1 ⟨hs, ha⟩ => ?_)
  exact Runs.post_mono (hf a s1 hs ha) fun b s2 ⟨hs', hb⟩ => ⟨hs.trans hs', hb⟩

theorem ends_look {f : Store → Except Fault α} {g : α → Action Store β} {a : α} (h : f s = .ok a)
    (hg : Ends (g a) s postB) : Ends (look f >>= g) s postB :=
  runs_bind (runs_look h hg)

theorem ends_ofExcept {y : Except Fault α} {g : α → Action Store β} {a : α} (h : y = .ok a)
    (hg : Ends (g a) s postB) : Ends (Action.ofExcept y >>= g) s postB :=
  runs_bind (runs_ofExcept h hg)

theorem ends_putValue (x : Value) (s : Store) :
    Ends (Store.putValue x) s fun v s' => s'.valueAt v = .ok x :=
  (Store.runs_putValue s x).mono (fun _ _ ⟨hs, hv, _⟩ => ⟨hs, hv⟩) fun _ _ ⟨_, he, _⟩ => he

theorem ends_putBytes (bytes : List UInt8) (s : Store) :
    Ends (Store.putBytes bytes) s fun p s' => s'.bytesAt p = .ok bytes :=
  (Store.runs_putBytes s bytes).mono (fun _ _ ⟨hs, hp, _⟩ => ⟨hs.toGrows, hp⟩) fun _ _ ⟨_, he, _⟩ => he

/-- Where a run finds no mismatch, none is swallowed. -/
theorem ends_orNone {x : Action Store ValueId} {post : ValueId → Store → Prop} (h : Ends x s post) :
    Ends (orNone x) s fun o s' => ∃ v, o = some v ∧ post v s' := by
  rcases Runs.ends h with ⟨v, s', hx, hs, hpost⟩ | ⟨e, s', hx, rfl⟩
  · have hrun : orNone x s = .ok (some v) s' := by simp only [orNone, hx]
    exact runs_of_ok hrun ⟨hs, v, rfl, hpost⟩
  · have hrun : orNone x s = .error .storeFull s' := by simp only [orNone, hx]
    exact runs_of_error hrun rfl

theorem ends_mapM {g : β → Action Store α} {P : Store → β → α → Prop}
    (hP : ∀ s s' b a, s.Grows s' → P s b a → P s' b a) : ∀ {bs : List β} {s : Store},
    (∀ b ∈ bs, ∀ s1, s.Grows s1 → Ends (g b) s1 fun a s' => P s' b a) →
    Ends (bs.mapM g) s fun as s' => List.Forall₂ (P s') bs as
  | [], _, _ => ends_pure .nil
  | b :: bs, s, h => by
    rw [List.forall_mem_cons] at h
    rw [List.mapM_cons]
    refine (h.1 s (.refl s)).bind fun a s1 hs1 ha => ?_
    have hrest := ends_mapM hP (s := s1) fun c hc s2 hs2 => h.2 c hc s2 (hs1.trans hs2)
    exact hrest.bind fun as s2 hs2 has => ends_pure (.cons (hP s1 s2 b a hs2 ha) has)

/-! ### What is carried -/

/-- The value `v'` carries the node `x` of the value `v`, whose type lies at `r1`. -/
def Carried (w : Scope) (k : Nat) (v : ValueId) (r1 : TypeId) (n1 : TypeNode) (x : Value)
    (n2 : TypeNode) (v' : ValueId) (s : Store) : Prop :=
  ∃ x', s.valueAt v' = .ok x' ∧ s.Carries w (s.Keeps w k) v r1 n1 x n2 x'

/-- A value node that is put in carries what its contents do. -/
theorem ends_put {y : Value} (h : s.Carries w (s.Keeps w k) v r1 n1 x n2 y) :
    Ends (Store.putValue y) s (Carried w k v r1 n1 x n2) := by
  refine (ends_putValue y s).mono fun v' s' hs hv' => ⟨y, hv', ?_⟩
  exact h.mono hs.toExtends (fun _ _ _ => id) fun _ _ _ _ h => h.extends hs.toExtends

/-- The value is a byte. -/
def IsByte (w : Scope) (s : Store) (v : ValueId) (t : TypeId) : Prop :=
  ∃ b r, s.valueAt v = .ok (.fixed (.ofByte b)) ∧ w.StandsFor t r (.primitive (.fixed .nat8))

/-- Reshaping by `coerce` keeps all of a value that nests at most `n` deep, or is a byte, wherever its
    type fits plainly. -/
def Keeping (w : Scope) (form : Form) (coerce : ValueId → TypeId → TypeId → Action Store ValueId)
    (n k : Nat) : Prop :=
  ∀ v wire expected s, s.types = w.store.types → (s.OfType w form n v wire ∨ IsByte w s v wire) →
    w.Distinct wire → w.Distinct expected → w.Fits .strict wire expected →
    Ends (coerce v wire expected) s fun v' s' => s'.Keeps w k v wire v' expected

variable {coerce : ValueId → TypeId → TypeId → Action Store ValueId}

theorem resolve_of_standsFor (hw : s.types = w.store.types) (h : w.StandsFor t r1 n1) :
    w.env.resolve s t = .ok n1 :=
  (Scope.resolve_congr w.env hw t).trans h.resolve

/-! ### Lists -/

theorem ends_byteItems (bytes : List UInt8) (s : Store) :
    Ends (bytes.mapM fun b => Store.putValue (.fixed (.ofByte b))) s fun ids s' =>
      List.Forall₂ (fun b id => s'.valueAt id = .ok (.fixed (.ofByte b))) bytes ids :=
  ends_mapM (P := fun s b id => s.valueAt id = .ok (.fixed (.ofByte b)))
    (fun _ _ _ _ hs h => hs.valueAt _ _ h) fun _ _ s1 _ => ends_putValue _ s1

theorem ends_vec {e1 e2 : TypeId} (hkids : Keeping w form coerce n k)
    (hw : s.types = w.store.types) (hx : s.valueAt v = .ok x)
    (hfill : s.Fills w form (s.OfType w form n) x (.vec e1)) (hd1 : w.Distinct e1)
    (hd2 : w.Distinct e2) (hfit : w.Fits .strict e1 e2) :
    Ends (vec w.env coerce v e1 e2) s (Carried w k v r1 (.vec e1) x (.vec e2)) := by
  unfold vec
  refine ends_look hx ?_
  cases hfill with
  | @blob p bytes _ r hb hbyte =>
    obtain ⟨r2, n2, h2⟩ := hfit.standsFor hbyte
    refine ends_look (resolve_of_standsFor hw h2) ?_
    split
    · exact ends_pure ⟨_, hx, .blob p⟩
    · refine Ends.bind (ends_look hb (ends_byteItems bytes s)) fun ids s1 hs1 hids => ?_
      have hitems : Ends (ids.mapM fun item => coerce item e1 e2) s1 fun items s' =>
          List.Forall₂ (fun id u' => s'.Keeps w k id e1 u' e2) ids items := by
        refine ends_mapM (fun _ _ _ _ hs h => h.extends hs.toExtends) fun id hid s2 hs2 => ?_
        obtain ⟨b, -, hid⟩ := forall₂_partner hids id hid
        have hstored : IsByte w s2 id e1 := ⟨b, r, hs2.valueAt _ _ hid, hbyte⟩
        exact hkids id e1 e2 s2 (hs2.types.trans (hs1.types.trans hw)) (.inr hstored) hd1 hd2 hfit
      refine hitems.bind fun items s2 hs2 hitems => ends_put (.bytes (hs2.bytesAt _ _ (hs1.bytesAt _ _ hb)) ?_)
      have hstored : List.Forall₂ (fun b id => s2.valueAt id = .ok (.fixed (.ofByte b))) bytes ids :=
        hids.imp fun _ _ h => hs2.valueAt _ _ h
      exact forall₂_comp (fun b id u' hid hkept => ⟨id, hid, hkept⟩) hstored hitems
  | @vec ids _ _ hids =>
    rw [items, pure_bind]
    have hitems : Ends (ids.mapM fun item => coerce item e1 e2) s fun items s' =>
        List.Forall₂ (fun id u' => s'.Keeps w k id e1 u' e2) ids items := by
      refine ends_mapM (fun _ _ _ _ hs h => h.extends hs.toExtends) fun id hid s1 hs1 => ?_
      have htyped := (hids id hid).extends hs1.toExtends
      exact hkids id e1 e2 s1 (hs1.types.trans hw) (.inl htyped) hd1 hd2 hfit
    exact hitems.bind fun items s1 _ hitems => ends_put (.vec hitems)

/-! ### Records and variants -/

theorem ends_missing (hw : s.types = w.store.types) (h : w.Optional t) :
    Ends (missing w.env t) s fun v s' => s'.Blank w t v := by
  obtain ⟨r, n, ht⟩ := h.standsFor
  have hput : ∀ {y : Value}, n.blank? = some y →
      Ends (Store.putValue y) s fun v s' => s'.Blank w t v := fun {y} hy =>
    (ends_putValue y s).mono fun v s' _ hv => ⟨r, n, y, ht, hy, hv⟩
  unfold missing
  refine ends_look (resolve_of_standsFor hw ht) ?_
  rcases ht.optional_iff.mp h with rfl | rfl | ⟨inner, rfl⟩
  · exact hput rfl
  · exact hput rfl
  · exact hput rfl

theorem ends_record {f1 f2 : List Field} (hkids : Keeping w form coerce n k)
    (hw : s.types = w.store.types) (hx : s.valueAt v = .ok x)
    (hfill : s.Fills w form (s.OfType w form n) x (.record f1)) (h1 : w.StandsFor r1 r1 (.record f1))
    (h2 : w.StandsFor r2 r2 (.record f2)) (hd1 : w.Distinct r1) (hd2 : w.Distinct r2)
    (hrule : w.Rule .strict (w.Fits .strict) r1 (.record f1) (.record f2)) :
    Ends (record w.env coerce v f1 f2) s (Carried w k v r1 (.record f1) x (.record f2)) := by
  have hnd : (f1.map (·.label.id)).Nodup := hd1.node h1
  unfold record
  refine ends_look hx ?_
  cases hfill with
  | @record xs _ hxs =>
    cases hrule with
    | record hall =>
      refine Ends.bind (ends_mapM (P := fun s' => s'.Supplied w (s'.Keeps w k) f1 xs) ?_
        fun want hwant s1 hs1 => ?_) fun ys s1 _ hys => ends_put (.record hys)
      · intro s1 s2 want y hs h
        exact h.mono hs.toExtends (fun _ _ _ => id) fun _ _ _ _ h => h.extends hs.toExtends
      have hw1 : s1.types = w.store.types := hs1.types.trans hw
      have hdwant : w.Distinct want.type := hd2.part h2 (List.mem_map_of_mem hwant)
      rcases hall want hwant with ⟨have1, hm, hid, hfit⟩ | ⟨hopt, habsent⟩
      · have hhave := find?_id hnd hm hid
        obtain ⟨found, hfound, -, hof⟩ :=
          forall₂_find? (q := fun x : FieldValue => x.label.id = want.label.id)
            (fun f x h => by simp [h.1.id_eq]) hxs hhave
        simp only [hfound, hhave]
        refine (hkids _ _ _ s1 hw1 (.inl (hof.extends hs1.toExtends))
          (hd1.part h1 (List.mem_map_of_mem hm)) hdwant hfit).bind fun item s2 _ hitem => ends_pure ?_
        have hmem := List.mem_of_find?_eq_some hfound
        have hfid' : found.label.id = want.label.id := by simpa using List.find?_some hfound
        exact ⟨rfl, .inl ⟨have1, hm, found, hmem, hid, hfid', hitem⟩⟩
      · have hnone : f1.find? (·.label.id = want.label.id) = none := by
          rw [List.find?_eq_none]
          exact fun have1 hm => by simpa using habsent have1 hm
        simp only [hnone]
        split
        · next heq => exact absurd heq (by simp)
        · refine (ends_missing hw1 hopt).bind fun item s2 _ hitem => ends_pure ?_
          exact ⟨rfl, .inr ⟨habsent, hitem⟩⟩

theorem ends_variant {f1 f2 : List Field} (hkids : Keeping w form coerce n k)
    (hw : s.types = w.store.types) (hx : s.valueAt v = .ok x)
    (hfill : s.Fills w form (s.OfType w form n) x (.variant f1))
    (h1 : w.StandsFor r1 r1 (.variant f1)) (h2 : w.StandsFor r2 r2 (.variant f2))
    (hd1 : w.Distinct r1) (hd2 : w.Distinct r2)
    (hrule : w.Rule .strict (w.Fits .strict) r1 (.variant f1) (.variant f2)) :
    Ends (variant coerce v f1 f2) s (Carried w k v r1 (.variant f1) x (.variant f2)) := by
  have hnd1 : (f1.map (·.label.id)).Nodup := hd1.node h1
  have hnd2 : (f2.map (·.label.id)).Nodup := hd2.node h2
  unfold variant
  refine ends_look hx ?_
  cases hfill with
  | @variant _ index have1 field hget hlabel hof =>
    cases hrule with
    | variant hall =>
      have hm := List.mem_of_getElem? hget
      obtain ⟨want, hwant, hid, hfit⟩ := hall have1 hm
      have hwid : want.label.id = field.label.id := hid.trans hlabel.id_eq.symm
      obtain ⟨place, hplace⟩ : ∃ place, f2.findIdx? (·.label.id = field.label.id) = some place := by
        rw [← Option.isSome_iff_exists, List.findIdx?_isSome, List.any_eq_true]
        exact ⟨want, hwant, by simpa using hwid⟩
      have hfind := find?_id hnd2 hwant hwid
      simp only [find?_id hnd1 hm hlabel.id_eq.symm, hplace, hfind]
      refine (hkids _ _ _ s hw (.inl hof) (hd1.part h1 (List.mem_map_of_mem hm))
        (hd2.part h2 (List.mem_map_of_mem hwant)) hfit).bind fun item s1 _ hitem => ends_put ?_
      exact .variant hget (getElem?_findIdx? hplace hfind) hid.symm rfl hitem

/-! ### One level -/

theorem ends_widen (hx : s.valueAt v = .ok x)
    (hfill : s.Fills w form (s.OfType w form n) x (.primitive .nat)) :
    Ends (widen v) s (Carried w k v r1 (.primitive .nat) x (.primitive .int)) := by
  unfold widen
  refine ends_look hx ?_
  cases hfill with
  | @nat p bytes hb hnum =>
    obtain ⟨wide, hwide, hwnum, -⟩ := Leb128.widen_isNumber hnum
    have hread : Leb128.readLength wide = .ok wide.length := by
      simpa using Leb128.readLength_append hwnum []
    have hnumber : Ends (Store.putNumber wide) s fun p s' => s'.bytesAt p = .ok wide := by
      refine ends_ofExcept hread ?_
      rw [if_neg (by simp)]
      exact ends_putBytes wide s
    refine ends_look hb (ends_ofExcept hwide (hnumber.bind fun q s1 hs1 hq => ends_put ?_))
    exact .widen (hs1.bytesAt _ _ hb) hwide hq

theorem nodes_reserved (n1 : TypeNode) :
    nodes w.env coerce v r1 n1 (.primitive .reserved) = Store.putValue .reserved := by
  cases n1 with
  | primitive p => cases p <;> rfl
  | _ => rfl

theorem nodes_same (p : Primitive) (hp : p ≠ .reserved) :
    nodes w.env coerce v r1 (.primitive p) (.primitive p) = pure v := by
  cases p <;> first | rfl | exact absurd rfl hp | exact if_pos rfl

/-- Where no `opt` is expected, the parts are reshaped one level down. A byte has no parts. -/
theorem ends_nodes (hkids : (∀ b, x ≠ .fixed b) → Keeping w form coerce n k)
    (hw : s.types = w.store.types) (hx : s.valueAt v = .ok x)
    (hfill : s.Fills w form (s.OfType w form n) x n1) (h1 : w.StandsFor r1 r1 n1)
    (h2 : w.StandsFor r2 r2 n2) (hd1 : w.Distinct r1) (hd2 : w.Distinct r2)
    (hrule : w.Rule .strict (w.Fits .strict) r1 n1 n2) (hopt : ∀ i, n2 ≠ .opt i) :
    Ends (nodes w.env coerce v r1 n1 n2) s (Carried w k v r1 n1 x n2) := by
  cases hrule with
  | reserved =>
    rw [nodes_reserved]
    exact ends_put (.reserved n1 x)
  | empty => cases hfill
  | widen => exact ends_widen hx hfill
  | primitive p =>
    by_cases hp : p = .reserved
    · subst hp
      rw [nodes_reserved]
      exact ends_put (.reserved _ x)
    · rw [nodes_same p hp]
      exact ends_pure ⟨x, hx, .primitive p x⟩
  | vec hfit =>
    have hbelow := hkids (by rintro b rfl; cases hfill)
    exact ends_vec hbelow hw hx hfill (hd1.part h1 List.mem_cons_self)
      (hd2.part h2 List.mem_cons_self) hfit
  | null => exact absurd rfl (hopt _)
  | opt => exact absurd rfl (hopt _)
  | lift => exact absurd rfl (hopt _)
  | special => exact absurd rfl (hopt _)
  | record hall =>
    have hbelow := hkids (by rintro b rfl; cases hfill)
    exact ends_record hbelow hw hx hfill h1 h2 hd1 hd2 (.record hall)
  | variant hall =>
    have hbelow := hkids (by rintro b rfl; cases hfill)
    exact ends_variant hbelow hw hx hfill h1 h2 hd1 hd2 (.variant hall)
  | func => exact ends_pure ⟨x, hx, .func _ _ x⟩
  | service => exact ends_pure ⟨x, hx, .service _ _ x⟩

/-- Where an `opt` is expected, content stays content, and a value that is no `opt` becomes content. -/
theorem ends_opt (hkids : (∀ b, x ≠ .fixed b) → Keeping w form coerce n k)
    (hw : s.types = w.store.types) (hx : s.valueAt v = .ok x)
    (hfill : s.Fills w form (s.OfType w form n) x n1) (h1 : w.StandsFor r1 r1 n1)
    (h2 : w.StandsFor r2 r2 (.opt inner)) (hd1 : w.Distinct r1) (hd2 : w.Distinct r2)
    (hrule : w.Rule .strict (w.Fits .strict) r1 n1 (.opt inner))
    (hlift : ¬ w.Optional inner → w.Fits .strict r1 inner →
      Ends (coerce v r1 inner) s fun v' s' => s'.Keeps w k v r1 v' inner) :
    Ends (opt w.env coerce v r1 n1 inner) s (Carried w k v r1 n1 x (.opt inner)) := by
  cases hrule with
  | empty => cases hfill
  | null =>
    cases hfill with
    | null => exact ends_put (.null inner)
  | @opt inner1 _ hfit =>
    have hbelow := hkids (by rintro b rfl; cases hfill)
    unfold opt
    refine ends_look hx ?_
    cases hfill with
    | none => exact ends_put (.none inner1 inner)
    | some hof =>
      refine (ends_orNone (hbelow _ _ _ s hw (.inl hof) (hd1.part h1 List.mem_cons_self)
        (hd2.part h2 List.mem_cons_self) hfit)).bind fun o s1 _ ho => ?_
      obtain ⟨v', rfl, hkept⟩ := ho
      exact ends_put (.some hkept)
  | lift hinner hfit =>
    -- What may be missing would fit only what may be missing too, so this is no `null` and no `opt`.
    have hbare : ¬ w.Optional r1 := fun h => hinner (hfit.optional h)
    rw [h1.optional_iff] at hbare
    have hnull : n1 ≠ .primitive .null := fun h => hbare (.inl h)
    have hopt : ∀ i, n1 ≠ .opt i := fun i h => hbare (.inr (.inr ⟨i, h⟩))
    unfold opt
    split
    · exact absurd rfl hnull
    · exact absurd rfl (hopt _)
    · have hasked : w.env.isOptional s inner = false := by
        rw [← Bool.not_eq_true]
        simpa only [Scope.Optional, Env.isOptional, Scope.resolve_congr w.env hw] using hinner
      refine ends_look rfl ?_
      rw [hasked, if_neg (by simp)]
      refine (ends_orNone (hlift hinner hfit)).bind fun o s1 _ ho => ?_
      obtain ⟨v', rfl, hkept⟩ := ho
      exact ends_put (.lift hnull hopt hkept)
  | special h => exact absurd h (by simp)

/-! ### The whole -/

/-- One step of a reshaping, from the nodes that the two types stand for. -/
theorem ends_within (hw : s.types = w.store.types) (hx : s.valueAt v = .ok x)
    (h1 : w.StandsFor wire r1 n1) (hfit : w.Fits .strict wire expected)
    (hnodes : ∀ r2 n2, w.StandsFor expected r2 n2 → w.Rule .strict (w.Fits .strict) r1 n1 n2 →
      Ends (nodes w.env (within w.env fuel) v r1 n1 n2) s (Carried w k v r1 n1 x n2)) :
    Ends (within w.env (fuel + 1) v wire expected) s fun v' s' =>
      s'.Keeps w (k + 1) v wire v' expected := by
  obtain ⟨r2, n2, h2⟩ := hfit.standsFor h1
  have hsame : r1 = r2 → Ends (pure v) s fun v' s' => s'.Keeps w (k + 1) v wire v' expected :=
    fun heq => ends_pure ⟨r1, n1, r2, n2, h1, h2, .inl ⟨heq, rfl⟩⟩
  have hnode : ∀ {t : TypeId}, s.typeAt t = w.store.typeAt t := by
    intro t
    simp only [Store.typeAt, hw]
  unfold within
  split
  · next heq =>
    subst heq
    exact hsame (h1.root_eq h2)
  · next hne =>
    refine ends_look ((Scope.follow_congr w.env hw wire).trans h1.follow) ?_
    refine ends_look ((Scope.follow_congr w.env hw expected).trans h2.follow) ?_
    split
    · next heq => exact hsame heq
    · refine ends_look (hnode.trans h1.node) (ends_look (hnode.trans h2.node) ?_)
      refine (hnodes r2 n2 h2 (hfit.rule hne h1 h2)).mono fun v' s' hs hv' => ?_
      obtain ⟨x', hx', hcarries⟩ := hv'
      exact ⟨r1, n1, r2, n2, h1, h2, .inr ⟨x, x', hs.valueAt _ _ hx, hx', hcarries⟩⟩

/-- Two steps go one level down: the first of them may only put an `opt` around the value. -/
theorem ends_step (fuel : Nat)
    (hkids : (∀ b, x ≠ .fixed b) → ∀ g, fuel ≤ g → Keeping w form (within w.env g) n g)
    (hw : s.types = w.store.types) (hx : s.valueAt v = .ok x) (h1 : w.StandsFor wire r1 n1)
    (hfill : s.Fills w form (s.OfType w form n) x n1) (hd1 : w.Distinct wire)
    (hd2 : w.Distinct expected) (hfit : w.Fits .strict wire expected) : ∀ f, fuel + 2 ≤ f →
    Ends (within w.env f v wire expected) s fun v' s' => s'.Keeps w f v wire v' expected
  | 0, hf | 1, hf => by omega
  | f + 2, hf => by
    refine ends_within hw hx h1 hfit fun r2 n2 h2 hrule => ?_
    have hkids1 : (∀ b, x ≠ .fixed b) → Keeping w form (within w.env (f + 1)) n (f + 1) :=
      fun hx => hkids hx (f + 1) (by omega)
    have hkids2 : (∀ b, x ≠ .fixed b) → Keeping w form (within w.env f) n f :=
      fun hx => hkids hx f (by omega)
    by_cases hopt : ∃ inner, n2 = .opt inner
    · obtain ⟨inner, rfl⟩ := hopt
      rw [nodes_opt]
      refine ends_opt hkids1 hw hx hfill h1.root h2.root (hd1.root h1) (hd2.root h2) hrule
        fun hinner hfit' => ends_within hw hx h1.root hfit' fun r3 n3 h3 hrule' => ?_
      rw [h3.optional_iff] at hinner
      exact ends_nodes hkids2 hw hx hfill h1.root h3.root (hd1.root h1)
        ((hd2.part h2 List.mem_cons_self).root h3) hrule' fun i hi => hinner (.inr (.inr ⟨i, hi⟩))
    · exact ends_nodes hkids1 hw hx hfill h1.root h2.root (hd1.root h1) (hd2.root h2) hrule
        fun i hi => hopt ⟨i, hi⟩

theorem within_keeping : ∀ n f, 2 * n + 2 ≤ f → Keeping w form (within w.env f) n f := by
  -- A byte is reshaped by two steps, whatever is left of the budget.
  have hbyte : ∀ f, 2 ≤ f → ∀ v wire expected s, s.types = w.store.types → IsByte w s v wire →
      w.Distinct wire → w.Distinct expected → w.Fits .strict wire expected →
      Ends (within w.env f v wire expected) s fun v' s' => s'.Keeps w f v wire v' expected := by
    intro f hf v wire expected s hw ⟨b, r, hx, h1⟩ hd1 hd2 hfit
    have hfill : s.Fills w form (s.OfType w form 0) (.fixed (.ofByte b)) (.primitive (.fixed .nat8)) :=
      .fixed (.ofByte b)
    exact ends_step 0 (fun hx => absurd rfl (hx (.ofByte b))) hw hx h1 hfill hd1 hd2 hfit f hf
  intro n
  induction n with
  | zero =>
    rintro f hf v wire expected s hw (hv | hv) hd1 hd2 hfit
    · exact hv.elim
    · exact hbyte f (by omega) v wire expected s hw hv hd1 hd2 hfit
  | succ n ih =>
    rintro f hf v wire expected s hw (⟨r1, n1, h1, x, hx, hfill⟩ | hv) hd1 hd2 hfit
    · exact ends_step (2 * n + 2) (fun _ => ih) hw hx h1 hfill hd1 hd2 hfit f (by omega)
    · exact hbyte f (by omega) v wire expected s hw hv hd1 hd2 hfit

/-! ### How deep a typed value nests -/

theorem graded_ofType (s : Store) (w : Scope) (form : Form) :
    Graded fun depth (p : ValueId × TypeId) => s.OfType w form depth p.1 p.2 where
  zero _ h := h
  succ _ _ h := h.succ
  part depth := by
    rintro ⟨v, t⟩ ⟨r, n, ht, x, hx, hfill⟩ hnot
    by_contra hnone
    push Not at hnone
    exact hnot ⟨r, n, ht, x, hx, hfill.mono (.refl s) (fun _ _ _ => id) (.refl form)
      fun u e hu => hnone (u, e) hu⟩

/-- A typed value nests no deeper than there are pairs of a value node and a type node, since on the way
    down no value is met twice at one type. -/
theorem ofType_bounded {env : Env} {depth : Nat} (h : s.OfType ⟨s, env⟩ form depth v t) :
    s.OfType ⟨s, env⟩ form (s.values.size * s.types.size) v t := by
  have hall : ∀ depth (p : ValueId × TypeId), s.OfType ⟨s, env⟩ form depth p.1 p.2 →
      p ∈ s.valueIds ×ˢ s.typeIds := by
    rintro (_ | depth) ⟨v, t⟩ h
    · exact h.elim
    · obtain ⟨r, n, ht, x, hx, -⟩ := h
      obtain ⟨m, hm, -⟩ := ht.typeAt
      exact List.mem_product.mpr ⟨Store.mem_valueIds hx, Store.mem_typeIds hm⟩
  have hbound := (graded_ofType s ⟨s, env⟩ form).bounded _ hall (a := (v, t)) h
  rwa [List.length_product, Store.length_valueIds, Store.length_typeIds] at hbound

theorem steps_enough_pairs (s : Store) : 2 * (s.values.size * s.types.size) + 2 ≤ steps s := by
  unfold steps
  generalize s.limit.getD 0 / Store.valueCharge = extra
  have hvalues : s.values.size + 1 ≤ (s.values.size + extra + 2) ^ 2 := by
    nlinarith [Nat.zero_le s.values.size, Nat.zero_le extra]
  have htypes : s.types.size + 1 ≤ (s.types.size + 1) ^ 2 := by
    nlinarith [Nat.zero_le s.types.size]
  have hpairs := Nat.mul_le_mul hvalues htypes
  calc 2 * (s.values.size * s.types.size) + 2
      ≤ 2 * ((s.values.size + 1) * (s.types.size + 1)) := by
        nlinarith [Nat.zero_le s.values.size, Nat.zero_le s.types.size]
    _ ≤ 2 * ((s.values.size + extra + 2) ^ 2 * (s.types.size + 1) ^ 2) := by omega
    _ = 2 * (s.values.size + extra + 2) ^ 2 * (s.types.size + 1) ^ 2 := by ring

/-- A value whose type fits plainly is reshaped, unless the store is full, and keeps all that it has. -/
theorem ends_coerce (env : Env) (hv : s.WellTyped env form v wire)
    (hd1 : Scope.Distinct ⟨s, env⟩ wire) (hd2 : Scope.Distinct ⟨s, env⟩ expected)
    (hfit : Scope.Fits ⟨s, env⟩ .strict wire expected) :
    Ends (TypedWire.coerce env v wire expected) s fun v' s' =>
      ∃ k, s'.Keeps ⟨s', env⟩ k v wire v' expected := by
  obtain ⟨depth, hv⟩ := hv
  have hkeeping : Keeping ⟨s, env⟩ form (within env (steps s)) (s.values.size * s.types.size) (steps s) :=
    within_keeping _ _ (steps_enough_pairs s)
  have hrun := hkeeping v wire expected s rfl (.inl (ofType_bounded hv)) hd1 hd2 hfit
  have hcoerce : TypedWire.coerce env v wire expected s = within env (steps s) v wire expected s := rfl
  unfold Ends Runs
  rw [hcoerce]
  refine hrun.mono fun v' s' hs hkept => ⟨steps s, hkept.mono (.refl s') fun t r n ht => ?_⟩
  exact ht.extends (Scope.extends_store env hs.toExtends)

end TypedWire.Coerce
