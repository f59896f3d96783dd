import TypedWire.Proofs.Schema.Leftover
import TypedWire.Proofs.Value.Adapts
import TypedWire.Proofs.Value.Lossless
import TypedWire.Proofs.Value.Meets

/-! What becomes of a value under an `opt` whose type does not fit. The check goes by the types, and
    reshaping by the value: it ends if and only if the value can be adapted. So content is left out where
    it shows that its type does not fit, and stays where it hides that. -/

namespace TypedWire

open TypedWire.Action

theorem Scope.resolve_fault {env : Env} {s : Store} {t : TypeId} {e : Fault}
    (h : env.resolve s t = .error e) : e = .invalid := by
  rcases Except.bind_eq_error.mp h with h | ⟨r, -, h⟩
  · exact Scope.follow_fault h
  · exact Scope.typeAt_fault h

namespace Coerce

variable {w : Scope} {form : Form} {s s1 base : Store} {v : ValueId} {x : Value} {n1 n2 : TypeNode}
variable {t t' r1 r2 e1 e2 inner : TypeId} {n fuel : Nat} {α β : Type} {p q : Prop}
variable {coerce : ValueId → TypeId → TypeId → Action Store ValueId}

/-! ### Runs that decide -/

/-- The faults of a run that is to end only if `p` holds. -/
def Refused (p : Prop) (e : Fault) : Prop := e = .invalid ∧ ¬ p ∨ e = .storeFull

/-- The run decides `p`: it ends if `p` holds and finds a mismatch if not, unless the store is full. -/
def Decides (p : Prop) (x : Action Store α) (s : Store) : Prop := Meets (Refused p) x s fun _ _ => p

theorem Decides.congr {x : Action Store α} (h : Decides p x s) (hpq : p ↔ q) : Decides q x s :=
  propext hpq ▸ h

theorem decides_pure {a : α} (h : p) : Decides p (pure a) s := meets_pure h

theorem decides_fail (h : ¬ p) : Decides p (fail .invalid : Action Store α) s :=
  meets_fail (.inl ⟨rfl, h⟩)

/-- A run that only a full store can end early decides what holds. -/
theorem decides_true {x : Action Store α} {post : α → Store → Prop} (h : Meets (· = .storeFull) x s post)
    (hp : p) : Decides p x s :=
  (h.mono fun _ _ _ _ => hp).weaken fun _ => .inr

theorem meets_put (x : Value) (s : Store) :
    Meets (· = .storeFull) (Store.putValue x) s fun v s' => s'.valueAt v = .ok x :=
  meets_putValue x fun _ => rfl

/-- What is made of the result decides nothing. -/
theorem Decides.bind {x : Action Store α} {f : α → Action Store β} (h : Decides p x s)
    (hf : ∀ a s1, p → Decides p (f a) s1) : Decides p (x >>= f) s :=
  Meets.bind h fun a s1 _ hp => hf a s1 hp

theorem Decides.put {x : Action Store α} (h : Decides p x s) (f : α → Value) :
    Decides p (do Store.putValue (f (← x))) s :=
  h.bind fun _ s1 hp => decides_true (meets_put _ s1) hp

theorem decides_after {x : Action Store α} {f : α → Action Store β} {post : α → Store → Prop}
    (h : Meets (· = .storeFull) x s post)
    (hf : ∀ a s1, s.Grows s1 → post a s1 → Decides p (f a) s1) : Decides p (x >>= f) s :=
  (h.weaken fun _ => .inr).bind hf

theorem decides_mapM {g : β → Action Store α} {P : β → Prop} {bs : List β}
    (h : ∀ b ∈ bs, ∀ s1, s.Grows s1 → Decides (P b) (g b) s1) :
    Decides (∀ b ∈ bs, P b) (bs.mapM g) s := by
  have hall : Meets (Refused (∀ b ∈ bs, P b)) (bs.mapM g) s fun as _ =>
      List.Forall₂ (fun b _ => P b) bs as := by
    refine meets_mapM (P := fun _ b _ => P b) (fun _ _ _ _ _ => id) fun b hb s1 hs1 => ?_
    exact (h b hb s1 hs1).weaken fun e => Or.imp_left fun he => ⟨he.1, fun hp => he.2 (hp b hb)⟩
  refine hall.mono fun as s' _ has b hb => ?_
  obtain ⟨_, -, hp⟩ := forall₂_partner has.flip b hb
  exact hp

/-- Reshaping by `coerce` decides whether a value of the one type can be adapted to the other. The value
    lies in `base`, to which more has been added since. -/
def Judges (w : Scope) (form : Form) (coerce : ValueId → TypeId → TypeId → Action Store ValueId)
    (n : Nat) : Prop :=
  ∀ base v t t' s, base.types = w.store.types → base.Grows s →
    (base.OfType w form n v t ∨ IsByte w base v t) → w.Distinct t → w.Distinct t' →
    Decides (base.Adapts w v t t') (coerce v t t') s

/-! ### Lists -/

theorem meets_bytes (bytes : List UInt8) (s : Store) :
    Meets (· = .storeFull) (bytes.mapM fun b => Store.putValue (.fixed (.ofByte b))) s fun ids s' =>
      List.Forall₂ (fun b id => s'.valueAt id = .ok (.fixed (.ofByte b))) bytes ids :=
  meets_mapM (P := fun s b id => s.valueAt id = .ok (.fixed (.ofByte b)))
    (fun _ _ _ _ hs h => hs.valueAt _ _ h) fun _ _ s1 _ => meets_put _ s1

/-- A byte string is taken apart unless bytes are expected; its bytes are all reshaped or none is. -/
theorem judges_blob {span : Span} {bytes : List UInt8} (hkids : Judges w form coerce n)
    (hw : base.types = w.store.types) (hs : base.Grows s) (hx : base.valueAt v = .ok (.blob span))
    (hb : base.bytesAt span = .ok bytes) (hbyte : w.StandsFor e1 r1 (.primitive (.fixed .nat8)))
    (hd1 : w.Distinct e1) (hd2 : w.Distinct e2) :
    Decides (base.Adapting w (base.Adapts w) v (.vec e1) (.vec e2)) (vec w.env coerce v e1 e2) s := by
  have htypes := hs.types.trans hw
  rw [Store.adapting_blob_iff hx hb]
  unfold vec
  refine meets_known (hs.valueAt _ _ hx) ?_
  refine meets_look (fun e he => .inl ⟨Scope.resolve_fault he, fun ⟨⟨r, n, h⟩, _⟩ => ?_⟩) fun node hnode => ?_
  · exact absurd ((resolve_of_standsFor htypes h).symm.trans he) (by simp)
  obtain ⟨r, h⟩ := standsFor_of_resolve htypes hnode
  split
  · next hnat8 =>
    subst hnat8
    exact decides_pure ⟨⟨r, _, h⟩, fun _ => .of_justified ⟨r1, _, r, _, hbyte, h, .primitive _⟩⟩
  · refine decides_after (meets_known (hs.bytesAt _ _ hb) (meets_bytes bytes s)) fun ids s1 hs1 hids => ?_
    have hitems : Decides (∀ id ∈ ids, w.Fits .lenient e1 e2)
        (ids.mapM fun item => coerce item e1 e2) s1 := by
      refine decides_mapM fun id hid s2 hs2 => ?_
      obtain ⟨b, -, hid⟩ := forall₂_partner hids id hid
      exact (hkids s1 id e1 e2 s2 (hs1.types.trans htypes) hs2 (.inr ⟨b, r1, hid, hbyte⟩) hd1 hd2).congr
        (Store.adapts_byte_iff hbyte)
    refine (hitems.congr ⟨fun hall => ⟨⟨r, _, h⟩, fun hne => ?_⟩, fun hfit id hid => hfit.2 ?_⟩).put _
    · obtain ⟨b, hb⟩ := List.exists_mem_of_ne_nil _ hne
      obtain ⟨id, hid, -⟩ := forall₂_partner hids.flip b hb
      exact hall id hid
    · obtain ⟨b, hb, -⟩ := forall₂_partner hids id hid
      exact List.ne_nil_of_mem hb

theorem judges_vec (hkids : Judges w form coerce n) (hw : base.types = w.store.types) (hs : base.Grows s)
    (hx : base.valueAt v = .ok x) (hfill : base.Fills w form (base.OfType w form n) x (.vec e1))
    (hd1 : w.Distinct e1) (hd2 : w.Distinct e2) :
    Decides (base.Adapting w (base.Adapts w) v (.vec e1) (.vec e2)) (vec w.env coerce v e1 e2) s := by
  cases hfill with
  | blob hb hbyte => exact judges_blob hkids hw hs hx hb hbyte hd1 hd2
  | @vec ids _ _ hids =>
    rw [Store.adapting_vec_iff hx]
    unfold vec
    refine meets_known (hs.valueAt _ _ hx) ?_
    rw [items, pure_bind]
    refine Decides.put (decides_mapM fun id hid s1 hs1 => ?_) _
    exact hkids base id e1 e2 s1 hw (hs.trans hs1) (.inl (hids id hid)) hd1 hd2

/-! ### Records and variants -/

theorem decides_missing (hw : s.types = w.store.types) :
    Decides (w.Optional t) (missing w.env t) s := by
  unfold missing
  refine meets_look (fun e he => .inl ⟨Scope.resolve_fault he, fun hopt => ?_⟩) fun node hnode => ?_
  · obtain ⟨r, n, ht⟩ := hopt.standsFor
    exact absurd ((resolve_of_standsFor hw ht).symm.trans he) (by simp)
  · obtain ⟨r, ht⟩ := standsFor_of_resolve hw hnode
    split
    · exact decides_true (meets_put _ s) (ht.optional_iff.mpr (.inr (.inr ⟨_, rfl⟩)))
    · exact decides_true (meets_put _ s) (ht.optional_iff.mpr (.inl rfl))
    · exact decides_true (meets_put _ s) (ht.optional_iff.mpr (.inr (.inl rfl)))
    · next hopt hnull hres =>
      refine decides_fail fun h => ?_
      rcases ht.optional_iff.mp h with rfl | rfl | ⟨i, rfl⟩
      · exact hnull rfl
      · exact hres rfl
      · exact hopt i rfl

theorem judges_record {f1 f2 : List Field} (hkids : Judges w form coerce n)
    (hw : base.types = w.store.types) (hs : base.Grows s) (hx : base.valueAt v = .ok x)
    (hfill : base.Fills w form (base.OfType w form n) x (.record f1)) (h1 : w.StandsFor t r1 (.record f1))
    (h2 : w.StandsFor t' r2 (.record f2)) (hd1 : w.Distinct t) (hd2 : w.Distinct t') :
    Decides (base.Adapting w (base.Adapts w) v (.record f1) (.record f2))
      (record w.env coerce v f1 f2) s := by
  have hnd : (f1.map (·.label.id)).Nodup := hd1.node h1
  unfold record
  refine meets_known (hs.valueAt _ _ hx) ?_
  cases hfill with
  | @record xs _ hxs =>
    have hndx : (xs.map (·.label.id)).Nodup := form.sameLabel_ids hxs ▸ hnd
    rw [Store.adapting_record_iff hx]
    refine Decides.put (decides_mapM fun want hwant s1 hs1 => ?_) _
    have hdwant : w.Distinct want.type := hd2.part h2 (List.mem_map_of_mem hwant)
    cases hhave : f1.find? (·.label.id = want.label.id) with
    | none =>
      have habsent : ∀ have1 ∈ f1, have1.label.id ≠ want.label.id := by
        simpa using List.find?_eq_none.mp hhave
      rw [Store.covers_iff_of_absent habsent]
      split
      · next heq => exact absurd heq (by simp)
      · exact (decides_missing (hs1.types.trans (hs.types.trans hw))).bind fun _ _ => decides_pure
    | some have1 =>
      have hm := List.mem_of_find?_eq_some hhave
      have hid : have1.label.id = want.label.id := by simpa using List.find?_some hhave
      obtain ⟨field, hfield, hlabel, hof⟩ := forall₂_partner hxs.flip have1 hm
      have hfid : field.label.id = want.label.id := hlabel.id_eq.trans hid
      have hfound : xs.find? (·.label.id = want.label.id) = some field := by
        rw [← hfid]
        exact find?_key (fun x : FieldValue => x.label.id) hndx hfield
      simp only [hfound]
      rw [Store.covers_iff_of_mem hnd hndx hm hid hfield hfid]
      exact (hkids base field.value _ _ s1 hw (hs.trans hs1) (.inl hof)
        (hd1.part h1 (List.mem_map_of_mem hm)) hdwant).bind fun _ _ => decides_pure

theorem judges_variant {f1 f2 : List Field} (hkids : Judges w form coerce n)
    (hw : base.types = w.store.types) (hs : base.Grows s) (hx : base.valueAt v = .ok x)
    (hfill : base.Fills w form (base.OfType w form n) x (.variant f1)) (h1 : w.StandsFor t r1 (.variant f1))
    (h2 : w.StandsFor t' r2 (.variant f2)) (hd1 : w.Distinct t) (hd2 : w.Distinct t') :
    Decides (base.Adapting w (base.Adapts w) v (.variant f1) (.variant f2)) (variant coerce v f1 f2) s := by
  have hnd1 : (f1.map (·.label.id)).Nodup := hd1.node h1
  have hnd2 : (f2.map (·.label.id)).Nodup := hd2.node h2
  unfold variant
  refine meets_known (hs.valueAt _ _ hx) ?_
  cases hfill with
  | @variant _ index have1 field hget hlabel hof =>
    have hm := List.mem_of_getElem? hget
    have hid := hlabel.id_eq.symm
    simp only [find?_id hnd1 hm hid]
    split
    · next _ type place want htype _ hfound =>
      obtain rfl := Option.some.inj htype
      have hwant := List.mem_of_find?_eq_some hfound
      have hwid : want.label.id = field.label.id := by simpa using List.find?_some hfound
      rw [Store.adapting_variant_iff hx hnd1 hnd2 hm hid hwant hwid]
      exact (hkids base field.value _ _ s hw hs (.inl hof) (hd1.part h1 (List.mem_map_of_mem hm))
        (hd2.part h2 (List.mem_map_of_mem hwant))).put _
    · next hnone =>
      refine decides_fail fun hadapting => ?_
      obtain ⟨want, hwant, hwid⟩ := hadapting.active hx
      obtain ⟨place, hplace⟩ : ∃ place, f2.findIdx? (·.label.id = field.label.id) = some place := by
        rw [← Option.isSome_iff_exists, List.findIdx?_isSome, List.any_eq_true]
        exact ⟨want, hwant, by simpa using hwid⟩
      exact hnone _ _ _ rfl hplace (find?_id hnd2 hwant hwid)

/-! ### One level -/

/-- What is known of a run from two sides. -/
theorem Ends.meets {y : Action Store α} {post other : α → Store → Prop} (h : Ends y s post)
    (hgrows : Leads Store.Grows y s other) : Meets (· = .storeFull) y s post := by
  rcases Runs.ends h with ⟨a, s', hrun, ha⟩ | ⟨e, s', hrun, he⟩
  · exact runs_of_ok hrun ha
  · exact runs_of_error hrun ⟨hgrows.error hrun, he⟩

theorem meets_widen (hx : s.valueAt v = .ok x)
    (hfill : s.Fills w form (s.OfType w form n) x (.primitive .nat)) :
    Meets (· = .storeFull) (widen v) s (Carried w 0 v ⟨0⟩ (.primitive .nat) x (.primitive .int)) := by
  have hnode : s.OfNodeWith w form (fun _ _ => True) 0 v (.primitive .nat) := by
    cases hfill with
    | nat hb hnum => exact ⟨_, hx, .nat hb hnum, nofun⟩
  exact (ends_widen hx hfill).meets (leads_widen (n := 0) hnode)

/-- Where no `opt` is expected, the parts are reshaped one level down. -/
theorem judges_nodes (hkids : (∀ b, x ≠ .fixed b) → Judges w form coerce n)
    (hw : base.types = w.store.types) (hs : base.Grows s) (hx : base.valueAt v = .ok x)
    (hfill : base.Fills w form (base.OfType w form n) x n1) (h1 : w.StandsFor t r1 n1)
    (h2 : w.StandsFor t' r2 n2) (hd1 : w.Distinct t) (hd2 : w.Distinct t') (hopt : ∀ i, n2 ≠ .opt i) :
    Decides (base.Adapting w (base.Adapts w) v n1 n2) (nodes w.env coerce v r1 n1 n2) s := by
  unfold nodes
  split
  · exact decides_true (meets_put _ s) (.reserved n1)
  · have hfill' := hfill.mono hs.toExtends (fun _ _ _ => id) (.refl form)
      fun _ _ hof => hof.extends hs.toExtends
    exact decides_true (meets_widen (hs.valueAt _ _ hx) hfill') .widen
  · next hres hwiden =>
    split
    · next heq =>
      subst heq
      exact decides_pure (.primitive _)
    · next hne =>
      refine decides_fail fun hadapting => ?_
      cases hadapting with
      | reserved => exact hres rfl
      | widen => exact hwiden rfl rfl
      | primitive => exact hne rfl
  · exact absurd rfl (hopt _)
  · exact judges_vec (hkids (by rintro b rfl; cases hfill)) hw hs hx hfill
      (hd1.part h1 List.mem_cons_self) (hd2.part h2 List.mem_cons_self)
  · exact judges_record (hkids (by rintro b rfl; cases hfill)) hw hs hx hfill h1 h2 hd1 hd2
  · exact judges_variant (hkids (by rintro b rfl; cases hfill)) hw hs hx hfill h1 h2 hd1 hd2
  · exact decides_pure (.func _ _)
  · exact decides_pure (.service _ _)
  · next hres _ hwiden hprim hvec hrec hvar hfunc hserv =>
    refine decides_fail fun hadapting => ?_
    cases hadapting with
    | reserved => exact hres rfl
    | widen => exact hwiden rfl rfl
    | primitive => exact hprim _ _ rfl rfl
    | opt => exact hopt _ rfl
    | blob | vec => exact hvec _ _ rfl rfl
    | record => exact hrec _ _ rfl rfl
    | variant => exact hvar _ _ rfl rfl
    | func => exact hfunc _ _ rfl rfl
    | service => exact hserv _ _ rfl rfl

/-- What is made of an `opt`: it has the content that can be adapted, and no other. -/
def Held (w : Scope) (base : Store) (x : Value) (e inner : TypeId) (v' : ValueId) (s : Store) : Prop :=
  (s.valueAt v' = .ok (.opt none) ∧ ∀ c, x = .opt (some c) → ¬ base.Adapts w c e inner) ∨
  ∃ c c', x = .opt (some c) ∧ s.valueAt v' = .ok (.opt (some c')) ∧ base.Adapts w c e inner

/-- A mismatch is swallowed, so what is left is whether it was found. -/
theorem decides_orNone {y : Action Store ValueId} (h : Decides p y s) :
    Meets (· = .storeFull) (orNone y) s fun o _ => (∃ u, o = some u ∧ p) ∨ o = none ∧ ¬ p := by
  refine (meets_orNone h fun e => Or.imp_left And.left).mono fun o _ _ => Or.imp_right ?_
  exact fun ⟨hnone, hrefused⟩ => ⟨hnone, (hrefused.resolve_right (by simp)).2⟩

theorem meets_held (r1 : TypeId) (hkids : Judges w form coerce n) (hw : base.types = w.store.types)
    (hs : base.Grows s) (hx : base.valueAt v = .ok x)
    (hfill : base.Fills w form (base.OfType w form n) x (.opt e1)) (hd1 : w.Distinct e1)
    (hd2 : w.Distinct inner) :
    Meets (· = .storeFull) (opt w.env coerce v r1 (.opt e1) inner) s (Held w base x e1 inner) := by
  unfold opt
  refine meets_known (hs.valueAt _ _ hx) ?_
  cases hfill with
  | none => exact (meets_put _ s).mono fun v' s' _ hv' => .inl ⟨hv', by simp⟩
  | @some c _ hof =>
    refine (decides_orNone (hkids base c e1 inner s hw hs (.inl hof) hd1 hd2)).bind fun o s1 _ ho => ?_
    refine (meets_put _ s1).mono fun v' s' _ hv' => ?_
    rcases ho with ⟨u, rfl, hadapts⟩ | ⟨rfl, hnot⟩
    · exact .inr ⟨c, u, rfl, hv', hadapts⟩
    · refine .inl ⟨hv', ?_⟩
      rintro _ ⟨⟩
      exact hnot

/-- Everything is reshaped to an `opt`, unless the store is full. -/
theorem meets_opt (hkids : (∀ b, x ≠ .fixed b) → Judges w form coerce n)
    (hw : base.types = w.store.types) (hs : base.Grows s) (hx : base.valueAt v = .ok x)
    (hfill : base.Fills w form (base.OfType w form n) x n1) (h1 : w.StandsFor t r1 n1)
    (h2 : w.StandsFor t' r2 (.opt inner)) (hd1 : w.Distinct t) (hd2 : w.Distinct t')
    (hlift : ¬ w.Optional inner → Decides (base.Adapts w v r1 inner) (coerce v r1 inner) s) :
    Meets (· = .storeFull) (opt w.env coerce v r1 n1 inner) s fun _ _ => True := by
  by_cases hown : ∃ e, n1 = .opt e
  · obtain ⟨e, rfl⟩ := hown
    exact (meets_held r1 (hkids (by rintro b rfl; cases hfill)) hw hs hx hfill
      (hd1.part h1 List.mem_cons_self) (hd2.part h2 List.mem_cons_self)).mono fun _ _ _ _ => trivial
  · unfold opt
    split
    · exact (meets_put _ s).mono fun _ _ _ _ => trivial
    · exact absurd ⟨_, rfl⟩ hown
    · refine meets_known rfl ?_
      split
      · exact (meets_put _ s).mono fun _ _ _ _ => trivial
      · next hasked =>
        refine (decides_orNone (hlift fun hoptional => hasked ?_)).bind fun o s1 _ _ =>
          (meets_put _ s1).mono fun _ _ _ _ => trivial
        simpa only [Scope.Optional, Env.isOptional, Scope.resolve_congr w.env (hs.types.trans hw)]
          using hoptional

/-! ### The whole -/

/-- One step of a reshaping, from the nodes that the two types stand for. -/
theorem judges_within (hw : base.types = w.store.types) (hs : base.Grows s) (h1 : w.StandsFor t r1 n1)
    (hnodes : ∀ r2 n2, w.StandsFor t' r2 n2 → Decides (base.Adapting w (base.Adapts w) v n1 n2)
      (nodes w.env (within w.env fuel) v r1 n1 n2) s) :
    Decides (base.Adapts w v t t') (within w.env (fuel + 1) v t t') s := by
  have htypes := hs.types.trans hw
  have hnode : ∀ {t : TypeId}, s.typeAt t = w.store.typeAt t := by
    intro t
    simp only [Store.typeAt, htypes]
  unfold within
  split
  · next heq => exact decides_pure (heq ▸ .same h1 h1)
  refine meets_known ((Scope.follow_congr w.env htypes t).trans h1.follow) ?_
  refine meets_look (fun e he => .inl ⟨Scope.follow_fault he, fun hadapts => ?_⟩) fun r2 hr2 => ?_
  · obtain ⟨r2, n2, h2⟩ := hadapts.standsFor
    exact absurd (((Scope.follow_congr w.env htypes t').trans h2.follow).symm.trans he) (by simp)
  obtain ⟨n2, h2⟩ := Scope.StandsFor.of_follow ((Scope.follow_congr w.env htypes t').symm.trans hr2)
  split
  · next heq =>
    subst heq
    obtain rfl := h1.root.node_eq h2.root
    exact decides_pure (.same h1 h2)
  · next hne =>
    refine meets_known (hnode.trans h1.node) (meets_known (hnode.trans h2.node) ?_)
    exact (hnodes r2 n2 h2).congr (Store.adapts_iff h1 h2 hne).symm

/-- Two steps go one level down: the first of them may only put an `opt` around the value. -/
theorem judges_step (fuel : Nat)
    (hkids : (∀ b, x ≠ .fixed b) → ∀ g, fuel ≤ g → Judges w form (within w.env g) n)
    (hw : base.types = w.store.types) (hs : base.Grows s) (hx : base.valueAt v = .ok x)
    (h1 : w.StandsFor t r1 n1) (hfill : base.Fills w form (base.OfType w form n) x n1)
    (hd1 : w.Distinct t) (hd2 : w.Distinct t') : ∀ f, fuel + 2 ≤ f →
    Decides (base.Adapts w v t t') (within w.env f v t t') s
  | 0, hf | 1, hf => by omega
  | f + 2, hf => by
    refine judges_within hw hs h1 fun r2 n2 h2 => ?_
    have hkids1 : (∀ b, x ≠ .fixed b) → Judges w form (within w.env (f + 1)) n :=
      fun hx => hkids hx (f + 1) (by omega)
    by_cases hopt : ∃ inner, n2 = .opt inner
    · obtain ⟨inner, rfl⟩ := hopt
      rw [nodes_opt]
      refine decides_true (meets_opt hkids1 hw hs hx hfill h1 h2 hd1 hd2 fun hinner => ?_) (.opt n1 inner)
      refine judges_within hw hs h1.root fun r3 n3 h3 => ?_
      rw [h3.optional_iff] at hinner
      exact judges_nodes (fun hx => hkids hx f (by omega)) hw hs hx hfill h1.root h3 (hd1.root h1)
        (hd2.part h2 List.mem_cons_self) fun i hi => hinner (.inr (.inr ⟨i, hi⟩))
    · exact judges_nodes hkids1 hw hs hx hfill h1 h2 hd1 hd2 fun i hi => hopt ⟨i, hi⟩

theorem within_judges : ∀ n f, 2 * n + 2 ≤ f → Judges w form (within w.env f) n := by
  -- A byte is reshaped by two steps, whatever is left of the budget.
  have hbyte : ∀ f, 2 ≤ f → ∀ base v t t' s, base.types = w.store.types → base.Grows s →
      IsByte w base v t → w.Distinct t → w.Distinct t' →
      Decides (base.Adapts w v t t') (within w.env f v t t') s := by
    intro f hf base v t t' s hw hs ⟨b, r, hx, h1⟩ hd1 hd2
    have hfill : base.Fills w form (base.OfType w form 0) (.fixed (.ofByte b))
        (.primitive (.fixed .nat8)) := .fixed (.ofByte b)
    exact judges_step 0 (fun hx => absurd rfl (hx (.ofByte b))) hw hs hx h1 hfill hd1 hd2 f hf
  intro n
  induction n with
  | zero =>
    rintro f hf base v t t' s hw hs (hv | hv) hd1 hd2
    · exact hv.elim
    · exact hbyte f (by omega) base v t t' s hw hs hv hd1 hd2
  | succ n ih =>
    rintro f hf base v t t' s hw hs (⟨r1, n1, h1, x, hx, hfill⟩ | hv) hd1 hd2
    · exact judges_step (2 * n + 2) (fun _ => ih) hw hs hx h1 hfill hd1 hd2 f (by omega)
    · exact hbyte f (by omega) base v t t' s hw hs hv hd1 hd2

/-- A verdict against is right, whatever the checks that it rests on have left assumed. -/
theorem unfit_of_fail {env : Env} (hd1 : Scope.Distinct ⟨s, env⟩ t) (hd2 : Scope.Distinct ⟨s, env⟩ t')
    (h : Subtype.verdict s env t t' = .ok .fail) : ¬ Scope.Fits ⟨s, env⟩ .lenient t t' := by
  intro hfit
  obtain ⟨_, hrun, -⟩ := Subtype.verdict_run h
  have hgrants := Subtype.fits_grants { store := s, env } .lenient _ _ _ _ _ _ hd1 hd2 (by simp) hfit hrun
  exact absurd hgrants (by simp)

/-- A typed value nests so deep that there are steps enough for it. -/
theorem ofNode_steps {env : Env} (hv : s.WellTyped env form v t)
    (h : Scope.StandsFor ⟨s, env⟩ t r1 n1) :
    ∃ n, 2 * (n + 1) + 2 ≤ steps s ∧ s.OfNode ⟨s, env⟩ form n v n1 := by
  obtain ⟨depth, hv⟩ := hv
  have hbounded := ofType_bounded hv
  have henough := steps_enough_pairs s
  cases hn : s.values.size * s.types.size with
  | zero => exact (hn ▸ hbounded).elim
  | succ n => exact ⟨n, hn ▸ henough, (hn ▸ hbounded).ofNode h⟩

/-- Reshaping between an `opt` and another whose nodes are not the same. -/
theorem meets_coerce_opt {env : Env} {o o' r r' u w : TypeId}
    (h1 : Scope.StandsFor ⟨s, env⟩ o r (.opt u)) (h2 : Scope.StandsFor ⟨s, env⟩ o' r' (.opt w))
    (hne : r ≠ r') (hv : s.WellTyped env form v o) (hd1 : Scope.Distinct ⟨s, env⟩ u)
    (hd2 : Scope.Distinct ⟨s, env⟩ w) :
    ∃ x, s.valueAt v = .ok x ∧ Meets (· = .storeFull) (TypedWire.coerce env v o o') s
      (Held ⟨s, env⟩ s x u w) := by
  obtain ⟨n, hn, x, hx, hfill⟩ := ofNode_steps hv h1
  obtain ⟨fuel, hfuel⟩ : ∃ fuel, steps s = fuel + 1 := ⟨steps s - 1, by omega⟩
  have hkids : Judges ⟨s, env⟩ form (within env fuel) n := within_judges n fuel (by omega)
  have hne' : o ≠ o' := by
    rintro rfl
    exact hne (h1.root_eq h2)
  have hrun : Meets (· = .storeFull) (within env (fuel + 1) v o o') s (Held ⟨s, env⟩ s x u w) := by
    unfold within
    rw [if_neg hne']
    refine meets_known h1.follow (meets_known h2.follow ?_)
    rw [if_neg hne]
    refine meets_known h1.node (meets_known h2.node ?_)
    exact meets_held r hkids rfl (.refl s) hx hfill hd1 hd2
  have hcoerce : TypedWire.coerce env v o o' s = within env (fuel + 1) v o o' s := by
    rw [← hfuel]
    rfl
  refine ⟨x, hx, ?_⟩
  unfold Meets Runs
  rw [hcoerce]
  exact hrun

/-- Reshaping between an `opt` and an `opt` whose contents do not fit ends, unless the store is full. It
    decides by the value, not by the types: the result is empty if and only if there is no content or it
    cannot be adapted, and content that is kept hides that it does not fit. -/
theorem coerce_optSpecial (env : Env) (s : Store) (form : Form) (v : ValueId) (o o' r r' u w : TypeId)
    (h1 : Scope.StandsFor ⟨s, env⟩ o r (.opt u)) (h2 : Scope.StandsFor ⟨s, env⟩ o' r' (.opt w))
    (hv : s.WellTyped env form v o) (hd1 : Scope.Distinct ⟨s, env⟩ o) (hd2 : Scope.Distinct ⟨s, env⟩ o')
    (hfail : Subtype.verdict s env u w = .ok .fail) :
    Runs (TypedWire.coerce env v o o') s
      (fun v' s' =>
        (s'.valueAt v' = .ok (.opt none) ∧
          ∀ c, s.valueAt v = .ok (.opt (some c)) → ¬ s.Adapts ⟨s, env⟩ c u w) ∨
        ∃ c c', s.valueAt v = .ok (.opt (some c)) ∧ s'.valueAt v' = .ok (.opt (some c')) ∧
          s.Adapts ⟨s, env⟩ c u w ∧ s.Hides ⟨s, env⟩ c u w)
      fun e _ => e = .storeFull := by
  have hdu := hd1.part h1 (List.mem_cons_self (a := u))
  have hdw := hd2.part h2 (List.mem_cons_self (a := w))
  have hunfit := unfit_of_fail hdu hdw hfail
  have hne : r ≠ r' := by
    rintro rfl
    obtain rfl : u = w := by simpa using h1.root.node_eq h2.root
    exact hunfit ⟨Eq, fun _ _ => .inl, rfl⟩
  obtain ⟨x, hx, hrun⟩ := meets_coerce_opt h1 h2 hne hv hdu hdw
  refine Runs.mono hrun ?_ fun _ _ h => h.2
  rintro v' s' ⟨-, ⟨hv', hnot⟩ | ⟨c, c', rfl, hc', hadapts⟩⟩
  · refine .inl ⟨hv', fun c hc => hnot c ?_⟩
    exact Except.ok.inj (hx.symm.trans hc)
  · exact .inr ⟨c, c', hx, hc', hadapts, (hadapts.hides hdu).resolve_left hunfit⟩

/-- A list without items, a list of one number and a function that takes a number, each in an `opt`. The
    types that have text for the number are those that are expected. -/
def otherItems : Store where
  types := #[.primitive .nat, .primitive .text, .vec ⟨0⟩, .vec ⟨1⟩, .opt ⟨2⟩, .opt ⟨3⟩,
    .func ⟨[⟨0⟩], [], []⟩, .func ⟨[⟨1⟩], [], []⟩, .opt ⟨6⟩, .opt ⟨7⟩]
  values := #[.vec [], .opt (some ⟨0⟩), .nat ⟨0, 0, 1⟩, .vec [⟨2⟩], .opt (some ⟨3⟩),
    .func ⟨0, 0, 0⟩ ⟨0, 0, 0⟩, .opt (some ⟨5⟩)]
  blocks := #[⟨16, #[0x7f]⟩]

theorem otherItems_emptied :
    ∃ v s, TypedWire.coerce {} ⟨4⟩ ⟨4⟩ ⟨5⟩ otherItems = .ok v s ∧ s.valueAt v = .ok (.opt none) := by
  have hd : ∀ t, Scope.Distinct ⟨otherItems, {}⟩ t := .of_store (by decide)
  have hlist : Scope.StandsFor ⟨otherItems, {}⟩ ⟨2⟩ ⟨2⟩ (.vec ⟨0⟩) := ⟨rfl, rfl⟩
  have htexts : Scope.StandsFor ⟨otherItems, {}⟩ ⟨3⟩ ⟨3⟩ (.vec ⟨1⟩) := ⟨rfl, rfl⟩
  have hnumber : Scope.StandsFor ⟨otherItems, {}⟩ ⟨0⟩ ⟨0⟩ (.primitive .nat) := ⟨rfl, rfl⟩
  have htyped : otherItems.WellTyped {} .decoded ⟨4⟩ ⟨4⟩ := by
    refine ⟨3, ⟨4⟩, _, ⟨rfl, rfl⟩, _, rfl, .some ⟨⟨2⟩, _, hlist, _, rfl, .vec (fun _ => ?_) ?_⟩⟩
    · exact ⟨⟨0⟩, _, hnumber, by simp⟩
    · simpa using ⟨⟨0⟩, _, hnumber, _, rfl, .nat rfl (by decide)⟩
  have hrun : TypedWire.coerce {} ⟨4⟩ ⟨4⟩ ⟨5⟩ otherItems = .ok ⟨7⟩ _ := rfl
  refine ⟨_, _, hrun, ?_⟩
  have hresult := coerce_optSpecial {} otherItems .decoded ⟨4⟩ ⟨4⟩ ⟨5⟩ ⟨4⟩ ⟨5⟩ ⟨2⟩ ⟨3⟩ ⟨rfl, rfl⟩ ⟨rfl, rfl⟩
    htyped (hd _) (hd _) rfl
  rcases hresult.ok hrun with ⟨hnone, -⟩ | ⟨c, c', hc, -, -, hhides⟩
  · exact hnone
  · have hopt : otherItems.valueAt ⟨4⟩ = .ok (.opt (some ⟨3⟩)) := rfl
    obtain rfl : ⟨3⟩ = c := by simpa using hopt.symm.trans hc
    have hnumbers := hhides.list hlist htexts rfl
    simp only [List.mem_singleton, exists_eq_left, reduceCtorEq, false_or] at hnumbers
    exact (hnumbers.not_primitive hnumber).elim

/-- The list without items stays, and so does the function that takes a number. -/
theorem otherItems_kept :
    (Subtype.verdict otherItems {} ⟨2⟩ ⟨3⟩ = .ok .fail ∧
      Subtype.verdict otherItems {} ⟨4⟩ ⟨5⟩ = .ok .optSpecial ∧ otherItems.WellTyped {} .decoded ⟨1⟩ ⟨4⟩ ∧
      ∃ v s c, TypedWire.coerce {} ⟨1⟩ ⟨4⟩ ⟨5⟩ otherItems = .ok v s ∧ s.valueAt v = .ok (.opt (some c))) ∧
    (Subtype.verdict otherItems {} ⟨6⟩ ⟨7⟩ = .ok .fail ∧
      Subtype.verdict otherItems {} ⟨8⟩ ⟨9⟩ = .ok .optSpecial ∧ otherItems.WellTyped {} .decoded ⟨6⟩ ⟨8⟩ ∧
      ∃ v s, TypedWire.coerce {} ⟨6⟩ ⟨8⟩ ⟨9⟩ otherItems = .ok v s ∧
        s.valueAt v = .ok (.opt (some ⟨5⟩))) := by
  have hnumber : Scope.StandsFor ⟨otherItems, {}⟩ ⟨0⟩ ⟨0⟩ (.primitive .nat) := ⟨rfl, rfl⟩
  have hlist : otherItems.WellTyped {} .decoded ⟨1⟩ ⟨4⟩ :=
    ⟨2, ⟨4⟩, _, ⟨rfl, rfl⟩, _, rfl, .some ⟨⟨2⟩, _, ⟨rfl, rfl⟩, _, rfl,
      .vec (fun _ => ⟨⟨0⟩, _, hnumber, by simp⟩) (by simp)⟩⟩
  have hfunction : otherItems.WellTyped {} .decoded ⟨6⟩ ⟨8⟩ :=
    ⟨2, ⟨8⟩, _, ⟨rfl, rfl⟩, _, rfl, .some ⟨⟨6⟩, _, ⟨rfl, rfl⟩, _, rfl,
      .func rfl (by decide) rfl⟩⟩
  exact ⟨⟨rfl, rfl, hlist, _, _, _, rfl, rfl⟩, rfl, rfl, hfunction, _, _, rfl, rfl⟩

end Coerce

end TypedWire
