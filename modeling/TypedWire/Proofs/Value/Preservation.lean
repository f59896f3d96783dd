import TypedWire.Proofs.Growth
import TypedWire.Proofs.Value.Progress
import TypedWire.Proofs.Value.ReadBack
import TypedWire.Proofs.Value.Typed

/-! Reshaping preserves types. Whatever the two types are, a value of the first is reshaped to a value
    of the second, if it is reshaped at all: nothing of the shape that it had is left in it, however
    deep, where it is handed over as it is or where a mismatch under an `opt` is swallowed. -/

namespace TypedWire.Coerce

open TypedWire.Action

variable {w : Scope} {form : Form} {s s1 s' : Store} {v : ValueId} {x : Value} {n1 n2 : TypeNode}
variable {t wire expected r1 r2 : TypeId} {m n fuel : Nat} {α β : Type}
variable {lists : List ValueId → TypeId → Prop}

/-! ### Steps -/

theorem leads_looked (f : Store → Except Fault α) (s : Store) :
    Leads Store.Grows (look f) s fun a s' => s' = s ∧ f s = .ok a := by
  refine leads_answer f (fun s => ?_) fun a ha => ⟨rfl, ha⟩
  unfold look
  cases f s <;> rfl

theorem leads_look {f : Store → Except Fault α} {g : α → Action Store β} {post : β → Store → Prop}
    (hg : ∀ a, f s = .ok a → Leads Store.Grows (g a) s post) :
    Leads Store.Grows (look f >>= g) s post := by
  refine (leads_looked f s).bind fun a s1 _ ⟨hs1, ha⟩ => ?_
  subst hs1
  exact hg a ha

theorem leads_orNone {x : Action Store ValueId} {post : ValueId → Store → Prop}
    (hx : Leads Store.Grows x s post) :
    Leads Store.Grows (orNone x) s fun o s' => ∀ v, o = some v → post v s' := by
  rcases Runs.ends hx with ⟨a, s', ha, hs, hpost⟩ | ⟨e, s', he, hs⟩
  · have hnone : orNone x s = .ok (some a) s' := by simp only [orNone, ha]
    refine runs_of_ok hnone ⟨hs, ?_⟩
    rintro v ⟨⟩
    exact hpost
  · by_cases hinvalid : e = .invalid
    · subst hinvalid
      have hnone : orNone x s = .ok none s' := by simp only [orNone, he]
      exact runs_of_ok hnone ⟨hs, by simp⟩
    · have hnone : orNone x s = .error e s' := by
        unfold orNone
        cases e <;> simp_all
      exact runs_of_error hnone hs

/-- A value node that is put in is of the type node, if its contents are. -/
theorem leads_put (hx : s.Fills w form (s.OfTypeWith w form lists n) x n2)
    (hlists : ∀ items e, x = .vec items → n2 = .vec e → lists items e) :
    Leads Store.Grows (Store.putValue x) s fun v s' => s'.OfNodeWith w form lists n v n2 := by
  refine (Store.leads_putValue x s).mono fun v s' hs hv => ⟨x, hv, ?_, hlists⟩
  exact hx.mono hs.toExtends (fun _ _ _ => id) (.refl form) fun _ _ h => h.extends hs.toExtends

/-- What reshaping by `coerce` gives for a value of a type is of the type that is expected; and only a
    byte is reshaped to a byte. -/
def Preserves (w : Scope) (form : Form) (lists : List ValueId → TypeId → Prop)
    (coerce : ValueId → TypeId → TypeId → Action Store ValueId) (n : Nat) : Prop :=
  ∀ m v wire expected s, s.types = w.store.types → s.OfTypeWith w form lists m v wire →
    w.Distinct wire → Leads Store.Grows (coerce v wire expected) s fun v' s' =>
      s'.OfTypeWith w form lists (n + m) v' expected ∧ (w.isByte expected = true → w.isByte wire = true)

/-- What may be a `vec` is such that reshaping the items of one gives one again, and that anything may
    be one but a `vec` of bytes. -/
structure Allows (w : Scope) (lists : List ValueId → TypeId → Prop) : Prop where
  other : ∀ items e, w.isByte e = false → lists items e
  reshaped : ∀ items items' e e', lists items e →
    List.Forall₂ (fun _ _ => w.isByte e' = true → w.isByte e = true) items items' → lists items' e'

variable {coerce : ValueId → TypeId → TypeId → Action Store ValueId}

theorem standsFor_of_resolve (hw : s.types = w.store.types) (h : w.env.resolve s t = .ok n1) :
    ∃ r, w.StandsFor t r n1 :=
  Scope.standsFor_of_resolve ((Scope.resolve_congr w.env hw t).symm.trans h)

/-! ### Lists -/

theorem leads_items {ids : List ValueId} {e1 e2 : TypeId} (hkids : Preserves w form lists coerce n)
    (hw : s.types = w.store.types) (hpacked : form.packed = false) (hd : w.Distinct e1)
    (hids : ∀ id ∈ ids, s.OfTypeWith w form lists m id e1)
    (hlists : ∀ items, List.Forall₂ (fun _ _ => w.isByte e2 = true → w.isByte e1 = true) ids items →
      lists items e2) :
    Leads Store.Grows (do
      let items ← ids.mapM fun item => coerce item e1 e2
      Store.putValue (.vec items)) s fun v s' => s'.OfNodeWith w form lists (n + m) v (.vec e2) := by
  have hall : Leads Store.Grows (ids.mapM fun item => coerce item e1 e2) s fun items s' =>
      List.Forall₂ (fun _ v => s'.OfTypeWith w form lists (n + m) v e2 ∧
        (w.isByte e2 = true → w.isByte e1 = true)) ids items := by
    refine leads_mapM (fun s1 s2 _ v hs h => ⟨h.1.extends hs.toExtends, h.2⟩) fun id hid s1 hs1 => ?_
    exact hkids m id e1 e2 s1 (hs1.types.trans hw) ((hids id hid).extends hs1.toExtends) hd
  refine hall.bind fun items s1 _ hitems => leads_put (.vec (fun h => ?_) fun v hv => ?_) ?_
  · exact absurd (hpacked.symm.trans h) (by simp)
  · obtain ⟨_, -, hv⟩ := forall₂_partner hitems v hv
    exact hv.1
  · rintro _ _ ⟨⟩ ⟨⟩
    exact hlists items (hitems.imp fun _ _ h => h.2)

theorem leads_vec {e1 e2 : TypeId} (hallows : Allows w lists) (hkids : Preserves w form lists coerce n)
    (hw : s.types = w.store.types) (hpacked : form.packed = false)
    (hv : s.OfNodeWith w form lists m v (.vec e1)) (hd : w.Distinct e1) :
    Leads Store.Grows (vec w.env coerce v e1 e2) s fun v' s' =>
      s'.OfNodeWith w form lists (n + (m + 1)) v' (.vec e2) := by
  obtain ⟨x, hx, hfill, hvec⟩ := hv
  unfold vec
  refine leads_look fun y hy => ?_
  obtain rfl : x = y := Except.ok.inj (hx.symm.trans hy)
  cases hfill with
  | @blob p bytes _ r hb hbyte =>
    refine leads_look fun node hnode => ?_
    obtain ⟨r2, h2⟩ := standsFor_of_resolve hw hnode
    split
    · next hnat8 =>
      subst hnat8
      exact leads_pure ⟨_, hx, .blob hb h2, nofun⟩
    · next hnat8 =>
      have hitems : Leads Store.Grows (items (.blob p)) s fun ids s' =>
          ∀ id ∈ ids, s'.OfTypeWith w form lists 1 id e1 := by
        refine leads_look fun bytes' _ => ?_
        have hall : Leads Store.Grows
            (bytes'.mapM fun b => Store.putValue (.fixed (.ofByte b))) s fun ids s' =>
              List.Forall₂ (fun _ id => s'.OfTypeWith w form lists 1 id e1) bytes' ids := by
          refine leads_mapM (fun s1 s2 _ id hs h => h.extends hs.toExtends) fun b _ s1 _ => ?_
          have hnode : Leads Store.Grows (Store.putValue (.fixed (.ofByte b))) s1 fun id s' =>
              s'.OfNodeWith w form lists 0 id (.primitive (.fixed .nat8)) :=
            leads_put (.fixed (.ofByte b)) nofun
          exact hnode.mono fun id s2 _ hid => hid.ofType hbyte
        refine hall.mono fun ids s1 _ hids id hid => ?_
        obtain ⟨_, -, hid⟩ := forall₂_partner hids id hid
        exact hid
      have hother : w.isByte e2 = false := by rw [h2.isByte, decide_eq_false hnat8]
      refine hitems.bind fun ids s1 hs1 hids => ?_
      refine (leads_items hkids (hs1.types.trans hw) hpacked hd hids
        fun items _ => hallows.other items e2 hother).mono fun v' s2 _ hv' => ?_
      exact hv'.le (by omega)
  | vec _ hids =>
    rw [items, pure_bind]
    exact (leads_items hkids hw hpacked hd hids fun items =>
      hallows.reshaped _ items e1 e2 (hvec _ _ rfl rfl)).mono fun v' s2 _ hv' => hv'.le (by omega)

/-! ### Records and variants -/

/-- The first member that passes a test is found at the first place that does. -/
theorem getElem?_findIdx? {p : α → Bool} : ∀ {as : List α} {i : Nat} {a : α},
    as.findIdx? p = some i → as.find? p = some a → as[i]? = some a
  | [], _, _, hi, _ => by simp at hi
  | b :: as, i, a, hi, ha => by
    rw [List.findIdx?_cons] at hi
    rw [List.find?_cons] at ha
    cases hp : p b with
    | true =>
      simp only [hp, if_true, Option.some.injEq] at hi ha
      subst hi ha
      rfl
    | false =>
      simp only [hp, Bool.false_eq_true, if_false, Option.map_eq_some_iff] at hi ha
      obtain ⟨j, hj, rfl⟩ := hi
      simpa using getElem?_findIdx? hj ha

theorem leads_missing (form : Form) (lists : List ValueId → TypeId → Prop)
    (hw : s.types = w.store.types) (k : Nat) :
    Leads Store.Grows (missing w.env t) s fun v s' => s'.OfTypeWith w form lists (k + 1) v t := by
  unfold missing
  refine leads_look fun node hnode => ?_
  obtain ⟨r, ht⟩ := standsFor_of_resolve hw hnode
  split
  · exact (leads_put (.none _) nofun).mono fun v s1 _ hv => hv.ofType ht
  · exact (leads_put .null nofun).mono fun v s1 _ hv => hv.ofType ht
  · exact (leads_put .reserved nofun).mono fun v s1 _ hv => hv.ofType ht
  · exact leads_fail

theorem leads_record {f1 f2 : List Field} (hkids : Preserves w form lists coerce n)
    (hw : s.types = w.store.types) (hv : s.OfNodeWith w form lists m v (.record f1))
    (hd : ∀ f ∈ f1, w.Distinct f.type) :
    Leads Store.Grows (record w.env coerce v f1 f2) s fun v' s' =>
      s'.OfNodeWith w form lists (n + (m + 1)) v' (.record f2) := by
  obtain ⟨x, hx, hfill, -⟩ := hv
  unfold record
  refine leads_look fun y hy => ?_
  obtain rfl : x = y := Except.ok.inj (hx.symm.trans hy)
  cases hfill with
  | @record xs _ hxs =>
    refine Leads.bind (leads_mapM (P := fun s' f x => form.SameLabel x.label f.label ∧
        s'.OfTypeWith w form lists (n + (m + 1)) x.value f.type) ?_ fun want _ s1 hs1 => ?_)
      fun fields s1 _ hfields => leads_put (.record hfields) nofun
    · exact fun s1 s2 _ _ hs h => ⟨h.1, h.2.extends hs.toExtends⟩
    have hw1 : s1.types = w.store.types := hs1.types.trans hw
    dsimp only
    split
    · next field type hfield htype =>
      obtain ⟨found, hfound, -, hof⟩ := forall₂_find? (q := fun x : FieldValue => x.label.id = want.label.id)
        (fun f x h => by simp [h.1.id_eq]) hxs htype
      obtain rfl := Option.some.inj (hfound.symm.trans hfield)
      have hdtype := hd type (List.mem_of_find?_eq_some htype)
      refine (hkids m _ _ _ s1 hw1 (hof.extends hs1.toExtends) hdtype).bind fun item s2 _ hitem => ?_
      exact leads_pure ⟨form.sameLabel_refl _, hitem.1.le (by omega)⟩
    · refine (leads_missing form lists hw1 (n + m)).bind fun item s2 _ hitem => ?_
      exact leads_pure ⟨form.sameLabel_refl _, hitem⟩

theorem leads_variant {f1 f2 : List Field} (hkids : Preserves w form lists coerce n)
    (hw : s.types = w.store.types) (hv : s.OfNodeWith w form lists m v (.variant f1))
    (hnd : (f1.map (·.label.id)).Nodup) (hd : ∀ f ∈ f1, w.Distinct f.type) :
    Leads Store.Grows (variant coerce v f1 f2) s fun v' s' =>
      s'.OfNodeWith w form lists (n + (m + 1)) v' (.variant f2) := by
  obtain ⟨x, hx, hfill, -⟩ := hv
  unfold variant
  refine leads_look fun y hy => ?_
  obtain rfl : x = y := Except.ok.inj (hx.symm.trans hy)
  cases hfill with
  | @variant _ index f field hf hlabel hof =>
    have hmem : f ∈ f1 := List.mem_of_getElem? hf
    -- The number of the field names no other field of the type.
    simp only [find?_id hnd hmem hlabel.id_eq.symm]
    split
    · next type place want hsome hplace hwant =>
      obtain rfl := Option.some.inj hsome
      refine (hkids m _ _ _ s hw hof (hd f hmem)).bind fun item s1 _ hitem => ?_
      refine leads_put (.variant (getElem?_findIdx? hplace hwant) (form.sameLabel_refl _) ?_) nofun
      exact hitem.1.le (by omega)
    · exact leads_fail

/-! ### One level -/

theorem leads_widen (hv : s.OfNodeWith w form lists m v (.primitive .nat)) :
    Leads Store.Grows (widen v) s fun v' s' => s'.OfNodeWith w form lists n v' (.primitive .int) := by
  obtain ⟨x, hx, hfill, -⟩ := hv
  unfold widen
  refine leads_look fun y hy => ?_
  obtain rfl : x = y := Except.ok.inj (hx.symm.trans hy)
  cases hfill with
  | @nat p bytes hb hnum =>
    refine leads_look fun bytes' hb' => ?_
    obtain rfl : bytes = bytes' := Except.ok.inj (hb.symm.trans hb')
    obtain ⟨wide, hwide, hwnum, -⟩ := Leb128.widen_isNumber hnum
    have hread : Leb128.readLength wide = .ok wide.length := by
      simpa using Leb128.readLength_append hwnum []
    have hnumber : Leads Store.Grows (Store.putNumber wide) s fun p s' => s'.bytesAt p = .ok wide := by
      refine runs_bind (runs_ofExcept hread ?_)
      rw [if_neg (by simp)]
      exact Store.leads_putBytes wide s
    refine runs_bind (runs_ofExcept hwide ?_)
    exact hnumber.bind fun p s1 _ hp => leads_put (.int hp hwnum) nofun

theorem leads_opt {inner : TypeId} (hkids : Preserves w form lists coerce n)
    (hw : s.types = w.store.types) (h1 : w.StandsFor wire wire n1)
    (hv : s.OfNodeWith w form lists m v n1) (hd : w.Distinct wire) :
    Leads Store.Grows (opt w.env coerce v wire n1 inner) s fun v' s' =>
      s'.OfNodeWith w form lists (n + (m + 1)) v' (.opt inner) := by
  -- What is put in once the content is reshaped, or found not to match.
  have hput : ∀ {s : Store} {y : Action Store ValueId},
      (Leads Store.Grows y s fun v' s' => s'.OfTypeWith w form lists (n + (m + 1)) v' inner) →
      Leads Store.Grows (do Store.putValue (.opt (← orNone y))) s fun v' s' =>
        s'.OfNodeWith w form lists (n + (m + 1)) v' (.opt inner) := by
    intro s y hy
    refine (leads_orNone hy).bind fun o s1 _ ho => leads_put ?_ nofun
    cases o with
    | none => exact .none inner
    | some v' => exact .some (ho v' rfl)
  unfold opt
  split
  · exact leads_put (.none inner) nofun
  · obtain ⟨x, hx, hfill, -⟩ := hv
    refine leads_look fun y hy => ?_
    obtain rfl : x = y := Except.ok.inj (hx.symm.trans hy)
    cases hfill with
    | none => exact leads_put (.none inner) nofun
    | @some v wireInner hof =>
      refine hput ((hkids m _ _ _ s hw hof ?_).mono fun v' s1 _ hv' => hv'.1.le (by omega))
      exact hd.part h1 List.mem_cons_self
  · refine leads_look fun optional _ => ?_
    split
    · exact leads_put (.none inner) nofun
    · exact hput ((hkids (m + 1) _ _ _ s hw (hv.ofType h1) hd).mono fun v' s1 _ hv' => hv'.1)

/-- Whatever the two nodes are, a value of the first that is reshaped becomes one of the second; and a
    byte has been one. -/
theorem leads_nodes (hallows : Allows w lists) (hkids : Preserves w form lists coerce n)
    (hpacked : form.packed = false) (hw : s.types = w.store.types) (h1 : w.StandsFor r1 r1 n1)
    (hv : s.OfNodeWith w form lists m v n1) (hd : w.Distinct r1) :
    Leads Store.Grows (nodes w.env coerce v r1 n1 n2) s fun v' s' =>
      s'.OfNodeWith w form lists (n + (m + 1)) v' n2 ∧
        (n2 = .primitive (.fixed .nat8) → n1 = .primitive (.fixed .nat8)) := by
  have hsame : ∀ {n2 : TypeNode}, s.OfNodeWith w form lists m v n2 →
      Leads Store.Grows (pure v) s fun v' s' => s'.OfNodeWith w form lists (n + (m + 1)) v' n2 :=
    fun h => leads_pure (h.le (by omega))
  have hother : ∀ {x : Action Store ValueId} {n2 : TypeNode},
      (Leads Store.Grows x s fun v' s' => s'.OfNodeWith w form lists (n + (m + 1)) v' n2) →
      n2 ≠ .primitive (.fixed .nat8) → Leads Store.Grows x s fun v' s' =>
        s'.OfNodeWith w form lists (n + (m + 1)) v' n2 ∧
          (n2 = .primitive (.fixed .nat8) → n1 = .primitive (.fixed .nat8)) :=
    fun hx hne => hx.mono fun _ _ _ h => ⟨h, fun heq => absurd heq hne⟩
  unfold nodes
  split
  · exact hother (leads_put .reserved nofun) (by simp)
  · exact hother (leads_widen hv) (by simp)
  · split
    · next heq => exact (hsame (heq ▸ hv)).mono fun _ _ _ h => ⟨h, fun hbyte => heq ▸ hbyte⟩
    · exact leads_fail
  · exact hother (leads_opt hkids hw h1 hv hd) (by simp)
  · exact hother (leads_vec hallows hkids hw hpacked hv (hd.part h1 List.mem_cons_self)) (by simp)
  · exact hother (leads_record hkids hw hv fun f hf => hd.part h1 (List.mem_map_of_mem hf)) (by simp)
  · refine hother (leads_variant hkids hw hv (hd.node h1) fun f hf => ?_) (by simp)
    exact hd.part h1 (List.mem_map_of_mem hf)
  · obtain ⟨x, hx, hfill, -⟩ := hv
    cases hfill with
    | func hb hle ht => exact hother (hsame ⟨_, hx, .func hb hle ht, nofun⟩) (by simp)
  · obtain ⟨x, hx, hfill, -⟩ := hv
    cases hfill with
    | service hb hle => exact hother (hsame ⟨_, hx, .service hb hle, nofun⟩) (by simp)
  · exact leads_fail

/-! ### The whole -/

theorem within_preserves (hallows : Allows w lists) (hpacked : form.packed = false) : ∀ fuel,
    Preserves w form lists (within w.env fuel) fuel := by
  intro fuel
  induction fuel with
  | zero => exact fun m v wire expected s _ _ _ => leads_fail
  | succ fuel ih =>
    intro m v wire expected s hw hv hd
    unfold within
    split
    · next heq => exact leads_pure (heq ▸ ⟨hv.le (by omega), id⟩)
    refine leads_look fun r1 hr1 => leads_look fun r2 hr2 => ?_
    obtain ⟨n1, h1⟩ := Scope.StandsFor.of_follow ((Scope.follow_congr w.env hw wire).symm.trans hr1)
    obtain ⟨n2, h2⟩ := Scope.StandsFor.of_follow ((Scope.follow_congr w.env hw expected).symm.trans hr2)
    cases m with
    | zero => exact hv.elim
    | succ m =>
      have hnode : s.OfNodeWith w form lists m v n1 := hv.ofNode h1
      split
      · next heq =>
        subst heq
        obtain rfl := h1.root.node_eq h2.root
        refine leads_pure ⟨(hnode.ofType h2).le (by omega), fun hbyte => ?_⟩
        rwa [h1.isByte, ← h2.isByte]
      refine leads_look fun m1 hm1 => leads_look fun m2 hm2 => ?_
      obtain rfl : n1 = m1 := by
        have htypes : s.typeAt r1 = w.store.typeAt r1 := by simp only [Store.typeAt, hw]
        exact Except.ok.inj ((h1.node.symm.trans htypes.symm).trans hm1)
      obtain rfl : n2 = m2 := by
        have htypes : s.typeAt r2 = w.store.typeAt r2 := by simp only [Store.typeAt, hw]
        exact Except.ok.inj ((h2.node.symm.trans htypes.symm).trans hm2)
      refine (leads_nodes hallows ih hpacked hw h1.root hnode (hd.root h1)).mono
        fun v' s' _ hv' => ⟨(hv'.1.ofType h2).le (by omega), ?_⟩
      simpa only [h1.isByte, h2.isByte, decide_eq_true_eq] using hv'.2

/-- A value of the type `wire` that is reshaped to `expected` becomes a value of that type, and a `vec` in
    it is such as is allowed if those that it had are. -/
theorem leads_coerceWith (env : Env) (expected : TypeId) (hallows : Allows ⟨s, env⟩ lists)
    (hpacked : form.packed = false) (hv : s.OfTypeWith ⟨s, env⟩ form lists m v wire)
    (hd : Scope.Distinct ⟨s, env⟩ wire) :
    Leads Store.Grows (TypedWire.coerce env v wire expected) s fun v' s' =>
      s'.OfTypeWith ⟨s', env⟩ form lists (steps s + m) v' expected := by
  have hrun := within_preserves hallows hpacked (steps s) m v wire expected s rfl hv hd
  have hcoerce : TypedWire.coerce env v wire expected s = within env (steps s) v wire expected s := rfl
  unfold Leads Runs
  rw [hcoerce]
  refine hrun.mono fun v' s' hs hv' => hv'.1.mono (.refl s') (fun t r n ht => ?_) (fun _ _ => id) le_rfl
  exact ht.extends (Scope.extends_store env hs.toExtends)

/-- A value of the type `wire` that is reshaped to `expected` becomes a value of that type, whether or
    not the one type fits the other. -/
theorem leads_coerce (env : Env) (expected : TypeId) (hpacked : form.packed = false)
    (hv : s.WellTyped env form v wire) (hd : Scope.Distinct ⟨s, env⟩ wire) :
    Leads Store.Grows (TypedWire.coerce env v wire expected) s fun v' s' =>
      s'.WellTyped env form v' expected := by
  obtain ⟨depth, hv⟩ := hv
  have hwith : s.OfTypeWith ⟨s, env⟩ form (fun _ _ => True) depth v wire :=
    hv.with (fun _ _ _ _ => trivial) (.refl form)
  have hallows : Allows ⟨s, env⟩ fun _ _ => True :=
    ⟨fun _ _ _ => trivial, fun _ _ _ _ _ _ => trivial⟩
  exact (leads_coerceWith env expected hallows hpacked hwith hd).mono fun v' s' _ hv' => ⟨_, hv'.without⟩

end TypedWire.Coerce
