import TypedWire.Proofs.Value.Equal
import TypedWire.Proofs.Value.Lossless
import TypedWire.Proofs.Value.Meets

/-! Reshaping between types that unfold to the same tree. The value is built again node by node, and the
    node that is built holds what the node that was read held. So what has been reshaped once is not
    changed by reshaping it again. -/

namespace TypedWire

open TypedWire.Action

/-- The form that asks for nothing more than that a value is of its type. -/
def Form.loose : Form := ⟨false, false⟩

theorem Form.implies_loose (form : Form) : form.Implies .loose := ⟨nofun, nofun⟩

namespace Store

variable {s s' : Store} {w : Scope} {form : Form} {sub : ValueId → TypeId → Prop} {v v' : ValueId}
variable {x y : Value} {n : TypeNode} {t : TypeId} {depth : Nat}

/-- What fills a node shows a tree, if its parts hold one each. -/
theorem Fills.shows (h : s.Fills w form sub x n) (hsub : ∀ v t, sub v t → ∃ d, s.Holds depth v d) :
    ∃ d, s.Shows (s.Holds depth) x d := by
  cases h with
  | null => exact ⟨_, .null⟩
  | reserved => exact ⟨_, .reserved⟩
  | bool b => exact ⟨_, .bool b⟩
  | nat hb => exact ⟨_, .nat hb⟩
  | int hb => exact ⟨_, .int hb⟩
  | fixed number => exact ⟨_, .fixed number⟩
  | text ht => exact ⟨_, .text ht⟩
  | principal hb => exact ⟨_, .principal hb⟩
  | blob hb => exact ⟨_, .blob hb⟩
  | none => exact ⟨_, .none⟩
  | some hv =>
    obtain ⟨d, hd⟩ := hsub _ _ hv
    exact ⟨_, .some hd⟩
  | vec _ hitems =>
    obtain ⟨ds, hds⟩ := forall₂_exists fun u hu => hsub _ _ (hitems u hu)
    exact ⟨_, .vec hds⟩
  | @record xs _ hfields =>
    have hall : ∀ x ∈ xs, ∃ d : UInt32 × Datum, x.label.id = d.1 ∧ s.Holds depth x.value d.2 := by
      intro x hx
      obtain ⟨f, -, -, hv⟩ := forall₂_partner hfields x hx
      obtain ⟨d, hd⟩ := hsub _ _ hv
      exact ⟨(x.label.id, d), rfl, hd⟩
    obtain ⟨ds, hds⟩ := forall₂_exists hall
    exact ⟨_, .record hds⟩
  | variant _ _ hv =>
    obtain ⟨d, hd⟩ := hsub _ _ hv
    exact ⟨_, .variant rfl hd⟩
  | service hb => exact ⟨_, .service hb⟩
  | func hb _ ht => exact ⟨_, .func hb ht⟩

/-- A value of a type is a tree. -/
theorem OfType.holds : ∀ {depth : Nat} {v : ValueId} {t : TypeId}, s.OfType w form depth v t →
    ∃ d, s.Holds depth v d
  | 0, _, _, h => h.elim
  | _ + 1, _, _, ⟨_, _, _, x, hx, h⟩ => by
    obtain ⟨d, hd⟩ := h.shows fun _ _ => OfType.holds
    exact ⟨d, x, hx, hd⟩

/-- The value `v'` of the one store is every tree that the value `v` of the other is. -/
def Replica (s : Store) (depth : Nat) (v : ValueId) (s' : Store) (v' : ValueId) : Prop :=
  ∀ d, s.Holds depth v d → s'.Holds depth v' d

theorem Replica.extends {s'' : Store} (h : s.Replica depth v s' v') (hs : s'.Extends s'') :
    s.Replica depth v s'' v' :=
  fun d hd => (h d hd).extends hs

theorem Replica.since {s1 : Store} (h : s1.Replica depth v s' v') (hs : s.Extends s1) :
    s.Replica depth v s' v' :=
  fun d hd => h d (hd.extends hs)

end Store

namespace Coerce

variable {w : Scope} {form : Form} {s s1 base : Store} {v : ValueId} {x y : Value} {n1 n2 : TypeNode}
variable {t t' r1 r2 : TypeId} {n fuel : Nat} {limit : Option Nat}
variable {coerce : ValueId → TypeId → TypeId → Action Store ValueId}

/-- The fault that a store with a limit may meet. -/
def Full (limit : Option Nat) (e : Fault) : Prop := e = .storeFull ∧ limit ≠ none

/-- Reshaping by `coerce` between types that unfold to the same tree gives a replica of the value. -/
def Replicates (w : Scope) (form : Form) (limit : Option Nat)
    (coerce : ValueId → TypeId → TypeId → Action Store ValueId) (n : Nat) : Prop :=
  ∀ v t t' s, s.types = w.store.types → s.limit = limit → s.OfType w form n v t → w.Distinct t →
    w.SameTree t w t' → Meets (Full limit) (coerce v t t') s fun v' s' => s.Replica n v s' v'

/-! ### Nodes -/

theorem meets_replica (hl : s.limit = limit) (hx : base.valueAt v = .ok x)
    (h : ∀ d, base.Shows (base.Holds n) x d → s.Shows (s.Holds n) y d) :
    Meets (Full limit) (Store.putValue y) s fun v' s' => base.Replica (n + 1) v s' v' := by
  refine (meets_putValue y fun hlimit => ⟨rfl, hl ▸ hlimit⟩).mono fun v' s' hs hv' => ?_
  rintro d ⟨x', hx', hshow⟩
  rw [hx, Except.ok.injEq] at hx'
  subst hx'
  exact ⟨y, hv', (h d hshow).mono hs.toExtends fun _ _ hd => hd.extends hs.toExtends⟩

theorem meets_itself : Meets (Full limit) (pure v) s fun v' s' => s.Replica n v s' v' :=
  meets_pure fun _ => id

theorem replica_vec {e1 e2 : TypeId} (hkids : Replicates w form limit coerce n)
    (hw : s.types = w.store.types) (hl : s.limit = limit) (hx : s.valueAt v = .ok x)
    (hfill : s.Fills w form (s.OfType w form n) x (.vec e1)) (hd : w.Distinct e1)
    (hsame : w.SameTree e1 w e2) :
    Meets (Full limit) (vec w.env coerce v e1 e2) s fun v' s' => s.Replica (n + 1) v s' v' := by
  unfold vec
  refine meets_known hx ?_
  cases hfill with
  | @blob p bytes _ r hb hbyte =>
    -- The copy of a type of bytes is one too, so the byte string stays as it is.
    obtain ⟨r1, m1, r2, m2, h1, h2, halike⟩ := hsame.unfold
    obtain rfl := hbyte.node_eq h1
    cases halike with
    | primitive =>
      refine meets_known (resolve_of_standsFor hw h2) ?_
      rw [if_pos rfl]
      exact meets_itself
  | @vec ids _ _ hids =>
    rw [items, pure_bind]
    have hitems : Meets (Full limit) (ids.mapM fun item => coerce item e1 e2) s fun items s' =>
        List.Forall₂ (fun id u' => s.Replica n id s' u') ids items := by
      refine meets_mapM (fun _ _ _ _ hs h => h.extends hs.toExtends) fun id hid s1 hs1 => ?_
      have htyped := (hids id hid).extends hs1.toExtends
      refine (hkids id e1 e2 s1 (hs1.types.trans hw) (hs1.limit.trans hl) htyped hd hsame).mono ?_
      exact fun u' s2 _ hu' => hu'.since hs1.toExtends
    refine hitems.bind fun items s1 hs1 hitems => meets_replica (hs1.limit.trans hl) hx fun d hshow => ?_
    cases hshow with
    | vec hds => exact .vec (forall₂_comp (fun u' id d hu' hd => hu' d hd) hitems.flip hds)

/-- The numbers of the fields of alike types are the same. -/
theorem ids_of_alike {f1 f2 : List Field}
    (h : List.Forall₂ (fun f g => f.label.id = g.label.id ∧ w.SameTree f.type w g.type) f1 f2) :
    f1.map (·.label.id) = f2.map (·.label.id) := by
  rw [← List.forall₂_eq_eq_eq, List.forall₂_map_left_iff, List.forall₂_map_right_iff]
  exact h.imp fun _ _ hfg => hfg.1

/-- What a record has for a field of a type of the same tree: the field of that number, of the type that
    unfolds to the same tree. -/
def Matching (s : Store) (w : Scope) (form : Form) (n : Nat) (f1 : List Field) (xs : List FieldValue)
    (want : Field) (x : FieldValue) : Prop :=
  xs.find? (·.label.id = want.label.id) = some x ∧
    ∃ have1, f1.find? (·.label.id = want.label.id) = some have1 ∧ have1 ∈ f1 ∧
      s.OfType w form n x.value have1.type ∧ w.SameTree have1.type w want.type

theorem matching {f1 f2 : List Field} {xs : List FieldValue} (hnd : (f1.map (·.label.id)).Nodup)
    (hfields : List.Forall₂ (fun f x => form.SameLabel x.label f.label ∧ s.OfType w form n x.value f.type)
      f1 xs)
    (halike : List.Forall₂ (fun f g => f.label.id = g.label.id ∧ w.SameTree f.type w g.type) f1 f2) :
    List.Forall₂ (Matching s w form n f1 xs) f2 xs := by
  have hids := form.sameLabel_ids hfields
  have hmem1 := (List.forall₂_and_left (p := (· ∈ f1)) _ _).mpr ⟨fun _ => id, hfields⟩
  have hmem2 := (List.forall₂_and_left (p := (· ∈ xs)) _ _).mpr ⟨fun _ => id, hmem1.flip⟩
  refine forall₂_comp (fun want have1 x hwant hx => ?_) halike.flip hmem2.flip
  obtain ⟨hxmem, hm, hlabel, htyped⟩ := hx
  have hid : have1.label.id = want.label.id := hwant.1
  have hxid : x.label.id = want.label.id := hlabel.id_eq.trans hid
  refine ⟨?_, have1, find?_id hnd hm hid, hm, htyped, hwant.2⟩
  rw [← hxid]
  exact find?_key (fun x : FieldValue => x.label.id) (hids ▸ hnd) hxmem

theorem replica_record {f1 f2 : List Field} (hkids : Replicates w form limit coerce n)
    (hw : s.types = w.store.types) (hl : s.limit = limit) (hx : s.valueAt v = .ok x)
    (hfill : s.Fills w form (s.OfType w form n) x (.record f1)) (h1 : w.StandsFor r1 r1 (.record f1))
    (hd : w.Distinct r1)
    (halike : List.Forall₂ (fun f g => f.label.id = g.label.id ∧ w.SameTree f.type w g.type) f1 f2) :
    Meets (Full limit) (record w.env coerce v f1 f2) s fun v' s' => s.Replica (n + 1) v s' v' := by
  unfold record
  refine meets_known hx ?_
  cases hfill with
  | @record xs _ hxs =>
    have hmatch := matching (hd.node h1) hxs halike
    refine Meets.bind (meets_mapM (P := fun s' want y => y.label = want.label ∧
      ∀ x, Matching s w form n f1 xs want x → s.Replica n x.value s' y.value) ?_ fun want hwant s1 hs1 => ?_)
      fun ys s1 hs1 hys => meets_replica (hs1.limit.trans hl) hx fun d hshow => ?_
    · exact fun s1 s2 want y hs h => ⟨h.1, fun x hx => (h.2 x hx).extends hs.toExtends⟩
    · obtain ⟨x, -, hfound, have1, hhave, hm, htyped, hsame⟩ := forall₂_partner hmatch.flip want hwant
      simp only [hfound, hhave]
      have hw1 : s1.types = w.store.types := hs1.types.trans hw
      refine (hkids x.value _ _ s1 hw1 (hs1.limit.trans hl) (htyped.extends hs1.toExtends)
        (hd.part h1 (List.mem_map_of_mem hm)) hsame).bind fun item s2 _ hitem => meets_pure ⟨rfl, ?_⟩
      rintro x' ⟨hfound', -⟩
      obtain rfl : x = x' := Option.some.inj (hfound.symm.trans hfound')
      exact hitem.since hs1.toExtends
    · cases hshow with
      | @record _ ds hds =>
        refine .record (forall₂_comp (fun y want d hy hwant => ?_) hys.flip (forall₂_comp
          (T := fun want d => ∃ x, Matching s w form n f1 xs want x ∧ x.label.id = d.1 ∧
            s.Holds n x.value d.2)
          (fun want x d hmatch hd => ⟨x, hmatch, hd⟩) hmatch hds))
        obtain ⟨x, hmatch, hid, hd⟩ := hwant
        have hxid : x.label.id = want.label.id := by simpa using List.find?_some hmatch.1
        exact ⟨by rw [hy.1, ← hxid, hid], hy.2 x hmatch d.2 hd⟩

/-- The active field is looked up by its number, and is found where it was. -/
theorem replica_variant {f1 f2 : List Field} (hkids : Replicates w form limit coerce n)
    (hw : s.types = w.store.types) (hl : s.limit = limit) (hx : s.valueAt v = .ok x)
    (hfill : s.Fills w form (s.OfType w form n) x (.variant f1)) (h1 : w.StandsFor r1 r1 (.variant f1))
    (hd : w.Distinct r1)
    (halike : List.Forall₂ (fun f g => f.label.id = g.label.id ∧ w.SameTree f.type w g.type) f1 f2) :
    Meets (Full limit) (variant coerce v f1 f2) s fun v' s' => s.Replica (n + 1) v s' v' := by
  have hnd1 : (f1.map (·.label.id)).Nodup := hd.node h1
  have hnd2 : (f2.map (·.label.id)).Nodup := ids_of_alike halike ▸ hnd1
  unfold variant
  refine meets_known hx ?_
  cases hfill with
  | @variant _ index have1 field hget hlabel hof =>
    obtain ⟨want, hwant, hid, hsame⟩ := forall₂_getElem? halike hget
    have hm1 := List.mem_of_getElem? hget
    have hm2 := List.mem_of_getElem? hwant
    have hwid : want.label.id = field.label.id := hid.symm.trans hlabel.id_eq.symm
    obtain ⟨place, hplace⟩ : ∃ place, f2.findIdx? (·.label.id = field.label.id) = some place := by
      rw [← Option.isSome_iff_exists, List.findIdx?_isSome, List.any_eq_true]
      exact ⟨want, hm2, by simpa using hwid⟩
    have hfind := find?_id hnd2 hm2 hwid
    obtain rfl : index = place := by
      obtain ⟨hlt, -⟩ := List.getElem?_eq_some_iff.mp hwant
      have hboth : f2[index]? = f2[place]? := hwant.trans (getElem?_findIdx? hplace hfind).symm
      have hids : (f2.map (·.label.id))[index]? = (f2.map (·.label.id))[place]? := by
        rw [List.getElem?_map, List.getElem?_map, hboth]
      exact (List.getElem?_inj (by simpa using hlt) hnd2).mp hids
    simp only [find?_id hnd1 hm1 hlabel.id_eq.symm, hplace, hfind]
    refine (hkids _ _ _ s hw hl hof (hd.part h1 (List.mem_map_of_mem hm1)) hsame).bind
      fun item s1 hs1 hitem => meets_replica (hs1.limit.trans hl) hx fun d hshow => ?_
    cases hshow with
    | variant hfid hd => exact .variant (hwid.trans hfid) (hitem _ hd)

theorem replica_opt {i1 i2 : TypeId} (hkids : Replicates w form limit coerce n)
    (hw : s.types = w.store.types) (hl : s.limit = limit) (hx : s.valueAt v = .ok x)
    (hfill : s.Fills w form (s.OfType w form n) x (.opt i1)) (hd : w.Distinct i1)
    (hsame : w.SameTree i1 w i2) :
    Meets (Full limit) (opt w.env coerce v r1 (.opt i1) i2) s fun v' s' => s.Replica (n + 1) v s' v' := by
  unfold opt
  refine meets_known hx ?_
  cases hfill with
  | none =>
    refine meets_replica hl hx fun d hshow => ?_
    cases hshow with
    | none => exact .none
  | @some u _ hof =>
    have hnever : ¬ Full limit .invalid := fun h => absurd h.1 (by simp)
    refine (meets_orNone (hkids u i1 i2 s hw hl hof hd hsame) fun _ => .inr).bind fun o s1 hs1 ho => ?_
    obtain ⟨u', rfl, hu'⟩ := ho.resolve_right fun h => hnever h.2
    refine meets_replica (hs1.limit.trans hl) hx fun d hshow => ?_
    cases hshow with
    | some hd => exact .some (hu' _ hd)

/-- Nodes of the same kind are reshaped by the rule for the kind. -/
theorem replica_nodes (hkids : Replicates w form limit coerce n) (hw : s.types = w.store.types)
    (hl : s.limit = limit) (hx : s.valueAt v = .ok x)
    (hfill : s.Fills w form (s.OfType w form n) x n1) (h1 : w.StandsFor r1 r1 n1) (hd : w.Distinct r1)
    (halike : n1.Alike (fun a b => w.SameTree a w b) n2) :
    Meets (Full limit) (nodes w.env coerce v r1 n1 n2) s fun v' s' => s.Replica (n + 1) v s' v' := by
  cases halike with
  | primitive p =>
    by_cases hp : p = .reserved
    · subst hp
      rw [nodes_reserved]
      cases hfill with
      | reserved => exact meets_replica hl hx fun d hshow => by cases hshow; exact .reserved
    · rw [nodes_same p hp]
      exact meets_itself
  | opt hsame =>
    rw [nodes_opt]
    exact replica_opt hkids hw hl hx hfill (hd.part h1 List.mem_cons_self) hsame
  | vec hsame => exact replica_vec hkids hw hl hx hfill (hd.part h1 List.mem_cons_self) hsame
  | record hsame => exact replica_record hkids hw hl hx hfill h1 hd hsame
  | variant hsame => exact replica_variant hkids hw hl hx hfill h1 hd hsame
  | func => exact meets_itself
  | service => exact meets_itself

/-! ### The whole -/

theorem within_replicates : ∀ n fuel, n ≤ fuel → Replicates w form limit (within w.env fuel) n
  | 0, _, _ => fun _ _ _ _ _ _ h => h.elim
  | n + 1, 0, hle => absurd hle (by omega)
  | n + 1, fuel + 1, hle => by
    intro v t t' s hw hl hv hd hsame
    have hkids : Replicates w form limit (within w.env fuel) n := within_replicates n fuel (by omega)
    have hnode : ∀ {t : TypeId}, s.typeAt t = w.store.typeAt t := by
      intro t
      simp only [Store.typeAt, hw]
    obtain ⟨r1, n1, r2, n2, h1, h2, halike⟩ := hsame.unfold
    obtain ⟨x, hx, hfill⟩ := hv.ofNode h1
    unfold within
    split
    · exact meets_itself
    refine meets_known ((Scope.follow_congr w.env hw t).trans h1.follow) ?_
    refine meets_known ((Scope.follow_congr w.env hw t').trans h2.follow) ?_
    split
    · exact meets_itself
    refine meets_known (hnode.trans h1.node) (meets_known (hnode.trans h2.node) ?_)
    exact replica_nodes hkids hw hl hx hfill h1.root (hd.root h1) halike

/-- A value is reshaped to a type that unfolds to the same tree as its own, unless the store has a limit
    and is full, and is equal to what is made of it. -/
theorem meets_coerce {env : Env} (hv : s.WellTyped env form v t) (hd : Scope.Distinct ⟨s, env⟩ t)
    (hsame : Scope.SameTree ⟨s, env⟩ t ⟨s, env⟩ t') :
    Meets (Full s.limit) (TypedWire.coerce env v t t') s fun v' s' => Store.equal s' v s' v' = .ok true := by
  obtain ⟨depth, hv⟩ := hv
  have hbounded := ofType_bounded hv
  obtain ⟨d, hd'⟩ := hbounded.holds
  have henough : s.values.size * s.types.size ≤ steps s := by
    have := steps_enough_pairs s
    omega
  have hrun := within_replicates _ _ henough v t t' s rfl rfl hbounded hd hsame
  have hcoerce : TypedWire.coerce env v t t' s = within env (steps s) v t t' s := rfl
  unfold Meets Runs
  rw [hcoerce]
  exact hrun.mono fun v' s' hs hv' => Store.equal_of_holds (hd'.extends hs.toExtends) (hv' d hd')

/-- Reshaping between types that unfold to the same tree is the identity: it gives a value that is equal
    to the one it was given, unless the store has a limit and is full. So reshaping is idempotent: what
    it has given for any two types is reshaped to a copy of the expected one, then or at any later time,
    and is equal to what is given for it. -/
theorem coerce_replica (env : Env) (s : Store) (form : Form) (v : ValueId) (t : TypeId)
    (hv : s.WellTyped env form v t) (hd : Scope.Distinct ⟨s, env⟩ t) :
    (∀ t', Scope.SameTree ⟨s, env⟩ t ⟨s, env⟩ t' → Runs (TypedWire.coerce env v t t') s
      (fun v' s' => Store.equal s' v s' v' = .ok true) fun e _ => e = .storeFull ∧ s.limit ≠ none) ∧
    ∀ expected v1 s1, TypedWire.coerce env v t expected s = .ok v1 s1 →
      ∀ env' s2 copy, s1.Extends s2 → Scope.Extends ⟨s1, env⟩ ⟨s2, env'⟩ →
        Scope.Distinct ⟨s2, env'⟩ expected → Scope.SameTree ⟨s2, env'⟩ expected ⟨s2, env'⟩ copy →
        Runs (TypedWire.coerce env' v1 expected copy) s2
          (fun v2 s3 => Store.equal s3 v1 s3 v2 = .ok true) fun e _ => e = .storeFull ∧ s2.limit ≠ none := by
  have hrun : ∀ {env : Env} {s : Store} {form : Form} {v : ValueId} {t t' : TypeId},
      s.WellTyped env form v t → Scope.Distinct ⟨s, env⟩ t → Scope.SameTree ⟨s, env⟩ t ⟨s, env⟩ t' →
      Runs (TypedWire.coerce env v t t') s (fun v' s' => Store.equal s' v s' v' = .ok true)
        fun e _ => e = .storeFull ∧ s.limit ≠ none :=
    fun hv hd hsame => Runs.mono (meets_coerce hv hd hsame) (fun _ _ h => h.2) fun _ _ h => h.2
  refine ⟨fun t' hsame => hrun hv hd hsame, fun expected v1 s1 hrun1 env' s2 copy hs hw hd2 hsame => ?_⟩
  have hloose : s.WellTyped env .loose v t := hv.extends (.refl s) (.refl _) form.implies_loose
  have htyped : s1.WellTyped env .loose v1 expected := ((leads_coerce env expected rfl hloose hd).ok hrun1).2
  exact hrun (htyped.extends hs hw (.refl .loose)) hd2 hsame

/-- A list of two numbers, and two names for the type of lists, each with nodes of its own. -/
def twinLists : Store where
  types := #[.var "list", .primitive .nat, .opt ⟨0⟩, .record [⟨.bare 0, ⟨1⟩⟩, ⟨.bare 1, ⟨2⟩⟩],
    .var "copy", .primitive .nat, .opt ⟨4⟩, .record [⟨.bare 0, ⟨5⟩⟩, ⟨.bare 1, ⟨6⟩⟩]]
  values := #[.nat ⟨0, 0, 1⟩, .opt none, .record [⟨.bare 0, ⟨0⟩⟩, ⟨.bare 1, ⟨1⟩⟩], .opt (some ⟨2⟩),
    .record [⟨.bare 0, ⟨0⟩⟩, ⟨.bare 1, ⟨3⟩⟩]]
  blocks := #[⟨16, #[0x7f]⟩]

/-- What the names stand for. -/
def twinNames : Env := ⟨[("list", ⟨3⟩), ("copy", ⟨7⟩)]⟩

/-- The types of lists, and their names. -/
def twinScope : Scope := ⟨twinLists, twinNames⟩

theorem twinLists_sameTree : twinScope.SameTree ⟨0⟩ twinScope ⟨4⟩ := by
  refine ⟨fun a b => a.index < 4 ∧ b = ⟨a.index + 4⟩, ?_, by decide, rfl⟩
  have hnumbers : (TypeNode.primitive .nat).Alike (fun a b => a.index < 4 ∧ b = ⟨a.index + 4⟩)
      (.primitive .nat) := .primitive .nat
  have hrests : (TypeNode.opt ⟨0⟩).Alike (fun a b => a.index < 4 ∧ b = ⟨a.index + 4⟩) (.opt ⟨4⟩) :=
    .opt ⟨by decide, rfl⟩
  have hlists : (TypeNode.record [⟨.bare 0, ⟨1⟩⟩, ⟨.bare 1, ⟨2⟩⟩]).Alike
      (fun a b => a.index < 4 ∧ b = ⟨a.index + 4⟩) (.record [⟨.bare 0, ⟨5⟩⟩, ⟨.bare 1, ⟨6⟩⟩]) :=
    .record (.cons ⟨rfl, by decide, rfl⟩ (.cons ⟨rfl, by decide, rfl⟩ .nil))
  rintro ⟨_ | _ | _ | _ | a⟩ b ⟨ha, rfl⟩
  · exact ⟨⟨3⟩, _, ⟨7⟩, _, ⟨rfl, rfl⟩, ⟨rfl, rfl⟩, hlists⟩
  · exact ⟨⟨1⟩, _, ⟨5⟩, _, ⟨rfl, rfl⟩, ⟨rfl, rfl⟩, hnumbers⟩
  · exact ⟨⟨2⟩, _, ⟨6⟩, _, ⟨rfl, rfl⟩, ⟨rfl, rfl⟩, hrests⟩
  · exact ⟨⟨3⟩, _, ⟨7⟩, _, ⟨rfl, rfl⟩, ⟨rfl, rfl⟩, hlists⟩
  · exact absurd ha (by simp)

theorem twinLists_wellTyped : twinLists.WellTyped twinNames .decoded ⟨4⟩ ⟨0⟩ := by
  have hnumber : ∀ depth, twinLists.OfType twinScope .decoded (depth + 1) ⟨0⟩ ⟨1⟩ := fun _ =>
    ⟨⟨1⟩, _, ⟨rfl, rfl⟩, _, rfl, .nat rfl (by decide)⟩
  have hend : twinLists.OfType twinScope .decoded 1 ⟨1⟩ ⟨2⟩ := ⟨⟨2⟩, _, ⟨rfl, rfl⟩, _, rfl, .none ⟨0⟩⟩
  have hlast : twinLists.OfType twinScope .decoded 2 ⟨2⟩ ⟨0⟩ :=
    ⟨⟨3⟩, _, ⟨rfl, rfl⟩, _, rfl, .record (.cons ⟨rfl, hnumber 0⟩ (.cons ⟨rfl, hend⟩ .nil))⟩
  have hrest : twinLists.OfType twinScope .decoded 3 ⟨3⟩ ⟨2⟩ := ⟨⟨2⟩, _, ⟨rfl, rfl⟩, _, rfl, .some hlast⟩
  exact ⟨4, ⟨3⟩, _, ⟨rfl, rfl⟩, _, rfl, .record (.cons ⟨rfl, hnumber 2⟩ (.cons ⟨rfl, hrest⟩ .nil))⟩

theorem twinLists_replica : ∃ v1 s1, TypedWire.coerce twinNames ⟨4⟩ ⟨0⟩ ⟨4⟩ twinLists = .ok v1 s1 ∧
    Store.equal s1 ⟨4⟩ s1 v1 = .ok true ∧ ∃ v2 s2, TypedWire.coerce twinNames v1 ⟨4⟩ ⟨0⟩ s1 = .ok v2 s2 ∧
      Store.equal s2 v1 s2 v2 = .ok true := by
  have hd : ∀ t, twinScope.Distinct t := .of_store (by decide)
  obtain ⟨hcopy, hagain⟩ := coerce_replica twinNames twinLists .decoded ⟨4⟩ ⟨0⟩ twinLists_wellTyped (hd _)
  obtain ⟨v1, s1, hrun, hequal⟩ := ((hcopy ⟨4⟩ twinLists_sameTree).mono (fun _ _ => id)
    fun _ _ h => h.2 rfl).succeeds
  have hloose := twinLists_wellTyped.extends (.refl twinLists) (.refl _) (Form.implies_loose _)
  have hgrows : twinLists.Grows s1 := ((leads_coerce twinNames ⟨4⟩ rfl hloose (hd _)).ok hrun).1
  have hw := Scope.extends_store twinNames hgrows.toExtends
  have hd1 : ∀ t, Scope.Distinct ⟨s1, twinNames⟩ t := .of_store (hgrows.types ▸ (by decide))
  have hback := hagain ⟨4⟩ v1 s1 hrun twinNames s1 ⟨0⟩ (.refl s1) (.refl _) (hd1 _)
    (twinLists_sameTree.symm.extends hw hw)
  obtain ⟨v2, s2, hrun2, hequal2⟩ := (hback.mono (fun _ _ => id) fun _ _ h => h.2 hgrows.limit).succeeds
  exact ⟨v1, s1, hrun, hequal, v2, s2, hrun2, hequal2⟩

end Coerce

end TypedWire
