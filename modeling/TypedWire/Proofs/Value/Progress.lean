import Mathlib.Algebra.Order.BigOperators.Group.List
import Mathlib.Tactic.Linarith
import TypedWire.Value.Coerce
import TypedWire.Proofs.Number.Leb128
import TypedWire.Proofs.Schema.Canonical
import TypedWire.Proofs.Value.Depth

/-! Reshaping comes to an end. A well typed value is reshaped to every type that its own fits; to any
    other type it is reshaped, or found not to match. Under an `opt` the latter is swallowed, so both
    are shown at once: a fault says that the types do not fit, or that there is no room for a number that
    is widened, and is never any other. -/

namespace TypedWire

/-! ### Numbers that are widened -/

/-- How long a natural number is when it is widened. -/
def Datum.wide? : Datum → Option Nat
  | .nat bytes => (Leb128.widen bytes).toOption.map List.length
  | _ => none

/-- How long the natural numbers of a tree are when they are widened. -/
def Datum.widened (d : Datum) : List Nat := d.leaves.filterMap Datum.wide?

namespace Datum

theorem widened_nat {bytes wide : List UInt8} (h : Leb128.widen bytes = .ok wide) :
    (Datum.nat bytes).widened = [wide.length] := by
  simp [widened, leaves, wide?, h, Except.toOption]

theorem widened_fixed (b : FixedNumber) : (Datum.fixed b).widened = [] := by
  simp [widened, leaves, wide?]

theorem widened_vec (ds : List Datum) : (Datum.vec ds).widened = ds.flatMap widened := by
  rw [widened, leaves, itemLeaves_eq, List.filterMap_flatMap]
  rfl

theorem widened_record (ds : List (UInt32 × Datum)) :
    (Datum.record ds).widened = ds.flatMap fun d => d.2.widened := by
  rw [widened, leaves, fieldLeaves_eq, List.filterMap_flatMap]
  rfl

end Datum

theorem sum_flatMap {α : Type} (f : α → List Nat) (xs : List α) :
    (xs.flatMap f).sum = (xs.map fun x => (f x).sum).sum := by
  rw [List.flatMap_def, List.sum_flatten, List.map_map]
  rfl

/-- What is found by different keys is not counted twice. -/
theorem sum_find?_le {α κ : Type} [DecidableEq κ] (key : α → κ) (weight : α → Nat) (xs : List α)
    {ks : List κ} (hks : ks.Nodup) :
    (ks.map fun k => (xs.find? (key · = k)).elim 0 weight).sum ≤ (xs.map weight).sum := by
  have hfound : ∀ ks : List κ, (ks.map fun k => (xs.find? (key · = k)).elim 0 weight).sum =
      ((ks.filterMap fun k => xs.find? (key · = k)).map weight).sum := by
    intro ks
    induction ks with
    | nil => rfl
    | cons k ks ih => cases hk : xs.find? (key · = k) <;> simp [hk, ih]
  have hkey : ∀ {k x}, xs.find? (key · = k) = some x → key x = k := fun h => by
    simpa using List.find?_some h
  have hnodup : (ks.filterMap fun k => xs.find? (key · = k)).Nodup :=
    hks.filterMap fun k k' x hx hx' => (hkey hx).symm.trans (hkey hx')
  have hsub : (ks.filterMap fun k => xs.find? (key · = k)) ⊆ xs := by
    intro x hx
    obtain ⟨k, -, hk⟩ := List.mem_filterMap.mp hx
    exact List.mem_of_find?_eq_some hk
  obtain ⟨ys, hperm, hsublist⟩ := List.subperm_of_subset hnodup hsub
  calc _ = (ys.map weight).sum := (hfound ks).trans (hperm.map weight).sum_eq.symm
    _ ≤ (xs.map weight).sum := (hsublist.map weight).sum_le_sum fun _ _ => Nat.zero_le _

namespace Coerce

open TypedWire.Action

variable {w : Scope} {s s1 s' : Store} {α : Type} {must : Prop} {v : ValueId} {x : Value} {d : Datum}
variable {t wire expected r1 r2 : TypeId} {n1 n2 : TypeNode} {n m fuel i j k : Nat}
variable {lengths : Nat → Prop}

/-! ### Runs that may find a mismatch -/

/-- How a run may fail: it finds a mismatch, if it need not end well, or the store runs out at a byte string
    of one of the `lengths`. Byte strings of at most `k` bytes in all have been put in. -/
def Misses (must : Prop) (k : Nat) (lengths : Nat → Prop) (s : Store) (e : Fault) (s' : Store) : Prop :=
  e = .invalid ∧ ¬ must ∧ s.Grows s' ∧ s.Spends k s' ∨ e = .storeFull ∧ s.RunsOut k lengths s'

theorem Misses.after {e : Fault} (h : Misses must j lengths s1 e s') (hs : s.Grows s1)
    (hspends : s.Spends i s1) (hle : i + j ≤ k) : Misses must k lengths s e s' := by
  rcases h with ⟨he, hm, hg, hmore⟩ | ⟨he, hout⟩
  · exact .inl ⟨he, hm, hs.trans hg, (hspends.trans hmore).le hle⟩
  · exact .inr ⟨he, (hout.after hspends hs.limit).mono hle fun _ => id⟩

/-- The run ends in a store that has grown, with byte strings of at most `k` bytes in all, or fails as it
    may. -/
def Tries (must : Prop) (k : Nat) (lengths : Nat → Prop) (x : Action Store α) (s : Store) : Prop :=
  Runs x s (fun _ s' => s.Grows s' ∧ s.Spends k s') (Misses must k lengths s)

theorem Tries.after {x : Action Store α} (h : Tries must j lengths x s1) (hs : s.Grows s1)
    (hspends : s.Spends i s1) (hle : i + j ≤ k) :
    Runs x s1 (fun _ s' => s.Grows s' ∧ s.Spends k s') (Misses must k lengths s) :=
  h.mono (fun _ _ ⟨hg, hmore⟩ => ⟨hs.trans hg, (hspends.trans hmore).le hle⟩)
    fun _ _ he => he.after hs hspends hle

theorem Tries.le {x : Action Store α} (h : Tries must j lengths x s) (hle : j ≤ k) :
    Tries must k lengths x s := h.after (.refl s) (.refl s 0) (by omega)

theorem Tries.weaken {must' : Prop} {x : Action Store α} (hm : must → must')
    (h : Tries must' k lengths x s) : Tries must k lengths x s :=
  h.mono (fun _ _ => id) fun _ _ he =>
    he.imp_left fun ⟨he, hmust, hg⟩ => ⟨he, fun hneed => hmust (hm hneed), hg⟩

theorem tries_pure (a : α) : Tries must k lengths (pure a) s := runs_pure ⟨.refl s, .refl s k⟩

theorem tries_fail (h : ¬ must) : Tries must k lengths (fail .invalid : Action Store α) s :=
  runs_fail (.inl ⟨rfl, h, .refl s, .refl s k⟩)

/-- What follows puts no bytes in. -/
theorem tries_last {β : Type} {x : Action Store α} {f : α → Action Store β}
    (hx : Tries must k lengths x s) (hf : ∀ a s1, s.Grows s1 → Tries must 0 lengths (f a) s1) :
    Tries must k lengths (x >>= f) s :=
  runs_bind (hx.post_mono fun a s1 ⟨hs, hspends⟩ => (hf a s1 hs).after hs hspends (Nat.le_refl k))

theorem runs_look {f : Store → Except Fault α} {a : α} {post : α → Store → Prop}
    {lost : Fault → Store → Prop} (h : f s = .ok a) (hp : post a s) : Runs (look f) s post lost :=
  runs_of_ok (by simp [look, h]) hp

theorem tries_look {β : Type} {f : Store → Except Fault α} {g : α → Action Store β} {a : α}
    (h : f s = .ok a) (hg : Tries must k lengths (g a) s) : Tries must k lengths (look f >>= g) s :=
  runs_bind (runs_look h hg)

theorem tries_look_fault {β : Type} {f : Store → Except Fault α} {g : α → Action Store β}
    (h : f s = .error .invalid) (hm : ¬ must) : Tries must k lengths (look f >>= g) s :=
  runs_bind (runs_of_error (by simp only [look, h]) (.inl ⟨rfl, hm, .refl s, .refl s k⟩))

theorem runs_putValue (hl : s.limit = none) (x : Value) : Runs (Store.putValue x) s
    (fun v s' => s.Grows s' ∧ s'.valueAt v = .ok x ∧ s.Spends 0 s') fun _ _ => False :=
  (Store.runs_putValue s x).mono (fun _ _ ⟨hs, hv, _, hspends⟩ => ⟨hs, hv, hspends⟩)
    fun _ _ he => he.2.2 hl

theorem tries_putValue (hl : s.limit = none) (x : Value) :
    Tries must k lengths (Store.putValue x) s :=
  (runs_putValue hl x).mono (fun _ _ ⟨hs, _, hspends⟩ => ⟨hs, hspends.le (Nat.zero_le k)⟩)
    fun _ _ => False.elim

/-- What does not match is left out, and nothing else goes wrong but that the store runs out. -/
theorem tries_orNone {must' : Prop} {x : Action Store ValueId} (h : Tries must' k lengths x s) :
    Tries must k lengths (orNone x) s := by
  rcases h.ends with ⟨a, s', hx, hok⟩ | ⟨e, s', hx, ⟨rfl, -, hleft⟩ | ⟨rfl, hout⟩⟩
  · have hrun : orNone x s = .ok (some a) s' := by simp only [orNone, hx]
    exact runs_of_ok hrun hok
  · have hrun : orNone x s = .ok none s' := by simp only [orNone, hx]
    exact runs_of_ok hrun hleft
  · have hrun : orNone x s = .error .storeFull s' := by simp only [orNone, hx]
    exact runs_of_error hrun (.inr ⟨rfl, hout⟩)

/-- Each of the runs puts in as many bytes as what it goes with weighs. -/
theorem tries_mapM {β γ : Type} {f : α → Action Store β} (weight : γ → Nat) :
    ∀ {xs : List α} {ys : List γ} {s : Store},
      List.Forall₂ (fun x y => ∀ s1, s.Grows s1 → Tries must (weight y) lengths (f x) s1) xs ys →
      Tries must (ys.map weight).sum lengths (xs.mapM f) s
  | [], [], s, .nil => runs_mapM_nil ⟨.refl s, .refl s 0⟩
  | x :: xs, y :: ys, s, .cons hx hxs => by
    rw [List.map_cons, List.sum_cons]
    refine runs_mapM_cons ((hx s (.refl s)).mono ?_ fun e s1 he => ?_)
    · rintro b s1 ⟨hs, hspends⟩
      have hrest : Tries must (ys.map weight).sum lengths (xs.mapM f) s1 :=
        tries_mapM weight (hxs.imp fun _ _ h s2 hs2 => h s2 (hs.trans hs2))
      exact hrest.after hs hspends (Nat.le_refl _)
    · exact he.after (.refl s) (.refl s 0) (by omega)

/-! ### Looking a type up -/

/-- The store has the types of the scope, and no limit. -/
structure Ready (w : Scope) (s : Store) : Prop where
  types : s.types = w.store.types
  limit : s.limit = none

theorem Ready.grows (h : Ready w s) (hg : s.Grows s') : Ready w s' :=
  ⟨hg.types.trans h.types, hg.limit.trans h.limit⟩

theorem Ready.follow (h : Ready w s) (t : TypeId) : w.env.follow s t = w.env.follow w.store t :=
  Scope.follow_congr w.env h.types t

theorem Ready.resolve (h : Ready w s) (t : TypeId) : w.env.resolve s t = w.env.resolve w.store t :=
  Scope.resolve_congr w.env h.types t

theorem Ready.typeAt (h : Ready w s) (t : TypeId) : s.typeAt t = w.store.typeAt t := by
  simp only [Store.typeAt, h.types]

/-! ### Types that must be reshaped to -/

/-- A value of the first type must be reshaped to the second. -/
abbrev Fitting (w : Scope) : TypeId → TypeId → Prop := w.Fits .lenient

theorem standsFor_or (w : Scope) (t : TypeId) :
    (∃ r n, w.StandsFor t r n) ∨ w.env.follow w.store t = .error .invalid := by
  cases hr : w.env.follow w.store t with
  | ok r => exact .inl ⟨r, Scope.StandsFor.of_follow hr⟩
  | error e => exact .inr (Scope.follow_fault hr ▸ rfl)

theorem resolve_of_follow_fault (h : w.env.follow w.store t = .error .invalid) :
    w.env.resolve w.store t = .error .invalid :=
  Except.bind_eq_error.mpr (.inl h)

/-- Reshaping by `coerce` of values that nest at most `n` deep, or are single numbers, finds nothing
    worse than a mismatch, as long as there is room for the natural numbers when they are widened. -/
def Handles (w : Scope) (lengths : Nat → Prop)
    (coerce : ValueId → TypeId → TypeId → Action Store ValueId) (n : Nat) : Prop :=
  ∀ v d m wire expected s, Ready w s → (s.Holds n v d ∨ s.Holds 1 v d ∧ ∃ b, d = .fixed b) →
    (∀ i ∈ d.widened, lengths i) → w.Types m d wire → w.Distinct wire → w.Distinct expected →
    Tries (Fitting w wire expected) d.widened.sum lengths (coerce v wire expected) s

variable {coerce : ValueId → TypeId → TypeId → Action Store ValueId}

/-! ### Lists -/

theorem runs_items_blob : ∀ (bytes : List UInt8) {s : Store}, s.limit = none →
    Runs (bytes.mapM fun b => Store.putValue (.fixed (.ofByte b))) s
      (fun ids s' => s.Grows s' ∧ s.Spends 0 s' ∧
        List.Forall₂ (s'.Holds 1) ids (bytes.map fun b => .fixed (.ofByte b))) fun _ _ => False
  | [], s, _ => runs_mapM_nil ⟨.refl s, .refl s 0, .nil⟩
  | b :: bytes, s, hl => by
    refine runs_mapM_cons ((runs_putValue hl _).post_mono ?_)
    rintro id s1 ⟨hs1, hid, hspends⟩
    refine (runs_items_blob bytes (hs1.limit.trans hl)).post_mono ?_
    rintro ids s' ⟨hs', hmore, hids⟩
    refine ⟨hs1.trans hs', hspends.trans hmore, .cons ?_ hids⟩
    exact Store.Holds.extends hs'.toExtends ⟨_, hid, .fixed _⟩

/-- Items that can each be reshaped are reshaped together. -/
theorem items_tries {e1 e2 : TypeId} {ids : List ValueId} {ds : List Datum}
    (hkids : Handles w lengths coerce n) (hr : Ready w s) (hd1 : w.Distinct e1) (hd2 : w.Distinct e2)
    (hids : List.Forall₂ (fun id d => s.Holds n id d ∨ s.Holds 1 id d ∧ ∃ b, d = .fixed b) ids ds)
    (hds : ∀ d ∈ ds, (∀ i ∈ d.widened, lengths i) ∧ ∃ m, w.Types m d e1) :
    Tries (Fitting w e1 e2) (ds.map (·.widened.sum)).sum lengths (do
      let items ← ids.mapM fun item => coerce item e1 e2
      Store.putValue (.vec items)) s := by
  have hall := (List.forall₂_and_left _ _).mpr ⟨hds, hids.flip⟩
  refine tries_last (tries_mapM _ (hall.flip.imp ?_)) fun _ s1 hs1 =>
    tries_putValue (hr.grows hs1).limit _
  rintro id d ⟨⟨hlengths, m, ht⟩, hd⟩ s1 hs1
  refine hkids id d m e1 e2 s1 (hr.grows hs1) (hd.imp ?_ ?_) hlengths ht hd1 hd2
  · exact Store.Holds.extends hs1.toExtends
  · exact fun h => ⟨Store.Holds.extends hs1.toExtends h.1, h.2⟩

theorem vec_tries {e1 e2 : TypeId} (hkids : Handles w lengths coerce n) (hr : Ready w s)
    (hx : s.valueAt v = .ok x) (hshow : s.Shows (s.Holds n) x d) (hlengths : ∀ i ∈ d.widened, lengths i)
    (hadm : w.Admits (w.Types m) (.vec e1) d) (hd1 : w.Distinct e1) (hd2 : w.Distinct e2) :
    Tries (Fitting w e1 e2) d.widened.sum lengths (vec w.env coerce v e1 e2) s := by
  unfold vec
  refine tries_look hx ?_
  cases hadm with
  | @blob _ r bytes hnat8 _ =>
    cases hshow with
    | blob hb =>
      rcases standsFor_or w e2 with ⟨r2, n2, h2⟩ | hnone
      · refine tries_look ((hr.resolve e2).trans h2.resolve) ?_
        split
        · exact tries_pure v
        · refine runs_bind (runs_bind (runs_look hb ?_))
          refine (runs_items_blob bytes hr.limit).mono ?_ fun _ _ => False.elim
          rintro ids s1 ⟨hs1, hspends, hids⟩
          have hbytes : List.Forall₂ (fun id d => s1.Holds n id d ∨ s1.Holds 1 id d ∧ ∃ b, d = .fixed b) ids
              (bytes.map fun b => .fixed (.ofByte b)) := by
            rw [List.forall₂_map_right_iff] at hids ⊢
            exact hids.imp fun id b hid => .inr ⟨hid, _, rfl⟩
          refine (items_tries hkids (hr.grows hs1) hd1 hd2 hbytes ?_).after hs1 hspends ?_
          · rintro d hd
            obtain ⟨b, -, rfl⟩ := List.mem_map.mp hd
            exact ⟨by simp [Datum.widened_fixed], 1, r, _, hnat8, .fixed (.ofByte b)⟩
          · simp [Function.comp_def, Datum.widened_fixed]
      · refine tries_look_fault ((hr.resolve e2).trans (resolve_of_follow_fault hnone)) fun hf => ?_
        obtain ⟨r2, n2, h2⟩ := hf.standsFor hnat8
        exact absurd (h2.follow.symm.trans hnone) (by simp)
  | vec _ hall =>
    cases hshow with
    | vec hids =>
      rw [Datum.widened_vec] at hlengths ⊢
      rw [sum_flatMap]
      refine runs_bind (runs_pure ?_)
      refine items_tries hkids hr hd1 hd2 (hids.imp fun _ _ h => .inl h) fun d hd => ⟨fun i hi => ?_, m, ?_⟩
      · exact hlengths i (List.mem_flatMap_of_mem hd hi)
      · exact hall d hd

/-! ### Records and variants -/

/-- What a stored record shows at a number that its type has. -/
theorem field_shown {fields : List Field} {fs : List FieldValue} {ds : List (UInt32 × Datum)}
    {f : Field} {field : FieldValue} {id : UInt32} (hd : (TypeNode.record fields).Distinct)
    (hadm : w.Admits (w.Types m) (.record fields) (.record ds))
    (hshow : List.Forall₂ (fun f d => f.label.id = d.1 ∧ s.Holds n f.value d.2) fs ds)
    (hf : f ∈ fields) (hid : f.label.id = id) (hfield : fs.find? (·.label.id = id) = some field) :
    ∃ d, ds.find? (·.1 = id) = some d ∧ s.Holds n field.value d.2 ∧ w.Types m d.2 f.type := by
  obtain ⟨d, hfound, -, hholds⟩ := forall₂_find? (q := fun d : UInt32 × Datum => d.1 = id)
    (fun f d h => by rw [h.1]) hshow hfield
  have hlab : d.1 = id := by simpa using List.find?_some hfound
  cases hadm with
  | @record _ ordered given _ hordered hperm hds =>
    have hmem : d ∈ ordered :=
      (((inLabelOrder?_perm hds).trans hperm).mem_iff).mp (List.mem_of_find?_eq_some hfound)
    obtain ⟨g, hg, hglab, htypes⟩ := forall₂_partner hordered d hmem
    obtain rfl := List.inj_on_of_nodup_map hd hg hf (by rw [hglab, hlab, hid])
    exact ⟨d, hfound, hholds, htypes⟩

/-- A look-up by number among fields whose numbers differ finds the field that has it. -/
theorem find?_id {fields : List Field} {f : Field} {id : UInt32}
    (hd : (fields.map (·.label.id)).Nodup) (hf : f ∈ fields) (hid : f.label.id = id) :
    fields.find? (·.label.id = id) = some f := by
  subst hid
  exact find?_key (fun f : Field => f.label.id) hd hf

/-- A stored record has a field for each number that its type has. -/
theorem field_given {fields : List Field} {fs : List FieldValue} {ds : List (UInt32 × Datum)} {f : Field}
    (hadm : w.Admits (w.Types m) (.record fields) (.record ds))
    (hshow : List.Forall₂ (fun f d => f.label.id = d.1 ∧ s.Holds n f.value d.2) fs ds)
    (hf : f ∈ fields) : ∃ field, fs.find? (·.label.id = f.label.id) = some field := by
  cases hadm with
  | record hordered hperm hds =>
    obtain ⟨e, he, hlab, -⟩ := forall₂_partner hordered.flip f hf
    obtain ⟨field, hfield, hid, -⟩ :=
      forall₂_partner hshow e (((inLabelOrder?_perm hds).trans hperm).mem_iff.mpr he)
    rw [← Option.isSome_iff_exists, List.find?_isSome]
    exact ⟨field, hfield, by simp [hid, hlab]⟩

theorem missing_tries (hr : Ready w s) (hm : must → w.Optional t) :
    Tries must k lengths (missing w.env t) s := by
  unfold missing
  rcases standsFor_or w t with ⟨r, n, h⟩ | hnone
  · refine tries_look ((hr.resolve t).trans h.resolve) ?_
    split
    · exact tries_putValue hr.limit _
    · exact tries_putValue hr.limit _
    · exact tries_putValue hr.limit _
    · next hopt hnull hres =>
      refine tries_fail fun hmust => ?_
      rcases h.optional_iff.mp (hm hmust) with rfl | rfl | ⟨i, rfl⟩
      · exact hnull rfl
      · exact hres rfl
      · exact hopt i rfl
  · refine tries_look_fault ((hr.resolve t).trans (resolve_of_follow_fault hnone)) fun hmust => ?_
    obtain ⟨r, n, h⟩ := (hm hmust).standsFor
    exact absurd (h.follow.symm.trans hnone) (by simp)

theorem record_tries {f1 f2 : List Field} (hkids : Handles w lengths coerce n) (hr : Ready w s)
    (hx : s.valueAt v = .ok x) (hshow : s.Shows (s.Holds n) x d) (hlengths : ∀ i ∈ d.widened, lengths i)
    (hadm : w.Admits (w.Types m) (.record f1) d) (h1 : w.StandsFor r1 r1 (.record f1))
    (h2 : w.StandsFor r2 r2 (.record f2)) (hd1 : w.Distinct r1) (hd2 : w.Distinct r2) :
    Tries (w.Rule .lenient (Fitting w) r1 (.record f1) (.record f2)) d.widened.sum lengths
      (record w.env coerce v f1 f2) s := by
  unfold record
  refine tries_look hx ?_
  have hnd : (f1.map (·.label.id)).Nodup := hd1.node h1
  have hnd2 : (f2.map (·.label.id)).Nodup := hd2.node h2
  cases hadm with
  | @record _ ordered given ds hordered hperm hds =>
    cases hshow with
    | @record fs _ hfs =>
      rw [Datum.widened_record] at hlengths ⊢
      rw [sum_flatMap]
      -- The fields wanted have different numbers, so no field of the value is reshaped twice.
      have hshares := sum_find?_le (·.1) (fun d : UInt32 × Datum => d.2.widened.sum) ds hnd2
      rw [List.map_map] at hshares
      refine (tries_last (tries_mapM _ (List.forall₂_same.mpr fun want hw s1 hs1 => ?_))
        fun _ s1 hs1 => tries_putValue (hr.grows hs1).limit _).le hshares
      dsimp only [Function.comp]
      have hwant : w.Distinct want.type := hd2.part h2 (List.mem_map_of_mem hw)
      split
      · next field have1 hfield hhave =>
        have hm := List.mem_of_find?_eq_some hhave
        have hid : have1.label.id = want.label.id := by simpa using List.find?_some hhave
        obtain ⟨e, hfound, he, ht⟩ :=
          field_shown (m := m) hnd (.record hordered hperm hds) hfs hm hid hfield
        rw [hfound]
        have hwide : ∀ i ∈ e.2.widened, lengths i := fun i hi =>
          hlengths i (List.mem_flatMap_of_mem (List.mem_of_find?_eq_some hfound) hi)
        refine tries_last (Tries.weaken (fun hrule => ?_) (hkids _ e.2 m _ _ s1 (hr.grows hs1)
          (.inl (Store.Holds.extends hs1.toExtends he)) hwide ht
          (hd1.part h1 (List.mem_map_of_mem hm)) hwant)) fun _ _ _ => tries_pure _
        cases hrule with
        | record hall =>
          rcases hall want hw with ⟨a, ha, hida, hfit⟩ | ⟨-, hnone⟩
          · obtain rfl := List.inj_on_of_nodup_map hnd ha hm (hida.trans hid.symm)
            exact hfit
          · exact absurd hid (hnone have1 hm)
      · next hnone =>
        refine tries_last (missing_tries (hr.grows hs1) fun hrule => ?_) fun _ _ _ => tries_pure _
        cases hrule with
        | record hall =>
          rcases hall want hw with ⟨a, ha, hida, -⟩ | ⟨hopt, -⟩
          · -- The field is in the type, so the value has it too.
            obtain ⟨field, hfield⟩ := field_given (.record hordered hperm hds) hfs ha
            exact (hnone field a (hida ▸ hfield) (find?_id hnd ha hida)).elim
          · exact hopt

theorem variant_tries {f1 f2 : List Field} (hkids : Handles w lengths coerce n) (hr : Ready w s)
    (hx : s.valueAt v = .ok x) (hshow : s.Shows (s.Holds n) x d) (hlengths : ∀ i ∈ d.widened, lengths i)
    (hadm : w.Admits (w.Types m) (.variant f1) d) (h1 : w.StandsFor r1 r1 (.variant f1))
    (h2 : w.StandsFor r2 r2 (.variant f2)) (hd1 : w.Distinct r1) (hd2 : w.Distinct r2) :
    Tries (w.Rule .lenient (Fitting w) r1 (.variant f1) (.variant f2)) d.widened.sum lengths
      (variant coerce v f1 f2) s := by
  unfold variant
  refine tries_look hx ?_
  have hnd1 : (f1.map (·.label.id)).Nodup := hd1.node h1
  have hnd2 : (f2.map (·.label.id)).Nodup := hd2.node h2
  cases hadm with
  | @variant _ index have1 e hget htypes =>
    cases hshow with
    | @variant _ field _ _ hid hholds =>
      have hm := List.mem_of_getElem? hget
      simp only [find?_id hnd1 hm hid.symm]
      have hlost : f2.find? (·.label.id = field.label.id) = none →
          ¬ w.Rule .lenient (Fitting w) r1 (.variant f1) (.variant f2) := by
        intro hnone hrule
        cases hrule with
        | variant hall =>
          obtain ⟨want, hw, hwid, -⟩ := hall have1 hm
          simpa [hwid, hid] using List.find?_eq_none.mp hnone want hw
      split
      · next _ have2 place want hhave _ hwant =>
        obtain rfl := Option.some.inj hhave
        have hw := List.mem_of_find?_eq_some hwant
        have hwid : want.label.id = field.label.id := by simpa using List.find?_some hwant
        refine tries_last (Tries.weaken (fun hrule => ?_) (hkids _ e m _ _ s hr (.inl hholds) hlengths
          htypes (hd1.part h1 (List.mem_map_of_mem hm)) (hd2.part h2 (List.mem_map_of_mem hw))))
          fun _ s1 hs1 => tries_putValue (hr.grows hs1).limit _
        cases hrule with
        | variant hall =>
          obtain ⟨a, ha, hida, hfit⟩ := hall have1 hm
          obtain rfl := List.inj_on_of_nodup_map hnd2 ha hw (by rw [hida, hwid, hid])
          exact hfit
      · next hall =>
        refine tries_fail (hlost ?_)
        cases hwant : f2.find? (·.label.id = field.label.id) with
        | none => rfl
        | some want =>
          have hplace : (f2.findIdx? (·.label.id = field.label.id)).isSome := by
            rw [List.findIdx?_isSome, List.any_eq_true]
            exact ⟨want, List.mem_of_find?_eq_some hwant, by simpa using List.find?_some hwant⟩
          obtain ⟨place, hplace⟩ := Option.isSome_iff_exists.mp hplace
          exact (hall _ _ _ rfl hplace hwant).elim

/-! ### One level -/

theorem widen_tries (hr : Ready w s) (hx : s.valueAt v = .ok x) (hshow : s.Shows (s.Holds n) x d)
    (hlengths : ∀ i ∈ d.widened, lengths i) (hadm : w.Admits (w.Types m) (.primitive .nat) d) :
    Tries must d.widened.sum lengths (widen v) s := by
  cases hadm with
  | @nat bytes hnum hpay =>
    cases hshow with
    | nat hb =>
      obtain ⟨wide, hwide, hwnum, -⟩ := Leb128.widen_isNumber hnum
      rw [Datum.widened_nat hwide] at hlengths ⊢
      have hread : Leb128.readLength wide = .ok wide.length := by
        simpa using Leb128.readLength_append hwnum []
      unfold widen
      refine tries_look hx (tries_look hb (runs_bind (runs_ofExcept hwide ?_)))
      unfold Store.putInt Store.putNumber
      refine runs_bind (runs_bind (runs_ofExcept hread ?_))
      rw [if_neg (by simp)]
      refine (Store.runs_putBytes s wide).mono ?_ ?_
      · rintro p s1 ⟨hs1, -, hspends⟩
        exact (tries_putValue (hr.grows hs1.toGrows).limit _).after hs1.toGrows hspends (Nat.le_refl _)
      · rintro e s1 ⟨-, rfl, hout⟩
        refine .inr ⟨rfl, hout.mono (Nat.le_refl _) ?_⟩
        rintro _ rfl
        exact hlengths _ (List.mem_singleton_self _)

/-- Where no `opt` is expected, the parts are reshaped one level down. -/
theorem nodes_tries (hkids : (∀ b, d ≠ .fixed b) → Handles w lengths coerce n) (hr : Ready w s)
    (hx : s.valueAt v = .ok x) (hshow : s.Shows (s.Holds n) x d) (hlengths : ∀ i ∈ d.widened, lengths i)
    (hadm : w.Admits (w.Types m) n1 d) (h1 : w.StandsFor r1 r1 n1) (h2 : w.StandsFor r2 r2 n2)
    (hd1 : w.Distinct r1) (hd2 : w.Distinct r2) (hopt : ∀ i, n2 ≠ .opt i) :
    Tries (w.Rule .lenient (Fitting w) r1 n1 n2) d.widened.sum lengths
      (nodes w.env coerce v r1 n1 n2) s := by
  unfold nodes
  split
  · exact tries_putValue hr.limit _
  · exact widen_tries hr hx hshow hlengths hadm
  · next p q hres hwiden =>
    split
    · exact tries_pure v
    · next hne =>
      refine tries_fail fun hrule => ?_
      cases hrule with
      | reserved => exact hres rfl
      | empty => cases hadm
      | widen => exact hwiden rfl rfl
      | primitive => exact hne rfl
  · exact absurd rfl (hopt _)
  · next e1 e2 =>
    have hkids := hkids (by rintro b rfl; cases hadm)
    refine Tries.weaken (fun hrule => ?_) (vec_tries hkids hr hx hshow hlengths hadm
      (hd1.part h1 List.mem_cons_self) (hd2.part h2 List.mem_cons_self))
    cases hrule with
    | vec hfit => exact hfit
  · exact record_tries (hkids (by rintro b rfl; cases hadm)) hr hx hshow hlengths hadm h1 h2 hd1 hd2
  · exact variant_tries (hkids (by rintro b rfl; cases hadm)) hr hx hshow hlengths hadm h1 h2 hd1 hd2
  · exact tries_pure v
  · exact tries_pure v
  · next hres _ hwiden hprim hvec hrec hvar hfunc hserv =>
    refine tries_fail fun hrule => ?_
    cases hrule with
    | reserved => exact hres rfl
    | empty => cases hadm
    | widen => exact hwiden rfl rfl
    | primitive => exact hprim _ _ rfl rfl
    | vec => exact hvec _ _ rfl rfl
    | null | opt | lift | special => exact hopt _ rfl
    | record => exact hrec _ _ rfl rfl
    | variant => exact hvar _ _ rfl rfl
    | func => exact hfunc _ _ rfl rfl
    | service => exact hserv _ _ rfl rfl

/-- One step of a reshaping, from the nodes that the two types stand for. -/
theorem within_tries (hr : Ready w s) (h1 : w.StandsFor wire r1 n1)
    (hnodes : ∀ r2 n2, w.StandsFor expected r2 n2 →
      Tries (w.Rule .lenient (Fitting w) r1 n1 n2) k lengths
        (nodes w.env (within w.env fuel) v r1 n1 n2) s) :
    Tries (Fitting w wire expected) k lengths (within w.env (fuel + 1) v wire expected) s := by
  unfold within
  split
  · exact tries_pure v
  · next hne =>
    refine tries_look ((hr.follow wire).trans h1.follow) ?_
    rcases standsFor_or w expected with ⟨r2, n2, h2⟩ | hnone
    · refine tries_look ((hr.follow expected).trans h2.follow) ?_
      split
      · exact tries_pure v
      · refine tries_look ((hr.typeAt r1).trans h1.node) ?_
        refine tries_look ((hr.typeAt r2).trans h2.node) ?_
        exact Tries.weaken (fun hfit => hfit.rule hne h1 h2) (hnodes r2 n2 h2)
    · refine tries_look_fault ((hr.follow expected).trans hnone) fun hfit => ?_
      obtain ⟨r2, n2, h2⟩ := hfit.standsFor h1
      exact absurd (h2.follow.symm.trans hnone) (by simp)

/-- What does not match an `opt` is left out, so an `opt` is always reshaped to. -/
theorem opt_tries {inner : TypeId}
    (hkids : (∀ b, d ≠ .fixed b) → Handles w lengths (within w.env fuel) n) (hr : Ready w s)
    (hx : s.valueAt v = .ok x) (hshow : s.Shows (s.Holds n) x d) (hlengths : ∀ i ∈ d.widened, lengths i)
    (hadm : w.Admits (w.Types m) n1 d) (h1 : w.StandsFor r1 r1 n1)
    (h2 : w.StandsFor r2 r2 (.opt inner)) (hd1 : w.Distinct r1) (hd2 : w.Distinct r2)
    (hlift : ¬ w.Optional inner →
      Tries (Fitting w r1 inner) d.widened.sum lengths (within w.env fuel v r1 inner) s) :
    Tries must d.widened.sum lengths (opt w.env (within w.env fuel) v r1 n1 inner) s := by
  unfold opt
  split
  · exact tries_putValue hr.limit _
  · next wireInner =>
    have hbelow := hkids (by rintro b rfl; cases hadm)
    refine tries_look hx ?_
    cases hadm with
    | none =>
      cases hshow with
      | none => exact tries_putValue hr.limit _
    | @some _ e htypes =>
      cases hshow with
      | some hholds =>
        exact tries_last (tries_orNone (hbelow _ e _ _ _ s hr (.inl hholds) hlengths htypes
          (hd1.part h1 List.mem_cons_self) (hd2.part h2 List.mem_cons_self)))
          fun _ s1 hs1 => tries_putValue (hr.grows hs1).limit _
  · refine tries_look rfl ?_
    split
    · exact tries_putValue hr.limit _
    · next ho =>
      have hinner : ¬ w.Optional inner := by
        simpa only [Scope.Optional, Env.isOptional, hr.resolve] using ho
      exact tries_last (tries_orNone (hlift hinner))
        fun _ s1 hs1 => tries_putValue (hr.grows hs1).limit _

theorem nodes_opt (n1 : TypeNode) (inner : TypeId) :
    nodes w.env coerce v r1 n1 (.opt inner) = opt w.env coerce v r1 n1 inner := by
  cases n1 with
  | primitive p => cases p <;> rfl
  | _ => rfl

/-- Two steps go one level down: the first of them may only leave an `opt` behind. -/
theorem within_step (fuel : Nat)
    (hkids : (∀ b, d ≠ .fixed b) → ∀ g, fuel ≤ g → Handles w lengths (within w.env g) n)
    (hr : Ready w s) (hv : s.Holds (n + 1) v d) (hlengths : ∀ i ∈ d.widened, lengths i)
    (ht : w.Types m d wire) (hd1 : w.Distinct wire) (hd2 : w.Distinct expected) : ∀ f, fuel + 2 ≤ f →
    Tries (Fitting w wire expected) d.widened.sum lengths (within w.env f v wire expected) s
  | 0, hf | 1, hf => by omega
  | f + 2, hf => by
    obtain ⟨x, hx, hshow⟩ := hv
    cases m with
    | zero => exact ht.elim
    | succ m =>
      obtain ⟨r1, n1, h1, hadm⟩ := ht
      refine within_tries hr h1 fun r2 n2 h2 => ?_
      by_cases hopt : ∃ inner, n2 = .opt inner
      · obtain ⟨inner, rfl⟩ := hopt
        rw [nodes_opt]
        refine opt_tries (fun hnum => hkids hnum (f + 1) (by omega)) hr hx hshow hlengths hadm h1.root
          h2.root (hd1.root h1) (hd2.root h2) fun hinner => ?_
        refine within_tries hr h1.root fun r3 n3 h3 => ?_
        rw [h3.optional_iff] at hinner
        exact nodes_tries (fun hnum => hkids hnum f (by omega)) hr hx hshow hlengths hadm h1.root h3.root
          (hd1.root h1) ((hd2.part h2 List.mem_cons_self).root h3)
          fun i hi => hinner (.inr (.inr ⟨i, hi⟩))
      · exact nodes_tries (fun hnum => hkids hnum (f + 1) (by omega)) hr hx hshow hlengths hadm h1.root
          h2.root (hd1.root h1) (hd2.root h2) fun i hi => hopt ⟨i, hi⟩

theorem within_handles : ∀ n f, 2 * n + 2 ≤ f → Handles w lengths (within w.env f) n := by
  intro n
  induction n with
  | zero =>
    rintro f hf v d m wire expected s hr (hv | ⟨hv, b, rfl⟩) hlengths ht hd1 hd2
    · exact hv.elim
    · exact within_step 0 (fun hnum => absurd rfl (hnum b)) hr hv hlengths ht hd1 hd2 f hf
  | succ n ih =>
    rintro f hf v d m wire expected s hr (hv | ⟨hv, b, rfl⟩) hlengths ht hd1 hd2
    · exact within_step (2 * n + 2) (fun _ => ih) hr hv hlengths ht hd1 hd2 f (by omega)
    · exact within_step 0 (fun hnum => absurd rfl (hnum b)) hr hv hlengths ht hd1 hd2 f (by omega)

/-! ### The whole -/

theorem steps_enough (s : Store) : 2 * s.values.size + 2 ≤ steps s := by
  unfold steps
  have hvalues : s.values.size + 1 ≤ (s.values.size + s.limit.getD 0 / Store.valueCharge + 2) ^ 2 := by
    nlinarith [Nat.zero_le (s.limit.getD 0 / Store.valueCharge)]
  have htypes : 1 ≤ (s.types.size + 1) ^ 2 := Nat.one_le_pow _ _ (by omega)
  calc 2 * s.values.size + 2 = 2 * (s.values.size + 1) := by ring
    _ ≤ 2 * (s.values.size + s.limit.getD 0 / Store.valueCharge + 2) ^ 2 := by omega
    _ ≤ _ := Nat.le_mul_of_pos_right _ htypes

/-- A stored value that is of the type `wire` is reshaped to every type that `wire` fits, if the store
    has no limit, and room for its natural numbers. Reshaping fails only where the two types do not fit, or
    where the store was not spacious for all of these numbers when they are widened, and has come to one
    that it does not take: its length has more than 32 bits, or so has the number of the block or the place
    there, or memory has no block for it. -/
theorem coerce_ok (env : Env) (s : Store) (v : ValueId) (d : Datum) (wire expected : TypeId)
    (n m : Nat) (hlimit : s.limit = none) (hheld : s.Holds n v d)
    (htypes : Scope.Types ⟨s, env⟩ m d wire) (hd1 : Scope.Distinct ⟨s, env⟩ wire)
    (hd2 : Scope.Distinct ⟨s, env⟩ expected) :
    (Scope.Fits ⟨s, env⟩ .lenient wire expected → s.Spacious d.widened.sum →
      ∃ v' s', TypedWire.coerce env v wire expected s = .ok v' s') ∧
    ∀ e s', TypedWire.coerce env v wire expected s = .error e s' →
      e = .invalid ∧ ¬ Scope.Fits ⟨s, env⟩ .lenient wire expected ∨
        e = .storeFull ∧ s.RunsOut d.widened.sum (· ∈ d.widened) s' := by
  have hrun := within_handles s.values.size (steps s) (steps_enough s) v d m wire expected s
    ⟨rfl, hlimit⟩ (.inl hheld.bounded) (fun _ => id) htypes hd1 hd2
  have hcoerce : TypedWire.coerce env v wire expected s = within env (steps s) v wire expected s := rfl
  rw [hcoerce]
  rcases hrun.ends with ⟨v', s', hc, -⟩ | ⟨e, s', hc, hmisses⟩
  · exact ⟨fun _ _ => ⟨v', s', hc⟩, by simp [hc]⟩
  · refine ⟨fun hfit hroom => ?_, fun e' s'' h => ?_⟩
    · rcases hmisses with ⟨-, hunfit, -⟩ | ⟨-, hout⟩
      · exact absurd hfit hunfit
      · exact absurd hroom hout.short
    · rw [hc, EStateM.Result.error.injEq] at h
      obtain ⟨rfl, rfl⟩ := h
      exact hmisses.imp_left fun ⟨hinvalid, hunfit, _⟩ => ⟨hinvalid, hunfit⟩

/-- A record of a number, and a type with a wider field and one that may be missing. -/
def numbered : Store where
  blockSize := 16
  types := #[.primitive .nat, .primitive .int, .record [⟨.bare 0, ⟨0⟩⟩],
    .record [⟨.bare 0, ⟨1⟩⟩, ⟨.bare 1, ⟨4⟩⟩], .opt ⟨0⟩]
  values := #[.nat ⟨0, 0, 1⟩, .record [⟨.bare 0, ⟨0⟩⟩]]
  blocks := #[⟨16, #[0x7f]⟩]

theorem numbered_reshaped :
    numbered.limit = none ∧ numbered.Holds 2 ⟨1⟩ (.record [(0, .nat [0x7f])]) ∧
    Scope.Types ⟨numbered, {}⟩ 2 (.record [(0, .nat [0x7f])]) ⟨2⟩ ∧
    (∀ t, Scope.Distinct ⟨numbered, {}⟩ t) ∧ Scope.Fits ⟨numbered, {}⟩ .lenient ⟨2⟩ ⟨3⟩ ∧
    numbered.Spacious (Datum.record [(0, .nat [0x7f])]).widened.sum ∧
    ∃ v s, TypedWire.coerce {} ⟨1⟩ ⟨2⟩ ⟨3⟩ numbered = .ok v s := by
  have hheld : numbered.Holds 2 ⟨1⟩ (.record [(0, .nat [0x7f])]) :=
    ⟨_, rfl, .record (.cons ⟨rfl, _, rfl, .nat rfl⟩ .nil)⟩
  have htypes : Scope.Types ⟨numbered, {}⟩ 2 (.record [(0, .nat [0x7f])]) ⟨2⟩ :=
    ⟨⟨2⟩, _, ⟨rfl, rfl⟩, .record (.cons ⟨rfl, ⟨0⟩, _, ⟨rfl, rfl⟩, .nat (by decide) (by simp [Payload])⟩
      .nil) (.refl [(0, .nat [0x7f])]) (by simp [inLabelOrder?, distinctNeighbours])⟩
  have hd : ∀ t, Scope.Distinct ⟨numbered, {}⟩ t := .of_store (by decide)
  have hfits : Scope.Fits ⟨numbered, {}⟩ .lenient ⟨2⟩ ⟨3⟩ := by
    have hnumber : Scope.Fits ⟨numbered, {}⟩ .lenient ⟨0⟩ ⟨1⟩ :=
      .of_justified ⟨⟨0⟩, _, ⟨1⟩, _, ⟨rfl, rfl⟩, ⟨rfl, rfl⟩, .widen⟩
    refine .of_justified ⟨⟨2⟩, _, ⟨3⟩, _, ⟨rfl, rfl⟩, ⟨rfl, rfl⟩, .record fun want hw => ?_⟩
    simp only [List.mem_cons, List.not_mem_nil, or_false] at hw
    rcases hw with rfl | rfl
    · exact .inl ⟨_, List.mem_cons_self, rfl, hnumber⟩
    · exact .inr ⟨rfl, by simp [Label.id]⟩
  have hroom : numbered.Spacious (Datum.record [(0, .nat [0x7f])]).widened.sum := by decide
  exact ⟨rfl, hheld, htypes, hd, hfits, hroom,
    (coerce_ok {} numbered ⟨1⟩ _ ⟨2⟩ ⟨3⟩ 2 2 rfl hheld htypes (hd _) (hd _)).1 hfits hroom⟩

end Coerce

end TypedWire
