import Mathlib.Order.WellFounded
import TypedWire.Proofs.Session.Lossless
import TypedWire.Proofs.Session.Nesting
import TypedWire.Proofs.Value.Progress
import TypedWire.Proofs.Value.Written

/-! Reshaping nests no deeper than twice as deep as the value, whatever the types are. A step either goes
    on to a part of the value, or lifts the value into an `opt`; and what is inside that `opt` is none
    that would be lifted into again. So chains of types that have no end do not matter. -/

namespace TypedWire

open TypedWire.Action

/-! ### Values that have been unpacked -/

namespace Store

variable {s s' : Store} {v u : ValueId} {x : Value} {depth j k : Nat}

/-- The stored value `v` nests at most `depth` nodes deep, where a byte string counts as a list of its
    bytes. All of its parts are in the store. -/
def Unpacked (s : Store) : (depth : Nat) → ValueId → Prop
  | 0, _ => False
  | depth + 1, v => ∃ x, s.valueAt v = .ok x ∧ (∀ u ∈ x.parts, s.Unpacked depth u) ∧
      ∀ p, x = .blob p → 0 < p.length → 0 < depth

theorem Unpacked.nests : ∀ {depth : Nat} {v : ValueId}, s.Unpacked depth v → s.Nests depth v
  | 0, _, h => h.elim
  | _ + 1, _, ⟨x, hx, hparts, _⟩ => ⟨x, hx, fun u hu => (hparts u hu).nests⟩

/-- Unpacking takes one level at most. -/
theorem Nests.unpacked : ∀ {depth : Nat} {v : ValueId}, s.Nests depth v → s.Unpacked (depth + 1) v
  | 0, _, h => h.elim
  | depth + 1, _, ⟨x, hx, hparts⟩ => ⟨x, hx, fun u hu => (hparts u hu).unpacked, fun _ _ _ => depth.succ_pos⟩

theorem Unpacked.le : ∀ {j k : Nat} {v : ValueId}, j ≤ k → s.Unpacked j v → s.Unpacked k v
  | 0, _, _, _, h => h.elim
  | _ + 1, 0, _, hle, _ => absurd hle (by omega)
  | _ + 1, _ + 1, _, hle, ⟨x, hx, hparts, hblob⟩ =>
    ⟨x, hx, fun u hu => (hparts u hu).le (by omega), fun p hp hpos => (hblob p hp hpos).trans_le (by omega)⟩

theorem Unpacked.extends (hs : s.Extends s') : ∀ {depth : Nat} {v : ValueId},
    s.Unpacked depth v → s'.Unpacked depth v
  | 0, _, h => h.elim
  | _ + 1, v, ⟨x, hx, hparts, hblob⟩ =>
    ⟨x, hs.valueAt v x hx, fun u hu => (hparts u hu).extends hs, hblob⟩

theorem Acyclic.unpacked (h : s.Acyclic v) : ∃ depth, s.Unpacked depth v := by
  obtain ⟨depth, hdepth⟩ := h.nests
  exact ⟨depth + 1, hdepth.unpacked⟩

theorem acyclic_iff : s.Acyclic v ↔ ∃ depth, s.Unpacked depth v :=
  ⟨Acyclic.unpacked, fun ⟨depth, h⟩ => acyclic_iff_nests.mpr ⟨depth, h.nests⟩⟩

end Store

/-! ### Steps -/

namespace Coerce

variable {env : Env} {s s1 s' : Store} {v : ValueId} {x : Value} {n1 n2 : TypeNode} {depth : Nat}
variable {w t wire expected : TypeId} {α β : Type}
variable {inner inner' deeper deeper' : ValueId → TypeId → TypeId → Action Store ValueId}

/-- One step of reshaping; what comes inside of it is done by `inner`. -/
def step (env : Env) (inner : ValueId → TypeId → TypeId → Action Store ValueId)
    (value : ValueId) (wire expected : TypeId) : Action Store ValueId := do
  if wire = expected then return value
  let w ← look fun s => env.follow s wire
  let e ← look fun s => env.follow s expected
  if w = e then return value
  let wireNode ← look (·.typeAt w)
  let expectedNode ← look (·.typeAt e)
  nodes env inner value w wireNode expectedNode

/-- Reshapes a value by `depth` steps one inside the other; whatever would come deeper is left to
    `deeper`. -/
def nested (env : Env) (deeper : ValueId → TypeId → TypeId → Action Store ValueId) :
    (depth : Nat) → ValueId → TypeId → TypeId → Action Store ValueId
  | 0 => deeper
  | depth + 1 => step env (nested env deeper depth)

theorem within_eq (env : Env) : ∀ depth,
    within env depth = nested env (fun _ _ _ => Action.fail .overflow) depth
  | 0 => rfl
  | depth + 1 => by
    rw [nested, ← within_eq env depth]
    rfl

theorem agrees_look {f : Store → Except Fault α} {g g' : α → Action Store β}
    (hg : ∀ a, f s = .ok a → Agrees Store.Grows s (g a) (g' a)) :
    Agrees Store.Grows s (look f >>= g) (look f >>= g') := by
  refine (leads_looked f s).agrees.bind fun a s1 _ hrun => ?_
  obtain ⟨-, rfl, ha⟩ := (leads_looked f s).ok hrun
  exact hg a ha

theorem agrees_node {g g' : Value → Action Store β} (hx : s.valueAt v = .ok x)
    (hg : Agrees Store.Grows s (g x) (g' x)) :
    Agrees Store.Grows s (look (·.valueAt v) >>= g) (look (·.valueAt v) >>= g') :=
  agrees_look fun _ hy => Except.ok.inj (hx.symm.trans hy) ▸ hg

theorem agrees_pure (a : α) : Agrees Store.Grows s (pure a) (pure a) := ⟨rfl, leads_pure trivial⟩

theorem agrees_fail (e : Fault) : Agrees Store.Grows s (Action.fail e : Action Store α) (Action.fail e) :=
  ⟨rfl, leads_fail⟩

theorem agrees_put (x : Value) : Agrees Store.Grows s (Store.putValue x) (Store.putValue x) :=
  (Store.leads_putValue x s).agrees

theorem agrees_orNone {x y : Action Store ValueId} (h : Agrees Store.Grows s x y) :
    Agrees Store.Grows s (orNone x) (orNone y) := by
  refine ⟨?_, (leads_orNone h.leads).mono fun _ _ _ _ => trivial⟩
  unfold orNone
  rw [h.same]

theorem agrees_mapM {x y : α → Action Store β} {as : List α}
    (h : ∀ a ∈ as, ∀ s1, s.Grows s1 → Agrees Store.Grows s1 (x a) (y a)) :
    Agrees Store.Grows s (as.mapM x) (as.mapM y) :=
  (congruence_agrees (P := s.Grows) fun _ _ hs h => h.trans hs).mapM_mem as h s (.refl s)

theorem agrees_missing (env : Env) (t : TypeId) :
    Agrees Store.Grows s (missing env t) (missing env t) :=
  (leads_missing (w := ⟨s, env⟩) .decoded (fun _ _ => True) rfl 0).agrees

theorem leads_putInt (number : List UInt8) : Leads Store.Grows (Store.putInt number) s fun _ _ => True := by
  have hnumber : Leads Store.Grows (Store.putNumber number) s fun _ _ => True := by
    have hlength : Leads Store.Grows (Action.ofExcept (Leb128.readLength number)) s fun _ _ => True :=
      leads_answer (fun _ => Leb128.readLength number) (fun _ => rfl) fun _ _ => trivial
    refine hlength.bind fun length s1 _ _ => ?_
    split
    · exact leads_fail.bind fun _ _ _ => False.elim
    · exact (Store.leads_putBytes number s1).mono fun _ _ _ _ => trivial
  exact hnumber.bind fun p s1 _ _ => (Store.leads_putValue _ s1).mono fun _ _ _ _ => trivial

theorem agrees_widen (v : ValueId) : Agrees Store.Grows s (widen v) (widen v) := by
  refine agrees_look fun x _ => ?_
  cases x with
  | nat p =>
    refine agrees_look fun bytes _ => ?_
    have hwide : Leads Store.Grows (Action.ofExcept (Leb128.widen bytes)) s fun _ _ => True :=
      leads_answer (fun _ => Leb128.widen bytes) (fun _ => rfl) fun _ _ => trivial
    exact hwide.agrees.bind fun wide s1 _ _ => (leads_putInt wide).agrees
  | _ => exact agrees_fail _

/-! ### Steps that differ only deeper -/

/-- On values that nest so deep both do the same. -/
def Matches (depth : Nat) (inner inner' : ValueId → TypeId → TypeId → Action Store ValueId) : Prop :=
  ∀ s v wire expected, s.Unpacked depth v →
    Agrees Store.Grows s (inner v wire expected) (inner' v wire expected)

theorem agrees_list {ids : List ValueId} (h : Matches depth inner inner')
    (hids : ∀ id ∈ ids, s.Unpacked depth id) : Agrees Store.Grows s
      (do
        let items ← ids.mapM fun item => inner item wire expected
        Store.putValue (.vec items))
      (do
        let items ← ids.mapM fun item => inner' item wire expected
        Store.putValue (.vec items)) := by
  have hitem : ∀ id ∈ ids, ∀ s1, s.Grows s1 →
      Agrees Store.Grows s1 (inner id wire expected) (inner' id wire expected) :=
    fun id hid s1 hs1 => h s1 id wire expected ((hids id hid).extends hs1.toExtends)
  exact (agrees_mapM hitem).bind fun items s1 _ _ => agrees_put _

/-- The items of a byte string nest no deeper than it does when it is unpacked. -/
theorem leads_bytes {p : Span} (hblob : 0 < p.length → 0 < depth) :
    Leads Store.Grows (items (.blob p)) s fun ids s' => ∀ id ∈ ids, s'.Unpacked depth id := by
  refine leads_look fun bytes hbytes => ?_
  have hput : Leads Store.Grows (bytes.mapM fun b => Store.putValue (.fixed (.ofByte b))) s fun ids s' =>
      List.Forall₂ (fun b id => s'.valueAt id = .ok (.fixed (.ofByte b))) bytes ids :=
    leads_mapM (fun s1 s2 b id hs h => hs.valueAt _ _ h) fun b _ s1 _ => Store.leads_putValue _ s1
  refine hput.mono fun ids s1 _ hids id hid => ?_
  obtain ⟨b, hb, hx⟩ := forall₂_partner hids id hid
  have hpos : 0 < p.length := Store.length_bytesAt hbytes ▸ List.length_pos_of_mem hb
  have hleaf : s1.Unpacked 1 id := ⟨_, hx, by simp [Value.parts], nofun⟩
  exact hleaf.le (hblob hpos)

theorem agrees_vec {e1 e2 : TypeId} (h : Matches depth inner inner') (hv : s.Unpacked (depth + 1) v) :
    Agrees Store.Grows s (vec env inner v e1 e2) (vec env inner' v e1 e2) := by
  obtain ⟨x, hx, hparts, hblob⟩ := hv
  refine agrees_node hx ?_
  cases x with
  | blob p =>
    refine agrees_look fun node _ => ?_
    split
    · exact agrees_pure _
    · refine (leads_bytes (hblob p rfl)).agrees.bind fun ids s1 _ hrun => ?_
      exact agrees_list h ((leads_bytes (hblob p rfl)).ok hrun).2
  | vec ids =>
    simp only [items, pure_bind]
    exact agrees_list h hparts
  | _ => exact (agrees_fail .invalid).bind fun _ _ _ hrun => absurd hrun fail_eq_ok

theorem agrees_record {f1 f2 : List Field} (h : Matches depth inner inner')
    (hv : s.Unpacked (depth + 1) v) :
    Agrees Store.Grows s (record env inner v f1 f2) (record env inner' v f1 f2) := by
  obtain ⟨x, hx, hparts, -⟩ := hv
  refine agrees_node hx ?_
  cases x with
  | record fields =>
    refine (agrees_mapM fun want _ s1 hs1 => ?_).bind fun _ _ _ _ => agrees_put _
    have hmissing := (agrees_missing (s := s1) env want.type).bind fun item s2 _ _ =>
      agrees_pure (s := s2) (⟨want.label, item⟩ : FieldValue)
    cases hfield : fields.find? (·.label.id = want.label.id) with
    | none => exact hmissing
    | some field =>
      cases f1.find? (·.label.id = want.label.id) with
      | none => exact hmissing
      | some type =>
        have hpart : s.Unpacked depth field.value :=
          hparts _ (List.mem_map_of_mem (List.mem_of_find?_eq_some hfield))
        exact (h s1 field.value type.type want.type (hpart.extends hs1.toExtends)).bind
          fun _ _ _ _ => agrees_pure _
  | _ => exact agrees_fail _

theorem agrees_variant {f1 f2 : List Field} (h : Matches depth inner inner')
    (hv : s.Unpacked (depth + 1) v) :
    Agrees Store.Grows s (variant inner v f1 f2) (variant inner' v f1 f2) := by
  obtain ⟨x, hx, hparts, -⟩ := hv
  refine agrees_node hx ?_
  cases x with
  | variant index field =>
    dsimp only
    cases f1.find? (·.label.id = field.label.id) with
    | none => exact agrees_fail _
    | some type =>
      cases f2.findIdx? (·.label.id = field.label.id) with
      | none => exact agrees_fail _
      | some place =>
        cases f2.find? (·.label.id = field.label.id) with
        | none => exact agrees_fail _
        | some want =>
          have hpart : s.Unpacked depth field.value := hparts _ List.mem_cons_self
          exact (h s field.value type.type want.type hpart).bind fun _ _ _ _ => agrees_put _
  | _ => exact agrees_fail _

/-- Only a value that is lifted is reshaped again as it is, and then to no type that may be missing. -/
theorem agrees_opt {e : TypeId} (h : Matches depth inner inner') (hv : s.Unpacked (depth + 1) v)
    (hlift : env.isOptional s e = false → Agrees Store.Grows s (inner v w e) (inner' v w e)) :
    Agrees Store.Grows s (opt env inner v w n1 e) (opt env inner' v w n1 e) := by
  have hother : Agrees Store.Grows s
      (do
        if ← look fun s => pure (env.isOptional s e) then Store.putValue (.opt none)
        else Store.putValue (.opt (← orNone (inner v w e))))
      (do
        if ← look fun s => pure (env.isOptional s e) then Store.putValue (.opt none)
        else Store.putValue (.opt (← orNone (inner' v w e)))) := by
    refine agrees_look fun optional hoptional => ?_
    cases optional with
    | true => exact agrees_put _
    | false =>
      exact (agrees_orNone (hlift (Except.ok.inj hoptional))).bind fun _ _ _ _ => agrees_put _
  obtain ⟨x, hx, hparts, -⟩ := hv
  cases n1 with
  | primitive p =>
    cases p with
    | null => exact agrees_put _
    | _ => exact hother
  | opt wireInner =>
    refine agrees_node hx ?_
    cases x with
    | opt content =>
      cases content with
      | none => exact agrees_put _
      | some u =>
        have hu : s.Unpacked depth u := hparts u List.mem_cons_self
        exact (agrees_orNone (h s u wireInner e hu)).bind fun _ _ _ _ => agrees_put _
    | _ => exact agrees_fail _
  | _ => exact hother

/-- What is not expected to be an `opt` is taken apart, or needs no step inside. -/
theorem agrees_nodes (h : Matches depth inner inner') (hv : s.Unpacked (depth + 1) v)
    (hopt : ∀ e, n2 = .opt e →
      Agrees Store.Grows s (opt env inner v w n1 e) (opt env inner' v w n1 e)) :
    Agrees Store.Grows s (nodes env inner v w n1 n2) (nodes env inner' v w n1 n2) := by
  unfold nodes
  split
  · exact agrees_put _
  · exact agrees_widen v
  · split
    · exact agrees_pure v
    · exact agrees_fail _
  · exact hopt _ rfl
  · exact agrees_vec h hv
  · exact agrees_record h hv
  · exact agrees_variant h hv
  · exact agrees_pure v
  · exact agrees_pure v
  · exact agrees_fail _

theorem agrees_step_of (h : ∀ w e n1 n2, env.follow s expected = .ok e → s.typeAt e = .ok n2 →
      Agrees Store.Grows s (nodes env inner v w n1 n2) (nodes env inner' v w n1 n2)) :
    Agrees Store.Grows s (step env inner v wire expected) (step env inner' v wire expected) := by
  unfold step
  split
  · exact agrees_pure _
  refine agrees_look fun w _ => agrees_look fun e he => ?_
  split
  · exact agrees_pure _
  exact agrees_look fun n1 _ => agrees_look fun n2 hn2 => h w e n1 n2 he hn2

/-- Where the type expected is no `opt`, one step leads to the parts of the value. -/
theorem agrees_plain (h : Matches depth inner inner') (hv : s.Unpacked (depth + 1) v)
    (hplain : env.isOptional s expected = false) :
    Agrees Store.Grows s (step env inner v wire expected) (step env inner' v wire expected) := by
  refine agrees_step_of fun w e n1 n2 he hn2 => agrees_nodes h hv fun e' hopt => ?_
  have hs : Scope.StandsFor ⟨s, env⟩ expected e n2 := ⟨he, hn2⟩
  have hoptional : env.isOptional s expected = true :=
    hs.optional_iff.mpr (.inr (.inr ⟨e', hopt⟩))
  exact absurd (hplain.symm.trans hoptional) (by simp)

/-- Two steps lead to the parts of the value: the first of them may only lift it. -/
theorem matches_nested : ∀ (depth f f' : Nat), 2 * depth ≤ f → 2 * depth ≤ f' →
    Matches depth (nested env deeper f) (nested env deeper' f')
  | 0, _, _, _, _ => fun _ _ _ _ h => h.elim
  | depth + 1, f + 2, f' + 2, hf, hf' => fun s v wire expected hv => by
    have hparts : Matches depth (nested env deeper (f + 1)) (nested env deeper' (f' + 1)) :=
      matches_nested depth (f + 1) (f' + 1) (by omega) (by omega)
    have hlifted : Matches depth (nested env deeper f) (nested env deeper' f') :=
      matches_nested depth f f' (by omega) (by omega)
    refine agrees_step_of fun w e n1 n2 _ _ => agrees_nodes hparts hv fun e' _ => ?_
    exact agrees_opt hparts hv fun hplain => agrees_plain hlifted hv hplain
  | depth + 1, 0, _, hf, _ | depth + 1, 1, _, hf, _ => absurd hf (by omega)
  | depth + 1, _, 0, _, hf | depth + 1, _, 1, _, hf => absurd hf (by omega)

/-- Whatever would be done deeper, it makes no difference. -/
theorem nested_coerce (env : Env) (deeper : ValueId → TypeId → TypeId → Action Store ValueId)
    (h : s.Unpacked depth v) (wire expected : TypeId) :
    nested env deeper (2 * depth) v wire expected s = coerce env v wire expected s := by
  have henough := steps_enough s
  have hsmall : s.Unpacked (s.values.size + 1) v := h.nests.bounded.unpacked
  have hcoerce : coerce env v wire expected s =
      nested env (fun _ _ _ => Action.fail .overflow) (steps s) v wire expected s := by
    rw [coerce, within_eq]
  rw [hcoerce]
  rcases Nat.le_total depth (s.values.size + 1) with hle | hle
  · exact (matches_nested depth _ _ (Nat.le_refl _) (by omega) s v wire expected h).same
  · exact (matches_nested (s.values.size + 1) _ _ (by omega) (by omega) s v wire expected hsmall).same

end Coerce

/-! ### Arguments that are read by an expected type -/

namespace Session

open Coerce

variable {s s' : State} {t expected : TypeId} {v : ValueId}

/-- Reshapes a value of the type `type`, and does it by `reshape`. -/
def reshapeBy (reshape : Env → ValueId → TypeId → TypeId → Action Store ValueId)
    (v : ValueId) (type expected : TypeId) : Action State ValueId := fun ⟨s, store⟩ =>
  match reshape s.header.env v type expected store with
  | .ok v store => .ok v ⟨s, store⟩
  | .error e store => .error e ⟨s, store⟩

/-- Reads the next argument, and reshapes it to an expected type by `reshape`. -/
def readNextBy (reshape : Env → ValueId → TypeId → TypeId → Action Store ValueId)
    (expected : TypeId) : Action State ValueId := do
  let (type, v) ← readNext
  if (← judge type expected) = .fail then Action.fail .invalid
  reshapeBy reshape v type expected

theorem readNextBy_coerce : readNextBy coerce expected = readNextAs expected := rfl

/-- Reshaping what has been read under a bound takes two steps for each level, and two more for the bytes
    of a byte string. -/
theorem readNextBy_nested (deeper : Env → ValueId → TypeId → TypeId → Action Store ValueId)
    (expected : TypeId) (s : State) :
    readNextBy (fun env => nested env (deeper env) (2 * s.session.config.maxDepth + 2)) expected s =
      readNextAs expected s := by
  rw [← readNextBy_coerce]
  refine bind_agree rfl fun (t, v) s1 hread => ?_
  have hnests : s1.store.Nests s.session.config.maxDepth v := nests_of_readNext hread
  refine bind_agree rfl fun verdict s2 hjudge => ?_
  obtain ⟨hstore, -⟩ := judge_eq_ok hjudge
  have hvalue : s2.store.Unpacked (s.session.config.maxDepth + 1) v := hstore ▸ hnests.unpacked
  have hsame := nested_coerce s2.session.header.env (deeper s2.session.header.env) hvalue t expected
  rw [Nat.mul_succ] at hsame
  have hlast : reshapeBy (fun env => nested env (deeper env) (2 * s.session.config.maxDepth + 2)) v t
      expected s2 = reshapeBy coerce v t expected s2 := by
    unfold reshapeBy
    dsimp only
    rw [hsame]
  cases verdict with
  | fail => exact bind_agree rfl fun _ _ hfail => absurd hfail fail_eq_ok
  | _ => exact hlast

end Session

namespace Coerce

/-- Reshaping comes to an end for every acyclic value, whatever the types are: it makes chains of at most
    twice as many steps as the value nests deep, and what would be done deeper is never asked for. So it is
    with an argument that is read by an expected type, where the value nests no deeper than the session
    allows. -/
theorem coerce_shallow :
    (∀ (s : Store) (v : ValueId), s.Acyclic v → ∃ depth, IsLeast { k | s.Unpacked k v } depth ∧
      ∀ (env : Env) (wire expected : TypeId) (deeper : ValueId → TypeId → TypeId → Action Store ValueId),
        nested env deeper (2 * depth) v wire expected s = coerce env v wire expected s) ∧
      ∀ (s : Session.State) (expected : TypeId)
        (deeper : Env → ValueId → TypeId → TypeId → Action Store ValueId),
        Session.readNextBy (fun env => nested env (deeper env) (2 * s.session.config.maxDepth + 2)) expected s =
          Session.readNextAs expected s := by
  refine ⟨fun s v h => ?_, fun s expected deeper => Session.readNextBy_nested deeper expected s⟩
  obtain ⟨depth, hdepth, hleast⟩ := WellFounded.has_min Nat.lt_wfRel.wf { k | s.Unpacked k v } h.unpacked
  refine ⟨depth, ⟨hdepth, fun k hk => Nat.le_of_not_lt (hleast k hk)⟩, fun env wire expected deeper => ?_⟩
  exact nested_coerce env deeper hdepth wire expected

theorem numbered_shallow : numbered.Acyclic ⟨1⟩ ∧
    ∀ (env : Env) (wire expected : TypeId) (deeper : ValueId → TypeId → TypeId → Action Store ValueId),
      nested env deeper 4 ⟨1⟩ wire expected numbered = coerce env ⟨1⟩ wire expected numbered := by
  have hnumber : numbered.Unpacked 1 ⟨0⟩ := ⟨.nat ⟨0, 0, 1⟩, rfl, List.forall_mem_nil _, nofun⟩
  have hrecord : numbered.Unpacked 2 ⟨1⟩ :=
    ⟨.record [⟨.bare 0, ⟨0⟩⟩], rfl, by simpa [Value.parts] using hnumber, nofun⟩
  have hless : ∀ k, numbered.Unpacked k ⟨1⟩ → 2 ≤ k := by
    rintro (_ | _ | k) h
    · exact h.elim
    · obtain ⟨x, hx, hparts, -⟩ := h
      obtain rfl : .record [⟨.bare 0, ⟨0⟩⟩] = x := Except.ok.inj hx
      exact (hparts ⟨0⟩ List.mem_cons_self).elim
    · omega
  have hvalue : numbered.Acyclic ⟨1⟩ := Store.acyclic_iff.mpr ⟨2, hrecord⟩
  obtain ⟨depth, hdepth, hsteps⟩ := coerce_shallow.1 numbered ⟨1⟩ hvalue
  obtain rfl : depth = 2 := hdepth.unique ⟨hrecord, hless⟩
  exact ⟨hvalue, hsteps⟩

/-- A part that is not in the store may come to be in it while reshaping goes on, and not as a part that
    ends: here the first field is put where the second one is said to be, and is a list of itself. -/
example : (Action.outcome (nested {} (fun _ _ _ => Action.fail .storeFull) 100 ⟨1⟩ ⟨5⟩ ⟨6⟩)
    { types := #[.primitive .nat, .vec ⟨0⟩, .vec ⟨0⟩, .vec ⟨3⟩, .vec ⟨4⟩,
        .record [⟨.bare 0, ⟨1⟩⟩, ⟨.bare 1, ⟨3⟩⟩], .record [⟨.bare 0, ⟨2⟩⟩, ⟨.bare 1, ⟨4⟩⟩]]
      values := #[.vec [⟨2⟩], .record [⟨.bare 0, ⟨0⟩⟩, ⟨.bare 1, ⟨2⟩⟩]] }).1 = .error .storeFull := by
  decide +kernel

end Coerce

end TypedWire
