import Mathlib.Data.List.Chain
import Mathlib.Data.List.Perm.Subperm
import Mathlib.Logic.Relation
import TypedWire.Proofs.Schema.Growing

/-! Following names, told apart from how it is bounded. A hop goes from a name to what it is bound to. There
    is at most one hop from each type, so following leads to a node that is no name, or gets lost at a handle
    that is dead or a name that is not bound, or goes round; and of these only one. The bound is never what
    stops a chain that leads to a node: with more hops than there are bindings, some type is met twice. -/

namespace TypedWire

open Relation

namespace Scope

variable {w w' : Scope} {t u b r : TypeId} {e : Fault}

/-- A hop: `t` is a name, and `b` is bound to it. -/
def Hop (w : Scope) (t b : TypeId) : Prop :=
  ∃ name, w.store.typeAt t = .ok (.var name) ∧ w.env.find? name = some b

/-- After any number of hops from `t` there is `u`. -/
abbrev Hops (w : Scope) : TypeId → TypeId → Prop := ReflTransGen w.Hop

/-- A live node that is no name. -/
def Root (w : Scope) (r : TypeId) : Prop := ∃ n, w.store.typeAt r = .ok n ∧ ∀ name, n ≠ .var name

/-- A handle that is dead, or a name that is not bound. -/
def Lost (w : Scope) (u : TypeId) : Prop :=
  (∃ e, w.store.typeAt u = .error e) ∨
    ∃ name, w.store.typeAt u = .ok (.var name) ∧ w.env.find? name = none

/-- The hops from here lead back here. -/
def Circles (w : Scope) (u : TypeId) : Prop := TransGen w.Hop u u

/-- The hops from here lead to no node. -/
def Astray (w : Scope) (t : TypeId) : Prop := ∃ u, w.Hops t u ∧ (w.Lost u ∨ w.Circles u)

/-! ### One way to go -/

theorem hop_unique : Relator.RightUnique w.Hop := by
  rintro t b c ⟨name, ht, hb⟩ ⟨other, ht', hc⟩
  obtain rfl : name = other := by simpa using ht.symm.trans ht'
  exact Option.some.inj (hb.symm.trans hc)

theorem Root.stops (h : w.Root r) : ¬ w.Hop r b := by
  rintro ⟨name, hname, -⟩
  obtain ⟨n, hn, hvar⟩ := h
  exact hvar name (Except.ok.inj (hn.symm.trans hname))

theorem Lost.stops (h : w.Lost u) : ¬ w.Hop u b := by
  rintro ⟨name, hname, hb⟩
  rcases h with ⟨e, he⟩ | ⟨other, hother, hnone⟩
  · exact absurd (he.symm.trans hname) (by simp)
  · obtain rfl : other = name := by simpa using hother.symm.trans hname
    exact absurd (hnone.symm.trans hb) (by simp)

theorem Root.not_lost (h : w.Root r) : ¬ w.Lost r := by
  obtain ⟨n, hn, hvar⟩ := h
  rintro (⟨e, he⟩ | ⟨name, hname, -⟩)
  · exact absurd (hn.symm.trans he) (by simp)
  · exact hvar name (Except.ok.inj (hn.symm.trans hname))

/-- From where nothing goes on, nothing else is reached. -/
theorem Hops.eq_of_stops (h : w.Hops r u) (hr : ∀ b, ¬ w.Hop r b) : u = r := by
  rcases h.cases_head with rfl | ⟨b, hb, -⟩
  · rfl
  · exact absurd hb (hr b)

/-- Whatever is reached from a circle lies on it. -/
theorem Circles.hops (h : w.Circles u) (hu : w.Hops u b) : w.Circles b := by
  induction hu with
  | refl => exact h
  | tail _ hhop ih =>
    obtain ⟨c, hc, hback⟩ := TransGen.head'_iff.mp ih
    obtain rfl := hop_unique hhop hc
    exact TransGen.tail' hback hhop

/-- What leads to a node leads nowhere else. -/
theorem Root.not_astray (hr : w.Root r) (ht : w.Hops t r) : ¬ w.Astray t := by
  rintro ⟨u, hu, hend⟩
  rcases ReflTransGen.total_of_right_unique hop_unique ht hu with hru | hur
  · obtain rfl := Hops.eq_of_stops hru fun _ => hr.stops
    rcases hend with hlost | hcircle
    · exact hr.not_lost hlost
    · obtain ⟨b, hb, -⟩ := TransGen.head'_iff.mp hcircle
      exact hr.stops hb
  · rcases hend with hlost | hcircle
    · obtain rfl := Hops.eq_of_stops hur fun _ => hlost.stops
      exact hr.not_lost hlost
    · obtain ⟨b, hb, -⟩ := TransGen.head'_iff.mp (hcircle.hops hur)
      exact hr.stops hb

theorem Root.unique (hr : w.Root r) (hu : w.Root u) (htr : w.Hops t r) (htu : w.Hops t u) : r = u := by
  rcases ReflTransGen.total_of_right_unique hop_unique htr htu with h | h
  · exact (Hops.eq_of_stops h fun _ => hr.stops).symm
  · exact Hops.eq_of_stops h fun _ => hu.stops

/-! ### Chains of hops -/

theorem mem_bindings {env : Env} {name : String} (h : env.find? name = some b) :
    b ∈ env.bindings.map Prod.snd := by
  obtain ⟨bindings⟩ := env
  unfold Env.find? at h
  induction bindings with
  | nil => exact absurd h (by simp)
  | cons binding bindings ih =>
    obtain ⟨key, type⟩ := binding
    rw [List.lookup_cons] at h
    split at h
    · exact Option.some.inj h ▸ List.mem_cons_self
    · exact List.mem_cons_of_mem _ (ih h)

/-- Along a chain of hops, everything but the start is bound. -/
theorem mem_bindings_of_chain : ∀ {us : List TypeId} {t : TypeId}, List.IsChain w.Hop (t :: us) →
    ∀ u ∈ us, u ∈ w.env.bindings.map Prod.snd
  | [], _, _ => by simp
  | b :: us, t, h => by
    obtain ⟨⟨name, -, hb⟩, hrest⟩ := List.isChain_cons_cons.mp h
    exact List.forall_mem_cons.mpr ⟨mem_bindings hb, mem_bindings_of_chain hrest⟩

/-- A chain of more hops than there are bindings leads round: some type is met twice. -/
theorem circles_of_chain {us : List TypeId} (h : List.IsChain w.Hop (t :: us))
    (hlong : w.env.bindings.length < us.length) : ∃ u, w.Hops t u ∧ w.Circles u := by
  have hlater : (t :: us).Pairwise (TransGen w.Hop) :=
    List.isChain_iff_pairwise.mp (h.imp fun _ _ => TransGen.single)
  obtain ⟨hstart, hpairs⟩ := List.pairwise_cons.mp hlater
  by_contra hnone
  have hdistinct : us.Nodup := by
    refine hpairs.imp_of_mem fun hu _ hhops heq => ?_
    exact hnone ⟨_, (hstart _ hu).to_reflTransGen, heq ▸ hhops⟩
  have hle := (List.subperm_of_subset hdistinct (mem_bindings_of_chain h)).length_le
  rw [List.length_map] at hle
  omega

/-- Following within a bound ends at a node, gets lost, or has made as many hops as it may. -/
theorem followWithin_ends (w : Scope) : ∀ (hops : Nat) (t : TypeId),
    (∃ r, w.env.followWithin w.store hops t = .ok r ∧ w.Hops t r ∧ w.Root r) ∨
      w.env.followWithin w.store hops t = .error .invalid ∧
        ((∃ u, w.Hops t u ∧ w.Lost u) ∨ ∃ us : List TypeId, us.length = hops ∧ List.IsChain w.Hop (t :: us))
  | 0, t => .inr ⟨rfl, .inr ⟨[], rfl, .singleton t⟩⟩
  | hops + 1, t => by
    cases ht : w.store.typeAt t with
    | error e =>
      obtain rfl := typeAt_fault ht
      exact .inr ⟨by simp [Env.followWithin, ht], .inl ⟨t, .refl, .inl ⟨_, ht⟩⟩⟩
    | ok n =>
      by_cases hvar : ∃ name, n = .var name
      · obtain ⟨name, rfl⟩ := hvar
        cases hb : w.env.find? name with
        | none =>
          have hrun : w.env.followWithin w.store (hops + 1) t = .error .invalid := by
            simp [Env.followWithin, ht, hb]
          exact .inr ⟨hrun, .inl ⟨t, .refl, .inr ⟨name, ht, hb⟩⟩⟩
        | some b =>
          have hhop : w.Hop t b := ⟨name, ht, hb⟩
          rw [followWithin_var ht hb]
          rcases followWithin_ends w hops b with ⟨r, hrun, hr, hroot⟩ | ⟨hrun, ⟨u, hu, hlost⟩ | ⟨us, rfl, hus⟩⟩
          · exact .inl ⟨r, hrun, .head hhop hr, hroot⟩
          · exact .inr ⟨hrun, .inl ⟨u, .head hhop hu, hlost⟩⟩
          · exact .inr ⟨hrun, .inr ⟨b :: us, rfl, .cons_cons hhop hus⟩⟩
      · have hnode : ∀ name, n ≠ .var name := fun name h => hvar ⟨name, h⟩
        exact .inl ⟨t, followWithin_of_node w.env ht hnode hops, .refl, n, ht, hnode⟩

/-! ### What following answers -/

/-- Following leads to a node, or goes astray. -/
theorem follow_ends (w : Scope) (t : TypeId) :
    (∃ r, w.env.follow w.store t = .ok r ∧ w.Hops t r ∧ w.Root r) ∨
      w.env.follow w.store t = .error .invalid ∧ w.Astray t := by
  rcases followWithin_ends w (w.env.bindings.length + 1) t with h | ⟨hrun, ⟨u, hu, hlost⟩ | ⟨us, hlength, hus⟩⟩
  · exact .inl h
  · exact .inr ⟨hrun, u, hu, .inl hlost⟩
  · obtain ⟨u, hu, hcircle⟩ := circles_of_chain hus (by omega)
    exact .inr ⟨hrun, u, hu, .inr hcircle⟩

/-- Following answers a type exactly if the hops lead to it and it is a node. -/
theorem follow_ok_iff : w.env.follow w.store t = .ok r ↔ w.Hops t r ∧ w.Root r := by
  rcases follow_ends w t with ⟨u, hrun, hu, hroot⟩ | ⟨hrun, hastray⟩
  · rw [hrun, Except.ok.injEq]
    refine ⟨?_, fun ⟨hr, hroot'⟩ => hroot.unique hroot' hu hr⟩
    rintro rfl
    exact ⟨hu, hroot⟩
  · rw [hrun]
    exact iff_of_false (by simp) fun ⟨hr, hroot⟩ => hroot.not_astray hr hastray

/-- Following refuses a type exactly if the hops lead to no node, and always for the same cause. -/
theorem follow_error_iff : w.env.follow w.store t = .error e ↔ e = .invalid ∧ w.Astray t := by
  rcases follow_ends w t with ⟨u, hrun, hu, hroot⟩ | ⟨hrun, hastray⟩
  · rw [hrun]
    exact iff_of_false (by simp) fun ⟨_, hastray⟩ => hroot.not_astray hu hastray
  · rw [hrun, Except.error.injEq]
    exact ⟨fun h => ⟨h.symm, hastray⟩, fun h => h.1.symm⟩

end Scope

/-! ### Names that are bound later -/

/-- What is bound after a binding was asked for, whether it was made or refused. -/
def Env.afterInsert (env : Env) (wanted : String × TypeId) : Env :=
  match env.insert wanted.1 wanted.2 with
  | .ok env => env
  | .error _ => env

/-- What is bound after bindings were asked for, one after another. -/
def Env.insertAll (env : Env) (wanted : List (String × TypeId)) : Env := wanted.foldl Env.afterInsert env

namespace Scope

variable {w : Scope} {t u r : TypeId} {own : TypeId → Prop}

theorem extends_afterInsert (s : Store) (env : Env) (wanted : String × TypeId) :
    Extends ⟨s, env⟩ ⟨s, env.afterInsert wanted⟩ := by
  unfold Env.afterInsert
  split
  · next h => exact extends_insert s h
  · exact .refl _

theorem extends_insertAll (s : Store) : ∀ (wanted : List (String × TypeId)) (env : Env),
    Extends ⟨s, env⟩ ⟨s, env.insertAll wanted⟩
  | [], _ => .refl _
  | binding :: wanted, env => (extends_afterInsert s env binding).trans (extends_insertAll s wanted _)

/-- What a type stands for stays the same, whatever is bound later and put into the store. -/
theorem follow_later {env : Env} {s s' : Store} (hs : s.Extends s') (wanted : List (String × TypeId))
    (h : env.follow s t = .ok r) : (env.insertAll wanted).follow s' t = .ok r := by
  have hextends : Extends ⟨s, env⟩ ⟨s', env.insertAll wanted⟩ :=
    (extends_store env hs).trans (extends_insertAll s' wanted env)
  exact followWithin_extends hextends (Nat.add_le_add_right hextends.hops 1) h

theorem Extends.hop {w' : Scope} (h : w.Extends w') (ht : w.Hop t u) : w'.Hop t u := by
  obtain ⟨name, hname, hu⟩ := ht
  exact ⟨name, h.typeAt _ _ hname, h.bound _ _ hu⟩

end Scope

end TypedWire
