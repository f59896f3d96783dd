import TypedWire.Proofs.Schema.SameTree
import TypedWire.Proofs.Store.Extends

/-! Scopes only grow: types are put into the store and names are bound, and neither is taken back. What
    a type stands for stays the same, and two types that unfold to the same tree still do. -/

namespace TypedWire.Scope

/-- What lies in `w`, and what is bound in it, is so in `w'`. -/
structure Extends (w w' : Scope) : Prop where
  typeAt : ∀ t n, w.store.typeAt t = .ok n → w'.store.typeAt t = .ok n
  bound : ∀ name t, w.env.find? name = some t → w'.env.find? name = some t
  hops : w.env.bindings.length ≤ w'.env.bindings.length

variable {w w' w'' : Scope} {t t' r : TypeId} {n : TypeNode}

theorem Extends.refl (w : Scope) : w.Extends w := ⟨fun _ _ => id, fun _ _ => id, Nat.le_refl _⟩

theorem Extends.trans (h : w.Extends w') (h' : w'.Extends w'') : w.Extends w'' where
  typeAt t n hn := h'.typeAt t n (h.typeAt t n hn)
  bound name t ht := h'.bound name t (h.bound name t ht)
  hops := Nat.le_trans h.hops h'.hops

theorem extends_store {s s' : Store} (env : Env) (h : s.Extends s') :
    Extends ⟨s, env⟩ ⟨s', env⟩ :=
  ⟨h.typeAt, fun _ _ => id, Nat.le_refl _⟩

theorem extends_insert {env env' : Env} {name : String} (s : Store)
    (h : env.insert name t = .ok env') : Extends ⟨s, env⟩ ⟨s, env'⟩ := by
  unfold Env.insert at h
  split at h
  · next bound hb =>
    split at h
    · rw [Except.ok.injEq] at h
      exact h ▸ .refl _
    · exact absurd h (by simp)
  · next hnone =>
    rw [Except.ok.injEq] at h
    subst h
    refine ⟨fun _ _ => id, fun other t ht => ?_, by simp⟩
    have hne : (other == name) = false := by
      rw [beq_eq_false_iff_ne]
      rintro rfl
      exact absurd (hnone.symm.trans ht) (by simp)
    simpa only [Env.find?, List.lookup_cons, hne] using ht

theorem followWithin_extends (h : w.Extends w') : ∀ {hops hops' : Nat} {t r : TypeId}, hops ≤ hops' →
    w.env.followWithin w.store hops t = .ok r → w'.env.followWithin w'.store hops' t = .ok r
  | 0, _, _, _, _, hr => by simp [Env.followWithin] at hr
  | hops + 1, 0, _, _, hle, _ => absurd hle (by omega)
  | hops + 1, hops' + 1, t, r, hle, hr => by
    simp only [Env.followWithin, Except.bind_eq_ok] at hr ⊢
    obtain ⟨n, hn, hr⟩ := hr
    refine ⟨n, h.typeAt t n hn, ?_⟩
    cases n with
    | var name =>
      cases hb : w.env.find? name with
      | none => simp [hb] at hr
      | some bound =>
        simp only [hb] at hr
        simp only [h.bound name bound hb]
        exact followWithin_extends h (by omega) hr
    | _ => exact hr

theorem StandsFor.extends (h : w.Extends w') (hs : w.StandsFor t r n) : w'.StandsFor t r n where
  follow := followWithin_extends h (Nat.add_le_add_right h.hops 1) hs.follow
  node := h.typeAt r n hs.node

theorem SameTree.extends {v v' : Scope} (h : w.Extends w') (h' : v.Extends v')
    (hs : w.SameTree t v t') : w'.SameTree t v' t' := by
  obtain ⟨R, hR, htt⟩ := hs
  refine ⟨R, fun a b hab => ?_, htt⟩
  obtain ⟨r, n, r', n', hs, hs', hn⟩ := hR a b hab
  exact ⟨r, n, r', n', hs.extends h, hs'.extends h', hn⟩

end TypedWire.Scope
