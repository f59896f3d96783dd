import TypedWire.Schema.Subtype
import TypedWire.Proofs.Action

/-! What a type stands for: following a handle through any number of names ends at a node that is no
    name, and that node's handle stands for itself. -/

namespace TypedWire

/-- A store, and the names bound to types in it. -/
structure Scope where
  store : Store
  env : Env

namespace Scope

/-- `type` stands for `node`, which lies at the handle `root`. -/
structure StandsFor (w : Scope) (type root : TypeId) (node : TypeNode) : Prop where
  follow : w.env.follow w.store type = .ok root
  node : w.store.typeAt root = .ok node

variable {w : Scope} {t r r' : TypeId} {n n' : TypeNode}

/-! ### Following names -/

theorem followWithin_root (env : Env) (s : Store) : ∀ (hops : Nat) (t r : TypeId),
    env.followWithin s hops t = .ok r → ∃ n, s.typeAt r = .ok n ∧ ∀ name, n ≠ .var name
  | 0, _, _, h => by simp [Env.followWithin] at h
  | hops + 1, t, r, h => by
    simp only [Env.followWithin, Except.bind_eq_ok] at h
    obtain ⟨n, hn, h⟩ := h
    split at h
    · split at h
      · exact followWithin_root env s hops _ r h
      · simp at h
    · next hvar =>
      simp only [Except.pure_eq_ok] at h
      exact h ▸ ⟨n, hn, fun name => hvar name⟩

theorem followWithin_of_node (env : Env) {s : Store} (hn : s.typeAt t = .ok n)
    (hvar : ∀ name, n ≠ .var name) (hops : Nat) : env.followWithin s (hops + 1) t = .ok t := by
  simp only [Env.followWithin, hn]
  cases n <;> first | rfl | exact absurd rfl (hvar _)

theorem followWithin_var {env : Env} {s : Store} {name : String} (hn : s.typeAt t = .ok (.var name))
    (hbound : env.find? name = some r) (hops : Nat) :
    env.followWithin s (hops + 1) t = env.followWithin s hops r := by
  simp only [Env.followWithin, hn, bind, Except.bind, hbound]

theorem follow_of_node (hn : w.store.typeAt t = .ok n) (hvar : ∀ name, n ≠ .var name) :
    w.env.follow w.store t = .ok t :=
  followWithin_of_node w.env hn hvar _

theorem StandsFor.of_node (hn : w.store.typeAt t = .ok n) (hvar : ∀ name, n ≠ .var name) :
    w.StandsFor t t n :=
  ⟨follow_of_node hn hvar, hn⟩

theorem StandsFor.not_var (h : w.StandsFor t r n) (name : String) : n ≠ .var name := by
  obtain ⟨m, hm, hvar⟩ := followWithin_root _ _ _ _ _ h.follow
  rw [h.node, Except.ok.injEq] at hm
  exact hm ▸ hvar name

theorem StandsFor.root (h : w.StandsFor t r n) : w.StandsFor r r n := .of_node h.node h.not_var

theorem StandsFor.root_eq (h : w.StandsFor t r n) (h' : w.StandsFor t r' n') : r = r' := by
  simpa [h.follow] using h'.follow

theorem StandsFor.node_eq (h : w.StandsFor t r n) (h' : w.StandsFor t r' n') : n = n' := by
  have hr := h.root_eq h'
  simpa [hr, h'.node] using h.node.symm

/-- The node at the handle itself: the one that it stands for, or a name. -/
theorem StandsFor.typeAt (h : w.StandsFor t r n) :
    ∃ m, w.store.typeAt t = .ok m ∧ (m = n ∨ ∃ name, m = .var name) := by
  have hfollow := h.follow
  simp only [Env.follow, Env.followWithin, Except.bind_eq_ok] at hfollow
  obtain ⟨m, hm, -⟩ := hfollow
  by_cases hvar : ∃ name, m = .var name
  · exact ⟨m, hm, .inr hvar⟩
  · have hself : w.StandsFor t t m := .of_node hm fun name h => hvar ⟨name, h⟩
    exact ⟨m, hm, .inl (hself.node_eq h)⟩

theorem StandsFor.of_follow (h : w.env.follow w.store t = .ok r) : ∃ n, w.StandsFor t r n := by
  obtain ⟨n, hn, -⟩ := followWithin_root _ _ _ _ _ h
  exact ⟨n, h, hn⟩

theorem standsFor_of_resolve (h : w.env.resolve w.store t = .ok n) : ∃ r, w.StandsFor t r n := by
  simp only [Env.resolve, Except.bind_eq_ok] at h
  obtain ⟨r, hr, hn⟩ := h
  exact ⟨r, hr, hn⟩

theorem StandsFor.resolve (h : w.StandsFor t r n) : w.env.resolve w.store t = .ok n := by
  simp only [Env.resolve, Except.bind_eq_ok]
  exact ⟨r, h.follow, h.node⟩

theorem typeAt_fault {s : Store} {e : Fault} (h : s.typeAt t = .error e) : e = .invalid := by
  unfold Store.typeAt at h
  split at h <;> simp_all

theorem followWithin_fault (env : Env) (s : Store) : ∀ (hops : Nat) (t : TypeId) (e : Fault),
    env.followWithin s hops t = .error e → e = .invalid
  | 0, _, _, h => by simpa [Env.followWithin] using h.symm
  | hops + 1, t, e, h => by
    simp only [Env.followWithin, Except.bind_eq_error] at h
    rcases h with h | ⟨n, -, h⟩
    · exact typeAt_fault h
    · split at h
      · split at h
        · exact followWithin_fault env s hops _ e h
        · exact (Except.throw_eq_error.mp h).symm
      · exact absurd h Except.pure_ne_error

/-- A type that cannot be followed is not well formed, which is all that is said of it. -/
theorem follow_fault {env : Env} {s : Store} {e : Fault} (h : env.follow s t = .error e) :
    e = .invalid :=
  followWithin_fault env s _ _ e h

/-- Following names takes no more of a store than its types. -/
theorem followWithin_congr (env : Env) {s s' : Store} (h : s'.types = s.types) :
    ∀ hops t, env.followWithin s' hops t = env.followWithin s hops t
  | 0, _ => rfl
  | hops + 1, t => by
    have ht : s'.typeAt t = s.typeAt t := by simp only [Store.typeAt, h]
    have hrest : env.followWithin s' hops = env.followWithin s hops :=
      funext (followWithin_congr env h hops)
    simp only [Env.followWithin, ht, hrest]

theorem follow_congr (env : Env) {s s' : Store} (h : s'.types = s.types) (t : TypeId) :
    env.follow s' t = env.follow s t :=
  followWithin_congr env h _ t

theorem resolve_congr (env : Env) {s s' : Store} (h : s'.types = s.types) (t : TypeId) :
    env.resolve s' t = env.resolve s t := by
  simp only [Env.resolve, follow_congr env h, Store.typeAt, h]

/-! ### Types that may be missing -/

/-- Whether a field of the type may be missing. -/
def Optional (w : Scope) (t : TypeId) : Prop := w.env.isOptional w.store t = true

theorem StandsFor.optional_iff (h : w.StandsFor t r n) :
    w.Optional t ↔ n = .primitive .null ∨ n = .primitive .reserved ∨ ∃ inner, n = .opt inner := by
  simp only [Optional, Env.isOptional, h.resolve]
  split <;> simp_all

theorem Optional.standsFor (h : w.Optional t) : ∃ r n, w.StandsFor t r n := by
  simp only [Optional, Env.isOptional] at h
  split at h
  all_goals first | exact ⟨_, _, (standsFor_of_resolve ‹_›).choose_spec⟩ | exact absurd h (by simp)

end Scope

end TypedWire
