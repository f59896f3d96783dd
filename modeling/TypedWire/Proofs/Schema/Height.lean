import TypedWire.Proofs.Schema.Alias
import TypedWire.Proofs.Value.Equal

/-! Types that unfold to trees of bounded height. A comparison that looks at more levels than such a type
    has misses nothing: it answers yes for every type that unfolds to the same tree. -/

namespace TypedWire

/-- The comparison of two nodes says yes for nodes that are alike, if it says so for their parts. -/
theorem TypeNode.Alike.same_eq_ok {test : TypeId → TypeId → Except Fault Bool} {n m : TypeNode}
    (h : n.Alike (fun a b => test a b = .ok true) m) : n.same test m = .ok true := by
  have hfields : ∀ {xs ys : List Field},
      List.Forall₂ (fun x y => x.label.id = y.label.id ∧ test x.type y.type = .ok true) xs ys →
      allPairs (fun x y => if x.label.id = y.label.id then test x.type y.type else .ok false) xs ys =
        .ok true :=
    fun hxs => allPairs_of_forall₂ (hxs.imp fun x y hxy => (if_pos hxy.1).trans hxy.2)
  cases h with
  | primitive p => simp [TypeNode.same]
  | opt h => exact h
  | vec h => exact h
  | record h => exact hfields h
  | variant h => exact hfields h
  | func ha hr hm =>
    simp only [TypeNode.same, if_pos hm, Except.bind_eq_ok]
    exact ⟨true, allPairs_of_forall₂ ha, allPairs_of_forall₂ hr⟩
  | service h => exact allPairs_of_forall₂ (h.imp fun x y hxy => (if_pos hxy.1).trans hxy.2)

namespace Scope

/-- What the type stands for unfolds to a tree with no more than so many edges from its root to a leaf. -/
def HeightAtMost (w : Scope) : (height : Nat) → TypeId → Prop
  | 0, t => ∃ r n, w.StandsFor t r n ∧ TypeTable.parts n = []
  | height + 1, t => ∃ r n, w.StandsFor t r n ∧ ∀ c ∈ TypeTable.parts n, w.HeightAtMost height c

variable {w v u : Scope} {t t' t'' a b r r' : TypeId} {n n' : TypeNode} {height : Nat}

/-! ### The same tree -/

theorem SameTree.trans (h : w.SameTree t v t') (h' : v.SameTree t' u t'') : w.SameTree t u t'' := by
  refine ⟨fun x z => ∃ y, w.SameTree x v y ∧ v.SameTree y u z, ?_, t', h, h'⟩
  rintro x z ⟨y, hxy, hyz⟩
  obtain ⟨r, n, q, m, hs, hs', hnm⟩ := hxy.unfold
  obtain ⟨q', m', p, l, hs'', hs3, hml⟩ := hyz.unfold
  obtain rfl := hs'.node_eq hs''
  exact ⟨r, n, p, l, hs, hs3, hnm.comp hml⟩

/-- A type unfolds to the same tree as what it stands for. -/
theorem SameTree.root (h : w.SameTree t v t') (hs : w.StandsFor t r n) (hs' : v.StandsFor t' r' n') :
    w.SameTree r v r' := by
  obtain ⟨q, m, q', m', hm, hm', halike⟩ := h.unfold
  refine ⟨fun x y => (x = r ∧ y = r') ∨ w.SameTree x v y, ?_, .inl ⟨rfl, rfl⟩⟩
  rintro x y (⟨rfl, rfl⟩ | hxy)
  · obtain rfl := hm.node_eq hs
    obtain rfl := hm'.node_eq hs'
    exact ⟨x, m, y, m', hs.root, hs'.root, halike.mono fun _ _ => .inr⟩
  · obtain ⟨q, m, q', m', hm, hm', halike⟩ := hxy.unfold
    exact ⟨q, m, q', m', hm, hm', halike.mono fun _ _ => .inr⟩

/-! ### Comparisons that see all -/

/-- A type is no higher than so many edges if its parts are lower by one. -/
theorem StandsFor.heightAtMost_iff (hs : w.StandsFor t r n) : w.HeightAtMost height t ↔
    ∀ c ∈ TypeTable.parts n, ∃ below, height = below + 1 ∧ w.HeightAtMost below c := by
  cases height with
  | zero =>
    have hnone : (∀ c ∈ TypeTable.parts n, ∃ below, 0 = below + 1 ∧ w.HeightAtMost below c) ↔
        TypeTable.parts n = [] := by
      simp [List.eq_nil_iff_forall_not_mem]
    rw [hnone]
    exact ⟨fun ⟨_, _, hs', h⟩ => hs.node_eq hs' ▸ h, fun h => ⟨r, n, hs, h⟩⟩
  | succ height =>
    have hbelow : (∀ c ∈ TypeTable.parts n, ∃ below, height + 1 = below + 1 ∧ w.HeightAtMost below c) ↔
        ∀ c ∈ TypeTable.parts n, w.HeightAtMost height c := by
      simp
    rw [hbelow]
    exact ⟨fun ⟨_, _, hs', h⟩ => hs.node_eq hs' ▸ h, fun h => ⟨r, n, hs, h⟩⟩

/-- What a type stands for is no higher. -/
theorem HeightAtMost.root (h : w.HeightAtMost height t) (hs : w.StandsFor t r n) :
    w.HeightAtMost height r :=
  hs.root.heightAtMost_iff.mpr (hs.heightAtMost_iff.mp h)

/-- The comparison says yes for types that stand for nodes that are alike, if it says so for their
    parts. -/
theorem sameWithin_of_alike {levels : Nat} (hs : w.StandsFor a r n) (hs' : w.StandsFor b r' n')
    (halike : n.Alike (fun c d => w.env.sameWithin w.store levels c d = .ok true) n') :
    w.env.sameWithin w.store (levels + 1) a b = .ok true := by
  obtain ⟨m, hm, -⟩ := hs.typeAt
  obtain ⟨m', hm', -⟩ := hs'.typeAt
  unfold Env.sameWithin
  split
  · rfl
  rw [hm, hm']
  by_cases hname : m.kind = .var ∧ m = m'
  · obtain ⟨hvar, rfl⟩ := hname
    simp [bind, Except.bind, hvar]
  · by_cases hroot : r = r'
    · simp [bind, Except.bind, hname, hs.follow, hs'.follow, hroot]
    · simp [bind, Except.bind, hname, hs.follow, hs'.follow, hroot, hs.node, hs'.node,
        halike.same_eq_ok]

/-- A comparison of more levels than a type has says yes for each type that unfolds to the same tree. -/
theorem sameWithin_of_sameTree (height : Nat) {a b : TypeId} (hb : w.HeightAtMost height b)
    (hab : w.SameTree a w b) : w.env.sameWithin w.store (height + 1) a b = .ok true := by
  obtain ⟨r, n, r', n', hs, hs', halike⟩ := hab.unfold
  refine sameWithin_of_alike hs hs' (halike.within.mono fun c d ⟨hcd, _, hd⟩ => ?_)
  obtain ⟨below, rfl, hlow⟩ := hs'.heightAtMost_iff.mp hb d hd
  exact sameWithin_of_sameTree below hlow hcd

end Scope

end TypedWire
