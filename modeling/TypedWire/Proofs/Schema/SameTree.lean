import TypedWire.Proofs.Schema.Rules

/-! Types that unfold to the same tree. They may lie at different handles, take their names from
    different scopes, and repeat themselves at different depths; what is met on each way from the top
    is the same. -/

namespace TypedWire

/-- Two nodes of the same kind with the same numbers, names and modes in the same order, whose parts
    are related. -/
inductive TypeNode.Alike (sub : TypeId → TypeId → Prop) : TypeNode → TypeNode → Prop where
  | primitive (p : Primitive) : Alike sub (.primitive p) (.primitive p)
  | opt {a b : TypeId} : sub a b → Alike sub (.opt a) (.opt b)
  | vec {a b : TypeId} : sub a b → Alike sub (.vec a) (.vec b)
  | record {fs gs : List Field} :
      List.Forall₂ (fun f g => f.label.id = g.label.id ∧ sub f.type g.type) fs gs →
      Alike sub (.record fs) (.record gs)
  | variant {fs gs : List Field} :
      List.Forall₂ (fun f g => f.label.id = g.label.id ∧ sub f.type g.type) fs gs →
      Alike sub (.variant fs) (.variant gs)
  | func {f g : Signature} : List.Forall₂ sub f.args g.args → List.Forall₂ sub f.results g.results →
      f.modes = g.modes → Alike sub (.func f) (.func g)
  | service {ms ks : List Method} :
      List.Forall₂ (fun m k => m.name = k.name ∧ sub m.type k.type) ms ks →
      Alike sub (.service ms) (.service ks)

/-! ### Lists that match -/

theorem forall₂_partner {α β : Type} {R : α → β → Prop} {xs : List α} {ys : List β}
    (h : List.Forall₂ R xs ys) : ∀ y ∈ ys, ∃ x ∈ xs, R x y := by
  induction h with
  | nil => simp
  | @cons x y xs ys hxy _ ih =>
    rw [List.forall_mem_cons]
    refine ⟨⟨x, List.mem_cons_self, hxy⟩, fun z hz => ?_⟩
    obtain ⟨a, ha, haz⟩ := ih z hz
    exact ⟨a, List.mem_cons_of_mem _ ha, haz⟩

theorem forall₂_comp {α β γ : Type} {P : α → β → Prop} {Q : β → γ → Prop} {T : α → γ → Prop}
    (hT : ∀ a b c, P a b → Q b c → T a c) : ∀ {xs : List α} {ys : List β} {zs : List γ},
    List.Forall₂ P xs ys → List.Forall₂ Q ys zs → List.Forall₂ T xs zs
  | _, _, _, .nil, .nil => .nil
  | _, _, _, .cons h hs, .cons h' hs' => .cons (hT _ _ _ h h') (forall₂_comp hT hs hs')

theorem forall₂_getElem? {α β : Type} {R : α → β → Prop} : ∀ {xs : List α} {ys : List β} {i : Nat}
    {x : α}, List.Forall₂ R xs ys → xs[i]? = some x → ∃ y, ys[i]? = some y ∧ R x y
  | _, _, 0, _, .cons hxy _, hx => by
    rw [List.getElem?_cons_zero, Option.some.injEq] at hx
    exact ⟨_, rfl, hx ▸ hxy⟩
  | _, _, i + 1, _, .cons _ hrest, hx => by
    rw [List.getElem?_cons_succ] at hx ⊢
    exact forall₂_getElem? hrest hx

/-- Two lists that go together place by place are searched alike. -/
theorem forall₂_find? {α β : Type} {R : α → β → Prop} {p : α → Bool} {q : β → Bool}
    (hpq : ∀ x y, R x y → p x = q y) : ∀ {xs : List α} {ys : List β} {x : α}, List.Forall₂ R xs ys →
    xs.find? p = some x → ∃ y, ys.find? q = some y ∧ R x y
  | _, _, _, .nil, hx => by simp at hx
  | x :: _, y :: _, z, .cons hxy hrest, hx => by
    rw [List.find?_cons] at hx ⊢
    rw [← hpq x y hxy]
    cases hp : p x with
    | true =>
      rw [hp, Option.some.injEq] at hx
      exact ⟨y, rfl, hx ▸ hxy⟩
    | false =>
      rw [hp] at hx
      exact forall₂_find? hpq hrest hx

/-! ### Nodes that are alike -/

namespace TypeNode

variable {sub sub' : TypeId → TypeId → Prop} {n n' : TypeNode}

theorem Alike.mono (hsub : ∀ a b, sub a b → sub' a b) (h : n.Alike sub n') : n.Alike sub' n' := by
  cases h with
  | primitive p => exact .primitive p
  | opt h => exact .opt (hsub _ _ h)
  | vec h => exact .vec (hsub _ _ h)
  | record h => exact .record (h.imp fun _ _ hfg => ⟨hfg.1, hsub _ _ hfg.2⟩)
  | variant h => exact .variant (h.imp fun _ _ hfg => ⟨hfg.1, hsub _ _ hfg.2⟩)
  | func ha hr hm => exact .func (ha.imp hsub) (hr.imp hsub) hm
  | service h => exact .service (h.imp fun _ _ hmk => ⟨hmk.1, hsub _ _ hmk.2⟩)

theorem Alike.symm (h : n.Alike sub n') : n'.Alike (fun a b => sub b a) n := by
  cases h with
  | primitive p => exact .primitive p
  | opt h => exact .opt h
  | vec h => exact .vec h
  | record h => exact .record (h.flip.imp fun _ _ hfg => ⟨hfg.1.symm, hfg.2⟩)
  | variant h => exact .variant (h.flip.imp fun _ _ hfg => ⟨hfg.1.symm, hfg.2⟩)
  | func ha hr hm => exact .func ha.flip hr.flip hm.symm
  | service h => exact .service (h.flip.imp fun _ _ hmk => ⟨hmk.1.symm, hmk.2⟩)

end TypeNode

/-! ### Parts -/

/-- Only the parts of the first node are related to those of the second. -/
theorem TypeNode.Alike.of_parts {sub sub' : TypeId → TypeId → Prop} {n n' : TypeNode}
    (h : n.Alike sub n') (hsub : ∀ a ∈ TypeTable.parts n, ∀ b, sub a b → sub' a b) :
    n.Alike sub' n' := by
  have himp : ∀ {α β : Type} {P Q : α → β → Prop} {xs : List α} {ys : List β},
      List.Forall₂ P xs ys → (∀ x ∈ xs, ∀ y, P x y → Q x y) → List.Forall₂ Q xs ys :=
    fun hxs hPQ => ((List.forall₂_and_left _ _).mpr ⟨hPQ, hxs⟩).imp fun _ y h => h.1 y h.2
  cases h with
  | primitive p => exact .primitive p
  | opt h => exact .opt (hsub _ (by simp [TypeTable.parts]) _ h)
  | vec h => exact .vec (hsub _ (by simp [TypeTable.parts]) _ h)
  | record h =>
    exact .record (himp h fun f hf g hfg => ⟨hfg.1, hsub _ (List.mem_map_of_mem hf) _ hfg.2⟩)
  | variant h =>
    exact .variant (himp h fun f hf g hfg => ⟨hfg.1, hsub _ (List.mem_map_of_mem hf) _ hfg.2⟩)
  | func ha hr hm =>
    exact .func (himp ha fun t ht => hsub t (List.mem_append_left _ ht))
      (himp hr fun t ht => hsub t (List.mem_append_right _ ht)) hm
  | service h =>
    exact .service (himp h fun m hm k hmk => ⟨hmk.1, hsub _ (List.mem_map_of_mem hm) _ hmk.2⟩)

/-- The parts of nodes that are alike are related, one after another. -/
theorem TypeNode.Alike.parts {sub : TypeId → TypeId → Prop} {n n' : TypeNode} (h : n.Alike sub n') :
    List.Forall₂ sub (TypeTable.parts n) (TypeTable.parts n') := by
  cases h with
  | primitive p => exact .nil
  | opt h => exact .cons h .nil
  | vec h => exact .cons h .nil
  | record h | variant h =>
    exact List.forall₂_map_left_iff.mpr (List.forall₂_map_right_iff.mpr (h.imp fun _ _ hfg => hfg.2))
  | func ha hr _ => exact List.rel_append ha hr
  | service h =>
    exact List.forall₂_map_left_iff.mpr (List.forall₂_map_right_iff.mpr (h.imp fun _ _ hmk => hmk.2))

/-- Each part of the first node is related to a part of the second. -/
theorem TypeNode.Alike.part {sub : TypeId → TypeId → Prop} {n n' : TypeNode} {c : TypeId}
    (h : n.Alike sub n') (hc : c ∈ TypeTable.parts n) : ∃ d ∈ TypeTable.parts n', sub c d :=
  forall₂_partner h.parts.flip c hc

/-- The parts that are related are parts of the one node and of the other. -/
theorem TypeNode.Alike.within {sub : TypeId → TypeId → Prop} {n n' : TypeNode} (h : n.Alike sub n') :
    n.Alike (fun a b => sub a b ∧ a ∈ TypeTable.parts n ∧ b ∈ TypeTable.parts n') n' := by
  have hback : n'.Alike (fun b a => sub a b ∧ b ∈ TypeTable.parts n') n :=
    h.symm.of_parts fun b hb a hab => ⟨hab, hb⟩
  exact hback.symm.of_parts fun a ha b hab => ⟨hab.1, ha, hab.2⟩

namespace Scope

/-- `t` in `w` and `t'` in `w'` unfold to the same tree: the largest relation in which related types
    stand for nodes that are alike. -/
def SameTree (w : Scope) (t : TypeId) (w' : Scope) (t' : TypeId) : Prop :=
  ∃ R : TypeId → TypeId → Prop, (∀ a b, R a b → ∃ r n r' n',
    w.StandsFor a r n ∧ w'.StandsFor b r' n' ∧ n.Alike R n') ∧ R t t'

variable {w w' : Scope} {how : OptRule} {sub : TypeId → TypeId → Prop} {t t' r r' : TypeId}
variable {n n' : TypeNode}

theorem SameTree.unfold (h : w.SameTree t w' t') : ∃ r n r' n',
    w.StandsFor t r n ∧ w'.StandsFor t' r' n' ∧ n.Alike (fun a b => w.SameTree a w' b) n' := by
  obtain ⟨R, hR, htt⟩ := h
  obtain ⟨r, n, r', n', hs, hs', hn⟩ := hR _ _ htt
  exact ⟨r, n, r', n', hs, hs', hn.mono fun a b hab => ⟨R, hR, hab⟩⟩

theorem SameTree.symm (h : w.SameTree t w' t') : w'.SameTree t' w t := by
  obtain ⟨R, hR, htt⟩ := h
  refine ⟨fun a b => R b a, fun a b hab => ?_, htt⟩
  obtain ⟨r, n, r', n', hs, hs', hn⟩ := hR _ _ hab
  exact ⟨r', n', r, n, hs', hs, hn.symm⟩

/-! ### The same tree fits -/

/-- Nodes that are alike fit by the rule for their kind, if what relates their parts does so both
    ways: the arguments of functions are taken the other way round. -/
theorem rule_of_alike (hsymm : ∀ a b, sub a b → sub b a) (hs : n.Alike sub n') :
    w.Rule how sub r n n' := by
  cases hs with
  | primitive p => exact .primitive p
  | opt h => exact .opt h
  | vec h => exact .vec h
  | record h =>
    refine .record fun want hw => .inl ?_
    obtain ⟨have1, hm, hid, hsub⟩ := forall₂_partner h want hw
    exact ⟨have1, hm, hid, hsub⟩
  | variant h =>
    refine .variant fun have1 hm => ?_
    obtain ⟨want, hw, hid, hsub⟩ := forall₂_partner h.flip have1 hm
    exact ⟨want, hw, hid.symm, hsub⟩
  | func ha hr hm => exact .func (ha.imp hsymm) hr hm
  | service h =>
    refine .service fun want hw => ?_
    obtain ⟨have1, hm, hname, hsub⟩ := forall₂_partner h want hw
    exact ⟨have1, hm, hname, hsub⟩

/-- Types that unfold to the same tree fit each other. -/
theorem SameTree.fits (h : w.SameTree t w t') : w.Fits how t t' := by
  refine ⟨fun a b => w.SameTree a w b, fun a b hab => .inr ?_, h⟩
  obtain ⟨r, n, r', n', hs, hs', hn⟩ := hab.unfold
  exact ⟨r, n, r', n', hs, hs', rule_of_alike (fun _ _ => SameTree.symm) hn⟩

end Scope

end TypedWire
