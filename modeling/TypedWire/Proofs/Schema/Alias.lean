import TypedWire.Schema.Equal
import TypedWire.Proofs.Schema.Growing

/-! Types that may be taken for each other. The comparison of types follows names, looks so many levels
    down, and below takes only the same handle for equal; where it answers yes, the two types stand for
    nodes that are alike all the way down, as far as they stand for anything. The relation is a finite
    one, so that it holds of types that are not all bound yet, and stays when more of them are. -/

namespace TypedWire

namespace TypeNode

variable {R S : TypeId → TypeId → Prop} {n n' n'' : TypeNode}

theorem Alike.comp (h : n.Alike R n') (h' : n'.Alike S n'') :
    n.Alike (fun a c => ∃ b, R a b ∧ S b c) n'' := by
  cases h with
  | primitive p =>
    cases h' with
    | primitive => exact .primitive p
  | opt h =>
    cases h' with
    | opt h' => exact .opt ⟨_, h, h'⟩
  | vec h =>
    cases h' with
    | vec h' => exact .vec ⟨_, h, h'⟩
  | record h =>
    cases h' with
    | record h' =>
      exact .record (forall₂_comp (fun _ g _ hf hg => ⟨hf.1.trans hg.1, g.type, hf.2, hg.2⟩) h h')
  | variant h =>
    cases h' with
    | variant h' =>
      exact .variant (forall₂_comp (fun _ g _ hf hg => ⟨hf.1.trans hg.1, g.type, hf.2, hg.2⟩) h h')
  | func ha hr hm =>
    cases h' with
    | func ha' hr' hm' =>
      exact .func (forall₂_comp (fun _ b _ h h' => ⟨b, h, h'⟩) ha ha')
        (forall₂_comp (fun _ b _ h h' => ⟨b, h, h'⟩) hr hr') (hm.trans hm')
  | service h =>
    cases h' with
    | service h' =>
      exact .service (forall₂_comp (fun _ k _ hm hk => ⟨hm.1.trans hk.1, k.type, hm.2, hk.2⟩) h h')

/-- A node that is no name is like itself. -/
theorem Alike.refl (hR : ∀ t, R t t) (hvar : ∀ name, n ≠ .var name) : n.Alike R n := by
  cases n with
  | primitive p => exact .primitive p
  | opt t => exact .opt (hR t)
  | vec t => exact .vec (hR t)
  | record fs => exact .record (List.forall₂_same.mpr fun f _ => ⟨rfl, hR f.type⟩)
  | variant fs => exact .variant (List.forall₂_same.mpr fun f _ => ⟨rfl, hR f.type⟩)
  | func g =>
    exact .func (List.forall₂_same.mpr fun t _ => hR t) (List.forall₂_same.mpr fun t _ => hR t) rfl
  | service ms => exact .service (List.forall₂_same.mpr fun m _ => ⟨rfl, hR m.type⟩)
  | var name => exact absurd rfl (hvar name)

end TypeNode

namespace Scope

/-- One type may be taken for the other. -/
inductive Alias (w : Scope) : TypeId → TypeId → Prop where
  | refl (t : TypeId) : Alias w t t
  /-- A type, and where the node lies that it stands for. -/
  | root {t r : TypeId} {n : TypeNode} : w.StandsFor t r n → Alias w t r
  | unroot {t r : TypeId} {n : TypeNode} : w.StandsFor t r n → Alias w r t
  /-- The same name, bound or not. -/
  | name {a b : TypeId} {name : String} : w.store.typeAt a = .ok (.var name) →
      w.store.typeAt b = .ok (.var name) → Alias w a b
  | nodes {a b r r' : TypeId} {n n' : TypeNode} {sub : TypeId → TypeId → Prop} :
      w.StandsFor a r n → w.StandsFor b r' n' → n.Alike sub n' → (∀ x y, sub x y → Alias w x y) →
      Alias w a b
  | trans {a b c : TypeId} : Alias w a b → Alias w b c → Alias w a c

variable {w w' : Scope} {a b r t : TypeId} {n : TypeNode}

theorem Alias.extends (hw : w.Extends w') (h : w.Alias a b) : w'.Alias a b := by
  induction h with
  | refl t => exact .refl t
  | root hs => exact .root (hs.extends hw)
  | unroot hs => exact .unroot (hs.extends hw)
  | name ha hb => exact .name (hw.typeAt _ _ ha) (hw.typeAt _ _ hb)
  | nodes ha hb hn _ ih => exact .nodes (ha.extends hw) (hb.extends hw) hn ih
  | trans _ _ ih ih' => exact .trans ih ih'

theorem Alias.symm (h : w.Alias a b) : w.Alias b a := by
  induction h with
  | refl t => exact .refl t
  | root hs => exact .unroot hs
  | unroot hs => exact .root hs
  | name ha hb => exact .name hb ha
  | nodes ha hb hn _ ih => exact .nodes hb ha hn.symm fun x y hxy => ih y x hxy
  | trans _ _ ih ih' => exact .trans ih' ih

theorem follow_same_name {name : String} (ha : w.store.typeAt a = .ok (.var name))
    (hb : w.store.typeAt b = .ok (.var name)) : w.env.follow w.store a = w.env.follow w.store b := by
  simp only [Env.follow, Env.followWithin, ha, hb]
  rfl

/-- If a type stands for a node, so does one that may be taken for it, and the nodes are alike. -/
theorem Alias.standsFor (h : w.Alias a b) : ∀ {r : TypeId} {n : TypeNode}, w.StandsFor b r n →
    ∃ r' n', w.StandsFor a r' n' ∧ n'.Alike w.Alias n := by
  induction h with
  | refl t => exact fun hs => ⟨_, _, hs, .refl .refl hs.not_var⟩
  | root hs =>
    intro r n hs'
    obtain rfl := hs.root.node_eq hs'
    exact ⟨_, _, hs, .refl .refl hs.not_var⟩
  | unroot hs =>
    intro r n hs'
    obtain rfl := hs.node_eq hs'
    exact ⟨_, _, hs.root, .refl .refl hs.not_var⟩
  | name ha hb =>
    intro r n hs
    exact ⟨r, n, ⟨(follow_same_name ha hb).trans hs.follow, hs.node⟩, .refl .refl hs.not_var⟩
  | nodes ha hb hn hsub _ =>
    intro r n hs
    obtain rfl := hb.node_eq hs
    exact ⟨_, _, ha, hn.mono hsub⟩
  | trans _ _ ih ih' =>
    intro r n hs
    obtain ⟨r', n', hs', hn'⟩ := ih' hs
    obtain ⟨r'', n'', hs'', hn''⟩ := ih hs'
    exact ⟨r'', n'', hs'', (hn''.comp hn').mono fun x z ⟨y, hxy, hyz⟩ => .trans hxy hyz⟩

/-! ### The comparison -/

theorem allM_eq_ok {α : Type} {test : α → Except Fault Bool} : ∀ {xs : List α},
    xs.allM test = .ok true → ∀ x ∈ xs, test x = .ok true
  | [], _ => by simp
  | x :: xs, h => by
    simp only [List.allM, Except.bind_eq_ok] at h
    obtain ⟨b, hb, h⟩ := h
    cases b with
    | false => simp [pure, Except.pure] at h
    | true => exact List.forall_mem_cons.mpr ⟨hb, allM_eq_ok h⟩

theorem allPairs_eq_ok {α β : Type} {test : α → β → Except Fault Bool} {xs : List α} {ys : List β}
    (h : allPairs test xs ys = .ok true) : List.Forall₂ (fun x y => test x y = .ok true) xs ys := by
  unfold allPairs at h
  split at h
  · next hlen =>
    rw [List.forall₂_iff_zip]
    exact ⟨hlen, fun {x y} hxy => allM_eq_ok h (x, y) hxy⟩
  · exact absurd h (by simp)

theorem same_eq_ok {test : TypeId → TypeId → Except Fault Bool} {n n' : TypeNode}
    (h : n.same test n' = .ok true) : n.Alike (fun a b => test a b = .ok true) n' := by
  have hfields : ∀ {xs ys : List Field},
      allPairs (fun x y => if x.label.id = y.label.id then test x.type y.type else .ok false) xs ys =
        .ok true →
      List.Forall₂ (fun x y => x.label.id = y.label.id ∧ test x.type y.type = .ok true) xs ys := by
    intro xs ys hxs
    refine (allPairs_eq_ok hxs).imp fun x y hxy => ?_
    split at hxy
    · next hid => exact ⟨hid, hxy⟩
    · exact absurd hxy (by simp)
  unfold TypeNode.same at h
  split at h
  · exact .opt h
  · exact .vec h
  · exact .record (hfields h)
  · exact .variant (hfields h)
  · split at h
    · next hmodes =>
      simp only [Except.bind_eq_ok] at h
      obtain ⟨ok, hargs, h⟩ := h
      split at h
      · next hok =>
        subst hok
        exact .func (allPairs_eq_ok hargs) (allPairs_eq_ok h) hmodes
      · simp [pure, Except.pure] at h
    · simp [pure, Except.pure] at h
  · refine .service ((allPairs_eq_ok h).imp fun x y hxy => ?_)
    split at hxy
    · next hname => exact ⟨hname, hxy⟩
    · exact absurd hxy (by simp)
  · simp only [Except.ok.injEq, decide_eq_true_eq] at h
    exact h ▸ .primitive _
  · exact absurd h (by simp)

/-- Types that the comparison finds equal may be taken for each other. -/
theorem sameWithin_alias : ∀ (levels : Nat) (a b : TypeId),
    w.env.sameWithin w.store levels a b = .ok true → w.Alias a b
  | 0, a, b, h => by
    simp only [Env.sameWithin, Except.ok.injEq, decide_eq_true_eq] at h
    exact h ▸ .refl a
  | levels + 1, a, b, h => by
    unfold Env.sameWithin at h
    split at h
    · next heq => exact heq ▸ .refl a
    · simp only [Except.bind_eq_ok] at h
      obtain ⟨na, hna, nb, hnb, h⟩ := h
      split at h
      · next hvar =>
        obtain ⟨hkind, rfl⟩ := hvar
        cases na with
        | var name => exact .name hna hnb
        | _ => simp [TypeNode.kind] at hkind
      · simp only [Except.bind_eq_ok] at h
        obtain ⟨ra, hra, rb, hrb, h⟩ := h
        obtain ⟨ma, ha⟩ := StandsFor.of_follow hra
        obtain ⟨mb, hb⟩ := StandsFor.of_follow hrb
        split at h
        · next hroots =>
          subst hroots
          exact .trans (.root ha) (.unroot hb)
        · simp only [Except.bind_eq_ok] at h
          obtain ⟨na', hna', nb', hnb', h⟩ := h
          exact .nodes ⟨hra, hna'⟩ ⟨hrb, hnb'⟩ (same_eq_ok h) fun x y => sameWithin_alias levels x y

end Scope

end TypedWire
