import TypedWire.Proofs.Schema.Alias

/-! Two scopes that show the same. Handles of one scope are related to handles of the other, one to
    one, and what is found by the first is found by the second: nodes, what names stand for, and which
    types are equal. A scope that has grown shows what it showed before, each handle being related to
    itself; two scopes whose related handles are alike, or name nothing in either, show the same both
    ways. -/

namespace TypedWire

variable {R : TypeId → TypeId → Prop} {a b c d : TypeId}

/-- Two nodes that are alike, or the same name. -/
inductive TypeNode.Mirrors (R : TypeId → TypeId → Prop) : TypeNode → TypeNode → Prop where
  | alike {n m : TypeNode} : n.Alike R m → Mirrors R n m
  | var (name : String) : Mirrors R (.var name) (.var name)

theorem TypeNode.Mirrors.symm {n m : TypeNode} (h : n.Mirrors R m) : m.Mirrors (flip R) n := by
  cases h with
  | alike h => exact .alike h.symm
  | var name => exact .var name

theorem TypeNode.Mirrors.mono {R' : TypeId → TypeId → Prop} {n m : TypeNode}
    (hR : ∀ a b, R a b → R' a b) (h : n.Mirrors R m) : n.Mirrors R' m := by
  cases h with
  | alike h => exact .alike (h.mono hR)
  | var name => exact .var name

/-- A node mirrors itself, if its parts do. -/
theorem TypeNode.Mirrors.self {n : TypeNode} (h : ∀ c ∈ TypeTable.parts n, R c c) : n.Mirrors R n := by
  by_cases hvar : ∃ name, n = .var name
  · obtain ⟨name, rfl⟩ := hvar
    exact .var name
  · have hself : n.Alike (· = ·) n := .refl (fun _ => rfl) fun name hname => hvar ⟨name, hname⟩
    exact .alike (hself.of_parts fun c hc d hcd => hcd ▸ h c hc)

/-- A node that is alike to another is no name. -/
theorem TypeNode.Alike.kind_ne_var {n m : TypeNode} (h : n.Alike R m) : n.kind ≠ .var := by
  cases h <;> simp [TypeNode.kind]

theorem TypeNode.Alike.isPrimitive_eq {n m : TypeNode} (h : n.Alike R m) :
    n.kind.isPrimitive = m.kind.isPrimitive := by
  cases h <;> rfl

namespace Scope

variable {w w' : Scope}

/-- What `w` finds, `w'` finds at the related handles. -/
structure Mirrors (R : TypeId → TypeId → Prop) (w w' : Scope) : Prop where
  typeAt : ∀ a b n, R a b → w.store.typeAt a = .ok n →
    ∃ m, w'.store.typeAt b = .ok m ∧ n.Mirrors R m
  follow : ∀ a b r, R a b → w.env.follow w.store a = .ok r →
    ∃ r', w'.env.follow w'.store b = .ok r' ∧ R r r'
  same : ∀ a b c d, R a b → R c d → (a = c ↔ b = d)

theorem Extends.mirrors (h : w.Extends w') : Mirrors (· = ·) w w' where
  typeAt a b n hab hn := by
    subst hab
    exact ⟨n, h.typeAt a n hn, .self fun _ _ => rfl⟩
  follow a b r hab hr := by
    obtain ⟨n, hs⟩ := StandsFor.of_follow hr
    exact ⟨r, hab ▸ (hs.extends h).follow, rfl⟩
  same a b c d hab hcd := by rw [hab, hcd]

theorem Mirrors.standsFor {r : TypeId} {n : TypeNode} (h : Mirrors R w w') (hab : R a b)
    (hs : w.StandsFor a r n) : ∃ r' m, w'.StandsFor b r' m ∧ R r r' ∧ n.Alike R m := by
  obtain ⟨r', hfollow, hr⟩ := h.follow a b r hab hs.follow
  obtain ⟨m, hm, hnode⟩ := h.typeAt r r' n hr hs.node
  cases hnode with
  | alike hn => exact ⟨r', m, ⟨hfollow, hm⟩, hr, hn⟩
  | var name => exact absurd rfl (hs.not_var name)

/-! ### The comparison -/

/-- Related members are tested alike, so lists of them are. -/
theorem allPairs_mirrors {α β : Type} {S : α → α → Prop} {T : β → β → Prop}
    {test test' : α → β → Except Fault Bool} {result : Bool}
    (h : ∀ x x' y y' r, S x x' → T y y' → test x y = .ok r → test' x' y' = .ok r)
    {xs xs' : List α} {ys ys' : List β} (hxs : List.Forall₂ S xs xs') (hys : List.Forall₂ T ys ys')
    (hr : allPairs test xs ys = .ok result) : allPairs test' xs' ys' = .ok result := by
  unfold allPairs at hr ⊢
  rw [← hxs.length_eq, ← hys.length_eq]
  split at hr
  · next hlen =>
    rw [if_pos hlen]
    clear hlen
    induction hxs generalizing ys ys' with
    | nil => simpa using hr
    | cons hx _ ih =>
      cases hys with
      | nil => simpa using hr
      | cons hy hys =>
        simp only [List.zip_cons_cons, List.allM, Except.bind_eq_ok] at hr ⊢
        obtain ⟨first, hfirst, hr⟩ := hr
        refine ⟨first, h _ _ _ _ _ hx hy hfirst, ?_⟩
        cases first with
        | false => exact hr
        | true => exact ih hys hr
  · next hlen => rwa [if_neg hlen]

/-- Nodes that are alike are compared alike, if their parts are. -/
theorem same_mirrors {test test' : TypeId → TypeId → Except Fault Bool} {result : Bool}
    (h : ∀ a b c d r, R a b → R c d → test a c = .ok r → test' b d = .ok r)
    {n n' m m' : TypeNode} (hn : n.Alike R n') (hm : m.Alike R m') (hr : n.same test m = .ok result) :
    n'.same test' m' = .ok result := by
  have hkeyed : ∀ {α κ : Type} [DecidableEq κ] (key : α → κ) (type : α → TypeId) {xs xs' ys ys' : List α},
      List.Forall₂ (fun x x' => key x = key x' ∧ R (type x) (type x')) xs xs' →
      List.Forall₂ (fun y y' => key y = key y' ∧ R (type y) (type y')) ys ys' →
      allPairs (fun x y => if key x = key y then test (type x) (type y) else .ok false) xs ys =
        .ok result →
      allPairs (fun x y => if key x = key y then test' (type x) (type y) else .ok false) xs' ys' =
        .ok result := by
    intro α κ _ key type xs xs' ys ys' hxs hys
    refine allPairs_mirrors (fun x x' y y' r hx hy hxy => ?_) hxs hys
    rw [← hx.1, ← hy.1]
    split at hxy
    · next hkey => rw [if_pos hkey, h _ _ _ _ _ hx.2 hy.2 hxy]
    · next hkey => rw [if_neg hkey, hxy]
  -- Nodes of different kinds are unequal on both sides.
  cases hn <;> cases hm <;> first | exact hr | skip
  case opt.opt ha _ _ hb => exact h _ _ _ _ _ ha hb hr
  case vec.vec ha _ _ hb => exact h _ _ _ _ _ ha hb hr
  case record.record hfs _ _ hgs => exact hkeyed (fun f : Field => f.label.id) Field.type hfs hgs hr
  case variant.variant hfs _ _ hgs => exact hkeyed (fun f : Field => f.label.id) Field.type hfs hgs hr
  case func.func f f' ha hres hmodes g g' ha' hres' hmodes' =>
    simp only [TypeNode.same] at hr ⊢
    rw [← hmodes, ← hmodes']
    split at hr
    · next heq =>
      rw [if_pos heq]
      simp only [Except.bind_eq_ok] at hr ⊢
      obtain ⟨args, hargs, hr⟩ := hr
      refine ⟨args, allPairs_mirrors h ha ha' hargs, ?_⟩
      split at hr
      · next htrue => rw [if_pos htrue, allPairs_mirrors h hres hres' hr]
      · next hfalse => rwa [if_neg hfalse]
    · next hne => rwa [if_neg hne]
  case service.service hms _ _ hks => exact hkeyed Method.name Method.type hms hks hr

/-- Two nodes and their mirror images: the same name on one side is the same name on the other. -/
theorem sameName_mirrors {n n' m m' : TypeNode} (hn : n.Mirrors R n') (hm : m.Mirrors R m') :
    n.kind = .var ∧ n = m ↔ n'.kind = .var ∧ n' = m' := by
  cases hn with
  | alike hn => exact iff_of_false (fun h => hn.kind_ne_var h.1) fun h => hn.symm.kind_ne_var h.1
  | var name =>
    cases hm with
    | alike hm =>
      refine iff_of_false (fun h => hm.kind_ne_var ?_) fun h => hm.symm.kind_ne_var ?_
      · exact h.2 ▸ h.1
      · exact h.2 ▸ h.1
    | var other => exact Iff.rfl

theorem Mirrors.sameWithin (h : Mirrors R w w') : ∀ (levels : Nat) (a b c d : TypeId) (result : Bool),
    R a b → R c d → w.env.sameWithin w.store levels a c = .ok result →
      w'.env.sameWithin w'.store levels b d = .ok result
  | 0, a, b, c, d, result, hab, hcd, hr => by
    simp only [Env.sameWithin, Except.ok.injEq] at hr ⊢
    rw [← hr]
    exact decide_eq_decide.mpr (h.same a b c d hab hcd).symm
  | levels + 1, a, b, c, d, result, hab, hcd, hr => by
    unfold Env.sameWithin at hr ⊢
    split at hr
    · next heq => rwa [if_pos ((h.same a b c d hab hcd).mp heq)]
    next hne =>
    rw [if_neg fun heq => hne ((h.same a b c d hab hcd).mpr heq)]
    simp only [Except.bind_eq_ok] at hr ⊢
    obtain ⟨n, hn, m, hm, hr⟩ := hr
    obtain ⟨n', hn', hnode⟩ := h.typeAt a b n hab hn
    obtain ⟨m', hm', hmode⟩ := h.typeAt c d m hcd hm
    refine ⟨n', hn', m', hm', ?_⟩
    split at hr
    · next hvar => rwa [if_pos ((sameName_mirrors hnode hmode).mp hvar)]
    next hvar =>
    rw [if_neg fun hvar' => hvar ((sameName_mirrors hnode hmode).mpr hvar')]
    simp only [Except.bind_eq_ok] at hr ⊢
    obtain ⟨r, hfollow, q, hq, hr⟩ := hr
    obtain ⟨r', hfollow', hrr⟩ := h.follow a b r hab hfollow
    obtain ⟨q', hq', hqq⟩ := h.follow c d q hcd hq
    refine ⟨r', hfollow', q', hq', ?_⟩
    split at hr
    · next heq => rwa [if_pos ((h.same r r' q q' hrr hqq).mp heq)]
    next hne =>
    rw [if_neg fun heq => hne ((h.same r r' q q' hrr hqq).mpr heq)]
    simp only [Except.bind_eq_ok] at hr ⊢
    obtain ⟨k, hk, l, hl, hr⟩ := hr
    obtain ⟨n1, hs1⟩ := StandsFor.of_follow hfollow
    obtain ⟨n2, hs2⟩ := StandsFor.of_follow hq
    obtain rfl : n1 = k := Except.ok.inj (hs1.node.symm.trans hk)
    obtain rfl : n2 = l := Except.ok.inj (hs2.node.symm.trans hl)
    obtain ⟨_, k', hs1', -, hkk⟩ := h.standsFor hab hs1
    obtain ⟨_, l', hs2', -, hll⟩ := h.standsFor hcd hs2
    obtain rfl := Except.ok.inj (hfollow'.symm.trans hs1'.follow)
    obtain rfl := Except.ok.inj (hq'.symm.trans hs2'.follow)
    exact ⟨k', hs1'.node, l', hs2'.node, same_mirrors (fun a b c d r hab hcd =>
      h.sameWithin levels a b c d r hab hcd) hkk hll hr⟩

/-! ### What the comparison gives up on -/

theorem allM_fault {α : Type} {test : α → Except Fault Bool} {e : Fault}
    (h : ∀ x e, test x = .error e → e = .invalid) : ∀ {xs : List α},
    xs.allM test = .error e → e = .invalid
  | [], hr => by simp at hr
  | x :: xs, hr => by
    simp only [List.allM, Except.bind_eq_error] at hr
    rcases hr with hr | ⟨first, -, hr⟩
    · exact h x e hr
    · cases first with
      | false => exact absurd hr (by simp)
      | true => exact allM_fault h hr

theorem allPairs_fault {α β : Type} {test : α → β → Except Fault Bool} {e : Fault}
    (h : ∀ x y e, test x y = .error e → e = .invalid) {xs : List α} {ys : List β}
    (hr : allPairs test xs ys = .error e) : e = .invalid := by
  unfold allPairs at hr
  split at hr
  · exact allM_fault (fun (x, y) => h x y) hr
  · exact absurd hr (by simp)

theorem same_fault {test : TypeId → TypeId → Except Fault Bool} {e : Fault}
    (h : ∀ a b e, test a b = .error e → e = .invalid) {n m : TypeNode}
    (hr : n.same test m = .error e) : e = .invalid := by
  have hkeyed : ∀ {α κ : Type} [DecidableEq κ] (key : α → κ) (type : α → TypeId) {xs ys : List α},
      allPairs (fun x y => if key x = key y then test (type x) (type y) else .ok false) xs ys =
        .error e → e = .invalid := by
    intro α κ _ key type xs ys
    refine allPairs_fault fun x y e hxy => ?_
    split at hxy
    · exact h _ _ _ hxy
    · exact absurd hxy (by simp)
  unfold TypeNode.same at hr
  split at hr
  · exact h _ _ _ hr
  · exact h _ _ _ hr
  · exact hkeyed (fun f : Field => f.label.id) Field.type hr
  · exact hkeyed (fun f : Field => f.label.id) Field.type hr
  · split at hr
    · simp only [Except.bind_eq_error] at hr
      rcases hr with hr | ⟨args, -, hr⟩
      · exact allPairs_fault h hr
      · split at hr
        · exact allPairs_fault h hr
        · exact absurd hr (by simp)
    · exact absurd hr (by simp)
  · exact hkeyed Method.name Method.type hr
  · exact absurd hr (by simp)
  · exact absurd hr (by simp)

/-- Types that cannot be compared are not well formed, which is all that is said of them. -/
theorem sameWithin_fault {env : Env} {s : Store} : ∀ (levels : Nat) (a b : TypeId) (e : Fault),
    env.sameWithin s levels a b = .error e → e = .invalid
  | 0, _, _, _, hr => by simp [Env.sameWithin] at hr
  | levels + 1, a, b, e, hr => by
    unfold Env.sameWithin at hr
    split at hr
    · exact absurd hr (by simp)
    simp only [Except.bind_eq_error] at hr
    rcases hr with hr | ⟨n, -, hr | ⟨m, -, hr⟩⟩
    · exact typeAt_fault hr
    · exact typeAt_fault hr
    split at hr
    · exact absurd hr (by simp)
    simp only [Except.bind_eq_error] at hr
    rcases hr with hr | ⟨r, -, hr | ⟨q, -, hr⟩⟩
    · exact follow_fault hr
    · exact follow_fault hr
    split at hr
    · exact absurd hr (by simp)
    simp only [Except.bind_eq_error] at hr
    rcases hr with hr | ⟨k, -, hr | ⟨l, -, hr⟩⟩
    · exact typeAt_fault hr
    · exact typeAt_fault hr
    · exact same_fault (sameWithin_fault levels) hr

/-! ### Twins -/

/-- Two scopes with the same names, whose related handles are alike or name nothing in either. -/
structure Twin (R : TypeId → TypeId → Prop) (w w' : Scope) : Prop where
  env : w'.env = w.env
  node : ∀ a b, R a b →
    (∃ n m, w.store.typeAt a = .ok n ∧ w'.store.typeAt b = .ok m ∧ n.Mirrors R m) ∨
      w.store.typeAt a = .error .invalid ∧ w'.store.typeAt b = .error .invalid
  bound : ∀ a b name u, R a b → w.store.typeAt a = .ok (.var name) →
    w.env.find? name = some u → R u u
  same : ∀ a b c d, R a b → R c d → (a = c ↔ b = d)

namespace Twin

theorem typeAt {n : TypeNode} (h : Twin R w w') (hab : R a b) (hn : w.store.typeAt a = .ok n) :
    ∃ m, w'.store.typeAt b = .ok m ∧ n.Mirrors R m := by
  rcases h.node a b hab with ⟨n', m, hn', hm, hnode⟩ | ⟨hnone, -⟩
  · obtain rfl := Except.ok.inj (hn.symm.trans hn')
    exact ⟨m, hm, hnode⟩
  · exact absurd (hn.symm.trans hnone) (by simp)

theorem symm (h : Twin R w w') : Twin (flip R) w' w where
  env := h.env.symm
  node b a hab := by
    rcases h.node a b hab with ⟨n, m, hn, hm, hnode⟩ | ⟨hn, hm⟩
    · exact .inl ⟨m, n, hm, hn, hnode.symm⟩
    · exact .inr ⟨hm, hn⟩
  bound b a name u hab hb hu := by
    rcases h.node a b hab with ⟨n, m, hn, hm, hnode⟩ | ⟨-, hm⟩
    · obtain rfl := Except.ok.inj (hb.symm.trans hm)
      cases hnode with
      | alike hnode => exact absurd rfl hnode.symm.kind_ne_var
      | var => exact h.bound a b name u hab hn (h.env ▸ hu)
    · exact absurd (hb.symm.trans hm) (by simp)
  same a b c d hab hcd := (h.same b a d c hab hcd).symm

theorem followWithin (h : Twin R w w') : ∀ {hops : Nat} {a b r : TypeId}, R a b →
    w.env.followWithin w.store hops a = .ok r →
      ∃ r', w'.env.followWithin w'.store hops b = .ok r' ∧ R r r'
  | 0, _, _, _, _, hr => by simp [Env.followWithin] at hr
  | hops + 1, a, b, r, hab, hr => by
    simp only [Env.followWithin, Except.bind_eq_ok] at hr ⊢
    obtain ⟨n, hn, hr⟩ := hr
    obtain ⟨m, hm, hnode⟩ := h.typeAt hab hn
    cases hnode with
    | var name =>
      cases hu : w.env.find? name with
      | none => simp [hu] at hr
      | some u =>
        simp only [hu] at hr
        obtain ⟨r', hr', hrr⟩ := h.followWithin (h.bound a b name u hab hn hu) hr
        refine ⟨r', ⟨.var name, hm, ?_⟩, hrr⟩
        simp only [h.env, hu]
        rwa [h.env] at hr'
    | alike hnode =>
      refine ⟨b, ⟨m, hm, ?_⟩, ?_⟩
      · cases hnode <;> rfl
      · cases hnode <;> exact Except.pure_eq_ok.mp hr ▸ hab

theorem mirrors (h : Twin R w w') : Mirrors R w w' where
  typeAt _ _ _ := h.typeAt
  follow a b r hab hr := by
    obtain ⟨r', hr', hrr⟩ := h.followWithin hab hr
    refine ⟨r', ?_, hrr⟩
    rw [Env.follow, h.env]
    rwa [h.env] at hr'
  same := h.same

/-- Scopes in which the related handles name what they did. -/
theorem still {w1 w1' : Scope} (h : Twin R w w') (henv : w1.env = w.env) (henv' : w1'.env = w'.env)
    (hstill : ∀ a b, R a b →
      w1.store.typeAt a = w.store.typeAt a ∧ w1'.store.typeAt b = w'.store.typeAt b) :
    Twin R w1 w1' where
  env := by rw [henv, henv', h.env]
  node a b hab := by
    obtain ⟨ha, hb⟩ := hstill a b hab
    rw [ha, hb]
    exact h.node a b hab
  bound a b name u hab ha hu := by
    rw [(hstill a b hab).1] at ha
    rw [henv] at hu
    exact h.bound a b name u hab ha hu
  same := h.same

/-- Scopes that agree on a set of handles which the parts and names of its nodes do not leave. -/
theorem of_closed {Q : TypeId → Prop} (henv : w'.env = w.env)
    (hsame : ∀ a, Q a → w'.store.typeAt a = w.store.typeAt a)
    (hparts : ∀ a n c, Q a → w.store.typeAt a = .ok n → c ∈ TypeTable.parts n → Q c)
    (hbound : ∀ a name u, Q a → w.store.typeAt a = .ok (.var name) → w.env.find? name = some u → Q u) :
    Twin (fun a b => a = b ∧ Q a) w w' where
  env := henv
  node a b := by
    rintro ⟨rfl, ha⟩
    rw [hsame a ha]
    cases hn : w.store.typeAt a with
    | error e =>
      obtain rfl := typeAt_fault hn
      exact .inr ⟨rfl, rfl⟩
    | ok n => exact .inl ⟨n, n, rfl, rfl, .self fun c hc => ⟨rfl, hparts a n c ha hn hc⟩⟩
  bound a b name u hab ha hu := ⟨rfl, hbound a name u hab.2 ha hu⟩
  same a b c d hab hcd := by rw [hab.1, hcd.1]

theorem refl (w : Scope) : Twin (· = ·) w w := by
  have h : Twin (fun a b => a = b ∧ True) w w :=
    of_closed rfl (fun _ _ => rfl) (fun _ _ _ _ _ _ => trivial) fun _ _ _ _ _ _ => trivial
  simpa using h

/-- Two more handles, at which nodes lie that are alike. -/
theorem pair {n m : TypeNode} (h : Twin R w w') (hc : w.store.typeAt c = .ok n)
    (hd : w'.store.typeAt d = .ok m) (hn : n.Alike R m) (hnew : ∀ a b, R a b → a ≠ c ∧ b ≠ d) :
    Twin (fun a b => R a b ∨ a = c ∧ b = d) w w' where
  env := h.env
  node a b hab := by
    rcases hab with hab | ⟨rfl, rfl⟩
    · refine (h.node a b hab).imp ?_ id
      rintro ⟨n, m, hn, hm, hnode⟩
      exact ⟨n, m, hn, hm, hnode.mono fun _ _ => .inl⟩
    · exact .inl ⟨n, m, hc, hd, .alike (hn.mono fun _ _ => .inl)⟩
  bound a b name u hab ha hu := by
    rcases hab with hab | ⟨rfl, rfl⟩
    · exact .inl (h.bound a b name u hab ha hu)
    · obtain rfl := Except.ok.inj (ha.symm.trans hc)
      exact absurd rfl hn.kind_ne_var
  same a b a' b' hab hab' := by
    rcases hab with hab | ⟨rfl, rfl⟩ <;> rcases hab' with hab' | ⟨rfl, rfl⟩
    · exact h.same a b a' b' hab hab'
    · exact iff_of_false (hnew a b hab).1 (hnew a b hab).2
    · exact iff_of_false (hnew a' b' hab').1.symm (hnew a' b' hab').2.symm
    · exact iff_of_true rfl rfl

end Twin

end Scope

end TypedWire
