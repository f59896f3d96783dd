import TypedWire.Proofs.Schema.Exact

/-! When a positive verdict can be relied on. A check that is refused gives its own assumption up, but
    not what was assumed and accepted on its account, and under an `opt` the check then goes on. So
    pairs may be left that nothing justifies any more, and a later answer may rest on them. A verdict
    is right exactly if it follows from pairs left in the end that justify each other. -/

namespace TypedWire

namespace Scope

variable {w : Scope} {how : OptRule} {P Q : TypeId → TypeId → Prop}
variable {t1 t2 r1 r2 : TypeId} {n1 n2 : TypeNode} {f1 f2 : List Field} 

/-- Where numbers and names are distinct, a rule needs the same parts whatever relates them. -/
theorem Rule.and (hd1 : n1.Distinct) (hd2 : n2.Distinct) (hp : w.Rule .lenient P r1 n1 n2)
    (hq : w.Rule .lenient Q r1 n1 n2) :
    w.Rule .lenient (fun a b => P a b ∧ Q a b) r1 n1 n2 := by
  cases hp with
  | reserved => exact .reserved _
  | empty => exact .empty _
  | widen => exact .widen
  | primitive => exact .primitive _
  | vec hp =>
    cases hq with
    | vec hq => exact .vec ⟨hp, hq⟩
  | null | opt | lift | special => exact .special rfl
  | record hp =>
    cases hq with
    | record hq =>
      refine .record fun want hw => ?_
      rcases hp want hw with ⟨a, ha, hida, hpa⟩ | hnone
      · rcases hq want hw with ⟨b, hb, hidb, hqb⟩ | ⟨-, hnone⟩
        · obtain rfl := List.inj_on_of_nodup_map hd1 ha hb (hida.trans hidb.symm)
          exact .inl ⟨a, ha, hida, hpa, hqb⟩
        · exact absurd hida (hnone a ha)
      · exact .inr hnone
  | variant hp =>
    cases hq with
    | variant hq =>
      refine .variant fun have1 hm => ?_
      obtain ⟨a, ha, hida, hpa⟩ := hp have1 hm
      obtain ⟨b, hb, hidb, hqb⟩ := hq have1 hm
      obtain rfl := List.inj_on_of_nodup_map hd2 ha hb (hida.trans hidb.symm)
      exact ⟨a, ha, hida, hpa, hqb⟩
  | func hpa hpr hm =>
    cases hq with
    | func hqa hqr _ =>
      refine .func (Subtype.forall₂_iff_zip.mpr ⟨hpa.length_eq, fun p hp => ⟨?_, ?_⟩⟩)
        (Subtype.forall₂_iff_zip.mpr ⟨hpr.length_eq, fun p hp => ⟨?_, ?_⟩⟩) hm
      · exact (Subtype.forall₂_iff_zip.mp hpa).2 p hp
      · exact (Subtype.forall₂_iff_zip.mp hqa).2 p hp
      · exact (Subtype.forall₂_iff_zip.mp hpr).2 p hp
      · exact (Subtype.forall₂_iff_zip.mp hqr).2 p hp
  | service hp =>
    cases hq with
    | service hq =>
      refine .service fun want hw => ?_
      obtain ⟨a, ha, hna, hpa⟩ := hp want hw
      obtain ⟨b, hb, hnb, hqb⟩ := hq want hw
      obtain rfl := List.inj_on_of_nodup_map hd1 ha hb (hna.trans hnb.symm)
      exact ⟨a, ha, hna, hpa, hqb⟩

/-- In records of which one fits the other, fields with the same number do. -/
theorem Fits.field (have1 want : Field) (h : w.Fits how t1 t2) (h1 : w.StandsFor t1 r1 (.record f1))
    (h2 : w.StandsFor t2 r2 (.record f2)) (hd1 : (TypeNode.record f1).Distinct) (hm : have1 ∈ f1)
    (hw : want ∈ f2) (hid : have1.label.id = want.label.id) :
    w.Fits how have1.type want.type := by
  rcases h.unfold with rfl | ⟨r, n, r', n', h1', h2', hrule⟩
  · obtain rfl : f1 = f2 := by simpa using h1.node_eq h2
    obtain rfl := List.inj_on_of_nodup_map hd1 hm hw hid
    exact ⟨Eq, fun _ _ => .inl, rfl⟩
  · obtain rfl := h1.node_eq h1'
    obtain rfl := h2.node_eq h2'
    cases hrule with
    | record hall =>
      rcases hall want hw with ⟨a, ha, hida, hsub⟩ | ⟨-, hnone⟩
      · obtain rfl := List.inj_on_of_nodup_map hd1 ha hm (hida.trans hid.symm)
        exact hsub
      · exact absurd hid (hnone have1 hm)

end Scope

namespace Subtype

variable {w : Scope} {cx : Context} {s s' : State} {v : Verdict} {depth : Nat}
variable {t1 t2 r1 r2 : TypeId} {n1 n2 : TypeNode}

/-! ### What fits stays justified -/

/-- The pairs of types that fit by the lenient rules. -/
abbrev Right (w : Scope) : TypeId → TypeId → Prop := w.Fits .lenient

theorem right_nodes
    (ih : ∀ t1 t2 s v s', cx.scope.Distinct t1 → cx.scope.Distinct t2 →
      fits cx depth t1 t2 s = .ok v s' → Supports cx.scope .lenient (Right cx.scope) s s' v t1 t2)
    (hd1 : cx.scope.Distinct r1) (hd2 : cx.scope.Distinct r2)
    (h1 : cx.scope.StandsFor r1 r1 n1) (h2 : cx.scope.StandsFor r2 r2 n2) (hne : r1 ≠ r2)
    (h : fitsNodes cx (fits cx depth) r1 n1 r2 n2 s = .ok v s') :
    Kept cx.scope .lenient (Right cx.scope) s s' ∧ (v.Grants .lenient → Right cx.scope r1 r2 →
      cx.scope.Rule .lenient (cx.scope.Derives .lenient (s'.Among (Right cx.scope))) r1 n1 n2) := by
  obtain ⟨calls, hcs, ho, -⟩ := fitsNodes_outcome h1 h
  obtain ⟨hkept, hder⟩ := hcs.supports .lenient (I := fun _ => True) (w := cx.scope)
    (K := Right cx.scope) (fun _ _ _ => id) (fun _ _ _ _ _ _ _ => trivial) trivial
    fun c hc s s' _ hrun => by
      obtain ⟨hl, hr⟩ := ho.parts c hc
      exact ih _ _ _ _ _ (hl.distinct hd1 hd2 h1 h2) (hr.distinct hd1 hd2 h1 h2) hrun
  refine ⟨hkept, fun hg hright => ?_⟩
  rcases hright.unfold with rfl | ⟨m1, k1, m2, k2, hm1, hm2, hrule⟩
  · exact absurd rfl hne
  obtain rfl := h1.root_eq hm1
  obtain rfl := h1.node_eq hm1
  obtain rfl := h2.node_eq hm2
  refine ((ho.grants .lenient hg).and (hd1.node h1) (hd2.node h2) hrule).mono ?_
  rintro a b ⟨⟨u, hu, hc⟩, hab⟩
  exact hder _ hc hu hab

theorem right_support (hp : cx.policy ≠ .error) : ∀ (depth : Nat) (t1 t2 : TypeId) (s : State)
    (v : Verdict) (s' : State), cx.scope.Distinct t1 → cx.scope.Distinct t2 →
    fits cx depth t1 t2 s = .ok v s' → Supports cx.scope .lenient (Right cx.scope) s s' v t1 t2
  | depth, t1, t2, s, v, s', hd1, hd2, h => by
    rcases fits_run h with ⟨rfl, -, rfl⟩ | ⟨d, rfl, hne, ⟨n1, n2, h1, h2, hn⟩ | ⟨-, hn⟩⟩
    · exact ⟨.of_assumed rfl, fun _ _ => .same _⟩
    · obtain ⟨hkept, hrule⟩ := right_nodes (right_support hp d) hd1 hd2 h1 h2 hne hn
      exact ⟨hkept, fun hg hk => .rule ⟨_, _, _, _, h1, h2, hrule hg hk⟩ fun _ _ => id⟩
    · rcases fitsNames_run hn with
        ⟨ha, -, rfl⟩ | ⟨rfl, rfl, -⟩ | ⟨-, r1, n1, r2, n2, s1, h1, h2, hc, hend⟩
      · exact ⟨.of_assumed rfl, fun _ hk => .assumed ⟨ha, hk⟩⟩
      · exact ⟨.of_assumed rfl, fun hg => absurd hg (by simp)⟩
      · have hroots : Kept cx.scope .lenient (Right cx.scope) (s.assume t1 t2) s1 ∧
            (v.Grants .lenient → Right cx.scope r1 r2 → cx.scope.Rule .lenient
              (cx.scope.Derives .lenient (s1.Among (Right cx.scope))) r1 n1 n2) := by
          by_cases heq : r1 = r2
          · obtain rfl := heq
            rcases fits_roots_run h1.root h2.root hc with ⟨-, -, rfl⟩ | ⟨e, rfl, -⟩
            · obtain rfl := h1.root.node_eq h2.root
              exact ⟨.of_assumed rfl, fun _ _ => rule_refl .same h1⟩
            · simp only [fits, if_true, Action.pure_eq_ok] at hc
              obtain ⟨-, rfl⟩ := hc
              obtain rfl := h1.root.node_eq h2.root
              exact ⟨.of_assumed rfl, fun _ _ => rule_refl .same h1⟩
          · rcases fits_roots_run h1.root h2.root hc with ⟨rfl, -, -⟩ | ⟨e, rfl, hnodes⟩
            · exact absurd rfl heq
            · exact right_nodes (right_support hp e) (hd1.root h1) (hd2.root h2) h1.root h2.root
                heq hnodes
        rw [hend]
        exact .of_assume h1 h2 hroots.1 (fun hg hk => hroots.2 hg (hk.roots h1 h2))
          (fun hk => fits_grants cx .lenient d _ _ _ _ _ (hd1.root h1) (hd2.root h2) (fun _ => hp)
            (hk.roots h1 h2) hc) id

/-! ### Positive verdicts -/

/-- The pairs that are still assumed when a check has ended. -/
def leftover (store : Store) (env : Env) (t1 t2 : TypeId) : List (TypeId × TypeId) :=
  ((fits { store, env } defaultDepth t1 t2).outcome {}).2.assumed.pairs

theorem verdict_run {store : Store} {env : Env} (h : verdict store env t1 t2 = .ok v) :
    ∃ s', fits { store, env } defaultDepth t1 t2 {} = .ok v s' ∧
      s'.assumed.pairs = leftover store env t1 t2 := by
  simp only [verdict, leftover, Action.outcome] at h ⊢
  cases hrun : fits { store, env } defaultDepth t1 t2 {} with
  | ok u s' =>
    simp only [hrun, Except.ok.injEq] at h
    exact ⟨s', by rw [h], rfl⟩
  | error e s' =>
    simp only [hrun] at h
    exact absurd h (by simp)

/-- A plain verdict is right. Any other positive one is right if and only if the two types are
    derived from some of the leftover pairs, each of which is justified by what those pairs derive:
    an answer that rests on none but leftover pairs that do not justify each other is wrong. -/
theorem fits_iff_leftover (store : Store) (env : Env) (t1 t2 : TypeId) (v : Verdict)
    (hd1 : Scope.Distinct ⟨store, env⟩ t1) (hd2 : Scope.Distinct ⟨store, env⟩ t2)
    (h : verdict store env t1 t2 = .ok v) :
    (v = .ok → Scope.Fits ⟨store, env⟩ .lenient t1 t2) ∧
    (Scope.Fits ⟨store, env⟩ .lenient t1 t2 ↔ v.holds = true ∧
      ∃ good : TypeId → TypeId → Prop,
        (∀ a b, good a b → (a, b) ∈ leftover store env t1 t2 ∧
          Scope.Justified ⟨store, env⟩ .lenient (Scope.Derives ⟨store, env⟩ .lenient good) a b) ∧
        Scope.Derives ⟨store, env⟩ .lenient good t1 t2) := by
  obtain ⟨s', hrun, hleft⟩ := verdict_run h
  have hnone : ∀ a b, ¬ ({} : State).Assumes a b := by simp [State.Assumes]
  have hpol : ({ store, env } : Context).policy ≠ .error := by simp
  refine ⟨fun hv => ((fits_ok { store, env } rfl hd1 hd2 hrun).mp hv).lenient, fun hf => ?_, ?_⟩
  · have hg := fits_grants { store, env } .lenient _ _ _ _ _ _ hd1 hd2 (fun _ => hpol) hf hrun
    obtain ⟨hkept, hder⟩ := right_support hpol _ _ _ _ _ _ hd1 hd2 hrun
    refine ⟨Verdict.holds_iff.mpr hg, s'.Among (Right ⟨store, env⟩), fun a b hab => ⟨?_, ?_⟩,
      hder hg hf⟩
    · exact hleft ▸ hab.1
    · exact hkept.rests a b hab.2 hab.1 (hnone a b)
  · rintro ⟨-, good, hgood, hder⟩
    exact hder.fits fun a b hab => (hgood a b hab).2

/-- A record with an `opt` whose content is not the one expected. -/
def otherContent : Store where
  types := #[.primitive .nat, .primitive .text, .opt ⟨0⟩, .opt ⟨1⟩, .record [⟨.bare 0, ⟨2⟩⟩],
    .record [⟨.bare 0, ⟨3⟩⟩]]

theorem otherContent_fits :
    (∀ t, Scope.Distinct ⟨otherContent, {}⟩ t) ∧
    verdict otherContent {} ⟨4⟩ ⟨5⟩ = .ok .optSpecial ∧
    Scope.Fits ⟨otherContent, {}⟩ .lenient ⟨4⟩ ⟨5⟩ := by
  have hd : ∀ t, Scope.Distinct ⟨otherContent, {}⟩ t := .of_store (by decide)
  have hrun : verdict otherContent {} ⟨4⟩ ⟨5⟩ = .ok .optSpecial := rfl
  refine ⟨hd, hrun, (fits_iff_leftover otherContent {} ⟨4⟩ ⟨5⟩ _ (hd _) (hd _) hrun).2.mpr
    ⟨rfl, fun _ _ => False, fun _ _ => False.elim, ?_⟩⟩
  have hrecords : Scope.Justified ⟨otherContent, {}⟩ .lenient (fun a b => a = ⟨2⟩ ∧ b = ⟨3⟩) ⟨4⟩ ⟨5⟩ :=
    ⟨⟨4⟩, _, ⟨5⟩, _, ⟨rfl, rfl⟩, ⟨rfl, rfl⟩, .record (by simp)⟩
  have hopts : Scope.Justified ⟨otherContent, {}⟩ .lenient (fun _ _ => False) ⟨2⟩ ⟨3⟩ :=
    ⟨⟨2⟩, _, ⟨3⟩, _, ⟨rfl, rfl⟩, ⟨rfl, rfl⟩, .special rfl⟩
  refine .rule hrecords ?_
  rintro a b ⟨rfl, rfl⟩
  exact .rule hopts fun _ _ => False.elim

/-- Two pairs of records that name each other, of which one fits nothing that the other does: the
    number in `a` is no text. -/
def crossed : Store where
  types := #[.var "a", .var "b", .var "c", .var "d",
    .record [⟨.bare 0, ⟨2⟩⟩, ⟨.bare 1, ⟨8⟩⟩], .record [⟨.bare 0, ⟨3⟩⟩, ⟨.bare 1, ⟨9⟩⟩],
    .record [⟨.bare 0, ⟨0⟩⟩], .record [⟨.bare 0, ⟨1⟩⟩], .primitive .nat, .primitive .text,
    .opt ⟨0⟩, .opt ⟨1⟩, .record [⟨.bare 0, ⟨10⟩⟩, ⟨.bare 1, ⟨2⟩⟩],
    .record [⟨.bare 0, ⟨11⟩⟩, ⟨.bare 1, ⟨3⟩⟩]]

/-- What the names stand for. -/
def crossedNames : Env := ⟨[("a", ⟨4⟩), ("b", ⟨5⟩), ("c", ⟨6⟩), ("d", ⟨7⟩)]⟩

/-- The check of `c` against `d` under the `opt` is accepted on account of `a` against `b`, which is
    refused in the end; `c` against `d` is left, and the second field is taken for right. -/
theorem crossed_accepted :
    verdict crossed crossedNames ⟨12⟩ ⟨13⟩ = .ok .optSpecial ∧
    ¬ Scope.Fits ⟨crossed, crossedNames⟩ .lenient ⟨12⟩ ⟨13⟩ := by
  refine ⟨rfl, fun h => ?_⟩
  have hcd : Scope.Fits ⟨crossed, crossedNames⟩ .lenient ⟨2⟩ ⟨3⟩ :=
    h.field ⟨.bare 1, ⟨2⟩⟩ ⟨.bare 1, ⟨3⟩⟩ ⟨rfl, rfl⟩ ⟨rfl, rfl⟩
      (by decide) (by decide) (by decide) rfl
  have hab : Scope.Fits ⟨crossed, crossedNames⟩ .lenient ⟨0⟩ ⟨1⟩ :=
    hcd.field ⟨.bare 0, ⟨0⟩⟩ ⟨.bare 0, ⟨1⟩⟩ ⟨rfl, rfl⟩ ⟨rfl, rfl⟩ (by decide)
      (by decide) (by decide) rfl
  have hnumber : Scope.Fits ⟨crossed, crossedNames⟩ .lenient ⟨8⟩ ⟨9⟩ :=
    hab.field ⟨.bare 1, ⟨8⟩⟩ ⟨.bare 1, ⟨9⟩⟩ ⟨rfl, rfl⟩ ⟨rfl, rfl⟩ (by decide)
      (by decide) (by decide) rfl
  rcases hnumber.unfold with heq | ⟨_, _, _, _, h1, h2, hrule⟩
  · exact absurd heq (by decide)
  · have hnat : Scope.StandsFor ⟨crossed, crossedNames⟩ ⟨8⟩ ⟨8⟩ (.primitive .nat) := ⟨rfl, rfl⟩
    have htext : Scope.StandsFor ⟨crossed, crossedNames⟩ ⟨9⟩ ⟨9⟩ (.primitive .text) := ⟨rfl, rfl⟩
    obtain rfl := h1.node_eq hnat
    obtain rfl := h2.node_eq htext
    cases hrule

end Subtype

end TypedWire
