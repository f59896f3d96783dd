import TypedWire.Value.Write
import TypedWire.Proofs.Value.Equal

/-! Values that are equal, each in its store, are alike in all that can be seen of them: they denote the same
    tree, and are written as the same bytes, or refused for the same cause after the same bytes. -/

namespace TypedWire

variable {a b c : Store} {p q : Span} {x y z : ValueId} {vx vy : Value} {m : Mark} {t : ValueTree}
variable {j k : Nat}

/-! ### Writing -/

theorem Store.textAt_congr (h : a.bytesAt p = b.bytesAt q) : a.textAt p = b.textAt q := by
  rw [textAt, textAt, h]

namespace Output

theorem forM_congr₂ {α β : Type} {f : α → Action Output Unit} {g : β → Action Output Unit} {us : List α}
    {vs : List β} (h : List.Forall₂ (fun u v => f u = g v) us vs) : us.forM f = vs.forM g := by
  induction h with
  | nil => rfl
  | @cons u v us vs huv _ ih =>
    change (do f u; us.forM f) = (do g v; vs.forM g)
    rw [huv, ih]

/-- Two nodes that say the same are written alike, if their parts are. -/
theorem node_alike (hx : a.valueAt x = .ok vx) (hy : b.valueAt y = .ok vy) (hm : a.Marks vx m)
    (hn : b.Marks vy m)
    (hparts : List.Forall₂ (fun u v => valueWithin a j u = valueWithin b k v) vx.parts vy.parts) :
    valueWithin a (j + 1) x = valueWithin b (k + 1) y := by
  have hopen : ∀ (v : Value) (f : Value → Action Output Unit),
      (do f (← Action.ofExcept (.ok v))) = f v := fun _ _ => rfl
  rw [valueWithin, valueWithin, hx, hy, hopen, hopen]
  cases hm with
  | null | reserved | bool _ | fixed _ | none =>
    cases hn
    rfl
  | nat hp =>
    cases hn with
    | nat hq => simp only [hp, hq]
  | int hp =>
    cases hn with
    | int hq => simp only [hp, hq]
  | text hp =>
    cases hn with
    | text hq => simp only [Store.textAt_congr (hp.trans hq.symm)]
  | blob hp =>
    cases hn with
    | blob hq => simp only [hp, hq]
  | principal hp =>
    cases hn with
    | principal hq => simp only [hp, hq]
  | service hp =>
    cases hn with
    | service hq => simp only [hp, hq]
  | func hp hr =>
    cases hn with
    | func hq ht => simp only [hp, hq, Store.textAt_congr (hr.trans ht.symm)]
  | some u =>
    cases hn with
    | some v =>
      have hinner : valueWithin a j u = valueWithin b k v := (List.forall₂_cons.mp hparts).1
      simp only [hinner]
  | vec us =>
    cases hn with
    | vec vs =>
      have hitems : us.forM (valueWithin a j) = vs.forM (valueWithin b k) := forM_congr₂ hparts
      have hlength : us.length = vs.length := hparts.length_eq
      simp only [hitems, hlength]
  | @record fs ids hids =>
    cases hn with
    | @record gs ids' hids' =>
      have hfields : List.Forall₂ (fun f g => valueWithin a j f.value = valueWithin b k g.value) fs gs :=
        List.forall₂_map_left_iff.mp (List.forall₂_map_right_iff.mp hparts)
      exact forM_congr₂ hfields
  | @variant i f id hid =>
    cases hn with
    | @variant i g id hid' =>
      have hfield : valueWithin a j f.value = valueWithin b k g.value := (List.forall₂_cons.mp hparts).1
      simp only [hfield]

theorem valueWithin_alike (hj : a.Nests j x) (hk : b.Nests k y) (hx : a.Denotes x t)
    (hy : b.Denotes y t) : valueWithin a j x = valueWithin b k y := by
  induction j generalizing k x y t with
  | zero => exact hj.elim
  | succ j ih =>
    cases k with
    | zero => exact hk.elim
    | succ k =>
      obtain ⟨_, hx', hus⟩ := hj
      obtain ⟨_, hy', hvs⟩ := hk
      obtain ⟨hx, hm, hts⟩ := hx
      obtain ⟨hy, hn, hts'⟩ := hy
      obtain rfl := Except.ok.inj (hx.symm.trans hx')
      obtain rfl := Except.ok.inj (hy.symm.trans hy')
      have hleft := (List.forall₂_and_left _ _).mpr ⟨hus, hts⟩
      have hright := (List.forall₂_and_left _ _).mpr ⟨hvs, hts'⟩
      refine node_alike hx hy hm hn (forall₂_comp ?_ hleft hright.flip)
      intro u t v hu hv
      exact ih hu.1 hv.1 hu.2 hv.2

/-- Values that denote the same tree are written alike: as the same bytes, or refused for the same cause
    after the same bytes. -/
theorem value_alike (h : a.Alike x b y) : value a x = value b y := by
  obtain ⟨t, hx, hy⟩ := h
  obtain ⟨j, hj⟩ := hx.nests
  obtain ⟨k, hk⟩ := hy.nests
  exact valueWithin_alike (hj.bounded.le a.values.size.le_succ) (hk.bounded.le b.values.size.le_succ) hx hy

end Output

/-! ### Equal values -/

namespace Store

theorem Alike.symm (h : a.Alike x b y) : b.Alike y a x := by
  obtain ⟨t, hx, hy⟩ := h
  exact ⟨t, hy, hx⟩

theorem Alike.trans (h : a.Alike x b y) (h' : b.Alike y c z) : a.Alike x c z := by
  obtain ⟨t, hx, hy⟩ := h
  obtain ⟨t', hy', hz⟩ := h'
  exact ⟨t, hx, hy.functional hy' ▸ hz⟩

theorem Whole.answers (hx : a.Whole x) (hy : b.Whole y) : Answers (equal a x b y) (a.Alike x b y) := by
  obtain ⟨t, ht⟩ := whole_iff.mp hx
  obtain ⟨u, hu⟩ := whole_iff.mp hy
  exact answers_equal ht hu

/-- A value without a circle whose payloads can be read denotes one tree. Of two such values, each in its
    store, the comparison says whether the tree is the same; so it is reflexive, symmetric and transitive
    across stores. Values that are equal are written as the same bytes, or refused for the same cause after
    the same bytes. -/
theorem equal_decides (hx : a.Whole x) (hy : b.Whole y) (hz : c.Whole z) :
    (∃! t, a.Denotes x t) ∧
      (∃ same, equal a x b y = .ok same ∧ (same = true ↔ ∃ t, a.Denotes x t ∧ b.Denotes y t)) ∧
      equal a x a x = .ok true ∧
      equal a x b y = equal b y a x ∧
      (equal a x b y = .ok true → equal b y c z = .ok true → equal a x c z = .ok true) ∧
      (equal a x b y = .ok true → Output.value a x = Output.value b y) := by
  obtain ⟨t, ht⟩ := whole_iff.mp hx
  refine ⟨hx.existsUnique, hx.answers hy, ?_, ?_, fun hxy hyz => ?_, fun hxy => ?_⟩
  · exact (hx.answers hx).iff.mpr ⟨t, ht, ht⟩
  · exact (hx.answers hy).unique ((hy.answers hx).congr ⟨Alike.symm, Alike.symm⟩)
  · have hboth := ((hx.answers hy).iff.mp hxy).trans ((hy.answers hz).iff.mp hyz)
    exact (hx.answers hz).iff.mpr hboth
  · exact Output.value_alike ((hx.answers hy).iff.mp hxy)

/-- A record of a text that is no UTF-8 and of an empty `opt`, behind `n` other nodes and `n` other bytes. -/
def behind (n : Nat) : Store where
  values := Array.replicate n .null ++
    #[.text ⟨0, n, 1⟩, .opt (some ⟨n⟩), .opt none, .record [⟨.bare 0, ⟨n + 1⟩⟩, ⟨.bare 1, ⟨n + 2⟩⟩]]
  blocks := #[⟨64, Array.replicate n 0 ++ #[0xff]⟩]

theorem denotes_behind (n : Nat) : (behind n).Denotes ⟨n + 3⟩
    (.node (.record [0, 1]) [.node (.opt true) [.node (.text [0xff]) []], .node (.opt false) []]) := by
  have htext : (behind n).valueAt ⟨n⟩ = .ok (.text ⟨0, n, 1⟩) := by simp [behind, valueAt]
  have hsome : (behind n).valueAt ⟨n + 1⟩ = .ok (.opt (some ⟨n⟩)) := by simp [behind, valueAt]
  have hnone : (behind n).valueAt ⟨n + 2⟩ = .ok (.opt none) := by simp [behind, valueAt]
  have hrecord : (behind n).valueAt ⟨n + 3⟩ =
      .ok (.record [⟨.bare 0, ⟨n + 1⟩⟩, ⟨.bare 1, ⟨n + 2⟩⟩]) := by simp [behind, valueAt]
  have hbytes : (behind n).bytesAt ⟨0, n, 1⟩ = .ok [0xff] := by simp [behind, bytesAt]
  refine .node hrecord (.record rfl) (.cons (.node hsome (.some _) (.cons ?_ .nil)) (.cons ?_ .nil))
  · exact .node htext (.text hbytes) .nil
  · exact .node hnone .none .nil

theorem behind_equal : (behind 0).Whole ⟨3⟩ ∧ (behind 1).Whole ⟨4⟩ ∧ (behind 2).Whole ⟨5⟩ ∧
    equal (behind 0) ⟨3⟩ (behind 1) ⟨4⟩ = .ok true ∧ equal (behind 0) ⟨3⟩ (behind 2) ⟨5⟩ = .ok true ∧
    Output.value (behind 0) ⟨3⟩ = Output.value (behind 1) ⟨4⟩ := by
  have hwhole : ∀ n, (behind n).Whole ⟨n + 3⟩ := fun n => whole_iff.mpr ⟨_, denotes_behind n⟩
  obtain ⟨-, -, -, -, htrans, hwrite⟩ := equal_decides (hwhole 0) (hwhole 1) (hwhole 2)
  have h01 : equal (behind 0) ⟨3⟩ (behind 1) ⟨4⟩ = .ok true := by decide
  have h12 : equal (behind 1) ⟨4⟩ (behind 2) ⟨5⟩ = .ok true := by decide
  exact ⟨hwhole 0, hwhole 1, hwhole 2, h01, htrans h01 h12, hwrite h01⟩

end Store

end TypedWire
