import TypedWire.Value.Equal
import TypedWire.Proofs.Action
import TypedWire.Proofs.Value.Tree

/-! Equality of stored values. The comparison of two values, each in its store, tells whether they denote the
    same tree; so two nodes that hold the same tree, each in its store, are found equal. -/

namespace TypedWire

/-! ### Answers -/

/-- There is an answer, and it says whether `P` holds. -/
def Answers (answer : Except Fault Bool) (P : Prop) : Prop := ∃ b, answer = .ok b ∧ (b = true ↔ P)

variable {α β : Type} {answer answer' : Except Fault Bool} {P Q : Prop}

theorem Answers.congr (h : Answers answer P) (hPQ : P ↔ Q) : Answers answer Q := by rwa [← hPQ]

theorem Answers.iff (h : Answers answer P) : answer = .ok true ↔ P := by
  obtain ⟨b, rfl, hb⟩ := h
  rw [← hb, Except.ok.injEq]

/-- Two answers to one question are the same. -/
theorem Answers.unique (h : Answers answer P) (h' : Answers answer' P) : answer = answer' := by
  obtain ⟨b, rfl, hb⟩ := h
  obtain ⟨b', rfl, hb'⟩ := h'
  rw [Bool.eq_iff_iff.mpr (hb.trans hb'.symm)]

theorem answers_decide (P : Prop) [Decidable P] : Answers (.ok (decide P)) P := ⟨_, rfl, decide_eq_true_iff⟩

theorem answers_true (h : P) : Answers (.ok true) P := ⟨_, rfl, iff_of_true rfl h⟩

theorem answers_false (h : ¬ P) : Answers (.ok false) P := ⟨_, rfl, iff_of_false (by simp) h⟩

/-- The second question is asked if the first one is answered by yes. -/
theorem Answers.and (h : Answers answer P) (h' : P → Answers answer' Q) :
    Answers (do if ← answer then answer' else return false) (P ∧ Q) := by
  obtain ⟨b, rfl, hb⟩ := h
  cases b with
  | true =>
    have hP : P := hb.mp rfl
    exact (h' hP).congr (by simp [hP])
  | false => exact answers_false fun hPQ => absurd (hb.mpr hPQ.1) (by simp)

theorem Answers.ite {c : Prop} [Decidable c] (h : c → Answers answer Q) :
    Answers (if c then answer else .ok false) (c ∧ Q) := by
  split
  · next hc => exact (h hc).congr (by simp [hc])
  · next hc => exact answers_false fun hcQ => hc hcQ.1

theorem answers_allM {test : α → Except Fault Bool} {R : α → Prop} {xs : List α}
    (h : ∀ x ∈ xs, Answers (test x) (R x)) : Answers (xs.allM test) (∀ x ∈ xs, R x) := by
  induction xs with
  | nil => exact answers_true (by simp)
  | cons x xs ih =>
    rw [List.forall_mem_cons] at h
    have hboth := h.1.and fun _ => ih h.2
    rw [List.forall_mem_cons]
    obtain ⟨b, hx, hb⟩ := h.1
    rw [hx] at hboth
    simp only [List.allM, hx]
    cases b <;> exact hboth

theorem answers_allPairs {test : α → β → Except Fault Bool} {R : α → β → Prop} {xs : List α}
    {ys : List β} (h : ∀ x y, (x, y) ∈ xs.zip ys → Answers (test x y) (R x y)) :
    Answers (allPairs test xs ys) (List.Forall₂ R xs ys) := by
  rw [List.forall₂_iff_zip, allPairs]
  refine Answers.ite fun _ => (answers_allM (R := fun p => R p.1 p.2) fun p hp => h p.1 p.2 hp).congr ?_
  exact ⟨fun hall x y hxy => hall (x, y) hxy, fun hall p hp => hall hp⟩

theorem allPairs_of_forall₂ {test : α → β → Except Fault Bool} {xs : List α} {ys : List β}
    (h : List.Forall₂ (fun x y => test x y = .ok true) xs ys) : allPairs test xs ys = .ok true := by
  refine (answers_allPairs fun x y hxy => ?_).iff.mpr h
  have hyes := (List.forall₂_iff_zip.mp h).2 hxy
  exact ⟨true, hyes, iff_of_true rfl hyes⟩

namespace Store

variable {a b c : Store} {p q : Span} {x y z : ValueId} {vx vy : Value} {m n : Mark} {depth : Nat}
variable {xs ys : List UInt8}

/-- The two values denote the same tree, each in its store. -/
def Alike (a : Store) (x : ValueId) (b : Store) (y : ValueId) : Prop := ∃ t, a.Denotes x t ∧ b.Denotes y t

/-! ### One level -/

theorem answers_sameBytes (hp : a.bytesAt p = .ok xs) (hq : b.bytesAt q = .ok ys) :
    Answers (sameBytes a b p q) (xs = ys) := by
  rw [sameBytes, hp, hq]
  exact answers_decide _

theorem forall₂_fields {R : ValueId → ValueId → Prop} (fs gs : List FieldValue) :
    List.Forall₂ (fun f g => f.label.id = g.label.id ∧ R f.value g.value) fs gs ↔
      fs.map (·.label.id) = gs.map (·.label.id) ∧
        List.Forall₂ R (fs.map (·.value)) (gs.map (·.value)) := by
  induction fs generalizing gs with
  | nil => cases gs <;> simp
  | cons f fs ih =>
    cases gs with
    | nil => simp
    | cons g gs =>
      simp only [List.map_cons, List.forall₂_cons, List.cons.injEq, ih gs]
      rw [and_and_and_comm]

/-- Fields by their numbers and their values. -/
theorem answers_fields {test : ValueId → ValueId → Except Fault Bool} {R : ValueId → ValueId → Prop}
    {fs gs : List FieldValue}
    (h : ∀ u ∈ fs.map (·.value), ∀ v ∈ gs.map (·.value), Answers (test u v) (R u v)) :
    Answers
      (allPairs (fun f g => if f.label.id = g.label.id then test f.value g.value else .ok false) fs gs)
      (fs.map (·.label.id) = gs.map (·.label.id) ∧
        List.Forall₂ R (fs.map (·.value)) (gs.map (·.value))) := by
  rw [← forall₂_fields]
  refine answers_allPairs fun f g hfg => Answers.ite fun _ => ?_
  obtain ⟨hf, hg⟩ := List.of_mem_zip hfg
  exact h f.value (List.mem_map_of_mem hf) g.value (List.mem_map_of_mem hg)

/-- One level of the comparison: what the nodes say, and then their parts. -/
theorem answers_node {R : ValueId → ValueId → Prop} (hx : a.valueAt x = .ok vx)
    (hy : b.valueAt y = .ok vy) (hm : a.Marks vx m) (hn : b.Marks vy n)
    (hparts : ∀ u ∈ vx.parts, ∀ v ∈ vy.parts, Answers (equalWithin a b depth u v) (R u v)) :
    Answers (equalWithin a b (depth + 1) x y) (m = n ∧ List.Forall₂ R vx.parts vy.parts) := by
  rw [equalWithin, hx, hy]
  cases hm with
  | null =>
    cases hn with
    | null => exact answers_true ⟨rfl, .nil⟩
    | _ => exact answers_false fun h => nomatch h.1
  | reserved =>
    cases hn with
    | reserved => exact answers_true ⟨rfl, .nil⟩
    | _ => exact answers_false fun h => nomatch h.1
  | bool p =>
    cases hn with
    | bool q => exact (answers_decide (p = q)).congr (by simp [Value.parts])
    | _ => exact answers_false fun h => nomatch h.1
  | fixed p =>
    cases hn with
    | fixed q => exact (answers_decide (p = q)).congr (by simp [Value.parts])
    | _ => exact answers_false fun h => nomatch h.1
  | nat hp =>
    cases hn with
    | nat hq => exact (answers_sameBytes hp hq).congr (by simp [Value.parts])
    | _ => exact answers_false fun h => nomatch h.1
  | int hp =>
    cases hn with
    | int hq => exact (answers_sameBytes hp hq).congr (by simp [Value.parts])
    | _ => exact answers_false fun h => nomatch h.1
  | text hp =>
    cases hn with
    | text hq => exact (answers_sameBytes hp hq).congr (by simp [Value.parts])
    | _ => exact answers_false fun h => nomatch h.1
  | principal hp =>
    cases hn with
    | principal hq => exact (answers_sameBytes hp hq).congr (by simp [Value.parts])
    | _ => exact answers_false fun h => nomatch h.1
  | blob hp =>
    cases hn with
    | blob hq => exact (answers_sameBytes hp hq).congr (by simp [Value.parts])
    | _ => exact answers_false fun h => nomatch h.1
  | service hp =>
    cases hn with
    | service hq => exact (answers_sameBytes hp hq).congr (by simp [Value.parts])
    | _ => exact answers_false fun h => nomatch h.1
  | func hp hr =>
    cases hn with
    | func hq ht =>
      have hboth := (answers_sameBytes hp hq).and fun _ => answers_sameBytes hr ht
      exact hboth.congr (by simp [Value.parts])
    | _ => exact answers_false fun h => nomatch h.1
  | none =>
    cases hn with
    | none => exact answers_true ⟨rfl, .nil⟩
    | _ => exact answers_false fun h => nomatch h.1
  | some u =>
    cases hn with
    | some v =>
      have hinner := hparts u List.mem_cons_self v List.mem_cons_self
      exact hinner.congr (by simp [Value.parts])
    | _ => exact answers_false fun h => nomatch h.1
  | vec us =>
    cases hn with
    | vec vs =>
      have hitems := answers_allPairs (R := R) fun u v huv =>
        hparts u (List.of_mem_zip huv).1 v (List.of_mem_zip huv).2
      exact hitems.congr (by simp [Value.parts])
    | _ => exact answers_false fun h => nomatch h.1
  | @record fs ids hids =>
    cases hn with
    | @record gs ids' hids' =>
      subst hids hids'
      exact (answers_fields hparts).congr (by simp [Value.parts])
    | _ => exact answers_false fun h => nomatch h.1
  | @variant i f id hid =>
    cases hn with
    | @variant j g id' hid' =>
      subst hid hid'
      have hfield := hparts f.value List.mem_cons_self g.value List.mem_cons_self
      refine (Answers.ite fun _ => hfield).congr ?_
      simp [Value.parts]
    | _ => exact answers_false fun h => nomatch h.1

/-! ### Whole values -/

theorem alike_node (hx : a.valueAt x = .ok vx) (hy : b.valueAt y = .ok vy) (hm : a.Marks vx m)
    (hn : b.Marks vy n) :
    a.Alike x b y ↔ m = n ∧ List.Forall₂ (fun u v => a.Alike u b v) vx.parts vy.parts := by
  constructor
  · rintro ⟨_, ⟨hx', hm', hus⟩, hy', hn', hvs⟩
    obtain rfl := Except.ok.inj (hx.symm.trans hx')
    obtain rfl := Except.ok.inj (hy.symm.trans hy')
    refine ⟨(hm.functional hm').trans (hn'.functional hn), ?_⟩
    exact forall₂_comp (fun u t v hu hv => ⟨t, hu, hv⟩) hus hvs.flip
  · rintro ⟨rfl, hparts⟩
    obtain ⟨ts, hus, hvs⟩ := forall₂_common hparts
    exact ⟨.node m ts, .node hx hm hus, .node hy hn hvs⟩

theorem answers_equalWithin {fuel : Nat} {t u : ValueTree} (hnests : a.Nests fuel x)
    (hx : a.Denotes x t) (hy : b.Denotes y u) : Answers (equalWithin a b fuel x y) (a.Alike x b y) := by
  induction fuel generalizing x y t u with
  | zero => exact hnests.elim
  | succ fuel ih =>
    obtain ⟨_, hx', hnests⟩ := hnests
    obtain ⟨hx, hm, hus⟩ := hx
    obtain ⟨hy, hn, hvs⟩ := hy
    obtain rfl := Except.ok.inj (hx.symm.trans hx')
    refine (answers_node hx hy hm hn ?_).congr (alike_node hx hy hm hn).symm
    intro u hu v hv
    obtain ⟨t, -, ht⟩ := forall₂_partner hus.flip u hu
    obtain ⟨t', -, ht'⟩ := forall₂_partner hvs.flip v hv
    exact ih (hnests u hu) ht ht'

/-- Of values that denote a tree each, the comparison tells whether it is the same. -/
theorem answers_equal {t u : ValueTree} (hx : a.Denotes x t) (hy : b.Denotes y u) :
    Answers (equal a x b y) (a.Alike x b y) := by
  obtain ⟨depth, hdepth⟩ := hx.nests
  have hpos : 0 < b.values.size := by
    obtain ⟨hy, -⟩ := hy
    have := (Array.getElem?_eq_some_iff.mp (valueAt_eq_ok.mp hy)).1
    omega
  have hfuel := Nat.le_mul_of_pos_right a.values.size hpos
  exact answers_equalWithin (hdepth.bounded.le (by omega)) hx hy

/-- Values that hold the same tree are equal. -/
theorem equal_of_holds {depth depth' : Nat} {d : Datum} (hx : a.Holds depth x d)
    (hy : b.Holds depth' y d) : equal a x b y = .ok true :=
  (answers_equal hx.denotes hy.denotes).iff.mpr ⟨d.tree, hx.denotes, hy.denotes⟩

end Store

end TypedWire
