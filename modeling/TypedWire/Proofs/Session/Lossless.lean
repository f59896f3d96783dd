import TypedWire.Proofs.Schema.Exact
import TypedWire.Proofs.Session.Run
import TypedWire.Proofs.Value.Lossless

/-! Reading by an expected type that the type of the argument plainly fits. The answer of the check
    decides it: after a plain one nothing is left out that the expected type has room for. -/

namespace TypedWire.Session

open TypedWire.Action

variable {bytes : List UInt8} {config : Config} {s s1 s2 s' : State} {made : List Value} {clean : Bool}
variable {t expected : TypeId} {v : ValueId} {verdict : Verdict}

/-- The check before reshaping is a check with nothing assumed, and changes no more than the log. -/
theorem judge_eq_ok (h : judge t expected s1 = .ok verdict s2) :
    s2.store = s1.store ∧ s2.session.header = s1.session.header ∧
      ∃ cx depth k k', cx.scope = ⟨s1.store, s1.session.header.env⟩ ∧ k.assumed = {} ∧
        Subtype.fits cx depth t expected k = .ok verdict k' := by
  unfold judge at h
  dsimp only at h
  split at h
  · next answer assumed log hfits =>
    rw [EStateM.Result.ok.injEq] at h
    obtain ⟨rfl, rfl⟩ := h
    exact ⟨rfl, rfl, _, _, _, ⟨assumed, log⟩, rfl, rfl, hfits⟩
  · exact absurd h (by simp)

/-- After a plain answer of the check, what is left to do is to reshape the value, in the state that the
    check leaves. -/
theorem readNextAs_coerce (hread : readNext s = .ok (t, v) s1) (hjudge : judge t expected s1 = .ok .ok s2) :
    readNextAs expected s =
      match coerce s2.session.header.env v t expected s2.store with
      | .ok v store => .ok v ⟨s2.session, store⟩
      | .error e store => .error e ⟨s2.session, store⟩ := by
  rw [readNextAs_eq, bind_run hread]
  exact bind_run hjudge

/-- Where an `opt` is expected: what was content is content, what is neither an `opt` nor `null` becomes
    content, and the `opt` is left empty only where the other one was, or for `null`. -/
def OptKept (s : Store) (w : Scope) (v : ValueId) (t : TypeId) (v' : ValueId) : Prop :=
  (∀ u, s.valueAt v = .ok (.opt (some u)) → ∃ u', s.valueAt v' = .ok (.opt (some u'))) ∧
  (∀ r n, w.StandsFor t r n → n ≠ .primitive .null → (∀ inner, n ≠ .opt inner) →
    ∃ u', s.valueAt v' = .ok (.opt (some u'))) ∧
  (s.valueAt v' = .ok (.opt none) → s.valueAt v = .ok (.opt none) ∨ s.valueAt v = .ok .null)

theorem optKept {s : Store} {w : Scope} {k : Nat} {v v' : ValueId} {t t' r' i : TypeId}
    (h : s.Keeps w k v t v' t') (ht' : w.StandsFor t' r' (.opt i)) : OptKept s w v t v' := by
  refine ⟨fun u hu => h.content (u := u) ht' (.inl hu), fun r n hn hnull hopt => ?_, h.empty ht'⟩
  exact h.content (u := v) ht' (.inr ⟨r, n, hn, hnull, hopt⟩)

/-- When the check of an argument that is read by an expected type answers plainly that it fits, the
    argument is read, unless the store is full, and nothing optional is dropped: the value given is made
    from the one in the message place by place, a field of a record being blank only if the type in the
    message has none of its number; and at every place inside where an `opt` is expected there is
    content if there was something to put there. -/
theorem readNextAs_lossless (hrun : Run bytes config s made clean)
    (hread : readNext s = .ok (t, v) s1) (hjudge : judge t expected s1 = .ok .ok s2)
    (hdistinct : Scope.Distinct ⟨s1.store, s1.session.header.env⟩ expected)
    (hroom : ∀ s', readNextAs expected s ≠ .error .storeFull s') :
    ∃ v' s', readNextAs expected s = .ok v' s' ∧
      (∃ k, s'.store.Keeps ⟨s'.store, s'.session.header.env⟩ k v t v' expected) ∧
      ∀ k u e u' e' r i, s'.store.Keeps ⟨s'.store, s'.session.header.env⟩ k u e u' e' →
        Scope.StandsFor ⟨s'.store, s'.session.header.env⟩ e' r (.opt i) →
        OptKept s'.store ⟨s'.store, s'.session.header.env⟩ u e u' := by
  obtain ⟨hlater, hmem, -, -, hv⟩ := leads_readNext.ok hread
  obtain ⟨hstore, hheader, cx, depth, k, k', hscope, hassumed, hfits⟩ := judge_eq_ok hjudge
  have hwire : Scope.Distinct ⟨s1.store, s1.session.header.env⟩ t := fun u r n hu hn =>
    ((hrun.sane.later hlater).canonical (hlater.args ▸ hmem) u r n hu hn).distinct
  have hfit : Scope.Fits ⟨s1.store, s1.session.header.env⟩ .strict t expected := by
    rw [← hscope] at hwire hdistinct ⊢
    exact (Subtype.fits_ok cx hassumed hwire hdistinct hfits).mp rfl
  have hcoerce := Coerce.ends_coerce s1.session.header.env hv hwire hdistinct hfit
  have hrest := readNextAs_coerce hread hjudge
  rw [hstore, hheader] at hrest
  rcases Runs.ends hcoerce with ⟨v', store, hdone, hgrows, hkept⟩ | ⟨e, store, hdone, rfl⟩
  · refine ⟨v', ⟨s2.session, store⟩, by rw [hrest, hdone], ?_, ?_⟩
    · rw [hheader]
      exact hkept
    · exact fun k u e u' e' r i hk he' => optKept hk he'
  · exact absurd (by rw [hrest, hdone]) (hroom ⟨s2.session, store⟩)

/-- A record of an optional number. -/
def optionalNumber : Store where
  types := #[.primitive .nat, .opt ⟨0⟩, .record [⟨.bare 0, ⟨1⟩⟩]]

theorem number_kept : ∃ session store, start numberMessage {} optionalNumber = .ok session store ∧
    ∃ t v s1 s2, readNext ⟨session, store⟩ = .ok (t, v) s1 ∧ judge t ⟨2⟩ s1 = .ok .ok s2 ∧
      Scope.Distinct ⟨s1.store, s1.session.header.env⟩ ⟨2⟩ ∧
      (∀ s', readNextAs ⟨2⟩ ⟨session, store⟩ ≠ .error .storeFull s') ∧
      ∃ v' s', readNextAs ⟨2⟩ ⟨session, store⟩ = .ok v' s' ∧
        ∃ k, s'.store.Keeps ⟨s'.store, s'.session.header.env⟩ k v t v' ⟨2⟩ := by
  have hall : (start numberMessage {}).passes optionalNumber (fun session store =>
      (readNextAs ⟨2⟩).passes ⟨session, store⟩ (fun _ _ => true) &&
      readNext.passes ⟨session, store⟩ fun arg s1 =>
        decide (∀ n ∈ s1.store.types, n.Distinct) &&
        (judge arg.1 ⟨2⟩).passes s1 fun verdict _ => verdict = .ok) = true := by decide +kernel
  obtain ⟨session, store, hstart, hall⟩ := passes_iff.mp hall
  rw [Bool.and_eq_true] at hall
  obtain ⟨v', s', hdone, -⟩ := passes_iff.mp hall.1
  obtain ⟨⟨t, v⟩, s1, hread, hs1⟩ := passes_iff.mp hall.2
  rw [Bool.and_eq_true, decide_eq_true_eq] at hs1
  obtain ⟨verdict, s2, hjudge, hverdict⟩ := passes_iff.mp hs1.2
  rw [decide_eq_true_eq] at hverdict
  subst hverdict
  have hd : Scope.Distinct ⟨s1.store, s1.session.header.env⟩ ⟨2⟩ := .of_store hs1.1 _
  have hroom : ∀ s', readNextAs ⟨2⟩ ⟨session, store⟩ ≠ .error .storeFull s' := by
    intro s' hfull
    exact absurd (hdone.symm.trans hfull) (by simp)
  obtain ⟨u, s'', hread', hkept, -⟩ := readNextAs_lossless (.start hstart) hread hjudge hd hroom
  exact ⟨session, store, hstart, t, v, s1, s2, hread, hjudge, hd, hroom, u, s'', hread', hkept⟩

end TypedWire.Session
