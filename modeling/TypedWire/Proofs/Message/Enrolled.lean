import TypedWire.Proofs.Message.Noted
import TypedWire.Proofs.Schema.Settled

/-! Settled types can always be registered. Nothing is missing in them, so the search for an equal type
    gives an answer, and the parts of a type have their numbers when its slot is filled. Nor are too many
    of them met one inside the other: each that is new takes a slot before its parts are looked at, and
    there are no more slots than types. -/

namespace TypedWire.TypeTable

open TypedWire.Action

variable {w : Scope} {own : TypeId → Prop} {t t' : TypeTable} {c r : TypeId} {n : TypeNode}
variable {depth place : Nat} {others types : List TypeId}

/-! ### Answers -/

/-- A node with parts can be written, if there is something to write for each part. -/
theorem encodeNode_ok {s : Store} {env : Env} (hn : n.kind.isPrimitive = false)
    (hvar : ∀ name, n ≠ .var name) (h : ∀ c ∈ parts n, ∃ ref, t.encodeRef s env c = .ok ref) :
    ∃ entry, t.encodeNode s env n = .ok entry := by
  have hrefs : ∀ {types : List TypeId}, (∀ c ∈ types, c ∈ parts n) →
      ∃ refs, t.encodeRefs s env types = .ok refs := by
    intro types htypes
    obtain ⟨refs, hrefs⟩ := Except.mapM_of_forall fun c hc => h c (htypes c hc)
    simp only [encodeRefs, Except.bind_eq_ok, Except.pure_eq_ok]
    exact ⟨_, refs, hrefs, rfl⟩
  have hfields : ∀ {fields : List Field}, (∀ f ∈ fields, f.type ∈ parts n) →
      ∃ items, t.encodeFields s env fields = .ok items := by
    intro fields hfields
    have hitem : ∀ f ∈ fields, ∃ item, (do
        return Leb128.encodeUnsigned f.label.id.toNat ++ (← t.encodeRef s env f.type)) =
          (.ok item : Except Fault (List UInt8)) := by
      intro f hf
      obtain ⟨ref, href⟩ := h _ (hfields f hf)
      simp only [Except.bind_eq_ok, Except.pure_eq_ok]
      exact ⟨_, ref, href, rfl⟩
    obtain ⟨items, hitems⟩ := Except.mapM_of_forall hitem
    simp only [encodeFields, Except.bind_eq_ok, Except.pure_eq_ok]
    exact ⟨_, items, hitems, rfl⟩
  cases n with
  | primitive p => exact absurd hn (by simp [TypeNode.kind, Kind.isPrimitive])
  | var name => exact absurd rfl (hvar name)
  | opt inner | vec inner =>
    obtain ⟨ref, href⟩ := h inner (by simp [parts])
    simp only [encodeNode, Except.bind_eq_ok, Except.pure_eq_ok]
    exact ⟨_, ref, href, rfl⟩
  | record fields | variant fields =>
    obtain ⟨items, hitems⟩ := hfields fun f hf => List.mem_map_of_mem hf
    simp only [encodeNode, Except.bind_eq_ok, Except.pure_eq_ok]
    exact ⟨_, items, hitems, rfl⟩
  | func f =>
    obtain ⟨args, hargs⟩ := hrefs fun c hc => List.mem_append_left f.results hc
    obtain ⟨results, hresults⟩ := hrefs fun c hc => List.mem_append_right f.args hc
    simp only [encodeNode, Except.bind_eq_ok, Except.pure_eq_ok]
    exact ⟨_, args, hargs, results, hresults, _, rfl, rfl⟩
  | service methods =>
    have hitem : ∀ m ∈ methods, ∃ item, (do
        let name := utf8 m.name
        return Leb128.encodeUnsigned name.length ++ name ++ (← t.encodeRef s env m.type)) =
          (.ok item : Except Fault (List UInt8)) := by
      intro m hm
      obtain ⟨ref, href⟩ := h m.type (List.mem_map_of_mem hm)
      simp only [Except.bind_eq_ok, Except.pure_eq_ok]
      exact ⟨_, ref, href, rfl⟩
    obtain ⟨items, hitems⟩ := Except.mapM_of_forall hitem
    simp only [encodeNode, encodeMethods, Except.bind_eq_ok, Except.pure_eq_ok]
    exact ⟨_, _, ⟨items, hitems, rfl⟩, rfl⟩

/-- The search for a type among others ends, whether or not it finds an equal one. -/
theorem findEqual_ok (h : w.Settled own) (hc : own c) : ∀ (place : Nat) {others : List TypeId},
    (∀ d ∈ others, own d) → ∃ found, findEqual w.store w.env c place others = .ok found
  | _, [], _ => ⟨none, rfl⟩
  | place, d :: others, hothers => by
    rw [List.forall_mem_cons] at hothers
    obtain ⟨same, hsame⟩ := h.sameWithin sharedLevels hothers.1 hc
    cases same with
    | true => exact ⟨some place, findEqual_cons.mpr (.inl ⟨hsame, rfl⟩)⟩
    | false =>
      obtain ⟨found, hfound⟩ := findEqual_ok h hc (place + 1) hothers.2
      exact ⟨found, findEqual_cons.mpr (.inr ⟨hsame, hfound⟩)⟩

theorem number?_ok (h : w.Settled own) (hc : own c) (hothers : ∀ d ∈ others, own d) :
    ∃ found, number? w others c = .ok found := by
  obtain ⟨r, n, hs, hr, -⟩ := h c hc
  cases hn : n.kind.isPrimitive with
  | false =>
    obtain ⟨found, hfound⟩ := findEqual_ok h hr 0 hothers
    exact ⟨_, (number?_composite hs hn).mpr hfound⟩
  | true =>
    obtain ⟨p, rfl⟩ : ∃ p, n = .primitive p := by
      cases n with
      | primitive p => exact ⟨p, rfl⟩
      | _ => simp [TypeNode.kind, Kind.isPrimitive] at hn
    exact ⟨_, number?_primitive hs⟩

/-! ### Registering -/

/-- All registered types are among those. -/
def Among (own : TypeId → Prop) (t : TypeTable) : Prop := ∀ a ∈ t.registered.toList, own a

/-- What registering leaves: more is registered, all among the types, and what is asked for is. -/
def Enrols (w : Scope) (own : TypeId → Prop) (t : TypeTable) (types : List TypeId) (t' : TypeTable) :
    Prop :=
  Further w t t' ∧ t'.Among own ∧ ∀ c ∈ types, t'.Numbered w c

theorem runs_enrolParts
    (ih : ∀ t c, t.Faithful w → t.Among own → own c →
      w.store.types.size < depth + t.registered.size →
      Runs (registerWithin w.store w.env depth c) t (fun _ => Enrols w own t [c]) fun _ _ => False) :
    ∀ (types : List TypeId) (t : TypeTable), t.Faithful w → t.Among own → (∀ c ∈ types, own c) →
      w.store.types.size < depth + t.registered.size →
      Runs (types.forM fun part => do let _ ← registerWithin w.store w.env depth part) t
        (fun _ => Enrols w own t types) fun _ _ => False
  | [], t, h, hown, _, _ => ⟨h.further, hown, by simp⟩
  | c :: rest, t, h, hown, htypes, hsize => by
    rw [List.forall_mem_cons] at htypes
    refine runs_bind (runs_bind ((ih t c h hown htypes.1 hsize).post_mono ?_))
    rintro - t1 ⟨hf1, hown1, hc⟩
    have hmore : t.registered.size ≤ t1.registered.size := by simpa using hf1.registered.length_le
    have hrest := runs_enrolParts ih rest t1 hf1.faithful hown1 htypes.2 (by omega)
    refine runs_pure (hrest.post_mono ?_)
    rintro - t2 ⟨hf2, hown2, hrest⟩
    refine ⟨hf1.trans hf2, hown2, List.forall_mem_cons.mpr ⟨?_, hrest⟩⟩
    exact (hc c List.mem_cons_self).later hf2.slots

theorem runs_enrolNew (h : t.Faithful w) (hown : t.Among own) (hs : w.StandsFor c r n)
    (hn : n.kind.isPrimitive = false)
    (hnew : findEqual w.store w.env r 0 t.registered.toList = .ok none) (hr : own r)
    (hparts : ∀ d ∈ parts n, own d) (hsize : w.store.types.size < depth + 1 + t.registered.size)
    (ih : ∀ t c, t.Faithful w → t.Among own → own c →
      w.store.types.size < depth + t.registered.size →
      Runs (registerWithin w.store w.env depth c) t (fun _ => Enrols w own t [c]) fun _ _ => False) :
    Runs (registerNew w depth c r n) t (fun _ => Enrols w own t [c]) fun _ _ => False := by
  have hentered := h.entered hs hn hnew
  have hown1 : (t.entered c r).Among own := by
    intro a ha
    rw [TypeTable.entered, Array.toList_push, List.mem_append, List.mem_singleton] at ha
    rcases ha with ha | rfl
    · exact hown a ha
    · exact hr
  have hsize1 : w.store.types.size < depth + (t.entered c r).registered.size := by
    rw [TypeTable.entered, Array.size_push]
    omega
  refine runs_bind (runs_of_ok rfl (runs_bind (runs_of_ok rfl (runs_bind ?_))))
  refine (runs_enrolParts ih (parts n) _ hentered.faithful hown1 hparts hsize1).post_mono ?_
  rintro - t2 ⟨hf2, hown2, hnumbered⟩
  have hf := hentered.trans hf2
  obtain ⟨entry, hentry⟩ := encodeNode_ok hn hs.not_var fun d hd =>
    hf.faithful.linked.encodeRef_ok (hnumbered d hd)
  refine runs_bind (runs_of_ok rfl (runs_bind (runs_ofExcept hentry ?_)))
  have hc : (c, t.entries.size) ∈ t2.slots := hf2.slots.subset (by simp [TypeTable.entered])
  refine runs_bind (runs_of_ok rfl (runs_pure
    ⟨⟨hf.faithful.fill entry, hf.slots, hf.registered⟩, hown2, ?_⟩))
  exact fun d hd => List.mem_singleton.mp hd ▸ .inr ⟨_, hc⟩

/-- A settled type is registered. The depth that is left and the slots that are taken are together more
    than the types of the store, of which each takes one slot at most. -/
theorem runs_enrol (hsettled : w.Settled own) : ∀ (depth : Nat) (t : TypeTable) (c : TypeId),
    t.Faithful w → t.Among own → own c → w.store.types.size < depth + t.registered.size →
    Runs (registerWithin w.store w.env depth c) t (fun _ => Enrols w own t [c]) fun _ _ => False
  | 0, t, c, h, _, _, hsize => by
    have := h.size_le
    omega
  | depth + 1, t, c, h, hown, hc, hsize => by
    have hmeets := meets_registerWithin h depth c
    obtain ⟨found, hfound⟩ := number?_ok hsettled hc hown
    rw [hfound] at hmeets
    cases hmeets with
    | found slots hrun hslots hfaithful hnumbered =>
      refine runs_of_ok hrun ⟨⟨hfaithful, hslots, List.prefix_rfl⟩, hown, fun d hd => ?_⟩
      exact List.mem_singleton.mp hd ▸ hnumbered
    | new hs hn hnew hrun =>
      obtain ⟨hr, -, hparts⟩ := hsettled.node hc hs
      have hnewRun := runs_enrolNew h hown hs hn hnew hr hparts hsize (runs_enrol hsettled depth)
      rwa [Runs, ← hrun] at hnewRun

/-- An argument of a settled type is added. -/
theorem runs_enrolArg (hsettled : w.Settled own) (h : t.Faithful w) (hown : t.Among own) (hc : own c) :
    Runs (addArg w.store w.env c) t (fun _ => Enrols w own t [c]) fun _ _ => False := by
  refine runs_bind ((runs_enrol hsettled _ t c h hown hc (by omega)).post_mono ?_)
  rintro - t1 ⟨hf, hown1, hnumbered⟩
  exact runs_of_ok rfl ⟨hf.addArg c, hown1, hnumbered⟩

end TypedWire.TypeTable
