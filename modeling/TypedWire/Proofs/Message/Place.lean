import TypedWire.Proofs.Message.HeaderRoundTrip
import TypedWire.Proofs.Schema.Mirror

/-! What the slots noted in a table are good for: they only remember what a search among the
    registered types would find. So the number that a type gets depends on the registered types
    alone, and not on what else has been noted, or forgotten again, on the way. -/

namespace TypedWire

/-- Two answers are the same if each that one gives the other gives too, and neither gives up but for
    one cause. -/
theorem Except.eq_of_ok {α : Type} {x y : Except Fault α} (hxy : ∀ a, x = .ok a → y = .ok a)
    (hyx : ∀ a, y = .ok a → x = .ok a) (hx : ∀ e, x = .error e → e = .invalid)
    (hy : ∀ e, y = .error e → e = .invalid) : x = y := by
  cases hres : x with
  | ok a => exact (hxy a hres).symm
  | error e =>
    cases hres' : y with
    | ok a => exact absurd (hres.symm.trans (hyx a hres')) (by simp)
    | error e' => rw [hx e hres, hy e' hres']

namespace TypeTable

open TypedWire.Action

variable {w w' : Scope} {t t' t'' : TypeTable} {R : TypeId → TypeId → Prop} {a c d r : TypeId}
variable {n : TypeNode} {others others' more : List TypeId} {place slot depth : Nat} {i : Int}

/-! ### The search for an equal type -/

/-- What the search finds: the first type, if it is equal, else what is found among the rest. -/
theorem findEqual_cons {found : Option Nat} :
    findEqual w.store w.env c place (d :: others) = .ok found ↔
      (w.env.sameWithin w.store sharedLevels d c = .ok true ∧ found = some place) ∨
        w.env.sameWithin w.store sharedLevels d c = .ok false ∧
          findEqual w.store w.env c (place + 1) others = .ok found := by
  simp only [findEqual, Except.bind_eq_ok, Bool.exists_bool, Bool.false_eq_true, if_false, if_true,
    Except.pure_eq_ok]
  rw [or_comm, eq_comm (a := found)]

theorem findEqual_mirrors (h : Scope.Mirrors R w w') (hcd : R c d) {found : Option Nat}
    (hothers : List.Forall₂ R others others') : ∀ {place : Nat},
    findEqual w.store w.env c place others = .ok found →
      findEqual w'.store w'.env d place others' = .ok found := by
  induction hothers with
  | nil => exact id
  | cons hab _ ih =>
    intro place hfound
    rw [findEqual_cons] at hfound ⊢
    rcases hfound with ⟨hsame, hfound⟩ | ⟨hsame, hfound⟩
    · exact .inl ⟨h.sameWithin _ _ _ _ _ _ hab hcd hsame, hfound⟩
    · exact .inr ⟨h.sameWithin _ _ _ _ _ _ hab hcd hsame, ih hfound⟩

theorem findEqual_fault {e : Fault} : ∀ {place : Nat} {others : List TypeId},
    findEqual w.store w.env c place others = .error e → e = .invalid
  | _, [], h => by simp [findEqual] at h
  | place, other :: rest, h => by
    simp only [findEqual, Except.bind_eq_error] at h
    rcases h with h | ⟨same, -, h⟩
    · exact Scope.sameWithin_fault _ _ _ e h
    · split at h
      · exact absurd h (by simp)
      · exact findEqual_fault h

/-- The first that is found stays the first. -/
theorem findEqual_append : ∀ {place : Nat} {others : List TypeId},
    findEqual w.store w.env c place others = .ok (some slot) →
      findEqual w.store w.env c place (others ++ more) = .ok (some slot)
  | _, [], h => by simp [findEqual] at h
  | place, other :: rest, h => by
    rw [List.cons_append]
    rw [findEqual_cons] at h ⊢
    exact h.imp id fun h => ⟨h.1, findEqual_append h.2⟩

/-- What is found in the front part is found without the rest. -/
theorem findEqual_front : ∀ {place : Nat} {others : List TypeId},
    findEqual w.store w.env c place (others ++ more) = .ok (some slot) → slot < place + others.length →
      findEqual w.store w.env c place others = .ok (some slot)
  | place, [], h, hlt => by
    obtain ⟨i, d, rfl, -, -⟩ := findEqual_eq_some h
    simp at hlt
  | place, other :: rest, h, hlt => by
    rw [List.cons_append] at h
    rw [List.length_cons] at hlt
    rw [findEqual_cons] at h ⊢
    exact h.imp id fun h => ⟨h.1, findEqual_front h.2 (by omega)⟩

theorem sameWithin_self (levels : Nat) (c : TypeId) :
    w.env.sameWithin w.store (levels + 1) c c = .ok true := by
  simp [Env.sameWithin]

/-- A type that equals none of the others is found at the end, once it is put there. -/
theorem findEqual_last : ∀ {place : Nat} {others : List TypeId},
    findEqual w.store w.env c place others = .ok none →
      findEqual w.store w.env c place (others ++ [c]) = .ok (some (place + others.length))
  | place, [], _ => by
    rw [List.nil_append, findEqual_cons]
    exact .inl ⟨sameWithin_self _ c, by simp⟩
  | place, other :: rest, h => by
    rw [findEqual_cons] at h
    rcases h with ⟨-, h⟩ | ⟨hsame, h⟩
    · exact absurd h (by simp)
    · have hlast := findEqual_last h
      rw [Nat.add_right_comm, Nat.add_assoc, ← List.length_cons] at hlast
      rw [List.cons_append, findEqual_cons]
      exact .inr ⟨hsame, hlast⟩

theorem not_mem_of_findEqual : ∀ {place : Nat} {others : List TypeId},
    findEqual w.store w.env c place others = .ok none → c ∉ others
  | _, [], _ => by simp
  | place, other :: rest, h => by
    rw [findEqual_cons] at h
    rcases h with ⟨-, h⟩ | ⟨hsame, h⟩
    · exact absurd h (by simp)
    · rw [List.mem_cons, not_or]
      refine ⟨?_, not_mem_of_findEqual h⟩
      rintro rfl
      exact absurd (hsame.symm.trans (sameWithin_self _ c)) (by simp)

/-! ### The number of a type -/

/-- The number that stands for a type, if it has one: that of the type without parts that it stands
    for, or the place of the first registered type that equals what it stands for. -/
def number? (w : Scope) (registered : List TypeId) (c : TypeId) : Except Fault (Option Int) := do
  let actual ← w.env.follow w.store c
  match ← w.store.typeAt actual with
  | .primitive p => return some p.opcode
  | _ => return (← findEqual w.store w.env actual 0 registered).map Int.ofNat

theorem number?_primitive {p : Primitive} (hs : w.StandsFor c r (.primitive p)) :
    number? w others c = .ok (some p.opcode) := by
  simp only [number?, Except.bind_eq_ok]
  exact ⟨r, hs.follow, _, hs.node, rfl⟩

theorem number?_eq (hs : w.StandsFor c r n) (hn : n.kind.isPrimitive = false) :
    number? w others c = (findEqual w.store w.env r 0 others).map (Option.map Int.ofNat) := by
  rw [number?, hs.follow]
  refine Eq.trans (b := (do
    match ← w.store.typeAt r with
    | .primitive p => return some p.opcode
    | _ => return (← findEqual w.store w.env r 0 others).map Int.ofNat)) rfl ?_
  rw [hs.node]
  cases n with
  | primitive p => exact absurd hn (by simp [TypeNode.kind, Kind.isPrimitive])
  | _ => cases findEqual w.store w.env r 0 others <;> rfl

theorem number?_composite (hs : w.StandsFor c r n) (hn : n.kind.isPrimitive = false)
    {found : Option Nat} : number? w others c = .ok (found.map Int.ofNat) ↔
      findEqual w.store w.env r 0 others = .ok found := by
  have hinj : Function.Injective (Option.map Int.ofNat) :=
    Option.map_injective fun _ _ => Int.ofNat.inj
  rw [number?_eq hs hn]
  cases findEqual w.store w.env r 0 others with
  | error e => simp [Except.map]
  | ok found' => simp [Except.map, hinj.eq_iff]

/-- How a type gets its number. -/
theorem number?_cases {found : Option Int} (h : number? w others c = .ok found) :
    (∃ r p, w.StandsFor c r (.primitive p) ∧ found = some p.opcode) ∨
      ∃ r n place, w.StandsFor c r n ∧ n.kind.isPrimitive = false ∧
        findEqual w.store w.env r 0 others = .ok place ∧ found = place.map Int.ofNat := by
  have hnumber := h
  simp only [number?, Except.bind_eq_ok] at h
  obtain ⟨r, hr, n, hn, h⟩ := h
  have hs : w.StandsFor c r n := ⟨hr, hn⟩
  by_cases hprim : n.kind.isPrimitive = true
  · cases n with
    | primitive p => exact .inl ⟨r, p, hs, (Except.pure_eq_ok.mp h).symm⟩
    | _ => simp [TypeNode.kind, Kind.isPrimitive] at hprim
  · rw [Bool.not_eq_true] at hprim
    have hplace : ∃ place : Option Nat, found = place.map Int.ofNat := by
      cases n with
      | primitive p => exact absurd hprim (by simp [TypeNode.kind, Kind.isPrimitive])
      | _ =>
        simp only [Except.bind_eq_ok, Except.pure_eq_ok] at h
        obtain ⟨place, -, hplace⟩ := h
        exact ⟨place, hplace.symm⟩
    obtain ⟨place, rfl⟩ := hplace
    exact .inr ⟨r, n, place, hs, hprim, (number?_composite hs hprim).mp hnumber, rfl⟩

theorem number?_mirrors (h : Scope.Mirrors R w w') (hothers : List.Forall₂ R others others')
    (hcd : R c d) {found : Option Int} (hc : number? w others c = .ok found) :
    number? w' others' d = .ok found := by
  rcases number?_cases hc with ⟨r, p, hs, rfl⟩ | ⟨r, n, place, hs, hn, hplace, rfl⟩
  · obtain ⟨r', m, hs', -, hm⟩ := h.standsFor hcd hs
    cases hm with
    | primitive => exact number?_primitive hs'
  · obtain ⟨r', m, hs', hr, hm⟩ := h.standsFor hcd hs
    exact (number?_composite hs' (hm.isPrimitive_eq ▸ hn)).mpr (findEqual_mirrors h hr hothers hplace)

theorem number?_fault {e : Fault} (h : number? w others c = .error e) : e = .invalid := by
  simp only [number?, Except.bind_eq_error] at h
  rcases h with h | ⟨r, -, h | ⟨n, -, h⟩⟩
  · exact Scope.follow_fault h
  · exact Scope.typeAt_fault h
  · cases n with
    | primitive p => exact absurd h (by simp)
    | _ =>
      simp only [Except.bind_eq_error, Except.pure_ne_error, and_false, exists_false, or_false] at h
      exact findEqual_fault h

/-- In scopes that show the same, related types have the same number. -/
theorem number?_twin (h : Scope.Twin R w w') (hothers : List.Forall₂ R others others') (hcd : R c d) :
    number? w others c = number? w' others' d :=
  Except.eq_of_ok (fun _ => number?_mirrors h.mirrors hothers hcd)
    (fun _ => number?_mirrors h.symm.mirrors hothers.flip hcd) (fun _ => number?_fault)
    fun _ => number?_fault

/-- A number stays the same when the scope grows and more types are registered. -/
theorem number?_later (hw : w.Extends w') (hothers : others <+: others')
    (h : number? w others c = .ok (some i)) : number? w' others' c = .ok (some i) := by
  have hgrown : number? w' others c = .ok (some i) :=
    number?_mirrors hw.mirrors (List.forall₂_same.mpr fun _ _ => rfl) rfl h
  obtain ⟨more, rfl⟩ := hothers
  rcases number?_cases hgrown with ⟨r, p, hs, hi⟩ | ⟨r, n, place, hs, hn, hplace, hi⟩
  · exact hi ▸ number?_primitive hs
  · obtain ⟨k, rfl, rfl⟩ : ∃ k, place = some k ∧ i = Int.ofNat k := by
      cases place with
      | none => simp at hi
      | some k => exact ⟨k, rfl, by simpa using hi⟩
    exact (number?_composite hs hn).mpr (findEqual_append hplace)

end TypeTable

end TypedWire
