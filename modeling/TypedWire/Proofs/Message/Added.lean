import TypedWire.Proofs.Message.Enrolled
import TypedWire.Proofs.Message.Kept
import TypedWire.Proofs.Value.Written

/-! An argument is added to a message whenever its type is settled and its value holds a tree of that
    type, and a message to which such arguments were added can be written. -/

namespace TypedWire.Draft

open TypedWire.Action TypedWire.TypeTable

variable {own : TypeId → Prop} {s s' : State} {passed more : List (TypeId × Datum)}
variable {p : TypeId × ValueId} {q : TypeId × Datum} {pairs : List (TypeId × ValueId)}

/-- The message holds the arguments that were passed, and its types are among those. -/
structure Holding (own : TypeId → Prop) (s : State) (passed : List (TypeId × Datum)) : Prop
    extends Tracks s passed where
  kept : Kept s
  among : s.draft.table.Among own

theorem holding_start (own : TypeId → Prop) (env : Env) (store : Store) :
    Holding own ⟨{ env }, store⟩ [] := by
  have hw : Scope.Extends ⟨store, {}⟩ ⟨store, env⟩ := ⟨fun _ _ => id, by simp [Env.find?], Nat.zero_le _⟩
  exact ⟨(tracks_start store).extends hw, (kept_start store).extends hw, by simp [Among]⟩

/-- The first is a type among those and a value of the message's store, which holds the tree that is
    second, of the same type. -/
structure Fit (own : TypeId → Prop) (s : State) (p : TypeId × ValueId) (q : TypeId × Datum) : Prop where
  type : q.1 = p.1
  own : own p.1
  holds : ∃ depth, s.store.Holds depth p.2 q.2
  types : s.scope.Types Subtype.defaultDepth q.2 p.1

/-- Nothing has changed but the message, which holds the arguments. -/
structure Gained (own : TypeId → Prop) (s : State) (passed : List (TypeId × Datum)) (s' : State) :
    Prop where
  store : s'.store = s.store
  env : s'.draft.env = s.draft.env
  holding : Holding own s' passed

theorem Gained.scope (h : Gained own s passed s') : s'.scope = s.scope := by
  rw [State.scope, State.scope, h.store, h.env]

theorem Fit.gained (h : Fit own s p q) (hs : Gained own s passed s') : Fit own s' p q :=
  ⟨h.type, h.own, hs.store ▸ h.holds, hs.scope ▸ h.types⟩

/-- One argument is added. -/
theorem runs_addFit (hsettled : s.scope.Settled own) (h : Holding own s passed) (hfit : Fit own s p q) :
    Runs (add p.1 p.2) s (fun _ => Gained own s (passed ++ [q])) fun _ _ => False := by
  obtain ⟨_, value⟩ := p
  obtain ⟨type, d⟩ := q
  obtain ⟨rfl, hown, ⟨depth, hholds⟩, htypes⟩ := hfit
  dsimp only at hown hholds htypes ⊢
  obtain ⟨_, table, haddArg, -, hamong, -⟩ :=
    (runs_enrolArg hsettled h.kept.faithful h.among hown).succeeds
  simp only [State.scope] at haddArg
  obtain ⟨_, values, hwrite, -⟩ := (Output.goes_value hholds htypes s.draft.values).succeeds
  have hadd : add type value s = .ok () { s with draft := { s.draft with table, values } } := by
    have hwhole : add type value = append type fun store => Output.value store value := rfl
    rw [hwhole, append_eq]
    simp only [haddArg, hwrite]
  obtain ⟨hkept, -, -, hargs⟩ :=
    (kept_append h.kept type (Output.writes_valueWithin s.store _ value)).ok hadd
  have hends : Ends passed (.typed type value) _ := (runs_add h.toTracks type value).ok hadd
  have hlast : table.args.back? = some type := by
    rw [show table.args = s.draft.table.args.push type from hargs, Array.back?_push]
  have htracks := hends type d hlast ⟨rfl, ⟨depth, hholds⟩, htypes, hsettled.canonical hown⟩
  exact runs_of_ok hadd ⟨rfl, rfl, htracks, hkept, hamong⟩

/-- Any number of arguments are added, one after another. -/
theorem runs_addAll : ∀ {pairs : List (TypeId × ValueId)} {more passed : List (TypeId × Datum)}
    {s : State}, s.scope.Settled own → Holding own s passed → List.Forall₂ (Fit own s) pairs more →
    Runs (pairs.forM fun p => add p.1 p.2) s (fun _ => Gained own s (passed ++ more)) fun _ _ => False
  | [], [], passed, s, _, h, _ => runs_pure ⟨rfl, rfl, by rwa [List.append_nil]⟩
  | p :: pairs, q :: more, passed, s, hsettled, h, .cons hfirst hrest => by
    refine runs_bind ((runs_addFit hsettled h hfirst).post_mono ?_)
    rintro - s1 hs1
    have hsettled1 : s1.scope.Settled own := hs1.scope ▸ hsettled
    have hrest1 := runs_addAll hsettled1 hs1.holding (hrest.imp fun _ _ hfit => hfit.gained hs1)
    refine hrest1.post_mono fun _ s2 hs2 => ?_
    refine ⟨hs2.store.trans hs1.store, hs2.env.trans hs1.env, ?_⟩
    rw [← List.singleton_append, ← List.append_assoc]
    exact hs2.holding

/-- A message that holds its arguments can be written. -/
theorem Holding.encode_ok (h : Holding own s passed) : ∃ bytes, s.draft.encode s.store = .ok bytes := by
  have hlists : Lists s.scope s.draft.table s.draft.table.args.toList := ⟨h.table, rfl, h.kept.args⟩
  obtain ⟨header, hheader⟩ := Header.encode_ok hlists
  simp only [Draft.encode, Except.bind_eq_ok, Except.pure_eq_ok]
  exact ⟨_, header, hheader, rfl⟩

end TypedWire.Draft
