import TypedWire.Proofs.Schema.Follow
import TypedWire.Proofs.Session.Nesting

/-! Names that are bound after a message was opened. The types that its header brings lead to types of the
    same kind only, so none of them ever waits for a name; and what a type stands for stays the same. So
    whatever is bound in between, the arguments are read as they would have been without it. -/

namespace TypedWire

open TypedWire.Action

namespace Scope

variable {w w' : Scope} {own : TypeId → Prop} {t u : TypeId}

/-! ### The types of a header -/

theorem Closed.hops (h : w.Closed own) (ht : own t) (hu : w.Hops t u) : own u := by
  induction hu with
  | refl => exact ht
  | tail _ hhop ih =>
    obtain ⟨name, hname, hb⟩ := hhop
    obtain ⟨n, hn, -, -, hvar⟩ := h _ ih
    obtain rfl := Except.ok.inj (hname.symm.trans hn)
    obtain ⟨b, hbound, hown⟩ := hvar name rfl
    obtain rfl := Option.some.inj (hb.symm.trans hbound)
    exact hown

theorem Closed.not_lost (h : w.Closed own) (ht : own t) : ¬ w.Lost t := by
  obtain ⟨n, hn, -, -, hvar⟩ := h t ht
  rintro (⟨e, he⟩ | ⟨name, hname, hnone⟩)
  · exact absurd (hn.symm.trans he) (by simp)
  · obtain rfl := Except.ok.inj (hname.symm.trans hn)
    obtain ⟨b, hbound, -⟩ := hvar name rfl
    exact absurd (hnone.symm.trans hbound) (by simp)

/-- What a type of a header stands for, if anything, is settled: where it stands for nothing it leads
    round, and will do so for ever. -/
theorem Closed.follow_extends (h : w.Closed own) (ht : own t) (hw : w.Extends w') :
    w'.env.follow w'.store t = w.env.follow w.store t := by
  rcases follow_ends w t with ⟨r, hrun, -⟩ | ⟨hrun, u, hu, hend⟩
  · rw [hrun]
    exact followWithin_extends hw (Nat.add_le_add_right hw.hops 1) hrun
  · have hcircle : w.Circles u := hend.resolve_left (h.not_lost (h.hops ht hu))
    have hhop : ∀ a b, w.Hop a b → w'.Hop a b := fun _ _ => hw.hop
    have hreached : w'.Hops t u := Relation.ReflTransGen.mono hhop t u hu
    have hround : w'.Circles u := Relation.TransGen.mono hhop u u hcircle
    rw [hrun]
    exact follow_error_iff.mpr ⟨rfl, u, hreached, .inr hround⟩

theorem Closed.resolve_extends (h : w.Closed own) (ht : own t) (hw : w.Extends w') :
    w'.env.resolve w'.store t = w.env.resolve w.store t := by
  rw [Env.resolve, Env.resolve, h.follow_extends ht hw]
  cases hrun : w.env.follow w.store t with
  | error e => rfl
  | ok r =>
    obtain ⟨n, hn⟩ := StandsFor.of_follow hrun
    exact (hw.typeAt r n hn.node).trans hn.node.symm

theorem Closed.resolved_parts {n : TypeNode} (h : w.Closed own) (ht : own t)
    (hn : w.env.resolve w.store t = .ok n) : ∀ c ∈ TypeTable.parts n, own c := by
  obtain ⟨r, hr⟩ := standsFor_of_resolve hn
  obtain ⟨m, hm, -, hparts, -⟩ := h r (h.root ht hr)
  obtain rfl := Except.ok.inj (hr.node.symm.trans hm)
  exact hparts

end Scope

/-! ### Decoding -/

namespace Decode

variable {cx : Context} {base : Store} {own : TypeId → Prop} {s : State} {t : TypeId} {α : Type}

/-- The same with more names bound, where they can be. -/
def Context.bound (cx : Context) (wanted : List (String × TypeId)) : Context :=
  { cx with env := cx.env.insertAll wanted }

theorem along_read (x : Action Reader α) : Along Grown (read x) := fun s => by
  have hx : Runs x s.reader (fun _ _ => True) fun _ _ => True := by
    unfold Runs
    split <;> trivial
  exact runs_read (hx.mono (fun _ _ _ => ⟨.refl s.store, trivial⟩) fun _ _ _ => .refl s.store)

theorem resolve_bound (wanted : List (String × TypeId)) (h : Scope.Closed ⟨base, cx.env⟩ own) (ht : own t)
    (hs : s.store.types = base.types) : resolve (cx.bound wanted) t s = resolve cx t s := by
  have hextends : Scope.Extends ⟨base, cx.env⟩ ⟨base, cx.env.insertAll wanted⟩ :=
    Scope.extends_insertAll base wanted cx.env
  have hsame : (cx.bound wanted).env.resolve s.store t = cx.env.resolve s.store t :=
    calc (cx.bound wanted).env.resolve s.store t
        = (cx.env.insertAll wanted).resolve base t := Scope.resolve_congr _ hs t
      _ = cx.env.resolve base t := h.resolve_extends ht hextends
      _ = cx.env.resolve s.store t := (Scope.resolve_congr _ hs t).symm
  unfold resolve
  rw [hsame]

/-- On the types of a header, steps with more names bound are the same steps. -/
theorem walk_bound (wanted : List (String × TypeId)) (h : Scope.Closed ⟨base, cx.env⟩ own) :
    WalkOver own (fun _ x y => ∀ s : State, s.store.types = base.types → Agrees Grown s x y)
      (cx.bound wanted) cx where
  toCongruence := congruence_agrees fun _ _ hs htypes => hs.types.trans htypes
  read {_ x} _ s _ := (along_read x s).agrees
  putValue x s _ := (leads_put (Store.leads_putValue x s.store)).agrees
  putBytes bytes s _ := (leads_putBytes bytes).agrees
  resolve t ht hfg s hs := by
    have hresolve : Agrees Grown s (resolve (cx.bound wanted) t) (resolve cx t) :=
      ⟨resolve_bound wanted h ht hs, (leads_resolve hs).mono fun _ _ _ _ => trivial⟩
    refine hresolve.bind fun n s1 hs1 hrun => ?_
    obtain ⟨-, r, hr⟩ := ((leads_resolve hs).ok hrun).2
    exact hfg n (h.resolved_parts ht hr.resolve) s1 (hs1.types.trans hs)
  offset s _ := leads_offset.agrees
  spend n s _ := (leads_spend n).agrees

theorem value_bound (wanted : List (String × TypeId)) (h : Scope.Closed ⟨s.store, cx.env⟩ own) (ht : own t)
    (depth : Nat) : value (cx.bound wanted) depth t s = value cx depth t s :=
  ((walk_bound wanted h).value depth t ht s rfl).same

end Decode

/-! ### Sessions -/

/-- The same session with more names bound, where they can be. -/
def Session.bound (k : Session) (wanted : List (String × TypeId)) : Session :=
  { k with header := { k.header with env := k.header.env.insertAll wanted } }

namespace Session

/-- The state after bindings were asked for, one after another. -/
def State.bound (s : State) (wanted : List (String × TypeId)) : State :=
  wanted.foldl (fun s binding => ((Call.bind binding.1 binding.2).perform.outcome s).2) s

variable {s s' : State} {wanted : List (String × TypeId)} {t : TypeId} {k : Session} {store : Store}

theorem bind_outcome (s : State) (binding : String × TypeId) :
    ((Call.bind binding.1 binding.2).perform.outcome s).2 = ⟨s.session.bound [binding], s.store⟩ := by
  obtain ⟨name, type⟩ := binding
  cases henv : s.session.header.env.insert name type <;>
    simp [outcome, Call.perform, within, bound, Env.insertAll, Env.afterInsert, henv]

theorem bound_eq (s : State) : ∀ wanted : List (String × TypeId),
    s.bound wanted = ⟨s.session.bound wanted, s.store⟩
  | [] => rfl
  | binding :: wanted => by
    have hfirst : s.bound (binding :: wanted) = State.bound ⟨s.session.bound [binding], s.store⟩ wanted := by
      rw [← bind_outcome s binding]
      rfl
    rw [hfirst, bound_eq _ wanted]
    rfl

/-- Names that are bound do not change how the next argument is read. -/
theorem readNext_bound (h : s.Sane) (wanted : List (String × TypeId)) :
    readNext (s.bound wanted) = endAs (·.bound wanted) (readNext s) := by
  obtain ⟨k, store⟩ := s
  rw [bound_eq]
  cases harg : k.header.args[k.nextArg]? with
  | none =>
    have harg' : (k.bound wanted).header.args[(k.bound wanted).nextArg]? = none := harg
    rw [readNext_none harg, readNext_none harg', endAs, bound_eq]
  | some t =>
    have harg' : (k.bound wanted).header.args[(k.bound wanted).nextArg]? = some t := harg
    obtain ⟨own, hclosed, hargs⟩ := h
    have ht : own t := hargs t (List.mem_of_getElem? harg)
    have hvalue : Decode.value (k.context.bound wanted) k.config.maxDepth t (begun k store t) =
        Decode.value k.context k.config.maxDepth t (begun k store t) :=
      Decode.value_bound wanted hclosed ht k.config.maxDepth
    have hcontext : (k.bound wanted).context = k.context.bound wanted := rfl
    have hbegun : begun (k.bound wanted) store t = begun k store t := rfl
    have hbound : (k.bound wanted).config.maxDepth = k.config.maxDepth := rfl
    rw [readNext_closing harg, readNext_closing harg', hcontext, hbegun, hbound, hvalue]
    cases Decode.value k.context k.config.maxDepth t (begun k store t) <;>
      simp only [closing, endAs, bound_eq] <;> rfl

/-- Reads as many arguments as there are lists of bindings, each after the bindings of its list were asked
    for. -/
def readBinding : List (List (String × TypeId)) → Action State (List (TypeId × ValueId))
  | [] => pure []
  | wanted :: later => fun s => (do
      let found ← readNext
      let rest ← readBinding later
      return found :: rest : Action State (List (TypeId × ValueId))) (s.bound wanted)

theorem bound_append (s : State) (bindings wanted : List (String × TypeId)) :
    (s.bound bindings).bound wanted = s.bound (bindings ++ wanted) :=
  (List.foldl_append ..).symm

theorem readBinding_cons (wanted : List (String × TypeId)) (later : List (List (String × TypeId))) (s : State) :
    readBinding (wanted :: later) s =
      (readNext >>= fun found => readBinding later >>= fun rest => pure (found :: rest)) (s.bound wanted) :=
  rfl

/-- Where some names are bound already, and more are bound before each argument, the arguments are read as
    they are without any of them. -/
theorem readBinding_run : ∀ (later : List (List (String × TypeId))) {s : State}
    (bindings : List (String × TypeId)), s.Sane → ∃ bindings', readBinding later (s.bound bindings) =
      endAs (·.bound bindings') (Action.replicate later.length readNext s)
  | [], _, bindings, _ => ⟨bindings, rfl⟩
  | wanted :: later, s, bindings, hs => by
    have hread := readNext_bound hs (bindings ++ wanted)
    rw [← bound_append] at hread
    rw [List.length_cons, replicate_succ, readBinding_cons]
    cases hrun : readNext s with
    | error e s1 =>
      rw [hrun] at hread
      exact ⟨bindings ++ wanted,
        (bind_eq_error.mpr (.inl hread)).trans (by rw [bind_eq_error.mpr (.inl hrun)]; rfl)⟩
    | ok found s1 =>
      rw [hrun] at hread
      have hs1 : s1.Sane := hs.later (leads_readNext.ok hrun).1
      obtain ⟨bindings', hlater⟩ := readBinding_run later (bindings ++ wanted) hs1
      refine ⟨bindings', ?_⟩
      rw [bind_run hread, bind_run hrun]
      cases hrest : Action.replicate later.length readNext s1 with
      | error e s2 =>
        rw [hrest] at hlater
        exact (bind_eq_error.mpr (.inl hlater)).trans (by rw [bind_eq_error.mpr (.inl hrest)]; rfl)
      | ok rest s2 =>
        rw [hrest] at hlater
        rw [bind_run hlater, bind_run hrest]
        rfl

/-- What a type stands for is exact, and settled. A name is followed as often as it takes: what is answered
    is the node that the hops lead to, if they lead to one; a handle that is dead, a name that is not
    bound and a circle of names are all that is refused, and they are always. What was answered once is
    answered whatever is bound later, or refused to be bound, and whatever is put into the store. And
    whatever names are bound between the arguments of a message, they are read as without them: the same
    values, or the same fault, with the same left in the session and in the store but for those names. -/
theorem follow_settled :
    (∀ w : Scope, (∀ t r, w.env.follow w.store t = .ok r ↔ w.Hops t r ∧ w.Root r) ∧
      ∀ t e, w.env.follow w.store t = .error e ↔ e = .invalid ∧ w.Astray t) ∧
    (∀ (env : Env) (s s' : Store) (t r : TypeId) (wanted : List (String × TypeId)), s.Extends s' →
      env.follow s t = .ok r → (env.insertAll wanted).follow s' t = .ok r) ∧
    ∀ (bytes : List UInt8) (config : Config) (s : State) (made : List Value) (clean : Bool)
      (wanted : List (List (String × TypeId))), Run bytes config s made clean →
      ∃ bindings, readBinding wanted s = endAs (·.bound bindings) (Action.replicate wanted.length readNext s) := by
  refine ⟨fun w => ⟨fun t r => Scope.follow_ok_iff, fun t e => Scope.follow_error_iff⟩, ?_, ?_⟩
  · intro env s s' t r wanted hs hfollow
    exact Scope.follow_later hs wanted hfollow
  · intro bytes config s made clean wanted hrun
    exact readBinding_run wanted [] hrun.sane

/-- A text, a name bound to it, and a name bound to that name. -/
def chained : Scope where
  store := { types := #[.primitive .text, .var "b", .var "a"] }
  env := ⟨[("b", ⟨0⟩), ("a", ⟨1⟩)]⟩

/-- The chain takes every binding there is, and leads to the text, also after one name was refused to be
    bound again and another was bound. -/
theorem chained_settled : (chained.Hops ⟨2⟩ ⟨0⟩ ∧ chained.Root ⟨0⟩) ∧
    (chained.env.insertAll [("a", ⟨0⟩), ("c", ⟨2⟩)]).follow chained.store ⟨2⟩ = .ok ⟨0⟩ ∧
    ∃ session store, start numberMessage {} {} = .ok session store ∧
      ∃ bindings, readBinding [[("c", ⟨0⟩)]] ⟨session, store⟩ =
        endAs (·.bound bindings) (Action.replicate 1 readNext ⟨session, store⟩) := by
  have hfollow : chained.env.follow chained.store ⟨2⟩ = .ok ⟨0⟩ := by rfl
  have hstarts : (start numberMessage {}).passes {} (fun _ _ => true) = true := by decide +kernel
  obtain ⟨session, store, hstart, -⟩ := passes_iff.mp hstarts
  obtain ⟨hexact, hstable, hread⟩ := follow_settled
  exact ⟨((hexact chained).1 ⟨2⟩ ⟨0⟩).mp hfollow, hstable _ _ _ _ _ _ (.refl _) hfollow,
    session, store, hstart, hread numberMessage {} _ _ _ _ (.start hstart)⟩

end Session

end TypedWire
