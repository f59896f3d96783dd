import TypedWire.Proofs.Action

/-! Relations of runs that are kept where runs are put together. Of two programs of one shape it is then
    enough to relate the steps that differ. -/

namespace TypedWire.Action

variable {σ : Type} {Rel : ∀ ⦃α : Type⦄, Action σ α → Action σ α → Prop}

/-- The relation is kept where both runs answer the same or give up alike, and where both go on from
    related runs with the same answer. -/
structure Congruence {σ : Type} (Rel : ∀ ⦃α : Type⦄, Action σ α → Action σ α → Prop) : Prop where
  answer : ∀ {α : Type} (a : α), Rel (pure a) (pure a)
  fault : ∀ {α : Type} (e : Fault), Rel (fail e : Action σ α) (fail e)
  seq : ∀ {α β : Type} {x y : Action σ α} {f g : α → Action σ β}, Rel x y → (∀ a, Rel (f a) (g a)) →
    Rel (x >>= f) (y >>= g)

namespace Congruence

variable {α ι : Type}

theorem mapM_mem (h : Congruence Rel) {x y : ι → Action σ α} : ∀ is : List ι,
    (∀ i ∈ is, Rel (x i) (y i)) → Rel (is.mapM x) (is.mapM y)
  | [], _ => h.answer []
  | i :: is, hxy => by
    obtain ⟨hi, his⟩ := List.forall_mem_cons.mp hxy
    rw [List.mapM_cons, List.mapM_cons]
    exact h.seq hi fun a => h.seq (h.mapM_mem is his) fun as => h.answer (a :: as)

theorem mapM (h : Congruence Rel) {x y : ι → Action σ α} (hxy : ∀ i, Rel (x i) (y i)) (is : List ι) :
    Rel (is.mapM x) (is.mapM y) :=
  h.mapM_mem is fun i _ => hxy i

theorem forM (h : Congruence Rel) {x y : ι → Action σ Unit} (hxy : ∀ i, Rel (x i) (y i)) : ∀ is : List ι,
    Rel (is.forM x) (is.forM y)
  | [] => h.answer ()
  | i :: is => h.seq (hxy i) fun _ => h.forM hxy is

theorem replicate (h : Congruence Rel) {x y : Action σ α} (hxy : Rel x y) : ∀ count,
    Rel (replicate count x) (replicate count y)
  | 0 => h.answer []
  | count + 1 => by
    rw [replicate_succ, replicate_succ]
    exact h.seq hxy fun a => h.seq (h.replicate hxy count) fun as => h.answer (a :: as)

theorem iterate (h : Congruence Rel) {x y : Action σ Unit} (hxy : Rel x y) : ∀ count,
    Rel (iterate x count) (iterate y count)
  | 0 => h.answer ()
  | count + 1 => h.seq hxy fun _ => h.iterate hxy count

end Congruence

end TypedWire.Action
