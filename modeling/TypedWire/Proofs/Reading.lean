import Mathlib.Computability.Language
import Mathlib.Data.List.Forall2
import TypedWire.Proofs.Reader
import TypedWire.Proofs.Store.Extends

/-! Runs that read on and put things into a store: each takes the bytes that are meant for it, whatever
    follows them, puts in no more bytes than it takes, and gives up only where the store runs out of room.
    Such runs are put together by one rule for each way in which they are written. -/

namespace TypedWire

open TypedWire.Action

/-- Where a state keeps its reader and its store, and what else is asked of it. -/
structure View (σ : Type) where
  reader : σ → Reader
  store : σ → Store
  Fit : σ → Prop

/-! ### Items one after another -/

section Items

variable {β : Type} {item : β → Language UInt8}

theorem mem_prod_cons {b : β} {items : List β} {bytes : List UInt8} :
    bytes ∈ ((b :: items).map item).prod ↔
      ∃ front ∈ item b, ∃ more ∈ (items.map item).prod, front ++ more = bytes := by
  rw [List.map_cons, List.prod_cons, Language.mem_mul]

theorem flatten_mem_prod {spell : β → List UInt8} : ∀ {items : List β},
    (∀ b ∈ items, spell b ∈ item b) → (items.map spell).flatten ∈ (items.map item).prod
  | [], _ => rfl
  | b :: items, h => by
    rw [List.forall_mem_cons] at h
    exact mem_prod_cons.mpr ⟨_, h.1, _, flatten_mem_prod h.2, rfl⟩

/-- Items that take a byte each are no more than their bytes. -/
theorem length_le_prod : ∀ {items : List β} {bytes : List UInt8},
    (∀ b ∈ items, ∀ front ∈ item b, 0 < front.length) → bytes ∈ (items.map item).prod →
    items.length ≤ bytes.length
  | [], _, _, _ => Nat.zero_le _
  | b :: items, bytes, hitem, h => by
    rw [List.forall_mem_cons] at hitem
    obtain ⟨front, hfront, more, hmore, rfl⟩ := mem_prod_cons.mp h
    have hpos := hitem.1 front hfront
    have hle := length_le_prod hitem.2 hmore
    rw [List.length_append, List.length_cons]
    omega

theorem length_le_flatten (spell : β → List UInt8) {items : List β}
    (hspell : ∀ b ∈ items, 0 < (spell b).length) : items.length ≤ (items.map spell).flatten.length := by
  have hflatten : (items.map spell).flatten ∈ (items.map fun b => ({spell b} : Language UInt8)).prod :=
    flatten_mem_prod fun _ _ => rfl
  refine length_le_prod (fun b hb => ?_) hflatten
  rintro _ rfl
  exact hspell b hb

end Items

theorem length_le_item {β : Type} (item : β → List UInt8) {items : List β} {b : β} (hb : b ∈ items) :
    (item b).length ≤ (items.map item).flatten.length :=
  (List.sublist_flatten_of_mem (List.mem_map_of_mem hb)).length_le

namespace View

variable {σ α β γ : Type} {view : View σ} {lengths : Nat → Prop} {base base' : Store}
variable {x step : Action σ α} {f : α → Action σ β} {bytes more : List UInt8} {m n : Nat}
variable {post post' : Store → α → Prop} {postB : Store → β → Prop}

/-- Wherever `bytes` come next and the store has grown from `base`, the run takes these bytes and no
    more, puts in byte strings of at most `n` bytes in all, and ends in `post`. It gives up only where the
    store runs out: it had no room for `n` bytes, and has come to a limit, or to a byte string of one of
    the `lengths`, which it does not take. -/
def Uses (view : View σ) (n : Nat) (lengths : Nat → Prop) (base : Store) (x : Action σ α)
    (bytes : List UInt8) (post : Store → α → Prop) : Prop :=
  ∀ (s : σ) (offset : Nat) (rest : List UInt8), view.Fit s → base.Extends (view.store s) →
    view.reader s = ⟨offset, some (bytes ++ rest)⟩ →
    Runs x s
      (fun a s' => view.Fit s' ∧ (view.store s).Extends (view.store s') ∧
        (view.store s).Spends n (view.store s') ∧
        view.reader s' = ⟨offset + bytes.length, some rest⟩ ∧ post (view.store s') a)
      fun e s' => e = .storeFull ∧ (view.store s).RunsOut n lengths (view.store s')

/-- The run takes the bytes, and puts in no more bytes than these. -/
def Takes (view : View σ) (lengths : Nat → Prop) (base : Store) (x : Action σ α) (bytes : List UInt8)
    (post : Store → α → Prop) : Prop := view.Uses bytes.length lengths base x bytes post

theorem uses_pure {a : α} (h : ∀ s, base.Extends s → post s a) :
    view.Uses 0 lengths base (pure a) [] post :=
  fun _ _ _ hfit hbase hreader => runs_pure ⟨hfit, .refl _, .refl _ 0, hreader, h _ hbase⟩

theorem Uses.le (h : view.Uses m lengths base x bytes post) (hle : m ≤ n) :
    view.Uses n lengths base x bytes post := by
  intro s offset rest hfit hbase hreader
  refine (h s offset rest hfit hbase hreader).mono ?_ ?_
  · rintro a s' ⟨hfit', hs, hspends, hreader', ha⟩
    exact ⟨hfit', hs, hspends.le hle, hreader', ha⟩
  · rintro e s' ⟨he, hout⟩
    exact ⟨he, hout.mono hle fun _ => id⟩

theorem Uses.mono (h : view.Uses n lengths base x bytes post)
    (hpost : ∀ s a, base.Extends s → post s a → post' s a) : view.Uses n lengths base x bytes post' := by
  intro s offset rest hfit hbase hreader
  refine (h s offset rest hfit hbase hreader).post_mono ?_
  rintro a s' ⟨hfit', hs, hspends, hreader', ha⟩
  exact ⟨hfit', hs, hspends, hreader', hpost _ a (hbase.trans hs) ha⟩

/-- What is made of the answer takes and puts in nothing. -/
theorem Uses.map {f : α → β} (h : view.Uses n lengths base x bytes post)
    (hf : ∀ s a, base.Extends s → post s a → postB s (f a)) :
    view.Uses n lengths base (do return f (← x)) bytes postB := by
  intro s offset rest hfit hbase hreader
  refine runs_bind ((h s offset rest hfit hbase hreader).post_mono ?_)
  rintro a s' ⟨hfit', hs, hspends, hreader', ha⟩
  exact runs_pure ⟨hfit', hs, hspends, hreader', hf _ a (hbase.trans hs) ha⟩

theorem Uses.bind (h : view.Uses m lengths base x bytes post)
    (hf : ∀ a s, base.Extends s → post s a → view.Uses n lengths s (f a) more postB) :
    view.Uses (m + n) lengths base (x >>= f) (bytes ++ more) postB := by
  intro s offset rest hfit hbase hreader
  rw [List.append_assoc] at hreader
  refine runs_bind ((h s offset _ hfit hbase hreader).mono ?_ ?_)
  · rintro a s1 ⟨hfit1, hs1, hspends1, hreader1, ha⟩
    refine (hf a _ (hbase.trans hs1) ha s1 _ rest hfit1 (.refl _) hreader1).mono ?_ ?_
    · rintro b s2 ⟨hfit2, hs2, hspends2, hreader2, hb⟩
      refine ⟨hfit2, hs1.trans hs2, hspends1.trans hspends2, ?_, hb⟩
      rw [hreader2, List.length_append, Nat.add_assoc]
    · rintro e s2 ⟨he, hout⟩
      exact ⟨he, hout.after hspends1 hs1.limit⟩
  · rintro e s1 ⟨he, hout⟩
    exact ⟨he, hout.mono (Nat.le_add_right m n) fun _ => id⟩

/-- What follows takes nothing more. -/
theorem Uses.last (h : view.Uses m lengths base x bytes post)
    (hf : ∀ a s, base.Extends s → post s a → view.Uses n lengths s (f a) [] postB) :
    view.Uses (m + n) lengths base (x >>= f) bytes postB := by
  have hall := h.bind hf
  rwa [List.append_nil] at hall

theorem Uses.takes (h : view.Uses n lengths base x bytes post) (hle : n ≤ bytes.length) :
    view.Takes lengths base x bytes post := h.le hle

theorem takes_pure {a : α} (h : ∀ s, base.Extends s → post s a) :
    view.Takes lengths base (pure a) [] post := uses_pure h

theorem Takes.mono (h : view.Takes lengths base x bytes post)
    (hpost : ∀ s a, base.Extends s → post s a → post' s a) : view.Takes lengths base x bytes post' :=
  Uses.mono h hpost

theorem Takes.later (h : view.Takes lengths base x bytes post) (hbase : base.Extends base') :
    view.Takes lengths base' x bytes post :=
  fun s offset rest hfit hs => h s offset rest hfit (hbase.trans hs)

theorem Takes.bind (h : view.Takes lengths base x bytes post)
    (hf : ∀ a s, base.Extends s → post s a → view.Takes lengths s (f a) more postB) :
    view.Takes lengths base (x >>= f) (bytes ++ more) postB :=
  (Uses.bind h hf).takes (Nat.le_of_eq List.length_append.symm)

/-- What follows takes nothing more. -/
theorem Takes.last (h : view.Takes lengths base x bytes post)
    (hf : ∀ a s, base.Extends s → post s a → view.Takes lengths s (f a) [] postB) :
    view.Takes lengths base (x >>= f) bytes postB := Uses.last h hf

/-- The same run again and again, on items that are spelled one after another. -/
theorem takes_items {item : γ → Language UInt8} {R : Store → γ → α → Prop}
    (hR : ∀ s s' c a, s.Extends s' → R s c a → R s' c a) : ∀ (cs : List γ) {base : Store}
    {bytes : List UInt8}, bytes ∈ (cs.map item).prod →
    (∀ c ∈ cs, ∀ front ∈ item c, view.Takes lengths base step front fun s => R s c) →
    view.Takes lengths base (Action.replicate cs.length step) bytes fun s => List.Forall₂ (R s) cs
  | [], _, _, rfl, _ => takes_pure fun _ _ => .nil
  | c :: cs, base, _, hbytes, h => by
    rw [List.forall_mem_cons] at h
    obtain ⟨front, hfront, more, hmore, rfl⟩ := mem_prod_cons.mp hbytes
    rw [List.length_cons, replicate_succ]
    refine (h.1 front hfront).bind fun a s hs ha => ?_
    have hrest : view.Takes lengths s (Action.replicate cs.length step) more
        fun s => List.Forall₂ (R s) cs :=
      takes_items hR cs hmore fun c hc front hfront => (h.2 c hc front hfront).later hs
    refine hrest.last fun as s' hs' has => takes_pure fun s'' hs'' => ?_
    exact .cons (hR s s'' c a (hs'.trans hs'') ha) (has.imp fun c a => hR s' s'' c a hs'')

/-- The same, where each item has one spelling. -/
theorem takes_replicate (item : γ → List UInt8) {R : Store → γ → α → Prop}
    (hR : ∀ s s' c a, s.Extends s' → R s c a → R s' c a) (cs : List γ)
    (h : ∀ c ∈ cs, view.Takes lengths base step (item c) fun s => R s c) :
    view.Takes lengths base (Action.replicate cs.length step) (cs.map item).flatten
      fun s => List.Forall₂ (R s) cs := by
  have hbytes : (cs.map item).flatten ∈ (cs.map fun c => ({item c} : Language UInt8)).prod :=
    flatten_mem_prod fun _ _ => rfl
  refine takes_items hR cs hbytes ?_
  rintro c hc _ rfl
  exact h c hc

end View

end TypedWire
