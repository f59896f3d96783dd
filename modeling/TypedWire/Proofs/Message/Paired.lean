import TypedWire.Proofs.Message.Kept
import TypedWire.Proofs.Message.Mates

/-! Two messages that hold the same arguments, whatever is remembered in the one and not in the other.
    Each call adds the same to both, or fails on both for the same cause, as long as there is room for
    the nodes that it makes, and these do not bring a handle to life that was named before. -/

namespace TypedWire

/-- What is written for a value takes no more of a store than values and bytes. -/
theorem Output.valueWithin_congr {s s' : Store} (hvalues : s'.values = s.values)
    (hblocks : s'.blocks = s.blocks) : ∀ depth v, valueWithin s' depth v = valueWithin s depth v
  | 0, _ => rfl
  | depth + 1, v => by
    have hvalue : s'.valueAt v = s.valueAt v := by simp only [Store.valueAt, hvalues]
    have hbytes : s'.bytesAt = s.bytesAt := funext fun p => by simp only [Store.bytesAt, hblocks]
    have htext : s'.textAt = s.textAt := funext fun p => by simp only [Store.textAt, hbytes]
    have hparts : valueWithin s' depth = valueWithin s depth :=
      funext (valueWithin_congr hvalues hblocks depth)
    simp only [valueWithin, hvalue, hbytes, htext, hparts]

theorem Output.value_congr {s s' : Store} (hvalues : s'.values = s.values)
    (hblocks : s'.blocks = s.blocks) (v : ValueId) : value s' v = value s v := by
  have hdepth : s'.depthBound = s.depthBound := by simp only [Store.depthBound, hvalues]
  rw [value, value, hdepth, valueWithin_congr hvalues hblocks]

namespace Draft

open TypedWire.Action TypedWire.TypeTable

variable {R R' : TypeId → TypeId → Prop} {s s1 t t1 : State} {c d : TypeId} {p : Primitive}
variable {P : List UInt8 → Prop}

/-- Two messages with the same arguments, of types that are related, and with the same values in
    their stores. -/
structure Paired (R : TypeId → TypeId → Prop) (s t : State) : Prop where
  left : Kept s
  right : Kept t
  twin : Scope.Twin R s.scope t.scope
  entries : t.draft.table.entries = s.draft.table.entries
  registered : List.Forall₂ R s.draft.table.registered.toList t.draft.table.registered.toList
  args : List.Forall₂ (Akin R s.scope t.scope) s.draft.table.args.toList t.draft.table.args.toList
  values : t.draft.values = s.draft.values
  stored : t.store.values = s.store.values
  blocks : t.store.blocks = s.store.blocks

namespace Paired

theorem mates (h : Paired R s t) : Mates R s.scope t.scope s.draft.table t.draft.table :=
  ⟨h.entries, h.registered, h.left.faithful, h.right.faithful⟩

theorem size (h : Paired R s t) : t.draft.size = s.draft.size := by
  simpa [Draft.size] using h.args.length_eq.symm

/-- The two messages are written as the same bytes. -/
theorem encode (h : Paired R s t) : t.draft.encode t.store = s.draft.encode s.store := by
  have htable := h.mates.encode h.twin h.args h.left.args h.right.args
  simp only [State.scope] at htable
  simp only [Draft.encode, Header.encode, htable, h.values]

/-- What is put into the stores, and remembered, leaves the arguments as they are. -/
theorem moved (h : Paired R s t) (hs : Kept s1 ∧ Retains s s1) (ht : Kept t1 ∧ Retains t t1)
    (hR : ∀ a b, R a b → R' a b) (htwin : Scope.Twin R' s1.scope t1.scope) : Paired R' s1 t1 where
  left := hs.1
  right := ht.1
  twin := htwin
  entries := by rw [hs.2.entries, ht.2.entries, h.entries]
  registered := by
    rw [hs.2.registered, ht.2.registered]
    exact h.registered.imp hR
  args := by
    rw [hs.2.args, ht.2.args]
    refine h.args.imp fun c d hcd => ?_
    cases hcd with
    | related hcd => exact .related (hR c d hcd)
    | primitive hc hd => exact .primitive (hs.2.store.typeAt _ _ hc) (ht.2.store.typeAt _ _ hd)
  values := by rw [hs.2.values, ht.2.values, h.values]
  stored := by rw [hs.2.stored, ht.2.stored, h.stored]
  blocks := by rw [hs.2.blocks, ht.2.blocks, h.blocks]

/-- A name is bound in both, where the scopes show the same afterwards. -/
theorem bound {env : Env} (h : Paired R s t) (hs : s.scope.Extends ⟨s.store, env⟩)
    (ht : t.scope.Extends ⟨t.store, env⟩) (htwin : Scope.Twin R ⟨s.store, env⟩ ⟨t.store, env⟩) :
    Paired R { s with draft := { s.draft with env } } { t with draft := { t.draft with env } } where
  left := h.left.extends hs
  right := h.right.extends ht
  twin := htwin
  entries := h.entries
  registered := h.registered
  args := by
    refine h.args.imp fun c d hcd => ?_
    cases hcd with
    | related hcd => exact .related hcd
    | primitive hc hd => exact .primitive hc hd
  values := h.values
  stored := h.stored
  blocks := h.blocks

end Paired

/-- Related handles name in `s1` and `t1` what they named in `s` and `t`, be it a node or nothing. -/
def Still (R : TypeId → TypeId → Prop) (s s1 t t1 : State) : Prop :=
  ∀ a b, R a b →
    s1.store.typeAt a = s.store.typeAt a ∧ t1.store.typeAt b = t.store.typeAt b

theorem Paired.still (h : Paired R s t) (hs : Kept s1 ∧ Retains s s1) (ht : Kept t1 ∧ Retains t t1)
    (hstill : Still R s s1 t t1) : Paired R s1 t1 :=
  h.moved hs ht (fun _ _ => id) (h.twin.still hs.2.env ht.2.env hstill)

/-! ### One argument -/

/-- Two runs that give the same answer, and leave messages that are related by `post`. -/
def Agree (x y : Action State Unit) (s t : State) (post : State → State → Prop) : Prop :=
  (x.outcome s).1 = (y.outcome t).1 ∧ post (x.outcome s).2 (y.outcome t).2

theorem agree_ok {x y : Action State Unit} {post : State → State → Prop} (hx : x s = .ok () s1)
    (hy : y t = .ok () t1) (h : post s1 t1) : Agree x y s t post := by
  simp only [Agree, Action.outcome, hx, hy]
  exact ⟨trivial, h⟩

theorem agree_error {x y : Action State Unit} {post : State → State → Prop} {e : Fault}
    (hx : x s = .error e s1) (hy : y t = .error e t1) (h : post s1 t1) : Agree x y s t post := by
  simp only [Agree, Action.outcome, hx, hy]
  exact ⟨trivial, h⟩

/-- The same argument, of types that are related. -/
theorem paired_append (h : Paired R s t) (hcd : Akin R s.scope t.scope c d)
    {content content' : Store → Action Output Unit} (hw : Output.Writes (content s.store) P)
    (hcontent : content' t.store = content s.store) :
    Agree (append c content) (append d content') s t (Paired R) := by
  have hkept := kept_append h.left c hw
  have hkept' := kept_append h.right d (hcontent ▸ hw)
  have hfailed : ∀ {e s1 t1}, append c content s = .error e s1 → append d content' t = .error e t1 →
      Agree (append c content) (append d content') s t (Paired R) := by
    intro e s1 t1 hs ht
    obtain ⟨hleft, hstore⟩ := hkept.error hs
    obtain ⟨hright, hstore'⟩ := hkept'.error ht
    exact agree_error hs ht (h.still hleft hright fun a b _ => by rw [hstore, hstore']; exact ⟨rfl, rfl⟩)
  have hs := append_eq c content s
  have ht := append_eq d content' t
  rcases (mates_addArg h.twin h.mates hcd).ends with
    ⟨u, table, hrun, table', hrun', hm⟩ | ⟨e, table, hrun, table', hrun'⟩
  all_goals
    simp only [State.scope] at hrun hrun'
    simp only [hrun] at hs
    simp only [hrun', hcontent, h.values] at ht
  · cases hwrite : content s.store s.draft.values with
    | ok v values =>
      simp only [hwrite] at hs ht
      obtain ⟨hleft, -, -, hargs⟩ := hkept.ok hs
      obtain ⟨hright, -, -, hargs'⟩ := hkept'.ok ht
      replace hargs : table.args = s.draft.table.args.push c := hargs
      replace hargs' : table'.args = t.draft.table.args.push d := hargs'
      refine agree_ok hs ht ⟨hleft, hright, h.twin, hm.entries, hm.registered, ?_, rfl, h.stored, h.blocks⟩
      rw [hargs, hargs', Array.toList_push, Array.toList_push]
      exact List.rel_append h.args (.cons hcd .nil)
    | error e values =>
      simp only [hwrite] at hs ht
      exact hfailed hs ht
  · exact hfailed hs ht

/-! ### Calls that find room -/

/-- The store has no limit, or the run does not find it full. -/
def FindsRoom (x : Action State Unit) (s : State) : Prop :=
  s.store.limit = none ∨ (x.outcome s).1 ≠ .error .storeFull

theorem FindsRoom.not_full {x : Action State Unit} (h : FindsRoom x s) (hlimit : s.store.limit ≠ none) :
    x s ≠ .error .storeFull s1 := by
  intro hx
  refine h.elim hlimit fun hne => hne ?_
  simp only [Action.outcome, hx]

/-- Adding an argument of a type that is in the store makes no nodes. -/
theorem append_outcome (c : TypeId) (content : Store → Action Output Unit) (s : State) :
    ((append c content).outcome s).2.store = s.store ∧
      ((append c content).outcome s).2.draft.shared = s.draft.shared := by
  rw [Action.outcome, append_eq]
  cases TypeTable.addArg s.store s.draft.env c s.draft.table with
  | error e table => exact ⟨rfl, rfl⟩
  | ok u table =>
    simp only
    cases content s.store s.draft.values <;> exact ⟨rfl, rfl⟩

/-- With room for its type, a value by itself is added as an argument of the node of that type. -/
theorem addPrimitive_room (h : Kept s) {content : Action Output Unit}
    (hroom : FindsRoom (addPrimitive p content) s) :
    ∃ c s1, addPrimitive p content s = append c (fun _ => content) s1 ∧ (Kept s1 ∧ Retains s s1) ∧
      s1.store.typeAt c = .ok (.primitive p) := by
  rcases (kept_primitiveNode h p).ends with ⟨c, s1, hnode, h1, htable, hc⟩ | ⟨e, s1, hnode, rfl, rfl, hlimit⟩
  · exact ⟨c, s1, addPrimitive_eq content hnode h1.2 htable, h1, hc⟩
  · obtain ⟨s2, hrun, -⟩ := addPrimitive_full h content hnode
    exact absurd hrun (hroom.not_full hlimit)

/-- With room for its type, a byte string is added as an argument of a type that was not there. -/
theorem addBlob_room (h : Kept s) {bytes : List UInt8} (hroom : FindsRoom (addBlob bytes) s) :
    ∃ element type s1, addBlob bytes s = append type (fun _ => Output.blob bytes) s1 ∧
      (Kept s1 ∧ Retains s s1) ∧ s1.store.typeAt element = .ok (.primitive (.fixed .nat8)) ∧
      s1.store.typeAt type = .ok (.vec element) ∧ s.store.typeAt element = .error .invalid ∧
      s.store.typeAt type = .error .invalid := by
  rcases (kept_putType h (.primitive (.fixed .nat8))).ends with
    ⟨element, s1, hput, h1, -, helement, hnew⟩ | ⟨e, s1, hput, rfl, rfl, hlimit⟩
  · rcases (kept_putType h1.1 (.vec element)).ends with
      ⟨type, s2, hput', h2, -, htype, hnew'⟩ | ⟨e, s2, hput', rfl, rfl, hlimit⟩
    · refine ⟨element, type, s2, (bind_run hput).trans (bind_run hput'), ⟨h2.1, h1.2.trans h2.2⟩,
        h2.2.store.typeAt _ _ helement, htype, hnew, ?_⟩
      cases hn : s.store.typeAt type with
      | error e => rw [Scope.typeAt_fault hn]
      | ok n => exact absurd (hnew'.symm.trans (h1.2.store.typeAt _ _ hn)) (by simp)
    · rw [h1.2.store.limit] at hlimit
      exact absurd ((bind_run hput).trans (bind_eq_error.mpr (.inl hput'))) (hroom.not_full hlimit)
  · exact absurd (bind_eq_error.mpr (.inl hput)) (hroom.not_full hlimit)

/-- More handles may be related, if there is a node at them now. -/
def Widens (R R' : TypeId → TypeId → Prop) (s t : State) : Prop :=
  (∀ a b, R a b → R' a b) ∧ ∀ a b, R' a b → R a b ∨
    ∃ n m, s.store.typeAt a = .ok n ∧ t.store.typeAt b = .ok m ∧ n.Alike R' m

theorem Agree.of_eq {x x1 y y1 : Action State Unit} {post : State → State → Prop} (hx : x s = x1 s1)
    (hy : y t = y1 t1) (h : Agree x1 y1 s1 t1 post) : Agree x y s t post := by
  simp only [Agree, Action.outcome, hx, hy]
  exact h

theorem Agree.mono {x y : Action State Unit} {post post' : State → State → Prop}
    (h : Agree x y s t post) (hpost : post (x.outcome s).2 (y.outcome t).2 →
      post' (x.outcome s).2 (y.outcome t).2) : Agree x y s t post' :=
  ⟨h.1, hpost h.2⟩

/-- What names the same after an argument was added did so before. -/
theorem Still.before {x y : Action State Unit} {content content' : Store → Action Output Unit}
    (hstill : Still R s (x.outcome s).2 t (y.outcome t).2) (hx : x s = append c content s1)
    (hy : y t = append d content' t1) : Still R s s1 t t1 := by
  intro a b hab
  have hout : x.outcome s = (append c content).outcome s1 := by simp only [Action.outcome, hx]
  have hout' : y.outcome t = (append d content').outcome t1 := by simp only [Action.outcome, hy]
  have hnames := hstill a b hab
  rwa [hout, hout', (append_outcome c content s1).1, (append_outcome d content' t1).1] at hnames

theorem paired_addPrimitive (h : Paired R s t) {content : Action Output Unit}
    (hw : Output.Writes content P) (hroom : FindsRoom (addPrimitive p content) s)
    (hroom' : FindsRoom (addPrimitive p content) t)
    (hstill : Still R s ((addPrimitive p content).outcome s).2 t
      ((addPrimitive p content).outcome t).2) :
    Agree (addPrimitive p content) (addPrimitive p content) s t (Paired R) := by
  obtain ⟨c, s1, hs, h1, hc⟩ := addPrimitive_room h.left hroom
  obtain ⟨d, t1, ht, h1', hd⟩ := addPrimitive_room h.right hroom'
  have hpaired := h.still h1 h1' (hstill.before hs ht)
  exact (paired_append hpaired (.primitive hc hd) hw rfl).of_eq hs ht

theorem paired_addBlob (h : Paired R s t) {bytes : List UInt8} (hroom : FindsRoom (addBlob bytes) s)
    (hroom' : FindsRoom (addBlob bytes) t)
    (hstill : Still R s ((addBlob bytes).outcome s).2 t ((addBlob bytes).outcome t).2) :
    Agree (addBlob bytes) (addBlob bytes) s t fun s1 t1 => ∃ R', Paired R' s1 t1 ∧ Widens R R' s1 t1 := by
  obtain ⟨element, type, s1, hs, h1, helement, htype, hnew, hnew'⟩ := addBlob_room h.left hroom
  obtain ⟨element', type', t1, ht, h1', helement', htype', hfresh, hfresh'⟩ :=
    addBlob_room h.right hroom'
  have hw := Output.writes_blob bytes
  have hbefore := hstill.before hs ht
  -- A related handle names what it did, so it is none of those that were given out just now.
  have hother : ∀ a b, R a b → (a ≠ element ∧ a ≠ type) ∧ b ≠ element' ∧ b ≠ type' := by
    intro a b hab
    obtain ⟨ha, hb⟩ := hbefore a b hab
    refine ⟨⟨?_, ?_⟩, ?_, ?_⟩ <;> rintro rfl
    · simp [helement, hnew] at ha
    · simp [htype, hnew'] at ha
    · simp [helement', hfresh] at hb
    · simp [htype', hfresh'] at hb
  have hne : type ≠ element ∧ type' ≠ element' := by
    constructor <;> rintro rfl
    · simp [htype] at helement
    · simp [htype'] at helement'
  have htwin := (h.still h1 h1' hbefore).twin.pair helement helement' (.primitive _)
    fun a b hab => ⟨(hother a b hab).1.1, (hother a b hab).2.1⟩
  have htwin' := htwin.pair htype htype' (.vec (.inr ⟨rfl, rfl⟩)) fun a b hab => by
    rcases hab with hab | ⟨rfl, rfl⟩
    · exact ⟨(hother a b hab).1.2, (hother a b hab).2.2⟩
    · exact ⟨hne.1.symm, hne.2.symm⟩
  have hpaired := h.moved h1 h1' (fun _ _ hab => .inl (.inl hab)) htwin'
  refine ((paired_append hpaired (.related (.inr ⟨rfl, rfl⟩)) hw rfl).mono ?_).of_eq hs ht
  refine fun hend => ⟨_, hend, fun _ _ hab => .inl (.inl hab), fun a b hab => ?_⟩
  rw [(append_outcome type _ s1).1, (append_outcome type' _ t1).1]
  rcases hab with (hab | ⟨rfl, rfl⟩) | ⟨rfl, rfl⟩
  · exact .inl hab
  · exact .inr ⟨_, _, helement, helement', .primitive _⟩
  · exact .inr ⟨_, _, htype, htype', .vec (.inl (.inr ⟨rfl, rfl⟩))⟩

/-- The same call on messages that hold the same arguments: it adds the same to both, or fails on both
    for the same cause. -/
theorem paired_perform (h : Paired R s t) (call : Call)
    (htype : ∀ type value, call = .typed type value → R type type)
    (hroom : FindsRoom call.perform s) (hroom' : FindsRoom call.perform t)
    (hstill : Still R s (call.perform.outcome s).2 t (call.perform.outcome t).2) :
    Agree call.perform call.perform s t fun s1 t1 => ∃ R', Paired R' s1 t1 ∧ Widens R R' s1 t1 := by
  have hsame : ∀ s1 t1, Paired R s1 t1 → ∃ R', Paired R' s1 t1 ∧ Widens R R' s1 t1 :=
    fun _ _ hend => ⟨R, hend, fun _ _ => id, fun _ _ => .inl⟩
  cases call.shape with
  | typed type value =>
    refine (paired_append h (.related (htype type value rfl)) (Output.writes_valueWithin s.store _ value)
      ?_).mono (hsame _ _)
    exact Output.value_congr h.stored h.blocks value
  | blob bytes => exact paired_addBlob h hroom hroom' hstill
  | primitive hcall hw =>
    rw [hcall] at hroom hroom' hstill ⊢
    exact (paired_addPrimitive h hw hroom hroom' hstill).mono (hsame _ _)

/-! ### Messages in one store -/

/-- Two messages with the same arguments in the same store, with the same nodes for types without
    parts. -/
structure Same (s t : State) : Prop where
  paired : Paired (· = ·) s t
  store : t.store = s.store
  shared : t.draft.shared = s.draft.shared

theorem Kept.same (h : Kept s) : Same s s where
  paired := ⟨h, h, .refl s.scope, rfl, List.forall₂_same.mpr fun _ _ => rfl,
    List.forall₂_same.mpr fun _ _ => .related rfl, rfl, rfl, rfl⟩
  store := rfl
  shared := rfl

theorem Same.moved (h : Same s t) (hs : Kept s1 ∧ Retains s s1) (ht : Kept t1 ∧ Retains t t1)
    (hstore : t1.store = s1.store) (hshared : t1.draft.shared = s1.draft.shared) : Same s1 t1 := by
  have henv : t1.draft.env = s1.draft.env := by
    rw [ht.2.env, hs.2.env]
    exact h.paired.twin.env
  have hscope : t1.scope = s1.scope := by
    simp only [State.scope, hstore, henv]
  exact ⟨h.paired.moved hs ht (fun _ _ => id) (hscope ▸ .refl s1.scope), hstore, hshared⟩

theorem same_append (h : Same s t) (c : TypeId) {content : Store → Action Output Unit}
    (hw : Output.Writes (content s.store) P) :
    Agree (append c content) (append c content) s t Same := by
  refine (paired_append h.paired (.related rfl) hw (congrArg content h.store)).mono fun hend => ⟨hend, ?_, ?_⟩
  · rw [(append_outcome c content s).1, (append_outcome c content t).1, h.store]
  · rw [(append_outcome c content s).2, (append_outcome c content t).2, h.shared]

theorem same_putType (h : Same s t) (n : TypeNode) :
    Runs (put (Store.putType n)) s
      (fun c s1 => ∃ t1, put (Store.putType n) t = .ok c t1 ∧ Same s1 t1)
      fun e s1 => s1 = s ∧ put (Store.putType n) t = .error e t := by
  have hleft := kept_putType h.paired.left n
  have hright := kept_putType h.paired.right n
  cases hrun : Store.putType n s.store with
  | ok c store =>
    have hs : put (Store.putType n) s = .ok c { s with store } := by simp only [put, hrun]
    have ht : put (Store.putType n) t = .ok c { t with store } := by simp only [put, h.store, hrun]
    exact runs_of_ok hs ⟨_, ht, h.moved (hleft.ok hs).1 (hright.ok ht).1 rfl h.shared⟩
  | error e store =>
    have hs : put (Store.putType n) s = .error e { s with store } := by simp only [put, hrun]
    have ht : put (Store.putType n) t = .error e { t with store } := by simp only [put, h.store, hrun]
    refine runs_of_error hs ⟨(hleft.error hs).2.1, ?_⟩
    rw [ht, (hright.error ht).2.1]

theorem primitiveNode_eq (p : Primitive) (s : State) :
    primitiveNode p s =
      match s.draft.shared.lookup p with
      | some c => .ok c s
      | none =>
        match put (Store.putType (.primitive p)) s with
        | .ok c s1 => .ok c { s1 with draft := { s1.draft with shared := (p, c) :: s1.draft.shared } }
        | .error e s1 => .error e s1 := by
  have hget : primitiveNode p s = (match s.draft.shared.lookup p with
      | some c => pure c
      | none => do
        let c ← put (Store.putType (.primitive p))
        modify fun s => { s with draft := { s.draft with shared := (p, c) :: s.draft.shared } }
        return c : Action State TypeId) s := rfl
  rw [hget]
  cases s.draft.shared.lookup p with
  | some c => rfl
  | none =>
    change EStateM.bind _ _ s = _
    unfold EStateM.bind
    cases put (Store.putType (.primitive p)) s <;> rfl

theorem same_primitiveNode (h : Same s t) (p : Primitive) :
    Runs (primitiveNode p) s
      (fun c s1 => ∃ t1, primitiveNode p t = .ok c t1 ∧ Same s1 t1)
      fun e s1 => s1 = s ∧ primitiveNode p t = .error e t := by
  have hs := primitiveNode_eq p s
  have ht := primitiveNode_eq p t
  rw [h.shared] at ht
  cases hlookup : s.draft.shared.lookup p with
  | some c =>
    simp only [hlookup] at hs ht
    exact runs_of_ok hs ⟨t, ht, h⟩
  | none =>
    simp only [hlookup] at hs ht
    rcases (same_putType h (.primitive p)).ends with ⟨c, s1, hput, t1, hput', h1⟩ | ⟨e, s1, hput, rfl, hput'⟩
    · simp only [hput] at hs
      simp only [hput'] at ht
      refine runs_of_ok hs ⟨_, ht, h.moved ?_ ?_ h1.store (by simp only [h1.shared])⟩
      · exact ((kept_primitiveNode h.paired.left p).ok hs).1
      · exact ((kept_primitiveNode h.paired.right p).ok ht).1
    · simp only [hput] at hs
      simp only [hput'] at ht
      exact runs_of_error hs ⟨rfl, ht⟩

theorem same_addPrimitive (h : Same s t) {content : Action Output Unit} (hw : Output.Writes content P) :
    Agree (addPrimitive p content) (addPrimitive p content) s t Same := by
  rcases (same_primitiveNode h p).ends with ⟨c, s1, hs, t1, ht, h1⟩ | ⟨e, s1, hs, rfl, ht⟩
  · obtain ⟨hleft, htable, -⟩ := (kept_primitiveNode h.paired.left p).ok hs
    obtain ⟨hright, htable', -⟩ := (kept_primitiveNode h.paired.right p).ok ht
    have hrest : Agree (append c fun _ => content) (append c fun _ => content) s1 t1 Same :=
      same_append h1 c hw
    exact hrest.of_eq (addPrimitive_eq content hs hleft.2 htable)
      (addPrimitive_eq content ht hright.2 htable')
  · obtain ⟨s2, hrun, h2, hstore, hshared⟩ := addPrimitive_full h.paired.left content hs
    obtain ⟨t2, hrun', h2', hstore', hshared'⟩ := addPrimitive_full h.paired.right content ht
    refine agree_error hrun hrun' (h.moved h2 h2' ?_ ?_)
    · rw [hstore, hstore', h.store]
    · rw [hshared, hshared', h.shared]

theorem same_addBlob (h : Same s t) (bytes : List UInt8) :
    Agree (addBlob bytes) (addBlob bytes) s t Same := by
  rcases (same_putType h (.primitive (.fixed .nat8))).ends with
    ⟨element, s1, hs, t1, ht, h1⟩ | ⟨e, s1, hs, rfl, ht⟩
  · rcases (same_putType h1 (.vec element)).ends with ⟨type, s2, hs', t2, ht', h2⟩ | ⟨e, s2, hs', rfl, ht'⟩
    · exact (same_append h2 type (Output.writes_blob bytes)).of_eq ((bind_run hs).trans (bind_run hs'))
        ((bind_run ht).trans (bind_run ht'))
    · exact agree_error ((bind_run hs).trans (bind_eq_error.mpr (.inl hs')))
        ((bind_run ht).trans (bind_eq_error.mpr (.inl ht'))) h1
  · exact agree_error (bind_eq_error.mpr (.inl hs)) (bind_eq_error.mpr (.inl ht)) h

/-- The same call on messages in one store, whether there is room or not. -/
theorem same_perform (h : Same s t) (call : Call) : Agree call.perform call.perform s t Same := by
  cases call.shape with
  | typed type value => exact same_append h type (Output.writes_valueWithin s.store _ value)
  | blob bytes => exact same_addBlob h bytes
  | primitive hcall hw =>
    rw [hcall]
    exact same_addPrimitive h hw

end Draft

end TypedWire
