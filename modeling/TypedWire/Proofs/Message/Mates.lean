import TypedWire.Proofs.Message.Noted

/-! Two tables in scopes that show the same. If the same bytes are written for their slots, and related
    types took them, they are built further alike, whatever slots are noted in the one and not in the
    other: related types get the same numbers, or are refused for the same cause. -/

namespace TypedWire

theorem forall₂_within {α β : Type} {S : α → β → Prop} {xs : List α} {ys : List β}
    (h : List.Forall₂ S xs ys) : List.Forall₂ (fun x y => S x y ∧ x ∈ xs ∧ y ∈ ys) xs ys := by
  rw [List.forall₂_iff_zip] at h ⊢
  exact ⟨h.1, fun hxy => ⟨h.2 hxy, List.of_mem_zip hxy⟩⟩

theorem Except.mapM_congr {α β γ : Type} {f : α → Except Fault γ} {g : β → Except Fault γ} {xs : List α}
    {ys : List β} (h : List.Forall₂ (fun x y => f x = g y) xs ys) : xs.mapM f = ys.mapM g := by
  induction h with
  | nil => rfl
  | cons hxy _ ih => rw [List.mapM_cons, List.mapM_cons, hxy, ih]

namespace TypeTable

open TypedWire.Action

variable {w w' : Scope} {t t' : TypeTable} {R : TypeId → TypeId → Prop} {c d r r' : TypeId}
variable {n n' : TypeNode} {others others' types types' : List TypeId} {depth depth' : Nat}

/-! ### Writing -/

section Writing

variable {s s' : Store} {env env' : Env}

theorem encodeRefs_congr
    (h : List.Forall₂ (fun c d => t.encodeRef s env c = t'.encodeRef s' env' d) types types') :
    t.encodeRefs s env types = t'.encodeRefs s' env' types' := by
  rw [encodeRefs, encodeRefs, Except.mapM_congr h, h.length_eq]

/-- If the parts of two nodes that are alike are written alike, so are the nodes. -/
theorem encodeNode_congr (h : n.Alike (fun c d => t.encodeRef s env c = t'.encodeRef s' env' d) n') :
    t.encodeNode s env n = t'.encodeNode s' env' n' := by
  have hfields : ∀ {fs gs : List Field}, List.Forall₂ (fun f g => f.label.id = g.label.id ∧
      t.encodeRef s env f.type = t'.encodeRef s' env' g.type) fs gs →
      t.encodeFields s env fs = t'.encodeFields s' env' gs := by
    intro fs gs hfs
    rw [encodeFields, encodeFields, Except.mapM_congr (hfs.imp fun f g hfg => by rw [hfg.1, hfg.2]),
      hfs.length_eq]
  cases h with
  | primitive p => rfl
  | opt h | vec h => simp only [encodeNode, h, TypeNode.kind]
  | record h | variant h => simp only [encodeNode, hfields h, TypeNode.kind]
  | func ha hr hm => simp only [encodeNode, encodeRefs_congr ha, encodeRefs_congr hr, hm, TypeNode.kind]
  | service h =>
    have hmethods := Except.mapM_congr (f := fun m : Method => do
        let name := utf8 m.name
        return Leb128.encodeUnsigned name.length ++ name ++ (← t.encodeRef s env m.type))
      (g := fun m : Method => do
        let name := utf8 m.name
        return Leb128.encodeUnsigned name.length ++ name ++ (← t'.encodeRef s' env' m.type))
      (h.imp fun m k hmk => by rw [hmk.1, hmk.2])
    simp only [encodeNode, encodeMethods, hmethods, h.length_eq, TypeNode.kind]

end Writing

/-! ### Tables that agree -/

/-- Related types, or two nodes of the same type without parts. -/
inductive Akin (R : TypeId → TypeId → Prop) (w w' : Scope) : TypeId → TypeId → Prop where
  | related {c d : TypeId} : R c d → Akin R w w' c d
  | primitive {c d : TypeId} {p : Primitive} : w.store.typeAt c = .ok (.primitive p) →
      w'.store.typeAt d = .ok (.primitive p) → Akin R w w' c d

/-- Two tables with the same entries, of types that are related. -/
structure Mates (R : TypeId → TypeId → Prop) (w w' : Scope) (t t' : TypeTable) : Prop where
  entries : t'.entries = t.entries
  registered : List.Forall₂ R t.registered.toList t'.registered.toList
  left : t.Faithful w
  right : t'.Faithful w'

theorem Akin.number?_eq (htwin : Scope.Twin R w w') (hothers : List.Forall₂ R others others')
    (h : Akin R w w' c d) : number? w others c = number? w' others' d := by
  cases h with
  | related h => exact number?_twin htwin hothers h
  | primitive hc hd =>
    rw [number?_primitive (.of_node hc (by simp)), number?_primitive (.of_node hd (by simp))]

/-- The same is written for two types that have numbers. -/
theorem Mates.encodeRef (h : Mates R w w' t t') (htwin : Scope.Twin R w w') (hcd : Akin R w w' c d)
    (hc : t.Numbered w c) (hd : t'.Numbered w' d) :
    t.encodeRef w.store w.env c = t'.encodeRef w'.store w'.env d := by
  obtain ⟨i, hi, hwritten⟩ := h.left.encodeRef hc
  obtain ⟨j, hj, hwritten'⟩ := h.right.encodeRef hd
  have hnumber := hi.symm.trans ((hcd.number?_eq htwin h.registered).trans hj)
  obtain rfl : i = j := by simpa using hnumber
  rw [hwritten, hwritten']

/-- Two tables with the same arguments are written as the same bytes. -/
theorem Mates.encode (h : Mates R w w' t t') (htwin : Scope.Twin R w w')
    (hargs : List.Forall₂ (Akin R w w') t.args.toList t'.args.toList)
    (hc : ∀ c ∈ t.args.toList, t.Numbered w c) (hd : ∀ d ∈ t'.args.toList, t'.Numbered w' d) :
    t.encode w.store w.env = t'.encode w'.store w'.env := by
  have hrefs := (forall₂_within hargs).imp fun c d hcd =>
    h.encodeRef htwin hcd.1 (hc c hcd.2.1) (hd d hcd.2.2)
  simp only [TypeTable.encode, encodeRefs_congr hrefs, TypeTable.size, h.entries]

/-! ### Registering -/

/-- What registering a new type comes to. -/
theorem registerNew_eq (w : Scope) (depth : Nat) (c r : TypeId) (n : TypeNode) (t : TypeTable) :
    registerNew w depth c r n t =
      match ((parts n).forM fun part => do let _ ← registerWithin w.store w.env depth part)
          (t.entered c r) with
      | .error e t1 => .error e t1
      | .ok _ t1 =>
        match t1.encodeNode w.store w.env n with
        | .error e => .error e t1
        | .ok entry =>
          .ok t.entries.size { t1 with entries := t1.entries.setIfInBounds t.entries.size entry } := by
  change EStateM.bind _ _ (t.entered c r) = _
  unfold EStateM.bind
  split
  · next t1 hparts =>
    rw [hparts]
    change EStateM.bind (Action.ofExcept (t1.encodeNode w.store w.env n)) _ t1 =
      match t1.encodeNode w.store w.env n with
      | .error e => .error e t1
      | .ok entry => _
    cases t1.encodeNode w.store w.env n <;> rfl
  · next e t1 hparts => rw [hparts]

/-- The second run ends as the first does: with the same answer and tables that agree, or with the
    same fault. -/
def Alongside {α : Type} (R : TypeId → TypeId → Prop) (w w' : Scope) (x y : Action TypeTable α)
    (t t' : TypeTable) : Prop :=
  Runs x t (fun a t1 => ∃ t1', y t' = .ok a t1' ∧ Mates R w w' t1 t1')
    fun e _ => ∃ t1', y t' = .error e t1'

/-- Types that are met one inside the other are all registered, so fewer than `depth` more are met. -/
def Within (w : Scope) (depth : Nat) (t : TypeTable) : Prop :=
  w.store.types.size < depth + t.registered.size

theorem Within.later (hr : t.registered.toList <+: t'.registered.toList) (h : Within w depth t) :
    Within w depth t' := by
  have hle : t.registered.size ≤ t'.registered.size := by simpa using hr.length_le
  exact Nat.lt_of_lt_of_le h (Nat.add_le_add_left hle depth)

theorem Within.entered (h : Within w (depth + 1) t) : Within w depth (t.entered c r) := by
  unfold Within at h ⊢
  simp only [TypeTable.entered, Array.size_push]
  omega

theorem Within.pos (h : Within w depth t) (ht : t.Faithful w) : 0 < depth := by
  have := ht.size_le
  unfold Within at h
  omega

section Registering

variable (hregister : ∀ (c d : TypeId) (t t' : TypeTable), Mates R w w' t t' → Within w depth t →
  Within w' depth' t' → Akin R w w' c d → Alongside R w w' (registerWithin w.store w.env depth c)
    (registerWithin w'.store w'.env depth' d) t t')

include hregister

theorem mates_parts (htypes : List.Forall₂ R types types') : ∀ {t t' : TypeTable},
    Mates R w w' t t' → Within w depth t → Within w' depth' t' →
    Alongside R w w' (types.forM fun part => do let _ ← registerWithin w.store w.env depth part)
      (types'.forM fun part => do let _ ← registerWithin w'.store w'.env depth' part) t t' := by
  induction htypes with
  | nil => exact fun h _ _ => runs_pure ⟨_, rfl, h⟩
  | @cons c d _ _ hcd _ ih =>
    intro t t' h hin hin'
    have hfirst := Runs.and (hregister c d t t' h hin hin' (.related hcd))
      (further_registerWithin depth t c h.left)
    refine runs_bind (runs_bind (hfirst.mono ?_ ?_))
    · rintro i t1 ⟨⟨t1', hrun, hm⟩, hf, -⟩
      have hf' := (further_registerWithin _ t' d h.right).ok hrun
      have hone : (do let _ ← registerWithin w'.store w'.env depth' d : Action TypeTable Unit) t' =
          .ok () t1' := bind_run hrun
      have hrest := ih hm (hin.later hf.registered) (hin'.later hf'.1.registered)
      refine runs_pure (Runs.mono hrest ?_ ?_)
      · rintro a t2 ⟨t2', hrest', hm2⟩
        exact ⟨t2', (bind_run hone).trans hrest', hm2⟩
      · rintro e t2 ⟨t2', hrest'⟩
        exact ⟨t2', (bind_run hone).trans hrest'⟩
    · rintro e t1 ⟨⟨t1', hrun⟩, -⟩
      exact ⟨t1', bind_eq_error.mpr (.inl (bind_eq_error.mpr (.inl hrun)))⟩

theorem mates_registerNew (htwin : Scope.Twin R w w') (h : Mates R w w' t t')
    (hin : Within w (depth + 1) t) (hin' : Within w' (depth' + 1) t') (hs : w.StandsFor c r n)
    (hs' : w'.StandsFor d r' n') (hr : R r r') (hn : n.Alike R n') (hprim : n.kind.isPrimitive = false)
    (hnew : findEqual w.store w.env r 0 t.registered.toList = .ok none)
    (hnew' : findEqual w'.store w'.env r' 0 t'.registered.toList = .ok none) :
    Alongside R w w' (registerNew w depth c r n) (registerNew w' depth' d r' n') t t' := by
  have hprim' : n'.kind.isPrimitive = false := hn.isPrimitive_eq ▸ hprim
  have hf := h.left.entered hs hprim hnew
  have hf' := h.right.entered hs' hprim' hnew'
  have hentered : Mates R w w' (t.entered c r) (t'.entered d r') := by
    refine ⟨by simp only [TypeTable.entered, h.entries], ?_, hf.faithful, hf'.faithful⟩
    simp only [TypeTable.entered, Array.toList_push]
    exact List.rel_append h.registered (.cons hr .nil)
  have hparts := mates_parts hregister hn.parts hentered hin.entered hin'.entered
  unfold Alongside Runs
  rw [registerNew_eq, registerNew_eq]
  rcases hparts.ends with ⟨_, t1, hrun, t1', hrun', hm⟩ | ⟨e, t1, hrun, t1', hrun'⟩
  · have hleft := (further_parts (further_registerWithin depth) _ _ hf.faithful).ok hrun
    have hright := (further_parts (further_registerWithin depth') _ _ hf'.faithful).ok hrun'
    have hwritten : t1.encodeNode w.store w.env n = t1'.encodeNode w'.store w'.env n' :=
      encodeNode_congr (hn.within.mono fun a b hab => hm.encodeRef htwin (.related hab.1)
        (hleft.2.1 a hab.2.1) (hright.2.1 b hab.2.2))
    simp only [hrun, hrun', ← hwritten, h.entries]
    cases t1.encodeNode w.store w.env n with
    | error e => exact ⟨_, rfl⟩
    | ok entry =>
      refine ⟨_, rfl, ?_, hm.registered, hm.left.fill entry, hm.right.fill entry⟩
      simp only [hm.entries]
  · simp only [hrun, hrun']
    exact ⟨_, rfl⟩

end Registering

theorem mates_registerWithin (htwin : Scope.Twin R w w') : ∀ (depth depth' : Nat) (c d : TypeId)
    (t t' : TypeTable), Mates R w w' t t' → Within w depth t → Within w' depth' t' →
    Akin R w w' c d → Alongside R w w' (registerWithin w.store w.env depth c)
      (registerWithin w'.store w'.env depth' d) t t'
  | 0, _, _, _, _, _, h, hin, _, _ => absurd (hin.pos h.left) (Nat.lt_irrefl 0)
  | _ + 1, 0, _, _, _, _, h, _, hin', _ => absurd (hin'.pos h.right) (Nat.lt_irrefl 0)
  | depth + 1, depth' + 1, c, d, t, t', h, hin, hin', hcd => by
    have hnumber := hcd.number?_eq htwin h.registered
    have hmeets := meets_registerWithin h.left depth c
    have hmeets' := meets_registerWithin h.right depth' d
    rw [← hnumber] at hmeets'
    generalize number? w t.registered.toList c = number at hnumber hmeets hmeets'
    unfold Alongside Runs
    cases hmeets with
    | found _ hrun _ hf _ =>
      cases hmeets' with
      | found _ hrun' _ hf' _ =>
        rw [hrun]
        exact ⟨_, hrun', h.entries, h.registered, hf, hf'⟩
    | fault hrun =>
      cases hmeets' with
      | fault hrun' =>
        rw [hrun]
        exact ⟨_, hrun'⟩
    | new hs hprim hnew hrun =>
      cases hmeets' with
      | new hs' _ hnew' hrun' =>
        rw [hrun, hrun']
        cases hcd with
        | primitive hc _ =>
          obtain rfl := hs.node_eq (.of_node hc (by simp))
          exact absurd hprim (by simp [TypeNode.kind, Kind.isPrimitive])
        | related hcd =>
          obtain ⟨r', n', hs1, hr, hn⟩ := htwin.mirrors.standsFor hcd hs
          obtain rfl := hs1.root_eq hs'
          obtain rfl := hs1.node_eq hs'
          exact mates_registerNew (mates_registerWithin htwin depth depth') htwin h hin hin' hs hs' hr hn
            hprim hnew hnew'

/-- Adding an argument of related types to tables that agree. -/
theorem mates_addArg (htwin : Scope.Twin R w w') (h : Mates R w w' t t') (hcd : Akin R w w' c d) :
    Alongside R w w' (addArg w.store w.env c) (addArg w'.store w'.env d) t t' := by
  have hin : ∀ (w : Scope) (t : TypeTable), Within w (w.store.types.size + 1) t := by
    intro w t
    unfold Within
    omega
  have hrun := mates_registerWithin htwin _ _ c d t t' h (hin w t) (hin w' t') hcd
  refine runs_bind (Runs.mono hrun ?_ ?_)
  · rintro i t1 ⟨t1', hrun', hm⟩
    refine runs_of_ok rfl ⟨_, bind_run hrun', hm.entries, hm.registered, ?_, ?_⟩
    · exact ⟨hm.left.size, hm.left.root, hm.left.distinct, hm.left.noted⟩
    · exact ⟨hm.right.size, hm.right.root, hm.right.distinct, hm.right.noted⟩
  · rintro e t1 ⟨t1', hrun'⟩
    exact ⟨t1', bind_eq_error.mpr (.inl hrun')⟩

end TypeTable

end TypedWire
