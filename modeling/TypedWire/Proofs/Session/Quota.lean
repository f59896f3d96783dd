import TypedWire.Proofs.Session.Cursor
import TypedWire.Proofs.Session.Dues
import TypedWire.Proofs.Session.SelfDelimiting

/-! A quota on what reading may cost only cuts a run short. What is charged does not go by the quota, so a
    run under one does the same, step by step, as the run without, up to the charge that is too much; and
    there it gives up for that. -/

namespace TypedWire

open TypedWire.Action

namespace Decode

variable {limit : Nat} {cx : Context} {s s1 s' : State} {α β : Type} {x y : Action State α}
variable {f g : α → Action State β} {P : State → α → State → Prop}

/-! ### One run with a limit, one without -/

/-- The cost has not gone down. -/
def Rising (s s' : State) : Prop := Cost.Onward s.cost s'.cost

instance : IsPreorder State Rising where
  refl s := refl_of Cost.Onward s.cost
  trans _ _ _ h h' := trans_of Cost.Onward h h'

/-- `y` does what `x` does as long as that costs no more than `limit`, and gives up where it costs
    more. -/
structure Curbs (limit : Nat) (x y : Action State α) : Prop where
  rises : Along Rising x
  within : ∀ s, s.cost ≤ Cost.most → (x.outcome s).2.cost ≤ limit → y s = x s
  beyond : ∀ s, s.cost ≤ Cost.most → s.cost ≤ limit → limit < (x.outcome s).2.cost →
    ∃ s', y s = .error .overflow s'

/-- What is not charged is not held against the limit. -/
theorem curbs_free (h : ∀ s, (x.outcome s).2.cost = s.cost) : Curbs limit x x where
  rises s := by
    have hcost := h s
    unfold outcome at hcost
    unfold Leads Runs Rising
    split
    · next hx => exact ⟨by simp only [hx] at hcost; exact hcost ▸ refl_of Cost.Onward s.cost, trivial⟩
    · next hx => simp only [hx] at hcost; exact hcost ▸ refl_of Cost.Onward s.cost
  within _ _ _ := rfl
  beyond s _ hle hover := absurd (h s) (by omega)

theorem curbs_idle (h : ∀ s, Leads Idle x s (P s)) : Curbs limit x x :=
  curbs_free fun s => (h s).outcome.cost

theorem curbs_pure (a : α) : Curbs limit (pure a) (pure a) := curbs_free fun _ => rfl

theorem curbs_fail (e : Fault) : Curbs limit (fail e : Action State α) (fail e) := curbs_free fun _ => rfl

theorem Curbs.bind (h : Curbs limit x y) (hf : ∀ a, Curbs limit (f a) (g a)) :
    Curbs limit (x >>= f) (y >>= g) where
  rises := Along.bind h.rises fun a => (hf a).rises
  within s hs hle := by
    cases hx : x s with
    | ok a s1 =>
      have hbind : (x >>= f) s = f a s1 := bind_run hx
      have hout : (x >>= f).outcome s = (f a).outcome s1 := by rw [outcome, outcome, hbind]
      have hon : Cost.Onward s.cost s1.cost := ((h.rises s).ok hx).1
      have hrest : Cost.Onward s1.cost ((f a).outcome s1).2.cost := ((hf a).rises s1).outcome
      rw [hout] at hle
      have hle1 : (x.outcome s).2.cost ≤ limit := by
        rw [outcome, hx]
        exact (hrest (hon hs).2).1.trans hle
      rw [hbind, bind_run ((h.within s hs hle1).trans hx), (hf a).within s1 (hon hs).2 hle]
    | error e s1 =>
      have hbind : (x >>= f) s = .error e s1 := bind_eq_error.mpr (.inl hx)
      rw [outcome, hbind] at hle
      have hy := h.within s hs (by rw [outcome, hx]; exact hle)
      rw [hbind, bind_eq_error.mpr (.inl (hy.trans hx))]
  beyond s hs hle hover := by
    cases hx : x s with
    | ok a s1 =>
      have hbind : (x >>= f) s = f a s1 := bind_run hx
      have hout : (x >>= f).outcome s = (f a).outcome s1 := by rw [outcome, outcome, hbind]
      have hon : Cost.Onward s.cost s1.cost := ((h.rises s).ok hx).1
      rw [hout] at hover
      by_cases hle1 : s1.cost ≤ limit
      · have hy := h.within s hs (by rw [outcome, hx]; exact hle1)
        rw [bind_run (hy.trans hx)]
        exact (hf a).beyond s1 (hon hs).2 hle1 hover
      · obtain ⟨s', hy⟩ := h.beyond s hs hle (by rw [outcome, hx]; exact Nat.lt_of_not_le hle1)
        exact ⟨s', bind_eq_error.mpr (.inl hy)⟩
    | error e s1 =>
      have hbind : (x >>= f) s = .error e s1 := bind_eq_error.mpr (.inl hx)
      rw [outcome, hbind] at hover
      obtain ⟨s', hy⟩ := h.beyond s hs hle (by rw [outcome, hx]; exact hover)
      exact ⟨s', bind_eq_error.mpr (.inl hy)⟩

theorem congruence_curbs (limit : Nat) : Congruence fun _ (x y : Action State _) => Curbs limit x y where
  answer := curbs_pure
  fault := curbs_fail
  seq := Curbs.bind

/-! ### Decoding -/

theorem curbs_read {x : Action Reader α} : Curbs limit (read x) (read x) := by
  refine curbs_free fun s => ?_
  unfold outcome read
  dsimp only
  cases x s.reader <;> rfl

theorem curbs_put {x : Action Store α} : Curbs limit (put x) (put x) := by
  refine curbs_free fun s => ?_
  unfold outcome put
  dsimp only
  cases x s.store <;> rfl

/-- The same work without a limit. -/
abbrev Context.free (cx : Context) : Context := { cx with quota := 0 }

/-- A charge is the one step that goes by the limit. -/
theorem curbs_spend (hlimit : 0 < cx.quota) (n : Nat) : Curbs cx.quota (spend cx.free n) (spend cx n) := by
  have hfree : ∀ s : State, spend cx.free n s = .ok () { s with
      cost := Cost.add s.cost n, log := cx.topics.note s.log (.cost n (Cost.add s.cost n)) } := by
    intro s
    unfold spend
    exact if_neg (Cost.not_exceeds _)
  have hexceeds : ∀ total, Cost.exceeds cx.quota total = true ↔ cx.quota < total := by
    intro total
    simp [Cost.exceeds, hlimit]
  constructor
  · intro s
    exact runs_of_ok (hfree s) ⟨Cost.onward_add _ n, trivial⟩
  · intro s _ hle
    rw [outcome, hfree] at hle
    rw [hfree]
    unfold spend
    exact if_neg fun hover => absurd ((hexceeds _).mp hover) (Nat.not_lt.mpr hle)
  · intro s _ _ hover
    rw [outcome, hfree] at hover
    unfold spend
    exact ⟨_, if_pos ((hexceeds _).mpr hover)⟩

theorem walk_curbs (cx : Context) (hlimit : 0 < cx.quota) :
    Walk (fun _ x y => Curbs cx.quota x y) cx.free cx where
  toCongruence := congruence_curbs cx.quota
  read _ := curbs_read
  put _ := curbs_put
  resolve t := curbs_idle fun _ => (idle_resolve : Leads Idle (resolve cx t) _ _)
  offset := curbs_free fun _ => rfl
  spend := curbs_spend hlimit

/-- Decoding a value under a quota. -/
theorem curbs_value (cx : Context) (hlimit : 0 < cx.quota) (depth : Nat) (t : TypeId) :
    Curbs cx.quota (value cx.free depth t) (value cx depth t) :=
  (walk_curbs cx hlimit).value depth t

end Decode

/-- The same configuration with another limit on what reading may cost. -/
def Config.under (config : Config) (quota : Nat) : Config := { config with decodingQuota := quota }

/-- The same session with another limit. -/
def Session.under (k : Session) (quota : Nat) : Session := { k with config := k.config.under quota }

namespace Session

/-- The same state with another limit. -/
def State.under (s : State) (quota : Nat) : State := ⟨s.session.under quota, s.store⟩

variable {quota quota' : Nat} {config : Config} {bytes : List UInt8} {store store' : Store}
variable {s s1 s' : State} {found : TypeId × ValueId} {e : Fault}

/-! ### Steps -/

/-- What a step of a session answers, and how the session stands then, if there is one. -/
structure Step where
  answer : Except Fault (Option (TypeId × ValueId))
  session : Option Session
  store : Store

/-- The same step of a session with another limit. -/
def Step.under (step : Step) (quota : Nat) : Step :=
  { step with session := step.session.map (·.under quota) }

/-- What has been charged when the step ends. -/
def Step.cost (step : Step) : Nat := step.session.elim 0 Session.cost

/-- What has been charged after some steps, of which the first begins at `start`. -/
def costAfter (start : Nat) (steps : List Step) : Nat := steps.foldl (fun _ step => step.cost) start

/-- The next `count` arguments are read one by one, until one fails. -/
def readings : (count : Nat) → State → List Step
  | 0, _ => []
  | count + 1, s =>
    match readNext s with
    | .ok found s' => ⟨.ok (some found), some s'.session, s'.store⟩ :: readings count s'
    | .error e s' => [⟨.error e, some s'.session, s'.store⟩]

/-- A whole session: it is opened, and its arguments are read, until a step fails or none is left. -/
def transcript (config : Config) (bytes : List UInt8) (store : Store) : List Step :=
  match start bytes config store with
  | .ok session store =>
    ⟨.ok none, some session, store⟩ :: readings session.header.args.length ⟨session, store⟩
  | .error e store => [⟨.error e, none, store⟩]

/-! ### Reading -/

/-- What reading an argument of type `t` makes of how its decoding ends. -/
def closing (k : Session) (t : TypeId) :
    EStateM.Result Fault Decode.State ValueId → EStateM.Result Fault State (TypeId × ValueId)
  | .ok v d => .ok (t, v) ⟨{ k with
      reader := d.reader, nextArg := k.nextArg + 1, cost := d.cost
      log := k.topics.note d.log (.argEnd k.nextArg d.reader.offset none) }, d.store⟩
  | .error e d => .error e ⟨{ k with
      cost := d.cost, log := k.topics.note d.log (.argEnd k.nextArg d.reader.offset (some e)) }, d.store⟩

theorem readNext_closing {k : Session} {t : TypeId} (harg : k.header.args[k.nextArg]? = some t) :
    readNext ⟨k, store⟩ =
      closing k t (Decode.value k.context k.config.maxDepth t (begun k store t)) := by
  have hread := readNext_eq store harg
  unfold note at hread
  unfold begun closing
  dsimp only at hread
  rw [hread]
  cases Decode.value k.context k.config.maxDepth t _ <;> rfl

/-- Reading under a quota ends as reading without one does, or gives up because that costs too much. -/
theorem readNext_under (hquota : 0 < quota) (hmost : s.session.cost ≤ Cost.most)
    (hle : s.session.cost ≤ quota) : Runs readNext (s.under 0)
    (fun found s1 => s1.session.cost ≤ quota ∧ readNext (s.under quota) = .ok found (s1.under quota) ∨
      quota < s1.session.cost ∧ ∃ s', readNext (s.under quota) = .error .overflow s')
    fun e s1 => s1.session.cost ≤ quota ∧ readNext (s.under quota) = .error e (s1.under quota) ∨
      quota < s1.session.cost ∧ ∃ s', readNext (s.under quota) = .error .overflow s' := by
  obtain ⟨k, store⟩ := s
  cases harg : k.header.args[k.nextArg]? with
  | none =>
    have hread : ∀ q, readNext (State.under ⟨k, store⟩ q) = .error .invalid (State.under ⟨k, store⟩ q) :=
      fun q => by
        have harg' : (k.under q).header.args[(k.under q).nextArg]? = none := harg
        simp only [State.under, readNext, harg']
    exact runs_of_error (hread 0) (.inl ⟨hle, hread quota⟩)
  | some t =>
    have hcurbs : Decode.Curbs quota (Decode.value (k.under 0).context k.config.maxDepth t)
        (Decode.value (k.under quota).context k.config.maxDepth t) :=
      Decode.curbs_value (k.under quota).context hquota k.config.maxDepth t
    have hread : ∀ q, readNext (State.under ⟨k, store⟩ q) =
        closing (k.under q) t (Decode.value (k.under q).context k.config.maxDepth t (begun k store t)) :=
      fun q => readNext_closing (show (k.under q).header.args[(k.under q).nextArg]? = some t from harg)
    have hwithin := hcurbs.within (begun k store t) hmost
    have hbeyond := hcurbs.beyond (begun k store t) hmost hle
    unfold outcome at hwithin hbeyond
    unfold Runs
    rw [hread 0, hread quota]
    cases hvalue : Decode.value (k.under 0).context k.config.maxDepth t (begun k store t) with
    | ok v d =>
      simp only [hvalue] at hwithin hbeyond
      refine (Nat.lt_or_ge quota d.cost).symm.imp (fun hd => ⟨hd, ?_⟩) fun hd => ⟨hd, ?_⟩
      · rw [hwithin hd]
        rfl
      · obtain ⟨d', hcut⟩ := hbeyond hd
        exact ⟨_, by rw [hcut]; rfl⟩
    | error e d =>
      simp only [hvalue] at hwithin hbeyond
      refine (Nat.lt_or_ge quota d.cost).symm.imp (fun hd => ⟨hd, ?_⟩) fun hd => ⟨hd, ?_⟩
      · rw [hwithin hd]
        rfl
      · obtain ⟨d', hcut⟩ := hbeyond hd
        exact ⟨_, by rw [hcut]; rfl⟩

/-- A session without a quota has none after a step. -/
theorem readNext_free (h : readNext (s.under 0) = .ok found s1) : s1.under 0 = s1 := by
  have hconfig : s1.session.config = s.session.config.under 0 := (leads_readNext.ok h).1.config
  obtain ⟨k, store⟩ := s1
  obtain ⟨header, config, topics, reader, nextArg, cost, skipCost, log⟩ := k
  obtain rfl : config = s.session.config.under 0 := hconfig
  rfl

/-- What has been charged before is charged after all steps too. -/
theorem le_costAfter : ∀ (count : Nat) (s : State), s.session.cost ≤ Cost.most →
    s.session.cost ≤ costAfter s.session.cost (readings count s)
  | 0, _, _ => Nat.le_refl _
  | count + 1, s, hmost => by
    unfold readings
    rcases (onward_readNext s).ends with ⟨found, s1, hread, hon, -⟩ | ⟨e, s1, hread, hon⟩
    · obtain ⟨hle, hmost1⟩ := hon.cost hmost
      simp only [hread]
      exact hle.trans (le_costAfter count s1 hmost1)
    · simp only [hread]
      exact (hon.cost hmost).1

/-- The steps of a run under a quota are those of the run without, or the first of them and then one that
    gives up because of the quota. -/
def Short (quota : Nat) (free limited : List Step) : Prop :=
  ∃ k < free.length, ∃ last, last.answer = .error .overflow ∧
    limited = (free.take k).map (·.under quota) ++ [last]

theorem Short.cons {step : Step} {free limited : List Step} (h : Short quota free limited) :
    Short quota (step :: free) (step.under quota :: limited) := by
  obtain ⟨k, hk, last, hlast, rfl⟩ := h
  exact ⟨k + 1, Nat.succ_lt_succ hk, last, hlast, rfl⟩

/-- A run that gives up at once. -/
theorem short_now {step last : Step} {free : List Step} (h : last.answer = .error .overflow) :
    Short quota (step :: free) [last] :=
  ⟨0, Nat.succ_pos _, last, h, rfl⟩

theorem readings_under (hquota : 0 < quota) : ∀ (count : Nat) (s : State), s.session.cost ≤ Cost.most →
    s.session.cost ≤ quota →
    (costAfter s.session.cost (readings count (s.under 0)) ≤ quota ∧
      readings count (s.under quota) = (readings count (s.under 0)).map (·.under quota)) ∨
    (quota < costAfter s.session.cost (readings count (s.under 0)) ∧
      Short quota (readings count (s.under 0)) (readings count (s.under quota)))
  | 0, _, _, hle => .inl ⟨hle, rfl⟩
  | count + 1, s, hmost, hle => by
    unfold readings
    rcases ((readNext_under hquota hmost hle).and (onward_readNext (s.under 0))).ends with
      ⟨found, s1, hread, hlimited, hon, -⟩ | ⟨e, s1, hread, hlimited, -⟩
    · have hmost1 : s1.session.cost ≤ Cost.most := (hon.cost hmost).2
      simp only [hread]
      rcases hlimited with ⟨hle1, hlimited⟩ | ⟨hover, s', hlimited⟩
      · have hrest := readings_under hquota count s1 hmost1 hle1
        rw [readNext_free hread] at hrest
        simp only [hlimited]
        refine hrest.imp (fun ⟨hcost, hsame⟩ => ⟨hcost, ?_⟩) fun ⟨hcost, hshort⟩ => ⟨hcost, hshort.cons⟩
        rw [hsame]
        rfl
      · simp only [hlimited]
        exact .inr ⟨hover.trans_le (le_costAfter count s1 hmost1), short_now rfl⟩
    · simp only [hread]
      rcases hlimited with ⟨hle1, hlimited⟩ | ⟨hover, s', hlimited⟩
      · simp only [hlimited]
        exact .inl ⟨hle1, rfl⟩
      · simp only [hlimited]
        exact .inr ⟨hover, short_now rfl⟩

/-! ### Sessions -/

/-- Opening a session does not go by the quota but for the charge at its end. -/
theorem start_under (config : Config) (bytes : List UInt8) (store : Store) :
    (∃ e store', ∀ q, start bytes (config.under q) store = .error e store') ∨
    ∃ (k : Session) (store' : Store), k.cost ≤ Cost.most ∧ ∀ q, start bytes (config.under q) store =
      if Cost.exceeds q k.cost then .error .overflow store' else .ok (k.under q) store' := by
  cases hparse : Header.parse bytes store with
  | error e store' => exact .inl ⟨e, store', fun q => bind_eq_error.mpr (.inl hparse)⟩
  | ok found store' =>
    obtain ⟨header, length⟩ := found
    let opened : Session := { header, config, reader := .ofBytes bytes length }
    let k : Session := { opened with
      cost := Cost.add 0 (4 * length)
      log := opened.topics.note opened.log (.cost (4 * length) (Cost.add 0 (4 * length))) }
    have hspend : ∀ q, ({ header, config := config.under q, reader := .ofBytes bytes length } :
        Session).spend (4 * length) = (if Cost.exceeds q k.cost then .error .overflow else .ok (), k.under q) := by
      intro q
      unfold spend
      dsimp only
      split
      · next hover => rw [if_pos (show Cost.exceeds q k.cost = true from hover)]; rfl
      · next hover => rw [if_neg (show ¬ Cost.exceeds q k.cost = true from hover)]; rfl
    refine .inr ⟨k, store', Nat.min_le_right _ _, fun q => (bind_run hparse).trans ?_⟩
    dsimp only
    rw [hspend]
    by_cases hover : Cost.exceeds q k.cost = true
    · rw [if_pos hover, if_pos hover]
      rfl
    · rw [if_neg hover, if_neg hover]
      rfl

theorem transcript_limited (config : Config) (bytes : List UInt8) (store : Store) (hquota : 0 < quota) :
    (costAfter 0 (transcript (config.under 0) bytes store) ≤ quota ∧
      transcript (config.under quota) bytes store =
        (transcript (config.under 0) bytes store).map (·.under quota)) ∨
    (quota < costAfter 0 (transcript (config.under 0) bytes store) ∧
      Short quota (transcript (config.under 0) bytes store)
        (transcript (config.under quota) bytes store)) := by
  unfold transcript
  rcases start_under config bytes store with ⟨e, store', hstart⟩ | ⟨k, store', hmost, hstart⟩
  · simp only [hstart]
    exact .inl ⟨Nat.zero_le quota, rfl⟩
  · have hfree : start bytes (config.under 0) store = .ok (k.under 0) store' := by
      rw [hstart, if_neg (Cost.not_exceeds _)]
    have hexceeds : Cost.exceeds quota k.cost = true ↔ quota < k.cost := by simp [Cost.exceeds, hquota]
    have hargs : ∀ q, (k.under q).header.args.length = k.header.args.length := fun _ => rfl
    simp only [hfree, hstart quota, hexceeds, hargs]
    by_cases hover : quota < k.cost
    · simp only [if_pos hover]
      exact .inr ⟨hover.trans_le (le_costAfter _ (State.under ⟨k, store'⟩ 0) hmost), short_now rfl⟩
    · simp only [if_neg hover]
      have hrest := readings_under hquota k.header.args.length ⟨k, store'⟩ hmost (Nat.le_of_not_lt hover)
      rcases hrest with ⟨hcost, hsame⟩ | ⟨hcost, hshort⟩
      · exact .inl ⟨hcost, congrArg (List.cons _) hsame⟩
      · exact .inr ⟨hcost, hshort.cons⟩

theorem Short.gives_up {free limited : List Step} (h : Short quota free limited) :
    ∃ step ∈ limited, step.answer = .error .overflow := by
  obtain ⟨k, -, last, hlast, rfl⟩ := h
  exact ⟨last, List.mem_append_right _ (List.mem_singleton_self last), hlast⟩

/-- The quota that a step is looked at with last is the one that counts. -/
theorem map_under_under (steps : List Step) :
    (steps.map (·.under quota)).map (·.under quota') = steps.map (·.under quota') := by
  rw [List.map_map]
  refine List.map_congr_left fun step _ => ?_
  obtain ⟨answer, session, store⟩ := step
  cases session <;> rfl

/-- A quota on what reading may cost only cuts a session short. If all that the session does without one
    costs no more, every step under the quota is the same; otherwise the session gives up because of the
    quota, at the last step without one or before, and every step until then is the same. So where all
    goes well under a quota, all goes the same under a larger one, and under none. -/
theorem transcript_under (config : Config) (bytes : List UInt8) (store : Store) (quota : Nat)
    (hquota : 0 < quota) :
    (costAfter 0 (transcript (config.under 0) bytes store) ≤ quota →
      transcript (config.under quota) bytes store =
        (transcript (config.under 0) bytes store).map (·.under quota)) ∧
    (quota < costAfter 0 (transcript (config.under 0) bytes store) →
      Short quota (transcript (config.under 0) bytes store)
        (transcript (config.under quota) bytes store)) ∧
    ∀ larger, (larger = 0 ∨ quota ≤ larger) →
      (∀ step ∈ transcript (config.under quota) bytes store, ∃ read, step.answer = .ok read) →
      (transcript (config.under larger) bytes store).map (·.under 0) =
        (transcript (config.under quota) bytes store).map (·.under 0) := by
  have hlimited := transcript_limited config bytes store hquota
  refine ⟨fun hle => ?_, fun hover => ?_, fun larger hlarger hok => ?_⟩
  · rcases hlimited with ⟨-, hsame⟩ | ⟨hover, -⟩
    · exact hsame
    · omega
  · rcases hlimited with ⟨hle, -⟩ | ⟨-, hshort⟩
    · omega
    · exact hshort
  · rcases hlimited with ⟨hle, hsame⟩ | ⟨-, hshort⟩
    · rw [hsame, map_under_under]
      rcases hlarger with rfl | hlarger
      · rfl
      · rcases transcript_limited config bytes store (hquota.trans_le hlarger) with ⟨-, hsame'⟩ | ⟨hover, -⟩
        · rw [hsame', map_under_under]
        · omega
    · obtain ⟨step, hstep, hanswer⟩ := hshort.gives_up
      obtain ⟨read, hread⟩ := hok step hstep
      exact absurd (hanswer.symm.trans hread) (by simp)

/-- A message that costs 45: 44 for the eleven bytes of its header, and one for its number. -/
theorem number_under : costAfter 0 (transcript (Config.under {} 0) numberMessage {}) = 45 ∧
    transcript (Config.under {} 45) numberMessage {} =
      (transcript (Config.under {} 0) numberMessage {}).map (·.under 45) ∧
    Short 44 (transcript (Config.under {} 0) numberMessage {})
      (transcript (Config.under {} 44) numberMessage {}) := by
  have hcost : costAfter 0 (transcript (Config.under {} 0) numberMessage {}) = 45 := by decide +kernel
  obtain ⟨hwithin, -, -⟩ := transcript_under {} numberMessage {} 45 (by decide)
  obtain ⟨-, hover, -⟩ := transcript_under {} numberMessage {} 44 (by decide)
  exact ⟨hcost, hwithin (by omega), hover (by omega)⟩

end Session

end TypedWire
