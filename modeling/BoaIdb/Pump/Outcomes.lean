import BoaIdb.Pump.Quiet

/-!
How transactions end.

A transaction is committed and then reported complete, or it is taken out to be aborted and then
reported aborted. Its end is in the hands of whoever takes its handle: handlers that run in
between find none, and can neither end it again nor report it.
-/

namespace BoaIdb.Pump

open Callbacks

/-- What is done to end a transaction. -/
inductive Milestone
  | commit
  | complete
  | aborting
  | abort
  | startFailed
  deriving DecidableEq, Repr

def Event.milestone (txnId : TxnId) : Event → Option Milestone
  | .commit txn _ _ => if txn = txnId then some .commit else none
  | .complete txn => if txn = txnId then some .complete else none
  | .aborting txn _ => if txn = txnId then some .aborting else none
  | .abort txn => if txn = txnId then some .abort else none
  | .startFailed txn => if txn = txnId then some .startFailed else none
  | _ => none

/-- What has been done to end a transaction, in order. -/
def State.life (s : State) (txnId : TxnId) : List Milestone :=
  s.trace.filterMap (Event.milestone txnId)

/-- The ways a transaction ends. One whose backend did not start may still be aborted. -/
def lives : List (List Milestone) :=
  [[.commit, .complete], [.aborting, .abort], [.startFailed, .aborting, .abort]]

/-- On one of the ways. -/
def Begun (life : List Milestone) : Prop := ∃ whole ∈ lives, life <+: whole

instance (life : List Milestone) : Decidable (Begun life) :=
  inferInstanceAs (Decidable (∃ whole ∈ lives, life <+: whole))

/-- The transaction had a handle, and has none. -/
def State.Gone (s : State) (txnId : TxnId) : Prop :=
  s.txnObjects txnId ≠ none ∧ s.txns txnId = none

/-- The end of a transaction has been reported, and the driver does not find its object. -/
structure State.Closed (s : State) (txnId : TxnId) : Prop where
  whole : s.life txnId ∈ lives
  unregistered : s.registered txnId = false

/-- The invariant. -/
structure Living (s : State) : Prop where
  fresh : ∀ id, s.txnObjects id ≠ none → id < s.nextTxnId
  handles : ∀ id handle, s.txns id = some handle → s.registered id = true ∧
    s.life id = if handle.finished then [.startFailed] else []
  unknown : ∀ id, s.txnObjects id = none → s.life id = []
  begun : ∀ id, Begun (s.life id)
  /-- An upgrade has its backend from the start. -/
  upgrades : ∀ o ∈ s.opens, ∀ id, o.upgradeTxnId = some id → s.txnObjects id ≠ none ∧
    ∀ handle, s.txns id = some handle → handle.backend = true ∧ handle.finished = false

/-- What becomes of one transaction: if it was gone, nothing; if it goes, its end is reported. -/
structure Passes (s s' : State) (id : TxnId) : Prop where
  gone : s.Gone id → s'.Gone id ∧ s'.life id = s.life id ∧ s'.registered id = s.registered id
  ends : s'.Gone id → ¬s.Gone id → s'.Closed id

theorem Passes.refl (s : State) (id : TxnId) : Passes s s id :=
  ⟨fun h => ⟨h, rfl, rfl⟩, fun h hnot => absurd h hnot⟩

theorem Passes.trans {s s' s'' : State} {id : TxnId} (h : Passes s s' id)
    (h' : Passes s' s'' id) : Passes s s'' id where
  gone hgone := by
    obtain ⟨hgone', hlife, hregistered⟩ := h.gone hgone
    obtain ⟨hgone'', hlife', hregistered'⟩ := h'.gone hgone'
    exact ⟨hgone'', hlife'.trans hlife, hregistered'.trans hregistered⟩
  ends hgone'' hnot := by
    by_cases hgone' : s'.Gone id
    · obtain ⟨hwhole, hunregistered⟩ := h.ends hgone' hnot
      obtain ⟨-, hlife, hregistered⟩ := h'.gone hgone'
      exact ⟨hlife ▸ hwhole, hregistered.trans hunregistered⟩
    · exact h'.ends hgone'' hgone'

def outcomeContract : Contract State where
  always s := ∀ id, Begun (s.life id)
  invariant := Living
  during s s' := ∀ id, Passes s s' id
  refl s id := .refl s id
  trans h h' id := (h id).trans (h' id)

/-- All transactions that are gone have been reported. -/
def Rested (s : State) : Prop := ∀ id, s.Gone id → s.Closed id

theorem Rested.later {s s' : State} (h : Rested s) (hpasses : ∀ id, Passes s s' id) :
    Rested s' := by
  intro id hgone'
  by_cases hgone : s.Gone id
  · obtain ⟨hwhole, hunregistered⟩ := h id hgone
    obtain ⟨-, hlife, hregistered⟩ := (hpasses id).gone hgone
    exact ⟨hlife ▸ hwhole, hregistered.trans hunregistered⟩
  · exact (hpasses id).ends hgone' hgone

/-! ### One transaction at a time -/

variable {s s' s'' s₀ : State} {txnId id : TxnId}

/-- All transactions but one stay as they are. -/
structure Turns (txnId : TxnId) (s s' : State) : Prop where
  later : s.nextTxnId ≤ s'.nextTxnId
  stages : ∀ id, id ≠ txnId →
    (s'.txns id).map TxnHandle.stage = (s.txns id).map TxnHandle.stage
  objects : ∀ id, id ≠ txnId →
    (s'.txnObjects id).map TxnObject.registered = (s.txnObjects id).map TxnObject.registered
  lives : ∀ id, id ≠ txnId → s'.life id = s.life id
  upgrades : ∀ o' ∈ s'.opens, ∀ id, o'.upgradeTxnId = some id →
    ∃ o ∈ s.opens, o.upgradeTxnId = some id

/-- All of them do. -/
structure Calm (s s' : State) : Prop where
  later : s.nextTxnId ≤ s'.nextTxnId
  stages : ∀ id, (s'.txns id).map TxnHandle.stage = (s.txns id).map TxnHandle.stage
  objects : ∀ id,
    (s'.txnObjects id).map TxnObject.registered = (s.txnObjects id).map TxnObject.registered
  lives : ∀ id, s'.life id = s.life id
  upgrades : ∀ o' ∈ s'.opens, ∀ id, o'.upgradeTxnId = some id →
    ∃ o ∈ s.opens, o.upgradeTxnId = some id

theorem life_append (s : State) (events : List Event) (id : TxnId) :
    { s with trace := s.trace ++ events }.life id =
      s.life id ++ events.filterMap (Event.milestone id) :=
  List.filterMap_append

theorem none_iff_of_map {α β : Type} {f : α → β} {o o' : Option α} (h : o'.map f = o.map f) :
    o' = none ↔ o = none := by
  rw [← Option.map_eq_none_iff (f := f), h, Option.map_eq_none_iff]

theorem registered_of_map {o o' : Option TxnObject}
    (h : o'.map TxnObject.registered = o.map TxnObject.registered) :
    o'.any TxnObject.registered = o.any TxnObject.registered := by
  cases o <;> cases o' <;> simp_all

theorem handle_of_map {o o' : Option TxnHandle} {handle : TxnHandle}
    (h : o'.map TxnHandle.stage = o.map TxnHandle.stage) (hhandle : o' = some handle) :
    ∃ handle', o = some handle' ∧ handle'.backend = handle.backend ∧
      handle'.finished = handle.finished := by
  subst hhandle
  rw [Option.map_some, eq_comm, Option.map_eq_some_iff] at h
  obtain ⟨handle', rfl, hstage⟩ := h
  simp only [TxnHandle.stage, Prod.mk.injEq] at hstage
  exact ⟨handle', rfl, hstage.2.2⟩

section Same

variable (hstage : (s'.txns id).map TxnHandle.stage = (s.txns id).map TxnHandle.stage)
  (hobject : (s'.txnObjects id).map TxnObject.registered =
    (s.txnObjects id).map TxnObject.registered)

include hstage hobject

theorem gone_iff_of_same : s'.Gone id ↔ s.Gone id :=
  and_congr (not_congr (none_iff_of_map hobject)) (none_iff_of_map hstage)

/-- Nothing becomes of a transaction that stays as it is. -/
theorem passes_of_same (hlife : s'.life id = s.life id) : Passes s s' id where
  gone hgone := ⟨(gone_iff_of_same hstage hobject).mpr hgone, hlife, registered_of_map hobject⟩
  ends hgone hnot := absurd ((gone_iff_of_same hstage hobject).mp hgone) hnot

end Same

theorem Calm.passes (h : Calm s s') (id : TxnId) : Passes s s' id :=
  passes_of_same (h.stages id) (h.objects id) (h.lives id)

/-- A transaction has no handle, and whatever else is known of it. -/
structure Left (s : State) (txnId : TxnId) (life : List Milestone) (registered : Bool) : Prop where
  gone : s.Gone txnId
  life : s.life txnId = life
  registered : s.registered txnId = registered

/-- The invariant is about one transaction at a time. -/
theorem Turns.living (h : Turns txnId s s') (hs : Living s) (hobject : s'.txnObjects txnId ≠ none)
    (hknown : s.txnObjects txnId ≠ none) (hhandle : s'.txns txnId = none)
    (hbegun : Begun (s'.life txnId)) : Living s' where
  fresh id hid := by
    refine lt_of_lt_of_le (hs.fresh id ?_) h.later
    by_cases hne : id = txnId
    · subst hne
      exact hknown
    · exact (not_congr (none_iff_of_map (h.objects id hne))).mp hid
  handles id handle hid := by
    by_cases hne : id = txnId
    · subst hne
      exact absurd (hid.symm.trans hhandle) nofun
    · obtain ⟨handle', hhandle', -, hfinished⟩ := handle_of_map (h.stages id hne) hid
      obtain ⟨hregistered, hlife⟩ := hs.handles id handle' hhandle'
      rw [h.lives id hne, ← hfinished]
      exact ⟨(registered_of_map (h.objects id hne)).trans hregistered, hlife⟩
  unknown id hid := by
    have hne : id ≠ txnId := fun heq => hobject (heq ▸ hid)
    rw [h.lives id hne]
    exact hs.unknown id ((none_iff_of_map (h.objects id hne)).mp hid)
  begun id := by
    by_cases hne : id = txnId
    · subst hne
      exact hbegun
    · rw [h.lives id hne]
      exact hs.begun id
  upgrades o' ho' id hid := by
    obtain ⟨o, ho, hid'⟩ := h.upgrades o' ho' id hid
    obtain ⟨hknown', hhandles⟩ := hs.upgrades o ho id hid'
    by_cases hne : id = txnId
    · subst hne
      exact ⟨hobject, fun handle hhandle' => absurd (hhandle'.symm.trans hhandle) nofun⟩
    · refine ⟨(not_congr (none_iff_of_map (h.objects id hne))).mpr hknown', fun handle hhandle' =>
        ?_⟩
      obtain ⟨handle', hhandle'', hbackend, hfinished⟩ := handle_of_map (h.stages id hne) hhandle'
      rw [← hbackend, ← hfinished]
      exact hhandles handle' hhandle''

theorem Calm.living (h : Calm s s') (hs : Living s) : Living s' where
  fresh id hid :=
    lt_of_lt_of_le (hs.fresh id ((not_congr (none_iff_of_map (h.objects id))).mp hid)) h.later
  handles id handle hid := by
    obtain ⟨handle', hhandle', -, hfinished⟩ := handle_of_map (h.stages id) hid
    obtain ⟨hregistered, hlife⟩ := hs.handles id handle' hhandle'
    rw [h.lives id, ← hfinished]
    exact ⟨(registered_of_map (h.objects id)).trans hregistered, hlife⟩
  unknown id hid := by
    rw [h.lives id]
    exact hs.unknown id ((none_iff_of_map (h.objects id)).mp hid)
  begun id := by
    rw [h.lives id]
    exact hs.begun id
  upgrades o' ho' id hid := by
    obtain ⟨o, ho, hid'⟩ := h.upgrades o' ho' id hid
    obtain ⟨hknown, hhandles⟩ := hs.upgrades o ho id hid'
    refine ⟨(not_congr (none_iff_of_map (h.objects id))).mpr hknown, fun handle hhandle => ?_⟩
    obtain ⟨handle', hhandle', hbackend, hfinished⟩ := handle_of_map (h.stages id) hhandle
    rw [← hbackend, ← hfinished]
    exact hhandles handle' hhandle'

/-- On the way to the end of one transaction: it is gone, and nothing became of the others. -/
structure Ending (s₀ s : State) (txnId : TxnId) (life : List Milestone) (registered : Bool) :
    Prop where
  living : Living s
  others : ∀ id, id ≠ txnId → Passes s₀ s id
  left : Left s txnId life registered

variable {life life' : List Milestone} {registered registered' : Bool}

theorem Turns.ending (h : Turns txnId s s') (hs : Living s) (hknown : s.txnObjects txnId ≠ none)
    (hleft : Left s' txnId life registered) (hbegun : Begun life) :
    Ending s s' txnId life registered where
  living := h.living hs hleft.gone.1 hknown hleft.gone.2 (hleft.life ▸ hbegun)
  others id hne := passes_of_same (h.stages id hne) (h.objects id hne) (h.lives id hne)
  left := hleft

theorem Ending.turn (h : Ending s₀ s txnId life registered) (hturn : Turns txnId s s')
    (hleft : Left s' txnId life' registered') (hbegun : Begun life') :
    Ending s₀ s' txnId life' registered' := by
  have hending := hturn.ending h.living h.left.gone.1 hleft hbegun
  exact ⟨hending.living, fun id hne => (h.others id hne).trans (hending.others id hne), hleft⟩

/-- Whatever handlers do, it does not concern a transaction that is gone. -/
theorem Ending.later (h : Ending s₀ s txnId life registered) (hs' : Living s')
    (hpasses : ∀ id, Passes s s' id) : Ending s₀ s' txnId life registered where
  living := hs'
  others id hne := (h.others id hne).trans (hpasses id)
  left := by
    obtain ⟨hgone, hlife, hregistered⟩ := (hpasses txnId).gone h.left.gone
    exact ⟨hgone, hlife.trans h.left.life, hregistered.trans h.left.registered⟩

theorem Ending.calm (h : Ending s₀ s txnId life registered) (hcalm : Calm s s') :
    Ending s₀ s' txnId life registered :=
  h.later (hcalm.living h.living) hcalm.passes

/-- The end of a transaction that was there has been reported. -/
theorem Ending.passes (h : Ending s₀ s txnId life false) (hwhole : life ∈ lives)
    (hnot : ¬s₀.Gone txnId) : ∀ id, Passes s₀ s id := by
  intro id
  by_cases hne : id = txnId
  · subst hne
    refine ⟨fun hgone => absurd hgone hnot, fun _ _ => ⟨?_, h.left.registered⟩⟩
    rw [h.left.life]
    exact hwhole
  · exact h.others id hne

/-! ### What leaves all transactions as they are -/

theorem Calm.of_trace {events : List Event} (hnext : s'.nextTxnId = s.nextTxnId)
    (htxns : s'.txns = s.txns) (hobjects : s'.txnObjects = s.txnObjects)
    (htrace : s'.trace = s.trace ++ events)
    (hevents : ∀ e ∈ events, ∀ id, Event.milestone id e = none)
    (hupgrades : ∀ o' ∈ s'.opens, ∀ id, o'.upgradeTxnId = some id →
      ∃ o ∈ s.opens, o.upgradeTxnId = some id) : Calm s s' := by
  refine ⟨hnext.ge, fun _ => by rw [htxns], fun _ => by rw [hobjects], fun id => ?_, hupgrades⟩
  rw [State.life, htrace, List.filterMap_append,
    List.filterMap_eq_nil_iff.mpr fun e he => hevents e he id, List.append_nil]
  rfl

theorem Calm.of_eq (hnext : s'.nextTxnId = s.nextTxnId) (htxns : s'.txns = s.txns)
    (hobjects : s'.txnObjects = s.txnObjects) (htrace : s'.trace = s.trace)
    (hupgrades : ∀ o' ∈ s'.opens, ∀ id, o'.upgradeTxnId = some id →
      ∃ o ∈ s.opens, o.upgradeTxnId = some id) : Calm s s' :=
  .of_trace hnext htxns hobjects (htrace.trans (List.append_nil _).symm)
    (fun _ h => absurd h List.not_mem_nil) hupgrades

theorem upgrades_of_subset (h : s'.opens ⊆ s.opens) : ∀ o' ∈ s'.opens, ∀ id,
    o'.upgradeTxnId = some id → ∃ o ∈ s.opens, o.upgradeTxnId = some id :=
  fun o' ho' _ hid => ⟨o', h ho', hid⟩

theorem Calm.refl (s : State) : Calm s s :=
  .of_eq rfl rfl rfl rfl (upgrades_of_subset fun _ h => h)

theorem Calm.trans (h : Calm s s') (h' : Calm s' s'') : Calm s s'' where
  later := h.later.trans h'.later
  stages id := (h'.stages id).trans (h.stages id)
  objects id := (h'.objects id).trans (h.objects id)
  lives id := (h'.lives id).trans (h.lives id)
  upgrades o'' ho'' id hid := by
    obtain ⟨o', ho', hid'⟩ := h'.upgrades o'' ho'' id hid
    exact h.upgrades o' ho' id hid'

theorem milestone_of_quiet {e : Event} (he : e.quiet = true) (id : TxnId) :
    e.milestone id = none := by
  cases e <;> first | rfl | cases he

theorem Quiet.calm (h : Quiet s s') : Calm s s' := by
  refine ⟨h.nextTxnId.ge, h.stages, h.objects, fun id => ?_,
    upgrades_of_subset fun _ ho => h.opens ▸ ho⟩
  obtain ⟨events, htrace, hquiet⟩ := h.trace
  rw [State.life, htrace, List.filterMap_append,
    List.filterMap_eq_nil_iff.mpr fun e he => milestone_of_quiet (hquiet e he) id, List.append_nil]
  rfl

theorem Calm.held (hcalm : Calm s s') (h : outcomeContract.Held s₀ s) :
    outcomeContract.Held s₀ s' :=
  h.trans ⟨(hcalm.living h.invariant).begun, hcalm.living h.invariant, hcalm.passes⟩

variable {α β : Type} {p : Prog α} {k : α → Prog β}

theorem lived_of_calm (hp : p.Within Calm) (h : outcomeContract.Held s₀ s) :
    Kept outcomeContract s₀ p s :=
  hp.kept (fun _ _ hcalm _ hs => ⟨(hcalm.living hs).begun, hcalm.living hs, hcalm.passes⟩) h

theorem lived_of_quiet (hp : p.Within Quiet) (h : outcomeContract.Held s₀ s) :
    Kept outcomeContract s₀ p s :=
  lived_of_calm (hp.mono fun _ _ hquiet => hquiet.calm) h

/-- On the way to the end of a transaction. -/
theorem ending_of_calm (hp : p.Within Calm) (h : Ending s₀ s txnId life registered) :
    Safe outcomeContract p (fun _ s' => Ending s₀ s' txnId life registered) s :=
  Safe.mono (lived_of_calm hp (.refl h.living.begun h.living)) fun _ _ _ hs' =>
    h.later hs'.1 hs'.2

/-! ### The end of a transaction -/

theorem registered_iff_known (h : s.registered id = true) : s.txnObjects id ≠ none := by
  intro hnone
  rw [State.registered, hnone] at h
  cases h

theorem calm_editTxnObject (txnId : TxnId) (s : State) {edit : TxnObject → TxnObject}
    (hedit : ∀ object, (edit object).registered = object.registered) :
    Calm s (s.editTxnObject txnId edit) := (quiet_editTxnObject txnId s hedit).calm

/-- An event of one transaction happens. -/
theorem turns_record {e : Event} (he : ∀ id, id ≠ txnId → e.milestone id = none) :
    Turns txnId s { s with trace := s.trace ++ [e] } where
  later := le_refl _
  stages _ _ := rfl
  objects _ _ := rfl
  lives id hne := by
    rw [life_append, List.filterMap_cons_none (he id hne)]
    exact List.append_nil _
  upgrades := upgrades_of_subset fun _ h => h

theorem life_record {e : Event} {m : Milestone} (he : e.milestone txnId = some m) :
    { s with trace := s.trace ++ [e] }.life txnId = s.life txnId ++ [m] := by
  rw [life_append, List.filterMap_cons_some he]
  rfl

theorem turns_unregister (s : State) : Turns txnId s (s.unregisterTxn txnId) where
  later := le_refl _
  stages _ _ := rfl
  objects id hne := by simp [State.unregisterTxn, Function.update_of_ne hne]
  lives _ _ := rfl
  upgrades := upgrades_of_subset fun _ h => h

theorem registered_unregister (s : State) : (s.unregisterTxn txnId).registered txnId = false := by
  simp only [State.unregisterTxn, State.registered, Function.update_self]
  cases s.txnObjects txnId <;> rfl

/-- An event that ends one transaction. -/
structure Event.Ends (e : Event) (txnId : TxnId) (m : Milestone) : Prop where
  self : e.milestone txnId = some m
  other : ∀ id, id ≠ txnId → e.milestone id = none

theorem ends_complete (txnId : TxnId) : (Event.complete txnId).Ends txnId .complete :=
  ⟨if_pos rfl, fun _ hne => if_neg hne.symm⟩

theorem ends_abort (txnId : TxnId) : (Event.abort txnId).Ends txnId .abort :=
  ⟨if_pos rfl, fun _ hne => if_neg hne.symm⟩

theorem ends_commit (txnId : TxnId) (upgrade : Option RequestId) (ok : Bool) :
    (Event.commit txnId upgrade ok).Ends txnId .commit :=
  ⟨if_pos rfl, fun _ hne => if_neg hne.symm⟩

theorem ends_aborting (txnId : TxnId) (queue : List RequestId) :
    (Event.aborting txnId queue).Ends txnId .aborting :=
  ⟨if_pos rfl, fun _ hne => if_neg hne.symm⟩

theorem ends_startFailed (txnId : TxnId) : (Event.startFailed txnId).Ends txnId .startFailed :=
  ⟨if_pos rfl, fun _ hne => if_neg hne.symm⟩

theorem Ending.recorded {e : Event} {m : Milestone} (h : Ending s₀ s txnId life registered)
    (he : e.Ends txnId m) (hbegun : Begun (life ++ [m])) :
    Ending s₀ { s with trace := s.trace ++ [e] } txnId (life ++ [m]) registered :=
  h.turn (turns_record he.other)
    ⟨h.left.gone, (life_record he.self).trans (by rw [h.left.life]), h.left.registered⟩ hbegun

theorem Ending.unregistered (h : Ending s₀ s txnId life registered) (hbegun : Begun life) :
    Ending s₀ (s.unregisterTxn txnId) txnId life false := by
  refine h.turn (turns_unregister s) ⟨⟨fun hnone => h.left.gone.1 ?_, h.left.gone.2⟩, h.left.life,
    registered_unregister s⟩ hbegun
  simpa [State.unregisterTxn] using hnone

theorem begun_of_whole (h : life ∈ lives) : Begun life := ⟨life, h, List.prefix_refl _⟩

/-- The report of an end, and the object is let go. -/
theorem ends_dispatchEnd {edit : TxnObject → TxnObject} {e : Event} {m : Milestone}
    (hedit : ∀ object, (edit object).registered = object.registered) (he : e.Ends txnId m)
    (h : Ending s₀ s txnId life true) (hwhole : life ++ [m] ∈ lives) (hnot : ¬s₀.Gone txnId) :
    Kept outcomeContract s₀ (dispatchEnd txnId edit e) s := by
  have hbegun := begun_of_whole hwhole
  refine Kept.read ?_
  rw [if_pos h.left.registered]
  have hedited := h.calm (calm_editTxnObject txnId s hedit)
  have hrecorded := hedited.recorded he hbegun
  refine Kept.modify h.living.begun (Safe.bind (Safe.modify hedited.living.begun
    ⟨hrecorded.living.begun, hrecorded.living, fun s₁ _ _ hliving hpasses => ?_⟩))
  have hlater := hrecorded.later hliving hpasses
  have hends := hlater.unregistered hbegun
  exact ⟨hliving.begun, hliving.begun, hends.living.begun, hends.living, hends.passes hwhole hnot⟩

/-! ### What leaves all transactions as they are, for the opens -/

open Prog

theorem calm_recorded {e : Event} (he : ∀ id, Event.milestone id e = none) (s : State) :
    Calm s { s with trace := s.trace ++ [e] } :=
  .of_trace rfl rfl rfl rfl (fun _ hmem => List.mem_singleton.mp hmem ▸ he)
    (upgrades_of_subset fun _ h => h)

theorem calm_dispatch {e : Event} (he : ∀ id, Event.milestone id e = none) :
    (dispatch e).Within Calm :=
  within_dispatch (calm_recorded he)

theorem calm_removeOpen (requestId : RequestId) (s : State) : Calm s (s.removeOpen requestId) :=
  .of_eq rfl rfl rfl rfl (upgrades_of_subset fun _ h => List.mem_of_mem_filter h)

theorem calm_editQueue (name : String) (edit : OpenQueue → OpenQueue) (s : State) :
    Calm s (s.editQueue name edit) :=
  .of_eq rfl rfl rfl rfl (upgrades_of_subset fun _ h => h)

theorem calm_forget (txnId : TxnId) (s : State) : Calm s (s.forget txnId) :=
  .of_eq rfl rfl rfl rfl (upgrades_of_subset fun _ h => h)

/-- The queue of an open is released while it goes, and that is reported. -/
theorem calm_settled {f : State → State} {e : Event} (hf : ∀ s, Calm s (f s))
    (he : ∀ id, Event.milestone id e = none) :
    (modify f >>= fun _ => dispatch e >>= fun _ => (pure () : Prog Unit)).Within Calm :=
  within_bind (within_modify hf) fun _ => within_bind (calm_dispatch he) fun _ => within_pure

theorem calm_abortUpgradeOpen (txnId : TxnId) (notifyRequest : Bool) :
    (abortUpgradeOpen txnId notifyRequest).Within Calm := by
  have hquiet {q : Prog Unit} (hq : q.Within Quiet) : q.Within Calm := hq.mono fun _ _ h => h.calm
  refine within_bind (within_read .refl) fun s => ?_
  split
  · exact within_pure
  · next open' _ =>
      refine within_bind (within_modify fun s => .of_eq rfl rfl rfl rfl (upgrades_of_subset
        fun _ h => List.mem_of_mem_eraseP h)) fun _ =>
        within_bind (hquiet (quiet_clearUpgradeTxn open')) fun _ =>
          within_bind (hquiet (quiet_resetAbortedUpgradeRequest open')) fun _ => ?_
      split
      · exact within_pure
      · exact within_bind (calm_dispatch fun _ => rfl) fun _ => within_pure

theorem calm_startDelete (open' : PendingOpen) : (startDelete open').Within Calm := by
  refine within_bind (within_modify (calm_recorded fun _ => rfl)) fun _ =>
    within_bind within_choose fun deleted => ?_
  split
  · refine calm_settled (fun s => ?_) fun _ => rfl
    exact .of_eq rfl rfl rfl rfl (upgrades_of_subset fun _ h => List.mem_of_mem_filter h)
  · refine calm_settled (fun s => ?_) fun _ => rfl
    exact (calm_editQueue open'.name _ s).trans (calm_removeOpen open'.requestId _)

theorem calm_openConnection (open' : PendingOpen) : (openConnection open').Within Calm :=
  calm_settled (fun _ => .of_eq rfl rfl rfl rfl
    (upgrades_of_subset fun _ h => List.mem_of_mem_filter h)) fun _ => rfl

theorem calm_releaseUpgrade (open' : PendingOpen) (txnId : TxnId) (s : State) :
    Calm s (s.releaseUpgrade open' txnId) := by
  unfold State.releaseUpgrade
  split
  · exact (calm_editQueue open'.name _ s).trans (calm_recorded (fun _ => rfl) _)
  · exact calm_editQueue open'.name _ s

theorem calm_issueOpen (kind : OpenKind) (name : String) (version : UInt64) :
    (issueOpen kind name version).Within Calm := by
  refine within_modify fun s => ?_
  split
  · exact .refl s
  · refine .of_eq rfl rfl rfl rfl fun o' ho' id hid => ?_
    rcases List.mem_append.mp ho' with ho' | ho'
    · exact ⟨o', ho', hid⟩
    · rw [List.mem_singleton.mp ho'] at hid
      cases hid

theorem calm_close (connId : ConnId) : (close connId).Within Calm :=
  within_modify fun _ => .of_trace rfl rfl rfl rfl
    (fun _ he => List.mem_singleton.mp he ▸ fun _ => rfl) (upgrades_of_subset fun _ h => h)

/-! ### Aborts -/

theorem not_gone {handle : TxnHandle} (hhandle : s.txns txnId = some handle) : ¬s.Gone txnId :=
  fun hgone => absurd (hhandle.symm.trans hgone.2) nofun

theorem turns_setTxn (s : State) (handle : Option TxnHandle) :
    Turns txnId s (s.setTxn txnId handle) where
  later := le_refl _
  stages id hne := by
    change (Function.update s.txns txnId handle id).map _ = _
    rw [Function.update_of_ne hne]
  objects _ _ := rfl
  lives _ _ := rfl
  upgrades := upgrades_of_subset fun _ h => h

/-- A handle is taken out. -/
theorem Living.taken (hs : Living s) {handle : TxnHandle} (hhandle : s.txns txnId = some handle) :
    Ending s (s.setTxn txnId none) txnId (if handle.finished then [.startFailed] else []) true := by
  obtain ⟨hregistered, hlife⟩ := hs.handles txnId handle hhandle
  have hknown := registered_iff_known hregistered
  refine (turns_setTxn s none).ending hs hknown
    ⟨⟨hknown, Function.update_self ..⟩, hlife, hregistered⟩ ?_
  rw [← hlife]
  exact hs.begun txnId

/-- Without a handle there is nothing to take. -/
theorem calm_takeNothing (hhandle : s.txns txnId = none) : Calm s (s.setTxn txnId none) := by
  refine .of_eq rfl ?_ rfl rfl (upgrades_of_subset fun _ h => h)
  change Function.update s.txns txnId none = s.txns
  rw [← hhandle, Function.update_eq_self]

/-- A handle is taken out for an abort, if it is there. -/
theorem safe_takeAborted (hs : Living s) (txnId : TxnId) :
    Safe outcomeContract (takeAborted txnId) (fun taken s' => taken = s.txns txnId ∧
      (taken = none → Calm s s') ∧ ∀ handle, taken = some handle →
        Ending s s' txnId ((if handle.finished then [.startFailed] else []) ++ [.aborting]) true)
      s := by
  refine Safe.modifyRead hs.begun ?_
  cases hhandle : s.txns txnId with
  | none =>
      have hsame : Calm (s.setTxn txnId none)
          { (s.setTxn txnId none) with trace := s.trace ++ [] } :=
        .of_eq rfl rfl rfl (List.append_nil _) (upgrades_of_subset fun _ h => h)
      have hcalm := (calm_takeNothing hhandle).trans hsame
      exact .pure (hcalm.living hs).begun ⟨rfl, fun _ => hcalm, nofun⟩
  | some handle =>
      have hbegun : Begun ((if handle.finished then [.startFailed] else []) ++ [.aborting]) := by
        cases handle.finished <;> decide
      have hending := (hs.taken hhandle).recorded
        (ends_aborting txnId ((s.txnQueues txnId).getD [])) hbegun
      exact .pure hending.living.begun ⟨rfl, nofun, fun _ h => Option.some.inj h ▸ hending⟩

theorem whole_aborted (handle : TxnHandle) :
    (if handle.finished then [Milestone.startFailed] else []) ++ [.aborting] ++
    [.abort] ∈ lives := by
  cases handle.finished <;> decide

theorem over_registered (object : TxnObject) : object.over.registered = object.registered := rfl

theorem lived_abortTransaction (txnId : TxnId) (notifyUpgradeOpen : Bool)
    (h : outcomeContract.Held s₀ s) :
    Kept outcomeContract s₀ (abortTransaction txnId notifyUpgradeOpen) s := by
  refine Kept.later h
    (Safe.seq (safe_takeAborted h.invariant txnId) fun taken s₁ halways₁ hs₁ => ?_)
  obtain ⟨htaken, hnone, hsome⟩ := hs₁
  cases taken with
  | none => exact Kept.pure ((hnone rfl).held (.refl h.always h.invariant))
  | some handle =>
      have hending := (hsome handle rfl).calm (calm_forget txnId s₁)
      refine Kept.modify halways₁ (Safe.seq (ending_of_calm
        ((quiet_failQueuedRequests txnId .abort).mono fun _ _ hq => hq.calm) hending)
        fun _ s₂ _ hs₂ => Kept.bind (ends_dispatchEnd over_registered (ends_abort txnId) hs₂
          (whole_aborted handle) (not_gone htaken.symm)) fun _ s₃ h₃ => ?_)
      split
      · exact lived_of_calm (calm_abortUpgradeOpen txnId notifyUpgradeOpen) h₃
      · exact .pure h₃

/-- A transaction without a handle whose end is reported: there is nothing left to report. -/
theorem Rested.unregistered (h : Rested s) (hnone : s.txns id = none) :
    s.registered id = false := by
  by_cases hknown : s.txnObjects id = none
  · rw [State.registered, hknown]
    rfl
  · exact (h id ⟨hknown, hnone⟩).unregistered

theorem calm_unregister (h : s.registered txnId = false) : Calm s (s.unregisterTxn txnId) := by
  have hturns : Turns txnId s (s.unregisterTxn txnId) := turns_unregister s
  refine ⟨hturns.later, fun _ => rfl, fun id => ?_, fun _ => rfl, hturns.upgrades⟩
  by_cases hne : id = txnId
  · subst hne
    simp only [State.registered] at h
    simp only [State.unregisterTxn, Function.update_self, Option.map_map]
    cases hobject : s.txnObjects id with
    | none => rfl
    | some object =>
        rw [hobject] at h
        exact congrArg some h.symm
  · exact hturns.objects id hne

/-- Nothing is reported of an object that is let go already. -/
theorem lived_dispatchEnd_none {edit : TxnObject → TxnObject} {e : Event}
    (h : outcomeContract.Held s₀ s) (hnone : s.registered txnId = false) :
    Kept outcomeContract s₀ (dispatchEnd txnId edit e) s := by
  refine Kept.read ?_
  rw [hnone, if_neg Bool.false_ne_true]
  have hheld := (calm_unregister hnone).held h
  exact Kept.last h.always hheld

theorem registered_calm (h : Calm s s') (id : TxnId) : s'.registered id = s.registered id :=
  registered_of_map (h.objects id)

theorem lived_abortFailedUpgrade (open' : PendingOpen) (txnId : TxnId)
    (h : outcomeContract.Held s₀ s) (hrested : Rested s) :
    Kept outcomeContract s₀ (abortFailedUpgrade open' txnId) s := by
  refine Kept.later h (Kept.bind (lived_of_quiet (quiet_resetAbortedUpgradeRequest open')
    (.refl h.always h.invariant)) fun _ s₁ h₁ => Kept.later h₁ ?_)
  have hrested₁ := hrested.later h₁.during
  refine Safe.seq (safe_takeAborted h₁.invariant txnId) fun taken s₂ halways₂ hs₂ => ?_
  obtain ⟨htaken, hnone, hsome⟩ := hs₂
  have hfailed : Calm s₂ (((s₂.forget txnId).removeOpen open'.requestId).editQueue open'.name
      OpenQueue.onOperationFailed) :=
    ((calm_forget txnId s₂).trans (calm_removeOpen _ _)).trans (calm_editQueue _ _ _)
  refine Safe.modify halways₂ (Kept.bind ?_ fun _ s₃ h₃ =>
    (lived_of_calm (calm_dispatch fun _ => rfl) h₃).done)
  cases taken with
  | none =>
      have hcalm := (hnone rfl).trans hfailed
      refine lived_dispatchEnd_none (hcalm.held (.refl h₁.always h₁.invariant)) ?_
      rw [registered_calm hcalm]
      exact hrested₁.unregistered htaken.symm
  | some handle =>
      exact ends_dispatchEnd over_registered (ends_abort txnId) ((hsome handle rfl).calm hfailed)
        (whole_aborted handle) (not_gone htaken.symm)

/-! ### A transaction that enters -/

theorem Living.next_unknown (hs : Living s) : s.txnObjects s.nextTxnId = none := by
  by_contra hknown
  exact absurd (hs.fresh _ hknown) (lt_irrefl _)

/-- A new handle with its object. -/
theorem Living.entered (hs : Living s) (hnext : s.nextTxnId + 1 ≠ 0) {handle : TxnHandle}
    {object : TxnObject} (hunfinished : handle.finished = false)
    (hregistered : object.registered = true) (hnext' : s'.nextTxnId = s.nextTxnId + 1)
    (htxns : s'.txns = Function.update s.txns s.nextTxnId (some handle))
    (hobjects : s'.txnObjects = Function.update s.txnObjects s.nextTxnId (some object))
    (hopens : s'.opens = s.opens) (htrace : s'.trace = s.trace) :
    Living s' ∧ ∀ id, Passes s s' id := by
  have hunknown := hs.next_unknown
  have hself : s'.txns s.nextTxnId = some handle := by rw [htxns, Function.update_self]
  have hobject : s'.txnObjects s.nextTxnId = some object := by rw [hobjects, Function.update_self]
  have hother {id : TxnId} (hne : id ≠ s.nextTxnId) :
      s'.txns id = s.txns id ∧ s'.txnObjects id = s.txnObjects id := by
    rw [htxns, hobjects, Function.update_of_ne hne, Function.update_of_ne hne]
    exact ⟨rfl, rfl⟩
  -- a new transaction has no life yet
  have hlife (id : TxnId) : s'.life id = s.life id := by rw [State.life, htrace, State.life]
  refine ⟨⟨fun id hid => ?_, fun id h hid => ?_, fun id hid => ?_, fun id => ?_,
    fun o ho id hid => ?_⟩, fun id => ?_⟩
  · rw [hnext']
    by_cases hne : id = s.nextTxnId
    · rw [hne]
      exact lt_succ_self hnext
    · exact (hs.fresh id ((hother hne).2 ▸ hid)).trans (lt_succ_self hnext)
  · by_cases hne : id = s.nextTxnId
    · subst hne
      obtain rfl := Option.some.inj (hself.symm.trans hid)
      rw [hlife, hs.unknown _ hunknown, hunfinished]
      refine ⟨?_, rfl⟩
      rw [State.registered, hobject]
      exact hregistered
    · rw [(hother hne).1] at hid
      rw [hlife, State.registered, (hother hne).2]
      exact hs.handles id h hid
  · rw [hlife]
    by_cases hne : id = s.nextTxnId
    · rw [hne]
      exact hs.unknown _ hunknown
    · exact hs.unknown id ((hother hne).2 ▸ hid)
  · rw [hlife]
    exact hs.begun id
  · obtain ⟨hknown, hhandles⟩ := hs.upgrades o (hopens ▸ ho) id hid
    have hne : id ≠ s.nextTxnId := fun heq => hknown (heq ▸ hunknown)
    rw [(hother hne).1, (hother hne).2]
    exact ⟨hknown, hhandles⟩
  · by_cases hne : id = s.nextTxnId
    · subst hne
      exact ⟨fun hgone => absurd hunknown hgone.1, fun hgone =>
        absurd (hself.symm.trans hgone.2) nofun⟩
    · obtain ⟨htxn, hobj⟩ := hother hne
      exact passes_of_same (by rw [htxn]) (by rw [hobj]) (hlife id)

theorem calm_allocTxn (hnext : s.nextTxnId + 1 ≠ 0) : Calm s s.allocTxn :=
  ⟨(lt_succ_self hnext).le, fun _ => rfl, fun _ => rfl, fun _ => rfl,
    upgrades_of_subset fun _ h => h⟩

/-- An upgrade enters with its backend. -/
theorem safe_startUpgradeTxn (open' : PendingOpen) (h : outcomeContract.Held s₀ s) :
    Safe outcomeContract (startUpgradeTxn open') (fun started s' => outcomeContract.Held s₀ s' ∧
      ∀ id, started = some id → s'.txnObjects id ≠ none ∧
        ∀ handle, s'.txns id = some handle → handle.backend = true ∧ handle.finished = false)
          s := by
  refine Safe.read (Safe.choose h.always fun begun => ?_)
  split
  · exact .pure h.always ⟨h, nofun⟩
  · next hnext =>
      split
      · refine Safe.modify h.always ?_
        have hentered := @Living.entered s (((s.allocTxn.enterTxn ⟨s.nextTxnId, open'.connId,
          open'.name, .versionChange, [], true, false, true, s.taskEpoch, false⟩).registerTxn
            s.nextTxnId).setResult open'.requestId open'.connId
              ⟨open'.name, false, some s.nextTxnId⟩) h.invariant hnext _ _ rfl rfl rfl rfl rfl
                rfl rfl
        have hheld := h.trans ⟨hentered.1.begun, hentered.1, hentered.2⟩
        refine .pure hheld.always ⟨hheld, fun id hid => ?_⟩
        obtain rfl := Option.some.inj hid
        refine ⟨?_, fun handle hhandle => ?_⟩
        · exact fun hnone => absurd ((Function.update_self ..).symm.trans hnone) nofun
        · simp only [State.setResult, State.registerTxn, State.enterTxn, Function.update_self,
            Option.some.injEq] at hhandle
          exact hhandle ▸ ⟨rfl, rfl⟩
      · refine Safe.modify h.always ?_
        have hheld := (calm_allocTxn hnext).held h
        exact .pure hheld.always ⟨hheld, nofun⟩

theorem lived_createTxn (connId : ConnId) (dbName : String) (mode : TxnMode) (scope : List StoreId)
    (h : outcomeContract.Held s₀ s) :
    Kept outcomeContract s₀ (createTxn connId dbName mode scope) s := by
  refine Kept.choose h.always fun valid => Kept.last h.always ?_
  split
  · exact h
  · next hnext =>
      split
      · have hentered := @Living.entered s ((s.allocTxn.enterTxn ⟨s.nextTxnId, connId, dbName, mode,
          scope, false, false, true, s.taskEpoch, false⟩).registerTxn s.nextTxnId) h.invariant hnext
            _ _ rfl rfl rfl rfl rfl rfl rfl
        exact h.trans ⟨hentered.1.begun, hentered.1, hentered.2⟩
      · exact (calm_allocTxn hnext).held h

theorem lived_transaction (connId : ConnId) (write : Bool) (scope : List StoreId)
    (h : outcomeContract.Held s₀ s) :
    Kept outcomeContract s₀ (transaction connId write scope) s := by
  refine Kept.read ?_
  split
  · exact .pure h
  · split
    · exact .pure h
    · refine Kept.callOut h fun reply s₁ h₁ => ?_
      split
      · exact .pure h₁
      · refine Kept.read ?_
        split
        · exact .pure h₁
        · exact lived_createTxn connId _ _ scope h₁

/-! ### Opens -/

/-- A scan leads to no end of an upgrade, and leaves all transactions as they are. -/
theorem safe_scanned (ids : List RequestId) (hs : Living s) :
    Safe outcomeContract (scanOpens ids) (fun step s' => Calm s s' ∧
      ∀ o id, step ≠ some (.finishUpgrade o id)) s := by
  induction ids generalizing s with
  | nil => exact .pure hs.begun ⟨.refl s, nofun⟩
  | cons requestId ids ih =>
      refine Safe.read ?_
      split
      · exact .pure hs.begun ⟨.refl s, nofun⟩
      · next open' hfind =>
          have hqueue : Safe outcomeContract (openQueueOf open'.name) (fun _ s' => s' = s) s := by
            refine Safe.read ?_
            split
            · exact .pure hs.begun rfl
            · exact Safe.choose hs.begun fun _ => .pure hs.begun rfl
          refine Safe.seq hqueue fun queue s₁ _ heq => ?_
          subst heq
          obtain ⟨⟨fired, hseen⟩, hstep⟩ :=
            lookAt_seen open' (s₁.liveConnectionCount open'.name) queue
          generalize lookAt open' (s₁.liveConnectionCount open'.name) queue = looked at *
          have hcalm : Calm s₁ (s₁.look requestId open'.name looked) := by
            refine .of_trace rfl rfl rfl rfl (fun e he => ?_) fun o' ho' id hid => ?_
            · obtain ⟨action, -, rfl⟩ := List.mem_map.mp he
              exact fun _ => rfl
            · obtain ⟨o, ho, rfl⟩ := List.mem_map.mp ho'
              split at hid
              · rw [hseen] at hid
                exact ⟨open', List.mem_of_find?_eq_some hfind, hid⟩
              · exact ⟨o, ho, hid⟩
          refine Safe.modify hs.begun ?_
          split
          · exact (ih (hcalm.living hs)).mono fun _ _ _ hs' => ⟨hcalm.trans hs'.1, hs'.2⟩
          · next step heq =>
              refine .pure (hcalm.living hs).begun ⟨hcalm, fun o id hfinish => ?_⟩
              obtain rfl := Option.some.inj hfinish
              exact (hstep _ heq).elim

theorem safe_stepFound (hs : Living s) :
    Safe outcomeContract nextOpenStep (fun step s' => Calm s s' ∧
      ∀ o id, step = some (.finishUpgrade o id) → o ∈ s'.opens ∧ o.upgradeTxnId = some id) s := by
  have hscan (ids : List RequestId) := (safe_scanned ids hs).mono
    fun step s' _ hs' => And.intro hs'.1 fun o id hstep =>
      (absurd hstep (hs'.2 o id) : o ∈ s'.opens ∧ o.upgradeTxnId = some id)
  refine Safe.read ?_
  split
  · exact hscan _
  · next open' hfind =>
      split
      · exact .pure hs.begun ⟨.refl s, nofun⟩
      · next txnId htxn =>
          split
          · refine .pure hs.begun ⟨.refl s, fun o id hstep => ?_⟩
            cases hstep
            exact ⟨List.mem_of_find?_eq_some hfind, htxn⟩
          · exact hscan _

/-- The entry of an open takes its upgrade. -/
theorem Living.activated (hs : Living s) {requestId : RequestId} {versions : UInt64 × UInt64}
    (hknown : s.txnObjects txnId ≠ none) (hhandle : ∀ handle, s.txns txnId = some handle →
      handle.backend = true ∧ handle.finished = false) :
    Living (s.editOpen requestId (.activate txnId versions)) :=
  { hs with
    upgrades := fun o' ho' id hid => by
      obtain ⟨o, ho, rfl⟩ := List.mem_map.mp ho'
      split at hid
      · obtain rfl := Option.some.inj hid
        exact ⟨hknown, hhandle⟩
      · exact hs.upgrades o ho id hid }

theorem lived_startUpgrade (open' : PendingOpen) (oldVersion newVersion : UInt64)
    (h : outcomeContract.Held s₀ s) (hrested : Rested s) :
    Kept outcomeContract s₀ (startUpgrade open' oldVersion newVersion) s := by
  have hrecorded : Calm s
      { s with trace := s.trace ++ [.startUpgrade open'.requestId open'.name] } :=
    calm_recorded (fun _ => rfl) s
  refine Kept.later h (Kept.modify h.always (Safe.seq (safe_startUpgradeTxn open'
    (hrecorded.held (.refl h.always h.invariant))) fun started s₁ _ hs₁ => ?_))
  obtain ⟨h₁, hstarted⟩ := hs₁
  cases started with
  | none =>
      refine lived_of_calm (calm_settled (fun s => ?_) fun _ => rfl) h₁
      exact (calm_editQueue open'.name _ s).trans (calm_removeOpen open'.requestId _)
  | some txnId =>
      obtain ⟨hknown, hhandle⟩ := hstarted txnId rfl
      have hactivated : Living (s₁.editOpen open'.requestId
          (.activate txnId (oldVersion, newVersion))) := h₁.invariant.activated hknown hhandle
      have h₂ := h₁.trans ⟨hactivated.begun, hactivated, fun _ => passes_of_same rfl rfl rfl⟩
      refine Kept.modify h₁.always (Kept.read ?_)
      refine (lived_of_calm (calm_dispatch fun _ => rfl) h₂).bind fun reply s₃ h₃ => ?_
      split
      · split
        · exact .pure h₃
        · exact lived_abortFailedUpgrade _ _ h₃ (hrested.later h₃.during)
      · exact .pure h₃

theorem lived_upgradeCommitted (open' : PendingOpen) (connectionClosed : Bool)
    {calm : State → State} (hcalm : ∀ s, Calm s (calm s))
    (h : Kept outcomeContract s₀ (dispatchEnd txnId TxnObject.over (.complete txnId)) (calm s))
    (halways : outcomeContract.always s) (heq : calm = fun s =>
      ((s.forget txnId).removeOpen open'.requestId).releaseUpgrade open' txnId) :
    Kept outcomeContract s₀ (upgradeCommitted open' txnId connectionClosed) s := by
  subst heq
  refine Kept.modify halways (h.bind fun _ s₁ h₁ =>
    (lived_of_quiet (quiet_clearUpgradeTxn open') h₁).bind fun _ s₂ h₂ => ?_)
  split
  · have hcleared : Calm s₂ (s₂.clearResult open'.requestId) :=
      .of_eq rfl rfl rfl rfl (upgrades_of_subset fun _ h => h)
    exact Kept.modify h₂.always
      (lived_of_calm (calm_dispatch fun _ => rfl) (hcleared.held h₂)).done
  · exact (lived_of_calm (calm_dispatch fun _ => rfl) h₂).done

theorem calm_upgradeCommitted (open' : PendingOpen) (txnId : TxnId) (s : State) :
    Calm s (((s.forget txnId).removeOpen open'.requestId).releaseUpgrade open' txnId) :=
  ((calm_forget txnId s).trans (calm_removeOpen _ _)).trans (calm_releaseUpgrade _ _ _)

/-- The backend of an upgrade is asked to commit. -/
theorem Ending.committed (h : Ending s₀ s txnId [] true) (open' : PendingOpen) (ok : Bool) :
    Ending s₀ (s.commitVersion open' txnId ok) txnId [.commit] true := by
  have hversions : Calm { s with trace := s.trace ++ [.commit txnId (some open'.requestId) ok] }
      (s.commitVersion open' txnId ok) :=
    .of_eq rfl rfl rfl rfl (upgrades_of_subset fun _ h => h)
  exact (h.recorded (ends_commit txnId (some open'.requestId) ok) (by decide)).calm hversions

/-- A drained upgrade is committed and reported; one that was aborted is not. -/
theorem lived_finishUpgrade {open' : PendingOpen} (hmem : open' ∈ s.opens)
    (htxn : open'.upgradeTxnId = some txnId) (h : outcomeContract.Held s₀ s) (hrested : Rested s) :
    Kept outcomeContract s₀ (finishUpgrade open' txnId) s := by
  refine Kept.later h (Kept.modifyRead h.always ?_)
  cases hhandle : s.txns txnId with
  | none =>
      have hcalm := (calm_takeNothing hhandle).trans (calm_upgradeCommitted open' txnId _)
      have htaken := (calm_takeNothing hhandle).living h.invariant
      refine lived_upgradeCommitted open' _ (calm_upgradeCommitted open' txnId)
        (lived_dispatchEnd_none (hcalm.held (.refl h.always h.invariant)) ?_) htaken.begun rfl
      rw [registered_calm hcalm]
      exact hrested.unregistered hhandle
  | some handle =>
      obtain ⟨-, hupgrade⟩ := h.invariant.upgrades open' hmem txnId htxn
      obtain ⟨hbackend, hunfinished⟩ := hupgrade handle hhandle
      have htaken := h.invariant.taken hhandle
      rw [hunfinished] at htaken
      have hcommit : commitUpgrade open' txnId (some handle) = (do
          let ok ← .choose Bool
          .modify (State.commitVersion open' txnId ok)) := by
        unfold commitUpgrade
        rw [Option.any_some, if_pos hbackend]
      rw [hcommit]
      refine Safe.bind (Safe.choose htaken.living.begun fun ok => ?_)
      have hending := htaken.committed open' ok
      refine ⟨htaken.living.begun, hending.living.begun, lived_upgradeCommitted open' _
        (calm_upgradeCommitted open' txnId) ?_ hending.living.begun rfl⟩
      exact ends_dispatchEnd over_registered (ends_complete txnId)
        (hending.calm (calm_upgradeCommitted open' txnId _)) (by decide) (not_gone hhandle)

theorem lived_perform (step : OpenStep) (hstep : ∀ o id, step = .finishUpgrade o id →
    o ∈ s.opens ∧ o.upgradeTxnId = some id) (h : outcomeContract.Held s₀ s) (hrested : Rested s) :
    Kept outcomeContract s₀ (perform step) s := by
  cases step with
  | fireBlocked open' =>
      exact lived_of_calm (within_bind (calm_dispatch fun _ => rfl) fun _ => within_pure) h
  | openConnection open' version => exact lived_of_calm (calm_openConnection open') h
  | failOpen open' error =>
      exact lived_of_calm (calm_settled (calm_removeOpen open'.requestId) fun _ => rfl) h
  | startUpgrade open' old new => exact lived_startUpgrade open' old new h hrested
  | startDelete open' => exact lived_of_calm (calm_startDelete open') h
  | finishUpgrade open' txnId =>
      obtain ⟨hmem, htxn⟩ := hstep open' txnId rfl
      exact lived_finishUpgrade hmem htxn h hrested

/-! ### Starting and finishing transactions -/

/-- A handle that stays keeps its backend, and its transaction goes on. -/
theorem Living.edited (hs : Living s) {handle handle' : TxnHandle}
    (hhandle : s.txns txnId = some handle)
    (htxns : s'.txns = Function.update s.txns txnId (some handle'))
    (hlife : s'.life txnId = if handle'.finished then [.startFailed] else [])
    (hbackend : handle.backend = true ∧ handle.finished = false →
      handle'.backend = true ∧ handle'.finished = false)
    (hlives : ∀ id, id ≠ txnId → s'.life id = s.life id) (hnext : s'.nextTxnId = s.nextTxnId)
    (hobjects : s'.txnObjects = s.txnObjects) (hopens : s'.opens = s.opens) :
    Living s' ∧ ∀ id, Passes s s' id := by
  have hself : s'.txns txnId = some handle' := by rw [htxns, Function.update_self]
  have hother {id : TxnId} (hne : id ≠ txnId) : s'.txns id = s.txns id := by
    rw [htxns, Function.update_of_ne hne]
  -- an object that is registered is known, so its absence is no case
  have hregistered := (hs.handles txnId handle hhandle).1
  have hknown := registered_iff_known hregistered
  refine ⟨⟨fun id hid => ?_, fun id h hid => ?_, fun id hid => ?_, fun id => ?_,
    fun o ho id hid => ?_⟩, fun id => ?_⟩
  · rw [hnext]
    exact hs.fresh id (hobjects ▸ hid)
  · by_cases hne : id = txnId
    · subst hne
      obtain rfl := Option.some.inj (hself.symm.trans hid)
      rw [State.registered, hobjects]
      exact ⟨hregistered, hlife⟩
    · rw [hother hne] at hid
      rw [hlives id hne, State.registered, hobjects]
      exact hs.handles id h hid
  · rw [hobjects] at hid
    have hne : id ≠ txnId := fun heq => hknown (heq ▸ hid)
    rw [hlives id hne]
    exact hs.unknown id hid
  · by_cases hne : id = txnId
    · subst hne
      rw [hlife]
      cases handle'.finished <;> decide
    · rw [hlives id hne]
      exact hs.begun id
  · obtain ⟨hknown', hhandles⟩ := hs.upgrades o (hopens ▸ ho) id hid
    rw [hobjects]
    refine ⟨hknown', fun h hid' => ?_⟩
    by_cases hne : id = txnId
    · subst hne
      obtain rfl := Option.some.inj (hself.symm.trans hid')
      exact hbackend (hhandles handle hhandle)
    · exact hhandles h (hother hne ▸ hid')
  · by_cases hne : id = txnId
    · subst hne
      exact ⟨fun hgone => absurd hgone (not_gone hhandle),
        fun hgone => absurd hgone (not_gone hself)⟩
    · exact passes_of_same (by rw [hother hne]) (by rw [hobjects]) (hlives id hne)

theorem lived_startReady (id : TxnId) (h : outcomeContract.Held s₀ s) :
    Kept outcomeContract s₀ (startReady id) s := by
  refine Kept.read ?_
  split
  · next hready =>
      cases hhandle : s.txns id with
      | none =>
          rw [hhandle] at hready
          cases hready
      | some handle =>
          rw [hhandle, Option.any_some, Bool.and_eq_true, Bool.not_eq_true',
            Bool.not_eq_true'] at hready
          obtain ⟨hunfinished, hbackend⟩ := hready
          have hlife := (h.invariant.handles id handle hhandle).2
          rw [hunfinished] at hlife
          refine Kept.choose h.always fun answer => ?_
          cases answer with
          | ok =>
              have htxns : (s.editTxn id fun handle => { handle with backend := true }).txns =
                  Function.update s.txns id (some { handle with backend := true }) := by
                rw [State.editTxn, hhandle, Option.map_some]
              have hedited := h.invariant.edited hhandle htxns (hunfinished ▸ hlife)
                (fun hold => ⟨rfl, hold.2⟩) (fun _ _ => rfl) rfl rfl rfl
              exact Kept.modify h.always (.pure (h.trans ⟨hedited.1.begun, hedited.1, hedited.2⟩))
          | locked =>
              have hcalm : Calm s { s with scheduler := s.scheduler.requeueUnstarted id } :=
                .of_eq rfl rfl rfl rfl (upgrades_of_subset fun _ h => h)
              exact Kept.modify h.always (.pure (hcalm.held h))
          | failed =>
              have htxns : (s.failStart id).txns =
                  Function.update s.txns id (some { handle with finished := true }) := by
                rw [State.failStart, State.editTxn, hhandle, Option.map_some]
              have hedited := h.invariant.edited hhandle htxns
                ((life_record (ends_startFailed id).self).trans (by rw [hlife]; rfl))
                (fun hold => absurd (hbackend.symm.trans hold.1) Bool.false_ne_true)
                (turns_record (ends_startFailed id).other).lives rfl rfl rfl
              refine Kept.modify h.always ?_
              exact (lived_of_quiet (quiet_failQueuedRequests _ _)
                (h.trans ⟨hedited.1.begun, hedited.1, hedited.2⟩)).done
  · exact .pure h

theorem lived_startReadyTxns (h : outcomeContract.Held s₀ s) :
    Kept outcomeContract s₀ startReadyTxns s := by
  have hpolled : Calm s { s with scheduler := s.scheduler.pollReady.1 } :=
    .of_eq rfl rfl rfl rfl (upgrades_of_subset fun _ h => h)
  have hall (ready : List TxnId) {s : State} (h : outcomeContract.Held s₀ s) :
      Kept outcomeContract s₀ (startAll ready) s := by
    induction ready generalizing s with
    | nil => exact .pure h
    | cons id rest ih =>
        exact (lived_startReady id h).bind fun _ _ h₁ => (ih h₁).bind fun _ _ h₂ => .pure h₂
  exact Kept.modifyRead h.always (hall _ (hpolled.held h))

/-- A drained transaction is committed and reported. -/
theorem lived_finishTxns (h : outcomeContract.Held s₀ s) :
    Kept outcomeContract s₀ finishTxns s := by
  refine Kept.read ?_
  split
  · exact .pure h
  · next txnId hfind =>
      have hfinishable := List.find?_some hfind
      cases hhandle : s.txns txnId with
      | none =>
          rw [finishable, hhandle] at hfinishable
          cases hfinishable
      | some handle =>
          rw [finishable, hhandle] at hfinishable
          simp only [Option.any_some, Bool.and_eq_true, Bool.not_eq_true'] at hfinishable
          have hunfinished := hfinishable.1.1.1.1
          have htaken := h.invariant.taken hhandle
          rw [hunfinished] at htaken
          refine Kept.later h (Kept.modify h.always (Kept.choose htaken.living.begun fun ok => ?_))
          have hcommitted := htaken.recorded (ends_commit txnId none ok) (by decide)
          refine Kept.modify htaken.living.begun (Kept.modify hcommitted.living.begun ?_)
          have hedit (object : TxnObject) :
              ({ object with active := false } : TxnObject).registered = object.registered := rfl
          exact (ends_dispatchEnd hedit (ends_complete txnId)
            (hcommitted.calm (calm_forget txnId _)) (by decide) (not_gone hhandle)).done

/-! ### Requests and methods -/

theorem lived_completeRequest (txnId : TxnId) (requestId : RequestId)
    (h : outcomeContract.Held s₀ s) :
    Kept outcomeContract s₀ (completeRequest txnId requestId) s := by
  refine (lived_of_quiet (quiet_refreshTxnEpoch txnId) h).bind fun _ s₁ h₁ =>
    (lived_of_quiet (quiet_dispatch rfl) h₁).bind fun reply s₂ h₂ => ?_
  split
  · exact lived_abortTransaction txnId true h₂
  · exact .pure h₂

theorem lived_execute (txnId : TxnId) (requestId : RequestId) (op : PendingOp)
    (h : outcomeContract.Held s₀ s) :
    Kept outcomeContract s₀ (execute txnId requestId op) s := by
  have hcursor {f : State → State} {s₁ : State} (hf : Quiet s₁ (f s₁))
      (h₁ : outcomeContract.Held s₀ s₁) : Kept outcomeContract s₀
        (Prog.modify f >>= fun _ => completeRequest txnId requestId) s₁ :=
    Kept.modify h₁.always (lived_completeRequest txnId requestId (hf.calm.held h₁))
  refine (lived_of_quiet (quiet_executeOp txnId requestId op) h).bind fun result s₁ h₁ => ?_
  split
  · exact (lived_of_quiet (quiet_applyOutcome txnId requestId) h₁).bind fun _ s₂ h₂ =>
      hcursor (quiet_releaseCursor op s₂) h₂
  · exact lived_completeRequest txnId requestId h₁
  · exact hcursor (.of_eq rfl rfl rfl rfl rfl rfl rfl rfl rfl) h₁
  · refine (lived_of_quiet (quiet_failOp _ _ _) h₁).bind fun prevented s₂ h₂ => ?_
    split
    · exact lived_abortTransaction txnId false h₂
    · exact .pure h₂

theorem lived_processTxnRequests (served : List TxnId) (h : outcomeContract.Held s₀ s) :
    Kept outcomeContract s₀ (processTxnRequests served) s := by
  refine Kept.choose h.always fun order => Kept.modifyRead h.always ?_
  have h₁ := (quiet_dequeue (queueKeys order s) served s).calm.held h
  dsimp only
  split
  · exact .pure h₁
  · exact (lived_of_quiet (quiet_failQueuedRequests _ _) h₁).done
  · exact (lived_execute _ _ _ h₁).done

theorem lived_abort (txnId : TxnId) (h : outcomeContract.Held s₀ s) :
    Kept outcomeContract s₀ (abort txnId) s := by
  refine Kept.read ?_
  split
  · exact Kept.modify h.always (lived_abortTransaction txnId true
      ((quiet_mapObject txnId s over_registered).calm.held h))
  · exact .pure h

/-! ### Runs -/

theorem lived_body (proc : Proc) (hopens : proc = .processOpens → Rested s)
    (h : outcomeContract.Held s₀ s) : Kept outcomeContract s₀ (body proc) s := by
  cases proc with
  | processOpens =>
      refine Kept.later h (Safe.seq (safe_stepFound h.invariant) fun step s₁ _ hs₁ => ?_)
      obtain ⟨hcalm, hstep⟩ := hs₁
      have h₁ := hcalm.held (.refl h.always h.invariant)
      cases step with
      | none => exact Kept.pure h₁
      | some step =>
          exact (lived_perform step (fun o id hfinish => hstep o id (congrArg some hfinish)) h₁
            ((hopens rfl).later hcalm.passes)).done
  | processDeferredOpenErrors => exact (lived_of_quiet quiet_processDeferredOpenErrors h).done
  | startReadyTxns => exact (lived_startReadyTxns h).bind fun _ _ h₁ => .pure h₁
  | processTxnRequests served =>
      refine (lived_processTxnRequests served h).bind fun served' s₁ h₁ => ?_
      split
      · exact .pure h₁
      · exact .pure h₁
  | runJobs =>
      refine Kept.read ?_
      split
      · exact .pure h
      · exact Kept.callOut h fun _ _ h₁ => .pure h₁
  | deactivateIdleTxns =>
      exact Kept.modify h.always (.pure ((quiet_deactivateIdleTxns s).calm.held h))
  | finishTxns => exact (lived_finishTxns h).bind fun _ _ h₁ => .pure h₁
  | endOfTask => exact Kept.modify h.always (.pure ((quiet_endOfTask s).calm.held h))
  | noteTimerTask =>
      have hcalm : Calm s { s with taskEpoch := s.taskEpoch + 1 } :=
        .of_eq rfl rfl rfl rfl (upgrades_of_subset fun _ h => h)
      exact Kept.modify h.always (.pure (hcalm.held h))
  | issueOpen kind name version => exact (lived_of_calm (calm_issueOpen kind name version) h).done
  | storeRequest txnId opensCursor => exact (lived_of_quiet (quiet_storeRequest _ _) h).done
  | transaction connId write scope => exact (lived_transaction connId write scope h).done
  | close connId => exact (lived_of_calm (calm_close connId) h).done
  | navigate cursorId => exact (lived_of_quiet (quiet_navigate cursorId) h).done
  | cursorWrite cursorId => exact (lived_of_quiet (quiet_cursorWrite cursorId) h).done
  | commit txnId => exact (lived_of_quiet (quiet_commit txnId) h).done
  | abort txnId => exact (lived_abort txnId h).done

theorem living_new (versions : String → UInt64) (autoPump : Bool) :
    Living (State.new versions autoPump) where
  fresh _ h := absurd rfl h
  handles _ _ h := nomatch h
  unknown _ _ := rfl
  begun _ := ⟨_, List.mem_cons_self, List.nil_prefix⟩
  upgrades _ h := absurd h List.not_mem_nil

theorem outcomes_keep :
    Keeps driver outcomeContract Rested fun _ s => Living s ∧ Rested s where
  rest_later _ _ hrested hpasses := hrested.later hpasses
  main _ _ _ hs hrested := ⟨hs, hrested⟩
  api proc s hproc halways hs := by
    have hkept : Kept outcomeContract s (body proc) s := by
      refine lived_body proc ?_ (.refl halways hs)
      rintro rfl
      exact absurd hproc nofun
    obtain ⟨p, hp⟩ := body_method hproc
    change Safe outcomeContract (body proc) _ s
    rw [hp] at hkept ⊢
    exact Safe.returns hkept
  phase proc s halways hpre := by
    obtain ⟨hs, hrested⟩ := hpre
    refine (lived_body proc (fun _ => hrested) (.refl halways hs)).mono fun o s' _ hs' => ?_
    have hends := And.intro hs'.1 (hrested.later hs'.2)
    cases o <;> exact hends

/-- What has been reported of a transaction is what has become of it. -/
structure Told (s : State) (id : TxnId) : Prop where
  handle : ∀ handle, s.txns id = some handle →
    s.life id = if handle.finished then [.startFailed] else []
  gone : s.Gone id → s.life id ∈ lives
  unknown : s.txnObjects id = none → s.life id = []

/-- **Each transaction ends in one way.** In every reachable state what has been done to end a
transaction is part of one of the ways to end; at the end of every phase a transaction without a
handle has come all the way, reported complete behind its commit or reported aborted, once. -/
theorem transactions_end_once (versions : String → UInt64) (autoPump : Bool)
    {c : Config State Reply Proc} (h : Reaches driver (State.new versions autoPump) c) :
    (∀ id, Begun (c.state.life id)) ∧ (c.AtEnd → ∀ id, Told c.state id) := by
  have hliving := living_new versions autoPump
  have hgood := outcomes_keep.reaches hliving.begun hliving
    (fun _ hgone => absurd rfl hgone.1) h
  refine ⟨hgood.always, fun hend id => ?_⟩
  have htold {s : State} (hs : Living s) (hrested : Rested s) : Told s id :=
    ⟨fun handle hhandle => (hs.handles id handle hhandle).2, fun hgone => (hrested id hgone).whole,
      hs.unknown id⟩
  rcases hgood.ended hend with ⟨hs, hrested⟩ | ⟨_, hs, hrested⟩
  · exact htold hs hrested
  · exact htold hs hrested

/-- At the end of a turn, with an upgrade committed, one transaction aborted and one running. -/
theorem transactions_end_once_session : ∃ c, Reaches driver (State.new (fun _ => 0) true) c ∧
    c.state.life 0 = [.commit, .complete] ∧ c.state.life 1 = [.aborting, .abort] ∧
    c.state.life 2 = [] ∧ ∀ id, Begun (c.state.life id) ∧ Told c.state id := by
  obtain ⟨w⟩ := session
  obtain ⟨hbegun, htold⟩ := transactions_end_once _ _ w.reaches_ended
  have htrace := w.ended_trace.trans (congrArg (· ++ _) w.building_trace)
  refine ⟨_, w.reaches_ended, ?_, ?_, ?_, fun id => ⟨hbegun id, htold (.inl rfl) id⟩⟩
  · rw [State.life, htrace]
    decide
  · rw [State.life, htrace]
    decide
  · rw [State.life, htrace]
    decide

end BoaIdb.Pump
