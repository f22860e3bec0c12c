import BoaIdb.Pump.Footprints

/-!
Where open and delete requests stand.

An open or delete request is blocked once at most, and ends in `success`, in `error`, or in an
upgrade that is aborted. Between two reports the driver keeps it in the list of the pending opens,
in that of the deferred errors, or in hand; wherever handlers run the lists tell where it stands.
-/

namespace BoaIdb.Pump

open Callbacks Prog

/-! ### The life of a request -/

/-- What is reported of an open or delete request. -/
inductive Stage
  | blocked
  | startUpgrade
  | upgradeneeded
  | startDelete
  /-- `success` with a connection, of a plain open. -/
  | connected
  /-- `success` with a connection, behind an upgrade. -/
  | upgraded
  | deleted
  | failed
  deriving DecidableEq, Repr

/-- Where a request stands. -/
inductive Station
  | waiting (blocked : Bool)
  | starting
  | upgrading
  /-- Its upgrade has failed. That is reported once more if the handlers of `upgradeneeded` threw
  behind an abort. -/
  | aborted
  | deleting
  | over
  deriving DecidableEq, Repr

/-- The stages a request may go through. -/
def Station.next : Station → Stage → Option Station
  | .waiting false, .blocked => some (.waiting true)
  | .waiting _, .startUpgrade => some .starting
  | .waiting _, .startDelete => some .deleting
  | .waiting _, .connected => some .over
  | .waiting _, .failed => some .over
  | .starting, .upgradeneeded => some .upgrading
  | .starting, .failed => some .over
  | .upgrading, .upgraded => some .over
  | .upgrading, .failed => some .aborted
  | .aborted, .failed => some .over
  | .deleting, .deleted => some .over
  | .deleting, .failed => some .over
  | _, _ => none

/-- The request an event is about, and its stage. -/
def Event.staged : Event → Option (RequestId × Stage)
  | .blocked request => some (request, .blocked)
  | .startUpgrade request _ => some (request, .startUpgrade)
  | .upgradeneeded request => some (request, .upgradeneeded)
  | .startDelete request _ => some (request, .startDelete)
  | .opened request _ _ none => some (request, .connected)
  | .opened request _ _ (some _) => some (request, .upgraded)
  | .deleted request => some (request, .deleted)
  | .openFailed request _ => some (request, .failed)
  | _ => none

/-- A request stands where the events about it have led. -/
def advance (request : RequestId) (station : Station) (e : Event) : Option Station :=
  match e.staged with
  | some (request', stage) => if request' = request then station.next stage else some station
  | none => some station

/-- Where a request stands, if everything that has been reported of it was in order. -/
def station (trace : List Event) (request : RequestId) : Option Station :=
  trace.foldlM (advance request) (.waiting false)

/-- An upgrade that handlers of `upgradeneeded` abort and then throw out of fails twice. -/
example : station [.blocked 7, .startUpgrade 7 "d", .upgradeneeded 7, .openFailed 7 .abort,
    .openFailed 7 .abort] 7 = some .over := by decide

theorem station_concat (trace : List Event) (e : Event) (request : RequestId) :
    station (trace ++ [e]) request = (station trace request).bind (advance request · e) := by
  simp [station, List.foldlM_append]

/-- An event about another request. -/
theorem station_other {e : Event} {request : RequestId} (trace : List Event)
    (he : ∀ stage, e.staged ≠ some (request, stage)) :
    station (trace ++ [e]) request = station trace request := by
  have hadvance (st : Station) : advance request st e = some st := by
    unfold advance
    split
    · next request' stage heq =>
        rw [if_neg]
        rintro rfl
        exact he stage heq
    · rfl
  rw [station_concat]
  cases hst : station trace request with
  | none => rfl
  | some st => exact hadvance st

/-- The next event of a request. -/
theorem station_report {e : Event} {request : RequestId} {stage : Stage} {st : Station}
    {trace : List Event} (he : e.staged = some (request, stage))
    (hst : station trace request = some st) :
    station (trace ++ [e]) request = st.next stage := by
  rw [station_concat, hst, Option.bind_some, advance, he]
  exact if_pos rfl

theorem station_quiet {events : List Event} (trace : List Event) (request : RequestId)
    (hquiet : ∀ e ∈ events, e.staged = none) :
    station (trace ++ events) request = station trace request := by
  induction events using List.reverseRecOn with
  | nil => simp
  | append_singleton events e ih =>
      rw [← List.append_assoc, station_other _ fun stage h => ?_]
      · exact ih fun e' he' => hquiet e' (by simp [he'])
      · rw [hquiet e (by simp)] at h
        cases h

/-! ### The invariant -/

/-- Where the lists say that a pending open stands. -/
def PendingOpen.station (open' : PendingOpen) : Station :=
  if open'.upgradeActive then .upgrading else .waiting open'.blockedFired

/-- The requests of the two lists. -/
def State.kept (s : State) : List RequestId :=
  (s.opens ++ s.deferredOpenErrors).map PendingOpen.requestId

/-- What holds of the lists for themselves. -/
structure Rostered (s : State) : Prop where
  once : s.kept.Nodup
  issued : ∀ r ∈ s.kept, r < s.nextRequestId
  marks : ∀ o ∈ s.opens, o.upgradeTxnId ≠ none → o.upgradeActive = true

/-- The lists tell where one request stands. -/
structure Standing (s : State) (request : RequestId) : Prop where
  pending : ∀ o ∈ s.opens, o.requestId = request → station s.trace request = some o.station
  deferred : ∀ o ∈ s.deferredOpenErrors, o.requestId = request →
    station s.trace request = some .upgrading ∨ station s.trace request = some .aborted
  /-- What starts is under way, or over. -/
  settled : station s.trace request ≠ some .starting ∧ station s.trace request ≠ some .deleting
  /-- What was told to wait does. -/
  told : station s.trace request = some (.waiting true) → ∃ o ∈ s.opens, o.requestId = request
  fresh : s.nextRequestId ≤ request → station s.trace request = some (.waiting false)

/-- The invariant. -/
structure Stationed (s : State) : Prop where
  lists : Rostered s
  standing : ∀ request, Standing s request

/-- Everything reported was in order. -/
def Orderly (s : State) : Prop := ∀ request, station s.trace request ≠ none

/-- What handlers may do to the requests that are there: an upgrade is aborted. -/
structure Onward (s s' : State) : Prop where
  later : s.nextRequestId ≤ s'.nextRequestId
  stations : ∀ request, station s'.trace request = station s.trace request
  opens : ∀ r ∈ s'.opens.map PendingOpen.requestId, r < s.nextRequestId →
    r ∈ s.opens.map PendingOpen.requestId
  deferred : ∀ r ∈ s'.kept, r < s.nextRequestId → r ∈ s.kept

variable {s s' s'' s₀ : State} {request : RequestId} {open' : PendingOpen}

theorem Onward.refl (s : State) : Onward s s :=
  ⟨le_refl _, fun _ => rfl, fun _ h _ => h, fun _ h _ => h⟩

theorem Onward.trans (h : Onward s s') (h' : Onward s' s'') : Onward s s'' where
  later := h.later.trans h'.later
  stations r := (h'.stations r).trans (h.stations r)
  opens r hr hlt := h.opens r (h'.opens r hr (hlt.trans_le h.later)) hlt
  deferred r hr hlt := h.deferred r (h'.deferred r hr (hlt.trans_le h.later)) hlt

def stationContract : Contract State where
  always := Orderly
  invariant := Stationed
  during := Onward
  refl := Onward.refl
  trans := Onward.trans

/-! ### What reports nothing of a request -/

/-- The lists are the same, and nothing is reported of a request. -/
structure Unstaged (s s' : State) : Prop where
  opens : s'.opens = s.opens
  deferred : s'.deferredOpenErrors = s.deferredOpenErrors
  later : s.nextRequestId ≤ s'.nextRequestId
  stations : ∀ request, station s'.trace request = station s.trace request

/-- The parts that tell where requests stand. -/
def stationParts : List Part :=
  [.opens, .deferred, .requestIds, .past, .event .blocked, .event .startUpgrade,
    .event .upgradeneeded, .event .startDelete, .event .connected, .event .upgraded,
    .event .deleted, .event .openFailed]

theorem staged_eq_none {e : Event} (he : .event e.kind ∉ stationParts) : e.staged = none := by
  cases e with
  | opened request name conn upgrade => cases upgrade <;> simp [stationParts, Event.kind] at he
  | _ => first | rfl | simp [stationParts, Event.kind] at he

theorem unstaged_of_touches {touched : List Part} (h : Touches touched s s')
    (hout : ∀ part ∈ stationParts, part ∉ touched) : Unstaged s s' := by
  refine ⟨h .opens (hout _ (by decide)), h .deferred (hout _ (by decide)),
    h .requestIds (hout _ (by decide)), fun request => ?_⟩
  obtain ⟨events, htrace, hkinds⟩ := events_of_touches h (hout _ (by decide))
  rw [htrace]
  exact station_quiet _ _ fun e he => staged_eq_none fun hmem => hout _ hmem (hkinds e he)

theorem Unstaged.orderly (h : Unstaged s s') (hs : Orderly s) : Orderly s' := fun r => by
  rw [h.stations r]
  exact hs r

theorem Unstaged.standing (h : Unstaged s s') (hs : Standing s request) :
    Standing s' request := by
  refine ⟨?_, ?_, ?_, ?_, fun hle => ?_⟩
  · rw [h.opens, h.stations]
    exact hs.pending
  · rw [h.deferred, h.stations]
    exact hs.deferred
  · rw [h.stations]
    exact hs.settled
  · rw [h.stations, h.opens]
    exact hs.told
  · rw [h.stations]
    exact hs.fresh (h.later.trans hle)

theorem Unstaged.rostered (h : Unstaged s s') (hs : Rostered s) : Rostered s' := by
  have hkept : s'.kept = s.kept := by simp [State.kept, h.opens, h.deferred]
  refine ⟨hkept ▸ hs.once, fun r hr => ?_, h.opens ▸ hs.marks⟩
  exact (hs.issued r (hkept ▸ hr)).trans_le h.later

theorem Unstaged.onward (h : Unstaged s s') : Onward s s' := by
  refine ⟨h.later, h.stations, fun r hr _ => ?_, fun r hr _ => ?_⟩
  · rwa [h.opens] at hr
  · simpa [State.kept, h.opens, h.deferred] using hr

theorem Unstaged.stationed (h : Unstaged s s') (hs : Stationed s) : Stationed s' :=
  ⟨h.rostered hs.lists, fun request => h.standing (hs.standing request)⟩

theorem Unstaged.refl (s : State) : Unstaged s s := ⟨rfl, rfl, le_refl _, fun _ => rfl⟩

theorem Unstaged.trans (h : Unstaged s s') (h' : Unstaged s' s'') : Unstaged s s'' :=
  ⟨h'.opens.trans h.opens, h'.deferred.trans h.deferred, h.later.trans h'.later,
    fun r => (h'.stations r).trans (h.stations r)⟩

theorem Unstaged.held (h : Unstaged s s') (hs : stationContract.Held s₀ s) :
    stationContract.Held s₀ s' :=
  hs.trans ⟨h.orderly hs.always, h.stationed hs.invariant, h.onward⟩

variable {α β : Type} {p : Prog α} {touched : List Part}

/-- A program that touches none of those parts keeps the contract. -/
theorem stationed_of_touches (hp : p.Within (Touches touched))
    (hs : stationContract.Held s₀ s)
    (hout : ∀ part ∈ stationParts, part ∉ touched) : Kept stationContract s₀ p s :=
  hp.kept (fun _ _ h halways hs => by
    have hunstaged := unstaged_of_touches h hout
    exact ⟨hunstaged.orderly halways, hunstaged.stationed hs, hunstaged.onward⟩) hs

/-! ### A request in hand -/

/-- One request is in hand: the lists tell where all others stand. -/
structure Handling (request : RequestId) (s : State) : Prop where
  lists : Rostered s
  others : ∀ r, r ≠ request → Standing s r
  issued : request < s.nextRequestId

theorem mem_kept {o : PendingOpen} (h : o ∈ s.opens ∨ o ∈ s.deferredOpenErrors) :
    o.requestId ∈ s.kept :=
  List.mem_map_of_mem (List.mem_append.mpr h)

theorem Stationed.handling (h : Stationed s) (hlt : request < s.nextRequestId) :
    Handling request s :=
  ⟨h.lists, fun r _ => h.standing r, hlt⟩

theorem Rostered.issued_of_mem (h : Rostered s) (hmem : open' ∈ s.opens) :
    open'.requestId < s.nextRequestId :=
  h.issued _ (mem_kept (.inl hmem))

theorem Handling.stationed (h : Handling request s) (hs : Standing s request) : Stationed s := by
  refine ⟨h.lists, fun r => ?_⟩
  by_cases hr : r = request
  · exact hr ▸ hs
  · exact h.others r hr

/-- What happens to other requests. -/
theorem Standing.same (hs : Standing s request)
    (hopens : ∀ o, o.requestId = request → (o ∈ s'.opens ↔ o ∈ s.opens))
    (hdeferred : ∀ o ∈ s'.deferredOpenErrors, o.requestId = request → o ∈ s.deferredOpenErrors)
    (hsame : station s'.trace request = station s.trace request)
    (hlater : s.nextRequestId ≤ s'.nextRequestId) : Standing s' request := by
  refine ⟨fun o ho hid => ?_, fun o ho hid => ?_, ?_, fun htold => ?_, fun hle => ?_⟩
  · rw [hsame]
    exact hs.pending o ((hopens o hid).mp ho) hid
  · rw [hsame]
    exact hs.deferred o (hdeferred o ho hid) hid
  · rw [hsame]
    exact hs.settled
  · obtain ⟨o, ho, hid⟩ := hs.told (hsame ▸ htold)
    exact ⟨o, (hopens o hid).mpr ho, hid⟩
  · rw [hsame]
    exact hs.fresh (hlater.trans hle)

/-- What happens to the request in hand alone. -/
theorem Handling.turn (h : Handling request s) (hlists : Rostered s')
    (hopens : ∀ o, o.requestId ≠ request → (o ∈ s'.opens ↔ o ∈ s.opens))
    (hdeferred : ∀ o ∈ s'.deferredOpenErrors, o.requestId ≠ request → o ∈ s.deferredOpenErrors)
    (hstations : ∀ r, r ≠ request → station s'.trace r = station s.trace r)
    (hlater : s.nextRequestId ≤ s'.nextRequestId) : Handling request s' := by
  refine ⟨hlists, fun r hr => (h.others r hr).same (fun o hid => hopens o (hid ▸ hr))
    (fun o ho hid => hdeferred o ho (hid ▸ hr)) (hstations r hr) hlater,
    h.issued.trans_le hlater⟩

theorem Unstaged.handling (hsame : Unstaged s s') (h : Handling request s) :
    Handling request s' :=
  h.turn (hsame.rostered h.lists) (fun o _ => by rw [hsame.opens])
    (fun o ho _ => hsame.deferred ▸ ho) (fun r _ => hsame.stations r) hsame.later

/-- A program that touches none of those parts and hands control to nobody. -/
theorem unstaged_safe (hp : p.Within (Touches touched)) (hsilent : p.Silent)
    (horderly : Orderly s) (hout : ∀ part ∈ stationParts, part ∉ touched) :
    Safe stationContract p (fun _ s' => Unstaged s s') s :=
  hsilent.safe (hp.mono fun _ _ h => unstaged_of_touches h hout) .refl (fun _ _ _ => .trans)
    (fun _ _ h => h.orderly) horderly

/-- The request goes from the list of the opens. -/
theorem Rostered.removed (h : Rostered s) (hopens : s'.opens.Sublist s.opens)
    (hdeferred : s'.deferredOpenErrors = s.deferredOpenErrors)
    (hlater : s.nextRequestId ≤ s'.nextRequestId) : Rostered s' := by
  have hsub : s'.kept.Sublist s.kept := by
    rw [State.kept, hdeferred]
    exact (hopens.append_right _).map _
  exact ⟨h.once.sublist hsub, fun r hr => (h.issued r (hsub.subset hr)).trans_le hlater,
    fun o ho => h.marks o (hopens.subset ho)⟩

theorem mem_removeOpen {o : PendingOpen} :
    o ∈ (s.removeOpen request).opens ↔ o ∈ s.opens ∧ o.requestId ≠ request := by
  simp [State.removeOpen]

theorem Handling.removed (h : Handling request s) (hopens : s'.opens = (s.removeOpen request).opens)
    (hdeferred : s'.deferredOpenErrors = s.deferredOpenErrors)
    (hstations : ∀ r, station s'.trace r = station s.trace r)
    (hlater : s.nextRequestId ≤ s'.nextRequestId) : Handling request s' := by
  refine h.turn (h.lists.removed (hopens ▸ List.filter_sublist) hdeferred hlater)
    (fun o ho => ?_) (hdeferred ▸ fun o ho _ => ho) (fun r _ => hstations r) hlater
  rw [hopens, mem_removeOpen, and_iff_left ho]

/-- Something is reported of it. -/
theorem Handling.reported {e : Event} {stage : Stage} (h : Handling request s)
    (he : e.staged = some (request, stage)) :
    Handling request { s with trace := s.trace ++ [e] } := by
  refine h.turn ⟨h.lists.once, h.lists.issued, h.lists.marks⟩ (fun _ _ => Iff.rfl)
    (fun _ ho _ => ho) (fun r hr => station_other _ fun stage' heq => ?_) (le_refl _)
  rw [he] at heq
  cases heq
  exact hr rfl

theorem Orderly.reported {e : Event} {stage : Stage} {st : Station} (h : Orderly s)
    (he : e.staged = some (request, stage)) (hst : station s.trace request = some st)
    (hnext : st.next stage ≠ none) : Orderly { s with trace := s.trace ++ [e] } := by
  intro r
  by_cases hr : r = request
  · subst hr
    show station (s.trace ++ [e]) r ≠ none
    rw [station_report he hst]
    exact hnext
  · show station (s.trace ++ [e]) r ≠ none
    rw [station_other _ fun stage' heq => ?_]
    · exact h r
    · rw [he] at heq
      cases heq
      exact hr rfl

/-- An open that is in no list stands where it stands. -/
theorem Handling.absent (h : Handling request s) {st : Station}
    (hopens : ∀ o ∈ s.opens, o.requestId ≠ request)
    (hst : station s.trace request = some st) (hended : st = .aborted ∨ st = .upgrading ∨
      st = .over ∧ ∀ o ∈ s.deferredOpenErrors, o.requestId ≠ request) : Stationed s := by
  refine h.stationed ⟨fun o ho hid => absurd hid (hopens o ho), fun o ho hid => ?_, ?_,
    fun htold => ?_, fun hle => absurd h.issued (not_lt.mpr hle)⟩
  · rcases hended with rfl | rfl | ⟨-, hdeferred⟩
    · exact .inr hst
    · exact .inl hst
    · exact absurd hid (hdeferred o ho)
  · rw [hst]
    rcases hended with rfl | rfl | ⟨rfl, -⟩ <;> decide
  · rw [hst] at htold
    rcases hended with rfl | rfl | ⟨rfl, -⟩ <;> cases htold

/-! ### Aborts -/

/-- The open of an upgrade that is aborted. -/
theorem Rostered.found (h : Rostered s) {txnId : TxnId}
    (hfind : s.opens.find? (fun o => o.upgradeTxnId = some txnId) = some open') :
    open' ∈ s.opens ∧ open'.upgradeActive = true ∧ ∃ left right,
      s.opens = left ++ open' :: right ∧
        s.opens.eraseP (fun o => o.upgradeTxnId = some txnId) = left ++ right := by
  obtain ⟨hfound, left, right, hopens, hleft⟩ := List.find?_eq_some_iff_append.mp hfind
  have hmem : open' ∈ s.opens := by simp [hopens]
  have htxn : open'.upgradeTxnId = some txnId := by simpa using hfound
  refine ⟨hmem, h.marks open' hmem (by simp [htxn]), left, right, hopens, ?_⟩
  rw [hopens, List.eraseP_append_right _ fun o ho => by simpa using hleft o ho]
  simp [htxn]

/-- An upgrade that is aborted leaves the list of the opens, for that of the deferred errors or
for none. -/
theorem Stationed.aborted (h : Stationed s) {left right : List PendingOpen}
    (hopens : s.opens = left ++ open' :: right) (hactive : open'.upgradeActive = true)
    (hopens' : s'.opens = left ++ right) (hdeferred : s'.deferredOpenErrors = s.deferredOpenErrors ∨
      s'.deferredOpenErrors = s.deferredOpenErrors ++ [open'])
    (hnext : s'.nextRequestId = s.nextRequestId) (htrace : s'.trace = s.trace) :
    Stationed s' ∧ Onward s s' := by
  -- the two lists together hold every request at most once, before and behind
  have hkept : s.kept.Perm
      (open'.requestId :: (left ++ right ++ s.deferredOpenErrors).map PendingOpen.requestId) := by
    rw [State.kept, hopens, ← List.map_cons]
    simp only [List.append_assoc, List.cons_append]
    exact List.perm_middle.map _
  have hkept' : s'.kept.Subperm s.kept := by
    rcases hdeferred with hdeferred | hdeferred
    · rw [State.kept, hopens', hdeferred]
      exact (List.sublist_cons_self _ _).subperm.trans hkept.symm.subperm
    · rw [State.kept, hopens', hdeferred, ← List.append_assoc, List.map_append]
      exact (List.perm_append_singleton _ _).subperm.trans hkept.symm.subperm
  have honce := (hkept.nodup_iff).mp h.lists.once
  have hlists : Rostered s' := by
    refine ⟨?_, fun r hr => ?_, fun o ho => h.lists.marks o ?_⟩
    · obtain ⟨kept, hperm, hsub⟩ := hkept'
      exact hperm.nodup_iff.mp (h.lists.once.sublist hsub)
    · rw [hnext]
      exact h.lists.issued r (hkept'.subset hr)
    · rw [hopens'] at ho
      rw [hopens]
      simp only [List.mem_append, List.mem_cons] at ho ⊢
      tauto
  have hself : open' ∈ s.opens := by simp [hopens]
  have hstation : station s'.trace open'.requestId = some .upgrading := by
    rw [htrace, (h.standing _).pending open' hself rfl, PendingOpen.station, if_pos hactive]
  refine ⟨?_, hnext.ge, fun r => by rw [htrace], fun r hr _ => ?_, fun r hr _ => hkept'.subset hr⟩
  · refine ((h.handling (h.lists.issued_of_mem hself)).turn hlists (fun o ho => ?_)
      (fun o ho hid => ?_)
      (fun r _ => by rw [htrace]) hnext.ge).absent (fun o ho hid => ?_) hstation (.inr (.inl rfl))
    · rw [hopens', hopens]
      simp only [List.mem_append, List.mem_cons]
      have hne : o ≠ open' := fun heq => ho (heq ▸ rfl)
      tauto
    · rcases hdeferred with hdeferred | hdeferred
      · exact hdeferred ▸ ho
      · rw [hdeferred, List.mem_append, List.mem_singleton] at ho
        exact ho.resolve_right fun heq => hid (heq ▸ rfl)
    · rw [hopens'] at ho
      refine (List.nodup_cons.mp honce).1 (hid ▸ List.mem_map_of_mem ?_)
      exact List.mem_append_left _ ho
  · rw [hopens'] at hr
    rw [hopens]
    simp only [List.map_append, List.map_cons, List.mem_append, List.mem_cons] at hr ⊢
    tauto

theorem stationed_abortUpgradeOpen (txnId : TxnId) (notifyRequest : Bool)
    (h : stationContract.Held s₀ s) :
    Kept stationContract s₀ (abortUpgradeOpen txnId notifyRequest) s := by
  refine Kept.read ?_
  split
  · exact .pure h
  · next open' hfind =>
      obtain ⟨hmem, hactive, left, right, hopens, herase⟩ := h.invariant.lists.found hfind
      let s₁ : State := { (s.editQueue open'.name OpenQueue.onOperationFailed) with
        opens := s.opens.eraseP fun o => o.upgradeTxnId = some txnId
        deferredOpenErrors :=
          if notifyRequest then s.deferredOpenErrors ++ [open'] else s.deferredOpenErrors }
      have hdeferred : s₁.deferredOpenErrors = s.deferredOpenErrors ∨
          s₁.deferredOpenErrors = s.deferredOpenErrors ++ [open'] := by
        cases notifyRequest
        · exact .inl rfl
        · exact .inr rfl
      obtain ⟨hstationed, honward⟩ :=
        @Stationed.aborted s s₁ open' h.invariant left right hopens hactive herase hdeferred rfl rfl
      have hheld : stationContract.Held s₀ s₁ := h.trans ⟨h.always, hstationed, honward⟩
      refine Kept.modify h.always ?_
      refine (stationed_of_touches (touches_clearUpgradeTxn open') hheld (by decide)).bind
        fun _ s₁ h₁ =>
          (stationed_of_touches (touches_resetAbortedUpgradeRequest open') h₁ (by decide)).bind
            fun _ s₂ h₂ => ?_
      split
      · exact .pure h₂
      · exact (stationed_of_touches (touches_dispatch .dbAbort rfl) h₂ (by decide)).done

theorem stationed_abortTransaction (txnId : TxnId) (notifyUpgradeOpen : Bool)
    (h : stationContract.Held s₀ s) :
    Kept stationContract s₀ (abortTransaction txnId notifyUpgradeOpen) s := by
  refine (stationed_of_touches (touches_takeAborted txnId) h (by decide)).bind fun taken s₁ h₁ => ?_
  split
  · exact .pure h₁
  · have hforgotten : Unstaged s₁ (s₁.forget txnId) :=
      unstaged_of_touches (touches_forget txnId s₁) (by decide)
    refine Kept.modify h₁.always ?_
    refine (stationed_of_touches (touches_failQueuedRequests txnId _) (hforgotten.held h₁)
      (by decide)).bind fun _ s₂ h₂ =>
        (stationed_of_touches (touches_over txnId .abort rfl) h₂ (by decide)).bind
          fun _ s₃ h₃ => ?_
    split
    · exact stationed_abortUpgradeOpen txnId notifyUpgradeOpen h₃
    · exact .pure h₃

/-! ### Requests and methods -/

theorem stationed_completeRequest (txnId : TxnId) (requestId : RequestId)
    (h : stationContract.Held s₀ s) :
    Kept stationContract s₀ (completeRequest txnId requestId) s := by
  refine (stationed_of_touches (touches_refreshTxnEpoch txnId) h (by decide)).bind fun _ s₁ h₁ =>
    (stationed_of_touches (touches_dispatch .completed rfl) h₁ (by decide)).bind
      fun reply s₂ h₂ => ?_
  split
  · exact stationed_abortTransaction txnId true h₂
  · exact .pure h₂

theorem stationed_execute (txnId : TxnId) (requestId : RequestId) (op : PendingOp)
    (h : stationContract.Held s₀ s) :
    Kept stationContract s₀ (execute txnId requestId op) s := by
  have hcursor {f : State → State} {s₁ : State} (hf : Touches [] s₁ (f s₁))
      (h₁ : stationContract.Held s₀ s₁) : Kept stationContract s₀
        (Prog.modify f >>= fun _ => completeRequest txnId requestId) s₁ :=
    Kept.modify h₁.always (stationed_completeRequest txnId requestId
      ((unstaged_of_touches hf (by decide)).held h₁))
  refine (stationed_of_touches (touches_executeOp txnId requestId op) h (by decide)).bind
    fun result s₁ h₁ => ?_
  split
  · exact (stationed_of_touches (touches_applyOutcome txnId requestId) h₁ (by decide)).bind
      fun _ s₂ h₂ => hcursor (touches_releaseCursor op s₂) h₂
  · exact stationed_completeRequest txnId requestId h₁
  · exact hcursor (touches_setCursorPending _ _ s₁) h₁
  · refine (stationed_of_touches (touches_failOp txnId requestId _) h₁ (by decide)).bind
      fun prevented s₂ h₂ => ?_
    split
    · exact stationed_abortTransaction txnId false h₂
    · exact .pure h₂

theorem stationed_processTxnRequests (served : List TxnId) (h : stationContract.Held s₀ s) :
    Kept stationContract s₀ (processTxnRequests served) s := by
  refine Kept.choose h.always fun order => Kept.modifyRead h.always ?_
  have h₁ := (unstaged_of_touches (touches_dequeue (queueKeys order s) served s)
    (by decide)).held h
  dsimp only
  split
  · exact .pure h₁
  · exact (stationed_of_touches (touches_failQueuedRequests _ _) h₁ (by decide)).done
  · exact (stationed_execute _ _ _ h₁).done

/-- A new open is behind all others, and waits. -/
theorem Stationed.issued (h : Stationed s) (hsucc : s.nextRequestId + 1 ≠ 0)
    (hid : open'.requestId = s.nextRequestId) (hactive : open'.upgradeActive = false)
    (htxn : open'.upgradeTxnId = none) (hfired : open'.blockedFired = false)
    (hopens : s'.opens = s.opens ++ [open'])
    (hdeferred : s'.deferredOpenErrors = s.deferredOpenErrors)
    (hnext : s'.nextRequestId = s.nextRequestId + 1) (htrace : s'.trace = s.trace) :
    Stationed s' ∧ Onward s s' := by
  have hlater : s.nextRequestId < s'.nextRequestId := hnext ▸ lt_succ_self hsucc
  have hkept : s'.kept.Perm (s.nextRequestId :: s.kept) := by
    rw [State.kept, hopens, hdeferred, List.append_assoc, List.singleton_append, ← hid]
    exact List.perm_middle.map _
  have hmem {r : RequestId} (hr : r ∈ s'.kept) : r = s.nextRequestId ∨ r ∈ s.kept :=
    List.mem_cons.mp (hkept.subset hr)
  -- its number has not been handed out before
  have hnew : s.nextRequestId ∉ s.kept := fun hin => (h.lists.issued _ hin).false
  have hlists : Rostered s' := by
    refine ⟨hkept.nodup_iff.mpr (List.nodup_cons.mpr ⟨hnew, h.lists.once⟩), fun r hr => ?_,
      fun o ho hne => ?_⟩
    · rcases hmem hr with rfl | hr
      · exact hlater
      · exact (h.lists.issued r hr).trans hlater
    · rw [hopens, List.mem_append, List.mem_singleton] at ho
      rcases ho with ho | rfl
      · exact h.lists.marks o ho hne
      · exact absurd htxn hne
  have hstation : station s'.trace s.nextRequestId = some (.waiting false) := by
    rw [htrace]
    exact (h.standing _).fresh (le_refl _)
  refine ⟨⟨hlists, fun r => ?_⟩, hlater.le, fun r => by rw [htrace], fun r hr hlt => ?_,
    fun r hr hlt => (hmem hr).resolve_left hlt.ne⟩
  · by_cases hr : r = s.nextRequestId
    · subst hr
      refine ⟨fun o ho hoid => ?_, fun o ho hoid => ?_, ?_, fun htold => ?_,
        fun hle => absurd hlater (not_lt.mpr hle)⟩
      · rw [hopens, List.mem_append, List.mem_singleton] at ho
        rcases ho with ho | rfl
        · exact absurd (hoid ▸ mem_kept (.inl ho)) hnew
        · rw [hstation, PendingOpen.station, hactive, hfired]
          rfl
      · exact absurd (hoid ▸ mem_kept (.inr (hdeferred ▸ ho))) hnew
      · rw [hstation]
        exact ⟨nofun, nofun⟩
      · rw [hstation] at htold
        cases htold
    · refine (h.standing r).same (fun o hoid => ?_) (fun o ho _ => hdeferred ▸ ho) (by rw [htrace])
        hlater.le
      have hne : o ≠ open' := fun heq => hr (by rw [← hoid, heq, hid])
      simp [hopens, hne]
  · rw [hopens, List.map_append, List.map_singleton, List.mem_append, List.mem_singleton] at hr
    exact hr.resolve_right fun heq => hlt.ne (heq.trans hid)

theorem stationed_issueOpen (kind : OpenKind) (name : String) (version : UInt64)
    (h : stationContract.Held s₀ s) :
    Kept stationContract s₀ (issueOpen kind name version) s := by
  refine Kept.last h.always ?_
  split
  · exact h
  · next hnext =>
      let s₁ : State := { s with
        opens := s.opens ++
          [⟨kind, name, version, s.nextConnId, s.nextRequestId, false, none, false, false, none⟩]
        nextRequestId := s.nextRequestId + 1
        nextConnId := s.nextConnId + 1 }
      have hissued : Stationed s₁ ∧ Onward s s₁ :=
        h.invariant.issued (not_or.mp hnext).1 rfl rfl rfl rfl rfl rfl rfl rfl
      exact h.trans ⟨h.always, hissued.1, hissued.2⟩

theorem stationed_abort (txnId : TxnId) (h : stationContract.Held s₀ s) :
    Kept stationContract s₀ (abort txnId) s := by
  refine Kept.read ?_
  split
  · have hsame : Unstaged s { s with
        txnObjects := Function.update s.txnObjects txnId
          ((s.txnObjects txnId).map TxnObject.over) } :=
      ⟨rfl, rfl, le_refl _, fun _ => rfl⟩
    exact Kept.modify h.always (stationed_abortTransaction txnId true (hsame.held h))
  · exact .pure h

/-! ### The scan -/

theorem Rostered.eq_of_id (h : Rostered s) {a b : PendingOpen} (ha : a ∈ s.opens)
    (hb : b ∈ s.opens) (hid : a.requestId = b.requestId) : a = b := by
  have honce := h.once
  rw [State.kept, List.map_append] at honce
  exact List.inj_on_of_nodup_map honce.of_append_left ha hb hid

theorem Rostered.not_deferred (h : Rostered s) {a b : PendingOpen} (ha : a ∈ s.opens)
    (hb : b ∈ s.deferredOpenErrors) : a.requestId ≠ b.requestId := by
  have honce := h.once
  rw [State.kept, List.map_append, List.nodup_append] at honce
  exact honce.2.2 _ (List.mem_map_of_mem ha) _ (List.mem_map_of_mem hb)

theorem Rostered.find (h : Rostered s) (hmem : open' ∈ s.opens) :
    s.opens.find? (fun o => o.requestId = open'.requestId) = some open' := by
  cases hfind : s.opens.find? fun o => o.requestId = open'.requestId with
  | none =>
      rw [List.find?_eq_none] at hfind
      exact absurd (decide_eq_true rfl) (hfind open' hmem)
  | some o =>
      have hid : o.requestId = open'.requestId := by simpa using List.find?_some hfind
      rw [h.eq_of_id (List.mem_of_find?_eq_some hfind) hmem hid]

/-- A pending open that stands where its entry says. -/
theorem Rostered.standing (h : Rostered s) (hmem : open' ∈ s.opens)
    (hst : station s.trace open'.requestId = some open'.station) :
    Standing s open'.requestId := by
  refine ⟨fun o ho hid => ?_, fun o ho hid => absurd hid.symm (h.not_deferred hmem ho), ?_,
    fun _ => ⟨open', hmem, rfl⟩,
    fun hle => absurd (h.issued_of_mem hmem) (not_lt.mpr hle)⟩
  · rw [h.eq_of_id ho hmem hid]
    exact hst
  · rw [hst, PendingOpen.station]
    split <;> exact ⟨nofun, nofun⟩

theorem mem_editOpen {edit : PendingOpen → PendingOpen} {o : PendingOpen} :
    o ∈ (s.editOpen request edit).opens ↔ o ∈ s.opens ∧ o.requestId ≠ request ∨
      ∃ o' ∈ s.opens, o'.requestId = request ∧ edit o' = o := by
  constructor
  · intro ho
    obtain ⟨o', ho', rfl⟩ := List.mem_map.mp ho
    by_cases hid : o'.requestId = request
    · exact .inr ⟨o', ho', hid, (if_pos hid).symm⟩
    · rw [if_neg hid]
      exact .inl ⟨ho', hid⟩
  · rintro (⟨ho, hid⟩ | ⟨o', ho', hid, rfl⟩)
    · exact List.mem_map.mpr ⟨o, ho, if_neg hid⟩
    · exact List.mem_map.mpr ⟨o', ho', if_pos hid⟩

/-- The entry of the open in hand changes. -/
theorem Handling.edited (h : Handling request s) {edit : PendingOpen → PendingOpen}
    (hedit : ∀ o ∈ s.opens, o.requestId = request → (edit o).requestId = request)
    (hmarks : ∀ o ∈ s.opens, o.requestId = request → (edit o).upgradeTxnId ≠ none →
      (edit o).upgradeActive = true)
    (hopens : s'.opens = (s.editOpen request edit).opens)
    (hdeferred : s'.deferredOpenErrors = s.deferredOpenErrors)
    (hstations : ∀ r, station s'.trace r = station s.trace r)
    (hlater : s.nextRequestId ≤ s'.nextRequestId) : Handling request s' := by
  have hkept : s'.kept = s.kept := by
    rw [State.kept, hopens, hdeferred, State.kept, List.map_append, List.map_append]
    congr 1
    refine (List.map_map ..).trans (List.map_congr_left fun o ho => ?_)
    rw [Function.comp_apply]
    split
    · next hid => exact (hedit o ho hid).trans hid.symm
    · rfl
  refine h.turn ⟨hkept ▸ h.lists.once, fun r hr => ?_, fun o ho hne => ?_⟩ (fun o hid => ?_)
    (fun o ho _ => hdeferred ▸ ho) (fun r _ => hstations r) hlater
  · exact (h.lists.issued r (hkept ▸ hr)).trans_le hlater
  · rw [hopens, mem_editOpen] at ho
    rcases ho with ⟨ho, -⟩ | ⟨o', ho', hid, rfl⟩
    · exact h.lists.marks o ho hne
    · exact hmarks o' ho' hid hne
  · rw [hopens, mem_editOpen]
    constructor
    · rintro (⟨ho, -⟩ | ⟨o', ho', hid', rfl⟩)
      · exact ho
      · exact absurd (hedit o' ho' hid') hid
    · exact fun ho => .inl ⟨ho, hid⟩

/-- Whether a look leads to a notice: then it is the first. -/
def Looked.Notices (looked : Looked) (open' : PendingOpen) : Prop :=
  looked.step = some (.fireBlocked looked.open') ∧ open'.blockedFired = false ∧
      looked.open'.blockedFired = true ∨
    (∀ o, looked.step ≠ some (.fireBlocked o)) ∧
      looked.open'.blockedFired = open'.blockedFired

theorem lookIdle_notices (open' : PendingOpen) (answers : List OpenQueue.OpenQueueAction)
    (queue : OpenQueue) : (lookIdle open' answers queue).Notices open' := by
  unfold lookIdle
  split
  · exact .inr ⟨nofun, rfl⟩
  · split
    · exact .inr ⟨nofun, rfl⟩
    · next action _ =>
        dsimp only
        cases action with
        | openConnection id version => exact .inr ⟨nofun, rfl⟩
        | failOpen id error => exact .inr ⟨nofun, rfl⟩
        | startUpgrade id old new => exact .inr ⟨nofun, rfl⟩
        | startDelete id => exact .inr ⟨nofun, rfl⟩
        | sendBlocked id =>
            dsimp only
            split
            · exact .inr ⟨nofun, rfl⟩
            · next hfired => exact .inl ⟨rfl, Bool.eq_false_of_not_eq_true hfired, rfl⟩

theorem lookAt_notices (open' : PendingOpen) (live : UInt32) (queue : OpenQueue) :
    (lookAt open' live queue).Notices open' := by
  have hidle (answers : List OpenQueue.OpenQueueAction) (queue : OpenQueue) :
      (lookIdle { open' with queued := true } answers queue).Notices open' :=
    lookIdle_notices { open' with queued := true } answers queue
  unfold lookAt
  dsimp only
  split
  · split
    · exact hidle _ _
    · next action _ =>
        cases action with
        | startUpgrade id old new => exact .inr ⟨nofun, rfl⟩
        | startDelete id => exact .inr ⟨nofun, rfl⟩
        | openConnection id version => exact hidle _ _
        | failOpen id error => exact hidle _ _
        | sendBlocked id => exact hidle _ _
  · exact hidle _ _

/-- What a look leaves: its open in hand, as it was seen. -/
structure Sighted (seen : PendingOpen) (s : State) : Prop where
  handling : Handling seen.requestId s
  mem : seen ∈ s.opens
  active : seen.upgradeActive = false

theorem Stationed.look (h : Stationed s) (hmem : open' ∈ s.opens)
    (hactive : open'.upgradeActive = false) {looked : Looked} (hseen : open'.Seen looked.open')
    (horderly : Orderly s) :
    Orderly (s.look open'.requestId open'.name looked) ∧
      Sighted looked.open' (s.look open'.requestId open'.name looked) ∧
      station (s.look open'.requestId open'.name looked).trace looked.open'.requestId =
        some (.waiting open'.blockedFired) := by
  obtain ⟨fired, hopen⟩ := hseen
  have hid : looked.open'.requestId = open'.requestId := by rw [hopen]
  have hstations (r : RequestId) :
      station (s.look open'.requestId open'.name looked).trace r = station s.trace r := by
    refine station_quiet _ _ fun e he => ?_
    obtain ⟨action, -, rfl⟩ := List.mem_map.mp he
    rfl
  have hhandling : Handling open'.requestId (s.look open'.requestId open'.name looked) := by
    refine (h.handling (h.lists.issued_of_mem hmem)).edited (fun _ _ _ => hid)
      (fun o _ _ hne => ?_) rfl rfl hstations
      (le_refl _)
    rw [hopen] at hne ⊢
    exact h.lists.marks open' hmem hne
  refine ⟨fun r => ?_, ⟨hid ▸ hhandling, ?_, ?_⟩, ?_⟩
  · rw [hstations]
    exact horderly r
  · exact mem_editOpen.mpr (.inr ⟨open', hmem, rfl, rfl⟩)
  · rw [hopen]
    exact hactive
  · rw [hstations, hid, (h.standing _).pending open' hmem rfl, PendingOpen.station, hactive]
    rfl

/-- What a scan leads to. -/
def Chosen (s : State) : Option OpenStep → Prop
  | none => Stationed s
  | some (.fireBlocked o) => Sighted o s ∧ o.blockedFired = true ∧
      station s.trace o.requestId = some (.waiting false)
  | some (.openConnection o _) | some (.failOpen o _) | some (.startUpgrade o _ _)
  | some (.startDelete o) => Stationed s ∧ o ∈ s.opens ∧ o.upgradeActive = false
  | some (.finishUpgrade o _) => Stationed s ∧ o ∈ s.opens ∧ o.upgradeActive = true

/-- The open as it was seen stands where its entry says. -/
theorem Sighted.stationed {seen : PendingOpen} (h : Sighted seen s)
    (hst : station s.trace seen.requestId = some (.waiting seen.blockedFired)) : Stationed s := by
  refine h.handling.stationed (h.handling.lists.standing h.mem ?_)
  rw [hst, PendingOpen.station, h.active]
  rfl

theorem orderly_openQueueOf (name : String) (horderly : Orderly s) :
    Safe stationContract (openQueueOf name) (fun _ s' => s' = s) s := by
  refine Safe.read ?_
  split
  · exact .pure horderly rfl
  · exact Safe.choose horderly fun _ => .pure horderly rfl

theorem chosen_scanOpens (ids : List RequestId) (h : Stationed s) (horderly : Orderly s)
    (hactive : ∀ o ∈ s.opens, o.requestId ∈ ids → o.upgradeActive = false) :
    Safe stationContract (scanOpens ids) (fun step s' => Chosen s' step) s := by
  -- induction on the opens that are left to look at
  induction ids generalizing s with
  | nil => exact .pure horderly h
  | cons requestId ids ih =>
      refine Safe.read ?_
      split
      · exact .pure horderly h
      · next open' hfind =>
          have hmem := List.mem_of_find?_eq_some hfind
          obtain rfl : open'.requestId = requestId := by simpa using List.find?_some hfind
          have hself := hactive open' hmem (by simp)
          refine Safe.seq (orderly_openQueueOf open'.name horderly) ?_
          rintro queue s' - rfl
          refine Safe.modify horderly ?_
          obtain ⟨hseen, hof⟩ := lookAt_seen open' (s'.liveConnectionCount open'.name) queue
          have hnotices := lookAt_notices open' (s'.liveConnectionCount open'.name) queue
          generalize lookAt open' (s'.liveConnectionCount open'.name) queue = looked at *
          obtain ⟨horderly', hsighted, hst⟩ := h.look hmem hself hseen horderly
          rcases hnotices with ⟨hstep, hbefore, hafter⟩ | ⟨hstep, hsame⟩
          · rw [hstep]
            exact .pure horderly' ⟨hsighted, hafter, by rw [hst, hbefore]⟩
          · have hstationed := hsighted.stationed (by rw [hst, hsame])
            split
            · refine ih hstationed horderly' fun o ho hid => ?_
              rcases mem_editOpen.mp ho with ⟨ho, -⟩ | ⟨o', -, -, rfl⟩
              · exact hactive o ho (List.mem_cons_of_mem _ hid)
              · exact hsighted.active
            · next step heq =>
                have hstepOf := hof step heq
                refine .pure horderly' ?_
                cases step with
                | fireBlocked o => exact absurd heq (hstep o)
                | finishUpgrade o txnId => exact hstepOf.elim
                | openConnection o version =>
                    obtain rfl : o = looked.open' := hstepOf
                    exact ⟨hstationed, hsighted.mem, hsighted.active⟩
                | failOpen o error =>
                    obtain rfl : o = looked.open' := hstepOf
                    exact ⟨hstationed, hsighted.mem, hsighted.active⟩
                | startUpgrade o old new =>
                    obtain rfl : o = looked.open' := hstepOf
                    exact ⟨hstationed, hsighted.mem, hsighted.active⟩
                | startDelete o =>
                    obtain rfl : o = looked.open' := hstepOf
                    exact ⟨hstationed, hsighted.mem, hsighted.active⟩

theorem chosen_nextOpenStep (h : Stationed s) (horderly : Orderly s) :
    Safe stationContract nextOpenStep (fun step s' => Chosen s' step) s := by
  have hscan : Safe stationContract
      (scanOpens ((s.opens.filter fun o => !o.upgradeActive).map PendingOpen.requestId))
      (fun step s' => Chosen s' step) s := by
    refine chosen_scanOpens _ h horderly fun o ho hid => ?_
    obtain ⟨o', ho', heq⟩ := List.mem_map.mp hid
    obtain ⟨ho', hactive⟩ := List.mem_filter.mp ho'
    rw [← h.lists.eq_of_id ho' ho heq]
    simpa using hactive
  refine Safe.read ?_
  split
  · exact hscan
  · next open' hfind =>
      split
      · exact .pure horderly h
      · split
        · exact .pure horderly ⟨h, List.mem_of_find?_eq_some hfind, List.find?_some hfind⟩
        · exact hscan

/-! ### The steps -/

/-- Handlers of an event run, and leave what the contract says. -/
theorem safe_dispatch {e : Event} (horderly : Orderly s)
    (horderly' : Orderly { s with trace := s.trace ++ [e] })
    (h : Stationed { s with trace := s.trace ++ [e] }) :
    Safe stationContract (dispatch e)
      (fun _ s' => stationContract.Held { s with trace := s.trace ++ [e] } s') s :=
  Safe.modify horderly ⟨horderly', h, fun _ _ horderly'' h' honward =>
    ⟨horderly'', horderly'', h', honward⟩⟩

/-- The last report about a request that is in no list. -/
theorem stationed_last {e : Event} {stage : Stage} {st st' : Station} (h : Handling request s)
    (horderly : Orderly s) (he : e.staged = some (request, stage))
    (hst : station s.trace request = some st) (hnext : st.next stage = some st')
    (hopens : ∀ o ∈ s.opens, o.requestId ≠ request)
    (hended : st' = .aborted ∨ st' = .over ∧ ∀ o ∈ s.deferredOpenErrors, o.requestId ≠ request) :
    Safe stationContract (dispatch e)
      (fun _ s' => stationContract.Held { s with trace := s.trace ++ [e] } s') s := by
  have hreport : station (s.trace ++ [e]) request = some st' := by
    rw [station_report he hst, hnext]
  refine safe_dispatch horderly (horderly.reported he hst (by simp [hnext])) ?_
  exact (h.reported he).absent hopens hreport (hended.imp_right .inr)

/-- An open that waits is settled, and that is reported. -/
theorem stationed_settled {f : State → State} {e : Event} {stage : Stage}
    (h : Handling open'.requestId s) (hmem : open' ∈ s.opens) (horderly : Orderly s)
    (hopens : (f s).opens = (s.removeOpen open'.requestId).opens)
    (hdeferred : (f s).deferredOpenErrors = s.deferredOpenErrors)
    (htrace : (f s).trace = s.trace) (hlater : (f s).nextRequestId = s.nextRequestId)
    {st : Station} (hst : station s.trace open'.requestId = some st)
    (he : e.staged = some (open'.requestId, stage)) (hnext : st.next stage = some .over) :
    Safe stationContract (modify f >>= fun _ => dispatch e >>= fun _ => (pure () : Prog Unit))
      (fun _ => Stationed) s := by
  have hstations (r : RequestId) : station (f s).trace r = station s.trace r := by rw [htrace]
  have horderly' : Orderly (f s) := fun r => by
    rw [hstations]
    exact horderly r
  have hremoved := h.removed hopens hdeferred hstations hlater.ge
  refine Safe.modify horderly (Safe.seq (stationed_last hremoved horderly' he
    (by rw [hstations, hst]) hnext (fun o ho => ?_) (.inr ⟨rfl, fun o ho => ?_⟩))
    fun _ _ horderly'' h' => .pure horderly'' h'.invariant)
  · rw [hopens] at ho
    exact (mem_removeOpen.mp ho).2
  · rw [hdeferred] at ho
    exact (h.lists.not_deferred hmem ho).symm

theorem stationed_fireBlocked (h : Sighted open' s) (hfired : open'.blockedFired = true)
    (hst : station s.trace open'.requestId = some (.waiting false)) (horderly : Orderly s) :
    Safe stationContract (perform (.fireBlocked open')) (fun _ => Stationed) s := by
  have hhandling := h.handling.reported (e := .blocked open'.requestId) rfl
  have hreport : station (s.trace ++ [.blocked open'.requestId]) open'.requestId =
      some (.waiting true) := by rw [station_report rfl hst]; rfl
  have hstationed : Stationed { s with trace := s.trace ++ [.blocked open'.requestId] } := by
    refine hhandling.stationed (hhandling.lists.standing h.mem ?_)
    rw [hreport, PendingOpen.station, h.active, hfired]
    rfl
  exact Safe.seq (safe_dispatch horderly (horderly.reported rfl hst nofun) hstationed)
    fun _ _ horderly' h' => .pure horderly' h'.invariant

/-- The station of an open that is in no upgrade. -/
theorem Stationed.waiting (h : Stationed s) (hmem : open' ∈ s.opens)
    (hactive : open'.upgradeActive = false) :
    station s.trace open'.requestId = some (.waiting open'.blockedFired) := by
  rw [(h.standing _).pending open' hmem rfl, PendingOpen.station, hactive]
  rfl

theorem stationed_openConnection (h : Stationed s) (hmem : open' ∈ s.opens)
    (hactive : open'.upgradeActive = false) (horderly : Orderly s) :
    Safe stationContract (openConnection open') (fun _ => Stationed) s :=
  stationed_settled (h.handling (h.lists.issued_of_mem hmem)) hmem horderly rfl rfl rfl rfl
    (h.waiting hmem hactive) rfl (by cases open'.blockedFired <;> rfl)

theorem stationed_failOpen (h : Stationed s) (hmem : open' ∈ s.opens)
    (hactive : open'.upgradeActive = false) (error : IdbError) (horderly : Orderly s) :
    Safe stationContract (perform (.failOpen open' error)) (fun _ => Stationed) s :=
  stationed_settled (h.handling (h.lists.issued_of_mem hmem)) hmem horderly rfl rfl rfl rfl
    (h.waiting hmem hactive) rfl (by cases open'.blockedFired <;> rfl)

theorem stationed_startDelete (h : Stationed s) (hmem : open' ∈ s.opens)
    (hactive : open'.upgradeActive = false) (horderly : Orderly s) :
    Safe stationContract (startDelete open') (fun _ => Stationed) s := by
  have hhandling := (h.handling (h.lists.issued_of_mem hmem)).reported
    (e := .startDelete open'.requestId open'.name) rfl
  have hwaiting := h.waiting hmem hactive
  have hnext : (Station.waiting open'.blockedFired).next .startDelete = some .deleting := by
    cases open'.blockedFired <;> rfl
  have horderly' : Orderly
      { s with trace := s.trace ++ [.startDelete open'.requestId open'.name] } :=
    horderly.reported rfl hwaiting (by rw [hnext]; exact nofun)
  have hst : station (s.trace ++ [.startDelete open'.requestId open'.name]) open'.requestId =
      some .deleting := by rw [station_report rfl hwaiting, hnext]
  refine Safe.modify horderly (Safe.choose horderly' fun deleted => ?_)
  split
  · exact stationed_settled hhandling hmem horderly' rfl rfl rfl rfl hst rfl rfl
  · exact stationed_settled hhandling hmem horderly' rfl rfl rfl rfl hst rfl rfl

/-- Whatever handlers have done since, the request is in no list it was not in. -/
theorem Onward.absent (h : Onward s s') (hlt : request < s.nextRequestId)
    (hopens : ∀ o ∈ s.opens, o.requestId ≠ request) : ∀ o ∈ s'.opens, o.requestId ≠ request := by
  rintro o ho rfl
  obtain ⟨o', ho', hid⟩ := List.mem_map.mp (h.opens _ (List.mem_map_of_mem ho) hlt)
  exact hopens o' ho' hid

theorem Onward.gone (h : Onward s s') (hlt : request < s.nextRequestId) (hgone : request ∉ s.kept) :
    ∀ o ∈ s'.opens ++ s'.deferredOpenErrors, o.requestId ≠ request := by
  rintro o ho rfl
  exact hgone (h.deferred _ (List.mem_map_of_mem ho) hlt)

/-- An upgrade whose `upgradeneeded` handlers threw, aborted by them before or not. -/
theorem stationed_abortFailedUpgrade (txnId : TxnId) (h : Stationed s) (horderly : Orderly s)
    (hlt : open'.requestId < s.nextRequestId)
    (hst : station s.trace open'.requestId = some .upgrading) :
    Safe stationContract (abortFailedUpgrade open' txnId) (fun _ => Stationed) s := by
  refine Safe.seq (unstaged_safe (touches_resetAbortedUpgradeRequest open')
    (silent_resetAbortedUpgradeRequest open') horderly (by decide)) fun _ s₁ horderly₁ hs₁ => ?_
  refine Safe.seq (unstaged_safe (touches_takeAborted txnId) (fun _ => trivial) horderly₁
    (by decide)) fun _ s₂ horderly₂ hs₂ => Safe.modify horderly₂ ?_
  have hsame := hs₁.trans hs₂
  let s₃ : State := ((s₂.forget txnId).removeOpen open'.requestId).editQueue open'.name
    OpenQueue.onOperationFailed
  have horderly₃ : Orderly s₃ := horderly₂
  have hlt₃ : open'.requestId < s₃.nextRequestId := hlt.trans_le hsame.later
  have habsent : ∀ o ∈ s₃.opens, o.requestId ≠ open'.requestId := fun o ho =>
    (mem_removeOpen.mp ho).2
  have hst₃ : station s₃.trace open'.requestId = some .upgrading := (hsame.stations _).trans hst
  have hremoved : Handling open'.requestId s₃ :=
    (hsame.handling (h.handling hlt)).removed rfl rfl (fun _ => rfl) (le_refl _)
  have h₃ : Stationed s₃ := hremoved.absent habsent hst₃ (.inr (.inl rfl))
  refine Safe.seq (stationed_of_touches (touches_over txnId .abort rfl) (.refl horderly₃ h₃)
    (by decide)) fun _ s₄ horderly₄ h₄ => ?_
  obtain ⟨h₄, honward⟩ := h₄
  exact Safe.seq (stationed_last (h₄.handling (hlt₃.trans_le honward.later)) horderly₄ rfl
    ((honward.stations _).trans hst₃) rfl (honward.absent hlt₃ habsent) (.inl rfl))
    fun _ _ horderly' h' => .pure horderly' h'.invariant

theorem stationed_startUpgrade (h : Stationed s) (hmem : open' ∈ s.opens)
    (hactive : open'.upgradeActive = false) (oldVersion newVersion : UInt64)
    (horderly : Orderly s) :
    Safe stationContract (startUpgrade open' oldVersion newVersion) (fun _ => Stationed) s := by
  have hhandling := (h.handling (h.lists.issued_of_mem hmem)).reported
    (e := .startUpgrade open'.requestId open'.name) rfl
  have hwaiting := h.waiting hmem hactive
  have hnext : (Station.waiting open'.blockedFired).next .startUpgrade = some .starting := by
    cases open'.blockedFired <;> rfl
  -- first the event `startUpgrade`, then the transaction, then `upgradeneeded`
  have horderly' : Orderly
      { s with trace := s.trace ++ [.startUpgrade open'.requestId open'.name] } :=
    horderly.reported rfl hwaiting (by rw [hnext]; exact nofun)
  have hst : station (s.trace ++ [.startUpgrade open'.requestId open'.name]) open'.requestId =
      some .starting := by rw [station_report rfl hwaiting, hnext]
  refine Safe.modify horderly (Safe.seq (unstaged_safe (touches_startUpgradeTxn open')
    (silent_startUpgradeTxn open') horderly' (by decide)) fun started s₁ horderly₁ hsame => ?_)
  have hhandling₁ := hsame.handling hhandling
  have hmem₁ : open' ∈ s₁.opens := hsame.opens ▸ hmem
  have hst₁ : station s₁.trace open'.requestId = some .starting :=
    (hsame.stations _).trans hst
  cases started with
  | none => exact stationed_settled hhandling₁ hmem₁ horderly₁ rfl rfl rfl rfl hst₁ rfl rfl
  | some txnId =>
      refine Safe.modify horderly₁ (Safe.read ?_)
      let s₂ : State := s₁.editOpen open'.requestId (.activate txnId (oldVersion, newVersion))
      have hedit : ∀ o ∈ s₁.opens, o.requestId = open'.requestId →
          (o.activate txnId (oldVersion, newVersion)).requestId = open'.requestId :=
        fun _ _ hid => hid
      have hhandling₂ : Handling open'.requestId s₂ :=
        hhandling₁.edited hedit (fun _ _ _ _ => rfl) rfl rfl (fun _ => rfl) (le_refl _)
      have hmem₂ : open'.activate txnId (oldVersion, newVersion) ∈ s₂.opens :=
        mem_editOpen.mpr (.inr ⟨open', hmem₁, rfl, rfl⟩)
      have hfind : (s₂.opens.find? fun o => o.requestId = open'.requestId) =
          some (open'.activate txnId (oldVersion, newVersion)) :=
        hhandling₂.lists.find hmem₂
      have hdispatch : Safe stationContract (dispatch (.upgradeneeded open'.requestId))
          (fun _ s' => stationContract.Held
            { s₂ with trace := s₂.trace ++ [.upgradeneeded open'.requestId] } s') s₂ := by
        refine safe_dispatch horderly₁ (horderly₁.reported rfl hst₁ nofun) ?_
        have hreported := hhandling₂.reported (e := .upgradeneeded open'.requestId) rfl
        have hlisted := hreported.lists.standing hmem₂ (by
          show station (s₁.trace ++ [.upgradeneeded open'.requestId]) open'.requestId = _
          rw [station_report rfl hst₁]
          rfl)
        exact hreported.stationed hlisted
      show Safe stationContract (_ >>= _) _ s₂
      rw [hfind]
      refine Safe.seq hdispatch fun reply s₃ horderly₃ h₃ => ?_
      split
      · obtain ⟨-, h₃, honward⟩ := h₃
        refine stationed_abortFailedUpgrade txnId h₃ horderly₃
          (hhandling₂.issued.trans_le honward.later) ?_
        refine (honward.stations _).trans ?_
        show station (s₁.trace ++ [.upgradeneeded open'.requestId]) open'.requestId = _
        rw [station_report rfl hst₁]
        rfl
      · exact .pure horderly₃ h₃.invariant

theorem stationed_finishUpgrade (txnId : TxnId) (h : Stationed s) (hmem : open' ∈ s.opens)
    (hactive : open'.upgradeActive = true) (horderly : Orderly s) :
    Safe stationContract (finishUpgrade open' txnId) (fun _ => Stationed) s := by
  have htaken : Unstaged s (s.setTxn txnId none) := ⟨rfl, rfl, le_refl _, fun _ => rfl⟩
  refine Safe.modifyRead horderly (Safe.seq (unstaged_safe (touches_commitUpgrade _ _ _)
    (silent_commitUpgrade _ _ _) (htaken.orderly horderly) (by decide)) fun _ s₁ horderly₁ hs₁ =>
      Safe.modify horderly₁ ?_)
  have hsame : Unstaged s s₁ := htaken.trans hs₁
  have hlt := h.lists.issued_of_mem hmem
  let s₂ : State := ((s₁.forget txnId).removeOpen open'.requestId).releaseUpgrade open' txnId
  have hreleased : Unstaged ((s₁.forget txnId).removeOpen open'.requestId) s₂ :=
    unstaged_of_touches (touches_releaseUpgrade open' txnId _) (by decide)
  have hstations₂ (r : RequestId) : station s₂.trace r = station s₁.trace r :=
    hreleased.stations r
  have hhandling₁ : Handling open'.requestId s₁ := hsame.handling (h.handling hlt)
  have hhandling₂ : Handling open'.requestId s₂ :=
    hhandling₁.removed hreleased.opens hreleased.deferred hstations₂ hreleased.later
  have habsent₂ : ∀ o ∈ s₂.opens, o.requestId ≠ open'.requestId := by
    intro o ho
    rw [hreleased.opens] at ho
    exact (mem_removeOpen.mp ho).2
  have hgone₂ : open'.requestId ∉ s₂.kept := by
    intro hin
    obtain ⟨o, ho, hid⟩ := List.mem_map.mp hin
    rcases List.mem_append.mp ho with ho | ho
    · exact habsent₂ o ho hid
    · rw [hreleased.deferred] at ho
      exact h.lists.not_deferred hmem (hsame.deferred ▸ ho) hid.symm
  have hst₂ : station s₂.trace open'.requestId = some .upgrading := by
    rw [hstations₂, hsame.stations, (h.standing _).pending open' hmem rfl, PendingOpen.station,
      if_pos hactive]
  have horderly₂ : Orderly s₂ := fun r => by
    rw [hstations₂]
    exact horderly₁ r
  have h₂ := hhandling₂.absent habsent₂ hst₂ (.inr (.inl rfl))
  -- the last event of the open, which has left both lists by then
  have hlast {e : Event} {stage : Stage} {st : Station} {s' : State}
      (he : e.staged = some (open'.requestId, stage))
      (hnext : Station.upgrading.next stage = some st)
      (hended : st = .aborted ∨ st = .over) (h' : stationContract.Held s₂ s') :
      Safe stationContract (dispatch e >>= fun _ => (pure () : Prog Unit))
        (fun _ => Stationed) s' := by
    obtain ⟨horderly', hstationed', honward⟩ := h'
    have hgone := honward.gone hhandling₂.issued hgone₂
    refine Safe.seq (stationed_last (hstationed'.handling
      (hhandling₂.issued.trans_le honward.later)) horderly' he ((honward.stations _).trans hst₂)
      hnext (fun o ho => hgone o (List.mem_append_left _ ho)) (hended.imp_right fun hover =>
        ⟨hover, fun o ho => hgone o (List.mem_append_right _ ho)⟩))
      fun _ _ horderly'' h'' => .pure horderly'' h''.invariant
  refine Safe.seq (stationed_of_touches (touches_over txnId .complete rfl) (.refl horderly₂ h₂)
    (by decide)) fun _ s₃ horderly₃ h₃ => Safe.seq (stationed_of_touches
      (touches_clearUpgradeTxn open') ⟨horderly₃, h₃.1, h₃.2⟩ (by decide))
        fun _ s₄ horderly₄ h₄ => ?_
  have hheld : stationContract.Held s₂ s₄ := ⟨horderly₄, h₄.1, h₄.2⟩
  split
  · have hcleared : Unstaged s₄ (s₄.clearResult open'.requestId) :=
      ⟨rfl, rfl, le_refl _, fun _ => rfl⟩
    exact Safe.modify horderly₄ (hlast rfl rfl (.inl rfl) (hcleared.held hheld))
  · exact hlast rfl rfl (.inr rfl) hheld

theorem stationed_perform (step : OpenStep) (h : Chosen s (some step)) (horderly : Orderly s) :
    Safe stationContract (perform step) (fun _ => Stationed) s := by
  cases step with
  | fireBlocked o => exact stationed_fireBlocked h.1 h.2.1 h.2.2 horderly
  | openConnection o version => exact stationed_openConnection h.1 h.2.1 h.2.2 horderly
  | failOpen o error => exact stationed_failOpen h.1 h.2.1 h.2.2 error horderly
  | startUpgrade o old new => exact stationed_startUpgrade h.1 h.2.1 h.2.2 old new horderly
  | startDelete o => exact stationed_startDelete h.1 h.2.1 h.2.2 horderly
  | finishUpgrade o txnId => exact stationed_finishUpgrade txnId h.1 h.2.1 h.2.2 horderly

/-- While the deferred errors are reported: those that are left are in no list. -/
structure Reporting (rest : List PendingOpen) (s : State) : Prop where
  stationed : Stationed s
  once : (rest.map PendingOpen.requestId).Nodup
  left : ∀ o ∈ rest, o.requestId < s.nextRequestId ∧ o.requestId ∉ s.kept ∧
    (station s.trace o.requestId = some .upgrading ∨ station s.trace o.requestId = some .aborted)

theorem Stationed.reporting (h : Stationed s) :
    Reporting s.deferredOpenErrors { s with deferredOpenErrors := [] } := by
  have honce := h.lists.once
  rw [State.kept, List.map_append] at honce
  have hsub : ({ s with deferredOpenErrors := [] } : State).kept.Sublist s.kept := by
    simp [State.kept]
  refine ⟨⟨⟨h.lists.once.sublist hsub, fun r hr => h.lists.issued r (hsub.subset hr),
    h.lists.marks⟩, fun r => (h.standing r).same (fun _ _ => Iff.rfl) nofun rfl (le_refl _)⟩,
    honce.of_append_right, fun o ho => ⟨h.lists.issued _ (mem_kept (.inr ho)), fun hin => ?_,
      (h.standing _).deferred o ho rfl⟩⟩
  obtain ⟨o', ho', hid⟩ := List.mem_map.mp hin
  exact h.lists.not_deferred (by simpa using ho') ho hid

theorem Reporting.report {rest : List PendingOpen} (h : Reporting (open' :: rest) s)
    (horderly : Orderly s) :
    Safe stationContract (dispatch (.openFailed open'.requestId .abort) >>= fun _ =>
      (pure () : Prog Unit)) (fun _ s' => Reporting rest s') s := by
  obtain ⟨hlt, hgone, hst⟩ := h.left open' (by simp)
  obtain ⟨hnew, honce⟩ := List.nodup_cons.mp h.once
  have hlast : Safe stationContract (dispatch (.openFailed open'.requestId .abort))
      (fun _ s' => stationContract.Held
        { s with trace := s.trace ++ [.openFailed open'.requestId .abort] } s') s := by
    have hhandling := h.stationed.handling hlt
    have hopens : ∀ o ∈ s.opens, o.requestId ≠ open'.requestId := fun o ho hid =>
      hgone (hid ▸ mem_kept (.inl ho))
    rcases hst with hst | hst
    · exact stationed_last hhandling horderly rfl hst rfl hopens (.inl rfl)
    · exact stationed_last hhandling horderly rfl hst rfl hopens (.inr ⟨rfl, fun o ho hid =>
        hgone (hid ▸ mem_kept (.inr ho))⟩)
  refine Safe.seq hlast fun _ s' horderly' h' => .pure horderly' ⟨h'.invariant, honce,
    fun o ho => ?_⟩
  obtain ⟨holt, hogone, host⟩ := h.left o (List.mem_cons_of_mem _ ho)
  have hne : o.requestId ≠ open'.requestId := fun hid =>
    hnew (hid ▸ List.mem_map_of_mem ho)
  have hsame : station s'.trace o.requestId = station s.trace o.requestId := by
    refine (h'.during.stations _).trans (station_other _ fun stage heq => hne ?_)
    exact (Prod.mk.inj (Option.some.inj heq)).1.symm
  refine ⟨holt.trans_le h'.during.later, fun hin => ?_, by rwa [hsame]⟩
  exact hogone (h'.during.deferred _ hin holt)

theorem stationed_processDeferredOpenErrors (h : Stationed s) (horderly : Orderly s) :
    Safe stationContract processDeferredOpenErrors (fun _ => Stationed) s := by
  have hbody (open' : PendingOpen) (rest : List PendingOpen) (s' : State)
      (horderly' : Orderly s') (h' : Reporting (open' :: rest) s') :
      Safe stationContract (dispatch (.openFailed open'.requestId .abort) >>= fun _ =>
        (pure () : Prog Unit)) (fun _ s'' => Reporting rest s'') s' := h'.report horderly'
  exact Safe.modifyRead horderly ((Safe.forEach hbody s.deferredOpenErrors horderly
    h.reporting).mono fun _ _ _ h' => h'.stationed)

/-! ### Runs -/

/-- Every procedure but those that report on opens keeps the contract. -/
theorem stationed_body (proc : Proc) (hopens : proc ≠ .processOpens)
    (hdeferred : proc ≠ .processDeferredOpenErrors) (h : stationContract.Held s₀ s) :
    Kept stationContract s₀ (body proc) s := by
  have hrest (hout : ∀ part ∈ stationParts, part ∉ proc.parts) :
      Kept stationContract s₀ (body proc) s := stationed_of_touches (touches_body proc) h hout
  cases proc with
  | processOpens => exact absurd rfl hopens
  | processDeferredOpenErrors => exact absurd rfl hdeferred
  | processTxnRequests served =>
      refine (stationed_processTxnRequests served h).bind fun served' s₁ h₁ => ?_
      split
      · exact .pure h₁
      · exact .pure h₁
  | issueOpen kind name version => exact (stationed_issueOpen kind name version h).done
  | abort txnId => exact (stationed_abort txnId h).done
  | _ => exact hrest (by simp only [Proc.parts]; decide)

theorem Kept.stationed (h : Kept stationContract s₀ p s) :
    Safe stationContract p (fun _ => Stationed) s :=
  h.mono fun _ _ _ hs' => hs'.1

theorem stationed_processOpens (h : Stationed s) (horderly : Orderly s) :
    Safe stationContract (body .processOpens) (fun _ => Stationed) s := by
  refine Safe.seq (chosen_nextOpenStep h horderly) fun step s₁ horderly₁ hchosen => ?_
  cases step with
  | none => exact .pure horderly₁ hchosen
  | some step =>
      exact Safe.seq (stationed_perform step hchosen horderly₁) fun _ _ horderly₂ h₂ =>
        .pure horderly₂ h₂

theorem stationed_new (versions : String → UInt64) (autoPump : Bool) :
    Stationed (State.new versions autoPump) where
  lists := ⟨List.nodup_nil, nofun, nofun⟩
  standing _ := ⟨nofun, nofun, ⟨nofun, nofun⟩, nofun, fun _ => rfl⟩

theorem stations_keep :
    Keeps driver stationContract (fun _ => True) fun _ s => Stationed s where
  rest_later _ _ _ _ := trivial
  main _ _ _ hs _ := hs
  api proc s hproc horderly hs := by
    have hkept : Kept stationContract s (body proc) s := by
      apply stationed_body proc _ _ (.refl horderly hs)
      · rintro rfl
        exact absurd hproc nofun
      · rintro rfl
        exact absurd hproc nofun
    obtain ⟨p, hp⟩ := body_method hproc
    change Safe stationContract (body proc) _ s
    rw [hp] at hkept ⊢
    exact Safe.returns hkept
  phase proc s horderly hs := by
    have hends : Safe stationContract (body proc) (fun _ => Stationed) s := by
      by_cases hopens : proc = .processOpens
      · subst hopens
        exact stationed_processOpens hs horderly
      · by_cases hdeferred : proc = .processDeferredOpenErrors
        · subst hdeferred
          exact Safe.seq (stationed_processDeferredOpenErrors hs horderly)
            fun _ _ horderly' hs' => .pure horderly' hs'
        · exact Kept.stationed (stationed_body proc hopens hdeferred (.refl horderly hs))
    refine hends.mono fun o s' _ hs' => ?_
    cases o
    · exact ⟨hs', trivial⟩
    · exact hs'

/-- **Where open and delete requests stand.** In every reachable state what has been reported of a
request is in order: it was blocked once at most, no report follows `success`, and none but a
second error follows an error. Wherever handlers or the outside have control, or a phase ends, the
pending opens and the deferred errors stand where the lists say, and no request that was told to
wait is lost. -/
theorem opens_in_order (versions : String → UInt64) (autoPump : Bool)
    {c : Config State Reply Proc} (h : Reaches driver (State.new versions autoPump) c) :
    (∀ request, (station c.state.trace request).isSome) ∧
    (c.Open ∨ c.AtEnd → ∀ request, Standing c.state request) := by
  have horderly : Orderly (State.new versions autoPump) := fun _ => Option.some_ne_none _
  have hgood := stations_keep.reaches horderly (stationed_new versions autoPump) trivial h
  refine ⟨fun request => Option.isSome_iff_ne_none.mpr (hgood.always request), ?_⟩
  rintro (hopen | hend)
  · exact (hgood.invariant hopen).standing
  · rcases hgood.ended hend with ⟨hs, -⟩ | ⟨_, hs⟩
    · exact hs.standing
    · exact hs.standing

/-- While the handlers of the second `upgradeneeded` run. -/
theorem opens_in_order_session : ∃ c, Reaches driver (State.new (fun _ => 0) true) c ∧
    station c.state.trace 0 = some .over ∧ station c.state.trace 2 = some .over ∧
    station c.state.trace 7 = some (.waiting true) ∧ station c.state.trace 8 = some .upgrading ∧
    (∀ request, (station c.state.trace request).isSome) ∧
    ∀ request, Standing c.state request := by
  obtain ⟨w⟩ := session
  obtain ⟨horderly, hstanding⟩ := opens_in_order _ _ w.reaches_upgrading
  have htrace := w.upgrading_trace.trans (congrArg (· ++ _) w.building_trace)
  refine ⟨_, w.reaches_upgrading, ?_, ?_, ?_, ?_, horderly, hstanding (.inl nofun)⟩
  · rw [show w.upgrading.trace = _ from htrace]
    decide
  · rw [show w.upgrading.trace = _ from htrace]
    decide
  · rw [show w.upgrading.trace = _ from htrace]
    decide
  · rw [show w.upgrading.trace = _ from htrace]
    decide

end BoaIdb.Pump
