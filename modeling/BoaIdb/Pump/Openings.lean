import BoaIdb.Pump.Quiet

/-!
The driver's pending opens and the queues of the databases stay in step.

The driver performs what a queue answers on the open it is looking at, not on the one that the
answer names. They are the same, since the registered opens of a database, those in an upgrade
apart, are in order the requests of its queue: the first of them that the driver comes to is the
front of the queue, and once the queue has nothing for it, it has nothing for those behind it.
-/

namespace BoaIdb.Pump

open Callbacks OpenQueue

/-- The entry of an open in the queue of its database. -/
def PendingOpen.request (open' : PendingOpen) : OpenRequest where
  requestType :=
    match open'.kind with
    | .open => .open open'.version
    | .delete => .delete
  requestId := open'.requestId

/-- Registered in the queue of the database, and in no upgrade. -/
def PendingOpen.queuedAt (name : String) (open' : PendingOpen) : Bool :=
  decide (open'.name = name) && open'.queued && !open'.upgradeActive

/-- The requests that the queue of a database should hold. -/
def expected (opens : List PendingOpen) (name : String) : List OpenRequest :=
  (opens.filter (PendingOpen.queuedAt name)).map PendingOpen.request

/-- The requests that it holds. -/
def requests (openQueues : String → Option OpenQueue) (name : String) : List OpenRequest :=
  ((openQueues name).map OpenQueue.queue).getD []

/-- A queue that waits for connections has something to wait with: its front is a delete, or asks
for a later version. -/
def Blocked (queue : OpenQueue) : Prop :=
  ∃ request rest, queue.queue = request :: rest ∧
    ∀ version, request.requestType = .open version →
      ¬queue.targetVersion version < queue.currentVersion ∧
        queue.targetVersion version ≠ queue.currentVersion

/-- What holds of the list of opens for itself. -/
structure Listed (opens : List PendingOpen) (next : RequestId) : Prop where
  fresh : ∀ o ∈ opens, o.requestId < next
  once : (opens.map PendingOpen.requestId).Nodup
  /-- Those of a database are registered in order. -/
  order : opens.Pairwise fun a b => a.name = b.name → b.queued = true → a.queued = true
  active : ∀ o ∈ opens, o.upgradeActive = true → o.queued = true
  upgrades : ∀ o ∈ opens, o.upgradeTxnId ≠ none → o.upgradeActive = true

/-- The queues hold the requests of the registered opens, in order. -/
structure Aligned (opens : List PendingOpen) (openQueues : String → Option OpenQueue) : Prop where
  requests : ∀ name, requests openQueues name = expected opens name
  waiting : ∀ name queue, openQueues name = some queue →
    queue.state = .waitingForConnections → Blocked queue

/-- The invariant. -/
structure Tended (s : State) : Prop where
  listed : Listed s.opens s.nextRequestId
  aligned : Aligned s.opens s.openQueues

/-- Every answer of a queue was about the open that was looked at. -/
def Rightly (s : State) : Prop :=
  ∀ looking action, .answered looking action ∈ s.trace → action.requestId = looking

/-- Of the opens that were there none comes in or changes. -/
structure Leaves (s s' : State) : Prop where
  later : s.nextRequestId ≤ s'.nextRequestId
  stays : ∀ o ∈ s'.opens, o.requestId < s.nextRequestId → o ∈ s.opens

theorem Leaves.refl (s : State) : Leaves s s := ⟨le_refl _, fun _ h _ => h⟩

theorem Leaves.trans {s s' s'' : State} (h : Leaves s s') (h' : Leaves s' s'') :
    Leaves s s'' where
  later := h.later.trans h'.later
  stays o ho hlt := h.stays o (h'.stays o ho (hlt.trans_le h.later)) hlt

def openContract : Contract State where
  always := Rightly
  invariant := Tended
  during := Leaves
  refl := Leaves.refl
  trans := Leaves.trans

/-! ### Lists of opens -/

variable {opens opens' left right : List PendingOpen} {open' : PendingOpen} {name : String}
  {next next' : RequestId} {openQueues : String → Option OpenQueue}

theorem expected_append (left right : List PendingOpen) (name : String) :
    expected (left ++ right) name = expected left name ++ expected right name := by
  simp [expected]

theorem expected_cons (open' : PendingOpen) (right : List PendingOpen) (name : String) :
    expected (open' :: right) name =
      (if open'.queuedAt name then [open'.request] else []) ++ expected right name := by
  unfold expected
  rw [List.filter_cons]
  split <;> rfl

theorem Listed.mono (h : Listed opens next) (hle : next ≤ next') : Listed opens next' :=
  { h with fresh := fun o ho => (h.fresh o ho).trans_le hle }

theorem Listed.sublist (h : Listed opens next) (hsub : opens'.Sublist opens) :
    Listed opens' next where
  fresh o ho := h.fresh o (hsub.subset ho)
  once := h.once.sublist (hsub.map _)
  order := h.order.sublist hsub
  active o ho := h.active o (hsub.subset ho)
  upgrades o ho := h.upgrades o (hsub.subset ho)

/-- The open with an id. -/
theorem Listed.eq_of_id (h : Listed opens next) {a b : PendingOpen} (ha : a ∈ opens)
    (hb : b ∈ opens) (hid : a.requestId = b.requestId) : a = b :=
  List.inj_on_of_nodup_map h.once ha hb hid

/-- An open in an upgrade leaves nothing to the queue. -/
theorem expected_filter_of_active {keep : PendingOpen → Bool}
    (h : ∀ o ∈ opens, keep o = false → o.upgradeActive = true) (name : String) :
    expected (opens.filter keep) name = expected opens name := by
  unfold expected
  rw [List.filter_filter]
  congr 1
  refine List.filter_congr fun o ho => ?_
  cases hkeep : keep o with
  | true => simp
  | false => simp [PendingOpen.queuedAt, h o ho hkeep]

/-! ### One look at an open -/

/-- An idle queue either waits for connections, with its front, or has an action for its front
and lets it go; a front that waited goes into an operation. -/
theorem processNext_front {queue : OpenQueue} {request : OpenRequest} {rest : List OpenRequest}
    (hidle : queue.state = .idle) (hqueue : queue.queue = request :: rest) :
    (queue.blockingConnections > 0 ∧ Blocked queue ∧ queue.processNext =
      ({ queue with state := .waitingForConnections }, some (.sendBlocked request.requestId))) ∨
    ∃ action, queue.processNext.2 = some action ∧ action.requestId = request.requestId ∧
      action.terminal = true ∧ queue.processNext.1.queue = rest ∧
      queue.processNext.1.state ≠ .waitingForConnections ∧
      (Blocked queue → action.starts ≠ []) := by
  have hblocked {version : UInt64} (hversion : request.requestType = .open version)
      (hnot : queue.targetVersion version < queue.currentVersion ∨
        queue.targetVersion version = queue.currentVersion) : ¬Blocked queue := by
    rintro ⟨request', rest', hqueue', htarget⟩
    obtain ⟨rfl, -⟩ := List.cons.inj (hqueue.symm.trans hqueue')
    obtain ⟨hlt, hne⟩ := htarget version hversion
    exact hnot.elim hlt hne
  have hidle' : queue.state ≠ .waitingForConnections := by
    rw [hidle]
    exact nofun
  unfold processNext
  rw [if_neg (not_not.mpr hidle), hqueue]
  dsimp only
  cases hversion : request.requestType with
  | «open» requestedVersion =>
      dsimp only
      split
      · next hlt =>
          exact .inr ⟨_, rfl, rfl, rfl, rfl, hidle',
            fun h => absurd h (hblocked hversion (.inl hlt))⟩
      · next hlt =>
          split
          · next heq =>
              exact .inr ⟨_, rfl, rfl, rfl, rfl, hidle',
                fun h => absurd h (hblocked hversion (.inr heq))⟩
          · next hne =>
              split
              · next hcount =>
                  refine .inl ⟨hcount, ⟨request, rest, hqueue, fun version hversion' => ?_⟩, rfl⟩
                  obtain rfl := OpenRequestType.open.inj (hversion.symm.trans hversion')
                  exact ⟨hlt, hne⟩
              · exact .inr ⟨_, rfl, rfl, rfl, rfl, nofun, fun _ => nofun⟩
  | delete =>
      dsimp only
      split
      · next hcount =>
          refine .inl ⟨hcount, ⟨request, rest, hqueue, fun version hversion' => ?_⟩, rfl⟩
          exact absurd (hversion.symm.trans hversion') nofun
      · exact .inr ⟨_, rfl, rfl, rfl, rfl, nofun, fun _ => nofun⟩

/-- The queue of an open once it is registered. -/
def registered (open' : PendingOpen) (live : UInt32) (queue : OpenQueue) : OpenQueue :=
  registerOpen open' (queue.setBlockingConnections live)

theorem registered_queue (open' : PendingOpen) (live : UInt32) (queue : OpenQueue) :
    (registered open' live queue).queue =
      queue.queue ++ if open'.queued then [] else [open'.request] := by
  unfold registered registerOpen
  split
  · rw [List.append_nil]
    rfl
  · cases hkind : open'.kind <;> simp [enqueueOpen, enqueueDelete, setBlockingConnections,
      PendingOpen.request, hkind]

theorem registered_rest (open' : PendingOpen) (live : UInt32) (queue : OpenQueue) :
    (registered open' live queue).state = queue.state ∧
      (registered open' live queue).currentVersion = queue.currentVersion ∧
      (registered open' live queue).blockingConnections = live := by
  unfold registered registerOpen
  split
  · exact ⟨rfl, rfl, rfl⟩
  · cases open'.kind <;> exact ⟨rfl, rfl, rfl⟩

/-- A queue that is looked at closer: it is idle, or may go on. -/
def Asks (queue : OpenQueue) (live : UInt32) : Prop :=
  queue.state = .idle ∨ queue.state = .waitingForConnections ∧ live = 0

/-- The steps that settle an open. -/
def OpenStep.Settles (open' : PendingOpen) : OpenStep → Prop
  | .openConnection o _ | .failOpen o _ | .startUpgrade o _ _ | .startDelete o => o = open'
  | .fireBlocked _ | .finishUpgrade _ _ => False

theorem lookAt_busy {queue : OpenQueue} {live : UInt32} (h : ¬Asks queue live) :
    lookAt open' live queue =
      ⟨registered open' live queue, { open' with queued := true }, [], none⟩ := by
  obtain ⟨hstate, -, -⟩ := registered_rest open' live queue
  obtain ⟨hidle, hwaiting⟩ := not_or.mp h
  unfold lookAt lookIdle
  change (if (registered open' live queue).state = _ ∧ live = 0 then _ else
    if (registered open' live queue).state ≠ _ then _ else _) = _
  rw [hstate, if_neg hwaiting, if_pos hidle]
  rfl

/-- What looking at the front of its queue leaves: it still waits, or it is settled. -/
structure Waited (live : UInt32) (requests : List OpenRequest) (looked : Looked) : Prop where
  requests : looked.queue.queue = requests
  state : looked.queue.state = .waitingForConnections
  live : live ≠ 0
  blocked : Blocked looked.queue
  step : looked.step = none ∨ looked.step = some (.fireBlocked looked.open')

structure Settled (rest : List OpenRequest) (looked : Looked) : Prop where
  requests : looked.queue.queue = rest
  state : looked.queue.state ≠ .waitingForConnections
  step : ∃ step, looked.step = some step ∧ step.Settles looked.open'

theorem lookIdle_front {queue : OpenQueue} {rest : List OpenRequest} (hidle : queue.state = .idle)
    (hqueue : queue.queue = open'.request :: rest) (hqueued : open'.queued = true) :
    (∀ action ∈ (lookIdle open' [] queue).answers, action.requestId = open'.requestId) ∧
      open'.Seen (lookIdle open' [] queue).open' ∧
      (Waited queue.blockingConnections queue.queue (lookIdle open' [] queue) ∨
        Settled rest (lookIdle open' [] queue)) := by
  have hself : open'.Seen open' := ⟨open'.blockedFired, by rw [← hqueued]⟩
  rcases processNext_front hidle hqueue with ⟨hcount, hblocked, hnext⟩ |
    ⟨action, hsome, hid, hterminal, hrest, hstate, -⟩
  · have hlive : queue.blockingConnections ≠ 0 := fun h => absurd hcount (by rw [h]; decide)
    have hstill : Blocked { queue with state := .waitingForConnections } := hblocked
    unfold lookIdle
    rw [if_neg (not_not.mpr hidle), hnext]
    dsimp only
    split
    · exact ⟨fun action h => by rw [List.mem_singleton.mp h]; rfl, hself,
        .inl ⟨rfl, rfl, hlive, hstill, .inl rfl⟩⟩
    · exact ⟨fun action h => by rw [List.mem_singleton.mp h]; rfl,
        ⟨true, by rw [← hqueued]⟩, .inl ⟨rfl, rfl, hlive, hstill, .inr rfl⟩⟩
  · unfold lookIdle
    rw [if_neg (not_not.mpr hidle)]
    generalize queue.processNext = next at *
    obtain ⟨queue', answer⟩ := next
    obtain rfl : answer = some action := hsome
    have hanswers : ∀ a ∈ [] ++ [action], a.requestId = open'.requestId := by
      intro a ha
      rw [List.nil_append, List.mem_singleton] at ha
      rw [ha]
      exact hid
    cases action with
    | sendBlocked id => cases hterminal
    | openConnection id version => exact ⟨hanswers, hself, .inr ⟨hrest, hstate, _, rfl, rfl⟩⟩
    | failOpen id error => exact ⟨hanswers, hself, .inr ⟨hrest, hstate, _, rfl, rfl⟩⟩
    | startUpgrade id old new => exact ⟨hanswers, hself, .inr ⟨hrest, hstate, _, rfl, rfl⟩⟩
    | startDelete id => exact ⟨hanswers, hself, .inr ⟨hrest, hstate, _, rfl, rfl⟩⟩

theorem lookAt_front {queue : OpenQueue} {live : UInt32} {rest : List OpenRequest}
    (hasks : Asks queue live)
    (hqueue : (registered open' live queue).queue = open'.request :: rest)
    (hwaiting : queue.state = .waitingForConnections → Blocked (registered open' live queue)) :
    (∀ action ∈ (lookAt open' live queue).answers, action.requestId = open'.requestId) ∧
      open'.Seen (lookAt open' live queue).open' ∧
      (Waited live (registered open' live queue).queue (lookAt open' live queue) ∨
        Settled rest (lookAt open' live queue)) := by
  obtain ⟨hstate, -, hlive⟩ := registered_rest open' live queue
  unfold lookAt
  dsimp only
  generalize hq : registered open' live queue = q at *
  have hregistered : registerOpen open' (queue.setBlockingConnections live) = q := hq
  rw [hregistered]
  have hseen : open'.Seen { open' with queued := true } := ⟨open'.blockedFired, rfl⟩
  by_cases hwait : q.state = .waitingForConnections ∧ live = 0
  · rw [if_pos hwait]
    have hfree : ¬q.blockingConnections > 0 := by
      rw [hlive, hwait.2]
      decide
    rw [onAllConnectionsClosed_eq hwait.1 hfree]
    have hblocked : Blocked ⟨q.currentVersion, q.queue, .idle, q.blockingConnections⟩ :=
      hwaiting (hstate.symm.trans hwait.1)
    rcases @processNext_front ⟨q.currentVersion, q.queue, .idle, q.blockingConnections⟩ _ _
      rfl hqueue with ⟨hcount, -⟩ | ⟨action, hsome, hid, -, hrest, hstate', hstarts⟩
    · exact absurd hcount hfree
    · have hstarts' := hstarts hblocked
      generalize processNext ⟨q.currentVersion, q.queue, .idle, q.blockingConnections⟩ = answer at *
      obtain ⟨queue', action'⟩ := answer
      obtain rfl : action' = some action := hsome
      have hanswers : ∀ a ∈ [action], a.requestId = open'.requestId := fun a ha => by
        rw [List.mem_singleton.mp ha]
        exact hid
      cases action with
      | startUpgrade id old new => exact ⟨hanswers, hseen, .inr ⟨hrest, hstate', _, rfl, rfl⟩⟩
      | startDelete id => exact ⟨hanswers, hseen, .inr ⟨hrest, hstate', _, rfl, rfl⟩⟩
      | openConnection id version => exact absurd rfl hstarts'
      | failOpen id error => exact absurd rfl hstarts'
      | sendBlocked id => exact absurd rfl hstarts'
  · rw [if_neg hwait]
    have hidle : q.state = .idle := by
      rw [hstate] at hwait ⊢
      exact hasks.resolve_right hwait
    have hfront := @lookIdle_front { open' with queued := true } q _ hidle hqueue rfl
    rw [hlive] at hfront
    obtain ⟨hanswers, ⟨fired, hfired⟩, hends⟩ := hfront
    exact ⟨hanswers, ⟨fired, hfired⟩, hends⟩

/-! ### Queues and lists together -/

theorem requests_update_self (queue : OpenQueue) :
    requests (Function.update openQueues name (some queue)) name = queue.queue := by
  simp [requests]

theorem requests_update_of_ne {other : String} (h : other ≠ name) (queue : Option OpenQueue) :
    requests (Function.update openQueues name queue) other = requests openQueues other := by
  simp [requests, h]

/-- One queue and its opens are changed together. -/
theorem Aligned.update (h : Aligned opens openQueues) {queue : OpenQueue}
    (hname : queue.queue = expected opens' name)
    (hother : ∀ other, other ≠ name → expected opens' other = expected opens other)
    (hwaiting : queue.state = .waitingForConnections → Blocked queue) :
    Aligned opens' (Function.update openQueues name (some queue)) where
  requests other := by
    by_cases hne : other = name
    · subst hne
      rw [requests_update_self, hname]
    · rw [requests_update_of_ne hne, h.requests other, hother other hne]
  waiting other queue' hqueue' hstate := by
    by_cases hne : other = name
    · subst hne
      rw [Function.update_self] at hqueue'
      obtain rfl := Option.some.inj hqueue'
      exact hwaiting hstate
    · rw [Function.update_of_ne hne] at hqueue'
      exact h.waiting other queue' hqueue' hstate

theorem PendingOpen.Seen.queuedAt {seen : PendingOpen} (h : open'.Seen seen)
    (hactive : open'.upgradeActive = false) (other : String) :
    seen.queuedAt other = decide (open'.name = other) := by
  obtain ⟨fired, rfl⟩ := h
  simp [PendingOpen.queuedAt, hactive]

theorem PendingOpen.Seen.request {seen : PendingOpen} (h : open'.Seen seen) :
    seen.request = open'.request := by
  obtain ⟨fired, rfl⟩ := h
  rfl

/-- Of the opens behind one that is not registered none of its database is. -/
theorem Listed.right_expected (h : Listed (left ++ open' :: right) next)
    (hqueued : open'.queued = false) : expected right open'.name = [] := by
  have horder := (List.pairwise_cons.mp (List.pairwise_append.mp h.order).2.1).1
  rw [expected, List.map_eq_nil_iff, List.filter_eq_nil_iff]
  intro o ho hat
  simp only [PendingOpen.queuedAt, Bool.and_eq_true, decide_eq_true_eq] at hat
  have hself := horder o ho hat.1.1.symm hat.1.2
  exact absurd (hself.symm.trans hqueued) nofun

/-- The queue holds the open that was looked at in its place. -/
theorem registered_expected (hlisted : Listed (left ++ open' :: right) next)
    (haligned : Aligned (left ++ open' :: right) openQueues) {queue : OpenQueue} {live : UInt32}
    (hqueue : queue.queue = requests openQueues open'.name)
    (hactive : open'.upgradeActive = false) :
    (registered open' live queue).queue =
      expected left open'.name ++ open'.request :: expected right open'.name := by
  rw [registered_queue, hqueue, haligned.requests, expected_append, expected_cons]
  by_cases hqueued : open'.queued = true
  · simp [PendingOpen.queuedAt, hqueued, hactive]
  · have hfalse := Bool.eq_false_of_not_eq_true hqueued
    rw [hlisted.right_expected hfalse]
    simp [PendingOpen.queuedAt, hfalse]

/-- The list with an open looked at. -/
theorem Listed.seen (h : Listed (left ++ open' :: right) next) {seen : PendingOpen}
    (hseen : open'.Seen seen) (hleft : ∀ o ∈ left, o.name = open'.name → o.queued = true) :
    Listed (left ++ seen :: right) next := by
  obtain ⟨fired, rfl⟩ := hseen
  have hsub {o : PendingOpen} (ho : o ∈ left ∨ o ∈ right) : o ∈ left ++ open' :: right := by
    rw [List.mem_append, List.mem_cons]
    exact ho.imp_right .inr
  have hself : open' ∈ left ++ open' :: right := List.mem_append_right _ List.mem_cons_self
  obtain ⟨hpl, hpr, hcross⟩ := List.pairwise_append.mp h.order
  obtain ⟨hhead, hright⟩ := List.pairwise_cons.mp hpr
  refine ⟨fun o ho => ?_, ?_, ?_, fun o ho => ?_, fun o ho => ?_⟩
  · rcases List.mem_append.mp ho with ho | ho
    · exact h.fresh o (hsub (.inl ho))
    · rcases List.mem_cons.mp ho with rfl | ho
      · exact h.fresh open' hself
      · exact h.fresh o (hsub (.inr ho))
  · have honce := h.once
    rw [List.map_append, List.map_cons] at honce ⊢
    exact honce
  · refine List.pairwise_append.mpr ⟨hpl, List.pairwise_cons.mpr ⟨fun b hb _ _ => rfl, hright⟩,
      fun a ha b hb => ?_⟩
    rcases List.mem_cons.mp hb with rfl | hb
    · exact fun hname _ => hleft a ha hname
    · exact hcross a ha b (List.mem_cons_of_mem _ hb)
  · rcases List.mem_append.mp ho with ho | ho
    · exact h.active o (hsub (.inl ho))
    · rcases List.mem_cons.mp ho with rfl | ho
      · exact fun _ => rfl
      · exact h.active o (hsub (.inr ho))
  · rcases List.mem_append.mp ho with ho | ho
    · exact h.upgrades o (hsub (.inl ho))
    · rcases List.mem_cons.mp ho with rfl | ho
      · exact h.upgrades open' hself
      · exact h.upgrades o (hsub (.inr ho))

/-! ### The scan -/

variable {s s' s₀ : State}

/-- The queue of a database has nothing for its opens. -/
def State.Stalled (s : State) (name : String) : Prop :=
  ∃ queue, s.openQueues name = some queue ∧ ¬Asks queue (s.liveConnectionCount name)

/-- Between two looks: the opens that were passed are registered, and their queues have nothing
for them. -/
structure Scanning (ids : List RequestId) (s : State) : Prop where
  tended : Tended s
  passed : ∃ left right, s.opens = left ++ right ∧
    ids = (right.filter fun o => !o.upgradeActive).map PendingOpen.requestId ∧
    ∀ o ∈ left, o.upgradeActive = false → o.queued = true ∧ s.Stalled o.name

/-- Looking at `open'`, with the opens before and behind it. -/
structure Looking (left : List PendingOpen) (open' : PendingOpen) (right : List PendingOpen)
    (s : State) : Prop where
  tended : Tended s
  opens : s.opens = left ++ open' :: right
  active : open'.upgradeActive = false
  passed : ∀ o ∈ left, o.upgradeActive = false → o.queued = true ∧ s.Stalled o.name

theorem Looking.unique (h : Looking left open' right s) :
    ∀ o ∈ left ++ right, o.requestId ≠ open'.requestId := by
  have honce := h.tended.listed.once
  rw [h.opens, List.map_append, List.map_cons, List.nodup_middle, List.nodup_cons] at honce
  intro o ho hid
  apply honce.1
  rw [← hid, ← List.map_append]
  exact List.mem_map_of_mem ho

theorem Looking.find (h : Looking left open' right s) :
    s.opens.find? (fun o => o.requestId = open'.requestId) = some open' := by
  rw [h.opens, List.find?_eq_some_iff_append]
  refine ⟨decide_eq_true rfl, left, right, rfl, fun o ho => ?_⟩
  simpa using h.unique o (List.mem_append_left _ ho)

theorem Looking.edit (h : Looking left open' right s) (seen : PendingOpen) :
    (s.editOpen open'.requestId fun _ => seen).opens = left ++ seen :: right := by
  have hkeep {l : List PendingOpen} (hl : ∀ o ∈ l, o.requestId ≠ open'.requestId) :
      l.map (fun o => if o.requestId = open'.requestId then seen else o) = l := by
    rw [List.map_congr_left fun o ho => if_neg (hl o ho), List.map_id']
  simp only [State.editOpen, h.opens, List.map_append, List.map_cons, if_pos]
  rw [hkeep fun o ho => h.unique o (List.mem_append_left _ ho),
    hkeep fun o ho => h.unique o (List.mem_append_right _ ho)]

theorem Scanning.looking {requestId : RequestId} {ids : List RequestId}
    (h : Scanning (requestId :: ids) s) : ∃ left open' right, Looking left open' right s ∧
      open'.requestId = requestId ∧
      ids = (right.filter fun o => !o.upgradeActive).map PendingOpen.requestId := by
  obtain ⟨left, right, hopens, hids, hpassed⟩ := h.passed
  obtain ⟨open', rest, hfilter, hid, hrest⟩ := List.map_eq_cons_iff.mp hids.symm
  obtain ⟨between, right', rfl, hbetween, hactive, hfilter⟩ := List.filter_eq_cons_iff.mp hfilter
  refine ⟨left ++ between, open', right', ⟨h.tended, ?_, by simpa using hactive, ?_⟩, hid, ?_⟩
  · rw [hopens, List.append_assoc]
  · intro o ho hoactive
    rcases List.mem_append.mp ho with ho | ho
    · exact hpassed o ho hoactive
    · exact absurd (by simpa using hoactive) (hbetween o ho)
  · rw [hfilter, hrest]

/-- An open off its queue, to be settled. -/
structure Taken (open' : PendingOpen) (s : State) : Prop where
  listed : Listed s.opens s.nextRequestId
  mem : open' ∈ s.opens
  queued : open'.queued = true
  active : open'.upgradeActive = false
  aligned : Aligned (s.opens.filter fun o => o.requestId ≠ open'.requestId) s.openQueues

/-- What a scan leads to. -/
def Scanned (s : State) : Option OpenStep → Prop
  | none | some (.fireBlocked _) => Tended s
  | some (.openConnection o _) | some (.failOpen o _) | some (.startUpgrade o _ _)
  | some (.startDelete o) => Taken o s
  | some (.finishUpgrade o _) => Tended s ∧ o ∈ s.opens ∧ o.upgradeActive = true

/-- The queue of a database as it is, or a new one. -/
def State.HasQueue (s : State) (name : String) (queue : OpenQueue) : Prop :=
  s.openQueues name = some queue ∨
    s.openQueues name = none ∧ queue.queue = [] ∧ queue.state = .idle

theorem State.HasQueue.requests {queue : OpenQueue} (h : s.HasQueue name queue) :
    queue.queue = requests s.openQueues name := by
  rcases h with h | ⟨h, hempty, -⟩
  · simp [Pump.requests, h]
  · simp [Pump.requests, h, hempty]

theorem State.HasQueue.blocked {queue : OpenQueue} (h : s.HasQueue name queue)
    (haligned : Aligned opens s.openQueues) (hstate : queue.state = .waitingForConnections) :
    Blocked queue := by
  rcases h with h | ⟨-, -, hidle⟩
  · exact haligned.waiting name queue h hstate
  · exact absurd (hidle.symm.trans hstate) nofun

/-- A queue that is asked was not asked for an open before. -/
theorem Looking.left_expected (h : Looking left open' right s) {queue : OpenQueue}
    (hqueue : s.HasQueue open'.name queue)
    (hasks : Asks queue (s.liveConnectionCount open'.name)) : expected left open'.name = [] := by
  rw [expected, List.map_eq_nil_iff, List.filter_eq_nil_iff]
  intro o ho hat
  simp only [PendingOpen.queuedAt, Bool.and_eq_true, decide_eq_true_eq, Bool.not_eq_true'] at hat
  obtain ⟨-, queue', hqueue', hbusy⟩ := h.passed o ho hat.2
  rw [hat.1.1] at hqueue' hbusy
  rcases hqueue with hqueue | ⟨hnone, -⟩
  · obtain rfl := Option.some.inj (hqueue.symm.trans hqueue')
    exact hbusy hasks
  · exact absurd (hnone.symm.trans hqueue') nofun

theorem registered_blocked {queue : OpenQueue} {live : UInt32} (h : Blocked queue) :
    Blocked (registered open' live queue) := by
  obtain ⟨request, rest, hqueue, htarget⟩ := h
  obtain ⟨-, hversion, -⟩ := registered_rest open' live queue
  refine ⟨request, rest ++ if open'.queued then [] else [open'.request], ?_, fun version h => ?_⟩
  · rw [registered_queue, hqueue, List.cons_append]
  · simp only [targetVersion, hversion] at htarget ⊢
    exact htarget version h

theorem Looking.left_queued (h : Looking left open' right s) :
    ∀ o ∈ left, o.name = open'.name → o.queued = true := by
  intro o ho _
  have hmem : o ∈ s.opens := by
    rw [h.opens]
    exact List.mem_append_left _ ho
  cases hactive : o.upgradeActive with
  | true => exact h.tended.listed.active o hmem hactive
  | false => exact (h.passed o ho hactive).1

/-- The lists behind a look that leaves the open where it is. -/
theorem Looking.stays (h : Looking left open' right s) {seen : PendingOpen}
    (hseen : open'.Seen seen) {queue : OpenQueue}
    (hqueue : queue.queue =
      expected left open'.name ++ open'.request :: expected right open'.name)
    (hwaiting : queue.state = .waitingForConnections → Blocked queue) :
    Listed (left ++ seen :: right) s.nextRequestId ∧
      Aligned (left ++ seen :: right)
        (Function.update s.openQueues open'.name (some queue)) := by
  have hlisted := h.tended.listed
  have haligned := h.tended.aligned
  rw [h.opens] at hlisted haligned
  refine ⟨hlisted.seen hseen h.left_queued, haligned.update ?_ (fun other hne => ?_) hwaiting⟩
  · rw [hqueue, expected_append, expected_cons, hseen.queuedAt h.active, hseen.request]
    simp
  · have hself : open'.queuedAt other = false := by simp [PendingOpen.queuedAt, hne.symm]
    rw [expected_append, expected_append, expected_cons, expected_cons,
      hseen.queuedAt h.active, hself]
    simp [hne.symm]

/-- The lists behind a look that takes the open off its queue. -/
theorem Looking.leaves (h : Looking left open' right s) {queue : OpenQueue}
    (hqueue : queue.queue = expected (left ++ right) open'.name)
    (hwaiting : queue.state ≠ .waitingForConnections) :
    Aligned (left ++ right) (Function.update s.openQueues open'.name (some queue)) := by
  have haligned := h.tended.aligned
  rw [h.opens] at haligned
  refine haligned.update hqueue (fun other hne => ?_) fun hstate => absurd hstate hwaiting
  have hself : open'.queuedAt other = false := by simp [PendingOpen.queuedAt, hne.symm]
  rw [expected_append, expected_append, expected_cons, hself]
  simp

/-- A look keeps the lists in step, or takes the open off its queue; either way the answers are
about it. -/
theorem Looking.look (h : Looking left open' right s) {queue : OpenQueue}
    (hqueue : s.HasQueue open'.name queue) :
    let looked := lookAt open' (s.liveConnectionCount open'.name) queue
    (∀ action ∈ looked.answers, action.requestId = open'.requestId) ∧
      open'.Seen looked.open' ∧
      ((looked.step = none ∨ looked.step = some (.fireBlocked looked.open')) ∧
          Tended (s.look open'.requestId open'.name looked) ∧
          (s.look open'.requestId open'.name looked).Stalled open'.name ∨
        ∃ step, looked.step = some step ∧ step.Settles looked.open' ∧
          Taken looked.open' (s.look open'.requestId open'.name looked)) := by
  intro looked
  have hlisted := h.tended.listed
  have haligned := h.tended.aligned
  rw [h.opens] at hlisted haligned
  have hregistered : (registered open' (s.liveConnectionCount open'.name) queue).queue =
      expected left open'.name ++ open'.request :: expected right open'.name :=
    registered_expected hlisted haligned hqueue.requests h.active
  have hopens := h.edit looked.open'
  -- a queue that asks is looked at for its front, which is this open; another one stays
  by_cases hasks : Asks queue (s.liveConnectionCount open'.name)
  · have hleft := h.left_expected hqueue hasks
    rw [hleft, List.nil_append] at hregistered
    obtain ⟨hanswers, hseen, hends⟩ := lookAt_front hasks hregistered fun hstate =>
      registered_blocked (hqueue.blocked haligned hstate)
    refine ⟨hanswers, hseen, ?_⟩
    rcases hends with hwaited | hsettled
    · refine .inl ⟨hwaited.step, ?_, looked.queue, Function.update_self .., ?_⟩
      · have hstays := h.stays hseen (by rw [hwaited.requests, hregistered, hleft]; rfl)
          fun _ => hwaited.blocked
        rw [← hopens] at hstays
        exact ⟨hstays.1, hstays.2⟩
      · rintro (hidle | ⟨-, hlive⟩)
        · exact absurd (hwaited.state.symm.trans hidle) nofun
        · exact hwaited.live hlive
    · obtain ⟨step, hstep, hsettles⟩ := hsettled.step
      have hrequests : looked.queue.queue = expected (left ++ right) open'.name := by
        rw [expected_append, hleft, List.nil_append]
        exact hsettled.requests
      have hleaves := h.leaves hrequests hsettled.state
      have hid : looked.open'.requestId = open'.requestId := by
        obtain ⟨fired, hfired⟩ := hseen
        rw [hfired]
      refine .inr ⟨step, hstep, hsettles, ?_, ?_, ?_, ?_, ?_⟩
      · have hstays := hlisted.seen hseen h.left_queued
        rw [← hopens] at hstays
        exact hstays
      · exact hopens ▸ List.mem_append_right _ List.mem_cons_self
      · obtain ⟨fired, hfired⟩ := hseen
        rw [hfired]
      · obtain ⟨fired, hfired⟩ := hseen
        rw [hfired]
        exact h.active
      · have hfilter : (s.look open'.requestId open'.name looked).opens.filter
            (fun o => o.requestId ≠ looked.open'.requestId) = left ++ right := by
          change (s.editOpen open'.requestId fun _ => looked.open').opens.filter _ = _
          rw [hopens, hid, List.filter_append, List.filter_cons, if_neg (by simp [hid]),
            ← List.filter_append, List.filter_eq_self]
          exact fun o ho => decide_eq_true (h.unique o ho)
        rw [hfilter]
        exact hleaves
  · have hlooked : looked = _ := lookAt_busy hasks
    obtain ⟨hstate, -, -⟩ := registered_rest open' (s.liveConnectionCount open'.name) queue
    have hseen : open'.Seen looked.open' := ⟨open'.blockedFired, by rw [hlooked]⟩
    have hrequests : looked.queue.queue =
        expected left open'.name ++ open'.request :: expected right open'.name := by
      rw [hlooked]
      exact hregistered
    have hstays := h.stays hseen hrequests fun hwaiting => by
      rw [hlooked] at hwaiting ⊢
      exact registered_blocked (hqueue.blocked haligned (hstate.symm.trans hwaiting))
    rw [← hopens] at hstays
    refine ⟨fun action haction => ?_, hseen, .inl ⟨.inl (by rw [hlooked]), ⟨hstays.1, hstays.2⟩,
      looked.queue, Function.update_self .., ?_⟩⟩
    · rw [hlooked] at haction
      exact absurd haction List.not_mem_nil
    · rw [hlooked]
      exact fun hasks' => hasks (by rw [Asks, hstate] at hasks'; exact hasks')

theorem Rightly.answered (h : Rightly s) {requestId : RequestId} {answers : List OpenQueueAction}
    (hanswers : ∀ action ∈ answers, action.requestId = requestId)
    (htrace : s'.trace = s.trace ++ answers.map (.answered requestId)) : Rightly s' := by
  intro looking action hmem
  rw [htrace, List.mem_append] at hmem
  rcases hmem with hmem | hmem
  · exact h looking action hmem
  · obtain ⟨action', haction', heq⟩ := List.mem_map.mp hmem
    obtain ⟨rfl, rfl⟩ := Event.answered.inj heq
    exact hanswers action' haction'

theorem safe_openQueueOf (name : String) (hright : Rightly s) :
    Safe openContract (openQueueOf name)
      (fun queue s' => s' = s ∧ s.HasQueue name queue) s := by
  refine Safe.read ?_
  split
  · next queue hqueue => exact .pure hright ⟨rfl, .inl hqueue⟩
  · next hnone =>
      exact Safe.choose hright fun readable => .pure hright ⟨rfl, .inr ⟨hnone, rfl, rfl⟩⟩

/-- The next look, behind one that led to nothing. -/
theorem Looking.goOn (h : Looking left open' right s) {looked : Looked}
    (hseen : open'.Seen looked.open')
    (htended : Tended (s.look open'.requestId open'.name looked))
    (hstalled : (s.look open'.requestId open'.name looked).Stalled open'.name) :
    Scanning ((right.filter fun o => !o.upgradeActive).map PendingOpen.requestId)
      (s.look open'.requestId open'.name looked) := by
  refine ⟨htended, left ++ [looked.open'], right, ?_, rfl, fun o ho hactive => ?_⟩
  · rw [List.append_assoc]
    exact h.edit looked.open'
  · rcases List.mem_append.mp ho with ho | ho
    · obtain ⟨hqueued, hbusy⟩ := h.passed o ho hactive
      refine ⟨hqueued, ?_⟩
      by_cases hname : o.name = open'.name
      · rw [hname]
        exact hstalled
      · obtain ⟨queue, hqueue, hasks⟩ := hbusy
        exact ⟨queue, (Function.update_of_ne hname ..).trans hqueue, hasks⟩
    · rw [List.mem_singleton.mp ho]
      obtain ⟨fired, hfired⟩ := hseen
      rw [hfired]
      exact ⟨rfl, hstalled⟩

/-- **The scan.** It leads to nothing, to a notice, or to an open that its queue has let go. -/
theorem safe_scanOpens (ids : List RequestId) (h : Scanning ids s) (hright : Rightly s) :
    Safe openContract (scanOpens ids) (fun step s' => Scanned s' step) s := by
  induction ids generalizing s with
  | nil => exact .pure hright h.tended
  | cons requestId ids ih =>
      obtain ⟨left, open', right, hlooking, rfl, rfl⟩ := h.looking
      refine Safe.read ?_
      rw [hlooking.find]
      refine Safe.seq (safe_openQueueOf open'.name hright) fun queue s₁ _ hqueue => ?_
      obtain ⟨rfl, hqueue⟩ := hqueue
      obtain ⟨hanswers, hseen, hends⟩ := hlooking.look hqueue
      have hright' := @Rightly.answered _ (s₁.look open'.requestId open'.name
        (lookAt open' (s₁.liveConnectionCount open'.name) queue)) hright _ _ hanswers rfl
      refine Safe.modify hright ?_
      generalize lookAt open' (s₁.liveConnectionCount open'.name) queue = looked at *
      rcases hends with ⟨hstep, htended, hstalled⟩ | ⟨step, hstep, hsettles, htaken⟩
      · rcases hstep with hstep | hstep
        · rw [hstep]
          exact ih (hlooking.goOn hseen htended hstalled) hright'
        · rw [hstep]
          exact .pure hright' htended
      · rw [hstep]
        refine .pure hright' ?_
        cases step with
        | fireBlocked o => exact hsettles.elim
        | finishUpgrade o txnId => exact hsettles.elim
        | openConnection o version => exact (show o = looked.open' from hsettles) ▸ htaken
        | failOpen o error => exact (show o = looked.open' from hsettles) ▸ htaken
        | startUpgrade o old new => exact (show o = looked.open' from hsettles) ▸ htaken
        | startDelete o => exact (show o = looked.open' from hsettles) ▸ htaken

theorem safe_nextOpenStep (h : Tended s) (hright : Rightly s) :
    Safe openContract nextOpenStep (fun step s' => Scanned s' step) s := by
  have hscan : Scanning ((s.opens.filter fun o => !o.upgradeActive).map PendingOpen.requestId) s :=
    ⟨h, [], s.opens, rfl, rfl, fun o ho => absurd ho List.not_mem_nil⟩
  refine Safe.read ?_
  split
  · exact safe_scanOpens _ hscan hright
  · next open' hfind =>
      split
      · exact .pure hright h
      · split
        · exact .pure hright ⟨h, List.mem_of_find?_eq_some hfind, List.find?_some hfind⟩
        · exact safe_scanOpens _ hscan hright

/-! ### What leaves the opens as they are -/

/-- The opens and their queues are the same, and no queue was asked. -/
structure Untouched (s s' : State) : Prop where
  opens : s'.opens = s.opens
  openQueues : s'.openQueues = s.openQueues
  later : s.nextRequestId ≤ s'.nextRequestId
  answers : ∀ looking action, .answered looking action ∈ s'.trace →
    .answered looking action ∈ s.trace

theorem Untouched.of_eq (hopens : s'.opens = s.opens) (hqueues : s'.openQueues = s.openQueues)
    (hnext : s'.nextRequestId = s.nextRequestId) (htrace : s'.trace = s.trace) :
    Untouched s s' :=
  ⟨hopens, hqueues, hnext.ge, fun _ _ h => htrace ▸ h⟩

theorem Untouched.refl (s : State) : Untouched s s := .of_eq rfl rfl rfl rfl

theorem Untouched.trans {s'' : State} (h : Untouched s s') (h' : Untouched s' s'') :
    Untouched s s'' where
  opens := h'.opens.trans h.opens
  openQueues := h'.openQueues.trans h.openQueues
  later := h.later.trans h'.later
  answers looking action hmem := h.answers looking action (h'.answers looking action hmem)

theorem Untouched.rightly (h : Untouched s s') (hright : Rightly s) : Rightly s' :=
  fun looking action hmem => hright looking action (h.answers looking action hmem)

theorem Untouched.tended (h : Untouched s s') (hs : Tended s) : Tended s' where
  listed := by
    rw [h.opens]
    exact hs.listed.mono h.later
  aligned := by
    rw [h.opens, h.openQueues]
    exact hs.aligned

theorem Untouched.leaves (h : Untouched s s') : Leaves s s' :=
  ⟨h.later, fun _ ho _ => h.opens ▸ ho⟩

theorem Quiet.untouched (h : Quiet s s') : Untouched s s' := by
  refine ⟨h.opens, h.openQueues, h.later, fun looking action hmem => ?_⟩
  obtain ⟨events, htrace, hquiet⟩ := h.trace
  rw [htrace, List.mem_append] at hmem
  exact hmem.resolve_right fun hmem => absurd (hquiet _ hmem) nofun

theorem Untouched.held (hsame : Untouched s s') (h : openContract.Held s₀ s) :
    openContract.Held s₀ s' :=
  h.trans ⟨hsame.rightly h.always, hsame.tended h.invariant, hsame.leaves⟩

variable {α β : Type} {p : Prog α} {k : α → Prog β}

theorem held_of_untouched (hp : p.Within Untouched) (h : openContract.Held s₀ s) :
    Kept openContract s₀ p s :=
  hp.kept (fun _ _ hsame hright hs => ⟨hsame.rightly hright, hsame.tended hs, hsame.leaves⟩) h

theorem held_of_quiet (hp : p.Within Quiet) (h : openContract.Held s₀ s) :
    Kept openContract s₀ p s :=
  held_of_untouched (hp.mono fun _ _ hquiet => hquiet.untouched) h

/-- The queue of a database was asked. -/
def Event.answer : Event → Bool
  | .answered _ _ => true
  | _ => false

/-- Something else happened. -/
theorem Untouched.recorded {e : Event} (htrace : s'.trace = s.trace ++ [e])
    (hopens : s'.opens = s.opens) (hqueues : s'.openQueues = s.openQueues)
    (hnext : s'.nextRequestId = s.nextRequestId) (he : e.answer = false) : Untouched s s' := by
  refine ⟨hopens, hqueues, hnext.ge, fun looking action hmem => ?_⟩
  rw [htrace, List.mem_append, List.mem_singleton] at hmem
  refine hmem.resolve_right ?_
  rintro rfl
  cases he

open Prog

theorem untouched_record {e : Event} (he : e.answer = false) : (record e).Within Untouched :=
  within_modify fun _ => .recorded rfl rfl rfl rfl he

theorem untouched_dispatch {e : Event} (he : e.answer = false) : (dispatch e).Within Untouched :=
  within_dispatch fun _ => .recorded rfl rfl rfl rfl he

theorem untouched_dispatchEnd (txnId : TxnId) (edit : TxnObject → TxnObject) {e : Event}
    (he : e.answer = false) : (dispatchEnd txnId edit e).Within Untouched :=
  within_dispatchEnd txnId .refl (fun _ => .of_eq rfl rfl rfl rfl)
    (fun _ => .recorded rfl rfl rfl rfl he) fun _ => .of_eq rfl rfl rfl rfl

theorem untouched_takeAborted (txnId : TxnId) : (takeAborted txnId).Within Untouched := by
  refine within_bind (within_modifyRead fun s => ?_) fun _ => within_pure
  split
  · exact .recorded rfl rfl rfl rfl rfl
  · exact .of_eq rfl rfl rfl (List.append_nil _)

theorem untouched_startUpgradeTxn (open' : PendingOpen) :
    (startUpgradeTxn open').Within Untouched := by
  refine within_bind (within_read .refl) fun s => within_bind within_choose fun begun => ?_
  split
  · exact within_pure
  · split
    · exact within_bind (within_modify fun _ => .of_eq rfl rfl rfl rfl) fun _ => within_pure
    · exact within_bind (within_modify fun _ => .of_eq rfl rfl rfl rfl) fun _ => within_pure

theorem untouched_commitUpgrade (open' : PendingOpen) (txnId : TxnId)
    (handle : Option TxnHandle) : (commitUpgrade open' txnId handle).Within Untouched := by
  unfold commitUpgrade
  split
  · exact within_bind within_choose fun ok =>
      within_modify fun _ => .recorded rfl rfl rfl rfl rfl
  · exact within_pure

theorem untouched_startReadyTxns : startReadyTxns.Within Untouched := by
  have hquiet {q : Prog Unit} (hq : q.Within Quiet) : q.Within Untouched :=
    hq.mono fun _ _ h => h.untouched
  refine within_bind (within_modifyRead fun _ => .of_eq rfl rfl rfl rfl) fun s => ?_
  generalize s.scheduler.pollReady.2 = ready
  induction ready with
  | nil => exact within_pure
  | cons txnId rest ih =>
      refine within_bind (within_bind (within_read .refl) fun s => ?_) fun _ =>
        within_bind ih fun _ => within_pure
      split
      · refine within_bind within_choose fun answer => ?_
        split
        · exact within_bind (within_modify fun _ => .of_eq rfl rfl rfl rfl) fun _ => within_pure
        · exact within_bind (within_modify fun _ => .of_eq rfl rfl rfl rfl) fun _ => within_pure
        · exact within_bind (within_modify fun _ => .recorded rfl rfl rfl rfl rfl) fun _ =>
            within_bind (hquiet (quiet_failQueuedRequests _ _)) fun _ => within_pure
      · exact within_pure

theorem untouched_finishTxns : finishTxns.Within Untouched := by
  refine within_bind (within_read .refl) fun s => ?_
  split
  · exact within_pure
  · exact within_bind (within_modify fun _ => .of_eq rfl rfl rfl rfl) fun _ =>
      within_bind within_choose fun ok => within_bind (untouched_record rfl) fun _ =>
        within_bind (within_modify fun _ => .of_eq rfl rfl rfl rfl) fun _ =>
          within_bind (untouched_dispatchEnd _ _ rfl) fun _ => within_pure

theorem untouched_transaction (connId : ConnId) (write : Bool) (scope : List StoreId) :
    (transaction connId write scope).Within Untouched := by
  refine within_bind (within_read .refl) fun s => ?_
  split
  · exact within_pure
  · split
    · exact within_pure
    · refine within_bind within_callOut fun reply => ?_
      split
      · exact within_pure
      · refine within_bind (within_read .refl) fun s => ?_
        split
        · exact within_pure
        · refine within_bind within_choose fun valid => within_modify fun s => ?_
          split
          · exact .refl s
          · split
            · exact .of_eq rfl rfl rfl rfl
            · exact .of_eq rfl rfl rfl rfl

theorem untouched_close (connId : ConnId) : (close connId).Within Untouched :=
  within_modify fun _ => .recorded rfl rfl rfl rfl rfl

/-! ### What changes the opens -/

/-- A change to a queue that keeps its requests and does not wait. -/
theorem Aligned.edit (h : Aligned opens openQueues) (name : String) {edit : OpenQueue → OpenQueue}
    (hedit : ∀ queue, (edit queue).queue = queue.queue ∧
      (edit queue).state ≠ .waitingForConnections) :
    Aligned opens (Function.update openQueues name ((openQueues name).map edit)) := by
  cases hqueue : openQueues name with
  | none =>
      rw [Option.map_none, ← hqueue, Function.update_eq_self]
      exact h
  | some queue =>
      refine h.update ?_ (fun _ _ => rfl) fun hstate => absurd hstate (hedit queue).2
      rw [(hedit queue).1, ← h.requests name]
      simp [Pump.requests, hqueue]

theorem keeps_onOperationFailed (queue : OpenQueue) :
    queue.onOperationFailed.queue = queue.queue ∧
      queue.onOperationFailed.state ≠ .waitingForConnections := ⟨rfl, nofun⟩

theorem Taken.removed (h : Taken open' s) :
    Listed (s.removeOpen open'.requestId).opens s.nextRequestId ∧
      Aligned (s.removeOpen open'.requestId).opens s.openQueues :=
  ⟨h.listed.sublist List.filter_sublist, h.aligned⟩

/-- Nor does the removal of an open in an upgrade put the lists out of step. -/
theorem Tended.removed (h : Tended s) {requestId : RequestId}
    (hactive : ∀ o ∈ s.opens, o.requestId = requestId → o.upgradeActive = true) :
    Listed (s.removeOpen requestId).opens s.nextRequestId ∧
      Aligned (s.removeOpen requestId).opens s.openQueues := by
  refine ⟨h.listed.sublist List.filter_sublist, ⟨fun name => ?_, h.aligned.waiting⟩⟩
  rw [h.aligned.requests name]
  refine (expected_filter_of_active (fun o ho hkeep => hactive o ho ?_) name).symm
  simpa using hkeep

/-- The state goes on without an open. -/
theorem held_removed {requestId : RequestId} (hright : Rightly s') (h : Leaves s₀ s)
    (hopens : s'.opens = (s.removeOpen requestId).opens)
    (hnext : s'.nextRequestId = s.nextRequestId)
    (hlisted : Listed (s.removeOpen requestId).opens s.nextRequestId)
    (haligned : Aligned (s.removeOpen requestId).opens s'.openQueues) :
    openContract.Held s₀ s' := by
  refine ⟨hright, ⟨?_, ?_⟩, h.trans ⟨hnext.ge, fun o ho _ => ?_⟩⟩
  · rw [hopens, hnext]
    exact hlisted
  · rw [hopens]
    exact haligned
  · rw [hopens] at ho
    exact List.mem_of_mem_filter ho

theorem Listed.eraseP (h : Listed opens next) {found : PendingOpen → Bool}
    (hfind : opens.find? found = some open') :
    opens.eraseP found = opens.filter fun o => o.requestId ≠ open'.requestId := by
  obtain ⟨hfound, left, right, rfl, hleft⟩ := List.find?_eq_some_iff_append.mp hfind
  have honce := h.once
  rw [List.map_append, List.map_cons, List.nodup_middle, List.nodup_cons, ← List.map_append]
    at honce
  have hkeep : ∀ o ∈ left ++ right, decide (o.requestId ≠ open'.requestId) = true := by
    intro o ho
    exact decide_eq_true fun hid => honce.1 (hid ▸ List.mem_map_of_mem ho)
  rw [List.eraseP_append_right _ fun o ho => by simpa using hleft o ho,
    List.eraseP_cons_of_pos hfound, List.filter_append, List.filter_cons_of_neg (by simp),
    ← List.filter_append, List.filter_eq_self.mpr hkeep]

theorem tended_abortUpgradeOpen (txnId : TxnId) (notifyRequest : Bool)
    (h : openContract.Held s₀ s) :
    Kept openContract s₀ (abortUpgradeOpen txnId notifyRequest) s := by
  refine Kept.read ?_
  split
  · exact .pure h
  · next open' hfind =>
      have htended := h.invariant
      have hmem := List.mem_of_find?_eq_some hfind
      have hactive : ∀ o ∈ s.opens, o.requestId = open'.requestId → o.upgradeActive = true := by
        intro o ho hid
        rw [htended.listed.eq_of_id ho hmem hid]
        refine htended.listed.upgrades open' hmem ?_
        have hid' := List.find?_some hfind
        rw [decide_eq_true_eq] at hid'
        rw [hid']
        exact nofun
      obtain ⟨hlisted, haligned⟩ := htended.removed hactive
      refine Kept.modify h.always ?_
      have hheld : openContract.Held s₀ { (s.editQueue open'.name onOperationFailed) with
          opens := s.opens.eraseP fun o => o.upgradeTxnId = some txnId
          deferredOpenErrors := if notifyRequest then s.deferredOpenErrors ++ [open']
            else s.deferredOpenErrors } :=
        held_removed h.always h.during (htended.listed.eraseP hfind) rfl hlisted
          (haligned.edit open'.name keeps_onOperationFailed)
      refine (held_of_quiet (quiet_clearUpgradeTxn open') hheld).bind fun _ s₁ h₁ =>
        (held_of_quiet (quiet_resetAbortedUpgradeRequest open') h₁).bind fun _ s₂ h₂ => ?_
      split
      · exact .pure h₂
      · exact (held_of_quiet (quiet_dispatch rfl) h₂).done

theorem tended_abortTransaction (txnId : TxnId) (notifyUpgradeOpen : Bool)
    (h : openContract.Held s₀ s) :
    Kept openContract s₀ (abortTransaction txnId notifyUpgradeOpen) s := by
  refine (held_of_untouched (untouched_takeAborted txnId) h).bind fun taken s₁ h₁ => ?_
  cases taken with
  | none => exact .pure h₁
  | some handle =>
      have hforgotten : Untouched s₁ (s₁.forget txnId) := .of_eq rfl rfl rfl rfl
      refine Kept.modify h₁.always ?_
      refine (held_of_quiet (quiet_failQueuedRequests _ _) (hforgotten.held h₁)).bind
        fun _ s₂ h₂ =>
          (held_of_untouched (untouched_dispatchEnd txnId _ rfl) h₂).bind fun _ s₃ h₃ => ?_
      split
      · exact tended_abortUpgradeOpen txnId notifyUpgradeOpen h₃
      · exact .pure h₃

/-- What an aborted upgrade undoes before its bookkeeping hands control to nobody. -/
theorem untouched_safe {p : Prog α} (hp : p.Within Untouched) (hsilent : p.Silent)
    (hright : Rightly s) : Safe openContract p (fun _ s' => Untouched s s') s :=
  hsilent.safe hp .refl (fun _ _ _ => .trans) (fun _ _ h => h.rightly) hright

theorem tended_abortFailedUpgrade (txnId : TxnId) (h : openContract.Held s₀ s)
    (hactive : ∀ o ∈ s.opens, o.requestId = open'.requestId → o.upgradeActive = true) :
    Kept openContract s₀ (abortFailedUpgrade open' txnId) s := by
  refine Safe.seq (untouched_safe ((quiet_resetAbortedUpgradeRequest open').mono
    fun _ _ hquiet => hquiet.untouched) (silent_resetAbortedUpgradeRequest open') h.always)
    fun _ s₁ hright₁ hs₁ => ?_
  refine Safe.seq (untouched_safe (untouched_takeAborted txnId) (fun _ => trivial) hright₁)
    fun _ s₂ hright₂ hs₂ => Safe.modify hright₂ ?_
  have hs := hs₁.trans hs₂
  obtain ⟨hlisted, haligned⟩ := (hs.tended h.invariant).removed fun o ho =>
    hactive o (hs.opens ▸ ho)
  have hheld : openContract.Held s₀ (((s₂.forget txnId).removeOpen open'.requestId).editQueue
      open'.name onOperationFailed) :=
    held_removed hright₂ (hs.held h).during rfl rfl hlisted
      (haligned.edit open'.name keeps_onOperationFailed)
  exact (held_of_untouched (untouched_dispatchEnd txnId _ rfl) hheld).bind fun _ s₃ h₃ =>
    (held_of_quiet (quiet_dispatch rfl) h₃).done

/-! ### The steps -/

/-- An open in an upgrade is no longer expected in the queue. -/
theorem expected_activate (opens : List PendingOpen) (requestId : RequestId) (txnId : TxnId)
    (versions : UInt64 × UInt64) (name : String) :
    expected (opens.map fun o => if o.requestId = requestId then o.activate txnId versions else o)
      name = expected (opens.filter fun o => o.requestId ≠ requestId) name := by
  induction opens with
  | nil => rfl
  | cons o opens ih =>
      rw [List.map_cons, expected_cons, ih]
      by_cases hid : o.requestId = requestId
      · rw [List.filter_cons_of_neg (by simpa using hid)]
        simp [hid, PendingOpen.queuedAt, PendingOpen.activate]
      · rw [List.filter_cons_of_pos (by simpa using hid), if_neg hid, expected_cons]

theorem Taken.activated (h : Taken open' s) (txnId : TxnId) (versions : UInt64 × UInt64) :
    Tended (s.editOpen open'.requestId (PendingOpen.activate txnId versions)) := by
  have hid (o : PendingOpen) : (if o.requestId = open'.requestId then
      o.activate txnId versions else o).requestId = o.requestId := by
    split <;> rfl
  have hname (o : PendingOpen) : (if o.requestId = open'.requestId then
      o.activate txnId versions else o).name = o.name := by
    split <;> rfl
  have hqueued (o : PendingOpen) : (if o.requestId = open'.requestId then
      o.activate txnId versions else o).queued = o.queued := by
    split <;> rfl
  refine ⟨⟨fun o ho => ?_, ?_, ?_, fun o ho => ?_, fun o ho => ?_⟩, fun name => ?_,
    h.aligned.waiting⟩
  · obtain ⟨o', ho', rfl⟩ := List.mem_map.mp ho
    rw [hid]
    exact h.listed.fresh o' ho'
  · have hids : (s.opens.map fun o => if o.requestId = open'.requestId then
        o.activate txnId versions else o).map PendingOpen.requestId =
        s.opens.map PendingOpen.requestId := by
      rw [List.map_map]
      exact List.map_congr_left fun o _ => hid o
    change (List.map _ (List.map _ _)).Nodup
    rw [hids]
    exact h.listed.once
  · refine List.pairwise_map.mpr (h.listed.order.imp fun hab => ?_)
    rw [hname, hname, hqueued, hqueued]
    exact hab
  · obtain ⟨o', ho', rfl⟩ := List.mem_map.mp ho
    rw [hqueued]
    split
    · next heq =>
        rw [h.listed.eq_of_id ho' h.mem heq]
        exact fun _ => h.queued
    · exact h.listed.active o' ho'
  · obtain ⟨o', ho', rfl⟩ := List.mem_map.mp ho
    split
    · exact fun _ => rfl
    · exact h.listed.upgrades o' ho'
  · exact (h.aligned.requests name).trans (expected_activate ..).symm

theorem active_activated (s : State) (requestId : RequestId) (txnId : TxnId)
    (versions : UInt64 × UInt64) :
    ∀ o ∈ (s.editOpen requestId (PendingOpen.activate txnId versions)).opens,
      o.requestId = requestId → o.upgradeActive = true := by
  intro o ho hid
  obtain ⟨o', -, rfl⟩ := List.mem_map.mp ho
  split at hid
  · next heq =>
      rw [if_pos heq]
      rfl
  · next hne => exact absurd hid hne

/-- A program that keeps the contract ends in step. -/
theorem Kept.tended {p : Prog α} (h : Kept openContract s₀ p s) :
    Safe openContract p (fun _ => Tended) s :=
  h.mono fun _ _ _ hs' => hs'.1

theorem tended_openConnection (h : Taken open' s) (hright : Rightly s) :
    Safe openContract (openConnection open') (fun _ => Tended) s := by
  obtain ⟨hlisted, haligned⟩ := h.removed
  have hheld : openContract.Held s (((s.insertConnection open'.connId open'.name).removeOpen
      open'.requestId).setResult open'.requestId open'.connId ⟨open'.name, false, none⟩) :=
    held_removed hright (.refl s) rfl rfl hlisted haligned
  exact Safe.modify hright (Kept.tended
    (held_of_untouched (within_bind (untouched_dispatch rfl) fun _ => within_pure) hheld))

theorem tended_failOpen (h : Taken open' s) (hright : Rightly s) (error : IdbError) :
    Safe openContract (perform (.failOpen open' error)) (fun _ => Tended) s := by
  obtain ⟨hlisted, haligned⟩ := h.removed
  have hheld : openContract.Held s (s.removeOpen open'.requestId) :=
    held_removed hright (.refl s) rfl rfl hlisted haligned
  exact Safe.modify hright (Kept.tended
    (held_of_quiet (within_bind (quiet_dispatch rfl) fun _ => within_pure) hheld))

theorem Untouched.taken (hsame : Untouched s s') (h : Taken open' s) : Taken open' s' where
  listed := by
    rw [hsame.opens]
    exact h.listed.mono hsame.later
  mem := hsame.opens ▸ h.mem
  queued := h.queued
  active := h.active
  aligned := by
    rw [hsame.opens, hsame.openQueues]
    exact h.aligned

/-- What is reported of an open leaves the lists in step. -/
theorem tended_dispatch {e : Event} (he : e.quiet = true) (hright : Rightly s) (h : Tended s) :
    Safe openContract (dispatch e >>= fun _ => (Pure.pure () : Prog Unit)) (fun _ => Tended) s :=
  Kept.tended (held_of_quiet (quiet_dispatch he) (.refl hright h)).done

/-- The queue is released while its open goes. -/
theorem Taken.released (h : Taken open' s) {edit : OpenQueue → OpenQueue}
    (hedit : ∀ queue, (edit queue).queue = queue.queue ∧
      (edit queue).state ≠ .waitingForConnections)
    (hopens : s'.opens = (s.removeOpen open'.requestId).opens)
    (hqueues : s'.openQueues =
      Function.update s.openQueues open'.name ((s.openQueues open'.name).map edit))
    (hnext : s'.nextRequestId = s.nextRequestId) : Tended s' := by
  obtain ⟨hlisted, haligned⟩ := h.removed
  refine ⟨?_, ?_⟩
  · rw [hopens, hnext]
    exact hlisted
  · rw [hopens, hqueues]
    exact haligned.edit open'.name hedit

theorem keeps_onDeleteComplete (queue : OpenQueue) :
    queue.onDeleteComplete.queue = queue.queue ∧
      queue.onDeleteComplete.state ≠ .waitingForConnections := ⟨rfl, nofun⟩

theorem tended_startDelete (h : Taken open' s) (hright : Rightly s) :
    Safe openContract (startDelete open') (fun _ => Tended) s := by
  have hsame : Untouched s
      { s with trace := s.trace ++ [.startDelete open'.requestId open'.name] } :=
    .recorded rfl rfl rfl rfl rfl
  have hright' := hsame.rightly hright
  have htaken := hsame.taken h
  refine Safe.modify hright (Safe.choose hright' fun deleted => ?_)
  split
  · refine Safe.modify hright' (tended_dispatch rfl hright' ?_)
    exact htaken.released keeps_onDeleteComplete rfl rfl rfl
  · refine Safe.modify hright' (tended_dispatch rfl hright' ?_)
    exact htaken.released keeps_onOperationFailed rfl rfl rfl

theorem tended_startUpgrade (h : Taken open' s) (hright : Rightly s)
    (oldVersion newVersion : UInt64) :
    Safe openContract (startUpgrade open' oldVersion newVersion) (fun _ => Tended) s := by
  have hrecorded : Untouched s
      { s with trace := s.trace ++ [.startUpgrade open'.requestId open'.name] } :=
    .recorded rfl rfl rfl rfl rfl
  refine Safe.modify hright (Safe.seq (untouched_safe (untouched_startUpgradeTxn open')
    (silent_startUpgradeTxn open') (hrecorded.rightly hright)) fun started s₁ hright₁ hs₁ => ?_)
  have htaken := (hrecorded.trans hs₁).taken h
  cases started with
  | none =>
      refine Safe.modify hright₁ (tended_dispatch rfl hright₁ ?_)
      exact htaken.released keeps_onOperationFailed rfl rfl rfl
  | some txnId =>
      refine Safe.modify hright₁ (Safe.read ?_)
      have hactive := active_activated s₁ open'.requestId txnId (oldVersion, newVersion)
      have htended := htaken.activated txnId (oldVersion, newVersion)
      have hfresh : open'.requestId < (s₁.editOpen open'.requestId
          (.activate txnId (oldVersion, newVersion))).nextRequestId :=
        htaken.listed.fresh open' htaken.mem
      have hright₂ : Rightly
        (s₁.editOpen open'.requestId (.activate txnId (oldVersion, newVersion))) := hright₁
      generalize s₁.editOpen open'.requestId (.activate txnId (oldVersion, newVersion)) = s₂ at *
      have hid : ((s₂.opens.find? fun o => o.requestId = open'.requestId).getD open').requestId =
          open'.requestId := by
        cases hfind : s₂.opens.find? fun o => o.requestId = open'.requestId with
        | none => rfl
        | some o => simpa using List.find?_some hfind
      generalize (s₂.opens.find? fun o => o.requestId = open'.requestId).getD open' = started at *
      refine Kept.tended (Kept.bind (held_of_quiet (quiet_dispatch rfl)
        (.refl hright₂ htended)) fun reply s₃ h₃ => ?_)
      split
      · split
        · exact .pure h₃
        · refine tended_abortFailedUpgrade _ h₃ fun o ho hoid => ?_
          have hself := hoid.trans hid
          exact hactive o (h₃.during.stays o ho (hself ▸ hfresh)) hself
      · exact .pure h₃

theorem keeps_onUpgradeComplete (version : UInt64) (queue : OpenQueue) :
    (queue.onUpgradeComplete version).queue = queue.queue ∧
      (queue.onUpgradeComplete version).state ≠ .waitingForConnections := ⟨rfl, nofun⟩

/-- An upgrade that ends leaves its queue in step. -/
theorem held_releaseUpgrade (txnId : TxnId) (hright : Rightly s) (hlater : Leaves s₀ s)
    (hlisted : Listed s.opens s.nextRequestId) (haligned : Aligned s.opens s.openQueues) :
    openContract.Held s₀ (s.releaseUpgrade open' txnId) := by
  unfold State.releaseUpgrade
  split
  · next old version hversions =>
      refine ⟨fun looking action hmem => ?_,
        ⟨hlisted, haligned.edit open'.name (keeps_onUpgradeComplete version)⟩,
        hlater.later, hlater.stays⟩
      rw [List.mem_append, List.mem_singleton] at hmem
      exact hright looking action (hmem.resolve_right nofun)
  · exact ⟨hright, ⟨hlisted, haligned.edit open'.name keeps_onOperationFailed⟩,
      hlater.later, hlater.stays⟩

theorem tended_finishUpgrade (txnId : TxnId) (h : Tended s) (hright : Rightly s)
    (hmem : open' ∈ s.opens) (hactive : open'.upgradeActive = true) :
    Safe openContract (finishUpgrade open' txnId) (fun _ => Tended) s := by
  have htaken : Untouched s (s.setTxn txnId none) := .of_eq rfl rfl rfl rfl
  refine Safe.modifyRead hright (Safe.seq (untouched_safe (untouched_commitUpgrade _ _ _)
    (silent_commitUpgrade _ _ _) (htaken.rightly hright)) fun _ s₁ hright₁ hs₁ => ?_)
  have hs := htaken.trans hs₁
  obtain ⟨hlisted, haligned⟩ := (hs.tended h).removed fun o ho hid => by
    rw [h.listed.eq_of_id (hs.opens ▸ ho) hmem hid]
    exact hactive
  have hheld : openContract.Held s (((s₁.forget txnId).removeOpen
      open'.requestId).releaseUpgrade open' txnId) :=
    held_releaseUpgrade txnId hright₁
      (hs.leaves.trans ⟨le_refl _, fun _ ho _ => List.mem_of_mem_filter ho⟩) hlisted haligned
  refine Safe.modify hright₁ (@Kept.tended _ s _ _ ?_)
  refine (held_of_untouched (untouched_dispatchEnd txnId _ rfl) hheld).bind fun _ s₂ h₂ =>
    (held_of_quiet (quiet_clearUpgradeTxn open') h₂).bind fun _ s₃ h₃ => ?_
  split
  · have hcleared : Untouched s₃ (s₃.clearResult open'.requestId) := .of_eq rfl rfl rfl rfl
    exact Kept.modify h₃.always (held_of_quiet (quiet_dispatch rfl) (hcleared.held h₃)).done
  · exact (held_of_untouched (untouched_dispatch rfl) h₃).done

theorem tended_perform (step : OpenStep) (h : Scanned s (some step)) (hright : Rightly s) :
    Safe openContract (perform step) (fun _ => Tended) s := by
  cases step with
  | fireBlocked o => exact tended_dispatch rfl hright h
  | openConnection o version => exact tended_openConnection h hright
  | failOpen o error => exact tended_failOpen h hright error
  | startUpgrade o old new => exact tended_startUpgrade h hright old new
  | startDelete o => exact tended_startDelete h hright
  | finishUpgrade o txnId => exact tended_finishUpgrade txnId h.1 hright h.2.1 h.2.2

/-! ### Requests and methods -/

theorem tended_completeRequest (txnId : TxnId) (requestId : RequestId)
    (h : openContract.Held s₀ s) :
    Kept openContract s₀ (completeRequest txnId requestId) s := by
  refine (held_of_quiet (quiet_refreshTxnEpoch txnId) h).bind fun _ s₁ h₁ =>
    (held_of_quiet (quiet_dispatch rfl) h₁).bind fun reply s₂ h₂ => ?_
  split
  · exact tended_abortTransaction txnId true h₂
  · exact .pure h₂

theorem tended_execute (txnId : TxnId) (requestId : RequestId) (op : PendingOp)
    (h : openContract.Held s₀ s) :
    Kept openContract s₀ (execute txnId requestId op) s := by
  have hcursor {f : State → State} {s₁ : State} (hf : Quiet s₁ (f s₁))
      (h₁ : openContract.Held s₀ s₁) : Kept openContract s₀
        (Prog.modify f >>= fun _ => completeRequest txnId requestId) s₁ :=
    Kept.modify h₁.always (tended_completeRequest txnId requestId (hf.untouched.held h₁))
  refine (held_of_quiet (quiet_executeOp txnId requestId op) h).bind fun result s₁ h₁ => ?_
  split
  · exact (held_of_quiet (quiet_applyOutcome txnId requestId) h₁).bind fun _ s₂ h₂ =>
      hcursor (quiet_releaseCursor op s₂) h₂
  · exact tended_completeRequest txnId requestId h₁
  · exact hcursor (.of_eq rfl rfl rfl rfl rfl rfl rfl rfl rfl) h₁
  · refine (held_of_quiet (quiet_failOp _ _ _) h₁).bind fun prevented s₂ h₂ => ?_
    split
    · exact tended_abortTransaction txnId false h₂
    · exact .pure h₂

theorem tended_processTxnRequests (served : List TxnId) (h : openContract.Held s₀ s) :
    Kept openContract s₀ (processTxnRequests served) s := by
  refine Kept.choose h.always fun order => Kept.modifyRead h.always ?_
  have h₁ := (quiet_dequeue (queueKeys order s) served s).untouched.held h
  dsimp only
  split
  · exact .pure h₁
  · exact (held_of_quiet (quiet_failQueuedRequests _ _) h₁).done
  · exact (tended_execute _ _ _ h₁).done

theorem expected_issued (hqueued : open'.queued = false) (name : String) :
    expected (opens ++ [open']) name = expected opens name := by
  rw [expected_append, expected_cons]
  simp [PendingOpen.queuedAt, hqueued, expected]

/-- A new open is behind all others, in no queue yet. -/
theorem Listed.issued (h : Listed opens next) (hnext : next + 1 ≠ 0)
    (hid : open'.requestId = next) (hqueued : open'.queued = false)
    (hactive : open'.upgradeActive = false) (htxn : open'.upgradeTxnId = none) :
    Listed (opens ++ [open']) (next + 1) where
  fresh o ho := by
    rcases List.mem_append.mp ho with ho | ho
    · exact (h.fresh o ho).trans (lt_succ_self hnext)
    · rw [List.mem_singleton.mp ho, hid]
      exact lt_succ_self hnext
  once := by
    rw [List.map_append, List.nodup_append]
    refine ⟨h.once, List.nodup_singleton _, fun id hleft id' hright => ?_⟩
    obtain ⟨o, ho, rfl⟩ := List.mem_map.mp hleft
    rw [List.map_singleton, List.mem_singleton] at hright
    rw [hright, hid]
    exact (h.fresh o ho).ne
  order := by
    refine List.pairwise_append.mpr ⟨h.order, List.pairwise_singleton _ _, fun a _ b hb => ?_⟩
    rw [List.mem_singleton.mp hb, hqueued]
    exact fun _ => nofun
  active o ho := by
    rcases List.mem_append.mp ho with ho | ho
    · exact h.active o ho
    · rw [List.mem_singleton.mp ho, hactive]
      exact nofun
  upgrades o ho := by
    rcases List.mem_append.mp ho with ho | ho
    · exact h.upgrades o ho
    · rw [List.mem_singleton.mp ho, htxn]
      exact fun hne => absurd rfl hne

theorem tended_issueOpen (kind : OpenKind) (name : String) (version : UInt64)
    (h : openContract.Held s₀ s) :
    Kept openContract s₀ (issueOpen kind name version) s := by
  refine ⟨h.always, ?_⟩
  dsimp only
  split
  · exact ⟨h.always, h.invariant, h.during⟩
  · next hnext =>
      have hone := (not_or.mp hnext).1
      refine ⟨h.always, ⟨h.invariant.listed.issued hone rfl rfl rfl rfl, fun other => ?_,
        h.invariant.aligned.waiting⟩, h.during.trans ⟨(lt_succ_self hone).le, fun o ho hlt => ?_⟩⟩
      · exact (h.invariant.aligned.requests other).trans (expected_issued rfl other).symm
      · rcases List.mem_append.mp ho with ho | ho
        · exact ho
        · rw [List.mem_singleton.mp ho] at hlt
          exact absurd hlt (lt_irrefl _)

theorem tended_abort (txnId : TxnId) (h : openContract.Held s₀ s) :
    Kept openContract s₀ (abort txnId) s := by
  refine Kept.read ?_
  split
  · have hsame : Untouched s { s with
      txnObjects := Function.update s.txnObjects txnId
        ((s.txnObjects txnId).map TxnObject.over) } := .of_eq rfl rfl rfl rfl
    exact Kept.modify h.always (tended_abortTransaction txnId true (hsame.held h))
  · exact .pure h

/-! ### Runs -/

/-- Every procedure but a pass over the opens keeps the contract. -/
theorem tended_body (proc : Proc) (hopens : proc ≠ .processOpens)
    (h : openContract.Held s₀ s) : Kept openContract s₀ (body proc) s := by
  cases proc with
  | processOpens => exact absurd rfl hopens
  | processDeferredOpenErrors => exact (held_of_quiet quiet_processDeferredOpenErrors h).done
  | startReadyTxns =>
      exact (held_of_untouched untouched_startReadyTxns h).bind fun _ _ h₁ => .pure h₁
  | processTxnRequests served =>
      refine (tended_processTxnRequests served h).bind fun served' s₁ h₁ => ?_
      split
      · exact .pure h₁
      · exact .pure h₁
  | runJobs =>
      refine Kept.read ?_
      split
      · exact .pure h
      · exact Kept.callOut h fun _ _ h₁ => .pure h₁
  | deactivateIdleTxns =>
      exact Kept.modify h.always (.pure ((quiet_deactivateIdleTxns s).untouched.held h))
  | finishTxns => exact (held_of_untouched untouched_finishTxns h).bind fun _ _ h₁ => .pure h₁
  | endOfTask => exact Kept.modify h.always (.pure ((quiet_endOfTask s).untouched.held h))
  | noteTimerTask =>
      have hsame : Untouched s { s with taskEpoch := s.taskEpoch + 1 } := .of_eq rfl rfl rfl rfl
      exact Kept.modify h.always (.pure (hsame.held h))
  | issueOpen kind name version => exact (tended_issueOpen kind name version h).done
  | storeRequest txnId opensCursor => exact (held_of_quiet (quiet_storeRequest _ _) h).done
  | transaction connId write scope =>
      exact (held_of_untouched (untouched_transaction connId write scope) h).done
  | close connId => exact (held_of_untouched (untouched_close connId) h).done
  | navigate cursorId => exact (held_of_quiet (quiet_navigate cursorId) h).done
  | cursorWrite cursorId => exact (held_of_quiet (quiet_cursorWrite cursorId) h).done
  | commit txnId => exact (held_of_quiet (quiet_commit txnId) h).done
  | abort txnId => exact (tended_abort txnId h).done

theorem tended_processOpens (h : Tended s) (hright : Rightly s) :
    Safe openContract (body .processOpens) (fun _ => Tended) s := by
  refine Safe.seq (safe_nextOpenStep h hright) fun step s₁ hright₁ hscanned => ?_
  cases step with
  | none => exact .pure hright₁ hscanned
  | some step =>
      exact Safe.seq (tended_perform step hscanned hright₁) fun _ s₂ hright₂ h₂ => .pure hright₂ h₂

theorem tended_new (versions : String → UInt64) (autoPump : Bool) :
    Tended (State.new versions autoPump) where
  listed := ⟨nofun, List.nodup_nil, .nil, nofun, nofun⟩
  aligned := ⟨fun _ => rfl, fun _ _ h => nomatch h⟩

theorem openings_keep :
    Keeps driver openContract (fun _ => True) fun _ s => Tended s where
  rest_later _ _ _ _ := trivial
  main _ _ _ hs _ := hs
  api proc s hproc hright hs := by
    have hkept : Kept openContract s (body proc) s := by
      apply tended_body proc _ (.refl hright hs)
      rintro rfl
      exact absurd hproc nofun
    obtain ⟨p, hp⟩ := body_method hproc
    change Safe openContract (body proc) _ s
    rw [hp] at hkept ⊢
    exact Safe.returns hkept
  phase proc s hright hs := by
    have hends : Safe openContract (body proc) (fun _ => Tended) s := by
      by_cases hopens : proc = .processOpens
      · subst hopens
        exact tended_processOpens hs hright
      · exact Kept.tended (tended_body proc hopens (.refl hright hs))
    refine hends.mono fun o s' _ hs' => ?_
    cases o
    · exact ⟨hs', trivial⟩
    · exact hs'

/-- The registered opens of every database, those in an upgrade apart, are in order the requests
of its queue. -/
def OpenQueuesInStep (s : State) : Prop :=
  ∀ name, requests s.openQueues name = expected s.opens name

/-- **The driver and the open queues stay in step.** In every reachable state the answers of the
queues were about the opens that were looked at; and wherever handlers or the outside have
control, or a phase ends, the queues hold the registered opens in order. -/
theorem openQueues_in_step (versions : String → UInt64) (autoPump : Bool)
    {c : Config State Reply Proc} (h : Reaches driver (State.new versions autoPump) c) :
    Rightly c.state ∧ (c.Open ∨ c.AtEnd → OpenQueuesInStep c.state) := by
  have hgood := openings_keep.reaches (fun _ _ hmem => absurd hmem List.not_mem_nil)
    (tended_new versions autoPump) trivial h
  refine ⟨hgood.always, ?_⟩
  rintro (hopen | hend)
  · exact (hgood.invariant hopen).aligned.requests
  · rcases hgood.ended hend with ⟨hs, -⟩ | ⟨_, hs⟩
    · exact hs.aligned.requests
    · exact hs.aligned.requests

/-- While another database is upgraded an open waits in the queue of the first. -/
theorem openQueues_in_step_session : ∃ c, Reaches driver (State.new (fun _ => 0) true) c ∧
    requests c.state.openQueues "d" = [⟨.open 2, 7⟩] ∧ Rightly c.state ∧
    OpenQueuesInStep c.state := by
  obtain ⟨w⟩ := session
  obtain ⟨hright, hstep⟩ := openQueues_in_step _ _ w.reaches_upgrading
  have hqueues := hstep (.inl nofun)
  refine ⟨_, w.reaches_upgrading, ?_, hright, hqueues⟩
  rw [hqueues "d", w.upgrading_opens]
  decide

end BoaIdb.Pump
