import BoaIdb.Engine.Error
import BoaIdb.Lib.Run

/-!
The queue of the open and delete requests of one database, and its protocol.
-/

namespace BoaIdb

open Runs

namespace OpenQueue

inductive OpenRequestType
  /-- Version 0 asks for any version. -/
  | open (requestedVersion : UInt64)
  | delete
  deriving DecidableEq, Repr

structure OpenRequest where
  requestType : OpenRequestType
  requestId : UInt64
  deriving DecidableEq, Repr

inductive OpenQueueState
  | idle
  | waitingForConnections
  | runningUpgrade
  | runningDelete
  deriving DecidableEq, Repr

inductive OpenQueueAction
  | openConnection (requestId version : UInt64)
  | failOpen (requestId : UInt64) (error : IdbError)
  | sendBlocked (requestId : UInt64)
  | startUpgrade (requestId oldVersion newVersion : UInt64)
  | startDelete (requestId : UInt64)
  deriving DecidableEq, Repr

end OpenQueue

open OpenQueue in
structure OpenQueue where
  /-- 0 if the database does not exist yet. -/
  currentVersion : UInt64
  queue : List OpenRequest
  state : OpenQueueState
  blockingConnections : UInt32
  deriving DecidableEq, Repr

namespace OpenQueue

def new (currentVersion : UInt64) : OpenQueue := ⟨currentVersion, [], .idle, 0⟩

def enqueueOpen (q : OpenQueue) (requestId requestedVersion : UInt64) : OpenQueue :=
  { q with queue := q.queue ++ [⟨.open requestedVersion, requestId⟩] }

def enqueueDelete (q : OpenQueue) (requestId : UInt64) : OpenQueue :=
  { q with queue := q.queue ++ [⟨.delete, requestId⟩] }

def setBlockingConnections (q : OpenQueue) (count : UInt32) : OpenQueue :=
  { q with blockingConnections := count }

/-- `saturating_sub(1)`. -/
def onConnectionClosed (q : OpenQueue) : OpenQueue :=
  { q with
    blockingConnections := if q.blockingConnections = 0 then 0 else q.blockingConnections - 1 }

/-- The version that an open request asks for. -/
def targetVersion (q : OpenQueue) (requestedVersion : UInt64) : UInt64 :=
  if requestedVersion = 0 then
    if q.currentVersion = 0 then 1 else q.currentVersion
  else requestedVersion

/-- Processes the next request; no action if there is none or the queue is not idle. -/
def processNext (q : OpenQueue) : OpenQueue × Option OpenQueueAction :=
  if q.state ≠ .idle then (q, none)
  else
    match q.queue with
    | [] => (q, none)
    | request :: rest =>
        match request.requestType with
        | .open requestedVersion =>
            let targetVersion := q.targetVersion requestedVersion
            if targetVersion < q.currentVersion then
              ({ q with queue := rest },
                some (.failOpen request.requestId (.version
                  s!"Requested version {targetVersion} is less than current version {q.currentVersion}")))
            else if targetVersion = q.currentVersion then
              ({ q with queue := rest },
                some (.openConnection request.requestId q.currentVersion))
            else if q.blockingConnections > 0 then
              ({ q with state := .waitingForConnections }, some (.sendBlocked request.requestId))
            else
              ({ q with state := .runningUpgrade, queue := rest },
                some (.startUpgrade request.requestId q.currentVersion targetVersion))
        | .delete =>
            if q.blockingConnections > 0 then
              ({ q with state := .waitingForConnections }, some (.sendBlocked request.requestId))
            else
              ({ q with state := .runningDelete, queue := rest },
                some (.startDelete request.requestId))

/-- Called when all blocking connections have closed. -/
def onAllConnectionsClosed (q : OpenQueue) : OpenQueue × Option OpenQueueAction :=
  if q.state ≠ .waitingForConnections then (q, none)
  else if q.blockingConnections > 0 then (q, none)
  else processNext { q with state := .idle }

def onUpgradeComplete (q : OpenQueue) (newVersion : UInt64) : OpenQueue :=
  { q with currentVersion := newVersion, state := .idle }

def onDeleteComplete (q : OpenQueue) : OpenQueue :=
  { q with currentVersion := 0, state := .idle }

def onOperationFailed (q : OpenQueue) : OpenQueue :=
  { q with state := .idle }

/-! ### What one call does -/

def OpenQueueAction.requestId : OpenQueueAction → UInt64
  | openConnection id _ | failOpen id _ | sendBlocked id | startUpgrade id _ _ | startDelete id =>
      id

/-- The request is settled: all actions but the notice that it is blocked. -/
def OpenQueueAction.terminal : OpenQueueAction → Bool
  | sendBlocked _ => false
  | _ => true

/-- An operation in progress. -/
inductive Operation
  | upgrade (requestId : UInt64)
  | delete (requestId : UInt64)
  deriving DecidableEq, Repr

/-- The operation that an action starts. -/
def OpenQueueAction.starts : OpenQueueAction → List Operation
  | startUpgrade id _ _ => [.upgrade id]
  | startDelete id => [.delete id]
  | _ => []

/-- The state tells which operation is in progress. -/
def InProgress : OpenQueueState → List Operation → Prop
  | .idle, running | .waitingForConnections, running => running = []
  | .runningUpgrade, running => ∃ id, running = [.upgrade id]
  | .runningDelete, running => ∃ id, running = [.delete id]

/-- What the head of an idle queue gets. -/
structure Answers (q : OpenQueue) (request : OpenRequest) (a : OpenQueueAction) : Prop where
  id : a.requestId = request.requestId
  upgrade : ∀ id old new, a = .startUpgrade id old new →
    q.blockingConnections = 0 ∧ old = q.currentVersion ∧ q.currentVersion < new
  delete : ∀ id, a = .startDelete id → q.blockingConnections = 0
  terminal : q.blockingConnections = 0 → a.terminal

theorem none_blocking {n : UInt32} (h : ¬n > 0) : n = 0 := by
  grind

theorem version_lt {target current : UInt64} (hlt : ¬target < current) (hne : ¬target = current) :
    current < target :=
  lt_of_le_of_ne (not_lt.mp hlt) fun h => hne h.symm

/-- An idle queue answers its head, and the head leaves unless it is blocked. -/
theorem processNext_cons {q : OpenQueue} {request : OpenRequest} {rest : List OpenRequest}
    (hidle : q.state = .idle) (hqueue : q.queue = request :: rest) :
    ∃ a, q.processNext.2 = some a ∧ Answers q request a ∧
      q.processNext.1.currentVersion = q.currentVersion ∧
      InProgress q.processNext.1.state a.starts ∧
      (q.processNext.1.state = .waitingForConnections → q.processNext.1.queue ≠ []) ∧
      q.processNext.1.queue = if a.terminal then rest else q.queue := by
  unfold processNext
  rw [if_neg (not_not.mpr hidle), hqueue]
  dsimp only
  cases request.requestType with
  | «open» requestedVersion =>
      dsimp only
      split
      · refine ⟨_, rfl, ⟨rfl, nofun, nofun, fun _ => rfl⟩, rfl, ?_, ?_, rfl⟩
        · rw [hidle]
          rfl
        · rw [hidle]
          exact nofun
      · next hlt =>
          split
          · refine ⟨_, rfl, ⟨rfl, nofun, nofun, fun _ => rfl⟩, rfl, ?_, ?_, rfl⟩
            · rw [hidle]
              rfl
            · rw [hidle]
              exact nofun
          · next hne =>
              split
              · next hblocked =>
                  refine ⟨_, rfl, ⟨rfl, nofun, nofun, fun hnone => ?_⟩, rfl, rfl, nofun, rfl⟩
                  rw [hnone] at hblocked
                  cases hblocked
              · next hfree =>
                  refine ⟨_, rfl, ⟨rfl, ?_, nofun, fun _ => rfl⟩, rfl, ⟨_, rfl⟩, nofun, rfl⟩
                  rintro id old new ⟨⟩
                  exact ⟨none_blocking hfree, rfl, version_lt hlt hne⟩
  | delete =>
      dsimp only
      split
      · next hblocked =>
          refine ⟨_, rfl, ⟨rfl, nofun, nofun, fun hnone => ?_⟩, rfl, rfl, nofun, rfl⟩
          rw [hnone] at hblocked
          cases hblocked
      · next hfree =>
          exact ⟨_, rfl, ⟨rfl, nofun, fun _ _ => none_blocking hfree, fun _ => rfl⟩, rfl, ⟨_, rfl⟩,
            nofun, rfl⟩

/-- A queue that is busy or empty stays as it is. -/
theorem processNext_none {q : OpenQueue} (h : q.state ≠ .idle ∨ q.queue = []) :
    q.processNext = (q, none) := by
  unfold processNext
  by_cases hidle : q.state = .idle
  · rw [if_neg (not_not.mpr hidle), h.resolve_left (not_not.mpr hidle)]
  · rw [if_pos hidle]

/-- Processing a request leaves the version and the connections alone. -/
theorem processNext_keeps (q : OpenQueue) :
    q.processNext.1.currentVersion = q.currentVersion ∧
      q.processNext.1.blockingConnections = q.blockingConnections := by
  unfold processNext
  by_cases hidle : q.state ≠ .idle
  · rw [if_pos hidle]
    exact ⟨rfl, rfl⟩
  · rw [if_neg hidle]
    cases q.queue with
    | nil => exact ⟨rfl, rfl⟩
    | cons request rest =>
        dsimp only
        repeat' split
        all_goals exact ⟨rfl, rfl⟩

theorem onAllConnectionsClosed_none {q : OpenQueue}
    (h : q.state ≠ .waitingForConnections ∨ q.blockingConnections > 0) :
    q.onAllConnectionsClosed = (q, none) := by
  unfold onAllConnectionsClosed
  by_cases hwaiting : q.state = .waitingForConnections
  · rw [if_neg (not_not.mpr hwaiting), if_pos (h.resolve_left (not_not.mpr hwaiting))]
  · rw [if_pos hwaiting]

theorem onAllConnectionsClosed_eq {q : OpenQueue} (hwaiting : q.state = .waitingForConnections)
    (hfree : ¬q.blockingConnections > 0) : q.onAllConnectionsClosed =
      processNext ⟨q.currentVersion, q.queue, .idle, q.blockingConnections⟩ := by
  unfold onAllConnectionsClosed
  rw [if_neg (not_not.mpr hwaiting), if_neg hfree]

/-! ### The protocol -/

/-- A call of the queue. A completion is delivered for one operation. -/
inductive Call
  | enqueueOpen (requestId requestedVersion : UInt64)
  | enqueueDelete (requestId : UInt64)
  | setBlockingConnections (count : UInt32)
  | onConnectionClosed
  | processNext
  | onAllConnectionsClosed
  | onUpgradeComplete (requestId newVersion : UInt64)
  | onDeleteComplete (requestId : UInt64)
  | onOperationFailed (op : Operation)

/-- The queue with its history: the requests that came and those that were settled, in order,
the operations that were started and have not ended, the blocking connections that remain by
what was last reported, and the version by what was last completed. -/
structure Traffic where
  queue : OpenQueue
  enqueued : List UInt64
  settled : List UInt64
  running : List Operation
  blocking : ℕ
  version : UInt64

namespace Traffic

def new (currentVersion : UInt64) : Traffic := ⟨.new currentVersion, [], [], [], 0, currentVersion⟩

/-- What a call changes in the queue, and the action it returns. -/
def call (t : Traffic) : Call → OpenQueue × Option OpenQueueAction
  | .enqueueOpen requestId requestedVersion =>
      (t.queue.enqueueOpen requestId requestedVersion, none)
  | .enqueueDelete requestId => (t.queue.enqueueDelete requestId, none)
  | .setBlockingConnections count => (t.queue.setBlockingConnections count, none)
  | .onConnectionClosed => (t.queue.onConnectionClosed, none)
  | .processNext => t.queue.processNext
  | .onAllConnectionsClosed => t.queue.onAllConnectionsClosed
  | .onUpgradeComplete _ newVersion => (t.queue.onUpgradeComplete newVersion, none)
  | .onDeleteComplete _ => (t.queue.onDeleteComplete, none)
  | .onOperationFailed _ => (t.queue.onOperationFailed, none)

/-- The request that a call brings. -/
def brings : Call → List UInt64
  | .enqueueOpen requestId _ | .enqueueDelete requestId => [requestId]
  | _ => []

/-- The operation that a call ends. -/
def ends : Call → List Operation
  | .onUpgradeComplete requestId _ => [.upgrade requestId]
  | .onDeleteComplete requestId => [.delete requestId]
  | .onOperationFailed op => [op]
  | _ => []

/-- The requests that an action settles. -/
def settles (a : Option OpenQueueAction) : List UInt64 :=
  ((a.filter OpenQueueAction.terminal).map OpenQueueAction.requestId).toList

/-- The blocking connections that remain behind a call: a report replaces what was reported
before, and a connection that closes is one less. -/
def remain (blocking : ℕ) : Call → ℕ
  | .setBlockingConnections count => count.toNat
  | .onConnectionClosed => blocking - 1
  | _ => blocking

/-- The version behind a call: that of an upgrade that completes, and 0 behind a delete. -/
def versionBehind (version : UInt64) : Call → UInt64
  | .onUpgradeComplete _ newVersion => newVersion
  | .onDeleteComplete _ => 0
  | _ => version

/-- The state behind a call. -/
def after (t : Traffic) (c : Call) : Traffic where
  queue := (t.call c).1
  enqueued := t.enqueued ++ brings c
  settled := t.settled ++ settles (t.call c).2
  running := t.running.diff (ends c) ++ (t.call c).2.elim [] OpenQueueAction.starts
  blocking := remain t.blocking c
  version := versionBehind t.version c

/-- Any call at any time, but a completion only for an operation in progress. -/
inductive Step : Traffic → Call → Traffic → Prop
  | call (t : Traffic) (c : Call) (h : ends c ⊆ t.running) : Step t c (t.after c)

/-- Requests are settled in the order in which they came, and each exactly once: those that
came are the settled ones, followed by those that wait. -/
def InOrder (t : Traffic) : Prop :=
  t.enqueued = t.settled ++ t.queue.queue.map OpenRequest.requestId

/-- The queue counts the connections that were reported, and is at the version that was
completed. -/
structure Told (t : Traffic) : Prop where
  blocking : t.queue.blockingConnections.toNat = t.blocking
  version : t.queue.currentVersion = t.version

/-- An upgrade or a delete starts only beside no connection and no other operation, an upgrade
to a greater version, and the version changes only when one of them completes. -/
structure Proper (t : Traffic) (c : Call) : Prop where
  upgrade : ∀ id old new, (t.call c).2 = some (.startUpgrade id old new) →
    t.blocking = 0 ∧ t.running = [] ∧ old = t.version ∧ t.version < new
  delete : ∀ id, (t.call c).2 = some (.startDelete id) → t.blocking = 0 ∧ t.running = []
  version : (t.call c).1.currentVersion ≠ t.queue.currentVersion →
    (∃ id v, c = .onUpgradeComplete id v) ∨ ∃ id, c = .onDeleteComplete id

/-- No request is stuck: beside no connection and no operation, its queue settles the head. -/
def Responsive (t : Traffic) : Prop :=
  t.running = [] → t.blocking = 0 → t.queue.queue ≠ [] →
    ∃ c a, (c = .processNext ∨ c = .onAllConnectionsClosed) ∧ (t.call c).2 = some a ∧ a.terminal

structure Inv (t : Traffic) : Prop where
  inOrder : t.InOrder
  inProgress : InProgress t.queue.state t.running
  waiting : t.queue.state = .waitingForConnections → t.queue.queue ≠ []
  told : t.Told

variable {t t' : Traffic} {c : Call} {version : UInt64}

theorem inv_new : (new version).Inv := ⟨rfl, rfl, nofun, rfl, rfl⟩

theorem blockingConnections_eq_zero_iff (h : t.Told) :
    t.queue.blockingConnections = 0 ↔ t.blocking = 0 := by
  rw [← h.blocking]
  exact ⟨fun hfree => by rw [hfree]; rfl, fun hzero => UInt32.toNat_inj.mp hzero⟩

theorem toNat_onConnectionClosed (q : OpenQueue) :
    q.onConnectionClosed.blockingConnections.toNat = q.blockingConnections.toNat - 1 := by
  rw [onConnectionClosed]
  split
  · next hnone =>
      rw [hnone]
      rfl
  · next hsome =>
      have hpos : 1 ≤ q.blockingConnections := by grind
      exact UInt32.toNat_sub_of_le _ _ hpos

/-- The count and the version behind a call, from what the call does to the queue. -/
theorem told_after (h : t.Told) (hcount : (t.call c).1.blockingConnections.toNat =
      remain t.queue.blockingConnections.toNat c)
    (hversion : (t.call c).1.currentVersion = versionBehind t.queue.currentVersion c) :
    (t.after c).Told := by
  refine ⟨hcount.trans ?_, hversion.trans ?_⟩
  · rw [h.blocking]
    rfl
  · rw [h.version]
    rfl

/-- A call without an action that keeps the version is proper. -/
theorem proper_of_none (hnone : (t.call c).2 = none)
    (hversion : (t.call c).1.currentVersion = t.queue.currentVersion) : t.Proper c := by
  refine ⟨fun id old new h => ?_, fun id h => ?_, fun hne => absurd hversion hne⟩
  · rw [hnone] at h
    cases h
  · rw [hnone] at h
    cases h

/-- The queue is processed when it is idle, or behind a wait that is over. -/
theorem Inv.process (h : t.Inv) {q : OpenQueue} (hidle : q.state = .idle)
    (hq : q = ⟨t.queue.currentVersion, t.queue.queue, .idle, t.queue.blockingConnections⟩)
    (hbrings : brings c = []) (hends : ends c = []) (hremain : remain t.blocking c = t.blocking)
    (hversion : versionBehind t.version c = t.version) (hrunning : t.running = [])
    (hcall : t.call c = q.processNext) :
    (t.after c).Inv ∧ t.Proper c ∧
      (t.blocking = 0 → t.queue.queue ≠ [] → ∃ a, (t.call c).2 = some a ∧ a.terminal) := by
  have htold : (t.after c).Told := by
    refine ⟨?_, ?_⟩
    · show (t.call c).1.blockingConnections.toNat = remain t.blocking c
      rw [hcall, (processNext_keeps q).2, hq, hremain]
      exact h.told.blocking
    · show (t.call c).1.currentVersion = versionBehind t.version c
      rw [hcall, (processNext_keeps q).1, hq, hversion]
      exact h.told.version
  have henqueued : (t.after c).enqueued = t.settled ++ q.queue.map OpenRequest.requestId := by
    show t.enqueued ++ brings c = _
    rw [hbrings, List.append_nil, h.inOrder, hq]
  have hstarted : (t.after c).running = q.processNext.2.elim [] OpenQueueAction.starts := by
    show t.running.diff (ends c) ++ (t.call c).2.elim _ _ = _
    rw [hends, hrunning, hcall]
    rfl
  -- an empty queue is left alone, otherwise one action answers the request in front
  cases hqueue : q.queue with
  | nil =>
      have hnone := processNext_none (.inr hqueue)
      rw [hnone] at hcall hstarted
      have hsettled : (t.after c).settled = t.settled := by
        show t.settled ++ settles (t.call c).2 = _
        rw [hcall]
        exact List.append_nil _
      have hbehind : (t.after c).queue = q := congrArg Prod.fst hcall
      refine ⟨⟨?_, ?_, ?_, htold⟩, proper_of_none (congrArg Prod.snd hcall) ?_, fun _ hne => ?_⟩
      · rw [InOrder, henqueued, hsettled, hbehind]
      · rw [hbehind, hidle, hstarted]
        rfl
      · rw [hbehind, hidle]
        exact nofun
      · rw [hcall, hq]
      · rw [hq] at hqueue
        exact absurd hqueue hne
  | cons request rest =>
      obtain ⟨a, haction, hanswers, hsame, hstarts, hwaiting, hleft⟩ :=
        processNext_cons hidle hqueue
      have hbehind : (t.after c).queue = q.processNext.1 := congrArg Prod.fst hcall
      have hsome : (t.call c).2 = some a := (congrArg Prod.snd hcall).trans haction
      refine ⟨⟨?_, ?_, ?_, htold⟩, ⟨?_, ?_, ?_⟩, fun hfree _ => ⟨a, hsome, hanswers.terminal ?_⟩⟩
      · show (t.after c).enqueued = t.settled ++ settles (t.call c).2 ++ _
        rw [henqueued, hbehind, hleft, hqueue, hsome]
        cases hterminal : a.terminal with
        | true =>
            have hsettles : settles (some a) = [request.requestId] := by
              rw [settles, Option.filter_some, hterminal, ← hanswers.id]
              rfl
            rw [hsettles]
            simp
        | false =>
            have hsettles : settles (some a) = [] := by
              rw [settles, Option.filter_some, hterminal]
              rfl
            rw [hsettles]
            simp
      · rw [hbehind, hstarted, haction]
        exact hstarts
      · rw [hbehind]
        exact hwaiting
      · intro id old new hupgrade
        obtain ⟨hfree, hold, hnew⟩ := hanswers.upgrade id old new
          (Option.some.inj (hsome.symm.trans hupgrade))
        rw [hq] at hfree hold hnew
        rw [← h.told.version]
        exact ⟨(blockingConnections_eq_zero_iff h.told).mp hfree, hrunning, hold, hnew⟩
      · intro id hdelete
        have hfree := hanswers.delete id (Option.some.inj (hsome.symm.trans hdelete))
        rw [hq] at hfree
        exact ⟨(blockingConnections_eq_zero_iff h.told).mp hfree, hrunning⟩
      · intro hne
        refine absurd ?_ hne
        rw [hcall, hsame, hq]
      · rw [hq]
        exact (blockingConnections_eq_zero_iff h.told).mpr hfree

/-- A call that brings a request, or changes the number of connections. -/
theorem Inv.quiet (h : t.Inv) (hends : ends c = []) (hnone : (t.call c).2 = none)
    (hstate : (t.call c).1.state = t.queue.state)
    (hversion : (t.call c).1.currentVersion = t.queue.currentVersion)
    (hqueue : (t.call c).1.queue.map OpenRequest.requestId =
      t.queue.queue.map OpenRequest.requestId ++ brings c) (htold : (t.after c).Told) :
    (t.after c).Inv ∧ t.Proper c := by
  refine ⟨⟨?_, ?_, fun hwaiting hempty => ?_, htold⟩, proper_of_none hnone hversion⟩
  · show t.enqueued ++ brings c = t.settled ++ settles (t.call c).2 ++ (t.call c).1.queue.map _
    rw [hnone, hqueue, h.inOrder, List.append_assoc, List.append_assoc]
    rfl
  · show InProgress (t.call c).1.state (t.running.diff (ends c) ++ (t.call c).2.elim _ _)
    rw [hstate, hends, hnone]
    simpa using h.inProgress
  · refine h.waiting (hstate.symm.trans hwaiting)
      ((List.map_eq_nil_iff (f := OpenRequest.requestId)).mp ?_)
    have hall : (t.call c).1.queue.map OpenRequest.requestId = [] := by
      rw [show (t.call c).1.queue = [] from hempty]
      rfl
    rw [hqueue] at hall
    exact (List.append_eq_nil_iff.mp hall).1

/-- The end of the operation in progress. -/
theorem Inv.complete (h : t.Inv) {op : Operation} (hends : ends c = [op]) (hop : op ∈ t.running)
    (hbrings : brings c = []) (hnone : (t.call c).2 = none) (hidle : (t.call c).1.state = .idle)
    (hqueue : (t.call c).1.queue = t.queue.queue) (htold : (t.after c).Told) :
    (t.after c).Inv := by
  have hsingle : t.running = [op] := by
    have hprogress := h.inProgress
    revert hprogress
    cases t.queue.state with
    | idle | waitingForConnections =>
        intro hempty
        rw [show t.running = [] from hempty] at hop
        cases hop
    | runningUpgrade | runningDelete =>
        rintro ⟨id, hrunning⟩
        rw [hrunning] at hop ⊢
        rw [List.mem_singleton.mp hop]
  refine ⟨?_, ?_, ?_, htold⟩
  · show t.enqueued ++ brings c = t.settled ++ settles (t.call c).2 ++ (t.call c).1.queue.map _
    rw [hnone, hqueue, hbrings, h.inOrder]
    simp [settles]
  · show InProgress (t.call c).1.state (t.running.diff (ends c) ++ (t.call c).2.elim _ _)
    rw [hidle, hends, hnone, hsingle]
    show [op].diff [op] ++ [] = []
    simp
  · show (t.call c).1.state = _ → _
    rw [hidle]
    exact nofun

/-- A call that does nothing. -/
theorem Inv.unchanged (h : t.Inv) (hbrings : brings c = []) (hends : ends c = [])
    (hremain : remain t.blocking c = t.blocking) (hversion : versionBehind t.version c = t.version)
    (hcall : t.call c = (t.queue, none)) : (t.after c).Inv ∧ t.Proper c := by
  have htold : (t.after c).Told := by
    refine ⟨?_, ?_⟩
    · show (t.call c).1.blockingConnections.toNat = remain t.blocking c
      rw [hcall, hremain]
      exact h.told.blocking
    · show (t.call c).1.currentVersion = versionBehind t.version c
      rw [hcall, hversion]
      exact h.told.version
  refine h.quiet hends ?_ ?_ ?_ ?_ htold
  all_goals rw [hcall]
  rw [hbrings, List.append_nil]

theorem Inv.processNext (h : t.Inv) : (t.after .processNext).Inv ∧ t.Proper .processNext := by
  by_cases hidle : t.queue.state = .idle
  · have hrunning : t.running = [] := by
      have hprogress := h.inProgress
      rw [hidle] at hprogress
      exact hprogress
    have hprocess := h.process (c := .processNext) hidle (by rw [← hidle]) rfl rfl rfl rfl hrunning
      rfl
    exact ⟨hprocess.1, hprocess.2.1⟩
  · exact h.unchanged rfl rfl rfl rfl (processNext_none (.inl hidle))

theorem Inv.onAllConnectionsClosed (h : t.Inv) :
    (t.after .onAllConnectionsClosed).Inv ∧ t.Proper .onAllConnectionsClosed := by
  by_cases hwaiting : t.queue.state = .waitingForConnections
  · by_cases hblocked : t.queue.blockingConnections > 0
    · exact h.unchanged rfl rfl rfl rfl (onAllConnectionsClosed_none (.inr hblocked))
    · have hrunning : t.running = [] := by
        have hprogress := h.inProgress
        rw [hwaiting] at hprogress
        exact hprogress
      have hprocess := h.process (c := .onAllConnectionsClosed) rfl rfl rfl rfl rfl rfl hrunning
        (onAllConnectionsClosed_eq hwaiting hblocked)
      exact ⟨hprocess.1, hprocess.2.1⟩
  · exact h.unchanged rfl rfl rfl rfl (onAllConnectionsClosed_none (.inl hwaiting))

theorem Inv.step (h : t.Inv) (hstep : Step t c t') : t'.Inv ∧ t.Proper c := by
  cases hstep with
  | call hends =>
      cases c with
      | enqueueOpen id version =>
          exact h.quiet rfl rfl rfl rfl List.map_append (told_after h.told rfl rfl)
      | enqueueDelete id =>
          exact h.quiet rfl rfl rfl rfl List.map_append (told_after h.told rfl rfl)
      | setBlockingConnections count =>
          exact h.quiet rfl rfl rfl rfl (List.append_nil _).symm (told_after h.told rfl rfl)
      | onConnectionClosed =>
          refine h.quiet rfl rfl rfl rfl (List.append_nil _).symm (told_after h.told ?_ rfl)
          exact toNat_onConnectionClosed t.queue
      | processNext => exact h.processNext
      | onAllConnectionsClosed => exact h.onAllConnectionsClosed
      | onUpgradeComplete id version =>
          refine ⟨h.complete rfl (hends List.mem_cons_self) rfl rfl rfl rfl
            (told_after h.told rfl rfl), nofun, nofun, ?_⟩
          exact fun _ => .inl ⟨id, version, rfl⟩
      | onDeleteComplete id =>
          refine ⟨h.complete rfl (hends List.mem_cons_self) rfl rfl rfl rfl
            (told_after h.told rfl rfl), nofun, nofun, ?_⟩
          exact fun _ => .inr ⟨id, rfl⟩
      | onOperationFailed op =>
          exact ⟨h.complete rfl (hends List.mem_cons_self) rfl rfl rfl rfl
            (told_after h.told rfl rfl), proper_of_none rfl rfl⟩

theorem Inv.single (h : t.Inv) : t.running.length ≤ 1 := by
  have hprogress := h.inProgress
  revert hprogress
  cases t.queue.state with
  | idle | waitingForConnections =>
      intro hempty
      rw [show t.running = [] from hempty]
      exact Nat.zero_le 1
  | runningUpgrade | runningDelete =>
      rintro ⟨id, hrunning⟩
      rw [hrunning]
      exact le_rfl

theorem Inv.responsive (h : t.Inv) : t.Responsive := by
  intro hrunning hfree hpending
  have hprogress := h.inProgress
  rw [hrunning] at hprogress
  cases hstate : t.queue.state with
  | idle =>
      obtain ⟨a, ha, hterminal⟩ := (h.process (c := .processNext) hstate (by rw [← hstate]) rfl rfl
        rfl rfl hrunning rfl).2.2 hfree hpending
      exact ⟨.processNext, a, .inl rfl, ha, hterminal⟩
  | waitingForConnections =>
      have hnone : ¬t.queue.blockingConnections > 0 := by
        rw [(blockingConnections_eq_zero_iff h.told).mpr hfree]
        exact lt_irrefl 0
      obtain ⟨a, ha, hterminal⟩ := (h.process (c := .onAllConnectionsClosed) rfl rfl rfl rfl rfl rfl
        hrunning (onAllConnectionsClosed_eq hstate hnone)).2.2 hfree hpending
      exact ⟨.onAllConnectionsClosed, a, .inr rfl, ha, hterminal⟩
  | runningUpgrade | runningDelete =>
      rw [hstate] at hprogress
      obtain ⟨id, hid⟩ := hprogress
      cases hid

end Traffic

open Traffic in
/-- **The open queue keeps its protocol**, in every sequence of calls. -/
theorem openQueue_protocol (version : UInt64) (taken : List (Traffic × Call)) (t : Traffic)
    (h : Run Traffic.Step (Traffic.new version) taken t) :
    t.InOrder ∧ t.running.length ≤ 1 ∧ t.Told ∧ t.Responsive ∧ EachStep Traffic.Proper taken := by
  have hinv : t.Inv := h.invariant inv_new fun hinv hstep => (hinv.step hstep).1
  refine ⟨hinv.inOrder, hinv.single, hinv.told, hinv.responsive, ?_⟩
  clear hinv
  induction h with
  | start => exact eachStep_nil
  | step h hstep ih =>
      have hinv := h.invariant inv_new fun hinv hstep => (hinv.step hstep).1
      exact eachStep_append.mpr ⟨ih, (hinv.step hstep).2⟩

/-- An upgrade that waits for a connection to close, with a delete behind it. -/
def blockedUpgrade : List Call :=
  [.setBlockingConnections 1, .enqueueOpen 1 2, .processNext, .enqueueDelete 2, .onConnectionClosed,
    .onAllConnectionsClosed, .onUpgradeComplete 1 2, .processNext, .onDeleteComplete 2]

theorem run_blockedUpgrade : ∃ taken t, Run Traffic.Step (Traffic.new 1) taken t ∧
    taken.map Prod.snd = blockedUpgrade :=
  ⟨_, _, ((((((((Run.start.step (.call _ _ (by decide))).step (.call _ _ (by decide))).step
    (.call _ _ (by decide))).step (.call _ _ (by decide))).step (.call _ _ (by decide))).step
    (.call _ _ (by decide))).step (.call _ _ (by decide))).step (.call _ _ (by decide))).step
    (.call _ _ (by decide)), rfl⟩

theorem openQueue_protocol_blocked :
    ∃ taken t, taken.map Prod.snd = blockedUpgrade ∧ Run Traffic.Step (Traffic.new 1) taken t ∧
      t.InOrder ∧ t.running.length ≤ 1 ∧ t.Told ∧ t.Responsive ∧ EachStep Traffic.Proper taken := by
  obtain ⟨taken, t, hrun, hcalls⟩ := run_blockedUpgrade
  exact ⟨taken, t, hcalls, hrun, openQueue_protocol 1 taken t hrun⟩

end OpenQueue

end BoaIdb
