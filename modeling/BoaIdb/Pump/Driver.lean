import BoaIdb.Pump.State

/-!
The driver, phase by phase, and the methods that script calls.

Wherever an event is dispatched control goes to its handlers, and they may call any method. A
phase is a loop; one pass of it is one procedure, which says where the turn goes on.
-/

namespace BoaIdb.Pump

open Callbacks OpenQueue Relation

/-! ### Requests and aborts -/

def refreshTxnEpoch (txnId : TxnId) : Prog Unit :=
  .modify fun s => s.editTxn txnId fun handle => { handle with activeEpoch := s.taskEpoch }

/-- Fails a request; true when the `error` event was canceled. -/
def failOp (txnId : TxnId) (requestId : RequestId) (error : IdbError) : Prog Bool := do
  refreshTxnEpoch txnId
  let request ← dispatch (.completed txnId requestId (some error))
  let s ← .read
  if s.registered txnId then
    let txn ← dispatch (.txnError txnId)
    pure (request.prevented || txn.prevented)
  else pure request.prevented

/-- Fails every request still queued on a transaction. -/
def failQueuedRequests (txnId : TxnId) (error : IdbError) : Prog Unit := do
  let s ← .modifyRead fun s =>
    { s with
      ops := fun r => if r ∈ (s.txnQueues txnId).getD [] then none else s.ops r
      txnQueues := Function.update s.txnQueues txnId none }
  .forEach (fun requestId => do let _ ← failOp txnId requestId error)
    ((s.txnQueues txnId).getD [])

/-- Clears the upgrade marker of the database object of an open request. -/
def clearUpgradeTxn (open' : PendingOpen) : Prog Unit :=
  .modify fun s => ((s.results open'.requestId).map fun conn =>
    s.editDbObject conn fun db => { db with upgradeTxnId := none }).getD s

/-- Restores the database object and the request after an aborted upgrade. -/
def resetAbortedUpgradeRequest (open' : PendingOpen) : Prog Unit := do
  if open'.upgradeVersions.isSome then clearUpgradeTxn open'
  .modify fun s => s.clearResult open'.requestId

/-- Fails the open gated by an aborted upgrade transaction. -/
def abortUpgradeOpen (txnId : TxnId) (notifyRequest : Bool) : Prog Unit := do
  let s ← .read
  match s.opens.find? fun o => o.upgradeTxnId = some txnId with
  | none => pure ()
  | some open' => do
      .modify fun s =>
        { (s.editQueue open'.name onOperationFailed) with
          opens := s.opens.eraseP fun o => o.upgradeTxnId = some txnId
          deferredOpenErrors :=
            if notifyRequest then s.deferredOpenErrors ++ [open'] else s.deferredOpenErrors }
      let dbObj := s.results open'.requestId
      clearUpgradeTxn open'
      resetAbortedUpgradeRequest open'
      match dbObj with
      | none => pure ()
      | some conn => do let _ ← dispatch (.dbAbort conn)

/-- `complete` or `abort` at a transaction, while its object is registered. -/
def dispatchEnd (txnId : TxnId) (edit : TxnObject → TxnObject) (e : Event) : Prog Unit := do
  let s ← .read
  if s.registered txnId then
    .modify fun s => s.editTxnObject txnId edit
    let _ ← dispatch e
  .modify fun s => s.unregisterTxn txnId

/-- The flags of a transaction that is over. -/
def TxnObject.over (o : TxnObject) : TxnObject := { o with active := false, finished := true }

/-- Takes the handle out for an abort. -/
def takeAborted (txnId : TxnId) : Prog (Option TxnHandle) := do
  let s ← .modifyRead fun s =>
    { (s.setTxn txnId none) with
      trace := s.trace ++ if (s.txns txnId).isSome then
        [.aborting txnId ((s.txnQueues txnId).getD [])] else [] }
  pure (s.txns txnId)

/-- Aborts a transaction: its backend, its bookkeeping, and the `abort` event. -/
def abortTransaction (txnId : TxnId) (notifyUpgradeOpen : Bool) : Prog Unit := do
  match ← takeAborted txnId with
  | none => pure ()
  | some handle => do
      .modify fun s => s.forget txnId
      failQueuedRequests txnId .abort
      dispatchEnd txnId TxnObject.over (.abort txnId)
      if handle.mode = .versionChange then abortUpgradeOpen txnId notifyUpgradeOpen

/-! ### Opens and deletes -/

inductive OpenStep
  | fireBlocked (open' : PendingOpen)
  | openConnection (open' : PendingOpen) (version : UInt64)
  | failOpen (open' : PendingOpen) (error : IdbError)
  | startUpgrade (open' : PendingOpen) (oldVersion newVersion : UInt64)
  | startDelete (open' : PendingOpen)
  | finishUpgrade (open' : PendingOpen) (txnId : TxnId)

/-- What looking at an open leads to: its queue and itself afterwards, what the queue answered,
and the step to perform. -/
structure Looked where
  queue : OpenQueue
  open' : PendingOpen
  answers : List OpenQueueAction
  step : Option OpenStep

/-- The part for a queue that may be idle. -/
def lookIdle (open' : PendingOpen) (answers : List OpenQueueAction) (queue : OpenQueue) : Looked :=
  if queue.state ≠ .idle then ⟨queue, open', answers, none⟩
  else
    match queue.processNext with
    | (queue, none) => ⟨queue, open', answers, none⟩
    | (queue, some action) =>
        let answers := answers ++ [action]
        match action with
        | .openConnection _ version => ⟨queue, open', answers, some (.openConnection open' version)⟩
        | .failOpen _ error => ⟨queue, open', answers, some (.failOpen open' error)⟩
        | .sendBlocked _ =>
            if open'.blockedFired then ⟨queue, open', answers, none⟩
            else
              let open' := { open' with blockedFired := true }
              ⟨queue, open', answers, some (.fireBlocked open')⟩
        | .startUpgrade _ old new => ⟨queue, open', answers, some (.startUpgrade open' old new)⟩
        | .startDelete _ => ⟨queue, open', answers, some (.startDelete open')⟩

/-- The queue of its database, with the open registered. -/
def registerOpen (open' : PendingOpen) (queue : OpenQueue) : OpenQueue :=
  if open'.queued then queue
  else
    match open'.kind with
    | .open => queue.enqueueOpen open'.requestId open'.version
    | .delete => queue.enqueueDelete open'.requestId

/-- Looks at a pending open that is in no upgrade. -/
def lookAt (open' : PendingOpen) (live : UInt32) (queue : OpenQueue) : Looked :=
  let queue := registerOpen open' (queue.setBlockingConnections live)
  let open' := { open' with queued := true }
  if queue.state = .waitingForConnections ∧ live = 0 then
    match queue.onAllConnectionsClosed with
    | (queue, none) => lookIdle open' [] queue
    | (queue, some action) =>
        match action with
        | .startUpgrade _ old new => ⟨queue, open', [action], some (.startUpgrade open' old new)⟩
        | .startDelete _ => ⟨queue, open', [action], some (.startDelete open')⟩
        | _ => lookIdle open' [action] queue
  else lookIdle open' [] queue

/-- The open after a look at it. -/
def PendingOpen.Seen (open' seen : PendingOpen) : Prop :=
  ∃ fired, seen = { open' with
    queued := true
    blockedFired := fired }

/-- The steps that a look leads to, with the open that was looked at. -/
def OpenStep.Of (open' : PendingOpen) : OpenStep → Prop
  | .fireBlocked o | .openConnection o _ | .failOpen o _ | .startUpgrade o _ _
  | .startDelete o => o = open'
  | .finishUpgrade _ _ => False

theorem lookIdle_seen {open' : PendingOpen} (hqueued : open'.queued = true)
    (answers : List OpenQueueAction) (queue : OpenQueue) :
    open'.Seen (lookIdle open' answers queue).open' ∧
      ∀ step, (lookIdle open' answers queue).step = some step →
        step.Of (lookIdle open' answers queue).open' := by
  obtain ⟨kind, name, version, connId, requestId, active, txn, queued, fired, versions⟩ := open'
  obtain rfl : queued = true := hqueued
  have hself : PendingOpen.Seen ⟨kind, name, version, connId, requestId, active, txn, true, fired,
      versions⟩ ⟨kind, name, version, connId, requestId, active, txn, true, fired, versions⟩ :=
    ⟨fired, rfl⟩
  unfold lookIdle
  split
  · exact ⟨hself, by simp⟩
  · split
    · exact ⟨hself, by simp⟩
    · next action _ =>
        dsimp only
        cases action with
        | openConnection id version => exact ⟨hself, fun _ h => Option.some.inj h ▸ rfl⟩
        | failOpen id error => exact ⟨hself, fun _ h => Option.some.inj h ▸ rfl⟩
        | startUpgrade id old new => exact ⟨hself, fun _ h => Option.some.inj h ▸ rfl⟩
        | startDelete id => exact ⟨hself, fun _ h => Option.some.inj h ▸ rfl⟩
        | sendBlocked id =>
            cases fired with
            | false =>
                refine ⟨⟨true, rfl⟩, fun step hstep => ?_⟩
                cases hstep
                rfl
            | true => exact ⟨hself, by simp⟩

/-- A look marks the open as registered, and leads to a step with it at most. -/
theorem lookAt_seen (open' : PendingOpen) (live : UInt32) (queue : OpenQueue) :
    open'.Seen (lookAt open' live queue).open' ∧
      ∀ step, (lookAt open' live queue).step = some step →
        step.Of (lookAt open' live queue).open' := by
  have hself : open'.Seen { open' with queued := true } := ⟨open'.blockedFired, rfl⟩
  have hidle (answers : List OpenQueueAction) (queue : OpenQueue) :
      open'.Seen (lookIdle { open' with queued := true } answers queue).open' ∧
        ∀ step, (lookIdle { open' with queued := true } answers queue).step = some step →
          step.Of (lookIdle { open' with queued := true } answers queue).open' :=
    @lookIdle_seen { open' with queued := true } rfl answers queue
  unfold lookAt
  dsimp only
  split
  · split
    · exact hidle _ _
    · next action _ =>
        cases action with
        | startUpgrade id old new => exact ⟨hself, fun _ h => Option.some.inj h ▸ rfl⟩
        | startDelete id => exact ⟨hself, fun _ h => Option.some.inj h ▸ rfl⟩
        | openConnection id version => exact hidle _ _
        | failOpen id error => exact hidle _ _
        | sendBlocked id => exact hidle _ _
  · exact hidle _ _

/-- The queue of a database; a new one takes the committed version, 0 if it cannot be read. -/
def openQueueOf (name : String) : Prog OpenQueue := do
  let s ← .read
  match s.openQueues name with
  | some queue => pure queue
  | none => do
      let readable ← .choose Bool
      pure (.new (if readable then s.versions name else 0))

/-- What a look changes. -/
def State.look (s : State) (requestId : RequestId) (name : String) (looked : Looked) : State :=
  { (s.editOpen requestId fun _ => looked.open') with
    openQueues := Function.update s.openQueues name (some looked.queue)
    trace := s.trace ++ looked.answers.map (.answered requestId) }

/-- Scans the opens in order, for the first that leads to a step. -/
def scanOpens : List RequestId → Prog (Option OpenStep)
  | [] => pure none
  | requestId :: rest => do
      let s ← .read
      match s.opens.find? fun o => o.requestId = requestId with
      | none => pure none
      | some open' => do
          let queue ← openQueueOf open'.name
          let looked := lookAt open' (s.liveConnectionCount open'.name) queue
          .modify fun s => s.look requestId open'.name looked
          match looked.step with
          | none => scanOpens rest
          | some step => pure (some step)

/-- Drained upgrades finish first. -/
def nextOpenStep : Prog (Option OpenStep) := do
  let s ← .read
  let ids := (s.opens.filter fun o => !o.upgradeActive).map PendingOpen.requestId
  match s.opens.find? PendingOpen.upgradeActive with
  | none => scanOpens ids
  | some open' =>
      match open'.upgradeTxnId with
      | none => pure none
      | some txnId =>
          if s.drained txnId then pure (some (.finishUpgrade open' txnId)) else scanOpens ids

/-- Begins the versionchange transaction; `none` if its backend does not. -/
def startUpgradeTxn (open' : PendingOpen) : Prog (Option TxnId) := do
  let s ← .read
  let begun ← .choose Bool
  if s.nextTxnId + 1 = 0 then pure none
  else if begun then do
    let txnId := s.nextTxnId
    .modify fun s =>
      ((s.allocTxn.enterTxn ⟨txnId, open'.connId, open'.name, .versionChange, [], true, false, true,
        s.taskEpoch, false⟩).registerTxn txnId).setResult open'.requestId open'.connId
          ⟨open'.name, false, some txnId⟩
    pure (some txnId)
  else do
    .modify State.allocTxn
    pure none

/-- Aborts a just-started upgrade whose `upgradeneeded` handler threw. -/
def abortFailedUpgrade (open' : PendingOpen) (txnId : TxnId) : Prog Unit := do
  resetAbortedUpgradeRequest open'
  let _ ← takeAborted txnId
  .modify fun s => ((s.forget txnId).removeOpen open'.requestId).editQueue open'.name
    onOperationFailed
  dispatchEnd txnId TxnObject.over (.abort txnId)
  let _ ← dispatch (.openFailed open'.requestId .abort)

/-- The entry of an open whose upgrade has begun. -/
def PendingOpen.activate (txnId : TxnId) (versions : UInt64 × UInt64) (slot : PendingOpen) :
    PendingOpen :=
  { slot with
    upgradeActive := true
    upgradeTxnId := some txnId
    upgradeVersions := some versions }

/-- The `StartUpgrade` step. -/
def startUpgrade (open' : PendingOpen) (oldVersion newVersion : UInt64) : Prog Unit := do
  record (.startUpgrade open'.requestId open'.name)
  match ← startUpgradeTxn open' with
  | some txnId => do
      .modify fun s => s.editOpen open'.requestId (.activate txnId (oldVersion, newVersion))
      let s ← .read
      let open' := (s.opens.find? fun o => o.requestId = open'.requestId).getD open'
      let reply ← dispatch (.upgradeneeded open'.requestId)
      if reply.threw then
        match open'.upgradeTxnId with
        | none => pure ()
        | some txnId => abortFailedUpgrade open' txnId
  | none => do
      .modify fun s => (s.editQueue open'.name onOperationFailed).removeOpen open'.requestId
      let _ ← dispatch (.openFailed open'.requestId (.unknown ""))

/-- The `StartDelete` step. -/
def startDelete (open' : PendingOpen) : Prog Unit := do
  record (.startDelete open'.requestId open'.name)
  let deleted ← .choose Bool
  if deleted then do
    .modify fun s =>
      { ((s.editQueue open'.name onDeleteComplete).removeOpen open'.requestId) with
        versions := Function.update s.versions open'.name 0 }
    let _ ← dispatch (.deleted open'.requestId)
  else do
    .modify fun s => (s.editQueue open'.name onOperationFailed).removeOpen open'.requestId
    let _ ← dispatch (.openFailed open'.requestId (.unknown ""))

/-- What the commit of an upgrade leaves: with it, its version is the committed one. -/
def State.commitVersion (open' : PendingOpen) (txnId : TxnId) (ok : Bool) (s : State) : State :=
  { s with
    versions := if ok then Function.update s.versions open'.name
      ((open'.upgradeVersions.map Prod.snd).getD (s.versions open'.name)) else s.versions
    trace := s.trace ++ [.commit txnId (some open'.requestId) ok] }

/-- Commits the backend transaction of an upgrade, if the handle is there. -/
def commitUpgrade (open' : PendingOpen) (txnId : TxnId) (handle : Option TxnHandle) :
    Prog Unit := do
  if handle.any TxnHandle.backend then
    let ok ← .choose Bool
    .modify (State.commitVersion open' txnId ok)

/-- The queue of the database goes on, at the version of the upgrade. -/
def State.releaseUpgrade (open' : PendingOpen) (txnId : TxnId) (s : State) : State :=
  match open'.upgradeVersions with
  | some (_, version) =>
      { (s.editQueue open'.name fun queue => queue.onUpgradeComplete version) with
        trace := s.trace ++ [.advanced open'.name txnId version] }
  | none => s.editQueue open'.name onOperationFailed

/-- What follows the commit of an upgrade: its bookkeeping and its events. -/
def upgradeCommitted (open' : PendingOpen) (txnId : TxnId) (connectionClosed : Bool) :
    Prog Unit := do
  .modify fun s => ((s.forget txnId).removeOpen open'.requestId).releaseUpgrade open' txnId
  dispatchEnd txnId TxnObject.over (.complete txnId)
  clearUpgradeTxn open'
  if connectionClosed then do
    .modify fun s => s.clearResult open'.requestId
    let _ ← dispatch (.openFailed open'.requestId .abort)
  else do
    let _ ← dispatch (.opened open'.requestId open'.name open'.connId (some txnId))

/-- The `FinishUpgrade` step: commits a drained upgrade. -/
def finishUpgrade (open' : PendingOpen) (txnId : TxnId) : Prog Unit := do
  let s ← .modifyRead fun s => s.setTxn txnId none
  commitUpgrade open' txnId (s.txns txnId)
  upgradeCommitted open' txnId
    (((s.results open'.requestId).bind s.dbObjects).any DbObject.closed)

/-- The `OpenConnection` step. -/
def openConnection (open' : PendingOpen) : Prog Unit := do
  .modify fun s =>
    ((s.insertConnection open'.connId open'.name).removeOpen open'.requestId).setResult
      open'.requestId open'.connId ⟨open'.name, false, none⟩
  let _ ← dispatch (.opened open'.requestId open'.name open'.connId none)

def perform : OpenStep → Prog Unit
  | .fireBlocked open' => do let _ ← dispatch (.blocked open'.requestId)
  | .openConnection open' _ => openConnection open'
  | .failOpen open' error => do
      .modify fun s => s.removeOpen open'.requestId
      let _ ← dispatch (.openFailed open'.requestId error)
  | .startUpgrade open' old new => startUpgrade open' old new
  | .startDelete open' => startDelete open'
  | .finishUpgrade open' txnId => finishUpgrade open' txnId

/-- Delivers open errors deferred by a synchronous upgrade `abort()` call. -/
def processDeferredOpenErrors : Prog Unit := do
  let s ← .modifyRead fun s => { s with deferredOpenErrors := [] }
  .forEach (fun open' => do let _ ← dispatch (.openFailed open'.requestId .abort))
    s.deferredOpenErrors

/-! ### Starting transactions -/

/-- What opening the database and beginning a transaction leads to. -/
inductive BeginAnswer
  | ok
  | locked
  | failed
  deriving DecidableEq, Repr

/-- Starts one transaction that the scheduler released; whether it got its backend. -/
def startReady (txnId : TxnId) : Prog Bool := do
  let s ← .read
  if (s.txns txnId).any fun t => !t.finished && !t.backend then
    match ← .choose BeginAnswer with
    | .ok => do
        .modify fun s => s.editTxn txnId fun handle => { handle with backend := true }
        pure true
    | .locked => do
        .modify fun s => { s with scheduler := s.scheduler.requeueUnstarted txnId }
        pure false
    | .failed => do
        .modify fun s => s.failStart txnId
        failQueuedRequests txnId (.unknown "Failed to start backend transaction")
        pure false
  else pure false

def startAll : List TxnId → Prog Bool
  | [] => pure false
  | txnId :: rest => do
      let started ← startReady txnId
      let others ← startAll rest
      pure (started || others)

/-- One pass of `start_ready_txns`; whether there is another. -/
def startReadyTxns : Prog Bool := do
  let s ← .modifyRead fun s => { s with scheduler := s.scheduler.pollReady.1 }
  startAll s.scheduler.pollReady.2

/-! ### Requests of transactions -/

inductive TxnWork
  | exec (txnId : TxnId) (requestId : RequestId) (op : PendingOp)
  | failStalled (txnId : TxnId)
  deriving DecidableEq, Repr

/-- What the dequeue step finds, with the ids it has served. -/
structure Dequeued where
  state : State
  served : List TxnId
  work : Option TxnWork

/-- Takes the first request of a started transaction off its queue. -/
def popRequest (txnId : TxnId) (s : State) : State × Option TxnWork :=
  match s.txnQueues txnId with
  | some (requestId :: rest) =>
      let s' := { s with txnQueues := Function.update s.txnQueues txnId (some rest) }
      match s.ops requestId with
      | some op =>
          ({ s' with ops := Function.update s.ops requestId none }, some (.exec txnId requestId op))
      | none => (s', none)
  | _ => (s, none)

/-- The loop over the keys of the queues. -/
def dequeueFrom : List TxnId → List TxnId → State → Dequeued
  | [], served, s => ⟨s, served, none⟩
  | txnId :: rest, served, s =>
      if txnId ∈ served then dequeueFrom rest served s
      else
        match s.txns txnId with
        | none => ⟨s, txnId :: served, some (.failStalled txnId)⟩
        | some t =>
            if !t.finished && t.backend then
              match popRequest txnId s with
              | (s', some work) => ⟨s', txnId :: served, some work⟩
              | (s', none) => dequeueFrom rest (txnId :: served) s'
            else dequeueFrom rest (txnId :: served) s

/-- The dequeue step; a finished handle with a leftover queue can never run. -/
def dequeue (keys served : List TxnId) (s : State) : Dequeued :=
  let d := dequeueFrom keys served s
  match d.work with
  | some _ => d
  | none =>
      { d with
        work := (keys.find? fun id =>
          (d.state.txnQueues id).isSome && (d.state.txns id).any TxnHandle.finished).map
            .failStalled }

/-- The keys of the queues, in an order that a hash map may give. -/
def queueKeys (order : List TxnId) (s : State) : List TxnId :=
  let keys := s.txnIds.filter fun id => (s.txnQueues id).isSome
  (order.dedup.filter (· ∈ keys)) ++ keys.filter (· ∉ order)

/-- How an operation ends: it fails before, during or behind its effect. -/
inductive ExecAnswer
  | ok
  | failedBefore (error : IdbError)
  | failedInside (error : IdbError)
  | failedBehind (error : IdbError)

inductive OpExec
  | outcome
  | cursorOpened (cursorId : CursorId)
  | cursorContinued (cursorId : CursorId)

/-- `execute_op`, as far as it changes the driver. -/
def executeOp (txnId : TxnId) (requestId : RequestId) (op : PendingOp) :
    Prog (Except IdbError OpExec) := do
  let answer ← .choose ExecAnswer
  match op with
  | .plain =>
      match answer with
      | .ok => pure (.ok .outcome)
      | .failedBefore e | .failedInside e | .failedBehind e => pure (.error e)
  | .cursorOp cursorId navigates =>
      match answer with
      | .ok => pure (.ok (if navigates then .cursorContinued cursorId else .outcome))
      | .failedBefore e | .failedInside e | .failedBehind e => pure (.error e)
  | .openCursor => do
      let s ← .read
      match answer with
      | .failedBefore e => pure (.error e)
      | .failedInside e => do
          .modify State.allocCursor
          pure (.error e)
      | .failedBehind e => do
          .modify fun s' => s'.allocCursor.insertCursor s.nextCursorId ⟨txnId, requestId, false⟩
          pure (.error e)
      | .ok => do
          .modify fun s' => s'.allocCursor.insertCursor s.nextCursorId ⟨txnId, requestId, false⟩
          pure (.ok (.cursorOpened s.nextCursorId))

/-- Completes a request as success; a throwing listener aborts the transaction. -/
def completeRequest (txnId : TxnId) (requestId : RequestId) : Prog Unit := do
  refreshTxnEpoch txnId
  let reply ← dispatch (.completed txnId requestId none)
  if reply.threw then abortTransaction txnId true

/-- The cursor of an update or delete is no longer marked as iterated. -/
def releaseCursor (op : PendingOp) (s : State) : State :=
  match op with
  | .cursorOp cursorId _ => s.setCursorPending cursorId false
  | _ => s

/-- `apply_outcome`. What is read is turned into objects, which may run script, such as a setter
on a prototype; what that throws is dropped. -/
def applyOutcome (txnId : TxnId) (requestId : RequestId) : Prog Unit := do
  let _ ← dispatch (.executed txnId requestId)
  pure ()

/-- Executes one operation, completes its request, and runs its handlers. -/
def execute (txnId : TxnId) (requestId : RequestId) (op : PendingOp) : Prog Unit := do
  match ← executeOp txnId requestId op with
  | .ok .outcome => do
      applyOutcome txnId requestId
      .modify (releaseCursor op)
      completeRequest txnId requestId
  | .ok (.cursorOpened _) => completeRequest txnId requestId
  | .ok (.cursorContinued cursorId) => do
      .modify fun s => s.setCursorPending cursorId false
      completeRequest txnId requestId
  | .error e => do
      let prevented ← failOp txnId requestId e
      if !prevented then abortTransaction txnId false

/-- One pass of `process_txn_requests`; the ids served so far, unless it was the last one. -/
def processTxnRequests (served : List TxnId) : Prog (Option (List TxnId)) := do
  let order ← .choose (List TxnId)
  let s ← .modifyRead fun s => (dequeue (queueKeys order s) served s).state
  let d := dequeue (queueKeys order s) served s
  match d.work with
  | none => pure none
  | some (.failStalled txnId) => do
      failQueuedRequests txnId .transactionInactive
      pure (some d.served)
  | some (.exec txnId requestId op) => do
      execute txnId requestId op
      pure (some d.served)

/-! ### Ends of transactions -/

/-- Marks transactions with drained queues inactive. -/
def deactivateIdleTxns (s : State) : State :=
  let idle (id : TxnId) : Bool := (s.txns id).any fun t =>
    !t.finished && t.active && decide (t.mode ≠ .versionChange) && s.drained id
  { s with
    txns := fun id => (s.txns id).map fun t => if idle id then { t with active := false } else t
    txnObjects := fun id => (s.txnObjects id).map fun o =>
      if idle id && o.registered then { o with active := false } else o }

/-- A handle that `finish_txns` may take. -/
def finishable (s : State) (id : TxnId) : Bool :=
  (s.txns id).any fun t => !t.finished && t.backend && decide (t.mode ≠ .versionChange) &&
    (!t.active || t.explicitCommit) && s.drained id

/-- One pass of `finish_txns`: commits the first drained transaction; whether there was one. -/
def finishTxns : Prog Bool := do
  let s ← .read
  match s.txnIds.find? (finishable s) with
  | none => pure false
  | some txnId => do
      .modify fun s => s.setTxn txnId none
      let ok ← .choose Bool
      record (.commit txnId none ok)
      .modify fun s => s.forget txnId
      dispatchEnd txnId (fun o => { o with active := false }) (.complete txnId)
      pure true

/-! ### Methods -/

/-- `IDBFactory.open` and `deleteDatabase`. -/
def issueOpen (kind : OpenKind) (name : String) (version : UInt64) : Prog Unit :=
  .modify fun s =>
    if s.nextRequestId + 1 = 0 ∨ s.nextConnId + 1 = 0 then s
    else
      { s with
        opens := s.opens ++
          [⟨kind, name, version, s.nextConnId, s.nextRequestId, false, none, false, false, none⟩]
        nextRequestId := s.nextRequestId + 1
        nextConnId := s.nextConnId + 1 }

/-- Whether new requests of a transaction are accepted: `active_txn_id`. -/
def State.accepts (s : State) (txnId : TxnId) : Bool :=
  (s.txnObjects txnId).any (fun o => o.active && !o.finished && !o.explicitCommit) &&
    (s.txns txnId).all fun t => t.activeEpoch = s.taskEpoch

/-- `issue_request`. -/
def issueRequest (txnId : TxnId) (op : PendingOp) (s : State) : State :=
  if s.nextRequestId + 1 = 0 then s
  else
    { s with nextRequestId := s.nextRequestId + 1 }.enqueue txnId s.nextRequestId op

/-- A request on a store or an index, behind the conversion of its arguments. -/
def storeRequest (txnId : TxnId) (op : PendingOp) : Prog Unit :=
  .modify fun s => if s.accepts txnId then issueRequest txnId op s else s

/-- `create_txn`; the checks of the scope may refuse it. -/
def createTxn (connId : ConnId) (dbName : String) (mode : TxnMode) (scope : List StoreId) :
    Prog Unit := do
  let valid ← .choose Bool
  .modify fun s =>
    if s.nextTxnId + 1 = 0 then s
    else if valid then
      (s.allocTxn.enterTxn ⟨s.nextTxnId, connId, dbName, mode, scope, false, false, true,
        s.taskEpoch, false⟩).registerTxn s.nextTxnId
    else s.allocTxn

/-- `IDBDatabase.transaction`. The conversion of its arguments may run script. -/
def transaction (connId : ConnId) (write : Bool) (scope : List StoreId) : Prog Unit := do
  let s ← .read
  match s.dbObjects connId with
  | none => pure ()
  | some db =>
      if db.closed then pure ()
      else do
        let reply ← .callOut
        if reply.threw then pure ()
        else do
          let s ← .read
          if (db.upgradeTxnId.bind s.txns).any fun t => !t.finished then pure ()
          else createTxn connId db.name (if write then .readWrite else .readOnly) scope

/-- `IDBDatabase.close`. -/
def close (connId : ConnId) : Prog Unit :=
  .modify fun s =>
    (s.editDbObject connId fun db => { db with closed := true }).closeConnection connId

/-- `continue`, `advance` and `continuePrimaryKey`: the opening request is reused. The conversion
of the arguments runs behind the checks. -/
def navigate (cursorId : CursorId) : Prog Unit := do
  let s ← .read
  match s.cursors cursorId with
  | none => pure ()
  | some view =>
      if (s.txns view.txnId).isNone || view.pending then pure ()
      else do
        let reply ← .callOut
        if reply.threw then pure ()
        else
          .modify fun s =>
            (s.setCursorPending cursorId true).enqueue view.txnId view.requestId
              (.cursorOp cursorId true)

/-- `update` and `delete` of a cursor, each with a request of its own. -/
def cursorWrite (cursorId : CursorId) : Prog Unit := do
  let s ← .read
  match s.cursors cursorId with
  | none => pure ()
  | some view =>
      if (s.txns view.txnId).isNone || view.pending then pure ()
      else do
        let reply ← .callOut
        if reply.threw then pure ()
        else .modify (issueRequest view.txnId (.cursorOp cursorId false))

/-- `IDBTransaction.commit`. -/
def commit (txnId : TxnId) : Prog Unit :=
  .modify fun s =>
    if s.accepts txnId then
      { (s.editTxn txnId fun handle => { handle with explicitCommit := true }) with
        txnObjects := Function.update s.txnObjects txnId
          ((s.txnObjects txnId).map fun o => { o with explicitCommit := true }) }
    else s

/-- `IDBTransaction.abort`. -/
def abort (txnId : TxnId) : Prog Unit := do
  let s ← .read
  if (s.txnObjects txnId).any fun o => o.active && !o.finished && !o.explicitCommit then do
    .modify fun s =>
      { s with
        txnObjects := Function.update s.txnObjects txnId ((s.txnObjects txnId).map TxnObject.over) }
    abortTransaction txnId true

/-- The hook at the end of each task: deactivates unfinished transactions. -/
def endOfTask (s : State) : State :=
  { s with
    txns := fun id => (s.txns id).map fun t => { t with active := false }
    txnObjects := fun id => (s.txnObjects id).map fun o =>
      if (s.txns id).any (fun t => !t.finished) && o.registered then { o with active := false }
      else o }

/-! ### The system -/

/-- One pass of a phase of a turn, or one call of a method. -/
inductive Proc
  | processOpens
  | processDeferredOpenErrors
  | startReadyTxns
  | processTxnRequests (served : List TxnId)
  | runJobs
  | deactivateIdleTxns
  | finishTxns
  | endOfTask
  | noteTimerTask
  | issueOpen (kind : OpenKind) (name : String) (version : UInt64)
  | storeRequest (txnId : TxnId) (opensCursor : Bool)
  | transaction (connId : ConnId) (write : Bool) (scope : List StoreId)
  | close (connId : ConnId)
  | navigate (cursorId : CursorId)
  | cursorWrite (cursorId : CursorId)
  | commit (txnId : TxnId)
  | abort (txnId : TxnId)
  deriving DecidableEq, Repr

/-- The methods; the rest is started from outside, where a turn starts with the opens. -/
def Proc.method : Proc → Bool
  | .issueOpen _ _ _ | .storeRequest _ _ | .transaction _ _ _ | .close _ | .navigate _
  | .cursorWrite _ | .commit _ | .abort _ => true
  | _ => false

def Proc.main : Proc → Bool
  | .processOpens | .endOfTask | .noteTimerTask => true
  | _ => false

/-- What each procedure does, and where the turn goes on. -/
def body : Proc → Prog (Option Proc)
  | .processOpens => do
      match ← nextOpenStep with
      | none => pure (some .processDeferredOpenErrors)
      | some step => do
          perform step
          pure (some .processOpens)
  | .processDeferredOpenErrors => do
      processDeferredOpenErrors
      pure (some .startReadyTxns)
  | .startReadyTxns => do
      let started ← startReadyTxns
      pure (some (if started then .startReadyTxns else .processTxnRequests []))
  | .processTxnRequests served => do
      match ← processTxnRequests served with
      | some served => pure (some (.processTxnRequests served))
      | none => pure (some .runJobs)
  | .runJobs => do
      -- a job that throws ends the turn
      let s ← .read
      if s.autoPump then pure (some .deactivateIdleTxns)
      else do
        let reply ← .callOut
        pure (if reply.threw then none else some .deactivateIdleTxns)
  | .deactivateIdleTxns => do
      .modify deactivateIdleTxns
      pure (some .finishTxns)
  | .finishTxns => do
      let finished ← finishTxns
      pure (if finished then some .finishTxns else none)
  | .endOfTask => do
      .modify endOfTask
      pure none
  | .noteTimerTask => do
      .modify fun s => { s with taskEpoch := s.taskEpoch + 1 }
      pure none
  | .issueOpen kind name version => do
      issueOpen kind name version
      pure none
  | .storeRequest txnId opensCursor => do
      storeRequest txnId (if opensCursor then .openCursor else .plain)
      pure none
  | .transaction connId write scope => do
      transaction connId write scope
      pure none
  | .close connId => do
      close connId
      pure none
  | .navigate cursorId => do
      navigate cursorId
      pure none
  | .cursorWrite cursorId => do
      cursorWrite cursorId
      pure none
  | .commit txnId => do
      commit txnId
      pure none
  | .abort txnId => do
      abort txnId
      pure none

/-- The driver with the script around it. -/
def driver : System State Reply Proc :=
  ⟨body, fun p => p.method = true, fun p => p.main = true⟩

/-- A method does not go on in a phase. -/
theorem body_method {proc : Proc} (h : proc.method = true) :
    ∃ p : Prog Unit, body proc = p >>= fun _ => pure none := by
  cases proc <;> first | exact ⟨_, rfl⟩ | exact absurd h nofun

/-- A run with two databases. The upgrade of the first is committed, and two transactions get their
backends beside each other; script runs while the result of a request is built. There it aborts the
transaction, and the turn ends; or it does not, and the next turn upgrades the other database. -/
structure Session where
  building : State
  ended : State
  upgrading : State
  built : Reply → Prog (Option Proc)
  upgraded : Reply → Prog (Option Proc)
  begins : Reaches driver (State.new (fun _ => 0) true) ⟨building, [.waiting built]⟩
  aborts : ReflTransGen (Step driver) ⟨building, [.waiting built]⟩ ⟨ended, []⟩
  goesOn : ReflTransGen (Step driver) ⟨building, [.waiting built]⟩ ⟨upgrading, [.waiting upgraded]⟩
  building_trace : building.trace = [.answered 0 (.startUpgrade 0 0 1), .startUpgrade 0 "d",
    .upgradeneeded 0, .enqueued 0 1, .executed 0 1, .completed 0 1 none, .commit 0 (some 0) true,
    .advanced "d" 0 1, .complete 0, .opened 0 "d" 0 (some 0), .answered 2 (.openConnection 2 1),
    .opened 2 "d" 1 none, .enqueued 1 3, .enqueued 1 4, .enqueued 2 5, .enqueued 2 6, .executed 1 3]
  building_handle : building.txns 1 =
    some ⟨1, 1, "d", .readWrite, [0], true, false, true, 0, false⟩
  ended_trace : ended.trace = building.trace ++ [.aborting 1 [4], .abort 1,
    .completed 1 3 none, .executed 2 5, .completed 2 5 none]
  ended_handles : ended.txns 0 = none ∧ ended.txns 1 = none ∧
    ended.txns 2 = some ⟨2, 1, "d", .readWrite, [1], true, false, true, 0, false⟩
  upgrading_trace : upgrading.trace = building.trace ++ [.completed 1 3 none,
    .executed 2 5, .completed 2 5 none, .answered 7 (.sendBlocked 7), .blocked 7,
    .answered 8 (.startUpgrade 8 0 1), .startUpgrade 8 "e", .upgradeneeded 8]
  upgrading_handles :
    upgrading.txns 1 = some ⟨1, 1, "d", .readWrite, [0], true, false, true, 0, false⟩ ∧
    upgrading.txns 2 = some ⟨2, 1, "d", .readWrite, [1], true, false, true, 0, false⟩ ∧
    upgrading.txns 3 = some ⟨3, 3, "e", .versionChange, [], true, false, true, 0, false⟩
  upgrading_queue : upgrading.txnQueues 1 = some [4]
  upgrading_opens : upgrading.opens =
    [⟨.open, "d", 2, 2, 7, false, none, true, true, none⟩,
      ⟨.open, "e", 1, 3, 8, true, some 3, true, false, some (0, 1)⟩]

theorem Session.reaches_ended (w : Session) :
    Reaches driver (State.new (fun _ => 0) true) ⟨w.ended, []⟩ :=
  ReflTransGen.trans w.begins w.aborts

theorem Session.reaches_upgrading (w : Session) :
    Reaches driver (State.new (fun _ => 0) true) ⟨w.upgrading, [.waiting w.upgraded]⟩ :=
  ReflTransGen.trans w.begins w.goesOn

set_option maxRecDepth 2000 in
theorem session : Nonempty Session := by
  refine ⟨⟨?_, ?_, ?_, ?_, ?_, ?begins, ?aborts, ?goesOn, ?_, ?_, ?_, ?_, ?_, ?_, ?_, ?_⟩⟩
  case begins =>
    -- the database is created, with a request of the upgrade
    apply steps_start (p := .issueOpen .open "d" 1) (.inl rfl)
    apply steps_leave
    apply steps_start (p := .processOpens) (.inr rfl)
    apply steps_answer true
    apply steps_answer true
    apply steps_enter (p := .storeRequest 0 false) rfl
    apply steps_leave
    apply steps_resume ⟨false, false⟩
    -- the turn goes on to the request
    iterate 4 apply steps_next
    apply steps_answer []
    apply steps_answer .ok
    apply steps_resume ⟨false, false⟩
    apply steps_resume ⟨false, false⟩
    apply steps_next
    apply steps_answer []
    iterate 3 apply steps_next
    apply steps_leave
    -- the upgrade is committed, and its connection is delivered
    apply steps_start (p := .processOpens) (.inr rfl)
    apply steps_answer true
    apply steps_resume ⟨false, false⟩
    apply steps_enter (p := .issueOpen .open "d" 0) rfl
    apply steps_leave
    apply steps_resume ⟨false, false⟩
    apply steps_next
    -- a plain connection is, and its handlers begin two transactions
    apply steps_enter (p := .transaction 1 true [0]) rfl
    apply steps_resume ⟨false, false⟩
    apply steps_answer true
    apply steps_leave
    apply steps_enter (p := .transaction 1 true [1]) rfl
    apply steps_resume ⟨false, false⟩
    apply steps_answer true
    apply steps_leave
    apply steps_enter (p := .storeRequest 1 false) rfl
    apply steps_leave
    apply steps_enter (p := .storeRequest 1 false) rfl
    apply steps_leave
    apply steps_enter (p := .storeRequest 2 false) rfl
    apply steps_leave
    apply steps_enter (p := .storeRequest 2 false) rfl
    apply steps_leave
    apply steps_resume ⟨false, false⟩
    -- which get their backends
    iterate 3 apply steps_next
    apply steps_answer .ok
    apply steps_answer .ok
    iterate 2 apply steps_next
    apply steps_answer []
    apply steps_answer .ok
    exact .refl
  case aborts =>
    apply steps_enter (p := .abort 1) rfl
    apply steps_resume ⟨false, false⟩
    apply steps_leave
    -- the request is completed all the same
    apply steps_resume ⟨false, false⟩
    apply steps_resume ⟨false, false⟩
    apply steps_next
    apply steps_answer []
    apply steps_answer .ok
    apply steps_resume ⟨false, false⟩
    apply steps_resume ⟨false, false⟩
    apply steps_next
    apply steps_answer []
    iterate 3 apply steps_next
    apply steps_leave
    exact .refl
  case goesOn =>
    apply steps_resume ⟨false, false⟩
    apply steps_enter (p := .issueOpen .open "d" 2) rfl
    apply steps_leave
    apply steps_enter (p := .issueOpen .open "e" 1) rfl
    apply steps_leave
    apply steps_resume ⟨false, false⟩
    apply steps_next
    apply steps_answer []
    apply steps_answer .ok
    apply steps_resume ⟨false, false⟩
    apply steps_resume ⟨false, false⟩
    apply steps_next
    apply steps_answer []
    iterate 3 apply steps_next
    apply steps_leave
    -- the first open is blocked, the second is not
    apply steps_start (p := .processOpens) (.inr rfl)
    apply steps_resume ⟨false, false⟩
    apply steps_next
    apply steps_answer true
    apply steps_answer true
    exact .refl
  all_goals decide +kernel

end BoaIdb.Pump
