import BoaIdb.Engine.Error
import BoaIdb.Engine.OpenQueue
import BoaIdb.Engine.Scheduler
import BoaIdb.Lib.Callbacks

/-!
The state of the driver, and what script holds of it.

Of a transaction the driver keeps a handle, a queue of requests and an entry in the scheduler; of
an open or delete request an entry in its list and one in the queue of its database. Script holds
objects for transactions, connections and requests, and calls their methods from any handler.
-/

namespace BoaIdb.Pump

open Callbacks Scheduler

abbrev RequestId := UInt64
abbrev ConnId := UInt64
abbrev CursorId := UInt64

inductive OpenKind
  | open
  | delete
  deriving DecidableEq, Repr

/-- A pending database open or delete. -/
structure PendingOpen where
  kind : OpenKind
  name : String
  /-- 0 for a delete, and for an open of any version. -/
  version : UInt64
  connId : ConnId
  requestId : RequestId
  /-- True while an upgrade transaction is draining. -/
  upgradeActive : Bool := false
  upgradeTxnId : Option TxnId := none
  /-- Registered once in the core open queue. -/
  queued : Bool := false
  blockedFired : Bool := false
  upgradeVersions : Option (UInt64 × UInt64) := none
  deriving DecidableEq, Repr

/-- A driver-owned transaction handle. -/
structure TxnHandle where
  txnId : TxnId
  connId : ConnId
  dbName : String
  mode : TxnMode
  scope : List StoreId
  /-- Whether the backend transaction is there: not until the scheduler starts it. -/
  backend : Bool
  finished : Bool
  active : Bool
  activeEpoch : ℕ
  explicitCommit : Bool
  deriving DecidableEq, Repr

/-- What the driver's bookkeeping reads of a queued operation. -/
inductive PendingOp
  | plain
  | openCursor
  /-- A move of an open cursor, or an update or delete through it. -/
  | cursorOp (cursorId : CursorId) (navigates : Bool)
  deriving DecidableEq, Repr

structure CursorState where
  txnId : TxnId
  /-- The request that opened the cursor, reused for iteration. -/
  requestId : RequestId
  /-- The cursor is being iterated. -/
  pending : Bool
  deriving DecidableEq, Repr

/-- The data of an `IDBTransaction`; the driver finds it while it is registered. -/
structure TxnObject where
  active : Bool
  finished : Bool
  explicitCommit : Bool
  registered : Bool
  deriving DecidableEq, Repr

/-- The data of an `IDBDatabase`. -/
structure DbObject where
  name : String
  closed : Bool
  upgradeTxnId : Option TxnId
  deriving DecidableEq, Repr

/-- What happened, for the record: what is dispatched, and what queues and backends answered. -/
inductive Event
  | enqueued (txn : TxnId) (request : RequestId)
  /-- The operation of a request is done, and its result is built from what it has read. -/
  | executed (txn : TxnId) (request : RequestId)
  /-- `success` or `error` at a request of a transaction. -/
  | completed (txn : TxnId) (request : RequestId) (error : Option IdbError)
  | txnError (txn : TxnId)
  /-- The backend is asked to commit; for an upgrade with its open request. -/
  | commit (txn : TxnId) (upgrade : Option RequestId) (ok : Bool)
  | complete (txn : TxnId)
  /-- A handle is taken out to be aborted, with these requests in its queue. -/
  | aborting (txn : TxnId) (queue : List RequestId)
  | abort (txn : TxnId)
  /-- A transaction whose backend does not start. -/
  | startFailed (txn : TxnId)
  /-- What the queue of a database answered while an open was looked at. -/
  | answered (looking : RequestId) (action : OpenQueue.OpenQueueAction)
  | startUpgrade (request : RequestId) (name : String)
  | startDelete (request : RequestId) (name : String)
  /-- The queue of a database takes the version of an upgrade. -/
  | advanced (name : String) (txn : TxnId) (version : UInt64)
  | blocked (request : RequestId)
  | upgradeneeded (request : RequestId)
  /-- `abort` at the database object of an upgrade. -/
  | dbAbort (conn : ConnId)
  /-- `success` at an open request, which delivers its connection; behind an upgrade, or not. -/
  | opened (request : RequestId) (name : String) (conn : ConnId) (upgrade : Option TxnId)
  | closed (conn : ConnId)
  | deleted (request : RequestId)
  /-- `error` at an open or delete request. -/
  | openFailed (request : RequestId) (error : IdbError)
  deriving DecidableEq, Repr

/-- The driver, the script's objects, the committed versions, and the record. -/
structure State where
  opens : List PendingOpen
  deferredOpenErrors : List PendingOpen
  openQueues : String → Option OpenQueue
  txns : TxnId → Option TxnHandle
  scheduler : TransactionScheduler
  ops : RequestId → Option PendingOp
  txnQueues : TxnId → Option (List RequestId)
  cursors : CursorId → Option CursorState
  connections : List (ConnId × String × Bool)
  nextRequestId : RequestId
  nextTxnId : TxnId
  nextCursorId : CursorId
  nextConnId : ConnId
  taskEpoch : ℕ
  /-- Turns are driven by scheduled jobs. -/
  autoPump : Bool
  txnObjects : TxnId → Option TxnObject
  dbObjects : ConnId → Option DbObject
  /-- The connection in the `result` of an open request. -/
  results : RequestId → Option ConnId
  /-- The committed versions, 0 without a database. -/
  versions : String → UInt64
  trace : List Event

/-- Before anything has been opened. -/
def State.new (versions : String → UInt64) (autoPump : Bool) : State where
  opens := []
  deferredOpenErrors := []
  openQueues _ := none
  txns _ := none
  scheduler := .new
  ops _ := none
  txnQueues _ := none
  cursors _ := none
  connections := []
  nextRequestId := 0
  nextTxnId := 0
  nextCursorId := 0
  nextConnId := 0
  taskEpoch := 0
  autoPump := autoPump
  txnObjects _ := none
  dbObjects _ := none
  results _ := none
  versions := versions
  trace := []

/-- What handlers of an event leave: whether one threw, and whether the event is canceled. -/
structure Reply where
  threw : Bool
  prevented : Bool

abbrev Prog := Callbacks.Prog State Reply

namespace State

/-- `DriverState::enqueue`. -/
def enqueue (txnId : TxnId) (requestId : RequestId) (op : PendingOp) (s : State) : State :=
  { s with
    ops := Function.update s.ops requestId (some op)
    txnQueues := Function.update s.txnQueues txnId
      (some ((s.txnQueues txnId).getD [] ++ [requestId]))
    trace := s.trace ++ [.enqueued txnId requestId] }

/-- No request is queued on the transaction. -/
def drained (s : State) (txnId : TxnId) : Bool := ((s.txnQueues txnId).getD []).isEmpty

def setTxn (txnId : TxnId) (handle : Option TxnHandle) (s : State) : State :=
  { s with txns := Function.update s.txns txnId handle }

/-- `alloc_txn`. -/
def allocTxn (s : State) : State := { s with nextTxnId := s.nextTxnId + 1 }

/-- A new handle, and its entry in the scheduler. -/
def enterTxn (handle : TxnHandle) (s : State) : State :=
  { s with
    txns := Function.update s.txns handle.txnId (some handle)
    scheduler := s.scheduler.enqueue ⟨handle.txnId, handle.mode, handle.scope⟩ }

/-- A change to a handle that is there. -/
def editTxn (txnId : TxnId) (edit : TxnHandle → TxnHandle) (s : State) : State :=
  { s with txns := Function.update s.txns txnId ((s.txns txnId).map edit) }

/-- A change to a registered transaction object. -/
def editTxnObject (txnId : TxnId) (edit : TxnObject → TxnObject) (s : State) : State :=
  { s with
    txnObjects := Function.update s.txnObjects txnId
      ((s.txnObjects txnId).map fun o => if o.registered then edit o else o) }

/-- The object of a new transaction. -/
def registerTxn (txnId : TxnId) (s : State) : State :=
  { s with txnObjects := Function.update s.txnObjects txnId (some ⟨true, false, false, true⟩) }

/-- A transaction whose backend does not start is finished, and the scheduler forgets it. -/
def failStart (txnId : TxnId) (s : State) : State :=
  { (s.editTxn txnId fun handle => { handle with finished := true }) with
    scheduler := s.scheduler.forget txnId
    trace := s.trace ++ [.startFailed txnId] }

def unregisterTxn (txnId : TxnId) (s : State) : State :=
  { s with
    txnObjects := Function.update s.txnObjects txnId
      ((s.txnObjects txnId).map fun o => { o with registered := false }) }

/-- `txn_object(..).is_some()`. -/
def registered (s : State) (txnId : TxnId) : Bool :=
  (s.txnObjects txnId).any TxnObject.registered

/-- A new database object, as the result of an open request. -/
def setResult (requestId : RequestId) (connId : ConnId) (db : DbObject) (s : State) : State :=
  { s with
    dbObjects := Function.update s.dbObjects connId (some db)
    results := Function.update s.results requestId (some connId) }

def clearResult (requestId : RequestId) (s : State) : State :=
  { s with results := Function.update s.results requestId none }

def editDbObject (connId : ConnId) (edit : DbObject → DbObject) (s : State) : State :=
  { s with dbObjects := Function.update s.dbObjects connId ((s.dbObjects connId).map edit) }

def editQueue (name : String) (edit : OpenQueue → OpenQueue) (s : State) : State :=
  { s with openQueues := Function.update s.openQueues name ((s.openQueues name).map edit) }

/-- `d.opens.retain(|o| o.request_id != request_id)`. -/
def removeOpen (requestId : RequestId) (s : State) : State :=
  { s with opens := s.opens.filter fun o => o.requestId ≠ requestId }

def editOpen (requestId : RequestId) (edit : PendingOpen → PendingOpen) (s : State) : State :=
  { s with opens := s.opens.map fun o => if o.requestId = requestId then edit o else o }

def setCursorPending (cursorId : CursorId) (pending : Bool) (s : State) : State :=
  { s with
    cursors := Function.update s.cursors cursorId
      ((s.cursors cursorId).map fun c => { c with pending := pending }) }

/-- `alloc_cursor`. -/
def allocCursor (s : State) : State := { s with nextCursorId := s.nextCursorId + 1 }

def insertCursor (cursorId : CursorId) (cursor : CursorState) (s : State) : State :=
  { s with cursors := Function.update s.cursors cursorId (some cursor) }

/-- The scheduler and the queue forget a transaction. -/
def forget (txnId : TxnId) (s : State) : State :=
  { s with
    scheduler := s.scheduler.forget txnId
    txnQueues := Function.update s.txnQueues txnId none }

/-- Counts live (non-closed) connections of a database, `as u32`. -/
def liveConnectionCount (s : State) (name : String) : UInt32 :=
  .ofNat (s.connections.countP fun c => c.2.1 = name ∧ c.2.2 = false)

/-- Marks a connection closed. -/
def closeConnection (connId : ConnId) (s : State) : State :=
  { s with
    connections := s.connections.map fun c => if c.1 = connId then (c.1, c.2.1, true) else c
    trace := s.trace ++ [.closed connId] }

/-- `d.connections.insert(conn_id, (name, false))`. -/
def insertConnection (connId : ConnId) (name : String) (s : State) : State :=
  { s with connections := s.connections.filter (fun c => c.1 ≠ connId) ++ [(connId, name, false)] }

/-- The transaction ids that were handed out, in their order. -/
def txnIds (s : State) : List TxnId := (List.range s.nextTxnId.toNat).map .ofNat

end State

/-! ### Steps -/

def record (e : Event) : Prog Unit := .modify fun s => { s with trace := s.trace ++ [e] }

/-- Runs the handlers of an event. -/
def dispatch (e : Event) : Prog Reply := do
  record e
  .callOut

end BoaIdb.Pump
