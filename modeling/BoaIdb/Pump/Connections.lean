import BoaIdb.Pump.Quiet

/-!
The connections that an upgrade or a delete waits for.

A connection that a plain open delivers is in the driver's table until it is closed, and neither
an upgrade nor a delete of its database starts while it is there.
-/

namespace BoaIdb.Pump

open Callbacks OpenQueue Prog

/-! ### The record -/

/-- The connections of plain opens that are not closed, behind one more event. -/
def connect (conns : List (ConnId × String)) : Event → List (ConnId × String)
  | .opened _ name conn none => conns.filter (fun c => c.1 ≠ conn) ++ [(conn, name)]
  | .closed conn => conns.filter fun c => c.1 ≠ conn
  | _ => conns

/-- The connections that plain opens have delivered and that have not been closed since. -/
def connected (trace : List Event) : List (ConnId × String) := trace.foldl connect []

/-- The database whose upgrade or delete starts. -/
def Event.starts : Event → Option String
  | .startUpgrade _ name | .startDelete _ name => some name
  | _ => none

/-- How many connections of a database are open, as the driver counts them. -/
def openCount (conns : List (ConnId × String)) (name : String) : UInt32 :=
  .ofNat (conns.countP fun c => c.2 = name)

/-- What starts an upgrade or a delete finds no connection of its database open. -/
def Event.Lone (trace : List Event) (e : Event) : Prop :=
  ∀ name, e.starts = some name → openCount (connected trace) name = 0

def Alone (trace : List Event) : Prop := Due Event.Lone trace

/-- The connections of the table that are not closed. -/
def State.table (s : State) : List (ConnId × String) :=
  s.connections.filterMap fun c => if c.2.2 then none else some (c.1, c.2.1)

/-- The invariant: the table has the connections of the record. -/
def Tabled (s : State) : Prop := s.table = connected s.trace

theorem liveConnectionCount_eq (s : State) (name : String) :
    s.liveConnectionCount name = openCount s.table name := by
  unfold State.liveConnectionCount openCount State.table
  rw [List.countP_filterMap]
  congr 2
  funext c
  obtain ⟨id, name', closed⟩ := c
  cases closed <;> simp

theorem connected_append (trace events : List Event) :
    connected (trace ++ events) = events.foldl connect (connected trace) :=
  List.foldl_append

/-- An event that is about no connection, and starts nothing. -/
def Event.aside : Event → Bool
  | .opened _ _ _ none | .closed _ | .startUpgrade _ _ | .startDelete _ _ => false
  | _ => true

theorem connect_aside {e : Event} (he : e.aside = true) (conns : List (ConnId × String)) :
    connect conns e = conns := by
  cases e with
  | opened request name conn upgrade =>
      cases upgrade with
      | none => cases he
      | some id => rfl
  | closed conn => cases he
  | _ => rfl

theorem starts_aside {e : Event} (he : e.aside = true) : e.starts = none := by
  cases e <;> first | rfl | cases he

/-! ### What leaves the connections alone -/

/-- The table stays, and nothing is recorded of connections. -/
structure Aside (s s' : State) : Prop where
  connections : s'.connections = s.connections
  trace : ∃ events, s'.trace = s.trace ++ events ∧ ∀ e ∈ events, e.aside = true

variable {s s' s'' s₀ : State}

theorem Aside.of_eq (hconnections : s'.connections = s.connections) (htrace : s'.trace = s.trace) :
    Aside s s' :=
  ⟨hconnections, [], htrace.trans (List.append_nil _).symm, fun _ h => absurd h List.not_mem_nil⟩

theorem Aside.recorded {e : Event} (hconnections : s'.connections = s.connections)
    (htrace : s'.trace = s.trace ++ [e]) (he : e.aside = true) : Aside s s' :=
  ⟨hconnections, [e], htrace, fun _ hmem => List.mem_singleton.mp hmem ▸ he⟩

theorem Aside.refl (s : State) : Aside s s := .of_eq rfl rfl

/-- Requests and objects are no connections. -/
theorem Quiet.aside (h : Quiet s s') : Aside s s' := by
  obtain ⟨events, htrace, hquiet⟩ := h.trace
  refine ⟨h.connections, events, htrace, fun e he => ?_⟩
  have hq := hquiet e he
  cases e <;> first | rfl | cases hq

def connectionContract : Contract State where
  always s := Alone s.trace
  invariant := Tabled
  during _ _ := True
  refl _ := trivial
  trans _ _ := trivial

theorem Aside.connected_eq (h : Aside s s') : connected s'.trace = connected s.trace := by
  obtain ⟨events, htrace, haside⟩ := h.trace
  rw [htrace, connected_append]
  generalize connected s.trace = conns
  -- induction on what has been recorded
  clear htrace
  induction events generalizing conns with
  | nil => rfl
  | cons e events ih =>
      rw [List.foldl_cons, connect_aside (haside e (.head _))]
      exact ih (fun e' he' => haside e' (.tail _ he')) conns

theorem Aside.tabled (h : Aside s s') (hs : Tabled s) : Tabled s' := by
  rw [Tabled, h.connected_eq, ← hs, State.table, h.connections]
  rfl

theorem Aside.alone (h : Aside s s') (hs : Alone s.trace) : Alone s'.trace := by
  obtain ⟨events, htrace, haside⟩ := h.trace
  rw [htrace]
  refine Due.append hs fun before e he name hname => ?_
  rw [starts_aside (haside e he)] at hname
  cases hname

theorem Aside.held (h : Aside s s') (halways : Alone s.trace) (hs : Tabled s) :
    connectionContract.Held s s' :=
  ⟨h.alone halways, h.tabled hs, trivial⟩

variable {α : Type} {p : Prog α}

theorem tabled_of_aside (hp : p.Within Aside) (halways : Alone s.trace) (hs : Tabled s) :
    Kept connectionContract s p s :=
  hp.kept (fun _ _ h halways hs => h.held halways hs) (.refl halways hs)

theorem aside_of_quiet (hp : p.Within Quiet) : p.Within Aside := hp.mono fun _ _ h => h.aside

/-! ### Programs -/

theorem aside_dispatch {e : Event} (he : e.aside = true) : (dispatch e).Within Aside :=
  within_dispatch fun _ => .recorded rfl rfl he

theorem aside_modify {f : State → State} (hconnections : ∀ s, (f s).connections = s.connections)
    (htrace : ∀ s, (f s).trace = s.trace) : (modify f : Prog Unit).Within Aside :=
  within_modify fun s => .of_eq (hconnections s) (htrace s)

theorem aside_dispatchEnd (txnId : TxnId) (edit : TxnObject → TxnObject) {e : Event}
    (he : e.aside = true) : (dispatchEnd txnId edit e).Within Aside :=
  within_dispatchEnd txnId .refl (fun _ => .of_eq rfl rfl) (fun _ => .recorded rfl rfl he)
    fun _ => .of_eq rfl rfl

theorem aside_abortUpgradeOpen (txnId : TxnId) (notifyRequest : Bool) :
    (abortUpgradeOpen txnId notifyRequest).Within Aside := by
  refine within_bind (within_read .refl) fun s => ?_
  split
  · exact within_pure
  · next open' _ =>
      refine within_bind (aside_modify (fun _ => rfl) fun _ => rfl) fun _ =>
        within_bind (aside_of_quiet (quiet_clearUpgradeTxn open')) fun _ =>
          within_bind (aside_of_quiet (quiet_resetAbortedUpgradeRequest open')) fun _ => ?_
      split
      · exact within_pure
      · exact within_bind (aside_dispatch rfl) fun _ => within_pure

theorem aside_takeAborted (txnId : TxnId) : (takeAborted txnId).Within Aside := by
  refine within_bind (within_modifyRead fun s => ?_) fun _ => within_pure
  split
  · exact .recorded rfl rfl rfl
  · exact .of_eq rfl (List.append_nil _)

theorem aside_abortTransaction (txnId : TxnId) (notifyUpgradeOpen : Bool) :
    (abortTransaction txnId notifyUpgradeOpen).Within Aside := by
  refine within_bind (aside_takeAborted txnId) fun taken => ?_
  split
  · exact within_pure
  · refine within_bind (aside_modify (fun _ => rfl) fun _ => rfl) fun _ =>
      within_bind (aside_of_quiet (quiet_failQueuedRequests txnId _)) fun _ =>
        within_bind (aside_dispatchEnd txnId _ rfl) fun _ => ?_
    split
    · exact aside_abortUpgradeOpen txnId notifyUpgradeOpen
    · exact within_pure

theorem aside_startUpgradeTxn (open' : PendingOpen) : (startUpgradeTxn open').Within Aside := by
  refine within_bind (within_read .refl) fun s => within_bind within_choose fun begun => ?_
  split
  · exact within_pure
  · split
    · exact within_bind (aside_modify (fun _ => rfl) fun _ => rfl) fun _ => within_pure
    · exact within_bind (aside_modify (fun _ => rfl) fun _ => rfl) fun _ => within_pure

theorem aside_abortFailedUpgrade (open' : PendingOpen) (txnId : TxnId) :
    (abortFailedUpgrade open' txnId).Within Aside :=
  within_bind (aside_of_quiet (quiet_resetAbortedUpgradeRequest open')) fun _ =>
    within_bind (aside_takeAborted txnId) fun _ =>
      within_bind (aside_modify (fun _ => rfl) fun _ => rfl) fun _ =>
        within_bind (aside_dispatchEnd txnId _ rfl) fun _ =>
          within_bind (aside_dispatch rfl) fun _ => within_pure

/-- An open is settled, and that is reported. -/
theorem aside_settled {f : State → State} {e : Event}
    (hconnections : ∀ s, (f s).connections = s.connections) (htrace : ∀ s, (f s).trace = s.trace)
    (he : e.aside = true) :
    (modify f >>= fun _ => dispatch e >>= fun _ => (pure () : Prog Unit)).Within Aside :=
  within_bind (aside_modify hconnections htrace) fun _ =>
    within_bind (aside_dispatch he) fun _ => within_pure

theorem aside_finishUpgrade (open' : PendingOpen) (txnId : TxnId) :
    (finishUpgrade open' txnId).Within Aside := by
  refine within_bind (within_modifyRead fun _ => .of_eq rfl rfl) fun s => within_bind ?_ fun _ =>
    within_bind (within_modify fun s => ?_) fun _ =>
      within_bind (aside_dispatchEnd txnId _ rfl) fun _ =>
        within_bind (aside_of_quiet (quiet_clearUpgradeTxn open')) fun _ => ?_
  · unfold commitUpgrade
    split
    · exact within_bind within_choose fun ok => within_modify fun _ => .recorded rfl rfl rfl
    · exact within_pure
  · unfold State.releaseUpgrade
    split
    · exact .recorded rfl rfl rfl
    · exact .of_eq rfl rfl
  · split
    · exact aside_settled (fun _ => rfl) (fun _ => rfl) rfl
    · exact within_bind (aside_dispatch rfl) fun _ => within_pure

theorem aside_completeRequest (txnId : TxnId) (requestId : RequestId) :
    (completeRequest txnId requestId).Within Aside := by
  refine within_bind (aside_of_quiet (quiet_refreshTxnEpoch txnId)) fun _ =>
    within_bind (aside_dispatch rfl) fun reply => ?_
  split
  · exact aside_abortTransaction txnId true
  · exact within_pure

theorem aside_execute (txnId : TxnId) (requestId : RequestId) (op : PendingOp) :
    (execute txnId requestId op).Within Aside := by
  refine within_bind (aside_of_quiet (quiet_executeOp txnId requestId op)) fun result => ?_
  split
  · exact within_bind (aside_of_quiet (quiet_applyOutcome txnId requestId)) fun _ =>
      within_bind (within_modify fun s => (quiet_releaseCursor op s).aside) fun _ =>
        aside_completeRequest txnId requestId
  · exact aside_completeRequest txnId requestId
  · exact within_bind (aside_modify (fun _ => rfl) fun _ => rfl) fun _ =>
      aside_completeRequest txnId requestId
  · refine within_bind (aside_of_quiet (quiet_failOp txnId requestId _)) fun prevented => ?_
    split
    · exact aside_abortTransaction txnId false
    · exact within_pure

theorem aside_processTxnRequests (served : List TxnId) :
    (processTxnRequests served).Within Aside := by
  refine within_bind within_choose fun order =>
    within_bind (within_modifyRead fun s => (quiet_dequeue _ served s).aside) fun s => ?_
  dsimp only
  split
  · exact within_pure
  · exact within_bind (aside_of_quiet (quiet_failQueuedRequests _ _)) fun _ => within_pure
  · exact within_bind (aside_execute _ _ _) fun _ => within_pure

theorem aside_startReady (txnId : TxnId) : (startReady txnId).Within Aside := by
  refine within_bind (within_read .refl) fun s => ?_
  split
  · refine within_bind within_choose fun answer => ?_
    cases answer with
    | ok => exact within_bind (aside_modify (fun _ => rfl) fun _ => rfl) fun _ => within_pure
    | locked => exact within_bind (aside_modify (fun _ => rfl) fun _ => rfl) fun _ => within_pure
    | failed =>
        exact within_bind (within_modify fun _ => .recorded rfl rfl rfl) fun _ =>
          within_bind (aside_of_quiet (quiet_failQueuedRequests txnId _)) fun _ => within_pure
  · exact within_pure

theorem aside_startReadyTxns : startReadyTxns.Within Aside := by
  have hall (ready : List TxnId) : (startAll ready).Within Aside := by
    induction ready with
    | nil => exact within_pure
    | cons id rest ih =>
        exact within_bind (aside_startReady id) fun _ => within_bind ih fun _ => within_pure
  exact within_bind (within_modifyRead fun _ => .of_eq rfl rfl) fun _ => hall _

theorem aside_finishTxns : finishTxns.Within Aside := by
  refine within_bind (within_read .refl) fun s => ?_
  split
  · exact within_pure
  · next txnId _ =>
      exact within_bind (aside_modify (fun _ => rfl) fun _ => rfl) fun _ =>
        within_bind within_choose fun ok =>
          within_bind (within_modify fun _ => .recorded rfl rfl rfl) fun _ =>
            within_bind (aside_modify (fun _ => rfl) fun _ => rfl) fun _ =>
              within_bind (aside_dispatchEnd txnId _ rfl) fun _ => within_pure

theorem aside_issueOpen (kind : OpenKind) (name : String) (version : UInt64) :
    (issueOpen kind name version).Within Aside := by
  refine within_modify fun s => ?_
  split
  · exact .refl s
  · exact .of_eq rfl rfl

theorem aside_transaction (connId : ConnId) (write : Bool) (scope : List StoreId) :
    (transaction connId write scope).Within Aside := by
  refine within_bind (within_read .refl) fun s => ?_
  split
  · exact within_pure
  · split
    · exact within_pure
    · refine within_bind within_callOut fun reply => ?_
      split
      · exact within_pure
      · refine within_bind (within_read .refl) fun s => ?_
        split
        · exact within_pure
        · refine within_bind within_choose fun valid => within_modify fun s => ?_
          split
          · exact .refl s
          · split
            · exact .of_eq rfl rfl
            · exact .of_eq rfl rfl

theorem aside_abort (txnId : TxnId) : (abort txnId).Within Aside := by
  refine within_bind (within_read .refl) fun s => ?_
  split
  · exact within_bind (aside_modify (fun _ => rfl) fun _ => rfl) fun _ =>
      aside_abortTransaction txnId true
  · exact within_pure

/-! ### Looking at the opens -/

/-- The database whose upgrade or delete a step starts. -/
def OpenStep.starts : OpenStep → Option String
  | .startUpgrade open' _ _ | .startDelete open' => some open'.name
  | _ => none

theorem starts_of {open' : PendingOpen} {step : OpenStep} {name : String} (hof : step.Of open')
    (hstarts : step.starts = some name) : name = open'.name := by
  cases step with
  | startUpgrade o old new =>
      obtain rfl : o = open' := hof
      exact (Option.some.inj hstarts).symm
  | startDelete o =>
      obtain rfl : o = open' := hof
      exact (Option.some.inj hstarts).symm
  | _ => cases hstarts

/-- What may start has no connection to wait for. -/
theorem processNext_starts {q q' : OpenQueue} {action : OpenQueueAction}
    (h : q.processNext = (q', some action)) (hstarts : action.starts ≠ []) :
    q.blockingConnections = 0 := by
  unfold processNext at h
  split at h
  · cases h
  · split at h
    · cases h
    · split at h
      · dsimp only at h
        split at h
        · cases h
          exact absurd rfl hstarts
        · split at h
          · cases h
            exact absurd rfl hstarts
          · split at h
            · cases h
              exact absurd rfl hstarts
            · next hnone =>
                simpa using hnone
      · split at h
        · cases h
          exact absurd rfl hstarts
        · next hnone => simpa using hnone

theorem lookIdle_starts {open' : PendingOpen} {answers : List OpenQueueAction} {queue : OpenQueue}
    {step : OpenStep} (hstep : (lookIdle open' answers queue).step = some step)
    (hstarts : step.starts ≠ none) : queue.blockingConnections = 0 := by
  unfold lookIdle at hstep
  split at hstep
  · cases hstep
  · split at hstep
    · cases hstep
    · next q action hnext =>
        cases action with
        | openConnection id version =>
            cases hstep
            exact absurd rfl hstarts
        | failOpen id error =>
            cases hstep
            exact absurd rfl hstarts
        | sendBlocked id =>
            dsimp only at hstep
            split at hstep
            · cases hstep
            · cases hstep
              exact absurd rfl hstarts
        | startUpgrade id old new => exact processNext_starts hnext (List.cons_ne_nil _ _)
        | startDelete id => exact processNext_starts hnext (List.cons_ne_nil _ _)

theorem registerOpen_blocking (open' : PendingOpen) (queue : OpenQueue) :
    (registerOpen open' queue).blockingConnections = queue.blockingConnections := by
  unfold registerOpen
  split
  · rfl
  · split <;> rfl

/-- A look starts an upgrade or a delete only with no live connection. -/
theorem lookAt_starts {open' : PendingOpen} {live : UInt32} {queue : OpenQueue} {step : OpenStep}
    (hstep : (lookAt open' live queue).step = some step) (hstarts : step.starts ≠ none) :
    live = 0 := by
  have hblocking : (registerOpen open' (queue.setBlockingConnections live)).blockingConnections =
      live := registerOpen_blocking _ _
  unfold lookAt at hstep
  dsimp only at hstep
  split at hstep
  · next hclosed => exact hclosed.2
  · exact hblocking.symm.trans (lookIdle_starts hstep hstarts)

/-- What a scan leads to may start as far as connections are concerned. -/
def Startable (step : Option OpenStep) (s : State) : Prop :=
  Tabled s ∧ ∀ open' name, step = some open' → open'.starts = some name →
    openCount (connected s.trace) name = 0

theorem aside_look (s : State) (requestId : RequestId) (name : String) (looked : Looked) :
    Aside s (s.look requestId name looked) := by
  refine ⟨rfl, looked.answers.map (.answered requestId), rfl, fun e he => ?_⟩
  obtain ⟨action, -, rfl⟩ := List.mem_map.mp he
  rfl

theorem startable_scanOpens (ids : List RequestId) (halways : Alone s.trace) (hs : Tabled s) :
    Safe connectionContract (scanOpens ids) Startable s := by
  induction ids generalizing s with
  | nil => exact .pure halways ⟨hs, fun _ _ h => absurd h.symm (Option.some_ne_none _)⟩
  | cons requestId rest ih =>
      refine Safe.read ?_
      split
      · exact .pure halways ⟨hs, fun _ _ h => absurd h.symm (Option.some_ne_none _)⟩
      · next open' _ =>
          have hqueue : Safe connectionContract (openQueueOf open'.name)
              (fun _ s' => s' = s) s := by
            refine Safe.read ?_
            split
            · exact .pure halways rfl
            · exact Safe.choose halways fun _ => .pure halways rfl
          refine Safe.seq hqueue ?_
          rintro queue s' - rfl
          refine Safe.modify halways ?_
          generalize hlook : lookAt open' (s'.liveConnectionCount open'.name) queue = looked
          have haside := aside_look s' requestId open'.name looked
          split
          · exact ih (haside.alone halways) (haside.tabled hs)
          · next step hstep =>
              refine .pure (haside.alone halways)
                ⟨haside.tabled hs, fun step' name heq hstarts => ?_⟩
              cases heq
              rw [← hlook] at hstep
              -- the count is that of the table, which is that of the record
              have hcount := lookAt_starts hstep (by rw [hstarts]; exact Option.some_ne_none _)
              obtain ⟨hseen, hof⟩ := lookAt_seen open' (s'.liveConnectionCount open'.name) queue
              obtain ⟨fired, hopen⟩ := hseen
              have hname : name = open'.name := by
                have hstarted := starts_of (hof step hstep) hstarts
                rwa [hopen] at hstarted
              rw [liveConnectionCount_eq, hs] at hcount
              rw [hname, haside.connected_eq]
              exact hcount

theorem startable_nextOpenStep (halways : Alone s.trace) (hs : Tabled s) :
    Safe connectionContract nextOpenStep Startable s := by
  refine Safe.read ?_
  split
  · exact startable_scanOpens _ halways hs
  · split
    · exact .pure halways ⟨hs, fun _ _ h => absurd h.symm (Option.some_ne_none _)⟩
    · split
      · refine .pure halways ⟨hs, fun _ _ h hstarts => ?_⟩
        cases h
        cases hstarts
      · exact startable_scanOpens _ halways hs

/-! ### Performing a step -/

theorem Kept.tabled (h : Kept connectionContract s₀ p s) :
    Safe connectionContract p (fun _ => Tabled) s :=
  h.mono fun _ _ _ hs' => hs'.1

/-- The start is recorded, and the rest is about no connection. -/
theorem tabled_record {e : Event} {k : Unit → Prog Unit} (hk : (k ()).Within Aside)
    (halways : Alone s.trace) (hs : Tabled s)
    (hstarts : ∀ name, e.starts = some name → openCount (connected s.trace) name = 0)
    (hconnect : ∀ conns, connect conns e = conns) :
    Safe connectionContract (record e >>= k) (fun _ => Tabled) s := by
  refine Safe.modify halways (Kept.tabled (tabled_of_aside hk (Due.concat halways hstarts) ?_))
  show s.table = connected (s.trace ++ [e])
  rw [connected_append, List.foldl_cons, List.foldl_nil, hconnect]
  exact hs

theorem tabled_startUpgrade (open' : PendingOpen) (old new : UInt64) (halways : Alone s.trace)
    (hs : Tabled s) (hcount : openCount (connected s.trace) open'.name = 0) :
    Safe connectionContract (startUpgrade open' old new) (fun _ => Tabled) s := by
  refine tabled_record ?_ halways hs (fun name hname => by cases hname; exact hcount) fun _ => rfl
  refine within_bind (aside_startUpgradeTxn open') fun started => ?_
  split
  · refine within_bind (aside_modify (fun _ => rfl) fun _ => rfl) fun _ =>
      within_bind (within_read .refl) fun s => within_bind (aside_dispatch rfl) fun reply => ?_
    split
    · split
      · exact within_pure
      · exact aside_abortFailedUpgrade _ _
    · exact within_pure
  · exact aside_settled (fun _ => rfl) (fun _ => rfl) rfl

theorem tabled_startDelete (open' : PendingOpen) (halways : Alone s.trace)
    (hs : Tabled s) (hcount : openCount (connected s.trace) open'.name = 0) :
    Safe connectionContract (startDelete open') (fun _ => Tabled) s := by
  refine tabled_record ?_ halways hs (fun name hname => by cases hname; exact hcount) fun _ => rfl
  refine within_bind within_choose fun deleted => ?_
  split
  · exact aside_settled (fun _ => rfl) (fun _ => rfl) rfl
  · exact aside_settled (fun _ => rfl) (fun _ => rfl) rfl

/-- The table takes what the record takes. -/
theorem table_insertConnection (connId : ConnId) (name : String) (s : State) :
    (s.insertConnection connId name).table =
      s.table.filter (fun c => c.1 ≠ connId) ++ [(connId, name)] := by
  unfold State.table State.insertConnection
  rw [List.filterMap_append, List.filterMap_filter, List.filter_filterMap]
  congr 1
  refine List.filterMap_congr fun c _ => ?_
  obtain ⟨id, name', closed⟩ := c
  cases closed <;> by_cases hid : id = connId <;> simp [hid, Option.filter]

theorem table_closeConnection (connId : ConnId) (s : State) :
    (s.closeConnection connId).table = s.table.filter fun c => c.1 ≠ connId := by
  unfold State.table State.closeConnection
  rw [List.filterMap_map, List.filter_filterMap]
  refine List.filterMap_congr fun c _ => ?_
  obtain ⟨id, name', closed⟩ := c
  cases closed <;> by_cases hid : id = connId <;> simp [hid, Option.filter]

/-- An event that changes the record as the table has been changed. -/
theorem held_recorded {e : Event} (halways : Alone s.trace) (hstarts : e.starts = none)
    (htable : s.table = connect (connected s.trace) e) :
    Alone (s.trace ++ [e]) ∧ Tabled { s with trace := s.trace ++ [e] } := by
  refine ⟨Due.concat halways fun name hname => ?_, ?_⟩
  · rw [hstarts] at hname
    cases hname
  · show s.table = connected (s.trace ++ [e])
    rw [connected_append, List.foldl_cons, List.foldl_nil]
    exact htable

theorem tabled_openConnection (open' : PendingOpen) (halways : Alone s.trace) (hs : Tabled s) :
    Safe connectionContract (openConnection open') (fun _ => Tabled) s := by
  let s' : State := ((s.insertConnection open'.connId open'.name).removeOpen
    open'.requestId).setResult open'.requestId open'.connId ⟨open'.name, false, none⟩
  have htable : s'.table = connect (connected s'.trace)
      (.opened open'.requestId open'.name open'.connId none) := by
    show (s.insertConnection open'.connId open'.name).table = _
    rw [table_insertConnection, hs]
    rfl
  have halways' : Alone s'.trace := halways
  obtain ⟨halways'', hs''⟩ := held_recorded halways' rfl htable
  have hdispatch : Safe connectionContract
      (dispatch (.opened open'.requestId open'.name open'.connId none)) (fun _ => Tabled) s' :=
    Safe.modify halways' (Kept.tabled (tabled_of_aside within_callOut halways'' hs''))
  exact Safe.modify halways (Safe.seq hdispatch fun _ _ halways hs => .pure halways hs)

theorem tabled_perform {step : OpenStep} (halways : Alone s.trace)
    (hs : Startable (some step) s) :
    Safe connectionContract (perform step) (fun _ => Tabled) s := by
  have haside (hp : (perform step).Within Aside) :
      Safe connectionContract (perform step) (fun _ => Tabled) s :=
    Kept.tabled (tabled_of_aside hp halways hs.1)
  cases step with
  | fireBlocked open' => exact haside (within_bind (aside_dispatch rfl) fun _ => within_pure)
  | openConnection open' version => exact tabled_openConnection open' halways hs.1
  | failOpen open' error => exact haside (aside_settled (fun _ => rfl) (fun _ => rfl) rfl)
  | startUpgrade open' old new =>
      exact tabled_startUpgrade open' old new halways hs.1 (hs.2 _ _ rfl rfl)
  | startDelete open' => exact tabled_startDelete open' halways hs.1 (hs.2 _ _ rfl rfl)
  | finishUpgrade open' txnId => exact haside (aside_finishUpgrade open' txnId)

theorem tabled_close (connId : ConnId) (halways : Alone s.trace) (hs : Tabled s) :
    Kept connectionContract s (close connId) s := by
  let s' : State := { s.closeConnection connId with trace := s.trace }
  have htable : s'.table = connect (connected s'.trace) (.closed connId) := by
    show (s.closeConnection connId).table = _
    rw [table_closeConnection, hs]
    rfl
  obtain ⟨halways', hs'⟩ := held_recorded (s := s') halways rfl htable
  exact Kept.last halways ⟨halways', hs', trivial⟩

/-! ### Runs -/

/-- Every method keeps the contract. -/
theorem tabled_method (proc : Proc) (hmethod : proc.method = true) (halways : Alone s.trace)
    (hs : Tabled s) : Kept connectionContract s (body proc) s := by
  have haside {q : Prog Unit} (hq : q.Within Aside) :
      Kept connectionContract s (q >>= fun _ => (pure none : Prog (Option Proc))) s :=
    (tabled_of_aside hq halways hs).done
  cases proc with
  | issueOpen kind name version => exact haside (aside_issueOpen kind name version)
  | storeRequest txnId opensCursor => exact haside (aside_of_quiet (quiet_storeRequest _ _))
  | transaction connId write scope => exact haside (aside_transaction connId write scope)
  | close connId => exact (tabled_close connId halways hs).done
  | navigate cursorId => exact haside (aside_of_quiet (quiet_navigate cursorId))
  | cursorWrite cursorId => exact haside (aside_of_quiet (quiet_cursorWrite cursorId))
  | commit txnId => exact haside (aside_of_quiet (quiet_commit txnId))
  | abort txnId => exact haside (aside_abort txnId)
  | _ => cases hmethod

/-- Every procedure keeps the invariant. -/
theorem tabled_body (proc : Proc) (halways : Alone s.trace) (hs : Tabled s) :
    Safe connectionContract (body proc) (fun _ => Tabled) s := by
  have haside {q : Prog (Option Proc)} (hq : q.Within Aside) :
      Safe connectionContract q (fun _ => Tabled) s :=
    Kept.tabled (tabled_of_aside hq halways hs)
  by_cases hmethod : proc.method = true
  · exact Kept.tabled (tabled_method proc hmethod halways hs)
  cases proc with
  | processOpens =>
      refine Safe.seq (startable_nextOpenStep halways hs) fun step s₁ halways₁ hs₁ => ?_
      split
      · exact .pure halways₁ hs₁.1
      · exact Safe.seq (tabled_perform halways₁ hs₁) fun _ _ halways₂ hs₂ => .pure halways₂ hs₂
  | processDeferredOpenErrors =>
      exact haside (within_bind (aside_of_quiet quiet_processDeferredOpenErrors) fun _ =>
        within_pure)
  | startReadyTxns => exact haside (within_bind aside_startReadyTxns fun _ => within_pure)
  | processTxnRequests served =>
      refine haside (within_bind (aside_processTxnRequests served) fun served' => ?_)
      split
      · exact within_pure
      · exact within_pure
  | runJobs =>
      refine haside (within_bind (within_read .refl) fun s => ?_)
      split
      · exact within_pure
      · exact within_bind within_callOut fun _ => within_pure
  | deactivateIdleTxns =>
      exact haside (within_bind (within_modify fun s => (quiet_deactivateIdleTxns s).aside)
        fun _ => within_pure)
  | finishTxns => exact haside (within_bind aside_finishTxns fun _ => within_pure)
  | endOfTask =>
      exact haside (within_bind (within_modify fun s => (quiet_endOfTask s).aside)
        fun _ => within_pure)
  | noteTimerTask =>
      exact haside (within_bind (aside_modify (fun _ => rfl) fun _ => rfl) fun _ => within_pure)
  | _ => exact absurd rfl hmethod

theorem connections_keep :
    Keeps driver connectionContract (fun _ => True) fun _ s => Tabled s where
  rest_later _ _ _ _ := trivial
  main _ _ _ hs _ := hs
  api proc s hproc halways hs := by
    have hkept := tabled_method proc hproc halways hs
    obtain ⟨p, hp⟩ := body_method hproc
    change Safe connectionContract (body proc) _ s
    rw [hp] at hkept ⊢
    exact Safe.returns hkept
  phase proc s halways hs := by
    refine (tabled_body proc halways hs).mono fun o s' _ hs' => ?_
    cases o
    · exact ⟨hs', trivial⟩
    · exact hs'

/-- **No upgrade and no delete starts beside a plain connection.** In every run, whatever handlers
do, none of the connections of a database that plain opens have delivered is left open when an
upgrade or a delete of the database starts, as far as a 32-bit count can tell; and wherever handlers
or the outside have control the driver's count is that of the connections delivered and not
closed. -/
theorem starts_alone (versions : String → UInt64) (autoPump : Bool)
    {c : Config State Reply Proc} (h : Reaches driver (State.new versions autoPump) c) :
    (∀ before e after name, c.state.trace = before ++ e :: after → e.starts = some name →
      openCount (connected before) name = 0) ∧
    (c.Open → ∀ name,
      c.state.liveConnectionCount name = openCount (connected c.state.trace) name) := by
  have halways : Alone (State.new versions autoPump).trace := Due.nil
  have hgood := connections_keep.reaches halways (rfl : Tabled (State.new versions autoPump))
    trivial h
  refine ⟨fun before e after name htrace => hgood.always before e after htrace name,
    fun hopen name => ?_⟩
  rw [liveConnectionCount_eq, hgood.invariant hopen]

/-- Two upgrades have started, the second beside a plain connection of the other database. -/
theorem starts_alone_session : ∃ c, Reaches driver (State.new (fun _ => 0) true) c ∧
    .startUpgrade 0 "d" ∈ c.state.trace ∧ .startUpgrade 8 "e" ∈ c.state.trace ∧
    openCount (connected c.state.trace) "d" = 1 ∧
    (∀ before e after name, c.state.trace = before ++ e :: after → e.starts = some name →
      openCount (connected before) name = 0) ∧
    ∀ name, c.state.liveConnectionCount name = openCount (connected c.state.trace) name := by
  obtain ⟨w⟩ := session
  obtain ⟨halone, hcount⟩ := starts_alone _ _ w.reaches_upgrading
  have htrace := w.upgrading_trace.trans (congrArg (· ++ _) w.building_trace)
  refine ⟨_, w.reaches_upgrading, ?_, ?_, ?_, halone, hcount nofun⟩
  · simp [htrace]
  · simp [htrace]
  · rw [show w.upgrading.trace = _ from htrace]
    decide

end BoaIdb.Pump
