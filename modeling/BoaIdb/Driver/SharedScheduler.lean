import BoaIdb.Engine.WorkConserving

/-!
The one scheduler that the transactions of all databases share, compared with a scheduler that
sees the transactions of one database only.

`create_txn` and `start_upgrade_txn` enqueue the id, the mode and the scope of a handle. The name
of its database is not among them, and the ids of object stores start anew in every database.
-/

namespace BoaIdb

open Admission Runs

namespace Scheduler

open TransactionScheduler

/-- What `create_txn` asks of the scheduler. -/
def createTxn (txnId : TxnId) (mode : TxnMode) (scope : List StoreId) : Call :=
  .enqueue ⟨txnId, mode, scope⟩

/-- What `start_upgrade_txn` asks of it. -/
def startUpgradeTxn (txnId : TxnId) : Call :=
  .enqueue ⟨txnId, .versionChange, []⟩

/-- The scheduler behind one call. -/
def behind (s : TransactionScheduler) : Call → TransactionScheduler
  | .enqueue item => s.enqueue item
  | .pollReady => s.pollReady.1
  | .onTxnFinished id => s.onTxnFinished id
  | .requeueUnstarted id => s.requeueUnstarted id
  | .forget id => s.forget id

section Alone

-- The `db_name` of the handle that the driver keeps under an id.
variable (dbName : TxnId → String)

/-- The calls that are about transactions of one database; polls are about all. -/
def concerns (db : String) : Call → Bool
  | .enqueue item => dbName item.id = db
  | .pollReady => true
  | .onTxnFinished id => dbName id = db
  | .requeueUnstarted id => dbName id = db
  | .forget id => dbName id = db

/-- The scheduler behind those of the calls that concern one database. -/
def alone (db : String) (calls : List Call) : TransactionScheduler :=
  (calls.filter (concerns dbName db)).foldl behind .new

/-- The entries of one database. -/
def ofDb (db : String) (item : TxnQueueItem) : Bool := dbName item.id = db

def restrict (db : String) (s : TransactionScheduler) : TransactionScheduler :=
  ⟨s.pendingQueue.filter (ofDb dbName db), s.runningTxns.filter (ofDb dbName db)⟩

/-- At every poll of a run a transaction is released exactly if it would be with the
transactions of all other databases taken out of the run. -/
def Independent (taken : List (Traffic × Call)) : Prop :=
  ∀ before t, before ++ [(t, Call.pollReady)] <+: taken → ∀ id,
    id ∈ t.scheduler.pollReady.2 ↔
      id ∈ (alone dbName (dbName id) (before.map Prod.snd)).pollReady.2

/-- When the scheduler is polled, whichever pending transaction conflicts with one that runs or
waits ahead of it conflicts with one of its own database there. -/
def OwnConflicts (t : Traffic) (call : Call) : Prop :=
  call = .pollReady → ∀ ahead c rest, t.scheduler.pendingQueue = ahead ++ c :: rest →
    (∃ p ∈ t.scheduler.runningTxns ++ ahead, Conflict c p) →
    ∃ p ∈ t.scheduler.runningTxns ++ ahead, dbName p.id = dbName c.id ∧ Conflict c p

end Alone

/-! ### Taking the other databases out of one call -/

section Restrict

variable {dbName : TxnId → String} {db : String} {s : TransactionScheduler} {id : TxnId}

/-- An entry under the id of another database is not there to be removed. -/
theorem filter_other (l : List TxnQueueItem) (hid : dbName id ≠ db) :
    (l.filter fun t => t.id ≠ id).filter (ofDb dbName db) = l.filter (ofDb dbName db) := by
  rw [List.filter_filter]
  refine List.filter_congr fun t _ => ?_
  by_cases heq : t.id = id
  · simp [ofDb, heq, hid]
  · simp [heq]

theorem filter_own (l : List TxnQueueItem) (id : TxnId) :
    (l.filter fun t => t.id ≠ id).filter (ofDb dbName db) =
      (l.filter (ofDb dbName db)).filter fun t => t.id ≠ id := by
  rw [List.filter_filter, List.filter_filter]
  exact List.filter_congr fun t _ => Bool.and_comm _ _

/-- The first running entry under the id goes to the front of the queue. -/
theorem requeueUnstarted_eq (s : TransactionScheduler) (id : TxnId) :
    s.requeueUnstarted id = (s.runningTxns.find? fun t => t.id = id).elim s fun item =>
      ⟨item :: s.pendingQueue, s.runningTxns.eraseP fun t => t.id = id⟩ := by
  rw [List.find?_eq_bind_findIdx?_getElem?, List.eraseP_eq_eraseIdx]
  unfold TransactionScheduler.requeueUnstarted
  cases s.runningTxns.findIdx? fun t => t.id = id with
  | none => rfl
  | some pos =>
      simp only [Option.bind_some]
      cases s.runningTxns[pos]? with
      | none => rfl
      | some item => rfl

theorem restrict_requeue_own (hid : dbName id = db) :
    (restrict dbName db s).requeueUnstarted id = restrict dbName db (s.requeueUnstarted id) := by
  have hsame : (fun t : TxnQueueItem => decide (t.id = id) && ofDb dbName db t) =
      fun t => decide (t.id = id) := by
    funext t
    by_cases heq : t.id = id
    · simp [ofDb, heq, hid]
    · simp [heq]
  have hfind : (s.runningTxns.filter (ofDb dbName db)).find? (fun t => decide (t.id = id)) =
      s.runningTxns.find? fun t => decide (t.id = id) := by
    rw [List.find?_filter]
    congr 1
    funext t
    by_cases heq : t.id = id
    · simp [ofDb, heq, hid]
    · simp [heq]
  rw [requeueUnstarted_eq, requeueUnstarted_eq]
  show Option.elim ((s.runningTxns.filter (ofDb dbName db)).find? _) _ _ = _
  rw [hfind]
  cases hitem : s.runningTxns.find? fun t => decide (t.id = id) with
  | none => rfl
  | some item =>
      have hown : ofDb dbName db item = true := by
        have heq : item.id = id := by simpa using List.find?_some hitem
        simp [ofDb, heq, hid]
      simp only [Option.elim_some, restrict, List.eraseP_filter, hsame,
        List.filter_cons_of_pos hown]

theorem restrict_requeue_other (hid : dbName id ≠ db) :
    restrict dbName db (s.requeueUnstarted id) = restrict dbName db s := by
  rcases requeueUnstarted_cases s id with hsame | ⟨item, left, right, rfl, hrunning, hmoved⟩
  · rw [hsame]
  · have hother : ¬ofDb dbName db item = true := by simp [ofDb, hid]
    rw [hmoved, restrict, restrict, hrunning, List.filter_cons_of_neg hother, List.filter_append,
      List.filter_append, List.filter_cons_of_neg hother]

/-- Where nobody waits for another database alone, a poll does for each database what it would
do without the others. -/
theorem restrict_poll
    (h : Decoupled conflicts (ofDb dbName db) s.runningTxns s.pendingQueue) :
    (startable s).filter (ofDb dbName db) = startable (restrict dbName db s) ∧
      (restrict dbName db s).pollReady.1 = restrict dbName db s.pollReady.1 := by
  obtain ⟨hadmitted, hdeferred⟩ := filter_pass h
  refine ⟨hadmitted, ?_⟩
  have hrunning : (s.runningTxns ++ startable s).filter (ofDb dbName db) =
      s.runningTxns.filter (ofDb dbName db) ++ startable (restrict dbName db s) := by
    rw [List.filter_append]
    exact congrArg _ hadmitted
  calc (restrict dbName db s).pollReady.1
      = ⟨deferred conflicts (s.runningTxns.filter (ofDb dbName db))
            (s.pendingQueue.filter (ofDb dbName db)),
          s.runningTxns.filter (ofDb dbName db) ++ startable (restrict dbName db s)⟩ := by
        rw [pollReady_eq]
        rfl
    _ = ⟨(deferred conflicts s.runningTxns s.pendingQueue).filter (ofDb dbName db),
          (s.runningTxns ++ startable s).filter (ofDb dbName db)⟩ := by
        rw [hdeferred, hrunning]
    _ = restrict dbName db s.pollReady.1 := by
        rw [pollReady_eq s]
        rfl

theorem OwnConflicts.decoupled {t : Traffic} (h : OwnConflicts dbName t .pollReady) (db : String) :
    Decoupled conflicts (ofDb dbName db) t.scheduler.runningTxns t.scheduler.pendingQueue := by
  intro ahead c rest hqueue hown hconflict
  obtain ⟨p, hp, hc⟩ := hconflict
  obtain ⟨own, hmem, hdb, hownc⟩ := h rfl ahead c rest hqueue ⟨p, hp, (conflicts_iff _ _).mp hc⟩
  refine ⟨own, hmem, ?_, (conflicts_iff _ _).mpr hownc⟩
  have hcdb : dbName c.id = db := by simpa [ofDb] using hown
  simp [ofDb, hdb, hcdb]

/-- One call, seen by one database. -/
theorem restrict_behind {t : Traffic} {call : Call} (h : OwnConflicts dbName t call) (db : String) :
    restrict dbName db (behind t.scheduler call) =
      if concerns dbName db call then behind (restrict dbName db t.scheduler) call
      else restrict dbName db t.scheduler := by
  cases call with
  | enqueue item =>
      show restrict dbName db ⟨_ ++ [item], _⟩ = _
      by_cases hdb : dbName item.id = db
      · have hown : ofDb dbName db item = true := by simp [ofDb, hdb]
        simp [concerns, hdb, restrict, behind, enqueue, List.filter_append, hown]
      · have hother : ofDb dbName db item = false := by simp [ofDb, hdb]
        simp [concerns, hdb, restrict, List.filter_append, hother]
  | pollReady => exact (restrict_poll (h.decoupled db)).2.symm
  | onTxnFinished id =>
      by_cases hdb : dbName id = db
      · simp only [concerns, hdb, decide_true, if_true]
        rw [behind, behind, onTxnFinished, onTxnFinished, restrict, restrict, filter_own]
      · simp only [concerns, hdb, decide_false, Bool.false_eq_true, if_false]
        rw [behind, onTxnFinished, restrict, restrict, filter_other _ hdb]
  | requeueUnstarted id =>
      by_cases hdb : dbName id = db
      · simp only [concerns, hdb, decide_true, if_true]
        exact (restrict_requeue_own hdb).symm
      · simp only [concerns, hdb, decide_false, Bool.false_eq_true, if_false]
        exact restrict_requeue_other hdb
  | forget id =>
      by_cases hdb : dbName id = db
      · simp only [concerns, hdb, decide_true, if_true]
        rw [behind, behind, forget, forget, restrict, restrict, filter_own, filter_own]
      · simp only [concerns, hdb, decide_false, Bool.false_eq_true, if_false]
        rw [behind, forget, restrict, restrict, filter_other _ hdb, filter_other _ hdb]

end Restrict

/-! ### Over a run -/

section Runs

variable {dbName : TxnId → String} {taken : List (Traffic × Call)} {t t' : Traffic} {call : Call}

theorem step_scheduler (h : Traffic.Step t call t') : t'.scheduler = behind t.scheduler call := by
  cases h <;> rfl

theorem alone_append (db : String) (calls : List Call) (call : Call) :
    alone dbName db (calls ++ [call]) =
      if concerns dbName db call then behind (alone dbName db calls) call
      else alone dbName db calls := by
  rw [alone, List.filter_append, List.foldl_append]
  by_cases hdb : concerns dbName db call = true
  · rw [List.filter_cons_of_pos hdb, if_pos hdb]
    rfl
  · rw [List.filter_cons_of_neg hdb, if_neg hdb]
    rfl

/-- Induction on the run: behind polls without foreign obstacles each database finds the
scheduler as it would have left it alone. -/
theorem alone_eq_restrict (h : Run Traffic.Step Traffic.new taken t)
    (hown : EachStep (OwnConflicts dbName) taken) (db : String) :
    alone dbName db (taken.map Prod.snd) = restrict dbName db t.scheduler := by
  induction h with
  | start => rfl
  | @step taken s s' call h hstep ih =>
      obtain ⟨hbefore, hlast⟩ := eachStep_append.mp hown
      rw [List.map_append, List.map_singleton, alone_append, ih hbefore, step_scheduler hstep,
        restrict_behind hlast]

/-- At one poll. -/
theorem released_iff_ownConflicts (h : t.Inv) :
    (∀ id, id ∈ t.scheduler.pollReady.2 ↔
        id ∈ (restrict dbName (dbName id) t.scheduler).pollReady.2) ↔
      OwnConflicts dbName t .pollReady := by
  constructor
  · intro hsame _ ahead c rest hqueue hconflict
    by_contra hnone
    push Not at hnone
    -- Alone, the entry would be started.
    have hown : ofDb dbName (dbName c.id) c = true := by simp [ofDb]
    have hfree : c ∈ startable (restrict dbName (dbName c.id) t.scheduler) := by
      refine mem_startable_iff.mpr ⟨ahead.filter (ofDb dbName (dbName c.id)),
        rest.filter (ofDb dbName (dbName c.id)), ?_, ?_⟩
      · show t.scheduler.pendingQueue.filter _ = _
        rw [hqueue, List.filter_append, List.filter_cons_of_pos hown]
      · intro p hp
        rw [restrict, ← List.filter_append] at hp
        obtain ⟨hmem, hdb⟩ := List.mem_filter.mp hp
        exact hnone p hmem (by simpa [ofDb] using hdb)
    have hreleased : c.id ∈ (restrict dbName (dbName c.id) t.scheduler).pollReady.2 := by
      rw [pollReady_eq]
      exact List.mem_map_of_mem hfree
    obtain ⟨hrunning, hahead⟩ := (h.started_iff hqueue).mp ((hsame c.id).mpr hreleased)
    obtain ⟨p, hp, hc⟩ := hconflict
    rcases List.mem_append.mp hp with hp | hp
    · exact hrunning p hp hc
    · exact hahead p hp hc
  · intro hown id
    rw [pollReady_eq, pollReady_eq, ← (restrict_poll (hown.decoupled (dbName id))).1]
    constructor
    · intro hid
      obtain ⟨c, hc, rfl⟩ := List.mem_map.mp hid
      exact List.mem_map_of_mem (List.mem_filter.mpr ⟨hc, by simp [ofDb]⟩)
    · intro hid
      obtain ⟨c, hc, rfl⟩ := List.mem_map.mp hid
      exact List.mem_map_of_mem (List.mem_of_mem_filter hc)

theorem independent_append :
    Independent dbName (taken ++ [(t, call)]) ↔ Independent dbName taken ∧
      (call = .pollReady → ∀ id, id ∈ t.scheduler.pollReady.2 ↔
        id ∈ (alone dbName (dbName id) (taken.map Prod.snd)).pollReady.2) := by
  constructor
  · intro h
    refine ⟨fun before s hpart => h before s (hpart.trans (List.prefix_append _ _)), ?_⟩
    rintro rfl
    exact h taken t (List.prefix_refl _)
  · rintro ⟨h, hlast⟩ before s hpart
    rcases List.prefix_concat_iff.mp hpart with heq | hpart
    · obtain ⟨rfl, hpair⟩ := List.append_inj' heq rfl
      obtain ⟨rfl, rfl⟩ := Prod.mk.inj (List.singleton_inj.mp hpair)
      exact hlast rfl
    · exact h before s hpart

end Runs

/-- **The databases are independent in scheduling** exactly in the runs in which nobody waits
for another database alone. -/
theorem independent_iff (dbName : TxnId → String) (taken : List (Traffic × Call)) (t : Traffic)
    (h : Run Traffic.Step Traffic.new taken t) :
    Independent dbName taken ↔ EachStep (OwnConflicts dbName) taken := by
  induction h with
  | start =>
      refine ⟨fun _ => eachStep_nil, fun _ before s hpart => ?_⟩
      exact absurd (List.prefix_nil.mp hpart) (by simp)
  | @step taken s s' call h hstep ih =>
      rw [independent_append, eachStep_append, ih]
      refine and_congr_right fun hown => ?_
      constructor
      · rintro hsame rfl
        refine (released_iff_ownConflicts (h.invariant Traffic.inv_new .step)).mp ?_ rfl
        intro id
        rw [hsame rfl id, alone_eq_restrict h hown]
      · rintro hlast rfl id
        rw [alone_eq_restrict h hown]
        exact (released_iff_ownConflicts (h.invariant Traffic.inv_new .step)).mpr hlast id

/-- Two databases, with two writers of their stores 1, or an upgrade of the first. -/
def twoDatabases (txnId : TxnId) : String := if txnId = 1 then "a" else "b"

def equalStoreIds : List Call :=
  [createTxn 1 .readWrite [1], createTxn 2 .readWrite [1], .pollReady]

def upgradeOfAnother : List Call :=
  [startUpgradeTxn 1, createTxn 2 .readOnly [1], .pollReady]

theorem run_twoDatabases (mode : TxnMode) (scope scope' : List StoreId) (mode' : TxnMode) :
    ∃ t, Run Traffic.Step Traffic.new
      [(Traffic.new, createTxn 1 mode scope),
        ({ Traffic.new with
            scheduler := ⟨[⟨1, mode, scope⟩], []⟩
            enqueued := [⟨1, mode, scope⟩] }, createTxn 2 mode' scope'),
        ({ Traffic.new with
            scheduler := ⟨[⟨1, mode, scope⟩, ⟨2, mode', scope'⟩], []⟩
            enqueued := [⟨1, mode, scope⟩, ⟨2, mode', scope'⟩] }, .pollReady)] t :=
  ⟨_, ((Run.start.step (.enqueue _ _ (by simp [Traffic.new]))).step
    (.enqueue _ _ (by simp))).step (.pollReady _)⟩

/-- Equal store ids and an upgrade of another database both hold a transaction back. -/
theorem not_independent :
    (∃ taken t, Run Traffic.Step Traffic.new taken t ∧ taken.map Prod.snd = equalStoreIds ∧
        ¬Independent twoDatabases taken) ∧
      ∃ taken t, Run Traffic.Step Traffic.new taken t ∧ taken.map Prod.snd = upgradeOfAnother ∧
        ¬Independent twoDatabases taken := by
  obtain ⟨t, hids⟩ := run_twoDatabases .readWrite [1] [1] .readWrite
  obtain ⟨u, hupgrade⟩ := run_twoDatabases .versionChange [] [1] .readOnly
  refine ⟨⟨_, t, hids, rfl, fun h => ?_⟩, _, u, hupgrade, rfl, fun h => ?_⟩
  · have hsame := h [_, _] _ (List.prefix_refl _) 2
    revert hsame
    decide
  · have hsame := h [_, _] _ (List.prefix_refl _) 2
    revert hsame
    decide

theorem independent_iff_equalStoreIds :
    ∃ taken t, Run Traffic.Step Traffic.new taken t ∧ taken.map Prod.snd = equalStoreIds ∧
      (Independent twoDatabases taken ↔ EachStep (OwnConflicts twoDatabases) taken) := by
  obtain ⟨t, hids⟩ := run_twoDatabases .readWrite [1] [1] .readWrite
  exact ⟨_, t, hids, rfl, independent_iff twoDatabases _ t hids⟩

end Scheduler

end BoaIdb
