import BoaIdb.Engine.Scheduler
import BoaIdb.Lib.Admission

/-!
One poll of the scheduler starts all that can start: it is one pass of admission.
-/

namespace BoaIdb

open Admission Runs

namespace Scheduler

open TransactionScheduler

variable {candidate c : TxnQueueItem} {earlier running kept rest : List TxnQueueItem}
  {s : TransactionScheduler}

theorem any_versionChange {l : List TxnQueueItem}
    (h : l.any (fun other => decide (other.mode = .versionChange)) = true) :
    l.any (conflicts candidate) = true := by
  obtain ⟨other, hmem, hmode⟩ := List.any_eq_true.mp h
  refine List.any_eq_true.mpr ⟨other, hmem, (conflicts_iff _ _).mpr (.inr (.inl ?_))⟩
  exact of_decide_eq_true hmode

/-- The first two tests of `can_start` are cases of the other two. -/
theorem canStart_eq :
    canStart candidate earlier running = !(earlier ++ running).any (conflicts candidate) := by
  unfold canStart
  rw [List.any_append]
  split
  · next h => rw [any_versionChange h, Bool.true_or, Bool.not_true]
  · split
    · next h => rw [any_versionChange h, Bool.or_true, Bool.not_true]
    · split
      · next h => rw [h, Bool.or_true, Bool.not_true]
      · next h => rw [eq_false_of_ne_true h, Bool.or_false]

theorem canStart_eq_false_iff :
    canStart candidate earlier running = false ↔
      ∃ p ∈ earlier ++ running, conflicts candidate p = true := by
  rw [canStart_eq, Bool.not_eq_false', List.any_eq_true]

/-- The loop of `poll_ready` is a pass of admission; what it has passed over is what it has kept
and what is running by then. -/
theorem pollFrom_eq {past : List TxnQueueItem} (ready : List TxnId)
    (hpast : ∀ x, x ∈ past ↔ x ∈ kept ++ running) :
    pollFrom kept rest running ready =
      (⟨kept ++ deferred conflicts past rest, running ++ admitted conflicts past rest⟩,
        ready ++ (admitted conflicts past rest).map TxnQueueItem.id) := by
  induction rest generalizing kept running ready past with
  | nil =>
      rw [pollFrom, deferred, admitted, List.append_nil, List.append_nil, List.map_nil,
        List.append_nil]
  | cons c rest ih =>
      have hany : past.any (conflicts c) = (kept ++ running).any (conflicts c) :=
        any_congr hpast
      rw [pollFrom, canStart_eq, ← hany, deferred, admitted]
      cases past.any (conflicts c) with
      | true =>
          have hkept : ∀ x, x ∈ past ++ [c] ↔ x ∈ kept ++ [c] ++ running := by
            intro x
            simp only [List.mem_append, List.mem_singleton, hpast x]
            tauto
          simp only [Bool.not_true, Bool.false_eq_true, if_false, if_true]
          rw [ih ready hkept, List.append_assoc, List.singleton_append]
      | false =>
          have hstarted : ∀ x, x ∈ past ++ [c] ↔ x ∈ kept ++ (running ++ [c]) := by
            intro x
            simp only [List.mem_append, List.mem_singleton, hpast x]
            tauto
          simp only [Bool.not_false, Bool.false_eq_true, if_false, if_true]
          rw [ih (ready ++ [c.id]) hstarted, List.append_assoc, List.append_assoc,
            List.singleton_append, List.singleton_append, List.map_cons]

/-- What a poll starts. -/
def startable (s : TransactionScheduler) : List TxnQueueItem :=
  admitted conflicts s.runningTxns s.pendingQueue

theorem pollReady_eq (s : TransactionScheduler) :
    s.pollReady = (⟨deferred conflicts s.runningTxns s.pendingQueue, s.runningTxns ++ startable s⟩,
      (startable s).map TxnQueueItem.id) := by
  have hpast : ∀ x, x ∈ s.runningTxns ↔ x ∈ [] ++ s.runningTxns := fun x => by
    rw [List.nil_append]
  rw [pollReady, pollFrom_eq [] hpast, List.nil_append, List.nil_append]
  rfl

theorem mem_startable_iff :
    c ∈ startable s ↔ ∃ ahead behind, s.pendingQueue = ahead ++ c :: behind ∧
      ∀ p ∈ s.runningTxns ++ ahead, ¬Conflict c p := by
  rw [startable, mem_admitted_iff]
  simp only [← conflicts_iff, Bool.not_eq_true]

/-- A second poll starts nothing. -/
theorem pollReady_again (s : TransactionScheduler) :
    s.pollReady.1.pollReady = (s.pollReady.1, []) := by
  rw [pollReady_eq s.pollReady.1, startable, pollReady_eq s]
  obtain ⟨hadmitted, hdeferred⟩ := @settled _ conflicts s.runningTxns s.pendingQueue
    (s.runningTxns ++ startable s) fun _ h => h
  rw [hadmitted, hdeferred, List.append_nil, List.map_nil]

theorem canStart_pollReady {ahead behind : List TxnQueueItem}
    (h : s.pollReady.1.pendingQueue = ahead ++ c :: behind) :
    canStart c ahead s.pollReady.1.runningTxns = false := by
  rw [canStart_eq_false_iff]
  by_contra hnone
  push Not at hnone
  have hmem : c ∈ startable s.pollReady.1 := by
    refine mem_startable_iff.mpr ⟨ahead, behind, h, fun p hp hconflict => ?_⟩
    refine hnone p ?_ ((conflicts_iff _ _).mpr hconflict)
    exact List.mem_append.mpr (List.mem_append.mp hp).symm
  have hids : (startable s.pollReady.1).map TxnQueueItem.id = [] := by
    have hagain := congrArg Prod.snd (pollReady_again s)
    rwa [pollReady_eq s.pollReady.1] at hagain
  rw [List.map_eq_nil_iff.mp hids] at hmem
  cases hmem

/-- With nothing running the head of the queue is the first to start. -/
theorem startable_head (h : s.runningTxns = []) (hpending : s.pendingQueue = c :: rest) :
    (startable s).head? = some c := by
  rw [startable, h, hpending, admitted]
  rfl

/-! ### In every run -/

namespace Traffic

variable {t : Traffic}

theorem Inv.nodup_pendingQueue (h : t.Inv) : t.scheduler.pendingQueue.Nodup := by
  have hall := h.placed.2.nodup_iff.mpr h.nodup
  exact ((List.nodup_append.mp hall).1.of_append_left)

/-- An entry is started exactly when its id is among those returned. -/
theorem Inv.mem_startable (h : t.Inv) (hc : c ∈ t.scheduler.pendingQueue) :
    c.id ∈ t.scheduler.pollReady.2 ↔ c ∈ startable t.scheduler := by
  rw [pollReady_eq, List.mem_map]
  constructor
  · rintro ⟨other, hother, hid⟩
    have hmem : other ∈ t.scheduler.pendingQueue := admitted_sublist.subset hother
    rw [← h.eq_of_id (h.mem_enqueued (.inl hmem)) (h.mem_enqueued (.inl hc)) hid]
    exact hother
  · intro hmem
    exact ⟨c, hmem, rfl⟩

/-- The place of an entry in the queue is the only one it has. -/
theorem Inv.started_iff (h : t.Inv) {ahead behind : List TxnQueueItem}
    (hqueue : t.scheduler.pendingQueue = ahead ++ c :: behind) :
    c.id ∈ t.scheduler.pollReady.2 ↔
      (∀ r ∈ t.scheduler.runningTxns, ¬Conflict c r) ∧ ∀ p ∈ ahead, ¬Conflict c p := by
  have hnodup := h.nodup_pendingQueue
  rw [hqueue] at hnodup
  have hmem : c ∈ t.scheduler.pendingQueue := by
    rw [hqueue]
    exact List.mem_append_right _ List.mem_cons_self
  rw [h.mem_startable hmem, mem_startable_iff, ← List.forall_mem_append]
  constructor
  · rintro ⟨ahead', behind', hqueue', hfree⟩
    have hahead : c ∉ ahead := fun hc =>
      (List.nodup_append.mp hnodup).2.2 c hc c List.mem_cons_self rfl
    have hbehind : c ∉ behind :=
      (List.nodup_cons.mp (List.nodup_append.mp hnodup).2.1).1
    obtain ⟨rfl, -, -⟩ := (List.append_cons_inj_of_notMem hahead hbehind).mp
      (hqueue.symm.trans hqueue')
    exact hfree
  · intro hfree
    exact ⟨ahead, behind, hqueue, hfree⟩

/-- What a poll leaves in the queue is what it does not start. -/
theorem Inv.mem_pendingQueue_pollReady (h : t.Inv) :
    c ∈ t.scheduler.pollReady.1.pendingQueue ↔
      c ∈ t.scheduler.pendingQueue ∧ c.id ∉ t.scheduler.pollReady.2 := by
  have hperm := @perm_pass _ conflicts t.scheduler.runningTxns t.scheduler.pendingQueue
  have hapart := (List.nodup_append.mp (hperm.nodup_iff.mpr h.nodup_pendingQueue)).2.2
  rw [show t.scheduler.pollReady.1.pendingQueue =
    deferred conflicts t.scheduler.runningTxns t.scheduler.pendingQueue by rw [pollReady_eq]]
  constructor
  · intro hc
    have hmem := hperm.subset (List.mem_append_left _ hc)
    refine ⟨hmem, fun hid => ?_⟩
    exact hapart c hc c ((h.mem_startable hmem).mp hid) rfl
  · rintro ⟨hmem, hid⟩
    rcases List.mem_append.mp (hperm.symm.subset hmem) with hc | hc
    · exact hc
    · exact absurd ((h.mem_startable hmem).mpr hc) hid

theorem Inv.mem_runningTxns_pollReady (h : t.Inv) :
    c ∈ t.scheduler.pollReady.1.runningTxns ↔
      c ∈ t.scheduler.runningTxns ∨
        c ∈ t.scheduler.pendingQueue ∧ c.id ∈ t.scheduler.pollReady.2 := by
  rw [show t.scheduler.pollReady.1.runningTxns =
    t.scheduler.runningTxns ++ startable t.scheduler by rw [pollReady_eq], List.mem_append]
  apply or_congr_right
  constructor
  · intro hc
    have hmem := admitted_sublist.subset hc
    exact ⟨hmem, (h.mem_startable hmem).mpr hc⟩
  · rintro ⟨hmem, hid⟩
    exact (h.mem_startable hmem).mp hid

/-- What a poll of a scheduler achieves. -/
structure WorkConserving (s : TransactionScheduler) : Prop where
  /-- It starts exactly the entries that conflict neither with a running one nor with one ahead. -/
  maximal : ∀ ahead c behind, s.pendingQueue = ahead ++ c :: behind →
    (c.id ∈ s.pollReady.2 ↔
      (∀ r ∈ s.runningTxns, ¬Conflict c r) ∧ ∀ p ∈ ahead, ¬Conflict c p)
  /-- Only entries of the queue are started. -/
  pending : ∀ id ∈ s.pollReady.2, ∃ c ∈ s.pendingQueue, c.id = id
  /-- The started entries run, -/
  runs : ∀ c, c ∈ s.pollReady.1.runningTxns ↔
    c ∈ s.runningTxns ∨ c ∈ s.pendingQueue ∧ c.id ∈ s.pollReady.2
  /-- and the others wait. -/
  waits : ∀ c, c ∈ s.pollReady.1.pendingQueue ↔ c ∈ s.pendingQueue ∧ c.id ∉ s.pollReady.2
  /-- None of those that wait could start, -/
  exhausted : ∀ ahead c behind, s.pollReady.1.pendingQueue = ahead ++ c :: behind →
    canStart c ahead s.pollReady.1.runningTxns = false
  /-- and a second poll changes nothing. -/
  again : s.pollReady.1.pollReady = (s.pollReady.1, [])
  /-- An idle scheduler starts the head of its queue. -/
  idle : s.runningTxns = [] → ∀ c rest, s.pendingQueue = c :: rest →
    s.pollReady.2.head? = some c.id

theorem Inv.workConserving (h : t.Inv) : WorkConserving t.scheduler where
  maximal := fun _ _ _ hqueue => h.started_iff hqueue
  pending := by
    intro id hid
    rw [pollReady_eq] at hid
    obtain ⟨c, hc, rfl⟩ := List.mem_map.mp hid
    exact ⟨c, admitted_sublist.subset hc, rfl⟩
  runs := fun _ => h.mem_runningTxns_pollReady
  waits := fun _ => h.mem_pendingQueue_pollReady
  exhausted := fun _ _ _ hqueue => canStart_pollReady hqueue
  again := pollReady_again t.scheduler
  idle := by
    intro hidle c rest hqueue
    rw [pollReady_eq, List.head?_map, startable_head hidle hqueue]
    rfl

end Traffic

/-- **A poll is maximal**, in every state the calls of the scheduler reach. -/
theorem poll_workConserving (taken : List (Traffic × Call)) (t : Traffic)
    (h : Run Traffic.Step Traffic.new taken t) : Traffic.WorkConserving t.scheduler :=
  Traffic.Inv.workConserving (h.invariant Traffic.inv_new .step)

theorem poll_workConserving_twoWriters :
    ∃ taken t, taken.map Prod.snd = twoWriters ∧ Run Traffic.Step Traffic.new taken t ∧
      Traffic.WorkConserving t.scheduler := by
  obtain ⟨taken, t, hrun, hcalls⟩ := run_twoWriters
  exact ⟨taken, t, hcalls, hrun, poll_workConserving taken t hrun⟩

end Scheduler

end BoaIdb
