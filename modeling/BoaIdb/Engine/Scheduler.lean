import BoaIdb.Core.Types
import BoaIdb.Lib.FairQueue
import BoaIdb.Lib.Run

/-!
The transaction scheduler, and what it guarantees over all runs of its five operations.
-/

namespace BoaIdb

open FairQueue Runs

abbrev TxnId := UInt64

namespace Scheduler

/-- A transaction request. -/
structure TxnQueueItem where
  id : TxnId
  mode : TxnMode
  scope : List StoreId
  deriving DecidableEq, Repr

structure TransactionScheduler where
  pendingQueue : List TxnQueueItem
  runningTxns : List TxnQueueItem
  deriving DecidableEq, Repr

def conflicts (a b : TxnQueueItem) : Bool :=
  if a.mode = .versionChange ∨ b.mode = .versionChange then true
  else if a.mode = .readOnly ∧ b.mode = .readOnly then false
  else a.scope.any fun s => decide (s ∈ b.scope)

/-- Whether a candidate may start behind the entries ahead of it in the queue. -/
def canStart (candidate : TxnQueueItem) (earlier running : List TxnQueueItem) : Bool :=
  if earlier.any (fun other => decide (other.mode = .versionChange)) then false
  else if running.any (fun other => decide (other.mode = .versionChange)) then false
  else if running.any (conflicts candidate) then false
  else !earlier.any (conflicts candidate)

namespace TransactionScheduler

/-- `new`. -/
def new : TransactionScheduler := ⟨[], []⟩

def enqueue (s : TransactionScheduler) (item : TxnQueueItem) : TransactionScheduler :=
  { s with pendingQueue := s.pendingQueue ++ [item] }

/-- The loop of `poll_ready`: `kept` are the entries it has passed over, `rest` those from its
position on. -/
def pollFrom (kept : List TxnQueueItem) : List TxnQueueItem → List TxnQueueItem → List TxnId →
    TransactionScheduler × List TxnId
  | [], running, ready => (⟨kept, running⟩, ready)
  | candidate :: rest, running, ready =>
      if canStart candidate kept running then
        pollFrom kept rest (running ++ [candidate]) (ready ++ [candidate.id])
      else pollFrom (kept ++ [candidate]) rest running ready

/-- Starts what can start, and returns the ids. -/
def pollReady (s : TransactionScheduler) : TransactionScheduler × List TxnId :=
  pollFrom [] s.pendingQueue s.runningTxns []

def onTxnFinished (s : TransactionScheduler) (id : TxnId) : TransactionScheduler :=
  { s with runningTxns := s.runningTxns.filter fun t => t.id ≠ id }

/-- Moves a running transaction without a backend back to the front of the queue. -/
def requeueUnstarted (s : TransactionScheduler) (id : TxnId) : TransactionScheduler :=
  match s.runningTxns.findIdx? fun t => t.id = id with
  | none => s
  | some pos =>
      match s.runningTxns[pos]? with
      | none => s
      | some item =>
          { s with
            pendingQueue := item :: s.pendingQueue
            runningTxns := s.runningTxns.eraseIdx pos }

/-- Forgets a transaction entirely. -/
def forget (s : TransactionScheduler) (id : TxnId) : TransactionScheduler :=
  { s with
    pendingQueue := s.pendingQueue.filter fun t => t.id ≠ id
    runningTxns := s.runningTxns.filter fun t => t.id ≠ id }

end TransactionScheduler

theorem requeueUnstarted_cases (s : TransactionScheduler) (id : TxnId) :
    s.requeueUnstarted id = s ∨ ∃ item left right, item.id = id ∧
      s.runningTxns = left ++ item :: right ∧
      s.requeueUnstarted id = ⟨item :: s.pendingQueue, left ++ right⟩ := by
  unfold TransactionScheduler.requeueUnstarted
  split
  · exact .inl rfl
  · next pos hpos =>
      obtain ⟨hlt, hid, -⟩ := List.findIdx?_eq_some_iff_getElem.mp hpos
      rw [List.getElem?_eq_getElem hlt]
      refine .inr ⟨s.runningTxns[pos], s.runningTxns.take pos, s.runningTxns.drop (pos + 1),
        of_decide_eq_true hid, ?_, ?_⟩
      · rw [List.getElem_cons_drop, List.take_append_drop]
      · rw [List.eraseIdx_eq_take_drop_succ]

/-! ### Conflicts -/

/-- Overlapping scopes with at least one writer, or either of them a versionchange. -/
def Conflict (a b : TxnQueueItem) : Prop :=
  a.mode = .versionChange ∨ b.mode = .versionChange ∨
    (a.mode = .readWrite ∨ b.mode = .readWrite) ∧ ∃ s ∈ a.scope, s ∈ b.scope

theorem conflict_symm (a b : TxnQueueItem) (h : Conflict a b) : Conflict b a := by
  rcases h with h | h | ⟨hmode, s, ha, hb⟩
  · exact .inr (.inl h)
  · exact .inl h
  · exact .inr (.inr ⟨hmode.symm, s, hb, ha⟩)

theorem conflicts_iff (a b : TxnQueueItem) : conflicts a b = true ↔ Conflict a b := by
  unfold conflicts Conflict
  split
  · next h =>
      refine ⟨fun _ => ?_, fun _ => rfl⟩
      rcases h with h | h
      · exact .inl h
      · exact .inr (.inl h)
  · next h =>
      obtain ⟨ha, hb⟩ := not_or.mp h
      split
      · next hread => simp [hread.1, hread.2]
      · next hread =>
          have hwrites : a.mode = .readWrite ∨ b.mode = .readWrite := by
            cases hma : a.mode <;> cases hmb : b.mode <;> simp_all
          simp [ha, hb, hwrites]

/-- A candidate that may start conflicts with nothing ahead of it. -/
theorem canStart_apart {candidate : TxnQueueItem} {earlier running : List TxnQueueItem}
    (h : canStart candidate earlier running = true) :
    (∀ p ∈ earlier, ¬Conflict candidate p) ∧ ∀ r ∈ running, ¬Conflict candidate r := by
  unfold canStart at h
  split at h
  · cases h
  · split at h
    · cases h
    · split at h
      · cases h
      · next hrunning =>
          constructor
          · intro p hp hconflict
            have hany : earlier.any (conflicts candidate) = true :=
              List.any_eq_true.mpr ⟨p, hp, (conflicts_iff _ _).mpr hconflict⟩
            rw [hany] at h
            cases h
          · intro r hr hconflict
            exact hrunning (List.any_eq_true.mpr ⟨r, hr, (conflicts_iff _ _).mpr hconflict⟩)

/-! ### One poll -/

section Poll

open TransactionScheduler

variable {Before : TxnQueueItem → TxnQueueItem → Prop}

/-- What a poll does: the started entries move over, and what came before one of them and
conflicts with it had left already. -/
structure Polls (Before : TxnQueueItem → TxnQueueItem → Prop) (pending running : List TxnQueueItem)
    (started : List TxnQueueItem) (s : TransactionScheduler) : Prop where
  fair : Fair Conflict Before s.pendingQueue s.runningTxns
  perm : (s.pendingQueue ++ s.runningTxns).Perm (pending ++ running)
  moved : s.runningTxns = running ++ started
  first : ∀ b ∈ started, ∀ a, Before a b → Conflict a b → a ∉ pending ∧ a ∉ running

/-- Induction on the rest of the queue; the invariant is `Fair`. -/
theorem polls_pollFrom (hasymm : ∀ a b, Before a b → ¬Before b a)
    (kept rest running : List TxnQueueItem) (ready : List TxnId)
    (h : Fair Conflict Before (kept ++ rest) running) :
    ∃ started, (pollFrom kept rest running ready).2 = ready ++ started.map TxnQueueItem.id ∧
      Polls Before (kept ++ rest) running started (pollFrom kept rest running ready).1 := by
  induction rest generalizing kept running ready with
  | nil =>
      rw [List.append_nil] at h ⊢
      exact ⟨[], (List.append_nil ready).symm, h, .refl _, (List.append_nil running).symm,
        fun _ hb => absurd hb List.not_mem_nil⟩
  | cons candidate rest ih =>
      rw [pollFrom]
      split
      · next hstart =>
          obtain ⟨hkept, hrunning⟩ := canStart_apart hstart
          obtain ⟨started, hready, hpolls⟩ := ih kept (running ++ [candidate])
            (ready ++ [candidate.id]) (h.start conflict_symm hkept hrunning)
          refine ⟨candidate :: started, ?_, hpolls.fair, ?_, ?_, ?_⟩
          · rw [hready, List.append_assoc]
            rfl
          · exact hpolls.perm.trans (perm_start kept rest running candidate)
          · rw [hpolls.moved, List.append_assoc]
            rfl
          · intro b hb a hbefore hconflict
            rcases List.mem_cons.mp hb with rfl | hb
            · exact h.left_of_start hasymm hkept hrunning hbefore (conflict_symm _ _ hconflict)
            · obtain ⟨hpending, hrun⟩ := hpolls.first b hb a hbefore hconflict
              refine ⟨fun hmem => ?_, fun hmem => hrun (List.mem_append_left _ hmem)⟩
              rcases List.mem_append.mp hmem with hmem | hmem
              · exact hpending (List.mem_append_left _ hmem)
              · rcases List.mem_cons.mp hmem with rfl | hmem
                · exact hrun (List.mem_append_right _ (List.mem_singleton.mpr rfl))
                · exact hpending (List.mem_append_right _ hmem)
      · rw [show kept ++ candidate :: rest = kept ++ [candidate] ++ rest by simp] at h ⊢
        exact ih (kept ++ [candidate]) running ready h

end Poll

/-! ### Runs -/

/-- A call of the scheduler. -/
inductive Call
  | enqueue (item : TxnQueueItem)
  | pollReady
  | onTxnFinished (id : TxnId)
  | requeueUnstarted (id : TxnId)
  | forget (id : TxnId)

/-- The scheduler with its history: what was enqueued, in order, the ids that were started, and
the entries that ended while they ran or were forgotten. -/
structure Traffic where
  scheduler : TransactionScheduler
  enqueued : List TxnQueueItem
  started : List TxnId
  finished : List TxnQueueItem
  forgotten : List TxnQueueItem

namespace Traffic

def new : Traffic := ⟨.new, [], [], [], []⟩

/-- Any call at any time; the ids that are enqueued are distinct. -/
inductive Step : Traffic → Call → Traffic → Prop
  | enqueue (t : Traffic) (item : TxnQueueItem) (hnew : ∀ other ∈ t.enqueued, other.id ≠ item.id) :
      Step t (.enqueue item)
        { t with
          scheduler := t.scheduler.enqueue item
          enqueued := t.enqueued ++ [item] }
  | pollReady (t : Traffic) :
      Step t .pollReady
        { t with
          scheduler := t.scheduler.pollReady.1
          started := t.started ++ t.scheduler.pollReady.2 }
  | onTxnFinished (t : Traffic) (id : TxnId) :
      Step t (.onTxnFinished id)
        { t with
          scheduler := t.scheduler.onTxnFinished id
          finished := t.finished ++ t.scheduler.runningTxns.filter fun other => other.id = id }
  | requeueUnstarted (t : Traffic) (id : TxnId) :
      Step t (.requeueUnstarted id) { t with scheduler := t.scheduler.requeueUnstarted id }
  | forget (t : Traffic) (id : TxnId) :
      Step t (.forget id)
        { t with
          scheduler := t.scheduler.forget id
          forgotten := t.forgotten ++
            (t.scheduler.pendingQueue.filter (fun other => other.id = id) ++
              t.scheduler.runningTxns.filter fun other => other.id = id) }

/-- The order in which two entries were enqueued. -/
def Before (t : Traffic) (a b : TxnQueueItem) : Prop := [a, b].Sublist t.enqueued

/-- No two running transactions conflict. -/
def Exclusive (t : Traffic) : Prop :=
  t.scheduler.runningTxns.Pairwise fun a b => ¬Conflict a b

/-- Each enqueued transaction is in exactly one place: it waits, runs, or has ended. -/
def Placed (t : Traffic) : Prop :=
  (t.enqueued.map TxnQueueItem.id).Nodup ∧
    (t.scheduler.pendingQueue ++ t.scheduler.runningTxns ++ (t.finished ++ t.forgotten)).Perm
      t.enqueued

/-- Whenever a transaction is started, those enqueued before it that conflict with it have been
started and have ended, unless they were forgotten. -/
def StartsInOrder : Traffic → Call → Prop
  | t, .pollReady => ∀ a b, t.Before a b → Conflict a b → b.id ∈ t.scheduler.pollReady.2 →
      a.id ∈ t.started ∧ a ∈ t.finished ∨ a ∈ t.forgotten
  | _, _ => True

structure Inv (t : Traffic) : Prop where
  fair : Fair Conflict t.Before t.scheduler.pendingQueue t.scheduler.runningTxns
  placed : t.Placed
  begun : ∀ a, a ∈ t.scheduler.runningTxns ∨ a ∈ t.finished → a.id ∈ t.started

variable {t t' : Traffic} {call : Call}

theorem inv_new : Inv new :=
  ⟨fair_nil, ⟨.nil, .refl _⟩, fun _ h => by simp [new, TransactionScheduler.new] at h⟩

theorem Inv.nodup (h : t.Inv) : t.enqueued.Nodup := h.placed.1.of_map _

theorem Inv.asymm (h : t.Inv) (a b : TxnQueueItem) (hab : t.Before a b) : ¬t.Before b a :=
  not_sublist_swap h.nodup hab

/-- The members of the scheduler have been enqueued. -/
theorem Inv.mem_enqueued (h : t.Inv) {a : TxnQueueItem}
    (ha : a ∈ t.scheduler.pendingQueue ∨ a ∈ t.scheduler.runningTxns) : a ∈ t.enqueued :=
  h.placed.2.subset (List.mem_append_left _ (List.mem_append.mpr ha))

theorem Inv.eq_of_id (h : t.Inv) {a b : TxnQueueItem} (ha : a ∈ t.enqueued) (hb : b ∈ t.enqueued)
    (hid : a.id = b.id) : a = b :=
  List.inj_on_of_nodup_map h.placed.1 ha hb hid

theorem Inv.enqueue (h : t.Inv) {item : TxnQueueItem}
    (hnew : ∀ other ∈ t.enqueued, other.id ≠ item.id) :
    Inv { t with scheduler := t.scheduler.enqueue item, enqueued := t.enqueued ++ [item] } := by
  have hbefore {a : TxnQueueItem} (ha : a ∈ t.enqueued) :
      [a, item].Sublist (t.enqueued ++ [item]) :=
    (List.singleton_sublist.mpr ha).append (.refl [item])
  refine ⟨?_, ⟨?_, ?_⟩, h.begun⟩
  · refine (h.fair.weaken fun a b hab => ?_).enqueue (fun p hp => ?_) fun r hr => ?_
    · exact List.Sublist.trans hab (List.sublist_append_left _ _)
    · exact hbefore (h.mem_enqueued (.inl hp))
    · exact hbefore (h.mem_enqueued (.inr hr))
  · rw [List.map_append, List.map_singleton]
    refine List.Nodup.append h.placed.1 (List.nodup_singleton _) ?_
    intro id hid hitem
    obtain ⟨other, hother, rfl⟩ := List.mem_map.mp hid
    exact hnew other hother (List.mem_singleton.mp hitem)
  · refine List.perm_iff_count.mpr fun a => ?_
    have hcount := h.placed.2.count_eq a
    show (t.scheduler.pendingQueue ++ [item] ++ t.scheduler.runningTxns ++ _).count a = _
    simp only [List.count_append] at hcount ⊢
    omega

/-- What a poll does to the entries of a run. -/
theorem Inv.polls (h : t.Inv) :
    ∃ started, t.scheduler.pollReady.2 = started.map TxnQueueItem.id ∧
      Polls t.Before t.scheduler.pendingQueue t.scheduler.runningTxns started
        t.scheduler.pollReady.1 := by
  obtain ⟨started, hready, hpolls⟩ := polls_pollFrom h.asymm [] t.scheduler.pendingQueue
    t.scheduler.runningTxns [] h.fair
  exact ⟨started, hready, hpolls⟩

theorem Inv.pollReady (h : t.Inv) :
    Inv { t with
      scheduler := t.scheduler.pollReady.1
      started := t.started ++ t.scheduler.pollReady.2 } := by
  obtain ⟨started, hready, hpolls⟩ := h.polls
  refine ⟨hpolls.fair, ⟨h.placed.1, (hpolls.perm.append_right _).trans h.placed.2⟩, fun a ha => ?_⟩
  rw [hready, List.mem_append]
  rcases ha with ha | ha
  · rw [hpolls.moved] at ha
    rcases List.mem_append.mp ha with ha | ha
    · exact .inl (h.begun a (.inl ha))
    · exact .inr (List.mem_map_of_mem ha)
  · exact .inl (h.begun a (.inr ha))

/-- The conflicting entry that came first is neither waiting nor running, so it has ended. -/
theorem Inv.startsInOrder (h : t.Inv) : t.StartsInOrder .pollReady := by
  intro a b hbefore hconflict hstarted
  obtain ⟨started, hready, hpolls⟩ := h.polls
  rw [hready] at hstarted
  obtain ⟨b', hb', hid⟩ := List.mem_map.mp hstarted
  have hmoved : b' ∈ t.scheduler.pollReady.1.runningTxns := by
    rw [hpolls.moved]
    exact List.mem_append_right _ hb'
  have henqueued : b' ∈ t.enqueued := h.mem_enqueued <| List.mem_append.mp <|
    hpolls.perm.subset (List.mem_append_right _ hmoved)
  obtain rfl : b' = b := h.eq_of_id henqueued (hbefore.subset (by simp)) hid
  obtain ⟨hpending, hrunning⟩ := hpolls.first b' hb' a hbefore hconflict
  have hplace := h.placed.2.symm.subset (hbefore.subset List.mem_cons_self)
  rcases List.mem_append.mp hplace with hin | hended
  · rcases List.mem_append.mp hin with hin | hin
    · exact absurd hin hpending
    · exact absurd hin hrunning
  · rcases List.mem_append.mp hended with hfinished | hforgotten
    · exact .inl ⟨h.begun a (.inr hfinished), hfinished⟩
    · exact .inr hforgotten

/-- What is kept and what is taken out, counted. -/
theorem count_split (l : List TxnQueueItem) (id : TxnId) (a : TxnQueueItem) :
    (l.filter fun other => other.id ≠ id).count a + (l.filter fun other => other.id = id).count a =
      l.count a := by
  have hsplit := (List.filter_append_perm (fun other : TxnQueueItem => decide (other.id ≠ id)) l)
  have hcount := hsplit.count_eq a
  rw [List.count_append] at hcount
  simpa using hcount

theorem Inv.onTxnFinished (h : t.Inv) (id : TxnId) :
    Inv { t with
      scheduler := t.scheduler.onTxnFinished id
      finished := t.finished ++ t.scheduler.runningTxns.filter fun other => other.id = id } := by
  refine ⟨h.fair.sublist (.refl _) List.filter_sublist, ⟨h.placed.1, ?_⟩, fun a ha => ?_⟩
  · refine List.perm_iff_count.mpr fun a => ?_
    have hcount := h.placed.2.count_eq a
    have hsplit := count_split t.scheduler.runningTxns id a
    show (t.scheduler.pendingQueue ++ (t.scheduler.runningTxns.filter fun other => other.id ≠ id) ++
      _).count a = _
    simp only [List.count_append] at hcount ⊢
    omega
  · rcases ha with ha | ha
    · exact h.begun a (.inl (List.mem_of_mem_filter ha))
    · rcases List.mem_append.mp ha with ha | ha
      · exact h.begun a (.inr ha)
      · exact h.begun a (.inl (List.mem_of_mem_filter ha))

theorem Inv.forget (h : t.Inv) (id : TxnId) :
    Inv { t with
      scheduler := t.scheduler.forget id
      forgotten := t.forgotten ++
        (t.scheduler.pendingQueue.filter (fun other => other.id = id) ++
          t.scheduler.runningTxns.filter fun other => other.id = id) } := by
  refine ⟨h.fair.sublist List.filter_sublist List.filter_sublist, ⟨h.placed.1, ?_⟩, fun a ha => ?_⟩
  · refine List.perm_iff_count.mpr fun a => ?_
    have hcount := h.placed.2.count_eq a
    have hpending := count_split t.scheduler.pendingQueue id a
    have hrunning := count_split t.scheduler.runningTxns id a
    show ((t.scheduler.pendingQueue.filter fun other => other.id ≠ id) ++
      (t.scheduler.runningTxns.filter fun other => other.id ≠ id) ++ _).count a = _
    simp only [List.count_append] at hcount ⊢
    omega
  · rcases ha with ha | ha
    · exact h.begun a (.inl (List.mem_of_mem_filter ha))
    · exact h.begun a (.inr ha)

theorem Inv.requeueUnstarted (h : t.Inv) (id : TxnId) :
    Inv { t with scheduler := t.scheduler.requeueUnstarted id } := by
  rcases requeueUnstarted_cases t.scheduler id with hsame | ⟨item, left, right, -, hrunning, hmoved⟩
  · rw [hsame]
    exact h
  · rw [hmoved]
    have hfair := h.fair
    rw [hrunning] at hfair
    refine ⟨hfair.requeue conflict_symm, ⟨h.placed.1, ?_⟩, fun a ha => ?_⟩
    · refine List.Perm.trans (.append_right _ ?_) h.placed.2
      rw [hrunning]
      exact perm_requeue t.scheduler.pendingQueue left right item
    · rcases ha with ha | ha
      · refine h.begun a (.inl ?_)
        rw [hrunning]
        exact (List.Sublist.append_left (List.sublist_cons_self item right) left).subset ha
      · exact h.begun a (.inr ha)

theorem Inv.step (h : t.Inv) (hstep : Step t call t') : t'.Inv := by
  cases hstep with
  | enqueue item hnew => exact h.enqueue hnew
  | pollReady => exact h.pollReady
  | onTxnFinished id => exact h.onTxnFinished id
  | requeueUnstarted id => exact h.requeueUnstarted id
  | forget id => exact h.forget id

end Traffic

open Traffic in
/-- **The scheduler is safe and fair**, in every run of its calls. -/
theorem scheduler_safe (taken : List (Traffic × Call)) (t : Traffic)
    (h : Run Traffic.Step Traffic.new taken t) :
    t.Exclusive ∧ t.Placed ∧ EachStep Traffic.StartsInOrder taken := by
  have hinv : t.Inv := h.invariant inv_new .step
  refine ⟨hinv.fair.apart, hinv.placed, ?_⟩
  clear hinv
  induction h with
  | start => exact eachStep_nil
  | @step taken s s' call h hstep ih =>
      refine eachStep_append.mpr ⟨ih, ?_⟩
      cases call with
      | pollReady => exact (h.invariant inv_new .step).startsInOrder
      | _ => trivial

/-- Two writers of one store and a versionchange; the first one is put back once. -/
def twoWriters : List Call :=
  [.enqueue ⟨1, .readWrite, [1]⟩, .enqueue ⟨2, .readWrite, [1, 2]⟩, .pollReady,
    .enqueue ⟨3, .versionChange, []⟩, .requeueUnstarted 1, .pollReady, .onTxnFinished 1, .pollReady,
    .forget 3]

theorem run_twoWriters :
    ∃ taken t, Run Traffic.Step Traffic.new taken t ∧ taken.map Prod.snd = twoWriters :=
  ⟨_, _, ((((((((Run.start.step (.enqueue _ _ (by simp [Traffic.new]))).step
    (.enqueue _ _ (by simp [Traffic.new]))).step (.pollReady _)).step
    (.enqueue _ _ (by simp [Traffic.new]))).step (.requeueUnstarted _ _)).step (.pollReady _)).step
    (.onTxnFinished _ _)).step (.pollReady _)).step (.forget _ _), rfl⟩

theorem scheduler_safe_twoWriters :
    ∃ taken t, taken.map Prod.snd = twoWriters ∧ Run Traffic.Step Traffic.new taken t ∧
      t.Exclusive ∧ t.Placed ∧ EachStep Traffic.StartsInOrder taken := by
  obtain ⟨taken, t, hrun, hcalls⟩ := run_twoWriters
  exact ⟨taken, t, hcalls, hrun, scheduler_safe taken t hrun⟩

end Scheduler

end BoaIdb
