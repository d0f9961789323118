import Nachos.Network.Waiters

/-!
# Is a broadcast a sequence of signals?

`BROADCAST` is commented as the same as `SIGNAL`, but multiple. Both take the
waiters off the condition in order and give the lock to the first one if it is
free. The two cases part at a busy lock: the loop of `BROADCAST` appends the
waiter it has just taken off, `SIGNAL` appends the local identity. The tables
are equal exactly when every waiter that ends up in the queue of the lock is
the network thread's own client.
-/

namespace Nachos.Network

open Nachos.Userprog Nachos.Lib

/-- One `BROADCAST(c, l)` and `n` times `SIGNAL(c, l)` from the same requester
both go through and leave the same tables. -/
def BroadcastIsSignals (nt : NetThread) (id c l : ℤ) (n : ℕ) (t : NtTables) : Prop :=
  ∃ t', tablesAfter nt [⟨id, .broadcast c l⟩] t = .ok t' ∧
    tablesAfter nt (List.replicate n ⟨id, .signal c l⟩) t = .ok t'

/-- The waiters of `sce` that find the lock busy when all of them are woken: a
free lock goes to the first. -/
def queuedWaiters (sce : NtConditionEntry) (sle : NtLockEntry) : List ℤ :=
  if sle.state = .free then sce.waitQueue.tail else sce.waitQueue

/-! ## Waking all waiters -/

/-- Wake the waiters `ws` in order, writing down `f w` where `w` has to queue. -/
def wakeAll (f : ℤ → ℤ) (ws : List ℤ) (sle : NtLockEntry) : NtLockEntry :=
  ws.foldl (fun sle w => sle.wake w (f w)) sle

theorem wakeAll_cons (f : ℤ → ℤ) (w : ℤ) (ws : List ℤ) (sle : NtLockEntry) :
    wakeAll f (w :: ws) sle = wakeAll f ws (sle.wake w (f w)) := rfl

theorem wakeAll_busy (f : ℤ → ℤ) : ∀ (ws : List ℤ) {sle : NtLockEntry}, sle.state = .busy →
    wakeAll f ws sle = { sle with waitQueue := sle.waitQueue ++ ws.map f }
  | [], sle, _ => by simp [wakeAll]
  | w :: ws, sle, h => by
      have hbusy : { sle with waitQueue := sle.waitQueue ++ [f w] }.state = .busy := h
      rw [wakeAll_cons, wake_busy h, wakeAll_busy f ws hbusy]
      simp

theorem wakeAll_free (f : ℤ → ℤ) (w : ℤ) (ws : List ℤ) {sle : NtLockEntry}
    (h : sle.state = .free) :
    wakeAll f (w :: ws) sle =
      { sle with owner := w, state := .busy, waitQueue := sle.waitQueue ++ ws.map f } := by
  rw [wakeAll_cons, wake_free h, wakeAll_busy f ws rfl]

/-- Writing down one id for all waiters and writing down each waiter's own come
to the same if and only if those that have to queue have that id. -/
theorem wakeAll_eq_iff (q : ℤ) (sce : NtConditionEntry) (sle : NtLockEntry) :
    wakeAll id sce.waitQueue sle = wakeAll (fun _ => q) sce.waitQueue sle ↔
      ∀ w ∈ queuedWaiters sce sle, w = q := by
  have hmap : ∀ ws : List ℤ, ws.map id = ws.map (fun _ => q) ↔ ∀ w ∈ ws, w = q := by
    intro ws
    rw [List.map_inj_left]
    rfl
  cases hs : sle.state with
  | busy =>
      rw [wakeAll_busy _ _ hs, wakeAll_busy _ _ hs, queuedWaiters, if_neg (by rw [hs]; decide),
        ← hmap]
      simp only [NtLockEntry.mk.injEq, List.append_cancel_left_eq, and_true]
  | free =>
      rw [queuedWaiters, if_pos hs]
      cases hq : sce.waitQueue with
      | nil => simp [wakeAll]
      | cons w ws =>
          rw [wakeAll_free _ _ _ hs, wakeAll_free _ _ _ hs, List.tail_cons, ← hmap]
          simp only [NtLockEntry.mk.injEq, List.append_cancel_left_eq, and_true]

/-! ## The two sides -/

/-- The tables with the condition's queue emptied and the lock's entry replaced. -/
def emptied (c l : ℤ) (sce : NtConditionEntry) (sle : NtLockEntry) (t : NtTables) : NtTables :=
  { t with
    conditions := t.conditions.store c { sce with waitQueue := [] }
    locks := t.locks.store l sle }

section Tables

variable {nt : NetThread} {id c l : ℤ} {t : NtTables} {sce : NtConditionEntry}
  {sle : NtLockEntry}

theorem tablesAfter_broadcast (hc : t.conditions.table.get c = some sce)
    (hl : t.locks.table.get l = some sle) :
    tablesAfter nt [⟨id, .broadcast c l⟩] t =
      .ok (emptied c l sce (wakeAll (fun w => w) sce.waitQueue sle) t) := by
  have hloop := broadcastLoop_eq_foldl nt sce.waitQueue sle
  simp only [tablesAfter, dispatch, broadcast, fetch_of_get hc, fetch_of_get hl]
  cases hq : sce.waitQueue with
  | nil =>
      -- nobody waits: storing the entries back changes nothing
      obtain ⟨waitQueue, lock, deleteCounter⟩ := sce
      simp only at hq
      subst hq
      simp [emptied, wakeAll, NamedTable.store, Table.store_get hc, Table.store_get hl]
  | cons w ws =>
      rw [hq] at hloop
      simp only [emptied, wakeAll, hloop]

/-- One `SIGNAL` with a waiter. -/
theorem dispatch_signal (nt : NetThread) (id : ℤ) {w : ℤ} {ws : List ℤ}
    (hc : t.conditions.table.get c = some sce) (hl : t.locks.table.get l = some sle)
    (hq : sce.waitQueue = w :: ws) :
    ∃ ps, dispatch nt ⟨id, .signal c l⟩ t =
      .ok ({ t with
        conditions := t.conditions.store c { sce with waitQueue := ws }
        locks := t.locks.store l (sle.wake w nt.self) }, ps) := by
  simp only [dispatch, signal, fetch_of_get hc, fetch_of_get hl, hq]
  by_cases hs : sle.state = .free
  · exact ⟨_, by rw [NtLockEntry.wake, if_pos hs, if_pos hs]⟩
  · exact ⟨_, by rw [NtLockEntry.wake, if_neg hs, if_neg hs]⟩

/-- As many `SIGNAL`s as there are waiters empty the queue. The induction is on
the waiters: every `SIGNAL` leaves the two entries of the next one. -/
theorem tablesAfter_signals (nt : NetThread) (id : ℤ) :
    ∀ (ws : List ℤ) {t : NtTables} {sce : NtConditionEntry} {sle : NtLockEntry},
    t.conditions.table.get c = some sce → t.locks.table.get l = some sle → sce.waitQueue = ws →
    tablesAfter nt (List.replicate ws.length ⟨id, .signal c l⟩) t =
      .ok (emptied c l sce (wakeAll (fun _ => nt.self) ws sle) t)
  | [], t, ⟨waitQueue, lock, deleteCounter⟩, sle, hc, hl, hq => by
      simp only at hq
      subst hq
      simp [tablesAfter, emptied, wakeAll, NamedTable.store, Table.store_get hc,
        Table.store_get hl]
  | w :: ws, t, sce, sle, hc, hl, hq => by
      obtain ⟨ps, hd⟩ := dispatch_signal nt id hc hl hq
      rw [List.length_cons, List.replicate_succ, tablesAfter, hd]
      have ih := tablesAfter_signals nt id ws
        (t := { t with
          conditions := t.conditions.store c { sce with waitQueue := ws }
          locks := t.locks.store l (sle.wake w nt.self) })
        (Table.get_store_self _ hc) (Table.get_store_self _ hl) rfl
      show tablesAfter nt (List.replicate ws.length _) _ = _
      rw [ih, wakeAll_cons]
      simp only [emptied, NamedTable.store, Table.store_store]

/-- The two sides compare as the two ways of writing the waiters down do. -/
theorem broadcastIsSignals_iff_wakeAll (hc : t.conditions.table.get c = some sce)
    (hl : t.locks.table.get l = some sle) :
    BroadcastIsSignals nt id c l sce.waitQueue.length t ↔
      wakeAll (fun w => w) sce.waitQueue sle = wakeAll (fun _ => nt.self) sce.waitQueue sle := by
  have hsig := tablesAfter_signals nt id sce.waitQueue hc hl rfl
  unfold BroadcastIsSignals
  rw [tablesAfter_broadcast hc hl, hsig]
  constructor
  · rintro ⟨t', hb, hs⟩
    have heq := Except.ok.inj (hb.trans hs.symm)
    have hget := congrArg (fun t : NtTables => t.locks.table.get l) heq
    simp only [emptied, NamedTable.store, Table.get_store_self _ hl] at hget
    exact Option.some.inj hget
  · intro heq
    exact ⟨_, rfl, by rw [heq]⟩

/-- **A broadcast is repeated signals, exactly.** In every state of the tables,
for every requester, condition and existing lock, one `BROADCAST` leaves the
same tables as a `SIGNAL` per waiter if and only if every waiter that has to
queue at the lock is the client of this network thread. -/
theorem broadcast_is_signals_iff (nt : NetThread) (id c l : ℤ) (t : NtTables)
    (hc : t.conditions.table.get c = some sce) (hl : t.locks.table.get l = some sle) :
    BroadcastIsSignals nt id c l sce.waitQueue.length t ↔
      ∀ w ∈ queuedWaiters sce sle, w = nt.self := by
  rw [broadcastIsSignals_iff_wakeAll hc hl]
  exact wakeAll_eq_iff nt.self sce sle

end Tables

/-- A lock `0` held by client 101 and a condition `0` with the given waiters. -/
def heldTables (waiters : List ℤ) : NtTables :=
  { NtTables.initial with
    locks := NtTables.initial.locks.store 0 ⟨[], .busy, 101, 1⟩
    conditions := NtTables.initial.conditions.store 0 ⟨waiters, 0, 1⟩ }

/-- Two waiting threads of the own client. -/
theorem broadcast_is_signals_own : BroadcastIsSignals nt101 201 0 0 2 (heldTables [101, 101]) :=
  (broadcast_is_signals_iff nt101 201 0 0 (heldTables [101, 101])
    (show _ = some ⟨[101, 101], 0, 1⟩ from rfl) (show _ = some ⟨[], .busy, 101, 1⟩ from rfl)).mpr
    (by decide)

/-- A waiter of another client: `BROADCAST` queues 301 at the lock, `SIGNAL`
queues 101. -/
theorem broadcast_is_not_signals :
    ¬ ∀ (nt : NetThread) (id c l : ℤ) (t : NtTables) (sce : NtConditionEntry) (sle : NtLockEntry),
      t.conditions.table.get c = some sce → t.locks.table.get l = some sle →
      1 ≤ sce.waitQueue.length → BroadcastIsSignals nt id c l sce.waitQueue.length t := by
  intro hall
  obtain ⟨t', hb, hs⟩ :=
    hall nt101 201 0 0 (heldTables [301]) ⟨[301], 0, 1⟩ ⟨[], .busy, 101, 1⟩ rfl rfl (by decide)
  have hlock := congrArg
    (fun o : Except Fault NtTables => o.toOption.bind (fun t => t.locks.table.get 0))
    (hb.trans hs.symm)
  revert hlock
  decide

/-! ## Where the difference cannot be seen

`WAIT` enqueues the local identity for every requester, so the condition queues
that a network thread builds itself hold no other id, and the second slip hides
the first. -/

/-- Only the own client waits. -/
def OwnWaiters (nt : NetThread) (t : NtTables) : Prop :=
  ∀ c sce, t.conditions.table.get c = some sce → ∀ w ∈ sce.waitQueue, w = nt.self

section OwnWaiters

variable {nt : NetThread} {t t' : NtTables} {c : ℤ} {sce : NtConditionEntry}

/-- Storing an entry whose waiters are own keeps the queues own. -/
theorem OwnWaiters.store {x : NtConditionEntry} (locks : NamedTable NtLockEntry)
    (h : OwnWaiters nt t) (hc : t.conditions.table.get c = some sce)
    (hx : ∀ w ∈ x.waitQueue, w = nt.self) :
    OwnWaiters nt { t with locks, conditions := t.conditions.store c x } := by
  intro i e he
  by_cases hi : i = c
  · subst hi
    obtain rfl : x = e := Option.some.inj ((Table.get_store_self x hc).symm.trans he)
    exact hx
  · exact h i e ((Table.get_store_of_ne x hc hi).symm.trans he)

theorem OwnWaiters.dispatch {r : Request} {ps : List Packet} (h : OwnWaiters nt t)
    (hd : dispatch nt r t = .ok (t', ps)) : OwnWaiters nt t' := by
  -- all the cases that leave the conditions alone
  have hsame : t'.conditions = t.conditions → OwnWaiters nt t' := by
    intro hcond i e he
    rw [hcond] at he
    exact h i e he
  unfold Network.dispatch at hd
  cases hop : r.op with
  | createLock name => exact hsame (createLock_ok (by simpa only [hop] using hd)).1
  | acquire l =>
      simp only [hop, acquire, Except.ok.injEq, Prod.mk.injEq] at hd
      exact hsame (by rw [hd.1])
  | release l =>
      obtain ⟨sle, -, rfl, -⟩ := release_ok (by simpa only [hop] using hd)
      exact hsame rfl
  | destroyLock l => exact hsame (destroyLock_ok (by simpa only [hop] using hd)).1
  | createCV name =>
      obtain ⟨-, -, i, -, hcase⟩ := createCV_ok (by simpa only [hop] using hd)
      rcases hcase with ⟨sce, hsce, hstore⟩ | ⟨-, hfresh, -, hrest⟩
      · have hown := h.store t.locks
          (x := { sce with deleteCounter := sce.deleteCounter + 1 }) hsce (h i sce hsce)
        rw [← hstore] at hown
        exact hown
      · intro j e he
        by_cases hj : j = i
        · subst hj
          obtain rfl := Option.some.inj (hfresh.symm.trans he)
          simp
        · exact h j e ((hrest j hj).symm.trans he)
  | signal c l =>
      obtain ⟨sce, hsce, hcase⟩ := signal_ok (by simpa only [hop] using hd)
      rcases hcase with ⟨-, rfl, -⟩ | ⟨w, ws, sle, hq, -, rfl, -⟩
      · exact h
      · refine h.store _ hsce ?_
        intro x hx
        exact h c sce hsce x (by rw [hq]; exact List.mem_cons_of_mem w hx)
  | wait c l =>
      obtain ⟨sce, sle, hsce, -, rfl, -⟩ := wait_ok (by simpa only [hop] using hd)
      refine h.store _ hsce ?_
      intro x hx
      rcases List.mem_append.mp hx with hx | hx
      · exact h c sce hsce x hx
      · exact List.mem_singleton.mp hx
  | broadcast c l =>
      obtain ⟨sce, hsce, hcase⟩ := broadcast_ok (by simpa only [hop] using hd)
      rcases hcase with ⟨-, rfl, -⟩ | ⟨sle, -, -, rfl, -⟩
      · exact h
      · exact h.store _ hsce (by simp)
  | destroyCV c =>
      obtain ⟨-, -, sce, ack, hsce, -, hcase⟩ := destroyCV_ok (by simpa only [hop] using hd)
      rcases hcase with htab | hstore
      · intro j e he
        rw [htab, Table.get_remove] at he
        split at he
        · cases he
        · exact h j e he
      · have hown := h.store t.locks
          (x := { sce with deleteCounter := sce.deleteCounter - 1 }) hsce (h c sce hsce)
        rw [← hstore] at hown
        exact hown
  | createMonitor name => exact hsame (createMonitor_ok (by simpa only [hop] using hd)).2.1
  | retrieveMonitor m =>
      obtain ⟨rfl, -⟩ := retrieveMonitor_ok (by simpa only [hop] using hd)
      exact h
  | setMonitor m v => exact hsame (setMonitor_ok (by simpa only [hop] using hd)).2.1
  | startSimulation =>
      simp only [hop, Except.ok.injEq, Prod.mk.injEq] at hd
      exact hsame (by rw [hd.1])

end OwnWaiters

theorem ownWaiters_of_run {nt : NetThread} {tr : List Dispatched} {t : NtTables}
    (h : Run (dispatchStep nt) anyStep NtTables.initial tr t) : OwnWaiters nt t := by
  refine h.invariant (I := fun _ t => OwnWaiters nt t) ?_ ?_
  · intro c sce hc
    simp [NtTables.initial, NamedTable.empty] at hc
  · intro tr s l s' e ih _ hs
    exact ih.dispatch (dispatchStep_some hs).2.2.2

/-- In the tables that a network thread reaches by dispatching requests, a
broadcast is repeated signals. -/
theorem broadcastIsSignals_of_run {nt : NetThread} {tr : List Dispatched} {t : NtTables}
    (h : Run (dispatchStep nt) anyStep NtTables.initial tr t) (id : ℤ) {c l : ℤ}
    {sce : NtConditionEntry} {sle : NtLockEntry} (hc : t.conditions.table.get c = some sce)
    (hl : t.locks.table.get l = some sle) :
    BroadcastIsSignals nt id c l sce.waitQueue.length t := by
  rw [broadcastIsSignals_iff_wakeAll hc hl]
  refine (wakeAll_eq_iff nt.self sce sle).mpr ?_
  intro w hw
  refine ownWaiters_of_run h c sce hc w ?_
  unfold queuedWaiters at hw
  split at hw
  · exact List.mem_of_mem_tail hw
  · exact hw

end Nachos.Network
