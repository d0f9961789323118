import Nachos.Network.Dispatch

/-!
# What one dispatched request can do

One inversion lemma per `case`: from a dispatch that ends without a fault, the
entries it found, the tables it leaves and the packets it sent. The results
about replicas, locks, waiters and replies are read off these lemmas; none of
them unfolds the switch again.
-/

namespace Nachos.Network

open Nachos.Userprog

/-! ## The moves of a client id -/

/-- Give the lock to the head of its queue, written down as `f` of its id, or
free it when nobody waits. -/
def NtLockEntry.handOver (f : ℤ → ℤ) (sle : NtLockEntry) : NtLockEntry :=
  match sle.waitQueue with
  | w :: ws => { sle with owner := f w, waitQueue := ws }
  | [] => { sle with state := .free, owner := 0 }

/-- Wake `w`: it takes a free lock; at a busy one `queued` joins the queue. -/
def NtLockEntry.wake (w queued : ℤ) (sle : NtLockEntry) : NtLockEntry :=
  if sle.state = .free then { sle with owner := w, state := .busy }
  else { sle with waitQueue := sle.waitQueue ++ [queued] }

/-- The binding `WAIT` leaves in a condition entry. -/
def NtConditionEntry.bind (lockIndex : ℤ) (sce : NtConditionEntry) : ℤ :=
  if sce.lock = 0 ∧ lockIndex ≠ 0 then lockIndex else sce.lock

/-- The packet that tells the head of a lock's queue it owns the lock now. -/
def grantReply (nt : NetThread) (sle : NtLockEntry) : List Packet :=
  match sle.waitQueue with
  | w :: _ => replyIf nt w .done
  | [] => []

theorem handOver_nil {f : ℤ → ℤ} {sle : NtLockEntry} (h : sle.waitQueue = []) :
    sle.handOver f = { sle with state := .free, owner := 0 } := by
  unfold NtLockEntry.handOver
  rw [h]

theorem handOver_cons {f : ℤ → ℤ} {sle : NtLockEntry} {w : ℤ} {ws : List ℤ}
    (h : sle.waitQueue = w :: ws) :
    sle.handOver f = { sle with owner := f w, waitQueue := ws } := by
  unfold NtLockEntry.handOver
  rw [h]

theorem wake_free {w q : ℤ} {sle : NtLockEntry} (h : sle.state = .free) :
    sle.wake w q = { sle with owner := w, state := .busy } := by
  unfold NtLockEntry.wake
  rw [if_pos h]

theorem wake_busy {w q : ℤ} {sle : NtLockEntry} (h : sle.state = .busy) :
    sle.wake w q = { sle with waitQueue := sle.waitQueue ++ [q] } := by
  unfold NtLockEntry.wake
  rw [if_neg (by rw [h]; decide)]

/-! ## Named tables -/

namespace NamedTable

variable {α : Type} {n : NamedTable α}

theorem fetch_ok {i : ℤ} {e : α} : n.fetch i = .ok e ↔ n.table.get i = some e := by
  unfold fetch
  cases n.table.get i <;> simp

/-- A `CREATE` either finds the name at `i` and leaves the rest to `found`, or
puts a fresh entry into an empty slot and changes no other slot. -/
theorem create_ok {found : NamedTable α → ℕ → Except Fault (NamedTable α)}
    {fresh : α} {arg1 : Text} {i : ℤ} {n' : NamedTable α}
    (h : n.create found fresh arg1 = .ok (i, n')) :
    (∃ k : ℕ, i = k ∧ found n k = .ok n') ∨
    (n.table.get i = none ∧ n'.table.get i = some fresh ∧ n'.table.size = n.table.size ∧
      ∀ j, j ≠ i → n'.table.get j = n.table.get j) := by
  unfold create at h
  split at h
  · cases h
  · rename_i k _
    split at h
    · cases h
    · rename_i m hm
      simp only [Except.ok.injEq, Prod.mk.injEq] at h
      obtain ⟨rfl, rfl⟩ := h
      exact .inl ⟨k, rfl, hm⟩
  · split at h
    rename_i k table hput
    split at h
    · cases h
    · rename_i hi
      simp only [Except.ok.injEq, Prod.mk.injEq] at h
      obtain ⟨rfl, rfl⟩ := h
      exact .inr (Table.put_spec hput hi)

/-- A `DESTROY` finds its entry, and either removes it or stores it back with
the counter decremented. -/
theorem destroy_ok {decr : α → α} {deleteCounter : α → ℤ} {i : ℤ} {ack : Ack}
    {n' : NamedTable α} (h : n.destroy decr deleteCounter i = .ok (ack, n')) :
    ∃ e, n.table.get i = some e ∧
      ((ack = .deleted ∧ n'.table = (n.table.remove i).2) ∨
       (ack = .notyet ∧ n' = n.store i (decr e))) := by
  unfold destroy at h
  split at h
  · cases h
  · rename_i e he
    refine ⟨e, fetch_ok.mp he, ?_⟩
    split at h
    · simp only [Except.ok.injEq, Prod.mk.injEq] at h
      obtain ⟨rfl, rfl⟩ := h
      exact .inl ⟨rfl, rfl⟩
    · simp only [Except.ok.injEq, Prod.mk.injEq] at h
      obtain ⟨rfl, rfl⟩ := h
      exact .inr ⟨rfl, rfl⟩

end NamedTable

/-! ## The cases -/

variable {nt : NetThread} {r : Request} {t t' : NtTables} {ps : List Packet}

theorem release_ok {l : ℤ} (h : release nt r l t = .ok (t', ps)) :
    ∃ sle, t.locks.table.get l = some sle ∧
      t' = { t with locks := t.locks.store l (sle.handOver id) } ∧
      ps = replyIf nt r.ntID .done ++ grantReply nt sle := by
  unfold release at h
  split at h
  · cases h
  · rename_i sle hsle
    refine ⟨sle, NamedTable.fetch_ok.mp hsle, ?_⟩
    split at h
    · rename_i w ws hq
      simp only [Except.ok.injEq, Prod.mk.injEq] at h
      obtain ⟨rfl, rfl⟩ := h
      rw [handOver_cons hq]
      exact ⟨rfl, by simp [grantReply, hq]⟩
    · rename_i hq
      simp only [Except.ok.injEq, Prod.mk.injEq] at h
      obtain ⟨rfl, rfl⟩ := h
      rw [handOver_nil hq]
      exact ⟨rfl, by simp [grantReply, hq]⟩

theorem wait_ok {c l : ℤ} (h : wait nt r c l t = .ok (t', ps)) :
    ∃ sce sle, t.conditions.table.get c = some sce ∧ t.locks.table.get l = some sle ∧
      t' = { t with
        conditions := t.conditions.store c
          { sce with lock := sce.bind l, waitQueue := sce.waitQueue ++ [nt.self] }
        locks := t.locks.store l (sle.handOver (·.tmod 100)) } ∧
      ps = (if sce.bind l ≠ l then [toOwn nt .wronglock] else []) ++ grantReply nt sle := by
  unfold wait at h
  split at h
  · cases h
  · rename_i sce hsce
    simp only at h
    split at h
    · cases h
    · rename_i sle hsle
      refine ⟨sce, sle, NamedTable.fetch_ok.mp hsce, NamedTable.fetch_ok.mp hsle, ?_⟩
      split at h
      · rename_i w ws hq
        simp only [Except.ok.injEq, Prod.mk.injEq] at h
        obtain ⟨rfl, rfl⟩ := h
        rw [handOver_cons hq]
        exact ⟨rfl, by simp only [grantReply, hq]; rfl⟩
      · rename_i hq
        simp only [Except.ok.injEq, Prod.mk.injEq] at h
        obtain ⟨rfl, rfl⟩ := h
        rw [handOver_nil hq]
        exact ⟨rfl, by simp only [grantReply, hq, List.append_nil]; rfl⟩

theorem signal_ok {c l : ℤ} (h : signal nt r c l t = .ok (t', ps)) :
    ∃ sce, t.conditions.table.get c = some sce ∧
      ((sce.waitQueue = [] ∧ t' = t ∧ ps = [toOwn nt .done]) ∨
       ∃ w ws sle, sce.waitQueue = w :: ws ∧ t.locks.table.get l = some sle ∧
        t' = { t with
          conditions := t.conditions.store c { sce with waitQueue := ws }
          locks := t.locks.store l (sle.wake w nt.self) } ∧
        ps = replyIf nt r.ntID .done ++
          (if sle.state = .free then replyIf nt w .wakeup else [])) := by
  unfold signal at h
  split at h
  · cases h
  · rename_i sce hsce
    refine ⟨sce, NamedTable.fetch_ok.mp hsce, ?_⟩
    split at h
    · rename_i hq
      simp only [Except.ok.injEq, Prod.mk.injEq] at h
      exact .inl ⟨hq, h.1.symm, h.2.symm⟩
    · rename_i w ws hq
      simp only at h
      split at h
      · cases h
      · rename_i sle hsle
        refine .inr ⟨w, ws, sle, hq, NamedTable.fetch_ok.mp hsle, ?_⟩
        split at h
        · rename_i hfree
          simp only [Except.ok.injEq, Prod.mk.injEq] at h
          obtain ⟨rfl, rfl⟩ := h
          rw [wake_free hfree, if_pos hfree]
          exact ⟨rfl, rfl⟩
        · rename_i hbusy
          simp only [Except.ok.injEq, Prod.mk.injEq] at h
          obtain ⟨rfl, rfl⟩ := h
          rw [NtLockEntry.wake, if_neg hbusy, if_neg hbusy]
          exact ⟨rfl, by simp⟩

theorem broadcast_ok {c l : ℤ} (h : broadcast nt r c l t = .ok (t', ps)) :
    ∃ sce, t.conditions.table.get c = some sce ∧
      ((sce.waitQueue = [] ∧ t' = t ∧ ps = [toOwn nt .done]) ∨
       ∃ sle, sce.waitQueue ≠ [] ∧ t.locks.table.get l = some sle ∧
        t' = { t with
          conditions := t.conditions.store c { sce with waitQueue := [] }
          locks := t.locks.store l (broadcastLoop nt sce.waitQueue sle).1 } ∧
        ps = toOwn nt .done :: (broadcastLoop nt sce.waitQueue sle).2) := by
  unfold broadcast at h
  split at h
  · cases h
  · rename_i sce hsce
    refine ⟨sce, NamedTable.fetch_ok.mp hsce, ?_⟩
    split at h
    · rename_i hq
      simp only [Except.ok.injEq, Prod.mk.injEq] at h
      exact .inl ⟨hq, h.1.symm, h.2.symm⟩
    · rename_i w ws hq
      split at h
      · cases h
      · rename_i sle hsle
        simp only [Except.ok.injEq, Prod.mk.injEq] at h
        obtain ⟨rfl, rfl⟩ := h
        refine .inr ⟨sle, by rw [hq]; simp, NamedTable.fetch_ok.mp hsle, ?_⟩
        rw [hq]
        exact ⟨rfl, rfl⟩

/-- `CREATE_LOCK` counts one more user of a known lock, or makes a fresh one. -/
theorem createLock_ok {name : Text} (h : createLock nt r name t = .ok (t', ps)) :
    t'.conditions = t.conditions ∧ t'.monitors = t.monitors ∧ ∃ i,
      ps = replyIf nt r.ntID (.index i) ∧
      ((∃ sle, t.locks.table.get i = some sle ∧
          t'.locks = t.locks.store i { sle with deleteCounter := sle.deleteCounter + 1 }) ∨
       (t.locks.table.get i = none ∧
          t'.locks.table.get i = some ⟨[], .free, r.ntID, 1⟩ ∧
          t'.locks.table.size = t.locks.table.size ∧
          ∀ j, j ≠ i → t'.locks.table.get j = t.locks.table.get j)) := by
  unfold createLock at h
  simp only at h
  split at h
  · cases h
  · rename_i i locks hc
    simp only [Except.ok.injEq, Prod.mk.injEq] at h
    obtain ⟨rfl, rfl⟩ := h
    refine ⟨rfl, rfl, i, rfl, ?_⟩
    rcases NamedTable.create_ok hc with ⟨k, rfl, hk⟩ | hfresh
    · split at hk
      · cases hk
      · rename_i sle hsle
        simp only [Except.ok.injEq] at hk
        exact .inl ⟨sle, NamedTable.fetch_ok.mp hsle, hk.symm⟩
    · exact .inr hfresh

/-- `CREATE_CV`, likewise. -/
theorem createCV_ok {name : Text} (h : createCV nt r name t = .ok (t', ps)) :
    t'.locks = t.locks ∧ t'.monitors = t.monitors ∧ ∃ i,
      ps = replyIf nt r.ntID (.index i) ∧
      ((∃ sce, t.conditions.table.get i = some sce ∧
          t'.conditions = t.conditions.store i
            { sce with deleteCounter := sce.deleteCounter + 1 }) ∨
       (t.conditions.table.get i = none ∧ t'.conditions.table.get i = some ⟨[], 0, 1⟩ ∧
          t'.conditions.table.size = t.conditions.table.size ∧
          ∀ j, j ≠ i → t'.conditions.table.get j = t.conditions.table.get j)) := by
  unfold createCV at h
  simp only at h
  split at h
  · cases h
  · rename_i i conditions hc
    simp only [Except.ok.injEq, Prod.mk.injEq] at h
    obtain ⟨rfl, rfl⟩ := h
    refine ⟨rfl, rfl, i, rfl, ?_⟩
    rcases NamedTable.create_ok hc with ⟨k, rfl, hk⟩ | hfresh
    · split at hk
      · cases hk
      · rename_i sce hsce
        simp only [Except.ok.injEq] at hk
        exact .inl ⟨sce, NamedTable.fetch_ok.mp hsce, hk.symm⟩
    · exact .inr hfresh

theorem destroyLock_ok {l : ℤ} (h : destroyLock nt r l t = .ok (t', ps)) :
    t'.conditions = t.conditions ∧ t'.monitors = t.monitors ∧
      ∃ sle ack, t.locks.table.get l = some sle ∧ ps = [toOwn nt ack] ∧
        (t'.locks.table = (t.locks.table.remove l).2 ∨
         t'.locks = t.locks.store l { sle with deleteCounter := sle.deleteCounter - 1 }) := by
  unfold destroyLock at h
  split at h
  · cases h
  · rename_i ack locks hd
    simp only [Except.ok.injEq, Prod.mk.injEq] at h
    obtain ⟨rfl, rfl⟩ := h
    obtain ⟨sle, hsle, hcase⟩ := NamedTable.destroy_ok hd
    refine ⟨rfl, rfl, sle, ack, hsle, rfl, ?_⟩
    rcases hcase with ⟨-, htab⟩ | ⟨-, hstore⟩
    · exact .inl htab
    · exact .inr hstore

theorem destroyCV_ok {c : ℤ} (h : destroyCV nt r c t = .ok (t', ps)) :
    t'.locks = t.locks ∧ t'.monitors = t.monitors ∧
      ∃ sce ack, t.conditions.table.get c = some sce ∧ ps = [toOwn nt ack] ∧
        (t'.conditions.table = (t.conditions.table.remove c).2 ∨
         t'.conditions = t.conditions.store c
           { sce with deleteCounter := sce.deleteCounter - 1 }) := by
  unfold destroyCV at h
  split at h
  · cases h
  · rename_i ack conditions hd
    simp only [Except.ok.injEq, Prod.mk.injEq] at h
    obtain ⟨rfl, rfl⟩ := h
    obtain ⟨sce, hsce, hcase⟩ := NamedTable.destroy_ok hd
    refine ⟨rfl, rfl, sce, ack, hsce, rfl, ?_⟩
    rcases hcase with ⟨-, htab⟩ | ⟨-, hstore⟩
    · exact .inl htab
    · exact .inr hstore

/-- The monitor cases leave locks and conditions alone and answer the
requester only. -/
theorem createMonitor_ok {name : Text} (h : createMonitor nt r name t = .ok (t', ps)) :
    t'.locks = t.locks ∧ t'.conditions = t.conditions ∧
      ∃ i, ps = replyIf nt r.ntID (.index i) := by
  unfold createMonitor at h
  split at h
  · cases h
  · rename_i i monitors _
    simp only [Except.ok.injEq, Prod.mk.injEq] at h
    obtain ⟨rfl, rfl⟩ := h
    exact ⟨rfl, rfl, i, rfl⟩

theorem retrieveMonitor_ok {m : ℤ} (h : retrieveMonitor nt r m t = .ok (t', ps)) :
    t' = t ∧ ∃ v, ps = replyIf nt r.ntID (.value v) := by
  unfold retrieveMonitor at h
  split at h
  · cases h
  · rename_i sme _
    simp only [Except.ok.injEq, Prod.mk.injEq] at h
    obtain ⟨rfl, rfl⟩ := h
    exact ⟨rfl, sme.value, rfl⟩

theorem setMonitor_ok {m v : ℤ} (h : setMonitor nt r m v t = .ok (t', ps)) :
    t'.locks = t.locks ∧ t'.conditions = t.conditions ∧
      ps = replyIf nt r.ntID .done := by
  unfold setMonitor at h
  split at h
  · cases h
  · simp only [Except.ok.injEq, Prod.mk.injEq] at h
    obtain ⟨rfl, rfl⟩ := h
    exact ⟨rfl, rfl, rfl⟩

end Nachos.Network
