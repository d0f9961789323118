import Nachos.Network.Cases
import Mathlib.Data.List.TakeDrop

/-!
# Do two network threads keep equal tables?

Every network thread dispatches the same requests in the same order, so the
tables are meant to be replicas. Whether they are depends on what a `case`
reads besides the request: `WAIT`, and `SIGNAL` at a busy lock, put the local
identity into a queue. Two threads that dispatch such a request part there and
then; any other sequence of requests keeps them equal.
-/

namespace Nachos.Network

open Nachos.Userprog

/-- The tables an outcome leaves. -/
def tablesOf (o : Outcome) : Except Fault NtTables :=
  match o with
  | .error f => .error f
  | .ok (t, _) => .ok t

/-- The tables after dispatching `rs` in order. -/
def tablesAfter (nt : NetThread) : List Request → NtTables → Except Fault NtTables
  | [], t => .ok t
  | r :: rs, t =>
      match dispatch nt r t with
      | .error f => .error f
      | .ok (t', _) => tablesAfter nt rs t'

/-- The request reaches an assignment of `netname*100+mailBox` into a queue: a
`WAIT` on entries that exist, or a `SIGNAL` with a waiter and a busy lock. -/
def UsesIdentity (op : Op) (t : NtTables) : Prop :=
  match op with
  | .wait c l => (t.conditions.table.get c).isSome ∧ (t.locks.table.get l).isSome
  | .signal c l =>
      (∃ sce, t.conditions.table.get c = some sce ∧ sce.waitQueue ≠ []) ∧
      (∃ sle, t.locks.table.get l = some sle ∧ sle.state = .busy)
  | _ => False

/-! ## One request -/

theorem fetch_error {α : Type} {n : NamedTable α} {i : ℤ} (h : n.table.get i = none) :
    n.fetch i = .error .missingEntry := by
  unfold NamedTable.fetch
  rw [h]

theorem fetch_of_get {α : Type} {n : NamedTable α} {i : ℤ} {e : α}
    (h : n.table.get i = some e) : n.fetch i = .ok e :=
  NamedTable.fetch_ok.mpr h

/-- The loop of `BROADCAST` moves the ids of the waiters only. -/
theorem broadcastLoop_tables (a b : NetThread) : ∀ (ws : List ℤ) (sle : NtLockEntry),
    (broadcastLoop a ws sle).1 = (broadcastLoop b ws sle).1
  | [], _ => rfl
  | w :: ws, sle => by
      unfold broadcastLoop
      split
      · exact broadcastLoop_tables a b ws _
      · exact broadcastLoop_tables a b ws _

theorem wait_agree {a b : NetThread} {r : Request} {c l : ℤ} {t : NtTables}
    (h : ¬ UsesIdentity (.wait c l) t) :
    tablesOf (wait a r c l t) = tablesOf (wait b r c l t) := by
  unfold wait
  cases hc : t.conditions.table.get c with
  | none => rw [fetch_error hc]
  | some sce =>
      rw [fetch_of_get hc]
      cases hl : t.locks.table.get l with
      | none => rw [fetch_error hl]
      | some sle => exact absurd ⟨by simp [hc], by simp [hl]⟩ h

theorem signal_agree {a b : NetThread} {r : Request} {c l : ℤ} {t : NtTables}
    (h : ¬ UsesIdentity (.signal c l) t) :
    tablesOf (signal a r c l t) = tablesOf (signal b r c l t) := by
  unfold signal
  cases hc : t.conditions.table.get c with
  | none => rw [fetch_error hc]
  | some sce =>
      rw [fetch_of_get hc]
      cases hq : sce.waitQueue with
      | nil => simp only [hq]; rfl
      | cons w ws =>
          simp only [hq]
          cases hl : t.locks.table.get l with
          | none => rw [fetch_error hl]
          | some sle =>
              rw [fetch_of_get hl]
              cases hs : sle.state with
              | free => simp only [hs, if_true]; rfl
              | busy => exact absurd ⟨⟨sce, hc, by simp [hq]⟩, sle, hl, hs⟩ h

/-- Unless the request stores the local identity, the tables it leaves do not
depend on the network thread. -/
theorem dispatch_agree {a b : NetThread} {r : Request} {t : NtTables}
    (h : ¬ UsesIdentity r.op t) :
    tablesOf (dispatch a r t) = tablesOf (dispatch b r t) := by
  unfold dispatch
  cases hop : r.op with
  | createLock name => simp only [createLock]; split <;> rfl
  | acquire l => rfl
  | release l =>
      simp only [release]
      split
      · rfl
      · split <;> rfl
  | destroyLock l => simp only [destroyLock]; split <;> rfl
  | createCV name => simp only [createCV]; split <;> rfl
  | signal c l => exact signal_agree (hop ▸ h)
  | wait c l => exact wait_agree (hop ▸ h)
  | broadcast c l =>
      simp only [broadcast]
      split
      · rfl
      · split
        · rfl
        · split
          · rfl
          · simp only [tablesOf, broadcastLoop_tables a b]
  | destroyCV c => simp only [destroyCV]; split <;> rfl
  | createMonitor name => simp only [createMonitor]; split <;> rfl
  | retrieveMonitor m => simp only [retrieveMonitor]; split <;> rfl
  | setMonitor m v => simp only [setMonitor]; split <;> rfl
  | startSimulation => rfl

/-- A `WAIT` that finds its entries leaves the local identity at the end of the
condition's queue. -/
theorem wait_tables {nt : NetThread} {r : Request} {c l : ℤ} {t t' : NtTables}
    {sce : NtConditionEntry} (hc : t.conditions.table.get c = some sce)
    (h : tablesOf (wait nt r c l t) = .ok t') :
    (t'.conditions.table.get c).map NtConditionEntry.waitQueue =
      some (sce.waitQueue ++ [nt.self]) := by
  cases ho : wait nt r c l t with
  | error f => rw [ho] at h; cases h
  | ok p =>
      obtain ⟨t₁, ps⟩ := p
      rw [ho] at h
      obtain rfl : t₁ = t' := by simpa [tablesOf] using h
      obtain ⟨sce', sle, hc', -, rfl, -⟩ := wait_ok ho
      obtain rfl : sce = sce' := Option.some.inj (hc.symm.trans hc')
      simp only [NamedTable.store]
      rw [Table.get_store_self _ hc]
      rfl

/-- A `SIGNAL` at a busy lock leaves it at the end of the lock's queue. -/
theorem signal_tables {nt : NetThread} {r : Request} {c l : ℤ} {t t' : NtTables}
    {sce : NtConditionEntry} {sle : NtLockEntry}
    (hc : t.conditions.table.get c = some sce) (hq : sce.waitQueue ≠ [])
    (hl : t.locks.table.get l = some sle) (hs : sle.state = .busy)
    (h : tablesOf (signal nt r c l t) = .ok t') :
    (t'.locks.table.get l).map NtLockEntry.waitQueue =
      some (sle.waitQueue ++ [nt.self]) := by
  cases ho : signal nt r c l t with
  | error f => rw [ho] at h; cases h
  | ok p =>
      obtain ⟨t₁, ps⟩ := p
      rw [ho] at h
      obtain rfl : t₁ = t' := by simpa [tablesOf] using h
      obtain ⟨sce', hc', hcase⟩ := signal_ok ho
      obtain rfl : sce = sce' := Option.some.inj (hc.symm.trans hc')
      rcases hcase with ⟨hnil, -, -⟩ | ⟨w, ws, sle', -, hl', rfl, -⟩
      · exact absurd hnil hq
      · obtain rfl : sle = sle' := Option.some.inj (hl.symm.trans hl')
        simp only [NamedTable.store]
        rw [Table.get_store_self _ hl, wake_busy hs]
        rfl

/-- A request that stores the local identity makes two threads differ. -/
theorem dispatch_differ {a b : NetThread} (hab : a ≠ b) {r : Request} {t : NtTables}
    (h : UsesIdentity r.op t) :
    tablesOf (dispatch a r t) ≠ tablesOf (dispatch b r t) := by
  have hself : a.self ≠ b.self := fun he => hab (NetThread.self_inj he)
  have happ : ∀ xs : List ℤ, xs ++ [a.self] ≠ xs ++ [b.self] := by
    intro xs he
    exact hself (by simpa using he)
  intro heq
  unfold dispatch at heq
  cases hop : r.op with
  | wait c l =>
      rw [hop] at h heq
      obtain ⟨sce, hc⟩ := Option.isSome_iff_exists.mp h.1
      obtain ⟨sle, hl⟩ := Option.isSome_iff_exists.mp h.2
      have hok : ∀ nt : NetThread, ∃ t', tablesOf (wait nt r c l t) = .ok t' := by
        intro nt
        simp only [wait, fetch_of_get hc, fetch_of_get hl]
        cases sle.waitQueue <;> exact ⟨_, rfl⟩
      obtain ⟨ta, hta⟩ := hok a
      have htb : tablesOf (wait b r c l t) = .ok ta := by rw [← hta]; exact heq.symm
      have hqa := wait_tables hc hta
      have hqb := wait_tables hc htb
      exact happ _ (Option.some.inj (hqa.symm.trans hqb))
  | signal c l =>
      rw [hop] at h heq
      obtain ⟨⟨sce, hc, hq⟩, sle, hl, hs⟩ := h
      have hok : ∀ nt : NetThread, ∃ t', tablesOf (signal nt r c l t) = .ok t' := by
        intro nt
        simp only [signal, fetch_of_get hc, fetch_of_get hl]
        cases sce.waitQueue with
        | nil => exact ⟨_, rfl⟩
        | cons w ws => simp only [hs]; exact ⟨_, rfl⟩
      obtain ⟨ta, hta⟩ := hok a
      have htb : tablesOf (signal b r c l t) = .ok ta := by rw [← hta]; exact heq.symm
      have hqa := signal_tables hc hq hl hs hta
      have hqb := signal_tables hc hq hl hs htb
      exact happ _ (Option.some.inj (hqa.symm.trans hqb))
  | _ => rw [hop] at h; exact h.elim

/-! ## Every sequence of requests -/

theorem tablesAfter_snoc (nt : NetThread) (rs : List Request) (r : Request) :
    ∀ t : NtTables, tablesAfter nt (rs ++ [r]) t =
      match tablesAfter nt rs t with
      | .error f => .error f
      | .ok t' => tablesOf (dispatch nt r t') := by
  induction rs with
  | nil =>
      intro t
      simp only [List.nil_append, tablesAfter]
      cases dispatch nt r t <;> rfl
  | cons q rs ih =>
      intro t
      simp only [List.cons_append, tablesAfter]
      cases dispatch nt q t with
      | error f => rfl
      | ok p => exact ih p.1

theorem take_succ_of_getElem? {rs : List Request} {k : ℕ} {r : Request}
    (h : rs[k]? = some r) : rs.take (k + 1) = rs.take k ++ [r] := by
  rw [List.take_add_one, h]
  rfl

/-- **Replica agreement, exactly.** Two different network threads that start
from equal tables and dispatch the same requests have equal tables after every
request if and only if none of the requests, in the tables it is dispatched in,
stores the local identity. -/
theorem tablesAfter_agree_iff (a b : NetThread) (hab : a ≠ b) (t : NtTables)
    (rs : List Request) :
    (∀ k, tablesAfter a (rs.take k) t = tablesAfter b (rs.take k) t) ↔
      ∀ k r t', rs[k]? = some r → tablesAfter a (rs.take k) t = .ok t' →
        ¬ UsesIdentity r.op t' := by
  constructor
  · intro hall k r t' hr ht' huse
    have hsucc := hall (k + 1)
    rw [take_succ_of_getElem? hr, tablesAfter_snoc, tablesAfter_snoc, ← hall k, ht'] at hsucc
    exact dispatch_differ hab huse hsucc
  · intro hnone k
    induction k with
    | zero => rfl
    | succ k ih =>
        cases hr : rs[k]? with
        | none =>
            rw [List.take_add_one, hr]
            simpa using ih
        | some r =>
            rw [take_succ_of_getElem? hr, tablesAfter_snoc, tablesAfter_snoc, ← ih]
            cases ht : tablesAfter a (rs.take k) t with
            | error f => rfl
            | ok t' => exact dispatch_agree (hnone k r t' hr ht)

/-! ## Threads 101 and 201 -/

/-- One user program creates a lock and a condition and waits. -/
def waitRequests : List Request :=
  [⟨101, .createLock ['L']⟩, ⟨101, .createCV ['C']⟩, ⟨101, .wait 0 0⟩]

/-- The queue of condition `c` in the tables reached. -/
def waitersOf (c : ℤ) (o : Except Fault NtTables) : Option (List ℤ) :=
  match o with
  | .error _ => none
  | .ok t => (t.conditions.table.get c).map NtConditionEntry.waitQueue

/-- After the `WAIT` one replica queues 101 and the other 201. -/
theorem tablesAfter_wait_differ :
    ¬ ∀ k, tablesAfter nt101 (waitRequests.take k) .initial =
      tablesAfter nt201 (waitRequests.take k) .initial := by
  intro h
  have hq := congrArg (waitersOf 0) (h 3)
  revert hq
  decide

/-- Without the `WAIT` the two replicas stay equal. -/
theorem tablesAfter_create_agree :
    nt101 ≠ nt201 ∧ ∀ k, tablesAfter nt101 ((waitRequests.take 2).take k) .initial =
      tablesAfter nt201 ((waitRequests.take 2).take k) .initial := by
  refine ⟨by decide, (tablesAfter_agree_iff nt101 nt201 (by decide) _ _).mpr ?_⟩
  intro k r t' hr _
  have hmem : r ∈ waitRequests.take 2 := List.mem_of_getElem? hr
  have hop : r = ⟨101, .createLock ['L']⟩ ∨ r = ⟨101, .createCV ['C']⟩ := by
    simpa [waitRequests] using hmem
  rcases hop with rfl | rfl <;> exact id

end Nachos.Network
