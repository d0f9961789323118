import Nachos.Network.Cases
import Nachos.Network.Replicas

/-!
# Where client ids go

`WAIT`, `SIGNAL`, `BROADCAST` and `RELEASE` move client ids between the queue of
a condition, the queue of a lock and the owner of a lock. `Conserves` says what
each is meant to do, id by id, with every other entry unchanged. The code meets
it exactly where the local identity happens to be the right id and where
`machineId % 100` happens to be `machineId`.
-/

namespace Nachos.Network

open Nachos.Userprog Nachos.Lib

/-! ## The meaning of conservation -/

/-- Entries of the lock table other than `l` stay as they are. -/
def LocksButSame (l : ℤ) (t t' : NtTables) : Prop :=
  ∀ i, i ≠ l → t'.locks.table.get i = t.locks.table.get i

def ConditionsButSame (c : ℤ) (t t' : NtTables) : Prop :=
  ∀ i, i ≠ c → t'.conditions.table.get i = t.conditions.table.get i

/-- The waiters of condition `c`. -/
def conditionQueue (t : NtTables) (c : ℤ) : Option (List ℤ) :=
  (t.conditions.table.get c).map NtConditionEntry.waitQueue

/-- No client id is lost, duplicated, truncated or replaced by the request. -/
def Conserves (e : Dispatched) : Prop :=
  match e.request.op with
  | .wait c l =>
      (∀ q, conditionQueue e.before c = some q →
        conditionQueue e.after c = some (q ++ [e.request.ntID])) ∧
      (∀ sle, e.before.locks.table.get l = some sle →
        e.after.locks.table.get l = some (sle.handOver id)) ∧
      LocksButSame l e.before e.after ∧ ConditionsButSame c e.before e.after
  | .signal c l =>
      (∀ w ws, conditionQueue e.before c = some (w :: ws) →
        conditionQueue e.after c = some ws ∧
        (∀ sle, e.before.locks.table.get l = some sle →
          e.after.locks.table.get l = some (sle.wake w w))) ∧
      (conditionQueue e.before c = some [] → e.after = e.before) ∧
      LocksButSame l e.before e.after ∧ ConditionsButSame c e.before e.after
  | .broadcast c l =>
      (∀ ws, conditionQueue e.before c = some ws →
        conditionQueue e.after c = some [] ∧
        (∀ sle, e.before.locks.table.get l = some sle →
          e.after.locks.table.get l = some (ws.foldl (fun sle w => sle.wake w w) sle))) ∧
      LocksButSame l e.before e.after ∧ ConditionsButSame c e.before e.after
  | .release l =>
      (∀ sle, e.before.locks.table.get l = some sle →
        e.after.locks.table.get l = some (sle.handOver id)) ∧
      LocksButSame l e.before e.after ∧ e.after.conditions = e.before.conditions
  | _ => True

/-- The head of a lock's queue, and of a condition's. -/
def lockHead (t : NtTables) (l : ℤ) : Option ℤ :=
  (t.locks.table.get l).bind (fun sle => sle.waitQueue.head?)

def conditionHead (t : NtTables) (c : ℤ) : Option ℤ :=
  (t.conditions.table.get c).bind (fun sce => sce.waitQueue.head?)

/-- The ids the code writes down are the ids it should: a `WAIT` comes from this
thread's own user program and hands the lock to an id that `% 100` keeps; a
`SIGNAL` at a busy lock wakes this thread's own user program. -/
def MovesOwnId (nt : NetThread) (t : NtTables) (r : Request) : Prop :=
  match r.op with
  | .wait _ l => r.ntID = nt.self ∧ ∀ w ∈ lockHead t l, w.tmod 100 = w
  | .signal c l =>
      (t.locks.table.get l).map NtLockEntry.state = some .busy →
        ∀ w ∈ conditionHead t c, w = nt.self
  | _ => True

instance (nt : NetThread) (t : NtTables) (r : Request) : Decidable (MovesOwnId nt t r) := by
  unfold MovesOwnId
  split <;> infer_instance

/-! ## One request -/

theorem handOver_eq_iff {f : ℤ → ℤ} {sle : NtLockEntry} :
    sle.handOver f = sle.handOver id ↔ ∀ w ∈ sle.waitQueue.head?, f w = w := by
  cases hq : sle.waitQueue with
  | nil => simp [handOver_nil hq]
  | cons w ws => simp [handOver_cons hq]

theorem wake_eq_iff {w q : ℤ} {sle : NtLockEntry} :
    sle.wake w q = sle.wake w w ↔ (sle.state = .busy → q = w) := by
  cases hs : sle.state with
  | free => simp [wake_free hs]
  | busy => simp [wake_busy hs, NtLockEntry.mk.injEq]

/-- The loop of `BROADCAST` wakes the waiters one after another. -/
theorem broadcastLoop_eq_foldl (nt : NetThread) : ∀ (ws : List ℤ) (sle : NtLockEntry),
    (broadcastLoop nt ws sle).1 = ws.foldl (fun sle w => sle.wake w w) sle
  | [], _ => rfl
  | w :: ws, sle => by
      rw [List.foldl_cons, broadcastLoop]
      by_cases hs : sle.state = .free
      · rw [if_pos hs, NtLockEntry.wake, if_pos hs]
        exact broadcastLoop_eq_foldl nt ws _
      · rw [if_neg hs, NtLockEntry.wake, if_neg hs]
        exact broadcastLoop_eq_foldl nt ws _

section Frames

variable {t : NtTables} {l c : ℤ} {sle : NtLockEntry} {sce : NtConditionEntry}

theorem locksButSame_store {x : NtLockEntry} {conditions : NamedTable NtConditionEntry}
    (h : t.locks.table.get l = some sle) :
    LocksButSame l t { t with conditions, locks := t.locks.store l x } :=
  fun _ hi => Table.get_store_of_ne x h hi

theorem conditionsButSame_store {x : NtConditionEntry} {locks : NamedTable NtLockEntry}
    (h : t.conditions.table.get c = some sce) :
    ConditionsButSame c t { t with locks, conditions := t.conditions.store c x } :=
  fun _ hi => Table.get_store_of_ne x h hi

end Frames

theorem wait_conserves_iff {nt : NetThread} {e : Dispatched} {c l : ℤ}
    (hop : e.request.op = .wait c l)
    (h : dispatch nt e.request e.before = .ok (e.after, e.packets)) :
    Conserves e ↔ MovesOwnId nt e.before e.request := by
  simp only [dispatch, hop] at h
  obtain ⟨sce, sle, hc, hl, hafter, -⟩ := wait_ok h
  have hlock : e.after.locks.table.get l = some (sle.handOver (·.tmod 100)) := by
    rw [hafter]
    exact Table.get_store_self _ hl
  have hcond : conditionQueue e.after c = some (sce.waitQueue ++ [nt.self]) := by
    rw [hafter, conditionQueue]
    simp only [NamedTable.store]
    rw [Table.get_store_self _ hc]
    rfl
  have hframe : LocksButSame l e.before e.after ∧ ConditionsButSame c e.before e.after := by
    rw [hafter]
    exact ⟨locksButSame_store hl, conditionsButSame_store hc⟩
  have hq : conditionQueue e.before c = some sce.waitQueue := by simp [conditionQueue, hc]
  have hhead : lockHead e.before l = sle.waitQueue.head? := by simp [lockHead, hl]
  simp only [Conserves, MovesOwnId, hop, hq, hcond, hl, hlock, hhead, Option.some.injEq]
  rw [← handOver_eq_iff]
  constructor
  · rintro ⟨h₁, h₂, -⟩
    have hid := h₁ _ rfl
    exact ⟨by simpa using hid.symm, h₂ _ rfl⟩
  · rintro ⟨h₁, h₂⟩
    refine ⟨?_, ?_, hframe⟩
    · rintro q rfl
      rw [h₁]
    · rintro _ rfl
      exact h₂

theorem signal_conserves_iff {nt : NetThread} {e : Dispatched} {c l : ℤ}
    (hop : e.request.op = .signal c l)
    (h : dispatch nt e.request e.before = .ok (e.after, e.packets)) :
    Conserves e ↔ MovesOwnId nt e.before e.request := by
  simp only [dispatch, hop] at h
  obtain ⟨sce, hc, hcase⟩ := signal_ok h
  have hhead : conditionHead e.before c = sce.waitQueue.head? := by simp [conditionHead, hc]
  rcases hcase with ⟨hnil, hafter, -⟩ | ⟨w, ws, sle, hcons, hl, hafter, -⟩
  · -- nobody waits: nothing moves, and nothing is asked
    have hq : conditionQueue e.before c = some [] := by simp [conditionQueue, hc, hnil]
    simp only [Conserves, MovesOwnId, hop, hafter, hq, hhead, hnil]
    simp [LocksButSame, ConditionsButSame]
  · have hq : conditionQueue e.before c = some (w :: ws) := by
      simp [conditionQueue, hc, hcons]
    have hlock : e.after.locks.table.get l = some (sle.wake w nt.self) := by
      rw [hafter]
      exact Table.get_store_self _ hl
    have hcond : conditionQueue e.after c = some ws := by
      rw [hafter, conditionQueue]
      simp only [NamedTable.store]
      rw [Table.get_store_self _ hc]
      rfl
    have hframe : LocksButSame l e.before e.after ∧ ConditionsButSame c e.before e.after := by
      rw [hafter]
      exact ⟨locksButSame_store hl, conditionsButSame_store hc⟩
    simp only [Conserves, MovesOwnId, hop, hq, hcond, hl, hlock, hhead, hcons,
      Option.some.injEq, Option.map_some, List.head?_cons, Option.mem_def,
      List.cons.injEq, reduceCtorEq, false_implies, true_and]
    constructor
    · rintro ⟨h₁, -⟩ hbusy x rfl
      have hw := (h₁ w ws ⟨rfl, rfl⟩).2 sle rfl
      exact (wake_eq_iff.mp hw hbusy).symm
    · intro hown
      refine ⟨?_, hframe⟩
      rintro x xs ⟨rfl, rfl⟩
      refine ⟨rfl, ?_⟩
      rintro _ rfl
      exact wake_eq_iff.mpr fun hbusy => (hown hbusy w rfl).symm

theorem broadcast_conserves {nt : NetThread} {e : Dispatched} {c l : ℤ}
    (hop : e.request.op = .broadcast c l)
    (h : dispatch nt e.request e.before = .ok (e.after, e.packets)) : Conserves e := by
  simp only [dispatch, hop] at h
  obtain ⟨sce, hc, hcase⟩ := broadcast_ok h
  have hq : conditionQueue e.before c = some sce.waitQueue := by simp [conditionQueue, hc]
  simp only [Conserves, hop, hq, Option.some.injEq]
  rcases hcase with ⟨hnil, hafter, -⟩ | ⟨sle, -, hl, hafter, -⟩
  · rw [hafter]
    refine ⟨?_, fun _ _ => rfl, fun _ _ => rfl⟩
    rintro ws rfl
    exact ⟨by rw [hq, hnil], fun sle hsle => by simpa [hnil] using hsle⟩
  · rw [hafter]
    refine ⟨?_, locksButSame_store hl, conditionsButSame_store hc⟩
    rintro ws rfl
    constructor
    · simp only [conditionQueue, NamedTable.store]
      rw [Table.get_store_self _ hc]
      rfl
    · intro sle' hl'
      obtain rfl : sle = sle' := Option.some.inj (hl.symm.trans hl')
      rw [← broadcastLoop_eq_foldl nt]
      exact Table.get_store_self _ hl

theorem release_conserves {nt : NetThread} {e : Dispatched} {l : ℤ}
    (hop : e.request.op = .release l)
    (h : dispatch nt e.request e.before = .ok (e.after, e.packets)) : Conserves e := by
  simp only [dispatch, hop] at h
  obtain ⟨sle, hl, hafter, -⟩ := release_ok h
  simp only [Conserves, hop, hafter]
  refine ⟨?_, fun _ hi => Table.get_store_of_ne _ hl hi, trivial⟩
  intro sle' hl'
  obtain rfl : sle = sle' := Option.some.inj (hl.symm.trans hl')
  exact Table.get_store_self _ hl

/-- One dispatched request conserves the ids if and only if the ids it writes
down are the right ones. -/
theorem conserves_iff {nt : NetThread} {e : Dispatched}
    (h : dispatch nt e.request e.before = .ok (e.after, e.packets)) :
    Conserves e ↔ MovesOwnId nt e.before e.request := by
  cases hop : e.request.op with
  | wait c l => exact wait_conserves_iff hop h
  | signal c l => exact signal_conserves_iff hop h
  | broadcast c l =>
      exact iff_of_true (broadcast_conserves hop h) (by simp [MovesOwnId, hop])
  | release l => exact iff_of_true (release_conserves hop h) (by simp [MovesOwnId, hop])
  | _ => simp [Conserves, MovesOwnId, hop]

/-! ## Every run -/

/-- **Waiters are conserved, exactly.** In every run of a network thread from
its initial tables, all the dispatched requests conserve the client ids if and
only if each of them moves its thread's own id where the code writes the local
identity, and an id below 100 where the code takes it `% 100`. -/
theorem waiters_conserved_iff (nt : NetThread) {tr : List Dispatched} {t : NtTables}
    (h : Run (dispatchStep nt) anyStep NtTables.initial tr t) :
    (∀ e ∈ tr, Conserves e) ↔ ∀ e ∈ tr, MovesOwnId nt e.before e.request := by
  have hd := dispatched_of_run h
  constructor
  · intro hall e he
    exact (conserves_iff (hd e he)).mp (hall e he)
  · intro hall e he
    exact (conserves_iff (hd e he)).mpr (hall e he)

/-- At the requester's own network thread the `WAIT` of `waitRequests` conserves
the ids. -/
theorem waiters_conserved_own :
    ∃ tr t, Run (dispatchStep nt101) anyStep NtTables.initial tr t ∧ tr.length = 3 ∧
      ∀ e ∈ tr, Conserves e := by
  have hx : (exec (dispatchStep nt101) anyStep [] .initial waitRequests).isSome ∧
      ∀ p ∈ exec (dispatchStep nt101) anyStep [] .initial waitRequests,
        p.1.length = 3 ∧ ∀ e ∈ p.1, MovesOwnId nt101 e.before e.request := by
    decide
  obtain ⟨⟨tr, t⟩, hp⟩ := Option.isSome_iff_exists.mp hx.1
  have hrun := Run.of_exec .start hp
  exact ⟨tr, t, hrun, (hx.2 _ hp).1, (waiters_conserved_iff nt101 hrun).mpr (hx.2 _ hp).2⟩

/-- At another network thread it does not: client 101 waits and 201 is queued. -/
theorem waiters_not_conserved :
    ¬ ∀ nt tr t, Run (dispatchStep nt) anyStep NtTables.initial tr t →
      ∀ e ∈ tr, Conserves e := by
  intro hall
  have hx : (exec (dispatchStep nt201) anyStep [] .initial waitRequests).isSome ∧
      ∀ p ∈ exec (dispatchStep nt201) anyStep [] .initial waitRequests,
        ∃ e ∈ p.1, e.request = ⟨101, .wait 0 0⟩ ∧
          conditionQueue e.before 0 = some [] ∧ conditionQueue e.after 0 = some [201] := by
    decide
  obtain ⟨⟨tr, t⟩, hp⟩ := Option.isSome_iff_exists.mp hx.1
  obtain ⟨e, he, hreq, hbefore, hafter⟩ := hx.2 _ hp
  have hcons := hall nt201 tr t (Run.of_exec .start hp) e he
  simp only [Conserves, hreq] at hcons
  have hqueue := hcons.1 [] hbefore
  rw [hafter] at hqueue
  revert hqueue
  decide

end Nachos.Network
