import Nachos.Network.Names
import Nachos.Network.Waiters

/-!
# Entries that are not there

The indexes of a request come from a user program as they are, and the switch follows what
`Table::Get` returns for them without a look. A `CREATE` searches the names up to a counter that
is never taken back, goes to the entry of the name it finds, and uses what `Table::Put` returns
as an index. `Present` says, for each branch and from the tables alone, that everything it needs
is there. A request is served if and only if it is.
-/

namespace Nachos.Network

open Nachos.Userprog Nachos.Lib

/-! ## What the branches need -/

/-- What a `CREATE` of `name` needs: the first name that matches is inside the array, and its entry
is there if the branch goes to it; or no name matches, the search ends inside the array, and the
table has a free slot. -/
def NamedTable.Creates {α : Type} (follows : Bool) (n : NamedTable α) (name : Text) : Prop :=
  (∃ i < n.nameNumber, i < tableSize ∧ n.name i = name ∧ (∀ j < i, n.name j ≠ name) ∧
    (follows = true → n.Live i)) ∨
  (∀ i < n.nameNumber, n.name i ≠ name) ∧ n.nameNumber ≤ tableSize ∧ ∃ k < n.table.size, ¬ n.Live k

/-- The table holds an entry at `i`. -/
def NamedTable.Holds {α : Type} (n : NamedTable α) (i : ℤ) : Prop := (n.table.get i).isSome = true

/-- Everything that the request needs is there. -/
def Present (t : NtTables) (r : Request) : Prop :=
  match r.op with
  | .createLock name => t.locks.Creates true name
  | .acquire _ => True
  | .release l => t.locks.Holds l
  | .destroyLock l => t.locks.Holds l
  | .createCV name => t.conditions.Creates true name
  | .signal c l => t.conditions.Holds c ∧ (conditionQueue t c ≠ some [] → t.locks.Holds l)
  | .wait c l => t.conditions.Holds c ∧ t.locks.Holds l
  | .broadcast c l => t.conditions.Holds c ∧ (conditionQueue t c ≠ some [] → t.locks.Holds l)
  | .destroyCV c => t.conditions.Holds c
  | .createMonitor name => t.monitors.Creates false name
  | .retrieveMonitor m => t.monitors.Holds m
  | .setMonitor m _ => t.monitors.Holds m
  | .startSimulation => True

/-- The branch runs to its end, and a `DESTROY` writes inside the name array. -/
def Safe (nt : NetThread) (t : NtTables) (r : Request) : Prop :=
  (∃ t' ps, dispatch nt r t = .ok (t', ps)) ∧
    ∀ i, r.op = .destroyLock i ∨ r.op = .destroyCV i → 0 ≤ i ∧ i < tableSize

/-! ## One branch -/

namespace NamedTable

variable {α : Type} {n : NamedTable α} {i : ℤ}

theorem fetch_isOk : (∃ e, n.fetch i = .ok e) ↔ n.Holds i := by
  simp only [fetch_ok, Holds, Option.isSome_iff_exists]

theorem put_isOk (n : NamedTable α) (x : α) :
    (n.table.put x).1 ≠ -1 ↔ ∃ k < n.table.size, ¬ n.Live k := by
  constructor
  · intro h
    obtain ⟨hnone, hsome, hsize, -⟩ := Table.put_spec (t := n.table) (x := x) rfl h
    obtain ⟨hnonneg, hlt⟩ := Table.get_range hsome
    obtain ⟨k, hk⟩ := Int.eq_ofNat_of_zero_le hnonneg
    rw [hk] at hnone hlt
    exact ⟨k, by omega, by rw [Live, hnone]; simp⟩
  · rintro ⟨k, hk, hdead⟩
    have hnone : n.table.get k = none := by simpa [Live] using hdead
    have := (Table.put_le x hk hnone).1
    omega

theorem create_isOk {follows : Bool} (found : NamedTable α → ℕ → Except Fault (NamedTable α))
    (fresh : α) (name : Text)
    (hfound : ∀ k, (∃ n', found n k = .ok n') ↔ (follows = true → n.Live k)) :
    (∃ o, n.create found fresh name = .ok o) ↔ n.Creates follows name := by
  constructor
  · rintro ⟨o, h⟩
    unfold create at h
    split at h
    · cases h
    · rename_i k hk
      obtain ⟨-, hlt, hname, hfirst⟩ := findName_some hk
      have hrange := (findName_range hk).1 k rfl
      refine .inl ⟨k, by omega, hrange, hname, fun j hj => hfirst j (Nat.zero_le j) hj, ?_⟩
      split at h
      · cases h
      · rename_i m hm
        exact (hfound k).mp ⟨m, hm⟩
    · rename_i hnone
      have hrange := (findName_range hnone).2 rfl
      refine .inr ⟨fun j hj => findName_none hnone j (Nat.zero_le j) (by omega), ?_, ?_⟩
      · rcases Nat.eq_zero_or_pos n.nameNumber with hzero | hpos
        · omega
        · have := hrange hpos
          omega
      · rw [← put_isOk n fresh]
        intro hput
        simp [hput] at h
  · rintro (⟨k, hlt, hrange, hname, hfirst, hlive⟩ | ⟨hnone, hle, hroom⟩)
    · obtain ⟨n', hn'⟩ := (hfound k).mpr hlive
      have hfind := findName_first (Nat.zero_le k) (by omega : k < 0 + n.nameNumber) hrange hname
        fun j _ hj => hfirst j hj
      refine ⟨(k, n'), ?_⟩
      simp only [create, hfind, hn']
    · obtain ⟨o, ho⟩ := findName_ok n.name name n.nameNumber 0 (by omega)
      have hfind : o = none := by
        cases o with
        | none => rfl
        | some k =>
            obtain ⟨-, hlt, hname, -⟩ := findName_some ho
            exact absurd hname (hnone k (by omega))
      rw [hfind] at ho
      have hput := (put_isOk n fresh).mpr hroom
      refine ⟨((n.table.put fresh).1, ⟨(n.table.put fresh).2,
        Function.update n.name (n.table.put fresh).1.toNat name, n.nameNumber + 1⟩), ?_⟩
      simp only [create, ho, if_neg hput]

theorem count_isOk (incr : α → α) (k : ℕ) :
    (∃ n', n.count incr k = .ok n') ↔ (true = true → n.Live k) := by
  have hlive : (true = true → n.Live k) ↔ ∃ e, n.fetch k = .ok e := by
    rw [fetch_isOk]
    exact ⟨fun h => h rfl, fun h _ => h⟩
  rw [hlive, count]
  cases n.fetch k with
  | error f => simp
  | ok e => simp

theorem destroy_isOk (decr : α → α) (deleteCounter : α → ℤ) :
    (∃ o, n.destroy decr deleteCounter i = .ok o) ↔ n.Holds i := by
  rw [← fetch_isOk, destroy]
  cases n.fetch i with
  | error f => simp
  | ok e =>
      refine iff_of_true ?_ ⟨e, rfl⟩
      by_cases h : deleteCounter (decr e) = 0
      · simp only [if_pos h]
        exact ⟨_, rfl⟩
      · simp only [if_neg h]
        exact ⟨_, rfl⟩

end NamedTable

section Branches

variable (nt : NetThread) (r : Request) (t : NtTables)

/-- The branch ends without a fault. -/
def Outcome.Ok (o : Outcome) : Prop := ∃ t' ps, o = .ok (t', ps)

theorem Outcome.ok_ok (t : NtTables) (ps : List Packet) : Outcome.Ok (.ok (t, ps)) := ⟨t, ps, rfl⟩

theorem Outcome.not_ok_error (f : Fault) : ¬ Outcome.Ok (.error f) := by
  rintro ⟨t', ps, h⟩
  cases h

theorem createLock_isOk (name : Text) :
    Outcome.Ok (createLock nt r name t) ↔ t.locks.Creates true name := by
  let incr (sle : NtLockEntry) := { sle with deleteCounter := sle.deleteCounter + 1 }
  rw [← NamedTable.create_isOk (NamedTable.count incr) ⟨[], .free, r.ntID, 1⟩ name
    (NamedTable.count_isOk incr)]
  simp only [createLock]
  rw [create_of_count
    (show t.locks.create (NamedTable.count incr) ⟨[], .free, r.ntID, 1⟩ name = _ from rfl)]
  · cases t.locks.create (NamedTable.count incr) ⟨[], .free, r.ntID, 1⟩ name <;> simp [Outcome.Ok]
  · intro n i
    unfold NamedTable.count
    cases n.fetch i <;> rfl

theorem createCV_isOk (name : Text) :
    Outcome.Ok (createCV nt r name t) ↔ t.conditions.Creates true name := by
  let incr (sce : NtConditionEntry) := { sce with deleteCounter := sce.deleteCounter + 1 }
  rw [← NamedTable.create_isOk (NamedTable.count incr) ⟨[], 0, 1⟩ name
    (NamedTable.count_isOk incr)]
  simp only [createCV]
  rw [create_of_count
    (show t.conditions.create (NamedTable.count incr) ⟨[], 0, 1⟩ name = _ from rfl)]
  · cases t.conditions.create (NamedTable.count incr) ⟨[], 0, 1⟩ name <;> simp [Outcome.Ok]
  · intro n i
    unfold NamedTable.count
    cases n.fetch i <;> rfl

theorem createMonitor_isOk (name : Text) :
    Outcome.Ok (createMonitor nt r name t) ↔ t.monitors.Creates false name := by
  rw [← NamedTable.create_isOk (fun n _ => .ok n) ⟨0⟩ name (fun k => by simp)]
  unfold createMonitor
  cases t.monitors.create _ _ name <;> simp [Outcome.Ok]

theorem destroyLock_isOk (l : ℤ) : Outcome.Ok (destroyLock nt r l t) ↔ t.locks.Holds l := by
  rw [← NamedTable.destroy_isOk
    (fun sle => { sle with deleteCounter := sle.deleteCounter - 1 }) NtLockEntry.deleteCounter]
  unfold destroyLock
  cases t.locks.destroy _ _ l <;> simp [Outcome.Ok]

theorem destroyCV_isOk (c : ℤ) : Outcome.Ok (destroyCV nt r c t) ↔ t.conditions.Holds c := by
  rw [← NamedTable.destroy_isOk
    (fun sce => { sce with deleteCounter := sce.deleteCounter - 1 })
    NtConditionEntry.deleteCounter]
  unfold destroyCV
  cases t.conditions.destroy _ _ c <;> simp [Outcome.Ok]

theorem release_isOk (l : ℤ) : Outcome.Ok (release nt r l t) ↔ t.locks.Holds l := by
  rw [← NamedTable.fetch_isOk, release]
  cases t.locks.fetch l with
  | error f => simp [Outcome.not_ok_error]
  | ok sle => cases hq : sle.waitQueue <;> simp [Outcome.ok_ok, hq]

theorem wait_isOk (c l : ℤ) :
    Outcome.Ok (wait nt r c l t) ↔ t.conditions.Holds c ∧ t.locks.Holds l := by
  rw [← NamedTable.fetch_isOk, ← NamedTable.fetch_isOk, wait]
  cases t.conditions.fetch c with
  | error f => simp [Outcome.not_ok_error]
  | ok sce =>
      cases t.locks.fetch l with
      | error f => simp [Outcome.not_ok_error]
      | ok sle => cases hq : sle.waitQueue <;> simp [Outcome.ok_ok, hq]

theorem queue_of_fetch {c : ℤ} {sce : NtConditionEntry} (h : t.conditions.fetch c = .ok sce) :
    conditionQueue t c = some sce.waitQueue := by
  rw [conditionQueue, NamedTable.fetch_ok.mp h]
  rfl

theorem signal_isOk (c l : ℤ) :
    Outcome.Ok (signal nt r c l t) ↔
      t.conditions.Holds c ∧ (conditionQueue t c ≠ some [] → t.locks.Holds l) := by
  rw [← NamedTable.fetch_isOk, ← NamedTable.fetch_isOk, signal]
  cases hc : t.conditions.fetch c with
  | error f => simp [Outcome.not_ok_error]
  | ok sce =>
      rw [queue_of_fetch t hc]
      cases hq : sce.waitQueue with
      | nil => simp [Outcome.ok_ok, hq]
      | cons w ws =>
          cases t.locks.fetch l with
          | error f => simp [Outcome.not_ok_error, hq]
          | ok sle => by_cases hs : sle.state = .free <;> simp [Outcome.ok_ok, hq, hs]

theorem broadcast_isOk (c l : ℤ) :
    Outcome.Ok (broadcast nt r c l t) ↔
      t.conditions.Holds c ∧ (conditionQueue t c ≠ some [] → t.locks.Holds l) := by
  rw [← NamedTable.fetch_isOk, ← NamedTable.fetch_isOk, broadcast]
  cases hc : t.conditions.fetch c with
  | error f => simp [Outcome.not_ok_error]
  | ok sce =>
      rw [queue_of_fetch t hc]
      cases hq : sce.waitQueue with
      | nil => simp [Outcome.ok_ok, hq]
      | cons w ws =>
          cases t.locks.fetch l with
          | error f => simp [Outcome.not_ok_error, hq]
          | ok sle => simp [Outcome.ok_ok, hq]

theorem retrieveMonitor_isOk (m : ℤ) :
    Outcome.Ok (retrieveMonitor nt r m t) ↔ t.monitors.Holds m := by
  rw [← NamedTable.fetch_isOk, retrieveMonitor]
  cases t.monitors.fetch m with
  | error f => simp [Outcome.not_ok_error]
  | ok sme => simp [Outcome.ok_ok]

theorem setMonitor_isOk (m v : ℤ) :
    Outcome.Ok (setMonitor nt r m v t) ↔ t.monitors.Holds m := by
  rw [← NamedTable.fetch_isOk, setMonitor]
  cases t.monitors.fetch m with
  | error f => simp [Outcome.not_ok_error]
  | ok sme => simp [Outcome.ok_ok]

/-- A request is served exactly when all it needs is there. -/
theorem dispatch_isOk : Outcome.Ok (dispatch nt r t) ↔ Present t r := by
  unfold dispatch Present
  cases r.op with
  | createLock name => exact createLock_isOk nt r t name
  | acquire l => exact iff_of_true (Outcome.ok_ok t []) trivial
  | release l => exact release_isOk nt r t l
  | destroyLock l => exact destroyLock_isOk nt r t l
  | createCV name => exact createCV_isOk nt r t name
  | signal c l => exact signal_isOk nt r t c l
  | wait c l => exact wait_isOk nt r t c l
  | broadcast c l => exact broadcast_isOk nt r t c l
  | destroyCV c => exact destroyCV_isOk nt r t c
  | createMonitor name => exact createMonitor_isOk nt r t name
  | retrieveMonitor m => exact retrieveMonitor_isOk nt r t m
  | setMonitor m v => exact setMonitor_isOk nt r t m v
  | startSimulation => exact iff_of_true (Outcome.ok_ok t []) trivial

end Branches

/-! ## Every sequence of requests -/

section Sequences

variable {nt : NetThread} {r : Request} {t t' : NtTables} {ps : List Packet}

/-- The tables with names that a `DESTROY` writes have fifty slots. -/
structure Sized (t : NtTables) : Prop where
  locks : t.locks.table.size = tableSize
  conditions : t.conditions.table.size = tableSize

theorem sized_initial : Sized .initial := ⟨rfl, rfl⟩

theorem Sized.of_eq (h : Sized t) (hl : t'.locks = t.locks) (hc : t'.conditions = t.conditions) :
    Sized t' := by
  refine ⟨?_, ?_⟩
  · rw [hl]
    exact h.locks
  · rw [hc]
    exact h.conditions

/-- No request makes a table larger or smaller. -/
theorem Sized.dispatch (h : Sized t) (hd : dispatch nt r t = .ok (t', ps)) : Sized t' := by
  unfold Network.dispatch at hd
  cases hop : r.op with
  | createLock name =>
      obtain ⟨hc, -, i, -, hcase⟩ := createLock_ok (by simpa only [hop] using hd)
      refine ⟨?_, by rw [hc]; exact h.conditions⟩
      rcases hcase with ⟨sle, -, hstore⟩ | ⟨-, -, hsize, -⟩
      · rw [hstore]
        exact h.locks
      · rw [hsize]
        exact h.locks
  | acquire l =>
      simp only [hop, acquire, Except.ok.injEq, Prod.mk.injEq] at hd
      exact h.of_eq (by rw [hd.1]) (by rw [hd.1])
  | release l =>
      obtain ⟨sle, -, rfl, -⟩ := release_ok (by simpa only [hop] using hd)
      exact ⟨h.locks, h.conditions⟩
  | destroyLock l =>
      obtain ⟨hc, -, sle, -, -, -, hcase⟩ := destroyLock_ok (by simpa only [hop] using hd)
      refine ⟨?_, by rw [hc]; exact h.conditions⟩
      rcases hcase with htab | hstore
      · rw [htab, Table.remove_size]
        exact h.locks
      · rw [hstore]
        exact h.locks
  | createCV name =>
      obtain ⟨hl, -, i, -, hcase⟩ := createCV_ok (by simpa only [hop] using hd)
      refine ⟨by rw [hl]; exact h.locks, ?_⟩
      rcases hcase with ⟨sce, -, hstore⟩ | ⟨-, -, hsize, -⟩
      · rw [hstore]
        exact h.conditions
      · rw [hsize]
        exact h.conditions
  | signal c l =>
      obtain ⟨sce, -, hcase⟩ := signal_ok (by simpa only [hop] using hd)
      rcases hcase with ⟨-, rfl, -⟩ | ⟨w, ws, sle, -, -, rfl, -⟩
      · exact h
      · exact ⟨h.locks, h.conditions⟩
  | wait c l =>
      obtain ⟨sce, sle, -, -, rfl, -⟩ := wait_ok (by simpa only [hop] using hd)
      exact ⟨h.locks, h.conditions⟩
  | broadcast c l =>
      obtain ⟨sce, -, hcase⟩ := broadcast_ok (by simpa only [hop] using hd)
      rcases hcase with ⟨-, rfl, -⟩ | ⟨sle, -, -, rfl, -⟩
      · exact h
      · exact ⟨h.locks, h.conditions⟩
  | destroyCV c =>
      obtain ⟨hl, -, sce, -, -, -, hcase⟩ := destroyCV_ok (by simpa only [hop] using hd)
      refine ⟨by rw [hl]; exact h.locks, ?_⟩
      rcases hcase with htab | hstore
      · rw [htab, Table.remove_size]
        exact h.conditions
      · rw [hstore]
        exact h.conditions
  | createMonitor name =>
      obtain ⟨hl, hc, -⟩ := createMonitor_ok (by simpa only [hop] using hd)
      exact h.of_eq hl hc
  | retrieveMonitor m =>
      obtain ⟨rfl, -⟩ := retrieveMonitor_ok (by simpa only [hop] using hd)
      exact h
  | setMonitor m v =>
      obtain ⟨hl, hc, -⟩ := setMonitor_ok (by simpa only [hop] using hd)
      exact h.of_eq hl hc
  | startSimulation =>
      simp only [hop, Except.ok.injEq, Prod.mk.injEq] at hd
      exact h.of_eq (by rw [hd.1]) (by rw [hd.1])

theorem range_of_holds {α : Type} {n : NamedTable α} {i : ℤ} (hsize : n.table.size = tableSize)
    (h : n.Holds i) : 0 ≤ i ∧ i < tableSize := by
  obtain ⟨e, he⟩ := Option.isSome_iff_exists.mp h
  rw [← hsize]
  exact Table.get_range he

/-- In tables of fifty slots, an index with an entry is an index into the names. -/
theorem safe_iff_present (hsized : Sized t) : Safe nt t r ↔ Present t r := by
  constructor
  · rintro ⟨hok, -⟩
    exact (dispatch_isOk nt r t).mp hok
  · intro h
    refine ⟨(dispatch_isOk nt r t).mpr h, ?_⟩
    rintro i (hop | hop)
    · simp only [Present, hop] at h
      exact range_of_holds hsized.locks h
    · simp only [Present, hop] at h
      exact range_of_holds hsized.conditions h

/-- `P` holds of every request of a sequence in the tables it meets, as far as the sequence is
served. -/
def AllMeet (nt : NetThread) (P : NtTables → Request → Prop) : List Request → NtTables → Prop
  | [], _ => True
  | r :: rs, t => P t r ∧ ∀ t' ps, dispatch nt r t = .ok (t', ps) → AllMeet nt P rs t'

theorem allMeet_iff (nt : NetThread) : ∀ (rs : List Request) {t : NtTables}, Sized t →
    (AllMeet nt (Safe nt) rs t ↔ AllMeet nt Present rs t)
  | [], _, _ => Iff.rfl
  | r :: rs, t, hsized => by
      unfold AllMeet
      rw [safe_iff_present hsized]
      refine and_congr_right fun _ => forall₃_congr fun t' ps hd => ?_
      exact allMeet_iff nt rs (hsized.dispatch hd)

/-- **No missing entry is touched, exactly when none is named.** A sequence of requests is handled
without following a null pointer and without an index outside the fifty names if and only if every
request of it finds what its branch needs: the entries it names, the entry of a name that a
`CREATE` finds, and for a new name an empty slot and no more than fifty creations before it. -/
theorem requests_safe_iff (nt : NetThread) (rs : List Request) :
    AllMeet nt (Safe nt) rs .initial ↔ AllMeet nt Present rs .initial :=
  allMeet_iff nt rs sized_initial

end Sequences

/-- A user program may release a lock that was never created. -/
theorem requests_not_safe :
    ¬ ∀ nt rs, AllMeet nt (Safe nt) rs .initial := by
  intro hall
  obtain ⟨⟨⟨t', ps, hd⟩, -⟩, -⟩ := hall nt101 [⟨101, .release 7⟩]
  have hfault : dispatch nt101 ⟨101, .release 7⟩ .initial = .error .missingEntry := rfl
  rw [hfault] at hd
  cases hd

end Nachos.Network
