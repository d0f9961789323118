import Nachos.Network.Waiters
import Mathlib.Data.List.Infix

/-!
# The contract of a distributed lock

What a lock is for: a free lock goes to whoever asks for it, a busy one queues
the requests, only its owner gives it up, and then the first in the queue owns
it; so at most one client at a time has been granted a lock it has not given
back. `LockContract` states this for one dispatched request and one entry.
The code has no `ACQUIRE`, does not check who releases and cuts the next
owner's id to two digits in `WAIT`. Apart from requests that run into one of
these, every run keeps the contract.
-/

namespace Nachos.Network

open Nachos.Userprog Nachos.Lib

/-! ## The contract -/

/-- The requests that give lock `i` back. -/
def givesBack (i : ℤ) : Op → Bool
  | .release l => decide (l = i)
  | .wait _ l => decide (l = i)
  | _ => false

/-- The lock went to another owner, was freed, or moved on to the next in its
queue. -/
def ChangesHands (sle sle' : NtLockEntry) : Prop :=
  sle'.owner ≠ sle.owner ∨ sle'.state ≠ sle.state ∨
    sle'.waitQueue.length < sle.waitQueue.length

/-- The contract for lock `i` over one dispatched request. -/
structure LockContract (nt : NetThread) (e : Dispatched) (i : ℤ) : Prop where
  acquire_free : ∀ sle, e.before.locks.table.get i = some sle →
    e.request.op = .acquire i → sle.state = .free →
      e.after.locks.table.get i =
        some { sle with owner := e.request.ntID, state := .busy } ∧
      (e.request.ntID = nt.self → ∃ ack, toOwn nt ack ∈ e.packets)
  acquire_busy : ∀ sle, e.before.locks.table.get i = some sle →
    e.request.op = .acquire i → sle.state = .busy →
      e.after.locks.table.get i =
        some { sle with waitQueue := sle.waitQueue ++ [e.request.ntID] } ∧ e.packets = []
  owner_only : ∀ sle sle', e.before.locks.table.get i = some sle →
    e.after.locks.table.get i = some sle' → sle.state = .busy → ChangesHands sle sle' →
      givesBack i e.request.op = true ∧ e.request.ntID = sle.owner
  next_owner : ∀ sle, e.before.locks.table.get i = some sle → sle.state = .busy →
    givesBack i e.request.op = true → e.request.ntID = sle.owner →
      e.after.locks.table.get i = some (sle.handOver id)
  release_other : ∀ sle, e.before.locks.table.get i = some sle →
    e.request.op = .release i → e.request.ntID ≠ sle.owner →
      ∃ sle', e.after.locks.table.get i = some sle' ∧ sle'.state = sle.state ∧
        sle'.owner = sle.owner ∧ sle'.waitQueue = sle.waitQueue

/-- Lock `i` was granted by this request: it is busy now and was free, or its
queue moved on. -/
def Granted (i : ℤ) (e : Dispatched) : Prop :=
  ∃ sle ∈ e.before.locks.table.get i, ∃ sle' ∈ e.after.locks.table.get i,
    sle'.state = .busy ∧
      (sle.state = .free ∨ sle'.waitQueue.length < sle.waitQueue.length)

open Classical in
/-- The clients that have been granted lock `i` and have not given it back: a
grant adds the new owner, a `RELEASE` or `WAIT` takes its requester out, and
with the entry gone there is no such lock any more. -/
noncomputable def holdersStep (i : ℤ) (hs : List ℤ) (e : Dispatched) : List ℤ :=
  let hs₁ := if givesBack i e.request.op then hs.filter (· ≠ e.request.ntID) else hs
  match e.after.locks.table.get i with
  | none => []
  | some sle' => if Granted i e then sle'.owner :: hs₁ else hs₁

noncomputable def holders (i : ℤ) (tr : List Dispatched) : List ℤ :=
  tr.foldl (holdersStep i) []

theorem holders_snoc (i : ℤ) (tr : List Dispatched) (e : Dispatched) :
    holders i (tr ++ [e]) = holdersStep i (holders i tr) e := by
  unfold holders
  rw [List.foldl_append]
  rfl

/-- At any time at most one client holds lock `i`. -/
def MutualExclusion (i : ℤ) (tr : List Dispatched) : Prop :=
  ∀ tr', tr' <+: tr → ∀ p ∈ holders i tr', ∀ q ∈ holders i tr', p = q

/-- The request avoids what the code gets wrong about locks: it is no `ACQUIRE`
of an existing lock, a `RELEASE` comes from the owner (or finds a free lock
without owner), and a `WAIT` at a busy lock comes from the owner and hands over
to an id that `% 100` keeps. -/
def OwnerActs (t : NtTables) (r : Request) : Prop :=
  match r.op with
  | .acquire l => t.locks.table.get l = none
  | .release l => ∀ sle ∈ t.locks.table.get l,
      r.ntID = sle.owner ∨ (sle.state = .free ∧ sle.owner = 0)
  | .wait _ l => ∀ sle ∈ t.locks.table.get l, sle.state = .busy →
      r.ntID = sle.owner ∧ ∀ w ∈ sle.waitQueue.head?, w.tmod 100 = w
  | _ => True

instance (t : NtTables) (r : Request) : Decidable (OwnerActs t r) :=
  match r with
  | ⟨_, .acquire _⟩ => inferInstanceAs (Decidable (_ = _))
  | ⟨_, .release l⟩ => inferInstanceAs (Decidable (∀ sle ∈ t.locks.table.get l, _))
  | ⟨_, .wait _ l⟩ => inferInstanceAs (Decidable (∀ sle ∈ t.locks.table.get l, _))
  | ⟨_, .createLock _⟩ | ⟨_, .destroyLock _⟩ | ⟨_, .createCV _⟩ | ⟨_, .signal ..⟩
  | ⟨_, .broadcast ..⟩ | ⟨_, .destroyCV _⟩ | ⟨_, .createMonitor _⟩ | ⟨_, .retrieveMonitor _⟩
  | ⟨_, .setMonitor ..⟩ | ⟨_, .startSimulation⟩ => inferInstanceAs (Decidable True)

/-! ## What one request does to one entry -/

/-- State, owner and queue are as before. -/
def SameLock (sle sle' : NtLockEntry) : Prop :=
  sle'.state = sle.state ∧ sle'.owner = sle.owner ∧ sle'.waitQueue = sle.waitQueue

/-- Waiters were woken: the lock is busy, a busy lock keeps its owner, and ids
were only added at the end of the queue. -/
def Woken (sle sle' : NtLockEntry) : Prop :=
  sle'.state = .busy ∧ (sle.state = .busy → sle'.owner = sle.owner) ∧
    sle.waitQueue <+: sle'.waitQueue

theorem woken_wake (w q : ℤ) (sle : NtLockEntry) : Woken sle (sle.wake w q) := by
  cases hs : sle.state with
  | free => rw [wake_free hs]; exact ⟨rfl, by simp [hs], List.prefix_rfl⟩
  | busy => rw [wake_busy hs]; exact ⟨hs, fun _ => rfl, List.prefix_append _ _⟩

theorem Woken.trans {a b c : NtLockEntry} (h₁ : Woken a b) (h₂ : Woken b c) : Woken a c :=
  ⟨h₂.1, fun ha => (h₂.2.1 h₁.1).trans (h₁.2.1 ha), h₁.2.2.trans h₂.2.2⟩

theorem woken_foldl : ∀ {ws : List ℤ} (sle : NtLockEntry), ws ≠ [] →
    Woken sle (ws.foldl (fun sle w => sle.wake w w) sle)
  | [], _, h => absurd rfl h
  | [w], sle, _ => woken_wake w w sle
  | w :: v :: ws, sle, _ =>
      (woken_wake w w sle).trans (woken_foldl _ (List.cons_ne_nil v ws))

/-- What a request can do to an entry that exists. -/
inductive LockEffect (i : ℤ) (op : Op) (sle : NtLockEntry) : Option NtLockEntry → Prop
  | same {sle' : NtLockEntry} : givesBack i op = false → SameLock sle sle' →
      LockEffect i op sle (some sle')
  | woken {sle' : NtLockEntry} : givesBack i op = false → op ≠ .acquire i →
      Woken sle sle' → LockEffect i op sle (some sle')
  | gone : givesBack i op = false → op ≠ .acquire i → LockEffect i op sle none
  | released : op = .release i → LockEffect i op sle (some (sle.handOver id))
  | waited (c : ℤ) : op = .wait c i →
      LockEffect i op sle (some (sle.handOver (·.tmod 100)))

/-- Nothing happened to the entry at `i`. -/
theorem LockEffect.of_eq {i : ℤ} {op : Op} {sle : NtLockEntry} {o : Option NtLockEntry}
    (hb : givesBack i op = false) (h : o = some sle) : LockEffect i op sle o := by
  subst h
  exact .same hb ⟨rfl, rfl, rfl⟩

theorem LockEffect.release_eq {i : ℤ} {sle : NtLockEntry} {o : Option NtLockEntry}
    (h : LockEffect i (.release i) sle o) : o = some (sle.handOver id) := by
  cases h with
  | same hg _ => simp [givesBack] at hg
  | woken hg _ _ => simp [givesBack] at hg
  | gone hg _ => simp [givesBack] at hg
  | released _ => rfl
  | waited c hop => cases hop

theorem LockEffect.wait_eq {i c : ℤ} {sle : NtLockEntry} {o : Option NtLockEntry}
    (h : LockEffect i (.wait c i) sle o) : o = some (sle.handOver (·.tmod 100)) := by
  cases h with
  | same hg _ => simp [givesBack] at hg
  | woken hg _ _ => simp [givesBack] at hg
  | gone hg _ => simp [givesBack] at hg
  | released hop => cases hop
  | waited _ _ => rfl

section Effect

variable {nt : NetThread} {e : Dispatched} {i : ℤ} {sle : NtLockEntry}

theorem createLock_effect {name : Text} (hop : e.request.op = .createLock name)
    (hd : createLock nt e.request name e.before = .ok (e.after, e.packets))
    (hi : e.before.locks.table.get i = some sle) :
    LockEffect i e.request.op sle (e.after.locks.table.get i) := by
  have hb : givesBack i e.request.op = false := by rw [hop]; rfl
  obtain ⟨-, -, j, -, hcase⟩ := createLock_ok hd
  rcases hcase with ⟨sle₁, hj, hlocks⟩ | ⟨hnone, -, -, hframe⟩
  · rw [hlocks]
    by_cases hij : i = j
    · subst hij
      obtain rfl : sle = sle₁ := Option.some.inj (hi.symm.trans hj)
      simp only [NamedTable.store]
      rw [Table.get_store_self _ hj]
      exact .same hb ⟨rfl, rfl, rfl⟩
    · exact .of_eq hb ((Table.get_store_of_ne _ hj hij).trans hi)
  · have hij : i ≠ j := by
      rintro rfl
      rw [hi] at hnone
      cases hnone
    exact .of_eq hb ((hframe i hij).trans hi)

theorem destroyLock_effect {l : ℤ} (hop : e.request.op = .destroyLock l)
    (hd : destroyLock nt e.request l e.before = .ok (e.after, e.packets))
    (hi : e.before.locks.table.get i = some sle) :
    LockEffect i e.request.op sle (e.after.locks.table.get i) := by
  have hb : givesBack i e.request.op = false := by rw [hop]; rfl
  obtain ⟨-, -, sle₁, -, hl, -, hcase⟩ := destroyLock_ok hd
  rcases hcase with htab | hlocks
  · rw [htab, Table.get_remove]
    by_cases hil : i = l
    · rw [if_pos hil]
      exact .gone hb (by rw [hop]; simp)
    · rw [if_neg hil]
      exact .of_eq hb hi
  · rw [hlocks]
    by_cases hil : i = l
    · subst hil
      obtain rfl : sle = sle₁ := Option.some.inj (hi.symm.trans hl)
      simp only [NamedTable.store]
      rw [Table.get_store_self _ hl]
      exact .same hb ⟨rfl, rfl, rfl⟩
    · exact .of_eq hb ((Table.get_store_of_ne _ hl hil).trans hi)

theorem release_effect {l : ℤ} (hop : e.request.op = .release l)
    (hd : release nt e.request l e.before = .ok (e.after, e.packets))
    (hi : e.before.locks.table.get i = some sle) :
    LockEffect i e.request.op sle (e.after.locks.table.get i) := by
  obtain ⟨sle₁, hl, hafter, -⟩ := release_ok hd
  rw [hafter]
  by_cases hil : i = l
  · subst hil
    obtain rfl : sle = sle₁ := Option.some.inj (hi.symm.trans hl)
    simp only [NamedTable.store]
    rw [Table.get_store_self _ hl]
    exact .released hop
  · refine .of_eq ?_ ((Table.get_store_of_ne _ hl hil).trans hi)
    rw [hop]
    simp [givesBack, Ne.symm hil]

theorem wait_effect {c l : ℤ} (hop : e.request.op = .wait c l)
    (hd : wait nt e.request c l e.before = .ok (e.after, e.packets))
    (hi : e.before.locks.table.get i = some sle) :
    LockEffect i e.request.op sle (e.after.locks.table.get i) := by
  obtain ⟨_, sle₁, -, hl, hafter, -⟩ := wait_ok hd
  rw [hafter]
  by_cases hil : i = l
  · subst hil
    obtain rfl : sle = sle₁ := Option.some.inj (hi.symm.trans hl)
    simp only [NamedTable.store]
    rw [Table.get_store_self _ hl]
    exact .waited c hop
  · refine .of_eq ?_ ((Table.get_store_of_ne _ hl hil).trans hi)
    rw [hop]
    simp [givesBack, Ne.symm hil]

theorem signal_effect {c l : ℤ} (hop : e.request.op = .signal c l)
    (hd : signal nt e.request c l e.before = .ok (e.after, e.packets))
    (hi : e.before.locks.table.get i = some sle) :
    LockEffect i e.request.op sle (e.after.locks.table.get i) := by
  have hb : givesBack i e.request.op = false := by rw [hop]; rfl
  obtain ⟨_, -, hcase⟩ := signal_ok hd
  rcases hcase with ⟨-, hafter, -⟩ | ⟨w, ws, sle₁, -, hl, hafter, -⟩
  · rw [hafter]
    exact .of_eq hb hi
  · rw [hafter]
    by_cases hil : i = l
    · subst hil
      obtain rfl : sle = sle₁ := Option.some.inj (hi.symm.trans hl)
      simp only [NamedTable.store]
      rw [Table.get_store_self _ hl]
      exact .woken hb (by rw [hop]; simp) (woken_wake _ _ _)
    · exact .of_eq hb ((Table.get_store_of_ne _ hl hil).trans hi)

theorem broadcast_effect {c l : ℤ} (hop : e.request.op = .broadcast c l)
    (hd : broadcast nt e.request c l e.before = .ok (e.after, e.packets))
    (hi : e.before.locks.table.get i = some sle) :
    LockEffect i e.request.op sle (e.after.locks.table.get i) := by
  have hb : givesBack i e.request.op = false := by rw [hop]; rfl
  obtain ⟨sce, -, hcase⟩ := broadcast_ok hd
  rcases hcase with ⟨-, hafter, -⟩ | ⟨sle₁, hne, hl, hafter, -⟩
  · rw [hafter]
    exact .of_eq hb hi
  · rw [hafter]
    by_cases hil : i = l
    · subst hil
      obtain rfl : sle = sle₁ := Option.some.inj (hi.symm.trans hl)
      simp only [NamedTable.store]
      rw [Table.get_store_self _ hl, broadcastLoop_eq_foldl]
      exact .woken hb (by rw [hop]; simp) (woken_foldl _ hne)
    · exact .of_eq hb ((Table.get_store_of_ne _ hl hil).trans hi)

/-- **The effect of any request on any lock entry.** -/
theorem lock_effect (h : dispatch nt e.request e.before = .ok (e.after, e.packets))
    (hi : e.before.locks.table.get i = some sle) :
    LockEffect i e.request.op sle (e.after.locks.table.get i) := by
  have hd := h
  unfold dispatch at hd
  have hsame : givesBack i e.request.op = false → e.after.locks = e.before.locks →
      LockEffect i e.request.op sle (e.after.locks.table.get i) := by
    intro hb hl
    exact .of_eq hb (by rw [hl]; exact hi)
  cases hop : e.request.op with
  | createLock name => rw [hop] at hd; rw [← hop]; exact createLock_effect hop hd hi
  | acquire l =>
      rw [hop] at hd
      simp only [acquire, Except.ok.injEq, Prod.mk.injEq] at hd
      rw [← hop]
      exact hsame (by rw [hop]; rfl) (by rw [← hd.1])
  | release l => rw [hop] at hd; rw [← hop]; exact release_effect hop hd hi
  | destroyLock l => rw [hop] at hd; rw [← hop]; exact destroyLock_effect hop hd hi
  | createCV name =>
      rw [hop] at hd
      rw [← hop]
      exact hsame (by rw [hop]; rfl) (createCV_ok hd).1
  | signal c l => rw [hop] at hd; rw [← hop]; exact signal_effect hop hd hi
  | wait c l => rw [hop] at hd; rw [← hop]; exact wait_effect hop hd hi
  | broadcast c l => rw [hop] at hd; rw [← hop]; exact broadcast_effect hop hd hi
  | destroyCV c =>
      rw [hop] at hd
      rw [← hop]
      exact hsame (by rw [hop]; rfl) (destroyCV_ok hd).1
  | createMonitor name =>
      rw [hop] at hd
      rw [← hop]
      exact hsame (by rw [hop]; rfl) (createMonitor_ok hd).1
  | retrieveMonitor m =>
      rw [hop] at hd
      rw [← hop]
      exact hsame (by rw [hop]; rfl) (by rw [(retrieveMonitor_ok hd).1])
  | setMonitor m v =>
      rw [hop] at hd
      rw [← hop]
      exact hsame (by rw [hop]; rfl) (setMonitor_ok hd).1
  | startSimulation =>
      rw [hop] at hd
      simp only [Except.ok.injEq, Prod.mk.injEq] at hd
      rw [← hop]
      exact hsame (by rw [hop]; rfl) (by rw [← hd.1])

end Effect

/-! ## One request keeps the contract exactly when its owner acts -/

/-- Nobody queues at a free lock. -/
def FreeUnqueued (t : NtTables) : Prop :=
  ∀ i, ∀ sle ∈ t.locks.table.get i, sle.state = .free → sle.waitQueue = []

theorem acquire_after {nt : NetThread} {e : Dispatched} {l : ℤ}
    (h : dispatch nt e.request e.before = .ok (e.after, e.packets))
    (hop : e.request.op = .acquire l) : e.after = e.before := by
  unfold dispatch at h
  rw [hop] at h
  simp only [acquire, Except.ok.injEq, Prod.mk.injEq] at h
  exact h.1.symm

theorem handOver_changes {f : ℤ → ℤ} {sle : NtLockEntry} (hb : sle.state = .busy) :
    ChangesHands sle (sle.handOver f) := by
  cases hq : sle.waitQueue with
  | nil =>
      rw [handOver_nil hq]
      exact .inr (.inl (by rw [hb]; simp))
  | cons w ws =>
      rw [handOver_cons hq]
      exact .inr (.inr (by rw [hq]; simp))

theorem not_changesHands_same {sle sle' : NtLockEntry} (h : SameLock sle sle') :
    ¬ ChangesHands sle sle' := by
  rintro (h₁ | h₁ | h₁)
  · exact h₁ h.2.1
  · exact h₁ h.1
  · rw [h.2.2] at h₁
    exact lt_irrefl _ h₁

theorem not_changesHands_woken {sle sle' : NtLockEntry} (hb : sle.state = .busy)
    (h : Woken sle sle') : ¬ ChangesHands sle sle' := by
  rintro (h₁ | h₁ | h₁)
  · exact h₁ (h.2.1 hb)
  · exact h₁ (h.1.trans hb.symm)
  · exact absurd h.2.2.length_le (by omega)

/-- The contract follows for every lock when the owner acts. -/
theorem contract_of_ownerActs {nt : NetThread} {e : Dispatched}
    (h : dispatch nt e.request e.before = .ok (e.after, e.packets))
    (hfree : FreeUnqueued e.before) (hok : OwnerActs e.before e.request) (i : ℤ) :
    LockContract nt e i := by
  have hacq : ∀ sle, e.before.locks.table.get i = some sle →
      e.request.op = .acquire i → False := by
    intro sle hi hop
    simp only [OwnerActs, hop] at hok
    rw [hi] at hok
    cases hok
  refine ⟨fun sle hi hop => (hacq sle hi hop).elim, fun sle hi hop => (hacq sle hi hop).elim,
    ?_, ?_, ?_⟩
  · intro sle sle' hi hi' hb hch
    have heff := lock_effect h hi
    rw [hi'] at heff
    cases heff with
    | same _ hs => exact absurd hch (not_changesHands_same hs)
    | woken _ _ hw => exact absurd hch (not_changesHands_woken hb hw)
    | released hop =>
        simp only [OwnerActs, hop] at hok
        refine ⟨by rw [hop]; simp [givesBack], ?_⟩
        rcases hok sle hi with ho | ho
        · exact ho
        · rw [ho.1] at hb
          cases hb
    | waited c hop =>
        simp only [OwnerActs, hop] at hok
        exact ⟨by rw [hop]; simp [givesBack], (hok sle hi hb).1⟩
  · intro sle hi hb hgive hown
    have heff := lock_effect h hi
    cases hafter : e.after.locks.table.get i with
    | none =>
        rw [hafter] at heff
        cases heff with
        | gone hg _ => rw [hg] at hgive; cases hgive
    | some sle' =>
        rw [hafter] at heff
        cases heff with
        | same hg _ => rw [hg] at hgive; cases hgive
        | woken hg _ _ => rw [hg] at hgive; cases hgive
        | released hop => rfl
        | waited c hop =>
            simp only [OwnerActs, hop] at hok
            exact congrArg some (handOver_eq_iff.mpr (hok sle hi hb).2)
  · intro sle hi hop hne
    have hafter := (hop ▸ lock_effect h hi).release_eq
    simp only [OwnerActs, hop] at hok
    have hnull := (hok sle hi).resolve_left hne
    rw [handOver_nil (hfree i sle hi hnull.1)] at hafter
    exact ⟨_, hafter, hnull.1.symm, hnull.2.symm, rfl⟩

/-- Conversely, a request that keeps the contract for every lock avoids the
defects. -/
theorem ownerActs_of_contract {nt : NetThread} {e : Dispatched}
    (h : dispatch nt e.request e.before = .ok (e.after, e.packets))
    (hc : ∀ i, LockContract nt e i) : OwnerActs e.before e.request := by
  cases hop : e.request.op with
  | acquire l =>
      simp only [OwnerActs, hop]
      cases hl : e.before.locks.table.get l with
      | none => rfl
      | some sle =>
          have hsame := acquire_after h hop
          cases hs : sle.state with
          | free =>
              have hget := ((hc l).acquire_free sle hl hop hs).1
              rw [hsame, hl, Option.some.injEq] at hget
              have hstate := congrArg NtLockEntry.state hget
              rw [hs] at hstate
              cases hstate
          | busy =>
              have hget := ((hc l).acquire_busy sle hl hop hs).1
              rw [hsame, hl, Option.some.injEq] at hget
              have hlen := congrArg (fun s => s.waitQueue.length) hget
              simp at hlen
  | release l =>
      simp only [OwnerActs, hop]
      intro sle hl
      by_cases ho : e.request.ntID = sle.owner
      · exact .inl ho
      · right
        obtain ⟨sle', ha, h₁, h₂, h₃⟩ := (hc l).release_other sle hl hop ho
        have hafter := (hop ▸ lock_effect h hl).release_eq
        obtain rfl : sle' = sle.handOver id := Option.some.inj (ha.symm.trans hafter)
        cases hq : sle.waitQueue with
        | nil =>
            rw [handOver_nil hq] at h₁ h₂
            exact ⟨h₁.symm, h₂.symm⟩
        | cons w ws =>
            rw [handOver_cons hq, hq] at h₃
            exact absurd h₃ (by simp)
  | wait c l =>
      simp only [OwnerActs, hop]
      intro sle hl hb
      have hafter := (hop ▸ lock_effect h hl).wait_eq
      obtain ⟨hgive, hown⟩ := (hc l).owner_only sle _ hl hafter hb (handOver_changes hb)
      have hnext := (hc l).next_owner sle hl hb hgive hown
      rw [hafter, Option.some.injEq] at hnext
      exact ⟨hown, handOver_eq_iff.mp hnext⟩
  | _ => simp [OwnerActs, hop]

/-! ## Holders -/

/-- An index without entry stays without, or gets a fresh free lock. -/
theorem lock_fresh {nt : NetThread} {e : Dispatched} {i : ℤ}
    (h : dispatch nt e.request e.before = .ok (e.after, e.packets))
    (hi : e.before.locks.table.get i = none) :
    e.after.locks.table.get i = none ∨
      ∃ id, e.after.locks.table.get i = some ⟨[], .free, id, 1⟩ := by
  -- every case but `CREATE_LOCK` writes to slots it has found occupied
  have hstore : ∀ {l : ℤ} {sle x : NtLockEntry}, e.before.locks.table.get l = some sle →
      (e.before.locks.store l x).table.get i = none := by
    intro l sle x hl
    have hil : i ≠ l := by
      rintro rfl
      rw [hi] at hl
      cases hl
    exact (Table.get_store_of_ne x hl hil).trans hi
  have hd := h
  unfold dispatch at hd
  cases hop : e.request.op with
  | createLock name =>
      rw [hop] at hd
      obtain ⟨-, -, j, -, hcase⟩ := createLock_ok hd
      rcases hcase with ⟨sle, hj, hlocks⟩ | ⟨-, hnew, -, hframe⟩
      · rw [hlocks]
        exact .inl (hstore hj)
      · by_cases hij : i = j
        · subst hij
          exact .inr ⟨_, hnew⟩
        · exact .inl ((hframe i hij).trans hi)
  | acquire l => rw [acquire_after h hop]; exact .inl hi
  | release l =>
      rw [hop] at hd
      obtain ⟨sle, hl, hafter, -⟩ := release_ok hd
      rw [hafter]
      exact .inl (hstore hl)
  | destroyLock l =>
      rw [hop] at hd
      obtain ⟨-, -, sle, -, hl, -, hcase⟩ := destroyLock_ok hd
      rcases hcase with htab | hlocks
      · rw [htab, Table.get_remove, hi]
        exact .inl (ite_self _)
      · rw [hlocks]
        exact .inl (hstore hl)
  | createCV name => rw [hop] at hd; rw [(createCV_ok hd).1]; exact .inl hi
  | signal c l =>
      rw [hop] at hd
      obtain ⟨_, -, hcase⟩ := signal_ok hd
      rcases hcase with ⟨-, hafter, -⟩ | ⟨w, ws, sle, -, hl, hafter, -⟩
      · rw [hafter]
        exact .inl hi
      · rw [hafter]
        exact .inl (hstore hl)
  | wait c l =>
      rw [hop] at hd
      obtain ⟨_, sle, -, hl, hafter, -⟩ := wait_ok hd
      rw [hafter]
      exact .inl (hstore hl)
  | broadcast c l =>
      rw [hop] at hd
      obtain ⟨_, -, hcase⟩ := broadcast_ok hd
      rcases hcase with ⟨-, hafter, -⟩ | ⟨sle, -, hl, hafter, -⟩
      · rw [hafter]
        exact .inl hi
      · rw [hafter]
        exact .inl (hstore hl)
  | destroyCV c => rw [hop] at hd; rw [(destroyCV_ok hd).1]; exact .inl hi
  | createMonitor name => rw [hop] at hd; rw [(createMonitor_ok hd).1]; exact .inl hi
  | retrieveMonitor m => rw [hop] at hd; rw [(retrieveMonitor_ok hd).1]; exact .inl hi
  | setMonitor m v => rw [hop] at hd; rw [(setMonitor_ok hd).1]; exact .inl hi
  | startSimulation =>
      rw [hop] at hd
      simp only [Except.ok.injEq, Prod.mk.injEq] at hd
      rw [← hd.1]
      exact .inl hi

theorem freeUnqueued_step {nt : NetThread} {e : Dispatched}
    (h : dispatch nt e.request e.before = .ok (e.after, e.packets))
    (hfree : FreeUnqueued e.before) : FreeUnqueued e.after := by
  have hhand : ∀ {i : ℤ} {sle : NtLockEntry} {f : ℤ → ℤ},
      e.before.locks.table.get i = some sle → (sle.handOver f).state = .free →
        (sle.handOver f).waitQueue = [] := by
    intro i sle f hi hs
    cases hq : sle.waitQueue with
    | nil => rw [handOver_nil hq]; exact hq
    | cons w ws =>
        rw [handOver_cons hq] at hs
        have := hfree i sle hi hs
        rw [hq] at this
        cases this
  intro i sle' hi' hs
  cases hi : e.before.locks.table.get i with
  | none =>
      rcases lock_fresh h hi with hn | ⟨id, hn⟩
      · rw [hn] at hi'
        cases hi'
      · obtain rfl := Option.some.inj (hn.symm.trans hi')
        rfl
  | some sle =>
      have heff := lock_effect h hi
      rw [Option.mem_def.mp hi'] at heff
      cases heff with
      | same _ hsame => rw [hsame.2.2]; exact hfree i sle hi (hsame.1 ▸ hs)
      | woken _ _ hw => rw [hw.1] at hs; cases hs
      | released _ => exact hhand hi hs
      | waited _ _ => exact hhand hi hs

/-- The holders of a lock are its owner at most, and a free lock has none. -/
def HoldersOwn (tr : List Dispatched) (t : NtTables) : Prop :=
  ∀ i, match t.locks.table.get i with
    | none => holders i tr = []
    | some sle => (sle.state = .free → holders i tr = []) ∧
        ∀ p ∈ holders i tr, p = sle.owner

theorem HoldersOwn.unique {tr : List Dispatched} {t : NtTables} (h : HoldersOwn tr t) (i : ℤ) :
    ∀ p ∈ holders i tr, ∀ q ∈ holders i tr, p = q := by
  intro p hp q hq
  have hi := h i
  cases hget : t.locks.table.get i with
  | none =>
      rw [hget] at hi
      simp only at hi
      rw [hi] at hp
      cases hp
  | some sle =>
      rw [hget] at hi
      exact (hi.2 p hp).trans (hi.2 q hq).symm

/-- Giving back to the queue or to nobody: the holder leaves, and the new owner
is the only one that can have come in. -/
theorem holdersStep_handOver {i : ℤ} {hs : List ℤ} {e : Dispatched} {sle : NtLockEntry}
    {f : ℤ → ℤ} (hi' : e.after.locks.table.get i = some (sle.handOver f))
    (hgive : givesBack i e.request.op = true)
    (hfree : sle.state = .free → sle.waitQueue = [] ∧ hs = [])
    (hbusy : sle.state = .busy → ∀ p ∈ hs, p = e.request.ntID) :
    ((sle.handOver f).state = .free → holdersStep i hs e = []) ∧
      ∀ p ∈ holdersStep i hs e, p = (sle.handOver f).owner := by
  have hempty : hs.filter (· ≠ e.request.ntID) = [] := by
    cases hst : sle.state with
    | free => rw [(hfree hst).2]; rfl
    | busy =>
        apply List.filter_eq_nil_iff.mpr
        intro p hp
        simpa using hbusy hst p hp
  unfold holdersStep
  simp only [hgive, if_true, hempty, hi']
  constructor
  · intro hst
    have hng : ¬ Granted i e := by
      rintro ⟨_, _, sle', hsle', hb, -⟩
      obtain rfl := Option.some.inj (hi'.symm.trans hsle')
      rw [hst] at hb
      cases hb
    rw [if_neg hng]
  · intro p hp
    split at hp
    · simpa using hp
    · cases hp

theorem holdersOwn_step {nt : NetThread} {tr : List Dispatched} {e : Dispatched}
    (h : dispatch nt e.request e.before = .ok (e.after, e.packets))
    (hfree : FreeUnqueued e.before) (hok : OwnerActs e.before e.request)
    (hown : HoldersOwn tr e.before) : HoldersOwn (tr ++ [e]) e.after := by
  intro i
  rw [holders_snoc]
  have hbefore := hown i
  cases hi : e.before.locks.table.get i with
  | none =>
      rw [hi] at hbefore
      simp only at hbefore
      -- only a lock that exists is granted
      have hng : ¬ Granted i e := by
        rintro ⟨_, hsle, -⟩
        rw [hi] at hsle
        cases hsle
      rcases lock_fresh h hi with hn | ⟨id, hn⟩
      · simp only [hn, holdersStep]
      · simp [hn, holdersStep, hng, hbefore]
  | some sle =>
      rw [hi] at hbefore
      simp only at hbefore
      have heff := lock_effect h hi
      cases hi' : e.after.locks.table.get i with
      | none => simp only [holdersStep, hi']
      | some sle' =>
          simp only
          rw [hi'] at heff
          cases heff with
          | same hg hsame =>
              have hng : ¬ Granted i e := by
                rintro ⟨s, hs, s', hs', hb, hor⟩
                obtain rfl := Option.some.inj (hi.symm.trans hs)
                obtain rfl := Option.some.inj (hi'.symm.trans hs')
                rw [hsame.1] at hb
                rw [hb, hsame.2.2] at hor
                simp at hor
              simp only [holdersStep, hi', hg, if_neg hng]
              rw [hsame.1, hsame.2.1]
              exact hbefore
          | woken hg _ hw =>
              simp only [holdersStep, hi', hg]
              refine ⟨fun hst => absurd (hw.1.symm.trans hst) (by simp), ?_⟩
              intro p hp
              cases hst : sle.state with
              | free =>
                  rw [hbefore.1 hst] at hp
                  split at hp
                  · simpa using hp
                  · cases hp
              | busy =>
                  -- a busy lock only gains waiters
                  have hng : ¬ Granted i e := by
                    rintro ⟨s, hs, s', hs', -, hor⟩
                    obtain rfl := Option.some.inj (hi.symm.trans hs)
                    obtain rfl := Option.some.inj (hi'.symm.trans hs')
                    have hlen := hw.2.2.length_le
                    rw [hst] at hor
                    rcases hor with hor | hor
                    · cases hor
                    · omega
                  rw [if_neg hng] at hp
                  rw [hw.2.1 hst]
                  exact hbefore.2 p hp
          | released hop =>
              simp only [OwnerActs, hop] at hok
              refine holdersStep_handOver hi' (by rw [hop]; simp [givesBack])
                (fun hst => ⟨hfree i sle hi hst, hbefore.1 hst⟩) ?_
              intro hst p hp
              rcases hok sle hi with ho | ho
              · rw [ho]
                exact hbefore.2 p hp
              · rw [ho.1] at hst
                cases hst
          | waited c hop =>
              simp only [OwnerActs, hop] at hok
              refine holdersStep_handOver hi' (by rw [hop]; simp [givesBack])
                (fun hst => ⟨hfree i sle hi hst, hbefore.1 hst⟩) ?_
              intro hst p hp
              rw [(hok sle hi hst).1]
              exact hbefore.2 p hp

/-! ## Every run -/

theorem freeUnqueued_initial : FreeUnqueued NtTables.initial := by
  intro i sle hi
  simp [NtTables.initial, NamedTable.empty] at hi

/-- In every run, nobody queues at a free lock before any request. -/
theorem freeUnqueued_of_run {nt : NetThread} {tr : List Dispatched} {t : NtTables}
    (h : Run (dispatchStep nt) anyStep NtTables.initial tr t) :
    FreeUnqueued t ∧ ∀ e ∈ tr, FreeUnqueued e.before := by
  refine h.invariant (I := fun tr t => FreeUnqueued t ∧ ∀ e ∈ tr, FreeUnqueued e.before)
    ⟨freeUnqueued_initial, by simp⟩ ?_
  intro tr s l s' e ih _ hs
  obtain ⟨rfl, rfl, rfl, hd⟩ := dispatchStep_some hs
  refine ⟨freeUnqueued_step hd ih.1, ?_⟩
  intro x hx
  rcases List.mem_append.mp hx with hx | hx
  · exact ih.2 x hx
  · obtain rfl : x = e := by simpa using hx
    exact ih.1

/-- In every run whose requests all come from owners, at most one client at a
time holds a lock. -/
theorem mutualExclusion_of_run {nt : NetThread} {tr : List Dispatched} {t : NtTables}
    (h : Run (dispatchStep nt) anyStep NtTables.initial tr t) :
    (∀ e ∈ tr, OwnerActs e.before e.request) →
      HoldersOwn tr t ∧ ∀ i, MutualExclusion i tr := by
  have hinv : FreeUnqueued t ∧ ((∀ e ∈ tr, OwnerActs e.before e.request) →
      HoldersOwn tr t ∧ ∀ i, MutualExclusion i tr) := by
    refine h.invariant (I := fun tr t => FreeUnqueued t ∧
      ((∀ e ∈ tr, OwnerActs e.before e.request) →
        HoldersOwn tr t ∧ ∀ i, MutualExclusion i tr)) ⟨freeUnqueued_initial, ?_⟩ ?_
    · intro _
      refine ⟨fun i => by simp [NtTables.initial, NamedTable.empty, holders], ?_⟩
      intro i tr' hpre p hp
      obtain rfl : tr' = [] := by simpa using hpre
      simp [holders] at hp
    · intro tr s l s' e ih _ hs
      obtain ⟨rfl, rfl, rfl, hd⟩ := dispatchStep_some hs
      refine ⟨freeUnqueued_step hd ih.1, ?_⟩
      intro hall
      have hlast : OwnerActs e.before e.request := hall e (by simp)
      obtain ⟨hown, hmut⟩ := ih.2 fun x hx => hall x (List.mem_append_left _ hx)
      have hown' := holdersOwn_step hd ih.1 hlast hown
      refine ⟨hown', ?_⟩
      intro i tr' hpre
      rcases List.prefix_concat_iff.mp hpre with rfl | hpre
      · exact hown'.unique i
      · exact hmut i tr' hpre
  exact hinv.2

/-- **The lock contract, exactly.** In every run of a network thread from its
initial tables, every request keeps the contract of every lock and at most one
client at a time holds a lock, if and only if no request is an `ACQUIRE` of an
existing lock, no `RELEASE` comes from anyone but the owner while it would
change something, and every `WAIT` at a busy lock comes from its owner and hands
over to an id below 100. -/
theorem lock_contract_iff (nt : NetThread) {tr : List Dispatched} {t : NtTables}
    (h : Run (dispatchStep nt) anyStep NtTables.initial tr t) :
    ((∀ e ∈ tr, ∀ i, LockContract nt e i) ∧ ∀ i, MutualExclusion i tr) ↔
      ∀ e ∈ tr, OwnerActs e.before e.request := by
  have hd := dispatched_of_run h
  constructor
  · rintro ⟨hall, -⟩ e he
    exact ownerActs_of_contract (hd e he) (hall e he)
  · intro hok
    refine ⟨?_, (mutualExclusion_of_run h hok).2⟩
    intro e he i
    exact contract_of_ownerActs (hd e he) ((freeUnqueued_of_run h).2 e he) (hok e he) i

/-- A user program creates a lock and acquires it. -/
def acquireRequests : List Request := [⟨101, .createLock ['L']⟩, ⟨101, .acquire 0⟩]

/-- The `ACQUIRE` of the free lock leaves it free. -/
theorem lock_contract_fails :
    ¬ ∀ nt tr t, Run (dispatchStep nt) anyStep NtTables.initial tr t →
      (∀ e ∈ tr, ∀ i, LockContract nt e i) ∧ ∀ i, MutualExclusion i tr := by
  intro hall
  have hx : (exec (dispatchStep nt101) anyStep [] .initial acquireRequests).isSome ∧
      ∀ p ∈ exec (dispatchStep nt101) anyStep [] .initial acquireRequests,
        ∃ e ∈ p.1, e.request.op = .acquire 0 ∧
          e.before.locks.table.get 0 = some ⟨[], .free, 101, 1⟩ ∧
          e.after.locks.table.get 0 = some ⟨[], .free, 101, 1⟩ := by
    decide
  obtain ⟨⟨tr, t⟩, hp⟩ := Option.isSome_iff_exists.mp hx.1
  obtain ⟨e, he, hop, hbefore, hafter⟩ := hx.2 _ hp
  have hcon := (hall nt101 tr t (Run.of_exec .start hp)).1 e he 0
  have hget := (hcon.acquire_free _ hbefore hop rfl).1
  rw [hafter] at hget
  simp at hget

/-- A wait, a signal and a release by the client the lock was given to. -/
def signalRequests : List Request :=
  [⟨101, .createLock ['L']⟩, ⟨101, .createCV ['C']⟩, ⟨101, .wait 0 0⟩, ⟨201, .signal 0 0⟩,
    ⟨101, .release 0⟩]

theorem lock_contract_signal :
    ∃ tr t, Run (dispatchStep nt101) anyStep NtTables.initial tr t ∧ tr.length = 5 ∧
      (∀ e ∈ tr, ∀ i, LockContract nt101 e i) ∧ ∀ i, MutualExclusion i tr := by
  have hx : (exec (dispatchStep nt101) anyStep [] .initial signalRequests).isSome ∧
      ∀ p ∈ exec (dispatchStep nt101) anyStep [] .initial signalRequests,
        p.1.length = 5 ∧ ∀ e ∈ p.1, OwnerActs e.before e.request := by
    decide
  obtain ⟨⟨tr, t⟩, hp⟩ := Option.isSome_iff_exists.mp hx.1
  have hrun := Run.of_exec .start hp
  exact ⟨tr, t, hrun, (hx.2 _ hp).1, (lock_contract_iff nt101 hrun).mpr (hx.2 _ hp).2⟩

end Nachos.Network
