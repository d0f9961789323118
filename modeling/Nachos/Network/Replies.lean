import Nachos.Network.Cases
import Nachos.Network.Delivery

/-!
# Requests and replies

Every syscall but `StartSimulation` sends one request and blocks in one
`Receive`, so a surplus, missing or misdirected reply shifts all later answers.
The count is kept by three numbers for each network thread: the requests of its
own user program it dispatched, the replies it sent to that program, and the
places in the wait queues that hold its id. A request that is not a `WAIT` is
answered on the spot; a `WAIT` puts the id into a queue, and the reply goes out
when the id leaves the queues again.
-/

namespace Nachos.Network

open Nachos.Lib Nachos.Userprog

/-! ## Counting -/

/-- A packet into the mailbox of the user program of `i`. -/
def toProgram (i : ℤ) (p : Packet) : Bool := decide (p.pktTo * 100 + p.mailTo = i - 1)

def ownReplies (i : ℤ) (ps : List Packet) : List Packet := ps.filter (toProgram i)

/-- The requests that are answered when they are dispatched. -/
def Op.answered : Op → Bool
  | .acquire _ | .wait _ _ | .startSimulation => false
  | _ => true

def Op.isWait : Op → Bool
  | .wait _ _ => true
  | _ => false

/-- All replies of `i` to its user program. -/
def repliesBy (i : ℤ) (tr : List Event) : List Packet :=
  tr.flatMap fun
    | .dispatched j _ ps => if j = i then ownReplies i ps else []
    | _ => []

/-- The replies of `i` to its user program other than the answers to the
requests of that program that are answered when they are dispatched. -/
def grantsBy (i : ℤ) (tr : List Event) : List Packet :=
  tr.flatMap fun
    | .dispatched j e ps =>
        if j = i ∧ ¬ (ofProgram i e ∧ e.body.answered) then ownReplies i ps else []
    | _ => []

/-- The own requests that `i` dispatched and that satisfy `p`. -/
def ownDispatched (i : ℤ) (p : Op → Bool) (tr : List Event) : ℕ :=
  (dispatchedBy i tr).countP fun e => ofProgram i e && p e.body

/-- All ids in the queues `q` of a table are `i`. -/
def NamedTable.HoldsOnly {α : Type} (q : α → List ℤ) (i : ℤ) (n : NamedTable α) : Prop :=
  ∀ k x, n.table.get k = some x → ∀ w ∈ q x, w = i

/-- The places in the queues `q` of a table. -/
def NamedTable.places {α : Type} (q : α → List ℤ) (n : NamedTable α) : ℕ :=
  n.table.total fun x => (q x).length

/-- All ids in the wait queues are `i`. -/
structure NtTables.AllSelf (i : ℤ) (t : NtTables) : Prop where
  conditions : t.conditions.HoldsOnly NtConditionEntry.waitQueue i
  locks : t.locks.HoldsOnly NtLockEntry.waitQueue i

/-- The places in all wait queues. -/
def NtTables.waiting (t : NtTables) : ℕ :=
  t.conditions.places NtConditionEntry.waitQueue + t.locks.places NtLockEntry.waitQueue

/-- The request gives its lock to `i`. -/
def GrantsLock (i : ℤ) (op : Op) (t : NtTables) : Prop :=
  ∃ l sle, (op = .release l ∨ ∃ c, op = .signal c l) ∧
    t.locks.table.get l = some sle ∧ sle.owner = i

/-! ## The condition on dispatches -/

/-- What the tables must be for a request to get the replies it should: the own
program's id is not first in line when it releases a lock or signals; requests
of other programs neither destroy, nor wait, nor signal where nobody waits; and
a `WAIT` names the lock of its condition. -/
def CleanDispatch (nt : NetThread) (r : Request) (t : NtTables) : Prop :=
  match r.op with
  | .release l => r.ntID = nt.self → ∀ sle ∈ t.locks.table.get l,
      sle.waitQueue.head? ≠ some nt.self
  | .destroyLock _ | .destroyCV _ => r.ntID = nt.self
  | .signal c l => ∀ sce ∈ t.conditions.table.get c,
      if r.ntID = nt.self then
        sce.waitQueue.head? = some nt.self → ∀ sle ∈ t.locks.table.get l, sle.state = .busy
      else sce.waitQueue ≠ []
  | .wait c l => r.ntID = nt.self ∧ ∀ sce ∈ t.conditions.table.get c, sce.lock = 0 ∨ sce.lock = l
  | _ => True

/-- The condition on the steps: `DestroyLock`, which waits on another mailbox, is
not called, and every dispatch is clean. -/
def CleanReplies (_tr : List Event) (s : Net) : Label → Prop
  | .issue _ op => replyBox op = .own
  | .dispatch nt => ∀ e ∈ (s.nt nt.self).queues.processable.head?,
      CleanDispatch nt ⟨e.ntID, e.body⟩ (s.nt nt.self).tables
  | _ => True

instance (nt : NetThread) (r : Request) (t : NtTables) : Decidable (CleanDispatch nt r t) :=
  match r with
  | ⟨id, .release l⟩ =>
      inferInstanceAs (Decidable (id = nt.self → ∀ sle ∈ t.locks.table.get l, _))
  | ⟨id, .destroyLock _⟩ | ⟨id, .destroyCV _⟩ => inferInstanceAs (Decidable (id = nt.self))
  | ⟨id, .signal c l⟩ =>
      inferInstanceAs (Decidable (∀ sce ∈ t.conditions.table.get c, if id = nt.self then
        sce.waitQueue.head? = some nt.self → ∀ sle ∈ t.locks.table.get l, sle.state = .busy
        else sce.waitQueue ≠ []))
  | ⟨id, .wait c _⟩ =>
      inferInstanceAs (Decidable (id = nt.self ∧ ∀ sce ∈ t.conditions.table.get c, _))
  | ⟨_, .createLock _⟩ | ⟨_, .acquire _⟩ | ⟨_, .createCV _⟩ | ⟨_, .broadcast _ _⟩
  | ⟨_, .createMonitor _⟩ | ⟨_, .retrieveMonitor _⟩ | ⟨_, .setMonitor _ _⟩
  | ⟨_, .startSimulation⟩ => .isTrue trivial

instance (tr : List Event) (s : Net) (l : Label) : Decidable (CleanReplies tr s l) :=
  match l with
  | .issue _ op => inferInstanceAs (Decidable (replyBox op = .own))
  | .dispatch nt => inferInstanceAs (Decidable
      (∀ e ∈ (s.nt nt.self).queues.processable.head?, CleanDispatch nt ⟨e.ntID, e.body⟩ _))
  | .tick _ | .answer _ | .steal _ _ | .receive _ _ | .send _ => .isTrue trivial

/-! ## What one dispatch does to the count -/

/-- The request comes from the user program the thread serves. -/
def Request.Own (nt : NetThread) (r : Request) : Prop :=
  r.ntID = nt.self ∨ r.ntID = nt.self - 1

instance (nt : NetThread) (r : Request) : Decidable (r.Own nt) :=
  inferInstanceAs (Decidable (_ ∨ _))

/-- The replies are the answer due, and at most one for every place given up. -/
structure ReplyEffect (nt : NetThread) (r : Request) (t t' : NtTables) (ps : List Packet) :
    Prop where
  allSelf : t'.AllSelf nt.self
  count : ∃ g, (ownReplies nt.self ps).length =
      (if r.Own nt ∧ r.op.answered then 1 else 0) + g ∧
    t'.waiting + g ≤ t.waiting + (if r.Own nt ∧ r.op.isWait then 1 else 0) ∧
    (r.Own nt → r.op.answered → g = 0) ∧
    (¬ r.Own nt → g = 0 ∨ (g = 1 ∧ GrantsLock nt.self r.op t'))

section Effects

variable {nt : NetThread} {r : Request} {t t' : NtTables} {ps : List Packet}

theorem ownReplies_append (i : ℤ) (ps qs : List Packet) :
    ownReplies i (ps ++ qs) = ownReplies i ps ++ ownReplies i qs :=
  List.filter_append ..

@[simp] theorem length_ownReplies_toOwn (nt : NetThread) (ack : Ack) :
    (ownReplies nt.self [toOwn nt ack]).length = 1 := by
  have haddr : (nt.netname : ℤ) * 100 + ((nt.mailBox : ℤ) - 1) = nt.self - 1 := by
    rw [NetThread.self]
    omega
  simp [ownReplies, toProgram, toOwn, haddr]

@[simp] theorem length_ownReplies_replyIf (nt : NetThread) (id : ℤ) (ack : Ack) :
    (ownReplies nt.self (replyIf nt id ack)).length = if id = nt.self then 1 else 0 := by
  unfold replyIf
  split
  · exact length_ownReplies_toOwn nt ack
  · rfl

end Effects

/-! Tables after one store, one fresh entry or one removal. -/

namespace NamedTable

variable {α : Type} {q : α → List ℤ} {n n' : NamedTable α} {i k : ℤ} {x : α}

theorem HoldsOnly.store (h : n.HoldsOnly q i) (hk : n.table.get k = some x) {y : α}
    (hy : ∀ w ∈ q y, w = i) : (n.store k y).HoldsOnly q i := by
  intro m z hm
  simp only [NamedTable.store] at hm
  by_cases hmk : m = k
  · subst hmk
    rw [Table.get_store_self y hk] at hm
    cases hm
    exact hy
  · rw [Table.get_store_of_ne y hk hmk] at hm
    exact h m z hm

theorem places_store (hk : n.table.get k = some x) (y : α) :
    (n.store k y).places q + (q x).length = n.places q + (q y).length :=
  Table.total_store _ hk y

/-- A fresh entry without waiters. -/
theorem HoldsOnly.fresh (h : n.HoldsOnly q i) (hnone : n.table.get k = none)
    (hnew : n'.table.get k = some x) (hx : q x = []) (hsize : n'.table.size = n.table.size)
    (hframe : ∀ j, j ≠ k → n'.table.get j = n.table.get j) :
    n'.HoldsOnly q i ∧ n'.places q = n.places q := by
  constructor
  · intro m z hm
    by_cases hmk : m = k
    · rw [hmk, hnew] at hm
      cases hm
      rw [hx]
      intro w hw
      cases hw
    · rw [hframe m hmk] at hm
      exact h m z hm
  · have hsum := Table.total_update (fun x => (q x).length) hsize
      (hsize ▸ Table.get_range hnew) hframe
    rw [hnone, hnew] at hsum
    simpa [places, hx] using hsum

theorem HoldsOnly.remove (h : n.HoldsOnly q i) (hk : n.table.get k = some x)
    (hn' : n'.table = (n.table.remove k).2) :
    n'.HoldsOnly q i ∧ n'.places q ≤ n.places q := by
  constructor
  · intro m z hm
    rw [hn', Table.get_remove] at hm
    split at hm
    · cases hm
    · exact h m z hm
  · unfold places
    rw [hn']
    exact Table.total_remove_le _ hk

/-- An entry stored back with the same queue. -/
theorem HoldsOnly.sameQueue (h : n.HoldsOnly q i) (hk : n.table.get k = some x) {y : α}
    (hy : q y = q x) : (n.store k y).HoldsOnly q i ∧ (n.store k y).places q = n.places q := by
  refine ⟨h.store hk (hy ▸ h k x hk), ?_⟩
  have hsum := places_store (q := q) hk y
  rw [hy] at hsum
  omega

end NamedTable

section Effects

variable {nt : NetThread} {r : Request} {t t' : NtTables} {ps : List Packet}

/-- The cases that only answer the requester. -/
theorem ReplyEffect.of_replyIf {ack : Ack} (hself : t'.AllSelf nt.self)
    (hwait : t'.waiting ≤ t.waiting) (hans : r.op.answered) (hid : r.ntID ≠ nt.self - 1)
    (hps : ps = replyIf nt r.ntID ack) : ReplyEffect nt r t t' ps where
  allSelf := hself
  count := by
    refine ⟨0, ?_, by omega, fun _ _ => rfl, fun _ => .inl rfl⟩
    rw [hps, length_ownReplies_replyIf]
    simp [Request.Own, hid, hans]

/-- The cases that answer the own user program, whoever asked, and that nobody
else may ask for. -/
theorem ReplyEffect.of_toOwn {ack : Ack} (hself : t'.AllSelf nt.self)
    (hwait : t'.waiting ≤ t.waiting) (hans : r.op.answered) (hown : r.Own nt)
    (hps : ps = [toOwn nt ack]) : ReplyEffect nt r t t' ps where
  allSelf := hself
  count := by
    refine ⟨0, ?_, by omega, fun _ _ => rfl, fun _ => .inl rfl⟩
    rw [hps, length_ownReplies_toOwn]
    simp [hown, hans]

theorem createLock_reply {name : Text} (hself : t.AllSelf nt.self) (hop : r.op = .createLock name)
    (hid : r.ntID ≠ nt.self - 1) (h : createLock nt r name t = .ok (t', ps)) :
    ReplyEffect nt r t t' ps := by
  obtain ⟨hcond, -, i, hps, hcase⟩ := createLock_ok h
  have hlocks : t'.locks.HoldsOnly NtLockEntry.waitQueue nt.self ∧
      t'.locks.places NtLockEntry.waitQueue = t.locks.places NtLockEntry.waitQueue := by
    rcases hcase with ⟨sle, hi, hlocks⟩ | ⟨hnone, hnew, hsize, hframe⟩
    · rw [hlocks]
      exact hself.locks.sameQueue hi rfl
    · exact hself.locks.fresh hnone hnew rfl hsize hframe
  refine .of_replyIf ⟨hcond ▸ hself.conditions, hlocks.1⟩ ?_ (by rw [hop]; rfl) hid hps
  rw [NtTables.waiting, NtTables.waiting, hcond, hlocks.2]

theorem createCV_reply {name : Text} (hself : t.AllSelf nt.self) (hop : r.op = .createCV name)
    (hid : r.ntID ≠ nt.self - 1) (h : createCV nt r name t = .ok (t', ps)) :
    ReplyEffect nt r t t' ps := by
  obtain ⟨hlock, -, i, hps, hcase⟩ := createCV_ok h
  have hconds : t'.conditions.HoldsOnly NtConditionEntry.waitQueue nt.self ∧
      t'.conditions.places NtConditionEntry.waitQueue =
        t.conditions.places NtConditionEntry.waitQueue := by
    rcases hcase with ⟨sce, hi, hconds⟩ | ⟨hnone, hnew, hsize, hframe⟩
    · rw [hconds]
      exact hself.conditions.sameQueue hi rfl
    · exact hself.conditions.fresh hnone hnew rfl hsize hframe
  refine .of_replyIf ⟨hconds.1, hlock ▸ hself.locks⟩ ?_ (by rw [hop]; rfl) hid hps
  rw [NtTables.waiting, NtTables.waiting, hlock, hconds.2]

theorem destroyLock_reply {l : ℤ} (hself : t.AllSelf nt.self) (hop : r.op = .destroyLock l)
    (hown : r.ntID = nt.self) (h : destroyLock nt r l t = .ok (t', ps)) :
    ReplyEffect nt r t t' ps := by
  obtain ⟨hcond, -, sle, ack, hl, hps, hcase⟩ := destroyLock_ok h
  have hlocks : t'.locks.HoldsOnly NtLockEntry.waitQueue nt.self ∧
      t'.locks.places NtLockEntry.waitQueue ≤ t.locks.places NtLockEntry.waitQueue := by
    rcases hcase with hremove | hstore
    · exact hself.locks.remove hl hremove
    · rw [hstore]
      have hsame := hself.locks.sameQueue hl
        (y := { sle with deleteCounter := sle.deleteCounter - 1 }) rfl
      exact ⟨hsame.1, hsame.2.le⟩
  refine .of_toOwn ⟨hcond ▸ hself.conditions, hlocks.1⟩ ?_ (by rw [hop]; rfl) (.inl hown) hps
  rw [NtTables.waiting, NtTables.waiting, hcond]
  exact Nat.add_le_add_left hlocks.2 _

theorem destroyCV_reply {c : ℤ} (hself : t.AllSelf nt.self) (hop : r.op = .destroyCV c)
    (hown : r.ntID = nt.self) (h : destroyCV nt r c t = .ok (t', ps)) :
    ReplyEffect nt r t t' ps := by
  obtain ⟨hlock, -, sce, ack, hc, hps, hcase⟩ := destroyCV_ok h
  have hconds : t'.conditions.HoldsOnly NtConditionEntry.waitQueue nt.self ∧
      t'.conditions.places NtConditionEntry.waitQueue ≤
        t.conditions.places NtConditionEntry.waitQueue := by
    rcases hcase with hremove | hstore
    · exact hself.conditions.remove hc hremove
    · rw [hstore]
      have hsame := hself.conditions.sameQueue hc
        (y := { sce with deleteCounter := sce.deleteCounter - 1 }) rfl
      exact ⟨hsame.1, hsame.2.le⟩
  refine .of_toOwn ⟨hconds.1, hlock ▸ hself.locks⟩ ?_ (by rw [hop]; rfl) (.inl hown) hps
  rw [NtTables.waiting, NtTables.waiting, hlock]
  exact Nat.add_le_add_right hconds.2 _

/-- Handing a lock over takes one place and notifies who had it. -/
theorem handOver_reply {f : ℤ → ℤ} {sle : NtLockEntry} (h : ∀ w ∈ sle.waitQueue, w = nt.self) :
    (∀ w ∈ (sle.handOver f).waitQueue, w = nt.self) ∧
      (sle.handOver f).waitQueue.length + (ownReplies nt.self (grantReply nt sle)).length =
        sle.waitQueue.length := by
  cases hq : sle.waitQueue with
  | nil =>
      rw [handOver_nil hq, grantReply, hq]
      refine ⟨fun w hw => ?_, by simp [ownReplies]⟩
      exact h w (hq ▸ hw)
  | cons w ws =>
      have hw : w = nt.self := h w (hq ▸ List.mem_cons_self)
      rw [handOver_cons hq, grantReply, hq]
      refine ⟨fun v hv => h v (hq ▸ List.mem_cons_of_mem _ hv), ?_⟩
      simp [hw]

theorem release_reply {l : ℤ} (hself : t.AllSelf nt.self) (hop : r.op = .release l)
    (hid : r.ntID ≠ nt.self - 1)
    (hclean : r.ntID = nt.self → ∀ sle ∈ t.locks.table.get l,
      sle.waitQueue.head? ≠ some nt.self)
    (h : release nt r l t = .ok (t', ps)) : ReplyEffect nt r t t' ps := by
  obtain ⟨sle, hl, rfl, rfl⟩ := release_ok h
  have hqueue := hself.locks l sle hl
  obtain ⟨hover, hlen⟩ := handOver_reply (f := id) hqueue
  have hplaces := NamedTable.places_store (q := NtLockEntry.waitQueue) hl (sle.handOver id)
  refine ⟨⟨hself.conditions, hself.locks.store hl hover⟩,
    (ownReplies nt.self (grantReply nt sle)).length, ?_, ?_, ?_, ?_⟩
  · rw [ownReplies_append, List.length_append, length_ownReplies_replyIf]
    simp [Request.Own, hid, hop, Op.answered]
  · simp only [NtTables.waiting]
    omega
  · intro hown _
    cases hq : sle.waitQueue with
    | nil => simp [grantReply, hq, ownReplies]
    | cons w ws =>
        refine absurd ?_ (hclean (hown.resolve_right hid) sle hl)
        rw [hq, hqueue w (hq ▸ List.mem_cons_self)]
        rfl
  · intro hforeign
    cases hq : sle.waitQueue with
    | nil =>
        left
        simp [grantReply, hq, ownReplies]
    | cons w ws =>
        right
        have hw : w = nt.self := hqueue w (hq ▸ List.mem_cons_self)
        refine ⟨by simp [grantReply, hq, hw], l, sle.handOver id, .inl hop,
          Table.get_store_self _ hl, ?_⟩
        rw [handOver_cons hq]
        exact hw

theorem signal_reply {c l : ℤ} (hself : t.AllSelf nt.self) (hop : r.op = .signal c l)
    (hid : r.ntID ≠ nt.self - 1) (hclean : CleanDispatch nt r t)
    (h : signal nt r c l t = .ok (t', ps)) : ReplyEffect nt r t t' ps := by
  obtain ⟨sce, hc, hcase⟩ := signal_ok h
  simp only [CleanDispatch, hop] at hclean
  have hclean := hclean sce hc
  have hans : r.op.answered := by
    rw [hop]
    rfl
  rcases hcase with ⟨hnil, rfl, hps⟩ | ⟨w, ws, sle, hcons, hl, rfl, rfl⟩
  · have hown : r.ntID = nt.self := by
      by_contra hne
      rw [if_neg hne] at hclean
      exact hclean hnil
    exact .of_toOwn hself (le_refl _) hans (.inl hown) hps
  · have hqueue := hself.conditions c sce hc
    have hw : w = nt.self := hqueue w (hcons ▸ List.mem_cons_self)
    have hws : ∀ v ∈ ws, v = nt.self := fun v hv => hqueue v (hcons ▸ List.mem_cons_of_mem _ hv)
    have hlockq := hself.locks l sle hl
    have hcplaces := NamedTable.places_store (q := NtConditionEntry.waitQueue) hc
      { sce with waitQueue := ws }
    have hlplaces := NamedTable.places_store (q := NtLockEntry.waitQueue) hl (sle.wake w nt.self)
    rw [hcons, List.length_cons] at hcplaces
    by_cases hfree : sle.state = .free
    · -- the waiter takes the lock; the own program must not be the one that signals
      have hforeign : r.ntID ≠ nt.self := by
        intro hown
        rw [if_pos hown] at hclean
        have hbusy := hclean (by rw [hcons, hw]; rfl) sle hl
        rw [hfree] at hbusy
        cases hbusy
      rw [wake_free hfree] at hlplaces ⊢
      refine ⟨⟨hself.conditions.store hc hws, hself.locks.store hl hlockq⟩, 1, ?_, ?_,
        fun hown => absurd (hown.resolve_right hid) hforeign, ?_⟩
      · rw [ownReplies_append, List.length_append, if_pos hfree, length_ownReplies_replyIf,
          length_ownReplies_replyIf]
        simp [Request.Own, hid, hforeign, hw]
      · simp only [NtTables.waiting] at hcplaces hlplaces ⊢
        omega
      · exact fun _ => .inr ⟨rfl, l, _, .inr ⟨c, hop⟩, Table.get_store_self _ hl, hw⟩
    · -- one place moves from the condition's queue to the lock's
      have hwake : sle.wake w nt.self = { sle with waitQueue := sle.waitQueue ++ [nt.self] } :=
        if_neg hfree
      rw [hwake] at hlplaces ⊢
      refine ⟨⟨hself.conditions.store hc hws, hself.locks.store hl ?_⟩, 0, ?_, ?_,
        fun _ _ => rfl, fun _ => .inl rfl⟩
      · intro v hv
        rcases List.mem_append.mp hv with hv | hv
        · exact hlockq v hv
        · exact List.mem_singleton.mp hv
      · rw [if_neg hfree, List.append_nil, length_ownReplies_replyIf]
        simp [Request.Own, hid, hans]
      · simp only [NtTables.waiting, List.length_append, List.length_singleton]
          at hcplaces hlplaces ⊢
        omega

theorem wait_reply {c l : ℤ} (hself : t.AllSelf nt.self) (hop : r.op = .wait c l)
    (hown : r.ntID = nt.self)
    (hlock : ∀ sce ∈ t.conditions.table.get c, sce.lock = 0 ∨ sce.lock = l)
    (h : wait nt r c l t = .ok (t', ps)) : ReplyEffect nt r t t' ps := by
  obtain ⟨sce, sle, hc, hl, rfl, rfl⟩ := wait_ok h
  have hbind : sce.bind l = l := by
    unfold NtConditionEntry.bind
    rcases hlock sce hc with h0 | h0
    · split <;> omega
    · split <;> omega
  obtain ⟨hover, hlen⟩ := handOver_reply (f := (·.tmod 100)) (hself.locks l sle hl)
  have hcplaces := NamedTable.places_store (q := NtConditionEntry.waitQueue) hc
    { sce with lock := sce.bind l, waitQueue := sce.waitQueue ++ [nt.self] }
  have hlplaces := NamedTable.places_store (q := NtLockEntry.waitQueue) hl
    (sle.handOver (·.tmod 100))
  refine ⟨⟨hself.conditions.store hc ?_, hself.locks.store hl hover⟩,
    (ownReplies nt.self (grantReply nt sle)).length, ?_, ?_, ?_, fun hforeign =>
      absurd (.inl hown) hforeign⟩
  · intro v hv
    rcases List.mem_append.mp hv with hv | hv
    · exact hself.conditions c sce hc v hv
    · exact List.mem_singleton.mp hv
  · rw [if_neg (not_not.mpr hbind), List.nil_append]
    simp [hop, Op.answered]
  · have hone : (if r.Own nt ∧ r.op.isWait then 1 else 0) = 1 :=
      if_pos ⟨.inl hown, by rw [hop]; rfl⟩
    simp only [NtTables.waiting, List.length_append, List.length_singleton]
      at hcplaces hlplaces ⊢
    omega
  · intro _ hans
    rw [hop] at hans
    cases hans

/-- The wakeups of a broadcast go to the machine numbered by the waiter's id,
never to the own user program; no place is added. -/
theorem broadcastLoop_reply (ws : List ℤ) (hws : ∀ w ∈ ws, w = nt.self) (sle : NtLockEntry)
    (hsle : ∀ w ∈ sle.waitQueue, w = nt.self) :
    (∀ w ∈ (broadcastLoop nt ws sle).1.waitQueue, w = nt.self) ∧
      (broadcastLoop nt ws sle).1.waitQueue.length ≤ sle.waitQueue.length + ws.length ∧
      ownReplies nt.self (broadcastLoop nt ws sle).2 = [] := by
  induction ws generalizing sle with
  | nil => exact ⟨hsle, le_refl _, rfl⟩
  | cons w ws ih =>
      have hw : w = nt.self := hws w List.mem_cons_self
      have ih := fun sle => ih (fun v hv => hws v (List.mem_cons_of_mem _ hv)) sle
      rw [broadcastLoop]
      split
      · obtain ⟨h1, h2, h3⟩ := ih { sle with owner := w, state := .busy } hsle
        refine ⟨h1, ?_, ?_⟩
        · rw [List.length_cons]
          exact h2.trans (Nat.add_le_add_left (Nat.le_succ _) _)
        · have haddr : ¬ (w * 100 + ((nt.mailBox : ℤ) - 1) = nt.self - 1) := by
            have hpos := nt.mailBox_pos
            rw [hw, NetThread.self]
            omega
          simp only [ownReplies, toProgram, List.filter_cons, haddr, decide_false,
            Bool.false_eq_true, if_false]
          exact h3
      · obtain ⟨h1, h2, h3⟩ := ih { sle with waitQueue := sle.waitQueue ++ [w] } (by
          intro v hv
          rcases List.mem_append.mp hv with hv | hv
          · exact hsle v hv
          · rw [List.mem_singleton.mp hv, hw])
        refine ⟨h1, ?_, h3⟩
        rw [List.length_append, List.length_singleton] at h2
        rw [List.length_cons]
        omega

theorem broadcast_reply {c l : ℤ} (hself : t.AllSelf nt.self) (hop : r.op = .broadcast c l)
    (hown : r.Own nt) (h : broadcast nt r c l t = .ok (t', ps)) : ReplyEffect nt r t t' ps := by
  obtain ⟨sce, hc, hcase⟩ := broadcast_ok h
  have hans : r.op.answered := by
    rw [hop]
    rfl
  rcases hcase with ⟨_, rfl, hps⟩ | ⟨sle, _, hl, rfl, rfl⟩
  · exact .of_toOwn hself (le_refl _) hans hown hps
  · obtain ⟨hloop, hlen, hnone⟩ := broadcastLoop_reply sce.waitQueue (hself.conditions c sce hc) sle
      (hself.locks l sle hl)
    have hcplaces := NamedTable.places_store (q := NtConditionEntry.waitQueue) hc
      { sce with waitQueue := [] }
    have hlplaces := NamedTable.places_store (q := NtLockEntry.waitQueue) hl
      (broadcastLoop nt sce.waitQueue sle).1
    refine ⟨⟨hself.conditions.store hc (fun v hv => by cases hv), hself.locks.store hl hloop⟩, 0,
      ?_, ?_, fun _ _ => rfl, fun _ => .inl rfl⟩
    · rw [← List.singleton_append, ownReplies_append, hnone, List.append_nil,
        length_ownReplies_toOwn]
      simp [hown, hans]
    · simp only [NtTables.waiting, List.length_nil] at hcplaces hlplaces ⊢
      omega

/-- **One clean dispatch keeps the books**: it answers what it must, and every
other reply to the own program takes its id out of a queue. -/
theorem reply_effect (hself : t.AllSelf nt.self) (hclean : CleanDispatch nt r t)
    (hid : r.op.isBroadcast ↔ r.ntID = nt.self - 1) (h : dispatch nt r t = .ok (t', ps)) :
    ReplyEffect nt r t t' ps := by
  have hother : r.op.isBroadcast = false → r.ntID ≠ nt.self - 1 := by
    intro hno heq
    rw [hid.mpr heq] at hno
    cases hno
  unfold dispatch at h
  cases hop : r.op with
  | createLock name => rw [hop] at h; exact createLock_reply hself hop (hother (by rw [hop]; rfl)) h
  | createCV name => rw [hop] at h; exact createCV_reply hself hop (hother (by rw [hop]; rfl)) h
  | createMonitor name =>
      rw [hop] at h
      obtain ⟨hlocks, hconds, i, hps⟩ := createMonitor_ok h
      refine .of_replyIf ⟨hconds ▸ hself.conditions, hlocks ▸ hself.locks⟩ ?_ (by rw [hop]; rfl)
        (hother (by rw [hop]; rfl)) hps
      rw [NtTables.waiting, NtTables.waiting, hlocks, hconds]
  | retrieveMonitor m =>
      rw [hop] at h
      obtain ⟨rfl, v, hps⟩ := retrieveMonitor_ok h
      exact .of_replyIf hself (le_refl _) (by rw [hop]; rfl) (hother (by rw [hop]; rfl)) hps
  | setMonitor m v =>
      rw [hop] at h
      obtain ⟨hlocks, hconds, hps⟩ := setMonitor_ok h
      refine .of_replyIf ⟨hconds ▸ hself.conditions, hlocks ▸ hself.locks⟩ ?_ (by rw [hop]; rfl)
        (hother (by rw [hop]; rfl)) hps
      rw [NtTables.waiting, NtTables.waiting, hlocks, hconds]
  | acquire l =>
      rw [hop] at h
      cases h
      exact ⟨hself, 0, by simp [hop, Op.answered, ownReplies], by omega,
        fun _ _ => rfl, fun _ => .inl rfl⟩
  | startSimulation =>
      rw [hop] at h
      cases h
      exact ⟨hself, 0, by simp [hop, Op.answered, ownReplies], by omega,
        fun _ _ => rfl, fun _ => .inl rfl⟩
  | release l =>
      rw [hop] at h
      simp only [CleanDispatch, hop] at hclean
      exact release_reply hself hop (hother (by rw [hop]; rfl)) hclean h
  | destroyLock l =>
      rw [hop] at h
      simp only [CleanDispatch, hop] at hclean
      exact destroyLock_reply hself hop hclean h
  | destroyCV c =>
      rw [hop] at h
      simp only [CleanDispatch, hop] at hclean
      exact destroyCV_reply hself hop hclean h
  | signal c l =>
      rw [hop] at h
      exact signal_reply hself hop (hother (by rw [hop]; rfl)) hclean h
  | wait c l =>
      rw [hop] at h
      simp only [CleanDispatch, hop] at hclean
      exact wait_reply hself hop hclean.1 hclean.2 h
  | broadcast c l =>
      rw [hop] at h
      exact broadcast_reply hself hop (.inr (hid.mp (by rw [hop]; rfl))) h

end Effects

/-! ## Broadcasts stay at home -/

/-- Broadcasts are the requests under the id before the thread's own, and they
are never on their way to another thread. -/
structure BroadcastIDs (s : Net) : Prop where
  up : ∀ j, ∀ m ∈ s.chan (.up, j), ∀ op ∈ m.op, op.isBroadcast ↔ m.ID = j - 1
  nt : ∀ i j, ∀ m ∈ s.chan (.nt i, j), ∀ op ∈ m.op, op.isBroadcast = false
  current : ∀ i, (s.nt i).sending ≠ [] → (s.nt i).current.ID = i →
    ∀ op ∈ (s.nt i).current.op, op.isBroadcast = false
  entries : ∀ j, ∀ e ∈ (s.nt j).queues.processable ++ (s.nt j).queues.queued,
    e.body.isBroadcast ↔ e.ntID = j - 1

section Broadcasts

variable {reg : Registry} {s s' : Net}

theorem BroadcastIDs.initial (clock : ℕ) : BroadcastIDs (.initial reg clock) where
  up j m hm := by cases hm
  nt i j m hm := by cases hm
  current i h := absurd rfl h
  entries j e he := by cases he

/-- The request a thread receives, whoever sent it. -/
theorem BroadcastIDs.of_head (h : BroadcastIDs s) (hshape : Shape reg s) {j : ℤ} {snd : Sender}
    {m : Msg} {ms : List Msg} (hj : j ∈ reg.idList) (hchan : s.chan (snd, j) = m :: ms) :
    ∀ op ∈ m.op, op.isBroadcast ↔ m.ID = j - 1 := by
  have hmem : m ∈ s.chan (snd, j) := hchan ▸ List.mem_cons_self
  cases snd with
  | up => exact h.up j m hmem
  | nt k =>
      intro op hop
      obtain ⟨hk, hID, _, _⟩ := hshape.fromNt k j m hmem
      have h1 := Registry.odd_of_mem hk
      have h2 := Registry.odd_of_mem hj
      rw [h.nt k j m hmem op hop]
      constructor
      · intro hfalse
        cases hfalse
      · intro heq
        omega

theorem BroadcastIDs.step {l : Label} {e : Event} (h : BroadcastIDs s) (hshape : Shape reg s)
    (hs : Network.step reg s l = some (s', e)) : BroadcastIDs s' := by
  cases Step.of_step hs with
  | tick d => exact ⟨h.up, h.nt, h.current, h.entries⟩
  | answer _ _ _ => exact ⟨h.up, h.nt, h.current, h.entries⟩
  | @issue nt op _ _ _ =>
      refine ⟨?_, ?_, h.current, h.entries⟩
      · intro j m hm
        rw [Net.issue_chan] at hm
        rcases mem_chan_push hm with hm | ⟨hq, rfl⟩
        · exact h.up j m hm
        · obtain rfl : j = nt.self := by simpa using hq
          intro x hx
          obtain rfl : op = x := Option.some.inj hx
          show op.isBroadcast = true ↔ myID nt op = nt.self - 1
          rw [myID_eq]
          split
          · rename_i hb
            simp [hb]
          · rename_i hb
            simp only [hb, Bool.false_eq_true, false_iff]
            omega
      · intro i j
        rw [Net.issue_chan_nt]
        exact h.nt i j
  | steal _ _ hchan =>
      exact ⟨fun j m hm => h.up j m (mem_chan_pop hchan hm),
        fun i j m hm => h.nt i j m (mem_chan_pop hchan hm), h.current, h.entries⟩
  | @skip nt ds _ _ hsending =>
      refine ⟨h.up, h.nt, ?_, fun j => by simpa using h.entries j⟩
      refine forall_nt (P := fun i n => n.sending ≠ [] → n.current.ID = i →
        ∀ op ∈ n.current.op, op.isBroadcast = false) h.current ?_
      exact fun _ => h.current nt.self (by rw [hsending]; exact List.cons_ne_nil _ _)
  | @send nt d ds _ hto hsending =>
      have hne : (s.nt nt.self).sending ≠ [] := by
        rw [hsending]
        exact List.cons_ne_nil _ _
      refine ⟨?_, ?_, ?_, fun j => by simpa using h.entries j⟩
      · intro j m hm
        rcases mem_chan_push hm with hm | ⟨hq, _⟩
        · exact h.up j m hm
        · cases hq
      · intro i j m hm
        rcases mem_chan_push hm with hm | ⟨hq, rfl⟩
        · exact h.nt i j m hm
        · unfold Net.outgoing
          split
          · intro op hop
            cases hop
          · rename_i hown
            exact h.current nt.self hne (not_not.mp hown)
      · refine forall_nt (P := fun i n => n.sending ≠ [] → n.current.ID = i →
          ∀ op ∈ n.current.op, op.isBroadcast = false) h.current ?_
        exact fun _ => h.current nt.self hne
  | @receive nt snd m ms hreg _ _ hchan =>
      have hhead := h.of_head hshape hreg hchan
      refine ⟨fun j x hx => h.up j x (mem_chan_pop hchan hx),
        fun i j x hx => h.nt i j x (mem_chan_pop hchan hx), ?_, ?_⟩
      · refine forall_nt (P := fun i n => n.sending ≠ [] → n.current.ID = i →
          ∀ op ∈ n.current.op, op.isBroadcast = false) h.current ?_
        intro _ hID op hop
        change m.ID = nt.self at hID
        by_contra hb
        have hprev := (hhead op hop).mp (by simpa using hb)
        omega
      · refine forall_nt (P := fun j n => ∀ e ∈ n.queues.processable ++ n.queues.queued,
          e.body.isBroadcast ↔ e.ntID = j - 1) h.entries ?_
        intro e he
        rcases List.mem_append.mp ((Queues.receive_perm ..).mem_iff.mp he) with he | he
        · obtain ⟨b, hb, rfl⟩ := Option.map_eq_some_iff.mp (Option.mem_toList.mp he)
          exact hhead b hb
        · exact h.entries nt.self e he
  | @dispatch nt e es t ps _ _ hproc _ =>
      refine ⟨h.up, h.nt, fun i => by simpa using h.current i, ?_⟩
      refine forall_nt (P := fun j n => ∀ e ∈ n.queues.processable ++ n.queues.queued,
        e.body.isBroadcast ↔ e.ntID = j - 1) h.entries ?_
      intro x hx
      refine h.entries nt.self x ?_
      rcases List.mem_append.mp hx with hx | hx
      · exact List.mem_append_left _ (List.mem_of_mem_tail hx)
      · exact List.mem_append_right _ hx

theorem BroadcastIDs.of_run {ok : List Event → Net → Label → Prop} {clock : ℕ} {tr : List Event}
    (h : Run (Network.step reg) ok (.initial reg clock) tr s) : BroadcastIDs s :=
  h.invariant_with (J := fun _ s => Shape reg s) (I := fun _ s => BroadcastIDs s)
    Shape.of_run (.initial clock) fun hshape h _ hs => h.step hshape hs

end Broadcasts

/-! ## The books -/

/-- The three counts of every thread, and where the syscalls wait. -/
structure Books (tr : List Event) (s : Net) : Prop where
  allSelf : ∀ i, (s.nt i).tables.AllSelf i
  grants : ∀ i, (s.nt i).tables.waiting + (grantsBy i tr).length ≤ ownDispatched i Op.isWait tr
  replies : ∀ i, (repliesBy i tr).length =
    ownDispatched i Op.answered tr + (grantsBy i tr).length
  up : ∀ i, s.up i ≠ .waiting .networkThread
  notStolen : ∀ i snd m, Event.stolen i snd m ∉ tr

section Books

variable {reg : Registry} {tr : List Event} {s s' : Net}

theorem ownDispatched_snoc (i : ℤ) (p : Op → Bool) (tr : List Event) (e : Event) :
    ownDispatched i p (tr ++ [e]) = ownDispatched i p tr +
      (e.dispatchedEntry i).toList.countP (fun e => ofProgram i e && p e.body) := by
  rw [ownDispatched, dispatchedBy_snoc, List.countP_append]
  rfl

theorem ownDispatched_dispatched (i : ℤ) (p : Op → Bool) (tr : List Event) (e : MessageEntry Op)
    (ps : List Packet) :
    ownDispatched i p (tr ++ [.dispatched i e ps]) =
      ownDispatched i p tr + if ofProgram i e ∧ p e.body then 1 else 0 := by
  rw [ownDispatched_snoc]
  simp [Event.dispatchedEntry, List.countP_cons]

theorem repliesBy_dispatched (i : ℤ) (tr : List Event) (e : MessageEntry Op) (ps : List Packet) :
    (repliesBy i (tr ++ [.dispatched i e ps])).length =
      (repliesBy i tr).length + (ownReplies i ps).length := by
  rw [repliesBy, flatMap_snoc, List.length_append]
  simp [repliesBy]

theorem grantsBy_dispatched (i : ℤ) (tr : List Event) (e : MessageEntry Op) (ps : List Packet) :
    (grantsBy i (tr ++ [.dispatched i e ps])).length = (grantsBy i tr).length +
      if ofProgram i e ∧ e.body.answered then 0 else (ownReplies i ps).length := by
  rw [grantsBy, flatMap_snoc, List.length_append]
  by_cases h : ofProgram i e ∧ e.body.answered
  · simp [grantsBy, h]
  · simp only [grantsBy, h, not_false_eq_true, and_self, if_true, if_false]

theorem Books.initial (clock : ℕ) : Books [] (.initial reg clock) where
  allSelf i := ⟨fun k x hk => by simp [Net.initial, NtTables.initial, NamedTable.empty] at hk,
    fun k x hk => by simp [Net.initial, NtTables.initial, NamedTable.empty] at hk⟩
  grants i := by
    simp [Net.initial, NtTables.initial, NamedTable.empty, NtTables.waiting, NamedTable.places,
      grantsBy]
  replies i := rfl
  up i := by simp [Net.initial]
  notStolen i snd m h := by cases h

/-- Steps other than dispatches leave the books alone. -/
theorem Books.frame {e : Event} (h : Books tr s) (hd : ∀ i, e.dispatchedEntry i = none)
    (hstolen : ∀ i snd m, e ≠ .stolen i snd m)
    (htables : ∀ i, (s'.nt i).tables = (s.nt i).tables)
    (hup : ∀ i, s'.up i ≠ .waiting .networkThread) : Books (tr ++ [e]) s' := by
  have hcounts : ∀ i, repliesBy i (tr ++ [e]) = repliesBy i tr ∧
      grantsBy i (tr ++ [e]) = grantsBy i tr ∧
      ∀ p, ownDispatched i p (tr ++ [e]) = ownDispatched i p tr := by
    intro i
    refine ⟨?_, ?_, fun p => by rw [ownDispatched_snoc, hd]; rfl⟩
    all_goals
      simp only [repliesBy, grantsBy, flatMap_snoc]
      cases e with
      | dispatched j x ps => exact absurd (hd j) (by simp [Event.dispatchedEntry])
      | _ => simp
  refine ⟨fun i => htables i ▸ h.allSelf i, ?_, ?_, hup, ?_⟩
  · intro i
    rw [htables, (hcounts i).2.1, (hcounts i).2.2]
    exact h.grants i
  · intro i
    rw [(hcounts i).1, (hcounts i).2.1, (hcounts i).2.2]
    exact h.replies i
  · intro i snd m hmem
    rcases List.mem_append.mp hmem with hmem | hmem
    · exact h.notStolen i snd m hmem
    · exact hstolen i snd m (List.mem_singleton.mp hmem).symm

/-- One dispatch at `nt`, with what it does to the tables and the replies. -/
theorem Books.dispatch (h : Books tr s) {nt : NetThread} {e : MessageEntry Op} {t : NtTables}
    {ps : List Packet} (heff : ReplyEffect nt ⟨e.ntID, e.body⟩ (s.nt nt.self).tables t ps) :
    Books (tr ++ [.dispatched nt.self e ps]) ((s.dispatched nt.self t).post ps) := by
  obtain ⟨g, hreplies, hwaiting, hown, _⟩ := heff.count
  dsimp only at hreplies hwaiting hown
  have hprog : ofProgram nt.self e ↔ Request.Own nt ⟨e.ntID, e.body⟩ := decide_eq_true_iff
  refine ⟨?_, ?_, ?_, h.up, ?_⟩
  · intro i
    by_cases hi : i = nt.self
    · subst hi
      rw [Net.post_nt, Net.dispatched_nt_self]
      exact heff.allSelf
    · rw [Net.post_nt, Net.dispatched_nt_of_ne _ _ _ hi]
      exact h.allSelf i
  · intro i
    by_cases hi : i = nt.self
    · subst hi
      have hold := h.grants nt.self
      rw [Net.post_nt, Net.dispatched_nt_self, ownDispatched_dispatched, grantsBy_dispatched]
      simp only [hprog]
      -- a request answered on the spot leaves the queues alone, a `WAIT` takes one place
      split at hreplies
      · rename_i hans
        have hg := hown hans.1 hans.2
        rw [if_pos hans]
        show t.waiting + _ ≤ _
        omega
      · rename_i hans
        rw [if_neg hans, hreplies]
        show t.waiting + _ ≤ _
        omega
    · rw [Net.post_nt, Net.dispatched_nt_of_ne _ _ _ hi, ownDispatched_snoc]
      simpa [grantsBy, flatMap_snoc, Event.dispatchedEntry, Ne.symm hi] using h.grants i
  · intro i
    by_cases hi : i = nt.self
    · subst hi
      have hold := h.replies nt.self
      rw [ownDispatched_dispatched, repliesBy_dispatched, grantsBy_dispatched]
      simp only [hprog]
      split at hreplies
      · rename_i hans
        have hg := hown hans.1 hans.2
        rw [if_pos hans, if_pos hans]
        omega
      · rename_i hans
        rw [if_neg hans, if_neg hans]
        omega
    · rw [ownDispatched_snoc]
      simpa [repliesBy, grantsBy, flatMap_snoc, Event.dispatchedEntry, Ne.symm hi] using h.replies i
  · intro i snd m hmem
    rcases List.mem_append.mp hmem with hmem | hmem
    · exact h.notStolen i snd m hmem
    · cases List.mem_singleton.mp hmem

/-- The effect of a clean dispatch in a reachable state. -/
theorem Books.effect (h : Books tr s) (hids : BroadcastIDs s) {nt : NetThread}
    {e : MessageEntry Op} {es : List (MessageEntry Op)} {t : NtTables} {ps : List Packet}
    (hok : CleanReplies tr s (.dispatch nt))
    (hproc : (s.nt nt.self).queues.processable = e :: es)
    (hd : Network.dispatch nt ⟨e.ntID, e.body⟩ (s.nt nt.self).tables = .ok (t, ps)) :
    ReplyEffect nt ⟨e.ntID, e.body⟩ (s.nt nt.self).tables t ps := by
  refine reply_effect (h.allSelf nt.self) (hok e (by rw [hproc]; rfl)) ?_ hd
  exact hids.entries nt.self e (List.mem_append_left _ (hproc ▸ List.mem_cons_self))

theorem Books.step {l : Label} {e : Event} (h : Books tr s) (hids : BroadcastIDs s)
    (hok : CleanReplies tr s l) (hs : Network.step reg s l = some (s', e)) :
    Books (tr ++ [e]) s' := by
  cases Step.of_step hs with
  | tick d => exact h.frame (fun _ => rfl) (fun _ _ _ => by simp) (fun _ => rfl) h.up
  | @issue nt op _ _ _ =>
      refine h.frame (fun _ => rfl) (fun _ _ _ => by simp) (fun _ => rfl) ?_
      intro i
      rw [Net.issue_up, Function.update_apply]
      split
      · rw [show replyBox op = .own from hok]
        simp
      · exact h.up i
  | @answer nt ack acks _ _ _ =>
      refine h.frame (fun _ => rfl) (fun _ _ _ => by simp) (fun _ => rfl) ?_
      intro i
      rw [Net.answer_up, Function.update_apply]
      split
      · simp
      · exact h.up i
  | steal _ hup _ => exact absurd hup (h.up _)
  | receive _ _ _ _ =>
      exact h.frame (fun _ => rfl) (fun _ _ _ => by simp) (fun _ => by simp) h.up
  | skip _ _ _ => exact h.frame (fun _ => rfl) (fun _ _ _ => by simp) (fun _ => by simp) h.up
  | send _ _ _ => exact h.frame (fun _ => rfl) (fun _ _ _ => by simp) (fun _ => by simp) h.up
  | dispatch _ _ hproc hd => exact h.dispatch (h.effect hids hok hproc hd)

theorem Books.of_run {clock : ℕ}
    (h : Run (Network.step reg) CleanReplies (.initial reg clock) tr s) : Books tr s :=
  h.invariant_with (J := fun _ s => BroadcastIDs s) (I := fun tr s => Books tr s)
    BroadcastIDs.of_run (.initial clock) fun hids h hok hs => h.step hids hok hs

/-- No request is both answered at once and a `WAIT`. -/
theorem ownDispatched_add_le (i : ℤ) (tr : List Event) :
    ownDispatched i Op.answered tr + ownDispatched i Op.isWait tr ≤
      (dispatchedBy i tr).countP (ofProgram i) := by
  unfold ownDispatched
  induction dispatchedBy i tr with
  | nil => exact le_refl _
  | cons e es ih =>
      simp only [List.countP_cons]
      cases hown : ofProgram i e with
      | false => simpa [hown] using ih
      | true =>
          have hdisjoint : ¬ (e.body.answered = true ∧ e.body.isWait = true) := by
            cases e.body <;> simp [Op.answered, Op.isWait]
          cases hans : e.body.answered <;> cases hwait : e.body.isWait
          · simp only [Bool.and_false, Bool.false_eq_true, if_false, if_true]
            omega
          · simp only [Bool.and_false, Bool.and_self, Bool.false_eq_true, if_false, if_true]
            omega
          · simp only [Bool.and_false, Bool.and_self, Bool.false_eq_true, if_false, if_true]
            omega
          · exact absurd ⟨hans, hwait⟩ hdisjoint

/-- A thread dispatches at most the requests its user program issued. -/
theorem ownDispatched_le_issued {clock : ℕ} {i : ℤ} (hi : i ∈ reg.idList)
    (h : Run (Network.step reg) CleanReplies (.initial reg clock) tr s) :
    (dispatchedBy i tr).countP (ofProgram i) ≤ (issuedBy i tr).length := by
  have hrun : Run (Network.step reg) NoRequestStolen (.initial reg clock) tr s := by
    refine h.weaken_with (J := fun tr s => Books tr s) Books.of_run ?_
    intro tr s l s' e hbooks _ hs
    cases Step.of_step hs with
    | steal _ hup _ => exact absurd hup (hbooks.up _)
    | _ => trivial
  calc (dispatchedBy i tr).countP (ofProgram i)
      ≤ (enqueuedBy i tr).countP (ofProgram i) := by
        rw [← (enqueuedBy_perm h i).countP_eq, List.countP_append]
        exact Nat.le_add_right ..
    _ = ((receivedFrom .up i tr).filterMap Msg.entry).length := by
        rw [List.countP_eq_length_filter, enqueued_from h hi hi, source, if_pos rfl]
    _ ≤ (receivedFrom .up i tr).length := List.length_filterMap_le ..
    _ ≤ (issuedBy i tr).length := by
        rw [← up_mail hrun i, List.length_append]
        exact Nat.le_add_right ..

/-- What matching requests and replies means. -/
structure RepliesMatch (reg : Registry) (ok : List Event → Net → Label → Prop)
    (tr : List Event) (s : Net) : Prop where
  /-- Never more replies than requests. -/
  atMost : ∀ i ∈ reg.idList, (repliesBy i tr).length ≤ (issuedBy i tr).length
  /-- An own request that is answered at once gets exactly one reply. -/
  own : ∀ l s' i e ps, ok tr s l → Network.step reg s l = some (s', .dispatched i e ps) →
    ofProgram i e → e.body.answered → (ownReplies i ps).length = 1
  /-- A request of another program gives no reply to this one, unless it gives it
  a lock while a `WAIT` of it is open. -/
  foreign : ∀ l s' i e ps, ok tr s l → Network.step reg s l = some (s', .dispatched i e ps) →
    ¬ ofProgram i e → ownReplies i ps = [] ∨
      ((ownReplies i ps).length = 1 ∧ GrantsLock i e.body (s'.nt i).tables ∧
        (grantsBy i tr).length < ownDispatched i Op.isWait tr)
  /-- No syscall reads the mailbox of the network thread. -/
  ownBox : ∀ i snd m, Event.stolen i snd m ∉ tr

/-- **Requests and replies match** in runs of clean dispatches. -/
theorem replies_match {clock : ℕ}
    (h : Run (Network.step reg) CleanReplies (.initial reg clock) tr s) :
    RepliesMatch reg CleanReplies tr s := by
  have hbooks := Books.of_run h
  have hids := BroadcastIDs.of_run h
  refine ⟨?_, ?_, ?_, hbooks.notStolen⟩
  · intro i hi
    have hle := ownDispatched_le_issued hi h
    have hsplit := ownDispatched_add_le i tr
    have hgrants := hbooks.grants i
    have hreplies := hbooks.replies i
    omega
  · intro l s' i e ps hok hs hown hans
    cases Step.of_step hs with
    | dispatch _ _ hproc hd =>
        obtain ⟨g, hreplies, _, hg, _⟩ := (hbooks.effect hids hok hproc hd).count
        have hown := of_decide_eq_true hown
        rw [hreplies, if_pos ⟨hown, hans⟩, hg hown hans]
  · intro l s' i e ps hok hs hforeign
    cases Step.of_step hs with
    | @dispatch nt _ _ _ _ _ _ hproc hd =>
        obtain ⟨g, hreplies, hwaiting, _, hg⟩ := (hbooks.effect hids hok hproc hd).count
        have hforeign : ¬ Request.Own nt ⟨e.ntID, e.body⟩ := fun hown =>
          hforeign (decide_eq_true_iff.mpr hown)
        rw [if_neg (fun h => hforeign h.1), Nat.zero_add] at hreplies
        rcases hg hforeign with rfl | ⟨rfl, hgranted⟩
        · exact .inl (List.length_eq_zero_iff.mp hreplies)
        · refine .inr ⟨hreplies, ?_, ?_⟩
          · rw [Net.post_nt, Net.dispatched_nt_self]
            exact hgranted
          · have hgrants := hbooks.grants nt.self
            rw [if_neg (fun h => hforeign h.1)] at hwaiting
            omega

end Books

/-! ## A signal that nobody waits for -/

/-- The user program of thread 101 creates a condition and signals it. -/
def unheardSignal : List Label :=
  [.issue nt101 (.createCV ['C']), .receive nt101 .up, .send nt101, .send nt101, .send nt101,
    .receive nt201 (.nt 101), .send nt201, .send nt201, .send nt201,
    .receive nt301 (.nt 101), .send nt301, .send nt301, .send nt301,
    .receive nt101 (.nt 201), .receive nt101 (.nt 301), .dispatch nt101, .answer nt101,
    .receive nt201 (.nt 201), .receive nt201 (.nt 301), .dispatch nt201,
    .issue nt101 (.signal 0 0), .receive nt101 .up, .send nt101, .send nt101, .send nt101,
    .receive nt201 (.nt 101), .send nt201, .send nt201, .send nt201, .dispatch nt201]

/-- Thread 201 acknowledges the signal to its own user program, which asked for
nothing. -/
theorem replies_exceed_requests :
    ¬ ∀ reg clock tr s, Run (step reg) anyStep (.initial reg clock) tr s →
      RepliesMatch reg anyStep tr s := by
  intro h
  have hexec : (exec (step threeMachines) anyStep [] (.initial threeMachines 0)
      unheardSignal).map (fun p => ((repliesBy 201 p.1).length, (issuedBy 201 p.1).length)) =
      some (1, 0) := by
    decide +kernel
  obtain ⟨⟨tr, s⟩, hp, heq⟩ := Option.map_eq_some_iff.mp hexec
  obtain ⟨hreplies, hissued⟩ := Prod.mk.inj heq
  have hle := (h _ _ _ _ (Run.of_exec .start hp)).atMost 201 (by decide)
  rw [show (repliesBy 201 tr).length = 1 from hreplies,
    show (issuedBy 201 tr).length = 0 from hissued] at hle
  exact absurd hle (by decide)

/-- One `CREATE_LOCK` is answered to the program that asked for it. -/
theorem replies_match_create :
    ∃ tr s, Run (step threeMachines) CleanReplies (.initial threeMachines 0) tr s ∧
      (repliesBy 101 tr).length = 1 ∧ (issuedBy 101 tr).length = 1 ∧
      RepliesMatch threeMachines CleanReplies tr s := by
  have hexec : (exec (step threeMachines) CleanReplies [] (.initial threeMachines 0)
      deliveredLock).map (fun p => ((repliesBy 101 p.1).length, (issuedBy 101 p.1).length)) =
      some (1, 1) := by
    decide +kernel
  obtain ⟨⟨tr, s⟩, hp, heq⟩ := Option.map_eq_some_iff.mp hexec
  obtain ⟨hreplies, hissued⟩ := Prod.mk.inj heq
  have hrun := Run.of_exec .start hp
  exact ⟨tr, s, hrun, hreplies, hissued, replies_match hrun⟩

end Nachos.Network
