import Mathlib
import Nachos.Network.Waiters

/-!
# The lock of a condition

A condition is used with one lock: the first `WAIT` that names it binds it to the lock it
gives, and a later `WAIT` with another lock is answered `"wronglock"` and does nothing. The
code marks an unbound condition by the integer 0, which is a lock index as well, so a `WAIT` with
lock 0 does not bind; and it has no `break` behind the answer, so the `WAIT` with the wrong lock
is carried out all the same.
-/

namespace Nachos.Network

open Nachos.Userprog Nachos.Lib

/-! ## The contract -/

/-- What an event does to the lock that condition `c` is bound to: the binding ends with the
entry, and the first `WAIT` makes it. -/
def boundStep (c : ℤ) (b : Option ℤ) (e : Dispatched) : Option ℤ :=
  if (e.after.conditions.table.get c).isNone then none
  else
    match e.request.op with
    | .wait con lock => if con = c then b.or (some lock) else b
    | _ => b

/-- The lock of the first `WAIT` that named `c` since its entry was made. -/
def bound (tr : List Dispatched) (c : ℤ) : Option ℤ := tr.foldl (boundStep c) none

/-- What a `WAIT` on `c` with lock `l` is meant to do. -/
structure WaitContract (nt : NetThread) (tr : List Dispatched) (e : Dispatched) (c l : ℤ) :
    Prop where
  /-- The first `WAIT` binds. -/
  first : bound tr c = none →
    (e.after.conditions.table.get c).map NtConditionEntry.lock = some l
  /-- With another lock, nothing happens but the answer to the requester. -/
  wrong : ∀ b, bound tr c = some b → b ≠ l →
    e.after = e.before ∧ e.packets = replyIf nt e.request.ntID .wronglock
  /-- Else the requester is enqueued and the lock released, and nobody is told of a wrong lock. -/
  served : (∀ b, bound tr c = some b → b = l) →
    Conserves e ∧ ∀ p ∈ e.packets, p.ack ≠ .wronglock

/-- The contract of a `WAIT`, and that no request changes a binding once it is made. -/
def BindingContract (nt : NetThread) (tr : List Dispatched) (e : Dispatched) : Prop :=
  (∀ c l, e.request.op = .wait c l → WaitContract nt tr e c l) ∧
  ∀ c sce sce', bound tr c ≠ none → e.before.conditions.table.get c = some sce →
    e.after.conditions.table.get c = some sce' → sce'.lock = sce.lock

/-- A `WAIT` names the lock that the condition is bound to, if it is bound, and the ids the code
writes down are the ids it should. -/
def WaitsAsBound (nt : NetThread) (tr : List Dispatched) (t : NtTables) (r : Request) : Prop :=
  match r.op with
  | .wait c l => (∀ b ∈ bound tr c, b = l) ∧ MovesOwnId nt t r
  | _ => True

instance (nt : NetThread) (tr : List Dispatched) (t : NtTables) :
    ∀ r, Decidable (WaitsAsBound nt tr t r)
  | ⟨_, .wait _ _⟩ => inferInstanceAs (Decidable (_ ∧ _))
  | ⟨_, .createLock _⟩ | ⟨_, .acquire _⟩ | ⟨_, .release _⟩ | ⟨_, .destroyLock _⟩
  | ⟨_, .createCV _⟩ | ⟨_, .signal _ _⟩ | ⟨_, .broadcast _ _⟩ | ⟨_, .destroyCV _⟩
  | ⟨_, .createMonitor _⟩ | ⟨_, .retrieveMonitor _⟩ | ⟨_, .setMonitor _ _⟩
  | ⟨_, .startSimulation⟩ => .isTrue trivial

/-! ## What a request does to the lock of a condition -/

section Effects

variable {nt : NetThread} {t t' : NtTables} {r : Request} {ps : List Packet} {c : ℤ}
  {sce' : NtConditionEntry}

/-- The entry is new and unbound, or its lock is what it was. -/
def LockKept (c : ℤ) (t : NtTables) (sce' : NtConditionEntry) : Prop :=
  (t.conditions.table.get c = none ∧ sce'.lock = 0) ∨
    ∃ sce, t.conditions.table.get c = some sce ∧ sce'.lock = sce.lock

theorem LockKept.of_eq (heq : t'.conditions = t.conditions)
    (hc : t'.conditions.table.get c = some sce') : LockKept c t sce' := by
  rw [heq] at hc
  exact .inr ⟨sce', hc, rfl⟩

theorem LockKept.of_store {d : ℤ} {sce x : NtConditionEntry}
    (hd : t.conditions.table.get d = some sce) (heq : t'.conditions = t.conditions.store d x)
    (hx : c = d → x.lock = sce.lock)
    (hc : t'.conditions.table.get c = some sce') : LockKept c t sce' := by
  rw [heq, NamedTable.store] at hc
  by_cases hcd : c = d
  · subst hcd
    rw [Table.get_store_self _ hd] at hc
    obtain rfl := Option.some.inj hc
    exact .inr ⟨sce, hd, hx rfl⟩
  · rw [Table.get_store_of_ne _ hd hcd] at hc
    exact .inr ⟨sce', hc, rfl⟩

/-- Only a `WAIT` that names it changes the lock of a condition. -/
theorem lockKept_of_dispatch (h : dispatch nt r t = .ok (t', ps))
    (hr : ∀ l, r.op ≠ .wait c l) (hc : t'.conditions.table.get c = some sce') :
    LockKept c t sce' := by
  unfold dispatch at h
  cases hop : r.op with
  | createLock name => exact .of_eq (createLock_ok (by simpa only [hop] using h)).1 hc
  | acquire l =>
      simp only [hop, acquire, Except.ok.injEq, Prod.mk.injEq] at h
      exact .of_eq (by rw [h.1]) hc
  | release l =>
      obtain ⟨sle, -, rfl, -⟩ := release_ok (by simpa only [hop] using h)
      exact .of_eq (t := t) rfl hc
  | destroyLock l => exact .of_eq (destroyLock_ok (by simpa only [hop] using h)).1 hc
  | createCV name =>
      obtain ⟨-, -, i, -, hcase⟩ := createCV_ok (by simpa only [hop] using h)
      rcases hcase with ⟨sce, hget, heq⟩ | ⟨hnone, hfresh, -, hrest⟩
      · exact .of_store hget heq (fun _ => rfl) hc
      · by_cases hci : c = i
        · subst hci
          rw [hfresh] at hc
          obtain rfl := Option.some.inj hc
          exact .inl ⟨hnone, rfl⟩
        · rw [hrest c hci] at hc
          exact .inr ⟨sce', hc, rfl⟩
  | signal d l =>
      obtain ⟨sce, hget, hcase⟩ := signal_ok (by simpa only [hop] using h)
      rcases hcase with ⟨-, rfl, -⟩ | ⟨w, ws, sle, -, -, rfl, -⟩
      · exact .of_eq (t := t') rfl hc
      · exact .of_store (t := t) (x := { sce with waitQueue := ws }) hget rfl (fun _ => rfl) hc
  | wait d l =>
      obtain ⟨sce, sle, hget, -, rfl, -⟩ := wait_ok (by simpa only [hop] using h)
      have hne : c ≠ d := by
        rintro rfl
        exact hr l hop
      exact .of_store (t := t) hget rfl (fun heq => absurd heq hne) hc
  | broadcast d l =>
      obtain ⟨sce, hget, hcase⟩ := broadcast_ok (by simpa only [hop] using h)
      rcases hcase with ⟨-, rfl, -⟩ | ⟨sle, -, -, rfl, -⟩
      · exact .of_eq (t := t') rfl hc
      · exact .of_store (t := t) (x := { sce with waitQueue := [] }) hget rfl (fun _ => rfl) hc
  | destroyCV d =>
      obtain ⟨-, -, sce, -, hget, -, htab | heq⟩ := destroyCV_ok (by simpa only [hop] using h)
      · rw [htab, Table.get_remove] at hc
        split at hc
        · cases hc
        · exact .inr ⟨sce', hc, rfl⟩
      · exact .of_store hget heq (fun _ => rfl) hc
  | createMonitor name => exact .of_eq (createMonitor_ok (by simpa only [hop] using h)).2.1 hc
  | retrieveMonitor k =>
      obtain ⟨rfl, -⟩ := retrieveMonitor_ok (by simpa only [hop] using h)
      exact .of_eq (t := t') rfl hc
  | setMonitor k v => exact .of_eq (setMonitor_ok (by simpa only [hop] using h)).2.1 hc
  | startSimulation =>
      simp only [hop, Except.ok.injEq, Prod.mk.injEq] at h
      exact .of_eq (by rw [h.1]) hc

end Effects

/-! ## The binding along a run -/

section Binding

variable {nt : NetThread} {tr : List Dispatched} {e : Dispatched} {c l : ℤ}
  {sce sce' : NtConditionEntry}

theorem bound_snoc (tr : List Dispatched) (e : Dispatched) (c : ℤ) :
    bound (tr ++ [e]) c = boundStep c (bound tr c) e := by
  rw [bound, List.foldl_append]
  rfl

theorem boundStep_gone {b : Option ℤ} (hc : e.after.conditions.table.get c = none) :
    boundStep c b e = none := by
  rw [boundStep, hc]
  rfl

theorem boundStep_wait {b : Option ℤ} (hc : e.after.conditions.table.get c = some sce')
    (hop : e.request.op = .wait c l) : boundStep c b e = b.or (some l) := by
  rw [boundStep, hc, hop]
  simp

theorem boundStep_other {b : Option ℤ} (hc : e.after.conditions.table.get c = some sce')
    (hop : ∀ l, e.request.op ≠ .wait c l) : boundStep c b e = b := by
  rw [boundStep, hc]
  cases hw : e.request.op with
  | wait d l =>
      have hne : d ≠ c := by
        rintro rfl
        exact hop l hw
      simp [hne]
  | _ => simp

/-- The code's mark of a condition says what it is bound to, 0 standing for lock 0 and for
no lock. -/
structure Marked (tr : List Dispatched) (t : NtTables) : Prop where
  lock : ∀ c sce, t.conditions.table.get c = some sce → sce.lock = (bound tr c).getD 0
  gone : ∀ c, t.conditions.table.get c = none → bound tr c = none

theorem marked_initial : Marked [] .initial where
  lock c sce h := by simp [NtTables.initial, NamedTable.empty] at h
  gone _ _ := rfl

/-- Naming the lock it is bound to, a `WAIT` leaves it bound to the lock it names. -/
theorem Marked.bind_eq (h : Marked tr e.before) (hc : e.before.conditions.table.get c = some sce)
    (hb : ∀ b ∈ bound tr c, b = l) : sce.bind l = l := by
  have hlock := h.lock c sce hc
  rw [NtConditionEntry.bind]
  cases hbound : bound tr c with
  | none =>
      rw [hbound, Option.getD_none] at hlock
      rw [hlock]
      by_cases hl : l = 0 <;> simp [hl]
  | some b =>
      obtain rfl := hb b hbound
      rw [hbound, Option.getD_some] at hlock
      by_cases hb₀ : b = 0 <;> simp [hlock, hb₀]

theorem Marked.step (h : Marked tr e.before)
    (hd : dispatch nt e.request e.before = .ok (e.after, e.packets))
    (hok : WaitsAsBound nt tr e.before e.request) : Marked (tr ++ [e]) e.after := by
  refine ⟨?_, ?_⟩
  · intro c sce' hc
    rw [bound_snoc]
    by_cases hop : ∃ l, e.request.op = .wait c l
    · obtain ⟨l, hop⟩ := hop
      simp only [WaitsAsBound, hop] at hok
      simp only [dispatch, hop] at hd
      obtain ⟨sce, sle, hget, -, hafter, -⟩ := wait_ok hd
      rw [boundStep_wait hc hop]
      rw [hafter] at hc
      simp only [NamedTable.store, Table.get_store_self _ hget, Option.some.injEq] at hc
      rw [← hc]
      simp only [h.bind_eq hget hok.1]
      cases hbound : bound tr c with
      | none => rfl
      | some b => exact (hok.1 b hbound).symm
    · have hop' : ∀ l, e.request.op ≠ .wait c l := fun l hl => hop ⟨l, hl⟩
      rw [boundStep_other hc hop']
      rcases lockKept_of_dispatch hd hop' hc with ⟨hnone, hlock⟩ | ⟨sce, hget, hlock⟩
      · rw [hlock, h.gone c hnone]
        rfl
      · rw [hlock, h.lock c sce hget]
  · intro c hc
    rw [bound_snoc, boundStep_gone hc]

/-! ## Every run -/

/-- A `WAIT` that keeps its contract names the lock the condition is bound to. -/
theorem waitsAsBound_of_contract
    (hd : dispatch nt e.request e.before = .ok (e.after, e.packets))
    (h : BindingContract nt tr e) : WaitsAsBound nt tr e.before e.request := by
  unfold WaitsAsBound
  split
  · rename_i c l hop
    have hcon := h.1 c l hop
    have hbound : ∀ b ∈ bound tr c, b = l := by
      intro b hb
      by_contra hne
      -- the code enqueues all the same
      have heq := (hcon.wrong b hb hne).1
      have hdis := hd
      simp only [dispatch, hop] at hdis
      obtain ⟨sce, sle, hget, -, hafter, -⟩ := wait_ok hdis
      have hlen : e.after.conditions.table.get c =
          some { sce with lock := sce.bind l, waitQueue := sce.waitQueue ++ [nt.self] } := by
        rw [hafter]
        exact Table.get_store_self _ hget
      rw [heq, hget] at hlen
      have hqueue := congrArg (fun x => x.waitQueue.length) (Option.some.inj hlen)
      simp at hqueue
    exact ⟨hbound, (wait_conserves_iff hop hd).mp (hcon.served hbound).1⟩
  · trivial

theorem contract_of_waitsAsBound (hm : Marked tr e.before)
    (hd : dispatch nt e.request e.before = .ok (e.after, e.packets))
    (hok : WaitsAsBound nt tr e.before e.request) : BindingContract nt tr e := by
  refine ⟨?_, ?_⟩
  · intro c l hop
    simp only [WaitsAsBound, hop] at hok
    have hdis := hd
    simp only [dispatch, hop] at hdis
    obtain ⟨sce, sle, hget, -, hafter, hps⟩ := wait_ok hdis
    have hbind := hm.bind_eq hget hok.1
    refine ⟨?_, ?_, ?_⟩
    · intro _
      rw [hafter]
      simp only [NamedTable.store, Table.get_store_self _ hget, Option.map_some, hbind]
    · intro b hb hne
      exact absurd (hok.1 b hb) hne
    · intro _
      refine ⟨(wait_conserves_iff hop hd).mpr hok.2, ?_⟩
      intro p hp
      rw [hps, hbind] at hp
      simp only [ne_eq, not_true, if_false, List.nil_append, grantReply] at hp
      split at hp
      · rw [replyIf] at hp
        split at hp
        · rw [List.mem_singleton.mp hp]
          simp [toOwn]
        · cases hp
      · cases hp
  · intro c sce sce' hb hc hc'
    by_cases hop : ∃ l, e.request.op = .wait c l
    · obtain ⟨l, hop⟩ := hop
      simp only [WaitsAsBound, hop] at hok
      have hdis := hd
      simp only [dispatch, hop] at hdis
      obtain ⟨sce₁, sle, hget, -, hafter, -⟩ := wait_ok hdis
      obtain rfl : sce₁ = sce := Option.some.inj (hget.symm.trans hc)
      rw [hafter] at hc'
      simp only [NamedTable.store, Table.get_store_self _ hget, Option.some.injEq] at hc'
      obtain ⟨b, hbound⟩ := Option.ne_none_iff_exists'.mp hb
      rw [← hc', hm.bind_eq hget hok.1, hm.lock c _ hget, hbound]
      exact (hok.1 b hbound).symm
    · have hop' : ∀ l, e.request.op ≠ .wait c l := fun l hl => hop ⟨l, hl⟩
      rcases lockKept_of_dispatch hd hop' hc' with ⟨hnone, -⟩ | ⟨sce₁, hget, hlock⟩
      · rw [hnone] at hc
        cases hc
      · obtain rfl : sce₁ = sce := Option.some.inj (hget.symm.trans hc)
        exact hlock

theorem marked_of_run {t : NtTables} (h : Run (dispatchStep nt) anyStep NtTables.initial tr t) :
    Always (fun tr e => WaitsAsBound nt tr e.before e.request) tr →
      Marked tr t ∧ Always (BindingContract nt) tr := by
  refine h.invariant (I := fun tr t =>
    Always (fun tr e => WaitsAsBound nt tr e.before e.request) tr →
      Marked tr t ∧ Always (BindingContract nt) tr) ?_ ?_
  · exact fun _ => ⟨marked_initial, always_nil⟩
  · intro tr t r t' e ih _ hs hall
    obtain ⟨rfl, rfl, rfl, hd⟩ := dispatchStep_some hs
    obtain ⟨hpre, hok⟩ := always_snoc.mp hall
    obtain ⟨hm, hcon⟩ := ih hpre
    exact ⟨hm.step hd hok, always_snoc.mpr ⟨hcon, contract_of_waitsAsBound hm hd hok⟩⟩

/-- **The binding of `WAIT`, exactly.** A `WAIT` of existing entries is always carried out. In
every run of a network thread from its initial tables, all requests keep the contract of the
binding if and only if no `WAIT` names a condition that is bound to another lock, and every `WAIT`
comes from the thread's own user program and hands its lock over to an id below 100. -/
theorem wait_binding_iff (nt : NetThread) {t : NtTables}
    (h : Run (dispatchStep nt) anyStep NtTables.initial tr t) :
    (Always (BindingContract nt) tr ↔
      Always (fun tr e => WaitsAsBound nt tr e.before e.request) tr) ∧
      ∀ id c l, (t.conditions.table.get c).isSome → (t.locks.table.get l).isSome →
        (dispatchStep nt t ⟨id, .wait c l⟩).isSome := by
  refine ⟨⟨?_, fun hall => (marked_of_run h hall).2⟩, ?_⟩
  · intro hall pre e post heq
    have hd := dispatched_of_run h e (by rw [heq]; simp)
    exact waitsAsBound_of_contract hd (hall pre e post heq)
  · intro id c l hc hl
    obtain ⟨sce, hsce⟩ := Option.isSome_iff_exists.mp hc
    obtain ⟨sle, hsle⟩ := Option.isSome_iff_exists.mp hl
    simp only [dispatchStep, dispatch, wait, NamedTable.fetch_ok.mpr hsce,
      NamedTable.fetch_ok.mpr hsle]
    cases sle.waitQueue <;> rfl

end Binding

/-- The user program of the thread waits twice with one lock. -/
def sameLockRequests : List Request :=
  [⟨101, .createLock ['L']⟩, ⟨101, .createCV ['C']⟩, ⟨101, .wait 0 0⟩, ⟨101, .wait 0 0⟩]

theorem wait_binding_same_lock :
    ∃ tr t, Run (dispatchStep nt101) anyStep NtTables.initial tr t ∧
      tr.map Dispatched.request = sameLockRequests ∧ Always (BindingContract nt101) tr ∧
      (dispatchStep nt101 t ⟨101, .wait 0 0⟩).isSome := by
  have hx : (exec (dispatchStep nt101) (WaitsAsBound nt101) [] .initial sameLockRequests).isSome ∧
      ∀ p ∈ exec (dispatchStep nt101) (WaitsAsBound nt101) [] .initial sameLockRequests,
        p.1.map Dispatched.request = sameLockRequests ∧
          (p.2.conditions.table.get 0).isSome ∧ (p.2.locks.table.get 0).isSome := by
    decide
  obtain ⟨⟨tr, t⟩, hp⟩ := Option.isSome_iff_exists.mp hx.1
  obtain ⟨hreqs, hc, hl⟩ := hx.2 _ hp
  have hrun := Run.of_exec .start hp
  have hok : Always (fun tr e => WaitsAsBound nt101 tr e.before e.request) tr := by
    refine hrun.always ?_
    intro tr t r t' e hok hs
    obtain ⟨rfl, rfl, -⟩ := dispatchStep_some hs
    exact hok
  have hall := wait_binding_iff nt101 (hrun.weaken fun _ => trivial)
  exact ⟨tr, t, hrun.weaken fun _ => trivial, hreqs, hall.1.mpr hok, hall.2 101 0 0 hc hl⟩

/-- It waits with lock 0 and then with lock 1. -/
def twoLockRequests : List Request :=
  [⟨101, .createLock ['K']⟩, ⟨101, .createLock ['L']⟩, ⟨101, .createCV ['C']⟩,
    ⟨101, .wait 0 0⟩, ⟨101, .wait 0 1⟩]

/-- The second `WAIT` binds the condition again and is carried out. -/
theorem wait_binding_two_locks :
    ¬ ∀ nt tr t, Run (dispatchStep nt) anyStep NtTables.initial tr t →
      Always (BindingContract nt) tr := by
  intro hall
  have hx : (exec (dispatchStep nt101) anyStep [] .initial twoLockRequests).isSome ∧
      ∀ p ∈ exec (dispatchStep nt101) anyStep [] .initial twoLockRequests,
        ∃ e ∈ p.1.getLast?, e.request = ⟨101, .wait 0 1⟩ ∧ bound p.1.dropLast 0 = some 0 ∧
          e.before.conditions.table.get 0 = some ⟨[101], 0, 1⟩ ∧
          e.after.conditions.table.get 0 = some ⟨[101, 101], 1, 1⟩ := by
    decide
  obtain ⟨⟨tr, t⟩, hp⟩ := Option.isSome_iff_exists.mp hx.1
  obtain ⟨e, he, hreq, hbound, hbefore, hafter⟩ := hx.2 _ hp
  have hsplit : tr = tr.dropLast ++ e :: [] := (List.dropLast_append_getLast? e he).symm
  have hcon := hall nt101 tr t (Run.of_exec .start hp) _ e [] hsplit
  have heq := ((hcon.1 0 1 (by rw [hreq])).wrong 0 hbound (by decide)).1
  rw [heq, hbefore] at hafter
  simp at hafter

end Nachos.Network
