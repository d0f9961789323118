import Mathlib.Data.List.Basic
import Mathlib.Tactic.Common

/-!
# The lock of the kernel

`Lock` of `threads/synch.cc`. A thread that acquires a lock it owns goes on with
nothing done; a thread that releases a lock it does not own does so too. A lock
that is released with a thread waiting is handed to this thread, which finds
itself the owner when it wakes up.

Interrupts are off in both operations, so each of them is one step.
-/

namespace Nachos.Threads

/-- `status` of a lock. -/
inductive Status where
  | free
  | busy
deriving DecidableEq, Repr

/-- `Lock`. -/
structure Lock (T : Type*) where
  status : Status
  lockerOwner : Option T
  /-- The threads asleep in `Acquire`, the first one first. -/
  waitQueue : List T
  free_iff : status = .free ↔ lockerOwner = none
  idle : lockerOwner = none → waitQueue = []

namespace Lock

variable {T : Type*} {l : Lock T} {t u : T}

/-- The constructor. -/
def create : Lock T := ⟨.free, none, [], by simp, fun _ => rfl⟩

/-- A lock that nobody has is as it was in the beginning. -/
theorem eq_create (h : l.lockerOwner = none) : l = create := by
  obtain ⟨status, owner, queue, hfree, hidle⟩ := l
  dsimp only at h
  subst h
  obtain rfl := hfree.mpr rfl
  obtain rfl := hidle rfl
  rfl

theorem create_waitQueue : (create : Lock T).waitQueue = [] := rfl

theorem lockerOwner_of_waiting (h : u ∈ l.waitQueue) : ∃ o, l.lockerOwner = some o := by
  cases ho : l.lockerOwner with
  | none =>
      rw [l.idle ho] at h
      cases h
  | some o => exact ⟨o, rfl⟩

variable [DecidableEq T]

/-- `Acquire` by `t`, which is asleep afterwards if it is in the queue. -/
def acquire (l : Lock T) (t : T) : Lock T :=
  if l.lockerOwner = some t then l
  else if hfree : l.status = .free then
    ⟨.busy, some t, l.waitQueue, by simp, by simp⟩
  else
    ⟨l.status, l.lockerOwner, l.waitQueue ++ [t], l.free_iff,
      fun h => absurd (l.free_iff.mpr h) hfree⟩

/-- `Release` by `t`. -/
def release (l : Lock T) (t : T) : Lock T :=
  if l.lockerOwner = some t then
    match l.waitQueue with
    | nextThread :: rest => ⟨.busy, some nextThread, rest, by simp, by simp⟩
    | [] => create
  else l

/-- Acquiring a lock one owns does nothing. -/
theorem acquire_owned (h : l.lockerOwner = some t) : l.acquire t = l := if_pos h

theorem acquire_free (h : l.lockerOwner = none) :
    (l.acquire t).lockerOwner = some t ∧ (l.acquire t).waitQueue = [] := by
  have hne : l.lockerOwner ≠ some t := by
    rw [h]
    exact nofun
  rw [acquire, if_neg hne, dif_pos (l.free_iff.mpr h)]
  exact ⟨rfl, l.idle h⟩

/-- With another owner the thread joins the end of the queue. -/
theorem acquire_busy (h : l.lockerOwner = some u) (hne : u ≠ t) :
    (l.acquire t).lockerOwner = some u ∧ (l.acquire t).waitQueue = l.waitQueue ++ [t] := by
  have hother : l.lockerOwner ≠ some t := by
    rw [h]
    exact fun heq => hne (Option.some.inj heq)
  have hbusy : l.status ≠ .free := by
    intro hfree
    rw [l.free_iff.mp hfree] at h
    cases h
  rw [acquire, if_neg hother, dif_neg hbusy]
  exact ⟨h, rfl⟩

/-- After `Acquire` the thread owns the lock or is asleep. -/
theorem acquire_owner_or_waiting (l : Lock T) (t : T) :
    (l.acquire t).lockerOwner = some t ∨ t ∈ (l.acquire t).waitQueue := by
  cases ho : l.lockerOwner with
  | none => exact .inl (acquire_free ho).1
  | some o =>
      by_cases heq : o = t
      · subst heq
        rw [acquire_owned ho]
        exact .inl ho
      · rw [(acquire_busy ho heq).2]
        exact .inr (List.mem_append_right _ (List.mem_singleton_self t))

/-- Nobody but the thread itself becomes the owner by its `Acquire`. -/
theorem lockerOwner_of_acquire (h : (l.acquire t).lockerOwner = some u) :
    l.lockerOwner = some u ∨ u = t := by
  cases ho : l.lockerOwner with
  | none =>
      rw [(acquire_free ho).1] at h
      exact .inr (Option.some.inj h).symm
  | some o =>
      by_cases heq : o = t
      · subst heq
        rw [acquire_owned ho, ho] at h
        exact .inl h
      · rw [(acquire_busy ho heq).1] at h
        exact .inl h

theorem waiting_of_acquire (h : u ∈ (l.acquire t).waitQueue) : u ∈ l.waitQueue ∨ u = t := by
  cases ho : l.lockerOwner with
  | none =>
      rw [(acquire_free ho).2] at h
      cases h
  | some o =>
      by_cases heq : o = t
      · subst heq
        rw [acquire_owned ho] at h
        exact .inl h
      · rw [(acquire_busy ho heq).2] at h
        rcases List.mem_append.mp h with h | h
        · exact .inl h
        · exact .inr (List.mem_singleton.mp h)

theorem acquire_waiting (h : u ∈ l.waitQueue) : u ∈ (l.acquire t).waitQueue := by
  obtain ⟨o, ho⟩ := lockerOwner_of_waiting h
  by_cases heq : o = t
  · subst heq
    rwa [acquire_owned ho]
  · rw [(acquire_busy ho heq).2]
    exact List.mem_append_left _ h

theorem acquire_lockerOwner (h : l.lockerOwner = some u) : (l.acquire t).lockerOwner = some u := by
  by_cases heq : u = t
  · subst heq
    rwa [acquire_owned h]
  · exact (acquire_busy h heq).1

theorem release_other (h : l.lockerOwner ≠ some t) : l.release t = l := if_neg h

theorem release_free (h : l.lockerOwner = some t) (hq : l.waitQueue = []) :
    l.release t = create := by
  rw [release, if_pos h]
  split
  · rename_i heq
    rw [hq] at heq
    cases heq
  · rfl

/-- The lock is handed to the thread that waits longest. -/
theorem release_next {rest : List T} (h : l.lockerOwner = some t) (hq : l.waitQueue = u :: rest) :
    (l.release t).lockerOwner = some u ∧ (l.release t).waitQueue = rest := by
  rw [release, if_pos h]
  split
  · rename_i heq
    rw [hq] at heq
    obtain ⟨rfl, rfl⟩ := List.cons.inj heq
    exact ⟨rfl, rfl⟩
  · rename_i heq
    rw [hq] at heq
    cases heq

/-- The new owner waited for the lock. -/
theorem waiting_of_release (h : l.lockerOwner = some t)
    (hu : (l.release t).lockerOwner = some u) : u ∈ l.waitQueue := by
  cases hq : l.waitQueue with
  | nil =>
      rw [release_free h hq] at hu
      cases hu
  | cons v rest =>
      rw [(release_next h hq).1] at hu
      rw [Option.some.inj hu]
      exact List.mem_cons_self

theorem waitQueue_of_release (hu : u ∈ (l.release t).waitQueue) : u ∈ l.waitQueue := by
  by_cases h : l.lockerOwner = some t
  · cases hq : l.waitQueue with
    | nil =>
        rw [release_free h hq] at hu
        cases hu
    | cons v rest =>
        rw [(release_next h hq).2] at hu
        exact List.mem_cons_of_mem _ hu
  · rwa [release_other h] at hu

/-- A thread that waited owns the lock or waits on. -/
theorem release_waiting (h : l.lockerOwner = some t) (hu : u ∈ l.waitQueue) :
    (l.release t).lockerOwner = some u ∨ u ∈ (l.release t).waitQueue := by
  cases hq : l.waitQueue with
  | nil =>
      rw [hq] at hu
      cases hu
  | cons v rest =>
      rw [hq] at hu
      obtain ⟨howner, hqueue⟩ := release_next h hq
      rcases List.mem_cons.mp hu with rfl | hu
      · exact .inl howner
      · rw [hqueue]
        exact .inr hu

end Lock

end Nachos.Threads
