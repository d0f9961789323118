import Mathlib.Data.List.Count
import Mathlib.Data.List.Nodup
import Mathlib.Logic.Function.Basic
import Mathlib.Tactic.Common

/-!
# Things in queues

A family of queues, and things each of which is in at most one of them, at most once.
The location of a thing names its queue. Appending a thing that is in no queue and
removing the first of a queue change one queue and one location, and what has been
appended to a queue is what has been removed from it, in this order, and what is still
there.
-/

namespace Nachos.Lib

variable {T Q : Type*} [DecidableEq T] [DecidableEq Q]

/-- Every thing is in the queue its location names, once, and in no other one. -/
def Located (queue : Q → List T) (loc : T → Option Q) : Prop :=
  ∀ t q, (queue q).count t = if loc t = some q then 1 else 0

namespace Located

variable {queue : Q → List T} {loc : T → Option Q} {t u : T} {q : Q} {rest : List T}

theorem mem_iff (h : Located queue loc) : t ∈ queue q ↔ loc t = some q := by
  rw [← List.count_pos_iff, h t q]
  split <;> simp_all

theorem nodup (h : Located queue loc) (q : Q) : (queue q).Nodup := by
  refine List.nodup_iff_count_le_one.mpr ?_
  intro t
  rw [h t q]
  split <;> decide

/-- A thing that is nowhere is in no queue. -/
theorem not_mem (h : Located queue loc) (ht : loc t = none) : t ∉ queue q := by
  rw [h.mem_iff, ht]
  exact nofun

/-- The first of a queue is located there. -/
theorem loc_head (h : Located queue loc) (hq : queue q = t :: rest) : loc t = some q := by
  refine h.mem_iff.mp ?_
  rw [hq]
  exact List.mem_cons_self

theorem append (h : Located queue loc) (ht : loc t = none) :
    Located (Function.update queue q (queue q ++ [t])) (Function.update loc t (some q)) := by
  intro u q'
  have hu := h u q'
  by_cases hq : q' = q
  · subst hq
    rw [Function.update_self, List.count_append, hu]
    by_cases hut : u = t
    · subst hut
      rw [Function.update_self, ht, List.count_singleton_self, if_neg nofun, if_pos rfl]
    · rw [Function.update_of_ne hut, List.count_eq_zero_of_not_mem (by simpa using hut),
        Nat.add_zero]
  · rw [Function.update_of_ne hq, hu]
    by_cases hut : u = t
    · subst hut
      rw [Function.update_self, ht, if_neg nofun, if_neg (by simp [Ne.symm hq])]
    · rw [Function.update_of_ne hut]

theorem remove (h : Located queue loc) (hq : queue q = t :: rest) :
    Located (Function.update queue q rest) (Function.update loc t none) := by
  have ht := h.loc_head hq
  intro u q'
  have hu := h u q'
  by_cases hqq : q' = q
  · subst hqq
    rw [hq, List.count_cons] at hu
    rw [Function.update_self]
    by_cases hut : u = t
    · subst hut
      rw [ht, if_pos rfl, beq_self_eq_true, if_pos rfl] at hu
      rw [Function.update_self, if_neg nofun]
      omega
    · rw [if_neg (by simp [Ne.symm hut]), Nat.add_zero] at hu
      rw [Function.update_of_ne hut, hu]
  · rw [Function.update_of_ne hqq, hu]
    by_cases hut : u = t
    · subst hut
      rw [Function.update_self, ht, if_neg (by simp [Ne.symm hqq]), if_neg nofun]
    · rw [Function.update_of_ne hut]

/-- The first of a queue goes to the end of another one. -/
theorem move (h : Located queue loc) (hq : queue q = t :: rest) {q' : Q} (hne : q' ≠ q) :
    Located (Function.update (Function.update queue q rest) q' (queue q' ++ [t]))
      (Function.update loc t (some q')) := by
  have hmoved := (h.remove hq).append (q := q') (Function.update_self t none loc)
  rw [Function.update_of_ne hne, Function.update_idem] at hmoved
  exact hmoved

end Located

/-! ## What goes through a queue -/

/-- What was in the queue and what `joined` is what `left` and what is there now. -/
def Flow (before joined left after : List T) : Prop := before ++ joined = left ++ after

namespace Flow

omit [DecidableEq T]

variable {a b c joined joined' left left' : List T} {t : T}

theorem refl (a : List T) : Flow a [] [] a := List.append_nil a

theorem trans (h : Flow a joined left b) (h' : Flow b joined' left' c) :
    Flow a (joined ++ joined') (left ++ left') c := by
  unfold Flow at *
  rw [← List.append_assoc, h, List.append_assoc, h', List.append_assoc]

theorem join (a : List T) (t : T) : Flow a [t] [] (a ++ [t]) := rfl

theorem leave (a : List T) (t : T) : Flow (t :: a) [] [t] a := List.append_nil _

end Flow

end Nachos.Lib
