import Mathlib.Data.Multiset.MapFold
import Nachos.Threads.Program

/-!
# Synchronized lists

`SynchList` of `threads/synchlist.cc`. The thread that `Signal` wakes has to acquire the
lock again, and before it has it another thread can take the item; so `Remove` tests the
list again, under the lock, and the list cannot change between this test and the removal.

The list has its lock and its condition for itself. Whatever else threads do is free.
-/

namespace Nachos.Threads

open Nachos.Lib

/-- Where a thread is in `Append` and `Remove`: `testing` is the loop of `Remove`, and `removing` is
behind it. -/
inductive ListPoint (α : Type*) where
  | elsewhere
  | appending (item : α)
  | signalling
  | unlocking
  | appended
  | testing
  | removing
  | leaving (item : α)
  | returning (item : α)
  /-- `ASSERT(item != NULL)` has failed. -/
  | aborted
deriving DecidableEq, Repr

/-- What a thread can call where it is in neither of them. -/
inductive ListCall (T S L C α : Type*) where
  | append (item : α)
  | remove
  | other (op : Op T S L C)

inductive ListEvent (T α : Type*) where
  | appended (t : T) (item : α)
  | removed (t : T) (item : α)
  | returned (t : T) (item : α)
  | aborted (t : T)
deriving DecidableEq, Repr

def Op.usesCondition {T S L C : Type*} [DecidableEq C] (condition : C) : Op T S L C → Bool
  | .wait c _ | .signal c _ | .broadcast c _ => c = condition
  | .p _ | .v _ | .acquire _ | .release _ | .fork _ | .yield | .finish => false

variable {T S L C α : Type*} [DecidableEq L] [DecidableEq C]

/-- The code of `Append` and `Remove` behind the first line. -/
def ListPoint.goOn (lock : L) (listEmpty : C) (t : T) (list : List α) :
    ListPoint α → Option (Action T S L C (ListPoint α) (List α) (ListEvent T α))
  | .appending item => some (.go .signalling (list ++ [item]) [.appended t item])
  | .signalling => some (.call (.signal listEmpty (some lock)) .unlocking)
  | .unlocking => some (.call (.release lock) .appended)
  | .appended => some (.go .elsewhere list [])
  | .testing =>
      if list.isEmpty then some (.call (.wait listEmpty (some lock)) .testing)
      else some (.go .removing list [])
  | .removing =>
      match list with
      | [] => some (.go .aborted [] [.aborted t])
      | item :: rest => some (.go (.leaving item) rest [.removed t item])
  | .leaving item => some (.call (.release lock) (.returning item))
  | .returning item => some (.go .elsewhere list [.returned t item])
  | .elsewhere | .aborted => none

/-- Their first line, and what else can be called. -/
def ListCall.action (lock : L) (listEmpty : C) :
    ListCall T S L C α → Option (Action T S L C (ListPoint α) (List α) (ListEvent T α))
  | .append item => some (.call (.acquire lock) (.appending item))
  | .remove => some (.call (.acquire lock) .testing)
  | .other op =>
      if op.usesLock lock || op.usesCondition listEmpty then none else some (.call op .elsewhere)

/-- `SynchList`: what threads do with it, and interrupts that leave it alone. -/
def synchList (lock : L) (listEmpty : C) : Program T S L C (ListPoint α) (List α)
    (ListEvent T α) (Option (ListCall T S L C α)) S where
  start := .elsewhere
  act t point list
    | none => point.goOn lock listEmpty t list
    | some c =>
        match point with
        | .elsewhere => c.action lock listEmpty
        | _ => none
  handler sem list := some (list, [], some sem)

/-! ## The section -/

def ListPoint.Critical : ListPoint α → Prop
  | .appending _ | .signalling | .unlocking | .testing | .removing | .leaving _ => True
  | .elsewhere | .appended | .returning _ | .aborted => False

/-- A call of the code: where it is made, and where the thread goes on. -/
theorem synchList_call {lock : L} {listEmpty : C} {t : T} {point next : ListPoint α} {list : List α}
    {choice : Option (ListCall T S L C α)} {op : Op T S L C}
    (hact : (synchList lock listEmpty).act t point list choice = some (.call op next)) :
    (point = .elsewhere ∧ (op = .acquire lock ∧ ((∃ item, next = .appending item) ∨
        next = .testing) ∨ (op.usesLock lock || op.usesCondition listEmpty) = false ∧
          next = .elsewhere)) ∨
      (point = .signalling ∧ op = .signal listEmpty (some lock) ∧ next = .unlocking) ∨
      (point = .unlocking ∧ op = .release lock ∧ next = .appended) ∨
      (point = .testing ∧ list = [] ∧ op = .wait listEmpty (some lock) ∧ next = .testing) ∨
      ∃ item, point = .leaving item ∧ op = .release lock ∧ next = .returning item := by
  cases choice with
  | none =>
      have hact : point.goOn lock listEmpty t list = some (.call op next) := hact
      cases point with
      | signalling | unlocking | leaving _ =>
          cases hact
          simp
      | testing =>
          cases list with
          | nil =>
              cases hact
              simp
          | cons item rest => cases hact
      | removing => cases list <;> cases hact
      | elsewhere | appending _ | appended | returning _ | aborted => cases hact
  | some c =>
      cases point with
      | elsewhere =>
          have hact : c.action lock listEmpty = some (.call op next) := hact
          cases c with
          | append _ | remove =>
              cases hact
              simp
          | other op' =>
              simp only [ListCall.action] at hact
              split at hact
              · cases hact
              · rename_i huses
                cases hact
                exact .inl ⟨rfl, .inr ⟨Bool.eq_false_iff.mpr huses, rfl⟩⟩
      | _ => cases hact

theorem synchList_go {lock : L} {listEmpty : C} {t : T} {point next : ListPoint α}
    {list list' : List α} {events : List (ListEvent T α)}
    {choice : Option (ListCall T S L C α)}
    (hact : (synchList lock listEmpty).act t point list choice =
      some (.go next list' events)) :
    (∃ item, point = .appending item ∧ next = .signalling ∧ list' = list ++ [item] ∧
        events = [.appended t item]) ∨
      (point = .appended ∧ next = .elsewhere ∧ list' = list ∧ events = []) ∨
      (point = .testing ∧ list ≠ [] ∧ next = .removing ∧ list' = list ∧ events = []) ∨
      (point = .removing ∧ list = [] ∧ next = .aborted ∧ list' = [] ∧ events = [.aborted t]) ∨
      (∃ item, point = .removing ∧ list = item :: list' ∧ next = .leaving item ∧
        events = [.removed t item]) ∨
      ∃ item, point = .returning item ∧ next = .elsewhere ∧ list' = list ∧
        events = [.returned t item] := by
  cases choice with
  | none =>
      have hact : point.goOn lock listEmpty t list = some (.go next list' events) := hact
      cases point with
      | appending _ | appended | returning _ =>
          cases hact
          simp
      | testing =>
          cases list with
          | nil => cases hact
          | cons item rest =>
              cases hact
              simp
      | removing =>
          cases list <;> cases hact <;> simp
      | elsewhere | signalling | unlocking | leaving _ | aborted => cases hact
  | some c =>
      cases point with
      | elsewhere =>
          have hact : c.action lock listEmpty = some (.go next list' events) := hact
          cases c with
          | append _ | remove => cases hact
          | other op' =>
              simp only [ListCall.action] at hact
              split at hact <;> cases hact
      | _ => cases hact

theorem synchList_guarded (lock : L) (listEmpty : C) :
    (synchList lock listEmpty : Program T S L C (ListPoint α) _ _ _ _).Guarded lock
      ListPoint.Critical where
  start := id
  call t point list choice op next hact hnext := by
    rcases synchList_call hact with ⟨-, ⟨rfl, -⟩ | ⟨-, rfl⟩⟩ | ⟨rfl, rfl, -⟩ | ⟨-, -, rfl⟩ |
      ⟨rfl, -, rfl, -⟩ | ⟨item, -, -, rfl⟩
    · exact .inl rfl
    · exact hnext.elim
    · exact .inr ⟨trivial, nofun⟩
    · exact hnext.elim
    · exact .inr ⟨trivial, nofun⟩
    · exact hnext.elim
  go t point list choice next list' events hact hnext := by
    rcases synchList_go hact with ⟨_, rfl, -⟩ | ⟨-, rfl, -⟩ | ⟨rfl, -⟩ | ⟨rfl, -⟩ | ⟨_, rfl, -⟩ |
      ⟨_, -, rfl, -⟩
    · trivial
    · exact hnext.elim
    · trivial
    · trivial
    · trivial
    · exact hnext.elim

/-! ## First in, first out -/

def appendedItems (log : List (ListEvent T α)) : List α :=
  log.filterMap fun
    | .appended _ item => some item
    | _ => none

def removedItems (log : List (ListEvent T α)) : List α :=
  log.filterMap fun
    | .removed _ item => some item
    | _ => none

def returnedItems (log : List (ListEvent T α)) : List α :=
  log.filterMap fun
    | .returned _ item => some item
    | _ => none

section Threads

variable [DecidableEq T]

def removedBy (t : T) (log : List (ListEvent T α)) : List α :=
  log.filterMap fun
    | .removed u item => if u = t then some item else none
    | _ => none

def returnedBy (t : T) (log : List (ListEvent T α)) : List α :=
  log.filterMap fun
    | .returned u item => if u = t then some item else none
    | _ => none

/-- What a `Remove` has taken and not yet returned. -/
def ListPoint.inHand : ListPoint α → List α
  | .leaving item | .returning item => [item]
  | _ => []

variable [DecidableEq S]

structure Fifo (log : List (ListEvent T α)) (s : System T S L C (ListPoint α) (List α)) :
    Prop where
  order : appendedItems log = removedItems log ++ s.data
  hands : ∀ t, removedBy t log = returnedBy t log ++ (s.point t).inHand
  /-- Behind the loop of `Remove` the list is not empty. -/
  found : ∀ t, s.point t = .removing → s.kernel.pc t = .outside ∧ s.data ≠ []
  sound : ∀ t, .aborted t ∉ log

theorem removedBy_append (t : T) (log events : List (ListEvent T α)) :
    removedBy t (log ++ events) = removedBy t log ++ removedBy t events := List.filterMap_append

theorem returnedBy_append (t : T) (log events : List (ListEvent T α)) :
    returnedBy t (log ++ events) = returnedBy t log ++ returnedBy t events :=
  List.filterMap_append

namespace Fifo

variable {lock : L} {listEmpty : C} {log : List (ListEvent T α)}
  {s s' : System T S L C (ListPoint α) (List α)} {es : List (Event T S L C (ListEvent T α))}
  {m : Move T S L C (Option (ListCall T S L C α)) S}

omit [DecidableEq L] [DecidableEq C] [DecidableEq S] in
theorem go (h : Fifo log s) {next : ListPoint α} {list : List α}
    {events : List (ListEvent T α)} (hpc : s.kernel.pc s.kernel.currentThread = .outside)
    (horder : appendedItems log ++ appendedItems events =
      removedItems log ++ removedItems events ++ list)
    (hcur : (s.point s.kernel.currentThread).inHand ++ removedBy s.kernel.currentThread events =
      returnedBy s.kernel.currentThread events ++ next.inHand)
    (hothers : ∀ t, t ≠ s.kernel.currentThread →
      removedBy t events = [] ∧ returnedBy t events = [] ∧ (s.point t = .removing → list ≠ []))
    (hfound : next = .removing → list ≠ []) (hsound : ∀ t, .aborted t ∉ events) :
    Fifo (log ++ events)
      ⟨s.kernel, Function.update s.point s.kernel.currentThread next, list⟩ where
  order := by
    rw [appendedItems, removedItems, List.filterMap_append, List.filterMap_append]
    exact horder
  hands t := by
    show _ = _ ++ (Function.update s.point s.kernel.currentThread next t).inHand
    rw [removedBy_append, returnedBy_append, h.hands t]
    by_cases ht : t = s.kernel.currentThread
    · subst ht
      rw [Function.update_self, List.append_assoc, hcur, List.append_assoc]
    · obtain ⟨hremoved, hreturned, -⟩ := hothers t ht
      rw [Function.update_of_ne ht, hremoved, hreturned, List.append_nil, List.append_nil]
  found t ht := by
    rcases Program.of_update (q := fun p : ListPoint α => p = .removing) ht with ⟨rfl, hnext⟩ | ⟨hne, hold⟩
    · exact ⟨hpc, hfound hnext⟩
    · exact ⟨(h.found t hold).1, (hothers t hne).2.2 hold⟩
  sound t ht := by
    rcases List.mem_append.mp ht with ht | ht
    · exact h.sound t ht
    · exact hsound t ht

theorem step (h : Fifo log s) (hexclusive : ∀ t u, (s.point t).Critical → (s.point u).Critical →
      s.kernel.pc t = .outside → s.kernel.pc u = .outside → t = u)
    (hs : Program.Steps (synchList lock listEmpty) s m s' es) :
    Fifo (log ++ Program.ownLog es) s' := by
  cases hs with
  | @call choice op next k' effects hact hstep =>
      rw [Program.ownLog_map, List.append_nil]
      have hcall := synchList_call hact
      refine ⟨h.order, fun t => ?_, fun t ht => ?_, h.sound⟩
      · show _ = _ ++ (Function.update s.point s.kernel.currentThread next t).inHand
        rw [h.hands t]
        by_cases ht : t = s.kernel.currentThread
        · subst ht
          rw [Function.update_self]
          rcases hcall with ⟨hp, ⟨-, ⟨_, rfl⟩ | rfl⟩ | ⟨-, rfl⟩⟩ | ⟨hp, -, rfl⟩ | ⟨hp, -, rfl⟩ |
            ⟨hp, -, -, rfl⟩ | ⟨_, hp, -, rfl⟩ <;> rw [hp] <;> rfl
        · rw [Function.update_of_ne ht]
      · rcases Program.of_update (q := fun p : ListPoint α => p = .removing) ht with
          ⟨rfl, hnext⟩ | ⟨hne, hold⟩
        · rcases hcall with ⟨-, ⟨-, ⟨_, rfl⟩ | rfl⟩ | ⟨-, rfl⟩⟩ | ⟨-, -, rfl⟩ | ⟨-, -, rfl⟩ |
            ⟨-, -, -, rfl⟩ | ⟨_, -, -, rfl⟩ <;> cases hnext
        · obtain ⟨hpc, hlist⟩ := h.found t hold
          refine ⟨(Step.of_step hstep).outside hpc fun op hcalled => hne ?_, hlist⟩
          exact ((Step.of_step hstep).called hcalled).1
  | @go choice next list events hidle hpc hact =>
      rw [Program.ownLog_own]
      have halone : (s.point s.kernel.currentThread).Critical → ∀ t, t ≠ s.kernel.currentThread →
          s.point t ≠ .removing := by
        intro hcritical t hne ht
        refine hne (hexclusive t _ ?_ hcritical (h.found t ht).1 hpc)
        rw [ht]
        trivial
      have hkept : ∀ t, t ≠ s.kernel.currentThread → s.point t = .removing → s.data ≠ [] :=
        fun t _ ht => (h.found t ht).2
      have horder := h.order
      rcases synchList_go hact with ⟨item, hp, rfl, rfl, rfl⟩ | ⟨hp, rfl, rfl, rfl⟩ |
        ⟨hp, hlist, rfl, rfl, rfl⟩ | ⟨hp, hlist, -⟩ | ⟨item, hp, hlist, rfl, rfl⟩ |
        ⟨item, hp, rfl, rfl, rfl⟩
      · refine h.go hpc ?_ (by rw [hp]; rfl) (fun t _ => ⟨rfl, rfl, fun _ => by simp⟩) nofun (by simp)
        rw [horder]
        simp [appendedItems, removedItems]
      · refine h.go hpc ?_ (by rw [hp]; rfl) (fun t ht => ⟨rfl, rfl, hkept t ht⟩) nofun (by simp)
        simpa [appendedItems, removedItems] using horder
      · refine h.go hpc ?_ (by rw [hp]; rfl) (fun t ht => ⟨rfl, rfl, hkept t ht⟩) (fun _ => hlist)
          (by simp)
        simpa [appendedItems, removedItems] using horder
      · exact absurd hlist (h.found _ hp).2
      · have hother := halone (by rw [hp]; trivial)
        refine h.go hpc ?_ ?_ (fun t ht => ⟨?_, rfl, fun hr => absurd hr (hother t ht)⟩) nofun
          (by simp)
        · rw [horder, hlist]
          simp [appendedItems, removedItems]
        · rw [hp]
          simp [removedBy, returnedBy, ListPoint.inHand]
        · simp [removedBy, Ne.symm ht]
      · refine h.go hpc ?_ ?_ (fun t ht => ⟨rfl, ?_, hkept t ht⟩) nofun (by simp)
        · simpa [appendedItems, removedItems] using horder
        · rw [hp]
          simp [removedBy, returnedBy, ListPoint.inHand]
        · simp [returnedBy, Ne.symm ht]
  | kernel hinside hstep =>
      rw [Program.ownLog_map, List.append_nil]
      refine ⟨h.order, h.hands, fun t ht => ?_, h.sound⟩
      obtain ⟨hpc, hne⟩ := h.found t ht
      refine ⟨(Step.of_step hstep).outside hpc fun op hcalled => ?_, hne⟩
      rw [Step.label_of_called hstep hcalled] at hinside
      cases hinside
  | interrupt hhandler hstep =>
      cases hhandler
      rw [List.map_nil, List.nil_append, Program.ownLog_map, List.append_nil]
      refine ⟨h.order, h.hands, fun t ht => ?_, h.sound⟩
      obtain ⟨hpc, hne⟩ := h.found t ht
      refine ⟨(Step.of_step hstep).outside hpc fun op hcalled => ?_, hne⟩
      cases Step.label_of_called hstep hcalled
  | device hhandler => cases hhandler

end Fifo

/-! ### Items that are returned -/

def removals (log : List (ListEvent T α)) : List (T × α) :=
  log.filterMap fun
    | .removed t item => some (t, item)
    | _ => none

def returns (log : List (ListEvent T α)) : List (T × α) :=
  log.filterMap fun
    | .returned t item => some (t, item)
    | _ => none

omit [DecidableEq S] [DecidableEq L] [DecidableEq C] in
theorem count_pairs [DecidableEq α] (t : T) (item : α) (pairs : List (T × α)) :
    pairs.count (t, item) =
      (pairs.filterMap fun p => if p.1 = t then some p.2 else none).count item := by
  induction pairs with
  | nil => rfl
  | cons p pairs ih =>
      by_cases hp : p.1 = t
      · simp [List.count_cons, Prod.ext_iff, hp, ih]
      · simp [Prod.ext_iff, hp, ih]

omit [DecidableEq S] [DecidableEq L] [DecidableEq C] in
theorem removedBy_eq (t : T) (log : List (ListEvent T α)) :
    removedBy t log = (removals log).filterMap fun p => if p.1 = t then some p.2 else none := by
  rw [removals, List.filterMap_filterMap]
  refine List.filterMap_congr fun e _ => ?_
  cases e <;> rfl

omit [DecidableEq S] [DecidableEq L] [DecidableEq C] in
theorem returnedBy_eq (t : T) (log : List (ListEvent T α)) :
    returnedBy t log = (returns log).filterMap fun p => if p.1 = t then some p.2 else none := by
  rw [returns, List.filterMap_filterMap]
  refine List.filterMap_congr fun e _ => ?_
  cases e <;> rfl

omit [DecidableEq S] [DecidableEq L] [DecidableEq C] in
/-- No item is returned more often than it has been appended. -/
theorem Fifo.returned_subperm {log : List (ListEvent T α)}
    {s : System T S L C (ListPoint α) (List α)} (h : Fifo log s) :
    (returnedItems log).Subperm (appendedItems log) := by
  classical
  have hpairs : (returns log).Subperm (removals log) := by
    refine List.subperm_ext_iff.mpr ?_
    rintro ⟨t, item⟩ -
    rw [count_pairs, count_pairs, ← returnedBy_eq, ← removedBy_eq, h.hands t, List.count_append]
    omega
  have hreturned : returnedItems log = (returns log).map Prod.snd := by
    rw [returns, List.map_filterMap, returnedItems]
    congr 1
    funext e
    cases e <;> rfl
  have hremoved : removedItems log = (removals log).map Prod.snd := by
    rw [removals, List.map_filterMap, removedItems]
    congr 1
    funext e
    cases e <;> rfl
  have hitems : (returnedItems log).Subperm (removedItems log) := by
    rw [hreturned, hremoved]
    exact Multiset.coe_le.mp (Multiset.map_le_map (Multiset.coe_le.mpr hpairs))
  refine hitems.trans ?_
  rw [h.order]
  exact (List.sublist_append_left _ _).subperm

/-! ## Runs -/

variable {lock : L} {listEmpty : C} {main : T} {initialValue : S → ℤ}
  {tr : List (List (Event T S L C (ListEvent T α)))}
  {s : System T S L C (ListPoint α) (List α)}

theorem fifo_of_run
    (hrun : Run (synchList lock listEmpty).step anyStep
      ((synchList lock listEmpty).boot main initialValue []) tr s) :
    Fifo (Program.ownLog tr.flatten) s := by
  refine hrun.invariant_with (I := fun tr s => Fifo (Program.ownLog tr.flatten) s)
    (fun hrun t u => (synchList_guarded lock listEmpty).exclusive hrun (t := t) (u := u))
    ⟨rfl, fun _ => rfl, nofun, nofun⟩ ?_
  intro tr s m s' es hexclusive h _ hs
  rw [List.flatten_append, List.flatten_singleton, Program.ownLog_append]
  refine h.step (fun t u ht hu hpct hpcu => hexclusive t u ht hu ?_ ?_) (.of_step hs)
  · rw [hpct]
    rfl
  · rw [hpcu]
    rfl

/-- **A blocking queue.** Items leave the list in the order in which they have been
appended; a `Remove` returns the items it has taken, each of them once, so no item is returned
more often than it has been appended; and `Remove` never finds the list empty behind its
loop. -/
theorem synchList_fifo
    (hrun : Run (synchList lock listEmpty).step anyStep
      ((synchList lock listEmpty).boot main initialValue []) tr s) :
    let log := Program.ownLog tr.flatten
    appendedItems log = removedItems log ++ s.data ∧
    (∀ t, removedBy t log = returnedBy t log ++ (s.point t).inHand) ∧
    (returnedItems log).Subperm (appendedItems log) ∧
    ∀ t, .aborted t ∉ log := by
  have h := fifo_of_run hrun
  exact ⟨h.order, h.hands, h.returned_subperm, h.sound⟩

end Threads

/-! ### Two threads -/

/-- A list of numbers for two threads. -/
def numbers : Program (Fin 2) Unit Unit Unit (ListPoint ℕ) (List ℕ) (ListEvent (Fin 2) ℕ)
    (Option (ListCall (Fin 2) Unit Unit Unit ℕ)) Unit := synchList () ()

abbrev NumberMove : Type :=
  Move (Fin 2) Unit Unit Unit (Option (ListCall (Fin 2) Unit Unit Unit ℕ)) Unit

/-- The moves of an `Append` that is not interrupted. -/
def appendMoves (item : ℕ) : List NumberMove :=
  [.act (some (.append item)), .kernel .return, .act none, .act none, .kernel .return, .act none,
    .kernel .return, .act none]

def forkMoves (t : Fin 2) : List NumberMove := [.act (some (.other (.fork t))), .kernel .return]

/-- It comes to an empty list, and waits. -/
def waitMoves : List NumberMove := [.act (some .remove), .kernel .return, .act none]

/-- The moves of a `Remove` up to the release of the lock. -/
def removeMoves : List NumberMove :=
  [.act (some .remove), .kernel .return, .act none, .act none, .act none]

/-- A thread waits for an item, and when it is woken another one has taken the item. -/
theorem synchList_fifo_sample : ∃ tr s,
    Run numbers.step anyStep (numbers.boot 0 (fun _ => 0) []) tr s ∧
      removedBy 1 (Program.ownLog tr.flatten) = [7] ∧
      s.kernel.pc 0 = .inWait () () ∧
      removedBy 1 (Program.ownLog tr.flatten) =
        returnedBy 1 (Program.ownLog tr.flatten) ++ (s.point 1).inHand := by
  have hp : (exec numbers.step anyStep [] (numbers.boot 0 (fun _ => 0) [])
      (forkMoves 1 ++ waitMoves ++ appendMoves 7 ++ removeMoves ++
        ([.kernel .preempt, .kernel .resume, .kernel .return, .act none] : List NumberMove))).map
      (fun r => (removedBy 1 (Program.ownLog r.1.flatten), r.2.kernel.pc 0)) =
      some ([7], .inWait () ()) := by
    decide +kernel
  obtain ⟨⟨tr, s⟩, hexec, hvalues⟩ := Option.map_eq_some_iff.mp hp
  obtain ⟨hremoved, hpc⟩ := Prod.mk.inj hvalues
  have hrun : Run (synchList () ()).step anyStep
      ((synchList () ()).boot 0 (fun _ => 0) []) tr s := .of_exec .start hexec
  exact ⟨tr, s, hrun, hremoved, hpc, (synchList_fifo hrun).2.1 1⟩

/-- A thread that has taken an item and released the lock can be overtaken before it
returns. -/
theorem returned_out_of_order : ∃ tr s,
    Run numbers.step anyStep (numbers.boot 0 (fun _ => 0) []) tr s ∧
      appendedItems (Program.ownLog tr.flatten) = [1, 2] ∧
      returnedItems (Program.ownLog tr.flatten) = [2, 1] := by
  have hp : (exec numbers.step anyStep [] (numbers.boot 0 (fun _ => 0) [])
      (forkMoves 1 ++ appendMoves 1 ++ appendMoves 2 ++ removeMoves ++
        .kernel .preempt :: removeMoves ++ ([.kernel .return, .act none, .kernel .preempt,
          .kernel .return, .act none] : List NumberMove))).map
      (fun r => (appendedItems (Program.ownLog r.1.flatten),
        returnedItems (Program.ownLog r.1.flatten))) = some ([1, 2], [2, 1]) := by
    decide +kernel
  obtain ⟨⟨tr, s⟩, hexec, hvalues⟩ := Option.map_eq_some_iff.mp hp
  obtain ⟨happended, hreturned⟩ := Prod.mk.inj hvalues
  exact ⟨tr, s, .of_exec .start hexec, happended, hreturned⟩

end Nachos.Threads
