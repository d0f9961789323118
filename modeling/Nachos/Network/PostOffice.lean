import Nachos.Network.Post
import Nachos.Threads.Semaphores

/-!
# The machines of the post office

A mailbox is a synchronized list, whatever else its machine does. A packet that has been read
is in the device, or the postal worker has it in hand, or it has been put in its mailbox; and
the value of `messageAvailable` says whether there is one in the device that the worker is not
yet to take.
-/

namespace Nachos.Network.Post

open Nachos.Lib Nachos.Threads

variable {T S L C : Type*}

abbrev Machine (T S L C : Type*) :=
  System T (PostSemaphore S) (PostLock L) (PostCondition C) PostPoint PostData

abbrev MachineEvent (T S L C : Type*) :=
  Event T (PostSemaphore S) (PostLock L) (PostCondition C) (PostEvent T)

/-! ## Mailboxes -/

/-- Where a thread is, as the mailbox sees it. -/
def PostPoint.inBox (box : ℕ) : PostPoint → ListPoint Mail
  | .inList b point => if b = box then point else .elsewhere
  | _ => .elsewhere

/-- What the mailbox sees of its machine. -/
def boxView (box : ℕ) (s : Machine T S L C) :
    System T (PostSemaphore S) (PostLock L) (PostCondition C) (ListPoint Mail) (List Mail) :=
  ⟨s.kernel, fun t => (s.point t).inBox box, s.data.boxes box⟩

/-- What happens to it. -/
def boxLog (box : ℕ) (log : List (PostEvent T)) : List (ListEvent T Mail) :=
  log.filterMap fun
    | .box b e => if b = box then some e else none
    | _ => none

theorem boxLog_append (box : ℕ) (log events : List (PostEvent T)) :
    boxLog box (log ++ events) = boxLog box log ++ boxLog box events := List.filterMap_append

theorem boxLog_map (box b : ℕ) (events : List (ListEvent T Mail)) :
    boxLog box (events.map (.box b)) = if b = box then events else [] := by
  rw [boxLog, List.filterMap_map]
  split
  · rename_i hb
    subst hb
    simp only [Function.comp_def, if_true]
    exact List.filterMap_some
  · rename_i hb
    simp only [Function.comp_def, if_neg hb]
    exact List.filterMap_none _

variable [DecidableEq T] [DecidableEq S] [DecidableEq L] [DecidableEq C]

section View

variable {numBoxes : ℕ} {worker : T} {ident : NetworkAddress} {s s' : Machine T S L C}
  {es : List (MachineEvent T S L C)}
  {m : Move T (PostSemaphore S) (PostLock L) (PostCondition C) (PostChoice T S L C)
    (PostInterrupt S)} {box : ℕ}

omit [DecidableEq S] [DecidableEq L] [DecidableEq C] in
/-- One thread has gone on. -/
theorem boxView_update {k' : Kernel T (PostSemaphore S) (PostLock L) (PostCondition C)}
    {t : T} {next : PostPoint} {data : PostData} :
    boxView box ⟨k', Function.update s.point t next, data⟩ =
      ⟨k', Function.update (boxView box s).point t (next.inBox box), data.boxes box⟩ := by
  have hpoint : (fun u => (Function.update s.point t next u).inBox box) =
      Function.update (fun u => (s.point u).inBox box) t (next.inBox box) :=
    Function.comp_update (PostPoint.inBox box) s.point t next
  simp only [boxView, hpoint]

omit [DecidableEq T] [DecidableEq S] in
/-- A call of other code has nothing to do with the mailbox. -/
theorem foreign_unused {op : PostOp T S L C} (h : foreign op = true) :
    (op.usesLock (.list box) || op.usesCondition (.listEmpty box)) = false := by
  cases op with
  | p s | v s => rfl
  | acquire l | release l => cases l <;> simp_all [foreign, Op.usesLock, Op.usesCondition]
  | wait c l | signal c l | broadcast c l =>
      cases c with
      | listEmpty b => simp [foreign] at h
      | other c =>
          cases l with
          | none => simp [Op.usesLock, Op.usesCondition]
          | some l => cases l <;> simp_all [foreign, Op.usesLock, Op.usesCondition]
  | fork _ => rfl
  | yield => rfl
  | finish => rfl

omit [DecidableEq T] [DecidableEq S] in
/-- The code of a mailbox leaves the other ones alone. -/
theorem goOn_unused {b : ℕ} {t : T} {point next : ListPoint Mail} {list : List Mail}
    {op : PostOp T S L C} (hne : b ≠ box)
    (hgo : point.goOn (.list b) (.listEmpty b) t list = some (.call op next)) :
    (op.usesLock (.list box) || op.usesCondition (.listEmpty box)) = false := by
  have hact : (synchList (.list b) (.listEmpty b) : Program T (PostSemaphore S) (PostLock L)
    (PostCondition C) _ _ _ _ _).act t point list none = some (.call op next) := hgo
  rcases synchList_call hact with ⟨rfl, -⟩ | ⟨-, rfl, -⟩ | ⟨-, rfl, -⟩ | ⟨-, -, rfl, -⟩ | ⟨_, -, rfl, -⟩
  · cases hgo
  all_goals simp [Op.usesLock, Op.usesCondition, hne]

omit [DecidableEq T] [DecidableEq S] in
/-- The mailbox makes the same call, or another one. -/
theorem box_call {t : T} {data : PostData} {p next : PostPoint} {op : PostOp T S L C}
    (h : PostCalls numBoxes ident worker t data p op next) (box : ℕ) :
    ∃ choice, (synchList (.list box) (.listEmpty box)).act t (p.inBox box) (data.boxes box) choice =
      some (.call op (next.inBox box)) := by
  have hother : p.inBox box = .elsewhere → next.inBox box = .elsewhere →
      (op.usesLock (.list box) || op.usesCondition (.listEmpty box)) = false →
      ∃ choice, (synchList (.list box) (.listEmpty box)).act t (p.inBox box) (data.boxes box)
        choice = some (.call op (next.inBox box)) := by
    intro hp hnext hunused
    refine ⟨some (.other op), ?_⟩
    rw [hp, hnext]
    exact if_neg (by rw [hunused]; nofun)
  cases h with
  | awaitMail _ | awaitSent _ => exact hother rfl rfl rfl
  | unlock _ | send _ _ _ _ _ _ => exact hother rfl rfl rfl
  | other _ hforeign => exact hother rfl rfl (foreign_unused hforeign)
  | @put _ mail _ _ _ _ =>
      by_cases hb : mail.mailHdr.to.toNat = box
      · refine ⟨some (.append mail), ?_⟩
        simp [PostPoint.inBox, hb, synchList, ListCall.action]
      · refine hother rfl (if_neg hb) ?_
        simp [Op.usesLock, Op.usesCondition, hb]
  | receive b _ =>
      by_cases hb : b = box
      · refine ⟨some .remove, ?_⟩
        simp [PostPoint.inBox, hb, synchList, ListCall.action]
      · refine hother rfl (if_neg hb) ?_
        simp [Op.usesLock, Op.usesCondition, hb]
  | @list b point next _ hgo =>
      by_cases hb : b = box
      · subst hb
        refine ⟨none, ?_⟩
        rw [show PostPoint.inBox b (.inList b point) = point from if_pos rfl,
          show PostPoint.inBox b (.inList b next) = next from if_pos rfl]
        exact hgo
      · exact hother (if_neg hb) (if_neg hb) (goOn_unused hb hgo)

omit [DecidableEq T] [DecidableEq S] [DecidableEq L] [DecidableEq C] in
/-- What the list does when its machine goes on, if it does anything. -/
theorem box_go {t : T} {data data' : PostData} {p next : PostPoint} {events : List (PostEvent T)}
    (h : PostGoes (S := S) (L := L) (C := C) numBoxes ident worker t data p next data' events)
    (box : ℕ) :
    ListPoint.goOn (.list box) (.listEmpty box) t (data.boxes box) (p.inBox box) =
        some (.go (next.inBox box) (data'.boxes box) (boxLog box events) : Action T
          (PostSemaphore S) (PostLock L) (PostCondition C) _ _ _) ∨
      p.inBox box = next.inBox box ∧ data'.boxes box = data.boxes box ∧ boxLog box events = [] := by
  cases h with
  | take _ | illegal _ | lose _ | transmit _ _ | «return» _ => exact .inr ⟨rfl, rfl, rfl⟩
  | abort hp =>
      refine .inr ⟨?_, rfl, rfl⟩
      rcases hp with ⟨rfl, -⟩ | ⟨_, _, _, _, rfl⟩ <;> rfl
  | @list b point next list events _ _ hgo =>
      rw [boxLog_map]
      by_cases hb : b = box
      · subst hb
        rw [show PostPoint.inBox b (.inList b point) = point from if_pos rfl,
          show PostPoint.inBox b (.inList b next) = next from if_pos rfl, if_pos rfl,
          show ({ data with boxes := Function.update data.boxes b list } : PostData).boxes b =
            list from Function.update_self ..]
        exact .inl hgo
      · refine .inr ⟨?_, Function.update_of_ne (Ne.symm hb) .., if_neg hb⟩
        rw [show PostPoint.inBox box (.inList b point) = .elsewhere from if_neg hb]
        exact (if_neg hb).symm
  | appended b =>
      by_cases hb : b = box
      · subst hb
        rw [show PostPoint.inBox b (.inList b .appended) = .appended from if_pos rfl]
        exact .inl rfl
      · exact .inr ⟨if_neg hb, rfl, rfl⟩
  | @get b mail text _ =>
      by_cases hb : b = box
      · subst hb
        rw [show PostPoint.inBox b (.inList b (.returning mail)) = .returning mail from if_pos rfl,
          show boxLog b [.box b (.returned t mail), .received t b mail.pktHdr mail.mailHdr text] =
            [.returned t mail] by simp [boxLog]]
        exact .inl rfl
      · exact .inr ⟨if_neg hb, rfl, by simp [boxLog, hb]⟩
  | @getFails b mail _ =>
      by_cases hb : b = box
      · subst hb
        rw [show PostPoint.inBox b (.inList b (.returning mail)) = .returning mail from if_pos rfl,
          show boxLog b [.box b (.returned t mail), .aborted] = [.returned t mail] by simp [boxLog]]
        exact .inl rfl
      · exact .inr ⟨if_neg hb, rfl, by simp [boxLog, hb]⟩

/-- **A mailbox is a synchronized list.** -/
theorem box_step (box : ℕ) (hs : Program.Steps (machine numBoxes worker ident) s m s' es) :
    (∃ l es', (synchList (.list box) (.listEmpty box)).step (boxView box s) l =
        some (boxView box s', es') ∧ Program.ownLog es' = boxLog box (Program.ownLog es)) ∨
      boxView box s' = boxView box s ∧ boxLog box (Program.ownLog es) = [] := by
  cases hs with
  | @call choice op next k' effects hact hstep =>
      rw [Program.ownLog_map]
      obtain ⟨choice', hact'⟩ := box_call (machine_call hact) box
      refine .inl ⟨.act choice', _, ?_, Program.ownLog_map effects⟩
      rw [boxView_update]
      exact Program.step_call hact' hstep
  | @go choice next data events hidle hpc hact =>
      rw [Program.ownLog_own, boxView_update]
      rcases box_go (machine_go hact) box with hgo | ⟨hpoint, hboxes, hlog⟩
      · exact .inl ⟨.act none, _, Program.step_go hidle hpc hgo, Program.ownLog_own _⟩
      · refine .inr ⟨?_, hlog⟩
        rw [hboxes, ← hpoint]
        show System.mk _ (Function.update _ _ ((boxView box s).point s.kernel.currentThread)) _ = _
        rw [Function.update_eq_self]
        rfl
  | @kernel label k' effects hinside hstep =>
      rw [Program.ownLog_map]
      exact .inl ⟨.kernel label, _, Program.step_kernel hinside hstep, Program.ownLog_map effects⟩
  | @interrupt i data events sem k' effects hhandler hstep =>
      rw [Program.ownLog_append, Program.ownLog_own, Program.ownLog_map, List.append_nil]
      have hhandles := machine_handles hhandler
      have hsame : data.boxes = s.data.boxes ∧ boxLog box events = [] := by
        cases hhandles <;> exact ⟨rfl, rfl⟩
      left
      refine ⟨.interrupt sem, _, ?_, (Program.ownLog_map effects).trans hsame.2.symm⟩
      have hview : boxView box ⟨k', s.point, data⟩ = ⟨k', (boxView box s).point, s.data.boxes box⟩ := by
        simp only [boxView, hsame.1]
      rw [hview]
      have hleft : (synchList (.list box) (.listEmpty box) : Program T (PostSemaphore S)
          (PostLock L) (PostCondition C) _ _ _ _ _).handler sem (boxView box s).data =
        some ((boxView box s).data, [], some sem) := rfl
      exact Program.step_interrupt hleft hstep
  | @device i data events hhandler =>
      rw [Program.ownLog_own]
      right
      cases machine_handles hhandler <;> exact ⟨rfl, rfl⟩

end View

section Runs

variable {numBoxes : ℕ} {worker : T} {ident : NetworkAddress} {main : T}
  {initial : PostSemaphore S → ℤ} {memory : Buffer} {s : Machine T S L C}
  {tr : List (List (MachineEvent T S L C))}
  {ok : List (List (MachineEvent T S L C)) → Machine T S L C →
    Move T (PostSemaphore S) (PostLock L) (PostCondition C) (PostChoice T S L C)
      (PostInterrupt S) → Prop} {box : ℕ}

theorem box_run (box : ℕ) (hrun : Run (machine numBoxes worker ident).step ok
    ((machine numBoxes worker ident).boot main initial (.create memory)) tr s) :
    ∃ tr', Run (synchList (.list box) (.listEmpty box)).step anyStep
        ((synchList (.list box) (.listEmpty box)).boot main initial []) tr' (boxView box s) ∧
      Program.ownLog tr'.flatten = boxLog box (Program.ownLog tr.flatten) := by
  refine hrun.simulate (J := fun _ _ => True) (f := boxView box)
    (R := fun tr tr' => Program.ownLog tr'.flatten = boxLog box (Program.ownLog tr.flatten))
    (fun _ => trivial) rfl fun _ hlog _ hs => ?_
  rw [List.flatten_append, List.flatten_singleton, Program.ownLog_append, boxLog_append]
  rcases box_step box (.of_step hs) with ⟨l, es', hstep, hes⟩ | ⟨hview, hes⟩
  · refine .inl ⟨l, es', trivial, hstep, ?_⟩
    rw [List.flatten_append, List.flatten_singleton, Program.ownLog_append, hlog, hes]
  · refine .inr ⟨hview, ?_⟩
    rw [hlog, hes, List.append_nil]

end Runs

end Nachos.Network.Post
