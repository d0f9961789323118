import Nachos.VM.Exits

/-!
# Nothing is left of the dead

What a process reads has to depend on itself alone: on the executable it was
started with and on what it has written since. A process number is given out
again, so both are looked up behind the last `Exec` that returned it. When all
faults are clean this is so across exits, and two runs that differ in bytes
written by threads that have exited cannot be told apart by a process that starts
later.
-/

namespace Nachos.VM

open Nachos.Userprog Nachos.Lib

/-! ## Logs -/

/-- A step of a run, with the thread that was running. -/
structure Logged where
  thread : Option (ℤ × ℕ)
  label : Label
  event : Event

def logStep (s : Vm) (l : Label) : Option (Vm × Logged) :=
  (step s l).map fun (t, ev) => (t, ⟨s.current, l, ev⟩)

/-- What process `pid` has last written to address `a` since it was started. -/
def ownWrite (log : List Logged) (pid : ℤ) (a : ℕ) : Option UInt8 :=
  (log.reverse.takeWhile fun e => e.event ≠ .exec pid).findSome? fun e => written pid a e.event

/-- The executable of an `Exec` that returned `pid`. -/
def Logged.starts (pid : ℤ) (e : Logged) : Option Executable :=
  match e.label with
  | .exec x => if e.event = .exec pid then some x else none
  | _ => none

/-- The executable process `pid` was started with; that of the first is `x₀`. -/
def startedWith (x₀ : Executable) (log : List Logged) (pid : ℤ) : Executable :=
  (log.reverse.findSome? (Logged.starts pid)).getD x₀

/-- The byte that process `pid` has to read at address `a`. -/
def ownByte (x₀ : Executable) (log : List Logged) (pid : ℤ) (a : ℕ) : UInt8 :=
  (ownWrite log pid a).getD ((startedWith x₀ log pid).image a)

section Logs

variable {log : List Logged} {e : Logged} {pid : ℤ} {a : ℕ} {x₀ : Executable}

theorem logStep_eq {s t : Vm} {l : Label} (h : logStep s l = some (t, e)) :
    step s l = some (t, e.event) ∧ e.thread = s.current ∧ e.label = l := by
  obtain ⟨⟨u, ev⟩, hs, heq⟩ := Option.map_eq_some_iff.mp h
  obtain ⟨rfl, rfl⟩ := Prod.mk.inj heq
  exact ⟨hs, rfl, rfl⟩

theorem ownWrite_exec (h : e.event = .exec pid) : ownWrite (log ++ [e]) pid a = none := by
  rw [ownWrite, List.reverse_append, List.reverse_singleton, List.singleton_append,
    List.takeWhile_cons_of_neg (by simpa using h)]
  rfl

theorem ownWrite_snoc (h : e.event ≠ .exec pid) :
    ownWrite (log ++ [e]) pid a = (written pid a e.event).or (ownWrite log pid a) := by
  rw [ownWrite, List.reverse_append, List.reverse_singleton, List.singleton_append,
    List.takeWhile_cons_of_pos (by simpa using h), List.findSome?_cons]
  cases written pid a e.event <;> rfl

theorem startedWith_snoc : startedWith x₀ (log ++ [e]) pid =
    (e.starts pid).getD (startedWith x₀ log pid) := by
  rw [startedWith, List.reverse_append, List.reverse_singleton, List.singleton_append,
    List.findSome?_cons]
  cases e.starts pid <;> rfl

/-- A step that is no `Exec` starts nothing. -/
theorem startedWith_other (h : ∀ pid, e.event ≠ .exec pid) :
    startedWith x₀ (log ++ [e]) pid = startedWith x₀ log pid := by
  have hnone : e.starts pid = none := by
    unfold Logged.starts
    split
    · exact if_neg (h pid)
    · rfl
  rw [startedWith_snoc, hnone, Option.getD_none]

end Logs

/-! ## The invariant of clean runs -/

open Classical in
/-- What is to be found in memory of what was written. -/
noncomputable def surviving (log : List Logged) (s : Vm) (pid : ℤ) (a : ℕ) : Option UInt8 :=
  if s.Lost pid (a / pageSize) then none else ownWrite log pid a

/-- The wiped machine is in order, and it holds what its processes have written. -/
structure Isolated (x₀ : Executable) (log : List Logged) (s : Vm) : Prop where
  inv : Inv none s.wiped
  stacked : s.Stacked
  holds : Holds (surviving log s) s.wiped
  started : ∀ {pid p}, s.processTable.get pid = some p → p.space.exec = startedWith x₀ log pid
  reads : ∀ {pre e post pid vaddr bytes}, log = pre ++ e :: post →
    e.event = .read pid vaddr bytes →
    bytes = (List.range bytes.length).map fun i => ownByte x₀ pre pid (vaddr + i)

section Surviving

variable {log : List Logged} {e : Logged} {s t : Vm} {pid : ℤ} {a vpn : ℕ}

theorem surviving_kept (h : ¬ s.Lost pid (a / pageSize)) :
    surviving log s pid a = ownWrite log pid a := if_neg h

theorem surviving_lost (h : s.Lost pid (a / pageSize)) : surviving log s pid a = none := if_pos h

/-- A step that starts, writes and loses nothing. -/
theorem surviving_other (hexec : ∀ pid, e.event ≠ .exec pid)
    (hwritten : ∀ pid a, written pid a e.event = none)
    (hlost : ∀ {pid vpn}, t.Lost pid vpn ↔ s.Lost pid vpn) :
    surviving (log ++ [e]) t = surviving log s := by
  funext pid a
  by_cases h : s.Lost pid (a / pageSize)
  · rw [surviving_lost h, surviving_lost (hlost.mpr h)]
  · rw [surviving_kept h, surviving_kept (fun hc => h (hlost.mp hc)), ownWrite_snoc (hexec pid),
      hwritten, Option.none_or]

theorem lost_of_outline (h : t.outline = s.outline) : t.Lost pid vpn ↔ s.Lost pid vpn := by
  constructor
  · rintro (hnone | hgone)
    · exact .inl (get_none_of_outline h.symm hnone)
    · exact .inr (givenUp_outline h hgone)
  · rintro (hnone | hgone)
    · exact .inl (get_none_of_outline h hnone)
    · exact .inr (givenUp_outline h.symm hgone)

theorem lost_store {p p' : Process} {pid' : ℤ} (hp : s.processTable.get pid = some p)
    (ht : t.processTable = s.processTable.store pid p') (h : p'.GivenUp vpn ↔ p.GivenUp vpn) :
    t.Lost pid' vpn ↔ s.Lost pid' vpn := by
  by_cases hpid : pid' = pid
  · subst hpid
    have hp' : t.processTable.get pid' = some p' := by
      rw [ht]
      exact Table.get_store_self _ hp
    rw [lost_of_get hp', lost_of_get hp, h]
  · unfold Vm.Lost Vm.GivenUp
    rw [ht, Table.get_store_of_ne _ hp hpid]

/-- A page in memory is not lost. -/
theorem not_lost_of_valid {x : Executable} {en : PageEntry}
    (hpage : s.wiped.page pid vpn = some (x, en)) (hv : en.valid = true) : ¬ s.Lost pid vpn := by
  obtain ⟨p, hp, -, -, rfl⟩ := get_of_page_wiped hpage
  rw [lost_of_get hp]
  intro hgone
  rw [if_pos hgone] at hv
  cases hv

end Surviving

section Steps

variable {log : List Logged} {e : Logged} {s t : Vm} {l : Label} {ev : Event} {x₀ : Executable}
  {ε : Type} {tr : List ε}

/-- A process that is there after a step was there before, or is new. -/
theorem get_step {pid : ℤ} {q : Process} (hinv : Inv none s.wiped) (hclean : cleanReuse tr s l)
    (hs : step s l = some (t, ev)) (hexec : ∀ pid, ev ≠ .exec pid)
    (hq : t.processTable.get pid = some q) :
    ∃ p, s.processTable.get pid = some p ∧ q.space.exec = p.space.exec := by
  have hstore : ∀ {pid' p p'}, s.processTable.get pid' = some p →
      t.processTable = s.processTable.store pid' p' → p'.space.exec = p.space.exec →
      ∃ p, s.processTable.get pid = some p ∧ q.space.exec = p.space.exec := by
    intro pid' p p' hp ht hx
    rw [ht] at hq
    by_cases hpid : pid = pid'
    · subst hpid
      obtain rfl := Option.some.inj ((Table.get_store_self p' hp).symm.trans hq)
      exact ⟨p, hp, hx⟩
    · exact ⟨q, (Table.get_store_of_ne p' hp hpid).symm.trans hq, rfl⟩
  have hout : ∀ {u : Vm}, u.outline = s.outline → u.processTable = t.processTable →
      ∃ p, s.processTable.get pid = some p ∧ q.space.exec = p.space.exec := by
    intro u hu ht
    rw [← ht] at hq
    obtain ⟨p, hp, hx, -⟩ := get_of_outline hu hq
    exact ⟨p, hp, hx.symm⟩
  cases Step.of_step hs with
  | exec => exact absurd rfl (hexec _)
  | fork _ hf =>
      obtain ⟨p, hp, rfl⟩ := forkSyscall_cases hf
      exact hstore hp rfl rfl
  | start hk =>
      obtain ⟨p, hp, -, rfl⟩ := kernelThread_cases hk
      exact hstore hp rfl rfl
  | run hr =>
      obtain ⟨p, start, hp, -, rfl⟩ := schedulerRun_cases hr
      exact ⟨q, hq, rfl⟩
  | read hcur ha =>
      have ha' := access_wiped hinv hcur (fun hfault => hclean hfault _ hcur) ha
      have hf := (access_some hinv (show s.wiped.current = _ from hcur) ha').1.outline
      rw [outline_wiped, outline_wiped] at hf
      exact hout hf rfl
  | write hcur ha =>
      have ha' := access_wiped hinv hcur (fun hfault => hclean hfault _ hcur) ha
      have hf := (access_some hinv (show s.wiped.current = _ from hcur) ha').1.outline
      rw [outline_wiped, outline_wiped] at hf
      exact hout hf rfl
  | exit _ he =>
      obtain ⟨p, hp, ⟨-, rfl⟩ | ⟨-, start, fin, hth, space, bm, hdec, rfl⟩⟩ := exitSyscall_cases he
      · rw [Table.get_remove] at hq
        split at hq
        · cases hq
        · exact ⟨q, hq, rfl⟩
      · refine hstore hp rfl ?_
        show space.exec = p.space.exec
        split at hdec
        · rw [decreaseStackSpace_eq] at hdec
          rw [(Prod.mk.inj hdec).1]
        · rw [(Prod.mk.inj hdec).1]

/-- **A new process** has written nothing, and nobody can tell that its number was
used before. -/
theorem surviving_exec {x : Executable} {pid : ℤ} (hinv : Inv none s.wiped)
    (hx : execSyscall s x = some (t, pid)) (hev : e.event = .exec pid) :
    surviving (log ++ [e]) t = surviving log s := by
  obtain ⟨hnone, hsome, hrest⟩ := execSyscall_slot hinv hx
  funext pid' a
  by_cases hpid : pid' = pid
  · subst hpid
    have hfresh : ¬ t.Lost pid' (a / pageSize) := by
      rw [lost_of_get hsome]
      exact not_givenUp_create x _
    rw [surviving_kept hfresh, ownWrite_exec hev, surviving_lost (.inl hnone)]
  · have hlost : t.Lost pid' (a / pageSize) ↔ s.Lost pid' (a / pageSize) := by
      unfold Vm.Lost Vm.GivenUp
      rw [hrest pid' hpid]
    have hown : ownWrite (log ++ [e]) pid' a = ownWrite log pid' a := by
      have hne : e.event ≠ .exec pid' := by
        rw [hev]
        simpa using Ne.symm hpid
      rw [ownWrite_snoc hne, hev]
      rfl
    by_cases h : s.Lost pid' (a / pageSize)
    · rw [surviving_lost h, surviving_lost (hlost.mpr h)]
    · rw [surviving_kept h, surviving_kept (fun hc => h (hlost.mp hc)), hown]

/-- **A write** goes to a page that is not lost. -/
theorem surviving_write {pid : ℤ} {vaddr : ℕ} {bytes : List UInt8}
    (hal : Aligned vaddr bytes.length) (hkept : ¬ t.Lost pid (vaddr / pageSize))
    (hlost : ∀ {pid vpn}, t.Lost pid vpn ↔ s.Lost pid vpn) (hev : e.event = .write pid vaddr bytes)
    (pid' : ℤ) (a : ℕ) : surviving (log ++ [e]) t pid' a =
      (written pid' a (.write pid vaddr bytes)).or (surviving log s pid' a) := by
  have hin := hal.in_page
  have hne : ∀ pid'', e.event ≠ .exec pid'' := by
    intro pid''
    rw [hev]
    simp
  by_cases h : s.Lost pid' (a / pageSize)
  · have hnone : written pid' a (.write pid vaddr bytes) = none := by
      rw [written]
      split
      · rename_i hcond
        obtain ⟨rfl, hle⟩ := hcond
        rw [List.getElem?_eq_none]
        by_contra hlt
        have hdiv : a / pageSize = vaddr / pageSize := by
          unfold pageSize at *
          omega
        rw [← hlost, hdiv] at h
        exact hkept h
      · rfl
    rw [surviving_lost h, surviving_lost (hlost.mpr h), hnone]
    rfl
  · rw [surviving_kept h, surviving_kept (fun hc => h (hlost.mp hc)), ownWrite_snoc (hne pid'), hev]

/-- **One clean step** keeps in memory what the processes have written. -/
theorem Isolated.holds_step (h : Isolated x₀ log s) (hclean : cleanReuse tr s l)
    (hs : step s l = some (t, e.event)) : Holds (surviving (log ++ [e]) t) t.wiped := by
  generalize hev : e.event = ev at hs
  have hother : ev = .other → (∀ {pid vpn}, t.Lost pid vpn ↔ s.Lost pid vpn) →
      surviving (log ++ [e]) t = surviving log s := by
    rintro rfl hlost
    refine surviving_other ?_ ?_ hlost
    · intro pid
      rw [hev]
      simp
    · intro pid a
      rw [hev]
      rfl
  cases Step.of_step hs with
  | exec _ hx =>
      rw [surviving_exec h.inv hx hev]
      exact h.holds.extended (extended_exec h.inv.frames (execSyscall_wiped hx))
  | fork _ hf =>
      have hext := extended_fork h.inv.frames (forkSyscall_wiped hf)
      obtain ⟨p, hp, rfl⟩ := forkSyscall_cases hf
      rw [hother rfl]
      · exact h.holds.extended hext
      · intro pid vpn
        exact lost_store hp rfl ((GivenUp.congr rfl).trans (givenUp_fork vpn))
  | start hk =>
      have hext := extended_start h.inv.frames (kernelThread_wiped hk)
      obtain ⟨p, hp, hth, rfl⟩ := kernelThread_cases hk
      rw [hother rfl]
      · exact h.holds.extended hext
      · intro pid vpn
        exact lost_store hp rfl ((GivenUp.congr rfl).trans (givenUp_start hth vpn))
  | run hr =>
      have hext := extended_run h.inv.frames (schedulerRun_wiped hr)
      obtain ⟨p, start, -, -, rfl⟩ := schedulerRun_cases hr
      rw [hother rfl Iff.rfl]
      exact h.holds.extended hext
  | read hcur ha =>
      have ha' := access_wiped h.inv hcur (fun hfault => hclean hfault _ hcur) ha
      have hf := (access_some h.inv (show s.wiped.current = _ from hcur) ha').1
      have hout := hf.outline
      rw [outline_wiped, outline_wiped] at hout
      rw [surviving_other]
      · exact h.holds.faulted hf
      · intro pid
        rw [hev]
        simp
      · intro pid a
        rw [hev]
        rfl
      · exact lost_of_outline hout
  | write hcur ha =>
      have ha' := access_wiped h.inv hcur (fun hfault => hclean hfault _ hcur) ha
      obtain ⟨hbm, hin⟩ := access_frame h.inv hcur ha'
      obtain ⟨hf, hal, x, en, hp, hv, heq⟩ := access_some h.inv (show s.wiped.current = _ from hcur) ha'
      have hout := hf.outline
      rw [outline_wiped, outline_wiped] at hout
      rw [← writeBytes_wiped hbm hin, ← heq]
      exact (h.holds.faulted hf).write hf.inv hal hp hv
        (surviving_write hal (not_lost_of_valid hp hv) (lost_of_outline hout) hev)
  | exit _ he =>
      obtain ⟨-, hgave, hmore⟩ := gaveUp_exit h.inv h.stacked he
      refine h.holds.gaveUp h.inv hgave (fun pid a hlost => surviving_lost hlost) ?_
      intro pid a hkept
      have hne : e.event ≠ .exec pid := by
        rw [hev]
        simp
      rw [surviving_kept hkept, surviving_kept (fun hc => hkept (hmore hc)), ownWrite_snoc hne, hev]
      rfl

theorem Isolated.started_step (h : Isolated x₀ log s) (hclean : cleanReuse tr s l)
    (hs : step s l = some (t, e.event)) (hlabel : e.label = l) {pid : ℤ} {q : Process}
    (hq : t.processTable.get pid = some q) : q.space.exec = startedWith x₀ (log ++ [e]) pid := by
  by_cases hexec : ∀ pid', e.event ≠ .exec pid'
  · obtain ⟨p, hp, hx⟩ := get_step h.inv hclean hs hexec hq
    rw [startedWith_other hexec, hx]
    exact h.started hp
  · simp only [ne_eq, not_forall, not_not] at hexec
    obtain ⟨pid', hev⟩ := hexec
    rw [hev] at hs
    cases Step.of_step hs with
    | @exec x _ _ _ _ hx =>
        obtain ⟨-, hsome, hrest⟩ := execSyscall_slot h.inv hx
        have hstarts : e.starts pid = if pid' = pid then some x else none := by
          simp only [Logged.starts, hlabel, hev, Event.exec.injEq]
        rw [startedWith_snoc, hstarts]
        by_cases hpid : pid' = pid
        · subst hpid
          obtain rfl := Option.some.inj (hsome.symm.trans hq)
          rw [if_pos rfl]
          rfl
        · rw [hrest pid (Ne.symm hpid)] at hq
          rw [if_neg hpid]
          exact h.started hq

/-- **A clean read** returns what the process itself is responsible for. -/
theorem Isolated.read_step {pid : ℤ} {vaddr : ℕ} {bytes : List UInt8} (h : Isolated x₀ log s)
    (hclean : cleanReuse tr s l) (hs : step s l = some (t, .read pid vaddr bytes)) :
    bytes = (List.range bytes.length).map fun i => ownByte x₀ log pid (vaddr + i) := by
  cases Step.of_step hs with
  | @read _ _ _ size _ _ _ hcur ha =>
      have ha' := access_wiped h.inv hcur (fun hfault => hclean hfault _ hcur) ha
      obtain ⟨hbm, hin⟩ := access_frame h.inv hcur ha'
      obtain ⟨hf, -, x, en, hp, hv, -⟩ := access_some h.inv (show s.wiped.current = _ from hcur) ha'
      obtain ⟨x', n, ths, hout, hbytes⟩ :=
        h.holds.read h.inv (show s.wiped.current = _ from hcur) ha'
      have hfout := hf.outline
      rw [outline_wiped, outline_wiped] at hfout
      have hkept : ¬ s.Lost pid (vaddr / pageSize) := by
        rw [← lost_of_outline hfout]
        exact not_lost_of_valid hp hv
      have hx : x' = startedWith x₀ log pid := by
        rw [hf.outline, outline_wiped] at hout
        obtain ⟨p, hget, heq⟩ := Option.map_eq_some_iff.mp hout
        obtain ⟨rfl, -⟩ := Prod.mk.inj heq
        exact h.started hget
      rw [readBytes_wiped hbm hin, hx] at hbytes
      rw [hbytes, List.length_map, List.length_range]
      refine List.map_congr_left ?_
      intro i hi
      have hi := List.mem_range.mp hi
      have hdiv : (vaddr + i) / pageSize = vaddr / pageSize := by
        unfold pageSize at *
        omega
      rw [surviving_kept (by rw [hdiv]; exact hkept)]
      rfl

/-- **One clean step** keeps the invariant. -/
theorem Isolated.step (h : Isolated x₀ log s) (hclean : cleanReuse log s l)
    (hs : logStep s l = some (t, e)) : Isolated x₀ (log ++ [e]) t := by
  obtain ⟨hs, -, hlabel⟩ := logStep_eq hs
  refine ⟨h.inv.wiped_step h.stacked hclean hs, h.stacked.step h.inv hclean hs,
    h.holds_step hclean hs, h.started_step hclean hs hlabel, ?_⟩
  intro pre a post pid vaddr bytes heq hev
  rcases snoc_eq_append_cons heq with ⟨rfl, rfl⟩ | ⟨post', hlog⟩
  · rw [hev] at hs
    exact h.read_step hclean hs
  · exact h.reads hlog hev

end Steps

theorem boot_wiped (policy : Policy) (tlb : ℕ → TranslationEntry) (ipt : ℕ → IptEntry)
    (swapFile : ℕ → Page) (x : Executable) : (boot policy tlb ipt swapFile x).wiped =
      boot policy tlb ipt (fun slot => trim (swapFile slot)) x := by
  have htable : (((Table.empty 100).put (.create x)).2 : Table Process).map Process.wiped =
      ((Table.empty 100).put (.create x)).2 := by
    have hput := Table.map_put Process.wiped (Table.empty 100) (.create x)
    rw [wiped_create] at hput
    exact (congrArg Prod.snd hput).symm
  simp only [boot, Vm.wiped, htable, Bool.and_false, Bool.false_eq_true, if_false]

theorem Isolated.boot (policy : Policy) (tlb : ℕ → TranslationEntry) (ipt : ℕ → IptEntry)
    (swapFile : ℕ → Page) (x : Executable) : Isolated x [] (boot policy tlb ipt swapFile x) := by
  refine ⟨?_, ?_, ?_, ?_, ?_⟩
  · rw [boot_wiped]
    exact .boot ..
  · intro pid p hp
    rw [boot_process hp]
    exact .create x
  · have hnone : surviving [] (VM.boot policy tlb ipt swapFile x) = lastWrite [] := by
      funext pid a
      exact ite_self none
    rw [hnone, boot_wiped]
    exact agrees_iff.mp (.boot ..)
  · intro pid p hp
    rw [boot_process hp]
    rfl
  · intro pre a post pid vaddr bytes heq
    simp at heq

/-! ## Two runs -/

/-- An event without the bytes it carries. -/
def Event.shape : Event → Event
  | .read pid vaddr _ => .read pid vaddr []
  | .write pid vaddr _ => .write pid vaddr []
  | ev => ev

/-- The same write, but of other bytes. -/
def Label.Rewritten : Label → Label → Prop
  | .write vaddr bytes rand, .write vaddr' bytes' rand' =>
      vaddr' = vaddr ∧ bytes'.length = bytes.length ∧ rand' = rand
  | _, _ => False

/-- The same thread does the same; what it reads may be different. -/
structure Logged.Same (e e' : Logged) : Prop where
  thread : e'.thread = e.thread
  label : e'.label = e.label
  shape : e'.event.shape = e.event.shape

/-- The logs are the same but for bytes written by threads that exit in them. -/
def DeadBytes : List Logged → List Logged → Prop
  | [], [] => True
  | e :: log, e' :: log' =>
      (e.Same e' ∨ e'.thread = e.thread ∧ e'.event.shape = e.event.shape ∧
        e.label.Rewritten e'.label ∧ ∃ a ∈ log, a.label.isExit = true ∧ a.thread = e.thread) ∧
      DeadBytes log log'
  | _, _ => False

/-- **Two runs differ only in bytes of the dead**: up to a point in bytes that were
written by threads that have exited there, and then in nothing. -/
structure DifferInDeadBytes (before before' after after' : List Logged) : Prop where
  dead : DeadBytes before before'
  same : List.Forall₂ Logged.Same after after'

section Same

variable {e e' : Logged} {pid : ℤ} {a : ℕ} {x₀ : Executable}

/-- The entry comes from a step. -/
def Logged.Stepped (e : Logged) : Prop := ∃ s t, logStep s e.label = some (t, e)

theorem stepped_of_run {ok : List Logged → Vm → Label → Prop} {s₀ s : Vm} {log : List Logged}
    (h : Run logStep ok s₀ log s) : ∀ e ∈ log, e.Stepped := by
  refine h.invariant (I := fun log _ => ∀ e ∈ log, e.Stepped) (by simp) ?_
  intro log s l t e ih _ hs e' he'
  rcases List.mem_append.mp he' with he' | he'
  · exact ih e' he'
  · obtain rfl := List.mem_singleton.mp he'
    refine ⟨s, t, ?_⟩
    rw [(logStep_eq hs).2.2]
    exact hs

/-- What a step of the same thread does, reads apart. -/
theorem Logged.Same.event (h : e.Same e') (he : e.Stepped) (he' : e'.Stepped) :
    e'.event = e.event ∨ ∃ pid vaddr bytes bytes', e.event = .read pid vaddr bytes ∧
      e'.event = .read pid vaddr bytes' ∧ bytes'.length = bytes.length := by
  obtain ⟨s, t, hs⟩ := he
  obtain ⟨s', t', hs'⟩ := he'
  have hshape := h.shape
  have hs := (logStep_eq hs).1
  have hs' := (logStep_eq hs').1
  rw [h.label] at hs'
  generalize e.label = l at hs hs'
  generalize e.event = ev at hs hshape ⊢
  generalize e'.event = ev' at hs' hshape ⊢
  cases Step.of_step hs with
  | exec =>
      cases Step.of_step hs' with
      | exec => exact .inl hshape
  | fork =>
      cases Step.of_step hs' with
      | fork => exact .inl rfl
  | start =>
      cases Step.of_step hs' with
      | start => exact .inl rfl
  | run =>
      cases Step.of_step hs' with
      | run => exact .inl rfl
  | exit =>
      cases Step.of_step hs' with
      | exit => exact .inl rfl
  | read =>
      cases Step.of_step hs' with
      | read =>
          obtain ⟨rfl, -⟩ := Event.read.inj hshape
          refine .inr ⟨_, _, _, _, rfl, rfl, ?_⟩
          simp only [readBytes, List.length_map, List.length_range]
  | write =>
      cases Step.of_step hs' with
      | write =>
          obtain ⟨rfl, -⟩ := Event.write.inj hshape
          exact .inl rfl

/-- Both entries start the same processes and write the same. -/
theorem Logged.Same.agree (h : e.Same e') (pid : ℤ) (a : ℕ) (he : e.Stepped) (he' : e'.Stepped) :
    (e'.event = .exec pid ↔ e.event = .exec pid) ∧ e'.starts pid = e.starts pid ∧
      written pid a e'.event = written pid a e.event := by
  rcases h.event he he' with heq | ⟨pid', vaddr, bytes, bytes', hev, hev', -⟩
  · refine ⟨by rw [heq], ?_, by rw [heq]⟩
    unfold Logged.starts
    rw [h.label, heq]
  · refine ⟨by rw [hev, hev']; simp, ?_, by rw [hev, hev']; rfl⟩
    unfold Logged.starts
    rw [h.label, hev, hev']
    rfl

theorem starts_of_exec (he : e.Stepped) (hev : e.event = .exec pid) : ∃ x, e.starts pid = some x := by
  obtain ⟨s, t, hs⟩ := he
  have hs := (logStep_eq hs).1
  unfold Logged.starts
  rw [hev] at hs ⊢
  generalize e.label = l at hs ⊢
  cases Step.of_step hs with
  | @exec x => exact ⟨x, if_pos rfl⟩

/-- **What a process started in the common part has to read** does not depend on
what was before. -/
theorem ownByte_same {before before' after after' : List Logged}
    (hsame : List.Forall₂ Logged.Same after after') (hs : ∀ e ∈ after, e.Stepped)
    (hs' : ∀ e ∈ after', e.Stepped) (hexec : ∃ e ∈ after, e.event = .exec pid) :
    ownByte x₀ (before' ++ after') pid a = ownByte x₀ (before ++ after) pid a := by
  -- from the end, where `Exec` is met before anything of the first parts
  have hown : ∀ {r r' : List Logged} (q q' : List Logged), List.Forall₂ Logged.Same r r' → (∀ e ∈ r, e.Stepped) →
      (∀ e ∈ r', e.Stepped) → (∃ e ∈ r, e.event = .exec pid) →
      ((r' ++ q').takeWhile fun e => e.event ≠ .exec pid).findSome? (fun e => written pid a e.event) =
        ((r ++ q).takeWhile fun e => e.event ≠ .exec pid).findSome? (fun e => written pid a e.event) ∧
      (r' ++ q').findSome? (Logged.starts pid) = (r ++ q).findSome? (Logged.starts pid) := by
    intro r r' q q' hr
    induction hr with
    | nil =>
        rintro - - ⟨e, he, -⟩
        cases he
    | @cons e e' r r' hsame _ ih =>
        intro hst hst' hexec
        have hstep := hst e List.mem_cons_self
        obtain ⟨hiff, hstarts, hwritten⟩ := hsame.agree pid a hstep (hst' e' List.mem_cons_self)
        simp only [List.cons_append, List.findSome?_cons, hstarts]
        by_cases hev : e.event = .exec pid
        · obtain ⟨x, hx⟩ := starts_of_exec hstep hev
          rw [List.takeWhile_cons_of_neg (by simpa using hiff.mpr hev),
            List.takeWhile_cons_of_neg (by simpa using hev), hx]
          exact ⟨rfl, rfl⟩
        · have hrest : ∃ e ∈ r, e.event = .exec pid := by
            obtain ⟨e₁, he₁, hev₁⟩ := hexec
            rcases List.mem_cons.mp he₁ with rfl | he₁
            · exact absurd hev₁ hev
            · exact ⟨e₁, he₁, hev₁⟩
          obtain ⟨ih₁, ih₂⟩ := ih (fun e he => hst e (List.mem_cons_of_mem _ he))
            (fun e he => hst' e (List.mem_cons_of_mem _ he)) hrest
          have hev' : e'.event ≠ .exec pid := fun hc => hev (hiff.mp hc)
          rw [List.takeWhile_cons_of_pos (by simpa using hev'),
            List.takeWhile_cons_of_pos (by simpa using hev),
            List.findSome?_cons, List.findSome?_cons, hwritten, ih₁, ih₂]
          exact ⟨rfl, rfl⟩
  obtain ⟨h₁, h₂⟩ := hown before.reverse before'.reverse
    (List.forall₂_reverse_iff.mpr hsame) (fun e he => hs e (List.mem_reverse.mp he))
    (fun e he => hs' e (List.mem_reverse.mp he))
    (by simpa only [List.mem_reverse] using hexec)
  unfold ownByte ownWrite startedWith
  rw [List.reverse_append, List.reverse_append, h₁, h₂]

end Same

theorem Isolated.of_run {policy : Policy} {tlb : ℕ → TranslationEntry} {ipt : ℕ → IptEntry}
    {swapFile : ℕ → Page} {x₀ : Executable} {log : List Logged} {s : Vm}
    (h : Run logStep cleanReuse (VM.boot policy tlb ipt swapFile x₀) log s) :
    Isolated x₀ log s := by
  refine h.invariant (I := Isolated x₀) (.boot ..) ?_
  intro log s l t e hi hok hs
  exact hi.step hok hs

theorem forall₂_split {α : Type} {R : α → α → Prop} {pre pre' post post' : List α} {a a' : α}
    (h : List.Forall₂ R (pre ++ a :: post) (pre' ++ a' :: post')) (hlen : pre'.length = pre.length) :
    List.Forall₂ R pre pre' ∧ R a a' := by
  induction pre generalizing pre' with
  | nil =>
      obtain rfl := List.eq_nil_of_length_eq_zero hlen
      obtain ⟨hr, -⟩ := List.forall₂_cons.mp h
      exact ⟨.nil, hr⟩
  | cons b pre ih =>
      cases pre' with
      | nil => cases hlen
      | cons b' pre' =>
          obtain ⟨hr, hrest⟩ := List.forall₂_cons.mp h
          obtain ⟨hpre, ha⟩ := ih hrest (Nat.succ.inj hlen)
          exact ⟨.cons hr hpre, ha⟩

section Logs

variable {ok : List Logged → Vm → Label → Prop} [∀ log s l, Decidable (ok log s l)] {s₀ : Vm}

theorem exec_labels {ls : List Label} {log log' : List Logged} {s s' : Vm}
    (h : Lib.exec logStep ok log s ls = some (log', s')) :
    log'.map Logged.label = log.map Logged.label ++ ls := by
  induction ls generalizing log s with
  | nil =>
      obtain ⟨rfl, rfl⟩ := Prod.mk.inj (Option.some.inj h)
      rw [List.append_nil]
  | cons l ls ih =>
      unfold Lib.exec at h
      split at h
      · split at h
        · rename_i t e hs
          rw [ih h, List.map_append, List.map_singleton, (logStep_eq hs).2.2, List.append_assoc]
          rfl
        · cases h
      · cases h

theorem log_ext {log log' : List Logged} (hlabel : log.map Logged.label = log'.map Logged.label)
    (h : log.map (fun e => (e.thread, e.event)) = log'.map fun e => (e.thread, e.event)) :
    log = log' := by
  refine List.ext_getElem? ?_
  intro i
  have h₁ := congrArg (fun l => l[i]?) hlabel
  have h₂ := congrArg (fun l => l[i]?) h
  simp only [List.getElem?_map] at h₁ h₂
  rcases hi : log[i]? with _ | ⟨thread, label, event⟩ <;>
    rcases hi' : log'[i]? with _ | ⟨thread', label', event'⟩ <;> simp_all

/-- A log is that of a run if its labels can be executed with these threads and
events. -/
theorem run_of_log {log : List Logged}
    (h : (Lib.exec logStep ok [] s₀ (log.map Logged.label)).map
        (fun r => r.1.map fun e => (e.thread, e.event)) =
      some (log.map fun e => (e.thread, e.event))) : ∃ s, Run logStep ok s₀ log s := by
  obtain ⟨⟨log', s⟩, hexec, heq⟩ := Option.map_eq_some_iff.mp h
  obtain rfl : log' = log := log_ext (exec_labels hexec) heq
  exact ⟨s, .of_exec .start hexec⟩

end Logs

/-- Process 1 writes `b` to its stack and exits. -/
def deadBefore (b : UInt8) : List Logged :=
  [⟨some (0, 0), .exec sampleProgram, .exec 1⟩,
    ⟨some (0, 0), .run 1 0, .other⟩,
    ⟨some (1, 0), .write 128 [b] 0, .write 1 128 [b]⟩,
    ⟨some (1, 0), .exit, .other⟩,
    ⟨none, .run 0 0, .other⟩]

/-- A new process 1 reads its stack. -/
def deadAfter (b : UInt8) : List Logged :=
  [⟨some (0, 0), .exec sampleProgram, .exec 1⟩,
    ⟨some (0, 0), .run 1 0, .other⟩,
    ⟨some (1, 0), .read 128 1 0, .read 1 128 [b]⟩]

theorem differ_dead (b b' : UInt8) :
    DifferInDeadBytes (deadBefore b) (deadBefore b') (deadAfter b) (deadAfter b') := by
  constructor
  · refine ⟨.inl ⟨rfl, rfl, rfl⟩, .inl ⟨rfl, rfl, rfl⟩, .inr ⟨rfl, rfl, ⟨rfl, rfl, rfl⟩, ?_⟩,
      .inl ⟨rfl, rfl, rfl⟩, .inl ⟨rfl, rfl, rfl⟩, trivial⟩
    exact ⟨_, List.mem_cons_self, rfl, rfl⟩
  · exact .cons ⟨rfl, rfl, rfl⟩ (.cons ⟨rfl, rfl, rfl⟩ (.cons ⟨rfl, rfl, rfl⟩ .nil))

/-- Process 1 writes `b` to its data and exits; process 2 then gets its frame. -/
def cleanBefore (b : UInt8) : List Logged :=
  [⟨some (0, 0), .exec sampleProgram, .exec 1⟩,
    ⟨some (0, 0), .exec sampleProgram, .exec 2⟩,
    ⟨some (0, 0), .run 1 0, .other⟩,
    ⟨some (1, 0), .write 4 [b] 0, .write 1 4 [b]⟩,
    ⟨some (1, 0), .exit, .other⟩,
    ⟨none, .run 2 0, .other⟩,
    ⟨some (2, 0), .read 4 1 0, .read 2 4 [5]⟩,
    ⟨some (2, 0), .run 0 0, .other⟩]

/-- A new process 1 reads its data and its stack. -/
def cleanAfter (b z : UInt8) : List Logged :=
  [⟨some (0, 0), .exec sampleProgram, .exec 1⟩,
    ⟨some (0, 0), .run 1 0, .other⟩,
    ⟨some (1, 0), .read 4 1 0, .read 1 4 [b]⟩,
    ⟨some (1, 0), .read 128 1 0, .read 1 128 [z]⟩]

theorem differ_clean (d d' b b' z z' : UInt8) : DifferInDeadBytes (cleanBefore d) (cleanBefore d')
    (cleanAfter b z) (cleanAfter b' z') := by
  constructor
  · refine ⟨.inl ⟨rfl, rfl, rfl⟩, .inl ⟨rfl, rfl, rfl⟩, .inl ⟨rfl, rfl, rfl⟩,
      .inr ⟨rfl, rfl, ⟨rfl, rfl, rfl⟩, ?_⟩, .inl ⟨rfl, rfl, rfl⟩, .inl ⟨rfl, rfl, rfl⟩,
      .inl ⟨rfl, rfl, rfl⟩, .inl ⟨rfl, rfl, rfl⟩, trivial⟩
    exact ⟨_, List.mem_cons_self, rfl, rfl⟩
  · exact .cons ⟨rfl, rfl, rfl⟩ (.cons ⟨rfl, rfl, rfl⟩
      (.cons ⟨rfl, rfl, rfl⟩ (.cons ⟨rfl, rfl, rfl⟩ .nil)))

end Nachos.VM
