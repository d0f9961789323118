import Nachos.VM.Runs

/-!
# The inverted page table across exits

The inverted page table says for every frame whose page it holds. It has to agree
with the page tables of the live processes and with the frame bit map, since the
fault handler asks it alone. An exit clears bits of the map and invalidates page
entries but leaves the inverted entries as they are, so the agreement is kept
exactly by the exits that give up no page in memory.

Pages of a finished thread's stack stay in range of the page table, and a later
access by another thread of the process brings them back.
-/

namespace Nachos.VM

open Nachos.Userprog Nachos.Lib

/-! ## Coherence -/

/-- One of the eight stack pages of a thread that has exited. -/
def Process.DeadStack (p : Process) (vpn : ℕ) : Prop :=
  ∃ th ∈ p.threads, th.finished = true ∧ ∃ start ∈ th.startVPN, start ≤ vpn ∧ vpn < start + 8

instance (p : Process) (vpn : ℕ) : Decidable (p.DeadStack vpn) :=
  inferInstanceAs (Decidable (∃ th ∈ p.threads, _))

/-- Page `vpn` of process `pid` is in the stack of a thread that has exited. -/
def Vm.DeadStack (s : Vm) (pid : ℤ) (vpn : ℕ) : Prop :=
  ∃ p ∈ s.processTable.get pid, p.DeadStack vpn

instance (s : Vm) (pid : ℤ) (vpn : ℕ) : Decidable (s.DeadStack pid vpn) :=
  inferInstanceAs (Decidable (∃ p ∈ s.processTable.get pid, _))

/-- Process `pid` is live and its page `vpn` is valid, in frame `f`. -/
def Vm.Resident (s : Vm) (pid : ℤ) (vpn f : ℕ) : Prop :=
  ∃ p, s.processTable.get pid = some p ∧ vpn < p.space.numPages ∧
    (p.space.pageTable vpn).valid = true ∧ (p.space.pageTable vpn).physicalPage = f

/-- **The inverted page table is coherent** with page tables and bit map. What
`findIPTIndex` returns is then a frame in use, of this page and no other, and not
of a dead stack. -/
structure Coherent (s : Vm) : Prop where
  maps_iff : ∀ f < numPhysPages, ∀ pid vpn, (s.ipt f).Maps pid vpn ↔ s.Resident pid vpn f
  in_use : ∀ f < numPhysPages, ∀ pid vpn, (s.ipt f).Maps pid vpn → s.bm f = true
  found : ∀ {pid vpn k}, findIPTIndex s pid vpn = some k →
    s.bm k = true ∧ (∀ pid' vpn', s.Resident pid' vpn' k → pid' = pid ∧ vpn' = vpn) ∧
      ¬ s.DeadStack pid vpn

section Resident

variable {s t : Vm} {pid : ℤ} {vpn f : ℕ}

theorem resident_iff_page :
    s.Resident pid vpn f ↔
      ∃ x e, s.page pid vpn = some (x, e) ∧ e.valid = true ∧ e.physicalPage = f := by
  constructor
  · rintro ⟨p, hp, hlt, hv, rfl⟩
    refine ⟨p.space.exec, p.space.pageTable vpn, ?_, hv, rfl⟩
    rw [page_of_get hp, if_pos hlt]
  · rintro ⟨x, e, hpage, hv, rfl⟩
    obtain ⟨p, hp, hlt, -, rfl⟩ := get_of_page hpage
    exact ⟨p, hp, hlt, hv, rfl⟩

/-- Faults leave the dead stacks. -/
theorem deadStack_of_outline (h : t.outline = s.outline) (hd : t.DeadStack pid vpn) :
    s.DeadStack pid vpn := by
  obtain ⟨q, hq, hd⟩ := hd
  obtain ⟨p, hp, -, -, hths⟩ := get_of_outline h hq
  refine ⟨p, hp, ?_⟩
  unfold Process.DeadStack at hd ⊢
  rwa [hths]

end Resident

/-! ## Dead stacks are not in memory -/

/-- Stacks are in range, and those of dead threads are not in memory. -/
structure Process.Tidy (p : Process) : Prop where
  dead : ∀ vpn < p.space.numPages, p.DeadStack vpn → (p.space.pageTable vpn).valid = false
  fits : ∀ th ∈ p.threads, ∀ start ∈ th.startVPN, start + 8 ≤ p.space.numPages

def Vm.Tidy (s : Vm) : Prop := ∀ {pid p}, s.processTable.get pid = some p → p.Tidy

namespace Process.Tidy

theorem create (x : Executable) : (Process.create x).Tidy := by
  constructor
  · rintro vpn _ ⟨th, hth, hfin, -⟩
    obtain rfl := List.mem_singleton.mp hth
    cases hfin
  · exact StacksFit.create x

variable {p : Process}

theorem fork (h : p.Tidy) (n : ℕ) :
    Process.Tidy { p with threads := p.threads ++ [⟨none, false⟩], childThreadCounter := n } := by
  constructor
  · rintro vpn hvpn ⟨th, hth, hfin, hstart⟩
    rcases List.mem_append.mp hth with hth | hth
    · exact h.dead vpn hvpn ⟨th, hth, hfin, hstart⟩
    · obtain rfl := List.mem_singleton.mp hth
      cases hfin
  · exact StacksFit.fork h.fits n

theorem start (h : p.Tidy) (tid : ℕ) :
    Process.Tidy { p with
      space := p.space.incrementStackSpace
      threads := p.threads.set tid ⟨some (divRoundUp
        (p.space.incrementStackSpace.stackStartVirtualAddress - 1024) pageSize), false⟩ } := by
  constructor
  · rintro vpn - ⟨th, hth, hfin, hstart⟩
    show (if vpn < p.space.numPages then p.space.pageTable vpn else .fresh).valid = false
    split
    · rename_i hlt
      rcases List.mem_or_eq_of_mem_set hth with hth | rfl
      · exact h.dead vpn hlt ⟨th, hth, hfin, hstart⟩
      · cases hfin
    · rfl
  · exact StacksFit.start h.fits tid

theorem exit (h : p.Tidy) {tid start : ℕ} {fin : Bool}
    (hth : p.threads[tid]? = some ⟨some start, fin⟩)
    (hclean : ∀ i < 8, (p.space.pageTable (start + i)).valid = false) (n : ℕ) :
    Process.Tidy { p with
      threads := p.threads.set tid ⟨some start, true⟩
      childThreadCounter := n } := by
  constructor
  · rintro vpn hvpn ⟨th, hmem, hfin, hstart⟩
    rcases List.mem_or_eq_of_mem_set hmem with hmem | rfl
    · exact h.dead vpn hvpn ⟨th, hmem, hfin, hstart⟩
    · obtain ⟨start', heq, hle, hlt⟩ := hstart
      obtain rfl := Option.some.inj heq
      have hvalid := hclean (vpn - start) (by omega)
      rwa [Nat.add_sub_cancel' hle] at hvalid
  · exact StacksFit.exit h.fits hth rfl n

end Process.Tidy

section Tidy

variable {s t : Vm} {pid : ℤ} {vpn : ℕ}

theorem Vm.Tidy.store (h : s.Tidy) {p p' : Process} (hp : s.processTable.get pid = some p)
    (ht : t.processTable = s.processTable.store pid p') (hp' : p'.Tidy) : t.Tidy := by
  intro pid' q hq
  rw [ht] at hq
  by_cases hpid : pid' = pid
  · subst hpid
    rw [Table.get_store_self p' hp] at hq
    exact Option.some.inj hq ▸ hp'
  · rw [Table.get_store_of_ne p' hp hpid] at hq
    exact h hq

/-- Faults bring in the page accessed and no other. -/
theorem Vm.Tidy.faulted (h : s.Tidy) (hf : Faulted pid vpn s t) (hok : ¬ s.DeadStack pid vpn) :
    t.Tidy := by
  intro pid' q hq
  obtain ⟨p, hp, -, hn, hths⟩ := get_of_outline hf.outline hq
  constructor
  · intro vpn' hvpn hdead
    have hdead' := deadStack_of_outline hf.outline ⟨q, hq, hdead⟩
    by_contra hv
    have hpage : t.page pid' vpn' = some (q.space.exec, q.space.pageTable vpn') := by
      rw [page_of_get hq, if_pos hvpn]
    rcases hf.brought hpage (by simpa using hv) with ⟨rfl, rfl⟩ | ⟨e', hpage', hv'⟩
    · exact hok hdead'
    · obtain ⟨p', hp', hlt, -, rfl⟩ := get_of_page hpage'
      obtain ⟨p'', hp'', hdead'⟩ := hdead'
      obtain rfl : p' = p'' := Option.some.inj (hp'.symm.trans hp'')
      rw [(h hp').dead vpn' hlt hdead'] at hv'
      cases hv'
  · rw [← hths, ← hn]
    exact (h hp).fits

/-- **Coherence** is what the invariant says of the inverted page table. -/
theorem Coherent.of_inv (hinv : Inv none s) (h : s.Tidy) : Coherent s := by
  constructor
  case maps_iff =>
    intro f hf pid vpn
    rw [resident_iff_page]
    constructor
    · exact hinv.mapped hf (by simp)
    · rintro ⟨x, e, hp, hv, rfl⟩
      exact (hinv.resident hp hv).2.2.2
  case in_use =>
    intro f hf pid vpn hmaps
    obtain ⟨x, e, hp, hv, rfl⟩ := hinv.mapped hf (by simp) hmaps
    exact (hinv.resident hp hv).2.1
  case found =>
    intro pid vpn k hk
    obtain ⟨hlt, hmaps⟩ := findIPTIndex_some hk
    obtain ⟨x, e, hp, hv, rfl⟩ := hinv.mapped hlt (by simp) hmaps
    refine ⟨(hinv.resident hp hv).2.1, ?_, ?_⟩
    · intro pid' vpn' hres
      obtain ⟨x', e', hp', hv', heq⟩ := resident_iff_page.mp hres
      exact hinv.frames.frame_inj hp hp' hv hv' heq
    · rintro ⟨p, hget, hdead⟩
      obtain ⟨p', hget', hvpn, -, rfl⟩ := get_of_page hp
      obtain rfl : p = p' := Option.some.inj (hget.symm.trans hget')
      rw [(h hget).dead vpn hvpn hdead] at hv
      cases hv

end Tidy

/-! ## Clean steps -/

/-- The running thread accesses no page of a dead stack. -/
def CleanAccess (s : Vm) : Label → Prop
  | .read vaddr _ _ | .write vaddr _ _ => ∀ c ∈ s.current, ¬ s.DeadStack c.1 (vaddr / pageSize)
  | _ => True

/-- Exits give up no page in memory, and accesses keep out of dead stacks. -/
def cleanStep : List Event → Vm → Label → Prop := fun _ s l => CleanExit s l ∧ CleanAccess s l

instance (s : Vm) (l : Label) : Decidable (CleanExit s l) :=
  inferInstanceAs (Decidable (_ → ∀ c ∈ s.current, _))

instance (s : Vm) : (l : Label) → Decidable (CleanAccess s l)
  | .read .. | .write .. => inferInstanceAs (Decidable (∀ c ∈ s.current, _))
  | .exec _ | .fork | .start .. | .run .. | .exit => inferInstanceAs (Decidable True)

instance (tr : List Event) (s : Vm) (l : Label) : Decidable (cleanStep tr s l) :=
  inferInstanceAs (Decidable (_ ∧ _))

section Steps

variable {s t : Vm} {l : Label} {ev : Event}

/-- **A clean step** keeps dead stacks out of memory. -/
theorem Vm.Tidy.step (h : s.Tidy) (hinv : Inv none s) (hexit : CleanExit s l)
    (haccess : CleanAccess s l) (hs : VM.step s l = some (t, ev)) : t.Tidy := by
  cases Step.of_step hs with
  | @exec x c t pid hcur hx =>
      obtain ⟨-, hsome, hrest, -⟩ := execSyscall_cases hinv.frames hx
      intro pid' q hq
      by_cases hpid : pid' = pid
      · subst hpid
        obtain rfl := Option.some.inj (hsome.symm.trans hq)
        exact .create x
      · rw [hrest pid' hpid] at hq
        exact h hq
  | fork _ hf =>
      obtain ⟨p, hp, rfl⟩ := forkSyscall_cases hf
      exact h.store hp rfl ((h hp).fork _)
  | start hk =>
      obtain ⟨p, hp, -, rfl⟩ := kernelThread_cases hk
      exact h.store hp rfl ((h hp).start _)
  | run hr =>
      obtain ⟨p, start, -, -, rfl⟩ := schedulerRun_cases hr
      exact h
  | read hcur ha => exact h.faulted (access_some hinv hcur ha).1 (haccess _ hcur)
  | write hcur ha => exact h.faulted (access_some hinv hcur ha).1 (haccess _ hcur)
  | exit hcur he =>
      obtain ⟨p, hp, -⟩ := exitSyscall_cases he
      rcases exitSyscall_clean hp (hexit rfl _ hcur _ hp) he with
        ⟨rfl, -⟩ | ⟨start, fin, hth, hclean, rfl⟩
      · intro pid' q hq
        rw [Table.get_remove] at hq
        split at hq
        · cases hq
        · exact h hq
      · exact h.store hp rfl ((h hp).exit hth hclean _)

/-- In coherent tables no page of a dead stack is mapped. -/
theorem Coherent.not_deadStack {pid : ℤ} {vpn f : ℕ} (h : Coherent s) (hf : f < numPhysPages)
    (hmaps : (s.ipt f).Maps pid vpn) : ¬ s.DeadStack pid vpn := by
  obtain ⟨k, hk⟩ := findIPTIndex_isSome hf hmaps
  exact (h.found hk).2.2

/-- An access maps its page, so coherence afterwards tells that the page was not
of a dead stack. -/
theorem not_deadStack_of_access {pid : ℤ} {tid vaddr size rand frame tries : ℕ} {writing : Bool}
    (hinv : Inv none s) (hcur : s.current = some (pid, tid))
    (ha : access pid vaddr size writing rand tries s = some (t, frame))
    (h : ∀ {f}, f < numPhysPages → (t.ipt f).Maps pid (vaddr / pageSize) →
      ¬ t.DeadStack pid (vaddr / pageSize)) :
    ∀ c ∈ s.current, ¬ s.DeadStack c.1 (vaddr / pageSize) := by
  intro c hc hdead
  obtain rfl := Option.some.inj (hcur.symm.trans hc)
  obtain ⟨hf, -, x, e, hp, hv, -⟩ := access_some hinv hcur ha
  obtain ⟨hlt, -, -, hmaps⟩ := hf.inv.resident hp hv
  exact h hlt hmaps (deadStack_of_outline hf.outline.symm hdead)

theorem CleanAccess.of_coherent (hinv : Inv none s) (hs : VM.step s l = some (t, ev))
    (hc : Coherent t) : CleanAccess s l := by
  cases Step.of_step hs with
  | exec | fork | start | run | exit => trivial
  | read hcur ha =>
      apply not_deadStack_of_access hinv hcur ha
      intro f hf hmaps
      exact hc.not_deadStack hf hmaps
  | write hcur ha =>
      -- a write touches none of the tables
      apply not_deadStack_of_access hinv hcur ha
      intro f hf hmaps
      exact hc.not_deadStack hf hmaps

/-- **An exit that leaves the tables coherent is clean**: a page in memory that is
given up stays in the inverted page table. -/
theorem ExitClean.of_coherent {pid : ℤ} {tid : ℕ} {p : Process} (hinv : Inv none s)
    (htidy : s.Tidy) (hp : s.processTable.get pid = some p)
    (h : exitSyscall s pid tid = some t) (hc : Coherent t) : ExitClean p tid := by
  have hmaps : ∀ {vpn}, vpn < p.space.numPages → ¬ (p.space.pageTable vpn).valid = false →
      ∃ f < numPhysPages, (s.ipt f).Maps pid vpn := by
    intro vpn hlt hv
    have hpage : s.page pid vpn = some (p.space.exec, p.space.pageTable vpn) := by
      rw [page_of_get hp, if_pos hlt]
    obtain ⟨hf, -, -, hmaps⟩ := hinv.resident hpage (by simpa using hv)
    exact ⟨_, hf, hmaps⟩
  obtain ⟨q, hq, hcases⟩ := exitSyscall_cases h
  obtain rfl : p = q := Option.some.inj (hp.symm.trans hq)
  unfold ExitClean
  rcases hcases with ⟨hzero, rfl⟩ | ⟨hne, start, fin, hth, space, bm, -, rfl⟩
  · rw [if_pos hzero]
    intro vpn hlt
    by_contra hv
    obtain ⟨f, hf, hmaps⟩ := hmaps hlt hv
    obtain ⟨q, hq, -⟩ := (hc.maps_iff f hf pid vpn).mp hmaps
    rw [Table.get_remove, if_pos rfl] at hq
    cases hq
  · -- now the stack is dead, whether or not it was given up
    rw [if_neg hne]
    intro th hth' start' hstart i hi
    obtain rfl := Option.some.inj (hth.symm.trans hth')
    obtain rfl := Option.some.inj hstart
    have hfits := (htidy hp).fits _ (List.mem_of_getElem? hth) start rfl
    by_contra hv
    obtain ⟨f, hf, hmaps⟩ := hmaps (by omega) hv
    refine hc.not_deadStack hf hmaps ⟨_, Table.get_store_self _ hp, ?_⟩
    refine ⟨⟨some start, true⟩, ?_, rfl, start, rfl, by omega, by omega⟩
    exact List.mem_set (List.getElem?_eq_some_iff.mp hth).1 _

theorem CleanExit.of_coherent (hinv : Inv none s) (htidy : s.Tidy)
    (hs : VM.step s l = some (t, ev)) (hc : Coherent t) : CleanExit s l := by
  rintro hexit c hcur p hp
  cases Step.of_step hs with
  | exec | fork | start | run | read | write => cases hexit
  | exit hcur' he =>
      obtain rfl := Option.some.inj (hcur'.symm.trans hcur)
      exact .of_coherent hinv htidy hp he hc

end Steps

/-! ## Runs -/

theorem Vm.Tidy.boot (policy : Policy) (tlb : ℕ → TranslationEntry) (ipt : ℕ → IptEntry)
    (swapFile : ℕ → Page) (x : Executable) : (boot policy tlb ipt swapFile x).Tidy := by
  intro pid p hp
  obtain rfl := boot_process hp
  exact .create x

end Nachos.VM
