import Mathlib
import Nachos.Lib.CInt
import Nachos.VM.Runs

/-!
# Where the stacks of a process lie

The stack of the main thread is the last eight pages that the constructor asks for, and
every forked thread gets eight more behind all others. Which pages they are is not kept: a
thread computes the first one back from its stack pointer, in the arithmetic of `int`.

A process is followed through its forks and exits. In between anything may happen
to single page entries, as long as the table keeps its length.
-/

namespace Nachos.VM

open Nachos.Lib Nachos.Userprog

/-! ## The process -/

/-- A thread that has run: the first page of the region made for it, and what it knows. -/
structure StackThread where
  first : ℕ
  startVPN : ℤ
  stackReg : ℕ
  exited : Bool
deriving DecidableEq

/-- The pages made for its stack. -/
def StackThread.region (t : StackThread) : Set ℕ := Set.Ico t.first (t.first + 8)

/-- A process: `waiting` threads are forked and have not run yet. -/
structure StackProcess where
  space : AddrSpace
  bm : BitMap
  threads : List StackThread
  waiting : ℕ
  childThreadCounter : ℕ

/-- `InitRegisters` and `IncrementStackSpace`: `numPages * PageSize - 16`, which is unsigned. -/
def stackRegister (numPages : ℕ) : ℕ := word (numPages * pageSize - 16)

/-- The page that `kernel_thread` computes from the `int` it is given. -/
def startPage (newBottomOfStackVaddr : ℤ) : ℤ :=
  divRoundUpInt (newBottomOfStackVaddr - 1024) pageSize

namespace StackProcess

/-- A process whose main thread has started. -/
def create (x : Executable) : StackProcess where
  space := .create x
  bm := fun _ => false
  threads := [⟨x.firstThreadStartVPN, x.firstThreadStartVPN,
    stackRegister (AddrSpace.create x).numPages, false⟩]
  waiting := 0
  childThreadCounter := 1

/-- `Fork_Syscall`. -/
def fork (p : StackProcess) : StackProcess :=
  { p with waiting := p.waiting + 1, childThreadCounter := p.childThreadCounter + 1 }

/-- The thread whose stack is the last in `space`. -/
def lastThread (space : AddrSpace) : StackThread :=
  ⟨space.numPages - 8, startPage (signed (stackRegister space.numPages)),
    stackRegister space.numPages, false⟩

/-- `kernel_thread`; `none` when the subtraction overflows. -/
def kernelThread (p : StackProcess) : Option StackProcess :=
  let space := p.space.incrementStackSpace
  if p.waiting = 0 ∨ signed (stackRegister space.numPages) - 1024 < -2 ^ 31 then none
  else some { p with
    space
    threads := p.threads ++ [lastThread space]
    waiting := p.waiting - 1 }

/-- `Exit_Syscall` of thread `i`, which is not the last one; `none` when the table is used at a
negative index. -/
def exitSyscall (p : StackProcess) (i : ℕ) : Option StackProcess :=
  match p.threads[i]? with
  | none => none
  | some t =>
      let p' := { p with
        threads := p.threads.set i { t with exited := true }
        childThreadCounter := p.childThreadCounter - 1 }
      if t.exited ∨ p.childThreadCounter - 1 = 0 then none
      -- `currentThread != p->MainThread`
      else if i = 0 then some p'
      else if t.startVPN < 0 then none
      else
        let (space, bm) := p.space.decreaseStackSpace p.bm 8 t.startVPN.toNat
        some { p' with space, bm }

/-- What happens next; `entry` is an assignment to a page entry by a fault or an eviction. -/
inductive Label where
  | fork
  | start
  | exit (i : ℕ)
  | entry (vpn : ℕ) (e : PageEntry)

def step (p : StackProcess) (l : Label) : Option (StackProcess × Label) :=
  (match l with
    | .fork => some p.fork
    | .start => p.kernelThread
    | .exit i => p.exitSyscall i
    | .entry vpn e =>
        if vpn < p.space.numPages then some { p with space := p.space.setEntry vpn e }
        else none).map (·, l)

end StackProcess

/-! ## The layout -/

/-- **The stacks are where they should be**, behind the `base` pages of the program. -/
structure Laid (base : ℕ) (p : StackProcess) : Prop where
  disjoint : p.threads.Pairwise fun t u => Disjoint t.region u.region
  inside : ∀ t ∈ p.threads, t.region ⊆ Set.Ico base p.space.numPages
  startVPN : ∀ t ∈ p.threads, t.startVPN = t.first
  pointer : ∀ t ∈ p.threads, t.stackReg / pageSize = t.first + 7

/-- A thread is started only while addresses behind its stack fit into an `int`. -/
def AddressesFit (_ : List StackProcess.Label) (p : StackProcess) (l : StackProcess.Label) : Prop :=
  l = .start → (p.space.numPages + 8) * pageSize ≤ 2 ^ 31

section Arithmetic

variable {n : ℕ}

/-- The stack pointer is 16 bytes below the end of the last page. -/
theorem stackRegister_page (h : (n + 8) * pageSize ≤ 2 ^ 32) :
    stackRegister (n + 8) / pageSize = n + 7 := by
  unfold stackRegister word pageSize at *
  omega

/-- Below 2 GiB the page computed back is the first of the eight. -/
theorem startPage_eq (h : (n + 8) * pageSize ≤ 2 ^ 31) :
    startPage (signed (stackRegister (n + 8))) = n ∧
      ¬ signed (stackRegister (n + 8)) - 1024 < -2 ^ 31 := by
  have hbottom : signed (stackRegister (n + 8)) = n * 128 + 1008 := by
    have heq : (((n + 8 : ℕ) * pageSize - 16 : ℤ)) = n * 128 + 1008 := by
      unfold pageSize
      omega
    rw [stackRegister, heq]
    unfold pageSize at h
    exact signed_word (by omega)
  rw [hbottom]
  constructor
  · cases n with
    | zero => decide
    | succ n =>
        unfold startPage
        have hcases := divRoundUpInt_cases (((n + 1 : ℕ) : ℤ) * 128 + 1008 - 1024)
          (show 0 < pageSize by decide)
        unfold pageSize at *
        omega
  · omega

end Arithmetic

/-! ## Steps -/

/-- **What forks and exits do to the page table**: a new stack leaves the entries before it as they
are, and an exit takes the eight pages of its own stack out of memory and no others. -/
structure TableKept (p : StackProcess) : Prop where
  start : ∀ p', p.kernelThread = some p' → p'.space.numPages = p.space.numPages + 8 ∧
    ∀ v < p.space.numPages, p'.space.pageTable v = p.space.pageTable v
  exit : ∀ i t, 0 < i → p.threads[i]? = some t → t.exited = false → 1 < p.childThreadCounter →
    ∃ p', p.exitSyscall i = some p' ∧ p'.space.numPages = p.space.numPages ∧
      (∀ v ∈ t.region, p'.space.pageTable v = { p.space.pageTable v with valid := false }) ∧
      ∀ v ∉ t.region, p'.space.pageTable v = p.space.pageTable v

section Steps

open StackProcess

variable {base i : ℕ} {p p' : StackProcess} {t : StackThread}

theorem kernelThread_eq (h : p.kernelThread = some p') :
    p' = { p with
      space := p.space.incrementStackSpace
      threads := p.threads ++ [lastThread p.space.incrementStackSpace]
      waiting := p.waiting - 1 } := by
  simp only [StackProcess.kernelThread] at h
  split at h
  · cases h
  · exact (Option.some.inj h).symm

theorem create_laid (x : Executable) (hx : (x.firstThreadStartVPN + 8) * pageSize ≤ 2 ^ 32) :
    Laid x.firstThreadStartVPN (.create x) := by
  constructor
  case disjoint => exact List.pairwise_singleton ..
  all_goals
    intro t ht
    obtain rfl := List.mem_singleton.mp ht
  case inside => exact subset_rfl
  case startVPN => rfl
  case pointer => exact stackRegister_page hx

/-- Only the threads and the length of the table matter. -/
theorem Laid.congr (h : Laid base p) (hn : p'.space.numPages = p.space.numPages)
    (hths : p'.threads = p.threads) : Laid base p' := by
  constructor
  case disjoint => rw [hths]; exact h.disjoint
  case inside => rw [hths, hn]; exact h.inside
  case startVPN => rw [hths]; exact h.startVPN
  case pointer => rw [hths]; exact h.pointer

/-- The new stack lies behind all pages so far. -/
theorem Laid.kernelThread (h : Laid base p) (hbase : base ≤ p.space.numPages)
    (hfit : (p.space.numPages + 8) * pageSize ≤ 2 ^ 31) (hstep : p.kernelThread = some p') :
    Laid base p' := by
  obtain rfl := kernelThread_eq hstep
  have hmem : ∀ {P : StackThread → Prop}, (∀ t ∈ p.threads, P t) →
      P (lastThread p.space.incrementStackSpace) →
      ∀ t ∈ p.threads ++ [lastThread p.space.incrementStackSpace], P t := by
    intro P hold hnew t ht
    rcases List.mem_append.mp ht with ht | ht
    · exact hold t ht
    · obtain rfl := List.mem_singleton.mp ht
      exact hnew
  constructor
  case disjoint =>
    refine List.pairwise_append.mpr ⟨h.disjoint, List.pairwise_singleton .., ?_⟩
    intro t ht u hu
    obtain rfl := List.mem_singleton.mp hu
    refine Set.disjoint_of_subset_left (h.inside t ht) ?_
    exact Set.disjoint_left.mpr fun v hv hv' => Nat.not_lt.mpr hv'.1 hv.2
  case inside =>
    refine hmem (fun t ht => (h.inside t ht).trans ?_) ?_
    · exact Set.Ico_subset_Ico_right (Nat.le_add_right _ 8)
    · exact Set.Ico_subset_Ico_left hbase
  case startVPN => exact hmem h.startVPN (startPage_eq hfit).1
  case pointer => exact hmem h.pointer (stackRegister_page (hfit.trans (by decide)))

theorem exitSyscall_eq (h : p.exitSyscall i = some p') : ∃ t, p.threads[i]? = some t ∧
    p'.threads = p.threads.set i { t with exited := true } ∧
    p'.space.numPages = p.space.numPages := by
  unfold StackProcess.exitSyscall at h
  split at h
  · cases h
  · rename_i t ht
    dsimp only at h
    split at h
    · cases h
    · split at h
      · obtain rfl := Option.some.inj h
        exact ⟨t, ht, rfl, rfl⟩
      · split at h
        · cases h
        · rw [decreaseStackSpace_eq] at h
          obtain rfl := Option.some.inj h
          exact ⟨t, ht, rfl, rfl⟩

/-- An exit leaves the stacks where they are, also its own. -/
theorem Laid.exitSyscall (h : Laid base p) (hstep : p.exitSyscall i = some p') : Laid base p' := by
  obtain ⟨t, ht, hths, hn⟩ := exitSyscall_eq hstep
  have hmem : ∀ u ∈ p'.threads, ∃ w ∈ p.threads, u.first = w.first ∧ u.startVPN = w.startVPN ∧
      u.stackReg = w.stackReg := by
    intro u hu
    rw [hths] at hu
    rcases List.mem_or_eq_of_mem_set hu with hu | rfl
    · exact ⟨u, hu, rfl, rfl, rfl⟩
    · exact ⟨t, List.mem_of_getElem? ht, rfl, rfl, rfl⟩
  constructor
  case disjoint =>
    have hregions : p'.threads.map StackThread.region = p.threads.map StackThread.region := by
      obtain ⟨hlt, rfl⟩ := List.getElem?_eq_some_iff.mp ht
      have hlt' : i < (p.threads.map StackThread.region).length := by
        rwa [List.length_map]
      have hsame := List.set_getElem_self hlt'
      rw [List.getElem_map] at hsame
      rw [hths, List.map_set]
      exact hsame
    have hpairs := List.pairwise_map.mpr h.disjoint
    rw [← hregions] at hpairs
    exact List.pairwise_map.mp hpairs
  case inside =>
    intro u hu
    obtain ⟨w, hw, hfirst, -, -⟩ := hmem u hu
    rw [hn, StackThread.region, hfirst]
    exact h.inside w hw
  case startVPN =>
    intro u hu
    obtain ⟨w, hw, hfirst, hstart, -⟩ := hmem u hu
    rw [hstart, hfirst]
    exact h.startVPN w hw
  case pointer =>
    intro u hu
    obtain ⟨w, hw, hfirst, -, hreg⟩ := hmem u hu
    rw [hreg, hfirst]
    exact h.pointer w hw

theorem Laid.tableKept (h : Laid base p) : TableKept p := by
  constructor
  case start =>
    intro p' hstep
    obtain rfl := kernelThread_eq hstep
    refine ⟨rfl, fun v hv => ?_⟩
    exact if_pos hv
  case exit =>
    intro i t hi ht halive hcounter
    have hstart := h.startVPN t (List.mem_of_getElem? ht)
    have htoNat : t.startVPN.toNat = t.first := by
      rw [hstart]
      rfl
    have hexit : p.exitSyscall i = some { p with
        space := (p.space.decreaseStackSpace p.bm 8 t.first).1
        bm := (p.space.decreaseStackSpace p.bm 8 t.first).2
        threads := p.threads.set i { t with exited := true }
        childThreadCounter := p.childThreadCounter - 1 } := by
      unfold StackProcess.exitSyscall
      rw [ht]
      dsimp only
      rw [if_neg (by simp [halive]; omega), if_neg (by omega), if_neg (by omega), htoNat]
    rw [decreaseStackSpace_eq] at hexit
    refine ⟨_, hexit, rfl, ?_, ?_⟩
    · intro v hv
      exact if_pos hv
    · intro v hv
      exact if_neg hv

end Steps

/-! ## Runs -/

section Runs

variable {base : ℕ} {p p' : StackProcess} {l e : StackProcess.Label} {tr : List StackProcess.Label}

/-- A step keeps the layout, and the table never gets shorter. -/
theorem step_laid (h : Laid base p ∧ base ≤ p.space.numPages) (hok : AddressesFit tr p l)
    (hstep : StackProcess.step p l = some (p', e)) : Laid base p' ∧ base ≤ p'.space.numPages := by
  obtain ⟨hlaid, hbase⟩ := h
  obtain ⟨q, hq, heq⟩ := Option.map_eq_some_iff.mp hstep
  obtain ⟨rfl, -⟩ := Prod.mk.inj heq
  cases l with
  | fork =>
      obtain rfl := Option.some.inj hq
      exact ⟨hlaid.congr rfl rfl, hbase⟩
  | start =>
      refine ⟨hlaid.kernelThread hbase (hok rfl) hq, ?_⟩
      obtain rfl := kernelThread_eq hq
      exact hbase.trans (Nat.le_add_right _ 8)
  | exit i =>
      refine ⟨hlaid.exitSyscall hq, ?_⟩
      obtain ⟨-, -, -, hn⟩ := exitSyscall_eq hq
      rwa [hn]
  | entry vpn e =>
      dsimp only at hq
      split at hq
      · obtain rfl := Option.some.inj hq
        exact ⟨hlaid.congr rfl rfl, hbase⟩
      · cases hq

/-- **The stacks of a process**: as long as addresses fit into an `int`, no two stacks share a page,
all are behind the program and in the address space, every thread knows its own, and forks and exits
change no other entries of the page table. -/
theorem stack_layout {x : Executable} (hx : (x.firstThreadStartVPN + 8) * pageSize ≤ 2 ^ 32)
    (hrun : Run StackProcess.step AddressesFit (.create x) tr p) :
    Laid x.firstThreadStartVPN p ∧ TableKept p := by
  have h : Laid x.firstThreadStartVPN p ∧ x.firstThreadStartVPN ≤ p.space.numPages := by
    refine Run.invariant (I := fun _ p => Laid x.firstThreadStartVPN p ∧
      x.firstThreadStartVPN ≤ p.space.numPages) ⟨create_laid x hx, Nat.le_add_right _ _⟩ ?_ hrun
    intro tr p l p' e h hok hstep
    exact step_laid h hok hstep
  exact ⟨h.1, h.1.tableKept⟩

theorem stack_layout_sample : ∃ p,
    Run StackProcess.step AddressesFit (.create (bssOnly 300)) [.fork, .start] p ∧
      Laid 3 p ∧ TableKept p := by
  have hfork : Run StackProcess.step AddressesFit (.create (bssOnly 300)) [.fork] _ :=
    .snoc (l := StackProcess.Label.fork) .start nofun rfl
  have hrun : Run StackProcess.step AddressesFit (.create (bssOnly 300)) [.fork, .start] _ :=
    .snoc (l := StackProcess.Label.start) hfork (fun _ => by decide) rfl
  exact ⟨_, hrun, stack_layout (x := bssOnly 300) (by decide) hrun⟩

/-- A program of almost 2 GiB: the stack pointer of the first thread it forks is negative as an
`int`, and so is the page computed back from it. -/
theorem stack_above_int : ∃ p t,
    Run StackProcess.step anyStep (.create (bssOnly (2 ^ 31 - 128))) [.fork, .start] p ∧
    t ∈ p.threads ∧ t.first = 16777223 ∧ t.startVPN = -16777209 ∧
    ¬ Laid (bssOnly (2 ^ 31 - 128)).firstThreadStartVPN p := by
  have hfork : Run StackProcess.step anyStep (.create (bssOnly (2 ^ 31 - 128))) [.fork] _ :=
    .snoc (l := StackProcess.Label.fork) .start trivial rfl
  have hrun : Run StackProcess.step anyStep (.create (bssOnly (2 ^ 31 - 128))) [.fork, .start] _ :=
    .snoc (l := StackProcess.Label.start) hfork trivial rfl
  refine ⟨_, _, hrun, List.mem_append_right _ List.mem_cons_self, by decide, by decide, ?_⟩
  intro h
  have hstart := h.startVPN _ (List.mem_append_right _ List.mem_cons_self)
  revert hstart
  decide

end Runs

end Nachos.VM
