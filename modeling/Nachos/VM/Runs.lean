import Nachos.VM.Steps

/-!
# Every run

Exits may leave pages behind in every table the kernel keeps. The frames of the
live processes are in order all the same, whatever the exits did: this file
proves it for all runs. It also cuts a step into the pieces that the accounts of
the memory manager are about: an access is a series of faults, each of which
reloads the TLB or brings one page into one frame, and an exit gives up pages of
one process.
-/

namespace Nachos.VM

open Nachos.Userprog Nachos.Lib

/-! ## Stacks are in range -/

/-- The eight pages of every stack are pages of the process. -/
def Process.StacksFit (p : Process) : Prop :=
  ∀ th ∈ p.threads, ∀ start ∈ th.startVPN, start + 8 ≤ p.space.numPages

def Vm.StacksFit (s : Vm) : Prop := ∀ pid p, s.processTable.get pid = some p → p.StacksFit

namespace Process.StacksFit

theorem create (x : Executable) : (Process.create x).StacksFit := by
  intro th hth start hstart
  obtain rfl := List.mem_singleton.mp hth
  obtain rfl := Option.some.inj hstart
  exact Nat.le_refl _

variable {p : Process}

theorem fork (h : p.StacksFit) (n : ℕ) : Process.StacksFit { p with
    threads := p.threads ++ [⟨none, false⟩], childThreadCounter := n } := by
  intro th hth start hstart
  rcases List.mem_append.mp hth with hth | hth
  · exact h th hth start hstart
  · obtain rfl := List.mem_singleton.mp hth
    cases hstart

/-- The stack of a forked thread is the eight pages added for it. -/
theorem stack_start (n : ℕ) : divRoundUp ((n + 8) * pageSize - 16 - 1024) pageSize + 8 = n + 8 := by
  unfold divRoundUp pageSize
  split <;> omega

theorem start (h : p.StacksFit) (tid : ℕ) : Process.StacksFit { p with
    space := p.space.incrementStackSpace
    threads := p.threads.set tid ⟨some (divRoundUp
      (p.space.incrementStackSpace.stackStartVirtualAddress - 1024) pageSize), false⟩ } := by
  intro th hth start hstart
  show start + 8 ≤ p.space.numPages + 8
  rcases List.mem_or_eq_of_mem_set hth with hth | rfl
  · exact Nat.le_add_right_of_le (h th hth start hstart)
  · obtain rfl := Option.some.inj hstart
    exact Nat.le_of_eq (stack_start p.space.numPages)

/-- An exit marks the thread and changes nothing about the stacks. -/
theorem exit (h : p.StacksFit) {tid start : ℕ} {fin : Bool}
    (hth : p.threads[tid]? = some ⟨some start, fin⟩) {space : AddrSpace}
    (hn : space.numPages = p.space.numPages) (n : ℕ) :
    Process.StacksFit ⟨space, p.threads.set tid ⟨some start, true⟩, n⟩ := by
  intro th hmem start' hstart
  show start' + 8 ≤ space.numPages
  rw [hn]
  rcases List.mem_or_eq_of_mem_set hmem with hmem | rfl
  · exact h th hmem start' hstart
  · obtain rfl := Option.some.inj hstart
    exact h _ (List.mem_of_getElem? hth) start rfl

end Process.StacksFit

section StacksFit

variable {s t : Vm} {pid : ℤ}

theorem Vm.StacksFit.store (h : s.StacksFit) {p p' : Process}
    (hp : s.processTable.get pid = some p)
    (ht : t.processTable = s.processTable.store pid p') (hp' : p'.StacksFit) : t.StacksFit := by
  intro pid' q hq
  rw [ht] at hq
  by_cases hpid : pid' = pid
  · subst hpid
    rw [Table.get_store_self p' hp] at hq
    exact Option.some.inj hq ▸ hp'
  · rw [Table.get_store_of_ne p' hp hpid] at hq
    exact h pid' q hq

/-- Faults do not touch the stacks. -/
theorem Vm.StacksFit.outline (h : s.StacksFit) (ht : t.outline = s.outline) : t.StacksFit := by
  intro pid q hq
  obtain ⟨p, hp, -, hn, hths⟩ := get_of_outline ht hq
  have hfits := h pid p hp
  unfold Process.StacksFit at hfits ⊢
  rwa [← hths, ← hn]

end StacksFit

/-! ## Faults -/

/-- Faults on page `vpn` of process `pid` have been handled: it was brought into the
frames `fs`, in order, each time evicting another page when memory was full. -/
inductive Served (pid : ℤ) (vpn : ℕ) (s : Vm) : List ℕ → Vm → Prop
  | refl : Served pid vpn s [] s
  | hit {fs : List ℕ} {t : Vm} (ppn : ℕ) : Served pid vpn s fs t → Served pid vpn s fs (addTLB t ppn)
  | load {fs : List ℕ} {t u v : Vm} {rand f : ℕ} {x : Executable} {e : PageEntry}
      {contents : Page} : Served pid vpn s fs t → Frames none t → findFrame t rand = some (u, f) →
      u.page pid vpn = some (x, e) → e.valid = false →
      Installed u pid vpn f x e contents v → Served pid vpn s (fs ++ [f]) v

theorem Frames.addTLB {s : Vm} (h : Frames none s) (ppn : ℕ) : Frames none (addTLB s ppn) :=
  ⟨h.resident, h.occupied, h.hole_taken, h.queued, h.queue_lt, h.code_fits, h.table_size,
    h.table_free, h.boxes⟩

theorem findFrame_outline {s t : Vm} {rand f : ℕ} (hfr : Frames none s)
    (h : findFrame s rand = some (t, f)) :
    t.outline = s.outline ∧ t.threadsLeft = s.threadsLeft ∧ t.policy = s.policy := by
  rcases findFrame_cases hfr h with ⟨-, rfl⟩ | ⟨-, -, loc, hev⟩
  · exact ⟨rfl, rfl, rfl⟩
  · exact ⟨hev.outline, hev.threadsLeft, hev.policy⟩

namespace Served

variable {pid : ℤ} {vpn : ℕ} {s t u : Vm} {fs gs : List ℕ}

theorem trans (h : Served pid vpn s fs t) (h' : Served pid vpn t gs u) :
    Served pid vpn s (fs ++ gs) u := by
  induction h' with
  | refl => rwa [List.append_nil]
  | hit ppn _ ih => exact .hit ppn ih
  | load _ hfr hfind hp hv hins ih =>
      rw [← List.append_assoc]
      exact .load ih hfr hfind hp hv hins

theorem frames (h : Served pid vpn s fs t) (hfr : Frames none s) : Frames none t := by
  induction h with
  | refl => exact hfr
  | hit ppn _ ih => exact ih.addTLB ppn
  | load _ hfr' hfind hp hv hins _ => exact (hfr'.findFrame hfind).installed hp hv hins

theorem outline (h : Served pid vpn s fs t) :
    t.outline = s.outline ∧ t.threadsLeft = s.threadsLeft ∧ t.policy = s.policy := by
  induction h with
  | refl => exact ⟨rfl, rfl, rfl⟩
  | hit ppn _ ih => exact ih
  | load _ hfr hfind _ _ hins ih =>
      obtain ⟨hout, hleft, hpol⟩ := findFrame_outline hfr hfind
      exact ⟨hins.outline.trans (hout.trans ih.1), hins.threadsLeft.trans (hleft.trans ih.2.1),
        hins.policy.trans (hpol.trans ih.2.2)⟩

end Served

/-- The frame that a fault brings its page into. -/
def faultLoads (s : Vm) (pid : ℤ) (vaddr rand : ℕ) : List ℕ :=
  match findIPTIndex s pid (vaddr / pageSize) with
  | none => ((findFrame s rand).map Prod.snd).toList
  | some _ => []

/-- The frames that the faults of an access bring pages into. -/
def accessLoads (pid : ℤ) (vaddr size : ℕ) (writing : Bool) (rand : ℕ) : (tries : ℕ) → Vm → List ℕ
  | 0, _ => []
  | tries + 1, s =>
      match translate s vaddr size writing with
      | .error .pageFault =>
          match updateTLB s pid vaddr rand with
          | none => []
          | some t => faultLoads s pid vaddr rand ++ accessLoads pid vaddr size writing rand tries t
      | _ => []

section Access

variable {s t : Vm} {pid : ℤ} {vaddr rand : ℕ}

/-- **A fault** reloads the TLB or brings one page in. -/
theorem served_updateTLB (hfr : Frames none s) (h : updateTLB s pid vaddr rand = some t) :
    Served pid (vaddr / pageSize) s (faultLoads s pid vaddr rand) t := by
  cases hfind : findIPTIndex s pid (vaddr / pageSize) with
  | none =>
      simp only [updateTLB, hfind] at h
      obtain ⟨x, e, hp⟩ := page_of_updateIPT h
      have hv := findIPTIndex_none hfr hp hfind
      obtain ⟨u, f, hu, hpu, hins⟩ := updateIPT_cases hfr hp hv h
      simp only [faultLoads, hfind, hu]
      exact Served.load .refl hfr hu hpu hv hins
  | some ppn =>
      simp only [updateTLB, hfind, Option.some.injEq] at h
      subst h
      simp only [faultLoads, hfind]
      exact .hit ppn .refl

/-- **An access** is a series of faults. -/
theorem served_access {size frame tries : ℕ} {writing : Bool} (hfr : Frames none s)
    (h : access pid vaddr size writing rand tries s = some (t, frame)) :
    Served pid (vaddr / pageSize) s (accessLoads pid vaddr size writing rand tries s) t := by
  induction tries generalizing s with
  | zero => cases h
  | succ tries ih =>
      rw [access] at h
      rw [accessLoads]
      split at h
      · rename_i htr
        simp only [Option.some.injEq, Prod.mk.injEq] at h
        obtain ⟨rfl, -⟩ := h
        rw [htr]
        exact .refl
      · rename_i htr
        rw [htr]
        split at h
        · cases h
        · split at h
          · cases h
          · rename_i u hu
            have hserved := served_updateTLB hfr hu
            simp only [hu]
            exact hserved.trans (ih (hserved.frames hfr) h)
      · cases h

end Access

/-! ## Exits -/

section Spaces

variable {a : AddrSpace} {bm : BitMap} {left i : ℕ}

/-- The frames that `DeleteSpace` leaves in use. -/
theorem deleteSpace_iff (f : ℕ) : a.deleteSpace left i bm f = true ↔ bm f = true ∧
    ∀ v, i ≤ v → v < i + left → (a.pageTable v).valid = true → (a.pageTable v).physicalPage ≠ f := by
  induction left generalizing i bm with
  | zero =>
      simp only [AddrSpace.deleteSpace, iff_self_and]
      intro _ v hle hlt
      omega
  | succ left ih =>
      rw [AddrSpace.deleteSpace, ih]
      have hhead : (if (a.pageTable i).valid then bm.clear (a.pageTable i).physicalPage else bm) f =
          true ↔ bm f = true ∧ ((a.pageTable i).valid = true → (a.pageTable i).physicalPage ≠ f) := by
        by_cases hv : (a.pageTable i).valid = true
        · by_cases hf : f = (a.pageTable i).physicalPage
          · subst hf
            simp [hv]
          · simp [hv, hf, Ne.symm hf]
        · simp [hv]
      rw [hhead, and_assoc]
      refine and_congr_right fun _ => ?_
      constructor
      · rintro ⟨hfirst, hrest⟩ v hle hlt
        rcases Nat.eq_or_lt_of_le hle with rfl | hgt
        · exact hfirst
        · exact hrest v hgt (by omega)
      · intro hall
        exact ⟨hall i (Nat.le_refl i) (by omega), fun v hle hlt => hall v (by omega) (by omega)⟩

/-- `DeleteSpace` looks at the entries in its range only. -/
theorem deleteSpace_congr {b : AddrSpace}
    (h : ∀ v, i ≤ v → v < i + left → a.pageTable v = b.pageTable v) :
    a.deleteSpace left i bm = b.deleteSpace left i bm := by
  induction left generalizing i bm with
  | zero => rfl
  | succ left ih =>
      rw [AddrSpace.deleteSpace, AddrSpace.deleteSpace, h i (Nat.le_refl i) (by omega)]
      exact ih fun v hle hlt => h v (by omega) (by omega)

/-- `DecreaseStackSpace` frees the frames of its pages as `DeleteSpace` does, and
takes the pages out of memory. -/
theorem decreaseStackSpace_eq : a.decreaseStackSpace bm left i =
    ({ a with pageTable := fun v =>
      if i ≤ v ∧ v < i + left then { a.pageTable v with valid := false } else a.pageTable v },
      a.deleteSpace left i bm) := by
  induction left generalizing a bm i with
  | zero =>
      have hnone : ∀ v, ¬ (i ≤ v ∧ v < i + 0) := by
        intro v
        omega
      simp only [AddrSpace.decreaseStackSpace, AddrSpace.deleteSpace, hnone, if_false]
  | succ left ih =>
      have hlater : ∀ v, i + 1 ≤ v → (a.setEntry i { a.pageTable i with valid := false }).pageTable v =
          a.pageTable v := by
        intro v hv
        exact Function.update_of_ne (by omega) _ _
      rw [AddrSpace.decreaseStackSpace, ih, AddrSpace.deleteSpace,
        deleteSpace_congr fun v hle _ => hlater v hle]
      congr 1
      refine congrArg (AddrSpace.mk a.exec a.numPages) ?_
      funext v
      by_cases hv : v = i
      · subst hv
        rw [if_neg (by omega), if_pos (by omega)]
        exact Function.update_self ..
      · rw [show (a.setEntry i { a.pageTable i with valid := false }).pageTable v = a.pageTable v from
          Function.update_of_ne hv _ _]
        exact if_congr (by omega) rfl rfl

end Spaces

/-- The exit of thread `tid` gives page `vpn` up: all pages go with the last thread,
eight with another one that is not the main thread. -/
def Process.GivesUp (p : Process) (tid vpn : ℕ) : Prop :=
  p.childThreadCounter - 1 = 0 ∨
    tid ≠ 0 ∧ ∃ th ∈ p.threads[tid]?, ∃ start ∈ th.startVPN, start ≤ vpn ∧ vpn < start + 8

instance (p : Process) (tid vpn : ℕ) : Decidable (p.GivesUp tid vpn) :=
  inferInstanceAs (Decidable (_ ∨ _))

/-- What an exit of thread `tid` of process `p` with number `pid` does. Pages that
are given up lose their frames and nothing else. -/
structure Released (pid : ℤ) (tid : ℕ) (p : Process) (s t : Vm) : Prop where
  kept : ∀ {pid' vpn}, ¬ (pid' = pid ∧ p.GivesUp tid vpn) → t.page pid' vpn = s.page pid' vpn
  gone : ∀ {vpn}, p.GivesUp tid vpn → t.page pid vpn =
    if p.childThreadCounter - 1 = 0 then none
    else (s.page pid vpn).map fun (x, e) => (x, { e with valid := false })
  bm : ∀ f, t.bm f = true ↔ s.bm f = true ∧ ∀ vpn x e, p.GivesUp tid vpn →
    s.page pid vpn = some (x, e) → e.valid = true → e.physicalPage ≠ f
  ipt : t.ipt = s.ipt
  sfBM : t.sfBM = s.sfBM
  policy : t.policy = s.policy
  fifoQueue : t.fifoQueue = s.fifoQueue
  outline : ∀ {pid' x n ths}, t.outline pid' = some (x, n, ths) →
    ∃ ths', s.outline pid' = some (x, n, ths')
  table_size : t.processTable.size = s.processTable.size
  threadCounter : t.threadCounter = s.threadCounter

section Exit

variable {s t : Vm} {pid : ℤ} {tid : ℕ} {p : Process}

/-- The frames given up by a range of pages. -/
theorem freed_of_range {i left f : ℕ} (hp : s.processTable.get pid = some p)
    (hin : i + left ≤ p.space.numPages)
    (hrange : ∀ vpn < p.space.numPages, p.GivesUp tid vpn ↔ i ≤ vpn ∧ vpn < i + left) :
    p.space.deleteSpace left i s.bm f = true ↔ s.bm f = true ∧ ∀ vpn x e, p.GivesUp tid vpn →
      s.page pid vpn = some (x, e) → e.valid = true → e.physicalPage ≠ f := by
  rw [deleteSpace_iff]
  refine and_congr_right fun _ => ?_
  constructor
  · intro h vpn x e hgone hpage hv
    obtain ⟨q, hq, hlt, -, rfl⟩ := get_of_page hpage
    obtain rfl : p = q := Option.some.inj (hp.symm.trans hq)
    obtain ⟨hle, hlt'⟩ := (hrange vpn hlt).mp hgone
    exact h vpn hle hlt' hv
  · intro h vpn hle hlt hv
    have hn : vpn < p.space.numPages := Nat.lt_of_lt_of_le hlt hin
    refine h vpn p.space.exec _ ((hrange vpn hn).mpr ⟨hle, hlt⟩) ?_ hv
    rw [page_of_get hp, if_pos hn]

/-- **The last thread** takes the process along. -/
theorem released_process (hp : s.processTable.get pid = some p)
    (hlast : p.childThreadCounter - 1 = 0) : Released pid tid p s { s with
      processTable := (s.processTable.remove pid).2
      bm := p.space.deleteSpace p.space.numPages 0 s.bm
      current := none } := by
  have hall : ∀ vpn, p.GivesUp tid vpn := fun vpn => .inl hlast
  constructor
  case kept =>
    intro pid' vpn hkept
    have hpid : pid' ≠ pid := fun heq => hkept ⟨heq, hall vpn⟩
    rw [page_remove pid' vpn rfl, if_neg hpid]
  case gone =>
    intro vpn _
    rw [page_remove pid vpn rfl, if_pos rfl, if_pos hlast]
  case bm =>
    intro f
    refine freed_of_range hp (Nat.le_of_eq (Nat.zero_add _)) ?_
    intro vpn hvpn
    exact iff_of_true (hall vpn) ⟨Nat.zero_le vpn, by omega⟩
  case outline =>
    intro pid' x n ths hout
    simp only [Vm.outline, Table.get_remove] at hout
    split at hout
    · cases hout
    · exact ⟨ths, hout⟩
  case table_size => exact Table.remove_size ..
  all_goals rfl

/-- **Another thread** gives up the pages from `i` on. -/
theorem released_thread {start i left : ℕ} {fin : Bool} {n : ℕ}
    (hp : s.processTable.get pid = some p) (hmore : p.childThreadCounter - 1 ≠ 0)
    (hin : i + left ≤ p.space.numPages)
    (hrange : ∀ vpn, p.GivesUp tid vpn ↔ i ≤ vpn ∧ vpn < i + left) :
    Released pid tid p s { s with
      processTable := s.processTable.store pid ⟨⟨p.space.exec, p.space.numPages, fun v =>
        if i ≤ v ∧ v < i + left then { p.space.pageTable v with valid := false }
        else p.space.pageTable v⟩, p.threads.set tid ⟨some start, fin⟩, n⟩
      bm := p.space.deleteSpace left i s.bm
      current := none } := by
  constructor
  case kept =>
    intro pid' vpn hkept
    rw [page_store hp rfl]
    split
    · rename_i hpid
      subst hpid
      have hout : ¬ (i ≤ vpn ∧ vpn < i + left) := fun hr => hkept ⟨rfl, (hrange vpn).mpr hr⟩
      rw [page_of_get hp]
      simp only [if_neg hout]
    · rfl
  case gone =>
    intro vpn hgone
    rw [page_store hp rfl, if_pos rfl, if_neg hmore, page_of_get hp]
    simp only [if_pos ((hrange vpn).mp hgone)]
    split <;> rfl
  case bm =>
    intro f
    exact freed_of_range hp hin fun vpn _ => hrange vpn
  case outline =>
    intro pid' x n' ths hout
    rw [outline_store hp rfl] at hout
    split at hout
    · rename_i hpid
      subst hpid
      simp only [Option.some.injEq, Prod.mk.injEq] at hout
      obtain ⟨rfl, rfl, -⟩ := hout
      exact ⟨p.threads, outline_of_get hp⟩
    · exact ⟨ths, hout⟩
  all_goals rfl

/-- **An exit** gives pages up. -/
theorem released_exit (hfits : s.StacksFit) (h : exitSyscall s pid tid = some t) :
    ∃ p, s.processTable.get pid = some p ∧ Released pid tid p s t := by
  obtain ⟨p, hp, ⟨hlast, rfl⟩ | ⟨hmore, start, fin, hth, space, bm, hdec, rfl⟩⟩ :=
    exitSyscall_cases h
  · exact ⟨p, hp, released_process hp hlast⟩
  · refine ⟨p, hp, ?_⟩
    by_cases htid : tid = 0
    · -- the main thread gives up nothing: an empty range of pages
      rw [if_neg (not_not.mpr htid)] at hdec
      obtain ⟨rfl, rfl⟩ := Prod.mk.inj hdec
      have hempty : ∀ v, ¬ (0 ≤ v ∧ v < 0 + 0) := by
        intro v
        omega
      have hrange : ∀ vpn, p.GivesUp tid vpn ↔ 0 ≤ vpn ∧ vpn < 0 + 0 := by
        intro vpn
        simp [Process.GivesUp, hmore, htid]
      have hrel := @released_thread _ _ _ _ start 0 0 true (p.childThreadCounter - 1) hp hmore
        (Nat.zero_le _) hrange
      simp only [hempty, if_false] at hrel
      exact hrel
    · rw [if_pos htid, decreaseStackSpace_eq] at hdec
      obtain ⟨rfl, rfl⟩ := Prod.mk.inj hdec
      refine released_thread hp hmore (hfits pid p hp _ (List.mem_of_getElem? hth) start rfl) ?_
      intro vpn
      simp [Process.GivesUp, hmore, htid, hth]

/-- An exit leaves the stacks of the other threads where they are. -/
theorem Vm.StacksFit.exit (h : s.StacksFit) (he : exitSyscall s pid tid = some t) :
    t.StacksFit := by
  obtain ⟨p, hp, ⟨-, rfl⟩ | ⟨-, start, fin, hth, space, bm, hdec, rfl⟩⟩ := exitSyscall_cases he
  · intro pid' q hq
    rw [Table.get_remove] at hq
    split at hq
    · cases hq
    · exact h pid' q hq
  · refine h.store hp rfl ((h _ p hp).exit hth ?_ _)
    split at hdec
    · rw [decreaseStackSpace_eq] at hdec
      rw [(Prod.mk.inj hdec).1]
    · rw [(Prod.mk.inj hdec).1]

section Released

variable {vpn : ℕ} {x : Executable} {e : PageEntry}

/-- A page in memory after an exit was there before and is not given up. -/
theorem Released.valid_back (hr : Released pid tid p s t) {pid' : ℤ}
    (hp : t.page pid' vpn = some (x, e)) (hv : e.valid = true) :
    ¬ (pid' = pid ∧ p.GivesUp tid vpn) ∧ s.page pid' vpn = some (x, e) := by
  have hkept : ¬ (pid' = pid ∧ p.GivesUp tid vpn) := by
    rintro ⟨rfl, hgone⟩
    rw [hr.gone hgone] at hp
    split at hp
    · cases hp
    · obtain ⟨xe, -, heq⟩ := Option.map_eq_some_iff.mp hp
      obtain ⟨-, rfl⟩ := Prod.mk.inj heq
      cases hv
  exact ⟨hkept, (hr.kept hkept).symm.trans hp⟩

/-- The frame of a page that stays is in use. -/
theorem Released.in_use (hr : Released pid tid p s t) (hfr : Frames none s) {pid' : ℤ}
    (hkept : ¬ (pid' = pid ∧ p.GivesUp tid vpn)) (hp : s.page pid' vpn = some (x, e))
    (hv : e.valid = true) : t.bm e.physicalPage = true := by
  refine (hr.bm _).mpr ⟨(hfr.resident hp hv).2.1, ?_⟩
  intro vpn' x' e' hgone hp' hv' heq
  obtain ⟨rfl, rfl⟩ := hfr.frame_inj hp hp' hv hv' heq
  exact hkept ⟨rfl, hgone⟩

theorem Frames.released (h : Frames none s) (hr : Released pid tid p s t) : Frames none t := by
  constructor
  case resident =>
    intro pid' vpn x e hp hv
    obtain ⟨hkept, hp'⟩ := hr.valid_back hp hv
    obtain ⟨hlt, -, -, hmaps⟩ := h.resident hp' hv
    rw [hr.ipt]
    exact ⟨hlt, hr.in_use h hkept hp' hv, by simp, hmaps⟩
  case occupied =>
    intro f hf hb _
    obtain ⟨hb', hother⟩ := (hr.bm f).mp hb
    obtain ⟨x, e, hp, hv, heq⟩ := h.occupied hf hb' (by simp)
    rw [hr.ipt]
    refine ⟨x, e, ?_, hv, heq⟩
    rw [hr.kept]
    · exact hp
    · rintro ⟨hpid, hgone⟩
      rw [hpid] at hp
      exact hother _ x e hgone hp hv heq
  case hole_taken =>
    rintro f ⟨⟩
  case queued =>
    intro hpol f hf hb hh
    rw [hr.policy] at hpol
    rw [hr.fifoQueue]
    exact h.queued hpol hf ((hr.bm f).mp hb).1 hh
  case queue_lt =>
    rw [hr.policy, hr.fifoQueue]
    exact h.queue_lt
  case code_fits =>
    intro pid' x n ths hout
    obtain ⟨ths', hout'⟩ := hr.outline hout
    exact h.code_fits hout'
  case table_size => exact hr.table_size.trans h.table_size
  case table_free =>
    intro i hi
    rw [hr.threadCounter] at hi
    by_contra hsome
    obtain ⟨q, hq⟩ := Option.ne_none_iff_exists'.mp hsome
    obtain ⟨ths, hout⟩ := hr.outline (outline_of_get hq)
    rw [Vm.outline, h.table_free hi] at hout
    cases hout
  case boxes =>
    rw [hr.threadCounter]
    exact h.boxes

end Released

end Exit

/-! ## Steps and runs -/

/-- What every run keeps. -/
structure Sound (s : Vm) : Prop where
  frames : Frames none s
  fits : s.StacksFit

section Steps

variable {s t : Vm} {l : Label} {ev : Event}

theorem Vm.StacksFit.step (h : s.StacksFit) (hfr : Frames none s)
    (hs : VM.step s l = some (t, ev)) : t.StacksFit := by
  cases Step.of_step hs with
  | @exec x c t pid hcur hx =>
      obtain ⟨-, hsome, hrest, -⟩ := execSyscall_cases hfr hx
      intro pid' q hq
      by_cases hpid : pid' = pid
      · subst hpid
        obtain rfl := Option.some.inj (hsome.symm.trans hq)
        exact .create x
      · rw [hrest pid' hpid] at hq
        exact h pid' q hq
  | fork _ hf =>
      obtain ⟨p, hp, rfl⟩ := forkSyscall_cases hf
      exact h.store hp rfl ((h _ p hp).fork _)
  | start hk =>
      obtain ⟨p, hp, -, rfl⟩ := kernelThread_cases hk
      exact h.store hp rfl ((h _ p hp).start _)
  | run hr =>
      obtain ⟨p, start, -, -, rfl⟩ := schedulerRun_cases hr
      exact h
  | read hcur ha => exact h.outline (served_access hfr ha).outline.1
  | write hcur ha => exact h.outline (served_access hfr ha).outline.1
  | exit hcur he => exact h.exit he

/-- Writing to memory leaves everything but the memory. -/
theorem Frames.writeBytes (h : Frames none s) (frame vaddr : ℕ) (bytes : List UInt8) :
    Frames none (writeBytes s frame vaddr bytes) :=
  ⟨h.resident, h.occupied, h.hole_taken, h.queued, h.queue_lt, h.code_fits, h.table_size,
    h.table_free, h.boxes⟩

theorem Sound.step (h : Sound s) (hs : VM.step s l = some (t, ev)) : Sound t := by
  refine ⟨?_, h.fits.step h.frames hs⟩
  have hfr := h.frames
  cases Step.of_step hs with
  | exec _ hx => exact hfr.reshaped (extended_exec hfr hx).toReshaped
  | fork _ hf => exact hfr.reshaped (extended_fork hfr hf).toReshaped
  | start hk => exact hfr.reshaped (extended_start hfr hk).toReshaped
  | run hr => exact hfr.reshaped (extended_run hfr hr).toReshaped
  | read _ ha => exact (served_access hfr ha).frames hfr
  | write _ ha => exact ((served_access hfr ha).frames hfr).writeBytes ..
  | exit _ he =>
      obtain ⟨p, -, hr⟩ := released_exit h.fits he
      exact hfr.released hr

end Steps

theorem Sound.boot (policy : Policy) (tlb : ℕ → TranslationEntry) (ipt : ℕ → IptEntry)
    (swapFile : ℕ → Page) (x : Executable) : Sound (boot policy tlb ipt swapFile x) := by
  refine ⟨(Inv.boot policy tlb ipt swapFile x).frames, ?_⟩
  intro pid p hp
  obtain rfl := boot_process hp
  exact .create x

end Nachos.VM
