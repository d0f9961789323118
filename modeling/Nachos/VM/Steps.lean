import Nachos.VM.Faults

/-!
# The invariant along runs

Every step of the machine is one of seven kinds. Accesses handle faults and then
touch one frame; the other kinds change which pages there are but bring none into
memory, and one lemma serves them all. An exit keeps the invariant when nothing
it gives up is in memory.
-/

namespace Nachos.VM

open Nachos.Userprog

/-! ## The steps -/

/-- The steps by kind. -/
inductive Step (s : Vm) : Label → Vm → Event → Prop
  | exec {x : Executable} {c : ℤ × ℕ} {t : Vm} {pid : ℤ} (hcur : s.current = some c)
      (h : execSyscall s x = some (t, pid)) : Step s (.exec x) t (.exec pid)
  | fork {pid : ℤ} {tid : ℕ} {t : Vm} (hcur : s.current = some (pid, tid))
      (h : forkSyscall s pid = some t) : Step s .fork t .other
  | start {pid : ℤ} {tid : ℕ} {t : Vm} (h : kernelThread s pid tid = some t) :
      Step s (.start pid tid) t .other
  | run {pid : ℤ} {tid : ℕ} {t : Vm} (h : schedulerRun s pid tid = some t) :
      Step s (.run pid tid) t .other
  | read {pid : ℤ} {tid vaddr size rand frame : ℕ} {t : Vm} (hcur : s.current = some (pid, tid))
      (h : access pid vaddr size false rand maxTries s = some (t, frame)) :
      Step s (.read vaddr size rand) t (.read pid vaddr (readBytes t frame vaddr size))
  | write {pid : ℤ} {tid vaddr rand frame : ℕ} {bytes : List UInt8} {t : Vm}
      (hcur : s.current = some (pid, tid))
      (h : access pid vaddr bytes.length true rand maxTries s = some (t, frame)) :
      Step s (.write vaddr bytes rand) (writeBytes t frame vaddr bytes) (.write pid vaddr bytes)
  | exit {pid : ℤ} {tid : ℕ} {t : Vm} (hcur : s.current = some (pid, tid))
      (h : exitSyscall s pid tid = some t) : Step s .exit t .other

theorem Step.of_step {s t : Vm} {l : Label} {e : Event} (h : step s l = some (t, e)) :
    Step s l t e := by
  unfold step at h
  split at h
  case h_1 c hcur =>
    obtain ⟨⟨u, pid⟩, hu, heq⟩ := Option.map_eq_some_iff.mp h
    obtain ⟨rfl, rfl⟩ := Prod.mk.inj heq
    exact .exec hcur hu
  case h_2 pid tid hcur =>
    obtain ⟨u, hu, heq⟩ := Option.map_eq_some_iff.mp h
    obtain ⟨rfl, rfl⟩ := Prod.mk.inj heq
    exact .fork hcur hu
  case h_3 pid tid =>
    obtain ⟨u, hu, heq⟩ := Option.map_eq_some_iff.mp h
    obtain ⟨rfl, rfl⟩ := Prod.mk.inj heq
    exact .start hu
  case h_4 pid tid =>
    obtain ⟨u, hu, heq⟩ := Option.map_eq_some_iff.mp h
    obtain ⟨rfl, rfl⟩ := Prod.mk.inj heq
    exact .run hu
  case h_5 vaddr size rand pid tid hcur =>
    obtain ⟨⟨u, frame⟩, hu, heq⟩ := Option.map_eq_some_iff.mp h
    obtain ⟨rfl, rfl⟩ := Prod.mk.inj heq
    exact .read hcur hu
  case h_6 vaddr bytes rand pid tid hcur =>
    obtain ⟨⟨u, frame⟩, hu, heq⟩ := Option.map_eq_some_iff.mp h
    obtain ⟨rfl, rfl⟩ := Prod.mk.inj heq
    exact .write hcur hu
  case h_7 pid tid hcur =>
    obtain ⟨u, hu, heq⟩ := Option.map_eq_some_iff.mp h
    obtain ⟨rfl, rfl⟩ := Prod.mk.inj heq
    exact .exit hcur hu
  case h_8 => cases h

/-! ## Steps that bring no page in -/

/-- A page entry that has never been used, as its place in the executable asks. -/
structure PageEntry.Unused (e : PageEntry) (x : Executable) (vpn : ℕ) : Prop where
  invalid : e.valid = false
  not_swapped : e.status ≠ .swapFile
  located : if vpn < x.codeAndInitDataNumPages then
      e.status = .executable ∧ e.diskLocation = x.code.inFileAddr + vpn * pageSize
    else e.status = .neither

/-- Memory, swap file and what is kept about them are the same. -/
structure SameStore (s t : Vm) : Prop where
  bm : t.bm = s.bm
  ipt : t.ipt = s.ipt
  mainMemory : t.mainMemory = s.mainMemory
  sfBM : t.sfBM = s.sfBM
  swapFile : t.swapFile = s.swapFile
  policy : t.policy = s.policy
  fifoQueue : t.fifoQueue = s.fifoQueue

/-- The set of pages changes, but not what is in memory. -/
structure Reshaped (s t : Vm) : Prop extends SameStore s t where
  kept : ∀ {pid vpn x e}, s.page pid vpn = some (x, e) → e.valid = true →
    t.page pid vpn = some (x, e)
  source : ∀ {pid vpn x e}, t.page pid vpn = some (x, e) →
    s.page pid vpn = some (x, e) ∨ e.Unused x vpn
  tlb : ∀ {c i}, t.current = some c → i < tlbSize → (t.tlb i).valid = true →
    t.tlb = s.tlb ∧ t.current = s.current
  code_fits : ∀ {pid x n ths}, t.outline pid = some (x, n, ths) → x.codeAndInitDataNumPages ≤ n
  table_size : t.processTable.size = s.processTable.size
  table_free : ∀ {i : ℕ}, 1 + t.threadCounter / 2 ≤ i → t.processTable.get i = none
  boxes : t.threadCounter ≤ numBoxes

/-- Pages are added and none is taken away. -/
structure Extended (s t : Vm) : Prop extends Reshaped s t where
  persists : ∀ {pid vpn xe}, s.page pid vpn = some xe → t.page pid vpn = some xe
  same_exec : ∀ {pid x n ths}, s.outline pid = some (x, n, ths) →
    ∃ n' ths', t.outline pid = some (x, n', ths')
  added : ∀ {pid vpn x e}, s.page pid vpn = none → t.page pid vpn = some (x, e) → e.Unused x vpn

/-- A page in memory was there before. -/
theorem Reshaped.valid_back {s t : Vm} (ht : Reshaped s t) {pid : ℤ} {vpn : ℕ} {x : Executable}
    {e : PageEntry} (hp : t.page pid vpn = some (x, e)) (hv : e.valid = true) :
    s.page pid vpn = some (x, e) := by
  refine (ht.source hp).resolve_right ?_
  intro hun
  rw [hun.invalid] at hv
  cases hv

theorem Frames.reshaped {s t : Vm} (h : Frames none s) (ht : Reshaped s t) : Frames none t := by
  constructor
  case resident =>
    intro pid vpn x e hp hv
    rw [ht.bm, ht.ipt]
    exact h.resident (ht.valid_back hp hv) hv
  case occupied =>
    intro f hf hb hh
    rw [ht.bm] at hb
    rw [ht.ipt]
    obtain ⟨x, e, hp, hv, heq⟩ := h.occupied hf hb hh
    exact ⟨x, e, ht.kept hp hv, hv, heq⟩
  case hole_taken =>
    rintro f ⟨⟩
  case queued =>
    rw [ht.policy, ht.bm, ht.fifoQueue]
    exact h.queued
  case queue_lt =>
    rw [ht.policy, ht.fifoQueue]
    exact h.queue_lt
  case code_fits => exact ht.code_fits
  case table_size => exact ht.table_size.trans h.table_size
  case table_free => exact ht.table_free
  case boxes => exact ht.boxes

theorem Inv.reshaped {s t : Vm} (h : Inv none s) (ht : Reshaped s t) : Inv none t := by
  have hfr := h.frames.reshaped ht
  -- swapped pages were there before
  have hswap : ∀ {pid vpn x e}, t.page pid vpn = some (x, e) → e.Swapped →
      s.page pid vpn = some (x, e) := by
    intro pid vpn x e hp hs
    exact (ht.source hp).resolve_right fun hun => hun.not_swapped hs.2
  constructor
  case resident => exact hfr.resident
  case mapped =>
    intro f pid vpn hf hh hmaps
    rw [ht.ipt] at hmaps
    obtain ⟨x, e, hp, hv, heq⟩ := h.mapped hf hh hmaps
    exact ⟨x, e, ht.kept hp hv, hv, heq⟩
  case occupied =>
    rw [ht.bm, ht.ipt]
    exact h.occupied
  case free_zero =>
    rw [ht.bm, ht.mainMemory]
    exact h.free_zero
  case hole_zero =>
    rintro f ⟨⟩
  case queued => exact hfr.queued
  case queue_lt => exact hfr.queue_lt
  case swapped =>
    intro pid vpn x e hp hs
    rw [ht.sfBM]
    exact h.swapped (hswap hp hs) hs
  case swap_inj =>
    intro pid vpn x e pid' vpn' x' e' hp hp' hs hs' heq
    exact h.swap_inj (hswap hp hs) (hswap hp' hs') hs hs' heq
  case located =>
    intro pid vpn x e hp hst
    rcases ht.source hp with hp' | hun
    · exact h.located hp' hst
    · exact hun.located
  case tlb =>
    intro pid tid i hcur hi hv
    obtain ⟨htlb, hcur'⟩ := ht.tlb hcur hi hv
    rw [htlb] at hv ⊢
    rw [hcur'] at hcur
    obtain ⟨x, e, hp, hev, heq⟩ := h.tlb hcur hi hv
    exact ⟨x, e, ht.kept hp hev, hev, heq⟩
  case code_fits => exact ht.code_fits
  case table_size => exact ht.table_size.trans h.table_size
  case table_free => exact ht.table_free
  case boxes => exact ht.boxes

/-- What a page entry leads to is the same before and after. -/
theorem Reshaped.contents {s t : Vm} (ht : Reshaped s t) (x : Executable) (vpn : ℕ)
    (e : PageEntry) : t.contents x vpn e = s.contents x vpn e := by
  rw [Vm.contents, Vm.contents, ht.mainMemory, ht.swapFile]

theorem divRoundUp_le_divRoundUp {m n : ℕ} (h : m ≤ n) :
    divRoundUp m pageSize ≤ divRoundUp n pageSize := by
  unfold divRoundUp pageSize
  split <;> split <;> omega

/-- The pages of a new process. -/
theorem unused_create {x : Executable} (vpn : ℕ) :
    PageEntry.Unused ((AddrSpace.create x).pageTable vpn) x vpn := by
  simp only [AddrSpace.create]
  split
  · rename_i hlt
    exact ⟨rfl, by simp, by simp [hlt]⟩
  · rename_i hge
    exact ⟨rfl, by simp [PageEntry.fresh], by simp [hge, PageEntry.fresh]⟩

section Kinds

variable {s t : Vm} {pid : ℤ} {tid : ℕ}

/-- **`Exec`**: the process table has room, and the process gets a slot of its own. -/
theorem execSyscall_cases (hfr : Frames none s) {x : Executable}
    (h : execSyscall s x = some (t, pid)) :
    s.processTable.get pid = none ∧ t.processTable.get pid = some (.create x) ∧
      (∀ j, j ≠ pid → t.processTable.get j = s.processTable.get j) ∧
      pid ≤ (1 + s.threadCounter / 2 : ℕ) ∧ s.threadCounter + 1 < numBoxes ∧
      t = { s with
        processTable := t.processTable
        threadCounter := s.threadCounter + 2 } ∧
      t.processTable.size = s.processTable.size := by
  unfold execSyscall at h
  split at h
  · rename_i hbox
    simp only [Option.some.injEq, Prod.mk.injEq] at h
    obtain ⟨rfl, rfl⟩ := h
    have hk : 1 + s.threadCounter / 2 < s.processTable.size := by
      rw [hfr.table_size]
      unfold numBoxes at hbox
      omega
    obtain ⟨hnonneg, hle⟩ := Table.put_le (.create x) hk (hfr.table_free (Nat.le_refl _))
    have hne : (s.processTable.put (.create x)).1 ≠ -1 := by omega
    obtain ⟨hnone, hsome, hsize, hrest⟩ := Table.put_spec (Prod.mk.eta).symm hne
    exact ⟨hnone, hsome, hrest, hle, hbox, rfl, hsize⟩
  · cases h

/-- The pages after a process has been added. -/
theorem page_put {x : Executable} (hsome : t.processTable.get pid = some (.create x))
    (hrest : ∀ j, j ≠ pid → t.processTable.get j = s.processTable.get j) (pid' : ℤ) (vpn : ℕ) :
    t.page pid' vpn =
      if pid' = pid then
        if vpn < (AddrSpace.create x).numPages then some (x, (AddrSpace.create x).pageTable vpn)
        else none
      else s.page pid' vpn := by
  by_cases hpid : pid' = pid
  · subst hpid
    rw [if_pos rfl, page_of_get hsome]
    rfl
  · rw [if_neg hpid, Vm.page, Vm.page, hrest pid' hpid]

/-- **A new process** in an empty slot. -/
theorem extended_put (hfr : Frames none s) {x : Executable} (hsame : SameStore s t)
    (hnone : s.processTable.get pid = none) (hsome : t.processTable.get pid = some (.create x))
    (hrest : ∀ j, j ≠ pid → t.processTable.get j = s.processTable.get j)
    (hle : pid ≤ (t.threadCounter / 2 : ℕ)) (hmono : s.threadCounter ≤ t.threadCounter)
    (htlb : t.tlb = s.tlb ∧ t.current = s.current)
    (hsize : t.processTable.size = s.processTable.size) (hbox : t.threadCounter ≤ numBoxes) :
    Extended s t := by
  have hpage := page_put hsome hrest
  have hpersist : ∀ {pid' vpn xe}, s.page pid' vpn = some xe → t.page pid' vpn = some xe := by
    intro pid' vpn xe hp
    rw [hpage, if_neg ?_]
    · exact hp
    · rintro rfl
      rw [Vm.page, hnone] at hp
      cases hp
  have hsource : ∀ {pid' vpn x' e}, t.page pid' vpn = some (x', e) →
      s.page pid' vpn = some (x', e) ∨ e.Unused x' vpn := by
    intro pid' vpn x' e hp
    rw [hpage] at hp
    split at hp
    · split at hp
      · simp only [Option.some.injEq, Prod.mk.injEq] at hp
        obtain ⟨rfl, rfl⟩ := hp
        exact .inr (unused_create vpn)
      · cases hp
    · exact .inl hp
  constructor
  case toReshaped =>
    refine ⟨hsame, fun hp _ => hpersist hp, hsource, fun _ _ _ => htlb, ?_, hsize, ?_, hbox⟩
    · intro pid' x' n ths hout
      by_cases hpid : pid' = pid
      · subst hpid
        rw [outline_of_get hsome] at hout
        simp only [Option.some.injEq, Prod.mk.injEq] at hout
        obtain ⟨rfl, rfl, -⟩ := hout
        show x.codeAndInitDataNumPages ≤ x.firstThreadStartVPN + _
        exact Nat.le_add_right_of_le (divRoundUp_le_divRoundUp (Nat.le_add_right _ _))
      · rw [Vm.outline, hrest pid' hpid] at hout
        exact hfr.code_fits hout
    · intro i hi
      rw [hrest i (by omega)]
      exact hfr.table_free (by omega)
  case persists => exact hpersist
  case same_exec =>
    intro pid' x' n ths hout
    refine ⟨n, ths, ?_⟩
    rw [Vm.outline, hrest pid' ?_]
    · exact hout
    · rintro rfl
      rw [Vm.outline, hnone] at hout
      cases hout
  case added =>
    intro pid' vpn x' e hp hp'
    refine (hsource hp').resolve_left ?_
    rw [hp]
    simp

theorem extended_exec (hfr : Frames none s) {x : Executable} (h : execSyscall s x = some (t, pid)) :
    Extended s t := by
  obtain ⟨hnone, hsome, hrest, hle, hbox, ht, hsize⟩ := execSyscall_cases hfr h
  have hcount : t.threadCounter = s.threadCounter + 2 := by rw [ht]
  unfold numBoxes at hbox
  have hsame : SameStore s t := by
    rw [ht]
    exact ⟨rfl, rfl, rfl, rfl, rfl, rfl, rfl⟩
  have htlb : t.tlb = s.tlb ∧ t.current = s.current := by
    rw [ht]
    exact ⟨rfl, rfl⟩
  refine extended_put hfr hsame hnone hsome hrest ?_ ?_ htlb hsize ?_
  · omega
  · omega
  · unfold numBoxes
    omega

theorem outline_store {p p' : Process} (hp : s.processTable.get pid = some p)
    (ht : t.processTable = s.processTable.store pid p') (pid' : ℤ) :
    t.outline pid' =
      if pid' = pid then some (p'.space.exec, p'.space.numPages, p'.threads)
      else s.outline pid' := by
  by_cases h : pid' = pid
  · subst h
    rw [if_pos rfl, Vm.outline, ht, Table.get_store_self _ hp, Option.map_some]
  · rw [if_neg h, Vm.outline, Vm.outline, ht, Table.get_store_of_ne _ hp h]

/-- **A process with more pages**, all of them new and empty. -/
theorem extended_store (hfr : Frames none s) {p p' : Process}
    (hp : s.processTable.get pid = some p) (hsame : SameStore s t)
    (ht : t.processTable = s.processTable.store pid p') (hcount : t.threadCounter = s.threadCounter)
    (htlb : ∀ {c i}, t.current = some c → i < tlbSize → (t.tlb i).valid = true →
      t.tlb = s.tlb ∧ t.current = s.current)
    (hexec : p'.space.exec = p.space.exec) (hn : p.space.numPages ≤ p'.space.numPages)
    (hold : ∀ vpn < p.space.numPages, p'.space.pageTable vpn = p.space.pageTable vpn)
    (hnew : ∀ vpn, p.space.numPages ≤ vpn → vpn < p'.space.numPages →
      p'.space.pageTable vpn = .fresh) : Extended s t := by
  -- the new pages lie behind the executable's, so `fresh` is the right entry for them
  have hfits := hfr.code_fits (outline_of_get hp)
  have hpage := page_store hp ht
  have hpersist : ∀ {pid' vpn xe}, s.page pid' vpn = some xe → t.page pid' vpn = some xe := by
    rintro pid' vpn ⟨x, e⟩ hpg
    rw [hpage]
    split
    · rename_i heq
      subst heq
      obtain ⟨q, hq, hlt, rfl, rfl⟩ := get_of_page hpg
      obtain rfl : p = q := Option.some.inj (hp.symm.trans hq)
      rw [if_pos (Nat.lt_of_lt_of_le hlt hn), hexec, hold vpn hlt]
    · exact hpg
  have hsource : ∀ {pid' vpn x e}, t.page pid' vpn = some (x, e) →
      s.page pid' vpn = some (x, e) ∨ e.Unused x vpn := by
    intro pid' vpn x e hpg
    rw [hpage] at hpg
    split at hpg
    · rename_i heq
      subst heq
      split at hpg
      · rename_i hlt
        simp only [Option.some.injEq, Prod.mk.injEq] at hpg
        obtain ⟨rfl, rfl⟩ := hpg
        by_cases hlt' : vpn < p.space.numPages
        · left
          rw [page_of_get hp, if_pos hlt', hexec, hold vpn hlt']
        · right
          have hge := Nat.not_lt.mp hlt'
          rw [hnew vpn hge hlt, hexec]
          refine ⟨rfl, by simp [PageEntry.fresh], ?_⟩
          rw [if_neg (Nat.not_lt.mpr (Nat.le_trans hfits hge))]
          rfl
      · cases hpg
    · exact .inl hpg
  constructor
  case toReshaped =>
    refine ⟨hsame, fun hpg _ => hpersist hpg, hsource, htlb, ?_, ?_, ?_, ?_⟩
    · intro pid' x n ths hout
      rw [outline_store hp ht] at hout
      split at hout
      · simp only [Option.some.injEq, Prod.mk.injEq] at hout
        obtain ⟨rfl, rfl, -⟩ := hout
        rw [hexec]
        exact Nat.le_trans hfits hn
      · exact hfr.code_fits hout
    · rw [ht, Table.store_size]
    · intro i hi
      rw [hcount] at hi
      have hnone := hfr.table_free hi
      rw [ht, Table.get_store_of_ne _ hp ?_]
      · exact hnone
      · rintro rfl
        rw [hp] at hnone
        cases hnone
    · rw [hcount]
      exact hfr.boxes
  case persists => exact hpersist
  case same_exec =>
    intro pid' x n ths hout
    rw [outline_store hp ht]
    split
    · rename_i heq
      subst heq
      rw [outline_of_get hp] at hout
      simp only [Option.some.injEq, Prod.mk.injEq] at hout
      rw [hexec, hout.1]
      exact ⟨_, _, rfl⟩
    · exact ⟨n, ths, hout⟩
  case added =>
    intro pid' vpn x e hpg hpg'
    refine (hsource hpg').resolve_left ?_
    rw [hpg]
    simp

theorem restoreState_tlb {i : ℕ} (hi : i < tlbSize) : ((restoreState s).tlb i).valid = false := by
  simp only [restoreState, if_pos (Nat.le_of_lt hi)]

theorem forkSyscall_cases (h : forkSyscall s pid = some t) :
    ∃ p, s.processTable.get pid = some p ∧ t = { s with
      processTable := s.processTable.store pid { p with
        threads := p.threads ++ [⟨none, false⟩]
        childThreadCounter := p.childThreadCounter + 1 } } := by
  unfold forkSyscall at h
  split at h
  · cases h
  · rename_i p hp
    exact ⟨p, hp, (Option.some.inj h).symm⟩

theorem extended_fork (hfr : Frames none s) (h : forkSyscall s pid = some t) : Extended s t := by
  obtain ⟨p, hp, rfl⟩ := forkSyscall_cases h
  refine extended_store hfr hp ⟨rfl, rfl, rfl, rfl, rfl, rfl, rfl⟩ rfl rfl ?_ rfl (Nat.le_refl _)
    (fun _ _ => rfl) ?_
  · intro c i _ _ _
    exact ⟨rfl, rfl⟩
  · intro vpn hge hlt
    exact absurd hlt (Nat.not_lt.mpr hge)

theorem kernelThread_cases (h : kernelThread s pid tid = some t) :
    ∃ p, s.processTable.get pid = some p ∧ p.threads[tid]? = some ⟨none, false⟩ ∧
      t = restoreState { s with
        processTable := s.processTable.store pid { p with
          space := p.space.incrementStackSpace
          threads := p.threads.set tid ⟨some (divRoundUp
            (p.space.incrementStackSpace.stackStartVirtualAddress - 1024) pageSize), false⟩ }
        current := some (pid, tid) } := by
  unfold kernelThread at h
  split at h
  · cases h
  · rename_i p hp
    split at h
    · rename_i hth
      exact ⟨p, hp, hth, (Option.some.inj h).symm⟩
    · cases h

theorem extended_start (hfr : Frames none s) (h : kernelThread s pid tid = some t) : Extended s t := by
  obtain ⟨p, hp, -, rfl⟩ := kernelThread_cases h
  refine extended_store hfr hp ⟨rfl, rfl, rfl, rfl, rfl, rfl, rfl⟩ rfl rfl ?_ rfl
    (Nat.le_add_right _ 8) ?_ ?_
  · intro c i _ hi hv
    rw [restoreState_tlb hi] at hv
    cases hv
  · intro vpn hlt
    exact if_pos hlt
  · intro vpn hge _
    exact if_neg (Nat.not_lt.mpr hge)

theorem schedulerRun_cases (h : schedulerRun s pid tid = some t) :
    ∃ p start, s.processTable.get pid = some p ∧ p.threads[tid]? = some ⟨some start, false⟩ ∧
      t = restoreState { s with current := some (pid, tid) } := by
  unfold schedulerRun at h
  split at h
  · cases h
  · rename_i p hp
    split at h
    · rename_i start hth
      exact ⟨p, start, hp, hth, (Option.some.inj h).symm⟩
    · cases h

theorem extended_run (hfr : Frames none s) (h : schedulerRun s pid tid = some t) : Extended s t := by
  obtain ⟨p, start, hp, -, rfl⟩ := schedulerRun_cases h
  have hsame : s.processTable = s.processTable.store pid p := (Table.store_get hp).symm
  refine extended_store hfr hp ⟨rfl, rfl, rfl, rfl, rfl, rfl, rfl⟩ hsame rfl ?_ rfl
    (Nat.le_refl _) (fun _ _ => rfl) ?_
  · intro c i _ hi hv
    rw [restoreState_tlb hi] at hv
    cases hv
  · intro vpn hge hlt
    exact absurd hlt (Nat.not_lt.mpr hge)

end Kinds

/-! ## Exits -/

/-- Nothing that the exit of thread `tid` leaves behind is in memory: no page of
the process when it is the last thread, no page of its stack otherwise. -/
def ExitClean (p : Process) (tid : ℕ) : Prop :=
  if p.childThreadCounter - 1 = 0 then
    ∀ vpn < p.space.numPages, (p.space.pageTable vpn).valid = false
  else
    ∀ th ∈ p.threads[tid]?, ∀ start ∈ th.startVPN, ∀ i < 8,
      (p.space.pageTable (start + i)).valid = false

instance (p : Process) (tid : ℕ) : Decidable (ExitClean p tid) :=
  inferInstanceAs (Decidable (ite _ _ _))

theorem deleteSpace_clean {a : AddrSpace} {left i : ℕ} {bm : BitMap}
    (h : ∀ j, i ≤ j → j < i + left → (a.pageTable j).valid = false) :
    a.deleteSpace left i bm = bm := by
  induction left generalizing i with
  | zero => rfl
  | succ left ih =>
      have hi := h i (Nat.le_refl i) (by omega)
      rw [AddrSpace.deleteSpace, hi]
      exact ih fun j h1 h2 => h j (by omega) (by omega)

theorem decreaseStackSpace_clean {a : AddrSpace} {left i : ℕ} {bm : BitMap}
    (h : ∀ j, i ≤ j → j < i + left → (a.pageTable j).valid = false) :
    a.decreaseStackSpace bm left i = (a, bm) := by
  induction left generalizing i with
  | zero => rfl
  | succ left ih =>
      have hi := h i (Nat.le_refl i) (by omega)
      have hset : a.setEntry i { a.pageTable i with valid := false } = a := by
        have heq : { a.pageTable i with valid := false } = a.pageTable i := by
          rw [← hi]
        rw [AddrSpace.setEntry, heq, Function.update_eq_self]
      simp only [AddrSpace.decreaseStackSpace, hi, Bool.false_eq_true, if_false, hset]
      exact ih fun j h1 h2 => h j (by omega) (by omega)

section Exit

variable {s t : Vm} {pid : ℤ} {tid : ℕ}

theorem exitSyscall_cases (h : exitSyscall s pid tid = some t) :
    ∃ p, s.processTable.get pid = some p ∧
      ((p.childThreadCounter - 1 = 0 ∧ t = { s with
          processTable := (s.processTable.remove pid).2
          bm := p.space.deleteSpace p.space.numPages 0 s.bm
          current := none }) ∨
        (p.childThreadCounter - 1 ≠ 0 ∧ ∃ start fin, p.threads[tid]? = some ⟨some start, fin⟩ ∧
          ∃ space bm, (space, bm) = (if tid ≠ 0 then p.space.decreaseStackSpace s.bm 8 start
              else (p.space, s.bm)) ∧
            t = { s with
              processTable := s.processTable.store pid { p with
                space
                threads := p.threads.set tid ⟨some start, true⟩
                childThreadCounter := p.childThreadCounter - 1 }
              bm
              current := none })) := by
  unfold exitSyscall at h
  split at h
  · cases h
  · rename_i p hp
    refine ⟨p, hp, ?_⟩
    split at h
    · rename_i hzero
      exact .inl ⟨hzero, (Option.some.inj h).symm⟩
    · rename_i hne
      split at h
      · rename_i start fin hth
        exact .inr ⟨hne, start, fin, hth, _, _, rfl, (Option.some.inj h).symm⟩
      · cases h

/-- **A clean exit** only takes pages away that are not in memory. -/
theorem exitSyscall_clean {p : Process} (hp : s.processTable.get pid = some p)
    (hclean : ExitClean p tid) (h : exitSyscall s pid tid = some t) :
    (t = { s with processTable := (s.processTable.remove pid).2, current := none } ∧
        ∀ vpn < p.space.numPages, (p.space.pageTable vpn).valid = false) ∨
      ∃ start fin, p.threads[tid]? = some ⟨some start, fin⟩ ∧
        (∀ i < 8, (p.space.pageTable (start + i)).valid = false) ∧
        t = { s with
          processTable := s.processTable.store pid { p with
            threads := p.threads.set tid ⟨some start, true⟩
            childThreadCounter := p.childThreadCounter - 1 }
          current := none } := by
  obtain ⟨q, hq, hcases⟩ := exitSyscall_cases h
  obtain rfl : p = q := Option.some.inj (hp.symm.trans hq)
  unfold ExitClean at hclean
  rcases hcases with ⟨hzero, rfl⟩ | ⟨hne, start, fin, hth, space, bm, hdec, rfl⟩
  · rw [if_pos hzero] at hclean
    refine .inl ⟨?_, hclean⟩
    rw [deleteSpace_clean fun j _ hj => hclean j (by omega)]
  · rw [if_neg hne] at hclean
    have hstack := hclean _ hth start rfl
    refine .inr ⟨start, fin, hth, hstack, ?_⟩
    have hnoop : (if tid ≠ 0 then p.space.decreaseStackSpace s.bm 8 start else (p.space, s.bm)) =
        (p.space, s.bm) := by
      split
      · refine decreaseStackSpace_clean ?_
        intro j h1 h2
        have := hstack (j - start) (by omega)
        rwa [Nat.add_sub_cancel' h1] at this
      · rfl
    obtain ⟨rfl, rfl⟩ := Prod.mk.inj (hdec.trans hnoop)
    rfl

theorem page_remove (pid' : ℤ) (vpn : ℕ)
    (ht : t.processTable = (s.processTable.remove pid).2) :
    t.page pid' vpn = if pid' = pid then none else s.page pid' vpn := by
  by_cases h : pid' = pid
  · rw [if_pos h, Vm.page, ht, Table.get_remove, if_pos h]
  · rw [if_neg h, Vm.page, Vm.page, ht, Table.get_remove, if_neg h]

theorem reshaped_exit (hfr : Frames none s) {p : Process} (hp : s.processTable.get pid = some p)
    (hclean : ExitClean p tid) (h : exitSyscall s pid tid = some t) : Reshaped s t := by
  rcases exitSyscall_clean hp hclean h with ⟨rfl, hnone⟩ | ⟨start, fin, -, -, rfl⟩
  · have hpage : ∀ pid' vpn, Vm.page { s with
        processTable := (s.processTable.remove pid).2, current := none } pid' vpn =
          if pid' = pid then none else s.page pid' vpn := fun pid' vpn => page_remove pid' vpn rfl
    refine ⟨⟨rfl, rfl, rfl, rfl, rfl, rfl, rfl⟩, ?_, ?_, ?_, ?_, Table.remove_size .., ?_,
      hfr.boxes⟩
    · intro pid' vpn x e hpg hv
      rw [hpage, if_neg ?_]
      · exact hpg
      · rintro rfl
        obtain ⟨q, hq, hlt, -, rfl⟩ := get_of_page hpg
        obtain rfl : p = q := Option.some.inj (hp.symm.trans hq)
        rw [hnone vpn hlt] at hv
        cases hv
    · intro pid' vpn x e hpg
      rw [hpage] at hpg
      split at hpg
      · cases hpg
      · exact .inl hpg
    · rintro c i ⟨⟩
    · intro pid' x n ths hout
      simp only [Vm.outline, Table.get_remove] at hout
      split at hout
      · cases hout
      · exact hfr.code_fits hout
    · intro i hi
      show (s.processTable.remove pid).2.get i = none
      rw [Table.get_remove]
      split
      · rfl
      · exact hfr.table_free hi
  · refine Extended.toReshaped (extended_store hfr hp ⟨rfl, rfl, rfl, rfl, rfl, rfl, rfl⟩ rfl rfl
      ?_ rfl (Nat.le_refl _) (fun _ _ => rfl) ?_)
    · rintro c i ⟨⟩
    · intro vpn hge hlt
      exact absurd hlt (Nat.not_lt.mpr hge)

end Exit

/-! ## Writes and the whole run -/

/-- A write goes to an occupied frame. -/
theorem Inv.write {s : Vm} (h : Inv none s) {pid : ℤ} {vpn : ℕ} {x : Executable} {e : PageEntry}
    (hp : s.page pid vpn = some (x, e)) (hv : e.valid = true) (page : Page) :
    Inv none { s with mainMemory := Function.update s.mainMemory e.physicalPage page } := by
  refine { h with free_zero := ?_, hole_zero := ?_ }
  · intro f hf hb
    show Function.update s.mainMemory e.physicalPage page f = zeroPage
    rw [Function.update_of_ne ?_]
    · exact h.free_zero hf hb
    · rintro rfl
      rw [(h.resident hp hv).2.1] at hb
      cases hb
  · rintro f ⟨⟩

/-- The exits of a run give up no page that is in memory. -/
def CleanExit (s : Vm) (l : Label) : Prop :=
  l.isExit = true → ∀ c ∈ s.current, ∀ p ∈ s.processTable.get c.1, ExitClean p c.2

/-- **One step** keeps the invariant. -/
theorem Inv.step {s t : Vm} {l : Label} {ev : Event} (h : Inv none s) (hok : CleanExit s l)
    (hs : step s l = some (t, ev)) : Inv none t := by
  cases Step.of_step hs with
  | exec _ hx => exact h.reshaped (extended_exec h.frames hx).toReshaped
  | fork _ hf => exact h.reshaped (extended_fork h.frames hf).toReshaped
  | start hk => exact h.reshaped (extended_start h.frames hk).toReshaped
  | run hr => exact h.reshaped (extended_run h.frames hr).toReshaped
  | read hcur ha => exact (access_some h hcur ha).1.inv
  | write hcur ha =>
      obtain ⟨hf, -, x, e, hp, hv, rfl⟩ := access_some h hcur ha
      exact hf.inv.write hp hv _
  | exit hcur he =>
      obtain ⟨p, hp, -⟩ := exitSyscall_cases he
      exact h.reshaped (reshaped_exit h.frames hp (hok rfl _ hcur _ hp) he)

/-- The first process gets slot 0. -/
theorem boot_cases (policy : Policy) (tlb : ℕ → TranslationEntry) (ipt : ℕ → IptEntry)
    (swapFile : ℕ → Page) (x : Executable) :
    (boot policy tlb ipt swapFile x).processTable.get 0 = some (.create x) ∧
      (∀ j, j ≠ 0 → (boot policy tlb ipt swapFile x).processTable.get j = none) ∧
      (boot policy tlb ipt swapFile x).processTable.size = 100 := by
  have hput := Table.put_le (t := Table.empty 100) (.create x : Process) (k := 0) (by decide)
    (Table.get_empty 100 _)
  have hzero : ((Table.empty 100).put (.create x : Process)).1 = 0 := by omega
  obtain ⟨-, hsome, hsize, hrest⟩ :=
    Table.put_spec (t := Table.empty 100) (x := (.create x : Process)) Prod.mk.eta.symm (by omega)
  rw [hzero] at hsome hrest
  refine ⟨hsome, ?_, hsize⟩
  intro j hj
  exact (hrest j hj).trans (Table.get_empty 100 j)

section Boot

variable {policy : Policy} {tlb : ℕ → TranslationEntry} {ipt : ℕ → IptEntry} {swapFile : ℕ → Page}
  {x x' : Executable} {pid : ℤ} {p : Process} {vpn : ℕ} {e : PageEntry}

theorem boot_process (hp : (boot policy tlb ipt swapFile x).processTable.get pid = some p) :
    p = .create x := by
  obtain ⟨hsome, hrest, -⟩ := boot_cases policy tlb ipt swapFile x
  by_cases hpid : pid = 0
  · subst hpid
    exact (Option.some.inj (hsome.symm.trans hp)).symm
  · rw [hrest pid hpid] at hp
    cases hp

/-- No page of it has been used. -/
theorem boot_page (hp : (boot policy tlb ipt swapFile x).page pid vpn = some (x', e)) :
    e.Unused x' vpn := by
  obtain ⟨p, hget, -, rfl, rfl⟩ := get_of_page hp
  obtain rfl := boot_process hget
  exact unused_create vpn

end Boot

/-- **The machine at the start.** -/
theorem Inv.boot (policy : Policy) (tlb : ℕ → TranslationEntry) (ipt : ℕ → IptEntry)
    (swapFile : ℕ → Page) (x : Executable) : Inv none (boot policy tlb ipt swapFile x) := by
  obtain ⟨hsome, hrest, hsize⟩ := boot_cases policy tlb ipt swapFile x
  -- the machine before `StartProcess` has no process
  let s : Vm := { VM.boot policy tlb ipt swapFile x with processTable := Table.empty 100 }
  have hget : ∀ pid, s.processTable.get pid = none := fun pid => Table.get_empty 100 pid
  have hpage : ∀ pid vpn, s.page pid vpn = none := by
    intro pid vpn
    rw [Vm.page, hget]
  have hs : Inv none s := by
    constructor
    case mapped =>
      intro f pid vpn _ _ hmaps
      cases hmaps.valid
    case code_fits =>
      intro pid x' n ths hout
      rw [Vm.outline, hget] at hout
      cases hout
    case table_size => rfl
    case table_free =>
      intro i _
      exact hget i
    case boxes => exact Nat.zero_le _
    case free_zero =>
      intro f _ _
      rfl
    case hole_zero =>
      rintro f ⟨⟩
    case tlb =>
      rintro pid tid i _ _ ⟨⟩
    case occupied =>
      rintro f _ ⟨⟩
    case queued =>
      rintro _ f _ ⟨⟩
    case queue_lt =>
      rintro _ f ⟨⟩
    all_goals
      intro pid vpn x' e
      rw [hpage]
      intros
      contradiction
  refine hs.reshaped (Extended.toReshaped (extended_put hs.frames ⟨rfl, rfl, rfl, rfl, rfl, rfl, rfl⟩
    (hget 0) hsome ?_ (Int.natCast_nonneg _) (Nat.le_refl _) ⟨rfl, rfl⟩ ?_ (Nat.zero_le _)))
  · intro j hj
    exact (hrest j hj).trans (hget j).symm
  · exact hsize

end Nachos.VM
