import Nachos.VM.Coherence
import Nachos.VM.Runs
import Nachos.VM.Wiped

/-!
# Exits of the wiped machine

An exit takes pages away together with their frames. In the wiped machine the
frames are zero and unmapped at once, so the invariant is kept. What a process has
written stays in its pages, but for those that go.

The wiped machine forgets the entries of pages that were given up. That nothing is
lost by this is a property of the machine itself: these pages are not in memory.
-/

namespace Nachos.VM

open Nachos.Userprog Nachos.Lib

/-! ## Pages are taken away -/

/-- The pages in `gone` are taken away or have never been used any more; their
frames are free, zero and unmapped. -/
structure GaveUp (gone : ℤ → ℕ → Prop) (s t : Vm) : Prop where
  page : ∀ {pid vpn}, ¬ gone pid vpn → t.page pid vpn = s.page pid vpn
  unused : ∀ {pid vpn x e}, gone pid vpn → t.page pid vpn = some (x, e) → e.Unused x vpn
  bm : ∀ f, t.bm f = true ↔ s.bm f = true ∧ ∀ pid vpn x e, gone pid vpn →
    s.page pid vpn = some (x, e) → e.valid = true → e.physicalPage ≠ f
  mainMemory : ∀ f, t.mainMemory f = if t.bm f then s.mainMemory f else zeroPage
  ipt : ∀ f, t.ipt f = { s.ipt f with valid := t.bm f && (s.ipt f).valid }
  sfBM : t.sfBM = s.sfBM
  swapFile : t.swapFile = s.swapFile
  policy : t.policy = s.policy
  fifoQueue : t.fifoQueue = s.fifoQueue
  current : t.current = none
  code_fits : ∀ {pid x n ths}, t.outline pid = some (x, n, ths) → x.codeAndInitDataNumPages ≤ n
  table_size : t.processTable.size = s.processTable.size
  table_free : ∀ {i : ℕ}, 1 + t.threadCounter / 2 ≤ i → t.processTable.get i = none
  boxes : t.threadCounter ≤ numBoxes

section GaveUp

variable {s t : Vm} {gone : ℤ → ℕ → Prop} {pid : ℤ} {vpn : ℕ} {x : Executable} {e : PageEntry}

/-- A page that is there and has been used is not gone. -/
theorem GaveUp.used (ht : GaveUp gone s t) (hp : t.page pid vpn = some (x, e))
    (hused : ¬ e.Unused x vpn) : ¬ gone pid vpn ∧ s.page pid vpn = some (x, e) := by
  have hgone : ¬ gone pid vpn := fun hgone => hused (ht.unused hgone hp)
  exact ⟨hgone, (ht.page hgone).symm.trans hp⟩

/-- The frame of a page that stays is in use. -/
theorem GaveUp.in_use (ht : GaveUp gone s t) (hinv : Inv none s) (hgone : ¬ gone pid vpn)
    (hp : s.page pid vpn = some (x, e)) (hv : e.valid = true) : t.bm e.physicalPage = true := by
  refine (ht.bm _).mpr ⟨(hinv.resident hp hv).2.1, ?_⟩
  intro pid' vpn' x' e' hgone' hp' hv' heq
  obtain ⟨rfl, rfl⟩ := hinv.frames.frame_inj hp hp' hv hv' heq
  exact hgone hgone'

theorem Inv.gaveUp (h : Inv none s) (ht : GaveUp gone s t) : Inv none t := by
  have hvalid : ∀ {pid vpn x e}, t.page pid vpn = some (x, e) → e.valid = true →
      ¬ gone pid vpn ∧ s.page pid vpn = some (x, e) := by
    intro pid vpn x e hp hv
    refine ht.used hp ?_
    intro hun
    rw [hun.invalid] at hv
    cases hv
  have hswap : ∀ {pid vpn x e}, t.page pid vpn = some (x, e) → e.Swapped →
      s.page pid vpn = some (x, e) := by
    intro pid vpn x e hp hs
    exact (ht.used hp fun hun => hun.not_swapped hs.2).2
  constructor
  case resident =>
    intro pid vpn x e hp hv
    obtain ⟨hgone, hp⟩ := hvalid hp hv
    obtain ⟨hlt, -, hh, hmaps⟩ := h.resident hp hv
    have hbm := ht.in_use h hgone hp hv
    refine ⟨hlt, hbm, hh, ?_⟩
    rw [ht.ipt, hbm, Bool.true_and]
    exact hmaps
  case mapped =>
    intro f pid vpn hf hh hmaps
    have hboth : t.bm f = true ∧ (s.ipt f).valid = true := by
      have := hmaps.valid
      rw [ht.ipt] at this
      simpa using this
    have hmaps' : (s.ipt f).Maps pid vpn := by
      refine ⟨hboth.2, ?_, ?_⟩
      · rw [← hmaps.pid_eq, ht.ipt]
      · rw [← hmaps.vpn_eq, ht.ipt]
    obtain ⟨x, e, hp, hv, heq⟩ := h.mapped hf hh hmaps'
    have hgone : ¬ gone pid vpn := fun hgone => ((ht.bm f).mp hboth.1).2 pid vpn x e hgone hp hv heq
    exact ⟨x, e, (ht.page hgone).trans hp, hv, heq⟩
  case occupied =>
    intro f hf hb hh
    rw [ht.ipt, hb, Bool.true_and]
    exact h.occupied hf ((ht.bm f).mp hb).1 hh
  case free_zero =>
    intro f _ hb
    rw [ht.mainMemory, hb]
    rfl
  case hole_zero =>
    rintro f ⟨⟩
  case queued =>
    rw [ht.policy, ht.fifoQueue]
    intro hpol f hf hb hh
    exact h.queued hpol hf ((ht.bm f).mp hb).1 hh
  case queue_lt =>
    rw [ht.policy, ht.fifoQueue]
    exact h.queue_lt
  case swapped =>
    intro pid vpn x e hp hs
    rw [ht.sfBM]
    exact h.swapped (hswap hp hs) hs
  case swap_inj =>
    intro pid vpn x e pid' vpn' x' e' hp hp' hs hs' heq
    exact h.swap_inj (hswap hp hs) (hswap hp' hs') hs hs' heq
  case located =>
    intro pid vpn x e hp hst
    by_cases hgone : gone pid vpn
    · exact (ht.unused hgone hp).located
    · exact h.located ((ht.page hgone).symm.trans hp) hst
  case tlb =>
    intro pid tid i hcur
    rw [ht.current] at hcur
    cases hcur
  case code_fits => exact ht.code_fits
  case table_size => exact ht.table_size.trans h.table_size
  case table_free => exact ht.table_free
  case boxes => exact ht.boxes

/-- **What was written stays**, but for the pages that go. -/
theorem Holds.gaveUp {w w' : ℤ → ℕ → Option UInt8} (h : Holds w s) (hinv : Inv none s)
    (ht : GaveUp gone s t) (hgone : ∀ pid a, gone pid (a / pageSize) → w' pid a = none)
    (hkept : ∀ pid a, ¬ gone pid (a / pageSize) → w' pid a = w pid a) : Holds w' t := by
  constructor
  · intro pid vpn x e hp o ho
    have hdiv : (vpn * pageSize + o) / pageSize = vpn := by
      unfold pageSize at *
      omega
    by_cases hg : gone pid vpn
    · rw [contents_unused (ht.unused hg hp) ho, hgone _ _ (by rw [hdiv]; exact hg), Option.getD_none]
    · have hp' := (ht.page hg).symm.trans hp
      have hcont : t.contents x vpn e = s.contents x vpn e := by
        refine contents_congr ?_ ?_
        · intro hv
          rw [ht.mainMemory, ht.in_use hinv hg hp' hv, if_pos rfl]
        · intro _
          rw [ht.swapFile]
      rw [hcont, hkept _ _ (by rw [hdiv]; exact hg)]
      exact h.holds hp' o ho
  · intro pid a hp
    by_cases hg : gone pid (a / pageSize)
    · exact hgone pid a hg
    · rw [hkept pid a hg]
      exact h.unwritten ((ht.page hg).symm.trans hp)

end GaveUp

/-! ## Given up pages are not in memory -/

/-- The stack of a forked thread is behind the executable and in range, and the
pages given up are not in memory. -/
structure Process.Stacked (p : Process) : Prop where
  parked : ∀ {vpn}, p.GivenUp vpn → (p.space.pageTable vpn).valid = false
  range : ∀ {tid start fin}, 0 < tid → p.threads[tid]? = some ⟨some start, fin⟩ →
    p.space.exec.codeAndInitDataNumPages ≤ start ∧ start + 8 ≤ p.space.numPages

def Vm.Stacked (s : Vm) : Prop := ∀ pid p, s.processTable.get pid = some p → p.Stacked

namespace Process.Stacked

variable {p : Process}

theorem create (x : Executable) : (Process.create x).Stacked := by
  constructor
  · intro vpn hgone
    exact absurd hgone (not_givenUp_create x vpn)
  · intro tid start fin hpos hth
    rw [create_threads x hpos] at hth
    cases hth

theorem fork (h : p.Stacked) (n : ℕ) : Process.Stacked { p with
    threads := p.threads ++ [⟨none, false⟩], childThreadCounter := n } := by
  constructor
  · intro vpn hgone
    exact h.parked ((givenUp_fork vpn).mp ((GivenUp.congr rfl).mp hgone))
  · intro tid start fin hpos hth
    simp only [List.getElem?_append] at hth
    split at hth
    · exact h.range hpos hth
    · simp [List.getElem?_singleton] at hth

theorem start (h : p.Stacked) {tid : ℕ} (hth : p.threads[tid]? = some ⟨none, false⟩)
    (hfits : p.space.exec.codeAndInitDataNumPages ≤ p.space.numPages) :
    Process.Stacked { p with
      space := p.space.incrementStackSpace
      threads := p.threads.set tid ⟨some (divRoundUp
        (p.space.incrementStackSpace.stackStartVirtualAddress - 1024) pageSize), false⟩ } := by
  constructor
  · intro vpn hgone
    have hgone := (givenUp_start hth vpn).mp ((GivenUp.congr rfl).mp hgone)
    show (if vpn < p.space.numPages then p.space.pageTable vpn else .fresh).valid = false
    split
    · exact h.parked hgone
    · rfl
  · intro i start fin hpos hi
    rw [List.getElem?_set] at hi
    split at hi
    · split at hi
      · have hstart := StacksFit.stack_start p.space.numPages
        simp only [Option.some.injEq, Thread.mk.injEq] at hi
        rw [← hi.1]
        show p.space.exec.codeAndInitDataNumPages ≤
            divRoundUp ((p.space.numPages + 8) * pageSize - 16 - 1024) pageSize ∧
          divRoundUp ((p.space.numPages + 8) * pageSize - 16 - 1024) pageSize + 8 ≤
            p.space.numPages + 8
        omega
      · cases hi
    · obtain ⟨hcode, hlt⟩ := h.range hpos hi
      exact ⟨hcode, Nat.le_add_right_of_le hlt⟩

/-- Entries of pages that were not given up may change, and any page may go out
of memory. -/
theorem setEntry (h : p.Stacked) {vpn : ℕ} {e : PageEntry}
    (he : ¬ p.GivenUp vpn ∨ e.valid = false) :
    Process.Stacked { p with space := p.space.setEntry vpn e } := by
  refine ⟨?_, h.range⟩
  intro v hgone
  have hgone : p.GivenUp v := hgone
  show (Function.update p.space.pageTable vpn e v).valid = false
  by_cases hv : v = vpn
  · subst hv
    rw [Function.update_self]
    exact he.resolve_left fun hkept => hkept hgone
  · rw [Function.update_of_ne hv]
    exact h.parked hgone

end Process.Stacked

section Stacked

variable {s t : Vm} {pid : ℤ} {p p' : Process} {vpn f rand vaddr phy : ℕ}

theorem Vm.Stacked.store (h : s.Stacked) (hp : s.processTable.get pid = some p)
    (ht : t.processTable = s.processTable.store pid p') (hp' : p'.Stacked) : t.Stacked := by
  intro pid' q hq
  rw [ht] at hq
  by_cases hpid : pid' = pid
  · subst hpid
    rw [Table.get_store_self p' hp] at hq
    exact Option.some.inj hq ▸ hp'
  · rw [Table.get_store_of_ne p' hp hpid] at hq
    exact h pid' q hq

theorem Vm.Stacked.evict (h : s.Stacked) (he : VM.evict s phy = some t) : t.Stacked := by
  obtain ⟨loc, p, -, hp, rfl⟩ := evict_eq he
  exact h.store hp rfl ((h _ p hp).setEntry (.inr rfl))

theorem Vm.Stacked.findFrame (h : s.Stacked) (hf : VM.findFrame s rand = some (t, f)) :
    t.Stacked := by
  have hevicted : ∀ {u}, writeOneToSwapFile s rand = some u → u.Stacked := by
    intro u hu
    unfold writeOneToSwapFile at hu
    split at hu
    · exact h.evict hu
    · split at hu
      · cases hu
      · obtain ⟨v, hv, rfl⟩ := Option.map_eq_some_iff.mp hu
        have hstacked : v.Stacked := h.evict hv
        exact hstacked
  unfold VM.findFrame at hf
  split at hf
  · obtain ⟨rfl, rfl⟩ := Prod.mk.inj (Option.some.inj hf)
    exact h
  · split at hf
    · cases hf
    · rename_i u hu
      split at hf
      · cases hf
      · obtain ⟨rfl, rfl⟩ := Prod.mk.inj (Option.some.inj hf)
        have hstacked : u.Stacked := hevicted hu
        exact hstacked

theorem Vm.Stacked.install (h : s.Stacked) (hp : s.processTable.get pid = some p)
    (hkept : ¬ p.GivenUp vpn) (contents : Page) :
    (VM.install s pid p.space vpn f contents).Stacked := by
  rw [install_eq hp]
  exact h.store hp rfl ((h pid p hp).setEntry (.inl hkept))

theorem Vm.Stacked.updateIPT (h : s.Stacked) (hinv : Inv none s.wiped)
    (hkept : ¬ s.GivenUp pid (vaddr / pageSize)) (hup : VM.updateIPT s vaddr pid rand = some t) :
    t.Stacked := by
  unfold VM.updateIPT at hup
  split at hup
  · cases hup
  · rename_i p hp
    simp only at hup
    split at hup
    · cases hup
    · split at hup
      · cases hup
      · rename_i u f hframe
        have hu : u.Stacked := h.findFrame hframe
        split at hup
        · cases hup
        · rename_i q hq
          have hths := (findFrame_process hinv hframe hp hq).2
          have hkept : ¬ q.GivenUp (vaddr / pageSize) := by
            rw [GivenUp.congr hths]
            exact fun hgone => hkept ⟨p, hp, hgone⟩
          split at hup
          · split at hup <;> (obtain rfl := Option.some.inj hup; exact hu.install hq hkept _)
          · obtain rfl := Option.some.inj hup
            exact hu.install hq hkept _

/-- **A clean access** brings no given up page in. -/
theorem Vm.Stacked.access {tid size frame tries : ℕ} {writing : Bool} (h : s.Stacked)
    (hinv : Inv none s.wiped) (hcur : s.current = some (pid, tid))
    (hclean : translate s vaddr size writing = .error .pageFault → CleanFault s pid (vaddr / pageSize))
    (ha : VM.access pid vaddr size writing rand tries s = some (t, frame)) : t.Stacked := by
  induction tries generalizing s with
  | zero => cases ha
  | succ tries ih =>
      rw [VM.access] at ha
      split at ha
      · obtain ⟨rfl, rfl⟩ := Prod.mk.inj (Option.some.inj ha)
        exact h
      · rename_i htr
        split at ha
        · cases ha
        · cases hup : updateTLB s pid vaddr rand with
          | none =>
              rw [hup] at ha
              cases ha
          | some u =>
              rw [hup] at ha
              obtain ⟨hup', hclean'⟩ := updateTLB_wiped hinv hcur (hclean htr) hup
              have hf := updateTLB_faulted hinv (show s.wiped.current = _ from hcur) hup'
              have hu : u.Stacked := by
                unfold updateTLB at hup
                split at hup
                · exact h.updateIPT hinv (hclean htr).kept hup
                · obtain rfl := Option.some.inj hup
                  exact h
              exact ih hu hf.inv (hf.current.trans hcur) (fun _ => hclean') ha
      · cases ha

end Stacked

/-! ## Exits give pages up -/

/-- The page is of no process, or was given up. -/
def Vm.Lost (s : Vm) (pid : ℤ) (vpn : ℕ) : Prop :=
  s.processTable.get pid = none ∨ s.GivenUp pid vpn

section Lost

variable {s t : Vm} {pid : ℤ} {p : Process} {tid vpn : ℕ} {x : Executable} {e : PageEntry}

theorem lost_of_get (hp : s.processTable.get pid = some p) : s.Lost pid vpn ↔ p.GivenUp vpn := by
  constructor
  · rintro (hnone | ⟨q, hq, hgone⟩)
    · rw [hp] at hnone
      cases hnone
    · obtain rfl := Option.some.inj (hp.symm.trans hq)
      exact hgone
  · intro hgone
    exact .inr ⟨p, hp, hgone⟩

/-- A page of the wiped machine is the page itself, or fresh. -/
theorem page_wiped (hp : s.processTable.get pid = some p) (vpn : ℕ) : s.wiped.page pid vpn =
    if vpn < p.space.numPages then
      some (p.space.exec, if p.GivenUp vpn then .fresh else p.space.pageTable vpn)
    else none := by
  have hget : s.wiped.processTable.get pid = some p.wiped := by
    rw [get_wiped, hp, Option.map_some]
  exact page_of_get hget vpn

theorem get_of_page_wiped (h : s.wiped.page pid vpn = some (x, e)) :
    ∃ p, s.processTable.get pid = some p ∧ vpn < p.space.numPages ∧ p.space.exec = x ∧
      (if p.GivenUp vpn then .fresh else p.space.pageTable vpn) = e := by
  obtain ⟨q, hq, hlt, rfl, rfl⟩ := get_of_page h
  rw [get_wiped] at hq
  obtain ⟨p, hp, rfl⟩ := Option.map_eq_some_iff.mp hq
  exact ⟨p, hp, hlt, rfl, rfl⟩

theorem Vm.Stacked.unused (h : s.Stacked) (hlost : s.Lost pid vpn)
    (hpage : s.wiped.page pid vpn = some (x, e)) : e.Unused x vpn := by
  obtain ⟨p, hp, -, rfl, rfl⟩ := get_of_page_wiped hpage
  have hgone := (lost_of_get hp).mp hlost
  obtain ⟨tid, start, hpos, hth, hle, -⟩ := givenUp_iff.mp hgone
  have hcode := ((h pid p hp).range hpos hth).1
  rw [if_pos hgone]
  refine ⟨rfl, by simp [PageEntry.fresh], ?_⟩
  rw [if_neg (by omega)]
  rfl

/-- **The frames that go** are those of the pages that go. -/
theorem freed_iff {i left : ℕ} (h : s.Stacked) (hp : s.processTable.get pid = some p)
    (hin : i + left ≤ p.space.numPages)
    (hlost : ∀ {pid' v x e}, s.wiped.page pid' v = some (x, e) →
      (t.Lost pid' v ↔ s.Lost pid' v ∨ pid' = pid ∧ i ≤ v ∧ v < i + left)) (f : ℕ) :
    p.space.deleteSpace left i s.bm f = true ↔ s.bm f = true ∧
      ∀ pid' v x e, t.Lost pid' v → s.wiped.page pid' v = some (x, e) → e.valid = true →
        e.physicalPage ≠ f := by
  rw [deleteSpace_iff]
  refine and_congr_right fun _ => ?_
  constructor
  · intro hall pid' v x e hl hpage hv
    rcases (hlost hpage).mp hl with hl | ⟨rfl, hle, hlt⟩
    · rw [(h.unused hl hpage).invalid] at hv
      cases hv
    · obtain ⟨q, hq, -, -, rfl⟩ := get_of_page_wiped hpage
      obtain rfl := Option.some.inj (hp.symm.trans hq)
      split at hv
      · cases hv
      · rename_i hkept
        rw [if_neg hkept]
        exact hall v hle hlt hv
  · intro hall v hle hlt hv
    have hkept : ¬ p.GivenUp v := by
      intro hgone
      rw [(h pid p hp).parked hgone] at hv
      cases hv
    have hpage : s.wiped.page pid v = some (p.space.exec, p.space.pageTable v) := by
      rw [page_wiped hp, if_pos (by omega), if_neg hkept]
    exact hall pid v _ _ ((hlost hpage).mpr (.inr ⟨rfl, hle, hlt⟩)) hpage hv

end Lost

section Exit

variable {s t : Vm} {pid : ℤ} {p : Process} {tid vpn start : ℕ} {fin : Bool}

theorem givenUp_exit (hth : p.threads[tid]? = some ⟨some start, fin⟩) (space : AddrSpace) (n : ℕ) :
    Process.GivenUp ⟨space, p.threads.set tid ⟨some start, true⟩, n⟩ vpn ↔
      p.GivenUp vpn ∨ tid ≠ 0 ∧ start ≤ vpn ∧ vpn < start + 8 := by
  have hlen := (List.getElem?_eq_some_iff.mp hth).1
  rw [givenUp_iff, givenUp_iff]
  constructor
  · rintro ⟨i, start', hpos, hi, hrange⟩
    by_cases hne : tid = i
    · subst hne
      rw [List.getElem?_set_self hlen] at hi
      cases hi
      exact .inr ⟨Nat.ne_of_gt hpos, hrange⟩
    · rw [List.getElem?_set_ne hne] at hi
      exact .inl ⟨i, start', hpos, hi, hrange⟩
  · rintro (⟨i, start', hpos, hi, hrange⟩ | ⟨hne, hrange⟩)
    · refine ⟨i, start', hpos, ?_, hrange⟩
      by_cases hne : tid = i
      · subst hne
        obtain ⟨⟩ := Option.some.inj (hth.symm.trans hi)
        rw [List.getElem?_set_self hlen]
      · rw [List.getElem?_set_ne hne]
        exact hi
    · exact ⟨tid, start, Nat.pos_of_ne_zero hne, List.getElem?_set_self hlen, hrange⟩

/-- What both kinds of exit do to the wiped machine. -/
theorem GaveUp.of_exit {table : Table Process} {i left : ℕ} (hinv : Inv none s.wiped)
    (h : s.Stacked) (hp : s.processTable.get pid = some p) (hin : i + left ≤ p.space.numPages)
    (ht : t = { s with
      processTable := table
      bm := p.space.deleteSpace left i s.bm
      current := none })
    (hst : t.Stacked)
    (hlost : ∀ {pid' v x e}, s.wiped.page pid' v = some (x, e) →
      (t.Lost pid' v ↔ s.Lost pid' v ∨ pid' = pid ∧ i ≤ v ∧ v < i + left))
    (hpage : ∀ {pid' v}, ¬ t.Lost pid' v → t.wiped.page pid' v = s.wiped.page pid' v)
    (hout : ∀ {pid' x n ths}, t.outline pid' = some (x, n, ths) →
      ∃ ths', s.outline pid' = some (x, n, ths'))
    (hsize : table.size = s.processTable.size) : GaveUp t.Lost s.wiped t.wiped := by
  have hfreed : ∀ f, t.bm f = true ↔ s.bm f = true ∧
      ∀ pid' v x e, t.Lost pid' v → s.wiped.page pid' v = some (x, e) → e.valid = true →
        e.physicalPage ≠ f := by
    intro f
    rw [ht] at hlost ⊢
    exact freed_iff h hp hin hlost f
  have hsub : ∀ f, t.bm f = true → s.bm f = true := fun f hf => ((hfreed f).mp hf).1
  have hfree : ∀ i : ℤ, s.processTable.get i = none → t.processTable.get i = none := by
    intro i hnone
    by_contra hsome
    obtain ⟨q, hq⟩ := Option.ne_none_iff_exists'.mp hsome
    obtain ⟨ths, hs⟩ := hout (outline_of_get hq)
    rw [Vm.outline, hnone] at hs
    cases hs
  constructor
  case page => exact hpage
  case unused => exact hst.unused
  case bm => exact hfreed
  case mainMemory =>
    intro f
    show (if t.bm f then trim (t.mainMemory f) else zeroPage) = if t.bm f then _ else zeroPage
    split
    · rename_i hf
      rw [mainMemory_wiped (hsub f hf), ht]
    · rfl
  case ipt =>
    intro f
    show (⟨(t.ipt f).virtualPage, (t.ipt f).pid, t.bm f && (t.ipt f).valid, (t.ipt f).readOnly⟩ :
      IptEntry) = ⟨(s.ipt f).virtualPage, (s.ipt f).pid, t.bm f && (s.bm f && (s.ipt f).valid),
        (s.ipt f).readOnly⟩
    cases hf : t.bm f with
    | true =>
        rw [hsub f hf, ht]
        rfl
    | false =>
        rw [ht]
        rfl
  case sfBM => rw [ht]; rfl
  case swapFile => rw [ht]; rfl
  case policy => rw [ht]; rfl
  case fifoQueue => rw [ht]; rfl
  case current => rw [ht]; rfl
  case code_fits =>
    intro pid' x n ths ho
    rw [outline_wiped] at ho
    obtain ⟨ths', hs⟩ := hout ho
    rw [← outline_wiped] at hs
    exact hinv.code_fits hs
  case table_size =>
    rw [ht]
    exact hsize
  case table_free =>
    intro i hi
    rw [get_wiped, Option.map_eq_none_iff]
    refine hfree i ?_
    rw [show t.wiped.threadCounter = s.wiped.threadCounter by rw [ht]; rfl] at hi
    have hnone := hinv.table_free hi
    rw [get_wiped] at hnone
    exact Option.map_eq_none_iff.mp hnone
  case boxes =>
    rw [ht]
    exact hinv.boxes

/-- **The last thread** takes the pages of its process along. -/
theorem gaveUp_process (hinv : Inv none s.wiped) (h : s.Stacked)
    (hp : s.processTable.get pid = some p)
    (ht : t = { s with
      processTable := (s.processTable.remove pid).2
      bm := p.space.deleteSpace p.space.numPages 0 s.bm
      current := none }) : t.Stacked ∧ GaveUp t.Lost s.wiped t.wiped ∧
    ∀ {pid' v}, s.Lost pid' v → t.Lost pid' v := by
  have hget : ∀ pid', t.processTable.get pid' =
      if pid' = pid then none else s.processTable.get pid' := by
    intro pid'
    rw [ht]
    exact Table.get_remove ..
  have hother : ∀ {pid' v}, pid' ≠ pid → (t.Lost pid' v ↔ s.Lost pid' v) := by
    intro pid' v hne
    unfold Vm.Lost Vm.GivenUp
    rw [hget, if_neg hne]
  have hst : t.Stacked := by
    intro pid' q hq
    rw [hget] at hq
    split at hq
    · cases hq
    · exact h pid' q hq
  have hmore : ∀ {pid' v}, s.Lost pid' v → t.Lost pid' v := by
    intro pid' v hlost
    by_cases hpid : pid' = pid
    · exact .inl (by rw [hget, if_pos hpid])
    · exact (hother hpid).mpr hlost
  refine ⟨hst, .of_exit hinv h hp (Nat.le_of_eq (Nat.zero_add _)) ht hst ?_ ?_ ?_
    (Table.remove_size ..), hmore⟩
  · intro pid' v x e hpage
    by_cases hpid : pid' = pid
    · subst hpid
      obtain ⟨q, hq, hlt, -⟩ := get_of_page_wiped hpage
      obtain rfl := Option.some.inj (hp.symm.trans hq)
      have hlost : t.Lost pid' v := .inl (by rw [hget, if_pos rfl])
      exact iff_of_true hlost (.inr ⟨rfl, Nat.zero_le v, by omega⟩)
    · simp only [hother hpid, hpid, false_and, or_false]
  · intro pid' v hkept
    have hpid : pid' ≠ pid := by
      rintro rfl
      exact hkept (.inl (by rw [hget, if_pos rfl]))
    rw [Vm.page, Vm.page, get_wiped, get_wiped, hget, if_neg hpid]
  · intro pid' x n ths hout
    rw [Vm.outline, hget] at hout
    split at hout
    · cases hout
    · exact ⟨ths, hout⟩

/-- **Another thread** gives its stack up, the main thread nothing. -/
theorem gaveUp_thread {space : AddrSpace} {n i left : ℕ} (hinv : Inv none s.wiped) (h : s.Stacked)
    (hp : s.processTable.get pid = some p) (hth : p.threads[tid]? = some ⟨some start, fin⟩)
    (hin : i + left ≤ p.space.numPages)
    (hleft : ∀ v, i ≤ v ∧ v < i + left ↔ tid ≠ 0 ∧ start ≤ v ∧ v < start + 8)
    (hspace : space = ⟨p.space.exec, p.space.numPages, fun v =>
      if i ≤ v ∧ v < i + left then { p.space.pageTable v with valid := false }
      else p.space.pageTable v⟩)
    (ht : t = { s with
      processTable := s.processTable.store pid ⟨space, p.threads.set tid ⟨some start, true⟩, n⟩
      bm := p.space.deleteSpace left i s.bm
      current := none }) : t.Stacked ∧ GaveUp t.Lost s.wiped t.wiped ∧
    ∀ {pid' v}, s.Lost pid' v → t.Lost pid' v := by
  have htable : t.processTable =
      s.processTable.store pid ⟨space, p.threads.set tid ⟨some start, true⟩, n⟩ := by rw [ht]
  have hself : t.processTable.get pid = some ⟨space, p.threads.set tid ⟨some start, true⟩, n⟩ := by
    rw [htable]
    exact Table.get_store_self _ hp
  have hget : ∀ {pid'}, pid' ≠ pid → t.processTable.get pid' = s.processTable.get pid' := by
    intro pid' hne
    rw [htable]
    exact Table.get_store_of_ne _ hp hne
  have hgone : ∀ {v}, t.Lost pid v ↔ p.GivenUp v ∨ i ≤ v ∧ v < i + left := by
    intro v
    rw [lost_of_get hself, givenUp_exit hth, hleft]
  have hother : ∀ {pid' v}, pid' ≠ pid → (t.Lost pid' v ↔ s.Lost pid' v) := by
    intro pid' v hne
    unfold Vm.Lost Vm.GivenUp
    rw [hget hne]
  have hst : t.Stacked := by
    refine h.store hp htable ⟨?_, ?_⟩
    · intro v hv
      have hv := hgone.mp ((lost_of_get hself).mpr hv)
      rw [hspace]
      show (if i ≤ v ∧ v < i + left then { p.space.pageTable v with valid := false }
        else p.space.pageTable v).valid = false
      split
      · rfl
      · rename_i hout
        exact (h pid p hp).parked (hv.resolve_right hout)
    · intro tid' start' fin' hpos hi
      rw [hspace]
      by_cases hne : tid = tid'
      · subst hne
        rw [List.getElem?_set_self (List.getElem?_eq_some_iff.mp hth).1] at hi
        cases hi
        exact (h pid p hp).range hpos hth
      · rw [List.getElem?_set_ne hne] at hi
        exact (h pid p hp).range hpos hi
  have hmore : ∀ {pid' v}, s.Lost pid' v → t.Lost pid' v := by
    intro pid' v hlost
    by_cases hpid : pid' = pid
    · subst hpid
      exact hgone.mpr (.inl ((lost_of_get hp).mp hlost))
    · exact (hother hpid).mpr hlost
  refine ⟨hst, .of_exit hinv h hp hin ht hst ?_ ?_ ?_ rfl, hmore⟩
  · intro pid' v x e _
    by_cases hpid : pid' = pid
    · subst hpid
      simp only [hgone, lost_of_get hp, true_and]
    · simp only [hother hpid, hpid, false_and, or_false]
  · intro pid' v hkept
    by_cases hpid : pid' = pid
    · subst hpid
      obtain ⟨hkept', hrange⟩ := not_or.mp (fun hc => hkept (hgone.mpr hc))
      rw [page_wiped hself, page_wiped hp, if_neg hkept',
        if_neg (fun hc => hkept ((lost_of_get hself).mpr hc)), hspace]
      exact if_congr Iff.rfl (congrArg some (congrArg (Prod.mk p.space.exec) (if_neg hrange))) rfl
    · rw [Vm.page, Vm.page, get_wiped, get_wiped, hget hpid]
  · intro pid' x n' ths hout
    by_cases hpid : pid' = pid
    · subst hpid
      rw [outline_of_get hself, hspace] at hout
      obtain ⟨rfl, hrest⟩ := Prod.mk.inj (Option.some.inj hout)
      obtain ⟨rfl, -⟩ := Prod.mk.inj hrest
      exact ⟨p.threads, outline_of_get hp⟩
    · rw [Vm.outline, hget hpid] at hout
      exact ⟨ths, hout⟩

/-- **An exit** gives pages up, with their frames. -/
theorem gaveUp_exit (hinv : Inv none s.wiped) (h : s.Stacked)
    (he : exitSyscall s pid tid = some t) : t.Stacked ∧ GaveUp t.Lost s.wiped t.wiped ∧
    ∀ {pid' v}, s.Lost pid' v → t.Lost pid' v := by
  obtain ⟨p, hp, ⟨-, ht⟩ | ⟨-, start, fin, hth, space, bm, hdec, ht⟩⟩ := exitSyscall_cases he
  · exact gaveUp_process hinv h hp ht
  · by_cases htid : tid = 0
    · rw [if_neg (not_not.mpr htid)] at hdec
      obtain ⟨rfl, rfl⟩ := Prod.mk.inj hdec
      have hempty : ∀ v, ¬ (0 ≤ v ∧ v < 0 + 0) := by
        intro v
        omega
      have hspace : p.space = ⟨p.space.exec, p.space.numPages, fun v =>
          if 0 ≤ v ∧ v < 0 + 0 then { p.space.pageTable v with valid := false }
          else p.space.pageTable v⟩ := by
        simp only [hempty, if_false]
      refine gaveUp_thread (i := 0) hinv h hp hth (Nat.zero_le _) ?_ hspace ht
      intro v
      simp [htid]
    · rw [if_pos htid, decreaseStackSpace_eq] at hdec
      obtain ⟨rfl, rfl⟩ := Prod.mk.inj hdec
      have hin := ((h pid p hp).range (Nat.pos_of_ne_zero htid) hth).2
      refine gaveUp_thread hinv h hp hth hin ?_ rfl ht
      intro v
      simp [htid]

end Exit

/-! ## Steps -/

section Steps

variable {ε : Type} {tr : List ε} {s t : Vm} {l : Label} {ev : Event}

/-- The slot that `Exec` takes. The wiped machine knows that there is one. -/
theorem execSyscall_slot {x : Executable} {pid : ℤ} (hinv : Inv none s.wiped)
    (h : execSyscall s x = some (t, pid)) :
    s.processTable.get pid = none ∧ t.processTable.get pid = some (.create x) ∧
      ∀ j, j ≠ pid → t.processTable.get j = s.processTable.get j := by
  obtain ⟨-, hsome, -⟩ := execSyscall_cases hinv.frames (execSyscall_wiped h)
  have hne : pid ≠ -1 := by
    have := (Table.get_range hsome).1
    omega
  unfold execSyscall at h
  split at h
  · obtain ⟨rfl, rfl⟩ := Prod.mk.inj (Option.some.inj h)
    obtain ⟨hnone, hnew, -, hrest⟩ := Table.put_spec (Prod.mk.eta).symm hne
    exact ⟨hnone, hnew, hrest⟩
  · cases h

/-- **One clean step** brings no given up page in. -/
theorem Vm.Stacked.step (h : s.Stacked) (hinv : Inv none s.wiped) (hclean : cleanReuse tr s l)
    (hs : VM.step s l = some (t, ev)) : t.Stacked := by
  cases Step.of_step hs with
  | @exec x _ _ pid _ hx =>
      obtain ⟨-, hsome, hrest⟩ := execSyscall_slot hinv hx
      intro pid' q hq
      by_cases hpid : pid' = pid
      · subst hpid
        obtain rfl := Option.some.inj (hsome.symm.trans hq)
        exact .create x
      · rw [hrest pid' hpid] at hq
        exact h pid' q hq
  | @fork pid _ _ _ hf =>
      obtain ⟨p, hp, rfl⟩ := forkSyscall_cases hf
      exact h.store hp rfl ((h pid p hp).fork _)
  | @start pid _ _ hk =>
      obtain ⟨p, hp, hth, rfl⟩ := kernelThread_cases hk
      have hout := outline_of_get hp
      rw [← outline_wiped] at hout
      exact h.store hp rfl ((h pid p hp).start hth (hinv.code_fits hout))
  | run hr =>
      obtain ⟨p, start, -, -, rfl⟩ := schedulerRun_cases hr
      exact h
  | read hcur ha => exact h.access hinv hcur (fun hfault => hclean hfault _ hcur) ha
  | write hcur ha =>
      have hu := h.access hinv hcur (fun hfault => hclean hfault _ hcur) ha
      exact hu
  | exit _ he => exact (gaveUp_exit hinv h he).1

/-- **One clean step** keeps the invariant of the wiped machine. -/
theorem Inv.wiped_step (hinv : Inv none s.wiped) (h : s.Stacked) (hclean : cleanReuse tr s l)
    (hs : VM.step s l = some (t, ev)) : Inv none t.wiped := by
  by_cases hexit : l.isExit = true
  · cases Step.of_step hs with
    | exec | fork | start | run | read | write => cases hexit
    | exit _ he => exact hinv.gaveUp (gaveUp_exit hinv h he).2.1
  · have hexit : l.isExit = false := by simpa using hexit
    refine hinv.step ?_ (step_wiped hinv hexit hclean hs)
    intro hexit'
    rw [hexit] at hexit'
    cases hexit'

end Steps

end Nachos.VM
