import Nachos.VM.Paging

/-!
# Frames

What every run keeps, whatever the exits leave behind: a page in memory has a
frame of its own, a taken frame holds a page of a live process, and under FIFO
every taken frame is in the queue. It is enough to describe what taking a frame,
evicting a page and bringing one in do, since a page is evicted only when every
frame is taken.

The state is seen through `Vm.page`, the entry of a page of a live process, so
that what an operation does to the process table is one lemma about `page`.
While a fault is handled, one frame is taken but holds no page yet; this frame,
the hole, is a parameter.
-/

namespace Nachos.VM

open Nachos.Userprog

/-! ## The pages of live processes -/

/-- The entry of a page of a live process, with the executable behind it. -/
def Vm.page (s : Vm) (pid : ℤ) (vpn : ℕ) : Option (Executable × PageEntry) :=
  match s.processTable.get pid with
  | none => none
  | some p =>
      if vpn < p.space.numPages then some (p.space.exec, p.space.pageTable vpn) else none

section Page

variable {s : Vm} {pid : ℤ} {vpn : ℕ} {p : Process}

theorem page_of_get (h : s.processTable.get pid = some p) (vpn : ℕ) :
    s.page pid vpn =
      if vpn < p.space.numPages then some (p.space.exec, p.space.pageTable vpn) else none := by
  rw [Vm.page, h]

/-- The process of a page. -/
theorem get_of_page {x : Executable} {e : PageEntry} (h : s.page pid vpn = some (x, e)) :
    ∃ p, s.processTable.get pid = some p ∧ vpn < p.space.numPages ∧ p.space.exec = x ∧
      p.space.pageTable vpn = e := by
  unfold Vm.page at h
  split at h
  · cases h
  · rename_i p hp
    split at h
    · rename_i hlt
      simp only [Option.some.injEq, Prod.mk.injEq] at h
      exact ⟨p, hp, hlt, h.1, h.2⟩
    · cases h

/-- Replacing the process in a slot. -/
theorem page_store {t : Vm} {p' : Process} (hp : s.processTable.get pid = some p)
    (ht : t.processTable = s.processTable.store pid p') (pid' : ℤ) (vpn' : ℕ) :
    t.page pid' vpn' =
      if pid' = pid then
        if vpn' < p'.space.numPages then some (p'.space.exec, p'.space.pageTable vpn') else none
      else s.page pid' vpn' := by
  by_cases h : pid' = pid
  · subst h
    rw [if_pos rfl, Vm.page, ht, Table.get_store_self p' hp]
  · rw [if_neg h, Vm.page, Vm.page, ht, Table.get_store_of_ne p' hp h]

theorem setSpace_eq (hp : s.processTable.get pid = some p) (a : AddrSpace) :
    s.setSpace pid a =
      { s with processTable := s.processTable.store pid { p with space := a } } := by
  rw [Vm.setSpace, hp]

/-- Assigning one page entry. -/
theorem page_setEntry (hp : s.processTable.get pid = some p) (hvpn : vpn < p.space.numPages)
    (e : PageEntry) (pid' : ℤ) (vpn' : ℕ) :
    (s.setSpace pid (p.space.setEntry vpn e)).page pid' vpn' =
      if pid' = pid ∧ vpn' = vpn then some (p.space.exec, e) else s.page pid' vpn' := by
  rw [setSpace_eq hp, page_store hp rfl]
  by_cases h : pid' = pid
  · subst h
    rw [if_pos rfl, page_of_get hp]
    by_cases hv : vpn' = vpn
    · subst hv
      simp only [AddrSpace.setEntry, hvpn, if_true, Function.update_self, and_self]
    · simp only [AddrSpace.setEntry, Function.update_of_ne hv, hv, and_false, if_false]
  · rw [if_neg h, if_neg (fun hc => h hc.1)]

end Page

/-- What faults do not change of a process. -/
def Vm.outline (s : Vm) (pid : ℤ) : Option (Executable × ℕ × List Thread) :=
  (s.processTable.get pid).map fun p => (p.space.exec, p.space.numPages, p.threads)

theorem outline_of_get {s : Vm} {pid : ℤ} {p : Process} (h : s.processTable.get pid = some p) :
    s.outline pid = some (p.space.exec, p.space.numPages, p.threads) := by
  rw [Vm.outline, h, Option.map_some]

/-- The processes are the same up to their page tables. -/
theorem get_of_outline {s t : Vm} {pid : ℤ} {q : Process} (h : t.outline = s.outline)
    (hq : t.processTable.get pid = some q) :
    ∃ p, s.processTable.get pid = some p ∧ p.space.exec = q.space.exec ∧
      p.space.numPages = q.space.numPages ∧ p.threads = q.threads := by
  have heq := congrFun h pid
  rw [outline_of_get hq] at heq
  obtain ⟨p, hp, hpq⟩ := Option.map_eq_some_iff.mp heq.symm
  simp only [Prod.mk.injEq] at hpq
  exact ⟨p, hp, hpq⟩

theorem get_none_of_outline {s t : Vm} {pid : ℤ} (h : t.outline = s.outline)
    (hnone : s.processTable.get pid = none) : t.processTable.get pid = none := by
  have heq := congrFun h pid
  rw [Vm.outline, Vm.outline, hnone, Option.map_none] at heq
  exact Option.map_eq_none_iff.mp heq

/-- Assigning one page entry leaves the outline. -/
theorem outline_setEntry {s : Vm} {pid : ℤ} {p : Process} (hp : s.processTable.get pid = some p)
    (vpn : ℕ) (e : PageEntry) :
    (s.setSpace pid (p.space.setEntry vpn e)).outline = s.outline := by
  funext pid'
  rw [setSpace_eq hp, Vm.outline, Vm.outline]
  by_cases h : pid' = pid
  · subst h
    rw [Table.get_store_self _ hp, hp]
    rfl
  · rw [Table.get_store_of_ne _ hp h]

/-- The number of live threads that a process has on record. -/
def Vm.threadsLeft (s : Vm) (pid : ℤ) : Option ℕ :=
  (s.processTable.get pid).map Process.childThreadCounter

theorem threadsLeft_setEntry {s : Vm} {pid : ℤ} {p : Process}
    (hp : s.processTable.get pid = some p) (vpn : ℕ) (e : PageEntry) :
    (s.setSpace pid (p.space.setEntry vpn e)).threadsLeft = s.threadsLeft := by
  funext pid'
  rw [setSpace_eq hp, Vm.threadsLeft, Vm.threadsLeft]
  by_cases h : pid' = pid
  · subst h
    rw [Table.get_store_self _ hp, hp]
    rfl
  · rw [Table.get_store_of_ne _ hp h]

/-- The inverted entry is valid and names page `vpn` of process `pid`. -/
structure IptEntry.Maps (i : IptEntry) (pid : ℤ) (vpn : ℕ) : Prop where
  valid : i.valid = true
  pid_eq : i.pid = pid
  vpn_eq : i.virtualPage = vpn

theorem IptEntry.Maps.unique {i : IptEntry} {pid pid' : ℤ} {vpn vpn' : ℕ} (h : i.Maps pid vpn)
    (h' : i.Maps pid' vpn') : pid' = pid ∧ vpn' = vpn :=
  ⟨h'.pid_eq.symm.trans h.pid_eq, h'.vpn_eq.symm.trans h.vpn_eq⟩

/-- A page that waits in the swap file. -/
def PageEntry.Swapped (e : PageEntry) : Prop := e.valid = false ∧ e.status = .swapFile

/-! ## Frames and pages -/

/-- **The frames of the live processes**, with the frame `hole` taken but not yet
filled. -/
structure Frames (hole : Option ℕ) (s : Vm) : Prop where
  /-- A page in memory has its own occupied frame, and the inverted entry names it. -/
  resident : ∀ {pid vpn x e}, s.page pid vpn = some (x, e) → e.valid = true →
    e.physicalPage < numPhysPages ∧ s.bm e.physicalPage = true ∧ hole ≠ some e.physicalPage ∧
      (s.ipt e.physicalPage).Maps pid vpn
  /-- What the inverted entry of a taken frame names is in memory, in that frame. -/
  occupied : ∀ {f}, f < numPhysPages → s.bm f = true → hole ≠ some f →
    ∃ x e, s.page (s.ipt f).pid (s.ipt f).virtualPage = some (x, e) ∧ e.valid = true ∧
      e.physicalPage = f
  hole_taken : ∀ {f}, hole = some f → f < numPhysPages ∧ s.bm f = true
  /-- Under FIFO every page in memory is in the queue. -/
  queued : s.policy = .fifo → ∀ {f}, f < numPhysPages → s.bm f = true → hole ≠ some f →
    f ∈ s.fifoQueue
  queue_lt : s.policy = .fifo → ∀ {f}, f ∈ s.fifoQueue → f < numPhysPages
  /-- The pages of the executable are pages of the process. -/
  code_fits : ∀ {pid x n ths}, s.outline pid = some (x, n, ths) → x.codeAndInitDataNumPages ≤ n
  /-- There are no more processes than `Exec` has started. -/
  table_size : s.processTable.size = 100
  table_free : ∀ {i : ℕ}, 1 + s.threadCounter / 2 ≤ i → s.processTable.get i = none
  boxes : s.threadCounter ≤ numBoxes

/-- Two pages in one frame are one page. -/
theorem Frames.frame_inj {hole : Option ℕ} {s : Vm} (h : Frames hole s) {pid pid' : ℤ}
    {vpn vpn' : ℕ} {x x' : Executable} {e e' : PageEntry} (hp : s.page pid vpn = some (x, e))
    (hp' : s.page pid' vpn' = some (x', e')) (hv : e.valid = true) (hv' : e'.valid = true)
    (heq : e'.physicalPage = e.physicalPage) : pid' = pid ∧ vpn' = vpn := by
  obtain ⟨-, -, -, hmaps⟩ := h.resident hp hv
  obtain ⟨-, -, -, hmaps'⟩ := h.resident hp' hv'
  rw [heq] at hmaps'
  exact hmaps.unique hmaps'

/-! ## Taking a frame -/

section Hole

variable {s t : Vm} {f : ℕ}

theorem ne_hole {f g : ℕ} : some f ≠ some g ↔ g ≠ f := by
  rw [Ne, Ne, Option.some.injEq, eq_comm]

/-- A frame that is not the one just taken was taken before. -/
theorem bm_of_mark {g : ℕ} {b : Bool} (hg : g ≠ f) (hb : s.bm.mark f g = b) : s.bm g = b := by
  rwa [BitMap.mark_of_ne _ hg] at hb

/-- A free frame becomes the hole. -/
theorem Frames.mark (h : Frames none s) (hf : BitMap.find numPhysPages s.bm = some f) :
    Frames (some f) { s with bm := s.bm.mark f } := by
  obtain ⟨hlt, hclear, -⟩ := BitMap.find_some hf
  refine { h with resident := ?_, occupied := ?_, hole_taken := ?_, queued := ?_ }
  case refine_1 =>
    intro pid vpn x e hp hv
    obtain ⟨h1, h2, -, h4⟩ := h.resident hp hv
    have hne : e.physicalPage ≠ f := by
      rintro rfl
      rw [hclear] at h2
      cases h2
    refine ⟨h1, ?_, ne_hole.mpr hne, h4⟩
    show s.bm.mark f _ = true
    rwa [BitMap.mark_of_ne _ hne]
  case refine_2 =>
    intro g hg hb hh
    exact h.occupied hg (bm_of_mark (ne_hole.mp hh) hb) (by simp)
  case refine_3 =>
    intro g hg
    obtain rfl : f = g := Option.some.inj hg
    exact ⟨hlt, BitMap.mark_self _ _⟩
  case refine_4 =>
    intro hpol g hg hb hh
    exact h.queued hpol hg (bm_of_mark (ne_hole.mp hh) hb) (by simp)

/-- What an eviction of frame `phy` into slot `loc` leaves, once the frame is
taken again. The replacement queue may have lost the frame. -/
structure Evicted (s : Vm) (phy loc : ℕ) (t : Vm) : Prop where
  slot_lt : loc < swapFileMaxPages
  slot_free : s.sfBM loc = false
  page : ∀ pid vpn, t.page pid vpn =
    if pid = (s.ipt phy).pid ∧ vpn = (s.ipt phy).virtualPage then
      (s.page pid vpn).map fun (x, e) =>
        (x, { e with status := .swapFile, diskLocation := loc * pageSize, valid := false })
    else s.page pid vpn
  bm : t.bm = s.bm
  sfBM : t.sfBM = s.sfBM.mark loc
  swapFile : t.swapFile = Function.update s.swapFile loc (s.mainMemory phy)
  mainMemory : t.mainMemory = Function.update s.mainMemory phy zeroPage
  tlb : t.tlb = invalidateFrame s.tlb phy
  ipt : t.ipt = s.ipt
  policy : t.policy = s.policy
  queued : ∀ {f}, f ∈ s.fifoQueue → f ≠ phy → f ∈ t.fifoQueue
  queue_sub : ∀ {f}, f ∈ t.fifoQueue → f ∈ s.fifoQueue
  popped : s.policy = .fifo → s.fifoQueue = phy :: t.fifoQueue
  current : t.current = s.current
  threadCounter : t.threadCounter = s.threadCounter
  tlbCounter : t.tlbCounter = s.tlbCounter
  table_size : t.processTable.size = s.processTable.size
  outline : t.outline = s.outline
  threadsLeft : t.threadsLeft = s.threadsLeft

/-- The pages after an eviction: the victim, now swapped, and the others. -/
theorem Evicted.page_cases {phy loc : ℕ} (ht : Evicted s phy loc t) {pid : ℤ} {vpn : ℕ}
    {x : Executable} {e : PageEntry} (hp : t.page pid vpn = some (x, e)) :
    (pid = (s.ipt phy).pid ∧ vpn = (s.ipt phy).virtualPage ∧ e.valid = false ∧
        e.status = .swapFile ∧ e.diskLocation = loc * pageSize) ∨
      (¬ (pid = (s.ipt phy).pid ∧ vpn = (s.ipt phy).virtualPage) ∧
        s.page pid vpn = some (x, e)) := by
  rw [ht.page] at hp
  split at hp
  · rename_i heq
    obtain ⟨xe, -, heq'⟩ := Option.map_eq_some_iff.mp hp
    obtain ⟨-, rfl⟩ := Prod.mk.inj heq'
    exact .inl ⟨heq.1, heq.2, rfl, rfl, rfl⟩
  · rename_i hne
    exact .inr ⟨hne, hp⟩

section Victim

variable {phy loc : ℕ} {pid : ℤ} {vpn : ℕ} {x : Executable} {e : PageEntry}

/-- A page in memory after an eviction was there before, in another frame. -/
theorem Frames.evicted_back (h : Frames none s) (hphy : phy < numPhysPages) (hbm : s.bm phy = true)
    (ht : Evicted s phy loc t) (hp : t.page pid vpn = some (x, e)) (hv : e.valid = true) :
    s.page pid vpn = some (x, e) ∧ e.physicalPage ≠ phy := by
  obtain ⟨xv, ev, hvictim, hvalid, hframe⟩ := h.occupied hphy hbm (by simp)
  rcases ht.page_cases hp with ⟨-, -, hinvalid, -⟩ | ⟨hne, hp'⟩
  · rw [hinvalid] at hv
    cases hv
  · refine ⟨hp', ?_⟩
    intro heq
    exact hne (h.frame_inj hvictim hp' hvalid hv (heq.trans hframe.symm))

/-- A page in another frame is not the victim. -/
theorem Frames.evicted_forth (h : Frames none s) (hphy : phy < numPhysPages)
    (hbm : s.bm phy = true) (ht : Evicted s phy loc t) (hp : s.page pid vpn = some (x, e))
    (hne : e.physicalPage ≠ phy) : t.page pid vpn = some (x, e) := by
  obtain ⟨xv, ev, hvictim, -, hframe⟩ := h.occupied hphy hbm (by simp)
  rw [ht.page, if_neg ?_]
  · exact hp
  · rintro ⟨rfl, rfl⟩
    rw [hvictim] at hp
    simp only [Option.some.injEq, Prod.mk.injEq] at hp
    exact hne (hp.2 ▸ hframe)

/-- The frame of the victim becomes the hole. -/
theorem Frames.evicted (h : Frames none s) (hphy : phy < numPhysPages)
    (hfull : ∀ g < numPhysPages, s.bm g = true) (ht : Evicted s phy loc t) :
    Frames (some phy) t := by
  have hbm := hfull phy hphy
  constructor
  case resident =>
    intro pid vpn x e hp hv
    obtain ⟨hp', hne⟩ := h.evicted_back hphy hbm ht hp hv
    obtain ⟨h1, h2, -, h4⟩ := h.resident hp' hv
    rw [ht.bm, ht.ipt]
    exact ⟨h1, h2, ne_hole.mpr hne, h4⟩
  case occupied =>
    intro g hg _ hh
    rw [ht.ipt]
    obtain ⟨x, e, hp, hv, heq⟩ := h.occupied hg (hfull g hg) (by simp)
    refine ⟨x, e, h.evicted_forth hphy hbm ht hp ?_, hv, heq⟩
    rw [heq]
    exact ne_hole.mp hh
  case hole_taken =>
    intro g hg
    obtain rfl : phy = g := Option.some.inj hg
    rw [ht.bm]
    exact ⟨hphy, hbm⟩
  case queued =>
    intro hpol g hg _ hh
    rw [ht.policy] at hpol
    exact ht.queued (h.queued hpol hg (hfull g hg) (by simp)) (ne_hole.mp hh)
  case queue_lt =>
    intro hpol g hg
    rw [ht.policy] at hpol
    exact h.queue_lt hpol (ht.queue_sub hg)
  case code_fits =>
    rw [ht.outline]
    exact h.code_fits
  case table_size => exact ht.table_size.trans h.table_size
  case table_free =>
    intro i hi
    rw [ht.threadCounter] at hi
    exact get_none_of_outline ht.outline (h.table_free hi)
  case boxes =>
    rw [ht.threadCounter]
    exact h.boxes

end Victim

/-- What is left when the hole `f` has been filled with page `vpn` of process
`pid`. A page that comes from the swap file gives its slot back. -/
structure Installed (s : Vm) (pid : ℤ) (vpn f : ℕ) (x : Executable) (e : PageEntry)
    (contents : Page) (t : Vm) : Prop where
  page : ∀ pid' vpn', t.page pid' vpn' =
    if pid' = pid ∧ vpn' = vpn then some (x, { e with physicalPage := f, valid := true })
    else s.page pid' vpn'
  bm : t.bm = s.bm
  sfBM : t.sfBM =
    if e.status = .swapFile then s.sfBM.clear (e.diskLocation / pageSize) else s.sfBM
  swapFile : t.swapFile = s.swapFile
  mainMemory : t.mainMemory = Function.update s.mainMemory f contents
  tlb : t.tlb = s.tlb
  ipt : t.ipt = Function.update s.ipt f ⟨vpn, pid, true, (s.ipt f).readOnly⟩
  policy : t.policy = s.policy
  fifoQueue : t.fifoQueue = if s.policy = .fifo then s.fifoQueue ++ [f] else s.fifoQueue
  current : t.current = s.current
  threadCounter : t.threadCounter = s.threadCounter
  tlbCounter : t.tlbCounter = s.tlbCounter
  table_size : t.processTable.size = s.processTable.size
  outline : t.outline = s.outline
  threadsLeft : t.threadsLeft = s.threadsLeft

section Filled

variable {pid pid' : ℤ} {vpn vpn' : ℕ} {x x' : Executable} {e e' : PageEntry} {contents : Page}

/-- The pages afterwards: the one brought in, and the others. -/
theorem Installed.page_cases (ht : Installed s pid vpn f x e contents t)
    (hp : t.page pid' vpn' = some (x', e')) :
    (pid' = pid ∧ vpn' = vpn ∧ x' = x ∧ e' = { e with physicalPage := f, valid := true }) ∨
      (¬ (pid' = pid ∧ vpn' = vpn) ∧ s.page pid' vpn' = some (x', e')) := by
  rw [ht.page] at hp
  split at hp
  · rename_i heq
    simp only [Option.some.injEq, Prod.mk.injEq] at hp
    exact .inl ⟨heq.1, heq.2, hp.1.symm, hp.2.symm⟩
  · rename_i hne
    exact .inr ⟨hne, hp⟩

/-- Pages in memory stay. -/
theorem Installed.page_forth (ht : Installed s pid vpn f x e contents t)
    (hpage : s.page pid vpn = some (x, e)) (hv : e.valid = false)
    (hp : s.page pid' vpn' = some (x', e')) (hv' : e'.valid = true) :
    t.page pid' vpn' = some (x', e') := by
  rw [ht.page, if_neg ?_]
  · exact hp
  · rintro ⟨rfl, rfl⟩
    rw [hpage] at hp
    simp only [Option.some.injEq, Prod.mk.injEq] at hp
    rw [← hp.2, hv] at hv'
    cases hv'

/-- The page brought in is not swapped any more. -/
theorem Installed.swapped_back (ht : Installed s pid vpn f x e contents t)
    (hp : t.page pid' vpn' = some (x', e')) (hs : e'.Swapped) :
    ¬ (pid' = pid ∧ vpn' = vpn) ∧ s.page pid' vpn' = some (x', e') := by
  rcases ht.page_cases hp with ⟨-, -, -, rfl⟩ | hp'
  · cases hs.1
  · exact hp'

/-- A page of its own fills the hole. -/
theorem Frames.installed (h : Frames (some f) s) (hpage : s.page pid vpn = some (x, e))
    (hv : e.valid = false) (ht : Installed s pid vpn f x e contents t) : Frames none t := by
  obtain ⟨hf, hbm⟩ := h.hole_taken rfl
  constructor
  case resident =>
    intro pid' vpn' x' e' hp hv'
    rw [ht.bm, ht.ipt]
    rcases ht.page_cases hp with ⟨rfl, rfl, -, rfl⟩ | ⟨-, hp'⟩
    · rw [Function.update_self]
      exact ⟨hf, hbm, by simp, rfl, rfl, rfl⟩
    · obtain ⟨h1, h2, h3, h4⟩ := h.resident hp' hv'
      rw [Function.update_of_ne (ne_hole.mp h3)]
      exact ⟨h1, h2, by simp, h4⟩
  case occupied =>
    intro g hg hb _
    rw [ht.ipt]
    rw [ht.bm] at hb
    by_cases hgf : g = f
    · subst hgf
      rw [Function.update_self]
      refine ⟨x, { e with physicalPage := g, valid := true }, ?_, rfl, rfl⟩
      rw [ht.page, if_pos ⟨rfl, rfl⟩]
    · rw [Function.update_of_ne hgf]
      obtain ⟨x', e', hp, hv', heq⟩ := h.occupied hg hb (ne_hole.mpr hgf)
      exact ⟨x', e', ht.page_forth hpage hv hp hv', hv', heq⟩
  case hole_taken =>
    rintro g ⟨⟩
  case queued =>
    intro hpol g hg hb _
    rw [ht.policy] at hpol
    rw [ht.bm] at hb
    rw [ht.fifoQueue, if_pos hpol, List.mem_append, List.mem_singleton]
    by_cases hgf : g = f
    · exact .inr hgf
    · exact .inl (h.queued hpol hg hb (ne_hole.mpr hgf))
  case queue_lt =>
    intro hpol g hg
    rw [ht.policy] at hpol
    rw [ht.fifoQueue, if_pos hpol, List.mem_append, List.mem_singleton] at hg
    rcases hg with hg | rfl
    · exact h.queue_lt hpol hg
    · exact hf
  case code_fits =>
    rw [ht.outline]
    exact h.code_fits
  case table_size => exact ht.table_size.trans h.table_size
  case table_free =>
    intro i hi
    rw [ht.threadCounter] at hi
    exact get_none_of_outline ht.outline (h.table_free hi)
  case boxes =>
    rw [ht.threadCounter]
    exact h.boxes

end Filled

end Hole

/-! ## The functions -/

section Faults

variable {s t : Vm}

/-- `evict`, written out. -/
theorem evict_eq {phy : ℕ} (h : evict s phy = some t) :
    ∃ loc p, BitMap.find swapFileMaxPages s.sfBM = some loc ∧
      s.processTable.get (s.ipt phy).pid = some p ∧
      t = { s with
        tlb := invalidateFrame s.tlb phy
        sfBM := s.sfBM.mark loc
        swapFile := Function.update s.swapFile loc (s.mainMemory phy)
        mainMemory := Function.update s.mainMemory phy zeroPage
        bm := s.bm.clear phy
        processTable := s.processTable.store (s.ipt phy).pid
          { p with space := p.space.pageToSwapFile (s.ipt phy).virtualPage loc } } := by
  unfold evict at h
  split at h
  · cases h
  · rename_i loc hloc
    split at h
    · cases h
    · rename_i p hp
      refine ⟨loc, p, hloc, hp, ?_⟩
      rw [← Option.some.inj h]
      exact setSpace_eq (s := { s with
        tlb := invalidateFrame s.tlb phy
        sfBM := s.sfBM.mark loc
        swapFile := Function.update s.swapFile loc (s.mainMemory phy)
        mainMemory := Function.update s.mainMemory phy zeroPage
        bm := s.bm.clear phy }) hp _

/-- An eviction, with the frame taken again and the queue changed to `q`. -/
theorem evicted_of_evict (hfr : Frames none s) {phy : ℕ} (hphy : phy < numPhysPages)
    (hbm : s.bm phy = true) (h : evict s phy = some t) {q : List ℕ}
    (hq : ∀ {f}, f ∈ s.fifoQueue → f ≠ phy → f ∈ q) (hq' : ∀ {f}, f ∈ q → f ∈ s.fifoQueue)
    (hpop : s.policy = .fifo → s.fifoQueue = phy :: q) :
    t.bm = s.bm.clear phy ∧ ∃ loc, Evicted s phy loc { t with bm := s.bm, fifoQueue := q } := by
  obtain ⟨loc, p, hloc, hp, rfl⟩ := evict_eq h
  obtain ⟨hlt, hfree, -⟩ := BitMap.find_some hloc
  obtain ⟨x, e, hpage, -, -⟩ := hfr.occupied hphy hbm (by simp)
  obtain ⟨p', hp', hvpn, hx, he⟩ := get_of_page hpage
  obtain rfl : p = p' := Option.some.inj (hp.symm.trans hp')
  refine ⟨rfl, loc, hlt, hfree, ?_, rfl, rfl, rfl, rfl, rfl, rfl, rfl, hq, hq', hpop, rfl, rfl, rfl, rfl, ?_,
    ?_⟩
  · intro pid vpn
    have hset := page_setEntry hp hvpn { p.space.pageTable (s.ipt phy).virtualPage with
      status := .swapFile, diskLocation := loc * pageSize, valid := false } pid vpn
    rw [setSpace_eq hp] at hset
    refine Eq.trans hset ?_
    split
    · rename_i heq
      rw [heq.1, heq.2, hpage, ← hx, ← he]
      rfl
    · rfl
  · have hout := outline_setEntry hp (s.ipt phy).virtualPage
      { p.space.pageTable (s.ipt phy).virtualPage with
        status := .swapFile, diskLocation := loc * pageSize, valid := false }
    rw [setSpace_eq hp] at hout
    exact hout
  · have hleft := threadsLeft_setEntry hp (s.ipt phy).virtualPage
      { p.space.pageTable (s.ipt phy).virtualPage with
        status := .swapFile, diskLocation := loc * pageSize, valid := false }
    rw [setSpace_eq hp] at hleft
    exact hleft

/-- Either policy evicts one page of a full memory. -/
theorem writeOneToSwapFile_cases (hfr : Frames none s) (hfull : ∀ g < numPhysPages, s.bm g = true)
    {rand : ℕ} (h : writeOneToSwapFile s rand = some t) :
    ∃ phy < numPhysPages, t.bm = s.bm.clear phy ∧
      ∃ loc, Evicted s phy loc { t with bm := s.bm } := by
  unfold writeOneToSwapFile at h
  split at h
  · rename_i hpol
    have hphy : rand % 32 < numPhysPages := lt_numPhysPages (Nat.mod_lt _ (by decide))
    have hq : t.fifoQueue = s.fifoQueue := by
      obtain ⟨_, _, _, _, rfl⟩ := evict_eq h
      rfl
    obtain ⟨hclear, loc, hev⟩ := evicted_of_evict hfr hphy (hfull _ hphy) h
      (q := t.fifoQueue) (fun hf _ => hq ▸ hf) (fun hf => hq ▸ hf)
      (by simp [hpol])
    exact ⟨_, hphy, hclear, loc, hev⟩
  · rename_i hpol
    split at h
    · cases h
    · rename_i phy rest hq
      obtain ⟨u, hu, rfl⟩ := Option.map_eq_some_iff.mp h
      have hphy : phy < numPhysPages := hfr.queue_lt hpol (hq ▸ List.mem_cons_self)
      have hrest : ∀ {f}, f ∈ s.fifoQueue → f ≠ phy → f ∈ rest := by
        intro f hf hne
        rw [hq] at hf
        exact (List.mem_cons.mp hf).resolve_left hne
      have hsub : ∀ {f}, f ∈ rest → f ∈ s.fifoQueue := by
        intro f hf
        rw [hq]
        exact List.mem_cons_of_mem _ hf
      obtain ⟨hclear, loc, hev⟩ := evicted_of_evict hfr hphy (hfull _ hphy) hu hrest hsub
        (fun _ => hq)
      exact ⟨phy, hphy, hclear, loc, hev⟩

/-- **What `findFrame` does**: it takes a free frame, or makes one by an eviction. -/
theorem findFrame_cases (hfr : Frames none s) {rand f : ℕ} (h : findFrame s rand = some (t, f)) :
    (BitMap.find numPhysPages s.bm = some f ∧ t = { s with bm := s.bm.mark f }) ∨
      (f < numPhysPages ∧ (∀ g < numPhysPages, s.bm g = true) ∧ ∃ loc, Evicted s f loc t) := by
  unfold findFrame at h
  split at h
  · rename_i g hg
    simp only [Option.some.injEq, Prod.mk.injEq] at h
    obtain ⟨rfl, rfl⟩ := h
    exact .inl ⟨hg, rfl⟩
  · rename_i hnone
    have hfull := BitMap.find_none hnone
    split at h
    · cases h
    · rename_i u hu
      obtain ⟨phy, hphy, hclear, loc, hev⟩ := writeOneToSwapFile_cases hfr hfull hu
      obtain ⟨hfind, hmark⟩ := BitMap.find_clear hfull hphy
      rw [hclear, hfind] at h
      simp only [Option.some.injEq, Prod.mk.injEq] at h
      obtain ⟨rfl, rfl⟩ := h
      refine .inr ⟨hphy, hfull, loc, ?_⟩
      rwa [hmark]

theorem Frames.findFrame (hfr : Frames none s) {rand f : ℕ} (h : findFrame s rand = some (t, f)) :
    Frames (some f) t := by
  rcases findFrame_cases hfr h with ⟨hfind, rfl⟩ | ⟨hf, hfull, loc, hev⟩
  · exact hfr.mark hfind
  · exact hfr.evicted hf hfull hev

/-- A page that is not in memory is not touched by taking a frame. -/
theorem page_findFrame (hfr : Frames none s) {rand f : ℕ} (h : VM.findFrame s rand = some (t, f))
    {pid : ℤ} {vpn : ℕ} {x : Executable} {e : PageEntry} (hp : s.page pid vpn = some (x, e))
    (hv : e.valid = false) : t.page pid vpn = some (x, e) := by
  rcases findFrame_cases hfr h with ⟨-, rfl⟩ | ⟨hf, hfull, loc, hev⟩
  · exact hp
  · rw [hev.page, if_neg ?_]
    · exact hp
    · rintro ⟨rfl, rfl⟩
      obtain ⟨x', e', hp', hv', -⟩ := hfr.occupied hf (hfull f hf) (by simp)
      rw [hp] at hp'
      simp only [Option.some.injEq, Prod.mk.injEq] at hp'
      rw [hp'.2, hv'] at hv
      cases hv

/-- `install` leaves the swap map. -/
theorem install_sfBM (pid : ℤ) (a : AddrSpace) (vpn f : ℕ) (contents : Page) :
    { install s pid a vpn f contents with sfBM := s.sfBM } = install s pid a vpn f contents := by
  cases h : s.processTable.get pid <;> simp only [install, Vm.setSpace, h]

/-- `install` with the swap map changed to `m`, seen as a description. -/
theorem installed_of_install {pid : ℤ} {vpn : ℕ} {p : Process} (f : ℕ) (contents : Page)
    {m : BitMap} (hp : s.processTable.get pid = some p) (hvpn : vpn < p.space.numPages)
    (hm : m = if (p.space.pageTable vpn).status = .swapFile then
      s.sfBM.clear ((p.space.pageTable vpn).diskLocation / pageSize) else s.sfBM) :
    Installed s pid vpn f p.space.exec (p.space.pageTable vpn) contents
      { install s pid p.space vpn f contents with sfBM := m } := by
  have hset := page_setEntry hp hvpn { p.space.pageTable vpn with physicalPage := f, valid := true }
  have hout := outline_setEntry hp vpn { p.space.pageTable vpn with physicalPage := f, valid := true }
  have hleft := threadsLeft_setEntry hp vpn
    { p.space.pageTable vpn with physicalPage := f, valid := true }
  rw [setSpace_eq hp] at hset hout hleft
  have heq : install s pid p.space vpn f contents = { s with
      mainMemory := Function.update s.mainMemory f contents
      ipt := Function.update s.ipt f ⟨vpn, pid, true, (s.ipt f).readOnly⟩
      fifoQueue := if s.policy = .fifo then s.fifoQueue ++ [f] else s.fifoQueue
      processTable := s.processTable.store pid { p with
        space := p.space.setEntry vpn
          { p.space.pageTable vpn with physicalPage := f, valid := true } } } :=
    setSpace_eq (s := { s with
      mainMemory := Function.update s.mainMemory f contents
      ipt := Function.update s.ipt f ⟨vpn, pid, true, (s.ipt f).readOnly⟩
      fifoQueue := if s.policy = .fifo then s.fifoQueue ++ [f] else s.fifoQueue }) hp _
  rw [heq]
  exact ⟨hset, rfl, hm, rfl, rfl, rfl, rfl, rfl, rfl, rfl, rfl, rfl, rfl, hout, hleft⟩

end Faults

/-! ## Faults -/

/-- What `updateIPT` fills frame `f` with for page `vpn` with entry `e`. -/
def Vm.broughtIn (s : Vm) (x : Executable) (vpn f : ℕ) (e : PageEntry) : Page :=
  if e.status ≠ .swapFile then
    if vpn < x.codeAndInitDataNumPages then x.loadPage vpn e.diskLocation else s.mainMemory f
  else s.swapFile (e.diskLocation / pageSize)

section Handler

variable {s t : Vm} {pid : ℤ} {vpn vaddr rand : ℕ} {x : Executable} {e : PageEntry}

/-- Taking a frame brings no page in. -/
theorem findFrame_valid (hfr : Frames none s) {f : ℕ} (h : findFrame s rand = some (t, f))
    (hp : t.page pid vpn = some (x, e)) (hv : e.valid = true) : s.page pid vpn = some (x, e) := by
  rcases findFrame_cases hfr h with ⟨-, rfl⟩ | ⟨-, -, loc, hev⟩
  · exact hp
  · rcases hev.page_cases hp with ⟨-, -, hinvalid, -⟩ | ⟨-, hp'⟩
    · rw [hinvalid] at hv
      cases hv
    · exact hp'

/-- **What `updateIPT` does to a page that is not in memory**: it takes a frame and
brings the page in. -/
theorem updateIPT_cases (hfr : Frames none s) (hp : s.page pid (vaddr / pageSize) = some (x, e))
    (hv : e.valid = false) (h : updateIPT s vaddr pid rand = some t) :
    ∃ u f, findFrame s rand = some (u, f) ∧ u.page pid (vaddr / pageSize) = some (x, e) ∧
      Installed u pid (vaddr / pageSize) f x e (u.broughtIn x (vaddr / pageSize) f e) t := by
  obtain ⟨p, hget, hvpn, hx, he⟩ := get_of_page hp
  simp only [updateIPT, hget, Nat.not_le.mpr hvpn, if_false] at h
  split at h
  · cases h
  · rename_i u f hu
    have hp' := page_findFrame hfr hu hp hv
    obtain ⟨p', hget', hvpn', hx', he'⟩ := get_of_page hp'
    have hins := installed_of_install f (u.broughtIn x (vaddr / pageSize) f e) hget' hvpn' rfl
    refine ⟨u, f, hu, hp', ?_⟩
    rw [hx', he'] at hins
    simp only [hget', he, he', hx'] at h
    by_cases hst : e.status = .swapFile
    · have hcont : u.broughtIn x (vaddr / pageSize) f e =
          u.swapFile (e.diskLocation / pageSize) := by
        rw [Vm.broughtIn, if_neg (not_not.mpr hst)]
      rw [if_neg (not_not.mpr hst), ← hcont] at h
      rw [if_pos hst] at hins
      exact Option.some.inj h ▸ hins
    · rw [if_neg hst, install_sfBM] at hins
      rw [if_pos hst] at h
      split at h
      · rename_i hcode
        have hcont : u.broughtIn x (vaddr / pageSize) f e =
            x.loadPage (vaddr / pageSize) e.diskLocation := by
          rw [Vm.broughtIn, if_pos hst, if_pos hcode]
        rw [← hcont] at h
        exact Option.some.inj h ▸ hins
      · rename_i hcode
        have hcont : u.broughtIn x (vaddr / pageSize) f e = u.mainMemory f := by
          rw [Vm.broughtIn, if_pos hst, if_neg hcode]
        rw [← hcont] at h
        exact Option.some.inj h ▸ hins

theorem findIPTIndex_some {k : ℕ} (h : findIPTIndex s pid vpn = some k) :
    k < numPhysPages ∧ (s.ipt k).Maps pid vpn := by
  have hk := List.mem_range.mp (List.mem_of_find?_eq_some h)
  have hpred := List.find?_some h
  simp only [Bool.and_eq_true, beq_iff_eq] at hpred
  exact ⟨hk, hpred.1.1, hpred.1.2, hpred.2⟩

/-- A mapped page is found. -/
theorem findIPTIndex_isSome {f : ℕ} (hf : f < numPhysPages) (h : (s.ipt f).Maps pid vpn) :
    ∃ k, findIPTIndex s pid vpn = some k := by
  rw [← Option.ne_none_iff_exists']
  intro hnone
  have := List.find?_eq_none.mp hnone f (List.mem_range.mpr hf)
  simp [h.valid, h.pid_eq, h.vpn_eq] at this

theorem Frames.findIPTIndex (hfr : Frames none s) (hp : s.page pid vpn = some (x, e))
    (hv : e.valid = true) : ∃ k, findIPTIndex s pid vpn = some k := by
  obtain ⟨hlt, -, -, hmaps⟩ := hfr.resident hp hv
  exact findIPTIndex_isSome hlt hmaps

/-- A page that is not found is not in memory. -/
theorem findIPTIndex_none (hfr : Frames none s) (hp : s.page pid vpn = some (x, e))
    (h : findIPTIndex s pid vpn = none) : e.valid = false := by
  by_contra hv
  obtain ⟨k, hk⟩ := hfr.findIPTIndex hp (by simpa using hv)
  rw [h] at hk
  cases hk

/-- A page fault that goes through is one of a page. -/
theorem page_of_updateIPT (h : updateIPT s vaddr pid rand = some t) :
    ∃ x e, s.page pid (vaddr / pageSize) = some (x, e) := by
  cases hp : s.processTable.get pid with
  | none => simp only [updateIPT, hp, reduceCtorEq] at h
  | some p =>
      rw [page_of_get hp]
      by_cases hlt : p.space.numPages ≤ vaddr / pageSize
      · simp only [updateIPT, hp, if_pos hlt, reduceCtorEq] at h
      · rw [if_pos (Nat.not_le.mp hlt)]
        exact ⟨_, _, rfl⟩

end Handler

end Nachos.VM
