import Nachos.VM.Transparency

/-!
# What exits leave behind

An exit clears bits of the frame map. The frames keep their contents, the inverted
page table keeps its entries, and the page entries of a finished thread's stack
keep their place in the swap file. `Vm.wiped` is the machine as it would be with
all of this removed. A fault is clean when it does not meet what was left: then
the machine and the wiped machine handle it alike, and the invariant of the
paging structures, which exits break, holds of the wiped machine through every
run of clean faults.
-/

namespace Nachos.VM

open Nachos.Userprog Nachos.Lib

/-! ## The wiped machine -/

/-- A stack page that `DecreaseStackSpace` has given up. The main thread keeps its
stack when it exits. -/
def Process.GivenUp (p : Process) (vpn : ℕ) : Prop :=
  ∃ tid < p.threads.length, 0 < tid ∧ ∃ th ∈ p.threads[tid]?, th.finished = true ∧
    ∃ start ∈ th.startVPN, start ≤ vpn ∧ vpn < start + 8

instance (p : Process) (vpn : ℕ) : Decidable (p.GivenUp vpn) :=
  inferInstanceAs (Decidable (∃ tid < p.threads.length, _))

/-- Only the bytes of a page count. -/
def trim (page : Page) : Page := fun o => if o < pageSize then page o else 0

/-- The given up pages have never been used. -/
def Process.wiped (p : Process) : Process :=
  { p with
    space := { p.space with
      pageTable := fun vpn => if p.GivenUp vpn then .fresh else p.space.pageTable vpn } }

/-- The free frames are zero and have no inverted entry. -/
def Vm.wiped (s : Vm) : Vm :=
  { s with
    mainMemory := fun f => if s.bm f then trim (s.mainMemory f) else zeroPage
    ipt := fun f => { s.ipt f with valid := s.bm f && (s.ipt f).valid }
    swapFile := fun slot => trim (s.swapFile slot)
    processTable := s.processTable.map Process.wiped }

section Trim

variable {page : Page}

theorem trim_zero : trim zeroPage = zeroPage := by
  funext o
  unfold trim zeroPage
  split <;> rfl

theorem trim_eq_zero (h : ∀ o < pageSize, page o = 0) : trim page = zeroPage := by
  funext o
  unfold trim
  split
  · rename_i ho
    exact h o ho
  · rfl

theorem trim_eq_self (h : ∀ o, pageSize ≤ o → page o = 0) : trim page = page := by
  funext o
  unfold trim
  split
  · rfl
  · rename_i ho
    exact (h o (Nat.not_lt.mp ho)).symm

/-- What is loaded from the executable is at most a page. -/
theorem trim_loadPage {x : Executable} {vpn : ℕ} (hvpn : vpn < x.codeAndInitDataNumPages) (loc : ℕ) :
    trim (x.loadPage vpn loc) = x.loadPage vpn loc := by
  refine trim_eq_self ?_
  intro o ho
  have hpages : x.codeAndInitDataNumPages = divRoundUp x.codeAndInitDataSize pageSize := rfl
  unfold divRoundUp at hpages
  rw [Executable.loadPage, Executable.readAt, if_neg ?_]
  · rfl
  · unfold pageSize at *
    split at hpages <;> split <;> omega

theorem trim_storeBytes {offset : ℕ} {bytes : List UInt8} (h : offset + bytes.length ≤ pageSize) :
    trim (storeBytes page offset bytes) = storeBytes (trim page) offset bytes := by
  funext o
  simp only [trim, storeBytes_apply]
  by_cases ho : o < pageSize
  · simp only [if_pos ho]
  · have hnone : bytes[o - offset]? = none := List.getElem?_eq_none (by omega)
    simp only [if_neg ho, hnone, Option.getD_none, ite_self]

end Trim

section Wiped

variable {s : Vm} {pid : ℤ} {p p' : Process} {vpn f : ℕ}

theorem givenUp_iff : p.GivenUp vpn ↔ ∃ tid start, 0 < tid ∧
    p.threads[tid]? = some ⟨some start, true⟩ ∧ start ≤ vpn ∧ vpn < start + 8 := by
  constructor
  · rintro ⟨tid, -, hpos, ⟨startVPN, finished⟩, hth, hfin, start, hstart, hle, hlt⟩
    obtain rfl : finished = true := hfin
    obtain rfl : startVPN = some start := hstart
    exact ⟨tid, start, hpos, hth, hle, hlt⟩
  · rintro ⟨tid, start, hpos, hth, hle, hlt⟩
    have hlen := (List.getElem?_eq_some_iff.mp hth).1
    exact ⟨tid, hlen, hpos, _, hth, rfl, start, rfl, hle, hlt⟩

theorem GivenUp.congr (h : p'.threads = p.threads) : p'.GivenUp vpn ↔ p.GivenUp vpn := by
  rw [givenUp_iff, givenUp_iff, h]

theorem get_wiped (s : Vm) (pid : ℤ) :
    s.wiped.processTable.get pid = (s.processTable.get pid).map Process.wiped :=
  Table.get_map _ _ _

/-- The entry of a page that was not given up. -/
theorem wiped_pageTable (h : ¬ p.GivenUp vpn) :
    p.wiped.space.pageTable vpn = p.space.pageTable vpn := if_neg h

theorem ipt_wiped (h : s.bm f = true) : s.wiped.ipt f = s.ipt f := by
  simp only [Vm.wiped, h, Bool.true_and]

theorem mainMemory_wiped (h : s.bm f = true) : s.wiped.mainMemory f = trim (s.mainMemory f) :=
  if_pos h

theorem wiped_setEntry (h : ¬ p.GivenUp vpn) (e : PageEntry) :
    Process.wiped { p with space := p.space.setEntry vpn e } =
      { p.wiped with space := p.wiped.space.setEntry vpn e } := by
  have htable : (fun v => if p.GivenUp v then .fresh else Function.update p.space.pageTable vpn e v) =
      Function.update p.wiped.space.pageTable vpn e := by
    funext v
    by_cases hv : v = vpn
    · subst hv
      rw [if_neg h, Function.update_self, Function.update_self]
    · rw [Function.update_of_ne hv, Function.update_of_ne hv]
      rfl
  simp only [Process.wiped, AddrSpace.setEntry, Process.mk.injEq, AddrSpace.mk.injEq, true_and,
    and_true]
  exact htable

/-- A new process has one thread only. -/
theorem create_threads (x : Executable) {tid : ℕ} (h : 0 < tid) :
    (Process.create x).threads[tid]? = none := by
  rw [Process.create, List.getElem?_eq_none]
  exact h

theorem not_givenUp_create (x : Executable) (vpn : ℕ) : ¬ (Process.create x).GivenUp vpn := by
  intro hgone
  obtain ⟨tid, start, hpos, hth, -⟩ := givenUp_iff.mp hgone
  rw [create_threads x hpos] at hth
  cases hth

theorem wiped_create (x : Executable) : (Process.create x).wiped = .create x := by
  simp only [Process.wiped, not_givenUp_create, if_false]

end Wiped

/-! ## Clean faults -/

/-- The page of a live process was given up. -/
def Vm.GivenUp (s : Vm) (pid : ℤ) (vpn : ℕ) : Prop := ∃ p ∈ s.processTable.get pid, p.GivenUp vpn

instance (s : Vm) (pid : ℤ) (vpn : ℕ) : Decidable (s.GivenUp pid vpn) :=
  inferInstanceAs (Decidable (∃ p ∈ s.processTable.get pid, _))

/-- The page has its first contents to come from nowhere: it is uninitialised data
or stack, and was never swapped. -/
def Vm.Uninitialised (s : Vm) (pid : ℤ) (vpn : ℕ) : Prop :=
  ∃ p ∈ s.processTable.get pid, p.space.exec.codeAndInitDataNumPages ≤ vpn ∧
    (p.space.pageTable vpn).status ≠ .swapFile

instance (s : Vm) (pid : ℤ) (vpn : ℕ) : Decidable (s.Uninitialised pid vpn) :=
  inferInstanceAs (Decidable (∃ p ∈ s.processTable.get pid, _))

/-- **A fault that meets nothing of what exits leave behind**: the page was not
given up, the inverted page table does not send it to a free frame, and if it
needs a frame for a page without contents and there is a free one, that one is
zero. -/
structure CleanFault (s : Vm) (pid : ℤ) (vpn : ℕ) : Prop where
  kept : ¬ s.GivenUp pid vpn
  in_use : ∀ k ∈ findIPTIndex s pid vpn, s.bm k = true
  zero : findIPTIndex s pid vpn = none → s.Uninitialised pid vpn →
    ∀ f ∈ BitMap.find numPhysPages s.bm, ∀ o < pageSize, s.mainMemory f o = 0

instance (s : Vm) (pid : ℤ) (vpn : ℕ) : Decidable (CleanFault s pid vpn) :=
  decidable_of_iff (¬ s.GivenUp pid vpn ∧ (∀ k ∈ findIPTIndex s pid vpn, s.bm k = true) ∧
      (findIPTIndex s pid vpn = none → s.Uninitialised pid vpn →
        ∀ f ∈ BitMap.find numPhysPages s.bm, ∀ o < pageSize, s.mainMemory f o = 0))
    ⟨fun h => ⟨h.1, h.2.1, h.2.2⟩, fun h => ⟨h.kept, h.in_use, h.zero⟩⟩

/-- The faults of an access are clean, if it has any. -/
def cleanReuse {ε : Type} : List ε → Vm → Label → Prop := fun _ s l =>
  match l with
  | .read vaddr size _ => translate s vaddr size false = .error .pageFault →
      ∀ c ∈ s.current, CleanFault s c.1 (vaddr / pageSize)
  | .write vaddr bytes _ => translate s vaddr bytes.length true = .error .pageFault →
      ∀ c ∈ s.current, CleanFault s c.1 (vaddr / pageSize)
  | _ => True

instance {ε : Type} (tr : List ε) (s : Vm) : (l : Label) → Decidable (cleanReuse tr s l)
  | .read .. | .write .. => inferInstanceAs (Decidable (_ → ∀ c ∈ s.current, _))
  | .exec _ | .fork | .start .. | .run .. | .exit => inferInstanceAs (Decidable True)

/-! ## Faults of the wiped machine -/

section Faults

variable {s t u u' : Vm} {pid : ℤ} {p : Process} {vpn f phy rand vaddr : ℕ}

/-- A page in memory was not given up. -/
theorem not_givenUp_of_valid {x : Executable} {e : PageEntry} (hp : s.processTable.get pid = some p)
    (hpage : s.wiped.page pid vpn = some (x, e)) (hv : e.valid = true) : ¬ p.GivenUp vpn := by
  intro hgone
  obtain ⟨q, hq, -, -, rfl⟩ := get_of_page hpage
  rw [get_wiped, hp, Option.map_some] at hq
  obtain rfl := Option.some.inj hq
  rw [show p.wiped.space.pageTable vpn = .fresh from if_pos hgone] at hv
  cases hv

theorem findIPTIndex_wiped (h : ∀ k ∈ findIPTIndex s pid vpn, s.bm k = true) :
    findIPTIndex s.wiped pid vpn = findIPTIndex s pid vpn := by
  -- wiping takes entries away
  have hsub : ∀ k, ((s.wiped.ipt k).valid && (s.wiped.ipt k).pid == pid &&
      (s.wiped.ipt k).virtualPage == vpn) = (s.bm k && ((s.ipt k).valid && (s.ipt k).pid == pid &&
        (s.ipt k).virtualPage == vpn)) := by
    intro k
    simp only [Vm.wiped, Bool.and_assoc]
  cases hfind : findIPTIndex s pid vpn with
  | none =>
      refine List.find?_eq_none.mpr ?_
      intro k hk
      have hk' := List.find?_eq_none.mp hfind k hk
      rw [hsub]
      simp only [Bool.not_eq_true] at hk'
      rw [hk', Bool.and_false]
      simp
  | some k =>
      obtain ⟨hpred, as, bs, heq, hbefore⟩ := List.find?_eq_some_iff_append.mp hfind
      refine List.find?_eq_some_iff_append.mpr ⟨?_, as, bs, heq, ?_⟩
      · rw [hsub, h k hfind, hpred]
        rfl
      · intro a ha
        have := hbefore a ha
        rw [hsub, Bool.not_eq_true'] at *
        rw [this, Bool.and_false]

theorem addTLB_wiped (h : s.bm f = true) : addTLB s.wiped f = (addTLB s f).wiped := by
  have hipt := ipt_wiped h
  simp only [addTLB, hipt]
  rfl

/-- **An eviction**, with the frame taken again and the queue changed to `q`. -/
theorem evict_wiped (hinv : Inv none s.wiped) (hphy : phy < numPhysPages) (hbm : s.bm phy = true)
    (h : evict s phy = some t) (q : List ℕ) :
    (t.bm = s.bm.clear phy ∧ t.ipt = s.ipt ∧ t.mainMemory phy = zeroPage) ∧
      ∃ t', evict s.wiped phy = some t' ∧ t'.bm = s.bm.clear phy ∧
      { t' with bm := s.bm, fifoQueue := q } = { t with bm := s.bm, fifoQueue := q }.wiped := by
  obtain ⟨loc, p, hloc, hp, rfl⟩ := evict_eq h
  have hget : s.wiped.processTable.get (s.ipt phy).pid = some p.wiped := by
    rw [get_wiped, hp, Option.map_some]
  have hkept : ¬ p.GivenUp (s.ipt phy).virtualPage := by
    obtain ⟨x, e, hpage, hv, -⟩ := hinv.frames.occupied hphy hbm (by simp)
    rw [ipt_wiped hbm] at hpage
    exact not_givenUp_of_valid hp hpage hv
  refine ⟨⟨rfl, rfl, Function.update_self ..⟩, ?_⟩
  obtain ⟨t', ht'⟩ : ∃ t', evict s.wiped phy = some t' := by
    unfold evict
    rw [show BitMap.find swapFileMaxPages s.wiped.sfBM = some loc from hloc,
      show s.wiped.processTable.get (s.wiped.ipt phy).pid = some p.wiped from hget]
    exact ⟨_, rfl⟩
  refine ⟨t', ht', ?_⟩
  obtain ⟨loc', p', hloc', hp', rfl⟩ := evict_eq ht'
  obtain rfl : loc = loc' := Option.some.inj (hloc.symm.trans hloc')
  obtain rfl : p.wiped = p' := Option.some.inj (hget.symm.trans hp')
  refine ⟨rfl, ?_⟩
  have hmem : Function.update s.wiped.mainMemory phy zeroPage = fun f =>
      if s.bm f then trim (Function.update s.mainMemory phy zeroPage f) else zeroPage := by
    funext f
    by_cases hf : f = phy
    · subst hf
      rw [if_pos hbm, Function.update_self, Function.update_self, trim_zero]
    · rw [Function.update_of_ne hf, Function.update_of_ne hf]
      rfl
  have hswap : Function.update s.wiped.swapFile loc (s.wiped.mainMemory phy) =
      fun slot => trim (Function.update s.swapFile loc (s.mainMemory phy) slot) := by
    rw [mainMemory_wiped hbm]
    exact (Function.comp_update trim s.swapFile loc _).symm
  have htable : s.wiped.processTable.store (s.ipt phy).pid { p.wiped with
        space := p.wiped.space.pageToSwapFile (s.ipt phy).virtualPage loc } =
      (s.processTable.store (s.ipt phy).pid { p with
        space := p.space.pageToSwapFile (s.ipt phy).virtualPage loc }).map Process.wiped := by
    rw [Table.map_store, AddrSpace.pageToSwapFile, wiped_pageTable hkept]
    congr 1
    exact (wiped_setEntry hkept _).symm
  simp only [Vm.wiped, Vm.mk.injEq, true_and, and_true]
  exact ⟨hmem, hswap, htable⟩

theorem writeOneToSwapFile_wiped (hinv : Inv none s.wiped)
    (hfull : ∀ g < numPhysPages, s.bm g = true) (h : writeOneToSwapFile s rand = some t) :
    ∃ phy < numPhysPages, (t.bm = s.bm.clear phy ∧ t.ipt = s.ipt ∧ t.mainMemory phy = zeroPage) ∧
      ∃ t', writeOneToSwapFile s.wiped rand = some t' ∧ t'.bm = s.bm.clear phy ∧
        { t' with bm := s.bm } = { t with bm := s.bm }.wiped := by
  unfold writeOneToSwapFile at h ⊢
  cases hpol : s.policy with
  | rand =>
      have hphy : rand % 32 < numPhysPages := lt_numPhysPages (Nat.mod_lt _ (by decide))
      rw [hpol] at h
      obtain ⟨hclear, t', ht', hclear', heq⟩ :=
        evict_wiped hinv hphy (hfull _ hphy) h t.fifoQueue
      have hq : t'.fifoQueue = t.fifoQueue := by
        obtain ⟨_, _, _, _, rfl⟩ := evict_eq ht'
        obtain ⟨_, _, _, _, rfl⟩ := evict_eq h
        rfl
      refine ⟨_, hphy, hclear, t', ?_, hclear', ?_⟩
      · rw [show s.wiped.policy = .rand from hpol]
        exact ht'
      · rw [← hq] at heq
        rw [heq, hq]
  | fifo =>
      rw [hpol] at h
      cases hq : s.fifoQueue with
      | nil =>
          rw [hq] at h
          cases h
      | cons phy rest =>
          rw [hq] at h
          obtain ⟨u, hu, rfl⟩ := Option.map_eq_some_iff.mp h
          have hphy : phy < numPhysPages := hinv.queue_lt hpol (hq ▸ List.mem_cons_self)
          obtain ⟨hclear, u', hu', hclear', heq⟩ :=
            evict_wiped hinv hphy (hfull _ hphy) hu rest
          refine ⟨phy, hphy, hclear, { u' with fifoQueue := rest }, ?_, hclear', heq⟩
          rw [show s.wiped.policy = .fifo from hpol, show s.wiped.fifoQueue = phy :: rest from hq]
          exact Option.map_eq_some_iff.mpr ⟨u', hu', rfl⟩

/-- **Taking a frame.** The wiped machine takes the same one; there it is zero. -/
theorem findFrame_wiped (hinv : Inv none s.wiped) (h : findFrame s rand = some (u, f)) :
    f < numPhysPages ∧ u.bm f = true ∧ u.ipt = s.ipt ∧ ∃ u' i, findFrame s.wiped rand = some (u', f) ∧
      i.readOnly = (u.ipt f).readOnly ∧
      u' = { u.wiped with
        mainMemory := Function.update u.wiped.mainMemory f zeroPage
        ipt := Function.update u.wiped.ipt f i } := by
  unfold findFrame at h ⊢
  cases hfind : BitMap.find numPhysPages s.bm with
  | some g =>
      rw [hfind] at h
      simp only [Option.some.injEq, Prod.mk.injEq] at h
      obtain ⟨rfl, rfl⟩ := h
      obtain ⟨hlt, hfree, -⟩ := BitMap.find_some hfind
      refine ⟨hlt, BitMap.mark_self _ _, rfl, { s.wiped with bm := s.bm.mark g }, s.wiped.ipt g, ?_, rfl, ?_⟩
      · rw [show BitMap.find numPhysPages s.wiped.bm = some g from hfind]
        rfl
      · have hmem : s.wiped.mainMemory = Function.update (fun f =>
            if s.bm.mark g f then trim (s.mainMemory f) else zeroPage) g zeroPage := by
          funext f
          by_cases hf : f = g
          · subst hf
            rw [Function.update_self]
            exact if_neg (by rw [hfree]; decide)
          · rw [Function.update_of_ne hf, BitMap.mark_of_ne _ hf]
            rfl
        have hipt : s.wiped.ipt = Function.update (fun f =>
            { s.ipt f with valid := s.bm.mark g f && (s.ipt f).valid }) g (s.wiped.ipt g) := by
          funext f
          by_cases hf : f = g
          · subst hf
            rw [Function.update_self]
          · rw [Function.update_of_ne hf, BitMap.mark_of_ne _ hf]
            rfl
        simp only [Vm.wiped, Vm.mk.injEq, true_and, and_true]
        exact ⟨hmem, hipt⟩
  | none =>
      rw [hfind] at h
      have hfull := BitMap.find_none hfind
      cases hw : writeOneToSwapFile s rand with
      | none =>
          rw [hw] at h
          cases h
      | some t =>
          obtain ⟨phy, hphy, ⟨hclear, hipt, hzero⟩, t', ht', hclear', heq⟩ :=
            writeOneToSwapFile_wiped hinv hfull hw
          obtain ⟨hgot, hmark⟩ := BitMap.find_clear hfull hphy
          simp only [hw, hclear, hgot, hmark, Option.some.injEq, Prod.mk.injEq] at h
          obtain ⟨rfl, rfl⟩ := h
          have hused : { t with bm := s.bm }.bm phy = true := hfull phy hphy
          refine ⟨hphy, hused, hipt, { t' with bm := s.bm }, t.ipt phy, ?_, rfl, ?_⟩
          · simp only [show BitMap.find numPhysPages s.wiped.bm = none from hfind, ht', hclear',
              hgot, hmark]
          · rw [heq]
            have hmem : Function.update ({ t with bm := s.bm }.wiped).mainMemory phy zeroPage =
                ({ t with bm := s.bm }.wiped).mainMemory := by
              rw [Function.update_eq_self_iff, mainMemory_wiped hused]
              exact (trim_zero.symm.trans (congrArg trim hzero.symm))
            have hsame : Function.update ({ t with bm := s.bm }.wiped).ipt phy (t.ipt phy) =
                ({ t with bm := s.bm }.wiped).ipt := by
              rw [Function.update_eq_self_iff, ipt_wiped hused]
            rw [hmem, hsame]

/-- The frame taken is zero if the first free one is: a frame that is evicted is
cleared. -/
theorem findFrame_zero (hinv : Inv none s.wiped) (h : findFrame s rand = some (u, f))
    (hzero : ∀ g ∈ BitMap.find numPhysPages s.bm, ∀ o < pageSize, s.mainMemory g o = 0) :
    ∀ o < pageSize, u.mainMemory f o = 0 := by
  unfold findFrame at h
  cases hfind : BitMap.find numPhysPages s.bm with
  | some g =>
      rw [hfind] at h
      obtain ⟨rfl, rfl⟩ := Prod.mk.inj (Option.some.inj h)
      exact hzero g hfind
  | none =>
      rw [hfind] at h
      have hfull := BitMap.find_none hfind
      cases hw : writeOneToSwapFile s rand with
      | none =>
          rw [hw] at h
          cases h
      | some t =>
          obtain ⟨phy, hphy, ⟨hclear, -, hcleared⟩, -⟩ := writeOneToSwapFile_wiped hinv hfull hw
          obtain ⟨hgot, hmark⟩ := BitMap.find_clear hfull hphy
          simp only [hw, hclear, hgot, hmark, Option.some.injEq, Prod.mk.injEq] at h
          obtain ⟨rfl, rfl⟩ := h
          intro o _
          show t.mainMemory phy o = 0
          rw [hcleared]
          rfl

/-- Taking a frame changes neither executables nor threads. -/
theorem findFrame_process {q : Process} (hinv : Inv none s.wiped)
    (h : findFrame s rand = some (u, f)) (hp : s.processTable.get pid = some p)
    (hq : u.processTable.get pid = some q) : q.space.exec = p.space.exec ∧ q.threads = p.threads := by
  obtain ⟨-, -, -, u', i, hframe, -, hu'⟩ := findFrame_wiped hinv h
  obtain ⟨-, hout, -⟩ := findFrame_frame hinv hframe
  have hget : s.wiped.processTable.get pid = some p.wiped := by
    rw [get_wiped, hp, Option.map_some]
  have hget' : u'.processTable.get pid = some q.wiped := by
    rw [hu']
    show u.wiped.processTable.get pid = _
    rw [get_wiped, hq, Option.map_some]
  have heq := congrFun hout pid
  rw [outline_of_get hget, outline_of_get hget', Option.some.injEq, Prod.mk.injEq,
    Prod.mk.injEq] at heq
  exact ⟨heq.1, heq.2.2⟩

/-- `install` for a live process. -/
theorem install_eq (hp : s.processTable.get pid = some p) (contents : Page) :
    install s pid p.space vpn f contents = { s with
      mainMemory := Function.update s.mainMemory f contents
      ipt := Function.update s.ipt f ⟨vpn, pid, true, (s.ipt f).readOnly⟩
      fifoQueue := if s.policy = .fifo then s.fifoQueue ++ [f] else s.fifoQueue
      processTable := s.processTable.store pid { p with
        space := p.space.setEntry vpn
          { p.space.pageTable vpn with physicalPage := f, valid := true } } } :=
  setSpace_eq (s := { s with
    mainMemory := Function.update s.mainMemory f contents
    ipt := Function.update s.ipt f ⟨vpn, pid, true, (s.ipt f).readOnly⟩
    fifoQueue := if s.policy = .fifo then s.fifoQueue ++ [f] else s.fifoQueue }) hp _

/-- **Filling a frame.** What the frame and its inverted entry were is gone. -/
theorem install_wiped {i : IptEntry} (hp : u.processTable.get pid = some p)
    (hkept : ¬ p.GivenUp vpn) (hbm : u.bm f = true) (hi : i.readOnly = (u.ipt f).readOnly)
    (hu' : u' = { u.wiped with
      mainMemory := Function.update u.wiped.mainMemory f zeroPage
      ipt := Function.update u.wiped.ipt f i }) (contents : Page) :
    install u' pid p.wiped.space vpn f (trim contents) =
      (install u pid p.space vpn f contents).wiped := by
  have hget : u'.processTable.get pid = some p.wiped := by
    rw [hu']
    show u.wiped.processTable.get pid = _
    rw [get_wiped, hp, Option.map_some]
  rw [install_eq hget, install_eq hp, hu']
  have hmem : Function.update (Function.update u.wiped.mainMemory f zeroPage) f (trim contents) =
      fun g => if u.bm g then trim (Function.update u.mainMemory f contents g) else zeroPage := by
    rw [Function.update_idem]
    funext g
    by_cases hg : g = f
    · subst hg
      rw [if_pos hbm, Function.update_self, Function.update_self]
    · rw [Function.update_of_ne hg, Function.update_of_ne hg]
      rfl
  have hipt : Function.update (Function.update u.wiped.ipt f i) f
        ⟨vpn, pid, true, (Function.update u.wiped.ipt f i f).readOnly⟩ =
      fun g => { Function.update u.ipt f ⟨vpn, pid, true, (u.ipt f).readOnly⟩ g with
        valid := u.bm g && (Function.update u.ipt f ⟨vpn, pid, true, (u.ipt f).readOnly⟩ g).valid } := by
    rw [Function.update_idem, Function.update_self, hi]
    funext g
    by_cases hg : g = f
    · subst hg
      simp only [Function.update_self, hbm, Bool.true_and]
    · simp only [Function.update_of_ne hg]
      rfl
  have htable : u.wiped.processTable.store pid { p.wiped with
        space := p.wiped.space.setEntry vpn
          { p.wiped.space.pageTable vpn with physicalPage := f, valid := true } } =
      (u.processTable.store pid { p with
        space := p.space.setEntry vpn
          { p.space.pageTable vpn with physicalPage := f, valid := true } }).map Process.wiped := by
    rw [Table.map_store, wiped_pageTable hkept, wiped_setEntry hkept]
    rfl
  simp only [Vm.wiped, Vm.mk.injEq, true_and, and_true]
  exact ⟨hmem, hipt, rfl, htable⟩

/-- **`updateIPT`** on a page that was not given up, with a zero frame where it is
not filled. -/
theorem updateIPT_wiped (hinv : Inv none s.wiped) (hkept : ¬ s.GivenUp pid (vaddr / pageSize))
    (hzero : s.Uninitialised pid (vaddr / pageSize) →
      ∀ g ∈ BitMap.find numPhysPages s.bm, ∀ o < pageSize, s.mainMemory g o = 0)
    (h : updateIPT s vaddr pid rand = some t) :
    updateIPT s.wiped vaddr pid rand = some t.wiped := by
  unfold updateIPT at h
  cases hp : s.processTable.get pid with
  | none =>
      rw [hp] at h
      cases h
  | some p =>
      have hkept : ¬ p.GivenUp (vaddr / pageSize) := fun hgone => hkept ⟨p, hp, hgone⟩
      simp only [hp] at h
      split at h
      · cases h
      · rename_i hrange
        cases hframe : findFrame s rand with
        | none =>
            rw [hframe] at h
            cases h
        | some uf =>
            obtain ⟨u, f⟩ := uf
            obtain ⟨-, hbm, -, u', i, hframe', hi, hu'⟩ := findFrame_wiped hinv hframe
            simp only [hframe] at h
            cases hq : u.processTable.get pid with
            | none =>
                rw [hq] at h
                cases h
            | some q =>
                have hget : s.wiped.processTable.get pid = some p.wiped := by
                  rw [get_wiped, hp, Option.map_some]
                have hget' : u'.processTable.get pid = some q.wiped := by
                  rw [hu']
                  show u.wiped.processTable.get pid = _
                  rw [get_wiped, hq, Option.map_some]
                obtain ⟨hexec, hths⟩ := findFrame_process hinv hframe hp hq
                have hkeptq : ¬ q.GivenUp (vaddr / pageSize) := by
                  rwa [GivenUp.congr hths]
                simp only [hq] at h
                simp only [updateIPT, hget, hframe', hget', wiped_pageTable hkept,
                  wiped_pageTable hkeptq]
                rw [if_neg (show ¬ p.wiped.space.numPages ≤ vaddr / pageSize from hrange)]
                have hins := install_wiped hq hkeptq hbm hi hu'
                by_cases hst : (p.space.pageTable (vaddr / pageSize)).status = .swapFile
                · rw [if_neg (not_not.mpr hst)] at h ⊢
                  have hswap : ∀ slot, u'.swapFile slot = trim (u.swapFile slot) := by
                    intro slot
                    rw [hu']
                    rfl
                  rw [← Option.some.inj h, hswap, hins, show u'.sfBM = u.sfBM by rw [hu']; rfl]
                  rfl
                · rw [if_pos hst] at h ⊢
                  rw [show q.wiped.space.exec = q.space.exec from rfl]
                  by_cases hcode : vaddr / pageSize < q.space.exec.codeAndInitDataNumPages
                  · rw [if_pos hcode] at h ⊢
                    rw [← Option.some.inj h, ← hins, trim_loadPage hcode]
                  · rw [if_neg hcode] at h ⊢
                    have huninit : s.Uninitialised pid (vaddr / pageSize) := by
                      refine ⟨p, hp, ?_, hst⟩
                      rw [← hexec]
                      exact Nat.not_lt.mp hcode
                    have hfree := findFrame_zero hinv hframe (hzero huninit)
                    rw [← Option.some.inj h, ← hins, trim_eq_zero hfree, hu']
                    simp only [Function.update_self]

/-- The inverted entry that `updateIPT` writes is the only one it changes. -/
theorem updateIPT_ipt (hinv : Inv none s.wiped) (h : updateIPT s vaddr pid rand = some t) :
    ∃ f readOnly, f < numPhysPages ∧ t.bm f = true ∧
      t.ipt = Function.update s.ipt f ⟨vaddr / pageSize, pid, true, readOnly⟩ := by
  unfold updateIPT at h
  cases hp : s.processTable.get pid with
  | none =>
      rw [hp] at h
      cases h
  | some p =>
      simp only [hp] at h
      split at h
      · cases h
      · cases hframe : findFrame s rand with
        | none =>
            rw [hframe] at h
            cases h
        | some uf =>
            obtain ⟨u, f⟩ := uf
            obtain ⟨hf, hbm, hipt, -⟩ := findFrame_wiped hinv hframe
            simp only [hframe] at h
            cases hq : u.processTable.get pid with
            | none =>
                rw [hq] at h
                cases h
            | some q =>
                simp only [hq, install_eq hq] at h
                refine ⟨f, (u.ipt f).readOnly, hf, ?_⟩
                rw [← hipt]
                split at h
                · split at h <;> (obtain rfl := Option.some.inj h; exact ⟨hbm, rfl⟩)
                · obtain rfl := Option.some.inj h
                  exact ⟨hbm, rfl⟩

theorem outline_wiped (s : Vm) : s.wiped.outline = s.outline := by
  funext pid
  rw [Vm.outline, Vm.outline, get_wiped, Option.map_map]
  rfl

theorem givenUp_outline (h : t.outline = s.outline) (hgone : t.GivenUp pid vpn) :
    s.GivenUp pid vpn := by
  obtain ⟨q, hq, hgone⟩ := hgone
  obtain ⟨p, hp, -, -, hths⟩ := get_of_outline h hq
  exact ⟨p, hp, (GivenUp.congr hths).mpr hgone⟩

/-- **A clean fault** is handled alike by the wiped machine, and if the access
faults again, that fault is clean too. -/
theorem updateTLB_wiped {tid : ℕ} (hinv : Inv none s.wiped) (hcur : s.current = some (pid, tid))
    (hclean : CleanFault s pid (vaddr / pageSize)) (h : updateTLB s pid vaddr rand = some t) :
    updateTLB s.wiped pid vaddr rand = some t.wiped ∧ CleanFault t pid (vaddr / pageSize) := by
  have hfind := findIPTIndex_wiped hclean.in_use
  unfold updateTLB at h
  cases hk : findIPTIndex s pid (vaddr / pageSize) with
  | some k =>
      rw [hk] at h hfind
      have hbm := hclean.in_use k hk
      obtain rfl := Option.some.inj h
      refine ⟨?_, hclean.kept, hclean.in_use, ?_⟩
      · rw [updateTLB, hfind]
        exact congrArg some (addTLB_wiped hbm)
      · intro hnone
        rw [show findIPTIndex (addTLB s k) pid _ = some k from hk] at hnone
        cases hnone
  | none =>
      rw [hk] at h hfind
      have hup : updateTLB s.wiped pid vaddr rand = some t.wiped := by
        rw [updateTLB, hfind]
        exact updateIPT_wiped hinv hclean.kept (hclean.zero hk) h
      have hf := updateTLB_faulted hinv (show s.wiped.current = _ from hcur) hup
      obtain ⟨f, readOnly, hlt, hbm, hipt⟩ := updateIPT_ipt hinv h
      have hmaps : (t.ipt f).Maps pid (vaddr / pageSize) := by
        rw [hipt, Function.update_self]
        exact ⟨rfl, rfl, rfl⟩
      refine ⟨hup, ?_, ?_, ?_⟩
      · intro hgone
        have hout := hf.outline
        rw [outline_wiped, outline_wiped] at hout
        exact hclean.kept (givenUp_outline hout hgone)
      · intro k hk'
        obtain ⟨hklt, hkmaps⟩ := findIPTIndex_some hk'
        by_cases hkf : k = f
        · rw [hkf]
          exact hbm
        · -- any other entry for this page was there before the fault
          rw [hipt, Function.update_of_ne hkf] at hkmaps
          obtain ⟨j, hj⟩ := findIPTIndex_isSome hklt hkmaps
          rw [hk] at hj
          cases hj
      · intro hnone
        obtain ⟨j, hj⟩ := findIPTIndex_isSome hlt hmaps
        rw [hnone] at hj
        cases hj

/-- **An access with clean faults** reaches the same frame in the wiped machine. -/
theorem access_wiped {tid size frame tries : ℕ} {writing : Bool} (hinv : Inv none s.wiped)
    (hcur : s.current = some (pid, tid))
    (hclean : translate s vaddr size writing = .error .pageFault → CleanFault s pid (vaddr / pageSize))
    (h : access pid vaddr size writing rand tries s = some (t, frame)) :
    access pid vaddr size writing rand tries s.wiped = some (t.wiped, frame) := by
  induction tries generalizing s with
  | zero => cases h
  | succ tries ih =>
      rw [access] at h ⊢
      rw [show translate s.wiped vaddr size writing = translate s vaddr size writing from rfl]
      split at h
      · rename_i frame' htr
        obtain ⟨rfl, rfl⟩ := Prod.mk.inj (Option.some.inj h)
        rfl
      · rename_i htr
        have hleaves : leavesTLB s.wiped pid vaddr = leavesTLB s pid vaddr := by
          rw [leavesTLB, findIPTIndex_wiped (hclean htr).in_use]
          rfl
        rw [hleaves]
        split at h
        · cases h
        · rename_i hinside
          cases hup : updateTLB s pid vaddr rand with
          | none =>
              rw [hup] at h
              cases h
          | some u =>
              rw [hup] at h
              obtain ⟨hup', hclean'⟩ := updateTLB_wiped hinv hcur (hclean htr) hup
              have hf := updateTLB_faulted hinv (show s.wiped.current = _ from hcur) hup'
              simp only [if_neg hinside, hup']
              exact ih hf.inv (hf.current.trans hcur) (fun _ => hclean') h
      · cases h

end Faults

/-! ## The other steps -/

section Steps

variable {s t : Vm} {pid : ℤ} {p : Process} {l : Label} {ev : Event} {tid vaddr frame : ℕ}

theorem writeBytes_wiped {bytes : List UInt8} (hbm : s.bm frame = true)
    (h : vaddr % pageSize + bytes.length ≤ pageSize) :
    writeBytes s.wiped frame vaddr bytes = (writeBytes s frame vaddr bytes).wiped := by
  have hmem : Function.update s.wiped.mainMemory frame
        (storeBytes (s.wiped.mainMemory frame) (vaddr % pageSize) bytes) =
      fun f => if s.bm f then trim (Function.update s.mainMemory frame
        (storeBytes (s.mainMemory frame) (vaddr % pageSize) bytes) f) else zeroPage := by
    rw [mainMemory_wiped hbm, ← trim_storeBytes h]
    funext f
    by_cases hf : f = frame
    · subst hf
      rw [if_pos hbm, Function.update_self, Function.update_self]
    · rw [Function.update_of_ne hf, Function.update_of_ne hf]
      rfl
  rw [writeBytes, hmem]
  rfl

theorem readBytes_wiped {size : ℕ} (hbm : s.bm frame = true)
    (h : vaddr % pageSize + size ≤ pageSize) :
    readBytes s.wiped frame vaddr size = readBytes s frame vaddr size := by
  refine List.map_congr_left ?_
  intro i hi
  have hi := List.mem_range.mp hi
  rw [mainMemory_wiped hbm, trim, if_pos (by omega)]

/-- The frame of an access is in use, and the access stays in it. -/
theorem access_frame {size rand tries : ℕ} {writing : Bool} (hinv : Inv none s.wiped)
    (hcur : s.current = some (pid, tid))
    (h : access pid vaddr size writing rand tries s.wiped = some (t.wiped, frame)) :
    t.bm frame = true ∧ vaddr % pageSize + size ≤ pageSize := by
  obtain ⟨hf, hal, x, e, hp, hv, rfl⟩ := access_some hinv (show s.wiped.current = _ from hcur) h
  exact ⟨(hf.inv.resident hp hv).2.1, hal.in_page⟩

theorem execSyscall_wiped {x : Executable} (h : execSyscall s x = some (t, pid)) :
    execSyscall s.wiped x = some (t.wiped, pid) := by
  unfold execSyscall at h ⊢
  have hput := Table.map_put Process.wiped s.processTable (.create x)
  rw [wiped_create] at hput
  rw [show s.wiped.threadCounter = s.threadCounter from rfl,
    show s.wiped.processTable.put (.create x) = _ from hput]
  split at h
  · rename_i hbox
    obtain ⟨rfl, rfl⟩ := Prod.mk.inj (Option.some.inj h)
    rw [if_pos hbox]
    rfl
  · cases h

/-- Threads that give up nothing more. -/
theorem wiped_threads {ths : List Thread} {n : ℕ}
    (h : ∀ vpn, Process.GivenUp { p with threads := ths } vpn ↔ p.GivenUp vpn) :
    Process.wiped { p with threads := ths, childThreadCounter := n } =
      { p.wiped with threads := ths, childThreadCounter := n } := by
  have htable : (fun vpn => if Process.GivenUp { p with threads := ths, childThreadCounter := n } vpn
      then PageEntry.fresh else p.space.pageTable vpn) = p.wiped.space.pageTable := by
    funext vpn
    exact if_congr (h vpn) rfl rfl
  simp only [Process.wiped, htable]

theorem givenUp_fork (vpn : ℕ) :
    Process.GivenUp { p with threads := p.threads ++ [⟨none, false⟩] } vpn ↔ p.GivenUp vpn := by
  rw [givenUp_iff, givenUp_iff]
  constructor
  · rintro ⟨tid, start, hpos, hth, hrange⟩
    refine ⟨tid, start, hpos, ?_, hrange⟩
    simp only [List.getElem?_append] at hth
    split at hth
    · exact hth
    · simp [List.getElem?_singleton] at hth
  · rintro ⟨tid, start, hpos, hth, hrange⟩
    have hlen := (List.getElem?_eq_some_iff.mp hth).1
    exact ⟨tid, start, hpos, by rw [List.getElem?_append_left hlen, hth], hrange⟩

theorem forkSyscall_wiped (h : forkSyscall s pid = some t) :
    forkSyscall s.wiped pid = some t.wiped := by
  obtain ⟨p, hp, rfl⟩ := forkSyscall_cases h
  have hget : s.wiped.processTable.get pid = some p.wiped := by
    rw [get_wiped, hp, Option.map_some]
  have htable := Table.map_store Process.wiped s.processTable pid { p with
    threads := p.threads ++ [⟨none, false⟩], childThreadCounter := p.childThreadCounter + 1 }
  rw [wiped_threads givenUp_fork] at htable
  rw [forkSyscall, hget]
  exact congrArg (fun table => some { s.wiped with processTable := table }) htable.symm

/-- A thread that starts has not finished. -/
theorem givenUp_start {start : ℕ} (hth : p.threads[tid]? = some ⟨none, false⟩) (vpn : ℕ) :
    Process.GivenUp { p with threads := p.threads.set tid ⟨some start, false⟩ } vpn ↔
      p.GivenUp vpn := by
  rw [givenUp_iff, givenUp_iff]
  refine exists_congr fun i => exists_congr fun start' => and_congr_right fun _ => ?_
  refine and_congr_left fun _ => ?_
  rw [List.getElem?_set]
  by_cases hi : tid = i
  · subst hi
    simp [hth]
  · rw [if_neg hi]

theorem wiped_start {start : ℕ} (hth : p.threads[tid]? = some ⟨none, false⟩) :
    Process.wiped { p with
        space := p.space.incrementStackSpace
        threads := p.threads.set tid ⟨some start, false⟩ } =
      { p.wiped with
        space := p.wiped.space.incrementStackSpace
        threads := p.threads.set tid ⟨some start, false⟩ } := by
  have htable : (fun vpn => if Process.GivenUp { p with
        space := p.space.incrementStackSpace
        threads := p.threads.set tid ⟨some start, false⟩ } vpn then PageEntry.fresh
      else p.space.incrementStackSpace.pageTable vpn) =
      p.wiped.space.incrementStackSpace.pageTable := by
    funext vpn
    have hiff : Process.GivenUp { p with
        space := p.space.incrementStackSpace
        threads := p.threads.set tid ⟨some start, false⟩ } vpn ↔ p.GivenUp vpn :=
      (GivenUp.congr rfl).trans (givenUp_start hth vpn)
    show _ = if vpn < p.space.numPages then
      (if p.GivenUp vpn then PageEntry.fresh else p.space.pageTable vpn) else .fresh
    by_cases hgone : p.GivenUp vpn
    · rw [if_pos (hiff.mpr hgone), if_pos hgone, ite_self]
    · rw [if_neg (fun hc => hgone (hiff.mp hc)), if_neg hgone]
      rfl
  exact congrArg (fun table => Process.mk ⟨p.space.exec, p.space.numPages + 8, table⟩
    (p.threads.set tid ⟨some start, false⟩) p.childThreadCounter) htable

theorem kernelThread_wiped (h : kernelThread s pid tid = some t) :
    kernelThread s.wiped pid tid = some t.wiped := by
  obtain ⟨p, hp, hth, rfl⟩ := kernelThread_cases h
  have hget : s.wiped.processTable.get pid = some p.wiped := by
    rw [get_wiped, hp, Option.map_some]
  have htable := Table.map_store Process.wiped s.processTable pid { p with
    space := p.space.incrementStackSpace
    threads := p.threads.set tid ⟨some (divRoundUp
      (p.space.incrementStackSpace.stackStartVirtualAddress - 1024) pageSize), false⟩ }
  rw [wiped_start hth] at htable
  unfold kernelThread
  rw [hget]
  simp only [show p.wiped.threads = p.threads from rfl, hth, if_true]
  exact congrArg (fun table => some (restoreState { s.wiped with
    processTable := table
    current := some (pid, tid) })) htable.symm

theorem schedulerRun_wiped (h : schedulerRun s pid tid = some t) :
    schedulerRun s.wiped pid tid = some t.wiped := by
  obtain ⟨p, start, hp, hth, rfl⟩ := schedulerRun_cases h
  have hget : s.wiped.processTable.get pid = some p.wiped := by
    rw [get_wiped, hp, Option.map_some]
  simp only [schedulerRun, hget, show p.wiped.threads = p.threads from rfl, hth]
  rfl

/-- **One clean step** without exit is a step of the wiped machine. -/
theorem step_wiped {ε : Type} {tr : List ε} (hinv : Inv none s.wiped) (hexit : l.isExit = false)
    (hclean : cleanReuse tr s l) (hs : step s l = some (t, ev)) :
    step s.wiped l = some (t.wiped, ev) := by
  have hcurrent : s.wiped.current = s.current := rfl
  cases Step.of_step hs with
  | exec hcur hx => simp only [step, hcurrent, hcur, execSyscall_wiped hx, Option.map_some]
  | fork hcur hf => simp only [step, hcurrent, hcur, forkSyscall_wiped hf, Option.map_some]
  | start hk => simp only [step, kernelThread_wiped hk, Option.map_some]
  | run hr => simp only [step, schedulerRun_wiped hr, Option.map_some]
  | read hcur ha =>
      have ha' := access_wiped hinv hcur (fun hfault => hclean hfault _ hcur) ha
      obtain ⟨hbm, hin⟩ := access_frame hinv hcur ha'
      simp only [step, hcurrent, hcur, ha', Option.map_some, readBytes_wiped hbm hin]
  | write hcur ha =>
      have ha' := access_wiped hinv hcur (fun hfault => hclean hfault _ hcur) ha
      obtain ⟨hbm, hin⟩ := access_frame hinv hcur ha'
      simp only [step, hcurrent, hcur, ha', Option.map_some, writeBytes_wiped hbm hin]
  | exit => cases hexit

end Steps

end Nachos.VM
