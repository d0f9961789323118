import Nachos.Threads.Synch
import Nachos.VM.Steps

/-!
# Page faults of several threads

`updateTLB` looks a page up in one critical section of `IPTLock` and acts on the
result in another one, or in none: between `findIPTIndex` and `addTLB` or
`updateIPT` other threads run. They also run where `updateIPT` waits for the lock,
and in the middle of it, where `writeOneToSwapFile` has taken the victim out of the
TLB and enables interrupts again. Reading and writing files does not block.

The handler is cut at these places, and the machine interleaves the pieces. A
thread that goes on has the TLB to itself and finds it empty.
-/

namespace Nachos.VM

open Nachos.Lib Nachos.Userprog Nachos.Threads

/-! ## The pieces of the handler -/

/-- The frame that `writeOneToSwapFile` picks. -/
def victim (s : Vm) (rand : ℕ) : Option ℕ :=
  match s.policy with
  | .rand => some (rand % 32)
  | .fifo => s.fifoQueue.head?

/-- `writeOneToSwapFile` up to where interrupts are enabled again. -/
def untranslate (s : Vm) (phy : ℕ) : Vm := { s with tlb := invalidateFrame s.tlb phy }

/-- `writeOneToSwapFile` from there on, without the queue. -/
def swapOut (s : Vm) (phy : ℕ) : Option Vm :=
  match BitMap.find swapFileMaxPages s.sfBM with
  | none => none
  | some locNum =>
      match s.processTable.get (s.ipt phy).pid with
      | none => none
      | some p =>
          let s' : Vm := { s with
            sfBM := s.sfBM.mark locNum
            swapFile := Function.update s.swapFile locNum (s.mainMemory phy)
            mainMemory := Function.update s.mainMemory phy zeroPage
            bm := s.bm.clear phy }
          some (s'.setSpace (s.ipt phy).pid
            (p.space.pageToSwapFile (s.ipt phy).virtualPage locNum))

/-- `fifoQueue.pop_front()`. -/
def popFront (s : Vm) : Vm :=
  { s with fifoQueue := if s.policy = .fifo then s.fifoQueue.tail else s.fifoQueue }

/-- `updateIPT` once it has a frame. `status` is what the page table said before. -/
def bringIn (s : Vm) (pid : ℤ) (vpn f : ℕ) (status : PageStatus) : Option Vm :=
  match s.processTable.get pid with
  | none => none
  | some p =>
      let a := p.space
      if status ≠ .swapFile then
        if vpn < a.exec.codeAndInitDataNumPages then
          some (install s pid a vpn f (a.exec.loadPage vpn (a.pageTable vpn).diskLocation))
        else some (install s pid a vpn f (s.mainMemory f))
      else
        let diskloc := (a.pageTable vpn).diskLocation
        some { install s pid a vpn f (s.swapFile (diskloc / pageSize)) with
          sfBM := s.sfBM.clear (diskloc / pageSize) }

/-- `updateIPT` from where interrupts were enabled in the eviction of frame `phy`. -/
def evictAndBringIn (s : Vm) (pid : ℤ) (vpn phy : ℕ) (status : PageStatus) : Option Vm :=
  match swapOut s phy with
  | none => none
  | some s =>
      let s := popFront s
      match BitMap.find numPhysPages s.bm with
      | none => none
      | some f => bringIn { s with bm := s.bm.mark f } pid vpn f status

section Pieces

variable {s t : Vm} {pid : ℤ} {vaddr phy f : ℕ} {p : Process}

theorem evict_eq_swapOut (s : Vm) (phy : ℕ) : evict s phy = swapOut (untranslate s phy) phy := rfl

theorem updateIPT_eq (rand : ℕ) (hp : s.processTable.get pid = some p)
    (hvpn : vaddr / pageSize < p.space.numPages) :
    updateIPT s vaddr pid rand = (findFrame s rand).bind fun (s, f) =>
      bringIn s pid (vaddr / pageSize) f (p.space.pageTable (vaddr / pageSize)).status := by
  simp only [updateIPT, hp, Nat.not_le.mpr hvpn, if_false]
  cases findFrame s rand with
  | none => rfl
  | some sf =>
      cases hget : sf.1.processTable.get pid <;> simp only [Option.bind_some, bringIn, hget]

/-- With a free frame `updateIPT` is one piece. -/
theorem updateIPT_of_free (rand : ℕ) (hp : s.processTable.get pid = some p)
    (hvpn : vaddr / pageSize < p.space.numPages) (hf : BitMap.find numPhysPages s.bm = some f) :
    updateIPT s vaddr pid rand = bringIn { s with bm := s.bm.mark f } pid (vaddr / pageSize) f
      (p.space.pageTable (vaddr / pageSize)).status := by
  rw [updateIPT_eq _ hp hvpn, findFrame, hf]
  rfl

/-- `swapOut` does not touch policy and queue. -/
theorem swapOut_queue (h : swapOut s phy = some t) :
    t.policy = s.policy ∧ t.fifoQueue = s.fifoQueue := by
  unfold swapOut at h
  split at h
  · cases h
  · split at h
    · cases h
    · rename_i p hp
      rw [← Option.some.inj h, Vm.setSpace]
      split <;> exact ⟨rfl, rfl⟩

theorem writeOneToSwapFile_eq (htlb : untranslate s phy = s) (hphy : victim s phy = some phy) :
    writeOneToSwapFile s phy = (swapOut s phy).map popFront := by
  cases hpol : s.policy with
  | rand =>
      simp only [victim, hpol] at hphy
      simp only [writeOneToSwapFile, hpol, Option.some.inj hphy, evict_eq_swapOut, htlb]
      cases hout : swapOut s phy with
      | none => rfl
      | some t =>
          have hne : t.policy ≠ .fifo := by
            rw [(swapOut_queue hout).1, hpol]
            decide
          rw [Option.map_some, popFront, if_neg hne]
  | fifo =>
      simp only [victim, hpol] at hphy
      obtain ⟨rest, hq⟩ := List.head?_eq_some_iff.mp hphy
      simp only [writeOneToSwapFile, hpol, hq, evict_eq_swapOut, htlb]
      cases hout : swapOut s phy with
      | none => rfl
      | some t =>
          obtain ⟨hpol', hqueue⟩ := swapOut_queue hout
          rw [Option.map_some, Option.map_some, popFront, if_pos (hpol'.trans hpol), hqueue, hq,
            List.tail_cons]

/-- **In a full memory it is two**, the second one on any state in which the victim
has no translation and would be picked again. -/
theorem updateIPT_of_full (hp : s.processTable.get pid = some p)
    (hvpn : vaddr / pageSize < p.space.numPages) (hfull : BitMap.find numPhysPages s.bm = none)
    (htlb : untranslate s phy = s) (hphy : victim s phy = some phy) :
    updateIPT s vaddr pid phy = evictAndBringIn s pid (vaddr / pageSize) phy
      (p.space.pageTable (vaddr / pageSize)).status := by
  rw [updateIPT_eq _ hp hvpn, findFrame, hfull, writeOneToSwapFile_eq htlb hphy, evictAndBringIn]
  cases swapOut s phy with
  | none => rfl
  | some t =>
      simp only [Option.map_some]
      cases BitMap.find numPhysPages (popFront t).bm <;> rfl

end Pieces

namespace ConcurrentFaults

/-! ## The machine -/

/-- Where a thread is: in its program, where `findIPTIndex` asks for the lock, behind
it with a frame or without, where `updateIPT` asks for the lock, and in an eviction. -/
inductive Pc where
  | user
  | find (vaddr : ℕ)
  | found (ppn : ℕ)
  | missed (vaddr : ℕ)
  | body (vaddr : ℕ)
  | evicting (vaddr phy : ℕ) (status : PageStatus)
deriving DecidableEq, Repr

/-- A thread is named by its process and its number there. -/
structure State where
  vm : Vm
  IPTLock : Lock (ℤ × ℕ)
  pc : ℤ × ℕ → Pc

/-- A page goes to the swap file or comes from there. -/
inductive Transfer where
  | swapOut (pid : ℤ) (vpn : ℕ)
  | swapIn (pid : ℤ) (vpn : ℕ)
deriving DecidableEq, Repr

inductive Label where
  | exec (x : Executable)
  | fork
  | start (pid : ℤ) (tid : ℕ)
  | run (pid : ℤ) (tid : ℕ)
  | load (vaddr size : ℕ)
  | store (vaddr : ℕ) (bytes : List UInt8)
  /-- The running thread goes on in the kernel. -/
  | go (rand : ℕ)

def State.goes (s : State) (c : ℤ × ℕ) (pc : Pc) : State :=
  { s with pc := Function.update s.pc c pc }

/-- The running thread, in its program. -/
def State.userThread (s : State) : Option (ℤ × ℕ) := s.vm.current.filter fun c => s.pc c = .user

/-- A page fault, up to where `findIPTIndex` has asked for the lock. -/
def fault (s : State) (c : ℤ × ℕ) (vaddr : ℕ) : State :=
  { s with IPTLock := s.IPTLock.acquire c }.goes c (.find vaddr)

/-- What `updateIPT` reads from the swap file. -/
def readIn (pid : ℤ) (vpn : ℕ) (status : PageStatus) : List Transfer :=
  if status = .swapFile then [.swapIn pid vpn] else []

/-- `updateIPT` behind `IPTLock->Acquire()`. A page number out of range makes it return
with the lock held. -/
def body (s : State) (c : ℤ × ℕ) (vaddr rand : ℕ) : Option (State × List Transfer) :=
  let vpn := vaddr / pageSize
  match s.vm.processTable.get c.1 with
  | none => none
  | some p =>
      if p.space.numPages ≤ vpn then some (s.goes c .user, [])
      else
        let status := (p.space.pageTable vpn).status
        match BitMap.find numPhysPages s.vm.bm with
        | some f =>
            (bringIn { s.vm with bm := s.vm.bm.mark f } c.1 vpn f status).map fun vm =>
              ({ s with vm, IPTLock := s.IPTLock.release c }.goes c .user, readIn c.1 vpn status)
        | none =>
            (victim s.vm rand).map fun phy =>
              ({ s with vm := untranslate s.vm phy }.goes c (.evicting vaddr phy status), [])

/-- The rest of `updateIPT`. -/
def evictRest (s : State) (c : ℤ × ℕ) (vaddr phy : ℕ) (status : PageStatus) :
    Option (State × List Transfer) :=
  let vpn := vaddr / pageSize
  (evictAndBringIn s.vm c.1 vpn phy status).map fun vm =>
    ({ s with vm, IPTLock := s.IPTLock.release c }.goes c .user,
      .swapOut (s.vm.ipt phy).pid (s.vm.ipt phy).virtualPage :: readIn c.1 vpn status)

/-- The running thread in the kernel. In a critical section it owns the lock. -/
def kernel (s : State) (c : ℤ × ℕ) (rand : ℕ) : Option (State × List Transfer) :=
  match s.pc c with
  | .user => none
  | .find vaddr =>
      if s.IPTLock.lockerOwner = some c then
        let pc := match findIPTIndex s.vm c.1 (vaddr / pageSize) with
          | some ppn => Pc.found ppn
          | none => .missed vaddr
        some ({ s with IPTLock := s.IPTLock.release c }.goes c pc, [])
      else none
  | .found ppn => some ({ s with vm := addTLB s.vm ppn }.goes c .user, [])
  | .missed vaddr =>
      some ({ s with IPTLock := s.IPTLock.acquire c }.goes c (.body vaddr), [])
  | .body vaddr => if s.IPTLock.lockerOwner = some c then body s c vaddr rand else none
  | .evicting vaddr phy status => evictRest s c vaddr phy status

/-- A step of the running thread, or of the scheduler, which does not pick a thread that
is asleep. -/
def step (s : State) : Label → Option (State × List Transfer)
  | .exec x => s.userThread.bind fun _ =>
      (execSyscall s.vm x).map fun (vm, _) => ({ s with vm }, [])
  | .fork => s.userThread.bind fun c => (forkSyscall s.vm c.1).map fun vm => ({ s with vm }, [])
  | .start pid tid => (kernelThread s.vm pid tid).map fun vm => ({ s with vm }, [])
  | .run pid tid =>
      if (pid, tid) ∈ s.IPTLock.waitQueue then none
      else (schedulerRun s.vm pid tid).map fun vm => ({ s with vm }, [])
  | .load vaddr size => s.userThread.bind fun c =>
      match translate s.vm vaddr size false with
      | .ok _ => some (s, [])
      | .error .pageFault => some (fault s c vaddr, [])
      | .error _ => none
  | .store vaddr bytes => s.userThread.bind fun c =>
      match translate s.vm vaddr bytes.length true with
      | .ok frame => some ({ s with vm := writeBytes s.vm frame vaddr bytes }, [])
      | .error .pageFault => some (fault s c vaddr, [])
      | .error _ => none
  | .go rand => s.vm.current.bind fun c => kernel s c rand

/-- The machine with its first thread. -/
def boot (policy : Policy) (tlb : ℕ → TranslationEntry) (ipt : ℕ → IptEntry)
    (swapFile : ℕ → Page) (x : Executable) : State :=
  ⟨VM.boot policy tlb ipt swapFile x, .create, fun _ => .user⟩

/-! ## What is to hold -/

def Transfer.page : Transfer → ℤ × ℕ
  | .swapOut pid vpn => (pid, vpn)
  | .swapIn pid vpn => (pid, vpn)

/-- The last transfer of a page. -/
def lastTransfer (page : ℤ × ℕ) (ts : List Transfer) : Option Transfer :=
  (ts.filter fun a => a.page = page).getLast?

/-- A page that is loaded was evicted and has not been loaded since. -/
def LoadedOnce (ts : List Transfer) : Prop :=
  ∀ pre pid vpn post, ts = pre ++ .swapIn pid vpn :: post →
    lastTransfer (pid, vpn) pre = some (.swapOut pid vpn)

/-- No page has two frames in the inverted page table. -/
def OneFrame (s : Vm) : Prop :=
  ∀ f g pid vpn, f < numPhysPages → g < numPhysPages → (s.ipt f).Maps pid vpn →
    (s.ipt g).Maps pid vpn → f = g

/-- The translations lead the running thread to the frames of its page table. -/
def Translated (s : Vm) : Prop :=
  ∀ pid tid i, s.current = some (pid, tid) → i < tlbSize → (s.tlb i).valid = true →
    ∃ x e, s.page pid (s.tlb i).virtualPage = some (x, e) ∧ e.valid = true ∧
      e.physicalPage = (s.tlb i).physicalPage

structure Consistent (ts : List Transfer) (s : Vm) : Prop where
  one_frame : OneFrame s
  loaded_once : LoadedOnce ts
  translated : Translated s

/-- What a thread has looked up still holds for what it does next: the frame it found
holds a page of its process, or the page it missed is still missing. -/
def Pc.Fresh (s : Vm) (pid : ℤ) : Pc → Prop
  | .found ppn => (s.ipt ppn).pid = pid
  | .body vaddr => findIPTIndex s pid (vaddr / pageSize) = none
  | _ => True

instance (s : Vm) (pid : ℤ) (pc : Pc) : Decidable (pc.Fresh s pid) :=
  match pc with
  | .found _ => inferInstanceAs (Decidable (_ = _))
  | .body _ => inferInstanceAs (Decidable (_ = _))
  | .user | .find _ | .missed _ | .evicting .. => inferInstanceAs (Decidable True)

/-- Lookups are fresh when they are acted upon. -/
def fresh : List (List Transfer) → State → Label → Prop := fun _ s l =>
  match l with
  | .go _ => ∀ c ∈ s.vm.current, (s.pc c).Fresh s.vm c.1
  | _ => True

instance (tr : List (List Transfer)) (s : State) (l : Label) : Decidable (fresh tr s l) :=
  match l with
  | .go _ => inferInstanceAs (Decidable (∀ c ∈ s.vm.current, _))
  | .exec _ | .fork | .start .. | .run .. | .load .. | .store .. =>
      inferInstanceAs (Decidable True)

/-! ## Transfers -/

section Transfers

variable {ts : List Transfer} {a : Transfer} {page : ℤ × ℕ} {s t : Vm}

theorem lastTransfer_snoc (page : ℤ × ℕ) (ts : List Transfer) (a : Transfer) :
    lastTransfer page (ts ++ [a]) = if a.page = page then some a else lastTransfer page ts := by
  by_cases h : a.page = page
  · rw [if_pos h, lastTransfer, List.filter_append, List.filter_cons_of_pos (by simpa using h),
      List.filter_nil, List.getLast?_concat]
  · rw [if_neg h, lastTransfer, List.filter_append, List.filter_cons_of_neg (by simpa using h),
      List.filter_nil, List.append_nil, lastTransfer]

theorem loadedOnce_nil : LoadedOnce [] := by
  intro pre pid vpn post h
  simp at h

theorem LoadedOnce.snoc (h : LoadedOnce ts)
    (ha : ∀ pid vpn, a = .swapIn pid vpn → lastTransfer (pid, vpn) ts = some (.swapOut pid vpn)) :
    LoadedOnce (ts ++ [a]) := by
  intro pre pid vpn post heq
  rcases snoc_eq_append_cons heq with ⟨rfl, ha'⟩ | ⟨post', rfl⟩
  · exact ha pid vpn ha'.symm
  · exact h pre pid vpn post' rfl

/-- What the transfers so far say about the swap file: a page that is there was evicted
last. -/
structure Swaps (ts : List Transfer) (s : Vm) : Prop where
  loaded_once : LoadedOnce ts
  swapped : ∀ {pid vpn x e}, s.page pid vpn = some (x, e) → e.Swapped →
    lastTransfer (pid, vpn) ts = some (.swapOut pid vpn)

/-- No page goes to the swap file. -/
theorem Swaps.congr (h : Swaps ts s) (hback : ∀ {pid vpn x e}, t.page pid vpn = some (x, e) →
    e.Swapped → s.page pid vpn = some (x, e)) : Swaps ts t :=
  ⟨h.loaded_once, fun hp hs => h.swapped (hback hp hs) hs⟩

theorem Swaps.evicted {phy loc : ℕ} (h : Swaps ts s) (ht : Evicted s phy loc t) :
    Swaps (ts ++ [.swapOut (s.ipt phy).pid (s.ipt phy).virtualPage]) t := by
  refine ⟨h.loaded_once.snoc nofun, ?_⟩
  intro pid vpn x e hp hs
  rw [lastTransfer_snoc]
  rcases ht.page_cases hp with ⟨rfl, rfl, -⟩ | ⟨hne, hp'⟩
  · exact if_pos rfl
  · rw [if_neg ?_]
    · exact h.swapped hp' hs
    · rintro heq
      obtain ⟨rfl, rfl⟩ := Prod.mk.inj heq
      exact hne ⟨rfl, rfl⟩

theorem Swaps.installed {f : ℕ} {pid : ℤ} {vpn : ℕ} {x : Executable} {e : PageEntry}
    {contents : Page} (h : Swaps ts s) (hp : s.page pid vpn = some (x, e)) (hv : e.valid = false)
    (ht : Installed s pid vpn f x e contents t) : Swaps (ts ++ readIn pid vpn e.status) t := by
  unfold readIn
  split
  · rename_i hst
    constructor
    · apply h.loaded_once.snoc
      rintro pid' vpn' ⟨⟩
      exact h.swapped hp ⟨hv, hst⟩
    · intro pid' vpn' x' e' hp' hs
      obtain ⟨hne, hold⟩ := ht.swapped_back hp' hs
      rw [lastTransfer_snoc, if_neg ?_]
      · exact h.swapped hold hs
      · intro heq
        obtain ⟨rfl, rfl⟩ := Prod.mk.inj heq
        exact hne ⟨rfl, rfl⟩
  · rw [List.append_nil]
    exact h.congr fun hp' hs => (ht.swapped_back hp' hs).2

end Transfers

/-! ## The handler as a whole -/

section Handler

variable {s t : Vm} {ts : List Transfer} {pid : ℤ} {vaddr rand phy f : ℕ} {x : Executable}
  {e : PageEntry}

theorem victim_lt (hfr : Frames none s) (h : victim s rand = some phy) : phy < numPhysPages := by
  cases hpol : s.policy with
  | rand =>
      simp only [victim, hpol] at h
      rw [← Option.some.inj h]
      exact lt_numPhysPages (Nat.mod_lt _ (by decide))
  | fifo =>
      simp only [victim, hpol] at h
      exact hfr.queue_lt hpol (List.mem_of_mem_head? h)

/-- What was picked would be picked again. -/
theorem victim_again (h : victim s rand = some phy) : victim s phy = some phy := by
  cases hpol : s.policy with
  | rand =>
      simp only [victim, hpol] at h ⊢
      rw [← Option.some.inj h, Nat.mod_mod]
  | fifo => simpa only [victim, hpol] using h

theorem writeOneToSwapFile_bm (hphy : victim s rand = some phy)
    (h : writeOneToSwapFile s rand = some t) : t.bm = s.bm.clear phy := by
  cases hpol : s.policy with
  | rand =>
      simp only [victim, hpol] at hphy
      simp only [writeOneToSwapFile, hpol, Option.some.inj hphy] at h
      obtain ⟨_, _, _, _, rfl⟩ := evict_eq h
      rfl
  | fifo =>
      simp only [victim, hpol] at hphy
      obtain ⟨rest, hq⟩ := List.head?_eq_some_iff.mp hphy
      simp only [writeOneToSwapFile, hpol, hq] at h
      obtain ⟨u, hu, rfl⟩ := Option.map_eq_some_iff.mp h
      obtain ⟨_, _, _, _, rfl⟩ := evict_eq hu
      rfl

/-- In a full memory the frame that is found is that of the victim. -/
theorem findFrame_victim (hfr : Frames none s) (hfull : BitMap.find numPhysPages s.bm = none)
    (hphy : victim s rand = some phy) (h : findFrame s rand = some (t, f)) : f = phy := by
  unfold findFrame at h
  rw [hfull] at h
  cases hw : writeOneToSwapFile s rand with
  | none =>
      rw [hw] at h
      cases h
  | some u =>
      obtain ⟨hfind, -⟩ := BitMap.find_clear (BitMap.find_none hfull) (victim_lt hfr hphy)
      rw [← writeOneToSwapFile_bm hphy hw] at hfind
      simp only [hw, hfind, Option.some.injEq, Prod.mk.injEq] at h
      exact h.2.symm

/-- `updateIPT` for a page that is not in memory: the invariant, and what the inverted
page table has afterwards. -/
theorem updateIPT_kept (hinv : Inv none s) (hp : s.page pid (vaddr / pageSize) = some (x, e))
    (hv : e.valid = false) (h : updateIPT s vaddr pid rand = some t) :
    Inv none t ∧ ∀ k, (s.ipt k).valid = true → (t.ipt k).valid = true := by
  obtain ⟨u, f, hu, hpu, hins⟩ := updateIPT_cases hinv.frames hp hv h
  refine ⟨(hinv.findFrame hu).installed hpu hv hins, ?_⟩
  have hipt : u.ipt = s.ipt := by
    rcases findFrame_cases hinv.frames hu with ⟨-, rfl⟩ | ⟨-, -, loc, hev⟩
    · rfl
    · exact hev.ipt
  intro k hk
  rw [hins.ipt]
  by_cases hkf : k = f
  · rw [hkf, Function.update_self]
  · rw [Function.update_of_ne hkf, hipt, hk]

theorem Swaps.updateIPT_free (h : Swaps ts s) (hinv : Inv none s)
    (hp : s.page pid (vaddr / pageSize) = some (x, e)) (hv : e.valid = false)
    (hfree : BitMap.find numPhysPages s.bm = some f) (ht : updateIPT s vaddr pid rand = some t) :
    Swaps (ts ++ readIn pid (vaddr / pageSize) e.status) t := by
  obtain ⟨u, g, hu, hpu, hins⟩ := updateIPT_cases hinv.frames hp hv ht
  rcases findFrame_cases hinv.frames hu with ⟨-, rfl⟩ | ⟨-, hfull, -⟩
  · have hmark : Swaps ts { s with bm := s.bm.mark g } := h.congr fun hp' _ => hp'
    exact hmark.installed hpu hv hins
  · obtain ⟨hlt, hclear, -⟩ := BitMap.find_some hfree
    rw [hfull f hlt] at hclear
    cases hclear

theorem Swaps.updateIPT_full (h : Swaps ts s) (hinv : Inv none s)
    (hp : s.page pid (vaddr / pageSize) = some (x, e)) (hv : e.valid = false)
    (hfull : BitMap.find numPhysPages s.bm = none) (hphy : victim s rand = some phy)
    (ht : updateIPT s vaddr pid rand = some t) :
    Swaps (ts ++ .swapOut (s.ipt phy).pid (s.ipt phy).virtualPage ::
      readIn pid (vaddr / pageSize) e.status) t := by
  obtain ⟨u, g, hu, hpu, hins⟩ := updateIPT_cases hinv.frames hp hv ht
  obtain rfl := findFrame_victim hinv.frames hfull hphy hu
  rcases findFrame_cases hinv.frames hu with ⟨hfree, -⟩ | ⟨-, -, loc, hev⟩
  · rw [hfull] at hfree
    cases hfree
  · have happ := (h.evicted hev).installed hpu hv hins
    rwa [List.append_assoc] at happ

end Handler

/-! ## The invariant -/

/-- No translation leads to frame `phy`. -/
def Untranslated (s : Vm) (phy : ℕ) : Prop :=
  ∀ i ≤ tlbSize, (s.tlb i).physicalPage = phy → (s.tlb i).valid = false

theorem untranslate_eq {s : Vm} {phy : ℕ} (h : Untranslated s phy) : untranslate s phy = s := by
  have htlb : invalidateFrame s.tlb phy = s.tlb := by
    funext i
    unfold invalidateFrame
    split
    · rename_i hi
      rw [← h i hi.1 hi.2]
    · rfl
  rw [untranslate, htlb]

theorem untranslated_untranslate (s : Vm) (phy : ℕ) : Untranslated (untranslate s phy) phy := by
  intro i hi hphy
  simp only [untranslate, invalidateFrame] at hphy ⊢
  split
  · rfl
  · rename_i hne
    rw [if_neg hne] at hphy
    exact absurd ⟨hi, hphy⟩ hne

/-- Thread `c` is in the eviction of frame `phy`, which nobody has undone. -/
structure Evicting (s : State) (c : ℤ × ℕ) (vaddr phy : ℕ) (status : PageStatus) : Prop where
  owner : s.IPTLock.lockerOwner = some c
  full : BitMap.find numPhysPages s.vm.bm = none
  picked : victim s.vm phy = some phy
  page : ∃ x e, s.vm.page c.1 (vaddr / pageSize) = some (x, e) ∧ e.valid = false ∧ e.status = status
  quiet : s.vm.current = some c → Untranslated s.vm phy

/-- What a thread relies on when it goes on in the kernel. -/
def Pc.Holds (s : State) (c : ℤ × ℕ) : Pc → Prop
  | .found ppn => ppn < numPhysPages ∧ (s.vm.ipt ppn).valid = true
  | .evicting vaddr phy status => Evicting s c vaddr phy status
  | _ => True

structure Kept (ts : List Transfer) (s : State) : Prop where
  inv : Inv none s.vm
  swaps : Swaps ts s.vm
  holds : ∀ c, (s.pc c).Holds s c

section Kept

variable {s t : State} {ts ts' : List Transfer} {c : ℤ × ℕ} {pc : Pc}

/-- What the other threads rely on stays if no inverted entry is given up and an
eviction under way is not disturbed. -/
theorem Pc.Holds.congr (h : pc.Holds s c)
    (hipt : ∀ k, (s.vm.ipt k).valid = true → (t.vm.ipt k).valid = true)
    (hevict : ∀ {vaddr phy status}, Evicting s c vaddr phy status →
      Evicting t c vaddr phy status) : pc.Holds t c := by
  cases pc with
  | found ppn => exact ⟨h.1, hipt ppn h.2⟩
  | evicting vaddr phy status => exact hevict h
  | _ => trivial

/-- Thread `c` goes to `pc`. -/
theorem Kept.goes (h : Kept ts s) (hpc : t.pc = Function.update s.pc c pc) (hinv : Inv none t.vm)
    (hswaps : Swaps ts' t.vm) (hown : pc.Holds t c)
    (hipt : ∀ k, (s.vm.ipt k).valid = true → (t.vm.ipt k).valid = true)
    (hevict : ∀ {c' vaddr phy status}, c' ≠ c → Evicting s c' vaddr phy status →
      Evicting t c' vaddr phy status) : Kept ts' t := by
  refine ⟨hinv, hswaps, ?_⟩
  intro c'
  rw [hpc]
  by_cases hc : c' = c
  · subst hc
    rwa [Function.update_self]
  · rw [Function.update_of_ne hc]
    exact (h.holds c').congr hipt (hevict hc)

/-- Nobody else is in an eviction while `c` has the lock. -/
theorem Evicting.of_owner {c' : ℤ × ℕ} {vaddr phy : ℕ} {status : PageStatus} {P : Prop}
    (howner : s.IPTLock.lockerOwner = some c) (hne : c' ≠ c)
    (h : Evicting s c' vaddr phy status) : P :=
  absurd (Option.some.inj (h.owner.symm.trans howner)) hne

/-- A step of thread `c` that leaves memory and page tables alone, and the lock to who
has it. -/
theorem Evicting.aside {c' : ℤ × ℕ} {vaddr phy : ℕ} {status : PageStatus}
    (h : Evicting s c' vaddr phy status) (hlock : t.IPTLock.lockerOwner = some c')
    (hbm : t.vm.bm = s.vm.bm) (hvictim : victim t.vm = victim s.vm)
    (hpage : ∀ {pid vpn xe}, s.vm.page pid vpn = some xe → t.vm.page pid vpn = some xe)
    (hquiet : t.vm.current = some c' → Untranslated t.vm phy) :
    Evicting t c' vaddr phy status := by
  obtain ⟨x, e, hp, hv, hst⟩ := h.page
  refine ⟨hlock, ?_, ?_, ⟨x, e, hpage hp, hv, hst⟩, hquiet⟩
  · rw [hbm]
    exact h.full
  · rw [hvictim]
    exact h.picked

/-- A step that only asks for the lock. -/
theorem Kept.acquire (h : Kept ts s) (hpc : pc.Holds { s with IPTLock := s.IPTLock.acquire c } c) :
    Kept ts ({ s with IPTLock := s.IPTLock.acquire c }.goes c pc) := by
  refine h.goes rfl h.inv h.swaps ?_ (fun _ hk => hk) ?_
  · exact hpc.congr (fun _ hk => hk) fun he => ⟨he.owner, he.full, he.picked, he.page, he.quiet⟩
  · intro c' vaddr phy status _ he
    exact he.aside (Lock.acquire_lockerOwner he.owner) rfl rfl id he.quiet

/-- **A step that brings no page in**: the page tables grow, and the TLB is left or
emptied. -/
theorem Kept.extended (h : Kept ts s) {vm : Vm} (hext : Extended s.vm vm)
    (htlb : (vm.tlb = s.vm.tlb ∧ vm.current = s.vm.current) ∨
      ∀ i ≤ tlbSize, (vm.tlb i).valid = false) : Kept ts { s with vm } := by
  refine ⟨h.inv.reshaped hext.toReshaped, ?_, ?_⟩
  · apply h.swaps.congr
    intro pid vpn x e hp hs
    exact (hext.source hp).resolve_right fun hun => hun.not_swapped hs.2
  · intro c
    refine (h.holds c).congr ?_ ?_
    · intro k hk
      show (vm.ipt k).valid = true
      rwa [hext.ipt]
    · intro vaddr phy status he
      refine he.aside he.owner hext.bm ?_ hext.persists ?_
      · funext rand
        simp only [victim, hext.policy, hext.fifoQueue]
      · intro hcur
        rcases htlb with ⟨htlb, hcur'⟩ | hflush
        · intro i hi hphy
          simp only [htlb] at hphy ⊢
          exact he.quiet (hcur'.symm.trans hcur) i hi hphy
        · exact fun i hi _ => hflush i hi

theorem restoreState_empty (vm : Vm) {i : ℕ} (hi : i ≤ tlbSize) :
    ((restoreState vm).tlb i).valid = false := by
  simp only [restoreState, if_pos hi]

/-- `findIPTIndex`, with the lock given up. -/
theorem Kept.find (h : Kept ts s) (howner : s.IPTLock.lockerOwner = some c) {vpn : ℕ}
    {vaddr : ℕ} : Kept ts ({ s with IPTLock := s.IPTLock.release c }.goes c
      (match findIPTIndex s.vm c.1 vpn with
        | some ppn => .found ppn
        | none => .missed vaddr)) := by
  refine h.goes rfl h.inv h.swaps ?_ (fun _ hk => hk) fun hne he => he.of_owner howner hne
  split
  · rename_i ppn hppn
    obtain ⟨hlt, hmaps⟩ := findIPTIndex_some hppn
    exact ⟨hlt, hmaps.valid⟩
  · trivial

/-- `addTLB` of a frame that holds a page of the process. -/
theorem Kept.addTLB (h : Kept ts s) (hcur : s.vm.current = some c) {ppn : ℕ}
    (hpc : s.pc c = .found ppn) (hfresh : (s.vm.ipt ppn).pid = c.1) :
    Kept ts ({ s with vm := addTLB s.vm ppn }.goes c .user) := by
  have hholds := h.holds c
  rw [hpc] at hholds
  obtain ⟨hlt, hvalid⟩ := hholds
  refine h.goes rfl (h.inv.addTLB hcur hlt ⟨hvalid, hfresh, rfl⟩) ?_ trivial (fun _ hk => hk) ?_
  · exact h.swaps.congr fun hp _ => hp
  · intro c' vaddr phy status hne he
    refine he.aside he.owner rfl rfl id ?_
    intro hcur'
    exact absurd (Option.some.inj (hcur'.symm.trans hcur)) hne

/-- `updateIPT` has brought a missing page in. -/
theorem Kept.broughtIn (h : Kept ts s) (howner : s.IPTLock.lockerOwner = some c) {vm : Vm}
    {vaddr rand : ℕ} {x : Executable} {e : PageEntry} {as : List Transfer}
    (hp : s.vm.page c.1 (vaddr / pageSize) = some (x, e)) (hv : e.valid = false)
    (hvm : updateIPT s.vm vaddr c.1 rand = some vm) (hswaps : Swaps (ts ++ as) vm) :
    Kept (ts ++ as) ({ s with vm, IPTLock := s.IPTLock.release c }.goes c .user) := by
  obtain ⟨hinv, hipt⟩ := updateIPT_kept h.inv hp hv hvm
  exact h.goes rfl hinv hswaps trivial hipt fun hne he => he.of_owner howner hne

/-- The invariant when the victim has been taken out of the TLB. -/
theorem Inv.untranslate {s : Vm} (h : Inv none s) (phy : ℕ) : Inv none (untranslate s phy) := by
  refine { h with tlb := ?_ }
  intro pid tid i hcur hi hv
  simp only [VM.untranslate, invalidateFrame] at hv ⊢
  split at hv
  · cases hv
  · rename_i hne
    rw [if_neg hne]
    exact h.tlb hcur hi hv

/-- `updateIPT` on a page that is still missing. -/
theorem Kept.body (h : Kept ts s) (howner : s.IPTLock.lockerOwner = some c) {vaddr rand : ℕ}
    (hfresh : findIPTIndex s.vm c.1 (vaddr / pageSize) = none) {as : List Transfer}
    (hs : body s c vaddr rand = some (t, as)) : Kept (ts ++ as) t := by
  cases hp : s.vm.processTable.get c.1 with
  | none => simp only [ConcurrentFaults.body, hp, reduceCtorEq] at hs
  | some p =>
      by_cases hvpn : p.space.numPages ≤ vaddr / pageSize
      · simp only [ConcurrentFaults.body, hp, if_pos hvpn, Option.some.injEq, Prod.mk.injEq] at hs
        obtain ⟨rfl, rfl⟩ := hs
        rw [List.append_nil]
        exact h.goes rfl h.inv h.swaps trivial (fun _ hk => hk)
          fun _ he => ⟨he.owner, he.full, he.picked, he.page, he.quiet⟩
      have hlt := Nat.not_le.mp hvpn
      have hpage : s.vm.page c.1 (vaddr / pageSize) =
          some (p.space.exec, p.space.pageTable (vaddr / pageSize)) := by
        rw [page_of_get hp, if_pos hlt]
      have hv := findIPTIndex_none h.inv.frames hpage hfresh
      cases hfind : BitMap.find numPhysPages s.vm.bm with
      | some f =>
          simp only [ConcurrentFaults.body, hp, if_neg hvpn, hfind,
            ← updateIPT_of_free rand hp hlt hfind] at hs
          obtain ⟨vm, hvm, heq⟩ := Option.map_eq_some_iff.mp hs
          obtain ⟨rfl, rfl⟩ := Prod.mk.inj heq
          exact h.broughtIn howner hpage hv hvm (h.swaps.updateIPT_free h.inv hpage hv hfind hvm)
      | none =>
          simp only [ConcurrentFaults.body, hp, if_neg hvpn, hfind] at hs
          obtain ⟨phy, hphy, heq⟩ := Option.map_eq_some_iff.mp hs
          obtain ⟨rfl, rfl⟩ := Prod.mk.inj heq
          rw [List.append_nil]
          refine h.goes rfl (Inv.untranslate h.inv phy) (h.swaps.congr fun hp' _ => hp') ?_
            (fun _ hk => hk) fun hne he => he.of_owner howner hne
          exact ⟨howner, hfind, victim_again hphy, ⟨_, _, hpage, hv, rfl⟩,
            fun _ => untranslated_untranslate s.vm phy⟩

/-- The rest of an eviction. -/
theorem Kept.evictRest (h : Kept ts s) (hcur : s.vm.current = some c) {vaddr phy : ℕ}
    {status : PageStatus} (hpc : s.pc c = .evicting vaddr phy status) {as : List Transfer}
    (hs : evictRest s c vaddr phy status = some (t, as)) : Kept (ts ++ as) t := by
  have hholds := h.holds c
  rw [hpc] at hholds
  obtain ⟨howner, hfull, hphy, ⟨x, e, hpage, hv, rfl⟩, hquiet⟩ := hholds
  obtain ⟨p, hp, hlt, -, rfl⟩ := get_of_page hpage
  obtain ⟨vm, hvm, heq⟩ := Option.map_eq_some_iff.mp hs
  rw [← updateIPT_of_full hp hlt hfull (untranslate_eq (hquiet hcur)) hphy] at hvm
  obtain ⟨rfl, rfl⟩ := Prod.mk.inj heq
  exact h.broughtIn howner hpage hv hvm (h.swaps.updateIPT_full h.inv hpage hv hfull hphy hvm)

/-- A write through the TLB. -/
theorem Kept.store (h : Kept ts s) (hcur : s.vm.current = some c) {vaddr frame : ℕ}
    {bytes : List UInt8} (htr : translate s.vm vaddr bytes.length true = .ok frame) :
    Kept ts { s with vm := writeBytes s.vm frame vaddr bytes } := by
  obtain ⟨-, x, e, hp, hv, rfl⟩ := translate_ok h.inv hcur htr
  refine ⟨h.inv.write hp hv _, h.swaps.congr fun hp' _ => hp', ?_⟩
  intro c'
  exact (h.holds c').congr (fun _ hk => hk) fun he => he.aside he.owner rfl rfl id he.quiet

theorem userThread_eq (h : s.userThread = some c) : s.vm.current = some c ∧ s.pc c = .user := by
  obtain ⟨hcur, hpc⟩ := Option.filter_eq_some_iff.mp h
  exact ⟨hcur, by simpa using hpc⟩

/-- **A step in the kernel** whose lookup is fresh. -/
theorem Kept.kernel (h : Kept ts s) (hcur : s.vm.current = some c) {rand : ℕ}
    (hfresh : (s.pc c).Fresh s.vm c.1) {as : List Transfer}
    (hs : kernel s c rand = some (t, as)) : Kept (ts ++ as) t := by
  unfold ConcurrentFaults.kernel at hs
  cases hpc : s.pc c with
  | user => simp only [hpc, reduceCtorEq] at hs
  | find vaddr =>
      simp only [hpc] at hs
      split at hs
      · rename_i howner
        obtain ⟨rfl, rfl⟩ := Prod.mk.inj (Option.some.inj hs)
        rw [List.append_nil]
        exact h.find howner
      · cases hs
  | found ppn =>
      simp only [hpc, Option.some.injEq, Prod.mk.injEq] at hs
      obtain ⟨rfl, rfl⟩ := hs
      rw [hpc] at hfresh
      rw [List.append_nil]
      exact h.addTLB hcur hpc hfresh
  | missed vaddr =>
      simp only [hpc, Option.some.injEq, Prod.mk.injEq] at hs
      obtain ⟨rfl, rfl⟩ := hs
      rw [List.append_nil]
      exact h.acquire trivial
  | body vaddr =>
      simp only [hpc] at hs
      rw [hpc] at hfresh
      split at hs
      · rename_i howner
        exact h.body howner hfresh hs
      · cases hs
  | evicting vaddr phy status =>
      simp only [hpc] at hs
      exact h.evictRest hcur hpc hs

/-- **One step** whose lookup is fresh. -/
theorem Kept.step (h : Kept ts s) {tr : List (List Transfer)} {l : Label} (hok : fresh tr s l)
    {as : List Transfer} (hs : step s l = some (t, as)) : Kept (ts ++ as) t := by
  cases l with
  | exec x =>
      obtain ⟨c, -, hx⟩ := Option.bind_eq_some_iff.mp hs
      obtain ⟨⟨vm, pid⟩, hvm, heq⟩ := Option.map_eq_some_iff.mp hx
      obtain ⟨rfl, rfl⟩ := Prod.mk.inj heq
      rw [List.append_nil]
      obtain ⟨-, -, -, -, -, ht, -⟩ := execSyscall_cases h.inv.frames hvm
      refine h.extended (extended_exec h.inv.frames hvm) (.inl ?_)
      rw [ht]
      exact ⟨rfl, rfl⟩
  | fork =>
      obtain ⟨c, -, hx⟩ := Option.bind_eq_some_iff.mp hs
      obtain ⟨vm, hvm, heq⟩ := Option.map_eq_some_iff.mp hx
      obtain ⟨rfl, rfl⟩ := Prod.mk.inj heq
      rw [List.append_nil]
      obtain ⟨p, -, ht⟩ := forkSyscall_cases hvm
      refine h.extended (extended_fork h.inv.frames hvm) (.inl ?_)
      rw [ht]
      exact ⟨rfl, rfl⟩
  | start pid tid =>
      obtain ⟨vm, hvm, heq⟩ := Option.map_eq_some_iff.mp hs
      obtain ⟨rfl, rfl⟩ := Prod.mk.inj heq
      rw [List.append_nil]
      obtain ⟨p, -, -, ht⟩ := kernelThread_cases hvm
      refine h.extended (extended_start h.inv.frames hvm) (.inr fun i hi => ?_)
      rw [ht, restoreState_empty _ hi]
  | run pid tid =>
      simp only [ConcurrentFaults.step] at hs
      split at hs
      · cases hs
      · obtain ⟨vm, hvm, heq⟩ := Option.map_eq_some_iff.mp hs
        obtain ⟨rfl, rfl⟩ := Prod.mk.inj heq
        rw [List.append_nil]
        obtain ⟨p, start, -, -, ht⟩ := schedulerRun_cases hvm
        refine h.extended (extended_run h.inv.frames hvm) (.inr fun i hi => ?_)
        rw [ht, restoreState_empty _ hi]
  | load vaddr size =>
      obtain ⟨c, -, hx⟩ := Option.bind_eq_some_iff.mp hs
      split at hx
      · obtain ⟨rfl, rfl⟩ := Prod.mk.inj (Option.some.inj hx)
        rwa [List.append_nil]
      · obtain ⟨rfl, rfl⟩ := Prod.mk.inj (Option.some.inj hx)
        rw [List.append_nil]
        exact h.acquire trivial
      · cases hx
  | store vaddr bytes =>
      obtain ⟨c, huser, hx⟩ := Option.bind_eq_some_iff.mp hs
      split at hx
      · rename_i frame htr
        obtain ⟨rfl, rfl⟩ := Prod.mk.inj (Option.some.inj hx)
        rw [List.append_nil]
        exact h.store (userThread_eq huser).1 htr
      · obtain ⟨rfl, rfl⟩ := Prod.mk.inj (Option.some.inj hx)
        rw [List.append_nil]
        exact h.acquire trivial
      · cases hx
  | go rand =>
      obtain ⟨c, hcur, hx⟩ := Option.bind_eq_some_iff.mp hs
      exact h.kernel hcur (hok c hcur) hx

end Kept

/-! ## Every run -/

theorem Kept.boot (policy : Policy) (tlb : ℕ → TranslationEntry) (ipt : ℕ → IptEntry)
    (swapFile : ℕ → Page) (x : Executable) : Kept [] (boot policy tlb ipt swapFile x) := by
  refine ⟨Inv.boot policy tlb ipt swapFile x, ⟨loadedOnce_nil, ?_⟩, fun _ => trivial⟩
  intro pid vpn x' e hp hs
  exact absurd hs.2 (boot_page hp).not_swapped

theorem Kept.consistent {ts : List Transfer} {s : State} (h : Kept ts s) :
    Consistent ts s.vm where
  one_frame := by
    intro f g pid vpn hf hg hmaps hmaps'
    obtain ⟨x, e, hp, -, rfl⟩ := h.inv.mapped hf (by simp) hmaps
    obtain ⟨x', e', hp', -, rfl⟩ := h.inv.mapped hg (by simp) hmaps'
    rw [hp] at hp'
    simp only [Option.some.injEq, Prod.mk.injEq] at hp'
    rw [hp'.2]
  loaded_once := h.swaps.loaded_once
  translated := by
    intro pid tid i hcur hi hv
    exact h.inv.tlb hcur hi hv

/-- **Concurrent faults leave the paging structures consistent when lookups are fresh**:
in every run without exits, of any number of threads and processes, in which no thread
adds a frame to the TLB that has gone to another process and none brings in a page that
has come in meanwhile. -/
theorem consistent_of_fresh {policy : Policy} {tlb : ℕ → TranslationEntry} {ipt : ℕ → IptEntry}
    {swapFile : ℕ → Page} {x : Executable} {tr : List (List Transfer)} {s : State}
    (h : Run step fresh (boot policy tlb ipt swapFile x) tr s) : Consistent tr.flatten s.vm := by
  have hkept : Kept tr.flatten s := by
    refine h.invariant (I := fun tr s => Kept tr.flatten s) (.boot policy tlb ipt swapFile x) ?_
    intro tr s l t as hi hok hs
    rw [List.flatten_append, List.flatten_singleton]
    exact hi.step hok hs
  exact hkept.consistent

/-- The small program with its first thread, under FIFO. -/
def bootSmall : State :=
  boot .fifo (fun _ => ⟨0, 0, false, false⟩) (fun _ => ⟨0, 0, false, false⟩) (fun _ => zeroPage)
    sampleProgram

/-- Two threads of a process bring in a page each, one waiting for the other, and
translate them across a switch. -/
theorem consistent_of_fresh_sample :
    ∃ tr s, Run step fresh bootSmall tr s ∧ s.pc (0, 0) = .user ∧ s.pc (0, 1) = .user ∧
      findIPTIndex s.vm 0 0 = some 1 ∧ findIPTIndex s.vm 0 1 = some 0 ∧
      Consistent tr.flatten s.vm := by
  have hp : (exec step fresh [] bootSmall [.fork, .start 0 1, .load 0 4, .go 0, .run 0 0,
      .load 128 4, .go 0, .go 0, .run 0 1, .go 0, .run 0 0, .go 0, .run 0 1, .go 0, .load 0 4, .go 0,
      .run 0 0, .load 128 4, .go 0, .go 0, .load 128 4, .run 0 1, .go 0, .load 0 4]).map
        (fun r => (r.2.pc (0, 0), r.2.pc (0, 1), findIPTIndex r.2.vm 0 0,
          findIPTIndex r.2.vm 0 1)) = some (.user, .user, some 1, some 0) := by
    decide +kernel
  obtain ⟨⟨tr, s⟩, hexec, heq⟩ := Option.map_eq_some_iff.mp hp
  simp only [Prod.mk.injEq] at heq
  obtain ⟨h0, h1, hfind0, hfind1⟩ := heq
  have hrun := Run.of_exec .start hexec
  exact ⟨tr, s, hrun, h0, h1, hfind0, hfind1, consistent_of_fresh hrun⟩

/-- Two threads of a process miss the same page, and both bring it in. -/
theorem page_brought_in_twice :
    ∃ tr s, Run step anyStep bootSmall tr s ∧ s.vm.ipt 0 = ⟨0, 0, true, false⟩ ∧
      s.vm.ipt 1 = ⟨0, 0, true, false⟩ ∧ ¬ Consistent tr.flatten s.vm := by
  have hp : (exec step anyStep [] bootSmall [.fork, .start 0 1, .load 0 4, .go 0, .run 0 0,
      .load 0 4, .go 0, .go 0, .go 0, .run 0 1, .go 0, .go 0]).map
        (fun r => (r.2.vm.ipt 0, r.2.vm.ipt 1)) =
          some (⟨0, 0, true, false⟩, ⟨0, 0, true, false⟩) := by
    decide +kernel
  obtain ⟨⟨tr, s⟩, hexec, heq⟩ := Option.map_eq_some_iff.mp hp
  obtain ⟨h0, h1⟩ := Prod.mk.inj heq
  refine ⟨tr, s, .of_exec .start hexec, h0, h1, ?_⟩
  intro hc
  have hmaps : ∀ i : IptEntry, i = ⟨0, 0, true, false⟩ → i.Maps 0 0 := by
    rintro i rfl
    exact ⟨rfl, rfl, rfl⟩
  have htwo : (1 : ℕ) < numPhysPages := lt_numPhysPages (by decide)
  have := hc.one_frame 0 1 0 0 (Nat.lt_of_succ_lt htwo) htwo (hmaps _ h0) (hmaps _ h1)
  exact absurd this (by decide)

end ConcurrentFaults

end Nachos.VM
