import Nachos.VM.Coherence

/-!
# The replacement queue

Under FIFO the frames wait in a queue for their eviction: a frame is appended
when a page is loaded into it and leaves at the front when the page is evicted.
The queue then holds the frames in use, oldest page first. Exits free frames
without taking them out of the queue, so this holds exactly until an exit gives
up a page that is in memory.

What "oldest" means is read off the loads of the run, the frames that pages were
brought into, in order.
-/

namespace Nachos.VM

open Nachos.Userprog Nachos.Lib

/-! ## The order of loading -/

/-- After the last load into frame `f` there was one into `g`: the page in `f` has
been in memory for longer than the one in `g`. -/
def LoadedBefore (loads : List ℕ) (f g : ℕ) : Prop :=
  ∃ pre post, loads = pre ++ f :: post ∧ f ∉ post ∧ g ∈ post

theorem LoadedBefore.snoc {loads : List ℕ} {f g k : ℕ} (h : LoadedBefore loads f g) (hk : k ≠ f) :
    LoadedBefore (loads ++ [k]) f g := by
  obtain ⟨pre, post, rfl, hf, hg⟩ := h
  refine ⟨pre, post ++ [k], by simp, ?_, List.mem_append_left _ hg⟩
  intro hmem
  rcases List.mem_append.mp hmem with hmem | hmem
  · exact hf hmem
  · exact hk (List.mem_singleton.mp hmem).symm

/-- Everything loaded before was loaded before the last. -/
theorem loadedBefore_last {loads : List ℕ} {f k : ℕ} (hf : f ∈ loads) (hk : k ≠ f) :
    LoadedBefore (loads ++ [k]) f k := by
  obtain ⟨post, pre, heq, hnot⟩ := List.eq_append_cons_of_mem (List.mem_reverse.mpr hf)
  have hloads : loads = pre.reverse ++ f :: post.reverse := by
    rw [← List.reverse_reverse loads, heq]
    simp
  refine ⟨pre.reverse, post.reverse ++ [k], by simp [hloads], ?_, by simp⟩
  simp only [List.mem_append, List.mem_reverse, List.mem_singleton, not_or]
  exact ⟨hnot, Ne.symm hk⟩

/-- A frame appended to the queue when it is loaded. -/
theorem pairwise_loaded {loads q : List ℕ} {f : ℕ} (hq : q.Pairwise (LoadedBefore loads))
    (hmem : ∀ g ∈ q, g ∈ loads) (hf : f ∉ q) :
    (q ++ [f]).Pairwise (LoadedBefore (loads ++ [f])) := by
  have hne : ∀ {g}, g ∈ q → f ≠ g := by
    rintro g hg rfl
    exact hf hg
  rw [List.pairwise_append]
  refine ⟨?_, List.pairwise_singleton .., ?_⟩
  · refine hq.imp_of_mem ?_
    intro g k hg _ h
    exact h.snoc (hne hg)
  · intro g hg k hk
    obtain rfl := List.mem_singleton.mp hk
    exact loadedBefore_last (hmem g hg) (hne hg)

/-! ## The queue -/

/-- **The queue is in order** with respect to the loads of the run: every frame in
use is in it once and no other frame, in the order in which the pages in them
were loaded. -/
structure QueueOrdered (loads : List ℕ) (s : Vm) : Prop where
  once : s.fifoQueue.Nodup
  mem_iff : ∀ f, f ∈ s.fifoQueue ↔ f < numPhysPages ∧ s.bm f = true
  ordered : s.fifoQueue.Pairwise (LoadedBefore loads)

/-- What `writeOneToSwapFile` evicts is a page of a live process, the one that has
been in memory for longest. -/
def EvictsOldest (loads : List ℕ) (s : Vm) : Prop :=
  ∀ rand t, writeOneToSwapFile s rand = some t →
    ∃ phy < numPhysPages, s.bm phy = true ∧ t.bm = s.bm.clear phy ∧
      (∃ pid vpn, s.Resident pid vpn phy) ∧
      ∀ g < numPhysPages, s.bm g = true → g ≠ phy → LoadedBefore loads phy g

/-- The frames that pages are brought into by a step. -/
def stepLoads (s : Vm) (l : Label) : List ℕ :=
  match l with
  | .read vaddr size rand =>
      s.current.elim [] fun c => accessLoads c.1 vaddr size false rand maxTries s
  | .write vaddr bytes rand =>
      s.current.elim [] fun c => accessLoads c.1 vaddr bytes.length true rand maxTries s
  | _ => []

/-- The machine, with its loads as events. -/
def loadStep (s : Vm) (l : Label) : Option (Vm × List ℕ) :=
  (step s l).map fun (t, _) => (t, stepLoads s l)

/-- The queue as the proofs use it; every frame in it has been loaded. -/
structure Queueing (loads : List ℕ) (s : Vm) : Prop extends Sound s, QueueOrdered loads s where
  fifo : s.policy = .fifo
  loaded : ∀ f ∈ s.fifoQueue, f ∈ loads

section Queue

variable {s t u v : Vm} {loads fs : List ℕ} {f : ℕ}

/-- The front of an ordered queue is the oldest. -/
theorem EvictsOldest.of_ordered (h : QueueOrdered loads s) (hfr : Frames none s)
    (hpol : s.policy = .fifo) : EvictsOldest loads s := by
  intro rand t hw
  simp only [writeOneToSwapFile, hpol] at hw
  split at hw
  · cases hw
  · rename_i phy rest hq
    obtain ⟨u, hu, rfl⟩ := Option.map_eq_some_iff.mp hw
    obtain ⟨hlt, hbm⟩ := (h.mem_iff phy).mp (hq ▸ List.mem_cons_self)
    obtain ⟨x, e, hp, hv, hframe⟩ := hfr.occupied hlt hbm (by simp)
    have hclear : u.bm = s.bm.clear phy := by
      obtain ⟨loc, p, -, -, rfl⟩ := evict_eq hu
      rfl
    refine ⟨phy, hlt, hbm, hclear, ⟨_, _, resident_iff_page.mpr ⟨x, e, hp, hv, hframe⟩⟩, ?_⟩
    intro g hg hgb hne
    have hmem := (h.mem_iff g).mpr ⟨hg, hgb⟩
    have hord := h.ordered
    rw [hq] at hmem hord
    exact (List.pairwise_cons.mp hord).1 g ((List.mem_cons.mp hmem).resolve_left hne)

/-- The queue without the frame that is taken: all other frames in use, in order. -/
theorem QueueOrdered.findFrame {rand : ℕ} (h : QueueOrdered loads s) (hfr : Frames none s)
    (hpol : s.policy = .fifo) (hfind : findFrame s rand = some (u, f)) :
    f < numPhysPages ∧ u.bm f = true ∧ f ∉ u.fifoQueue ∧ u.fifoQueue.Sublist s.fifoQueue ∧
      ∀ g, g ≠ f → (g ∈ u.fifoQueue ↔ g < numPhysPages ∧ u.bm g = true) := by
  rcases findFrame_cases hfr hfind with ⟨hfree, rfl⟩ | ⟨hf, hfull, loc, hev⟩
  · obtain ⟨hf, hclear, -⟩ := BitMap.find_some hfree
    refine ⟨hf, BitMap.mark_self _ _, ?_, List.Sublist.refl _, ?_⟩
    · intro hmem
      have hbm := ((h.mem_iff f).mp hmem).2
      rw [hclear] at hbm
      cases hbm
    · intro g hg
      show g ∈ s.fifoQueue ↔ g < numPhysPages ∧ s.bm.mark f g = true
      rw [BitMap.mark_of_ne _ hg]
      exact h.mem_iff g
  · have hq := hev.popped hpol
    have honce := h.once
    rw [hq] at honce
    refine ⟨hf, hev.bm ▸ hfull f hf, (List.nodup_cons.mp honce).1, ?_, ?_⟩
    · rw [hq]
      exact List.sublist_cons_self ..
    · intro g hg
      rw [hev.bm, ← h.mem_iff g, hq, List.mem_cons]
      exact ⟨.inr, fun hmem => hmem.resolve_left hg⟩

/-- **A load** moves its frame to the end of the queue. -/
theorem Queueing.load {rand vpn : ℕ} {pid : ℤ} {x : Executable} {e : PageEntry} {contents : Page}
    (h : QueueOrdered loads s) (hloaded : ∀ f ∈ s.fifoQueue, f ∈ loads) (hfr : Frames none s)
    (hpol : s.policy = .fifo) (hfind : findFrame s rand = some (u, f))
    (hins : Installed u pid vpn f x e contents v) :
    QueueOrdered (loads ++ [f]) v ∧ ∀ f' ∈ v.fifoQueue, f' ∈ loads ++ [f] := by
  obtain ⟨hf, hbm, hnot, hsub, hmem⟩ := h.findFrame hfr hpol hfind
  have hpol' : u.policy = .fifo := (findFrame_outline hfr hfind).2.2.trans hpol
  have hq : v.fifoQueue = u.fifoQueue ++ [f] := by
    rw [hins.fifoQueue, if_pos hpol']
  have hloaded' : ∀ g ∈ u.fifoQueue, g ∈ loads := fun g hg => hloaded g (hsub.subset hg)
  refine ⟨⟨?_, ?_, ?_⟩, ?_⟩
  · rw [hq, List.nodup_append]
    refine ⟨h.once.sublist hsub, List.nodup_singleton f, ?_⟩
    rintro g hg k hk rfl
    obtain rfl := List.mem_singleton.mp hk
    exact hnot hg
  · intro g
    rw [hq, hins.bm, List.mem_append, List.mem_singleton]
    by_cases hg : g = f
    · subst hg
      exact iff_of_true (.inr rfl) ⟨hf, hbm⟩
    · rw [or_iff_left hg, hmem g hg]
  · rw [hq]
    exact pairwise_loaded (h.ordered.sublist hsub) hloaded' hnot
  · intro g hg
    rw [hq] at hg
    rcases List.mem_append.mp hg with hg | hg
    · exact List.mem_append_left _ (hloaded' g hg)
    · exact List.mem_append_right _ hg

/-- **Faults keep the queue in order.** -/
theorem QueueOrdered.served {pid : ℤ} {vpn : ℕ} (h : QueueOrdered loads s)
    (hloaded : ∀ f ∈ s.fifoQueue, f ∈ loads) (hpol : s.policy = .fifo)
    (hs : Served pid vpn s fs t) :
    QueueOrdered (loads ++ fs) t ∧ ∀ f ∈ t.fifoQueue, f ∈ loads ++ fs := by
  induction hs with
  | refl =>
      rw [List.append_nil]
      exact ⟨h, hloaded⟩
  | hit ppn _ ih => exact ⟨⟨ih.1.once, ih.1.mem_iff, ih.1.ordered⟩, ih.2⟩
  | load hs hfr hfind _ _ hins ih =>
      rw [← List.append_assoc]
      exact Queueing.load ih.1 ih.2 hfr (hs.outline.2.2.trans hpol) hfind hins

/-- What touches neither the queue nor the map of frames keeps the order. -/
theorem QueueOrdered.congr (h : QueueOrdered loads s) (hq : t.fifoQueue = s.fifoQueue)
    (hbm : ∀ f, t.bm f = true ↔ s.bm f = true) : QueueOrdered loads t := by
  refine ⟨?_, ?_, ?_⟩
  · rw [hq]
    exact h.once
  · intro f
    rw [hq, hbm]
    exact h.mem_iff f
  · rw [hq]
    exact h.ordered

end Queue

/-! ## Exits -/

/-- The exit of thread `tid` gives up no page that is in memory. -/
def ExitFreesNone (p : Process) (tid : ℕ) : Prop :=
  ∀ vpn < p.space.numPages, p.GivesUp tid vpn → (p.space.pageTable vpn).valid = false

instance (p : Process) (tid : ℕ) : Decidable (ExitFreesNone p tid) :=
  inferInstanceAs (Decidable (∀ vpn < p.space.numPages, _))

def freesNone {ε : Type} : List ε → Vm → Label → Prop := fun _ s l =>
  l.isExit = true → ∀ c ∈ s.current, ∀ p ∈ s.processTable.get c.1, ExitFreesNone p c.2

instance {ε : Type} (tr : List ε) (s : Vm) (l : Label) : Decidable (freesNone tr s l) :=
  inferInstanceAs (Decidable (_ → ∀ c ∈ s.current, _))

section Exits

variable {s t : Vm} {loads : List ℕ} {pid : ℤ} {tid : ℕ} {p : Process}

/-- **An exit that frees nothing** leaves the queue in order. -/
theorem QueueOrdered.released (h : QueueOrdered loads s) (hp : s.processTable.get pid = some p)
    (hnone : ExitFreesNone p tid) (hr : Released pid tid p s t) : QueueOrdered loads t := by
  refine h.congr hr.fifoQueue ?_
  intro f
  rw [hr.bm, and_iff_left_iff_imp]
  intro _ vpn x e hgone hpage hv
  obtain ⟨q, hq, hlt, -, rfl⟩ := get_of_page hpage
  obtain rfl : p = q := Option.some.inj (hp.symm.trans hq)
  rw [hnone vpn hlt hgone] at hv
  cases hv

/-- **An exit that frees a frame** leaves it in the queue. -/
theorem ExitFreesNone.of_ordered {loads' : List ℕ} (h : QueueOrdered loads s) (hfr : Frames none s)
    (hp : s.processTable.get pid = some p) (hr : Released pid tid p s t)
    (ht : QueueOrdered loads' t) : ExitFreesNone p tid := by
  intro vpn hlt hgone
  by_contra hv
  have hvalid : (p.space.pageTable vpn).valid = true := by simpa using hv
  have hpage : s.page pid vpn = some (p.space.exec, p.space.pageTable vpn) := by
    rw [page_of_get hp, if_pos hlt]
  obtain ⟨hlt', hbm, -, -⟩ := hfr.resident hpage hvalid
  have hmem := (h.mem_iff _).mpr ⟨hlt', hbm⟩
  rw [← hr.fifoQueue] at hmem
  have hstill := ((hr.bm _).mp ((ht.mem_iff _).mp hmem).2).2
  exact hstill vpn _ _ hgone hpage hvalid rfl

end Exits

/-! ## Runs -/

section Steps

variable {s t : Vm} {l : Label} {ev : Event} {loads : List ℕ}

theorem Reshaped.queueing (h : Queueing loads s) (ht : Reshaped s t) :
    QueueOrdered loads t ∧ ∀ f ∈ t.fifoQueue, f ∈ loads := by
  refine ⟨h.toQueueOrdered.congr ht.fifoQueue fun f => by rw [ht.bm], ?_⟩
  rw [ht.fifoQueue]
  exact h.loaded

theorem Queueing.step {ε : Type} {tr : List ε} (h : Queueing loads s) (hok : freesNone tr s l)
    (hs : VM.step s l = some (t, ev)) : Queueing (loads ++ stepLoads s l) t := by
  have hfr := h.frames
  have hpol : t.policy = .fifo := by
    cases Step.of_step hs with
    | exec _ hx => exact (extended_exec hfr hx).policy.trans h.fifo
    | fork _ hf => exact (extended_fork hfr hf).policy.trans h.fifo
    | start hk => exact (extended_start hfr hk).policy.trans h.fifo
    | run hr => exact (extended_run hfr hr).policy.trans h.fifo
    | read _ ha => exact (served_access hfr ha).outline.2.2.trans h.fifo
    | write _ ha => exact (served_access hfr ha).outline.2.2.trans h.fifo
    | exit _ he =>
        obtain ⟨p, -, hr⟩ := released_exit h.fits he
        exact hr.policy.trans h.fifo
  have hboth : QueueOrdered (loads ++ stepLoads s l) t ∧
      ∀ f ∈ t.fifoQueue, f ∈ loads ++ stepLoads s l := by
    cases Step.of_step hs with
    | exec _ hx =>
        simp only [stepLoads, List.append_nil]
        exact (extended_exec hfr hx).toReshaped.queueing h
    | fork _ hf =>
        simp only [stepLoads, List.append_nil]
        exact (extended_fork hfr hf).toReshaped.queueing h
    | start hk =>
        simp only [stepLoads, List.append_nil]
        exact (extended_start hfr hk).toReshaped.queueing h
    | run hr =>
        simp only [stepLoads, List.append_nil]
        exact (extended_run hfr hr).toReshaped.queueing h
    | read hcur ha =>
        simp only [stepLoads, hcur, Option.elim_some]
        exact h.toQueueOrdered.served h.loaded h.fifo (served_access hfr ha)
    | write hcur ha =>
        simp only [stepLoads, hcur, Option.elim_some]
        obtain ⟨hord, hloaded⟩ := h.toQueueOrdered.served h.loaded h.fifo (served_access hfr ha)
        exact ⟨hord.congr rfl fun _ => Iff.rfl, hloaded⟩
    | exit hcur he =>
        simp only [stepLoads, List.append_nil]
        obtain ⟨p, hp, hr⟩ := released_exit h.fits he
        refine ⟨h.toQueueOrdered.released hp (hok rfl _ hcur _ hp) hr, ?_⟩
        rw [hr.fifoQueue]
        exact h.loaded
  exact ⟨h.toSound.step hs, hboth.1, hpol, hboth.2⟩

theorem Queueing.boot (tlb : ℕ → TranslationEntry) (ipt : ℕ → IptEntry) (swapFile : ℕ → Page)
    (x : Executable) : Queueing [] (boot .fifo tlb ipt swapFile x) := by
  refine ⟨.boot .., ⟨List.nodup_nil, ?_, List.Pairwise.nil⟩, rfl, ?_⟩
  · intro f
    simp [VM.boot]
  · rintro f ⟨⟩

theorem loadStep_eq {fs : List ℕ} (h : loadStep s l = some (t, fs)) :
    fs = stepLoads s l ∧ ∃ ev, VM.step s l = some (t, ev) := by
  obtain ⟨⟨u, ev⟩, hu, heq⟩ := Option.map_eq_some_iff.mp h
  obtain ⟨rfl, rfl⟩ := Prod.mk.inj heq
  exact ⟨rfl, ev, hu⟩

end Steps

theorem Queueing.of_run {tlb : ℕ → TranslationEntry} {ipt : ℕ → IptEntry} {swapFile : ℕ → Page}
    {x₀ : Executable} {tr : List (List ℕ)} {s : Vm}
    (h : Run loadStep freesNone (VM.boot .fifo tlb ipt swapFile x₀) tr s) :
    Queueing tr.flatten s := by
  refine h.invariant (I := fun tr s => Queueing tr.flatten s) (.boot ..) ?_
  intro tr s l t fs hi hok hs
  obtain ⟨rfl, ev, hs⟩ := loadStep_eq hs
  rw [List.flatten_append, List.flatten_singleton]
  exact hi.step hok hs

end Nachos.VM
