import Nachos.VM.SwapSpace

/-!
# Indexes of the memory manager

`RestoreState`, `writeOneToSwapFile` and `updateIPT` index the TLB, the frames,
the swap file and the process table without looking whether the index is in
range. Here every such use is on record, whether or not the operation comes to
its end. Frames, victims and processes are in range in every run. The two loops
over the TLB go one entry too far, and a full swap file gives slot `-1`.
-/

namespace Nachos.VM

open Nachos.Userprog Nachos.Lib

/-! ## Uses -/

/-- A use of an index. A frame is one of `mainMemory`, `ipt` and `bm`. -/
inductive Use where
  | tlb (i : ℕ)
  | frame (f : ℤ)
  | slot (k : ℤ)
  | front (nonempty : Bool)
  | process (present : Bool)
deriving DecidableEq, Repr

def Use.InRange : Use → Prop
  | .tlb i => i < tlbSize
  | .frame f => 0 ≤ f ∧ f < numPhysPages
  | .slot k => 0 ≤ k ∧ k < swapFileMaxPages
  | .front nonempty => nonempty = true
  | .process present => present = true

/-- What `BitMap::Find` returns. -/
def found : Option ℕ → ℤ
  | some i => i
  | none => -1

/-- A loop over the TLB, `for (i = 0; i<=TLBSize; i++)`. -/
def tlbLoopUses : List Use := (List.range (tlbSize + 1)).map .tlb

def restoreStateUses : List Use := tlbLoopUses

/-- The body of `writeOneToSwapFile`. Writing before the file ends in an assertion. -/
def evictUses (s : Vm) (phy : ℕ) : List Use :=
  tlbLoopUses ++ [.frame phy, .slot (found (BitMap.find swapFileMaxPages s.sfBM))] ++
    match BitMap.find swapFileMaxPages s.sfBM with
    | none => []
    | some _ =>
        [.frame phy, .process (s.processTable.get (s.ipt phy).pid).isSome] ++
          match s.processTable.get (s.ipt phy).pid with
          | none => []
          | some _ => [.frame phy]

def writeOneToSwapFileUses (s : Vm) (rand : ℕ) : List Use :=
  match s.policy with
  | .rand => evictUses s (rand % 32)
  | .fifo =>
      match s.fifoQueue with
      | [] => [.front false]
      | phy :: _ => .front true :: evictUses s phy

/-- `bm->Find()`, with one eviction and a second try when memory is full. -/
def findFrameUses (s : Vm) (rand : ℕ) : List Use :=
  match BitMap.find numPhysPages s.bm with
  | some f => [.frame f]
  | none =>
      writeOneToSwapFileUses s rand ++
        match writeOneToSwapFile s rand with
        | none => []
        | some t => [.frame (found (BitMap.find numPhysPages t.bm))]

def updateIPTUses (s : Vm) (vaddr : ℕ) (pid : ℤ) (rand : ℕ) : List Use :=
  match s.processTable.get pid with
  | none => []
  | some p =>
      if p.space.numPages ≤ vaddr / pageSize then []
      else
        findFrameUses s rand ++
          match findFrame s rand with
          | none => []
          | some (_, f) =>
              .frame f ::
                if (p.space.pageTable (vaddr / pageSize)).status = .swapFile then
                  [.slot ((p.space.pageTable (vaddr / pageSize)).diskLocation / pageSize : ℕ)]
                else []

def updateTLBUses (s : Vm) (pid : ℤ) (vaddr rand : ℕ) : List Use :=
  match findIPTIndex s pid (vaddr / pageSize) with
  | none => updateIPTUses s vaddr pid rand
  | some _ => []

def accessUses (pid : ℤ) (vaddr size : ℕ) (writing : Bool) (rand : ℕ) : (tries : ℕ) → Vm → List Use
  | 0, _ => []
  | tries + 1, s =>
      match translate s vaddr size writing with
      | .error .pageFault =>
          updateTLBUses s pid vaddr rand ++
            match updateTLB s pid vaddr rand with
            | none => []
            | some t => accessUses pid vaddr size writing rand tries t
      | _ => []

/-- The uses of a step. A thread that is switched to has its space restored. -/
def stepUses (s : Vm) (l : Label) : List Use :=
  match l with
  | .start pid tid => if (kernelThread s pid tid).isSome then restoreStateUses else []
  | .run pid tid => if (schedulerRun s pid tid).isSome then restoreStateUses else []
  | .read vaddr size rand =>
      s.current.elim [] fun c => accessUses c.1 vaddr size false rand maxTries s
  | .write vaddr bytes rand =>
      s.current.elim [] fun c => accessUses c.1 vaddr bytes.length true rand maxTries s
  | .exec _ | .fork | .exit => []

/-! ## Uses of a fault -/

section Faults

variable {s t : Vm} {pid : ℤ} {vaddr rand : ℕ}

/-- The uses that can go wrong: the entry behind the TLB, and slot `-1` when the
swap file is full. -/
def Use.Known (s : Vm) (u : Use) : Prop :=
  u.InRange ∨ u = .tlb tlbSize ∨
    u = .slot (-1) ∧ BitMap.find swapFileMaxPages s.sfBM = none

theorem tlbLoop_known (s : Vm) {u : Use} (h : u ∈ tlbLoopUses) : u.Known s := by
  obtain ⟨i, hi, rfl⟩ := List.mem_map.mp h
  rcases Nat.lt_succ_iff_lt_or_eq.mp (List.mem_range.mp hi) with hlt | rfl
  · exact .inl hlt
  · exact .inr (.inl rfl)

theorem tlb_mem_loop : Use.tlb tlbSize ∈ tlbLoopUses :=
  List.mem_map.mpr ⟨tlbSize, List.mem_range.mpr (Nat.lt_succ_self _), rfl⟩

theorem frame_inRange {f : ℕ} (h : f < numPhysPages) : (Use.frame f).InRange :=
  ⟨Int.natCast_nonneg f, by exact_mod_cast h⟩

theorem slot_inRange {k : ℕ} (h : k < swapFileMaxPages) : (Use.slot k).InRange :=
  ⟨Int.natCast_nonneg k, by exact_mod_cast h⟩

/-- The victim and the process it belongs to are there. -/
theorem evictUses_known (hfr : Frames none s) {phy : ℕ} (hphy : phy < numPhysPages)
    (hbm : s.bm phy = true) {u : Use} (hu : u ∈ evictUses s phy) : u.Known s := by
  obtain ⟨x, e, hp, -⟩ := hfr.occupied hphy hbm (by simp)
  obtain ⟨p, hget, -⟩ := get_of_page hp
  have hframe : (Use.frame phy).Known s := .inl (frame_inRange hphy)
  unfold evictUses at hu
  rcases List.mem_append.mp hu with hu | hu
  · rcases List.mem_append.mp hu with hu | hu
    · exact tlbLoop_known s hu
    · simp only [List.mem_cons, List.not_mem_nil, or_false] at hu
      rcases hu with rfl | rfl
      · exact hframe
      · cases hslot : BitMap.find swapFileMaxPages s.sfBM with
        | none => exact .inr (.inr ⟨rfl, hslot⟩)
        | some k => exact .inl (slot_inRange (BitMap.find_some hslot).1)
  · split at hu
    · cases hu
    · rw [hget] at hu
      simp only [Option.isSome_some, List.cons_append, List.nil_append, List.mem_cons,
        List.not_mem_nil, or_false] at hu
      rcases hu with rfl | rfl | rfl
      · exact hframe
      · exact .inl rfl
      · exact hframe

/-- In a full memory there is a victim under either policy. -/
theorem writeOneToSwapFileUses_known (hfr : Frames none s)
    (hfull : ∀ g < numPhysPages, s.bm g = true) {u : Use}
    (hu : u ∈ writeOneToSwapFileUses s rand) : u.Known s := by
  unfold writeOneToSwapFileUses at hu
  split at hu
  · have hphy : rand % 32 < numPhysPages := lt_numPhysPages (Nat.mod_lt _ (by decide))
    exact evictUses_known hfr hphy (hfull _ hphy) hu
  · rename_i hpol
    split at hu
    · rename_i hq
      have hzero : 0 < numPhysPages := lt_numPhysPages (by decide)
      have hmem := hfr.queued hpol hzero (hfull 0 hzero) (by simp)
      rw [hq] at hmem
      cases hmem
    · rename_i phy rest hq
      have hphy : phy < numPhysPages := hfr.queue_lt hpol (hq ▸ List.mem_cons_self)
      rcases List.mem_cons.mp hu with rfl | hu
      · exact .inl rfl
      · exact evictUses_known hfr hphy (hfull _ hphy) hu

theorem tlb_mem_writeOneToSwapFileUses (hfr : Frames none s)
    (hfull : ∀ g < numPhysPages, s.bm g = true) :
    Use.tlb tlbSize ∈ writeOneToSwapFileUses s rand := by
  have hevict : ∀ phy, Use.tlb tlbSize ∈ evictUses s phy := by
    intro phy
    exact List.mem_append_left _ (List.mem_append_left _ tlb_mem_loop)
  unfold writeOneToSwapFileUses
  split
  · exact hevict _
  · rename_i hpol
    split
    · rename_i hq
      have hzero : 0 < numPhysPages := lt_numPhysPages (by decide)
      have hmem := hfr.queued hpol hzero (hfull 0 hzero) (by simp)
      rw [hq] at hmem
      cases hmem
    · exact List.mem_cons_of_mem _ (hevict _)

/-- The frame found is in range, after an eviction too. -/
theorem findFrameUses_known (hfr : Frames none s) {u : Use} (hu : u ∈ findFrameUses s rand) :
    u.Known s := by
  unfold findFrameUses at hu
  split at hu
  · rename_i f hf
    obtain rfl := List.mem_singleton.mp hu
    exact .inl (frame_inRange (BitMap.find_some hf).1)
  · rename_i hnone
    have hfull := BitMap.find_none hnone
    rcases List.mem_append.mp hu with hu | hu
    · exact writeOneToSwapFileUses_known hfr hfull hu
    · split at hu
      · cases hu
      · rename_i t ht
        obtain ⟨phy, hphy, hclear, -⟩ := writeOneToSwapFile_cases hfr hfull ht
        rw [hclear, (BitMap.find_clear hfull hphy).1] at hu
        obtain rfl := List.mem_singleton.mp hu
        exact .inl (frame_inRange hphy)

theorem findFrame_lt (hfr : Frames none s) {f : ℕ} (h : findFrame s rand = some (t, f)) :
    f < numPhysPages := by
  rcases findFrame_cases hfr h with ⟨hfind, -⟩ | ⟨hf, -⟩
  · exact (BitMap.find_some hfind).1
  · exact hf

/-- The uses of `updateIPT` behind the search for a frame. -/
theorem updateIPTUses_known (hfr : Frames none s) (hslot : s.Slotted) {u : Use}
    (hu : u ∈ updateIPTUses s vaddr pid rand) : u.Known s := by
  unfold updateIPTUses at hu
  split at hu
  · cases hu
  · rename_i p hp
    split at hu
    · cases hu
    · rename_i hvpn
      rcases List.mem_append.mp hu with hu | hu
      · exact findFrameUses_known hfr hu
      · split at hu
        · cases hu
        · rename_i t f hf
          rcases List.mem_cons.mp hu with rfl | hu
          · exact .inl (frame_inRange (findFrame_lt hfr hf))
          · split at hu
            · rename_i hst
              obtain rfl := List.mem_singleton.mp hu
              have hpage : s.page pid (vaddr / pageSize) =
                  some (p.space.exec, p.space.pageTable (vaddr / pageSize)) := by
                rw [page_of_get hp, if_pos (Nat.not_le.mp hvpn)]
              obtain ⟨k, hk, hloc⟩ := hslot _ _ _ _ hpage hst
              rw [hloc, Nat.mul_div_cancel _ (by decide)]
              exact .inl (slot_inRange hk)
            · cases hu

/-- A page of the inverted page table needs no further use. -/
theorem accessUses_of_found {size tries k : ℕ} {writing : Bool}
    (hk : findIPTIndex s pid (vaddr / pageSize) = some k) :
    accessUses pid vaddr size writing rand tries s = [] := by
  induction tries generalizing s with
  | zero => rfl
  | succ tries ih =>
      rw [accessUses]
      split
      · have hup : updateTLB s pid vaddr rand = some (addTLB s k) := by
          rw [updateTLB, hk]
        rw [updateTLBUses, hk, hup]
        -- the inverted page table is not changed
        exact ih hk
      · rfl

/-- Once a fault has been handled the page is in the inverted page table. -/
theorem findIPTIndex_of_updateTLB (hfr : Frames none s) (h : updateTLB s pid vaddr rand = some t) :
    ∃ k, findIPTIndex t pid (vaddr / pageSize) = some k := by
  unfold updateTLB at h
  split at h
  · rename_i hnone
    obtain ⟨x, e, hp⟩ := page_of_updateIPT h
    have hv := findIPTIndex_none hfr hp hnone
    obtain ⟨u, f, hu, -, hins⟩ := updateIPT_cases hfr hp hv h
    refine findIPTIndex_isSome (findFrame_lt hfr hu) ?_
    rw [hins.ipt, Function.update_self]
    exact ⟨rfl, rfl, rfl⟩
  · rename_i ppn hppn
    obtain rfl := Option.some.inj h
    exact ⟨ppn, hppn⟩

/-- **The uses of an access** are those of its first fault. -/
theorem accessUses_eq {size tries : ℕ} {writing : Bool} (hfr : Frames none s) :
    accessUses pid vaddr size writing rand (tries + 1) s =
      if translate s vaddr size writing = .error .pageFault then updateTLBUses s pid vaddr rand
      else [] := by
  rw [accessUses]
  split
  · rename_i htr
    rw [if_pos htr]
    split
    · rw [List.append_nil]
    · rename_i t ht
      obtain ⟨k, hk⟩ := findIPTIndex_of_updateTLB hfr ht
      rw [accessUses_of_found hk, List.append_nil]
  · rename_i hne
    rw [if_neg hne]

end Faults

/-! ## Every run -/

/-- The access at `vaddr` faults on a page that is nowhere in memory, and no frame
is free: some page has to go. -/
def NeedsVictim (s : Vm) (pid : ℤ) (vaddr size : ℕ) (writing : Bool) : Prop :=
  translate s vaddr size writing = .error .pageFault ∧
    findIPTIndex s pid (vaddr / pageSize) = none ∧
    (∃ p, s.processTable.get pid = some p ∧ vaddr / pageSize < p.space.numPages) ∧
    BitMap.find numPhysPages s.bm = none

/-- The step goes through one of the loops over the TLB: it switches to a thread,
or it needs a victim. -/
def LoopsOverTLB (s : Vm) (l : Label) : Prop :=
  match l with
  | .start pid tid => (kernelThread s pid tid).isSome
  | .run pid tid => (schedulerRun s pid tid).isSome
  | .read vaddr size _ => ∃ c ∈ s.current, NeedsVictim s c.1 vaddr size false
  | .write vaddr bytes _ => ∃ c ∈ s.current, NeedsVictim s c.1 vaddr bytes.length true
  | .exec _ | .fork | .exit => False

section Steps

variable {s : Vm} {pid : ℤ} {vaddr size rand tries : ℕ} {writing : Bool}

theorem accessUses_known (h : Sound s) (hslot : s.Slotted) {u : Use}
    (hu : u ∈ accessUses pid vaddr size writing rand (tries + 1) s) : u.Known s := by
  rw [accessUses_eq h.frames] at hu
  split at hu
  · unfold updateTLBUses at hu
    split at hu
    · exact updateIPTUses_known h.frames hslot hu
    · cases hu
  · cases hu

/-- An access that needs no victim keeps to the range. -/
theorem accessUses_inRange (h : Sound s) (hslot : s.Slotted) :
    (∀ u ∈ accessUses pid vaddr size writing rand (tries + 1) s, u.InRange) ↔
      ¬ NeedsVictim s pid vaddr size writing := by
  have hfr := h.frames
  rw [accessUses_eq hfr]
  constructor
  · rintro hall ⟨htr, hnone, ⟨p, hp, hvpn⟩, hfull⟩
    rw [if_pos htr] at hall
    refine absurd (hall (.tlb tlbSize) ?_) (Nat.lt_irrefl tlbSize)
    simp only [updateTLBUses, hnone, updateIPTUses, hp, if_neg (Nat.not_le.mpr hvpn)]
    refine List.mem_append_left _ ?_
    simp only [findFrameUses, hfull]
    exact List.mem_append_left _ (tlb_mem_writeOneToSwapFileUses hfr (BitMap.find_none hfull))
  · intro hneeds u hu
    split at hu
    · rename_i htr
      unfold updateTLBUses at hu
      split at hu
      · rename_i hnone
        have hknown := updateIPTUses_known hfr hslot hu
        unfold updateIPTUses at hu
        split at hu
        · cases hu
        · rename_i p hp
          split at hu
          · cases hu
          · rename_i hvpn
            -- a frame is free, so there is one use of it and perhaps one of a slot
            obtain ⟨f, hf⟩ := Option.ne_none_iff_exists'.mp
              (fun hfull => hneeds ⟨htr, hnone, ⟨p, hp, Nat.not_le.mp hvpn⟩, hfull⟩)
            have hshape : u = .frame f ∨ ∃ k : ℕ, u = .slot k := by
              simp only [findFrameUses, findFrame, hf, List.cons_append, List.nil_append,
                List.mem_cons] at hu
              rcases hu with hu | hu | hu
              · exact .inl hu
              · exact .inl hu
              · split at hu
                · exact .inr ⟨_, List.mem_singleton.mp hu⟩
                · cases hu
            rcases hknown with hin | rfl | ⟨rfl, -⟩
            · exact hin
            · rcases hshape with heq | ⟨k, heq⟩ <;> cases heq
            · rcases hshape with heq | ⟨k, heq⟩
              · cases heq
              · have hneg := Use.slot.inj heq
                omega
      · cases hu
    · cases hu

theorem tlbLoop_not_inRange : ¬ ∀ u ∈ tlbLoopUses, u.InRange := by
  intro hall
  exact Nat.lt_irrefl tlbSize (hall _ tlb_mem_loop)

/-- The uses of a switch. -/
theorem switchUses_inRange (b : Bool) :
    (∀ u ∈ (if b then restoreStateUses else []), u.InRange) ↔ ¬ b = true := by
  cases b with
  | true => exact iff_of_false tlbLoop_not_inRange (by simp)
  | false => exact iff_of_true (by simp) (by simp)

theorem switchUses_known {b : Bool} {u : Use} (hu : u ∈ (if b then restoreStateUses else [])) :
    u.Known s := by
  cases b with
  | true => exact tlbLoop_known s hu
  | false => cases hu

/-- The uses of an access by the running thread. -/
theorem currentUses_inRange (h : Sound s) (hslot : s.Slotted) :
    (∀ u ∈ s.current.elim [] fun c => accessUses c.1 vaddr size writing rand maxTries s,
        u.InRange) ↔ ¬ ∃ c ∈ s.current, NeedsVictim s c.1 vaddr size writing := by
  cases hcur : s.current with
  | none => exact iff_of_true (by simp) (by simp)
  | some c =>
      simp only [Option.elim_some, Option.mem_some_iff, exists_eq_left']
      exact accessUses_inRange h hslot

theorem currentUses_known (h : Sound s) (hslot : s.Slotted) {u : Use}
    (hu : u ∈ s.current.elim [] fun c => accessUses c.1 vaddr size writing rand maxTries s) :
    u.Known s := by
  cases hcur : s.current with
  | none =>
      rw [hcur] at hu
      cases hu
  | some c =>
      rw [hcur] at hu
      exact accessUses_known h hslot hu

end Steps

/-- What every run keeps about the indexes. -/
theorem sound_of_run {policy : Policy} {tlb : ℕ → TranslationEntry} {ipt : ℕ → IptEntry}
    {swapFile : ℕ → Page} {x₀ : Executable} {tr : List Event} {s : Vm}
    (h : Run step anyStep (boot policy tlb ipt swapFile x₀) tr s) : Sound s ∧ s.Slotted := by
  refine h.invariant (I := fun _ s => Sound s ∧ s.Slotted) ⟨.boot .., (Swapping.boot ..).slotted⟩ ?_
  rintro tr s l t ev ⟨hsound, hslot⟩ - hs
  exact ⟨hsound.step hs, hslot.step hsound hs⟩

/-- **Index safety.** In every state of every run, a step keeps its indexes in range
exactly when it does not loop over the TLB. Whatever it does, no other index is
out of range than the entry behind the TLB, and slot `-1` of a full swap file. -/
theorem indexes_in_range_iff {policy : Policy} {tlb : ℕ → TranslationEntry}
    {ipt : ℕ → IptEntry} {swapFile : ℕ → Page} {x₀ : Executable} {tr : List Event} {s : Vm}
    (h : Run step anyStep (boot policy tlb ipt swapFile x₀) tr s) (l : Label) :
    ((∀ u ∈ stepUses s l, u.InRange) ↔ ¬ LoopsOverTLB s l) ∧
      ∀ u ∈ stepUses s l, ¬ u.InRange → u = .tlb tlbSize ∨
        u = .slot (-1) ∧ BitMap.find swapFileMaxPages s.sfBM = none := by
  obtain ⟨hsound, hslot⟩ := sound_of_run h
  constructor
  · cases l with
    | exec | fork | exit => exact iff_of_true (by simp [stepUses]) id
    | start | run => exact switchUses_inRange _
    | read | write => exact currentUses_inRange hsound hslot
  · intro u hu hout
    have hknown : u.Known s := by
      cases l with
      | exec | fork | exit => cases hu
      | start | run => exact switchUses_known hu
      | read | write => exact currentUses_known hsound hslot hu
    exact hknown.resolve_left hout

/-- The small program reads a word: the page goes to frame 0. -/
theorem indexes_in_range_iff_sample :
    stepUses bootSample (.read 4 2 0) = [.frame 0, .frame 0] ∧
      ∀ u ∈ stepUses bootSample (.read 4 2 0), u.InRange := by
  have huses : stepUses bootSample (.read 4 2 0) = [.frame 0, .frame 0] := by
    decide +kernel
  refine ⟨huses, ?_⟩
  refine (indexes_in_range_iff (Run.start) (.read 4 2 0)).1.mpr ?_
  rintro ⟨c, -, -, -, -, hfull⟩
  have hfree : BitMap.find numPhysPages bootSample.bm = some 0 := by
    decide +kernel
  cases hfree.symm.trans hfull

/-- A forked thread is switched to, and the entry behind the TLB is written. -/
theorem tlb_overrun_by_switch :
    ∃ tr s t ev, Run step anyStep bootSample tr s ∧ step s (.start 0 1) = some (t, ev) ∧
      Use.tlb tlbSize ∈ stepUses s (.start 0 1) ∧ ¬ (Use.tlb tlbSize).InRange := by
  have hp : (exec step anyStep [] bootSample [.fork]).map
      (fun r => ((step r.2 (.start 0 1)).isSome, (kernelThread r.2 0 1).isSome)) =
        some (true, true) := by
    decide +kernel
  obtain ⟨⟨tr, s⟩, hexec, heq⟩ := Option.map_eq_some_iff.mp hp
  obtain ⟨hsome, hkernel⟩ := Prod.mk.inj heq
  obtain ⟨⟨t, ev⟩, hs⟩ := Option.isSome_iff_exists.mp hsome
  refine ⟨tr, s, t, ev, .of_exec .start hexec, hs, ?_, Nat.lt_irrefl _⟩
  simp only [stepUses, hkernel, if_true]
  exact tlb_mem_loop

end Nachos.VM
