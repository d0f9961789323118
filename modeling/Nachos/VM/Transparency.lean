import Nachos.VM.Steps

/-!
# Paging is transparent

The specification of memory has no pages: a process that has written a byte reads
it back, and reads its executable and zeros elsewhere. It is stated over the
events of a run. What a process sees of the paged machine, `Vm.memory`, agrees
with it after every run without exits in which `TLBCounter` does not run over.
-/

namespace Nachos.VM

open Nachos.Userprog Nachos.Lib

/-! ## The specification -/

/-- The byte at address `a` before anything is written: of the code, of the
initialised data, or zero. -/
def Executable.image (x : Executable) (a : ℕ) : UInt8 :=
  if x.code.virtualAddr ≤ a ∧ a < x.code.virtualAddr + x.code.size then
    x.file[x.code.inFileAddr + (a - x.code.virtualAddr)]?.getD 0
  else if x.initData.virtualAddr ≤ a ∧ a < x.initData.virtualAddr + x.initData.size then
    x.file[x.initData.inFileAddr + (a - x.initData.virtualAddr)]?.getD 0
  else 0

/-- What an event writes to address `a` of process `pid`. -/
def written (pid : ℤ) (a : ℕ) : Event → Option UInt8
  | .write pid' vaddr bytes => if pid' = pid ∧ vaddr ≤ a then bytes[a - vaddr]? else none
  | _ => none

/-- The byte last written to address `a` by process `pid`. -/
def lastWrite (tr : List Event) (pid : ℤ) (a : ℕ) : Option UInt8 :=
  tr.reverse.findSome? (written pid a)

/-- The byte that process `pid` has to read at address `a`. -/
def expected (x : Executable) (tr : List Event) (pid : ℤ) (a : ℕ) : UInt8 :=
  (lastWrite tr pid a).getD (x.image a)

theorem lastWrite_snoc (tr : List Event) (ev : Event) (pid : ℤ) (a : ℕ) :
    lastWrite (tr ++ [ev]) pid a = (written pid a ev).or (lastWrite tr pid a) := by
  rw [lastWrite, List.reverse_append, List.reverse_singleton, List.singleton_append,
    List.findSome?_cons]
  cases written pid a ev <;> rfl

/-- Only writes change what is expected. -/
theorem lastWrite_other {tr : List Event} {ev : Event} (h : ∀ pid a, written pid a ev = none)
    (pid : ℤ) (a : ℕ) : lastWrite (tr ++ [ev]) pid a = lastWrite tr pid a := by
  rw [lastWrite_snoc, h, Option.none_or]

/-! ## The executable's pages -/

section Image

variable {x : Executable}

/-- Code and data are one block of the file. -/
theorem image_block {a : ℕ} (h : a < x.codeAndInitDataSize) :
    x.image a = x.file[x.code.inFileAddr + a]?.getD 0 := by
  unfold Executable.codeAndInitDataSize at h
  unfold Executable.image
  rw [x.code_at_zero]
  split
  · rw [Nat.sub_zero]
  · rename_i hcode
    obtain ⟨hv, hf⟩ := x.data_follows (by omega)
    rw [if_pos (by omega), hv, hf]
    congr 2
    omega

theorem image_beyond {a : ℕ} (h : x.codeAndInitDataSize ≤ a) : x.image a = 0 := by
  unfold Executable.codeAndInitDataSize at h
  unfold Executable.image
  rw [x.code_at_zero, if_neg (by omega)]
  split
  · rename_i hdata
    obtain ⟨hv, -⟩ := x.data_follows (by omega)
    omega
  · rfl

/-- **A page of the executable** is the image of its addresses. -/
theorem loadPage_eq_image {vpn o : ℕ} (hvpn : vpn < x.codeAndInitDataNumPages) (ho : o < pageSize) :
    x.loadPage vpn (x.code.inFileAddr + vpn * pageSize) o = x.image (vpn * pageSize + o) := by
  have hpages : x.codeAndInitDataNumPages = divRoundUp x.codeAndInitDataSize pageSize := rfl
  unfold divRoundUp at hpages
  have hfile : x.code.inFileAddr + vpn * pageSize + o = x.code.inFileAddr + (vpn * pageSize + o) :=
    Nat.add_assoc ..
  by_cases hlt : vpn * pageSize + o < x.codeAndInitDataSize
  · rw [image_block hlt, Executable.loadPage, Executable.readAt, hfile, if_pos ?_]
    · rfl
    · split
      · rename_i hlast
        rw [← hlast]
        omega
      · exact ho
  · rw [image_beyond (Nat.not_lt.mp hlt), Executable.loadPage, Executable.readAt, if_neg ?_]
    · rfl
    · unfold pageSize at *
      split at hpages <;> split <;> omega

/-- Pages behind the executable have no image. -/
theorem image_of_ge {vpn o : ℕ} (hvpn : x.codeAndInitDataNumPages ≤ vpn) :
    x.image (vpn * pageSize + o) = 0 := by
  have hpages : x.codeAndInitDataNumPages = divRoundUp x.codeAndInitDataSize pageSize := rfl
  unfold divRoundUp pageSize at hpages
  apply image_beyond
  unfold pageSize
  split at hpages <;> omega

/-- An unused page contains the image of its addresses. -/
theorem contents_unused {s : Vm} {vpn o : ℕ} {e : PageEntry} (h : e.Unused x vpn)
    (ho : o < pageSize) : s.contents x vpn e o = x.image (vpn * pageSize + o) := by
  have hloc := h.located
  simp only [Vm.contents, h.invalid, Bool.false_eq_true, if_false]
  split at hloc
  · rename_i hvpn
    rw [hloc.1, hloc.2]
    exact loadPage_eq_image hvpn ho
  · rename_i hvpn
    rw [hloc, image_of_ge (Nat.not_lt.mp hvpn)]
    rfl

end Image

/-! ## Agreement -/

/-- The machine holds what was last written, `w`: every page contains it, or else
the image of the executable, and nothing was written outside of pages. -/
structure Holds (w : ℤ → ℕ → Option UInt8) (s : Vm) : Prop where
  holds : ∀ {pid vpn x e}, s.page pid vpn = some (x, e) → ∀ o < pageSize,
    s.contents x vpn e o =
      (w pid (vpn * pageSize + o)).getD (x.image (vpn * pageSize + o))
  unwritten : ∀ {pid a}, s.page pid (a / pageSize) = none → w pid a = none

/-- The machine agrees with what the events so far demand: every page contains
what is expected of its addresses, and nothing was written outside of pages. -/
structure Agrees (tr : List Event) (s : Vm) : Prop where
  holds : ∀ {pid vpn x e}, s.page pid vpn = some (x, e) → ∀ o < pageSize,
    s.contents x vpn e o = expected x tr pid (vpn * pageSize + o)
  unwritten : ∀ {pid a}, s.page pid (a / pageSize) = none → lastWrite tr pid a = none

section Agreement

variable {s t : Vm} {tr : List Event} {ev : Event} {w w' : ℤ → ℕ → Option UInt8}

theorem agrees_iff : Agrees tr s ↔ Holds (lastWrite tr) s :=
  ⟨fun h => ⟨h.holds, h.unwritten⟩, fun h => ⟨h.holds, h.unwritten⟩⟩

/-- Faults leave every page with its process and its contents. -/
theorem Faulted.page_back {pid pid' : ℤ} {vpn vpn' : ℕ} {x : Executable} {e : PageEntry}
    (h : Faulted pid' vpn' s t) (hp : t.page pid vpn = some (x, e)) :
    ∃ e', s.page pid vpn = some (x, e') ∧ s.contents x vpn e' = t.contents x vpn e := by
  obtain ⟨p, hget, hlt, rfl, rfl⟩ := get_of_page hp
  obtain ⟨q, hq, hexec, hn, -⟩ := get_of_outline h.outline hget
  have hpage : s.page pid vpn = some (p.space.exec, q.space.pageTable vpn) := by
    rw [page_of_get hq, hn, if_pos hlt, hexec]
  refine ⟨q.space.pageTable vpn, hpage, ?_⟩
  have hmem := congrFun (congrFun h.memory pid) vpn
  rw [memory_of_page hp, memory_of_page hpage] at hmem
  exact (Option.some.inj hmem).symm

theorem Faulted.page_none {pid pid' : ℤ} {vpn vpn' : ℕ} (h : Faulted pid' vpn' s t)
    (hp : t.page pid vpn = none) : s.page pid vpn = none := by
  have hmem := congrFun (congrFun h.memory pid) vpn
  rw [Vm.memory, hp, Option.map_none] at hmem
  exact Option.map_eq_none_iff.mp hmem.symm

theorem Holds.faulted {pid : ℤ} {vpn : ℕ} (h : Holds w s) (hf : Faulted pid vpn s t) :
    Holds w t := by
  constructor
  · intro pid' vpn' x e hp o ho
    obtain ⟨e', hp', hcont⟩ := hf.page_back hp
    rw [← hcont]
    exact h.holds hp' o ho
  · intro pid' a hp
    exact h.unwritten (hf.page_none hp)

/-- **New pages** contain what the executable has for them, and nothing was
written to them. -/
theorem Holds.extended (h : Holds w s) (ht : Extended s t) : Holds w t := by
  constructor
  · intro pid vpn x e hp o ho
    cases hs : s.page pid vpn with
    | some xe =>
        have heq := hp.symm.trans (ht.persists hs)
        rw [← Option.some.inj heq] at hs
        rw [ht.contents]
        exact h.holds hs o ho
    | none =>
        -- a new page: nobody has written there
        have hdiv : (vpn * pageSize + o) / pageSize = vpn := by
          unfold pageSize at *
          omega
        have hlast : w pid (vpn * pageSize + o) = none := by
          apply h.unwritten
          rw [hdiv]
          exact hs
        rw [contents_unused (ht.added hs hp) ho, hlast, Option.getD_none]
  · intro pid a hp
    apply h.unwritten
    cases hs : s.page pid (a / pageSize) with
    | none => rfl
    | some xe =>
        rw [ht.persists hs] at hp
        cases hp

/-! ## Writes -/

theorem storeBytes_apply (page : Page) (offset : ℕ) (bytes : List UInt8) (o : ℕ) :
    storeBytes page offset bytes o =
      if offset ≤ o then bytes[o - offset]?.getD (page o) else page o := by
  -- on the bytes; the first is stored before the rest go behind it
  induction bytes generalizing page offset with
  | nil => simp [storeBytes]
  | cons b bs ih =>
      rw [storeBytes, ih]
      rcases Nat.lt_trichotomy o offset with hlt | rfl | hgt
      · rw [if_neg (by omega), if_neg (by omega), Function.update_of_ne (by omega)]
      · rw [if_neg (by omega), if_pos (Nat.le_refl _), Function.update_self, Nat.sub_self]
        rfl
      · rw [if_pos (by omega), if_pos (by omega), Function.update_of_ne (by omega),
          show o - offset = o - (offset + 1) + 1 by omega, List.getElem?_cons_succ]

/-- An aligned access stays in its page. -/
theorem Aligned.in_page {vaddr size : ℕ} (h : Aligned vaddr size) :
    vaddr % pageSize + size ≤ pageSize := by
  unfold pageSize
  rcases h with rfl | ⟨rfl, h⟩ | ⟨rfl, h⟩ <;> omega

/-- **A write** changes the page it goes to, and only in the bytes written. -/
theorem Holds.write (h : Holds w s) (hinv : Inv none s) {pid : ℤ} {vaddr : ℕ}
    {bytes : List UInt8} {x : Executable} {e : PageEntry} (hal : Aligned vaddr bytes.length)
    (hp : s.page pid (vaddr / pageSize) = some (x, e)) (hv : e.valid = true)
    (hw : ∀ pid' a, w' pid' a = (written pid' a (.write pid vaddr bytes)).or (w pid' a)) :
    Holds w' (writeBytes s e.physicalPage vaddr bytes) := by
  have hin := hal.in_page
  have haddr : vaddr = vaddr / pageSize * pageSize + vaddr % pageSize := by
    rw [Nat.mul_comm]
    exact (Nat.div_add_mod vaddr pageSize).symm
  constructor
  · intro pid' vpn x' e' hp' o ho
    have hp' : s.page pid' vpn = some (x', e') := hp'
    rw [hw]
    by_cases hsame : pid' = pid ∧ vpn = vaddr / pageSize
    · obtain ⟨rfl, rfl⟩ := hsame
      rw [hp] at hp'
      simp only [Option.some.injEq, Prod.mk.injEq] at hp'
      obtain ⟨rfl, rfl⟩ := hp'
      have hold := h.holds hp o ho
      rw [contents_valid hv] at hold
      rw [contents_valid hv, writeBytes]
      simp only [Function.update_self, storeBytes_apply, written, true_and]
      by_cases hle : vaddr % pageSize ≤ o
      · have hoff : vaddr / pageSize * pageSize + o - vaddr = o - vaddr % pageSize := by omega
        rw [if_pos hle, if_pos (by omega), hoff, hold]
        cases bytes[o - vaddr % pageSize]? <;> rfl
      · rw [if_neg hle, if_neg (by omega), hold, Option.none_or]
    · -- another page: other frame, other addresses
      have hnone : written pid' (vpn * pageSize + o) (.write pid vaddr bytes) = none := by
        rw [written]
        split
        · rename_i hcond
          obtain ⟨rfl, hle⟩ := hcond
          rw [List.getElem?_eq_none]
          have hne : vpn ≠ vaddr / pageSize := fun heq => hsame ⟨rfl, heq⟩
          unfold pageSize at *
          omega
        · rfl
      rw [hnone, Option.none_or]
      have hcont : (writeBytes s e.physicalPage vaddr bytes).contents x' vpn e' =
          s.contents x' vpn e' := by
        refine contents_congr ?_ fun _ => rfl
        intro hv'
        show Function.update s.mainMemory e.physicalPage _ e'.physicalPage = _
        rw [Function.update_of_ne]
        intro heq
        exact hsame (hinv.frames.frame_inj hp hp' hv hv' heq)
      rw [hcont]
      exact h.holds hp' o ho
  · intro pid' a hp'
    have hp' : s.page pid' (a / pageSize) = none := hp'
    rw [hw, h.unwritten hp', Option.or_none, written]
    split
    · rename_i hcond
      obtain ⟨rfl, hle⟩ := hcond
      rw [List.getElem?_eq_none]
      by_contra hlt
      have hdiv : a / pageSize = vaddr / pageSize := by
        unfold pageSize at *
        omega
      rw [hdiv, hp] at hp'
      cases hp'
    · rfl

/-- What an access reads from the frame of its page. -/
theorem Holds.readBytes (h : Holds w s) {pid : ℤ} {vaddr size : ℕ} {x : Executable}
    {e : PageEntry} (hal : Aligned vaddr size)
    (hp : s.page pid (vaddr / pageSize) = some (x, e)) (hv : e.valid = true) :
    readBytes s e.physicalPage vaddr size =
      (List.range size).map fun i => (w pid (vaddr + i)).getD (x.image (vaddr + i)) := by
  have hin := hal.in_page
  refine List.map_congr_left ?_
  intro i hi
  have hi := List.mem_range.mp hi
  have hhold := h.holds hp (vaddr % pageSize + i) (by omega)
  have haddr : vaddr / pageSize * pageSize + (vaddr % pageSize + i) = vaddr + i := by
    rw [← Nat.add_assoc, Nat.mul_comm, Nat.div_add_mod]
  rwa [contents_valid hv, haddr] at hhold

end Agreement

/-! ## Runs without exits -/

/-- No thread and no process exits. -/
def noExit : List Event → Vm → Label → Prop := fun _ _ l => l.isExit = false

instance (tr : List Event) (s : Vm) (l : Label) : Decidable (noExit tr s l) :=
  inferInstanceAs (Decidable (_ = _))

/-- The same, and `TLBCounter` has not run over. -/
def counted : List Event → Vm → Label → Prop := fun _ s l => l.isExit = false ∧ 0 ≤ s.tlbCounter

instance (tr : List Event) (s : Vm) (l : Label) : Decidable (counted tr s l) :=
  inferInstanceAs (Decidable (_ ∧ _))

/-- The reads of a trace have returned what they had to. -/
def ReadsExpected (tr : List Event) (s : Vm) : Prop :=
  ∀ pre post pid vaddr bytes, tr = pre ++ .read pid vaddr bytes :: post →
    ∃ x n ths, s.outline pid = some (x, n, ths) ∧
      bytes = (List.range bytes.length).map fun i => expected x pre pid (vaddr + i)

section Runs

variable {s t : Vm} {tr : List Event} {l : Label} {ev : Event}

/-- Events that write nothing. -/
theorem Agrees.other (h : Holds (lastWrite tr) s) (hev : ∀ pid a, written pid a ev = none) :
    Agrees (tr ++ [ev]) s := by
  rw [agrees_iff, show lastWrite (tr ++ [ev]) = lastWrite tr from funext₂ (lastWrite_other hev)]
  exact h

/-- **One step** without exit keeps the agreement, and keeps the executable of
every process. -/
theorem Agrees.step (h : Agrees tr s) (hinv : Inv none s) (hok : l.isExit = false)
    (hs : step s l = some (t, ev)) :
    Agrees (tr ++ [ev]) t ∧ ∀ {pid x n ths}, s.outline pid = some (x, n, ths) →
      ∃ n' ths', t.outline pid = some (x, n', ths') := by
  rw [agrees_iff] at h
  cases Step.of_step hs with
  | exec _ hx =>
      have hext := extended_exec hinv.frames hx
      exact ⟨.other (h.extended hext) fun _ _ => rfl, hext.same_exec⟩
  | fork _ hf =>
      have hext := extended_fork hinv.frames hf
      exact ⟨.other (h.extended hext) fun _ _ => rfl, hext.same_exec⟩
  | start hk =>
      have hext := extended_start hinv.frames hk
      exact ⟨.other (h.extended hext) fun _ _ => rfl, hext.same_exec⟩
  | run hr =>
      have hext := extended_run hinv.frames hr
      exact ⟨.other (h.extended hext) fun _ _ => rfl, hext.same_exec⟩
  | read hcur ha =>
      obtain ⟨hf, -⟩ := access_some hinv hcur ha
      refine ⟨.other (h.faulted hf) fun _ _ => rfl, ?_⟩
      intro pid x n ths hout
      exact ⟨n, ths, hf.outline ▸ hout⟩
  | write hcur ha =>
      obtain ⟨hf, hal, x, e, hp, hv, rfl⟩ := access_some hinv hcur ha
      refine ⟨agrees_iff.mpr ((h.faulted hf).write hf.inv hal hp hv (lastWrite_snoc tr _)), ?_⟩
      intro pid x n ths hout
      exact ⟨n, ths, hf.outline ▸ hout⟩
  | exit => cases hok

/-- A read that goes through returns what is held. -/
theorem Holds.read {w : ℤ → ℕ → Option UInt8} (h : Holds w s) (hinv : Inv none s) {pid : ℤ}
    {tid vaddr size rand frame : ℕ} (hcur : s.current = some (pid, tid))
    (ha : access pid vaddr size false rand maxTries s = some (t, frame)) :
    ∃ x n ths, t.outline pid = some (x, n, ths) ∧ VM.readBytes t frame vaddr size =
      (List.range size).map fun i => (w pid (vaddr + i)).getD (x.image (vaddr + i)) := by
  obtain ⟨hf, hal, x, e, hp, hv, rfl⟩ := access_some hinv hcur ha
  obtain ⟨p, hget, -, rfl, -⟩ := get_of_page hp
  exact ⟨_, _, _, outline_of_get hget, (h.faulted hf).readBytes hal hp hv⟩

theorem ReadsExpected.step (hr : ReadsExpected tr s) (h : Agrees tr s) (hinv : Inv none s)
    (hok : l.isExit = false) (hs : VM.step s l = some (t, ev)) : ReadsExpected (tr ++ [ev]) t := by
  intro pre post pid vaddr bytes heq
  rcases snoc_eq_append_cons heq with ⟨rfl, hev⟩ | ⟨post', htr⟩
  · -- the read is this step
    cases Step.of_step hs with
    | read hcur ha =>
        cases hev
        obtain ⟨x, n, ths, hout, hbytes⟩ := (agrees_iff.mp h).read hinv hcur ha
        refine ⟨x, n, ths, hout, ?_⟩
        rw [hbytes, List.length_map, List.length_range]
        rfl
    | exec | fork | start | run | write | exit => cases hev
  · obtain ⟨x, n, ths, hout, hbytes⟩ := hr pre post' pid vaddr bytes htr
    obtain ⟨n', ths', hout'⟩ := (h.step hinv hok hs).2 hout
    exact ⟨x, n', ths', hout', hbytes⟩

end Runs

theorem Agrees.boot (policy : Policy) (tlb : ℕ → TranslationEntry) (ipt : ℕ → IptEntry)
    (swapFile : ℕ → Page) (x : Executable) : Agrees [] (boot policy tlb ipt swapFile x) := by
  constructor
  · intro pid vpn x' e hp o ho
    exact contents_unused (boot_page hp) ho
  · intro pid a _
    rfl

/-- **Paging is transparent**, as long as `TLBCounter` has not run over. In every run
of processes without exits, every read has returned, byte by byte, what its process
last wrote there, or else the executable's byte, or zero; and at the end of the run
every aligned read in range returns so, provided a page that has to go finds a slot
in the swap file. -/
theorem paging_transparent {policy : Policy} {tlb : ℕ → TranslationEntry} {ipt : ℕ → IptEntry}
    {swapFile : ℕ → Page} {x₀ : Executable} {tr : List Event} {s : Vm}
    (h : Run step counted (boot policy tlb ipt swapFile x₀) tr s) :
    (∀ pre post pid vaddr bytes, tr = pre ++ .read pid vaddr bytes :: post →
      ∃ p, s.processTable.get pid = some p ∧
        bytes = (List.range bytes.length).map fun i =>
          expected p.space.exec pre pid (vaddr + i)) ∧
      ∀ pid tid p vaddr size rand, s.current = some (pid, tid) →
        s.processTable.get pid = some p → vaddr / pageSize < p.space.numPages →
        Aligned vaddr size → Room s → 0 ≤ s.tlbCounter →
        ∃ t, step s (.read vaddr size rand) = some (t, .read pid vaddr
          ((List.range size).map fun i => expected p.space.exec tr pid (vaddr + i))) := by
  have hall : Inv none s ∧ Agrees tr s ∧ ReadsExpected tr s := by
    refine h.invariant (I := fun tr s => Inv none s ∧ Agrees tr s ∧ ReadsExpected tr s) ?_ ?_
    · refine ⟨.boot .., .boot .., ?_⟩
      intro pre post pid vaddr bytes heq
      simp at heq
    · rintro tr s l t ev ⟨hinv, hag, hr⟩ hok hs
      have hclean : CleanExit s l := by
        intro hexit
        rw [hok.1] at hexit
        cases hexit
      exact ⟨hinv.step hclean hs, (hag.step hinv hok.1 hs).1, hr.step hag hinv hok.1 hs⟩
  obtain ⟨hinv, hag, hr⟩ := hall
  constructor
  · intro pre post pid vaddr bytes htr
    obtain ⟨x, n, ths, hout, hbytes⟩ := hr pre post pid vaddr bytes htr
    obtain ⟨p, hp, heq⟩ := Option.map_eq_some_iff.mp hout
    obtain ⟨rfl, -⟩ := Prod.mk.inj heq
    exact ⟨p, hp, hbytes⟩
  · intro pid tid p vaddr size rand hcur hp hlt hal hroom hcounter
    have hpage : s.page pid (vaddr / pageSize) =
        some (p.space.exec, p.space.pageTable (vaddr / pageSize)) := by
      rw [page_of_get hp, if_pos hlt]
    obtain ⟨t, frame, ha⟩ := access_isSome hinv hcur hal hpage hroom hcounter rand
    obtain ⟨hf, -⟩ := access_some hinv hcur ha
    obtain ⟨x, n, ths, hout, hbytes⟩ := (agrees_iff.mp hag).read hinv hcur ha
    rw [hf.outline, outline_of_get hp] at hout
    simp only [Option.some.injEq, Prod.mk.injEq] at hout
    obtain ⟨rfl, -⟩ := hout
    refine ⟨t, ?_⟩
    simp only [step, hcur, ha, Option.map_some, hbytes]
    rfl

/-- Two processes of the small program: the second reads the program's byte where
the first has written. -/
theorem paging_transparent_sample :
    ∃ s, Run step counted bootSample
        [.write 0 4 [9, 9], .read 0 4 [9, 9], .exec 1, .other, .read 1 4 [5, 6]] s ∧
      ∃ p, s.processTable.get 1 = some p ∧
        [5, 6] = (List.range 2).map fun i =>
          expected p.space.exec [.write 0 4 [9, 9], .read 0 4 [9, 9], .exec 1, .other] 1 (4 + i) := by
  have hp : (exec step counted [] bootSample [.write 4 [9, 9] 0, .read 4 2 0, .exec sampleProgram,
      .run 1 0, .read 4 2 0]).map Prod.fst =
        some [.write 0 4 [9, 9], .read 0 4 [9, 9], .exec 1, .other, .read 1 4 [5, 6]] := by
    decide +kernel
  obtain ⟨⟨tr, s⟩, hexec, rfl⟩ := Option.map_eq_some_iff.mp hp
  have hrun := Run.of_exec .start hexec
  refine ⟨s, hrun, ?_⟩
  exact (paging_transparent hrun).1 [.write 0 4 [9, 9], .read 0 4 [9, 9], .exec 1, .other] [] 1 4
    [5, 6] rfl

/-! ## The counter runs over -/

section Counter

variable {s t : Vm} {pid : ℤ} {vaddr size rand k i : ℕ} {tr : List Event}

theorem translate_invalid (hal : Aligned vaddr size) (h : ∀ i < tlbSize, (s.tlb i).valid = false) :
    translate s vaddr size false = .error .pageFault := by
  have hnone : ((List.range tlbSize).find? fun i =>
      (s.tlb i).valid && (s.tlb i).virtualPage == vaddr / pageSize) = none := by
    refine List.find?_eq_none.mpr fun i hi => ?_
    rw [h i (List.mem_range.mp hi)]
    exact Bool.false_ne_true
  rw [translate, if_neg (not_not.mpr hal), hnone]

/-- The first thread reads again and again from the first page. -/
structure Reading (s : Vm) : Prop where
  inv : Inv none s
  current : s.current = some (0, 0)
  thread : ∃ p v, s.processTable.get 0 = some p ∧ p.threads[0]? = some ⟨some v, false⟩
  page : ∃ x e, s.page 0 (4 / pageSize) = some (x, e) ∧ e.valid = true
  room : Room s

theorem Reading.run (h : Reading s) : VM.step s (.run 0 0) = some (restoreState s, .other) := by
  obtain ⟨p, v, hp, hthread⟩ := h.thread
  have hsame : { s with current := some (0, 0) } = s := by rw [← h.current]
  simp only [VM.step, schedulerRun, hp, hthread, hsame, Option.map_some]

theorem restoreState_invalid (s : Vm) : ∀ i < tlbSize, ((restoreState s).tlb i).valid = false := by
  intro i hi
  simp only [restoreState, if_pos (Nat.le_of_lt hi)]

theorem aligned_sample : Aligned 4 2 := .inr (.inl ⟨rfl, rfl⟩)

theorem Reading.restored (h : Reading s) : Reading (restoreState s) :=
  ⟨h.inv.step (by rintro ⟨⟩) h.run, h.current, h.thread, h.page, h.room⟩

theorem Reading.found (h : Reading s) :
    ∃ k, findIPTIndex (restoreState s) 0 (4 / pageSize) = some k := by
  obtain ⟨x, e, hp, hv⟩ := h.page
  exact h.restored.inv.frames.findIPTIndex hp hv

/-- The TLB is emptied, and the next read makes an entry. -/
theorem Reading.round (h : Reading s) (hrun : Run step noExit bootSample tr s)
    (hindex : tlbIndex s.tlbCounter = some i) :
    ∃ tr' t, Run step noExit bootSample tr' t ∧ Reading t ∧ t.tlbCounter = increment s.tlbCounter := by
  obtain ⟨k, hk⟩ := h.found
  have hup : updateTLB (restoreState s) 0 4 0 = some (addTLB (restoreState s) k) := by
    rw [updateTLB, hk]
  obtain ⟨frame, htr⟩ := translate_addTLB h.restored.inv h.current aligned_sample hk hindex
  have ha : access 0 4 2 false 0 maxTries (restoreState s) =
      some (addTLB (restoreState s) k, frame) := by
    have hinside : leavesTLB (restoreState s) 0 4 = false := leavesTLB_of_index hindex
    rw [maxTries, access, translate_invalid aligned_sample (restoreState_invalid s)]
    simp only [hinside, Bool.false_eq_true, if_false, hup]
    rw [access, htr]
  have hread : VM.step (restoreState s) (.read 4 2 0) = some (addTLB (restoreState s) k,
      .read 0 4 (readBytes (addTLB (restoreState s) k) frame 4 2)) := by
    simp only [VM.step, show (restoreState s).current = _ from h.current, ha, Option.map_some]
  exact ⟨_, _, .snoc (.snoc hrun (by exact rfl) h.run) (by exact rfl) hread,
    ⟨h.restored.inv.step (by rintro ⟨⟩) hread, h.current, h.thread, h.page, h.room⟩, rfl⟩

theorem Reading.rounds (h : Reading s) (hrun : Run step noExit bootSample tr s) (m : ℕ)
    (hnonneg : 0 ≤ s.tlbCounter) (hm : s.tlbCounter + m < 2147483648) :
    ∃ tr' t, Run step noExit bootSample tr' t ∧ Reading t ∧ t.tlbCounter = s.tlbCounter + m := by
  induction m with
  | zero => exact ⟨tr, s, hrun, h, (Int.add_zero _).symm⟩
  | succ m ih =>
      push_cast at hm
      obtain ⟨tr₁, s₁, hrun₁, h₁, hcounter₁⟩ := ih (by omega)
      obtain ⟨i, hindex⟩ := tlbIndex_of_nonneg (show 0 ≤ s₁.tlbCounter by omega)
      obtain ⟨tr₂, s₂, hrun₂, h₂, hcounter₂⟩ := h₁.round hrun₁ hindex
      refine ⟨tr₂, s₂, hrun₂, h₂, ?_⟩
      rw [hcounter₂, increment_of_lt (by omega), hcounter₁]
      push_cast
      omega

end Counter

/-- When `TLBCounter` has run over, a read in range of a page in memory writes an entry in front
of the TLB. -/
theorem entry_outside_tlb : ∃ tr s, Run step noExit bootSample tr s ∧ s.current = some (0, 0) ∧
    (∃ p, s.processTable.get 0 = some p ∧ 4 / pageSize < p.space.numPages) ∧ Room s ∧
    (∃ x e, s.page 0 (4 / pageSize) = some (x, e) ∧ e.valid = true) ∧
    s.tlbCounter = -2147483647 ∧ tlbIndex s.tlbCounter = none ∧
    step s (.read 4 2 0) = none := by
  have hp : (step bootSample (.read 4 2 0)).map (fun r => (r.1.current, r.1.tlbCounter,
      (r.1.processTable.get 0).map (fun p => p.threads[0]?),
      decide (BitMap.find numPhysPages r.1.bm = none))) =
        some (some (0, 0), 1, some (some ⟨some 1, false⟩), false) := by
    decide +kernel
  obtain ⟨⟨s, ev⟩, hs, hstate⟩ := Option.map_eq_some_iff.mp hp
  simp only [Prod.mk.injEq, decide_eq_false_iff_not] at hstate
  obtain ⟨hcur, hcounter, hthread, hroom⟩ := hstate
  obtain ⟨p, hget, hthread⟩ := Option.map_eq_some_iff.mp hthread
  have hpage : ∃ x e, s.page 0 (4 / pageSize) = some (x, e) ∧ e.valid = true := by
    cases Step.of_step hs with
    | read hcur' ha =>
        obtain ⟨rfl, -⟩ := Prod.mk.inj (Option.some.inj hcur')
        obtain ⟨-, -, x, e, hpage, hv, -⟩ := access_some (.boot ..) hcur' ha
        exact ⟨x, e, hpage, hv⟩
  have hreading : Reading s :=
    ⟨(Inv.boot ..).step (by rintro ⟨⟩) hs, hcur, ⟨p, 1, hget, hthread⟩, hpage, .inl hroom⟩
  have hrun : Run step noExit bootSample _ s := .snoc .start (by exact rfl) hs
  -- the counter goes up to the largest `int`, and three times more
  obtain ⟨tr₁, s₁, hrun₁, h₁, hcounter₁⟩ := hreading.rounds hrun 2147483646 (by omega) (by omega)
  rw [hcounter] at hcounter₁
  obtain ⟨tr₂, s₂, hrun₂, h₂, hcounter₂⟩ := h₁.round hrun₁ (i := 3) (by rw [hcounter₁]; decide)
  rw [hcounter₁] at hcounter₂
  obtain ⟨tr₃, s₃, hrun₃, h₃, hcounter₃⟩ := h₂.round hrun₂ (i := 0) (by rw [hcounter₂]; decide)
  rw [hcounter₂] at hcounter₃
  obtain ⟨k, hk⟩ := h₃.found
  have hlast : (restoreState s₃).tlbCounter = -2147483647 := hcounter₃
  obtain ⟨p₃, -, hp₃, -⟩ := h₃.thread
  refine ⟨_, _, .snoc hrun₃ (by exact rfl) h₃.run, h₃.current, ⟨p₃, hp₃, ?_⟩, h₃.room, h₃.page,
    hlast, by rw [hlast]; decide, ?_⟩
  · obtain ⟨x, e, hpage, -⟩ := h₃.page
    obtain ⟨q, hq, hlt, -⟩ := get_of_page hpage
    obtain rfl : p₃ = q := Option.some.inj (hp₃.symm.trans hq)
    exact hlt
  · have hleaves : leavesTLB (restoreState s₃) 0 4 = true := by
      rw [leavesTLB, hk, hlast]
      rfl
    have hnone : access 0 4 2 false 0 maxTries (restoreState s₃) = none := by
      rw [maxTries, access, translate_invalid aligned_sample (restoreState_invalid s₃)]
      simp only [hleaves, if_true]
    simp only [step, show (restoreState s₃).current = _ from h₃.current, hnone, Option.map_none]

end Nachos.VM
