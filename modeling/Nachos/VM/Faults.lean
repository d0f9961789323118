import Nachos.VM.Invariant

/-!
# Faults do not change memory

`Vm.memory` is what the processes see: the contents of every page of every live
process, wherever they are at the moment. Bringing a page in, evicting another
and reloading the TLB leave it as it is; an access then goes to the frame that
holds the page.
-/

namespace Nachos.VM

open Nachos.Lib Nachos.Userprog

/-! ## What the processes see -/

/-- The contents of a page: in its frame, or where its entry says. -/
def Vm.contents (s : Vm) (x : Executable) (vpn : ℕ) (e : PageEntry) : Page :=
  if e.valid then s.mainMemory e.physicalPage
  else
    match e.status with
    | .executable => x.loadPage vpn e.diskLocation
    | .swapFile => s.swapFile (e.diskLocation / pageSize)
    | .neither => zeroPage

/-- Page `vpn` of process `pid`, if there is one. -/
def Vm.memory (s : Vm) (pid : ℤ) (vpn : ℕ) : Option Page :=
  (s.page pid vpn).map fun (x, e) => s.contents x vpn e

section Contents

variable {s t : Vm} {pid : ℤ} {vpn : ℕ} {x : Executable} {e : PageEntry}

theorem memory_of_page (h : s.page pid vpn = some (x, e)) :
    s.memory pid vpn = some (s.contents x vpn e) := by
  rw [Vm.memory, h, Option.map_some]

theorem contents_valid (h : e.valid = true) : s.contents x vpn e = s.mainMemory e.physicalPage := by
  rw [Vm.contents, if_pos h]

/-- Contents do not change when the frame of a page in memory and the slot of a
swapped page do not. -/
theorem contents_congr (hmem : e.valid = true → t.mainMemory e.physicalPage =
      s.mainMemory e.physicalPage)
    (hswap : e.Swapped → t.swapFile (e.diskLocation / pageSize) =
      s.swapFile (e.diskLocation / pageSize)) :
    t.contents x vpn e = s.contents x vpn e := by
  unfold Vm.contents
  split
  · rename_i hv
    exact hmem hv
  · rename_i hv
    split
    · rfl
    · rename_i hst
      exact hswap ⟨by simpa using hv, hst⟩
    · rfl

/-- Memory is compared page by page. -/
theorem memory_congr
    (h : ∀ pid vpn, t.page pid vpn = none ∧ s.page pid vpn = none ∨ ∃ x e e',
      s.page pid vpn = some (x, e) ∧ t.page pid vpn = some (x, e') ∧
        t.contents x vpn e' = s.contents x vpn e) : t.memory = s.memory := by
  funext pid vpn
  rcases h pid vpn with ⟨ht, hs⟩ | ⟨x, e, e', hs, ht, heq⟩
  · rw [Vm.memory, Vm.memory, ht, hs]
    rfl
  · rw [memory_of_page hs, memory_of_page ht, heq]

/-- **An eviction does not change memory.** -/
theorem Evicted.memory {phy loc : ℕ} (hinv : Inv none s) (hphy : phy < numPhysPages)
    (hbm : s.bm phy = true) (ht : Evicted s phy loc t) : t.memory = s.memory := by
  obtain ⟨xv, ev, hvictim, hvalid, hframe⟩ := hinv.frames.occupied hphy hbm (by simp)
  refine memory_congr ?_
  intro pid vpn
  by_cases hv : pid = (s.ipt phy).pid ∧ vpn = (s.ipt phy).virtualPage
  · -- the victim moved to its slot
    obtain ⟨rfl, rfl⟩ := hv
    refine .inr ⟨xv, ev,
      { ev with status := .swapFile, diskLocation := loc * pageSize, valid := false },
      hvictim, ?_, ?_⟩
    · rw [ht.page, if_pos ⟨rfl, rfl⟩, hvictim]
      rfl
    · rw [contents_valid hvalid, hframe]
      show t.swapFile (loc * pageSize / pageSize) = s.mainMemory phy
      rw [Nat.mul_div_cancel _ (by decide), ht.swapFile, Function.update_self]
  · have hpage : t.page pid vpn = s.page pid vpn := by
      rw [ht.page, if_neg hv]
    cases hp : s.page pid vpn with
    | none => exact .inl ⟨hpage.trans hp, rfl⟩
    | some xe =>
        obtain ⟨x, e⟩ := xe
        refine .inr ⟨x, e, e, rfl, hpage.trans hp, contents_congr ?_ ?_⟩
        · intro hev
          rw [ht.mainMemory, Function.update_of_ne]
          intro heq
          exact hv (hinv.frames.frame_inj hvictim hp hvalid hev (heq.trans hframe.symm))
        · intro hs
          obtain ⟨slot, -, hloc, hset⟩ := hinv.swapped hp hs
          rw [hloc, Nat.mul_div_cancel _ (by decide), ht.swapFile, Function.update_of_ne]
          rintro rfl
          rw [ht.slot_free] at hset
          cases hset

/-- **Bringing a page in does not change memory** when what is brought in is what
the page contains. -/
theorem Installed.memory {f : ℕ} (hinv : Inv (some f) s) (hp : s.page pid vpn = some (x, e))
    (ht : Installed s pid vpn f x e (s.contents x vpn e) t) : t.memory = s.memory := by
  refine memory_congr ?_
  intro pid' vpn'
  by_cases hv : pid' = pid ∧ vpn' = vpn
  · obtain ⟨rfl, rfl⟩ := hv
    refine .inr ⟨x, e, { e with physicalPage := f, valid := true }, hp, ?_, ?_⟩
    · rw [ht.page, if_pos ⟨rfl, rfl⟩]
    · show t.mainMemory f = _
      rw [ht.mainMemory, Function.update_self]
  · have hpage : t.page pid' vpn' = s.page pid' vpn' := by
      rw [ht.page, if_neg hv]
    cases hp' : s.page pid' vpn' with
    | none => exact .inl ⟨hpage.trans hp', rfl⟩
    | some xe =>
        obtain ⟨x', e'⟩ := xe
        refine .inr ⟨x', e', e', rfl, hpage.trans hp', contents_congr ?_ ?_⟩
        · intro hev
          obtain ⟨-, -, hne, -⟩ := hinv.resident hp' hev
          rw [ht.mainMemory, Function.update_of_ne (ne_hole.mp hne)]
        · intro _
          rw [ht.swapFile]

end Contents

/-! ## The fault handler -/

/-- What handling faults on page `vpn` of process `pid` leaves alone; no other page
is brought in. -/
structure Faulted (pid : ℤ) (vpn : ℕ) (s t : Vm) : Prop where
  inv : Inv none t
  memory : t.memory = s.memory
  outline : t.outline = s.outline
  current : t.current = s.current
  brought : ∀ {pid' vpn' x e}, t.page pid' vpn' = some (x, e) → e.valid = true →
    (pid' = pid ∧ vpn' = vpn) ∨ ∃ e', s.page pid' vpn' = some (x, e') ∧ e'.valid = true

theorem Faulted.refl {pid : ℤ} {vpn : ℕ} {s : Vm} (h : Inv none s) : Faulted pid vpn s s :=
  ⟨h, rfl, rfl, rfl, fun hp hv => .inr ⟨_, hp, hv⟩⟩

theorem Faulted.trans {pid : ℤ} {vpn : ℕ} {s t u : Vm} (h : Faulted pid vpn s t)
    (h' : Faulted pid vpn t u) : Faulted pid vpn s u := by
  refine ⟨h'.inv, h'.memory.trans h.memory, h'.outline.trans h.outline,
    h'.current.trans h.current, ?_⟩
  intro pid' vpn' x e hp hv
  rcases h'.brought hp hv with heq | ⟨e', hp', hv'⟩
  · exact .inl heq
  · exact h.brought hp' hv'

section Handler

variable {s t : Vm} {pid : ℤ} {tid vpn vaddr rand : ℕ} {x : Executable} {e : PageEntry}

/-- Taking a frame changes nothing that is seen. -/
theorem findFrame_frame (hinv : Inv none s) {f : ℕ} (h : findFrame s rand = some (t, f)) :
    t.memory = s.memory ∧ t.outline = s.outline ∧ t.current = s.current := by
  rcases findFrame_cases hinv.frames h with ⟨-, rfl⟩ | ⟨hf, hfull, loc, hev⟩
  · exact ⟨rfl, rfl, rfl⟩
  · exact ⟨hev.memory hinv hf (hfull f hf), hev.outline, hev.current⟩

theorem findFrame_tlbCounter (hfr : Frames none s) {f : ℕ} (h : findFrame s rand = some (t, f)) :
    t.tlbCounter = s.tlbCounter := by
  rcases findFrame_cases hfr h with ⟨-, rfl⟩ | ⟨-, -, loc, hev⟩
  · rfl
  · exact hev.tlbCounter

/-- What is brought in is what the page contains. -/
theorem broughtIn_eq_contents {f : ℕ} (hinv : Inv (some f) s) (hp : s.page pid vpn = some (x, e))
    (hv : e.valid = false) : s.broughtIn x vpn f e = s.contents x vpn e := by
  obtain ⟨-, -, hzero⟩ := hinv.hole_zero rfl
  have hnot : ¬ e.valid = true := by simp [hv]
  rw [Vm.broughtIn, Vm.contents, if_neg hnot]
  by_cases hst : e.status = .swapFile
  · simp only [hst, ne_eq, not_true_eq_false, if_false]
  · have hloc := hinv.located hp hst
    rw [if_pos hst]
    split
    · rename_i hcode
      rw [if_pos hcode] at hloc
      rw [hloc.1]
    · -- a page that was never written is zero, and so is the frame
      rename_i hcode
      rw [if_neg hcode] at hloc
      rw [hloc, hzero]

theorem tlbIndex_lt {counter : ℤ} {i : ℕ} (h : tlbIndex counter = some i) : i < tlbSize := by
  unfold tlbIndex at h
  split at h
  · cases h
  · have hlt := Int.tmod_lt_of_pos counter (show (0 : ℤ) < tlbSize by decide)
    have hi := Option.some.inj h
    omega

theorem tlbIndex_of_nonneg {counter : ℤ} (h : 0 ≤ counter) : ∃ i, tlbIndex counter = some i :=
  ⟨_, if_neg (Int.not_lt.mpr (Int.tmod_nonneg _ h))⟩

theorem tlbIndex_eq_none_iff {counter : ℤ} :
    tlbIndex counter = none ↔ counter < 0 ∧ 0 < counter % tlbSize := by
  have hlost : tlbIndex counter = none ↔ counter.tmod tlbSize < 0 := by
    unfold tlbIndex
    split <;> simp_all
  have hnat : (tlbSize : ℤ).natAbs = 4 := rfl
  rw [hlost, Int.tmod_eq_emod, hnat]
  unfold tlbSize
  split <;> omega

/-- Entries are lost up to the next multiple of `tlbSize` only. -/
theorem tlbIndex_increment {counter : ℤ} (h : tlbIndex (increment counter) = none) :
    increment counter % tlbSize = counter % tlbSize + 1 := by
  obtain ⟨-, hpos⟩ := tlbIndex_eq_none_iff.mp h
  unfold increment wrapped tlbSize at *
  split at hpos <;> omega

/-- The TLB entry of a page in memory of the running process. -/
theorem Inv.addTLB (hinv : Inv none s) (hcur : s.current = some (pid, tid)) {ppn : ℕ}
    (hppn : ppn < numPhysPages) (hmaps : (s.ipt ppn).Maps pid vpn) : Inv none (addTLB s ppn) := by
  obtain ⟨x, e, hp, hv, heq⟩ := hinv.mapped hppn (by simp) hmaps
  refine { hinv with tlb := ?_ }
  intro pid' tid' i hcur' hi hvalid
  obtain ⟨rfl, rfl⟩ : pid = pid' ∧ tid = tid' := by
    have := hcur.symm.trans hcur'
    simpa using this
  cases hindex : tlbIndex s.tlbCounter with
  | none =>
      simp only [VM.addTLB, hindex] at hvalid ⊢
      exact hinv.tlb hcur hi hvalid
  | some k =>
      simp only [VM.addTLB, hindex] at hvalid ⊢
      by_cases hik : i = k
      · subst hik
        rw [Function.update_self]
        rw [hmaps.vpn_eq]
        exact ⟨x, e, hp, hv, heq⟩
      · rw [Function.update_of_ne hik] at hvalid ⊢
        exact hinv.tlb hcur hi hvalid

/-- **Handling a fault** of the running process. -/
theorem updateTLB_faulted (hinv : Inv none s) (hcur : s.current = some (pid, tid))
    (h : updateTLB s pid vaddr rand = some t) : Faulted pid (vaddr / pageSize) s t := by
  unfold updateTLB at h
  split at h
  · rename_i hnone
    obtain ⟨x, e, hp⟩ := page_of_updateIPT h
    have hv := findIPTIndex_none hinv.frames hp hnone
    obtain ⟨u, f, hu, hpu, hins⟩ := updateIPT_cases hinv.frames hp hv h
    obtain ⟨hmem, hout, hcur'⟩ := findFrame_frame hinv hu
    have hinvu := hinv.findFrame hu
    rw [broughtIn_eq_contents hinvu hpu hv] at hins
    refine ⟨hinvu.installed hpu hv hins, (hins.memory hinvu hpu).trans hmem,
      hins.outline.trans hout, hins.current.trans hcur', ?_⟩
    intro pid' vpn' x' e' hp' hv'
    rw [hins.page] at hp'
    split at hp'
    · rename_i heq
      exact .inl heq
    · exact .inr ⟨e', findFrame_valid hinv.frames hu hp' hv', hv'⟩
  · rename_i ppn hppn
    obtain ⟨hlt, hmaps⟩ := findIPTIndex_some hppn
    obtain rfl := Option.some.inj h
    exact ⟨hinv.addTLB hcur hlt hmaps, rfl, rfl, rfl, fun hp hv => .inr ⟨_, hp, hv⟩⟩

/-- A translation that succeeds leads to the frame of the page. -/
theorem translate_ok (hinv : Inv none s) (hcur : s.current = some (pid, tid)) {size frame : ℕ}
    {writing : Bool} (h : translate s vaddr size writing = .ok frame) :
    Aligned vaddr size ∧ ∃ x e, s.page pid (vaddr / pageSize) = some (x, e) ∧ e.valid = true ∧
      e.physicalPage = frame := by
  unfold translate at h
  split at h
  · cases h
  · rename_i hal
    refine ⟨not_not.mp hal, ?_⟩
    split at h
    · cases h
    · rename_i i hi
      have hlt := List.mem_range.mp (List.mem_of_find?_eq_some hi)
      have hpred := List.find?_some hi
      simp only [Bool.and_eq_true, beq_iff_eq] at hpred
      obtain ⟨x, e, hp, hv, heq⟩ := hinv.tlb hcur hlt hpred.1
      rw [hpred.2] at hp
      split at h
      · cases h
      · split at h
        · cases h
        · exact ⟨x, e, hp, hv, heq.trans (Except.ok.inj h)⟩

/-- **An access that goes through** has only had faults handled, and reaches the
frame of its page. -/
theorem access_some {size frame tries : ℕ} {writing : Bool} (hinv : Inv none s)
    (hcur : s.current = some (pid, tid))
    (h : access pid vaddr size writing rand tries s = some (t, frame)) :
    Faulted pid (vaddr / pageSize) s t ∧ Aligned vaddr size ∧
      ∃ x e, t.page pid (vaddr / pageSize) = some (x, e) ∧ e.valid = true ∧
        e.physicalPage = frame := by
  induction tries generalizing s with
  | zero => cases h
  | succ tries ih =>
      rw [access] at h
      split at h
      · rename_i frame' htr
        simp only [Option.some.injEq, Prod.mk.injEq] at h
        obtain ⟨rfl, rfl⟩ := h
        exact ⟨.refl hinv, translate_ok hinv hcur htr⟩
      · split at h
        · cases h
        · split at h
          · cases h
          · rename_i u hu
            have hf := updateTLB_faulted hinv hcur hu
            obtain ⟨hft, hrest⟩ := ih hf.inv (hf.current.trans hcur) h
            exact ⟨hf.trans hft, hrest⟩
      · cases h

end Handler

/-! ## Every access in range goes through -/

section Progress

variable {s t : Vm} {pid : ℤ} {tid vpn vaddr size rand : ℕ} {x : Executable} {e : PageEntry}

/-- There is a free frame, or a slot for the page that has to go. -/
def Room (s : Vm) : Prop :=
  BitMap.find numPhysPages s.bm ≠ none ∨ BitMap.find swapFileMaxPages s.sfBM ≠ none

/-- In a full memory either policy finds a victim. -/
theorem writeOneToSwapFile_isSome (hinv : Inv none s) (hfull : ∀ g < numPhysPages, s.bm g = true)
    (hslot : BitMap.find swapFileMaxPages s.sfBM ≠ none) (rand : ℕ) :
    ∃ t, writeOneToSwapFile s rand = some t := by
  obtain ⟨loc, hloc⟩ := Option.ne_none_iff_exists'.mp hslot
  have hevict : ∀ {phy}, phy < numPhysPages → ∃ t, evict s phy = some t := by
    intro phy hphy
    obtain ⟨x, e, hp, -⟩ := hinv.frames.occupied hphy (hfull phy hphy) (by simp)
    obtain ⟨p, hget, -⟩ := get_of_page hp
    simp only [evict, hloc, hget]
    exact ⟨_, rfl⟩
  unfold writeOneToSwapFile
  split
  · exact hevict (lt_numPhysPages (Nat.mod_lt _ (by decide)))
  · rename_i hpol
    split
    · rename_i hq
      have hzero : 0 < numPhysPages := lt_numPhysPages (by decide)
      have hmem := hinv.queued hpol hzero (hfull 0 hzero) (by simp)
      rw [hq] at hmem
      cases hmem
    · rename_i phy rest hq
      obtain ⟨t, ht⟩ := hevict (hinv.queue_lt hpol (hq ▸ List.mem_cons_self))
      exact ⟨_, by rw [ht]; rfl⟩

theorem findFrame_isSome (hinv : Inv none s) (hroom : Room s) (rand : ℕ) :
    ∃ t f, findFrame s rand = some (t, f) := by
  unfold findFrame
  split
  · exact ⟨_, _, rfl⟩
  · rename_i hnone
    have hfull := BitMap.find_none hnone
    obtain ⟨u, hu⟩ := writeOneToSwapFile_isSome hinv hfull
      (hroom.resolve_left (not_not.mpr hnone)) rand
    obtain ⟨phy, hphy, hclear, -⟩ := writeOneToSwapFile_cases hinv.frames hfull hu
    simp only [hu, hclear, (BitMap.find_clear hfull hphy).1]
    exact ⟨_, _, rfl⟩

theorem updateIPT_isSome (hinv : Inv none s) (hroom : Room s)
    (hp : s.page pid (vaddr / pageSize) = some (x, e)) (hv : e.valid = false) (rand : ℕ) :
    ∃ t, updateIPT s vaddr pid rand = some t := by
  obtain ⟨p, hget, hvpn, -, -⟩ := get_of_page hp
  obtain ⟨u, f, hu⟩ := findFrame_isSome hinv hroom rand
  obtain ⟨p', hget', -⟩ := get_of_page (page_findFrame hinv.frames hu hp hv)
  simp only [updateIPT, hget, Nat.not_le.mpr hvpn, if_false, hu, hget']
  split
  · split <;> exact ⟨_, rfl⟩
  · exact ⟨_, rfl⟩

/-- A read either goes through or faults. -/
theorem translate_read (hinv : Inv none s) (hcur : s.current = some (pid, tid))
    (hal : Aligned vaddr size) :
    (∃ frame, translate s vaddr size false = .ok frame) ∨
      translate s vaddr size false = .error .pageFault ∧
        ∀ i < tlbSize, ¬ ((s.tlb i).valid = true ∧ (s.tlb i).virtualPage = vaddr / pageSize) := by
  unfold translate
  rw [if_neg (not_not.mpr hal)]
  split
  · rename_i hnone
    refine .inr ⟨rfl, ?_⟩
    intro i hi
    have := List.find?_eq_none.mp hnone i (List.mem_range.mpr hi)
    simpa using this
  · rename_i i hi
    have hlt := List.mem_range.mp (List.mem_of_find?_eq_some hi)
    have hpred := List.find?_some hi
    simp only [Bool.and_eq_true, beq_iff_eq] at hpred
    obtain ⟨x, e, hp, hv, heq⟩ := hinv.tlb hcur hlt hpred.1
    have hframe := (hinv.resident hp hv).1
    rw [heq] at hframe
    refine .inl ⟨(s.tlb i).physicalPage, ?_⟩
    rw [Bool.and_false, if_neg (by simp), if_neg (Nat.not_le.mpr hframe)]

/-- An entry that goes into the TLB is found there. -/
theorem translate_addTLB (hinv : Inv none s) (hcur : s.current = some (pid, tid))
    (hal : Aligned vaddr size) {k i : ℕ} (hk : findIPTIndex s pid (vaddr / pageSize) = some k)
    (hindex : tlbIndex s.tlbCounter = some i) :
    ∃ frame, translate (VM.addTLB s k) vaddr size false = .ok frame := by
  obtain ⟨hlt, hmaps⟩ := findIPTIndex_some hk
  refine (translate_read (hinv.addTLB hcur hlt hmaps) hcur hal).resolve_right ?_
  rintro ⟨-, hmiss⟩
  refine hmiss i (tlbIndex_lt hindex) ?_
  simp only [VM.addTLB, hindex, Function.update_self]
  exact ⟨hmaps.valid, hmaps.vpn_eq⟩

theorem leavesTLB_of_index {i : ℕ} (hindex : tlbIndex s.tlbCounter = some i) :
    leavesTLB s pid vaddr = false := by
  rw [leavesTLB, hindex, Option.isNone_some, Bool.and_false]

/-- With the page in memory, the second try succeeds at the latest. -/
theorem access_resident (hinv : Inv none s) (hcur : s.current = some (pid, tid))
    (hal : Aligned vaddr size) (hp : s.page pid (vaddr / pageSize) = some (x, e))
    (hv : e.valid = true) (hcounter : 0 ≤ s.tlbCounter) (tries : ℕ) :
    ∃ t frame, access pid vaddr size false rand (tries + 2) s = some (t, frame) := by
  rcases translate_read hinv hcur hal with ⟨frame, htr⟩ | ⟨htr, -⟩
  · refine ⟨s, frame, ?_⟩
    rw [access, htr]
  · obtain ⟨k, hk⟩ := hinv.frames.findIPTIndex hp hv
    obtain ⟨hlt, hmaps⟩ := findIPTIndex_some hk
    have hup : updateTLB s pid vaddr rand = some (addTLB s k) := by
      rw [updateTLB, hk]
    obtain ⟨i, hindex⟩ := tlbIndex_of_nonneg hcounter
    obtain ⟨frame, htr'⟩ := translate_addTLB hinv hcur hal hk hindex
    refine ⟨addTLB s k, frame, ?_⟩
    rw [access, htr]
    simp only [leavesTLB_of_index hindex, Bool.false_eq_true, if_false, hup]
    rw [access, htr']

/-- A page that is not in memory is not found. -/
theorem Inv.not_found (hinv : Inv none s) (hp : s.page pid vpn = some (x, e))
    (hv : e.valid = false) : findIPTIndex s pid vpn = none := by
  by_contra hsome
  obtain ⟨k, hk⟩ := Option.ne_none_iff_exists'.mp hsome
  obtain ⟨hlt, hmaps⟩ := findIPTIndex_some hk
  obtain ⟨x', e', hp', hv', -⟩ := hinv.mapped hlt (by simp) hmaps
  rw [hp] at hp'
  simp only [Option.some.injEq, Prod.mk.injEq] at hp'
  rw [hp'.2, hv'] at hv
  cases hv

theorem updateTLB_tlbCounter (hfr : Frames none s) (h : updateTLB s pid vaddr rand = some t) :
    t.tlbCounter = s.tlbCounter ∨ t.tlbCounter = increment s.tlbCounter := by
  unfold updateTLB at h
  split at h
  · rename_i hnone
    obtain ⟨x, e, hp⟩ := page_of_updateIPT h
    obtain ⟨u, f, hu, -, hins⟩ := updateIPT_cases hfr hp (findIPTIndex_none hfr hp hnone) h
    exact .inl (hins.tlbCounter.trans (findFrame_tlbCounter hfr hu))
  · obtain rfl := Option.some.inj h
    exact .inr rfl

/-- An access makes no more entries than it has tries. -/
theorem access_tlbCounter {tries frame : ℕ} {writing : Bool} (hinv : Inv none s)
    (hcur : s.current = some (pid, tid)) (hbound : s.tlbCounter + tries < 2147483648)
    (h : access pid vaddr size writing rand tries s = some (t, frame)) :
    s.tlbCounter ≤ t.tlbCounter ∧ t.tlbCounter ≤ s.tlbCounter + tries := by
  induction tries generalizing s with
  | zero => cases h
  | succ tries ih =>
      push_cast at hbound ⊢
      rw [access] at h
      split at h
      · obtain ⟨rfl, -⟩ := Prod.mk.inj (Option.some.inj h)
        omega
      · split at h
        · cases h
        · split at h
          · cases h
          · rename_i u hu
            have hf := updateTLB_faulted hinv hcur hu
            have hstep : s.tlbCounter ≤ u.tlbCounter ∧ u.tlbCounter ≤ s.tlbCounter + 1 := by
              rcases updateTLB_tlbCounter hinv.frames hu with heq | heq
              · omega
              · rw [increment_of_lt (by omega)] at heq
                omega
            have hrest := ih hf.inv (hf.current.trans hcur) (by omega) h
            omega
      · cases h

/-- **Every aligned read of a page of the running process goes through**, given
room for one page, as long as `TLBCounter` has not run over. -/
theorem access_isSome (hinv : Inv none s) (hcur : s.current = some (pid, tid))
    (hal : Aligned vaddr size) (hp : s.page pid (vaddr / pageSize) = some (x, e))
    (hroom : Room s) (hcounter : 0 ≤ s.tlbCounter) (rand : ℕ) :
    ∃ t frame, access pid vaddr size false rand maxTries s = some (t, frame) := by
  cases hv : e.valid with
  | true => exact access_resident hinv hcur hal hp hv hcounter 1
  | false =>
      rcases translate_read hinv hcur hal with ⟨frame, htr⟩ | ⟨htr, -⟩
      · refine ⟨s, frame, ?_⟩
        rw [maxTries, access, htr]
      · obtain ⟨t, ht⟩ := updateIPT_isSome hinv hroom hp hv rand
        have hup : updateTLB s pid vaddr rand = some t := by
          rw [updateTLB, hinv.not_found hp hv, ht]
        have hf := updateTLB_faulted hinv hcur hup
        -- this fault brought the page in; the next one puts it in the TLB
        obtain ⟨u, f, hu, -, hins⟩ := updateIPT_cases hinv.frames hp hv ht
        have hpt : t.page pid (vaddr / pageSize) =
            some (x, { e with physicalPage := f, valid := true }) := by
          rw [hins.page, if_pos ⟨rfl, rfl⟩]
        obtain ⟨i, hindex⟩ := tlbIndex_of_nonneg hcounter
        rw [maxTries, access, htr]
        simp only [leavesTLB_of_index hindex, Bool.false_eq_true, if_false, hup]
        have hcounter' : 0 ≤ t.tlbCounter := by
          rwa [hins.tlbCounter, findFrame_tlbCounter hinv.frames hu]
        exact access_resident hf.inv (hf.current.trans hcur) hal hpt rfl hcounter' 0

end Progress

end Nachos.VM
