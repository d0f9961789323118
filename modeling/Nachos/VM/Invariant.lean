import Nachos.VM.Frames

/-!
# The invariant of the paging structures

Page tables, inverted page table, frame bit map, TLB, replacement queue and swap
bit map are kept together by one invariant. Beyond what holds of the frames in
every run, it says that the inverted page table has no entry left from an exit,
that free frames are zero, and where the pages that are not in memory are found.
-/

namespace Nachos.VM

open Nachos.Userprog

/-! ## The invariant -/

/-- **The invariant**, with the frame `hole` taken but not yet filled. -/
structure Inv (hole : Option ℕ) (s : Vm) : Prop where
  /-- A page in memory has its own occupied frame, and the inverted entry names it. -/
  resident : ∀ {pid vpn x e}, s.page pid vpn = some (x, e) → e.valid = true →
    e.physicalPage < numPhysPages ∧ s.bm e.physicalPage = true ∧ hole ≠ some e.physicalPage ∧
      (s.ipt e.physicalPage).Maps pid vpn
  /-- What a valid inverted entry names is in memory, in that frame. -/
  mapped : ∀ {f pid vpn}, f < numPhysPages → hole ≠ some f → (s.ipt f).Maps pid vpn →
    ∃ x e, s.page pid vpn = some (x, e) ∧ e.valid = true ∧ e.physicalPage = f
  occupied : ∀ {f}, f < numPhysPages → s.bm f = true → hole ≠ some f → (s.ipt f).valid = true
  free_zero : ∀ {f}, f < numPhysPages → s.bm f = false → s.mainMemory f = zeroPage
  hole_zero : ∀ {f}, hole = some f →
    f < numPhysPages ∧ s.bm f = true ∧ s.mainMemory f = zeroPage
  /-- Under FIFO every page in memory is in the queue. -/
  queued : s.policy = .fifo → ∀ {f}, f < numPhysPages → s.bm f = true → hole ≠ some f →
    f ∈ s.fifoQueue
  queue_lt : s.policy = .fifo → ∀ {f}, f ∈ s.fifoQueue → f < numPhysPages
  /-- A swapped page has its own slot of the swap file. -/
  swapped : ∀ {pid vpn x e}, s.page pid vpn = some (x, e) → e.Swapped →
    ∃ slot < swapFileMaxPages, e.diskLocation = slot * pageSize ∧ s.sfBM slot = true
  swap_inj : ∀ {pid vpn x e pid' vpn' x' e'}, s.page pid vpn = some (x, e) →
    s.page pid' vpn' = some (x', e') → e.Swapped → e'.Swapped →
    e'.diskLocation = e.diskLocation → pid' = pid ∧ vpn' = vpn
  /-- A page that was never swapped is in the executable or nowhere. -/
  located : ∀ {pid vpn x e}, s.page pid vpn = some (x, e) → e.status ≠ .swapFile →
    if vpn < x.codeAndInitDataNumPages then
      e.status = .executable ∧ e.diskLocation = x.code.inFileAddr + vpn * pageSize
    else e.status = .neither
  /-- The TLB holds pages of the running process. -/
  tlb : ∀ {pid tid i}, s.current = some (pid, tid) → i < tlbSize → (s.tlb i).valid = true →
    ∃ x e, s.page pid (s.tlb i).virtualPage = some (x, e) ∧ e.valid = true ∧
      e.physicalPage = (s.tlb i).physicalPage
  /-- The pages of the executable are pages of the process. -/
  code_fits : ∀ {pid x n ths}, s.outline pid = some (x, n, ths) → x.codeAndInitDataNumPages ≤ n
  /-- There are no more processes than `Exec` has started. -/
  table_size : s.processTable.size = 100
  table_free : ∀ {i : ℕ}, 1 + s.threadCounter / 2 ≤ i → s.processTable.get i = none
  boxes : s.threadCounter ≤ numBoxes

theorem Inv.frames {hole : Option ℕ} {s : Vm} (h : Inv hole s) : Frames hole s := by
  constructor
  case resident => exact h.resident
  case occupied =>
    intro f hf hb hh
    exact h.mapped hf hh ⟨h.occupied hf hb hh, rfl, rfl⟩
  case hole_taken =>
    intro f hf
    obtain ⟨hlt, hbm, -⟩ := h.hole_zero hf
    exact ⟨hlt, hbm⟩
  case queued => exact h.queued
  case queue_lt => exact h.queue_lt
  case code_fits => exact h.code_fits
  case table_size => exact h.table_size
  case table_free => exact h.table_free
  case boxes => exact h.boxes

/-! ## Taking a frame -/

section Hole

variable {s t : Vm} {f : ℕ}

/-- A free frame becomes the hole. -/
theorem Inv.mark (h : Inv none s) (hf : BitMap.find numPhysPages s.bm = some f) :
    Inv (some f) { s with bm := s.bm.mark f } := by
  obtain ⟨hlt, hclear, -⟩ := BitMap.find_some hf
  have hfr := h.frames.mark hf
  constructor
  case resident => exact hfr.resident
  case mapped =>
    intro g pid vpn hg _ hmaps
    exact h.mapped hg (by simp) hmaps
  case occupied =>
    intro g hg hb hh
    exact h.occupied hg (bm_of_mark (ne_hole.mp hh) hb) (by simp)
  case free_zero =>
    intro g hg hb
    by_cases hgf : g = f
    · subst hgf
      exact absurd (BitMap.mark_self s.bm g) (by rw [show s.bm.mark g g = false from hb]; simp)
    · exact h.free_zero hg (bm_of_mark hgf hb)
  case hole_zero =>
    intro g hg
    obtain rfl : f = g := Option.some.inj hg
    exact ⟨hlt, BitMap.mark_self _ _, h.free_zero hlt hclear⟩
  case queued => exact hfr.queued
  case queue_lt => exact h.queue_lt
  case swapped => exact h.swapped
  case swap_inj => exact h.swap_inj
  case located => exact h.located
  case tlb => exact h.tlb
  case code_fits => exact h.code_fits
  case table_size => exact h.table_size
  case table_free => exact h.table_free
  case boxes => exact h.boxes

/-- The slot of the victim was no other page's. -/
theorem Inv.slot_ne (h : Inv none s) {loc : ℕ} (hfree : s.sfBM loc = false) {pid : ℤ} {vpn : ℕ}
    {x : Executable} {e : PageEntry} (hp : s.page pid vpn = some (x, e)) (hs : e.Swapped) :
    e.diskLocation ≠ loc * pageSize := by
  intro heq
  obtain ⟨slot, -, hloc, hset⟩ := h.swapped hp hs
  obtain rfl : slot = loc := Nat.eq_of_mul_eq_mul_right (by decide) (hloc.symm.trans heq)
  rw [hfree] at hset
  cases hset

/-- **An eviction** keeps the invariant; the frame of the victim becomes the hole. -/
theorem Inv.evicted (h : Inv none s) {phy loc : ℕ} (hphy : phy < numPhysPages)
    (hfull : ∀ g < numPhysPages, s.bm g = true) (ht : Evicted s phy loc t) : Inv (some phy) t := by
  have hbm := hfull phy hphy
  have hfr := h.frames.evicted hphy hfull ht
  constructor
  case resident => exact hfr.resident
  case mapped =>
    intro g pid vpn hg hh hmaps
    rw [ht.ipt] at hmaps
    obtain ⟨x, e, hp, hv, rfl⟩ := h.mapped hg (by simp) hmaps
    exact ⟨x, e, h.frames.evicted_forth hphy hbm ht hp (ne_hole.mp hh), hv, rfl⟩
  case occupied =>
    intro g hg hb _
    rw [ht.ipt]
    exact h.occupied hg (hfull g hg) (by simp)
  case free_zero =>
    intro g hg hb
    rw [ht.bm, hfull g hg] at hb
    cases hb
  case hole_zero =>
    intro g hg
    obtain rfl : phy = g := Option.some.inj hg
    rw [ht.bm, ht.mainMemory, Function.update_self]
    exact ⟨hphy, hbm, rfl⟩
  case queued => exact hfr.queued
  case queue_lt => exact hfr.queue_lt
  case swapped =>
    intro pid vpn x e hp hs
    rw [ht.sfBM]
    rcases ht.page_cases hp with ⟨-, -, -, -, hloc⟩ | ⟨-, hp'⟩
    · exact ⟨loc, ht.slot_lt, hloc, BitMap.mark_self _ _⟩
    · obtain ⟨slot, hlt, hloc, hset⟩ := h.swapped hp' hs
      refine ⟨slot, hlt, hloc, ?_⟩
      rw [BitMap.mark_of_ne]
      · exact hset
      · rintro rfl
        exact h.slot_ne ht.slot_free hp' hs hloc
  case swap_inj =>
    intro pid vpn x e pid' vpn' x' e' hp hp' hs hs' heq
    rcases ht.page_cases hp with ⟨rfl, rfl, -, -, hloc⟩ | ⟨-, hq⟩ <;>
      rcases ht.page_cases hp' with ⟨rfl, rfl, -, -, hloc'⟩ | ⟨-, hq'⟩
    · exact ⟨rfl, rfl⟩
    · exact absurd (heq.trans hloc) (h.slot_ne ht.slot_free hq' hs')
    · exact absurd (heq.symm.trans hloc') (h.slot_ne ht.slot_free hq hs)
    · exact h.swap_inj hq hq' hs hs' heq
  case located =>
    intro pid vpn x e hp hst
    rcases ht.page_cases hp with ⟨-, -, -, hswap, -⟩ | ⟨-, hp'⟩
    · exact absurd hswap hst
    · exact h.located hp' hst
  case tlb =>
    intro pid tid i hcur hi hv
    rw [ht.current] at hcur
    rw [ht.tlb, invalidateFrame] at hv ⊢
    split at hv
    · cases hv
    · rename_i hne
      rw [if_neg hne]
      obtain ⟨x, e, hp, hev, heq⟩ := h.tlb hcur hi hv
      refine ⟨x, e, h.frames.evicted_forth hphy hbm ht hp ?_, hev, heq⟩
      rw [heq]
      intro hphy'
      exact hne ⟨Nat.le_of_lt hi, hphy'⟩
  case code_fits => exact hfr.code_fits
  case table_size => exact hfr.table_size
  case table_free => exact hfr.table_free
  case boxes => exact hfr.boxes

/-- **Filling the hole** restores the invariant. -/
theorem Inv.installed (h : Inv (some f) s) {pid : ℤ} {vpn : ℕ} {x : Executable} {e : PageEntry}
    {contents : Page} (hpage : s.page pid vpn = some (x, e)) (hv : e.valid = false)
    (ht : Installed s pid vpn f x e contents t) : Inv none t := by
  obtain ⟨hf, hbm, -⟩ := h.hole_zero rfl
  have hfr := h.frames.installed hpage hv ht
  constructor
  case resident => exact hfr.resident
  case mapped =>
    intro g pid' vpn' hg _ hmaps
    rw [ht.ipt] at hmaps
    by_cases hgf : g = f
    · subst hgf
      rw [Function.update_self] at hmaps
      obtain rfl := hmaps.pid_eq
      obtain rfl := hmaps.vpn_eq
      refine ⟨x, { e with physicalPage := g, valid := true }, ?_, rfl, rfl⟩
      rw [ht.page, if_pos ⟨rfl, rfl⟩]
    · rw [Function.update_of_ne hgf] at hmaps
      obtain ⟨x', e', hp, hv', heq⟩ := h.mapped hg (ne_hole.mpr hgf) hmaps
      exact ⟨x', e', ht.page_forth hpage hv hp hv', hv', heq⟩
  case occupied =>
    intro g hg hb _
    rw [ht.ipt]
    rw [ht.bm] at hb
    by_cases hgf : g = f
    · subst hgf
      rw [Function.update_self]
    · rw [Function.update_of_ne hgf]
      exact h.occupied hg hb (ne_hole.mpr hgf)
  case free_zero =>
    intro g hg hb
    rw [ht.bm] at hb
    rw [ht.mainMemory, Function.update_of_ne ?_]
    · exact h.free_zero hg hb
    · rintro rfl
      rw [hbm] at hb
      cases hb
  case hole_zero =>
    rintro g ⟨⟩
  case queued => exact hfr.queued
  case queue_lt => exact hfr.queue_lt
  case swapped =>
    intro pid' vpn' x' e' hp hs
    obtain ⟨hne, hp'⟩ := ht.swapped_back hp hs
    obtain ⟨slot, hlt, hloc, hset⟩ := h.swapped hp' hs
    refine ⟨slot, hlt, hloc, ?_⟩
    rw [ht.sfBM]
    split
    · rename_i hst
      rw [BitMap.clear_of_ne]
      · exact hset
      · rintro rfl
        obtain ⟨slot, -, hloc', -⟩ := h.swapped hpage ⟨hv, hst⟩
        rw [hloc', Nat.mul_div_cancel _ (by decide)] at hloc
        exact hne (h.swap_inj hpage hp' ⟨hv, hst⟩ hs (hloc.trans hloc'.symm))
    · exact hset
  case swap_inj =>
    intro pid₁ vpn₁ x₁ e₁ pid₂ vpn₂ x₂ e₂ hp₁ hp₂ hs₁ hs₂ heq
    exact h.swap_inj (ht.swapped_back hp₁ hs₁).2 (ht.swapped_back hp₂ hs₂).2 hs₁ hs₂ heq
  case located =>
    intro pid' vpn' x' e' hp hst
    rcases ht.page_cases hp with ⟨rfl, rfl, rfl, rfl⟩ | ⟨-, hp'⟩
    · -- neither the status nor the location has changed
      have hloc := h.located hpage hst
      exact hloc
    · exact h.located hp' hst
  case tlb =>
    intro pid' tid i hcur hi hv'
    rw [ht.current] at hcur
    rw [ht.tlb] at hv' ⊢
    obtain ⟨x', e', hp, hev, heq⟩ := h.tlb hcur hi hv'
    exact ⟨x', e', ht.page_forth hpage hv hp hev, hev, heq⟩
  case code_fits => exact hfr.code_fits
  case table_size => exact hfr.table_size
  case table_free => exact hfr.table_free
  case boxes => exact hfr.boxes

end Hole

/-- **Taking a frame**, with or without an eviction. -/
theorem Inv.findFrame {s t : Vm} (hinv : Inv none s) {rand f : ℕ}
    (h : findFrame s rand = some (t, f)) : Inv (some f) t := by
  rcases findFrame_cases hinv.frames h with ⟨hfind, rfl⟩ | ⟨hf, hfull, loc, hev⟩
  · exact hinv.mark hfind
  · exact hinv.evicted hf hfull hev

end Nachos.VM
