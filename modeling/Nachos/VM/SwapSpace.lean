import Mathlib
import Nachos.VM.Runs

/-!
# Swap space

A slot of the swap file is taken when a page is evicted into it and given back
when the page is brought in again. In between the page's entry holds the number
of the slot, and the bit map of the file says that it is taken. The two agree as
long as exits do not come in between: the last thread of a process takes the
entries of swapped pages along without giving their slots back, and another
thread leaves entries behind that look swapped when its stack was in memory but
had been in the swap file before.
-/

namespace Nachos.VM

open Nachos.Userprog Nachos.Lib

/-! ## Accounts -/

/-- Process `pid` is live and its page `vpn` waits in slot `k`. -/
def Vm.SwappedAt (s : Vm) (pid : ℤ) (vpn k : ℕ) : Prop :=
  ∃ p, s.processTable.get pid = some p ∧ vpn < p.space.numPages ∧
    (p.space.pageTable vpn).valid = false ∧ (p.space.pageTable vpn).status = .swapFile ∧
    (p.space.pageTable vpn).diskLocation = k * pageSize

/-- **The swap space is accounted for**: a slot is taken exactly when one page
waits in it, and no two pages wait in the same slot. -/
structure SwapAccounted (s : Vm) : Prop where
  taken_iff : ∀ k, s.sfBM k = true ↔ ∃! page : ℤ × ℕ, s.SwappedAt page.1 page.2 k
  unshared : ∀ {k pid vpn pid' vpn'}, s.SwappedAt pid vpn k → s.SwappedAt pid' vpn' k →
    pid' = pid ∧ vpn' = vpn

section Accounts

variable {s t : Vm} {pid : ℤ} {vpn k : ℕ}

theorem swappedAt_iff_page : s.SwappedAt pid vpn k ↔
    ∃ x e, s.page pid vpn = some (x, e) ∧ e.Swapped ∧ e.diskLocation = k * pageSize := by
  constructor
  · rintro ⟨p, hp, hlt, hv, hst, hloc⟩
    refine ⟨p.space.exec, p.space.pageTable vpn, ?_, ⟨hv, hst⟩, hloc⟩
    rw [page_of_get hp, if_pos hlt]
  · rintro ⟨x, e, hpage, ⟨hv, hst⟩, hloc⟩
    obtain ⟨p, hp, hlt, -, rfl⟩ := get_of_page hpage
    exact ⟨p, hp, hlt, hv, hst, hloc⟩

/-- With no slot shared, a slot is taken when any page waits in it. -/
theorem SwapAccounted.of_used (hused : ∀ k, s.sfBM k = true ↔ ∃ pid vpn, s.SwappedAt pid vpn k)
    (hun : ∀ {k pid vpn pid' vpn'}, s.SwappedAt pid vpn k → s.SwappedAt pid' vpn' k →
      pid' = pid ∧ vpn' = vpn) : SwapAccounted s := by
  refine ⟨?_, hun⟩
  intro k
  rw [hused]
  constructor
  · rintro ⟨pid, vpn, h⟩
    refine ⟨(pid, vpn), h, ?_⟩
    rintro ⟨pid', vpn'⟩ h'
    obtain ⟨rfl, rfl⟩ := hun h h'
    rfl
  · rintro ⟨⟨pid, vpn⟩, h, -⟩
    exact ⟨pid, vpn, h⟩

theorem SwapAccounted.used (h : SwapAccounted s) :
    s.sfBM k = true ↔ ∃ pid vpn, s.SwappedAt pid vpn k := by
  rw [h.taken_iff]
  constructor
  · rintro ⟨⟨pid, vpn⟩, hat, -⟩
    exact ⟨pid, vpn, hat⟩
  · rintro ⟨pid, vpn, hat⟩
    refine ⟨(pid, vpn), hat, ?_⟩
    rintro ⟨pid', vpn'⟩ hat'
    obtain ⟨rfl, rfl⟩ := h.unshared hat hat'
    rfl

/-- What moves no page to or from the swap file keeps the accounts. -/
theorem SwapAccounted.congr (h : SwapAccounted s)
    (hat : ∀ {pid vpn k}, t.SwappedAt pid vpn k ↔ s.SwappedAt pid vpn k)
    (hsf : t.sfBM = s.sfBM) : SwapAccounted t := by
  refine .of_used ?_ ?_
  · intro k
    rw [hsf, h.used]
    simp only [hat]
  · intro k pid vpn pid' vpn' h₁ h₂
    exact h.unshared (hat.mp h₁) (hat.mp h₂)

theorem swappedAt_congr (h : t.page pid vpn = s.page pid vpn) :
    t.SwappedAt pid vpn k ↔ s.SwappedAt pid vpn k := by
  rw [swappedAt_iff_page, swappedAt_iff_page, h]

end Accounts

/-! ## Faults -/

section Faults

variable {s t : Vm} {f : ℕ}

/-- A victim goes to the slot that is marked for it. -/
theorem swappedAt_evicted {loc : ℕ} (hfr : Frames none s) (hf : f < numPhysPages)
    (hbm : s.bm f = true) (hev : Evicted s f loc t) {pid : ℤ} {vpn k : ℕ} :
    t.SwappedAt pid vpn k ↔ s.SwappedAt pid vpn k ∨
      pid = (s.ipt f).pid ∧ vpn = (s.ipt f).virtualPage ∧ k = loc := by
  obtain ⟨xv, ev, hvictim, hvalid, -⟩ := hfr.occupied hf hbm (by simp)
  rw [swappedAt_iff_page, swappedAt_iff_page]
  constructor
  · rintro ⟨x, e, hp, hs, hloc⟩
    rcases hev.page_cases hp with ⟨hpid, hvpn, -, -, hloc'⟩ | ⟨-, hp'⟩
    · exact .inr ⟨hpid, hvpn, Nat.eq_of_mul_eq_mul_right (by decide) (hloc.symm.trans hloc')⟩
    · exact .inl ⟨x, e, hp', hs, hloc⟩
  · rintro (⟨x, e, hp, hs, hloc⟩ | ⟨rfl, rfl, rfl⟩)
    · refine ⟨x, e, ?_, hs, hloc⟩
      rw [hev.page, if_neg ?_]
      · exact hp
      · -- the victim is in memory, so it is not the page that waits
        rintro ⟨rfl, rfl⟩
        rw [hvictim] at hp
        simp only [Option.some.injEq, Prod.mk.injEq] at hp
        rw [hp.2, hs.1] at hvalid
        cases hvalid
    · refine ⟨xv, { ev with status := .swapFile, diskLocation := k * pageSize, valid := false },
        ?_, ⟨rfl, rfl⟩, rfl⟩
      rw [hev.page, if_pos ⟨rfl, rfl⟩, hvictim]
      rfl

theorem SwapAccounted.evicted {loc : ℕ} (h : SwapAccounted s) (hfr : Frames none s)
    (hf : f < numPhysPages) (hbm : s.bm f = true) (hev : Evicted s f loc t) : SwapAccounted t := by
  have hat := @swappedAt_evicted s t f loc hfr hf hbm hev
  -- nothing waited in the slot before
  have hfree : ∀ {pid vpn}, ¬ s.SwappedAt pid vpn loc := by
    intro pid vpn hs
    have htaken := h.used.mpr ⟨pid, vpn, hs⟩
    rw [hev.slot_free] at htaken
    cases htaken
  refine .of_used ?_ ?_
  · intro k
    rw [hev.sfBM]
    by_cases hk : k = loc
    · subst hk
      rw [BitMap.mark_self]
      exact iff_of_true rfl ⟨_, _, hat.mpr (.inr ⟨rfl, rfl, rfl⟩)⟩
    · rw [BitMap.mark_of_ne _ hk, h.used]
      simp only [hat, hk, and_false, or_false]
  · intro k pid vpn pid' vpn' h₁ h₂
    rcases hat.mp h₁ with hs₁ | ⟨rfl, rfl, rfl⟩ <;> rcases hat.mp h₂ with hs₂ | ⟨rfl, rfl, hk⟩
    · exact h.unshared hs₁ hs₂
    · exact absurd (hk ▸ hs₁) hfree
    · exact absurd hs₂ hfree
    · exact ⟨rfl, rfl⟩

/-- A page that is brought in waits no longer. -/
theorem swappedAt_installed {pid₀ : ℤ} {vpn₀ : ℕ} {x : Executable} {e : PageEntry}
    {contents : Page} (hins : Installed s pid₀ vpn₀ f x e contents t) {pid : ℤ} {vpn k : ℕ} :
    t.SwappedAt pid vpn k ↔ s.SwappedAt pid vpn k ∧ ¬ (pid = pid₀ ∧ vpn = vpn₀) := by
  rw [swappedAt_iff_page, swappedAt_iff_page]
  constructor
  · rintro ⟨x', e', hp, hs, hloc⟩
    obtain ⟨hne, hp'⟩ := hins.swapped_back hp hs
    exact ⟨⟨x', e', hp', hs, hloc⟩, hne⟩
  · rintro ⟨⟨x', e', hp, hs, hloc⟩, hne⟩
    refine ⟨x', e', ?_, hs, hloc⟩
    rw [hins.page, if_neg hne]
    exact hp

theorem SwapAccounted.installed {pid₀ : ℤ} {vpn₀ : ℕ} {x : Executable} {e : PageEntry}
    {contents : Page} (h : SwapAccounted s) (hp : s.page pid₀ vpn₀ = some (x, e))
    (hv : e.valid = false)
    (hslot : e.status = .swapFile → ∃ k < swapFileMaxPages, e.diskLocation = k * pageSize)
    (hins : Installed s pid₀ vpn₀ f x e contents t) : SwapAccounted t := by
  have hat := @swappedAt_installed s t f pid₀ vpn₀ x e contents hins
  refine .of_used ?_ ?_
  · intro k
    rw [hins.sfBM]
    split
    · rename_i hst
      obtain ⟨k₀, -, hk₀⟩ := hslot hst
      have hwas : s.SwappedAt pid₀ vpn₀ k₀ := swappedAt_iff_page.mpr ⟨x, e, hp, ⟨hv, hst⟩, hk₀⟩
      rw [hk₀, Nat.mul_div_cancel _ (by decide)]
      by_cases hk : k = k₀
      · -- the slot was this page's alone
        subst hk
        rw [BitMap.clear_self]
        refine iff_of_false (by simp) ?_
        rintro ⟨pid, vpn, hs⟩
        obtain ⟨hs', hne⟩ := hat.mp hs
        exact hne (h.unshared hwas hs')
      · rw [BitMap.clear_of_ne _ hk, h.used]
        refine exists_congr fun pid => exists_congr fun vpn => ?_
        rw [hat, iff_self_and]
        rintro ⟨p, hget, -, -, -, hloc⟩ ⟨rfl, rfl⟩
        obtain ⟨q, hq, -, -, -, hloc'⟩ := hwas
        obtain rfl : p = q := Option.some.inj (hget.symm.trans hq)
        exact hk (Nat.eq_of_mul_eq_mul_right (by decide) (hloc.symm.trans hloc'))
    · rename_i hst
      rw [h.used]
      refine exists_congr fun pid => exists_congr fun vpn => ?_
      rw [hat, iff_self_and]
      rintro hs ⟨rfl, rfl⟩
      obtain ⟨x', e', hp', hs', -⟩ := swappedAt_iff_page.mp hs
      rw [hp] at hp'
      simp only [Option.some.injEq, Prod.mk.injEq] at hp'
      exact hst (hp'.2 ▸ hs'.2)
  · intro k pid vpn pid' vpn' h₁ h₂
    exact h.unshared (hat.mp h₁).1 (hat.mp h₂).1

end Faults

/-! ## Slots on record -/

/-- An entry that has been in the swap file holds the number of a slot. -/
def Vm.Slotted (s : Vm) : Prop :=
  ∀ pid vpn x e, s.page pid vpn = some (x, e) → e.status = .swapFile →
    ∃ k < swapFileMaxPages, e.diskLocation = k * pageSize

section Slotted

variable {s t : Vm}

theorem Vm.Slotted.evicted {f loc : ℕ} (h : s.Slotted) (hev : Evicted s f loc t) : t.Slotted := by
  intro pid vpn x e hp hst
  rcases hev.page_cases hp with ⟨-, -, -, -, hloc⟩ | ⟨-, hp'⟩
  · exact ⟨loc, hev.slot_lt, hloc⟩
  · exact h pid vpn x e hp' hst

theorem Vm.Slotted.installed {f : ℕ} {pid₀ : ℤ} {vpn₀ : ℕ} {x₀ : Executable} {e₀ : PageEntry}
    {contents : Page} (h : s.Slotted) (hp : s.page pid₀ vpn₀ = some (x₀, e₀))
    (hins : Installed s pid₀ vpn₀ f x₀ e₀ contents t) : t.Slotted := by
  intro pid vpn x e hpage hst
  rcases hins.page_cases hpage with ⟨-, -, -, rfl⟩ | ⟨-, hp'⟩
  · -- neither the status nor the location has changed
    have hold := h pid₀ vpn₀ x₀ e₀ hp hst
    exact hold
  · exact h pid vpn x e hp' hst

theorem Vm.Slotted.reshaped (h : s.Slotted) (ht : Reshaped s t) : t.Slotted := by
  intro pid vpn x e hp hst
  rcases ht.source hp with hp' | hun
  · exact h pid vpn x e hp' hst
  · exact absurd hst hun.not_swapped

theorem Vm.Slotted.released {pid : ℤ} {tid : ℕ} {p : Process} (h : s.Slotted)
    (hr : Released pid tid p s t) : t.Slotted := by
  intro pid' vpn x e hp hst
  by_cases hgone : pid' = pid ∧ p.GivesUp tid vpn
  · obtain ⟨rfl, hgone⟩ := hgone
    rw [hr.gone hgone] at hp
    split at hp
    · cases hp
    · obtain ⟨⟨x', e'⟩, hp', heq⟩ := Option.map_eq_some_iff.mp hp
      obtain ⟨rfl, rfl⟩ := Prod.mk.inj heq
      exact h pid' vpn x' e' hp' hst
  · rw [hr.kept hgone] at hp
    exact h pid' vpn x e hp hst

/-- Taking a frame, with the entry of the victim put on record. -/
theorem Vm.Slotted.findFrame {rand f : ℕ} (h : s.Slotted) (hfr : Frames none s)
    (hfind : findFrame s rand = some (t, f)) : t.Slotted := by
  rcases findFrame_cases hfr hfind with ⟨-, rfl⟩ | ⟨-, -, loc, hev⟩
  · exact h
  · exact h.evicted hev

theorem Vm.Slotted.served {pid : ℤ} {vpn : ℕ} {fs : List ℕ} (h : s.Slotted)
    (hs : Served pid vpn s fs t) : t.Slotted := by
  induction hs with
  | refl => exact h
  | hit ppn _ ih => exact ih
  | load _ hfr hfind hp _ hins ih => exact (ih.findFrame hfr hfind).installed hp hins

/-- **Faults keep the accounts.** -/
theorem SwapAccounted.served {pid : ℤ} {vpn : ℕ} {fs : List ℕ} (h : SwapAccounted s)
    (hslot : s.Slotted) (hs : Served pid vpn s fs t) : SwapAccounted t := by
  induction hs with
  | refl => exact h
  | hit ppn _ ih => exact ih.congr Iff.rfl rfl
  | @load fs t u v rand f x e contents hs hfr hfind hp hv hins ih =>
      have hu : SwapAccounted u := by
        rcases findFrame_cases hfr hfind with ⟨-, rfl⟩ | ⟨hf, hfull, loc, hev⟩
        · exact ih.congr Iff.rfl rfl
        · exact ih.evicted hfr hf (hfull f hf) hev
      exact hu.installed hp hv (((hslot.served hs).findFrame hfr hfind) _ _ _ _ hp) hins

theorem SwapAccounted.extended (h : SwapAccounted s) (ht : Extended s t) : SwapAccounted t := by
  refine h.congr ?_ ht.sfBM
  intro pid vpn k
  rw [swappedAt_iff_page, swappedAt_iff_page]
  constructor
  · rintro ⟨x, e, hp, hs, hloc⟩
    refine ⟨x, e, (ht.source hp).resolve_right ?_, hs, hloc⟩
    intro hun
    exact hun.not_swapped hs.2
  · rintro ⟨x, e, hp, hs, hloc⟩
    exact ⟨x, e, ht.persists hp, hs, hloc⟩

end Slotted

/-! ## Exits -/

/-- The exit of thread `tid` moves no page to or from the swap file: what goes with
the last thread is not there, and a stack that is given up while in memory has
never been there. -/
def ExitKeepsSlots (p : Process) (tid : ℕ) : Prop :=
  ∀ vpn < p.space.numPages, p.GivesUp tid vpn → (p.space.pageTable vpn).status = .swapFile →
    if p.childThreadCounter - 1 = 0 then (p.space.pageTable vpn).valid = true
    else (p.space.pageTable vpn).valid = false

instance (p : Process) (tid : ℕ) : Decidable (ExitKeepsSlots p tid) :=
  inferInstanceAs (Decidable (∀ vpn < p.space.numPages, _))

def keepsSlots : List Event → Vm → Label → Prop := fun _ s l =>
  l.isExit = true → ∀ c ∈ s.current, ∀ p ∈ s.processTable.get c.1, ExitKeepsSlots p c.2

instance (tr : List Event) (s : Vm) (l : Label) : Decidable (keepsSlots tr s l) :=
  inferInstanceAs (Decidable (_ → ∀ c ∈ s.current, _))

section Exits

variable {s t : Vm} {pid : ℤ} {tid : ℕ} {p : Process}

/-- The entry of a page that a process gives up. -/
theorem exitKeepsSlots_iff (hp : s.processTable.get pid = some p) : ExitKeepsSlots p tid ↔
    ∀ vpn x e, s.page pid vpn = some (x, e) → p.GivesUp tid vpn → e.status = .swapFile →
      if p.childThreadCounter - 1 = 0 then e.valid = true else e.valid = false := by
  constructor
  · intro h vpn x e hpage hgone hst
    obtain ⟨q, hq, hlt, -, rfl⟩ := get_of_page hpage
    obtain rfl : p = q := Option.some.inj (hp.symm.trans hq)
    exact h vpn hlt hgone hst
  · intro h vpn hlt hgone hst
    refine h vpn p.space.exec _ ?_ hgone hst
    rw [page_of_get hp, if_pos hlt]

/-- **An exit that moves no page** to or from the swap file keeps the accounts. -/
theorem SwapAccounted.released (h : SwapAccounted s) (hp : s.processTable.get pid = some p)
    (hkeep : ExitKeepsSlots p tid) (hr : Released pid tid p s t) : SwapAccounted t := by
  rw [exitKeepsSlots_iff hp] at hkeep
  refine h.congr ?_ hr.sfBM
  intro pid' vpn k
  by_cases hgone : pid' = pid ∧ p.GivesUp tid vpn
  · obtain ⟨rfl, hgone⟩ := hgone
    rw [swappedAt_iff_page, swappedAt_iff_page, hr.gone hgone]
    by_cases hlast : p.childThreadCounter - 1 = 0
    · rw [if_pos hlast]
      refine iff_of_false (by simp) ?_
      rintro ⟨x, e, hpage, ⟨hv, hst⟩, -⟩
      have hvalid := hkeep vpn x e hpage hgone hst
      rw [if_pos hlast, hv] at hvalid
      cases hvalid
    · rw [if_neg hlast]
      constructor
      · rintro ⟨x, e, hpage, ⟨-, hst⟩, hloc⟩
        obtain ⟨⟨x', e'⟩, hpage', heq⟩ := Option.map_eq_some_iff.mp hpage
        obtain ⟨rfl, rfl⟩ := Prod.mk.inj heq
        have hv := hkeep vpn x' e' hpage' hgone hst
        rw [if_neg hlast] at hv
        exact ⟨x', e', hpage', ⟨hv, hst⟩, hloc⟩
      · rintro ⟨x, e, hpage, ⟨hv, hst⟩, hloc⟩
        refine ⟨x, { e with valid := false }, ?_, ⟨rfl, hst⟩, hloc⟩
        rw [hpage]
        rfl
  · exact swappedAt_congr (hr.kept hgone)

/-- **An exit that moves a page** breaks them. The slot of a page that goes with its
process stays taken; a page that comes to look swapped has no slot of its own. -/
theorem ExitKeepsSlots.of_accounted (h : SwapAccounted s) (hslot : s.Slotted)
    (hp : s.processTable.get pid = some p) (hr : Released pid tid p s t) (ht : SwapAccounted t) :
    ExitKeepsSlots p tid := by
  rw [exitKeepsSlots_iff hp]
  intro vpn x e hpage hgone hst
  obtain ⟨k, -, hloc⟩ := hslot pid vpn x e hpage hst
  have hlastPage : ∀ pid' vpn', t.SwappedAt pid' vpn' k → p.childThreadCounter - 1 = 0 →
      ¬ (pid' = pid ∧ p.GivesUp tid vpn') := by
    rintro pid' vpn' hs hlast ⟨rfl, hgone'⟩
    obtain ⟨x', e', hpage', -⟩ := swappedAt_iff_page.mp hs
    rw [hr.gone hgone', if_pos hlast] at hpage'
    cases hpage'
  split
  · rename_i hlast
    by_contra hv
    have hwas : s.SwappedAt pid vpn k :=
      swappedAt_iff_page.mpr ⟨x, e, hpage, ⟨by simpa using hv, hst⟩, hloc⟩
    have htaken := h.used.mpr ⟨pid, vpn, hwas⟩
    rw [← hr.sfBM] at htaken
    obtain ⟨pid', vpn', hs⟩ := ht.used.mp htaken
    have hkept := hlastPage pid' vpn' hs hlast
    obtain ⟨rfl, rfl⟩ := h.unshared hwas ((swappedAt_congr (hr.kept hkept)).mp hs)
    exact hkept ⟨rfl, hgone⟩
  · rename_i hmore
    by_contra hv
    have hnow : t.SwappedAt pid vpn k := by
      refine swappedAt_iff_page.mpr ⟨x, { e with valid := false }, ?_, ⟨rfl, hst⟩, hloc⟩
      rw [hr.gone hgone, if_neg hmore, hpage]
      rfl
    have htaken := ht.used.mpr ⟨pid, vpn, hnow⟩
    rw [hr.sfBM] at htaken
    -- another page had the slot, and it still has
    obtain ⟨pid', vpn', hs⟩ := h.used.mp htaken
    obtain ⟨x', e', hpage', hs', hloc'⟩ := swappedAt_iff_page.mp hs
    have hstill : t.SwappedAt pid' vpn' k := by
      by_cases hgone' : pid' = pid ∧ p.GivesUp tid vpn'
      · obtain ⟨rfl, hgone'⟩ := hgone'
        refine swappedAt_iff_page.mpr ⟨x', { e' with valid := false }, ?_, ⟨rfl, hs'.2⟩, hloc'⟩
        rw [hr.gone hgone', if_neg hmore, hpage']
        rfl
      · exact (swappedAt_congr (hr.kept hgone')).mpr hs
    obtain ⟨rfl, rfl⟩ := ht.unshared hnow hstill
    rw [hpage] at hpage'
    simp only [Option.some.injEq, Prod.mk.injEq] at hpage'
    rw [hpage'.2, hs'.1] at hv
    exact hv rfl

end Exits

/-! ## Runs -/

/-- What a run of steps that keep slots is known to satisfy. -/
structure Swapping (s : Vm) : Prop extends Sound s where
  slotted : s.Slotted
  accounted : SwapAccounted s

section Steps

variable {s t : Vm} {l : Label} {ev : Event}

theorem Vm.Slotted.step (h : s.Slotted) (hsound : Sound s) (hs : VM.step s l = some (t, ev)) :
    t.Slotted := by
  have hfr := hsound.frames
  cases Step.of_step hs with
  | exec _ hx => exact h.reshaped (extended_exec hfr hx).toReshaped
  | fork _ hf => exact h.reshaped (extended_fork hfr hf).toReshaped
  | start hk => exact h.reshaped (extended_start hfr hk).toReshaped
  | run hr => exact h.reshaped (extended_run hfr hr).toReshaped
  | read _ ha => exact h.served (served_access hfr ha)
  | write _ ha =>
      have hserved := h.served (served_access hfr ha)
      exact hserved
  | exit _ he =>
      obtain ⟨p, -, hr⟩ := released_exit hsound.fits he
      exact h.released hr

theorem SwapAccounted.step {tr : List Event} (h : Swapping s) (hok : keepsSlots tr s l)
    (hs : VM.step s l = some (t, ev)) : SwapAccounted t := by
  have hfr := h.frames
  cases Step.of_step hs with
  | exec _ hx => exact h.accounted.extended (extended_exec hfr hx)
  | fork _ hf => exact h.accounted.extended (extended_fork hfr hf)
  | start hk => exact h.accounted.extended (extended_start hfr hk)
  | run hr => exact h.accounted.extended (extended_run hfr hr)
  | read _ ha => exact h.accounted.served h.slotted (served_access hfr ha)
  | write _ ha =>
      have hserved := h.accounted.served h.slotted (served_access hfr ha)
      exact hserved.congr Iff.rfl rfl
  | exit hcur he =>
      obtain ⟨p, hp, hr⟩ := released_exit h.fits he
      exact h.accounted.released hp (hok rfl _ hcur _ hp) hr

theorem Swapping.step {tr : List Event} (h : Swapping s) (hok : keepsSlots tr s l)
    (hs : VM.step s l = some (t, ev)) : Swapping t :=
  ⟨h.toSound.step hs, h.slotted.step h.toSound hs, .step h hok hs⟩

end Steps

theorem Swapping.boot (policy : Policy) (tlb : ℕ → TranslationEntry) (ipt : ℕ → IptEntry)
    (swapFile : ℕ → Page) (x : Executable) : Swapping (boot policy tlb ipt swapFile x) := by
  have hat : ∀ {pid vpn k}, ¬ (VM.boot policy tlb ipt swapFile x).SwappedAt pid vpn k := by
    intro pid vpn k hs
    obtain ⟨x', e, hp, hs', -⟩ := swappedAt_iff_page.mp hs
    exact (boot_page hp).not_swapped hs'.2
  refine ⟨.boot .., ?_, .of_used ?_ ?_⟩
  · intro pid vpn x' e hp hst
    exact absurd hst (boot_page hp).not_swapped
  · intro k
    refine iff_of_false (by simp [VM.boot]) ?_
    rintro ⟨pid, vpn, hs⟩
    exact hat hs
  · intro k pid vpn pid' vpn' hs
    exact absurd hs hat

theorem Swapping.of_run {policy : Policy} {tlb : ℕ → TranslationEntry} {ipt : ℕ → IptEntry}
    {swapFile : ℕ → Page} {x₀ : Executable} {tr : List Event} {s : Vm}
    (h : Run VM.step keepsSlots (VM.boot policy tlb ipt swapFile x₀) tr s) : Swapping s := by
  refine h.invariant (I := fun _ s => Swapping s) (.boot ..) ?_
  intro tr s l t ev hi hok hs
  exact hi.step hok hs

/-- A program of 4097 pages of uninitialised data. -/
def largeProgram : Executable := bssOnly (4097 * pageSize)

def bootLarge : Vm :=
  boot .fifo (fun _ => ⟨0, 0, false, false⟩) (fun _ => ⟨0, 0, false, false⟩) (fun _ => zeroPage)
    largeProgram

/-- The page has been in memory. -/
def PageEntry.Touched (e : PageEntry) : Prop := e.valid = true ∨ e.status = .swapFile

section Touched

variable {s t : Vm} {pid pid' : ℤ} {vpn vpn' : ℕ} {fs : List ℕ} {x : Executable} {e : PageEntry}

theorem Evicted.touched_back {f loc : ℕ} (hev : Evicted s f loc t) (hfr : Frames none s)
    (hf : f < numPhysPages) (hbm : s.bm f = true) (hp : t.page pid vpn = some (x, e))
    (ht : e.Touched) : ∃ x' e', s.page pid vpn = some (x', e') ∧ e'.Touched := by
  rcases hev.page_cases hp with ⟨rfl, rfl, -⟩ | ⟨-, hp'⟩
  · obtain ⟨xv, ev, hvictim, hvalid, -⟩ := hfr.occupied hf hbm (by simp)
    exact ⟨xv, ev, hvictim, .inl hvalid⟩
  · exact ⟨x, e, hp', ht⟩

/-- A page that has been in memory was before, but for the one accessed. -/
theorem Served.touched_back (h : Served pid vpn s fs t) (hp : t.page pid' vpn' = some (x, e))
    (ht : e.Touched) : (pid' = pid ∧ vpn' = vpn) ∨
      ∃ x' e', s.page pid' vpn' = some (x', e') ∧ e'.Touched := by
  induction h generalizing x e with
  | refl => exact .inr ⟨x, e, hp, ht⟩
  | hit ppn _ ih => exact ih hp ht
  | load _ hfr hfind _ _ hins ih =>
      rcases hins.page_cases hp with ⟨rfl, rfl, -⟩ | ⟨-, hu⟩
      · exact .inl ⟨rfl, rfl⟩
      · rcases findFrame_cases hfr hfind with ⟨-, rfl⟩ | ⟨hf, hfull, loc, hev⟩
        · exact ih hu ht
        · obtain ⟨x', e', hp', ht'⟩ := hev.touched_back hfr hf (hfull _ hf) hu ht
          exact ih hp' ht'

/-- A page that has been in memory stays there or goes to the swap file. -/
theorem Served.touched_forth (h : Served pid vpn s fs t) (hp : s.page pid' vpn' = some (x, e))
    (ht : e.Touched) : ∃ x' e', t.page pid' vpn' = some (x', e') ∧ e'.Touched := by
  induction h with
  | refl => exact ⟨x, e, hp, ht⟩
  | hit ppn _ ih => exact ih
  | @load _ t u v _ f x₀ e₀ _ _ hfr hfind _ _ hins ih =>
      obtain ⟨x', e', hp', ht'⟩ := ih
      have hu : ∃ x' e', u.page pid' vpn' = some (x', e') ∧ e'.Touched := by
        rcases findFrame_cases hfr hfind with ⟨-, rfl⟩ | ⟨hf, hfull, loc, hev⟩
        · exact ⟨x', e', hp', ht'⟩
        · rw [hev.page]
          split
          · rw [hp']
            exact ⟨x', _, rfl, .inr rfl⟩
          · exact ⟨x', e', hp', ht'⟩
      rw [hins.page]
      split
      · exact ⟨x₀, _, rfl, .inl rfl⟩
      · exact hu

end Touched

/-- The process has read its first `n` pages, one by one. -/
structure Filling (n : ℕ) (s : Vm) : Prop extends Swapping s where
  inv : Inv none s
  current : s.current = some (0, 0)
  outline : s.outline = bootLarge.outline
  threadsLeft : s.threadsLeft = bootLarge.threadsLeft
  read : ∀ vpn < n, ∃ x e, s.page 0 vpn = some (x, e) ∧ e.Touched
  only : ∀ {pid vpn x e}, s.page pid vpn = some (x, e) → e.Touched → pid = 0 ∧ vpn < n
  counter : 0 ≤ s.tlbCounter ∧ s.tlbCounter ≤ maxTries * n

namespace Filling

variable {n : ℕ} {s : Vm}

theorem numPages (h : Filling n s) : ∃ p, s.processTable.get 0 = some p ∧
    p.space.numPages = 4105 ∧ p.childThreadCounter = 1 := by
  obtain ⟨hsome, -⟩ := boot_cases .fifo (fun _ => ⟨0, 0, false, false⟩)
    (fun _ => ⟨0, 0, false, false⟩) (fun _ => zeroPage) largeProgram
  obtain ⟨p, hp, -, hn, -⟩ := get_of_outline h.outline.symm hsome
  refine ⟨p, hp, hn.trans (by decide), ?_⟩
  have hleft := congrFun h.threadsLeft 0
  rw [Vm.threadsLeft, Vm.threadsLeft, hp, show bootLarge.processTable.get 0 = _ from hsome] at hleft
  exact Option.some.inj hleft

/-- As long as no more pages than frames have been read, there is room: otherwise
every slot would have a page of its own and every frame one more. -/
theorem room (h : Filling n s) (hn : n ≤ 4096) : Room s := by
  by_contra hroom
  obtain ⟨hbm, hsf⟩ := not_or.mp hroom
  have hfull := BitMap.find_none (not_not.mp hbm)
  have htaken := BitMap.find_none (not_not.mp hsf)
  have hzero : 0 < numPhysPages := lt_numPhysPages (by decide)
  obtain ⟨x₀, e₀, hp₀, hv₀, -⟩ := h.frames.occupied hzero (hfull 0 hzero) (by simp)
  obtain ⟨hpid, hlt⟩ := h.only hp₀ (.inl hv₀)
  rw [hpid] at hp₀
  have hwait : ∀ k, k < swapFileMaxPages → ∃ vpn, s.SwappedAt 0 vpn k ∧
      vpn ∈ (Finset.range n).erase (s.ipt 0).virtualPage := by
    intro k hk
    obtain ⟨pid, vpn, hs⟩ := h.accounted.used.mp (htaken k hk)
    obtain ⟨x, e, hp, hs', -⟩ := swappedAt_iff_page.mp hs
    obtain ⟨rfl, hvpn⟩ := h.only hp (.inr hs'.2)
    refine ⟨vpn, hs, Finset.mem_erase.mpr ⟨?_, Finset.mem_range.mpr hvpn⟩⟩
    rintro rfl
    rw [hp₀] at hp
    simp only [Option.some.injEq, Prod.mk.injEq] at hp
    rw [hp.2, hs'.1] at hv₀
    cases hv₀
  choose! w hw hmem using hwait
  have hinj : Set.InjOn w (Finset.range swapFileMaxPages) := by
    intro k hk k' hk' heq
    obtain ⟨p, hget, -, -, -, hloc⟩ := hw k (Finset.mem_range.mp hk)
    obtain ⟨p', hget', -, -, -, hloc'⟩ := hw k' (Finset.mem_range.mp hk')
    obtain rfl : p = p' := Option.some.inj (hget.symm.trans hget')
    rw [heq] at hloc
    exact Nat.eq_of_mul_eq_mul_right (by decide) (hloc.symm.trans hloc')
  have hcard := Finset.card_le_card_of_injOn w
    (fun k hk => hmem k (Finset.mem_range.mp hk)) hinj
  rw [Finset.card_range, Finset.card_erase_of_mem (Finset.mem_range.mpr hlt), Finset.card_range,
    swapFileMaxPages_eq] at hcard
  omega

/-- The next page is read. -/
theorem next (h : Filling n s) (hn : n ≤ 4096) :
    ∃ t ev, step s (.read (n * pageSize) 4 0) = some (t, ev) ∧ Filling (n + 1) t := by
  obtain ⟨p, hp, hpages, -⟩ := h.numPages
  have hvpn : n * pageSize / pageSize = n := Nat.mul_div_cancel _ (by decide)
  have hpage : s.page 0 (n * pageSize / pageSize) = some (p.space.exec, p.space.pageTable n) := by
    rw [hvpn, page_of_get hp, if_pos (by omega)]
  have hal : Aligned (n * pageSize) 4 := .inr (.inr ⟨rfl, by unfold pageSize; omega⟩)
  have hcounter := h.counter
  obtain ⟨t, frame, ha⟩ := access_isSome h.inv h.current hal hpage (h.room hn) hcounter.1 0
  have hs : step s (.read (n * pageSize) 4 0) =
      some (t, .read 0 (n * pageSize) (readBytes t frame (n * pageSize) 4)) := by
    simp only [step, h.current, ha, Option.map_some]
  obtain ⟨hf, -, x, e, hpt, hv, -⟩ := access_some h.inv h.current ha
  have hserved := served_access h.frames ha
  rw [hvpn] at hpt hserved
  obtain ⟨hout, hleft, -⟩ := hserved.outline
  refine ⟨t, _, hs, ⟨Swapping.step h.toSwapping (show keepsSlots [] s _ by rintro ⟨⟩) hs, hf.inv,
    hf.current.trans h.current, hout.trans h.outline, hleft.trans h.threadsLeft, ?_, ?_, ?_⟩⟩
  · intro vpn hlt
    rcases Nat.lt_succ_iff_lt_or_eq.mp hlt with hlt' | rfl
    · obtain ⟨x', e', hp', ht'⟩ := h.read vpn hlt'
      exact hserved.touched_forth hp' ht'
    · exact ⟨x, e, hpt, .inl hv⟩
  · intro pid vpn x' e' hp' ht'
    rcases hserved.touched_back hp' ht' with ⟨rfl, rfl⟩ | ⟨x'', e'', hp'', ht''⟩
    · exact ⟨rfl, Nat.lt_succ_self _⟩
    · obtain ⟨rfl, hlt⟩ := h.only hp'' ht''
      exact ⟨rfl, Nat.lt_succ_of_lt hlt⟩
  · unfold maxTries at hcounter ⊢
    have hmade := access_tlbCounter h.inv h.current (by unfold maxTries; omega) ha
    unfold maxTries at hmade
    push_cast
    omega

/-- More pages than frames have been read, so one of them is in the swap file. -/
theorem swapped (h : Filling 4097 s) : ∃ vpn x e, s.page 0 vpn = some (x, e) ∧ e.Swapped := by
  by_contra hnone
  have hvalid : ∀ vpn, vpn < 4097 → ∃ f, ∃ x e, s.page 0 vpn = some (x, e) ∧ e.valid = true ∧
      e.physicalPage = f := by
    intro vpn hlt
    obtain ⟨x, e, hp, ht⟩ := h.read vpn hlt
    refine ⟨_, x, e, hp, ?_, rfl⟩
    by_contra hv
    exact hnone ⟨vpn, x, e, hp, by simpa using hv, ht.resolve_left hv⟩
  choose! frame hframe using hvalid
  have hinj : Set.InjOn frame (Finset.range 4097) := by
    intro v hv v' hv' heq
    obtain ⟨x, e, hp, hvalid, hf⟩ := hframe v (Finset.mem_range.mp hv)
    obtain ⟨x', e', hp', hvalid', hf'⟩ := hframe v' (Finset.mem_range.mp hv')
    exact (h.frames.frame_inj hp' hp hvalid' hvalid (hf.trans (heq.trans hf'.symm))).2
  have hmaps : Set.MapsTo frame (Finset.range 4097) (Finset.range numPhysPages) := by
    intro v hv
    obtain ⟨x, e, hp, hvalid, hf⟩ := hframe v (Finset.mem_range.mp hv)
    rw [← hf]
    exact Finset.mem_coe.mpr (Finset.mem_range.mpr (h.frames.resident hp hvalid).1)
  have hcard := Finset.card_le_card_of_injOn frame hmaps hinj
  rw [Finset.card_range, Finset.card_range, numPhysPages_eq] at hcard
  omega

theorem boot : Filling 0 bootLarge := by
  have hswap : Swapping bootLarge := .boot ..
  refine ⟨hswap, .boot .., rfl, rfl, rfl, fun vpn hlt => absurd hlt (Nat.not_lt_zero vpn), ?_,
    Int.le_refl 0, Int.le_refl 0⟩
  intro pid vpn x e hp ht
  have hun := boot_page hp
  rcases ht with hv | hst
  · rw [hun.invalid] at hv
    cases hv
  · exact absurd hst hun.not_swapped

theorem run (n : ℕ) (hn : n ≤ 4097) : ∃ tr s, Run step keepsSlots bootLarge tr s ∧ Filling n s := by
  induction n with
  | zero => exact ⟨[], bootLarge, .start, boot⟩
  | succ n ih =>
      obtain ⟨tr, s, hrun, h⟩ := ih (by omega)
      obtain ⟨t, ev, hs, ht⟩ := h.next (by omega)
      exact ⟨tr ++ [ev], t, .snoc hrun (by rintro ⟨⟩) hs, ht⟩

end Filling

end Nachos.VM
