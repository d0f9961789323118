import Mathlib
import Nachos.Filesys.SynchDisk
import Nachos.Threads.Semaphores

/-!
# Each interrupt and its request

A thread awaits an interrupt from its request until it has passed `P`. The lock lets one thread at
a time do so; then the interrupts that are scheduled and the value of the semaphore add up to
one, and otherwise there is neither. So the interrupt that a thread waits for is that of its
own request, and who makes a request finds the disk idle.
-/

namespace Nachos.Filesys.SynchDisk

open Nachos.Lib Nachos.Threads Nachos.Threads.Kernel

variable {T S L C B : Type*}

/-! ## The interrupt of a request -/

/-- The thread has made a request and has not yet heard of its interrupt. -/
def DiskPoint.Awaits (pc : Pc T (DiskSemaphore S) (DiskLock L) C) : DiskPoint B → Prop
  | .requested _ _ => True
  | .waited _ _ => pc = .inP .done
  | _ => False

abbrev DiskSystem (T S L C B : Type*) :=
  System T (DiskSemaphore S) (DiskLock L) C (DiskPoint B) (DiskData B)

def Awaiting (s : DiskSystem T S L C B) (t : T) : Prop := (s.point t).Awaits (s.kernel.pc t)

/-- The interrupt is still to come, or it has come and the thread is still to pass `P`. -/
structure Paired (s : DiskSystem T S L C B) : Prop where
  active : s.data.active = true ↔ 0 < s.data.scheduled
  nonneg : 0 ≤ (s.kernel.semaphores .done).value
  only : ∀ t, s.kernel.pc t = .inP .done → ∃ request data, s.point t = .waited request data
  outside : ∀ t request data, s.point t = .requested request data → s.kernel.pc t = .outside
  awaited : ∀ t, Awaiting s t → (s.data.scheduled : ℤ) + (s.kernel.semaphores .done).value = 1
  quiet : (∀ t, ¬ Awaiting s t) →
    s.data.scheduled = 0 ∧ (s.kernel.semaphores .done).value = 0

section Pairing

variable {numSectors : ℕ} {s s' : DiskSystem T S L C B} {t : T} {d : DiskData B}
  {next : DiskPoint B} {op : DiskOp T S L C} {events : List (DiskEvent T B)}
  {k' : Kernel T (DiskSemaphore S) (DiskLock L) C}
  {effects : List (Effect T (DiskSemaphore S) (DiskLock L) C)}

/-- Only one thread at a time awaits an interrupt. -/
theorem Paired.owner (h : Paired s)
    (hlock : ∀ t, (s.point t).Locked → s.kernel.InLock t .disk) (ht : Awaiting s t) :
    (s.kernel.locks .disk).lockerOwner = some t := by
  have howner : ∀ {pc}, s.kernel.pc t = pc → pc = .outside ∨ pc = .inP .done →
      (s.point t).Locked → (s.kernel.locks .disk).lockerOwner = some t := by
    intro pc hpc hcase hpoint
    rcases hlock t hpoint with howner | hin | ⟨c, hin | hin⟩
    · exact howner
    all_goals
      rw [hin] at hpc
      subst hpc
      rcases hcase with hcase | hcase <;> cases hcase
  unfold Awaiting at ht
  cases hpoint : s.point t with
  | requested request data =>
      exact howner (h.outside t request data hpoint) (.inl rfl) (by rw [hpoint]; trivial)
  | waited request data =>
      rw [hpoint] at ht
      exact howner ht (.inr rfl) (by rw [hpoint]; trivial)
  | _ =>
      rw [hpoint] at ht
      exact ht.elim

/-- A thread that owns the lock and awaits nothing is with an idle disk. -/
theorem Paired.idle (h : Paired s) (hlock : ∀ t, (s.point t).Locked → s.kernel.InLock t .disk)
    (howner : (s.kernel.locks .disk).lockerOwner = some t) (ht : ¬ Awaiting s t) :
    s.data.scheduled = 0 ∧ (s.kernel.semaphores .done).value = 0 := by
  refine h.quiet fun u hu => ht ?_
  have hother := h.owner hlock hu
  rw [howner] at hother
  rwa [Option.some.inj hother]

/-- A thread whose place has not changed awaits what it did. -/
theorem awaiting_congr (hpoint : s'.point t = s.point t)
    (hpc : s'.kernel.pc t = .inP .done ↔ s.kernel.pc t = .inP .done) :
    Awaiting s' t ↔ Awaiting s t := by
  unfold Awaiting
  rw [hpoint]
  cases s.point t with
  | waited request data => exact hpc
  | _ => rfl

/-- Neither the disk nor its semaphore is concerned. -/
theorem Paired.frame (h : Paired s) (hdata : s'.data = s.data)
    (hsem : s'.kernel.semaphores .done = s.kernel.semaphores .done)
    (hawaiting : ∀ t, Awaiting s' t ↔ Awaiting s t)
    (honly : ∀ t, s'.kernel.pc t = .inP .done → ∃ request data, s'.point t = .waited request data)
    (houtside : ∀ t request data, s'.point t = .requested request data →
      s'.kernel.pc t = .outside) : Paired s' where
  active := by rw [hdata]; exact h.active
  nonneg := by rw [hsem]; exact h.nonneg
  only := honly
  outside := houtside
  awaited t ht := by
    rw [hdata, hsem]
    exact h.awaited t ((hawaiting t).mp ht)
  quiet hnone := by
    rw [hdata, hsem]
    exact h.quiet fun t ht => hnone t ((hawaiting t).mpr ht)

variable [DecidableEq T] [DecidableEq S] [DecidableEq L] [DecidableEq C]

omit [DecidableEq L] [DecidableEq C] in
/-- The thread that awaits the interrupt tests the semaphore. -/
theorem Paired.passes (h : Paired s)
    (hlock : ∀ t, (s.point t).Locked → s.kernel.InLock t .disk)
    (hcur : Awaiting s s.kernel.currentThread) (request : Request B) (data : B) :
    Paired (⟨(s.kernel.p .done).1,
      Function.update s.point s.kernel.currentThread (.waited request data), s.data⟩ :
        DiskSystem T S L C B) := by
  have hsum := h.awaited _ hcur
  have hnonneg := h.nonneg
  have hother : ∀ t, t ≠ s.kernel.currentThread → ¬ Awaiting s t := by
    intro t hne ht
    have howner := h.owner hlock ht
    rw [h.owner hlock hcur] at howner
    exact hne (Option.some.inj howner).symm
  have hpoint : ∀ {t}, t ≠ s.kernel.currentThread →
      Function.update s.point s.kernel.currentThread (.waited request data) t = s.point t :=
    fun hne => Function.update_of_ne hne ..
  have hself : Function.update s.point s.kernel.currentThread (.waited request data)
      s.kernel.currentThread = .waited request data := Function.update_self ..
  obtain ⟨hpc, hcase⟩ := p_cases s.kernel DiskSemaphore.done
  refine ⟨h.active, ?_, ?_, ?_, ?_, ?_⟩
  · show 0 ≤ ((s.kernel.p .done).1.semaphores .done).value
    rw [decrement_of_nonneg hnonneg] at hcase
    omega
  · intro t ht
    by_cases hne : t = s.kernel.currentThread
    · rw [hne]
      exact ⟨request, data, hself⟩
    · exact (h.only t ((hpc t hne).symm.trans ht)).imp fun _ => .imp fun _ hp =>
        (hpoint hne).trans hp
  · intro t r b hp
    have hne : t ≠ s.kernel.currentThread := by
      rintro rfl
      cases hself.symm.trans hp
    exact (hpc t hne).trans (h.outside t r b ((hpoint hne).symm.trans hp))
  · intro t ht
    show (s.data.scheduled : ℤ) + ((s.kernel.p .done).1.semaphores .done).value = 1
    by_cases hne : t = s.kernel.currentThread
    · subst hne
      have ht : (Function.update s.point s.kernel.currentThread _ _).Awaits
        ((s.kernel.p .done).1.pc s.kernel.currentThread) := ht
      rw [hself] at ht
      rcases hcase with ⟨-, -, hvalue⟩ | ⟨-, hleaving, -⟩
      · rwa [hvalue]
      · cases hleaving.symm.trans ht
    · refine absurd ((awaiting_congr (hpoint hne) ?_).mp ht) (hother t hne)
      show (s.kernel.p .done).1.pc t = _ ↔ _
      rw [hpc t hne]
  · intro hnone
    show s.data.scheduled = 0 ∧ ((s.kernel.p .done).1.semaphores .done).value = 0
    rw [decrement_of_nonneg hnonneg] at hcase
    rcases hcase with ⟨-, hsleeps, -⟩ | ⟨hne, -, hvalue⟩
    · refine absurd ?_ (hnone s.kernel.currentThread)
      show (Function.update s.point s.kernel.currentThread _ _).Awaits _
      rw [hself]
      exact hsleeps
    · omega

/-- A call that has nothing to do with the semaphore. -/
theorem Paired.calls_other (h : Paired s)
    (hstep : Threads.step s.kernel (.call op) = some (k', effects))
    (hp : op ≠ .p .done) (hv : op ≠ .v .done)
    (hbefore : ¬ (s.point s.kernel.currentThread).Awaits
      (.outside : Pc T (DiskSemaphore S) (DiskLock L) C))
    (hnext : ∀ pc : Pc T (DiskSemaphore S) (DiskLock L) C, ¬ next.Awaits pc) :
    Paired (⟨k', Function.update s.point s.kernel.currentThread next, s.data⟩ :
      DiskSystem T S L C B) := by
  obtain ⟨hcan, hk', -⟩ := Step.called_of_label hstep
  have hs := Step.of_step hstep
  have hinP : ∀ t, k'.pc t = .inP .done → s.kernel.pc t = .inP .done := by
    intro t ht
    refine (hs.of_inP ht).resolve_right fun hcalled => hp ?_
    exact Label.call.inj (Step.label_of_called hstep hcalled)
  have hcur : s.kernel.pc s.kernel.currentThread = .outside := hcan.2.1
  have hne : ∀ t, s.kernel.pc t = .inP .done → t ≠ s.kernel.currentThread := by
    rintro t ht rfl
    cases hcur.symm.trans ht
  have hself : Function.update s.point s.kernel.currentThread next s.kernel.currentThread = next :=
    Function.update_self ..
  have hpoint : ∀ {t}, t ≠ s.kernel.currentThread →
      Function.update s.point s.kernel.currentThread next t = s.point t :=
    fun hne => Function.update_of_ne hne ..
  refine h.frame rfl ?_ ?_ ?_ ?_
  · show k'.semaphores .done = s.kernel.semaphores .done
    rw [hk']
    exact Step.call_semaphores hp hv
  · intro t
    by_cases ht : t = s.kernel.currentThread
    · subst ht
      refine iff_of_false ?_ ?_
      · show ¬ (Function.update s.point _ _ s.kernel.currentThread).Awaits _
        rw [hself]
        exact hnext _
      · unfold Awaiting
        rwa [hcur]
    · refine awaiting_congr (hpoint ht) ⟨hinP t, fun hin => ?_⟩
      rcases hs.pc (.inl ht) with heq | ⟨-, hborn, -⟩
      · exact heq.trans hin
      · cases hborn.symm.trans hin
  · intro t ht
    have hold := hinP t ht
    exact (h.only t hold).imp fun _ => .imp fun _ hp => (hpoint (hne t hold)).trans hp
  · intro t r b hp
    have ht : t ≠ s.kernel.currentThread := by
      rintro rfl
      refine hnext .outside ?_
      rw [show next = .requested r b from hself.symm.trans hp]
      trivial
    refine hs.outside (h.outside t r b ((hpoint ht).symm.trans hp)) fun op hcalled => ht ?_
    exact (hs.called hcalled).1

theorem Paired.call (h : Paired s) (hlock : ∀ t, (s.point t).Locked → s.kernel.InLock t .disk)
    (hcalls : DiskCalls (s.point s.kernel.currentThread) op next)
    (hstep : Threads.step s.kernel (.call op) = some (k', effects)) :
    Paired (⟨k', Function.update s.point s.kernel.currentThread next, s.data⟩ :
      DiskSystem T S L C B) := by
  generalize hp : s.point s.kernel.currentThread = p at hcalls
  cases hcalls with
  | await request data =>
      obtain ⟨-, hk', -⟩ := Step.called_of_label hstep
      rw [show k' = (s.kernel.p .done).1 from hk']
      refine h.passes hlock ?_ request data
      unfold Awaiting
      rw [hp]
      trivial
  | lock request => exact h.calls_other hstep nofun nofun (by rw [hp]; exact id) fun _ => id
  | unlock request data => exact h.calls_other hstep nofun nofun (by rw [hp]; nofun) fun _ => id
  | other hforeign =>
      refine h.calls_other hstep ?_ ?_ (by rw [hp]; exact id) fun _ => id
      all_goals
        rintro rfl
        cases hforeign

omit [DecidableEq S] [DecidableEq L] [DecidableEq C] in
theorem Paired.go (h : Paired s) (hlock : ∀ t, (s.point t).Locked → s.kernel.InLock t .disk)
    (hpc : s.kernel.pc s.kernel.currentThread = .outside)
    (hgoes : DiskGoes s.kernel.currentThread s.data (s.point s.kernel.currentThread) next d events) :
    Paired (⟨s.kernel, Function.update s.point s.kernel.currentThread next, d⟩ :
      DiskSystem T S L C B) := by
  have hself : Function.update s.point s.kernel.currentThread next s.kernel.currentThread = next :=
    Function.update_self ..
  have hpoint : ∀ {t}, t ≠ s.kernel.currentThread →
      Function.update s.point s.kernel.currentThread next t = s.point t :=
    fun hne => Function.update_of_ne hne ..
  have hne : ∀ t, s.kernel.pc t = .inP .done → t ≠ s.kernel.currentThread := by
    rintro t ht rfl
    cases hpc.symm.trans ht
  have honly : ∀ t, s.kernel.pc t = .inP .done →
      ∃ r b, Function.update s.point s.kernel.currentThread next t = .waited r b := fun t ht =>
    (h.only t ht).imp fun _ => .imp fun _ hp => (hpoint (hne t ht)).trans hp
  have houtside : ∀ t r b, Function.update s.point s.kernel.currentThread next t = .requested r b →
      s.kernel.pc t = .outside := by
    intro t r b hp
    by_cases ht : t = s.kernel.currentThread
    · rw [ht, hpc]
    · exact h.outside t r b ((hpoint ht).symm.trans hp)
  -- The points of the other pieces are not among those that await an interrupt.
  have hframe : d = s.data → ¬ (s.point s.kernel.currentThread).Awaits
      (.outside : Pc T (DiskSemaphore S) (DiskLock L) C) →
      (∀ pc : Pc T (DiskSemaphore S) (DiskLock L) C, ¬ next.Awaits pc) →
      Paired (⟨s.kernel, Function.update s.point s.kernel.currentThread next, d⟩ :
        DiskSystem T S L C B) := by
    intro hd hbefore hnext
    refine h.frame hd rfl (fun t => ?_) honly houtside
    by_cases ht : t = s.kernel.currentThread
    · subst ht
      refine iff_of_false ?_ ?_
      · show ¬ (Function.update s.point _ _ s.kernel.currentThread).Awaits _
        rw [hself]
        exact hnext _
      · unfold Awaiting
        rwa [hpc]
    · exact awaiting_congr (hpoint ht) .rfl
  generalize hp : s.point s.kernel.currentThread = p at hgoes
  cases hgoes with
  | accepted request hidle =>
      have howner : (s.kernel.locks .disk).lockerOwner = some s.kernel.currentThread :=
        (hlock _ (by rw [hp]; trivial)).owner (by rw [hpc]; rfl)
      obtain ⟨hscheduled, hvalue⟩ := h.idle hlock howner (by unfold Awaiting; rw [hp]; exact id)
      refine ⟨iff_of_true rfl (Nat.succ_pos _), h.nonneg, honly, houtside, ?_, ?_⟩
      · intro t _
        show ((s.data.scheduled + 1 : ℕ) : ℤ) + (s.kernel.semaphores .done).value = 1
        rw [hscheduled, hvalue]
        rfl
      · intro hnone
        refine absurd ?_ (hnone s.kernel.currentThread)
        show (Function.update s.point _ _ s.kernel.currentThread).Awaits _
        rw [hself]
        trivial
  | notIdle _ _ | noSector _ | «return» _ _ =>
      exact hframe rfl (by rw [hp]; exact id) (fun _ => id)

theorem Paired.kernel (h : Paired s)
    (hlock : ∀ t, (s.point t).Locked → s.kernel.InLock t .disk)
    {label : Label T (DiskSemaphore S) (DiskLock L) C} (hinside : label.inside = true)
    (hstep : Threads.step s.kernel label = some (k', effects)) :
    Paired (⟨k', s.point, s.data⟩ : DiskSystem T S L C B) := by
  have hs := Step.of_step hstep
  have hnot : ∀ t op, .called t op ∉ effects := by
    intro t op hcalled
    rw [Step.label_of_called hstep hcalled] at hinside
    cases hinside
  by_cases hresume : s.kernel.idle = false ∧ s.kernel.pc s.kernel.currentThread = .inP .done
  · obtain ⟨hidle, hpc⟩ := hresume
    obtain ⟨request, data, hp⟩ := h.only _ hpc
    rw [(hs.p_of_current hidle hpc).1]
    have hpasses := h.passes hlock (by unfold Awaiting; rw [hp]; exact hpc) request data
    rwa [← hp, Function.update_eq_self] at hpasses
  · have hsem : k'.semaphores .done = s.kernel.semaphores .done := by
      refine (Step.inside_semaphores hstep ?_ ?_ _).resolve_right fun hn =>
        hresume ⟨hn.1, hn.2.1⟩
      all_goals
        rintro _ rfl
        cases hinside
    have hinP : ∀ t, k'.pc t = .inP .done ↔ s.kernel.pc t = .inP .done := by
      intro t
      refine ⟨fun ht => (hs.of_inP ht).resolve_right (hnot t _), fun hin => ?_⟩
      have hcur : t ≠ s.kernel.currentThread ∨ s.kernel.idle = true := by
        by_contra hn
        push Not at hn
        rw [hn.1] at hin
        exact hresume ⟨Bool.eq_false_iff.mpr hn.2, hin⟩
      rcases hs.pc hcur with heq | ⟨-, hborn, -⟩
      · exact heq.trans hin
      · cases hborn.symm.trans hin
    refine h.frame rfl hsem (fun t => awaiting_congr rfl (hinP t)) ?_ ?_
    · exact fun t ht => h.only t ((hinP t).mp ht)
    · exact fun t r b hp => hs.outside (h.outside t r b hp) (hnot t)

omit [DecidableEq L] [DecidableEq C] in
/-- The interrupt of the request. -/
theorem Paired.diskDone (h : Paired s) (hscheduled : 0 < s.data.scheduled) :
    Paired (⟨(s.kernel.v none .done).1, s.point,
      { s.data with active := false, scheduled := s.data.scheduled - 1 }⟩ :
        DiskSystem T S L C B) := by
  have hpc : (s.kernel.v none DiskSemaphore.done).1.pc = s.kernel.pc := (v_kept _ _ _).2.2.1
  have hawaiting : ∀ {t}, Awaiting (⟨(s.kernel.v none .done).1, s.point,
      { s.data with active := false, scheduled := s.data.scheduled - 1 }⟩ :
        DiskSystem T S L C B) t ↔ Awaiting s t :=
    fun {t} => awaiting_congr rfl (by rw [hpc])
  have hsome : ∃ t, Awaiting s t := by
    by_contra hnone
    push Not at hnone
    have := (h.quiet hnone).1
    omega
  obtain ⟨u, hu⟩ := hsome
  have hsum := h.awaited u hu
  have hnonneg := h.nonneg
  have hvalue := v_value s.kernel none DiskSemaphore.done
  rw [increment_of_lt (by omega)] at hvalue
  refine ⟨?_, ?_, ?_, ?_, ?_, ?_⟩
  · show false = true ↔ 0 < s.data.scheduled - 1
    simp
    omega
  · show 0 ≤ ((s.kernel.v none .done).1.semaphores .done).value
    omega
  · exact fun t ht => h.only t ((congrFun hpc t).symm.trans ht)
  · exact fun t r b hp => (congrFun hpc t).trans (h.outside t r b hp)
  · intro t _
    show ((s.data.scheduled - 1 : ℕ) : ℤ) + ((s.kernel.v none .done).1.semaphores .done).value = 1
    omega
  · exact fun hnone => absurd (hawaiting.mpr hu) (hnone u)

omit [DecidableEq L] [DecidableEq C] in
theorem Paired.otherInterrupt (h : Paired s) (sem : S) :
    Paired (⟨(s.kernel.v none (.other sem)).1, s.point, s.data⟩ : DiskSystem T S L C B) := by
  have hpc : (s.kernel.v none (DiskSemaphore.other sem)).1.pc = s.kernel.pc :=
    (v_kept _ _ _).2.2.1
  have hne : DiskSemaphore.done ≠ DiskSemaphore.other sem := nofun
  have hsem := v_semaphores_of_ne s.kernel hne none
  refine h.frame rfl hsem (fun t => awaiting_congr rfl (by rw [hpc])) ?_ ?_
  · exact fun t ht => h.only t ((congrFun hpc t).symm.trans ht)
  · exact fun t r b hp => (congrFun hpc t).trans (h.outside t r b hp)

end Pairing

/-! ## Every run -/

/-- The request that a thread has made. -/
def DiskPoint.asks : DiskPoint B → Option (Request B × B)
  | .requested request data | .waited request data | .released request data =>
      some (request, data)
  | _ => none

/-- What has happened, and what there is. -/
structure Served (file : ℤ → B) (log : List (DiskEvent T B)) (s : DiskSystem T S L C B) :
    Prop where
  sectors : ∀ n, s.data.sectors n = (lastWrite n log).getD (file n)
  total : requests log = interrupts log + s.data.scheduled
  told : ∀ t request data, (s.point t).asks = some (request, data) →
    Answered log t request data ∨
      Awaiting s t ∧ s.data.scheduled = 1 ∧ Pending log t request data
  contract : Always (DiskContract file) log

section Runs

variable {file : ℤ → B} {log : List (DiskEvent T B)} {s : DiskSystem T S L C B} {t : T}
  {d : DiskData B} {next : DiskPoint B} {op : DiskOp T S L C} {events : List (DiskEvent T B)}
  {k' : Kernel T (DiskSemaphore S) (DiskLock L) C}

/-- Nothing that callers are promised happens. -/
theorem Served.frame (h : Served file log s) {s' : DiskSystem T S L C B} (hdata : s'.data = s.data)
    (hasks : ∀ t request data, (s'.point t).asks = some (request, data) →
      (s.point t).asks = some (request, data))
    (hawaiting : ∀ t, Awaiting s t → Awaiting s' t ∨ s.data.scheduled ≠ 1) :
    Served file log s' where
  sectors := by rw [hdata]; exact h.sectors
  total := by rw [hdata]; exact h.total
  told t request data ht := by
    rw [hdata]
    refine (h.told t request data (hasks t request data ht)).imp_right ?_
    rintro ⟨hold, hscheduled, hpending⟩
    exact ⟨(hawaiting t hold).resolve_right fun hne => hne hscheduled, hscheduled, hpending⟩
  contract := h.contract

/-- A step that makes one event of the thread `u`, or of nobody. -/
theorem Served.snoc (h : Served file log s) {s' : DiskSystem T S L C B} {e : DiskEvent T B} {u : T}
    (hdata : s'.data = s.data) (hdisk : e.ofDisk = false) (hcaller : ∀ t, t ≠ u → e.caller ≠ some t)
    (hu : (s'.point u).asks = none) (hpoint : ∀ t, t ≠ u → s'.point t = s.point t)
    (hpc : s'.kernel.pc = s.kernel.pc) (hcontract : DiskContract file log e) :
    Served file (log ++ [e]) s' where
  sectors n := by
    rw [hdata, lastWrite_snoc n (by rintro t r b rfl; cases hdisk)]
    exact h.sectors n
  total := by
    have hnone : requests [e] = 0 ∧ interrupts [e] = 0 := by
      cases e with
      | requested _ _ _ | done => cases hdisk
      | _ => exact ⟨rfl, rfl⟩
    rw [requests_snoc, interrupts_snoc, hnone.1, hnone.2, hdata]
    exact h.total
  told t request data ht := by
    have hne : t ≠ u := by
      rintro rfl
      cases hu.symm.trans ht
    rw [hpoint t hne] at ht
    rw [hdata]
    refine (h.told t request data ht).imp (·.snoc (hcaller t hne)) ?_
    rintro ⟨hold, hscheduled, hpending⟩
    refine ⟨(awaiting_congr (hpoint t hne) (by rw [hpc])).mpr hold, hscheduled, ?_⟩
    exact hpending.snoc hdisk (hcaller t hne)
  contract := always_snoc.mpr ⟨h.contract, hcontract⟩

theorem Served.go (h : Served file log s) (hpaired : Paired s)
    (hlock : ∀ t, (s.point t).Locked → s.kernel.InLock t .disk)
    (hpc : s.kernel.pc s.kernel.currentThread = .outside) [DecidableEq T]
    (hgoes : DiskGoes s.kernel.currentThread s.data (s.point s.kernel.currentThread) next d events) :
    Served file (log ++ events)
      (⟨s.kernel, Function.update s.point s.kernel.currentThread next, d⟩ :
        DiskSystem T S L C B) := by
  have hself : Function.update s.point s.kernel.currentThread next s.kernel.currentThread = next :=
    Function.update_self ..
  have hpoint : ∀ t, t ≠ s.kernel.currentThread →
      Function.update s.point s.kernel.currentThread next t = s.point t :=
    fun t hne => Function.update_of_ne hne ..
  generalize hp : s.point s.kernel.currentThread = p at hgoes
  have hidle : p.Locked → ¬ p.Awaits (s.kernel.pc s.kernel.currentThread) →
      s.data.scheduled = 0 := by
    intro hlocked hawaits
    have howner : (s.kernel.locks .disk).lockerOwner = some s.kernel.currentThread :=
      (hlock _ (by rwa [hp])).owner (by rw [hpc]; rfl)
    exact (hpaired.idle hlock howner (by unfold Awaiting; rwa [hp])).1
  cases hgoes with
  | accepted request _ =>
      have hscheduled := hidle trivial id
      have htotal := h.total
      rw [hscheduled] at htotal
      refine ⟨fun n => ?_, ?_, ?_, ?_⟩
      · exact carryOut_eq h.sectors s.kernel.currentThread request n
      · rw [requests_snoc, interrupts_snoc, htotal]
        show interrupts log + 0 + 1 = interrupts log + 0 + (s.data.scheduled + 1)
        rw [hscheduled]
      · intro t r b ht
        by_cases hne : t = s.kernel.currentThread
        · subst hne
          have ht : (Function.update s.point s.kernel.currentThread _ _).asks = some (r, b) := ht
          rw [hself] at ht
          obtain ⟨rfl, rfl⟩ := Prod.mk.inj (Option.some.inj ht)
          refine .inr ⟨?_, ?_, pending_requested log _ _ _⟩
          · show (Function.update s.point s.kernel.currentThread _ _).Awaits _
            rw [hself]
            trivial
          · show s.data.scheduled + 1 = 1
            rw [hscheduled]
        · refine .inl ?_
          rcases h.told t r b ((congrArg _ (hpoint t hne)).symm.trans ht) with hanswered | ⟨-, hone, -⟩
          · exact hanswered.snoc fun heq => hne (Option.some.inj heq).symm
          · rw [hscheduled] at hone
            cases hone
      · refine always_snoc.mpr ⟨h.contract, htotal, ?_⟩
        rintro n rfl
        exact h.sectors n
  | notIdle request hactive =>
      have hscheduled := hidle trivial id
      have := hpaired.active.mp hactive
      omega
  | noSector request =>
      exact h.snoc rfl rfl (fun _ _ => nofun) (congrArg DiskPoint.asks hself) hpoint rfl trivial
  | «return» request data =>
      refine h.snoc rfl rfl (fun t hne heq => hne (Option.some.inj heq).symm)
        (congrArg DiskPoint.asks hself) hpoint rfl ?_
      refine (h.told _ request data (by rw [hp]; rfl)).resolve_right ?_
      rintro ⟨hawaits, -⟩
      unfold Awaiting at hawaits
      rw [hp] at hawaits
      exact hawaits

/-- The interrupt answers the request that is pending. -/
theorem Served.diskDone (h : Served file log s) (hpaired : Paired s)
    (hscheduled : 0 < s.data.scheduled) {kernel : Kernel T (DiskSemaphore S) (DiskLock L) C} :
    Served file (log ++ [.done]) (⟨kernel, s.point,
      { s.data with active := false, scheduled := s.data.scheduled - 1 }⟩ :
        DiskSystem T S L C B) := by
  have hone : s.data.scheduled = 1 := by
    by_cases hsome : ∃ t, Awaiting s t
    · obtain ⟨t, ht⟩ := hsome
      have hsum := hpaired.awaited t ht
      have hnonneg := hpaired.nonneg
      omega
    · push Not at hsome
      have := (hpaired.quiet hsome).1
      omega
  have htotal := h.total
  refine ⟨fun n => ?_, ?_, fun t request data ht => ?_, ?_⟩
  · rw [lastWrite_snoc n nofun]
    exact h.sectors n
  · rw [requests_snoc, interrupts_snoc, htotal]
    show interrupts log + s.data.scheduled + 0 = interrupts log + 1 + (s.data.scheduled - 1)
    omega
  · refine .inl ?_
    rcases h.told t request data ht with hanswered | ⟨-, -, hpending⟩
    · exact hanswered.snoc nofun
    · exact hpending.done
  · refine always_snoc.mpr ⟨h.contract, ?_⟩
    show requests log = interrupts log + 1
    omega

variable [DecidableEq T] [DecidableEq S] [DecidableEq L] [DecidableEq C]
  {effects : List (Effect T (DiskSemaphore S) (DiskLock L) C)}

omit [DecidableEq L] [DecidableEq C] in
/-- Who tests the semaphore awaits its interrupt still, or the interrupt has come. -/
theorem Paired.passes_awaits (h : Paired s) (hcur : Awaiting s s.kernel.currentThread)
    {point : T → DiskPoint B} {request : Request B} {data : B}
    (hpoint : point s.kernel.currentThread = .waited request data) :
    Awaiting (⟨(s.kernel.p .done).1, point, s.data⟩ : DiskSystem T S L C B)
      s.kernel.currentThread ∨ s.data.scheduled ≠ 1 := by
  have hsum := h.awaited _ hcur
  have hnonneg := h.nonneg
  rcases (p_cases s.kernel DiskSemaphore.done).2 with ⟨-, hsleeps, -⟩ | ⟨hne, -, -⟩
  · left
    show (point s.kernel.currentThread).Awaits _
    rw [hpoint]
    exact hsleeps
  · right
    omega

/-- Who stays where it is awaits what it has awaited, or its interrupt has come. -/
theorem Paired.awaits_kept (h : Paired s) (hs : Step s.kernel k' effects)
    {point : T → DiskPoint B} (hpoint : point t = s.point t) (ht : Awaiting s t) :
    Awaiting (⟨k', point, s.data⟩ : DiskSystem T S L C B) t ∨ s.data.scheduled ≠ 1 := by
  by_cases hin : s.kernel.pc t = .inP .done
  · by_cases hcur : t ≠ s.kernel.currentThread ∨ s.kernel.idle = true
    · rcases hs.pc hcur with heq | ⟨-, hborn, -⟩
      · exact .inl ((awaiting_congr hpoint (by rw [heq])).mpr ht)
      · cases hborn.symm.trans hin
    · push Not at hcur
      obtain ⟨rfl, hidle⟩ := hcur
      obtain ⟨request, data, hp⟩ := h.only _ hin
      rw [(hs.p_of_current (Bool.eq_false_iff.mpr hidle) hin).1]
      exact h.passes_awaits ht (hpoint.trans hp)
  · left
    unfold Awaiting at ht ⊢
    show (point t).Awaits _
    rw [hpoint]
    cases hp : s.point t with
    | requested _ _ => trivial
    | waited _ _ =>
        rw [hp] at ht
        exact absurd ht hin
    | _ =>
        rw [hp] at ht
        exact ht.elim

theorem Served.call (h : Served file log s) (hpaired : Paired s)
    (hcalls : DiskCalls (s.point s.kernel.currentThread) op next)
    (hstep : Threads.step s.kernel (.call op) = some (k', effects)) :
    Served file log (⟨k', Function.update s.point s.kernel.currentThread next, s.data⟩ :
      DiskSystem T S L C B) := by
  have hself : Function.update s.point s.kernel.currentThread next s.kernel.currentThread = next :=
    Function.update_self ..
  have hpoint : ∀ t, t ≠ s.kernel.currentThread →
      Function.update s.point s.kernel.currentThread next t = s.point t :=
    fun t hne => Function.update_of_ne hne ..
  obtain ⟨hcan, hk', -⟩ := Step.called_of_label hstep
  have hpc : s.kernel.pc s.kernel.currentThread = .outside := hcan.2.1
  generalize hp : s.point s.kernel.currentThread = p at hcalls
  refine h.frame rfl (fun t request data ht => ?_) fun t ht => ?_
  · by_cases hne : t = s.kernel.currentThread
    · subst hne
      have ht : (Function.update s.point s.kernel.currentThread _ _).asks = _ := ht
      rw [hself] at ht
      rw [hp]
      cases hcalls with
      | lock _ | other _ => cases ht
      | await _ _ | unlock _ _ => exact ht
    · exact (congrArg _ (hpoint t hne)).symm.trans ht
  · by_cases hne : t = s.kernel.currentThread
    · subst hne
      cases hcalls with
      | await request data =>
          rw [show k' = (s.kernel.p .done).1 from hk']
          exact hpaired.passes_awaits ht hself
      | unlock request data =>
          unfold Awaiting at ht
          rw [hp] at ht
          cases hpc.symm.trans ht
      | lock _ | other _ =>
          unfold Awaiting at ht
          rw [hp] at ht
          exact ht.elim
    · exact hpaired.awaits_kept (.of_step hstep) (hpoint t hne) ht

variable {numSectors : ℕ} {es : List (Event T (DiskSemaphore S) (DiskLock L) C (DiskEvent T B))}
  {s' : DiskSystem T S L C B}
  {m : Move T (DiskSemaphore S) (DiskLock L) C (DiskChoice T S L C B) (DiskInterrupt S)}

/-- What one step preserves. -/
theorem served_step (h : Served file log s) (hpaired : Paired s)
    (hlock : ∀ t, (s.point t).Locked → s.kernel.InLock t .disk)
    (hs : Program.Steps (synchDisk numSectors) s m s' es) :
    Paired s' ∧ Served file (log ++ Program.ownLog es) s' := by
  cases hs with
  | call hact hstep =>
      rw [Program.ownLog_map, List.append_nil]
      have hcalls := synchDisk_call hact
      exact ⟨hpaired.call hlock hcalls hstep, h.call hpaired hcalls hstep⟩
  | go _ hpc hact =>
      rw [Program.ownLog_own]
      have hgoes := synchDisk_go hact
      exact ⟨hpaired.go hlock hpc hgoes, h.go hpaired hlock hpc hgoes⟩
  | kernel hinside hstep =>
      rw [Program.ownLog_map, List.append_nil]
      refine ⟨hpaired.kernel hlock hinside hstep, h.frame rfl (fun _ _ _ => id) fun t ht => ?_⟩
      exact hpaired.awaits_kept (.of_step hstep) rfl ht
  | @interrupt i d events sem k' effects hhandler hstep =>
      rw [Program.ownLog_append, Program.ownLog_own, Program.ownLog_map, List.append_nil]
      obtain rfl : k' = (s.kernel.v none sem).1 := by
        simp only [Threads.step] at hstep
        split at hstep
        · exact (Prod.mk.inj (Option.some.inj hstep)).1.symm
        · cases hstep
      cases i with
      | diskDone =>
          simp only [synchDisk, DiskInterrupt.handler] at hhandler
          split at hhandler
          · rename_i hscheduled
            obtain ⟨rfl, rfl, rfl⟩ : _ = d ∧ _ = events ∧ _ = sem := by
              simpa only [Option.some.injEq, Prod.mk.injEq] using hhandler
            exact ⟨hpaired.diskDone hscheduled, h.diskDone hpaired hscheduled⟩
          · cases hhandler
      | other sem' =>
          obtain ⟨rfl, rfl, rfl⟩ : s.data = d ∧ [] = events ∧ DiskSemaphore.other sem' = sem := by
            simpa only [synchDisk, DiskInterrupt.handler, Option.some.injEq, Prod.mk.injEq]
              using hhandler
          rw [List.append_nil]
          have hpc : (s.kernel.v none (DiskSemaphore.other sem')).1.pc = s.kernel.pc :=
            (v_kept _ _ _).2.2.1
          refine ⟨hpaired.otherInterrupt sem', h.frame rfl (fun _ _ _ => id) fun t ht => .inl ?_⟩
          have hkept : Awaiting (⟨(s.kernel.v none (.other sem')).1, s.point, s.data⟩ :
              DiskSystem T S L C B) t ↔ Awaiting s t := awaiting_congr rfl (by rw [hpc])
          exact hkept.mpr ht
  | @device i d events hhandler =>
      cases i with
      | diskDone =>
          simp only [synchDisk, DiskInterrupt.handler] at hhandler
          split at hhandler
          · cases hhandler
          · cases hhandler
      | other sem' => cases hhandler

variable {tr : List (List (Event T (DiskSemaphore S) (DiskLock L) C (DiskEvent T B)))}
  {ok : List (List (Event T (DiskSemaphore S) (DiskLock L) C (DiskEvent T B))) →
    DiskSystem T S L C B → Move T (DiskSemaphore S) (DiskLock L) C (DiskChoice T S L C B)
      (DiskInterrupt S) → Prop}
  {main : T} {initial : S → ℤ}

theorem served_of_run (hrun : Run (synchDisk numSectors).step ok
    ((synchDisk numSectors).boot main (initialValue initial) (.create file)) tr s) :
    Paired s ∧ Served file (Program.ownLog tr.flatten) s := by
  refine hrun.invariant_with
    (I := fun tr s => Paired s ∧ Served file (Program.ownLog tr.flatten) s)
    (fun hrun => (synchDisk_guarded numSectors).inLock hrun) ?_ ?_
  · refine ⟨⟨?_, ?_, ?_, ?_, ?_, ?_⟩, ⟨fun _ => rfl, rfl, ?_, always_nil⟩⟩
    · simp [Program.boot, DiskData.create]
    · exact Int.le_refl 0
    · intro t ht
      have ht : (Threads.boot main _ : Kernel T (DiskSemaphore S) (DiskLock L) C).pc t = _ := ht
      simp only [Threads.boot, Function.update_apply] at ht
      split at ht <;> cases ht
    · simp [Program.boot, synchDisk]
    · exact fun _ ht => ht.elim
    · exact fun _ => ⟨rfl, rfl⟩
    · simp [Program.boot, synchDisk, DiskPoint.asks]
  · intro tr s m s' es hlock h _ hs
    obtain ⟨hpaired, hserved⟩ := h
    rw [List.flatten_append, List.flatten_singleton, Program.ownLog_append]
    exact served_step hserved hpaired hlock (.of_step hs)

/-- **The synchronous disk.** However the calls of any number of threads and the interrupts are
interleaved: the disk is never asked while it is active; a request finds all requests before it
done, so they take effect one after another, and a read gets what the last of the writes to its
sector has written; and every call returns behind the interrupt of its own request. -/
theorem synchronous_disk (hrun : Run (synchDisk numSectors).step anyStep
    ((synchDisk numSectors).boot main (initialValue initial) (.create file)) tr s) :
    Always (DiskContract file) (Program.ownLog tr.flatten) :=
  (served_of_run hrun).2.contract

end Runs

/-! ### Two threads -/

/-- A thread writes 7 to sector 3; another one, `t`, reads the sector meanwhile. -/
def writeMoves (t : Fin 2) : List (Move (Fin 2) (DiskSemaphore Unit) (DiskLock Unit) Unit
    (DiskChoice (Fin 2) Unit Unit Unit ℕ) (DiskInterrupt Unit)) :=
  [.act (.other (.fork t)), .kernel .return, .act (.call (.write 3 7)), .kernel .return,
    .act .goOn, .act .goOn, .act (.call (.read 3)), .interrupt .diskDone, .kernel .dispatch,
    .kernel .resume, .kernel .return, .act .goOn, .kernel .return, .act .goOn,
    .act (.other .yield)]

/-- It gets the lock. -/
def readMoves : List (Move (Fin 2) (DiskSemaphore Unit) (DiskLock Unit) Unit
    (DiskChoice (Fin 2) Unit Unit Unit ℕ) (DiskInterrupt Unit)) :=
  [.kernel .resume, .kernel .return, .act .goOn, .act .goOn, .kernel .return,
    .interrupt .diskDone, .act (.other .yield), .kernel .resume, .kernel .return, .act .goOn,
    .kernel .return, .act .goOn]

theorem synchronous_disk_sample : ∃ tr s,
    Run (synchDisk 1024).step anyStep ((synchDisk 1024).boot (0 : Fin 2)
        (initialValue fun _ : Unit => 0) (.create fun _ => 0) :
          DiskSystem (Fin 2) Unit Unit Unit ℕ) tr s ∧
      Program.ownLog tr.flatten =
        [.requested 0 (.write 3 7) 7, .done, .returned 0 (.write 3 7) 7,
          .requested 1 (.read 3) 7, .done, .returned 1 (.read 3) 7] ∧
      Always (DiskContract fun _ => 0) (Program.ownLog tr.flatten) := by
  have hp : (exec (synchDisk 1024).step anyStep [] ((synchDisk 1024).boot (0 : Fin 2)
        (initialValue fun _ : Unit => 0) (.create fun _ => 0) :
          DiskSystem (Fin 2) Unit Unit Unit ℕ) (writeMoves 1 ++ readMoves)).map
        (fun r => Program.ownLog r.1.flatten) =
      some [.requested 0 (.write 3 7) 7, .done, .returned 0 (.write 3 7) 7,
        .requested 1 (.read 3) 7, .done, .returned 1 (.read 3) 7] := by
    decide +kernel
  obtain ⟨⟨tr, s⟩, hexec, hlog⟩ := Option.map_eq_some_iff.mp hp
  have hrun := Run.of_exec .start hexec
  exact ⟨tr, s, hrun, hlog, synchronous_disk hrun⟩

end Nachos.Filesys.SynchDisk
