import Nachos.Threads.Sections
import Nachos.Threads.Semaphores

/-!
# Semaphores between a device and one thread at a time

A device that has done something calls `V`, and a thread passes `P` for it. Either the thread
has made a request first, or it takes what the device has for it afterwards. What the device
owes the semaphore is its supply, and what the thread owes depends on where it is in its code
and whether it is still in `P`; the value of the semaphore is what both of them owe together,
if a lock lets one thread at a time owe anything.
-/

namespace Nachos.Threads

open Nachos.Lib Kernel

/-! ## Shares of which one counts -/

/-- At most one thread has a share, and this is all there is. -/
def Total {T M : Type*} (nothing : M) (share : T → M) (n : M) : Prop :=
  ∃ t, (∀ u, u ≠ t → share u = nothing) ∧ n = share t

section Total

variable {T M : Type*} {nothing : M} {share share' : T → M} {n : M} {t : T}

theorem Total.of_only (h : ∀ u, u ≠ t → share u = nothing) : Total nothing share (share t) :=
  ⟨t, h, rfl⟩

theorem Total.congr (h : Total nothing share n) (heq : ∀ u, share' u = share u) :
    Total nothing share' n := by
  obtain ⟨t, hrest, hn⟩ := h
  exact ⟨t, fun u hu => (heq u).trans (hrest u hu), hn.trans (heq t).symm⟩

/-- Who has a share has all. -/
theorem Total.eq_of_ne (h : Total nothing share n) (ht : share t ≠ nothing) : n = share t := by
  obtain ⟨u, hrest, hn⟩ := h
  by_cases heq : t = u
  · rwa [heq]
  · exact absurd (hrest t heq) ht

/-- If nobody else has a share, a thread has all. -/
theorem Total.eq_of_only (h : Total nothing share n) (hother : ∀ u, u ≠ t → share u = nothing) :
    n = share t := by
  by_cases ht : share t = nothing
  · obtain ⟨u, -, hn⟩ := h
    by_cases heq : u = t
    · rwa [← heq]
    · rw [hn, hother u heq, ht]
  · exact h.eq_of_ne ht

/-- The share of one thread changes, and still only one thread has any. -/
theorem Total.change {share share' : T → ℤ} {n : ℤ} (h : Total 0 share n)
    (hother : ∀ u, u ≠ t → share' u = share u)
    (hone : ∀ u v, share' u ≠ 0 → share' v ≠ 0 → u = v) :
    Total 0 share' (n + (share' t - share t)) := by
  by_cases ht : share' t = 0
  · by_cases hold : share t = 0
    · rw [ht, hold, Int.sub_self, Int.add_zero]
      refine h.congr fun u => ?_
      by_cases hu : u = t
      · rw [hu, ht, hold]
      · exact hother u hu
    · rw [h.eq_of_ne hold, ht]
      refine ⟨t, fun u hu => ?_, by omega⟩
      obtain ⟨v, hrest, hv⟩ := h
      have hvt : t = v := by_contra fun hne => hold (hrest t hne)
      rw [hother u hu, hrest u (hvt ▸ hu)]
  · have hnone : ∀ u, u ≠ t → share' u = 0 := fun u hu =>
      by_contra fun hne => hu (hone u t hne ht)
    have hn : n = share t := h.eq_of_only fun u hu => (hother u hu).symm.trans (hnone u hu)
    exact ⟨t, hnone, by omega⟩

end Total

/-! ## Programs -/

variable {T S L C P D X A I : Type*}

namespace Program

/-- What a thread owes at a point, awake or in `P`, and the supply of the device balance the
value of the semaphore, when no interrupts come but regular ones. -/
structure Tokens (prog : Program T S L C P D X A I) (sem : S) [DecidableEq S] (regular : I → Prop)
    (supply : D → ℤ) (weight : P → Bool → ℤ) : Prop where
  start : ∀ inP, weight prog.start inP = 0
  /-- There is one unit at most. -/
  most : ∀ d p inP, supply d + weight p inP ≤ 1
  never : ∀ {t p d a next}, prog.act t p d a ≠ some (.call (.v sem) next)
  /-- Who passes `P` has one token less to wait for. -/
  pass : ∀ {t p d a next}, prog.act t p d a = some (.call (.p sem) next) →
    weight next true = weight p false ∧ weight next false = weight p false - 1
  call : ∀ {t p d a op next}, prog.act t p d a = some (.call op next) → op ≠ .p sem →
    weight next false = weight p false
  /-- Who owes something finds that the value would not be negative without it. -/
  go : ∀ {t p d a next d' events}, prog.act t p d a = some (.go next d' events) →
    (weight p false ≠ 0 → 0 ≤ supply d + weight p false) →
    supply d' + weight next false = supply d + weight p false
  handler : ∀ {i d d' events s}, regular i → prog.handler i d = some (d', events, s) →
    supply d' = supply d + if s = some sem then 1 else 0

/-- Points that are not reached by a call that takes the lock. -/
structure Behind (prog : Program T S L C P D X A I) (lock : L) (q : P → Prop) : Prop where
  acquire : ∀ {t p d a next}, prog.act t p d a = some (.call (.acquire lock) next) → ¬ q next
  wait : ∀ {t p d a c next}, prog.act t p d a = some (.call (.wait c (some lock)) next) → ¬ q next

/-- Only in the section of a lock is anything owed. -/
structure OwedInside (prog : Program T S L C P D X A I) (lock : L) (critical : P → Prop)
    (weight : P → Bool → ℤ) : Prop where
  inside : ∀ {p inP}, weight p inP ≠ 0 → critical p
  behind : Behind prog lock fun p => weight p false ≠ 0

variable [DecidableEq T] [DecidableEq S] [DecidableEq L] [DecidableEq C]

omit [DecidableEq S] [DecidableEq L] [DecidableEq C] in
/-- What two points have in common is the same behind a step from one to the other. -/
theorem apply_update {β : Type*} {f : P → β} {point : T → P} {u : T} {next : P}
    (h : f next = f (point u)) (t : T) : f (Function.update point u next t) = f (point t) := by
  by_cases ht : t = u
  · rw [ht, Function.update_self, h]
  · rw [Function.update_of_ne ht]

omit [DecidableEq S] [DecidableEq L] [DecidableEq C] in
theorem forall_update {q : P → Prop} {point : T → P} {u : T} {next : P}
    (h : ∀ t, q (point t)) (hnext : q next) (t : T) : q (Function.update point u next t) := by
  by_cases ht : t = u
  · rwa [ht, Function.update_self]
  · rw [Function.update_of_ne ht]
    exact h t

/-- What a thread owes. -/
def share (sem : S) (weight : P → Bool → ℤ) (s : System T S L C P D) (t : T) : ℤ :=
  weight (s.point t) (s.kernel.pc t = .inP sem)

/-- The value of the semaphore is never negative, and it is owed by the device and one thread. -/
structure Balanced (sem : S) (supply : D → ℤ) (weight : P → Bool → ℤ) (s : System T S L C P D) :
    Prop where
  nonneg : 0 ≤ (s.kernel.semaphores sem).value
  total : Total 0 (share sem weight s) ((s.kernel.semaphores sem).value - supply s.data)

variable {prog : Program T S L C P D X A I} {s s' : System T S L C P D}
  {es : List (Event T S L C X)} {m : Move T S L C A I} {sem : S} {lock : L}
  {critical q : P → Prop} {regular : I → Prop} {supply : D → ℤ} {weight : P → Bool → ℤ}
  {ok : List (List (Event T S L C X)) → System T S L C P D → Move T S L C A I → Prop}
  {main : T} {initialValue : S → ℤ} {data : D} {tr : List (List (Event T S L C X))}

theorem share_asleep {t : T} (hpc : s.kernel.pc t = .inP sem) :
    share sem weight s t = weight (s.point t) true := by
  unfold share
  rw [decide_eq_true hpc]

theorem share_awake {t : T} (hpc : s.kernel.pc t ≠ .inP sem) :
    share sem weight s t = weight (s.point t) false := by
  unfold share
  rw [decide_eq_false hpc]

omit [DecidableEq T] [DecidableEq S] [DecidableEq L] [DecidableEq C] in
/-- Who is in the lock at such a point owns it. -/
theorem Behind.owner (hbehind : Behind prog lock q) (hasked : Asked prog s) {t : T}
    (hlock : s.kernel.InLock t lock) (ht : q (s.point t)) :
    (s.kernel.locks lock).lockerOwner = some t := by
  rcases hlock with howner | hpc | ⟨c, hpc | hpc⟩
  · exact howner
  · obtain ⟨p, d, a, hact⟩ := hasked t (.acquire lock) (by rw [hpc]; rfl)
    exact absurd ht (hbehind.acquire hact)
  all_goals
    obtain ⟨p, d, a, hact⟩ := hasked t (.wait c (some lock)) (by rw [hpc]; rfl)
    exact absurd ht (hbehind.wait hact)

omit [DecidableEq T] [DecidableEq S] [DecidableEq L] [DecidableEq C] in
/-- Beside the thread in the section that runs, nobody is at such a point of it. -/
theorem Behind.alone (hbehind : Behind prog lock q) (hasked : Asked prog s)
    (hlock : ∀ t, critical (s.point t) → s.kernel.InLock t lock)
    (hinside : ∀ p, q p → critical p) {t u : T} (ht : critical (s.point t))
    (hpc : (s.kernel.pc t).queue = none) (hu : q (s.point u)) : u = t := by
  have howner := hbehind.owner hasked (hlock u (hinside _ hu)) hu
  rw [(hlock t ht).owner hpc] at howner
  exact (Option.some.inj howner).symm

/-- **Who owes anything owns the lock.** -/
theorem OwedInside.owner (howed : OwedInside prog lock critical weight) (hasked : Asked prog s)
    (hlock : ∀ t, critical (s.point t) → s.kernel.InLock t lock) {t : T}
    (ht : share sem weight s t ≠ 0) : (s.kernel.locks lock).lockerOwner = some t := by
  have hin := hlock t (howed.inside ht)
  by_cases hpc : s.kernel.pc t = .inP sem
  · rcases hin with howner | hin | ⟨c, hin | hin⟩
    · exact howner
    all_goals cases hin.symm.trans hpc
  · rw [share_awake hpc] at ht
    exact howed.behind.owner hasked hin ht

theorem OwedInside.one (howed : OwedInside prog lock critical weight) (hasked : Asked prog s)
    (hlock : ∀ t, critical (s.point t) → s.kernel.InLock t lock) {t u : T}
    (ht : share sem weight s t ≠ 0) (hu : share sem weight s u ≠ 0) : t = u := by
  have howner := howed.owner hasked hlock ht
  rw [howed.owner hasked hlock hu] at howner
  exact (Option.some.inj howner).symm

/-- Beside the thread in the section that runs, nobody owes anything. -/
theorem OwedInside.alone (howed : OwedInside prog lock critical weight) (hasked : Asked prog s)
    (hlock : ∀ t, critical (s.point t) → s.kernel.InLock t lock) {t u : T}
    (ht : critical (s.point t)) (hpc : (s.kernel.pc t).queue = none) (hu : u ≠ t) :
    share sem weight s u = 0 := by
  by_contra hne
  have howner := howed.owner hasked hlock hne
  rw [(hlock t ht).owner hpc] at howner
  exact hu (Option.some.inj howner).symm

/-- A thread that has not the processor owes what it did. -/
theorem share_other {k' : Kernel T S L C} {effects : List (Effect T S L C)} {point : T → P} {d : D}
    {t : T} (hs : Step s.kernel k' effects) (hpoint : point t = s.point t)
    (hcur : t ≠ s.kernel.currentThread ∨ s.kernel.idle = true) :
    share sem weight ⟨k', point, d⟩ t = share sem weight s t := by
  show weight (point t) (k'.pc t = .inP sem) = weight (s.point t) (s.kernel.pc t = .inP sem)
  rw [hpoint]
  rcases hs.pc hcur with heq | ⟨-, hborn, hout⟩
  · rw [heq]
  · rw [hborn, hout]
    rfl

/-- A step that leaves the semaphore and the device alone, where the thread that runs owes what
it did. -/
theorem Balanced.kept (h : Balanced sem supply weight s) {k' : Kernel T S L C}
    {effects : List (Effect T S L C)} {point : T → P} {d : D} (hs : Step s.kernel k' effects)
    (hsem : k'.semaphores sem = s.kernel.semaphores sem) (hsupply : supply d = supply s.data)
    (hpoint : ∀ t, t ≠ s.kernel.currentThread → point t = s.point t)
    (hcur : share sem weight ⟨k', point, d⟩ s.kernel.currentThread =
      share sem weight s s.kernel.currentThread) : Balanced sem supply weight ⟨k', point, d⟩ where
  nonneg := by
    show 0 ≤ (k'.semaphores sem).value
    rw [hsem]
    exact h.nonneg
  total := by
    show Total 0 _ ((k'.semaphores sem).value - supply d)
    rw [hsem, hsupply]
    refine h.total.congr fun t => ?_
    by_cases ht : t = s.kernel.currentThread
    · rw [ht, hcur]
    · exact share_other hs (hpoint t ht) (.inl ht)

/-- The thread that has the processor tests the semaphore, at the point where it goes on. -/
theorem Balanced.tests (h : Balanced sem supply weight s) {point : T → P} {p : P}
    (hpoint : ∀ t, t ≠ s.kernel.currentThread → point t = s.point t)
    (hp : point s.kernel.currentThread = p)
    (hasleep : weight p true = share sem weight s s.kernel.currentThread)
    (hawake : weight p false = share sem weight s s.kernel.currentThread - 1)
    (hone : ∀ t u, share sem weight ⟨(s.kernel.p sem).1, point, s.data⟩ t ≠ 0 →
      share sem weight ⟨(s.kernel.p sem).1, point, s.data⟩ u ≠ 0 → t = u) :
    Balanced sem supply weight ⟨(s.kernel.p sem).1, point, s.data⟩ := by
  obtain ⟨hpc, hcase⟩ := p_cases s.kernel sem
  have hnonneg := h.nonneg
  rw [decrement_of_nonneg hnonneg] at hcase
  have hother : ∀ u, u ≠ s.kernel.currentThread →
      share sem weight ⟨(s.kernel.p sem).1, point, s.data⟩ u = share sem weight s u := by
    intro u hu
    show weight (point u) ((s.kernel.p sem).1.pc u = .inP sem) = weight _ _
    rw [hpoint u hu, hpc u hu]
  have hchange := h.total.change hother hone
  rcases hcase with ⟨-, hsleeps, hvalue⟩ | ⟨hne, hleaves, hvalue⟩
  · refine ⟨?_, ?_⟩
    · show 0 ≤ ((s.kernel.p sem).1.semaphores sem).value
      omega
    · have hself : share sem weight ⟨(s.kernel.p sem).1, point, s.data⟩ s.kernel.currentThread =
          weight (point s.kernel.currentThread) true := share_asleep hsleeps
      rw [hself, hp, hasleep, Int.sub_self, Int.add_zero] at hchange
      show Total 0 _ (((s.kernel.p sem).1.semaphores sem).value - supply s.data)
      rwa [hvalue]
  · refine ⟨?_, ?_⟩
    · show 0 ≤ ((s.kernel.p sem).1.semaphores sem).value
      omega
    · have hself : share sem weight ⟨(s.kernel.p sem).1, point, s.data⟩ s.kernel.currentThread =
          weight (point s.kernel.currentThread) false := by
        refine share_awake fun hin => ?_
        cases hin.symm.trans hleaves
      rw [hself, hp, hawake] at hchange
      show Total 0 _ (((s.kernel.p sem).1.semaphores sem).value - supply s.data)
      rw [hvalue]
      convert hchange using 1
      omega

section Steps

variable {k' : Kernel T S L C} {effects : List (Effect T S L C)} {a : A} {next : P} {d : D}
  {events : List X}

/-- A call of the thread that has the processor. -/
theorem Balanced.call (h : Balanced sem supply weight s) {op : Op T S L C}
    (htokens : Tokens prog sem regular supply weight)
    (hone : ∀ t u, share sem weight
        ⟨k', Function.update s.point s.kernel.currentThread next, s.data⟩ t ≠ 0 →
      share sem weight
        ⟨k', Function.update s.point s.kernel.currentThread next, s.data⟩ u ≠ 0 → t = u)
    (hact : prog.act s.kernel.currentThread (s.point s.kernel.currentThread) s.data a =
      some (.call op next))
    (hstep : Threads.step s.kernel (.call op) = some (k', effects)) :
    Balanced sem supply weight
      ⟨k', Function.update s.point s.kernel.currentThread next, s.data⟩ := by
  obtain ⟨hcan, hk', -⟩ := Step.called_of_label hstep
  have hpoint : ∀ t, t ≠ s.kernel.currentThread →
      Function.update s.point s.kernel.currentThread next t = s.point t :=
    fun t ht => Function.update_of_ne ht ..
  have hself : Function.update s.point s.kernel.currentThread next s.kernel.currentThread =
      next := Function.update_self ..
  have hshare : share sem weight s s.kernel.currentThread =
      weight (s.point s.kernel.currentThread) false := by
    refine share_awake fun hin => ?_
    cases hin.symm.trans hcan.2.1
  by_cases hop : op = .p sem
  · subst hop
    obtain rfl : k' = (s.kernel.p sem).1 := hk'
    obtain ⟨hasleep, hawake⟩ := htokens.pass hact
    exact h.tests hpoint hself (hasleep.trans hshare.symm) (by rw [hawake, hshare]) hone
  · have hv : op ≠ .v sem := fun heq => htokens.never (heq ▸ hact)
    refine h.kept (.of_step hstep) (by rw [hk', Step.call_semaphores hop hv]) rfl hpoint ?_
    have hnot : k'.pc s.kernel.currentThread ≠ .inP sem := by
      intro hpc
      rcases (Step.of_step hstep).of_inP hpc with hold | hcalled
      · rw [hcan.2.1] at hold
        cases hold
      · exact hop (Label.call.inj (Step.label_of_called hstep hcalled))
    rw [hshare, ← htokens.call hact hop, share_awake hnot]
    exact congrArg (weight · false) hself

/-- What the device has for it the thread takes without a call. -/
theorem Balanced.go (h : Balanced sem supply weight s)
    (htokens : Tokens prog sem regular supply weight)
    (hone : ∀ t u, share sem weight
        ⟨s.kernel, Function.update s.point s.kernel.currentThread next, d⟩ t ≠ 0 →
      share sem weight
        ⟨s.kernel, Function.update s.point s.kernel.currentThread next, d⟩ u ≠ 0 → t = u)
    (hpc : s.kernel.pc s.kernel.currentThread = .outside)
    (hact : prog.act s.kernel.currentThread (s.point s.kernel.currentThread) s.data a =
      some (.go next d events)) :
    Balanced sem supply weight
      ⟨s.kernel, Function.update s.point s.kernel.currentThread next, d⟩ := by
  have hother : ∀ u, u ≠ s.kernel.currentThread →
      share sem weight ⟨s.kernel, Function.update s.point s.kernel.currentThread next, d⟩ u =
        share sem weight s u := by
    intro u hu
    exact congrArg (weight · _) (Function.update_of_ne hu ..)
  have hchange := h.total.change hother hone
  have hbefore : share sem weight s s.kernel.currentThread =
      weight (s.point s.kernel.currentThread) false := share_awake (by simp [hpc])
  have hafter : share sem weight ⟨s.kernel, Function.update s.point s.kernel.currentThread next,
      d⟩ s.kernel.currentThread = weight next false := by
    rw [share_awake (by simp [hpc])]
    exact congrArg (weight · false) (Function.update_self ..)
  have hgo := htokens.go hact fun hne => by
    have hvalue := h.total.eq_of_ne (by rwa [hbefore])
    rw [hbefore] at hvalue
    have hnonneg := h.nonneg
    omega
  refine ⟨h.nonneg, ?_⟩
  rw [hbefore, hafter] at hchange
  show Total 0 _ ((s.kernel.semaphores sem).value - supply d)
  convert hchange using 1
  omega

/-- A step inside the kernel: the semaphore is tested again, or is not concerned. -/
theorem Balanced.kernel (h : Balanced sem supply weight s) {label : Label T S L C}
    (htokens : Tokens prog sem regular supply weight) (hasked : Asked prog s)
    (hone : ∀ t u, share sem weight ⟨k', s.point, s.data⟩ t ≠ 0 →
      share sem weight ⟨k', s.point, s.data⟩ u ≠ 0 → t = u)
    (hinside : label.inside = true) (hstep : Threads.step s.kernel label = some (k', effects)) :
    Balanced sem supply weight ⟨k', s.point, s.data⟩ := by
  have hs := Step.of_step hstep
  by_cases hresume : s.kernel.idle = false ∧ s.kernel.pc s.kernel.currentThread = .inP sem
  · obtain ⟨hidle, hpc⟩ := hresume
    obtain ⟨p, d, a, hact⟩ := hasked _ (.p sem) (by rw [hpc]; rfl)
    obtain ⟨hasleep, hawake⟩ := htokens.pass hact
    have hshare : share sem weight s s.kernel.currentThread =
        weight (s.point s.kernel.currentThread) true := share_asleep hpc
    obtain rfl := (hs.p_of_current hidle hpc).1
    exact h.tests (fun _ _ => rfl) rfl hshare.symm (by rw [hshare, hawake, hasleep]) hone
  · have hsem : k'.semaphores sem = s.kernel.semaphores sem := by
      refine (Step.inside_semaphores hstep ?_ ?_ _).resolve_right fun hn =>
        hresume ⟨hn.1, hn.2.1⟩
      all_goals
        rintro _ rfl
        cases hinside
    refine h.kept hs hsem rfl (fun _ _ => rfl) ?_
    by_cases hcur : s.kernel.idle = true
    · exact share_other hs rfl (.inr hcur)
    · have hbefore : s.kernel.pc s.kernel.currentThread ≠ .inP sem := fun hpc =>
        hresume ⟨Bool.eq_false_iff.mpr hcur, hpc⟩
      have hafter : k'.pc s.kernel.currentThread ≠ .inP sem := by
        intro hpc
        refine (hs.of_inP hpc).elim hbefore fun hcalled => ?_
        rw [Step.label_of_called hstep hcalled] at hinside
        cases hinside
      rw [share_awake hbefore, share_awake hafter]

/-- The device has done something, and its handler calls `V`. -/
theorem Balanced.interrupt (h : Balanced sem supply weight s) {i : I} {sem' : S}
    (htokens : Tokens prog sem regular supply weight) (hregular : regular i)
    (hhandler : prog.handler i s.data = some (d, events, some sem')) :
    Balanced sem supply weight ⟨(s.kernel.v none sem').1, s.point, d⟩ := by
  have hsupply := htokens.handler hregular hhandler
  have hnonneg := h.nonneg
  obtain ⟨t, hrest, htotal⟩ := h.total
  have hvalue : ((s.kernel.v none sem').1.semaphores sem).value =
      (s.kernel.semaphores sem).value + if some sem' = some sem then 1 else 0 := by
    by_cases hsem : sem' = sem
    · -- what is owed afterwards is one unit at most, and so the value does not wrap
      have hmost := htokens.most d (s.point t) (s.kernel.pc t = .inP sem)
      have hshare : share sem weight s t = weight (s.point t) (s.kernel.pc t = .inP sem) := rfl
      rw [if_pos (by rw [hsem])] at hsupply
      rw [hsem, if_pos rfl, v_value, increment_of_lt (by omega)]
    · rw [if_neg (by simpa using hsem), Int.add_zero,
        v_semaphores_of_ne s.kernel (Ne.symm hsem)]
  refine ⟨?_, ?_⟩
  · show 0 ≤ ((s.kernel.v none sem').1.semaphores sem).value
    rw [hvalue]
    split <;> omega
  · show Total 0 _ (((s.kernel.v none sem').1.semaphores sem).value - supply d)
    rw [hvalue, hsupply, Int.add_sub_add_right]
    refine h.total.congr fun u => ?_
    unfold share
    rw [(v_kept s.kernel sem' none).2.2.1]

end Steps

/-- What one step preserves. -/
theorem Balanced.step (h : Balanced sem supply weight s)
    (htokens : Tokens prog sem regular supply weight) (hasked : Asked prog s)
    (hone : ∀ t u, share sem weight s' t ≠ 0 → share sem weight s' u ≠ 0 → t = u)
    (hregular : ∀ i, m = .interrupt i → regular i) (hs : Steps prog s m s' es) :
    Balanced sem supply weight s' := by
  cases hs with
  | call hact hstep => exact h.call htokens hone hact hstep
  | go _ hpc hact => exact h.go htokens hone hpc hact
  | kernel hinside hstep => exact h.kernel htokens hasked hone hinside hstep
  | @interrupt i data events sem' k' effects hhandler hstep =>
      obtain rfl : k' = (s.kernel.v none sem').1 := by
        simp only [Threads.step] at hstep
        split at hstep
        · exact (Prod.mk.inj (Option.some.inj hstep)).1.symm
        · cases hstep
      exact h.interrupt htokens (hregular i rfl) hhandler
  | @device i data events hhandler =>
      have hsupply : supply data = supply s.data := by
        rw [htokens.handler (hregular i rfl) hhandler]
        simp
      refine ⟨h.nonneg, ?_⟩
      show Total 0 _ ((s.kernel.semaphores sem).value - supply data)
      rw [hsupply]
      exact h.total

/-- **The semaphore has what is owed to it**, in every run where one thread at a time owes
anything. -/
theorem Tokens.of_run (htokens : Tokens prog sem regular supply weight)
    (hone : ∀ {tr s}, Run prog.step ok (prog.boot main initialValue data) tr s →
      ∀ t u, share sem weight s t ≠ 0 → share sem weight s u ≠ 0 → t = u)
    (hregular : ∀ {tr s i}, ok tr s (.interrupt i) → regular i)
    (hvalue : initialValue sem = supply data) (hnonneg : 0 ≤ initialValue sem)
    (hrun : Run prog.step ok (prog.boot main initialValue data) tr s) :
    Balanced sem supply weight s := by
  suffices h : Run prog.step ok (prog.boot main initialValue data) tr s ∧
      Balanced sem supply weight s from h.2
  refine hrun.invariant (I := fun tr s => Run prog.step ok (prog.boot main initialValue data) tr s ∧
    Balanced sem supply weight s) ⟨.start, hnonneg, main, fun u _ => htokens.start _, ?_⟩ ?_
  · show initialValue sem - supply data = weight prog.start _
    rw [htokens.start, hvalue, Int.sub_self]
  · rintro tr s m s' es ⟨hrun, h⟩ hok hs
    have hrun' := hrun.snoc hok hs
    refine ⟨hrun', h.step htokens (asked_of_run hrun) (hone hrun') ?_ (.of_step hs)⟩
    rintro i rfl
    exact hregular hok

/-- The same where a lock sees to it. -/
theorem Tokens.of_locked_run (htokens : Tokens prog sem regular supply weight)
    (howed : OwedInside prog lock critical weight) (hguarded : prog.Guarded lock critical)
    (hregular : ∀ {tr s i}, ok tr s (.interrupt i) → regular i)
    (hvalue : initialValue sem = supply data) (hnonneg : 0 ≤ initialValue sem)
    (hrun : Run prog.step ok (prog.boot main initialValue data) tr s) :
    Balanced sem supply weight s :=
  htokens.of_run (fun hrun _ _ => howed.one (asked_of_run hrun) (hguarded.inLock hrun)) hregular
    hvalue hnonneg hrun

end Program

end Nachos.Threads
