import Nachos.Restaurant.Orders
import Mathlib.Data.Fintype.Card

/-!
# Orders are packed once

A customer marks its package as not ready before its order taker has registered the order.
Another order taker that looks for something to pack has other locks than these two, and
may find the package; when the order is registered afterwards it is packed once more.
As long as this does not happen every order is packed at most once, behind its
registration, and `UnpackedFood` counts the orders that are still to be packed.
-/

namespace Nachos.Restaurant

open Nachos.Lib Nachos.Threads

variable {n : Size}

/-- An order is packed when it has been registered and for the first time, and its package
does not become not ready again. -/
def InOrder (before : List (Event n)) (e : Event n) : Prop :=
  ∀ c, (e.packs c = true → accepted before c = true ∧ isPacked before c = false) ∧
    (e.undoes c = true → isPacked before c = false)

/-- The orders that are registered and not packed. -/
def unpacked (log : List (Event n)) : Finset (Fin n.custs) :=
  Finset.univ.filter fun c => accepted log c = true ∧ isPacked log c = false

/-- **Each order is packed once.** -/
structure PackedOnce (log : List (Event n)) (d : Data n) : Prop where
  inOrder : Always InOrder log
  unpackedFood : d.orders.unpackedFood = (unpacked log).card

theorem mem_unpacked {log : List (Event n)} {c : Fin n.custs} :
    c ∈ unpacked log ↔ accepted log c = true ∧ isPacked log c = false := by
  rw [unpacked, Finset.mem_filter, and_iff_right (Finset.mem_univ c)]

/-! ## Counting -/

section Counting

variable {log events : List (Event n)} {c : Fin n.custs}

theorem unpacked_same (haccepted : ∀ c, accepted events c = false)
    (hpacked : ∀ c, isPacked events c = false) : unpacked (log ++ events) = unpacked log := by
  ext c
  rw [mem_unpacked, mem_unpacked, accepted_append, isPacked_append, haccepted, hpacked,
    Bool.or_false, Bool.or_false]

/-- A registered order is packed. -/
theorem unpacked_packed (haccepted : ∀ c, accepted events c = false)
    (hpacked : ∀ c', isPacked events c' = decide (c = c')) :
    unpacked (log ++ events) = (unpacked log).erase c := by
  ext c'
  rw [Finset.mem_erase, mem_unpacked, mem_unpacked, accepted_append, isPacked_append, haccepted,
    hpacked, Bool.or_false]
  by_cases hc : c = c'
  · simp [hc]
  · simp [hc, Ne.symm hc]

/-- An order is registered. -/
theorem unpacked_registered (haccepted : ∀ c', accepted events c' = decide (c = c'))
    (hpacked : ∀ c, isPacked events c = false) (hnew : isPacked log c = false) :
    unpacked (log ++ events) = insert c (unpacked log) := by
  ext c'
  rw [Finset.mem_insert, mem_unpacked, mem_unpacked, accepted_append, isPacked_append, haccepted,
    hpacked, Bool.or_false]
  by_cases hc : c = c'
  · subst hc
    simp [hnew]
  · simp [hc, Ne.symm hc]

/-- An order is registered and packed. -/
theorem unpacked_served (haccepted : ∀ c', accepted events c' = decide (c = c'))
    (hpacked : ∀ c', isPacked events c' = decide (c = c')) (hnew : accepted log c = false) :
    unpacked (log ++ events) = unpacked log := by
  ext c'
  rw [mem_unpacked, mem_unpacked, accepted_append, isPacked_append, haccepted, hpacked]
  by_cases hc : c = c'
  · subst hc
    simp [hnew]
  · simp [hc]

end Counting

/-! ## Events in order -/

section InOrder

variable {log : List (Event n)} {e : Event n} {c : Fin n.custs}

/-- Nothing is packed, and no package becomes not ready. -/
theorem inOrder_of_none (h : ∀ c, e.packs c = false ∧ e.undoes c = false) : InOrder log e := by
  intro c
  rw [(h c).1, (h c).2]
  exact ⟨nofun, nofun⟩

theorem inOrder_packed {o : Fin n.ots} {units : CookFood → ℤ} (haccepted : accepted log c = true)
    (hnew : isPacked log c = false) : InOrder log (.packed o c units) := by
  intro c'
  refine ⟨fun hc => ?_, nofun⟩
  obtain rfl : c = c' := of_decide_eq_true hc
  exact ⟨haccepted, hnew⟩

theorem inOrder_notReady (hnew : isPacked log c = false) : InOrder log (.marked c .notReady) := by
  intro c'
  refine ⟨nofun, fun hc => ?_⟩
  obtain rfl : c = c' := of_decide_eq_true hc
  exact hnew

theorem inOrder_marked {status : PackageStatus} (hstatus : status ≠ .notReady) :
    InOrder log (.marked c status) := by
  refine inOrder_of_none fun c' => ⟨rfl, ?_⟩
  cases status with
  | notReady => exact absurd rfl hstatus
  | none | ready | done | serve => rfl

theorem inOrder_append {events : List (Event n)} (h : Always InOrder log)
    (hevents : ∀ e ∈ events, ∀ c, e.packs c = false ∧ e.undoes c = false) :
    Always InOrder (log ++ events) := by
  intro before e after heq
  rcases append_eq_append_cons heq with ⟨after', rfl, -⟩ | ⟨before', rfl⟩
  · exact h before e after' rfl
  · exact inOrder_of_none (hevents e (List.mem_append_right _ List.mem_cons_self))

/-- What is packed has been registered. -/
theorem accepted_of_isPacked (h : Always InOrder log) (hpacked : isPacked log c = true) :
    accepted log c = true := by
  obtain ⟨e, he, hpacks⟩ := List.any_eq_true.mp hpacked
  obtain ⟨before, after, rfl⟩ := List.append_of_mem he
  rw [accepted_append, ((h before e after rfl c).1 hpacks).1, Bool.true_or]

end InOrder

/-! ## Steps -/

section Steps

variable {s s' : Scene n} {log : List (Event n)} {a : Rand} {op : Call n} {next : Point n}
  {d' : Data n} {events : List (Event n)} {o : Fin n.ots} {c i : Fin n.custs}

/-- Orders are packed once, and a package that is packed is not ready only as long as the
order taker has not marked it. -/
structure Packing (log : List (Event n)) (s : Scene n) : Prop extends PackedOnce log s.data where
  status : ∀ c, isPacked log c = true → (s.data.orders.packages c).status = .notReady →
    ∃ o, (s.point (.ordertaker o)).hands = some c

/-- An order taker that has not marked the package that it has packed has `FoodTableLock`. -/
theorem Sound.owner_of_hands (h : Sound s) (hhands : (s.point (.ordertaker o)).hands = some c) :
    (s.kernel.locks .foodTable).lockerOwner = some (.ordertaker o) := by
  have hheld : .foodTable ∈ Restaurant.held (.ordertaker o) (s.point (.ordertaker o)) := by
    generalize s.point (.ordertaker o) = p at hhands
    unfold Point.hands at hhands
    split at hhands
    · exact List.mem_singleton_self _
    · exact List.mem_cons_of_mem _ (List.mem_singleton_self _)
    · cases hhands
  refine h.held.owner h.asked hheld fun hact => ?_
  have hcalls := Calls.of_act hact
  generalize s.point (.ordertaker o) = next at hcalls hhands
  cases hcalls with
  | ordertaker hact =>
      rw [ordertaker_call_hands hact (by rw [hhands]; nofun)]
      exact ⟨nofun, nofun⟩

/-- While an order taker packs or registers, every package that is packed is marked. -/
theorem Packing.marked (h : Packing log s) (hsound : Sound s)
    (hpc : s.kernel.pc s.kernel.currentThread = .outside)
    (hheld : .foodTable ∈ held s.kernel.currentThread (s.point s.kernel.currentThread))
    (hnot : (s.point s.kernel.currentThread).hands = none)
    (hstatus : (s.data.orders.packages c).status = .notReady) : isPacked log c = false := by
  refine Bool.eq_false_iff.mpr fun hpacked => ?_
  obtain ⟨o, hhands⟩ := h.status c hpacked hstatus
  have howner := hsound.owner hpc hheld
  rw [hsound.owner_of_hands hhands] at howner
  rw [← Option.some.inj howner, hhands] at hnot
  cases hnot

/-- The package that is found is not ready. -/
theorem status_of_findPack {d : Data n} (h : findPack d = some i) :
    (d.orders.packages i).status = .notReady := by
  have hfound := List.find?_some h
  exact (of_decide_eq_true hfound).1

/-- No order is given, registered or packed. -/
theorem Packing.keep (h : Packing log s) (haccepted : ∀ c, accepted events c = false)
    (hpacked : ∀ c, isPacked events c = false)
    (hevents : Always InOrder (log ++ events))
    (hfood : d'.orders.unpackedFood = s.data.orders.unpackedFood)
    (hstatus : ∀ c, (d'.orders.packages c).status = .notReady →
      (s.data.orders.packages c).status = .notReady ∧
        ∀ o, (s.point (.ordertaker o)).hands = some c →
          (Function.update s.point s.kernel.currentThread next (.ordertaker o)).hands = some c) :
    Packing (log ++ events)
      ⟨s.kernel, Function.update s.point s.kernel.currentThread next, d'⟩ where
  inOrder := hevents
  unpackedFood := by
    rw [unpacked_same haccepted hpacked]
    exact hfood.trans h.unpackedFood
  status c hc hnot := by
    rw [isPacked_append, hpacked, Bool.or_false] at hc
    obtain ⟨hold, hhands⟩ := hstatus c hnot
    obtain ⟨o, ho⟩ := h.status c hc hold
    exact ⟨o, hhands o ho⟩

theorem mark_status (i c : Fin n.custs) (status : PackageStatus) (d : Data n) :
    ((mark i status d).orders.packages c).status =
      if c = i then status else (d.orders.packages c).status := by
  have heq : (mark i status d).orders.packages c =
      if c = i then (d.orders.packages i).setStatus status else d.orders.packages c :=
    Function.update_apply ..
  rw [heq]
  split <;> rfl

theorem pack_status (o : Fin n.ots) (i c : Fin n.custs) (d : Data n) :
    ((pack o i d).orders.packages c).status = (d.orders.packages c).status := by
  have heq : (pack o i d).orders.packages c =
      if c = i then (d.orders.packages i).setOT o else d.orders.packages c :=
    Function.update_apply ..
  rw [heq]
  split
  · rename_i hc
    rw [hc]
    rfl
  · rfl

theorem giveOrder_status (myOT : Option (Fin n.ots)) (d : Data n) :
    ((giveOrder c myOT d a).orders.packages i).status =
      if i = c then .notReady else (d.orders.packages i).status := by
  have heq : (giveOrder c myOT d a).orders.packages i = if i = c then
      .addPackage (fun i => a.randOrder (Fin.castSucc i)) a.choice c else d.orders.packages i := by
    cases myOT <;> exact Function.update_apply ..
  rw [heq]
  split <;> rfl

theorem giveOrder_unpackedFood (myOT : Option (Fin n.ots)) (d : Data n) :
    (giveOrder c myOT d a).orders.unpackedFood = d.orders.unpackedFood := by
  cases myOT <;> rfl

/-- A customer gives its order. -/
theorem Packing.order (h : Packing log s) (hreg : Registered log s) {myOT : Option (Fin n.ots)}
    {choice : Choice} (hpoint : s.point (.customer c) = .customer (.ordering myOT)) :
    Packing (log ++ [Event.ordered c myOT, .marked c .notReady])
      ⟨s.kernel, Function.update s.point (.customer c) (.customer (.ordered myOT choice)),
        giveOrder c myOT s.data a⟩ := by
  have hnew : isPacked log c = false := by
    refine Bool.eq_false_iff.mpr fun hpacked => ?_
    have hacc := accepted_of_isPacked h.inOrder hpacked
    rw [hreg.not_accepted (by rw [hpoint]; rfl)] at hacc
    cases hacc
  have hpacked : ∀ c', isPacked [.ordered c myOT, .marked c .notReady] c' = false := fun _ => rfl
  refine ⟨⟨?_, ?_⟩, ?_⟩
  · rw [List.append_cons, always_snoc, always_snoc]
    refine ⟨⟨h.inOrder, inOrder_of_none fun _ => ⟨rfl, rfl⟩⟩, inOrder_notReady ?_⟩
    rw [isPacked_append, hnew]
    rfl
  · rw [unpacked_same (fun _ => rfl) hpacked]
    exact (giveOrder_unpackedFood myOT s.data).trans h.unpackedFood
  · intro c' hc' hnot
    rw [isPacked_append, hpacked, Bool.or_false] at hc'
    dsimp only at hnot ⊢
    rw [giveOrder_status] at hnot
    have hne : c' ≠ c := by
      rintro rfl
      rw [hnew] at hc'
      cases hc'
    rw [if_neg hne] at hnot
    obtain ⟨o, ho⟩ := h.status c' hc' hnot
    exact ⟨o, by rwa [Function.update_of_ne (by nofun)]⟩

/-- An order taker packs a registered order. -/
theorem Packing.packs (h : Packing log s) (hsound : Sound s)
    (hpc : s.kernel.pc s.kernel.currentThread = .outside)
    (hu : s.kernel.currentThread = .ordertaker o)
    (hpoint : s.point (.ordertaker o) = .ordertaker .packing) (hfind : findPack s.data = some i)
    (hregistered : accepted log i = true) (haccepted : ∀ c, accepted events c = false)
    (hpacked : ∀ c, isPacked events c = decide (i = c))
    (hevents : isPacked log i = false → Always InOrder (log ++ events))
    (hfood : d'.orders.unpackedFood = s.data.orders.unpackedFood + -1)
    (hother : ∀ c, c ≠ i → (d'.orders.packages c).status = (s.data.orders.packages c).status)
    (hself : (d'.orders.packages i).status = .notReady → next.hands = some i) :
    Packing (log ++ events) ⟨s.kernel, Function.update s.point (.ordertaker o) next, d'⟩ := by
  have hmarked : ∀ {c}, (s.data.orders.packages c).status = .notReady →
      isPacked log c = false := by
    intro c hstatus
    refine h.marked hsound hpc ?_ ?_ hstatus <;> rw [hu, hpoint]
    · exact List.mem_singleton_self _
    · rfl
  have hnew := hmarked (status_of_findPack hfind)
  refine ⟨⟨hevents hnew, ?_⟩, ?_⟩
  · have hcard := Finset.card_erase_add_one (mem_unpacked.mpr ⟨hregistered, hnew⟩)
    rw [unpacked_packed haccepted hpacked]
    dsimp only
    rw [hfood, h.unpackedFood]
    omega
  · intro c hc hnot
    by_cases hci : c = i
    · subst hci
      refine ⟨o, ?_⟩
      dsimp only
      rw [Function.update_self]
      exact hself hnot
    · rw [isPacked_append, hpacked, decide_eq_false (Ne.symm hci), Bool.or_false] at hc
      have hstatus : (s.data.orders.packages c).status = .notReady := (hother c hci) ▸ hnot
      rw [hmarked hstatus] at hc
      cases hc

/-- An order taker registers an order, which it may pack at once. -/
theorem Packing.register (h : Packing log s) (hreg : Registered log s) (hsound : Sound s)
    (hpc : s.kernel.pc s.kernel.currentThread = .outside)
    (hu : s.kernel.currentThread = .ordertaker o)
    (hpoint : s.point (.ordertaker o) = .ordertaker (.accepting c))
    (hevents : isPacked log c = false → Always InOrder (log ++ events))
    (hfood : isPacked log c = false → accepted log c = false →
      d'.orders.unpackedFood = (unpacked (log ++ events)).card)
    (hother : ∀ c', c' ≠ c → isPacked events c' = false ∧
      (d'.orders.packages c').status = (s.data.orders.packages c').status)
    (hself : isPacked events c = true → (d'.orders.packages c).status ≠ .notReady) :
    Packing (log ++ events) ⟨s.kernel, Function.update s.point (.ordertaker o) next, d'⟩ := by
  obtain ⟨-, hlate⟩ := hreg.accepting o c (by rw [hpoint]; rfl)
  have hnew : isPacked log c = false := by
    refine Bool.eq_false_iff.mpr fun hpacked => ?_
    rw [accepted_of_isPacked h.inOrder hpacked] at hlate
    cases hlate
  refine ⟨⟨hevents hnew, hfood hnew hlate⟩, ?_⟩
  intro c' hc' hnot
  exfalso
  rw [isPacked_append, Bool.or_eq_true] at hc'
  by_cases hcc : c' = c
  · subst hcc
    rcases hc' with hc' | hc'
    · rw [hnew] at hc'
      cases hc'
    · exact hself hc' hnot
  · obtain ⟨hpacked, hstatus⟩ := hother c' hcc
    have hold : isPacked log c' = false := by
      refine h.marked hsound hpc ?_ ?_ (hstatus ▸ hnot) <;> rw [hu, hpoint]
      · exact List.mem_cons_self
      · rfl
    rw [hold, hpacked] at hc'
    exact hc'.elim Bool.false_ne_true Bool.false_ne_true

/-- An order taker packs an order that is eaten here. -/
theorem Packing.readies (h : Packing log s) (hsound : Sound s)
    (hpc : s.kernel.pc s.kernel.currentThread = .outside)
    (hu : s.kernel.currentThread = .ordertaker o)
    (hpoint : s.point (.ordertaker o) = .ordertaker .packing) (hfind : findPack s.data = some i)
    (hregistered : accepted log i = true) (units : CookFood → ℤ) :
    Packing (log ++ [Event.packed o i units, .marked i .ready])
      ⟨s.kernel, Function.update s.point (.ordertaker o) (.ordertaker .packed),
        (mark i .ready (addUnpacked (pack o i s.data) (-1))).setOTStatus o .available⟩ := by
  refine h.packs hsound hpc hu hpoint hfind hregistered (fun _ => rfl) (fun _ => Bool.or_false _)
    ?_ rfl ?_ ?_
  · intro hnew
    rw [List.append_cons, always_snoc, always_snoc]
    exact ⟨⟨h.inOrder, inOrder_packed hregistered hnew⟩, inOrder_marked nofun⟩
  · intro c hc
    refine (mark_status i c .ready (addUnpacked (pack o i s.data) (-1))).trans ?_
    rw [if_neg hc]
    exact pack_status o i c s.data
  · intro hnot
    have hready := (mark_status i i .ready (addUnpacked (pack o i s.data) (-1))).trans
      (if_pos rfl)
    cases hready.symm.trans hnot

/-- An order taker registers an order and packs it at once. -/
theorem Packing.serves (h : Packing log s) (hreg : Registered log s) (hsound : Sound s)
    (hpc : s.kernel.pc s.kernel.currentThread = .outside)
    (hu : s.kernel.currentThread = .ordertaker o)
    (hpoint : s.point (.ordertaker o) = .ordertaker (.accepting c)) (units : CookFood → ℤ) :
    Packing (log ++ [Event.accepted o c, .packed o c units, .marked c .done])
      ⟨s.kernel, Function.update s.point (.ordertaker o) (.ordertaker .accepted),
        mark c .done (pack o c s.data)⟩ := by
  refine h.register hreg hsound hpc hu hpoint ?_ ?_ ?_ ?_
  · intro hnew
    rw [List.append_cons, List.append_cons, always_snoc, always_snoc, always_snoc]
    refine ⟨⟨⟨h.inOrder, inOrder_of_none fun _ => ⟨rfl, rfl⟩⟩, inOrder_packed ?_ ?_⟩,
      inOrder_marked nofun⟩
    · rw [accepted_append]
      simp [accepted, Event.accepts]
    · rw [isPacked_append, hnew]
      rfl
  · intro _ hlate
    have hsame : unpacked (log ++ [Event.accepted o c, .packed o c units, .marked c .done]) =
        unpacked log := by
      refine unpacked_served (fun c' => ?_) (fun c' => ?_) hlate
      · simp [accepted, Event.accepts]
      · simp [isPacked, Event.packs]
    rw [hsame]
    exact h.unpackedFood
  · intro c' hc
    refine ⟨(Bool.or_false _).trans (decide_eq_false (Ne.symm hc)), ?_⟩
    exact (mark_status c c' .done _).trans ((if_neg hc).trans (pack_status o c c' s.data))
  · intro _ hnot
    cases ((mark_status c c .done (pack o c s.data)).trans (if_pos rfl)).symm.trans hnot

/-- An order taker registers an order that is packed later. -/
theorem Packing.registers (h : Packing log s) (hreg : Registered log s) (hsound : Sound s)
    (hpc : s.kernel.pc s.kernel.currentThread = .outside)
    (hu : s.kernel.currentThread = .ordertaker o)
    (hpoint : s.point (.ordertaker o) = .ordertaker (.accepting c)) :
    Packing (log ++ [Event.accepted o c, .marked c .notReady])
      ⟨s.kernel, Function.update s.point (.ordertaker o) (.ordertaker .accepted),
        addUnpacked (mark c .notReady s.data) 1⟩ := by
  refine h.register hreg hsound hpc hu hpoint ?_ ?_ ?_ nofun
  · intro hnew
    rw [List.append_cons, always_snoc, always_snoc]
    refine ⟨⟨h.inOrder, inOrder_of_none fun _ => ⟨rfl, rfl⟩⟩, inOrder_notReady ?_⟩
    rw [isPacked_append, hnew]
    rfl
  · intro hnew hlate
    have hout : c ∉ unpacked log := fun hmem => by
      rw [(mem_unpacked.mp hmem).1] at hlate
      cases hlate
    have hone : unpacked (log ++ [Event.accepted o c, .marked c .notReady]) =
        insert c (unpacked log) :=
      unpacked_registered (fun _ => Bool.or_false _) (fun _ => rfl) hnew
    have hold := h.unpackedFood
    rw [hone, Finset.card_insert_of_notMem hout]
    show s.data.orders.unpackedFood + 1 = _
    omega
  · intro c' hc
    exact ⟨rfl, (mark_status c c' .notReady s.data).trans (if_neg hc)⟩

/-- An order taker marks the package that it has packed. -/
theorem Packing.hands (h : Packing log s) (hu : s.kernel.currentThread = .ordertaker o)
    (hpoint : s.point (.ordertaker o) = .ordertaker (.handingHeld i)) :
    Packing (log ++ [Event.marked i .done])
      ⟨s.kernel, Function.update s.point (.ordertaker o) (.ordertaker .handed),
        mark i .done s.data⟩ := by
  rw [← hu]
  refine h.keep (fun _ => rfl) (fun _ => rfl)
    (always_snoc.mpr ⟨h.inOrder, inOrder_marked nofun⟩) rfl ?_
  intro c hnot
  rw [mark_status] at hnot
  split at hnot
  · cases hnot
  · rename_i hc
    refine ⟨hnot, fun o' ho' => ?_⟩
    have hne : Person.ordertaker o' ≠ .ordertaker o := by
      intro heq
      rw [heq, hpoint] at ho'
      exact hc (Option.some.inj ho').symm
    rwa [hu, Function.update_of_ne hne]

theorem Packing.go (h : Packing log s) (hreg : Registered log s) (hsound : Sound s)
    (hpc : s.kernel.pc s.kernel.currentThread = .outside)
    (hgo : OrderGo s.data d' s.kernel.currentThread (s.point s.kernel.currentThread) next events)
    (hok : s.point s.kernel.currentThread = .ordertaker .packing →
      ¬ s.data.orders.unpackedFood < 1 → ∀ i, findPack s.data = some i → accepted log i = true) :
    Packing (log ++ events)
      ⟨s.kernel, Function.update s.point s.kernel.currentThread next, d'⟩ := by
  generalize hu : s.kernel.currentThread = u at hgo
  generalize hp : s.point u = p at hgo
  rw [hu, hp] at hok
  cases hgo with
  | ordered hd =>
      subst hd
      exact h.order hreg hp
  | @packed o i units hfood hfind hd =>
      subst hd
      have hacc := hok rfl hfood i hfind
      refine h.packs hsound hpc hu hp hfind hacc (fun _ => rfl) (fun _ => Bool.or_false _) ?_ rfl
        ?_ (fun _ => rfl)
      · exact fun hnew => always_snoc.mpr ⟨h.inOrder, inOrder_packed hacc hnew⟩
      · exact fun c _ => pack_status o i c s.data
  | readied hfood hfind hd =>
      subst hd
      exact h.readies hsound hpc hu hp hfind (hok rfl hfood _ hfind) _
  | served hd =>
      subst hd
      exact h.serves hreg hsound hpc hu hp _
  | registered hd =>
      subst hd
      exact h.registers hreg hsound hpc hu hp
  | handed hd =>
      subst hd
      exact h.hands hu hp
  | @carried w p next i status hstatus hd =>
      subst hd
      rw [← hu]
      refine h.keep (fun _ => rfl) (fun _ => rfl)
        (always_snoc.mpr ⟨h.inOrder, inOrder_marked hstatus⟩) rfl ?_
      intro c hnot
      rw [mark_status] at hnot
      split at hnot
      · exact absurd hnot hstatus
      · exact ⟨hnot, fun o' ho' => by rwa [hu, Function.update_of_ne (by nofun)]⟩
  | other horders hnone _ _ _ hhands _ =>
      subst hp hu
      refine h.keep hnone.accepted hnone.isPacked ?_ (congrArg _ horders) ?_
      · refine inOrder_append h.inOrder fun e he c => ⟨?_, hnone.inOrder e he c⟩
        exact Bool.eq_false_iff.mpr (List.any_eq_false.mp (hnone.isPacked c) e he)
      · intro c hnot
        rw [horders] at hnot
        exact ⟨hnot, fun o ho => (see_update Point.hands hhands _).trans ho⟩

theorem Packing.call {k' : Kernel (Person n) Empty (LockName n) (ConditionName n)}
    (h : Packing log s) (hhands : next.hands = (s.point s.kernel.currentThread).hands) :
    Packing log ⟨k', Function.update s.point s.kernel.currentThread next, s.data⟩ where
  inOrder := h.inOrder
  unpackedFood := h.unpackedFood
  status c hc hnot := by
    obtain ⟨o, ho⟩ := h.status c hc hnot
    exact ⟨o, (see_update Point.hands hhands _).trans ho⟩

/-! ### Every run -/

/-- The order that the current thread packs when it goes on. -/
def packsNext (s : Scene n) : Option (Fin n.custs) :=
  match s.point s.kernel.currentThread with
  | .ordertaker .packing => if s.data.orders.unpackedFood < 1 then none else findPack s.data
  | _ => none

theorem packsNext_of (hpoint : s.point s.kernel.currentThread = .ordertaker .packing)
    (hfood : ¬ s.data.orders.unpackedFood < 1) (hfind : findPack s.data = some i) :
    packsNext s = some i := by
  rw [packsNext, hpoint]
  exact (if_neg hfood).trans hfind

theorem of_packsNext (h : packsNext s = some i) :
    s.point s.kernel.currentThread = .ordertaker .packing ∧ ¬ s.data.orders.unpackedFood < 1 ∧
      findPack s.data = some i := by
  unfold packsNext at h
  split at h
  · rename_i hpoint
    split at h
    · cases h
    · rename_i hfood
      exact ⟨hpoint, hfood, h⟩
  · cases h

/-- An order that is packed behind the counter is registered. -/
def onlyRegistered (tr : Trace n) (s : Scene n) : Turn n → Prop
  | .act _ => ∀ i, packsNext s = some i → accepted (Program.ownLog tr.flatten) i = true
  | .kernel _ | .interrupt _ => True

instance (tr : Trace n) (s : Scene n) (m : Turn n) : Decidable (onlyRegistered tr s m) :=
  match m with
  | .act _ => decidable_of_iff
      ((packsNext s).all (accepted (Program.ownLog tr.flatten)) = true) (by
        rw [Option.all_eq_true]
        rfl)
  | .kernel _ | .interrupt _ => .isTrue trivial

variable {m : Turn n}
  {es : List (Threads.Event (Person n) Empty (LockName n) (ConditionName n) (Event n))}
  {tr : Trace n} {cash : ℤ} {food inventory : ℕ}

/-- What one step preserves. -/
theorem packing_step (h : Packing (Program.ownLog tr.flatten) s)
    (hreg : Registered (Program.ownLog tr.flatten) s) (hsound : Sound s)
    (hok : onlyRegistered tr s m) (hs : Program.Steps (restaurant n) s m s' es) :
    Packing (Program.ownLog tr.flatten ++ Program.ownLog es) s' := by
  cases hs with
  | call hact hstep =>
      rw [Program.ownLog_map, List.append_nil]
      exact h.call (calls_orders (.of_act hact)).hands
  | go _ hpc hact =>
      rw [Program.ownLog_own]
      refine h.go hreg hsound hpc (goes_orders (.of_act hact)) fun hpoint hfood i hfind => ?_
      exact hok i (packsNext_of hpoint hfood hfind)
  | kernel _ _ =>
      rw [Program.ownLog_map, List.append_nil]
      exact ⟨h.toPackedOnce, h.status⟩
  | @interrupt i | @device i => exact i.elim

theorem packing_of_run
    (hrun : Run (restaurant n).step onlyRegistered (opened n cash food inventory) tr s) :
    Packing (Program.ownLog tr.flatten) s := by
  refine hrun.invariant_with (I := fun tr s => Packing (Program.ownLog tr.flatten) s)
    (fun hrun => And.intro (sound_of_run hrun) (registered_of_run hrun)) ?_ ?_
  · refine ⟨⟨always_nil, ?_⟩, nofun⟩
    have hnone : unpacked ([] : List (Event n)) = ∅ := by
      ext c
      simp [mem_unpacked, accepted]
    show (0 : ℤ) = _
    rw [Program.ownLog, List.flatten_nil, List.filterMap_nil, hnone]
    rfl
  · rintro tr s m s' es ⟨hsound, hreg⟩ h hok hs
    rw [List.flatten_append, List.flatten_singleton, Program.ownLog_append]
    exact packing_step h hreg hsound hok (.of_step hs)

/-- Who packs an order that is not registered does not pack in order. -/
theorem packs_of_packsNext (hnext : packsNext s = some i)
    (hs : Program.Steps (restaurant n) s (.act a) s' es) :
    ∃ o units rest, Program.ownLog es = .packed o i units :: rest := by
  obtain ⟨hpoint, hfood, hfind⟩ := of_packsNext hnext
  cases hs with
  | call hact hstep =>
      have hcalls := Calls.of_act hact
      rw [hpoint] at hcalls
      generalize s.kernel.currentThread = u at hcalls
      cases hcalls with
      | ordertaker hcall =>
          simp only [simulateOrdertaker, if_neg hfood, hfind] at hcall
          split at hcall <;> cases hcall
  | go _ _ hact =>
      have hgoes := Goes.of_act hact
      rw [hpoint] at hgoes
      generalize s.kernel.currentThread = u at hgoes
      rw [Program.ownLog_own]
      cases hgoes with
      | ordertaker hgo =>
          simp only [simulateOrdertaker, if_neg hfood, hfind] at hgo
          split at hgo
          all_goals
            cases hgo
            exact ⟨_, _, _, rfl⟩

/-- **Orders are packed once**, behind their registration and with `UnpackedFood` counting those
left, as long as no order taker finds an order that is marked as not ready and not registered
yet; and not any more when one does. -/
theorem orders_packed_once
    (hrun : Run (restaurant n).step onlyRegistered (opened n cash food inventory) tr s) :
    PackedOnce (Program.ownLog tr.flatten) s.data ∧
      ∀ m s' es, (restaurant n).step s m = some (s', es) →
        (PackedOnce (Program.ownLog (tr ++ [es]).flatten) s'.data ↔ onlyRegistered tr s m) := by
  refine ⟨(packing_of_run hrun).toPackedOnce, fun m s' es hs => ⟨fun hafter => ?_, fun hok => ?_⟩⟩
  · cases m with
    | act a =>
        intro i hnext
        obtain ⟨o, units, rest, hes⟩ := packs_of_packsNext hnext (.of_step hs)
        have hin := hafter.inOrder (Program.ownLog tr.flatten) (.packed o i units) rest (by
          rw [List.flatten_append, List.flatten_singleton, Program.ownLog_append, hes])
        exact ((hin i).1 (decide_eq_true rfl)).1
    | kernel label => trivial
    | interrupt i => exact i.elim
  · exact (packing_of_run (.snoc hrun hok hs)).toPackedOnce

/-! ### Samples -/

/-- The order of the only customer has been registered and packed. -/
theorem orders_packed_once_sample : ∃ tr s,
    Run (restaurant oneSeat).step onlyRegistered (opened oneSeat 0 0 3) tr s ∧
      isPacked (Program.ownLog tr.flatten) (0 : Fin oneSeat.custs) = true ∧
      PackedOnce (Program.ownLog tr.flatten) s.data := by
  have hexec : (execBy (restaurant oneSeat).step onlyRegistered [] (opened oneSeat 0 0 3)
      (List.replicate 90 (Program.onward ⟨4, fun i => if i = 5 then 1 else 0⟩))).map
      (fun r => isPacked (Program.ownLog r.1.flatten) 0) = some true := by decide +kernel
  obtain ⟨⟨tr, s⟩, hexec, hpacked⟩ := Option.map_eq_some_iff.mp hexec
  have hrun := Run.of_execBy .start hexec
  exact ⟨tr, s, hrun, hpacked, (orders_packed_once hrun).1⟩

/-- Two customers and two order takers. -/
abbrev twoOrders : Size := ⟨1, 2, 2, 0, 0, rfl⟩

/-- An order is packed before it has been registered, and is packed again afterwards. The
order of the other customer is not packed, but `UnpackedFood` is 0. -/
theorem order_packed_twice : ∃ tr s,
    Run (restaurant twoOrders).step (restaurant twoOrders).uninterrupted (opened twoOrders 0 0 3)
        tr s ∧
      ((Program.ownLog tr.flatten).filter fun e => e.packs 0 || e.accepts 0).map
        (fun e => e.packs 0) = [true, false, true] ∧
      (s.kernel.locks .foodTable).lockerOwner = none ∧ s.data.orders.unpackedFood = 0 ∧
      accepted (Program.ownLog tr.flatten) (1 : Fin twoOrders.custs) = true ∧
      isPacked (Program.ownLog tr.flatten) (1 : Fin twoOrders.custs) = false := by
  have hexec : (execBy (restaurant twoOrders).step (restaurant twoOrders).uninterrupted []
      (opened twoOrders 0 0 3)
      (schedule ⟨0, fun i => if i = 5 then 1 else 0⟩ [(.main, 12), (.ordertaker 0, 9),
        (.ordertaker 1, 9), (.customer 1, 13),
        -- Customer 0 has called `Signal`, and the other order taker packs.
        (.customer 0, 11), (.ordertaker 0, 21), (.customer 0, 5), (.ordertaker 1, 24)])).map
      (fun r => ((((Program.ownLog r.1.flatten).filter fun e => e.packs 0 || e.accepts 0).map
        (fun e => e.packs 0), (r.2.kernel.locks .foodTable).lockerOwner,
        r.2.data.orders.unpackedFood), accepted (Program.ownLog r.1.flatten) 1,
        isPacked (Program.ownLog r.1.flatten) 1)) =
      some (([true, false, true], none, 0), true, false) := by decide +kernel
  obtain ⟨⟨tr, s⟩, hexec, hstate⟩ := Option.map_eq_some_iff.mp hexec
  simp only [Prod.mk.injEq] at hstate
  obtain ⟨⟨hlog, hfree, hfood⟩, haccepted, hpacked⟩ := hstate
  exact ⟨tr, s, Run.of_execBy .start hexec, hlog, hfree, hfood, haccepted, hpacked⟩

end Steps

end Nachos.Restaurant
