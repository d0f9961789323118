import Nachos.Threads.LinkedList
import Mathlib.Tactic.Linarith

/-!
# Runs of a list

Any sequence of operations on a list that starts empty. The allocator chooses the
address of a new element, and chooses one that is not in use.

The elements are a chain at all times. The counter is not their number: `Remove` counts
down even where the list is empty, and `SortedRemove` does not count at all. Where only
the sorted operations and `Remove` are used, the list is sorted and stable, and loses
and duplicates nothing.
-/

namespace Nachos.Threads

open Nachos.Lib

variable {α : Type}

/-- A list and the memory that it is in. -/
structure ListState (α : Type) where
  heap : Heap α
  list : LinkedList

/-- A call, with the address that `new` will return. -/
inductive ListOp (α : Type) where
  | append (element : ℕ) (item : α)
  | prepend (element : ℕ) (item : α)
  | remove
  | sortedInsert (element : ℕ) (item : α) (sortKey : ℤ)
  | sortedRemove

/-- What a call did, as its caller sees it. -/
inductive ListOutcome (α : Type) where
  | put (item : α)
  | removed (result : Option α)
  | inserted (x : Entry α)
  | sortedRemoved (result : Option (Entry α))

namespace ListOp

def step (s : ListState α) : ListOp α → Option (ListState α × ListOutcome α)
  | .append element item =>
      (s.list.append s.heap element item).map fun r => (⟨r.1, r.2⟩, .put item)
  | .prepend element item =>
      (s.list.prepend s.heap element item).map fun r => (⟨r.1, r.2⟩, .put item)
  | .remove =>
      (s.list.remove s.heap).map fun r => (⟨r.1.1, r.1.2⟩, .removed r.2)
  | .sortedInsert element item sortKey =>
      (s.list.sortedInsert s.heap element item sortKey).map fun r =>
        (⟨r.1, r.2⟩, .inserted ⟨item, sortKey⟩)
  | .sortedRemove =>
      (s.list.sortedRemove s.heap).map fun r => (⟨r.1.1, r.1.2⟩, .sortedRemoved r.2)

/-- `new` returns an address that is not in use. -/
def Fresh (s : ListState α) : ListOp α → Prop
  | .append element _ | .prepend element _ | .sortedInsert element _ _ =>
      s.heap.cell element = none
  | .remove | .sortedRemove => True

instance (s : ListState α) : (op : ListOp α) → Decidable (op.Fresh s)
  | .append _ _ | .prepend _ _ | .sortedInsert _ _ _ => inferInstanceAs (Decidable (_ = none))
  | .remove | .sortedRemove => inferInstanceAs (Decidable True)

/-! ## What a call does to the contents -/

def contents (xs : Contents α) : ListOp α → Contents α
  | .append element item => xs ++ [(element, ⟨item, 0⟩)]
  | .prepend element item => (element, ⟨item, 0⟩) :: xs
  | .sortedInsert element item sortKey => xs.insert element ⟨item, sortKey⟩
  | .remove | .sortedRemove => xs.tail

def event (xs : Contents α) : ListOp α → ListOutcome α
  | .append _ item | .prepend _ item => .put item
  | .sortedInsert _ item sortKey => .inserted ⟨item, sortKey⟩
  | .remove => .removed (xs.head?.map fun x => x.2.item)
  | .sortedRemove => .sortedRemoved (xs.head?.map Prod.snd)

/-- What a call adds to the counter. -/
def count : ListOp α → ℤ
  | .append .. | .prepend .. | .sortedInsert .. => 1
  | .remove => -1
  | .sortedRemove => 0

/-- `SortedRemove`, on an empty list or not. -/
theorem sortedRemove_spec {h : Heap α} {l : LinkedList} {xs : Contents α}
    (hr : Represents h l xs) :
    ∃ h' l', l.sortedRemove h = some ((h', l'), xs.head?.map Prod.snd) ∧
      Represents h' l' xs.tail ∧ l'.size = l.size := by
  cases xs with
  | nil => exact ⟨h, l, LinkedList.sortedRemove_nil hr rfl, hr, rfl⟩
  | cons x ys =>
      obtain ⟨h', l', hstep, hr', hsize, -⟩ := LinkedList.sortedRemove_cons hr rfl
      exact ⟨h', l', hstep, hr', hsize⟩

/-- **Every call has a result**, that of the call on the contents. -/
theorem step_spec {s : ListState α} {xs : Contents α} (hr : Represents s.heap s.list xs)
    {op : ListOp α} (hfresh : op.Fresh s) :
    ∃ s', op.step s = some (s', op.event xs) ∧
      Represents s'.heap s'.list (op.contents xs) ∧ s'.list.size = s.list.size + op.count := by
  cases op with
  | append element item =>
      obtain ⟨h', l', hstep, hr', hsize⟩ := LinkedList.append_spec hr hfresh item
      exact ⟨⟨h', l'⟩, by rw [step, hstep]; rfl, hr', hsize⟩
  | prepend element item =>
      obtain ⟨h', l', hstep, hr', hsize⟩ := LinkedList.prepend_spec hr hfresh item
      exact ⟨⟨h', l'⟩, by rw [step, hstep]; rfl, hr', hsize⟩
  | sortedInsert element item sortKey =>
      obtain ⟨h', l', hstep, hr', hsize, -⟩ :=
        LinkedList.sortedInsert_spec hr hfresh ⟨item, sortKey⟩
      exact ⟨⟨h', l'⟩, by rw [step, hstep]; rfl, hr', hsize⟩
  | remove =>
      have hcounted : Represents s.heap { s.list with size := s.list.size - 1 } xs :=
        ⟨hr.chain, hr.last, hr.nodup⟩
      obtain ⟨h', l', hstep, hr', hsize⟩ := sortedRemove_spec hcounted
      refine ⟨⟨h', l'⟩, ?_, hr', hsize⟩
      rw [step, LinkedList.remove, hstep]
      cases xs <;> rfl
  | sortedRemove =>
      obtain ⟨h', l', hstep, hr', hsize⟩ := sortedRemove_spec hr
      exact ⟨⟨h', l'⟩, by rw [step, hstep]; rfl, hr', by rw [hsize]; exact (Int.add_zero _).symm⟩

/-- The same, read from a step. -/
theorem of_step {s s' : ListState α} {e : ListOutcome α} {xs : Contents α}
    (hr : Represents s.heap s.list xs) {op : ListOp α} (hfresh : op.Fresh s)
    (hstep : op.step s = some (s', e)) :
    e = op.event xs ∧ Represents s'.heap s'.list (op.contents xs) ∧
      s'.list.size = s.list.size + op.count := by
  obtain ⟨s'', hstep', hr', hsize⟩ := step_spec hr hfresh
  obtain ⟨rfl, rfl⟩ := Prod.mk.inj (Option.some.inj (hstep.symm.trans hstep'))
  exact ⟨rfl, hr', hsize⟩

end ListOp

/-- Nothing is in memory. -/
def ListState.start : ListState α := ⟨.empty, .create⟩

theorem represents_start :
    Represents (ListState.start : ListState α).heap (ListState.start : ListState α).list [] :=
  ⟨rfl, rfl, List.nodup_nil⟩

/-! ## The counter -/

/-- The call counts what it does. -/
def ListOp.Counts (s : ListState α) : ListOp α → Prop
  | .remove => s.list.first ≠ none
  | .sortedRemove => s.list.first = none
  | .append .. | .prepend .. | .sortedInsert .. => True

instance (s : ListState α) : (op : ListOp α) → Decidable (op.Counts s)
  | .remove => inferInstanceAs (Decidable (_ ≠ _))
  | .sortedRemove => inferInstanceAs (Decidable (_ = _))
  | .append .. | .prepend .. | .sortedInsert .. => inferInstanceAs (Decidable True)

/-- The counter is the number of elements that are reachable from `first`. -/
def SizeRight (s : ListState α) : Prop :=
  ∃ xs, Represents s.heap s.list xs ∧ s.list.size = xs.length

/-- The contents are what is in memory. -/
theorem Heap.Chain.unique {h : Heap α} {xs ys : Contents α} {p : Option ℕ} (hx : h.Chain p xs)
    (hy : h.Chain p ys) : xs = ys := by
  induction xs generalizing p ys with
  | nil =>
      obtain rfl : p = none := hx
      cases ys with
      | nil => rfl
      | cons y ys => exact absurd hy.1 nofun
  | cons x xs ih =>
      obtain ⟨rfl, next, hcell, hrest⟩ := hx
      cases ys with
      | nil => exact absurd hy nofun
      | cons y ys =>
          obtain ⟨hp, next', hcell', hrest'⟩ := hy
          obtain ⟨a, item, key⟩ := x
          obtain ⟨b, item', key'⟩ := y
          obtain rfl : a = b := Option.some.inj hp
          obtain ⟨rfl, rfl, rfl⟩ :=
            ListElement.mk.inj (Option.some.inj (hcell.symm.trans hcell'))
          rw [ih hrest hrest']

/-- **One call keeps the counter right** exactly if it counts what it does. -/
theorem ListOp.size_step_iff {s s' : ListState α} {e : ListOutcome α} (hsize : SizeRight s)
    {op : ListOp α} (hfresh : op.Fresh s) (hstep : op.step s = some (s', e)) :
    SizeRight s' ↔ op.Counts s := by
  obtain ⟨xs, hr, hlen⟩ := hsize
  obtain ⟨-, hr', hcount⟩ := of_step hr hfresh hstep
  have hright : SizeRight s' ↔ (xs.length : ℤ) + op.count = (op.contents xs).length := by
    constructor
    · rintro ⟨ys, hys, hlen'⟩
      rw [← hr'.chain.unique hys.chain] at hlen'
      rw [← hlen, ← hcount, hlen']
    · intro h
      exact ⟨_, hr', by rw [hcount, hlen, h]⟩
  have hempty : s.list.first = none ↔ xs = [] := by
    constructor
    · intro h
      cases xs with
      | nil => rfl
      | cons x xs => exact absurd (h.symm.trans hr.chain.1) nofun
    · rintro rfl
      exact hr.chain
  rw [hright]
  cases op with
  | append element item =>
      refine iff_of_true ?_ trivial
      rw [contents, List.length_append]
      rfl
  | prepend element item => exact iff_of_true rfl trivial
  | sortedInsert element item sortKey =>
      refine iff_of_true ?_ trivial
      have hperm : (Contents.insert xs element ⟨item, sortKey⟩).Perm
          ((element, ⟨item, sortKey⟩) :: xs) := perm_sortedInsert _ _
      rw [contents, hperm.length_eq]
      rfl
  | remove =>
      rw [Counts, ne_eq, hempty]
      cases xs with
      | nil => exact iff_of_false (show ¬ (0 : ℤ) + -1 = 0 by decide) (by simp)
      | cons x xs =>
          refine iff_of_true ?_ (by simp)
          rw [count, contents, List.tail_cons, List.length_cons]
          omega
  | sortedRemove =>
      rw [Counts, hempty]
      cases xs with
      | nil => exact iff_of_true rfl rfl
      | cons x xs =>
          refine iff_of_false ?_ (by simp)
          rw [count, contents, List.tail_cons, List.length_cons]
          omega

/-- Every call so far has counted what it did. -/
def counted (_ : List (ListOutcome α)) (s : ListState α) (op : ListOp α) : Prop :=
  op.Fresh s ∧ op.Counts s

instance (tr : List (ListOutcome α)) (s : ListState α) (op : ListOp α) :
    Decidable (counted tr s op) := inferInstanceAs (Decidable (_ ∧ _))

/-- **`Size`.** In a run without a `Remove` from an empty list and without a `SortedRemove`
from another one, the counter is the number of elements in every state reached, and it
remains so in the next one exactly if that call is none of these either. -/
theorem size_run {tr : List (ListOutcome α)} {s : ListState α}
    (hrun : Run ListOp.step counted .start tr s) :
    SizeRight s ∧ ∀ (op : ListOp α) s' e, op.Fresh s → op.step s = some (s', e) →
      (SizeRight s' ↔ op.Counts s) := by
  have hright : SizeRight s := by
    refine Run.invariant (I := fun _ s => SizeRight s) ⟨[], represents_start, rfl⟩ ?_ hrun
    intro tr s op s' e hI hok hstep
    exact (ListOp.size_step_iff hI hok.1 hstep).2 hok.2
  exact ⟨hright, fun op s' e hfresh hstep => ListOp.size_step_iff hright hfresh hstep⟩

/-- The allocator is right. -/
def allocated (_ : List (ListOutcome α)) (s : ListState α) (op : ListOp α) : Prop := op.Fresh s

instance (tr : List (ListOutcome α)) (s : ListState α) (op : ListOp α) :
    Decidable (allocated tr s op) := inferInstanceAs (Decidable (op.Fresh s))

/-- Two insertions and a removal. -/
theorem size_run_sample :
    ∃ (tr : List (ListOutcome Unit)) (s : ListState Unit),
      Run ListOp.step counted .start tr s ∧ s.list.size = 1 ∧ SizeRight s := by
  have hrun : Run (σ := ListState Unit) ListOp.step counted .start _ _ :=
    .snoc (l := .remove)
      (.snoc (l := .sortedInsert 1 () 3)
        (.snoc (l := .sortedInsert 0 () 5) .start (by decide) rfl) (by decide) rfl)
      (by decide) rfl
  exact ⟨_, _, hrun, rfl, (size_run hrun).1⟩

/-- The scheduler asks an empty ready list for a thread. -/
theorem remove_drifts :
    ∃ (tr : List (ListOutcome Unit)) (s : ListState Unit),
      Run ListOp.step allocated .start tr s ∧ s.list.size = -1 ∧ ¬ SizeRight s := by
  have hrun : Run (σ := ListState Unit) ListOp.step allocated .start _ _ :=
    .snoc (l := .remove) .start (by decide) rfl
  refine ⟨_, _, hrun, rfl, ?_⟩
  rintro ⟨xs, -, hsize⟩
  have hlen : (-1 : ℤ) = xs.length := hsize
  omega

/-! ## Sorted lists -/

/-- The calls of a sorted list, and its removals from the front. -/
def ListOp.Sorted : ListOp α → Prop
  | .append .. | .prepend .. => False
  | .remove | .sortedInsert .. | .sortedRemove => True

instance : (op : ListOp α) → Decidable op.Sorted
  | .append .. | .prepend .. => inferInstanceAs (Decidable False)
  | .remove | .sortedInsert .. | .sortedRemove => inferInstanceAs (Decidable True)

def sortedCalls (_ : List (ListOutcome α)) (s : ListState α) (op : ListOp α) : Prop :=
  op.Fresh s ∧ op.Sorted

instance (tr : List (ListOutcome α)) (s : ListState α) (op : ListOp α) :
    Decidable (sortedCalls tr s op) := inferInstanceAs (Decidable (_ ∧ _))

/-- What was inserted, in this order. -/
def entriesInserted (tr : List (ListOutcome α)) : List (Entry α) :=
  tr.filterMap fun
    | .inserted x => some x
    | _ => none

/-- What was removed, in this order. -/
def itemsRemoved (tr : List (ListOutcome α)) : List α :=
  tr.filterMap fun
    | .removed result => result
    | .sortedRemoved result => result.map Entry.item
    | _ => none

/-- An element with the number of its insertion. -/
abbrev Numbered (α : Type) : Type := ℕ × ℕ × Entry α

/-- By key, and by the order of the insertions where the keys are equal. -/
def Before (y z : Numbered α) : Prop :=
  y.2.2.key < z.2.2.key ∨ y.2.2.key = z.2.2.key ∧ y.1 < z.1

/-- The elements with the numbers of their insertions, and the numbers of those removed. -/
structure Kept (tr : List (ListOutcome α)) (s : ListState α) (zs : List (Numbered α))
    (gone : List ℕ) : Prop where
  represents : Represents s.heap s.list (zs.map Prod.snd)
  inserted : ∀ z ∈ zs, (entriesInserted tr)[z.1]? = some z.2.2
  removed : gone.map (fun k => (entriesInserted tr)[k]?.map Entry.item) = (itemsRemoved tr).map some
  perm : (zs.map Prod.fst ++ gone).Perm (List.range (entriesInserted tr).length)
  sorted : zs.Pairwise Before

/-- A number is that of an insertion. -/
theorem Kept.lt {tr : List (ListOutcome α)} {s : ListState α} {zs : List (Numbered α)}
    {gone : List ℕ} (h : Kept tr s zs gone) {k : ℕ} (hk : k ∈ zs.map Prod.fst ++ gone) :
    k < (entriesInserted tr).length := List.mem_range.1 (h.perm.mem_iff.1 hk)

/-- An insertion has the next number. -/
theorem Kept.insert {tr : List (ListOutcome α)} {s s' : ListState α} {zs : List (Numbered α)}
    {gone : List ℕ} (h : Kept tr s zs gone) {element : ℕ} {x : Entry α}
    (hr : Represents s'.heap s'.list (Contents.insert (zs.map Prod.snd) element x)) :
    Kept (tr ++ [.inserted x]) s'
      (sortedInsert (fun z : Numbered α => z.2.2.key) ((entriesInserted tr).length, element, x) zs)
      gone := by
  have hins : entriesInserted (tr ++ [.inserted x]) = entriesInserted tr ++ [x] := filterMap_snoc ..
  have hrem : itemsRemoved (tr ++ [.inserted x]) = itemsRemoved tr :=
    (filterMap_snoc ..).trans (List.append_nil _)
  have hkept : ∀ k < (entriesInserted tr).length,
      (entriesInserted (tr ++ [.inserted x]))[k]? = (entriesInserted tr)[k]? := by
    intro k hk
    rw [hins, List.getElem?_append_left hk]
  refine ⟨?_, ?_, ?_, ?_, ?_⟩
  · have hkey : ∀ z : Numbered α, Threads.sortKey (Prod.snd z) = z.2.2.key := fun _ => rfl
    have hmap : (sortedInsert (fun z : Numbered α => z.2.2.key)
        ((entriesInserted tr).length, element, x) zs).map Prod.snd =
          Contents.insert (zs.map Prod.snd) element x := map_sortedInsert hkey _ _
    rw [hmap]
    exact hr
  · intro z hz
    rcases mem_sortedInsert.1 hz with rfl | hz
    · rw [hins, List.getElem?_concat_length]
    · rw [hkept z.1 (h.lt (List.mem_append_left _ (List.mem_map_of_mem hz))), h.inserted z hz]
  · rw [hrem, ← h.removed]
    refine List.map_congr_left fun k hk => ?_
    rw [hkept k (h.lt (List.mem_append_right _ hk))]
  · have hperm : (sortedInsert (fun z : Numbered α => z.2.2.key)
        ((entriesInserted tr).length, element, x) zs).Perm
          (((entriesInserted tr).length, element, x) :: zs) :=
      perm_sortedInsert _ _
    rw [hins, List.length_append, List.length_singleton, List.range_succ]
    refine ((hperm.map Prod.fst).append_right gone).trans ((h.perm.cons _).trans ?_)
    exact (List.perm_append_singleton _ _).symm
  · refine pairwise_sortedInsert ?_ h.sorted ?_ ?_
    · exact h.sorted.imp fun hbefore => hbefore.elim le_of_lt fun heq => heq.1.le
    · intro y hy hle
      rcases lt_or_eq_of_le hle with hlt | heq
      · exact .inl hlt
      · exact .inr ⟨heq, h.lt (List.mem_append_left _ (List.mem_map_of_mem hy))⟩
    · exact fun y _ hlt => .inl hlt

/-- A removal takes the first element, if there is one. -/
theorem Kept.remove {tr : List (ListOutcome α)} {s s' : ListState α} {zs : List (Numbered α)}
    {gone : List ℕ} (h : Kept tr s zs gone) {e : ListOutcome α}
    (hins : entriesInserted (tr ++ [e]) = entriesInserted tr)
    (hrem : itemsRemoved (tr ++ [e]) = itemsRemoved tr ++ (zs.head?.map fun z => z.2.2.item).toList)
    (hr : Represents s'.heap s'.list (zs.map Prod.snd).tail) :
    Kept (tr ++ [e]) s' zs.tail (gone ++ (zs.head?.map Prod.fst).toList) := by
  cases zs with
  | nil =>
      refine ⟨hr, nofun, ?_, ?_, List.Pairwise.nil⟩
      · rw [hins, hrem]
        exact (congrArg _ (List.append_nil gone)).trans
          (h.removed.trans (congrArg _ (List.append_nil _).symm))
      · rw [hins]
        exact (List.Perm.of_eq (List.append_nil gone)).trans h.perm
  | cons z zs =>
      refine ⟨hr, ?_, ?_, ?_, (List.pairwise_cons.1 h.sorted).2⟩
      · intro y hy
        rw [hins]
        exact h.inserted y (List.mem_cons_of_mem _ hy)
      · have hz := h.inserted z List.mem_cons_self
        rw [hins, hrem, List.map_append, List.map_append, h.removed]
        simp [hz]
      · rw [hins]
        refine List.Perm.trans ?_ h.perm
        rw [List.tail_cons, List.map_cons, List.cons_append, ← List.append_assoc]
        exact List.perm_append_singleton _ _

theorem kept_step {tr : List (ListOutcome α)} {s s' : ListState α} {zs : List (Numbered α)}
    {gone : List ℕ} (h : Kept tr s zs gone) {op : ListOp α} {e : ListOutcome α}
    (hok : sortedCalls tr s op) (hstep : op.step s = some (s', e)) :
    ∃ zs' gone', Kept (tr ++ [e]) s' zs' gone' := by
  obtain ⟨hfresh, hsorted⟩ := hok
  obtain ⟨rfl, hr', -⟩ := ListOp.of_step h.represents hfresh hstep
  cases op with
  | append element item => exact hsorted.elim
  | prepend element item => exact hsorted.elim
  | sortedInsert element item sortKey => exact ⟨_, _, h.insert hr'⟩
  | remove =>
      refine ⟨_, _, h.remove ((filterMap_snoc ..).trans (List.append_nil _)) ?_ hr'⟩
      refine (filterMap_snoc ..).trans (congrArg _ ?_)
      cases zs <;> rfl
  | sortedRemove =>
      refine ⟨_, _, h.remove ((filterMap_snoc ..).trans (List.append_nil _)) ?_ hr'⟩
      refine (filterMap_snoc ..).trans (congrArg _ ?_)
      cases zs <;> rfl

/-- `first` and `last` are `NULL`, or the two ends. -/
def Ends (l : LinkedList) (zs : List (Numbered α)) : Prop :=
  (zs = [] ∧ l.first = none ∧ l.last = none) ∨
    ∃ y z, zs.head? = some y ∧ zs.getLast? = some z ∧
      l.first = some y.2.1 ∧ l.last = some z.2.1

/-- What `SortedRemove` may return: nothing if there is nothing, and otherwise an element
with the smallest key. -/
def Smallest (zs : List (Numbered α)) : Option (Entry α) → Prop
  | none => zs = []
  | some x => (∃ z ∈ zs, z.2.2 = x) ∧ ∀ z ∈ zs, x.key ≤ z.2.2.key

theorem Kept.ends {tr : List (ListOutcome α)} {s : ListState α} {zs : List (Numbered α)}
    {gone : List ℕ} (h : Kept tr s zs gone) : Ends s.list zs := by
  have hlast := h.represents.last
  rw [List.getLast?_map] at hlast
  cases zs with
  | nil => exact .inl ⟨rfl, h.represents.chain, hlast⟩
  | cons y zs =>
      refine .inr ⟨y, _, rfl, List.getLast?_cons .., h.represents.chain.1, ?_⟩
      rw [hlast, List.getLast?_cons, Option.map_some, Option.map_some]

theorem Kept.smallest {tr : List (ListOutcome α)} {s s' : ListState α} {zs : List (Numbered α)}
    {gone : List ℕ} (h : Kept tr s zs gone) {result : Option (Entry α)}
    (hstep : ListOp.step s .sortedRemove = some (s', .sortedRemoved result)) :
    Smallest zs result := by
  have hfresh : (ListOp.sortedRemove : ListOp α).Fresh s := trivial
  obtain ⟨he, -, -⟩ := ListOp.of_step h.represents hfresh hstep
  obtain rfl := ListOutcome.sortedRemoved.inj he
  cases zs with
  | nil => rfl
  | cons z zs =>
      refine ⟨⟨z, List.mem_cons_self, rfl⟩, ?_⟩
      intro y hy
      rcases List.mem_cons.1 hy with rfl | hy
      · exact le_refl _
      · exact ((List.pairwise_cons.1 h.sorted).1 y hy).elim le_of_lt fun heq => heq.1.le

/-- **Sorted lists.** In every run of insertions by key and removals from the front, the
elements are one chain between `first` and `last`, sorted by key and by the order of their
insertions, and with those removed they are all that were inserted. Every call has a
result, and `SortedRemove` returns an element with the smallest key. -/
theorem sorted_list_run {tr : List (ListOutcome α)} {s : ListState α}
    (hrun : Run ListOp.step sortedCalls .start tr s) :
    ∃ zs gone, Kept tr s zs gone ∧ Ends s.list zs ∧
      (∀ op : ListOp α, op.Fresh s → ∃ s' e, op.step s = some (s', e)) ∧
      ∀ s' result, ListOp.step s .sortedRemove = some (s', .sortedRemoved result) →
        Smallest zs result := by
  have hkept : ∃ zs gone, Kept tr s zs gone := by
    refine Run.invariant (I := fun tr s => ∃ zs gone, Kept tr s zs gone) ?_ ?_ hrun
    · exact ⟨[], [], represents_start, nofun, rfl, .refl _, .nil⟩
    · rintro tr s op s' e ⟨zs, gone, h⟩ hok hstep
      exact kept_step h hok hstep
  obtain ⟨zs, gone, h⟩ := hkept
  refine ⟨zs, gone, h, h.ends, ?_, fun s' result hstep => h.smallest hstep⟩
  intro op hfresh
  obtain ⟨s', hstep, -⟩ := ListOp.step_spec h.represents hfresh
  exact ⟨s', _, hstep⟩

/-- Two elements with one key and one with a smaller one, which is removed. -/
theorem sorted_list_run_sample :
    ∃ (tr : List (ListOutcome Bool)) (s : ListState Bool),
      Run ListOp.step sortedCalls .start tr s ∧ ∃ zs gone, Kept tr s zs gone := by
  have hrun : Run (σ := ListState Bool) ListOp.step sortedCalls .start _ _ :=
    .snoc (l := .sortedRemove)
      (.snoc (l := .sortedInsert 2 false 3)
        (.snoc (l := .sortedInsert 1 true 5)
          (.snoc (l := .sortedInsert 0 false 5) .start (by decide) rfl) (by decide) rfl)
        (by decide) rfl)
      (by decide) rfl
  obtain ⟨zs, gone, h, -⟩ := sorted_list_run hrun
  exact ⟨_, _, hrun, zs, gone, h⟩

end Nachos.Threads
