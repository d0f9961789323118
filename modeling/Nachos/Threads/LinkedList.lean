import Nachos.Lib.Run
import Nachos.Lib.SortedInsert
import Mathlib.Data.List.Perm.Subperm
import Mathlib.Data.List.Range

/-!
# Lists as they are in memory

`List` with its `ListElement`s: a singly linked chain between `first` and `last`, and
a counter. An operation on memory that has no element at the address it follows has no
result here, and neither has a loop that comes to no end: it is given as many rounds as
there can be elements in memory.

The contents of a list, in the order of the chain, are the abstract list. Each
operation is one on the abstract list, `SortedInsert` the insertion before the first
larger key.
-/

namespace Nachos.Threads

/-- `ListElement`. -/
structure ListElement (α : Type) where
  item : α
  key : ℤ
  next : Option ℕ

/-- The list elements in memory, by address. Finitely many are allocated. -/
structure Heap (α : Type) where
  cell : ℕ → Option (ListElement α)
  bound : ℕ
  unused : ∀ a, bound ≤ a → cell a = none

/-- `List`. -/
structure LinkedList where
  first : Option ℕ
  last : Option ℕ
  size : ℤ
deriving DecidableEq, Repr

/-- What a list element holds for its user. -/
structure Entry (α : Type) where
  item : α
  key : ℤ
deriving DecidableEq, Repr

variable {α : Type}

namespace Heap

/-- Nothing is allocated. -/
def empty : Heap α := ⟨fun _ => none, 0, fun _ _ => rfl⟩

/-- An assignment to a list element, or its allocation. -/
def set (h : Heap α) (a : ℕ) (e : ListElement α) : Heap α where
  cell := Function.update h.cell a (some e)
  bound := max h.bound (a + 1)
  unused b hb := by
    rw [Function.update_of_ne (by omega)]
    exact h.unused b (by omega)

/-- `delete`. -/
def delete (h : Heap α) (a : ℕ) : Heap α where
  cell := Function.update h.cell a none
  bound := h.bound
  unused b hb := by
    rw [Function.update_apply]
    split
    · rfl
    · exact h.unused b hb

/-- `a->next = next`. -/
def setNext (h : Heap α) (a : ℕ) (next : Option ℕ) : Option (Heap α) :=
  (h.cell a).map fun e => h.set a { e with next := next }

end Heap

namespace LinkedList

/-- `List::List`. -/
def create : LinkedList := ⟨none, none, 0⟩

def append (h : Heap α) (l : LinkedList) (element : ℕ) (item : α) :
    Option (Heap α × LinkedList) :=
  let h := h.set element ⟨item, 0, none⟩
  match l.first with
  | none => some (h, ⟨some element, some element, l.size + 1⟩)
  | some _ => do
      let last ← l.last
      let h ← h.setNext last (some element)
      some (h, { l with last := some element, size := l.size + 1 })

def prepend (h : Heap α) (l : LinkedList) (element : ℕ) (item : α) :
    Option (Heap α × LinkedList) :=
  let h := h.set element ⟨item, 0, none⟩
  match l.first with
  | none => some (h, ⟨some element, some element, l.size + 1⟩)
  | some first => do
      let h ← h.setNext element (some first)
      some (h, { l with first := some element, size := l.size + 1 })

/-- The loop of `SortedInsert`, in at most `n` rounds. It returns early, with the element
inserted, or comes to the end of the list. -/
def insertLoop : (n : ℕ) → Heap α → (ptr element : ℕ) → (sortKey : ℤ) → Option (Option (Heap α))
  | 0, _, _, _, _ => none
  | n + 1, h, ptr, element, sortKey => do
      let p ← h.cell ptr
      match p.next with
      | none => some none
      | some next =>
          let e ← h.cell next
          if sortKey < e.key then
            let h ← h.setNext element (some next)
            let h ← h.setNext ptr (some element)
            some (some h)
          else insertLoop n h next element sortKey

def sortedInsert (h : Heap α) (l : LinkedList) (element : ℕ) (item : α) (sortKey : ℤ) :
    Option (Heap α × LinkedList) :=
  let h := h.set element ⟨item, sortKey, none⟩
  let l := { l with size := l.size + 1 }
  match l.first with
  | none => some (h, { l with first := some element, last := some element })
  | some first => do
      let f ← h.cell first
      if sortKey < f.key then
        let h ← h.setNext element (some first)
        some (h, { l with first := some element })
      else
        match ← insertLoop h.bound h first element sortKey with
        | some h => some (h, l)
        | none =>
            let last ← l.last
            let h ← h.setNext last (some element)
            some (h, { l with last := some element })

/-- `SortedRemove`, with the key of the element it removes. -/
def sortedRemove (h : Heap α) (l : LinkedList) :
    Option ((Heap α × LinkedList) × Option (Entry α)) :=
  match l.first with
  | none => some ((h, l), none)
  | some element => do
      let e ← h.cell element
      let l := if l.first = l.last then { l with first := none, last := none }
        else { l with first := e.next }
      some ((h.delete element, l), some ⟨e.item, e.key⟩)

def remove (h : Heap α) (l : LinkedList) : Option ((Heap α × LinkedList) × Option α) := do
  let (s, e) ← sortedRemove h { l with size := l.size - 1 }
  some (s, e.map Entry.item)

end LinkedList

/-! ## The abstract list -/

/-- The elements of a list, with their addresses. -/
abbrev Contents (α : Type) : Type := List (ℕ × Entry α)

/-- The addresses of a list. -/
def Contents.addresses (xs : Contents α) : List ℕ := xs.map Prod.fst

/-- A chain of elements that ends in `NULL`. -/
def Heap.Chain (h : Heap α) : Option ℕ → Contents α → Prop
  | p, [] => p = none
  | p, (a, e) :: xs => p = some a ∧ ∃ next, h.cell a = some ⟨e.item, e.key, next⟩ ∧ h.Chain next xs

/-- A list in memory and its contents. -/
structure Represents (h : Heap α) (l : LinkedList) (xs : Contents α) : Prop where
  chain : h.Chain l.first xs
  last : l.last = xs.getLast?.map Prod.fst
  nodup : xs.addresses.Nodup

/-! ## Memory -/

namespace Heap

@[simp] theorem set_self (h : Heap α) (a : ℕ) (e : ListElement α) :
    (h.set a e).cell a = some e := Function.update_self ..

theorem set_of_ne (h : Heap α) {a b : ℕ} (hb : b ≠ a) (e : ListElement α) :
    (h.set a e).cell b = h.cell b := Function.update_of_ne hb ..

@[simp] theorem delete_self (h : Heap α) (a : ℕ) : (h.delete a).cell a = none :=
  Function.update_self ..

theorem delete_of_ne (h : Heap α) {a b : ℕ} (hb : b ≠ a) : (h.delete a).cell b = h.cell b :=
  Function.update_of_ne hb ..

theorem setNext_eq {h : Heap α} {a : ℕ} {e : ListElement α} (ha : h.cell a = some e)
    (next : Option ℕ) : h.setNext a next = some (h.set a { e with next := next }) := by
  rw [setNext, ha, Option.map_some]

theorem lt_bound {h : Heap α} {a : ℕ} {e : ListElement α} (ha : h.cell a = some e) :
    a < h.bound := by
  by_contra hge
  rw [h.unused a (Nat.le_of_not_lt hge)] at ha
  cases ha

theorem Chain.congr {h h' : Heap α} {xs : Contents α} {p : Option ℕ} (hc : h.Chain p xs)
    (hsame : ∀ a ∈ xs.addresses, h'.cell a = h.cell a) : h'.Chain p xs := by
  induction xs generalizing p with
  | nil => exact hc
  | cons x xs ih =>
      obtain ⟨hp, next, hcell, hrest⟩ := hc
      refine ⟨hp, next, ?_, ih hrest fun a ha => hsame a (List.mem_cons_of_mem _ ha)⟩
      rw [hsame x.1 List.mem_cons_self, hcell]

/-- The elements of a chain are allocated. -/
theorem Chain.allocated {h : Heap α} {xs : Contents α} {p : Option ℕ} (hc : h.Chain p xs)
    {a : ℕ} (ha : a ∈ xs.addresses) : ∃ e, h.cell a = some e := by
  induction xs generalizing p with
  | nil => cases ha
  | cons x xs ih =>
      obtain ⟨-, next, hcell, hrest⟩ := hc
      rcases List.mem_cons.1 ha with rfl | ha
      · exact ⟨_, hcell⟩
      · exact ih hrest ha

/-- There are no more of them than can be in memory. -/
theorem Chain.length_le {h : Heap α} {xs : Contents α} {p : Option ℕ} (hc : h.Chain p xs)
    (hnodup : xs.addresses.Nodup) : xs.length ≤ h.bound := by
  have hsub : xs.addresses ⊆ List.range h.bound := by
    intro a ha
    obtain ⟨e, he⟩ := hc.allocated ha
    exact List.mem_range.2 (lt_bound he)
  have hlen := (List.subperm_of_subset hnodup hsub).length_le
  rwa [Contents.addresses, List.length_map, List.length_range] at hlen

/-- **A new last element.** -/
theorem Chain.snoc {h : Heap α} {xs : Contents α} {p : Option ℕ} (hc : h.Chain p xs)
    (hnodup : xs.addresses.Nodup) {b : ℕ} {x : Entry α}
    (hb : h.cell b = some ⟨x.item, x.key, none⟩) (hfresh : b ∉ xs.addresses) {z : ℕ}
    (hlast : xs.getLast?.map Prod.fst = some z) :
    ∃ h', h.setNext z (some b) = some h' ∧ h'.Chain p (xs ++ [(b, x)]) ∧
      ∀ a, a ≠ z → h'.cell a = h.cell a := by
  induction xs generalizing p with
  | nil => cases hlast
  | cons y ys ih =>
      obtain ⟨hp, next, hcell, hrest⟩ := hc
      obtain ⟨hnot, hnodup'⟩ := List.nodup_cons.1 hnodup
      cases ys with
      | nil =>
          obtain rfl : y.1 = z := Option.some.inj hlast
          have hne : b ≠ y.1 := fun heq => hfresh (heq ▸ List.mem_cons_self)
          refine ⟨_, setNext_eq hcell _, ⟨hp, some b, set_self .., rfl, none, ?_, rfl⟩, ?_⟩
          · rw [set_of_ne _ hne, hb]
          · exact fun a ha => set_of_ne _ ha _
      | cons y' ys =>
          rw [List.getLast?_cons_cons] at hlast
          obtain ⟨h', hset, hchain, hsame⟩ :=
            ih hrest hnodup' (fun hmem => hfresh (List.mem_cons_of_mem _ hmem)) hlast
          refine ⟨h', hset, ⟨hp, next, ?_, hchain⟩, hsame⟩
          have hz : z ∈ Contents.addresses (y' :: ys) := by
            obtain ⟨w, hw, rfl⟩ := Option.map_eq_some_iff.1 hlast
            exact List.mem_map_of_mem (List.mem_of_getLast? hw)
          rw [hsame y.1 (fun heq => hnot (heq ▸ hz)), hcell]

end Heap

/-! ## The operations -/

/-- The key of an element. -/
def sortKey (x : ℕ × Entry α) : ℤ := x.2.key

/-- The elements after an insertion. -/
abbrev Contents.insert (xs : Contents α) (b : ℕ) (x : Entry α) : Contents α :=
  Lib.sortedInsert sortKey (b, x) xs

theorem Contents.mem_insert {xs : Contents α} {b : ℕ} {x : Entry α} {a : ℕ} :
    a ∈ (xs.insert b x).addresses ↔ a = b ∨ a ∈ xs.addresses := by
  rw [addresses, ((Lib.perm_sortedInsert (b, x) xs).map Prod.fst).mem_iff, List.map_cons,
    List.mem_cons]
  rfl

theorem Contents.nodup_insert {xs : Contents α} {b : ℕ} {x : Entry α} (h : xs.addresses.Nodup)
    (hfresh : b ∉ xs.addresses) : (xs.insert b x).addresses.Nodup := by
  rw [addresses, ((Lib.perm_sortedInsert (b, x) xs).map Prod.fst).nodup_iff, List.map_cons]
  exact List.nodup_cons.2 ⟨hfresh, h⟩

theorem Contents.insert_of_lt {ys : Contents α} {y : ℕ × Entry α} {b : ℕ} {x : Entry α}
    (h : x.key < sortKey y) : Contents.insert (y :: ys) b x = (b, x) :: y :: ys :=
  (Lib.sortedInsert_cons ..).trans (if_pos h)

theorem Contents.insert_of_not_lt {ys : Contents α} {y : ℕ × Entry α} {b : ℕ} {x : Entry α}
    (h : ¬ x.key < sortKey y) : Contents.insert (y :: ys) b x = y :: ys.insert b x :=
  (Lib.sortedInsert_cons ..).trans (if_neg h)

namespace LinkedList

/-- **The loop of `SortedInsert`** comes to the end if there is no larger key, and otherwise
inserts the element before the first one. -/
theorem insertLoop_spec {n : ℕ} {h : Heap α} {a b : ℕ} {e x : Entry α} {ys : Contents α}
    (hc : h.Chain (some a) ((a, e) :: ys)) (hnodup : Contents.addresses ((a, e) :: ys) |>.Nodup)
    (hb : h.cell b = some ⟨x.item, x.key, none⟩)
    (hfresh : b ∉ Contents.addresses ((a, e) :: ys)) (hn : ys.length < n) :
    (insertLoop n h a b x.key = some none ∧ ∀ y ∈ ys, sortKey y ≤ x.key) ∨
      ∃ h', insertLoop n h a b x.key = some (some h') ∧
        h'.Chain (some a) ((a, e) :: ys.insert b x) ∧ (∃ y ∈ ys, x.key < sortKey y) ∧
        ∀ c, c ≠ b → c ∉ Contents.addresses ((a, e) :: ys) → h'.cell c = h.cell c := by
  induction ys generalizing n a e with
  | nil =>
      obtain ⟨-, next, hcell, hrest⟩ := hc
      obtain rfl : next = none := hrest
      obtain ⟨n, rfl⟩ := Nat.exists_eq_succ_of_ne_zero (Nat.ne_of_gt hn)
      refine .inl ⟨?_, fun y hy => absurd hy List.not_mem_nil⟩
      rw [insertLoop, hcell]
      rfl
  | cons y ys ih =>
      obtain ⟨c, f⟩ := y
      obtain ⟨-, next, hcell, hrest⟩ := hc
      obtain ⟨rfl, next', hcell', hrest'⟩ := hrest
      obtain ⟨n, rfl⟩ := Nat.exists_eq_succ_of_ne_zero (Nat.ne_of_gt (Nat.zero_lt_of_lt hn))
      obtain ⟨hnot, hnodup'⟩ := List.nodup_cons.1 hnodup
      obtain ⟨hba, hfresh'⟩ := not_or.1 (mt List.mem_cons.2 hfresh)
      have hac : a ≠ c := fun heq => hnot (heq ▸ List.mem_cons_self)
      have hbc : b ≠ c := fun heq => hfresh' (heq ▸ List.mem_cons_self)
      rw [insertLoop, hcell]
      simp only [Option.bind_eq_bind, Option.bind_some, hcell']
      by_cases hlt : x.key < f.key
      · -- the new element goes between `a` and `c`
        have ha : (h.set b ⟨x.item, x.key, some c⟩).cell a = some ⟨e.item, e.key, some c⟩ := by
          rw [Heap.set_of_ne _ (Ne.symm hba), hcell]
        rw [if_pos hlt, Heap.setNext_eq hb, Option.bind_some, Heap.setNext_eq ha,
          Option.bind_some]
        have hsame : ∀ d, d ≠ b → d ≠ a →
            ((h.set b ⟨x.item, x.key, some c⟩).set a ⟨e.item, e.key, some b⟩).cell d =
              h.cell d := by
          intro d hdb hda
          rw [Heap.set_of_ne _ hda, Heap.set_of_ne _ hdb]
        refine .inr ⟨_, rfl, ?_, ⟨(c, f), List.mem_cons_self, hlt⟩, ?_⟩
        · rw [Contents.insert_of_lt hlt]
          refine ⟨rfl, some b, Heap.set_self .., rfl, some c, ?_, rfl, next', ?_, ?_⟩
          · rw [Heap.set_of_ne _ hba, Heap.set_self]
          · rw [hsame c (Ne.symm hbc) (Ne.symm hac), hcell']
          · refine hrest'.congr fun d hd => hsame d ?_ ?_
            · rintro rfl
              exact hfresh' (List.mem_cons_of_mem _ hd)
            · rintro rfl
              exact hnot (List.mem_cons_of_mem _ hd)
        · exact fun d hdb hd => hsame d hdb fun heq => hd (heq ▸ List.mem_cons_self)
      · rw [if_neg hlt]
        have hc' : h.Chain (some c) ((c, f) :: ys) := ⟨rfl, next', hcell', hrest'⟩
        rcases ih hc' hnodup' hfresh' (Nat.lt_of_succ_lt_succ hn) with
          ⟨hloop, hle⟩ | ⟨h', hloop, hchain, ⟨y, hy, hlarger⟩, hsame⟩
        · refine .inl ⟨hloop, ?_⟩
          intro y hy
          rcases List.mem_cons.1 hy with rfl | hy
          · exact not_lt.1 hlt
          · exact hle y hy
        · refine .inr ⟨h', hloop, ?_, ⟨y, List.mem_cons_of_mem _ hy, hlarger⟩, ?_⟩
          · rw [Contents.insert_of_not_lt hlt]
            exact ⟨rfl, some c, by rw [hsame a (Ne.symm hba) hnot, hcell], hchain⟩
          · exact fun d hdb hd => hsame d hdb fun hmem => hd (List.mem_cons_of_mem _ hmem)

section Operations

variable {h : Heap α} {l : LinkedList} {xs : Contents α} (hr : Represents h l xs)

include hr

theorem free_not_mem {b : ℕ} (hfree : h.cell b = none) : b ∉ xs.addresses := by
  intro hmem
  obtain ⟨e, he⟩ := hr.chain.allocated hmem
  rw [hfree] at he
  cases he

/-- The chain is still there when a new element is in memory. -/
theorem chain_set {b : ℕ} (hfree : h.cell b = none) (e : ListElement α) :
    (h.set b e).Chain l.first xs := by
  refine hr.chain.congr fun a ha => Heap.set_of_ne _ ?_ _
  rintro rfl
  exact free_not_mem hr hfree ha

theorem sortedInsert_spec {b : ℕ} (hfree : h.cell b = none) (x : Entry α) :
    ∃ h' l', sortedInsert h l b x.item x.key = some (h', l') ∧
      Represents h' l' (xs.insert b x) ∧ l'.size = l.size + 1 ∧
      ∀ a, a ≠ b → a ∉ xs.addresses → h'.cell a = h.cell a := by
  have hnot := free_not_mem hr hfree
  have hchain := chain_set hr hfree ⟨x.item, x.key, none⟩
  have hset : ∀ a, a ≠ b → (h.set b ⟨x.item, x.key, none⟩).cell a = h.cell a :=
    fun a ha => Heap.set_of_ne _ ha _
  have hnodup := Contents.nodup_insert (x := x) hr.nodup hnot
  cases xs with
  | nil =>
      have hfirst : l.first = none := hr.chain
      rw [sortedInsert]
      simp only [hfirst]
      exact ⟨_, _, rfl, ⟨⟨rfl, none, Heap.set_self .., rfl⟩, rfl, hnodup⟩, rfl,
        fun a ha _ => hset a ha⟩
  | cons y ys =>
      obtain ⟨a, e⟩ := y
      obtain ⟨hfirst, next, hcell, hrest⟩ := hchain
      have hab : a ≠ b := fun heq => hnot (heq ▸ List.mem_cons_self)
      rw [sortedInsert]
      simp only [hfirst, Option.bind_eq_bind, Option.bind_some, hcell]
      by_cases hlt : x.key < e.key
      · -- the front
        rw [if_pos hlt, Heap.setNext_eq (Heap.set_self ..), Option.bind_some]
        rw [Contents.insert_of_lt hlt] at hnodup ⊢
        refine ⟨_, _, rfl, ⟨⟨rfl, some a, Heap.set_self .., ?_⟩, ?_, hnodup⟩, rfl, ?_⟩
        · refine Heap.Chain.congr ⟨rfl, next, hcell, hrest⟩ fun c hc => Heap.set_of_ne _ ?_ _
          rintro rfl
          exact hnot hc
        · rw [List.getLast?_cons_cons]
          exact hr.last
        · intro c hcb _
          rw [Heap.set_of_ne _ hcb, hset c hcb]
      · rw [if_neg hlt]
        have hchain : (h.set b ⟨x.item, x.key, none⟩).Chain (some a) ((a, e) :: ys) :=
          ⟨rfl, next, hcell, hrest⟩
        have hlen := hchain.length_le hr.nodup
        rcases insertLoop_spec hchain hr.nodup (Heap.set_self ..) hnot hlen with
          ⟨hloop, hle⟩ | ⟨h', hloop, hchain', hlarger, hsame⟩
        · -- the end
          have hinsert : Contents.insert ((a, e) :: ys) b x = ((a, e) :: ys) ++ [(b, x)] := by
            refine Lib.sortedInsert_of_le fun y hy => ?_
            rcases List.mem_cons.1 hy with rfl | hy
            · exact not_lt.1 hlt
            · exact hle y hy
          obtain ⟨z, hz⟩ : ∃ z, ((a, e) :: ys).getLast?.map Prod.fst = some z :=
            ⟨_, by rw [List.getLast?_cons, Option.map_some]⟩
          obtain ⟨h', hsetNext, hchain', hsame⟩ :=
            hchain.snoc hr.nodup (Heap.set_self ..) hnot hz
          have hlast : l.last = some z := hr.last.trans hz
          rw [hloop, Option.bind_some]
          simp only [hlast, Option.bind_some, hsetNext]
          rw [hinsert] at hnodup ⊢
          refine ⟨_, _, rfl, ⟨hchain', ?_, hnodup⟩, rfl, ?_⟩
          · rw [List.getLast?_append]
            rfl
          · intro c hcb hc
            have hcz : c ≠ z := by
              rintro rfl
              obtain ⟨w, hw, rfl⟩ := Option.map_eq_some_iff.1 hz
              exact hc (List.mem_map_of_mem (List.mem_of_getLast? hw))
            rw [hsame c hcz, hset c hcb]
        · -- the middle
          rw [hloop, Option.bind_some]
          rw [Contents.insert_of_not_lt hlt] at hnodup ⊢
          obtain ⟨y, hy, hlt'⟩ := hlarger
          refine ⟨_, _, rfl, ⟨hchain', ?_, hnodup⟩, rfl, ?_⟩
          · have hlast := hr.last
            rw [List.getLast?_cons] at hlast ⊢
            rw [Contents.insert, Lib.getLast?_sortedInsert ⟨y, hy, hlt'⟩]
            exact hlast
          · intro c hcb hc
            rw [hsame c hcb hc, hset c hcb]

theorem sortedRemove_nil (hnil : xs = []) : sortedRemove h l = some ((h, l), none) := by
  have hfirst : l.first = none := by
    have hchain := hr.chain
    rwa [hnil] at hchain
  rw [sortedRemove, hfirst]

theorem sortedRemove_cons {a : ℕ} {e : Entry α} {ys : Contents α} (hcons : xs = (a, e) :: ys) :
    ∃ h' l', sortedRemove h l = some ((h', l'), some e) ∧ Represents h' l' ys ∧
      l'.size = l.size ∧ h'.cell a = none ∧ ∀ c, c ≠ a → h'.cell c = h.cell c := by
  subst hcons
  obtain ⟨hfirst, next, hcell, hrest⟩ := hr.chain
  obtain ⟨hnot, hnodup⟩ := List.nodup_cons.1 hr.nodup
  have hsame : ∀ c, c ≠ a → (h.delete a).cell c = h.cell c := fun c hc => Heap.delete_of_ne _ hc
  have hchain : (h.delete a).Chain next ys := by
    refine hrest.congr fun c hc => hsame c ?_
    rintro rfl
    exact hnot hc
  rw [sortedRemove]
  simp only [hfirst, Option.bind_eq_bind, Option.bind_some, hcell]
  refine ⟨_, _, rfl, ?_, ?_, Heap.delete_self .., hsame⟩
  · have hlast := hr.last
    cases ys with
    | nil =>
        have heq : some a = l.last := hlast.symm
        rw [if_pos heq]
        exact ⟨rfl, rfl, hnodup⟩
    | cons y ys =>
        rw [List.getLast?_cons_cons] at hlast
        have hne : some a ≠ l.last := by
          intro heq
          rw [← heq] at hlast
          obtain ⟨w, hw, hwa⟩ := Option.map_eq_some_iff.1 hlast.symm
          exact hnot (List.mem_map.2 ⟨w, List.mem_of_getLast? hw, hwa⟩)
        rw [if_neg hne]
        exact ⟨hchain, hlast, hnodup⟩
  · split <;> rfl

theorem append_spec {b : ℕ} (hfree : h.cell b = none) (item : α) :
    ∃ h' l', append h l b item = some (h', l') ∧ Represents h' l' (xs ++ [(b, ⟨item, 0⟩)]) ∧
      l'.size = l.size + 1 := by
  have hnot := free_not_mem hr hfree
  have hchain := chain_set hr hfree ⟨item, 0, none⟩
  have hnodup : Contents.addresses (xs ++ [(b, ⟨item, 0⟩)]) |>.Nodup := by
    rw [Contents.addresses, List.map_append]
    exact List.nodup_append_comm.1 (List.nodup_cons.2 ⟨hnot, hr.nodup⟩)
  cases xs with
  | nil =>
      have hfirst : l.first = none := hr.chain
      rw [append]
      simp only [hfirst]
      exact ⟨_, _, rfl, ⟨⟨rfl, none, Heap.set_self .., rfl⟩, rfl, hnodup⟩, rfl⟩
  | cons y ys =>
      obtain ⟨hfirst, -⟩ := hr.chain
      obtain ⟨z, hz⟩ : ∃ z, (y :: ys).getLast?.map Prod.fst = some z :=
        ⟨_, by rw [List.getLast?_cons, Option.map_some]⟩
      obtain ⟨h', hsetNext, hchain', -⟩ :=
        hchain.snoc (x := ⟨item, 0⟩) hr.nodup (Heap.set_self ..) hnot hz
      have hlast : l.last = some z := hr.last.trans hz
      rw [append]
      simp only [hfirst, hlast, Option.bind_eq_bind, Option.bind_some, hsetNext]
      refine ⟨_, _, rfl, ⟨?_, ?_, hnodup⟩, rfl⟩
      · rw [← hfirst]
        exact hchain'
      · rw [List.getLast?_append]
        rfl

theorem prepend_spec {b : ℕ} (hfree : h.cell b = none) (item : α) :
    ∃ h' l', prepend h l b item = some (h', l') ∧ Represents h' l' ((b, ⟨item, 0⟩) :: xs) ∧
      l'.size = l.size + 1 := by
  have hnot := free_not_mem hr hfree
  have hchain := chain_set hr hfree ⟨item, 0, none⟩
  have hnodup : Contents.addresses ((b, ⟨item, 0⟩) :: xs) |>.Nodup :=
    List.nodup_cons.2 ⟨hnot, hr.nodup⟩
  cases xs with
  | nil =>
      have hfirst : l.first = none := hr.chain
      rw [prepend]
      simp only [hfirst]
      exact ⟨_, _, rfl, ⟨⟨rfl, none, Heap.set_self .., rfl⟩, rfl, hnodup⟩, rfl⟩
  | cons y ys =>
      have hfirst : l.first = some y.1 := hr.chain.1
      rw [hfirst] at hchain
      rw [prepend]
      simp only [hfirst, Option.bind_eq_bind, Heap.setNext_eq (Heap.set_self ..), Option.bind_some]
      refine ⟨_, _, rfl, ⟨⟨rfl, some y.1, Heap.set_self .., ?_⟩, ?_, hnodup⟩, rfl⟩
      · refine hchain.congr fun c hc => Heap.set_of_ne _ ?_ _
        rintro rfl
        exact hnot hc
      · rw [List.getLast?_cons_cons]
        exact hr.last

end Operations

end LinkedList

end Nachos.Threads
