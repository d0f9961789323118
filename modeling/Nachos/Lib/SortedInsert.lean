import Mathlib.Data.List.Sort
import Mathlib.Order.Defs.LinearOrder
import Mathlib.Tactic.Common

/-!
# Stable insertion by a key

`List::SortedInsert` walks to the first element with a larger key and inserts
before it, so elements with equal keys stay in the order of their insertion.
This is Mathlib's `orderedInsert` for the strict order of the keys. A strict
order is not total, so the sortedness lemmas are proved here, in a form that
also carries a relation finer than the key: what the key decides strictly and
what insertion order decides on ties.
-/

namespace Nachos.Lib

variable {α κ : Type*} [LinearOrder κ] (key : α → κ)

/-- Insert before the first element with a larger key. -/
def sortedInsert (x : α) (l : List α) : List α :=
  l.orderedInsert (fun a b => key a < key b) x

variable {key}

@[simp] theorem sortedInsert_nil (x : α) : sortedInsert key x [] = [x] := rfl

theorem sortedInsert_cons (x y : α) (l : List α) :
    sortedInsert key x (y :: l) =
      if key x < key y then x :: y :: l else y :: sortedInsert key x l :=
  List.orderedInsert_cons ..

theorem perm_sortedInsert (x : α) (l : List α) : (sortedInsert key x l).Perm (x :: l) :=
  List.perm_orderedInsert _ x l

@[simp] theorem mem_sortedInsert {x y : α} {l : List α} :
    y ∈ sortedInsert key x l ↔ y = x ∨ y ∈ l :=
  List.mem_orderedInsert _

/-- **Insertion keeps a finer order.** In a list sorted by key, the new element
may stand after everything with a key up to its own and before everything with
a larger one. -/
theorem pairwise_sortedInsert {R : α → α → Prop} {x : α} {l : List α}
    (hkey : l.Pairwise (fun a b => key a ≤ key b)) (hl : l.Pairwise R)
    (hle : ∀ y ∈ l, key y ≤ key x → R y x) (hlt : ∀ y ∈ l, key x < key y → R x y) :
    (sortedInsert key x l).Pairwise R := by
  induction l with
  | nil => simp
  | cons y l ih =>
      rw [List.pairwise_cons] at hkey hl
      rw [sortedInsert_cons]
      split
      · rename_i hxy
        rw [List.pairwise_cons, List.pairwise_cons]
        refine ⟨?_, hl⟩
        intro z hz
        rcases List.mem_cons.mp hz with rfl | hz'
        · exact hlt z hz hxy
        · exact hlt z hz (lt_of_lt_of_le hxy (hkey.1 z hz'))
      · rename_i hxy
        rw [List.pairwise_cons]
        refine ⟨?_, ih hkey.2 hl.2 (fun z hz => hle z (List.mem_cons_of_mem _ hz))
          (fun z hz => hlt z (List.mem_cons_of_mem _ hz))⟩
        intro z hz
        rcases mem_sortedInsert.mp hz with rfl | hz
        · exact hle y List.mem_cons_self (not_lt.mp hxy)
        · exact hl.1 z hz

theorem sorted_sortedInsert {x : α} {l : List α}
    (h : l.Pairwise (fun a b => key a ≤ key b)) :
    (sortedInsert key x l).Pairwise (fun a b => key a ≤ key b) :=
  pairwise_sortedInsert h h (fun _ _ hle => hle) (fun _ _ hlt => hlt.le)

/-- What has no larger key before it stands at the end. -/
theorem sortedInsert_of_le {x : α} {l : List α} (h : ∀ y ∈ l, key y ≤ key x) :
    sortedInsert key x l = l ++ [x] := by
  induction l with
  | nil => rfl
  | cons y l ih =>
      rw [sortedInsert_cons, if_neg (not_lt.mpr (h y List.mem_cons_self)),
        ih fun z hz => h z (List.mem_cons_of_mem _ hz), List.cons_append]

/-- Otherwise the end stays what it is. -/
theorem getLast?_sortedInsert {x : α} {l : List α} (h : ∃ y ∈ l, key x < key y) :
    (sortedInsert key x l).getLast? = l.getLast? := by
  induction l with
  | nil =>
      obtain ⟨y, hy, -⟩ := h
      exact absurd hy List.not_mem_nil
  | cons y l ih =>
      rw [sortedInsert_cons]
      split
      · rw [List.getLast?_cons_cons]
      · rename_i hle
        obtain ⟨z, hz, hlt⟩ := h
        rcases List.mem_cons.mp hz with rfl | hz
        · exact absurd hlt hle
        · rw [List.getLast?_cons, List.getLast?_cons, ih ⟨z, hz, hlt⟩]

/-- The insertion sees nothing but the key. -/
theorem map_sortedInsert {β : Type*} {key' : β → κ} {f : β → α} (h : ∀ y, key (f y) = key' y)
    (x : β) (l : List β) :
    (sortedInsert key' x l).map f = sortedInsert key (f x) (l.map f) := by
  induction l with
  | nil => rfl
  | cons y l ih =>
      rw [sortedInsert_cons, List.map_cons, sortedInsert_cons, h, h]
      split
      · rfl
      · rw [List.map_cons, ih]

/-! ## Inserting a whole list -/

variable (key) in
/-- Insert the elements of `xs` one after the other. -/
def insertAll (xs l : List α) : List α :=
  xs.foldl (fun l x => sortedInsert key x l) l

@[simp] theorem insertAll_nil (l : List α) : insertAll key [] l = l := rfl

@[simp] theorem insertAll_cons (x : α) (xs l : List α) :
    insertAll key (x :: xs) l = insertAll key xs (sortedInsert key x l) := rfl

theorem perm_insertAll (xs l : List α) : (insertAll key xs l).Perm (xs ++ l) := by
  induction xs generalizing l with
  | nil => exact .refl _
  | cons x xs ih =>
      rw [insertAll_cons]
      exact (ih _).trans (((perm_sortedInsert x l).append_left xs).trans List.perm_middle)

@[simp] theorem mem_insertAll {xs l : List α} {y : α} :
    y ∈ insertAll key xs l ↔ y ∈ xs ∨ y ∈ l := by
  rw [(perm_insertAll xs l).mem_iff, List.mem_append]

theorem sorted_insertAll {xs l : List α} (h : l.Pairwise (fun a b => key a ≤ key b)) :
    (insertAll key xs l).Pairwise (fun a b => key a ≤ key b) := by
  induction xs generalizing l with
  | nil => exact h
  | cons x xs ih => exact ih (sorted_sortedInsert h)

/-- **Insertion is stable**: the elements with one key keep their order, and a new one comes
after them. -/
theorem filter_sortedInsert {x : α} {l : List α} (h : l.Pairwise (fun a b => key a ≤ key b))
    (k : κ) :
    (sortedInsert key x l).filter (fun a => key a = k) =
      l.filter (fun a => key a = k) ++ [x].filter (fun a => key a = k) := by
  induction l with
  | nil => rfl
  | cons y l ih =>
      rw [List.pairwise_cons] at h
      rw [sortedInsert_cons]
      split
      · rename_i hxy
        by_cases hk : key x = k
        · -- nothing behind the new element has its key
          have hnone : (y :: l).filter (fun a => key a = k) = [] := by
            rw [List.filter_eq_nil_iff]
            intro z hz
            have hlt : k < key z := by
              rcases List.mem_cons.mp hz with rfl | hz
              · exact hk ▸ hxy
              · exact hk ▸ lt_of_lt_of_le hxy (h.1 z hz)
            simpa using hlt.ne'
          rw [List.filter_cons_of_pos (by simpa using hk), hnone,
            List.filter_cons_of_pos (by simpa using hk)]
          rfl
        · rw [List.filter_cons_of_neg (by simpa using hk),
            List.filter_cons_of_neg (l := []) (by simpa using hk), List.filter_nil,
            List.append_nil]
      · rw [List.filter_cons, List.filter_cons, ih h.2]
        split <;> rfl

theorem filter_insertAll {xs l : List α} (h : l.Pairwise (fun a b => key a ≤ key b)) (k : κ) :
    (insertAll key xs l).filter (fun a => key a = k) =
      l.filter (fun a => key a = k) ++ xs.filter (fun a => key a = k) := by
  induction xs generalizing l with
  | nil => rw [insertAll_nil, List.filter_nil, List.append_nil]
  | cons x xs ih =>
      rw [insertAll_cons, ih (sorted_sortedInsert h), filter_sortedInsert h, List.append_assoc,
        ← List.filter_append]
      rfl

/-- **A batch is in the finer order** when, for any two of its elements, the
strict order of their keys agrees with it, and so does their place in the batch
when the keys do not decide. -/
theorem pairwise_insertAll {R : α → α → Prop} {xs l : List α}
    (hkey : l.Pairwise (fun a b => key a ≤ key b)) (hl : l.Pairwise R)
    (hxs : xs.Pairwise (fun a b => (key a ≤ key b → R a b) ∧ (key b < key a → R b a)))
    (hcross : ∀ a ∈ l, ∀ b ∈ xs, (key a ≤ key b → R a b) ∧ (key b < key a → R b a)) :
    (insertAll key xs l).Pairwise R := by
  induction xs generalizing l with
  | nil => exact hl
  | cons x xs ih =>
      rw [List.pairwise_cons] at hxs
      refine ih (sorted_sortedInsert hkey) ?_ hxs.2 ?_
      · exact pairwise_sortedInsert hkey hl
          (fun y hy => (hcross y hy x List.mem_cons_self).1)
          (fun y hy => (hcross y hy x List.mem_cons_self).2)
      · intro a ha b hb
        rcases mem_sortedInsert.mp ha with rfl | ha
        · exact hxs.1 b hb
        · exact hcross a ha b (List.mem_cons_of_mem _ hb)

end Nachos.Lib
