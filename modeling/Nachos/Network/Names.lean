import Nachos.Network.Cases
import Nachos.Network.Replicas

/-!
# Registries by name

Locks and conditions are created by name and counted: a `CREATE` of a known name
adds one to the `deleteCounter` of its entry, a `DESTROY` takes one away and
removes the entry at zero. The entries are in a table whose slots are reused;
the names are in an array beside it that is searched up to a counter which only
grows. A deletion overwrites the name with the two characters `"/0"`, where the
source means to zero it out. A client that uses `"/0"` as a name of its own is
sent to a deleted slot.

Both registries are instances of `Kind`: the invariant `Named` is stated and
kept for any of them, and the runs of the switch carry it for the two.
-/

namespace Nachos.Network

open Nachos.Userprog Nachos.Lib

/-! ## One registry -/

/-- The slot `i` holds an entry. -/
def NamedTable.Live {α : Type} (n : NamedTable α) (i : ℕ) : Prop := (n.table.get i).isSome = true

instance {α : Type} (n : NamedTable α) (i : ℕ) : Decidable (n.Live i) :=
  inferInstanceAs (Decidable (_ = true))

/-- If the name is known, the first slot with that name holds an entry: the
search of a `CREATE` does not end at a deleted slot. -/
def NamedTable.FirstLive {α : Type} (n : NamedTable α) (name : Text) : Prop :=
  ∀ i < n.nameNumber, n.name i = name → (∀ j < i, n.name j ≠ name) → n.Live i

instance {α : Type} (n : NamedTable α) (name : Text) : Decidable (n.FirstLive name) :=
  inferInstanceAs (Decidable (∀ i < n.nameNumber, _))

/-- How the entries of a registry count. -/
structure Counter (α : Type) where
  deleteCounter : α → ℤ
  incr : α → α
  decr : α → α
  incr_eq : ∀ e, deleteCounter (incr e) = deleteCounter e + 1
  decr_eq : ∀ e, deleteCounter (decr e) = deleteCounter e - 1

/-- What a `CREATE` does to an entry that it finds: `deleteCounter++`. -/
def NamedTable.count {α : Type} (incr : α → α) (n : NamedTable α) (i : ℕ) :
    Except Fault (NamedTable α) :=
  match n.fetch i with
  | .error f => .error f
  | .ok e => .ok (n.store i (incr e))

/-- A registry after `total` `CREATE`s, where `creates i` of them gave the index
`i` and `destroys i` `DESTROY`s named it. -/
structure Named {α : Type} (C : Counter α) (n : NamedTable α) (creates destroys : ℕ → ℕ)
    (total : ℕ) : Prop where
  size : n.table.size = tableSize
  bound : n.nameNumber ≤ total
  lt : ∀ i, n.Live i → i < n.nameNumber
  nonempty : ∀ i, n.Live i → n.name i ≠ []
  oneToOne : ∀ i j, n.Live i → n.Live j → n.name i = n.name j → i = j
  dead : ∀ i, ¬ n.Live i → n.name i = NamedTable.deletedName ∨ n.name i = []
  counted : ∀ (i : ℕ) e, n.table.get i = some e →
    C.deleteCounter e = creates i - destroys i ∧ destroys i < creates i
  balanced : ∀ i, ¬ n.Live i → creates i = destroys i

section FindName

variable {names : ℕ → Text} {arg1 : Text}

theorem findName_some : ∀ {left i k : ℕ}, NamedTable.findName names arg1 left i = .ok (some k) →
    i ≤ k ∧ k < i + left ∧ names k = arg1 ∧ ∀ j, i ≤ j → j < k → names j ≠ arg1
  | 0, _, _, h => by cases h
  | left + 1, i, k, h => by
      unfold NamedTable.findName at h
      split at h
      · cases h
      · split at h
        · rename_i heq
          obtain rfl : i = k := by simpa using h
          exact ⟨le_rfl, by omega, heq, fun j h₁ h₂ => by omega⟩
        · rename_i hne
          obtain ⟨h₁, h₂, h₃, h₄⟩ := findName_some h
          refine ⟨by omega, by omega, h₃, ?_⟩
          intro j hij hjk
          rcases Nat.eq_or_lt_of_le hij with rfl | hlt
          · exact hne
          · exact h₄ j hlt hjk

theorem findName_none : ∀ {left i : ℕ}, NamedTable.findName names arg1 left i = .ok none →
    ∀ j, i ≤ j → j < i + left → names j ≠ arg1
  | 0, _, _, j, h₁, h₂ => by omega
  | left + 1, i, h, j, h₁, h₂ => by
      unfold NamedTable.findName at h
      split at h
      · cases h
      · split at h
        · cases h
        · rename_i hne
          rcases Nat.eq_or_lt_of_le h₁ with rfl | hlt
          · exact hne
          · exact findName_none h j hlt (by omega)

/-- The search stays inside the array as long as it is bounded by its length. -/
theorem findName_ok (names : ℕ → Text) (arg1 : Text) : ∀ (left i : ℕ), i + left ≤ tableSize →
    ∃ o, NamedTable.findName names arg1 left i = .ok o
  | 0, _, _ => ⟨none, rfl⟩
  | left + 1, i, h => by
      unfold NamedTable.findName
      rw [if_neg (by omega)]
      split
      · exact ⟨_, rfl⟩
      · exact findName_ok names arg1 left (i + 1) (by omega)

/-- The first match is found when it is inside the array. -/
theorem findName_first : ∀ {left i k : ℕ}, i ≤ k → k < i + left → k < tableSize → names k = arg1 →
    (∀ j, i ≤ j → j < k → names j ≠ arg1) →
    NamedTable.findName names arg1 left i = .ok (some k)
  | 0, _, _, h₁, h₂, _, _, _ => by omega
  | left + 1, i, k, h₁, h₂, h₃, hk, hfirst => by
      unfold NamedTable.findName
      rw [if_neg (by omega)]
      rcases Nat.eq_or_lt_of_le h₁ with rfl | hlt
      · rw [if_pos hk]
      · rw [if_neg (hfirst i le_rfl hlt)]
        exact findName_first hlt (by omega) h₃ hk fun j hj => hfirst j (by omega)

/-- A search with a result stayed inside the array. -/
theorem findName_range : ∀ {left i : ℕ} {o : Option ℕ},
    NamedTable.findName names arg1 left i = .ok o →
    (∀ k, o = some k → k < tableSize) ∧ (o = none → 0 < left → i + left ≤ tableSize)
  | 0, _, o, h => by
      obtain rfl : none = o := by simpa [NamedTable.findName] using h
      exact ⟨nofun, fun _ h => absurd h (Nat.lt_irrefl 0)⟩
  | left + 1, i, o, h => by
      unfold NamedTable.findName at h
      split at h
      · cases h
      · rename_i hi
        split at h
        · obtain rfl : some i = o := by simpa using h
          refine ⟨?_, nofun⟩
          intro k hk
          obtain rfl := Option.some.inj hk
          exact Nat.lt_of_not_le hi
        · obtain ⟨h₁, h₂⟩ := findName_range h
          refine ⟨h₁, fun ho _ => ?_⟩
          rcases Nat.eq_zero_or_pos left with rfl | hpos
          · omega
          · have := h₂ ho hpos
            omega

end FindName

namespace Named

variable {α : Type} {C : Counter α} {n : NamedTable α} {creates destroys : ℕ → ℕ} {total : ℕ}

theorem empty : Named C (.empty : NamedTable α) (fun _ => 0) (fun _ => 0) 0 := by
  have hdead : ∀ i, ¬ (NamedTable.empty : NamedTable α).Live i := by
    intro i
    simp [NamedTable.Live, NamedTable.empty]
  refine ⟨rfl, le_refl _, ?_, ?_, ?_, ?_, ?_, fun _ _ => rfl⟩
  · exact fun i hi => absurd hi (hdead i)
  · exact fun i hi => absurd hi (hdead i)
  · exact fun i j hi => absurd hi (hdead i)
  · exact fun i _ => .inr rfl
  · intro i e he
    simp [NamedTable.empty] at he

/-- Deleted slots are named `"/0"`: the search for any other name ends at an
entry. -/
theorem firstLive (h : Named C n creates destroys total) {name : Text} (hne : name ≠ [])
    (hdel : name = NamedTable.deletedName → n.FirstLive name) : n.FirstLive name := by
  by_cases hname : name = NamedTable.deletedName
  · exact hdel hname
  · intro i _ hi _
    by_contra hnot
    rcases h.dead i hnot with hdead | hempty
    · exact hname (hi.symm.trans hdead)
    · exact hne (hi.symm.trans hempty)

/-- Live slots with one name are one slot, so the search finds it. -/
theorem findName_live (h : Named C n creates destroys total) {name : Text} {i k : ℕ}
    (hfirst : n.FirstLive name) (hi : n.Live i) (hname : n.name i = name)
    (hfind : NamedTable.findName n.name name n.nameNumber 0 = .ok (some k)) : k = i := by
  obtain ⟨-, hlt, hk, hbefore⟩ := findName_some hfind
  have hlive := hfirst k (by omega) hk fun j hj => hbefore j (Nat.zero_le j) hj
  exact h.oneToOne k i hlive hi (hk.trans hname.symm)

theorem live_store {i j : ℕ} {e : α} (x : α) (he : n.table.get i = some e) :
    (n.store i x).Live j ↔ n.Live j := by
  unfold NamedTable.Live NamedTable.store
  by_cases hj : j = i
  · subst hj
    simp [Table.get_store_self x he, he]
  · rw [Table.get_store_of_ne x he (by omega)]

/-- An entry is written back with another counter. -/
theorem store (h : Named C n creates destroys total) {i : ℕ} {e x : α} {creates' destroys' : ℕ → ℕ}
    {total' : ℕ} (he : n.table.get i = some e) (hcreates : ∀ j, j ≠ i → creates' j = creates j)
    (hdestroys : ∀ j, j ≠ i → destroys' j = destroys j) (hle : total ≤ total')
    (hx : C.deleteCounter x = creates' i - destroys' i) (hlt : destroys' i < creates' i) :
    Named C (n.store i x) creates' destroys' total' := by
  have hlive := fun j => live_store (n := n) (j := j) x he
  have hi : n.Live i := by simp [NamedTable.Live, he]
  refine ⟨h.size, le_trans h.bound hle, ?_, ?_, ?_, ?_, ?_, ?_⟩
  · exact fun j hj => h.lt j ((hlive j).mp hj)
  · exact fun j hj => h.nonempty j ((hlive j).mp hj)
  · exact fun j k hj hk => h.oneToOne j k ((hlive j).mp hj) ((hlive k).mp hk)
  · exact fun j hj => h.dead j fun hj' => hj ((hlive j).mpr hj')
  · intro j y hy
    by_cases hj : j = i
    · subst hj
      obtain rfl : x = y := Option.some.inj ((Table.get_store_self x he).symm.trans hy)
      exact ⟨hx, hlt⟩
    · have hget := (Table.get_store_of_ne x he (show (j : ℤ) ≠ i by omega)).symm.trans hy
      rw [hcreates j hj, hdestroys j hj]
      exact h.counted j y hget
  · intro j hj
    have hj' : ¬ n.Live j := fun hlj => hj ((hlive j).mpr hlj)
    have hne : j ≠ i := by
      rintro rfl
      exact hj' hi
    rw [hcreates j hne, hdestroys j hne]
    exact h.balanced j hj'

/-- **A `CREATE` of a live name** gives its index and counts one more user. -/
theorem create_live (h : Named C n creates destroys total) {name : Text} {i : ℕ} {e : α}
    (fresh : α) (hfirst : n.FirstLive name) (htotal : total < tableSize)
    (he : n.table.get i = some e) (hname : n.name i = name) :
    n.create (NamedTable.count C.incr) fresh name = .ok ((i : ℤ), n.store i (C.incr e)) ∧
      Named C (n.store i (C.incr e)) (Function.update creates i (creates i + 1)) destroys
        (total + 1) := by
  have hi : n.Live i := by simp [NamedTable.Live, he]
  have hbound := h.bound
  obtain ⟨o, ho⟩ := findName_ok n.name name n.nameNumber 0 (by omega)
  constructor
  · cases o with
    | none =>
        exact absurd hname (findName_none ho i (Nat.zero_le i) (by have := h.lt i hi; omega))
    | some k =>
        obtain rfl := h.findName_live hfirst hi hname ho
        simp only [NamedTable.create, ho, NamedTable.count, fetch_of_get he]
  · obtain ⟨hcounter, hlt⟩ := h.counted i e he
    refine h.store he ?_ (fun _ _ => rfl) (Nat.le_succ _) ?_ ?_
    · intro j hj
      exact Function.update_of_ne hj ..
    · rw [C.incr_eq, hcounter, Function.update_self]
      push_cast
      omega
    · rw [Function.update_self]
      omega

/-- **A `CREATE` of a name that is not live** puts a fresh entry with the name
into a free slot. -/
theorem create_fresh (h : Named C n creates destroys total) {name : Text} {fresh : α}
    (hfresh : C.deleteCounter fresh = 1) (hne : name ≠ []) (hfirst : n.FirstLive name)
    (htotal : total < tableSize) (hnot : ∀ i, n.Live i → n.name i ≠ name) :
    ∃ (i : ℕ) (n' : NamedTable α),
      n.create (NamedTable.count C.incr) fresh name = .ok ((i : ℤ), n') ∧
      ¬ n.Live i ∧ n'.table.get i = some fresh ∧ n'.name = Function.update n.name i name ∧
      (∀ j : ℕ, j ≠ i → n'.table.get j = n.table.get j) ∧
      Named C n' (Function.update creates i (creates i + 1)) destroys (total + 1) := by
  have hbound := h.bound
  have hsize := h.size
  obtain ⟨o, ho⟩ := findName_ok n.name name n.nameNumber 0 (by omega)
  obtain rfl : o = none := by
    cases o with
    | none => rfl
    | some k =>
        obtain ⟨-, hlt, hk, hbefore⟩ := findName_some ho
        have hlive := hfirst k (by omega) hk fun j hj => hbefore j (Nat.zero_le j) hj
        exact absurd hk (hnot k hlive)
  -- the slot behind all that were ever used is free, so `put` finds one
  have hfree : n.table.get (n.nameNumber : ℕ) = none := by
    by_contra hsome
    have hlive : n.Live n.nameNumber := Option.isSome_iff_ne_none.mpr hsome
    exact absurd (h.lt _ hlive) (lt_irrefl _)
  obtain ⟨hnonneg, hle⟩ := n.table.put_le fresh (show n.nameNumber < n.table.size by omega) hfree
  generalize hput : n.table.put fresh = p at hnonneg hle
  obtain ⟨z, table⟩ := p
  obtain ⟨i, rfl⟩ : ∃ i : ℕ, z = i := ⟨z.toNat, (Int.toNat_of_nonneg hnonneg).symm⟩
  obtain ⟨hnone, hsome, hsize', hrest⟩ := Table.put_spec hput (by omega)
  have hdead : ¬ n.Live i := by simp [NamedTable.Live, hnone]
  refine ⟨i, ⟨table, Function.update n.name i name, n.nameNumber + 1⟩, ?_, hdead, hsome, rfl, ?_, ?_⟩
  · simp only [NamedTable.create, ho, hput]
    rw [if_neg (by omega)]
    rfl
  · exact fun j hj => hrest j (by omega)
  · -- slots other than `i` are as before
    have hlive : ∀ j, j ≠ i → ((⟨table, Function.update n.name i name, n.nameNumber + 1⟩ :
        NamedTable α).Live j ↔ n.Live j) := by
      intro j hj
      simp only [NamedTable.Live]
      rw [hrest j (by omega)]
    refine ⟨hsize'.trans hsize, by simp only; omega, ?_, ?_, ?_, ?_, ?_, ?_⟩
    · intro j hj
      show j < n.nameNumber + 1
      by_cases hji : j = i
      · omega
      · have := h.lt j ((hlive j hji).mp hj)
        omega
    · intro j hj
      show Function.update n.name i name j ≠ []
      by_cases hji : j = i
      · rw [hji, Function.update_self]
        exact hne
      · rw [Function.update_of_ne hji]
        exact h.nonempty j ((hlive j hji).mp hj)
    · intro j k hj hk
      show Function.update n.name i name j = Function.update n.name i name k → j = k
      by_cases hji : j = i <;> by_cases hki : k = i
      · intro _
        rw [hji, hki]
      · rw [hji, Function.update_self, Function.update_of_ne hki]
        exact fun heq => absurd heq.symm (hnot k ((hlive k hki).mp hk))
      · rw [hki, Function.update_self, Function.update_of_ne hji]
        exact fun heq => absurd heq (hnot j ((hlive j hji).mp hj))
      · rw [Function.update_of_ne hji, Function.update_of_ne hki]
        exact h.oneToOne j k ((hlive j hji).mp hj) ((hlive k hki).mp hk)
    · intro j hj
      have hji : j ≠ i := by
        rintro rfl
        exact hj (by simp [NamedTable.Live, hsome])
      show Function.update n.name i name j = _ ∨ Function.update n.name i name j = []
      rw [Function.update_of_ne hji]
      exact h.dead j fun hj' => hj ((hlive j hji).mpr hj')
    · intro j e he
      by_cases hji : j = i
      · subst hji
        obtain rfl : fresh = e := Option.some.inj (hsome.symm.trans he)
        have := h.balanced j hdead
        rw [hfresh, Function.update_self]
        push_cast
        omega
      · rw [Function.update_of_ne hji]
        exact h.counted j e ((hrest j (by omega)).symm.trans he)
    · intro j hj
      have hji : j ≠ i := by
        rintro rfl
        exact hj (by simp [NamedTable.Live, hsome])
      rw [Function.update_of_ne hji]
      exact h.balanced j fun hj' => hj ((hlive j hji).mpr hj')

/-- **A `DESTROY` of an entry** takes one user away, or deletes it with the last. -/
theorem destroy (h : Named C n creates destroys total) {i : ℕ} {e : α}
    (he : n.table.get i = some e) :
    ∃ ack n', n.destroy C.decr C.deleteCounter i = .ok (ack, n') ∧
      (∀ j, j ≠ i → n'.name j = n.name j) ∧ (n'.Live i → n'.name i = n.name i) ∧
      (∀ j : ℕ, j ≠ i → n'.table.get j = n.table.get j) ∧
      Named C n' creates (Function.update destroys i (destroys i + 1)) total := by
  obtain ⟨hcounter, hlt⟩ := h.counted i e he
  have hi : n.Live i := by simp [NamedTable.Live, he]
  by_cases hzero : C.deleteCounter (C.decr e) = 0
  · refine ⟨.deleted, { n with
      table := (n.table.remove i).2
      name := Function.update n.name i NamedTable.deletedName }, ?_, ?_, ?_, ?_, ?_⟩
    · simp only [NamedTable.destroy, fetch_of_get he, hzero, if_true, Int.toNat_natCast]
    · exact fun j hj => Function.update_of_ne hj ..
    · intro hlive
      simp [NamedTable.Live, Table.get_remove] at hlive
    · intro j hj
      rw [Table.get_remove, if_neg (by omega)]
    · rw [C.decr_eq] at hzero
      have hlive : ∀ j, ({ n with
          table := (n.table.remove i).2
          name := Function.update n.name i NamedTable.deletedName } : NamedTable α).Live j ↔
          j ≠ i ∧ n.Live j := by
        intro j
        simp only [NamedTable.Live, Table.get_remove]
        by_cases hj : j = i
        · simp [hj]
        · rw [if_neg (by omega)]
          simp [hj]
      refine ⟨(Table.remove_size _ _).trans h.size, h.bound, ?_, ?_, ?_, ?_, ?_, ?_⟩
      · exact fun j hj => h.lt j ((hlive j).mp hj).2
      · intro j hj
        obtain ⟨hne, hj'⟩ := (hlive j).mp hj
        show Function.update n.name i NamedTable.deletedName j ≠ []
        rw [Function.update_of_ne hne]
        exact h.nonempty j hj'
      · intro j k hj hk
        obtain ⟨hne, hj'⟩ := (hlive j).mp hj
        obtain ⟨hne', hk'⟩ := (hlive k).mp hk
        show Function.update n.name i NamedTable.deletedName j =
          Function.update n.name i NamedTable.deletedName k → j = k
        rw [Function.update_of_ne hne, Function.update_of_ne hne']
        exact h.oneToOne j k hj' hk'
      · intro j hj
        show Function.update n.name i NamedTable.deletedName j = _ ∨
          Function.update n.name i NamedTable.deletedName j = []
        by_cases hji : j = i
        · rw [hji, Function.update_self]
          exact .inl rfl
        · rw [Function.update_of_ne hji]
          exact h.dead j fun hj' => hj ((hlive j).mpr ⟨hji, hj'⟩)
      · intro j x hx
        have hji : j ≠ i := by
          rintro rfl
          simp [Table.get_remove] at hx
        rw [Function.update_of_ne hji]
        rw [Table.get_remove, if_neg (by omega)] at hx
        exact h.counted j x hx
      · intro j hj
        by_cases hji : j = i
        · rw [hji, Function.update_self]
          omega
        · rw [Function.update_of_ne hji]
          exact h.balanced j fun hj' => hj ((hlive j).mpr ⟨hji, hj'⟩)
  · refine ⟨.notyet, n.store i (C.decr e), ?_, fun _ _ => rfl, fun _ => rfl, ?_, ?_⟩
    · simp only [NamedTable.destroy, fetch_of_get he, hzero, if_false]
    · intro j hj
      exact Table.get_store_of_ne _ he (by omega)
    · rw [C.decr_eq] at hzero
      refine h.store he (fun _ _ => rfl) ?_ (le_refl _) ?_ ?_
      · intro j hj
        exact Function.update_of_ne hj ..
      · rw [C.decr_eq, hcounter, Function.update_self]
        push_cast
        omega
      · rw [Function.update_self]
        omega

end Named

/-! ## The two registries of the switch -/

/-- The requests that create and destroy locks and conditions. -/
def Op.isRegistry : Op → Bool
  | .createLock _ | .destroyLock _ | .createCV _ | .destroyCV _ => true
  | _ => false

/-- One of the two registries: where it is in the tables, which requests work on
it, and what the switch makes of them. -/
structure Kind (α : Type) where
  counter : Counter α
  table : NtTables → NamedTable α
  put : NtTables → NamedTable α → NtTables
  created : Op → Option Text
  destroyed : Op → Option ℤ
  fresh : Request → α
  table_put : ∀ t n, table (put t n) = n
  fresh_one : ∀ r, counter.deleteCounter (fresh r) = 1
  create_eq : ∀ nt r t name (i : ℤ) n, created r.op = some name →
    (table t).create (NamedTable.count counter.incr) (fresh r) name = .ok (i, n) →
    dispatch nt r t = .ok (put t n, replyIf nt r.ntID (.index i))
  destroy_eq : ∀ nt r t i ack n, destroyed r.op = some i →
    (table t).destroy counter.decr counter.deleteCounter i = .ok (ack, n) →
    dispatch nt r t = .ok (put t n, [toOwn nt ack])
  exclusive : ∀ op name i, created op = some name → destroyed op ≠ some i
  other : ∀ nt r t t' ps, r.op.isRegistry = true → created r.op = none → destroyed r.op = none →
    dispatch nt r t = .ok (t', ps) → table t' = table t

/-- The `found` of the two `CREATE`s is a `count`. -/
theorem create_of_count {α : Type} {incr : α → α} {n : NamedTable α} {fresh : α} {name : Text}
    {found : NamedTable α → ℕ → Except Fault (NamedTable α)} {o : Except Fault (ℤ × NamedTable α)}
    (h : n.create (NamedTable.count incr) fresh name = o)
    (hfound : ∀ n i, found n i = NamedTable.count incr n i) : n.create found fresh name = o := by
  rw [← h, funext₂ hfound]

def lockKind : Kind NtLockEntry where
  counter := ⟨NtLockEntry.deleteCounter,
    fun sle => { sle with deleteCounter := sle.deleteCounter + 1 },
    fun sle => { sle with deleteCounter := sle.deleteCounter - 1 }, fun _ => rfl, fun _ => rfl⟩
  table t := t.locks
  put t locks := { t with locks }
  created
    | .createLock name => some name
    | _ => none
  destroyed
    | .destroyLock l => some l
    | _ => none
  fresh r := ⟨[], .free, r.ntID, 1⟩
  table_put _ _ := rfl
  fresh_one _ := rfl
  create_eq nt r t name i n h hcreate := by
    obtain ⟨id, op⟩ := r
    cases op <;> cases h
    simp only [dispatch, createLock]
    rw [create_of_count hcreate]
    intro n i
    unfold NamedTable.count
    cases n.fetch i <;> rfl
  destroy_eq nt r t i ack n h hdestroy := by
    obtain ⟨id, op⟩ := r
    cases op <;> cases h
    simp only [dispatch, destroyLock, hdestroy]
  exclusive op name i h := by
    cases op <;> cases h
    simp
  other nt r t t' ps hr hc hd h := by
    obtain ⟨id, op⟩ := r
    cases op with
    | createLock name => cases hc
    | destroyLock l => cases hd
    | createCV name => exact (createCV_ok h).1
    | destroyCV c => exact (destroyCV_ok (r := ⟨id, .destroyCV c⟩) h).1
    | _ => cases hr

def conditionKind : Kind NtConditionEntry where
  counter := ⟨NtConditionEntry.deleteCounter,
    fun sce => { sce with deleteCounter := sce.deleteCounter + 1 },
    fun sce => { sce with deleteCounter := sce.deleteCounter - 1 }, fun _ => rfl, fun _ => rfl⟩
  table t := t.conditions
  put t conditions := { t with conditions }
  created
    | .createCV name => some name
    | _ => none
  destroyed
    | .destroyCV c => some c
    | _ => none
  fresh _ := ⟨[], 0, 1⟩
  table_put _ _ := rfl
  fresh_one _ := rfl
  create_eq nt r t name i n h hcreate := by
    obtain ⟨id, op⟩ := r
    cases op <;> cases h
    simp only [dispatch, createCV]
    rw [create_of_count hcreate]
    intro n i
    unfold NamedTable.count
    cases n.fetch i <;> rfl
  destroy_eq nt r t i ack n h hdestroy := by
    obtain ⟨id, op⟩ := r
    cases op <;> cases h
    simp only [dispatch, destroyCV, hdestroy]
  exclusive op name i h := by
    cases op <;> cases h
    simp
  other nt r t t' ps hr hc hd h := by
    obtain ⟨id, op⟩ := r
    cases op with
    | createLock name => exact (createLock_ok h).1
    | destroyLock l => exact (destroyLock_ok (r := ⟨id, .destroyLock l⟩) h).1
    | createCV name => cases hc
    | destroyCV c => cases hd
    | _ => cases hr

namespace Kind

variable {α : Type} (K : Kind α)

/-- A `CREATE` that gave the index `i`: the name has it afterwards. -/
def CreatedAt (e : Dispatched) (i : ℕ) : Prop :=
  K.created e.request.op = some ((K.table e.after).name i) ∧ (K.table e.after).Live i

instance (e : Dispatched) (i : ℕ) : Decidable (K.CreatedAt e i) :=
  inferInstanceAs (Decidable (_ ∧ _))

/-- The `CREATE`s and `DESTROY`s of the entry at `i`, and all `CREATE`s. -/
def creates (tr : List Dispatched) (i : ℕ) : ℕ := tr.countP fun e => K.CreatedAt e i

@[inherit_doc creates]
def destroys (tr : List Dispatched) (i : ℕ) : ℕ :=
  tr.countP fun e => K.destroyed e.request.op = some (i : ℤ)

@[inherit_doc creates]
def total (tr : List Dispatched) : ℕ := tr.countP fun e => (K.created e.request.op).isSome

/-- The requests that clients may send: `CREATE`s with non-empty names, at most
fifty of them, and `DESTROY`s of entries that are there. -/
structure Asks (tr : List Dispatched) (t : NtTables) (op : Op) : Prop where
  create : ∀ name ∈ K.created op, name ≠ [] ∧ K.total tr < tableSize
  destroy : ∀ i ∈ K.destroyed op, ((K.table t).table.get i).isSome = true

instance (tr : List Dispatched) (t : NtTables) (op : Op) : Decidable (K.Asks tr t op) :=
  decidable_of_iff ((∀ name ∈ K.created op, name ≠ [] ∧ K.total tr < tableSize) ∧
    ∀ i ∈ K.destroyed op, ((K.table t).table.get i).isSome = true)
    ⟨fun h => ⟨h.1, h.2⟩, fun h => ⟨h.create, h.destroy⟩⟩

/-- Moreover, the search of a `CREATE` of `"/0"` does not end at a deleted slot. -/
def Admits (tr : List Dispatched) (t : NtTables) (op : Op) : Prop :=
  K.Asks tr t op ∧
    (K.created op = some NamedTable.deletedName → (K.table t).FirstLive NamedTable.deletedName)

instance (tr : List Dispatched) (t : NtTables) (op : Op) : Decidable (K.Admits tr t op) :=
  inferInstanceAs (Decidable (_ ∧ (_ → _)))

/-- What one request does to the registry. -/
structure Serves (nt : NetThread) (e : Dispatched) : Prop where
  /-- A live name keeps its index and gets one more user. -/
  live : ∀ name (i : ℕ) x, K.created e.request.op = some name →
    (K.table e.before).table.get i = some x → (K.table e.before).name i = name →
    e.packets = replyIf nt e.request.ntID (.index i) ∧
      ∃ y, (K.table e.after).table.get i = some y ∧
        K.counter.deleteCounter y = K.counter.deleteCounter x + 1
  /-- A name that is not live gets a fresh entry. -/
  fresh : ∀ name, K.created e.request.op = some name →
    (∀ i, (K.table e.before).Live i → (K.table e.before).name i ≠ name) →
    ∃ (i : ℕ) (y : α), e.packets = replyIf nt e.request.ntID (.index i) ∧
      ¬ (K.table e.before).Live i ∧ (K.table e.after).table.get i = some y ∧
      K.counter.deleteCounter y = 1 ∧ (K.table e.after).name i = name
  keeps : ∀ i, (K.table e.before).Live i → (K.table e.after).Live i →
    (K.table e.after).name i = (K.table e.before).name i

/-- The registry after the requests in `tr`. -/
structure Registers (nt : NetThread) (tr : List Dispatched) (t : NtTables) : Prop where
  oneToOne : ∀ i j, (K.table t).Live i → (K.table t).Live j →
    (K.table t).name i = (K.table t).name j → i = j
  present : ∀ i, (K.table t).Live i ↔ K.destroys tr i < K.creates tr i
  counted : ∀ (i : ℕ) x, (K.table t).table.get i = some x →
    K.counter.deleteCounter x = K.creates tr i - K.destroys tr i
  served : ∀ e ∈ tr, K.Serves nt e

/-- The invariant of a run for one of the registries. -/
def Kept (tr : List Dispatched) (t : NtTables) : Prop :=
  Named K.counter (K.table t) (K.creates tr) (K.destroys tr) (K.total tr)

variable {K}

theorem creates_snoc (tr : List Dispatched) (e : Dispatched) (i : ℕ) :
    K.creates (tr ++ [e]) i = K.creates tr i + if K.CreatedAt e i then 1 else 0 := by
  simp [creates, List.countP_append, List.countP_singleton]

theorem destroys_snoc (tr : List Dispatched) (e : Dispatched) (i : ℕ) :
    K.destroys (tr ++ [e]) i =
      K.destroys tr i + if K.destroyed e.request.op = some (i : ℤ) then 1 else 0 := by
  simp [destroys, List.countP_append, List.countP_singleton]

theorem total_snoc (tr : List Dispatched) (e : Dispatched) :
    K.total (tr ++ [e]) = K.total tr + if (K.created e.request.op).isSome then 1 else 0 := by
  simp [total, List.countP_append, List.countP_singleton]

variable {nt : NetThread} {tr : List Dispatched} {t t' : NtTables} {r : Request}
  {ps : List Packet}

/-- A `CREATE` that leaves its name at `i` is the only thing that is counted. -/
theorem Kept.of_create {n : NamedTable α} {name : Text} {i : ℕ}
    (hname : K.created r.op = some name) (hi : n.Live i) (hni : n.name i = name)
    (h : Named K.counter n (Function.update (K.creates tr) i (K.creates tr i + 1))
      (K.destroys tr) (K.total tr + 1)) :
    K.Kept (tr ++ [⟨t, r, K.put t n, ps⟩]) (K.put t n) := by
  have hat : ∀ j, K.CreatedAt ⟨t, r, K.put t n, ps⟩ j ↔ j = i := by
    intro j
    unfold CreatedAt
    simp only [K.table_put, hname, Option.some.injEq]
    constructor
    · rintro ⟨hj, hlive⟩
      exact h.oneToOne j i hlive hi (hj.symm.trans hni.symm)
    · rintro rfl
      exact ⟨hni.symm, hi⟩
  have hcreates : K.creates (tr ++ [⟨t, r, K.put t n, ps⟩]) =
      Function.update (K.creates tr) i (K.creates tr i + 1) := by
    funext j
    rw [creates_snoc]
    by_cases hj : j = i
    · rw [if_pos ((hat j).mpr hj), hj, Function.update_self]
    · rw [if_neg (fun hc => hj ((hat j).mp hc)), Function.update_of_ne hj, Nat.add_zero]
  have hdestroys : K.destroys (tr ++ [⟨t, r, K.put t n, ps⟩]) = K.destroys tr := by
    funext j
    rw [destroys_snoc, if_neg (K.exclusive r.op name j hname), Nat.add_zero]
  have htotal : K.total (tr ++ [⟨t, r, K.put t n, ps⟩]) = K.total tr + 1 := by
    rw [total_snoc, if_pos (by simp [hname])]
  unfold Kept
  rw [K.table_put, hcreates, hdestroys, htotal]
  exact h

/-- **A `CREATE`** is served and keeps the invariant. -/
theorem Kept.create (nt : NetThread) (h : K.Kept tr t) (hok : K.Admits tr t r.op) {name : Text}
    (hname : K.created r.op = some name) :
    ∃ t' ps, dispatch nt r t = .ok (t', ps) ∧ K.Kept (tr ++ [⟨t, r, t', ps⟩]) t' ∧
      K.Serves nt ⟨t, r, t', ps⟩ := by
  obtain ⟨hne, htotal⟩ := hok.1.create name hname
  have hfirst : (K.table t).FirstLive name := by
    refine Named.firstLive h hne ?_
    rintro rfl
    exact hok.2 hname
  by_cases hlive : ∃ i, (K.table t).Live i ∧ (K.table t).name i = name
  · obtain ⟨i, hi, hni⟩ := hlive
    obtain ⟨x, hx⟩ := Option.isSome_iff_exists.mp hi
    obtain ⟨hcreate, hnamed⟩ := Named.create_live h (K.fresh r) hfirst htotal hx hni
    have hlive := (Named.live_store (K.counter.incr x) hx).mpr hi
    refine ⟨_, _, K.create_eq nt r t name i _ hname hcreate, .of_create hname hlive hni hnamed, ?_⟩
    refine ⟨?_, ?_, ?_⟩
    · intro name' j y hname' hy hnj
      obtain rfl : name = name' := Option.some.inj (hname.symm.trans hname')
      obtain rfl : j = i :=
        Named.oneToOne h j i (by simp [NamedTable.Live, hy]) hi (hnj.trans hni.symm)
      obtain rfl : x = y := Option.some.inj (hx.symm.trans hy)
      refine ⟨rfl, K.counter.incr x, ?_, K.counter.incr_eq x⟩
      simp only [K.table_put]
      exact Table.get_store_self _ hx
    · intro name' hname' hnot
      obtain rfl : name = name' := Option.some.inj (hname.symm.trans hname')
      exact absurd hni (hnot i hi)
    · intro j _ _
      simp only [K.table_put]
      rfl
  · have hnot : ∀ i, (K.table t).Live i → (K.table t).name i ≠ name :=
      fun i hi hni => hlive ⟨i, hi, hni⟩
    obtain ⟨i, n, hcreate, hdead, hget, hnames, -, hnamed⟩ :=
      Named.create_fresh h (K.fresh_one r) hne hfirst htotal hnot
    have hni : n.name i = name := by rw [hnames, Function.update_self]
    have hi : n.Live i := by simp [NamedTable.Live, hget]
    refine ⟨_, _, K.create_eq nt r t name i n hname hcreate, .of_create hname hi hni hnamed, ?_⟩
    refine ⟨?_, ?_, ?_⟩
    · intro name' j y hname' hy hnj
      obtain rfl : name = name' := Option.some.inj (hname.symm.trans hname')
      exact absurd hnj (hnot j (by simp [NamedTable.Live, hy]))
    · intro name' hname' _
      obtain rfl : name = name' := Option.some.inj (hname.symm.trans hname')
      refine ⟨i, K.fresh r, rfl, hdead, ?_, K.fresh_one r, ?_⟩
      · simp only [K.table_put, hget]
      · simp only [K.table_put, hni]
    · intro j hj _
      have hji : j ≠ i := by
        rintro rfl
        exact hdead hj
      simp only [K.table_put, hnames, Function.update_of_ne hji]

/-- **A `DESTROY`** is served and keeps the invariant. -/
theorem Kept.destroy (nt : NetThread) (h : K.Kept tr t) (hok : K.Admits tr t r.op) {i : ℤ}
    (hi : K.destroyed r.op = some i) :
    ∃ t' ps, dispatch nt r t = .ok (t', ps) ∧ K.Kept (tr ++ [⟨t, r, t', ps⟩]) t' ∧
      K.Serves nt ⟨t, r, t', ps⟩ := by
  have hnone : K.created r.op = none := by
    cases hc : K.created r.op with
    | none => rfl
    | some name => exact absurd hi (K.exclusive r.op name i hc)
  obtain ⟨x, hx⟩ := Option.isSome_iff_exists.mp (hok.1.destroy i hi)
  obtain ⟨k, rfl⟩ := Int.eq_ofNat_of_zero_le (Table.get_range hx).1
  obtain ⟨ack, n, hdestroy, hnames, hname, -, hnamed⟩ := Named.destroy h hx
  refine ⟨_, _, K.destroy_eq nt r t k ack n hi hdestroy, ?_, ?_, ?_, ?_⟩
  · have hcreates : K.creates (tr ++ [⟨t, r, K.put t n, [toOwn nt ack]⟩]) = K.creates tr := by
      funext j
      rw [creates_snoc, if_neg (by simp [CreatedAt, hnone]), Nat.add_zero]
    have hdestroys : K.destroys (tr ++ [⟨t, r, K.put t n, [toOwn nt ack]⟩]) =
        Function.update (K.destroys tr) k (K.destroys tr k + 1) := by
      funext j
      rw [destroys_snoc]
      by_cases hj : j = k
      · rw [if_pos (by rw [hi, hj]), hj, Function.update_self]
      · rw [if_neg, Function.update_of_ne hj, Nat.add_zero]
        rw [hi, Option.some.injEq]
        omega
    have htotal : K.total (tr ++ [⟨t, r, K.put t n, [toOwn nt ack]⟩]) = K.total tr := by
      rw [total_snoc, if_neg (by simp [hnone]), Nat.add_zero]
    unfold Kept
    rw [K.table_put, hcreates, hdestroys, htotal]
    exact hnamed
  · intro name j y hname'
    cases hnone.symm.trans hname'
  · intro name hname'
    cases hnone.symm.trans hname'
  · intro j _ hj
    simp only [K.table_put] at hj ⊢
    by_cases hjk : j = k
    · subst hjk
      exact hname hj
    · exact hnames j hjk

/-- **A request to the other registry** changes nothing here. -/
theorem Kept.other (h : K.Kept tr t) (hr : r.op.isRegistry = true)
    (hc : K.created r.op = none) (hd : K.destroyed r.op = none)
    (hs : dispatch nt r t = .ok (t', ps)) :
    K.Kept (tr ++ [⟨t, r, t', ps⟩]) t' ∧ K.Serves nt ⟨t, r, t', ps⟩ := by
  have htable := K.other nt r t t' ps hr hc hd hs
  have hcreates : K.creates (tr ++ [⟨t, r, t', ps⟩]) = K.creates tr := by
    funext j
    rw [creates_snoc, if_neg (by simp [CreatedAt, hc]), Nat.add_zero]
  have hdestroys : K.destroys (tr ++ [⟨t, r, t', ps⟩]) = K.destroys tr := by
    funext j
    rw [destroys_snoc, if_neg (by simp [hd]), Nat.add_zero]
  have htotal : K.total (tr ++ [⟨t, r, t', ps⟩]) = K.total tr := by
    rw [total_snoc, if_neg (by simp [hc]), Nat.add_zero]
  refine ⟨?_, ?_, ?_, ?_⟩
  · unfold Kept
    rw [htable, hcreates, hdestroys, htotal]
    exact h
  · intro name j y hname'
    cases hc.symm.trans hname'
  · intro name hname'
    cases hc.symm.trans hname'
  · intro j _ _
    simp only [htable]

theorem Kept.initial (htable : K.table NtTables.initial = .empty) : K.Kept [] NtTables.initial := by
  unfold Kept
  rw [htable]
  exact Named.empty

/-- One step of a run, whatever the request is. -/
theorem Kept.step (h : K.Kept tr t) (hr : r.op.isRegistry = true) (hok : K.Admits tr t r.op)
    (hs : dispatch nt r t = .ok (t', ps)) :
    K.Kept (tr ++ [⟨t, r, t', ps⟩]) t' ∧ K.Serves nt ⟨t, r, t', ps⟩ := by
  cases hc : K.created r.op with
  | some name =>
      obtain ⟨t₁, ps₁, hs₁, hkept, hserves⟩ := h.create nt hok hc
      obtain ⟨rfl, rfl⟩ : t₁ = t' ∧ ps₁ = ps := by
        simpa using Except.ok.inj (hs₁.symm.trans hs)
      exact ⟨hkept, hserves⟩
  | none =>
      cases hd : K.destroyed r.op with
      | some i =>
          obtain ⟨t₁, ps₁, hs₁, hkept, hserves⟩ := h.destroy nt hok hd
          obtain ⟨rfl, rfl⟩ : t₁ = t' ∧ ps₁ = ps := by
            simpa using Except.ok.inj (hs₁.symm.trans hs)
          exact ⟨hkept, hserves⟩
      | none => exact h.other hr hc hd hs

theorem Kept.registers (h : K.Kept tr t) (hserved : ∀ e ∈ tr, K.Serves nt e) :
    K.Registers nt tr t := by
  refine ⟨Named.oneToOne h, ?_, fun i x hx => (Named.counted h i x hx).1, hserved⟩
  intro i
  constructor
  · intro hi
    obtain ⟨x, hx⟩ := Option.isSome_iff_exists.mp hi
    exact (Named.counted h i x hx).2
  · intro hlt
    by_contra hdead
    have := Named.balanced h i hdead
    omega

end Kind

/-! ## Runs -/

/-- A client asks for something that both registries may be asked. -/
def Asked (tr : List Dispatched) (t : NtTables) (r : Request) : Prop :=
  r.op.isRegistry = true ∧ lockKind.Asks tr t r.op ∧ conditionKind.Asks tr t r.op

/-- Moreover, both registries admit it. -/
def Admitted (tr : List Dispatched) (t : NtTables) (r : Request) : Prop :=
  r.op.isRegistry = true ∧ lockKind.Admits tr t r.op ∧ conditionKind.Admits tr t r.op

instance (tr : List Dispatched) (t : NtTables) (r : Request) : Decidable (Asked tr t r) :=
  inferInstanceAs (Decidable (_ ∧ _ ∧ _))

instance (tr : List Dispatched) (t : NtTables) (r : Request) : Decidable (Admitted tr t r) :=
  inferInstanceAs (Decidable (_ ∧ _ ∧ _))

/-- Every admitted request is served: none of them stops the thread. -/
theorem Admitted.served {nt : NetThread} {tr : List Dispatched} {t : NtTables} {r : Request}
    (hlock : lockKind.Kept tr t) (hcond : conditionKind.Kept tr t) (h : Admitted tr t r) :
    (dispatchStep nt t r).isSome = true := by
  obtain ⟨hr, hl, hc⟩ := h
  have hd : ∃ t' ps, dispatch nt r t = .ok (t', ps) := by
    cases hop : r.op with
    | createLock name =>
        obtain ⟨t', ps, hs, -⟩ := hlock.create nt hl (show _ = some name by rw [hop]; rfl)
        exact ⟨t', ps, hs⟩
    | destroyLock l =>
        obtain ⟨t', ps, hs, -⟩ := hlock.destroy nt hl (show _ = some l by rw [hop]; rfl)
        exact ⟨t', ps, hs⟩
    | createCV name =>
        obtain ⟨t', ps, hs, -⟩ := hcond.create nt hc (show _ = some name by rw [hop]; rfl)
        exact ⟨t', ps, hs⟩
    | destroyCV c =>
        obtain ⟨t', ps, hs, -⟩ := hcond.destroy nt hc (show _ = some c by rw [hop]; rfl)
        exact ⟨t', ps, hs⟩
    | _ =>
        rw [hop] at hr
        cases hr
  obtain ⟨t', ps, hs⟩ := hd
  simp [dispatchStep, hs]

/-- Both registries after every run of admitted requests. -/
theorem registries_of_run {nt : NetThread} {tr : List Dispatched} {t : NtTables}
    (h : Run (dispatchStep nt) Admitted NtTables.initial tr t) :
    (lockKind.Kept tr t ∧ conditionKind.Kept tr t) ∧
      ∀ e ∈ tr, lockKind.Serves nt e ∧ conditionKind.Serves nt e := by
  refine h.invariant (I := fun tr t => (lockKind.Kept tr t ∧ conditionKind.Kept tr t) ∧
    ∀ e ∈ tr, lockKind.Serves nt e ∧ conditionKind.Serves nt e) ?_ ?_
  · exact ⟨⟨.initial rfl, .initial rfl⟩, by simp⟩
  · intro tr t r t' e ⟨⟨hlock, hcond⟩, hserved⟩ hok hs
    obtain ⟨before, request, after, packets⟩ := e
    obtain ⟨rfl, rfl, rfl, hd⟩ := dispatchStep_some hs
    obtain ⟨hlock', hserves⟩ := hlock.step hok.1 hok.2.1 hd
    obtain ⟨hcond', hserves'⟩ := hcond.step hok.1 hok.2.2 hd
    refine ⟨⟨hlock', hcond'⟩, ?_⟩
    intro x hx
    rcases List.mem_append.mp hx with hx | hx
    · exact hserved x hx
    · obtain rfl := List.mem_singleton.mp hx
      exact ⟨hserves, hserves'⟩

/-- **Registries by name.** In every run of `CREATE`s with non-empty names, at
most fifty for each table, and of `DESTROY`s of entries that are there, where no
`CREATE` of `"/0"` is sent to a deleted slot: no request stops the thread, and
locks and conditions are registered by name with their counts. -/
theorem registered_by_name {nt : NetThread} {tr : List Dispatched} {t : NtTables}
    (h : Run (dispatchStep nt) Admitted NtTables.initial tr t) :
    lockKind.Registers nt tr t ∧ conditionKind.Registers nt tr t ∧
      ∀ r, Admitted tr t r → (dispatchStep nt t r).isSome = true := by
  obtain ⟨⟨hlock, hcond⟩, hserved⟩ := registries_of_run h
  refine ⟨?_, ?_, ?_⟩
  · exact hlock.registers fun e he => (hserved e he).1
  · exact hcond.registers fun e he => (hserved e he).2
  · exact fun r hr => hr.served hlock hcond

/-- Slot 0 is deleted and used again; the condition of the same name has its own. -/
def reuseRequests : List Request :=
  [⟨101, .createLock ['x']⟩, ⟨201, .createLock ['x']⟩, ⟨101, .destroyLock 0⟩,
    ⟨101, .destroyLock 0⟩, ⟨101, .createLock ['y']⟩, ⟨101, .createCV ['x']⟩]

theorem registered_by_name_reuse :
    ∃ tr t, Run (dispatchStep nt101) Admitted NtTables.initial tr t ∧
      tr.map Dispatched.request = reuseRequests ∧ lockKind.Registers nt101 tr t ∧
      conditionKind.Registers nt101 tr t ∧
      ∀ r, Admitted tr t r → (dispatchStep nt101 t r).isSome = true := by
  have hx : (exec (dispatchStep nt101) Admitted [] .initial reuseRequests).isSome ∧
      ∀ p ∈ exec (dispatchStep nt101) Admitted [] .initial reuseRequests,
        p.1.map Dispatched.request = reuseRequests := by
    decide +kernel
  obtain ⟨⟨tr, t⟩, hp⟩ := Option.isSome_iff_exists.mp hx.1
  have hrun := Run.of_exec .start hp
  exact ⟨tr, t, hrun, hx.2 _ hp, registered_by_name hrun⟩

/-- A lock is created and deleted, which leaves `"/0"` at its slot. -/
def deletedRequests : List Request := [⟨101, .createLock ['x']⟩, ⟨101, .destroyLock 0⟩]

/-- The `CREATE` of a lock named `"/0"` is then sent to the deleted slot and
follows its null pointer. -/
theorem name_of_deleted_not_registered :
    ¬ ∀ nt tr t, Run (dispatchStep nt) Asked NtTables.initial tr t →
      lockKind.Registers nt tr t ∧ conditionKind.Registers nt tr t ∧
        ∀ r, Asked tr t r → (dispatchStep nt t r).isSome = true := by
  intro hall
  have hx : (exec (dispatchStep nt101) Asked [] .initial deletedRequests).isSome ∧
      ∀ p ∈ exec (dispatchStep nt101) Asked [] .initial deletedRequests,
        Asked p.1 p.2 ⟨101, .createLock ['/', '0']⟩ ∧
          (dispatchStep nt101 p.2 ⟨101, .createLock ['/', '0']⟩).isSome = false := by
    decide +kernel
  obtain ⟨⟨tr, t⟩, hp⟩ := Option.isSome_iff_exists.mp hx.1
  obtain ⟨hasked, hstuck⟩ := hx.2 _ hp
  have hserved := (hall nt101 tr t (Run.of_exec .start hp)).2.2 _ hasked
  rw [hstuck] at hserved
  cases hserved

end Nachos.Network
