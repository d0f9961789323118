import Mathlib
import Nachos.Threads.Program
import Nachos.Userprog.Table

/-!
# A table that threads share

`Put` finds a slot under the lock and fills it when it has released the lock again, and
`Get` takes no lock at all. In between the slot is marked, so nobody else is given it, but
what it holds is not what has been put there yet.
-/

namespace Nachos.Userprog

open Nachos.Lib Nachos.Threads

/-- Where a thread is in `Put` and `Remove`: what it is to do next there. `unlocking` and `storing` have
what `Find` has returned. -/
inductive TablePoint (α : Type*) where
  | elsewhere
  | finding (f : α)
  | marking (f : α) (i : ℕ)
  | unlocking (f : α) (i : Option ℕ)
  | storing (f : α) (i : Option ℕ)
  | testing (i : ℕ)
  | fetching (i : ℕ)
  | erasing (i : ℕ) (f : α)
  | leaving (i : ℕ) (f : α)
  | returning (i : ℕ) (f : α)
deriving DecidableEq, Repr

/-- `map` and `table` of a `Table`. -/
structure TableData (α : Type*) where
  map : BitMap
  table : ℕ → α

/-- What a thread can call where it is in neither of them. -/
inductive TableCall (T S L C α : Type*) where
  | put (f : α)
  | get (i : ℤ)
  | remove (i : ℤ)
  | other (op : Op T S L C)

inductive TableEvent (T α : Type*) where
  /-- `Find` returns a bit it has set, or `-1`. -/
  | found (t : T) (i : Option ℕ)
  | put (t : T) (f : α) (i : Option ℕ)
  | got (t : T) (i : ℤ) (f : α)
  /-- `Remove` clears the bit. -/
  | cleared (t : T) (i : ℕ)
  | removed (t : T) (i : ℤ) (f : α)
deriving DecidableEq, Repr

variable {T S L C α : Type*} [DecidableEq L] [Zero α]

/-- `Table::Get`. -/
def TableData.get (n : ℕ) (data : TableData α) (i : ℤ) : α :=
  if 0 ≤ i ∧ i < n ∧ data.map i.toNat then data.table i.toNat else 0

/-- The code of `Put` and `Remove` behind `Acquire`. -/
def TablePoint.goOn (n : ℕ) (lock : L) (t : T) (data : TableData α) :
    TablePoint α → Option (Action T S L C (TablePoint α) (TableData α) (TableEvent T α))
  | .finding f =>
      match BitMap.find n data.map with
      | some i => some (.go (.marking f i) data [])
      | none => some (.go (.unlocking f none) data [.found t none])
  | .marking f i =>
      some (.go (.unlocking f (some i)) ⟨data.map.mark i, data.table⟩ [.found t (some i)])
  | .unlocking f i => some (.call (.release lock) (.storing f i))
  | .storing f i =>
      match i with
      | some i =>
          some (.go .elsewhere ⟨data.map, Function.update data.table i f⟩ [.put t f (some i)])
      | none => some (.go .elsewhere data [.put t f none])
  | .testing i =>
      if data.map i then some (.go (.fetching i) ⟨data.map.clear i, data.table⟩ [.cleared t i])
      else some (.go (.leaving i 0) data [])
  | .fetching i => some (.go (.erasing i (data.table i)) data [])
  | .erasing i f => some (.go (.leaving i f) ⟨data.map, Function.update data.table i 0⟩ [])
  | .leaving i f => some (.call (.release lock) (.returning i f))
  | .returning i f => some (.go .elsewhere data [.removed t i f])
  | .elsewhere => none

/-- The first line of `Put` and `Remove`, and all of `Get`. -/
def TableCall.action (n : ℕ) (lock : L) (t : T) (data : TableData α) :
    TableCall T S L C α →
      Option (Action T S L C (TablePoint α) (TableData α) (TableEvent T α))
  | .put f => some (.call (.acquire lock) (.finding f))
  | .get i => some (.go .elsewhere data [.got t i (data.get n i)])
  | .remove i =>
      if 0 ≤ i ∧ i < n then some (.call (.acquire lock) (.testing i.toNat))
      else some (.go .elsewhere data [.removed t i 0])
  | .other op => if op.usesLock lock then none else some (.call op .elsewhere)

/-- `Table` of size `n`, and interrupts that leave it alone. -/
def table (n : ℕ) (lock : L) : Program T S L C (TablePoint α) (TableData α) (TableEvent T α)
    (Option (TableCall T S L C α)) S where
  start := .elsewhere
  act t point data
    | none => point.goOn n lock t data
    | some c =>
        match point with
        | .elsewhere => c.action n lock t data
        | _ => none
  handler sem data := some (data, [], some sem)

/-- The constructor: no bit is set, and the memory of `table` is what it is. -/
def TableData.create (junk : ℕ → α) : TableData α := ⟨fun _ => false, junk⟩

/-! ## The section -/

def TablePoint.Critical : TablePoint α → Prop
  | .finding _ | .marking _ _ | .unlocking _ _ | .testing _ | .fetching _ | .erasing _ _
  | .leaving _ _ => True
  | .elsewhere | .storing _ _ | .returning _ _ => False

/-- What the code calls where, and where it goes on. -/
inductive TableCalls (n : ℕ) (lock : L) : TablePoint α → Option (TableCall T S L C α) →
    Op T S L C → TablePoint α → Prop where
  | put (f : α) : TableCalls n lock .elsewhere (some (.put f)) (.acquire lock) (.finding f)
  | remove {i : ℕ} : i < n →
      TableCalls n lock .elsewhere (some (.remove i)) (.acquire lock) (.testing i)
  | other {op : Op T S L C} : op.usesLock lock = false →
      TableCalls n lock .elsewhere (some (.other op)) op .elsewhere
  | unlock (f : α) (i : Option ℕ) :
      TableCalls n lock (.unlocking f i) none (.release lock) (.storing f i)
  | leave (i : ℕ) (f : α) :
      TableCalls n lock (.leaving i f) none (.release lock) (.returning i f)

inductive TableGoes (n : ℕ) (t : T) (data : TableData α) : TablePoint α →
    Option (TableCall T S L C α) → TablePoint α → TableData α → List (TableEvent T α) →
    Prop where
  | find {f : α} {i : ℕ} : BitMap.find n data.map = some i →
      TableGoes n t data (.finding f) none (.marking f i) data []
  | full {f : α} : BitMap.find n data.map = none →
      TableGoes n t data (.finding f) none (.unlocking f none) data [.found t none]
  | mark (f : α) (i : ℕ) : TableGoes n t data (.marking f i) none (.unlocking f (some i))
      ⟨data.map.mark i, data.table⟩ [.found t (some i)]
  | store (f : α) (i : ℕ) : TableGoes n t data (.storing f (some i)) none .elsewhere
      ⟨data.map, Function.update data.table i f⟩ [.put t f (some i)]
  | refuse (f : α) : TableGoes n t data (.storing f none) none .elsewhere data [.put t f none]
  | clear {i : ℕ} : data.map i = true → TableGoes n t data (.testing i) none (.fetching i)
      ⟨data.map.clear i, data.table⟩ [.cleared t i]
  | absent {i : ℕ} : data.map i = false →
      TableGoes n t data (.testing i) none (.leaving i 0) data []
  | fetch (i : ℕ) : TableGoes n t data (.fetching i) none (.erasing i (data.table i)) data []
  | erase (i : ℕ) (f : α) : TableGoes n t data (.erasing i f) none (.leaving i f)
      ⟨data.map, Function.update data.table i 0⟩ []
  | «return» (i : ℕ) (f : α) :
      TableGoes n t data (.returning i f) none .elsewhere data [.removed t i f]
  | get (i : ℤ) : TableGoes n t data .elsewhere (some (.get i)) .elsewhere data
      [.got t i (data.get n i)]
  | outside {i : ℤ} : ¬ (0 ≤ i ∧ i < n) →
      TableGoes n t data .elsewhere (some (.remove i)) .elsewhere data [.removed t i 0]

section Code

variable {n : ℕ} {lock : L} {t : T} {point next : TablePoint α} {data data' : TableData α}
  {choice : Option (TableCall T S L C α)} {op : Op T S L C} {events : List (TableEvent T α)}

theorem table_call (hact : (table n lock).act t point data choice = some (.call op next)) :
    TableCalls n lock point choice op next := by
  cases choice with
  | none =>
      have hact : point.goOn n lock t data = some (.call op next) := hact
      cases point with
      | unlocking f i =>
          cases hact
          exact .unlock f i
      | leaving i f =>
          cases hact
          exact .leave i f
      | finding f =>
          simp only [TablePoint.goOn] at hact
          split at hact <;> cases hact
      | storing f i => cases i <;> cases hact
      | testing i =>
          simp only [TablePoint.goOn] at hact
          split at hact <;> cases hact
      | elsewhere | marking _ _ | fetching _ | erasing _ _ | returning _ _ => cases hact
  | some c =>
      cases point with
      | elsewhere =>
          have hact : c.action n lock t data = some (.call op next) := hact
          cases c with
          | put f =>
              cases hact
              exact .put f
          | get i => cases hact
          | remove i =>
              simp only [TableCall.action] at hact
              split at hact
              · rename_i hrange
                lift i to ℕ using hrange.1
                cases hact
                exact .remove (by simpa using hrange.2)
              · cases hact
          | other op' =>
              simp only [TableCall.action] at hact
              split at hact
              · cases hact
              · rename_i huses
                cases hact
                exact .other (Bool.eq_false_iff.mpr huses)
      | _ => cases hact

theorem table_go (hact : (table n lock).act t point data choice =
    some (.go next data' events)) : TableGoes n t data point choice next data' events := by
  cases choice with
  | none =>
      have hact : point.goOn n lock t data = some (.go next data' events) := hact
      cases point with
      | finding f =>
          simp only [TablePoint.goOn] at hact
          split at hact
          · rename_i hfind
            cases hact
            exact .find hfind
          · rename_i hfind
            cases hact
            exact .full hfind
      | testing i =>
          simp only [TablePoint.goOn] at hact
          split at hact
          · rename_i hmap
            cases hact
            exact .clear hmap
          · rename_i hmap
            cases hact
            exact .absent (Bool.eq_false_iff.mpr hmap)
      | storing f i =>
          cases i with
          | none =>
              cases hact
              exact .refuse f
          | some i =>
              cases hact
              exact .store f i
      | marking f i =>
          cases hact
          exact .mark f i
      | fetching i =>
          cases hact
          exact .fetch i
      | erasing i f =>
          cases hact
          exact .erase i f
      | returning i f =>
          cases hact
          exact .return i f
      | elsewhere | unlocking _ _ | leaving _ _ => cases hact
  | some c =>
      cases point with
      | elsewhere =>
          have hact : c.action n lock t data = some (.go next data' events) := hact
          cases c with
          | put f => cases hact
          | get i =>
              cases hact
              exact .get i
          | remove i =>
              simp only [TableCall.action] at hact
              split at hact
              · cases hact
              · rename_i hrange
                cases hact
                exact .outside hrange
          | other op' =>
              simp only [TableCall.action] at hact
              split at hact <;> cases hact
      | _ => cases hact

end Code

theorem table_guarded (n : ℕ) (lock : L) :
    (table n lock : Program T S L C (TablePoint α) _ _ _ _).Guarded lock
      TablePoint.Critical where
  start := id
  call t point data choice op next hact hnext := by
    cases table_call hact with
    | put _ | remove _ => exact .inl rfl
    | other _ | unlock _ _ | leave _ _ => exact hnext.elim
  go t point data choice next data' events hact hnext := by
    cases table_go hact with
    | find _ | full _ | mark _ _ | clear _ | absent _ | fetch _ | erase _ _ => trivial
    | store _ _ | refuse _ | «return» _ _ | get _ | outside _ => exact hnext.elim

/-! ## Ids, by what has happened -/

section Log

variable {T α : Type*}

/-- `Put` of `f` by `t` has returned the id, and no `Remove` has cleared it since. -/
def Outstanding (log : List (TableEvent T α)) (t : T) (i : ℕ) (f : α) : Prop :=
  Since log (fun _ e => e = .put t f (some i)) fun e => ∃ u, e = .cleared u i

/-- A `Put` by `t` has found the id and has not returned it yet. -/
def HandingOut (log : List (TableEvent T α)) (t : T) (i : ℕ) : Prop :=
  Since log (fun _ e => e = .found t (some i)) fun e => ∃ f, e = .put t f (some i)

def Held (log : List (TableEvent T α)) (i : ℕ) : Prop :=
  (∃ t f, Outstanding log t i f) ∨ ∃ t, HandingOut log t i

/-- The last `Put` of `t` has found no clear bit, when all `n` ids belonged to somebody. -/
def FoundNone (n : ℕ) (log : List (TableEvent T α)) (t : T) : Prop :=
  Since log (fun before e => e = .found t none ∧ ∀ i < n, Held before i)
    fun e => ∃ i, e = .found t i

/-- The last `Remove` of `t` has cleared the id, which was that of `f` until then. -/
def Removes (log : List (TableEvent T α)) (t : T) (i : ℕ) (f : α) : Prop :=
  Since log (fun before e => e = .cleared t i ∧ ∃ u, Outstanding before u i f)
    fun e => ∃ j, e = .cleared t j

/-- What the bits and the items have to do with it. -/
structure Ids (n : ℕ) (log : List (TableEvent T α)) (data : TableData α) : Prop where
  outstanding : ∀ {t i f}, Outstanding log t i f →
    i < n ∧ data.map i = true ∧ data.table i = f
  handing : ∀ {t i}, HandingOut log t i → i < n ∧ data.map i = true
  held : ∀ i < n, data.map i = true → Held log i
  one : ∀ {t u i}, HandingOut log t i → HandingOut log u i → t = u
  apart : ∀ {t u i f}, HandingOut log t i → ¬ Outstanding log u i f

namespace Ids

variable {n : ℕ} {log : List (TableEvent T α)} {data : TableData α} {e : TableEvent T α} {t u : T}
  {i : ℕ} {f : α}

theorem create (junk : ℕ → α) : Ids (T := T) n [] (TableData.create junk) where
  outstanding := by simp [Outstanding, Since]
  handing := by simp [HandingOut, Since]
  held := by simp [TableData.create]
  one := by simp [HandingOut, Since]
  apart := by simp [HandingOut, Since]

theorem quiet (h : Ids n log data) (hput : ∀ t f i, e ≠ .put t f (some i))
    (hfound : ∀ t i, e ≠ .found t (some i)) (hcleared : ∀ t i, e ≠ .cleared t i) :
    Ids n (log ++ [e]) data := by
  have houtstanding : ∀ t i f, Outstanding (log ++ [e]) t i f ↔ Outstanding log t i f := by
    intro t i f
    simp [Outstanding, since_snoc, hput, hcleared]
  have hhanding : ∀ t i, HandingOut (log ++ [e]) t i ↔ HandingOut log t i := by
    intro t i
    simp [HandingOut, since_snoc, hput, hfound]
  constructor
  all_goals simp only [Held, houtstanding, hhanding]
  · exact h.outstanding
  · exact h.handing
  · exact h.held
  · exact h.one
  · exact h.apart

theorem found (h : Ids n log data) (hi : i < n) (hclear : data.map i = false) :
    Ids n (log ++ [TableEvent.found t (some i)]) ⟨data.map.mark i, data.table⟩ := by
  have hnone : ∀ u, ¬ HandingOut log u i := by
    intro u hu
    rw [(h.handing hu).2] at hclear
    cases hclear
  have hfree : ∀ u f, ¬ Outstanding log u i f := by
    intro u f hu
    rw [(h.outstanding hu).2.1] at hclear
    cases hclear
  have houtstanding : ∀ {u j g}, Outstanding (log ++ [TableEvent.found t (some i)]) u j g ↔
      Outstanding log u j g := by
    intro u j g
    simp [Outstanding, since_snoc]
  have hhanding : ∀ {u j}, HandingOut (log ++ [TableEvent.found t (some i)]) u j ↔
      t = u ∧ i = j ∨ HandingOut log u j := by
    intro u j
    simp [HandingOut, since_snoc]
  refine ⟨@fun u j g hu => ?_, @fun u j hu => ?_, fun j hj hmap => ?_, fun hu hw => ?_,
    fun hu hw => ?_⟩
  · have hold := houtstanding.mp hu
    have hji : j ≠ i := by
      rintro rfl
      exact hfree _ _ hold
    refine ⟨(h.outstanding hold).1, ?_, (h.outstanding hold).2.2⟩
    show data.map.mark i j = true
    rw [BitMap.mark_of_ne _ hji]
    exact (h.outstanding hold).2.1
  · rcases hhanding.mp hu with ⟨rfl, rfl⟩ | hold
    · exact ⟨hi, BitMap.mark_self _ _⟩
    · have hji : j ≠ i := by
        rintro rfl
        exact hnone _ hold
      refine ⟨(h.handing hold).1, ?_⟩
      show data.map.mark i j = true
      rw [BitMap.mark_of_ne _ hji]
      exact (h.handing hold).2
  · by_cases hji : j = i
    · exact .inr ⟨t, hhanding.mpr (.inl ⟨rfl, hji.symm⟩)⟩
    · rcases h.held j hj ((BitMap.mark_of_ne data.map hji).symm.trans hmap) with ⟨u, g, hu⟩ | ⟨u, hu⟩
      · exact .inl ⟨u, g, houtstanding.mpr hu⟩
      · exact .inr ⟨u, hhanding.mpr (.inr hu)⟩
  · rcases hhanding.mp hu with ⟨rfl, rfl⟩ | hold
    · rcases hhanding.mp hw with ⟨rfl, -⟩ | hold'
      · rfl
      · exact absurd hold' (hnone _)
    · rcases hhanding.mp hw with ⟨rfl, rfl⟩ | hold'
      · exact absurd hold (hnone _)
      · exact h.one hold hold'
  · have hw := houtstanding.mp hw
    rcases hhanding.mp hu with ⟨rfl, rfl⟩ | hold
    · exact hfree _ _ hw
    · exact h.apart hold hw

theorem put (h : Ids n log data) (hhand : HandingOut log t i) :
    Ids n (log ++ [TableEvent.put t f (some i)]) ⟨data.map, Function.update data.table i f⟩ := by
  have houtstanding : ∀ {u j g}, Outstanding (log ++ [TableEvent.put t f (some i)]) u j g ↔
      (t = u ∧ f = g ∧ i = j) ∨ Outstanding log u j g := by
    intro u j g
    simp [Outstanding, since_snoc]
  have hhanding : ∀ {u j}, HandingOut (log ++ [TableEvent.put t f (some i)]) u j ↔
      HandingOut log u j ∧ ¬ (t = u ∧ i = j) := by
    intro u j
    simp [HandingOut, since_snoc]
  refine ⟨@fun u j g hu => ?_, fun hu => h.handing (hhanding.mp hu).1, fun j hj hmap => ?_,
    fun hu hw => h.one (hhanding.mp hu).1 (hhanding.mp hw).1, fun hu hw => ?_⟩
  · rcases houtstanding.mp hu with ⟨rfl, rfl, rfl⟩ | hold
    · exact ⟨(h.handing hhand).1, (h.handing hhand).2, Function.update_self ..⟩
    · obtain ⟨hj, hmap, htable⟩ := h.outstanding hold
      have hji : j ≠ i := by
        rintro rfl
        exact h.apart hhand hold
      refine ⟨hj, hmap, ?_⟩
      show Function.update data.table i f j = g
      rw [Function.update_of_ne hji]
      exact htable
  · rcases h.held j hj hmap with ⟨u, g, hu⟩ | ⟨u, hu⟩
    · exact .inl ⟨u, g, houtstanding.mpr (.inr hu)⟩
    · by_cases hsame : t = u ∧ i = j
      · exact .inl ⟨u, f, houtstanding.mpr (.inl ⟨hsame.1, rfl, hsame.2⟩)⟩
      · exact .inr ⟨u, hhanding.mpr ⟨hu, hsame⟩⟩
  · obtain ⟨hu, hsame⟩ := hhanding.mp hu
    rcases houtstanding.mp hw with ⟨rfl, rfl, rfl⟩ | hold
    · exact hsame ⟨h.one hhand hu, rfl⟩
    · exact h.apart hu hold

theorem clear (h : Ids n log data) (hi : Outstanding log u i f) :
    Ids n (log ++ [TableEvent.cleared t i]) ⟨data.map.clear i, data.table⟩ := by
  have houtstanding : ∀ {u j g}, Outstanding (log ++ [TableEvent.cleared t i]) u j g ↔
      Outstanding log u j g ∧ i ≠ j := by
    intro u j g
    simp [Outstanding, since_snoc]
  have hhanding : ∀ {u j}, HandingOut (log ++ [TableEvent.cleared t i]) u j ↔ HandingOut log u j := by
    intro u j
    simp [HandingOut, since_snoc]
  refine ⟨@fun u j g hu => ?_, @fun u j hu => ?_, fun j hj hmap => ?_,
    fun hu hw => h.one (hhanding.mp hu) (hhanding.mp hw),
    fun hu hw => h.apart (hhanding.mp hu) (houtstanding.mp hw).1⟩
  · obtain ⟨hold, hne⟩ := houtstanding.mp hu
    show j < n ∧ data.map.clear i j = true ∧ data.table j = g
    rw [BitMap.clear_of_ne _ hne.symm]
    exact h.outstanding hold
  · have hold := hhanding.mp hu
    have hji : j ≠ i := by
      rintro rfl
      exact h.apart hold hi
    show j < n ∧ data.map.clear i j = true
    rw [BitMap.clear_of_ne _ hji]
    exact h.handing hold
  · have hji : j ≠ i := by
      rintro rfl
      simp at hmap
    rcases h.held j hj ((BitMap.clear_of_ne data.map hji).symm.trans hmap) with ⟨u, g, hu⟩ | ⟨u, hu⟩
    · exact .inl ⟨u, g, houtstanding.mpr ⟨hu, hji.symm⟩⟩
    · exact .inr ⟨u, hhanding.mpr hu⟩

theorem erase (h : Ids n log data) (hclear : data.map i = false) (g : α) :
    Ids n log ⟨data.map, Function.update data.table i g⟩ where
  outstanding := @fun u j f hu => by
    obtain ⟨hj, hmap, htable⟩ := h.outstanding hu
    have hji : j ≠ i := by
      rintro rfl
      rw [hmap] at hclear
      cases hclear
    refine ⟨hj, hmap, ?_⟩
    show Function.update data.table i g j = f
    rw [Function.update_of_ne hji]
    exact htable
  handing := h.handing
  held := h.held
  one := h.one
  apart := h.apart

theorem got [Zero α] (h : Ids n log data) (i : ℤ) :
    (∀ u (j : ℕ) g, i = j → Outstanding log u j g → data.get n i = g) ∧
      ((∀ j : ℕ, i = j → ¬ Held log j) → data.get n i = 0) := by
  constructor
  · rintro u j g rfl hout
    obtain ⟨hj, hmap, htable⟩ := h.outstanding hout
    rw [TableData.get, Int.toNat_natCast,
      if_pos ⟨Int.natCast_nonneg j, by exact_mod_cast hj, hmap⟩, htable]
  · intro hfree
    refine if_neg ?_
    rintro ⟨hnonneg, hlt, hmap⟩
    exact hfree i.toNat (by omega) (h.held i.toNat (by omega) hmap)

end Ids

/-! ## Threads at their points -/

/-- What a thread knows at its point. -/
def Reached (n : ℕ) (log : List (TableEvent T α)) (data : TableData α) (t : T) :
    TablePoint α → Prop
  | .marking _ i => i < n ∧ data.map i = false
  | .unlocking _ i | .storing _ i =>
      match i with
      | some i => HandingOut log t i
      | none => FoundNone n log t
  | .testing i => ∃ u f, Outstanding log u i f
  | .fetching i => data.map i = false ∧ Removes log t i (data.table i)
  | .erasing i f => data.map i = false ∧ Removes log t i f
  | .leaving i f | .returning i f => Removes log t i f
  | .elsewhere | .finding _ => True

/-- The points that are reached in the section without a call. -/
def TablePoint.Inside : TablePoint α → Prop
  | .marking _ _ | .fetching _ | .erasing _ _ => True
  | .elsewhere | .finding _ | .unlocking _ _ | .storing _ _ | .testing _ | .leaving _ _
  | .returning _ _ => False

theorem TablePoint.Inside.critical {p : TablePoint α} (h : p.Inside) : p.Critical := by
  cases p <;> trivial

def TableEvent.thread : TableEvent T α → T
  | .found t _ | .put t _ _ | .got t _ _ | .cleared t _ | .removed t _ _ => t

/-- Other threads do not take this knowledge away. -/
theorem Reached.of_other {n : ℕ} {log events : List (TableEvent T α)} {data data' : TableData α}
    {t : T} {p : TablePoint α} (h : Reached n log data t p) (hother : ∀ e ∈ events, e.thread ≠ t)
    (hcleared : ∀ i, p = .testing i → ∀ u, .cleared u i ∉ events)
    (hinside : p.Inside → data'.map = data.map ∧
      ∀ i, data.map i = false → data'.table i = data.table i) :
    Reached n (log ++ events) data' t p := by
  have hhanding : ∀ i, HandingOut log t i → HandingOut (log ++ events) t i := by
    refine fun i h => h.append fun e he => ?_
    rintro ⟨f, rfl⟩
    exact hother _ he rfl
  have hnone : FoundNone n log t → FoundNone n (log ++ events) t := by
    refine fun h => h.append fun e he => ?_
    rintro ⟨i, rfl⟩
    exact hother _ he rfl
  have hremoves : ∀ i f, Removes log t i f → Removes (log ++ events) t i f := by
    refine fun i f h => h.append fun e he => ?_
    rintro ⟨j, rfl⟩
    exact hother _ he rfl
  cases p with
  | elsewhere => trivial
  | finding f => trivial
  | marking f i =>
      refine ⟨h.1, ?_⟩
      rw [(hinside trivial).1]
      exact h.2
  | unlocking f i | storing f i =>
      cases i with
      | none => exact hnone h
      | some i => exact hhanding i h
  | testing i =>
      obtain ⟨u, f, hout⟩ := h
      refine ⟨u, f, hout.append fun e he => ?_⟩
      rintro ⟨w, rfl⟩
      exact hcleared i rfl w he
  | fetching i =>
      obtain ⟨hmap, htable⟩ := hinside trivial
      refine ⟨?_, ?_⟩
      · rw [hmap]
        exact h.1
      · rw [htable i h.1]
        exact hremoves i _ h.2
  | erasing i f =>
      refine ⟨?_, hremoves i f h.2⟩
      rw [(hinside trivial).1]
      exact h.1
  | leaving i f | returning i f => exact hremoves i f h

/-- What there is to say of an event, by what has happened before. -/
def TableOk [Zero α] (n : ℕ) (before : List (TableEvent T α)) : TableEvent T α → Prop
  | .put _ _ (some i) => i < n ∧ ∀ u f, ¬ Outstanding before u i f
  | .put t _ none => FoundNone n before t
  | .got _ i f => (∀ u (j : ℕ) g, i = j → Outstanding before u j g → f = g) ∧
      ((∀ j : ℕ, i = j → ¬ Held before j) → f = 0)
  | .removed t i f => ∃ j : ℕ, i = j ∧ Removes before t j f
  | .found _ _ | .cleared _ _ => True

end Log

/-- `Remove` is called only with an id that a `Put` has returned and that nobody has removed
since or is about to remove. -/
def RemovesOwn (tr : List (List (Event T S L C (TableEvent T α))))
    (s : System T S L C (TablePoint α) (TableData α)) :
    Move T S L C (Option (TableCall T S L C α)) S → Prop
  | .act (some (.remove i)) => ∃ j : ℕ, i = j ∧
      (∃ t f, Outstanding (Program.ownLog tr.flatten) t j f) ∧ ∀ t, s.point t ≠ .testing j
  | _ => True

structure Tabled (n : ℕ) (log : List (TableEvent T α))
    (s : System T S L C (TablePoint α) (TableData α)) : Prop where
  ids : Ids n log s.data
  reached : ∀ t, Reached n log s.data t (s.point t)
  inside : ∀ t, (s.point t).Inside → s.kernel.pc t = .outside
  /-- Nobody removes an id that another thread is removing. -/
  testing : ∀ {t u i}, s.point t = .testing i → s.point u = .testing i → t = u
  past : ∀ before e after, log = before ++ e :: after → TableOk n before e

namespace Tabled

variable {n : ℕ} {lock : L} {log : List (TableEvent T α)}
  {s s' : System T S L C (TablePoint α) (TableData α)}
  {es : List (Event T S L C (TableEvent T α))} {m : Move T S L C (Option (TableCall T S L C α)) S}

omit [DecidableEq L] in
theorem past_snoc (h : Tabled n log s) {e : TableEvent T α} (he : TableOk n log e) :
    ∀ before a after, log ++ [e] = before ++ a :: after → TableOk n before a := by
  intro before a after heq
  rcases snoc_eq_append_cons heq with ⟨rfl, rfl⟩ | ⟨after', heq'⟩
  · exact he
  · exact h.past before a after' heq'

variable [DecidableEq T]

omit [DecidableEq L] in
theorem go (h : Tabled n log s) {next : TablePoint α} {data : TableData α}
    {events : List (TableEvent T α)} (hpc : s.kernel.pc s.kernel.currentThread = .outside)
    (hids : Ids n (log ++ events) data)
    (hreached : Reached n (log ++ events) data s.kernel.currentThread next)
    (hnext : ∀ i, next ≠ .testing i)
    (hpast : ∀ before e after, log ++ events = before ++ e :: after → TableOk n before e)
    (hevents : ∀ e ∈ events, e.thread = s.kernel.currentThread)
    (hcleared : ∀ t i, t ≠ s.kernel.currentThread → s.point t = .testing i →
      ∀ u, .cleared u i ∉ events)
    (hinside : ∀ t, t ≠ s.kernel.currentThread → (s.point t).Inside →
      data.map = s.data.map ∧ ∀ i, s.data.map i = false → data.table i = s.data.table i) :
    Tabled n (log ++ events)
      ⟨s.kernel, Function.update s.point s.kernel.currentThread next, data⟩ where
  ids := hids
  reached t := by
    show Reached n (log ++ events) data t (Function.update s.point s.kernel.currentThread next t)
    by_cases ht : t = s.kernel.currentThread
    · subst ht
      rwa [Function.update_self]
    · rw [Function.update_of_ne ht]
      refine (h.reached t).of_other (fun e he heq => ?_) (hcleared t · ht) (hinside t ht)
      exact ht (heq.symm.trans (hevents e he))
  inside t ht := by
    rcases Program.of_update (q := TablePoint.Inside) ht with ⟨rfl, -⟩ | ⟨-, hold⟩
    · exact hpc
    · exact h.inside t hold
  testing := @fun t u i ht hu => by
    rcases Program.of_update (q := fun p : TablePoint α => p = .testing i) ht with
      ⟨-, hnew⟩ | ⟨-, hold⟩
    · exact absurd hnew (hnext i)
    · rcases Program.of_update (q := fun p : TablePoint α => p = .testing i) hu with
        ⟨-, hnew⟩ | ⟨-, hold'⟩
      · exact absurd hnew (hnext i)
      · exact h.testing hold hold'
  past := hpast

omit [DecidableEq L] in
theorem still (h : Tabled n log s) {next : TablePoint α} {data : TableData α}
    (hpc : s.kernel.pc s.kernel.currentThread = .outside) (hids : Ids n log data)
    (hreached : Reached n log data s.kernel.currentThread next) (hnext : ∀ i, next ≠ .testing i)
    (hinside : ∀ t, t ≠ s.kernel.currentThread → (s.point t).Inside →
      data.map = s.data.map ∧ ∀ i, s.data.map i = false → data.table i = s.data.table i) :
    Tabled n (log ++ [])
      ⟨s.kernel, Function.update s.point s.kernel.currentThread next, data⟩ := by
  refine h.go hpc ?_ ?_ hnext ?_ nofun (fun _ _ _ _ => nofun) hinside
  all_goals rw [List.append_nil]
  · exact hids
  · exact hreached
  · exact h.past

omit [DecidableEq L] in
theorem happens (h : Tabled n log s) {next : TablePoint α} {data : TableData α}
    {e : TableEvent T α} (hpc : s.kernel.pc s.kernel.currentThread = .outside)
    (hids : Ids n (log ++ [e]) data)
    (hreached : Reached n (log ++ [e]) data s.kernel.currentThread next)
    (hnext : ∀ i, next ≠ .testing i) (hevent : e.thread = s.kernel.currentThread)
    (hok : TableOk n log e)
    (hcleared : ∀ t i, t ≠ s.kernel.currentThread → s.point t = .testing i →
      ∀ u, e ≠ .cleared u i)
    (hinside : ∀ t, t ≠ s.kernel.currentThread → (s.point t).Inside →
      data.map = s.data.map ∧ ∀ i, s.data.map i = false → data.table i = s.data.table i) :
    Tabled n (log ++ [e])
      ⟨s.kernel, Function.update s.point s.kernel.currentThread next, data⟩ := by
  refine h.go hpc hids hreached hnext (h.past_snoc hok) ?_ ?_ hinside
  · intro e' he'
    rwa [List.mem_singleton.mp he']
  · intro t i hne ht u hu
    exact hcleared t i hne ht u (List.mem_singleton.mp hu).symm

omit [DecidableEq L] in
theorem call (h : Tabled n log s) {next : TablePoint α} {k' : Kernel T S L C}
    (hreached : Reached n log s.data s.kernel.currentThread next) (hnext : ¬ next.Inside)
    (htesting : ∀ i, next = .testing i → ∀ t, s.point t ≠ .testing i)
    (hpc : ∀ t, t ≠ s.kernel.currentThread → s.kernel.pc t = .outside → k'.pc t = .outside) :
    Tabled n log ⟨k', Function.update s.point s.kernel.currentThread next, s.data⟩ where
  ids := h.ids
  reached t := by
    show Reached n log s.data t (Function.update s.point s.kernel.currentThread next t)
    by_cases ht : t = s.kernel.currentThread
    · subst ht
      rwa [Function.update_self]
    · rw [Function.update_of_ne ht]
      exact h.reached t
  inside t ht := by
    rcases Program.of_update (q := TablePoint.Inside) ht with ⟨-, hnew⟩ | ⟨hne, hold⟩
    · exact absurd hnew hnext
    · exact hpc t hne (h.inside t hold)
  testing := @fun t u i ht hu => by
    rcases Program.of_update (q := fun p : TablePoint α => p = .testing i) ht with
      ⟨rfl, hnew⟩ | ⟨-, hold⟩
    · rcases Program.of_update (q := fun p : TablePoint α => p = .testing i) hu with
        ⟨rfl, -⟩ | ⟨-, hold'⟩
      · rfl
      · exact absurd hold' (htesting i hnew u)
    · rcases Program.of_update (q := fun p : TablePoint α => p = .testing i) hu with
        ⟨rfl, hnew⟩ | ⟨-, hold'⟩
      · exact absurd hold (htesting i hnew t)
      · exact h.testing hold hold'
  past := h.past

variable [DecidableEq S] [DecidableEq C]

theorem step {tr : List (List (Event T S L C (TableEvent T α)))}
    (h : Tabled n (Program.ownLog tr.flatten) s) (hown : RemovesOwn tr s m)
    (hexclusive : ∀ t u, (s.point t).Critical → (s.point u).Critical →
      s.kernel.pc t = .outside → s.kernel.pc u = .outside → t = u)
    (hs : Program.Steps (table n lock) s m s' es) :
    Tabled n (Program.ownLog tr.flatten ++ Program.ownLog es) s' := by
  cases hs with
  | @call choice op next k' effects hact hstep =>
      rw [Program.ownLog_map, List.append_nil]
      have hpc : ∀ t, t ≠ s.kernel.currentThread → s.kernel.pc t = .outside →
          k'.pc t = .outside := fun t hne hpc =>
        (Step.of_step hstep).outside hpc fun op hcalled =>
          hne ((Step.of_step hstep).called hcalled).1
      have hcur := h.reached s.kernel.currentThread
      have hcall := table_call hact
      generalize s.point s.kernel.currentThread = p at hcur hcall
      cases hcall with
      | put f => exact h.call trivial id nofun hpc
      | remove hi =>
          obtain ⟨j, hj, hheld, hfree⟩ := hown
          obtain rfl := Int.ofNat.inj hj
          refine h.call hheld id (fun i hi => ?_) hpc
          obtain rfl := TablePoint.testing.inj hi
          exact hfree
      | other _ => exact h.call trivial id nofun hpc
      | unlock f i => exact h.call hcur id nofun hpc
      | leave i f => exact h.call hcur id nofun hpc
  | @go choice next data events hidle hpc hact =>
      rw [Program.ownLog_own]
      have hcur := h.reached s.kernel.currentThread
      have hgoes := table_go hact
      have halone : (s.point s.kernel.currentThread).Critical → ∀ t,
          t ≠ s.kernel.currentThread → ¬ (s.point t).Inside := fun hcritical t hne hinside =>
        hne (hexclusive t _ hinside.critical hcritical (h.inside t hinside) hpc)
      have hsame : ∀ t, t ≠ s.kernel.currentThread → (s.point t).Inside →
          s.data.map = s.data.map ∧ ∀ i, s.data.map i = false → s.data.table i = s.data.table i :=
        fun _ _ _ => ⟨rfl, fun _ _ => rfl⟩
      generalize hp : s.point s.kernel.currentThread = p at hcur hgoes halone
      cases hgoes with
      | find hfind =>
          have hclear := BitMap.find_some hfind
          refine h.still hpc h.ids ⟨hclear.1, hclear.2.1⟩ nofun hsame
      | full hfind =>
          have hids := h.ids.quiet (e := .found s.kernel.currentThread none) nofun nofun nofun
          refine h.happens hpc hids ?_ nofun rfl trivial nofun hsame
          refine since_snoc.mpr (.inl ⟨rfl, fun i hi => ?_⟩)
          exact h.ids.held i hi (BitMap.find_none hfind i hi)
      | mark f i =>
          refine h.happens hpc (h.ids.found hcur.1 hcur.2) (since_snoc.mpr (.inl rfl)) nofun rfl
            trivial nofun fun t hne hinside => ?_
          exact absurd hinside (halone trivial t hne)
      | store f i =>
          have hhand : HandingOut (Program.ownLog tr.flatten) s.kernel.currentThread i := hcur
          refine h.happens hpc (h.ids.put hhand) trivial nofun rfl
            ⟨(h.ids.handing hhand).1, fun u g => h.ids.apart hhand⟩ nofun
            fun t hne hinside => ⟨rfl, fun j hj => ?_⟩
          refine Function.update_of_ne ?_ _ _
          rintro rfl
          rw [(h.ids.handing hhand).2] at hj
          cases hj
      | refuse f =>
          have hids := h.ids.quiet (e := .put s.kernel.currentThread f none) nofun nofun nofun
          exact h.happens hpc hids trivial nofun rfl hcur nofun hsame
      | clear hmap =>
          obtain ⟨u, f, hout⟩ := hcur
          refine h.happens hpc (h.ids.clear hout) ⟨BitMap.clear_self _ _, ?_⟩ nofun rfl trivial
            ?_ fun t hne hinside => absurd hinside (halone trivial t hne)
          · refine since_snoc.mpr (.inl ⟨rfl, u, ?_⟩)
            rw [(h.ids.outstanding hout).2.2]
            exact hout
          · rintro t j hne ht w hw
            obtain ⟨-, rfl⟩ := TableEvent.cleared.inj hw
            exact hne (h.testing ht hp)
      | absent hmap =>
          obtain ⟨u, f, hout⟩ := hcur
          rw [(h.ids.outstanding hout).2.1] at hmap
          cases hmap
      | fetch i => exact h.still hpc h.ids hcur nofun hsame
      | erase i f =>
          exact h.still hpc (h.ids.erase hcur.1 0) hcur.2 nofun
            fun t hne hinside => absurd hinside (halone trivial t hne)
      | «return» i f =>
          have hids := h.ids.quiet (e := .removed s.kernel.currentThread i f) nofun nofun nofun
          exact h.happens hpc hids trivial nofun rfl ⟨i, rfl, hcur⟩ nofun hsame
      | get i =>
          have hids := h.ids.quiet (e := .got s.kernel.currentThread i (s.data.get n i))
            nofun nofun nofun
          exact h.happens hpc hids trivial nofun rfl (h.ids.got i) nofun hsame
      | outside hrange =>
          obtain ⟨j, rfl, ⟨t, f, hout⟩, -⟩ := hown
          exact absurd ⟨Int.natCast_nonneg j, by exact_mod_cast (h.ids.outstanding hout).1⟩ hrange
  | kernel hinside hstep =>
      rw [Program.ownLog_map, List.append_nil]
      refine ⟨h.ids, h.reached, fun t ht => ?_, h.testing, h.past⟩
      refine (Step.of_step hstep).outside (h.inside t ht) fun op hcalled => ?_
      rw [Step.label_of_called hstep hcalled] at hinside
      cases hinside
  | interrupt hhandler hstep =>
      cases hhandler
      rw [List.map_nil, List.nil_append, Program.ownLog_map, List.append_nil]
      refine ⟨h.ids, h.reached, fun t ht => ?_, h.testing, h.past⟩
      refine (Step.of_step hstep).outside (h.inside t ht) fun op hcalled => ?_
      cases Step.label_of_called hstep hcalled
  | device hhandler => cases hhandler

end Tabled

/-! ## Runs -/

section Runs

variable [DecidableEq T] [DecidableEq S] [DecidableEq C] {n : ℕ} {lock : L} {main : T}
  {initialValue : S → ℤ} {junk : ℕ → α} {tr : List (List (Event T S L C (TableEvent T α)))}
  {s : System T S L C (TablePoint α) (TableData α)}

theorem tabled_of_run (hrun : Run (table n lock).step RemovesOwn
    ((table n lock).boot main initialValue (.create junk)) tr s) :
    Tabled n (Program.ownLog tr.flatten) s := by
  refine hrun.invariant_with (I := fun tr s => Tabled n (Program.ownLog tr.flatten) s)
    (fun hrun t u => (table_guarded n lock).exclusive hrun (t := t) (u := u))
    ⟨.create junk, fun _ => trivial, nofun, nofun, by simp [Program.ownLog]⟩ ?_
  intro tr s m s' es hexclusive h hown hs
  rw [List.flatten_append, List.flatten_singleton, Program.ownLog_append]
  refine h.step hown (fun t u ht hu hpct hpcu => hexclusive t u ht hu ?_ ?_) (.of_step hs)
  · rw [hpct]
    rfl
  · rw [hpcu]
    rfl

/-- **A concurrent partial map.** While an id is outstanding no `Put` returns it again, and
`Get` returns its item; `Remove` returns the item of the id it has cleared; `Put` returns `-1`
only when it has seen all ids outstanding or being handed out, and `Get` of any other id
returns `0`. -/
theorem table_contract (hrun : Run (table n lock).step RemovesOwn
    ((table n lock).boot main initialValue (.create junk)) tr s) :
    let log := Program.ownLog tr.flatten
    (∀ before t f i after, log = before ++ .put t f (some i) :: after →
      (∀ u, .cleared u i ∉ after) → i < n ∧ ∀ u g, .put u g (some i) ∉ after) ∧
    (∀ before u (i : ℤ) g after, log = before ++ .got u i g :: after →
      (∀ t (j : ℕ) f, i = j → Outstanding before t j f → g = f) ∧
      ((∀ j : ℕ, i = j → ¬ Held before j) → g = 0)) ∧
    (∀ before t (i : ℤ) g after, log = before ++ .removed t i g :: after →
      ∃ j : ℕ, i = j ∧ Removes before t j g) ∧
    ∀ before t f after, log = before ++ .put t f none :: after → FoundNone n before t := by
  have h := tabled_of_run hrun
  refine ⟨fun before t f i after heq hcleared => ⟨(h.past _ _ _ heq).1, fun u g hagain => ?_⟩,
    fun before u i g after heq => h.past _ _ _ heq,
    fun before t i g after heq => h.past _ _ _ heq,
    fun before t f after heq => h.past _ _ _ heq⟩
  -- The second `Put` would return an id that is outstanding.
  obtain ⟨middle, rest, rfl⟩ := List.append_of_mem hagain
  refine (h.past (before ++ .put t f (some i) :: middle) (.put u g (some i)) rest ?_).2 t f ?_
  · rw [heq, List.append_assoc, List.cons_append]
  · refine ⟨before, _, middle, rfl, rfl, ?_⟩
    rintro x hx ⟨w, rfl⟩
    exact hcleared w (List.mem_append_left _ hx)

end Runs

/-! ### Two threads -/

/-- A table of two numbers for two threads. -/
def slots : Program (Fin 2) Unit Unit Unit (TablePoint ℕ) (TableData ℕ) (TableEvent (Fin 2) ℕ)
    (Option (TableCall (Fin 2) Unit Unit Unit ℕ)) Unit := table 2 ()

/-- The only `Remove` is that of an id returned and not given back. -/
def RemovesFirst (t : Fin 2) (tr : List (List (Event (Fin 2) Unit Unit Unit (TableEvent (Fin 2) ℕ))))
    (s : System (Fin 2) Unit Unit Unit (TablePoint ℕ) (TableData ℕ)) :
    Move (Fin 2) Unit Unit Unit (Option (TableCall (Fin 2) Unit Unit Unit ℕ)) Unit → Prop
  | .act (some (.remove i)) => i = 0 ∧
      (Program.ownLog tr.flatten).getLast? = some (.put t 5 (some 0)) ∧
      ∀ u, s.point u ≠ .testing 0
  | _ => True

instance : ∀ t tr s m, Decidable (RemovesFirst t tr s m)
  | _, _, _, .act (some (.remove _)) => inferInstanceAs (Decidable (_ ∧ _ ∧ _))
  | _, _, _, .act (some (.put _)) => .isTrue trivial
  | _, _, _, .act (some (.get _)) => .isTrue trivial
  | _, _, _, .act (some (.other _)) => .isTrue trivial
  | _, _, _, .act none => .isTrue trivial
  | _, _, _, .kernel _ => .isTrue trivial
  | _, _, _, .interrupt _ => .isTrue trivial

theorem RemovesFirst.own {t : Fin 2} {tr : List (List (Event (Fin 2) Unit Unit Unit
      (TableEvent (Fin 2) ℕ)))} {s : System (Fin 2) Unit Unit Unit (TablePoint ℕ) (TableData ℕ)} :
    ∀ {m}, RemovesFirst t tr s m → RemovesOwn tr s m
  | .act (some (.remove _)), h => by
      obtain ⟨hi, hlast, hfree⟩ := h
      refine ⟨0, hi, ⟨t, 5, ?_⟩, hfree⟩
      obtain ⟨before, heq⟩ := List.getLast?_eq_some_iff.mp hlast
      exact ⟨before, _, [], heq, rfl, by simp⟩
  | .act (some (.put _)), _ | .act (some (.get _)), _ | .act (some (.other _)), _
  | .act none, _ | .kernel _, _ | .interrupt _, _ => trivial

/-- The slot of `5` is marked and not yet filled when a second thread fills the table and
finds no slot for `9`. Then `5` is stored, and removed. -/
theorem table_contract_sample : ∃ tr s,
    Run slots.step RemovesOwn (slots.boot 0 (fun _ => 0) (.create fun _ => 0)) tr s ∧
      Program.ownLog tr.flatten =
        [.found 0 (some 0), .found 1 (some 1), .put 1 7 (some 1), .found 1 none, .put 1 9 none] ++
          [.put 0 5 (some 0), .cleared 0 0, .removed 0 0 5] ∧
      FoundNone 2 [.found 0 (some 0), .found 1 (some 1), .put 1 7 (some 1), .found 1 none]
        (1 : Fin 2) := by
  have hp : (exec slots.step (RemovesFirst 0) [] (slots.boot 0 (fun _ => 0) (.create fun _ => 0))
      [.act (some (.other (.fork 1))), .kernel .return, .act (some (.put 5)), .kernel .return,
        .act none, .act none, .act none, .kernel .preempt,
        .act (some (.put 7)), .kernel .return, .act none, .act none, .act none, .kernel .return,
        .act none, .act (some (.put 9)), .kernel .return, .act none, .act none, .kernel .return,
        .act none, .act (some (.other .yield)), .kernel .return, .act none,
        .act (some (.remove 0)), .kernel .return, .act none, .act none, .act none, .act none,
        .kernel .return, .act none]).map (fun r => Program.ownLog r.1.flatten) =
      some (([.found 0 (some 0), .found 1 (some 1), .put 1 7 (some 1), .found 1 none,
        .put 1 9 none] : List (TableEvent (Fin 2) ℕ)) ++
          ([.put 0 5 (some 0), .cleared 0 0, .removed 0 0 5] : List (TableEvent (Fin 2) ℕ))) := by
    decide +kernel
  obtain ⟨⟨tr, s⟩, hexec, hlog⟩ := Option.map_eq_some_iff.mp hp
  have hrun : Run slots.step RemovesOwn (slots.boot 0 (fun _ => 0) (.create fun _ => 0)) tr s := by
    exact (Run.of_exec .start hexec).weaken RemovesFirst.own
  have hrun : Run (table 2 ()).step RemovesOwn ((table 2 ()).boot 0 (fun _ => 0)
      (.create fun _ => 0)) tr s := hrun
  have hcontract := table_contract hrun
  exact ⟨tr, s, hrun, hlog, hcontract.2.2.2 [.found 0 (some 0), .found 1 (some 1),
    .put 1 7 (some 1), .found 1 none] 1 9 _ hlog⟩

end Nachos.Userprog
