import Mathlib.Data.Set.Card
import Nachos.Filesys.FileSystem

/-!
# The file system as a map

To its users the file system is a map from names to byte strings of fixed length,
with at most ten names, and open files are positions in one of its values. There
are no sectors, no headers, no free map and no directory here. What a new file
holds is not specified, so an operation is a relation between two such maps.
-/

namespace Nachos.Filesys

open Nachos.Lib

/-! ## States -/

/-- Names, what they stand for, and the open files with their positions. -/
structure Files where
  contents : List UInt8 → Option (List UInt8)
  handles : ℕ → Option (List UInt8 × ℕ)
  next : ℕ
  few : {k | contents k ≠ none}.encard ≤ numDirEntries

/-- The names that are there. -/
def Files.names (S : Files) : Set (List UInt8) := {k | S.contents k ≠ none}

/-- No file and no open file. -/
def Files.empty : Files where
  contents := fun _ => none
  handles := fun _ => none
  next := 0
  few := by simp

/-- The bytes that a request at `position` addresses. -/
def addressed (c : List UInt8) (numBytes : ℤ) (position : ℕ) : List UInt8 :=
  (c.drop position).take numBytes.toNat

/-- The number of these bytes. -/
def span (c : List UInt8) (numBytes : ℤ) (position : ℕ) : ℕ :=
  min numBytes.toNat (c.length - position)

/-- The same bytes replaced by those of `src`. -/
def overwrite (c : List UInt8) (src : Buffer) (numBytes : ℤ) (position : ℕ) : List UInt8 :=
  c.mapIdx fun i b =>
    if position ≤ i ∧ i < position + span c numBytes position then src (i - position) else b

theorem length_addressed (c : List UInt8) (numBytes : ℤ) (position : ℕ) :
    (addressed c numBytes position).length = span c numBytes position := by
  rw [addressed, List.length_take, List.length_drop, span]

theorem length_overwrite (c : List UInt8) (src : Buffer) (numBytes : ℤ) (position : ℕ) :
    (overwrite c src numBytes position).length = c.length := List.length_mapIdx

/-! ## Operations -/

namespace Files

/-- **What each operation does**, and what it returns. -/
inductive Step : Files → Event → Files → Prop
  | create {S S' : Files} {name : FileName} {size : ℕ} {c : List UInt8}
      (absent : S.contents name.key = none) (length : c.length = size)
      (contents : S'.contents = Function.update S.contents name.key (some c))
      (handles : S'.handles = S.handles) (next : S'.next = S.next) :
      Step S (.create name size true) S'
  | createFails {S : Files} {name : FileName} {size : ℕ}
      (cause : S.contents name.key ≠ none ∨ S.names.encard = numDirEntries) :
      Step S (.create name size false) S
  | openFile {S S' : Files} {name : FileName} (present : S.contents name.key ≠ none)
      (contents : S'.contents = S.contents)
      (handles : S'.handles = Function.update S.handles S.next (some (name.key, 0)))
      (next : S'.next = S.next + 1) :
      Step S (.openFile name (some S.next)) S'
  | openFails {S : Files} {name : FileName} (absent : S.contents name.key = none) :
      Step S (.openFile name none) S
  | readAt {S : Files} {h p position : ℕ} {k c : List UInt8} {numBytes : ℤ}
      (handle : S.handles h = some (k, p)) (file : S.contents k = some c) :
      Step S (.readAt h numBytes position (addressed c numBytes position)) S
  | writeAt {S S' : Files} {h p position : ℕ} {k c : List UInt8} {src : Buffer} {numBytes : ℤ}
      (handle : S.handles h = some (k, p)) (file : S.contents k = some c)
      (contents : S'.contents =
        Function.update S.contents k (some (overwrite c src numBytes position)))
      (handles : S'.handles = S.handles) (next : S'.next = S.next) :
      Step S (.writeAt h src numBytes position (span c numBytes position)) S'
  | read {S S' : Files} {h p : ℕ} {k c : List UInt8} {numBytes : ℤ}
      (handle : S.handles h = some (k, p)) (file : S.contents k = some c)
      (contents : S'.contents = S.contents)
      (handles : S'.handles = Function.update S.handles h (some (k, p + span c numBytes p)))
      (next : S'.next = S.next) :
      Step S (.read h numBytes (addressed c numBytes p)) S'
  | write {S S' : Files} {h p : ℕ} {k c : List UInt8} {src : Buffer} {numBytes : ℤ}
      (handle : S.handles h = some (k, p)) (file : S.contents k = some c)
      (contents : S'.contents = Function.update S.contents k (some (overwrite c src numBytes p)))
      (handles : S'.handles = Function.update S.handles h (some (k, p + span c numBytes p)))
      (next : S'.next = S.next) :
      Step S (.write h src numBytes (span c numBytes p)) S'
  | remove {S S' : Files} {name : FileName} (present : S.contents name.key ≠ none)
      (contents : S'.contents = Function.update S.contents name.key none)
      (handles : ∀ h, S'.handles h = (S.handles h).filter fun file => file.1 ≠ name.key)
      (next : S'.next = S.next) :
      Step S (.remove name true) S'
  | removeFails {S : Files} {name : FileName} (absent : S.contents name.key = none) :
      Step S (.remove name false) S

theorem Step.openFile_contents {S S' : Files} {name : FileName} {h : Option ℕ}
    (hstep : Step S (.openFile name h) S') : S'.contents = S.contents := by
  cases hstep with
  | openFile _ hcontents _ _ => exact hcontents
  | openFails _ => rfl

/-- The maps that a trace can lead to. -/
inductive Runs : List Event → Files → Prop
  | start : Runs [] empty
  | snoc {tr : List Event} {S S' : Files} {e : Event} :
      Runs tr S → Step S e S' → Runs (tr ++ [e]) S'

theorem Runs.snoc_inv (tr : List Event) {e : Event} {S' : Files} (h : Runs (tr ++ [e]) S') :
    ∃ S, Runs tr S ∧ Step S e S' := by
  generalize htr : tr ++ [e] = tr' at h
  cases h with
  | start => exact absurd htr (List.append_ne_nil_of_right_ne_nil _ (List.cons_ne_nil _ _))
  | snoc hruns hstep =>
      obtain ⟨rfl, hlast⟩ := List.append_inj' htr rfl
      obtain rfl := List.singleton_inj.mp hlast
      exact ⟨_, hruns, hstep⟩

end Files

/-! ## Open files that may be used -/

/-- An open file may be used until the file with its name is removed. -/
def Event.usable (live : List (ℕ × List UInt8)) : Event → List (ℕ × List UInt8)
  | .openFile name (some h) => live ++ [(h, name.key)]
  | .remove name true => live.filter fun file => file.2 ≠ name.key
  | _ => live

/-- The open files that may be used after a trace, each with the name it was
opened under. -/
def usable (tr : List Event) : List (ℕ × List UInt8) := tr.foldl Event.usable []

theorem usable_snoc (tr : List Event) (e : Event) : usable (tr ++ [e]) = e.usable (usable tr) := by
  rw [usable, List.foldl_append]
  rfl

/-- The map knows the open files in `live`. -/
def Files.Knows (S : Files) (live : List (ℕ × List UInt8)) : Prop :=
  ∀ h k, (h, k) ∈ live → h < S.next ∧ ∃ p, S.handles h = some (k, p)

theorem Files.Step.knows {S S' : Files} {e : Event} {live : List (ℕ × List UInt8)}
    (hstep : Step S e S') (hknows : S.Knows live) : S'.Knows (e.usable live) := by
  have hmoved : ∀ {h p k n}, S.handles h = some (k, p) → S'.next = S.next →
      S'.handles = Function.update S.handles h (some (k, p + n)) → S'.Knows live := by
    intro h p k n hhandle hnext hhandles h' k' hmem
    obtain ⟨hlt, p', hp'⟩ := hknows h' k' hmem
    refine ⟨hnext ▸ hlt, ?_⟩
    rw [hhandles]
    by_cases heq : h' = h
    · subst heq
      obtain ⟨rfl, rfl⟩ := Prod.mk.inj (Option.some.inj (hhandle.symm.trans hp'))
      exact ⟨_, Function.update_self ..⟩
    · exact ⟨p', by rw [Function.update_of_ne heq]; exact hp'⟩
  have hsame : S'.next = S.next → S'.handles = S.handles → S'.Knows live := by
    intro hnext hhandles h k hmem
    rw [hnext, hhandles]
    exact hknows h k hmem
  cases hstep with
  | create _ _ _ hhandles hnext => exact hsame hnext hhandles
  | createFails _ => exact hknows
  | openFile _ _ hhandles hnext =>
      intro h k hmem
      rw [hnext, hhandles]
      rcases List.mem_append.mp hmem with hmem | hmem
      · obtain ⟨hlt, p, hp⟩ := hknows h k hmem
        refine ⟨Nat.lt_succ_of_lt hlt, p, ?_⟩
        rw [Function.update_of_ne (Nat.ne_of_lt hlt)]
        exact hp
      · obtain ⟨rfl, rfl⟩ := Prod.mk.inj (List.mem_singleton.mp hmem)
        exact ⟨Nat.lt_succ_self _, 0, Function.update_self ..⟩
  | openFails _ => exact hknows
  | readAt _ _ => exact hknows
  | writeAt _ _ _ hhandles hnext => exact hsame hnext hhandles
  | read hhandle _ _ hhandles hnext => exact hmoved hhandle hnext hhandles
  | write hhandle _ _ hhandles hnext => exact hmoved hhandle hnext hhandles
  | remove _ _ hhandles hnext =>
      intro h k hmem
      obtain ⟨hmem, hne⟩ := List.mem_filter.mp hmem
      obtain ⟨hlt, p, hp⟩ := hknows h k hmem
      refine ⟨hnext ▸ hlt, p, ?_⟩
      rw [hhandles, hp]
      exact Option.filter_some_pos hne
  | removeFails _ => exact hknows

/-- **A usable open file** is one that the map knows. -/
theorem Files.Runs.knows {tr : List Event} {S : Files} (hrun : Runs tr S) :
    S.Knows (usable tr) := by
  induction hrun with
  | start =>
      intro h k hmem
      exact absurd hmem List.not_mem_nil
  | snoc _ hstep ih =>
      rw [usable_snoc]
      exact hstep.knows ih

end Nachos.Filesys
