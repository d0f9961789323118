import Nachos.Filesys.OpenFile

/-!
# The directory

The directory is a table of ten entries, kept in a file of its own. A name is
compared on its first nine characters: what `strncpy` stores of it is what
`strncmp` looks at. All that counts of an entry is whether it is in use, and then
its name and its sector; this is `slot`.
-/

namespace Nachos.Filesys

open Nachos.Lib

/-! ## Names -/

/-- A file name as the callers pass it: a string, so without zero characters. -/
structure FileName where
  chars : List UInt8
  no_nul : 0 ∉ chars

/-- `FileNameMaxLen`. -/
def fileNameMaxLen : ℕ := 9

/-- The part of a name that counts. -/
def FileName.key (name : FileName) : List UInt8 := name.chars.take fileNameMaxLen

/-- `!strncmp` of `left` characters from `k` on. -/
def sameName (a b : Buffer) : (left k : ℕ) → Bool
  | 0, _ => true
  | left + 1, k => if a k ≠ b k then false else if a k = 0 then true else sameName a b left (k + 1)

/-- `strncpy` of a name; it pads with zeros. -/
def copyName (dst : Buffer) (name : FileName) : Buffer :=
  fun k => if k < fileNameMaxLen then Buffer.ofList name.chars k else dst k

/-- The name in a character array, at most nine characters from `k` on. -/
def nameFrom (a : Buffer) (left k : ℕ) : List UInt8 :=
  ((List.range' k left).map a).takeWhile (· ≠ 0)

section Names

variable {a b : Buffer} {name : FileName}

theorem nameFrom_succ (a : Buffer) (left k : ℕ) :
    nameFrom a (left + 1) k = if a k = 0 then [] else a k :: nameFrom a left (k + 1) := by
  rw [nameFrom, List.range'_succ, List.map_cons]
  split
  · rename_i h
    rw [List.takeWhile_cons_of_neg (by simpa using h)]
  · rename_i h
    rw [List.takeWhile_cons_of_pos (by simpa using h)]
    rfl

theorem sameName_iff (left k : ℕ) :
    sameName a b left k = true ↔ nameFrom a left k = nameFrom b left k := by
  induction left generalizing k with
  | zero => simp [sameName, nameFrom]
  | succ left ih =>
      rw [sameName, nameFrom_succ, nameFrom_succ]
      by_cases hab : a k = b k
      · rw [if_neg (not_not.mpr hab), hab]
        by_cases hzero : b k = 0
        · simp [hzero]
        · simp [hzero, ih]
      · rw [if_pos hab]
        by_cases ha : a k = 0
        · have hb : b k ≠ 0 := fun hb => hab (ha.trans hb.symm)
          simp [ha, hb]
        · by_cases hb : b k = 0
          · simp [ha, hb]
          · simp [ha, hb, hab]

theorem nameFrom_congr {left k : ℕ} (h : ∀ j, k ≤ j → j < k + left → a j = b j) :
    nameFrom a left k = nameFrom b left k := by
  have hmap : (List.range' k left).map a = (List.range' k left).map b := by
    refine List.map_congr_left ?_
    intro j hj
    obtain ⟨h₁, h₂⟩ := List.mem_range'_1.mp hj
    exact h j h₁ h₂
  rw [nameFrom, nameFrom, hmap]

theorem nameFrom_ofList (left k : ℕ) :
    nameFrom (Buffer.ofList name.chars) left k = (name.chars.drop k).take left := by
  induction left generalizing k with
  | zero => rfl
  | succ left ih =>
      rw [nameFrom_succ, ih]
      by_cases hk : k < name.chars.length
      · have hbyte : Buffer.ofList name.chars k = name.chars[k] := by
          rw [Buffer.ofList, List.getElem?_eq_getElem hk, Option.getD_some]
        have hne : name.chars[k] ≠ 0 := by
          intro heq
          exact name.no_nul (heq ▸ List.getElem_mem hk)
        rw [hbyte, if_neg hne, List.drop_eq_getElem_cons hk, List.take_succ_cons]
      · have hbyte : Buffer.ofList name.chars k = 0 := by
          rw [Buffer.ofList, List.getElem?_eq_none (Nat.not_lt.mp hk), Option.getD_none]
        rw [hbyte, if_pos rfl, List.drop_eq_nil_of_le (Nat.not_lt.mp hk), List.take_nil]

/-- What is stored of a name. -/
theorem nameFrom_copyName (dst : Buffer) (name : FileName) :
    nameFrom (copyName dst name) fileNameMaxLen 0 = name.key := by
  have hcopy : nameFrom (copyName dst name) fileNameMaxLen 0 =
      nameFrom (Buffer.ofList name.chars) fileNameMaxLen 0 := by
    refine nameFrom_congr ?_
    intro j _ hj
    exact if_pos (by omega)
  rw [hcopy, nameFrom_ofList, List.drop_zero]
  rfl

end Names

/-! ## Directories -/

structure DirectoryEntry where
  inUse : Bool
  sector : ℕ
  name : Buffer

/-- `NumDirEntries`. -/
def numDirEntries : ℕ := 10

/-- `sizeof(DirectoryEntry)`: a flag, three bytes of padding, an integer, ten
characters and two bytes of padding. -/
def entrySize : ℕ := 20

def directoryFileSize : ℕ := entrySize * numDirEntries

/-- `Directory`: the entries by index. -/
abbrev Directory : Type := ℕ → DirectoryEntry

namespace Directory

/-- The table in memory; nothing reads the padding. -/
def toBytes (t : Directory) : Buffer := fun o =>
  let e := t (o / entrySize)
  let k := o % entrySize
  if k = 0 then (if e.inUse then 1 else 0)
  else if 4 ≤ k ∧ k < 8 then intByte e.sector (k - 4)
  else if 8 ≤ k ∧ k < 18 then e.name (k - 8)
  else 0

def ofBytes (b : Buffer) : Directory := fun i =>
  ⟨b (i * entrySize) ≠ 0, b.intAt (i * entrySize + 4), fun k => b (i * entrySize + 8 + k)⟩

/-- `Directory::FetchFrom`: the whole table is read. -/
def fetchFrom (d : Disk) (file : FileHeader) : Option Directory :=
  (readAt d file (fun _ => 0) 0 directoryFileSize 0).map fun r => ofBytes r.1

/-- `Directory::WriteBack`. -/
def writeBack (t : Directory) (d : Disk) (file : FileHeader) (heap : Buffer) : Option Disk :=
  (writeAt d file heap t.toBytes directoryFileSize 0).map Prod.fst

def findIndex (t : Directory) (name : FileName) : Option ℕ :=
  (List.range numDirEntries).find? fun i =>
    (t i).inUse && sameName (t i).name (Buffer.ofList name.chars) fileNameMaxLen 0

/-- `Directory::Find`. -/
def find (t : Directory) (name : FileName) : Option ℕ := (t.findIndex name).map fun i => (t i).sector

/-- `Directory::Add`; `none` stands for `FALSE`. -/
def add (t : Directory) (name : FileName) (newSector : ℕ) : Option Directory :=
  if (t.findIndex name).isSome then none
  else
    ((List.range numDirEntries).find? fun i => !(t i).inUse).map fun i =>
      Function.update t i ⟨true, newSector, copyName (t i).name name⟩

/-- `Directory::Remove`. -/
def remove (t : Directory) (name : FileName) : Option Directory :=
  (t.findIndex name).map fun i => Function.update t i { t i with inUse := false }

/-- What entry `i` says: name and sector, if it is in use. -/
def slot (t : Directory) (i : ℕ) : Option (List UInt8 × ℕ) :=
  if (t i).inUse then some (nameFrom (t i).name fileNameMaxLen 0, (t i).sector) else none

section Slots

variable {t t' : Directory} {name : FileName} {i sector : ℕ}

theorem sameName_key (b : Buffer) (name : FileName) :
    sameName b (Buffer.ofList name.chars) fileNameMaxLen 0 = true ↔
      nameFrom b fileNameMaxLen 0 = name.key := by
  rw [sameName_iff, nameFrom_ofList, List.drop_zero]
  rfl

theorem findIndex_some (h : t.findIndex name = some i) :
    i < numDirEntries ∧ t.slot i = some (name.key, (t i).sector) := by
  have hmem := List.mem_of_find?_eq_some h
  have hpred := List.find?_some h
  obtain ⟨huse, hname⟩ := Bool.and_eq_true_iff.mp hpred
  rw [sameName_key] at hname
  exact ⟨List.mem_range.mp hmem, by rw [slot, if_pos huse, hname]⟩

theorem findIndex_none (h : t.findIndex name = none) (hi : i < numDirEntries) (sector : ℕ) :
    t.slot i ≠ some (name.key, sector) := by
  intro hslot
  have hpred := List.find?_eq_none.mp h i (List.mem_range.mpr hi)
  unfold slot at hslot
  split at hslot
  · rename_i huse
    obtain ⟨hname, -⟩ := Prod.mk.inj (Option.some.inj hslot)
    rw [← sameName_key] at hname
    simp [huse, hname] at hpred
  · cases hslot

theorem slot_update (t : Directory) (i : ℕ) (e : DirectoryEntry) (j : ℕ) :
    slot (Function.update t i e) j =
      if j = i then (if e.inUse then some (nameFrom e.name fileNameMaxLen 0, e.sector) else none)
      else t.slot j := by
  unfold slot
  by_cases hj : j = i
  · subst hj
    rw [Function.update_self, if_pos rfl]
  · rw [Function.update_of_ne hj, if_neg hj]

/-- **`Add`** of an absent name takes a free entry, if there is one. -/
theorem add_cases (h : t.findIndex name = none) (sector : ℕ) :
    (t.add name sector = none ∧ ∀ i < numDirEntries, t.slot i ≠ none) ∨
      ∃ t' i, t.add name sector = some t' ∧ i < numDirEntries ∧ t.slot i = none ∧
        ∀ j, t'.slot j = if j = i then some (name.key, sector) else t.slot j := by
  unfold add
  rw [h, if_neg (by simp)]
  cases hfree : (List.range numDirEntries).find? fun i => !(t i).inUse with
  | none =>
      refine .inl ⟨rfl, ?_⟩
      intro i hi
      have huse := List.find?_eq_none.mp hfree i (List.mem_range.mpr hi)
      simp only [Bool.not_eq_true', Bool.not_eq_false] at huse
      rw [slot, if_pos huse]
      simp
  | some i =>
      have hmem := List.mem_of_find?_eq_some hfree
      have huse := List.find?_some hfree
      refine .inr ⟨_, i, rfl, List.mem_range.mp hmem, ?_, ?_⟩
      · rw [slot, if_neg (by simpa using huse)]
      · intro j
        rw [slot_update]
        simp only [if_true, nameFrom_copyName]

theorem remove_eq (h : t.findIndex name = some i) :
    ∃ t', t.remove name = some t' ∧ ∀ j, t'.slot j = if j = i then none else t.slot j := by
  refine ⟨_, by rw [remove, h, Option.map_some], ?_⟩
  intro j
  rw [slot_update]
  rfl

end Slots

/-! ## The directory as a file -/

section File

variable {file : FileHeader} {b b' : Buffer} {i : ℕ}

theorem slot_congr (h : ∀ o < entrySize, b (i * entrySize + o) = b' (i * entrySize + o)) :
    (ofBytes b).slot i = (ofBytes b').slot i := by
  have hflag : (ofBytes b i).inUse = (ofBytes b' i).inUse := by
    simp only [ofBytes, show b (i * entrySize) = b' (i * entrySize) from h 0 (by decide)]
  have hsector : b.intAt (i * entrySize + 4) = b'.intAt (i * entrySize + 4) := by
    refine Buffer.intAt_congr ?_
    intro k hk
    rw [Nat.add_assoc]
    exact h (4 + k) (by unfold entrySize; omega)
  have hname : nameFrom (fun k => b (i * entrySize + 8 + k)) fileNameMaxLen 0 =
      nameFrom (fun k => b' (i * entrySize + 8 + k)) fileNameMaxLen 0 := by
    refine nameFrom_congr ?_
    intro k _ hk
    simp only [Nat.add_assoc]
    exact h (8 + k) (by unfold entrySize fileNameMaxLen at *; omega)
  unfold slot
  rw [hflag, show (ofBytes b i).sector = (ofBytes b' i).sector from hsector]
  exact if_congr Iff.rfl (congrArg (fun k => some (k, (ofBytes b' i).sector)) hname) rfl

/-- **A directory is read back as it was written.** -/
theorem slot_toBytes (t : Directory) (h : ∀ o < entrySize, b (i * entrySize + o) =
    t.toBytes (i * entrySize + o)) (hsector : ∀ k sector, t.slot i = some (k, sector) →
      sector < 2 ^ 32) : (ofBytes b).slot i = t.slot i := by
  have hdiv : ∀ o < entrySize, (i * entrySize + o) / entrySize = i ∧
      (i * entrySize + o) % entrySize = o := by
    intro o ho
    unfold entrySize at *
    omega
  have hflag : (ofBytes b i).inUse = (t i).inUse := by
    have h₀ := h 0 (by decide)
    obtain ⟨hq, hr⟩ := hdiv 0 (by decide)
    rw [toBytes, hq, hr, if_pos rfl, Nat.add_zero] at h₀
    rw [ofBytes]
    cases huse : (t i).inUse with
    | true => simp [h₀, huse]
    | false => simp [h₀, huse]
  unfold slot at hsector ⊢
  rw [hflag]
  by_cases huse : (t i).inUse = true
  · rw [if_pos huse] at hsector ⊢
    rw [if_pos huse]
    have hint : (ofBytes b i).sector = (t i).sector := by
      refine Buffer.intAt_eq ?_ (hsector _ _ rfl)
      intro k hk
      have hk' : 4 + k < entrySize := by
        unfold entrySize
        omega
      obtain ⟨hq, hr⟩ := hdiv (4 + k) hk'
      rw [Nat.add_assoc, h (4 + k) hk', toBytes, hq, hr]
      simp only [if_neg (show ¬ 4 + k = 0 by omega), if_pos (show 4 ≤ 4 + k ∧ 4 + k < 8 by omega),
        Nat.add_sub_cancel_left]
    have hname : nameFrom (ofBytes b i).name fileNameMaxLen 0 =
        nameFrom (t i).name fileNameMaxLen 0 := by
      refine nameFrom_congr ?_
      intro k _ hk
      unfold fileNameMaxLen at hk
      have hk' : 8 + k < entrySize := by
        unfold entrySize
        omega
      obtain ⟨hq, hr⟩ := hdiv (8 + k) hk'
      show b (i * entrySize + 8 + k) = _
      rw [Nat.add_assoc, h (8 + k) hk', toBytes, hq, hr]
      simp only [if_neg (show ¬ 8 + k = 0 by omega), if_neg (show ¬ (4 ≤ 8 + k ∧ 8 + k < 8) by omega),
        if_pos (show 8 ≤ 8 + k ∧ 8 + k < 18 by omega), Nat.add_sub_cancel_left]
    rw [hint, hname]
  · rw [if_neg huse, if_neg huse]

end File

end Directory

/-- A file as long as the directory. -/
structure DirectoryFile (file : FileHeader) : Prop extends file.Fits where
  length : file.numBytes = directoryFileSize

/-- The directory that a file holds. -/
def directoryOf (d : Disk) (file : FileHeader) : Directory := .ofBytes (fileByte d file)

section DirectoryFile

variable {file : FileHeader}

theorem entry_in_file {i o : ℕ} (hi : i < numDirEntries) (ho : o < entrySize) :
    i * entrySize + o < directoryFileSize := by
  unfold directoryFileSize entrySize numDirEntries at *
  omega

theorem fetchDirectory_eq (hfile : DirectoryFile file) (d : Disk) :
    ∃ t, Directory.fetchFrom d file = some t ∧
      ∀ i < numDirEntries, t.slot i = (directoryOf d file).slot i := by
  obtain ⟨buf, hread, hbytes⟩ := readAt_whole d (fun _ => 0) hfile.toFits
  rw [hfile.length] at hread hbytes
  refine ⟨.ofBytes buf, by rw [Directory.fetchFrom, hread, Option.map_some], ?_⟩
  intro i hi
  exact Directory.slot_congr fun o ho => hbytes _ (entry_in_file hi ho)

theorem writeBackDirectory_eq (hfile : DirectoryFile file) (t : Directory) (d : Disk)
    (heap : Buffer) (hsector : ∀ i < numDirEntries, ∀ k sector, t.slot i = some (k, sector) →
      sector < 2 ^ 32) :
    ∃ d', t.writeBack d file heap = some d' ∧
      (∀ x, (∀ i < file.numSectors, x ≠ file.dataSectors i) → d' x = d x) ∧
      ∀ i < numDirEntries, (directoryOf d' file).slot i = t.slot i := by
  obtain ⟨d', hwrite, hother, hbytes⟩ := writeAt_whole d heap t.toBytes hfile.toFits
  rw [hfile.length] at hwrite hbytes
  refine ⟨d', by rw [Directory.writeBack, hwrite, Option.map_some], hother, ?_⟩
  intro i hi
  exact Directory.slot_toBytes t (fun o ho => hbytes _ (entry_in_file hi ho)) (hsector i hi)

end DirectoryFile

end Nachos.Filesys
