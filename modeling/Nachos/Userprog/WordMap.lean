import Nachos.Filesys.FreeMap
import Nachos.Lib.Run
import Mathlib.Algebra.Order.BigOperators.Group.Finset

/-!
# Bit maps in words

A `BitMap` packs its bits into words of 32 bits and comes back to them with a
shift and a mask; the last word may be used in part, and the words of a new map
hold anything. What it means is the set of `BitMap` here: every call on the words
is the call on the set of their bits.
-/

namespace Nachos.Userprog

open Nachos.Lib Nachos.Filesys

/-- `BitsInWord`. -/
def bitsInWord : ℕ := 32

/-- `BitMap` as it is stored. -/
structure WordMap where
  numBits : ℕ
  numWords : ℕ
  map : ℕ → BitVec 32
  rounded : numWords = divRoundUp numBits bitsInWord

namespace WordMap

/-- The array with another word at `k`. -/
def setWord (b : WordMap) (k : ℕ) (w : BitVec 32) : WordMap :=
  { b with map := Function.update b.map k w }

theorem setWord_map (b : WordMap) (k : ℕ) (w : BitVec 32) :
    (b.setWord k w).map = Function.update b.map k w := rfl

/-- The `ASSERT` of the calls with a bit; `none` also for a word outside the array. -/
def bit (b : WordMap) (which : ℤ) : Option ℕ :=
  if 0 ≤ which ∧ which < b.numBits ∧ which.toNat / bitsInWord < b.numWords then some which.toNat
  else none

/-- `1 << (which % BitsInWord)`. -/
def mask (which : ℕ) : BitVec 32 := 1#32 <<< (which % bitsInWord)

def mark (b : WordMap) (which : ℤ) : Option WordMap :=
  (b.bit which).map fun i => b.setWord (i / bitsInWord) (b.map (i / bitsInWord) ||| mask i)

def clear (b : WordMap) (which : ℤ) : Option WordMap :=
  (b.bit which).map fun i => b.setWord (i / bitsInWord) (b.map (i / bitsInWord) &&& ~~~ mask i)

def test (b : WordMap) (which : ℤ) : Option Bool :=
  (b.bit which).map fun i => decide (b.map (i / bitsInWord) &&& mask i ≠ 0#32)

/-- The loop of the constructor. -/
def clearFrom (b : WordMap) : (left i : ℕ) → Option WordMap
  | 0, _ => some b
  | left + 1, i => (b.clear i).bind fun b => clearFrom b left (i + 1)

/-- `BitMap::BitMap`; `memory` is what the new words hold. -/
def create (nitems : ℕ) (memory : ℕ → BitVec 32) : Option WordMap :=
  clearFrom ⟨nitems, divRoundUp nitems bitsInWord, memory, rfl⟩ nitems 0

/-- The loop of `Find`. -/
def findFrom (b : WordMap) : (left i : ℕ) → Option (ℤ × WordMap)
  | 0, _ => some (-1, b)
  | left + 1, i => (b.test i).bind fun set =>
      if ¬ set then (b.mark i).map fun b => (i, b) else findFrom b left (i + 1)

def find (b : WordMap) : Option (ℤ × WordMap) := b.findFrom b.numBits 0

/-- The loop of `NumClear`. -/
def numClearFrom (b : WordMap) : (left i count : ℕ) → Option ℕ
  | 0, _, count => some count
  | left + 1, i, count => (b.test i).bind fun set =>
      numClearFrom b left (i + 1) (if ¬ set then count + 1 else count)

def numClear (b : WordMap) : Option ℕ := b.numClearFrom b.numBits 0 0

/-- The words as `WriteBack` casts them. -/
def bytes (b : WordMap) : Buffer := fun o => intByte (b.map (o / 4)).toNat (o % 4)

/-- The words that `FetchFrom` reads over. -/
def ofBytes (b : WordMap) (buf : Buffer) : WordMap :=
  { b with map := fun k => BitVec.ofNat 32 (buf.intAt (4 * k)) }

def fetchFrom (b : WordMap) (d : Disk) (file : FileHeader) : Option WordMap :=
  (readAt d file b.bytes 0 (b.numWords * 4 : ℕ) 0).map fun r => b.ofBytes r.1

def writeBack (b : WordMap) (d : Disk) (file : FileHeader) (heap : Buffer) : Option Disk :=
  (writeAt d file heap b.bytes (b.numWords * 4 : ℕ) 0).map Prod.fst

/-! ## The set of the bits -/

/-- The bits that are set, those behind the last one included. -/
def bits (b : WordMap) : BitMap := fun i => (b.map (i / bitsInWord)).getLsbD (i % bitsInWord)

variable {b b' : WordMap} {i j : ℕ}

theorem getLsbD_mask (i j : ℕ) : (mask i).getLsbD j = decide (j = i % bitsInWord) := by
  unfold mask bitsInWord
  rw [BitVec.getLsbD_shiftLeft, BitVec.getLsbD_one]
  have hlt : i % 32 < 32 := Nat.mod_lt i (by decide)
  by_cases hji : j = i % 32
  · simp [hji, hlt]
  · simp [hji]
    omega

/-- Two bits of one word differ in their place in it. -/
theorem mod_ne (hne : j ≠ i) (hword : j / bitsInWord = i / bitsInWord) :
    j % bitsInWord ≠ i % bitsInWord := by
  intro hmod
  apply hne
  rw [← Nat.div_add_mod j bitsInWord, ← Nat.div_add_mod i bitsInWord, hword, hmod]

/-- A word changed in one bit changes that bit of the map. -/
theorem bits_setWord {w : BitVec 32} {x : Bool}
    (hself : w.getLsbD (i % bitsInWord) = x)
    (hother : ∀ k < bitsInWord, k ≠ i % bitsInWord →
      w.getLsbD k = (b.map (i / bitsInWord)).getLsbD k) :
    (b.setWord (i / bitsInWord) w).bits = Function.update b.bits i x := by
  funext j
  unfold bits
  rw [setWord_map]
  by_cases hji : j = i
  · subst hji
    rw [Function.update_self, Function.update_self, hself]
  · rw [Function.update_of_ne hji]
    by_cases hword : j / bitsInWord = i / bitsInWord
    · rw [hword, Function.update_self, hother _ (Nat.mod_lt j (by decide)) (mod_ne hji hword)]
    · rw [Function.update_of_ne hword]

/-- The words are enough for the bits. -/
theorem bit_eq (hi : i < b.numBits) : b.bit i = some i := by
  have hwords := b.rounded
  unfold divRoundUp bitsInWord at hwords
  unfold bit bitsInWord
  rw [if_pos, Int.toNat_natCast]
  split at hwords <;> omega

/-- The bits that the calls accept. -/
theorem bit_some {which : ℤ} (h : b.bit which = some i) : which = i ∧ i < b.numBits := by
  unfold bit at h
  split at h
  · cases h
    omega
  · cases h

/-- **`Mark`** sets one bit. -/
theorem mark_eq (hi : i < b.numBits) :
    ∃ b', b.mark i = some b' ∧ b'.numBits = b.numBits ∧ b'.bits = b.bits.mark i := by
  refine ⟨_, congrArg (Option.map _) (bit_eq hi), rfl, ?_⟩
  refine bits_setWord ?_ ?_
  · rw [BitVec.getLsbD_or, getLsbD_mask, decide_eq_true rfl,
      Bool.or_true]
  · intro k hk hne
    rw [BitVec.getLsbD_or, getLsbD_mask, decide_eq_false hne, Bool.or_false]

/-- **`Clear`** clears one bit. -/
theorem clear_eq (hi : i < b.numBits) :
    ∃ b', b.clear i = some b' ∧ b'.numBits = b.numBits ∧ b'.bits = b.bits.clear i := by
  refine ⟨_, congrArg (Option.map _) (bit_eq hi), rfl, ?_⟩
  refine bits_setWord ?_ ?_
  · rw [BitVec.getLsbD_and, BitVec.getLsbD_not, getLsbD_mask,
      decide_eq_true rfl, Bool.not_true, Bool.and_false, Bool.and_false]
  · intro k hk hne
    rw [BitVec.getLsbD_and, BitVec.getLsbD_not, getLsbD_mask, decide_eq_false hne,
      decide_eq_true (show k < 32 from hk), Bool.not_false, Bool.and_true, Bool.and_true]

/-- **`Test`** reads one bit. -/
theorem test_eq (hi : i < b.numBits) : b.test i = some (b.bits i) := by
  rw [test, bit_eq hi, Option.map_some, Option.some_inj]
  cases hbit : b.bits i with
  | true =>
      refine decide_eq_true fun hzero => ?_
      have hself := congrArg (fun w => w.getLsbD (i % bitsInWord)) hzero
      rw [BitVec.getLsbD_and, getLsbD_mask, decide_eq_true rfl, Bool.and_true,
        BitVec.getLsbD_zero] at hself
      exact Bool.false_ne_true (hself.symm.trans hbit)
  | false =>
      refine decide_eq_false (not_not_intro (BitVec.eq_of_getLsbD_eq fun k hk => ?_))
      rw [BitVec.getLsbD_and, getLsbD_mask, BitVec.getLsbD_zero]
      by_cases hki : k = i % bitsInWord
      · rw [hki]
        exact (congrArg (· && _) hbit).trans (Bool.false_and _)
      · rw [decide_eq_false hki, Bool.and_false]

/-- A call of `Mark` that has returned. -/
theorem mark_some {which : ℤ} (h : b.mark which = some b') :
    ∃ i : ℕ, which = i ∧ b'.numBits = b.numBits ∧ b'.bits = b.bits.mark i := by
  obtain ⟨i, hbit, -⟩ := Option.map_eq_some_iff.1 h
  obtain ⟨rfl, hi⟩ := bit_some hbit
  obtain ⟨b₁, hmark, hn, hset⟩ := mark_eq hi
  obtain rfl := Option.some.inj (hmark.symm.trans h)
  exact ⟨i, rfl, hn, hset⟩

/-- A call of `Clear` that has returned. -/
theorem clear_some {which : ℤ} (h : b.clear which = some b') :
    ∃ i : ℕ, which = i ∧ b'.numBits = b.numBits ∧ b'.bits = b.bits.clear i := by
  obtain ⟨i, hbit, -⟩ := Option.map_eq_some_iff.1 h
  obtain ⟨rfl, hi⟩ := bit_some hbit
  obtain ⟨b₁, hclear, hn, hset⟩ := clear_eq hi
  obtain rfl := Option.some.inj (hclear.symm.trans h)
  exact ⟨i, rfl, hn, hset⟩

/-! ## The loops -/

/-- The loop of the constructor clears the bits it comes to. -/
theorem clearFrom_eq : ∀ {b : WordMap} {left i : ℕ}, i + left ≤ b.numBits →
    ∃ b', b.clearFrom left i = some b' ∧ b'.numBits = b.numBits ∧
      (∀ j, i ≤ j → j < i + left → b'.bits j = false) ∧
      ∀ j, j < i ∨ i + left ≤ j → b'.bits j = b.bits j
  | b, 0, i, _ => ⟨b, rfl, rfl, fun j h₁ h₂ => by omega, fun _ _ => rfl⟩
  | b, left + 1, i, hle => by
      obtain ⟨b₁, hclear, hbits₁, hset₁⟩ := clear_eq (show i < b.numBits by omega)
      obtain ⟨b', hrest, hbits', hcleared, hkept⟩ :=
        clearFrom_eq (show i + 1 + left ≤ b₁.numBits by omega)
      refine ⟨b', by rw [clearFrom, hclear, Option.bind_some, hrest], by omega, ?_, ?_⟩
      · intro j hij hlt
        rcases Nat.eq_or_lt_of_le hij with rfl | hgt
        · rw [hkept i (.inl (Nat.lt_succ_self i)), hset₁, BitMap.clear_self]
        · exact hcleared j hgt (by omega)
      · intro j hout
        rw [hkept j (by omega), hset₁, BitMap.clear_of_ne _ (by omega)]

/-- **A new map** is empty, whatever its words held. -/
theorem create_eq (nitems : ℕ) (memory : ℕ → BitVec 32) :
    ∃ b, create nitems memory = some b ∧ b.numBits = nitems ∧ ∀ i < nitems, b.bits i = false := by
  have hle : 0 + nitems ≤ (⟨nitems, _, memory, rfl⟩ : WordMap).numBits := (Nat.zero_add nitems).le
  obtain ⟨b, hcreate, hbits, hcleared, -⟩ := clearFrom_eq hle
  exact ⟨b, hcreate, hbits, fun i hi => hcleared i (Nat.zero_le i) (by omega)⟩

/-- The loop of `Find` is the scan of the set. -/
theorem findFrom_eq (b : WordMap) : ∀ {left i : ℕ}, i + left ≤ b.numBits →
    (BitMap.findFrom b.bits left i = none ∧ b.findFrom left i = some (-1, b)) ∨
      ∃ k b', BitMap.findFrom b.bits left i = some k ∧ b.mark k = some b' ∧
        b.findFrom left i = some ((k : ℤ), b')
  | 0, i, _ => .inl ⟨rfl, rfl⟩
  | left + 1, i, hle => by
      have hi : i < b.numBits := by omega
      rw [findFrom, BitMap.findFrom, test_eq hi, Option.bind_some]
      cases hset : b.bits i with
      | true => exact findFrom_eq b (by omega)
      | false =>
          obtain ⟨b', hmark, -⟩ := mark_eq hi
          exact .inr ⟨i, b', rfl, hmark, by rw [if_pos (by decide), hmark, Option.map_some]⟩

/-- The loop of `NumClear` counts on. -/
theorem numClearFrom_eq : ∀ {left i : ℕ}, i + left ≤ b.numBits →
    b.numClearFrom left i (b.bits.numClear i) = some (b.bits.numClear (i + left))
  | 0, i, _ => rfl
  | left + 1, i, hle => by
      have hcount : (if ¬ b.bits i then b.bits.numClear i + 1 else b.bits.numClear i) =
          b.bits.numClear (i + 1) := by
        rw [BitMap.numClear]
        cases b.bits i <;> rfl
      rw [numClearFrom, test_eq (show i < b.numBits by omega), Option.bind_some, hcount,
        numClearFrom_eq (by omega), Nat.succ_add_eq_add_succ]

/-- **`NumClear`**. -/
theorem numClear_eq (b : WordMap) : b.numClear = some (b.bits.numClear b.numBits) := by
  have hloop : b.numClearFrom b.numBits 0 (b.bits.numClear 0) = _ :=
    numClearFrom_eq (Nat.zero_add _).le
  rwa [Nat.zero_add] at hloop

/-! ## The map as a file -/

/-- The words of a map are the bits packed into bytes. -/
theorem bytes_eq (b : WordMap) : b.bytes = packBits b.bits := by
  funext o
  refine eq_packByte fun k hk => ?_
  rw [bytes, testBit_intByte _ _ hk, bits, bitsInWord, BitVec.testBit_toNat]
  congr 2 <;> omega

theorem bits_ofBytes (b : WordMap) (buf : Buffer) : (b.ofBytes buf).bits = unpackBits buf := by
  funext i
  have hword : 4 * (i / 32) + i % 32 / 8 = i / 8 := by omega
  have hbit : 8 * (i % 32 / 8) + i % 8 = i % 32 := by omega
  have hread := Buffer.testBit_intAt buf (4 * (i / 32)) (show i % 32 / 8 < 4 by omega)
    (show i % 8 < 8 by omega)
  rw [hword, hbit] at hread
  rw [bits, ofBytes, bitsInWord, BitVec.getLsbD_ofNat, decide_eq_true (Nat.mod_lt i (by decide)),
    Bool.true_and, hread, unpackBits]

section File

variable {file : FileHeader}

/-- The words of a file that is long enough are transferred as a whole. -/
theorem transfers (hfits : file.Fits) (hlen : b.numWords * 4 ≤ file.numBytes) :
    ¬ Overflows file (b.numWords * 4 : ℕ) 0 ∧
      transferred file (b.numWords * 4 : ℕ) 0 = b.numWords * 4 := by
  have hsize := hfits.size
  unfold Overflows transferred FileHeader.fileLength maxFileSize numDirect sectorSize at *
  omega

theorem byte_lt (hi : i < b.numBits) : i / 8 < b.numWords * 4 := by
  have hwords := b.rounded
  unfold divRoundUp bitsInWord at hwords
  split at hwords <;> omega

/-- **`WriteBack`** stores the set in the file. -/
theorem writeBack_eq (hfits : file.Fits) (hlen : b.numWords * 4 ≤ file.numBytes) (d : Disk)
    (heap : Buffer) :
    ∃ d', b.writeBack d file heap = some d' ∧
      (∀ x, (∀ i < file.numSectors, x ≠ file.dataSectors i) → d' x = d x) ∧
      ∀ i < b.numBits, mapOf d' file i = b.bits i := by
  obtain ⟨hno, hcount⟩ := transfers hfits hlen
  obtain ⟨d', hwrite, hother, hbytes⟩ := writeAt_eq d heap b.bytes hfits hno
  refine ⟨d', by rw [writeBack, hwrite, Option.map_some], hother, ?_⟩
  intro i hi
  have hbyte := byte_lt hi
  refine unpackBits_eq ?_
  rw [hbytes _ (by omega), hcount, if_pos ⟨Nat.zero_le _, by omega⟩, Nat.sub_zero, bytes_eq]

/-- **`FetchFrom`** reads the set from the file. -/
theorem fetchFrom_eq (hfits : file.Fits) (hlen : b.numWords * 4 ≤ file.numBytes) (d : Disk) :
    ∃ b', b.fetchFrom d file = some b' ∧ b'.numBits = b.numBits ∧
      ∀ i < b.numBits, b'.bits i = mapOf d file i := by
  obtain ⟨hno, hcount⟩ := transfers hfits hlen
  obtain ⟨buf, hread, hbytes⟩ := readAt_eq d b.bytes 0 hfits hno
  refine ⟨b.ofBytes buf, by rw [fetchFrom, hread, Option.map_some], rfl, ?_⟩
  intro i hi
  have hbyte := byte_lt hi
  rw [bits_ofBytes, mapOf, unpackBits, unpackBits, hbytes, hcount,
    if_pos ⟨Nat.zero_le _, by omega⟩, Nat.zero_add, Nat.sub_zero]

end File

/-- The map of the sectors is stored as the file system stores its set. -/
theorem writeBack_eq_writeBackMap (hbits : b.numBits = numSectors) (d : Disk) (file : FileHeader)
    (heap : Buffer) : b.writeBack d file heap = writeBackMap b.bits d file heap := by
  have hwords : b.numWords * 4 = numSectors / 8 := by
    rw [b.rounded, hbits]
    decide
  rw [writeBack, writeBackMap, bytes_eq, hwords]

/-! ## Runs -/

/-- **`Find`** takes the first clear bit, or changes nothing when every bit is set. -/
theorem find_eq (b : WordMap) :
    (b.find = some (-1, b) ∧ ∀ i < b.numBits, b.bits i = true) ∨
      ∃ k b', k < b.numBits ∧ b.bits k = false ∧ (∀ j < k, b.bits j = true) ∧
        b.mark k = some b' ∧ b.find = some ((k : ℤ), b') := by
  rcases b.findFrom_eq (Nat.zero_add b.numBits).le with ⟨hnone, hfind⟩ | ⟨k, b', h⟩
  · exact .inl ⟨hfind, BitMap.find_none hnone⟩
  · obtain ⟨hsome, hmark, hfind⟩ := h
    obtain ⟨hk, hclear, hbelow⟩ := BitMap.find_some hsome
    exact .inr ⟨k, b', hk, hclear, hbelow, hmark, hfind⟩

end WordMap

/-- A call that changes the map. -/
inductive MapCall where
  | mark (which : ℤ)
  | clear (which : ℤ)
  | find

/-- A call that has returned; `found` has the result of `Find`. -/
inductive MapEvent where
  | marked (which : ℤ)
  | cleared (which : ℤ)
  | found (result : ℤ)

def MapCall.step (b : WordMap) : MapCall → Option (WordMap × MapEvent)
  | mark which => (b.mark which).map (·, .marked which)
  | clear which => (b.clear which).map (·, .cleared which)
  | find => b.find.map fun r => (r.2, .found r.1)

/-- The bit was marked or returned by `Find`, and has not been cleared since. -/
def LastSet (tr : List MapEvent) (i : ℕ) : Prop :=
  Since tr (fun _ e => e = .marked i ∨ e = .found i) (· = .cleared i)

theorem lastSet_snoc {tr : List MapEvent} {e : MapEvent} {i : ℕ} : LastSet (tr ++ [e]) i ↔
    (e = .marked i ∨ e = .found i) ∨ LastSet tr i ∧ e ≠ .cleared i := since_snoc

/-- A map that stands for the set of the bits `S`, of `n`. -/
structure IsSet (n : ℕ) (S : ℕ → Prop) (b : WordMap) : Prop where
  test : ∀ i < n, ∃ isSet, b.test i = some isSet ∧ (isSet = true ↔ S i)
  mark : ∀ i < n, ∃ b', b.mark i = some b' ∧ b'.test i = some true ∧
    ∀ j < n, j ≠ i → b'.test j = b.test j
  clear : ∀ i < n, ∃ b', b.clear i = some b' ∧ b'.test i = some false ∧
    ∀ j < n, j ≠ i → b'.test j = b.test j
  find : (b.find = some (-1, b) ∧ ∀ i < n, S i) ∨
    ∃ k b', k < n ∧ ¬ S k ∧ (∀ j < k, S j) ∧ b.mark k = some b' ∧ b.find = some ((k : ℤ), b')
  numClear : b.numClear = some (n - ((Finset.range n).filter fun i : ℕ => b.test i = some true).card)

section Sets

variable {n : ℕ} {S : ℕ → Prop} {b : WordMap}

/-- **Refinement.** A map stands for the set of its bits. -/
theorem isSet_of_bits (hn : b.numBits = n) (hbits : ∀ i < n, b.bits i = true ↔ S i) :
    IsSet n S b := by
  subst hn
  refine ⟨?_, ?_, ?_, ?_, ?_⟩
  · intro i hi
    exact ⟨b.bits i, WordMap.test_eq hi, hbits i hi⟩
  · intro i hi
    obtain ⟨b', hmark, hn', hset⟩ := WordMap.mark_eq hi
    refine ⟨b', hmark, ?_, ?_⟩
    · rw [WordMap.test_eq (by omega), hset, BitMap.mark_self]
    · intro j hj hne
      rw [WordMap.test_eq (by omega), WordMap.test_eq hj, hset, BitMap.mark_of_ne _ hne]
  · intro i hi
    obtain ⟨b', hclear, hn', hset⟩ := WordMap.clear_eq hi
    refine ⟨b', hclear, ?_, ?_⟩
    · rw [WordMap.test_eq (by omega), hset, BitMap.clear_self]
    · intro j hj hne
      rw [WordMap.test_eq (by omega), WordMap.test_eq hj, hset, BitMap.clear_of_ne _ hne]
  · rcases b.find_eq with ⟨hfind, hall⟩ | ⟨k, b', hk, hclear, hbelow, hmark, hfind⟩
    · exact .inl ⟨hfind, fun i hi => (hbits i hi).1 (hall i hi)⟩
    · refine .inr ⟨k, b', hk, ?_, ?_, hmark, hfind⟩
      · rw [← hbits k hk, hclear]
        exact Bool.false_ne_true
      · exact fun j hj => (hbits j (hj.trans hk)).1 (hbelow j hj)
  · have htest : ((Finset.range b.numBits).filter fun i : ℕ => b.test i = some true) =
        (Finset.range b.numBits).filter fun i => ¬ b.bits i = false := by
      refine Finset.filter_congr fun i hi => ?_
      rw [WordMap.test_eq (Finset.mem_range.1 hi), Option.some_inj, Bool.not_eq_false]
    have hcount := Finset.card_filter_add_card_filter_not (s := Finset.range b.numBits)
      fun i => b.bits i = false
    rw [Finset.card_range] at hcount
    rw [b.numClear_eq, BitMap.numClear_eq, htest, Option.some_inj]
    omega

/-- **The step lemma**: a call sets or clears the bit it reports, and no other. -/
theorem MapCall.step_bits {b' : WordMap} {call : MapCall} {e : MapEvent}
    (h : call.step b = some (b', e)) : b'.numBits = b.numBits ∧ ∀ i : ℕ, b'.bits i = true ↔
      (e = .marked i ∨ e = .found i) ∨ b.bits i = true ∧ e ≠ .cleared i := by
  cases call with
  | mark which =>
      obtain ⟨b₁, hmark, heq⟩ := Option.map_eq_some_iff.1 h
      obtain ⟨rfl, rfl⟩ := Prod.mk.inj heq
      obtain ⟨k, rfl, hn, hset⟩ := WordMap.mark_some hmark
      refine ⟨hn, fun i => ?_⟩
      rw [hset]
      by_cases hik : i = k
      · simp [hik]
      · simp [hik, Ne.symm hik]
  | clear which =>
      obtain ⟨b₁, hclear, heq⟩ := Option.map_eq_some_iff.1 h
      obtain ⟨rfl, rfl⟩ := Prod.mk.inj heq
      obtain ⟨k, rfl, hn, hset⟩ := WordMap.clear_some hclear
      refine ⟨hn, fun i => ?_⟩
      rw [hset]
      by_cases hik : i = k
      · simp [hik]
      · simp [hik, Ne.symm hik]
  | find =>
      obtain ⟨r, hfind, heq⟩ := Option.map_eq_some_iff.1 h
      obtain ⟨rfl, rfl⟩ := Prod.mk.inj heq
      rcases b.find_eq with ⟨hnone, -⟩ | ⟨k, b', hk, -, -, hmark, hsome⟩
      · obtain rfl := Option.some.inj (hfind.symm.trans hnone)
        refine ⟨rfl, fun i => ?_⟩
        have hne : (-1 : ℤ) ≠ i := by omega
        simp [hne]
      · obtain rfl := Option.some.inj (hfind.symm.trans hsome)
        obtain ⟨j, hj, hn, hset⟩ := WordMap.mark_some hmark
        obtain rfl := Int.ofNat.inj hj
        refine ⟨hn, fun i => ?_⟩
        rw [hset]
        by_cases hik : i = k
        · simp [hik]
        · simp [hik, Ne.symm hik]

/-- **The run lemma**: the bits set are those last marked or found. -/
theorem bits_run {b₀ : WordMap} (hnew : ∀ i < b₀.numBits, b₀.bits i = false)
    {tr : List MapEvent} (hrun : Run MapCall.step anyStep b₀ tr b) :
    b.numBits = b₀.numBits ∧ ∀ i < b₀.numBits, b.bits i = true ↔ LastSet tr i := by
  refine Run.invariant (I := fun tr b => b.numBits = b₀.numBits ∧
    ∀ i < b₀.numBits, b.bits i = true ↔ LastSet tr i) ⟨rfl, ?_⟩ ?_ hrun
  · intro i hi
    refine ⟨fun hset => ?_, ?_⟩
    · rw [hnew i hi] at hset
      exact (Bool.false_ne_true hset).elim
    · rintro ⟨before, e, after, heq, -⟩
      exact (List.append_ne_nil_of_right_ne_nil before (List.cons_ne_nil e after) heq.symm).elim
  · rintro tr b call b' e ⟨hn, hbits⟩ - hstep
    obtain ⟨hn', hbits'⟩ := MapCall.step_bits hstep
    refine ⟨hn'.trans hn, fun i hi => ?_⟩
    rw [hbits', hbits i hi]
    exact lastSet_snoc.symm

/-- Whatever else is done with the map or the disk, a map of this size that is fetched from
a file to which `b` was written back stands for the set that `b` stands for. -/
def Restores (n : ℕ) (S : ℕ → Prop) (b : WordMap) : Prop :=
  ∀ (d : Disk) (file : FileHeader) (heap : Buffer), file.Fits → b.numWords * 4 ≤ file.numBytes →
    ∃ d', b.writeBack d file heap = some d' ∧
      ∀ (d'' : Disk) (b₁ : WordMap), (∀ i < file.numBytes, fileByte d'' file i = fileByte d' file i) →
        b₁.numBits = n → ∃ b₂, b₁.fetchFrom d'' file = some b₂ ∧ IsSet n S b₂

theorem restores_of_bits (hn : b.numBits = n) (hbits : ∀ i < n, b.bits i = true ↔ S i) :
    Restores n S b := by
  intro d file heap hfits hlen
  obtain ⟨d', hwrite, -, hstored⟩ := b.writeBack_eq hfits hlen d heap
  refine ⟨d', hwrite, ?_⟩
  intro d'' b₁ hsame hn₁
  have hwords : b₁.numWords = b.numWords := by rw [b₁.rounded, b.rounded, hn₁, hn]
  obtain ⟨b₂, hfetch, hn₂, hread⟩ := b₁.fetchFrom_eq hfits (by rwa [hwords]) d''
  refine ⟨b₂, hfetch, isSet_of_bits (hn₂.trans hn₁) fun i hi => ?_⟩
  have hbyte : i / 8 < b.numWords * 4 := b.byte_lt (hn.symm ▸ hi)
  rw [hread i (hn₁.symm ▸ hi), mapOf, unpackBits, hsame _ (by omega), ← hbits i hi,
    ← hstored i (hn.symm ▸ hi), mapOf, unpackBits]

/-- **Bit maps are finite sets.** A new map of any number of bits has none set, whatever its
words held. After any calls it stands for the set of the bits last marked or found, and
so does every map of its size that is fetched from a file it was written back to. -/
theorem wordMap_run (n : ℕ) (memory : ℕ → BitVec 32) :
    ∃ b₀, WordMap.create n memory = some b₀ ∧
      ∀ (tr : List MapEvent) (b : WordMap), Run MapCall.step anyStep b₀ tr b →
        IsSet n (LastSet tr) b ∧ Restores n (LastSet tr) b := by
  obtain ⟨b₀, hcreate, rfl, hnew⟩ := WordMap.create_eq n memory
  refine ⟨b₀, hcreate, ?_⟩
  intro tr b hrun
  obtain ⟨hn, hbits⟩ := bits_run hnew hrun
  exact ⟨isSet_of_bits hn hbits, restores_of_bits hn hbits⟩

end Sets

end Nachos.Userprog
