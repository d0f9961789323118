import Nachos.Lib.CString
import Nachos.Network.Buffer

/-!
# The registration packet

When every user program has registered, `MailTest` sends each network thread
one packet that lists the machines and how many user programs run on each. The
packet mixes raw bytes with a comma: the number of machines, `','`, and three
bytes for each machine (its id, the high and the low byte of its count).
`network_thread` takes it apart with `strtok` and pointer arithmetic and fills
`idList` from it.

The high byte is computed as `(byte)tt>>8`, which shifts what the cast has left
and is always zero. `strtok` looks at the first id as at any other character.
-/

namespace Nachos.Network

open Nachos.Lib

/-! ## Bytes -/

/-- `(byte)u`. -/
def toByte (u : ℤ) : Char := Char.ofNat (u.emod 256).toNat

theorem toNat_ofNat_byte {n : ℕ} (h : n < 256) : (Char.ofNat n).toNat = n := by
  have hvalid : n.isValidChar := .inl (by omega)
  rw [Char.ofNat, dif_pos hvalid]
  rfl

theorem toNat_toByte (u : ℤ) : ((toByte u).toNat : ℤ) = u % 256 := by
  have hnonneg : 0 ≤ u % 256 := Int.emod_nonneg u (by decide)
  have hlt : u % 256 < 256 := Int.emod_lt_of_pos u (by decide)
  have hn : (u.emod 256).toNat < 256 := by
    show (u % 256).toNat < 256
    omega
  rw [toByte, toNat_ofNat_byte hn]
  exact Int.toNat_of_nonneg hnonneg

/-- A byte determines the number it was made from, below 256. -/
theorem toByte_natCast_toNat {n : ℕ} (h : n < 256) : (toByte n).toNat = n := by
  have := toNat_toByte n
  omega

/-- `(byte)tt>>8`: the cast binds tighter than the shift. -/
def highByte (tt : ℤ) : Char := toByte ((toByte tt).toNat >>> 8 : ℕ)

theorem highByte_eq_nul (tt : ℤ) : highByte tt = nul := by
  have hlt : (toByte tt).toNat < 256 := by
    have := toNat_toByte tt
    omega
  rw [highByte, Nat.shiftRight_eq_div_pow, Nat.div_eq_of_lt hlt]
  rfl

/-! ## The packet -/

/-- The three bytes of one machine. -/
def machineBytes (machineID tt : ℤ) : List Char := [toByte machineID, highByte tt, toByte tt]

/-- The loop that fills `temp`, up to the first empty entry of `ThreadTable`. -/
def fillTemp (machineID ThreadTable : ℕ → ℤ) : (left i : ℕ) → List Char
  | 0, _ => []
  | left + 1, i =>
      if ThreadTable i = 0 then []
      else machineBytes (machineID i) (ThreadTable i) ++ fillTemp machineID ThreadTable left (i + 1)

/-- `char *data`: forty zero bytes, then the number of machines, a comma and the
first `mIDCounter*3` bytes of `temp`, which is zero behind the rows. -/
def packetData (mIDCounter : ℕ) (machineID ThreadTable : ℕ → ℤ) : Memory := fun k =>
  if k = 0 then toByte mIDCounter
  else if k = 1 then ','
  else if k < 2 + mIDCounter * 3 then (fillTemp machineID ThreadTable 10 0).getD (k - 2) nul
  else nul

/-- `outMailHdr.length`. -/
def packetLength (mIDCounter : ℕ) : ℕ := 3 + mIDCounter * 3

/-- `Receive`: the mail's `length` bytes are copied over what the buffer held. -/
def receiveInto (length : ℕ) (data old : Memory) : Memory := fun k =>
  if k < length then data k else old k

/-! ## Taking it apart -/

/-- The bytes `_info[counter]` of one round: the id, and `_infol<<8|_infor`. -/
def decodeMachine (b : Memory) (p : ℕ) : ℕ × ℕ :=
  ((b p).toNat, (b (p + 1)).toNat <<< 8 ||| (b (p + 2)).toNat)

/-- The loop over the machines. -/
def decodeMachines (b : Memory) : (tMachine p : ℕ) → List (ℕ × ℕ)
  | 0, _ => []
  | tMachine + 1, p => decodeMachine b p :: decodeMachines b tMachine (p + 3)

/-- `idList` as the inner loop appends to it. -/
def appendIds (mid sum : ℕ) : List ℕ := (List.range sum).map fun k => mid * 100 + (2 * (k + 1) - 1)

/-- What `network_thread` knows after the registration. -/
structure Decoded where
  tMachine : ℕ
  machines : List (ℕ × ℕ)
  idList : List ℕ
deriving DecidableEq, Repr

/-- From the receive to the end of the loop that fills `idList`; following a
null pointer ends it. -/
def decodePacket (buffer : Memory) : Option Decoded :=
  match strtok bufferSize ',' buffer 0 with
  | (none, _, _) => none
  | (some b, buffer, save) =>
      let tMachine := (buffer b).toNat
      match strtok bufferSize ',' buffer save with
      | (none, _, _) => if tMachine = 0 then some ⟨0, [], []⟩ else none
      | (some info, buffer, _) =>
          let machines := decodeMachines buffer tMachine info
          some ⟨tMachine, machines, machines.flatMap fun m => appendIds m.1 m.2⟩

/-! ## Tables -/

/-- A registration table: one to ten machines, pairwise distinct, each with its
id and the number of its user programs. -/
structure RegTable where
  machines : List (ℕ × ℕ)
  nonempty : machines ≠ []
  length_le : machines.length ≤ 10
  distinct : (machines.map Prod.fst).Nodup
  ids : ∀ m ∈ machines, m.1 < 256
  counts : ∀ m ∈ machines, 1 ≤ m.2 ∧ m.2 < 65536

/-- The arrays of `MailTest` that hold a table: `-1` and `0` behind the last
machine. -/
def RegTable.machineID (t : RegTable) : ℕ → ℤ := fun i =>
  (t.machines[i]?).elim (-1) fun m => m.1

@[inherit_doc RegTable.machineID]
def RegTable.ThreadTable (t : RegTable) : ℕ → ℤ := fun i =>
  (t.machines[i]?).elim 0 fun m => m.2

/-- The buffer of a network thread that has received the packet of `t`. -/
def RegTable.received (t : RegTable) (old : Memory) : Memory :=
  receiveInto (packetLength t.machines.length)
    (packetData t.machines.length t.machineID t.ThreadTable) old

/-- What a network thread is meant to know: the table, and the ids
`mid*100 + 2k-1` for `1 ≤ k ≤ count`. -/
def RegTable.meaning (t : RegTable) : Decoded :=
  ⟨t.machines.length, t.machines,
    t.machines.flatMap fun m => (List.range' 1 m.2).map fun k => m.1 * 100 + (2 * k - 1)⟩

/-- Whatever the buffer held before, the packet of `t` is decoded to `t`. -/
def RegTable.RoundTrip (t : RegTable) : Prop :=
  ∀ old, decodePacket (t.received old) = some t.meaning

/-- The ids of a machine, counted from 0 in the code and from 1 in the meaning. -/
theorem appendIds_eq (mid sum : ℕ) :
    appendIds mid sum = (List.range' 1 sum).map fun k => mid * 100 + (2 * k - 1) := by
  rw [appendIds, List.range'_eq_map_range, List.map_map]
  refine List.map_congr_left ?_
  intro k _
  simp only [Function.comp_apply]
  omega

/-! ## What the packet holds -/

namespace RegTable

variable (t : RegTable)

/-- The rows of the packet are those of the machines. The induction is on the
entries of the arrays that are still to come. -/
theorem fillTemp_drop : ∀ (left i : ℕ), t.machines.length ≤ i + left →
    fillTemp t.machineID t.ThreadTable left i =
      (t.machines.drop i).flatMap fun m => machineBytes m.1 m.2
  | 0, i, h => by
      have hnil : t.machines.drop i = [] := List.drop_eq_nil_of_le h
      rw [hnil]
      rfl
  | left + 1, i, h => by
      rw [fillTemp]
      by_cases hi : i < t.machines.length
      · have hget : t.machines[i]? = some t.machines[i] := List.getElem?_eq_getElem hi
        have hpos := (t.counts _ (List.getElem_mem hi)).1
        have hcount : t.ThreadTable i = t.machines[i].2 := by simp [ThreadTable, hget]
        have hid : t.machineID i = t.machines[i].1 := by simp [machineID, hget]
        rw [if_neg (by rw [hcount]; omega), hcount, hid, fillTemp_drop left (i + 1) (by omega),
          List.drop_eq_getElem_cons hi, List.flatMap_cons]
      · have hget : t.machines[i]? = none := List.getElem?_eq_none (by omega)
        rw [if_pos (by simp [ThreadTable, hget]), List.drop_eq_nil_of_le (by omega)]
        rfl

/-- The rows of the packet, one after the other. -/
def rows (machines : List (ℕ × ℕ)) : List Char :=
  machines.flatMap fun m => machineBytes m.1 m.2

theorem length_rows (machines : List (ℕ × ℕ)) : (rows machines).length = machines.length * 3 := by
  induction machines with
  | nil => rfl
  | cons m machines ih =>
      rw [rows, List.flatMap_cons, List.length_append, ← rows, ih, List.length_cons, machineBytes]
      simp only [List.length_cons, List.length_nil]
      omega

theorem received_zero (old : Memory) : t.received old 0 = toByte t.machines.length := by
  simp [received, receiveInto, packetData, packetLength]

theorem received_one (old : Memory) : t.received old 1 = ',' := by
  rw [received, receiveInto, if_pos (by rw [packetLength]; omega)]
  rfl

theorem received_row (old : Memory) {k : ℕ} (h : k < (rows t.machines).length) :
    t.received old (2 + k) = (rows t.machines)[k] := by
  have hlen := length_rows t.machines
  have hfill : fillTemp t.machineID t.ThreadTable 10 0 = rows t.machines := by
    rw [t.fillTemp_drop 10 0 (by have := t.length_le; omega), List.drop_zero, rows]
  rw [received, receiveInto, if_pos (by rw [packetLength]; omega), packetData,
    if_neg (by omega), if_neg (by omega), if_pos (by omega), hfill, Nat.add_sub_cancel_left,
    List.getD_eq_getElem?_getD, List.getElem?_eq_getElem h, Option.getD_some]

/-- The first machine of the table. -/
def first : ℕ × ℕ := t.machines.head t.nonempty

theorem machines_eq : t.machines = t.first :: t.machines.tail :=
  (List.cons_head_tail t.nonempty).symm

theorem first_lt : t.first.1 < 256 := t.ids _ (List.head_mem t.nonempty)

/-- The first id, and the zero after it. -/
theorem received_first (old : Memory) :
    t.received old 2 = toByte t.first.1 ∧ t.received old 3 = nul := by
  have hrows : rows t.machines = machineBytes t.first.1 t.first.2 ++ rows t.machines.tail := by
    rw [t.machines_eq]
    rfl
  have hlen : 2 < (rows t.machines).length := by
    rw [hrows, List.length_append, machineBytes]
    simp only [List.length_cons, List.length_nil]
    omega
  constructor
  · rw [t.received_row old (k := 0) (by omega)]
    simp [hrows, machineBytes]
  · rw [t.received_row old (k := 1) (by omega)]
    simp [hrows, machineBytes, highByte_eq_nul]

end RegTable

/-! ## What the decoder makes of it -/

/-- The rows are read back with the counts cut to their low bytes. -/
theorem decodeMachines_rows : ∀ (machines : List (ℕ × ℕ)) {b : Memory} {p : ℕ},
    (∀ k (h : k < (RegTable.rows machines).length), b (p + k) = (RegTable.rows machines)[k]) →
    (∀ m ∈ machines, m.1 < 256) →
    decodeMachines b machines.length p = machines.map fun m => (m.1, m.2 % 256)
  | [], _, _, _, _ => rfl
  | m :: machines, b, p, hb, hids => by
      have hrows : RegTable.rows (m :: machines) =
          toByte m.1 :: highByte m.2 :: toByte m.2 :: RegTable.rows machines := rfl
      have hb' : ∀ k (h : k < (RegTable.rows machines).length + 3),
          b (p + k) = (toByte m.1 :: highByte m.2 :: toByte m.2 :: RegTable.rows machines)[k] := by
        intro k h
        exact hb k (by rw [hrows]; exact h)
      have hrest : decodeMachines b machines.length (p + 3) =
          machines.map fun m => (m.1, m.2 % 256) := by
        refine decodeMachines_rows machines ?_ fun m hm => hids m (List.mem_cons_of_mem _ hm)
        intro k h
        rw [Nat.add_assoc, Nat.add_comm 3 k]
        exact hb' (k + 3) (by omega)
      have h0 : b p = toByte m.1 := hb' 0 (by omega)
      have h1 : b (p + 1) = nul := (hb' 1 (by omega)).trans (highByte_eq_nul m.2)
      have h2 : b (p + 2) = toByte m.2 := hb' 2 (by omega)
      have hlow : (toByte m.2).toNat = m.2 % 256 := by
        have := toNat_toByte m.2
        omega
      rw [List.length_cons, decodeMachines, hrest, List.map_cons, decodeMachine, h0, h1, h2,
        toByte_natCast_toNat (hids m List.mem_cons_self), hlow,
        show nul.toNat = 0 from rfl, Nat.zero_shiftLeft, Nat.zero_or]

namespace RegTable

variable (t : RegTable)

/-- What the decoder finds if it does not follow a null pointer. -/
def truncated : Decoded :=
  ⟨t.machines.length, t.machines.map fun m => (m.1, m.2 % 256),
    t.machines.flatMap fun m => appendIds m.1 (m.2 % 256)⟩

theorem length_pos : 1 ≤ t.machines.length := List.length_pos_of_ne_nil t.nonempty

theorem toNat_count : (toByte t.machines.length).toNat = t.machines.length := by
  have hlen := t.length_le
  exact toByte_natCast_toNat (by omega)

theorem toNat_first : (toByte t.first.1).toNat = t.first.1 := toByte_natCast_toNat t.first_lt

/-- The first call cuts off the number of machines. -/
theorem strtok_count (old : Memory) :
    strtok bufferSize ',' (t.received old) 0 =
      (some 0, Function.update (t.received old) 1 nul, 2) := by
  obtain ⟨h2, h3⟩ := t.received_first old
  have hcount := t.toNat_count
  have hpos := t.length_pos
  have hle := t.length_le
  -- the text ends with the zero behind the first id
  have hspells : Spells (t.received old) 0
      (List.replicate 0 ',' ++ ([toByte t.machines.length] ++ ',' :: [toByte t.first.1])) :=
    ⟨t.received_zero old, t.received_one old, h2, h3⟩
  refine strtok_field hspells (by simp) ?_ ?_ comma_ne_nul (by simp [bufferSize])
  · rw [List.mem_singleton]
    intro heq
    rw [← heq, show (',').toNat = 44 from rfl] at hcount
    omega
  · rw [List.mem_singleton]
    intro heq
    rw [← heq, show nul.toNat = 0 from rfl] at hcount
    omega

/-- What the second call works on. -/
theorem received_cut (old : Memory) :
    Spells (Function.update (t.received old) 1 nul) 2 [toByte t.first.1] := by
  obtain ⟨h2, h3⟩ := t.received_first old
  refine ⟨?_, ?_⟩
  · rw [Function.update_of_ne (by decide), h2]
  · show Function.update (t.received old) 1 nul 3 = nul
    rw [Function.update_of_ne (by decide), h3]

/-- The second call finds nothing when the first id is the terminator or the
comma. -/
theorem strtok_info_none (old : Memory) (h : t.first.1 = 0 ∨ t.first.1 = 44) :
    (strtok bufferSize ',' (Function.update (t.received old) 1 nul) 2).1 = none := by
  have hcut := t.received_cut old
  rcases h with h | h
  · rw [h, show toByte (0 : ℕ) = nul from rfl] at hcut
    rw [strtok_end (k := 0) hcut.1 comma_ne_nul (by decide)]
  · rw [h, show toByte (44 : ℕ) = ',' from rfl] at hcut
    rw [strtok_end (k := 1) hcut comma_ne_nul (by decide)]

/-- Otherwise it returns a pointer to the first id, and the zero behind the id
keeps it from cutting anything. -/
theorem strtok_info (old : Memory) (h : ¬ (t.first.1 = 0 ∨ t.first.1 = 44)) :
    strtok bufferSize ',' (Function.update (t.received old) 1 nul) 2 =
      (some 2, Function.update (t.received old) 1 nul, 3) := by
  have hid := t.toNat_first
  refine strtok_last (k := 0) (t.received_cut old) (by simp) ?_ ?_ (by simp [bufferSize])
  · rw [List.mem_singleton]
    intro heq
    rw [← heq, show (',').toNat = 44 from rfl] at hid
    omega
  · rw [List.mem_singleton]
    intro heq
    rw [← heq, show nul.toNat = 0 from rfl] at hid
    omega

theorem decodePacket_received (old : Memory) :
    decodePacket (t.received old) =
      if t.first.1 = 0 ∨ t.first.1 = 44 then none else some t.truncated := by
  have hcount : (Function.update (t.received old) 1 nul 0).toNat = t.machines.length := by
    rw [Function.update_of_ne (by decide), t.received_zero, t.toNat_count]
  simp only [decodePacket, t.strtok_count, hcount]
  by_cases h : t.first.1 = 0 ∨ t.first.1 = 44
  · have hnone := t.strtok_info_none old h
    have hne : t.machines.length ≠ 0 := by
      have := t.length_pos
      omega
    rw [if_pos h]
    split
    · rw [if_neg hne]
    · rename_i hsome
      rw [hsome] at hnone
      cases hnone
  · have hrows : decodeMachines (Function.update (t.received old) 1 nul) t.machines.length 2 =
        t.machines.map fun m => (m.1, m.2 % 256) := by
      refine decodeMachines_rows t.machines ?_ t.ids
      intro k hk
      rw [Function.update_of_ne (by omega)]
      exact t.received_row old hk
    rw [if_neg h, t.strtok_info old h]
    simp only [hrows, truncated, List.flatMap_map]

/-- The counts survive the cut if and only if they fit in a byte. -/
theorem truncated_eq_meaning_iff : t.truncated = t.meaning ↔ ∀ m ∈ t.machines, m.2 ≤ 255 := by
  constructor
  · intro h m hm
    have hmap : (t.machines.map fun m => (m.1, m.2 % 256)) = t.machines.map id := by
      rw [List.map_id]
      exact congrArg Decoded.machines h
    have hpair := List.map_inj_left.mp hmap m hm
    have hmod : m.2 % 256 = m.2 := congrArg Prod.snd hpair
    omega
  · intro h
    have hmap : (t.machines.map fun m => (m.1, m.2 % 256)) = t.machines := by
      refine (List.map_congr_left ?_).trans (List.map_id t.machines)
      intro m hm
      have := h m hm
      rw [Nat.mod_eq_of_lt (by omega)]
      rfl
    have hids : (t.machines.flatMap fun m => appendIds m.1 (m.2 % 256)) =
        t.machines.flatMap fun m => (List.range' 1 m.2).map fun k => m.1 * 100 + (2 * k - 1) := by
      refine List.flatMap_congr ?_
      intro m hm
      have := h m hm
      rw [Nat.mod_eq_of_lt (by omega), appendIds_eq]
    rw [truncated, meaning, hmap, hids]

end RegTable

/-- **The registration packet, exactly.** For every table of one to ten machines
with distinct ids below 256 and counts from 1 to 65535, a network thread decodes
the packet to the table and builds its `idList`, if and only if the id of the
first machine is neither the terminator nor the comma and no count exceeds 255. -/
theorem registration_round_trip_iff (t : RegTable) :
    t.RoundTrip ↔ (t.first.1 ≠ 0 ∧ t.first.1 ≠ 44) ∧ ∀ m ∈ t.machines, m.2 ≤ 255 := by
  rw [← t.truncated_eq_meaning_iff, ← not_or]
  simp only [RegTable.RoundTrip, t.decodePacket_received]
  constructor
  · intro h
    have hold := h fun _ => nul
    split at hold
    · cases hold
    · rename_i hid
      exact ⟨hid, Option.some.inj hold⟩
  · rintro ⟨hid, heq⟩ old
    rw [if_neg hid, heq]

/-- One machine with the id of the comma and one user program. -/
def commaTable : RegTable :=
  ⟨[(44, 1)], by decide, by decide, by decide, by decide, by decide⟩

/-- Its network thread follows a null pointer. -/
theorem registration_packet_lost : ¬ ∀ t : RegTable, t.RoundTrip := by
  intro hall
  have hold := hall commaTable fun _ => nul
  rw [commaTable.decodePacket_received, if_pos (by decide)] at hold
  cases hold

end Nachos.Network
