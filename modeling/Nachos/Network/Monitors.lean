import Nachos.Network.Registration
import Nachos.Network.Replicas

/-!
# Reading back a monitor

`SetMonitor_Syscall` prints the value with `%d` and the network thread reads it
with `atoi`; on the way back the network thread prints it with its own `itoa`
and `RetrieveMonitor_Syscall` reads that with `atoi`. The monitor tables keep
the value, and `%d` and `atoi` are inverse to each other. `itoa` is not: it looks
for the number of digits among one and two only, leaves `max` as the stack has
it when neither fits, and writes characters below `'0'` for a negative value.
-/

namespace Nachos.Network

open Nachos.Userprog Nachos.Lib

/-! ## `itoa` -/

/-- `myexp`. -/
def myexp : ℕ → ℤ
  | 0 => 1
  | count + 1 => myexp count * 10

/-- What `itoa` finds in memory it has not written: the variable `max`, and the
text behind the three characters of `arr`. -/
structure Stray where
  max : ℤ
  tail : Text
deriving DecidableEq, Repr

/-- The loop that looks for the number of digits. -/
def itoaMax (stray : Stray) (val : ℤ) : ℤ :=
  if val.tdiv (myexp 1) = 0 then 0
  else if val.tdiv (myexp 2) = 0 then 1
  else stray.max

/-- The loop `for ( i=max; i>=0; i-- )`, with `n` rounds to go. -/
def itoaLoop (max : ℤ) (val : ℤ) : (n : ℕ) → (subval : ℤ) → List Char
  | 0, _ => []
  | i + 1, subval =>
      let dig := 48 + (val - subval).tdiv (myexp i)
      toByte dig :: itoaLoop max val i ((dig - 48) * myexp max.toNat)

/-- `itoa(ack,3,val)` as a text. More than three digits are written behind the
array. -/
def itoa (stray : Stray) (val : ℤ) : Option Text :=
  let max := itoaMax stray val
  let rounds := (max + 1).toNat
  if rounds ≤ 3 then
    some (cText (itoaLoop max val rounds 0 ++ List.replicate (3 - rounds) nul ++ stray.tail))
  else none

/-! ## The system calls -/

/-- `SetMonitor_Syscall(mid, mValue)` as the switch sees it. -/
def setMonitorSyscall (id mid mValue : ℤ) : Request :=
  ⟨id, .setMonitor (atoi (decimal mid)) (atoi (decimal mValue))⟩

/-- `RetrieveMonitor_Syscall(mid)` as the switch sees it. -/
def retrieveMonitorSyscall (id mid : ℤ) : Request := ⟨id, .retrieveMonitor (atoi (decimal mid))⟩

/-- What `RetrieveMonitor_Syscall` returns for a reply that carries `value`. -/
def retrieved (stray : Stray) (value : ℤ) : Option ℤ := (itoa stray value).map atoi

/-- For every monitor that exists, `v` stored by any client is what the network
thread's own client retrieves, whatever other requests were dispatched between
that do not set the monitor. -/
def ReadsBack (v : ℤ) : Prop :=
  ∀ (nt : NetThread) (t t' : NtTables) (m id : ℤ) (rs : List Request) (stray : Stray),
    (t.monitors.table.get m).isSome → (∀ r ∈ rs, ∀ w, r.op ≠ .setMonitor m w) →
    tablesAfter nt (setMonitorSyscall id m v :: rs) t = .ok t' →
    ∃ w, dispatch nt (retrieveMonitorSyscall nt.self m) t' = .ok (t', [toOwn nt (.value w)]) ∧
      retrieved stray w = some v

/-! ## The tables keep the value -/

section Kept

variable {nt : NetThread} {t t' : NtTables} {r : Request} {ps : List Packet}

/-- `CREATE_MONITOR` changes no monitor that exists. -/
theorem createMonitor_get {name : Text} {m : ℤ} {sme : NtMonitorEntry}
    (h : createMonitor nt r name t = .ok (t', ps)) (hm : t.monitors.table.get m = some sme) :
    t'.monitors.table.get m = some sme := by
  unfold createMonitor at h
  split at h
  · cases h
  · rename_i i monitors hc
    simp only [Except.ok.injEq, Prod.mk.injEq] at h
    obtain ⟨rfl, -⟩ := h
    rcases NamedTable.create_ok hc with ⟨k, -, hk⟩ | ⟨hnone, -, -, hrest⟩
    · obtain rfl := Except.ok.inj hk
      exact hm
    · have hne : m ≠ i := by
        rintro rfl
        rw [hnone] at hm
        cases hm
      rw [← hm]
      exact hrest m hne

/-- `SET_MONITOR` stores its value and changes no other monitor. -/
theorem setMonitor_get {k v m : ℤ} (h : setMonitor nt r k v t = .ok (t', ps)) :
    t'.monitors.table.get m = if m = k then some ⟨v⟩ else t.monitors.table.get m := by
  unfold setMonitor at h
  split at h
  · cases h
  · rename_i sme hsme
    simp only [Except.ok.injEq, Prod.mk.injEq] at h
    obtain ⟨rfl, -⟩ := h
    have hget := NamedTable.fetch_ok.mp hsme
    split
    · rename_i heq
      rw [heq]
      exact Table.get_store_self _ hget
    · rename_i hne
      exact Table.get_store_of_ne _ hget hne

/-- A request that does not set the monitor leaves it as it is. -/
theorem dispatch_monitor {m : ℤ} {sme : NtMonitorEntry} (h : dispatch nt r t = .ok (t', ps))
    (hr : ∀ w, r.op ≠ .setMonitor m w) (hm : t.monitors.table.get m = some sme) :
    t'.monitors.table.get m = some sme := by
  -- the cases that do not touch the monitors
  have hsame : t'.monitors = t.monitors → t'.monitors.table.get m = some sme := by
    intro heq
    rw [heq]
    exact hm
  unfold dispatch at h
  cases hop : r.op with
  | createLock name => exact hsame (createLock_ok (by simpa only [hop] using h)).2.1
  | acquire l =>
      simp only [hop, acquire, Except.ok.injEq, Prod.mk.injEq] at h
      exact hsame (by rw [h.1])
  | release l =>
      obtain ⟨sle, -, rfl, -⟩ := release_ok (by simpa only [hop] using h)
      exact hsame rfl
  | destroyLock l => exact hsame (destroyLock_ok (by simpa only [hop] using h)).2.1
  | createCV name => exact hsame (createCV_ok (by simpa only [hop] using h)).2.1
  | signal c l =>
      obtain ⟨sce, -, hcase⟩ := signal_ok (by simpa only [hop] using h)
      rcases hcase with ⟨-, rfl, -⟩ | ⟨w, ws, sle, -, -, rfl, -⟩
      · exact hsame rfl
      · exact hsame rfl
  | wait c l =>
      obtain ⟨sce, sle, -, -, rfl, -⟩ := wait_ok (by simpa only [hop] using h)
      exact hsame rfl
  | broadcast c l =>
      obtain ⟨sce, -, hcase⟩ := broadcast_ok (by simpa only [hop] using h)
      rcases hcase with ⟨-, rfl, -⟩ | ⟨sle, -, -, rfl, -⟩
      · exact hsame rfl
      · exact hsame rfl
  | destroyCV c => exact hsame (destroyCV_ok (by simpa only [hop] using h)).2.1
  | createMonitor name => exact createMonitor_get (by simpa only [hop] using h) hm
  | retrieveMonitor k =>
      obtain ⟨rfl, -⟩ := retrieveMonitor_ok (by simpa only [hop] using h)
      exact hm
  | setMonitor k v =>
      have hne : m ≠ k := by
        rintro rfl
        exact hr v hop
      rw [setMonitor_get (by simpa only [hop] using h), if_neg hne]
      exact hm
  | startSimulation =>
      simp only [hop, Except.ok.injEq, Prod.mk.injEq] at h
      exact hsame (by rw [h.1])

end Kept

/-- A sequence of such requests does, too. -/
theorem tablesAfter_monitor {nt : NetThread} {m : ℤ} {sme : NtMonitorEntry} :
    ∀ (rs : List Request) {t t' : NtTables}, tablesAfter nt rs t = .ok t' →
      (∀ r ∈ rs, ∀ w, r.op ≠ .setMonitor m w) → t.monitors.table.get m = some sme →
      t'.monitors.table.get m = some sme
  | [], t, t', h, _, hm => by
      obtain rfl := Except.ok.inj h
      exact hm
  | r :: rs, t, t', h, hrs, hm => by
      rw [tablesAfter] at h
      split at h
      · cases h
      · rename_i t₁ ps hd
        refine tablesAfter_monitor rs h (fun x hx => hrs x (List.mem_cons_of_mem _ hx)) ?_
        exact dispatch_monitor hd (hrs r List.mem_cons_self) hm

/-- What was stored is what the reply carries. -/
theorem retrieve_of_set {nt : NetThread} {t t' : NtTables} {m id v : ℤ} {rs : List Request}
    (hrs : ∀ r ∈ rs, ∀ w, r.op ≠ .setMonitor m w)
    (h : tablesAfter nt (setMonitorSyscall id m v :: rs) t = .ok t') :
    dispatch nt (retrieveMonitorSyscall nt.self m) t' = .ok (t', [toOwn nt (.value v)]) := by
  rw [tablesAfter] at h
  split at h
  · cases h
  · rename_i t₁ ps hd
    simp only [setMonitorSyscall, dispatch, atoi_decimal] at hd
    have hset : t₁.monitors.table.get m = some ⟨v⟩ := by
      rw [setMonitor_get hd, if_pos rfl]
    have hget := tablesAfter_monitor rs h hrs hset
    simp only [retrieveMonitorSyscall, dispatch, atoi_decimal, retrieveMonitor,
      fetch_of_get hget, replyIf, if_true]

/-! ## Which values survive `itoa` -/

/-- The text of a value with at most two digits. -/
def smallText (val : ℤ) : Text :=
  if val.tdiv 10 = 0 then [toByte (48 + val)]
  else [toByte (48 + val.tdiv 10), toByte (48 + (val - val.tdiv 10 * 10))]

/-- With at most two digits `max` is assigned and nothing stray is read. -/
theorem itoa_small (stray : Stray) {val : ℤ} (h : val.natAbs < 100)
    (hnul : nul ∉ smallText val) : itoa stray val = some (smallText val) := by
  by_cases hten : val.tdiv 10 = 0
  · have hmax : itoaMax stray val = 0 := if_pos hten
    rw [smallText, if_pos hten] at hnul ⊢
    simp only [itoa, hmax]
    show some (cText ([toByte (48 + (val - 0).tdiv 1)] ++ nul :: nul :: stray.tail)) = _
    rw [Int.sub_zero, Int.tdiv_one, cText_append_nul hnul]
  · have hhundred : val.tdiv 100 = 0 := by
      rw [← Int.natAbs_eq_zero, Int.natAbs_tdiv]
      exact Nat.div_eq_of_lt h
    have hmax : itoaMax stray val = 1 := by
      rw [itoaMax, if_neg (show ¬ val.tdiv (myexp 1) = 0 from hten)]
      exact if_pos hhundred
    rw [smallText, if_neg hten] at hnul ⊢
    simp only [itoa, hmax]
    show some (cText ([toByte (48 + (val - 0).tdiv 10),
      toByte (48 + (val - (48 + (val - 0).tdiv 10 - 48) * 10).tdiv 1)] ++
      nul :: stray.tail)) = _
    rw [Int.sub_zero, Int.tdiv_one, show 48 + val.tdiv 10 - 48 = val.tdiv 10 by omega,
      cText_append_nul hnul]

/-- A negative value is printed without a digit that `atoi` could read. -/
theorem smallText_values : ∀ n : ℕ, n < 199 → nul ∉ smallText ((n : ℤ) - 99) ∧
    atoi (smallText ((n : ℤ) - 99)) = if 0 ≤ (n : ℤ) - 99 then (n : ℤ) - 99 else 0 := by
  decide +kernel

theorem retrieved_small (stray : Stray) {val : ℤ} (h : val.natAbs < 100) :
    retrieved stray val = some (if 0 ≤ val then val else 0) := by
  have hval : ((val + 99).toNat : ℤ) - 99 = val := by omega
  obtain ⟨hnul, hatoi⟩ := smallText_values (val + 99).toNat (by omega)
  rw [hval] at hnul hatoi
  rw [retrieved, itoa_small stray h hnul, Option.map_some, hatoi]

/-- With three digits or more everything depends on the stack: if it holds `-1`,
nothing is written. -/
theorem retrieved_large {val : ℤ} (h : 100 ≤ val.natAbs) :
    retrieved ⟨-1, []⟩ val = some 0 := by
  have hne : ∀ d : ℤ, 0 < d.natAbs → d.natAbs ≤ 100 → val.tdiv d ≠ 0 := by
    intro d hpos hd hzero
    rw [← Int.natAbs_eq_zero, Int.natAbs_tdiv] at hzero
    have := Nat.div_pos (le_trans hd h) hpos
    exact absurd hzero (Nat.pos_iff_ne_zero.mp this)
  have hmax : itoaMax ⟨-1, []⟩ val = -1 := by
    rw [itoaMax, if_neg (hne (myexp 1) (by decide) (by decide)),
      if_neg (hne (myexp 2) (by decide) (by decide))]
  simp only [retrieved, itoa, hmax]
  rfl

theorem retrieved_iff (val : ℤ) :
    (∀ stray, retrieved stray val = some val) ↔ 0 ≤ val ∧ val ≤ 99 := by
  by_cases h : val.natAbs < 100
  · simp only [retrieved_small _ h, Option.some.injEq]
    constructor
    · intro heq
      have := heq ⟨0, []⟩
      split at this <;> omega
    · rintro ⟨hpos, -⟩ _
      rw [if_pos hpos]
  · constructor
    · intro heq
      have hzero : some 0 = some val := (retrieved_large (by omega)).symm.trans (heq _)
      have := Option.some.inj hzero
      omega
    · rintro ⟨hpos, hle⟩
      omega

/-- Tables with one monitor, at index 0. -/
def oneMonitor : NtTables :=
  { NtTables.initial with monitors := NtTables.initial.monitors.store 0 ⟨0⟩ }

/-- Reading back needs `itoa` and `atoi` to be inverse at the value. -/
theorem ReadsBack.retrieved {v : ℤ} (h : ReadsBack v) (stray : Stray) :
    Network.retrieved stray v = some v := by
  have hset : tablesAfter nt101 [setMonitorSyscall 101 0 v] oneMonitor =
      .ok { oneMonitor with monitors := oneMonitor.monitors.store 0 ⟨v⟩ } := by
    simp only [tablesAfter, setMonitorSyscall, dispatch, atoi_decimal]
    rfl
  obtain ⟨w, hw, hv⟩ := h nt101 oneMonitor _ 0 101 [] stray rfl (by simp) hset
  rw [retrieve_of_set (by simp) hset] at hw
  have hvalue : v = w := by
    simpa only [Except.ok.injEq, Prod.mk.injEq, true_and, List.cons.injEq, toOwn, and_true,
      Packet.mk.injEq, Ack.value.injEq] using hw
  rw [← hvalue] at hv
  exact hv

/-- **Read-back of monitors, exactly.** A value that is stored in a monitor is
retrieved, in every state of the tables and after every sequence of requests
that do not set the monitor, if and only if it is between 0 and 99. -/
theorem monitor_read_back_iff (v : ℤ) : ReadsBack v ↔ 0 ≤ v ∧ v ≤ 99 := by
  rw [← retrieved_iff]
  constructor
  · exact ReadsBack.retrieved
  · intro h nt t t' m id rs stray _ hrs hafter
    exact ⟨v, retrieve_of_set hrs hafter, h stray⟩

/-- A negative value comes back as zero. -/
theorem monitor_not_read_back :
    ¬ ∀ v : ℤ, -2 ^ 31 ≤ v → v < 2 ^ 31 → ReadsBack v := by
  intro hall
  have hback := (hall (-5) (by decide) (by decide)).retrieved ⟨0, []⟩
  rw [retrieved_small _ (by decide)] at hback
  revert hback
  decide

end Nachos.Network
