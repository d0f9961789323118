import Nachos.Lib.CInt
import Nachos.VM.Copy

/-!
# Buffers of the kernel

Eight system calls copy a name or a block of bytes into a buffer that they
allocate. What matters here of a system call is the size of its buffer and the
indexes it writes: those of `copyin`, of `scanf` or of the file, and the `NUL`
behind a name.
-/

namespace Nachos.VM

open Nachos.Userprog Nachos.Lib

/-! ## The code -/

def consoleInput : ℤ := 0

def consoleOutput : ℤ := 1

/-- `new char[n]`, with `limit` bytes to be had. As a size, a negative number is
beyond every limit. -/
def newChars (limit : ℕ) (n : ℤ) : Option ℕ := if 0 ≤ n ∧ n ≤ limit then some n.toNat else none

/-- An `int` plus one. -/
def intSucc (n : ℤ) : ℤ := signed (word (n + 1))

/-- A buffer and the indexes written so far. -/
structure KernelBuffer where
  size : ℕ
  written : List ℤ

/-- The first `n` indexes. -/
def indexes (n : ℕ) : List ℤ := (List.range n).map Nat.cast

/-- What a system call finds: what is typed in, and the bytes behind the position
of the file it names, if that file is open. -/
structure Sources where
  console : List UInt8
  file : Option (List UInt8)

/-- `isspace`. -/
def isSpace (b : UInt8) : Bool := b == 32 || 9 ≤ b && b ≤ 13

/-- What `scanf("%s", …)` takes from the console. -/
def scanned (console : List UInt8) : List UInt8 :=
  (console.dropWhile isSpace).takeWhile fun b => !isSpace b

/-- The machine, the system call and how far it has got. -/
structure CallState where
  vm : Vm
  pid : ℤ
  limit : ℕ
  calls : ℕ
  rand : ℕ → ℕ

def CallState.copyin (c : CallState) (vaddr : ℕ) (len : ℤ) : Copying :=
  VM.copyin c.pid len c.calls c.rand c.vm vaddr []

/-- A buffer of `size` bytes for a name of `len` bytes. `copyin` returns `-1` for
`len = -1` only; otherwise the name is terminated. -/
def nameBuffer (c : CallState) (size : ℤ) (vaddr : ℕ) (len : ℤ) : Option KernelBuffer :=
  (newChars c.limit size).map fun size =>
    match c.copyin vaddr len with
    | .returned _ rv buf => ⟨size, indexes buf.length ++ if rv = -1 then [] else [len]⟩
    | .running _ _ buf => ⟨size, indexes buf.length⟩
    | .halted buf => ⟨size, indexes buf.length⟩

def createSyscall (c : CallState) (vaddr : ℕ) (len : ℤ) : Option KernelBuffer :=
  nameBuffer c (intSucc len) vaddr len

def openSyscall (c : CallState) (vaddr : ℕ) (len : ℤ) : Option KernelBuffer :=
  nameBuffer c (intSucc len) vaddr len

def createLockSyscall (c : CallState) (vaddr : ℕ) (len : ℤ) : Option KernelBuffer :=
  nameBuffer c len vaddr len

def createConditionSyscall (c : CallState) (vaddr : ℕ) (len : ℤ) : Option KernelBuffer :=
  nameBuffer c len vaddr len

def createMonitorSyscall (c : CallState) (vaddr : ℕ) (len : ℤ) : Option KernelBuffer :=
  nameBuffer c len vaddr len

/-- The `NUL` goes behind what `copyin` has returned. -/
def execNameSyscall (c : CallState) (vaddr : ℕ) : Option KernelBuffer :=
  let maxlen := 20
  (newChars c.limit maxlen).map fun size =>
    match c.copyin vaddr maxlen with
    | .returned _ len buf => ⟨size, indexes buf.length ++ if len = -1 then [] else [len]⟩
    | .running _ _ buf => ⟨size, indexes buf.length⟩
    | .halted buf => ⟨size, indexes buf.length⟩

def writeSyscall (c : CallState) (vaddr : ℕ) (len id : ℤ) : Option KernelBuffer :=
  if id = consoleInput then none
  else (newChars c.limit len).map fun size => ⟨size, indexes (c.copyin vaddr len).buf.length⟩

/-- From the console comes a word, with a `NUL` behind it, from a file no more than
`len` bytes. -/
def readSyscall (c : CallState) (src : Sources) (len id : ℤ) : Option KernelBuffer :=
  if id = consoleOutput then none
  else
    (newChars c.limit len).map fun size =>
      if id = consoleInput then
        ⟨size, if scanned src.console = [] then [] else indexes ((scanned src.console).length + 1)⟩
      else
        match src.file with
        | some rest => ⟨size, indexes (rest.take len.toNat).length⟩
        | none => ⟨size, []⟩

/-- The system calls, with what they find in the registers. -/
inductive BufferCall where
  | create (vaddr : ℕ) (len : ℤ)
  | open (vaddr : ℕ) (len : ℤ)
  | write (vaddr : ℕ) (len id : ℤ)
  | read (vaddr : ℕ) (len id : ℤ)
  | createLock (vaddr : ℕ) (len : ℤ)
  | createCondition (vaddr : ℕ) (len : ℤ)
  | createMonitor (vaddr : ℕ) (len : ℤ)
  | exec (vaddr : ℕ)

namespace BufferCall

/-- The buffer of a call, if it has one. -/
def buffer (c : CallState) (src : Sources) : BufferCall → Option KernelBuffer
  | create vaddr len => createSyscall c vaddr len
  | .open vaddr len => openSyscall c vaddr len
  | write vaddr len id => writeSyscall c vaddr len id
  | read _ len id => readSyscall c src len id
  | createLock vaddr len => createLockSyscall c vaddr len
  | createCondition vaddr len => createConditionSyscall c vaddr len
  | createMonitor vaddr len => createMonitorSyscall c vaddr len
  | exec vaddr => execNameSyscall c vaddr

/-- The registers that name the region. -/
def vaddr : BufferCall → ℕ
  | create vaddr _ | .open vaddr _ | write vaddr _ _ | read vaddr _ _ | createLock vaddr _
  | createCondition vaddr _ | createMonitor vaddr _ | exec vaddr => vaddr

def len : BufferCall → ℤ
  | create _ len | .open _ len | write _ len _ | read _ len _ | createLock _ len
  | createCondition _ len | createMonitor _ len => len
  | exec _ => 20

end BufferCall

/-! ## Bounds -/

/-- Every index written is below the size. -/
def KernelBuffer.InBounds (b : KernelBuffer) : Prop := ∀ i ∈ b.written, 0 ≤ i ∧ i < b.size

/-- The calls that stay in their buffers. A name without room for its `NUL` must not be
copied to its end: nothing is allocated, or a byte is missing. -/
def BufferCall.Safe (space : AddrSpace) (limit : ℕ) (src : Sources) : BufferCall → Prop
  | create _ _ | .open _ _ | write _ _ _ => True
  | read _ len id =>
      id = consoleInput → newChars limit len = none ∨ scanned src.console = [] ∨
        (scanned src.console).length < len
  | createLock vaddr len | createCondition vaddr len | createMonitor vaddr len =>
      newChars limit len = none ∨ ∃ i < len.toNat, ¬ space.Contains (regionAddr vaddr i)
  | exec vaddr =>
      newChars limit 20 = none ∨ ∃ i < 20, ¬ space.Contains (regionAddr vaddr i)

/-- However far the call gets, its buffer is in bounds. -/
def BufferCall.StaysInBounds (s : Vm) (pid : ℤ) (limit : ℕ) (rand : ℕ → ℕ) (src : Sources)
    (call : BufferCall) : Prop :=
  ∀ calls b, call.buffer ⟨s, pid, limit, calls, rand⟩ src = some b → b.InBounds

section Indexes

variable {limit size n : ℕ} {m i : ℤ} {b : KernelBuffer}

theorem newChars_some (h : newChars limit m = some size) : 0 ≤ m ∧ (size : ℤ) = m := by
  unfold newChars at h
  split at h
  · obtain rfl := Option.some.inj h
    omega
  · cases h

theorem mem_indexes : i ∈ indexes n ↔ 0 ≤ i ∧ i < n := by
  unfold indexes
  rw [List.mem_map]
  constructor
  · rintro ⟨k, hk, rfl⟩
    have := List.mem_range.mp hk
    omega
  · intro hi
    exact ⟨i.toNat, List.mem_range.mpr (by omega), by omega⟩

theorem inBounds_indexes (hb : b.written = indexes n) (h : n ≤ b.size) : b.InBounds := by
  intro i hi
  rw [hb] at hi
  have := mem_indexes.mp hi
  omega

/-- With one index more, that one has to be below the size too. -/
theorem inBounds_append (hb : b.written = indexes n ++ [m]) (h : n ≤ b.size) (hm : 0 ≤ m)
    (hlt : m < b.size) : b.InBounds := by
  intro i hi
  rw [hb] at hi
  rcases List.mem_append.mp hi with hi | hi
  · have := mem_indexes.mp hi
    omega
  · rw [List.mem_singleton.mp hi]
    exact ⟨hm, hlt⟩

theorem intSucc_cases (h : -2 ^ 31 ≤ m ∧ m < 2 ^ 31) :
    m < 2 ^ 31 - 1 ∧ intSucc m = m + 1 ∨ intSucc m < 0 := by
  unfold intSucc
  rcases Int.lt_or_le m (2 ^ 31 - 1) with hlt | hge
  · exact .inl ⟨hlt, signed_word (by omega)⟩
  · right
    obtain rfl : m = 2 ^ 31 - 1 := by omega
    decide

end Indexes

/-! ## Names -/

section Names

variable {s t : Vm} {pid len rv size : ℤ} {tid vaddr calls limit : ℕ} {rand : ℕ → ℕ} {p : Process}
  {buf buf' : List UInt8} {c : CallState} {b : KernelBuffer}

/-- `copyin` fills no more than `len` bytes. -/
theorem copyin_length :
    (copyin pid len calls rand s vaddr buf).buf.length ≤ max buf.length len.toNat := by
  induction calls generalizing rand s vaddr buf with
  | zero =>
      rcases Int.lt_or_le buf.length len with hlt | hle
      · rw [copyin_zero hlt]
        exact Nat.le_max_left ..
      · rw [copyin_done hle]
        exact Nat.le_max_left ..
  | succ calls ih =>
      rcases Int.lt_or_le buf.length len with hlt | hle
      · cases hr : readMem s pid vaddr (rand 0) with
        | none =>
            rw [copyin_halt hlt hr]
            exact Nat.le_max_left ..
        | some tr =>
            obtain ⟨t, r⟩ := tr
            cases r with
            | none =>
                rw [copyin_retry hlt hr]
                exact ih
            | some byte =>
                rw [copyin_next hlt hr]
                refine Nat.le_trans ih ?_
                rw [List.length_append, List.length_singleton]
                omega
      · rw [copyin_done hle]
        exact Nat.le_max_left ..

theorem callState_length (c : CallState) (vaddr : ℕ) (len : ℤ) :
    (c.copyin vaddr len).buf.length ≤ len.toNat := by
  refine Nat.le_trans copyin_length ?_
  rw [List.length_nil, Nat.max_eq_right (Nat.zero_le _)]

/-- **The indexes of a name**: those of its bytes, and of the `NUL` if `copyin` returns. -/
theorem nameBuffer_cases (h : nameBuffer c size vaddr len = some b) :
    newChars c.limit size = some b.size ∧ ∃ k ≤ len.toNat, b.written = indexes k ∨
      ∃ t rv buf, c.copyin vaddr len = .returned t rv buf ∧ rv ≠ -1 ∧
        b.written = indexes k ++ [len] := by
  have hlength := callState_length c vaddr len
  obtain ⟨n, hn, rfl⟩ := Option.map_eq_some_iff.mp h
  cases hc : c.copyin vaddr len with
  | running t a buf =>
      rw [hc] at hlength
      exact ⟨hn, _, hlength, .inl rfl⟩
  | halted buf =>
      rw [hc] at hlength
      exact ⟨hn, _, hlength, .inl rfl⟩
  | returned t rv buf =>
      rw [hc] at hlength
      by_cases hrv : rv = -1
      · refine ⟨hn, buf.length, hlength, .inl ?_⟩
        simp only [hrv, if_true, List.append_nil]
      · refine ⟨hn, buf.length, hlength, .inr ⟨t, rv, buf, rfl, hrv, ?_⟩⟩
        simp only [hrv, if_false]

/-- **With room for the `NUL`** every name fits. -/
theorem nameBuffer_succ (hlen : -2 ^ 31 ≤ len ∧ len < 2 ^ 31) (hinv : Inv none c.vm)
    (hcur : c.vm.current = some (c.pid, tid)) (hp : c.vm.processTable.get c.pid = some p)
    (hva : vaddr < 2 ^ 32) (h : nameBuffer c (intSucc len) vaddr len = some b) : b.InBounds := by
  obtain ⟨hnew, k, hk, hwritten⟩ := nameBuffer_cases h
  obtain ⟨hpos, hsize⟩ := newChars_some hnew
  rcases intSucc_cases hlen with ⟨-, hsucc⟩ | hneg
  · rcases hwritten with hwritten | ⟨t, rv, buf, hret, hrv, hwritten⟩
    · exact inBounds_indexes hwritten (by omega)
    · obtain ⟨rfl, -⟩ := copyin_returned hinv hcur hp hva hret
      exact inBounds_append hwritten (by omega) (by omega) (by omega)
  · omega

/-- **Without it** a name fits only if it is not copied to its end. -/
theorem nameBuffer_exact (len : ℤ) (limit : ℕ) (rand : ℕ → ℕ) (hinv : Inv none s)
    (hcur : s.current = some (pid, tid))
    (hp : s.processTable.get pid = some p) (hva : vaddr < 2 ^ 32) :
    ((newChars limit len = none ∨ ∃ i < len.toNat, ¬ p.space.Contains (regionAddr vaddr i)) →
      ∀ calls b, nameBuffer ⟨s, pid, limit, calls, rand⟩ len vaddr len = some b → b.InBounds) ∧
    (regionPages vaddr len.toNat ≤ s.room →
      (∀ calls b, nameBuffer ⟨s, pid, limit, calls, rand⟩ len vaddr len = some b → b.InBounds) →
      newChars limit len = none ∨ ∃ i < len.toNat, ¬ p.space.Contains (regionAddr vaddr i)) := by
  constructor
  · intro hsafe calls b hb
    obtain ⟨hnew, k, hk, hwritten⟩ := nameBuffer_cases hb
    obtain ⟨hpos, hsize⟩ := newChars_some hnew
    rcases hwritten with hwritten | ⟨t, rv, buf, hret, -, -⟩
    · exact inBounds_indexes hwritten (by omega)
    · rcases hsafe with hnone | ⟨i, hi, hout⟩
      · rw [hnone] at hnew
        cases hnew
      · exact absurd (copyin_inside hinv hcur hp hva hret i hi) hout
  · intro hroom hb
    by_contra hnot
    rw [not_or] at hnot
    obtain ⟨hnew, hin⟩ := hnot
    obtain ⟨n, hn⟩ := Option.ne_none_iff_exists'.mp hnew
    obtain ⟨hpos, hsize⟩ := newChars_some hn
    have hinside : ∀ i < len.toNat, p.space.Contains (regionAddr vaddr i) := by
      intro i hi
      by_contra hout
      exact hin ⟨i, hi, hout⟩
    have hfresh : (len - ([] : List UInt8).length).toNat = len.toNat := by simp
    obtain ⟨calls, -, t, rv, buf, hret⟩ :=
      copyin_returns rand [] hinv hcur hp hva hfresh hinside (.inl hroom)
    obtain ⟨hrv, -⟩ := copyin_returned hinv hcur hp hva hret
    -- the name is complete, and its `NUL` goes behind the buffer
    have hbuffer : nameBuffer ⟨s, pid, limit, calls, rand⟩ len vaddr len =
        some ⟨n, indexes buf.length ++ [len]⟩ := by
      have hrv' : rv ≠ -1 := by omega
      simp only [nameBuffer, hn, Option.map_some, CallState.copyin, hret, hrv', if_false]
    have hbound := hb calls _ hbuffer len (List.mem_append_right _ (List.mem_singleton_self len))
    dsimp only at hbound
    omega

/-- `Exec` terminates its name where `copyin` has said, which is behind all 20 bytes. -/
theorem execNameSyscall_eq (hinv : Inv none c.vm) (hcur : c.vm.current = some (c.pid, tid))
    (hp : c.vm.processTable.get c.pid = some p) (hva : vaddr < 2 ^ 32) :
    execNameSyscall c vaddr = nameBuffer c 20 vaddr 20 := by
  cases hc : c.copyin vaddr 20 with
  | running | halted => simp only [execNameSyscall, nameBuffer, hc]
  | returned t rv buf =>
      obtain ⟨hrv, -⟩ := copyin_returned hinv hcur hp hva hc
      simp only [execNameSyscall, nameBuffer, hc, hrv]

end Names

/-! ## Blocks -/

section Blocks

variable {len id : ℤ} {vaddr : ℕ} {c : CallState} {src : Sources} {b : KernelBuffer}

theorem writeSyscall_inBounds (h : writeSyscall c vaddr len id = some b) : b.InBounds := by
  unfold writeSyscall at h
  split at h
  · cases h
  · obtain ⟨size, hnew, rfl⟩ := Option.map_eq_some_iff.mp h
    obtain ⟨hpos, hsize⟩ := newChars_some hnew
    have hlength := callState_length c vaddr len
    exact inBounds_indexes rfl (by dsimp only; omega)

/-- **`Read`** is out of bounds when a word of the console is as long as the buffer. -/
theorem readSyscall_inBounds_iff :
    (∀ b, readSyscall c src len id = some b → b.InBounds) ↔
      (id = consoleInput → newChars c.limit len = none ∨ scanned src.console = [] ∨
        (scanned src.console).length < len) := by
  unfold readSyscall
  by_cases hout : id = consoleOutput
  · rw [if_pos hout]
    refine iff_of_true nofun ?_
    intro hin
    rw [hin] at hout
    cases hout
  · rw [if_neg hout]
    cases hnew : newChars c.limit len with
    | none => exact iff_of_true nofun fun _ => .inl rfl
    | some size =>
        obtain ⟨hpos, hsize⟩ := newChars_some hnew
        simp only [Option.map_some, Option.some.injEq, forall_eq']
        by_cases hin : id = consoleInput
        · simp only [hin, if_true, reduceCtorEq, false_or, forall_const]
          by_cases hnil : scanned src.console = []
          · simp only [hnil, if_true, true_or, iff_true]
            exact inBounds_indexes (n := 0) rfl (Nat.zero_le _)
          · simp only [hnil, if_false, false_or]
            constructor
            · -- the `NUL` is the last one
              intro hb
              have hlast := hb (scanned src.console).length (mem_indexes.mpr (by omega))
              dsimp only at hlast
              omega
            · intro hlt
              exact inBounds_indexes rfl (by dsimp only; omega)
        · simp only [hin, if_false, false_implies, iff_true]
          cases src.file with
          | none => exact inBounds_indexes (n := 0) rfl (Nat.zero_le _)
          | some rest =>
              have htake := List.length_take_le len.toNat rest
              exact inBounds_indexes rfl (by dsimp only; omega)

end Blocks

/-! ## All calls -/

/-- **Kernel buffers.** `Create`, `Open` and `Write` never leave their buffers. A call of
the others stays in its buffer if it is safe, and, given room for the pages of the
region, only then. -/
theorem kernel_buffers_iff {s : Vm} {pid : ℤ} {tid : ℕ} {p : Process} (limit : ℕ)
    (rand : ℕ → ℕ) (src : Sources) (call : BufferCall) (hinv : Inv none s)
    (hcur : s.current = some (pid, tid))
    (hp : s.processTable.get pid = some p) (hva : call.vaddr < 2 ^ 32)
    (hlen : -2 ^ 31 ≤ call.len ∧ call.len < 2 ^ 31) :
    (call.Safe p.space limit src → call.StaysInBounds s pid limit rand src) ∧
      (regionPages call.vaddr call.len.toNat ≤ s.room →
        (call.StaysInBounds s pid limit rand src ↔ call.Safe p.space limit src)) := by
  suffices h : (call.Safe p.space limit src → call.StaysInBounds s pid limit rand src) ∧
      (regionPages call.vaddr call.len.toNat ≤ s.room →
        call.StaysInBounds s pid limit rand src → call.Safe p.space limit src) from
    ⟨h.1, fun hroom => ⟨h.2 hroom, h.1⟩⟩
  cases call with
  | create vaddr len | «open» vaddr len =>
      refine ⟨fun _ calls b hb => ?_, fun _ _ => trivial⟩
      exact nameBuffer_succ (c := ⟨s, pid, limit, calls, rand⟩) hlen hinv hcur hp hva hb
  | write vaddr len id =>
      exact ⟨fun _ calls b hb => writeSyscall_inBounds hb, fun _ _ => trivial⟩
  | read vaddr len id =>
      refine ⟨fun hsafe calls b hb => ?_, fun _ hb => ?_⟩
      · exact (readSyscall_inBounds_iff (c := ⟨s, pid, limit, calls, rand⟩)).mpr hsafe b hb
      · exact (readSyscall_inBounds_iff (c := ⟨s, pid, limit, 0, rand⟩)).mp (hb 0)
  | createLock vaddr len | createCondition vaddr len | createMonitor vaddr len =>
      exact nameBuffer_exact len limit rand hinv hcur hp hva
  | exec vaddr =>
      have hexact := nameBuffer_exact 20 limit rand hinv hcur hp hva
      refine ⟨fun hsafe calls b hb => ?_, fun hroom hb => ?_⟩
      · have heq := execNameSyscall_eq (c := ⟨s, pid, limit, calls, rand⟩) hinv hcur hp hva
        exact hexact.1 hsafe calls b (heq.symm.trans hb)
      · refine hexact.2 hroom fun calls b hcalls => hb calls b ?_
        have heq := execNameSyscall_eq (c := ⟨s, pid, limit, calls, rand⟩) hinv hcur hp hva
        exact heq.trans hcalls

/-- The first bytes of the small program as the name of a file, and of a program. -/
theorem kernel_buffers_iff_sample :
    (BufferCall.create 0 4).StaysInBounds bootSample 0 100 (fun _ => 0) ⟨[], none⟩ ∧
      ¬ (BufferCall.exec 0).StaysInBounds bootSample 0 100 (fun _ => 0) ⟨[], none⟩ := by
  have hroom : regionPages 0 (20 : ℤ).toNat ≤ bootSample.room := by
    rw [bootSample_room, numPhysPages_eq]
    exact Nat.le_trans (by decide) (Nat.le_add_right 4096 _)
  have hcreate := kernel_buffers_iff 100 (fun _ => 0) ⟨[], none⟩ (.create 0 4) (.boot ..) rfl
    bootSample_get (by decide) (by decide)
  refine ⟨hcreate.1 trivial, fun hb => ?_⟩
  have hexec := kernel_buffers_iff 100 (fun _ => 0) ⟨[], none⟩ (.exec 0) (.boot ..) rfl
    bootSample_get (by decide) (by decide)
  rcases (hexec.2 hroom).mp hb with hnone | ⟨i, hi, hout⟩
  · cases hnone
  · refine hout ?_
    show (0 + i) % 2 ^ 32 / pageSize < 9
    unfold pageSize
    omega

/-- **The name of a lock.** Four bytes and a `NUL` go into a buffer of four. -/
theorem lock_name_overruns :
    ∃ b, createLockSyscall ⟨bootSample, 0, 100, 6, fun _ => 0⟩ 0 4 = some b ∧ b.size = 4 ∧
      b.written = [0, 1, 2, 3, 4] ∧
      ¬ (BufferCall.createLock 0 4).StaysInBounds bootSample 0 100 (fun _ => 0) ⟨[], none⟩ := by
  have hp : (createLockSyscall ⟨bootSample, 0, 100, 6, fun _ => 0⟩ 0 4).map
      (fun b => (b.size, b.written)) = some (4, [0, 1, 2, 3, 4]) := by
    decide +kernel
  obtain ⟨b, hb, heq⟩ := Option.map_eq_some_iff.mp hp
  obtain ⟨hsize, hwritten⟩ := Prod.mk.inj heq
  refine ⟨b, hb, hsize, hwritten, fun hstays => ?_⟩
  have hlast := (hstays 6 b hb 4 (by rw [hwritten]; decide)).2
  rw [hsize] at hlast
  exact absurd hlast (by decide)

end Nachos.VM
