import Nachos.VM.Transparency

/-!
# Copying between the kernel and a process

`copyin` and `copyout` go through the memory of a process byte by byte with
`ReadMem` and `WriteMem`. A page fault makes both return false after the handler
has run. `copyin` then tries the same byte again until it succeeds, `copyout`
gives up at once.

The bytes of a process are seen through `Vm.byte`. A fault of the kernel on an
address outside of the address space is not the end of the thread: `updateIPT`
returns with `IPTLock` held, and its owner may acquire it again.
-/

namespace Nachos.VM

open Nachos.Lib Nachos.Userprog

/-! ## The code -/

/-- `ExceptionHandler` for a page fault. Outside of the address space it prints an
error and returns. -/
def pageFault (s : Vm) (pid : ℤ) (vaddr rand : ℕ) : Option Vm :=
  match findIPTIndex s pid (vaddr / pageSize), s.processTable.get pid with
  | none, some p =>
      if p.space.numPages ≤ vaddr / pageSize then some s else updateTLB s pid vaddr rand
  | _, _ => updateTLB s pid vaddr rand

/-- `ReadMem` of one byte: the byte, or nothing when the handler has run. An
exception that is no page fault halts the machine. -/
def readMem (s : Vm) (pid : ℤ) (vaddr rand : ℕ) : Option (Vm × Option UInt8) :=
  match translate s vaddr 1 false with
  | .ok frame => some (s, some (s.mainMemory frame (vaddr % pageSize)))
  | .error .pageFault => (pageFault s pid vaddr rand).map (·, none)
  | .error _ => none

/-- `WriteMem` of one byte. -/
def writeMem (s : Vm) (pid : ℤ) (vaddr : ℕ) (b : UInt8) (rand : ℕ) : Option (Vm × Bool) :=
  match translate s vaddr 1 true with
  | .ok frame => some (writeBytes s frame vaddr [b], true)
  | .error .pageFault => (pageFault s pid vaddr rand).map (·, false)
  | .error _ => none

/-- How far `copyin` has got: `buf` is the part of the buffer that is filled. -/
inductive Copying where
  | running (s : Vm) (vaddr : ℕ) (buf : List UInt8)
  | returned (s : Vm) (rv : ℤ) (buf : List UInt8)
  | halted (buf : List UInt8)

def Copying.buf : Copying → List UInt8
  | .running _ _ buf => buf
  | .returned _ _ buf => buf
  | .halted buf => buf

/-- An `unsigned int` counts modulo `2^32`. -/
def nextAddr (vaddr : ℕ) : ℕ := (vaddr + 1) % 2 ^ 32

/-- `copyin` with some bytes in the buffer already, as far as it gets with a number
of calls of `ReadMem`. What `rand()` returns in the `i`-th call is `rand i`. Behind
the inner loop `result` is true, so the test for `-1` is never passed. -/
def copyin (pid len : ℤ) : (calls : ℕ) → (rand : ℕ → ℕ) → Vm → (vaddr : ℕ) → List UInt8 → Copying
  | calls, rand, s, vaddr, buf =>
      if (buf.length : ℤ) < len then
        match calls with
        | 0 => .running s vaddr buf
        | calls + 1 =>
            match readMem s pid vaddr (rand 0) with
            | none => .halted buf
            | some (s, none) => copyin pid len calls (fun i => rand (i + 1)) s vaddr buf
            | some (s, some b) =>
                copyin pid len calls (fun i => rand (i + 1)) s (nextAddr vaddr) (buf ++ [b])
      else .returned s len buf

/-- `copyout` of the bytes of a buffer, `n` of them copied already. -/
def copyout (pid : ℤ) (rand : ℕ) : (buf : List UInt8) → (n vaddr : ℕ) → Vm → Option (Vm × ℤ)
  | [], n, _, s => some (s, n)
  | b :: buf, n, vaddr, s =>
      match writeMem s pid vaddr b rand with
      | none => none
      | some (s, true) => copyout pid rand buf (n + 1) (nextAddr vaddr) s
      | some (s, false) => some (s, -1)

/-! ## Bytes of a process -/

/-- The byte at address `a` of process `pid`, if its address space reaches there. -/
def Vm.byte (s : Vm) (pid : ℤ) (a : ℕ) : Option UInt8 :=
  (s.memory pid (a / pageSize)).map fun page => page (a % pageSize)

/-- The address is one of the address space. -/
def AddrSpace.Contains (space : AddrSpace) (a : ℕ) : Prop := a / pageSize < space.numPages

instance (space : AddrSpace) (a : ℕ) : Decidable (space.Contains a) :=
  inferInstanceAs (Decidable (_ < _))

/-- Byte `i` of a region of virtual memory. -/
def regionAddr (vaddr i : ℕ) : ℕ := (vaddr + i) % 2 ^ 32

section Bytes

variable {s t : Vm} {pid : ℤ} {tid a vaddr rand : ℕ} {x : Executable} {e : PageEntry} {p : Process}

theorem regionAddr_next (vaddr i : ℕ) :
    regionAddr (nextAddr vaddr) i = regionAddr vaddr (i + 1) := by
  unfold regionAddr nextAddr
  omega

theorem regionAddr_zero (h : vaddr < 2 ^ 32) : regionAddr vaddr 0 = vaddr := by
  unfold regionAddr
  omega

/-- The bytes of a region, as far as there are such. -/
def Vm.region (s : Vm) (pid : ℤ) (vaddr n : ℕ) : List (Option UInt8) :=
  (List.range n).map fun i => s.byte pid (regionAddr vaddr i)

theorem region_succ (h : vaddr < 2 ^ 32) (n : ℕ) :
    s.region pid vaddr (n + 1) = s.byte pid vaddr :: s.region pid (nextAddr vaddr) n := by
  unfold Vm.region
  rw [List.range_succ_eq_map, List.map_cons, List.map_map, regionAddr_zero h]
  congr 1
  refine List.map_congr_left fun i _ => ?_
  rw [regionAddr_next]
  rfl

theorem nextAddr_lt (vaddr : ℕ) : nextAddr vaddr < 2 ^ 32 := Nat.mod_lt _ (by decide)

theorem byte_of_page (h : s.page pid (a / pageSize) = some (x, e)) :
    s.byte pid a = some (s.contents x (a / pageSize) e (a % pageSize)) := by
  rw [Vm.byte, memory_of_page h, Option.map_some]

theorem byte_isSome (hp : s.processTable.get pid = some p) :
    (s.byte pid a).isSome = true ↔ p.space.Contains a := by
  rw [Vm.byte, Option.isSome_map, Vm.memory, Option.isSome_map, page_of_get hp,
    AddrSpace.Contains]
  split <;> simp [*]

/-- Faults leave every byte. -/
theorem byte_congr (h : t.memory = s.memory) : t.byte = s.byte := by
  funext pid a
  rw [Vm.byte, Vm.byte, h]

theorem region_congr (h : t.memory = s.memory) (vaddr n : ℕ) :
    t.region pid vaddr n = s.region pid vaddr n := by
  rw [Vm.region, Vm.region, byte_congr h]

/-- **A byte written** is the only one that changes. -/
theorem byte_write (hinv : Inv none s) (hp : s.page pid (a / pageSize) = some (x, e))
    (hv : e.valid = true) (b : UInt8) (pid' : ℤ) (a' : ℕ) :
    (writeBytes s e.physicalPage a [b]).byte pid' a' =
      if pid' = pid ∧ a' = a then some b else s.byte pid' a' := by
  have hpage : ∀ pid' vpn, (writeBytes s e.physicalPage a [b]).page pid' vpn = s.page pid' vpn :=
    fun _ _ => rfl
  have hstore : storeBytes (s.mainMemory e.physicalPage) (a % pageSize) [b] =
      Function.update (s.mainMemory e.physicalPage) (a % pageSize) b := rfl
  cases hp' : s.page pid' (a' / pageSize) with
  | none =>
      have hne : ¬ (pid' = pid ∧ a' = a) := by
        rintro ⟨rfl, rfl⟩
        rw [hp] at hp'
        cases hp'
      rw [if_neg hne, Vm.byte, Vm.byte, Vm.memory, Vm.memory, hpage, hp']
      rfl
  | some xe =>
      obtain ⟨x', e'⟩ := xe
      rw [byte_of_page ((hpage _ _).trans hp'), byte_of_page hp']
      by_cases hsame : pid' = pid ∧ a' / pageSize = a / pageSize
      · -- the page written to
        obtain ⟨rfl, hdiv⟩ := hsame
        rw [hdiv, hp] at hp'
        simp only [Option.some.injEq, Prod.mk.injEq] at hp'
        obtain ⟨rfl, rfl⟩ := hp'
        rw [contents_valid hv, contents_valid hv, writeBytes]
        simp only [Function.update_self, hstore]
        by_cases ha : a' = a
        · subst ha
          rw [if_pos ⟨trivial, rfl⟩, Function.update_self]
        · have hoff : a' % pageSize ≠ a % pageSize := by
            intro hoff
            apply ha
            rw [← Nat.div_add_mod a' pageSize, hdiv, hoff, Nat.div_add_mod]
          rw [if_neg (fun h => ha h.2), Function.update_of_ne hoff]
      · have hne : ¬ (pid' = pid ∧ a' = a) := by
          rintro ⟨rfl, rfl⟩
          exact hsame ⟨rfl, rfl⟩
        have hcont : (writeBytes s e.physicalPage a [b]).contents x' (a' / pageSize) e' =
            s.contents x' (a' / pageSize) e' := by
          refine contents_congr ?_ fun _ => rfl
          intro hv'
          refine Function.update_of_ne ?_ ..
          intro hframe
          exact hsame (hinv.frames.frame_inj hp hp' hv hv' hframe)
        rw [if_neg hne, hcont]

end Bytes

/-! ## Room for pages -/

theorem numClear_clear (m : BitMap) (n k : ℕ) : m.numClear n ≤ (m.clear k).numClear n := by
  rw [BitMap.numClear_eq, BitMap.numClear_eq]
  apply Finset.card_le_card
  intro i hi
  obtain ⟨hlt, hclear⟩ := Finset.mem_filter.mp hi
  refine Finset.mem_filter.mpr ⟨hlt, ?_⟩
  by_cases hik : i = k
  · subst hik
    exact BitMap.clear_self m i
  · rw [BitMap.clear_of_ne m hik]
    exact hclear

/-- The pages that can still be brought in: one for every free frame, one for every
free slot of the swap file. -/
def Vm.room (s : Vm) : ℕ := s.bm.numClear numPhysPages + s.sfBM.numClear swapFileMaxPages

/-- The pages that a region of `n` bytes touches. -/
def regionPages (vaddr n : ℕ) : ℕ := divRoundUp (vaddr % pageSize + n) pageSize

section RoomLeft

variable {s t u : Vm} {pid : ℤ} {tid vaddr rand f : ℕ} {x : Executable} {e : PageEntry}

theorem room_of_pos (h : 0 < s.room) : Room s := by
  rcases Nat.add_pos_iff_pos_or_pos.mp h with hbm | hsf
  · obtain ⟨k, hk⟩ := BitMap.find_of_numClear hbm
    exact .inl (by simp [hk])
  · obtain ⟨k, hk⟩ := BitMap.find_of_numClear hsf
    exact .inr (by simp [hk])

/-- Taking a frame takes it, or else a slot. -/
theorem room_findFrame (hinv : Inv none s) (h : findFrame s rand = some (u, f)) :
    u.room + 1 = s.room := by
  unfold Vm.room
  rcases findFrame_cases hinv.frames h with ⟨hfind, rfl⟩ | ⟨-, -, loc, hev⟩
  · obtain ⟨hlt, hclear, -⟩ := BitMap.find_some hfind
    have hmark := BitMap.numClear_mark hlt hclear
    dsimp only
    omega
  · have hmark := BitMap.numClear_mark hev.slot_lt hev.slot_free
    rw [hev.bm, hev.sfBM]
    omega

/-- Bringing a page in may free its slot. -/
theorem room_installed {contents : Page} (h : Installed u pid vaddr f x e contents t) :
    u.room ≤ t.room := by
  unfold Vm.room
  rw [h.bm, h.sfBM]
  split
  · exact Nat.add_le_add_left (numClear_clear ..) _
  · exact Nat.le_refl _

end RoomLeft

/-! ## One call -/

section Calls

variable {s t : Vm} {pid len : ℤ} {tid vaddr rand frame : ℕ} {x : Executable} {e : PageEntry}
  {p : Process} {r : Option UInt8}

theorem page_of_contains (hp : s.processTable.get pid = some p) (h : p.space.Contains vaddr) :
    s.page pid (vaddr / pageSize) =
      some (p.space.exec, p.space.pageTable (vaddr / pageSize)) := by
  rw [page_of_get hp]
  exact if_pos h

theorem contains_of_page (hp : s.processTable.get pid = some p)
    (h : s.page pid (vaddr / pageSize) = some (x, e)) : p.space.Contains vaddr := by
  obtain ⟨q, hq, hlt, -⟩ := get_of_page h
  obtain rfl : p = q := Option.some.inj (hp.symm.trans hq)
  exact hlt

theorem pageFault_inside (hp : s.processTable.get pid = some p) (h : p.space.Contains vaddr) :
    pageFault s pid vaddr rand = updateTLB s pid vaddr rand := by
  unfold pageFault
  split
  · rename_i q _ hq
    obtain rfl : p = q := Option.some.inj (hp.symm.trans hq)
    exact if_neg (Nat.not_le.mpr h)
  · rfl

/-- **Outside of the address space** the handler changes nothing. -/
theorem pageFault_outside (hinv : Inv none s) (hp : s.processTable.get pid = some p)
    (h : ¬ p.space.Contains vaddr) : pageFault s pid vaddr rand = some s := by
  have hnone : findIPTIndex s pid (vaddr / pageSize) = none := by
    by_contra hsome
    obtain ⟨k, hk⟩ := Option.ne_none_iff_exists'.mp hsome
    obtain ⟨hlt, hmaps⟩ := findIPTIndex_some hk
    obtain ⟨x, e, hpage, -⟩ := hinv.mapped hlt (by simp) hmaps
    exact h (contains_of_page hp hpage)
  simp only [pageFault, hnone, hp]
  exact if_pos (Nat.not_lt.mp h)

/-- Faults of the kernel change no more than faults of the user. -/
theorem pageFault_faulted (hinv : Inv none s) (hcur : s.current = some (pid, tid))
    (hp : s.processTable.get pid = some p) (h : pageFault s pid vaddr rand = some t) :
    Faulted pid (vaddr / pageSize) s t := by
  by_cases hin : p.space.Contains vaddr
  · rw [pageFault_inside hp hin] at h
    exact updateTLB_faulted hinv hcur h
  · rw [pageFault_outside hinv hp hin] at h
    obtain rfl := Option.some.inj h
    exact .refl hinv

theorem readMem_ok (h : translate s vaddr 1 false = .ok frame) :
    readMem s pid vaddr rand = some (s, some (s.mainMemory frame (vaddr % pageSize))) := by
  rw [readMem, h]

theorem readMem_fault (h : translate s vaddr 1 false = .error .pageFault)
    (ht : pageFault s pid vaddr rand = some t) : readMem s pid vaddr rand = some (t, none) := by
  rw [readMem, h]
  dsimp only
  rw [ht, Option.map_some]

/-- A translation that succeeds leads to the byte of the process. -/
theorem byte_of_translate (hinv : Inv none s) (hcur : s.current = some (pid, tid))
    {writing : Bool} (h : translate s vaddr 1 writing = .ok frame) :
    s.byte pid vaddr = some (s.mainMemory frame (vaddr % pageSize)) := by
  obtain ⟨-, x, e, hpage, hv, rfl⟩ := translate_ok hinv hcur h
  rw [byte_of_page hpage, contents_valid hv]

/-- **One call of `ReadMem`** changes no memory, and returns the byte of the process
if it returns one. -/
theorem readMem_some (hinv : Inv none s) (hcur : s.current = some (pid, tid))
    (hp : s.processTable.get pid = some p) (h : readMem s pid vaddr rand = some (t, r)) :
    Faulted pid (vaddr / pageSize) s t ∧ ∀ b, r = some b → s.byte pid vaddr = some b := by
  unfold readMem at h
  split at h
  · rename_i frame htr
    simp only [Option.some.injEq, Prod.mk.injEq] at h
    obtain ⟨rfl, rfl⟩ := h
    refine ⟨.refl hinv, ?_⟩
    rintro b hb
    rw [byte_of_translate hinv hcur htr, hb]
  · obtain ⟨u, hu, heq⟩ := Option.map_eq_some_iff.mp h
    obtain ⟨rfl, rfl⟩ := Prod.mk.inj heq
    refine ⟨pageFault_faulted hinv hcur hp hu, ?_⟩
    rintro b ⟨⟩
  · cases h

/-- The process behind the faults of one of its threads. -/
theorem Faulted.get {vpn : ℕ} (h : Faulted pid vpn s t) (hp : s.processTable.get pid = some p) :
    ∃ q, t.processTable.get pid = some q ∧ q.space.numPages = p.space.numPages := by
  obtain ⟨q, hq, -, hn, -⟩ := get_of_outline h.outline.symm hp
  exact ⟨q, hq, hn⟩

end Calls

/-! ## copyin -/

section CopyIn

variable {s t : Vm} {pid len rv : ℤ} {tid vaddr calls frame : ℕ} {rand : ℕ → ℕ} {x : Executable}
  {e : PageEntry} {p : Process} {buf buf' : List UInt8}

theorem copyin_done (h : len ≤ buf.length) :
    copyin pid len calls rand s vaddr buf = .returned s len buf := by
  unfold copyin
  exact if_neg (Int.not_lt.mpr h)

theorem copyin_zero (h : (buf.length : ℤ) < len) :
    copyin pid len 0 rand s vaddr buf = .running s vaddr buf := by
  unfold copyin
  exact if_pos h

theorem copyin_halt (h : (buf.length : ℤ) < len) (hr : readMem s pid vaddr (rand 0) = none) :
    copyin pid len (calls + 1) rand s vaddr buf = .halted buf := by
  rw [copyin, if_pos h, hr]

theorem copyin_retry (h : (buf.length : ℤ) < len)
    (hr : readMem s pid vaddr (rand 0) = some (t, none)) :
    copyin pid len (calls + 1) rand s vaddr buf =
      copyin pid len calls (fun i => rand (i + 1)) t vaddr buf := by
  rw [copyin, if_pos h, hr]

theorem copyin_next (h : (buf.length : ℤ) < len) {b : UInt8}
    (hr : readMem s pid vaddr (rand 0) = some (t, some b)) :
    copyin pid len (calls + 1) rand s vaddr buf =
      copyin pid len calls (fun i => rand (i + 1)) t (nextAddr vaddr) (buf ++ [b]) := by
  rw [copyin, if_pos h, hr]

theorem copyin_full (hle : len ≤ buf.length)
    (h : copyin pid len calls rand s vaddr buf = .returned t rv buf') :
    rv = len ∧ t = s ∧ buf'.map some = buf.map some ++ s.region pid vaddr (len - buf.length).toNat := by
  rw [copyin_done hle] at h
  obtain ⟨rfl, rfl, rfl⟩ := Copying.returned.inj h
  have hnone : (len - buf.length).toNat = 0 := by omega
  rw [hnone]
  exact ⟨rfl, rfl, (List.append_nil _).symm⟩

/-- **What `copyin` returns.** If it returns at all, it returns `len`, has changed no
memory, and the buffer has the bytes of the whole region. -/
theorem copyin_returned (hinv : Inv none s) (hcur : s.current = some (pid, tid))
    (hp : s.processTable.get pid = some p) (hva : vaddr < 2 ^ 32)
    (h : copyin pid len calls rand s vaddr buf = .returned t rv buf') :
    rv = len ∧ t.memory = s.memory ∧
      buf'.map some = buf.map some ++ s.region pid vaddr (len - buf.length).toNat := by
  induction calls generalizing rand s vaddr buf p with
  | zero =>
      rcases Int.lt_or_le buf.length len with hlt | hle
      · rw [copyin_zero hlt] at h
        cases h
      · obtain ⟨hrv, rfl, hbuf⟩ := copyin_full hle h
        exact ⟨hrv, rfl, hbuf⟩
  | succ calls ih =>
      rcases Int.lt_or_le buf.length len with hlt | hle
      · cases hr : readMem s pid vaddr (rand 0) with
        | none =>
            rw [copyin_halt hlt hr] at h
            cases h
        | some ur =>
            obtain ⟨u, r⟩ := ur
            obtain ⟨hf, hbyte⟩ := readMem_some hinv hcur hp hr
            obtain ⟨q, hq, -⟩ := hf.get hp
            cases r with
            | none =>
                -- the same byte again
                rw [copyin_retry hlt hr] at h
                obtain ⟨hrv, hmem, hbuf⟩ := ih hf.inv (hf.current.trans hcur) hq hva h
                rw [region_congr hf.memory] at hbuf
                exact ⟨hrv, hmem.trans hf.memory, hbuf⟩
            | some b =>
                rw [copyin_next hlt hr] at h
                obtain ⟨hrv, hmem, hbuf⟩ := ih hf.inv (hf.current.trans hcur) hq (nextAddr_lt vaddr) h
                refine ⟨hrv, hmem.trans hf.memory, ?_⟩
                have hleft : (len - buf.length).toNat =
                    (len - (buf ++ [b]).length).toNat + 1 := by
                  simp only [List.length_append, List.length_singleton]
                  omega
                rw [hbuf, region_congr hf.memory, hleft, region_succ hva, hbyte b rfl,
                  List.map_append, List.append_assoc]
                rfl
      · obtain ⟨hrv, rfl, hbuf⟩ := copyin_full hle h
        exact ⟨hrv, rfl, hbuf⟩

/-- With `k` calls of `ReadMem` the next byte is copied, and `copyin` goes on in `t`. -/
def CopiesByte (pid len : ℤ) (rand : ℕ → ℕ) (s : Vm) (vaddr : ℕ) (buf : List UInt8) (k : ℕ)
    (t : Vm) : Prop :=
  ∃ b, ∀ calls, copyin pid len (calls + k) rand s vaddr buf =
    copyin pid len calls (fun i => rand (i + k)) t (nextAddr vaddr) (buf ++ [b])

theorem CopiesByte.hit (hlt : (buf.length : ℤ) < len)
    (htr : translate s vaddr 1 false = .ok frame) : CopiesByte pid len rand s vaddr buf 1 s :=
  ⟨_, fun _ => copyin_next hlt (readMem_ok htr)⟩

theorem CopiesByte.retry {u : Vm} {k : ℕ} (hlt : (buf.length : ℤ) < len)
    (htr : translate s vaddr 1 false = .error .pageFault)
    (hu : pageFault s pid vaddr (rand 0) = some u)
    (h : CopiesByte pid len (fun i => rand (i + 1)) u vaddr buf k t) :
    CopiesByte pid len rand s vaddr buf (k + 1) t := by
  obtain ⟨b, hb⟩ := h
  refine ⟨b, fun calls => ?_⟩
  rw [← Nat.add_assoc, copyin_retry hlt (readMem_fault htr hu), hb calls]
  rfl

theorem aligned_byte (vaddr : ℕ) : Aligned vaddr 1 := .inl rfl

/-- A page in memory is in the TLB after one fault, or its entry is lost. -/
theorem copiesByte_or_lost (rand : ℕ → ℕ) (hinv : Inv none s) (hcur : s.current = some (pid, tid))
    (hp : s.processTable.get pid = some p) (hlt : (buf.length : ℤ) < len)
    (hpage : s.page pid (vaddr / pageSize) = some (x, e)) (hv : e.valid = true) :
    (∃ k ≤ 2, ∃ t, CopiesByte pid len rand s vaddr buf k t ∧
      Faulted pid (vaddr / pageSize) s t ∧ t.page pid (vaddr / pageSize) = some (x, e) ∧
      t.room = s.room) ∨
    tlbIndex s.tlbCounter = none ∧ translate s vaddr 1 false = .error .pageFault ∧
      ∃ ppn, pageFault s pid vaddr (rand 0) = some (addTLB s ppn) ∧
        Faulted pid (vaddr / pageSize) s (addTLB s ppn) := by
  rcases translate_read hinv hcur (aligned_byte vaddr) with ⟨frame, htr⟩ | ⟨htr, -⟩
  · exact .inl ⟨1, by decide, s, .hit hlt htr, .refl hinv, hpage, rfl⟩
  · obtain ⟨k, hk⟩ := hinv.frames.findIPTIndex hpage hv
    have hup : updateTLB s pid vaddr (rand 0) = some (addTLB s k) := by
      rw [updateTLB, hk]
    have hfault : pageFault s pid vaddr (rand 0) = some (addTLB s k) := by
      rw [pageFault_inside hp (contains_of_page hp hpage), hup]
    have hf := updateTLB_faulted hinv hcur hup
    cases hindex : tlbIndex s.tlbCounter with
    | none => exact .inr ⟨rfl, htr, k, hfault, hf⟩
    | some i =>
        -- the entry just added is found
        obtain ⟨frame, htr'⟩ := translate_addTLB hinv hcur (aligned_byte vaddr) hk hindex
        exact .inl ⟨2, by decide, addTLB s k, .retry hlt htr hfault (.hit hlt htr'), hf, hpage, rfl⟩

/-- A page in memory is in the TLB when no more than `m` entries are lost before. -/
theorem copiesByte_counted {m : ℕ} (rand : ℕ → ℕ) (hinv : Inv none s)
    (hcur : s.current = some (pid, tid)) (hp : s.processTable.get pid = some p)
    (hlt : (buf.length : ℤ) < len) (hpage : s.page pid (vaddr / pageSize) = some (x, e))
    (hv : e.valid = true)
    (hm : tlbIndex s.tlbCounter = none → (tlbSize : ℤ) ≤ s.tlbCounter % tlbSize + m) :
    ∃ k ≤ m + 2, ∃ t, CopiesByte pid len rand s vaddr buf k t ∧
      Faulted pid (vaddr / pageSize) s t ∧ t.page pid (vaddr / pageSize) = some (x, e) ∧
      t.room = s.room := by
  induction m generalizing rand s p with
  | zero =>
      refine (copiesByte_or_lost rand hinv hcur hp hlt hpage hv).resolve_right ?_
      rintro ⟨hindex, -⟩
      have hge := hm hindex
      have hmod := Int.emod_lt_of_pos s.tlbCounter (show (0 : ℤ) < tlbSize by decide)
      omega
  | succ m ih =>
      rcases copiesByte_or_lost rand hinv hcur hp hlt hpage hv with
        ⟨k, hk, hcopy⟩ | ⟨hindex, htr, ppn, hfault, hf⟩
      · exact ⟨k, by omega, hcopy⟩
      · obtain ⟨q, hq, -⟩ := hf.get hp
        have hge := hm hindex
        obtain ⟨k, hk, t, hcopy, hft, hpt, hr⟩ :=
          ih (fun i => rand (i + 1)) hf.inv (hf.current.trans hcur) hq hpage fun hlost => by
            have hnext := tlbIndex_increment hlost
            push_cast at hge
            change (tlbSize : ℤ) ≤ increment s.tlbCounter % tlbSize + m
            omega
        exact ⟨k + 1, by omega, t, .retry hlt htr hfault hcopy, hf.trans hft, hpt, hr⟩

/-- Three entries at the most are lost. -/
theorem copiesByte_resident (rand : ℕ → ℕ) (hinv : Inv none s) (hcur : s.current = some (pid, tid))
    (hp : s.processTable.get pid = some p) (hlt : (buf.length : ℤ) < len)
    (hpage : s.page pid (vaddr / pageSize) = some (x, e)) (hv : e.valid = true) :
    ∃ k ≤ 5, ∃ t, CopiesByte pid len rand s vaddr buf k t ∧
      Faulted pid (vaddr / pageSize) s t ∧ t.page pid (vaddr / pageSize) = some (x, e) ∧
      t.room = s.room := by
  refine copiesByte_counted (m := 3) rand hinv hcur hp hlt hpage hv fun hlost => ?_
  have hpos := (tlbIndex_eq_none_iff.mp hlost).2
  unfold tlbSize at hpos ⊢
  omega

/-- **A byte in the address space** is copied after six calls at the most. Then its
page is in memory. -/
theorem copiesByte (rand : ℕ → ℕ) (hinv : Inv none s) (hcur : s.current = some (pid, tid))
    (hp : s.processTable.get pid = some p) (hlt : (buf.length : ℤ) < len)
    (hpage : s.page pid (vaddr / pageSize) = some (x, e)) (hroom : e.valid = false → 0 < s.room) :
    ∃ k ≤ 6, ∃ t e', CopiesByte pid len rand s vaddr buf k t ∧ Faulted pid (vaddr / pageSize) s t ∧
      t.page pid (vaddr / pageSize) = some (x, e') ∧ e'.valid = true ∧
      s.room ≤ t.room + if e.valid then 0 else 1 := by
  cases hv : e.valid with
  | true =>
      obtain ⟨k, hk, t, hcopy, hf, hpt, hr⟩ := copiesByte_resident rand hinv hcur hp hlt hpage hv
      refine ⟨k, by omega, t, e, hcopy, hf, hpt, hv, ?_⟩
      rw [hr]
      exact Nat.le_add_right ..
  | false =>
      rcases translate_read hinv hcur (aligned_byte vaddr) with ⟨frame, htr⟩ | ⟨htr, -⟩
      · -- the TLB holds pages in memory only
        obtain ⟨-, x', e', hpage', hv', -⟩ := translate_ok hinv hcur htr
        rw [hpage] at hpage'
        simp only [Option.some.injEq, Prod.mk.injEq] at hpage'
        rw [hpage'.2, hv'] at hv
        cases hv
      · obtain ⟨u, hu⟩ := updateIPT_isSome hinv (room_of_pos (hroom hv)) hpage hv (rand 0)
        have hup : updateTLB s pid vaddr (rand 0) = some u := by
          rw [updateTLB, hinv.not_found hpage hv, hu]
        have hfault : pageFault s pid vaddr (rand 0) = some u := by
          rw [pageFault_inside hp (contains_of_page hp hpage), hup]
        have hf := updateTLB_faulted hinv hcur hup
        obtain ⟨q, hq, -⟩ := hf.get hp
        obtain ⟨w, f, hw, -, hins⟩ := updateIPT_cases hinv.frames hpage hv hu
        have hpu : u.page pid (vaddr / pageSize) =
            some (x, { e with physicalPage := f, valid := true }) := by
          rw [hins.page, if_pos ⟨rfl, rfl⟩]
        obtain ⟨k, hk, t, hcopy, hft, hpt, hr⟩ :=
          copiesByte_resident (fun i => rand (i + 1)) hf.inv (hf.current.trans hcur) hq hlt
            hpu rfl
        refine ⟨k + 1, by omega, t, _, .retry hlt htr hfault hcopy, hf.trans hft, hpt, rfl, ?_⟩
        have htaken := room_findFrame hinv hw
        have hkept := room_installed hins
        rw [hr]
        simp only [Bool.false_eq_true, if_false]
        omega

/-- The next byte is in the same page, or the region goes on with one page less. -/
theorem regionPages_next (h : vaddr < 2 ^ 32) (n : ℕ) :
    nextAddr vaddr / pageSize = vaddr / pageSize ∧
        regionPages (nextAddr vaddr) n = regionPages vaddr (n + 1) ∨
      regionPages (nextAddr vaddr) n + 1 = regionPages vaddr (n + 1) := by
  unfold regionPages divRoundUp nextAddr pageSize
  rcases Nat.lt_or_ge (vaddr % 128) 127 with hlt | hge
  · left
    have hmod : (vaddr + 1) % 2 ^ 32 % 128 = vaddr % 128 + 1 := by omega
    rw [hmod, Nat.add_assoc, Nat.add_comm 1 n]
    exact ⟨by omega, rfl⟩
  · right
    have hmod : (vaddr + 1) % 2 ^ 32 % 128 = 0 := by omega
    have hlast : vaddr % 128 = 127 := by omega
    rw [hmod, hlast]
    split <;> split <;> omega

theorem regionPages_pos (vaddr n : ℕ) : 0 < regionPages vaddr (n + 1) := by
  unfold regionPages divRoundUp pageSize
  split <;> omega

/-- **`copyin` of a region in the address space returns**, given room for its pages. A
page already in memory needs none. -/
theorem copyin_returns {n : ℕ} (rand : ℕ → ℕ) (buf : List UInt8) (hinv : Inv none s)
    (hcur : s.current = some (pid, tid))
    (hp : s.processTable.get pid = some p) (hva : vaddr < 2 ^ 32)
    (hn : (len - buf.length).toNat = n)
    (hin : ∀ i < n, p.space.Contains (regionAddr vaddr i))
    (hroom : regionPages vaddr n ≤ s.room ∨ regionPages vaddr n ≤ s.room + 1 ∧
      ∃ x e, s.page pid (vaddr / pageSize) = some (x, e) ∧ e.valid = true) :
    ∃ calls ≤ 6 * n, ∃ t rv buf', copyin pid len calls rand s vaddr buf = .returned t rv buf' := by
  -- on the bytes that are missing
  induction n generalizing rand s vaddr buf p with
  | zero =>
      refine ⟨0, Nat.zero_le _, s, len, buf, copyin_done ?_⟩
      omega
  | succ n ih =>
      have hlt : (buf.length : ℤ) < len := by omega
      have hfirst := hin 0 (Nat.succ_pos n)
      rw [regionAddr_zero hva] at hfirst
      have hpage := page_of_contains hp hfirst
      have hpos := regionPages_pos vaddr n
      obtain ⟨k, hk, t, e', ⟨b, hcopy⟩, hf, hpt, hv', hleft⟩ :=
        copiesByte rand hinv hcur hp hlt hpage (by
          intro hv
          rcases hroom with hroom | ⟨-, x, e, hpage', hv'⟩
          · omega
          · rw [hpage] at hpage'
            simp only [Option.some.injEq, Prod.mk.injEq] at hpage'
            rw [hpage'.2, hv'] at hv
            cases hv)
      obtain ⟨q, hq, hnum⟩ := hf.get hp
      have hroom' : regionPages vaddr (n + 1) ≤ t.room + 1 := by
        rcases hroom with hroom | ⟨hroom, x, e, hpage', hv⟩
        · split at hleft <;> omega
        · rw [hpage] at hpage'
          simp only [Option.some.injEq, Prod.mk.injEq] at hpage'
          rw [hpage'.2, hv, if_pos rfl] at hleft
          omega
      obtain ⟨calls, hcalls, u, rv, buf', hret⟩ :=
        ih (fun i => rand (i + k)) (buf ++ [b]) hf.inv (hf.current.trans hcur) hq
          (nextAddr_lt vaddr)
          (by simp only [List.length_append, List.length_singleton]; omega)
          (by
            intro i hi
            rw [regionAddr_next, AddrSpace.Contains, hnum]
            exact hin (i + 1) (Nat.succ_lt_succ hi))
          (by
            rcases regionPages_next hva n with ⟨hsame, heq⟩ | heq
            · right
              rw [hsame, heq]
              exact ⟨hroom', _, _, hpt, hv'⟩
            · left
              omega)
      exact ⟨calls + k, by omega, u, rv, buf', (hcopy calls).trans hret⟩

end CopyIn

/-! ## The contract of copyin -/

/-- **The contract of `copyin`**: after finitely many calls of `ReadMem` it returns `len`
with the bytes of the region, or `-1` when one of them is outside of the address
space. Memory does not change. -/
def CopyinMeets (s : Vm) (pid : ℤ) (space : AddrSpace) (vaddr : ℕ) (len : ℤ) (rand : ℕ → ℕ) : Prop :=
  ∃ calls t rv buf, copyin pid len calls rand s vaddr [] = .returned t rv buf ∧
    t.memory = s.memory ∧
    ((∀ i < len.toNat, space.Contains (regionAddr vaddr i)) →
      rv = len ∧ buf.map some = s.region pid vaddr len.toNat) ∧
    ((∃ i < len.toNat, ¬ space.Contains (regionAddr vaddr i)) → rv = -1)

section Contract

variable {s : Vm} {pid len : ℤ} {tid vaddr : ℕ} {p : Process} {rand : ℕ → ℕ} {buf : List UInt8}

/-- A region that is copied lies in the address space. -/
theorem copyin_inside {calls : ℕ} {t : Vm} {rv : ℤ} (hinv : Inv none s)
    (hcur : s.current = some (pid, tid)) (hp : s.processTable.get pid = some p)
    (hva : vaddr < 2 ^ 32) (hret : copyin pid len calls rand s vaddr [] = .returned t rv buf) :
    ∀ i < len.toNat, p.space.Contains (regionAddr vaddr i) := by
  intro i hi
  obtain ⟨-, -, hbuf⟩ := copyin_returned hinv hcur hp hva hret
  -- the buffer has a byte for every address of the region
  have hget : (buf.map some)[i]? = some (s.byte pid (regionAddr vaddr i)) := by
    rw [hbuf, List.length_nil, Int.natCast_zero, Int.sub_zero, List.map_nil, List.nil_append,
      Vm.region, List.getElem?_map, List.getElem?_range hi, Option.map_some]
  rw [List.getElem?_map] at hget
  obtain ⟨b, -, hb⟩ := Option.map_eq_some_iff.mp hget
  rw [← byte_isSome hp, ← hb]
  rfl

/-- **Outside of the address space** `copyin` goes on forever. -/
theorem copyin_outside (hinv : Inv none s) (hcur : s.current = some (pid, tid))
    (hp : s.processTable.get pid = some p) (hout : ¬ p.space.Contains vaddr)
    (hlt : (buf.length : ℤ) < len) (calls : ℕ) :
    copyin pid len calls rand s vaddr buf = .running s vaddr buf := by
  induction calls generalizing rand with
  | zero => exact copyin_zero hlt
  | succ calls ih =>
      rcases translate_read hinv hcur (aligned_byte vaddr) with ⟨frame, htr⟩ | ⟨htr, -⟩
      · obtain ⟨-, x, e, hpage, -⟩ := translate_ok hinv hcur htr
        exact absurd (contains_of_page hp hpage) hout
      · rw [copyin_retry hlt (readMem_fault htr (pageFault_outside hinv hp hout))]
        exact ih

end Contract

theorem bootSample_get : bootSample.processTable.get 0 = some (.create sampleProgram) :=
  (boot_cases ..).1

theorem bootSample_room : bootSample.room = numPhysPages + swapFileMaxPages := by
  have hnone : ∀ n, BitMap.numClear (fun _ => false) n = n := by
    intro n
    rw [BitMap.numClear_eq]
    simp
  exact congrArg₂ (· + ·) (hnone _) (hnone _)

/-- The TLB entry of a page: the first valid one. -/
def Vm.tlbEntry (s : Vm) (vpn : ℕ) : Option TranslationEntry :=
  ((List.range tlbSize).find? fun i => (s.tlb i).valid && (s.tlb i).virtualPage == vpn).map s.tlb

/-- The page of the address is in the TLB and may be written to. -/
def Vm.Writable (s : Vm) (a : ℕ) : Prop := ∃ e ∈ s.tlbEntry (a / pageSize), e.readOnly = false

instance (s : Vm) (a : ℕ) : Decidable (s.Writable a) :=
  inferInstanceAs (Decidable (∃ e ∈ s.tlbEntry (a / pageSize), _))

section CopyOut

variable {s t : Vm} {pid : ℤ} {tid vaddr a rand n frame : ℕ} {b : UInt8} {buf : List UInt8}

/-- A write goes through exactly when its page is in the TLB and writable. -/
theorem translate_writable (hinv : Inv none s) (hcur : s.current = some (pid, tid)) :
    (∃ frame, translate s a 1 true = .ok frame) ↔ s.Writable a := by
  unfold translate Vm.Writable Vm.tlbEntry
  rw [if_neg (not_not.mpr (aligned_byte a))]
  cases hi : (List.range tlbSize).find? fun i =>
      (s.tlb i).valid && (s.tlb i).virtualPage == a / pageSize with
  | none => simp
  | some i =>
      have hlt := List.mem_range.mp (List.mem_of_find?_eq_some hi)
      have hpred := List.find?_some hi
      simp only [Bool.and_eq_true, beq_iff_eq] at hpred
      obtain ⟨x, e, hp, hv, heq⟩ := hinv.tlb hcur hlt hpred.1
      have hframe := (hinv.resident hp hv).1
      rw [heq] at hframe
      simp only [Bool.and_true, Option.map_some, Option.mem_def, Option.some.injEq,
        exists_eq_left']
      cases hro : (s.tlb i).readOnly with
      | true => simp
      | false =>
          rw [if_neg (by simp), if_neg (Nat.not_le.mpr hframe)]
          simp

/-- What can be written can be read. -/
theorem translate_of_writable (h : translate s a 1 true = .ok frame) :
    translate s a 1 false = .ok frame := by
  unfold translate at h ⊢
  split at h
  · cases h
  · rename_i hal
    rw [if_neg hal]
    split at h
    · cases h
    · split at h
      · cases h
      · rw [Bool.and_false, if_neg (by simp)]
        exact h

theorem writeMem_ok (h : translate s vaddr 1 true = .ok frame) :
    writeMem s pid vaddr b rand = some (writeBytes s frame vaddr [b], true) := by
  rw [writeMem, h]

/-- `WriteMem` returns true only after it has written. -/
theorem writeMem_true (h : writeMem s pid vaddr b rand = some (t, true)) :
    ∃ frame, translate s vaddr 1 true = .ok frame ∧ t = writeBytes s frame vaddr [b] := by
  unfold writeMem at h
  split at h
  · rename_i frame htr
    simp only [Option.some.injEq, Prod.mk.injEq] at h
    exact ⟨frame, htr, h.1.symm⟩
  · obtain ⟨u, -, heq⟩ := Option.map_eq_some_iff.mp h
    cases (Prod.mk.inj heq).2
  · cases h

/-- **One byte written**: the byte is there, no other has changed, and the TLB is as it
was. -/
theorem Inv.writeByte (hinv : Inv none s) (hcur : s.current = some (pid, tid))
    (htr : translate s vaddr 1 true = .ok frame) (b : UInt8) :
    Inv none (writeBytes s frame vaddr [b]) ∧ ∀ pid' a,
      (writeBytes s frame vaddr [b]).byte pid' a =
        if pid' = pid ∧ a = vaddr then some b else s.byte pid' a := by
  obtain ⟨-, x, e, hpage, hv, rfl⟩ := translate_ok hinv hcur htr
  exact ⟨hinv.write hpage hv _, byte_write hinv hpage hv b⟩

/-- The addresses of a region are different. -/
theorem regionAddr_ne {i : ℕ} (hi : i + 1 < 2 ^ 32) :
    regionAddr (nextAddr vaddr) i ≠ vaddr := by
  unfold regionAddr nextAddr
  omega

/-- **What `copyout` has done when it returns the number of bytes.** Every page was in
the TLB, the region has the bytes of the buffer, and no other byte has changed. -/
theorem copyout_some (hinv : Inv none s) (hcur : s.current = some (pid, tid))
    (hva : vaddr < 2 ^ 32) (hlen : buf.length < 2 ^ 32)
    (h : copyout pid rand buf n vaddr s = some (t, ((n + buf.length : ℕ) : ℤ))) :
    Inv none t ∧ t.tlb = s.tlb ∧ t.current = s.current ∧ t.processTable = s.processTable ∧
      (∀ i < buf.length, s.Writable (regionAddr vaddr i)) ∧
      t.region pid vaddr buf.length = buf.map some ∧
      ∀ pid' a, (pid' = pid → ∀ i < buf.length, a ≠ regionAddr vaddr i) →
        t.byte pid' a = s.byte pid' a := by
  induction buf generalizing s vaddr n with
  | nil =>
      obtain ⟨rfl, -⟩ := Prod.mk.inj (Option.some.inj h)
      exact ⟨hinv, rfl, rfl, rfl, fun i hi => absurd hi (Nat.not_lt_zero i), rfl,
        fun _ _ _ => rfl⟩
  | cons b buf ih =>
      rw [List.length_cons] at hlen h ⊢
      rw [copyout] at h
      split at h
      · cases h
      · rename_i u hu
        obtain ⟨frame, htr, rfl⟩ := writeMem_true hu
        obtain ⟨hinv', hbyte⟩ := hinv.writeByte hcur htr b
        have hn : n + 1 + buf.length = n + (buf.length + 1) := by omega
        rw [← hn] at h
        obtain ⟨hinvt, htlb, hcurt, htable, hwritable, hregion, hother⟩ :=
          ih hinv' hcur (nextAddr_lt vaddr) (by omega) h
        refine ⟨hinvt, htlb, hcurt, htable, ?_, ?_, ?_⟩
        · intro i hi
          cases i with
          | zero =>
              rw [regionAddr_zero hva]
              exact (translate_writable hinv hcur).mp ⟨frame, htr⟩
          | succ i =>
              rw [← regionAddr_next]
              exact hwritable i (Nat.lt_of_succ_lt_succ hi)
        · -- the bytes written later are others
          have hfirst : t.byte pid vaddr = some b := by
            rw [hother pid vaddr fun _ i hi => (regionAddr_ne (by omega)).symm, hbyte,
              if_pos ⟨rfl, rfl⟩]
          rw [region_succ hva, hfirst, hregion, List.map_cons]
        · intro pid' a ha
          have hne : ¬ (pid' = pid ∧ a = vaddr) := by
            rintro ⟨hpid, haddr⟩
            refine ha hpid 0 (Nat.succ_pos _) ?_
            rw [regionAddr_zero hva, haddr]
          rw [hother pid' a fun hpid i hi => ?_, hbyte, if_neg hne]
          rw [regionAddr_next]
          exact ha hpid (i + 1) (Nat.succ_lt_succ hi)
      · have hneg := (Prod.mk.inj (Option.some.inj h)).2
        omega

/-- **`copyout` to pages in the TLB** copies everything. -/
theorem copyout_of_writable (rand n : ℕ) (hinv : Inv none s) (hcur : s.current = some (pid, tid))
    (hva : vaddr < 2 ^ 32) (h : ∀ i < buf.length, s.Writable (regionAddr vaddr i)) :
    ∃ t, copyout pid rand buf n vaddr s = some (t, ((n + buf.length : ℕ) : ℤ)) := by
  induction buf generalizing s vaddr n with
  | nil => exact ⟨s, rfl⟩
  | cons b buf ih =>
      rw [List.length_cons] at h ⊢
      have hfirst := h 0 (Nat.succ_pos _)
      rw [regionAddr_zero hva] at hfirst
      obtain ⟨frame, htr⟩ := (translate_writable hinv hcur).mpr hfirst
      obtain ⟨hinv', -⟩ := hinv.writeByte hcur htr b
      obtain ⟨t, ht⟩ := ih (n + 1) hinv' hcur (nextAddr_lt vaddr) fun i hi => by
        rw [regionAddr_next]
        exact h (i + 1) (Nat.succ_lt_succ hi)
      refine ⟨t, ?_⟩
      rw [copyout, writeMem_ok htr]
      dsimp only
      rw [ht]
      congr 3
      omega

/-- **`copyin` from pages in the TLB** needs one call for each byte. -/
theorem copyin_of_writable {len : ℤ} (rand : ℕ → ℕ) (buf : List UInt8) (hinv : Inv none s)
    (hcur : s.current = some (pid, tid)) (hva : vaddr < 2 ^ 32)
    (hn : (len - buf.length).toNat = n) (h : ∀ i < n, s.Writable (regionAddr vaddr i)) :
    ∃ rv buf', copyin pid len n rand s vaddr buf = .returned s rv buf' := by
  induction n generalizing rand vaddr buf with
  | zero => exact ⟨len, buf, copyin_done (by omega)⟩
  | succ n ih =>
      have hfirst := h 0 (Nat.succ_pos _)
      rw [regionAddr_zero hva] at hfirst
      obtain ⟨frame, htr⟩ := (translate_writable hinv hcur).mpr hfirst
      rw [copyin_next (by omega) (readMem_ok (translate_of_writable htr))]
      apply ih _ _ (nextAddr_lt vaddr)
      · simp only [List.length_append, List.length_singleton]
        omega
      · intro i hi
        rw [regionAddr_next]
        exact h (i + 1) (Nat.succ_lt_succ hi)

end CopyOut

/-- **The round trip**: `copyout` returns the number of bytes, `copyin` then reads the
same bytes back, and no byte outside of the region has changed. -/
def CopyRoundTrip (s : Vm) (pid : ℤ) (vaddr : ℕ) (buf : List UInt8) (rand : ℕ) (rands : ℕ → ℕ) :
    Prop :=
  ∃ t, copyout pid rand buf 0 vaddr s = some (t, (buf.length : ℤ)) ∧
    ∃ calls u, copyin pid buf.length calls rands t vaddr [] = .returned u buf.length buf ∧
      ∀ pid' a, (pid' = pid → ∀ i < buf.length, a ≠ regionAddr vaddr i) →
        u.byte pid' a = s.byte pid' a

/-- **When the round trip succeeds**: exactly if all pages of the region are in the TLB,
writable, when `copyout` starts. -/
theorem copy_round_trip_iff {s : Vm} {pid : ℤ} {tid vaddr rand : ℕ} {p : Process}
    {buf : List UInt8} {rands : ℕ → ℕ} (hinv : Inv none s) (hcur : s.current = some (pid, tid))
    (hp : s.processTable.get pid = some p) (hva : vaddr < 2 ^ 32)
    (hlen : buf.length < 2 ^ 31) :
    CopyRoundTrip s pid vaddr buf rand rands ↔
      ∀ i < buf.length, s.Writable (regionAddr vaddr i) := by
  have hlen' : buf.length < 2 ^ 32 := Nat.lt_trans hlen (by decide)
  constructor
  · rintro ⟨t, ht, -⟩
    exact (copyout_some (n := 0) hinv hcur hva hlen' (by rwa [Nat.zero_add])).2.2.2.2.1
  · intro hwritable
    obtain ⟨t, ht⟩ := copyout_of_writable rand 0 hinv hcur hva hwritable
    obtain ⟨hinvt, htlb, hcurt, htable, -, hregion, hother⟩ := copyout_some hinv hcur hva hlen' ht
    rw [Nat.zero_add] at ht
    -- the TLB is as it was, so that nothing faults
    have hwritable' : ∀ i < buf.length, t.Writable (regionAddr vaddr i) := by
      intro i hi
      unfold Vm.Writable Vm.tlbEntry
      rw [htlb]
      exact hwritable i hi
    have hfresh : ((buf.length : ℤ) - ([] : List UInt8).length).toNat = buf.length := by simp
    obtain ⟨rv, buf', hret⟩ :=
      copyin_of_writable rands [] hinvt (hcurt.trans hcur) hva hfresh hwritable'
    obtain ⟨rfl, -, hbuf⟩ := copyin_returned hinvt (hcurt.trans hcur)
      ((congrArg (Table.get · pid) htable).trans hp) hva hret
    have hsame : buf' = buf := by
      have hinj : Function.Injective (List.map (some : UInt8 → Option UInt8)) :=
        List.map_injective_iff.mpr (Option.some_injective _)
      apply hinj
      rw [hbuf, hfresh, hregion]
      rfl
    subst hsame
    exact ⟨t, ht, _, t, hret, hother⟩

/-- A page in the TLB: the process has just written to it. -/
theorem copy_round_trip_iff_sample :
    ∃ s, CopyRoundTrip s 0 2 [7, 8] 0 (fun _ => 0) := by
  have hp : (step bootSample (.write 0 [1] 0)).map (fun r => (r.1.current,
      decide (r.1.Writable 2 ∧ r.1.Writable 3))) = some (some (0, 0), true) := by
    decide +kernel
  obtain ⟨⟨s, ev⟩, hs, heq⟩ := Option.map_eq_some_iff.mp hp
  obtain ⟨hcur, hwritable⟩ := Prod.mk.inj heq
  have hinv : Inv none s := (Inv.boot ..).step (by rintro ⟨⟩) hs
  have hget : ∃ p, s.processTable.get 0 = some p := by
    cases Step.of_step hs with
    | write hcur' ha =>
        obtain ⟨rfl, rfl⟩ := Prod.mk.inj (Option.some.inj hcur')
        obtain ⟨q, hq, -⟩ := (access_some (.boot ..) hcur' ha).1.get bootSample_get
        exact ⟨q, hq⟩
  obtain ⟨p, hget⟩ := hget
  have hboth := of_decide_eq_true hwritable
  refine ⟨s, (copy_round_trip_iff hinv hcur hget (by decide) (by decide)).mpr ?_⟩
  intro i hi
  match i, hi with
  | 0, _ => exact hboth.1
  | 1, _ => exact hboth.2

/-- **The first page of a process that has touched nothing.** `copyout` gives up at the
fault, `copyin` does not. -/
theorem copyout_gives_up :
    (AddrSpace.create sampleProgram).Contains 2 ∧
      (∃ t, copyout 0 0 [7] 0 2 bootSample = some (t, -1)) ∧
      (∃ t, copyin 0 1 3 (fun _ => 0) bootSample 2 [] = .returned t 1 [3]) ∧
      ¬ CopyRoundTrip bootSample 0 2 [7] 0 (fun _ => 0) := by
  have hout : ∃ t, copyout 0 0 [7] 0 2 bootSample = some (t, -1) := by
    have hp : (copyout 0 0 [7] 0 2 bootSample).map Prod.snd = some (-1) := by decide +kernel
    obtain ⟨⟨t, rv⟩, ht, hrv⟩ := Option.map_eq_some_iff.mp hp
    obtain rfl : rv = -1 := hrv
    exact ⟨t, ht⟩
  have hin : ∃ t, copyin 0 1 3 (fun _ => 0) bootSample 2 [] = .returned t 1 [3] := by
    have hp : (match copyin 0 1 3 (fun _ => 0) bootSample 2 [] with
        | .returned _ rv buf => some (rv, buf)
        | _ => none) = some (1, [3]) := by
      decide +kernel
    split at hp
    · rename_i t rv buf hret
      obtain ⟨rfl, rfl⟩ := Prod.mk.inj (Option.some.inj hp)
      exact ⟨t, hret⟩
    · cases hp
  refine ⟨by decide, hout, hin, ?_⟩
  rintro ⟨t, ht, -⟩
  obtain ⟨u, hu⟩ := hout
  rw [hu] at ht
  cases (Prod.mk.inj (Option.some.inj ht)).2

end Nachos.VM
