import Nachos.Machine.Registers

/-!
# One instruction

`Machine::OneInstruction`, from the word fetched to the next program counter. An
`int` of the simulator is a word of 32 bits, and its arithmetic is that of two's
complement.

An instruction that raises an exception returns before it has assigned anything;
the exception finishes a delayed load and leaves the rest of the registers as they
were. What an instruction assigns on its way to the end is its `Effect`.

Memory is the virtual memory of the running process. Which of its accesses are
translated is up to the environment.
-/

namespace Nachos.Machine

/-- An `int` of the simulator. -/
abbrev Word : Type := BitVec 32

/-! ## Instructions -/

inductive OpCode where
  | add | addi | addiu | addu | and | andi
  | beq | bgez | bgezal | bgtz | blez | bltz | bltzal | bne
  | div | divu | j | jal | jalr | jr
  | lb | lbu | lh | lhu | lui | lw | lwl | lwr
  | mfhi | mflo | mthi | mtlo | mult | multu | nor | or | ori
  | sb | sh | sll | sllv | slt | slti | sltiu | sltu | sra | srav | srl | srlv
  | sub | subu | sw | swl | swr | syscall | xor | xori | res | unimp
deriving DecidableEq, Repr

/-- `IFMT`, `JFMT` and `RFMT`. -/
inductive Format where
  | ifmt
  | jfmt
  | rfmt
deriving DecidableEq, Repr

/-- What the first table has for an instruction: its code, or the way to it. -/
inductive TableCode where
  | op (opCode : OpCode)
  | special
  | bcond
deriving DecidableEq, Repr

def opTable : List (TableCode × Format) :=
  [(.special, .rfmt), (.bcond, .ifmt), (.op .j, .jfmt), (.op .jal, .jfmt),
    (.op .beq, .ifmt), (.op .bne, .ifmt), (.op .blez, .ifmt), (.op .bgtz, .ifmt),
    (.op .addi, .ifmt), (.op .addiu, .ifmt), (.op .slti, .ifmt), (.op .sltiu, .ifmt),
    (.op .andi, .ifmt), (.op .ori, .ifmt), (.op .xori, .ifmt), (.op .lui, .ifmt),
    (.op .unimp, .ifmt), (.op .unimp, .ifmt), (.op .unimp, .ifmt), (.op .unimp, .ifmt),
    (.op .res, .ifmt), (.op .res, .ifmt), (.op .res, .ifmt), (.op .res, .ifmt),
    (.op .res, .ifmt), (.op .res, .ifmt), (.op .res, .ifmt), (.op .res, .ifmt),
    (.op .res, .ifmt), (.op .res, .ifmt), (.op .res, .ifmt), (.op .res, .ifmt),
    (.op .lb, .ifmt), (.op .lh, .ifmt), (.op .lwl, .ifmt), (.op .lw, .ifmt),
    (.op .lbu, .ifmt), (.op .lhu, .ifmt), (.op .lwr, .ifmt), (.op .res, .ifmt),
    (.op .sb, .ifmt), (.op .sh, .ifmt), (.op .swl, .ifmt), (.op .sw, .ifmt),
    (.op .res, .ifmt), (.op .res, .ifmt), (.op .swr, .ifmt), (.op .res, .ifmt),
    (.op .unimp, .ifmt), (.op .unimp, .ifmt), (.op .unimp, .ifmt), (.op .unimp, .ifmt),
    (.op .res, .ifmt), (.op .res, .ifmt), (.op .res, .ifmt), (.op .res, .ifmt),
    (.op .unimp, .ifmt), (.op .unimp, .ifmt), (.op .unimp, .ifmt), (.op .unimp, .ifmt),
    (.op .res, .ifmt), (.op .res, .ifmt), (.op .res, .ifmt), (.op .res, .ifmt)]

def specialTable : List OpCode :=
  [.sll, .res, .srl, .sra, .sllv, .res, .srlv, .srav,
    .jr, .jalr, .res, .res, .syscall, .unimp, .res, .res,
    .mfhi, .mthi, .mflo, .mtlo, .res, .res, .res, .res,
    .mult, .multu, .div, .divu, .res, .res, .res, .res,
    .add, .addu, .sub, .subu, .and, .or, .xor, .nor,
    .res, .res, .slt, .sltu, .res, .res, .res, .res,
    .res, .res, .res, .res, .res, .res, .res, .res,
    .res, .res, .res, .res, .res, .res, .res, .res]

/-- `Instruction`. The registers are general ones. -/
structure Instruction where
  opCode : OpCode
  rs : Fin numGPRegs
  rt : Fin numGPRegs
  rd : Fin numGPRegs
  extra : Word
deriving DecidableEq, Repr

/-- The register whose number stands at bit `k` of an instruction. -/
def regField (value : Word) (k : ℕ) : Fin numGPRegs :=
  ⟨((value >>> k) &&& 0x1f).toNat, by
    rw [BitVec.toNat_and]
    exact Nat.lt_of_le_of_lt Nat.and_le_right (by decide)⟩

/-- `extra`, which depends on the format: an immediate with its sign, a number of bits
to shift by, or the target of a jump. -/
def extraField (value : Word) : Format → Word
  | .ifmt =>
      let extra := value &&& 0xffff
      if extra &&& 0x8000 ≠ 0 then extra ||| 0xffff0000 else extra
  | .rfmt => (value >>> 6) &&& 0x1f
  | .jfmt => value &&& 0x3ffffff

/-- The instruction under `BCOND`. -/
def bcondCode (i : Word) : OpCode :=
  if i = 0 then .bltz
  else if i = 0x10000 then .bgez
  else if i = 0x100000 then .bltzal
  else if i = 0x110000 then .bgezal
  else .unimp

/-- `Instruction::Decode`. -/
def decode (value : Word) : Instruction :=
  let entry := opTable.getD ((value >>> 26) &&& 0x3f).toNat (.op .res, .ifmt)
  let opCode :=
    match entry.1 with
    | .op o => o
    | .special => specialTable.getD (value &&& 0x3f).toNat .res
    | .bcond => bcondCode (value &&& 0x1f0000)
  ⟨opCode, regField value 21, regField value 16, regField value 11, extraField value entry.2⟩

/-! ## Exceptions and memory -/

inductive ExceptionType where
  | syscall
  | pageFault
  | readOnly
  | busError
  | addressError
  | overflow
  | illegalInstr
deriving DecidableEq, Repr

/-- How an instruction ends early: with an exception, or with the simulator, at an
`ASSERT` or in a division that the host cannot do. -/
inductive Trap where
  | raise (which : ExceptionType) (badVAddr : Word)
  | abort
deriving DecidableEq, Repr

abbrev Memory : Type := Word → BitVec 8

/-- The accesses of an instruction. -/
inductive Access where
  | fetch
  | read
  | write
deriving DecidableEq, Repr

/-- What `Translate` answers for an access to an address, of some size, once the alignment
is checked. -/
abbrev Translation : Type := Access → Word → ℕ → Except Trap Unit

/-- The value that `ReadMem` returns. A single byte is a `char`. -/
def Memory.value (m : Memory) (addr : Word) (size : ℕ) : Word :=
  if size = 1 then (m addr).signExtend 32
  else if size = 2 then (m (addr + 1) ++ m addr).setWidth 32
  else m (addr + 3) ++ m (addr + 2) ++ m (addr + 1) ++ m addr

/-- The bytes that `WriteMem` stores. -/
def Memory.store (m : Memory) (addr : Word) (size : ℕ) (value : Word) : Memory :=
  fun a =>
    if (a - addr).toNat < size then value.extractLsb' (8 * (a - addr).toNat) 8 else m a

/-- `Translate` checks the alignment first. -/
def translate (tlb : Translation) (access : Access) (addr : Word) (size : ℕ) :
    Except Trap Unit :=
  if (size = 4 ∧ addr &&& 3 ≠ 0) ∨ (size = 2 ∧ addr &&& 1 ≠ 0) then
    .error (.raise .addressError addr)
  else tlb access addr size

def readMem (tlb : Translation) (access : Access) (m : Memory) (addr : Word) (size : ℕ) :
    Except Trap Word :=
  (translate tlb access addr size).map fun _ => m.value addr size

def writeMem (tlb : Translation) (m : Memory) (addr : Word) (size : ℕ) (value : Word) :
    Except Trap Memory :=
  (translate tlb .write addr size).map fun _ => m.store addr size value

/-! ## Multiplication -/

/-- The loop of `Mult`, with `n` rounds left. A right shift of `a` is one of an `int`. -/
def multLoop : (n : ℕ) → (a bLo bHi lo hi : Word) → Word × Word
  | 0, _, _, _, lo, hi => (hi, lo)
  | n + 1, a, bLo, bHi, lo, hi =>
      let odd := a &&& 1 ≠ 0
      let lo' := if odd then lo + bLo else lo
      let hi' := if odd then (if lo' < bLo then hi + 1 else hi) + bHi else hi
      if odd ∧ a &&& 0xfffffffe = 0 then (hi', lo')
      else
        multLoop n (a.sshiftRight 1) (bLo <<< 1)
          ((bHi <<< 1) ||| (if bLo &&& 0x80000000 ≠ 0 then 1 else 0)) lo' hi'

/-- `Mult`: the high and the low word of the product. -/
def mult (a b : Word) (signedArith : Bool) : Word × Word :=
  if a = 0 ∨ b = 0 then (0, 0)
  else
    let negative := signedArith && (a.slt 0 ^^ b.slt 0)
    let a := if signedArith && a.slt 0 then -a else a
    let b := if signedArith && b.slt 0 then -b else b
    let (hi, lo) := multLoop 32 a b 0 0 0
    if negative then
      let lo' := ~~~lo + 1
      (if lo' = 0 then ~~~hi + 1 else ~~~hi, lo')
    else (hi, lo)

/-! ## Execution -/

/-- A general register among all registers. -/
def gpr (n : Fin numGPRegs) : Reg := n.castLE (by decide)

/-- What an instruction assigns: registers, in this order, the next-but-one program
counter, and the load that it delays. -/
structure Effect where
  writes : List (Reg × Word)
  pcAfter : Word
  nextLoadReg : Word
  nextLoadValue : Word
  memory : Memory

def signBit : Word := 0x80000000

/-- `IndexToAddr`. -/
def indexToAddr (x : Word) : Word := x <<< 2

/-- The number of a register as it is kept in `LoadReg`. -/
def regNumber (n : Fin numGPRegs) : Word := BitVec.ofNat 32 n.val

/-- `?:` with the numbers 1 and 0. -/
def flag (b : Bool) : Word := if b then 1 else 0

/-- The `switch` of `OneInstruction`. Of `LWL`, `LWR`, `SWL` and `SWR` only the case of an
aligned address is ever reached. -/
def execute (i : Instruction) (tlb : Translation) (r : Registers) (m : Memory) :
    Except Trap Effect :=
  let rs := r (gpr i.rs)
  let rt := r (gpr i.rt)
  let pcAfter := r nextPCReg + 4
  let effect : Effect := ⟨[], pcAfter, 0, 0, m⟩
  let assign (reg : Reg) (value : Word) : Except Trap Effect :=
    .ok { effect with writes := [(reg, value)] }
  let branch (taken : Bool) : Effect :=
    if taken then { effect with pcAfter := r nextPCReg + indexToAddr i.extra } else effect
  let link (e : Effect) (reg : Reg) : Effect := { e with writes := [(reg, r nextPCReg + 4)] }
  let load (value : Word) : Except Trap Effect :=
    .ok { effect with nextLoadReg := regNumber i.rt, nextLoadValue := value }
  let store (size : ℕ) : Except Trap Effect :=
    match writeMem tlb m (rs + i.extra) size rt with
    | .ok m => .ok { effect with memory := m }
    | .error t => .error t
  match i.opCode with
  | .add =>
      let sum := rs + rt
      if (rs ^^^ rt) &&& signBit = 0 ∧ (rs ^^^ sum) &&& signBit ≠ 0 then
        .error (.raise .overflow 0)
      else assign (gpr i.rd) sum
  | .addi =>
      let sum := rs + i.extra
      if (rs ^^^ i.extra) &&& signBit = 0 ∧ (i.extra ^^^ sum) &&& signBit ≠ 0 then
        .error (.raise .overflow 0)
      else assign (gpr i.rt) sum
  | .addiu => assign (gpr i.rt) (rs + i.extra)
  | .addu => assign (gpr i.rd) (rs + rt)
  | .and => assign (gpr i.rd) (rs &&& rt)
  | .andi => assign (gpr i.rt) (rs &&& (i.extra &&& 0xffff))
  | .beq => .ok (branch (rs == rt))
  | .bgezal =>
      -- `R31` is assigned before `rs` is looked at
      let rs := if gpr i.rs = retAddrReg then r nextPCReg + 4 else rs
      .ok (link (branch (rs &&& signBit == 0)) retAddrReg)
  | .bgez => .ok (branch (rs &&& signBit == 0))
  | .bgtz => .ok (branch (BitVec.slt 0 rs))
  | .blez => .ok (branch (BitVec.sle rs 0))
  | .bltzal =>
      let rs := if gpr i.rs = retAddrReg then r nextPCReg + 4 else rs
      .ok (link (branch (rs &&& signBit != 0)) retAddrReg)
  | .bltz => .ok (branch (rs &&& signBit != 0))
  | .bne => .ok (branch (rs != rt))
  | .div =>
      if rt = 0 then .ok { effect with writes := [(loReg, 0), (hiReg, 0)] }
      -- the quotient is not an `int`
      else if rs = signBit ∧ rt = -1 then .error .abort
      else .ok { effect with writes := [(loReg, rs.sdiv rt), (hiReg, rs.srem rt)] }
  | .divu =>
      if rt = 0 then .ok { effect with writes := [(loReg, 0), (hiReg, 0)] }
      else .ok { effect with writes := [(loReg, rs / rt), (hiReg, rs % rt)] }
  | .j => .ok { effect with pcAfter := (pcAfter &&& 0xf0000000) ||| indexToAddr i.extra }
  | .jal =>
      .ok (link { effect with pcAfter := (pcAfter &&& 0xf0000000) ||| indexToAddr i.extra }
        retAddrReg)
  | .jalr =>
      -- `rd` is assigned before `rs` is looked at
      .ok (link { effect with pcAfter := if i.rs = i.rd then r nextPCReg + 4 else rs } (gpr i.rd))
  | .jr => .ok { effect with pcAfter := rs }
  | .lb | .lbu =>
      match readMem tlb .read m (rs + i.extra) 1 with
      | .ok value =>
          if value &&& 0x80 ≠ 0 ∧ i.opCode = .lb then load (value ||| 0xffffff00)
          else load (value &&& 0xff)
      | .error t => .error t
  | .lh | .lhu =>
      let tmp := rs + i.extra
      if tmp &&& 1 ≠ 0 then .error (.raise .addressError tmp)
      else
        match readMem tlb .read m tmp 2 with
        | .ok value =>
            if value &&& 0x8000 ≠ 0 ∧ i.opCode = .lh then load (value ||| 0xffff0000)
            else load (value &&& 0xffff)
        | .error t => .error t
  | .lui => assign (gpr i.rt) (i.extra <<< 16)
  | .lw =>
      let tmp := rs + i.extra
      if tmp &&& 3 ≠ 0 then .error (.raise .addressError tmp)
      else
        match readMem tlb .read m tmp 4 with
        | .ok value => load value
        | .error t => .error t
  | .lwl =>
      let tmp := rs + i.extra
      if tmp &&& 3 ≠ 0 then .error .abort
      else
        match readMem tlb .read m tmp 4 with
        | .ok value => load value
        | .error t => .error t
  | .lwr =>
      let tmp := rs + i.extra
      if tmp &&& 3 ≠ 0 then .error .abort
      else
        match readMem tlb .read m tmp 4 with
        | .ok value =>
            let old := if r loadReg = regNumber i.rt then r loadValueReg else rt
            load ((old &&& 0xffffff00) ||| (value.sshiftRight 24 &&& 0xff))
        | .error t => .error t
  | .mfhi => assign (gpr i.rd) (r hiReg)
  | .mflo => assign (gpr i.rd) (r loReg)
  | .mthi => assign hiReg rs
  | .mtlo => assign loReg rs
  | .mult =>
      let (hi, lo) := mult rs rt true
      .ok { effect with writes := [(hiReg, hi), (loReg, lo)] }
  | .multu =>
      let (hi, lo) := mult rs rt false
      .ok { effect with writes := [(hiReg, hi), (loReg, lo)] }
  | .nor => assign (gpr i.rd) (~~~(rs ||| rt))
  | .or => assign (gpr i.rd) (rs ||| rs)
  | .ori => assign (gpr i.rt) (rs ||| (i.extra &&& 0xffff))
  | .sb => store 1
  | .sh => store 2
  | .sll => assign (gpr i.rd) (rt <<< i.extra.toNat)
  | .sllv => assign (gpr i.rd) (rt <<< (rs &&& 0x1f).toNat)
  | .slt => assign (gpr i.rd) (flag (rs.slt rt))
  | .slti => assign (gpr i.rt) (flag (rs.slt i.extra))
  | .sltiu => assign (gpr i.rt) (flag (rs.ult i.extra))
  | .sltu => assign (gpr i.rd) (flag (rs.ult rt))
  | .sra => assign (gpr i.rd) (rt.sshiftRight i.extra.toNat)
  | .srav => assign (gpr i.rd) (rt.sshiftRight (rs &&& 0x1f).toNat)
  -- `tmp` is an `int`, and so these two are the same as the two before
  | .srl => assign (gpr i.rd) (rt.sshiftRight i.extra.toNat)
  | .srlv => assign (gpr i.rd) (rt.sshiftRight (rs &&& 0x1f).toNat)
  | .sub =>
      let diff := rs - rt
      if (rs ^^^ rt) &&& signBit ≠ 0 ∧ (rs ^^^ diff) &&& signBit ≠ 0 then
        .error (.raise .overflow 0)
      else assign (gpr i.rd) diff
  | .subu => assign (gpr i.rd) (rs - rt)
  | .sw => store 4
  | .swl | .swr =>
      let tmp := rs + i.extra
      if tmp &&& 3 ≠ 0 then .error .abort
      else
        match readMem tlb .read m tmp 4 with
        | .ok value =>
            let value :=
              if i.opCode = .swl then rt else (value &&& (0xffffff : Word)) ||| (rt <<< 24)
            match writeMem tlb m tmp 4 value with
            | .ok m => .ok { effect with memory := m }
            | .error t => .error t
        | .error t => .error t
  | .syscall => .error (.raise .syscall 0)
  | .xor => assign (gpr i.rd) (rs ^^^ rt)
  | .xori => assign (gpr i.rt) (rs ^^^ (i.extra &&& 0xffff))
  | .res | .unimp => .error (.raise .illegalInstr 0)

/-- The end of `OneInstruction`. -/
def finish (r : Registers) (e : Effect) : Registers :=
  let r : Registers := e.writes.foldl (fun r w => Function.update r w.1 w.2) r
  let r := r.delayedLoad e.nextLoadReg e.nextLoadValue
  let r := Function.update r prevPCReg (r pcReg)
  let r := Function.update r pcReg (r nextPCReg)
  Function.update r nextPCReg e.pcAfter

/-- `RaiseException`, up to the handler. -/
def raiseException (r : Registers) (badVAddr : Word) : Registers :=
  Registers.delayedLoad (Function.update r badVAddrReg badVAddr) 0 0

/-- What a call of `OneInstruction` comes to: the instruction is completed, or the handler
of an exception is called, or the simulator ends. -/
inductive Outcome where
  | completed (r : Registers) (m : Memory)
  | raised (which : ExceptionType) (r : Registers) (m : Memory)
  | aborted

/-- What the result of the `switch` comes to. -/
def conclude (r : Registers) (m : Memory) : Except Trap Effect → Outcome
  | .ok e => .completed (finish r e) e.memory
  | .error (.raise which badVAddr) => .raised which (raiseException r badVAddr) m
  | .error .abort => .aborted

/-- `OneInstruction`. -/
def oneInstruction (tlb : Translation) (r : Registers) (m : Memory) : Outcome :=
  match readMem tlb .fetch m (r pcReg) 4 with
  | .ok raw => conclude r m (execute (decode raw) tlb r m)
  | .error t => conclude r m (.error t)

end Nachos.Machine
