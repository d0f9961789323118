import Nachos.Lib.Run
import Nachos.Userprog.Table

/-!
# File descriptors

A process names its open files by their slots in the file table of its address
space. Slots 0 and 1 stand for the console: the constructor puts null pointers
there, so that no file gets one of these ids. `Close` takes any id, and a closed
console id is handed out by the next `Open`.

When `Write_Syscall` gets no buffer from `new char[len]`, nothing is copied; that
`Read_Syscall` then returns -1 at once is left out.

What a descriptor should mean is a plain map from ids to files: `Open` enters
the file it has opened, `Close` strikes out the id it is given. The map is
computed from the calls of the process alone.
-/

namespace Nachos.Userprog

open Nachos.Lib

/-! ## The calls -/

def consoleInput : ℤ := 0

def consoleOutput : ℤ := 1

def maxOpenFiles : ℕ := 256

/-- The file table, with a null pointer for a console, and the number of `OpenFile`s
made so far. An `OpenFile` is known by its number. -/
structure Files where
  fileTable : Table (Option ℕ)
  made : ℕ

/-- Where the bytes of a call come from or go to. -/
inductive Target where
  | console
  | file (n : ℕ)
  | nothing
deriving DecidableEq, Repr

namespace Files

/-- The constructor of `AddrSpace`: two calls of `fileTable.Put(0)`. -/
def create : Files := ⟨(((Table.empty maxOpenFiles).put none).2.put none).2, 0⟩

/-- `Open_Syscall`; `found` says that the name could be copied and the file system
opened the file. A file that finds no slot is deleted again. -/
def openSyscall (s : Files) (found : Bool) : Files × ℤ × Option ℕ :=
  if found then
    let (id, fileTable) := s.fileTable.put (some s.made)
    (⟨fileTable, s.made + 1⟩, id, if id = -1 then none else some s.made)
  else (s, -1, none)

/-- The pointer that `fileTable.Get(id)` returns. -/
def lookup (s : Files) (id : ℤ) : Option ℕ := (s.fileTable.get id).join

/-- `Write_Syscall`; `copied` says that the buffer could be copied from the user. -/
def writeSyscall (s : Files) (id : ℤ) (copied : Bool) : Target :=
  if id = consoleInput then .nothing
  else if copied = false then .nothing
  else if id = consoleOutput then .console
  else
    match s.lookup id with
    | some f => .file f
    | none => .nothing

/-- `Read_Syscall`. -/
def readSyscall (s : Files) (id : ℤ) : Target :=
  if id = consoleOutput then .nothing
  else if id = consoleInput then .console
  else
    match s.lookup id with
    | some f => .file f
    | none => .nothing

/-- `Close_Syscall`. -/
def closeSyscall (s : Files) (fd : ℤ) : Files :=
  { s with fileTable := (s.fileTable.remove fd).2 }

inductive Call where
  | open (found : Bool)
  | close (fd : ℤ)
  | read (id : ℤ)
  | write (id : ℤ) (copied : Bool)
deriving DecidableEq, Repr

/-- A call with what came of it. -/
inductive Event where
  | opened (id : ℤ) (file : Option ℕ)
  | closed (fd : ℤ)
  | read (id : ℤ) (source : Target)
  | written (id : ℤ) (copied : Bool) (target : Target)
deriving DecidableEq, Repr

def step (s : Files) (c : Call) : Option (Files × Event) :=
  match c with
  | .open found =>
      let (s, id, file) := s.openSyscall found
      some (s, .opened id file)
  | .close fd => some (s.closeSyscall fd, .closed fd)
  | .read id => some (s, .read id (s.readSyscall id))
  | .write id copied => some (s, .written id copied (s.writeSyscall id copied))

/-! ## What descriptors mean -/

/-- The map from ids to files after a call. -/
def bind (files : ℤ → Option ℕ) : Event → ℤ → Option ℕ
  | .opened id (some f) => Function.update files id (some f)
  | .closed fd => Function.update files fd none
  | _ => files

/-- The files that are open after the calls `tr`. -/
def openFiles (tr : List Event) : ℤ → Option ℕ := tr.foldl bind fun _ => none

theorem openFiles_snoc (tr : List Event) (ev : Event) :
    openFiles (tr ++ [ev]) = bind (openFiles tr) ev := by
  rw [openFiles, List.foldl_append]
  rfl

/-- **The call does what its descriptor says**, after the calls `tr`: `Open` returns
`-1` or an id that is free and no console, for a file of its own; what is read or
written through the id of an open file is read from or written to this file. -/
def Meant (tr : List Event) : Event → Prop
  | .opened id file =>
      (id = -1 ∧ file = none) ∨
        id ≠ consoleInput ∧ id ≠ consoleOutput ∧ openFiles tr id = none ∧
          ∃ f, file = some f ∧ ∀ id', Event.opened id' (some f) ∉ tr
  | .closed _ => True
  | .read id source => ∀ f, openFiles tr id = some f → source = .file f
  | .written id copied target =>
      ∀ f, openFiles tr id = some f → target = if copied then .file f else .nothing

/-- A file is opened only while no console has been closed. -/
def consolesOpen : List Event → Files → Call → Prop := fun tr _ c =>
  c = .open true → Event.closed consoleInput ∉ tr ∧ Event.closed consoleOutput ∉ tr

instance (tr : List Event) (s : Files) (c : Call) : Decidable (consolesOpen tr s c) :=
  inferInstanceAs (Decidable (_ → _ ∧ _))

/-! ## The table and the map -/

/-- The table holds the open files, and the slots of the consoles are empty once
they have been closed. -/
structure Tabled (tr : List Event) (s : Files) : Prop where
  size : s.fileTable.size = maxOpenFiles
  held : ∀ id, id ≠ consoleInput → id ≠ consoleOutput →
    s.fileTable.get id = (openFiles tr id).map some
  console : ∀ id, id = consoleInput ∨ id = consoleOutput → openFiles tr id = none ∧
    s.fileTable.get id = if Event.closed id ∈ tr then none else some none
  made : ∀ id f, Event.opened id (some f) ∈ tr → f < s.made

section Calls

variable {tr : List Event} {s : Files}

/-- A file is found through the id it was opened with. -/
theorem Tabled.lookup (h : Tabled tr s) {id : ℤ} {f : ℕ} (hf : openFiles tr id = some f) :
    id ≠ consoleInput ∧ id ≠ consoleOutput ∧ s.lookup id = some f := by
  have hne : ¬ (id = consoleInput ∨ id = consoleOutput) := by
    intro hc
    rw [(h.console id hc).1] at hf
    cases hf
  obtain ⟨hin, hout⟩ := not_or.mp hne
  refine ⟨hin, hout, ?_⟩
  rw [Files.lookup, h.held id hin hout, hf]
  rfl

/-- While both consoles are in the table a new file gets another slot. -/
theorem Tabled.put (h : Tabled tr s) (hcons : Event.closed consoleInput ∉ tr ∧
    Event.closed consoleOutput ∉ tr) {id : ℤ} {table : Table (Option ℕ)}
    (hput : s.fileTable.put (some s.made) = (id, table)) (hid : id ≠ -1) :
    id ≠ consoleInput ∧ id ≠ consoleOutput ∧ openFiles tr id = none := by
  obtain ⟨hnone, -⟩ := Table.put_spec hput hid
  have hin : id ≠ consoleInput := by
    rintro rfl
    rw [(h.console _ (.inl rfl)).2, if_neg hcons.1] at hnone
    cases hnone
  have hout : id ≠ consoleOutput := by
    rintro rfl
    rw [(h.console _ (.inr rfl)).2, if_neg hcons.2] at hnone
    cases hnone
  rw [h.held id hin hout] at hnone
  exact ⟨hin, hout, Option.map_eq_none_iff.mp hnone⟩

/-- A closed console is the first slot that is free. -/
theorem Tabled.put_console (h : Tabled tr s) (hcons : ¬ (Event.closed consoleInput ∉ tr ∧
    Event.closed consoleOutput ∉ tr)) :
    (s.fileTable.put (some s.made)).1 = consoleInput ∨
      (s.fileTable.put (some s.made)).1 = consoleOutput := by
  have hfree : ∃ k : ℕ, k ≤ 1 ∧ s.fileTable.get k = none := by
    rcases not_and_or.mp hcons with hin | hout
    · refine ⟨0, by omega, ?_⟩
      have hget := (h.console consoleInput (.inl rfl)).2
      rw [if_pos (not_not.mp hin)] at hget
      exact hget
    · refine ⟨1, by omega, ?_⟩
      have hget := (h.console consoleOutput (.inr rfl)).2
      rw [if_pos (not_not.mp hout)] at hget
      exact hget
  obtain ⟨k, hk, hnone⟩ := hfree
  have hlt : k < s.fileTable.size := by
    rw [h.size, maxOpenFiles]
    omega
  obtain ⟨hnonneg, hle⟩ := Table.put_le (some s.made) hlt hnone
  show _ = (0 : ℤ) ∨ _ = (1 : ℤ)
  omega

/-- Calls that neither open nor close leave table and map. -/
theorem Tabled.snoc_other (h : Tabled tr s) {ev : Event} (hbind : bind (openFiles tr) ev = openFiles tr)
    (hclosed : ∀ id, ev ≠ .closed id) (hopened : ∀ id f, ev ≠ .opened id (some f)) :
    Tabled (tr ++ [ev]) s := by
  have hmap : openFiles (tr ++ [ev]) = openFiles tr := by
    rw [openFiles_snoc, hbind]
  constructor
  case size => exact h.size
  case held =>
    rw [hmap]
    exact h.held
  case console =>
    intro id hid
    have hmem : Event.closed id ∈ tr ++ [ev] ↔ Event.closed id ∈ tr := by
      rw [List.mem_append, List.mem_singleton]
      exact or_iff_left fun heq => hclosed id heq.symm
    rw [hmap]
    simp only [hmem]
    exact h.console id hid
  case made =>
    intro id f hmem
    rcases List.mem_append.mp hmem with hmem | hmem
    · exact h.made id f hmem
    · exact absurd (List.mem_singleton.mp hmem).symm (hopened id f)

/-- **Closing** empties the slot, and strikes the id out. -/
theorem Tabled.close (h : Tabled tr s) (fd : ℤ) :
    Tabled (tr ++ [.closed fd]) (s.closeSyscall fd) := by
  have hmap : openFiles (tr ++ [.closed fd]) = Function.update (openFiles tr) fd none :=
    openFiles_snoc ..
  constructor
  case size => exact (Table.remove_size ..).trans h.size
  case held =>
    intro id hin hout
    show (s.fileTable.remove fd).2.get id = _
    rw [Table.get_remove, hmap]
    by_cases hid : id = fd
    · subst hid
      rw [if_pos rfl, Function.update_self]
      rfl
    · rw [if_neg hid, Function.update_of_ne hid]
      exact h.held id hin hout
  case console =>
    intro id hid
    show openFiles (tr ++ [.closed fd]) id = none ∧ (s.fileTable.remove fd).2.get id = _
    obtain ⟨hopen, hget⟩ := h.console id hid
    rw [Table.get_remove, hmap]
    by_cases heq : id = fd
    · subst heq
      rw [if_pos rfl, Function.update_self, if_pos (by simp)]
      exact ⟨rfl, rfl⟩
    · rw [if_neg heq, Function.update_of_ne heq]
      have hmem : Event.closed id ∈ tr ++ [.closed fd] ↔ Event.closed id ∈ tr := by
        simp [heq]
      simp only [hmem]
      exact ⟨hopen, hget⟩
  case made =>
    intro id f hmem
    rcases List.mem_append.mp hmem with hmem | hmem
    · exact h.made id f hmem
    · cases List.mem_singleton.mp hmem

/-- **Opening** a file while the consoles are in the table. -/
theorem Tabled.open (h : Tabled tr s) (hcons : Event.closed consoleInput ∉ tr ∧
    Event.closed consoleOutput ∉ tr) {t : Files} {id : ℤ} {file : Option ℕ}
    (ho : s.openSyscall true = (t, id, file)) :
    Tabled (tr ++ [.opened id file]) t ∧ Meant tr (.opened id file) := by
  cases hput : s.fileTable.put (some s.made) with
  | mk id' table =>
      simp only [openSyscall, hput, if_true, Prod.mk.injEq] at ho
      obtain ⟨rfl, rfl, rfl⟩ := ho
      by_cases hid : id' = -1
      · -- the table is full, and the file is gone
        have htable : table = s.fileTable := by
          unfold Table.put at hput
          split at hput
          · have hneg := congrArg Prod.fst hput
            simp only at hneg
            omega
          · exact (congrArg Prod.snd hput).symm
        rw [if_pos hid]
        refine ⟨?_, .inl ⟨hid, rfl⟩⟩
        have hsnoc : Tabled (tr ++ [.opened id' none]) s :=
          h.snoc_other rfl (by simp) (by simp)
        refine ⟨by rw [htable]; exact h.size, by rw [htable]; exact hsnoc.held,
          by rw [htable]; exact hsnoc.console, ?_⟩
        intro id f hmem
        exact Nat.lt_succ_of_lt (hsnoc.made id f hmem)
      · obtain ⟨hin, hout, hnone⟩ := h.put hcons hput hid
        obtain ⟨-, hself, hsize, hrest⟩ := Table.put_spec hput hid
        have hmap : openFiles (tr ++ [.opened id' (some s.made)]) =
            Function.update (openFiles tr) id' (some s.made) := openFiles_snoc ..
        rw [if_neg hid]
        refine ⟨⟨hsize.trans h.size, ?_, ?_, ?_⟩, .inr ⟨hin, hout, hnone, s.made, rfl, ?_⟩⟩
        · intro id hin' hout'
          rw [hmap]
          by_cases heq : id = id'
          · subst heq
            rw [Function.update_self]
            exact hself
          · rw [Function.update_of_ne heq]
            exact (hrest id heq).trans (h.held id hin' hout')
        · intro id hc
          have hne : id ≠ id' := by
            rintro rfl
            rcases hc with rfl | rfl
            · exact hin rfl
            · exact hout rfl
          have hmem : Event.closed id ∈ tr ++ [.opened id' (some s.made)] ↔
              Event.closed id ∈ tr := by
            simp
          rw [hmap, Function.update_of_ne hne]
          simp only [hmem]
          exact ⟨(h.console id hc).1, (hrest id hne).trans (h.console id hc).2⟩
        · intro id f hmem
          rcases List.mem_append.mp hmem with hmem | hmem
          · exact Nat.lt_succ_of_lt (h.made id f hmem)
          · cases List.mem_singleton.mp hmem
            exact Nat.lt_succ_self _
        · intro id hmem
          exact Nat.lt_irrefl _ (h.made id s.made hmem)

end Calls

/-! ## Runs -/

theorem Tabled.create : Tabled [] create := by
  obtain ⟨-, -, -, hfirst⟩ := Table.put_spec (t := Table.empty maxOpenFiles)
    (x := (none : Option ℕ)) (i := consoleInput) rfl (by decide)
  obtain ⟨-, -, -, hsecond⟩ := Table.put_spec
    (t := ((Table.empty maxOpenFiles).put (none : Option ℕ)).2) (x := none) (i := consoleOutput)
    rfl (by decide)
  constructor
  case size => rfl
  case held =>
    intro id hin hout
    exact (hsecond id hout).trans ((hfirst id hin).trans (Table.get_empty ..))
  case console =>
    rintro id (rfl | rfl) <;> exact ⟨rfl, rfl⟩
  case made =>
    rintro id f ⟨⟩

section Steps

variable {tr : List Event} {s t : Files} {c : Call} {ev : Event}

/-- **One call.** -/
theorem Tabled.step (h : Tabled tr s) (hok : consolesOpen tr s c) (hs : Files.step s c = some (t, ev)) :
    Tabled (tr ++ [ev]) t ∧ Meant tr ev := by
  cases c with
  | «open» found =>
      simp only [Files.step, Option.some.injEq, Prod.mk.injEq] at hs
      obtain ⟨rfl, rfl⟩ := hs
      cases found with
      | false => exact ⟨h.snoc_other rfl (by simp) (by simp [openSyscall]), .inl ⟨rfl, rfl⟩⟩
      | true => exact h.open (hok rfl) rfl
  | close fd =>
      obtain ⟨rfl, rfl⟩ := Prod.mk.inj (Option.some.inj hs)
      exact ⟨h.close fd, trivial⟩
  | read id =>
      obtain ⟨rfl, rfl⟩ := Prod.mk.inj (Option.some.inj hs)
      refine ⟨h.snoc_other rfl (by simp) (by simp), ?_⟩
      intro f hf
      obtain ⟨hin, hout, hlook⟩ := h.lookup hf
      rw [readSyscall, if_neg hout, if_neg hin, hlook]
  | write id copied =>
      obtain ⟨rfl, rfl⟩ := Prod.mk.inj (Option.some.inj hs)
      refine ⟨h.snoc_other rfl (by simp) (by simp), ?_⟩
      intro f hf
      obtain ⟨hin, hout, hlook⟩ := h.lookup hf
      rw [writeSyscall, if_neg hin]
      cases copied with
      | false => rfl
      | true => rw [if_neg (by simp), if_neg hout, hlook, if_pos rfl]

/-- A file opened after a console was closed gets the id of a console. -/
theorem consolesOpen_of_meant (h : Tabled tr s) (hs : Files.step s c = some (t, ev))
    (hm : Meant tr ev) : consolesOpen tr s c := by
  rintro rfl
  by_contra hcons
  have hid := h.put_console hcons
  simp only [Files.step, openSyscall, if_true, Option.some.injEq, Prod.mk.injEq] at hs
  obtain ⟨-, rfl⟩ := hs
  rcases hm with ⟨hneg, -⟩ | ⟨hin, hout, -⟩
  · rw [hneg] at hid
    rcases hid with hid | hid <;> cases hid
  · rcases hid with hid | hid
    · exact hin hid
    · exact hout hid

end Steps

/-- **File descriptors.** In every sequence of calls that opens no file after closing
a console, every call does what its descriptor says; the next call does so exactly
when it keeps to this. -/
theorem descriptors_meant_iff {tr : List Event} {s : Files}
    (h : Run step consolesOpen create tr s) :
    (∀ pre ev post, tr = pre ++ ev :: post → Meant pre ev) ∧
      ∀ c t ev, step s c = some (t, ev) → (Meant tr ev ↔ consolesOpen tr s c) := by
  have hall : Tabled tr s ∧ ∀ pre ev post, tr = pre ++ ev :: post → Meant pre ev := by
    refine h.invariant (I := fun tr s => Tabled tr s ∧
      ∀ pre ev post, tr = pre ++ ev :: post → Meant pre ev) ⟨.create, ?_⟩ ?_
    · intro pre ev post heq
      exact absurd heq.symm (List.append_ne_nil_of_right_ne_nil _ (List.cons_ne_nil _ _))
    · rintro tr s c t ev ⟨hi, hpast⟩ hok hs
      obtain ⟨ht, hm⟩ := hi.step hok hs
      refine ⟨ht, ?_⟩
      intro pre ev' post heq
      rcases snoc_eq_append_cons heq with ⟨rfl, rfl⟩ | ⟨post', rfl⟩
      · exact hm
      · exact hpast pre ev' post' rfl
  refine ⟨hall.2, ?_⟩
  intro c t ev hs
  exact ⟨consolesOpen_of_meant hall.1 hs, fun hok => (hall.1.step hok hs).2⟩

/-- Two files are opened, one is closed, and the other is read. -/
theorem descriptors_meant_iff_sample :
    ∃ s, Run step consolesOpen create [.opened 2 (some 0), .opened 3 (some 1), .closed 2,
      .read 3 (.file 1), .opened 2 (some 2)] s ∧ Meant [.opened 2 (some 0)] (.opened 3 (some 1)) := by
  have hp : (exec step consolesOpen [] create [.open true, .open true, .close 2, .read 3,
      .open true]).map Prod.fst = some [.opened 2 (some 0), .opened 3 (some 1), .closed 2,
        .read 3 (.file 1), .opened 2 (some 2)] := by
    decide +kernel
  obtain ⟨⟨tr, s⟩, hexec, rfl⟩ := Option.map_eq_some_iff.mp hp
  have hrun := Run.of_exec .start hexec
  exact ⟨s, hrun, (descriptors_meant_iff hrun).1 [.opened 2 (some 0)] _ _ rfl⟩

/-- The console is closed and a file opened: it gets the id of the console, and what
is written to it is printed. -/
theorem console_id_reused :
    ∃ s, Run step anyStep create [.closed 1, .opened 1 (some 0), .written 1 true .console] s ∧
      ¬ Meant [.closed 1] (.opened 1 (some 0)) ∧
      ¬ Meant [.closed 1, .opened 1 (some 0)] (.written 1 true .console) := by
  have hp : (exec step anyStep [] create [.close 1, .open true, .write 1 true]).map Prod.fst =
      some [.closed 1, .opened 1 (some 0), .written 1 true .console] := by
    decide +kernel
  obtain ⟨⟨tr, s⟩, hexec, rfl⟩ := Option.map_eq_some_iff.mp hp
  refine ⟨s, .of_exec .start hexec, ?_, ?_⟩
  · rintro (⟨hneg, -⟩ | ⟨-, hout, -⟩)
    · cases hneg
    · exact hout rfl
  · intro hm
    cases hm 0 rfl

end Files

end Nachos.Userprog
