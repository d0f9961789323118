import Nachos.Filesys.Refinement

/-!
# Nachos is started again

`FileSystem(FALSE)` opens the free map and the directory of a disk that has been formatted
before. No operation writes to the first two sectors, so both headers are where formatting has
put them, and everything else has been written back when an operation returns. Files that have
been open are so no more.
-/

namespace Nachos.Filesys

open Nachos.Lib Nachos.Userprog

/-! ## Sessions -/

/-- `FileSystem(FALSE)`. -/
def FileSystem.reopen (d : Disk) : Option FileSystem := do
  let freeMapFile ← OpenFile.ofSector d freeMapSector
  let directoryFile ← OpenFile.ofSector d directorySector
  return { disk := d, freeMapFile, directoryFile, opened := [] }

/-- An operation, or Nachos is started again. -/
def sessionStep (s : FileSystem) :
    Option (Op × (ℕ → Buffer)) → Option (FileSystem × Option Event)
  | none => (FileSystem.reopen s.disk).map fun s' => (s', none)
  | some l => (step s l).map fun r => (r.1, some r.2)

/-- What has happened after `events`. -/
def continued (events : List Event) : Option Event → List Event
  | none => []
  | some e => events ++ [e]

/-- What has happened since Nachos was started. -/
def session (tr : List (Option Event)) : List Event := tr.foldl continued []

theorem session_snoc (tr : List (Option Event)) (e : Option Event) :
    session (tr ++ [e]) = continued (session tr) e := List.foldl_concat ..

/-! ## The map over sessions -/

namespace Files

/-- The files are kept, and nothing is open. -/
def restarted (S : Files) : Files := { S with handles := fun _ => none, next := 0 }

/-- The maps that a trace can lead to. -/
inductive Lives : List (Option Event) → Files → Prop
  | start : Lives [] empty
  | operation {tr : List (Option Event)} {S S' : Files} {e : Event} :
      Lives tr S → Step S e S' → Lives (tr ++ [some e]) S'
  | restart {tr : List (Option Event)} {S : Files} :
      Lives tr S → Lives (tr ++ [none]) S.restarted

theorem Lives.operation_inv (tr : List (Option Event)) {S' : Files} {e : Event}
    (h : Lives (tr ++ [some e]) S') : ∃ S, Lives tr S ∧ Step S e S' := by
  generalize htr : tr ++ [some e] = tr' at h
  cases h with
  | start => exact absurd htr (List.append_ne_nil_of_right_ne_nil _ (List.cons_ne_nil _ _))
  | operation hlives hstep =>
      obtain ⟨rfl, hlast⟩ := List.append_inj' htr rfl
      obtain rfl := Option.some.inj (List.singleton_inj.mp hlast)
      exact ⟨_, hlives, hstep⟩
  | restart _ =>
      obtain ⟨-, hlast⟩ := List.append_inj' htr rfl
      cases List.singleton_inj.mp hlast

theorem Lives.restart_inv {tr : List (Option Event)} {S' : Files} (h : Lives (tr ++ [none]) S') :
    ∃ S, Lives tr S ∧ S' = S.restarted := by
  generalize htr : tr ++ [none] = tr' at h
  cases h with
  | start => exact absurd htr (List.append_ne_nil_of_right_ne_nil _ (List.cons_ne_nil _ _))
  | operation _ _ =>
      obtain ⟨-, hlast⟩ := List.append_inj' htr rfl
      cases List.singleton_inj.mp hlast
  | restart hlives =>
      obtain ⟨rfl, -⟩ := List.append_inj' htr rfl
      exact ⟨_, hlives, rfl⟩

/-- Only what has been opened in this session is known. -/
theorem Lives.knows {tr : List (Option Event)} {S : Files} (h : Lives tr S) :
    S.Knows (usable (session tr)) := by
  induction h with
  | start =>
      intro h k hmem
      exact absurd hmem List.not_mem_nil
  | operation _ hstep ih =>
      rw [session_snoc, continued, usable_snoc]
      exact hstep.knows ih
  | restart _ _ =>
      rw [session_snoc]
      intro h k hmem
      exact absurd hmem List.not_mem_nil

end Files

/-! ## The first two sectors -/

/-- Neither the headers of the system files nor the copies in memory change. -/
structure SameSystem (s s' : FileSystem) : Prop where
  freeMapFile : s'.freeMapFile = s.freeMapFile
  directoryFile : s'.directoryFile = s.directoryFile
  disk : ∀ x < 2, s'.disk x = s.disk x

/-- The headers on the disk are those in memory. -/
def FileSystem.Reopens (s : FileSystem) : Prop :=
  FileSystem.reopen s.disk = some { s with opened := [] }

section System

variable {s s' : FileSystem} {d d' : Disk} {x sector size : ℕ} {name : FileName} {b : Bool}

theorem SameSystem.refl (s : FileSystem) : SameSystem s s := ⟨rfl, rfl, fun _ _ => rfl⟩

theorem reopen_eq (d : Disk) : FileSystem.reopen d =
    some ⟨d, ⟨.ofBytes (d freeMapSector), 0⟩, ⟨.ofBytes (d directorySector), 0⟩, []⟩ :=
  rfl

theorem FileSystem.Reopens.same (h : s.Reopens) (hsame : SameSystem s s') : s'.Reopens := by
  unfold FileSystem.Reopens at *
  rw [reopen_eq, Option.some.injEq, FileSystem.mk.injEq] at *
  obtain ⟨-, hmap, hdirectory, -⟩ := h
  refine ⟨rfl, ?_, ?_, rfl⟩
  · rw [hsame.disk _ (by decide), hsame.freeMapFile, hmap]
  · rw [hsame.disk _ (by decide), hsame.directoryFile, hdirectory]

theorem Layout.map_low (h : Layout s) {m : BitMap} {heap : Buffer}
    (hwrite : writeBackMap m d s.freeMapFile.hdr heap = some d') (hx : x < 2) : d' x = d x := by
  obtain ⟨d₁, heq, hother, -⟩ := h.storeMap m d heap
  obtain rfl := Option.some.inj (heq.symm.trans hwrite)
  exact hother x (by omega)

theorem Layout.directory_low (h : Layout s) {t : Directory} {heap : Buffer}
    (hwrite : t.writeBack d s.directoryFile.hdr heap = some d') (hx : x < 2) : d' x = d x := by
  obtain ⟨d₁, heq, hother, -⟩ := writeAt_whole d heap t.toBytes h.directoryFile.toFits
  rw [h.directoryFile.length] at heq
  rw [Directory.writeBack, heq] at hwrite
  obtain rfl := Option.some.inj hwrite
  refine hother x ?_
  intro i hi
  rw [directoryFile_sectors h] at hi
  rcases (show i = 0 ∨ i = 1 by omega) with rfl | rfl
  · rw [h.directorySectors.1]
    omega
  · rw [h.directorySectors.2]
    omega

theorem header_low {hdr : FileHeader} (hwrite : hdr.writeBack d sector = some d')
    (hsector : systemSectors ≤ sector) (hx : x < 2) : d' x = d x := by
  unfold FileHeader.writeBack writeSector at hwrite
  split at hwrite
  · obtain rfl := Option.some.inj hwrite
    refine Function.update_of_ne ?_ _ _
    unfold systemSectors at hsector
    omega
  · cases hwrite

theorem createIn_system (h : Layout s) {t : Directory} {m : BitMap} {heap : ℕ → Buffer}
    (hsector : systemSectors ≤ sector)
    (hs : s.createIn t m sector size heap = some (s', b)) : SameSystem s s' := by
  obtain ⟨⟨success, hdr, freeMap⟩, -, hs⟩ := Option.bind_eq_some_iff.mp hs
  dsimp only at hs
  split at hs
  · obtain ⟨d₁, h₁, hs⟩ := Option.bind_eq_some_iff.mp hs
    obtain ⟨d₂, h₂, hs⟩ := Option.bind_eq_some_iff.mp hs
    obtain ⟨d₃, h₃, hs⟩ := Option.bind_eq_some_iff.mp hs
    obtain ⟨rfl, -⟩ := Prod.mk.inj (Option.some.inj hs)
    refine ⟨rfl, rfl, fun x hx => ?_⟩
    exact (h.map_low h₃ hx).trans ((h.directory_low h₂ hx).trans (header_low h₁ hsector hx))
  · obtain ⟨rfl, -⟩ := Prod.mk.inj (Option.some.inj hs)
    exact .refl s

theorem create_system (h : Layout s) {heap : ℕ → Buffer}
    (hs : s.create name size heap = some (s', b)) : SameSystem s s' := by
  obtain ⟨t, m, ht, -, hm, hbits⟩ := h.fetch
  obtain ⟨t', ht', hs⟩ := Option.bind_eq_some_iff.mp hs
  obtain rfl := Option.some.inj (ht.symm.trans ht')
  split at hs
  · obtain ⟨rfl, -⟩ := Prod.mk.inj (Option.some.inj hs)
    exact .refl s
  · obtain ⟨m', hm', hs⟩ := Option.bind_eq_some_iff.mp hs
    obtain rfl := Option.some.inj (hm.symm.trans hm')
    split at hs
    · obtain ⟨rfl, -⟩ := Prod.mk.inj (Option.some.inj hs)
      exact .refl s
    · rename_i sector hfind
      -- the sector of the header was free
      obtain ⟨hlt, hclear, -⟩ := BitMap.find_some hfind
      rw [hbits sector hlt] at hclear
      have hsector := (h.free hlt hclear).1
      split at hs
      · obtain ⟨rfl, -⟩ := Prod.mk.inj (Option.some.inj hs)
        exact .refl s
      · exact createIn_system h hsector hs

theorem remove_system (h : Layout s) {heap : ℕ → Buffer}
    (hs : s.remove name heap = some (s', b)) : SameSystem s s' := by
  obtain ⟨t, -, hs⟩ := Option.bind_eq_some_iff.mp hs
  split at hs
  · obtain ⟨rfl, -⟩ := Prod.mk.inj (Option.some.inj hs)
    exact .refl s
  · obtain ⟨fileHdr, -, hs⟩ := Option.bind_eq_some_iff.mp hs
    obtain ⟨freeMap, -, hs⟩ := Option.bind_eq_some_iff.mp hs
    obtain ⟨freeMap', -, hs⟩ := Option.bind_eq_some_iff.mp hs
    obtain ⟨_, -, hs⟩ := Option.bind_eq_some_iff.mp hs
    obtain ⟨directory, -, hs⟩ := Option.bind_eq_some_iff.mp hs
    obtain ⟨d₁, h₁, hs⟩ := Option.bind_eq_some_iff.mp hs
    obtain ⟨d₂, h₂, hs⟩ := Option.bind_eq_some_iff.mp hs
    obtain ⟨rfl, -⟩ := Prod.mk.inj (Option.some.inj hs)
    exact ⟨rfl, rfl, fun x hx => (h.directory_low h₂ hx).trans (h.map_low h₁ hx)⟩

/-- The two headers are there when the disk has been formatted. -/
theorem format_reopens (h : Layout s) {heap : ℕ → Buffer}
    (hformat : FileSystem.format d heap = some s) : s.Reopens := by
  simp only [FileSystem.format, Option.bind_eq_bind, Option.bind_eq_some_iff, Option.pure_def,
    Option.some.injEq] at hformat
  obtain ⟨_, -, _, -, _, -, _, -, d₁, -, d₂, -, freeMapFile, hmap, directoryFile, hdirectory,
    d₃, h₃, d₄, h₄, rfl⟩ := hformat
  have hopen : FileSystem.reopen d₂ = some ⟨d₂, freeMapFile, directoryFile, []⟩ := by
    rw [FileSystem.reopen, hmap, hdirectory]
    rfl
  have hlow : ∀ x < 2, d₄ x = d₂ x := fun x hx =>
    (h.directory_low h₄ hx).trans (h.map_low h₃ hx)
  unfold FileSystem.Reopens
  rw [reopen_eq, Option.some.injEq, FileSystem.mk.injEq] at hopen ⊢
  obtain ⟨-, hmap, hdirectory, -⟩ := hopen
  refine ⟨rfl, ?_, ?_, rfl⟩
  · show OpenFile.mk (.ofBytes (d₄ freeMapSector)) 0 = freeMapFile
    rw [hlow _ (by decide), hmap]
  · show OpenFile.mk (.ofBytes (d₄ directorySector)) 0 = directoryFile
    rw [hlow _ (by decide), hdirectory]

/-! ## Steps -/

variable {S : Files} {e : Event} {tr : List Event} {l : Op × (ℕ → Buffer)} {h p : ℕ}
  {k : List UInt8}

theorem writeFileAt_system (hr : Represents s S) (hhandle : S.handles h = some (k, p))
    {src : Buffer} {numBytes : ℤ} {position n : ℕ} {heap : ℕ → Buffer}
    (hno : ¬ RequestOverflows s (.writeAt h src numBytes position))
    (hs : s.writeFileAt h src numBytes position heap = some (s', n)) : SameSystem s s' := by
  obtain ⟨i, hi, sector, hslot, hfile, -⟩ := hr.file hhandle
  obtain ⟨s₁, hwrite, hw, -, -⟩ :=
    writeFileAt_eq hr.layout hi hslot hfile (fun hover => hno ⟨_, hfile, hover⟩) src heap
  obtain ⟨rfl, -⟩ := Prod.mk.inj (Option.some.inj (hwrite.symm.trans hs))
  exact ⟨hw.freeMapFile, hw.directoryFile,
    fun x hx => hw.system hr.layout (hx.trans (by decide))⟩

theorem writeFile_system (hr : Represents s S) (hhandle : S.handles h = some (k, p))
    {src : Buffer} {numBytes : ℤ} {n : ℕ} {heap : ℕ → Buffer}
    (hno : ¬ RequestOverflows s (.write h src numBytes))
    (hs : s.writeFile h src numBytes heap = some (s', n)) : SameSystem s s' := by
  obtain ⟨file, hfile, hs⟩ := Option.bind_eq_some_iff.mp hs
  obtain ⟨⟨s₁, n'⟩, hwrite, hs⟩ := Option.bind_eq_some_iff.mp hs
  obtain ⟨rfl, -⟩ := Prod.mk.inj (Option.some.inj hs)
  have hno' : ¬ RequestOverflows s (.writeAt h src numBytes file.seekPosition) := by
    rintro ⟨file', hfile', hover⟩
    obtain rfl := Option.some.inj (hfile.symm.trans hfile')
    exact hno ⟨file, hfile, hover⟩
  obtain ⟨hmap, hdirectory, hdisk⟩ := writeFileAt_system hr hhandle hno' hwrite
  exact ⟨hmap, hdirectory, hdisk⟩

theorem readFile_system {numBytes : ℤ} {bytes : List UInt8}
    (hs : s.readFile h numBytes = some (s', bytes)) : SameSystem s s' := by
  obtain ⟨file, -, hs⟩ := Option.bind_eq_some_iff.mp hs
  obtain ⟨bytes', -, hs⟩ := Option.bind_eq_some_iff.mp hs
  obtain ⟨rfl, -⟩ := Prod.mk.inj (Option.some.inj hs)
  exact ⟨rfl, rfl, fun _ _ => rfl⟩

theorem openFile_system (hl : Layout s) {file : Option ℕ}
    (hs : s.openFile name = some (s', file)) : SameSystem s s' := by
  rcases openFile_cases hl name with ⟨hopen, -⟩ | ⟨i, sector, -, -, hopen⟩
  · obtain ⟨rfl, -⟩ := Prod.mk.inj (Option.some.inj (hopen.symm.trans hs))
    exact .refl s
  · obtain ⟨rfl, -⟩ := Prod.mk.inj (Option.some.inj (hopen.symm.trans hs))
    exact ⟨rfl, rfl, fun _ _ => rfl⟩

/-- **No operation** writes to the first two sectors. -/
theorem step_system (hr : Represents s S) (hknows : S.Knows (usable tr)) (hok : Permitted tr s l)
    (hs : step s l = some (s', e)) : SameSystem s s' := by
  obtain ⟨op, heap⟩ := l
  obtain ⟨hused, hno⟩ := hok
  cases op with
  | create name size =>
      obtain ⟨⟨s₁, b⟩, hcreate, heq⟩ := Option.map_eq_some_iff.mp hs
      obtain ⟨rfl, -⟩ := Prod.mk.inj heq
      exact create_system hr.layout hcreate
  | openFile name =>
      obtain ⟨⟨s₁, file⟩, hopen, heq⟩ := Option.map_eq_some_iff.mp hs
      obtain ⟨rfl, -⟩ := Prod.mk.inj heq
      exact openFile_system hr.layout hopen
  | readAt h numBytes position =>
      obtain ⟨bytes, -, heq⟩ := Option.map_eq_some_iff.mp hs
      obtain ⟨rfl, -⟩ := Prod.mk.inj heq
      exact .refl s
  | writeAt h src numBytes position =>
      obtain ⟨⟨s₁, n⟩, hwrite, heq⟩ := Option.map_eq_some_iff.mp hs
      obtain ⟨rfl, -⟩ := Prod.mk.inj heq
      obtain ⟨k, hmem⟩ := hused
      obtain ⟨-, p, hp⟩ := hknows h k hmem
      exact writeFileAt_system hr hp hno hwrite
  | read h numBytes =>
      obtain ⟨⟨s₁, bytes⟩, hread, heq⟩ := Option.map_eq_some_iff.mp hs
      obtain ⟨rfl, -⟩ := Prod.mk.inj heq
      exact readFile_system hread
  | write h src numBytes =>
      obtain ⟨⟨s₁, n⟩, hwrite, heq⟩ := Option.map_eq_some_iff.mp hs
      obtain ⟨rfl, -⟩ := Prod.mk.inj heq
      obtain ⟨k, hmem⟩ := hused
      obtain ⟨-, p, hp⟩ := hknows h k hmem
      exact writeFile_system hr hp hno hwrite
  | remove name =>
      obtain ⟨⟨s₁, b⟩, hremove, heq⟩ := Option.map_eq_some_iff.mp hs
      obtain ⟨rfl, -⟩ := Prod.mk.inj heq
      exact remove_system hr.layout hremove

/-- The disk holds the map, and Nachos can be started on it again. -/
structure Mounted (s : FileSystem) (S : Files) : Prop extends Represents s S where
  reopens : s.Reopens

/-- A disk that has just been formatted. -/
theorem Mounted.format {heap : ℕ → Buffer} (hformat : FileSystem.format d heap = some s)
    (hl : Layout s) (hopened : s.opened = []) (hslots : ∀ i < numDirEntries, s.slot i = none) :
    Mounted s .empty := ⟨.format hl hopened hslots, format_reopens hl hformat⟩

/-- **`FileSystem(FALSE)`** finds the map, without the open files. -/
theorem Mounted.restart (hm : Mounted s S) :
    FileSystem.reopen s.disk = some { s with opened := [] } ∧
      Mounted { s with opened := [] } S.restarted := by
  refine ⟨hm.reopens, ⟨hm.layout.reopened [], hm.contents, rfl, ?_⟩,
    hm.reopens.same ⟨rfl, rfl, fun _ _ => rfl⟩⟩
  intro h k p hhandle
  cases hhandle

end System

/-! ## Runs -/

/-- Operations are used as they should be in their session; Nachos is started when one likes. -/
def SessionPermitted (tr : List (Option Event)) (s : FileSystem)
    (l : Option (Op × (ℕ → Buffer))) : Prop :=
  ∀ l' ∈ l, Permitted (session tr) s l'

/-- **One step**, and that it is possible. -/
theorem Mounted.step {tr : List (Option Event)} {s : FileSystem} {S : Files}
    {l : Option (Op × (ℕ → Buffer))} (hm : Mounted s S) (hlives : Files.Lives tr S)
    (hok : SessionPermitted tr s l) :
    ∃ s' e S', sessionStep s l = some (s', e) ∧ Files.Lives (tr ++ [e]) S' ∧ Mounted s' S' := by
  cases l with
  | none =>
      obtain ⟨hreopen, hm'⟩ := hm.restart
      exact ⟨_, none, _, by rw [sessionStep, hreopen]; rfl, .restart hlives, hm'⟩
  | some l =>
      have hl := hok l rfl
      obtain ⟨s', e, S', hstep, habs, hr', -⟩ := hm.matched hlives.knows hl.1 hl.2
      exact ⟨s', some e, S', by rw [sessionStep, hstep]; rfl, .operation hlives habs, hr',
        hm.reopens.same (step_system hm.toRepresents hlives.knows hl hstep)⟩

/-- **Files outlive Nachos.** On a disk that has been formatted, whatever it and the memory held
before: Nachos may be started again at any time, and as long as no request overflows every
operation returns what the map returns, in which all files are still there. -/
theorem files_outlive (d : Disk) (heap : ℕ → Buffer) :
    ∃ s₀, FileSystem.format d heap = some s₀ ∧
      ∀ tr s, Run sessionStep SessionPermitted s₀ tr s →
        (∃ S, Files.Lives tr S ∧ Represents s S) ∧
          ∀ l, SessionPermitted tr s l → ∃ s' e, sessionStep s l = some (s', e) := by
  obtain ⟨s₀, hformat, hl, hopened, hslots⟩ := format_eq d heap
  refine ⟨s₀, hformat, fun tr s hrun => ?_⟩
  obtain ⟨S, hlives, hm⟩ : ∃ S, Files.Lives tr S ∧ Mounted s S := by
    refine hrun.invariant (I := fun tr s => ∃ S, Files.Lives tr S ∧ Mounted s S)
      ⟨.empty, .start, .format hformat hl hopened hslots⟩ ?_
    rintro tr s l s' e ⟨S, hlives, hm⟩ hok hs
    obtain ⟨s₁, e₁, S', hstep, hlives', hm'⟩ := hm.step hlives hok
    obtain ⟨rfl, rfl⟩ := Prod.mk.inj (Option.some.inj (hstep.symm.trans hs))
    exact ⟨S', hlives', hm'⟩
  refine ⟨⟨S, hlives, hm.toRepresents⟩, fun l hok => ?_⟩
  obtain ⟨s', e, -, hstep, -⟩ := hm.step hlives hok
  exact ⟨s', e, hstep⟩

/-- What happens until Nachos is started again. -/
theorem session_map_some (tr : List Event) : session (tr.map some) = tr := by
  induction tr using List.reverseRecOn with
  | nil => rfl
  | append_singleton tr e ih =>
      rw [List.map_append, List.map_singleton, session_snoc, ih]
      rfl

theorem run_session {tr : List Event} {s₀ s : FileSystem} (hrun : Run step Permitted s₀ tr s) :
    Run sessionStep SessionPermitted s₀ (tr.map some) s := by
  induction hrun with
  | start => exact .start
  | snoc _ hok hstep ih =>
      rw [List.map_append, List.map_singleton]
      refine ih.snoc (l := some _) ?_ (by rw [sessionStep, hstep]; rfl)
      intro l' hl'
      obtain rfl := Option.some.inj hl'
      rwa [session_map_some]

theorem sessionStep_none {s s' : FileSystem} {e : Option Event}
    (h : sessionStep s none = some (s', e)) : e = none := by
  rw [sessionStep, Option.map_eq_some_iff] at h
  obtain ⟨_, -, heq⟩ := h
  exact (Prod.mk.inj heq).2.symm

theorem sessionStep_openFile {s s' : FileSystem} {e : Option Event} {name : FileName}
    {heap : ℕ → Buffer} (h : sessionStep s (some (.openFile name, heap)) = some (s', e)) :
    ∃ openFile, e = some (.openFile name openFile) := by
  rw [sessionStep, Option.map_eq_some_iff] at h
  obtain ⟨_, hstep, heq⟩ := h
  rw [step, Option.map_eq_some_iff] at hstep
  obtain ⟨⟨_, openFile⟩, -, rfl⟩ := hstep
  exact ⟨openFile, (Prod.mk.inj heq).2.symm⟩

/-- A file of ten bytes is created and opened, and Nachos is started again. -/
def tenBytesAgain : List (Option Event) := tenBytes.map some ++ [none]

/-- The file is there. -/
theorem Files.Lives.tenBytesAgain {S : Files} (h : Files.Lives tenBytesAgain S) :
    ∃ c, S.contents fileA.key = some c ∧ c.length = 10 := by
  obtain ⟨S₂, hlives, rfl⟩ := Files.Lives.restart_inv h
  obtain ⟨S₁, hlives, hopen⟩ := Files.Lives.operation_inv [some _] hlives
  obtain ⟨S₀, -, hcreate⟩ := Files.Lives.operation_inv [] hlives
  cases hcreate with
  | create _ hlength hcontents _ _ =>
      refine ⟨_, ?_, hlength⟩
      show S₂.contents fileA.key = _
      rw [hopen.openFile_contents, hcontents, Function.update_self]

/-- It can be opened, as the first file of its session. -/
theorem files_outlive_sample : ∃ s₀ s S c,
    FileSystem.format (fun _ _ => 0) (fun _ _ => 0) = some s₀ ∧
      Run sessionStep SessionPermitted s₀ (tenBytesAgain ++ [some (.openFile fileA (some 0))]) s ∧
      Represents s S ∧ S.contents fileA.key = some c ∧ c.length = 10 := by
  obtain ⟨s₀, s₁, -, hformat, hrun₁, -⟩ := tenBytes_run
  obtain ⟨s₀', hformat', houtlive⟩ := files_outlive (fun _ _ => 0) (fun _ _ => 0)
  obtain rfl := Option.some.inj (hformat.symm.trans hformat')
  have hrun₁ := run_session hrun₁
  have hstart : SessionPermitted (tenBytes.map some) s₁ none := by
    intro l hl
    cases hl
  obtain ⟨s₂, e₂, hstep₂⟩ := (houtlive _ _ hrun₁).2 none hstart
  obtain rfl := sessionStep_none hstep₂
  have hrun₂ : Run sessionStep SessionPermitted s₀ tenBytesAgain s₂ := hrun₁.snoc hstart hstep₂
  have hopen : SessionPermitted tenBytesAgain s₂ (some (.openFile fileA, fun _ _ => 0)) := by
    intro l hl
    obtain rfl := Option.some.inj hl
    exact ⟨True.intro, id⟩
  obtain ⟨s₃, e₃, hstep₃⟩ := (houtlive _ _ hrun₂).2 _ hopen
  obtain ⟨openFile, rfl⟩ := sessionStep_openFile hstep₃
  have hrun₃ := hrun₂.snoc hopen hstep₃
  obtain ⟨⟨S₃, hlives₃, hr₃⟩, -⟩ := houtlive _ _ hrun₃
  obtain ⟨S₂, hlives₂, hstep₂⟩ := Files.Lives.operation_inv _ hlives₃
  obtain ⟨c, hc, hlength⟩ := hlives₂.tenBytesAgain
  obtain ⟨S₁, -, rfl⟩ := hlives₂.restart_inv
  have hcontents := hstep₂.openFile_contents
  cases hstep₂ with
  | openFile _ _ _ _ => exact ⟨s₀, s₃, S₃, c, hformat, hrun₃, hr₃, by rwa [hcontents], hlength⟩
  | openFails habsent =>
      rw [habsent] at hc
      cases hc

end Nachos.Filesys
