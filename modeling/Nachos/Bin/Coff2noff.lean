import Nachos.Lib.Bytes
import Nachos.Lib.Run

/-!
# From COFF to NOFF

`coff2noff` copies the sections of a COFF executable, in their order, behind the
header of a NOFF file, and notes in the header where the code, the initialised
and the uninitialised data are. The header is a local variable: what no section
sets keeps whatever the stack held, except for the sizes.

Words are those of the simulated machine, 32 bits; `raw` of a section is what the
COFF file holds from the section's `s_scnptr` on.
-/

namespace Nachos.Bin

open Nachos.Lib

/-! ## The files -/

/-- `s_name`, as far as the program tells names apart. -/
inductive SectionName where
  | text
  | data
  | rdata
  | bss
  | sbss
  | other
deriving DecidableEq, Repr

structure Section where
  sName : SectionName
  sPaddr : UInt32
  sSize : UInt32
  raw : List UInt8
deriving DecidableEq, Repr

structure Coff where
  fMagic : UInt16
  magic : UInt16
  sections : List Section
deriving DecidableEq, Repr

structure Segment where
  virtualAddr : UInt32
  inFileAddr : UInt32
  size : UInt32
deriving DecidableEq, Repr

structure NoffHeader where
  noffMagic : UInt32
  code : Segment
  initData : Segment
  uninitData : Segment
deriving DecidableEq, Repr

/-- A NOFF file: its header and what stands behind it. -/
structure Noff where
  header : NoffHeader
  body : List UInt8
deriving DecidableEq, Repr

/-- `sizeof(NoffHeader)`: ten words. -/
def headerSize : ℕ := 40

def NoffHeader.words (h : NoffHeader) : List UInt32 :=
  [h.noffMagic, h.code.virtualAddr, h.code.inFileAddr, h.code.size,
    h.initData.virtualAddr, h.initData.inFileAddr, h.initData.size,
    h.uninitData.virtualAddr, h.uninitData.inFileAddr, h.uninitData.size]

/-- The bytes of the file. -/
def Noff.file (n : Noff) : List UInt8 :=
  n.header.words.flatMap (fun w => (List.range 4).map (intByte w.toNat)) ++ n.body

/-! ## The program -/

inductive ConvertError where
  | notMipsel
  | notOmagic
  | fileTooShort
  | unableToWrite
  | dataAndRdata
  | bssAndSbss
  | unknownSegment
deriving DecidableEq, Repr

def mipselMagic : UInt16 := 0x0162

def oMagic : UInt16 := 0o407

/-- `NOFFMAGIC`. -/
def noffMagicNumber : UInt32 := 0xbadfad

/-- Offsets in a file are `int`s. -/
def maxOffset : ℕ := 2 ^ 31

/-- `inNoffFile`: where the next section goes. -/
def Noff.inNoffFile (n : Noff) : ℕ := headerSize + n.body.length

/-- The bytes of a section. -/
def Section.contents (s : Section) : List UInt8 := s.raw.take s.sSize.toNat

/-- `Read` and `Write` of a section; the segment is its description in the header. -/
def Noff.copySection (n : Noff) (s : Section) : Except ConvertError (Segment × List UInt8) :=
  if s.raw.length < s.sSize.toNat ∨ maxOffset ≤ s.sSize.toNat then .error .fileTooShort
  else if maxOffset ≤ n.inNoffFile + s.sSize.toNat then .error .unableToWrite
  else .ok (⟨s.sPaddr, UInt32.ofNat n.inNoffFile, s.sSize⟩, n.body ++ s.contents)

/-- `.text`. -/
def Noff.convertText (n : Noff) (s : Section) : Except ConvertError Noff :=
  match n.copySection s with
  | .ok (seg, body) => .ok ⟨{ n.header with code := seg }, body⟩
  | .error e => .error e

/-- `.data` and `.rdata`. -/
def Noff.convertData (n : Noff) (s : Section) : Except ConvertError Noff :=
  if n.header.initData.size ≠ 0 then .error .dataAndRdata
  else
    match n.copySection s with
    | .ok (seg, body) => .ok ⟨{ n.header with initData := seg }, body⟩
    | .error e => .error e

/-- `.bss` and `.sbss`. The comparison is meant to ask whether they are contiguous,
and refuses them when they are. -/
def Noff.convertBss (n : Noff) (s : Section) : Except ConvertError Noff :=
  let bss := n.header.uninitData
  if bss.size ≠ 0 then
    if s.sPaddr = bss.virtualAddr + bss.size then .error .bssAndSbss
    else .ok ⟨{ n.header with uninitData := { bss with size := bss.size + s.sSize } }, n.body⟩
  else
    .ok ⟨{ n.header with uninitData := { bss with virtualAddr := s.sPaddr, size := s.sSize } },
      n.body⟩

/-- The body of the loop over the sections. -/
def Noff.convertSection (n : Noff) (s : Section) : Except ConvertError Noff :=
  if s.sSize = 0 then .ok n
  else
    match s.sName with
    | .text => n.convertText s
    | .data | .rdata => n.convertData s
    | .bss | .sbss => n.convertBss s
    | .other => .error .unknownSegment

def Noff.convertSections (n : Noff) : List Section → Except ConvertError Noff
  | [] => .ok n
  | s :: rest =>
      match n.convertSection s with
      | .ok n => n.convertSections rest
      | .error e => .error e

/-- The header before the first section; `h` is what the stack held. -/
def NoffHeader.init (h : NoffHeader) : NoffHeader :=
  ⟨noffMagicNumber, { h.code with size := 0 }, { h.initData with size := 0 },
    { h.uninitData with size := 0 }⟩

/-- `main`. -/
def coff2noff (h : NoffHeader) (c : Coff) : Except ConvertError Noff :=
  if c.fMagic ≠ mipselMagic then .error .notMipsel
  else if c.magic ≠ oMagic then .error .notOmagic
  else Noff.convertSections ⟨h.init, []⟩ c.sections

/-! ## What a section does -/

/-- The section is copied to the NOFF file. -/
def Section.inFile (s : Section) : Bool :=
  s.sSize != 0 && (s.sName == .text || s.sName == .data || s.sName == .rdata)

/-- The section is to be zero. -/
def Section.zeroed (s : Section) : Bool :=
  s.sSize != 0 && (s.sName == .bss || s.sName == .sbss)

theorem Noff.length_file (n : Noff) : n.file.length = headerSize + n.body.length := by
  simp [Noff.file, NoffHeader.words, headerSize]
  omega

/-- The body stands behind the header. -/
theorem Noff.file_body (n : Noff) (i : ℕ) : n.file[headerSize + i]? = n.body[i]? := by
  have hhead : (n.header.words.flatMap fun w => (List.range 4).map (intByte w.toNat)).length =
      headerSize := by
    simp [NoffHeader.words, headerSize]
  rw [Noff.file, List.getElem?_append_right (by omega), hhead, Nat.add_sub_cancel_left]

theorem Noff.copySection_eq_ok {n : Noff} {s : Section} {r : Segment × List UInt8}
    (h : n.copySection s = .ok r) :
    s.sSize.toNat ≤ s.raw.length ∧ n.inNoffFile + s.sSize.toNat < maxOffset ∧
      r = (⟨s.sPaddr, UInt32.ofNat n.inNoffFile, s.sSize⟩, n.body ++ s.contents) := by
  unfold Noff.copySection at h
  split at h
  · cases h
  · split at h
    · cases h
    · cases h
      rename_i hread hwrite
      exact ⟨by omega, by omega, rfl⟩

/-- A section copied to the file, with what the header says of it. -/
structure Noff.Copied (n n' : Noff) (s : Section) : Prop where
  inFile : s.inFile = true
  body : n'.body = n.body ++ s.contents
  raw : s.sSize.toNat ≤ s.raw.length
  fits : n.inNoffFile + s.sSize.toNat < maxOffset
  segment : (s.sName = .text ∧ n'.header.initData = n.header.initData ∧
      n'.header.code = ⟨s.sPaddr, UInt32.ofNat n.inNoffFile, s.sSize⟩) ∨
    (s.sName ≠ .text ∧ n.header.initData.size = 0 ∧ n'.header.code = n.header.code ∧
      n'.header.initData = ⟨s.sPaddr, UInt32.ofNat n.inNoffFile, s.sSize⟩)

/-- A section that is empty, or has no contents. -/
structure Noff.Skipped (n n' : Noff) (s : Section) : Prop where
  inFile : s.inFile = false
  body : n'.body = n.body
  code : n'.header.code = n.header.code
  initData : n'.header.initData = n.header.initData

theorem Noff.copied_text {n n' : Noff} {s : Section} (hsize : s.sSize ≠ 0)
    (hname : s.sName = .text) (h : n.convertText s = .ok n') : n.Copied n' s := by
  unfold Noff.convertText at h
  split at h
  · rename_i hcopy
    cases h
    obtain ⟨hraw, hfit, hr⟩ := Noff.copySection_eq_ok hcopy
    cases hr
    exact ⟨by simp [Section.inFile, hsize, hname], rfl, hraw, hfit, .inl ⟨hname, rfl, rfl⟩⟩
  · cases h

theorem Noff.copied_data {n n' : Noff} {s : Section} (hin : s.inFile = true)
    (hname : s.sName ≠ .text) (h : n.convertData s = .ok n') : n.Copied n' s := by
  unfold Noff.convertData at h
  split at h
  · cases h
  · rename_i hdata
    split at h
    · rename_i hcopy
      cases h
      obtain ⟨hraw, hfit, hr⟩ := Noff.copySection_eq_ok hcopy
      cases hr
      exact ⟨hin, rfl, hraw, hfit, .inr ⟨hname, not_not.mp hdata, rfl, rfl⟩⟩
    · cases h

theorem Noff.skipped_bss {n n' : Noff} {s : Section} (hin : s.inFile = false)
    (h : n.convertBss s = .ok n') : n.Skipped n' s := by
  unfold Noff.convertBss at h
  dsimp only at h
  split at h
  · split at h
    · cases h
    · cases h
      exact ⟨hin, rfl, rfl, rfl⟩
  · cases h
    exact ⟨hin, rfl, rfl, rfl⟩

/-- **What one section does.** -/
theorem Noff.convertSection_cases {n n' : Noff} {s : Section} (h : n.convertSection s = .ok n') :
    n.Skipped n' s ∨ n.Copied n' s := by
  by_cases hsize : s.sSize = 0
  · rw [Noff.convertSection, if_pos hsize] at h
    cases h
    exact .inl ⟨by simp [Section.inFile, hsize], rfl, rfl, rfl⟩
  · rw [Noff.convertSection, if_neg hsize] at h
    cases hname : s.sName with
    | text =>
        rw [hname] at h
        exact .inr (Noff.copied_text hsize hname h)
    | data | rdata =>
        rw [hname] at h
        exact .inr (Noff.copied_data (by simp [Section.inFile, hsize, hname]) (by simp [hname]) h)
    | bss | sbss =>
        rw [hname] at h
        exact .inl (Noff.skipped_bss (by simp [Section.inFile, hname]) h)
    | other =>
        rw [hname] at h
        cases h

/-! ## What the loop leaves -/

/-- The bytes of sections, one behind the other. -/
def image (l : List Section) : List UInt8 := l.flatMap Section.contents

theorem image_append (l₁ l₂ : List Section) : image (l₁ ++ l₂) = image l₁ ++ image l₂ :=
  List.flatMap_append

theorem image_cons (s : Section) (l : List Section) : image (s :: l) = s.contents ++ image l :=
  List.flatMap_cons

/-- The file after the sections `secs`; `h` is what the stack held. -/
structure Converted (h : NoffHeader) (secs : List Section) (n : Noff) : Prop where
  body : n.body = image (secs.filter Section.inFile)
  full : ∀ s ∈ secs, s.inFile = true → s.contents.length = s.sSize.toNat
  fits : n.inNoffFile < maxOffset
  /-- Without a `.text` the code segment is what was on the stack, with no bytes. -/
  noText : (∀ s ∈ secs.filter Section.inFile, s.sName ≠ .text) →
    n.header.code.size = 0 ∧ n.header.code.inFileAddr = h.code.inFileAddr
  /-- The last `.text` is the code. -/
  text : ∀ l₁ t l₂, secs.filter Section.inFile = l₁ ++ t :: l₂ → t.sName = .text →
    (∀ s ∈ l₂, s.sName ≠ .text) →
    n.header.code.size = t.sSize ∧
      n.header.code.inFileAddr.toNat = headerSize + (image l₁).length
  /-- There is at most one section of data. -/
  data : ((secs.filter Section.inFile).filter (·.sName ≠ .text)).map Section.sSize =
    if n.header.initData.size = 0 then [] else [n.header.initData.size]

theorem Converted.init (h : NoffHeader) : Converted h [] ⟨h.init, []⟩ := by
  constructor
  case body => rfl
  case full =>
    intro s hs
    cases hs
  case fits => exact (show headerSize + 0 < maxOffset by decide)
  case noText => exact fun _ => ⟨rfl, rfl⟩
  case text =>
    intro l₁ t l₂ heq
    cases l₁ <;> cases heq
  case data => rfl

section Loop

variable {h : NoffHeader} {pre : List Section} {s : Section} {n n' : Noff}

theorem filter_snoc_skipped (pre : List Section) (hin : s.inFile = false) :
    (pre ++ [s]).filter Section.inFile = pre.filter Section.inFile := by
  simp [hin]

theorem filter_snoc_copied (pre : List Section) (hin : s.inFile = true) :
    (pre ++ [s]).filter Section.inFile = pre.filter Section.inFile ++ [s] := by
  simp [hin]

theorem Converted.skipped (hc : Converted h pre n) (hs : n.Skipped n' s) :
    Converted h (pre ++ [s]) n' := by
  have hfilter := filter_snoc_skipped pre hs.inFile
  constructor
  case body => rw [hfilter, hs.body, hc.body]
  case full =>
    intro s' hmem hin
    rcases List.mem_append.mp hmem with hmem | hmem
    · exact hc.full s' hmem hin
    · rw [List.mem_singleton.mp hmem, hs.inFile] at hin
      cases hin
  case fits =>
    have hfits := hc.fits
    unfold Noff.inNoffFile at hfits ⊢
    rwa [hs.body]
  case noText =>
    rw [hfilter, hs.code]
    exact hc.noText
  case text =>
    rw [hfilter, hs.code]
    exact hc.text
  case data =>
    rw [hfilter, hs.initData]
    exact hc.data

theorem Converted.copied (hc : Converted h pre n) (hs : n.Copied n' s) :
    Converted h (pre ++ [s]) n' := by
  have hfilter := filter_snoc_copied pre hs.inFile
  have hlen : s.contents.length = s.sSize.toNat := by
    rw [Section.contents, List.length_take, Nat.min_eq_left hs.raw]
  have hsize : s.sSize ≠ 0 := by
    intro hzero
    have hin := hs.inFile
    simp [Section.inFile, hzero] at hin
  constructor
  case body => rw [hfilter, image_append, hs.body, hc.body, image_cons]; simp [image]
  case full =>
    intro s' hmem hin
    rcases List.mem_append.mp hmem with hmem | hmem
    · exact hc.full s' hmem hin
    · rw [List.mem_singleton.mp hmem]
      exact hlen
  case fits =>
    have hfits := hs.fits
    unfold Noff.inNoffFile at hfits ⊢
    rw [hs.body, List.length_append, hlen]
    omega
  case noText =>
    rw [hfilter]
    intro hno
    obtain ⟨htext, -⟩ | ⟨-, -, hcode, -⟩ := hs.segment
    · exact absurd htext (hno s (List.mem_append_right _ (List.mem_singleton_self s)))
    · rw [hcode]
      exact hc.noText fun s' hs' => hno s' (List.mem_append_left _ hs')
  case text =>
    rw [hfilter]
    intro l₁ t l₂ heq htext hlast
    rcases snoc_eq_append_cons heq with ⟨rfl, rfl⟩ | ⟨l₃, hpre⟩
    · -- the section is the last `.text`
      obtain ⟨-, -, hcode⟩ | ⟨hne, -⟩ := hs.segment
      · have hlt : n.inNoffFile < 2 ^ 32 := by
          have hfits := hc.fits
          unfold maxOffset at hfits
          omega
        rw [hcode]
        refine ⟨rfl, ?_⟩
        rw [UInt32.toNat_ofNat', Nat.mod_eq_of_lt hlt, Noff.inNoffFile, hc.body]
      · exact absurd htext hne
    · have hl₂ : l₂ = l₃ ++ [s] := by
        rw [hpre, List.append_assoc, List.cons_append] at heq
        exact (List.cons.inj (List.append_cancel_left heq)).2.symm
      subst hl₂
      obtain ⟨hsText, -⟩ | ⟨-, -, hcode, -⟩ := hs.segment
      · exact absurd hsText (hlast s (List.mem_append_right _ (List.mem_singleton_self s)))
      · rw [hcode]
        exact hc.text l₁ t l₃ hpre htext fun s' hs' => hlast s' (List.mem_append_left _ hs')
  case data =>
    rw [hfilter, List.filter_append, List.map_append, hc.data]
    obtain ⟨htext, hdata, -⟩ | ⟨hname, hzero, -, hdata⟩ := hs.segment
    · simp [htext, hdata]
    · simp [hname, hzero, hdata, hsize]

theorem Converted.convertSections (hc : Converted h pre n) {secs : List Section}
    (hs : n.convertSections secs = .ok n') : Converted h (pre ++ secs) n' := by
  induction secs generalizing pre n with
  | nil =>
      cases hs
      rwa [List.append_nil]
  | cons s rest ih =>
      unfold Noff.convertSections at hs
      split at hs
      · rename_i n₁ hone
        have hnext : Converted h (pre ++ [s]) n₁ :=
          (Noff.convertSection_cases hone).elim hc.skipped hc.copied
        have hrest := ih hnext hs
        rwa [List.append_assoc, List.singleton_append] at hrest
      · cases hs

end Loop

theorem coff2noff_ok {h : NoffHeader} {c : Coff} {n : Noff} (hn : coff2noff h c = .ok n) :
    Noff.convertSections ⟨h.init, []⟩ c.sections = .ok n := by
  unfold coff2noff at hn
  split at hn
  · cases hn
  · split at hn
    · cases hn
    · exact hn

/-- **The NOFF file** of a COFF file that is converted. -/
theorem converted_of_coff2noff {h : NoffHeader} {c : Coff} {n : Noff}
    (hn : coff2noff h c = .ok n) : Converted h c.sections n :=
  (Converted.init h).convertSections (coff2noff_ok hn)

/-! ## The headers alone decide whether a file is converted -/

/-- The same section headers with other contents. -/
structure Section.SameHeader (s s' : Section) : Prop where
  sName : s'.sName = s.sName
  sPaddr : s'.sPaddr = s.sPaddr
  sSize : s'.sSize = s.sSize
  length : s'.raw.length = s.raw.length

structure Coff.SameHeaders (c c' : Coff) : Prop where
  fMagic : c'.fMagic = c.fMagic
  magic : c'.magic = c.magic
  sections : List.Forall₂ Section.SameHeader c.sections c'.sections

theorem Section.SameHeader.refl (s : Section) : s.SameHeader s := ⟨rfl, rfl, rfl, rfl⟩

theorem Section.SameHeader.inFile {s s' : Section} (h : s.SameHeader s') :
    s'.inFile = s.inFile := by
  rw [Section.inFile, Section.inFile, h.sName, h.sSize]

theorem Section.SameHeader.zeroed {s s' : Section} (h : s.SameHeader s') :
    s'.zeroed = s.zeroed := by
  rw [Section.zeroed, Section.zeroed, h.sName, h.sSize]

/-- The sections with contents are the same ones. -/
theorem filter_sameHeader {secs secs' : List Section}
    (h : List.Forall₂ Section.SameHeader secs secs') :
    List.Forall₂ Section.SameHeader (secs.filter Section.inFile)
      (secs'.filter Section.inFile) := by
  induction h with
  | nil => exact .nil
  | @cons s s' _ _ hone _ ih =>
      by_cases hin : s.inFile = true
      · rw [List.filter_cons_of_pos hin, List.filter_cons_of_pos (hone.inFile.trans hin)]
        exact .cons hone ih
      · rw [List.filter_cons_of_neg hin, List.filter_cons_of_neg (hone.inFile ▸ hin)]
        exact ih

/-- Files made from the same section headers. -/
structure Noff.Alike (n n' : Noff) : Prop where
  code : n'.header.code.size = n.header.code.size
  codeAddr : n.header.code.size ≠ 0 →
    n'.header.code.inFileAddr = n.header.code.inFileAddr
  initData : n'.header.initData.size = n.header.initData.size
  uninitData : n'.header.uninitData.size = n.header.uninitData.size
  bssAddr : n.header.uninitData.size ≠ 0 →
    n'.header.uninitData.virtualAddr = n.header.uninitData.virtualAddr
  body : n'.body.length = n.body.length

section Alike

variable {n n' m : Noff} {s s' : Section}

theorem Noff.Alike.copySection (ha : n.Alike n') (hs : s.SameHeader s') {seg : Segment}
    {body : List UInt8} (h : n.copySection s = .ok (seg, body)) :
    ∃ body', n'.copySection s' = .ok (seg, body') ∧ body'.length = body.length := by
  obtain ⟨hraw, hfit, hr⟩ := Noff.copySection_eq_ok h
  cases hr
  have hin : n'.inNoffFile = n.inNoffFile := by
    rw [Noff.inNoffFile, Noff.inNoffFile, ha.body]
  have hread : ¬ (s'.raw.length < s'.sSize.toNat ∨ maxOffset ≤ s'.sSize.toNat) := by
    rw [hs.length, hs.sSize]
    omega
  have hwrite : ¬ maxOffset ≤ n'.inNoffFile + s'.sSize.toNat := by
    rw [hin, hs.sSize]
    omega
  refine ⟨_, by rw [Noff.copySection, if_neg hread, if_neg hwrite, hin, hs.sPaddr, hs.sSize], ?_⟩
  rw [List.length_append, List.length_append, ha.body, Section.contents, Section.contents,
    List.length_take, List.length_take, hs.length, hs.sSize]

theorem Noff.Alike.convertText (ha : n.Alike n') (hs : s.SameHeader s')
    (h : n.convertText s = .ok m) : ∃ m', n'.convertText s' = .ok m' ∧ m.Alike m' := by
  unfold Noff.convertText at h ⊢
  split at h
  · rename_i hcopy
    cases h
    obtain ⟨body', hcopy', hbody⟩ := ha.copySection hs hcopy
    rw [hcopy']
    exact ⟨_, rfl, rfl, fun _ => rfl, ha.initData, ha.uninitData, ha.bssAddr, hbody⟩
  · cases h

theorem Noff.Alike.convertData (ha : n.Alike n') (hs : s.SameHeader s')
    (h : n.convertData s = .ok m) : ∃ m', n'.convertData s' = .ok m' ∧ m.Alike m' := by
  unfold Noff.convertData at h ⊢
  rw [ha.initData]
  split at h
  · cases h
  · rename_i hdata
    rw [if_neg hdata]
    split at h
    · rename_i hcopy
      cases h
      obtain ⟨body', hcopy', hbody⟩ := ha.copySection hs hcopy
      rw [hcopy']
      exact ⟨_, rfl, ha.code, ha.codeAddr, rfl, ha.uninitData, ha.bssAddr, hbody⟩
    · cases h

theorem Noff.Alike.convertBss (ha : n.Alike n') (hs : s.SameHeader s')
    (h : n.convertBss s = .ok m) : ∃ m', n'.convertBss s' = .ok m' ∧ m.Alike m' := by
  unfold Noff.convertBss at h ⊢
  dsimp only at h ⊢
  rw [ha.uninitData, hs.sPaddr, hs.sSize]
  split at h
  · rename_i hbss
    rw [if_pos hbss, ha.bssAddr hbss]
    split at h
    · cases h
    · rename_i hgap
      cases h
      rw [if_neg hgap]
      exact ⟨_, rfl, ha.code, ha.codeAddr, ha.initData, rfl, fun _ => rfl, ha.body⟩
  · rename_i hbss
    cases h
    rw [if_neg hbss]
    exact ⟨_, rfl, ha.code, ha.codeAddr, ha.initData, rfl, fun _ => rfl, ha.body⟩

theorem Noff.Alike.convertSection (ha : n.Alike n') (hs : s.SameHeader s')
    (h : n.convertSection s = .ok m) : ∃ m', n'.convertSection s' = .ok m' ∧ m.Alike m' := by
  unfold Noff.convertSection at h ⊢
  rw [hs.sSize, hs.sName]
  by_cases hsize : s.sSize = 0
  · rw [if_pos hsize] at h ⊢
    cases h
    exact ⟨n', rfl, ha⟩
  · rw [if_neg hsize] at h ⊢
    cases hname : s.sName with
    | text =>
        rw [hname] at h
        exact ha.convertText hs h
    | data | rdata =>
        rw [hname] at h
        exact ha.convertData hs h
    | bss | sbss =>
        rw [hname] at h
        exact ha.convertBss hs h
    | other =>
        rw [hname] at h
        cases h

theorem Noff.Alike.convertSections {secs secs' : List Section}
    (hs : List.Forall₂ Section.SameHeader secs secs') :
    ∀ {n n' m : Noff}, n.Alike n' → n.convertSections secs = .ok m →
      ∃ m', n'.convertSections secs' = .ok m' ∧ m.Alike m' := by
  induction hs with
  | nil =>
      intro n n' m ha h
      cases h
      exact ⟨n', rfl, ha⟩
  | cons hone _ ih =>
      intro n n' m ha h
      unfold Noff.convertSections at h ⊢
      split at h
      · rename_i n₁ hn₁
        obtain ⟨n₁', hn₁', ha₁⟩ := ha.convertSection hone hn₁
        rw [hn₁']
        exact ih ha₁ h
      · cases h

end Alike

/-- **Only the headers count**: with other contents, and another stack, the file is
converted as well, to one with the same sizes. -/
theorem alike_of_sameHeaders {h h' : NoffHeader} {c c' : Coff} {n : Noff} (hc : c.SameHeaders c')
    (hn : coff2noff h c = .ok n) : ∃ n', coff2noff h' c' = .ok n' ∧ n.Alike n' := by
  have hstart : (⟨h.init, []⟩ : Noff).Alike ⟨h'.init, []⟩ :=
    ⟨rfl, fun hne => absurd rfl hne, rfl, rfl, fun hne => absurd rfl hne, rfl⟩
  obtain ⟨n', hn', ha⟩ := Noff.Alike.convertSections hc.sections hstart (coff2noff_ok hn)
  refine ⟨n', ?_, ha⟩
  unfold coff2noff at hn ⊢
  rw [hc.fMagic, hc.magic]
  split at hn
  · cases hn
  · rename_i hf
    rw [if_neg hf]
    split at hn
    · cases hn
    · rename_i hm
      rwa [if_neg hm]

end Nachos.Bin
