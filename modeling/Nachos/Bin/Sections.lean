import Nachos.Bin.Coff2noff

/-!
# Which sections are converted

NOFF has room for one block of code, one of initialised and one of uninitialised
data. The program refuses a second block of data. It does not look for a second
`.text`, and of the sections of uninitialised data it refuses those that are
contiguous and accepts the others.
-/

namespace Nachos.Bin

/-! ## Kinds of sections -/

/-- A section of code. -/
def Section.isText (s : Section) : Bool := s.sSize != 0 && s.sName == .text

/-- A section of initialised data. -/
def Section.isData (s : Section) : Bool := s.sSize != 0 && (s.sName == .data || s.sName == .rdata)

/-- What one section is. -/
inductive Section.Kind (s : Section) : Prop where
  | empty (hsize : s.sSize = 0)
  | text (hsize : s.sSize ≠ 0) (hname : s.sName = .text)
  | data (hsize : s.sSize ≠ 0) (hname : s.sName = .data ∨ s.sName = .rdata)
  | bss (hsize : s.sSize ≠ 0) (hname : s.sName = .bss ∨ s.sName = .sbss)

theorem Section.kind {s : Section} (h : s.sName ≠ .other) : s.Kind := by
  by_cases hsize : s.sSize = 0
  · exact .empty hsize
  · cases hname : s.sName with
    | text => exact .text hsize hname
    | data => exact .data hsize (.inl hname)
    | rdata => exact .data hsize (.inr hname)
    | bss => exact .bss hsize (.inl hname)
    | sbss => exact .bss hsize (.inr hname)
    | other => exact absurd hname h

/-- The bytes of sections in the file. -/
def totalSize (secs : List Section) : ℕ := (secs.map fun s => s.sSize.toNat).sum

/-- Where the uninitialised data are, and how much: the two fields of the header. -/
abbrev Extent : Type := UInt32 × UInt32

/-- The data with one section more. A size of zero counts as none. -/
def Extent.add (e : Extent) (s : Section) : Extent :=
  if e.2 = 0 then (s.sPaddr, s.sSize) else (e.1, e.2 + s.sSize)

/-- Some section starts where the ones before it end. -/
def Adjoins (e : Extent) : List Section → Prop
  | [] => False
  | s :: secs => e.2 ≠ 0 ∧ s.sPaddr = e.1 + e.2 ∨ Adjoins (e.add s) secs

instance (e : Extent) (secs : List Section) : Decidable (Adjoins e secs) :=
  match secs with
  | [] => inferInstanceAs (Decidable False)
  | s :: secs =>
      have := instDecidableAdjoins (e.add s) secs
      inferInstanceAs (Decidable (_ ∨ _))

/-- The contents of the sections are in the COFF file, and the NOFF file, with `k` bytes
in it already, has room for them. -/
def InFiles (k : ℕ) (secs : List Section) : Prop :=
  (∀ s ∈ secs.filter Section.inFile, s.sSize.toNat ≤ s.raw.length) ∧
    k + totalSize (secs.filter Section.inFile) < maxOffset

/-! ## One section -/

section One

variable {n n' : Noff} {s : Section} {secs : List Section}

theorem copySection_isOk_iff (n : Noff) (s : Section) :
    (∃ r, n.copySection s = .ok r) ↔
      s.sSize.toNat ≤ s.raw.length ∧ n.inNoffFile + s.sSize.toNat < maxOffset := by
  constructor
  · rintro ⟨r, hr⟩
    obtain ⟨hraw, hfit, -⟩ := Noff.copySection_eq_ok hr
    exact ⟨hraw, hfit⟩
  · rintro ⟨hraw, hfit⟩
    unfold Noff.copySection
    rw [if_neg (by omega), if_neg (by omega)]
    exact ⟨_, rfl⟩

/-- The extent of the uninitialised data in the header. -/
def Noff.extent (n : Noff) : Extent := (n.header.uninitData.virtualAddr, n.header.uninitData.size)

theorem convertText_isOk_iff (n : Noff) (s : Section) :
    (∃ n', n.convertText s = .ok n') ↔
      s.sSize.toNat ≤ s.raw.length ∧ n.inNoffFile + s.sSize.toNat < maxOffset := by
  rw [← copySection_isOk_iff]
  unfold Noff.convertText
  cases n.copySection s <;> simp

theorem convertData_isOk_iff (n : Noff) (s : Section) :
    (∃ n', n.convertData s = .ok n') ↔ n.header.initData.size = 0 ∧
      s.sSize.toNat ≤ s.raw.length ∧ n.inNoffFile + s.sSize.toNat < maxOffset := by
  rw [← copySection_isOk_iff]
  unfold Noff.convertData
  by_cases hdata : n.header.initData.size = 0
  · rw [if_neg (not_not.mpr hdata)]
    cases n.copySection s <;> simp [hdata]
  · rw [if_pos hdata]
    simp [hdata]

theorem convertBss_isOk_iff (n : Noff) (s : Section) :
    (∃ n', n.convertBss s = .ok n') ↔
      ¬ (n.extent.2 ≠ 0 ∧ s.sPaddr = n.extent.1 + n.extent.2) := by
  unfold Noff.convertBss Noff.extent
  dsimp only
  by_cases hsize : n.header.uninitData.size = 0
  · rw [if_neg (not_not.mpr hsize)]
    simp [hsize]
  · rw [if_pos hsize]
    by_cases hadj : s.sPaddr = n.header.uninitData.virtualAddr + n.header.uninitData.size
    · rw [if_pos hadj]
      simp [hsize, hadj]
    · rw [if_neg hadj]
      simp [hadj]

/-- What a section leaves as it is, and what it sets. -/
theorem convertText_ok (h : n.convertText s = .ok n') :
    n'.header.initData = n.header.initData ∧ n'.extent = n.extent ∧
      n'.inNoffFile = n.inNoffFile + s.sSize.toNat := by
  unfold Noff.convertText at h
  split at h
  · rename_i hcopy
    obtain rfl := Except.ok.inj h
    obtain ⟨hraw, -, hr⟩ := Noff.copySection_eq_ok hcopy
    obtain ⟨-, rfl⟩ := Prod.mk.inj hr
    refine ⟨rfl, rfl, ?_⟩
    simp only [Noff.inNoffFile, List.length_append, Section.contents, List.length_take]
    omega
  · cases h

theorem convertData_ok (h : n.convertData s = .ok n') :
    n'.header.initData.size = s.sSize ∧ n'.extent = n.extent ∧
      n'.inNoffFile = n.inNoffFile + s.sSize.toNat := by
  unfold Noff.convertData at h
  split at h
  · cases h
  · split at h
    · rename_i hcopy
      obtain rfl := Except.ok.inj h
      obtain ⟨hraw, -, hr⟩ := Noff.copySection_eq_ok hcopy
      obtain ⟨rfl, rfl⟩ := Prod.mk.inj hr
      refine ⟨rfl, rfl, ?_⟩
      simp only [Noff.inNoffFile, List.length_append, Section.contents, List.length_take]
      omega
    · cases h

theorem convertBss_ok (h : n.convertBss s = .ok n') :
    n'.header.initData = n.header.initData ∧ n'.header.code = n.header.code ∧
      n'.extent = n.extent.add s ∧ n'.body = n.body := by
  unfold Noff.convertBss at h
  dsimp only at h
  split at h
  · rename_i hsize
    split at h
    · cases h
    · obtain rfl := Except.ok.inj h
      refine ⟨rfl, rfl, ?_, rfl⟩
      exact (if_neg hsize).symm
  · rename_i hsize
    obtain rfl := Except.ok.inj h
    refine ⟨rfl, rfl, ?_, rfl⟩
    exact (if_pos (not_not.mp hsize)).symm

end One

/-! ## The loop -/

section Loop

variable {n n' : Noff} {s : Section} {secs : List Section} {k : ℕ}

theorem inFiles_skip (h : s.inFile = false) : InFiles k (s :: secs) ↔ InFiles k secs := by
  rw [InFiles, InFiles, List.filter_cons_of_neg (by simp [h])]

theorem inFiles_copy (h : s.inFile = true) :
    InFiles k (s :: secs) ↔ s.sSize.toNat ≤ s.raw.length ∧ k + s.sSize.toNat < maxOffset ∧
      InFiles (k + s.sSize.toNat) secs := by
  rw [InFiles, InFiles, List.filter_cons_of_pos h, List.forall_mem_cons, totalSize, List.map_cons,
    List.sum_cons, ← totalSize, ← Nat.add_assoc]
  constructor
  · rintro ⟨⟨hraw, hrest⟩, hfit⟩
    exact ⟨hraw, Nat.lt_of_le_of_lt (Nat.le_add_right ..) hfit, hrest, hfit⟩
  · rintro ⟨hraw, -, hrest, hfit⟩
    exact ⟨⟨hraw, hrest⟩, hfit⟩

theorem convertSections_cons :
    (∃ n', n.convertSections (s :: secs) = .ok n') ↔
      ∃ n₁, n.convertSection s = .ok n₁ ∧ ∃ n', n₁.convertSections secs = .ok n' := by
  constructor
  · rintro ⟨n', h⟩
    unfold Noff.convertSections at h
    split at h
    · rename_i n₁ h₁
      exact ⟨n₁, h₁, n', h⟩
    · cases h
  · rintro ⟨n₁, h₁, n', h'⟩
    refine ⟨n', ?_⟩
    rw [Noff.convertSections, h₁]
    exact h'

/-- How many sections of initialised data the header has room for. -/
def Noff.dataLeft (n : Noff) : ℕ := if n.header.initData.size = 0 then 1 else 0

/-- **When the loop gets to its end**: the contents are there, there is no second section
of initialised data, and no section of uninitialised data is contiguous to those
before it. -/
theorem convertSections_isOk_iff (hn : n.inNoffFile < maxOffset)
    (hnames : ∀ s ∈ secs, s.sName ≠ .other) :
    (∃ n', n.convertSections secs = .ok n') ↔ InFiles n.inNoffFile secs ∧
      (secs.filter Section.isData).length ≤ n.dataLeft ∧
      ¬ Adjoins n.extent (secs.filter Section.zeroed) := by
  induction secs generalizing n with
  | nil => exact iff_of_true ⟨n, rfl⟩ ⟨⟨nofun, hn⟩, Nat.zero_le _, id⟩
  | cons s secs ih =>
      obtain ⟨hname, hrest⟩ := List.forall_mem_cons.mp hnames
      rw [convertSections_cons]
      cases Section.kind hname with
      | empty hsize =>
          rw [inFiles_skip (by simp [Section.inFile, hsize]),
            List.filter_cons_of_neg (by simp [Section.isData, hsize]),
            List.filter_cons_of_neg (by simp [Section.zeroed, hsize]), ← ih hn hrest]
          simp [Noff.convertSection, hsize]
      | text hsize htext =>
          have hconv : n.convertSection s = n.convertText s := by
            simp only [Noff.convertSection, hsize, htext, if_false]
          rw [inFiles_copy (by simp [Section.inFile, hsize, htext]),
            List.filter_cons_of_neg (by simp [Section.isData, htext]),
            List.filter_cons_of_neg (by simp [Section.zeroed, htext]), hconv]
          constructor
          · rintro ⟨n₁, h₁, hok⟩
            obtain ⟨hraw, hfit⟩ := (convertText_isOk_iff n s).mp ⟨n₁, h₁⟩
            obtain ⟨hdata, hext, hpos⟩ := convertText_ok h₁
            obtain ⟨hin, hone, hadj⟩ := (ih (by omega) hrest).mp hok
            rw [hpos] at hin
            rw [Noff.dataLeft, hdata] at hone
            rw [hext] at hadj
            exact ⟨⟨hraw, hfit, hin⟩, hone, hadj⟩
          · rintro ⟨⟨hraw, hfit, hin⟩, hone, hadj⟩
            obtain ⟨n₁, h₁⟩ := (convertText_isOk_iff n s).mpr ⟨hraw, hfit⟩
            obtain ⟨hdata, hext, hpos⟩ := convertText_ok h₁
            refine ⟨n₁, h₁, (ih (by omega) hrest).mpr ⟨?_, ?_, ?_⟩⟩
            · rwa [hpos]
            · rwa [Noff.dataLeft, hdata]
            · rwa [hext]
      | data hsize hname =>
          have hconv : n.convertSection s = n.convertData s := by
            rcases hname with hname | hname <;>
              simp only [Noff.convertSection, hsize, hname, if_false]
          rw [inFiles_copy (by rcases hname with h | h <;> simp [Section.inFile, hsize, h]),
            List.filter_cons_of_pos (by rcases hname with h | h <;> simp [Section.isData, hsize, h]),
            List.filter_cons_of_neg (by rcases hname with h | h <;> simp [Section.zeroed, h]),
            hconv, List.length_cons]
          constructor
          · rintro ⟨n₁, h₁, hok⟩
            obtain ⟨hzero, hraw, hfit⟩ := (convertData_isOk_iff n s).mp ⟨n₁, h₁⟩
            obtain ⟨hdata, hext, hpos⟩ := convertData_ok h₁
            obtain ⟨hin, hone, hadj⟩ := (ih (by omega) hrest).mp hok
            rw [hpos] at hin
            rw [Noff.dataLeft, hdata, if_neg hsize] at hone
            rw [hext] at hadj
            refine ⟨⟨hraw, hfit, hin⟩, ?_, hadj⟩
            rw [Noff.dataLeft, if_pos hzero]
            omega
          · rintro ⟨⟨hraw, hfit, hin⟩, hone, hadj⟩
            -- one more is one, and the header had none
            have hzero : n.header.initData.size = 0 := by
              by_contra hne
              rw [Noff.dataLeft, if_neg hne] at hone
              omega
            rw [Noff.dataLeft, if_pos hzero] at hone
            obtain ⟨n₁, h₁⟩ := (convertData_isOk_iff n s).mpr ⟨hzero, hraw, hfit⟩
            obtain ⟨hdata, hext, hpos⟩ := convertData_ok h₁
            refine ⟨n₁, h₁, (ih (by omega) hrest).mpr ⟨?_, ?_, ?_⟩⟩
            · rwa [hpos]
            · omega
            · rwa [hext]
      | bss hsize hname =>
          have hconv : n.convertSection s = n.convertBss s := by
            rcases hname with hname | hname <;>
              simp only [Noff.convertSection, hsize, hname, if_false]
          rw [inFiles_skip (by rcases hname with h | h <;> simp [Section.inFile, h]),
            List.filter_cons_of_neg (by rcases hname with h | h <;> simp [Section.isData, h]),
            List.filter_cons_of_pos (by rcases hname with h | h <;> simp [Section.zeroed, hsize, h]),
            hconv, Adjoins, not_or]
          constructor
          · rintro ⟨n₁, h₁, hok⟩
            obtain ⟨hdata, -, hext, hbody⟩ := convertBss_ok h₁
            have hpos : n₁.inNoffFile = n.inNoffFile := by
              rw [Noff.inNoffFile, Noff.inNoffFile, hbody]
            obtain ⟨hin, hone, hadj⟩ := (ih (by omega) hrest).mp hok
            rw [hpos] at hin
            rw [Noff.dataLeft, hdata] at hone
            rw [hext] at hadj
            exact ⟨hin, hone, (convertBss_isOk_iff n s).mp ⟨n₁, h₁⟩, hadj⟩
          · rintro ⟨hin, hone, hhere, hadj⟩
            obtain ⟨n₁, h₁⟩ := (convertBss_isOk_iff n s).mpr hhere
            obtain ⟨hdata, -, hext, hbody⟩ := convertBss_ok h₁
            have hpos : n₁.inNoffFile = n.inNoffFile := by
              rw [Noff.inNoffFile, Noff.inNoffFile, hbody]
            refine ⟨n₁, h₁, (ih (by omega) hrest).mpr ⟨?_, ?_, ?_⟩⟩
            · rwa [hpos]
            · rwa [Noff.dataLeft, hdata]
            · rwa [hext]

end Loop

/-! ## What the header says -/

/-- The segment of the header is the section: address, size, and the bytes of the file. -/
def Noff.Holds (n : Noff) (seg : Segment) (s : Section) : Prop :=
  seg.virtualAddr = s.sPaddr ∧ seg.size = s.sSize ∧
    ∀ i < s.sSize.toNat, n.file[seg.inFileAddr.toNat + i]? = s.contents[i]?

/-- A segment that is the last of some sections, or empty if there are none. Its bytes are
in the file already. -/
structure Noff.Describes (n : Noff) (seg : Segment) (secs : List Section) : Prop where
  none : secs = [] → seg.size = 0
  last : ∀ s, secs.getLast? = some s → n.Holds seg s ∧
    headerSize ≤ seg.inFileAddr.toNat ∧ seg.inFileAddr.toNat + s.sSize.toNat ≤ n.inNoffFile

/-- What the header says of the sections so far. -/
structure Gathered (pre : List Section) (n : Noff) : Prop where
  fits : n.inNoffFile < maxOffset
  code : n.Describes n.header.code (pre.filter Section.isText)
  initData : n.Describes n.header.initData (pre.filter Section.isData)
  extent : ∃ e : Extent, e.2 = 0 ∧ (pre.filter Section.zeroed).foldl Extent.add e = n.extent

section Header

variable {n n' : Noff} {s : Section} {pre secs : List Section} {seg : Segment}

/-- What stands in the file stays there. -/
theorem Noff.Describes.append (h : n.Describes seg secs) {more : List UInt8}
    (hbody : n'.body = n.body ++ more) : n'.Describes seg secs := by
  refine ⟨h.none, fun s hs => ?_⟩
  obtain ⟨⟨haddr, hsize, hbytes⟩, hstart, hend⟩ := h.last s hs
  have hlen : n'.inNoffFile = n.inNoffFile + more.length := by
    rw [Noff.inNoffFile, Noff.inNoffFile, hbody, List.length_append, Nat.add_assoc]
  refine ⟨⟨haddr, hsize, fun i hi => ?_⟩, hstart, by omega⟩
  obtain ⟨k, hk⟩ := Nat.exists_eq_add_of_le hstart
  have hold := hbytes i hi
  unfold Noff.inNoffFile at hend
  rw [hk, Nat.add_assoc, Noff.file_body] at hold ⊢
  rw [hbody, List.getElem?_append_left (by omega), hold]

/-- The segment of a section just copied. -/
theorem describes_copied (hfits : n.inNoffFile < maxOffset) (hbody : n'.body = n.body ++ s.contents)
    (hlen : s.contents.length = s.sSize.toNat)
    (hseg : seg = ⟨s.sPaddr, UInt32.ofNat n.inNoffFile, s.sSize⟩) :
    n'.Describes seg (secs ++ [s]) := by
  have haddr : seg.inFileAddr.toNat = n.inNoffFile := by
    unfold maxOffset at hfits
    rw [hseg, UInt32.toNat_ofNat', Nat.mod_eq_of_lt (by omega)]
  refine ⟨fun hnil => absurd hnil (by simp), fun t ht => ?_⟩
  rw [List.getLast?_append_of_ne_nil _ (by simp), List.getLast?_singleton] at ht
  obtain rfl := Option.some.inj ht
  refine ⟨⟨by rw [hseg], by rw [hseg], fun i hi => ?_⟩, ?_, ?_⟩
  · rw [haddr, Noff.inNoffFile, Nat.add_assoc, Noff.file_body, hbody,
      List.getElem?_append_right (Nat.le_add_right ..), Nat.add_sub_cancel_left]
  · rw [haddr, Noff.inNoffFile]
    exact Nat.le_add_right ..
  · rw [haddr, Noff.inNoffFile, Noff.inNoffFile, hbody, List.length_append, hlen]
    omega

theorem filter_snoc {p : Section → Bool} (pre : List Section) (h : p s = true) :
    (pre ++ [s]).filter p = pre.filter p ++ [s] := by
  rw [List.filter_append, List.filter_cons_of_pos h, List.filter_nil]

theorem filter_snoc_not {p : Section → Bool} (pre : List Section) (h : p s = false) :
    (pre ++ [s]).filter p = pre.filter p := by
  rw [List.filter_append, List.filter_cons_of_neg (by simp [h]), List.filter_nil, List.append_nil]

theorem Gathered.init (h : NoffHeader) : Gathered [] ⟨h.init, []⟩ where
  fits := (show headerSize + 0 < maxOffset by decide)
  code := ⟨fun _ => rfl, nofun⟩
  initData := ⟨fun _ => rfl, nofun⟩
  extent := ⟨(h.uninitData.virtualAddr, 0), rfl, rfl⟩

/-- **One section** changes what the header says of its kind. -/
theorem Gathered.step (hg : Gathered pre n) (hname : s.sName ≠ .other)
    (h : n.convertSection s = .ok n') : Gathered (pre ++ [s]) n' := by
  cases Section.kind hname with
  | empty hsize =>
      simp only [Noff.convertSection, hsize, if_true] at h
      obtain rfl := Except.ok.inj h
      refine ⟨hg.fits, ?_, ?_, ?_⟩
      · rw [filter_snoc_not pre (by simp [Section.isText, hsize])]
        exact hg.code
      · rw [filter_snoc_not pre (by simp [Section.isData, hsize])]
        exact hg.initData
      · rw [filter_snoc_not pre (by simp [Section.zeroed, hsize])]
        exact hg.extent
  | text hsize htext =>
      have hconv : n.convertText s = .ok n' := by
        simpa only [Noff.convertSection, hsize, htext, if_false] using h
      have hcopy := Noff.copied_text hsize htext hconv
      obtain ⟨-, hext, hpos⟩ := convertText_ok hconv
      obtain ⟨-, hdata, hcode⟩ | ⟨hne, -⟩ := hcopy.segment
      · have hlen : s.contents.length = s.sSize.toNat := by
          rw [Section.contents, List.length_take, Nat.min_eq_left hcopy.raw]
        have hfits := hcopy.fits
        refine ⟨by omega, ?_, ?_, ?_⟩
        · rw [filter_snoc pre (by simp [Section.isText, hsize, htext])]
          exact describes_copied hg.fits hcopy.body hlen hcode
        · rw [filter_snoc_not pre (by simp [Section.isData, htext]), hdata]
          exact hg.initData.append hcopy.body
        · rw [filter_snoc_not pre (by simp [Section.zeroed, htext]), hext]
          exact hg.extent
      · exact absurd htext hne
  | data hsize hkind =>
      have hne : s.sName ≠ .text := by
        rcases hkind with hkind | hkind <;> simp [hkind]
      have hconv : n.convertData s = .ok n' := by
        rcases hkind with hkind | hkind <;>
          simpa only [Noff.convertSection, hsize, hkind, if_false] using h
      have hin : s.inFile = true := by
        rcases hkind with hkind | hkind <;> simp [Section.inFile, hsize, hkind]
      have hcopy := Noff.copied_data hin hne hconv
      obtain ⟨-, hext, hpos⟩ := convertData_ok hconv
      obtain ⟨htext, -⟩ | ⟨-, -, hcode, hdata⟩ := hcopy.segment
      · exact absurd htext hne
      · have hlen : s.contents.length = s.sSize.toNat := by
          rw [Section.contents, List.length_take, Nat.min_eq_left hcopy.raw]
        have hfits := hcopy.fits
        refine ⟨by omega, ?_, ?_, ?_⟩
        · rw [filter_snoc_not pre (by simp [Section.isText, hne]), hcode]
          exact hg.code.append hcopy.body
        · rw [filter_snoc pre (by rcases hkind with h | h <;> simp [Section.isData, hsize, h])]
          exact describes_copied hg.fits hcopy.body hlen hdata
        · rw [filter_snoc_not pre (by rcases hkind with h | h <;> simp [Section.zeroed, h]), hext]
          exact hg.extent
  | bss hsize hkind =>
      have hconv : n.convertBss s = .ok n' := by
        rcases hkind with hkind | hkind <;>
          simpa only [Noff.convertSection, hsize, hkind, if_false] using h
      obtain ⟨hdata, hcode, hext, hbody⟩ := convertBss_ok hconv
      rw [← List.append_nil n.body] at hbody
      refine ⟨?_, ?_, ?_, ?_⟩
      · have hfits := hg.fits
        unfold Noff.inNoffFile at hfits ⊢
        rwa [hbody, List.append_nil]
      · rw [filter_snoc_not pre (by rcases hkind with h | h <;> simp [Section.isText, h]), hcode]
        exact hg.code.append hbody
      · rw [filter_snoc_not pre (by rcases hkind with h | h <;> simp [Section.isData, h]), hdata]
        exact hg.initData.append hbody
      · obtain ⟨e, he, hfold⟩ := hg.extent
        rw [filter_snoc pre (by rcases hkind with h | h <;> simp [Section.zeroed, hsize, h])]
        refine ⟨e, he, ?_⟩
        rw [List.foldl_append, hfold, hext]
        rfl

theorem Gathered.convertSections (hg : Gathered pre n) (hnames : ∀ s ∈ secs, s.sName ≠ .other)
    (h : n.convertSections secs = .ok n') : Gathered (pre ++ secs) n' := by
  induction secs generalizing pre n with
  | nil =>
      obtain rfl := Except.ok.inj h
      rwa [List.append_nil]
  | cons s secs ih =>
      obtain ⟨hname, hrest⟩ := List.forall_mem_cons.mp hnames
      unfold Noff.convertSections at h
      split at h
      · rename_i n₁ h₁
        have hall := ih (hg.step hname h₁) hrest h
        rwa [List.append_assoc, List.singleton_append] at hall
      · cases h

end Header

/-! ## What the conversion is for -/

/-- Sections one behind the other in memory. -/
def Contiguous (secs : List Section) : Prop :=
  secs.IsChain fun s t => t.sPaddr.toNat = s.sPaddr.toNat + s.sSize.toNat

instance (secs : List Section) : Decidable (Contiguous secs) :=
  inferInstanceAs (Decidable (List.IsChain _ _))

/-- NOFF can express the sections. -/
structure Expressible (secs : List Section) : Prop where
  oneText : (secs.filter Section.isText).length ≤ 1
  oneData : (secs.filter Section.isData).length ≤ 1
  contiguous : Contiguous (secs.filter Section.zeroed)

/-- The header says exactly what the sections say. -/
structure Faithful (secs : List Section) (n : Noff) : Prop where
  noCode : secs.filter Section.isText = [] → n.header.code.size = 0
  code : ∀ s ∈ secs.filter Section.isText, n.Holds n.header.code s
  noData : secs.filter Section.isData = [] → n.header.initData.size = 0
  initData : ∀ s ∈ secs.filter Section.isData, n.Holds n.header.initData s
  uninitData : ∀ a, (n.extent.1.toNat ≤ a ∧ a < n.extent.1.toNat + n.extent.2.toNat) ↔
    ∃ s ∈ secs.filter Section.zeroed, s.sPaddr.toNat ≤ a ∧ a < s.sPaddr.toNat + s.sSize.toNat

/-- A COFF file with these sections. -/
def coffOf (secs : List Section) : Coff := ⟨mipselMagic, oMagic, secs⟩

/-- **The conversion is exact** on these sections: it succeeds if and only if NOFF can
express them, and then the header says what they say. -/
structure Exact (h : NoffHeader) (secs : List Section) : Prop where
  succeeds : (∃ n, coff2noff h (coffOf secs) = .ok n) ↔ Expressible secs
  faithful : ∀ n, coff2noff h (coffOf secs) = .ok n → Faithful secs n

/-- The sections on which the two wrong tests make no difference: there is a second
section of data, which is refused; or there is no second section of code or of
uninitialised data, and nothing is missing; or the sections cannot be expressed, and
something else is refused. -/
def Harmless (secs : List Section) : Prop :=
  1 < (secs.filter Section.isData).length ∨
    ((secs.filter Section.isText).length ≤ 1 ∧ (secs.filter Section.zeroed).length ≤ 1 ∧
      InFiles headerSize secs) ∨
    ((1 < (secs.filter Section.isText).length ∨ ¬ Contiguous (secs.filter Section.zeroed)) ∧
      (Adjoins (0, 0) (secs.filter Section.zeroed) ∨ ¬ InFiles headerSize secs))

section Exactness

variable {h : NoffHeader} {secs : List Section} {n : Noff} {e : Extent}

theorem coff2noff_coffOf (h : NoffHeader) (secs : List Section) :
    coff2noff h (coffOf secs) = Noff.convertSections ⟨h.init, []⟩ secs := by
  have hmips : ¬ (coffOf secs).fMagic ≠ mipselMagic := not_not.mpr rfl
  have homagic : ¬ (coffOf secs).magic ≠ oMagic := not_not.mpr rfl
  rw [coff2noff, if_neg hmips, if_neg homagic]
  rfl

/-- At the start no section is adjacent to anything. -/
theorem adjoins_start (he : e.2 = 0) (secs : List Section) :
    Adjoins e secs ↔ Adjoins (0, 0) secs := by
  cases secs with
  | nil => rfl
  | cons s secs =>
      have hadd : e.add s = Extent.add (0, 0) s := by
        rw [Extent.add, if_pos he]
        rfl
      simp only [Adjoins, he, hadd, ne_eq, not_true_eq_false, false_and]

/-- **When the conversion succeeds.** -/
theorem coff2noff_isOk_iff (h : NoffHeader) (hnames : ∀ s ∈ secs, s.sName ≠ .other) :
    (∃ n, coff2noff h (coffOf secs) = .ok n) ↔ InFiles headerSize secs ∧
      (secs.filter Section.isData).length ≤ 1 ∧
      ¬ Adjoins (0, 0) (secs.filter Section.zeroed) := by
  have hfits : Noff.inNoffFile ⟨h.init, []⟩ < maxOffset :=
    (show headerSize + 0 < maxOffset by decide)
  rw [coff2noff_coffOf, convertSections_isOk_iff hfits hnames,
    adjoins_start (e := Noff.extent ⟨h.init, []⟩) rfl]
  rfl

/-- **Contiguous sections are refused.** -/
theorem adjoins_of_contiguous (hc : Contiguous secs) (hsize : ∀ s ∈ secs, s.sSize ≠ 0)
    (hlen : 1 < secs.length) : Adjoins (0, 0) secs := by
  match secs, hc, hlen with
  | s :: t :: secs, hc, _ =>
      have hnext : t.sPaddr.toNat = s.sPaddr.toNat + s.sSize.toNat :=
        (List.isChain_cons_cons.mp hc).1
      have hlt := t.sPaddr.toNat_lt
      have heq : t.sPaddr = s.sPaddr + s.sSize := by
        rw [← UInt32.toNat_inj, UInt32.toNat_add, hnext, Nat.mod_eq_of_lt (by omega)]
      exact .inr (.inl ⟨hsize s List.mem_cons_self, heq⟩)

theorem zeroed_size : ∀ s ∈ secs.filter Section.zeroed, s.sSize ≠ 0 := by
  intro s hs hzero
  have hz := (List.mem_filter.mp hs).2
  simp [Section.zeroed, hzero] at hz

theorem eq_of_length_le_one {α : Type} {l : List α} (h : l.length ≤ 1) : l = [] ∨ ∃ a, l = [a] := by
  match l, h with
  | [], _ => exact .inl rfl
  | [a], _ => exact .inr ⟨a, rfl⟩

theorem Noff.Describes.holds {seg : Segment} (hd : n.Describes seg secs) (hlen : secs.length ≤ 1) :
    ∀ s ∈ secs, n.Holds seg s := by
  intro s hs
  rcases eq_of_length_le_one hlen with rfl | ⟨t, rfl⟩
  · cases hs
  · obtain rfl := List.mem_singleton.mp hs
    exact (hd.last s rfl).1

/-- **With one section of each kind** the header is right. -/
theorem Gathered.faithful (hg : Gathered secs n) (htext : (secs.filter Section.isText).length ≤ 1)
    (hdata : (secs.filter Section.isData).length ≤ 1)
    (hbss : (secs.filter Section.zeroed).length ≤ 1) : Faithful secs n := by
  refine ⟨hg.code.none, hg.code.holds htext, hg.initData.none, hg.initData.holds hdata, fun a => ?_⟩
  obtain ⟨e, he, hfold⟩ := hg.extent
  rcases eq_of_length_le_one hbss with hnil | ⟨s, hone⟩
  · -- no section, and an empty range
    rw [hnil, List.foldl_nil] at hfold
    have hzero : n.extent.2.toNat = 0 := by
      rw [← hfold, he]
      rfl
    rw [hnil, hzero]
    refine iff_of_false ?_ (by simp)
    omega
  · rw [hone, List.foldl_cons, List.foldl_nil, Extent.add, if_pos he] at hfold
    rw [hone, ← hfold]
    simp

end Exactness

end Nachos.Bin
