import Nachos.Bin.Coff2noff
import Nachos.VM.Space

/-!
# Loading a converted program

The address space takes two things from the header: the size of everything, for
the number of pages, and the block of code and initialised data, which it takes to
be one run of bytes of the file from the start of the code on, and to go to virtual
address 0. A page is read when it is brought in for the first time; pages behind
the block keep what their frame held.

`frames` is the contents of the frame each page is given.
-/

namespace Nachos.Bin

open Nachos.VM (Page zeroPage pageSize divRoundUp userStackSize)

namespace Noff

/-! ## The loader -/

/-- `OpenFile::ReadAt`. A negative position fails the assertion in `Lseek`. -/
def readAt (n : Noff) (into : Page) (numBytes : ℕ) (position : UInt32) : Option Page :=
  if maxOffset ≤ position.toNat then none
  else some fun o =>
    if o < numBytes then n.file[position.toNat + o]?.getD (into o) else into o

def codeAndInitDataSize (n : Noff) : ℕ := (n.header.code.size + n.header.initData.size).toNat

def codeAndInitDataNumPages (n : Noff) : ℕ := divRoundUp n.codeAndInitDataSize pageSize

/-- The pages of the space; the sum is one of `unsigned int`s. -/
def numPages (n : Noff) : ℕ :=
  divRoundUp (n.header.code.size + n.header.initData.size + n.header.uninitData.size).toNat
    pageSize + divRoundUp userStackSize pageSize

/-- `diskLocation` of a page of the block. -/
def diskLocation (n : Noff) (vpn : ℕ) : UInt32 :=
  n.header.code.inFileAddr + UInt32.ofNat (vpn * pageSize)

/-- What `updateIPT` leaves in the frame of a page that it brings in for the first
time. -/
def bringIn (n : Noff) (vpn : ℕ) (frame : Page) : Option Page :=
  if n.numPages ≤ vpn then none
  else if vpn < n.codeAndInitDataNumPages then
    if vpn = n.codeAndInitDataNumPages - 1 then
      n.readAt zeroPage (n.codeAndInitDataSize - (n.codeAndInitDataNumPages - 1) * pageSize)
        (n.diskLocation vpn)
    else n.readAt zeroPage pageSize (n.diskLocation vpn)
  else some frame

/-- The byte found at a virtual address once its page is there. -/
def byteAt (n : Noff) (frames : ℕ → Page) (vaddr : ℕ) : Option UInt8 :=
  (n.bringIn (vaddr / pageSize) (frames (vaddr / pageSize))).map (· (vaddr % pageSize))

end Noff

/-! ## What the section headers say -/

/-- **The image is preserved**: every section with contents is found where its header
puts it, and every section without is zero. -/
structure Preserved (c : Coff) (n : Noff) (frames : ℕ → Page) : Prop where
  contents : ∀ s ∈ c.sections, s.inFile = true → ∀ k < s.sSize.toNat,
    s.sPaddr.toNat + k < 2 ^ 32 ∧ n.byteAt frames (s.sPaddr.toNat + k) = s.contents[k]?
  zeros : ∀ s ∈ c.sections, s.zeroed = true → ∀ k < s.sSize.toNat,
    s.sPaddr.toNat + k < 2 ^ 32 ∧ n.byteAt frames (s.sPaddr.toNat + k) = some 0

/-- The sections with contents are one `.text` at address 0 and at most one of data,
behind it in the file and in memory, without a gap. -/
def Linked (c : Coff) : Prop :=
  match c.sections.filter Section.inFile with
  | [] => True
  | [t] => t.sName = .text ∧ t.sPaddr = 0
  | [t, d] => t.sName = .text ∧ t.sPaddr = 0 ∧ d.sName ≠ .text ∧ d.sPaddr = t.sSize
  | _ => False

/-- The space has room for every section. -/
def HasRoom (c : Coff) (n : Noff) : Prop :=
  ∀ s ∈ c.sections, s.inFile = true ∨ s.zeroed = true → ∀ k < s.sSize.toNat,
    s.sPaddr.toNat + k < 2 ^ 32 ∧ (s.sPaddr.toNat + k) / pageSize < n.numPages

/-- The bytes without contents are behind the block, and on pages that are cleared:
the last page of the block, or one whose frame was zero there. -/
def Cleared (c : Coff) (n : Noff) (frames : ℕ → Page) : Prop :=
  ∀ s ∈ c.sections, s.zeroed = true → ∀ k < s.sSize.toNat,
    n.codeAndInitDataSize ≤ s.sPaddr.toNat + k ∧
      ((s.sPaddr.toNat + k) / pageSize < n.codeAndInitDataNumPages ∨
        frames ((s.sPaddr.toNat + k) / pageSize) ((s.sPaddr.toNat + k) % pageSize) = 0)

/-! ## What is found at an address -/

section Found

variable {n : Noff} {frames : ℕ → Page} {v : ℕ}

theorem div_lt_divRoundUp {n v : ℕ} (h : v < n) : v / pageSize < divRoundUp n pageSize := by
  unfold divRoundUp pageSize
  split <;> omega

/-- A page of the block starts in the block. -/
theorem first_lt_size {vpn : ℕ} (h : vpn < n.codeAndInitDataNumPages) :
    vpn * pageSize < n.codeAndInitDataSize := by
  unfold Noff.codeAndInitDataNumPages divRoundUp pageSize at h
  unfold pageSize
  split at h <;> omega

/-- Behind the pages of the block. -/
theorem byteAt_frame (hin : v / pageSize < n.numPages)
    (hpage : n.codeAndInitDataNumPages ≤ v / pageSize) :
    n.byteAt frames v = some (frames (v / pageSize) (v % pageSize)) := by
  rw [Noff.byteAt, Noff.bringIn, if_neg (by omega), if_neg (by omega), Option.map_some]

/-- How much is read of a page of the block: all of it that is in the block. -/
theorem lt_count_iff {size pages : ℕ} (hpages : pages = divRoundUp size pageSize)
    (hpage : v / pageSize < pages) :
    v % pageSize < (if v / pageSize = pages - 1 then size - (pages - 1) * pageSize else pageSize) ↔
      v < size := by
  unfold divRoundUp pageSize at hpages
  unfold pageSize at *
  split at hpages <;> split <;> omega

/-- On the pages of the block. -/
theorem byteAt_block (hin : v / pageSize < n.numPages)
    (hpage : v / pageSize < n.codeAndInitDataNumPages) :
    n.byteAt frames v = if maxOffset ≤ (n.diskLocation (v / pageSize)).toNat then none
      else some (if v < n.codeAndInitDataSize then
        n.file[(n.diskLocation (v / pageSize)).toNat + v % pageSize]?.getD 0 else 0) := by
  have hcount : _ ↔ v < n.codeAndInitDataSize := lt_count_iff rfl hpage
  have hread : n.bringIn (v / pageSize) (frames (v / pageSize)) = n.readAt zeroPage
      (if v / pageSize = n.codeAndInitDataNumPages - 1 then
        n.codeAndInitDataSize - (n.codeAndInitDataNumPages - 1) * pageSize else pageSize)
      (n.diskLocation (v / pageSize)) := by
    rw [Noff.bringIn, if_neg (by omega), if_pos hpage]
    split <;> rfl
  rw [Noff.byteAt, hread, Noff.readAt]
  split
  · rfl
  · rw [Option.map_some]
    exact congrArg some (if_congr hcount rfl rfl)

/-- The loader's arithmetic in the file, when it does not overflow. -/
theorem diskLocation_add (hfit : n.header.code.inFileAddr.toNat + v < 2 ^ 32) :
    (n.diskLocation (v / pageSize)).toNat + v % pageSize =
      n.header.code.inFileAddr.toNat + v := by
  have hpage : v / pageSize * pageSize ≤ v := Nat.div_mul_le_self v pageSize
  have hv := Nat.div_add_mod' v pageSize
  rw [Noff.diskLocation, UInt32.toNat_add, UInt32.toNat_ofNat',
    Nat.mod_eq_of_lt (show v / pageSize * pageSize < 2 ^ 32 by omega), Nat.mod_eq_of_lt (by omega)]
  omega

/-- In the block the bytes of the file are found, from the start of the code on. -/
theorem byteAt_file (hin : v / pageSize < n.numPages) (hv : v < n.codeAndInitDataSize)
    (hfit : n.header.code.inFileAddr.toNat + v < maxOffset) :
    n.byteAt frames v = some (n.file[n.header.code.inFileAddr.toNat + v]?.getD 0) := by
  have hdisk : _ = n.header.code.inFileAddr.toNat + v :=
    diskLocation_add (by unfold maxOffset at hfit; omega)
  rw [byteAt_block hin (div_lt_divRoundUp hv), if_neg (by omega), if_pos hv, hdisk]

theorem file_of_byteAt {b : UInt8} (hin : v / pageSize < n.numPages)
    (hv : v < n.codeAndInitDataSize) (hfit : n.header.code.inFileAddr.toNat + v < 2 ^ 32)
    (h : n.byteAt frames v = some b) : n.file[n.header.code.inFileAddr.toNat + v]?.getD 0 = b := by
  rw [byteAt_block hin (div_lt_divRoundUp hv), if_pos hv, diskLocation_add hfit] at h
  split at h
  · cases h
  · exact Option.some.inj h

/-- A byte can be found only in the space. -/
theorem lt_numPages_of_byteAt {b : UInt8} (h : n.byteAt frames v = some b) :
    v / pageSize < n.numPages := by
  by_contra hout
  rw [Noff.byteAt, Noff.bringIn, if_pos (not_lt.mp hout)] at h
  cases h

end Found

/-! ## A linked program is loaded as it was linked -/

section Linked

variable {h : NoffHeader} {c : Coff} {n : Noff} {frames : ℕ → Page}

/-- A section with contents, with those that come before and behind it in the file. -/
theorem exists_split {s : Section} {secs : List Section} (hs : s ∈ secs) (hin : s.inFile = true) :
    ∃ l₁ l₂, secs.filter Section.inFile = l₁ ++ s :: l₂ :=
  List.append_of_mem (List.mem_filter.mpr ⟨hs, hin⟩)

/-- Where the bytes of a section are in the file. -/
theorem Converted.file_eq (hc : Converted h c.sections n) {l₁ l₂ : List Section} {s : Section}
    (hsplit : c.sections.filter Section.inFile = l₁ ++ s :: l₂) {k : ℕ}
    (hk : k < s.contents.length) :
    n.file[headerSize + (image l₁).length + k]? = s.contents[k]? := by
  rw [Nat.add_assoc, Noff.file_body, hc.body, hsplit, image_append, image_cons,
    List.getElem?_append_right (Nat.le_add_right _ _), Nat.add_sub_cancel_left,
    List.getElem?_append_left hk]

/-- Everything that is copied fits in a file. -/
theorem Converted.image_lt (hc : Converted h c.sections n) :
    headerSize + (image (c.sections.filter Section.inFile)).length < maxOffset := by
  have hfits := hc.fits
  rwa [Noff.inNoffFile, hc.body] at hfits

theorem Converted.contents_length (hc : Converted h c.sections n) {s : Section}
    (hs : s ∈ c.sections.filter Section.inFile) : s.contents.length = s.sSize.toNat := by
  obtain ⟨hmem, hin⟩ := List.mem_filter.mp hs
  exact hc.full s hmem hin

/-- Where the loader takes the block from, and that it is all that was copied. -/
structure Placed (c : Coff) (n : Noff) : Prop where
  size : n.codeAndInitDataSize = (image (c.sections.filter Section.inFile)).length
  start : c.sections.filter Section.inFile ≠ [] →
    n.header.code.inFileAddr.toNat = headerSize
  place : ∀ l₁ s l₂, c.sections.filter Section.inFile = l₁ ++ s :: l₂ →
    s.sPaddr.toNat = (image l₁).length

/-- No section of data, or one. -/
theorem Converted.initData_size (hc : Converted h c.sections n) {l : List UInt32}
    (hl : ((c.sections.filter Section.inFile).filter (·.sName ≠ .text)).map Section.sSize = l) :
    (l = [] → n.header.initData.size = 0) ∧ ∀ size, l = [size] → n.header.initData.size = size := by
  have hdata := hc.data
  rw [hl] at hdata
  constructor
  · rintro rfl
    by_contra hne
    rw [if_neg hne] at hdata
    cases hdata
  · rintro size rfl
    split at hdata
    · cases hdata
    · exact (List.singleton_inj.mp hdata).symm

theorem Placed.start_of_size (hp : Placed c n) (h : 0 < n.codeAndInitDataSize) :
    n.header.code.inFileAddr.toNat = headerSize := by
  refine hp.start ?_
  intro hF
  rw [hp.size, hF] at h
  exact absurd h (lt_irrefl 0)

/-- Behind the block its last page is clear. -/
theorem Placed.byteAt_tail (hp : Placed c n) (hc : Converted h c.sections n) {v : ℕ}
    (hin : v / pageSize < n.numPages) (hpage : v / pageSize < n.codeAndInitDataNumPages)
    (hv : n.codeAndInitDataSize ≤ v) : n.byteAt frames v = some 0 := by
  have hlt := hc.image_lt
  rw [← hp.size] at hlt
  have hfirst := first_lt_size hpage
  have hstart := hp.start_of_size (by omega)
  have hdisk : _ = n.header.code.inFileAddr.toNat + v := diskLocation_add (by
    rw [hstart]
    unfold maxOffset headerSize pageSize at *
    omega)
  have hv' := Nat.div_add_mod' v pageSize
  rw [byteAt_block hin hpage, if_neg (by omega), if_neg (by omega)]

theorem placed_nil (hc : Converted h c.sections n)
    (hF : c.sections.filter Section.inFile = []) : Placed c n := by
  have hcode := (hc.noText (by simp [hF])).1
  have hdata := (hc.initData_size (by rw [hF]; rfl)).1 rfl
  constructor
  case size =>
    rw [Noff.codeAndInitDataSize, hcode, hdata, hF]
    rfl
  case start => exact fun hne => absurd hF hne
  case place =>
    intro l₁ s l₂ hsplit
    rw [hF] at hsplit
    cases l₁ <;> cases hsplit

theorem placed_text (hc : Converted h c.sections n) {t : Section}
    (hF : c.sections.filter Section.inFile = [t]) (ht : t.sName = .text) (haddr : t.sPaddr = 0) :
    Placed c n := by
  obtain ⟨hcode, hstart⟩ := hc.text [] t [] hF ht (by simp)
  have hdata := (hc.initData_size (by rw [hF]; simp [ht])).1 rfl
  have hlen := hc.contents_length (s := t) (by simp [hF])
  constructor
  case size =>
    rw [Noff.codeAndInitDataSize, hcode, hdata, hF, image_cons, List.length_append, hlen]
    simp [image]
  case start => exact fun _ => hstart
  case place =>
    intro l₁ s l₂ hsplit
    rw [hF] at hsplit
    cases l₁ with
    | nil =>
        cases hsplit
        rw [haddr]
        rfl
    | cons a l₁ =>
        have hrest := (List.cons.inj hsplit).2
        cases l₁ <;> cases hrest

theorem placed_text_data (hc : Converted h c.sections n) {t d : Section}
    (hF : c.sections.filter Section.inFile = [t, d]) (ht : t.sName = .text) (haddr : t.sPaddr = 0)
    (hd : d.sName ≠ .text) (hnext : d.sPaddr = t.sSize) : Placed c n := by
  obtain ⟨hcode, hstart⟩ := hc.text [] t [d] hF ht (by simpa using hd)
  have hdata := (hc.initData_size (by rw [hF]; simp [ht, hd])).2 d.sSize rfl
  have hlen : t.contents.length = t.sSize.toNat := hc.contents_length (by simp [hF])
  have hlen' : d.contents.length = d.sSize.toNat := hc.contents_length (by simp [hF])
  have himage : (image [t, d]).length = t.sSize.toNat + d.sSize.toNat := by
    simp [image, hlen, hlen']
  have hlt := hc.image_lt
  rw [hF, himage] at hlt
  constructor
  case size =>
    rw [Noff.codeAndInitDataSize, hcode, hdata, hF, himage, UInt32.toNat_add, Nat.mod_eq_of_lt]
    unfold maxOffset at hlt
    omega
  case start => exact fun _ => hstart
  case place =>
    intro l₁ s l₂ hsplit
    rw [hF] at hsplit
    rcases l₁ with _ | ⟨a, _ | ⟨b, l₁⟩⟩
    · cases hsplit
      rw [haddr]
      rfl
    · cases hsplit
      rw [hnext, image_cons, List.length_append, hlen]
      rfl
    · have hrest := (List.cons.inj (List.cons.inj hsplit).2).2
      cases l₁ <;> cases hrest

theorem placed_of_linked (hc : Converted h c.sections n) (hl : Linked c) : Placed c n := by
  unfold Linked at hl
  split at hl
  · rename_i hF
    exact placed_nil hc hF
  · rename_i t hF
    exact placed_text hc hF hl.1 hl.2
  · rename_i t d hF
    exact placed_text_data hc hF hl.1 hl.2.1 hl.2.2.1 hl.2.2.2
  · exact hl.elim

/-- **A linked program** with room in its space is found as it was linked, if the
pages without contents are clear. -/
theorem preserved_of_linked (hc : Converted h c.sections n) (hl : Linked c) (hr : HasRoom c n)
    (hcl : Cleared c n frames) : Preserved c n frames := by
  have hp := placed_of_linked hc hl
  constructor
  case contents =>
    intro s hs hin k hk
    obtain ⟨haddr, hroom⟩ := hr s hs (.inl hin) k hk
    refine ⟨haddr, ?_⟩
    obtain ⟨l₁, l₂, hsplit⟩ := exists_split hs hin
    have hne : c.sections.filter Section.inFile ≠ [] := by
      rw [hsplit]
      simp
    have hlen := hc.full s hs hin
    have hsize : n.codeAndInitDataSize = (image l₁).length + (s.sSize.toNat + (image l₂).length) := by
      rw [hp.size, hsplit, image_append, image_cons, List.length_append, List.length_append, hlen]
    have hlt := hc.image_lt
    rw [← hp.size] at hlt
    rw [← hlen] at hk
    rw [hp.place l₁ s l₂ hsplit] at hroom ⊢
    rw [byteAt_file hroom (by omega) (by rw [hp.start hne]; omega), hp.start hne, ← Nat.add_assoc,
      hc.file_eq hsplit hk, List.getElem?_eq_getElem hk]
    rfl
  case zeros =>
    intro s hs hz k hk
    obtain ⟨haddr, hroom⟩ := hr s hs (.inr hz) k hk
    refine ⟨haddr, ?_⟩
    obtain ⟨hbehind, hpage⟩ := hcl s hs hz k hk
    by_cases hblock : (s.sPaddr.toNat + k) / pageSize < n.codeAndInitDataNumPages
    · exact hp.byteAt_tail hc hroom hblock hbehind
    · rw [byteAt_frame hroom (not_lt.mp hblock), hpage.resolve_left hblock]

end Linked

/-! ## The same headers with other contents -/

section Contents

variable {h h' : NoffHeader} {c c' : Coff} {n n' : Noff} {frames : ℕ → Page}

theorem Noff.Alike.codeAndInitDataSize (ha : n.Alike n') :
    n'.codeAndInitDataSize = n.codeAndInitDataSize := by
  rw [Noff.codeAndInitDataSize, Noff.codeAndInitDataSize, ha.code, ha.initData]

theorem Noff.Alike.codeAndInitDataNumPages (ha : n.Alike n') :
    n'.codeAndInitDataNumPages = n.codeAndInitDataNumPages := by
  rw [Noff.codeAndInitDataNumPages, Noff.codeAndInitDataNumPages, ha.codeAndInitDataSize]

theorem Noff.Alike.numPages (ha : n.Alike n') : n'.numPages = n.numPages := by
  rw [Noff.numPages, Noff.numPages, ha.code, ha.initData, ha.uninitData]

theorem Linked.sameHeaders (hl : Linked c) (hs : c.SameHeaders c') : Linked c' := by
  have hF := filter_sameHeader hs.sections
  unfold Linked at hl ⊢
  split at hl
  · rename_i hnil
    rw [hnil] at hF
    rw [List.forall₂_nil_left_iff.mp hF]
    trivial
  · rename_i t hone
    rw [hone] at hF
    obtain ⟨t', l, ht, hrest, heq⟩ := List.forall₂_cons_left_iff.mp hF
    rw [heq, List.forall₂_nil_left_iff.mp hrest]
    exact ⟨ht.sName.trans hl.1, ht.sPaddr.trans hl.2⟩
  · rename_i t d htwo
    rw [htwo] at hF
    obtain ⟨t', l, ht, hrest, heq⟩ := List.forall₂_cons_left_iff.mp hF
    obtain ⟨d', l', hd, hnil, heq'⟩ := List.forall₂_cons_left_iff.mp hrest
    rw [heq, heq', List.forall₂_nil_left_iff.mp hnil]
    exact ⟨ht.sName.trans hl.1, ht.sPaddr.trans hl.2.1, fun hname => hl.2.2.1 (hd.sName ▸ hname),
      by rw [hd.sPaddr, ht.sSize]; exact hl.2.2.2⟩
  · exact hl.elim

/-- A section of the other file is one of this file, with the same header. -/
theorem exists_sameHeader (hs : c.SameHeaders c') {s' : Section} (hmem : s' ∈ c'.sections) :
    ∃ s ∈ c.sections, s.SameHeader s' := by
  have hall := hs.sections
  generalize c.sections = secs at hall ⊢
  generalize c'.sections = secs' at hall hmem
  induction hall with
  | nil => cases hmem
  | cons hone _ ih =>
      rcases List.mem_cons.mp hmem with rfl | hmem
      · exact ⟨_, List.mem_cons_self, hone⟩
      · obtain ⟨s, hs, hsame⟩ := ih hmem
        exact ⟨s, List.mem_cons_of_mem _ hs, hsame⟩

theorem HasRoom.sameHeaders (hr : HasRoom c n) (hs : c.SameHeaders c') (ha : n.Alike n') :
    HasRoom c' n' := by
  intro s' hs' hkind k hk
  obtain ⟨s, hmem, hsame⟩ := exists_sameHeader hs hs'
  rw [hsame.inFile, hsame.zeroed] at hkind
  rw [hsame.sSize] at hk
  rw [hsame.sPaddr, ha.numPages]
  exact hr s hmem hkind k hk

theorem Cleared.sameHeaders (hcl : Cleared c n frames) (hs : c.SameHeaders c')
    (ha : n.Alike n') : Cleared c' n' frames := by
  intro s' hs' hzero k hk
  obtain ⟨s, hmem, hsame⟩ := exists_sameHeader hs hs'
  rw [hsame.zeroed] at hzero
  rw [hsame.sSize] at hk
  rw [hsame.sPaddr, ha.codeAndInitDataSize, ha.codeAndInitDataNumPages]
  exact hcl s hmem hzero k hk

end Contents

/-! ## What has to be linked so -/

section Necessary

variable {h h' : NoffHeader} {c : Coff} {n : Noff} {frames : ℕ → Page} {s : Section}
  {l₁ l₂ : List Section}

/-- The image is preserved whatever the sections contain. -/
def AlwaysPreserved (c : Coff) (frames : ℕ → Page) : Prop :=
  ∀ h' c' n', c.SameHeaders c' → coff2noff h' c' = .ok n' → Preserved c' n' frames

theorem Coff.SameHeaders.refl (c : Coff) : c.SameHeaders c :=
  ⟨rfl, rfl, List.forall₂_same.mpr fun s _ => .refl s⟩

theorem exists_split_sections {secs : List Section}
    (hsplit : secs.filter Section.inFile = l₁ ++ s :: l₂) :
    ∃ pre post, secs = pre ++ s :: post ∧ pre.filter Section.inFile = l₁ ∧
      post.filter Section.inFile = l₂ := by
  obtain ⟨pre, rest, rfl, hpre, hrest⟩ := List.filter_eq_append_iff.mp hsplit
  obtain ⟨mid, post, rfl, hmid, -, hpost⟩ := List.filter_eq_cons_iff.mp hrest
  refine ⟨pre ++ mid, post, by rw [List.append_assoc], ?_, hpost⟩
  rw [List.filter_append, hpre, List.filter_eq_nil_iff.mpr hmid, List.append_nil]

/-- Another first byte. -/
def Section.setFirst (s : Section) (b : UInt8) : Section := { s with raw := b :: s.raw.tail }

theorem Section.size_pos (hin : s.inFile = true) : 0 < s.sSize.toNat := by
  refine Nat.pos_of_ne_zero ?_
  intro hzero
  have hsize : s.sSize = 0 := UInt32.toNat_inj.mp hzero
  simp [Section.inFile, hsize] at hin

theorem Section.contents_setFirst (hin : s.inFile = true) (b : UInt8) :
    (s.setFirst b).contents = b :: s.raw.tail.take (s.sSize.toNat - 1) := by
  obtain ⟨k, hk⟩ := Nat.exists_eq_succ_of_ne_zero (s.size_pos hin).ne'
  rw [Section.contents, Section.setFirst, hk, List.take_succ_cons, Nat.succ_sub_one]

/-- **A variant of the file**, in which a section has another first byte. -/
theorem AlwaysPreserved.variant (hall : AlwaysPreserved c frames) (hn : coff2noff h c = .ok n)
    (hsplit : c.sections.filter Section.inFile = l₁ ++ s :: l₂) (h' : NoffHeader) (b : UInt8) :
    ∃ n', n.Alike n' ∧ n'.byteAt frames s.sPaddr.toNat = some b ∧
      n'.body = image l₁ ++ b :: (s.raw.tail.take (s.sSize.toNat - 1) ++ image l₂) ∧
      ((∀ s ∈ c.sections.filter Section.inFile, s.sName ≠ .text) →
        n'.header.code.inFileAddr = h'.code.inFileAddr) := by
  have hs : s ∈ c.sections.filter Section.inFile := by
    rw [hsplit]
    simp
  obtain ⟨hmem, hin⟩ := List.mem_filter.mp hs
  have hc := converted_of_coff2noff hn
  have hpos := s.size_pos hin
  have hraw : 0 < s.raw.length := by
    have hlen := hc.full s hmem hin
    rw [Section.contents, List.length_take] at hlen
    omega
  have hsame : s.SameHeader (s.setFirst b) := by
    refine ⟨rfl, rfl, rfl, ?_⟩
    show (b :: s.raw.tail).length = _
    rw [List.length_cons, List.length_tail]
    omega
  obtain ⟨pre, post, hsecs, hpre, hpost⟩ := exists_split_sections hsplit
  have hsame' : c.SameHeaders { c with sections := pre ++ s.setFirst b :: post } := by
    refine ⟨rfl, rfl, ?_⟩
    rw [hsecs]
    have hrefl : ∀ l : List Section, List.Forall₂ Section.SameHeader l l := fun l =>
      List.forall₂_same.mpr fun s _ => .refl s
    exact (List.rel_append (hrefl pre)) (.cons hsame (hrefl post))
  have hfilter : (pre ++ s.setFirst b :: post).filter Section.inFile =
      l₁ ++ s.setFirst b :: l₂ := by
    rw [List.filter_append, hpre, List.filter_cons_of_pos (hsame.inFile.trans hin), hpost]
  obtain ⟨n', hn', ha⟩ := alike_of_sameHeaders hsame' hn
  have hc' := converted_of_coff2noff hn'
  refine ⟨n', ha, ?_, ?_, ?_⟩
  · have hp := (hall h' _ n' hsame' hn').contents (s.setFirst b) (by simp)
      (hsame.inFile.trans hin) 0 hpos
    rw [Section.contents_setFirst hin] at hp
    exact hp.2
  · rw [hc'.body]
    show image ((pre ++ s.setFirst b :: post).filter Section.inFile) = _
    rw [hfilter, image_append, image_cons, Section.contents_setFirst hin]
    rfl
  · intro hno
    refine (hc'.noText ?_).2
    intro s' hs'
    replace hs' : s' ∈ (pre ++ s.setFirst b :: post).filter Section.inFile := hs'
    rw [hfilter] at hs'
    rw [hsplit] at hno
    rcases List.mem_append.mp hs' with hl | hl
    · exact hno s' (List.mem_append_left _ hl)
    · rcases List.mem_cons.mp hl with rfl | hl
      · exact hno s (List.mem_append_right _ List.mem_cons_self)
      · exact hno s' (List.mem_append_right _ (List.mem_cons_of_mem _ hl))

/-- What a variant does not depend on is not found. -/
theorem body_eq_of_ne {l r : List UInt8} {q : ℕ} (hq : q ≠ l.length) (b b' : UInt8) :
    (l ++ b :: r)[q]? = (l ++ b' :: r)[q]? := by
  rcases Nat.lt_or_gt_of_ne hq with hlt | hgt
  · rw [List.getElem?_append_left hlt, List.getElem?_append_left hlt]
  · rw [List.getElem?_append_right hgt.le, List.getElem?_append_right hgt.le]
    obtain ⟨k, hk⟩ := Nat.exists_eq_succ_of_ne_zero (Nat.sub_pos_of_lt hgt).ne'
    rw [hk, Nat.succ_eq_add_one, List.getElem?_cons_succ, List.getElem?_cons_succ]

/-- A section that is found must be in the block. -/
theorem AlwaysPreserved.lt_numPages (hall : AlwaysPreserved c frames) (hn : coff2noff h c = .ok n)
    (hsplit : c.sections.filter Section.inFile = l₁ ++ s :: l₂) :
    s.sPaddr.toNat / pageSize < n.codeAndInitDataNumPages := by
  by_contra hout
  obtain ⟨n₀, ha₀, hb₀, -⟩ := hall.variant hn hsplit h 0
  obtain ⟨n₁, ha₁, hb₁, -⟩ := hall.variant hn hsplit h 1
  rw [byteAt_frame (lt_numPages_of_byteAt hb₀)
    (by rw [ha₀.codeAndInitDataNumPages]; exact not_lt.mp hout)] at hb₀
  rw [byteAt_frame (lt_numPages_of_byteAt hb₁)
    (by rw [ha₁.codeAndInitDataNumPages]; exact not_lt.mp hout), hb₀] at hb₁
  cases hb₁

theorem exists_last_text {l : List Section} (h : ∃ s ∈ l, s.sName = .text) :
    ∃ l₁ t l₂, l = l₁ ++ t :: l₂ ∧ t.sName = .text ∧ ∀ s ∈ l₂, s.sName ≠ .text := by
  induction l with
  | nil =>
      obtain ⟨s, hs, -⟩ := h
      cases hs
  | cons a l ih =>
      by_cases hrest : ∃ s ∈ l, s.sName = .text
      · obtain ⟨l₁, t, l₂, rfl, ht, hlast⟩ := ih hrest
        exact ⟨a :: l₁, t, l₂, rfl, ht, hlast⟩
      · obtain ⟨s, hs, hname⟩ := h
        rcases List.mem_cons.mp hs with rfl | hs
        · exact ⟨[], s, l, rfl, hname, fun s' hs' hn => hrest ⟨s', hs', hn⟩⟩
        · exact absurd ⟨s, hs, hname⟩ hrest

/-- The sizes of the sections of data. -/
def dataSize (l : List Section) : ℕ :=
  ((l.filter (·.sName ≠ .text)).map fun s => s.sSize.toNat).sum

theorem dataSize_le {l : List Section} (hfull : ∀ s ∈ l, s.contents.length = s.sSize.toNat) :
    dataSize l ≤ (image l).length := by
  induction l with
  | nil => exact le_rfl
  | cons s l ih =>
      have hrest := ih fun s' hs' => hfull s' (List.mem_cons_of_mem _ hs')
      have hone := hfull s List.mem_cons_self
      rw [image_cons, List.length_append, hone]
      unfold dataSize at hrest ⊢
      by_cases hname : s.sName = .text
      · rw [List.filter_cons_of_neg (by simp [hname])]
        omega
      · rw [List.filter_cons_of_pos (by simp [hname]), List.map_cons, List.sum_cons]
        omega

theorem text_add_dataSize_le {l : List Section} {t : Section} (ht : t ∈ l) (hname : t.sName = .text)
    (hfull : ∀ s ∈ l, s.contents.length = s.sSize.toNat) :
    t.sSize.toNat + dataSize l ≤ (image l).length := by
  induction l with
  | nil => cases ht
  | cons s l ih =>
      have hfull' : ∀ s' ∈ l, s'.contents.length = s'.sSize.toNat := fun s' hs' =>
        hfull s' (List.mem_cons_of_mem _ hs')
      have hone := hfull s List.mem_cons_self
      rw [image_cons, List.length_append, hone]
      rcases List.mem_cons.mp ht with rfl | ht
      · have hrest := dataSize_le hfull'
        unfold dataSize at hrest ⊢
        rw [List.filter_cons_of_neg (by simp [hname])]
        omega
      · have hrest := ih ht hfull'
        unfold dataSize at hrest ⊢
        by_cases hs : s.sName = .text
        · rw [List.filter_cons_of_neg (by simp [hs])]
          omega
        · rw [List.filter_cons_of_pos (by simp [hs]), List.map_cons, List.sum_cons]
          omega

theorem Converted.dataSize_eq (hc : Converted h c.sections n) :
    dataSize (c.sections.filter Section.inFile) = n.header.initData.size.toNat := by
  have hdata := congrArg (fun l => (l.map UInt32.toNat).sum) hc.data
  simp only [List.map_map] at hdata
  refine hdata.trans ?_
  split
  · rename_i hzero
    rw [hzero]
    rfl
  · simp

/-- The block is no larger than what was copied. -/
theorem Converted.code_add_initData_le (hc : Converted h c.sections n) :
    n.header.code.size.toNat + n.header.initData.size.toNat ≤
      (image (c.sections.filter Section.inFile)).length := by
  have hfull : ∀ s ∈ c.sections.filter Section.inFile, s.contents.length = s.sSize.toNat :=
    fun s hs => hc.contents_length hs
  rw [← hc.dataSize_eq]
  by_cases htext : ∀ s ∈ c.sections.filter Section.inFile, s.sName ≠ .text
  · have hzero : n.header.code.size.toNat = 0 := by rw [(hc.noText htext).1]; rfl
    have hdata := dataSize_le hfull
    omega
  · obtain ⟨l₁, t, l₂, hF, ht, hlast⟩ := exists_last_text (by push Not at htext; exact htext)
    have hcode := (hc.text l₁ t l₂ hF ht hlast).1
    have hsum := text_add_dataSize_le (by rw [hF]; simp) ht hfull
    rw [← hcode] at hsum
    omega

theorem Converted.size_le (hc : Converted h c.sections n) :
    n.codeAndInitDataSize ≤ (image (c.sections.filter Section.inFile)).length := by
  refine le_trans ?_ hc.code_add_initData_le
  rw [Noff.codeAndInitDataSize, UInt32.toNat_add]
  exact Nat.mod_le _ _

/-- Without a `.text` the loader reads from wherever the stack says. -/
theorem AlwaysPreserved.exists_text (hall : AlwaysPreserved c frames) (hn : coff2noff h c = .ok n)
    (hne : c.sections.filter Section.inFile ≠ []) :
    ∃ s ∈ c.sections.filter Section.inFile, s.sName = .text := by
  by_contra hno
  push Not at hno
  obtain ⟨s, l, hcons⟩ := List.exists_cons_of_ne_nil hne
  have hsplit : c.sections.filter Section.inFile = [] ++ s :: l := hcons
  have hpage := hall.lt_numPages hn hsplit
  -- an address that is no offset in a file
  obtain ⟨n', ha, hb, -, haddr⟩ := hall.variant hn hsplit
    { h with code := { h.code with inFileAddr := 0x80000000 } } 0
  rw [← ha.codeAndInitDataNumPages] at hpage
  rw [byteAt_block (lt_numPages_of_byteAt hb) hpage] at hb
  split at hb
  · cases hb
  · rename_i hsmall
    refine hsmall ?_
    have hc := converted_of_coff2noff hn
    have hlt := hc.image_lt
    have hsize := hc.size_le
    have hfirst := first_lt_size hpage
    rw [ha.codeAndInitDataSize] at hfirst
    unfold maxOffset at hlt ⊢
    rw [Noff.diskLocation, haddr hno, UInt32.toNat_add, UInt32.toNat_ofNat',
      Nat.mod_eq_of_lt (show s.sPaddr.toNat / pageSize * pageSize < 2 ^ 32 by omega)]
    show 2 ^ 31 ≤ (2 ^ 31 + s.sPaddr.toNat / pageSize * pageSize) % 2 ^ 32
    rw [Nat.mod_eq_of_lt (by omega)]
    omega

/-- **Where a section must be**: as far from the start of the code in memory as it is
in the file. -/
theorem AlwaysPreserved.place (hall : AlwaysPreserved c frames) (hn : coff2noff h c = .ok n)
    (hcode : n.header.code.size ≠ 0) (hhead : headerSize ≤ n.header.code.inFileAddr.toNat)
    (hfit : n.header.code.inFileAddr.toNat + n.codeAndInitDataSize < 2 ^ 32)
    (hsplit : c.sections.filter Section.inFile = l₁ ++ s :: l₂) :
    n.header.code.inFileAddr.toNat + s.sPaddr.toNat = headerSize + (image l₁).length := by
  have hpage := hall.lt_numPages hn hsplit
  obtain ⟨n₀, ha₀, hb₀, hbody₀, -⟩ := hall.variant hn hsplit h 0
  obtain ⟨n₁, ha₁, hb₁, hbody₁, -⟩ := hall.variant hn hsplit h 1
  have hin₀ := lt_numPages_of_byteAt hb₀
  have hin₁ := lt_numPages_of_byteAt hb₁
  have haddr₀ := ha₀.codeAddr hcode
  have haddr₁ := ha₁.codeAddr hcode
  have hv : s.sPaddr.toNat < n.codeAndInitDataSize := by
    -- behind the block the last page is zero
    by_contra hout
    rw [byteAt_block hin₁ (by rwa [ha₁.codeAndInitDataNumPages]),
      if_neg (show ¬ s.sPaddr.toNat < n₁.codeAndInitDataSize by
        rwa [ha₁.codeAndInitDataSize])] at hb₁
    split at hb₁ <;> cases hb₁
  have hf₀ := file_of_byteAt hin₀ (by rwa [ha₀.codeAndInitDataSize])
    (by rw [haddr₀]; omega) hb₀
  have hf₁ := file_of_byteAt hin₁ (by rwa [ha₁.codeAndInitDataSize])
    (by rw [haddr₁]; omega) hb₁
  by_contra hne
  obtain ⟨q, hq⟩ := Nat.exists_eq_add_of_le
    (show headerSize ≤ n.header.code.inFileAddr.toNat + s.sPaddr.toNat by omega)
  have hq' : q ≠ (image l₁).length := by omega
  rw [haddr₀, hq, Noff.file_body, hbody₀, body_eq_of_ne hq' 0 1] at hf₀
  rw [haddr₁, hq, Noff.file_body, hbody₁, hf₀] at hf₁
  cases hf₁

theorem AlwaysPreserved.linked (hall : AlwaysPreserved c frames) (hn : coff2noff h c = .ok n) :
    Linked c := by
  by_cases hnil : c.sections.filter Section.inFile = []
  · unfold Linked
    rw [hnil]
    trivial
  · have hc := converted_of_coff2noff hn
    obtain ⟨l₁, t, l₂, hF, ht, hlast⟩ := exists_last_text (hall.exists_text hn hnil)
    obtain ⟨hsize, haddr⟩ := hc.text l₁ t l₂ hF ht hlast
    have hmem : ∀ s ∈ l₁ ++ t :: l₂, s ∈ c.sections.filter Section.inFile := by
      rw [hF]
      exact fun _ hs => hs
    have hpos : ∀ s ∈ l₁ ++ t :: l₂, 0 < s.sSize.toNat := fun s hs =>
      s.size_pos (List.mem_filter.mp (hmem s hs)).2
    have hcode : n.header.code.size ≠ 0 := by
      intro hzero
      have hlt := hpos t (by simp)
      rw [← hsize, hzero] at hlt
      cases hlt
    have hlt := hc.image_lt
    have hle := hc.size_le
    have hl₁ : (image l₁).length ≤ (image (c.sections.filter Section.inFile)).length := by
      rw [hF, image_append, List.length_append]
      omega
    have hplace : ∀ m₁ s m₂, c.sections.filter Section.inFile = m₁ ++ s :: m₂ →
        (image l₁).length + s.sPaddr.toNat = (image m₁).length := by
      intro m₁ s m₂ hsplit
      have heq := hall.place hn hcode (by omega) (by unfold maxOffset at hlt; omega) hsplit
      omega
    have htext : t.sPaddr = 0 := by
      have heq := hplace l₁ t l₂ hF
      refine UInt32.toNat_inj.mp (show t.sPaddr.toNat = 0 from ?_)
      omega
    have hfirst : l₁ = [] := by
      cases l₁ with
      | nil => rfl
      | cons x l =>
          have heq := hplace [] x (l ++ t :: l₂) hF
          have hx := hpos x (by simp)
          have hlen := hc.contents_length (hmem x (by simp))
          rw [image_cons, List.length_append, hlen] at heq
          exact absurd heq (by simp only [image, List.flatMap_nil, List.length_nil]; omega)
    subst hfirst
    have hdata := hc.data
    rw [hF, List.nil_append, List.filter_cons_of_neg (by simp [ht]),
      List.filter_eq_self.mpr (by simpa using hlast)] at hdata
    unfold Linked
    rw [hF]
    rcases l₂ with _ | ⟨d, _ | ⟨d', l⟩⟩
    · exact ⟨ht, htext⟩
    · refine ⟨ht, htext, hlast d (by simp), UInt32.toNat_inj.mp ?_⟩
      have heq := hplace [t] d [] hF
      have hlen := hc.contents_length (hmem t (by simp))
      simp only [image, List.flatMap_nil, List.length_nil, List.flatMap_cons, List.append_nil,
        hlen] at heq
      omega
    · have hlen := congrArg List.length hdata
      split at hlen <;> simp at hlen

theorem AlwaysPreserved.hasRoom (hall : AlwaysPreserved c frames) (hn : coff2noff h c = .ok n) :
    HasRoom c n := by
  have hp := hall h c n (.refl c) hn
  have hc := converted_of_coff2noff hn
  rintro s hs (hin | hzero) k hk
  · obtain ⟨haddr, hb⟩ := hp.contents s hs hin k hk
    rw [List.getElem?_eq_getElem (by rw [hc.full s hs hin]; exact hk)] at hb
    exact ⟨haddr, lt_numPages_of_byteAt hb⟩
  · obtain ⟨haddr, hb⟩ := hp.zeros s hs hzero k hk
    exact ⟨haddr, lt_numPages_of_byteAt hb⟩

/-- The same sections, full of ones. -/
def Coff.ones (c : Coff) : Coff :=
  { c with sections := c.sections.map fun s => { s with raw := s.raw.map fun _ => 1 } }

theorem Coff.sameHeaders_ones (c : Coff) : c.SameHeaders c.ones := by
  refine ⟨rfl, rfl, ?_⟩
  show List.Forall₂ _ c.sections (c.sections.map _)
  rw [List.forall₂_map_right_iff]
  exact List.forall₂_same.mpr fun s _ => ⟨rfl, rfl, rfl, List.length_map _⟩

theorem eq_one_of_mem_image {b : UInt8}
    (hb : b ∈ image (c.ones.sections.filter Section.inFile)) : b = 1 := by
  obtain ⟨s', hs', hmem⟩ := List.mem_flatMap.mp hb
  obtain ⟨s, -, rfl⟩ := List.mem_map.mp (List.mem_filter.mp hs').1
  obtain ⟨-, -, rfl⟩ := List.mem_map.mp (List.mem_of_mem_take hmem)
  rfl

theorem AlwaysPreserved.cleared (hall : AlwaysPreserved c frames) (hn : coff2noff h c = .ok n) :
    Cleared c n frames := by
  intro s hs hzero k hk
  obtain ⟨-, hb⟩ := (hall h c n (.refl c) hn).zeros s hs hzero k hk
  constructor
  · -- a byte of the block is not zero if all of them are ones
    by_contra hin
    obtain ⟨n', hn', ha⟩ := @alike_of_sameHeaders h h _ _ _ c.sameHeaders_ones hn
    have hc' := converted_of_coff2noff hn'
    have hp := placed_of_linked hc' ((hall.linked hn).sameHeaders c.sameHeaders_ones)
    have hzero' : n'.byteAt frames (s.sPaddr.toNat + k) = some 0 :=
      ((hall h c.ones n' c.sameHeaders_ones hn').zeros _ (List.mem_map_of_mem hs) hzero k hk).2
    have hv : s.sPaddr.toNat + k < n'.codeAndInitDataSize := by
      rw [ha.codeAndInitDataSize]
      exact not_le.mp hin
    have hlt := hc'.image_lt
    rw [← hp.size] at hlt
    have hstart := hp.start_of_size (by omega)
    have hv' : s.sPaddr.toNat + k < n'.body.length := by
      rw [hc'.body, ← hp.size]
      exact hv
    have hone : n'.body.get ⟨_, hv'⟩ = 1 := by
      refine eq_one_of_mem_image (c := c) ?_
      rw [← hc'.body]
      exact List.get_mem _ _
    rw [byteAt_file (lt_numPages_of_byteAt hzero') hv (by rw [hstart]; omega), hstart,
      Noff.file_body, List.getElem?_eq_getElem hv', Option.getD_some] at hzero'
    rw [List.get_eq_getElem] at hone
    rw [hone] at hzero'
    cases hzero'
  · by_cases hpage : (s.sPaddr.toNat + k) / pageSize < n.codeAndInitDataNumPages
    · exact .inl hpage
    · rw [byteAt_frame (lt_numPages_of_byteAt hb) (not_lt.mp hpage)] at hb
      exact .inr (Option.some.inj hb)

end Necessary

/-! ## The executables of the paging machine -/

section Executables

variable {h : NoffHeader} {c : Coff} {n : Noff}

/-- Nothing overflows in the size of the block. -/
theorem Converted.size_eq (hc : Converted h c.sections n) :
    n.codeAndInitDataSize = n.header.code.size.toNat + n.header.initData.size.toNat := by
  have hlt := hc.image_lt
  have hle := hc.code_add_initData_le
  unfold maxOffset at hlt
  rw [Noff.codeAndInitDataSize, UInt32.toNat_add, Nat.mod_eq_of_lt (by omega)]

/-- **The executable** that the paging machine runs: the code at 0, the data right
behind it, and both in the file. -/
def Converted.executable (hc : Converted h c.sections n) : VM.Executable where
  file := n.file
  code := ⟨0, headerSize, n.header.code.size.toNat⟩
  initData := ⟨n.header.code.size.toNat, headerSize + n.header.code.size.toNat,
    n.header.initData.size.toNat⟩
  uninitData := ⟨n.header.uninitData.virtualAddr.toNat, n.header.uninitData.inFileAddr.toNat,
    n.header.uninitData.size.toNat⟩
  code_at_zero := rfl
  data_follows := fun _ => ⟨rfl, rfl⟩
  in_file := by
    have hle := hc.code_add_initData_le
    rw [← hc.body] at hle
    rw [Noff.length_file, Nat.add_assoc]
    exact Nat.add_le_add_left hle _

/-- **A linked program is loaded as the paging machine loads its executable**: the
pages of the block from the file, the others left as they are. -/
theorem Placed.bringIn_eq (hp : Placed c n) (hc : Converted h c.sections n) {vpn : ℕ}
    (hin : vpn < n.numPages) (frame : Page) :
    n.bringIn vpn frame = some
      (if vpn < hc.executable.codeAndInitDataNumPages then
        hc.executable.loadPage vpn ((VM.AddrSpace.create hc.executable).pageTable vpn).diskLocation
      else frame) := by
  have hpages : hc.executable.codeAndInitDataNumPages = n.codeAndInitDataNumPages := by
    rw [Noff.codeAndInitDataNumPages, hc.size_eq]
    rfl
  rw [Noff.bringIn, if_neg (not_le.mpr hin), hpages]
  by_cases hblock : vpn < n.codeAndInitDataNumPages
  · have hfirst := first_lt_size hblock
    have hlt := hc.image_lt
    rw [← hp.size] at hlt
    have hstart := hp.start_of_size (by omega)
    have hdisk : (n.diskLocation vpn).toNat = headerSize + vpn * pageSize := by
      have hfit : n.header.code.inFileAddr.toNat + vpn * pageSize < 2 ^ 32 := by
        rw [hstart]
        unfold maxOffset at hlt
        omega
      have hadd := diskLocation_add hfit
      rwa [Nat.mul_div_cancel _ (by decide), Nat.mul_mod_left, Nat.add_zero, hstart] at hadd
    have hentry : ((VM.AddrSpace.create hc.executable).pageTable vpn).diskLocation =
        headerSize + vpn * pageSize := by
      simp only [VM.AddrSpace.create, hpages, if_pos hblock]
      rfl
    have hsize : hc.executable.codeAndInitDataSize = n.codeAndInitDataSize := hc.size_eq.symm
    have hread : ∀ numBytes, n.readAt zeroPage numBytes (n.diskLocation vpn) =
        some (hc.executable.readAt zeroPage numBytes (headerSize + vpn * pageSize)) := by
      intro numBytes
      rw [Noff.readAt, if_neg (by omega), hdisk]
      rfl
    rw [if_pos hblock, if_pos hblock, hentry, VM.Executable.loadPage, hpages, hsize]
    split
    · exact hread _
    · exact hread _
  · rw [if_neg hblock, if_neg hblock]

end Executables

/-- A stack of zeros. -/
def zeroHeader : NoffHeader := ⟨0, ⟨0, 0, 0⟩, ⟨0, 0, 0⟩, ⟨0, 0, 0⟩⟩

/-- Two words of code, the data right behind them, and some bytes to be cleared on the
same page. -/
def tightProgram : Coff :=
  ⟨mipselMagic, oMagic, [⟨.text, 0, 8, [1, 2, 3, 4, 5, 6, 7, 8]⟩, ⟨.data, 8, 4, [9, 10, 11, 12]⟩,
    ⟨.bss, 12, 4, []⟩]⟩

/-- A program linked with its data at the next multiple of 256, as `nachos.ld` does. -/
def alignedProgram : Coff :=
  ⟨mipselMagic, oMagic, [⟨.text, 0, 8, [1, 2, 3, 4, 5, 6, 7, 8]⟩,
    ⟨.data, 0x100, 4, [9, 10, 11, 12]⟩, ⟨.bss, 0x200, 4, []⟩]⟩

end Nachos.Bin
