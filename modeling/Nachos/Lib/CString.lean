import Mathlib.Data.List.Basic
import Mathlib.Data.List.TakeWhile
import Mathlib.Data.Nat.Basic
import Mathlib.Tactic.Common

/-!
# Strings in a character array

C strings are runs of characters in memory that end with a zero character.
`Spells b p u` says that memory `b` holds the string `u` at position `p`; writing
a string, reading one back and `strtok` are described by it. `strtok` works on
the memory in place: it overwrites the delimiter after a token and remembers
where to go on.
-/

namespace Nachos.Lib

/-- The terminator of a string. -/
def nul : Char := Char.ofNat 0

/-- A character array. -/
abbrev Memory : Type := ℕ → Char

/-- The string `u` and its terminator stand at `p`. -/
def Spells (b : Memory) : ℕ → List Char → Prop
  | p, [] => b p = nul
  | p, c :: u => b p = c ∧ Spells b (p + 1) u

/-- Copy a string with its terminator to `p`. -/
def writeString (b : Memory) : ℕ → List Char → Memory
  | p, [] => Function.update b p nul
  | p, c :: u => writeString (Function.update b p c) (p + 1) u

/-- The string at `p`, looking at no more than `n` characters. -/
def readString (b : Memory) : (n p : ℕ) → List Char
  | 0, _ => []
  | n + 1, p => if b p = nul then [] else b p :: readString b n (p + 1)

/-- The first position from `p` on without the delimiter. -/
def skipDelimiters (d : Char) (b : Memory) : (n p : ℕ) → ℕ
  | 0, p => p
  | n + 1, p => if b p = d then skipDelimiters d b n (p + 1) else p

/-- The first position from `p` on with the delimiter or the terminator. -/
def scanToken (d : Char) (b : Memory) : (n p : ℕ) → ℕ
  | 0, p => p
  | n + 1, p => if b p = d ∨ b p = nul then p else scanToken d b n (p + 1)

/-- `strtok` with one delimiter, in an array of `n` characters: the token if
there is one, the memory after it, and where the next call goes on. -/
def strtok (n : ℕ) (d : Char) (b : Memory) (save : ℕ) : Option ℕ × Memory × ℕ :=
  let p := skipDelimiters d b n save
  if b p = nul then (none, b, p)
  else
    let q := scanToken d b n p
    if b q = nul then (some p, b, q) else (some p, Function.update b q nul, q + 1)

/-- Copy characters to the beginning of an array. -/
def bcopy (src : List Char) (b : Memory) : Memory := fun i => (src[i]?).getD (b i)

/-! ## Writing and reading -/

theorem writeString_of_lt {b : Memory} {p i : ℕ} (u : List Char) (h : i < p) :
    writeString b p u i = b i := by
  induction u generalizing b p with
  | nil => exact Function.update_of_ne (Nat.ne_of_lt h) ..
  | cons c u ih =>
      rw [writeString, ih (Nat.lt_succ_of_lt h)]
      exact Function.update_of_ne (Nat.ne_of_lt h) ..

theorem writeString_of_gt {b : Memory} {p i : ℕ} {u : List Char} (h : p + u.length < i) :
    writeString b p u i = b i := by
  induction u generalizing b p with
  | nil => exact Function.update_of_ne (Nat.ne_of_gt h) ..
  | cons c u ih =>
      rw [List.length_cons] at h
      rw [writeString, ih (by omega)]
      exact Function.update_of_ne (by omega) ..

theorem spells_writeString (b : Memory) (p : ℕ) (u : List Char) : Spells (writeString b p u) p u := by
  induction u generalizing b p with
  | nil => exact Function.update_self ..
  | cons c u ih =>
      refine ⟨?_, ih ..⟩
      rw [writeString, writeString_of_lt u (Nat.lt_succ_self p)]
      exact Function.update_self ..

/-- A string is determined by the characters from `p` to its terminator. -/
theorem Spells.congr {b b' : Memory} {p : ℕ} {u : List Char} (h : Spells b p u)
    (hb : ∀ i, p ≤ i → i ≤ p + u.length → b' i = b i) : Spells b' p u := by
  induction u generalizing p with
  | nil => exact (hb p (le_refl p) (Nat.le_add_right ..)).trans h
  | cons c u ih =>
      rw [List.length_cons] at hb
      refine ⟨(hb p (le_refl p) (by omega)).trans h.1, ih h.2 ?_⟩
      intro i h1 h2
      exact hb i (by omega) (by omega)

/-- Reading stops at the terminator or after `n` characters. -/
theorem readString_eq_take {b : Memory} {n p : ℕ} {u : List Char} (h : Spells b p u)
    (hnul : nul ∉ u) : readString b n p = u.take n := by
  induction n generalizing p u with
  | zero => rfl
  | succ n ih =>
      cases u with
      | nil => exact if_pos h
      | cons c u =>
          rw [List.mem_cons, not_or] at hnul
          rw [readString, h.1, if_neg (fun hc => hnul.1 hc.symm), ih h.2 hnul.2,
            List.take_succ_cons]

theorem readString_of_spells {b : Memory} {n p : ℕ} {u : List Char} (h : Spells b p u)
    (hnul : nul ∉ u) (hn : u.length ≤ n) : readString b n p = u := by
  rw [readString_eq_take h hnul, List.take_of_length_le hn]

/-- A string is its characters and a terminator, one after the other. -/
theorem spells_iff_map_range' {b : Memory} {p : ℕ} {u : List Char} :
    Spells b p u ↔ (List.range' p (u.length + 1)).map b = u ++ [nul] := by
  induction u generalizing p with
  | nil => exact List.singleton_inj.symm
  | cons c u ih =>
      rw [List.length_cons, List.range'_succ, List.map_cons, List.cons_append, List.cons.injEq,
        ← ih]
      rfl

/-- A string that is read ends before the terminator. -/
theorem nul_not_mem_readString (b : Memory) : ∀ n p : ℕ, nul ∉ readString b n p
  | 0, _ => List.not_mem_nil
  | n + 1, p => by
      rw [readString]
      split
      · exact List.not_mem_nil
      · rename_i hp
        rw [List.mem_cons, not_or]
        exact ⟨fun h => hp h.symm, nul_not_mem_readString b n (p + 1)⟩

theorem Spells.append {b : Memory} {p : ℕ} {f u : List Char} (h : Spells b p (f ++ u)) :
    Spells b (p + f.length) u := by
  induction f generalizing p with
  | nil => exact h
  | cons c f ih =>
      rw [List.length_cons, show p + (f.length + 1) = p + 1 + f.length by omega]
      exact ih h.2

/-! ## Tokens -/

section Strtok

variable {n : ℕ} {d : Char} {b : Memory} {p : ℕ} {f u : List Char}

theorem Spells.chars (h : Spells b p (f ++ u)) :
    ∀ i, i < f.length → b (p + i) ∈ f := by
  induction f generalizing p with
  | nil =>
      intro i hi
      cases hi
  | cons c f ih =>
      intro i hi
      cases i with
      | zero =>
          rw [Nat.add_zero, h.1]
          exact List.mem_cons_self
      | succ i =>
          rw [List.length_cons] at hi
          rw [show p + (i + 1) = p + 1 + i by omega]
          exact List.mem_cons_of_mem _ (ih h.2 i (by omega))

/-- A run without delimiter and terminator ends at its length. -/
theorem Spells.scan (h : Spells b p (f ++ u)) (hd : d ∉ f) (hnul : nul ∉ f) (hn : f.length < n)
    (hend : b (p + f.length) = d ∨ b (p + f.length) = nul) :
    scanToken d b n p = p + f.length := by
  induction f generalizing n p with
  | nil =>
      obtain ⟨n, rfl⟩ : ∃ k, n = k + 1 := ⟨n - 1, by omega⟩
      exact if_pos hend
  | cons c f ih =>
      rw [List.length_cons] at hn hend ⊢
      rw [List.mem_cons, not_or] at hd hnul
      obtain ⟨n, rfl⟩ : ∃ k, n = k + 1 := ⟨n - 1, by omega⟩
      have hc : ¬ (b p = d ∨ b p = nul) := by
        rw [h.1, not_or]
        exact ⟨fun heq => hd.1 heq.symm, fun heq => hnul.1 heq.symm⟩
      rw [show p + (f.length + 1) = p + 1 + f.length by omega] at hend ⊢
      rw [scanToken, if_neg hc]
      exact ih h.2 hd.2 hnul.2 (by omega) hend

/-- Leading delimiters are skipped. -/
theorem Spells.skip {k : ℕ} (h : Spells b p (List.replicate k d ++ u)) (hu : b (p + k) ≠ d)
    (hn : k ≤ n) : skipDelimiters d b n p = p + k := by
  induction k generalizing n p with
  | zero =>
      cases n with
      | zero => rfl
      | succ n => exact if_neg hu
  | succ k ih =>
      obtain ⟨n, rfl⟩ : ∃ m, n = m + 1 := ⟨n - 1, by omega⟩
      rw [List.replicate_succ, List.cons_append] at h
      rw [show p + (k + 1) = p + 1 + k by omega] at hu ⊢
      rw [skipDelimiters, if_pos h.1]
      exact ih h.2 hu (by omega)

/-- A text is a run of delimiters, or a run of delimiters before a token, which
is the last one or is followed by a delimiter. -/
theorem token_cases (d : Char) (u : List Char) :
    ∃ k, u = List.replicate k d ∨ ∃ f, f ≠ [] ∧ d ∉ f ∧
      (u = List.replicate k d ++ f ∨ ∃ v, u = List.replicate k d ++ (f ++ d :: v)) := by
  induction u with
  | nil => exact ⟨0, .inl rfl⟩
  | cons c u ih =>
      obtain ⟨k, hk⟩ := ih
      by_cases hc : c = d
      · subst hc
        refine ⟨k + 1, hk.imp ?_ ?_⟩
        · rintro rfl
          rfl
        · rintro ⟨f, hf, hd, rfl | ⟨v, rfl⟩⟩
          · exact ⟨f, hf, hd, .inl rfl⟩
          · exact ⟨f, hf, hd, .inr ⟨v, rfl⟩⟩
      · refine ⟨0, .inr ?_⟩
        rcases hk with rfl | ⟨f, hf, hd, hu⟩
        · cases k with
          | zero => exact ⟨[c], by simp, by simpa using Ne.symm hc, .inl rfl⟩
          | succ k =>
              refine ⟨[c], by simp, by simpa using Ne.symm hc, .inr ⟨List.replicate k d, ?_⟩⟩
              rw [List.replicate_succ]
              rfl
        · cases k with
          | zero =>
              refine ⟨c :: f, by simp, ?_, ?_⟩
              · rw [List.mem_cons, not_or]
                exact ⟨Ne.symm hc, hd⟩
              · rcases hu with rfl | ⟨v, rfl⟩
                · exact .inl rfl
                · exact .inr ⟨v, rfl⟩
          | succ k =>
              refine ⟨[c], by simp, by simpa using Ne.symm hc, .inr ?_⟩
              rcases hu with rfl | ⟨v, rfl⟩
              · exact ⟨List.replicate k d ++ f, rfl⟩
              · exact ⟨List.replicate k d ++ (f ++ d :: v), rfl⟩

/-- No token is left. -/
theorem strtok_end {k : ℕ} (h : Spells b p (List.replicate k d)) (hdn : d ≠ nul) (hn : k ≤ n) :
    strtok n d b p = (none, b, p + k) := by
  rw [← List.append_nil (List.replicate k d)] at h
  have hend : b (p + k) = nul := by
    have := h.append
    rwa [List.length_replicate] at this
  have hskip := h.skip (by rw [hend]; exact hdn.symm) hn
  simp only [strtok, hskip, hend, if_true]

/-- The last token. -/
theorem strtok_last {k : ℕ} (h : Spells b p (List.replicate k d ++ f)) (hf : f ≠ []) (hd : d ∉ f)
    (hnul : nul ∉ f) (hn : k + f.length < n) :
    strtok n d b p = (some (p + k), b, p + k + f.length) := by
  have h' : Spells b (p + k) (f ++ []) := by
    have := h.append
    rwa [List.length_replicate, ← List.append_nil f] at this
  have hmem := h'.chars 0 (List.length_pos_of_ne_nil hf)
  rw [Nat.add_zero] at hmem
  have hend : b (p + k + f.length) = nul := h'.append
  have hskip := h.skip (fun heq => hd (heq ▸ hmem)) (by omega : k ≤ n)
  have hscan := h'.scan hd hnul (by omega : f.length < n) (.inr hend)
  have hne : b (p + k) ≠ nul := fun heq => hnul (heq ▸ hmem)
  simp only [strtok, hskip, if_neg hne, hscan, hend, if_true]

/-- A token before a delimiter: the delimiter becomes its terminator. -/
theorem strtok_field {k : ℕ} (h : Spells b p (List.replicate k d ++ (f ++ d :: u))) (hf : f ≠ [])
    (hd : d ∉ f) (hnul : nul ∉ f) (hdn : d ≠ nul) (hn : k + f.length < n) :
    strtok n d b p =
      (some (p + k), Function.update b (p + k + f.length) nul, p + k + f.length + 1) := by
  have h' : Spells b (p + k) (f ++ d :: u) := by
    have := h.append
    rwa [List.length_replicate] at this
  have hmem := h'.chars 0 (List.length_pos_of_ne_nil hf)
  rw [Nat.add_zero] at hmem
  have hend : b (p + k + f.length) = d := h'.append.1
  have hskip := h.skip (fun heq => hd (heq ▸ hmem)) (by omega : k ≤ n)
  have hscan := h'.scan hd hnul (by omega : f.length < n) (.inl hend)
  have hne : b (p + k) ≠ nul := fun heq => hnul (heq ▸ hmem)
  simp only [strtok, hskip, if_neg hne, hscan, hend, if_neg hdn]

/-- After a token has been cut off, it is a string of its own and so is the rest. -/
theorem Spells.cut (h : Spells b p (f ++ d :: u)) :
    Spells (Function.update b (p + f.length) nul) p f ∧
      Spells (Function.update b (p + f.length) nul) (p + f.length + 1) u := by
  constructor
  · induction f generalizing b p with
    | nil => exact Function.update_self ..
    | cons c f ih =>
        rw [List.length_cons, show p + (f.length + 1) = p + 1 + f.length by omega]
        refine ⟨?_, ih h.2⟩
        rw [Function.update_of_ne (by omega)]
        exact h.1
  · refine h.append.2.congr ?_
    intro i hi _
    exact Function.update_of_ne (by omega) ..

/-- What `strtok` may do to memory when it works between `lo` and `hi`: nothing
changes outside, and no terminator goes away. -/
structure CutIn (lo hi : ℕ) (b b' : Memory) : Prop where
  frame : ∀ i, i < lo ∨ hi ≤ i → b' i = b i
  keeps : ∀ i, b i = nul → b' i = nul

theorem CutIn.refl (lo hi : ℕ) (b : Memory) : CutIn lo hi b b := ⟨fun _ _ => rfl, fun _ h => h⟩

theorem CutIn.trans {lo lo' hi : ℕ} {b b' b'' : Memory} (h : CutIn lo hi b b')
    (h' : CutIn lo' hi b' b'') (hlo : lo ≤ lo') : CutIn lo hi b b'' := by
  constructor
  · intro i hi
    exact (h'.frame i (by omega)).trans (h.frame i hi)
  · intro i hi
    exact h'.keeps i (h.keeps i hi)

/-- A string that ends where the cutting starts stays. -/
theorem Spells.cutIn {lo hi : ℕ} {b' : Memory} (h : Spells b p f) (hc : CutIn lo hi b b')
    (hle : p + f.length ≤ lo) : Spells b' p f := by
  induction f generalizing p with
  | nil => exact hc.keeps p h
  | cons c f ih =>
      rw [List.length_cons] at hle
      exact ⟨(hc.frame p (by omega)).trans h.1, ih h.2 (by omega)⟩

/-- The text still to be cut: it stands at `p` and fits in the array. -/
structure Pending (n : ℕ) (b : Memory) (p : ℕ) (u : List Char) : Prop where
  spells : Spells b p u
  nul_not_mem : nul ∉ u
  length_lt : u.length < n

/-- From `u` at `p` to `u'` at `p'`, both up to the same end. -/
structure Advance (n : ℕ) (b : Memory) (p : ℕ) (u : List Char)
    (b' : Memory) (p' : ℕ) (u' : List Char) : Prop where
  pending : Pending n b' p' u'
  le : p ≤ p'
  ends : p' + u'.length = p + u.length
  cut : CutIn p (p + u.length) b b'

theorem Advance.cut_trans {b' b'' : Memory} {p' : ℕ} {u' : List Char}
    (h : Advance n b p u b' p' u') (h' : CutIn p' (p' + u'.length) b' b'') :
    CutIn p (p + u.length) b b'' := by
  rw [h.ends] at h'
  exact h.cut.trans h' h.le

theorem CutIn.update {i lo hi : ℕ} (hlo : lo ≤ i) (hhi : i < hi) :
    CutIn lo hi b (Function.update b i nul) := by
  constructor
  · intro j hj
    exact Function.update_of_ne (by omega) ..
  · intro j hj
    by_cases hji : j = i
    · subst hji
      exact Function.update_self ..
    · rwa [Function.update_of_ne hji]

/-- The delimiter after the token `f` is cut out. -/
theorem Pending.advance_field {k : ℕ}
    (h : Pending n b p (List.replicate k d ++ (f ++ d :: u))) :
    Advance n b p (List.replicate k d ++ (f ++ d :: u))
      (Function.update b (p + k + f.length) nul) (p + k + f.length + 1) u := by
  have hlen : (List.replicate k d ++ (f ++ d :: u)).length = k + (f.length + (u.length + 1)) := by
    simp only [List.length_append, List.length_replicate, List.length_cons]
  have h' : Spells b (p + k) (f ++ d :: u) := by
    have := h.spells.append
    rwa [List.length_replicate] at this
  have hlt := h.length_lt
  rw [hlen] at hlt
  constructor
  · refine ⟨h'.cut.2, ?_, by omega⟩
    intro hu
    exact h.nul_not_mem (by simp [hu])
  · omega
  · rw [hlen]
    omega
  · rw [hlen]
    exact .update (by omega) (by omega)

/-- The last token `f` is passed. -/
theorem Pending.advance_last {k : ℕ} (h : Pending n b p (List.replicate k d ++ f)) :
    Advance n b p (List.replicate k d ++ f) b (p + k + f.length) [] := by
  have hlen : (List.replicate k d ++ f).length = k + f.length := by
    rw [List.length_append, List.length_replicate]
  have hend : Spells b (p + (k + f.length)) [] := by
    have := h.spells
    rw [← List.append_nil (List.replicate k d ++ f)] at this
    have := this.append
    rwa [hlen] at this
  have hlt := h.length_lt
  rw [hlen] at hlt
  constructor
  · refine ⟨?_, List.not_mem_nil, ?_⟩
    · rwa [Nat.add_assoc]
    · exact Nat.zero_lt_of_lt hlt
  · omega
  · rw [hlen, List.length_nil]
    omega
  · exact .refl ..

/-- **Whatever the text, `strtok` only cuts inside it.** -/
theorem Pending.strtok_advance (h : Pending n b p u) (hdn : d ≠ nul) :
    ∃ tok b' p' u', strtok n d b p = (tok, b', p') ∧ Advance n b p u b' p' u' := by
  have hlt := h.length_lt
  obtain ⟨k, rfl | ⟨f, hf, hd, rfl | ⟨v, rfl⟩⟩⟩ := token_cases d u
  · rw [List.length_replicate] at hlt
    refine ⟨none, b, p + k, [], strtok_end h.spells hdn (by omega), ?_⟩
    rw [← List.append_nil (List.replicate k d)] at h ⊢
    exact h.advance_last
  · have hnul : nul ∉ f := fun hmem => h.nul_not_mem (List.mem_append_right _ hmem)
    rw [List.length_append, List.length_replicate] at hlt
    exact ⟨_, _, _, _, strtok_last h.spells hf hd hnul hlt, h.advance_last⟩
  · have hnul : nul ∉ f := fun hmem => h.nul_not_mem (by simp [hmem])
    rw [List.length_append, List.length_replicate, List.length_append] at hlt
    exact ⟨_, _, _, _, strtok_field h.spells hf hd hnul hdn (by omega), h.advance_field⟩

/-- A token is never empty and holds no delimiter. -/
theorem Pending.strtok_clean {q p' : ℕ} {b' : Memory} (h : Pending n b p u) (hdn : d ≠ nul)
    (hs : strtok n d b p = (some q, b', p')) :
    ∃ f u', f ≠ [] ∧ d ∉ f ∧ nul ∉ f ∧ f.length ≤ u.length ∧ Spells b' q f ∧
      q + f.length ≤ p' ∧ Advance n b p u b' p' u' := by
  have hlt := h.length_lt
  obtain ⟨k, rfl | ⟨f, hf, hd, rfl | ⟨v, rfl⟩⟩⟩ := token_cases d u
  · rw [List.length_replicate] at hlt
    rw [strtok_end h.spells hdn (by omega)] at hs
    cases hs
  · have hnul : nul ∉ f := fun hmem => h.nul_not_mem (List.mem_append_right _ hmem)
    rw [List.length_append, List.length_replicate] at hlt
    have hspell : Spells b (p + k) f := by
      have := h.spells.append
      rwa [List.length_replicate] at this
    rw [strtok_last h.spells hf hd hnul hlt] at hs
    simp only [Prod.mk.injEq, Option.some.injEq] at hs
    obtain ⟨rfl, rfl, rfl⟩ := hs
    exact ⟨f, [], hf, hd, hnul, by simp, hspell, le_refl _, h.advance_last⟩
  · have hnul : nul ∉ f := fun hmem => h.nul_not_mem (by simp [hmem])
    rw [List.length_append, List.length_replicate, List.length_append] at hlt
    have hspell : Spells b (p + k) (f ++ d :: v) := by
      have := h.spells.append
      rwa [List.length_replicate] at this
    rw [strtok_field h.spells hf hd hnul hdn (by omega)] at hs
    simp only [Prod.mk.injEq, Option.some.injEq] at hs
    obtain ⟨rfl, rfl, rfl⟩ := hs
    refine ⟨f, v, hf, hd, hnul, ?_, hspell.cut.1, Nat.le_succ _, h.advance_field⟩
    simp only [List.length_append]
    omega

/-- The first field of a text, and the text after it. -/
theorem splitOn_cases {fs : List (List Char)} (h : u.splitOn d = f :: fs) :
    d ∉ f ∧ ((u = f ∧ fs = []) ∨ ∃ v, u = f ++ d :: v ∧ v.splitOn d = fs) := by
  by_cases hd : d ∈ u
  · obtain ⟨g, v, rfl, hg⟩ := List.eq_append_cons_of_mem hd
    rw [List.splitOn_append_cons_self_of_not_mem hg] at h
    obtain ⟨rfl, rfl⟩ := List.cons.inj h
    exact ⟨hg, .inr ⟨v, rfl, rfl⟩⟩
  · rw [List.splitOn_eq_singleton hd] at h
    obtain ⟨rfl, rfl⟩ := List.cons.inj h
    exact ⟨hd, .inl ⟨rfl, rfl⟩⟩

/-- Fields are parts of the text. -/
theorem mem_splitOn {fs : List (List Char)} (h : u.splitOn d = fs) (hf : f ∈ fs) :
    f.length ≤ u.length ∧ ∀ c ∈ f, c ∈ u := by
  induction fs generalizing u with
  | nil => cases hf
  | cons g fs ih =>
      obtain ⟨_, ⟨rfl, rfl⟩ | ⟨v, rfl, hv⟩⟩ := splitOn_cases h
      · obtain rfl : f = u := by simpa using hf
        exact ⟨le_refl _, fun _ hc => hc⟩
      · rw [List.length_append, List.length_cons]
        rcases List.mem_cons.mp hf with rfl | hf
        · exact ⟨by omega, fun c hc => List.mem_append_left _ hc⟩
        · obtain ⟨hlen, hmem⟩ := ih hv hf
          refine ⟨by omega, ?_⟩
          intro c hc
          exact List.mem_append_right _ (List.mem_cons_of_mem _ (hmem c hc))

/-- **A nonempty field is the next token**, and the fields after it are still to
be cut. -/
theorem Pending.strtok_token {fs : List (List Char)} (h : Pending n b p u) (hdn : d ≠ nul)
    (hu : u.splitOn d = f :: fs) (hf : f ≠ []) :
    ∃ b' p' u', strtok n d b p = (some p, b', p') ∧ Advance n b p u b' p' u' ∧
      Spells b' p f ∧ p + f.length ≤ p' ∧
      ((fs = [] ∧ u' = []) ∨ (u'.splitOn d = fs ∧ p' = p + f.length + 1)) := by
  have hlt := h.length_lt
  obtain ⟨hd, ⟨rfl, rfl⟩ | ⟨v, rfl, rfl⟩⟩ := splitOn_cases hu
  · have hstep := strtok_last (n := n) (k := 0) h.spells hf hd h.nul_not_mem (by omega)
    exact ⟨_, _, _, hstep, h.advance_last (k := 0) (d := d), h.spells, le_refl _, .inl ⟨rfl, rfl⟩⟩
  · have hnul : nul ∉ f := fun hmem => h.nul_not_mem (List.mem_append_left _ hmem)
    rw [List.length_append] at hlt
    have hstep := strtok_field (n := n) (k := 0) h.spells hf hd hnul hdn (by omega)
    exact ⟨_, _, _, hstep, h.advance_field (k := 0), h.spells.cut.1, Nat.le_succ _,
      .inr ⟨rfl, rfl⟩⟩

end Strtok

/-! ## The text before the terminator -/

/-- What a string function sees of an array: the characters before the first
terminator. -/
def cText (u : List Char) : List Char := u.takeWhile (· ≠ nul)

theorem ne_nul_of_mem {c : Char} {u : List Char} (h : nul ∉ u) (hc : c ∈ u) :
    decide (c ≠ nul) = true := by
  have hne : c ≠ nul := by
    rintro rfl
    exact h hc
  simpa using hne

theorem cText_append_nul {u : List Char} (h : nul ∉ u) (v : List Char) :
    cText (u ++ nul :: v) = u := by
  rw [cText, List.takeWhile_append_of_pos fun c hc => ne_nul_of_mem h hc, List.takeWhile_cons,
    if_neg (by simp), List.append_nil]

theorem cText_eq_self {u : List Char} (h : nul ∉ u) : cText u = u :=
  List.takeWhile_eq_self_iff.mpr fun _ hc => ne_nul_of_mem h hc

theorem nul_not_mem_cText (u : List Char) : nul ∉ cText u := by
  induction u with
  | nil => exact List.not_mem_nil
  | cons c u ih =>
      rw [cText, List.takeWhile_cons]
      split
      · rename_i hc
        rw [List.mem_cons, not_or]
        exact ⟨fun h => by simp [← h] at hc, ih⟩
      · exact List.not_mem_nil

/-- Copied characters with a terminator among them are read back as a string. -/
theorem readString_bcopy {src : List Char} {n : ℕ} (b : Memory) (h : nul ∈ src)
    (hn : src.length ≤ n) : readString (bcopy src b) n 0 = cText src := by
  obtain ⟨u, v, rfl, hu⟩ := List.eq_append_cons_of_mem h
  have hspell : Spells (bcopy (u ++ nul :: v) b) 0 u := by
    rw [spells_iff_map_range']
    apply List.ext_getElem
    · rw [List.length_map, List.length_range', List.length_append, List.length_singleton]
    intro i h₁ h₂
    have hi : i < u.length + 1 := by simpa using h₂
    rw [List.getElem_map, List.getElem_range', Nat.zero_add, Nat.one_mul, bcopy,
      List.getElem?_eq_getElem (by rw [List.length_append, List.length_cons]; omega),
      Option.getD_some]
    have hsplit : u ++ nul :: v = (u ++ [nul]) ++ v := by
      rw [List.append_assoc, List.singleton_append]
    simp only [hsplit]
    exact List.getElem_append_left h₂
  rw [List.length_append] at hn
  rw [cText_append_nul hu, readString_of_spells hspell hu (by omega)]

/-! ## Consecutive strings -/

/-- The strings `us` stand one after the other from `p` on. -/
def Laid (b : Memory) : ℕ → List (List Char) → Prop
  | _, [] => True
  | p, u :: us => Spells b p u ∧ Laid b (p + u.length + 1) us

theorem Laid.congr {b b' : Memory} {p : ℕ} {us : List (List Char)} (h : Laid b p us)
    (hb : ∀ i, p ≤ i → b' i = b i) : Laid b' p us := by
  induction us generalizing p with
  | nil => exact trivial
  | cons u us ih =>
      refine ⟨h.1.congr fun i hi _ => hb i hi, ih h.2 ?_⟩
      intro i hi
      exact hb i (by omega)

/-! ## Numbers -/

/-- The digits that `atoi` goes on reading after the value so far. -/
def atoiDigits : (value : ℤ) → List Char → ℤ
  | value, [] => value
  | value, c :: u =>
      if c.isDigit then atoiDigits (value * 10 + (c.toNat - '0'.toNat : ℕ)) u else value

/-- `isspace`: a blank, or one of the characters 9 to 13. -/
def isspace (c : Char) : Bool := c == ' ' || (9 ≤ c.toNat && c.toNat ≤ 13)

/-- `atoi`: blanks, a sign, digits. -/
def atoi (u : List Char) : ℤ :=
  match u.dropWhile isspace with
  | '-' :: v => - atoiDigits 0 v
  | '+' :: v => atoiDigits 0 v
  | v => atoiDigits 0 v

/-- What `%d` prints. -/
def decimal : ℤ → List Char
  | .ofNat n => Nat.toDigits 10 n
  | .negSucc n => '-' :: Nat.toDigits 10 (n + 1)

theorem atoiDigits_eq {u : List Char} (h : ∀ c ∈ u, c.isDigit) (value : ℕ) :
    atoiDigits value u = (Nat.ofDigitChars 10 u value : ℕ) := by
  induction u generalizing value with
  | nil => rw [atoiDigits, Nat.ofDigitChars_nil]
  | cons c u ih =>
      rw [atoiDigits, if_pos (h c List.mem_cons_self), Nat.ofDigitChars_cons,
        ← ih fun d hd => h d (List.mem_cons_of_mem _ hd)]
      congr 1
      push_cast
      rw [Int.mul_comm]

/-- A text that starts with a digit is read as digits. -/
theorem atoi_of_digit {c : Char} {u : List Char} (h : c.isDigit) :
    atoi (c :: u) = atoiDigits 0 (c :: u) := by
  have hspace : isspace c = false := by
    simp only [Char.isDigit, Bool.and_eq_true, decide_eq_true_eq, UInt32.le_iff_toNat_le] at h
    have h48 : 48 ≤ c.toNat := h.1
    have hblank : c ≠ ' ' := by
      rintro rfl
      exact absurd h48 (by decide)
    simp only [isspace, Bool.or_eq_false_iff, beq_eq_false_iff_ne, ne_eq, hblank,
      not_false_eq_true, true_and, Bool.and_eq_false_iff, decide_eq_false_iff_not]
    omega
  have hsign : c ≠ '-' ∧ c ≠ '+' := by
    constructor <;> (rintro rfl; exact absurd h (by decide))
  unfold atoi
  rw [List.dropWhile_cons, if_neg (by simp [hspace])]
  split
  · rename_i heq
    exact absurd (List.cons.inj heq).1 hsign.1
  · rename_i heq
    exact absurd (List.cons.inj heq).1 hsign.2
  · rfl

theorem isDigit_of_mem_digits {n : ℕ} : ∀ c ∈ Nat.toDigits 10 n, c.isDigit :=
  fun _ hc => Nat.isDigit_of_mem_toDigits (by decide) (by decide) hc

/-- **What `%d` prints, `atoi` reads.** -/
theorem atoi_decimal (v : ℤ) : atoi (decimal v) = v := by
  have hdigits : ∀ n : ℕ, atoiDigits 0 (Nat.toDigits 10 n) = n := by
    intro n
    have h := atoiDigits_eq (isDigit_of_mem_digits (n := n)) 0
    rwa [Nat.ofDigitChars_ten_toDigits] at h
  cases v with
  | ofNat n =>
      show atoi (Nat.toDigits 10 n) = n
      obtain ⟨c, u, hcu⟩ := List.exists_cons_of_ne_nil (Nat.toDigits_ne_nil (n := n) (b := 10))
      have hc : c.isDigit := isDigit_of_mem_digits c (by rw [hcu]; exact List.mem_cons_self)
      rw [hcu, atoi_of_digit hc, ← hcu]
      exact hdigits n
  | negSucc n =>
      show -atoiDigits 0 (Nat.toDigits 10 (n + 1)) = _
      rw [hdigits (n + 1)]
      rfl

theorem decimal_ne_nil (v : ℤ) : decimal v ≠ [] := by
  cases v with
  | ofNat n => exact Nat.toDigits_ne_nil
  | negSucc n => exact List.cons_ne_nil _ _

/-- A number is printed with digits and a sign. -/
theorem mem_decimal {v : ℤ} {c : Char} (h : c ∈ decimal v) : c.isDigit ∨ c = '-' := by
  cases v with
  | ofNat n => exact .inl (isDigit_of_mem_digits c h)
  | negSucc n =>
      rcases List.mem_cons.mp h with rfl | h
      · exact .inr rfl
      · exact .inl (isDigit_of_mem_digits c h)

theorem not_mem_decimal {v : ℤ} {c : Char} (hd : c.isDigit = false) (hs : c ≠ '-') :
    c ∉ decimal v := by
  intro h
  rcases mem_decimal h with h | h
  · rw [hd] at h
    cases h
  · exact hs h

end Nachos.Lib
