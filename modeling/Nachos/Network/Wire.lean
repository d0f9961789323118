import Nachos.Network.Buffer

/-!
# The texts of the request system calls

Each of the twelve request system calls formats its arguments with `sprintf`
into the forty characters of `data`, and `network_thread` takes the text apart
with `strtok` and `atoi`. Numbers survive that. A name is printed as it stands:
a comma in it ends the argument early, an empty one is run over, and what comes
after a terminator is not printed. Nothing looks at the length before `sprintf`
writes the text; `Send` asserts it afterwards.
-/

namespace Nachos.Network

open Nachos.Lib

/-! ## The system calls -/

/-- The request system calls with their arguments. A name is the contents of the
buffer that `copyin` has filled. -/
inductive Syscall where
  | createLock (name : Text)
  | destroyLock (LockID : ℤ)
  | acquireLock (LockID : ℤ)
  | releaseLock (LockID : ℤ)
  | createCondition (name : Text)
  | waitCondition (ConID LockID : ℤ)
  | signalCondition (ConID LockID : ℤ)
  | broadcastCondition (ConID LockID : ℤ)
  | destroyCondition (ConID : ℤ)
  | createMonitor (name : Text)
  | retrieveMonitor (mid : ℤ)
  | setMonitor (mid mValue : ℤ)
deriving DecidableEq, Repr

/-- `sprintf(data,"%d,%d,%s,…",myTimeStamp,myID,requestType,…)`. -/
def requestText (requestType : Char) (args : List Text) (myTimeStamp myID : ℤ) : Text :=
  decimal myTimeStamp ++ ',' :: (decimal myID ++ ',' ::
    ([requestType] ++ args.flatMap fun a => ',' :: a))

/-- The text of each system call. -/
def Syscall.text : Syscall → (myTimeStamp myID : ℤ) → Text
  | .createLock name => requestText 'a' [cText name]
  | .acquireLock LockID => requestText 'b' [decimal LockID]
  | .releaseLock LockID => requestText 'c' [decimal LockID]
  | .destroyLock LockID => requestText 'd' [decimal LockID]
  | .createCondition name => requestText 'e' [cText name]
  | .signalCondition ConID LockID => requestText 'f' [decimal ConID, decimal LockID]
  | .waitCondition ConID LockID => requestText 'g' [decimal ConID, decimal LockID]
  | .broadcastCondition ConID LockID => requestText 'h' [decimal ConID, decimal LockID]
  | .destroyCondition ConID => requestText 'i' [decimal ConID]
  | .createMonitor name => requestText 'j' [cText name]
  | .retrieveMonitor mid => requestText 'k' [decimal mid]
  | .setMonitor mid mValue => requestText 'l' [decimal mid, decimal mValue]

/-- The request that the pointers of a parsed message go to: `*requestType`
decides which arguments are read and whether `atoi` reads them. -/
def Parsed.request (r : Parsed) : Option Syscall :=
  let arg1 := r.arg1.map (readString r.buffer bufferSize)
  let arg2 := r.arg2.map (readString r.buffer bufferSize)
  match r.requestType.map r.buffer with
  | some 'a' => arg1.map .createLock
  | some 'b' => arg1.map fun a => .acquireLock (atoi a)
  | some 'c' => arg1.map fun a => .releaseLock (atoi a)
  | some 'd' => arg1.map fun a => .destroyLock (atoi a)
  | some 'e' => arg1.map .createCondition
  | some 'f' => arg1.bind fun a => arg2.map fun b => .signalCondition (atoi a) (atoi b)
  | some 'g' => arg1.bind fun a => arg2.map fun b => .waitCondition (atoi a) (atoi b)
  | some 'h' => arg1.bind fun a => arg2.map fun b => .broadcastCondition (atoi a) (atoi b)
  | some 'i' => arg1.map fun a => .destroyCondition (atoi a)
  | some 'j' => arg1.map .createMonitor
  | some 'k' => arg1.map fun a => .retrieveMonitor (atoi a)
  | some 'l' => arg1.bind fun a => arg2.map fun b => .setMonitor (atoi a) (atoi b)
  | _ => none

/-- The text fits in a mail with its terminator, and whatever the buffer and the
variables `arg1` and `arg2` held before, parsing it gives back time stamp, id,
request type and arguments. -/
def Syscall.RoundTrip (c : Syscall) (myTimeStamp myID : ℤ) : Prop :=
  (c.text myTimeStamp myID).length + 1 ≤ bufferSize ∧
  ∀ old arg1 arg2, ∃ r, parse (writeString old 0 (c.text myTimeStamp myID)) arg1 arg2 = some r ∧
    r.timeStamp = myTimeStamp ∧ r.ID = myID ∧ r.request = some c

/-- The name in a system call. -/
def Syscall.name? : Syscall → Option Text
  | .createLock name => some name
  | .createCondition name => some name
  | .createMonitor name => some name
  | _ => none

/-- A name that a text can carry. -/
structure Printable (name : Text) : Prop where
  nonempty : name ≠ []
  no_comma : ',' ∉ name
  no_nul : nul ∉ name

instance (name : Text) : Decidable (Printable name) :=
  decidable_of_iff (name ≠ [] ∧ ',' ∉ name ∧ nul ∉ name)
    ⟨fun h => ⟨h.1, h.2.1, h.2.2⟩, fun h => ⟨h.nonempty, h.no_comma, h.no_nul⟩⟩

/-! ## The fields of a text -/

theorem printable_decimal (v : ℤ) : Printable (decimal v) :=
  ⟨decimal_ne_nil v, not_mem_decimal (by decide) (by decide), not_mem_decimal (by decide) (by decide)⟩

/-- Fields that are joined by commas and hold none. -/
theorem fields_joined : ∀ {f : Text} {gs : List Text}, ',' ∉ f → (∀ g ∈ gs, ',' ∉ g) →
    fields (f ++ gs.flatMap fun a => ',' :: a) = f :: gs
  | f, [], hf, _ => by
      rw [List.flatMap_nil, List.append_nil, fields, List.splitOn_eq_singleton hf]
  | f, g :: gs, hf, hgs => by
      rw [List.flatMap_cons, fields, List.cons_append,
        List.splitOn_append_cons_self_of_not_mem hf]
      congr 1
      exact fields_joined (hgs g List.mem_cons_self) fun x hx => hgs x (List.mem_cons_of_mem _ hx)

section Fields

variable {rt : Char} {args : List Text} {ts id : ℤ}

/-- The header of a request text, whatever its arguments are. -/
theorem fields_header : fields (requestText rt args ts id) =
    decimal ts :: decimal id :: fields ([rt] ++ args.flatMap fun a => ',' :: a) := by
  rw [requestText, fields,
    List.splitOn_append_cons_self_of_not_mem (printable_decimal ts).no_comma,
    List.splitOn_append_cons_self_of_not_mem (printable_decimal id).no_comma]
  rfl

theorem nul_not_mem_requestText (hrt : rt ≠ nul) (hargs : ∀ a ∈ args, nul ∉ a) :
    nul ∉ requestText rt args ts id := by
  have hts := (printable_decimal ts).no_nul
  have hid := (printable_decimal id).no_nul
  simp only [requestText, List.mem_append, List.mem_cons, List.mem_flatMap, not_or, not_exists,
    not_and]
  refine ⟨hts, comma_ne_nul.symm, hid, comma_ne_nul.symm, ⟨hrt.symm, List.not_mem_nil⟩, ?_⟩
  intro a ha
  exact ⟨comma_ne_nul.symm, hargs a ha⟩

/-- **Printable arguments are read back**, whatever `arg1` and `arg2` held. -/
theorem parse_requestText (hrt : rt ≠ ',') (hnul : rt ≠ nul) (hargs : ∀ a ∈ args, Printable a)
    (hlen : (requestText rt args ts id).length < bufferSize) (htwo : args.length ≤ 2)
    (old : Memory) (arg1 arg2 : Option ℕ) :
    ∃ r, parse (writeString old 0 (requestText rt args ts id)) arg1 arg2 = some r ∧
      r.timeStamp = ts ∧ r.ID = id ∧ r.requestType.map r.buffer = some rt ∧
      (∀ a ∈ args[0]?, r.arg1.map (readString r.buffer bufferSize) = some a) ∧
      (∀ a ∈ args[1]?, r.arg2.map (readString r.buffer bufferSize) = some a) := by
  have hclean : nul ∉ requestText rt args ts id :=
    nul_not_mem_requestText hnul fun a ha => (hargs a ha).no_nul
  have hfields : fields (requestText rt args ts id) = decimal ts :: decimal id :: [rt] :: args := by
    rw [fields_header, fields_joined (by simpa using hrt.symm) fun a ha => (hargs a ha).no_comma]
  have hempty : [] ∉ args.take args.length := by
    rw [List.take_length]
    intro h
    exact (hargs _ h).nonempty rfl
  obtain ⟨r, hr, hts, hid, hRT, -, hlaid, h1, h2⟩ :=
    parse_request (pending_writeString old hclean hlen) hfields (decimal_ne_nil ts)
      (decimal_ne_nil id) (by simp) htwo (le_refl _) hempty arg1 arg2
  rw [List.take_length] at hlaid
  -- an argument stands as a string where its pointer goes
  have hread : ∀ {p : ℕ} {a : Text}, a ∈ args → Spells r.buffer p a →
      readString r.buffer bufferSize p = a := by
    intro p a ha hspell
    refine readString_field hclean hlen ?_ hspell
    rw [hfields]
    simp [ha]
  refine ⟨r, hr, hts.trans (atoi_decimal ts), hid.trans (atoi_decimal id), ?_, ?_, ?_⟩
  · rw [hRT, Option.map_some, hlaid.1.1]
  · intro a ha
    cases args with
    | nil => cases ha
    | cons b bs =>
        obtain rfl : b = a := Option.some.inj ha
        rw [h1 (by simp), Option.map_some, hread List.mem_cons_self hlaid.2.1]
  · intro a ha
    match args with
    | [] | [_] => cases ha
    | b :: c :: bs =>
        obtain rfl : c = a := Option.some.inj ha
        rw [h2 (by simp) b rfl, Option.map_some, hread (by simp) hlaid.2.2.1]

/-- Whatever the name is, what the parse leaves as the first argument is
printable. -/
theorem printable_of_parse {name arg : Text} {r : Parsed} (hrt : rt ≠ ',') (hnul : rt ≠ nul)
    (hlen : (requestText rt [cText name] ts id).length < bufferSize) {old : Memory}
    {arg1 arg2 : Option ℕ}
    (hr : parse (writeString old 0 (requestText rt [cText name] ts id)) arg1 arg2 = some r)
    (harg : r.arg1.map (readString r.buffer bufferSize) = some arg) : Printable arg := by
  have hclean : nul ∉ requestText rt [cText name] ts id :=
    nul_not_mem_requestText hnul (by simpa using nul_not_mem_cText name)
  have hfields : fields (requestText rt [cText name] ts id) =
      decimal ts :: decimal id :: [rt] :: fields (cText name) := by
    rw [fields_header, List.flatMap_singleton, fields,
      List.splitOn_append_cons_self_of_not_mem (by simpa using hrt.symm)]
    rfl
  obtain ⟨b, p, u, -, hpend, -, -, -, -, hparse⟩ :=
    parse_typed (pending_writeString old hclean hlen) hfields (decimal_ne_nil ts)
      (decimal_ne_nil id) (by simp)
  rw [hparse] at hr
  obtain rfl := Option.some.inj hr
  obtain ⟨tok, b₁, p₁, u₁, h₁, -⟩ := hpend.strtok_advance comma_ne_nul
  cases tok with
  | none => simp [parseArgs, h₁] at harg
  | some q =>
      obtain ⟨f, u', hf, hcomma, hfnul, hle, hspell, hend, hadv⟩ :=
        hpend.strtok_clean comma_ne_nul h₁
      obtain ⟨tok, b₂, p₂, u₂, h₂, hadv₂⟩ := hadv.pending.strtok_advance comma_ne_nul
      rw [parseArgs_some h₁, h₂] at harg
      have hlt := hpend.length_lt
      have hread := readString_of_spells (hspell.cutIn hadv₂.cut hend) hfnul
        (by omega : f.length ≤ bufferSize)
      simp only [Option.map_some, hread, Option.some.injEq] at harg
      subst harg
      exact ⟨hf, hcomma, hfnul⟩

end Fields

/-! ## The twelve calls -/

namespace Syscall

/-- The letter and the printed arguments in the text of a call. -/
def letter : Syscall → Char
  | .createLock _ => 'a'
  | .acquireLock _ => 'b'
  | .releaseLock _ => 'c'
  | .destroyLock _ => 'd'
  | .createCondition _ => 'e'
  | .signalCondition _ _ => 'f'
  | .waitCondition _ _ => 'g'
  | .broadcastCondition _ _ => 'h'
  | .destroyCondition _ => 'i'
  | .createMonitor _ => 'j'
  | .retrieveMonitor _ => 'k'
  | .setMonitor _ _ => 'l'

@[inherit_doc letter]
def printed : Syscall → List Text
  | .createLock name | .createCondition name | .createMonitor name => [cText name]
  | .acquireLock a | .releaseLock a | .destroyLock a | .destroyCondition a
  | .retrieveMonitor a => [decimal a]
  | .signalCondition a b | .waitCondition a b | .broadcastCondition a b
  | .setMonitor a b => [decimal a, decimal b]

theorem text_eq (c : Syscall) : c.text = requestText c.letter c.printed := by
  cases c <;> rfl

theorem letter_ne (c : Syscall) : c.letter ≠ ',' ∧ c.letter ≠ nul := by
  cases c <;> exact ⟨by simp [letter], by simp [letter, nul]⟩

theorem length_printed (c : Syscall) : c.printed.length ≤ 2 := by
  cases c <;> simp [printed]

theorem printable_printed {c : Syscall} (h : ∀ n ∈ c.name?, Printable n) :
    ∀ a ∈ c.printed, Printable a := by
  cases c with
  | createLock name | createCondition name | createMonitor name =>
      have hp := h name rfl
      simpa [printed, cText_eq_self hp.no_nul] using hp
  | _ => simp [printed, printable_decimal]

/-- The letter and the arguments determine the call. -/
theorem request_eq {c : Syscall} {r : Parsed} (hname : ∀ n ∈ c.name?, Printable n)
    (hRT : r.requestType.map r.buffer = some c.letter)
    (h1 : ∀ a ∈ c.printed[0]?, r.arg1.map (readString r.buffer bufferSize) = some a)
    (h2 : ∀ a ∈ c.printed[1]?, r.arg2.map (readString r.buffer bufferSize) = some a) :
    r.request = some c := by
  unfold Parsed.request
  rw [hRT]
  cases c with
  | createLock name | createCondition name | createMonitor name =>
      rw [h1 _ rfl, cText_eq_self (hname name rfl).no_nul]
      rfl
  | acquireLock a | releaseLock a | destroyLock a | destroyCondition a | retrieveMonitor a =>
      rw [h1 _ rfl]
      simp only [letter, Option.map_some, atoi_decimal]
  | signalCondition a b | waitCondition a b | broadcastCondition a b | setMonitor a b =>
      rw [h1 _ rfl, h2 _ rfl]
      simp only [letter, Option.map_some, Option.bind_some, atoi_decimal]

/-- The name in a call is what the first argument is read as. -/
theorem arg1_of_request {c : Syscall} {r : Parsed} {name : Text} (h : r.request = some c)
    (hname : c.name? = some name) : r.arg1.map (readString r.buffer bufferSize) = some name := by
  unfold Parsed.request at h
  dsimp only at h
  split at h
  any_goals
    obtain ⟨a, ha, rfl⟩ := Option.map_eq_some_iff.mp h
    cases hname <;> exact ha
  any_goals
    -- a call with two numbers
    obtain ⟨a, -, h⟩ := Option.bind_eq_some_iff.mp h
    obtain ⟨b, -, rfl⟩ := Option.map_eq_some_iff.mp h
    cases hname
  cases h

end Syscall

/-- **The wire format, exactly.** For every request system call, time stamp and
id: the text fits in a mail and is parsed back to the same call if and only if it
has at most thirty-nine characters and a name in it is not empty and holds
neither a comma nor a terminator. -/
theorem wire_round_trip_iff (c : Syscall) (myTimeStamp myID : ℤ) :
    c.RoundTrip myTimeStamp myID ↔
      (c.text myTimeStamp myID).length ≤ 39 ∧ ∀ name ∈ c.name?, Printable name := by
  constructor
  · rintro ⟨hlen, hparse⟩
    have hlen' : (c.text myTimeStamp myID).length < bufferSize := hlen
    refine ⟨Nat.le_of_lt_succ hlen', ?_⟩
    intro name hname
    obtain ⟨r, hr, -, -, hreq⟩ := hparse (fun _ => nul) none none
    have harg := Syscall.arg1_of_request hreq hname
    have hprinted : c.printed = [cText name] := by
      cases c <;> cases hname <;> rfl
    rw [c.text_eq, hprinted] at hr hlen'
    exact printable_of_parse c.letter_ne.1 c.letter_ne.2 hlen' hr harg
  · rintro ⟨hlen, hname⟩
    have hlen' : (c.text myTimeStamp myID).length < bufferSize := Nat.lt_succ_of_le hlen
    refine ⟨hlen', ?_⟩
    intro old arg1 arg2
    rw [c.text_eq] at hlen' ⊢
    obtain ⟨r, hr, hts, hid, hRT, h1, h2⟩ := parse_requestText c.letter_ne.1 c.letter_ne.2
      (Syscall.printable_printed hname) hlen' c.length_printed old arg1 arg2
    exact ⟨r, hr, hts, hid, Syscall.request_eq hname hRT h1 h2⟩

/-- A lock named `a,b` is created as `a`. -/
theorem wire_comma_lost :
    ¬ ∀ (c : Syscall) (myTimeStamp myID : ℤ), c.RoundTrip myTimeStamp myID := by
  intro hall
  obtain ⟨-, hparse⟩ := hall (.createLock ['a', ',', 'b']) 5 101
  obtain ⟨r, hr, -, -, hreq⟩ := hparse (fun _ => nul) none none
  have hx : (parse (writeString (fun _ => nul) 0
      ((Syscall.createLock ['a', ',', 'b']).text 5 101)) none none).map Parsed.request =
        some (some (.createLock ['a'])) := by
    decide +kernel
  rw [hr, Option.map_some, hreq] at hx
  revert hx
  decide

end Nachos.Network
