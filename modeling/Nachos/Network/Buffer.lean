import Nachos.Lib.CString
import Nachos.Lib.Run
import Nachos.Network.Dispatch
import Nachos.Network.Queues

/-!
# The receive buffer of `network_thread`

Messages are comma-separated texts: timestamp, id, and for a request its type
and up to two arguments. The loop of `network_thread` reads every message into
the same forty characters, cuts it with `strtok`, and queues the request as
pointers into the buffer. This file embeds one iteration of that loop at the
level of characters: the receive, the parse, the queues, the `sprintf` of the
replies, and what the switch reads through the pointers when a request is at
last dispatched.

`new MessageEntry` leaves a pointer that is not assigned with whatever the heap
held there; the environment supplies that value with each message.
-/

namespace Nachos.Network

open Nachos.Lib

/-- `MaxMailSize`, and `char buffer[40]`. -/
def bufferSize : ℕ := 40

/-- `new PostOffice(netname, rely, 100)`. -/
def numBoxes : ℤ := 100

/-! ## The code -/

/-- What the queues carry for a request besides timestamp and id: the text it
arrived with and the pointers. -/
structure Body where
  message : Text
  RT : ℕ
  argument1 : Option ℕ
  argument2 : Option ℕ
deriving DecidableEq, Repr

/-- The variables of one iteration after the parse. `NULL` is `none`. -/
structure Parsed where
  timeStamp : ℤ
  ID : ℤ
  requestType : Option ℕ
  arg1 : Option ℕ
  arg2 : Option ℕ
  buffer : Memory

/-- The last two `strtok` calls. `arg1` and `arg2` are function-level variables:
a call that is not made leaves them as the last iteration did. -/
def parseArgs (buffer : Memory) (save : ℕ) (requestType arg1 arg2 : Option ℕ) :
    Option ℕ × Option ℕ × Memory :=
  let (arg1, buffer, save) :=
    if requestType.isSome then strtok bufferSize ',' buffer save else (arg1, buffer, save)
  let (arg2, buffer, _) :=
    if arg1.isSome then strtok bufferSize ',' buffer save else (arg2, buffer, save)
  (arg1, arg2, buffer)

/-- The `strtok` calls. A message without timestamp or without id makes `atoi`
follow a null pointer. -/
def parse (buffer : Memory) (arg1 arg2 : Option ℕ) : Option Parsed :=
  match strtok bufferSize ',' buffer 0 with
  | (none, _, _) => none
  | (some charTimeStamp, buffer, save) =>
      let timeStamp := atoi (readString buffer bufferSize charTimeStamp)
      match strtok bufferSize ',' buffer save with
      | (none, _, _) => none
      | (some charID, buffer, save) =>
          let ID := atoi (readString buffer bufferSize charID)
          let (requestType, buffer, save) := strtok bufferSize ',' buffer save
          let (arg1, arg2, buffer) := parseArgs buffer save requestType arg1 arg2
          some ⟨timeStamp, ID, requestType, arg1, arg2, buffer⟩

/-- `sprintf(buffer,"%d,%d",myTimeStamp,netname*100+currentThread->mailBox)`. -/
def replyText (nt : NetThread) (myTimeStamp : ℤ) : Text :=
  decimal myTimeStamp ++ ',' :: decimal nt.self

/-- The loop over `TimeStampList`, one clock reading per entry. Forwarding sends
`currentMSG` and does not write to the buffer, but the loop always empties it. -/
def replyLoop (nt : NetThread) (foreign : Bool) : (readings : List ℤ) → Memory → Memory
  | [], buffer => buffer
  | r :: readings, buffer =>
      let buffer := if foreign then writeString buffer 0 (replyText nt r) else buffer
      replyLoop nt foreign readings (Function.update buffer 0 nul)

/-- What one round of the dispatch loop reads through its pointers. -/
structure Use where
  entry : MessageEntry Body
  requestType : Text
  arg1 : Option Text
  arg2 : Option Text
deriving DecidableEq, Repr

/-- The dispatch loop: `arg1` and `arg2` are overwritten only by pointers that
are not null. -/
def dispatchLoop (buffer : Memory) :
    List (MessageEntry Body) → (arg1 arg2 : Option ℕ) → List Use × Option ℕ × Option ℕ
  | [], arg1, arg2 => ([], arg1, arg2)
  | e :: es, arg1, arg2 =>
      let arg1 := e.body.argument1.or arg1
      let arg2 := e.body.argument2.or arg2
      let (uses, rest) := dispatchLoop buffer es arg1 arg2
      (⟨e, readString buffer bufferSize e.body.RT, arg1.map (readString buffer bufferSize),
        arg2.map (readString buffer bufferSize)⟩ :: uses, rest)

/-- What survives from one iteration to the next. -/
structure Loop where
  buffer : Memory
  arg1 : Option ℕ
  arg2 : Option ℕ
  queues : Queues Body

/-- What one iteration takes from outside: the message, the clock readings of
the reply loop, and the heap's contents in the two pointers of a new entry. -/
structure Incoming where
  text : Text
  readings : List ℤ
  heap1 : Option ℕ
  heap2 : Option ℕ
deriving DecidableEq, Repr

/-- A message is a C string that fits in a mail, terminator included. -/
def Incoming.Fits (l : Incoming) (s : Loop) : Prop :=
  nul ∉ l.text ∧ l.text.length < bufferSize ∧ l.readings.length = s.queues.stamps.length

instance (l : Incoming) (s : Loop) : Decidable (l.Fits s) :=
  inferInstanceAs (Decidable (_ ∧ _ ∧ _))

/-- One iteration, with what the switch read in it. -/
def iteration (nt : NetThread) (s : Loop) (l : Incoming) : Option (Loop × List Use) :=
  if l.Fits s then
    match parse (writeString s.buffer 0 l.text) s.arg1 s.arg2 with
    | none => none
    | some r =>
        -- a null argument is not assigned to the new entry
        let queues := s.queues.receive r.ID r.timeStamp <| r.requestType.map fun RT =>
          ⟨l.text, RT, r.arg1.or l.heap1, r.arg2.or l.heap2⟩
        let buffer :=
          if r.requestType.isSome then replyLoop nt (r.ID ≠ nt.self) l.readings r.buffer
          else r.buffer
        -- the switch reads after the replies have been written
        let (uses, arg1, arg2) := dispatchLoop buffer queues.processable r.arg1 r.arg2
        some (⟨buffer, arg1, arg2, { queues with processable := [] }⟩, uses)
  else none

/-! ## What a message says -/

/-- The comma-separated fields of a text. -/
def fields (w : Text) : List Text := w.splitOn ','

/-- How many arguments the `case` of a request type reads. -/
def nargs (requestType : Text) : ℕ :=
  match requestType.head? with
  | none => 0
  | some c =>
      if c ∈ ['f', 'g', 'h', 'l'] then 2
      -- `'b'` is missing here because the switch has no `case ACQUIRE`
      else if c ∈ ['a', 'c', 'd', 'e', 'i', 'j', 'k'] then 1
      else 0

/-- The fields from the request type on that the switch reads. -/
def usedFields (w : Text) : List Text :=
  match (fields w).drop 2 with
  | [] => []
  | rt :: args => rt :: args.take (nargs rt)

/-- Where the third field starts. -/
def place (w : Text) : ℕ :=
  match fields w with
  | t :: i :: _ => t.length + 1 + i.length + 1
  | _ => 0

/-- Timestamp and id are there, and a request has what its `case` reads. Empty
fields do not count: `strtok` runs over them. -/
structure WellFormed (w : Text) : Prop where
  stamped : 2 ≤ (fields w).length
  header : [] ∉ (fields w).take 2
  complete : ∀ rt ∈ (fields w)[2]?, 2 + nargs rt < (fields w).length
  used : [] ∉ usedFields w

instance (w : Text) : Decidable (WellFormed w) :=
  decidable_of_iff (2 ≤ (fields w).length ∧ [] ∉ (fields w).take 2 ∧
      (∀ rt ∈ (fields w)[2]?, 2 + nargs rt < (fields w).length) ∧ [] ∉ usedFields w)
    ⟨fun h => ⟨h.1, h.2.1, h.2.2.1, h.2.2.2⟩, fun h => ⟨h.stamped, h.header, h.complete, h.used⟩⟩

theorem WellFormed.cases {w : Text} (h : WellFormed w) :
    ∃ t i rest, fields w = t :: i :: rest ∧ t ≠ [] ∧ i ≠ [] ∧
      (rest = [] ∨ ∃ rt args, rest = rt :: args ∧ rt ≠ [] ∧ nargs rt ≤ args.length ∧
        [] ∉ args.take (nargs rt)) := by
  obtain ⟨hlen, hhead, hcomplete, hused⟩ := h
  match hw : fields w with
  | [] | [_] => simp [hw] at hlen
  | t :: i :: rest =>
      rw [hw] at hhead hcomplete
      simp only [List.take_succ_cons, List.take_zero, List.mem_cons, List.not_mem_nil, or_false,
        not_or] at hhead
      refine ⟨t, i, rest, rfl, Ne.symm hhead.1, Ne.symm hhead.2, ?_⟩
      cases rest with
      | nil => exact .inl rfl
      | cons rt args =>
          refine .inr ⟨rt, args, rfl, ?_⟩
          simp only [usedFields, hw, List.drop_succ_cons, List.drop_zero, List.mem_cons,
            not_or] at hused
          have hargs := hcomplete rt rfl
          simp only [List.length_cons] at hargs
          exact ⟨Ne.symm hused.1, by omega, hused.2⟩

theorem nargs_le (rt : Text) : nargs rt ≤ 2 := by
  unfold nargs
  split
  · omega
  · split
    · omega
    · split <;> omega

/-! ## What the parse leaves in the buffer -/

theorem comma_ne_nul : ',' ≠ nul := by decide

/-- The fields still to be read stand at `p`, if there are any. -/
def AtFields (p : ℕ) (u : List Char) (fs : List Text) (q : ℕ) : Prop :=
  (fs = [] ∧ u = []) ∨ (fields u = fs ∧ p = q)

/-- The call that reads the next field. -/
theorem strtok_head {b : Memory} {p q : ℕ} {u a : Text} {fs : List Text}
    (h : Pending bufferSize b p u) (hu : AtFields p u (a :: fs) q) (ha : a ≠ []) :
    ∃ b' p' u', strtok bufferSize ',' b p = (some q, b', p') ∧
      Advance bufferSize b p u b' p' u' ∧ Spells b' q a ∧ q + a.length ≤ p' ∧
      AtFields p' u' fs (q + a.length + 1) := by
  rcases hu with ⟨hnil, _⟩ | ⟨hu, rfl⟩
  · cases hnil
  · exact h.strtok_token comma_ne_nul hu ha

/-- The second argument, once the first has been read. -/
theorem parseArgs_some {b b' : Memory} {p p' t RT : ℕ} {arg1 arg2 : Option ℕ}
    (h : strtok bufferSize ',' b p = (some t, b', p')) :
    parseArgs b p (some RT) arg1 arg2 =
      (some t, (strtok bufferSize ',' b' p').1, (strtok bufferSize ',' b' p').2.1) := by
  simp only [parseArgs, Option.isSome_some, if_true, h]

/-- **The arguments.** The fields that the request type's `case` reads end up as
strings one after the other, and the pointers go to them. -/
theorem parseArgs_spec (RT : ℕ) {b : Memory} {p q : ℕ} {u : Text} {args : List Text} {k : ℕ}
    (h : Pending bufferSize b p u) (hu : AtFields p u args q) (hk : k ≤ 2)
    (hlen : k ≤ args.length) (hne : [] ∉ args.take k) (arg1 arg2 : Option ℕ) :
    ∃ a1 a2 b', parseArgs b p (some RT) arg1 arg2 = (a1, a2, b') ∧
      CutIn p (p + u.length) b b' ∧ Laid b' q (args.take k) ∧
      (1 ≤ k → a1 = some q) ∧
      (2 ≤ k → ∀ a ∈ args.head?, a2 = some (q + a.length + 1)) := by
  rcases Nat.eq_zero_or_pos k with rfl | hpos
  · -- nothing is read: the two calls only cut
    obtain ⟨tok, b₁, p₁, u₁, h₁, adv₁⟩ := h.strtok_advance comma_ne_nul
    cases tok with
    | none =>
        refine ⟨none, arg2, b₁, ?_, adv₁.cut, trivial, by omega, by omega⟩
        simp only [parseArgs, Option.isSome_some, if_true, h₁, Option.isSome_none,
          Bool.false_eq_true, if_false]
    | some t =>
        obtain ⟨tok, b₂, p₂, u₂, h₂, adv₂⟩ := adv₁.pending.strtok_advance comma_ne_nul
        refine ⟨some t, tok, b₂, ?_, adv₁.cut_trans adv₂.cut, trivial, by omega, by omega⟩
        rw [parseArgs_some h₁, h₂]
  · obtain ⟨a, args, rfl⟩ : ∃ a l, args = a :: l :=
      List.exists_cons_of_length_pos (by omega)
    obtain ⟨k, rfl⟩ : ∃ m, k = m + 1 := ⟨k - 1, by omega⟩
    rw [List.take_succ_cons, List.mem_cons, not_or] at hne
    obtain ⟨b₁, p₁, u₁, h₁, adv₁, hspell, hle, hat⟩ := strtok_head h hu (Ne.symm hne.1)
    rcases Nat.eq_zero_or_pos k with rfl | hpos
    · obtain ⟨tok, b₂, p₂, u₂, h₂, adv₂⟩ := adv₁.pending.strtok_advance comma_ne_nul
      refine ⟨some q, tok, b₂, ?_, adv₁.cut_trans adv₂.cut, ⟨?_, trivial⟩, fun _ => rfl,
        by omega⟩
      · rw [parseArgs_some h₁, h₂]
      · exact hspell.cutIn adv₂.cut hle
    · obtain ⟨c, args, rfl⟩ : ∃ a l, args = a :: l := by
        rw [List.length_cons] at hlen
        exact List.exists_cons_of_length_pos (by omega)
      obtain rfl : k = 1 := by omega
      rw [List.take_succ_cons, List.mem_cons, not_or] at hne
      obtain ⟨b₂, p₂, u₂, h₂, adv₂, hspell₂, -, -⟩ :=
        strtok_head adv₁.pending hat (Ne.symm hne.2.1)
      refine ⟨some q, some (q + a.length + 1), b₂, ?_, adv₁.cut_trans adv₂.cut,
        ⟨?_, hspell₂, trivial⟩, fun _ => rfl, ?_⟩
      · rw [parseArgs_some h₁, h₂]
      · exact hspell.cutIn adv₂.cut hle
      · rintro - x hx
        obtain rfl : a = x := by simpa using hx
        rfl

/-- A field can be read where it stands. -/
theorem readString_field {b : Memory} {p : ℕ} {w f : Text} (hnul : nul ∉ w)
    (hlen : w.length < bufferSize) (hf : f ∈ fields w) (h : Spells b p f) :
    readString b bufferSize p = f := by
  obtain ⟨hle, hmem⟩ := mem_splitOn rfl hf
  exact readString_of_spells h (fun hc => hnul (hmem _ hc)) (by omega)

/-- **Timestamp and id** are the first two fields; what follows them stands at
`place`. -/
theorem parse_header {b : Memory} {w t i : Text} {rest : List Text}
    (hb : Pending bufferSize b 0 w) (hw : fields w = t :: i :: rest) (ht : t ≠ []) (hi : i ≠ []) :
    ∃ b' p' u', CutIn 0 w.length b b' ∧ Pending bufferSize b' p' u' ∧ p' + u'.length = w.length ∧
      AtFields p' u' rest (place w) ∧
      ∀ arg1 arg2 requestType buffer save, strtok bufferSize ',' b' p' = (requestType, buffer, save) →
        parse b arg1 arg2 = some
          ⟨atoi t, atoi i, requestType, (parseArgs buffer save requestType arg1 arg2).1,
            (parseArgs buffer save requestType arg1 arg2).2.1,
            (parseArgs buffer save requestType arg1 arg2).2.2⟩ := by
  have hat : AtFields 0 w (t :: i :: rest) 0 := .inr ⟨hw, rfl⟩
  obtain ⟨b₁, p₁, u₁, h₁, adv₁, hspell₁, hle₁, hat₁⟩ := strtok_head hb hat ht
  have hp₁ : p₁ = 0 + t.length + 1 := by
    rcases hat₁ with ⟨hnil, _⟩ | ⟨_, hp⟩
    · cases hnil
    · exact hp
  subst hp₁
  obtain ⟨b₂, p₂, u₂, h₂, adv₂, hspell₂, -, hat₂⟩ := strtok_head adv₁.pending hat₁ hi
  have hends := adv₂.ends.trans adv₁.ends
  have hcut := adv₁.cut_trans adv₂.cut
  rw [Nat.zero_add] at hends hcut
  refine ⟨b₂, p₂, u₂, hcut, adv₂.pending, hends, ?_, ?_⟩
  · rw [Nat.zero_add] at hat₂
    simpa only [place, hw] using hat₂
  · intro arg1 arg2 requestType buffer save h₃
    have htime := readString_field hb.nul_not_mem hb.length_lt (by simp [hw]) hspell₁
    have hID := readString_field hb.nul_not_mem hb.length_lt (by simp [hw]) hspell₂
    simp only [parse, h₁, h₂, h₃, htime, hID]

/-- **A reply**: no request type, and the buffer changes only in the text. -/
theorem parse_reply {b : Memory} {w t i : Text} (hb : Pending bufferSize b 0 w)
    (hw : fields w = [t, i]) (ht : t ≠ []) (hi : i ≠ []) (arg1 arg2 : Option ℕ) :
    ∃ r, parse b arg1 arg2 = some r ∧ r.ID = atoi i ∧ r.requestType = none ∧
      CutIn 0 w.length b r.buffer := by
  obtain ⟨b', p', u', hcut, hpend, hends, hat, hparse⟩ := parse_header hb hw ht hi
  have hu : u' = [] := by
    rcases hat with ⟨_, hu⟩ | ⟨hu, _⟩
    · exact hu
    · exact absurd hu (List.splitOn_ne_nil ',' u')
  subst hu
  have h₃ : strtok bufferSize ',' b' p' = (none, b', p') :=
    strtok_end (k := 0) hpend.spells comma_ne_nul (Nat.zero_le _)
  refine ⟨_, hparse arg1 arg2 none b' p' h₃, rfl, rfl, ?_⟩
  cases arg1 with
  | none => simpa only [parseArgs, Option.isSome_none, Bool.false_eq_true, if_false] using hcut
  | some a =>
      simpa only [parseArgs, Option.isSome_none, Option.isSome_some, Bool.false_eq_true, if_false,
        if_true, h₃] using hcut

/-- The third field is the request type; the arguments are still to be read. -/
theorem parse_typed {b : Memory} {w t i rt : Text} {args : List Text}
    (hb : Pending bufferSize b 0 w) (hw : fields w = t :: i :: rt :: args) (ht : t ≠ [])
    (hi : i ≠ []) (hrt : rt ≠ []) :
    ∃ b' p' u', CutIn 0 w.length b b' ∧ Pending bufferSize b' p' u' ∧ p' + u'.length = w.length ∧
      Spells b' (place w) rt ∧ place w + rt.length ≤ p' ∧
      AtFields p' u' args (place w + rt.length + 1) ∧
      ∀ arg1 arg2, parse b arg1 arg2 = some
        ⟨atoi t, atoi i, some (place w), (parseArgs b' p' (some (place w)) arg1 arg2).1,
          (parseArgs b' p' (some (place w)) arg1 arg2).2.1,
          (parseArgs b' p' (some (place w)) arg1 arg2).2.2⟩ := by
  obtain ⟨b', p', u', hcut, hpend, hends, hat, hparse⟩ := parse_header hb hw ht hi
  obtain ⟨b₃, p₃, u₃, h₃, adv₃, hspell, hle, hat₃⟩ := strtok_head hpend hat hrt
  refine ⟨b₃, p₃, u₃, ?_, adv₃.pending, adv₃.ends.trans hends, hspell, hle, hat₃, ?_⟩
  · have hall := adv₃.cut
    rw [hends] at hall
    exact hcut.trans hall (Nat.zero_le _)
  · intro arg1 arg2
    exact hparse arg1 arg2 _ b₃ p₃ h₃

/-- **A request**: its fields, as far as the first `k` arguments, are left one
after the other at `place`, and the pointers go to them. -/
theorem parse_request {b : Memory} {w t i rt : Text} {args : List Text} {k : ℕ}
    (hb : Pending bufferSize b 0 w) (hw : fields w = t :: i :: rt :: args) (ht : t ≠ [])
    (hi : i ≠ []) (hrt : rt ≠ []) (hk : k ≤ 2) (hlen : k ≤ args.length) (hne : [] ∉ args.take k)
    (arg1 arg2 : Option ℕ) :
    ∃ r, parse b arg1 arg2 = some r ∧ r.timeStamp = atoi t ∧ r.ID = atoi i ∧
      r.requestType = some (place w) ∧
      CutIn 0 w.length b r.buffer ∧ Laid r.buffer (place w) (rt :: args.take k) ∧
      (1 ≤ k → r.arg1 = some (place w + rt.length + 1)) ∧
      (2 ≤ k → ∀ a ∈ args.head?, r.arg2 = some (place w + rt.length + 1 + a.length + 1)) := by
  obtain ⟨b', p', u', hcut, hpend, hends, hspell, hle, hat, hparse⟩ := parse_typed hb hw ht hi hrt
  obtain ⟨a1, a2, b'', hargs, hcut', hlaid, h1, h2⟩ :=
    parseArgs_spec (place w) hpend hat hk hlen hne arg1 arg2
  refine ⟨_, hparse arg1 arg2, rfl, rfl, rfl, ?_⟩
  rw [hargs]
  refine ⟨?_, ⟨hspell.cutIn hcut' hle, hlaid⟩, h1, h2⟩
  rw [hends] at hcut'
  exact hcut.trans hcut' (Nat.zero_le _)

/-! ## Queued requests and the buffer -/

/-- The pointers of an entry go where its message had the fields. -/
structure Body.Placed (e : Body) : Prop where
  nul_not_mem : nul ∉ e.message
  length_lt : e.message.length < bufferSize
  RT_eq : e.RT = place e.message
  args : ∃ rt args, (fields e.message).drop 2 = rt :: args ∧ nargs rt ≤ args.length ∧
    (1 ≤ nargs rt → e.argument1 = some (e.RT + rt.length + 1)) ∧
    (2 ≤ nargs rt → ∀ a ∈ args.head?, e.argument2 = some (e.RT + rt.length + 1 + a.length + 1))

/-- **The invariant of a queued request**: its fields stand where its pointers go. -/
structure Held (b : Memory) (e : Body) : Prop extends e.Placed where
  laid : Laid b e.RT (usedFields e.message)

/-- What the switch reads is the third field, and the fourth and fifth as far as
the `case` looks at them. -/
structure Use.Kept (u : Use) : Prop where
  requestType : some u.requestType = (fields u.entry.body.message)[2]?
  arg1 : 1 ≤ nargs u.requestType → u.arg1 = (fields u.entry.body.message)[3]?
  arg2 : 2 ≤ nargs u.requestType → u.arg2 = (fields u.entry.body.message)[4]?

theorem Body.Placed.RT_pos {e : Body} (h : e.Placed) : 0 < e.RT := by
  obtain ⟨rt, args, hdrop, -⟩ := h.args
  rw [h.RT_eq, place]
  match hw : fields e.message with
  | [] | [_] => simp [hw] at hdrop
  | t :: i :: _ => exact Nat.succ_pos _

theorem Held.congr {b b' : Memory} {e : Body} (h : Held b e) (hb : ∀ i, e.RT ≤ i → b' i = b i) :
    Held b' e :=
  ⟨h.toPlaced, h.laid.congr hb⟩

/-- **A held request is dispatched with its own fields**, whatever the variables
`arg1` and `arg2` held before. -/
theorem Held.kept {b : Memory} {e : MessageEntry Body} (h : Held b e.body) (arg1 arg2 : Option ℕ) :
    Use.Kept ⟨e, readString b bufferSize e.body.RT,
      (e.body.argument1.or arg1).map (readString b bufferSize),
      (e.body.argument2.or arg2).map (readString b bufferSize)⟩ := by
  obtain ⟨rt, args, hdrop, hlen, h1, h2⟩ := h.args
  have hfield : ∀ k, (fields e.body.message)[2 + k]? = (rt :: args)[k]? := by
    intro k
    rw [← hdrop, List.getElem?_drop]
  have hmem : ∀ f ∈ rt :: args, f ∈ fields e.body.message := by
    intro f hf
    rw [← hdrop] at hf
    exact List.mem_of_mem_drop hf
  have hlaid := h.laid
  simp only [usedFields, hdrop] at hlaid
  have hread := readString_field h.nul_not_mem h.length_lt (hmem rt List.mem_cons_self) hlaid.1
  refine ⟨?_, ?_, ?_⟩
  · rw [hread]
    exact (hfield 0).symm
  · rw [hread]
    intro (hk : 1 ≤ nargs rt)
    obtain ⟨a, args, rfl⟩ := List.exists_cons_of_length_pos (Nat.lt_of_lt_of_le hk hlen)
    obtain ⟨k, hk'⟩ : ∃ k, nargs rt = k + 1 := ⟨nargs rt - 1, by omega⟩
    have hlaid₁ := hlaid.2
    rw [hk', List.take_succ_cons] at hlaid₁
    have ha := readString_field h.nul_not_mem h.length_lt (hmem a (by simp)) hlaid₁.1
    rw [h1 hk, Option.some_or, Option.map_some, ha]
    exact (hfield 1).symm
  · rw [hread]
    intro (hk : 2 ≤ nargs rt)
    obtain ⟨a, args, rfl⟩ := List.exists_cons_of_length_pos (by omega : 0 < args.length)
    rw [List.length_cons] at hlen
    obtain ⟨c, args, rfl⟩ := List.exists_cons_of_length_pos (by omega : 0 < args.length)
    obtain ⟨k, hk'⟩ : ∃ k, nargs rt = k + 2 := ⟨nargs rt - 2, by omega⟩
    have hlaid₂ := hlaid.2
    rw [hk', List.take_succ_cons, List.take_succ_cons] at hlaid₂
    have hc := readString_field h.nul_not_mem h.length_lt (hmem c (by simp)) hlaid₂.2.1
    rw [h2 hk a rfl, Option.some_or, Option.map_some, hc]
    exact (hfield 2).symm

theorem dispatchLoop_kept {b : Memory} {es : List (MessageEntry Body)}
    (h : ∀ e ∈ es, Held b e.body) (arg1 arg2 : Option ℕ) :
    ∀ u ∈ (dispatchLoop b es arg1 arg2).1, u.Kept := by
  induction es generalizing arg1 arg2 with
  | nil =>
      intro u hu
      cases hu
  | cons e es ih =>
      intro u hu
      rw [dispatchLoop, List.mem_cons] at hu
      rcases hu with rfl | hu
      · exact (h e List.mem_cons_self).kept arg1 arg2
      · exact ih (fun x hx => h x (List.mem_cons_of_mem _ hx)) _ _ u hu

/-- Replies leave what lies behind them. -/
theorem replyLoop_of_gt {nt : NetThread} {foreign : Bool} {readings : List ℤ} {b : Memory} {i : ℕ}
    (hi : 0 < i) (h : foreign = true → ∀ r ∈ readings, (replyText nt r).length < i) :
    replyLoop nt foreign readings b i = b i := by
  induction readings generalizing b with
  | nil => rfl
  | cons r readings ih =>
      have hrest : foreign = true → ∀ r ∈ readings, (replyText nt r).length < i :=
        fun hf x hx => h hf x (List.mem_cons_of_mem _ hx)
      rw [replyLoop, ih hrest, Function.update_of_ne (Nat.ne_of_gt hi)]
      split
      · rename_i hf
        have hlen := h hf r List.mem_cons_self
        exact writeString_of_gt (by omega)
      · rfl

/-! ## One iteration -/

/-- The id of a message. -/
def messageID (w : Text) : ℤ := atoi ((fields w)[1]?.getD [])

/-- A message that does no harm: it is well formed; it ends before the request
type of every queued request, or puts the same fields at the same place; and if
it is answered, the answers end before the request type of every queued request
and of its own. -/
structure Harmless (nt : NetThread) (s : Loop) (l : Incoming) : Prop where
  wellFormed : WellFormed l.text
  text : ∀ e ∈ s.queues.queued, l.text.length < e.body.RT ∨
    (place l.text = e.body.RT ∧ usedFields l.text = usedFields e.body.message)
  replies : 2 < (fields l.text).length → messageID l.text ≠ nt.self → ∀ r ∈ l.readings,
    (replyText nt r).length < place l.text ∧
      ∀ e ∈ s.queues.queued, (replyText nt r).length < e.body.RT

instance (nt : NetThread) (s : Loop) (l : Incoming) : Decidable (Harmless nt s l) :=
  decidable_of_iff
    (WellFormed l.text ∧
      (∀ e ∈ s.queues.queued, l.text.length < e.body.RT ∨
        (place l.text = e.body.RT ∧ usedFields l.text = usedFields e.body.message)) ∧
      (2 < (fields l.text).length → messageID l.text ≠ nt.self → ∀ r ∈ l.readings,
        (replyText nt r).length < place l.text ∧
          ∀ e ∈ s.queues.queued, (replyText nt r).length < e.body.RT))
    ⟨fun h => ⟨h.1, h.2.1, h.2.2⟩, fun h => ⟨h.wellFormed, h.text, h.replies⟩⟩

/-- Between iterations everything queued is held and nothing is processable. -/
structure LoopInv (s : Loop) : Prop where
  held : ∀ e ∈ s.queues.queued, Held s.buffer e.body
  processed : s.queues.processable = []

theorem pending_writeString (b : Memory) {w : Text} (hnul : nul ∉ w) (hlen : w.length < bufferSize) :
    Pending bufferSize (writeString b 0 w) 0 w :=
  ⟨spells_writeString b 0 w, hnul, hlen⟩

/-- Behind the text, the receive and the parse change nothing. -/
theorem after_text {b b' : Memory} {w : Text} (h : CutIn 0 w.length (writeString b 0 w) b')
    {i : ℕ} (hi : w.length < i) : b' i = b i := by
  rw [h.frame i (.inr (by omega))]
  exact writeString_of_gt (by omega)

/-- **What the parse of a well-formed message gives**: the fields it reads are
strings at `place`, and a request has its pointers on them. -/
theorem parse_wellFormed (b : Memory) {w : Text} (hw : WellFormed w) (hnul : nul ∉ w)
    (hlen : w.length < bufferSize) (arg1 arg2 : Option ℕ) :
    ∃ r, parse (writeString b 0 w) arg1 arg2 = some r ∧ r.ID = messageID w ∧
      CutIn 0 w.length (writeString b 0 w) r.buffer ∧ Laid r.buffer (place w) (usedFields w) ∧
      (r.requestType = none ∨ (2 < (fields w).length ∧ r.requestType = some (place w) ∧
        ∀ heap1 heap2, Body.Placed ⟨w, place w, r.arg1.or heap1, r.arg2.or heap2⟩)) := by
  have hb := pending_writeString b hnul hlen
  obtain ⟨t, i, rest, hf, ht, hi, rfl | ⟨rt, args, rfl, hrt, hargs, hne⟩⟩ := hw.cases
  · obtain ⟨r, hr, hID, hnone, hcut⟩ := parse_reply hb hf ht hi arg1 arg2
    refine ⟨r, hr, ?_, hcut, ?_, .inl hnone⟩
    · rw [hID, messageID, hf]
      rfl
    · rw [usedFields, hf]
      trivial
  · obtain ⟨r, hr, -, hID, hRT, hcut, hlaid, h1, h2⟩ :=
      parse_request hb hf ht hi hrt (nargs_le rt) hargs hne arg1 arg2
    refine ⟨r, hr, ?_, hcut, ?_, .inr ⟨?_, hRT, ?_⟩⟩
    · rw [hID, messageID, hf]
      rfl
    · rw [usedFields, hf]
      exact hlaid
    · simp [hf]
    · intro heap1 heap2
      refine ⟨hnul, hlen, rfl, rt, args, by simp only [hf, List.drop_succ_cons, List.drop_zero],
        hargs, ?_, ?_⟩
      · intro hk
        simp only [h1 hk, Option.some_or]
      · intro hk a ha
        simp only [h2 hk a ha, Option.some_or]

/-- A queued request survives the receive and the parse of a message that ends
before it or carries the same fields. -/
theorem Held.receive {b b' : Memory} {w : Text} {e : Body} (h : Held b e)
    (hcut : CutIn 0 w.length (writeString b 0 w) b') (hlaid : Laid b' (place w) (usedFields w))
    (hor : w.length < e.RT ∨ (place w = e.RT ∧ usedFields w = usedFields e.message)) :
    Held b' e := by
  rcases hor with hlt | ⟨hplace, hused⟩
  · refine h.congr ?_
    intro i hi
    exact after_text hcut (by omega)
  · rw [hplace, hused] at hlaid
    exact ⟨h.toPlaced, hlaid⟩

/-- The inversion of one iteration. -/
theorem iteration_some {nt : NetThread} {s s' : Loop} {l : Incoming} {uses : List Use}
    (h : iteration nt s l = some (s', uses)) :
    l.Fits s ∧ ∃ r, parse (writeString s.buffer 0 l.text) s.arg1 s.arg2 = some r ∧
      ∃ queues, queues = s.queues.receive r.ID r.timeStamp (r.requestType.map fun RT =>
          ⟨l.text, RT, r.arg1.or l.heap1, r.arg2.or l.heap2⟩) ∧
        s'.buffer = (if r.requestType.isSome then
          replyLoop nt (r.ID ≠ nt.self) l.readings r.buffer else r.buffer) ∧
        s'.queues = { queues with processable := [] } ∧
        uses = (dispatchLoop s'.buffer queues.processable r.arg1 r.arg2).1 := by
  unfold iteration at h
  split at h
  · rename_i hfits
    split at h
    · cases h
    · rename_i r hr
      simp only [Option.some.injEq, Prod.mk.injEq] at h
      obtain ⟨rfl, rfl⟩ := h
      exact ⟨hfits, r, hr, _, rfl, rfl, rfl, rfl⟩
  · cases h

/-- After an iteration, every entry is the one just received or was queued. -/
theorem mem_receive {q : Queues Body} (hq : q.processable = []) {ID timeStamp : ℤ}
    {request : Option Body} {e : MessageEntry Body}
    (he : e ∈ (q.receive ID timeStamp request).processable ∨
      e ∈ (q.receive ID timeStamp request).queued) :
    request = some e.body ∨ e ∈ q.queued := by
  have hmem := (q.receive_perm ID timeStamp request).mem_iff.mp (List.mem_append.mpr he)
  rw [hq, List.nil_append, List.mem_append] at hmem
  rcases hmem with hnew | hold
  · cases request with
    | none => cases hnew
    | some body =>
        obtain rfl : e = ⟨ID, timeStamp, body⟩ := by simpa using hnew
        exact .inl rfl
  · exact .inr hold

/-- **One iteration**: a message that does no harm leaves every queued request
held, and what is dispatched is dispatched with its own fields. -/
theorem LoopInv.iteration {nt : NetThread} {s s' : Loop} {l : Incoming} {uses : List Use}
    (h : LoopInv s) (hok : Harmless nt s l) (hs : iteration nt s l = some (s', uses)) :
    LoopInv s' ∧ ∀ u ∈ uses, u.Kept := by
  obtain ⟨⟨hnul, hlen, -⟩, r, hr, queues, rfl, hbuf, hqueues, rfl⟩ := iteration_some hs
  obtain ⟨r', hr', hID, hcut, hlaid, hrequest⟩ :=
    parse_wellFormed s.buffer hok.wellFormed hnul hlen s.arg1 s.arg2
  obtain rfl : r = r' := Option.some.inj (hr.symm.trans hr')
  -- after the parse
  have hold : ∀ e ∈ s.queues.queued, Held r.buffer e.body := by
    intro e he
    exact (h.held e he).receive hcut hlaid (hok.text e he)
  -- after the replies, for the queued requests and the new one
  have hall : ∀ e : MessageEntry Body,
      (r.requestType.map fun RT => (⟨l.text, RT, r.arg1.or l.heap1, r.arg2.or l.heap2⟩ : Body)) =
          some e.body ∨ e ∈ s.queues.queued →
        Held s'.buffer e.body := by
    rw [hbuf]
    rcases hrequest with hnone | ⟨hfields, hsome, hplaced⟩
    · rw [hnone]
      rintro e (hnew | he)
      · cases hnew
      · exact hold e he
    · rw [hsome]
      have hframe : ∀ i, 0 < i →
          (messageID l.text ≠ nt.self → ∀ x ∈ l.readings, (replyText nt x).length < i) →
          replyLoop nt (r.ID ≠ nt.self) l.readings r.buffer i = r.buffer i := by
        intro i hi hx
        rw [← hID] at hx
        exact replyLoop_of_gt hi fun hf => hx (of_decide_eq_true hf)
      rintro e (hnew | he)
      · have hp := hplaced l.heap1 l.heap2
        have hheld : Held r.buffer ⟨l.text, place l.text, r.arg1.or l.heap1, r.arg2.or l.heap2⟩ :=
          ⟨hp, hlaid⟩
        rw [← Option.some.inj hnew]
        refine hheld.congr ?_
        intro i hi
        refine hframe i (Nat.lt_of_lt_of_le hp.RT_pos hi) ?_
        intro hne x hx
        exact Nat.lt_of_lt_of_le (hok.replies hfields hne x hx).1 hi
      · refine (hold e he).congr ?_
        intro i hi
        refine hframe i (Nat.lt_of_lt_of_le (hold e he).RT_pos hi) ?_
        intro hne x hx
        exact Nat.lt_of_lt_of_le ((hok.replies hfields hne x hx).2 e he) hi
  -- what stays queued and what is dispatched now are both among these
  refine ⟨⟨?_, ?_⟩, ?_⟩
  · rw [hqueues]
    intro e he
    exact hall e (mem_receive h.processed (.inr he))
  · rw [hqueues]
  · refine dispatchLoop_kept ?_ _ _
    intro e he
    exact hall e (mem_receive h.processed (.inl he))

/-! ## Runs -/

/-- The loop is entered with nothing queued; buffer and pointers hold anything. -/
def Loop.start (buffer : Memory) (arg1 arg2 : Option ℕ) (idList : List ℤ) : Loop :=
  ⟨buffer, arg1, arg2, ⟨idList.map (TimeStamp.mk · (-1)), [], [], .nil⟩⟩

/-- **Queued requests keep their contents** in every run whose messages all do no
harm to what is queued when they arrive. -/
theorem kept_of_harmless {nt : NetThread} {buffer : Memory} {arg1 arg2 : Option ℕ}
    {idList : List ℤ} {tr : List (List Use)} {s : Loop}
    (h : Run (iteration nt) (fun _ => Harmless nt) (.start buffer arg1 arg2 idList) tr s) :
    ∀ uses ∈ tr, ∀ u ∈ uses, u.Kept := by
  have hinv : LoopInv s ∧ ∀ uses ∈ tr, ∀ u ∈ uses, u.Kept := by
    refine h.invariant (I := fun tr s => LoopInv s ∧ ∀ uses ∈ tr, ∀ u ∈ uses, u.Kept) ?_ ?_
    · exact ⟨⟨by simp [Loop.start], rfl⟩, by simp⟩
    · rintro tr s l s' uses ⟨hs, htr⟩ hok hstep
      obtain ⟨hs', huses⟩ := hs.iteration hok hstep
      refine ⟨hs', ?_⟩
      intro us hus
      rcases List.mem_append.mp hus with hus | hus
      · exact htr us hus
      · obtain rfl : us = uses := by simpa using hus
        exact huses
  exact hinv.2

/-- The user program of machine 1 creates lock `x`. -/
def createX : Incoming := ⟨['5', ',', '1', '0', '1', ',', 'a', ',', 'x'], [6, 6], none, none⟩

/-- Machine 2 answers. -/
def answer201 : Incoming := ⟨['9', ',', '2', '0', '1'], [7, 7], none, none⟩

/-- The user program of machine 2 creates lock `y`. -/
def createY : Incoming := ⟨['7', ',', '2', '0', '1', ',', 'a', ',', 'y'], [8, 8], none, none⟩

/-- An entry for `createX` as it is queued. -/
def entryX : MessageEntry Body := ⟨101, 5, createX.text, 6, some 8, none⟩

theorem kept_of_harmless_createX :
    ∃ tr s, Run (iteration nt101) (fun _ => Harmless nt101)
        (.start (fun _ => nul) none none [101, 201]) tr s ∧
      tr = [[], [⟨entryX, ['a'], some ['x'], none⟩]] ∧ ∀ uses ∈ tr, ∀ u ∈ uses, u.Kept := by
  have hexec : (exec (iteration nt101) (fun _ => Harmless nt101) []
      (.start (fun _ => nul) none none [101, 201]) [createX, answer201]).map Prod.fst =
        some [[], [⟨entryX, ['a'], some ['x'], none⟩]] := by
    decide +kernel
  obtain ⟨⟨tr, s⟩, hp, rfl⟩ := Option.map_eq_some_iff.mp hexec
  have hrun := Run.of_exec .start hp
  exact ⟨_, s, hrun, rfl, kept_of_harmless hrun⟩

/-- Lock `x` is created under the name `y`: the second request lies in the buffer
when the first one is dispatched. -/
theorem queued_overwritten :
    ¬ ∀ (nt : NetThread) (buffer : Memory) (arg1 arg2 : Option ℕ) (idList : List ℤ)
        (tr : List (List Use)) (s : Loop),
        Run (iteration nt) anyStep (.start buffer arg1 arg2 idList) tr s →
        ∀ uses ∈ tr, ∀ u ∈ uses, u.Kept := by
  intro hall
  have hexec : (exec (iteration nt101) anyStep []
      (.start (fun _ => nul) none none [101, 201]) [createX, createY]).map Prod.fst =
        some [[], [⟨entryX, ['a'], some ['y'], none⟩]] := by
    decide +kernel
  obtain ⟨⟨tr, s⟩, hp, rfl⟩ := Option.map_eq_some_iff.mp hexec
  have hkept := hall _ _ _ _ _ _ s (Run.of_exec .start hp)
    [⟨entryX, ['a'], some ['y'], none⟩] (by simp) _ List.mem_cons_self
  exact absurd (hkept.arg1 (by decide)) (by decide)

end Nachos.Network
