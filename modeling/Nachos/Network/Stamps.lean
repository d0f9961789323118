import Nachos.Network.Mail

/-!
# The timestamps of one network thread

A network thread forwards the requests of its user program with the timestamps
they got in the syscall, and stamps its own answers when it sends them. The
dispatch rule of the receivers takes for granted that what one thread sends to
another never goes back in time. It does when an answer overtakes a request that
was stamped earlier and still waits in the mailbox; and in the thread's own table
it does when a request overtakes an older answer to itself.
-/

namespace Nachos.Network

open Nachos.Lib

/-- An answer is stamped only when no older request of the own user program is
waiting, and an own request is taken only when no older answer to oneself is. -/
def StampedInOrder (_tr : List Event) (s : Net) : Label → Prop
  | .send nt => (s.nt nt.self).current.ID ≠ nt.self →
      ∀ m ∈ s.chan (.up, nt.self), m.ID = nt.self → (s.clock : ℤ) ≤ m.time
  | .receive nt .up => ∀ m ∈ (s.chan (.up, nt.self)).head?, m.ID = nt.self →
      ∀ x ∈ s.chan (.nt nt.self, nt.self), m.time ≤ x.time
  | _ => True

instance (tr : List Event) (s : Net) (l : Label) : Decidable (StampedInOrder tr s l) :=
  match l with
  | .send nt => inferInstanceAs (Decidable (_ → ∀ m ∈ s.chan (.up, nt.self), _))
  | .receive nt .up => inferInstanceAs (Decidable (∀ m ∈ (s.chan (.up, nt.self)).head?, _))
  | .receive _ (.nt _) | .tick _ | .issue _ _ | .answer _ | .steal _ _ | .dispatch _ =>
      .isTrue trivial

/-- Entry by entry, the table lists the same threads with later timestamps. -/
def TableGrows (l l' : List TimeStamp) : Prop :=
  List.Forall₂ (fun a b => a.ntID = b.ntID ∧ a.time ≤ b.time) l l'

/-- What one thread sends to another never goes back in time, and neither does
any entry of a timestamp table, nor its smallest entry, in the next step. -/
structure StampsGrow (reg : Registry) (ok : List Event → Net → Label → Prop)
    (tr : List Event) (s : Net) : Prop where
  sent : ∀ i ∈ reg.idList, ∀ j ∈ reg.idList, i ≠ j →
    (sentTo i j tr).Pairwise (fun a b => a.time ≤ b.time)
  table : ∀ l s' e, ok tr s l → step reg s l = some (s', e) → ∀ j,
    TableGrows (s.nt j).queues.stamps (s'.nt j).queues.stamps
  smallest : ∀ l s' e, ok tr s l → step reg s l = some (s', e) → ∀ j ∈ reg.idList,
    smallestTS (s.nt j).queues.stamps ≤ smallestTS (s'.nt j).queues.stamps

/-! ## Tables -/

theorem TableGrows.refl (l : List TimeStamp) : TableGrows l l :=
  List.forall₂_same.mpr fun _ _ => ⟨rfl, le_refl _⟩

theorem TableGrows.updateStamp {ID timeStamp : ℤ} {l : List TimeStamp}
    (h : ∀ st ∈ l, st.ntID = ID → st.time ≤ timeStamp) :
    TableGrows l (updateStamp ID timeStamp l) := by
  induction l with
  | nil => exact .nil
  | cons st l ih =>
      unfold Network.updateStamp
      split
      · rename_i hID
        exact .cons ⟨rfl, h st List.mem_cons_self hID⟩ (TableGrows.refl l)
      · exact .cons ⟨rfl, le_refl _⟩ (ih fun x hx => h x (List.mem_cons_of_mem _ hx))

theorem TableGrows.smallestTS_le {l l' : List TimeStamp} (h : TableGrows l l') (hne : l ≠ []) :
    smallestTS l ≤ smallestTS l' := by
  have hne' : l' ≠ [] := by
    rintro rfl
    exact hne (List.forall₂_nil_right_iff.mp h)
  obtain ⟨b, hb, heq⟩ := smallestTS_mem hne'
  rw [heq]
  obtain ⟨a, ha, hab⟩ : ∃ a ∈ l, a.time ≤ b.time := by
    clear hne hne' heq
    induction h with
    | nil => cases hb
    | @cons x y l l' hxy _ ih =>
        rcases List.mem_cons.mp hb with rfl | hb
        · exact ⟨x, List.mem_cons_self, hxy.2⟩
        · obtain ⟨a, ha, hab⟩ := ih hb
          exact ⟨a, List.mem_cons_of_mem _ ha, hab⟩
  exact (Network.smallestTS_le ha).trans hab

/-! ## The invariant -/

/-- `t` is no later than the clock and than the own requests that still wait in
the mailbox of `i`. -/
structure Past (s : Net) (i t : ℤ) : Prop where
  clock : t ≤ s.clock
  waiting : ∀ m ∈ s.chan (.up, i), m.ID = i → t ≤ m.time

structure StampOrder (tr : List Event) (s : Net) : Prop where
  up : ∀ i, (s.chan (.up, i)).Pairwise (fun a b => a.time ≤ b.time) ∧
    ∀ m ∈ s.chan (.up, i), m.time ≤ s.clock
  sent : ∀ i d, (sentTo i d tr).Pairwise (fun a b => a.time ≤ b.time)
  sentPast : ∀ i d, ∀ x ∈ sentTo i d tr, Past s i x.time
  current : ∀ i, (s.nt i).sending ≠ [] → (s.nt i).current.ID = i →
    Past s i (s.nt i).current.time ∧
      ∀ d, ∀ x ∈ sentTo i d tr, x.time ≤ (s.nt i).current.time
  /-- What is in the mail are the last messages sent. -/
  mail : ∀ i d, s.chan (.nt i, d) <:+ sentTo i d tr
  /-- A table entry is no later than what is still on its way. -/
  table : ∀ d, ∀ st ∈ (s.nt d).queues.stamps, st.time ≤ s.clock ∧
    ∀ x ∈ s.chan (.nt st.ntID, d), st.time ≤ x.time
  tableOwn : ∀ d, ∀ st ∈ (s.nt d).queues.stamps, st.ntID = d → Past s d st.time
  tableOther : ∀ d, ∀ st ∈ (s.nt d).queues.stamps, st.ntID ≠ d →
    st.time = -1 ∨ ∃ x ∈ sentTo st.ntID d tr, st.time = x.time

section Invariant

variable {reg : Registry} {tr : List Event} {s s' : Net}

theorem Past.mono {i t : ℤ} (h : Past s i t) (hclock : s.clock ≤ s'.clock)
    (hup : ∀ m ∈ s'.chan (.up, i), m ∈ s.chan (.up, i) ∨ (s.clock : ℤ) ≤ m.time) :
    Past s' i t where
  clock := h.clock.trans (by exact_mod_cast hclock)
  waiting m hm hID := by
    rcases hup m hm with hm | hm
    · exact h.waiting m hm hID
    · exact h.clock.trans hm

theorem StampOrder.initial (clock : ℕ) : StampOrder [] (.initial reg clock) where
  up i := ⟨.nil, fun m hm => by cases hm⟩
  sent i d := .nil
  sentPast i d x hx := by cases hx
  current i h := absurd rfl h
  mail i d := List.suffix_rfl
  table d st hst := by
    obtain ⟨i, _, rfl⟩ := List.mem_map.mp hst
    exact ⟨(show (-1 : ℤ) ≤ 0 by decide).trans (Int.natCast_nonneg clock), fun x hx => by cases hx⟩
  tableOwn d st hst _ := by
    obtain ⟨i, _, rfl⟩ := List.mem_map.mp hst
    exact ⟨(show (-1 : ℤ) ≤ 0 by decide).trans (Int.natCast_nonneg clock), fun x hx => by cases hx⟩
  tableOther d st hst _ := by
    obtain ⟨i, _, rfl⟩ := List.mem_map.mp hst
    exact .inl rfl

/-- Steps that send nothing and receive nothing keep the invariant: time may
pass, requests stamped now may join the mail, messages may leave it. -/
theorem StampOrder.frame {e : Event} (h : StampOrder tr s) (hsent : ∀ i d, e.sentMsg i d = none)
    (hclock : s.clock ≤ s'.clock)
    (hup : ∀ i, (s'.chan (.up, i)).Sublist (s.chan (.up, i)) ∨
      ∃ m : Msg, m.time = s.clock ∧ s'.chan (.up, i) = s.chan (.up, i) ++ [m])
    (hmail : ∀ i d, s'.chan (.nt i, d) <:+ s.chan (.nt i, d))
    (hstamps : ∀ d, (s'.nt d).queues.stamps = (s.nt d).queues.stamps)
    (hcurrent : ∀ i, (s'.nt i).current = (s.nt i).current)
    (hsending : ∀ i, (s'.nt i).sending ≠ [] → (s.nt i).sending ≠ []) :
    StampOrder (tr ++ [e]) s' := by
  have hsame : ∀ i d, sentTo i d (tr ++ [e]) = sentTo i d tr := by
    intro i d
    rw [sentTo_snoc, hsent]
    exact List.append_nil _
  have hnew : ∀ i, ∀ m ∈ s'.chan (.up, i), m ∈ s.chan (.up, i) ∨ m.time = s.clock := by
    intro i m hm
    rcases hup i with hsub | ⟨x, hx, heq⟩
    · exact .inl (hsub.subset hm)
    · rw [heq, List.mem_append, List.mem_singleton] at hm
      rcases hm with hm | rfl
      · exact .inl hm
      · exact .inr hx
  have hpast : ∀ {i t}, Past s i t → Past s' i t := fun hp =>
    hp.mono hclock fun m hm => (hnew _ m hm).imp_right fun heq => heq.ge
  have hle : ∀ {t : ℤ}, t ≤ s.clock → t ≤ s'.clock := fun ht =>
    ht.trans (by exact_mod_cast hclock)
  constructor
  case up =>
    intro i
    refine ⟨?_, ?_⟩
    · rcases hup i with hsub | ⟨x, hx, heq⟩
      · exact (h.up i).1.sublist hsub
      · rw [heq, List.pairwise_append]
        refine ⟨(h.up i).1, List.pairwise_singleton .., ?_⟩
        intro a ha b hb
        rw [List.mem_singleton.mp hb, hx]
        exact (h.up i).2 a ha
    · intro m hm
      rcases hnew i m hm with hm | hm
      · exact hle ((h.up i).2 m hm)
      · exact hle hm.le
  case sent =>
    intro i d
    rw [hsame]
    exact h.sent i d
  case sentPast =>
    intro i d x hx
    rw [hsame] at hx
    exact hpast (h.sentPast i d x hx)
  case current =>
    intro i hne hID
    rw [hcurrent] at hID ⊢
    obtain ⟨hp, hall⟩ := h.current i (hsending i hne) hID
    exact ⟨hpast hp, fun d x hx => hall d x (hsame i d ▸ hx)⟩
  case mail =>
    intro i d
    rw [hsame]
    exact (hmail i d).trans (h.mail i d)
  case table =>
    intro d st hst
    rw [hstamps] at hst
    exact ⟨hle (h.table d st hst).1, fun x hx => (h.table d st hst).2 x ((hmail _ _).subset hx)⟩
  case tableOwn =>
    intro d st hst hown
    rw [hstamps] at hst
    exact hpast (h.tableOwn d st hst hown)
  case tableOther =>
    intro d st hst hother
    rw [hstamps] at hst
    rw [hsame]
    exact h.tableOther d st hst hother

/-! ## Sending -/

/-- What leaves is no earlier than what left before, and no later than what
waits. -/
theorem StampOrder.outgoing (h : StampOrder tr s) {i d : ℤ} {ds : List ℤ}
    (hs : (s.nt i).sending = d :: ds)
    (hok : (s.nt i).current.ID ≠ i →
      ∀ m ∈ s.chan (.up, i), m.ID = i → (s.clock : ℤ) ≤ m.time) :
    Past s i (s.outgoing i).time ∧
      ∀ e, ∀ x ∈ sentTo i e tr, x.time ≤ (s.outgoing i).time := by
  unfold Net.outgoing
  split
  · -- an answer has the time of the clock
    rename_i hforeign
    exact ⟨⟨le_refl _, hok hforeign⟩, fun e x hx => (h.sentPast i e x hx).clock⟩
  · rename_i hown
    rw [not_not] at hown
    exact h.current i (by rw [hs]; exact List.cons_ne_nil d ds) hown

section Send

variable {i d : ℤ} {ds : List ℤ}

theorem mem_sentTo_sent {j e : ℤ} {m x : Msg} (hx : x ∈ sentTo j e (tr ++ [.sent i d m])) :
    x ∈ sentTo j e tr ∨ (j = i ∧ e = d ∧ x = m) := by
  rw [sentTo_snoc] at hx
  rcases List.mem_append.mp hx with hx | hx
  · exact .inl hx
  · simp only [Event.sentMsg] at hx
    split at hx
    · rename_i heq
      exact .inr ⟨heq.1.symm, heq.2.symm, by simpa using hx⟩
    · cases hx

/-- The message sent is the last in the mail. -/
theorem suffix_sentTo_sent {j e : ℤ} (h : s.chan (.nt j, e) <:+ sentTo j e tr) (m : Msg) :
    (s.push (.nt i, d) m).chan (.nt j, e) <:+ sentTo j e (tr ++ [.sent i d m]) := by
  rw [Net.push_chan_apply, sentTo_snoc]
  split
  · rename_i hq
    obtain ⟨rfl, rfl⟩ : j = i ∧ e = d := by simpa using hq
    obtain ⟨l, hl⟩ := h
    refine ⟨l, ?_⟩
    rw [← List.append_assoc]
    simp only [Event.sentMsg, and_self, if_true, Option.toList_some]
    rw [← hl]
  · rename_i hq
    have hnone : (Event.sent i d m).sentMsg j e = none := by
      refine if_neg ?_
      rintro ⟨rfl, rfl⟩
      exact hq rfl
    rw [hnone, Option.toList_none, List.append_nil]
    exact h

/-- The entry that the receiver has of the sender is no later than what is sent: an
answer is stamped now, and a request follows all that was sent before. -/
theorem StampOrder.table_outgoing (h : StampOrder tr s) (hshape : Shape reg s)
    (hs : (s.nt i).sending = d :: ds) (hto : ¬ ((s.nt i).current.ID = i ∧ d = i))
    (hlate : ∀ e, ∀ x ∈ sentTo i e tr, x.time ≤ (s.outgoing i).time) :
    ∀ st ∈ (s.nt d).queues.stamps, st.ntID = i → st.time ≤ (s.outgoing i).time := by
  rintro st hst rfl
  by_cases hd : st.ntID = d
  · have hforeign : (s.nt st.ntID).current.ID ≠ st.ntID := fun hown => hto ⟨hown, hd.symm⟩
    rw [Net.outgoing, if_pos hforeign]
    exact (h.table d st hst).1
  · rcases h.tableOther d st hst hd with hneg | ⟨y, hy, heq⟩
    · have h0 := (hshape.outgoing hs hto).2.1
      omega
    · rw [heq]
      exact hlate d y hy

theorem StampOrder.send (h : StampOrder tr s) (hshape : Shape reg s)
    (hs : (s.nt i).sending = d :: ds) (hto : ¬ ((s.nt i).current.ID = i ∧ d = i))
    (hok : (s.nt i).current.ID ≠ i →
      ∀ m ∈ s.chan (.up, i), m.ID = i → (s.clock : ℤ) ≤ m.time) :
    StampOrder (tr ++ [.sent i d (s.outgoing i)])
      ((s.setSending i ds).push (.nt i, d) (s.outgoing i)) := by
  obtain ⟨hpast, hlate⟩ := h.outgoing hs hok
  have hup : ∀ j, ((s.setSending i ds).push (.nt i, d) (s.outgoing i)).chan (.up, j) =
      s.chan (.up, j) := by
    intro j
    rw [Net.push_chan_apply, if_neg (by simp)]
    rfl
  have hkeep : ∀ {j t}, Past s j t →
      Past ((s.setSending i ds).push (.nt i, d) (s.outgoing i)) j t := fun hp =>
    hp.mono (le_refl _) fun m hm => .inl (hup _ ▸ hm)
  have hstamps : ∀ j, ((((s.setSending i ds).push (.nt i, d) (s.outgoing i))).nt j).queues =
      (s.nt j).queues := fun j => by simp
  constructor
  case up =>
    intro j
    rw [hup]
    exact h.up j
  case sent =>
    intro j e
    rw [sentTo_snoc, List.pairwise_append]
    refine ⟨h.sent j e, ?_, ?_⟩
    · cases (Event.sent i d (s.outgoing i)).sentMsg j e with
      | none => exact .nil
      | some x => exact List.pairwise_singleton ..
    · intro a ha b hb
      simp only [Event.sentMsg] at hb
      split at hb
      · rename_i heq
        obtain rfl : b = s.outgoing i := by simpa using hb
        exact hlate e a (heq.1 ▸ ha)
      · cases hb
  case sentPast =>
    intro j e x hx
    rcases mem_sentTo_sent hx with hx | ⟨rfl, rfl, rfl⟩
    · exact hkeep (h.sentPast j e x hx)
    · exact hkeep hpast
  case current =>
    intro j hne hID
    have hne' : (s.nt j).sending ≠ [] := by
      by_cases hj : j = i
      · rw [hj, hs]
        exact List.cons_ne_nil d ds
      · rwa [Net.push_nt, Net.setSending_nt_of_ne _ _ _ hj] at hne
    rw [Net.push_nt, Net.setSending_current] at hID ⊢
    obtain ⟨hp, hall⟩ := h.current j hne' hID
    refine ⟨hkeep hp, ?_⟩
    intro e x hx
    rcases mem_sentTo_sent hx with hx | ⟨rfl, rfl, rfl⟩
    · exact hall e x hx
    · exact le_of_eq (congrArg Msg.time (if_neg (not_not.mpr hID)))
  case mail =>
    intro j e
    exact suffix_sentTo_sent (h.mail j e) _
  case table =>
    intro j st hst
    rw [hstamps] at hst
    refine ⟨(h.table j st hst).1, ?_⟩
    intro x hx
    rcases mem_chan_push hx with hx | ⟨hq, rfl⟩
    · exact (h.table j st hst).2 x hx
    · obtain ⟨hID, rfl⟩ : st.ntID = i ∧ j = d := by simpa using hq
      exact h.table_outgoing hshape hs hto hlate st hst hID
  case tableOwn =>
    intro j st hst hown
    rw [hstamps] at hst
    exact hkeep (h.tableOwn j st hst hown)
  case tableOther =>
    intro j st hst hother
    rw [hstamps] at hst
    refine (h.tableOther j st hst hother).imp_right ?_
    rintro ⟨x, hx, heq⟩
    refine ⟨x, ?_, heq⟩
    rw [sentTo_snoc]
    exact List.mem_append_left _ hx

end Send

/-! ## Receiving -/

section Receive

variable {d : ℤ} {snd : Sender} {m : Msg} {ms : List Msg}

/-- The entry that a message updates is no later than the message. -/
theorem StampOrder.entry_le (h : StampOrder tr s) (hshape : Shape reg s)
    (hchan : s.chan (snd, d) = m :: ms) :
    ∀ st ∈ (s.nt d).queues.stamps, st.ntID = m.ID → st.time ≤ m.time := by
  intro st hst hID
  have hmem : m ∈ s.chan (snd, d) := hchan ▸ List.mem_cons_self
  have hreg : st.ntID ∈ reg.idList := by
    rw [← (hshape.nt d).stampIds]
    exact List.mem_map_of_mem hst
  cases snd with
  | up =>
      have hown := hshape.fromUp_own hmem (hID ▸ hreg)
      exact (h.tableOwn d st hst (hID.trans hown)).waiting m hmem hown
  | nt k =>
      obtain ⟨_, rfl, _⟩ := hshape.fromNt k d m hmem
      exact (h.table d st hst).2 m (hID ▸ hmem)

/-- The received message is no later than what is still on its way under its id. -/
theorem StampOrder.head_le (h : StampOrder tr s) (hshape : Shape reg s)
    (hchan : s.chan (snd, d) = m :: ms) (hm : m.ID ∈ reg.idList)
    (hok : snd = .up → m.ID = d → ∀ x ∈ s.chan (.nt d, d), m.time ≤ x.time) :
    m.time ≤ s.clock ∧ (∀ x ∈ Function.update s.chan (snd, d) ms (.nt m.ID, d), m.time ≤ x.time) ∧
      (m.ID = d → Past (s.receive d snd m ms) d m.time) ∧
      (m.ID ≠ d → m ∈ sentTo m.ID d tr) := by
  have hmem : m ∈ s.chan (snd, d) := hchan ▸ List.mem_cons_self
  cases snd with
  | up =>
      have hown := hshape.fromUp_own hmem hm
      have hclock := (h.up d).2 m hmem
      refine ⟨hclock, ?_, fun _ => ⟨hclock, ?_⟩, fun hne => absurd hown hne⟩
      · intro x hx
        rw [Function.update_of_ne (by simp), hown] at hx
        exact hok rfl hown x hx
      · intro x hx _
        rw [Net.receive_chan, Function.update_self] at hx
        have hpair := (h.up d).1
        rw [hchan, List.pairwise_cons] at hpair
        exact hpair.1 x hx
  | nt k =>
      obtain ⟨_, rfl, _⟩ := hshape.fromNt k d m hmem
      have hsent : m ∈ sentTo m.ID d tr := (h.mail m.ID d).subset hmem
      have hpast := h.sentPast m.ID d m hsent
      refine ⟨hpast.clock, ?_, ?_, fun _ => hsent⟩
      · intro x hx
        rw [Function.update_self] at hx
        have hpair := (h.sent m.ID d).sublist (h.mail m.ID d).sublist
        rw [hchan, List.pairwise_cons] at hpair
        exact hpair.1 x hx
      · intro hown
        rw [hown] at hpast
        exact hpast.mono (le_refl _) fun x hx => .inl (mem_chan_pop hchan hx)

theorem StampOrder.receive (h : StampOrder tr s) (hshape : Shape reg s) (hd : d ∈ reg.idList)
    (hchan : s.chan (snd, d) = m :: ms)
    (hok : snd = .up → m.ID = d → ∀ x ∈ s.chan (.nt d, d), m.time ≤ x.time) :
    StampOrder (tr ++ [.received d snd m]) (s.receive d snd m ms) := by
  have hsame : ∀ i e, sentTo i e (tr ++ [.received d snd m]) = sentTo i e tr := by
    intro i e
    rw [sentTo_snoc]
    exact List.append_nil _
  have hkeep : ∀ {j t}, Past s j t → Past (s.receive d snd m ms) j t := fun hp =>
    hp.mono (le_refl _) fun x hx => .inl (mem_chan_pop hchan hx)
  have hpop : ∀ q, (s.receive d snd m ms).chan q <:+ s.chan q := chan_pop_suffix hchan
  constructor
  case up =>
    intro i
    exact ⟨(h.up i).1.sublist (hpop _).sublist, fun x hx => (h.up i).2 x ((hpop _).subset hx)⟩
  case sent =>
    intro i e
    rw [hsame]
    exact h.sent i e
  case sentPast =>
    intro i e x hx
    rw [hsame] at hx
    exact hkeep (h.sentPast i e x hx)
  case current =>
    intro i hne hID
    by_cases hi : i = d
    · subst hi
      rw [Net.receive_nt_self] at hne hID ⊢
      change m.ID = i at hID
      have hhead := h.head_le hshape hchan (hID ▸ hd) hok
      refine ⟨hhead.2.2.1 hID, ?_⟩
      intro e x hx
      rw [hsame] at hx
      have hmem : m ∈ s.chan (snd, i) := hchan ▸ List.mem_cons_self
      cases snd with
      | up => exact (h.sentPast i e x hx).waiting m hmem hID
      | nt k =>
          -- a request never comes from oneself
          obtain ⟨_, rfl, _, hto⟩ := hshape.fromNt k i m hmem
          have hop : m.op.isSome := by
            by_contra hop
            exact hne (if_neg hop)
          exact absurd hID.symm (hto hop)
    · rw [Net.receive_nt_of_ne _ _ _ _ _ hi] at hne hID ⊢
      obtain ⟨hp, hall⟩ := h.current i hne hID
      exact ⟨hkeep hp, fun e x hx => hall e x (hsame i e ▸ hx)⟩
  case mail =>
    intro i e
    rw [hsame]
    exact (hpop _).trans (h.mail i e)
  case table =>
    intro j st hst
    rcases hshape.mem_receive_stamps hst with ⟨rfl, hm, h1, h2⟩ | hst
    · have hhead := h.head_le hshape hchan hm hok
      rw [h2, h1]
      exact ⟨hhead.1, hhead.2.1⟩
    · exact ⟨(h.table j st hst).1, fun x hx => (h.table j st hst).2 x ((hpop _).subset hx)⟩
  case tableOwn =>
    intro j st hst hown
    rcases hshape.mem_receive_stamps hst with ⟨rfl, hm, h1, h2⟩ | hst
    · rw [h2]
      exact (h.head_le hshape hchan hm hok).2.2.1 (h1 ▸ hown)
    · exact hkeep (h.tableOwn j st hst hown)
  case tableOther =>
    intro j st hst hother
    rw [hsame]
    rcases hshape.mem_receive_stamps hst with ⟨rfl, hm, h1, h2⟩ | hst
    · refine .inr ⟨m, ?_, h2⟩
      rw [h1]
      exact (h.head_le hshape hchan hm hok).2.2.2 (h1 ▸ hother)
    · exact h.tableOther j st hst hother

end Receive

/-! ## Runs -/

theorem StampOrder.step {l : Label} {e : Event} (h : StampOrder tr s) (hshape : Shape reg s)
    (hok : StampedInOrder tr s l) (hs : Network.step reg s l = some (s', e)) :
    StampOrder (tr ++ [e]) s' := by
  cases Step.of_step hs with
  | tick d =>
      exact h.frame (fun _ _ => rfl) (Nat.le_add_right ..) (fun _ => .inl (.refl _))
        (fun _ _ => List.suffix_rfl) (fun _ => rfl) (fun _ => rfl) (fun _ h => h)
  | answer _ _ _ =>
      exact h.frame (fun _ _ => rfl) (le_refl _) (fun _ => .inl (.refl _))
        (fun _ _ => List.suffix_rfl) (fun _ => rfl) (fun _ => rfl) (fun _ h => h)
  | @issue nt op _ _ _ =>
      refine h.frame (fun _ _ => rfl) (le_refl _) (fun i => ?_) (fun i d => ?_)
        (fun _ => rfl) (fun _ => rfl) (fun _ h => h)
      · rw [Net.issue_chan, Net.push_chan_apply]
        split
        · exact .inr ⟨_, rfl, rfl⟩
        · exact .inl (.refl _)
      · exact Net.issue_chan_nt s i nt op d ▸ List.suffix_rfl
  | @steal nt snd m ms _ _ hchan =>
      have hpop := chan_pop_suffix hchan
      exact h.frame (fun _ _ => rfl) (le_refl _) (fun _ => .inl (hpop _).sublist)
        (fun _ _ => hpop _) (fun _ => rfl) (fun _ => rfl) (fun _ h => h)
  | @skip nt ds _ _ hsending =>
      refine h.frame (fun _ _ => rfl) (le_refl _) (fun _ => .inl (.refl _))
        (fun _ _ => List.suffix_rfl) (fun _ => by simp) (fun _ => by simp) (fun i hne => ?_)
      by_cases hi : i = nt.self
      · rw [hi, hsending]
        exact List.cons_ne_nil _ _
      · rwa [Net.setSending_nt_of_ne _ _ _ hi] at hne
  | dispatch _ _ _ _ =>
      exact h.frame (fun _ _ => rfl) (le_refl _) (fun _ => .inl (.refl _))
        (fun _ _ => List.suffix_rfl) (fun _ => by simp) (fun _ => by simp) (fun _ => by simp)
  | send _ hto hsending => exact h.send hshape hsending hto hok
  | @receive nt snd m ms hreg _ _ hchan =>
      refine h.receive hshape hreg hchan ?_
      rintro rfl hID
      exact hok m (by rw [hchan]; rfl) hID

theorem StampOrder.of_run {clock : ℕ}
    (h : Run (Network.step reg) StampedInOrder (.initial reg clock) tr s) : StampOrder tr s :=
  h.invariant_with (J := fun _ s => Shape reg s) (I := fun tr s => StampOrder tr s)
    Shape.of_run (.initial clock) fun hshape h hok hs => h.step hshape hok hs

/-- Only a receive touches a table. -/
theorem StampOrder.tableGrows {l : Label} {e : Event} (h : StampOrder tr s)
    (hshape : Shape reg s) (hs : Network.step reg s l = some (s', e)) (j : ℤ) :
    TableGrows (s.nt j).queues.stamps (s'.nt j).queues.stamps := by
  cases Step.of_step hs with
  | @receive nt snd m ms hreg _ _ hchan =>
      by_cases hj : j = nt.self
      · subst hj
        rw [Net.receive_nt_self]
        refine .updateStamp ?_
        exact h.entry_le hshape hchan
      · rw [Net.receive_nt_of_ne _ _ _ _ _ hj]
        exact .refl _
  | tick d => exact .refl _
  | issue _ _ _ => exact .refl _
  | answer _ _ _ => exact .refl _
  | steal _ _ _ => exact .refl _
  | skip _ _ _ =>
      rw [Net.setSending_queues]
      exact .refl _
  | send _ _ _ =>
      rw [Net.push_nt, Net.setSending_queues]
      exact .refl _
  | dispatch _ _ _ _ =>
      rw [Net.post_nt, Net.dispatched_stamps]
      exact .refl _

/-- **Timestamps never go backwards** in runs where answers and requests are
stamped and taken in order. -/
theorem stamps_grow {clock : ℕ}
    (h : Run (Network.step reg) StampedInOrder (.initial reg clock) tr s) :
    StampsGrow reg StampedInOrder tr s where
  sent i _ j _ _ := (StampOrder.of_run h).sent i j
  table l s' e _ hs j := (StampOrder.of_run h).tableGrows (Shape.of_run h) hs j
  smallest l s' e _ hs j hj := by
    have hshape := Shape.of_run h
    refine ((StampOrder.of_run h).tableGrows hshape hs j).smallestTS_le ?_
    intro hnil
    have hids := (hshape.nt j).stampIds
    rw [hnil] at hids
    rw [← hids] at hj
    cases hj

end Invariant

/-! ## An answer overtakes a request -/

/-- Thread 101 answers a request of 201 at 3 while a request that its own user
program stamped at 2 waits in its mailbox. -/
def overtakingAnswer : List Label :=
  [.tick 1, .issue nt201 (.createLock ['A']), .receive nt201 .up,
    .send nt201, .send nt201, .send nt201,
    .tick 1, .issue nt101 (.createLock ['B']), .receive nt101 (.nt 201),
    .tick 1, .send nt101, .send nt101, .send nt101,
    .receive nt101 .up, .send nt101, .send nt101]

theorem stamps_go_back :
    ¬ ∀ reg clock tr s, Run (step reg) anyStep (.initial reg clock) tr s →
      StampsGrow reg anyStep tr s := by
  intro h
  have hexec : (exec (step threeMachines) anyStep [] (.initial threeMachines 0)
      overtakingAnswer).map (fun p => sentTo 101 201 p.1) =
      some [⟨3, 101, none⟩, ⟨2, 101, some (.createLock ['B'])⟩] := by
    decide +kernel
  obtain ⟨⟨tr, s⟩, hp, heq⟩ := Option.map_eq_some_iff.mp hexec
  have hpair := (h _ _ _ _ (Run.of_exec .start hp)).sent 101 (by decide) 201 (by decide) (by decide)
  rw [show sentTo 101 201 tr = _ from heq] at hpair
  revert hpair
  decide

/-- Thread 101 answers first, takes its answer to itself, and then the request. -/
def answerThenRequest : List Label :=
  [.tick 1, .issue nt201 (.createLock ['A']), .receive nt201 .up,
    .send nt201, .send nt201, .send nt201,
    .receive nt101 (.nt 201), .tick 1, .send nt101, .send nt101, .send nt101,
    .tick 1, .issue nt101 (.createLock ['B']), .receive nt101 (.nt 101),
    .receive nt101 .up, .send nt101, .send nt101]

theorem stamps_grow_run :
    ∃ tr s, Run (step threeMachines) StampedInOrder (.initial threeMachines 0) tr s ∧
      sentTo 101 201 tr = [⟨2, 101, none⟩, ⟨3, 101, some (.createLock ['B'])⟩] ∧
      StampsGrow threeMachines StampedInOrder tr s := by
  have hexec : (exec (step threeMachines) StampedInOrder [] (.initial threeMachines 0)
      answerThenRequest).map (fun p => sentTo 101 201 p.1) =
      some [⟨2, 101, none⟩, ⟨3, 101, some (.createLock ['B'])⟩] := by
    decide +kernel
  obtain ⟨⟨tr, s⟩, hp, heq⟩ := Option.map_eq_some_iff.mp hexec
  have hrun := Run.of_exec .start hp
  exact ⟨tr, s, hrun, heq, stamps_grow hrun⟩

end Nachos.Network
