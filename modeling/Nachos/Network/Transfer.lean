import Nachos.Lib.CInt
import Nachos.Network.Queues
import Nachos.Threads.LinkedList

/-!
# The transfer of ready messages in memory

The loop of `network_thread` from `QueuedMessages` to `ProcessableMSG`, on the lists as
they are in memory. `temp4` walks over the elements of the queue, while `Remove` always
takes the first one: that it is the one just copied is due to the order of the queue.

The sort key `time*10+ntID` is an `int`.
-/

namespace Nachos.Network

open Nachos.Lib Nachos.Threads

variable {β : Type}

/-- The sort key, as it is computed. Irreducible, so that no unification computes it. -/
@[irreducible] def MessageEntry.intKey (e : MessageEntry β) : ℤ := signed (word (e.time * 10 + e.ntID))

/-- The loop, in at most `n` rounds. `new` is the allocator. -/
def transferRounds (new : ℕ → Heap (MessageEntry β) → ℕ) (smallestTS : ℤ) :
    (n : ℕ) → (temp4 : Option ℕ) → Heap (MessageEntry β) → (queued processable : LinkedList) →
      Option (Heap (MessageEntry β) × LinkedList × LinkedList)
  | _, none, h, queued, processable => some (h, queued, processable)
  | 0, some _, _, _, _ => none
  | n + 1, some a, h, queued, processable => do
      let temp4 ← h.cell a
      if temp4.item.time ≤ smallestTS then
        let (h, processable) ←
          processable.sortedInsert h (new n h) temp4.item temp4.item.intKey
        let temp4 ← h.cell a
        let ((h, queued), _) ← queued.remove h
        transferRounds new smallestTS n temp4.next h queued processable
      else transferRounds new smallestTS n temp4.next h queued processable

/-- The whole loop, with as many rounds as there can be elements in memory. -/
def transfer (new : ℕ → Heap (MessageEntry β) → ℕ) (smallestTS : ℤ)
    (h : Heap (MessageEntry β)) (queued processable : LinkedList) :
    Option (Heap (MessageEntry β) × LinkedList × LinkedList) :=
  transferRounds new smallestTS h.bound queued.first h queued processable

/-- The time of the message in an element. -/
def timeOf (x : ℕ × Entry (MessageEntry β)) : ℤ := x.2.item.time

/-- The element that a message gets in `ProcessableMSG`. -/
def ready (x : ℕ × Entry (MessageEntry β)) : Entry (MessageEntry β) :=
  ⟨x.2.item, x.2.item.intKey⟩

/-- What has no hit is walked over. -/
theorem transferRounds_none {new : ℕ → Heap (MessageEntry β) → ℕ} {smallestTS : ℤ} {n : ℕ}
    {h : Heap (MessageEntry β)} {temp4 : Option ℕ} {xs : Contents (MessageEntry β)}
    (hc : h.Chain temp4 xs) (hlate : ∀ x ∈ xs, smallestTS < timeOf x) (hn : xs.length ≤ n)
    (queued processable : LinkedList) :
    transferRounds new smallestTS n temp4 h queued processable =
      some (h, queued, processable) := by
  induction xs generalizing n temp4 with
  | nil =>
      obtain rfl : temp4 = none := hc
      rw [transferRounds]
  | cons x xs ih =>
      obtain ⟨rfl, next, hcell, hrest⟩ := hc
      obtain ⟨n, rfl⟩ := Nat.exists_eq_succ_of_ne_zero (Nat.ne_of_gt (Nat.zero_lt_of_lt hn))
      have hnot : ¬ x.2.item.time ≤ smallestTS := not_le.mpr (hlate x List.mem_cons_self)
      rw [transferRounds]
      simp only [Option.bind_eq_bind, hcell, Option.bind_some, if_neg hnot]
      exact ih hrest (fun y hy => hlate y (List.mem_cons_of_mem _ hy)) (Nat.le_of_succ_le_succ hn)

/-- The pointer to a chain is the address of its first element. -/
theorem chain_start {α : Type} {h : Heap α} {p : Option ℕ} {xs : Contents α}
    (hc : h.Chain p xs) : p = xs.head?.map Prod.fst := by
  cases xs with
  | nil => exact hc
  | cons x xs => exact hc.1

/-- The two lists in one memory. -/
structure TwoLists (h : Heap (MessageEntry β)) (queued processable : LinkedList)
    (qs ps : Contents (MessageEntry β)) : Prop where
  queued : Represents h queued qs
  processable : Represents h processable ps
  disjoint : ∀ a ∈ qs.addresses, a ∉ ps.addresses

/-- **A hit** is copied to `ProcessableMSG`, and the element that `Remove` takes is the one
copied. -/
theorem transfer_hit {h : Heap (MessageEntry β)} {queued processable : LinkedList}
    {x : ℕ × Entry (MessageEntry β)} {qs ps : Contents (MessageEntry β)}
    (hlists : TwoLists h queued processable (x :: qs) ps) {b : ℕ} (hb : h.cell b = none) :
    ∃ h₁ p₁ h₂ q₂ next, processable.sortedInsert h b x.2.item x.2.item.intKey = some (h₁, p₁) ∧
      h₁.cell x.1 = some ⟨x.2.item, x.2.key, next⟩ ∧
      queued.remove h₁ = some ((h₂, q₂), some x.2.item) ∧ q₂.first = next ∧
      TwoLists h₂ q₂ p₁ qs (ps.insert b (ready x)) := by
  obtain ⟨a, e⟩ := x
  have ha : a ∉ ps.addresses := hlists.disjoint a List.mem_cons_self
  have hnot := LinkedList.free_not_mem hlists.queued hb
  obtain ⟨h₁, p₁, hinsert, hp, -, hsame⟩ :=
    LinkedList.sortedInsert_spec hlists.processable hb ⟨e.item, e.item.intKey⟩
  -- the queue is where it was
  have hchain : h₁.Chain queued.first ((a, e) :: qs) := by
    refine hlists.queued.chain.congr fun c hc => hsame c ?_ (hlists.disjoint c hc)
    rintro rfl
    exact hnot hc
  obtain ⟨-, next, hcell, hnext⟩ := id hchain
  have hq : Represents h₁ { queued with size := queued.size - 1 } ((a, e) :: qs) :=
    ⟨hchain, hlists.queued.last, hlists.queued.nodup⟩
  obtain ⟨h₂, q₂, hremove, hq', -, -, hsame'⟩ := LinkedList.sortedRemove_cons hq rfl
  obtain ⟨hfirst, -⟩ := List.nodup_cons.1 hlists.queued.nodup
  refine ⟨h₁, p₁, h₂, q₂, next, hinsert, hcell, ?_, ?_, hq', ?_, ?_⟩
  · rw [LinkedList.remove, hremove]
    rfl
  · rw [chain_start hq'.chain, chain_start hnext]
  · -- the removal does not reach the other list
    refine ⟨hp.chain.congr fun c hc => hsame' c ?_, hp.last, hp.nodup⟩
    rintro rfl
    rcases Contents.mem_insert.1 hc with rfl | hc
    · exact hnot List.mem_cons_self
    · exact ha hc
  · intro c hc hmem
    rcases Contents.mem_insert.1 hmem with rfl | hmem
    · exact hnot (List.mem_cons_of_mem _ hc)
    · exact hlists.disjoint c (List.mem_cons_of_mem _ hc) hmem

/-- **The loop** leaves the late messages as they were and inserts the others one by one. -/
theorem transferRounds_spec {new : ℕ → Heap (MessageEntry β) → ℕ}
    (hnew : ∀ n (h : Heap (MessageEntry β)), h.cell (new n h) = none) {smallestTS : ℤ} {n : ℕ}
    {h : Heap (MessageEntry β)} {queued processable : LinkedList}
    {qs ps : Contents (MessageEntry β)} (hlists : TwoLists h queued processable qs ps)
    (hsorted : qs.Pairwise fun x y => timeOf x ≤ timeOf y) (hn : qs.length ≤ n) :
    ∃ h' queued' processable' ps',
      transferRounds new smallestTS n queued.first h queued processable =
        some (h', queued', processable') ∧
      TwoLists h' queued' processable' (qs.filter fun x => smallestTS < timeOf x) ps' ∧
      ps'.map Prod.snd = insertAll Entry.key
        ((qs.filter fun x => timeOf x ≤ smallestTS).map ready) (ps.map Prod.snd) := by
  induction qs generalizing n h queued processable ps with
  | nil =>
      refine ⟨h, queued, processable, ps, ?_, hlists, rfl⟩
      have hfirst : queued.first = none := hlists.queued.chain
      rw [hfirst]
      cases n <;> rw [transferRounds]
  | cons x qs ih =>
      obtain ⟨hx, hrest⟩ := List.pairwise_cons.1 hsorted
      by_cases hle : timeOf x ≤ smallestTS
      · obtain ⟨n, rfl⟩ := Nat.exists_eq_succ_of_ne_zero (Nat.ne_of_gt (Nat.zero_lt_of_lt hn))
        obtain ⟨h₁, p₁, h₂, q₂, next, hinsert, hcell₁, hremove, hfirst, hlists'⟩ :=
          transfer_hit hlists (hnew n h)
        obtain ⟨h', queued', processable', ps', hrounds, hlists'', hps⟩ :=
          ih hlists' hrest (Nat.le_of_succ_le_succ hn)
        have hhead : queued.first = some x.1 := hlists.queued.chain.1
        obtain ⟨-, next', hcell, -⟩ := id hlists.queued.chain
        refine ⟨h', queued', processable', ps', ?_, ?_, ?_⟩
        · rw [hhead, transferRounds]
          simp only [Option.bind_eq_bind, hcell, Option.bind_some]
          have htime : x.2.item.time ≤ smallestTS := hle
          rw [if_pos htime, hinsert]
          simp only [Option.bind_some, hcell₁, hremove]
          rw [← hfirst]
          exact hrounds
        · rw [List.filter_cons_of_neg (by simpa using hle)]
          exact hlists''
        · rw [List.filter_cons_of_pos (by simpa using hle), List.map_cons, insertAll_cons, hps]
          exact congrArg _ (map_sortedInsert (fun _ => rfl) _ _)
      · -- the queue is sorted, and so everything is late
        have hlate : ∀ y ∈ x :: qs, smallestTS < timeOf y := by
          intro y hy
          rcases List.mem_cons.1 hy with rfl | hy
          · exact not_le.1 hle
          · exact lt_of_lt_of_le (not_le.1 hle) (hx y hy)
        refine ⟨h, queued, processable, ps,
          transferRounds_none hlists.queued.chain hlate hn _ _, ?_, ?_⟩
        · rw [List.filter_eq_self.2 (by simpa using hlate)]
          exact hlists
        · rw [List.filter_eq_nil_iff.2 (by simpa using hlate)]
          rfl

/-- The elements that the ready messages of a queue get in `ProcessableMSG`. -/
def hits (smallestTS : ℤ) (qs : Contents (MessageEntry β)) : List (Entry (MessageEntry β)) :=
  (qs.filter fun x => timeOf x ≤ smallestTS).map ready

/-- What the loop makes of `ProcessableMSG`: the elements of before and the hits, each once,
and sorted and stable if it was sorted. -/
structure Merged (before new after : List (Entry (MessageEntry β))) : Prop where
  perm : after.Perm (new ++ before)
  sorted : (before.Pairwise fun x y => x.key ≤ y.key) → after.Pairwise fun x y => x.key ≤ y.key
  stable : (before.Pairwise fun x y => x.key ≤ y.key) → ∀ k : ℤ,
    (after.filter fun x => x.key = k) =
      (before.filter fun x => x.key = k) ++ new.filter fun x => x.key = k

theorem merged_insertAll (before new : List (Entry (MessageEntry β))) :
    Merged before new (insertAll Entry.key new before) where
  perm := perm_insertAll new before
  sorted := sorted_insertAll
  stable := filter_insertAll

/-- **The transfer of ready messages.** From a queue sorted by time stamps, the loop comes to
an end with exactly the messages up to `smallestTS` moved, and with exactly the others left in
the queue, in their order. -/
theorem transfer_spec {new : ℕ → Heap (MessageEntry β) → ℕ}
    (hnew : ∀ n (h : Heap (MessageEntry β)), h.cell (new n h) = none) (smallestTS : ℤ)
    {h : Heap (MessageEntry β)} {queued processable : LinkedList}
    {qs ps : Contents (MessageEntry β)} (hlists : TwoLists h queued processable qs ps)
    (hsorted : qs.Pairwise fun x y => timeOf x ≤ timeOf y) :
    ∃ h' queued' processable' ps',
      transfer new smallestTS h queued processable = some (h', queued', processable') ∧
      TwoLists h' queued' processable' (qs.filter fun x => smallestTS < timeOf x) ps' ∧
      Merged (ps.map Prod.snd) (hits smallestTS qs) (ps'.map Prod.snd) := by
  obtain ⟨h', queued', processable', ps', htransfer, hlists', hps⟩ :=
    transferRounds_spec hnew hlists hsorted
      (hlists.queued.chain.length_le hlists.queued.nodup)
  refine ⟨h', queued', processable', ps', htransfer, hlists', ?_⟩
  rw [hps]
  exact merged_insertAll ..

/-- Of the four messages that are queued, three are ready. -/
def queuedSample : Contents (MessageEntry ℕ) :=
  [(0, ⟨⟨201, 5, 1⟩, 5⟩), (1, ⟨⟨101, 15, 2⟩, 15⟩), (2, ⟨⟨102, 15, 3⟩, 15⟩), (3, ⟨⟨101, 16, 4⟩, 16⟩)]

def processableSample : Contents (MessageEntry ℕ) :=
  [(4, ⟨⟨151, 10, 5⟩, 251⟩), (5, ⟨⟨101, 20, 6⟩, 301⟩)]

def memorySample : Heap (MessageEntry ℕ) :=
  (((((Heap.empty.set 0 ⟨⟨201, 5, 1⟩, 5, some 1⟩).set 1 ⟨⟨101, 15, 2⟩, 15, some 2⟩).set 2
    ⟨⟨102, 15, 3⟩, 15, some 3⟩).set 3 ⟨⟨101, 16, 4⟩, 16, none⟩).set 4
      ⟨⟨151, 10, 5⟩, 251, some 5⟩).set 5 ⟨⟨101, 20, 6⟩, 301, none⟩

theorem twoLists_sample : TwoLists memorySample ⟨some 0, some 3, 4⟩ ⟨some 4, some 5, 2⟩
    queuedSample processableSample where
  queued := ⟨⟨rfl, some 1, rfl, rfl, some 2, rfl, rfl, some 3, rfl, rfl, none, rfl, rfl⟩, rfl,
    by decide⟩
  processable := ⟨⟨rfl, some 5, rfl, rfl, none, rfl, rfl⟩, rfl, by decide⟩
  disjoint := by decide

theorem hits_sample : hits 15 queuedSample =
    [⟨⟨201, 5, 1⟩, 251⟩, ⟨⟨101, 15, 2⟩, 251⟩, ⟨⟨102, 15, 3⟩, 252⟩] := by
  have hready : (queuedSample.filter fun x => timeOf x ≤ 15) =
      [(0, ⟨⟨201, 5, 1⟩, 5⟩), (1, ⟨⟨101, 15, 2⟩, 15⟩), (2, ⟨⟨102, 15, 3⟩, 15⟩)] := by decide
  rw [hits, hready]
  unfold ready MessageEntry.intKey
  decide

/-- The fourth message stays. Two of the others have a key that is there already, and they come
behind it, in their order. -/
theorem transfer_spec_sample :
    ∃ h' queued' processable' ps',
      transfer (fun _ h => h.bound) 15 memorySample ⟨some 0, some 3, 4⟩ ⟨some 4, some 5, 2⟩ =
          some (h', queued', processable') ∧
        TwoLists h' queued' processable' [(3, ⟨⟨101, 16, 4⟩, 16⟩)] ps' ∧
        Merged [⟨⟨151, 10, 5⟩, 251⟩, ⟨⟨101, 20, 6⟩, 301⟩]
          [⟨⟨201, 5, 1⟩, 251⟩, ⟨⟨101, 15, 2⟩, 251⟩, ⟨⟨102, 15, 3⟩, 252⟩] (ps'.map Prod.snd) ∧
        ((ps'.map Prod.snd).filter fun x => x.key = 251) =
          [⟨⟨151, 10, 5⟩, 251⟩, ⟨⟨201, 5, 1⟩, 251⟩, ⟨⟨101, 15, 2⟩, 251⟩] := by
  obtain ⟨h', queued', processable', ps', htransfer, hlists, hmerged⟩ :=
    transfer_spec (fun _ h => h.unused _ (le_refl _)) 15 twoLists_sample (by decide)
  rw [hits_sample] at hmerged
  have htie := hmerged.stable (by decide) 251
  exact ⟨h', queued', processable', ps', htransfer, hlists, hmerged, htie⟩

end Nachos.Network
