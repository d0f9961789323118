import Nachos.Lib.CInt
import Nachos.Lib.Rotation
import Nachos.Lib.Run

/-!
# How long the disk takes

`ComputeLatency` and `UpdateLast` of `machine/disk.cc`. The disk turns by one sector in
`RotationTime`, and the head moves by one track in `SeekTime`. While it stays on a track, the disk
reads what passes by into the track buffer.

What the code computes from the last sector and the time of the last seek is compared with where
the head is. `totalTicks` has 64 bits and is an unbounded integer here; `timeAfter` and `bufferInit`
have 32, which are enough up to `lastTime`.
-/

namespace Nachos.Machine

open Nachos.Lib

/-! ## The code -/

def sectorsPerTrack : ℤ := 32

def numTracks : ℤ := 32

def numSectors : ℤ := sectorsPerTrack * numTracks

def seekTime : ℤ := 500

def rotationTime : ℤ := 500

structure Disk where
  lastSector : ℤ
  bufferInit : ℤ
deriving DecidableEq, Repr

namespace Disk

def create : Disk := ⟨0, 0⟩

/-- `TimeToSeek`: the time to seek, and `*rotation`. -/
def timeToSeek (d : Disk) (totalTicks newSector : ℤ) : ℤ × ℤ :=
  let newTrack := newSector.tdiv sectorsPerTrack
  let oldTrack := d.lastSector.tdiv sectorsPerTrack
  let seek := (newTrack - oldTrack).natAbs * seekTime
  let overTime := (totalTicks + seek).tmod rotationTime
  (seek, if 0 < overTime then rotationTime - overTime else 0)

def moduloDiff (target current : ℤ) : ℤ :=
  let toOffset := target.tmod sectorsPerTrack
  let fromOffset := current.tmod sectorsPerTrack
  ((toOffset - fromOffset) + sectorsPerTrack).tmod sectorsPerTrack

def computeLatency (d : Disk) (totalTicks newSector : ℤ) (writing : Bool) : ℤ :=
  let (seek, rotation) := d.timeToSeek totalTicks newSector
  -- an `int`: the upper half of the clock is lost
  let timeAfter := signed (word (totalTicks + seek + rotation))
  -- check if track buffer applies
  if writing = false ∧ seek = 0 ∧ moduloDiff newSector (d.bufferInit.tdiv rotationTime) <
      (signed (word (timeAfter - d.bufferInit))).tdiv rotationTime then rotationTime
  else
    let rotation := rotation + moduloDiff newSector (timeAfter.tdiv rotationTime) * rotationTime
    seek + rotation + rotationTime

def updateLast (d : Disk) (totalTicks newSector : ℤ) : Disk :=
  let (seek, rotate) := d.timeToSeek totalTicks newSector
  { bufferInit := if seek ≠ 0 then signed (word (totalTicks + seek + rotate)) else d.bufferInit
    lastSector := newSector }

end Disk

structure DiskState where
  disk : Disk
  totalTicks : ℤ
  /-- When the interrupt is due, while a request is active. -/
  due : Option ℤ
deriving DecidableEq, Repr

structure DiskRequest where
  time : ℤ
  sectorNumber : ℤ
  writing : Bool
  latency : ℤ
deriving DecidableEq, Repr

inductive DiskLabel where
  | pass (ticks : ℕ)
  /-- `ReadRequest` and `WriteRequest`. -/
  | request (sectorNumber : ℤ) (writing : Bool)
  /-- `HandleInterrupt`. -/
  | done

/-- One step, with the request that is made. -/
def diskStep (s : DiskState) : DiskLabel → Option (DiskState × List DiskRequest)
  | .pass ticks => some ({ s with totalTicks := s.totalTicks + ticks }, [])
  | .request sectorNumber writing =>
      let ticks := s.disk.computeLatency s.totalTicks sectorNumber writing
      -- the assertions
      if s.due = none ∧ 0 ≤ sectorNumber ∧ sectorNumber < numSectors then
        some ({ s with
          disk := s.disk.updateLast s.totalTicks sectorNumber
          due := some (s.totalTicks + ticks) }, [⟨s.totalTicks, sectorNumber, writing, ticks⟩])
      else none
  | .done =>
      match s.due with
      | some t => if t ≤ s.totalTicks then some ({ s with due := none }, []) else none
      | none => none

def diskBoot : DiskState := ⟨.create, 0, none⟩

/-- 32 bits hold every time that is computed from an earlier one. -/
def lastTime : ℤ := 2147483648 - numTracks * seekTime

/-! ## The head -/

/-- The head is on a track, or will be there at the time. -/
structure Head where
  track : ℤ
  since : ℤ
deriving DecidableEq, Repr

def trackOf (sectorNumber : ℤ) : ℤ := sectorNumber / sectorsPerTrack

/-- The time that the head needs. -/
def Head.seekTo (h : Head) (sectorNumber : ℤ) : ℤ :=
  (trackOf sectorNumber - h.track).natAbs * seekTime

/-- At a time the head is sent to the track of a sector. -/
def Head.moveTo (h : Head) (time sectorNumber : ℤ) : Head :=
  if trackOf sectorNumber = h.track then h
  else ⟨trackOf sectorNumber, time + h.seekTo sectorNumber⟩

def headAfter (log : List DiskRequest) : Head :=
  log.foldl (fun h r => h.moveTo r.time r.sectorNumber) ⟨0, 0⟩

/-- The sector begins to pass under the head of its track. -/
abbrev Passes (sectorNumber t : ℤ) : Prop :=
  ComesAt sectorsPerTrack rotationTime sectorNumber t

/-- The head has been on the track when the sector began to pass. -/
def InTrackBuffer (h : Head) (time sectorNumber : ℤ) : Prop :=
  trackOf sectorNumber = h.track ∧ ∃ t, Passes sectorNumber t ∧ h.since ≤ t ∧ t < time

/-- What holds of a request. -/
structure DiskTiming (log : List DiskRequest) (r : DiskRequest) : Prop where
  /-- One request at a time. -/
  apart : ∀ q ∈ log, q.time + q.latency ≤ r.time
  arrived : (headAfter log).since ≤ r.time
  buffered : r.writing = false → InTrackBuffer (headAfter log) r.time r.sectorNumber →
    r.latency = rotationTime
  /-- The transfer begins when the sector comes for the first time. -/
  transferred : r.writing = true ∨ ¬ InTrackBuffer (headAfter log) r.time r.sectorNumber →
    IsLeast {t | Passes r.sectorNumber t ∧ r.time ≤ t ∧
      ((headAfter log).moveTo r.time r.sectorNumber).since ≤ t} (r.time + r.latency - rotationTime)

/-! ## What the code computes -/

section Code

variable {d : Disk} {totalTicks sectorNumber k : ℤ} {writing : Bool} {h : Head}

abbrev OnDisk (sectorNumber : ℤ) : Prop := 0 ≤ sectorNumber ∧ sectorNumber < numSectors

abbrev InTime (totalTicks : ℤ) : Prop := 0 ≤ totalTicks ∧ totalTicks < lastTime

/-- What the disk remembers of the head. -/
structure Disk.Remembers (d : Disk) (h : Head) : Prop where
  sector : OnDisk d.lastSector
  track : trackOf d.lastSector = h.track
  since : 0 ≤ h.since
  buffer : d.bufferInit = roundUp rotationTime h.since

theorem seekTo_eq_zero : h.seekTo sectorNumber = 0 ↔ trackOf sectorNumber = h.track := by
  unfold Head.seekTo seekTime
  omega

theorem seekTo_nonneg (h : Head) (sectorNumber : ℤ) : 0 ≤ h.seekTo sectorNumber := by
  unfold Head.seekTo seekTime
  omega

/-- The tracks are not more than `numTracks`. -/
theorem seekTo_lt (hr : d.Remembers h) (hsector : OnDisk sectorNumber) :
    h.seekTo sectorNumber + rotationTime ≤ numTracks * seekTime := by
  have hlast := hr.sector
  unfold Head.seekTo
  rw [← hr.track]
  unfold OnDisk numSectors trackOf sectorsPerTrack numTracks seekTime rotationTime at *
  omega

theorem timeToSeek_eq (hr : d.Remembers h) (hticks : 0 ≤ totalTicks) (hsector : OnDisk sectorNumber) :
    d.timeToSeek totalTicks sectorNumber =
      (h.seekTo sectorNumber, roundUp rotationTime (totalTicks + h.seekTo sectorNumber) -
        (totalTicks + h.seekTo sectorNumber)) := by
  have hseek := seekTo_nonneg h sectorNumber
  unfold Head.seekTo at *
  simp only [Disk.timeToSeek, Int.tdiv_eq_ediv_of_nonneg hsector.1,
    Int.tdiv_eq_ediv_of_nonneg hr.sector.1]
  rw [← hr.track] at *
  simp only [trackOf] at hseek ⊢
  rw [Int.tmod_eq_emod_of_nonneg (by omega), roundUp, add_sub_cancel_left]

theorem moduloDiff_eq (hsector : 0 ≤ sectorNumber) (hk : 0 ≤ k) :
    Disk.moduloDiff sectorNumber k = slotsAhead sectorsPerTrack sectorNumber k := by
  simp only [Disk.moduloDiff, Int.tmod_eq_emod_of_nonneg hsector, Int.tmod_eq_emod_of_nonneg hk]
  unfold slotsAhead sectorsPerTrack
  rw [Int.tmod_eq_emod_of_nonneg (by omega)]
  omega

/-- The time after the seek is an `int`. -/
theorem timeAfter_eq (hr : d.Remembers h) (hticks : InTime totalTicks)
    (hsector : OnDisk sectorNumber) :
    signed (word (roundUp rotationTime (totalTicks + h.seekTo sectorNumber))) =
      roundUp rotationTime (totalTicks + h.seekTo sectorNumber) := by
  have hperiod : 0 < rotationTime := by decide
  have hle := le_roundUp (t := totalTicks + h.seekTo sectorNumber) hperiod
  have hlt := roundUp_lt (t := totalTicks + h.seekTo sectorNumber) hperiod
  have hnonneg := seekTo_nonneg h sectorNumber
  have hseek := seekTo_lt hr hsector
  unfold InTime lastTime at hticks
  exact signed_word (by omega)

/-- So is the time since the track buffer started. -/
theorem timeSince_eq (hr : d.Remembers h) (hticks : InTime totalTicks)
    (harrived : h.since ≤ totalTicks) :
    signed (word (roundUp rotationTime totalTicks - d.bufferInit)) =
      roundUp rotationTime totalTicks - d.bufferInit := by
  have hperiod : 0 < rotationTime := by decide
  have hle := le_roundUp (t := totalTicks) hperiod
  have hlt := roundUp_lt (t := totalTicks) hperiod
  have hstart := le_roundUp (t := h.since) hperiod
  have hend := roundUp_lt (t := h.since) hperiod
  have hsince := hr.since
  rw [hr.buffer]
  unfold InTime lastTime numTracks seekTime rotationTime at *
  exact signed_word (by omega)

/-- The track buffer applies when the sector has passed. -/
theorem inTrackBuffer_iff (hr : d.Remembers h) (hticks : InTime totalTicks)
    (hsector : OnDisk sectorNumber) (harrived : h.since ≤ totalTicks)
    (htrack : trackOf sectorNumber = h.track) :
    Disk.moduloDiff sectorNumber (d.bufferInit.tdiv rotationTime) <
        (signed (word (roundUp rotationTime totalTicks - d.bufferInit))).tdiv rotationTime ↔
      InTrackBuffer h totalTicks sectorNumber := by
  have hperiod : 0 < rotationTime := by decide
  have hn : 0 < sectorsPerTrack := by decide
  obtain ⟨j, hj⟩ := roundUp_eq (t := totalTicks) hperiod
  obtain ⟨k, hk⟩ := roundUp_eq (t := h.since) hperiod
  have hfirst := isLeast_slotsAhead (i := sectorNumber) (k := k) hn hperiod
  have hjle := le_roundUp (t := totalTicks) hperiod
  have hjlt := roundUp_lt (t := totalTicks) hperiod
  have hkle := le_roundUp (t := h.since) hperiod
  have hsince := hr.since
  have hknonneg : 0 ≤ k := by
    unfold rotationTime at *
    omega
  rw [timeSince_eq hr hticks harrived]
  rw [hj] at hjle hjlt
  rw [hr.buffer, hj, hk, ← Int.sub_mul, Int.mul_tdiv_cancel _ (by decide),
    Int.mul_tdiv_cancel _ (by decide), moduloDiff_eq hsector.1 hknonneg]
  generalize slotsAhead sectorsPerTrack sectorNumber k = ahead at *
  constructor
  · intro hlt
    refine ⟨htrack, _, hfirst.1.1, Int.le_trans hkle (hk ▸ hfirst.1.2), ?_⟩
    unfold rotationTime at *
    omega
  · rintro ⟨-, t, hpasses, hle, hlt⟩
    have hbound := hfirst.2 ⟨hpasses, hk ▸ (hpasses.roundUp_le_iff hperiod).mpr hle⟩
    unfold rotationTime at *
    omega

theorem computeLatency_buffered (hr : d.Remembers h) (hticks : InTime totalTicks)
    (hsector : OnDisk sectorNumber) (harrived : h.since ≤ totalTicks)
    (hbuffer : InTrackBuffer h totalTicks sectorNumber) :
    d.computeLatency totalTicks sectorNumber false = rotationTime := by
  have hseek := seekTo_eq_zero.mpr hbuffer.1
  have hafter := timeAfter_eq hr hticks hsector
  unfold Disk.computeLatency
  rw [timeToSeek_eq hr hticks.1 hsector]
  rw [hseek, Int.add_zero] at *
  simp only [Int.add_zero]
  refine if_pos ⟨trivial, trivial, ?_⟩
  rw [show totalTicks + (roundUp rotationTime totalTicks - totalTicks) =
    roundUp rotationTime totalTicks by omega, hafter]
  exact (inTrackBuffer_iff hr hticks hsector harrived hbuffer.1).mpr hbuffer

/-- Otherwise the disk waits for the sector. -/
theorem computeLatency_transferred (hr : d.Remembers h) (hticks : InTime totalTicks)
    (hsector : OnDisk sectorNumber) (harrived : h.since ≤ totalTicks)
    (hnot : writing = true ∨ ¬ InTrackBuffer h totalTicks sectorNumber) :
    d.computeLatency totalTicks sectorNumber writing =
      roundUp rotationTime (totalTicks + h.seekTo sectorNumber) - totalTicks +
        slotsAhead sectorsPerTrack sectorNumber
          (roundUp rotationTime (totalTicks + h.seekTo sectorNumber) / rotationTime) *
            rotationTime + rotationTime := by
  have hseek := seekTo_nonneg h sectorNumber
  have hle := le_roundUp (t := totalTicks + h.seekTo sectorNumber) (show 0 < rotationTime by decide)
  have hnonneg := hticks.1
  unfold Disk.computeLatency
  rw [timeToSeek_eq hr hticks.1 hsector]
  simp only
  rw [show totalTicks + h.seekTo sectorNumber + (roundUp rotationTime (totalTicks +
    h.seekTo sectorNumber) - (totalTicks + h.seekTo sectorNumber)) =
      roundUp rotationTime (totalTicks + h.seekTo sectorNumber) by omega,
    timeAfter_eq hr hticks hsector]
  rw [if_neg, Int.tdiv_eq_ediv_of_nonneg (by omega), moduloDiff_eq hsector.1]
  · omega
  · exact Int.ediv_nonneg (by omega) (by decide)
  · rintro ⟨hread, hzero, hpassed⟩
    rw [hzero, Int.add_zero] at hpassed
    have hbuffer :=
      (inTrackBuffer_iff hr hticks hsector harrived (seekTo_eq_zero.mp hzero)).mp hpassed
    rcases hnot with hwrite | hnot
    · rw [hread] at hwrite
      cases hwrite
    · exact hnot hbuffer

/-- **The latency is the time until the sector has passed** for the first time after the head has
come to its track. -/
theorem isLeast_computeLatency (hr : d.Remembers h) (hticks : InTime totalTicks)
    (hsector : OnDisk sectorNumber) (harrived : h.since ≤ totalTicks)
    (hnot : writing = true ∨ ¬ InTrackBuffer h totalTicks sectorNumber) :
    IsLeast {t | Passes sectorNumber t ∧ totalTicks ≤ t ∧
      (h.moveTo totalTicks sectorNumber).since ≤ t}
      (totalTicks + d.computeLatency totalTicks sectorNumber writing - rotationTime) := by
  have hperiod : 0 < rotationTime := by decide
  have hseek := seekTo_nonneg h sectorNumber
  obtain ⟨k, hk⟩ := roundUp_eq (t := totalTicks + h.seekTo sectorNumber) hperiod
  have hleast := isLeast_slotsAhead (i := sectorNumber) (k := k)
    (show 0 < sectorsPerTrack by decide) hperiod
  have hset : {t | Passes sectorNumber t ∧ k * rotationTime ≤ t} =
      {t | Passes sectorNumber t ∧ totalTicks ≤ t ∧
        (h.moveTo totalTicks sectorNumber).since ≤ t} := by
    ext t
    refine and_congr_right fun hpasses => ?_
    rw [← hk, hpasses.roundUp_le_iff hperiod]
    unfold Head.moveTo
    split
    · rename_i htrack
      rw [seekTo_eq_zero.mpr htrack]
      omega
    · show totalTicks + h.seekTo sectorNumber ≤ t ↔
        totalTicks ≤ t ∧ totalTicks + h.seekTo sectorNumber ≤ t
      omega
  rw [← hset, computeLatency_transferred hr hticks hsector harrived hnot, hk,
    Int.mul_ediv_cancel _ (by decide)]
  convert hleast using 1
  rw [Int.add_mul]
  omega

/-- `UpdateLast` keeps track of the head. -/
theorem Disk.Remembers.updateLast (hr : d.Remembers h) (hticks : InTime totalTicks)
    (hsector : OnDisk sectorNumber) :
    (d.updateLast totalTicks sectorNumber).Remembers (h.moveTo totalTicks sectorNumber) := by
  have hseek := seekTo_nonneg h sectorNumber
  have hnonneg := hticks.1
  unfold Disk.updateLast Head.moveTo
  rw [timeToSeek_eq hr hticks.1 hsector]
  by_cases htrack : trackOf sectorNumber = h.track
  · rw [if_pos htrack, seekTo_eq_zero.mpr htrack]
    exact ⟨hsector, htrack, hr.since, hr.buffer⟩
  · have hne : h.seekTo sectorNumber ≠ 0 := fun heq => htrack (seekTo_eq_zero.mp heq)
    rw [if_neg htrack]
    refine ⟨hsector, rfl, ?_, ?_⟩
    · show 0 ≤ totalTicks + h.seekTo sectorNumber
      omega
    · simp only [if_pos hne]
      rw [show totalTicks + h.seekTo sectorNumber + (roundUp rotationTime (totalTicks +
        h.seekTo sectorNumber) - (totalTicks + h.seekTo sectorNumber)) =
          roundUp rotationTime (totalTicks + h.seekTo sectorNumber) by omega]
      exact timeAfter_eq hr hticks hsector

/-- The head arrives while the request is under way, and a sector is transferred. -/
theorem arrives_before (hr : d.Remembers h) (hticks : InTime totalTicks)
    (hsector : OnDisk sectorNumber) (harrived : h.since ≤ totalTicks) (writing : Bool) :
    rotationTime ≤ d.computeLatency totalTicks sectorNumber writing ∧
      (h.moveTo totalTicks sectorNumber).since ≤
        totalTicks + d.computeLatency totalTicks sectorNumber writing := by
  have hperiod : 0 < rotationTime := by decide
  by_cases hbuffer : writing = false ∧ InTrackBuffer h totalTicks sectorNumber
  · obtain ⟨rfl, hbuffer⟩ := hbuffer
    rw [computeLatency_buffered hr hticks hsector harrived hbuffer, Head.moveTo, if_pos hbuffer.1]
    omega
  · have hnot : writing = true ∨ ¬ InTrackBuffer h totalTicks sectorNumber := by
      rwa [not_and_or, Bool.not_eq_false] at hbuffer
    obtain ⟨-, hstart, hsince⟩ :=
      (isLeast_computeLatency hr hticks hsector harrived hnot).1
    omega

end Code

/-! ## Every run -/

/-- The disk is where the requests have sent it. -/
structure Follows (log : List DiskRequest) (s : DiskState) : Prop where
  remembers : s.disk.Remembers (headAfter log)
  ticks : 0 ≤ s.totalTicks
  apart : ∀ q ∈ log, q.time + q.latency ≤ s.due.getD s.totalTicks
  arrived : (headAfter log).since ≤ s.due.getD s.totalTicks
  contract : Always DiskTiming log

section Runs

variable {log events : List DiskRequest} {s s' : DiskState} {tr : List (List DiskRequest)}
  {ok : List (List DiskRequest) → DiskState → DiskLabel → Prop}

theorem headAfter_snoc (r : DiskRequest) :
    headAfter (log ++ [r]) = (headAfter log).moveTo r.time r.sectorNumber := List.foldl_concat ..

theorem Follows.boot : Follows [] diskBoot where
  remembers := ⟨by decide, by decide, by decide, by decide⟩
  ticks := by decide
  apart q hq := absurd hq List.not_mem_nil
  arrived := by decide
  contract := always_nil

/-- What is known when the disk is idle. -/
theorem Follows.request (h : Follows log s) (hidle : s.due = none) {sectorNumber : ℤ}
    (hsector : OnDisk sectorNumber) (htime : s.totalTicks < lastTime) (writing : Bool) :
    Follows (log ++ [⟨s.totalTicks, sectorNumber, writing,
        s.disk.computeLatency s.totalTicks sectorNumber writing⟩])
      ⟨s.disk.updateLast s.totalTicks sectorNumber, s.totalTicks,
        some (s.totalTicks + s.disk.computeLatency s.totalTicks sectorNumber writing)⟩ := by
  have hapart := h.apart
  have harrived := h.arrived
  rw [hidle] at hapart harrived
  have hr := h.remembers
  have hticks : InTime s.totalTicks := ⟨h.ticks, htime⟩
  obtain ⟨hlatency, hsince⟩ := arrives_before hr hticks hsector harrived writing
  have hperiod : 0 < rotationTime := by decide
  refine ⟨?_, h.ticks, ?_, ?_, always_snoc.mpr ⟨h.contract, hapart, harrived, ?_, ?_⟩⟩
  · rw [headAfter_snoc]
    exact hr.updateLast hticks hsector
  · intro q hq
    show _ ≤ s.totalTicks + _
    rcases List.mem_append.mp hq with hq | hq
    · have : q.time + q.latency ≤ s.totalTicks := hapart q hq
      omega
    · rw [List.mem_singleton.mp hq]
  · rw [headAfter_snoc]
    exact hsince
  · rintro rfl hbuffer
    exact computeLatency_buffered hr hticks hsector harrived hbuffer
  · exact isLeast_computeLatency hr hticks hsector harrived

/-- What one step preserves. -/
theorem Follows.step {l : DiskLabel} (h : Follows log s) (hs : diskStep s l = some (s', events))
    (hbound : ∀ r ∈ events, r.time < lastTime) :
    Follows (log ++ events) s' := by
  cases l with
  | pass ticks =>
      obtain ⟨rfl, rfl⟩ := Prod.mk.inj (Option.some.inj hs)
      rw [List.append_nil]
      have hticks := h.ticks
      have hlater : s.due.getD s.totalTicks ≤ s.due.getD (s.totalTicks + ticks) := by
        cases s.due with
        | none => exact Int.le_add_of_nonneg_right (Int.natCast_nonneg ticks)
        | some t => exact Int.le_refl t
      exact ⟨h.remembers, Int.add_nonneg hticks (Int.natCast_nonneg ticks),
        fun q hq => Int.le_trans (h.apart q hq) hlater, Int.le_trans h.arrived hlater, h.contract⟩
  | request sectorNumber writing =>
      simp only [diskStep] at hs
      split at hs
      · rename_i hcan
        obtain ⟨rfl, rfl⟩ := Prod.mk.inj (Option.some.inj hs)
        exact h.request hcan.1 hcan.2 (hbound _ (List.mem_singleton.mpr rfl)) writing
      · cases hs
  | done =>
      simp only [diskStep] at hs
      cases hdue : s.due with
      | none =>
          rw [hdue] at hs
          cases hs
      | some t =>
          rw [hdue] at hs
          simp only at hs
          split at hs
          · rename_i hle
            obtain ⟨rfl, rfl⟩ := Prod.mk.inj (Option.some.inj hs)
            have hapart := h.apart
            have harrived := h.arrived
            rw [hdue] at hapart harrived
            rw [List.append_nil]
            exact ⟨h.remembers, h.ticks, fun q hq => Int.le_trans (hapart q hq) hle,
              Int.le_trans harrived hle, h.contract⟩
          · cases hs

/-- **The disk takes the time that its head needs.** In every run whose requests are made before
`lastTime`: a request is made when all before it are done, and the head has come to its track. A
read takes the time of one sector if the sector has begun to pass since the head is on its track;
any other request ends when the sector has passed for the first time after the head has come to
the track. -/
theorem disk_timing (hrun : Run diskStep ok diskBoot tr s)
    (hbound : ∀ r ∈ tr.flatten, r.time < lastTime) : Always DiskTiming tr.flatten := by
  suffices h : (∀ r ∈ tr.flatten, r.time < lastTime) → Follows tr.flatten s from (h hbound).contract
  refine hrun.invariant (I := fun tr s => (∀ r ∈ tr.flatten, r.time < lastTime) → Follows tr.flatten s)
    (fun _ => .boot) ?_
  intro tr s l s' events ih _ hs hbound
  rw [List.flatten_append, List.flatten_singleton] at hbound ⊢
  exact (ih fun r hr => hbound r (List.mem_append_left _ hr)).step hs
    fun r hr => hbound r (List.mem_append_right _ hr)

/-- Sector 70 is read, which is on the third track; then 69, which has passed meanwhile; and then 69
is written, for which the disk turns round nearly once. -/
theorem disk_timing_sample : ∃ tr s, Run diskStep anyStep diskBoot tr s ∧
    tr.flatten = [⟨10, 70, false, 3490⟩, ⟨4000, 69, false, 500⟩, ⟨4500, 69, true, 14500⟩] ∧
    Always DiskTiming tr.flatten := by
  have hp : (exec diskStep anyStep [] diskBoot [.pass 10, .request 70 false, .pass 3990, .done,
      .request 69 false, .pass 500, .done, .request 69 true]).map (fun r => r.1.flatten) =
      some [⟨10, 70, false, 3490⟩, ⟨4000, 69, false, 500⟩, ⟨4500, 69, true, 14500⟩] := by
    decide +kernel
  obtain ⟨⟨tr, s⟩, hexec, hlog⟩ := Option.map_eq_some_iff.mp hp
  have hrun := Run.of_exec .start hexec
  refine ⟨tr, s, hrun, hlog, disk_timing hrun ?_⟩
  rw [hlog]
  decide

/-- At `2 ^ 31` sector 0 comes in eight slots, and the disk waits for twenty-two. -/
example : Disk.create.computeLatency 2147483648 0 true = 352 + 22 * rotationTime + rotationTime := by
  decide +kernel

end Runs

end Nachos.Machine
