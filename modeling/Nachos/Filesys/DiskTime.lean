import Nachos.Filesys.Disk
import Nachos.Machine.Interrupt
import Nachos.Lib.Rotation

/-!
# The time of a disk request

`Disk::TimeToSeek`, `ModuloDiff`, `ComputeLatency` and `UpdateLast` of `machine/disk.cc`, and the
interrupt that `ReadRequest` and `WriteRequest` schedule with them.  `Nachos.Filesys.SynchDisk` has
the data of the requests and the flag `active`.

* The platter is that of `Rotation`, with the sectors of one track.
* `disk_latency`: what `ComputeLatency` returns.
* `DiskTimeReach.track_buffer`: in every run, a request that the track buffer answers is for a
  sector that has passed the head since the buffer was started.

Times are integers, and sums of them do not overflow.  `/` and `%` truncate, as in C.
-/

namespace Nachos

open Transition Rotation

/-- `RotationTime`. -/
abbrev RotationTime : ℤ := 500

/-- `SeekTime`. -/
abbrev SeekTime : ℤ := 500

/-- `Disk::ModuloDiff`. -/
def moduloDiff (target start : ℤ) : ℤ :=
  let toOffset := target.tmod SectorsPerTrack
  let fromOffset := start.tmod SectorsPerTrack
  (toOffset - fromOffset + SectorsPerTrack).tmod SectorsPerTrack

/-- What `class Disk` keeps for the time of a request. -/
structure DiskHead where
  lastSector : ℤ
  bufferInit : ℤ
  deriving DecidableEq, Repr

namespace DiskHead

/-- `Disk::TimeToSeek`; the second part is `*rotation`. -/
def timeToSeek (totalTicks : ℤ) (d : DiskHead) (newSector : ℤ) : ℤ × ℤ :=
  let newTrack := newSector.tdiv SectorsPerTrack
  let oldTrack := d.lastSector.tdiv SectorsPerTrack
  let seek := (newTrack - oldTrack).natAbs * SeekTime
  let overTicks := (totalTicks + seek).tmod RotationTime
  (seek, if 0 < overTicks then RotationTime - overTicks else 0)

/-- `ComputeLatency`: "check if track buffer applies". -/
def trackBufferApplies (totalTicks : ℤ) (d : DiskHead) (newSector : ℤ) (writing : Bool) : Bool :=
  let (seek, rotation) := d.timeToSeek totalTicks newSector
  let timeAfter := totalTicks + seek + rotation
  !writing && decide (seek = 0) &&
    decide (moduloDiff newSector (d.bufferInit.tdiv RotationTime) <
      (timeAfter - d.bufferInit).tdiv RotationTime)

/-- `Disk::ComputeLatency`. -/
def computeLatency (totalTicks : ℤ) (d : DiskHead) (newSector : ℤ) (writing : Bool) : ℤ :=
  let (seek, rotation) := d.timeToSeek totalTicks newSector
  let timeAfter := totalTicks + seek + rotation
  if d.trackBufferApplies totalTicks newSector writing then RotationTime
  else
    let rotation := rotation + moduloDiff newSector (timeAfter.tdiv RotationTime) * RotationTime
    seek + rotation + RotationTime

/-- `Disk::UpdateLast`. -/
def updateLast (totalTicks : ℤ) (d : DiskHead) (newSector : ℤ) : DiskHead :=
  let (seek, rotate) := d.timeToSeek totalTicks newSector
  { bufferInit := if seek ≠ 0 then totalTicks + seek + rotate else d.bufferInit
    lastSector := newSector }

end DiskHead

/-! ### The arithmetic -/

/-- `ModuloDiff` is the distance on the track. -/
theorem moduloDiff_eq {target start : ℤ} (ht : 0 ≤ target) (hs : 0 ≤ start) :
    moduloDiff target start = distance SectorsPerTrack target start := by
  have hsum : 0 ≤ target % SectorsPerTrack - start % SectorsPerTrack + SectorsPerTrack := by
    have hto := Int.emod_nonneg target (show (SectorsPerTrack : ℤ) ≠ 0 by decide)
    have hfrom := Int.emod_lt_of_pos start (show (0 : ℤ) < SectorsPerTrack by decide)
    omega
  unfold moduloDiff distance
  rw [Int.tmod_eq_emod_of_nonneg ht, Int.tmod_eq_emod_of_nonneg hs,
    Int.tmod_eq_emod_of_nonneg hsum, Int.add_emod_right, ← Int.sub_emod]

/-- When a sector of the track has passed the head. -/
theorem passed_request (newSector start : ℤ) :
    IsLeast {t | start + RotationTime ≤ t ∧ RotationTime ∣ t ∧
        (t / RotationTime - 1) % SectorsPerTrack = newSector % SectorsPerTrack}
      (passed RotationTime SectorsPerTrack newSector start) :=
  isLeast_passed (by decide) (by decide) newSector start

/-- A quotient above a number that is not negative. -/
theorem tdiv_lt_imp {a b k : ℤ} (hb : 0 < b) (hk : 0 ≤ k) (h : k < a.tdiv b) :
    (k + 1) * b ≤ a := by
  have ha : 0 ≤ a := by
    by_contra hneg
    have hnonneg : 0 ≤ (-a).tdiv b := Int.tdiv_nonneg (by omega) hb.le
    rw [Int.neg_tdiv] at hnonneg
    omega
  rw [Int.tdiv_eq_ediv_of_nonneg ha] at h
  exact (Int.le_ediv_iff_mul_le hb).1 h

section latency

variable {totalTicks newSector : ℤ} {d : DiskHead}

theorem DiskHead.seek_nonneg (totalTicks newSector : ℤ) (d : DiskHead) :
    0 ≤ (d.timeToSeek totalTicks newSector).1 := mul_nonneg (Int.natCast_nonneg _) (by decide)

/-- The head waits for the next sector to begin. -/
theorem DiskHead.rotation_eq (h0 : 0 ≤ totalTicks) :
    (d.timeToSeek totalTicks newSector).2 =
      toBoundary RotationTime (totalTicks + (d.timeToSeek totalTicks newSector).1) := by
  have hseek := d.seek_nonneg totalTicks newSector
  rw [toBoundary_eq (by decide), ← Int.tmod_eq_emod_of_nonneg (by omega)]
  rfl

/-- Without the track buffer, the request is done when the sector has passed. -/
theorem DiskHead.computeLatency_passed {writing : Bool} (h0 : 0 ≤ totalTicks)
    (hnew : 0 ≤ newSector)
    (hbuf : d.trackBufferApplies totalTicks newSector writing = false) :
    totalTicks + d.computeLatency totalTicks newSector writing =
      passed RotationTime SectorsPerTrack newSector
        (totalTicks + (d.timeToSeek totalTicks newSector).1) := by
  have hseek := d.seek_nonneg totalTicks newSector
  have hrot : 0 ≤ toBoundary RotationTime (totalTicks + (d.timeToSeek totalTicks newSector).1) :=
    toBoundary_nonneg (by decide) _
  simp only [DiskHead.computeLatency, hbuf, Bool.false_eq_true, if_false, passed,
    DiskHead.rotation_eq h0]
  rw [Int.tdiv_eq_ediv_of_nonneg (by omega),
    moduloDiff_eq hnew (Int.ediv_nonneg (by omega) (by decide))]
  ring

/-- One sector at least has to be transferred. -/
theorem DiskHead.rotationTime_le (writing : Bool) (h0 : 0 ≤ totalTicks) (hnew : 0 ≤ newSector) :
    RotationTime ≤ d.computeLatency totalTicks newSector writing := by
  cases hbuf : d.trackBufferApplies totalTicks newSector writing with
  | true => simp [DiskHead.computeLatency, hbuf]
  | false =>
    obtain ⟨hfirst, -⟩ := (passed_request newSector
      (totalTicks + (d.timeToSeek totalTicks newSector).1)).1
    have hseek := d.seek_nonneg totalTicks newSector
    rw [← DiskHead.computeLatency_passed h0 hnew hbuf] at hfirst
    omega

end latency

theorem schedule_latency {i : Interrupt} (hi : i.control.calls = true) (d : DiskHead)
    {totalTicks newSector : ℤ} (writing : Bool) (h0 : 0 ≤ totalTicks) (hnew : 0 ≤ newSector) :
    ∃ i', i.step (.schedule (d.computeLatency totalTicks newSector writing).toNat .DiskInt) =
      some i' := by
  have hle := DiskHead.rotationTime_le (d := d) writing h0 hnew
  have hpos : 0 < (d.computeLatency totalTicks newSector writing).toNat :=
    Int.lt_toNat.2 (lt_of_lt_of_le (by decide) hle)
  exact ⟨_, if_pos ⟨hi, hpos⟩⟩

/-- **The latency of a request.**  It is at least `RotationTime`, so that `Schedule` takes it.  When
the track buffer does not apply, the request is done at the earliest time at which a sector ends
that has the number of the new one on its track and that has begun after the seek. -/
theorem disk_latency (totalTicks newSector : ℤ) (d : DiskHead) (writing : Bool)
    (h0 : 0 ≤ totalTicks) (hnew : 0 ≤ newSector ∧ newSector < NumSectors) :
    RotationTime ≤ d.computeLatency totalTicks newSector writing ∧
    (∀ i : Interrupt, i.control.calls = true → ∃ i',
      i.step (.schedule (d.computeLatency totalTicks newSector writing).toNat .DiskInt) =
        some i') ∧
    (d.trackBufferApplies totalTicks newSector writing = false →
      IsLeast {t | totalTicks + (d.timeToSeek totalTicks newSector).1 + RotationTime ≤ t ∧
          RotationTime ∣ t ∧
          (t / RotationTime - 1) % SectorsPerTrack = newSector % SectorsPerTrack}
        (totalTicks + d.computeLatency totalTicks newSector writing)) := by
  refine ⟨DiskHead.rotationTime_le writing h0 hnew.1,
    fun i hi => schedule_latency hi d writing h0 hnew.1, fun hbuf => ?_⟩
  rw [DiskHead.computeLatency_passed h0 hnew.1 hbuf]
  exact passed_request newSector _

/-- A write of sector 70 at time 1234, from track 0: the head is on track 2 at time 2234, and sector
70 passes from 3000 to 3500. -/
theorem disk_latency_twoTracks :
    (1234 : ℤ) + (DiskHead.mk 5 0).computeLatency 1234 70 true = 3500 ∧
    IsLeast {t : ℤ | 1234 + 1000 + RotationTime ≤ t ∧ RotationTime ∣ t ∧
      (t / RotationTime - 1) % SectorsPerTrack = 70 % SectorsPerTrack} 3500 := by
  obtain ⟨-, -, hleast⟩ := disk_latency 1234 70 ⟨5, 0⟩ true (by decide) (by decide)
  exact ⟨by decide, hleast (by decide)⟩

/-! ### Runs -/

/-- The disk and the clock. -/
structure DiskTime where
  head : DiskHead
  interrupt : Interrupt

/-- What can happen. -/
inductive DiskTimeEvent
  -- `ReadRequest` or `WriteRequest`
  | request (sectorNumber : ℤ) (writing : Bool)
  | other (e : IntEvent)

namespace DiskTime

/-- The time, as the disk reads it. -/
def totalTicks (s : DiskTime) : ℤ := s.interrupt.stats.totalTicks

/-- What happens in an event, if it can happen; an `ASSERT` that fails is the end. -/
def step (s : DiskTime) : DiskTimeEvent → Option DiskTime
  | .request sectorNumber writing =>
    let ticks := s.head.computeLatency s.totalTicks sectorNumber writing
    if 0 ≤ sectorNumber ∧ sectorNumber < NumSectors then
      (s.interrupt.step (.schedule ticks.toNat .DiskInt)).map fun i =>
        ⟨s.head.updateLast s.totalTicks sectorNumber, i⟩
    else none
  | .other e => (s.interrupt.step e).map fun i => { s with interrupt := i }

end DiskTime

/-- `Disk::Disk`, when the machine starts. -/
def DiskTimeInit (s : DiskTime) : Prop := s = ⟨⟨0, 0⟩, Interrupt.initial⟩

/-- One step. -/
def DiskTimeStep (s : DiskTime) (e : DiskTimeEvent) (s' : DiskTime) : Prop := s.step e = some s'

/-- The states of all runs. -/
def DiskTimeReach (s : DiskTime) : Prop := Reach DiskTimeInit DiskTimeStep s

/-- The buffer is started where a sector begins. -/
def DiskHead.OnBoundary (d : DiskHead) : Prop := 0 ≤ d.bufferInit ∧ RotationTime ∣ d.bufferInit

theorem DiskHead.OnBoundary.updateLast {d : DiskHead} (h : d.OnBoundary) {totalTicks : ℤ}
    (newSector : ℤ) (h0 : 0 ≤ totalTicks) : (d.updateLast totalTicks newSector).OnBoundary := by
  have hseek := d.seek_nonneg totalTicks newSector
  have hrot : 0 ≤ toBoundary RotationTime (totalTicks + (d.timeToSeek totalTicks newSector).1) :=
    toBoundary_nonneg (by decide) _
  simp only [OnBoundary, DiskHead.updateLast, DiskHead.rotation_eq h0]
  split_ifs
  · exact ⟨by omega, dvd_boundary _⟩
  · exact h

theorem DiskTimeReach.onBoundary {s : DiskTime} (h : DiskTimeReach s) : s.head.OnBoundary := by
  refine Reach.invariant (I := fun s => s.head.OnBoundary) ?_ (fun s e s' hs hst => ?_) h
  · rintro s rfl
    exact ⟨le_rfl, dvd_zero _⟩
  · unfold DiskTimeStep at hst
    cases e with
    | request sectorNumber writing =>
      simp only [DiskTime.step] at hst
      split_ifs at hst
      obtain ⟨i, -, rfl⟩ := Option.map_eq_some_iff.1 hst
      exact hs.updateLast sectorNumber (Int.natCast_nonneg _)
    | other e =>
      obtain ⟨i, -, rfl⟩ := Option.map_eq_some_iff.1 hst
      exact hs

/-- No request for a sector of the disk fails. -/
theorem DiskTime.request_ok {s : DiskTime} (hcalls : s.interrupt.control.calls = true)
    {sectorNumber : ℤ} (writing : Bool) (h0 : 0 ≤ sectorNumber) (hlt : sectorNumber < NumSectors) :
    ∃ s', DiskTimeStep s (.request sectorNumber writing) s' := by
  obtain ⟨i, hi⟩ := schedule_latency hcalls s.head writing (Int.natCast_nonneg _) h0
  refine ⟨⟨s.head.updateLast s.totalTicks sectorNumber, i⟩, ?_⟩
  simp only [DiskTimeStep, DiskTime.step, h0, hlt, and_self, if_true]
  exact Option.map_eq_some_iff.2 ⟨i, hi, rfl⟩

/-- **What the track buffer has.**  In every run: if it answers a request, the sector has passed the
head, from its beginning to its end, after the buffer was started and before the request is done. -/
theorem DiskTimeReach.track_buffer {s : DiskTime} (h : DiskTimeReach s) {newSector : ℤ}
    {writing : Bool} (hnew : 0 ≤ newSector)
    (hbuf : s.head.trackBufferApplies s.totalTicks newSector writing = true) :
    ∃ t, s.head.bufferInit ≤ t ∧ RotationTime ∣ t ∧
      t / RotationTime % SectorsPerTrack = newSector % SectorsPerTrack ∧
      t + RotationTime ≤ s.totalTicks + s.head.computeLatency s.totalTicks newSector writing := by
  obtain ⟨hinit, q, hq⟩ := h.onBoundary
  have htime : 0 ≤ s.totalTicks := Int.natCast_nonneg _
  have hlatency : s.head.computeLatency s.totalTicks newSector writing = RotationTime := by
    simp [DiskHead.computeLatency, hbuf]
  have hrot : toBoundary RotationTime (s.totalTicks +
      (s.head.timeToSeek s.totalTicks newSector).1) < RotationTime := toBoundary_lt (by decide) _
  simp only [DiskHead.trackBufferApplies, DiskHead.rotation_eq htime, Bool.and_eq_true,
    decide_eq_true_eq] at hbuf
  obtain ⟨⟨-, hseek⟩, hlt⟩ := hbuf
  rw [hseek, add_zero] at hlt hrot
  rw [hq] at hinit hlt ⊢
  have hq0 : 0 ≤ q := (mul_nonneg_iff_of_pos_left (by decide)).1 hinit
  rw [Int.tdiv_eq_ediv_of_nonneg hinit, Int.mul_ediv_cancel_left _ (by decide),
    moduloDiff_eq hnew hq0] at hlt
  have hdist : 0 ≤ distance SectorsPerTrack newSector q := distance_nonneg (by decide) _ _
  refine ⟨RotationTime * (q + distance SectorsPerTrack newSector q), ?_, dvd_mul_right _ _, ?_, ?_⟩
  · exact mul_le_mul_of_nonneg_left (by omega) (by decide)
  · rw [Int.mul_ediv_cancel_left _ (by decide)]
    exact distance_turn newSector q
  · have hpassed := tdiv_lt_imp (by decide) hdist hlt
    rw [hlatency]
    linarith

theorem track_buffer_nextSector : ∃ s, DiskTimeReach s ∧
    ∃ t, s.head.bufferInit ≤ t ∧ t / RotationTime % SectorsPerTrack = 33 % SectorsPerTrack := by
  obtain ⟨s, hs, hbuf⟩ : ∃ s, DiskTimeReach s ∧
      s.head.trackBufferApplies s.totalTicks 33 false = true :=
    Reach.exists_run (f := DiskTime.step) (fun _ _ _ h => h) (.init rfl)
      [.request 32 false, .other .idle, .other .checkIfDue] (by decide +kernel)
  obtain ⟨t, hinit, -, hsector, -⟩ := hs.track_buffer (by decide) hbuf
  exact ⟨s, hs, t, hinit, hsector⟩

end Nachos
