import Nachos.Filesys.Disk
import Nachos.Threads.Lock

/-!
# The synchronous disk

`SynchDisk::ReadSector` and `WriteSector` of `filesys/synchdisk.cc` over `Disk::ReadRequest`,
`WriteRequest` and `HandleInterrupt` of `machine/disk.cc`, for any number of threads.

* The lock is that of `Nachos.Threads.Lock`: a step here takes a `LockStep` or leaves it alone.
* `ReadRequest` and `WriteRequest` are one step: they never enable interrupts, so that nobody runs
  in between.  The data is transferred at once.  `ComputeLatency` only says when the interrupt is:
  here it comes at any later time.
* A failed `ASSERT` of the disk stops the machine.
* Requests are numbered.  The fields after `aborted` are history: they are written, and never read.

`request_readSector` and `request_writeSector` say that a request does to the disk and to the buffer
what `readSector` and `writeSector` of the file system do.
-/

namespace Nachos

open ByteMemory Transition Function

/-- Where a thread is in `ReadSector` or `WriteSector`. -/
inductive DiskCode
  | outside
  -- in `lock->Acquire()`; the request that comes next
  | locking (write : Bool) (sectorNumber : ℤ)
  -- past the request; in `semaphore->P()`
  | waiting (id : ℕ)
  -- past `semaphore->P()`; in `lock->Release()`
  | unlocking (id : ℕ)
  deriving DecidableEq, Repr

/-- The `ASSERT`s of `ReadRequest` and `WriteRequest`. -/
inductive DiskAssert
  | notActive
  | sectorRange
  deriving DecidableEq, Repr

/-- `class SynchDisk`, its lock and its disk, and where the threads are. -/
structure DiskState where
  lock : LockState
  semaphore : Semaphore
  active : Bool
  disk : Mem
  -- the completions that the interrupt has been scheduled for
  pending : List ℕ
  code : ℕ → DiskCode
  -- the buffers of the threads
  data : ℕ → Mem
  aborted : Option DiskAssert
  numRequests : ℕ
  handled : List ℕ
  returned : List ℕ

/-- The steps. -/
inductive DiskEvent
  | call (t : ℕ) (write : Bool) (sectorNumber : ℤ) (data : Mem)
  | lock (e : LockEvent)
  | request (t : ℕ) (write : Bool) (sectorNumber : ℤ)
  | semP (t id : ℕ)
  | done (t id : ℕ)
  | interrupt (id : ℕ)

/-- The bytes of a request are transferred: the disk and the buffer after it. -/
def diskTransfer (write : Bool) (sectorNumber : ℕ) (disk data : Mem) : Mem × Mem :=
  if write then
    (copy data SectorSize disk (SectorSize * sectorNumber), data)
  else (disk, copy (sectorAt disk sectorNumber) SectorSize data 0)

/-- `Disk::ReadRequest` and `Disk::WriteRequest`, by thread `t`. -/
def DiskState.diskRequest (s : DiskState) (t : ℕ) (write : Bool) (sectorNumber : ℤ) : DiskState :=
  if s.active then { s with aborted := some .notActive }
  else if 0 ≤ sectorNumber ∧ sectorNumber < NumSectors then
    { s with
      disk := (diskTransfer write sectorNumber.toNat s.disk (s.data t)).1
      data := update s.data t
        (diskTransfer write sectorNumber.toNat s.disk (s.data t)).2
      active := true
      pending := s.pending ++ [s.numRequests]
      code := update s.code t (.waiting s.numRequests)
      numRequests := s.numRequests + 1 }
  else { s with aborted := some .sectorRange }

namespace DiskEvent

/-- Which statements of the lock a thread may execute. -/
def lockAllowed (e : LockEvent) : DiskCode → Bool
  | .locking _ _ => e.ofAcquire
  | .unlocking _ => !e.ofAcquire
  | _ => false

/-- When a step can be taken. -/
def enabled (s : DiskState) : DiskEvent → Prop
  | call t _ _ _ => s.code t = .outside
  | lock e => e.enabled s.lock ∧ lockAllowed e (s.code e.thread) = true
  | request t write sectorNumber =>
    s.code t = .locking write sectorNumber ∧ s.lock.code t = .holds
  | semP t id => s.code t = .waiting id ∧ t ∉ s.semaphore.queue
  | done t id => s.code t = .unlocking id ∧ s.lock.code t = .outside
  | interrupt id => id ∈ s.pending

instance decidableEnabled (s : DiskState) (e : DiskEvent) : Decidable (e.enabled s) := by
  cases e <;> unfold enabled <;> infer_instance

/-- Take a step. -/
@[simp] def next (s : DiskState) : DiskEvent → DiskState
  | call t write sectorNumber data => { s with
      code := update s.code t (.locking write sectorNumber)
      data := update s.data t data }
  | lock e => { s with lock := e.next s.lock }
  | request t write sectorNumber => s.diskRequest t write sectorNumber
  | semP t id => { s with
      semaphore := (s.semaphore.tryP t).2
      code := if (s.semaphore.tryP t).1 then update s.code t (.unlocking id) else s.code }
  | done t id => { s with
      code := update s.code t .outside
      returned := s.returned ++ [id] }
  -- `HandleInterrupt`, and in it `RequestDone`
  | interrupt id => { s with
      active := false
      semaphore := s.semaphore.postV
      pending := s.pending.erase id
      handled := s.handled ++ [id] }

end DiskEvent

/-- One step of one thread or of the disk; after a failed `ASSERT` there is none. -/
def DiskStep (s : DiskState) (e : DiskEvent) (s' : DiskState) : Prop :=
  (s.aborted = none ∧ e.enabled s) ∧ s' = e.next s

/-- `SynchDisk::SynchDisk`. -/
def DiskInit (s : DiskState) : Prop :=
  ∃ lock disk data, LockInit lock ∧
    s = ⟨lock, ⟨0, []⟩, false, disk, [], fun _ => .outside, data, none, 0, [], []⟩

/-- The states of all runs. -/
def DiskReach (s : DiskState) : Prop := Reach DiskInit DiskStep s

variable {s s' : DiskState}

theorem DiskState.diskRequest_lock (t : ℕ) (write : Bool) (sectorNumber : ℤ) :
    (s.diskRequest t write sectorNumber).lock = s.lock := by
  unfold diskRequest
  split_ifs <;> rfl

theorem DiskReach.lock (h : DiskReach s) : LockReach s.lock := by
  refine Reach.simulation DiskState.lock ?_ (fun s e s' _ hst => ?_) h
  · rintro s ⟨lock, disk, data, hlock, rfl⟩
    exact hlock
  · obtain ⟨⟨-, hen⟩, rfl⟩ := hst
    cases e with
    | lock e => exact Or.inr ⟨e, hen.1, rfl⟩
    | request t write sectorNumber => exact Or.inl (DiskState.diskRequest_lock ..)
    | _ => exact Or.inl rfl

/-! ### The requests of the file system -/

/-- A request to read does what `readSector` does. -/
theorem request_readSector {t : ℕ} {sectorNumber : ℤ} (hactive : s.active = false)
    (hrange : 0 ≤ sectorNumber ∧ sectorNumber < NumSectors) (heap : ℕ → Mem) :
    readSector sectorNumber (s.data t) 0 ⟨s.disk, heap⟩ =
      .ok ((s.diskRequest t false sectorNumber).data t,
        ⟨(s.diskRequest t false sectorNumber).disk, heap⟩) := by
  unfold readSector DiskState.diskRequest
  rw [if_pos hrange, if_neg (by simp [hactive]), if_pos hrange]
  simp [diskTransfer]

/-- A request to write does what `writeSector` does. -/
theorem request_writeSector {t : ℕ} {sectorNumber : ℤ} (hactive : s.active = false)
    (hrange : 0 ≤ sectorNumber ∧ sectorNumber < NumSectors) (heap : ℕ → Mem) :
    writeSector sectorNumber (s.data t) 0 ⟨s.disk, heap⟩ =
      .ok ((), ⟨(s.diskRequest t true sectorNumber).disk, heap⟩) := by
  unfold writeSector DiskState.diskRequest
  rw [if_pos hrange, if_neg (by simp [hactive]), if_pos hrange]
  simp [diskTransfer]

/-! ### The invariant -/

/-- No request has been made that has not been waited for. -/
structure DiskIdle (s : DiskState) : Prop where
  nobody : ∀ t id, s.code t ≠ .waiting id
  inactive : s.active = false
  pending : s.pending = []
  semaphore : s.semaphore = ⟨0, []⟩

/-- Thread `t` waits for request `id`, whose interrupt is to come. -/
structure DiskBusy (s : DiskState) (t id : ℕ) : Prop where
  waits : s.code t = .waiting id
  active : s.active = true
  pending : s.pending = [id]
  zero : s.semaphore.value = 0
  queue : s.semaphore.queue = [] ∨ s.semaphore.queue = [t]

/-- Thread `t` waits for request `id`, whose interrupt has come. -/
structure DiskReady (s : DiskState) (t id : ℕ) : Prop where
  waits : s.code t = .waiting id
  inactive : s.active = false
  pending : s.pending = []
  semaphore : s.semaphore = ⟨1, []⟩
  handled : id ∈ s.handled

/-- The invariant. -/
structure DiskInv (s : DiskState) : Prop where
  holds : ∀ t id, s.code t = .waiting id → s.lock.code t = .holds
  phase : DiskIdle s ∨ ∃ t id, DiskBusy s t id ∨ DiskReady s t id
  served : ∀ t id, s.code t = .unlocking id → id ∈ s.handled
  returned : ∀ id ∈ s.returned, id ∈ s.handled
  once : s.handled ++ s.pending = List.range s.numRequests
  notActive : s.aborted ≠ some .notActive

namespace DiskInv

open Update

variable {t id : ℕ}

/-- Nobody waits while a thread has the lock and does not. -/
theorem idle (h : DiskInv s) (hl : LockInv s.lock) (hold : s.lock.code t = .holds)
    (ht : ∀ id, s.code t ≠ .waiting id) : DiskIdle s := by
  refine h.phase.resolve_right ?_
  rintro ⟨u, id, hu⟩
  have hwaits : s.code u = .waiting id := by
    rcases hu with hu | hu
    · exact hu.waits
    · exact hu.waits
  obtain rfl := hl.holds_unique (h.holds u id hwaits) hold
  exact ht id hwaits

/-- The thread that waits is the one with the lock. -/
theorem waits (h : DiskInv s) (hl : LockInv s.lock) (ht : s.code t = .waiting id) :
    DiskBusy s t id ∨ DiskReady s t id := by
  rcases h.phase with hidle | ⟨u, id', hu⟩
  · exact absurd ht (hidle.nobody t id)
  have hwaits : s.code u = .waiting id' := by
    rcases hu with hu | hu
    · exact hu.waits
    · exact hu.waits
  obtain rfl := hl.holds_unique (h.holds u id' hwaits) (h.holds t id ht)
  rw [ht] at hwaits
  cases hwaits
  exact hu

/-- A thread that does not wait goes on to where it does not wait. -/
theorem goto (h : DiskInv s) {p : DiskCode} {returned : List ℕ} (data : ℕ → Mem)
    (ht : ∀ id, s.code t ≠ .waiting id) (hp : ∀ id, p ≠ .waiting id)
    (hserved : ∀ id, p ≠ .unlocking id) (hret : ∀ id ∈ returned, id ∈ s.handled) :
    DiskInv { s with code := update s.code t p, data := data, returned := returned } := by
  refine ⟨fun u id hu => ?_, ?_, fun u id hu => ?_, hret, h.once, h.notActive⟩
  · exact h.holds u id (of_update_eq hu (hp id)).2
  · rcases h.phase with hi | ⟨u, id, hb | hr⟩
    · refine Or.inl ⟨fun u id hu => ?_, hi.inactive, hi.pending, hi.semaphore⟩
      exact hi.nobody u id (of_update_eq hu (hp id)).2
    · exact Or.inr ⟨u, id, Or.inl ⟨update_eq_of hb.waits (ht id), hb.active, hb.pending, hb.zero,
        hb.queue⟩⟩
    · exact Or.inr ⟨u, id, Or.inr ⟨update_eq_of hr.waits (ht id), hr.inactive, hr.pending,
        hr.semaphore, hr.handled⟩⟩
  · exact h.served u id (of_update_eq hu (hserved id)).2

/-- A statement of the lock. -/
theorem lockStep (h : DiskInv s) {e : LockEvent}
    (ha : DiskEvent.lockAllowed e (s.code e.thread) = true) :
    DiskInv { s with lock := e.next s.lock } := by
  refine ⟨fun u id hu => ?_, ?_, h.served, h.returned, h.once, h.notActive⟩
  · have hne : u ≠ e.thread := by
      rintro rfl
      rw [hu] at ha
      cases ha
    exact (LockEvent.next_code_of_ne hne).trans (h.holds u id hu)
  · rcases h.phase with hi | ⟨u, id, hb | hr⟩
    · exact Or.inl ⟨hi.nobody, hi.inactive, hi.pending, hi.semaphore⟩
    · exact Or.inr ⟨u, id, Or.inl ⟨hb.waits, hb.active, hb.pending, hb.zero, hb.queue⟩⟩
    · exact Or.inr ⟨u, id, Or.inr ⟨hr.waits, hr.inactive, hr.pending, hr.semaphore, hr.handled⟩⟩

/-- A request is made while the disk is idle. -/
theorem request (h : DiskInv s) (hl : LockInv s.lock) {write : Bool} {sectorNumber : ℤ}
    (ht : s.code t = .locking write sectorNumber) (hold : s.lock.code t = .holds) :
    DiskInv (s.diskRequest t write sectorNumber) := by
  have hi := h.idle hl hold (by simp [ht])
  unfold DiskState.diskRequest
  rw [if_neg (by simp [hi.inactive])]
  split_ifs
  · refine ⟨fun u id hu => ?_, Or.inr ⟨t, s.numRequests, Or.inl ⟨update_self .., rfl,
      ?_, ?_, Or.inl ?_⟩⟩, fun u id hu => ?_, h.returned, ?_, h.notActive⟩
    · rcases update_cases hu with ⟨rfl, -⟩ | ⟨-, hu⟩
      · exact hold
      · exact h.holds u id hu
    · simp [hi.pending]
    · simp [hi.semaphore]
    · simp [hi.semaphore]
    · exact h.served u id (of_update_eq hu (by simp)).2
    · dsimp only
      rw [List.range_succ, ← h.once, List.append_assoc]
  · exact ⟨h.holds, Or.inl ⟨hi.nobody, hi.inactive, hi.pending, hi.semaphore⟩, h.served,
      h.returned, h.once, by simp⟩

/-- One pass through the loop of `semaphore->P()`. -/
theorem semP (h : DiskInv s) (hl : LockInv s.lock) (ht : s.code t = .waiting id)
    (hq : t ∉ s.semaphore.queue) : DiskInv ((DiskEvent.semP t id).next s) := by
  rcases h.waits hl ht with hb | hr
  · -- it goes to sleep
    have hempty : s.semaphore.queue = [] := hb.queue.resolve_right fun he => hq (by simp [he])
    simp only [DiskEvent.next, Semaphore.tryP_of_zero hb.zero]
    refine ⟨h.holds, Or.inr ⟨t, id, Or.inl ⟨ht, hb.active, hb.pending, hb.zero, Or.inr ?_⟩⟩,
      h.served, h.returned, h.once, h.notActive⟩
    simp [hempty]
  · -- its interrupt has come
    have hne : s.semaphore.value ≠ 0 := by simp [hr.semaphore]
    simp only [DiskEvent.next, Semaphore.tryP_of_ne hne]
    refine ⟨fun u id' hu => ?_, Or.inl ⟨fun u id' hu => ?_, hr.inactive, hr.pending,
      by simp [hr.semaphore]⟩,
      fun u id' hu => ?_, h.returned, h.once, h.notActive⟩
    · exact h.holds u id' (of_update_eq hu (by simp)).2
    · obtain ⟨hut, hu⟩ := of_update_eq hu (by simp)
      exact hut (hl.holds_unique (h.holds u id' hu) (h.holds t id ht))
    · rcases update_cases hu with ⟨-, heq⟩ | ⟨-, hu⟩
      · cases heq
        exact hr.handled
      · exact h.served u id' hu

/-- The interrupt of the request. -/
theorem interrupt (h : DiskInv s) (hid : id ∈ s.pending) :
    DiskInv ((DiskEvent.interrupt id).next s) := by
  have hgrow : ∀ {x}, x ∈ s.handled → x ∈ s.handled ++ [id] := List.mem_append_left _
  rcases h.phase with hi | ⟨t, id', hb | hr⟩
  · rw [hi.pending] at hid
    cases hid
  · have hid' : id = id' := by
      rw [hb.pending] at hid
      exact List.mem_singleton.1 hid
    subst hid'
    have honce := h.once
    rw [hb.pending] at honce
    refine ⟨h.holds, Or.inr ⟨t, id, Or.inr ⟨hb.waits, rfl, ?_, ?_, by simp⟩⟩,
      fun u x hu => hgrow (h.served u x hu), fun x hx => hgrow (h.returned x hx), ?_, h.notActive⟩
    · simp [hb.pending]
    · rcases hb.queue with hq | hq <;> simp [hb.zero, hq]
    · simp [hb.pending, honce]
  · rw [hr.pending] at hid
    cases hid

theorem step {e : DiskEvent} (h : DiskInv s) (hl : LockInv s.lock) (hst : DiskStep s e s') :
    DiskInv s' := by
  obtain ⟨⟨-, hen⟩, rfl⟩ := hst
  cases e with
  | call t write sectorNumber data =>
    have ht : s.code t = .outside := hen
    exact h.goto _ (by simp [ht]) (by simp) (by simp) h.returned
  | lock e => exact h.lockStep hen.2
  | request t write sectorNumber => exact h.request hl hen.1 hen.2
  | semP t id => exact h.semP hl hen.1 hen.2
  | done t id =>
    obtain ⟨ht, -⟩ := hen
    refine h.goto s.data (by simp [ht]) (by simp) (by simp) fun x hx => ?_
    rcases List.mem_append.1 hx with hx | hx
    · exact h.returned x hx
    · rw [List.mem_singleton.1 hx]
      exact h.served t id ht
  | interrupt id => exact h.interrupt hen

theorem reach (h : DiskReach s) : DiskInv s := by
  refine Reach.invariant_of (J := fun s => LockInv s.lock)
    (fun s hs => DiskReach.lock hs |>.inv) ?_ (fun s e s' hl hi hst => hi.step hl hst) h
  rintro s ⟨lock, disk, data, -, rfl⟩
  exact ⟨by simp, Or.inl ⟨by simp, rfl, rfl, rfl⟩, by simp, by simp, rfl, by simp⟩

/-- What the disk has pending, by what `active` says. -/
theorem pending_eq (h : DiskInv s) :
    (s.active = true → ∃ id, s.pending = [id]) ∧ (s.active = false → s.pending = []) := by
  rcases h.phase with hi | ⟨t, id, hb | hr⟩
  · simp [hi.inactive, hi.pending]
  · simp [hb.active, hb.pending]
  · simp [hr.inactive, hr.pending]

/-- An interrupt that nobody has waited for yet belongs to the thread that has the lock. -/
theorem holds_of_value (h : DiskInv s) (hv : s.semaphore.value ≠ 0) :
    ∃ t, s.lock.code t = .holds := by
  rcases h.phase with hi | ⟨t, id, hb | hr⟩
  · exact absurd (by rw [hi.semaphore]) hv
  · exact absurd hb.zero hv
  · exact ⟨t, h.holds t id hr.waits⟩

end DiskInv

/-! ### The results -/

/-- The lock is free: `Release` has cleared the holder, or nobody is past `mutex->P()`. -/
def LockState.Free (s : LockState) : Prop := s.lockHolder = none ∨ s.mutex.value = 1

theorem LockInv.not_free {s : LockState} (h : LockInv s) {t : ℕ} (ht : s.code t = .holds) :
    ¬ s.Free := by
  have hin : (s.code t).Inside := by simp [ht]
  rintro (hnone | hone)
  · rw [(h.holder t).2 (Or.inl ht)] at hnone
    cases hnone
  · rcases h.exclusive with ⟨-, hno⟩ | ⟨hzero, -⟩
    · exact hno t hin
    · rw [hzero] at hone
      cases hone

/-- **Requests never overlap.**  In every state of every run `ASSERT(!active)` has not failed; the
calls that are past `semaphore->P()` and those that have returned have had the interrupt of their
own request; one completion is pending while the disk is active, none otherwise; the semaphore is 0
while the lock is free; and every request has had one interrupt, in order, or waits for it. -/
theorem disk_requests_apart (h : DiskReach s) :
    s.aborted ≠ some .notActive ∧
      (∀ t id, s.code t = .unlocking id → id ∈ s.handled) ∧ (∀ id ∈ s.returned, id ∈ s.handled) ∧
      (s.active = true → ∃ id, s.pending = [id]) ∧ (s.active = false → s.pending = []) ∧
      (s.lock.Free → s.semaphore.value = 0) ∧
      s.handled ++ s.pending = List.range s.numRequests := by
  have hi := DiskInv.reach h
  refine ⟨hi.notActive, hi.served, hi.returned, hi.pending_eq.1, hi.pending_eq.2, fun hfree => ?_,
    hi.once⟩
  by_contra hv
  obtain ⟨t, ht⟩ := hi.holds_of_value hv
  exact h.lock.inv.not_free ht hfree

/-- A disk of zeros that nobody uses. -/
def newSynchDisk : DiskState :=
  ⟨⟨none, ⟨1, []⟩, fun _ => .outside⟩, ⟨0, []⟩, false, fun _ => 0, [], fun _ => .outside,
    fun _ _ => 0, none, 0, [], []⟩

/-- Thread 0 writes a sector and returns.  Thread 1, which waits for the lock at first, reads it and
sleeps until its interrupt. -/
def twoRequests : List DiskEvent :=
  [.call 0 true 5 fun _ => 7, .call 1 false 5 fun _ => 0, .lock (.acquire 0), .lock (.semP 0),
    .lock (.setHolder 0), .lock (.acquire 1), .lock (.semP 1), .request 0 true 5, .semP 0 0,
    .interrupt 0, .semP 0 0, .lock (.release 0), .lock (.clearHolder 0), .lock (.semV 0),
    .done 0 0, .lock (.semP 1), .lock (.setHolder 1), .request 1 false 5, .semP 1 1]

theorem disk_requests_apart_two : ∃ s : DiskState, DiskReach s ∧ s.data 1 0 = 7 ∧
    s.returned = [0] ∧ 0 ∈ s.handled ∧ s.active = true ∧ ∃ id, s.pending = [id] := by
  have hinit : DiskInit newSynchDisk := ⟨_, _, _, rfl, rfl⟩
  obtain ⟨s, hr, hdata, hret, hactive⟩ : ∃ s, DiskReach s ∧ s.data 1 0 = 7 ∧ s.returned = [0] ∧
      s.active = true :=
    Reach.exists_run
      (exec_step
        (fun (s : DiskState) (e : DiskEvent) => s.aborted = none ∧ e.enabled s) DiskEvent.next)
      (.init hinit) twoRequests (by decide +kernel)
  obtain ⟨-, -, hhandled, hpending, -⟩ := disk_requests_apart hr
  exact ⟨s, hr, hdata, hret, hhandled 0 (by simp [hret]), hactive, hpending hactive⟩

end Nachos
