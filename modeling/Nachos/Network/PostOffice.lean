import Nachos.Network.Packet
import Nachos.Threads.SynchList

/-!
# The post office

How mail is delivered (`network/post.cc`, `machine/network.cc`): `Network::CheckPktAvail` and
`Network::Receive`, the thread of `PostOffice::PostalDelivery`, and any number of threads in
`PostOffice::Receive`.

* A socket delivers whole packets in order, and every one of them is a `Packet`.
* `CheckPktAvail` is an interrupt handler, and `Network::Receive` never enables interrupts: nobody
  runs in between, and each is one step.
* Every box is a list of `Nachos.Threads.SynchList`, of pointers to messages.  The messages are
  numbered in the order of their `new`, and the block of a message is not used for another one.
* A failed `ASSERT` stops the machine.
* The fields after `aborted` are history: they are written, and never read.
-/

namespace Nachos

open ByteMemory Transition Function

/-- Where the postal worker is in the loop of `PostalDelivery`. -/
inductive WorkerCode
  -- in `messageAvailable->P()`; past it; past `network->Receive(buffer)`; in `Append` for a box
  | inP
  | gotP
  | received (pktHdr : PacketHeader)
  | putting (b : ℕ)
  deriving DecidableEq, Repr

/-- Where a thread is in `Receive`. -/
inductive GetCode
  -- in `Remove` for a box; past `list->Remove()`
  | outside
  | removing (b : ℕ)
  | holding (b : ℕ) (mail : Option ℕ)
  deriving DecidableEq, Repr

/-- The box that a thread uses. -/
@[simp] def GetCode.box : GetCode → Option ℕ
  | outside => none
  | removing b => some b
  | holding b _ => some b

/-- What a call of `Receive` has returned. -/
structure Receipt where
  thread : ℕ
  box : ℕ
  mail : ℕ
  pktHdr : PacketHeader
  mailHdr : MailHeader
  data : Mem

/-- `class PostOffice` and its `class Network`, and where the threads are. -/
structure PostState (po : Office) where
  socket : List (Packet po)
  inHdr : PacketHeader
  inbox : Mem
  messageAvailable : Semaphore
  worker : WorkerCode
  buffer : Mem
  mails : List Mail
  boxes : ℕ → SynchState ℕ
  code : ℕ → GetCode
  aborted : Option PostAssert
  -- the packets that `CheckPktAvail` has read, and what `Network::Receive` has returned
  arrived : List (Packet po)
  taken : List (PacketHeader × Mem)
  -- how many messages `list->Append` has put into boxes
  numPut : ℕ
  returned : List Receipt

/-- The steps. -/
inductive PostEvent (po : Office)
  | arrive (p : Packet po)
  | poll
  | semP
  | receive
  | put (pktHdr : PacketHeader) (block : Mem)
  | call (t : ℕ) (box : ℤ)
  | list (b : ℕ) (e : SynchEvent ℕ)
  | get (t b : ℕ) (mail : Option ℕ) (data : Mem)

variable {po : Office}

namespace PostState

/-- `Network::CheckPktAvail`, and in it `IncomingPacket`. -/
def checkPktAvail (s : PostState po) : PostState po :=
  if s.inHdr.length ≠ 0 then s
  else match s.socket with
  | [] => s
  | p :: socket =>
    let hdr := PacketHeader.ofBytes p.wire
    if hdr.toAddr = po.ident ∧ hdr.length.toNat ≤ MaxPacketSize then
      { s with
        socket := socket
        inHdr := hdr
        inbox := copy (fun k => p.wire (HeaderSize + k)) hdr.length.toNat s.inbox 0
        messageAvailable := s.messageAvailable.postV
        arrived := s.arrived ++ [p] }
    else { s with aborted := some .arrival }

/-- What `Network::Receive` copies into the buffer of its caller. -/
def received (s : PostState po) : Mem :=
  if s.inHdr.length ≠ 0 then copy s.inbox s.inHdr.length.toNat s.buffer 0 else s.buffer

/-- `pktHdr = network->Receive(buffer)`. -/
def receive (s : PostState po) : PostState po := { s with
  inHdr := { s.inHdr with length := 0 }
  buffer := s.received
  worker := .received s.inHdr
  taken := s.taken ++ [(s.inHdr, s.received)] }

/-- The rest of the turn of `PostalDelivery`, up to the call of `Append`. -/
def put (s : PostState po) (pktHdr : PacketHeader) (block : Mem) : PostState po :=
  let mailHdr := MailHeader.ofBytes s.buffer
  if mailHdr.BoxInRange po.numBoxes then
    if mailHdr.length.toNat ≤ MaxMailSize then
      match newMail pktHdr mailHdr (fun k => s.buffer (HeaderSize + k)) block with
      | .ok mail =>
        let b := mailHdr.toBox.toInt.toNat
        { s with
          mails := s.mails ++ [mail]
          boxes := update s.boxes b
            ((SynchEvent.append po.worker s.mails.length).next (s.boxes b))
          worker := .putting b }
      | .error e => { s with aborted := some e }
    else { s with aborted := some .deliveryLength }
  else { s with aborted := some .deliveryBox }

/-- `PostOffice::Receive`, up to the call of `Remove`. -/
def call (s : PostState po) (t : ℕ) (box : ℤ) : PostState po :=
  if 0 ≤ box ∧ box < po.numBoxes then
    { s with
      boxes := update s.boxes box.toNat
        ((SynchEvent.remove t).next (s.boxes box.toNat))
      code := update s.code t (.removing box.toNat) }
  else { s with aborted := some .receiveBox }

/-- Where the postal worker is after a step in a box. -/
@[simp] def workerAfter (s : PostState po) : SynchEvent ℕ → WorkerCode
  | .done t => if t = po.worker then .inP else s.worker
  | _ => s.worker

/-- Where the threads in `Receive` are after a step in a box. -/
@[simp] def codeAfter (s : PostState po) (b : ℕ) : SynchEvent ℕ → ℕ → GetCode
  | .take t => update s.code t (.holding b (s.boxes b).list.head?)
  | _ => s.code

/-- How many messages are in boxes after a step in a box. -/
def numPutAfter (s : PostState po) : SynchEvent ℕ → ℕ
  | .listAppend _ _ => s.numPut + 1
  | _ => s.numPut

/-- A step in `Append` or `Remove` for a box. -/
@[simp] def list (s : PostState po) (b : ℕ) (e : SynchEvent ℕ) : PostState po := { s with
  boxes := update s.boxes b (e.next (s.boxes b))
  worker := s.workerAfter e
  code := s.codeAfter b e
  numPut := s.numPutAfter e }

/-- `Get` after `Remove`, into the buffer `data`, and the end of `Receive`. -/
def get (s : PostState po) (t b : ℕ) (pointer : Option ℕ) (data : Mem) : PostState po :=
  match pointer with
  | none => { s with aborted := some .noMail }
  | some i =>
    match s.mails[i]? with
    | none => { s with aborted := some .noMail }
    | some mail =>
      if mail.mailHdr.length.toNat ≤ MaxMailSize then
        { s with
          code := update s.code t .outside
          returned := s.returned ++ [⟨t, b, i, mail.pktHdr, mail.mailHdr,
            copy mail.data mail.mailHdr.length.toNat data 0⟩] }
      else { s with aborted := some .receiveLength }

end PostState

namespace PostEvent

/-- Who takes steps in a box: the postal worker in `Append`, the others in `Receive`. -/
def inBox (s : PostState po) (b t : ℕ) : Prop :=
  if t = po.worker then s.worker = .putting b else (s.code t).box = some b
  deriving Decidable

/-- When a step can be taken. -/
def enabled (s : PostState po) : PostEvent po → Prop
  | arrive _ => True
  | poll => True
  | semP => s.worker = .inP ∧ po.worker ∉ s.messageAvailable.queue
  | receive => s.worker = .gotP
  | put pktHdr _ => s.worker = .received pktHdr
  | call t _ => t ≠ po.worker ∧ s.code t = .outside
  | list b e => (e.enabled (s.boxes b) ∧ e.isCall = false) ∧ inBox s b e.thread
  | get t b mail _ => s.code t = .holding b mail ∧ (s.boxes b).code t = .outside

instance decidableEnabled (s : PostState po) (e : PostEvent po) : Decidable (e.enabled s) := by
  cases e <;> unfold enabled <;> infer_instance

/-- Take a step. -/
@[simp] def next (s : PostState po) : PostEvent po → PostState po
  | arrive p => { s with socket := s.socket ++ [p] }
  | poll => s.checkPktAvail
  | semP => { s with
      messageAvailable := (s.messageAvailable.tryP po.worker).2
      worker := if (s.messageAvailable.tryP po.worker).1 then .gotP else s.worker }
  | receive => s.receive
  | put pktHdr block => s.put pktHdr block
  | call t box => s.call t box
  | list b e => s.list b e
  | get t b mail data => s.get t b mail data

end PostEvent

/-- One step; after a failed `ASSERT` there is none. -/
def PostStep (s : PostState po) (e : PostEvent po) (s' : PostState po) : Prop :=
  (s.aborted = none ∧ e.enabled s) ∧ s' = e.next s

/-- `PostOffice::PostOffice` and `Network::Network`. -/
def PostInit (s : PostState po) : Prop :=
  ∃ inHdr inbox buffer boxes, inHdr.length = 0 ∧ (∀ b, SynchInit (boxes b)) ∧
    s = ⟨[], inHdr, inbox, ⟨0, []⟩, .inP, buffer, [], boxes, fun _ => .outside, none, [], [], 0, []⟩

/-- The states of all runs. -/
def PostReach (s : PostState po) : Prop := Reach PostInit PostStep s

variable {s s' : PostState po}

/-! ### Who is where -/

/-- The postal worker is in no function of a list but the `Append` of the box it is putting a
message into, and the others are in none but the `Remove` of the box they receive from. -/
structure PostRoles (s : PostState po) : Prop where
  append : ∀ b t, ((s.boxes b).code t).InAppend → t = po.worker ∧ s.worker = .putting b
  remove : ∀ b t, ((s.boxes b).code t).InRemove → t ≠ po.worker ∧ (s.code t).box = some b
  worker : s.code po.worker = .outside

namespace PostRoles

variable {b t : ℕ}

theorem worker_outside (h : PostRoles s) (hw : s.worker ≠ .putting b) :
    (s.boxes b).code po.worker = .outside := by
  rcases SynchCode.outside_or ((s.boxes b).code po.worker) with ho | ha | hr
  · exact ho
  · exact absurd (h.append b _ ha).2 hw
  · exact absurd rfl (h.remove b _ hr).1

theorem thread_outside (h : PostRoles s) (ht : t ≠ po.worker) (hb : (s.code t).box ≠ some b) :
    (s.boxes b).code t = .outside := by
  rcases SynchCode.outside_or ((s.boxes b).code t) with ho | ha | hr
  · exact ho
  · exact absurd (h.append b _ ha).1 ht
  · exact absurd (h.remove b _ hr).2 hb

/-- The postal worker goes on, outside of `Append`. -/
theorem workerStep (h : PostRoles s) (hw : ∀ b, s.worker ≠ .putting b)
    (w : WorkerCode) : PostRoles { s with worker := w } :=
  { h with append := fun b t hin => absurd (h.append b t hin).2 (hw b) }

end PostRoles

/-! ### What the steps do -/

theorem PostEvent.inBox_worker {b : ℕ} (h : inBox s b po.worker) : s.worker = .putting b := by
  unfold inBox at h
  rwa [if_pos rfl] at h

theorem PostEvent.inBox_thread {b t : ℕ} (h : inBox s b t) (ht : t ≠ po.worker) :
    (s.code t).box = some b := by
  unfold inBox at h
  rwa [if_neg ht] at h

/-- `CheckPktAvail` does nothing, or it reads a packet into the empty buffer: the `ASSERT` holds. -/
theorem PostState.checkPktAvail_cases (s : PostState po) : s.checkPktAvail = s ∨
    ∃ p socket, s.socket = p :: socket ∧ s.inHdr.length = 0 ∧ s.checkPktAvail = { s with
      socket := socket
      inHdr := p.letter.header
      inbox := copy (fun k => p.wire (HeaderSize + k)) p.letter.header.length.toNat
        s.inbox 0
      messageAvailable := s.messageAvailable.postV
      arrived := s.arrived ++ [p] } := by
  unfold checkPktAvail
  split_ifs with hlen
  · exact Or.inl rfl
  · rcases hs : s.socket with - | ⟨p, socket⟩
    · exact Or.inl rfl
    · refine Or.inr ⟨p, socket, rfl, not_not.1 hlen, ?_⟩
      dsimp only
      rw [p.ofBytes_wire, if_pos p.header_checked]

/-- What is read of a packet: its header, and the bytes after it. -/
structure Packet.Read (p : Packet po) (hdr : PacketHeader) (buffer : Mem) : Prop where
  hdr : hdr = p.letter.header
  buffer : p.InBuffer buffer

/-- A message that is put into a box: the `ASSERT`s hold. -/
theorem PostState.put_eq {p : Packet po} {hdr : PacketHeader} (h : p.Read hdr s.buffer)
    (block : Mem) : ∃ mail : Mail, p.Carried mail.pktHdr mail.mailHdr mail.data ∧
      s.put hdr block = { s with
        mails := s.mails ++ [mail]
        boxes := update s.boxes p.box
          ((SynchEvent.append po.worker s.mails.length).next (s.boxes p.box))
        worker := .putting p.box } := by
  have hnew : newMail hdr p.letter.mailHdr (fun k => s.buffer (HeaderSize + k)) block =
      .ok ⟨hdr, p.letter.mailHdr, copy (fun k => s.buffer (HeaderSize + k))
        p.letter.mailHdr.length.toNat block 0⟩ := if_pos p.size_le
  refine ⟨⟨hdr, p.letter.mailHdr, copy (fun k => s.buffer (HeaderSize + k))
    p.letter.mailHdr.length.toNat block 0⟩, ⟨h.hdr, rfl, fun k hk => ?_⟩, ?_⟩
  · have hk' : k < 0 + p.letter.mailHdr.length.toNat := by rwa [Nat.zero_add]
    dsimp only
    rw [copy_of_mem (Nat.zero_le k) hk', Nat.sub_zero, h.buffer.data hk]
  · have hlen : p.letter.mailHdr.length.toNat ≤ MaxMailSize := p.size_le
    unfold put
    dsimp only
    rw [h.buffer.mailHdr, if_pos p.boxInRange, if_pos hlen, hnew]
    rfl

/-- Whatever is in the buffer, the machine stops or a message goes to some box. -/
theorem PostState.put_cases (s : PostState po) (hdr : PacketHeader) (block : Mem) :
    (∃ a, s.put hdr block = { s with aborted := some a }) ∨
    ∃ mail b, s.put hdr block = { s with
      mails := s.mails ++ [mail]
      boxes := update s.boxes b
        ((SynchEvent.append po.worker s.mails.length).next (s.boxes b))
      worker := .putting b } := by
  unfold put
  dsimp only
  split_ifs
  · split
    · exact Or.inr ⟨_, _, rfl⟩
    · exact Or.inl ⟨_, rfl⟩
  · exact Or.inl ⟨_, rfl⟩
  · exact Or.inl ⟨_, rfl⟩

/-- `Receive` is called with the number of a box, or the machine stops. -/
theorem PostState.call_cases (s : PostState po) (t : ℕ) (box : ℤ) :
    s.call t box = { s with aborted := some .receiveBox } ∨
    ∃ b : ℕ, b < po.numBoxes ∧ s.call t box = { s with
      boxes := update s.boxes b ((SynchEvent.remove t).next (s.boxes b))
      code := update s.code t (.removing b) } := by
  unfold call
  split_ifs with hbox
  · exact Or.inr ⟨box.toNat, by omega, rfl⟩
  · exact Or.inl rfl

/-- A pointer to a message of at most `MaxMailSize` bytes is followed. -/
theorem PostState.get_eq {i : ℕ} {mail : Mail} (hmail : s.mails[i]? = some mail)
    (hlen : mail.mailHdr.length.toNat ≤ MaxMailSize) (t b : ℕ) (data : Mem) :
    s.get t b (some i) data = { s with
      code := update s.code t .outside
      returned := s.returned ++ [⟨t, b, i, mail.pktHdr, mail.mailHdr,
        copy mail.data mail.mailHdr.length.toNat data 0⟩] } := by
  unfold get
  simp only [hmail, if_pos hlen]

/-- `Get` changes no box, and where no thread but its own is; it aborts or returns. -/
theorem PostState.get_frame (s : PostState po) (t b : ℕ) (pointer : Option ℕ) (data : Mem) :
    ∃ code returned aborted, (code = s.code ∨ code = update s.code t .outside) ∧
      s.get t b pointer data =
        { s with code := code, returned := returned, aborted := aborted } := by
  unfold get
  split
  · exact ⟨_, _, _, Or.inl rfl, rfl⟩
  · split
    · exact ⟨_, _, _, Or.inl rfl, rfl⟩
    · split_ifs
      · exact ⟨_, _, _, Or.inr rfl, rfl⟩
      · exact ⟨_, _, _, Or.inl rfl, rfl⟩

/-- A step in one box moves one thread there. -/
theorem SynchEvent.boxes_code {boxes : ℕ → SynchState ℕ} {e : SynchEvent ℕ} {b c u : ℕ}
    (h : u ≠ e.thread ∨ c ≠ b) :
    (update boxes b (e.next (boxes b)) c).code u = (boxes c).code u := by
  rcases h with hu | hc
  · exact Update.map_update (fun box : SynchState ℕ => box.code u) (next_code_of_ne hu) c
  · rw [update_of_ne hc]

namespace PostRoles

variable {b t : ℕ}

/-- The postal worker calls `Append`. -/
theorem append_call (h : PostRoles s) (hw : ∀ b, s.worker ≠ .putting b) (i : ℕ)
    (mails : List Mail) :
    PostRoles { s with
      mails := mails
      boxes := update s.boxes b ((SynchEvent.append po.worker i).next (s.boxes b))
      worker := .putting b } := by
  refine ⟨fun c u hin => ?_, fun c u hin => ?_, h.worker⟩
  · by_cases hcu : u ≠ po.worker ∨ c ≠ b
    · rw [SynchEvent.boxes_code hcu] at hin
      exact absurd (h.append c u hin).2 (hw c)
    · rw [not_or, not_not, not_not] at hcu
      exact ⟨hcu.1, by rw [hcu.2]⟩
  · by_cases hcu : u ≠ po.worker ∨ c ≠ b
    · rw [SynchEvent.boxes_code hcu] at hin
      exact h.remove c u hin
    · rw [not_or, not_not, not_not] at hcu
      obtain ⟨rfl, rfl⟩ := hcu
      simp at hin

/-- A thread calls `Remove`. -/
theorem remove_call (h : PostRoles s) (ht : t ≠ po.worker) (hout : s.code t = .outside) :
    PostRoles { s with
      boxes := update s.boxes b ((SynchEvent.remove t).next (s.boxes b))
      code := update s.code t (.removing b) } := by
  have hnone : ∀ c, (s.boxes c).code t = .outside := fun c =>
    h.thread_outside ht (by simp [hout])
  refine ⟨fun c u hin => ?_, fun c u hin => ?_, ?_⟩
  · by_cases hu : u = t
    · subst hu
      by_cases hc : c = b
      · subst hc
        simp at hin
      · simp [hc, hnone] at hin
    · rw [SynchEvent.boxes_code (Or.inl hu)] at hin
      exact h.append c u hin
  · by_cases hu : u = t
    · subst hu
      refine ⟨ht, ?_⟩
      by_cases hc : c = b
      · simp [hc]
      · simp [hc, hnone] at hin
    · rw [SynchEvent.boxes_code (Or.inl hu)] at hin
      simpa [hu] using h.remove c u hin
  · exact (update_of_ne ht.symm ..).trans h.worker

/-- A step in a box. -/
theorem list_step (h : PostRoles s) {e : SynchEvent ℕ} (hen : e.enabled (s.boxes b))
    (he : e.isCall = false) (hin : PostEvent.inBox s b e.thread) : PostRoles (s.list b e) := by
  -- who was in a function of a list still is in it, or is outside
  have hback : ∀ c u,
      ((((s.list b e).boxes c).code u).InAppend → ((s.boxes c).code u).InAppend) ∧
      ((((s.list b e).boxes c).code u).InRemove → ((s.boxes c).code u).InRemove) := by
    intro c u
    by_cases hc : c = b
    · subst hc
      simp only [PostState.list, update_self]
      exact ⟨(SynchEvent.next_code hen he u).1, (SynchEvent.next_code hen he u).2.1⟩
    · simp [hc]
  refine ⟨fun c u hu => ?_, fun c u hu => ?_, ?_⟩
  · obtain ⟨rfl, hw⟩ := h.append c u ((hback c u).1 hu)
    refine ⟨rfl, ?_⟩
    cases e with
    | done t =>
      by_cases ht : t = po.worker
      · -- it has returned from the `Append` of the only box it was in
        subst ht
        have hb := PostEvent.inBox_worker hin
        rw [hw] at hb
        cases hb
        simp at hu
      · simpa [ht] using hw
    | _ => exact hw
  · obtain ⟨hne, hbox⟩ := h.remove c u ((hback c u).2 hu)
    refine ⟨hne, ?_⟩
    cases e with
    | take t =>
      by_cases hut : u = t
      · subst hut
        have hb : (s.code u).box = some b := PostEvent.inBox_thread hin hne
        rw [hbox] at hb
        cases hb
        simp
      · simpa [hut] using hbox
    | _ => exact hbox
  · cases e with
    | take t =>
      have htake : (s.boxes b).code t = .removeTake := hen
      have ht := (h.remove b t (by rw [htake]; trivial)).1
      simpa [ht.symm] using h.worker
    | _ => exact h.worker

theorem get_step (h : PostRoles s) {pointer : Option ℕ} (ht : s.code t = .holding b pointer)
    (hout : (s.boxes b).code t = .outside) (data : Mem) : PostRoles (s.get t b pointer data) := by
  obtain ⟨code, returned, aborted, hcode, heq⟩ := s.get_frame t b pointer data
  rw [heq]
  rcases hcode with rfl | rfl
  · exact { h with }
  · refine ⟨h.append, fun c u hu => ?_, ?_⟩
    · obtain ⟨hne, hbox⟩ := h.remove c u hu
      refine ⟨hne, ?_⟩
      have hut : u ≠ t := by
        rintro rfl
        rw [ht] at hbox
        cases hbox
        change ((s.boxes b).code u).InRemove at hu
        rw [hout] at hu
        exact hu
      exact (congrArg GetCode.box (update_of_ne hut ..)).trans hbox
    · have hne : po.worker ≠ t := by
        rintro rfl
        rw [h.worker] at ht
        cases ht
      exact (update_of_ne hne ..).trans h.worker

theorem step {e : PostEvent po} (h : PostRoles s) (hst : PostStep s e s') : PostRoles s' := by
  obtain ⟨⟨-, hen⟩, rfl⟩ := hst
  cases e with
  | arrive p => exact { h with }
  | poll =>
    rcases s.checkPktAvail_cases with heq | ⟨p, socket, -, -, heq⟩
    · exact (congrArg PostRoles heq).mpr h
    · exact (congrArg PostRoles heq).mpr { h with }
  | semP => exact { h.workerStep (by simp [hen.1]) _ with }
  | receive =>
    have hw : s.worker = .gotP := hen
    exact { h.workerStep (by simp [hw]) _ with }
  | put hdr block =>
    have hw : s.worker = .received hdr := hen
    rcases s.put_cases hdr block with ⟨a, heq⟩ | ⟨mail, b, heq⟩
    · exact (congrArg PostRoles heq).mpr { h with }
    · exact (congrArg PostRoles heq).mpr (h.append_call (by simp [hw]) _ _)
  | call t box =>
    rcases s.call_cases t box with heq | ⟨b, -, heq⟩
    · exact (congrArg PostRoles heq).mpr { h with }
    · exact (congrArg PostRoles heq).mpr (h.remove_call hen.1 hen.2)
  | list b e => exact h.list_step hen.1.1 hen.1.2 hen.2
  | get t b mail data => exact h.get_step hen.1 hen.2 data

end PostRoles

theorem PostReach.roles (h : PostReach s) : PostRoles s := by
  refine Reach.invariant ?_ (fun s e s' hs hst => hs.step hst) h
  rintro s ⟨inHdr, inbox, buffer, boxes, -, hboxes, rfl⟩
  have hout : ∀ b t, (boxes b).code t = .outside := by
    intro b t
    obtain ⟨cond, -, hb⟩ := hboxes b
    rw [hb]
  exact ⟨fun b t hin => by simp [hout] at hin, fun b t hin => by simp [hout] at hin, rfl⟩

theorem SynchStep.update {boxes : ℕ → SynchState ℕ} {c : ℕ} {e : SynchEvent ℕ}
    (hen : e.enabled (boxes c)) (b : ℕ) :
    update boxes c (e.next (boxes c)) b = boxes b ∨
      ∃ e', SynchStep (boxes b) e' (update boxes c (e.next (boxes c)) b) := by
  by_cases hb : b = c
  · subst hb
    rw [update_self]
    exact Or.inr ⟨e, hen, rfl⟩
  · exact Or.inl (update_of_ne hb ..)

/-- Every box goes through a run of its list. -/
theorem PostReach.box (h : PostReach s) (b : ℕ) : SynchReach (s.boxes b) := by
  refine Reach.simulation (fun s => s.boxes b) ?_ (fun s e s' hr hst => ?_) h
  · rintro s ⟨inHdr, inbox, buffer, boxes, -, hboxes, rfl⟩
    exact hboxes b
  · have hroles := PostReach.roles hr
    obtain ⟨⟨-, hen⟩, rfl⟩ := hst
    cases e with
    | poll =>
      left
      rcases s.checkPktAvail_cases with heq | ⟨p, socket, -, -, heq⟩
      · exact congrArg (fun s => s.boxes b) heq
      · exact congrArg (fun s => s.boxes b) heq
    | put hdr block =>
      have hw : s.worker = .received hdr := hen
      rcases s.put_cases hdr block with ⟨a, heq⟩ | ⟨mail, c, heq⟩
      · exact Or.inl (congrArg (fun s => s.boxes b) heq)
      · simp only [PostEvent.next, heq]
        exact SynchStep.update (e := .append po.worker s.mails.length)
          (hroles.worker_outside (by simp [hw])) b
    | call t box =>
      obtain ⟨ht, hout⟩ := hen
      rcases s.call_cases t box with heq | ⟨c, -, heq⟩
      · exact Or.inl (congrArg (fun s => s.boxes b) heq)
      · simp only [PostEvent.next, heq]
        exact SynchStep.update (e := .remove t)
          (hroles.thread_outside ht (by simp [hout])) b
    | list c e => exact SynchStep.update hen.1.1 b
    | get t c mail data =>
      obtain ⟨code, returned, aborted, -, heq⟩ := s.get_frame t c mail data
      exact Or.inl (congrArg (fun s => s.boxes b) heq)
    | _ => exact Or.inl rfl

end Nachos
