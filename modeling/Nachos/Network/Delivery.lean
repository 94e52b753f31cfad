import Nachos.Network.PostOffice

/-!
# Mail is delivered

What holds in every state of every run of the post office.

* `DeviceInv`: every packet that has been read is in the buffer of the device, or the postal worker
  has taken it, with its bytes.
* `DeliveryInv`: every packet that has been taken becomes the message with its number, and every
  message goes to its box, in order.
* `GetInv`: every message that has been removed from a box is with one thread, or one call of
  `Receive` has returned it.
-/

namespace Nachos

open ByteMemory Transition Function Update

variable {po : Office} {s s' : PostState po}

section lists

variable {α : Type*} {l : List α} {i : ℕ} {a x : α}

theorem getElem?_append_of_some (h : l[i]? = some x) (l' : List α) : (l ++ l')[i]? = some x :=
  (List.getElem?_append_left (List.getElem?_eq_some_iff.1 h).1).trans h

theorem getElem?_concat_cases (h : (l ++ [a])[i]? = some x) :
    l[i]? = some x ∨ i = l.length ∧ x = a := by
  by_cases hi : i < l.length
  · rw [List.getElem?_append_left hi] at h
    exact Or.inl h
  · have hlt := (List.getElem?_eq_some_iff.1 h).1
    rw [List.length_append, List.length_singleton] at hlt
    obtain rfl : i = l.length := by omega
    rw [List.getElem?_concat_length] at h
    exact Or.inr ⟨rfl, (Option.some.inj h).symm⟩

end lists

/-! ### The device -/

/-- The packets in the buffer of the device. -/
def PostState.buffered (s : PostState po) : ℕ := if s.inHdr.length = 0 then 0 else 1

/-- Past `messageAvailable->P()`, and the packet has not been taken. -/
@[simp] def WorkerCode.past : WorkerCode → ℕ
  | gotP => 1
  | _ => 0

/-- Every packet that has been read is in the buffer or has been taken from it. -/
structure DeviceInv (s : PostState po) : Prop where
  count : s.taken.length + s.buffered = s.arrived.length
  inbox : s.inHdr.length ≠ 0 → ∃ p : Packet po,
    s.arrived[s.taken.length]? = some p ∧ p.Read s.inHdr s.inbox
  taken : ∀ (i : ℕ) (x : PacketHeader × Mem), s.taken[i]? = some x → ∃ p : Packet po,
    s.arrived[i]? = some p ∧ p.Read x.1 x.2
  value : s.messageAvailable.value.toNat + s.worker.past = s.buffered
  queue : s.messageAvailable.queue = [] ∨ s.messageAvailable.queue = [po.worker] ∧
    s.worker = .inP ∧ s.messageAvailable.value = 0

namespace DeviceInv

/-- The postal worker goes on elsewhere. -/
theorem workerStep (h : DeviceInv s) {w : WorkerCode} (hpast : w.past = s.worker.past)
    (hinP : s.worker = .inP → w = .inP) : DeviceInv { s with worker := w } :=
  { h with
    value := (congrArg (s.messageAvailable.value.toNat + ·) hpast).trans h.value
    queue := h.queue.imp_right fun ⟨hq, hw, hv⟩ => ⟨hq, hinP hw, hv⟩ }

/-- A packet is read into the empty buffer. -/
theorem poll (h : DeviceInv s) : DeviceInv s.checkPktAvail := by
  rcases s.checkPktAvail_cases with heq | ⟨p, socket, -, hzero, heq⟩
  · rw [heq]
    exact h
  have hempty : s.buffered = 0 := if_pos hzero
  have hcount := h.count
  have hvalue := h.value
  rw [hempty] at hcount hvalue
  rw [heq]
  have hfull : PostState.buffered { s with
      socket := socket
      inHdr := p.letter.header
      inbox := copy (fun k => p.wire (HeaderSize + k)) p.letter.header.length.toNat
        s.inbox 0
      messageAvailable := s.messageAvailable.postV
      arrived := s.arrived ++ [p] } = 1 := if_neg p.header_length_ne
  refine ⟨?_, fun _ => ⟨p, ?_, rfl, Packet.inBuffer_wire _⟩, fun i x hx => ?_, ?_, Or.inl ?_⟩
  · rw [hfull, List.length_append, List.length_singleton]
    dsimp only
    omega
  · dsimp only
    rw [show s.taken.length = s.arrived.length by omega]
    exact List.getElem?_concat_length ..
  · obtain ⟨q, hq, hread⟩ := h.taken i x hx
    exact ⟨q, getElem?_append_of_some hq _, hread⟩
  · have hsem : s.messageAvailable.value = 0 :=
      BitVec.eq_of_toNat_eq (Nat.eq_zero_of_add_eq_zero_right hvalue)
    rw [hfull]
    dsimp only [Semaphore.postV]
    rw [hsem]
    exact congrArg (1 + ·) (Nat.eq_zero_of_add_eq_zero_left hvalue)
  · -- only the postal worker can be on the queue
    rcases h.queue with hq | ⟨hq, -, -⟩ <;> simp [hq]

theorem semP (h : DeviceInv s) (hw : s.worker = .inP)
    (hq : po.worker ∉ s.messageAvailable.queue) : DeviceInv (PostEvent.semP.next s) := by
  have hqueue : s.messageAvailable.queue = [] := by
    refine h.queue.resolve_right ?_
    rintro ⟨he, -, -⟩
    exact hq (by simp [he])
  have hvalue := h.value
  rw [hw] at hvalue
  by_cases hzero : s.messageAvailable.value = 0
  · simp only [PostEvent.next, Semaphore.tryP_of_zero hzero]
    refine ⟨h.count, h.inbox, h.taken, h.value, Or.inr ⟨?_, hw, hzero⟩⟩
    rw [hqueue, List.nil_append]
  · simp only [PostEvent.next, Semaphore.tryP_of_ne hzero]
    refine ⟨h.count, h.inbox, h.taken, ?_, Or.inl hqueue⟩
    change (s.messageAvailable.value - 1).toNat + 1 = s.buffered
    change s.messageAvailable.value.toNat + 0 = s.buffered at hvalue
    bv_omega

/-- Past `P` there is a packet in the buffer. -/
theorem buffered_of_gotP (h : DeviceInv s) (hw : s.worker = .gotP) :
    s.inHdr.length ≠ 0 ∧ s.messageAvailable.value = 0 := by
  have hvalue := h.value
  rw [hw] at hvalue
  change s.messageAvailable.value.toNat + 1 = s.buffered at hvalue
  unfold PostState.buffered at hvalue
  split_ifs at hvalue with hlen
  · exact ⟨hlen, BitVec.eq_of_toNat_eq (Nat.succ.inj hvalue)⟩

/-- What `Network::Receive` returns past `P`. -/
theorem received_read (h : DeviceInv s) (hw : s.worker = .gotP) :
    ∃ p : Packet po, s.arrived[s.taken.length]? = some p ∧ p.Read s.inHdr s.received := by
  obtain ⟨hlen, -⟩ := h.buffered_of_gotP hw
  obtain ⟨p, hp, hread⟩ := h.inbox hlen
  refine ⟨p, hp, hread.hdr, ?_⟩
  unfold PostState.received
  rw [if_pos hlen, hread.hdr]
  exact hread.buffer.copy s.buffer

theorem receive (h : DeviceInv s) (hw : s.worker = .gotP) : DeviceInv s.receive := by
  obtain ⟨hlen, hzero⟩ := h.buffered_of_gotP hw
  obtain ⟨p, hp, hread⟩ := h.received_read hw
  have hcount := h.count
  rw [show s.buffered = 1 from if_neg hlen] at hcount
  have hempty : s.receive.buffered = 0 := if_pos rfl
  refine ⟨?_, fun hne => absurd rfl hne, fun i x hx => ?_, ?_, Or.inl ?_⟩
  · rw [hempty]
    simp only [PostState.receive, List.length_append, List.length_singleton]
    omega
  · rcases getElem?_concat_cases hx with hx | ⟨rfl, rfl⟩
    · exact h.taken i x hx
    · exact ⟨p, hp, hread⟩
  · rw [hempty]
    change s.messageAvailable.value.toNat + 0 = 0
    rw [hzero]
    rfl
  · refine h.queue.resolve_right ?_
    rintro ⟨-, hin, -⟩
    rw [hw] at hin
    cases hin

theorem list_step (h : DeviceInv s) {b : ℕ} {e : SynchEvent ℕ}
    (hin : PostEvent.inBox s b e.thread) : DeviceInv (s.list b e) := by
  cases e with
  | done t =>
    by_cases ht : t = po.worker
    · subst ht
      have hw := PostEvent.inBox_worker hin
      exact { h.workerStep (w := s.workerAfter (.done po.worker))
        (by simp [hw]) (by simp [hw]) with }
    · exact { h.workerStep (w := s.workerAfter (.done t)) (by simp [ht])
        (by simp [ht]) with }
  | _ => exact { h with }

theorem step {e : PostEvent po} (h : DeviceInv s) (hst : PostStep s e s') : DeviceInv s' := by
  obtain ⟨⟨-, hen⟩, rfl⟩ := hst
  cases e with
  | arrive p => exact { h with }
  | poll => exact h.poll
  | semP => exact h.semP hen.1 hen.2
  | receive => exact h.receive hen
  | put hdr block =>
    have hw : s.worker = .received hdr := hen
    rcases s.put_cases hdr block with ⟨a, heq⟩ | ⟨mail, b, heq⟩
    · exact (congrArg DeviceInv heq).mpr { h with }
    · exact (congrArg DeviceInv heq).mpr
        { h.workerStep (w := .putting b) (by simp [hw]) (by simp [hw]) with }
  | call t box =>
    rcases s.call_cases t box with heq | ⟨b, -, heq⟩
    · exact (congrArg DeviceInv heq).mpr { h with }
    · exact (congrArg DeviceInv heq).mpr { h with }
  | list b e => exact h.list_step hen.2
  | get t b mail data =>
    obtain ⟨code, returned, aborted, -, heq⟩ := s.get_frame t b mail data
    exact (congrArg DeviceInv heq).mpr { h with }

end DeviceInv

theorem PostReach.device (h : PostReach s) : DeviceInv s := by
  refine Reach.invariant ?_ (fun s e s' hs hst => hs.step hst) h
  rintro s ⟨inHdr, inbox, buffer, boxes, hzero, -, rfl⟩
  refine ⟨?_, fun hne => absurd hzero hne, by simp, ?_, Or.inl rfl⟩
  · simp [PostState.buffered, hzero]
  · simp [PostState.buffered, hzero]

/-! ### The numbers of the messages for a box -/

/-- `mailHdr.to` is this box. -/
def Packet.isFor (p : Packet po) (b : ℕ) : Bool := decide (p.letter.mailHdr.toBox.toInt = b)

theorem Packet.isFor_box (p : Packet po) : p.isFor p.box = true := by
  have hrange := p.boxInRange.1
  unfold isFor box
  simp [hrange]

theorem Packet.isFor_unique {p : Packet po} {b c : ℕ} (hb : p.isFor b = true)
    (hc : p.isFor c = true) : b = c := by
  have hb' : p.letter.mailHdr.toBox.toInt = b := of_decide_eq_true hb
  have hc' : p.letter.mailHdr.toBox.toInt = c := of_decide_eq_true hc
  omega

/-- Which of the first `n` packets are for a box. -/
def numbersFor (l : List (Packet po)) (b n : ℕ) : List ℕ :=
  (List.range n).filter fun i => (l[i]?).any fun p => p.isFor b

section numbers

variable {l : List (Packet po)} {b n i : ℕ} {p : Packet po}

theorem mem_numbersFor : i ∈ numbersFor l b n ↔ i < n ∧ ∃ p, l[i]? = some p ∧ p.isFor b = true := by
  simp [numbersFor, Option.any_eq_true]

theorem numbersFor_succ (hp : l[n]? = some p) :
    numbersFor l b (n + 1) = numbersFor l b n ++ if p.isFor b then [n] else [] := by
  unfold numbersFor
  rw [List.range_succ, List.filter_append]
  simp only [List.filter_cons, List.filter_nil, hp, Option.any_some]

theorem numbersFor_append (hn : n ≤ l.length) (l' : List (Packet po)) :
    numbersFor (l ++ l') b n = numbersFor l b n := by
  refine List.filter_congr fun i hi => ?_
  rw [List.getElem?_append_left (by rw [List.mem_range] at hi; omega)]

theorem pairwise_numbersFor : (numbersFor l b n).Pairwise (· < ·) :=
  List.pairwise_lt_range.filter _

/-- The packets with these numbers are those for the box. -/
theorem map_numbersFor (hn : n ≤ l.length) :
    (numbersFor l b n).map (fun i => l[i]?) = ((l.take n).filter fun p => p.isFor b).map some := by
  induction n with
  | zero => rfl
  | succ n ih =>
    have hp : l[n]? = some l[n] := List.getElem?_eq_getElem (by omega)
    rw [numbersFor_succ hp, List.map_append, ih (by omega), List.take_add_one, hp,
      List.filter_append, List.map_append]
    congr 1
    by_cases hfor : l[n].isFor b <;> simp [hfor, hp]

end numbers

/-! ### Delivery -/

/-- Past `network->Receive`, and the message has not been made. -/
@[simp] def WorkerCode.carries : WorkerCode → ℕ
  | received _ => 1
  | _ => 0

/-- Every packet that has been taken is with the postal worker or has become a message, and every
message is in its box or about to be appended to it. -/
structure DeliveryInv (s : PostState po) : Prop where
  count : s.mails.length + s.worker.carries = s.taken.length
  received : ∀ hdr, s.worker = .received hdr → ∃ p : Packet po,
    s.arrived[s.mails.length]? = some p ∧ p.Read hdr s.buffer
  mails : ∀ (i : ℕ) (mail : Mail), s.mails[i]? = some mail → ∃ p : Packet po,
    s.arrived[i]? = some p ∧ p.Carried mail.pktHdr mail.mailHdr mail.data
  puts : ∀ b, (s.boxes b).appended = numbersFor s.arrived b s.numPut
  pending : ∀ b i, (s.boxes b).code po.worker = .appendLock i → i = s.numPut ∧
    s.mails.length = s.numPut + 1 ∧ ∃ p : Packet po, s.arrived[i]? = some p ∧ p.isFor b = true
  settled : (∀ b i, (s.boxes b).code po.worker ≠ .appendLock i) → s.mails.length = s.numPut

namespace DeliveryInv

theorem numPut_le (h : DeliveryInv s) : s.numPut ≤ s.mails.length := by
  by_cases hpending : ∃ b i, (s.boxes b).code po.worker = .appendLock i
  · obtain ⟨b, i, hbi⟩ := hpending
    have hlen := (h.pending b i hbi).2.1
    omega
  · rw [h.settled fun b i hbi => hpending ⟨b, i, hbi⟩]

theorem le_arrived (h : DeliveryInv s) (hd : DeviceInv s) : s.mails.length ≤ s.arrived.length := by
  have hcount := h.count
  have hdevice := hd.count
  omega

/-- A packet keeps its number when others arrive. -/
theorem poll (h : DeliveryInv s) (hd : DeviceInv s) : DeliveryInv s.checkPktAvail := by
  rcases s.checkPktAvail_cases with heq | ⟨q, socket, -, -, heq⟩
  · rw [heq]
    exact h
  rw [heq]
  refine ⟨h.count, fun hdr hw => ?_, fun i mail hm => ?_, fun b => ?_, fun b i hbi => ?_, h.settled⟩
  · obtain ⟨p, hp, hread⟩ := h.received hdr hw
    exact ⟨p, getElem?_append_of_some hp _, hread⟩
  · obtain ⟨p, hp, hcarried⟩ := h.mails i mail hm
    exact ⟨p, getElem?_append_of_some hp _, hcarried⟩
  · have hle := h.numPut_le
    have hle' := h.le_arrived hd
    exact (h.puts b).trans (numbersFor_append (by omega) _).symm
  · obtain ⟨hi, hlen, p, hp, hfor⟩ := h.pending b i hbi
    exact ⟨hi, hlen, p, getElem?_append_of_some hp _, hfor⟩

/-- The postal worker goes on without a packet. -/
theorem workerStep (h : DeliveryInv s) {w : WorkerCode} {sem : Semaphore}
    (hw : w.carries = s.worker.carries) (hno : ∀ hdr, w ≠ .received hdr) :
    DeliveryInv { s with worker := w, messageAvailable := sem } :=
  ⟨by rw [← h.count, ← hw], fun hdr hr => absurd hr (hno hdr), h.mails, h.puts, h.pending,
    h.settled⟩

theorem receive (h : DeliveryInv s) (hd : DeviceInv s) (hw : s.worker = .gotP) :
    DeliveryInv s.receive := by
  obtain ⟨p, hp, hread⟩ := hd.received_read hw
  have hcount := h.count
  rw [hw] at hcount
  change s.mails.length + 0 = s.taken.length at hcount
  refine ⟨?_, fun hdr hr => ?_, h.mails, h.puts, h.pending, h.settled⟩
  · change s.mails.length + 1 = (s.taken ++ [_]).length
    rw [List.length_append, List.length_singleton]
    omega
  · cases hr
    refine ⟨p, ?_, hread⟩
    change s.arrived[s.mails.length]? = some p
    rw [← hp]
    congr 1

/-- A message is made, and the postal worker calls `Append` for its box. -/
theorem put (h : DeliveryInv s) (hroles : PostRoles s) {hdr : PacketHeader}
    (hw : s.worker = .received hdr) (block : Mem) : DeliveryInv (s.put hdr block) := by
  obtain ⟨p, hp, hread⟩ := h.received hdr hw
  obtain ⟨mail, hcarried, heq⟩ := PostState.put_eq hread block
  have hcount := h.count
  rw [hw] at hcount
  change s.mails.length + 1 = s.taken.length at hcount
  have hout : ∀ b, (s.boxes b).code po.worker = .outside := fun b =>
    hroles.worker_outside (by simp [hw])
  have hsettled : s.mails.length = s.numPut := h.settled fun b i => by simp [hout]
  rw [heq]
  refine ⟨?_, by simp, fun i m hm => ?_, fun b => ?_, fun b i hbi => ?_, fun hno => ?_⟩
  · rw [List.length_append, List.length_singleton]
    exact hcount
  · rcases getElem?_concat_cases hm with hm | ⟨rfl, rfl⟩
    · exact h.mails i m hm
    · exact ⟨p, hp, hcarried⟩
  · exact (map_update SynchState.appended (SynchEvent.next_appended (by simp)) b).trans
      (h.puts b)
  · dsimp only at hbi ⊢
    have hb : b = p.box := by
      by_contra hb
      rw [update_of_ne hb, hout] at hbi
      cases hbi
    subst hb
    have hi : s.mails.length = i := by simpa using hbi
    subst hi
    refine ⟨hsettled, ?_, p, hp, p.isFor_box⟩
    rw [List.length_append, List.length_singleton, hsettled]
  · refine absurd ?_ (hno p.box s.mails.length)
    simp

/-- A step in a box that does not append an item leaves what has been appended and who is about to
append. -/
theorem list_other (h : DeliveryInv s) {b : ℕ} {e : SynchEvent ℕ} (hen : e.enabled (s.boxes b))
    (he : e.isCall = false) (hnot : ∀ t i, e ≠ .listAppend t i)
    (hin : PostEvent.inBox s b e.thread) : DeliveryInv (s.list b e) := by
  have hput : s.numPutAfter e = s.numPut := by
    cases e with
    | listAppend t i => exact absurd rfl (hnot t i)
    | _ => rfl
  -- it returns from `Append`, or stays where it is
  have hworker : s.workerAfter e = s.worker ∨ s.workerAfter e = .inP ∧ s.worker = .putting b := by
    cases e with
    | done t =>
      by_cases ht : t = po.worker
      · subst ht
        exact Or.inr ⟨if_pos rfl, PostEvent.inBox_worker hin⟩
      · exact Or.inl (if_neg ht)
    | _ => exact Or.inl rfl
  have hlock : ∀ c i, ((s.list b e).boxes c).code po.worker = .appendLock i ↔
      (s.boxes c).code po.worker = .appendLock i := fun c i =>
    iff_of_eq (map_update (fun box : SynchState ℕ => box.code po.worker = .appendLock i)
      (propext ((SynchEvent.next_code hen he po.worker).2.2 hnot i)) c)
  refine ⟨?_, fun hdr hr => ?_, h.mails, fun c => ?_, fun c i hci => ?_, fun hno => ?_⟩
  · have hcarries : (s.workerAfter e).carries = s.worker.carries := by
      rcases hworker with hw | ⟨hw, hw'⟩
      · rw [hw]
      · rw [hw, hw']
        rfl
    exact (congrArg (s.mails.length + ·) hcarries).trans h.count
  · rcases hworker with hw | ⟨hw, -⟩
    · exact h.received hdr (hw.symm.trans hr)
    · cases hw.symm.trans hr
  · refine (map_update SynchState.appended (SynchEvent.next_appended hnot) c).trans ?_
    exact (h.puts c).trans (congrArg _ hput.symm)
  · obtain ⟨hi, hlen, hp⟩ := h.pending c i ((hlock c i).1 hci)
    exact ⟨hi.trans hput.symm, hlen.trans (congrArg (· + 1) hput.symm), hp⟩
  · exact (h.settled fun c i hci => hno c i ((hlock c i).2 hci)).trans hput.symm

/-- The message that the postal worker has made is appended to its box. -/
theorem listAppend (h : DeliveryInv s) (hroles : PostRoles s) {b t i : ℕ}
    (hen : (s.boxes b).code t = .appendLock i) : DeliveryInv (s.list b (.listAppend t i)) := by
  obtain ⟨rfl, hw⟩ := hroles.append b t (by rw [hen]; trivial)
  obtain ⟨rfl, hlen, p, hp, hfor⟩ := h.pending b i hen
  -- the postal worker is before no other `list->Append`
  have hnone : ∀ c i, ((s.list b (.listAppend po.worker s.numPut)).boxes c).code po.worker ≠
      .appendLock i := by
    intro c i
    by_cases hc : c = b
    · subst hc
      simp
    · have hout : (s.boxes c).code po.worker = .outside := by
        refine hroles.worker_outside ?_
        rw [hw]
        simpa using Ne.symm hc
      simp [hc, hout]
  refine ⟨h.count, h.received, h.mails, fun c => ?_, fun c i hci => absurd hci (hnone c i),
    fun _ => hlen⟩
  change _ = numbersFor s.arrived c (s.numPut + 1)
  rw [numbersFor_succ hp, ← h.puts c]
  by_cases hc : c = b
  · subst hc
    simp [hfor]
  · have hnot : ¬ p.isFor c = true := fun hforc => hc (Packet.isFor_unique hforc hfor)
    simp [hc, hnot]

theorem call (h : DeliveryInv s) {t : ℕ} (ht : t ≠ po.worker) (box : ℤ) :
    DeliveryInv (s.call t box) := by
  rcases s.call_cases t box with heq | ⟨b, -, heq⟩
  · rw [heq]
    exact { h with }
  rw [heq]
  have hcode : ∀ c, (update s.boxes b ((SynchEvent.remove t).next (s.boxes b)) c).code
      po.worker = (s.boxes c).code po.worker := fun c => SynchEvent.boxes_code (Or.inl ht.symm)
  refine ⟨h.count, h.received, h.mails, fun c => ?_, fun c i hci => ?_, fun hno => ?_⟩
  · exact (map_update SynchState.appended (SynchEvent.next_appended (by simp)) c).trans
      (h.puts c)
  · exact h.pending c i ((hcode c).symm.trans hci)
  · exact h.settled fun c i hci => hno c i ((hcode c).trans hci)

theorem step {e : PostEvent po} (h : DeliveryInv s) (hroles : PostRoles s) (hd : DeviceInv s)
    (hst : PostStep s e s') : DeliveryInv s' := by
  obtain ⟨⟨-, hen⟩, rfl⟩ := hst
  cases e with
  | arrive p => exact { h with }
  | poll => exact h.poll hd
  | semP =>
    obtain ⟨hw, -⟩ := hen
    refine h.workerStep ?_ ?_
    · split_ifs <;> simp [hw]
    · split_ifs <;> simp [hw]
  | receive => exact h.receive hd hen
  | put hdr block => exact h.put hroles hen block
  | call t box => exact h.call hen.1 box
  | list b e =>
    obtain ⟨⟨hen, he⟩, hin⟩ := hen
    cases e with
    | listAppend t i => exact h.listAppend hroles hen.1
    | _ => exact h.list_other hen he (by simp) hin
  | get t b mail data =>
    obtain ⟨code, returned, aborted, -, heq⟩ := s.get_frame t b mail data
    exact (congrArg DeliveryInv heq).mpr { h with }

end DeliveryInv

theorem PostReach.delivery (h : PostReach s) : DeliveryInv s := by
  refine Reach.invariant_of (J := fun s => PostRoles s ∧ DeviceInv s)
    (fun s hs => ⟨PostReach.roles hs, PostReach.device hs⟩) ?_
    (fun s e s' hJ hs hst => hs.step hJ.1 hJ.2 hst) h
  rintro s ⟨inHdr, inbox, buffer, boxes, -, hboxes, rfl⟩
  have hinit : ∀ b, (boxes b).appended = [] ∧ (boxes b).code po.worker = .outside := by
    intro b
    obtain ⟨cond, -, hb⟩ := hboxes b
    rw [hb]
    exact ⟨rfl, rfl⟩
  exact ⟨rfl, by simp, by simp, fun b => (hinit b).1, fun b i hbi => by simp [hinit] at hbi,
    fun _ => rfl⟩

namespace DeliveryInv

/-- At most one message has been made that is not in its box, and only in the `Append` for it. -/
theorem mails_le (h : DeliveryInv s) (hroles : PostRoles s) :
    s.mails.length + s.worker.carries ≤ s.numPut + 1 ∧
      (s.worker = .inP → s.mails.length = s.numPut) := by
  by_cases hpending : ∃ b i, (s.boxes b).code po.worker = .appendLock i
  · obtain ⟨b, i, hbi⟩ := hpending
    obtain ⟨-, hlen, -⟩ := h.pending b i hbi
    have hw := (hroles.append b po.worker (by rw [hbi]; trivial)).2
    rw [hw, hlen]
    exact ⟨le_refl _, fun hin => by cases hin⟩
  · have hlen := h.settled fun b i hbi => hpending ⟨b, i, hbi⟩
    have hcarries : s.worker.carries ≤ 1 := by
      cases s.worker <;> simp
    exact ⟨by omega, fun _ => hlen⟩

theorem arrived_le (h : DeliveryInv s) (hroles : PostRoles s) (hd : DeviceInv s) :
    s.arrived.length ≤ s.numPut + 2 := by
  have hmails := (h.mails_le hroles).1
  have hcount := h.count
  have hdevice := hd.count
  have hbuffered : s.buffered ≤ 1 := by
    unfold PostState.buffered
    split_ifs <;> omega
  omega

theorem arrived_eq (h : DeliveryInv s) (hroles : PostRoles s) (hd : DeviceInv s)
    (hw : s.worker = .inP) (hzero : s.inHdr.length = 0) : s.arrived.length = s.numPut := by
  have hmails := (h.mails_le hroles).2 hw
  have hcount := h.count
  have hdevice := hd.count
  rw [hw] at hcount
  rw [show s.buffered = 0 from if_pos hzero] at hdevice
  change s.mails.length + 0 = s.taken.length at hcount
  omega

end DeliveryInv

/-! ### Receiving -/

/-- The pointer that a thread has removed from the box `b` and has not followed yet. -/
@[simp] def GetCode.pointer (b : ℕ) : GetCode → List (Option ℕ)
  | .holding c m => if c = b then [m] else []
  | _ => []

/-- The messages from the box `b` that calls by the thread `t` have returned, in their order. -/
def PostState.receipts (s : PostState po) (t b : ℕ) : List ℕ :=
  (s.returned.filter fun r => r.thread = t ∧ r.box = b).map Receipt.mail

/-- What has been removed from the boxes: every message is with one thread, or one call of `Receive`
has returned it; the messages of one thread come in the order of `Remove`. -/
structure GetInv (s : PostState po) : Prop where
  held : ∀ t b m, s.code t = .holding b m → ∃ i, m = some i ∧ some i ∈ (s.boxes b).removed ∧
    i ∉ s.returned.map Receipt.mail
  once : ∀ t u b c i, s.code t = .holding b (some i) → s.code u = .holding c (some i) → t = u
  returned : ∀ r ∈ s.returned, some r.mail ∈ (s.boxes r.box).removed ∧ ∃ mail : Mail,
    s.mails[r.mail]? = some mail ∧ r.pktHdr = mail.pktHdr ∧ r.mailHdr = mail.mailHdr ∧
      ∀ k < mail.mailHdr.length.toNat, r.data k = mail.data k
  nodup : (s.returned.map Receipt.mail).Nodup
  ordered : ∀ t b,
    ((s.receipts t b).map some ++ (s.code t).pointer b).Sublist (s.boxes b).removed

/-- A message that has been removed from a box has arrived for it. -/
theorem DeliveryInv.of_mem_removed (h : DeliveryInv s) {b i : ℕ} (hb : SynchReach (s.boxes b))
    (hi : some i ∈ (s.boxes b).removed) : i < s.numPut ∧ ∃ p : Packet po,
      s.arrived[i]? = some p ∧ p.isFor b = true := by
  have hmem : some i ∈ (s.boxes b).appended.map some := by
    rw [← hb.inv.fifo]
    exact List.mem_append_left _ hi
  obtain ⟨j, hj, heq⟩ := List.mem_map.1 hmem
  cases heq
  rw [h.puts b] at hj
  exact mem_numbersFor.1 hj

/-- The message at the head of a box has not been removed from any. -/
theorem DeliveryInv.head_fresh (h : DeliveryInv s) (hbox : ∀ b, SynchReach (s.boxes b)) {b i : ℕ}
    (hi : (s.boxes b).list.head? = some i) (c : ℕ) : some i ∉ (s.boxes c).removed := by
  intro hc
  have hfifo := (hbox b).inv.fifo
  have hlist : some i ∈ (s.boxes b).list.map some :=
    List.mem_map.2 ⟨i, List.mem_of_head? hi, rfl⟩
  have hmem : i ∈ (s.boxes b).appended := by
    have hsome : some i ∈ (s.boxes b).appended.map some := by
      rw [← hfifo]
      exact List.mem_append_right _ hlist
    simpa using hsome
  rw [h.puts b] at hmem
  obtain ⟨-, p, hp, hfor⟩ := mem_numbersFor.1 hmem
  obtain ⟨-, q, hq, hforc⟩ := h.of_mem_removed (hbox c) hc
  rw [hp] at hq
  cases hq
  obtain rfl := Packet.isFor_unique hforc hfor
  -- in one box no number stands twice
  have hnodup : ((s.boxes c).removed ++ (s.boxes c).list.map some).Nodup := by
    rw [hfifo, h.puts c]
    exact List.Nodup.map (Option.some_injective ℕ) (pairwise_numbersFor.imp Nat.ne_of_lt)
  exact List.disjoint_of_nodup_append hnodup hc hlist

/-- A pointer that has been removed from a box leads to a message of at most `MaxMailSize` bytes. -/
theorem DeliveryInv.mail_of_removed (h : DeliveryInv s) {b i : ℕ} (hb : SynchReach (s.boxes b))
    (hi : some i ∈ (s.boxes b).removed) :
    ∃ mail : Mail, s.mails[i]? = some mail ∧ mail.mailHdr.length.toNat ≤ MaxMailSize := by
  have hlt := (h.of_mem_removed hb hi).1
  have hle := h.numPut_le
  have hmail : s.mails[i]? = some s.mails[i] := List.getElem?_eq_getElem (by omega)
  obtain ⟨p, -, hcarried⟩ := h.mails i _ hmail
  refine ⟨_, hmail, ?_⟩
  rw [hcarried.mailHdr]
  exact p.size_le

namespace GetInv

variable {t b : ℕ}

/-- Nothing is removed from a box, and no message changes. -/
theorem frame (h : GetInv s) {boxes : ℕ → SynchState ℕ} {mails : List Mail}
    (hremoved : ∀ b, (boxes b).removed = (s.boxes b).removed)
    (hmails : ∀ (i : ℕ) (mail : Mail), s.mails[i]? = some mail → mails[i]? = some mail) :
    GetInv { s with boxes := boxes, mails := mails } := by
  refine ⟨?_, h.once, fun r hr => ?_, h.nodup, ?_⟩
  · simp only [hremoved]
    exact h.held
  · obtain ⟨hmem, mail, hmail, hdata⟩ := h.returned r hr
    exact ⟨by rwa [hremoved], mail, hmails _ _ hmail, hdata⟩
  · simp only [hremoved]
    exact h.ordered

/-- The boxes after a step that removes nothing. -/
theorem removed_update {boxes : ℕ → SynchState ℕ} {e : SynchEvent ℕ} (hnot : ∀ t, e ≠ .take t)
    (c : ℕ) : (update boxes b (e.next (boxes b)) c).removed = (boxes c).removed :=
  map_update SynchState.removed (SynchEvent.next_removed hnot) c

theorem put (h : GetInv s) (hdr : PacketHeader) (block : Mem) : GetInv (s.put hdr block) := by
  rcases s.put_cases hdr block with ⟨a, heq⟩ | ⟨mail, b, heq⟩
  · rw [heq]
    exact { h with }
  · rw [heq]
    exact { h.frame (removed_update (e := .append po.worker s.mails.length) (b := b) (by simp))
      fun i m hm => getElem?_append_of_some hm [mail] with }

theorem call (h : GetInv s) (t : ℕ) (box : ℤ) : GetInv (s.call t box) := by
  rcases s.call_cases t box with heq | ⟨b, -, heq⟩
  · rw [heq]
    exact { h with }
  rw [heq]
  have hremoved : ∀ c,
      (update s.boxes b ((SynchEvent.remove t).next (s.boxes b)) c).removed =
        (s.boxes c).removed := removed_update (by simp)
  refine ⟨fun u c m hu => ?_, fun u v c d i hu hv => ?_, fun r hr => ?_, h.nodup, fun u c => ?_⟩
  · obtain ⟨i, hm, hmem, hnot⟩ := h.held u c m (of_update_eq hu (by simp)).2
    exact ⟨i, hm, by rwa [hremoved], hnot⟩
  · exact h.once u v c d i (of_update_eq hu (by simp)).2 (of_update_eq hv (by simp)).2
  · obtain ⟨hmem, hmail⟩ := h.returned r hr
    exact ⟨by rwa [hremoved], hmail⟩
  · rw [hremoved]
    refine List.Sublist.trans (List.Sublist.append_left ?_ _) (h.ordered u c)
    by_cases hut : u = t
    · subst hut
      simp
    · simp [update_of_ne hut]

/-- A thread removes the message at the head of a box. -/
theorem take (h : GetInv s) (hd : DeliveryInv s) (hbox : ∀ b, SynchReach (s.boxes b))
    (htake : (s.boxes b).code t = .removeTake) : GetInv (s.list b (.take t)) := by
  have hne : (s.boxes b).list ≠ [] := by
    have hallows := (hbox b).inv.allows t
    simp only [htake, SynchCode.Allows] at hallows
    exact hallows.2
  have hi := List.head?_eq_some_head hne
  generalize (s.boxes b).list.head hne = i at hi
  have hfresh := hd.head_fresh hbox hi
  have hgrow : ∀ c, (s.boxes c).removed.Sublist ((s.list b (.take t)).boxes c).removed := by
    intro c
    by_cases hc : c = b
    · subst hc
      simp only [PostState.list, update_self, SynchEvent.next]
      exact List.sublist_append_left ..
    · simp [hc]
  have hnew : some i ∈ ((s.list b (.take t)).boxes b).removed := by
    simp [hi]
  have hcode : (s.list b (.take t)).code = update s.code t (.holding b (some i)) := by
    simp only [PostState.list, PostState.codeAfter, hi]
  -- nobody else has this message
  have hother : ∀ u c, s.code u ≠ .holding c (some i) := by
    intro u c hu
    obtain ⟨j, hj, hmem, -⟩ := h.held u c _ hu
    cases hj
    exact hfresh c hmem
  refine ⟨fun u c m hu => ?_, fun u v c d j hu hv => ?_, fun r hr => ?_, h.nodup, fun u c => ?_⟩
  · rw [hcode] at hu
    rcases update_cases hu with ⟨rfl, heq⟩ | ⟨-, hu⟩
    · cases heq
      refine ⟨i, rfl, hnew, fun hret => ?_⟩
      obtain ⟨r, hr, rfl⟩ := List.mem_map.1 hret
      exact hfresh r.box (h.returned r hr).1
    · obtain ⟨j, hm, hmem, hnot⟩ := h.held u c m hu
      exact ⟨j, hm, (hgrow c).subset hmem, hnot⟩
  · rw [hcode] at hu hv
    rcases update_cases hu with ⟨hut, heq⟩ | ⟨-, hu'⟩
    · cases heq
      rcases update_cases hv with ⟨hvt, -⟩ | ⟨-, hv'⟩
      · exact hut.trans hvt.symm
      · exact absurd hv' (hother v d)
    · rcases update_cases hv with ⟨-, heq⟩ | ⟨-, hv'⟩
      · cases heq
        exact absurd hu' (hother u c)
      · exact h.once u v c d j hu' hv'
  · obtain ⟨hmem, hmail⟩ := h.returned r hr
    exact ⟨(hgrow _).subset hmem, hmail⟩
  · have hreturned : ((s.receipts u c).map some).Sublist (s.boxes c).removed :=
      (List.sublist_append_left ..).trans (h.ordered u c)
    rw [hcode]
    by_cases hut : u = t
    · subst hut
      rw [update_self, GetCode.pointer]
      split_ifs with hcb
      · subst hcb
        simp only [PostState.list, update_self, SynchEvent.next, hi]
        exact hreturned.append (List.Sublist.refl _)
      · rw [List.append_nil]
        exact hreturned.trans (hgrow c)
    · rw [update_of_ne hut]
      exact (h.ordered u c).trans (hgrow c)

/-- A thread copies the message it has removed, and returns. -/
theorem get (h : GetInv s) (hd : DeliveryInv s) (hbox : ∀ b, SynchReach (s.boxes b))
    {m : Option ℕ} (ht : s.code t = .holding b m) (data : Mem) : GetInv (s.get t b m data) := by
  obtain ⟨i, rfl, hmem, hnot⟩ := h.held t b m ht
  obtain ⟨mail, hmail, hlen⟩ := hd.mail_of_removed (hbox b) hmem
  rw [PostState.get_eq hmail hlen]
  refine ⟨fun u c m hu => ?_, fun u v c d j hu hv => ?_, fun r hr => ?_, ?_, fun u c => ?_⟩
  · obtain ⟨hut, hu'⟩ := of_update_eq hu (by simp)
    obtain ⟨j, rfl, hj, hnotj⟩ := h.held u c m hu'
    refine ⟨j, rfl, hj, ?_⟩
    rw [List.map_append, List.mem_append, not_or]
    refine ⟨hnotj, fun hji => ?_⟩
    obtain rfl : j = i := by simpa using hji
    exact hut (h.once u t c b j hu' ht)
  · exact h.once u v c d j (of_update_eq hu (by simp)).2 (of_update_eq hv (by simp)).2
  · rcases List.mem_append.1 hr with hr | hr
    · exact h.returned r hr
    · rw [List.mem_singleton.1 hr]
      refine ⟨hmem, mail, hmail, rfl, rfl, fun k hk => ?_⟩
      dsimp only
      rw [copy_of_mem (by omega) (by omega), Nat.sub_zero]
  · rw [List.map_append]
    exact List.Nodup.append h.nodup (List.nodup_singleton i) (by simpa using hnot)
  · -- what the thread held is the last that it has returned
    have hold := h.ordered u c
    simp only [PostState.receipts, List.filter_append, List.map_append] at hold ⊢
    by_cases hut : u = t
    · subst hut
      rw [ht] at hold
      by_cases hbc : b = c <;> simpa [hbc] using hold
    · simpa [Ne.symm hut, update_of_ne hut] using hold

theorem step {e : PostEvent po} (h : GetInv s) (hd : DeliveryInv s)
    (hbox : ∀ b, SynchReach (s.boxes b)) (hst : PostStep s e s') : GetInv s' := by
  obtain ⟨⟨-, hen⟩, rfl⟩ := hst
  cases e with
  | poll =>
    rcases s.checkPktAvail_cases with heq | ⟨p, socket, -, -, heq⟩
    · exact (congrArg GetInv heq).mpr h
    · exact (congrArg GetInv heq).mpr { h with }
  | put hdr block => exact h.put hdr block
  | call t box => exact h.call t box
  | list b e =>
    cases e with
    | take t => exact h.take hd hbox hen.1.1
    | _ => exact { h.frame (removed_update (b := b) (by simp)) fun _ _ => id with }
  | get t b m data => exact h.get hd hbox hen.1 data
  | _ => exact { h with }

end GetInv

theorem PostReach.gets (h : PostReach s) : GetInv s := by
  refine Reach.invariant_of (J := fun s => DeliveryInv s ∧ ∀ b, SynchReach (s.boxes b))
    (fun s hs => ⟨PostReach.delivery hs, PostReach.box hs⟩) ?_
    (fun s e s' hJ hs hst => hs.step hJ.1 hJ.2 hst) h
  rintro s ⟨inHdr, inbox, buffer, boxes, -, -, rfl⟩
  exact ⟨by simp, by simp, by simp, List.nodup_nil, by simp [PostState.receipts]⟩

/-! ### The results -/

/-- The only `ASSERT` that can fail is that of `Receive` on the box it is called with. -/
theorem PostReach.aborted (h : PostReach s) (a : PostAssert) (ha : s.aborted = some a) :
    a = .receiveBox := by
  revert a
  refine Reach.invariant_of (J := PostReach)
    (I := fun s : PostState po => ∀ a, s.aborted = some a → a = .receiveBox)
    (fun s hs => hs) ?_ (fun s e s' hr hs hst => ?_) h
  · rintro s ⟨inHdr, inbox, buffer, boxes, -, -, rfl⟩
    simp
  obtain ⟨⟨hnone, hen⟩, rfl⟩ := hst
  cases e with
  | poll =>
    rcases s.checkPktAvail_cases with heq | ⟨p, socket, -, -, heq⟩
    · simp [heq, hnone]
    · simp [heq, hnone]
  | put hdr block =>
    obtain ⟨p, -, hread⟩ := hr.delivery.received hdr hen
    obtain ⟨mail, -, heq⟩ := PostState.put_eq hread block
    simp [heq, hnone]
  | call t box =>
    rcases s.call_cases t box with heq | ⟨b, -, heq⟩
    · simp [heq]
    · simp [heq, hnone]
  | get t b m data =>
    obtain ⟨i, rfl, hmem, -⟩ := hr.gets.held t b m hen.1
    obtain ⟨mail, hmail, hlen⟩ := hr.delivery.mail_of_removed (hr.box b) hmem
    simp [PostState.get_eq hmail hlen, hnone]
  | _ => exact fun a ha => absurd (hnone.symm.trans ha) (by simp)

/-- **Mail is delivered.**  `Send` puts a message of any length up to `MaxMailSize` on the wire.  In
every state of every run: no `ASSERT` has failed but that of `Receive` on its argument; the messages
put into a box are, in order and each once, the packets for it among the first `numPut` that have
arrived, and the others are in the buffer of the device or with the postal worker; every packet that
has been read is in the buffer or has been taken from it, with its bytes; a box is a FIFO queue; the
messages that the calls of one thread on one box have returned come in the order in which
`list->Remove` gave them out; and every call of `Receive` has returned another message, with the
headers and the data that were given to `Send`. -/
theorem mail_delivered (h : PostReach s) :
    (∀ l : Letter, l.mailHdr.length.toNat ≤ MaxMailSize → l.mailHdr.BoxInRange po.numBoxes →
      ∃ wire, l.send po.numBoxes = .ok wire) ∧
    (∀ a, s.aborted = some a → a = .receiveBox) ∧
    (s.numPut ≤ s.arrived.length ∧ s.arrived.length ≤ s.numPut + 2 ∧
      (s.worker = .inP → s.inHdr.length = 0 → s.arrived.length = s.numPut) ∧
      ∀ b, (s.boxes b).appended.Pairwise (· < ·) ∧
        (s.boxes b).appended.map (fun i => s.arrived[i]?) =
          ((s.arrived.take s.numPut).filter fun p => p.isFor b).map some) ∧
    (s.taken.length + s.buffered = s.arrived.length ∧
      (s.inHdr.length ≠ 0 → ∃ p : Packet po, s.arrived[s.taken.length]? = some p ∧
        p.Read s.inHdr s.inbox) ∧
      ∀ (i : ℕ) (x : PacketHeader × Mem), s.taken[i]? = some x → ∃ p : Packet po,
        s.arrived[i]? = some p ∧ p.Read x.1 x.2) ∧
    (∀ b, (s.boxes b).removed ++ (s.boxes b).list.map some = (s.boxes b).appended.map some) ∧
    (s.returned.map Receipt.mail).Nodup ∧
    (∀ t b, ((s.receipts t b).map some).Sublist (s.boxes b).removed) ∧
    ∀ r ∈ s.returned, some r.mail ∈ (s.boxes r.box).removed ∧ ∃ p : Packet po,
      s.arrived[r.mail]? = some p ∧ p.isFor r.box = true ∧ p.Carried r.pktHdr r.mailHdr r.data ∧
      r.pktHdr.fromAddr = p.letter.netAddr := by
  have hd := h.device
  have hi := h.delivery
  have hg := h.gets
  have hput := hi.numPut_le
  have hle := hi.le_arrived hd
  refine ⟨fun l hlen hbox => ⟨_, Letter.send_eq hlen hbox⟩, h.aborted,
    ⟨by omega, hi.arrived_le h.roles hd, fun hw hzero => hi.arrived_eq h.roles hd hw hzero,
      fun b => ⟨?_, ?_⟩⟩, ⟨hd.count, hd.inbox, hd.taken⟩, fun b => (h.box b).inv.fifo, hg.nodup,
    fun t b => (List.sublist_append_left ..).trans (hg.ordered t b), fun r hr => ?_⟩
  · rw [hi.puts b]
    exact pairwise_numbersFor
  · rw [hi.puts b]
    exact map_numbersFor (by omega)
  · obtain ⟨hmem, mail, hmail, hpkt, hmailHdr, hdata⟩ := hg.returned r hr
    obtain ⟨-, p, hp, hfor⟩ := hi.of_mem_removed (h.box r.box) hmem
    obtain ⟨q, hq, hcarried⟩ := hi.mails r.mail mail hmail
    rw [hp] at hq
    cases hq
    have hreceipt : p.Carried r.pktHdr r.mailHdr r.data := by
      refine ⟨hpkt.trans hcarried.pktHdr, hmailHdr.trans hcarried.mailHdr, fun k hk => ?_⟩
      rw [hdata k (by rw [hcarried.mailHdr]; exact hk)]
      exact hcarried.data k hk
    exact ⟨hmem, p, hp, hfor, hreceipt, hreceipt.fromAddr⟩

/-! ### A run -/

/-- Machine 3 has two boxes, and thread 0 is its postal worker. -/
def twoBoxes : Office := ⟨3, 2, 0⟩

/-- Machine 5 sends two bytes to box 1 of machine 3. -/
def twoBytes : Letter where
  netAddr := 5
  pktHdr := ⟨3, 0, 0⟩
  mailHdr := ⟨1, 0, 2⟩
  data := fun k => if k = 0 then 104 else 105
  block := fun _ => 0
  wireBlock := fun _ => 0

/-- The packet of `twoBytes`. -/
def twoBytesPacket : Packet twoBoxes :=
  ⟨twoBytes, _, Letter.send_eq (by decide) (by decide), rfl⟩

/-- Nothing has arrived. -/
def newPostOffice : PostState twoBoxes :=
  ⟨[], ⟨0, 0, 0⟩, fun _ => 0, ⟨0, []⟩, .inP, fun _ => 0, [], fun _ => newSynchList,
    fun _ => .outside, none, [], [], 0, []⟩

/-- `Append` of message 0 by thread 0, and nobody waits. -/
def appendEvents : List (SynchEvent ℕ) :=
  (acquires 0).map .cond ++ [.listAppend 0 0, .cond (.signal 0), .cond (.select 0 none)] ++
    (releases 0).map .cond ++ [.done 0]

/-- `Remove` by thread 4, which finds a message. -/
def removeEvents : List (SynchEvent ℕ) :=
  (acquires 4).map .cond ++ [.test 4, .take 4] ++ (releases 4).map .cond ++ [.done 4]

/-- The packet arrives and is put into box 1, and thread 4 receives it. -/
def oneDelivery : List (PostEvent twoBoxes) :=
  [.arrive twoBytesPacket, .poll, .semP, .receive, .put twoBytes.header fun _ => 0] ++
    appendEvents.map (.list 1) ++ [.call 4 1] ++ removeEvents.map (.list 1) ++
    [.get 4 1 (some 0) fun _ => 0]

theorem mail_delivered_once : ∃ s : PostState twoBoxes, PostReach s ∧ ∃ r ∈ s.returned,
    r.box = 1 ∧ r.mailHdr.length = 2 ∧ ∃ p : Packet twoBoxes, s.arrived[r.mail]? = some p ∧
      p.Carried r.pktHdr r.mailHdr r.data := by
  have hinit : PostInit newPostOffice := ⟨_, _, _, _, rfl, fun _ => newSynchList_init, rfl⟩
  obtain ⟨s, hr, hret⟩ : ∃ s, PostReach s ∧
      s.returned.map (fun r => (r.box, r.mailHdr.length)) = [(1, 2)] :=
    Reach.exists_run
      (exec_step
        (fun (s : PostState twoBoxes) (e : PostEvent twoBoxes) => s.aborted = none ∧ e.enabled s)
        PostEvent.next)
      (.init hinit) oneDelivery (by decide +kernel)
  obtain ⟨r, hmem, heq⟩ : ∃ r ∈ s.returned, (r.box, r.mailHdr.length) = (1, 2) := by
    have hin : (1, 2) ∈ s.returned.map fun r => (r.box, r.mailHdr.length) := by simp [hret]
    exact List.mem_map.1 hin
  obtain ⟨-, -, -, -, -, -, -, hall⟩ := mail_delivered hr
  obtain ⟨-, p, hp, -, hcarried, -⟩ := hall r hmem
  exact ⟨s, hr, r, hmem, (Prod.ext_iff.1 heq).1, (Prod.ext_iff.1 heq).2, p, hp, hcarried⟩

end Nachos
