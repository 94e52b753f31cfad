import Nachos.Lib.ByteMemory

/-!
# Packets

What `PostOffice::Send` and `Network::Send` put on the wire (`network/post.cc`,
`machine/network.cc`), byte by byte: a `PacketHeader`, a `MailHeader` and the data.

* The headers are three words each.  Their fields `to` and `from` are keywords here: they are
  `toAddr` and `fromAddr` in a `PacketHeader`, `toBox` and `fromBox` in a `MailHeader`.
* The buffers are blocks that `new` returns, with whatever is in them.
* A failed `ASSERT` is an error.  That of `sendBusy` is not here: a packet that it stops is never
  on the wire, as is one that `Network::Send` loses.

`Letter.send_ok` says what the bytes of a packet are, and `Packet` is a packet that has arrived.
-/

namespace Nachos

open ByteMemory

/-- `MaxWireSize`. -/
abbrev MaxWireSize : ℕ := 64

/-- `sizeof(PacketHeader)`, and `sizeof(MailHeader)`. -/
abbrev HeaderSize : ℕ := 12

/-- `MaxPacketSize`. -/
abbrev MaxPacketSize : ℕ := MaxWireSize - HeaderSize

/-- `MaxMailSize`. -/
abbrev MaxMailSize : ℕ := MaxPacketSize - HeaderSize

/-- The `ASSERT`s of the post office and the network, and the use of a pointer to no message. -/
inductive PostAssert
  | sendLength      -- `Send`: `mailHdr.length <= MaxMailSize`
  | sendBox         -- `Send`: `0 <= mailHdr.to && mailHdr.to < numBoxes`
  | networkSend     -- `Network::Send`
  | arrival         -- `CheckPktAvail`: `(inHdr.to == ident) && (inHdr.length <= MaxPacketSize)`
  | deliveryBox     -- `PostalDelivery`: `0 <= mailHdr.to && mailHdr.to < numBoxes`
  | deliveryLength  -- `PostalDelivery`: `mailHdr.length <= MaxMailSize`
  | mailLength      -- `Mail`: `mailH.length <= MaxMailSize`
  | receiveBox      -- `Receive`: `(box >= 0) && (box < numBoxes)`
  | receiveLength   -- `Receive`: `mailHdr->length <= MaxMailSize`
  | noMail          -- `Get`: `mail` points to no message
  deriving DecidableEq, Repr

/-- `class PacketHeader`. -/
@[ext] structure PacketHeader where
  toAddr : BitVec 32
  fromAddr : BitVec 32
  length : BitVec 32
  deriving DecidableEq, Repr

/-- `class MailHeader`. -/
@[ext] structure MailHeader where
  toBox : BitVec 32
  fromBox : BitVec 32
  length : BitVec 32
  deriving DecidableEq, Repr

/-! ### Headers as bytes -/

/-- The words of a header. -/
def headerWords (target source length : BitVec 32) : ℕ → BitVec 32
  | 0 => target
  | 1 => source
  | _ => length

namespace PacketHeader

/-- The bytes of a header. -/
def toBytes (hdr : PacketHeader) : Mem :=
  ofWords (headerWords hdr.toAddr hdr.fromAddr hdr.length)

/-- `*(PacketHeader *)buffer`. -/
def ofBytes (buffer : Mem) : PacketHeader :=
  ⟨word buffer 0, word buffer 4, word buffer 8⟩

theorem ofBytes_of_toBytes {buffer : Mem} {hdr : PacketHeader}
    (h : ∀ k < HeaderSize, buffer k = hdr.toBytes k) : ofBytes buffer = hdr := by
  have hword : ∀ j < 3, word buffer (4 * j) =
      headerWords hdr.toAddr hdr.fromAddr hdr.length j := by
    intro j hj
    rw [← word_ofWords (headerWords hdr.toAddr hdr.fromAddr hdr.length) j]
    exact word_congr fun k hk => h _ (by unfold HeaderSize; omega)
  ext1
  · exact hword 0 (by decide)
  · exact hword 1 (by decide)
  · exact hword 2 (by decide)

end PacketHeader

namespace MailHeader

/-- The bytes of a header. -/
def toBytes (hdr : MailHeader) : Mem :=
  ofWords (headerWords hdr.toBox hdr.fromBox hdr.length)

/-- `*(MailHeader *)buffer`. -/
def ofBytes (buffer : Mem) : MailHeader :=
  ⟨word buffer 0, word buffer 4, word buffer 8⟩

theorem ofBytes_of_toBytes {buffer : Mem} {hdr : MailHeader}
    (h : ∀ k < HeaderSize, buffer k = hdr.toBytes k) : ofBytes buffer = hdr := by
  have hword : ∀ j < 3, word buffer (4 * j) =
      headerWords hdr.toBox hdr.fromBox hdr.length j := by
    intro j hj
    rw [← word_ofWords (headerWords hdr.toBox hdr.fromBox hdr.length) j]
    exact word_congr fun k hk => h _ (by unfold HeaderSize; omega)
  ext1
  · exact hword 0 (by decide)
  · exact hword 1 (by decide)
  · exact hword 2 (by decide)

/-- `0 <= mailHdr.to && mailHdr.to < numBoxes`. -/
def BoxInRange (hdr : MailHeader) (numBoxes : ℕ) : Prop :=
  0 ≤ hdr.toBox.toInt ∧ hdr.toBox.toInt < numBoxes
  deriving Decidable

end MailHeader

/-! ### Sending -/

/-- `Network::Send`, on the machine `ident`: the bytes on the wire. -/
def networkSend (ident : BitVec 32) (hdr : PacketHeader) (data block : Mem) :
    Except PostAssert Mem :=
  if 0 < hdr.length.toNat ∧ hdr.length.toNat ≤ MaxPacketSize ∧ hdr.fromAddr = ident then
    .ok (copy data hdr.length.toNat (copy hdr.toBytes HeaderSize block 0)
      HeaderSize)
  else .error .networkSend

/-- A call of `PostOffice::Send`: the address of its machine, the arguments, and the blocks that it
and `Network::Send` get for their buffers. -/
structure Letter where
  netAddr : BitVec 32
  pktHdr : PacketHeader
  mailHdr : MailHeader
  data : Mem
  block : Mem
  wireBlock : Mem

namespace Letter

/-- The packet header that `Send` fills in. -/
def header (l : Letter) : PacketHeader :=
  { l.pktHdr with fromAddr := l.netAddr, length := l.mailHdr.length + BitVec.ofNat 32 HeaderSize }

/-- The buffer of `Send`: the mail header, and then the data. -/
def buffer (l : Letter) : Mem :=
  copy l.data l.mailHdr.length.toNat
    (copy l.mailHdr.toBytes HeaderSize l.block 0) HeaderSize

/-- `PostOffice::Send`. -/
def send (numBoxes : ℕ) (l : Letter) : Except PostAssert Mem :=
  if l.mailHdr.length.toNat ≤ MaxMailSize then
    if l.mailHdr.BoxInRange numBoxes then networkSend l.netAddr l.header l.buffer l.wireBlock
    else .error .sendBox
  else .error .sendLength

variable {numBoxes : ℕ} {l : Letter} {wire : Mem}

theorem header_length (h : l.mailHdr.length.toNat ≤ MaxMailSize) :
    l.header.length.toNat = l.mailHdr.length.toNat + HeaderSize := by
  unfold MaxMailSize MaxPacketSize MaxWireSize HeaderSize at h
  simp only [header, BitVec.toNat_add, BitVec.toNat_ofNat]
  unfold HeaderSize
  omega

theorem buffer_mailHdr {k : ℕ} (hk : k < HeaderSize) : l.buffer k = l.mailHdr.toBytes k := by
  unfold buffer
  rw [copy_of_not_mem (Or.inl hk), copy_of_mem (by omega) (by omega),
    Nat.sub_zero]

theorem buffer_data {k : ℕ} (hk : k < l.mailHdr.length.toNat) :
    l.buffer (HeaderSize + k) = l.data k := by
  unfold buffer
  rw [copy_of_mem (by omega) (by omega), Nat.add_sub_cancel_left]

/-- `Send` puts a packet on the wire whenever its own two `ASSERT`s hold. -/
theorem send_eq (hlen : l.mailHdr.length.toNat ≤ MaxMailSize)
    (hbox : l.mailHdr.BoxInRange numBoxes) :
    l.send numBoxes = .ok (copy l.buffer (l.mailHdr.length.toNat + HeaderSize)
      (copy l.header.toBytes HeaderSize l.wireBlock 0) HeaderSize) := by
  have hheader := header_length hlen
  have hnet : 0 < l.header.length.toNat ∧ l.header.length.toNat ≤ MaxPacketSize ∧
      l.header.fromAddr = l.netAddr := by
    unfold MaxMailSize MaxPacketSize MaxWireSize HeaderSize at *
    exact ⟨by omega, by omega, rfl⟩
  unfold send networkSend
  rw [if_pos hlen, if_pos hbox, if_pos hnet, hheader]

/-- What `Send` has checked. -/
theorem send_checked (h : l.send numBoxes = .ok wire) :
    l.mailHdr.length.toNat ≤ MaxMailSize ∧ l.mailHdr.BoxInRange numBoxes := by
  unfold send at h
  split_ifs at h with hlen hbox
  exact ⟨hlen, hbox⟩

/-- **The bytes of a packet**: the packet header, and then the buffer of `Send`. -/
theorem send_ok (h : l.send numBoxes = .ok wire) :
    PacketHeader.ofBytes wire = l.header ∧
      ∀ k < l.mailHdr.length.toNat + HeaderSize, wire (HeaderSize + k) = l.buffer k := by
  obtain ⟨hlen, hbox⟩ := send_checked h
  rw [send_eq hlen hbox] at h
  cases h
  refine ⟨PacketHeader.ofBytes_of_toBytes fun k hk => ?_, fun k hk => ?_⟩
  · rw [copy_of_not_mem (Or.inl hk), copy_of_mem (by omega) (by omega),
      Nat.sub_zero]
  · rw [copy_of_mem (by omega) (by omega), Nat.add_sub_cancel_left]

end Letter

/-! ### Arriving -/

/-- A machine: its address, its number of boxes, and the thread of its postal worker. -/
structure Office where
  ident : BitVec 32
  numBoxes : ℕ
  worker : ℕ

/-- A packet for a machine: `Send` has built it, on some machine with as many boxes. -/
structure Packet (po : Office) where
  letter : Letter
  wire : Mem
  built : letter.send po.numBoxes = .ok wire
  addressed : letter.pktHdr.toAddr = po.ident

namespace Packet

variable {po : Office} (p : Packet po)

/-- The number of bytes of the message. -/
def size : ℕ := p.letter.mailHdr.length.toNat

theorem size_le : p.size ≤ MaxMailSize := (Letter.send_checked p.built).1

theorem boxInRange : p.letter.mailHdr.BoxInRange po.numBoxes := (Letter.send_checked p.built).2

/-- The box that the message is for. -/
def box : ℕ := p.letter.mailHdr.toBox.toInt.toNat

theorem ofBytes_wire : PacketHeader.ofBytes p.wire = p.letter.header := (Letter.send_ok p.built).1

theorem header_length : p.letter.header.length.toNat = p.size + HeaderSize :=
  Letter.header_length p.size_le

theorem header_length_ne : p.letter.header.length ≠ 0 := by
  intro h
  have hlen := p.header_length
  rw [h] at hlen
  simp at hlen

/-- The `ASSERT` of `CheckPktAvail`. -/
theorem header_checked : p.letter.header.toAddr = po.ident ∧
    p.letter.header.length.toNat ≤ MaxPacketSize := by
  have hsize := p.size_le
  refine ⟨p.addressed, ?_⟩
  rw [p.header_length]
  unfold MaxMailSize MaxPacketSize MaxWireSize HeaderSize at *
  omega

/-- The bytes after the packet header are in a buffer. -/
def InBuffer (buffer : Mem) : Prop := ∀ k < p.size + HeaderSize, buffer k = p.letter.buffer k

variable {p} {buffer : Mem}

theorem InBuffer.mailHdr (h : p.InBuffer buffer) : MailHeader.ofBytes buffer = p.letter.mailHdr :=
  MailHeader.ofBytes_of_toBytes fun k hk => by
    rw [h k (by omega), Letter.buffer_mailHdr hk]

theorem InBuffer.data (h : p.InBuffer buffer) {k : ℕ} (hk : k < p.size) :
    buffer (HeaderSize + k) = p.letter.data k := by
  rw [h _ (by omega), Letter.buffer_data hk]

theorem inBuffer_wire (inbox : Mem) : p.InBuffer
    (copy (fun k => p.wire (HeaderSize + k)) p.letter.header.length.toNat inbox 0) := by
  intro k hk
  rw [p.header_length, copy_of_mem (by omega) (by omega), Nat.sub_zero]
  exact (Letter.send_ok p.built).2 k hk

theorem InBuffer.copy (h : p.InBuffer buffer) (dst : Mem) : p.InBuffer
    (copy buffer p.letter.header.length.toNat dst 0) := by
  intro k hk
  rw [p.header_length, copy_of_mem (by omega) (by omega), Nat.sub_zero]
  exact h k hk

end Packet

/-! ### Messages -/

/-- `class Mail`. -/
structure Mail where
  pktHdr : PacketHeader
  mailHdr : MailHeader
  data : Mem

/-- `Mail::Mail`, in a block that `new` returns. -/
def newMail (pktH : PacketHeader) (mailH : MailHeader) (msgData block : Mem) :
    Except PostAssert Mail :=
  if mailH.length.toNat ≤ MaxMailSize then
    .ok ⟨pktH, mailH, copy msgData mailH.length.toNat block 0⟩
  else .error .mailLength

/-- The headers and the data are those that were given to `Send`, and the sender is its machine. -/
structure Packet.Carried {po : Office} (p : Packet po) (pktHdr : PacketHeader)
    (mailHdr : MailHeader) (data : Mem) : Prop where
  pktHdr : pktHdr = p.letter.header
  mailHdr : mailHdr = p.letter.mailHdr
  data : ∀ k < p.size, data k = p.letter.data k

theorem Packet.Carried.fromAddr {po : Office} {p : Packet po} {pktHdr : PacketHeader}
    {mailHdr : MailHeader} {data : Mem} (h : p.Carried pktHdr mailHdr data) :
    pktHdr.fromAddr = p.letter.netAddr := by
  rw [h.pktHdr]
  rfl

end Nachos
