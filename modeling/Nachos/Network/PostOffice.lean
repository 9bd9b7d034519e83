/-
# The post office

`network/post.{h,cc}`. A mail is a header of its own and up to 40 bytes of data. `Send` puts
both into one packet for the network, and the postal worker of the other machine takes them
apart and puts the mail into its box.

`Send` is one of the functions that use a device synchronously: a lock admits one sender at a
time, and the sender waits for the interrupt that says that the packet is out.
-/

import Nachos.Machine.Network
import Nachos.Threads.SynchDevice

namespace Nachos

open Base Synch

/-- `class MailHeader`: the boxes, and the length of the data behind the header. -/
abbrev MailHeader := Header

/-- `MaxMailSize`. -/
def MaxMailSize : ℕ := MaxPacketSize - HeaderSize

/-- `class Mail`. -/
structure Mail where
  pktHdr : PacketHeader
  mailHdr : MailHeader
  data : Mem

/-- `Mail::Mail`; the rest of the data is what memory held there. -/
def Mail.new (pktH : PacketHeader) (mailH : MailHeader) (msgData uninit : Mem) :
    Except Fault Mail := do
  assert (mailH.length.toNat ≤ MaxMailSize)
  return ⟨pktH, mailH, uninit.copy 0 msgData 0 mailH.length.toNat⟩

/-- The arguments of a `Send`, and what memory holds in the buffer that it allocates. -/
structure Outgoing where
  pktHdr : PacketHeader
  mailHdr : MailHeader
  data : Mem
  uninit : Mem

/-- The variables of a `Send` that has come to the lock: its packet header is filled in, and
mail header and data are in the buffer. -/
structure Sending where
  pktHdr : PacketHeader
  mailHdr : MailHeader
  data : Mem
  buffer : Mem

namespace PostOffice

/-- `PostOffice::Send` up to the lock. -/
def pack (netAddr : BitVec 32) (numBoxes : ℤ) (out : Outgoing) : Except Fault Sending := do
  assert (out.mailHdr.length.toNat ≤ MaxMailSize)
  assert (0 ≤ out.mailHdr.toAddr.toInt ∧ out.mailHdr.toAddr.toInt < numBoxes)
  let length := out.mailHdr.length + BitVec.ofNat 32 HeaderSize
  return {
    pktHdr := { out.pktHdr with fromAddr := netAddr, length := length }
    mailHdr := out.mailHdr
    data := out.data
    buffer := (out.mailHdr.store out.uninit).copy HeaderSize out.data 0 out.mailHdr.length.toNat }

/-- `PostOffice::Send`. A request gives what it puts on a socket; whether the packet is lost
and what its buffer held is not known before. -/
def sender (netAddr : BitVec 32) (numBoxes : ℤ) :
    Driver Outgoing Sending (Bool × Mem) Network (Option (BitVec 32 × Mem)) where
  prepare out := return some (← pack netAddr numBoxes out)
  request oracle s net := return (← net.send oracle.1 oracle.2 s.pktHdr s.buffer, net)
  complete net := net.sendDone

/-- `PostOffice::PostalDelivery` behind `network->Receive`: the box, and the mail that is put
into it. -/
def unpack (numBoxes : ℤ) (pktHdr : PacketHeader) (buffer uninit : Mem) :
    Except Fault (ℕ × Mail) := do
  let mailHdr := Header.load buffer
  assert (0 ≤ mailHdr.toAddr.toInt ∧ mailHdr.toAddr.toInt < numBoxes)
  assert (mailHdr.length.toNat ≤ MaxMailSize)
  return (mailHdr.toAddr.toInt.toNat, ← Mail.new pktHdr mailHdr (buffer.shift HeaderSize) uninit)

end PostOffice

end Nachos
