/-
# The network

`machine/network.{h,cc}`. A packet is 64 bytes on the wire: a header of three words and up to
52 bytes of data, padded with whatever the buffer held. A packet that has been read from the
socket waits in the one-packet inbox of the machine, and the inbox is free when the length in
its header is zero.

The flag `sendBusy` is tested by `Network::Send` and cleared by the completion interrupt, but
nothing ever sets it.
-/

import Nachos.Base.Mem
import Nachos.Base.Fault

namespace Nachos

open Base

/-- The two headers, `PacketHeader` and `MailHeader`, have the same three fields. An address
is an `int` and the length an `unsigned`. -/
structure Header where
  toAddr : BitVec 32
  fromAddr : BitVec 32
  length : BitVec 32
  deriving DecidableEq, Repr

/-- `class PacketHeader`: the machines, and the length of the data behind the header. -/
abbrev PacketHeader := Header

/-- `sizeof(PacketHeader)`, which is `sizeof(MailHeader)` too. -/
def HeaderSize : ℕ := 12

/-- `MaxWireSize`. -/
def MaxWireSize : ℕ := 64

/-- `MaxPacketSize`. -/
def MaxPacketSize : ℕ := MaxWireSize - HeaderSize

namespace Header

/-- The header is written at the beginning of a buffer. -/
def store (hdr : Header) (buffer : Mem) : Mem :=
  ((buffer.setWord 0 hdr.toAddr).setWord 4 hdr.fromAddr).setWord 8 hdr.length

/-- The header at the beginning of a buffer. -/
def load (buffer : Mem) : Header := ⟨buffer.word 0, buffer.word 4, buffer.word 8⟩

/-- A header depends on its twelve bytes only. -/
theorem load_congr {m m' : Mem} (h : ∀ k < 12, m k = m' k) : load m = load m' := by
  have hword (a : ℕ) (ha : a + 4 ≤ 12) : m.word a = m'.word a :=
    Mem.word_congr fun k hk => h (a + k) (by omega)
  rw [load, load, hword 0 (by omega), hword 4 (by omega), hword 8 (by omega)]

@[simp]
theorem load_store (hdr : Header) (buffer : Mem) : load (hdr.store buffer) = hdr := by
  have hto : (hdr.store buffer).word 0 = hdr.toAddr := by
    rw [store, Mem.word_setWord_of_disjoint _ _ (by omega),
      Mem.word_setWord_of_disjoint _ _ (by omega), Mem.word_setWord_self]
  have hfrom : (hdr.store buffer).word 4 = hdr.fromAddr := by
    rw [store, Mem.word_setWord_of_disjoint _ _ (by omega), Mem.word_setWord_self]
  have hlength : (hdr.store buffer).word 8 = hdr.length := by
    rw [store, Mem.word_setWord_self]
  rw [load, hto, hfrom, hlength]

/-- The header of a buffer that is filled behind it. -/
theorem load_copy (hdr : Header) (buffer data : Mem) (n : ℕ) :
    load ((hdr.store buffer).copy HeaderSize data 0 n) = hdr := by
  calc load ((hdr.store buffer).copy HeaderSize data 0 n) = load (hdr.store buffer) :=
        load_congr fun k hk => Mem.copy_of_not_mem _ _ (.inl hk)
    _ = hdr := load_store hdr buffer

end Header

/-- `class Network`. -/
structure Network where
  ident : BitVec 32
  sendBusy : Bool
  inHdr : PacketHeader
  inbox : Mem

namespace Network

/-- `Network::Network`; memory holds `inHdr` and `inbox` where the inbox is. -/
def new (addr : BitVec 32) (inHdr : PacketHeader) (inbox : Mem) : Network :=
  ⟨addr, false, { inHdr with length := 0 }, inbox⟩

/-- `Network::Send`: what is put on which socket; nothing if the packet is lost. The rest of
the wire buffer is what memory held there. -/
def send (net : Network) (lost : Bool) (uninit : Mem) (hdr : PacketHeader) (data : Mem) :
    Except Fault (Option (BitVec 32 × Mem)) := do
  assert (net.sendBusy = false ∧ 0 < hdr.length.toNat ∧ hdr.length.toNat ≤ MaxPacketSize ∧
    hdr.fromAddr = net.ident)
  if lost then
    return none
  return some (hdr.toAddr, (hdr.store uninit).copy HeaderSize data 0 hdr.length.toNat)

/-- `Network::SendDone`, up to the call of the handler. -/
def sendDone (net : Network) : Network := { net with sendBusy := false }

/-- `Network::CheckPktAvail`, with what is left on the socket and whether the handler is
called. -/
def checkPktAvail (net : Network) (sock : List Mem) : Except Fault (Network × List Mem × Bool) :=
  if net.inHdr.length ≠ 0 then .ok (net, sock, false)
  else match sock with
    | [] => .ok (net, [], false)
    | buffer :: rest => do
        let inHdr := Header.load buffer
        assert (inHdr.toAddr = net.ident ∧ inHdr.length.toNat ≤ MaxPacketSize)
        let inbox := net.inbox.copy 0 buffer HeaderSize inHdr.length.toNat
        return ({ net with inHdr := inHdr, inbox := inbox }, rest, true)

/-- `Network::Receive`, with what it leaves in `data`. -/
def receive (net : Network) (data : Mem) : PacketHeader × Mem × Network :=
  let hdr := net.inHdr
  (hdr, if hdr.length ≠ 0 then data.copy 0 net.inbox 0 hdr.length.toNat else data,
    { net with inHdr := { hdr with length := 0 } })

end Network

end Nachos
