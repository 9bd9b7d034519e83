/-
# Reliable sending over the network

`ReliableSend`, its `DelayAck` threads and a receiver as programs that run on the machines of
`MailNet`. Their calls of `Send` and `Receive` are made at their places in the programs; all
other steps, in the locks and boxes, of the devices, the network and the postal workers, come at
any time.

What the programs have done so far, without what happens inside `Send` and `Receive`, is a state
of the two channels of `Reliable`, and every step here is a step there or changes nothing.
-/

import Nachos.Network.PostSpec
import Nachos.Network.Reliable

namespace Nachos

open Base Synch

/-- The threads of the programs. -/
inductive NetThread
  /-- The thread of machine 0 that calls `ReliableSend`. -/
  | sender
  /-- A `DelayAck` thread of machine 0. -/
  | delay (n : ℕ)
  | receiver
  deriving DecidableEq, Repr

/-- The machine and the box of the receiver. The box is not the one for the acknowledgments. -/
structure Peer where
  addr : BitVec 32
  box : ℕ
  other : addr ≠ 0 ∨ box ≠ 0

/-- Where the thread that calls `ReliableSend` is. -/
inductive CallPc
  | idle
  /-- At `postOffice->Send(ouPktHdr, ouMailHdr, data)`. -/
  | send
  /-- In it, or behind it and at `delay->Fork`. -/
  | sending
  /-- At `postOffice->Receive(0, ...)`. -/
  | receive
  /-- In it. -/
  | receiving
  deriving DecidableEq, Repr

/-- Where the receiver is. -/
inductive ReceiverPc
  /-- Still in the `Send` of the last acknowledgment, or at `postOffice->Receive`. -/
  | receive
  /-- In it. -/
  | receiving
  /-- At the `Send` of the acknowledgment. -/
  | ack
  deriving DecidableEq, Repr

/-- The machines, and the programs. -/
structure ReliableNet where
  net : MailNet NetThread
  pc : CallPc
  vars : SendVars
  /-- The `DelayAck` threads, with the number of mails that each has given to the network. -/
  delays : List ℕ
  receiver : ReceiverPc
  /-- History: the messages that were put on the way to the receiver. -/
  sentBy : List Message
  /-- History: the messages put into the box of the receiver, with the call in progress. -/
  placed : List (Message × Option ℕ)
  /-- History: the calls that have ended, with the last value of `sent`. -/
  ended : List (Message × Bool)

/-- What happens next. -/
inductive ReliableNetAct
  /-- `ReliableSend` is called, and forks a `DelayAck` thread. -/
  | call (data : List UInt8) (buffer : Mem)
  | fork
  /-- A step of a thread in the post office, or of a machine. -/
  | net (act : MailAct NetThread)

namespace Outgoing

/-- The box that a mail is sent to, and the bytes of its data. -/
def box (out : Outgoing) : ℕ := out.mailHdr.toAddr.toInt.toNat

def text (out : Outgoing) : List UInt8 := Letter.front out.data out.mailHdr.length.toNat

end Outgoing

/-- An acknowledgment is a string, and not "Resend". -/
def isAck (text : List UInt8) : Bool := text.contains 0 && !isResend (Mem.ofString text)

namespace ReliableNet

/-- Nothing has been sent yet. -/
def start (net : MailNet NetThread) (buffer : Mem) : ReliableNet where
  net := net
  pc := .idle
  vars := .new ⟨0, []⟩ buffer
  delays := []
  receiver := .receive
  sentBy := []
  placed := []
  ended := []

/-- The call in progress. -/
def inCall (st : ReliableNet) : Option ℕ :=
  if st.pc = .idle then none else some st.vars.message.call

/-- `ReliableSend` has the text of the mail in its buffer. -/
def tested (st : ReliableNet) (text : List UInt8) : ReliableNet :=
  let vars := st.vars.test text
  if vars.goesOn then { st with pc := .send, vars := vars }
  else { st with pc := .idle, vars := vars, ended := st.ended ++ [(vars.message, vars.sent)] }

/-- The thread is in `Send`. -/
def inSend (net : MailNet NetThread) (a : BitVec 32) (i : NetThread) : Bool :=
  match ((net.office a).post.threads i).pc with
  | .away => false
  | _ => true

/-- The thread is in `Receive`. -/
def inReceive (net : MailNet NetThread) (a : BitVec 32) (b : ℕ) (i : NetThread) : Bool :=
  net.getting a b i || ((net.spec.office a).hand b i).isSome

/-- The calls of `Send` and `Receive` that the programs make next. -/
def allows (peer : Peer) (st : ReliableNet) : MailAct NetThread → Bool
  | .post a (.call .sender out) =>
      a = 0 && st.pc = .send && out.pktHdr.toAddr = peer.addr && out.box = peer.box &&
        out.text = st.vars.message.data
  | .post a (.call (.delay n) out) =>
      a = 0 && (st.delays[n]?).any (· < MAXREEMISSIONS) && out.pktHdr.toAddr = 0 && out.box = 0 &&
        out.text = resendText ++ [0]
  | .post a (.call .receiver out) =>
      a = peer.addr && st.receiver = .ack && out.pktHdr.toAddr = 0 && out.box = 0 && isAck out.text
  | .receive a b .sender => a = 0 && b = 0 && st.pc = .receive
  | .receive _ _ (.delay _) => false
  | .receive a b .receiver =>
      a = peer.addr && b = peer.box && st.receiver = .receive &&
        !inSend st.net peer.addr .receiver
  | _ => true

/-- The thread has given its mail to the network. -/
def requested (net net' : MailNet NetThread) (a : BitVec 32) (i : NetThread) : Bool :=
  ((net.spec.office a).sending i).isSome && ((net'.spec.office a).sending i).isNone

/-- The post offices have made a step, and the programs go on. -/
def follow (peer : Peer) (st : ReliableNet) (net : MailNet NetThread) :
    MailAct NetThread → ReliableNet
  | .post _ (.call .sender _) => { st with net := net, pc := .sending }
  | .post _ (.call .receiver _) => { st with net := net, receiver := .receive }
  | .post _ (.step .sender _) =>
      let old := st.net.spec.letters peer.addr peer.box
      let new := net.spec.letters peer.addr peer.box
      { st with
        net := net
        sentBy := if old.length < new.length then st.sentBy ++ [st.vars.message] else st.sentBy }
  | .post a (.step (.delay n) _) =>
      { st with
        net := net
        delays := if requested st.net net a (.delay n) then st.delays.modify n (· + 1)
          else st.delays }
  | .work _ _ =>
      let old := (st.net.spec.office peer.addr).arrived peer.box
      let new := (net.spec.office peer.addr).arrived peer.box
      { st with
        net := net
        placed := if old < new then
            st.placed ++ (st.sentBy[old]?).toList.map fun message => (message, st.inCall)
          else st.placed }
  | .receive _ _ .sender => { st with net := net, pc := .receiving }
  | .receive _ _ .receiver => { st with net := net, receiver := .receiving }
  | .finish a b .sender =>
      match (st.net.office a).hand b .sender with
      | some mail => { st with net := net }.tested (Letter.ofMail mail).bytes
      | none => { st with net := net }
  | .finish _ _ .receiver => { st with net := net, receiver := .ack }
  | _ => { st with net := net }

/-- One step. -/
def exec (numBoxes : ℤ) (tid : Option NetThread → ℤ) (peer : Peer) (st : ReliableNet) :
    ReliableNetAct → Option ReliableNet
  | .call data buffer =>
      if st.pc = .idle then
        some { st with pc := .send, vars := .new ⟨st.vars.message.call + 1, data⟩ buffer }
      else none
  | .fork =>
      if st.pc = .sending ∧ inSend st.net 0 .sender = false then
        some { st with pc := .receive, delays := st.delays ++ [0] }
      else none
  | .net act =>
      if st.allows peer act then (st.net.exec numBoxes tid act).map fun net => st.follow peer net act
      else none

/-- The runs of the programs. -/
def Run (numBoxes : ℤ) (tid : Option NetThread → ℤ) (peer : Peer) (st : ReliableNet)
    (steps : List (Step ReliableNet ReliableNetAct)) (st' : ReliableNet) : Prop :=
  Trace (fun s act t => exec numBoxes tid peer s act = some t) st steps st'

/-! ## The protocol -/

/-- The receiver has a message that is not acknowledged. -/
def owes (peer : Peer) (spec : PostSpec NetThread) (receiver : ReceiverPc) : Bool :=
  receiver = .ack || ((spec.office peer.addr).hand peer.box .receiver).isSome ||
    ((spec.office peer.addr).sending .receiver).isSome

/-- Where `ReliableSend` is, if only the requests and the mails that are taken count. -/
def protocolPc (spec : PostSpec NetThread) : CallPc → SenderPc
  | .idle => .idle
  | .send => .send
  | .sending => if ((spec.office 0).sending .sender).isSome then .send else .fork
  | .receive => .receive
  | .receiving =>
      match (spec.office 0).hand 0 .sender with
      | some l => .test l.bytes
      | none => .receive

/-- What the programs have done so far. -/
def protocol (peer : Peer) (st : ReliableNet) : Reliable where
  messages := .ofCounts st.sentBy ((st.net.spec.office peer.addr).arrived peer.box)
    ((st.net.spec.office peer.addr).taken peer.box)
  replies := .ofCounts ((st.net.spec.letters 0 0).map Letter.bytes)
    ((st.net.spec.office 0).arrived 0) ((st.net.spec.office 0).taken 0)
  pc := protocolPc st.net.spec st.pc
  vars := st.vars
  delays := st.delays
  owed := if owes peer st.net.spec st.receiver then 1 else 0
  placed := st.placed
  ended := st.ended

theorem protocolPc_congr {spec spec' : PostSpec NetThread}
    (hsending : (spec'.office 0).sending .sender = (spec.office 0).sending .sender)
    (hhand : (spec'.office 0).hand 0 .sender = (spec.office 0).hand 0 .sender) (pc : CallPc) :
    protocolPc spec' pc = protocolPc spec pc := by
  rw [protocolPc.eq_def, protocolPc.eq_def, hsending, hhand]

theorem owes_congr {peer : Peer} {spec spec' : PostSpec NetThread}
    (hhand : (spec'.office peer.addr).hand peer.box .receiver =
      (spec.office peer.addr).hand peer.box .receiver)
    (hsending : (spec'.office peer.addr).sending .receiver =
      (spec.office peer.addr).sending .receiver) (receiver : ReceiverPc) :
    owes peer spec' receiver = owes peer spec receiver := by
  rw [owes, owes, hhand, hsending]

/-- What a thread sends, and where it is then in its program. -/
def Sends (peer : Peer) (st : ReliableNet) (a : BitVec 32) (i : NetThread) (l : Letter) : Prop :=
  match i with
  | .sender => a = 0 ∧ st.pc = .sending ∧ l.pktHdr.toAddr = peer.addr ∧ l.box = peer.box ∧
      l.bytes = st.vars.message.data ∧ l.bytes.length ≤ MaxMailSize
  | .delay n => a = 0 ∧ (∃ k, st.delays[n]? = some k ∧ k < MAXREEMISSIONS) ∧
      l.pktHdr.toAddr = 0 ∧ l.box = 0 ∧ l.bytes = resendText ++ [0]
  | .receiver => a = peer.addr ∧ st.receiver = .receive ∧ l.pktHdr.toAddr = 0 ∧ l.box = 0 ∧
      isAck l.bytes = true ∧ l.bytes.length ≤ MaxMailSize

/-- Which threads are in `Receive`, for which box, and where they are then in their programs. -/
def Receives (peer : Peer) (st : ReliableNet) (a : BitVec 32) (b : ℕ) (i : NetThread) : Prop :=
  match i with
  | .sender => a = 0 ∧ b = 0 ∧ st.pc = .receiving
  | .delay _ => False
  | .receiver => a = peer.addr ∧ b = peer.box ∧ st.receiver = .receiving

variable {peer : Peer} {st st' : ReliableNet} {a : BitVec 32} {b : ℕ} {i : NetThread}

/-- A thread goes on sending what it sends. -/
theorem Sends.mono {l : Letter} (h : st.Sends peer a i l)
    (hsender : i = .sender → st.pc = .sending → st'.pc = .sending ∧ st'.vars = st.vars)
    (hdelay : ∀ n k, i = .delay n → st.delays[n]? = some k → st'.delays[n]? = some k)
    (hreceiver : i = .receiver → st.receiver = .receive → st'.receiver = .receive) :
    st'.Sends peer a i l := by
  cases i with
  | sender =>
      obtain ⟨ha, hpc, hdest, hbox, hdata, hlength⟩ := h
      obtain ⟨hpc', hvars⟩ := hsender rfl hpc
      exact ⟨ha, hpc', hdest, hbox, by rw [hvars]; exact hdata, hlength⟩
  | delay n =>
      obtain ⟨ha, ⟨k, hk, hless⟩, hl⟩ := h
      exact ⟨ha, ⟨k, hdelay n k rfl hk, hless⟩, hl⟩
  | receiver =>
      obtain ⟨ha, hpc, hl⟩ := h
      exact ⟨ha, hreceiver rfl hpc, hl⟩

/-- A thread stays in `Receive`. -/
theorem Receives.mono (h : st.Receives peer a b i)
    (hsender : i = .sender → st.pc = .receiving → st'.pc = .receiving)
    (hreceiver : i = .receiver → st.receiver = .receiving → st'.receiver = .receiving) :
    st'.Receives peer a b i := by
  cases i with
  | sender => exact ⟨h.1, h.2.1, hsender rfl h.2.2⟩
  | delay n => exact h
  | receiver => exact ⟨h.1, h.2.1, hreceiver rfl h.2.2⟩

/-- A thread receives from one box only. -/
theorem Receives.unique {d : BitVec 32} {c : ℕ} (h : st.Receives peer a b i)
    (h' : st.Receives peer d c i) : d = a ∧ c = b := by
  cases i with
  | sender => exact ⟨h'.1.trans h.1.symm, h'.2.1.trans h.2.1.symm⟩
  | delay n => cases h
  | receiver => exact ⟨h'.1.trans h.1.symm, h'.2.1.trans h.2.1.symm⟩

/-- What holds of the programs and the post offices. -/
structure Inv (numBoxes : ℤ) (peer : Peer) (st : ReliableNet) : Prop where
  net : st.net.Inv numBoxes
  sends : ∀ a i l, (st.net.spec.office a).sending i = some l → st.Sends peer a i l
  receives : ∀ a b i, inReceive st.net a b i = true → st.Receives peer a b i
  sentBy : st.sentBy.map Message.data =
    (st.net.spec.letters peer.addr peer.box).map Letter.bytes

/-- The programs are where they should be after a step, and have made a step of the protocol or
none. -/
structure Goes (numBoxes : ℤ) (peer : Peer) (st st' : ReliableNet) : Prop where
  inv : st'.Inv numBoxes peer
  continues : (st.protocol peer).Continues (st'.protocol peer)

end ReliableNet

end Nachos
