/-
# Mail between machines

The post offices of any number of machines with the same number of boxes, joined by sockets.
On each machine, threads send and receive at the same time; the network is polled and its
interrupts come at any time; and the postal worker takes packets from the inbox to the boxes.
A machine is known by its address. The socket of a machine is a queue of packets, which are
delivered as they were written, once and in order.

A box is a synchronized list, used by the worker for `Put` and by the other threads for `Get`.
Each step of these is a step here.
-/

import Nachos.Network.PostOffice
import Nachos.Threads.SynchList

namespace Nachos

open Base Synch

/-- Where the postal worker is in its loop. -/
inductive WorkerPc
  /-- At `messageAvailable->P()`. -/
  | waiting
  /-- At `network->Receive(buffer)`. -/
  | receiving
  /-- Behind it, with the header of the packet. -/
  | unpacking (pktHdr : PacketHeader)
  /-- In `boxes[box].Put`. -/
  | putting (box : ℕ)
  deriving DecidableEq, Repr

/-- The post office of a machine. In the boxes the postal worker is the thread `none`. -/
structure Office (ι : Type) where
  post : DeviceRun ι Sending Network (Option (BitVec 32 × Mem))
  messageAvailable : ℕ
  worker : WorkerPc
  /-- The buffer of the postal worker. -/
  buffer : Mem
  boxes : ℕ → ListRun (Option ι) Mail
  /-- The mail of a thread that has taken it out of a box and not returned from `Receive`. -/
  hand : ℕ → ι → Option Mail
  /-- History: the mails taken out of a box, and those that `Receive` has returned. -/
  taken : ℕ → List (ι × Mail)
  returned : ℕ → List (ι × Mail)

/-- The machines and the sockets between them. -/
structure MailNet (ι : Type) where
  office : BitVec 32 → Office ι
  socket : BitVec 32 → List Mem
  /-- History: what was put on a socket, with the address of the sender. -/
  posted : BitVec 32 → List (BitVec 32 × Sending)

/-- What happens next on machine `a`. -/
inductive MailAct (ι : Type)
  /-- A step of a `Send`, or a send-done interrupt. -/
  | post (a : BitVec 32) (act : DeviceAct ι Outgoing (Bool × Mem))
  /-- The network is polled. -/
  | poll (a : BitVec 32)
  /-- A step of the postal worker; memory holds `uninit` where a new mail is made. -/
  | work (a : BitVec 32) (uninit : Mem)
  /-- A call of `Receive`, a step in the box, and the end of the call. -/
  | receive (a : BitVec 32) (box : ℕ) (i : ι)
  | remove (a : BitVec 32) (box : ℕ) (i : ι)
  | finish (a : BitVec 32) (box : ℕ) (i : ι)

namespace Office

variable {ι : Type} [DecidableEq ι]

/-- One box is replaced. -/
def setBox (o : Office ι) (box : ℕ) (list : ListRun (Option ι) Mail) : Office ι :=
  { o with boxes := Function.update o.boxes box list }

/-- `CheckPktAvail` has been called; with `avail` it calls `messageAvailable->V()`. -/
def polled (o : Office ι) (net : Network) (avail : Bool) : Office ι :=
  { o with
    post := { o.post with device := net }
    messageAvailable := if avail then Units.V o.messageAvailable else o.messageAvailable }

/-- `network->Receive(buffer)` by the postal worker. -/
def fetch (o : Office ι) : Office ι :=
  let (pktHdr, buffer, net) := o.post.device.receive o.buffer
  { o with
    post := { o.post with device := net }
    buffer := buffer
    worker := .unpacking pktHdr }

/-- A step of the postal worker. -/
def work (numBoxes : ℤ) (tid : Option ι → ℤ) (o : Office ι) (uninit : Mem) : Option (Office ι) :=
  match o.worker with
  | .waiting =>
      (Units.P o.messageAvailable).map fun units =>
        { o with messageAvailable := units, worker := .receiving }
  | .receiving => some o.fetch
  | .unpacking pktHdr =>
      match PostOffice.unpack numBoxes pktHdr o.buffer uninit with
      | .ok (box, mail) =>
          ((o.boxes box).exec tid (none, .call (.append mail))).map fun list =>
            { o.setBox box list with worker := .putting box }
      | .error _ => none
  | .putting box =>
      ((o.boxes box).exec tid (none, .step)).map fun list =>
        { o.setBox box list with
          worker := match (list.threads none).pc with
            | .away => .waiting
            | _ => .putting box }

/-- A call of `Receive` by thread `i`. -/
def receive (numBoxes : ℤ) (tid : Option ι → ℤ) (o : Office ι) (box : ℕ) (i : ι) :
    Option (Office ι) :=
  if (box : ℤ) < numBoxes ∧ o.hand box i = none then
    ((o.boxes box).exec tid (some i, .call .remove)).map fun list => o.setBox box list
  else none

/-- A step of thread `i` in the box. When it takes a mail, it has it in its hand. -/
def remove (tid : Option ι → ℤ) (o : Office ι) (box : ℕ) (i : ι) : Option (Office ι) :=
  ((o.boxes box).exec tid (some i, .step)).map fun list =>
    match list.removed[(o.boxes box).removed.length]? with
    | some mail => { o.setBox box list with
        hand := Function.update o.hand box (Function.update (o.hand box) i (some mail))
        taken := Function.update o.taken box (o.taken box ++ [(i, mail)]) }
    | none => o.setBox box list

/-- Thread `i`, outside the box, copies its mail and returns from `Receive`. -/
def finish (o : Office ι) (box : ℕ) (i : ι) : Option (Office ι) :=
  match ((o.boxes box).threads (some i)).pc, o.hand box i with
  | .away, some mail => some { o with
      hand := Function.update o.hand box (Function.update (o.hand box) i none)
      returned := Function.update o.returned box (o.returned box ++ [(i, mail)]) }
  | _, _ => none

end Office

namespace MailNet

variable {ι : Type} [DecidableEq ι]

/-- One office is replaced. -/
def setOffice (st : MailNet ι) (a : BitVec 32) (o : Office ι) : MailNet ι :=
  { st with office := Function.update st.office a o }

/-- Machine `a` has put a packet on the socket of machine `dest`. -/
def transmit (st : MailNet ι) (a dest : BitVec 32) (s : Sending) (wire : Mem) : MailNet ι :=
  { st with
    socket := Function.update st.socket dest (st.socket dest ++ [wire])
    posted := Function.update st.posted dest (st.posted dest ++ [(a, s)]) }

/-- The sending side of machine `a` has made a step. If it was a request that was not lost,
its packet is on a socket. -/
def sent (st : MailNet ι) (a : BitVec 32)
    (post : DeviceRun ι Sending Network (Option (BitVec 32 × Mem))) : MailNet ι :=
  let st' := st.setOffice a { st.office a with post := post }
  match post.requests[(st.office a).post.requests.length]? with
  | some (_, s, some (dest, wire)) => st'.transmit a dest s wire
  | _ => st'

/-- One step. A failed assertion stops the machine. -/
def exec (numBoxes : ℤ) (tid : Option ι → ℤ) (st : MailNet ι) : MailAct ι → Option (MailNet ι)
  | .post a act =>
      ((st.office a).post.exec (PostOffice.sender a numBoxes) (fun i => tid (some i)) act).map
        fun post => st.sent a post
  | .poll a =>
      match (st.office a).post.device.checkPktAvail (st.socket a) with
      | .ok (net, sock, avail) =>
          some { st.setOffice a ((st.office a).polled net avail) with
            socket := Function.update st.socket a sock }
      | .error _ => none
  | .work a uninit => ((st.office a).work numBoxes tid uninit).map fun o => st.setOffice a o
  | .receive a box i => ((st.office a).receive numBoxes tid box i).map fun o => st.setOffice a o
  | .remove a box i => ((st.office a).remove tid box i).map fun o => st.setOffice a o
  | .finish a box i => ((st.office a).finish box i).map fun o => st.setOffice a o

/-- The machines after their post offices are constructed. Memory holds anything in the
inboxes and the buffers. -/
def start (inHdr : BitVec 32 → PacketHeader) (inbox buffer : BitVec 32 → Mem) : MailNet ι where
  office a := {
    post := DeviceRun.start (Network.new a (inHdr a) (inbox a))
    messageAvailable := 0
    worker := .waiting
    buffer := buffer a
    boxes := fun _ => ListRun.start
    hand := fun _ _ => none
    taken := fun _ => []
    returned := fun _ => [] }
  socket _ := []
  posted _ := []

/-- The runs of the machines. -/
def Run (numBoxes : ℤ) (tid : Option ι → ℤ) (st : MailNet ι)
    (steps : List (Step (MailNet ι) (MailAct ι))) (st' : MailNet ι) : Prop :=
  Trace (fun s act t => exec numBoxes tid s act = some t) st steps st'

end MailNet

/-! ## Letters -/

/-- What a mail says. -/
structure Letter where
  pktHdr : PacketHeader
  mailHdr : MailHeader
  bytes : List UInt8
  deriving DecidableEq, Repr

namespace Letter

/-- The first bytes of a buffer. -/
def front (data : Mem) (n : ℕ) : List UInt8 := (List.range n).map data

/-- A mail that is given to `Send`. -/
def ofSending (s : Sending) : Letter := ⟨s.pktHdr, s.mailHdr, front s.data s.mailHdr.length.toNat⟩

/-- A mail in a box. -/
def ofMail (mail : Mail) : Letter :=
  ⟨mail.pktHdr, mail.mailHdr, front mail.data mail.mailHdr.length.toNat⟩

/-- A mail in a packet that has been taken apart. -/
def ofPacket (pktHdr : PacketHeader) (buffer : Mem) : Letter :=
  ⟨pktHdr, Header.load buffer,
    front (buffer.shift HeaderSize) (Header.load buffer).length.toNat⟩

/-- A mail in a packet on the wire. -/
def ofWire (wire : Mem) : Letter := ofPacket (Header.load wire) (wire.shift HeaderSize)

/-- The box that a mail is for. -/
def box (l : Letter) : ℕ := l.mailHdr.toAddr.toInt.toNat

end Letter

end Nachos
