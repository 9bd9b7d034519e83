/-
# Reliable sending

`network/reliable.{h,cc}`. `ReliableSend` sends a message, forks a thread that after a while
sends "Resend" mails to box 0 of its own machine, and takes the first mail that comes to this
box. If it says "Resend" the message is sent again, at most five times in all; any other text is
taken for the acknowledgment.

The calls are numbered, and a copy of a message carries the number of the call that has sent it.
The code has no such number: what a mail in box 0 is an acknowledgment of cannot be seen from
it. Here the two ways through the network, from the sender to the box of the receiver and back
to box 0, are channels, and a packet can be lost when it is sent.
-/

import Nachos.Base.Channel
import Nachos.Base.CString
import Nachos.Base.Trace
import Nachos.Network.PostOffice

namespace Nachos

open Base

/-- `MAXREEMISSIONS`. -/
def MAXREEMISSIONS : ℕ := 5

/-- The text of the mails that `DelayAck` sends: "Resend". -/
def resendText : List UInt8 := [82, 101, 115, 101, 110, 100]

/-- `strcmp(buffer, "Resend") == 0`. -/
def isResend (buffer : Mem) : Bool :=
  buffer.strnEqual (Mem.ofString resendText) (resendText.length + 1)

/-- The bytes of a mail are copied to a buffer. -/
def copyText (buffer : Mem) (text : List UInt8) : Mem :=
  buffer.copy 0 (Mem.ofString text) 0 text.length

/-- A mail that is a string reads the same in every buffer. -/
theorem isResend_copyText (buffer : Mem) {text : List UInt8} (hzero : 0 ∈ text) :
    isResend (copyText buffer text) = isResend (Mem.ofString text) := by
  obtain ⟨p, hp, hend⟩ := List.mem_iff_getElem.mp hzero
  have hsame {k : ℕ} (hk : k < text.length) : copyText buffer text k = Mem.ofString text k := by
    rw [copyText, Mem.copy_of_mem _ _ (by omega), Nat.sub_zero, Nat.add_zero]
  refine Mem.strnEqual_congr_left (Mem.strnEqual_iff.mpr fun k _ hearlier => hsame ?_) _
  -- The string ends at `p`, so that no byte behind it is looked at.
  by_contra hk
  refine hearlier p (by omega) ?_
  rw [hsame hp, Mem.ofString, List.getD_eq_getElem _ _ hp, hend]

/-- A message, with the number of the call of `ReliableSend` that sends it. -/
structure Message where
  call : ℕ
  data : List UInt8
  deriving DecidableEq, Repr

/-- The variables of `ReliableSend`. -/
structure SendVars where
  message : Message
  reem : ℕ
  sent : Bool
  buffer : Mem

namespace SendVars

/-- At the beginning of a call. -/
def new (message : Message) (buffer : Mem) : SendVars := ⟨message, 0, false, buffer⟩

/-- The condition of the loop. -/
def goesOn (v : SendVars) : Bool := v.reem < MAXREEMISSIONS && !v.sent

/-- The loop from the copy in `Receive` on. -/
def test (v : SendVars) (text : List UInt8) : SendVars :=
  let buffer := copyText v.buffer text
  { v with
    buffer := buffer
    sent := if isResend buffer then v.sent else true
    reem := v.reem + 1 }

end SendVars

/-- Where the thread that calls `ReliableSend` is. -/
inductive SenderPc
  | idle
  /-- At `postOffice->Send(ouPktHdr, ouMailHdr, data)`. -/
  | send
  /-- At `delay->Fork(DelayAck, ackdata)`. -/
  | fork
  /-- At `postOffice->Receive(0, ...)`. -/
  | receive
  /-- With the mail that `Receive` has taken out of the box. -/
  | test (text : List UInt8)
  deriving DecidableEq, Repr

/-- The sender with its `DelayAck` threads, the receiver, and the channels between them. -/
structure Reliable where
  /-- To the box of the receiver. -/
  messages : Channel Message
  /-- To box 0 of the sender. -/
  replies : Channel (List UInt8)
  pc : SenderPc
  vars : SendVars
  /-- The `DelayAck` threads, with the number of mails that each has sent. -/
  delays : List ℕ
  /-- The messages that the receiver has taken and not acknowledged. -/
  owed : ℕ
  /-- History: the messages put into the box of the receiver, with the call in progress. -/
  placed : List (Message × Option ℕ)
  /-- History: the calls that have ended, with the last value of `sent`. -/
  ended : List (Message × Bool)

/-- What happens next. -/
inductive ReliableAct
  /-- `ReliableSend` is called. -/
  | call (data : List UInt8) (buffer : Mem)
  /-- It goes on. -/
  | send (lost : Bool)
  | fork
  | receive
  | test
  /-- A `DelayAck` thread sends a mail. -/
  | resend (n : ℕ) (lost : Bool)
  /-- A mail gets to its box. -/
  | arriveMessage
  | arriveReply
  /-- The receiver takes a message, and acknowledges one. -/
  | take
  | ack (text : List UInt8) (lost : Bool)

namespace Reliable

/-- Nothing has been sent yet. -/
def start (buffer : Mem) : Reliable where
  messages := .empty
  replies := .empty
  pc := .idle
  vars := .new ⟨0, []⟩ buffer
  delays := []
  owed := 0
  placed := []
  ended := []

/-- The call in progress. -/
def inCall (st : Reliable) : Option ℕ := if st.pc = .idle then none else some st.vars.message.call

/-- The first mail was "Resend" or not, and the loop is at its end. -/
def tested (st : Reliable) (text : List UInt8) : Reliable :=
  let vars := st.vars.test text
  if vars.goesOn then { st with pc := .send, vars := vars }
  else { st with pc := .idle, vars := vars, ended := st.ended ++ [(vars.message, vars.sent)] }

/-- A mail to box 0, unless it is lost. -/
def reply (st : Reliable) (text : List UInt8) (lost : Bool) : Reliable :=
  { st with replies := if lost then st.replies else st.replies.put text }

/-- One step. An acknowledgment is a string, and not "Resend". -/
def exec (st : Reliable) : ReliableAct → Option Reliable
  | .call data buffer =>
      if st.pc = .idle then
        some { st with pc := .send, vars := .new ⟨st.vars.message.call + 1, data⟩ buffer }
      else none
  | .send lost =>
      if st.pc = .send ∧ st.vars.message.data.length ≤ MaxMailSize then
        some { st with
          pc := .fork
          messages := if lost then st.messages else st.messages.put st.vars.message }
      else none
  | .fork => if st.pc = .fork then some { st with pc := .receive, delays := st.delays ++ [0] } else none
  | .receive =>
      if st.pc = .receive then
        st.replies.take.map fun (text, replies) => { st with pc := .test text, replies := replies }
      else none
  | .test =>
      match st.pc with
      | .test text => some (st.tested text)
      | _ => none
  | .resend n lost =>
      match st.delays[n]? with
      | some i =>
          if i < MAXREEMISSIONS then
            some ({ st with delays := st.delays.set n (i + 1) }.reply (resendText ++ [0]) lost)
          else none
      | none => none
  | .arriveMessage =>
      st.messages.arrive.map fun (message, messages) =>
        { st with messages := messages, placed := st.placed ++ [(message, st.inCall)] }
  | .arriveReply => st.replies.arrive.map fun (_, replies) => { st with replies := replies }
  | .take =>
      st.messages.take.map fun (_, messages) => { st with messages := messages, owed := st.owed + 1 }
  | .ack text lost =>
      if 0 < st.owed ∧ text.length ≤ MaxMailSize ∧ 0 ∈ text ∧ isResend (Mem.ofString text) = false then
        some ({ st with owed := st.owed - 1 }.reply text lost)
      else none

/-- Nothing happens, or a step that does not begin a call. -/
inductive Continues (st : Reliable) : Reliable → Prop
  | stay : Continues st st
  | step {st' : Reliable} (act : ReliableAct) (hact : ∀ data buffer, act ≠ .call data buffer) :
      st.exec act = some st' → Continues st st'

/-! ## What a call can take for its acknowledgment -/

/-- The mails that the call will take: the one in its hand, and those that are waiting. -/
def coming (st : Reliable) : List (List UInt8) :=
  (match st.pc with
    | .test text => [text]
    | _ => []) ++ st.replies.waiting

/-- When a call begins, nothing is left that it could take for its acknowledgment: of the mails
that it will take, those that are waiting say "Resend"; and if these are not all, no copy of an
earlier message can still be acknowledged. -/
structure Quiet (st : Reliable) : Prop where
  replies : ∀ text ∈ st.replies.waiting.take MAXREEMISSIONS, isResend (Mem.ofString text) = true
  messages : st.replies.waiting.length < MAXREEMISSIONS → st.messages.waiting = [] ∧ st.owed = 0

/-- Why the call in progress will not report a delivery that there was not. -/
inductive Safe (st : Reliable) : Prop
  /-- A copy of the message has been put into the box of the receiver. -/
  | placed (h : (st.vars.message, some st.vars.message.call) ∈ st.placed)
  /-- The call will end with `sent == 0`. -/
  | refused (hlength : MAXREEMISSIONS - st.vars.reem ≤ st.coming.length)
      (hresend : ∀ text ∈ st.coming.take (MAXREEMISSIONS - st.vars.reem),
        isResend (Mem.ofString text) = true)
  /-- There is nothing to acknowledge before the first copy of the message arrives. -/
  | fresh (hbox : st.messages.box = []) (hflying : ∀ m ∈ st.messages.flying, m = st.vars.message)
      (howed : st.owed = 0) (hresend : ∀ text ∈ st.coming, isResend (Mem.ofString text) = true)

/-- What holds of the sender and the receiver. -/
structure Inv (st : Reliable) : Prop where
  strings : ∀ text ∈ st.coming, 0 ∈ text
  running : st.pc ≠ .idle → st.vars.reem < MAXREEMISSIONS ∧ st.vars.sent = false
  delivered : ∀ m, (m, true) ∈ st.ended → (m, some m.call) ∈ st.placed
  safe : st.pc ≠ .idle → st.Safe

theorem Inv.start (buffer : Mem) : (start buffer).Inv where
  strings := nofun
  running hpc := absurd rfl hpc
  delivered := nofun
  safe hpc := absurd rfl hpc

variable {st st' : Reliable}

/-- Outside of the test of a mail, the mails that will be taken are those that are waiting. -/
theorem coming_eq_waiting (hpc : ∀ text, st.pc ≠ .test text) : st.coming = st.replies.waiting := by
  rw [coming]
  split
  · exact absurd ‹_› (hpc _)
  · rfl

/-- The call stays safe when more mails come and more messages are placed. -/
theorem Safe.mono (h : st.Safe) (hvars : st'.vars = st.vars) (hplaced : st.placed ⊆ st'.placed)
    (hcoming : st.coming <+: st'.coming)
    (hfresh : st.messages.box = [] → (∀ m ∈ st.messages.flying, m = st.vars.message) → st.owed = 0 →
      (∀ text ∈ st.coming, isResend (Mem.ofString text) = true) → st'.Safe) : st'.Safe := by
  cases h with
  | placed h =>
      refine .placed ?_
      rw [hvars]
      exact hplaced h
  | refused hlength hresend =>
      obtain ⟨more, hmore⟩ := hcoming
      refine .refused ?_ ?_
      · rw [hvars, ← hmore, List.length_append]
        omega
      · rw [hvars, ← hmore, List.take_append_of_le_length hlength]
        exact hresend
  | fresh hbox hflying howed hresend => exact hfresh hbox hflying howed hresend

/-- A step that neither begins nor ends a call. -/
theorem Inv.mono (h : st.Inv) (hpc : st'.pc ≠ .idle → st.pc ≠ .idle) (hvars : st'.vars = st.vars)
    (hended : st'.ended = st.ended) (hplaced : st.placed ⊆ st'.placed)
    (hcoming : st.coming <+: st'.coming) (hstrings : ∀ text ∈ st'.coming, 0 ∈ text)
    (hfresh : st.pc ≠ .idle → st.messages.box = [] →
      (∀ m ∈ st.messages.flying, m = st.vars.message) → st.owed = 0 →
      (∀ text ∈ st.coming, isResend (Mem.ofString text) = true) → st'.Safe) : st'.Inv where
  strings := hstrings
  running hne := by
    rw [hvars]
    exact h.running (hpc hne)
  delivered m hm := by
    rw [hended] at hm
    exact hplaced (h.delivered m hm)
  safe hne := (h.safe (hpc hne)).mono hvars hplaced hcoming (hfresh (hpc hne))

/-- A call begins. -/
theorem Inv.call (h : st.Inv) (hpc : st.pc = .idle) (hquiet : st.Quiet) (message : Message)
    (buffer : Mem) : Inv { st with pc := .send, vars := .new message buffer } := by
  have hcoming : st.coming = st.replies.waiting := coming_eq_waiting (by rw [hpc]; nofun)
  refine ⟨?_, fun _ => ⟨show 0 < MAXREEMISSIONS by decide, rfl⟩, h.delivered, fun _ => ?_⟩
  · have hstrings := h.strings
    rw [hcoming] at hstrings
    exact hstrings
  · by_cases hlength : MAXREEMISSIONS ≤ st.replies.waiting.length
    · exact .refused hlength hquiet.replies
    · obtain ⟨hmessages, howed⟩ := hquiet.messages (by omega)
      obtain ⟨hbox, hflying⟩ := List.append_eq_nil_iff.mp hmessages
      have hreplies := hquiet.replies
      rw [List.take_of_length_le (by omega)] at hreplies
      refine .fresh hbox ?_ howed hreplies
      intro m hm
      rw [hflying] at hm
      cases hm

/-- The message is sent. -/
theorem Inv.send (h : st.Inv) (hpc : st.pc = .send) (lost : Bool) :
    Inv { st with
      pc := .fork
      messages := if lost then st.messages else st.messages.put st.vars.message } := by
  have hcoming : st.coming = st.replies.waiting := coming_eq_waiting (by rw [hpc]; nofun)
  refine h.mono (fun _ => by rw [hpc]; nofun) rfl rfl (List.Subset.refl _) ?_ ?_
    fun _ hbox hflying howed hresend => ?_
  · rw [hcoming]
    exact List.prefix_rfl
  · have hstrings := h.strings
    rw [hcoming] at hstrings
    exact hstrings
  · rw [hcoming] at hresend
    cases lost with
    | true => exact .fresh hbox hflying howed hresend
    | false =>
        refine .fresh hbox (fun m hm => ?_) howed hresend
        rcases List.mem_append.mp hm with hm | hm
        · exact hflying m hm
        · exact List.mem_singleton.mp hm

/-- The `DelayAck` thread is forked. -/
theorem Inv.fork (h : st.Inv) (hpc : st.pc = .fork) :
    Inv { st with pc := .receive, delays := st.delays ++ [0] } := by
  have hcoming : st.coming = st.replies.waiting := coming_eq_waiting (by rw [hpc]; nofun)
  have hstrings := h.strings
  rw [hcoming] at hstrings
  refine h.mono (fun _ => by rw [hpc]; nofun) rfl rfl (List.Subset.refl _) ?_ hstrings
    fun _ hbox hflying howed hresend => ?_
  · rw [hcoming]
    exact List.prefix_rfl
  · rw [hcoming] at hresend
    exact .fresh hbox hflying howed hresend

/-- A mail is taken out of box 0. -/
theorem Inv.receive (h : st.Inv) (hpc : st.pc = .receive) {text : List UInt8}
    {replies : Channel (List UInt8)} (htake : st.replies.take = some (text, replies)) :
    Inv { st with pc := .test text, replies := replies } := by
  have hcoming : st.coming = text :: replies.waiting := by
    rw [coming_eq_waiting (by rw [hpc]; nofun), Channel.waiting_of_take htake]
  have hstrings := h.strings
  rw [hcoming] at hstrings
  refine h.mono (fun _ => by rw [hpc]; nofun) rfl rfl (List.Subset.refl _) ?_ hstrings
    fun _ hbox hflying howed hresend => ?_
  · rw [hcoming]
    exact List.prefix_rfl
  · rw [hcoming] at hresend
    exact .fresh hbox hflying howed hresend

/-- The text of the mail is looked at. Only if a copy of the message was placed can it be
another text than "Resend". -/
theorem Inv.test (h : st.Inv) {text : List UInt8} (hpc : st.pc = .test text) :
    (st.tested text).Inv := by
  have hcoming : st.coming = text :: st.replies.waiting := by rw [coming, hpc]; rfl
  have hne : st.pc ≠ .idle := by rw [hpc]; nofun
  obtain ⟨hreem, hsent⟩ := h.running hne
  have hstrings := h.strings
  rw [hcoming] at hstrings
  have htext := isResend_copyText st.vars.buffer (hstrings text List.mem_cons_self)
  have hrest : ∀ text ∈ st.replies.waiting, 0 ∈ text :=
    fun t ht => hstrings t (List.mem_cons_of_mem _ ht)
  rw [tested]
  split
  · rename_i hgo
    obtain ⟨hless, hnot⟩ := Bool.and_eq_true_iff.mp hgo
    have hless : st.vars.reem + 1 < MAXREEMISSIONS := of_decide_eq_true hless
    refine ⟨hrest, fun _ => ⟨hless, by simpa using hnot⟩, h.delivered, fun _ => ?_⟩
    cases h.safe hne with
    | placed hplaced => exact .placed hplaced
    | refused hlength hresend =>
        have hleft : MAXREEMISSIONS - st.vars.reem = MAXREEMISSIONS - (st.vars.reem + 1) + 1 := by
          omega
        rw [hcoming, hleft] at hlength hresend
        exact .refused (Nat.le_of_succ_le_succ hlength)
          fun t ht => hresend t (List.mem_cons_of_mem _ ht)
    | fresh hbox hflying howed hresend =>
        rw [hcoming] at hresend
        exact .fresh hbox hflying howed fun t ht => hresend t (List.mem_cons_of_mem _ ht)
  · refine ⟨hrest, fun hidle => absurd rfl hidle, fun m hm => ?_, fun hidle => absurd rfl hidle⟩
    rcases List.mem_append.mp hm with hm | hm
    · exact h.delivered m hm
    · -- The call has ended with `sent == 1`, so that the text is not "Resend".
      obtain ⟨rfl, htrue⟩ := Prod.mk.inj (List.mem_singleton.mp hm)
      have hother : isResend (Mem.ofString text) = false := by
        rw [← htext]
        by_contra hresend
        rw [SendVars.test, if_pos (by simpa using hresend), hsent] at htrue
        cases htrue
      cases h.safe hne with
      | placed hplaced => exact hplaced
      | refused _ hresend =>
          obtain ⟨n, hn⟩ : ∃ n, MAXREEMISSIONS - st.vars.reem = n + 1 :=
            ⟨MAXREEMISSIONS - st.vars.reem - 1, by omega⟩
          rw [hcoming, hn, List.take_succ_cons] at hresend
          rw [hresend text List.mem_cons_self] at hother
          cases hother
      | fresh _ _ _ hresend =>
          rw [hcoming] at hresend
          rw [hresend text List.mem_cons_self] at hother
          cases hother

/-- The mails that will be taken, when one more is sent. -/
theorem coming_reply (st : Reliable) (text : List UInt8) (lost : Bool) :
    (st.reply text lost).coming = st.coming ++ if lost then [] else [text] := by
  cases lost with
  | true => exact (List.append_nil _).symm
  | false =>
      rw [coming, coming, reply, if_neg (by decide), if_neg (by decide), Channel.waiting_put,
        List.append_assoc]

/-- A mail is sent to box 0: it says "Resend", or acknowledges a message. -/
theorem Inv.reply (h : st.Inv) {text : List UInt8} {lost : Bool} (hzero : 0 ∈ text)
    (htext : isResend (Mem.ofString text) = true ∨ st.owed ≠ 0) (delays : List ℕ) (owed : ℕ)
    (howed : st.owed = 0 → owed = 0) :
    ({ st with delays := delays, owed := owed }.reply text lost).Inv := by
  have hcoming := coming_reply { st with delays := delays, owed := owed } text lost
  refine h.mono id rfl rfl (List.Subset.refl _) ?_ ?_ fun _ hbox hflying hnone hresend => ?_
  · rw [hcoming]
    exact List.prefix_append _ _
  · rw [hcoming]
    intro t ht
    rcases List.mem_append.mp ht with ht | ht
    · exact h.strings t ht
    · cases lost with
      | true => cases ht
      | false =>
          rw [List.mem_singleton.mp ht]
          exact hzero
  · refine .fresh hbox hflying (howed hnone) ?_
    rw [hcoming]
    intro t ht
    rcases List.mem_append.mp ht with ht | ht
    · exact hresend t ht
    · cases lost with
      | true => cases ht
      | false =>
          rw [List.mem_singleton.mp ht]
          exact htext.resolve_right (not_not.mpr hnone)

/-- A message is put into the box of the receiver. If nothing of an earlier call was left, it is
the message of the call. -/
theorem Inv.arriveMessage (h : st.Inv) {message : Message} {messages : Channel Message}
    (harrive : st.messages.arrive = some (message, messages)) :
    Inv { st with messages := messages, placed := st.placed ++ [(message, st.inCall)] } := by
  obtain ⟨hfirst, -⟩ := Channel.arrive_eq_some.mp harrive
  refine h.mono id rfl rfl (List.subset_append_left _ _) List.prefix_rfl h.strings
    fun hpc _ hflying _ _ => .placed ?_
  have hmessage : message = st.vars.message :=
    hflying message (by rw [hfirst]; exact List.mem_cons_self)
  refine List.mem_append_right _ (List.mem_singleton.mpr ?_)
  rw [hmessage, inCall, if_neg hpc]

/-- A mail is put into box 0. -/
theorem Inv.arriveReply (h : st.Inv) {text : List UInt8} {replies : Channel (List UInt8)}
    (harrive : st.replies.arrive = some (text, replies)) : Inv { st with replies := replies } := by
  have hcoming : coming { st with replies := replies } = st.coming := by
    rw [coming, coming, Channel.waiting_of_arrive harrive]
  refine h.mono id rfl rfl (List.Subset.refl _) ?_ ?_ fun _ hbox hflying howed hresend => ?_
  · rw [hcoming]
  · rw [hcoming]
    exact h.strings
  · refine .fresh hbox hflying howed ?_
    rw [hcoming]
    exact hresend

/-- The receiver takes a message. -/
theorem Inv.take (h : st.Inv) {message : Message} {messages : Channel Message}
    (htake : st.messages.take = some (message, messages)) :
    Inv { st with messages := messages, owed := st.owed + 1 } := by
  obtain ⟨hfirst, -⟩ := Channel.take_eq_some.mp htake
  refine h.mono id rfl rfl (List.Subset.refl _) List.prefix_rfl h.strings fun _ hbox _ _ _ => ?_
  rw [hfirst] at hbox
  cases hbox

/-- **One step.** A call that begins when it is quiet keeps what holds, and so does every other
step. -/
theorem Inv.exec (h : st.Inv) {act : ReliableAct}
    (hquiet : ∀ data buffer, act = .call data buffer → st.Quiet) (hexec : st.exec act = some st') :
    st'.Inv := by
  cases act with
  | call data buffer =>
      obtain ⟨hpc, hexec⟩ := Option.ite_none_right_eq_some.mp hexec
      cases hexec
      exact h.call hpc (hquiet data buffer rfl) _ buffer
  | send lost =>
      obtain ⟨⟨hpc, -⟩, hexec⟩ := Option.ite_none_right_eq_some.mp hexec
      cases hexec
      exact h.send hpc lost
  | fork =>
      obtain ⟨hpc, hexec⟩ := Option.ite_none_right_eq_some.mp hexec
      cases hexec
      exact h.fork hpc
  | receive =>
      obtain ⟨hpc, hexec⟩ := Option.ite_none_right_eq_some.mp hexec
      obtain ⟨⟨text, replies⟩, htake, rfl⟩ := Option.map_eq_some_iff.mp hexec
      exact h.receive hpc htake
  | test =>
      rw [Reliable.exec] at hexec
      split at hexec
      · cases hexec
        exact h.test ‹_›
      · cases hexec
  | resend n lost =>
      rw [Reliable.exec] at hexec
      split at hexec
      · obtain ⟨-, hexec⟩ := Option.ite_none_right_eq_some.mp hexec
        cases hexec
        exact h.reply (by decide) (.inl (by decide)) _ _ id
      · cases hexec
  | arriveMessage =>
      obtain ⟨⟨message, messages⟩, harrive, rfl⟩ := Option.map_eq_some_iff.mp hexec
      exact h.arriveMessage harrive
  | arriveReply =>
      obtain ⟨⟨text, replies⟩, harrive, rfl⟩ := Option.map_eq_some_iff.mp hexec
      exact h.arriveReply harrive
  | take =>
      obtain ⟨⟨message, messages⟩, htake, rfl⟩ := Option.map_eq_some_iff.mp hexec
      exact h.take htake
  | ack text lost =>
      obtain ⟨⟨howed, -, hzero, -⟩, hexec⟩ := Option.ite_none_right_eq_some.mp hexec
      cases hexec
      exact h.reply hzero (.inr (by omega)) _ _ fun hnone => by omega

/-- Nothing but the beginning of a call needs a condition. -/
theorem Inv.continues (h : st.Inv) (hcontinues : st.Continues st') : st'.Inv := by
  cases hcontinues with
  | stay => exact h
  | step act hact hexec => exact h.exec (fun data buffer heq => absurd heq (hact data buffer)) hexec

end Reliable

end Nachos
