/-
# Reliable sending, in `Send`

The steps of the programs up to the point where a mail is on its way: calls of `ReliableSend`,
calls of `Send`, and the requests that the threads make there. The calls and the steps in locks
are not seen by the protocol; a request is a step of it.
-/

import Nachos.Network.ReliableNet

namespace Nachos

open Base Synch

namespace ReliableNet

variable {peer : Peer} {st st' : ReliableNet} {a : BitVec 32} {b : ℕ} {i : NetThread}

namespace Inv

variable {numBoxes : ℤ} {tid : Option NetThread → ℤ} {net : MailNet NetThread}

theorem start (inHdr : BitVec 32 → PacketHeader) (inbox buffer : BitVec 32 → Mem)
    (buffer₀ : Mem) : Inv numBoxes peer (start (MailNet.start inHdr inbox buffer) buffer₀) where
  net := MailNet.Inv.start inHdr inbox buffer
  sends _ _ _ h := by cases h
  receives _ _ _ h := by cases h
  sentBy := rfl

/-- There are as many messages on their way to the receiver as are recorded. -/
theorem length_sentBy (h : st.Inv numBoxes peer) :
    st.sentBy.length = (st.net.spec.letters peer.addr peer.box).length := by
  have hlength := congrArg List.length h.sentBy
  rw [List.length_map, List.length_map] at hlength
  exact hlength

/-- A thread outside of `Send` sends nothing. -/
theorem sending_eq_none (haway : inSend net a i = false) :
    (net.spec.office a).sending i = none := by
  show ((net.office a).post.threads i).plan.map _ = none
  rw [inSend] at haway
  split at haway
  · rename_i hpc
    rw [DeviceThread.plan, hpc]
    rfl
  · cases haway

/-- A thread outside of `Receive` has no letter in its hand. -/
theorem hand_eq_none (h : st.Inv numBoxes peer) (hnot : ¬st.Receives peer a b i) :
    (st.net.spec.office a).hand b i = none := by
  by_contra hsome
  refine hnot (h.receives a b i ?_)
  rw [inReceive, Option.isSome_iff_ne_none.mpr hsome, Bool.or_true]

/-- A thread that is in `Receive` after a step that changes no hand was in it before, or has
called it. -/
theorem inReceive_of_hand {P : Prop}
    (hhand : ∀ d, (net.spec.office d).hand = (st.net.spec.office d).hand)
    (hgetting : net.getting a b i = true → st.net.getting a b i = true ∨ P)
    (hi : inReceive net a b i = true) : inReceive st.net a b i = true ∨ P := by
  rw [inReceive, Bool.or_eq_true, hhand] at hi
  rw [inReceive, Bool.or_eq_true]
  rcases hi with hi | hi
  · exact (hgetting hi).imp_left .inl
  · exact .inl (.inr hi)

theorem inReceive_of_same (hhand : ∀ d, (net.spec.office d).hand = (st.net.spec.office d).hand)
    (hgetting : ∀ a b i, net.getting a b i = true → st.net.getting a b i = true)
    (hi : inReceive net a b i = true) : inReceive st.net a b i = true :=
  (inReceive_of_hand (P := False) hhand (fun hi => .inl (hgetting a b i hi)) hi).resolve_right id

/-! ### Calls of `ReliableSend` -/

/-- A call begins. -/
theorem call (h : st.Inv numBoxes peer) (hpc : st.pc = .idle) (message : Message) (buffer : Mem) :
    Inv numBoxes peer { st with pc := .send, vars := .new message buffer } where
  net := h.net
  sends a i l hl := (h.sends a i l hl).mono
    (fun _ hsending => absurd (hpc.symm.trans hsending) (by decide)) (fun _ _ _ hk => hk) fun _ hr => hr
  receives a b i hi := (h.receives a b i hi).mono
    (fun _ hreceiving => absurd (hpc.symm.trans hreceiving) (by decide)) fun _ hr => hr
  sentBy := h.sentBy

/-- A `DelayAck` thread is forked. -/
theorem fork (h : st.Inv numBoxes peer) (hpc : st.pc = .sending)
    (haway : inSend st.net 0 .sender = false) :
    Goes numBoxes peer st { st with pc := .receive, delays := st.delays ++ [0] } := by
  refine ⟨⟨h.net, fun a i l hl => ?_, fun a b i hi => ?_, h.sentBy⟩, ?_⟩
  · have hold := h.sends a i l hl
    refine hold.mono (fun hi _ => ?_) (fun n k _ hk => ?_) fun _ hr => hr
    · subst hi
      rw [hold.1, sending_eq_none haway] at hl
      cases hl
    · exact (List.getElem?_append_left (List.getElem?_eq_some_iff.mp hk).1).trans hk
  · exact (h.receives a b i hi).mono
      (fun _ hreceiving => absurd (hpc.symm.trans hreceiving) (by decide)) fun _ hr => hr
  · have hfork : (st.protocol peer).pc = .fork := by
      show protocolPc _ st.pc = _
      rw [hpc, protocolPc, sending_eq_none haway]
      rfl
    exact .step .fork (by simp) (if_pos hfork)

/-! ### Steps that are not seen -/

/-- A step of the post offices that the programs do not see. -/
theorem unseen (h : st.Inv numBoxes peer) (hnet : net.Inv numBoxes) (hspec : net.spec = st.net.spec)
    (hgetting : ∀ a b i, net.getting a b i = true → st.net.getting a b i = true) :
    Goes numBoxes peer st { st with net := net } := by
  refine ⟨⟨hnet, fun a i l hl => h.sends a i l (hspec ▸ hl), fun a b i hi => ?_, ?_⟩, ?_⟩
  · exact h.receives a b i (inReceive_of_same (fun d => by rw [hspec]) hgetting hi)
  · show _ = (net.spec.letters peer.addr peer.box).map Letter.bytes
    rw [hspec]
    exact h.sentBy
  · have hsame : ReliableNet.protocol peer { st with net := net } = st.protocol peer := by
      simp only [ReliableNet.protocol, hspec]
    rw [hsame]
    exact .stay

/-! ### `Send` -/

/-- A thread calls `Send`. -/
theorem come (h : st.Inv numBoxes peer) (hnet : net.Inv numBoxes) {l : Letter}
    (hcome : st.net.spec.exec (.come a i l) = some net.spec)
    (hgetting : ∀ a b i, net.getting a b i = true → st.net.getting a b i = true)
    (pc : CallPc) (receiver : ReceiverPc)
    (hself : Sends peer { st with net := net, pc := pc, receiver := receiver } a i l)
    (hsending : st.pc = .sending → pc = .sending) (hreceiving : st.pc = .receiving → pc = .receiving)
    (hreceive : st.receiver = .receive → receiver = .receive)
    (htaking : st.receiver = .receiving → receiver = .receiving)
    (hpc : protocolPc net.spec pc = protocolPc st.net.spec st.pc)
    (howes : owes peer net.spec receiver = owes peer st.net.spec st.receiver) :
    Goes numBoxes peer st { st with net := net, pc := pc, receiver := receiver } := by
  obtain ⟨-, hletters, hothers, hsends⟩ := PostSpec.come_cases hcome
  refine ⟨⟨hnet, fun d j l' hl' => ?_, fun d c j hj => ?_, ?_⟩, ?_⟩
  · change (net.spec.office d).sending j = some l' at hl'
    rw [hsends d j] at hl'
    split at hl'
    · rename_i hdj
      obtain ⟨rfl, rfl⟩ := hdj
      cases hl'
      exact hself
    · exact (h.sends d j l' hl').mono (fun _ hp => ⟨hsending hp, rfl⟩) (fun _ _ _ hk => hk)
        fun _ hr => hreceive hr
  · exact (h.receives d c j (inReceive_of_same (fun d => (hothers d).2.2) hgetting hj)).mono
      (fun _ hp => hreceiving hp) fun _ hr => htaking hr
  · show _ = (net.spec.letters peer.addr peer.box).map Letter.bytes
    rw [hletters]
    exact h.sentBy
  · have hsame : ReliableNet.protocol peer { st with net := net, pc := pc, receiver := receiver } =
        st.protocol peer := by
      simp only [ReliableNet.protocol, hletters, (hothers _).1, (hothers _).2.1, hpc, howes]
    rw [hsame]
    exact .stay

/-- The letter of a mail that is given to `Send`. -/
theorem letter_of_pack {out : Outgoing} {s : Sending} (hpack : PostOffice.pack a numBoxes out = .ok s) :
    (Letter.ofSending s).pktHdr.toAddr = out.pktHdr.toAddr ∧ (Letter.ofSending s).box = out.box ∧
      (Letter.ofSending s).bytes = out.text ∧ out.text.length ≤ MaxMailSize := by
  obtain ⟨_, hshort, hpack⟩ := Except.bind_eq_ok.mp hpack
  obtain ⟨_, -, hpack⟩ := Except.bind_eq_ok.mp hpack
  cases hpack
  refine ⟨rfl, rfl, rfl, ?_⟩
  rw [Outgoing.text, Letter.front, List.length_map, List.length_range]
  exact assert_eq_ok.mp hshort

/-- A program calls `Send`. -/
theorem callSend (h : st.Inv numBoxes peer) {out : Outgoing}
    (hallows : st.allows peer (.post a (.call i out)) = true)
    (hexec : st.net.exec numBoxes tid (.post a (.call i out)) = some net) :
    Goes numBoxes peer st (st.follow peer net (.post a (.call i out))) := by
  have hnet := h.net.exec hexec
  have hgetting (d : BitVec 32) (c : ℕ) (j : NetThread) (hj : net.getting d c j = true) :
      st.net.getting d c j = true := (MailNet.getting_of_exec hexec hj).resolve_right (by simp)
  obtain ⟨s, hpack, hcome⟩ := MailNet.come_of_exec hexec
  obtain ⟨hdest, hbox, hbytes, hlength⟩ := letter_of_pack hpack
  obtain ⟨-, -, hothers, hsends⟩ := PostSpec.come_cases hcome
  -- The hands of the threads are as before, and so is what the other threads send.
  have hhand (d : BitVec 32) := (hothers d).2.2
  have hself : (net.spec.office a).sending i = some (Letter.ofSending s) := by
    rw [hsends, if_pos ⟨rfl, rfl⟩]
  have hsame (d : BitVec 32) (j : NetThread) (hj : j ≠ i) :
      (net.spec.office d).sending j = (st.net.spec.office d).sending j := by
    rw [hsends, if_neg fun hdj => hj hdj.2]
  rw [← hbytes] at hlength
  cases i with
  | sender =>
      simp only [allows, Bool.and_eq_true, decide_eq_true_eq] at hallows
      obtain ⟨⟨⟨⟨rfl, hpc⟩, hto⟩, htoBox⟩, htext⟩ := hallows
      refine h.come hnet hcome hgetting .sending st.receiver
        ⟨rfl, rfl, hdest.trans hto, hbox.trans htoBox, hbytes.trans htext, hlength⟩ (fun _ => rfl)
        ?_ id id ?_ ?_
      · intro hreceiving
        exact absurd (hpc.symm.trans hreceiving) (by decide)
      · rw [protocolPc, hself, hpc]
        rfl
      · exact owes_congr (by rw [hhand]) (hsame peer.addr .receiver (by simp)) st.receiver
  | delay n =>
      simp only [allows, Bool.and_eq_true, decide_eq_true_eq, Option.any_eq_true] at hallows
      obtain ⟨⟨⟨⟨rfl, k, hk, hless⟩, hto⟩, htoBox⟩, htext⟩ := hallows
      refine h.come hnet hcome hgetting st.pc st.receiver
        ⟨rfl, ⟨k, hk, hless⟩, hdest.trans hto, hbox.trans htoBox, hbytes.trans htext⟩ id id id id ?_ ?_
      · exact protocolPc_congr (hsame 0 .sender (by simp)) (by rw [hhand]) st.pc
      · exact owes_congr (by rw [hhand]) (hsame peer.addr .receiver (by simp)) st.receiver
  | receiver =>
      simp only [allows, Bool.and_eq_true, decide_eq_true_eq] at hallows
      obtain ⟨⟨⟨⟨rfl, hpc⟩, hto⟩, htoBox⟩, hack⟩ := hallows
      rw [← hbytes] at hack
      refine h.come hnet hcome hgetting st.pc .receive
        ⟨rfl, rfl, hdest.trans hto, hbox.trans htoBox, hack, hlength⟩ id id (fun _ => rfl) ?_ ?_ ?_
      · intro hreceiving
        exact absurd (hpc.symm.trans hreceiving) (by decide)
      · exact protocolPc_congr (hsame 0 .sender (by simp)) (by rw [hhand]) st.pc
      · rw [owes, owes, hself, hpc]
        simp

/-- The invariant after a request. -/
theorem request (h : st.Inv numBoxes peer) (hnet : net.Inv numBoxes) {lost : Bool}
    (hrequest : st.net.spec.exec (.request a i lost) = some net.spec)
    (hgetting : ∀ a b i, net.getting a b i = true → st.net.getting a b i = true)
    (delays : List ℕ) (sentBy : List Message)
    (hdelay : ∀ n k, .delay n ≠ i → st.delays[n]? = some k → delays[n]? = some k)
    (hsentBy : sentBy.map Message.data = (net.spec.letters peer.addr peer.box).map Letter.bytes) :
    Inv numBoxes peer { st with net := net, delays := delays, sentBy := sentBy } := by
  obtain ⟨l, hsome, hothers, hsends, -⟩ := PostSpec.request_cases hrequest
  have hself := h.sends a i l hsome
  refine ⟨hnet, fun d j l' hl' => ?_, fun d c j hj => ?_, hsentBy⟩
  · change (net.spec.office d).sending j = some l' at hl'
    rw [hsends d j] at hl'
    split at hl'
    · cases hl'
    · rename_i hdj
      have hold := h.sends d j l' hl'
      refine hold.mono (fun _ hp => ⟨hp, rfl⟩) (fun n k hj hk => hdelay n k (fun hi => ?_) hk)
        fun _ hr => hr
      -- The `DelayAck` threads are all on machine 0.
      subst hj
      subst hi
      exact hdj ⟨hold.1.trans hself.1.symm, rfl⟩
  · exact h.receives d c j (inReceive_of_same (fun d => (hothers d).2.2) hgetting hj)

/-- What the programs have done after a request. -/
theorem protocol_of_request (hothers : ∀ d,
      (net.spec.office d).arrived = (st.net.spec.office d).arrived ∧
        (net.spec.office d).taken = (st.net.spec.office d).taken ∧
        (net.spec.office d).hand = (st.net.spec.office d).hand) (delays : List ℕ)
    (sentBy : List Message) :
    ReliableNet.protocol peer { st with net := net, delays := delays, sentBy := sentBy } =
      { st.protocol peer with
        messages := .ofCounts sentBy ((st.net.spec.office peer.addr).arrived peer.box)
          ((st.net.spec.office peer.addr).taken peer.box)
        replies := .ofCounts ((net.spec.letters 0 0).map Letter.bytes)
          ((st.net.spec.office 0).arrived 0) ((st.net.spec.office 0).taken 0)
        pc := protocolPc net.spec st.pc
        delays := delays
        owed := if owes peer net.spec st.receiver then 1 else 0 } := by
  simp only [ReliableNet.protocol, (hothers _).1, (hothers _).2.1]

/-- The letters for a box after a request. -/
private theorem letters_of_request {l : Letter} {lost : Bool}
    (hletters : ∀ d c, net.spec.letters d c =
      if lost = false ∧ d = l.pktHdr.toAddr ∧ c = l.box then st.net.spec.letters d c ++ [l]
      else st.net.spec.letters d c) {dest : BitVec 32} {box : ℕ} (hdest : l.pktHdr.toAddr = dest)
    (hbox : l.box = box) :
    net.spec.letters dest box = st.net.spec.letters dest box ++ (if lost then [] else [l]) ∧
      ∀ d c, d ≠ dest ∨ c ≠ box → net.spec.letters d c = st.net.spec.letters d c := by
  subst hdest
  subst hbox
  refine ⟨?_, fun d c hother => ?_⟩
  · rw [hletters]
    cases lost <;> simp
  · rw [hletters, if_neg]
    rintro ⟨-, hd, hc⟩
    exact hother.elim (fun hne => hne hd) fun hne => hne hc

/-- The message of `ReliableSend` is put on its way, or lost. -/
theorem senderRequest (h : st.Inv numBoxes peer) (hnet : net.Inv numBoxes) {lost : Bool}
    (hrequest : st.net.spec.exec (.request a .sender lost) = some net.spec)
    (hgetting : ∀ a b i, net.getting a b i = true → st.net.getting a b i = true) :
    Goes numBoxes peer st { st with
      net := net
      sentBy := if lost then st.sentBy else st.sentBy ++ [st.vars.message] } := by
  obtain ⟨l, hsome, hothers, hsends, hletters⟩ := PostSpec.request_cases hrequest
  obtain ⟨rfl, hpc, hdest, hbox, hdata, hlength⟩ := h.sends a .sender l hsome
  obtain ⟨hmessages, hrest⟩ := letters_of_request hletters hdest hbox
  have hreplies : net.spec.letters 0 0 = st.net.spec.letters 0 0 :=
    hrest 0 0 (peer.other.imp Ne.symm Ne.symm)
  have hcount : (st.net.spec.office peer.addr).arrived peer.box ≤ st.sentBy.length := by
    rw [h.length_sentBy]
    exact (h.net.counts peer.addr peer.box).2
  refine ⟨h.request hnet hrequest hgetting st.delays _ (fun _ _ _ hk => hk) ?_, ?_⟩
  · rw [hmessages, List.map_append, ← h.sentBy]
    cases lost with
    | true => exact (List.append_nil _).symm
    | false =>
        rw [if_neg (by decide), if_neg (by decide), List.map_append]
        exact congrArg (fun data => st.sentBy.map Message.data ++ [data]) hdata.symm
  · have hsend : (st.protocol peer).pc = .send := by
      show protocolPc _ st.pc = _
      rw [hpc, protocolPc, hsome]
      rfl
    have hnone : (net.spec.office 0).sending .sender = none := by
      rw [hsends, if_pos ⟨rfl, rfl⟩]
    have hfork : protocolPc net.spec st.pc = .fork := by
      rw [hpc, protocolPc, hnone]
      rfl
    have howes : owes peer net.spec st.receiver = owes peer st.net.spec st.receiver :=
      owes_congr (by rw [(hothers _).2.2]) (by rw [hsends, if_neg (by simp)]) st.receiver
    have hshort : (st.protocol peer).vars.message.data.length ≤ MaxMailSize := by
      rw [hdata] at hlength
      exact hlength
    refine .step (.send lost) (by simp) ((if_pos ⟨hsend, hshort⟩).trans (congrArg some ?_))
    refine Eq.trans ?_ (protocol_of_request hothers st.delays _).symm
    rw [hfork, howes, hreplies]
    cases lost with
    | true => rfl
    | false =>
        rw [if_neg (by decide), if_neg (by decide), Channel.ofCounts_append _ hcount]
        rfl

/-- A mail to box 0 of machine 0 is put on its way, or lost. -/
theorem protocol_of_reply (h : st.Inv numBoxes peer) {l : Letter} {lost : Bool}
    (hrequest : st.net.spec.exec (.request a i lost) = some net.spec)
    (hsome : (st.net.spec.office a).sending i = some l) (hi : i ≠ .sender)
    (hdest : l.pktHdr.toAddr = 0) (hbox : l.box = 0) (delays : List ℕ) :
    net.spec.letters peer.addr peer.box = st.net.spec.letters peer.addr peer.box ∧
      ReliableNet.protocol peer { st with net := net, delays := delays } =
        { st.protocol peer with
          delays := delays
          owed := if owes peer net.spec st.receiver then 1 else 0 }.reply l.bytes lost := by
  obtain ⟨l', hsome', hothers, hsends, hletters⟩ := PostSpec.request_cases hrequest
  obtain rfl : l' = l := Option.some.inj (hsome'.symm.trans hsome)
  obtain ⟨hreplies, hrest⟩ := letters_of_request hletters hdest hbox
  have hsame : (net.spec.office 0).sending .sender = (st.net.spec.office 0).sending .sender := by
    rw [hsends, if_neg fun hd => hi hd.2.symm]
  have hpc : protocolPc net.spec st.pc = protocolPc st.net.spec st.pc :=
    protocolPc_congr hsame (by rw [(hothers _).2.2]) st.pc
  have hcount : (st.net.spec.office 0).arrived 0 ≤
      ((st.net.spec.letters 0 0).map Letter.bytes).length := by
    rw [List.length_map]
    exact (h.net.counts 0 0).2
  refine ⟨hrest _ _ peer.other, (protocol_of_request hothers delays st.sentBy).trans ?_⟩
  rw [hpc, hreplies]
  cases lost with
  | true =>
      rw [if_pos rfl, List.append_nil]
      rfl
  | false =>
      rw [if_neg (by decide), List.map_append, List.map_singleton, Channel.ofCounts_append _ hcount]
      rfl

/-- A "Resend" mail is put on its way, or lost. -/
theorem delayRequest (h : st.Inv numBoxes peer) (hnet : net.Inv numBoxes) {n : ℕ} {lost : Bool}
    (hrequest : st.net.spec.exec (.request a (.delay n) lost) = some net.spec)
    (hgetting : ∀ a b i, net.getting a b i = true → st.net.getting a b i = true) :
    Goes numBoxes peer st { st with net := net, delays := st.delays.modify n (· + 1) } := by
  obtain ⟨l, hsome, hothers, hsends, -⟩ := PostSpec.request_cases hrequest
  obtain ⟨-, ⟨k, hk, hless⟩, hdest, hbox, htext⟩ := h.sends a (.delay n) l hsome
  obtain ⟨hmessages, hprotocol⟩ :=
    h.protocol_of_reply hrequest hsome (by simp) hdest hbox (st.delays.modify n (· + 1))
  refine ⟨h.request hnet hrequest hgetting _ st.sentBy (fun m k' hm hk' => ?_) ?_, ?_⟩
  · have hne : n ≠ m := fun heq => hm (by rw [heq])
    rw [List.getElem?_modify, hk']
    simp [hne]
  · rw [hmessages]
    exact h.sentBy
  · have howes : owes peer net.spec st.receiver = owes peer st.net.spec st.receiver :=
      owes_congr (by rw [(hothers _).2.2]) (by rw [hsends, if_neg (by simp)]) st.receiver
    refine .step (.resend n lost) (by simp) ?_
    rw [hprotocol, howes, htext]
    have hdelays : (st.protocol peer).delays[n]? = some k := hk
    have hset : st.delays.modify n (· + 1) = st.delays.set n (k + 1) := by
      rw [List.modify_eq_set_getElem?, hk]
      rfl
    rw [hset]
    simp only [Reliable.exec, hdelays, if_pos hless]
    rfl

/-- An acknowledgment is put on its way, or lost. -/
theorem receiverRequest (h : st.Inv numBoxes peer) (hnet : net.Inv numBoxes) {lost : Bool}
    (hrequest : st.net.spec.exec (.request a .receiver lost) = some net.spec)
    (hgetting : ∀ a b i, net.getting a b i = true → st.net.getting a b i = true) :
    Goes numBoxes peer st { st with net := net } := by
  obtain ⟨l, hsome, hothers, hsends, -⟩ := PostSpec.request_cases hrequest
  obtain ⟨rfl, hpc, hdest, hbox, hack, hlength⟩ := h.sends a .receiver l hsome
  obtain ⟨hmessages, hprotocol⟩ := h.protocol_of_reply hrequest hsome (by simp) hdest hbox st.delays
  refine ⟨h.request hnet hrequest hgetting st.delays st.sentBy (fun _ _ _ hk => hk) ?_, ?_⟩
  · rw [hmessages]
    exact h.sentBy
  · have howed : (st.protocol peer).owed = 1 := by
      refine if_pos ?_
      rw [owes, hsome, Option.isSome_some, Bool.or_true]
    have hhand : (st.net.spec.office peer.addr).hand peer.box .receiver = none :=
      h.hand_eq_none fun hreceives => absurd (hpc.symm.trans hreceives.2.2) (by decide)
    have hnone : owes peer net.spec st.receiver = false := by
      rw [owes, (hothers _).2.2, hhand, hsends, if_pos ⟨rfl, rfl⟩, hpc]
      rfl
    obtain ⟨hzero, htext⟩ := Bool.and_eq_true_iff.mp hack
    refine .step (.ack l.bytes lost) (by simp) ?_
    refine (if_pos ⟨by omega, hlength, List.contains_iff_mem.mp hzero, by simpa using htext⟩).trans ?_
    rw [howed]
    refine congrArg some (Eq.trans ?_ hprotocol.symm)
    rw [hnone]
    rfl

/-- A step of a thread in `Send`. -/
theorem stepSend (h : st.Inv numBoxes peer) {oracle : Bool × Mem}
    (hexec : st.net.exec numBoxes tid (.post a (.step i oracle)) = some net) :
    Goes numBoxes peer st (st.follow peer net (.post a (.step i oracle))) := by
  have hnet := h.net.exec hexec
  have hgetting (d : BitVec 32) (c : ℕ) (j : NetThread) (hj : net.getting d c j = true) :
      st.net.getting d c j = true := (MailNet.getting_of_exec hexec hj).resolve_right (by simp)
  rcases MailNet.request_of_exec h.net hexec with hspec | ⟨lost, hrequest⟩
  · have hfollow : st.follow peer net (.post a (.step i oracle)) = { st with net := net } := by
      cases i with
      | sender => simp only [follow, hspec, Nat.lt_irrefl, if_false]
      | delay n =>
          have hsame : requested st.net net a (.delay n) = false := by
            rw [requested, hspec]
            cases (st.net.spec.office a).sending (.delay n) <;> rfl
          simp only [follow, hsame, Bool.false_eq_true, if_false]
      | receiver => rfl
    rw [hfollow]
    exact h.unseen hnet hspec hgetting
  · cases i with
    | sender =>
        obtain ⟨l, hsome, -, -, hletters⟩ := PostSpec.request_cases hrequest
        obtain ⟨-, -, hdest, hbox, -⟩ := h.sends a .sender l hsome
        obtain ⟨hmessages, -⟩ := letters_of_request hletters hdest hbox
        have hfollow : st.follow peer net (.post a (.step .sender oracle)) = { st with
            net := net
            sentBy := if lost then st.sentBy else st.sentBy ++ [st.vars.message] } := by
          cases lost <;> simp [follow, hmessages]
        rw [hfollow]
        exact h.senderRequest hnet hrequest hgetting
    | delay n =>
        obtain ⟨l, hsome, -, hsends, -⟩ := PostSpec.request_cases hrequest
        have hyes : requested st.net net a (.delay n) = true := by
          rw [requested, hsome, hsends, if_pos ⟨rfl, rfl⟩]
          rfl
        have hfollow : st.follow peer net (.post a (.step (.delay n) oracle)) =
            { st with net := net, delays := st.delays.modify n (· + 1) } := by
          simp only [follow, hyes, if_true]
        rw [hfollow]
        exact h.delayRequest hnet hrequest hgetting
    | receiver => exact h.receiverRequest hnet hrequest hgetting

end Inv

end ReliableNet

end Nachos
