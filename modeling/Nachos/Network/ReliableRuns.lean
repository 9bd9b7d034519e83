/-
# Reports of reliable sending

The steps of the programs from the arrival of a mail on, and with them every step. What
`ReliableSend` reports is then what the protocol says: if nothing of the earlier calls can be
taken for an acknowledgment when a call begins, the message of a call that ends with `sent == 1`
was put into the box of the receiver. Otherwise it need not be so: the mails in box 0 are not
looked at before a call, and no mail says which message it is for.
-/

import Nachos.Network.ReliableSends

namespace Nachos

open Base Synch

namespace ReliableNet

variable {peer : Peer} {st st' : ReliableNet} {a : BitVec 32} {b : ℕ} {i : NetThread}

namespace Inv

variable {numBoxes : ℤ} {tid : Option NetThread → ℤ} {net : MailNet NetThread}

/-! ### Arrival -/

/-- The call in progress is that of the protocol. -/
theorem inCall_protocol (peer : Peer) (st : ReliableNet) :
    (st.protocol peer).inCall = st.inCall := by
  have hiff : (st.protocol peer).pc = .idle ↔ st.pc = .idle := by
    show protocolPc st.net.spec st.pc = .idle ↔ _
    rw [protocolPc.eq_def]
    constructor
    · intro hidle
      split at hidle
      · assumption
      · cases hidle
      · split at hidle <;> cases hidle
      · cases hidle
      · split at hidle <;> cases hidle
    · intro hpc
      rw [hpc]
  simp only [Reliable.inCall, inCall, hiff]
  rfl

/-- A step of a postal worker. -/
theorem work (h : st.Inv numBoxes peer) {uninit : Mem}
    (hexec : st.net.exec numBoxes tid (.work a uninit) = some net) :
    Goes numBoxes peer st (st.follow peer net (.work a uninit)) := by
  have hnet := h.net.exec hexec
  have hgetting (d : BitVec 32) (c : ℕ) (j : NetThread) (hj : net.getting d c j = true) :
      st.net.getting d c j = true := (MailNet.getting_of_exec hexec hj).resolve_right (by simp)
  rcases MailNet.arrive_of_exec h.net hexec with hspec | ⟨b, harrive⟩
  · have hfollow : st.follow peer net (.work a uninit) = { st with net := net } := by
      simp only [follow, hspec, Nat.lt_irrefl, if_false]
    rw [hfollow]
    exact h.unseen hnet hspec hgetting
  · obtain ⟨hless, hletters, hothers, harrived⟩ := PostSpec.arrive_cases harrive
    have hpc (pc : CallPc) : protocolPc net.spec pc = protocolPc st.net.spec pc :=
      protocolPc_congr (by rw [(hothers _).1]) (by rw [(hothers _).2.2]) pc
    have howes (receiver : ReceiverPc) :
        owes peer net.spec receiver = owes peer st.net.spec receiver :=
      owes_congr (by rw [(hothers _).2.2]) (by rw [(hothers _).1]) receiver
    have hinv (placed : List (Message × Option ℕ)) :
        Inv numBoxes peer { st with net := net, placed := placed } := by
      refine ⟨hnet, fun d j l hl => ?_, fun d c j hj => ?_, ?_⟩
      · refine h.sends d j l ?_
        rw [← (hothers d).1]
        exact hl
      · exact h.receives d c j (inReceive_of_same (fun d => (hothers d).2.2) hgetting hj)
      · show _ = (net.spec.letters peer.addr peer.box).map Letter.bytes
        rw [hletters]
        exact h.sentBy
    have hprotocol (placed : List (Message × Option ℕ)) :
        ReliableNet.protocol peer { st with net := net, placed := placed } =
          { st.protocol peer with
            messages := .ofCounts st.sentBy ((net.spec.office peer.addr).arrived peer.box)
              ((st.net.spec.office peer.addr).taken peer.box)
            replies := .ofCounts ((st.net.spec.letters 0 0).map Letter.bytes)
              ((net.spec.office 0).arrived 0) ((st.net.spec.office 0).taken 0)
            placed := placed } := by
      simp only [ReliableNet.protocol, hletters, (hothers _).2.1, hpc, howes]
    by_cases hpeer : peer.addr = a ∧ peer.box = b
    · obtain ⟨rfl, rfl⟩ := hpeer
      have hnew : (net.spec.office peer.addr).arrived peer.box =
          (st.net.spec.office peer.addr).arrived peer.box + 1 := by
        rw [harrived, if_pos ⟨rfl, rfl⟩]
      have hzero : (net.spec.office 0).arrived 0 = (st.net.spec.office 0).arrived 0 := by
        rw [harrived, if_neg]
        rintro ⟨haddr, hbox⟩
        exact peer.other.elim (fun hne => hne haddr.symm) fun hne => hne hbox.symm
      rw [← h.length_sentBy] at hless
      have hfollow : st.follow peer net (.work peer.addr uninit) = { st with
          net := net
          placed := st.placed ++
            [(st.sentBy.get ⟨(st.net.spec.office peer.addr).arrived peer.box, hless⟩,
              st.inCall)] } := by
        simp only [follow, hnew, Nat.lt_succ_self, if_true, List.getElem?_eq_getElem hless]
        rfl
      rw [hfollow]
      refine ⟨hinv _, .step .arriveMessage (by simp) ?_⟩
      rw [hprotocol, hnew, hzero, ← inCall_protocol peer st]
      exact congrArg (Option.map _)
        (Channel.arrive_ofCounts (h.net.counts peer.addr peer.box).1 hless)
    · have hsame : (net.spec.office peer.addr).arrived peer.box =
          (st.net.spec.office peer.addr).arrived peer.box := by
        rw [harrived, if_neg hpeer]
      have hfollow : st.follow peer net (.work a uninit) = { st with net := net } := by
        simp only [follow, hsame, Nat.lt_irrefl, if_false]
      rw [hfollow]
      refine ⟨hinv st.placed, ?_⟩
      have hstep := hprotocol st.placed
      rw [hsame] at hstep
      by_cases hbox : 0 = a ∧ 0 = b
      · obtain ⟨rfl, rfl⟩ := hbox
        refine .step .arriveReply (by simp) ?_
        refine Eq.trans ?_ (congrArg some hstep.symm)
        rw [harrived, if_pos ⟨rfl, rfl⟩]
        refine congrArg (Option.map _) (Channel.arrive_ofCounts (h.net.counts 0 0).1 ?_)
        rw [List.length_map]
        exact hless
      · rw [harrived 0 0, if_neg hbox] at hstep
        have hstay : ReliableNet.protocol peer { st with net := net } = st.protocol peer := hstep
        rw [hstay]
        exact .stay

/-! ### `Receive` -/

/-- A thread that has not taken a mail has none in its hand. -/
theorem hand_of_getting (h : st.Inv numBoxes peer) (hgetting : st.net.getting a b i = true) :
    (st.net.spec.office a).hand b i = none :=
  congrArg (Option.map Letter.ofMail) (((h.net.office a).boxes b).empty i hgetting)

/-- `ReliableSend` calls `Receive`. -/
theorem senderReceive (h : st.Inv numBoxes peer) (hnet : net.Inv numBoxes)
    (hspec : net.spec = st.net.spec) (hpc : st.pc = .receive)
    (hgetting : ∀ a b i, net.getting a b i = true →
      st.net.getting a b i = true ∨ (a = 0 ∧ b = 0 ∧ i = .sender)) :
    Goes numBoxes peer st { st with net := net, pc := .receiving } := by
  refine ⟨⟨hnet, fun a i l hl => ?_, fun a b i hi => ?_, ?_⟩, ?_⟩
  · exact (h.sends a i l (hspec ▸ hl)).mono
      (fun _ hsending => absurd (hpc.symm.trans hsending) (by decide)) (fun _ _ _ hk => hk)
      fun _ hr => hr
  · rcases inReceive_of_hand (fun d => by rw [hspec]) (hgetting a b i) hi with hold | ⟨ha, hb, hi⟩
    · exact (h.receives a b i hold).mono (fun _ _ => rfl) fun _ hr => hr
    · subst hi
      exact ⟨ha, hb, rfl⟩
  · show _ = (net.spec.letters peer.addr peer.box).map Letter.bytes
    rw [hspec]
    exact h.sentBy
  · have hhand : (st.net.spec.office 0).hand 0 .sender = none :=
      h.hand_eq_none fun hreceives => absurd (hpc.symm.trans hreceives.2.2) (by decide)
    have hsame : ReliableNet.protocol peer { st with net := net, pc := .receiving } =
        st.protocol peer := by
      simp only [ReliableNet.protocol, hspec, hpc, protocolPc, hhand]
    rw [hsame]
    exact .stay

/-- The receiver calls `Receive`. -/
theorem receiverReceive (h : st.Inv numBoxes peer) (hnet : net.Inv numBoxes)
    (hspec : net.spec = st.net.spec) (hpc : st.receiver = .receive)
    (haway : inSend st.net peer.addr .receiver = false)
    (hgetting : ∀ a b i, net.getting a b i = true →
      st.net.getting a b i = true ∨ (a = peer.addr ∧ b = peer.box ∧ i = .receiver)) :
    Goes numBoxes peer st { st with net := net, receiver := .receiving } := by
  refine ⟨⟨hnet, fun a i l hl => ?_, fun a b i hi => ?_, ?_⟩, ?_⟩
  · change (net.spec.office a).sending i = some l at hl
    rw [hspec] at hl
    have hold := h.sends a i l hl
    refine hold.mono (fun _ hsending => ⟨hsending, rfl⟩) (fun _ _ _ hk => hk) fun hi _ => ?_
    subst hi
    rw [hold.1, sending_eq_none haway] at hl
    cases hl
  · rcases inReceive_of_hand (fun d => by rw [hspec]) (hgetting a b i) hi with hold | ⟨ha, hb, hi⟩
    · exact (h.receives a b i hold).mono (fun _ hp => hp) fun _ _ => rfl
    · subst hi
      exact ⟨ha, hb, rfl⟩
  · show _ = (net.spec.letters peer.addr peer.box).map Letter.bytes
    rw [hspec]
    exact h.sentBy
  · have howes : owes peer st.net.spec .receiving = owes peer st.net.spec .receive := rfl
    have hsame : ReliableNet.protocol peer { st with net := net, receiver := .receiving } =
        st.protocol peer := by
      simp only [ReliableNet.protocol, hspec, hpc, howes]
    rw [hsame]
    exact .stay

/-- A program calls `Receive`. -/
theorem callReceive (h : st.Inv numBoxes peer)
    (hallows : st.allows peer (.receive a b i) = true)
    (hexec : st.net.exec numBoxes tid (.receive a b i) = some net) :
    Goes numBoxes peer st (st.follow peer net (.receive a b i)) := by
  have hnet := h.net.exec hexec
  have hspec := MailNet.spec_of_receive hexec
  have hgetting (d : BitVec 32) (c : ℕ) (j : NetThread) (hj : net.getting d c j = true) :
      st.net.getting d c j = true ∨ (d = a ∧ c = b ∧ j = i) := by
    refine (MailNet.getting_of_exec hexec hj).imp_right fun heq => ?_
    cases heq
    exact ⟨rfl, rfl, rfl⟩
  cases i with
  | sender =>
      simp only [allows, Bool.and_eq_true, decide_eq_true_eq] at hallows
      obtain ⟨⟨rfl, rfl⟩, hpc⟩ := hallows
      exact h.senderReceive hnet hspec hpc hgetting
  | delay n => cases hallows
  | receiver =>
      simp only [allows, Bool.and_eq_true, decide_eq_true_eq, Bool.not_eq_true'] at hallows
      obtain ⟨⟨⟨rfl, rfl⟩, hpc⟩, haway⟩ := hallows
      exact h.receiverReceive hnet hspec hpc haway hgetting

/-- What the programs have done when a mail was taken. -/
theorem protocol_of_take (hletters : net.spec.letters = st.net.spec.letters)
    (hothers : ∀ d, (net.spec.office d).sending = (st.net.spec.office d).sending ∧
      (net.spec.office d).arrived = (st.net.spec.office d).arrived) :
    ReliableNet.protocol peer { st with net := net } = { st.protocol peer with
      messages := .ofCounts st.sentBy ((st.net.spec.office peer.addr).arrived peer.box)
        ((net.spec.office peer.addr).taken peer.box)
      replies := .ofCounts ((st.net.spec.letters 0 0).map Letter.bytes)
        ((st.net.spec.office 0).arrived 0) ((net.spec.office 0).taken 0)
      pc := protocolPc net.spec st.pc
      owed := if owes peer net.spec st.receiver then 1 else 0 } := by
  simp only [ReliableNet.protocol, hletters, (hothers _).2]

/-- `ReliableSend` takes a mail out of box 0. -/
theorem senderTake (h : st.Inv numBoxes peer) (hself : st.net.getting 0 0 .sender = true)
    (hpc : st.pc = .receiving) (htake : st.net.spec.exec (.take 0 0 .sender) = some net.spec) :
    (st.protocol peer).Continues (ReliableNet.protocol peer { st with net := net }) := by
  obtain ⟨l, hless, hl, hletters, hothers, htaken, hhand⟩ := PostSpec.take_cases htake
  have hbefore : (st.protocol peer).pc = .receive := by
    show protocolPc _ st.pc = _
    rw [hpc, protocolPc, h.hand_of_getting hself]
  have hafter : protocolPc net.spec st.pc = .test l.bytes := by
    rw [hpc, protocolPc, hhand, if_pos ⟨rfl, rfl, rfl⟩]
  have howes : owes peer net.spec st.receiver = owes peer st.net.spec st.receiver :=
    owes_congr (by rw [hhand, if_neg (by simp)]) (by rw [(hothers _).1]) st.receiver
  have hpeer : (net.spec.office peer.addr).taken peer.box =
      (st.net.spec.office peer.addr).taken peer.box := by
    rw [htaken, if_neg]
    rintro ⟨haddr, hbox⟩
    exact peer.other.elim (fun hne => hne haddr) fun hne => hne hbox
  have harrived : (st.net.spec.office 0).arrived 0 ≤
      ((st.net.spec.letters 0 0).map Letter.bytes).length := by
    rw [List.length_map]
    exact (h.net.counts 0 0).2
  have hbytes : ((st.net.spec.letters 0 0).map Letter.bytes)[(st.net.spec.office 0).taken 0]? =
      some l.bytes := by
    rw [List.getElem?_map, hl]
    rfl
  have hchannel := Channel.take_ofCounts hless harrived
  rw [List.getElem?_eq_getElem (by omega)] at hbytes
  rw [Option.some.inj hbytes] at hchannel
  refine .step .receive (by simp) ((if_pos hbefore).trans ?_)
  rw [protocol_of_take hletters hothers, hafter, howes, hpeer, htaken, if_pos ⟨rfl, rfl⟩]
  exact congrArg (Option.map _) hchannel

/-- The receiver takes a message out of its box. -/
theorem receiverTake (h : st.Inv numBoxes peer)
    (hself : st.net.getting peer.addr peer.box .receiver = true) (hpc : st.receiver = .receiving)
    (htake : st.net.spec.exec (.take peer.addr peer.box .receiver) = some net.spec) :
    (st.protocol peer).Continues (ReliableNet.protocol peer { st with net := net }) := by
  obtain ⟨l, hless, -, hletters, hothers, htaken, hhand⟩ := PostSpec.take_cases htake
  have hsending : (st.net.spec.office peer.addr).sending .receiver = none := by
    by_contra hsome
    obtain ⟨l', hl'⟩ := Option.ne_none_iff_exists'.mp hsome
    exact absurd (hpc.symm.trans (h.sends _ _ _ hl').2.1) (by decide)
  have hbefore : (st.protocol peer).owed = 0 := by
    refine if_neg ?_
    rw [owes, hpc, h.hand_of_getting hself, hsending]
    decide
  have hafter : owes peer net.spec st.receiver = true := by
    rw [owes, hhand, if_pos ⟨rfl, rfl, rfl⟩, Option.isSome_some, Bool.or_true, Bool.true_or]
  have hsame : protocolPc net.spec st.pc = protocolPc st.net.spec st.pc := by
    refine protocolPc_congr (by rw [(hothers _).1]) ?_ st.pc
    rw [hhand, if_neg (by simp)]
  have hzero : (net.spec.office 0).taken 0 = (st.net.spec.office 0).taken 0 := by
    rw [htaken, if_neg]
    rintro ⟨haddr, hbox⟩
    exact peer.other.elim (fun hne => hne haddr.symm) fun hne => hne hbox.symm
  have harrived : (st.net.spec.office peer.addr).arrived peer.box ≤ st.sentBy.length := by
    rw [h.length_sentBy]
    exact (h.net.counts peer.addr peer.box).2
  refine .step .take (by simp) ?_
  have hstep : (st.protocol peer).exec .take = _ :=
    congrArg (Option.map _) (Channel.take_ofCounts hless harrived)
  rw [hstep, protocol_of_take hletters hothers, hsame, hzero, htaken, if_pos ⟨rfl, rfl⟩, hafter,
    Option.map_some, hbefore]
  rfl

/-- A step of a thread in `Receive`. -/
theorem stepReceive (h : st.Inv numBoxes peer)
    (hexec : st.net.exec numBoxes tid (.remove a b i) = some net) :
    Goes numBoxes peer st { st with net := net } := by
  have hnet := h.net.exec hexec
  have hgetting (d : BitVec 32) (c : ℕ) (j : NetThread) (hj : net.getting d c j = true) :
      st.net.getting d c j = true := (MailNet.getting_of_exec hexec hj).resolve_right (by simp)
  rcases MailNet.take_of_exec h.net hexec with hspec | ⟨hself, htake⟩
  · exact h.unseen hnet hspec hgetting
  · obtain ⟨l, -, -, hletters, hothers, -, hhand⟩ := PostSpec.take_cases htake
    have hin : inReceive st.net a b i = true := by
      rw [inReceive, MailNet.getting, hself, Bool.true_or]
    have hreceives := h.receives a b i hin
    refine ⟨⟨hnet, fun d j l' hl' => ?_, fun d c j hj => ?_, ?_⟩, ?_⟩
    · refine h.sends d j l' ?_
      rw [← (hothers d).1]
      exact hl'
    · by_cases hdcj : d = a ∧ c = b ∧ j = i
      · obtain ⟨rfl, rfl, rfl⟩ := hdcj
        exact hreceives
      · refine h.receives d c j ?_
        change inReceive net d c j = true at hj
        rw [inReceive, Bool.or_eq_true, hhand, if_neg hdcj] at hj
        rw [inReceive, Bool.or_eq_true]
        exact hj.imp_left (hgetting d c j)
    · show _ = (net.spec.letters peer.addr peer.box).map Letter.bytes
      rw [hletters]
      exact h.sentBy
    · cases i with
      | sender =>
          obtain ⟨rfl, rfl, hpc⟩ := hreceives
          exact h.senderTake hself hpc htake
      | delay n => cases hreceives
      | receiver =>
          obtain ⟨rfl, rfl, hpc⟩ := hreceives
          exact h.receiverTake hself hpc htake

/-- A thread that returns from `Receive` is not in it any more. -/
theorem not_inReceive (h : st.Inv numBoxes peer)
    (hexec : st.net.exec numBoxes tid (.finish a b i) = some net) (d : BitVec 32) (c : ℕ) :
    inReceive net d c i = false := by
  obtain ⟨l, hsome, -, -, hhand⟩ := PostSpec.finish_cases (MailNet.finish_of_exec hexec)
  have hreceives := h.receives a b i (by rw [inReceive, hsome, Option.isSome_some, Bool.or_true])
  by_contra hnot
  have hin : inReceive net d c i = true := by simpa using hnot
  rw [inReceive, Bool.or_eq_true, hhand] at hin
  have hold : inReceive st.net d c i = true := by
    rw [inReceive, Bool.or_eq_true]
    refine hin.imp (fun hgetting => (MailNet.getting_of_exec hexec hgetting).resolve_right (by simp)) ?_
    split
    · simp
    · exact id
  obtain ⟨rfl, rfl⟩ := hreceives.unique (h.receives d c i hold)
  rcases hin with hgetting | hnone
  · have hempty := h.hand_of_getting ((MailNet.getting_of_exec hexec hgetting).resolve_right (by simp))
    rw [hsome] at hempty
    cases hempty
  · rw [if_pos ⟨rfl, rfl, rfl⟩] at hnone
    cases hnone

/-- A thread that is in `Receive` when another one has returned from it. -/
theorem inReceive_of_finish (h : st.Inv numBoxes peer)
    (hexec : st.net.exec numBoxes tid (.finish a b i) = some net) {d : BitVec 32} {c : ℕ}
    {j : NetThread} (hj : inReceive net d c j = true) : j ≠ i ∧ inReceive st.net d c j = true := by
  obtain ⟨l, -, -, -, hhand⟩ := PostSpec.finish_cases (MailNet.finish_of_exec hexec)
  have hne : j ≠ i := by
    rintro rfl
    rw [h.not_inReceive hexec d c] at hj
    cases hj
  refine ⟨hne, ?_⟩
  rw [inReceive, Bool.or_eq_true, hhand, if_neg fun hdcj => hne hdcj.2.2] at hj
  rw [inReceive, Bool.or_eq_true]
  exact hj.imp_left fun hgetting => (MailNet.getting_of_exec hexec hgetting).resolve_right (by simp)

/-- `ReliableSend` has received a mail, and looks at its text. -/
theorem senderFinish (h : st.Inv numBoxes peer)
    (hexec : st.net.exec numBoxes tid (.finish a b .sender) = some net) :
    Goes numBoxes peer st (st.follow peer net (.finish a b .sender)) := by
  have hspec := MailNet.finish_of_exec hexec
  obtain ⟨l, hsome, hletters, hothers, hhand⟩ := PostSpec.finish_cases hspec
  obtain ⟨rfl, rfl, hpc⟩ := h.receives a b .sender
    (by rw [inReceive, hsome, Option.isSome_some, Bool.or_true])
  obtain ⟨mail, hmail, rfl⟩ := Option.map_eq_some_iff.mp hsome
  have hfollow : st.follow peer net (.finish 0 0 .sender) =
      tested { st with net := net } (Letter.ofMail mail).bytes := by
    simp only [follow, hmail]
  have hinv (pc : CallPc) (vars : SendVars) (ended : List (Message × Bool)) :
      Inv numBoxes peer { st with net := net, pc := pc, vars := vars, ended := ended } := by
    refine ⟨h.net.exec hexec, fun d j l' hl' => ?_, fun d c j hj => ?_, ?_⟩
    · change (net.spec.office d).sending j = some l' at hl'
      rw [(hothers d).1] at hl'
      exact (h.sends d j l' hl').mono
        (fun _ hsending => absurd (hpc.symm.trans hsending) (by decide)) (fun _ _ _ hk => hk)
        fun _ hr => hr
    · obtain ⟨hne, hold⟩ := h.inReceive_of_finish hexec hj
      exact (h.receives d c j hold).mono (fun heq => absurd heq hne) fun _ hr => hr
    · show _ = (net.spec.letters peer.addr peer.box).map Letter.bytes
      rw [hletters]
      exact h.sentBy
  have htest : (st.protocol peer).pc = .test (Letter.ofMail mail).bytes := by
    show protocolPc _ st.pc = _
    rw [hpc, protocolPc, hsome]
  have howes : owes peer net.spec st.receiver = owes peer st.net.spec st.receiver :=
    owes_congr (by rw [hhand, if_neg (by simp)]) (by rw [(hothers _).1]) st.receiver
  have hstep : (st.protocol peer).exec .test =
      some ((st.protocol peer).tested (Letter.ofMail mail).bytes) := by
    simp only [Reliable.exec, htest]
  rw [hfollow]
  refine ⟨?_, .step .test (by simp) (hstep.trans (congrArg some ?_))⟩
  · rw [tested]
    split
    · exact hinv .send _ st.ended
    · exact hinv .idle _ _
  · have hvars : (st.protocol peer).vars = st.vars := rfl
    rw [tested, Reliable.tested, hvars]
    split
    · simp only [ReliableNet.protocol, protocolPc, hletters, (hothers _).2.1, (hothers _).2.2, howes]
    · simp only [ReliableNet.protocol, protocolPc, hletters, (hothers _).2.1, (hothers _).2.2, howes]

/-- The receiver has received a message. -/
theorem receiverFinish (h : st.Inv numBoxes peer)
    (hexec : st.net.exec numBoxes tid (.finish a b .receiver) = some net) :
    Goes numBoxes peer st { st with net := net, receiver := .ack } := by
  obtain ⟨l, hsome, hletters, hothers, hhand⟩ :=
    PostSpec.finish_cases (MailNet.finish_of_exec hexec)
  obtain ⟨rfl, rfl, hpc⟩ := h.receives a b .receiver
    (by rw [inReceive, hsome, Option.isSome_some, Bool.or_true])
  refine ⟨⟨h.net.exec hexec, fun d j l' hl' => ?_, fun d c j hj => ?_, ?_⟩, ?_⟩
  · change (net.spec.office d).sending j = some l' at hl'
    rw [(hothers d).1] at hl'
    exact (h.sends d j l' hl').mono (fun _ hp => ⟨hp, rfl⟩) (fun _ _ _ hk => hk)
      fun _ hr => absurd (hpc.symm.trans hr) (by decide)
  · obtain ⟨hne, hold⟩ := h.inReceive_of_finish hexec hj
    exact (h.receives d c j hold).mono (fun _ hp => hp) fun heq _ => absurd heq hne
  · show _ = (net.spec.letters peer.addr peer.box).map Letter.bytes
    rw [hletters]
    exact h.sentBy
  · have hbefore : owes peer st.net.spec st.receiver = true := by
      rw [owes, hsome, Option.isSome_some, Bool.or_true, Bool.true_or]
    have hafter : owes peer net.spec .ack = true := rfl
    have hsame : protocolPc net.spec st.pc = protocolPc st.net.spec st.pc :=
      protocolPc_congr (by rw [(hothers _).1]) (by rw [hhand, if_neg (by simp)]) st.pc
    have hstay : ReliableNet.protocol peer { st with net := net, receiver := .ack } =
        st.protocol peer := by
      simp only [ReliableNet.protocol, hletters, (hothers _).2.1, (hothers _).2.2, hbefore, hafter,
        hsame]
    rw [hstay]
    exact .stay

/-- **Refinement.** A step of the post offices that the programs allow is a step of the protocol,
or none. -/
theorem step (h : st.Inv numBoxes peer) {act : MailAct NetThread}
    (hallows : st.allows peer act = true) (hexec : st.net.exec numBoxes tid act = some net) :
    Goes numBoxes peer st (st.follow peer net act) := by
  cases act with
  | post a act =>
      cases act with
      | call i out => exact h.callSend hallows hexec
      | step i oracle => exact h.stepSend hexec
      | interrupt k =>
          exact h.unseen (h.net.exec hexec) (MailNet.spec_of_interrupt hexec) fun _ _ _ hj =>
            (MailNet.getting_of_exec hexec hj).resolve_right (by simp)
  | poll a =>
      exact h.unseen (h.net.exec hexec) (MailNet.spec_of_poll hexec) fun _ _ _ hj =>
        (MailNet.getting_of_exec hexec hj).resolve_right (by simp)
  | work a uninit => exact h.work hexec
  | receive a b i => exact h.callReceive hallows hexec
  | remove a b i => exact h.stepReceive hexec
  | finish a b i =>
      cases i with
      | sender => exact h.senderFinish hexec
      | delay n =>
          obtain ⟨l, hsome, -⟩ := PostSpec.finish_cases (MailNet.finish_of_exec hexec)
          cases h.receives a b (.delay n) (by rw [inReceive, hsome, Option.isSome_some, Bool.or_true])
      | receiver => exact h.receiverFinish hexec

end Inv

/-! ## Reported deliveries -/

/-- When a call begins, nothing is left that it could take for its acknowledgment: of the mails
that it will take, those that are in box 0 or on their way say "Resend"; and if these are not all,
no copy of an earlier message can still be acknowledged. -/
structure Quiet (peer : Peer) (st : ReliableNet) : Prop where
  replies : ∀ l ∈ (st.net.waiting 0 0).take MAXREEMISSIONS, isResend (Mem.ofString l.bytes) = true
  messages : (st.net.waiting 0 0).length < MAXREEMISSIONS →
    st.net.waiting peer.addr peer.box = [] ∧ owes peer st.net.spec st.receiver = false

/-- Every call that has ended with `sent == 1` had a copy of its message placed in the box of the
receiver while it was in progress. -/
def Honest (st : ReliableNet) : Prop := ∀ m, (m, true) ∈ st.ended → (m, some m.call) ∈ st.placed

/-- If the step begins a call, it is quiet before it. -/
def BeginsQuiet (peer : Peer) (x : Step ReliableNet ReliableNetAct) : Prop :=
  match x.label with
  | .call _ _ => x.before.Quiet peer
  | _ => True

variable {numBoxes : ℤ} {tid : Option NetThread → ℤ}

/-- It is quiet in the protocol, too. -/
theorem Inv.quiet (h : st.Inv numBoxes peer) (hquiet : st.Quiet peer) :
    (st.protocol peer).Quiet := by
  obtain ⟨htaken, harrived⟩ := h.net.counts 0 0
  obtain ⟨htaken', harrived'⟩ := h.net.counts peer.addr peer.box
  have hreplies : (st.protocol peer).replies.waiting = (st.net.waiting 0 0).map Letter.bytes := by
    rw [h.net.waiting_eq, List.map_drop]
    refine Channel.waiting_ofCounts htaken ?_
    rw [List.length_map]
    exact harrived
  refine ⟨fun text htext => ?_, fun hlength => ?_⟩
  · rw [hreplies, ← List.map_take] at htext
    obtain ⟨l, hl, rfl⟩ := List.mem_map.mp htext
    exact hquiet.replies l hl
  · rw [hreplies, List.length_map] at hlength
    obtain ⟨hmessages, howes⟩ := hquiet.messages hlength
    refine ⟨?_, if_neg (by rw [howes]; decide)⟩
    rw [h.net.waiting_eq, List.drop_eq_nil_iff, ← h.length_sentBy] at hmessages
    rw [← h.length_sentBy] at harrived'
    exact (Channel.waiting_ofCounts htaken' harrived').trans (List.drop_eq_nil_iff.mpr hmessages)

/-- **One step** of the programs, with what the protocol makes of it. -/
theorem Inv.exec (h : st.Inv numBoxes peer) (hprotocol : (st.protocol peer).Inv)
    {act : ReliableNetAct} (hquiet : ∀ data buffer, act = .call data buffer → st.Quiet peer)
    (hexec : st.exec numBoxes tid peer act = some st') :
    st'.Inv numBoxes peer ∧ (st'.protocol peer).Inv := by
  cases act with
  | call data buffer =>
      obtain ⟨hpc, hexec⟩ := Option.ite_none_right_eq_some.mp hexec
      cases hexec
      have hidle : (st.protocol peer).pc = .idle := by
        show protocolPc _ st.pc = _
        rw [hpc]
        rfl
      exact ⟨h.call hpc _ buffer,
        hprotocol.call hidle (h.quiet (hquiet data buffer rfl)) _ buffer⟩
  | fork =>
      obtain ⟨⟨hpc, haway⟩, hexec⟩ := Option.ite_none_right_eq_some.mp hexec
      cases hexec
      have hgoes := h.fork hpc haway
      exact ⟨hgoes.inv, hprotocol.continues hgoes.continues⟩
  | net act =>
      obtain ⟨hallows, hexec⟩ := Option.ite_none_right_eq_some.mp hexec
      obtain ⟨net, hnet, rfl⟩ := Option.map_eq_some_iff.mp hexec
      have hgoes := h.step hallows hnet
      exact ⟨hgoes.inv, hprotocol.continues hgoes.continues⟩

/-- **Reported deliveries.** In every run in which each call begins when it is quiet,
`ReliableSend` reports only deliveries that there were. -/
theorem reported_delivered {inHdr : BitVec 32 → PacketHeader} {inbox buffer : BitVec 32 → Mem}
    {buffer₀ : Mem} {steps : List (Step ReliableNet ReliableNetAct)}
    (hrun : Run numBoxes tid peer (start (MailNet.start inHdr inbox buffer) buffer₀) steps st)
    (hquiet : ∀ x ∈ steps, BeginsQuiet peer x) :
    st.Honest ∧ ∀ x ∈ steps, x.before.Honest ∧ x.after.Honest := by
  have hstep (x : Step ReliableNet ReliableNetAct)
      (hinv : x.before.Inv numBoxes peer ∧ (x.before.protocol peer).Inv)
      (hexec : x.before.exec numBoxes tid peer x.label = some x.after) (hbegins : BeginsQuiet peer x) :
      x.after.Inv numBoxes peer ∧ (x.after.protocol peer).Inv := by
    refine hinv.1.exec hinv.2 (fun data buffer hlabel => ?_) hexec
    rw [BeginsQuiet, hlabel] at hbegins
    exact hbegins
  obtain ⟨hend, hall⟩ := Trace.invariant
    (I := fun st => st.Inv numBoxes peer ∧ (st.protocol peer).Inv) hstep hrun
    ⟨Inv.start inHdr inbox buffer buffer₀, Reliable.Inv.start buffer₀⟩ hquiet
  exact ⟨hend.2.delivered, fun x hx => ⟨(hall x hx).1.2.delivered, (hall x hx).2.2.delivered⟩⟩

instance (peer : Peer) (st : ReliableNet) : Decidable (st.Quiet peer) :=
  decidable_of_iff ((∀ l ∈ (st.net.waiting 0 0).take MAXREEMISSIONS,
      isResend (Mem.ofString l.bytes) = true) ∧
    ((st.net.waiting 0 0).length < MAXREEMISSIONS →
      st.net.waiting peer.addr peer.box = [] ∧ owes peer st.net.spec st.receiver = false))
    ⟨fun h => ⟨h.1, h.2⟩, fun h => ⟨h.replies, h.messages⟩⟩

/-! Two runs, of machine 0 and of a receiver at box 0 of machine 1. -/

/-- The receiver, and the machines before the first call, with zeros in their memory. -/
def receiver₁ : Peer := ⟨1, 0, .inl (by decide)⟩

def blank : ReliableNet :=
  start (MailNet.start (fun _ => ⟨0, 0, 0⟩) (fun _ _ => 0) (fun _ _ => 0)) fun _ => 0

/-- Thread `i` of machine `a` sends a text to box 0 of machine `dest`; it is request `k`. -/
def sendText (a : BitVec 32) (i : NetThread) (dest : BitVec 32) (text : List UInt8) (lost : Bool)
    (k : ℕ) : List ReliableNetAct :=
  let out : Outgoing :=
    ⟨⟨dest, 0, 0⟩, ⟨0, 0, BitVec.ofNat 32 text.length⟩, Mem.ofString text, fun _ => 0⟩
  let step : ReliableNetAct := .net (.post a (.step i (lost, fun _ => 0)))
  .net (.post a (.call i out)) :: List.replicate 6 step ++
    .net (.post a (.interrupt k)) :: List.replicate 7 step

/-- Machine `a` takes a packet in and puts its mail into the box. -/
def deliver (a : BitVec 32) : List ReliableNetAct :=
  .net (.poll a) :: List.replicate 18 (.net (.work a fun _ => 0))

/-- Thread `i` of machine `a` receives a mail from box 0. -/
def takeMail (a : BitVec 32) (i : NetThread) : List ReliableNetAct :=
  .net (.receive a 0 i) :: List.replicate 12 (.net (.remove a 0 i)) ++ [.net (.finish a 0 i)]

/-- The receiver gets a message and acknowledges it with "ok", in its request `k`. -/
def acknowledge (k : ℕ) : List ReliableNetAct :=
  deliver 1 ++ takeMail 1 .receiver ++ sendText 1 .receiver 0 [111, 107, 0] false k

/-- A call in which the message is acknowledged, and another one that begins when it is quiet. -/
theorem reported_delivered_one : ∃ steps st, Run 1 (fun _ => 1) receiver₁ blank steps st ∧
    (∀ x ∈ steps, BeginsQuiet receiver₁ x) ∧ st.ended = [(⟨1, [65]⟩, true)] ∧ st.pc = .send ∧
      st.Honest := by
  let labels : List ReliableNetAct := [.call [65] fun _ => 0] ++
    sendText 0 .sender 1 [65] false 0 ++ [.fork] ++ acknowledge 0 ++ deliver 0 ++
    takeMail 0 .sender ++ [.call [66] fun _ => 0]
  let check (st : ReliableNet) : ReliableNetAct → Bool
    | .call _ _ => decide (st.Quiet receiver₁)
    | _ => true
  have hend : (execChecked (exec 1 (fun _ => 1) receiver₁) check blank labels).map (fun st =>
      (st.ended, st.pc)) = some ([(⟨1, [65]⟩, true)], .send) := by decide +kernel
  obtain ⟨st, hst, heq⟩ := Option.map_eq_some_iff.mp hend
  obtain ⟨hended, hpc⟩ := Prod.mk.inj heq
  obtain ⟨steps, hrun, hcheck⟩ := trace_of_execChecked hst
  have hquiet : ∀ x ∈ steps, BeginsQuiet receiver₁ x := by
    intro x hx
    have htrue := hcheck x hx
    rw [BeginsQuiet]
    split
    · rename_i hlabel
      rw [hlabel] at htrue
      exact of_decide_eq_true htrue
    · trivial
  exact ⟨steps, st, hrun, hquiet, hended, hpc, (reported_delivered hrun hquiet).1⟩

/-- The first call sends its message twice, and both copies are acknowledged. The second call
takes the second acknowledgment for its own, although its message is lost. -/
theorem not_honest : ¬ ∀ (numBoxes : ℤ) (tid : Option NetThread → ℤ) (peer : Peer)
    (inHdr : BitVec 32 → PacketHeader) (inbox buffer : BitVec 32 → Mem) (buffer₀ : Mem) steps st,
    Run numBoxes tid peer (start (MailNet.start inHdr inbox buffer) buffer₀) steps st →
      st.Honest := by
  intro hclaim
  let labels : List ReliableNetAct := [.call [65] fun _ => 0] ++
    sendText 0 .sender 1 [65] false 0 ++ [.fork] ++
    sendText 0 (.delay 0) 0 (resendText ++ [0]) false 1 ++ deliver 0 ++ takeMail 0 .sender ++
    sendText 0 .sender 1 [65] false 2 ++ [.fork] ++ acknowledge 0 ++ acknowledge 1 ++
    deliver 0 ++ deliver 0 ++ takeMail 0 .sender ++ [.call [66] fun _ => 0] ++
    sendText 0 .sender 1 [66] true 3 ++ [.fork] ++ takeMail 0 .sender
  have hend : (execAll (exec 1 (fun _ => 1) receiver₁) blank labels).map (fun st =>
      (st.ended, st.placed)) =
      some ([(⟨1, [65]⟩, true), (⟨2, [66]⟩, true)], [(⟨1, [65]⟩, some 1), (⟨1, [65]⟩, some 1)]) := by
    decide +kernel
  obtain ⟨st, hst, heq⟩ := Option.map_eq_some_iff.mp hend
  obtain ⟨hended, hplaced⟩ := Prod.mk.inj heq
  have hhonest := hclaim 1 (fun _ => 1) receiver₁ _ _ _ _ _ st (trace_of_execAll hst) ⟨2, [66]⟩
    (by rw [hended]; decide)
  rw [hplaced] at hhonest
  exact absurd hhonest (by decide)

end ReliableNet

end Nachos
