/-
# Mail arrives once and in order

What holds of the post offices in every run. A mail goes from the socket to the inbox, to the
postal worker and into its box, and at each place there is an order: the mails of a box that
are not in it yet are those of the worker, of the inbox and of the socket, one after the other.
The packet in the inbox is not overwritten because its length is not zero, and it is not read
twice because there is one unit of `messageAvailable` for it.
-/

import Nachos.Network.Boxes

namespace Nachos

open Base Synch

variable {ι : Type}

namespace Office

/-- The mail that the postal worker has and has not put into a box. -/
def carried (o : Office ι) : List Letter :=
  match o.worker with
  | .unpacking pktHdr => [Letter.ofPacket pktHdr o.buffer]
  | .putting box => (((o.boxes box).threads none).pc.appending.map Letter.ofMail).toList
  | _ => []

/-- The mail in the inbox. -/
def parked (o : Office ι) : List Letter :=
  if o.post.device.inHdr.length ≠ 0 then
    [Letter.ofPacket o.post.device.inHdr o.post.device.inbox]
  else []

/-- The mails for the machine that are not in a box yet, the first one first. -/
def transit (o : Office ι) (sock : List Mem) : List Letter :=
  o.carried ++ o.parked ++ sock.map Letter.ofWire

/-- The postal worker does not send. -/
theorem threads_of_work [DecidableEq ι] {numBoxes : ℤ} {tid : Option ι → ℤ} {o o' : Office ι}
    {uninit : Mem} (h : o.work numBoxes tid uninit = some o') : o'.post.threads = o.post.threads := by
  rw [work] at h
  split at h
  · obtain ⟨units, -, rfl⟩ := Option.map_eq_some_iff.mp h
    rfl
  · cases h
    rfl
  · split at h
    · obtain ⟨list, -, rfl⟩ := Option.map_eq_some_iff.mp h
      rfl
    · cases h
  · obtain ⟨list, -, rfl⟩ := Option.map_eq_some_iff.mp h
    rfl

end Office

/-- The letters for a box. -/
def Letter.forBox (b : ℕ) (letters : List Letter) : List Letter := letters.filter fun l => l.box = b

/-- What holds of an office. -/
structure OfficeInv [DecidableEq ι] (numBoxes : ℤ) (a : BitVec 32) (o : Office ι) (sock : List Mem)
    (posted : List (BitVec 32 × Sending)) : Prop where
  ident : o.post.device.ident = a
  legal : ∀ wire ∈ sock, Legal numBoxes a (Header.load wire) (wire.shift HeaderSize)
  inbox : o.post.device.inHdr.length ≠ 0 →
    Legal numBoxes a o.post.device.inHdr o.post.device.inbox ∧
      o.messageAvailable + (if o.worker = .receiving then 1 else 0) = 1
  noPacket : o.post.device.inHdr.length = 0 → o.messageAvailable = 0 ∧ o.worker ≠ .receiving
  unpacking : ∀ pktHdr, o.worker = .unpacking pktHdr → Legal numBoxes a pktHdr o.buffer
  putting : ∀ b, o.worker ≠ .putting b → ((o.boxes b).threads none).pc = .away
  boxes : ∀ b, BoxInv b (o.boxes b) (o.hand b) (o.taken b) (o.returned b)
  account : ∀ b, Letter.forBox b (posted.map fun x => Letter.ofSending x.2) =
    (o.boxes b).appended.map Letter.ofMail ++ Letter.forBox b (o.transit sock)

namespace OfficeInv

variable [DecidableEq ι] {numBoxes : ℤ} {a : BitVec 32} {o : Office ι} {sock : List Mem}
  {posted : List (BitVec 32 × Sending)}

/-- A step of the sending side leaves the inbox alone. -/
theorem post (h : OfficeInv numBoxes a o sock posted)
    {post : DeviceRun ι Sending Network (Option (BitVec 32 × Mem))}
    (hident : post.device.ident = o.post.device.ident)
    (hinHdr : post.device.inHdr = o.post.device.inHdr)
    (hinbox : post.device.inbox = o.post.device.inbox) :
    OfficeInv numBoxes a { o with post := post } sock posted := by
  have hparked : Office.parked { o with post := post } = o.parked := by
    rw [Office.parked, Office.parked, hinHdr, hinbox]
  refine ⟨hident.trans h.ident, h.legal, ?_, ?_, h.unpacking, h.putting, h.boxes, fun b => ?_⟩
  · rw [hinHdr, hinbox]
    exact h.inbox
  · rw [hinHdr]
    exact h.noPacket
  · rw [Office.transit, hparked]
    exact h.account b

/-- A packet is put on the socket. -/
theorem transmit (h : OfficeInv numBoxes a o sock posted) {wire : Mem} {s : Sending}
    (sender : BitVec 32)
    (hlegal : Legal numBoxes a (Header.load wire) (wire.shift HeaderSize))
    (hletter : Letter.ofWire wire = Letter.ofSending s) :
    OfficeInv numBoxes a o (sock ++ [wire]) (posted ++ [(sender, s)]) := by
  refine ⟨h.ident, fun w hw => ?_, h.inbox, h.noPacket, h.unpacking, h.putting, h.boxes,
    fun b => ?_⟩
  · rcases List.mem_append.mp hw with hw | hw
    · exact h.legal w hw
    · rw [List.mem_singleton.mp hw]
      exact hlegal
  · have htransit : o.transit (sock ++ [wire]) = o.transit sock ++ [Letter.ofSending s] := by
      rw [Office.transit, Office.transit, List.map_append, List.append_assoc, List.append_assoc,
        List.append_assoc, List.map_singleton, hletter]
    have haccount := h.account b
    rw [Letter.forBox, Letter.forBox] at haccount
    rw [htransit, Letter.forBox, Letter.forBox, List.map_append, List.filter_append,
      List.filter_append, haccount, List.append_assoc]
    rfl

/-- The network is polled. -/
theorem poll (h : OfficeInv numBoxes a o sock posted) {net : Network} {sock' : List Mem}
    {avail : Bool} (hpoll : o.post.device.checkPktAvail sock = .ok (net, sock', avail)) :
    OfficeInv numBoxes a (o.polled net avail) sock' posted := by
  rw [Network.checkPktAvail.eq_def] at hpoll
  split at hpoll
  · cases hpoll
    exact h
  · rename_i hzero
    have hzero : o.post.device.inHdr.length = 0 := not_not.mp hzero
    cases sock with
    | nil =>
        cases hpoll
        exact h
    | cons buffer rest =>
        obtain ⟨hunits, hworker⟩ := h.noPacket hzero
        have hlegal := h.legal buffer List.mem_cons_self
        obtain ⟨-, -, hpoll⟩ := Except.bind_eq_ok.mp hpoll
        cases hpoll
        set inbox := o.post.device.inbox.copy 0 buffer HeaderSize
          (Header.load buffer).length.toNat with hinbox
        have hsame : ∀ k < (Header.load buffer).length.toNat,
            inbox k = buffer.shift HeaderSize k := by
          intro k hk
          rw [hinbox, Mem.copy_of_mem _ _ (by omega), Mem.shift_apply, Nat.sub_zero, Nat.add_comm]
        refine ⟨h.ident, fun w hw => h.legal w (List.mem_cons_of_mem _ hw), fun _ =>
          ⟨hlegal.congr hsame, ?_⟩, fun hnot => absurd hnot hlegal.length_ne_zero, h.unpacking,
          h.putting, h.boxes, fun b => ?_⟩
        · show Units.V o.messageAvailable + (if o.worker = .receiving then 1 else 0) = 1
          rw [if_neg hworker, hunits]
          rfl
        · rw [h.account b]
          have hbefore : o.parked = [] := if_neg (not_not.mpr hzero)
          have hafter : (o.polled { o.post.device with
              inHdr := Header.load buffer, inbox := inbox } true).parked = [Letter.ofWire buffer] :=
            (if_pos hlegal.length_ne_zero).trans
              (congrArg (fun l => [l]) (hlegal.ofPacket_congr hsame))
          rw [Office.transit, Office.transit, hbefore, hafter, List.append_nil, List.map_cons,
            List.append_assoc]
          rfl

/-- The poll of a machine does not fail. -/
theorem exists_poll (h : OfficeInv numBoxes a o sock posted) :
    ∃ result, o.post.device.checkPktAvail sock = .ok result := by
  rw [Network.checkPktAvail.eq_def]
  split
  · exact ⟨_, rfl⟩
  · cases sock with
    | nil => exact ⟨_, rfl⟩
    | cons buffer rest =>
        have hlegal := h.legal buffer List.mem_cons_self
        exact ⟨_, Except.bind_eq_ok.mpr ⟨(), assert_of
          ⟨hlegal.dest.trans h.ident.symm, hlegal.length_le⟩, rfl⟩⟩

/-- The postal worker takes the unit for the packet in the inbox. -/
theorem wake (h : OfficeInv numBoxes a o sock posted) (hworker : o.worker = .waiting)
    (hunits : 0 < o.messageAvailable) :
    OfficeInv numBoxes a { o with
      messageAvailable := o.messageAvailable - 1, worker := .receiving } sock posted := by
  have hne : o.post.device.inHdr.length ≠ 0 := by
    intro hzero
    rw [(h.noPacket hzero).1] at hunits
    exact absurd hunits (Nat.lt_irrefl 0)
  obtain ⟨hlegal, hone⟩ := h.inbox hne
  rw [hworker, if_neg (by decide)] at hone
  refine ⟨h.ident, h.legal, fun _ => ⟨hlegal, ?_⟩, fun hzero => absurd hzero hne, nofun,
    fun b _ => h.putting b (by rw [hworker]; nofun), h.boxes, fun b => ?_⟩
  · show o.messageAvailable - 1 + 1 = 1
    omega
  · have haccount := h.account b
    rw [Office.transit, Office.carried, hworker] at haccount
    exact haccount

/-- The postal worker takes the packet out of the inbox. -/
theorem fetch (h : OfficeInv numBoxes a o sock posted) (hworker : o.worker = .receiving) :
    OfficeInv numBoxes a o.fetch sock posted := by
  have hne : o.post.device.inHdr.length ≠ 0 := fun hzero => (h.noPacket hzero).2 hworker
  obtain ⟨hlegal, hone⟩ := h.inbox hne
  rw [if_pos hworker] at hone
  set buffer := o.buffer.copy 0 o.post.device.inbox 0 o.post.device.inHdr.length.toNat with hbuffer
  have hfetch : o.fetch = { o with
      post := { o.post with
        device := { o.post.device with inHdr := { o.post.device.inHdr with length := 0 } } }
      buffer := buffer
      worker := .unpacking o.post.device.inHdr } := by
    rw [Office.fetch, Network.receive, if_pos hne]
  have hsame : ∀ k < o.post.device.inHdr.length.toNat, buffer k = o.post.device.inbox k := by
    intro k hk
    rw [hbuffer, Mem.copy_of_mem _ _ (by omega), Nat.sub_zero, Nat.add_zero]
  rw [hfetch]
  refine ⟨h.ident, h.legal, fun hnot => absurd rfl hnot, fun _ => ⟨?_, nofun⟩, fun pktHdr hpc => ?_,
    fun b _ => h.putting b (by rw [hworker]; nofun), h.boxes, fun b => ?_⟩
  · show o.messageAvailable = 0
    omega
  · cases hpc
    exact hlegal.congr hsame
  · have haccount := h.account b
    rw [Office.transit, Office.carried, hworker, Office.parked, if_pos hne] at haccount
    rw [haccount]
    show _ = _ ++ Letter.forBox b ([Letter.ofPacket o.post.device.inHdr buffer] ++ [] ++
      sock.map Letter.ofWire)
    rw [hlegal.ofPacket_congr hsame]
    rfl

/-- A box is replaced by one with the same mails in it and on their way into it. -/
theorem setBox (h : OfficeInv numBoxes a o sock posted) {box : ℕ}
    {list : ListRun (Option ι) Mail} {hand : ι → Option Mail} {taken returned : List (ι × Mail)}
    (hbox : BoxInv box list hand taken returned)
    (happended : list.appended = (o.boxes box).appended)
    (hnone : list.threads none = (o.boxes box).threads none) :
    OfficeInv numBoxes a { o with
      boxes := Function.update o.boxes box list
      hand := Function.update o.hand box hand
      taken := Function.update o.taken box taken
      returned := Function.update o.returned box returned } sock posted := by
  have hthread (b : ℕ) : (Function.update o.boxes box list b).threads none =
      (o.boxes b).threads none := by
    by_cases hb : b = box
    · rw [hb, Function.update_self, hnone]
    · rw [Function.update_of_ne hb]
  have hmails (b : ℕ) : (Function.update o.boxes box list b).appended = (o.boxes b).appended := by
    by_cases hb : b = box
    · rw [hb, Function.update_self, happended]
    · rw [Function.update_of_ne hb]
  refine ⟨h.ident, h.legal, h.inbox, h.noPacket, h.unpacking, fun b hb => ?_, fun b => ?_,
    fun b => ?_⟩
  · rw [hthread b]
    exact h.putting b hb
  · by_cases hb : b = box
    · subst hb
      simp only [Function.update_self]
      exact hbox
    · simp only [Function.update_of_ne hb]
      exact h.boxes b
  · have hcarried : Office.carried { o with
        boxes := Function.update o.boxes box list
        hand := Function.update o.hand box hand
        taken := Function.update o.taken box taken
        returned := Function.update o.returned box returned } = o.carried := by
      simp only [Office.carried, hthread]
    rw [h.account b, hmails b, Office.transit, Office.transit, hcarried]
    rfl

/-- A box is replaced and nothing is taken out of it. -/
theorem setBox_same (h : OfficeInv numBoxes a o sock posted) {box : ℕ}
    {list : ListRun (Option ι) Mail}
    (hbox : BoxInv box list (o.hand box) (o.taken box) (o.returned box))
    (happended : list.appended = (o.boxes box).appended)
    (hnone : list.threads none = (o.boxes box).threads none) :
    OfficeInv numBoxes a (o.setBox box list) sock posted := by
  have hset := h.setBox hbox happended hnone
  simp only [Function.update_eq_self] at hset
  exact hset

/-- A call of `Receive`. -/
theorem receive (h : OfficeInv numBoxes a o sock posted) {tid : Option ι → ℤ} {box : ℕ} {i : ι}
    {o' : Office ι} (hreceive : o.receive numBoxes tid box i = some o') :
    OfficeInv numBoxes a o' sock posted := by
  obtain ⟨⟨-, hhand⟩, hreceive⟩ := Option.ite_none_right_eq_some.mp hreceive
  obtain ⟨list, hexec, rfl⟩ := Option.map_eq_some_iff.mp hreceive
  obtain ⟨-, rfl⟩ := ListRun.call_of_exec hexec
  exact h.setBox_same ((h.boxes box).callRemove hhand) rfl
    ((BoxInv.goto_cases (o.boxes box) (some i) _).2 none nofun)

/-- A step of a `Receive` in the box. -/
theorem remove (h : OfficeInv numBoxes a o sock posted) {tid : Option ι → ℤ} {box : ℕ} {i : ι}
    {o' : Office ι} (hremove : o.remove tid box i = some o') :
    OfficeInv numBoxes a o' sock posted := by
  obtain ⟨list, hexec, rfl⟩ := Option.map_eq_some_iff.mp hremove
  obtain ⟨happended, hnone, ⟨hremoved, hbox⟩ | ⟨mail, hremoved, hbox⟩⟩ :=
    (h.boxes box).stepGetter hexec
  · rw [hremoved, List.getElem?_eq_none le_rfl]
    exact h.setBox_same hbox happended hnone
  · rw [hremoved, List.getElem?_append_right le_rfl, Nat.sub_self]
    have hset := h.setBox hbox happended hnone
    rw [Function.update_eq_self] at hset
    exact hset

/-- A `Receive` returns. -/
theorem finish (h : OfficeInv numBoxes a o sock posted) {box : ℕ} {i : ι} {o' : Office ι}
    (hfinish : o.finish box i = some o') : OfficeInv numBoxes a o' sock posted := by
  rw [Office.finish] at hfinish
  split at hfinish
  · rename_i mail _ hhand
    cases hfinish
    have hset := h.setBox ((h.boxes box).finish hhand) rfl rfl
    rw [Function.update_eq_self, Function.update_eq_self] at hset
    exact hset
  · cases hfinish

/-- The postal worker turns to a box, and the mails on their way are accounted for. -/
theorem setWorker (h : OfficeInv numBoxes a o sock posted) {box : ℕ}
    {list : ListRun (Option ι) Mail} {worker : WorkerPc} (hold : o.worker ≠ .receiving)
    (hbusy : ∀ b, b ≠ box → o.worker ≠ .putting b)
    (hworker : (worker = .waiting ∧ (list.threads none).pc = .away) ∨ worker = .putting box)
    (hbox : BoxInv box list (o.hand box) (o.taken box) (o.returned box))
    (haccount : ∀ b, (o.boxes b).appended.map Letter.ofMail ++ Letter.forBox b o.carried =
      (Function.update o.boxes box list b).appended.map Letter.ofMail ++
        Letter.forBox b ((list.threads none).pc.appending.map Letter.ofMail).toList) :
    OfficeInv numBoxes a { o.setBox box list with worker := worker } sock posted := by
  have hne : worker ≠ .receiving := by
    rcases hworker with ⟨rfl, -⟩ | rfl <;> nofun
  refine ⟨h.ident, h.legal, fun hpacket => ?_, fun hzero => ⟨(h.noPacket hzero).1, hne⟩,
    fun pktHdr hpc => ?_, fun b hb => ?_, fun b => ?_, fun b => ?_⟩
  · obtain ⟨hlegal, hone⟩ := h.inbox hpacket
    rw [if_neg hold] at hone
    refine ⟨hlegal, ?_⟩
    show o.messageAvailable + (if worker = .receiving then 1 else 0) = 1
    rw [if_neg hne, hone]
  · rcases hworker with ⟨rfl, -⟩ | rfl <;> cases hpc
  · show ((Function.update o.boxes box list b).threads none).pc = .away
    by_cases hbb : b = box
    · rw [hbb, Function.update_self]
      rcases hworker with ⟨-, hpc⟩ | rfl
      · exact hpc
      · rw [hbb] at hb
        exact absurd rfl hb
    · rw [Function.update_of_ne hbb]
      exact h.putting b (hbusy b hbb)
  · show BoxInv b (Function.update o.boxes box list b) _ _ _
    by_cases hb : b = box
    · subst hb
      rw [Function.update_self]
      exact hbox
    · rw [Function.update_of_ne hb]
      exact h.boxes b
  · have hcarried : Office.carried { o.setBox box list with worker := worker } =
        ((list.threads none).pc.appending.map Letter.ofMail).toList := by
      rcases hworker with ⟨rfl, hpc⟩ | rfl
      · rw [hpc]
        rfl
      · show (((Function.update o.boxes box list box).threads none).pc.appending.map
          Letter.ofMail).toList = _
        rw [Function.update_self]
    have hold := h.account b
    rw [Office.transit, List.append_assoc, Letter.forBox, Letter.forBox, List.filter_append,
      ← List.append_assoc] at hold
    rw [Office.transit, hcarried, List.append_assoc, Letter.forBox, Letter.forBox,
      List.filter_append, ← List.append_assoc, hold]
    exact congrArg (· ++ _) (haccount b)

/-- The postal worker unpacks a packet and calls `Put`. -/
theorem unpack (h : OfficeInv numBoxes a o sock posted) {pktHdr : PacketHeader}
    (hworker : o.worker = .unpacking pktHdr) {box : ℕ} {mail : Mail} {uninit : Mem}
    (hunpack : PostOffice.unpack numBoxes pktHdr o.buffer uninit = .ok (box, mail)) :
    OfficeInv numBoxes a
      { o.setBox box ((o.boxes box).goto none (.acquire (.append mail))) with
        worker := .putting box } sock posted := by
  obtain ⟨mail', hunpack', hletter⟩ := PostOffice.unpack_of_legal (h.unpacking pktHdr hworker) uninit
  obtain ⟨hbox, rfl⟩ := Prod.mk.inj (Except.ok.inj (hunpack.symm.trans hunpack'))
  have hmail : (Letter.ofMail mail).box = box := by rw [hletter, hbox]
  obtain ⟨hself, -⟩ := BoxInv.goto_cases (o.boxes box) none (.acquire (.append mail))
  refine h.setWorker (by rw [hworker]; nofun) (fun b _ => by rw [hworker]; nofun) (.inr rfl)
    ((h.boxes box).callAppend hmail) fun b => ?_
  have hcarried : o.carried = [Letter.ofMail mail] := by rw [Office.carried, hworker, hletter]
  have happended : (Function.update o.boxes box
      ((o.boxes box).goto none (.acquire (.append mail))) b).appended = (o.boxes b).appended := by
    by_cases hb : b = box
    · rw [hb, Function.update_self]
      rfl
    · rw [Function.update_of_ne hb]
  rw [hcarried, happended, hself]
  rfl

/-- The postal worker goes on in a box. -/
theorem put (h : OfficeInv numBoxes a o sock posted) {box : ℕ} (hworker : o.worker = .putting box)
    {tid : Option ι → ℤ} {list : ListRun (Option ι) Mail}
    (hexec : (o.boxes box).exec tid (none, .step) = some list) {worker : WorkerPc}
    (hnext : (worker = .waiting ∧ (list.threads none).pc = .away) ∨ worker = .putting box) :
    OfficeInv numBoxes a { o.setBox box list with worker := worker } sock posted := by
  refine h.setWorker (by rw [hworker]; nofun) (fun b hb => ?_) hnext
    ((h.boxes box).stepPutter hexec) fun b => ?_
  · rw [hworker]
    intro heq
    cases heq
    exact hb rfl
  · have hcarried : o.carried =
        (((o.boxes box).threads none).pc.appending.map Letter.ofMail).toList := by
      rw [Office.carried, hworker]
    rw [hcarried]
    cases (ListRun.effect_of_exec hexec).1 with
    | none _ happended _ happending =>
        have hsame : (Function.update o.boxes box list b).appended = (o.boxes b).appended := by
          by_cases hb : b = box
          · rw [hb, Function.update_self, happended]
          · rw [Function.update_of_ne hb]
        rw [hsame, happending]
    | insert item happending hdone _ _ happended =>
        rw [happending, hdone]
        by_cases hb : b = box
        · rw [hb, Function.update_self, happended, List.map_append, List.append_assoc]
          have hitem := (h.boxes box).putting item happending
          simp [Letter.forBox, hitem]
        · rw [Function.update_of_ne hb]
          have hitem := (h.boxes box).putting item happending
          simp [Letter.forBox, hitem, Ne.symm hb]
    | take item _ _ hremoving =>
        rw [(h.boxes box).putter] at hremoving
        cases hremoving

/-- A step of the postal worker. -/
theorem work (h : OfficeInv numBoxes a o sock posted) {tid : Option ι → ℤ} {uninit : Mem}
    {o' : Office ι} (hwork : o.work numBoxes tid uninit = some o') :
    OfficeInv numBoxes a o' sock posted := by
  rw [Office.work] at hwork
  split at hwork
  · rename_i hworker
    obtain ⟨units, hunits, rfl⟩ := Option.map_eq_some_iff.mp hwork
    obtain ⟨hpos, rfl⟩ := Units.P_eq_some.mp hunits
    exact h.wake hworker hpos
  · rename_i hworker
    cases hwork
    exact h.fetch hworker
  · rename_i pktHdr hworker
    split at hwork
    · rename_i box mail hunpack
      obtain ⟨list, hexec, rfl⟩ := Option.map_eq_some_iff.mp hwork
      obtain ⟨-, rfl⟩ := ListRun.call_of_exec hexec
      exact h.unpack hworker hunpack
    · cases hwork
  · rename_i box hworker
    obtain ⟨list, hexec, rfl⟩ := Option.map_eq_some_iff.mp hwork
    refine h.put hworker hexec ?_
    split
    · rename_i hpc
      exact .inl ⟨rfl, hpc⟩
    · exact .inr rfl

end OfficeInv

/-! ## All machines -/

namespace MailNet

variable [DecidableEq ι] {numBoxes : ℤ} {tid : Option ι → ℤ} {st st' : MailNet ι} {a : BitVec 32}

/-- What holds of the machines. -/
structure Inv (numBoxes : ℤ) (st : MailNet ι) : Prop where
  office : ∀ a, OfficeInv numBoxes a (st.office a) (st.socket a) (st.posted a)
  prepared : ∀ a, (st.office a).post.Prepared (PostOffice.sender a numBoxes)
  posted : ∀ a, ∀ x ∈ st.posted a, x.2.pktHdr.toAddr = a ∧
    ∃ out, PostOffice.pack x.1 numBoxes out = .ok x.2

namespace Inv

theorem start (inHdr : BitVec 32 → PacketHeader) (inbox buffer : BitVec 32 → Mem) :
    (start inHdr inbox buffer : MailNet ι).Inv numBoxes where
  office a := {
    ident := rfl
    legal := nofun
    inbox := fun hne => absurd rfl hne
    noPacket := fun _ => ⟨rfl, nofun⟩
    unpacking := nofun
    putting := fun _ _ => rfl
    boxes := fun _ => BoxInv.start
    account := fun _ => rfl }
  prepared a i s hplan := by cases hplan
  posted a x hx := by cases hx

/-- One office changes. -/
theorem setOffice (h : st.Inv numBoxes) {o : Office ι}
    (ho : OfficeInv numBoxes a o (st.socket a) (st.posted a))
    (hprepared : o.post.Prepared (PostOffice.sender a numBoxes)) :
    (st.setOffice a o).Inv numBoxes := by
  refine ⟨fun d => ?_, fun d => ?_, h.posted⟩
  · show OfficeInv numBoxes d (Function.update st.office a o d) _ _
    by_cases hd : d = a
    · subst hd
      rw [Function.update_self]
      exact ho
    · rw [Function.update_of_ne hd]
      exact h.office d
  · show (Function.update st.office a o d).post.Prepared _
    by_cases hd : d = a
    · subst hd
      rw [Function.update_self]
      exact hprepared
    · rw [Function.update_of_ne hd]
      exact h.prepared d

/-- A packet is put on a socket. -/
theorem transmit (h : st.Inv numBoxes) {dest : BitVec 32} {s : Sending} {wire : Mem} {out : Outgoing}
    (hlegal : Legal numBoxes dest (Header.load wire) (wire.shift HeaderSize))
    (hletter : Letter.ofWire wire = Letter.ofSending s) (hdest : s.pktHdr.toAddr = dest)
    (hpack : PostOffice.pack a numBoxes out = .ok s) :
    (st.transmit a dest s wire).Inv numBoxes := by
  refine ⟨fun d => ?_, h.prepared, fun d x hx => ?_⟩
  · show OfficeInv numBoxes d (st.office d) (Function.update st.socket dest _ d)
      (Function.update st.posted dest _ d)
    by_cases hd : d = dest
    · subst hd
      rw [Function.update_self, Function.update_self]
      exact (h.office d).transmit a hlegal hletter
    · rw [Function.update_of_ne hd, Function.update_of_ne hd]
      exact h.office d
  · change x ∈ Function.update st.posted dest _ d at hx
    by_cases hd : d = dest
    · subst hd
      rw [Function.update_self] at hx
      rcases List.mem_append.mp hx with hx | hx
      · exact h.posted d x hx
      · rw [List.mem_singleton.mp hx]
        exact ⟨hdest, out, hpack⟩
    · rw [Function.update_of_ne hd] at hx
      exact h.posted d x hx

/-- A step of the sending side. -/
theorem post (h : st.Inv numBoxes) {act : DeviceAct ι Outgoing (Bool × Mem)}
    {post : DeviceRun ι Sending Network (Option (BitVec 32 × Mem))}
    (hexec : (st.office a).post.exec (PostOffice.sender a numBoxes) (fun i => tid (some i)) act =
      some post) : (st.sent a post).Inv numBoxes := by
  have hprepared := (h.prepared a).exec hexec
  rcases DeviceRun.requests_of_exec hexec with
    ⟨hrequests, hdevice⟩ | ⟨i, s, oracle, result, hplan, hrequest, hrequests⟩
  · have hsent : st.sent a post = st.setOffice a { st.office a with post := post } := by
      rw [sent, hrequests, List.getElem?_eq_none le_rfl]
    rw [hsent]
    rcases hdevice with hdevice | hdevice
    · exact h.setOffice ((h.office a).post (by rw [hdevice]) (by rw [hdevice]) (by rw [hdevice]))
        hprepared
    · refine h.setOffice ((h.office a).post ?_ ?_ ?_) hprepared
      · rw [hdevice]
        rfl
      · rw [hdevice]
        rfl
      · rw [hdevice]
        rfl
  · obtain ⟨result', hsend, heq⟩ := Except.bind_eq_ok.mp hrequest
    obtain ⟨rfl, hdevice⟩ := Prod.mk.inj (Except.ok.inj heq)
    have hoffice : (st.setOffice a { st.office a with post := post }).Inv numBoxes :=
      h.setOffice ((h.office a).post (by rw [← hdevice]) (by rw [← hdevice]) (by rw [← hdevice]))
        hprepared
    rw [sent, hrequests, List.getElem?_append_right le_rfl, Nat.sub_self, List.getElem?_cons_zero]
    cases result' with
    | none => exact hoffice
    | some packet =>
        obtain ⟨dest, wire⟩ := packet
        obtain ⟨out, hprepare⟩ := h.prepared a i s hplan
        obtain ⟨s', hpack, heq⟩ := Except.bind_eq_ok.mp hprepare
        cases Option.some.inj (Except.ok.inj heq)
        obtain ⟨-, -, -, hlegal, hletter⟩ := PostOffice.pack_eq_ok hpack
        obtain ⟨rfl, hwire, hsame⟩ := PostOffice.send_eq_ok hsend hlegal
        exact hoffice.transmit hwire (hsame.trans hletter) rfl hpack

/-- **Every step keeps the invariant.** -/
theorem exec (h : st.Inv numBoxes) {act : MailAct ι} (hexec : st.exec numBoxes tid act = some st') :
    st'.Inv numBoxes := by
  cases act with
  | post a act =>
      obtain ⟨post, hpost, rfl⟩ := Option.map_eq_some_iff.mp hexec
      exact h.post hpost
  | poll a =>
      simp only [MailNet.exec] at hexec
      split at hexec
      · rename_i net sock avail hpoll
        cases hexec
        have hoffice := (h.office a).poll hpoll
        refine ⟨fun d => ?_, fun d => ?_, h.posted⟩
        · show OfficeInv numBoxes d (Function.update st.office a _ d)
            (Function.update st.socket a sock d) _
          by_cases hd : d = a
          · subst hd
            rw [Function.update_self, Function.update_self]
            exact hoffice
          · rw [Function.update_of_ne hd, Function.update_of_ne hd]
            exact h.office d
        · show (Function.update st.office a _ d).post.Prepared _
          by_cases hd : d = a
          · subst hd
            rw [Function.update_self]
            exact h.prepared d
          · rw [Function.update_of_ne hd]
            exact h.prepared d
      · cases hexec
  | work a uninit =>
      obtain ⟨o, hwork, rfl⟩ := Option.map_eq_some_iff.mp hexec
      refine h.setOffice ((h.office a).work hwork) fun i s hplan => h.prepared a i s ?_
      rw [← hplan, Office.threads_of_work hwork]
  | receive a box i =>
      obtain ⟨o, hreceive, rfl⟩ := Option.map_eq_some_iff.mp hexec
      refine h.setOffice ((h.office a).receive hreceive) ?_
      obtain ⟨-, hreceive⟩ := Option.ite_none_right_eq_some.mp hreceive
      obtain ⟨list, -, rfl⟩ := Option.map_eq_some_iff.mp hreceive
      exact h.prepared a
  | remove a box i =>
      obtain ⟨o, hremove, rfl⟩ := Option.map_eq_some_iff.mp hexec
      refine h.setOffice ((h.office a).remove hremove) ?_
      obtain ⟨list, -, rfl⟩ := Option.map_eq_some_iff.mp hremove
      split
      · exact h.prepared a
      · exact h.prepared a
  | finish a box i =>
      obtain ⟨o, hfinish, rfl⟩ := Option.map_eq_some_iff.mp hexec
      refine h.setOffice ((h.office a).finish hfinish) ?_
      rw [Office.finish] at hfinish
      split at hfinish
      · cases hfinish
        exact h.prepared a
      · cases hfinish

end Inv

/-- **Mail that is not lost arrives once, intact and in order.** In every run, the mails for a
box that were put on the socket of its machine are, in this order, those that calls of
`Receive` have taken out of the box, those in the box, and those with the postal worker, in the
inbox and on the socket. A mail that was taken is returned by the call that took it, or is with
this call. Each has the headers and the data that were given to `Send`, with the address of the
sender, and no assertion on a header fails. -/
theorem mail_in_order {inHdr : BitVec 32 → PacketHeader} {inbox buffer : BitVec 32 → Mem}
    {steps : List (Step (MailNet ι) (MailAct ι))}
    (hrun : Run numBoxes tid (MailNet.start inHdr inbox buffer) steps st) (a : BitVec 32) :
    (∀ b, Letter.forBox b ((st.posted a).map fun x => Letter.ofSending x.2) =
      ((st.office a).taken b).map (fun x => Letter.ofMail x.2) ++
        ((st.office a).boxes b).list.map Letter.ofMail ++
        Letter.forBox b ((st.office a).transit (st.socket a))) ∧
    (∀ b i, (((st.office a).taken b).filter fun x => x.1 = i).map Prod.snd =
      (((st.office a).returned b).filter fun x => x.1 = i).map Prod.snd ++
        ((st.office a).hand b i).toList) ∧
    (∀ x ∈ st.posted a, x.2.pktHdr.toAddr = a ∧ x.2.pktHdr.fromAddr = x.1 ∧
      ∃ out, PostOffice.pack x.1 numBoxes out = .ok x.2 ∧ x.2.mailHdr = out.mailHdr ∧
        x.2.data = out.data) ∧
    (∃ result, (st.office a).post.device.checkPktAvail (st.socket a) = .ok result) ∧
    ∀ pktHdr uninit, (st.office a).worker = .unpacking pktHdr →
      ∃ result, PostOffice.unpack numBoxes pktHdr (st.office a).buffer uninit = .ok result := by
  have hinv : st.Inv numBoxes := (Trace.invariant_of_forall (I := Inv numBoxes)
    (fun _ hbefore hexec => hbefore.exec hexec) hrun (Inv.start inHdr inbox buffer)).1
  have hoffice := hinv.office a
  refine ⟨fun b => ?_, fun b => (hoffice.boxes b).byThread, fun x hx => ?_, hoffice.exists_poll,
    fun pktHdr uninit hworker => ?_⟩
  · rw [hoffice.account b, (hoffice.boxes b).order, List.map_append, ← (hoffice.boxes b).removed,
      List.map_map]
    rfl
  · obtain ⟨hdest, out, hpack⟩ := hinv.posted a x hx
    obtain ⟨hsender, hmailHdr, hdata, -⟩ := PostOffice.pack_eq_ok hpack
    exact ⟨hdest, hsender, out, hpack, hmailHdr, hdata⟩
  · obtain ⟨mail, hunpack, -⟩ :=
      PostOffice.unpack_of_legal (hoffice.unpacking pktHdr hworker) uninit
    exact ⟨_, hunpack⟩

/-- The machines of the examples, with zeros in their memory. -/
def blank : MailNet (Fin 2) := MailNet.start (fun _ => ⟨0, 0, 0⟩) (fun _ _ => 0) (fun _ _ => 0)

/-- Thread `0` of machine `0` sends one byte to box `0` of machine `1`; it is request `k`. -/
def sendByte (c : UInt8) (k : ℕ) : List (MailAct (Fin 2)) :=
  let step : MailAct (Fin 2) := .post 0 (.step 0 (false, fun _ => 0))
  .post 0 (.call 0 ⟨⟨1, 0, 0⟩, ⟨0, 0, 1⟩, fun _ => c, fun _ => 0⟩) :: List.replicate 6 step ++
    .post 0 (.interrupt k) :: List.replicate 7 step

/-- Machine `1` takes a packet in and puts its mail into the box. -/
def deliver : List (MailAct (Fin 2)) := .poll 1 :: List.replicate 18 (.work 1 fun _ => 0)

/-- Thread `i` of machine `1` takes a mail out of box `0`. -/
def take (i : Fin 2) : List (MailAct (Fin 2)) :=
  .receive 1 0 i :: List.replicate 12 (.remove 1 0 i)

/-- Two mails are sent; one has been received, and the other one is in the inbox. -/
theorem mail_in_order_two : ∃ (st : MailNet (Fin 2)) (steps : List (Step (MailNet (Fin 2))
    (MailAct (Fin 2)))), Run 1 (fun _ => 1) blank steps st ∧
      ((st.office 1).returned 0).map (fun x => (Letter.ofMail x.2).bytes) = [[7]] ∧
      (st.office 1).parked.map (fun l => l.bytes) = [[8]] ∧
      ∀ b, Letter.forBox b ((st.posted 1).map fun x => Letter.ofSending x.2) =
        ((st.office 1).taken b).map (fun x => Letter.ofMail x.2) ++
          ((st.office 1).boxes b).list.map Letter.ofMail ++
          Letter.forBox b ((st.office 1).transit (st.socket 1)) := by
  let labels := sendByte 7 0 ++ sendByte 8 1 ++ deliver ++ take 0 ++ [.finish 1 0 0, .poll 1]
  have hend : (execAll (exec 1 fun _ => 1) blank labels).map (fun st =>
      (((st.office 1).returned 0).map fun x => (Letter.ofMail x.2).bytes,
        (st.office 1).parked.map fun l => l.bytes)) = some ([[7]], [[8]]) := by decide +kernel
  obtain ⟨st, hst, heq⟩ := Option.map_eq_some_iff.mp hend
  obtain ⟨hreturned, hparked⟩ := Prod.mk.inj heq
  have hrun := trace_of_execAll hst
  exact ⟨st, _, hrun, hreturned, hparked, (mail_in_order hrun 1).1⟩

/-- Two threads receive from one box, and the one that took the first mail returns last. -/
theorem not_returned_in_order : ¬ ∀ (numBoxes : ℤ) (tid : Option (Fin 2) → ℤ)
    (inHdr : BitVec 32 → PacketHeader) (inbox buffer : BitVec 32 → Mem) (st : MailNet (Fin 2)) steps,
    Run numBoxes tid (MailNet.start inHdr inbox buffer) steps st → ∀ a b,
      ((st.office a).returned b).map (fun x => Letter.ofMail x.2) <+:
        Letter.forBox b ((st.posted a).map fun x => Letter.ofSending x.2) := by
  intro hclaim
  let labels := sendByte 7 0 ++ sendByte 8 1 ++ deliver ++ deliver ++ take 0 ++ take 1 ++
    [.finish 1 0 1, .finish 1 0 0]
  have hend : (execAll (exec 1 fun _ => 1) blank labels).map (fun st =>
      ((((st.office 1).returned 0).map fun x => Letter.ofMail x.2).map fun l => l.bytes,
        (Letter.forBox 0 ((st.posted 1).map fun x => Letter.ofSending x.2)).map fun l => l.bytes)) =
      some ([[8], [7]], [[7], [8]]) := by decide +kernel
  obtain ⟨st, hst, heq⟩ := Option.map_eq_some_iff.mp hend
  obtain ⟨hreturned, hposted⟩ := Prod.mk.inj heq
  have hfront := (hclaim 1 (fun _ => 1) _ _ _ st _ (trace_of_execAll hst) 1 0).map fun l => l.bytes
  rw [hreturned, hposted] at hfront
  exact absurd hfront (by decide)

end MailNet

end Nachos
