/-
# Packets and boxes

The two ends of the way of a mail. A mail that `Send` packs and the network puts on the wire is
the mail that the postal worker unpacks: both headers and the bytes of the data come back, and
the assertions on the way hold. A box gives its mails out in the order in which the worker has
put them in, each to one thread.
-/

import Nachos.Network.Delivery

namespace Nachos

open Base Synch

/-! ## Packets -/

namespace Letter

theorem front_congr {m m' : Mem} {n : ℕ} (h : ∀ k < n, m k = m' k) : front m n = front m' n :=
  List.map_congr_left fun k hk => h k (List.mem_range.mp hk)

end Letter

/-- The packet is one that machine `a` can take in: it is for this machine, and the mail in it
has a box and is as long as the packet says. -/
structure Legal (numBoxes : ℤ) (a : BitVec 32) (pktHdr : PacketHeader) (buffer : Mem) : Prop where
  dest : pktHdr.toAddr = a
  length : pktHdr.length.toNat = HeaderSize + (Header.load buffer).length.toNat
  short : (Header.load buffer).length.toNat ≤ MaxMailSize
  box : 0 ≤ (Header.load buffer).toAddr.toInt ∧ (Header.load buffer).toAddr.toInt < numBoxes

namespace Legal

variable {numBoxes : ℤ} {a : BitVec 32} {pktHdr : PacketHeader} {buffer buffer' : Mem}

/-- The mail header is in the packet. -/
theorem load_congr (h : Legal numBoxes a pktHdr buffer)
    (hsame : ∀ k < pktHdr.length.toNat, buffer' k = buffer k) :
    Header.load buffer' = Header.load buffer := by
  have hlength := h.length
  rw [HeaderSize] at hlength
  exact Header.load_congr fun k hk => hsame k (by omega)

/-- A copy of the packet says the same. -/
theorem ofPacket_congr (h : Legal numBoxes a pktHdr buffer)
    (hsame : ∀ k < pktHdr.length.toNat, buffer' k = buffer k) :
    Letter.ofPacket pktHdr buffer' = Letter.ofPacket pktHdr buffer := by
  have hlength := h.length
  rw [HeaderSize] at hlength
  rw [Letter.ofPacket, Letter.ofPacket, h.load_congr hsame, Letter.front_congr fun k hk => ?_]
  rw [Mem.shift_apply, Mem.shift_apply]
  exact hsame (HeaderSize + k) (by rw [HeaderSize]; omega)

/-- A copy of the packet is one that the machine can take in. -/
theorem congr (h : Legal numBoxes a pktHdr buffer)
    (hsame : ∀ k < pktHdr.length.toNat, buffer' k = buffer k) :
    Legal numBoxes a pktHdr buffer' := by
  have hload := h.load_congr hsame
  exact ⟨h.dest, by rw [hload]; exact h.length, by rw [hload]; exact h.short,
    by rw [hload]; exact h.box⟩

/-- The length of the packet is not zero, and fits. -/
theorem length_ne_zero (h : Legal numBoxes a pktHdr buffer) : pktHdr.length ≠ 0 := by
  intro hzero
  have hlength := h.length
  rw [hzero, HeaderSize, show (0 : BitVec 32).toNat = 0 from rfl] at hlength
  omega

theorem length_le (h : Legal numBoxes a pktHdr buffer) : pktHdr.length.toNat ≤ MaxPacketSize := by
  have hlength := h.length
  have hshort := h.short
  rw [MaxMailSize] at hshort
  have hsize : HeaderSize ≤ MaxPacketSize := by decide
  omega

end Legal

namespace PostOffice

variable {numBoxes : ℤ} {a : BitVec 32}

/-- What `Send` packs is the mail that it was given, in a packet that can be taken in. -/
theorem pack_eq_ok {out : Outgoing} {s : Sending} (h : pack a numBoxes out = .ok s) :
    s.pktHdr.fromAddr = a ∧ s.mailHdr = out.mailHdr ∧ s.data = out.data ∧
      Legal numBoxes s.pktHdr.toAddr s.pktHdr s.buffer ∧
      Letter.ofPacket s.pktHdr s.buffer = Letter.ofSending s := by
  obtain ⟨_, hshort, h⟩ := Except.bind_eq_ok.mp h
  obtain ⟨_, hbox, h⟩ := Except.bind_eq_ok.mp h
  cases h
  have hshort := assert_eq_ok.mp hshort
  have hbox := assert_eq_ok.mp hbox
  have hload := Header.load_copy out.mailHdr out.uninit out.data out.mailHdr.length.toNat
  refine ⟨rfl, rfl, rfl, ⟨rfl, ?_, by rw [hload]; exact hshort, by rw [hload]; exact hbox⟩, ?_⟩
  · have hsmall : out.mailHdr.length.toNat ≤ 40 := hshort
    rw [hload]
    show (out.mailHdr.length + BitVec.ofNat 32 HeaderSize).toNat = _
    rw [BitVec.toNat_add, HeaderSize, BitVec.toNat_ofNat, Nat.mod_eq_of_lt (by omega)]
    omega
  · rw [Letter.ofPacket, Letter.ofSending, hload, Letter.front_congr fun k hk => ?_]
    show (out.mailHdr.store out.uninit).copy HeaderSize out.data 0 out.mailHdr.length.toNat
      (HeaderSize + k) = out.data k
    rw [Mem.copy_of_mem _ _ (by omega), Nat.add_sub_cancel_left, Nat.add_zero]

/-- A packet on the wire says what was packed. -/
theorem send_eq_ok {net : Network} {lost : Bool} {uninit wire : Mem} {hdr : PacketHeader}
    {data : Mem} {dest : BitVec 32} (h : net.send lost uninit hdr data = .ok (some (dest, wire)))
    (hlegal : Legal numBoxes a hdr data) :
    dest = hdr.toAddr ∧ Legal numBoxes a (Header.load wire) (wire.shift HeaderSize) ∧
      Letter.ofWire wire = Letter.ofPacket hdr data := by
  obtain ⟨-, -, h⟩ := Except.bind_eq_ok.mp h
  split at h
  · cases h
  · cases h
    have hload := Header.load_copy hdr uninit data hdr.length.toNat
    have hsame : ∀ k < hdr.length.toNat,
        ((hdr.store uninit).copy HeaderSize data 0 hdr.length.toNat).shift HeaderSize k = data k := by
      intro k hk
      rw [Mem.shift_apply, Mem.copy_of_mem _ _ (by omega), Nat.add_sub_cancel_left, Nat.add_zero]
    refine ⟨rfl, ?_, ?_⟩
    · rw [hload]
      exact hlegal.congr hsame
    · rw [Letter.ofWire, hload]
      exact hlegal.ofPacket_congr hsame

/-- A packet that can be taken in is unpacked, and its mail says what the packet says. -/
theorem unpack_of_legal {pktHdr : PacketHeader} {buffer : Mem}
    (h : Legal numBoxes a pktHdr buffer) (uninit : Mem) : ∃ mail,
      unpack numBoxes pktHdr buffer uninit = .ok ((Letter.ofPacket pktHdr buffer).box, mail) ∧
      Letter.ofMail mail = Letter.ofPacket pktHdr buffer := by
  set mailHdr := Header.load buffer with hmailHdr
  set data := uninit.copy 0 (buffer.shift HeaderSize) 0 mailHdr.length.toNat with hdata
  refine ⟨⟨pktHdr, mailHdr, data⟩, ?_, ?_⟩
  · rw [unpack, ← hmailHdr, assert_of h.box, Except.ok_bind, assert_of h.short, Except.ok_bind,
      Mail.new, assert_of h.short]
    rfl
  · rw [Letter.ofMail, Letter.ofPacket, Letter.front_congr fun k hk => ?_]
    have hk : k < mailHdr.length.toNat := hk
    show data k = buffer.shift HeaderSize k
    rw [hdata, Mem.copy_of_mem _ _ (by omega)]
    rfl

end PostOffice

/-! ## A box -/

section Boxes

variable {ι : Type} [DecidableEq ι]

/-- What holds of a box. Only the postal worker puts mails into it, and each thread that has
taken one has it in its hand until it returns. -/
structure BoxInv (b : ℕ) (list : ListRun (Option ι) Mail) (hand : ι → Option Mail)
    (taken returned : List (ι × Mail)) : Prop where
  putting : ∀ mail, (list.threads none).pc.appending = some mail → (Letter.ofMail mail).box = b
  putter : (list.threads none).pc.removing = false
  getters : ∀ i, (list.threads (some i)).pc.appending = none
  order : list.appended = list.removed ++ list.list
  removed : taken.map Prod.snd = list.removed
  byThread : ∀ i, (taken.filter fun x => x.1 = i).map Prod.snd =
    (returned.filter fun x => x.1 = i).map Prod.snd ++ (hand i).toList
  empty : ∀ i, (list.threads (some i)).pc.removing = true → hand i = none

namespace BoxInv

variable {b : ℕ} {list list' : ListRun (Option ι) Mail} {hand : ι → Option Mail}
  {taken returned : List (ι × Mail)} {tid : Option ι → ℤ} {i : ι}

theorem start : BoxInv b (ListRun.start : ListRun (Option ι) Mail) (fun _ => none) [] [] where
  putting _ hmail := by cases hmail
  putter := rfl
  getters _ := rfl
  order := rfl
  removed := rfl
  byThread _ := rfl
  empty _ _ := rfl

/-- The place of a thread that makes a call, and of the others. -/
theorem goto_cases (list : ListRun (Option ι) Mail) (i : Option ι) (pc : ListPc Mail) :
    ((list.goto i pc).threads i).pc = pc ∧
      ∀ j, j ≠ i → (list.goto i pc).threads j = list.threads j :=
  ⟨congrArg ListThread.pc (ListRun.put_self _), fun _ hj => Function.update_of_ne hj _ _⟩

/-- The postal worker calls `Append`. -/
theorem callAppend (h : BoxInv b list hand taken returned) {mail : Mail}
    (hmail : (Letter.ofMail mail).box = b) :
    BoxInv b (list.goto none (.acquire (.append mail))) hand taken returned := by
  obtain ⟨hself, hothers⟩ := goto_cases list none (.acquire (.append mail))
  refine ⟨fun mail' hmail' => ?_, by rw [hself]; rfl, fun i => ?_, h.order, h.removed, h.byThread,
    fun i hi => h.empty i ?_⟩
  · rw [hself] at hmail'
    cases hmail'
    exact hmail
  · rw [hothers (some i) nofun]
    exact h.getters i
  · rw [hothers (some i) nofun] at hi
    exact hi

/-- The postal worker goes on in the box. -/
theorem stepPutter (h : BoxInv b list hand taken returned)
    (hexec : list.exec tid (none, .step) = some list') : BoxInv b list' hand taken returned := by
  obtain ⟨heffect, hothers⟩ := ListRun.effect_of_exec hexec
  have hthread (j : ι) : list'.threads (some j) = list.threads (some j) := hothers (some j) nofun
  have hgetters (j : ι) : (list'.threads (some j)).pc.appending = none := by
    rw [hthread j]
    exact h.getters j
  have hempty (j : ι) (hj : (list'.threads (some j)).pc.removing = true) : hand j = none := by
    rw [hthread j] at hj
    exact h.empty j hj
  cases heffect with
  | none hlist happended hremoved happending hremoving =>
      refine ⟨?_, ?_, hgetters, by rw [happended, hremoved, hlist]; exact h.order,
        by rw [hremoved]; exact h.removed, h.byThread, hempty⟩
      · rw [happending]
        exact h.putting
      · by_contra hnot
        have hold := hremoving (Bool.not_eq_false _ ▸ hnot)
        rw [h.putter] at hold
        cases hold
  | insert item happending hdone hremoving hlist happended hremoved =>
      refine ⟨?_, hremoving, hgetters, ?_, by rw [hremoved]; exact h.removed, h.byThread, hempty⟩
      · rw [hdone]
        nofun
      · rw [happended, hremoved, hlist, h.order, List.append_assoc]
  | take item _ _ hremoving =>
      rw [h.putter] at hremoving
      cases hremoving

/-- A thread calls `Remove`. -/
theorem callRemove (h : BoxInv b list hand taken returned) (hi : hand i = none) :
    BoxInv b (list.goto (some i) (.acquire .remove)) hand taken returned := by
  obtain ⟨hself, hothers⟩ := goto_cases list (some i) (.acquire .remove)
  have hnone := hothers none nofun
  refine ⟨?_, ?_, fun j => ?_, h.order, h.removed, h.byThread, fun j hj => ?_⟩
  · rw [hnone]
    exact h.putting
  · rw [hnone]
    exact h.putter
  · by_cases hji : j = i
    · rw [hji, hself]
      rfl
    · rw [hothers (some j) (fun heq => hji (Option.some.inj heq))]
      exact h.getters j
  · by_cases hji : j = i
    · rw [hji]
      exact hi
    · rw [hothers (some j) (fun heq => hji (Option.some.inj heq))] at hj
      exact h.empty j hj

/-- What a step of a getter does to the box: nothing, or it takes the first mail. -/
theorem stepGetter (h : BoxInv b list hand taken returned)
    (hexec : list.exec tid (some i, .step) = some list') :
    list'.appended = list.appended ∧ list'.threads none = list.threads none ∧
      ((list'.removed = list.removed ∧ BoxInv b list' hand taken returned) ∨
        ∃ mail, list'.removed = list.removed ++ [mail] ∧
          BoxInv b list' (Function.update hand i (some mail)) (taken ++ [(i, mail)]) returned) := by
  obtain ⟨heffect, hothers⟩ := ListRun.effect_of_exec hexec
  have hnone : list'.threads none = list.threads none := hothers none nofun
  have hother {j : ι} (hj : j ≠ i) : list'.threads (some j) = list.threads (some j) :=
    hothers (some j) fun heq => hj (Option.some.inj heq)
  have hputting : ∀ mail, (list'.threads none).pc.appending = some mail →
      (Letter.ofMail mail).box = b := by
    rw [hnone]
    exact h.putting
  have hputter : (list'.threads none).pc.removing = false := by
    rw [hnone]
    exact h.putter
  have hgetters (hi : (list'.threads (some i)).pc.appending = none) (j : ι) :
      (list'.threads (some j)).pc.appending = none := by
    by_cases hj : j = i
    · rw [hj]
      exact hi
    · rw [hother hj]
      exact h.getters j
  cases heffect with
  | none hlist happended hremoved happending hremoving =>
      refine ⟨happended, hnone, .inl ⟨hremoved, hputting, hputter, hgetters ?_, ?_, ?_, h.byThread,
        fun j hj => h.empty j ?_⟩⟩
      · rw [happending]
        exact h.getters i
      · rw [happended, hremoved, hlist]
        exact h.order
      · rw [hremoved]
        exact h.removed
      · by_cases hji : j = i
        · rw [hji] at hj ⊢
          exact hremoving hj
        · rw [hother hji] at hj
          exact hj
  | insert item happending =>
      rw [h.getters i] at happending
      cases happending
  | take mail _ hdone hremoving hgone hlist happended hremoved =>
      have hempty := h.empty i hremoving
      refine ⟨happended, hnone, .inr ⟨mail, hremoved, hputting, hputter, hgetters hdone, ?_, ?_,
        fun j => ?_, fun j hj => ?_⟩⟩
      · rw [happended, hremoved, h.order, hlist, List.append_assoc]
        rfl
      · rw [hremoved, List.map_append, h.removed]
        rfl
      · rw [List.filter_append, List.map_append, h.byThread j, List.append_assoc]
        by_cases hji : j = i
        · rw [hji, hempty, Function.update_self]
          simp
        · rw [Function.update_of_ne hji]
          simp [Ne.symm hji]
      · by_cases hji : j = i
        · rw [hji, hgone] at hj
          cases hj
        · rw [hother hji] at hj
          rw [Function.update_of_ne hji]
          exact h.empty j hj

/-- A thread returns with the mail in its hand. -/
theorem finish (h : BoxInv b list hand taken returned) {mail : Mail} (hi : hand i = some mail) :
    BoxInv b list (Function.update hand i none) taken (returned ++ [(i, mail)]) := by
  refine ⟨h.putting, h.putter, h.getters, h.order, h.removed, fun j => ?_, fun j hj => ?_⟩
  · rw [h.byThread j, List.filter_append, List.map_append, List.append_assoc]
    by_cases hji : j = i
    · rw [hji, hi, Function.update_self]
      simp
    · rw [Function.update_of_ne hji]
      simp [Ne.symm hji]
  · by_cases hji : j = i
    · rw [hji, Function.update_self]
    · rw [Function.update_of_ne hji]
      exact h.empty j hj

end BoxInv

end Boxes

end Nachos
