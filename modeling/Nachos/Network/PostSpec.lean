/-
# What the post offices do

The post offices as their users see them. A thread comes with a letter to `Send`; later the
letter is put on its way to the box it is for, or is lost; it arrives after the letters that were
put on the way to the same box before it; and a thread in `Receive` takes the first letter that
has arrived and was not taken. Locks, interrupts, buffers and sockets are not seen.

The machines of `MailNet` do this: each of their steps is a step here, or is not seen.
-/

import Nachos.Network.MailOrder

namespace Nachos

open Base Synch

variable {ι : Type}

/-- A machine. -/
@[ext]
structure OfficeSpec (ι : Type) where
  /-- The letter of a thread in `Send`, as long as it is not on its way. -/
  sending : ι → Option Letter
  /-- How many letters have arrived in a box, and how many were taken out of it. -/
  arrived : ℕ → ℕ
  taken : ℕ → ℕ
  /-- The letter that a thread in `Receive` has taken. -/
  hand : ℕ → ι → Option Letter

/-- All machines. -/
structure PostSpec (ι : Type) where
  office : BitVec 32 → OfficeSpec ι
  /-- The letters that were put on the way to a box. -/
  letters : BitVec 32 → ℕ → List Letter

/-- What can be seen to happen on machine `a`. -/
inductive PostEvent (ι : Type)
  /-- A thread comes to `Send`, and its letter is put on its way or lost. -/
  | come (a : BitVec 32) (i : ι) (l : Letter)
  | request (a : BitVec 32) (i : ι) (lost : Bool)
  /-- A letter arrives. -/
  | arrive (a : BitVec 32) (b : ℕ)
  /-- A thread takes a letter, and returns from `Receive`. -/
  | take (a : BitVec 32) (b : ℕ) (i : ι)
  | finish (a : BitVec 32) (b : ℕ) (i : ι)

namespace PostSpec

/-- One office is replaced. -/
def setOffice (st : PostSpec ι) (a : BitVec 32) (o : OfficeSpec ι) : PostSpec ι :=
  { st with office := Function.update st.office a o }

/-- A letter is put on its way. -/
def dispatch (st : PostSpec ι) (l : Letter) : PostSpec ι :=
  let dest := l.pktHdr.toAddr
  { st with
    letters := Function.update st.letters dest
      (Function.update (st.letters dest) l.box (st.letters dest l.box ++ [l])) }

variable [DecidableEq ι]

/-- One step. -/
def exec (st : PostSpec ι) : PostEvent ι → Option (PostSpec ι)
  | .come a i l =>
      if (st.office a).sending i = none then
        some (st.setOffice a { st.office a with
          sending := Function.update (st.office a).sending i (some l) })
      else none
  | .request a i lost =>
      ((st.office a).sending i).map fun l =>
        let st' := st.setOffice a { st.office a with
          sending := Function.update (st.office a).sending i none }
        if lost then st' else st'.dispatch l
  | .arrive a b =>
      if (st.office a).arrived b < (st.letters a b).length then
        some (st.setOffice a { st.office a with
          arrived := Function.update (st.office a).arrived b ((st.office a).arrived b + 1) })
      else none
  | .take a b i =>
      if (st.office a).taken b < (st.office a).arrived b then
        ((st.letters a b)[(st.office a).taken b]?).map fun l =>
          st.setOffice a { st.office a with
            taken := Function.update (st.office a).taken b ((st.office a).taken b + 1)
            hand := Function.update (st.office a).hand b
              (Function.update ((st.office a).hand b) i (some l)) }
      else none
  | .finish a b i =>
      ((st.office a).hand b i).map fun _ =>
        st.setOffice a { st.office a with
          hand := Function.update (st.office a).hand b
            (Function.update ((st.office a).hand b) i none) }

/-! ## What each step changes -/

variable {st st' : PostSpec ι} {a : BitVec 32} {b : ℕ} {i : ι}

private theorem update_update {α β γ : Type} [DecidableEq α] [DecidableEq β] (f : α → β → γ) (a : α)
    (b : β) (v : γ) (d : α) (c : β) :
    Function.update f a (Function.update (f a) b v) d c = if d = a ∧ c = b then v else f d c := by
  by_cases hd : d = a
  · subst hd
    simp [Function.update_apply]
  · simp [hd]

omit [DecidableEq ι] in
/-- A field of the offices, when one office is replaced. -/
private theorem field_setOffice {β : Type} (f : OfficeSpec ι → β) (a : BitVec 32) (o : OfficeSpec ι)
    (d : BitVec 32) :
    f ((st.setOffice a o).office d) = Function.update (fun d => f (st.office d)) a (f o) d :=
  Function.apply_update (fun _ => f) st.office a o d

omit [DecidableEq ι] in
/-- A field that the new office has as before. -/
private theorem field_same {β : Type} (f : OfficeSpec ι → β) {o : OfficeSpec ι} (d : BitVec 32)
    (ho : f o = f (st.office a)) : f ((st.setOffice a o).office d) = f (st.office d) := by
  rw [field_setOffice f a, ho]
  exact congrFun (Function.update_eq_self a fun d => f (st.office d)) d

/-- The hand of one thread is replaced. -/
private theorem hand_update (st : PostSpec ι) (a : BitVec 32) (b : ℕ) (i : ι) (v : Option Letter)
    (d : BitVec 32) (c : ℕ) (j : ι) :
    Function.update (fun d => (st.office d).hand) a (Function.update (st.office a).hand b
      (Function.update ((st.office a).hand b) i v)) d c j =
        if d = a ∧ c = b ∧ j = i then v else (st.office d).hand c j := by
  rw [update_update (fun d => (st.office d).hand)]
  by_cases hdc : d = a ∧ c = b
  · rw [if_pos hdc, hdc.1, hdc.2, Function.update_apply]
    simp
  · rw [if_neg hdc, if_neg fun hall => hdc ⟨hall.1, hall.2.1⟩]

/-- A thread has come to `Send`. -/
theorem come_cases {l : Letter} (h : st.exec (.come a i l) = some st') :
    (st.office a).sending i = none ∧ st'.letters = st.letters ∧
      (∀ d, (st'.office d).arrived = (st.office d).arrived ∧
        (st'.office d).taken = (st.office d).taken ∧ (st'.office d).hand = (st.office d).hand) ∧
      ∀ d j, (st'.office d).sending j =
        if d = a ∧ j = i then some l else (st.office d).sending j := by
  obtain ⟨hnone, h⟩ := Option.ite_none_right_eq_some.mp h
  cases h
  refine ⟨hnone, rfl, fun d => ⟨field_same OfficeSpec.arrived d ?_, field_same OfficeSpec.taken d ?_,
    field_same OfficeSpec.hand d ?_⟩, fun d j => ?_⟩
  · rfl
  · rfl
  · rfl
  · rw [field_setOffice OfficeSpec.sending a]
    exact update_update (fun d => (st.office d).sending) a i (some l) d j

/-- A letter is on its way, or lost. -/
theorem request_cases {lost : Bool} (h : st.exec (.request a i lost) = some st') :
    ∃ l, (st.office a).sending i = some l ∧
      (∀ d, (st'.office d).arrived = (st.office d).arrived ∧
        (st'.office d).taken = (st.office d).taken ∧ (st'.office d).hand = (st.office d).hand) ∧
      (∀ d j, (st'.office d).sending j =
        if d = a ∧ j = i then none else (st.office d).sending j) ∧
      ∀ d c, st'.letters d c = if lost = false ∧ d = l.pktHdr.toAddr ∧ c = l.box then
        st.letters d c ++ [l] else st.letters d c := by
  obtain ⟨l, hsome, rfl⟩ := Option.map_eq_some_iff.mp h
  set st₁ := st.setOffice a { st.office a with
    sending := Function.update (st.office a).sending i none } with hst₁
  have hoffice : (if lost then st₁ else st₁.dispatch l).office = st₁.office := by
    cases lost <;> rfl
  refine ⟨l, hsome, fun d => ?_, fun d j => ?_, fun d c => ?_⟩
  · rw [hoffice]
    refine ⟨field_same OfficeSpec.arrived d ?_, field_same OfficeSpec.taken d ?_,
      field_same OfficeSpec.hand d ?_⟩
    · rfl
    · rfl
    · rfl
  · rw [hoffice, hst₁, field_setOffice OfficeSpec.sending a]
    exact update_update (fun d => (st.office d).sending) a i none d j
  · cases lost with
    | true => rfl
    | false =>
        refine (update_update st.letters l.pktHdr.toAddr l.box _ d c).trans ?_
        simp only [true_and]
        split
        · next hdc =>
            rw [hdc.1, hdc.2]
            rfl
        · rfl

/-- A letter has arrived. -/
theorem arrive_cases (h : st.exec (.arrive a b) = some st') :
    (st.office a).arrived b < (st.letters a b).length ∧ st'.letters = st.letters ∧
      (∀ d, (st'.office d).sending = (st.office d).sending ∧
        (st'.office d).taken = (st.office d).taken ∧ (st'.office d).hand = (st.office d).hand) ∧
      ∀ d c, (st'.office d).arrived c =
        if d = a ∧ c = b then (st.office a).arrived b + 1 else (st.office d).arrived c := by
  obtain ⟨hless, h⟩ := Option.ite_none_right_eq_some.mp h
  cases h
  refine ⟨hless, rfl, fun d => ⟨field_same OfficeSpec.sending d ?_, field_same OfficeSpec.taken d ?_,
    field_same OfficeSpec.hand d ?_⟩, fun d c => ?_⟩
  · rfl
  · rfl
  · rfl
  · rw [field_setOffice OfficeSpec.arrived a]
    exact update_update (fun d => (st.office d).arrived) a b _ d c

/-- A letter was taken. -/
theorem take_cases (h : st.exec (.take a b i) = some st') :
    ∃ l, (st.office a).taken b < (st.office a).arrived b ∧
      (st.letters a b)[(st.office a).taken b]? = some l ∧ st'.letters = st.letters ∧
      (∀ d, (st'.office d).sending = (st.office d).sending ∧
        (st'.office d).arrived = (st.office d).arrived) ∧
      (∀ d c, (st'.office d).taken c =
        if d = a ∧ c = b then (st.office a).taken b + 1 else (st.office d).taken c) ∧
      ∀ d c j, (st'.office d).hand c j =
        if d = a ∧ c = b ∧ j = i then some l else (st.office d).hand c j := by
  obtain ⟨hless, h⟩ := Option.ite_none_right_eq_some.mp h
  obtain ⟨l, hl, rfl⟩ := Option.map_eq_some_iff.mp h
  refine ⟨l, hless, hl, rfl, fun d => ⟨field_same OfficeSpec.sending d ?_,
    field_same OfficeSpec.arrived d ?_⟩, fun d c => ?_, fun d c j => ?_⟩
  · rfl
  · rfl
  · rw [field_setOffice OfficeSpec.taken a]
    exact update_update (fun d => (st.office d).taken) a b _ d c
  · rw [field_setOffice OfficeSpec.hand a]
    exact hand_update st a b i (some l) d c j

/-- A thread has returned from `Receive`. -/
theorem finish_cases (h : st.exec (.finish a b i) = some st') :
    ∃ l, (st.office a).hand b i = some l ∧ st'.letters = st.letters ∧
      (∀ d, (st'.office d).sending = (st.office d).sending ∧
        (st'.office d).arrived = (st.office d).arrived ∧
        (st'.office d).taken = (st.office d).taken) ∧
      ∀ d c j, (st'.office d).hand c j =
        if d = a ∧ c = b ∧ j = i then none else (st.office d).hand c j := by
  obtain ⟨l, hl, rfl⟩ := Option.map_eq_some_iff.mp h
  refine ⟨l, hl, rfl, fun d => ⟨field_same OfficeSpec.sending d ?_, field_same OfficeSpec.arrived d ?_,
    field_same OfficeSpec.taken d ?_⟩, fun d c j => ?_⟩
  · rfl
  · rfl
  · rfl
  · rw [field_setOffice OfficeSpec.hand a]
    exact hand_update st a b i none d c j

end PostSpec

/-- What is seen of an office. -/
def Office.spec (o : Office ι) : OfficeSpec ι where
  sending i := (o.post.threads i).plan.map Letter.ofSending
  arrived b := (o.boxes b).appended.length
  taken b := (o.boxes b).removed.length
  hand b i := (o.hand b i).map Letter.ofMail

namespace Office

/-- What is seen of an office when a box is replaced. -/
theorem spec_setBox (o : Office ι) (box : ℕ) (list : ListRun (Option ι) Mail) :
    (o.setBox box list).spec = { o.spec with
      arrived := Function.update o.spec.arrived box list.appended.length
      taken := Function.update o.spec.taken box list.removed.length } :=
  OfficeSpec.ext rfl
    (funext fun b => Function.apply_update (fun _ (l : ListRun (Option ι) Mail) => l.appended.length)
      o.boxes box list b)
    (funext fun b => Function.apply_update (fun _ (l : ListRun (Option ι) Mail) => l.removed.length)
      o.boxes box list b) rfl

/-- A box in which no letter has arrived and of which none was taken. -/
theorem spec_setBox_same (o : Office ι) (box : ℕ) (list : ListRun (Option ι) Mail)
    (happended : list.appended = (o.boxes box).appended)
    (hremoved : list.removed = (o.boxes box).removed) : (o.setBox box list).spec = o.spec := by
  rw [spec_setBox, happended, hremoved]
  exact OfficeSpec.ext rfl (Function.update_eq_self box o.spec.arrived)
    (Function.update_eq_self box o.spec.taken) rfl

/-- What is seen of a hand that is replaced. -/
theorem spec_hand [DecidableEq ι] (o : Office ι) (box : ℕ) (i : ι) (mail : Option Mail)
    (taken returned : ℕ → List (ι × Mail)) :
    ({ o with
      hand := Function.update o.hand box (Function.update (o.hand box) i mail)
      taken := taken
      returned := returned } : Office ι).spec = { o.spec with
        hand := Function.update o.spec.hand box
          (Function.update (o.spec.hand box) i (mail.map Letter.ofMail)) } := by
  refine OfficeSpec.ext rfl rfl rfl (funext fun b => funext fun j => ?_)
  show (Function.update o.hand box _ b j).map Letter.ofMail =
    Function.update o.spec.hand box _ b j
  by_cases hb : b = box
  · subst hb
    rw [Function.update_self, Function.update_self]
    exact Function.apply_update (fun _ => Option.map Letter.ofMail) (o.hand b) i mail j
  · rw [Function.update_of_ne hb, Function.update_of_ne hb]
    rfl

/-- What is seen of a step of the postal worker: nothing, or a letter arrives. -/
theorem spec_of_work [DecidableEq ι] {numBoxes : ℤ} {tid : Option ι → ℤ} {o o' : Office ι}
    {uninit : Mem} (hputter : ∀ b, ((o.boxes b).threads none).pc.removing = false)
    (h : o.work numBoxes tid uninit = some o') :
    o'.spec = o.spec ∨ ∃ b, o'.spec = { o.spec with
      arrived := Function.update o.spec.arrived b (o.spec.arrived b + 1) } := by
  rw [work] at h
  split at h
  · obtain ⟨units, -, rfl⟩ := Option.map_eq_some_iff.mp h
    exact .inl rfl
  · cases h
    exact .inl rfl
  · split at h
    · rename_i box mail _
      obtain ⟨list, hlist, rfl⟩ := Option.map_eq_some_iff.mp h
      obtain ⟨-, rfl⟩ := ListRun.call_of_exec hlist
      exact .inl (spec_setBox_same o box ((o.boxes box).goto none (.acquire (.append mail))) rfl rfl)
    · cases h
  · rename_i box _
    obtain ⟨list, hlist, rfl⟩ := Option.map_eq_some_iff.mp h
    cases (ListRun.effect_of_exec hlist).1 with
    | none _ happended hremoved => exact .inl (spec_setBox_same o box list happended hremoved)
    | insert item _ _ _ _ happended hremoved =>
        refine .inr ⟨box, (spec_setBox o box list).trans ?_⟩
        rw [happended, hremoved, List.length_append]
        exact OfficeSpec.ext rfl rfl (Function.update_eq_self box o.spec.taken) rfl
    | take item _ _ hremoving =>
        rw [hputter box] at hremoving
        cases hremoving

end Office

namespace MailNet

/-- What is seen of the machines. -/
def spec (st : MailNet ι) : PostSpec ι where
  office a := (st.office a).spec
  letters a b := Letter.forBox b ((st.posted a).map fun x => Letter.ofSending x.2)

variable {numBoxes : ℤ} {tid : Option ι → ℤ} {st st' : MailNet ι} {a : BitVec 32}

theorem spec_setOffice (o : Office ι) : (st.setOffice a o).spec = st.spec.setOffice a o.spec := by
  have hoffice : (st.setOffice a o).spec.office = Function.update st.spec.office a o.spec := by
    funext d
    exact Function.apply_update (fun _ => Office.spec) st.office a o d
  exact congrArg (fun office => (⟨office, st.spec.letters⟩ : PostSpec ι)) hoffice

/-- What is seen of an office that is replaced by one that looks the same. -/
theorem spec_setOffice_same {o : Office ι} (h : o.spec = (st.office a).spec) :
    (st.setOffice a o).spec = st.spec := by
  rw [spec_setOffice, h]
  exact congrArg (fun office => (⟨office, st.spec.letters⟩ : PostSpec ι)) (Function.update_eq_self a _)

theorem spec_transmit {dest : BitVec 32} {s : Sending} (wire : Mem) (hdest : s.pktHdr.toAddr = dest) :
    (st.transmit a dest s wire).spec = st.spec.dispatch (Letter.ofSending s) := by
  subst hdest
  refine congrArg (fun letters => (⟨st.spec.office, letters⟩ : PostSpec ι)) ?_
  funext d b
  show Letter.forBox b ((Function.update st.posted _ _ d).map _) = _
  have hdest : (Letter.ofSending s).pktHdr.toAddr = s.pktHdr.toAddr := rfl
  rw [hdest]
  by_cases hd : d = s.pktHdr.toAddr
  · subst hd
    rw [Function.update_self, Function.update_self, List.map_append, Letter.forBox,
      List.filter_append]
    by_cases hb : b = (Letter.ofSending s).box
    · subst hb
      rw [Function.update_self]
      simp [spec, Letter.forBox]
    · rw [Function.update_of_ne hb]
      simp [spec, Letter.forBox, Ne.symm hb]
  · rw [Function.update_of_ne hd, Function.update_of_ne hd]
    rfl

/-- A step of the sending side that makes no request. -/
theorem sent_of_requests {post : DeviceRun ι Sending Network (Option (BitVec 32 × Mem))}
    (h : post.requests = (st.office a).post.requests) :
    st.sent a post = st.setOffice a { st.office a with post := post } := by
  rw [sent, h, List.getElem?_eq_none le_rfl]

variable [DecidableEq ι]

/-- Letters are taken after they have arrived, and arrive after they were sent. -/
theorem Inv.counts (h : st.Inv numBoxes) (a : BitVec 32) (b : ℕ) :
    (st.spec.office a).taken b ≤ (st.spec.office a).arrived b ∧
      (st.spec.office a).arrived b ≤ (st.spec.letters a b).length := by
  constructor
  · show ((st.office a).boxes b).removed.length ≤ ((st.office a).boxes b).appended.length
    rw [((h.office a).boxes b).order, List.length_append]
    omega
  · show ((st.office a).boxes b).appended.length ≤ (Letter.forBox b _).length
    rw [(h.office a).account b, List.length_append, List.length_map]
    omega

/-- The letters for a box that were not taken: those in it, and those on their way. -/
def waiting (st : MailNet ι) (a : BitVec 32) (b : ℕ) : List Letter :=
  ((st.office a).boxes b).list.map Letter.ofMail ++
    Letter.forBox b ((st.office a).transit (st.socket a))

/-- The letters that are waiting are those that were sent and not taken. -/
theorem Inv.waiting_eq (h : st.Inv numBoxes) (a : BitVec 32) (b : ℕ) :
    st.waiting a b = (st.spec.letters a b).drop ((st.spec.office a).taken b) := by
  show _ = (Letter.forBox b _).drop ((st.office a).boxes b).removed.length
  rw [(h.office a).account b, ((h.office a).boxes b).order, List.map_append, List.append_assoc,
    List.drop_left' (List.length_map _)]
  rfl

/-- What is seen of the sending side when thread `i` goes on to `pc`. -/
theorem spec_goto (o : Office ι) (i : ι) (pc : DevicePc Sending)
    (post : DeviceRun ι Sending Network (Option (BitVec 32 × Mem)))
    (hpost : post.threads = (o.post.goto i pc).threads) :
    ({ o with post := post } : Office ι).spec = { o.spec with
      sending := Function.update o.spec.sending i
        ((⟨(o.post.threads i).lock, pc⟩ : DeviceThread Sending).plan.map Letter.ofSending) } := by
  refine OfficeSpec.ext (funext fun j => ?_) rfl rfl rfl
  show ((post.threads j).plan.map Letter.ofSending) = _
  rw [hpost]
  exact Function.apply_update (fun _ (t : DeviceThread Sending) => t.plan.map Letter.ofSending)
    o.post.threads i _ j

/-- A thread comes to `Send` with a letter for which the assertions hold. -/
theorem come_of_exec {i : ι} {out : Outgoing}
    (hexec : st.exec numBoxes tid (.post a (.call i out)) = some st') :
    ∃ s, PostOffice.pack a numBoxes out = .ok s ∧
      st.spec.exec (.come a i (Letter.ofSending s)) = some st'.spec := by
  obtain ⟨post, hpost, rfl⟩ := Option.map_eq_some_iff.mp hexec
  obtain ⟨haway, ⟨hprepare, -⟩ | ⟨s, hprepare, rfl⟩⟩ := DeviceRun.call_of_exec hpost
  · obtain ⟨s, -, heq⟩ := Except.bind_eq_ok.mp hprepare
    cases heq
  · obtain ⟨s', hpack, heq⟩ := Except.bind_eq_ok.mp hprepare
    cases Option.some.inj (Except.ok.inj heq)
    have hnone : (st.spec.office a).sending i = none := by
      show ((st.office a).post.threads i).plan.map _ = none
      rw [DeviceThread.plan, haway]
      rfl
    have hsent : st.sent a ((st.office a).post.goto i (.acquire s)) = _ := sent_of_requests rfl
    refine ⟨s, hpack, ?_⟩
    rw [PostSpec.exec, if_pos hnone, hsent, spec_setOffice, spec_goto _ i (.acquire s) _ rfl]
    rfl

/-- A step of a thread in `Send`. -/
theorem request_of_exec (h : st.Inv numBoxes) {i : ι} {oracle : Bool × Mem}
    (hexec : st.exec numBoxes tid (.post a (.step i oracle)) = some st') :
    st'.spec = st.spec ∨ ∃ lost, st.spec.exec (.request a i lost) = some st'.spec := by
  obtain ⟨post, hpost, rfl⟩ := Option.map_eq_some_iff.mp hexec
  obtain ⟨hrequests, hplan⟩ | ⟨s, result, device, hplan, hrequest, rfl⟩ := DeviceRun.ask_of_exec hpost
  · left
    rw [sent_of_requests hrequests]
    refine spec_setOffice_same (OfficeSpec.ext (funext fun j => ?_) rfl rfl rfl)
    exact congrArg (Option.map Letter.ofSending) (hplan j)
  · right
    obtain ⟨result', hsend, heq⟩ := Except.bind_eq_ok.mp hrequest
    obtain ⟨rfl, -⟩ := Prod.mk.inj (Except.ok.inj heq)
    have hsome : (st.spec.office a).sending i = some (Letter.ofSending s) :=
      congrArg (Option.map Letter.ofSending) hplan
    have hspec := spec_goto (st.office a) i (.wait (st.office a).post.requests.length)
      ((st.office a).post.ask i s result' device) rfl
    have hsent : st.sent a ((st.office a).post.ask i s result' device) =
        match (result' : Option (BitVec 32 × Mem)) with
        | some (dest, wire) => (st.setOffice a { st.office a with
            post := (st.office a).post.ask i s result' device }).transmit a dest s wire
        | none => st.setOffice a { st.office a with
            post := (st.office a).post.ask i s result' device } := by
      rw [sent, show ((st.office a).post.ask i s result' device).requests =
        (st.office a).post.requests ++ [(i, s, result')] from rfl,
        List.getElem?_append_right le_rfl, Nat.sub_self, List.getElem?_cons_zero]
      cases result' <;> rfl
    rw [hsent]
    cases result' with
    | none =>
        refine ⟨true, ?_⟩
        rw [PostSpec.exec, hsome, spec_setOffice, hspec]
        rfl
    | some packet =>
        obtain ⟨dest, wire⟩ := packet
        obtain ⟨out, hprepare⟩ := h.prepared a i s hplan
        obtain ⟨s', hpack, heq⟩ := Except.bind_eq_ok.mp hprepare
        cases Option.some.inj (Except.ok.inj heq)
        obtain ⟨-, -, -, hlegal, -⟩ := PostOffice.pack_eq_ok hpack
        obtain ⟨rfl, -⟩ := PostOffice.send_eq_ok hsend hlegal
        refine ⟨false, ?_⟩
        rw [PostSpec.exec, hsome, spec_transmit wire rfl, spec_setOffice, hspec]
        rfl

/-- A send-done interrupt is not seen. -/
theorem spec_of_interrupt {k : ℕ}
    (hexec : st.exec numBoxes tid (.post a (.interrupt k)) = some st') : st'.spec = st.spec := by
  obtain ⟨post, hpost, rfl⟩ := Option.map_eq_some_iff.mp hexec
  obtain ⟨-, heq⟩ := Option.ite_none_right_eq_some.mp hpost
  cases heq
  have hsent : st.sent a ((st.office a).post.finish (PostOffice.sender a numBoxes) k) = _ :=
    sent_of_requests rfl
  rw [hsent]
  exact spec_setOffice_same rfl

/-- A poll of the network is not seen. -/
theorem spec_of_poll (hexec : st.exec numBoxes tid (.poll a) = some st') : st'.spec = st.spec := by
  simp only [exec] at hexec
  split at hexec
  · rename_i net sock avail _
    cases hexec
    exact spec_setOffice_same (o := (st.office a).polled net avail) rfl
  · cases hexec

/-- A step of the postal worker. -/
theorem arrive_of_exec (h : st.Inv numBoxes) {uninit : Mem}
    (hexec : st.exec numBoxes tid (.work a uninit) = some st') :
    st'.spec = st.spec ∨ ∃ b, st.spec.exec (.arrive a b) = some st'.spec := by
  have hcounts := (h.exec hexec).counts a
  obtain ⟨o, hwork, rfl⟩ := Option.map_eq_some_iff.mp hexec
  rcases Office.spec_of_work (fun b => ((h.office a).boxes b).putter) hwork with hsame | ⟨b, hspec⟩
  · exact .inl (spec_setOffice_same hsame)
  · refine .inr ⟨b, ?_⟩
    rw [spec_setOffice, hspec] at hcounts ⊢
    -- The letter was one of those for the box, because it is accounted for now.
    have hcount := (hcounts b).2
    simp only [PostSpec.setOffice, Function.update_self] at hcount
    exact if_pos (Nat.lt_of_succ_le hcount)

/-- A call of `Receive` is not seen. -/
theorem spec_of_receive {b : ℕ} {i : ι} (hexec : st.exec numBoxes tid (.receive a b i) = some st') :
    st'.spec = st.spec := by
  obtain ⟨o, hreceive, rfl⟩ := Option.map_eq_some_iff.mp hexec
  obtain ⟨-, hreceive⟩ := Option.ite_none_right_eq_some.mp hreceive
  obtain ⟨list, hlist, rfl⟩ := Option.map_eq_some_iff.mp hreceive
  obtain ⟨-, rfl⟩ := ListRun.call_of_exec hlist
  exact spec_setOffice_same (Office.spec_setBox_same (st.office a) b _ rfl rfl)

/-- A step of a thread in `Receive`. -/
theorem take_of_exec (h : st.Inv numBoxes) {b : ℕ} {i : ι}
    (hexec : st.exec numBoxes tid (.remove a b i) = some st') :
    st'.spec = st.spec ∨ ((((st.office a).boxes b).threads (some i)).pc.removing = true ∧
      st.spec.exec (.take a b i) = some st'.spec) := by
  obtain ⟨o, hremove, rfl⟩ := Option.map_eq_some_iff.mp hexec
  obtain ⟨list, hlist, rfl⟩ := Option.map_eq_some_iff.mp hremove
  cases (ListRun.effect_of_exec hlist).1 with
  | none _ happended hremoved =>
      left
      rw [hremoved, List.getElem?_eq_none le_rfl]
      exact spec_setOffice_same (Office.spec_setBox_same (st.office a) b list happended hremoved)
  | insert item happending =>
      rw [((h.office a).boxes b).getters i] at happending
      cases happending
  | take mail _ _ hremoving _ hlist' happended hremoved =>
      refine .inr ⟨hremoving, ?_⟩
      have horder := ((h.office a).boxes b).order
      rw [hlist'] at horder
      have hless : (st.spec.office a).taken b < (st.spec.office a).arrived b := by
        show ((st.office a).boxes b).removed.length < ((st.office a).boxes b).appended.length
        rw [horder, List.length_append, List.length_cons]
        omega
      have hletter :
          (st.spec.letters a b)[(st.spec.office a).taken b]? = some (Letter.ofMail mail) := by
        show (Letter.forBox b _)[((st.office a).boxes b).removed.length]? = _
        rw [(h.office a).account b, horder, List.map_append, List.append_assoc, List.map_cons,
          List.getElem?_append_right (by rw [List.length_map]), List.length_map, Nat.sub_self]
        rfl
      rw [hremoved, List.getElem?_append_right le_rfl, Nat.sub_self]
      refine Eq.trans ?_ (congrArg some (spec_setOffice _).symm)
      rw [PostSpec.exec, if_pos hless, hletter]
      refine congrArg (fun o => some (st.spec.setOffice a o)) (Eq.symm ?_)
      refine (Office.spec_hand ((st.office a).setBox b list) b i (some mail) _ _).trans ?_
      rw [Office.spec_setBox, happended, hremoved, List.length_append]
      exact OfficeSpec.ext rfl (Function.update_eq_self b (st.spec.office a).arrived) rfl rfl

/-- A thread returns from `Receive`. -/
theorem finish_of_exec {b : ℕ} {i : ι} (hexec : st.exec numBoxes tid (.finish a b i) = some st') :
    st.spec.exec (.finish a b i) = some st'.spec := by
  obtain ⟨o, hfinish, rfl⟩ := Option.map_eq_some_iff.mp hexec
  rw [Office.finish] at hfinish
  split at hfinish
  · rename_i mail _ hhand
    cases hfinish
    have hsome : (st.spec.office a).hand b i = some (Letter.ofMail mail) :=
      congrArg (Option.map Letter.ofMail) hhand
    rw [PostSpec.exec, hsome, spec_setOffice]
    exact congrArg (fun o => some (st.spec.setOffice a o)) (Office.spec_hand _ b i none _ _).symm
  · cases hfinish

/-! ## Who is in `Receive` -/

/-- The thread is in `Receive` and has not taken a mail. -/
def getting (st : MailNet ι) (a : BitVec 32) (b : ℕ) (i : ι) : Bool :=
  (((st.office a).boxes b).threads (some i)).pc.removing

omit [DecidableEq ι] in
/-- The boxes of one machine change. -/
theorem getting_setOffice {o : Office ι} {d : BitVec 32} {b : ℕ} {j : ι} {P : Prop}
    (hgetting : (st.setOffice a o).getting d b j = true)
    (hbox : d = a → ((o.boxes b).threads (some j)).pc.removing = true → st.getting a b j = true ∨ P) :
    st.getting d b j = true ∨ P := by
  change (((Function.update st.office a o d).boxes b).threads (some j)).pc.removing = true at hgetting
  by_cases hd : d = a
  · subst hd
    rw [Function.update_self] at hgetting
    exact hbox rfl hgetting
  · rw [Function.update_of_ne hd] at hgetting
    exact .inl hgetting

omit [DecidableEq ι] in
/-- One box of the machine changes. -/
theorem getting_setBox {o : Office ι} {box : ℕ} {list : ListRun (Option ι) Mail} {b : ℕ} {j : ι}
    {P : Prop} (hgetting : (((o.setBox box list).boxes b).threads (some j)).pc.removing = true)
    (hlist : b = box → (list.threads (some j)).pc.removing = true →
      ((o.boxes b).threads (some j)).pc.removing = true ∨ P) :
    ((o.boxes b).threads (some j)).pc.removing = true ∨ P := by
  change ((Function.update o.boxes box list b).threads (some j)).pc.removing = true at hgetting
  by_cases hb : b = box
  · subst hb
    rw [Function.update_self] at hgetting
    exact hlist rfl hgetting
  · rw [Function.update_of_ne hb] at hgetting
    exact .inl hgetting

/-- **A thread is in `Receive` only if it has called it.** -/
theorem getting_of_exec {act : MailAct ι} (hexec : st.exec numBoxes tid act = some st')
    {d : BitVec 32} {b : ℕ} {j : ι} (hgetting : st'.getting d b j = true) :
    st.getting d b j = true ∨ act = .receive d b j := by
  cases act with
  | post a act =>
      obtain ⟨post, -, rfl⟩ := Option.map_eq_some_iff.mp hexec
      have hsent : (st.sent a post).office =
          (st.setOffice a { st.office a with post := post }).office := by
        rw [sent]
        split <;> rfl
      refine getting_setOffice (o := { st.office a with post := post }) ?_ fun _ h => .inl h
      rw [getting, ← hsent]
      exact hgetting
  | poll a =>
      simp only [exec] at hexec
      split at hexec
      · rename_i net sock avail _
        cases hexec
        exact getting_setOffice (o := (st.office a).polled net avail) hgetting fun _ h => .inl h
      · cases hexec
  | work a uninit =>
      obtain ⟨o, hwork, rfl⟩ := Option.map_eq_some_iff.mp hexec
      refine getting_setOffice hgetting fun _ h => ?_
      rw [Office.work] at hwork
      split at hwork
      · obtain ⟨units, -, rfl⟩ := Option.map_eq_some_iff.mp hwork
        exact .inl h
      · cases hwork
        exact .inl h
      · split at hwork
        · obtain ⟨list, hlist, rfl⟩ := Option.map_eq_some_iff.mp hwork
          refine getting_setBox h fun hb hnew => .inl ?_
          subst hb
          obtain ⟨-, rfl⟩ := ListRun.call_of_exec hlist
          rw [(BoxInv.goto_cases _ none _).2 (some j) (by simp)] at hnew
          exact hnew
        · cases hwork
      · obtain ⟨list, hlist, rfl⟩ := Option.map_eq_some_iff.mp hwork
        refine getting_setBox h fun hb hnew => .inl ?_
        subst hb
        rw [(ListRun.effect_of_exec hlist).2 (some j) (by simp)] at hnew
        exact hnew
  | receive a box i =>
      obtain ⟨o, hreceive, rfl⟩ := Option.map_eq_some_iff.mp hexec
      obtain ⟨-, hreceive⟩ := Option.ite_none_right_eq_some.mp hreceive
      obtain ⟨list, hlist, rfl⟩ := Option.map_eq_some_iff.mp hreceive
      obtain ⟨-, rfl⟩ := ListRun.call_of_exec hlist
      refine getting_setOffice hgetting fun hd h => ?_
      subst hd
      refine getting_setBox h fun hb hnew => ?_
      subst hb
      by_cases hj : j = i
      · exact .inr (by rw [hj])
      · rw [(BoxInv.goto_cases _ (some i) _).2 (some j) (by simpa using hj)] at hnew
        exact .inl hnew
  | remove a box i =>
      obtain ⟨o, hremove, rfl⟩ := Option.map_eq_some_iff.mp hexec
      obtain ⟨list, hlist, rfl⟩ := Option.map_eq_some_iff.mp hremove
      refine getting_setOffice hgetting fun _ h => ?_
      obtain ⟨heffect, hothers⟩ := ListRun.effect_of_exec hlist
      have hbox : ((((st.office a).setBox box list).boxes b).threads (some j)).pc.removing = true := by
        split at h
        · exact h
        · exact h
      refine getting_setBox hbox fun hb hnew => .inl ?_
      subst hb
      by_cases hj : j = i
      · subst hj
        cases heffect with
        | none _ _ _ _ hremoving => exact hremoving hnew
        | insert item _ _ hremoving =>
            rw [hremoving] at hnew
            cases hnew
        | take item _ _ hremoving => exact hremoving
      · rw [hothers (some j) (by simpa using hj)] at hnew
        exact hnew
  | finish a box i =>
      obtain ⟨o, hfinish, rfl⟩ := Option.map_eq_some_iff.mp hexec
      refine getting_setOffice hgetting fun _ h => ?_
      rw [Office.finish] at hfinish
      split at hfinish
      · cases hfinish
        exact .inl h
      · cases hfinish

end MailNet

end Nachos
