/-
# Programs over the post offices

On each machine one thread runs a program that calls `Send` and `Receive` and may halt its
machine at the end. What it does next depends on the address of the machine, on how many calls
it has made and on the letters that it got. The machines are those of `MailNet`, with every
interleaving and every loss.

A program has local runs, in which any letter can come that is for the machine and for the box
of the `Receive` in progress. In a run of all machines each of them is at a state of a local
run, and every letter in a box, on its way or returned by `Receive` was handed to `Send` by the
program of some machine. What a protocol promises can be read off these two facts and the
program.
-/

import Nachos.Network.PostSpec

namespace Nachos

open Base Synch

/-- What a program hands to `Send`: the machine, the mail header and the data. -/
structure ProgramMail where
  addr : BitVec 32
  mailHdr : MailHeader
  text : List UInt8
  deriving DecidableEq, Repr

/-- The letter that machine `a` sends. -/
def ProgramMail.letter (m : ProgramMail) (a : BitVec 32) : Letter :=
  ⟨⟨m.addr, a, m.mailHdr.length + BitVec.ofNat 32 HeaderSize⟩, m.mailHdr, m.text⟩

/-- What a program does next. -/
inductive ProgramCall
  | send (m : ProgramMail)
  | receive (box : ℕ)
  | halt
  /-- An assertion fails, or the program reads beyond its buffer. -/
  | stop
  deriving DecidableEq, Repr

/-- Call number `k` of the program on machine `a`, when `Receive` has returned the letters
`got`. -/
abbrev Program := (a : BitVec 32) → (k : ℕ) → (got : List Letter) → ProgramCall

/-- How far the program of a machine is. -/
@[ext]
structure ProgramVars where
  calls : ℕ
  got : List Letter
  /-- The box of the `Receive` that the program is in. -/
  receiving : Option ℕ

/-- The machines and their programs. -/
structure ProgramNet where
  net : MailNet Unit
  vars : BitVec 32 → ProgramVars
  halted : BitVec 32 → Bool

/-- What happens next. -/
inductive ProgramAct
  /-- A step of the post office of a machine, or of a thread in it. -/
  | net (act : MailAct Unit)
  /-- `interrupt->Halt()`. -/
  | halt (a : BitVec 32)

/-- The machine on which it happens. -/
def MailAct.machine {ι : Type} : MailAct ι → BitVec 32
  | .post a _ => a
  | .poll a => a
  | .work a _ => a
  | .receive a _ _ => a
  | .remove a _ _ => a
  | .finish a _ _ => a

namespace ProgramVars

/-- A program that has not begun. -/
def new : ProgramVars := ⟨0, [], none⟩

/-- It has called `Send`. -/
def sends (vars : ProgramVars) : ProgramVars := { vars with calls := vars.calls + 1 }

/-- It has called `Receive`. -/
def receives (vars : ProgramVars) (b : ℕ) : ProgramVars :=
  { vars with calls := vars.calls + 1, receiving := some b }

/-- `Receive` has returned a letter. -/
def gets (vars : ProgramVars) (l : Letter) : ProgramVars :=
  { vars with got := vars.got ++ [l], receiving := none }

end ProgramVars

namespace ProgramNet

/-- The programs begin. -/
def start (net : MailNet Unit) : ProgramNet := ⟨net, fun _ => .new, fun _ => false⟩

/-- The thread is in `Send`. -/
def inSend (net : MailNet Unit) (a : BitVec 32) : Bool :=
  match ((net.office a).post.threads ()).pc with
  | .away => false
  | _ => true

/-- The next call of a program, if its last one has returned. -/
def next (program : Program) (st : ProgramNet) (a : BitVec 32) : Option ProgramCall :=
  if (st.vars a).receiving = none ∧ inSend st.net a = false then
    some (program a (st.vars a).calls (st.vars a).got)
  else none

/-- The calls of `Send` and `Receive` are those of the programs. -/
def allows (program : Program) (st : ProgramNet) : MailAct Unit → Bool
  | .post a (.call _ out) =>
      match st.next program a with
      | some (.send m) => out.pktHdr.toAddr = m.addr && out.mailHdr = m.mailHdr &&
          Letter.front out.data out.mailHdr.length.toNat = m.text
      | _ => false
  | .receive a b _ => st.next program a = some (.receive b)
  | _ => true

/-- One program is somewhere else. -/
def setVars (st : ProgramNet) (net : MailNet Unit) (a : BitVec 32) (vars : ProgramVars) :
    ProgramNet :=
  { st with net := net, vars := Function.update st.vars a vars }

/-- The post offices have made a step, and the programs go on. -/
def follow (st : ProgramNet) (net : MailNet Unit) : MailAct Unit → ProgramNet
  | .post a (.call _ _) => st.setVars net a (st.vars a).sends
  | .receive a b _ => st.setVars net a ((st.vars a).receives b)
  | .finish a b _ =>
      match (st.net.office a).hand b () with
      | some mail => st.setVars net a ((st.vars a).gets (Letter.ofMail mail))
      | none => { st with net := net }
  | _ => { st with net := net }

/-- One step. On a machine that was halted nothing happens. -/
def exec (numBoxes : ℤ) (tid : Option Unit → ℤ) (program : Program) (st : ProgramNet) :
    ProgramAct → Option ProgramNet
  | .net act =>
      if st.halted act.machine = false ∧ st.allows program act then
        (st.net.exec numBoxes tid act).map fun net => st.follow net act
      else none
  | .halt a =>
      if st.halted a = false ∧ st.next program a = some .halt then
        some { st with halted := Function.update st.halted a true }
      else none

/-- The runs of the machines. -/
def Run (numBoxes : ℤ) (tid : Option Unit → ℤ) (program : Program) (st : ProgramNet)
    (steps : List (Step ProgramNet ProgramAct)) (st' : ProgramNet) : Prop :=
  Trace (fun s act t => exec numBoxes tid program s act = some t) st steps st'

end ProgramNet

/-! ## Local runs -/

variable {program : Program} {a : BitVec 32} {vars vars' : ProgramVars} {k : ℕ} {l : Letter}

/-- The states of the program of machine `a`, when any letters come. -/
inductive LocalRun (program : Program) (a : BitVec 32) : ProgramVars → Prop
  | start : LocalRun program a .new
  | send {vars : ProgramVars} {m : ProgramMail} :
      LocalRun program a vars → vars.receiving = none →
      program a vars.calls vars.got = .send m → LocalRun program a vars.sends
  | receive {vars : ProgramVars} {b : ℕ} :
      LocalRun program a vars → vars.receiving = none →
      program a vars.calls vars.got = .receive b → LocalRun program a (vars.receives b)
  | get {vars : ProgramVars} {l : Letter} :
      LocalRun program a vars → vars.receiving = some l.box → l.pktHdr.toAddr = a →
      LocalRun program a (vars.gets l)

/-- Call number `k` of the program was a `Send` of the letter. -/
def Made (program : Program) (a : BitVec 32) (vars : ProgramVars) (k : ℕ) (l : Letter) : Prop :=
  k < vars.calls ∧ ∃ got m, got <+: vars.got ∧ LocalRun program a ⟨k, got, none⟩ ∧
    program a k got = .send m ∧ l = m.letter a

/-- A call that was made stays made. -/
theorem Made.mono (h : Made program a vars k l) (hcalls : vars.calls ≤ vars'.calls)
    (hgot : vars.got <+: vars'.got) : Made program a vars' k l := by
  obtain ⟨hk, got, m, hprefix, hrun⟩ := h
  exact ⟨hk.trans_le hcalls, got, m, hprefix.trans hgot, hrun⟩

/-- The programs and what is seen of the post offices. -/
structure ProgramsSeen (program : Program) (spec : PostSpec Unit)
    (vars : BitVec 32 → ProgramVars) : Prop where
  run : ∀ a, LocalRun program a (vars a)
  /-- A letter that was not requested is that of the last call. -/
  sending : ∀ a l, (spec.office a).sending () = some l →
    (vars a).receiving = none ∧ ∃ k, (vars a).calls = k + 1 ∧ Made program a (vars a) k l
  letters : ∀ d b l, l ∈ spec.letters d b → l.pktHdr.toAddr = d ∧ l.box = b ∧
    ∃ a k, Made program a (vars a) k l ∧
      ((spec.office a).sending () ≠ none → k + 1 < (vars a).calls)
  hand : ∀ a b l, (spec.office a).hand b () = some l →
    (vars a).receiving = some b ∧ l ∈ spec.letters a b
  got : ∀ a l, l ∈ (vars a).got → l ∈ spec.letters a l.box

namespace ProgramsSeen

variable {spec spec' : PostSpec Unit} {vars : BitVec 32 → ProgramVars} {m : ProgramMail} {b : ℕ}

/-- The program of machine `a` calls `Send`. -/
theorem come (h : ProgramsSeen program spec vars) (hreceiving : (vars a).receiving = none)
    (hcall : program a (vars a).calls (vars a).got = .send m)
    (hexec : spec.exec (.come a () (m.letter a)) = some spec') :
    ProgramsSeen program spec' (Function.update vars a (vars a).sends) := by
  obtain ⟨-, hletters, hothers, hsends⟩ := PostSpec.come_cases hexec
  refine ⟨fun d => ?_, fun d l hl => ?_, fun d b l hl => ?_, fun d b l hl => ?_, fun d l hl => ?_⟩
  · by_cases hd : d = a
    · subst hd
      rw [Function.update_self]
      exact (h.run d).send hreceiving hcall
    · rw [Function.update_of_ne hd]
      exact h.run d
  · rw [hsends] at hl
    by_cases hd : d = a
    · subst hd
      rw [if_pos ⟨rfl, rfl⟩] at hl
      obtain rfl := Option.some.inj hl
      rw [Function.update_self]
      have hrun : LocalRun program d ⟨(vars d).calls, (vars d).got, none⟩ := by
        rw [← hreceiving]
        exact h.run d
      exact ⟨hreceiving, _, rfl, Nat.lt_succ_self _, _, m, List.prefix_rfl, hrun, hcall, rfl⟩
    · rw [if_neg fun hall => hd hall.1] at hl
      rw [Function.update_of_ne hd]
      exact h.sending d l hl
  · rw [hletters] at hl
    obtain ⟨hto, hbox, c, k, hmade, hlast⟩ := h.letters d b l hl
    refine ⟨hto, hbox, c, k, ?_, fun hsending => ?_⟩
    · by_cases hc : c = a
      · subst hc
        rw [Function.update_self]
        exact hmade.mono (Nat.le_succ _) List.prefix_rfl
      · rwa [Function.update_of_ne hc]
    · by_cases hc : c = a
      · subst hc
        rw [Function.update_self]
        exact Nat.succ_lt_succ hmade.1
      · rw [hsends, if_neg fun hall => hc hall.1] at hsending
        rw [Function.update_of_ne hc]
        exact hlast hsending
  · rw [(hothers d).2.2] at hl
    rw [hletters]
    by_cases hd : d = a
    · subst hd
      rw [Function.update_self]
      exact h.hand d b l hl
    · rw [Function.update_of_ne hd]
      exact h.hand d b l hl
  · rw [hletters]
    by_cases hd : d = a
    · subst hd
      rw [Function.update_self] at hl
      exact h.got d l hl
    · rw [Function.update_of_ne hd] at hl
      exact h.got d l hl

/-- A letter is given to the network, which may lose it. -/
theorem request (h : ProgramsSeen program spec vars) {lost : Bool}
    (hexec : spec.exec (.request a () lost) = some spec') : ProgramsSeen program spec' vars := by
  obtain ⟨l, hsome, hothers, hsends, hletters⟩ := PostSpec.request_cases hexec
  have hself : (spec'.office a).sending () = none := by rw [hsends, if_pos ⟨rfl, rfl⟩]
  have hkept (d : BitVec 32) (b : ℕ) (l' : Letter) (hl' : l' ∈ spec.letters d b) :
      l' ∈ spec'.letters d b := by
    rw [hletters]
    split
    · exact List.mem_append_left _ hl'
    · exact hl'
  have hsame (d : BitVec 32) (hd : (spec'.office d).sending () ≠ none) :
      (spec'.office d).sending () = (spec.office d).sending () := by
    rw [hsends, if_neg]
    rintro ⟨rfl, -⟩
    exact hd hself
  refine ⟨h.run, fun d l' hl' => ?_, fun d b l' hl' => ?_, fun d b l' hl' => ?_, fun d l' hl' => ?_⟩
  · rw [hsame d (by rw [hl']; exact Option.some_ne_none l')] at hl'
    exact h.sending d l' hl'
  · have hold (hmem : l' ∈ spec.letters d b) : l'.pktHdr.toAddr = d ∧ l'.box = b ∧
        ∃ c k, Made program c (vars c) k l' ∧
          ((spec'.office c).sending () ≠ none → k + 1 < (vars c).calls) := by
      obtain ⟨hto, hbox, c, k, hmade, hlast⟩ := h.letters d b l' hmem
      exact ⟨hto, hbox, c, k, hmade, fun hc => hlast (hsame c hc ▸ hc)⟩
    rw [hletters] at hl'
    split at hl'
    · rename_i hall
      obtain hl' | hl' := List.mem_append.mp hl'
      · exact hold hl'
      · obtain rfl := List.mem_singleton.mp hl'
        obtain ⟨-, k, -, hmade⟩ := h.sending a l' hsome
        exact ⟨hall.2.1.symm, hall.2.2.symm, a, k, hmade, fun hc => absurd hself hc⟩
    · exact hold hl'
  · rw [(hothers d).2.2] at hl'
    obtain ⟨hreceiving, hmem⟩ := h.hand d b l' hl'
    exact ⟨hreceiving, hkept d b l' hmem⟩
  · exact hkept d _ l' (h.got d l' hl')

/-- A letter arrives. -/
theorem arrive (h : ProgramsSeen program spec vars)
    (hexec : spec.exec (.arrive a b) = some spec') : ProgramsSeen program spec' vars := by
  obtain ⟨-, hletters, hothers, -⟩ := PostSpec.arrive_cases hexec
  refine ⟨h.run, fun d l hl => ?_, fun d b l hl => ?_, fun d b l hl => ?_, fun d l hl => ?_⟩
  · rw [(hothers d).1] at hl
    exact h.sending d l hl
  · rw [hletters] at hl
    obtain ⟨hto, hbox, c, k, hmade, hlast⟩ := h.letters d b l hl
    exact ⟨hto, hbox, c, k, hmade, by rwa [(hothers c).1]⟩
  · rw [(hothers d).2.2] at hl
    rw [hletters]
    exact h.hand d b l hl
  · rw [hletters]
    exact h.got d l hl

/-- The program of machine `a` calls `Receive`. -/
theorem receive (h : ProgramsSeen program spec vars) (hreceiving : (vars a).receiving = none)
    (hsending : (spec.office a).sending () = none)
    (hcall : program a (vars a).calls (vars a).got = .receive b) :
    ProgramsSeen program spec (Function.update vars a ((vars a).receives b)) := by
  refine ⟨fun d => ?_, fun d l hl => ?_, fun d b l hl => ?_, fun d b' l hl => ?_, fun d l hl => ?_⟩
  · by_cases hd : d = a
    · subst hd
      rw [Function.update_self]
      exact (h.run d).receive hreceiving hcall
    · rw [Function.update_of_ne hd]
      exact h.run d
  · have hd : d ≠ a := by
      rintro rfl
      rw [hsending] at hl
      cases hl
    rw [Function.update_of_ne hd]
    exact h.sending d l hl
  · obtain ⟨hto, hbox, c, k, hmade, hlast⟩ := h.letters d b l hl
    refine ⟨hto, hbox, c, k, ?_⟩
    by_cases hc : c = a
    · subst hc
      rw [Function.update_self]
      exact ⟨hmade.mono (Nat.le_succ _) List.prefix_rfl, fun hne => absurd hsending hne⟩
    · rw [Function.update_of_ne hc]
      exact ⟨hmade, hlast⟩
  · obtain ⟨hin, hmem⟩ := h.hand d b' l hl
    have hd : d ≠ a := by
      rintro rfl
      rw [hreceiving] at hin
      cases hin
    rw [Function.update_of_ne hd]
    exact ⟨hin, hmem⟩
  · by_cases hd : d = a
    · subst hd
      rw [Function.update_self] at hl
      exact h.got d l hl
    · rw [Function.update_of_ne hd] at hl
      exact h.got d l hl

/-- A program that is in `Receive` takes a letter. -/
theorem take (h : ProgramsSeen program spec vars) (hreceiving : (vars a).receiving = some b)
    (hexec : spec.exec (.take a b ()) = some spec') : ProgramsSeen program spec' vars := by
  obtain ⟨l, -, hl, hletters, hothers, -, hhand⟩ := PostSpec.take_cases hexec
  refine ⟨h.run, fun d l hl => ?_, fun d b l hl => ?_, fun d c l' hl' => ?_, fun d l hl => ?_⟩
  · rw [(hothers d).1] at hl
    exact h.sending d l hl
  · rw [hletters] at hl
    obtain ⟨hto, hbox, c, k, hmade, hlast⟩ := h.letters d b l hl
    exact ⟨hto, hbox, c, k, hmade, by rwa [(hothers c).1]⟩
  · rw [hletters]
    rw [hhand] at hl'
    split at hl'
    · rename_i hall
      obtain ⟨rfl, rfl, -⟩ := hall
      obtain rfl := Option.some.inj hl'
      exact ⟨hreceiving, List.mem_of_getElem? hl⟩
    · exact h.hand d c l' hl'
  · rw [hletters]
    exact h.got d l hl

/-- `Receive` returns. -/
theorem finish (h : ProgramsSeen program spec vars) (hsome : (spec.office a).hand b () = some l)
    (hexec : spec.exec (.finish a b ()) = some spec') :
    ProgramsSeen program spec' (Function.update vars a ((vars a).gets l)) := by
  obtain ⟨-, -, hletters, hothers, hhand⟩ := PostSpec.finish_cases hexec
  obtain ⟨hreceiving, hmem⟩ := h.hand a b l hsome
  obtain ⟨hto, hbox, -⟩ := h.letters a b l hmem
  have hprefix : (vars a).got <+: ((vars a).gets l).got := List.prefix_append ..
  refine ⟨fun d => ?_, fun d l' hl' => ?_, fun d b l' hl' => ?_, fun d c l' hl' => ?_,
    fun d l' hl' => ?_⟩
  · by_cases hd : d = a
    · subst hd
      rw [Function.update_self]
      exact (h.run d).get (hbox ▸ hreceiving) hto
    · rw [Function.update_of_ne hd]
      exact h.run d
  · rw [(hothers d).1] at hl'
    obtain ⟨hnone, hlast⟩ := h.sending d l' hl'
    have hd : d ≠ a := by
      rintro rfl
      rw [hreceiving] at hnone
      cases hnone
    rw [Function.update_of_ne hd]
    exact ⟨hnone, hlast⟩
  · rw [hletters] at hl'
    obtain ⟨hto, hbox, c, k, hmade, hlast⟩ := h.letters d b l' hl'
    refine ⟨hto, hbox, c, k, ?_⟩
    rw [(hothers c).1]
    by_cases hc : c = a
    · subst hc
      rw [Function.update_self]
      exact ⟨hmade.mono (Nat.le_refl _) hprefix, hlast⟩
    · rw [Function.update_of_ne hc]
      exact ⟨hmade, hlast⟩
  · rw [hhand] at hl'
    rw [hletters]
    split at hl'
    · cases hl'
    · rename_i hne
      obtain ⟨hin, hmem'⟩ := h.hand d c l' hl'
      have hd : d ≠ a := by
        rintro rfl
        rw [hreceiving] at hin
        exact hne ⟨rfl, (Option.some.inj hin).symm, rfl⟩
      rw [Function.update_of_ne hd]
      exact ⟨hin, hmem'⟩
  · rw [hletters]
    by_cases hd : d = a
    · subst hd
      rw [Function.update_self] at hl'
      obtain hl' | hl' := List.mem_append.mp hl'
      · exact h.got d l' hl'
      · obtain rfl := List.mem_singleton.mp hl'
        rw [hbox]
        exact hmem
    · rw [Function.update_of_ne hd] at hl'
      exact h.got d l' hl'

end ProgramsSeen

/-! ## Runs -/

namespace ProgramNet

variable {st st' : ProgramNet} {net : MailNet Unit} {numBoxes : ℤ} {tid : Option Unit → ℤ}
  {b : ℕ}

/-- What holds of the machines and their programs. -/
structure Inv (numBoxes : ℤ) (program : Program) (st : ProgramNet) : Prop where
  net : st.net.Inv numBoxes
  seen : ProgramsSeen program st.net.spec st.vars
  getting : ∀ a b, st.net.getting a b () = true → (st.vars a).receiving = some b
  halted : ∀ a, st.halted a = true → (st.vars a).receiving = none ∧
    program a (st.vars a).calls (st.vars a).got = .halt

theorem next_eq_some {call : ProgramCall} (h : st.next program a = some call) :
    (st.vars a).receiving = none ∧ inSend st.net a = false ∧
      program a (st.vars a).calls (st.vars a).got = call := by
  obtain ⟨⟨hreceiving, hsend⟩, hcall⟩ := Option.ite_none_right_eq_some.mp h
  exact ⟨hreceiving, hsend, Option.some.inj hcall⟩

/-- A program outside of `Send` sends nothing. -/
theorem sending_eq_none (haway : inSend net a = false) :
    (net.spec.office a).sending () = none := by
  show ((net.office a).post.threads ()).plan.map _ = none
  rw [inSend] at haway
  split at haway
  · rename_i hpc
    rw [DeviceThread.plan, hpc]
    rfl
  · cases haway

/-- The letter that is sent is that of the program. -/
theorem letter_of_pack {m : ProgramMail} {out : Outgoing} {s : Sending}
    (hpack : PostOffice.pack a numBoxes out = .ok s) (haddr : out.pktHdr.toAddr = m.addr)
    (hmailHdr : out.mailHdr = m.mailHdr)
    (htext : Letter.front out.data out.mailHdr.length.toNat = m.text) :
    Letter.ofSending s = m.letter a := by
  obtain ⟨_, -, hpack⟩ := Except.bind_eq_ok.mp hpack
  obtain ⟨_, -, hpack⟩ := Except.bind_eq_ok.mp hpack
  cases hpack
  show (⟨⟨out.pktHdr.toAddr, a, out.mailHdr.length + BitVec.ofNat 32 HeaderSize⟩, out.mailHdr,
    Letter.front out.data out.mailHdr.length.toNat⟩ : Letter) = m.letter a
  rw [haddr, htext, hmailHdr]
  rfl

namespace Inv

theorem start (inHdr : BitVec 32 → PacketHeader) (inbox buffer : BitVec 32 → Mem) :
    (ProgramNet.start (MailNet.start inHdr inbox buffer)).Inv numBoxes program where
  net := MailNet.Inv.start inHdr inbox buffer
  seen := {
    run := fun _ => .start
    sending := fun _ _ h => by cases h
    letters := fun _ _ _ h => by cases h
    hand := fun _ _ _ h => by cases h
    got := fun _ _ h => by cases h }
  getting _ _ h := by cases h
  halted _ h := by cases h

/-- Only the post offices have made a step. -/
theorem setNet (h : st.Inv numBoxes program) (hnet : net.Inv numBoxes)
    (hseen : ProgramsSeen program net.spec st.vars)
    (hgetting : ∀ a b, net.getting a b () = true → st.net.getting a b () = true) :
    ({ st with net := net } : ProgramNet).Inv numBoxes program :=
  ⟨hnet, hseen, fun a b hab => h.getting a b (hgetting a b hab), h.halted⟩

/-- The program of a machine that was not halted goes on. -/
theorem setVars (h : st.Inv numBoxes program) (ha : st.halted a = false)
    (hnet : net.Inv numBoxes) {vars : ProgramVars}
    (hseen : ProgramsSeen program net.spec (Function.update st.vars a vars))
    (hgetting : ∀ d b, net.getting d b () = true →
      st.net.getting d b () = true ∨ d = a ∧ vars.receiving = some b)
    (hself : ∀ b, st.net.getting a b () = true → vars.receiving = some b) :
    (st.setVars net a vars).Inv numBoxes program := by
  refine ⟨hnet, hseen, fun d b hd => ?_, fun d hd => ?_⟩
  · show (Function.update st.vars a vars d).receiving = some b
    by_cases hda : d = a
    · subst hda
      rw [Function.update_self]
      exact (hgetting d b hd).elim (hself b) And.right
    · rw [Function.update_of_ne hda]
      exact h.getting d b ((hgetting d b hd).resolve_right fun hall => hda hall.1)
  · have hda : d ≠ a := by
      rintro rfl
      exact absurd (ha.symm.trans hd) (by decide)
    show (Function.update st.vars a vars d).receiving = none ∧
      program d (Function.update st.vars a vars d).calls (Function.update st.vars a vars d).got = _
    rw [Function.update_of_ne hda]
    exact h.halted d hd

/-- A step of the post offices that the programs allow. -/
theorem step (h : st.Inv numBoxes program) {act : MailAct Unit}
    (hhalted : st.halted act.machine = false) (hallows : st.allows program act = true)
    (hexec : st.net.exec numBoxes tid act = some net) :
    (st.follow net act).Inv numBoxes program := by
  have hnet := h.net.exec hexec
  have hgetting {d : BitVec 32} {c : ℕ} (hc : net.getting d c () = true) :=
    MailNet.getting_of_exec hexec hc
  cases act with
  | post a act =>
      have hsame (d : BitVec 32) (c : ℕ) (hc : net.getting d c () = true) :
          st.net.getting d c () = true := (hgetting hc).resolve_right (by simp)
      cases act with
      | call i out =>
          rw [allows] at hallows
          split at hallows
          · rename_i m hnext
            simp only [Bool.and_eq_true, decide_eq_true_eq] at hallows
            obtain ⟨⟨haddr, hmailHdr⟩, htext⟩ := hallows
            obtain ⟨hreceiving, -, hcall⟩ := next_eq_some hnext
            obtain ⟨s, hpack, hcome⟩ := MailNet.come_of_exec hexec
            rw [letter_of_pack hpack haddr hmailHdr htext] at hcome
            exact h.setVars hhalted hnet (h.seen.come hreceiving hcall hcome)
              (fun d c hc => .inl (hsame d c hc)) fun c hc => h.getting a c hc
          · cases hallows
      | step i oracle =>
          refine h.setNet hnet ?_ hsame
          obtain hspec | ⟨lost, hrequest⟩ := MailNet.request_of_exec h.net hexec
          · rw [hspec]
            exact h.seen
          · exact h.seen.request hrequest
      | interrupt k =>
          refine h.setNet hnet ?_ hsame
          rw [MailNet.spec_of_interrupt hexec]
          exact h.seen
  | poll a =>
      refine h.setNet hnet ?_ fun d c hc => (hgetting hc).resolve_right (by simp)
      rw [MailNet.spec_of_poll hexec]
      exact h.seen
  | work a uninit =>
      refine h.setNet hnet ?_ fun d c hc => (hgetting hc).resolve_right (by simp)
      obtain hspec | ⟨b, harrive⟩ := MailNet.arrive_of_exec h.net hexec
      · rw [hspec]
        exact h.seen
      · exact h.seen.arrive harrive
  | receive a b i =>
      obtain ⟨hreceiving, hsend, hcall⟩ := next_eq_some (of_decide_eq_true hallows)
      refine h.setVars hhalted hnet ?_ (fun d c hc => (hgetting hc).imp_right fun hact => ?_)
        fun c hc => ?_
      · rw [MailNet.spec_of_receive hexec]
        exact h.seen.receive hreceiving (sending_eq_none hsend) hcall
      · cases hact
        exact ⟨rfl, rfl⟩
      · rw [h.getting a c hc] at hreceiving
        cases hreceiving
  | remove a b i =>
      refine h.setNet hnet ?_ fun d c hc => (hgetting hc).resolve_right (by simp)
      obtain hspec | ⟨hremoving, htake⟩ := MailNet.take_of_exec h.net hexec
      · rw [hspec]
        exact h.seen
      · exact h.seen.take (h.getting a b hremoving) htake
  | finish a b i =>
      have hfinish := MailNet.finish_of_exec hexec
      obtain ⟨l, hsome, -⟩ := PostSpec.finish_cases hfinish
      obtain ⟨mail, hmail, rfl⟩ := Option.map_eq_some_iff.mp hsome
      have hfollow : st.follow net (.finish a b i) =
          st.setVars net a ((st.vars a).gets (Letter.ofMail mail)) := by
        simp only [follow, hmail]
      rw [hfollow]
      refine h.setVars hhalted hnet (h.seen.finish hsome hfinish)
        (fun d c hc => .inl ((hgetting hc).resolve_right (by simp))) fun c hc => ?_
      -- A thread that has a letter in its hand is not about to take one.
      have hc' := h.getting a c hc
      rw [(h.seen.hand a b _ hsome).1] at hc'
      obtain rfl := Option.some.inj hc'
      have hnone := ((h.net.office a).boxes b).empty () hc
      rw [hmail] at hnone
      cases hnone

theorem exec (h : st.Inv numBoxes program) {act : ProgramAct}
    (hexec : st.exec numBoxes tid program act = some st') : st'.Inv numBoxes program := by
  cases act with
  | net act =>
      obtain ⟨⟨hhalted, hallows⟩, hexec⟩ := Option.ite_none_right_eq_some.mp hexec
      obtain ⟨net, hnet, rfl⟩ := Option.map_eq_some_iff.mp hexec
      exact h.step hhalted hallows hnet
  | halt a =>
      obtain ⟨⟨-, hnext⟩, hexec⟩ := Option.ite_none_right_eq_some.mp hexec
      cases hexec
      refine ⟨h.net, h.seen, h.getting, fun d hd => ?_⟩
      by_cases hda : d = a
      · subst hda
        obtain ⟨hreceiving, -, hcall⟩ := next_eq_some hnext
        exact ⟨hreceiving, hcall⟩
      · exact h.halted d (by rwa [← Function.update_of_ne hda true st.halted])

/-- The invariant holds in every run from the beginning. -/
theorem of_run {inHdr : BitVec 32 → PacketHeader} {inbox buffer : BitVec 32 → Mem}
    {steps : List (Step ProgramNet ProgramAct)}
    (hrun : Run numBoxes tid program (ProgramNet.start (MailNet.start inHdr inbox buffer)) steps st) :
    st.Inv numBoxes program :=
  (Trace.invariant_of_forall (fun _ hinv hexec => Inv.exec hinv hexec) hrun
    (Inv.start inHdr inbox buffer)).1

end Inv

end ProgramNet

end Nachos
