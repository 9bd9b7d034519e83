/-
# The network tests

`network/nettest.cc`. In `LogicCycle` a token goes from machine 0 to machine 1 and on to machine
5, and each machine halts when it has passed it on. In `MailTest` each machine sends a message to
another one, acknowledges the message that it gets, waits for the acknowledgment of its own, and
halts.

Any machines may take part, packets may be lost, and the machines go on at any speed. What the
machines conclude from what they receive holds all the same.
-/

import Nachos.Network.Programs

namespace Nachos

open Base Synch

/-- The string at the beginning of a buffer that begins with these bytes. -/
def stringIn (bytes : List UInt8) : Option (List UInt8) :=
  if 0 ∈ bytes then some (bytes.takeWhile (· ≠ 0) ++ [0]) else none

/-! ## The token -/

/-- "token". -/
def tokenText : List UInt8 := [116, 111, 107, 101, 110, 0]

/-- A mail to the next machine. -/
def passOn (id : BitVec 32) (text : List UInt8) : ProgramMail :=
  ⟨id + 1, ⟨id + 1, id, BitVec.ofNat 32 text.length⟩, text⟩

/-- `LogicCycle`. The box is checked by `Receive`. -/
def logicCycle : Program := fun id k got =>
  if id = 0 then
    if k = 0 then .send ⟨1, ⟨1, 0, 6⟩, tokenText⟩ else .halt
  else match k, got with
    | 0, _ => if 0 ≤ id.toInt then .receive id.toInt.toNat else .stop
    | 1, [l] =>
        if id.toInt < 5 then
          match stringIn l.bytes with
          | some text => .send (passOn id text)
          | none => .stop
        else .halt
    | _, _ => .halt

/-- The letter with which machine `a` passes the token on. -/
def tokenLetter (a : BitVec 32) : Letter := (passOn a tokenText).letter a

/-- Machine `a` has the token: the token has come, or is made there, and is not yet given to the
network. -/
def ProgramNet.HasToken (st : ProgramNet) (a : BitVec 32) : Prop :=
  (a = 0 ∨ (st.vars a).got ≠ []) ∧
    ((st.vars a).calls = (if a = 0 then 0 else 1) ∨ (st.net.spec.office a).sending () ≠ none)

/-- Where the program of a machine is. Machine 0 makes one call; another one waits for a letter
and passes it on. -/
theorem logicCycle_cases {a : BitVec 32} {vars : ProgramVars} (h : LocalRun logicCycle a vars) :
    (a = 0 ∧ vars.got = [] ∧ vars.calls ≤ 1 ∧ vars.receiving = none) ∨
      (a ≠ 0 ∧ vars = .new) ∨
      (a ≠ 0 ∧ 0 ≤ a.toInt ∧ vars.calls = 1 ∧ vars.got = [] ∧ vars.receiving ≠ none) ∨
      a ≠ 0 ∧ 0 ≤ a.toInt ∧ (vars.calls = 1 ∨ vars.calls = 2) ∧ vars.receiving = none ∧
        ∃ l, vars.got = [l] := by
  induction h with
  | start =>
      by_cases ha : a = 0
      · exact .inl ⟨ha, rfl, Nat.zero_le 1, rfl⟩
      · exact .inr (.inl ⟨ha, rfl⟩)
  | @send vars m _ hreceiving hcall ih =>
      obtain ⟨ha, hgot, hcalls, -⟩ | ⟨ha, rfl⟩ | ⟨-, -, -, -, hin⟩ |
        ⟨ha, hid, hcalls | hcalls, -, l, hgot⟩ := ih
      · simp only [logicCycle, ha, if_true] at hcall
        split at hcall
        · rename_i hzero
          exact .inl ⟨ha, hgot, by simp [ProgramVars.sends, hzero], hreceiving⟩
        · cases hcall
      · simp only [logicCycle, ha, if_false, ProgramVars.new] at hcall
        split at hcall <;> cases hcall
      · exact absurd hreceiving hin
      · exact .inr (.inr (.inr ⟨ha, hid, .inr (by simp [ProgramVars.sends, hcalls]), hreceiving,
          l, hgot⟩))
      · simp [logicCycle, hcalls, hgot] at hcall
  | @receive vars b _ hreceiving hcall ih =>
      obtain ⟨ha, hgot, hcalls, -⟩ | ⟨ha, rfl⟩ | ⟨-, -, -, -, hin⟩ |
        ⟨ha, hid, hcalls | hcalls, -, l, hgot⟩ := ih
      · simp only [logicCycle, ha, if_true] at hcall
        split at hcall <;> cases hcall
      · simp only [logicCycle, ha, if_false, ProgramVars.new] at hcall
        split at hcall
        · rename_i hid
          exact .inr (.inr (.inl ⟨ha, hid, rfl, rfl, Option.some_ne_none b⟩))
        · cases hcall
      · exact absurd hreceiving hin
      · simp only [logicCycle, ha, if_false, hcalls, hgot] at hcall
        split at hcall
        · split at hcall <;> cases hcall
        · cases hcall
      · simp [logicCycle, hcalls, hgot] at hcall
  | @get vars l _ hreceiving _ ih =>
      obtain ⟨-, -, -, hnone⟩ | ⟨-, rfl⟩ | ⟨ha, hid, hcalls, hgot, -⟩ | ⟨-, -, -, hnone, -⟩ := ih
      · rw [hnone] at hreceiving
        cases hreceiving
      · cases hreceiving
      · exact .inr (.inr (.inr ⟨ha, hid, .inl hcalls, rfl, l, by simp [ProgramVars.gets, hgot]⟩))
      · rw [hnone] at hreceiving
        cases hreceiving

/-- The letters that are sent. -/
theorem made_token {a : BitVec 32} {vars : ProgramVars} {k : ℕ} {l : Letter}
    (h : Made logicCycle a vars k l) : k = (if a = 0 then 0 else 1) ∧
      (a = 0 ∧ l = tokenLetter 0 ∨ a ≠ 0 ∧ 0 ≤ a.toInt ∧ a.toInt < 5 ∧
        ∃ l₀ ∈ vars.got, ∃ text, stringIn l₀.bytes = some text ∧ l = (passOn a text).letter a) := by
  obtain ⟨-, got, m, hprefix, hrun, hcall, rfl⟩ := h
  by_cases ha : a = 0
  · simp only [logicCycle, ha, if_true] at hcall
    split at hcall
    · rename_i hk
      cases hcall
      rw [ha, hk]
      exact ⟨rfl, .inl ⟨rfl, rfl⟩⟩
    · cases hcall
  · have hcases := logicCycle_cases hrun
    simp only [logicCycle, ha, if_false] at hcall
    split at hcall
    · split at hcall <;> cases hcall
    · rename_i l₀
      split at hcall
      · rename_i hless
        split at hcall
        · rename_i text htext
          cases hcall
          have hid : 0 ≤ a.toInt := by
            obtain ⟨hzero, -⟩ | ⟨-, hnew⟩ | ⟨-, hid, -⟩ | ⟨-, hid, -⟩ := hcases
            · exact absurd hzero ha
            · cases hnew
            · exact hid
            · exact hid
          refine ⟨by rw [if_neg ha], .inr ⟨ha, hid, hless, l₀, ?_, text, htext, rfl⟩⟩
          exact hprefix.subset (List.mem_singleton_self l₀)
        · cases hcall
      · cases hcall
    · cases hcall

section Token

variable {st : ProgramNet} {numBoxes : ℤ} {a b : BitVec 32} {l : Letter}

/-- No machine gets two letters. -/
theorem got_eq (h : st.Inv numBoxes logicCycle) (hl : l ∈ (st.vars a).got) :
    (st.vars a).got = [l] := by
  obtain ⟨-, hgot, -⟩ | ⟨-, hnew⟩ | ⟨-, -, -, hgot, -⟩ | ⟨-, -, -, -, l₀, hgot⟩ :=
    logicCycle_cases (h.seen.run a)
  · rw [hgot] at hl
    cases hl
  · rw [hnew] at hl
    cases hl
  · rw [hgot] at hl
    cases hl
  · rw [hgot, List.mem_singleton] at hl
    rw [hgot, hl]

/-- A machine gets the token from the machine before it, which got it before. -/
theorem token_from (h : st.Inv numBoxes logicCycle) (hl : l ∈ (st.vars a).got) :
    1 ≤ a.toNat ∧ a.toNat ≤ 5 ∧ l = tokenLetter (a - 1) ∧
      (1 < a.toNat → (st.vars (a - 1)).got ≠ []) := by
  induction hn : a.toNat generalizing a l with
  | zero =>
      obtain ⟨-, hgot, -⟩ | ⟨ha, -⟩ | ⟨ha, -⟩ | ⟨ha, -⟩ := logicCycle_cases (h.seen.run a)
      · rw [hgot] at hl
        cases hl
      · exact absurd (BitVec.eq_of_toNat_eq hn) ha
      · exact absurd (BitVec.eq_of_toNat_eq hn) ha
      · exact absurd (BitVec.eq_of_toNat_eq hn) ha
  | succ n ih =>
      obtain ⟨hto, -, c, k, hmade, -⟩ := h.seen.letters a _ l (h.seen.got a l hl)
      obtain ⟨-, ⟨rfl, rfl⟩ | ⟨hc, hid, hless, l₀, hl₀, text, htext, rfl⟩⟩ := made_token hmade
      · have ha : a = 1 := hto.symm
        subst ha
        have hn' : n = 0 := by simpa using hn.symm
        subst hn'
        exact ⟨by omega, by omega, rfl, fun hlt => absurd hlt (by omega)⟩
      · have ha : c + 1 = a := hto
        have hcn : c.toNat < 5 := by
          rw [BitVec.toInt_eq_toNat_of_msb (BitVec.msb_eq_false_iff_two_mul_lt.mpr ?_)] at hless
          · omega
          · by_contra hge
            rw [BitVec.toInt_eq_toNat_cond, if_neg hge] at hid
            omega
        have hn' : c.toNat = n := by
          rw [← ha, BitVec.toNat_add, show (1 : BitVec 32).toNat = 1 from rfl] at hn
          omega
        have hpred : a - 1 = c := by rw [← ha, BitVec.add_sub_cancel]
        obtain ⟨hone, -, rfl, -⟩ := ih hl₀ hn'
        obtain rfl : tokenText = text := Option.some.inj htext
        rw [hpred]
        exact ⟨by omega, by omega, rfl, fun _ => List.ne_nil_of_mem hl₀⟩

/-- Every machine from the first to the one that has the token has got it. -/
theorem got_of_lt (h : st.Inv numBoxes logicCycle) (hl : l ∈ (st.vars a).got)
    (hone : 1 ≤ b.toNat) (hlt : b.toNat < a.toNat) :
    (st.vars b).got = [tokenLetter (b - 1)] := by
  induction hn : a.toNat - b.toNat generalizing a l with
  | zero => omega
  | succ n ih =>
      obtain ⟨-, -, -, hbefore⟩ := token_from h hl
      obtain ⟨l₀, hl₀⟩ := List.exists_mem_of_ne_nil _ (hbefore (by omega))
      have hpred : (a - 1).toNat = a.toNat - 1 := by
        rw [BitVec.toNat_sub, show (1 : BitVec 32).toNat = 1 from rfl]
        omega
      by_cases hb : b.toNat = a.toNat - 1
      · obtain rfl : b = a - 1 := BitVec.eq_of_toNat_eq (by rw [hb, hpred])
        rw [got_eq h hl₀, (token_from h hl₀).2.2.1]
      · exact ih hl₀ (by omega) (by omega)

/-- The machine before one that has got the token has it no more. -/
theorem not_hasToken (h : st.Inv numBoxes logicCycle) (hl : l ∈ (st.vars a).got) :
    ¬ st.HasToken (a - 1) := by
  rintro ⟨-, hstill⟩
  obtain ⟨hto, -, c, k, hmade, hlast⟩ := h.seen.letters a _ l (h.seen.got a l hl)
  obtain ⟨hk, hletter⟩ := made_token hmade
  have hc : a - 1 = c := by
    have hnext : c + 1 = a := by
      obtain ⟨rfl, rfl⟩ | ⟨-, -, -, -, -, text, -, rfl⟩ := hletter
      · exact hto
      · exact hto
    rw [← hnext, BitVec.add_sub_cancel]
  rw [hc] at hstill
  have hless := hmade.1
  rw [hk] at hless hlast
  obtain hcalls | hsending := hstill
  · omega
  · have htwo := hlast hsending
    obtain ⟨rfl, -, hcalls, -⟩ | ⟨hne, hnew⟩ | ⟨hne, -, hcalls, -⟩ | ⟨hne, -, hcalls, -⟩ :=
      logicCycle_cases (h.seen.run c)
    · rw [if_pos rfl] at htwo
      omega
    · rw [hnew] at hless
      exact absurd hless (Nat.not_lt_zero _)
    · rw [if_neg hne] at htwo
      omega
    · rw [if_neg hne] at htwo
      omega

/-- Of two machines only the later one can have the token. -/
theorem not_hasToken_of_lt (h : st.Inv numBoxes logicCycle) (ha : st.HasToken a)
    (hlt : b.toNat < a.toNat) : ¬ st.HasToken b := by
  have hne : a ≠ 0 := by
    rintro rfl
    exact absurd hlt (Nat.not_lt_zero _)
  obtain ⟨l, hl⟩ := List.exists_mem_of_ne_nil _ (ha.1.resolve_left hne)
  have hafter : (b + 1).toNat = b.toNat + 1 := by
    rw [BitVec.toNat_add, show (1 : BitVec 32).toNat = 1 from rfl]
    omega
  have hgot : ∃ l, l ∈ (st.vars (b + 1)).got := by
    by_cases heq : (b + 1).toNat = a.toNat
    · rw [BitVec.eq_of_toNat_eq heq]
      exact ⟨l, hl⟩
    · rw [got_of_lt h hl (by omega) (by omega)]
      exact ⟨_, List.mem_singleton_self _⟩
  obtain ⟨l', hl'⟩ := hgot
  have hnot := not_hasToken h hl'
  rwa [BitVec.add_sub_cancel] at hnot

/-- **The token goes round once.** In every run of `LogicCycle` on any machines, with any
losses: what a machine gets is the token, from the machine before it, and only machines 1 to 5
get it, once each and each of them after all those before it; at any time at most one machine
has the token; and a machine other than 0 that has halted has got it. -/
theorem token_passed {inHdr : BitVec 32 → PacketHeader} {inbox buffer : BitVec 32 → Mem}
    {tid : Option Unit → ℤ} {steps : List (Step ProgramNet ProgramAct)}
    (hrun : ProgramNet.Run numBoxes tid logicCycle
      (ProgramNet.start (MailNet.start inHdr inbox buffer)) steps st) :
    (∀ a l, l ∈ (st.vars a).got → (st.vars a).got = [l] ∧ 1 ≤ a.toNat ∧ a.toNat ≤ 5 ∧
        l = tokenLetter (a - 1) ∧
        ∀ b, 1 ≤ b.toNat → b.toNat < a.toNat → (st.vars b).got = [tokenLetter (b - 1)]) ∧
      (∀ a b, st.HasToken a → st.HasToken b → a = b) ∧
      ∀ a, st.halted a = true → a ≠ 0 → (st.vars a).got ≠ [] := by
  have h := ProgramNet.Inv.of_run hrun
  refine ⟨fun a l hl => ?_, fun a b ha hb => ?_, fun a ha hne hnil => ?_⟩
  · obtain ⟨hone, hfive, hletter, -⟩ := token_from h hl
    exact ⟨got_eq h hl, hone, hfive, hletter, fun b hb hlt => got_of_lt h hl hb hlt⟩
  · obtain hlt | heq | hlt := Nat.lt_trichotomy a.toNat b.toNat
    · exact absurd ha (not_hasToken_of_lt h hb hlt)
    · exact BitVec.eq_of_toNat_eq heq
    · exact absurd hb (not_hasToken_of_lt h ha hlt)
  · obtain ⟨hreceiving, hcall⟩ := h.halted a ha
    obtain ⟨hzero, -⟩ | ⟨-, hnew⟩ | ⟨-, -, -, -, hin⟩ | ⟨-, -, -, -, l, hgot⟩ :=
      logicCycle_cases (h.seen.run a)
    · exact hne hzero
    · rw [hnew] at hcall
      simp only [logicCycle, hne, if_false, ProgramVars.new] at hcall
      split at hcall <;> cases hcall
    · exact hin hreceiving
    · rw [hgot] at hnil
      cases hnil

end Token

namespace ProgramNet

/-- The machines of the examples, with zeros in their memory. -/
def blank : ProgramNet := start (MailNet.start (fun _ => ⟨0, 0, 0⟩) (fun _ _ => 0) fun _ _ => 0)

/-- The program of machine `a` sends a mail, which is request `k` of its network. -/
def send (a : BitVec 32) (m : ProgramMail) (k : ℕ) : List ProgramAct :=
  let step : ProgramAct := .net (.post a (.step () (false, fun _ => 0)))
  .net (.post a (.call () ⟨⟨m.addr, 0, 0⟩, m.mailHdr, fun i => m.text.getD i 0, fun _ => 0⟩)) ::
    List.replicate 6 step ++ .net (.post a (.interrupt k)) :: List.replicate 7 step

/-- A packet comes to machine `a`, and its program takes the mail out of box `b`. -/
def receive (a : BitVec 32) (b : ℕ) : List ProgramAct :=
  .net (.poll a) :: List.replicate 18 (.net (.work a fun _ => 0)) ++
    .net (.receive a b ()) :: List.replicate 12 (.net (.remove a b ())) ++ [.net (.finish a b ())]

end ProgramNet

/-- Machine 0 gives the token to machine 1. -/
theorem token_passed_one : ∃ steps st,
    ProgramNet.Run 2 (fun _ => 1) logicCycle ProgramNet.blank steps st ∧
      (st.vars 1).got = [tokenLetter 0] ∧ ∀ b, st.HasToken 1 → st.HasToken b → 1 = b := by
  let labels := ProgramNet.send 0 ⟨1, ⟨1, 0, 6⟩, tokenText⟩ 0 ++ ProgramNet.receive 1 1
  have hend : (execAll (ProgramNet.exec 2 (fun _ => 1) logicCycle) ProgramNet.blank labels).map
      (fun st => (st.vars 1).got) = some [tokenLetter 0] := by decide +kernel
  obtain ⟨st, hst, hgot⟩ := Option.map_eq_some_iff.mp hend
  have hrun := trace_of_execAll hst
  exact ⟨_, st, hrun, hgot, fun b => (token_passed hrun).2.1 1 b⟩

/-! ## The exchange of messages -/

/-- "Hello there!". -/
def helloText : List UInt8 := [72, 101, 108, 108, 111, 32, 116, 104, 101, 114, 101, 33, 0]

/-- "Got it!". -/
def ackText : List UInt8 := [71, 111, 116, 32, 105, 116, 33, 0]

/-- The message to machine `farAddr`. -/
def hello (farAddr : BitVec 32) : ProgramMail := ⟨farAddr, ⟨0, 1, 13⟩, helloText⟩

/-- The acknowledgment of a message. The field `from` of the mail header is that of the first
mail. -/
def ack (l : Letter) : ProgramMail := ⟨l.pktHdr.fromAddr, ⟨l.mailHdr.fromAddr, 1, 8⟩, ackText⟩

/-- `MailTest(farAddr id)`. -/
def mailTest (farAddr : BitVec 32 → BitVec 32) : Program := fun id k got =>
  match k, got with
  | 0, _ => .send (hello (farAddr id))
  | 1, _ => .receive 0
  | 2, [l] => .send (ack l)
  | 3, _ => .receive 1
  | _, _ => .halt

section Calls

variable {farAddr : BitVec 32 → BitVec 32} {a : BitVec 32} {k b : ℕ} {got : List Letter}
  {m : ProgramMail}

theorem mailTest_eq_send (h : mailTest farAddr a k got = .send m) :
    k = 0 ∧ m = hello (farAddr a) ∨ ∃ l, k = 2 ∧ got = [l] ∧ m = ack l := by
  match k, got with
  | 0, _ =>
      cases h
      exact .inl ⟨rfl, rfl⟩
  | 2, [l] =>
      cases h
      exact .inr ⟨l, rfl, rfl, rfl⟩
  | 2, [] | 2, _ :: _ :: _ | 1, _ | 3, _ | _ + 4, _ => cases h

theorem mailTest_eq_receive (h : mailTest farAddr a k got = .receive b) :
    k = 1 ∧ b = 0 ∨ k = 3 ∧ b = 1 := by
  match k, got with
  | 1, _ =>
      cases h
      exact .inl ⟨rfl, rfl⟩
  | 3, _ =>
      cases h
      exact .inr ⟨rfl, rfl⟩
  | 2, [] | 2, [_] | 2, _ :: _ :: _ | 0, _ | _ + 4, _ => cases h

theorem mailTest_eq_halt (h : mailTest farAddr a k got = .halt) :
    (k = 2 ∧ ∀ l, got ≠ [l]) ∨ 4 ≤ k := by
  match k, got with
  | 2, [] => exact .inl ⟨rfl, by simp⟩
  | 2, _ :: _ :: _ => exact .inl ⟨rfl, by simp⟩
  | k + 4, _ => exact .inr (Nat.le_add_left 4 k)
  | 2, [_] | 0, _ | 1, _ | 3, _ => cases h

end Calls

/-- Where the program of a machine is: before the first letter, between the two, or behind both. -/
theorem mailTest_cases {farAddr : BitVec 32 → BitVec 32} {a : BitVec 32} {vars : ProgramVars}
    (h : LocalRun (mailTest farAddr) a vars) :
    (vars.got = [] ∧ (vars.calls ≤ 1 ∧ vars.receiving = none ∨
      vars.calls = 2 ∧ vars.receiving = some 0)) ∨
    (∃ l, vars.got = [l] ∧ l.box = 0 ∧ ((vars.calls = 2 ∨ vars.calls = 3) ∧ vars.receiving = none ∨
      vars.calls = 4 ∧ vars.receiving = some 1)) ∨
    ∃ l l', vars.got = [l, l'] ∧ l.box = 0 ∧ l'.box = 1 ∧ vars.calls = 4 ∧
      vars.receiving = none := by
  induction h with
  | start => exact .inl ⟨rfl, .inl ⟨Nat.zero_le 1, rfl⟩⟩
  | @send vars m _ hreceiving hcall ih =>
      obtain ⟨hk, -⟩ | ⟨l, hk, hgot, -⟩ := mailTest_eq_send hcall
      · obtain ⟨hnil, -⟩ | ⟨l, -, -, hcalls⟩ | ⟨l, l', -, -, -, hcalls, -⟩ := ih
        · exact .inl ⟨hnil, .inl ⟨by rw [ProgramVars.sends, hk], hreceiving⟩⟩
        · omega
        · omega
      · obtain ⟨hnil, -⟩ | ⟨l₀, hone, hbox, -⟩ | ⟨l₀, l', htwo, -⟩ := ih
        · rw [hgot] at hnil
          cases hnil
        · exact .inr (.inl ⟨l₀, hone, hbox, .inl ⟨.inr (by rw [ProgramVars.sends, hk]), hreceiving⟩⟩)
        · rw [hgot] at htwo
          cases htwo
  | @receive vars b _ hreceiving hcall ih =>
      obtain ⟨hk, rfl⟩ | ⟨hk, rfl⟩ := mailTest_eq_receive hcall
      · obtain ⟨hnil, -⟩ | ⟨l, -, -, hcalls⟩ | ⟨l, l', -, -, -, hcalls, -⟩ := ih
        · exact .inl ⟨hnil, .inr ⟨by rw [ProgramVars.receives, hk], rfl⟩⟩
        · omega
        · omega
      · obtain ⟨-, hcalls⟩ | ⟨l, hone, hbox, -⟩ | ⟨l, l', -, -, -, hcalls, -⟩ := ih
        · omega
        · exact .inr (.inl ⟨l, hone, hbox, .inr ⟨by rw [ProgramVars.receives, hk], rfl⟩⟩)
        · omega
  | @get vars l _ hreceiving _ ih =>
      obtain ⟨hnil, ⟨-, hnone⟩ | ⟨hcalls, hin⟩⟩ | ⟨l₀, hone, hbox, ⟨-, hnone⟩ | ⟨hcalls, hin⟩⟩ |
        ⟨-, -, -, -, -, -, hnone⟩ := ih
      · rw [hnone] at hreceiving
        cases hreceiving
      · rw [hin] at hreceiving
        refine .inr (.inl ⟨l, by rw [ProgramVars.gets, hnil, List.nil_append], ?_,
          .inl ⟨.inl hcalls, rfl⟩⟩)
        exact (Option.some.inj hreceiving).symm
      · rw [hnone] at hreceiving
        cases hreceiving
      · rw [hin] at hreceiving
        refine .inr (.inr ⟨l₀, l, by rw [ProgramVars.gets, hone, List.singleton_append], hbox, ?_,
          hcalls, rfl⟩)
        exact (Option.some.inj hreceiving).symm
      · rw [hnone] at hreceiving
        cases hreceiving

/-- The letters that are sent: the message, and the acknowledgment of the first letter. -/
theorem made_mail {farAddr : BitVec 32 → BitVec 32} {a : BitVec 32} {vars : ProgramVars} {k : ℕ}
    {l : Letter} (h : Made (mailTest farAddr) a vars k l) :
    l = (hello (farAddr a)).letter a ∨
      ∃ l₀, vars.got.head? = some l₀ ∧ l₀.box = 0 ∧ l = (ack l₀).letter a := by
  obtain ⟨-, got, m, hprefix, hrun, hcall, rfl⟩ := h
  obtain ⟨-, rfl⟩ | ⟨l₀, -, rfl, rfl⟩ := mailTest_eq_send hcall
  · exact .inl rfl
  · obtain ⟨hnil, -⟩ | ⟨l, hone, hbox, -⟩ | ⟨l, l', htwo, -⟩ := mailTest_cases hrun
    · cases hnil
    · obtain rfl := List.singleton_inj.mp hone
      obtain ⟨rest, hrest⟩ := hprefix
      exact .inr ⟨l₀, by rw [← hrest]; rfl, hbox, rfl⟩
    · cases htwo

section Handshake

variable {st : ProgramNet} {numBoxes : ℤ} {farAddr : BitVec 32 → BitVec 32} {a : BitVec 32}
  {l : Letter}

/-- Where a letter comes from. -/
theorem mail_from (h : st.Inv numBoxes (mailTest farAddr)) (hl : l ∈ (st.vars a).got) :
    l.pktHdr.toAddr = a ∧ ∃ c, l = (hello (farAddr c)).letter c ∨
      ∃ l₀, (st.vars c).got.head? = some l₀ ∧ l₀.box = 0 ∧ l = (ack l₀).letter c := by
  obtain ⟨hto, -, c, k, hmade, -⟩ := h.seen.letters a _ l (h.seen.got a l hl)
  exact ⟨hto, c, made_mail hmade⟩

/-- Every letter asks for an answer in box 1, where acknowledgments go. -/
theorem ack_box (h : st.Inv numBoxes (mailTest farAddr)) (hl : l ∈ (st.vars a).got)
    (c : BitVec 32) : ((ack l).letter c).box = 1 := by
  obtain ⟨-, -, rfl | ⟨l₀, -, -, rfl⟩⟩ := mail_from h hl
  · rfl
  · rfl

/-- A letter in box 0 is the message of a machine whose far machine this one is. -/
theorem hello_of_box (h : st.Inv numBoxes (mailTest farAddr)) (hl : l ∈ (st.vars a).got)
    (hbox : l.box = 0) : ∃ c, farAddr c = a ∧ l = (hello a).letter c := by
  obtain ⟨rfl, c, rfl | ⟨l₀, hhead, -, rfl⟩⟩ := mail_from h hl
  · exact ⟨c, rfl, rfl⟩
  · rw [ack_box h (List.mem_of_mem_head? hhead)] at hbox
    cases hbox

/-- A letter in box 1 is an acknowledgment of the far machine, whose first letter was the message
of this one. -/
theorem ack_of_box (h : st.Inv numBoxes (mailTest farAddr)) (hl : l ∈ (st.vars a).got)
    (hbox : l.box = 1) :
    (st.vars (farAddr a)).got.head? = some ((hello (farAddr a)).letter a) ∧
      l = (ack ((hello (farAddr a)).letter a)).letter (farAddr a) := by
  obtain ⟨hto, c, rfl | ⟨l₀, hhead, hzero, rfl⟩⟩ := mail_from h hl
  · cases hbox
  · obtain ⟨b, rfl, rfl⟩ := hello_of_box h (List.mem_of_mem_head? hhead) hzero
    obtain rfl : b = a := hto
    exact ⟨hhead, rfl⟩

/-- **Messages are acknowledged.** In every run of `MailTest` on any machines, with any losses: the
first letter that a machine gets is the message of a machine that was told to send to it; the
second one, and there is no third, is the acknowledgment by its own far machine, whose first letter
was the message of this machine; and a machine that has halted has got both. -/
theorem mail_acknowledged {inHdr : BitVec 32 → PacketHeader} {inbox buffer : BitVec 32 → Mem}
    {tid : Option Unit → ℤ} {steps : List (Step ProgramNet ProgramAct)}
    (hrun : ProgramNet.Run numBoxes tid (mailTest farAddr)
      (ProgramNet.start (MailNet.start inHdr inbox buffer)) steps st) (a : BitVec 32) :
    ((st.vars a).got = [] ∨
      ∃ b, farAddr b = a ∧ ((st.vars a).got = [(hello a).letter b] ∨
        (st.vars a).got =
            [(hello a).letter b, (ack ((hello (farAddr a)).letter a)).letter (farAddr a)] ∧
          (st.vars (farAddr a)).got.head? = some ((hello (farAddr a)).letter a))) ∧
      (st.halted a = true → (st.vars a).got.length = 2) := by
  have h := ProgramNet.Inv.of_run hrun
  have hcases := mailTest_cases (h.seen.run a)
  refine ⟨?_, fun ha => ?_⟩
  · obtain ⟨hgot, -⟩ | ⟨l, hgot, hbox, -⟩ | ⟨l, l', hgot, hbox, hbox', -⟩ := hcases
    · exact .inl hgot
    · obtain ⟨b, hb, rfl⟩ := hello_of_box h (by rw [hgot]; exact List.mem_singleton_self l) hbox
      exact .inr ⟨b, hb, .inl hgot⟩
    · obtain ⟨b, hb, rfl⟩ := hello_of_box h (by rw [hgot]; exact List.mem_cons_self) hbox
      obtain ⟨hfar, rfl⟩ := ack_of_box h (by rw [hgot]; exact List.mem_of_getLast? rfl) hbox'
      exact .inr ⟨b, hb, .inr ⟨hgot, hfar⟩⟩
  · obtain ⟨hreceiving, hcall⟩ := h.halted a ha
    obtain ⟨-, ⟨hcalls, -⟩ | ⟨-, hin⟩⟩ | ⟨l, hone, -, ⟨hcalls, -⟩ | ⟨-, hin⟩⟩ | ⟨l, l', htwo, -⟩ :=
      hcases
    · obtain ⟨hk, -⟩ | hk := mailTest_eq_halt hcall
      · omega
      · omega
    · rw [hreceiving] at hin
      cases hin
    · obtain ⟨-, hnot⟩ | hk := mailTest_eq_halt hcall
      · exact absurd hone (hnot l)
      · omega
    · rw [hreceiving] at hin
      cases hin
    · rw [htwo]
      rfl

end Handshake

/-- Two machines exchange messages, acknowledge them and halt. -/
theorem mail_acknowledged_two : ∃ steps st,
    ProgramNet.Run 2 (fun _ => 1) (mailTest fun a => 1 - a) ProgramNet.blank steps st ∧
      (st.vars 0).got = [(hello 0).letter 1, (ack ((hello 1).letter 0)).letter 1] ∧
      st.halted 1 = true ∧ (st.vars 1).got.length = 2 := by
  let labels := ProgramNet.send 0 (hello 1) 0 ++ ProgramNet.send 1 (hello 0) 0 ++
    ProgramNet.receive 0 0 ++ ProgramNet.receive 1 0 ++
    ProgramNet.send 0 (ack ((hello 0).letter 1)) 1 ++
    ProgramNet.send 1 (ack ((hello 1).letter 0)) 1 ++
    ProgramNet.receive 0 1 ++ ProgramNet.receive 1 1 ++ [.halt 0, .halt 1]
  have hend : (execAll (ProgramNet.exec 2 (fun _ => 1) (mailTest fun a => 1 - a)) ProgramNet.blank
      labels).map (fun st => ((st.vars 0).got, st.halted 1)) =
        some ([(hello 0).letter 1, (ack ((hello 1).letter 0)).letter 1], true) := by
    decide +kernel
  obtain ⟨st, hst, hequal⟩ := Option.map_eq_some_iff.mp hend
  obtain ⟨hgot, hhalted⟩ := Prod.mk.inj hequal
  have hrun := trace_of_execAll hst
  exact ⟨_, st, hrun, hgot, hhalted, (mail_acknowledged hrun 1).2 hhalted⟩

end Nachos
