import Mathlib.Algebra.BigOperators.Pi
import Mathlib.Data.Int.Basic
import Mathlib.Tactic.Ring
import SophiaTX.Lib.Partial

/-!
# An escrow contract

A sender leaves an amount and a fee with an escrow. Receiver and agent approve, which pays the fee
to the agent, or one of them rejects or the offer expires, which pays all back. From then on parts
of the amount are released, by the agent once there is a dispute and else by sender and receiver.
-/

namespace SophiaTX.Contract

open SophiaTX.Lib

variable {P : Type}

/-- The terms of an escrow. The agent is a third party. -/
structure Terms (P : Type) where
  sender : P
  receiver : P
  agent : P
  amount : ℤ
  fee : ℤ
  expiration : ℕ
  agent_ne_sender : agent ≠ sender
  agent_ne_receiver : agent ≠ receiver

inductive Phase where
  | offered (receiverApproved agentApproved : Bool)
  | running (rest : ℤ) (disputed : Bool)
  | closed

inductive Event (P : Type) where
  | approve (who : P) (approves : Bool)
  | dispute (who : P)
  | release (who receiver : P) (amount : ℤ)
  | expire

/-- What happened, when, and what each party was credited. -/
structure Record (P : Type) where
  time : ℕ
  event : Event P
  credit : P → ℤ

/-- Who may release to whom. -/
def MayRelease (t : Terms P) (disputed : Bool) (time : ℕ) (who receiver : P) : Prop :=
  if disputed then who = t.agent
  else (who = t.sender ∨ who = t.receiver) ∧
    (time < t.expiration → who = t.sender ∧ receiver = t.receiver ∨
      who = t.receiver ∧ receiver = t.sender)

/-! ## Histories -/

def Approved (who : P) (history : List (Record P)) : Prop :=
  ∃ r ∈ history, r.event = .approve who true

/-- Receiver and agent have approved. -/
def Ratified (t : Terms P) (history : List (Record P)) : Prop :=
  Approved t.receiver history ∧ Approved t.agent history

def Disputed (history : List (Record P)) : Prop :=
  ∃ r ∈ history, ∃ who, r.event = .dispute who

/-- What each party was credited in all. -/
def paid (history : List (Record P)) : P → ℤ := (history.map Record.credit).sum

section History

variable {t : Terms P} {history : List (Record P)} {r : Record P}

theorem paid_append (time : ℕ) (event : Event P) (credit : P → ℤ) :
    paid (history ++ [⟨time, event, credit⟩]) = paid history + credit := by
  simp [paid]

theorem approved_append {who : P} : Approved who (history ++ [r]) ↔
    Approved who history ∨ r.event = .approve who true := by
  simp [Approved, or_and_right, exists_or]

theorem disputed_append :
    Disputed (history ++ [r]) ↔ Disputed history ∨ ∃ who, r.event = .dispute who := by
  simp [Disputed, or_and_right, exists_or]

theorem ratified_append (h : ∀ who, r.event ≠ .approve who true) :
    Ratified t (history ++ [r]) ↔ Ratified t history := by
  simp [Ratified, approved_append, h]

theorem Terms.agent_ne_party {party : P} (h : party = t.sender ∨ party = t.receiver) :
    t.agent ≠ party := by
  rcases h with rfl | rfl
  · exact t.agent_ne_sender
  · exact t.agent_ne_receiver

end History

/-! ## The contract -/

variable [DecidableEq P]

inductive Step (t : Terms P) : Phase → Record P → Phase → Prop
  | approve {a b : Bool} {time : ℕ} {who : P} (hwho : who = t.receiver ∨ who = t.agent)
      (hfirst : ((a || decide (who = t.receiver)) && (b || decide (who = t.agent))) = false) :
      Step t (.offered a b) ⟨time, .approve who true, 0⟩
        (.offered (a || decide (who = t.receiver)) (b || decide (who = t.agent)))
  | ratify {a b : Bool} {time : ℕ} {who : P} (hwho : who = t.receiver ∨ who = t.agent)
      (hboth : ((a || decide (who = t.receiver)) && (b || decide (who = t.agent))) = true) :
      Step t (.offered a b) ⟨time, .approve who true, Pi.single t.agent t.fee⟩
        (.running t.amount false)
  | reject {a b : Bool} {time : ℕ} {who : P} :
      Step t (.offered a b)
        ⟨time, .approve who false, Pi.single t.sender (t.amount + t.fee)⟩ .closed
  | expire {a b : Bool} {time : ℕ} :
      Step t (.offered a b) ⟨time, .expire, Pi.single t.sender (t.amount + t.fee)⟩ .closed
  | dispute {rest : ℤ} {time : ℕ} {who : P} :
      Step t (.running rest false) ⟨time, .dispute who, 0⟩ (.running rest true)
  | release {rest : ℤ} {disputed : Bool} {time : ℕ} {who receiver : P} {amount : ℤ}
      (hrest : amount < rest) (hreceiver : receiver = t.sender ∨ receiver = t.receiver)
      (hmay : MayRelease t disputed time who receiver) :
      Step t (.running rest disputed)
        ⟨time, .release who receiver amount, Pi.single receiver amount⟩
        (.running (rest - amount) disputed)
  | finish {rest : ℤ} {disputed : Bool} {time : ℕ} {who receiver : P}
      (hreceiver : receiver = t.sender ∨ receiver = t.receiver)
      (hmay : MayRelease t disputed time who receiver) :
      Step t (.running rest disputed) ⟨time, .release who receiver rest, Pi.single receiver rest⟩
        .closed

/-! ## Credits -/

def Terms.parties (t : Terms P) : Finset P := {t.sender, t.receiver, t.agent}

/-- The three parties were credited a total, and nobody else anything. -/
def Credits (t : Terms P) (credit : P → ℤ) (total : ℤ) : Prop :=
  ∑ party ∈ t.parties, credit party = total ∧ ∀ party ∉ t.parties, credit party = 0

/-- What the history of an escrow in a phase has paid. -/
def Accounted (t : Terms P) (history : List (Record P)) : Phase → Prop
  | .offered a b => (a = true ↔ Approved t.receiver history) ∧
      (b = true ↔ Approved t.agent history) ∧ (a && b) = false ∧ ¬ Disputed history ∧
      paid history = 0
  | .running rest disputed => Ratified t history ∧ (disputed = true ↔ Disputed history) ∧
      paid history t.agent = t.fee ∧ Credits t (paid history) (t.amount + t.fee - rest)
  | .closed => (Ratified t history → paid history t.agent = t.fee) ∧
      (¬ Ratified t history → paid history = Pi.single t.sender (t.amount + t.fee)) ∧
      Credits t (paid history) (t.amount + t.fee)

/-- A record that follows a history: the agent is paid when both have approved, and releases keep
to the rules. -/
structure Proper (t : Terms P) (before : List (Record P)) (r : Record P) : Prop where
  fee : ¬ Ratified t before → Ratified t (before ++ [r]) → r.credit = Pi.single t.agent t.fee
  noFee : Ratified t before ∨ ¬ Ratified t (before ++ [r]) → r.credit t.agent = 0
  release : ∀ who receiver amount, r.event = .release who receiver amount → Ratified t before ∧
    (receiver = t.sender ∨ receiver = t.receiver) ∧ r.credit = Pi.single receiver amount ∧
    (Disputed before → who = t.agent) ∧
    (¬ Disputed before → r.time < t.expiration →
      who = t.sender ∧ receiver = t.receiver ∨ who = t.receiver ∧ receiver = t.sender)

section Credits

variable {t : Terms P}

theorem credits_single {party : P} (hparty : party ∈ t.parties) (total : ℤ) :
    Credits t (Pi.single party total) total := by
  refine ⟨?_, fun other hother ↦ ?_⟩
  · rw [Finset.sum_pi_single', if_pos hparty]
  · apply Pi.single_eq_of_ne
    intro h
    exact hother (h ▸ hparty)

theorem Credits.add {credit credit' : P → ℤ} {total total' : ℤ} (h : Credits t credit total)
    (h' : Credits t credit' total') : Credits t (credit + credit') (total + total') := by
  refine ⟨?_, fun party hparty ↦ ?_⟩
  · simp only [Pi.add_apply, Finset.sum_add_distrib, h.1, h'.1]
  · rw [Pi.add_apply, h.2 party hparty, h'.2 party hparty, add_zero]

theorem agent_single {party : P} (h : party = t.sender ∨ party = t.receiver) (amount : ℤ) :
    (Pi.single party amount : P → ℤ) t.agent = 0 := by
  apply Pi.single_eq_of_ne
  exact Terms.agent_ne_party h

theorem Terms.sender_mem (t : Terms P) : t.sender ∈ t.parties := by simp [parties]

theorem Terms.agent_mem (t : Terms P) : t.agent ∈ t.parties := by simp [parties]

theorem Terms.party_mem {party : P} (h : party = t.sender ∨ party = t.receiver) :
    party ∈ t.parties := by
  rcases h with rfl | rfl <;> simp [parties]

end Credits

/-! ## Runs -/

section Runs

variable {t : Terms P} {history : List (Record P)} {phase phase' : Phase} {r : Record P}

theorem accounted_nil : Accounted t [] (.offered false false) := by
  simp [Accounted, Approved, Disputed, paid]

/-- A release follows a ratified history and pays one of sender and receiver. -/
theorem release_proper {rest : ℤ} {disputed : Bool} {time : ℕ} {who receiver : P} {amount : ℤ}
    (h : Accounted t history (.running rest disputed))
    (hreceiver : receiver = t.sender ∨ receiver = t.receiver)
    (hmay : MayRelease t disputed time who receiver) :
    Proper t history ⟨time, .release who receiver amount, Pi.single receiver amount⟩ := by
  obtain ⟨hratified, hdisputed, -, -⟩ := h
  refine ⟨fun hnot ↦ absurd hratified hnot, fun _ ↦ ?_, ?_⟩
  · exact agent_single hreceiver amount
  · rintro _ _ _ ⟨⟩
    refine ⟨hratified, hreceiver, rfl, fun hdispute ↦ ?_, fun hnot hearly ↦ ?_⟩
    · rwa [MayRelease, if_pos (hdisputed.2 hdispute)] at hmay
    · rw [MayRelease, if_neg fun hd ↦ hnot (hdisputed.1 hd)] at hmay
      exact hmay.2 hearly

/-- A refund pays all to the sender. -/
theorem refund_spec {a b : Bool} {time : ℕ} {event : Event P}
    (h : Accounted t history (.offered a b)) (happrove : ∀ who, event ≠ .approve who true)
    (hrelease : ∀ who receiver amount, event ≠ .release who receiver amount) :
    Accounted t (history ++ [⟨time, event, Pi.single t.sender (t.amount + t.fee)⟩]) .closed ∧
      Proper t history ⟨time, event, Pi.single t.sender (t.amount + t.fee)⟩ := by
  obtain ⟨hreceiver, hagent, hopen, -, hpaid⟩ := h
  have hsame : ∀ credit, Ratified t (history ++ [⟨time, event, credit⟩]) ↔ Ratified t history :=
    fun credit ↦ ratified_append happrove
  have hnot : ¬ Ratified t history := by
    rintro ⟨hr, ha⟩
    rw [hreceiver.2 hr, hagent.2 ha] at hopen
    cases hopen
  refine ⟨⟨fun h ↦ absurd ((hsame _).1 h) hnot, fun _ ↦ ?_, ?_⟩,
    fun _ h ↦ absurd ((hsame _).1 h) hnot,
    fun _ ↦ agent_single (.inl rfl) _, fun who receiver amount h ↦ absurd h (hrelease _ _ _)⟩
  · rw [paid_append, hpaid, zero_add]
  · rw [paid_append, hpaid, zero_add]
    exact credits_single t.sender_mem _

theorem Step.spec (hstep : Step t phase r phase') (h : Accounted t history phase) :
    Accounted t (history ++ [r]) phase' ∧ Proper t history r := by
  cases hstep with
  | @approve a b time who hwho hfirst =>
    obtain ⟨hreceiver, hagent, -, hdisputed, hpaid⟩ := h
    have happroved : ((a || decide (who = t.receiver)) = true ↔
        Approved t.receiver (history ++ [⟨time, .approve who true, 0⟩])) ∧
        ((b || decide (who = t.agent)) = true ↔
          Approved t.agent (history ++ [⟨time, .approve who true, 0⟩])) := by
      simp [approved_append, hreceiver, hagent]
    have hnot : ¬ Ratified t (history ++ [⟨time, .approve who true, 0⟩]) := by
      rintro ⟨hr, ha⟩
      rw [happroved.1.2 hr, happroved.2.2 ha] at hfirst
      cases hfirst
    refine ⟨⟨happroved.1, happroved.2, hfirst, ?_, ?_⟩, fun _ hr ↦ absurd hr hnot, fun _ ↦ rfl, ?_⟩
    · simp [disputed_append, hdisputed]
    · rw [paid_append, hpaid, add_zero]
    · rintro _ _ _ ⟨⟩
  | @ratify a b time who hwho hboth =>
    obtain ⟨hreceiver, hagent, hopen, hdisputed, hpaid⟩ := h
    have hratified : Ratified t
        (history ++ [⟨time, .approve who true, Pi.single t.agent t.fee⟩]) := by
      rw [Bool.and_eq_true, Bool.or_eq_true, Bool.or_eq_true, decide_eq_true_eq,
        decide_eq_true_eq, hreceiver, hagent] at hboth
      refine ⟨approved_append.2 (hboth.1.imp_right ?_), approved_append.2 (hboth.2.imp_right ?_)⟩
      · rintro rfl
        rfl
      · rintro rfl
        rfl
    have hbefore : ¬ Ratified t history := by
      rintro ⟨hr, ha⟩
      rw [hreceiver.2 hr, hagent.2 ha] at hopen
      cases hopen
    refine ⟨⟨hratified, ?_, ?_, ?_⟩, fun _ _ ↦ rfl, fun h ↦ ?_, ?_⟩
    · simp [disputed_append, hdisputed]
    · rw [paid_append, hpaid, zero_add, Pi.single_eq_same]
    · rw [paid_append, hpaid, zero_add, add_sub_cancel_left]
      exact credits_single t.agent_mem t.fee
    · exact (h.elim hbefore fun hnot ↦ hnot hratified).elim
    · rintro _ _ _ ⟨⟩
  | @reject a b time who =>
    exact refund_spec h (fun _ h ↦ (by cases h)) fun _ _ _ h ↦ (by cases h)
  | @expire a b time => exact refund_spec h (fun _ h ↦ (by cases h)) fun _ _ _ h ↦ (by cases h)
  | @dispute rest time who =>
    obtain ⟨hratified, -, hfee, hcredits⟩ := h
    have hsame : Ratified t (history ++ [⟨time, .dispute who, 0⟩]) ↔ Ratified t history :=
      ratified_append fun _ h ↦ (by cases h)
    refine ⟨⟨hsame.2 hratified, ?_, ?_, ?_⟩, fun hnot ↦ absurd hratified hnot, fun _ ↦ rfl, ?_⟩
    · simp [disputed_append]
    · rw [paid_append, add_zero, hfee]
    · rwa [paid_append, add_zero]
    · rintro _ _ _ ⟨⟩
  | @release rest disputed time who receiver amount hrest hreceiver hmay =>
    refine ⟨?_, release_proper h hreceiver hmay⟩
    obtain ⟨hratified, hdisputed, hfee, hcredits⟩ := h
    refine ⟨(ratified_append fun _ h ↦ (by cases h)).2 hratified, ?_, ?_, ?_⟩
    · simp [disputed_append, hdisputed]
    · rw [paid_append, Pi.add_apply, hfee, agent_single hreceiver, add_zero]
    · have htotal := hcredits.add (credits_single (Terms.party_mem hreceiver) amount)
      rw [paid_append]
      convert htotal using 1
      ring
  | @finish rest disputed time who receiver hreceiver hmay =>
    refine ⟨?_, release_proper h hreceiver hmay⟩
    obtain ⟨hratified, hdisputed, hfee, hcredits⟩ := h
    have hsame :
        Ratified t (history ++ [⟨time, .release who receiver rest, Pi.single receiver rest⟩]) :=
      (ratified_append fun _ h ↦ (by cases h)).2 hratified
    refine ⟨fun _ ↦ ?_, fun hnot ↦ absurd hsame hnot, ?_⟩
    · rw [paid_append, Pi.add_apply, hfee, agent_single hreceiver, add_zero]
    · have htotal := hcredits.add (credits_single (Terms.party_mem hreceiver) rest)
      rw [paid_append]
      convert htotal using 1
      ring

/-- A run from an accounted history stays accounted, and every record of it is proper. -/
theorem run_spec (history : List (Record P)) {records : List (Record P)}
    (hrun : Run (Step t) phase records phase')
    (h : Accounted t history phase) :
    Accounted t (history ++ records) phase' ∧
      ∀ before r after, records = before ++ r :: after → Proper t (history ++ before) r := by
  induction hrun generalizing history with
  | nil _ =>
    refine ⟨by rwa [List.append_nil], fun before r after hsplit ↦ ?_⟩
    simp at hsplit
  | @cons phase phase₁ phase₂ first rest hfirst _ ih =>
    obtain ⟨haccounted, hproper⟩ := hfirst.spec h
    obtain ⟨hall, hrest⟩ := ih _ haccounted
    rw [List.append_assoc, List.singleton_append] at hall
    refine ⟨hall, fun before r after hsplit ↦ ?_⟩
    cases before with
    | nil =>
      cases hsplit
      rwa [List.append_nil]
    | cons other before =>
      cases hsplit
      have hlater := hrest before r after rfl
      rwa [List.append_assoc, List.singleton_append] at hlater

end Runs

end SophiaTX.Contract
