import SophiaTX.Chain.Genesis
import SophiaTX.Lib.Cursor
import SophiaTX.Plugins.NetworkBroadcast

/-!
# Callers get the answer of the first block that has one

Every caller waits on its own, as if there were a callback for it alone: the shared maps answer it
from the first applied block that contains its transaction or comes after its expiration. No
callback meets a promise that is gone or set.
-/

namespace SophiaTX.Plugins

open SophiaTX.Protocol SophiaTX.Lib

variable {server : BroadcastServer} {sent : Set Transaction} {s s' : Broadcasts}
  {rs : List BroadcastResult}

namespace Broadcasts

/-! ## Answers -/

/-- Callbacks belong to calls that still wait, each of them under its own transaction. -/
def Live (server : BroadcastServer) (s : Broadcasts) : Prop :=
  ∀ id c, s.callbacks.find? id = some c → ∃ call, s.calls[c]? = some call ∧
    server.env.trxId call.trx = id ∧ call.stage ≠ .returned ∧ call.stage ≠ .thrown ∧
      call.promise = none

/-- The first answer for a transaction. -/
def firstAnswer (rs : List BroadcastResult) (id : ℕ) : Option BroadcastResult :=
  rs.find? fun r ↦ r.id = id

/-- The state after some answers: they reach the calls with a callback. -/
structure AfterAnswers (server : BroadcastServer) (rs : List BroadcastResult) (s s' : Broadcasts) :
    Prop where
  callbacks : ∀ id, s'.callbacks.find? id =
    if (firstAnswer rs id).isSome then none else s.callbacks.find? id
  calls : ∀ c, s'.calls[c]? = (s.calls[c]?).map fun call ↦
    if s.callbacks.find? (server.env.trxId call.trx) = some c then
      { call with promise := firstAnswer rs (server.env.trxId call.trx) }
    else call
  callbackExpirations : s'.callbackExpirations = s.callbackExpirations
  length : s'.calls.length = s.calls.length

@[simp]
theorem firstAnswer_singleton (r : BroadcastResult) (id : ℕ) :
    firstAnswer [r] id = if r.id = id then some r else none := by
  unfold firstAnswer
  rw [List.find?_cons]
  by_cases hid : r.id = id <;> simp [hid]

/-- A call without an answer stays as it is. -/
theorem Live.unanswered (h : Live server s) {c : ℕ} {call : SyncCall} (hc : s.calls[c]? = some call)
    {answer : Option BroadcastResult}
    (hanswer : s.callbacks.find? (server.env.trxId call.trx) = some c → answer = none) :
    (if s.callbacks.find? (server.env.trxId call.trx) = some c then { call with promise := answer }
      else call) = call := by
  split_ifs with hcallback
  · obtain ⟨call', hcall', _, _, _, hpromise⟩ := h _ c hcallback
    rw [hc] at hcall'
    cases hcall'
    rw [hanswer hcallback, ← hpromise]
  · rfl

theorem AfterAnswers.refl (h : Live server s)
    (hrs : ∀ id, (s.callbacks.find? id).isSome → firstAnswer rs id = none) :
    AfterAnswers server rs s s := by
  refine ⟨fun id ↦ ?_, fun c ↦ ?_, rfl, rfl⟩
  · split_ifs with hsome
    · cases hcallback : s.callbacks.find? id with
      | none => rfl
      | some c =>
        rw [hrs id (hcallback ▸ rfl)] at hsome
        cases hsome
    · rfl
  · cases hc : s.calls[c]? with
    | none => rfl
    | some call =>
      rw [Option.map_some, h.unanswered hc fun hcallback ↦ hrs _ (hcallback ▸ rfl)]

theorem setValue_eq_ok {c : ℕ} {r : BroadcastResult} {call : SyncCall}
    (hc : s.calls[c]? = some call) (hreturned : call.stage ≠ .returned)
    (hthrown : call.stage ≠ .thrown) (hpromise : call.promise = none) :
    s.setValue c r = .ok { s with calls := s.calls.set c { call with promise := some r } } := by
  simp [setValue, hc, hreturned, hthrown, hpromise]

theorem answer_spec (h : Live server s) (r : BroadcastResult) :
    ∃ s', s.answer r = .ok s' ∧ Live server s' ∧ AfterAnswers server [r] s s' := by
  unfold answer
  cases hr : s.callbacks.find? r.id with
  | none =>
    refine ⟨s, rfl, h, .refl h fun id hid ↦ ?_⟩
    rw [firstAnswer_singleton, if_neg]
    rintro rfl
    rw [hr] at hid
    cases hid
  | some c =>
    obtain ⟨call, hc, hid, hreturned, hthrown, hpromise⟩ := h r.id c hr
    have hlt : c < s.calls.length := (List.getElem?_eq_some_iff.1 hc).1
    have hset : ∀ c', (s.calls.set c { call with promise := some r })[c']? =
        if c' = c then some { call with promise := some r } else s.calls[c']? := by
      intro c'
      rw [List.getElem?_set]
      by_cases hcc : c = c'
      · simp [hcc, hcc ▸ hlt]
      · rw [if_neg hcc, if_neg (Ne.symm hcc)]
    dsimp only
    rw [setValue_eq_ok hc hreturned hthrown hpromise]
    refine ⟨_, rfl, fun id c' hcallback ↦ ?_, fun id ↦ ?_, fun c' ↦ ?_, rfl, ?_⟩
    · dsimp only at hcallback ⊢
      rw [Table.find?_erase] at hcallback
      split_ifs at hcallback with hne
      obtain ⟨call', hcall', hid', hrest⟩ := h id c' hcallback
      refine ⟨call', ?_, hid', hrest⟩
      rw [hset, if_neg, hcall']
      rintro rfl
      rw [hc] at hcall'
      cases hcall'
      exact hne (hid'.symm.trans hid)
    · rw [Table.find?_erase, firstAnswer_singleton]
      by_cases heq : id = r.id
      · simp [heq]
      · simp [heq, Ne.symm heq]
    · dsimp only
      rw [hset]
      by_cases hcc : c' = c
      · subst hcc
        rw [if_pos rfl, hc, Option.map_some, hid, if_pos hr, firstAnswer_singleton, if_pos rfl]
      · rw [if_neg hcc]
        cases hc' : s.calls[c']? with
        | none => rfl
        | some call' =>
          rw [Option.map_some, h.unanswered hc']
          intro hcallback
          rw [firstAnswer_singleton, if_neg]
          intro heq
          rw [← heq, hr] at hcallback
          exact hcc (Option.some.inj hcallback).symm
    · exact List.length_set

theorem answers_spec (h : Live server s) (rs : List BroadcastResult) :
    ∃ s', rs.foldlM answer s = .ok s' ∧ Live server s' ∧ AfterAnswers server rs s s' := by
  induction rs generalizing s with
  | nil => exact ⟨s, rfl, h, .refl h fun _ _ ↦ rfl⟩
  | cons r rest ih =>
    obtain ⟨s₁, hs₁, hlive₁, hafter₁⟩ := answer_spec h r
    obtain ⟨s', hs', hlive, hafter⟩ := ih hlive₁
    have hfirst : ∀ id, firstAnswer (r :: rest) id =
        if r.id = id then some r else firstAnswer rest id := by
      intro id
      unfold firstAnswer
      rw [List.find?_cons]
      by_cases hid : r.id = id <;> simp [hid]
    refine ⟨s', ?_, hlive, fun id ↦ ?_, fun c ↦ ?_, ?_, ?_⟩
    · rw [List.foldlM_cons]
      exact bind_eq_ok.2 ⟨s₁, hs₁, hs'⟩
    · rw [hafter.callbacks, hafter₁.callbacks, hfirst, firstAnswer_singleton]
      by_cases hid : r.id = id <;> simp [hid]
    · rw [hafter.calls, hafter₁.calls, Option.map_map]
      cases hc : s.calls[c]? with
      | none => rfl
      | some call =>
        rw [Option.map_some, Option.map_some, Option.some.injEq, Function.comp_apply]
        by_cases hcallback : s.callbacks.find? (server.env.trxId call.trx) = some c
        · simp only [hcallback, if_true, hafter₁.callbacks, firstAnswer_singleton, hfirst]
          by_cases hid : r.id = server.env.trxId call.trx <;> simp [hid]
        · rw [if_neg hcallback, if_neg hcallback, if_neg]
          rw [hafter₁.callbacks]
          split_ifs
          · exact not_false
          · exact hcallback
    · exact hafter.callbackExpirations.trans hafter₁.callbackExpirations
    · exact hafter.length.trans hafter₁.length

/-! ## The answers of a block -/

/-- The transactions whose expiration a block comes after. -/
def dueResults (b : SignedBlock) (expirations : List (Time × List ℕ)) : List BroadcastResult :=
  (expirations.takeWhile fun entry ↦ decide (entry.1 < b.timestamp)).flatMap fun entry ↦
    entry.2.map (expiredResult b)

def notDue (b : SignedBlock) (expirations : List (Time × List ℕ)) : List (Time × List ℕ) :=
  expirations.dropWhile fun entry ↦ decide (entry.1 < b.timestamp)

def includedResults (server : BroadcastServer) (b : SignedBlock) : List BroadcastResult :=
  b.transactions.zipIdx.map (includedResult server b)

theorem clearExpirations_eq (b : SignedBlock) (expirations : List (Time × List ℕ))
    (s : Broadcasts) : clearExpirations b expirations s = (do
      let s ← (dueResults b expirations).foldlM answer s
      .ok { s with callbackExpirations := notDue b expirations }) := by
  induction expirations generalizing s with
  | nil => rfl
  | cons entry rest ih =>
    obtain ⟨time, ids⟩ := entry
    unfold clearExpirations dueResults notDue
    by_cases hdue : time < b.timestamp
    · rw [if_neg (not_le.2 hdue), List.takeWhile_cons_of_pos (by simpa using hdue),
        List.dropWhile_cons_of_pos (by simpa using hdue), List.flatMap_cons, List.foldlM_append,
        List.foldlM_map, bind_assoc]
      exact bind_congr fun s ↦ ih s
    · rw [if_pos (not_lt.1 hdue), List.takeWhile_cons_of_neg (by simpa using hdue),
        List.dropWhile_cons_of_neg (by simpa using hdue)]
      rfl

theorem answers_of_empty (hempty : s.callbacks.size = 0) (rs : List BroadcastResult) :
    rs.foldlM answer s = .ok s := by
  have hnone : ∀ id, s.callbacks.find? id = none := by
    intro id
    rw [Table.find?_eq_none_iff, Table.keys, List.length_eq_zero_iff.1 hempty]
    exact List.not_mem_nil
  induction rs with
  | nil => rfl
  | cons r rest ih =>
    have hr : s.answer r = .ok s := by
      unfold answer
      rw [hnone]
    rw [List.foldlM_cons, hr]
    exact ih

/-- A block gives the answers for its transactions first, and then those for what has expired. -/
theorem onAppliedBlock_spec (h : Live server s) (b : SignedBlock) :
    ∃ s₁, s.onAppliedBlock server b =
        .ok { s₁ with callbackExpirations := notDue b s.callbackExpirations } ∧ Live server s₁ ∧
      AfterAnswers server
        (includedResults server b ++ dueResults b s.callbackExpirations) s s₁ := by
  obtain ⟨s₁, hs₁, hlive, hafter⟩ :=
    answers_spec h (includedResults server b ++ dueResults b s.callbackExpirations)
  refine ⟨s₁, ?_, hlive, hafter⟩
  have hincluded : (if s.callbacks.size ≠ 0 then
      b.transactions.zipIdx.foldlM (fun s entry ↦ s.answer (includedResult server b entry)) s
    else .ok s) = (includedResults server b).foldlM answer s := by
    rw [includedResults, List.foldlM_map]
    split_ifs with hsize
    · rfl
    · rw [← List.foldlM_map, answers_of_empty (not_not.1 hsize)]
  rw [List.foldlM_append] at hs₁
  obtain ⟨s₂, hs₂, hs₁⟩ := bind_eq_ok.1 hs₁
  obtain ⟨s₂', hs₂', _, hafter₂⟩ := answers_spec h (includedResults server b)
  rw [hs₂] at hs₂'
  cases hs₂'
  unfold onAppliedBlock
  rw [hincluded, hs₂]
  show clearExpirations b s₂.callbackExpirations s₂ = _
  rw [clearExpirations_eq, hafter₂.callbackExpirations, hs₁]
  rfl

/-- Transactions with one id expire at one time: the id is a hash of the transaction. -/
def SeparatesExpirations (server : BroadcastServer) (sent : Set Transaction) : Prop :=
  ∀ trx ∈ sent, ∀ trx' ∈ sent, server.env.trxId trx = server.env.trxId trx' →
    trx.expiration = trx'.expiration

/-- The expirations are in order, and every transaction that was sent is filed under its own. -/
structure Filed (server : BroadcastServer) (sent : Set Transaction) (s : Broadcasts) : Prop where
  sorted : s.callbackExpirations.Pairwise fun entry entry' ↦ entry.1 < entry'.1
  own : ∀ entry ∈ s.callbackExpirations, ∀ trx ∈ sent, server.env.trxId trx ∈ entry.2 →
    trx.expiration = entry.1
  waiting : ∀ trx ∈ sent, (s.callbacks.find? (server.env.trxId trx)).isSome →
    ∃ entry ∈ s.callbackExpirations, server.env.trxId trx ∈ entry.2
  sent : ∀ (c : ℕ) call, s.calls[c]? = some call → call.trx ∈ sent

theorem firstAnswer_zipIdx (b : SignedBlock) (id : ℕ) (trxs : List Transaction) (start : ℕ) :
    firstAnswer ((trxs.zipIdx start).map (includedResult server b)) id =
      (trxs.findIdx? fun trx ↦ server.env.trxId trx = id).map fun num ↦
        ⟨id, toInt32 b.blockNum, toInt32 (start + num), false⟩ := by
  unfold firstAnswer
  induction trxs generalizing start with
  | nil => rfl
  | cons trx rest ih =>
    rw [List.zipIdx_cons, List.map_cons, List.find?_cons, List.findIdx?_cons]
    by_cases hid : server.env.trxId trx = id
    · simp [includedResult, hid]
    · have hstep : ∀ num, start + 1 + num = start + (num + 1) := by omega
      simp [includedResult, hid, ih, hstep, Function.comp_def]

theorem firstAnswer_included (b : SignedBlock) (id : ℕ) :
    firstAnswer (includedResults server b) id =
      (b.transactions.findIdx? fun trx ↦ server.env.trxId trx = id).map fun num ↦
        ⟨id, toInt32 b.blockNum, toInt32 num, false⟩ := by
  rw [includedResults, firstAnswer_zipIdx]
  simp only [Nat.zero_add]

theorem mem_dueResults {b : SignedBlock} {expirations : List (Time × List ℕ)}
    {r : BroadcastResult} (hsorted : expirations.Pairwise fun entry entry' ↦ entry.1 < entry'.1) :
    r ∈ dueResults b expirations ↔
      ∃ entry ∈ expirations, entry.1 < b.timestamp ∧ ∃ id ∈ entry.2, r = expiredResult b id := by
  have hmem : ∀ entry, entry ∈ expirations.takeWhile (fun entry ↦ decide (entry.1 < b.timestamp)) ↔
      entry ∈ expirations ∧ entry.1 < b.timestamp := by
    intro entry
    constructor
    · intro hentry
      exact ⟨(List.takeWhile_sublist _).subset hentry,
        of_decide_eq_true (List.mem_takeWhile_imp
          (p := fun entry : Time × List ℕ ↦ decide (entry.1 < b.timestamp)) hentry)⟩
    · rintro ⟨hentry, hdue⟩
      exact mem_takeWhile_of_pairwise hsorted hentry (decide_eq_true hdue)
        fun other _ hless ↦ decide_eq_true (lt_trans hless hdue)
  simp only [dueResults, List.mem_flatMap, hmem, List.mem_map, and_assoc, eq_comm]

theorem firstAnswer_due (h : Filed server sent s) (b : SignedBlock) {trx : Transaction}
    (htrx : trx ∈ sent) (hwaits : (s.callbacks.find? (server.env.trxId trx)).isSome) :
    firstAnswer (dueResults b s.callbackExpirations) (server.env.trxId trx) =
      if trx.expiration < b.timestamp then some (expiredResult b (server.env.trxId trx))
      else none := by
  obtain ⟨filed, hfiled, hmem⟩ := h.waiting trx htrx hwaits
  have hown := h.own filed hfiled trx htrx hmem
  unfold firstAnswer
  split_ifs with hexpired
  · obtain ⟨r, hr⟩ : ∃ r, (dueResults b s.callbackExpirations).find?
        (fun r ↦ decide (r.id = server.env.trxId trx)) = some r := by
      rw [← Option.isSome_iff_exists, List.find?_isSome]
      refine ⟨expiredResult b (server.env.trxId trx), ?_, decide_eq_true rfl⟩
      exact (mem_dueResults h.sorted).2 ⟨filed, hfiled, hown ▸ hexpired, _, hmem, rfl⟩
    obtain ⟨_, _, _, id, _, hresult⟩ :=
      (mem_dueResults h.sorted).1 (List.mem_of_find?_eq_some hr)
    have hid := List.find?_some hr
    rw [decide_eq_true_eq, hresult] at hid
    obtain rfl : id = server.env.trxId trx := hid
    rw [hr, hresult]
  · rw [List.find?_eq_none]
    intro r hr hid
    obtain ⟨entry, hentry, hlt, id, hmem', hresult⟩ := (mem_dueResults h.sorted).1 hr
    rw [hresult] at hid
    obtain rfl : id = server.env.trxId trx := of_decide_eq_true hid
    rw [← h.own entry hentry trx htrx hmem'] at hlt
    exact hexpired hlt

/-- A waiting call gets the answer that the block has for its transaction alone. -/
theorem firstAnswer_eq (h : Filed server sent s) (b : SignedBlock) {trx : Transaction}
    (htrx : trx ∈ sent) (hwaits : (s.callbacks.find? (server.env.trxId trx)).isSome) :
    firstAnswer (includedResults server b ++ dueResults b s.callbackExpirations)
      (server.env.trxId trx) = answerOf server trx b := by
  have happend : firstAnswer (includedResults server b ++ dueResults b s.callbackExpirations)
      (server.env.trxId trx) = (firstAnswer (includedResults server b) (server.env.trxId trx)).or
        (firstAnswer (dueResults b s.callbackExpirations) (server.env.trxId trx)) :=
    List.find?_append
  rw [happend, firstAnswer_included, firstAnswer_due h b htrx hwaits, answerOf]
  cases b.transactions.findIdx? fun other ↦ server.env.trxId other = server.env.trxId trx <;> rfl

/-! ## The invariant -/

/-- What holds of a call that stands as its caller is to see it. -/
structure StandsAs (server : BroadcastServer) (s : Broadcasts) (c : ℕ) (call : SyncCall)
    (status : CallStatus) : Prop where
  made : status ≠ .absent
  promise : call.promise = status.answer
  own : ∀ trx, status = .unanswered trx → trx = call.trx
  waits : status = .unanswered call.trx ↔ s.callbacks.find? (server.env.trxId call.trx) = some c

/-- The shared maps agree with what every caller is to see. -/
structure Agrees (server : BroadcastServer) (sent : Set Transaction) (status : ℕ → CallStatus)
    (s : Broadcasts) : Prop where
  live : Live server s
  filed : Filed server sent s
  stands : ∀ c call, s.calls[c]? = some call → StandsAs server s c call (status c)
  absent : ∀ c, s.calls.length ≤ c → status c = .absent

variable {status : ℕ → CallStatus}

theorem mem_addExpiration {expiration : Time} {id : ℕ} {expirations : List (Time × List ℕ)}
    {entry : Time × List ℕ} (h : entry ∈ addExpiration expiration id expirations) :
    entry.1 = expiration ∧ entry.2 = [id] ∨ entry ∈ expirations ∨
      ∃ ids, (expiration, ids) ∈ expirations ∧ entry = (expiration, ids ++ [id]) := by
  induction expirations with
  | nil =>
    obtain rfl := List.mem_singleton.1 h
    exact .inl ⟨rfl, rfl⟩
  | cons first rest ih =>
    obtain ⟨time, ids⟩ := first
    unfold addExpiration at h
    split_ifs at h with hlt heq
    · rcases List.mem_cons.1 h with rfl | h
      · exact .inl ⟨rfl, rfl⟩
      · exact .inr (.inl h)
    · subst heq
      rcases List.mem_cons.1 h with rfl | h
      · exact .inr (.inr ⟨ids, List.mem_cons_self, rfl⟩)
      · exact .inr (.inl (List.mem_cons_of_mem _ h))
    · rcases List.mem_cons.1 h with rfl | h
      · exact .inr (.inl List.mem_cons_self)
      · rcases ih h with h | h | ⟨ids', hids, rfl⟩
        · exact .inl h
        · exact .inr (.inl (List.mem_cons_of_mem _ h))
        · exact .inr (.inr ⟨ids', List.mem_cons_of_mem _ hids, rfl⟩)

/-- What was filed stays filed, and the new transaction is. -/
theorem exists_addExpiration (expiration : Time) (id : ℕ) (expirations : List (Time × List ℕ)) :
    (∃ entry ∈ addExpiration expiration id expirations, id ∈ entry.2) ∧
      ∀ id', (∃ entry ∈ expirations, id' ∈ entry.2) →
        ∃ entry ∈ addExpiration expiration id expirations, id' ∈ entry.2 := by
  induction expirations with
  | nil =>
    refine ⟨⟨_, List.mem_singleton_self _, List.mem_singleton_self _⟩, ?_⟩
    rintro id' ⟨entry, hentry, _⟩
    exact absurd hentry List.not_mem_nil
  | cons first rest ih =>
    obtain ⟨time, ids⟩ := first
    unfold addExpiration
    split_ifs with hlt heq
    · refine ⟨⟨_, List.mem_cons_self, List.mem_singleton_self _⟩, ?_⟩
      rintro id' ⟨entry, hentry, hid'⟩
      exact ⟨entry, List.mem_cons_of_mem _ hentry, hid'⟩
    · refine ⟨⟨_, List.mem_cons_self, List.mem_append_right _ (List.mem_singleton_self _)⟩, ?_⟩
      rintro id' ⟨entry, hentry, hid'⟩
      rcases List.mem_cons.1 hentry with rfl | hentry
      · exact ⟨_, List.mem_cons_self, List.mem_append_left _ hid'⟩
      · exact ⟨entry, List.mem_cons_of_mem _ hentry, hid'⟩
    · obtain ⟨⟨entry, hentry, hid⟩, hkept⟩ := ih
      refine ⟨⟨entry, List.mem_cons_of_mem _ hentry, hid⟩, ?_⟩
      rintro id' ⟨entry', hentry', hid'⟩
      rcases List.mem_cons.1 hentry' with rfl | hentry'
      · exact ⟨_, List.mem_cons_self, hid'⟩
      · obtain ⟨other, hother, hmem⟩ := hkept id' ⟨entry', hentry', hid'⟩
        exact ⟨other, List.mem_cons_of_mem _ hother, hmem⟩

theorem addExpiration_sorted {expiration : Time} {id : ℕ} {expirations : List (Time × List ℕ)}
    (h : expirations.Pairwise fun entry entry' ↦ entry.1 < entry'.1) :
    (addExpiration expiration id expirations).Pairwise fun entry entry' ↦ entry.1 < entry'.1 := by
  induction expirations with
  | nil => exact List.pairwise_singleton _ _
  | cons first rest ih =>
    obtain ⟨time, ids⟩ := first
    obtain ⟨hless, hrest⟩ := List.pairwise_cons.1 h
    unfold addExpiration
    split_ifs with hlt heq
    · refine List.pairwise_cons.2 ⟨fun entry hentry ↦ ?_, h⟩
      rcases List.mem_cons.1 hentry with rfl | hentry
      · exact hlt
      · exact hlt.trans (hless entry hentry)
    · exact List.pairwise_cons.2 ⟨hless, hrest⟩
    · refine List.pairwise_cons.2 ⟨fun entry hentry ↦ ?_, ih hrest⟩
      rcases mem_addExpiration hentry with ⟨hkey, _⟩ | hentry | ⟨ids', hids, rfl⟩
      · rw [hkey]
        exact lt_of_le_of_ne (not_lt.1 hlt) (Ne.symm heq)
      · exact hless entry hentry
      · show time < expiration
        exact hless _ hids

theorem Filed.register (h : Filed server sent s) {trx : Transaction} {callbacks : Table ℕ ℕ}
    {calls : List SyncCall} {last : Time} (hid : SeparatesExpirations server sent)
    (htrx : trx ∈ sent) (hcalls : ∀ (c : ℕ) call, calls[c]? = some call → call.trx ∈ sent)
    (hcallbacks : ∀ id, (callbacks.find? id).isSome →
      id = server.env.trxId trx ∨ (s.callbacks.find? id).isSome) :
    Filed server sent ⟨callbacks, addExpiration trx.expiration (server.env.trxId trx)
      s.callbackExpirations, last, calls⟩ := by
  obtain ⟨hnew, hkept⟩ :=
    exists_addExpiration trx.expiration (server.env.trxId trx) s.callbackExpirations
  refine ⟨addExpiration_sorted h.sorted, fun entry hentry trx' htrx' hmem ↦ ?_,
    fun trx' htrx' hsome ↦ ?_, hcalls⟩
  · rcases mem_addExpiration hentry with ⟨hkey, hids⟩ | hentry | ⟨ids, hids, rfl⟩
    · rw [hids, List.mem_singleton] at hmem
      exact (hid trx' htrx' trx htrx hmem).trans hkey.symm
    · exact h.own entry hentry trx' htrx' hmem
    · rcases List.mem_append.1 hmem with hmem | hmem
      · exact h.own _ hids trx' htrx' hmem
      · exact hid trx' htrx' trx htrx (List.mem_singleton.1 hmem)
  · rcases hcallbacks _ hsome with heq | hsome
    · rw [heq]
      exact hnew
    · exact hkept _ (h.waiting trx' htrx' hsome)

theorem next_of_quiet {c : ℕ} {status : CallStatus} {e : BroadcastEvent}
    (he : ∀ trx, status = .unanswered trx → (∀ c', e = .refused c' →
      ¬ Throws server (server.env.trxId trx) s c') ∧ ∀ b, e ≠ .appliedBlock b)
    (habsent : status ≠ .absent ∨ ∀ args readings, e = .call args readings →
      ¬ (s.registers server args readings = true ∧ s.calls.length = c)) :
    status.next server c (s, e) = status := by
  unfold CallStatus.next
  split
  · rename_i args readings he'
    rcases habsent with habsent | habsent
    · exact absurd rfl habsent
    · rw [if_neg (habsent args readings he')]
  · rename_i trx c' he'
    rw [if_neg ((he trx rfl).1 c' he')]
  · rename_i trx b he'
    exact absurd he' ((he trx rfl).2 b)
  · rfl

theorem Agrees.call (h : Agrees server sent status s) (hid : SeparatesExpirations server sent)
    (args : BroadcastArgs) (readings : Readings) (htrx : args.trx ∈ sent) :
    Agrees server sent (fun c ↦ (status c).next server c (s, .call args readings))
      (s.call server args readings) := by
  have hquiet : ∀ c, status c ≠ .absent →
      (status c).next server c (s, .call args readings) = status c := fun c hc ↦
    next_of_quiet (fun trx _ ↦ ⟨fun c' he ↦ (by cases he), fun b he ↦ by cases he⟩) (.inl hc)
  unfold Broadcasts.call
  dsimp only
  cases hregisters : s.registers server args readings with
  | false =>
    have hsame : ∀ c, (status c).next server c (s, .call args readings) = status c := by
      intro c
      refine next_of_quiet (fun trx _ ↦ ⟨fun c' he ↦ (by cases he), fun b he ↦ by cases he⟩)
        (.inr fun args' readings' he ↦ ?_)
      cases he
      rw [hregisters]
      exact fun ⟨h, _⟩ ↦ Bool.false_ne_true h
    simp only [hsame, Bool.false_eq_true, if_false]
    exact ⟨h.live, ⟨h.filed.sorted, h.filed.own, h.filed.waiting, h.filed.sent⟩,
      fun c call hc ↦ ⟨(h.stands c call hc).made, (h.stands c call hc).promise,
        (h.stands c call hc).own, (h.stands c call hc).waits⟩, h.absent⟩
  | true =>
    have hall := hregisters
    simp only [registers, Bool.and_eq_true, Option.isNone_iff_eq_none] at hregisters
    have hfree := hregisters.2
    have hfind : ∀ id, (s.callbacks.emplace (server.env.trxId args.trx) s.calls.length).find? id =
        if id = server.env.trxId args.trx then some s.calls.length else s.callbacks.find? id :=
      fun id ↦ Table.find?_emplace hfree _ id
    have hcalls : ∀ c, (s.calls ++ [⟨args.trx, .accepting, none⟩])[c]? =
        if c = s.calls.length then some ⟨args.trx, .accepting, none⟩ else s.calls[c]? := by
      intro c
      rcases lt_trichotomy c s.calls.length with hlt | rfl | hgt
      · rw [if_neg hlt.ne, List.getElem?_append_left hlt]
      · rw [if_pos rfl, List.getElem?_append_right le_rfl, Nat.sub_self]
        rfl
      · rw [if_neg hgt.ne', List.getElem?_eq_none hgt.le, List.getElem?_eq_none]
        rw [List.length_append, List.length_singleton]
        exact hgt
    have hbelow : ∀ id c, s.callbacks.find? id = some c → c ≠ s.calls.length := by
      rintro id c hcallback rfl
      obtain ⟨call, hcall, _⟩ := h.live id _ hcallback
      simp at hcall
    rw [if_pos rfl]
    refine ⟨fun id c hcallback ↦ ?_, ?_, fun c call hc ↦ ?_, fun c hc ↦ ?_⟩
    · dsimp only at hcallback ⊢
      rw [hcalls]
      rw [hfind] at hcallback
      split_ifs at hcallback with heq
      · cases hcallback
        rw [if_pos rfl]
        exact ⟨_, rfl, heq.symm, CallStage.noConfusion, CallStage.noConfusion, rfl⟩
      · rw [if_neg (hbelow id c hcallback)]
        exact h.live id c hcallback
    · refine h.filed.register hid htrx (fun c call hc ↦ ?_) fun id hsome ↦ ?_
      · rw [hcalls] at hc
        split_ifs at hc
        · cases hc
          exact htrx
        · exact h.filed.sent c call hc
      · rw [hfind] at hsome
        split_ifs at hsome with heq
        · exact .inl heq
        · exact .inr hsome
    · dsimp only at hc
      rw [hcalls] at hc
      split_ifs at hc with heq
      · cases hc
        have hnext : (status c).next server c (s, .call args readings) = .unanswered args.trx := by
          rw [h.absent c heq.ge]
          exact if_pos ⟨hall, heq.symm⟩
        rw [hnext]
        refine ⟨CallStatus.noConfusion, rfl, fun trx htrx ↦ ?_, iff_of_true rfl ?_⟩
        · cases htrx
          rfl
        · dsimp only
          rw [hfind, if_pos rfl, heq]
      · have hstands := h.stands c call hc
        rw [hquiet c hstands.made]
        refine ⟨hstands.made, hstands.promise, hstands.own, hstands.waits.trans ?_⟩
        dsimp only
        rw [hfind]
        split_ifs with heq'
        · rw [heq', hfree]
          simp [eq_comm, heq]
        · rfl
    · dsimp only at hc
      rw [List.length_append, List.length_singleton] at hc
      rw [h.absent c (Nat.le_of_succ_le hc)]
      exact if_neg fun ⟨_, hlength⟩ ↦ (Nat.lt_of_succ_le hc).ne hlength

/-- A call moves on, and callbacks of other transactions stay. -/
theorem Agrees.restage (h : Agrees server sent status s) {c : ℕ} {call : SyncCall}
    (stage : CallStage) (callbacks : Table ℕ ℕ) {status' : ℕ → CallStatus}
    (hc : s.calls[c]? = some call)
    (hkept : ∀ id c', callbacks.find? id = some c' → s.callbacks.find? id = some c')
    (hstage : callbacks.find? (server.env.trxId call.trx) = some c →
      stage ≠ .returned ∧ stage ≠ .thrown)
    (hstands : ∀ c' call', s.calls[c']? = some call' → (status' c').answer = (status c').answer ∧
      status' c' ≠ .absent ∧ (∀ trx, status' c' = .unanswered trx ↔ status c' = .unanswered trx ∧
        callbacks.find? (server.env.trxId call'.trx) = some c'))
    (habsent : ∀ c', s.calls.length ≤ c' → status' c' = .absent) :
    Agrees server sent status' { s with
      calls := s.calls.set c { call with stage := stage }, callbacks := callbacks } := by
  have hlt : c < s.calls.length := (List.getElem?_eq_some_iff.1 hc).1
  have hset : ∀ c', (s.calls.set c { call with stage := stage })[c']? =
      if c' = c then some { call with stage := stage } else s.calls[c']? := by
    intro c'
    rw [List.getElem?_set]
    by_cases hcc : c = c'
    · simp [hcc, hcc ▸ hlt]
    · rw [if_neg hcc, if_neg (Ne.symm hcc)]
  have hstands' : ∀ c' call', s.calls[c']? = some call' → ∀ call'' : SyncCall,
      call''.trx = call'.trx → call''.promise = call'.promise → StandsAs server { s with
        calls := s.calls.set c { call with stage := stage }, callbacks := callbacks } c' call''
          (status' c') := by
    intro c' call' hc' call'' htrx hpromise
    obtain ⟨hanswer, hmade, hwaits⟩ := hstands c' call' hc'
    have hold := h.stands c' call' hc'
    refine ⟨hmade, ?_, fun trx hunanswered ↦ ?_, ?_⟩
    · rw [hpromise, hold.promise, hanswer]
    · rw [htrx]
      exact hold.own trx ((hwaits trx).1 hunanswered).1
    · rw [htrx, hwaits, hold.waits]
      exact ⟨And.right, fun hcallback ↦ ⟨hkept _ _ hcallback, hcallback⟩⟩
  refine ⟨fun id c' hcallback ↦ ?_, ⟨h.filed.sorted, h.filed.own, fun trx htrx hsome ↦ ?_,
    fun c' call' hc' ↦ ?_⟩, fun c' call' hc' ↦ ?_, fun c' hc' ↦ habsent c' (by simpa using hc')⟩
  · have hlive := h.live id c' (hkept id c' hcallback)
    obtain ⟨call', hcall', hid, hreturned, hthrown, hpromise⟩ := hlive
    dsimp only
    rw [hset]
    split_ifs with heq
    · subst heq
      rw [hc] at hcall'
      cases hcall'
      obtain ⟨hreturned', hthrown'⟩ := hstage (hid.symm ▸ hcallback)
      exact ⟨_, rfl, hid, hreturned', hthrown', hpromise⟩
    · exact ⟨call', hcall', hid, hreturned, hthrown, hpromise⟩
  · obtain ⟨c', hcallback⟩ := Option.isSome_iff_exists.1 hsome
    exact h.filed.waiting trx htrx (Option.isSome_iff_exists.2 ⟨c', hkept _ _ hcallback⟩)
  · dsimp only at hc'
    rw [hset] at hc'
    split_ifs at hc'
    · cases hc'
      exact h.filed.sent c call hc
    · exact h.filed.sent c' call' hc'
  · dsimp only at hc'
    rw [hset] at hc'
    split_ifs at hc' with heq
    · cases hc'
      rw [heq]
      exact hstands' c call hc _ rfl rfl
    · exact hstands' c' call' hc' _ rfl rfl

/-- A call moves on, and nothing changes for any caller. -/
theorem Agrees.moves (h : Agrees server sent status s) {c : ℕ} {call : SyncCall} (stage : CallStage)
    (hc : s.calls[c]? = some call)
    (hstage : s.callbacks.find? (server.env.trxId call.trx) = some c →
      stage ≠ .returned ∧ stage ≠ .thrown) :
    Agrees server sent status { s with calls := s.calls.set c { call with stage := stage } } := by
  apply h.restage stage s.callbacks hc (fun _ _ hcallback ↦ hcallback) hstage _ h.absent
  intro c' call' hc'
  have hstands := h.stands c' call' hc'
  refine ⟨rfl, hstands.made, fun trx ↦ ⟨fun htrx ↦ ⟨htrx, ?_⟩, And.left⟩⟩
  rw [hstands.own trx htrx] at htrx
  exact hstands.waits.1 htrx

theorem Agrees.accepted (h : Agrees server sent status s) (c : ℕ)
    (hstep : s.step server (.accepted c) = .ok s') :
    Agrees server sent (fun c' ↦ (status c').next server c' (s, .accepted c)) s' := by
  have hquiet : ∀ c', (status c').next server c' (s, .accepted c) = status c' := fun c' ↦
    next_of_quiet (fun trx _ ↦ ⟨fun _ he ↦ (by cases he), fun _ he ↦ by cases he⟩)
      (.inr fun _ _ he ↦ by cases he)
  simp only [hquiet]
  unfold step at hstep
  dsimp only at hstep
  split at hstep
  · rename_i trx promise hc
    cases hstep
    exact h.moves .waiting hc fun _ ↦ ⟨CallStage.noConfusion, CallStage.noConfusion⟩
  · cases hstep
    exact h

theorem Agrees.answered (h : Agrees server sent status s) (c : ℕ)
    (hstep : s.step server (.answered c) = .ok s') :
    Agrees server sent (fun c' ↦ (status c').next server c' (s, .answered c)) s' := by
  have hquiet : ∀ c', (status c').next server c' (s, .answered c) = status c' := fun c' ↦
    next_of_quiet (fun trx _ ↦ ⟨fun _ he ↦ (by cases he), fun _ he ↦ by cases he⟩)
      (.inr fun _ _ he ↦ by cases he)
  simp only [hquiet]
  unfold step at hstep
  dsimp only at hstep
  split at hstep
  · rename_i trx r hc
    cases hstep
    apply h.moves .returned hc
    -- A call with a callback has no answer yet.
    intro hcallback
    obtain ⟨call, hcall, _, _, _, hpromise⟩ := h.live _ c hcallback
    rw [hc] at hcall
    cases hcall
    cases hpromise
  · cases hstep
    exact h

theorem throws_iff {id c : ℕ} {call : SyncCall} (hc : s.calls[c]? = some call) :
    Throws server id s c ↔ call.stage = .accepting ∧ server.env.trxId call.trx = id := by
  unfold Throws
  rw [hc]
  simp

theorem Agrees.refused (h : Agrees server sent status s) (c : ℕ)
    (hstep : s.step server (.refused c) = .ok s') :
    Agrees server sent (fun c' ↦ (status c').next server c' (s, .refused c)) s' := by
  unfold step at hstep
  dsimp only at hstep
  split at hstep
  · rename_i trx promise hc
    cases hstep
    have hthrows : ∀ id, Throws server id s c ↔ server.env.trxId trx = id := fun id ↦
      (throws_iff hc).trans (and_iff_right rfl)
    have hnext : ∀ c', (status c').next server c' (s, .refused c) =
        match status c' with
        | .unanswered trx' =>
          if server.env.trxId trx = server.env.trxId trx' then .abandoned else .unanswered trx'
        | other => other := by
      intro c'
      unfold CallStatus.next
      cases status c' with
      | unanswered trx' => simp only [hthrows]
      | _ => rfl
    apply h.restage .thrown (s.callbacks.erase (server.env.trxId trx)) hc
    · intro id c' hcallback
      rw [Table.find?_erase] at hcallback
      split_ifs at hcallback
      exact hcallback
    · intro hcallback
      rw [Table.find?_erase, if_pos rfl] at hcallback
      cases hcallback
    · intro c' call' hc'
      have hstands := h.stands c' call' hc'
      rw [hnext]
      cases hstatus : status c' with
      | unanswered trx' =>
        obtain rfl := hstands.own trx' hstatus
        have hcallback := hstands.waits.1 hstatus
        dsimp only
        rw [Table.find?_erase]
        by_cases heq : server.env.trxId trx = server.env.trxId call'.trx
        · simp [heq, CallStatus.answer]
        · rw [if_neg heq, if_neg (Ne.symm heq), hcallback]
          simp
      | absent => exact absurd hstatus hstands.made
      | answered r => simp
      | abandoned => simp
    · intro c' hc'
      rw [hnext, h.absent c' hc']
  · rename_i hnot
    cases hstep
    have hquiet : ∀ c', (status c').next server c' (s, .refused c) = status c' := by
      refine fun c' ↦ next_of_quiet (fun trx _ ↦ ⟨fun c'' he hthrows ↦ ?_, fun _ he ↦ by cases he⟩)
        (.inr fun _ _ he ↦ by cases he)
      cases he
      obtain ⟨call, hcall, hstage, _⟩ := hthrows
      obtain ⟨trx, stage, promise⟩ := call
      cases hstage
      exact hnot trx promise hcall
    simp only [hquiet]
    exact h

theorem mem_notDue {b : SignedBlock} {expirations : List (Time × List ℕ)} {entry : Time × List ℕ}
    (hentry : entry ∈ expirations) (hdue : ¬ entry.1 < b.timestamp) :
    entry ∈ notDue b expirations := by
  have happend := List.takeWhile_append_dropWhile
    (p := fun entry : Time × List ℕ ↦ decide (entry.1 < b.timestamp)) (l := expirations)
  rw [← happend] at hentry
  rcases List.mem_append.1 hentry with htake | hdrop
  · exact absurd (of_decide_eq_true (List.mem_takeWhile_imp
      (p := fun entry : Time × List ℕ ↦ decide (entry.1 < b.timestamp)) htake)) hdue
  · exact hdrop

theorem answerOf_eq_none {trx : Transaction} {b : SignedBlock} (h : answerOf server trx b = none) :
    ¬ trx.expiration < b.timestamp := by
  unfold answerOf at h
  split at h
  · cases h
  · intro hexpired
    rw [if_pos hexpired] at h
    cases h

theorem Agrees.appliedBlock (h : Agrees server sent status s) (b : SignedBlock) :
    ∃ s', s.onAppliedBlock server b = .ok s' ∧
      Agrees server sent (fun c ↦ (status c).next server c (s, .appliedBlock b)) s' := by
  obtain ⟨s₁, hs₁, hlive, hafter⟩ := onAppliedBlock_spec h.live b
  refine ⟨_, hs₁, hlive, ⟨?_, ?_, ?_, ?_⟩, fun c call hc ↦ ?_, fun c hc ↦ ?_⟩
  · exact h.filed.sorted.sublist (List.dropWhile_sublist _)
  · intro entry hentry
    exact h.filed.own entry ((List.dropWhile_sublist _).subset hentry)
  · intro trx htrx hsome
    dsimp only at hsome ⊢
    rw [hafter.callbacks] at hsome
    split_ifs at hsome with hanswered
    · cases hsome
    · rw [firstAnswer_eq h.filed b htrx hsome, Option.not_isSome_iff_eq_none] at hanswered
      obtain ⟨entry, hentry, hmem⟩ := h.filed.waiting trx htrx hsome
      refine ⟨entry, mem_notDue hentry ?_, hmem⟩
      rw [← h.filed.own entry hentry trx htrx hmem]
      exact answerOf_eq_none hanswered
  · intro c call hc
    dsimp only at hc
    rw [hafter.calls] at hc
    obtain ⟨call₀, hcall₀, rfl⟩ := Option.map_eq_some_iff.1 hc
    have hsent := h.filed.sent c call₀ hcall₀
    split_ifs <;> exact hsent
  · dsimp only at hc
    rw [hafter.calls] at hc
    obtain ⟨call₀, hcall₀, rfl⟩ := Option.map_eq_some_iff.1 hc
    have hstands := h.stands c call₀ hcall₀
    by_cases hcallback : s.callbacks.find? (server.env.trxId call₀.trx) = some c
    · have hfirst := firstAnswer_eq h.filed b (h.filed.sent c call₀ hcall₀)
        (Option.isSome_of_mem hcallback)
      have hnext : (status c).next server c (s, .appliedBlock b) =
          (answerOf server call₀.trx b).elim (.unanswered call₀.trx) .answered := by
        rw [hstands.waits.2 hcallback]
        simp only [CallStatus.next]
        cases answerOf server call₀.trx b <;> rfl
      rw [if_pos hcallback, hfirst, hnext]
      cases hanswer : answerOf server call₀.trx b with
      | some r =>
        refine ⟨CallStatus.noConfusion, rfl, fun trx htrx ↦ (by cases htrx), ?_⟩
        rw [hafter.callbacks, hfirst, hanswer]
        simp
      | none =>
        refine ⟨CallStatus.noConfusion, rfl, fun trx htrx ↦ ?_, ?_⟩
        · cases htrx
          rfl
        · rw [hafter.callbacks, hfirst, hanswer, if_neg (by simp), hcallback]
          simp
    · have hnot : ∀ trx, status c ≠ .unanswered trx := by
        intro trx htrx
        rw [hstands.own trx htrx] at htrx
        exact hcallback (hstands.waits.1 htrx)
      have hnext : (status c).next server c (s, .appliedBlock b) = status c :=
        next_of_quiet (fun trx htrx ↦ absurd htrx (hnot trx)) (.inl hstands.made)
      rw [if_neg hcallback, hnext]
      refine ⟨hstands.made, hstands.promise, hstands.own, iff_of_false (hnot _) ?_⟩
      rw [hafter.callbacks]
      split_ifs
      · simp
      · exact hcallback
  · dsimp only at hc
    rw [hafter.length] at hc
    rw [h.absent c hc]
    rfl

end Broadcasts

open Broadcasts

/-- The transactions that callers have sent. -/
def sentIn (past : List (Broadcasts × BroadcastEvent)) : Set Transaction :=
  {trx | ∃ s args readings, (s, .call args readings) ∈ past ∧ args.trx = trx}

/-- In every run the maps agree with what callers are to see. -/
theorem BroadcastRun.agrees {past : List (Broadcasts × BroadcastEvent)}
    (hsent : sentIn past ⊆ sent) (hid : SeparatesExpirations server sent)
    (h : BroadcastRun server past s) :
    Agrees server sent (fun c ↦ callStatus server c past) s := by
  induction h with
  | start =>
    refine ⟨fun id c hcallback ↦ (by cases hcallback), ⟨.nil, fun entry hentry ↦ ?_,
      fun trx _ hsome ↦ (by cases hsome), fun c call hc ↦ (by cases hc)⟩, fun c call hc ↦ ?_,
      fun c _ ↦ rfl⟩
    · exact absurd hentry List.not_mem_nil
    · cases hc
  | @step past s s' e _ hstep ih =>
    have hbefore : sentIn past ⊆ sent := by
      rintro trx ⟨t, args, readings, hmem, htrx⟩
      exact hsent ⟨t, args, readings, List.mem_cons_of_mem _ hmem, htrx⟩
    have ih := ih hbefore
    cases e with
    | call args readings =>
      cases hstep
      exact ih.call hid args readings (hsent ⟨s, args, readings, List.mem_cons_self, rfl⟩)
    | accepted c => exact ih.accepted c hstep
    | refused c => exact ih.refused c hstep
    | answered c => exact ih.answered c hstep
    | appliedBlock b =>
      obtain ⟨s₁, hs₁, hagrees⟩ := ih.appliedBlock b
      rw [show s₁ = _ from Except.ok.inj (hs₁.symm.trans hstep)] at hagrees
      exact hagrees

/-- However calls, their failures and blocks interleave, no event throws out of a callback, and
the promise of each call holds the answer of the first block since that contains its transaction or
comes after its expiration, unless a call with the same transaction threw before. -/
theorem broadcast_answers {past : List (Broadcasts × BroadcastEvent)}
    (hid : SeparatesExpirations server (sentIn past)) (h : BroadcastRun server past s) :
    (∀ e, ∃ s', s.step server e = .ok s') ∧
      ∀ c call, s.calls[c]? = some call → callStatus server c past ≠ .absent ∧
        call.promise = (callStatus server c past).answer ∧
        (s.callbacks.find? (server.env.trxId call.trx) = some c ↔
          callStatus server c past = .unanswered call.trx) := by
  have hagrees := h.agrees subset_rfl hid
  refine ⟨fun e ↦ ?_, fun c call hc ↦ ?_⟩
  · cases e with
    | call args readings => exact ⟨_, rfl⟩
    | accepted c =>
      unfold step
      dsimp only
      split <;> exact ⟨_, rfl⟩
    | refused c =>
      unfold step
      dsimp only
      split <;> exact ⟨_, rfl⟩
    | answered c =>
      unfold step
      dsimp only
      split <;> exact ⟨_, rfl⟩
    | appliedBlock b =>
      obtain ⟨s', hs', _⟩ := hagrees.appliedBlock b
      exact ⟨s', hs'⟩
  · have hstands := hagrees.stands c call hc
    exact ⟨hstands.made, hstands.promise, hstands.waits.symm⟩

/-- Events one after the other, with the moments before them. -/
def recordEvents (server : BroadcastServer) (events : List BroadcastEvent) :
    Except CallbackFailure (List (Broadcasts × BroadcastEvent) × Broadcasts) :=
  events.foldlM (fun recorded e ↦ do
    let s ← recorded.2.step server e
    pure ((recorded.2, e) :: recorded.1, s)) ([], .initial)

theorem BroadcastRun.of_recordEvents {events : List BroadcastEvent}
    {recorded : List (Broadcasts × BroadcastEvent) × Broadcasts}
    (h : recordEvents server events = .ok recorded) :
    BroadcastRun server recorded.1 recorded.2 := by
  apply foldlM_invariant (I := fun recorded ↦ BroadcastRun server recorded.1 recorded.2) _ h .start
  intro recorded e recorded' _ hstep hrun
  obtain ⟨s, hs, hrecorded⟩ := bind_eq_ok.1 hstep
  rw [pure_eq_ok] at hrecorded
  subst hrecorded
  exact hrun.step e hs

/-- A block contains the transaction of a call that is still in `accept_transaction`. The same
transaction is sent again, then the first call throws, and the second one never gets an answer. -/
def callsWithOneTransaction : List BroadcastEvent :=
  let trx : Transaction := ⟨0, 0, 100, [], []⟩
  [.call ⟨trx, 50, -1⟩ ⟨60000000, 60000000, 57⟩, .appliedBlock (Chain.devBlock .null 63 [trx]),
    .call ⟨trx, 50, -1⟩ ⟨64000000, 64000000, 63⟩, .refused 0, .accepted 1,
    .appliedBlock (Chain.devBlock ⟨1, 1⟩ 120 [])]

theorem broadcast_answers_two_calls :
    ∃ past s, BroadcastRun ⟨Chain.devEnv, 8192⟩ past s ∧
      (s.calls.map SyncCall.promise = [some ⟨100, 1, 0, false⟩, none] ∧
        callStatus ⟨Chain.devEnv, 8192⟩ 1 past = .abandoned) ∧
      (∀ e, ∃ s', s.step ⟨Chain.devEnv, 8192⟩ e = .ok s') := by
  have hok : okAnd (recordEvents ⟨Chain.devEnv, 8192⟩ callsWithOneTransaction) (fun recorded ↦
      decide (recorded.2.calls.map SyncCall.promise = [some ⟨100, 1, 0, false⟩, none] ∧
        callStatus ⟨Chain.devEnv, 8192⟩ 1 recorded.1 = .abandoned)) = true := by
    decide
  obtain ⟨recorded, hrecorded, hs⟩ := exists_of_okAnd hok
  have hrun := BroadcastRun.of_recordEvents hrecorded
  exact ⟨recorded.1, recorded.2, hrun, of_decide_eq_true hs,
    (broadcast_answers (fun _ _ _ _ hid ↦ hid) hrun).1⟩

end SophiaTX.Plugins
