import SophiaTX.Chain.Quiet
import SophiaTX.Voting.Recount

/-!
# Records of votes

Beside the witness votes of an account stands a count of them, and an account that sets a proxy
gives up its votes. The count is 16 bits wide, while the limit it is compared with is a 32-bit
number of the genesis file: the two fit together as long as no account goes over 65535 votes.
-/

namespace SophiaTX.Chain

open SophiaTX.Protocol SophiaTX.Lib

/-- No account is above itself in the chain of its proxies, so all chains end; accounts with a
proxy have no votes; and every account counts its votes, up to the limit. -/
structure VoteRecords (g : GenesisState) (s : Database) : Prop where
  acyclic : ∀ name steps, s.proxyChain (steps + 1) name ≠ some name
  ends : ∀ name, ∃ steps, s.proxyChain steps name = none
  proxied : s.accounts.Forall fun name a ↦ a.proxy ≠ proxyToSelfAccount → s.votesOf name = []
  counted : s.accounts.Forall fun name a ↦ a.witnessesVotedFor = (s.votesOf name).length
  limited : s.accounts.Forall fun _ a ↦ a.witnessesVotedFor ≤ g.maxAccountWitnessVotes

/-- A vote is added only where 16 bits are enough to count it. -/
def CountFits (g : GenesisState) (s : Database) : Stage → Prop
  | .operation _ op => ∀ account witness, op.op = .accountWitnessVote account witness true →
    g.maxAccountWitnessVotes < 65536 ∨ (s.votesOf account).length < 65535
  | _ => True

/-- A stage that succeeds; an operation has passed its own checks before. -/
def Stage.Passes (ctx : Context) (s : Database) (stage : Stage) (s' : Database) : Prop :=
  stage.Valid ctx ∧ stage.run ctx s = .ok s'

/-- Every count is the number of votes, which is within the limit and 16 bits wide. -/
structure VotesCounted (g : GenesisState) (s : Database) : Prop where
  counted : ∀ name, s.votedFor name = (s.votesOf name).length
  limited : ∀ name, (s.votesOf name).length ≤ g.maxAccountWitnessVotes
  narrow : ∀ name, (s.votesOf name).length < 65536

variable {ctx : Context} {g : GenesisState} {s s' : Database}

theorem SameRecords.votesCounted (h : SameRecords s s') (hs : VotesCounted g s) :
    VotesCounted g s' := by
  have hvotes : ∀ name, s'.votesOf name = s.votesOf name := by
    intro name
    rw [Database.votesOf, Database.votesOf, h.witnessVotes]
  refine ⟨fun name ↦ ?_, fun name ↦ ?_, fun name ↦ ?_⟩
  · rw [h.votedFor, hvotes]
    exact hs.counted name
  · rw [hvotes]
    exact hs.limited name
  · rw [hvotes]
    exact hs.narrow name

namespace Database

variable {account witness : AccountName}

/-! ## Counting the records -/

theorem votedFor_modifyAccount {a : Account} (ha : s.accounts.find? account = some a)
    (f : Account → Account) : (s.modifyAccount account f).votedFor =
      Function.update s.votedFor account (f a).witnessesVotedFor := by
  funext name
  rw [votedFor, modifyAccount, Table.find?_modify, Function.update_apply]
  split
  · rename_i hname
    rw [hname, ha]
    rfl
  · rfl

/-- A new record is one more vote of its account. -/
theorem votesOf_length_insert
    (hkeys : s'.witnessVotes.keys = s.witnessVotes.keys ++ [(account, witness)])
    (name : AccountName) : (s'.votesOf name).length =
      (s.votesOf name).length + if name = account then 1 else 0 := by
  rw [votesOf, votesOf, hkeys, List.filter_append, List.map_append, List.length_append]
  by_cases hname : name = account
  · simp [hname]
  · have hne : ¬ account = name := fun h ↦ hname h.symm
    simp [hname, hne]

/-- A record that goes is one vote of its account less. -/
theorem votesOf_length_erase (hmem : (account, witness) ∈ s.witnessVotes.keys)
    (hkeys : s'.witnessVotes.keys = s.witnessVotes.keys.filter
      fun vote ↦ decide (vote ≠ (account, witness)))
    (name : AccountName) : (s.votesOf name).length =
      (s'.votesOf name).length + if name = account then 1 else 0 := by
  rw [votesOf, votesOf, List.length_map, List.length_map, hkeys, List.filter_filter]
  by_cases hname : name = account
  · subst hname
    have hvote : (name, witness) ∈ s.witnessVotes.keys.filter fun vote ↦ decide (vote.1 = name) :=
      List.mem_filter.2 ⟨hmem, by simp⟩
    have hnodup : (s.witnessVotes.keys.filter fun vote ↦ decide (vote.1 = name)).Nodup :=
      s.witnessVotes.nodup.filter _
    have herase := List.length_erase_add_one hvote
    rw [hnodup.erase_eq_filter, List.filter_filter] at herase
    rw [if_pos rfl, ← herase]
    congr 2
    apply List.filter_congr
    intro vote _
    by_cases hv : vote = (name, witness) <;> simp [hv]
  · rw [if_neg hname, Nat.add_zero]
    congr 1
    apply List.filter_congr
    rintro ⟨voter, candidate⟩ _
    by_cases hv : voter = name
    · have hne : ¬ voter = account := fun h ↦ hname (hv.symm.trans h)
      simp [hv, hname]
    · simp [hv]

/-! ## Votes and proxies -/

/-- What a vote does to the records. -/
theorem accountWitnessVoteEvaluator_records {approve : Bool}
    (h : s.accountWitnessVoteEvaluator g account witness approve = .ok s') :
    (approve = true ∧ s.votedFor account < g.maxAccountWitnessVotes ∧
      s'.witnessVotes.keys = s.witnessVotes.keys ++ [(account, witness)] ∧
      s'.votedFor = Function.update s.votedFor account ((s.votedFor account + 1) % 65536)) ∨
    ((account, witness) ∈ s.witnessVotes.keys ∧
      (s'.witnessVotes.keys = s.witnessVotes.keys.filter
        fun vote ↦ decide (vote ≠ (account, witness))) ∧
      s'.votedFor = Function.update s.votedFor account ((s.votedFor account + 65535) % 65536)) := by
  simp only [accountWitnessVoteEvaluator, getAccount, bind_eq_ok, orUnknownKey_eq_ok,
    fcAssert_eq_ok] at h
  obtain ⟨_, _, a, ha, _, _, _, _, h⟩ := h
  have hcount : s.votedFor account = a.witnessesVotedFor := by
    rw [votedFor, ha]
    rfl
  rw [hcount]
  split at h
  · simp only [bind_eq_ok, fcAssert_eq_ok, createRow_eq_ok, pure_eq_ok] at h
    obtain ⟨_, happrove, _, hlimit, votes, hvotes, _, _, s₁, hvote, rfl⟩ := h
    obtain ⟨_, _, _, _, _, rfl⟩ := adjustWitnessVote_eq_ok hvote
    exact .inl ⟨happrove, hlimit, Table.keys_emplace? hvotes, votedFor_modifyAccount ha _⟩
  · rename_i hsome
    simp only [bind_eq_ok, pure_eq_ok] at h
    obtain ⟨_, _, _, _, _, _, s₁, hvote, rfl⟩ := h
    obtain ⟨_, _, _, _, _, rfl⟩ := adjustWitnessVote_eq_ok hvote
    refine .inr ⟨Table.mem_keys_of_find? hsome, Table.keys_filterRows _ _, ?_⟩
    exact votedFor_modifyAccount ha fun a ↦
      { a with witnessesVotedFor := (a.witnessesVotedFor + 65535) % 65536 }

theorem accountWitnessVoteEvaluator_votesCounted {approve : Bool}
    (hfits : approve = true →
      g.maxAccountWitnessVotes < 65536 ∨ (s.votesOf account).length < 65535)
    (h : s.accountWitnessVoteEvaluator g account witness approve = .ok s')
    (hs : VotesCounted g s) : VotesCounted g s' := by
  have hnarrow := hs.narrow account
  have hcount := hs.counted account
  rcases accountWitnessVoteEvaluator_records h with
    ⟨happrove, hlimit, hkeys, hvotedFor⟩ | ⟨hmem, hkeys, hvotedFor⟩
  · have hroom := hfits happrove
    have hlength := votesOf_length_insert hkeys
    have hsmall : (s.votesOf account).length + 1 < 65536 := by omega
    refine ⟨fun name ↦ ?_, fun name ↦ ?_, fun name ↦ ?_⟩
    · rw [hvotedFor, Function.update_apply, hlength]
      split
      · rename_i hname
        rw [hname, hcount, Nat.mod_eq_of_lt hsmall]
      · exact hs.counted name
    · rw [hlength]
      split
      · rename_i hname
        rw [hname, ← hcount]
        exact hlimit
      · exact hs.limited name
    · rw [hlength]
      split
      · rename_i hname
        rw [hname]
        exact hsmall
      · exact hs.narrow name
  · have hlength := votesOf_length_erase hmem hkeys
    have haccount := hlength account
    rw [if_pos rfl] at haccount
    refine ⟨fun name ↦ ?_, fun name ↦ ?_, fun name ↦ ?_⟩
    · rw [hvotedFor, Function.update_apply]
      split
      · rename_i hname
        rw [hname, hcount]
        omega
      · rename_i hname
        rw [hs.counted, hlength, if_neg hname, Nat.add_zero]
    · exact (Nat.le_add_right _ _).trans ((hlength name).symm.le.trans (hs.limited name))
    · exact ((Nat.le_add_right _ _).trans (hlength name).symm.le).trans_lt (hs.narrow name)

theorem clearWitnessVotes_votesCounted (hs : VotesCounted g s) (account : AccountName) :
    VotesCounted g (s.clearWitnessVotes account) := by
  have hvotes : ∀ name, (s.clearWitnessVotes account).votesOf name =
      if name = account then [] else s.votesOf name := by
    intro name
    rw [votesOf, votesOf, clearWitnessVotes, Table.keys_filterRows, List.filter_filter]
    split
    · rename_i hname
      rw [hname]
      have hnone : (s.witnessVotes.keys.filter fun vote ↦
          decide (vote.1 = account) && decide (vote.1 ≠ account)) = [] := by
        apply List.filter_eq_nil_iff.2
        simp
      rw [hnone]
      rfl
    · rename_i hname
      congr 1
      apply List.filter_congr
      intro vote _
      by_cases hv : vote.1 = name
      · simp [hv, hname]
      · simp [hv]
  have hvotedFor : ∀ name, (s.clearWitnessVotes account).votedFor name =
      if name = account then 0 else s.votedFor name := by
    intro name
    rw [votedFor, clearWitnessVotes]
    dsimp only
    rw [Table.find?_modify]
    split
    · cases s.accounts.find? name <;> rfl
    · rfl
  refine ⟨fun name ↦ ?_, fun name ↦ ?_, fun name ↦ ?_⟩
  · rw [hvotedFor, hvotes]
    split
    · rfl
    · exact hs.counted name
  · rw [hvotes]
    split
    · exact Nat.zero_le _
    · exact hs.limited name
  · rw [hvotes]
    split
    · exact Nat.succ_pos _
    · exact hs.narrow name

theorem accountWitnessProxyEvaluator_votesCounted {proxy : AccountName}
    (h : s.accountWitnessProxyEvaluator account proxy = .ok s') (hs : VotesCounted g s) :
    VotesCounted g s' := by
  obtain ⟨a, delta, s₁, _, _, _, hremove, hcases⟩ := accountWitnessProxyEvaluator_eq_ok h
  have hs₁ := (adjustProxiedWitnessVotesArray_quiet hremove).records.votesCounted hs
  have hproxy : ∀ t : Database, SameRecords t (t.modifyAccount account fun a ↦
      { a with proxy := proxy }) := by
    intro t
    have hquiet : Quiet t (t.modifyAccount account fun a ↦ { a with proxy := proxy }) :=
      .modifyAccount _ _ fun _ _ ↦ rfl
    exact hquiet.records
  rcases hcases with ⟨_, rfl⟩ | ⟨_, _, delta', _, _, _, hadd⟩
  · exact (hproxy s₁).votesCounted hs₁
  · have hcleared := clearWitnessVotes_votesCounted hs₁ account
    exact (adjustProxiedWitnessVotesArray_quiet hadd).records.votesCounted
      ((hproxy _).votesCounted hcleared)

end Database

/-! ## Runs -/

theorem Stage.votesCounted {stage : Stage} (hfits : CountFits ctx.genesis s stage)
    (h : stage.run ctx s = .ok s') (hs : VotesCounted ctx.genesis s) :
    VotesCounted ctx.genesis s' := by
  cases stage with
  | operation trx op =>
    simp only [run, Database.applyOperation, bind_eq_ok] at h
    obtain ⟨s₁, hfee, heval⟩ := h
    have hfee₁ := (Database.processOperationFee_quiet hfee).records
    have hs₁ := hfee₁.votesCounted hs
    cases hop : op.op with
    | accountWitnessVote account witness approve =>
      rw [hop] at heval
      refine Database.accountWitnessVoteEvaluator_votesCounted ?_ heval hs₁
      rintro rfl
      rw [Database.votesOf, hfee₁.witnessVotes]
      exact hfits account witness hop
    | accountWitnessProxy account proxy =>
      rw [hop] at heval
      exact Database.accountWitnessProxyEvaluator_votesCounted heval hs₁
    | _ =>
      have hquiet := Database.evaluate_quiet heval (by simp [hop]) (by simp [hop])
      exact hquiet.records.votesCounted hs₁
  | updateGlobalDynamicData b =>
    obtain ⟨_, _, _, hrecords⟩ := Database.updateGlobalDynamicData_slots h
    exact hrecords.votesCounted hs
  | updateWitnessSchedule =>
    simp only [run, Database.updateWitnessSchedule] at h
    split at h
    · cases h
    · split at h
      · obtain ⟨_, _, _, _, _, hs'⟩ := Database.updateWitnessSchedule4_eq_ok h
        rw [hs']
        exact ⟨hs.counted, hs.limited, hs.narrow⟩
      · exact pure_eq_ok.1 h ▸ hs
  | _ => exact (Stage.quiet h id).records.votesCounted hs

theorem BallotsInOrder.stage {stage : Stage} (hs : Sound s) (hvalid : stage.Valid ctx)
    (h : stage.run ctx s = .ok s') (hballots : BallotsInOrder s) : BallotsInOrder s' := by
  obtain ⟨ms, hms, hallowed, _⟩ := Stage.explained hs hvalid h
  refine hms.invariant (I := BallotsInOrder) ?_ hballots
  rintro s₁ m s₂ hm hstep hs₁
  refine hstep.ballotsInOrder ?_ hs₁
  rintro account proxy rfl
  obtain ⟨trx, op, rfl, hop⟩ := hallowed _ hm
  simp only [Stage.Valid, hop, Operation.validate, bind_eq_ok, fcAssert_eq_ok] at hvalid
  obtain ⟨_, _, _, _, hself⟩ := hvalid
  exact hself

/-- What all rows that genesis creates have in common. -/
theorem GenesisAccounts.create_forall {P : AccountName → Account → Prop} {s s' : GenesisAccounts}
    {name : AccountName} {a : Account} {owner active : Authority} (hs : s.accounts.Forall P)
    (ha : P name a) (h : s.create name a owner active = .ok s') : s'.accounts.Forall P := by
  simp only [create, bind_eq_ok, createRow_eq_ok, pure_eq_ok] at h
  obtain ⟨_, _, accounts, haccounts, authorities, _, rfl⟩ := h
  exact hs.emplace? haccounts ha

theorem genesisAccount_votedFor {id : ℕ} {key : PublicKey} {balance : ShareType}
    {recoveryAccount resetAccount : AccountName} {a : Account}
    (h : genesisAccount id key balance recoveryAccount resetAccount = .ok a) :
    a.witnessesVotedFor = 0 := by
  simp only [genesisAccount, bind_eq_ok, pure_eq_ok] at h
  obtain ⟨_, _, rfl⟩ := h
  rfl

theorem genesisAccounts_votedFor {s : GenesisAccounts} (h : genesisAccounts g = .ok s) :
    s.accounts.Forall fun _ a ↦ a.witnessesVotedFor = 0 := by
  simp only [genesisAccounts, bind_eq_ok] at h
  obtain ⟨s₁, hminer, s₂, hnull, s₃, htemp, initMiner, hinit, s₄, hinitMiner, h⟩ := h
  have hs₁ := GenesisAccounts.create_forall (P := fun _ a ↦ a.witnessesVotedFor = 0)
    (fun _ _ h ↦ by cases h) rfl hminer
  have hs₂ := GenesisAccounts.create_forall hs₁ rfl hnull
  have hs₃ := GenesisAccounts.create_forall hs₂ rfl htemp
  have hs₄ := GenesisAccounts.create_forall hs₃ (genesisAccount_votedFor hinit) hinitMiner
  refine foldlM_invariant
    (I := fun t : GenesisAccounts ↦ t.accounts.Forall fun _ a ↦ a.witnessesVotedFor = 0) ?_ h hs₄
  intro t acc t' _ hround ht
  simp only [GenesisAccounts.createInitial, bind_eq_ok] at hround
  obtain ⟨a, ha, hround⟩ := hround
  exact GenesisAccounts.create_forall ht (genesisAccount_votedFor ha) hround

theorem initGenesis_votesCounted (h : initGenesis g = .ok s) : VotesCounted g s := by
  have hvotes : ∀ name, s.votesOf name = [] := by
    intro name
    rw [Database.votesOf, (initGenesis_books h).witnessVotes]
    rfl
  refine ⟨fun name ↦ ?_, fun name ↦ ?_, fun name ↦ ?_⟩
  · rw [hvotes]
    simp only [initGenesis, bind_eq_ok, pure_eq_ok] at h
    obtain ⟨_, _, initial, hinitial, _, _, rfl⟩ := h
    rw [Database.votedFor]
    cases hrow : initial.accounts.find? name with
    | none => rfl
    | some a => exact genesisAccounts_votedFor hinitial name a hrow
  · rw [hvotes]
    exact Nat.zero_le _
  · rw [hvotes]
    exact Nat.succ_pos _

theorem BallotsInOrder.voteRecords (h : BallotsInOrder s) (hcounted : VotesCounted g s) :
    VoteRecords g s where
  acyclic := fun name steps ↦ h.ledger.acyclic name steps
  ends := h.ledger.acyclic.exists_climb_eq_none h.ledger.proxies
  proxied := by
    intro name a ha hproxy
    apply List.eq_nil_iff_forall_not_mem.2
    intro witness hmem
    have hroot := (h.ledger.voters name witness (Database.mem_votesOf.1 hmem)).2
    exact hproxy ((Database.proxyOf_eq_none_iff ha).1 hroot)
  counted := by
    intro name a ha
    rw [← hcounted.counted name, Database.votedFor, ha]
    rfl
  limited := by
    intro name a ha
    have hcount := hcounted.counted name
    rw [Database.votedFor, ha] at hcount
    exact hcount.le.trans (hcounted.limited name)

/-- Proxies never form a loop, and votes are recorded and counted as they should, as long as 16
bits are enough to count them. -/
theorem vote_records_in_order {ctx : Context} {s₀ s : Database} {stages : List Stage}
    (hgenesis : initGenesis ctx.genesis = .ok s₀)
    (h : Run (fun s stage s' ↦ CountFits ctx.genesis s stage ∧ stage.Passes ctx s s') s₀ stages s) :
    VoteRecords ctx.genesis s := by
  have hbooks := initGenesis_books hgenesis
  have hvotes := hbooks.votesInOrder
  obtain ⟨_, hballots, hcounted⟩ := h.invariant
    (I := fun t ↦ Sound t ∧ BallotsInOrder t ∧ VotesCounted ctx.genesis t)
    (fun s₁ stage s₂ _ ⟨hfits, hvalid, hrun⟩ ⟨hs₁, hballots₁, hcounted₁⟩ ↦
      ⟨Stage.sound hs₁ hvalid hrun, hballots₁.stage hs₁ hvalid hrun,
        Stage.votesCounted hfits hrun hcounted₁⟩)
    ⟨hbooks.sound, ⟨hvotes.ledger, hvotes.witnesses⟩, initGenesis_votesCounted hgenesis⟩
  exact hballots.voteRecords hcounted

/-- A vote, and a proxy that takes it back. -/
def voteStage : Stage :=
  .operation (devTransaction 1531512600 8 (.accountWitnessVote 1000 initMinerName true))
    ⟨.accountWitnessVote 1000 initMinerName true, ⟨0, sophiatxSymbol⟩⟩

def proxyStage : Stage :=
  .operation (devTransaction 1531512600 8 (.accountWitnessProxy 1000 initMinerName))
    ⟨.accountWitnessProxy 1000 initMinerName, ⟨0, sophiatxSymbol⟩⟩

theorem vote_records_in_order_after_proxy :
    ∃ s₀ s₁ s, initGenesis devGenesis = .ok s₀ ∧
      voteStage.run (devContext devGenesis) s₀ = .ok s₁ ∧ s₁.votesOf 1000 = [initMinerName] ∧
      proxyStage.run (devContext devGenesis) s₁ = .ok s ∧ s.votesOf 1000 = [] ∧
      VoteRecords devGenesis s := by
  have hok : okAnd (initGenesis devGenesis) (fun s₀ ↦
      okAnd (voteStage.run (devContext devGenesis) s₀) fun s₁ ↦
        decide (s₁.votesOf 1000 = [initMinerName]) &&
        okAnd (proxyStage.run (devContext devGenesis) s₁) fun s ↦
          decide (s.votesOf 1000 = [])) = true := by
    decide +kernel
  obtain ⟨s₀, hgenesis, hs₀⟩ := exists_of_okAnd hok
  obtain ⟨s₁, hvote, hs₁⟩ := exists_of_okAnd hs₀
  rw [Bool.and_eq_true, decide_eq_true_eq] at hs₁
  obtain ⟨hvoted, hproxied⟩ := hs₁
  obtain ⟨s, hproxy, hs⟩ := exists_of_okAnd hproxied
  have hfits : ∀ t : Database, CountFits devGenesis t voteStage ∧
      CountFits devGenesis t proxyStage :=
    fun t ↦ ⟨fun _ _ _ ↦ .inl (by decide), fun _ _ _ ↦ .inl (by decide)⟩
  have hvalid : voteStage.Valid (devContext devGenesis) ∧
      proxyStage.Valid (devContext devGenesis) := by
    unfold Stage.Valid voteStage proxyStage
    decide +kernel
  refine ⟨s₀, s₁, s, hgenesis, hvote, hvoted, hproxy, of_decide_eq_true hs, ?_⟩
  exact @vote_records_in_order (devContext devGenesis) s₀ s [voteStage, proxyStage] hgenesis
    (.cons ⟨(hfits s₀).1, hvalid.1, hvote⟩ (.cons ⟨(hfits s₁).2, hvalid.2, hproxy⟩ (.nil s)))

/-! ## A count that wraps around -/

/-- A network in which all of a number of accounts may become witnesses, and one may vote for
65536 of them. -/
def crowdGenesis (n : ℕ) : GenesisState :=
  { devGenesis with
    initialSupply := 300
    maxAccountWitnessVotes := 65536
    initialWitnessReqVestingBalance := 0
    finalWitnessReqVestingBalance := 0
    initialAccounts := (List.range n).map fun i ↦ ⟨1000 + i, 8, 0⟩ }

/-- An account that holds nothing and has no proxy. -/
def Account.Idle (a : Account) : Prop :=
  a.proxy = proxyToSelfAccount ∧ a.balance = 0 ∧ a.vestingShares = 0 ∧
    a.proxiedVsfVotes = fun _ ↦ 0

/-- The first accounts of the crowd have registered, and the very first has voted for some. -/
structure Crowd (n registered voted : ℕ) (s : Database) : Prop where
  publicNet : s.dgp.privateNet = false
  required : s.dgp.witnessRequiredVesting = 0
  sponsors : s.sponsors = Table.empty
  accounts : ∀ i < n, ∃ a, s.accounts.find? (1000 + i) = some a ∧ a.Idle
  witnesses : ∀ i < registered, ∃ w, s.witnesses.find? (1000 + i) = some w ∧ w.votes = 0
  others : ∀ i < n, registered ≤ i → s.witnesses.find? (1000 + i) = none
  count : s.votedFor 1000 = voted % 65536
  votes : s.witnessVotes.keys = (List.range voted).map fun i ↦ (1000, 1000 + i)

theorem exists_emplace? {κ α : Type} [DecidableEq κ] {t : Table κ α} {k : κ} (h : k ∉ t.keys)
    (row : α) : ∃ t', t.emplace? k row = some t' := by
  unfold Table.emplace?
  exact ⟨_, dif_neg h⟩

/-- Accounts without a balance can be created under new names. -/
theorem createInitial_loop {l : List InitialAccount} {s : GenesisAccounts}
    (hbalance : ∀ acc ∈ l, acc.balance = 0) (hnames : (l.map InitialAccount.name).Nodup)
    (hnew : ∀ acc ∈ l, acc.name ∉ s.accounts.keys ∧ acc.name ∉ s.authorities.keys)
    (htotal : s.totalInitialBalance = 300) :
    ∃ s', l.foldlM GenesisAccounts.createInitial s = .ok s' ∧ s'.totalInitialBalance = 300 ∧
      (∀ name a, s.accounts.find? name = some a → s'.accounts.find? name = some a) ∧
      ∀ acc ∈ l, ∃ a, s'.accounts.find? acc.name = some a ∧ a.Idle := by
  induction l generalizing s with
  | nil => exact ⟨s, rfl, htotal, fun _ _ h ↦ h, fun _ h ↦ by cases h⟩
  | cons acc rest ih =>
    rw [List.map_cons, List.nodup_cons] at hnames
    have hzero := hbalance acc List.mem_cons_self
    obtain ⟨haccount, hauthority⟩ := hnew acc List.mem_cons_self
    obtain ⟨a, ha, hidle, hbal⟩ : ∃ a, genesisAccount s.accounts.size acc.key acc.balance
        initMinerName initMinerName = .ok a ∧ a.Idle ∧ a.balance = 0 := by
      rw [hzero]
      exact ⟨_, rfl, ⟨rfl, rfl, rfl, rfl⟩, rfl⟩
    obtain ⟨accounts, haccounts⟩ := exists_emplace? haccount a
    have hactive : ∀ owner active : Authority, ∃ s₁, s.create acc.name a owner active = .ok s₁ ∧
        s₁.totalInitialBalance = 300 ∧ s₁.accounts = accounts ∧
        s₁.authorities.keys = s.authorities.keys ++ [acc.name] := by
      intro owner active
      obtain ⟨authorities, hauthorities⟩ :=
        exists_emplace? hauthority (⟨owner, active, 0⟩ : AccountAuthority)
      refine ⟨⟨accounts, authorities, 300⟩, ?_, rfl, rfl, Table.keys_emplace? hauthorities⟩
      have hsum : safeAdd s.totalInitialBalance a.balance = .ok 300 := by
        rw [htotal, hbal]
        rfl
      exact bind_eq_ok.2 ⟨300, hsum, bind_eq_ok.2 ⟨accounts, createRow_eq_ok.2 haccounts,
        bind_eq_ok.2 ⟨authorities, createRow_eq_ok.2 hauthorities, rfl⟩⟩⟩
    obtain ⟨s₁, hs₁, htotal₁, rfl, hkeys⟩ := hactive (if acc.key = nullKey then
      ⟨1, [(initMinerName, 1)], []⟩ else ⟨1, [], [(acc.key, 1)]⟩) ⟨1, [], [(acc.key, 1)]⟩
    have hfirst : s.createInitial acc = .ok s₁ := bind_eq_ok.2 ⟨a, ha, hs₁⟩
    have hfind := Table.find?_emplace? haccounts
    obtain ⟨s', hs', htotal', hkept, hrows⟩ := @ih s₁
      (fun other hother ↦ hbalance other (List.mem_cons_of_mem _ hother)) hnames.2
      (fun other hother ↦ by
        obtain ⟨hother₁, hother₂⟩ := hnew other (List.mem_cons_of_mem _ hother)
        have hne : other.name ≠ acc.name := fun hsame ↦
          hnames.1 (List.mem_map.2 ⟨other, hother, hsame⟩)
        rw [Table.keys_emplace? haccounts, hkeys]
        simp [hother₁, hother₂, hne]) htotal₁
    refine ⟨s', ?_, htotal', fun name row hrow ↦ hkept name row ?_, fun other hother ↦ ?_⟩
    · rw [List.foldlM_cons]
      exact bind_eq_ok.2 ⟨s₁, hfirst, hs'⟩
    · rw [hfind]
      have hne : name ≠ acc.name := by
        rintro rfl
        exact haccount (Table.mem_keys_of_find? hrow)
      rw [if_neg hne]
      exact hrow
    · rcases List.mem_cons.1 hother with rfl | hother
      · refine ⟨a, hkept _ a ?_, hidle⟩
        rw [hfind, if_pos rfl]
      · exact hrows other hother

/-- The names of the crowd are not those of the accounts every chain starts with. -/
theorem genesisAccounts_crowd {n : ℕ} (hn : n ≤ 65536) :
    ∃ s, genesisAccounts (crowdGenesis n) = .ok s ∧ s.totalInitialBalance = 300 ∧
      ∀ i < n, ∃ a, s.accounts.find? (1000 + i) = some a ∧ a.Idle := by
  have hok : okAnd (genesisAccounts { devGenesis with initialAccounts := [] }) (fun s ↦
      decide (s.totalInitialBalance = 300 ∧ (∀ name ∈ s.accounts.keys, 100000 ≤ name) ∧
        ∀ name ∈ s.authorities.keys, 100000 ≤ name)) = true := by decide +kernel
  obtain ⟨base, hbase, hfacts⟩ := exists_of_okAnd hok
  obtain ⟨htotal, haccounts, hauthorities⟩ := of_decide_eq_true hfacts
  have hsplit : genesisAccounts (crowdGenesis n) =
      genesisAccounts { devGenesis with initialAccounts := [] } >>=
        (crowdGenesis n).initialAccounts.foldlM GenesisAccounts.createInitial := by
    simp only [genesisAccounts, bind_assoc, List.foldlM_nil, pure_bind]
    rfl
  have hsmall : ∀ acc ∈ (crowdGenesis n).initialAccounts, acc.name < 100000 := by
    intro acc hacc
    obtain ⟨i, hi, rfl⟩ := List.mem_map.1 hacc
    have hlt := List.mem_range.1 hi
    change (1000 + i : ℕ) < 100000
    omega
  obtain ⟨s, hs, htotal', _, hrows⟩ := @createInitial_loop (crowdGenesis n).initialAccounts base
    (fun acc hacc ↦ by
      obtain ⟨i, _, rfl⟩ := List.mem_map.1 hacc
      rfl)
    (by
      simp only [crowdGenesis, List.map_map]
      apply List.Nodup.map _ List.nodup_range
      intro i j hij
      simpa using hij)
    (fun acc hacc ↦ ⟨fun hmem ↦ (hsmall acc hacc).not_ge (haccounts _ hmem),
      fun hmem ↦ (hsmall acc hacc).not_ge (hauthorities _ hmem)⟩) htotal
  refine ⟨s, hsplit ▸ bind_eq_ok.2 ⟨base, hbase, hs⟩, htotal', fun i hi ↦ ?_⟩
  exact hrows _ (List.mem_map.2 ⟨i, List.mem_range.2 hi, rfl⟩)

theorem initGenesis_crowd {n : ℕ} (hn : n ≤ 65536) :
    ∃ s, initGenesis (crowdGenesis n) = .ok s ∧ Crowd n 0 0 s := by
  obtain ⟨initial, hinitial, htotal, hrows⟩ := genesisAccounts_crowd hn
  have hok : okAnd (EconomicModel.initEconomics devGenesis 300 20350) (fun _ ↦ true) = true := by
    decide +kernel
  obtain ⟨economics, heconomics, _⟩ := exists_of_okAnd hok
  have heconomics' : EconomicModel.initEconomics (crowdGenesis n) initial.totalInitialBalance
      (crowdGenesis n).totalSupply = .ok economics := by
    rw [htotal]
    exact heconomics
  simp only [initGenesis, bind_eq_ok, throwIf_eq_ok, pure_eq_ok]
  refine ⟨_, ⟨(), Nat.succ_ne_zero 2, initial, hinitial, economics, heconomics', rfl⟩, ?_⟩
  refine ⟨rfl, rfl, rfl, hrows, fun i hi ↦ absurd hi (Nat.not_lt_zero i), fun i hi _ ↦ ?_, ?_, rfl⟩
  · have hlarge : 100000 ≤ initMinerName := by decide
    refine (Table.find?_eq_none_iff _ _).2 fun hmem ↦ ?_
    have hname : 1000 + i = initMinerName := List.mem_singleton.1 hmem
    have hlt : (1000 + i : ℕ) < 100000 := by omega
    exact hlt.not_ge (hname ▸ hlarge)
  · rw [Database.votedFor]
    cases hrow : initial.accounts.find? 1000 with
    | none => rfl
    | some a => exact genesisAccounts_votedFor hinitial 1000 a hrow

/-! ### One more witness, one more vote -/

/-- A fee of zero is paid by doing nothing. -/
theorem processOperationFee_free {g : GenesisState} {s : Database} {op : Operation} {a : Account}
    (hrequired : op.requiredFee g g.symbol = .ok ⟨0, g.symbol⟩)
    (hsponsors : s.sponsors = Table.empty)
    (ha : s.accounts.find? op.feePayer = some a) :
    s.processOperationFee g ⟨op, ⟨0, g.symbol⟩⟩ = .ok s := by
  have hpayer : s.sponsorOf op.feePayer = op.feePayer := by
    rw [Database.sponsorOf, hsponsors]
    rfl
  unfold Database.processOperationFee
  split
  · rfl
  · simp only [bind_eq_ok, fcAssert_eq_ok, Database.getAccount, orUnknownKey_eq_ok, hpayer]
    refine ⟨_, hrequired, (), rfl, (), le_rfl, a, ha, ⟨0, g.symbol⟩, ?_, (), ⟨rfl, le_rfl⟩, ?_⟩
    · simp [Database.feeToPay]
    · simp [Database.payFee, fcAssert]

/-- A member of the crowd becomes a witness. -/
def memberUpdate (i : ℕ) : Operation :=
  .witnessUpdate (1000 + i) [104] 8 ⟨⟨0, sophiatxSymbol⟩, 131072, []⟩

/-- The first member votes for another one. -/
def memberVote (i : ℕ) : Operation := .accountWitnessVote 1000 (1000 + i) true

/-- An operation of the crowd. -/
def memberStage (op : Operation) : Stage :=
  .operation (devTransaction 1531512600 8 op) ⟨op, ⟨0, sophiatxSymbol⟩⟩

theorem Crowd.update {n i : ℕ} {s : Database} (h : Crowd n i 0 s) (hi : i < n) :
    ∃ s', (memberStage (memberUpdate i)).run (devContext (crowdGenesis n)) s = .ok s' ∧
      Crowd n (i + 1) 0 s' := by
  obtain ⟨a, ha, hidle⟩ := h.accounts i hi
  have hfee := @processOperationFee_free (crowdGenesis n) s (memberUpdate i) a rfl h.sponsors ha
  have hnone := h.others i hi le_rfl
  obtain ⟨witnesses, hwitnesses⟩ := exists_emplace? ((Table.find?_eq_none_iff _ _).1 hnone)
    ({ Witness.fresh (crowdGenesis n) s.witnesses.size with
      url := [104]
      signingKey := 8
      created := s.dgp.time
      props := ⟨⟨0, sophiatxSymbol⟩, 131072, []⟩ } : Witness)
  refine ⟨{ s with witnesses := witnesses }, ?_, ?_⟩
  · refine bind_eq_ok.2 ⟨s, hfee, ?_⟩
    simp only [memberUpdate, Database.evaluate, Database.witnessUpdateEvaluator, h.publicNet,
      Database.getAccount, Bool.false_eq_true, if_false, bind_eq_ok, orUnknownKey_eq_ok,
      fcAssert_eq_ok]
    refine ⟨a, ha, (), ?_, (), ?_, ?_⟩
    · rw [h.required, hidle.2.2.1]
    · intro hproducing
      cases hproducing
    · rw [hnone]
      exact bind_eq_ok.2 ⟨witnesses, createRow_eq_ok.2 hwitnesses, rfl⟩
  · have hfind := Table.find?_emplace? hwitnesses
    refine ⟨h.publicNet, h.required, h.sponsors, h.accounts, fun j hj ↦ ?_, fun j hj hle ↦ ?_,
      h.count, h.votes⟩
    · by_cases hsame : 1000 + j = 1000 + i
      · exact ⟨_, (hfind _).trans (if_pos hsame), rfl⟩
      · obtain ⟨w, hw, hvotes⟩ := h.witnesses j (by omega)
        exact ⟨w, (hfind _).trans ((if_neg hsame).trans hw), hvotes⟩
    · have hne : ¬ 1000 + j = 1000 + i := by omega
      exact (hfind _).trans ((if_neg hne).trans (h.others j hj (by omega)))

theorem Account.Idle.witnessVoteWeight {a : Account} (h : a.Idle) :
    a.witnessVoteWeight = .ok 0 := by
  obtain ⟨_, hbalance, hvesting, hproxied⟩ := h
  rw [AccountHoldings.witnessVoteWeight, AccountHoldings.proxiedVsfVotesTotal, hbalance, hvesting,
    hproxied]
  rfl

/-- Nothing is added to the votes of a witness that has none. -/
theorem Witness.adjustVote_zero {now : ℕ} {w : Witness} (h : w.votes = 0) :
    ∃ w', w.adjustVote now 0 = .ok w' ∧ w'.votes = 0 := by
  rw [adjustVote, h]
  exact ⟨_, rfl, rfl⟩

theorem Crowd.vote {n i : ℕ} {s : Database} (h : Crowd n n i s) (hi : i < n) :
    ∃ s', (memberStage (memberVote i)).run (devContext (crowdGenesis n)) s = .ok s' ∧
      Crowd n n (i + 1) s' := by
  obtain ⟨a, ha, hidle⟩ := h.accounts 0 (by omega)
  obtain ⟨w, hw, hwvotes⟩ := h.witnesses i hi
  have hfee := @processOperationFee_free (crowdGenesis n) s (memberVote i) a rfl h.sponsors ha
  have habsent : (1000, 1000 + i) ∉ s.witnessVotes.keys := by
    rw [h.votes]
    intro hmem
    obtain ⟨j, hj, hsame⟩ := List.mem_map.1 hmem
    have hlt := List.mem_range.1 hj
    have hij : 1000 + j = 1000 + i := congrArg Prod.snd hsame
    omega
  obtain ⟨votes, hvotes⟩ := exists_emplace? habsent ()
  obtain ⟨w', hadjust, hw'⟩ := @Witness.adjustVote_zero s.wso.currentVirtualTime w hwvotes
  have hcount : a.witnessesVotedFor = i % 65536 := by
    have hvotedFor := h.count
    rw [Database.votedFor, show s.accounts.find? 1000 = some a from ha] at hvotedFor
    exact hvotedFor
  have heval : s.accountWitnessVoteEvaluator (crowdGenesis n) 1000 (1000 + i) true =
      .ok (({ s with witnessVotes := votes }.modifyWitness (1000 + i) fun _ ↦ w').modifyAccount 1000
        fun a ↦ { a with witnessesVotedFor := (a.witnessesVotedFor + 1) % 65536 }) := by
    simp only [Database.accountWitnessVoteEvaluator, Database.assertPublicNet, Database.getAccount,
      Database.getWitness, bind_eq_ok, fcAssert_eq_ok, orUnknownKey_eq_ok]
    refine ⟨(), h.publicNet, a, ha, (), hidle.1, w, hw, ?_⟩
    rw [(Table.find?_eq_none_iff _ _).2 habsent]
    simp only [bind_eq_ok, fcAssert_eq_ok, createRow_eq_ok, pure_eq_ok]
    refine ⟨(), trivial, (), ?_, votes, hvotes, 0, hidle.witnessVoteWeight, _, ?_, rfl⟩
    · rw [hcount]
      exact Nat.mod_lt i (by decide)
    · exact bind_eq_ok.2 ⟨w, orUnknownKey_eq_ok.2 hw, bind_eq_ok.2 ⟨w', hadjust, rfl⟩⟩
  refine ⟨_, bind_eq_ok.2 ⟨s, hfee, heval⟩, ?_⟩
  refine ⟨h.publicNet, h.required, h.sponsors, fun j hj ↦ ?_, fun j hj ↦ ?_,
    fun j hj hle ↦ ?_, ?_, ?_⟩
  · obtain ⟨b, hb, hbidle⟩ := h.accounts j hj
    simp only [Database.modifyAccount, Database.modifyWitness, Table.find?_modify]
    split
    · exact ⟨_, congrArg (Option.map _) hb, hbidle⟩
    · exact ⟨b, hb, hbidle⟩
  · obtain ⟨v, hv, hvvotes⟩ := h.witnesses j hj
    simp only [Database.modifyAccount, Database.modifyWitness, Table.find?_modify]
    split
    · exact ⟨_, congrArg (Option.map _) hv, hw'⟩
    · exact ⟨v, hv, hvvotes⟩
  · omega
  · rw [@Database.votedFor_modifyAccount (({ s with witnessVotes := votes } :
      Database).modifyWitness (1000 + i) fun _ ↦ w') 1000 a ha, Function.update_self]
    simp only [hcount]
    omega
  · rw [List.range_succ, List.map_append, ← h.votes]
    exact Table.keys_emplace? hvotes

/-- All members register, and then the first votes for all of them. -/
def crowdStages (n : ℕ) : List Stage :=
  (List.range n).map (fun i ↦ memberStage (memberUpdate i)) ++
    (List.range n).map fun i ↦ memberStage (memberVote i)

theorem memberStage_valid {n i : ℕ} (hi : i < n) (hn : n ≤ 65536) :
    (memberStage (memberUpdate i)).Valid (devContext (crowdGenesis n)) ∧
      (memberStage (memberVote i)).Valid (devContext (crowdGenesis n)) := by
  have hname : validateAccountName (1000 + i) = .ok () := by
    rw [validateAccountName, fcAssert_eq_ok]
    calc (1000 + i : ℕ) < 100000 := by omega
      _ ≤ 2 ^ 192 := by decide
  have hvoter : validateAccountName 1000 = .ok () := by decide +kernel
  have hurl : validateUrl devEnv [104] = .ok () := by decide +kernel
  have hprops : ChainProperties.validate (crowdGenesis 0) ⟨⟨0, sophiatxSymbol⟩, 131072, []⟩ =
      .ok () := by decide +kernel
  constructor
  · exact bind_eq_ok.2 ⟨(), hname, bind_eq_ok.2 ⟨(), hurl, hprops⟩⟩
  · exact bind_eq_ok.2 ⟨(), hvoter, hname⟩

/-- A loop that gets one step further in every round. -/
theorem exists_run_range {σ ℓ : Type} (step : σ → ℓ → σ → Prop) (P : ℕ → σ → Prop)
    (label : ℕ → ℓ) {n : ℕ} (hstep : ∀ i < n, ∀ s, P i s → ∃ s', step s (label i) s' ∧ P (i + 1) s')
    {s₀ : σ} (hs₀ : P 0 s₀) : ∃ s, Run step s₀ ((List.range n).map label) s ∧ P n s := by
  induction n with
  | zero => exact ⟨s₀, .nil s₀, hs₀⟩
  | succ n ih =>
    obtain ⟨s, hrun, hs⟩ := ih fun i hi ↦ hstep i (Nat.lt_succ_of_lt hi)
    obtain ⟨s', hlast, hs'⟩ := hstep n (Nat.lt_succ_self n) s hs
    refine ⟨s', ?_, hs'⟩
    rw [List.range_succ, List.map_append]
    exact hrun.trans (.single hlast)

theorem crowd_run {n : ℕ} (hn : n ≤ 65536) :
    ∃ s₀ s, initGenesis (crowdGenesis n) = .ok s₀ ∧
      Run (Stage.Passes (devContext (crowdGenesis n))) s₀ (crowdStages n) s ∧
      Crowd n n n s := by
  obtain ⟨s₀, hgenesis, hs₀⟩ := initGenesis_crowd hn
  obtain ⟨s₁, hupdates, hs₁⟩ := exists_run_range
    (Stage.Passes (devContext (crowdGenesis n))) (fun i s ↦ Crowd n i 0 s)
    (fun i ↦ memberStage (memberUpdate i)) (fun i hi s hs ↦ by
      obtain ⟨s', hrun, hs'⟩ := hs.update hi
      exact ⟨s', ⟨(memberStage_valid hi hn).1, hrun⟩, hs'⟩) hs₀
  obtain ⟨s, hvotes, hs⟩ := exists_run_range
    (Stage.Passes (devContext (crowdGenesis n))) (fun i s ↦ Crowd n n i s)
    (fun i ↦ memberStage (memberVote i)) (fun i hi s hs ↦ by
      obtain ⟨s', hrun, hs'⟩ := hs.vote hi
      exact ⟨s', ⟨(memberStage_valid hi hn).2, hrun⟩, hs'⟩) hs₁
  exact ⟨s₀, s, hgenesis, hupdates.trans hvotes, hs⟩

/-- As many votes as 16 bits count, and one more, leave the count at zero. -/
theorem vote_records_not_of_crowd :
    ∃ s₀ s a, initGenesis (crowdGenesis 65536) = .ok s₀ ∧
      Run (Stage.Passes (devContext (crowdGenesis 65536))) s₀ (crowdStages 65536) s ∧
      s.accounts.find? 1000 = some a ∧ a.witnessesVotedFor = 0 ∧
      (s.votesOf 1000).length = 65536 ∧ ¬ VoteRecords (crowdGenesis 65536) s := by
  obtain ⟨s₀, s, hgenesis, hrun, hs⟩ := crowd_run le_rfl
  obtain ⟨a, ha, _⟩ := hs.accounts 0 (by decide)
  have hcount : a.witnessesVotedFor = 65536 % 65536 := by
    have hvotedFor := hs.count
    rw [Database.votedFor, show s.accounts.find? 1000 = some a from ha] at hvotedFor
    exact hvotedFor
  rw [Nat.mod_self] at hcount
  have hvotes : (s.votesOf 1000).length = 65536 := by
    have hall : s.witnessVotes.keys.filter (fun vote ↦ decide (vote.1 = 1000)) =
        s.witnessVotes.keys := by
      rw [List.filter_eq_self, hs.votes]
      intro vote hvote
      obtain ⟨i, _, rfl⟩ := List.mem_map.1 hvote
      exact decide_eq_true rfl
    rw [Database.votesOf, hall, List.length_map, hs.votes, List.length_map, List.length_range]
  refine ⟨s₀, s, a, hgenesis, hrun, ha, hcount, hvotes, fun hrecords ↦ ?_⟩
  have hsame : a.witnessesVotedFor = (s.votesOf 1000).length := hrecords.counted 1000 a ha
  rw [hcount, hvotes] at hsame
  exact absurd hsame (by decide)

end SophiaTX.Chain
