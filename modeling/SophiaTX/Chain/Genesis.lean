import SophiaTX.Chain.Runs

/-!
# The genesis state

What `init_genesis` leaves in the account table: rows in the order of their ids, with the initial
balances and nothing vested, and a total that is their sum.
-/

namespace SophiaTX.Chain

open SophiaTX.Protocol SophiaTX.Lib

/-- A balance that the genesis file gives to an account. -/
def GenesisState.Grants (g : GenesisState) (balance : ShareType) : Prop :=
  balance = 0 ∨ balance = g.initialBalance ∨ ∃ acc ∈ g.initialAccounts, balance = acc.balance

/-- A row of the genesis account table: a fresh account with an initial balance. -/
def Account.IsInitial (g : GenesisState) (a : Account) : Prop :=
  ∃ balance, GenesisState.Grants g balance ∧ a.toAccountHoldings =
    { (Account.fresh a.id).toAccountHoldings with
      balance := balance
      holdingsConsideredForInterests := balance * 2 }

/-- Rows stand in the order of their ids. -/
def InOrder (accounts : Table AccountName Account) : Prop :=
  accounts.entries.map (fun entry ↦ entry.2.id) = List.range accounts.size

theorem InOrder.of_agree {accounts accounts' : Table AccountName Account}
    (h : accounts.AgreeOn (fun a ↦ a.id) accounts') (horder : InOrder accounts) :
    InOrder accounts' := by
  have hsize : accounts'.size = accounts.size := by
    have hkeys := congrArg List.length h.1
    simpa [Table.keys, Table.size] using hkeys
  rw [InOrder, hsize, ← horder]
  exact h.map_eq id fun _ ↦ rfl

theorem InOrder.emplace? {accounts accounts' : Table AccountName Account} {name : AccountName}
    {a : Account} (h : accounts.emplace? name a = some accounts') (hid : a.id = accounts.size)
    (horder : InOrder accounts) : InOrder accounts' := by
  have hentries := (Table.emplace?_eq_some h).2
  have hsize : accounts'.size = accounts.size + 1 := by simp [Table.size, hentries]
  rw [InOrder, hsize, List.range_succ, hentries, List.map_append, ← horder, List.map_singleton, hid]

namespace InOrder

variable {accounts : Table AccountName Account}

theorem getElem_id (h : InOrder accounts) {i : ℕ} (hi : i < accounts.entries.length) :
    accounts.entries[i].2.id = i := by
  have hrow : (accounts.entries.map fun entry ↦ entry.2.id)[i]? = (List.range accounts.size)[i]? :=
    congrArg (fun ids ↦ ids[i]?) h
  simpa [hi, Table.size] using hrow

theorem id_lt (h : InOrder accounts) {name : AccountName} {a : Account}
    (ha : accounts.find? name = some a) : a.id < accounts.size := by
  have hmem : a.id ∈ accounts.entries.map fun entry ↦ entry.2.id :=
    List.mem_map.2 ⟨(name, a), (Table.find?_eq_some_iff _ _ _).1 ha, rfl⟩
  rw [h] at hmem
  exact List.mem_range.1 hmem

/-- An id is that of one account. -/
theorem key_eq (h : InOrder accounts) {name name' : AccountName} {a a' : Account}
    (ha : accounts.find? name = some a) (ha' : accounts.find? name' = some a')
    (hid : a.id = a'.id) : name = name' := by
  obtain ⟨i, hi, hentry⟩ := List.getElem_of_mem ((Table.find?_eq_some_iff _ _ _).1 ha)
  obtain ⟨j, hj, hentry'⟩ := List.getElem_of_mem ((Table.find?_eq_some_iff _ _ _).1 ha')
  have hi' := h.getElem_id hi
  have hj' := h.getElem_id hj
  rw [hentry] at hi'
  rw [hentry'] at hj'
  obtain rfl : i = j := by
    rw [← hi', ← hj']
    exact hid
  rw [hentry] at hentry'
  exact congrArg Prod.fst hentry'

theorem size_le_of_findAccountById {s : Database} {id : ℕ} (h : InOrder s.accounts)
    (hnone : s.findAccountById id = none) : s.accounts.size ≤ id := by
  by_contra hid
  have hlt : id < s.accounts.entries.length := not_le.1 hid
  have hfound := List.find?_eq_none.1 hnone _ (List.getElem_mem hlt)
  simp [h.getElem_id hlt] at hfound

end InOrder

namespace GenesisAccounts

/-- What the loop of `init_genesis` over the accounts keeps. -/
structure Good (g : GenesisState) (s : GenesisAccounts) : Prop where
  rows : s.accounts.Forall fun _ a ↦ a.IsInitial g
  total : s.totalInitialBalance = s.accounts.sum fun _ a ↦ a.balance
  order : InOrder s.accounts

variable {g : GenesisState} {s s' : GenesisAccounts}

theorem Good.create {name : AccountName} {a : Account} {owner active : Authority} (hs : s.Good g)
    (ha : a.IsInitial g) (hid : a.id = s.accounts.size)
    (h : s.create name a owner active = .ok s') :
    s'.Good g ∧ s'.accounts.size = s.accounts.size + 1 := by
  simp only [GenesisAccounts.create, safeAdd, bind_eq_ok, checked_eq_ok, createRow_eq_ok,
    pure_eq_ok] at h
  obtain ⟨_, ⟨_, rfl⟩, accounts, haccounts, authorities, _, rfl⟩ := h
  have hentries := (Table.emplace?_eq_some haccounts).2
  have hsize : accounts.size = s.accounts.size + 1 := by
    simp [Table.size, hentries]
  refine ⟨⟨hs.rows.emplace? haccounts ha, ?_, ?_⟩, hsize⟩
  · rw [Table.sum_emplace? haccounts, hs.total]
  · exact hs.order.emplace? haccounts hid

end GenesisAccounts

theorem genesisAccount_eq_ok {id : ℕ} {key : PublicKey} {balance : ShareType}
    {recoveryAccount resetAccount : AccountName} {a : Account}
    (h : genesisAccount id key balance recoveryAccount resetAccount = .ok a) :
    a.id = id ∧ a.toAccountHoldings = { (Account.fresh a.id).toAccountHoldings with
      balance := balance
      holdingsConsideredForInterests := balance * 2 } := by
  simp only [genesisAccount, safeMul, bind_eq_ok, checked_eq_ok, pure_eq_ok] at h
  obtain ⟨_, ⟨_, rfl⟩, rfl⟩ := h
  exact ⟨rfl, rfl⟩

theorem Account.fresh_isInitial (g : GenesisState) (id : ℕ) : (Account.fresh id).IsInitial g :=
  ⟨0, .inl rfl, rfl⟩

theorem genesisAccounts_good {g : GenesisState} {s : GenesisAccounts}
    (h : genesisAccounts g = .ok s) : s.Good g := by
  simp only [genesisAccounts, bind_eq_ok] at h
  obtain ⟨s₁, hminer, s₂, hnull, s₃, htemp, initMiner, hinit, s₄, hinitMiner, h⟩ := h
  have hempty : (⟨Table.empty, Table.empty, 0⟩ : GenesisAccounts).Good g :=
    ⟨fun _ _ h ↦ (by cases h), rfl, rfl⟩
  obtain ⟨hs₁, hsize₁⟩ := hempty.create (Account.fresh_isInitial g 0) rfl hminer
  obtain ⟨hs₂, hsize₂⟩ := hs₁.create (Account.fresh_isInitial g 1) (by rw [hsize₁]; rfl) hnull
  obtain ⟨hs₃, hsize₃⟩ :=
    hs₂.create (Account.fresh_isInitial g 2) (by rw [hsize₂, hsize₁]; rfl) htemp
  obtain ⟨hid, hholdings⟩ := genesisAccount_eq_ok hinit
  obtain ⟨hs₄, _⟩ := hs₃.create ⟨_, .inr (.inl rfl), hholdings⟩
    (by rw [hid, hsize₃, hsize₂, hsize₁]; rfl) hinitMiner
  refine foldlM_invariant (I := GenesisAccounts.Good g) ?_ h hs₄
  intro t acc t' hacc hround ht
  simp only [GenesisAccounts.createInitial, bind_eq_ok] at hround
  obtain ⟨a, ha, hround⟩ := hround
  obtain ⟨hid, hholdings⟩ := genesisAccount_eq_ok ha
  exact (ht.create ⟨_, .inr (.inr ⟨acc, hacc, rfl⟩), hholdings⟩ hid hround).1

/-- The genesis state, as far as money is concerned. -/
structure GenesisBooks (g : GenesisState) (s : Database) : Prop where
  rows : s.accounts.Forall fun _ a ↦ a.IsInitial g
  supply : s.dgp.currentSupply = s.accountBalances
  order : InOrder s.accounts
  escrows : s.escrows = Table.empty
  vesting : s.dgp.totalVestingShares = 0
  accumulated : s.economics.accumulatedSupply = 0
  historic : s.economics.historicSupply = fun _ ↦ 0
  head : s.dgp.headBlockNumber = 0
  headId : s.dgp.headBlockId = BlockId.null
  privateNet : s.dgp.privateNet = g.isPrivateNet
  coinbaseBlocks : g.coinbaseBlocks ≠ 0
  witnessVotes : s.witnessVotes = Table.empty

theorem initGenesis_books {g : GenesisState} {s : Database} (h : initGenesis g = .ok s) :
    GenesisBooks g s := by
  simp only [initGenesis, EconomicModel.initEconomics, bind_eq_ok, pure_eq_ok] at h
  obtain ⟨_, _, initial, hinitial, economics, ⟨_, _, _, _, _, _, _, _, _, hreward, rfl⟩, rfl⟩ := h
  have hgood := genesisAccounts_good hinitial
  have hcoinbaseBlocks : g.coinbaseBlocks ≠ 0 := by
    intro hzero
    rw [hzero] at hreward
    simp [safeDiv] at hreward
  exact ⟨hgood.rows, hgood.total, hgood.order, rfl, rfl, rfl, rfl, rfl, rfl, rfl,
    hcoinbaseBlocks, rfl⟩

theorem GenesisBooks.sound {g : GenesisState} {s : Database} (h : GenesisBooks g s) : Sound s := by
  refine ⟨?_, ?_⟩
  · rw [h.escrows]
    exact fun _ _ h ↦ (by cases h)
  · rw [h.accumulated]
    decide

theorem GenesisBooks.accountVestingShares_eq {g : GenesisState} {s : Database}
    (h : GenesisBooks g s) : s.accountVestingShares = 0 := by
  have hrows : s.accountVestingShares = s.accounts.sum fun _ _ ↦ (0 : ShareType) := by
    apply Table.sum_congr
    intro name a ha
    obtain ⟨_, _, hholdings⟩ := h.rows name a ha
    rw [hholdings]
    rfl
  rw [hrows]
  simp [Table.sum]

theorem GenesisBooks.gaps_eq {g : GenesisState} {s : Database} (h : GenesisBooks g s) :
    s.supplyGap = 0 ∧ s.vestingGap = 0 := by
  have hescrows : s.escrowBalances = 0 := by
    rw [Database.escrowBalances, h.escrows, Table.sum_empty]
  rw [Database.supplyGap, Database.vestingGap, h.accountVestingShares_eq, h.supply, hescrows,
    h.vesting]
  simp

/-! ## A development network -/

/-- Signatures that name their keys, and hashes that name what they hash. -/
def devEnv : Env where
  headerHash h := h.timestamp * 1000 + h.witnessSignature
  trxId trx := trx.expiration
  merkleRoot _ := 0
  blockPackSize b := 115 + 200 * b.transactions.length
  operationPackSize _ := 100
  signee _ b := b.witnessSignature
  signatureKeys _ trx := .ok trx.signatures
  makeRandomFixedString nameSeed := 1000 + nameSeed.length
  isValidAccountName _ := true
  isUtf8 _ := true
  jsonIsValid _ := true

/-- A network with one funded account beside the init miner. Fees are zero, and the pools get
shares of the coinbase that add up to all of it. -/
def devGenesis : GenesisState where
  initialPublicKey := 7
  initialPublicMiningKey := 7
  initialBalance := 300
  initialSupply := 350
  totalSupply := 20350
  maxWitnesses := 51
  hardforkReqWitnesses := 31
  maxVotedWitnesses := 47
  maxRunnerWitnesses := 4
  maxAccountWitnessVotes := 60
  initialWitnessReqVestingBalance := 250
  finalWitnessReqVestingBalance := 300
  witnessVestingIncreaseDays := 159
  blockInterval := 3
  maxTransactionSize := 8192
  maxBlockSize := 2048
  promotionPoolPercentage := 1000
  miningPoolPercentage := 2500
  interestPoolPercentage := 6500
  burnFeePercentage := 1000
  coinbaseYears := 25
  minAccCreationFee := 0
  baseFee := 0
  baseFeeUsd := 0
  baseFeeEur := 0
  baseFeeChf := 0
  baseFeeCny := 0
  baseFeeGbp := 0
  symbol := sophiatxSymbol
  limitBandwidthBlocks := 51
  maxAllowedBandwidth := 51000
  maxAllowedOps := 102
  genesisTime := 1531512800
  isPrivateNet := false
  initialAccounts := [⟨1000, 8, 50⟩]

def devContext (g : GenesisState) : Context := ⟨g, devEnv, {}, false⟩

/-- The development network with a block an hour. -/
def hourlyGenesis : GenesisState :=
  { devGenesis with blockInterval := 3600, genesisTime := 1531512000 }

/-- A block of a development network, signed by the init miner. -/
def devBlock (previous : BlockId) (timestamp : Time) (transactions : List Transaction) :
    SignedBlock where
  previous := previous
  timestamp := timestamp
  witness := initMinerName
  transactionMerkleRoot := 0
  extensions := [.version blockchainVersion]
  witnessSignature := 7
  transactions := transactions

/-- A transaction of one operation without a fee. -/
def devTransaction (expiration : Time) (key : PublicKey) (op : Operation) : Transaction :=
  ⟨0, 0, expiration, [⟨op, ⟨0, sophiatxSymbol⟩⟩], [key]⟩

end SophiaTX.Chain
