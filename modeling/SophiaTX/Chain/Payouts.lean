import SophiaTX.Chain.BlockSteps

/-!
# Payouts of a block

The steps of `_apply_block` that move money by themselves: interests, the burning of what was
sent to the null account, the witness reward, vesting withdrawals and the refund of escrows that
were not ratified; and the check of the supply invariants.
-/

namespace SophiaTX.Chain

open SophiaTX.Protocol SophiaTX.Lib

namespace Database

/-! ## Interests -/

/-- The turn of one account in `process_interests`. -/
def payInterest (g : GenesisState) (s : Database) (name : AccountName) (a : Account) :
    Exec (Database × ShareType) := do
  let (economics, interest) ← (if g.interestDelay < s.dgp.headBlockNumber then
      s.economics.withdrawInterests g a.holdingsConsideredForInterests
        (min interestBlocks s.dgp.headBlockNumber)
    else pure (s.economics, 0))
  let s := { s with economics := economics }
  let s ← (if 0 < interest ∧ s.hasHardfork 1 then s.adjustProxiedWitnessVotes name interest
    else pure s)
  let a ← s.getAccount name
  let balance ← safeAdd a.balance interest
  let holdings ← safeMul (← safeAdd balance a.vestingShares) interestBlocks
  let s := s.modifyAccount name fun a ↦ { a with
    balance := balance
    holdingsConsideredForInterests := holdings }
  pure (s, interest)

/-- The loop of `process_interests` over every account of the batch. -/
def payInterests (g : GenesisState) : ℕ → ℕ → Database → ShareType → Exec (Database × ShareType)
  | 0, _, s, supplyIncrease => pure (s, supplyIncrease)
  | rounds + 1, id, s, supplyIncrease =>
    match s.findAccountById id with
    | none => pure (s, supplyIncrease)
    | some (name, a) => do
      let (s, interest) ← s.payInterest g name a
      let supplyIncrease ← (if 0 < interest then safeAdd supplyIncrease interest
        else pure supplyIncrease)
      payInterests g rounds (id + interestBlocks) s supplyIncrease

def processInterests (g : GenesisState) (s : Database) : Exec Database := do
  let batch := s.dgp.headBlockNumber % interestBlocks
  -- Ids grow by the batch size in every round, so there are at most as many rounds as accounts.
  let (s, supplyIncrease) ← payInterests g (s.accounts.size + 1) batch s 0
  s.adjustSupply g ⟨supplyIncrease, g.symbol⟩

/-! ## Price feeds -/

/-- Insertion into a sorted list of prices; the comparison may throw. -/
def insertPrice (p : Price) : List Price → Exec (List Price)
  | [] => pure [p]
  | q :: rest => do
    if ← q.lt p then do
      pure (q :: (← insertPrice p rest))
    else
      pure (p :: q :: rest)

def sortPrices (prices : List Price) : Exec (List Price) :=
  prices.foldrM insertPrice []

/-- Rates of the scheduled witnesses that are not too old, with their symbols. -/
def currentFeeds (s : Database) : Exec (List (AssetSymbol × Price)) := do
  let scheduled ← s.scheduledWitnesses
  let rates := scheduled.flatMap fun entry ↦ entry.2.submittedExchangeRates
  let fresh := rates.filter fun r ↦ decide (s.dgp.time < timeAdd r.2.lastChange maxFeedAgeSeconds)
  let valid ← fresh.filterM fun r ↦ do pure !(← r.2.rate.isNull)
  pure (valid.map fun r ↦ (r.1, r.2.rate))

def updateMedianFeed (g : GenesisState) (feeds : List (AssetSymbol × Price)) (s : Database)
    (symbol : AssetSymbol) : Exec Database := do
  let prices := (feeds.filter fun feed ↦ decide (feed.1 = symbol)).map Prod.snd
  if g.minFeeds ≤ prices.length then do
    let sorted ← sortPrices prices
    let _ ← s.getFeedHistory symbol
    let median := sorted.getD (sorted.length / 2) Price.default
    pure { s with feedHistories := s.feedHistories.modify symbol fun feed ↦
      { currentMedianHistory := median
        priceHistory := (feed.priceHistory ++ [median]).drop
          (feed.priceHistory.length + 1 - feedHistoryWindow) } }
  else pure s

def updateMedianFeeds (g : GenesisState) (s : Database) : Exec Database :=
  if g.blocksPerHour = 0 then .error .divideByZero
  else if s.dgp.headBlockNumber % g.blocksPerHour ≠ 0 then pure s
  else do
    let feeds ← s.currentFeeds
    ((feeds.map Prod.fst).dedup.insertionSort (· ≤ ·)).foldlM (updateMedianFeed g feeds) s

/-! ## Null account and witness reward -/

/-- The liquid shares of the null account are taken from it. -/
def clearNullLiquid (g : GenesisState) (s : Database) (balance : ShareType) :
    Exec (Database × ShareType) :=
  if 0 < balance then do
    let s ← s.adjustBalance g nullAccount ⟨← safeNeg balance, g.symbol⟩
    pure (s, balance)
  else pure (s, 0)

/-- The vesting shares of the null account are set to zero and leave the recorded total. -/
def clearNullVesting (s : Database) (vestingShares totalSophiatx : ShareType) :
    Exec (Database × ShareType) :=
  if 0 < vestingShares then do
    let totalVestingShares ← safeSub s.dgp.totalVestingShares vestingShares
    let s := { s with dgp := { s.dgp with totalVestingShares := totalVestingShares } }
    let s := s.modifyAccount nullAccount fun a ↦ { a with vestingShares := 0 }
    pure (s, ← safeAdd totalSophiatx vestingShares)
  else pure (s, totalSophiatx)

def clearNullAccountBalance (g : GenesisState) (s : Database) : Exec Database := do
  let a ← s.getAccount nullAccount
  let (s, totalSophiatx) ← s.clearNullLiquid g a.balance
  let (s, totalSophiatx) ← s.clearNullVesting a.vestingShares totalSophiatx
  if 0 < totalSophiatx then s.adjustSupply g ⟨← safeNeg totalSophiatx, g.symbol⟩
  else pure s

/-- Share of the reward for a witness, by the way it was scheduled. -/
def rewardNominator (wso : WitnessSchedule) : WitnessScheduleType → ℕ
  | .timeshare => wso.timeshareWeight
  | .top19 => wso.top19Weight
  | .none => 0

def processFunds (g : GenesisState) (s : Database) (blockNum : ℕ) : Exec Database := do
  let w ← s.getWitness s.dgp.currentWitness
  let (economics, witnessReward) ← s.economics.withdrawMiningReward g blockNum
    (rewardNominator s.wso w.schedule) s.wso.witnessPayNormalizationFactor
  let s := { s with economics := economics }
  let s ← s.createVesting s.dgp.currentWitness ⟨witnessReward, vestsSymbol⟩
  let currentSupply ← safeAdd s.dgp.currentSupply witnessReward
  let totalVestingShares ← safeAdd s.dgp.totalVestingShares witnessReward
  pure { s with dgp := { s.dgp with
    currentSupply := currentSupply
    totalVestingShares := totalVestingShares } }

/-! ## Vesting withdrawals -/

/-- Index order by next withdrawal, ties by name. -/
def withdrawalBefore (a b : AccountName × Account) : Prop :=
  a.2.nextVestingWithdrawal < b.2.nextVestingWithdrawal ∨
    (a.2.nextVestingWithdrawal = b.2.nextVestingWithdrawal ∧ a.1 < b.1)

instance (a b : AccountName × Account) : Decidable (withdrawalBefore a b) :=
  inferInstanceAs (Decidable (_ ∨ _))

def earlierWithdrawal (first : Option (AccountName × Account)) (entry : AccountName × Account) :
    Option (AccountName × Account) :=
  match first with
  | none => some entry
  | some best => if withdrawalBefore entry best then some entry else some best

/-- The first entry in index order. -/
def firstWithdrawal (entries : List (AccountName × Account)) : Option (AccountName × Account) :=
  entries.foldl earlierWithdrawal none

/-- The amount paid out of an account whose withdrawal is due. -/
def withdrawalAmount (a : Account) : Exec ShareType := do
  let rest ← safeSub a.toWithdraw a.withdrawn
  if rest < a.vestingWithdrawRate then do
    let last ← safeMod a.toWithdraw a.vestingWithdrawRate
    pure (min a.vestingShares last)
  else
    pure (min a.vestingShares a.vestingWithdrawRate)

/-- One payout of `process_vesting_withdrawals` from an account. -/
def withdrawFromAccount (a : Account) (toWithdraw : ShareType) : Exec Account := do
  let vestingShares ← safeSub a.vestingShares toWithdraw
  let balance ← safeAdd a.balance toWithdraw
  let withdrawn ← safeAdd a.withdrawn toWithdraw
  let a := { a with vestingShares := vestingShares, balance := balance, withdrawn := withdrawn }
  if a.toWithdraw ≤ withdrawn ∨ vestingShares = 0 then
    pure { a with vestingWithdrawRate := 0, nextVestingWithdrawal := maximumTime }
  else
    let next := timeAdd a.nextVestingWithdrawal vestingWithdrawIntervalSeconds
    pure { a with nextVestingWithdrawal := next }

def processVestingWithdrawal (s : Database) (name : AccountName) (a : Account) :
    Exec Database := do
  let toWithdraw ← withdrawalAmount a
  let a ← withdrawFromAccount a toWithdraw
  let totalVestingShares ← safeSub s.dgp.totalVestingShares toWithdraw
  let s := s.modifyAccount name fun _ ↦ a
  pure { s with dgp := { s.dgp with totalVestingShares := totalVestingShares } }

/-- The loop of `process_vesting_withdrawals`. The iterator moves on before the account is
modified, and stays on the account it moved to. -/
def vestingWithdrawalsLoop : ℕ → Option (AccountName × Account) → Database → Exec Database
  | 0, _, s => pure s
  | _, none, s => pure s
  | rounds + 1, some (name, a), s =>
    if a.nextVestingWithdrawal ≤ s.dgp.time then do
      let next := firstWithdrawal (s.accounts.entries.filter fun entry ↦
        decide (withdrawalBefore (name, a) entry))
      let s ← s.processVestingWithdrawal name a
      vestingWithdrawalsLoop rounds next s
    else pure s

/-- Every payout moves an account on by a day of the 32-bit time, which bounds the rounds. -/
def processVestingWithdrawals (s : Database) : Exec Database :=
  vestingWithdrawalsLoop (s.accounts.size * 49712 + 1) (firstWithdrawal s.accounts.entries) s

/-! ## Recovery and escrow expiry -/

def applyRecoveryChange (s : Database) (entry : AccountName × ChangeRecoveryAccountRequest) :
    Exec Database := do
  let _ ← s.getAccount entry.1
  let s := s.modifyAccount entry.1 fun a ↦ { a with recoveryAccount := entry.2.recoveryAccount }
  pure { s with changeRecoveryRequests := s.changeRecoveryRequests.erase entry.1 }

def accountRecoveryProcessing (s : Database) : Exec Database := do
  let s := { s with
    recoveryRequests := s.recoveryRequests.filterRows fun _ request ↦
      decide (s.dgp.time < request.expires)
    ownerHistories := s.ownerHistories.dropWhile fun hist ↦
      decide (timeAdd hist.lastValidTime ownerAuthRecoveryPeriod < s.dgp.time) }
  let due := s.changeRecoveryRequests.entries.filter fun entry ↦
    decide (entry.2.effectiveOn ≤ s.dgp.time)
  let ordered := due.insertionSort fun a b ↦ a.2.effectiveOn < b.2.effectiveOn ∨
    (a.2.effectiveOn = b.2.effectiveOn ∧ a.1 ≤ b.1)
  ordered.foldlM applyRecoveryChange s

/-- Escrows that are not approved by their deadline, by deadline and id. -/
def unratifiedEscrows (s : Database) : List ((AccountName × ℕ) × Escrow) :=
  (s.escrows.entries.filter fun entry ↦
      !entry.2.isApproved && decide (entry.2.ratificationDeadline ≤ s.dgp.time)).insertionSort
    fun a b ↦ a.2.ratificationDeadline ≤ b.2.ratificationDeadline

def expireEscrowRatification (g : GenesisState) (s : Database) : Exec Database :=
  s.unratifiedEscrows.foldlM (fun s entry ↦ s.refundEscrow g entry.1 entry.2) s

/-! ## Supply history and invariants -/

def recordBlock (s : Database) (blockNum : ℕ) : Exec Database := do
  let economics ← s.economics.recordBlock blockNum s.dgp.currentSupply
  pure { s with economics := economics }

def accountBalances (s : Database) : ShareType := s.accounts.sum fun _ a ↦ a.balance

def accountVestingShares (s : Database) : ShareType := s.accounts.sum fun _ a ↦ a.vestingShares

def escrowBalances (s : Database) : ShareType :=
  s.escrows.sum fun _ e ↦ e.sophiatxBalance.amount + e.pendingFee.amount

/-- `validate_invariants`, on exact sums. -/
def validateInvariants (g : GenesisState) (s : Database) : Exec Unit :=
  if s.dgp.privateNet then pure ()
  else do
    fcAssert (∀ entry ∈ s.witnesses.entries, entry.2.votes ≤ s.dgp.currentSupply)
      "itr->votes <= gpo.current_supply.amount"
    fcAssert (∀ entry ∈ s.escrows.entries, entry.2.pendingFee.symbol = g.symbol)
      "found escrow pending fee that is not SPHTX"
    fcAssert (s.dgp.currentSupply = s.accountBalances + s.escrowBalances + s.accountVestingShares)
      "gpo.current_supply == total_supply + total_vesting"
    fcAssert (s.dgp.totalVestingShares = s.accountVestingShares)
      "gpo.total_vesting_shares == total_vesting"
    fcAssert (s.dgp.currentSupply + s.economics.poolTotal = g.totalSupply)
      "difference in the total supply"

end Database

end SophiaTX.Chain
