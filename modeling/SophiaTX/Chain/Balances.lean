import SophiaTX.Chain.Economics
import SophiaTX.Protocol.Validation
import SophiaTX.Chain.Votes

/-!
# Balances, supply and fees

The functions of `database` that every payment goes through.
-/

namespace SophiaTX.Chain

open SophiaTX.Protocol

/-- The number of blocks the holdings of an account still count for in its interest period. -/
def AccountHoldings.toMyTurn (a : AccountHoldings) (blockNo : ℕ) : ℕ :=
  let myTurn := a.id % interestBlocks
  let block := blockNo % interestBlocks
  if block ≤ myTurn then myTurn - block else myTurn + interestBlocks - block

/-- `account_object::update_considered_holding`. -/
def Account.updateConsideredHolding (a : Account) (inserted : ShareType) (blockNo : ℕ) :
    Exec Account := do
  let toAdd ← safeMul inserted (a.toMyTurn blockNo)
  let holdings ← safeAdd a.holdingsConsideredForInterests toAdd
  pure { a with holdingsConsideredForInterests := holdings }

namespace Database

variable (g : GenesisState)

/-- `adjust_balance`, that is `modify_balance` with the check of the new balance. -/
def adjustBalance (s : Database) (account : AccountName) (delta : Asset) : Exec Database := do
  let a ← s.getAccount account
  fcAssert (delta.symbol = g.symbol) "invalid symbol"
  let balance ← safeAdd a.balance delta.amount
  let a ← { a with balance := balance }.updateConsideredHolding delta.amount s.dgp.headBlockNumber
  fcAssert (0 ≤ balance) "Insufficient SOPHIATX funds"
  (s.modifyAccount account fun _ ↦ a).adjustProxiedWitnessVotes account delta.amount

/-- `create_vesting`. -/
def createVesting (s : Database) (account : AccountName) (delta : Asset) : Exec Database := do
  let a ← s.getAccount account
  fcAssert (delta.symbol = vestsSymbol) "invalid symbol"
  fcAssert (0 ≤ delta.amount) "cannot remove vests"
  let vestingShares ← safeAdd a.vestingShares delta.amount
  let a ← { a with vestingShares := vestingShares }.updateConsideredHolding delta.amount
    s.dgp.headBlockNumber
  (s.modifyAccount account fun _ ↦ a).adjustProxiedWitnessVotes account delta.amount

/-- `vest`: liquid shares of an account become vesting shares. -/
def vest (s : Database) (account : AccountName) (delta : ShareType) : Exec Database := do
  let a ← s.getAccount account
  fcAssert (delta ≤ a.balance) "a.balance.amount >= delta"
  let balance ← safeSub a.balance delta
  let vestingShares ← safeAdd a.vestingShares delta
  let totalVestingShares ← safeAdd s.dgp.totalVestingShares delta
  let s := s.modifyAccount account fun _ ↦
    { a with balance := balance, vestingShares := vestingShares }
  pure { s with dgp := { s.dgp with totalVestingShares := totalVestingShares } }

def adjustSupply (s : Database) (delta : Asset) : Exec Database := do
  fcAssert (delta.symbol = g.symbol) "invalid symbol"
  let currentSupply ← safeAdd s.dgp.currentSupply delta.amount
  fcAssert (0 ≤ currentSupply) "props.current_supply.amount.value + delta.amount >= 0"
  pure { s with dgp := { s.dgp with currentSupply := currentSupply } }

/-- `pay_fee`: a fee leaves the supply and goes to the pools. -/
def payFee (s : Database) (account : AccountName) (fee : Asset) : Exec Database := do
  fcAssert (0 ≤ fee.amount) "fee.amount >= 0"
  if fee.amount = 0 then
    pure s
  else do
    fcAssert (fee.symbol = g.symbol) "fee.symbol == SOPHIATX_SYMBOL"
    let a ← s.getAccount account
    fcAssert (fee.amount ≤ a.balance) "account.balance >= fee"
    let negated ← fee.neg
    let s ← s.adjustBalance g account negated
    let s ← s.adjustSupply g negated
    let economics ← s.economics.addFee g fee.amount
    pure { s with economics := economics }

def getFeedHistory (s : Database) (symbol : AssetSymbol) : Exec FeedHistory :=
  match s.feedHistories.find? symbol with
  | some feed => .ok feed
  | none => .error (.assertion "Symbol history not found")

/-- `to_sophiatx`: a fee in another currency at the median price. -/
def toSophiatx (s : Database) (sbd : Asset) : Exec Asset := do
  let feed ← s.getFeedHistory sbd.symbol
  let p := feed.currentMedianHistory
  fcAssert (sbd.symbol = sbd1Symbol ∨ sbd.symbol = sbd2Symbol ∨ sbd.symbol = sbd3Symbol ∨
    sbd.symbol = sbd4Symbol ∨ sbd.symbol = sbd5Symbol) "sbd.symbol"
  fcAssert (p.quote.symbol = g.symbol ∨ p.base.symbol = g.symbol)
    "p.quote.symbol == SOPHIATX_SYMBOL"
  fcAssert (p.quote.symbol = sbd.symbol ∨ p.base.symbol = sbd.symbol) "p.quote.symbol == sbd.symbol"
  sbd.mulPrice p

/-- The amount of SPHTX a fee stands for. -/
def feeToPay (s : Database) (fee : Asset) : Exec Asset :=
  if fee.symbol = g.symbol then pure fee else s.toSophiatx g fee

/-- The account that pays for the operations of `payer`: its sponsor, or itself. -/
def sponsorOf (s : Database) (payer : AccountName) : AccountName :=
  (s.sponsors.find? payer).getD payer

def processOperationFee (s : Database) (op : FeeOperation) : Exec Database :=
  if op.op.hasSpecialFee ∨ s.dgp.privateNet then
    pure s
  else do
    let required ← op.op.requiredFee g op.fee.symbol
    fcAssert (op.fee.symbol = required.symbol) "fee cannot be paid in with symbol"
    fcAssert (required.amount ≤ op.fee.amount) "bop.fee >= req_fee"
    let payer := s.sponsorOf op.op.feePayer
    let _ ← s.getAccount payer
    let toPay ← s.feeToPay g op.fee
    fcAssert (toPay.symbol = g.symbol ∧ 0 ≤ toPay.amount)
      "to_pay.symbol == SOPHIATX_SYMBOL && to_pay.amount >= 0"
    s.payFee g payer toPay

end Database

end SophiaTX.Chain
