import SophiaTX.Chain.Objects
import SophiaTX.Lib.Partial

/-!
# Propagation of voting power

A change of an account's holdings is pushed up its proxy chain, one level of
`proxied_vsf_votes` per proxy, and on to the witnesses the last account of the chain votes for.
A chain longer than the recursion limit is cut off there.
-/

namespace SophiaTX.Chain

open SophiaTX.Protocol SophiaTX.Lib

/-- `database::adjust_witness_vote` on the witness. -/
def Witness.adjustVote (currentVirtualTime : ℕ) (delta : ShareType) (w : Witness) :
    Exec Witness := do
  let deltaPos := uint128Mul (uint128OfInt w.votes)
    (uint128Sub currentVirtualTime w.virtualLastUpdate)
  let virtualPosition := uint128Add w.virtualPosition deltaPos
  let votes ← safeAdd w.votes delta
  let lap ← uint128Div (uint128Sub virtualScheduleLapLength2 virtualPosition)
    (uint128OfInt (votes + 1))
  let scheduled := uint128Add currentVirtualTime lap
  pure { w with
    virtualPosition := virtualPosition
    virtualLastUpdate := currentVirtualTime
    votes := votes
    -- A scheduled time that wrapped around is put at the very end instead.
    virtualScheduledTime := if scheduled < currentVirtualTime then uint128Max else scheduled }

/-- Changes of voting power at proxy distance 0, 1, and so on. -/
abbrev VoteDeltas := Fin (maxProxyRecursionDepth + 1) → ShareType

/-- The sum of the first `5 - depth` changes, added from the last one down. -/
def VoteDeltas.total (delta : VoteDeltas) (depth : ℕ) : Exec ShareType :=
  ((List.finRange (maxProxyRecursionDepth + 1)).filter fun i ↦
      decide (i.val + depth ≤ maxProxyRecursionDepth)).reverse.foldlM
    (fun total i ↦ safeAdd total (delta i)) 0

def VoteDeltas.neg (delta : VoteDeltas) : Exec VoteDeltas :=
  if ∀ i, int64Min ≤ -delta i ∧ -delta i ≤ int64Max then .ok fun i ↦ -delta i
  else .error .overflow

/-- `proxied_vsf_votes[i + depth] += delta[i]` for every `i` with `i + depth` in the array. Each
entry changes once, so the order of the loop does not matter. -/
def AccountHoldings.addProxiedVotes (a : AccountHoldings) (delta : VoteDeltas) (depth : ℕ) :
    Exec (Fin maxProxyRecursionDepth → ShareType) :=
  let votes : Fin maxProxyRecursionDepth → ShareType := fun j ↦
    if depth ≤ j.val then
      a.proxiedVsfVotes j + delta ⟨j.val - depth, Nat.lt_succ_of_le (by omega)⟩
    else a.proxiedVsfVotes j
  if ∀ j, int64Min ≤ votes j ∧ votes j ≤ int64Max then .ok votes else .error .overflow

namespace Database

def adjustWitnessVote (s : Database) (witness : AccountName) (delta : ShareType) :
    Exec Database := do
  let w ← s.getWitness witness
  let w ← w.adjustVote s.wso.currentVirtualTime delta
  pure (s.modifyWitness witness fun _ ↦ w)

/-- The witnesses an account votes for. -/
def votesOf (s : Database) (account : AccountName) : List AccountName :=
  (s.witnessVotes.keys.filter fun vote ↦ decide (vote.1 = account)).map Prod.snd

def adjustWitnessVotes (s : Database) (account : AccountName) (delta : ShareType) :
    Exec Database :=
  (s.votesOf account).foldlM (fun s witness ↦ s.adjustWitnessVote witness delta) s

/-- `adjust_proxied_witness_votes` with an array of changes, `remaining` levels below the
recursion limit. -/
def adjustProxiedWitnessVotesArray (delta : VoteDeltas) :
    ℕ → AccountName → Database → Exec Database
  | 0, account, s => do
    let a ← s.getAccount account
    if a.proxy ≠ proxyToSelfAccount then
      pure s
    else do
      let total ← delta.total maxProxyRecursionDepth
      s.adjustWitnessVotes account total
  | remaining + 1, account, s => do
    let depth := maxProxyRecursionDepth - (remaining + 1)
    let a ← s.getAccount account
    if a.proxy ≠ proxyToSelfAccount then do
      let proxy ← s.getAccount a.proxy
      let votes ← proxy.addProxiedVotes delta depth
      let s := s.modifyAccount a.proxy fun _ ↦ { proxy with proxiedVsfVotes := votes }
      adjustProxiedWitnessVotesArray delta remaining a.proxy s
    else do
      let total ← delta.total depth
      s.adjustWitnessVotes account total

/-- `adjust_proxied_witness_votes` with one change, `remaining` levels below the recursion
limit. -/
def adjustProxiedWitnessVotesAt (delta : ShareType) :
    ℕ → AccountName → Database → Exec Database
  | 0, account, s => do
    let a ← s.getAccount account
    if a.proxy ≠ proxyToSelfAccount then
      pure s
    else
      s.adjustWitnessVotes account delta
  | remaining + 1, account, s => do
    let depth : Fin maxProxyRecursionDepth :=
      ⟨maxProxyRecursionDepth - (remaining + 1), Nat.sub_lt (by decide) (Nat.succ_pos _)⟩
    let a ← s.getAccount account
    if a.proxy ≠ proxyToSelfAccount then do
      let proxy ← s.getAccount a.proxy
      let vote ← safeAdd (proxy.proxiedVsfVotes depth) delta
      let s := s.modifyAccount a.proxy fun _ ↦
        { proxy with proxiedVsfVotes := Function.update proxy.proxiedVsfVotes depth vote }
      adjustProxiedWitnessVotesAt delta remaining a.proxy s
    else
      s.adjustWitnessVotes account delta

/-- `adjust_proxied_witness_votes` of an account, from depth 0. -/
def adjustProxiedWitnessVotes (s : Database) (account : AccountName) (delta : ShareType) :
    Exec Database :=
  adjustProxiedWitnessVotesAt delta maxProxyRecursionDepth account s

def clearWitnessVotes (s : Database) (account : AccountName) : Database :=
  { s with
    witnessVotes := s.witnessVotes.filterRows fun vote _ ↦ decide (vote.1 ≠ account)
    accounts := s.accounts.modify account fun a ↦ { a with witnessesVotedFor := 0 } }

end Database

/-- `proxied_vsf_votes_total`. -/
def AccountHoldings.proxiedVsfVotesTotal (a : AccountHoldings) : Exec ShareType :=
  (List.finRange maxProxyRecursionDepth).foldlM
    (fun total i ↦ safeAdd total (a.proxiedVsfVotes i)) 0

/-- `witness_vote_weight`. -/
def AccountHoldings.witnessVoteWeight (a : AccountHoldings) : Exec ShareType := do
  let proxied ← a.proxiedVsfVotesTotal
  safeAdd (← safeAdd proxied a.balance) a.vestingShares

end SophiaTX.Chain
