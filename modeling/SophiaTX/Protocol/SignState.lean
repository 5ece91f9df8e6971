import SophiaTX.Protocol.Validation

/-!
# Signature checking

`sign_state` follows authorities down to a fixed depth and marks the signatures it uses.
`verify_authority` checks all authorities a list of operations requires and that no signature
is left unused. `minimize_required_signatures` looks for keys to sign with.
-/

namespace SophiaTX.Protocol

structure SignState where
  /-- Keys that signed, with a mark for those already used. -/
  providedSignatures : List (PublicKey × Bool)
  approvedBy : List AccountName
  /-- Keys that could still sign. -/
  availableKeys : List PublicKey

namespace SignState

/-- The state before any check; the temp account counts as approved. -/
def initial (sigs availableKeys : List PublicKey) : SignState :=
  ⟨sigs.map fun key ↦ (key, false), [tempAccount], availableKeys⟩

def signedBy (st : SignState) (key : PublicKey) : SignState × Bool :=
  if key ∈ st.providedSignatures.map Prod.fst then
    ({ st with providedSignatures := st.providedSignatures.map fun sig ↦
        if sig.1 = key then (key, true) else sig }, true)
  else if key ∈ st.availableKeys then
    ({ st with providedSignatures := st.providedSignatures ++ [(key, true)] }, true)
  else (st, false)

/-- Weight of the keys of an authority that signed, until the threshold is reached. -/
def keyWeight (threshold : ℕ) : List (PublicKey × ℕ) → SignState → ℕ → SignState × ℕ × Bool
  | [], st, total => (st, total, false)
  | (key, weight) :: rest, st, total =>
    match st.signedBy key with
    | (st, true) =>
      let total := uint32 (total + weight)
      if threshold ≤ total then (st, total, true) else keyWeight threshold rest st total
    | (st, false) => keyWeight threshold rest st total

/-- Whether an account of an authority approves. `check` decides an account that is not approved
yet; there is none at the recursion limit, where such accounts are passed over. -/
def approves (check : Option (AccountName → SignState → Exec (SignState × Bool)))
    (name : AccountName) (st : SignState) : Exec (SignState × Bool) :=
  if name ∈ st.approvedBy then pure (st, true)
  else
    match check with
    | none => pure (st, false)
    | some check => do
      let (st, approved) ← check name st
      if approved then pure ({ st with approvedBy := name :: st.approvedBy }, true)
      else pure (st, false)

/-- The loop over the accounts of an authority. -/
def accountWeight (threshold : ℕ)
    (check : Option (AccountName → SignState → Exec (SignState × Bool))) :
    List (AccountName × ℕ) → SignState → ℕ → Exec (SignState × Bool)
  | [], st, total => pure (st, decide (threshold ≤ total))
  | (name, weight) :: rest, st, total => do
    let (st, approved) ← approves check name st
    if approved then do
      let total := uint32 (total + weight)
      if threshold ≤ total then pure (st, true)
      else accountWeight threshold check rest st total
    else
      accountWeight threshold check rest st total

/-- One level of `check_authority`: the keys first, then the accounts. -/
def checkLevel (check : Option (AccountName → SignState → Exec (SignState × Bool)))
    (auth : Authority) (st : SignState) : Exec (SignState × Bool) :=
  match keyWeight auth.weightThreshold auth.keyAuths st 0 with
  | (st, _, true) => pure (st, true)
  | (st, total, false) => accountWeight auth.weightThreshold check auth.accountAuths st total

/-- `check_authority`, with the number of levels left below the recursion limit. -/
def checkAuthority (getActive : AccountName → Exec Authority) :
    ℕ → Authority → SignState → Exec (SignState × Bool)
  | 0, auth, st => checkLevel none auth st
  | levels + 1, auth, st => checkLevel (some fun name st ↦ do
      let auth ← getActive name
      checkAuthority getActive levels auth st) auth st

/-- `check_authority` of an account by its name. -/
def checkAccount (getActive : AccountName → Exec Authority) (maxRecursion : ℕ)
    (name : AccountName) (st : SignState) : Exec (SignState × Bool) :=
  if name ∈ st.approvedBy then pure (st, true)
  else do
    let auth ← getActive name
    checkAuthority getActive maxRecursion auth st

/-- Keys that are provided but not used. -/
def unusedSignatures (st : SignState) : List PublicKey :=
  (st.providedSignatures.filter fun sig ↦ !sig.2).map Prod.fst

/-- `remove_unused_signatures`, with whether there were any. -/
def removeUnusedSignatures (st : SignState) : SignState × Bool :=
  let kept := st.providedSignatures.filter fun sig ↦ decide (sig.1 ∉ st.unusedSignatures)
  ({ st with providedSignatures := kept }, !st.unusedSignatures.isEmpty)

end SignState

/-- The members of a `flat_set`: sorted, without repetition. -/
def flatSet (names : List ℕ) : List ℕ :=
  names.dedup.insertionSort (· ≤ ·)

/-- `get_required_auth_visitor`: the accounts whose active and owner authority is required, and
further authorities. -/
def requiredAuthorities (operations : List FeeOperation) :
    List AccountName × List AccountName × List Authority :=
  (flatSet (operations.flatMap fun op ↦ op.op.requiredActiveAuthorities),
    flatSet (operations.flatMap fun op ↦ op.op.requiredOwnerAuthorities),
    operations.flatMap fun op ↦ op.op.requiredOtherAuthorities)

section Verify

open SignState

variable (getActive getOwner : AccountName → Exec Authority) (maxRecursion : ℕ)

/-- A further authority. -/
def verifyOther (st : SignState) (auth : Authority) : Exec SignState := do
  let (st, ok) ← checkAuthority getActive maxRecursion auth st
  if ok then pure st else .error .missingOtherAuth

/-- The active authority of an account, with its owner authority in its place if need be. -/
def verifyActive (st : SignState) (name : AccountName) : Exec SignState := do
  let (st, ok) ← checkAccount getActive maxRecursion name st
  if ok then pure st
  else do
    let auth ← getOwner name
    let (st, ok) ← checkAuthority getActive maxRecursion auth st
    if ok then pure st else .error (.missingActiveAuth name)

def verifyOwner (st : SignState) (name : AccountName) : Exec SignState := do
  let auth ← getOwner name
  let (st, ok) ← checkAuthority getActive maxRecursion auth st
  if ok then pure st else .error (.missingOwnerAuth name)

/-- `verify_authority` with a recursion limit. -/
def verifyAuthorityAt (operations : List FeeOperation) (sigs : List PublicKey) : Exec Unit := do
  let (active, owner, other) := requiredAuthorities operations
  let st := SignState.initial sigs []
  let st ← other.foldlM (verifyOther getActive maxRecursion) st
  let st ← active.foldlM (verifyActive getActive getOwner maxRecursion) st
  let st ← owner.foldlM (verifyOwner getActive getOwner maxRecursion) st
  if st.removeUnusedSignatures.2 then .error .irrelevantSignature else pure ()

/-- A check whose result is not used. -/
def collectAuthority (st : SignState) (auth : Authority) : Exec SignState := do
  let (st, _) ← checkAuthority getActive maxRecursion auth st
  pure st

def collectOwner (st : SignState) (name : AccountName) : Exec SignState := do
  let auth ← getOwner name
  collectAuthority getActive maxRecursion st auth

def collectActive (st : SignState) (name : AccountName) : Exec SignState := do
  let (st, _) ← checkAccount getActive maxRecursion name st
  pure st

/-- `get_required_signatures` of operations with some signatures: the available keys that checks of
the required authorities use, whether or not they succeed. -/
def getRequiredSignatures (operations : List FeeOperation) (sigs availableKeys : List PublicKey) :
    Exec (List PublicKey) := do
  let (active, owner, other) := requiredAuthorities operations
  let st := SignState.initial sigs availableKeys
  let st ← other.foldlM (collectAuthority getActive maxRecursion) st
  let st ← owner.foldlM (collectOwner getActive getOwner maxRecursion) st
  let st ← active.foldlM (collectActive getActive maxRecursion) st
  let provided := st.removeUnusedSignatures.1.providedSignatures.map Prod.fst
  pure (flatSet (provided.filter fun key ↦ decide (key ∈ availableKeys)))

/-- A key is tried without: it stays erased if the rest is accepted, and is put back if an
authority is missing. Other exceptions are not caught. -/
def tryWithout (operations : List FeeOperation) (result : List PublicKey) (key : PublicKey) :
    Exec (List PublicKey) :=
  match verifyAuthorityAt getActive getOwner maxRecursion operations (result.erase key) with
  | .ok () => pure (result.erase key)
  | .error (.missingOwnerAuth _) => pure ((result.erase key).orderedInsert (· ≤ ·) key)
  | .error (.missingActiveAuth _) => pure ((result.erase key).orderedInsert (· ≤ ·) key)
  | .error .missingOtherAuth => pure ((result.erase key).orderedInsert (· ≤ ·) key)
  | .error e => .error e

/-- `minimize_required_signatures`. -/
def minimizeRequiredSignatures (operations : List FeeOperation)
    (sigs availableKeys : List PublicKey) : Exec (List PublicKey) := do
  let s ← getRequiredSignatures getActive getOwner maxRecursion operations sigs availableKeys
  s.foldlM (tryWithout getActive getOwner maxRecursion operations) s

end Verify

/-- `verify_authority` with the recursion limit of the chain. -/
def verifyAuthority (operations : List FeeOperation) (sigs : List PublicKey)
    (getActive getOwner : AccountName → Exec Authority) : Exec Unit :=
  verifyAuthorityAt getActive getOwner maxSigCheckDepth operations sigs

end SophiaTX.Protocol
