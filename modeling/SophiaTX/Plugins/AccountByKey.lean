import SophiaTX.Chain.AuthoritySteps
import SophiaTX.Chain.Chronicle
import SophiaTX.Chain.Genesis

/-!
# Accounts by key

The `account_by_key` plugin keeps a table of the keys that occur in the authorities of an account.
It is told of every operation before and after it is evaluated. What the table holds of a key and an
account is what the last operation that changed it, and that the plugin attends to, left behind.
-/

namespace SophiaTX.Plugins

open SophiaTX.Protocol SophiaTX.Lib SophiaTX.Chain

/-- The state of the plugin: the keys it has cached, and its `key_lookup_object`s. -/
structure AccountByKey where
  cachedKeys : List PublicKey
  lookups : List (PublicKey × AccountName)
deriving DecidableEq

/-- The keys of both authorities, without repetition. -/
def authorityKeys (auth : AccountAuthority) (keys : List PublicKey) : List PublicKey :=
  let keys := auth.owner.keyAuths.foldl (fun keys item ↦ keys.insert item.1) keys
  auth.active.keyAuths.foldl (fun keys item ↦ keys.insert item.1) keys

namespace AccountByKey

def clearCache (p : AccountByKey) : AccountByKey := { p with cachedKeys := [] }

def cacheAuths (p : AccountByKey) (auth : AccountAuthority) : AccountByKey :=
  { p with cachedKeys := authorityKeys auth p.cachedKeys }

/-- A round of the loop over the keys that need a lookup. -/
def lookUp (account : AccountName) (p : AccountByKey) (key : PublicKey) : AccountByKey :=
  if key ∉ p.cachedKeys then { p with lookups := p.lookups.insert (key, account) }
  else { p with cachedKeys := p.cachedKeys.filter (· ≠ key) }

def deleteCachedKey (p : AccountByKey) (account : AccountName) : AccountByKey :=
  ⟨[], p.cachedKeys.foldl (fun lookups key ↦ lookups.filter (· ≠ (key, account))) p.lookups⟩

def updateKeyLookup (p : AccountByKey) (account : AccountName) (auth : AccountAuthority) :
    AccountByKey :=
  ((authorityKeys auth []).foldl (lookUp account) p).deleteCachedKey account

/-- What the plugin caches of an account before an operation on it. -/
def cacheAccount (p : AccountByKey) (s : Database) (account : AccountName) : AccountByKey :=
  match s.authorities.find? account with
  | some auth => p.clearCache.cacheAuths auth
  | none => p.clearCache

def updateAccount (p : AccountByKey) (s : Database) (account : AccountName) : AccountByKey :=
  match s.authorities.find? account with
  | some auth => p.updateKeyLookup account auth
  | none => p

def preOperation (p : AccountByKey) (s : Database) : Operation → AccountByKey
  | .accountCreate _ _ _ _ _ _ => p.clearCache
  | .accountUpdate account _ _ _ _ => p.cacheAccount s account
  | .recoverAccount accountToRecover _ _ => p.cacheAccount s accountToRecover
  | .accountDelete account => p.cacheAccount s account
  | _ => p

def postOperation (env : Env) (p : AccountByKey) (s : Database) : Operation → AccountByKey
  | .accountCreate _ nameSeed _ _ _ _ => p.updateAccount s (env.makeRandomFixedString nameSeed)
  | .accountUpdate account _ _ _ _ => p.updateAccount s account
  | .recoverAccount accountToRecover _ _ => p.updateAccount s accountToRecover
  | .accountDelete account =>
    match s.authorities.find? account with
    | some _ => p
    | none => p.deleteCachedKey account
  | _ => p

/-- The plugin is told of operations, before and after. -/
def observe (env : Env) (p : AccountByKey) (before : Database) (stage : Stage)
    (after : Database) : AccountByKey :=
  match stage with
  | .operation _ op => (p.preOperation before op.op).postOperation env after op.op
  | _ => p

end AccountByKey

/-- The plugin along a run. Operations that fail are undone, but what they put into the cache is
not. -/
inductive Follows (env : Env) (s₀ : Database) : List Moment → Database → AccountByKey → Prop
  | genesis : Follows env s₀ [] s₀ ⟨[], []⟩
  | stage {past : List Moment} {before : Database} {p : AccountByKey} (stage : Stage)
      (after : Database) (h : Follows env s₀ past before p) :
      Follows env s₀ ((before, stage) :: past) after (p.observe env before stage after)
  | residue {past : List Moment} {s : Database} {p : AccountByKey} (keys : List PublicKey)
      (h : Follows env s₀ past s p) : Follows env s₀ past s { p with cachedKeys := keys }

/-! ## What the plugin does to its table -/

/-- A key occurs in the owner or the active authority of an account. -/
def HoldsKey (s : Database) (key : PublicKey) (account : AccountName) : Prop :=
  ∃ auth, s.authorities.find? account = some auth ∧
    (key ∈ auth.owner.keyAuths.map Prod.fst ∨ key ∈ auth.active.keyAuths.map Prod.fst)

instance (s : Database) (key : PublicKey) (account : AccountName) :
    Decidable (HoldsKey s key account) :=
  decidable_of_iff (∃ auth ∈ s.authorities.find? account,
    key ∈ auth.owner.keyAuths.map Prod.fst ∨ key ∈ auth.active.keyAuths.map Prod.fst) (by
      simp only [HoldsKey, Option.mem_def])

theorem mem_foldl_insert {items : List (PublicKey × ℕ)} {keys : List PublicKey} {key : PublicKey} :
    key ∈ items.foldl (fun keys item ↦ keys.insert item.1) keys ↔
      key ∈ keys ∨ key ∈ items.map Prod.fst := by
  induction items generalizing keys with
  | nil => simp
  | cons item items ih =>
    rw [List.foldl_cons, ih, List.mem_insert_iff, List.map_cons, List.mem_cons]
    tauto

theorem mem_authorityKeys {auth : AccountAuthority} {keys : List PublicKey} {key : PublicKey} :
    key ∈ authorityKeys auth keys ↔ key ∈ keys ∨ key ∈ auth.owner.keyAuths.map Prod.fst ∨
      key ∈ auth.active.keyAuths.map Prod.fst := by
  rw [authorityKeys, mem_foldl_insert, mem_foldl_insert, or_assoc]

theorem nodup_foldl_insert {items : List (PublicKey × ℕ)} {keys : List PublicKey}
    (hkeys : keys.Nodup) : (items.foldl (fun keys item ↦ keys.insert item.1) keys).Nodup := by
  induction items generalizing keys with
  | nil => exact hkeys
  | cons item items ih => exact ih (hkeys.insert)

theorem nodup_authorityKeys (auth : AccountAuthority) {keys : List PublicKey}
    (hkeys : keys.Nodup) : (authorityKeys auth keys).Nodup :=
  nodup_foldl_insert (nodup_foldl_insert hkeys)

theorem mem_authorityKeys_nil {s : Database} {auth : AccountAuthority} {account : AccountName}
    (hauth : s.authorities.find? account = some auth) {key : PublicKey} :
    key ∈ authorityKeys auth [] ↔ HoldsKey s key account := by
  simp [mem_authorityKeys, HoldsKey, hauth]

namespace AccountByKey

variable {p : AccountByKey} {account : AccountName} {pair : PublicKey × AccountName}

theorem mem_deleteCachedKey : pair ∈ (p.deleteCachedKey account).lookups ↔
    pair ∈ p.lookups ∧ ¬ (pair.1 ∈ p.cachedKeys ∧ pair.2 = account) := by
  rw [deleteCachedKey]
  generalize p.cachedKeys = keys
  generalize p.lookups = lookups
  induction keys generalizing lookups with
  | nil => simp
  | cons key keys ih =>
    rw [List.foldl_cons, ih, List.mem_filter, List.mem_cons, decide_eq_true_eq, ne_eq,
      Prod.ext_iff]
    tauto

/-- The loop adds the keys that were not cached, and takes the others out of the cache. -/
theorem foldl_lookUp {keys : List PublicKey} (hkeys : keys.Nodup) (p : AccountByKey) :
    (∀ key, key ∈ (keys.foldl (lookUp account) p).cachedKeys ↔ key ∈ p.cachedKeys ∧ key ∉ keys) ∧
      ∀ pair, pair ∈ (keys.foldl (lookUp account) p).lookups ↔ pair ∈ p.lookups ∨
        (pair.1 ∈ keys ∧ pair.1 ∉ p.cachedKeys ∧ pair.2 = account) := by
  induction keys generalizing p with
  | nil => simp
  | cons key keys ih =>
    rw [List.nodup_cons] at hkeys
    rw [List.foldl_cons]
    obtain ⟨hcached, hlookups⟩ := ih hkeys.2 (lookUp account p key)
    by_cases hkey : key ∈ p.cachedKeys
    · have hround : lookUp account p key = { p with cachedKeys := p.cachedKeys.filter (· ≠ key) } :=
        if_neg (not_not.2 hkey)
      rw [hround] at hcached hlookups ⊢
      constructor
      · intro other
        rw [hcached, List.mem_filter, decide_eq_true_eq, List.mem_cons]
        tauto
      · rintro ⟨other, name⟩
        rw [hlookups, List.mem_filter, decide_eq_true_eq, List.mem_cons]
        by_cases hother : other = key
        · subst hother
          simp [hkey, hkeys.1]
        · simp [hother]
    · have hround : lookUp account p key = { p with lookups := p.lookups.insert (key, account) } :=
        if_pos hkey
      rw [hround] at hcached hlookups ⊢
      constructor
      · intro other
        rw [hcached, List.mem_cons]
        by_cases hother : other = key
        · subst hother
          simp [hkey]
        · simp [hother]
      · rintro ⟨other, name⟩
        rw [hlookups, List.mem_insert_iff, List.mem_cons, Prod.mk.injEq]
        by_cases hother : other = key
        · subst hother
          simp [hkey, hkeys.1]
          tauto
        · simp [hother]

theorem mem_updateKeyLookup {auth : AccountAuthority} :
    pair ∈ (p.updateKeyLookup account auth).lookups ↔
      if pair.2 = account then
        pair ∈ p.lookups ∧ ¬ (pair.1 ∈ p.cachedKeys ∧ pair.1 ∉ authorityKeys auth []) ∨
          pair.1 ∈ authorityKeys auth [] ∧ pair.1 ∉ p.cachedKeys
      else pair ∈ p.lookups := by
  obtain ⟨hcached, hlookups⟩ :=
    @foldl_lookUp account _ (nodup_authorityKeys auth List.nodup_nil) p
  rw [updateKeyLookup, mem_deleteCachedKey, hcached, hlookups]
  split <;> tauto

theorem mem_updateAccount {s : Database} {auth : AccountAuthority}
    (hauth : s.authorities.find? account = some auth) :
    pair ∈ (p.updateAccount s account).lookups ↔
      if pair.2 = account then
        pair ∈ p.lookups ∧ ¬ (pair.1 ∈ p.cachedKeys ∧ ¬ HoldsKey s pair.1 account) ∨
          HoldsKey s pair.1 account ∧ pair.1 ∉ p.cachedKeys
      else pair ∈ p.lookups := by
  rw [updateAccount, hauth, mem_updateKeyLookup, mem_authorityKeys_nil hauth]

theorem mem_cacheAccount {s : Database} {key : PublicKey} :
    key ∈ (p.cacheAccount s account).cachedKeys ↔ HoldsKey s key account := by
  unfold cacheAccount
  split
  · rename_i auth hauth
    exact mem_authorityKeys_nil hauth
  · rename_i hauth
    simp [clearCache, HoldsKey, hauth]

theorem cacheAccount_lookups (p : AccountByKey) (s : Database) (account : AccountName) :
    (p.cacheAccount s account).lookups = p.lookups := by
  unfold cacheAccount
  split <;> rfl

/-- Operations whose changes the plugin brings into its table. -/
def Attended : Stage → Prop
  | .operation _ op =>
    match op.op with
    | .accountCreate _ _ _ _ _ _ | .accountUpdate _ _ _ _ _ | .recoverAccount _ _ _ => True
    | _ => False
  | _ => False

/-- Between caching the keys of an account and looking them up, just what has changed of them is
brought into the table. -/
theorem mem_rewritten {before after : Database} {p' : AccountByKey}
    (hcached : ∀ key, key ∈ p'.cachedKeys ↔ HoldsKey before key account)
    (hrows : Rewritten account before.authorities after.authorities) :
    pair ∈ (p'.updateAccount after account).lookups ↔
      if HoldsKey before pair.1 pair.2 ↔ HoldsKey after pair.1 pair.2 then pair ∈ p'.lookups
      else HoldsKey after pair.1 pair.2 := by
  obtain ⟨auth, hauth⟩ := hrows.row
  rw [mem_updateAccount hauth, hcached]
  by_cases hname : pair.2 = account
  · rw [if_pos hname, hname]
    split <;> tauto
  · have hsame : HoldsKey before pair.1 pair.2 ↔ HoldsKey after pair.1 pair.2 := by
      rw [HoldsKey, HoldsKey, hrows.other pair.2 hname]
    rw [if_neg hname, if_pos hsame]

/-- Operations that the plugin does not attend to leave its table alone. -/
theorem observe_lookups {ctx : Context} {before after : Database} {stage : Stage}
    (hrun : stage.run ctx before = .ok after) (hstage : ¬ Attended stage) :
    (p.observe ctx.env before stage after).lookups = p.lookups := by
  cases stage with
  | operation trx op =>
    obtain ⟨op, fee⟩ := op
    cases op with
    | accountCreate _ _ _ _ _ _ | accountUpdate _ _ _ _ _ | recoverAccount _ _ _ =>
      exact absurd trivial hstage
    | accountDelete account =>
      -- The row of a deleted account stays, so nothing is deleted from the table.
      simp only [Stage.run, Database.applyOperation, bind_eq_ok] at hrun
      obtain ⟨s₁, _, heval⟩ := hrun
      obtain ⟨auth, hauth⟩ := (Database.evaluate_rewritten heval rfl).row
      simp only [observe, preOperation, postOperation, hauth]
      exact cacheAccount_lookups p before account
    | _ => rfl
  | _ => rfl

/-- Operations that the plugin attends to bring into its table what they change. -/
theorem mem_observe {ctx : Context} {before after : Database} {stage : Stage}
    (hrun : stage.run ctx before = .ok after) (hstage : Attended stage) :
    pair ∈ (p.observe ctx.env before stage after).lookups ↔
      if HoldsKey before pair.1 pair.2 ↔ HoldsKey after pair.1 pair.2 then pair ∈ p.lookups
      else HoldsKey after pair.1 pair.2 := by
  cases stage with
  | operation trx op =>
    obtain ⟨op, fee⟩ := op
    simp only [Stage.run, Database.applyOperation, bind_eq_ok] at hrun
    obtain ⟨s₁, hfee, heval⟩ := hrun
    have hs₁ := (Database.processOperationFee_commerce hfee).authorities
    cases op with
    | accountCreate _ nameSeed _ _ _ _ =>
      obtain ⟨habsent, hrows⟩ := Database.accountCreateEvaluator_rewritten heval
      rw [hs₁] at habsent hrows
      refine mem_rewritten (fun key ↦ ?_) hrows
      simp [preOperation, clearCache, HoldsKey, habsent]
    | accountUpdate account _ _ _ _ =>
      have hrows := Database.accountUpdateEvaluator_rewritten heval
      rw [hs₁] at hrows
      rw [← cacheAccount_lookups p before account]
      exact mem_rewritten (fun _ ↦ mem_cacheAccount) hrows
    | recoverAccount account _ _ =>
      have hrows := Database.recoverAccountEvaluator_rewritten heval
      rw [hs₁] at hrows
      rw [← cacheAccount_lookups p before account]
      exact mem_rewritten (fun _ ↦ mem_cacheAccount) hrows
    | _ => exact absurd hstage id
  | _ => exact absurd hstage id

end AccountByKey

/-! ## The table along a run -/

/-- Genesis, and every operation that the plugin does not attend to, puts the table out of step when
it changes whether an account holds a key. Another such change puts it back in step, and so does any
change that the plugin attends to. -/
def InStep (key : PublicKey) (account : AccountName) : List Moment → Database → Prop
  | [], s => ¬ HoldsKey s key account
  | (before, stage) :: past, s =>
    if HoldsKey before key account ↔ HoldsKey s key account then InStep key account past before
    else AccountByKey.Attended stage ∨ ¬ InStep key account past before

variable {ctx : Context} {C : Database → Stage → Prop} {s₀ s : Database} {past : List Moment}
  {pending : Option (List Stage)} {p : AccountByKey}

/-- The stages of a past led from state to state. -/
def Led (ctx : Context) : List Moment → Database → Prop
  | [], _ => True
  | (before, stage) :: past, s => stage.run ctx before = .ok s ∧ Led ctx past before

theorem led_of_chronicle (h : Chronicle ctx C s₀ past pending s) : Led ctx past s := by
  induction h with
  | refl => trivial
  | start _ _ ih => exact ih
  | stage _ _ hrun ih => exact ⟨hrun, ih⟩
  | finish _ _ ih => exact ih

/-- The table is right about a key and an account just when it is in step with them. -/
theorem Follows.mem_lookups_iff {key : PublicKey} {account : AccountName}
    (h : Follows ctx.env s₀ past s p) (hled : Led ctx past s) :
    ((key, account) ∈ p.lookups ↔ HoldsKey s key account) ↔ InStep key account past s := by
  induction h with
  | genesis => simp [InStep]
  | @stage past before p stage after _ ih =>
    obtain ⟨hrun, hled⟩ := hled
    have hbefore := ih hled
    unfold InStep
    by_cases hstage : AccountByKey.Attended stage
    · rw [AccountByKey.mem_observe hrun hstage]
      split_ifs with hsame
      · rw [← hbefore, hsame]
      · simp [hstage]
    · rw [AccountByKey.observe_lookups hrun hstage]
      split_ifs with hsame
      · rw [← hbefore, hsame]
      · rw [← hbefore]
        tauto
  | residue keys _ ih => exact ih hled

/-- In every state that a run leads to, the table holds just the keys of the authorities if and only
if it is in step with every key and account. -/
theorem lookups_mirror_iff (hrun : Chronicle ctx C s₀ past pending s)
    (hfollows : Follows ctx.env s₀ past s p) :
    (∀ key account, (key, account) ∈ p.lookups ↔ HoldsKey s key account) ↔
      ∀ key account, InStep key account past s :=
  forall_congr' fun _ ↦ forall_congr' fun _ ↦ hfollows.mem_lookups_iff (led_of_chronicle hrun)

/-! ## Two runs -/

/-- The plugin after a run in which no operation failed. -/
def followed (env : Env) : List Moment → Database → AccountByKey
  | [], _ => ⟨[], []⟩
  | (before, stage) :: past, s => (followed env past before).observe env before stage s

theorem follows_followed (h : Chronicle ctx C s₀ past pending s) :
    Follows ctx.env s₀ past s (followed ctx.env past s) := by
  induction h with
  | refl => exact .genesis
  | start _ _ ih => exact ih
  | stage _ _ _ ih => exact .stage _ _ ih
  | finish _ _ ih => exact ih

/-- Every key of every authority is in the table, and nothing else. -/
def mirrors (p : AccountByKey) (s : Database) : Bool :=
  (p.lookups.all fun pair ↦ decide (HoldsKey s pair.1 pair.2)) &&
    s.authorities.entries.all fun entry ↦
      (authorityKeys entry.2 []).all fun key ↦ decide ((key, entry.1) ∈ p.lookups)

theorem mem_lookups_of_mirrors (h : mirrors p s = true) (key : PublicKey) (account : AccountName) :
    (key, account) ∈ p.lookups ↔ HoldsKey s key account := by
  simp only [mirrors, Bool.and_eq_true, List.all_eq_true, decide_eq_true_eq] at h
  constructor
  · exact h.1 (key, account)
  · rintro ⟨auth, hauth, hkey⟩
    refine h.2 (account, auth) ((Table.find?_eq_some_iff _ _ _).1 hauth) key ?_
    exact (mem_authorityKeys_nil hauth).2 ⟨auth, hauth, hkey⟩

/-- An account gets a new key for both of its authorities. -/
def rekeyTransaction (expiration : Time) (key : PublicKey) (account : AccountName)
    (newKey : PublicKey) : Transaction :=
  let auth : Authority := ⟨1, [], [(newKey, 1)]⟩
  devTransaction expiration key (.accountUpdate account (some auth) (some auth) nullKey [])

def rekeyBlock : SignedBlock :=
  devBlock .null 1531512803
    [rekeyTransaction 1531512900 8 1000 9, rekeyTransaction 1531512901 7 initMinerName 10]

theorem lookups_mirror_after_updates :
    ∃ s₀ s past p, initGenesis devGenesis = .ok s₀ ∧
      Chronicle (devContext devGenesis) (fun _ _ ↦ True) s₀ past (some []) s ∧
      Follows devEnv s₀ past s p ∧ (∀ key account, InStep key account past s) ∧
      ∀ key account, (key, account) ∈ p.lookups ↔ HoldsKey s key account := by
  have hok : okAnd (initGenesis devGenesis) (fun s₀ ↦
      okAnd (recordStages (fun s stage ↦ stage.run (devContext devGenesis) s)
        (SignedBlock.stages rekeyBlock) ([], s₀)) fun recorded ↦
          mirrors (followed devEnv recorded.1 recorded.2) recorded.2) = true := by
    decide +kernel
  obtain ⟨s₀, hgenesis, hs₀⟩ := exists_of_okAnd hok
  obtain ⟨⟨past, s⟩, hstages, hmirrors⟩ := exists_of_okAnd hs₀
  have hchronicle : Chronicle (devContext devGenesis) (fun _ _ ↦ True) s₀ past (some []) s := by
    refine Chronicle.recordStages (fun _ _ _ hrun ↦ ⟨trivial, hrun⟩) ?_ hstages
    rw [List.append_nil]
    exact Chronicle.refl.start _
  have hfollows := follows_followed hchronicle
  have hright := mem_lookups_of_mirrors hmirrors
  exact ⟨s₀, s, past, _, hgenesis, hchronicle, hfollows,
    (lookups_mirror_iff hchronicle hfollows).1 hright, hright⟩

/-- An account is updated and then deleted. -/
def deleteBlock : SignedBlock :=
  devBlock .null 1531512803
    [devTransaction 1531512900 8
      (.accountUpdate 1000 none (some ⟨1, [], [(9, 1)]⟩) nullKey []),
      devTransaction 1531512901 8 (.accountDelete 1000)]

/-- The key that the update added stays in the table, though the account holds it no more. -/
theorem lookups_stale_after_delete :
    ∃ s₀ s past p, initGenesis devGenesis = .ok s₀ ∧
      Chronicle (devContext devGenesis) (fun _ _ ↦ True) s₀ past (some []) s ∧
      Follows devEnv s₀ past s p ∧ (9, 1000) ∈ p.lookups ∧ ¬ HoldsKey s 9 1000 := by
  have hok : okAnd (initGenesis devGenesis) (fun s₀ ↦
      okAnd (recordStages (fun s stage ↦ stage.run (devContext devGenesis) s)
        (SignedBlock.stages deleteBlock) ([], s₀)) fun recorded ↦
          decide ((9, 1000) ∈ (followed devEnv recorded.1 recorded.2).lookups ∧
            ¬ HoldsKey recorded.2 9 1000)) = true := by
    decide +kernel
  obtain ⟨s₀, hgenesis, hs₀⟩ := exists_of_okAnd hok
  obtain ⟨⟨past, s⟩, hstages, hstale⟩ := exists_of_okAnd hs₀
  obtain ⟨hmem, hholds⟩ := of_decide_eq_true hstale
  have hchronicle : Chronicle (devContext devGenesis) (fun _ _ ↦ True) s₀ past (some []) s := by
    refine Chronicle.recordStages (fun _ _ _ hrun ↦ ⟨trivial, hrun⟩) ?_ hstages
    rw [List.append_nil]
    exact Chronicle.refl.start _
  exact ⟨s₀, s, past, _, hgenesis, hchronicle, follows_followed hchronicle, hmem, hholds⟩

end SophiaTX.Plugins
