import SophiaTX.Chain.ApplyBlock
import SophiaTX.Signing.Derivations

/-!
# Who has signed a transaction

The chain looks authorities up by name and throws where there is no such account. A check that
succeeds does not depend on the names that are missing, so an accepted transaction satisfies the
authorities it requires, as they are when it is opened.
-/

namespace SophiaTX.Protocol

open SophiaTX.Lib

section Lookup

variable {getActive getActive' getOwner getOwner' : AccountName → Exec Authority}

namespace SignState

theorem approves_extends {check check' : AccountName → SignState → Exec (SignState × Bool)}
    (hcheck : ∀ name st, Extends (check name st) (check' name st)) (name : AccountName)
    (st : SignState) :
    Extends (approves (some check) name st) (approves (some check') name st) := by
  unfold approves
  split_ifs
  · exact .refl _
  · exact (hcheck name st).bind fun _ ↦ .refl _

theorem accountWeight_extends {check check' : AccountName → SignState → Exec (SignState × Bool)}
    (hcheck : ∀ name st, Extends (check name st) (check' name st)) (threshold : ℕ)
    (entries : List (AccountName × ℕ)) (st : SignState) (total : ℕ) :
    Extends (accountWeight threshold (some check) entries st total)
      (accountWeight threshold (some check') entries st total) := by
  induction entries generalizing st total with
  | nil => exact .refl _
  | cons entry rest ih =>
    unfold accountWeight
    refine (approves_extends hcheck entry.1 st).bind fun result ↦ ?_
    dsimp only
    split_ifs
    · exact .refl _
    · exact ih _ _
    · exact ih _ _

theorem checkAuthority_extends (hactive : ∀ name, Extends (getActive name) (getActive' name))
    (levels : ℕ) (auth : Authority) (st : SignState) :
    Extends (checkAuthority getActive levels auth st)
      (checkAuthority getActive' levels auth st) := by
  induction levels generalizing auth st with
  | zero => exact .refl _
  | succ levels ih =>
    unfold checkAuthority checkLevel
    split
    · exact .refl _
    · refine accountWeight_extends (fun name st ↦ ?_) _ _ _ _
      exact (hactive name).bind fun auth ↦ ih auth st

end SignState

/-- Looking up more names accepts no less. -/
theorem verifyAuthorityAt_extends (hactive : ∀ name, Extends (getActive name) (getActive' name))
    (howner : ∀ name, Extends (getOwner name) (getOwner' name)) (maxRecursion : ℕ)
    (operations : List FeeOperation) (sigs : List PublicKey) :
    Extends (verifyAuthorityAt getActive getOwner maxRecursion operations sigs)
      (verifyAuthorityAt getActive' getOwner' maxRecursion operations sigs) := by
  have hcheck := SignState.checkAuthority_extends hactive maxRecursion
  unfold verifyAuthorityAt
  refine (Extends.foldlM (fun st auth ↦ ?_) _ _).bind fun st ↦
    (Extends.foldlM (fun st name ↦ ?_) _ _).bind fun st ↦
      (Extends.foldlM (fun st name ↦ ?_) _ _).bind fun st ↦ .refl _
  · exact (hcheck auth st).bind fun _ ↦ .refl _
  · have haccount : Extends (SignState.checkAccount getActive maxRecursion name st)
        (SignState.checkAccount getActive' maxRecursion name st) := by
      unfold SignState.checkAccount
      split_ifs
      · exact .refl _
      · exact (hactive name).bind fun auth ↦ hcheck auth st
    refine haccount.bind fun result ↦ ?_
    dsimp only
    split_ifs
    · exact .refl _
    · exact (howner name).bind fun auth ↦ (hcheck auth _).bind fun _ ↦ .refl _
  · exact (howner name).bind fun auth ↦ (hcheck auth st).bind fun _ ↦ .refl _

end Lookup

end SophiaTX.Protocol

namespace SophiaTX.Chain

open SophiaTX.Protocol SophiaTX.Lib

/-- An authority that nobody satisfies. -/
def Authority.nobody : Authority := ⟨1, [], []⟩

theorem not_satisfied_nobody {keys : Finset PublicKey} {active : AccountName → Authority} :
    ¬ Satisfied keys active Authority.nobody := by
  intro h
  cases h with
  | intro _ approved _ hweight => simp [Authority.nobody] at hweight

namespace Database

/-- The active authority of an account, where there is one. -/
def activeOf (s : Database) (name : AccountName) : Authority :=
  ((s.authorities.find? name).map fun auth ↦ auth.active).getD Authority.nobody

def ownerOf (s : Database) (name : AccountName) : Option Authority :=
  (s.authorities.find? name).map fun auth ↦ auth.owner

/-- The signatures of a transaction satisfy an authority, with the active authorities of a
state. -/
def Signed (ctx : Context) (s : Database) (trx : Transaction) (auth : Authority) : Prop :=
  ∃ keys, ctx.env.signatureKeys (decide (s.hasHardfork 1)) trx = .ok keys ∧
    Satisfied keys.toFinset s.activeOf auth

/-- `verify_authority` accepts a transaction in a state. -/
def Verifies (ctx : Context) (s : Database) (trx : Transaction) : Prop :=
  ∃ keys, ctx.env.signatureKeys (decide (s.hasHardfork 1)) trx = .ok keys ∧
    verifyAuthority trx.operations keys (fun name ↦ do pure (← s.getAuthority name).active)
      (fun name ↦ do pure (← s.getAuthority name).owner) = .ok ()

variable {ctx : Context} {s : Database} {trx : Transaction}

theorem Verifies.satisfied (h : s.Verifies ctx trx) : ∃ keys,
    ctx.env.signatureKeys (decide (s.hasHardfork 1)) trx = .ok keys ∧
      (∀ name ∈ (requiredAuthorities trx.operations).1, name = tempAccount ∨
        Satisfied keys.toFinset s.activeOf (s.activeOf name) ∨
        Satisfied keys.toFinset s.activeOf ((s.ownerOf name).getD Authority.nobody)) ∧
      ∀ name ∈ (requiredAuthorities trx.operations).2.1,
        Satisfied keys.toFinset s.activeOf ((s.ownerOf name).getD Authority.nobody) := by
  obtain ⟨keys, hkeys, h⟩ := h
  have hlookup : ∀ {f : AccountAuthority → Authority} (name : AccountName),
      Extends (do pure (f (← s.getAuthority name)) : Exec Authority)
        (.ok (((s.authorities.find? name).map f).getD Authority.nobody)) := by
    intro f name auth hauth
    simp only [getAuthority, bind_eq_ok, orUnknownKey_eq_ok, pure_eq_ok] at hauth
    obtain ⟨row, hrow, rfl⟩ := hauth
    rw [hrow, Option.map_some, Option.getD_some]
  have htotal := verifyAuthorityAt_extends hlookup hlookup maxSigCheckDepth trx.operations keys () h
  obtain ⟨_, hactive, howner⟩ := satisfied_of_verifyAuthorityAt htotal
  exact ⟨keys, hkeys, hactive, howner⟩

/-- An accepted transaction is signed with the owner authority of every account of which it
requires that. -/
theorem Verifies.owner_signed (h : s.Verifies ctx trx) {op : FeeOperation} {name : AccountName}
    (hop : op ∈ trx.operations) (hname : name ∈ op.op.requiredOwnerAuthorities) :
    ∃ owner, s.ownerOf name = some owner ∧ s.Signed ctx trx owner := by
  obtain ⟨keys, hkeys, _, howner⟩ := h.satisfied
  have hrequired : name ∈ (requiredAuthorities trx.operations).2.1 := by
    simpa only [requiredAuthorities, flatSet, List.mem_insertionSort, List.mem_dedup,
      List.mem_flatMap] using ⟨op, hop, hname⟩
  have hsatisfied := howner name hrequired
  cases hauth : s.ownerOf name with
  | none =>
    rw [hauth, Option.getD_none] at hsatisfied
    exact absurd hsatisfied not_satisfied_nobody
  | some owner =>
    rw [hauth, Option.getD_some] at hsatisfied
    exact ⟨owner, rfl, keys, hkeys, hsatisfied⟩

/-- Where it requires the active authority of an account, it is signed with that or with the owner
authority. The temp account needs no signature. -/
theorem Verifies.active_signed (h : s.Verifies ctx trx) {op : FeeOperation} {name : AccountName}
    (hop : op ∈ trx.operations) (hname : name ∈ op.op.requiredActiveAuthorities) :
    name = tempAccount ∨ s.Signed ctx trx (s.activeOf name) ∨
      ∃ owner, s.ownerOf name = some owner ∧ s.Signed ctx trx owner := by
  obtain ⟨keys, hkeys, hactive, _⟩ := h.satisfied
  have hrequired : name ∈ (requiredAuthorities trx.operations).1 := by
    simpa only [requiredAuthorities, flatSet, List.mem_insertionSort, List.mem_dedup,
      List.mem_flatMap] using ⟨op, hop, hname⟩
  rcases hactive name hrequired with htemp | hsatisfied | hsatisfied
  · exact .inl htemp
  · exact .inr (.inl ⟨keys, hkeys, hsatisfied⟩)
  · cases hauth : s.ownerOf name with
    | none =>
      rw [hauth, Option.getD_none] at hsatisfied
      exact absurd hsatisfied not_satisfied_nobody
    | some owner =>
      rw [hauth, Option.getD_some] at hsatisfied
      exact .inr (.inr ⟨owner, rfl, keys, hkeys, hsatisfied⟩)

end Database

end SophiaTX.Chain
