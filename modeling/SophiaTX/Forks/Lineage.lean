import Mathlib.Data.Nat.Pairing
import SophiaTX.Chain.Heights
import SophiaTX.Forks.Branches

/-!
# The main branch of the fork database

Every item points at an item of its parent. So from an item on the main chain the pointers stay on
it, and the fork database finds the blocks of the main chain as long as it has them.
-/

namespace SophiaTX.Chain

open SophiaTX.Protocol SophiaTX.Lib

/-- Among the blocks that are ever pushed, those with one id have one parent: the id is a hash of
the header. -/
def SeparatesParents (env : Env) (blocks : Set SignedBlock) : Prop :=
  ∀ b ∈ blocks, ∀ b' ∈ blocks, env.blockId b = env.blockId b' → b.previous = b'.previous

/-- A development network whose block hashes name the parent too. -/
def linkedContext : Context :=
  { devContext devGenesis with
    env := { devEnv with
      headerHash h := Nat.pair h.previous.hash (h.timestamp * 1000 + h.witnessSignature) } }

theorem linkedContext_separatesParents (blocks : Set SignedBlock) :
    SeparatesParents linkedContext.env blocks := by
  intro b _ b' _ hid
  obtain ⟨hnum, hhash⟩ := BlockId.mk.inj hid
  have hparent : b.previous.hash = b'.previous.hash := (Nat.pair_eq_pair.1 hhash).1
  have hheight : b.previous.num = b'.previous.num := Nat.succ.inj hnum
  calc b.previous = ⟨b.previous.num, b.previous.hash⟩ := rfl
    _ = b'.previous := by rw [hparent, hheight]

/-! ## Ids one on another -/

/-- Ids of blocks each of which builds on the one before, from block 1 on. -/
structure Descends (env : Env) (blocks : Set SignedBlock) (ids : List BlockId) : Prop where
  numbered : ∀ n id, ids[n]? = some id → id.num = n + 1
  parent : ∀ n id, ids[n + 1]? = some id →
    ∃ b ∈ blocks, env.blockId b = id ∧ ids[n]? = some b.previous

/-- The blocks of a chain are of this kind. -/
def MadeOf (blocks : Set SignedBlock) (chain : List (Database × SignedBlock)) : Prop :=
  ∀ entry ∈ chain, entry.2 ∈ blocks

theorem Headed.descends {env : Env} {blocks : Set SignedBlock}
    {chain : List (Database × SignedBlock)} {s : Database} (hs : Headed env chain s)
    (hchain : MadeOf blocks chain) : Descends env blocks (mainIds env chain) where
  numbered := hs.numbered
  parent := by
    intro n id hid
    obtain ⟨b, hb, rfl, hprevious⟩ := hs.parents _ _ hid
    obtain ⟨entry, hentry, rfl⟩ := List.mem_map.1 hb
    have hlt := (List.getElem?_eq_some_iff.1 hid).1
    refine ⟨entry.2, hchain entry hentry, rfl, ?_⟩
    rw [List.getLast?_eq_getElem?, List.length_take, min_eq_left hlt.le, Nat.add_sub_cancel,
      List.getElem?_take_of_lt (Nat.lt_succ_self n)] at hprevious
    rw [hprevious, List.getElem?_eq_getElem (by omega), Option.getD_some]

/-- A block on the last of them goes on the line. -/
theorem Descends.snoc {env : Env} {blocks : Set SignedBlock} {ids : List BlockId} {b : SignedBlock}
    (h : Descends env blocks ids) (hb : b ∈ blocks)
    (hlast : ids.getLast?.getD BlockId.null = b.previous) :
    Descends env blocks (ids ++ [env.blockId b]) := by
  have hcases : ∀ n id, (ids ++ [env.blockId b])[n]? = some id →
      ids[n]? = some id ∨ n = ids.length ∧ id = env.blockId b := by
    intro n id hid
    rw [List.getElem?_append] at hid
    split at hid
    · exact .inl hid
    · rename_i hge
      rw [List.getElem?_singleton] at hid
      split at hid
      · exact .inr ⟨by omega, (Option.some.inj hid).symm⟩
      · cases hid
  constructor
  · intro n id hid
    rcases hcases n id hid with hold | ⟨rfl, rfl⟩
    · exact h.numbered n id hold
    · have hnum : b.previous.num = ids.length := by
        rw [← hlast]
        cases hids : ids.getLast? with
        | none =>
          rw [List.getLast?_eq_none_iff.1 hids]
          rfl
        | some last =>
          rw [List.getLast?_eq_getElem?] at hids
          have hpos := (List.getElem?_eq_some_iff.1 hids).1
          rw [Option.getD_some, h.numbered _ _ hids]
          omega
      exact congrArg Nat.succ hnum
  · intro n id hid
    rcases hcases _ id hid with hold | ⟨hlength, rfl⟩
    · obtain ⟨parent, hmem, hid', hprevious⟩ := h.parent n id hold
      refine ⟨parent, hmem, hid', ?_⟩
      rw [List.getElem?_append_left (List.getElem?_eq_some_iff.1 hprevious).1, hprevious]
    · refine ⟨b, hb, rfl, ?_⟩
      have hindex : n = ids.length - 1 := by omega
      have hlt : n < ids.length := by omega
      rw [List.getElem?_append_left hlt, ← hlast, hindex, ← List.getLast?_eq_getElem?]
      rw [hindex] at hlt
      rw [List.getLast?_eq_getElem?, List.getElem?_eq_getElem hlt, Option.getD_some]

/-- Two lines of ids with one block agree below it. -/
theorem Descends.agree {env : Env} {blocks : Set SignedBlock} {ids ids' : List BlockId} {n k : ℕ}
    {id : BlockId} (hparent : SeparatesParents env blocks) (h : Descends env blocks ids)
    (h' : Descends env blocks ids') (hid : ids[n]? = some id) (hid' : ids'[n]? = some id)
    (hle : k ≤ n) : ids[k]? = ids'[k]? := by
  induction n generalizing id with
  | zero =>
    obtain rfl := Nat.le_zero.1 hle
    exact hid.trans hid'.symm
  | succ n ih =>
    rcases Nat.le_succ_iff.1 hle with hlt | rfl
    · obtain ⟨b, hmem, hb, hprevious⟩ := h.parent n id hid
      obtain ⟨b', hmem', hb', hprevious'⟩ := h'.parent n id hid'
      have hsame : b.previous = b'.previous := hparent b hmem b' hmem' (hb.trans hb'.symm)
      rw [← hsame] at hprevious'
      exact ih hprevious hprevious' hlt
    · exact hid.trans hid'.symm

namespace ForkItem

/-- The pointers of an item go to items of the parents, and all of them are of pushed blocks. -/
def WellLinked (env : Env) (blocks : Set SignedBlock) : ForkItem → Prop
  | unlinked _ data => data ∈ blocks
  | linked _ data prev =>
    data ∈ blocks ∧ prev.id env = data.previous ∧ prev.WellLinked env blocks

section

variable {env : Env} {blocks : Set SignedBlock} {item parent : ForkItem}

theorem WellLinked.made (h : item.WellLinked env blocks) : item.data ∈ blocks := by
  cases item with
  | unlinked address data => exact h
  | linked address data prev => exact h.1

theorem WellLinked.id_prev (h : item.WellLinked env blocks) (hprev : item.prev = some parent) :
    parent.id env = item.previousId := by
  cases item with
  | unlinked address data => cases hprev
  | linked address data prev =>
    obtain rfl := Option.some.inj hprev
    exact h.2.1

theorem WellLinked.prev (h : item.WellLinked env blocks) (hprev : item.prev = some parent) :
    parent.WellLinked env blocks := by
  cases item with
  | unlinked address data => cases hprev
  | linked address data prev =>
    obtain rfl := Option.some.inj hprev
    exact h.2.2

theorem WellLinked.num_prev (h : item.WellLinked env blocks) (hprev : item.prev = some parent) :
    parent.num + 1 = item.num := by
  rw [num_eq item, ← h.id_prev hprev, num_id]

end

end ForkItem

namespace ForkDatabase

variable {env : Env} {blocks : Set SignedBlock} {db db' : ForkDatabase env}
  {item top : ForkItem} {b : SignedBlock} {ids : List BlockId} {id : BlockId} {n m : ℕ}

/-- All items are well linked, the head too. -/
structure WellLinked (db : ForkDatabase env) (blocks : Set SignedBlock) : Prop where
  items : ∀ item ∈ db.items, item.WellLinked env blocks
  head : ∀ item, db.head = some item → item.WellLinked env blocks

/-! ## Along the main chain -/

/-- The parent of an item on the main chain is on it. -/
theorem parent_main (hparent : SeparatesParents env blocks) (hids : Descends env blocks ids)
    (hmade : item.data ∈ blocks) (hitem : ids[n + 1]? = some (item.id env)) :
    ids[n]? = some item.previousId := by
  obtain ⟨b, hmem, hb, hprevious⟩ := hids.parent n _ hitem
  have hsame : b.previous = item.previousId := hparent b hmem item.data hmade hb
  rw [hprevious, hsame]

/-- From an item on the main chain, a walk comes to the block of the main chain at a height. -/
theorem walkDown_main (hparent : SeparatesParents env blocks) (hids : Descends env blocks ids)
    (hlinked : item.WellLinked env blocks) (hitem : ids[n]? = some (item.id env))
    (hpos : 0 < m) (hle : m ≤ item.num) {found : ForkItem}
    (hfound : db.walkDown m item = some found) : ids[m - 1]? = some (found.id env) := by
  have hstop : ∀ {n : ℕ} {item : ForkItem}, ids[n]? = some (item.id env) →
      m ≤ item.num → ¬ m < item.num → ids[m - 1]? = some (item.id env) := by
    intro n item hitem hle hge
    have hnum : item.num = n + 1 := hids.numbered _ _ hitem
    have hindex : m - 1 = n := by omega
    rw [hindex, hitem]
  induction item generalizing n with
  | unlinked address data =>
    rw [walkDown] at hfound
    split at hfound
    · cases hfound
    · rename_i hge
      obtain rfl := Option.some.inj hfound
      exact hstop hitem hle hge
  | linked address data prev ih =>
    rw [walkDown] at hfound
    split at hfound
    · rename_i hlt
      split at hfound
      · have hnum : data.blockNum = n + 1 := hids.numbered _ _ hitem
        obtain ⟨n, rfl⟩ : ∃ k, n = k + 1 := ⟨n - 1, by omega⟩
        have hprev : ids[n]? = some (prev.id env) := by
          rw [hlinked.2.1]
          exact parent_main hparent hids hlinked.made hitem
        have hprevNum : prev.num = n + 1 := hids.numbered _ _ hprev
        exact ih hlinked.2.2 hprev (by omega) hfound
      · cases hfound
    · rename_i hge
      obtain rfl := Option.some.inj hfound
      exact hstop hitem hle hge

/-- From the head item `top` the fork database comes to the blocks of the main chain up to a
height. -/
def LeadsMain (db : ForkDatabase env) (ids : List BlockId) (top : ForkItem) (limit : ℕ) : Prop :=
  ∀ m found, 0 < m → m ≤ limit → m ≤ top.num → db.walkDown m top = some found →
    ids[m - 1]? = some (found.id env)

/-- The head item may be on a continuation of the main chain. -/
theorem leadsMain_of_main (hparent : SeparatesParents env blocks) {rest : List BlockId}
    (hids : Descends env blocks (ids ++ rest)) (hlinked : top.WellLinked env blocks)
    (htop : top.id env ∈ ids ++ rest) : db.LeadsMain ids top ids.length := by
  obtain ⟨n, hn⟩ := List.getElem?_of_mem htop
  intro m found hpos hlimit hle hfound
  have hmain := walkDown_main hparent hids hlinked hn hpos hle hfound
  rwa [List.getElem?_append_left (by omega)] at hmain

/-- A block of the main chain that is stored is found at its height, if anything is. -/
theorem fetchBlockOnMainBranchByNumber_main {limit : ℕ} (hids : Descends env blocks ids)
    (hhead : db.head = some top) (hlead : db.LeadsMain ids top limit)
    (hid : ids[n]? = some id) (hknown : db.isKnownBlock id = true)
    (hlimit : n + 1 ≤ limit) {found : ForkItem}
    (hfound : db.fetchBlockOnMainBranchByNumber (n + 1) = some found) : found.id env = id := by
  obtain ⟨item, hitem, rfl⟩ := isKnownBlock_iff.1 hknown
  have hmem : item ∈ db.fetchBlockByNumber (n + 1) := by
    refine List.mem_filter.2 ⟨hitem, decide_eq_true ?_⟩
    exact hids.numbered _ _ hid
  unfold fetchBlockOnMainBranchByNumber at hfound
  split at hfound
  · cases hfound
  · rename_i single hsingle
    rw [hsingle, List.mem_singleton] at hmem
    rw [← Option.some.inj hfound, hmem]
  · rw [walkMainBranchToNum, hhead, Option.bind_some] at hfound
    split at hfound
    · cases hfound
    · rename_i hge
      have hmain := hlead _ _ (Nat.succ_pos n) hlimit (Nat.not_lt.1 hge) hfound
      exact (Option.some.inj (hid.symm.trans hmain)).symm

end ForkDatabase

end SophiaTX.Chain
