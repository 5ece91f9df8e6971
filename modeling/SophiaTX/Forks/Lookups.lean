import SophiaTX.Chain.Heights
import SophiaTX.Forks.Branches
import SophiaTX.Forks.Node

/-!
# Looking up the blocks of a main chain

A block number is resolved through the ring of block summaries, the block log and the fork
database. Where these agree with the main chain, a number up to the head leads to the block of that
height.
-/

namespace SophiaTX.Chain

open SophiaTX.Protocol SophiaTX.Lib

/-- The head is the last block of a main chain. -/
theorem Headed.getLast?_mainIds {env : Env} {chain : List (Database × SignedBlock)} {s : Database}
    (h : Headed env chain s) (hne : chain ≠ []) :
    (mainIds env chain).getLast? = some s.dgp.headBlockId := by
  have hid := h.id
  cases hlast : (mainIds env chain).getLast? with
  | none =>
    have hempty := congrArg List.length (List.getLast?_eq_none_iff.1 hlast)
    rw [length_mainIds] at hempty
    exact absurd (List.length_eq_zero_iff.1 hempty) hne
  | some id =>
    rw [hlast] at hid
    exact congrArg some hid.symm

namespace Node

variable {ctx : Context} {node : Node ctx.env} {chain : List (Database × SignedBlock)}
  {id p : BlockId} {n : ℕ}

/-- The stores of a node agree with its main chain: the block log has the first blocks of it, as
far as the last irreversible one at least; the fork database has those after it on its main branch,
or the ring of block summaries still has them; and the fork database has no block above the
head. -/
structure Tracks (node : Node ctx.env) (chain : List (Database × SignedBlock)) : Prop where
  main : ∃ s₀, initGenesis ctx.genesis = .ok s₀ ∧ MainChain ctx s₀ chain node.state
  log : node.blockLog.map ctx.env.blockId <+: mainIds ctx.env chain
  irreversible : node.lastNonUndoableBlockNum ≤ node.blockLog.length
  branch : ∀ n id, (mainIds ctx.env chain)[n]? = some id → node.blockLog.length ≤ n →
    n + 65536 < chain.length → ∃ item,
      node.forkDb.fetchBlockOnMainBranchByNumber (n + 1) = some item ∧ item.id ctx.env = id
  bounded : ∀ item ∈ node.forkDb.items, item.num ≤ chain.length

theorem readBlockByNum_eq_none (hn : node.blockLog.length ≤ n) :
    node.readBlockByNum (n + 1) = none := by
  rw [readBlockByNum, if_neg (Nat.succ_ne_zero n), Nat.add_sub_cancel]
  exact List.getElem?_eq_none hn

theorem readBlockByNum_main (hlog : node.blockLog.map ctx.env.blockId <+: mainIds ctx.env chain)
    (hn : n < node.blockLog.length) : ∃ b, node.readBlockByNum (n + 1) = some b ∧
      (mainIds ctx.env chain)[n]? = some (ctx.env.blockId b) := by
  refine ⟨node.blockLog[n], ?_, ?_⟩
  · rw [readBlockByNum, if_neg (Nat.succ_ne_zero n), Nat.add_sub_cancel,
      List.getElem?_eq_getElem hn]
  · have hmap : n < (node.blockLog.map ctx.env.blockId).length := by
      rwa [List.length_map]
    rw [List.prefix_iff_getElem?.1 hlog n hmap, List.getElem_map]

/-- The ring, the block log and the fork database are asked one after the other. -/
theorem findBlockIdForNum_main (hs : Headed ctx.env chain node.state)
    (hlog : node.blockLog.map ctx.env.blockId <+: mainIds ctx.env chain)
    (hid : (mainIds ctx.env chain)[n]? = some id)
    (hbranch : node.blockLog.length ≤ n → n + 65536 < chain.length → ∃ item,
      node.forkDb.fetchBlockOnMainBranchByNumber (n + 1) = some item ∧ item.id ctx.env = id) :
    node.findBlockIdForNum (n + 1) = id := by
  have hring := hs.summaries
  rw [findBlockIdForNum, if_neg (Nat.succ_ne_zero n)]
  split
  · rename_i hslot
    have hitem : (mainIds ctx.env chain)[n]? = some _ :=
      hring.eq_of_number hs.numbered rfl (Nat.succ_pos n) hslot
    exact Option.some.inj (hitem.symm.trans hid)
  · rename_i hslot
    have hlt : n < chain.length := by
      rw [← length_mainIds ctx.env]
      exact (List.getElem?_eq_some_iff.1 hid).1
    have hold := hring.old_of_number_ne hs.numbered (Nat.succ_pos n)
      (by rwa [length_mainIds]) hslot
    rw [length_mainIds] at hold
    by_cases hlogged : n < node.blockLog.length
    · obtain ⟨b, hread, hb⟩ := readBlockByNum_main hlog hlogged
      rw [hread]
      exact Option.some.inj (hb.symm.trans hid)
    · obtain ⟨item, hfetch, hitem⟩ := hbranch (Nat.not_lt.1 hlogged) (by omega)
      rw [readBlockByNum_eq_none (Nat.not_lt.1 hlogged), hfetch]
      exact hitem

/-- The ring of block summaries holds a short chain whole. -/
theorem mainIds_eq_findBlockIdForNum (hs : Headed ctx.env chain node.state)
    (hlog : node.blockLog.map ctx.env.blockId <+: mainIds ctx.env chain)
    (hshort : node.headBlockNum ≤ 65536) : mainIds ctx.env chain =
      (List.range node.headBlockNum).map fun n ↦ node.findBlockIdForNum (n + 1) := by
  have hnumber : node.headBlockNum = chain.length := hs.number
  apply List.ext_getElem
  · rw [length_mainIds, List.length_map, List.length_range, hnumber]
  · intro n hn hn'
    rw [List.getElem_map, List.getElem_range]
    symm
    apply findBlockIdForNum_main hs hlog (List.getElem?_eq_getElem hn)
    intro _ hold
    omega

/-- A block in the fork database is known. -/
theorem isKnownBlock_of_forkDb (h : node.forkDb.isKnownBlock id = true) :
    node.isKnownBlock id = true := by
  obtain ⟨item, hitem⟩ := Option.isSome_iff_exists.1 h
  rw [isKnownBlock, fetchBlockById, hitem]
  rfl

namespace Tracks

theorem headed (h : node.Tracks chain) : Headed ctx.env chain node.state := by
  obtain ⟨s₀, hgenesis, hmain⟩ := h.main
  exact hmain.headed hgenesis

theorem headBlockNum_eq (h : node.Tracks chain) : node.headBlockNum = chain.length :=
  h.headed.number

theorem length_blockLog_le (h : node.Tracks chain) : node.blockLog.length ≤ chain.length := by
  have hle := h.log.length_le
  rwa [List.length_map, length_mainIds] at hle

theorem num_eq (h : node.Tracks chain) (hid : (mainIds ctx.env chain)[n]? = some id) :
    id.num = n + 1 :=
  h.headed.numbered n id hid

theorem getLast?_mainIds (h : node.Tracks chain) (hne : chain ≠ []) :
    (mainIds ctx.env chain).getLast? = some node.headBlockId :=
  h.headed.getLast?_mainIds hne

/-- A number up to the head leads to the block of that height. -/
theorem findBlockIdForNum_eq (h : node.Tracks chain)
    (hid : (mainIds ctx.env chain)[n]? = some id) : node.findBlockIdForNum (n + 1) = id :=
  findBlockIdForNum_main h.headed h.log hid (h.branch n id hid)

theorem getBlockIdForNum_eq (h : node.Tracks chain)
    (hid : (mainIds ctx.env chain)[n]? = some id) : node.getBlockIdForNum (n + 1) = .ok id := by
  have hne : id ≠ BlockId.null := by
    rintro rfl
    exact absurd (h.num_eq hid) (Nat.succ_ne_zero n).symm
  rw [getBlockIdForNum, h.findBlockIdForNum_eq hid, fcAssert, if_pos hne]
  rfl

/-- No block above the head is known. -/
theorem num_le_of_isKnownBlock (h : node.Tracks chain) (hknown : node.isKnownBlock id = true) :
    id.num ≤ chain.length := by
  unfold isKnownBlock fetchBlockById at hknown
  cases hfetch : node.forkDb.fetchBlock id with
  | some item =>
    obtain ⟨hitem, rfl⟩ := ForkDatabase.find?_eq_some.1 hfetch
    exact h.bounded item hitem
  | none =>
    rw [hfetch] at hknown
    obtain ⟨b, hb⟩ := Option.isSome_iff_exists.1 hknown
    have hread := (Option.filter_eq_some_iff.1 hb).1
    rw [readBlockByNum] at hread
    split at hread
    · cases hread
    · have hlt := (List.getElem?_eq_some_iff.1 hread).1
      have hle := h.length_blockLog_le
      omega

end Tracks

end Node

end SophiaTX.Chain
