import SophiaTX.Forks.Irreversibility

/-!
# Blocks by number

`fetch_block_by_number` takes a block that the fork database has alone at its height, and otherwise
the one of the block log. So it leads to the main chain as long as blocks off the main chain are
stored in pairs, and none above the log.
-/

namespace SophiaTX.Chain

open SophiaTX.Protocol SophiaTX.Lib

namespace ForkDatabase

variable {env : Env} {db : ForkDatabase env} {item : ForkItem} {n : ℕ}

theorem nodup_items (db : ForkDatabase env) : db.items.Nodup := by
  apply List.Nodup.of_map (ForkItem.id env)
  have hids : db.items.map (ForkItem.id env) = db.index.entries.map Prod.fst := by
    rw [items, List.map_map]
    apply List.map_congr_left
    intro entry hentry
    exact (db.filed entry hentry).symm
  rw [hids]
  exact db.index.nodup

theorem mem_fetchBlockByNumber :
    item ∈ db.fetchBlockByNumber n ↔ item ∈ db.items ∧ item.num = n := by
  rw [fetchBlockByNumber, List.mem_filter, decide_eq_true_iff]

/-- An item is alone at its height when no other block of that height is stored. -/
theorem fetchBlockByNumber_eq_singleton (hitem : item ∈ db.items) :
    db.fetchBlockByNumber item.num = [item] ↔
      ∀ other ∈ db.items, other.num = item.num → other.id env = item.id env := by
  constructor
  · intro hlone other hother hnum
    have hmem : other ∈ db.fetchBlockByNumber item.num := mem_fetchBlockByNumber.2 ⟨hother, hnum⟩
    rw [hlone, List.mem_singleton] at hmem
    rw [hmem]
  · intro hsame
    have hall : ∀ other ∈ db.fetchBlockByNumber item.num, other = item := by
      intro other hother
      obtain ⟨hmem, hnum⟩ := mem_fetchBlockByNumber.1 hother
      exact eq_of_id_eq hmem hitem (hsame other hmem hnum)
    have hmem : item ∈ db.fetchBlockByNumber item.num := mem_fetchBlockByNumber.2 ⟨hitem, rfl⟩
    have hnodup : (db.fetchBlockByNumber item.num).Nodup := db.nodup_items.filter _
    have hreplicate := List.eq_replicate_of_mem hall
    rw [hreplicate, List.nodup_replicate] at hnodup
    have hpos := List.length_pos_of_mem hmem
    have hone : (db.fetchBlockByNumber item.num).length = 1 := by omega
    rw [hreplicate, hone, List.replicate_one]

end ForkDatabase

namespace Node

variable {ctx : NodeContext} {node start : Node ctx.env} {s₀ : Database} {ids : List BlockId}
  {blocks : Set SignedBlock} {chain : List (Database × SignedBlock)} {item top : ForkItem} {n : ℕ}

/-- Both lookups lead to the block of the main chain with these ids, and to none above it. -/
structure LooksUp (node : Node ctx.env) (ids : List BlockId) : Prop where
  block : ∀ n, 0 < n → (node.fetchBlockByNumber n).map ctx.env.blockId = ids[n - 1]?
  id : ∀ n, 0 < n → node.findBlockIdForNum n = ids[n - 1]?.getD BlockId.null

/-- The head of the fork database is no higher than the head block. After the block log, up to the
head, the fork database has blocks of the main chain only, and at no other height it has a block
alone that is not on it. -/
structure Unforked (node : Node ctx.env) (ids : List BlockId) : Prop where
  level : ∀ top, node.forkDb.head = some top → top.num ≤ ids.length
  main : ∀ item ∈ node.forkDb.items, node.blockLog.length < item.num → item.num ≤ ids.length →
    ids[item.num - 1]? = some (item.id ctx.env)
  paired : ∀ item ∈ node.forkDb.items, ids[item.num - 1]? ≠ some (item.id ctx.env) →
    ∃ other ∈ node.forkDb.items, other.num = item.num ∧ other.id ctx.env ≠ item.id ctx.env

instance (node : Node ctx.env) (ids : List BlockId) : Decidable (node.Unforked ids) :=
  decidable_of_iff ((∀ top ∈ node.forkDb.head, top.num ≤ ids.length) ∧
      (∀ item ∈ node.forkDb.items, node.blockLog.length < item.num → item.num ≤ ids.length →
        ids[item.num - 1]? = some (item.id ctx.env)) ∧
      ∀ item ∈ node.forkDb.items, ids[item.num - 1]? ≠ some (item.id ctx.env) →
        ∃ other ∈ node.forkDb.items, other.num = item.num ∧ other.id ctx.env ≠ item.id ctx.env)
    ⟨fun h ↦ ⟨h.1, h.2.1, h.2.2⟩, fun h ↦ ⟨h.level, h.main, h.paired⟩⟩

theorem fetchBlockByNumber_lone (h : node.forkDb.fetchBlockByNumber n = [item]) :
    node.fetchBlockByNumber n = some item.data := by
  rw [fetchBlockByNumber, h]

/-- Without a lone block the block log is read. -/
theorem fetchBlockByNumber_logged (h : ∀ item, node.forkDb.fetchBlockByNumber n ≠ [item]) :
    node.fetchBlockByNumber n = node.readBlockByNum n := by
  rw [fetchBlockByNumber]
  split
  · rename_i item hlone
    exact absurd hlone (h item)
  · rfl

/-! ## What the lookups need -/

/-- A block that is found alone is on the main chain. -/
theorem LooksUp.lone (h : node.LooksUp ids)
    (hlone : node.forkDb.fetchBlockByNumber item.num = [item]) :
    ids[item.num - 1]? = some (item.id ctx.env) := by
  have hblock := h.block item.num (Nat.succ_pos _)
  rw [fetchBlockByNumber_lone hlone] at hblock
  exact hblock.symm

theorem LooksUp.paired (h : node.LooksUp ids) (hitem : item ∈ node.forkDb.items)
    (hoff : ids[item.num - 1]? ≠ some (item.id ctx.env)) :
    ∃ other ∈ node.forkDb.items, other.num = item.num ∧ other.id ctx.env ≠ item.id ctx.env := by
  by_contra hnone
  push Not at hnone
  exact hoff (h.lone ((ForkDatabase.fetchBlockByNumber_eq_singleton hitem).2 hnone))

/-- After the log, up to the head, a block is alone. -/
theorem LooksUp.single (h : node.LooksUp ids) (hlog : node.blockLog.length ≤ n)
    (hlt : n < ids.length) : ∃ item, node.forkDb.fetchBlockByNumber (n + 1) = [item] := by
  by_contra hnone
  have hblock := h.block (n + 1) (Nat.succ_pos n)
  rw [fetchBlockByNumber_logged (not_exists.1 hnone), readBlockByNum_eq_none hlog,
    Nat.add_sub_cancel, List.getElem?_eq_getElem hlt] at hblock
  cases hblock

theorem LooksUp.main (h : node.LooksUp ids) (hitem : item ∈ node.forkDb.items)
    (hlog : node.blockLog.length < item.num) (hle : item.num ≤ ids.length) :
    ids[item.num - 1]? = some (item.id ctx.env) := by
  have hpos : 0 < item.num := Nat.succ_pos _
  obtain ⟨single, hsingle⟩ := h.single (n := item.num - 1) (by omega) (by omega)
  rw [Nat.sub_add_cancel hpos] at hsingle
  have hmem : item ∈ node.forkDb.fetchBlockByNumber item.num :=
    ForkDatabase.mem_fetchBlockByNumber.2 ⟨hitem, rfl⟩
  rw [hsingle, List.mem_singleton] at hmem
  exact h.lone (hmem ▸ hsingle)

/-- A head of the fork database above the head block is found by its number. -/
theorem AtRest.level_of_looksUp (hgenesis : initGenesis ctx.genesis = .ok s₀)
    (h : AtRest ctx blocks s₀ node chain) (hlooks : node.LooksUp (mainIds ctx.env chain))
    (hhead : node.forkDb.head = some top) : top.num ≤ (mainIds ctx.env chain).length := by
  by_contra habove
  have hnone : (mainIds ctx.env chain)[top.num - 1]? = none :=
    List.getElem?_eq_none (by omega)
  have hpos : 0 < top.num := Nat.succ_pos _
  have hid := hlooks.id top.num hpos
  rw [hnone, Option.getD_none] at hid
  obtain ⟨item, hitem, hitemId⟩ := ForkDatabase.isKnownBlock_iff.1 (h.known top hhead)
  have hnum : item.num = top.num := congrArg BlockId.num hitemId
  obtain ⟨other, hother, hotherNum, hne⟩ := hlooks.paired hitem (by rw [hnum, hnone]; nofun)
  have hfetch : node.forkDb.fetchBlockOnMainBranchByNumber top.num = some top := by
    have hfirst : item ∈ node.forkDb.fetchBlockByNumber top.num :=
      ForkDatabase.mem_fetchBlockByNumber.2 ⟨hitem, hnum⟩
    have hsecond : other ∈ node.forkDb.fetchBlockByNumber top.num :=
      ForkDatabase.mem_fetchBlockByNumber.2 ⟨hother, hotherNum.trans hnum⟩
    unfold ForkDatabase.fetchBlockOnMainBranchByNumber
    split
    · rename_i hempty
      rw [hempty] at hfirst
      cases hfirst
    · rename_i single hsingle
      rw [hsingle, List.mem_singleton] at hfirst hsecond
      rw [hfirst, hsecond] at hne
      exact absurd rfl hne
    · rw [ForkDatabase.walkMainBranchToNum, hhead, Option.bind_some,
        if_neg (Nat.lt_irrefl _)]
      cases top with
      | unlinked address data => exact if_neg (Nat.lt_irrefl _)
      | linked address data prev => exact if_neg (Nat.lt_irrefl _)
  have hheaded := h.headed hgenesis
  have hlength := h.length_blockLog_le
  rw [length_mainIds] at habove
  obtain ⟨n, hn⟩ : ∃ n, top.num = n + 1 := ⟨top.num - 1, by omega⟩
  rw [hn] at hid hnone hfetch
  rw [findBlockIdForNum, if_neg (Nat.succ_ne_zero n)] at hid
  split at hid
  · rename_i hslot
    have hmain := hheaded.summaries.eq_of_number hheaded.numbered rfl (Nat.succ_pos n) hslot
    cases hnone.symm.trans hmain
  · rw [readBlockByNum_eq_none (by omega), hfetch] at hid
    have hzero : top.num = 0 := congrArg BlockId.num hid
    omega

/-! ## What they lead to -/

/-- A lone block is on the main chain. -/
theorem Unforked.lone (h : node.Unforked ids)
    (hlone : node.forkDb.fetchBlockByNumber n = [item]) :
    item.num = n ∧ ids[n - 1]? = some (item.id ctx.env) := by
  have hmem : item ∈ node.forkDb.fetchBlockByNumber n := hlone ▸ List.mem_cons_self
  obtain ⟨hitem, rfl⟩ := ForkDatabase.mem_fetchBlockByNumber.1 hmem
  refine ⟨rfl, ?_⟩
  by_contra hoff
  obtain ⟨other, hother, hnum, hne⟩ := h.paired item hitem hoff
  exact hne ((ForkDatabase.fetchBlockByNumber_eq_singleton hitem).1 hlone other hother hnum)

/-- After the log, up to the head, the block of the main chain is alone. -/
theorem AtRest.single (hgenesis : initGenesis ctx.genesis = .ok s₀)
    (h : AtRest ctx blocks s₀ node chain) (hnode : node.Unforked (mainIds ctx.env chain))
    (hlog : node.blockLog.length ≤ n) (hlt : n < (mainIds ctx.env chain).length) :
    ∃ item, node.forkDb.fetchBlockByNumber (n + 1) = [item] := by
  have hid := List.getElem?_eq_getElem hlt
  obtain ⟨item, hitem, hitemId⟩ := ForkDatabase.isKnownBlock_iff.1 (h.stored n _ hlog hid)
  have hnum : item.num = n + 1 := by
    rw [← ForkItem.num_id ctx.env, hitemId]
    exact (h.headed hgenesis).numbered n _ hid
  refine ⟨item, ?_⟩
  rw [← hnum]
  apply (ForkDatabase.fetchBlockByNumber_eq_singleton hitem).2
  intro other hother hotherNum
  have hmain := hnode.main other hother (by omega) (by omega)
  rw [hotherNum, hnum, Nat.add_sub_cancel, hid] at hmain
  rw [hitemId]
  exact (Option.some.inj hmain).symm

theorem AtRest.fetchBlockByNumber (hgenesis : initGenesis ctx.genesis = .ok s₀)
    (h : AtRest ctx blocks s₀ node chain) (hnode : node.Unforked (mainIds ctx.env chain)) (n : ℕ) :
    (node.fetchBlockByNumber (n + 1)).map ctx.env.blockId = (mainIds ctx.env chain)[n]? := by
  by_cases hlone : ∃ item, node.forkDb.fetchBlockByNumber (n + 1) = [item]
  · obtain ⟨item, hlone⟩ := hlone
    obtain ⟨_, hmain⟩ := hnode.lone hlone
    rw [Nat.add_sub_cancel] at hmain
    rw [fetchBlockByNumber_lone hlone, hmain]
    rfl
  · rw [fetchBlockByNumber_logged (not_exists.1 hlone)]
    rcases Nat.lt_or_ge n node.blockLog.length with hlt | hge
    · obtain ⟨b, hread, hb⟩ := readBlockByNum_main h.log hlt
      rw [hread, hb]
      rfl
    · have habove : (mainIds ctx.env chain).length ≤ n := by
        apply Nat.le_of_not_lt
        intro hlt
        exact hlone (h.single hgenesis hnode hge hlt)
      rw [readBlockByNum_eq_none hge, List.getElem?_eq_none habove]
      rfl

/-- Above the head nothing is found on the main branch. -/
theorem Unforked.fetch_above (h : node.Unforked ids) (hn : ids.length < n) :
    node.forkDb.fetchBlockOnMainBranchByNumber n = none := by
  unfold ForkDatabase.fetchBlockOnMainBranchByNumber
  split
  · rfl
  · rename_i item hlone
    have hlt := (List.getElem?_eq_some_iff.1 (h.lone hlone).2).1
    omega
  · rw [ForkDatabase.walkMainBranchToNum]
    cases hhead : node.forkDb.head with
    | none => rfl
    | some top => rw [Option.bind_some, if_pos ((h.level top hhead).trans_lt hn)]

theorem AtRest.findBlockIdForNum (hgenesis : initGenesis ctx.genesis = .ok s₀)
    (h : AtRest ctx blocks s₀ node chain) (hnode : node.Unforked (mainIds ctx.env chain)) (n : ℕ) :
    node.findBlockIdForNum (n + 1) = (mainIds ctx.env chain)[n]?.getD BlockId.null := by
  have hheaded := h.headed hgenesis
  rcases Nat.lt_or_ge n (mainIds ctx.env chain).length with hlt | hge
  · have hid := List.getElem?_eq_getElem hlt
    rw [hid, Option.getD_some]
    apply findBlockIdForNum_main hheaded h.log hid
    intro hlog _
    obtain ⟨item, hlone⟩ := h.single hgenesis hnode hlog hlt
    obtain ⟨_, hmain⟩ := hnode.lone hlone
    rw [Nat.add_sub_cancel, hid] at hmain
    refine ⟨item, ?_, (Option.some.inj hmain).symm⟩
    rw [ForkDatabase.fetchBlockOnMainBranchByNumber, hlone]
  · have hnone := List.getElem?_eq_none hge
    have hlength := h.length_blockLog_le
    rw [length_mainIds] at hge
    rw [hnone, Option.getD_none, Node.findBlockIdForNum, if_neg (Nat.succ_ne_zero n)]
    split
    · rename_i hslot
      have hitem := hheaded.summaries.eq_of_number hheaded.numbered rfl (Nat.succ_pos n) hslot
      cases hnone.symm.trans hitem
    · rw [readBlockByNum_eq_none (by omega), hnode.fetch_above]
      rw [length_mainIds]
      omega

theorem lookups_lead_to_main_chain (hskip : ctx.skip.validate = false)
    (hgenesis : initGenesis ctx.genesis = .ok s₀) (hparent : SeparatesParents ctx.env blocks)
    {opened : List (Database × SignedBlock)} (hstart : Opens ctx s₀ start opened)
    (hopened : MadeOf blocks opened) (h : Reaches ctx blocks (goesThrough ctx) start node)
    (hmain : MainChain ctx.toContext s₀ chain node.state) (hmade : MadeOf blocks chain) :
    node.LooksUp (mainIds ctx.env chain) ↔ node.Unforked (mainIds ctx.env chain) := by
  obtain ⟨⟨chain', hnode⟩, _⟩ :=
    h.atRest hskip hgenesis hparent (hstart.settled hskip hgenesis hopened).toAtRest
  rw [mainIds_eq hgenesis hparent hmain hmade hnode.main hnode.made]
  constructor
  · intro hlooks
    exact ⟨fun top hhead ↦ hnode.level_of_looksUp hgenesis hlooks hhead,
      fun item hitem ↦ hlooks.main hitem, fun item hitem ↦ hlooks.paired hitem⟩
  · intro hunforked
    constructor
    · intro n hn
      have hblock := hnode.fetchBlockByNumber hgenesis hunforked (n - 1)
      rwa [Nat.sub_add_cancel hn] at hblock
    · intro n hn
      have hid := hnode.findBlockIdForNum hgenesis hunforked (n - 1)
      rwa [Nat.sub_add_cancel hn] at hid

/-- Three blocks are looked up, the first of them in the block log, as the fork database has another
block of its height. -/
theorem lookups_lead_to_main_chain_over_fork :
    ∃ s₀, ∃ node : Node promptNodes.env, ∃ chain, initGenesis promptNodes.genesis = .ok s₀ ∧
      node.headBlockNum = 3 ∧ node.blockLog.length = 1 ∧
      (node.forkDb.fetchBlockByNumber 1).length = 2 ∧
      MainChain promptNodes.toContext s₀ chain node.state ∧
      node.LooksUp (mainIds promptNodes.env chain) := by
  have hok : okAnd (initGenesis promptNodes.genesis) (fun s₀ ↦
      let second := blockOn firstBlock 1531512809
      let calls : List Call := [.push firstBlock, .push sideBlock, .push second,
        .push (blockOn second 1531512812)]
      let node := afterCalls promptNodes s₀ calls
      allMeet promptNodes (goesThrough promptNodes) (Node.opened s₀) calls &&
      decide (node.headBlockNum = 3 ∧ node.blockLog.length = 1 ∧
        (node.forkDb.fetchBlockByNumber 1).length = 2 ∧
        node.Unforked ((List.range 3).map fun n ↦ node.findBlockIdForNum (n + 1)))) = true := by
    decide +kernel
  obtain ⟨s₀, hgenesis, hs₀⟩ := exists_of_okAnd hok
  simp only [Bool.and_eq_true, decide_eq_true_eq] at hs₀
  obtain ⟨hcalls, hheight, hlog, hpair, hunforked⟩ := hs₀
  have hparent : SeparatesParents promptNodes.env Set.univ := linkedContext_separatesParents _
  have hopens : Opens promptNodes s₀ (Node.opened s₀) [] := .genesis
  have hreaches := reaches_afterCalls hcalls
  obtain ⟨⟨chain, hrest⟩, _⟩ := hreaches.atRest rfl hgenesis hparent
    (hopens.settled rfl hgenesis (List.forall_mem_nil _)).toAtRest
  have hids :=
    mainIds_eq_findBlockIdForNum (hrest.headed hgenesis) hrest.log (by rw [hheight]; decide)
  rw [hheight] at hids
  refine ⟨s₀, _, chain, hgenesis, hheight, hlog, hpair, hrest.main, ?_⟩
  apply (lookups_lead_to_main_chain rfl hgenesis hparent hopens (List.forall_mem_nil _) hreaches
    hrest.main hrest.made).2
  rw [hids]
  exact hunforked

/-- The first block is not found any more once there is another block of its height. -/
theorem first_block_not_looked_up :
    ∃ s₀ node chain, initGenesis linkedNodes.genesis = .ok s₀ ∧
      Reaches linkedNodes Set.univ (fun _ _ ↦ true) (Node.opened s₀) node ∧
      MainChain linkedNodes.toContext s₀ chain node.state ∧ node.headBlockNum = 1 ∧
      node.fetchBlockByNumber 1 = none ∧ ¬ node.LooksUp (mainIds linkedNodes.env chain) := by
  have hok : okAnd (initGenesis linkedNodes.genesis) (fun s₀ ↦
      let calls : List Call := [.push firstBlock, .push sideBlock]
      let node := afterCalls linkedNodes s₀ calls
      allMeet linkedNodes (goesThrough linkedNodes) (Node.opened s₀) calls &&
      decide (node.headBlockNum = 1) && (node.fetchBlockByNumber 1).isNone) = true := by
    decide +kernel
  obtain ⟨s₀, hgenesis, hs₀⟩ := exists_of_okAnd hok
  rw [Bool.and_eq_true, Bool.and_eq_true, Option.isNone_iff_eq_none] at hs₀
  obtain ⟨⟨hcalls, hone⟩, hnone⟩ := hs₀
  have hone := of_decide_eq_true hone
  have hopens : Opens linkedNodes s₀ (Node.opened s₀) [] := .genesis
  obtain ⟨⟨chain, hrest⟩, _⟩ := (reaches_afterCalls hcalls).atRest rfl hgenesis
    (linkedContext_separatesParents Set.univ)
    (hopens.settled rfl hgenesis (List.forall_mem_nil _)).toAtRest
  refine ⟨s₀, _, chain, hgenesis, reaches_anyCalls s₀ _, hrest.main, hone, hnone,
    fun hlooks ↦ ?_⟩
  have hblock := hlooks.block 1 Nat.one_pos
  have hlength : 0 < (mainIds linkedNodes.env chain).length := by
    rw [length_mainIds, ← (hrest.headed hgenesis).number]
    exact hone.ge
  rw [hnone, List.getElem?_eq_getElem hlength] at hblock
  cases hblock

end Node

end SophiaTX.Chain
