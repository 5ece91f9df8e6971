import SophiaTX.Forks.Tracking
import SophiaTX.Lib.Strides

/-!
# Synchronising with a peer

A node describes its chain to a peer by a synopsis, a few block ids that get denser towards the
reference point. The peer answers with the ids that follow the last of them on its own main chain.
The `assert`s of the two functions are compiled out of a release build.
-/

namespace SophiaTX.Plugins

open SophiaTX.Protocol SophiaTX.Lib SophiaTX.Chain

inductive SyncError where
  | chain (e : ChainError)
  | blockOlderThanUndoHistory
  | peerIsOnAnUnreachableFork
deriving DecidableEq

abbrev SyncExec := Except SyncError

def ofChain {α : Type} (x : Exec α) : SyncExec α := x.mapError .chain

/-- What `get_blockchain_synopsis` chooses its ids from. -/
structure SynopsisRange where
  lowBlockNum : ℕ
  nonForkHighBlockNum : ℕ
  highBlockNum : ℕ
  forkHistory : List BlockId

section

variable {env : Env} (node : Node env)

def isIncludedBlock (blockId : BlockId) : SyncExec Bool := do
  let blockIdInPreferredChain ← ofChain (node.getBlockIdForNum blockId.num)
  pure (decide (blockId = blockIdInPreferredChain))

/-! ## The synopsis -/

def forkRange (referencePoint : BlockId) : SyncExec SynopsisRange := do
  let forkHistory ← ofChain (node.getBlockIdsOnFork referencePoint)
  match forkHistory.getLast? with
  | none => .error (.chain .undefinedBehaviour)
  | some lastNonForkBlock =>
    let forkHistory := forkHistory.dropLast.reverse
    let nonForkHighBlockNum :=
      if lastNonForkBlock = BlockId.null then 0 else lastNonForkBlock.num
    if nonForkHighBlockNum < node.lastNonUndoableBlockNum then .error .blockOlderThanUndoHistory
    else pure ⟨node.lastNonUndoableBlockNum, nonForkHighBlockNum,
      uint32 (nonForkHighBlockNum + forkHistory.length), forkHistory⟩

def synopsisRange (referencePoint : BlockId) : SyncExec SynopsisRange :=
  if referencePoint ≠ BlockId.null then do
    let included ← isIncludedBlock node referencePoint
    if included then
      pure ⟨if referencePoint.num < node.lastNonUndoableBlockNum then referencePoint.num
        else node.lastNonUndoableBlockNum, referencePoint.num, referencePoint.num, []⟩
    else forkRange node referencePoint
  else pure ⟨node.lastNonUndoableBlockNum, node.headBlockNum, node.headBlockNum, []⟩

/-- The id of the block of a height, from the main chain or from the fork. -/
def synopsisEntry (r : SynopsisRange) (blockNum : ℕ) : SyncExec BlockId :=
  if blockNum ≤ r.nonForkHighBlockNum then ofChain (node.getBlockIdForNum blockNum)
  else match r.forkHistory[blockNum - r.nonForkHighBlockNum - 1]? with
    | some id => .ok id
    | none => .error (.chain .undefinedBehaviour)

/-- The loop of `get_blockchain_synopsis`; nothing when it takes more rounds than the fuel. -/
def synopsisLoop (r : SynopsisRange) (trueHighBlockNum : ℕ) :
    ℕ → ℕ → Option (SyncExec (List BlockId))
  | 0, _ => none
  | fuel + 1, lowBlockNum =>
    match synopsisEntry node r lowBlockNum with
    | .error e => some (.error e)
    | .ok id =>
      let next := uint32 (lowBlockNum + uint32 (uint32Sub trueHighBlockNum lowBlockNum + 2) / 2)
      if next ≤ r.highBlockNum then
        (synopsisLoop r trueHighBlockNum fuel next).map fun rest ↦ rest.map (id :: ·)
      else some (.ok [id])

def getBlockchainSynopsis (fuel : ℕ) (referencePoint : BlockId)
    (numberOfBlocksAfterReferencePoint : ℕ) : Option (SyncExec (List BlockId)) :=
  match synopsisRange node referencePoint with
  | .error e => some (.error e)
  | .ok r =>
    if referencePoint = BlockId.null ∧ r.highBlockNum = 0 then some (.ok [])
    else synopsisLoop node r (uint32 (r.highBlockNum + numberOfBlocksAfterReferencePoint)) fuel
      (if r.lowBlockNum = 0 then 1 else r.lowBlockNum)

/-! ## The answer -/

/-- The loop of `get_block_ids` over the synopsis, here from its end. -/
def lastKnownOf : List BlockId → SyncExec BlockId
  | [] => .error .peerIsOnAnUnreachableFork
  | id :: rest =>
    if id = BlockId.null then .ok id
    else if node.isKnownBlock id then do
      let included ← isIncludedBlock node id
      if included then pure id else lastKnownOf rest
    else lastKnownOf rest

def lastKnownBlockId (synopsis : List BlockId) : SyncExec BlockId :=
  if synopsis = [] ∨ synopsis = [BlockId.null] then .ok BlockId.null
  else lastKnownOf node synopsis.reverse

/-- The loop of `get_block_ids` that lists at most `limit` ids; number 0 is passed over. -/
def blockIdsFrom : ℕ → ℕ → SyncExec (List BlockId)
  | 0, _ => .ok []
  | limit + 1, num =>
    let num := if num = 0 then 1 else num
    if num ≤ node.headBlockNum then do
      let id ← ofChain (node.getBlockIdForNum num)
      let rest ← blockIdsFrom limit (uint32 (num + 1))
      pure (id :: rest)
    else .ok []

/-- `get_block_ids`, with the count of the ids that remain. -/
def getBlockIds (synopsis : List BlockId) (limit : ℕ) : SyncExec (List BlockId × ℕ) :=
  if node.headBlockNum = 0 then .ok ([], 0)
  else do
    let lastKnown ← lastKnownBlockId node synopsis
    let result ← blockIdsFrom node limit lastKnown.num
    pure (result, match result.getLast? with
      | some id => if id.num < node.headBlockNum then node.headBlockNum - id.num else 0
      | none => 0)

end

/-! ## The line of a reference point -/

variable {ctx : Context} {node : Node ctx.env} {chain : List (Database × SignedBlock)}
  {reference id : BlockId} {lineage : List BlockId} {n : ℕ}

/-- The ids from block 1 to a reference point: a block of the main chain; the head, if no block is
given; or a block of a fork that the node could switch to. Such a fork leaves the main chain at a
block `p` that can still be made the head again, and the fork database links the blocks of the fork
and those of the main chain down to it. -/
inductive LineTo (node : Node ctx.env) (chain : List (Database × SignedBlock)) :
    BlockId → List BlockId → Prop
  | head (hne : chain ≠ []) : LineTo node chain BlockId.null (mainIds ctx.env chain)
  | main {n : ℕ} {id : BlockId} (hid : (mainIds ctx.env chain)[n]? = some id) :
    LineTo node chain id ((mainIds ctx.env chain).take (n + 1))
  | fork {top tip : ForkItem} {p : BlockId} {main fork : List ForkItem}
    (hp : p = BlockId.null ∨ p ∈ mainIds ctx.env chain)
    (htop : top.id ctx.env = node.headBlockId) (hmain : node.forkDb.Walk top main p)
    (hfork : node.forkDb.Walk tip fork p)
    (honmain : ∀ item ∈ main, item.id ctx.env ∈ mainIds ctx.env chain)
    (hoffmain : ∀ item ∈ fork, item.id ctx.env ∉ mainIds ctx.env chain)
    (hundoable : node.lastNonUndoableBlockNum ≤ p.num) :
    LineTo node chain (tip.id ctx.env) ((mainIds ctx.env chain).take p.num ++
      (fork.map (ForkItem.id ctx.env)).reverse)

/-- What `get_blockchain_synopsis` finds for a line. -/
structure SynopsisRange.Covers (r : SynopsisRange) (node : Node ctx.env)
    (lineage : List BlockId) : Prop where
  low : r.lowBlockNum = min node.lastNonUndoableBlockNum lineage.length
  high : r.highBlockNum = lineage.length
  entry : ∀ n id, lineage[n]? = some id → synopsisEntry node r (n + 1) = .ok id

theorem isIncludedBlock_eq (h : node.Tracks chain) (hn : (mainIds ctx.env chain)[n]? = some id)
    (hnum : reference.num = n + 1) :
    isIncludedBlock node reference = .ok (decide (reference = id)) := by
  rw [isIncludedBlock, hnum, h.getBlockIdForNum_eq hn]
  rfl

theorem synopsisEntry_main (h : node.Tracks chain) {r : SynopsisRange}
    (hle : n + 1 ≤ r.nonForkHighBlockNum) (hn : (mainIds ctx.env chain)[n]? = some id) :
    synopsisEntry node r (n + 1) = .ok id := by
  rw [synopsisEntry, if_pos hle, h.getBlockIdForNum_eq hn]
  rfl

theorem lastNonUndoable_le (h : node.Tracks chain) :
    node.lastNonUndoableBlockNum ≤ chain.length :=
  h.irreversible.trans h.length_blockLog_le

theorem ne_null_of_num {n : ℕ} (hnum : id.num = n + 1) : id ≠ BlockId.null := by
  rintro rfl
  exact absurd hnum (Nat.succ_ne_zero n).symm

theorem covers_head (h : node.Tracks chain) :
    ∃ r, synopsisRange node BlockId.null = .ok r ∧ r.Covers node (mainIds ctx.env chain) := by
  refine ⟨_, if_neg (not_not.2 rfl), ?_, ?_, fun n id hn ↦ ?_⟩
  · rw [length_mainIds, min_eq_left (lastNonUndoable_le h)]
  · rw [length_mainIds]
    exact h.headBlockNum_eq
  · apply synopsisEntry_main h _ hn
    have hlt := (List.getElem?_eq_some_iff.1 hn).1
    rw [length_mainIds, ← h.headBlockNum_eq] at hlt
    exact hlt

theorem covers_main (h : node.Tracks chain) (hid : (mainIds ctx.env chain)[n]? = some id) :
    ∃ r, synopsisRange node id = .ok r ∧ r.Covers node ((mainIds ctx.env chain).take (n + 1)) := by
  have hnum := h.num_eq hid
  have hlength : ((mainIds ctx.env chain).take (n + 1)).length = n + 1 := by
    rw [List.length_take, min_eq_left (List.getElem?_eq_some_iff.1 hid).1]
  have hlow : (if id.num < node.lastNonUndoableBlockNum then id.num
      else node.lastNonUndoableBlockNum) = min node.lastNonUndoableBlockNum id.num := by
    split <;> omega
  refine ⟨⟨min node.lastNonUndoableBlockNum id.num, id.num, id.num, []⟩, ?_, ?_, ?_,
    fun k other hk ↦ ?_⟩
  · rw [synopsisRange, if_pos (ne_null_of_num hnum), isIncludedBlock_eq h hid hnum,
      decide_eq_true rfl, hlow]
    rfl
  · rw [hlength, hnum]
  · rw [hlength, hnum]
  · have hlt := (List.getElem?_eq_some_iff.1 hk).1
    rw [hlength] at hlt
    rw [List.getElem?_take_of_lt hlt] at hk
    apply synopsisEntry_main h _ hk
    rw [hnum]
    exact hlt

section Fork

variable {top tip : ForkItem} {p : BlockId} {main fork : List ForkItem}
  (hp : p = BlockId.null ∨ p ∈ mainIds ctx.env chain)
  (htop : top.id ctx.env = node.headBlockId) (hmain : node.forkDb.Walk top main p)
  (hfork : node.forkDb.Walk tip fork p)
  (honmain : ∀ item ∈ main, item.id ctx.env ∈ mainIds ctx.env chain)
  (hoffmain : ∀ item ∈ fork, item.id ctx.env ∉ mainIds ctx.env chain)

include hp in
theorem num_le_of_forkPoint (h : node.Tracks chain) : p.num ≤ chain.length := by
  rcases hp with rfl | hmem
  · exact Nat.zero_le _
  · obtain ⟨n, hn⟩ := List.getElem?_of_mem hmem
    have hlt := (List.getElem?_eq_some_iff.1 hn).1
    rw [length_mainIds] at hlt
    rw [h.num_eq hn]
    exact hlt

include htop hmain hfork honmain hoffmain in
theorem getBlockIdsOnFork_eq :
    node.getBlockIdsOnFork (tip.id ctx.env) = .ok (fork.map (ForkItem.id ctx.env) ++ [p]) := by
  have hdisjoint : main.Disjoint fork := fun item hitem hitem' ↦
    hoffmain item hitem' (honmain item hitem)
  obtain ⟨last, hlast⟩ := Option.ne_none_iff_exists'.1 fun hnone ↦
    hmain.ne_nil (List.getLast?_eq_none_iff.1 hnone)
  have hprevious : last.previousId = p := by
    have hend := hmain.getLast?_eq
    rw [hlast] at hend
    exact Option.some.inj hend
  rw [Node.getBlockIdsOnFork, ← htop, hmain.fetchBranchFrom_eq hfork hdisjoint, ok_bind]
  simp only [hlast, hprevious]
  rfl

include hfork hoffmain in
theorem isIncludedBlock_fork (h : node.Tracks chain) :
    isIncludedBlock node (tip.id ctx.env) = .ok false := by
  have hmem : tip ∈ fork := List.mem_of_mem_head? hfork.head?_eq
  have hbounded : tip.num ≤ chain.length := h.bounded tip (hfork.mem_items hmem)
  have hlt : tip.previousId.num < (mainIds ctx.env chain).length := by
    rw [length_mainIds]
    exact hbounded
  have hid := List.getElem?_eq_getElem hlt
  rw [isIncludedBlock_eq h hid rfl]
  congr 1
  rw [decide_eq_false_iff_not]
  intro heq
  exact hoffmain tip hmem (heq ▸ List.getElem_mem hlt)

include hp htop hmain hfork honmain hoffmain in
theorem covers_fork (h : node.Tracks chain) (hundoable : node.lastNonUndoableBlockNum ≤ p.num)
    (hline : lineage = (mainIds ctx.env chain).take p.num ++
      (fork.map (ForkItem.id ctx.env)).reverse) (hbound : lineage.length < 4294967296) :
    ∃ r, synopsisRange node (tip.id ctx.env) = .ok r ∧ r.Covers node lineage := by
  have hple := num_le_of_forkPoint hp h
  have hlength : lineage.length = p.num + fork.length := by
    rw [hline, List.length_append, List.length_take, length_mainIds, min_eq_left hple,
      List.length_reverse, List.length_map]
  refine ⟨⟨node.lastNonUndoableBlockNum, p.num, lineage.length,
    (fork.map (ForkItem.id ctx.env)).reverse⟩, ?_, ?_, rfl, fun k other hk ↦ ?_⟩
  · have hhigh : (if p = BlockId.null then 0 else p.num) = p.num := by
      split
      · rename_i hnull
        rw [hnull]
        rfl
      · rfl
    have hsize : uint32 (p.num + fork.length) = lineage.length := by
      rw [← hlength]
      exact Nat.mod_eq_of_lt hbound
    rw [synopsisRange, if_pos (ne_null_of_num rfl), isIncludedBlock_fork hfork hoffmain h]
    change forkRange node _ = _
    rw [forkRange, getBlockIdsOnFork_eq htop hmain hfork honmain hoffmain]
    change (match (fork.map (ForkItem.id ctx.env) ++ [p]).getLast? with
      | none => _
      | some lastNonForkBlock => _) = _
    rw [List.getLast?_concat]
    dsimp only
    rw [List.dropLast_concat, hhigh, if_neg (Nat.not_lt.2 hundoable), List.length_reverse,
      List.length_map, hsize]
    rfl
  · rw [hlength]
    dsimp only
    omega
  · rw [hline, List.getElem?_append, List.length_take, length_mainIds, min_eq_left hple] at hk
    split at hk
    · rename_i hlt
      rw [List.getElem?_take_of_lt hlt] at hk
      exact synopsisEntry_main h hlt hk
    · rename_i hge
      have hindex : k + 1 - p.num - 1 = k - p.num := by omega
      rw [synopsisEntry, if_neg (by dsimp only; omega)]
      dsimp only
      rw [hindex, hk]

end Fork

/-- The block that a reference point stands for. -/
def referencedId (node : Node ctx.env) (reference : BlockId) : BlockId :=
  if reference = BlockId.null then node.headBlockId else reference

namespace LineTo

/-- The blocks of a line are numbered. -/
theorem numbered (hline : LineTo node chain reference lineage) (h : node.Tracks chain)
    (hid : lineage[n]? = some id) : id.num = n + 1 := by
  cases hline with
  | head _ => exact h.num_eq hid
  | main _ =>
    rw [List.getElem?_take] at hid
    split at hid
    · exact h.num_eq hid
    · cases hid
  | @fork top tip p main fork hp _ _ hfork _ _ _ =>
    rw [List.getElem?_append] at hid
    split at hid
    · rw [List.getElem?_take] at hid
      split at hid
      · exact h.num_eq hid
      · cases hid
    · rename_i hge
      rw [List.length_take, length_mainIds, min_eq_left (num_le_of_forkPoint hp h)] at hid hge
      have hnum := hfork.numbered hid
      omega

theorem pairwise (hline : LineTo node chain reference lineage) (h : node.Tracks chain) :
    lineage.Pairwise fun id id' ↦ id.num < id'.num := by
  rw [List.pairwise_iff_getElem]
  intro i j hi hj hlt
  rw [hline.numbered h (List.getElem?_eq_getElem hi),
    hline.numbered h (List.getElem?_eq_getElem hj)]
  exact Nat.succ_lt_succ hlt

theorem getLast?_eq (hline : LineTo node chain reference lineage) (h : node.Tracks chain) :
    lineage.getLast? = some (referencedId node reference) := by
  cases hline with
  | head hne =>
    rw [referencedId, if_pos rfl]
    exact h.getLast?_mainIds hne
  | @main n id hid =>
    have hlt := (List.getElem?_eq_some_iff.1 hid).1
    rw [referencedId, if_neg (ne_null_of_num (h.num_eq hid)), List.getLast?_eq_getElem?,
      List.length_take, min_eq_left hlt, List.getElem?_take_of_lt (by omega)]
    exact hid
  | @fork top tip p main fork _ _ _ hfork _ _ _ =>
    rw [referencedId, if_neg (ne_null_of_num rfl), List.getLast?_append, List.getLast?_reverse,
      List.head?_map, hfork.head?_eq]
    rfl

theorem length_pos (hline : LineTo node chain reference lineage) (h : node.Tracks chain) :
    0 < lineage.length := by
  apply List.length_pos_of_mem
  exact List.mem_of_getLast? (hline.getLast?_eq h)

theorem covers (hline : LineTo node chain reference lineage) (h : node.Tracks chain)
    (hbound : lineage.length < 4294967296) :
    ∃ r, synopsisRange node reference = .ok r ∧ r.Covers node lineage := by
  cases hline with
  | head _ => exact covers_head h
  | main hid => exact covers_main h hid
  | fork hp htop hmain hfork honmain hoffmain hundoable =>
    exact covers_fork hp htop hmain hfork honmain hoffmain h hundoable rfl hbound

end LineTo

/-! ## The loop of the synopsis -/

/-- The loop steps on the samples of the line. -/
theorem synopsisLoop_eq {r : SynopsisRange} (hr : r.Covers node lineage)
    (hbound : lineage.length + 1 < 4294967296) {fuel low : ℕ} (hpos : 0 < low)
    (hlow : low ≤ lineage.length) (hfuel : lineage.length < fuel + low) :
    synopsisLoop node r lineage.length fuel low = some (.ok (samples lineage low)) := by
  induction low using strides.induct lineage.length generalizing fuel with
  | case1 low hlt ih =>
    obtain ⟨id, hid⟩ := exists_getElem? hpos hlow
    obtain ⟨fuel, rfl⟩ : ∃ k, fuel = k + 1 := ⟨fuel - 1, by omega⟩
    have hentry := hr.entry _ _ hid
    rw [Nat.sub_add_cancel hpos] at hentry
    have hnext : uint32 (low + uint32 (uint32Sub lineage.length low + 2) / 2) =
        nextStride lineage.length low := by
      unfold uint32 uint32Sub nextStride
      omega
    have hle := nextStride_le hlt
    have hgt := lt_nextStride lineage.length low
    rw [synopsisLoop, hentry]
    dsimp only
    rw [hnext, hr.high, if_pos hle, ih (hpos.trans hgt) hle (by omega), samples_of_lt hlt hid]
    rfl
  | case2 low hge =>
    obtain rfl : low = lineage.length := Nat.le_antisymm hlow (Nat.not_lt.1 hge)
    obtain ⟨id, hid⟩ := exists_getElem? hpos hlow
    obtain ⟨fuel, rfl⟩ : ∃ k, fuel = k + 1 := ⟨fuel - 1, by omega⟩
    have hentry := hr.entry _ _ hid
    rw [Nat.sub_add_cancel hpos] at hentry
    have hnext : uint32 (lineage.length +
        uint32 (uint32Sub lineage.length lineage.length + 2) / 2) = lineage.length + 1 := by
      unfold uint32 uint32Sub
      omega
    rw [synopsisLoop, hentry]
    dsimp only
    rw [hnext, hr.high, if_neg (Nat.not_succ_le_self _), samples_length hid]

/-- The height a synopsis starts at: the last irreversible block or block 1, but not above the
reference point. -/
def synopsisStart (node : Node ctx.env) (lineage : List BlockId) : ℕ :=
  max 1 (min node.lastNonUndoableBlockNum lineage.length)

theorem getBlockchainSynopsis_eq (h : node.Tracks chain)
    (hline : LineTo node chain reference lineage) (hbound : lineage.length + 1 < 4294967296)
    (hlength : synopsisStart node lineage ≤ lineage.length) {fuel : ℕ}
    (hfuel : lineage.length ≤ fuel) :
    getBlockchainSynopsis node fuel reference 0 =
      some (.ok (samples lineage (synopsisStart node lineage))) := by
  obtain ⟨r, hrange, hr⟩ := hline.covers h (by omega)
  have hpos : 0 < synopsisStart node lineage := by
    unfold synopsisStart
    omega
  have hnotempty : ¬ (reference = BlockId.null ∧ r.highBlockNum = 0) := by
    rintro ⟨_, hzero⟩
    rw [hr.high] at hzero
    omega
  have hstart : (if r.lowBlockNum = 0 then 1 else r.lowBlockNum) = synopsisStart node lineage := by
    rw [hr.low, synopsisStart]
    split <;> omega
  have htrue : uint32 (r.highBlockNum + 0) = lineage.length := by
    rw [hr.high]
    exact Nat.mod_eq_of_lt (by omega)
  rw [getBlockchainSynopsis, hrange]
  dsimp only
  rw [if_neg hnotempty, hstart, htrue]
  exact synopsisLoop_eq hr hbound hpos hlength (by omega)

/-! ## Where the answer starts -/

/-- The last known id of the synopsis that is on the main chain is found. -/
theorem lastKnownOf_eq (h : node.Tracks chain) {ids : List BlockId}
    (hnum : ∀ id ∈ ids, 0 < id.num)
    (hmain : ∃ id ∈ ids, id ∈ mainIds ctx.env chain ∧ node.isKnownBlock id = true) :
    ∃ id ∈ ids, id ∈ mainIds ctx.env chain ∧ lastKnownOf node ids = .ok id := by
  induction ids with
  | nil =>
    obtain ⟨id, hmem, _⟩ := hmain
    cases hmem
  | cons id ids ih =>
    have hpos := hnum id List.mem_cons_self
    have hne : id ≠ BlockId.null := by
      rintro rfl
      exact absurd hpos (Nat.lt_irrefl 0)
    have hlater : ¬ (id ∈ mainIds ctx.env chain ∧ node.isKnownBlock id = true) →
        ∃ id' ∈ id :: ids, id' ∈ mainIds ctx.env chain ∧ lastKnownOf node ids = .ok id' := by
      intro hoff
      obtain ⟨other, hother, hothermain⟩ := hmain
      have hrest : other ∈ ids := (List.mem_cons.1 hother).resolve_left fun heq ↦
        hoff (heq ▸ hothermain)
      obtain ⟨found, hfound, hfoundmain, heq⟩ := ih
        (fun x hx ↦ hnum x (List.mem_cons_of_mem _ hx)) ⟨other, hrest, hothermain⟩
      exact ⟨found, List.mem_cons_of_mem _ hfound, hfoundmain, heq⟩
    rw [lastKnownOf, if_neg hne]
    by_cases hknown : node.isKnownBlock id = true
    · rw [if_pos hknown]
      have hlt : id.num - 1 < (mainIds ctx.env chain).length := by
        have hle := h.num_le_of_isKnownBlock hknown
        rw [length_mainIds]
        omega
      rw [isIncludedBlock_eq h (List.getElem?_eq_getElem hlt) (Nat.sub_add_cancel hpos).symm]
      by_cases hsame : id = (mainIds ctx.env chain)[id.num - 1]
      · refine ⟨id, List.mem_cons_self, hsame ▸ List.getElem_mem hlt, ?_⟩
        rw [decide_eq_true hsame]
        rfl
      · rw [decide_eq_false hsame]
        apply hlater
        rintro ⟨hmem, _⟩
        obtain ⟨n, hn⟩ := List.getElem?_of_mem hmem
        have hindex : id.num - 1 = n := by
          rw [h.num_eq hn, Nat.add_sub_cancel]
        obtain ⟨hn, heq⟩ := List.getElem?_eq_some_iff.1 hn
        apply hsame
        simp only [hindex, heq]
    · rw [if_neg hknown]
      exact hlater fun hfound ↦ hknown hfound.2

/-- The ids that are listed are a run of the main chain. -/
theorem blockIdsFrom_eq (h : node.Tracks chain) (hbound : chain.length + 1 < 4294967296)
    (limit : ℕ) (n : ℕ) (hn : n ≤ chain.length) :
    blockIdsFrom node limit (n + 1) = .ok (((mainIds ctx.env chain).drop n).take limit) := by
  induction limit generalizing n with
  | zero => rfl
  | succ limit ih =>
    rw [blockIdsFrom, if_neg (Nat.succ_ne_zero n), h.headBlockNum_eq]
    rcases Nat.lt_or_eq_of_le hn with hlt | rfl
    · have hget : n < (mainIds ctx.env chain).length := by
        rwa [length_mainIds]
      have hnext : uint32 (n + 1 + 1) = n + 1 + 1 := Nat.mod_eq_of_lt (by omega)
      rw [if_pos (Nat.succ_le_of_lt hlt),
        h.getBlockIdForNum_eq (List.getElem?_eq_getElem hget), hnext,
        ih (n + 1) hlt, List.drop_eq_getElem_cons hget, List.take_succ_cons]
      rfl
    · rw [if_neg (Nat.not_succ_le_self _), List.drop_eq_nil_of_le (length_mainIds _).le]
      rfl

theorem getBlockIds_eq (h : node.Tracks chain) (hbound : chain.length + 1 < 4294967296)
    {synopsis : List BlockId} (hnum : ∀ id ∈ synopsis, 0 < id.num)
    (hmain : ∃ id ∈ synopsis, id ∈ mainIds ctx.env chain ∧ node.isKnownBlock id = true)
    (limit : ℕ) :
    ∃ id ∈ synopsis, id ∈ mainIds ctx.env chain ∧ ∃ remaining, getBlockIds node synopsis limit =
      .ok (((mainIds ctx.env chain).drop (id.num - 1)).take limit, remaining) := by
  have hreverse : ∃ id ∈ synopsis.reverse,
      id ∈ mainIds ctx.env chain ∧ node.isKnownBlock id = true := by
    simpa only [List.mem_reverse] using hmain
  obtain ⟨id, hmem, hidmain, hfound⟩ := lastKnownOf_eq h
    (fun id hid ↦ hnum id (List.mem_reverse.1 hid)) hreverse
  rw [List.mem_reverse] at hmem
  obtain ⟨n, hn⟩ := List.getElem?_of_mem hidmain
  have hlt := (List.getElem?_eq_some_iff.1 hn).1
  rw [length_mainIds] at hlt
  have hid : id.num = n + 1 := h.num_eq hn
  have hnotempty : ¬ (synopsis = [] ∨ synopsis = [BlockId.null]) := by
    rintro (rfl | rfl)
    · cases hmem
    · obtain rfl := List.mem_singleton.1 hmem
      exact absurd hid (Nat.succ_ne_zero n).symm
  have hhead : node.headBlockNum ≠ 0 := by
    rw [h.headBlockNum_eq]
    omega
  have hlist := blockIdsFrom_eq h hbound limit n hlt.le
  refine ⟨id, hmem, hidmain, ?_⟩
  rw [getBlockIds, if_neg hhead, lastKnownBlockId, if_neg hnotempty, hfound]
  change ∃ remaining, (blockIdsFrom node limit id.num >>= _) = _
  rw [hid, hlist, Nat.add_sub_cancel]
  exact ⟨_, rfl⟩

/-! ## The synopsis and the answer meet -/

section Meeting

variable {A B : Node ctx.env} {blocks : Set SignedBlock}
  {chainA chainB : List (Database × SignedBlock)}

/-- The block that a peer must have on its main chain: the last irreversible one, or block 1 of the
line while there is none. -/
def sharedBlock (node : Node ctx.env) (chain : List (Database × SignedBlock))
    (lineage : List BlockId) : Option BlockId :=
  if node.lastNonUndoableBlockNum = 0 then lineage.head?
  else (mainIds ctx.env chain)[node.lastNonUndoableBlockNum - 1]?

/-- A line follows the main chain up to the last irreversible block. -/
theorem LineTo.getElem?_eq (hline : LineTo B chainB reference lineage) (hB : B.Tracks chainB)
    (hn : n < B.lastNonUndoableBlockNum) (hlt : n < lineage.length) :
    lineage[n]? = (mainIds ctx.env chainB)[n]? := by
  cases hline with
  | head _ => rfl
  | main _ =>
    rw [List.length_take] at hlt
    exact List.getElem?_take_of_lt (by omega)
  | @fork top tip p main fork hp _ _ _ _ _ hundoable =>
    have hbelow : n < p.num := by omega
    have htake : n < ((mainIds ctx.env chainB).take p.num).length := by
      rwa [List.length_take, length_mainIds, min_eq_left (num_le_of_forkPoint hp hB)]
    rw [List.getElem?_append_left htake, List.getElem?_take_of_lt hbelow]

/-- The synopsis starts at a block of the main chain of the peer. -/
theorem start_mem (hparents : SeparatesParents ctx.env blocks) (hA : A.Tracks chainA)
    (hmadeA : MadeOf blocks chainA) (hB : B.Tracks chainB) (hmadeB : MadeOf blocks chainB)
    (hline : LineTo B chainB reference lineage) {start id : BlockId}
    (hstart : lineage[synopsisStart B lineage - 1]? = some start)
    (hid : sharedBlock B chainB lineage = some id) (hmeet : id ∈ mainIds ctx.env chainA) :
    start ∈ mainIds ctx.env chainA := by
  have hlt := (List.getElem?_eq_some_iff.1 hstart).1
  unfold sharedBlock at hid
  split at hid
  · rename_i hzero
    have hone : synopsisStart B lineage - 1 = 0 := by
      unfold synopsisStart
      omega
    rw [hone, ← List.head?_eq_getElem?, hid] at hstart
    rwa [← Option.some.inj hstart]
  · rename_i hpos
    have hbelow : synopsisStart B lineage - 1 ≤ B.lastNonUndoableBlockNum - 1 := by
      unfold synopsisStart
      omega
    obtain ⟨n, hn⟩ := List.getElem?_of_mem hmeet
    have hindex : n = B.lastNonUndoableBlockNum - 1 := by
      have hnum := hA.num_eq hn
      rw [hB.num_eq hid] at hnum
      omega
    rw [hindex] at hn
    rw [hline.getElem?_eq hB (by omega) hlt,
      (hB.headed.descends hmadeB).agree hparents (hA.headed.descends hmadeA) hid hn hbelow]
      at hstart
    exact List.mem_of_getElem? hstart

/-- A synopsis of `B` and the answer of `A` to it: the synopsis lists blocks of the line with
increasing numbers, from where it should start to the reference point; and the answer is a run of
the main chain of `A` from a block of the synopsis. -/
def Meets (A B : Node ctx.env) (chainA : List (Database × SignedBlock)) (reference : BlockId)
    (lineage : List BlockId) : Prop :=
  ∃ S : List BlockId,
    (∀ fuel, lineage.length ≤ fuel → getBlockchainSynopsis B fuel reference 0 = some (.ok S)) ∧
    S.Sublist lineage ∧ S.Pairwise (fun id id' ↦ id.num < id'.num) ∧
    S.head? = lineage[synopsisStart B lineage - 1]? ∧
    S.getLast? = some (referencedId B reference) ∧
    ∀ limit, 1 ≤ limit → ∃ id ids remaining, id ∈ S ∧ synopsisStart B lineage ≤ id.num ∧
      getBlockIds A S limit = .ok (ids, remaining) ∧ ids.head? = some id ∧
      ids <:+: mainIds ctx.env chainA

theorem synopsis_and_ids_meet (hparents : SeparatesParents ctx.env blocks)
    (hA : A.Tracks chainA) (hmadeA : MadeOf blocks chainA) (hB : B.Tracks chainB)
    (hmadeB : MadeOf blocks chainB) (hboundA : chainA.length + 1 < 4294967296)
    (hline : LineTo B chainB reference lineage) (hbound : lineage.length + 1 < 4294967296)
    (hmeet : ∃ id, sharedBlock B chainB lineage = some id ∧ id ∈ mainIds ctx.env chainA)
    (hknown : ∀ id, lineage[synopsisStart B lineage - 1]? = some id → A.isKnownBlock id = true) :
    Meets A B chainA reference lineage := by
  have hlow : 0 < synopsisStart B lineage := by
    unfold synopsisStart
    omega
  have hlength : synopsisStart B lineage ≤ lineage.length := by
    have hpos := hline.length_pos hB
    unfold synopsisStart
    omega
  obtain ⟨start, hstart⟩ := exists_getElem? hlow hlength
  obtain ⟨shared, hshared, hmem⟩ := hmeet
  have hmain := start_mem hparents hA hmadeA hB hmadeB hline hstart hshared hmem
  have hsublist := samples_sublist hlow hlength
  have hhead := head?_samples hlow hlength
  have hnumbered : ∀ id ∈ samples lineage (synopsisStart B lineage), 0 < id.num := by
    intro id hid
    obtain ⟨n, hn⟩ := List.getElem?_of_mem (hsublist.subset hid)
    rw [hline.numbered hB hn]
    exact Nat.succ_pos n
  have hpairwise := (hline.pairwise hB).sublist hsublist
  refine ⟨samples lineage (synopsisStart B lineage), fun fuel hfuel ↦ ?_, hsublist, hpairwise,
    hhead, (getLast?_samples hlow hlength).trans (hline.getLast?_eq hB), fun limit hlimit ↦ ?_⟩
  · exact getBlockchainSynopsis_eq hB hline hbound hlength hfuel
  · have hfirst := List.mem_of_mem_head? (hhead.trans hstart)
    obtain ⟨id, hid, hidmain, remaining, hids⟩ :=
      getBlockIds_eq hA hboundA hnumbered ⟨start, hfirst, hmain, hknown start hstart⟩ limit
    refine ⟨id, _, remaining, hid, ?_, hids, ?_, ?_⟩
    · have hnum : start.num = synopsisStart B lineage := by
        rw [hline.numbered hB hstart, Nat.sub_add_cancel hlow]
      obtain ⟨rest, hrest⟩ := List.head?_eq_some_iff.1 (hhead.trans hstart)
      rw [hrest] at hid hpairwise
      rw [← hnum]
      rcases List.mem_cons.1 hid with rfl | hlater
      · exact le_rfl
      · exact (List.rel_of_pairwise_cons hpairwise hlater).le
    · obtain ⟨n, hn⟩ := List.getElem?_of_mem hidmain
      rw [List.head?_take, if_neg (Nat.ne_of_gt hlimit), List.head?_drop, hA.num_eq hn,
        Nat.add_sub_cancel]
      exact hn
    · exact (List.take_prefix _ _).isInfix.trans (List.drop_suffix _ _).isInfix

end Meeting

/-! ## Two nodes on a fork -/

/-- The branches from the head and from another block make a line, if they part above the last
irreversible block. -/
theorem lineTo_of_branches {ctx : NodeContext} {node : Node ctx.env} {s₀ : Database}
    {blocks : Set SignedBlock} {main fork : List ForkItem}
    (h : Node.AtRest ctx blocks s₀ node chain) (hgenesis : initGenesis ctx.genesis = .ok s₀)
    (hparents : SeparatesParents ctx.env blocks) (hinStep : node.HeadInStep)
    (hfetch : node.forkDb.fetchBranchFrom node.headBlockId reference = .ok (main, fork))
    (hlevel : reference.num ≤ node.headBlockNum)
    (hoffmain : ∀ item ∈ fork, item.id ctx.env ∉ mainIds ctx.env chain)
    (hundoable : node.lastNonUndoableBlockNum + main.length ≤ node.headBlockNum) :
    @LineTo ctx.toContext node chain reference
      ((mainIds ctx.env chain).take (node.headBlockNum - main.length) ++
        (fork.map (ForkItem.id ctx.env)).reverse) := by
  have hheaded := h.headed hgenesis
  have hheadNum : node.headBlockId.num = node.headBlockNum :=
    hheaded.head_num.trans hheaded.number.symm
  obtain ⟨top, hhead, htop, _⟩ := hinStep
  have htopNum : top.num = node.headBlockNum :=
    (congrArg BlockId.num htop).trans hheadNum
  have hlocks := h.wired.locksStored h.linked h.released hhead
  obtain ⟨item, tip, p, hitem, htip, hmain, hfork⟩ :=
    hlocks.fetchBranchFrom (hheadNum.trans htopNum.symm).le (hlevel.trans htopNum.ge) hfetch
  have hitemNum : item.num = node.headBlockNum := (congrArg BlockId.num hitem).trans hheadNum
  have hne : chain ≠ [] := by
    rintro rfl
    exact absurd (hitemNum.trans hheaded.number) (Nat.succ_ne_zero _)
  have hitemMain : item.id ctx.env ∈ mainIds ctx.env chain := by
    rw [hitem]
    exact List.mem_of_getLast? (hheaded.getLast?_mainIds hne)
  obtain ⟨honmain, hp⟩ := hmain.main hheaded hparents h.made h.linked hitemMain
  have hpNum : node.headBlockNum - main.length = p.num := by
    have hlength := hmain.num_eq
    omega
  rw [← htip, hpNum]
  exact .fork hp hitem hmain hfork honmain hoffmain (by omega)

/-- A development network of three witnesses: all but the last three blocks are irreversible. -/
def threeWitnesses : NodeContext where
  genesis :=
    { devGenesis with
      maxWitnesses := 3
      hardforkReqWitnesses := 2
      maxVotedWitnesses := 2
      maxRunnerWitnesses := 1 }
  env := devEnv
  skip := {}
  producing := false
  leftBy := fun s _ ↦ s

/-- The same with block hashes that name the parent. -/
def linkedWitnesses : NodeContext := { Node.linkedNodes with genesis := threeWitnesses.genesis }

/-- Blocks one on another, at these times. -/
def blocksFrom (parent : BlockId) : List ℕ → List SignedBlock
  | [] => []
  | timestamp :: timestamps =>
    let b := devBlock parent timestamp []
    b :: blocksFrom (linkedWitnesses.env.blockId b) timestamps

/-- Five blocks that two nodes have in common. -/
def commonBlocks : List SignedBlock :=
  blocksFrom .null [1531512803, 1531512806, 1531512809, 1531512812, 1531512815]

def lastCommon : BlockId :=
  (commonBlocks.getLast?.map linkedWitnesses.env.blockId).getD BlockId.null

/-- The first node has two blocks more. -/
def firstCalls : List Node.Call :=
  (commonBlocks ++ blocksFrom lastCommon [1531512818, 1531512821]).map .push

/-- A fork that the second node stores. -/
def forkBlocks : List SignedBlock := blocksFrom lastCommon [1531512830, 1531512833]

/-- The second node has two others, and the fork. -/
def secondCalls : List Node.Call :=
  (commonBlocks ++ blocksFrom lastCommon [1531512824, 1531512827] ++ forkBlocks).map .push

def forkReference : BlockId :=
  (forkBlocks.getLast?.map linkedWitnesses.env.blockId).getD BlockId.null

/-- Two nodes of seven blocks, four of which are irreversible, and a synopsis up to the head of a
fork: the blocks between are halved, and the answer goes on from the last irreversible one. -/
theorem synopsis_and_ids_meet_on_fork :
    ∃ s₀, ∃ A B : Node linkedWitnesses.env, ∃ chainA chainB lineage,
      initGenesis linkedWitnesses.genesis = .ok s₀ ∧
      Node.Reaches linkedWitnesses Set.univ (Node.pushes linkedWitnesses) (Node.opened s₀) A ∧
      Node.Reaches linkedWitnesses Set.univ (Node.pushes linkedWitnesses) (Node.opened s₀) B ∧
      A.Tracks chainA ∧ B.Tracks chainB ∧ B.lastNonUndoableBlockNum = 4 ∧
      @LineTo linkedWitnesses.toContext B chainB forkReference lineage ∧
      forkReference ∉ mainIds linkedWitnesses.env chainB ∧
      (getBlockchainSynopsis B 7 forkReference 0).map
        (fun result ↦ result.toOption.map (List.map BlockId.num)) = some (some [4, 6, 7]) ∧
      @Meets linkedWitnesses.toContext A B chainA forkReference lineage := by
  have hok : okAnd (initGenesis linkedWitnesses.genesis) (fun s₀ ↦
      let A := Node.afterCalls linkedWitnesses s₀ firstCalls
      let B := Node.afterCalls linkedWitnesses s₀ secondCalls
      let idsA := (List.range 7).map fun n ↦ A.findBlockIdForNum (n + 1)
      let idsB := (List.range 7).map fun n ↦ B.findBlockIdForNum (n + 1)
      Node.allMeet linkedWitnesses (Node.pushes linkedWitnesses) (Node.opened s₀) firstCalls &&
      Node.allMeet linkedWitnesses (Node.pushes linkedWitnesses) (Node.opened s₀) secondCalls &&
      decide (A.headBlockNum = 7 ∧ B.headBlockNum = 7 ∧ B.lastNonUndoableBlockNum = 4 ∧
        B.HeadInStep ∧ forkReference.num = 7 ∧ forkReference ∉ idsB ∧
        (∃ id ∈ idsA, idsB[3]? = some id) ∧ (getBlockchainSynopsis B 7 forkReference 0).map
          (fun result ↦ result.toOption.map (List.map BlockId.num)) = some (some [4, 6, 7])) &&
      okAnd (B.forkDb.fetchBranchFrom B.headBlockId forkReference) fun branches ↦
        decide (branches.1.length = 2 ∧ branches.2.length = 2 ∧
          ∀ item ∈ branches.2, item.id linkedWitnesses.env ∉ idsB)) = true := by decide +kernel
  obtain ⟨s₀, hgenesis, hs₀⟩ := exists_of_okAnd hok
  simp only [Bool.and_eq_true, decide_eq_true_eq] at hs₀
  obtain ⟨⟨⟨hcallsA, hcallsB⟩, hheadA, hheadB, hlast, hinStep, hlevel, hoff, hshared, hsynopsis⟩,
    hbranches⟩ := hs₀
  obtain ⟨⟨main, fork⟩, hfetch, hfork⟩ := exists_of_okAnd hbranches
  obtain ⟨hmainLength, hforkLength, hoffmain⟩ := of_decide_eq_true hfork
  have hparents : SeparatesParents linkedWitnesses.env Set.univ := linkedContext_separatesParents _
  have hopens : Node.Opens linkedWitnesses s₀ (Node.opened s₀) [] := .genesis
  have hreachesA := Node.reaches_afterCalls hcallsA
  have hreachesB := Node.reaches_afterCalls hcallsB
  obtain ⟨chainA, hA, htracksA⟩ :=
    hreachesA.tracks rfl hgenesis hparents hopens (List.forall_mem_nil _)
  obtain ⟨chainB, hB, htracksB⟩ :=
    hreachesB.tracks rfl hgenesis hparents hopens (List.forall_mem_nil _)
  have hshort : ∀ {k : ℕ}, k = 7 → k ≤ 65536 := fun heq ↦ heq ▸ (by decide)
  have hidsA := Node.mainIds_eq_findBlockIdForNum htracksA.headed hA.log (hshort hheadA)
  have hidsB := Node.mainIds_eq_findBlockIdForNum htracksB.headed hB.log (hshort hheadB)
  rw [hheadA] at hidsA
  rw [hheadB] at hidsB
  rw [← hidsB] at hoff hoffmain hshared
  rw [← hidsA] at hshared
  have hline := lineTo_of_branches hB.toAtRest hgenesis hparents hinStep hfetch
    (hlevel.trans hheadB.symm).le hoffmain (by rw [hlast, hmainLength, hheadB]; decide)
  obtain ⟨shared, hmem, hshared⟩ := hshared
  have hmeet : ∀ lineage, sharedBlock (Node.afterCalls linkedWitnesses s₀ secondCalls) chainB
      lineage = some shared := by
    intro lineage
    rw [sharedBlock, hlast, if_neg (by decide)]
    exact hshared
  refine ⟨s₀, _, _, chainA, chainB, _, hgenesis, hreachesA, hreachesB, htracksA, htracksB, hlast,
    hline, hoff, hsynopsis, ?_⟩
  have hlengthA : chainA.length = 7 := htracksA.headBlockNum_eq.symm.trans hheadA
  have hlengthB : chainB.length = 7 := htracksB.headBlockNum_eq.symm.trans hheadB
  apply synopsis_and_ids_meet hparents htracksA hA.made htracksB hB.made
    (by rw [hlengthA]; decide) hline
  · rw [List.length_append, List.length_take, length_mainIds, List.length_reverse, List.length_map,
      hlengthB, hheadB, hmainLength, hforkLength]
    decide
  · exact ⟨shared, hmeet _, hmem⟩
  · intro id hid
    exact hA.isKnownBlock_main hgenesis
      (start_mem hparents htracksA hA.made htracksB hB.made hline hid (hmeet _) hmem)

/-! ## Nodes that miss each other -/

/-- Whether the answer of `A` to the synopsis of `B` starts with a block of it. -/
def answered {env : Env} (A B : Node env) (fuel : ℕ) (reference : BlockId) : Bool :=
  match getBlockchainSynopsis B fuel reference 0 with
  | some (.ok S) => match getBlockIds A S 1 with
    | .ok (ids, _) => ids.head?.any fun id ↦ decide (id ∈ S)
    | .error _ => false
  | _ => false

theorem Meets.answered {A B : Node ctx.env} (h : Meets A B chain reference lineage) :
    answered A B lineage.length reference = true := by
  obtain ⟨S, hloop, _, _, _, _, hanswer⟩ := h
  obtain ⟨id, ids, _, hid, _, hids, hhead, _⟩ := hanswer 1 le_rfl
  simp only [Plugins.answered, hloop _ le_rfl, hids, hhead, Option.any_some]
  exact decide_eq_true hid

/-- A block for every slot. -/
def everySlot : ℕ → SignedBlock
  | 0 => devBlock .null 1531512803 []
  | n + 1 => devBlock (devEnv.blockId (everySlot n)) (1531512806 + 3 * n) []

/-- A block that is not signed by its witness. -/
def unsigned (b : SignedBlock) : SignedBlock := { b with witnessSignature := 8 }

/-- The blocks that two nodes have pushed, and those up to a reference point of the second. -/
structure Encounter where
  pushed : List SignedBlock
  pushed' : List SignedBlock
  lineage : List SignedBlock

namespace Encounter

/-- The nodes differ from block 1 on, and no block is irreversible. -/
def unrelated : Encounter where
  pushed := [devBlock .null 1531512806 []]
  pushed' := [everySlot 0]
  lineage := [everySlot 0]

/-- The fork database of the first node has lost the head: a block was refused, and the head pushed
again. -/
def lost : Encounter where
  pushed := (List.range 4).map everySlot ++ [unsigned (everySlot 4), everySlot 3]
  pushed' := (List.range 7).map everySlot
  lineage := (List.range 7).map everySlot

/-- The first node has a block above its head. The switch to a longer branch was refused, and its
blocks removed; but this block builds on a sibling of theirs. -/
def orphaned : Encounter :=
  let refused := unsigned (devBlock (devEnv.blockId (everySlot 1)) 1531512812 [])
  let child := devBlock (devEnv.blockId refused) 1531512815 []
  let sibling := devBlock (devEnv.blockId refused) 1531512818 []
  let tip := devBlock (devEnv.blockId sibling) 1531512824 []
  { pushed := (List.range 4).map everySlot ++
      [refused, child, sibling, devBlock (devEnv.blockId child) 1531512821 [], tip]
    pushed' := (List.range 5).map everySlot ++ [refused, sibling, tip]
    lineage := (List.range 2).map everySlot ++ [refused, sibling, tip] }

section

variable (s₀ : Database) (e : Encounter)

def first : Node devEnv := (Node.opened s₀).pushBlocks threeWitnesses e.pushed

def second : Node devEnv := (Node.opened s₀).pushBlocks threeWitnesses e.pushed'

def ids : List BlockId := e.lineage.map devEnv.blockId

def referencePoint : BlockId := e.ids.getLast?.getD BlockId.null

/-- The last irreversible block of the second node is on the main chain of the first, and yet they
do not meet. -/
structure Missed : Prop where
  shared : (e.first s₀).findBlockIdForNum (e.second s₀).lastNonUndoableBlockNum =
    (e.second s₀).findBlockIdForNum (e.second s₀).lastNonUndoableBlockNum
  missed : ∀ chain,
    ¬ @Meets threeWitnesses.toContext (e.first s₀) (e.second s₀) chain e.referencePoint e.ids

def isMissed : Bool :=
  decide ((e.first s₀).findBlockIdForNum (e.second s₀).lastNonUndoableBlockNum =
      (e.second s₀).findBlockIdForNum (e.second s₀).lastNonUndoableBlockNum) &&
    !answered (e.first s₀) (e.second s₀) e.ids.length e.referencePoint

variable {s₀ e}

theorem Missed.of_eq (h : e.isMissed s₀ = true) : e.Missed s₀ := by
  rw [isMissed, Bool.and_eq_true, decide_eq_true_iff, Bool.not_eq_true'] at h
  refine ⟨h.1, fun chain hmeets ↦ ?_⟩
  have hanswered : answered (e.first s₀) (e.second s₀) e.ids.length e.referencePoint = true :=
    hmeets.answered
  rw [hanswered] at h
  cases h.2

end

end Encounter

theorem nodes_miss_each_other :
    ∃ s₀, initGenesis threeWitnesses.genesis = .ok s₀ ∧
      ∀ e ∈ [Encounter.unrelated, Encounter.lost, Encounter.orphaned], e.Missed s₀ := by
  have hok : okAnd (initGenesis threeWitnesses.genesis) (fun s₀ ↦
      [Encounter.unrelated, Encounter.lost, Encounter.orphaned].all (Encounter.isMissed s₀)) =
        true := by decide +kernel
  obtain ⟨s₀, hgenesis, hmissed⟩ := exists_of_okAnd hok
  refine ⟨s₀, hgenesis, fun e he ↦ ?_⟩
  exact Encounter.Missed.of_eq (List.all_eq_true.1 hmissed e he)

end SophiaTX.Plugins
