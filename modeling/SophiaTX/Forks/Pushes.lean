import SophiaTX.Chain.Heights
import SophiaTX.Forks.Node

/-!
# What pushing a block does to a node

The steps of a push one by one: what they leave of the state, the sessions, the fork database and
the block log, whether they return or throw.
-/

namespace SophiaTX.Chain

open SophiaTX.Protocol SophiaTX.Lib

namespace Node

variable {env : Env} {ctx : NodeContext} {node node' : Node env} {b : SignedBlock}
  {result : Exec Unit}

/-! ## Stages -/

/-- Stages change the state only. -/
theorem runStages_eq {stages : List Stage} (h : runStages ctx stages node = (node', result)) :
    ∃ s, node' = { node with state := s } ∧
      Chain.runStages ctx.toContext stages node.state = result.map fun _ ↦ s := by
  induction stages generalizing node with
  | nil =>
    obtain ⟨rfl, rfl⟩ := Prod.mk.inj h
    exact ⟨node.state, rfl, rfl⟩
  | cons stage stages ih =>
    rw [runStages] at h
    cases hstage : stage.run ctx.toContext node.state with
    | error e =>
      rw [hstage] at h
      obtain ⟨rfl, rfl⟩ := Prod.mk.inj h
      refine ⟨_, rfl, ?_⟩
      rw [Chain.runStages, List.foldlM_cons, hstage]
      rfl
    | ok s =>
      rw [hstage] at h
      obtain ⟨s', rfl, hrest⟩ := ih h
      refine ⟨s', rfl, ?_⟩
      rw [Chain.runStages, List.foldlM_cons, hstage, ok_bind]
      exact hrest

/-! ## The commit -/

/-- Blocks that the fork database has on its main branch after block `logHeadNum`, each at its
position in the log. -/
def OnMainBranch (node : Node env) (logHeadNum : ℕ) (blocks : List SignedBlock) : Prop :=
  ∀ n b, blocks[n]? = some b → node.blockLog.length + n = b.blockNum - 1 ∧
    ∃ item, node.forkDb.fetchBlockOnMainBranchByNumber (logHeadNum + n + 1) = some item ∧
      item.data = b

/-- What the loop leaves: it has appended some of the blocks, or all of them if it returns. -/
structure Appends (node node' : Node env) (logHeadNum count : ℕ) (result : Exec Unit)
    (appended : List SignedBlock) : Prop where
  left : node' = { node with blockLog := node.blockLog ++ appended }
  some : appended.length ≤ count
  all : result = .ok () → appended.length = count
  onMainBranch : node.OnMainBranch logHeadNum appended

theorem Appends.nothing {logHeadNum count : ℕ} (h : result = .ok () → count = 0) :
    Appends node node logHeadNum count result [] where
  left := by rw [List.append_nil]
  some := Nat.zero_le _
  all := fun hok ↦ (h hok).symm
  onMainBranch := fun _ _ hb ↦ by cases hb

theorem Appends.cons {logHeadNum count : ℕ} {item : ForkItem} {appended : List SignedBlock}
    (hfetch : node.forkDb.fetchBlockOnMainBranchByNumber (logHeadNum + 1) = Option.some item)
    (hlength : node.blockLog.length = item.data.blockNum - 1)
    (h : Appends { node with blockLog := node.blockLog ++ [item.data] } node' (logHeadNum + 1)
      count result appended) :
    Appends node node' logHeadNum (count + 1) result (item.data :: appended) where
  left := by
    rw [h.left, List.append_assoc]
    rfl
  some := Nat.succ_le_succ h.some
  all := fun hok ↦ by rw [List.length_cons, h.all hok]
  onMainBranch := by
    intro n b hb
    cases n with
    | zero =>
      obtain rfl := Option.some.inj hb
      exact ⟨hlength, item, hfetch, rfl⟩
    | succ n =>
      obtain ⟨hposition, found, hfound, hdata⟩ := h.onMainBranch n b hb
      rw [List.length_append, List.length_singleton] at hposition
      refine ⟨by omega, found, ?_, hdata⟩
      rw [← hfound]
      congr 1
      omega

theorem appendBlocks_eq {logHeadNum count : ℕ}
    (h : node.appendBlocks logHeadNum count = (node', result)) :
    ∃ appended, Appends node node' logHeadNum count result appended := by
  induction count generalizing node logHeadNum with
  | zero =>
    obtain ⟨rfl, rfl⟩ := Prod.mk.inj h
    exact ⟨[], .nothing fun _ ↦ rfl⟩
  | succ count ih =>
    rw [appendBlocks] at h
    cases hfetch : node.forkDb.fetchBlockOnMainBranchByNumber (logHeadNum + 1) with
    | none =>
      simp only [hfetch] at h
      obtain ⟨rfl, rfl⟩ := Prod.mk.inj h
      exact ⟨[], .nothing fun hok ↦ by cases hok⟩
    | some item =>
      cases happend : appendToLog node.blockLog item.data with
      | error e =>
        simp only [hfetch, happend] at h
        obtain ⟨rfl, rfl⟩ := Prod.mk.inj h
        exact ⟨[], .nothing fun hok ↦ by cases hok⟩
      | ok blockLog =>
        simp only [hfetch, happend] at h
        simp only [appendToLog, bind_eq_ok, fcAssert_eq_ok, pure_eq_ok] at happend
        obtain ⟨_, hlength, rfl⟩ := happend
        obtain ⟨appended, happends⟩ := ih h
        exact ⟨item.data :: appended, happends.cons hfetch hlength⟩

/-- What committing a state leaves in the block log and the fork database. -/
structure CommitsStores (node node' : Node env) (s : Database) (result : Exec Unit) : Prop where
  blockLog : ∃ appended, node'.blockLog = node.blockLog ++ appended ∧
    appended.length ≤ s.dgp.lastIrreversibleBlockNum - node.logHeadNum ∧
    (result = .ok () → appended.length = s.dgp.lastIrreversibleBlockNum - node.logHeadNum) ∧
    node.OnMainBranch node.logHeadNum appended
  kept : result ≠ .ok () → node'.forkDb = node.forkDb
  window : result = .ok () → node'.forkDb =
    node.forkDb.setMaxSize (s.dgp.headBlockNumber - s.dgp.lastIrreversibleBlockNum + 1)

/-- What committing a state, reached by applying a block, leaves beside that state. -/
structure Commits (node node' : Node env) (s : Database) (result : Exec Unit) : Prop
    extends CommitsStores node node' s result where
  sessions : node'.sessions = node.sessions.take (node.revision - s.dgp.lastIrreversibleBlockNum)
  revision : node'.revision = node.revision

theorem commitIrreversible_eq (h : node.commitIrreversible = (node', result)) :
    Commits node node' node.state result ∧ node'.state = node.state := by
  rw [commitIrreversible] at h
  cases happend : (node.commit node.lastNonUndoableBlockNum).appendBlocks node.logHeadNum
    (node.lastNonUndoableBlockNum - node.logHeadNum) with
  | mk left appending =>
    obtain ⟨appended, happends⟩ := appendBlocks_eq happend
    obtain rfl := happends.left
    rw [happend] at h
    cases appending with
    | error e =>
      obtain ⟨rfl, rfl⟩ := Prod.mk.inj h
      exact ⟨⟨⟨⟨appended, rfl, happends.some, happends.all, happends.onMainBranch⟩, fun _ ↦ rfl,
        fun hok ↦ by cases hok⟩, rfl, rfl⟩, rfl⟩
    | ok _ =>
      obtain ⟨rfl, rfl⟩ := Prod.mk.inj h
      exact ⟨⟨⟨⟨appended, rfl, happends.some, happends.all, happends.onMainBranch⟩,
        fun hne ↦ absurd rfl hne, fun _ ↦ rfl⟩, rfl, rfl⟩, rfl⟩

/-! ## Applying a block -/

/-- Either a block throws before it is committed, and only the state is left changed; or it is
committed, and then it is applied if it does not throw. -/
theorem applyBlock_eq (h : node.applyBlock ctx b = (node', result)) :
    (∃ s e, result = .error e ∧ node' = { node with state := s }) ∨
      ∃ s committed, Chain.runStages ctx.toContext (SignedBlock.stagesBeforeCommit b) node.state =
          .ok s ∧ Commits node node' s committed ∧
        (result = .ok () → committed = .ok () ∧
          Chain.applyBlock ctx.toContext node.state b = .ok node'.state) := by
  rw [applyBlock] at h
  cases hbefore : runStages ctx (SignedBlock.stagesBeforeCommit b) node with
  | mk before beforeResult =>
    obtain ⟨s, rfl, hs⟩ := runStages_eq hbefore
    rw [hbefore] at h
    cases beforeResult with
    | error e =>
      obtain ⟨rfl, rfl⟩ := Prod.mk.inj h
      exact .inl ⟨s, e, rfl, rfl⟩
    | ok _ =>
      right
      cases hcommit : ({ node with state := s } : Node env).commitIrreversible with
      | mk committed commitResult =>
        obtain ⟨hcommits, hstate⟩ := commitIrreversible_eq hcommit
        refine ⟨s, commitResult, hs, ?_⟩
        dsimp only at h
        rw [hcommit] at h
        cases commitResult with
        | error e =>
          obtain ⟨rfl, rfl⟩ := Prod.mk.inj h
          exact ⟨⟨⟨hcommits.blockLog, hcommits.kept, hcommits.window⟩, hcommits.sessions,
            hcommits.revision⟩,
            fun hok ↦ by cases hok⟩
        | ok _ =>
          cases hafter : runStages ctx (SignedBlock.stagesAfterCommit b) committed with
          | mk after afterResult =>
            obtain ⟨s', rfl, hs'⟩ := runStages_eq hafter
            dsimp only at h
            rw [hafter] at h
            cases afterResult with
            | error e =>
              obtain ⟨rfl, rfl⟩ := Prod.mk.inj h
              exact ⟨⟨⟨hcommits.blockLog, hcommits.kept, hcommits.window⟩, hcommits.sessions,
                hcommits.revision⟩,
                fun hok ↦ by cases hok⟩
            | ok _ =>
              obtain ⟨rfl, rfl⟩ := Prod.mk.inj h
              refine ⟨⟨⟨hcommits.blockLog, hcommits.kept, hcommits.window⟩, hcommits.sessions,
                hcommits.revision⟩,
                fun hok ↦ ⟨rfl, ?_⟩⟩
              rw [hstate] at hs'
              have hrun : Chain.runStages ctx.toContext (SignedBlock.stages b) node.state =
                  .ok s' := by
                rw [SignedBlock.stages, runStages_append, hs]
                exact hs'
              simp only [Chain.applyBlock, bind_eq_ok, pure_eq_ok]
              exact ⟨s', hrun, (), hok, rfl⟩

/-- A block that is applied has its session on top of the others, as far as they are kept. -/
theorem applyInSession_ok (h : node.applyInSession ctx b = (node', .ok ())) :
    ∃ s, Chain.runStages ctx.toContext (SignedBlock.stagesBeforeCommit b) node.state = .ok s ∧
      Chain.applyBlock ctx.toContext node.state b = .ok node'.state ∧
      Commits node.startUndoSession node' s (.ok ()) := by
  rw [applyInSession] at h
  cases happly : node.startUndoSession.applyBlock ctx b with
  | mk left result =>
    rw [happly] at h
    cases result with
    | error e => cases h
    | ok _ =>
      obtain ⟨rfl, _⟩ := Prod.mk.inj h
      rcases applyBlock_eq happly with ⟨_, _, herror, _⟩ | ⟨s, committed, hs, hcommits, happlied⟩
      · cases herror
      · obtain ⟨rfl, hstate⟩ := happlied rfl
        exact ⟨s, hs, hstate, hcommits⟩

/-! ## Blocks that do not throw -/

theorem runStages_ok {stages : List Stage} {s : Database}
    (h : Chain.runStages ctx.toContext stages node.state = .ok s) :
    runStages ctx stages node = ({ node with state := s }, .ok ()) := by
  cases hrun : runStages ctx stages node with
  | mk left result =>
    obtain ⟨t, rfl, hresult⟩ := runStages_eq hrun
    rw [h] at hresult
    cases result with
    | error e => cases hresult
    | ok _ =>
      obtain rfl : s = t := Except.ok.inj hresult
      rfl

/-- The log takes blocks as long as the fork database finds one of each number. -/
theorem appendBlocks_total {logHeadNum count : ℕ} (hlog : node.blockLog.length = logHeadNum)
    (hfound : ∀ m, logHeadNum < m → m ≤ logHeadNum + count → ∃ item,
      node.forkDb.fetchBlockOnMainBranchByNumber m = some item ∧ item.num = m) :
    (node.appendBlocks logHeadNum count).2 = .ok () := by
  induction count generalizing node logHeadNum with
  | zero => rfl
  | succ count ih =>
    obtain ⟨item, hfetch, hnum⟩ := hfound (logHeadNum + 1) (Nat.lt_succ_self _)
      (Nat.add_le_add_left (Nat.succ_pos count) _)
    have hposition : node.blockLog.length = item.data.blockNum - 1 :=
      hlog.trans (congrArg Nat.pred hnum).symm
    have happend : appendToLog node.blockLog item.data = .ok (node.blockLog ++ [item.data]) := by
      rw [appendToLog, fcAssert, if_pos hposition]
      rfl
    simp only [appendBlocks, hfetch, happend]
    apply ih
    · rw [List.length_append, List.length_singleton, hlog]
    · intro m hlow hhigh
      exact hfound m (by omega) (by omega)

theorem commitIrreversible_total (hlog : node.logHeadNum = node.blockLog.length)
    (hfound : ∀ m, node.blockLog.length < m → m ≤ node.lastNonUndoableBlockNum → ∃ item,
      node.forkDb.fetchBlockOnMainBranchByNumber m = some item ∧ item.num = m) :
    node.commitIrreversible.2 = .ok () := by
  have happends : ((node.commit node.lastNonUndoableBlockNum).appendBlocks node.logHeadNum
      (node.lastNonUndoableBlockNum - node.logHeadNum)).2 = .ok () := by
    apply appendBlocks_total
    · exact hlog.symm
    · intro m hlow hhigh
      rw [hlog] at hlow hhigh
      exact hfound m hlow (by omega)
  rw [commitIrreversible]
  generalize (node.commit node.lastNonUndoableBlockNum).appendBlocks node.logHeadNum
    (node.lastNonUndoableBlockNum - node.logHeadNum) = appended at happends
  obtain ⟨left, result⟩ := appended
  obtain rfl : result = .ok () := happends
  rfl

/-- A valid block is applied when the fork database finds what it makes irreversible. -/
theorem exists_applyInSession {t : Database}
    (hstate : Chain.applyBlock ctx.toContext node.state b = .ok t)
    (hlog : node.logHeadNum = node.blockLog.length)
    (hfound : ∀ m, node.blockLog.length < m → m ≤ t.dgp.lastIrreversibleBlockNum → ∃ item,
      node.forkDb.fetchBlockOnMainBranchByNumber m = some item ∧ item.num = m) :
    ∃ node', node.applyInSession ctx b = (node', .ok ()) := by
  have hblock := hstate
  simp only [Chain.applyBlock, bind_eq_ok, pure_eq_ok, SignedBlock.stages,
    runStages_append] at hblock
  obtain ⟨t', ⟨s, hs, hafter⟩, _, hinvariants, rfl⟩ := hblock
  have hbefore : runStages ctx (SignedBlock.stagesBeforeCommit b) node.startUndoSession =
      ({ node.startUndoSession with state := s }, .ok ()) := runStages_ok hs
  have hirreversible := irreversible_of_beforeCommit hs hstate
  have hcommit : ({ node.startUndoSession with state := s } : Node env).commitIrreversible.2 =
      .ok () := by
    apply commitIrreversible_total
    · exact hlog
    · intro m hlow hhigh
      exact hfound m hlow (hhigh.trans hirreversible.ge)
  rw [applyInSession, applyBlock, hbefore]
  cases hcommitted : ({ node.startUndoSession with state := s } : Node env).commitIrreversible with
  | mk committed result =>
    obtain rfl : result = .ok () := (congrArg Prod.snd hcommitted).symm.trans hcommit
    have hsame : committed.state = s := (commitIrreversible_eq hcommitted).2
    rw [← hsame] at hafter
    dsimp only
    rw [hcommitted]
    dsimp only
    rw [runStages_ok hafter]
    dsimp only
    rw [hinvariants]
    exact ⟨_, rfl⟩

/-- A block that throws leaves the node as it was, or it has been committed before. Its session is
undone if the commit has not dropped it. -/
theorem applyInSession_error {e : ChainError}
    (h : node.applyInSession ctx b = (node', .error e)) :
    node' = node ∨ ∃ s committed,
      Chain.runStages ctx.toContext (SignedBlock.stagesBeforeCommit b) node.state = .ok s ∧
      CommitsStores node node' s committed ∧
      (s.dgp.lastIrreversibleBlockNum ≤ node.revision → node'.state = node.state ∧
        node'.sessions = node.sessions.take (node.revision - s.dgp.lastIrreversibleBlockNum) ∧
        node'.revision = node.revision) := by
  rw [applyInSession] at h
  cases happly : node.startUndoSession.applyBlock ctx b with
  | mk left result =>
    rw [happly] at h
    cases result with
    | ok _ => cases h
    | error e =>
      obtain ⟨rfl, _⟩ := Prod.mk.inj h
      rcases applyBlock_eq happly with ⟨_, _, _, rfl⟩ | ⟨s, committed, hs, hcommits, _⟩
      · exact .inl rfl
      · right
        have hstores : left.undo.blockLog = left.blockLog ∧ left.undo.forkDb = left.forkDb := by
          unfold undo
          split <;> exact ⟨rfl, rfl⟩
        refine ⟨s, committed, hs, ⟨hstores.1 ▸ hcommits.blockLog, hstores.2 ▸ hcommits.kept,
          hstores.2 ▸ hcommits.window⟩, fun hkept ↦ ?_⟩
        have hsessions : left.sessions = node.state ::
            node.sessions.take (node.revision - s.dgp.lastIrreversibleBlockNum) := by
          have hcount : node.startUndoSession.revision - s.dgp.lastIrreversibleBlockNum =
              node.revision - s.dgp.lastIrreversibleBlockNum + 1 := Nat.succ_sub hkept
          rw [hcommits.sessions, hcount]
          rfl
        have hrevision : left.revision = node.revision + 1 := hcommits.revision
        unfold undo
        rw [hsessions]
        exact ⟨rfl, rfl, by rw [hrevision]; rfl⟩

end Node

end SophiaTX.Chain
