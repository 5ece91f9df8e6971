import SophiaTX.Lib.Numbering
import SophiaTX.Chain.Chronicle
import SophiaTX.Chain.Tallies

/-!
# Message sequences

The contents of messages are numbered three times: for their recipient, for their sender and for
their application. Every number is read back from the largest one in the table, and a message to
several recipients adds several rows. Whatever is sent, the numbers of a recipient count the rows,
those of a sender and of an application the messages that have a recipient.
-/

namespace SophiaTX.Chain

open SophiaTX.Protocol SophiaTX.Lib

/-! ## What is sent -/

/-- The message of a stage, if it is an operation with one. -/
def Stage.message : Stage → Option Message
  | .operation _ op => Message.ofOperation op.op
  | _ => none

/-- The rows a stage adds to the contents of messages. -/
def Moment.added (ctx : Context) (moment : Moment) : List CustomContent :=
  match moment.2.run ctx moment.1 with
  | .ok s' => s'.customContents.drop moment.1.customContents.length
  | .error _ => []

/-- The messages of a past, the oldest first, each with the rows it added. -/
def sent (ctx : Context) (past : List Moment) : List (Message × List CustomContent) :=
  past.reverse.filterMap fun moment ↦ moment.2.message.map fun m ↦ (m, Moment.added ctx moment)

/-- A row for every recipient, with what the message carries. -/
structure Delivered (m : Message) (rows : List CustomContent) : Prop where
  recipients : rows.map CustomContent.recipient = m.recipients
  carries : ∀ c ∈ rows, c.binary = m.binary ∧ c.payload = m.payload ∧ c.sender = m.sender ∧
    c.appId = m.appId ∧ c.allRecipients = m.recipients

/-! ## The numbers in use -/

def recipientSequences (contents : List CustomContent) (recipient : AccountName) (appId : ℕ) :
    List ℕ :=
  (contents.filter fun c ↦ decide (c.recipient = recipient ∧ c.appId = appId)).map
    CustomContent.recipientSequence

/-- Messages with a recipient that are selected, with the rows of each. -/
def selected (select : Message → Bool) (log : List (Message × List CustomContent)) :
    List (Message × List CustomContent) :=
  log.filter fun entry ↦ select entry.1 && !entry.1.recipients.isEmpty

def fromSender (sender : AccountName) (appId : ℕ) (m : Message) : Bool :=
  decide (m.sender = sender ∧ m.appId = appId)

def toApplication (appId : ℕ) (m : Message) : Bool := decide (m.appId = appId)

/-- The numbers of the selected messages, a batch for each of them. -/
def batches (select : Message → Bool) (sequence : CustomContent → ℕ)
    (log : List (Message × List CustomContent)) : List (List ℕ) :=
  (selected select log).map fun entry ↦ entry.2.map sequence

variable {ctx : Context} {C : Database → Stage → Prop} {s₀ s s' : Database}
  {pending : Option (List Stage)} {past : List Moment} {contents : List CustomContent}
  {log : List (Message × List CustomContent)} {m : Message} {rows : List CustomContent}

theorem Delivered.eq_nil_iff (h : Delivered m rows) : rows = [] ↔ m.recipients = [] := by
  rw [← h.recipients, List.map_eq_nil_iff]

/-- All numbers in use, where rows are selected as their messages are. -/
theorem flatten_batches {select : Message → Bool} {selectRow : CustomContent → Bool}
    {sequence : CustomContent → ℕ} (hlog : ∀ entry ∈ log, Delivered entry.1 entry.2)
    (hselect : ∀ m rows, Delivered m rows → ∀ c ∈ rows, selectRow c = select m) :
    (batches select sequence log).flatten =
      ((log.flatMap Prod.snd).filter selectRow).map sequence := by
  induction log with
  | nil => rfl
  | cons entry log ih =>
    have hentry := hlog entry List.mem_cons_self
    have hrest := ih fun other hother ↦ hlog other (List.mem_cons_of_mem _ hother)
    have hrow := hselect entry.1 entry.2 hentry
    have hfirst : entry.2.filter selectRow =
        if select entry.1 && !entry.1.recipients.isEmpty then entry.2 else [] := by
      cases hselected : select entry.1 with
      | false =>
        rw [Bool.false_and, if_neg Bool.false_ne_true, List.filter_eq_nil_iff]
        intro c hc
        rw [hrow c hc, hselected]
        exact Bool.false_ne_true
      | true =>
        rw [Bool.true_and, List.filter_eq_self.2 fun c hc ↦ (hrow c hc).trans hselected]
        split
        · rfl
        · rename_i hempty
          exact hentry.eq_nil_iff.2 (by simpa using hempty)
    rw [List.flatMap_cons, List.filter_append, List.map_append, ← hrest, hfirst, batches, batches,
      selected, selected, List.filter_cons]
    split <;> simp

/-! ## One message -/

/-- The row for one recipient. -/
def Message.row (s : Database) (m : Message) (contents : List CustomContent)
    (recipient : AccountName) : CustomContent where
  binary := m.binary
  payload := m.payload
  appId := m.appId
  sender := m.sender
  recipient := recipient
  allRecipients := m.recipients
  senderSequence := nextNumber ((s.customContents.filter fun c ↦
    decide (c.sender = m.sender ∧ c.appId = m.appId)).map CustomContent.senderSequence)
  recipientSequence := nextNumber (recipientSequences contents recipient m.appId)
  appMessageSequence := nextNumber ((s.customContents.filter fun c ↦
    decide (c.appId = m.appId)).map CustomContent.appMessageSequence)
  received := s.dgp.time

/-- Rows are added one after another, each numbered after the ones before. -/
def Message.deliver (s : Database) (m : Message) (recipients : List AccountName)
    (contents : List CustomContent) : List CustomContent :=
  recipients.foldl (fun contents recipient ↦ contents ++ [m.row s contents recipient]) contents

theorem contentsAfter_eq {op : Operation} (h : Message.ofOperation op = some m) :
    s.contentsAfter op = m.deliver s m.recipients s.customContents := by
  rw [Database.contentsAfter, h]
  rfl

theorem recipientSequences_concat (m : Message) (recipient name : AccountName) (appId : ℕ)
    (h : CountsUp (recipientSequences contents name appId)) :
    CountsUp (recipientSequences (contents ++ [m.row s contents recipient]) name appId) := by
  rw [recipientSequences, List.filter_append, List.map_append]
  by_cases hrow : recipient = name ∧ m.appId = appId
  · have hfilter : [m.row s contents recipient].filter
        (fun c ↦ decide (c.recipient = name ∧ c.appId = appId)) =
          [m.row s contents recipient] := by
      simpa [List.filter_cons, Message.row] using hrow
    have hnumber : (m.row s contents recipient).recipientSequence =
        nextNumber (recipientSequences contents name appId) := by
      rw [← hrow.1, ← hrow.2]
      rfl
    rw [hfilter, List.map_singleton, hnumber]
    exact h.concat
  · have hfilter : [m.row s contents recipient].filter
        (fun c ↦ decide (c.recipient = name ∧ c.appId = appId)) = [] := by
      simpa [List.filter_cons, Message.row] using hrow
    rw [hfilter, List.map_nil, List.append_nil]
    exact h

/-- What a message adds. -/
theorem Message.deliver_eq (m : Message) (recipients : List AccountName)
    (contents : List CustomContent) : ∃ rows, m.deliver s recipients contents = contents ++ rows ∧
      rows.map CustomContent.recipient = recipients ∧
      (∀ c ∈ rows, ∃ before recipient, c = m.row s before recipient) ∧
      ((∀ name appId, CountsUp (recipientSequences contents name appId)) →
        ∀ name appId, CountsUp (recipientSequences (contents ++ rows) name appId)) := by
  induction recipients generalizing contents with
  | nil =>
    refine ⟨[], (List.append_nil contents).symm, rfl, fun c hc ↦ absurd hc List.not_mem_nil, ?_⟩
    rw [List.append_nil]
    exact id
  | cons recipient recipients ih =>
    obtain ⟨rows, hrows, hrecipients, hmem, hcounts⟩ :=
      ih (contents ++ [m.row s contents recipient])
    have happend : contents ++ m.row s contents recipient :: rows =
        (contents ++ [m.row s contents recipient]) ++ rows := by simp
    refine ⟨m.row s contents recipient :: rows, ?_, ?_, ?_, ?_⟩
    · rw [happend, ← hrows]
      rfl
    · rw [List.map_cons, hrecipients]
      rfl
    · intro c hc
      rcases List.mem_cons.1 hc with rfl | hc
      · exact ⟨contents, recipient, rfl⟩
      · exact hmem c hc
    · intro h
      rw [happend]
      apply hcounts
      intro name appId
      exact recipientSequences_concat m recipient name appId (h name appId)

/-! ## Runs -/

/-- The contents of messages are the rows of what was sent, and numbered by it. -/
structure Sequenced (contents : List CustomContent) (log : List (Message × List CustomContent)) :
    Prop where
  rows : contents = log.flatMap Prod.snd
  delivered : ∀ entry ∈ log, Delivered entry.1 entry.2
  recipients : ∀ recipient appId, CountsUp (recipientSequences contents recipient appId)
  senders : ∀ sender appId,
    Consecutive (batches (fromSender sender appId) CustomContent.senderSequence log)
  applications : ∀ appId,
    Consecutive (batches (toApplication appId) CustomContent.appMessageSequence log)

theorem Sequenced.nil : Sequenced [] [] :=
  ⟨rfl, fun _ hentry ↦ absurd hentry List.not_mem_nil, fun _ _ ↦ rfl, fun _ _ ↦ .nil,
    fun _ ↦ .nil⟩

/-- A further message with rows of the next number, where rows are selected as messages are. -/
theorem consecutive_concat {select : Message → Bool} (selectRow : CustomContent → Bool)
    {sequence : CustomContent → ℕ} (hlog : ∀ entry ∈ log, Delivered entry.1 entry.2)
    (hselect : ∀ m rows, Delivered m rows → ∀ c ∈ rows, selectRow c = select m)
    (hdelivered : Delivered m rows)
    (hnext : select m = true → ∀ c ∈ rows, sequence c =
      nextNumber (((log.flatMap Prod.snd).filter selectRow).map sequence))
    (h : Consecutive (batches select sequence log)) :
    Consecutive (batches select sequence (log ++ [(m, rows)])) := by
  rw [batches, selected, List.filter_append, List.map_append, List.filter_singleton]
  cases hm : select m && !m.recipients.isEmpty with
  | false => simpa [batches, selected, hm] using h
  | true =>
    obtain ⟨hselected, hrecipients⟩ := Bool.and_eq_true_iff.1 hm
    have hrows : rows ≠ [] := by
      intro hrows
      rw [hdelivered.eq_nil_iff.1 hrows] at hrecipients
      cases hrecipients
    have hnumbers : ∀ number ∈ rows.map sequence,
        number = nextNumber (batches select sequence log).flatten := by
      intro number hnumber
      obtain ⟨c, hc, rfl⟩ := List.mem_map.1 hnumber
      rw [flatten_batches hlog hselect]
      exact hnext hselected c hc
    simpa [batches, selected, hm] using h.concat (by simpa using hrows) hnumbers

theorem Sequenced.deliver (h : Sequenced s.customContents log) (m : Message) :
    ∃ rows, m.deliver s m.recipients s.customContents = s.customContents ++ rows ∧
      Sequenced (s.customContents ++ rows) (log ++ [(m, rows)]) := by
  obtain ⟨rows, hrows, hrecipients, hmem, hcounts⟩ :=
    m.deliver_eq (s := s) m.recipients s.customContents
  have hdelivered : Delivered m rows := by
    refine ⟨hrecipients, fun c hc ↦ ?_⟩
    obtain ⟨before, recipient, rfl⟩ := hmem c hc
    exact ⟨rfl, rfl, rfl, rfl, rfl⟩
  refine ⟨rows, hrows, ?_, ?_, hcounts h.recipients, fun sender appId ↦ ?_, fun appId ↦ ?_⟩
  · rw [List.flatMap_append, ← h.rows, List.flatMap_singleton]
  · intro entry hentry
    rcases List.mem_append.1 hentry with hentry | hentry
    · exact h.delivered entry hentry
    · rw [List.mem_singleton.1 hentry]
      exact hdelivered
  · apply consecutive_concat (fun c ↦ decide (c.sender = sender ∧ c.appId = appId))
      h.delivered _ hdelivered _ (h.senders sender appId)
    · intro m rows hdelivered c hc
      obtain ⟨_, _, hsender, happ, _⟩ := hdelivered.carries c hc
      rw [fromSender, hsender, happ]
    · intro hm c hc
      obtain ⟨before, recipient, rfl⟩ := hmem c hc
      obtain ⟨rfl, rfl⟩ := of_decide_eq_true hm
      rw [← h.rows]
      rfl
  · apply consecutive_concat (fun c ↦ decide (c.appId = appId)) h.delivered _ hdelivered _
      (h.applications appId)
    · intro m rows hdelivered c hc
      rw [toApplication, (hdelivered.carries c hc).2.2.2.1]
    · intro hm c hc
      obtain ⟨before, recipient, rfl⟩ := hmem c hc
      obtain rfl := of_decide_eq_true hm
      rw [← h.rows]
      rfl

/-- A stage sends its message, if it has one, and leaves what has been sent before. -/
theorem Sequenced.stage {stage : Stage} (h : Sequenced s.customContents (sent ctx past))
    (hrun : stage.run ctx s = .ok s') :
    Sequenced s'.customContents (sent ctx ((s, stage) :: past)) := by
  have hstep := Stage.talliesStep hrun
  have hsent : sent ctx ((s, stage) :: past) =
      sent ctx past ++ (stage.message.map fun m ↦ (m, Moment.added ctx (s, stage))).toList := by
    simp [sent, List.filterMap_append, List.filterMap_cons]
    cases stage.message <;> simp
  cases hmessage : stage.message with
  | none =>
    have hsame : s'.customContents = s.customContents := by
      cases stage with
      | operation trx op =>
        have hcontents : s'.customContents = s.contentsAfter op.op :=
          congrArg Tallies.customContents hstep
        rw [hcontents, Database.contentsAfter, show Message.ofOperation op.op = none from hmessage]
      | openBlock _ => exact congrArg Tallies.customContents hstep.2
      | _ => exact congrArg Tallies.customContents hstep
    rw [hsent, hmessage, hsame]
    simpa using h
  | some m =>
    obtain ⟨rows, hrows, hsequenced⟩ := h.deliver m
    have hcontents : s'.customContents = s.customContents ++ rows := by
      cases stage with
      | operation trx op =>
        rw [← hrows, ← contentsAfter_eq hmessage]
        exact congrArg Tallies.customContents hstep
      | _ => cases hmessage
    have hadded : Moment.added ctx (s, stage) = rows := by
      simp [Moment.added, hrun, hcontents]
    rw [hsent, hmessage, hcontents, hadded]
    exact hsequenced

theorem Chronicle.sequenced (hs₀ : s₀.customContents = []) (h : Chronicle ctx C s₀ past pending s) :
    Sequenced s.customContents (sent ctx past) := by
  induction h with
  | refl =>
    rw [hs₀]
    exact .nil
  | start _ _ ih => exact ih
  | stage _ _ hrun ih => exact ih.stage hrun
  | finish _ _ ih => exact ih

theorem initGenesis_customContents {g : GenesisState} (h : initGenesis g = .ok s) :
    s.customContents = [] := by
  simp only [initGenesis, bind_eq_ok, pure_eq_ok] at h
  obtain ⟨_, _, _, _, _, _, rfl⟩ := h
  rfl

/-- The numbers of the messages that are selected are their positions among these. -/
theorem sequence_eq_of_consecutive {select : Message → Bool} {sequence : CustomContent → ℕ} {k : ℕ}
    {entry : Message × List CustomContent} (h : Consecutive (batches select sequence log))
    (hentry : (selected select log)[k]? = some entry) : ∀ c ∈ entry.2, sequence c = k + 1 := by
  have hbatch : (batches select sequence log)[k]? = some (entry.2.map sequence) := by
    rw [batches, List.getElem?_map, hentry]
    rfl
  intro c hc
  exact (h k _ hbatch).2 (sequence c) (List.mem_map_of_mem hc)

/-- Recipients, senders and applications count their messages from one on, without gap or
repetition. -/
theorem message_sequences (hgenesis : initGenesis ctx.genesis = .ok s₀)
    (h : Chronicle ctx (fun _ _ ↦ True) s₀ past pending s) :
    s.customContents = (sent ctx past).flatMap Prod.snd ∧
      (∀ entry ∈ sent ctx past, Delivered entry.1 entry.2) ∧
      (∀ recipient appId, recipientSequences s.customContents recipient appId =
        List.range' 1 (recipientSequences s.customContents recipient appId).length) ∧
      (∀ sender appId k entry,
        (selected (fromSender sender appId) (sent ctx past))[k]? = some entry →
          ∀ c ∈ entry.2, c.senderSequence = k + 1) ∧
      ∀ appId k entry, (selected (toApplication appId) (sent ctx past))[k]? = some entry →
        ∀ c ∈ entry.2, c.appMessageSequence = k + 1 := by
  have hsequenced := h.sequenced (initGenesis_customContents hgenesis)
  refine ⟨hsequenced.rows, hsequenced.delivered, hsequenced.recipients, ?_, ?_⟩
  · intro sender appId k entry hentry
    exact sequence_eq_of_consecutive (hsequenced.senders sender appId) hentry
  · intro appId k entry hentry
    exact sequence_eq_of_consecutive (hsequenced.applications appId) hentry

/-- Two messages of one application, the first of them to two accounts. -/
def messagesBlock : SignedBlock :=
  devBlock .null 1531512803
    [devTransaction 1531512801 8 (.customJson 1000 [initMinerName, 1000] 5 []),
      devTransaction 1531512802 8 (.customBinary 1000 [initMinerName] 5 [1])]

theorem message_sequences_two_messages :
    ∃ s₀ past s, Chronicle (devContext devGenesis) (fun _ _ ↦ True) s₀ past none s ∧
      s.customContents.map CustomContent.senderSequence = [1, 1, 2] ∧
      recipientSequences s.customContents initMinerName 5 = [1, 2] := by
  have hok : okAnd (initGenesis devGenesis) (fun s₀ ↦
      okAnd (recordBlocks (devContext devGenesis)
        (fun s stage ↦ stage.run (devContext devGenesis) s) [messagesBlock] ([], s₀)) fun recorded ↦
          decide (recorded.2.customContents.map CustomContent.senderSequence = [1, 1, 2] ∧
            (recipientSequences recorded.2.customContents initMinerName 5).length = 2)) = true := by
    decide +kernel
  obtain ⟨s₀, hgenesis, hs₀⟩ := exists_of_okAnd hok
  obtain ⟨recorded, hblocks, hs⟩ := exists_of_okAnd hs₀
  obtain ⟨hsenders, hlength⟩ := of_decide_eq_true hs
  have hchronicle : Chronicle (devContext devGenesis) (fun _ _ ↦ True) s₀ recorded.1 none
      recorded.2 := Chronicle.recordBlocks (fun _ _ _ hrun ↦ ⟨trivial, hrun⟩) .refl hblocks
  obtain ⟨_, _, hrecipients, _⟩ := message_sequences hgenesis hchronicle
  refine ⟨s₀, recorded.1, recorded.2, hchronicle, hsenders, ?_⟩
  rw [hrecipients, hlength]
  rfl

end SophiaTX.Chain
