import SophiaTX.Plugins.Messaging

/-!
# Groups are kept

A group stays under the name it was created with, and its messages are numbered without a gap, as
long as no operation gives a group a current name that is taken, throws after it has written, or
goes on after the last sequence number.
-/

namespace SophiaTX.Plugins

open SophiaTX.Protocol SophiaTX.Lib

variable {plugin : MessagingPlugin} {op : GroupOperation} {s s' s₀ : GroupTables} {id : ℕ}
  {g g' : Group} {name sender : AccountName} {systemMessage : Bool} {data : Bytes} {iv : Digest}

/-! ## Tables -/

/-- A group is stored under the name it was created with. -/
def Named (s : GroupTables) (name : AccountName) : Prop :=
  ∃ id g, s.groups.find? id = some g ∧ g.groupName = name

structure GroupsInOrder (s : GroupTables) : Prop where
  sequences : ∀ id g, s.groups.find? id = some g → ∀ seq : UInt32,
    (s.messages.find? (g.groupName, seq) ≠ none ↔ seq.toNat < g.currentSeq.toNat)
  owned : ∀ name seq, s.messages.find? (name, seq) ≠ none → Named s name
  fresh : ∀ id g, s.groups.find? id = some g → id < s.nextId

/-- A group takes another value. -/
def GroupTables.rewritten (s : GroupTables) (id : ℕ) (g : Group) : GroupTables :=
  { s with groups := (s.groups.modify id g).1 }

/-- A message is filed under the next sequence number of a group. -/
def GroupTables.posted (s : GroupTables) (id : ℕ) (g : Group) (sender : AccountName)
    (systemMessage : Bool) (data : Bytes) : GroupTables :=
  { s with
    messages := s.messages.emplace (g.groupName, g.currentSeq)
      ⟨sender, g.members, data, systemMessage⟩ }.rewritten id
    { g with currentSeq := g.currentSeq + 1 }

theorem find?_of_findGroup (h : s.findGroup name = some (id, g)) :
    s.groups.find? id = some g ∧ g.currentGroupName = name := by
  refine ⟨(Table.find?_eq_some_iff _ _ _).2 (List.mem_of_find?_eq_some h), ?_⟩
  simpa using List.find?_some h

theorem findGroup_isSome (h : s.groups.find? id = some g) :
    (s.findGroup g.currentGroupName).isSome = true := by
  rw [GroupTables.findGroup, List.find?_isSome]
  exact ⟨(id, g), (Table.find?_eq_some_iff _ _ _).1 h, by simp⟩

/-- The keys of a group are free for its own new value. -/
theorem not_taken_of_keys (h : s.groups.find? id = some g) (hkeys : groupKeys g' = groupKeys g) :
    ¬ s.groups.Taken id g' := by
  rw [MultiIndex.taken_iff]
  rintro ⟨other, w, hw, hne, hclash⟩
  rw [Clash, hkeys] at hclash
  exact s.groups.unique id g other w h hw hne.symm hclash

theorem find?_rewritten (h : s.groups.find? id = some g) (hfree : ¬ s.groups.Taken id g')
    (other : ℕ) : (s.rewritten id g').groups.find? other =
      if other = id then some g' else s.groups.find? other := by
  rw [GroupTables.rewritten, (MultiIndex.modify_of_free hfree).2, h, Option.map_some]

theorem Named.rewritten (h : s.groups.find? id = some g) (hfree : ¬ s.groups.Taken id g')
    (hname : g'.groupName = g.groupName) (hnamed : Named s name) :
    Named (s.rewritten id g') name := by
  obtain ⟨other, w, hw, rfl⟩ := hnamed
  by_cases hother : other = id
  · subst hother
    cases h.symm.trans hw
    exact ⟨other, g', by rw [find?_rewritten h hfree, if_pos rfl], hname⟩
  · exact ⟨other, w, by rw [find?_rewritten h hfree, if_neg hother, hw], rfl⟩

/-- Two groups with one name are one. -/
theorem eq_of_groupName {other : ℕ} {w : Group} (h : s.groups.find? id = some g)
    (hw : s.groups.find? other = some w) (hname : w.groupName = g.groupName) : other = id := by
  by_contra hne
  refine s.groups.unique other w id g hw h hne ⟨.groupName w.groupName, ?_, ?_⟩
  · simp [groupKeys]
  · simp [groupKeys, hname]

namespace GroupsInOrder

theorem rewritten (hs : GroupsInOrder s) (h : s.groups.find? id = some g)
    (hfree : ¬ s.groups.Taken id g') (hname : g'.groupName = g.groupName)
    (hseq : g'.currentSeq = g.currentSeq) : GroupsInOrder (s.rewritten id g') := by
  refine ⟨fun other w hw seq ↦ ?_, fun name seq hmessage ↦ ?_, fun other w hw ↦ ?_⟩
  · rw [find?_rewritten h hfree] at hw
    split_ifs at hw with hother
    · cases hw
      rw [hname, hseq]
      exact hs.sequences id g h seq
    · exact hs.sequences other w hw seq
  · exact (hs.owned name seq hmessage).rewritten h hfree hname
  · rw [find?_rewritten h hfree] at hw
    split_ifs at hw with hother
    · exact hother ▸ hs.fresh id g h
    · exact hs.fresh other w hw

theorem message_free (hs : GroupsInOrder s) (h : s.groups.find? id = some g) :
    s.messages.find? (g.groupName, g.currentSeq) = none := by
  by_contra hsome
  exact absurd ((hs.sequences id g h _).1 hsome) (lt_irrefl _)

theorem posted (hs : GroupsInOrder s) (h : s.groups.find? id = some g)
    (hlast : g.currentSeq.toNat + 1 < 2 ^ 32) :
    GroupsInOrder (s.posted id g sender systemMessage data) := by
  have hnone := hs.message_free h
  have hfree : ¬ s.groups.Taken id { g with currentSeq := g.currentSeq + 1 } :=
    not_taken_of_keys h rfl
  have hmessages : ∀ key, (s.posted id g sender systemMessage data).messages.find? key =
      if key = (g.groupName, g.currentSeq) then some ⟨sender, g.members, data, systemMessage⟩
      else s.messages.find? key := Table.find?_emplace hnone _
  have hgroups : ∀ other, (s.posted id g sender systemMessage data).groups.find? other =
      if other = id then some { g with currentSeq := g.currentSeq + 1 }
      else s.groups.find? other := find?_rewritten h hfree
  have hsucc : (g.currentSeq + 1).toNat = g.currentSeq.toNat + 1 := by
    rw [UInt32.toNat_add]
    exact Nat.mod_eq_of_lt hlast
  refine ⟨fun other w hw seq ↦ ?_, fun other seq hmessage ↦ ?_, fun other w hw ↦ ?_⟩
  · rw [hgroups] at hw
    rw [hmessages]
    split_ifs at hw with hother
    · cases hw
      rw [hsucc]
      by_cases hseq : seq = g.currentSeq
      · simp [hseq]
      · rw [if_neg fun heq ↦ hseq (Prod.mk.inj heq).2, hs.sequences id g h seq]
        have hne : seq.toNat ≠ g.currentSeq.toNat := fun heq ↦ hseq (UInt32.toNat_inj.1 heq)
        omega
    · rw [if_neg fun heq ↦ hother (eq_of_groupName h hw (Prod.mk.inj heq).1)]
      exact hs.sequences other w hw seq
  · have hnamed : Named s other := by
      rw [hmessages] at hmessage
      split_ifs at hmessage with hkey
      · exact ⟨id, g, h, (Prod.mk.inj hkey).1.symm⟩
      · exact hs.owned other seq hmessage
    exact hnamed.rewritten h hfree rfl
  · rw [hgroups] at hw
    split_ifs at hw with hother
    · exact hother ▸ hs.fresh id g h
    · exact hs.fresh other w hw

end GroupsInOrder

/-! ## How the parts of the plugin end -/

variable {α : Type} {post : Unit → GroupTables → Prop} {fail : GroupFailure → GroupTables → Prop}

@[simp]
theorem ends_orThrow {e : GroupFailure} {x : Option α} {post : α → GroupTables → Prop} :
    Ends (orThrow e x) s post fail ↔ (∀ a, x = some a → post a s) ∧ (x = none → fail e s) := by
  cases x <;> simp [orThrow]

@[simp]
theorem ends_assertGroup {p : Prop} [Decidable p] {message : String} :
    Ends (assertGroup p message) s post fail ↔
      (p → post () s) ∧ (¬ p → fail (.assertion message) s) := by
  simp [assertGroup]

@[simp]
theorem ends_findGroup {post : Option (ℕ × Group) → GroupTables → Prop} :
    Ends (findGroup name) s post fail ↔ post (s.findGroup name) s := Iff.rfl

theorem ends_modifyGroup (hfree : ¬ s.groups.Taken id g) :
    Ends (modifyGroup id g) s post fail ↔ post () (s.rewritten id g) := by
  simp only [modifyGroup, ends_bind, ends_get, ends_set, (MultiIndex.modify_of_free hfree).1,
    if_true, ends_pure]
  rfl

theorem ends_saveMessage (hs : GroupsInOrder s) (h : s.groups.find? id = some g) :
    Ends (saveMessage id g sender systemMessage data) s post fail ↔
      post () (s.posted id g sender systemMessage data) := by
  simp only [saveMessage, createMessage, ends_bind, ends_get,
    Table.emplace?_of_find?_eq_none (hs.message_free h), ends_set]
  exact ends_modifyGroup (not_taken_of_keys h rfl)

/-- A new group gets the next id, unless one of its names is taken. -/
theorem ends_createGroup {post : ℕ → GroupTables → Prop}
    (hpost : ∀ groups, s.groups.emplace? s.nextId g = some groups →
      post s.nextId { s with groups := groups, nextId := s.nextId + 1 })
    (hfail : fail .uniqueness s) : Ends (createGroup g) s post fail := by
  simp only [createGroup, ends_bind, ends_get]
  split
  · rename_i groups hgroups
    exact hpost groups hgroups
  · exact hfail

/-! ## Messages to groups -/

/-- What a message means for a group that it is sent to. -/
inductive GroupPlan where
  | nothing
  | refuse (e : GroupFailure)
  | post (data : Bytes)
  | rewrite (g : Group) (data : Bytes)

/-- The decision on a message, which is made before anything is written. -/
def MessagingPlugin.plan (plugin : MessagingPlugin) (op : GroupOperation) (data : Bytes)
    (iv : Digest) (g : Group) : GroupPlan :=
  match plugin.decodeMessage data iv g.groupKey with
  | none => .refuse .decoding
  | some content =>
    match content.type with
    | .other => .nothing
    | .message =>
      match content.messageData with
      | some message => .post message
      | none => .refuse .undefinedBehaviour
    | .groupOperation =>
      match content.operationData with
      | none => .refuse (.assertion "Message has incorrect format")
      | some gOp =>
        if gOp.version = 1 ∧ op.sender = g.admin then
          match plugin.extractKey gOp.newKey g.groupKey iv gOp.sendersPubkey
            plugin.privateKeys with
          | none => .refuse .decoding
          | some newKey =>
            match gOp.type with
            | .disband => .rewrite g.disbanded (plugin.writeOp gOp)
            | .update =>
              match gOp.userList with
              | some users => .rewrite (g.updated gOp users newKey) (plugin.writeOp gOp)
              | none => .refuse .undefinedBehaviour
            | _ => .refuse (.assertion "Unknown group operation type")
        else .refuse (.assertion "Wrong version or wrong admin")

def GroupPlan.run (sender : AccountName) (id : ℕ) (g : Group) : GroupPlan → GroupM Unit
  | .nothing => pure ()
  | .refuse e => throw e
  | .post data => saveMessage id g sender false data
  | .rewrite g' data => do
    modifyGroup id g'
    saveMessage id g' sender true data

/-- A message is first decided on, and then written. -/
theorem MessagingPlugin.groupMessage_eq (plugin : MessagingPlugin) (op : GroupOperation)
    (data : Bytes) (iv : Digest) (id : ℕ) (g : Group) :
    plugin.groupMessage op data iv id g = (plugin.plan op data iv g).run op.sender id g := by
  unfold groupMessage plan
  cases plugin.decodeMessage data iv g.groupKey with
  | none => rfl
  | some content =>
    simp only [orThrow, pure_bind]
    cases content.type with
    | other => rfl
    | message => cases content.messageData <;> rfl
    | groupOperation =>
      cases content.operationData with
      | none => rfl
      | some gOp =>
        simp only [pure_bind, groupOperation, assertGroup]
        split_ifs
        · cases plugin.extractKey gOp.newKey g.groupKey iv gOp.sendersPubkey plugin.privateKeys with
          | none => rfl
          | some newKey =>
            simp only [pure_bind, orThrow]
            cases gOp.type with
            | disband | add | other => rfl
            | update => cases gOp.userList <;> rfl
        · rfl

theorem ends_groupRound {recipient : AccountName} :
    Ends (plugin.groupRound op data iv recipient) s post fail ↔
      (s.findGroup recipient = none → post () s) ∧ ∀ id g, s.findGroup recipient = some (id, g) →
        Ends ((plugin.plan op data iv g).run op.sender id g) s post fail := by
  simp only [MessagingPlugin.groupRound, ends_bind, ends_findGroup]
  cases hfound : s.findGroup recipient with
  | none => simp
  | some found =>
    obtain ⟨id, g⟩ := found
    simp [MessagingPlugin.groupMessage_eq]

/-- The condition on a message and the tables it comes to, recipient by recipient: no round throws
after another has written, none dereferences an `optional` that is empty, none gives a group a
current name that is taken, and none uses up the sequence numbers. -/
def RoundsSafe (plugin : MessagingPlugin) (op : GroupOperation) (data : Bytes) (iv : Digest) :
    Bool → GroupTables → List AccountName → Prop
  | _, _, [] => True
  | written, s, recipient :: rest =>
    match s.findGroup recipient with
    | none => RoundsSafe plugin op data iv written s rest
    | some (id, g) =>
      match plugin.plan op data iv g with
      | .nothing => RoundsSafe plugin op data iv written s rest
      | .refuse e => e ≠ .undefinedBehaviour ∧ written = false
      | .post message => g.currentSeq.toNat + 1 < 2 ^ 32 ∧
        RoundsSafe plugin op data iv true (s.posted id g op.sender false message) rest
      | .rewrite g' message => ¬ s.groups.Taken id g' ∧ g.currentSeq.toNat + 1 < 2 ^ 32 ∧
        RoundsSafe plugin op data iv true
          ((s.rewritten id g').posted id g' op.sender true message) rest

/-- Groups that are rewritten keep their name and their sequence number. -/
theorem MessagingPlugin.plan_rewrite {message : Bytes}
    (h : plugin.plan op data iv g = .rewrite g' message) :
    g'.groupName = g.groupName ∧ g'.currentSeq = g.currentSeq := by
  unfold plan at h
  split at h
  · cases h
  · split at h
    · cases h
    · split at h <;> cases h
    · split at h
      · cases h
      · split at h
        · split at h
          · cases h
          · split at h
            · cases h
              exact ⟨rfl, rfl⟩
            · split at h
              · cases h
                exact ⟨rfl, rfl⟩
              · cases h
            · cases h
        · cases h

theorem find?_posted (h : s.groups.find? id = some g) :
    (s.posted id g sender systemMessage data).groups.find? id =
      some { g with currentSeq := g.currentSeq + 1 } := by
  have hfree : ¬ s.groups.Taken id { g with currentSeq := g.currentSeq + 1 } :=
    not_taken_of_keys h rfl
  exact (find?_rewritten (s := { s with messages := _ }) h hfree id).trans (if_pos rfl)

theorem Named.posted (h : s.groups.find? id = some g) (hnamed : Named s name) :
    Named (s.posted id g sender systemMessage data) name :=
  Named.rewritten (s := { s with messages := _ }) h (not_taken_of_keys h rfl) rfl hnamed

/-- All groups of the tables before are there after. -/
def NamesKept (s s' : GroupTables) : Prop := ∀ name, Named s name → Named s' name

/-- The loop over the recipients. Until something is written the tables are those before. -/
theorem groupRounds_end {written : Bool} {recipients : List AccountName} (hs : GroupsInOrder s)
    (hkept : NamesKept s₀ s) (hwritten : written = false → s = s₀)
    (hsafe : RoundsSafe plugin op data iv written s recipients) :
    Ends (recipients.forM (plugin.groupRound op data iv)) s
      (fun _ s' ↦ GroupsInOrder s' ∧ NamesKept s₀ s')
      fun e s' ↦ e ≠ .undefinedBehaviour ∧ s' = s₀ := by
  induction recipients generalizing s written with
  | nil => exact ⟨hs, hkept⟩
  | cons recipient rest ih =>
    rw [List.forM, ends_bind, ends_groupRound]
    unfold RoundsSafe at hsafe
    refine ⟨fun hnone ↦ ?_, fun id g hfound ↦ ?_⟩
    · rw [hnone] at hsafe
      exact ih hs hkept hwritten hsafe
    · rw [hfound] at hsafe
      obtain ⟨hg, _⟩ := find?_of_findGroup hfound
      cases hplan : plugin.plan op data iv g with
      | nothing =>
        simp only [hplan] at hsafe
        exact ih hs hkept hwritten hsafe
      | refuse e =>
        simp only [hplan] at hsafe
        exact ⟨hsafe.1, hwritten hsafe.2⟩
      | post message =>
        simp only [hplan] at hsafe
        rw [GroupPlan.run, ends_saveMessage hs hg]
        refine ih (hs.posted hg hsafe.1) (fun name hname ↦ ?_) (fun hfalse ↦ ?_) hsafe.2
        · exact (hkept name hname).posted hg
        · cases hfalse
      | rewrite g' message =>
        simp only [hplan] at hsafe
        obtain ⟨hfree, hlast, hsafe⟩ := hsafe
        obtain ⟨hname, hseq⟩ := MessagingPlugin.plan_rewrite hplan
        have hs₁ := hs.rewritten hg hfree hname hseq
        have hg' : (s.rewritten id g').groups.find? id = some g' := by
          rw [find?_rewritten hg hfree, if_pos rfl]
        rw [GroupPlan.run, ends_bind, ends_modifyGroup hfree, ends_saveMessage hs₁ hg']
        refine ih (hs₁.posted hg' (hseq ▸ hlast)) (fun name hnamed ↦ ?_) (fun hfalse ↦ ?_) hsafe
        · exact ((hkept name hnamed).rewritten hg hfree hname).posted hg'
        · cases hfalse

/-! ## New groups -/

/-- What a message to a single recipient has to hold for a group to be created. -/
structure Adds (plugin : MessagingPlugin) (data : Bytes) (sender recipient : PublicKey)
    (gOp : GroupOp) (name : AccountName) : Prop where
  message : ∃ secret content, plugin.sharedSecret sender recipient = some (some secret) ∧
    plugin.decodeShared data secret = some content ∧ content.type = .groupOperation ∧
      content.operationData = some gOp
  add : gOp.version = 1 ∧ gOp.type = .add
  name : gOp.newGroupName = some name

/-- The condition on a message that may create a group: its members are given. -/
def AddSafe (plugin : MessagingPlugin) (op : GroupOperation) (data : Bytes)
    (sender recipient : PublicKey) (s : GroupTables) : Prop :=
  (∃ r ∈ op.recipients ++ [op.sender], r ∈ plugin.accounts) →
    ∀ gOp name newKey, Adds plugin data sender recipient gOp name → s.findGroup name = none →
      plugin.extractKey gOp.newKey 0 0 sender plugin.privateKeys = some newKey → newKey ≠ 0 →
        gOp.userList ≠ none

/-- A new group has no messages yet. -/
theorem GroupsInOrder.created {groups : MultiIndex groupKeys} (hs : GroupsInOrder s)
    (hseq : g.currentSeq = 0) (h : s.groups.emplace? s.nextId g = some groups) :
    GroupsInOrder { s with groups := groups, nextId := s.nextId + 1 } ∧
      NamesKept s { s with groups := groups, nextId := s.nextId + 1 } := by
  obtain ⟨hid, hfree, hfind⟩ := MultiIndex.emplace?_eq_some h
  have hkept : NamesKept s { s with groups := groups, nextId := s.nextId + 1 } := by
    rintro name ⟨other, w, hw, rfl⟩
    refine ⟨other, w, (hfind other).trans ?_, rfl⟩
    rw [if_neg (by rintro rfl; cases hid.symm.trans hw), hw]
  refine ⟨⟨fun other w hw seq ↦ ?_, fun name seq hmessage ↦ ?_, fun other w hw ↦ ?_⟩, hkept⟩
  · rw [hfind] at hw
    split_ifs at hw
    · cases hw
      refine iff_of_false (fun hmessage ↦ ?_) (by simp [hseq])
      obtain ⟨other, w, hw, hname⟩ := hs.owned _ _ hmessage
      refine hfree (MultiIndex.taken_iff.2 ⟨other, w, hw, ?_, .groupName g.groupName, ?_, ?_⟩)
      · exact (hs.fresh other w hw).ne
      · simp [groupKeys]
      · simp [groupKeys, hname]
    · exact hs.sequences other w hw seq
  · exact hkept name (hs.owned name seq hmessage)
  · rw [hfind] at hw
    split_ifs at hw with hother
    · exact hother ▸ Nat.lt_succ_self _
    · exact (hs.fresh other w hw).trans (Nat.lt_succ_self _)

/-- Once the group exists, the other accounts add nothing. -/
theorem addRounds_done {sender recipient : PublicKey} {gOp : GroupOp}
    (h : Adds plugin data sender recipient gOp name)
    (hfound : (s.findGroup name).isSome = true) (involved : List AccountName) :
    Ends (plugin.addRounds op data sender recipient involved) s (fun _ s' ↦ s' = s)
      fun _ _ ↦ False := by
  obtain ⟨secret, content, hsecret, hcontent, htype, hop⟩ := h.message
  obtain ⟨found, hfound⟩ := Option.isSome_iff_exists.1 hfound
  induction involved with
  | nil => rfl
  | cons r rest ih =>
    unfold MessagingPlugin.addRounds
    split_ifs
    · simp [hsecret, hcontent, htype, hop, h.add, h.name, hfound]
    · exact ih

theorem addRounds_end {sender recipient : PublicKey} {involved : List AccountName}
    (hs : GroupsInOrder s)
    (hsafe : (∃ r ∈ involved, r ∈ plugin.accounts) →
      ∀ gOp name newKey, Adds plugin data sender recipient gOp name → s.findGroup name = none →
        plugin.extractKey gOp.newKey 0 0 sender plugin.privateKeys = some newKey → newKey ≠ 0 →
          gOp.userList ≠ none) :
    Ends (plugin.addRounds op data sender recipient involved) s
      (fun _ s' ↦ GroupsInOrder s' ∧ NamesKept s s')
      fun e s' ↦ e ≠ .undefinedBehaviour ∧ s' = s := by
  have hsame : GroupsInOrder s ∧ NamesKept s s := ⟨hs, fun _ hname ↦ hname⟩
  induction involved with
  | nil => exact hsame
  | cons r rest ih =>
    unfold MessagingPlugin.addRounds
    split_ifs with htracked
    · have hsafe := hsafe ⟨r, List.mem_cons_self, htracked⟩
      cases hsecret : plugin.sharedSecret sender recipient with
      | none => exact hsame
      | some secret =>
        simp only [ends_bind, ends_orThrow, ends_assertGroup, ends_findGroup]
        refine ⟨fun secret hsome ↦ ⟨fun content hcontent ↦ ⟨fun htype ↦ ⟨fun gOp hop ↦
          ⟨fun hadd ↦ ⟨fun name hname ↦ ?_, ?_⟩, ?_⟩, ?_⟩, ?_⟩, ?_⟩, ?_⟩
        · subst hsome
          have hadds : Adds plugin data sender recipient gOp name :=
            ⟨⟨secret, content, hsecret, hcontent, htype, hop⟩, hadd, hname⟩
          rw [ends_ite]
          refine ⟨fun _ ↦ hsame, fun hnew ↦ ?_⟩
          have hnone : s.findGroup name = none := by simpa using hnew
          simp only [ends_bind, ends_orThrow, ends_assertGroup]
          refine ⟨fun newKey hkey ↦ ⟨fun hne ↦ ⟨fun users husers ↦ ?_, fun husers ↦ ?_⟩, ?_⟩, ?_⟩
          · refine ends_createGroup (fun groups hgroups ↦ ?_) ⟨by simp, rfl⟩
            obtain ⟨hs₁, hkept⟩ := hs.created rfl hgroups
            obtain ⟨_, _, hfind⟩ := MultiIndex.emplace?_eq_some hgroups
            have hg := (hfind s.nextId).trans (if_pos rfl)
            rw [ends_saveMessage hs₁ hg]
            refine (addRounds_done hadds (findGroup_isSome (find?_posted hg)) rest).mono ?_
              fun _ _ hfalse ↦ hfalse.elim
            rintro _ s' rfl
            exact ⟨hs₁.posted hg (by simp [MessagingPlugin.newGroup]),
              fun name hnamed ↦ (hkept name hnamed).posted hg⟩
          · exact absurd husers (hsafe gOp name newKey hadds hnone hkey hne)
          · simp
          · simp
        · simp
        · simp
        · simp
        · simp
        · simp
        · simp
    · refine ih fun hinvolved ↦ hsafe ?_
      obtain ⟨r', hr', htracked'⟩ := hinvolved
      exact ⟨r', List.mem_cons_of_mem _ hr', htracked'⟩

/-! ## Runs -/

/-- The condition on an operation and the tables before it. -/
def SafeForGroups (plugin : MessagingPlugin) (s : GroupTables) (op : GroupOperation) : Prop :=
  ∀ messageMeta, plugin.readMeta op.json = some messageMeta →
    (∀ iv, messageMeta.iv = some iv →
      RoundsSafe plugin op messageMeta.data iv false s op.recipients) ∧
    (messageMeta.iv = none → ∀ sender recipient, messageMeta.sender = some sender →
      messageMeta.recipient = some recipient →
        AddSafe plugin op messageMeta.data sender recipient s)

theorem apply_end (hs : GroupsInOrder s) (hsafe : SafeForGroups plugin s op) :
    Ends (plugin.apply op) s (fun _ s' ↦ GroupsInOrder s' ∧ NamesKept s s')
      fun e s' ↦ e ≠ .undefinedBehaviour ∧ s' = s := by
  simp only [MessagingPlugin.apply, ends_bind, ends_orThrow]
  refine ⟨fun messageMeta hmeta ↦ ?_, fun _ ↦ by simp⟩
  obtain ⟨hmessage, hadd⟩ := hsafe messageMeta hmeta
  cases hiv : messageMeta.iv with
  | some iv => exact groupRounds_end hs (fun _ hname ↦ hname) (fun _ ↦ rfl) (hmessage iv hiv)
  | none =>
    have hsame : GroupsInOrder s ∧ NamesKept s s := ⟨hs, fun _ hname ↦ hname⟩
    cases hsender : messageMeta.sender with
    | none => exact hsame
    | some sender =>
      cases hrecipient : messageMeta.recipient with
      | none => exact hsame
      | some recipient => exact addRounds_end hs (hadd hiv sender recipient hsender hrecipient)

theorem MessagingPlugin.tables_concat (done : List GroupOperation) (op : GroupOperation) :
    plugin.tables (done ++ [op]) = stateAfter (plugin.apply op) (plugin.tables done) := by
  rw [tables, List.foldl_append]
  rfl

/-- What an operation does to tables that are in order. -/
structure GroupStep (s : GroupTables) (e : Option GroupFailure) (s' : GroupTables) : Prop where
  order : GroupsInOrder s'
  kept : NamesKept s s'
  defined : e ≠ some .undefinedBehaviour
  thrown : e ≠ none → s' = s

theorem groupStep (hs : GroupsInOrder s) (hsafe : SafeForGroups plugin s op) :
    GroupStep s (thrown (plugin.apply op) s) (stateAfter (plugin.apply op) s) := by
  refine Ends.stateAfter (P := GroupStep s) ((apply_end hs hsafe).mono ?_ ?_)
  · rintro _ s' ⟨horder, hkept⟩
    exact ⟨horder, hkept, by simp, fun h ↦ absurd rfl h⟩
  · rintro e s' ⟨hdefined, rfl⟩
    exact ⟨hs, fun _ hname ↦ hname, by simpa using hdefined, fun _ ↦ rfl⟩

theorem GroupTables.empty_inOrder : GroupsInOrder .empty :=
  ⟨fun _ _ h ↦ (by cases h), fun _ _ h ↦ absurd rfl h, fun _ _ h ↦ (by cases h)⟩

/-- All operations of a run meet the condition in the tables they come to. -/
def SafeRun (plugin : MessagingPlugin) (ops : List GroupOperation) : Prop :=
  ∀ done op rest, ops = done ++ op :: rest → SafeForGroups plugin (plugin.tables done) op

theorem SafeRun.left {ops rest : List GroupOperation} (h : SafeRun plugin (ops ++ rest)) :
    SafeRun plugin ops := by
  rintro done op others rfl
  exact h done op (others ++ rest) (by simp)

theorem SafeRun.inOrder {ops : List GroupOperation} (h : SafeRun plugin ops) :
    GroupsInOrder (plugin.tables ops) := by
  induction ops using List.reverseRecOn with
  | nil => exact GroupTables.empty_inOrder
  | append_singleton ops op ih =>
    rw [MessagingPlugin.tables_concat]
    exact (groupStep (ih h.left) (h ops op [] rfl)).order

theorem SafeRun.kept {done rest : List GroupOperation} (h : SafeRun plugin (done ++ rest)) :
    NamesKept (plugin.tables done) (plugin.tables (done ++ rest)) := by
  induction rest using List.reverseRecOn with
  | nil =>
    rw [List.append_nil]
    exact fun _ hname ↦ hname
  | append_singleton rest op ih =>
    rw [← List.append_assoc] at h ⊢
    rw [MessagingPlugin.tables_concat]
    exact fun name hname ↦
      (groupStep h.left.inOrder (h _ op [] rfl)).kept name (ih h.left name hname)

/-- In every run whose operations meet the condition, every group that was ever created is stored
once under its name, its messages are numbered from 0 up to its sequence number, and an operation
that throws changes nothing. -/
theorem groups_never_lost (plugin : MessagingPlugin) (ops : List GroupOperation)
    (hsafe : SafeRun plugin ops) :
    (∀ done rest name, ops = done ++ rest → Named (plugin.tables done) name →
      ∃! id, ∃ g, (plugin.tables ops).groups.find? id = some g ∧ g.groupName = name) ∧
    (∀ id g, (plugin.tables ops).groups.find? id = some g → ∀ seq : UInt32,
      ((plugin.tables ops).messages.find? (g.groupName, seq) ≠ none ↔
        seq.toNat < g.currentSeq.toNat)) ∧
    ∀ done op rest, ops = done ++ op :: rest →
      thrown (plugin.apply op) (plugin.tables done) ≠ some .undefinedBehaviour ∧
        (thrown (plugin.apply op) (plugin.tables done) ≠ none →
          plugin.tables (done ++ [op]) = plugin.tables done) := by
  refine ⟨?_, hsafe.inOrder.sequences, fun done op rest hsplit ↦ ?_⟩
  · rintro done rest name rfl hname
    obtain ⟨id, g, hg, hgname⟩ := hsafe.kept name hname
    refine ⟨id, ⟨g, hg, hgname⟩, ?_⟩
    rintro other ⟨w, hw, hwname⟩
    exact eq_of_groupName hg hw (hwname.trans hgname.symm)
  · have hrun : SafeRun plugin (done ++ op :: rest) := hsplit ▸ hsafe
    have hstep := groupStep hrun.left.inOrder (hsafe done op rest hsplit)
    rw [MessagingPlugin.tables_concat]
    exact ⟨hstep.defined, hstep.thrown⟩

/-! ## A group that is lost -/

/-- The operation that adds a group with a name. -/
def addGroup (name : AccountName) : GroupOp :=
  ⟨1, .add, [], some name, some [1000], 6, [(5, [0])]⟩

def disbandGroup : GroupOp := ⟨1, .disband, [], none, none, 6, []⟩

/-- A plugin with one key, for whom decryption is the identity and packed messages are one byte. -/
def devGroups : MessagingPlugin where
  accounts := [1000]
  privateKeys := [(5, 1)]
  readMeta json :=
    if json = [1] then some ⟨some 6, some 5, none, [1]⟩
    else if json = [2] then some ⟨some 6, some 5, none, [2]⟩
    else if json = [3] ∨ json = [4] then some ⟨none, none, some 7, json⟩
    else none
  unpack raw :=
    if raw = [1] then some ⟨.groupOperation, none, some (addGroup 2001)⟩
    else if raw = [2] then some ⟨.groupOperation, none, some (addGroup 2002)⟩
    else if raw = [3] then some ⟨.groupOperation, none, some disbandGroup⟩
    else if raw = [4] then some ⟨.message, some [104, 105], none⟩
    else none
  decrypt _ _ message := some message
  decryptShared _ message := some message
  getSharedSecret _ _ := some 1
  digest _ := some 9
  writeOp _ := []

instance (s : GroupTables) (name : AccountName) : Decidable (Named s name) :=
  decidable_of_iff (∃ entry ∈ s.groups.rows.entries, entry.2.groupName = name) (by
    simp only [Named, MultiIndex.find?, Table.find?_eq_some_iff, Prod.exists])

/-- A group is added, and a message is sent to it. -/
theorem groups_kept_after_message :
    Named (devGroups.tables [⟨1000, [1000], [1]⟩, ⟨1000, [2001], [4]⟩]) 2001 ∧
      ∀ id g, (devGroups.tables [⟨1000, [1000], [1]⟩, ⟨1000, [2001], [4]⟩]).groups.find? id =
        some g → ∀ seq : UInt32,
          ((devGroups.tables [⟨1000, [1000], [1]⟩, ⟨1000, [2001], [4]⟩]).messages.find?
            (g.groupName, seq) ≠ none ↔ seq.toNat < g.currentSeq.toNat) := by
  have hsafe : SafeRun devGroups [⟨1000, [1000], [1]⟩, ⟨1000, [2001], [4]⟩] := by
    intro done op rest hsplit
    rcases done with _ | ⟨first, _ | ⟨second, done⟩⟩
    · cases hsplit
      rintro messageMeta hmeta
      cases hmeta
      refine ⟨fun iv hiv ↦ (by cases hiv), ?_⟩
      rintro _ _ _ hsender hrecipient _ gOp name newKey
        ⟨⟨secret, content, _, hcontent, _, hop⟩, _, _⟩
      cases hsender
      cases hrecipient
      cases hcontent
      cases hop
      simp [addGroup]
    · cases hsplit
      rintro messageMeta hmeta
      cases hmeta
      refine ⟨fun iv hiv ↦ ?_, fun hiv ↦ (by cases hiv)⟩
      cases hiv
      have hfound : (devGroups.tables [⟨1000, [1000], [1]⟩]).findGroup 2001 =
          some (0, ⟨2001, 2001, [], [1000], 1000, 9, 1⟩) := by decide +kernel
      have hplan : devGroups.plan ⟨1000, [2001], [4]⟩ [4] 7 ⟨2001, 2001, [], [1000], 1000, 9, 1⟩ =
          .post [104, 105] := rfl
      simp only [RoundsSafe, hfound, hplan]
      decide
    · simp at hsplit
  have hkept := groups_never_lost devGroups _ hsafe
  exact ⟨by decide +kernel, hkept.2.1⟩

/-- Two groups are disbanded. The second one cannot take the empty name, which the first one has,
and is erased. -/
theorem second_disband_loses_group :
    Named (devGroups.tables [⟨1000, [1000], [1]⟩, ⟨1000, [1000], [2]⟩, ⟨1000, [2001], [3]⟩]) 2002 ∧
      thrown (devGroups.apply ⟨1000, [2002], [3]⟩) (devGroups.tables
        [⟨1000, [1000], [1]⟩, ⟨1000, [1000], [2]⟩, ⟨1000, [2001], [3]⟩]) = some .uniqueness ∧
      ¬ Named (devGroups.tables [⟨1000, [1000], [1]⟩, ⟨1000, [1000], [2]⟩, ⟨1000, [2001], [3]⟩,
        ⟨1000, [2002], [3]⟩]) 2002 := by
  decide +kernel

end SophiaTX.Plugins
