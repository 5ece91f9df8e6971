import SophiaTX.Chain.Chronicle
import SophiaTX.Chain.Listings

/-!
# Applications and purchases

An application is created under a name that is free and gets the next id. A name is what the string
of an operation is converted to, so that different strings can name one application. Its author can
give it away or delete it, with everything that was bought of it. Purchases are kept by the id, so
that a later application of the same name inherits none.
-/

namespace SophiaTX.Chain

open SophiaTX.Protocol SophiaTX.Lib

/-! ## What happens to applications -/

/-- The operation of a stage, if it is one. -/
def Stage.performed : Stage → Option Operation
  | .operation _ op => some op.op
  | _ => none

def Stage.createsApplication (stage : Stage) : Bool :=
  match stage.performed with
  | some (.applicationCreate _ _ _ _ _) => true
  | _ => false

/-- The number of applications created in a past. -/
def applicationsCreated (past : List Moment) : ℕ :=
  past.countP fun moment ↦ moment.2.createsApplication

namespace Moment

def CreatesApplication (moment : Moment) (author : AccountName) (name : ApplicationName) : Prop :=
  ∃ str url metadata priceParam, ApplicationName.ofString str = name ∧
    moment.2.performed = some (.applicationCreate author str url metadata priceParam)

/-- The author of the time hands an application over. -/
def HandsOver (moment : Moment) (author : AccountName) (name : ApplicationName) : Prop :=
  ∃ former str url metadata priceParam, ApplicationName.ofString str = name ∧
    moment.2.performed =
      some (.applicationUpdate former (some author) str url metadata priceParam) ∧
    ∃ app, moment.1.applications.find? name = some app ∧ app.author = former

/-- Someone becomes the author of an application. -/
def PutsInCharge (moment : Moment) (author : AccountName) (name : ApplicationName) : Prop :=
  moment.CreatesApplication author name ∨ moment.HandsOver author name

/-- The author of the time deletes the application with an id. -/
def DeletesApplication (moment : Moment) (name : ApplicationName) (id : ℤ) : Prop :=
  ∃ author str app, ApplicationName.ofString str = name ∧
    moment.2.performed = some (.applicationDelete author str) ∧
    moment.1.listings.Lists name app id ∧ app.author = author

/-- An account buys the application that has an id, which is listed under a name. -/
def Buys (moment : Moment) (buyer : AccountName) (name : ApplicationName) (id : ℤ) : Prop :=
  moment.2.performed = some (.buyApplication buyer id) ∧
    ∃ app, moment.1.listings.Lists name app id

/-- The author of the time takes a purchase back. -/
def CancelsPurchase (moment : Moment) (buyer : AccountName) (id : ℤ) : Prop :=
  ∃ author name app, moment.2.performed = some (.cancelApplicationBuying author buyer id) ∧
    moment.1.listings.Lists name app id ∧ app.author = author

end Moment

/-! ## What is listed -/

/-- An account has bought the application listed under a name, at a time. -/
def Listings.Owns (l : Listings) (buyer : AccountName) (name : ApplicationName) (id : ℤ)
    (time : Time) : Prop :=
  l.applicationBuyings.find? (buyer, id) = some time ∧ ∃ app, l.Lists name app id

/-- The applications of a past and what has been bought of them. -/
structure Listings.Market (l : Listings) (past : List Moment) : Prop where
  next : l.nextApplicationId = applicationsCreated past
  bound : ∀ name app, l.applications.find? name = some app → app.id < l.nextApplicationId
  unique : ∀ name name' app app' id, l.Lists name app id → l.Lists name' app' id → name = name'
  refers : ∀ buyer id time, l.applicationBuyings.find? (buyer, id) = some time →
    ∃ name app, l.Lists name app id
  listed : ∀ name (id : ℤ), (∃ app, l.Lists name app id) ↔
    Since (fun moment older ↦ (∃ author, moment.CreatesApplication author name) ∧
      (applicationsCreated older : ℤ) = id)
      (fun moment ↦ ¬ moment.DeletesApplication name id) past
  author : ∀ name app, l.applications.find? name = some app →
    Since (fun moment _ ↦ moment.PutsInCharge app.author name)
      (fun moment ↦ ∀ author, ¬ moment.PutsInCharge author name) past
  owned : ∀ buyer name id time, l.Owns buyer name id time ↔
    Since (fun moment _ ↦ moment.Buys buyer name id ∧ moment.1.dgp.time = time)
      (fun moment ↦ ¬ moment.CancelsPurchase buyer id ∧ ¬ moment.DeletesApplication name id) past

variable {ctx : Context} {C : Database → Stage → Prop} {s₀ s s' : Database}
  {pending : Option (List Stage)} {past : List Moment} {l l' : Listings} {moment : Moment}

namespace Listings

theorem Market.empty (happlications : l.applications = .empty) (hnext : l.nextApplicationId = 0)
    (hbuyings : l.applicationBuyings = .empty) : l.Market [] := by
  have hnone : ∀ name app, ¬ l.applications.find? name = some app := by
    intro name app happ
    rw [happlications] at happ
    cases happ
  refine ⟨hnext, ?_, ?_, ?_, ?_, ?_, ?_⟩
  · intro name app happ
    exact absurd happ (hnone name app)
  · intro name _ app _ _ happ
    exact absurd happ.1 (hnone name app)
  · intro buyer id time htime
    rw [hbuyings] at htime
    cases htime
  · intro name id
    refine iff_of_false ?_ not_since_nil
    rintro ⟨app, happ⟩
    exact hnone name app happ.1
  · intro name app happ
    exact absurd happ (hnone name app)
  · intro buyer name id time
    refine iff_of_false ?_ not_since_nil
    rintro ⟨_, app, happ⟩
    exact hnone name app happ.1

/-- A moment that neither creates nor deletes an application. -/
theorem Market.relist (h : l.Market past)
    (hlists : ∀ name id, (∃ app, l'.Lists name app id) ↔ ∃ app, l.Lists name app id)
    (hnext : l'.nextApplicationId = l.nextApplicationId)
    (hcreates : moment.2.createsApplication = false)
    (hdeletes : ∀ name id, ¬ moment.DeletesApplication name id)
    (hauthor : ∀ name app, l'.applications.find? name = some app →
      moment.PutsInCharge app.author name ∨ (∀ author, ¬ moment.PutsInCharge author name) ∧
        ∃ app', l.applications.find? name = some app' ∧ app'.author = app.author)
    (hrefers : ∀ buyer id time, l'.applicationBuyings.find? (buyer, id) = some time →
      ∃ name app, l.Lists name app id)
    (howned : ∀ buyer name id time, l'.Owns buyer name id time ↔
      moment.Buys buyer name id ∧ moment.1.dgp.time = time ∨
        ¬ moment.CancelsPurchase buyer id ∧ l.Owns buyer name id time) :
    l'.Market (moment :: past) := by
  have hnew : ∀ author name, ¬ moment.CreatesApplication author name := by
    rintro author name ⟨_, _, _, _, _, hother⟩
    rw [Stage.createsApplication, hother] at hcreates
    cases hcreates
  constructor
  · have hcount : applicationsCreated (moment :: past) = applicationsCreated past := by
      apply List.countP_cons_of_neg
      rw [hcreates]
      exact Bool.false_ne_true
    rw [hnext, h.next, hcount]
  · intro name app happ
    obtain ⟨app', happ', hid⟩ := (hlists name app.id).1 ⟨app, happ, rfl⟩
    have hlt := h.bound name app' happ'
    omega
  · intro name name' app app' id happ happ'
    obtain ⟨old, hold⟩ := (hlists name id).1 ⟨app, happ⟩
    obtain ⟨old', hold'⟩ := (hlists name' id).1 ⟨app', happ'⟩
    exact h.unique name name' old old' id hold hold'
  · intro buyer id time htime
    obtain ⟨name, app, happ⟩ := hrefers buyer id time htime
    exact ⟨name, (hlists name id).2 ⟨app, happ⟩⟩
  · intro name id
    rw [hlists, since_cons, h.listed name id]
    constructor
    · exact fun hsince ↦ .inr ⟨hdeletes name id, hsince⟩
    · rintro (⟨⟨author, hcreated⟩, _⟩ | ⟨_, hsince⟩)
      · exact absurd hcreated (hnew author name)
      · exact hsince
  · intro name app happ
    rcases hauthor name app happ with hcharge | ⟨hnone, app', happ', hsame⟩
    · exact .now hcharge
    · rw [← hsame]
      exact (h.author name app' happ').step hnone
  · intro buyer name id time
    rw [howned, since_cons, h.owned]
    simp only [hdeletes name id, not_false_eq_true, and_true]

/-- A moment that is not about applications leaves the market as it is. -/
theorem Market.pass (h : l.Market past)
    (hsame : l'.applications = l.applications ∧ l'.nextApplicationId = l.nextApplicationId ∧
      l'.applicationBuyings = l.applicationBuyings)
    (hcreates : moment.2.createsApplication = false)
    (hcharge : ∀ author name, ¬ moment.PutsInCharge author name)
    (hdeletes : ∀ name id, ¬ moment.DeletesApplication name id)
    (hbuys : ∀ buyer name id, ¬ moment.Buys buyer name id)
    (hcancels : ∀ buyer id, ¬ moment.CancelsPurchase buyer id) : l'.Market (moment :: past) := by
  obtain ⟨happlications, hnext, hbuyings⟩ := hsame
  have hlists : ∀ name app id, l'.Lists name app id ↔ l.Lists name app id := by
    intro name app id
    rw [Lists, happlications]
    rfl
  apply h.relist (by simp only [hlists, implies_true]) hnext hcreates hdeletes
  · intro name app happ
    rw [happlications] at happ
    exact .inr ⟨fun author ↦ hcharge author name, app, happ, rfl⟩
  · rw [hbuyings]
    exact h.refers
  · intro buyer name id time
    rw [Owns, hbuyings]
    simp only [hlists, hbuys, hcancels, false_and, not_false_eq_true, true_and, false_or]
    rfl

/-! ## One operation -/

section Operations

variable {author buyer : AccountName} {str url metadata : Bytes} {priceParam : ℕ} {now : Time}

theorem Market.create (h : moment.1.listings.Market past)
    (hop : moment.2.performed = some (.applicationCreate author str url metadata priceParam))
    (hstep : moment.1.listings.OperationStep now
      (.applicationCreate author str url metadata priceParam) l') :
    l'.Market (moment :: past) := by
  obtain ⟨applications, happlications, rfl⟩ := hstep
  generalize hname : ApplicationName.ofString str = name at happlications
  have hfresh := (Table.emplace?_eq_some happlications).1
  have hfind := Table.find?_emplace? happlications
  have hcreates : moment.CreatesApplication author name :=
    ⟨str, url, metadata, priceParam, hname, hop⟩
  have hcharge : ∀ author' name', moment.PutsInCharge author' name' →
      author' = author ∧ name' = name := by
    intro author' name' hcharge
    rcases hcharge with ⟨str', _, _, _, rfl, hother⟩ | ⟨_, _, _, _, _, _, hother, _⟩
    · cases hop.symm.trans hother
      exact ⟨rfl, hname⟩
    · cases hop.symm.trans hother
  have hdeletes : ∀ name' id, ¬ moment.DeletesApplication name' id := by
    simp [Moment.DeletesApplication, hop]
  have hcancels : ∀ buyer id, ¬ moment.CancelsPurchase buyer id := by
    simp [Moment.CancelsPurchase, hop]
  have hbuys : ∀ buyer name' id, ¬ moment.Buys buyer name' id := by simp [Moment.Buys, hop]
  -- The new application comes first, the others stay what they were.
  have hcases : ∀ name' app', applications.find? name' = some app' →
      name' = name ∧ app' = ⟨moment.1.listings.nextApplicationId, author, url, metadata,
        priceParam⟩ ∨ name' ≠ name ∧ moment.1.listings.applications.find? name' = some app' := by
    intro name' app' happ'
    rw [hfind] at happ'
    split at happ'
    · rename_i hsame
      exact .inl ⟨hsame, (Option.some.inj happ').symm⟩
    · rename_i hother
      exact .inr ⟨hother, happ'⟩
  have hold : ∀ name' app', moment.1.listings.applications.find? name' = some app' →
      applications.find? name' = some app' := by
    intro name' app' happ'
    rw [hfind, if_neg]
    · exact happ'
    · rintro rfl
      rw [hfresh] at happ'
      cases happ'
  constructor
  · have hcount : applicationsCreated (moment :: past) = applicationsCreated past + 1 := by
      apply List.countP_cons_of_pos
      rw [Stage.createsApplication, hop]
    rw [hcount, ← h.next]
  · intro name' app' happ'
    rcases hcases name' app' happ' with ⟨_, rfl⟩ | ⟨_, happ'⟩
    · exact Nat.lt_succ_self _
    · exact (h.bound name' app' happ').trans (Nat.lt_succ_self _)
  · rintro name₁ name₂ app₁ app₂ id ⟨happ₁, hid₁⟩ ⟨happ₂, hid₂⟩
    rcases hcases _ _ happ₁ with ⟨rfl, rfl⟩ | ⟨_, happ₁⟩ <;>
      rcases hcases _ _ happ₂ with ⟨rfl, rfl⟩ | ⟨_, happ₂⟩
    · rfl
    · have hlt := h.bound _ _ happ₂
      dsimp only at hid₁
      omega
    · have hlt := h.bound _ _ happ₁
      dsimp only at hid₂
      omega
    · exact h.unique _ _ _ _ id ⟨happ₁, hid₁⟩ ⟨happ₂, hid₂⟩
  · intro buyer id time htime
    obtain ⟨name', app', happ', hid⟩ := h.refers buyer id time htime
    exact ⟨name', app', hold _ _ happ', hid⟩
  · intro name' id
    rw [since_cons, ← h.listed name' id]
    constructor
    · rintro ⟨app', happ', hid⟩
      rcases hcases _ _ happ' with ⟨rfl, rfl⟩ | ⟨_, happ'⟩
      · refine .inl ⟨⟨author, hcreates⟩, ?_⟩
        rw [← hid, ← h.next]
      · exact .inr ⟨hdeletes name' id, app', happ', hid⟩
    · rintro (⟨⟨author', hcreated⟩, hid⟩ | ⟨_, app', happ', hid⟩)
      · obtain ⟨rfl, rfl⟩ := hcharge author' name' (.inl hcreated)
        refine ⟨_, (hfind name').trans (if_pos rfl), ?_⟩
        rw [← hid, ← h.next]
      · exact ⟨app', hold _ _ happ', hid⟩
  · intro name' app' happ'
    rcases hcases _ _ happ' with ⟨rfl, rfl⟩ | ⟨hname, happ'⟩
    · exact .now (.inl hcreates)
    · apply (h.author name' app' happ').step
      intro author' hother
      exact hname (hcharge author' name' hother).2
  · intro buyer name' id time
    rw [since_cons, ← h.owned buyer name' id time]
    constructor
    · rintro ⟨htime, app', happ', hid⟩
      refine .inr ⟨⟨hcancels buyer id, hdeletes name' id⟩, htime, ?_⟩
      obtain ⟨name'', app'', happ'', hid''⟩ := h.refers buyer id time htime
      rcases hcases _ _ happ' with ⟨rfl, rfl⟩ | ⟨_, happ'⟩
      · have hlt := h.bound _ _ happ''
        dsimp only at hid
        omega
      · exact ⟨app', happ', hid⟩
    · rintro (⟨hbought, _⟩ | ⟨_, htime, app', happ', hid⟩)
      · exact absurd hbought (hbuys buyer name' id)
      · exact ⟨htime, app', hold _ _ happ', hid⟩

theorem Market.update {newAuthor : Option AccountName} {priceParam : Option ℕ}
    (h : moment.1.listings.Market past) (hop : moment.2.performed =
      some (.applicationUpdate author newAuthor str url metadata priceParam))
    (hstep : moment.1.listings.OperationStep now
      (.applicationUpdate author newAuthor str url metadata priceParam) l') :
    l'.Market (moment :: past) := by
  obtain ⟨app, happ, hauthor, hl'⟩ := hstep
  generalize hname : ApplicationName.ofString str = name at happ hl'
  have happlications := congrArg applications hl'
  have hlists : ∀ name' id, (∃ app', l'.Lists name' app' id) ↔
      ∃ app', moment.1.listings.Lists name' app' id := by
    intro name' id
    simp only [Lists, happlications, Table.find?_modify]
    split
    · simp only [Option.map_eq_some_iff]
      constructor
      · rintro ⟨_, ⟨old, hold, rfl⟩, hid⟩
        exact ⟨old, hold, hid⟩
      · rintro ⟨old, hold, hid⟩
        exact ⟨_, ⟨old, hold, rfl⟩, hid⟩
    · exact Iff.rfl
  have hcharge : ∀ author' name', moment.PutsInCharge author' name' ↔
      newAuthor = some author' ∧ name' = name := by
    intro author' name'
    simp only [Moment.PutsInCharge, Moment.CreatesApplication, Moment.HandsOver, hop]
    constructor
    · rintro (⟨_, _, _, _, _, hother⟩ | ⟨_, _, _, _, _, rfl, hother, _⟩)
      · cases hother
      · cases hother
        exact ⟨rfl, hname⟩
    · rintro ⟨rfl, rfl⟩
      exact .inr ⟨author, str, url, metadata, priceParam, hname, rfl, app, happ, hauthor⟩
  apply h.relist hlists
  · rw [hl']
  · rw [Stage.createsApplication, hop]
  · simp [Moment.DeletesApplication, hop]
  · intro name' app' happ'
    rw [happlications, Table.find?_modify] at happ'
    split at happ'
    · rename_i hsame
      obtain ⟨old, hold, rfl⟩ := Option.map_eq_some_iff.1 happ'
      cases newAuthor with
      | none =>
        refine .inr ⟨fun author' hother ↦ ?_, old, hold, rfl⟩
        cases ((hcharge author' name').1 hother).1
      | some newAuthor => exact .inl ((hcharge _ _).2 ⟨rfl, hsame⟩)
    · rename_i hne
      exact .inr ⟨fun author' hother ↦ hne ((hcharge author' name').1 hother).2, app', happ', rfl⟩
  · rw [hl']
    exact h.refers
  · intro buyer name' id time
    rw [Owns, hlists, hl']
    simp [Moment.Buys, Moment.CancelsPurchase, hop, Owns]

theorem Market.delete (h : moment.1.listings.Market past)
    (hop : moment.2.performed = some (.applicationDelete author str))
    (hstep : moment.1.listings.OperationStep now (.applicationDelete author str) l') :
    l'.Market (moment :: past) := by
  obtain ⟨app, happ, hauthor, hl'⟩ := hstep
  generalize hname : ApplicationName.ofString str = name at happ hl'
  have hcharge : ∀ author' name', ¬ moment.PutsInCharge author' name' := by
    simp [Moment.PutsInCharge, Moment.CreatesApplication, Moment.HandsOver, hop]
  have hcancels : ∀ buyer id, ¬ moment.CancelsPurchase buyer id := by
    simp [Moment.CancelsPurchase, hop]
  have hbuys : ∀ buyer name' id, ¬ moment.Buys buyer name' id := by simp [Moment.Buys, hop]
  have hdeletes : ∀ name' id, moment.DeletesApplication name' id ↔
      name' = name ∧ (app.id : ℤ) = id := by
    intro name' id
    constructor
    · rintro ⟨author', str', app', rfl, hother, ⟨happ', hid⟩, _⟩
      rw [hop] at hother
      cases hother
      rw [hname] at happ'
      cases happ.symm.trans happ'
      exact ⟨hname, hid⟩
    · rintro ⟨rfl, hid⟩
      exact ⟨author, str, app, hname, hop, ⟨happ, hid⟩, hauthor⟩
  -- What is listed now was listed before under another name, and so under another id.
  have hlists : ∀ name' app' id, l'.Lists name' app' id ↔
      moment.1.listings.Lists name' app' id ∧ ¬ moment.DeletesApplication name' id := by
    intro name' app' id
    rw [hdeletes, Lists, congrArg applications hl', Table.find?_erase]
    constructor
    · rintro ⟨happ', hid⟩
      split at happ'
      · cases happ'
      · rename_i hne
        exact ⟨⟨happ', hid⟩, fun hboth ↦ hne hboth.1⟩
    · rintro ⟨⟨happ', hid⟩, hnot⟩
      refine ⟨?_, hid⟩
      rw [if_neg]
      · exact happ'
      · rintro rfl
        cases happ.symm.trans happ'
        exact hnot ⟨rfl, hid⟩
  have hbuyings : ∀ buyer id time, l'.applicationBuyings.find? (buyer, id) = some time ↔
      moment.1.listings.applicationBuyings.find? (buyer, id) = some time ∧ (app.id : ℤ) ≠ id := by
    intro buyer id time
    rw [congrArg applicationBuyings hl', Table.find?_filterRows, Option.filter_eq_some_iff,
      decide_eq_true_iff, ne_comm]
  constructor
  · have hcount : applicationsCreated (moment :: past) = applicationsCreated past := by
      apply List.countP_cons_of_neg
      rw [Stage.createsApplication, hop]
      exact Bool.false_ne_true
    rw [hcount, ← h.next, hl']
  · intro name' app' happ'
    rw [congrArg nextApplicationId hl']
    exact h.bound name' app' ((hlists name' app' app'.id).1 ⟨happ', rfl⟩).1.1
  · intro name₁ name₂ app₁ app₂ id happ₁ happ₂
    exact h.unique _ _ _ _ id ((hlists _ _ _).1 happ₁).1 ((hlists _ _ _).1 happ₂).1
  · intro buyer id time htime
    obtain ⟨hbought, hne⟩ := (hbuyings buyer id time).1 htime
    obtain ⟨name', app', happ'⟩ := h.refers buyer id time hbought
    refine ⟨name', app', (hlists _ _ _).2 ⟨happ', fun hdeleted ↦ ?_⟩⟩
    exact hne ((hdeletes _ _).1 hdeleted).2
  · intro name' id
    have hnew : ¬ ∃ author, moment.CreatesApplication author name' :=
      fun ⟨author', hcreated⟩ ↦ hcharge author' name' (.inl hcreated)
    simp only [hlists, exists_and_right, since_cons, h.listed name' id, hnew, false_and, false_or]
    exact and_comm
  · intro name' app' happ'
    apply (h.author name' app' ((hlists name' app' app'.id).1 ⟨happ', rfl⟩).1.1).step
    exact fun author' ↦ hcharge author' name'
  · intro buyer name' id time
    have hkept : l'.Owns buyer name' id time ↔
        moment.1.listings.Owns buyer name' id time ∧ ¬ moment.DeletesApplication name' id := by
      simp only [Owns, hbuyings, hlists, exists_and_right]
      constructor
      · rintro ⟨⟨htime, _⟩, happ', hnot⟩
        exact ⟨⟨htime, happ'⟩, hnot⟩
      · rintro ⟨⟨htime, app', happ'⟩, hnot⟩
        refine ⟨⟨htime, ?_⟩, ⟨app', happ'⟩, hnot⟩
        rintro rfl
        obtain rfl := h.unique name' name app' app _ happ' ⟨happ, rfl⟩
        exact hnot ((hdeletes _ _).2 ⟨rfl, rfl⟩)
    simp only [hkept, since_cons, h.owned, hbuys, hcancels, false_and, false_or, not_false_eq_true,
      true_and]
    exact and_comm

theorem Market.buy {appId : ℤ} (h : moment.1.listings.Market past)
    (hop : moment.2.performed = some (.buyApplication buyer appId))
    (hstep : moment.1.listings.OperationStep moment.1.dgp.time (.buyApplication buyer appId) l') :
    l'.Market (moment :: past) := by
  obtain ⟨name, app, buyings, happ, hbuyings, rfl⟩ := hstep
  have hfind := Table.find?_emplace? hbuyings
  apply h.relist
  · exact fun name id ↦ Iff.rfl
  · rfl
  · rw [Stage.createsApplication, hop]
  · simp [Moment.DeletesApplication, hop]
  · intro name' app' happ'
    refine .inr ⟨?_, app', happ', rfl⟩
    simp [Moment.PutsInCharge, Moment.CreatesApplication, Moment.HandsOver, hop]
  · intro buyer' id time htime
    rw [hfind] at htime
    split at htime
    · rename_i hkey
      cases hkey
      exact ⟨name, app, happ⟩
    · exact h.refers buyer' id time htime
  · intro buyer' name' id time
    have hbought : moment.Buys buyer' name' id ↔
        (buyer', id) = (buyer, appId) ∧ ∃ app, moment.1.listings.Lists name' app id := by
      simp only [Moment.Buys, hop, Option.some.injEq, Operation.buyApplication.injEq, Prod.mk.injEq]
      rw [@eq_comm _ buyer, @eq_comm _ appId]
    have hnot : ¬ moment.CancelsPurchase buyer' id := by simp [Moment.CancelsPurchase, hop]
    have hfresh := (Table.emplace?_eq_some hbuyings).1
    simp only [hbought, hnot, not_false_eq_true, true_and]
    by_cases hkey : (buyer', id) = (buyer, appId)
    · cases hkey
      simp only [Owns, hfind, if_pos, hfresh, Option.some.injEq, true_and, reduceCtorEq, false_and,
        or_false]
      exact and_comm
    · simp only [Owns, hfind, hkey, false_and, false_or]
      rfl

theorem Market.cancel {appOwner : AccountName} {appId : ℤ} (h : moment.1.listings.Market past)
    (hop : moment.2.performed = some (.cancelApplicationBuying appOwner buyer appId))
    (hstep : moment.1.listings.OperationStep now
      (.cancelApplicationBuying appOwner buyer appId) l') : l'.Market (moment :: past) := by
  obtain ⟨name, app, happ, howner, rfl⟩ := hstep
  apply h.relist
  · exact fun name id ↦ Iff.rfl
  · rfl
  · rw [Stage.createsApplication, hop]
  · simp [Moment.DeletesApplication, hop]
  · intro name' app' happ'
    refine .inr ⟨?_, app', happ', rfl⟩
    simp [Moment.PutsInCharge, Moment.CreatesApplication, Moment.HandsOver, hop]
  · intro buyer' id time htime
    rw [Table.find?_erase] at htime
    split at htime
    · cases htime
    · exact h.refers buyer' id time htime
  · intro buyer' name' id time
    have hnot : ¬ moment.Buys buyer' name' id := by simp [Moment.Buys, hop]
    have hcancels : moment.CancelsPurchase buyer' id ↔ (buyer', id) = (buyer, appId) := by
      constructor
      · rintro ⟨_, _, _, hother, _⟩
        rw [hop] at hother
        cases hother
        rfl
      · intro hkey
        cases hkey
        exact ⟨appOwner, name, app, hop, happ, howner⟩
    simp only [hnot, hcancels, false_and, false_or, Owns, Table.find?_erase]
    split
    · rename_i hkey
      simp [hkey]
    · rename_i hkey
      simp only [hkey, not_false_eq_true, true_and]
      rfl

theorem Market.operation {op : Operation} (h : moment.1.listings.Market past)
    (hop : moment.2.performed = some op)
    (hstep : moment.1.listings.OperationStep moment.1.dgp.time op l') :
    l'.Market (moment :: past) := by
  cases op with
  | applicationCreate author str url metadata priceParam => exact h.create hop hstep
  | applicationUpdate author newAuthor str url metadata priceParam => exact h.update hop hstep
  | applicationDelete author str => exact h.delete hop hstep
  | buyApplication buyer appId => exact h.buy hop hstep
  | cancelApplicationBuying appOwner buyer appId => exact h.cancel hop hstep
  | sponsorFees sponsor sponsored isSponsoring =>
    have hsame : l'.applications = moment.1.listings.applications ∧
        l'.nextApplicationId = moment.1.listings.nextApplicationId ∧
        l'.applicationBuyings = moment.1.listings.applicationBuyings := by
      simp only [OperationStep] at hstep
      split at hstep
      · obtain ⟨_, rfl⟩ := hstep
        exact ⟨rfl, rfl, rfl⟩
      · split at hstep
        · obtain ⟨_, _, rfl⟩ := hstep
          exact ⟨rfl, rfl, rfl⟩
        · obtain ⟨_, rfl⟩ := hstep
          exact ⟨rfl, rfl, rfl⟩
    apply h.pass hsame
    · rw [Stage.createsApplication, hop]
    · simp [Moment.PutsInCharge, Moment.CreatesApplication, Moment.HandsOver, hop]
    · simp [Moment.DeletesApplication, hop]
    · simp [Moment.Buys, hop]
    · simp [Moment.CancelsPurchase, hop]
  | _ =>
    obtain rfl : l' = moment.1.listings := hstep
    apply h.pass ⟨rfl, rfl, rfl⟩
    · rw [Stage.createsApplication, hop]
    · simp [Moment.PutsInCharge, Moment.CreatesApplication, Moment.HandsOver, hop]
    · simp [Moment.DeletesApplication, hop]
    · simp [Moment.Buys, hop]
    · simp [Moment.CancelsPurchase, hop]

end Operations

/-! ## Runs -/

theorem Market.stage {stage : Stage} (h : s.listings.Market past)
    (hrun : stage.run ctx s = .ok s') : s'.listings.Market ((s, stage) :: past) := by
  have hstep := Stage.listingsStep hrun
  cases stage with
  | operation trx op =>
    have hop : Stage.performed (.operation trx op) = some op.op := rfl
    exact Market.operation h hop hstep
  | _ =>
    apply h.pass
    · rw [hstep]
      exact ⟨rfl, rfl, rfl⟩
    · rfl
    · simp [Moment.PutsInCharge, Moment.CreatesApplication, Moment.HandsOver, Stage.performed]
    · simp [Moment.DeletesApplication, Stage.performed]
    · simp [Moment.Buys, Stage.performed]
    · simp [Moment.CancelsPurchase, Stage.performed]

end Listings

theorem initGenesis_market {g : GenesisState} (h : initGenesis g = .ok s) :
    s.listings.Market [] := by
  simp only [initGenesis, bind_eq_ok, pure_eq_ok] at h
  obtain ⟨_, _, _, _, _, _, rfl⟩ := h
  exact .empty rfl rfl rfl

theorem Chronicle.market (hgenesis : initGenesis ctx.genesis = .ok s₀)
    (h : Chronicle ctx C s₀ past pending s) : s.listings.Market past := by
  induction h with
  | refl => exact initGenesis_market hgenesis
  | start _ _ ih => exact ih
  | stage _ _ hrun ih => exact ih.stage hrun
  | finish _ _ ih => exact ih

/-- An application is listed under an id since it was created as that one and has not been deleted,
its author is who was last put in charge, and an account owns it since it bought it, without a
cancellation or deletion in between. Nothing that was bought outlives its application. -/
theorem applications_and_purchases (hgenesis : initGenesis ctx.genesis = .ok s₀)
    (h : Chronicle ctx (fun _ _ ↦ True) s₀ past pending s) :
    (∀ name (id : ℤ), (∃ app, s.listings.Lists name app id) ↔
      Since (fun moment older ↦ (∃ author, moment.CreatesApplication author name) ∧
        (applicationsCreated older : ℤ) = id)
        (fun moment ↦ ¬ moment.DeletesApplication name id) past) ∧
      (∀ name app, s.applications.find? name = some app →
        Since (fun moment _ ↦ moment.PutsInCharge app.author name)
          (fun moment ↦ ∀ author, ¬ moment.PutsInCharge author name) past) ∧
      (∀ buyer name id time, s.listings.Owns buyer name id time ↔
        Since (fun moment _ ↦ moment.Buys buyer name id ∧ moment.1.dgp.time = time)
          (fun moment ↦ ¬ moment.CancelsPurchase buyer id ∧ ¬ moment.DeletesApplication name id)
          past) ∧
      ∀ buyer id time, s.applicationBuyings.find? (buyer, id) = some time →
        ∃! name, s.listings.Owns buyer name id time := by
  have hmarket := h.market hgenesis
  refine ⟨hmarket.listed, hmarket.author, hmarket.owned, fun buyer id time htime ↦ ?_⟩
  obtain ⟨name, app, happ⟩ := hmarket.refers buyer id time htime
  refine ⟨name, ⟨htime, app, happ⟩, ?_⟩
  rintro name' ⟨_, app', happ'⟩
  exact hmarket.unique name' name app' app id happ' happ

/-- An application is created, bought and given to its buyer. -/
def applicationBlock : SignedBlock :=
  devBlock .null 1531512803
    [devTransaction 1531512801 8 (.applicationCreate 1000 [97, 112, 112] [66] [] 0),
      devTransaction 1531512802 7 (.buyApplication initMinerName 0),
      devTransaction 1531512803 8
        (.applicationUpdate 1000 (some initMinerName) [97, 112, 112] [66] [] (some 1))]

theorem applications_and_purchases_one_purchase :
    ∃ s₀ past s, Chronicle (devContext devGenesis) (fun _ _ ↦ True) s₀ past none s ∧
      (s.applications.find? (.ofString [97, 112, 112])).map Application.author =
        some initMinerName ∧
      Since (fun moment _ ↦ moment.Buys initMinerName (.ofString [97, 112, 112]) 0 ∧
          moment.1.dgp.time = 1531512800)
        (fun moment ↦ ¬ moment.CancelsPurchase initMinerName 0 ∧
          ¬ moment.DeletesApplication (.ofString [97, 112, 112]) 0) past := by
  have hok : okAnd (initGenesis devGenesis) (fun s₀ ↦
      okAnd (recordBlocks (devContext devGenesis)
        (fun s stage ↦ stage.run (devContext devGenesis) s)
        [applicationBlock] ([], s₀)) fun recorded ↦
          decide ((recorded.2.applications.find? (.ofString [97, 112, 112])).map
              (fun app ↦ (app.author, app.id)) = some (initMinerName, 0) ∧
            recorded.2.applicationBuyings.find? (initMinerName, 0) = some 1531512800)) = true := by
    decide +kernel
  obtain ⟨s₀, hgenesis, hs₀⟩ := exists_of_okAnd hok
  obtain ⟨recorded, hblocks, hs⟩ := exists_of_okAnd hs₀
  obtain ⟨happ, hbought⟩ := of_decide_eq_true hs
  obtain ⟨app, hfind, hrow⟩ := Option.map_eq_some_iff.1 happ
  have hid : app.id = 0 := congrArg Prod.snd hrow
  have hchronicle : Chronicle (devContext devGenesis) (fun _ _ ↦ True) s₀ recorded.1 none
      recorded.2 := Chronicle.recordBlocks (fun _ _ _ hrun ↦ ⟨trivial, hrun⟩) .refl hblocks
  refine ⟨s₀, recorded.1, recorded.2, hchronicle, ?_, ?_⟩
  · rw [hfind]
    exact congrArg (some ∘ Prod.fst) hrow
  · apply ((applications_and_purchases hgenesis hchronicle).2.2.1 initMinerName
      (.ofString [97, 112, 112]) 0 1531512800).1
    refine ⟨hbought, app, hfind, ?_⟩
    rw [hid]
    rfl

end SophiaTX.Chain
