import SophiaTX.Lib.Middle
import SophiaTX.Market.Rates
import SophiaTX.Chain.Chronicle
import SophiaTX.Governance.Schedule
import SophiaTX.Protocol.Prices

/-!
# Median feeds

Once an hour the chain takes the median of the rates that its scheduled witnesses hold for a
currency. The last rate a witness has published is the one that counts, for a week. Whatever has
been published, the update goes through.
-/

namespace SophiaTX.Chain

open SophiaTX.Protocol SophiaTX.Lib

/-! ## What has been published -/

namespace Moment

/-- A witness publishes a rate. -/
def Publishes (g : GenesisState) (moment : Moment) (name : AccountName) (symbol : AssetSymbol)
    (rate : SubmittedExchangeRate) : Prop :=
  (moment.1.rates name).isSome = true ∧
    (moment.2.published g moment.1 name).reverse.lookup symbol = some rate.rate ∧
    rate.lastChange = moment.1.dgp.time

end Moment

/-- The last rate that a witness published for a currency. -/
def LastPublished (g : GenesisState) (past : List Moment) (name : AccountName)
    (symbol : AssetSymbol) (rate : SubmittedExchangeRate) : Prop :=
  Since (fun moment _ ↦ moment.Publishes g name symbol rate)
    (fun moment ↦ ∀ later, ¬ moment.Publishes g name symbol later) past

/-- A witness holds a rate for a currency. -/
def Database.Holds (s : Database) (name : AccountName) (symbol : AssetSymbol)
    (rate : SubmittedExchangeRate) : Prop :=
  ∃ rates, s.rates name = some rates ∧ (symbol, rate) ∈ rates

variable {ctx : Context} {g : GenesisState} {C : Database → Stage → Prop} {s₀ s s' : Database}
  {pending : Option (List Stage)} {past : List Moment} {name : AccountName} {symbol : AssetSymbol}

theorem mem_setExchangeRate {rates : List (AssetSymbol × SubmittedExchangeRate)}
    {other : AssetSymbol} {rate rate' : SubmittedExchangeRate} :
    (symbol, rate) ∈ Database.setExchangeRate rates other rate' ↔
      symbol = other ∧ rate = rate' ∨ symbol ≠ other ∧ (symbol, rate) ∈ rates := by
  rw [Database.setExchangeRate, List.mem_cons, List.mem_filter, Prod.mk.injEq, decide_eq_true_eq,
    and_comm (a := (symbol, rate) ∈ rates)]

/-- The last of several rates for one currency counts, and the others stay. -/
theorem mem_published {now : Time} {feeds : List (AssetSymbol × Price)}
    {rates : List (AssetSymbol × SubmittedExchangeRate)} {rate : SubmittedExchangeRate} :
    (symbol, rate) ∈ published now feeds rates ↔
      feeds.reverse.lookup symbol = some rate.rate ∧ rate.lastChange = now ∨
        feeds.reverse.lookup symbol = none ∧ (symbol, rate) ∈ rates := by
  induction feeds using List.reverseRecOn with
  | nil => simp [published]
  | append_singleton feeds feed ih =>
    have hfold : published now (feeds ++ [feed]) rates =
        Database.setExchangeRate (published now feeds rates) feed.1 ⟨feed.2, now⟩ := by
      rw [published, List.foldl_append]
      rfl
    rw [hfold, mem_setExchangeRate, ih, List.reverse_append, List.reverse_singleton,
      List.singleton_append, List.lookup_cons]
    by_cases hsymbol : symbol = feed.1
    · rw [beq_iff_eq.2 hsymbol]
      obtain ⟨price, time⟩ := rate
      simp only [hsymbol, SubmittedExchangeRate.mk.injEq, true_and, ne_eq, not_true_eq_false,
        false_and, or_false, Option.some.injEq, reduceCtorEq]
      rw [eq_comm (a := price)]
    · rw [beq_eq_false_iff_ne.2 hsymbol]
      simp only [hsymbol, false_and, ne_eq, not_false_eq_true, true_and, false_or]

theorem holds_of_stage {stage : Stage} {rate : SubmittedExchangeRate}
    (hrun : stage.run ctx s = .ok s') : s'.Holds name symbol rate ↔
      Moment.Publishes ctx.genesis (s, stage) name symbol rate ∨
        (∀ later, ¬ Moment.Publishes ctx.genesis (s, stage) name symbol later) ∧
          s.Holds name symbol rate := by
  have hstep := Stage.ratesStep hrun name
  generalize hfeeds : stage.published ctx.genesis s name = feeds at hstep
  simp only [Moment.Publishes, Database.Holds, hfeeds]
  cases hold : s.rates name with
  | none =>
    rw [hold] at hstep
    rcases hstep with hnew | ⟨_, hnew⟩ <;> simp [hnew]
  | some rates =>
    rw [hold] at hstep
    obtain hnew | ⟨habsurd, _⟩ := hstep
    · rw [hnew]
      simp only [Option.map_some, Option.some.injEq, exists_eq_left', mem_published,
        Option.isSome_some, true_and]
      cases feeds.reverse.lookup symbol with
      | none => simp
      | some price =>
        simp only [Option.some.injEq, reduceCtorEq, false_and, or_false, not_and, iff_self_or]
        intro hnone
        exact absurd rfl (hnone.1 ⟨price, s.dgp.time⟩ rfl)
    · cases habsurd

/-- The witness every chain starts with has published nothing. -/
theorem initGenesis_rates {rates : List (AssetSymbol × SubmittedExchangeRate)}
    (h : initGenesis g = .ok s) (hrates : s.rates name = some rates) : rates = [] := by
  simp only [initGenesis, bind_eq_ok, pure_eq_ok] at h
  obtain ⟨_, _, _, _, _, _, rfl⟩ := h
  simp only [Database.rates, ratesIn, genesisWitnesses, Table.find?, List.find?_singleton,
    decide_eq_true_eq] at hrates
  split at hrates
  · exact (Option.some.inj hrates).symm
  · cases hrates

/-- In every state a witness holds exactly the rates it published last. -/
theorem Chronicle.rates (hgenesis : initGenesis ctx.genesis = .ok s₀)
    (h : Chronicle ctx C s₀ past pending s) (rate : SubmittedExchangeRate) :
    s.Holds name symbol rate ↔ LastPublished ctx.genesis past name symbol rate := by
  induction h with
  | refl =>
    refine iff_of_false ?_ not_since_nil
    rintro ⟨rates, hrates, hmem⟩
    rw [initGenesis_rates hgenesis hrates] at hmem
    cases hmem
  | start _ _ ih => exact ih
  | stage _ _ hrun ih => rw [holds_of_stage hrun, LastPublished, since_cons, ih, LastPublished]
  | finish _ _ ih => exact ih

/-! ## Rates that can be compared -/

/-- A rate between SPHTX and a currency, with SPHTX as its base. -/
structure Quotes (symbol : AssetSymbol) (p : Price) : Prop where
  valid : p.Valid
  base : p.base.symbol = sophiatxSymbol
  quote : p.quote.symbol = symbol
  currency : isSbdSymbol symbol

/-- Both amounts have 64 bits. -/
def FitsPrice (p : Price) : Prop := p.base.amount ≤ int64Max ∧ p.quote.amount ≤ int64Max

instance (p : Price) : Decidable (FitsPrice p) := inferInstanceAs (Decidable (_ ∧ _))

/-- The rates of an operation have 64 bits. -/
def RatesFit : Operation → Prop
  | .feedPublish _ exchangeRate => FitsPrice exchangeRate
  | .witnessUpdate _ _ _ props => ∀ feed ∈ props.priceFeeds, FitsPrice feed.2
  | .witnessSetProperties _ props => ∀ rate ∈ props.exchangeRates.getD [], FitsPrice rate
  | _ => True

instance (op : Operation) : Decidable (RatesFit op) := by
  cases op <;> dsimp only [RatesFit] <;> infer_instance

def Stage.RatesFit : Stage → Prop
  | .operation _ op => Chain.RatesFit op.op
  | _ => True

instance (stage : Stage) : Decidable stage.RatesFit := by
  cases stage <;> dsimp only [Stage.RatesFit] <;> infer_instance

namespace Quotes

variable {p q : Price}

theorem lt (hp : Quotes symbol p) (hq : Quotes symbol q) :
    p.lt q = .ok (decide (p.rate < q.rate)) := by
  have hsame : p.sameSymbols q := ⟨hp.base.trans hq.base.symm, hp.quote.trans hq.quote.symm⟩
  rw [Price.lt_eq hp.valid hq.valid (.inl hsame), Price.rateFor_of_same hsame]

theorem isNull (hp : Quotes symbol p) : p.isNull = .ok false := by
  have hne : symbol ≠ sophiatxSymbol := by
    rintro rfl
    exact hp.valid.symbol_ne (hp.base.trans hp.quote.symm)
  rw [Price.isNull, Price.compare, hp.valid.swap.validate, ok_bind, if_neg, if_neg]
  · rfl
  · rintro ⟨hbase, _⟩
    exact hne (hp.quote.symm.trans hbase)
  · rintro ⟨_, hquote⟩
    exact hne (hp.quote.symm.trans hquote)

theorem of_base (hsbd : isSbdSymbol p.quote.symbol) (hbase : p.base.symbol = sophiatxSymbol)
    (hpos : 0 < p.quote.amount ∧ 0 < p.base.amount) (hfits : FitsPrice p) :
    Quotes p.quote.symbol p := by
  refine ⟨⟨hpos.2, hpos.1, ?_, hfits.1, hfits.2⟩, hbase, rfl, hsbd⟩
  intro hsame
  rw [← hsame, hbase] at hsbd
  revert hsbd
  decide

end Quotes

theorem swap_fits {p : Price} (h : FitsPrice p) : FitsPrice p.swap := ⟨h.2, h.1⟩

/-- A rate that was checked is one of a currency, whichever way it was written. -/
theorem quotes_rateInBase (hsymbol : g.symbol = sophiatxSymbol) {rate : Price}
    (h : validateExchangeRate rate = .ok ()) (hfits : FitsPrice rate) :
    Quotes (Database.rateInBase g rate).quote.symbol (Database.rateInBase g rate) := by
  unfold validateExchangeRate at h
  unfold Database.rateInBase
  rw [hsymbol]
  split at h
  · rename_i hbase
    simp only [bind_eq_ok, fcAssert_eq_ok] at h
    obtain ⟨_, hsbd, hpos⟩ := h
    rw [if_pos hbase]
    exact .of_base hsbd hbase hpos hfits
  · rename_i hbase
    simp only [bind_eq_ok, fcAssert_eq_ok] at h
    obtain ⟨_, hquote, _, hsbd, hpos⟩ := h
    rw [if_neg hbase]
    exact .of_base (p := rate.swap) hsbd hquote hpos.symm (swap_fits hfits)

theorem exchangeRates_checked {env : Env} {props : WitnessProperties}
    (h : props.validate env g = .ok ()) :
    ∀ rate ∈ props.exchangeRates.getD [], validateExchangeRate rate = .ok () := by
  cases hrates : props.exchangeRates with
  | none => simp
  | some rates =>
    have hloop : ∃ u, rates.forM validateExchangeRate = .ok u := by
      -- The checks in front depend on what else is set.
      cases hfee : props.accountCreationFee <;> cases hsize : props.maximumBlockSize <;>
        simp only [WitnessProperties.validate, hrates, hfee, hsize, bind_eq_ok] at h <;> grind
    obtain ⟨_, hloop⟩ := hloop
    exact forM_eq_ok hloop

/-- The rates of an operation that was checked are ones of their currencies. -/
theorem publishes_quotes (hsymbol : g.symbol = sophiatxSymbol) {env : Env} {op : Operation}
    (hvalid : op.validate env g = .ok ()) (hfits : RatesFit op) {privateNet : Bool}
    {feed : AssetSymbol × Price} (hfeed : feed ∈ publishes g privateNet name op) :
    Quotes feed.1 feed.2 := by
  cases op with
  | feedPublish publisher exchangeRate =>
    simp only [Operation.validate, bind_eq_ok] at hvalid
    obtain ⟨_, _, _, hrate, _⟩ := hvalid
    simp only [publishes] at hfeed
    split at hfeed
    · rw [List.mem_singleton.1 hfeed]
      exact quotes_rateInBase hsymbol hrate hfits
    · cases hfeed
  | witnessUpdate owner url key props =>
    simp only [Operation.validate, ChainProperties.validate, bind_eq_ok] at hvalid
    obtain ⟨_, _, _, _, _, _, _, _, hfeeds⟩ := hvalid
    simp only [publishes] at hfeed
    split at hfeed
    · obtain ⟨⟨other, rate⟩, hmem, rfl⟩ := List.mem_map.1 hfeed
      have hcheck := forM_eq_ok hfeeds _ hmem
      simp only [hsymbol, bind_eq_ok, fcAssert_eq_ok] at hcheck
      obtain ⟨_, hsbd, hcheck⟩ := hcheck
      have hrateFits : FitsPrice rate := hfits _ hmem
      simp only [Database.rateInBase, hsymbol]
      split at hcheck
      · rename_i hbase
        simp only [bind_eq_ok, fcAssert_eq_ok] at hcheck
        obtain ⟨_, hquote, hpos⟩ := hcheck
        rw [if_pos hbase]
        subst hquote
        exact .of_base hsbd hbase hpos hrateFits
      · rename_i hbase
        simp only [bind_eq_ok, fcAssert_eq_ok] at hcheck
        obtain ⟨_, ⟨hbase', hquote⟩, hpos⟩ := hcheck
        rw [if_neg hbase]
        subst hbase'
        exact .of_base (p := rate.swap) hsbd hquote hpos.symm (swap_fits hrateFits)
    · cases hfeed
  | witnessSetProperties owner props =>
    simp only [Operation.validate, bind_eq_ok] at hvalid
    obtain ⟨_, _, hvalid⟩ := hvalid
    simp only [publishes] at hfeed
    split at hfeed
    · obtain ⟨_, hrate, rfl⟩ := List.mem_map.1 hfeed
      obtain ⟨rate, hmem, rfl⟩ := List.mem_map.1 hrate
      exact quotes_rateInBase hsymbol (exchangeRates_checked hvalid rate hmem) (hfits rate hmem)
    · cases hfeed
  | _ => cases hfeed

/-- Every rate that is held can be compared with the others for its currency. -/
def Database.Quoted (s : Database) : Prop :=
  ∀ name symbol rate, s.Holds name symbol rate → Quotes symbol rate.rate

theorem Stage.quoted {stage : Stage} (hsymbol : ctx.genesis.symbol = sophiatxSymbol)
    (hvalid : stage.Valid ctx) (hfits : stage.RatesFit) (hrun : stage.run ctx s = .ok s')
    (hs : s.Quoted) : s'.Quoted := by
  intro name symbol rate hrate
  rcases (holds_of_stage hrun).1 hrate with ⟨_, hlast, _⟩ | ⟨_, hold⟩
  · have hfeed : (symbol, rate.rate) ∈ stage.published ctx.genesis s name := by
      obtain ⟨before, after, hsplit, _⟩ := List.lookup_eq_some_iff.1 hlast
      rw [← List.mem_reverse, hsplit]
      exact List.mem_append_right before List.mem_cons_self
    cases stage with
    | operation trx op => exact publishes_quotes hsymbol hvalid hfits hfeed
    | _ => cases hfeed
  · exact hs name symbol rate hold

/-! ## Medians -/

/-- The rates for a currency that the scheduled witnesses hold and that are not too old. -/
def Database.freshFeeds (s : Database) (symbol : AssetSymbol) : List Price :=
  (List.range s.wso.numScheduledWitnesses).flatMap fun place ↦
    (((s.wso.currentShuffledWitnesses[place]?.bind s.rates).getD []).filter fun entry ↦
      decide (entry.1 = symbol ∧
        s.dgp.time < timeAdd entry.2.lastChange maxFeedAgeSeconds)).map fun entry ↦ entry.2.rate

namespace Database

theorem quotes_of_scheduled (hs : s.Quoted) {place : ℕ}
    {entry : AssetSymbol × SubmittedExchangeRate}
    (h : entry ∈ (s.wso.currentShuffledWitnesses[place]?.bind s.rates).getD []) :
    Quotes entry.1 entry.2.rate := by
  cases hrates : s.wso.currentShuffledWitnesses[place]?.bind s.rates with
  | none =>
    rw [hrates] at h
    cases h
  | some rates =>
    rw [hrates] at h
    obtain ⟨name, _, hname⟩ := Option.bind_eq_some_iff.1 hrates
    exact hs name entry.1 entry.2 ⟨rates, hname, h⟩

theorem quotes_of_freshFeeds (hs : s.Quoted) {p : Price} (hp : p ∈ s.freshFeeds symbol) :
    Quotes symbol p := by
  simp only [freshFeeds, List.mem_flatMap, List.mem_map, List.mem_filter, decide_eq_true_eq] at hp
  obtain ⟨place, _, entry, ⟨hmem, rfl, _⟩, rfl⟩ := hp
  exact quotes_of_scheduled hs hmem

/-- Prices of one currency are put in the order of their rates. -/
theorem sortPrices_eq {prices : List Price} (h : ∀ p ∈ prices, Quotes symbol p) :
    sortPrices prices = .ok (prices.insertionSort fun a b ↦ a.rate ≤ b.rate) := by
  have hinsert : ∀ (p : Price) (sorted : List Price), Quotes symbol p →
      (∀ q ∈ sorted, Quotes symbol q) →
        insertPrice p sorted = .ok (sorted.orderedInsert (fun a b ↦ a.rate ≤ b.rate) p) := by
    intro p sorted hp hsorted
    induction sorted with
    | nil => rfl
    | cons q rest ih =>
      obtain ⟨hq, hrest⟩ := List.forall_mem_cons.1 hsorted
      rw [insertPrice, hq.lt hp, ok_bind, List.orderedInsert]
      by_cases hless : q.rate < p.rate
      · rw [if_pos (decide_eq_true hless), if_neg (not_le.2 hless), ih hrest]
        rfl
      · rw [if_neg (by simpa using hless), if_pos (not_lt.1 hless)]
        rfl
  induction prices with
  | nil => rfl
  | cons p prices ih =>
    obtain ⟨hp, hprices⟩ := List.forall_mem_cons.1 h
    rw [sortPrices, List.foldrM_cons]
    rw [sortPrices] at ih
    rw [ih hprices, ok_bind, List.insertionSort_cons]
    refine hinsert p _ hp fun q hq ↦ hprices q ?_
    exact (List.mem_insertionSort _).1 hq

/-- The price in the middle. -/
def medianOf (prices : List Price) : Price :=
  (prices.insertionSort fun a b ↦ a.rate ≤ b.rate).getD (prices.length / 2) Price.default

theorem isMiddle_medianOf {prices : List Price} (h : prices ≠ []) :
    IsMiddle Price.rate prices (medianOf prices) := by
  have hlength : prices.length / 2 <
      (prices.insertionSort fun a b ↦ a.rate ≤ b.rate).length := by
    rw [List.length_insertionSort]
    exact Nat.div_lt_self (List.length_pos_iff.2 h) (by decide)
  refine IsMiddle.of_insertionSort ?_
  rw [medianOf, List.getD_eq_getElem?_getD, List.getElem?_eq_getElem hlength]
  rfl

/-- A median is added to the history, which forgets the oldest. -/
def pushMedian (median : Price) (feed : FeedHistory) : FeedHistory where
  currentMedianHistory := median
  priceHistory := (feed.priceHistory ++ [median]).drop
    (feed.priceHistory.length + 1 - feedHistoryWindow)

/-- Whether there are enough rates for a median. -/
def EnoughFeeds (g : GenesisState) (prices : List Price) : Prop :=
  g.minFeeds ≤ prices.length ∧ prices ≠ []

instance (prices : List Price) : Decidable (EnoughFeeds g prices) :=
  inferInstanceAs (Decidable (_ ∧ _))

theorem updateMedianFeed_ok {feeds : List (AssetSymbol × Price)} {prices : List Price}
    (hprices : (feeds.filter fun feed ↦ decide (feed.1 = symbol)).map Prod.snd = prices)
    (hquotes : ∀ p ∈ prices, Quotes symbol p) (hhistory : (s.feedHistories.find? symbol).isSome) :
    ∃ s', updateMedianFeed g feeds s symbol = .ok s' ∧ ∀ other, s'.feedHistories.find? other =
      if other = symbol ∧ g.minFeeds ≤ prices.length then
        (s.feedHistories.find? other).map (pushMedian (medianOf prices))
      else s.feedHistories.find? other := by
  obtain ⟨feed, hfeed⟩ := Option.isSome_iff_exists.1 hhistory
  simp only [updateMedianFeed, hprices]
  split
  · rename_i henough
    rw [sortPrices_eq hquotes, ok_bind, getFeedHistory, hfeed]
    refine ⟨_, rfl, fun other ↦ ?_⟩
    simp only [henough, and_true, List.length_insertionSort]
    exact Table.find?_modify _ _ _ _
  · rename_i hfew
    refine ⟨s, rfl, fun other ↦ ?_⟩
    rw [if_neg fun h ↦ hfew h.2]

/-- One median for each currency of a list that has enough rates. -/
theorem updateMedianFeed_foldlM {feeds : List (AssetSymbol × Price)}
    {prices : AssetSymbol → List Price}
    (hprices : ∀ symbol,
      (feeds.filter fun feed ↦ decide (feed.1 = symbol)).map Prod.snd = prices symbol)
    {symbols : List AssetSymbol} (hnodup : symbols.Nodup)
    (hquotes : ∀ symbol ∈ symbols, ∀ p ∈ prices symbol, Quotes symbol p)
    (hhistory : ∀ symbol ∈ symbols, (s.feedHistories.find? symbol).isSome) :
    ∃ s', symbols.foldlM (updateMedianFeed g feeds) s = .ok s' ∧ ∀ symbol,
      s'.feedHistories.find? symbol =
        if symbol ∈ symbols ∧ g.minFeeds ≤ (prices symbol).length then
          (s.feedHistories.find? symbol).map (pushMedian (medianOf (prices symbol)))
        else s.feedHistories.find? symbol := by
  induction symbols generalizing s with
  | nil => exact ⟨s, rfl, fun symbol ↦ (if_neg (by simp)).symm⟩
  | cons first rest ih =>
    obtain ⟨hfirst, hrest⟩ := List.nodup_cons.1 hnodup
    obtain ⟨s₁, hround, hs₁⟩ := updateMedianFeed_ok (g := g) (hprices first)
      (hquotes first List.mem_cons_self) (hhistory first List.mem_cons_self)
    have hhistory₁ : ∀ symbol ∈ rest, (s₁.feedHistories.find? symbol).isSome := by
      intro symbol hsymbol
      have hne : symbol ≠ first := fun h ↦ hfirst (h ▸ hsymbol)
      rw [hs₁, if_neg fun h ↦ hne h.1]
      exact hhistory symbol (List.mem_cons_of_mem _ hsymbol)
    obtain ⟨s', hfold, hs'⟩ := ih hrest
      (fun symbol hsymbol ↦ hquotes symbol (List.mem_cons_of_mem _ hsymbol)) hhistory₁
    refine ⟨s', ?_, fun symbol ↦ ?_⟩
    · rw [List.foldlM_cons, hround]
      exact hfold
    · rw [hs', hs₁]
      by_cases hsymbol : symbol = first
      · subst hsymbol
        simp [hfirst]
      · simp [hsymbol]

theorem currentFeeds_ok (hseated : s.Seated) (hs : s.Quoted) :
    ∃ feeds, s.currentFeeds = .ok feeds ∧ ∀ symbol,
      (feeds.filter fun feed ↦ decide (feed.1 = symbol)).map Prod.snd = s.freshFeeds symbol := by
  obtain ⟨scheduled, hscheduled, _⟩ := scheduledWitnesses_ok hseated
  have hrates : (scheduled.flatMap fun entry ↦ entry.2.submittedExchangeRates) =
      (List.range s.wso.numScheduledWitnesses).flatMap fun place ↦
        (s.wso.currentShuffledWitnesses[place]?.bind s.rates).getD [] := by
    refine flatMap_of_mapM hscheduled fun place _ entry hentry ↦ ?_
    split at hentry
    · rename_i name hname
      simp only [getWitness, bind_eq_ok, orUnknownKey_eq_ok, pure_eq_ok] at hentry
      obtain ⟨w, hw, rfl⟩ := hentry
      simp [hname, rates, ratesIn, hw]
    · cases hentry
  simp only [currentFeeds, hscheduled, ok_bind, hrates]
  rw [filterM_eq_self]
  · refine ⟨_, rfl, fun symbol ↦ ?_⟩
    simp only [freshFeeds, List.filter_flatMap, List.map_flatMap, List.filter_map, List.map_map,
      List.filter_filter]
    refine congrArg (List.flatMap · _) (funext fun place ↦ ?_)
    refine congrArg (List.map _) (List.filter_congr fun entry _ ↦ ?_)
    simp
  · intro entry hentry
    obtain ⟨place, _, hmem⟩ := List.mem_flatMap.1 (List.mem_filter.1 hentry).1
    rw [(quotes_of_scheduled hs hmem).isNull]
    rfl

/-- The update goes through, and adds one median for each currency with enough rates. -/
theorem updateMedianFeeds_ok (hhour : g.blocksPerHour ≠ 0) (hseated : s.Seated) (hs : s.Quoted)
    (hhistory : ∀ symbol, isSbdSymbol symbol → (s.feedHistories.find? symbol).isSome) :
    ∃ s', s.updateMedianFeeds g = .ok s' ∧ ∀ symbol, s'.feedHistories.find? symbol =
      if s.dgp.headBlockNumber % g.blocksPerHour = 0 ∧ EnoughFeeds g (s.freshFeeds symbol) then
        (s.feedHistories.find? symbol).map (pushMedian (medianOf (s.freshFeeds symbol)))
      else s.feedHistories.find? symbol := by
  unfold updateMedianFeeds
  rw [if_neg hhour]
  by_cases hturn : s.dgp.headBlockNumber % g.blocksPerHour = 0
  · obtain ⟨feeds, hfeeds, hprices⟩ := currentFeeds_ok hseated hs
    rw [if_neg (not_not.2 hturn), hfeeds, ok_bind]
    have hperm := List.perm_insertionSort (· ≤ ·) (feeds.map Prod.fst).dedup
    have hmem : ∀ symbol, symbol ∈ (feeds.map Prod.fst).dedup.insertionSort (· ≤ ·) ↔
        s.freshFeeds symbol ≠ [] := by
      intro symbol
      rw [hperm.mem_iff, List.mem_dedup, ← hprices]
      simp [List.filter_eq_nil_iff]
    obtain ⟨s', hfold, hs'⟩ := updateMedianFeed_foldlM (g := g) (s := s) hprices
      (hperm.nodup_iff.2 (List.nodup_dedup _)) (fun symbol _ p hp ↦ quotes_of_freshFeeds hs hp) (by
        intro symbol hsymbol
        obtain ⟨p, hp⟩ := List.exists_mem_of_ne_nil _ ((hmem symbol).1 hsymbol)
        exact hhistory symbol (quotes_of_freshFeeds hs hp).currency)
    refine ⟨s', hfold, fun symbol ↦ ?_⟩
    simp only [hs', hmem, hturn, EnoughFeeds, true_and, and_comm]
  · rw [if_pos hturn]
    exact ⟨s, rfl, fun symbol ↦ (if_neg fun h ↦ hturn h.1).symm⟩

/-! ## Seats -/

/-- Only an update of the schedule seats other witnesses. -/
theorem seats_of_stage {stage : Stage} (hne : stage ≠ .updateWitnessSchedule)
    (hrun : stage.run ctx s = .ok s') :
    s'.wso.numScheduledWitnesses = s.wso.numScheduledWitnesses ∧
      s'.wso.currentShuffledWitnesses = s.wso.currentShuffledWitnesses := by
  have hstep := Stage.listingsStep hrun
  have hkeep {l' : Listings} (hl' : s'.listings = l') :
      s'.wso.numScheduledWitnesses = l'.numScheduledWitnesses ∧
        s'.wso.currentShuffledWitnesses = l'.currentShuffledWitnesses :=
    ⟨congrArg Listings.numScheduledWitnesses hl', congrArg Listings.currentShuffledWitnesses hl'⟩
  cases stage with
  | updateWitnessSchedule => exact absurd rfl hne
  | operation trx op => exact hkeep hstep.rest
  | updateMedianFeeds => exact hkeep hstep
  | _ => exact hkeep hstep

/-- A witness that is seated stays one. -/
theorem isSome_rates_of_stage {stage : Stage} (hrun : stage.run ctx s = .ok s')
    {name : AccountName} (h : (s.rates name).isSome) : (s'.rates name).isSome := by
  rcases Stage.ratesStep hrun name with hnew | ⟨_, hnew⟩
  · rwa [hnew, Option.isSome_map]
  · rw [hnew]
    rfl

theorem seated_iff : s.Seated ↔ ∀ place < s.wso.numScheduledWitnesses, ∃ name,
    s.wso.currentShuffledWitnesses[place]? = some name ∧ (s.rates name).isSome := by
  refine forall₂_congr fun place _ ↦ exists_congr fun name ↦ ?_
  rw [exists_and_left, rates, ratesIn, Option.isSome_map, Option.isSome_iff_exists]

theorem seated_of_scheduledWitnesses {scheduled : List (AccountName × Witness)}
    (h : s.scheduledWitnesses = .ok scheduled) : s.Seated := by
  intro place hplace
  obtain ⟨entry, hentry⟩ := ok_of_mapM h place (List.mem_range.2 hplace)
  split at hentry
  · rename_i name hname
    simp only [getWitness, bind_eq_ok, orUnknownKey_eq_ok] at hentry
    obtain ⟨w, hw, _⟩ := hentry
    exact ⟨name, w, hname, hw⟩
  · cases hentry

theorem updateMedianWitnessProps_seated (h : s.updateMedianWitnessProps = .ok s') : s'.Seated := by
  simp only [updateMedianWitnessProps, bind_eq_ok] at h
  obtain ⟨scheduled, hscheduled, h⟩ := h
  split at h
  · cases h
    exact seated_of_scheduledWitnesses hscheduled
  · cases h

theorem updateWitnessSchedule_seated (h : s.updateWitnessSchedule g = .ok s') (hs : s.Seated) :
    s'.Seated := by
  unfold updateWitnessSchedule at h
  split at h
  · cases h
  · split at h
    · simp only [updateWitnessSchedule4, bind_eq_ok, Prod.exists] at h
      obtain ⟨_, _, _, _, _, _, _, _, _, _, hprops⟩ := h
      exact updateMedianWitnessProps_seated hprops
    · exact pure_eq_ok.1 h ▸ hs

theorem seated_of_stage {stage : Stage} (hrun : stage.run ctx s = .ok s') (hs : s.Seated) :
    s'.Seated := by
  by_cases hschedule : stage = .updateWitnessSchedule
  · subst hschedule
    exact updateWitnessSchedule_seated hrun hs
  · obtain ⟨hcount, hnames⟩ := seats_of_stage hschedule hrun
    rw [seated_iff] at hs ⊢
    intro place hplace
    rw [hcount] at hplace
    obtain ⟨name, hname, hwitness⟩ := hs place hplace
    exact ⟨name, hnames ▸ hname, isSome_rates_of_stage hrun hwitness⟩

theorem initGenesis_seated (h : initGenesis g = .ok s) : s.Seated := by
  simp only [initGenesis, bind_eq_ok, pure_eq_ok] at h
  obtain ⟨_, _, _, _, _, _, rfl⟩ := h
  intro place hplace
  obtain rfl : place = 0 := Nat.lt_one_iff.1 hplace
  exact ⟨initMinerName, genesisWitness g, rfl, by simp [genesisWitnesses, Table.find?]⟩

end Database

/-! ## The history -/

/-- A moment at which a median of a currency is taken. -/
def Moment.takesMedian (g : GenesisState) (symbol : AssetSymbol) : Moment → Bool
  | (s, .updateMedianFeeds) => decide (s.dgp.privateNet = false ∧
      s.dgp.headBlockNumber % g.blocksPerHour = 0 ∧ Database.EnoughFeeds g (s.freshFeeds symbol))
  | _ => false

theorem Moment.enoughFeeds_of_takesMedian {moment : Moment}
    (h : Moment.takesMedian g symbol moment = true) :
    Database.EnoughFeeds g (moment.1.freshFeeds symbol) := by
  obtain ⟨s, stage⟩ := moment
  cases stage with
  | updateMedianFeeds => exact (of_decide_eq_true h).2.2
  | _ => cases h

/-- The history of a currency: the medians that were taken, without the oldest. -/
def FeedHistory.Records (feed : FeedHistory) (g : GenesisState) (symbol : AssetSymbol)
    (past : List Moment) : Prop :=
  ∃ medians, List.Forall₂ (fun moment median ↦
      IsMiddle Price.rate (moment.1.freshFeeds symbol) median)
      (past.filter (Moment.takesMedian g symbol)) medians ∧
    feed.priceHistory = (medians.take feedHistoryWindow).reverse ∧
    feed.currentMedianHistory = medians.headD Price.default

namespace FeedHistory

variable {feed : FeedHistory} {moment : Moment}

theorem Records.keep (h : feed.Records g symbol past)
    (hmoment : Moment.takesMedian g symbol moment = false) :
    feed.Records g symbol (moment :: past) := by
  rw [Records, List.filter_cons_of_neg (by simp [hmoment])]
  exact h

theorem Records.push (h : feed.Records g symbol past)
    (hmoment : Moment.takesMedian g symbol moment = true) :
    (Database.pushMedian (Database.medianOf (moment.1.freshFeeds symbol)) feed).Records g symbol
      (moment :: past) := by
  obtain ⟨medians, hmedians, hhistory, _⟩ := h
  refine ⟨Database.medianOf (moment.1.freshFeeds symbol) :: medians, ?_, ?_, rfl⟩
  · rw [List.filter_cons_of_pos hmoment]
    have henough := Moment.enoughFeeds_of_takesMedian hmoment
    exact .cons (Database.isMiddle_medianOf henough.2) hmedians
  · rw [Database.pushMedian, hhistory]
    exact drop_window medians _ (by decide)

end FeedHistory

/-- The history of every currency is there. -/
def Database.KeepsFeeds (s : Database) : Prop :=
  ∀ symbol, (s.feedHistories.find? symbol).isSome ↔ isSbdSymbol symbol

theorem feedHistories_of_stage {stage : Stage} (hhour : ctx.genesis.blocksPerHour ≠ 0)
    (hseated : s.Seated) (hquoted : s.Quoted) (hfeeds : s.KeepsFeeds)
    (hrun : stage.run ctx s = .ok s') (symbol : AssetSymbol) : s'.feedHistories.find? symbol =
      if Moment.takesMedian ctx.genesis symbol (s, stage) then
        (s.feedHistories.find? symbol).map
          (Database.pushMedian (Database.medianOf (s.freshFeeds symbol)))
      else s.feedHistories.find? symbol := by
  have hstep := Stage.listingsStep hrun
  have hkeep {l' : Listings} (hl' : s'.listings = l') : s'.feedHistories = l'.feedHistories :=
    congrArg Listings.feedHistories hl'
  cases stage with
  | updateMedianFeeds =>
    simp only [Stage.run, onPublicNet] at hrun
    cases hprivate : s.dgp.privateNet with
    | true =>
      rw [hprivate, if_pos rfl, pure_eq_ok] at hrun
      simp [← hrun, Moment.takesMedian, hprivate]
    | false =>
      rw [hprivate, if_neg Bool.false_ne_true] at hrun
      obtain ⟨s₁, hupdate, hs₁⟩ := Database.updateMedianFeeds_ok hhour hseated hquoted
        fun symbol hsbd ↦ (hfeeds symbol).2 hsbd
      obtain rfl : s₁ = s' := Except.ok.inj (hupdate.symm.trans hrun)
      simp [hs₁, Moment.takesMedian, hprivate]
  | operation trx op => exact congrArg (Table.find? · symbol) (hkeep hstep.rest)
  | updateWitnessSchedule => exact congrArg (Table.find? · symbol) (hkeep hstep)
  | _ => exact congrArg (Table.find? · symbol) (hkeep hstep)

theorem initGenesis_feedHistories (h : initGenesis g = .ok s) (symbol : AssetSymbol) :
    s.feedHistories.find? symbol =
      if isSbdSymbol symbol then some ⟨Price.default, []⟩ else none := by
  simp only [initGenesis, bind_eq_ok, pure_eq_ok] at h
  obtain ⟨_, _, _, _, _, _, rfl⟩ := h
  by_cases hsbd : isSbdSymbol symbol
  · rw [if_pos hsbd]
    rcases hsbd with rfl | rfl | rfl | rfl | rfl <;> rfl
  · rw [if_neg hsbd]
    refine (Table.find?_eq_none_iff _ _).2 fun hmem ↦ hsbd ?_
    simpa [genesisFeedHistories, Table.keys, isSbdSymbol] using hmem

section Runs

variable (hgenesis : initGenesis ctx.genesis = .ok s₀) (hskip : ctx.skip.validate = false)
  (hsymbol : ctx.genesis.symbol = sophiatxSymbol) (hhour : ctx.genesis.blocksPerHour ≠ 0)
  (h : Chronicle ctx (fun _ stage ↦ stage.RatesFit) s₀ past pending s)
include hgenesis hskip hsymbol h

theorem Chronicle.seated_quoted : s.Seated ∧ s.Quoted := by
  refine h.runsFrom.invariant (I := fun s ↦ s.Seated ∧ s.Quoted) hskip ?_
    ⟨Database.initGenesis_seated hgenesis, ?_⟩
  · rintro s stage s' hfits hvalid hrun ⟨hseated, hquoted⟩
    exact ⟨Database.seated_of_stage hrun hseated,
      Stage.quoted hsymbol hvalid hfits hrun hquoted⟩
  · rintro name symbol rate ⟨rates, hrates, hmem⟩
    rw [initGenesis_rates hgenesis hrates] at hmem
    cases hmem

include hhour

theorem Chronicle.feeds : s.KeepsFeeds ∧ ∀ symbol feed,
    s.feedHistories.find? symbol = some feed → feed.Records ctx.genesis symbol past := by
  induction h with
  | refl =>
    constructor
    · intro symbol
      rw [initGenesis_feedHistories hgenesis]
      split <;> simp [*]
    · intro symbol feed hfeed
      rw [initGenesis_feedHistories hgenesis] at hfeed
      split at hfeed
      · cases hfeed
        exact ⟨[], .nil, rfl, rfl⟩
      · cases hfeed
  | start _ _ ih => exact ih
  | stage h _ hrun ih =>
    obtain ⟨hfeeds, hrecords⟩ := ih
    obtain ⟨hseated, hquoted⟩ := h.seated_quoted hgenesis hskip hsymbol
    have hfind := feedHistories_of_stage hhour hseated hquoted hfeeds hrun
    constructor
    · intro symbol
      rw [hfind, ← hfeeds symbol]
      split
      · rw [Option.isSome_map]
      · rfl
    · intro symbol feed hfeed
      rw [hfind] at hfeed
      split at hfeed
      · rename_i htakes
        obtain ⟨old, hold, rfl⟩ := Option.map_eq_some_iff.1 hfeed
        exact (hrecords symbol old hold).push htakes
      · rename_i htakes
        exact (hrecords symbol feed hfeed).keep (by simpa using htakes)
  | finish _ _ ih => exact ih

end Runs

/-- In every state a witness holds for each currency what it published last, the places of the
schedule are held by witnesses, the update of the median feeds goes through, and the history of a
currency consists of the medians that were taken of the rates of its time. -/
theorem median_feeds_of_published_rates (hgenesis : initGenesis ctx.genesis = .ok s₀)
    (hskip : ctx.skip.validate = false) (hsymbol : ctx.genesis.symbol = sophiatxSymbol)
    (hhour : ctx.genesis.blocksPerHour ≠ 0)
    (h : Chronicle ctx (fun _ stage ↦ stage.RatesFit) s₀ past pending s) :
    (∀ name symbol rate, s.Holds name symbol rate ↔
      LastPublished ctx.genesis past name symbol rate) ∧
    s.Seated ∧ (∃ s', s.updateMedianFeeds ctx.genesis = .ok s') ∧ ∀ symbol,
      if isSbdSymbol symbol then ∃ feed, s.feedHistories.find? symbol = some feed ∧
        feed.Records ctx.genesis symbol past
      else s.feedHistories.find? symbol = none := by
  obtain ⟨hseated, hquoted⟩ := h.seated_quoted hgenesis hskip hsymbol
  obtain ⟨hfeeds, hrecords⟩ := h.feeds hgenesis hskip hsymbol hhour
  obtain ⟨s', hupdate, _⟩ := Database.updateMedianFeeds_ok hhour hseated hquoted
    fun symbol hsbd ↦ (hfeeds symbol).2 hsbd
  refine ⟨fun name symbol rate ↦ h.rates hgenesis rate, hseated, ⟨s', hupdate⟩, fun symbol ↦ ?_⟩
  split
  · rename_i hsbd
    obtain ⟨feed, hfeed⟩ := Option.isSome_iff_exists.1 ((hfeeds symbol).2 hsbd)
    exact ⟨feed, hfeed, hrecords symbol feed hfeed⟩
  · rename_i hother
    rw [← Option.not_isSome_iff_eq_none]
    exact mt (hfeeds symbol).1 hother

/-- The init miner publishes a rate. -/
def feedBlock : SignedBlock :=
  devBlock .null 1531512803 [devTransaction 1531512801 7
    (.feedPublish initMinerName ⟨⟨2, sbd1Symbol⟩, ⟨1, sophiatxSymbol⟩⟩)]

theorem median_feeds_of_published_rates_one_rate :
    ∃ s₀ past s, Chronicle (devContext devGenesis) (fun _ stage ↦ stage.RatesFit) s₀ past none s ∧
      LastPublished devGenesis past initMinerName sbd1Symbol
        ⟨⟨⟨1, sophiatxSymbol⟩, ⟨2, sbd1Symbol⟩⟩, 1531512800⟩ ∧
      ∃ s', s.updateMedianFeeds devGenesis = .ok s' := by
  have hok : okAnd (initGenesis devGenesis) (fun s₀ ↦
      okAnd (recordBlocks (devContext devGenesis) (fun s stage ↦
        if stage.RatesFit then stage.run (devContext devGenesis) s else .error .undefinedBehaviour)
          [feedBlock] ([], s₀)) fun recorded ↦ decide (recorded.2.rates initMinerName =
            some [(sbd1Symbol, ⟨⟨⟨1, sophiatxSymbol⟩, ⟨2, sbd1Symbol⟩⟩, 1531512800⟩)])) = true := by
    decide +kernel
  obtain ⟨s₀, hgenesis, hs₀⟩ := exists_of_okAnd hok
  obtain ⟨recorded, hblocks, hs⟩ := exists_of_okAnd hs₀
  have hchronicle : Chronicle (devContext devGenesis) (fun _ stage ↦ stage.RatesFit) s₀ recorded.1
      none recorded.2 := by
    refine Chronicle.recordBlocks (fun s stage s' hrun ↦ ?_) .refl hblocks
    split at hrun
    · exact ⟨‹_›, hrun⟩
    · cases hrun
  obtain ⟨hlast, _, hupdate, _⟩ := median_feeds_of_published_rates hgenesis rfl rfl (by decide)
    hchronicle
  refine ⟨s₀, recorded.1, recorded.2, hchronicle, (hlast _ _ _).1 ?_, hupdate⟩
  exact ⟨_, of_decide_eq_true hs, List.mem_cons_self⟩

end SophiaTX.Chain
