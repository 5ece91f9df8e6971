import SophiaTX.Chain.Chronicle
import SophiaTX.Ownership.Authorisation

/-!
# Control over an account

Who may replace the owner authority of an account, its reset account and its recovery account.
Every request that is still in the registry was made in the past of the run and has stood since;
every entry of the history was the owner authority until its time.
-/

namespace SophiaTX.Chain

open SophiaTX.Protocol SophiaTX.Lib

/-! ## Stages by what they write -/

/-- Operations that replace the owner authority of an account. -/
def ReplacesOwner (name : AccountName) : Stage → Prop
  | .operation _ ⟨.accountUpdate account owner _ _ _, _⟩ => account = name ∧ owner.isSome
  | .operation _ ⟨.accountDelete account, _⟩ => account = name
  | .operation _ ⟨.resetAccount _ account _, _⟩ => account = name
  | .operation _ ⟨.recoverAccount account _ _, _⟩ => account = name
  | _ => False

/-- Operations that make, replace or cancel a request to recover an account. -/
def RequestsRecovery (name : AccountName) : Stage → Prop
  | .operation _ ⟨.requestAccountRecovery _ account _, _⟩ => account = name
  | _ => False

/-- Operations that make, replace or cancel a request to change a recovery account. -/
def ChangesRecovery (name : AccountName) : Stage → Prop
  | .operation _ ⟨.changeRecoveryAccount account _, _⟩ => account = name
  | _ => False

namespace Registry

variable {ctx : Context} {r r' : Registry} {stage : Stage} {name : AccountName}

/-- Stages without an operation leave control over accounts alone, up to the processing of
recoveries. -/
theorem Step.control_eq (h : r.Step ctx stage r') (hop : ∀ trx op, stage ≠ .operation trx op)
    (hprocessing : stage ≠ .accountRecoveryProcessing) :
    r'.owner = r.owner ∧ r'.guardians = r.guardians ∧ r'.requests = r.requests ∧
      r'.changes = r.changes ∧ r'.histories = r.histories := by
  cases stage with
  | operation trx op => exact absurd rfl (hop trx op)
  | accountRecoveryProcessing => exact absurd rfl hprocessing
  | openBlock b =>
    obtain ⟨_, rfl⟩ := h
    exact ⟨rfl, rfl, rfl, rfl, rfl⟩
  | openTransaction trx =>
    obtain ⟨_, h⟩ := h
    split_ifs at h
    · subst h
      exact ⟨rfl, rfl, rfl, rfl, rfl⟩
    · obtain ⟨_, rfl⟩ := h
      exact ⟨rfl, rfl, rfl, rfl, rfl⟩
  | _ =>
    obtain rfl : r' = _ := h
    exact ⟨rfl, rfl, rfl, rfl, rfl⟩

theorem replaceOwner_owner {account : AccountName} {old old' new : Authority} {last last' : Time}
    (haccount : r.owner account = some (old, last)) (hname : r.owner name = some (old', last')) :
    (r.replaceOwner account old new).owner name = some (old', last') ∨ account = name ∧
      (r.replaceOwner account old new).owner name = some (new, r.time) ∧
      (r.replaceOwner account old new).histories = r.histories ++ [⟨name, old', r.time⟩] := by
  by_cases heq : account = name
  · subst heq
    rw [haccount, Option.some.injEq, Prod.mk.injEq] at hname
    obtain ⟨rfl, rfl⟩ := hname
    exact .inr ⟨rfl, Function.update_self _ _ _, rfl⟩
  · exact .inl ((Function.update_of_ne (Ne.symm heq) _ _).trans hname)

theorem Step.owner {old : Authority} {last : Time} (h : r.Step ctx stage r')
    (howner : r.owner name = some (old, last)) :
    r'.owner name = some (old, last) ∨ ∃ new, r'.owner name = some (new, r.time) ∧
      ReplacesOwner name stage ∧ r'.histories = r.histories ++ [⟨name, old, r.time⟩] := by
  cases stage with
  | operation trx op =>
    obtain ⟨op, fee⟩ := op
    cases op with
    | accountCreate creator nameSeed _ _ _ _ =>
      obtain ⟨hfresh, _, rfl⟩ := h
      have hne : name ≠ ctx.env.makeRandomFixedString nameSeed := by
        rintro rfl
        rw [hfresh] at howner
        cases howner
      exact .inl ((Function.update_of_ne hne _ _).trans howner)
    | accountUpdate account owner _ _ _ =>
      cases owner with
      | none =>
        obtain rfl : r' = r := h
        exact .inl howner
      | some new =>
        obtain ⟨_, _, haccount, _, rfl⟩ := h
        exact (replaceOwner_owner haccount howner).imp_right fun ⟨hname, hnew, hhist⟩ ↦
          ⟨new, hnew, ⟨hname, rfl⟩, hhist⟩
    | accountDelete account =>
      obtain ⟨_, _, haccount, _, rfl⟩ := h
      exact (replaceOwner_owner haccount howner).imp_right fun ⟨hname, hnew, hhist⟩ ↦
        ⟨_, hnew, hname, hhist⟩
    | resetAccount resetter account new =>
      obtain ⟨_, _, _, haccount, _, rfl⟩ := h
      exact (replaceOwner_owner haccount howner).imp_right fun ⟨hname, hnew, hhist⟩ ↦
        ⟨_, hnew, hname, hhist⟩
    | recoverAccount account new recent =>
      obtain ⟨_, _, _, haccount, _, _, _, rfl⟩ := h
      exact (replaceOwner_owner haccount howner).imp_right fun ⟨hname, hnew, hhist⟩ ↦
        ⟨_, hnew, hname, hhist⟩
    | setResetAccount _ _ _ =>
      obtain ⟨_, _, _, rfl⟩ := h
      exact .inl howner
    | requestAccountRecovery _ _ _ | changeRecoveryAccount _ _ =>
      rcases h with rfl | rfl
      · exact .inl howner
      · exact .inl howner
    | _ =>
      obtain rfl : r' = r := h
      exact .inl howner
  | accountRecoveryProcessing =>
    obtain rfl : r' = r.settle := h
    exact .inl howner
  | _ => exact .inl ((congrFun (h.control_eq (by simp) (by simp)).1 name).trans howner)

theorem Step.histories (h : r.Step ctx stage r') :
    r'.histories = r.histories ∨
      (∃ name old last, r.owner name = some (old, last) ∧ ReplacesOwner name stage ∧
        r'.histories = r.histories ++ [⟨name, old, r.time⟩]) ∨
      stage = .accountRecoveryProcessing ∧ r'.histories = r.settle.histories := by
  cases stage with
  | operation trx op =>
    obtain ⟨op, fee⟩ := op
    cases op with
    | accountCreate _ _ _ _ _ _ =>
      obtain ⟨_, _, rfl⟩ := h
      exact .inl rfl
    | accountUpdate account owner _ _ _ =>
      cases owner with
      | none => exact .inl (congrArg Registry.histories h)
      | some new =>
        obtain ⟨old, last, haccount, _, rfl⟩ := h
        exact .inr (.inl ⟨account, old, last, haccount, ⟨rfl, rfl⟩, rfl⟩)
    | accountDelete account =>
      obtain ⟨old, last, haccount, _, rfl⟩ := h
      exact .inr (.inl ⟨account, old, last, haccount, rfl, rfl⟩)
    | resetAccount _ account _ =>
      obtain ⟨old, last, _, haccount, _, rfl⟩ := h
      exact .inr (.inl ⟨account, old, last, haccount, rfl, rfl⟩)
    | recoverAccount account _ _ =>
      obtain ⟨old, last, _, haccount, _, _, _, rfl⟩ := h
      exact .inr (.inl ⟨account, old, last, haccount, rfl, rfl⟩)
    | setResetAccount _ _ _ =>
      obtain ⟨_, _, _, rfl⟩ := h
      exact .inl rfl
    | requestAccountRecovery _ _ _ | changeRecoveryAccount _ _ =>
      rcases h with rfl | rfl
      · exact .inl rfl
      · exact .inl rfl
    | _ => exact .inl (congrArg Registry.histories h)
  | accountRecoveryProcessing => exact .inr (.inr ⟨rfl, congrArg Registry.histories h⟩)
  | _ => exact .inl (h.control_eq (by simp) (by simp)).2.2.2.2

theorem Step.guardians {recoverer resetter : AccountName} (h : r.Step ctx stage r')
    (hguardians : r.guardians name = some (recoverer, resetter)) :
    ∃ recoverer' resetter', r'.guardians name = some (recoverer', resetter') ∧
      (resetter' = resetter ∨ (r.guardians resetter').isSome ∧ ∃ trx fee,
        stage = .operation trx ⟨.setResetAccount name resetter resetter', fee⟩) ∧
      (recoverer' = recoverer ∨ stage = .accountRecoveryProcessing ∧
        r.due name = some recoverer') := by
  cases stage with
  | operation trx op =>
    obtain ⟨op, fee⟩ := op
    cases op with
    | setResetAccount account current new =>
      obtain ⟨recoverer', haccount, hnew, rfl⟩ := h
      by_cases hname : name = account
      · subst hname
        rw [hguardians, Option.some.injEq, Prod.mk.injEq] at haccount
        obtain ⟨rfl, rfl⟩ := haccount
        exact ⟨recoverer, new, Function.update_self _ _ _, .inr ⟨hnew, trx, fee, rfl⟩, .inl rfl⟩
      · exact ⟨recoverer, resetter, (Function.update_of_ne hname _ _).trans hguardians, .inl rfl,
          .inl rfl⟩
    | accountCreate creator nameSeed _ _ _ _ =>
      obtain ⟨_, hfresh, rfl⟩ := h
      have hne : name ≠ ctx.env.makeRandomFixedString nameSeed := by
        rintro rfl
        rw [hfresh] at hguardians
        cases hguardians
      exact ⟨recoverer, resetter, (Function.update_of_ne hne _ _).trans hguardians, .inl rfl,
        .inl rfl⟩
    | accountUpdate _ owner _ _ _ =>
      refine ⟨recoverer, resetter, ?_, .inl rfl, .inl rfl⟩
      cases owner with
      | none => exact (congrArg (fun r ↦ r.guardians name) h).trans hguardians
      | some _ =>
        obtain ⟨_, _, _, _, rfl⟩ := h
        exact hguardians
    | accountDelete _ =>
      obtain ⟨_, _, _, _, rfl⟩ := h
      exact ⟨recoverer, resetter, hguardians, .inl rfl, .inl rfl⟩
    | resetAccount _ _ _ =>
      obtain ⟨_, _, _, _, _, rfl⟩ := h
      exact ⟨recoverer, resetter, hguardians, .inl rfl, .inl rfl⟩
    | recoverAccount _ _ _ =>
      obtain ⟨_, _, _, _, _, _, _, rfl⟩ := h
      exact ⟨recoverer, resetter, hguardians, .inl rfl, .inl rfl⟩
    | requestAccountRecovery _ _ _ | changeRecoveryAccount _ _ =>
      refine ⟨recoverer, resetter, ?_, .inl rfl, .inl rfl⟩
      rcases h with rfl | rfl
      · exact hguardians
      · exact hguardians
    | _ =>
      obtain rfl : r' = r := h
      exact ⟨recoverer, resetter, hguardians, .inl rfl, .inl rfl⟩
  | accountRecoveryProcessing =>
    obtain rfl : r' = r.settle := h
    cases hdue : r.due name with
    | none =>
      refine ⟨recoverer, resetter, ?_, .inl rfl, .inl rfl⟩
      simp only [settle, hdue, hguardians]
    | some recoverer' =>
      refine ⟨recoverer', resetter, ?_, .inl rfl, .inr ⟨rfl, rfl⟩⟩
      simp only [settle, hdue, hguardians, Option.map_some]
  | _ =>
    refine ⟨recoverer, resetter, ?_, .inl rfl, .inl rfl⟩
    exact (congrFun (h.control_eq (by simp) (by simp)).2.1 name).trans hguardians

/-- Accounts appear by their creation only, with the null account as reset account. -/
theorem Step.guardians_none (h : r.Step ctx stage r') (hnone : r.guardians name = none) :
    r'.guardians name = none ∨ ∃ nameSeed recoverer, name = ctx.env.makeRandomFixedString nameSeed ∧
      r'.guardians name = some (recoverer, nullAccount) := by
  cases stage with
  | operation trx op =>
    obtain ⟨op, fee⟩ := op
    cases op with
    | accountCreate creator nameSeed _ _ _ _ =>
      obtain ⟨_, _, rfl⟩ := h
      by_cases hname : name = ctx.env.makeRandomFixedString nameSeed
      · subst hname
        exact .inr ⟨nameSeed, creator, rfl, Function.update_self _ _ _⟩
      · exact .inl ((Function.update_of_ne hname _ _).trans hnone)
    | setResetAccount account _ _ =>
      obtain ⟨_, haccount, _, rfl⟩ := h
      have hne : name ≠ account := by
        rintro rfl
        rw [hnone] at haccount
        cases haccount
      exact .inl ((Function.update_of_ne hne _ _).trans hnone)
    | accountUpdate _ owner _ _ _ =>
      refine .inl ?_
      cases owner with
      | none => exact (congrArg (fun r ↦ r.guardians name) h).trans hnone
      | some _ =>
        obtain ⟨_, _, _, _, rfl⟩ := h
        exact hnone
    | accountDelete _ =>
      obtain ⟨_, _, _, _, rfl⟩ := h
      exact .inl hnone
    | resetAccount _ _ _ =>
      obtain ⟨_, _, _, _, _, rfl⟩ := h
      exact .inl hnone
    | recoverAccount _ _ _ =>
      obtain ⟨_, _, _, _, _, _, _, rfl⟩ := h
      exact .inl hnone
    | requestAccountRecovery _ _ _ | changeRecoveryAccount _ _ =>
      rcases h with rfl | rfl
      · exact .inl hnone
      · exact .inl hnone
    | _ =>
      obtain rfl : r' = r := h
      exact .inl hnone
  | accountRecoveryProcessing =>
    obtain rfl : r' = r.settle := h
    refine .inl ?_
    simp only [settle, hnone, Option.map_none]
    cases r.due name <;> rfl
  | _ => exact .inl ((congrFun (h.control_eq (by simp) (by simp)).2.1 name).trans hnone)

theorem Step.requests {request : AccountRecoveryRequest} (h : r.Step ctx stage r')
    (hrequest : r'.requests name = some request) :
    (r.requests name = some request ∧ ¬ RequestsRecovery name stage ∧
      (stage = .accountRecoveryProcessing → r.time < request.expires)) ∨
    ∃ trx partner fee,
      stage = .operation trx ⟨.requestAccountRecovery partner name request.newOwnerAuthority, fee⟩ ∧
        request.expires = timeAdd r.time accountRecoveryRequestExpirationPeriod := by
  cases stage with
  | operation trx op =>
    obtain ⟨op, fee⟩ := op
    cases op with
    | requestAccountRecovery partner account new =>
      by_cases hname : account = name
      · subst hname
        rcases h with rfl | rfl
        · simp at hrequest
        · simp only [Function.update_self, Option.some.injEq] at hrequest
          subst hrequest
          exact .inr ⟨trx, partner, fee, rfl, rfl⟩
      · refine .inl ⟨?_, hname, by simp⟩
        rcases h with rfl | rfl
        · exact (Function.update_of_ne (Ne.symm hname) _ _).symm.trans hrequest
        · exact (Function.update_of_ne (Ne.symm hname) _ _).symm.trans hrequest
    | recoverAccount account _ _ =>
      obtain ⟨_, _, _, _, _, _, _, rfl⟩ := h
      by_cases hname : account = name
      · subst hname
        simp at hrequest
      · exact .inl ⟨(Function.update_of_ne (Ne.symm hname) _ _).symm.trans hrequest, id, by simp⟩
    | accountCreate _ _ _ _ _ _ =>
      obtain ⟨_, _, rfl⟩ := h
      exact .inl ⟨hrequest, id, by simp⟩
    | accountUpdate _ owner _ _ _ =>
      refine .inl ⟨?_, id, by simp⟩
      cases owner with
      | none => exact (congrArg (fun r ↦ r.requests name) h).symm.trans hrequest
      | some _ =>
        obtain ⟨_, _, _, _, rfl⟩ := h
        exact hrequest
    | accountDelete _ =>
      obtain ⟨_, _, _, _, rfl⟩ := h
      exact .inl ⟨hrequest, id, by simp⟩
    | resetAccount _ _ _ =>
      obtain ⟨_, _, _, _, _, rfl⟩ := h
      exact .inl ⟨hrequest, id, by simp⟩
    | setResetAccount _ _ _ =>
      obtain ⟨_, _, _, rfl⟩ := h
      exact .inl ⟨hrequest, id, by simp⟩
    | changeRecoveryAccount _ _ =>
      refine .inl ⟨?_, id, by simp⟩
      rcases h with rfl | rfl
      · exact hrequest
      · exact hrequest
    | _ =>
      obtain rfl : r' = r := h
      exact .inl ⟨hrequest, id, by simp⟩
  | accountRecoveryProcessing =>
    obtain rfl : r' = r.settle := h
    simp only [settle, Option.filter_eq_some_iff, decide_eq_true_eq] at hrequest
    exact .inl ⟨hrequest.1, id, fun _ ↦ hrequest.2⟩
  | _ =>
    refine .inl ⟨?_, id, by simp⟩
    exact (congrFun (h.control_eq (by simp) (by simp)).2.2.1 name).symm.trans hrequest

theorem Step.changes {change : ChangeRecoveryAccountRequest} (h : r.Step ctx stage r')
    (hchange : r'.changes name = some change) :
    (r.changes name = some change ∧ ¬ ChangesRecovery name stage) ∨
    ∃ trx fee,
      stage = .operation trx ⟨.changeRecoveryAccount name change.recoveryAccount, fee⟩ ∧
        change.effectiveOn = timeAdd r.time ownerAuthRecoveryPeriod := by
  cases stage with
  | operation trx op =>
    obtain ⟨op, fee⟩ := op
    cases op with
    | changeRecoveryAccount account recoverer =>
      by_cases hname : account = name
      · subst hname
        rcases h with rfl | rfl
        · simp at hchange
        · simp only [Function.update_self, Option.some.injEq] at hchange
          subst hchange
          exact .inr ⟨trx, fee, rfl, rfl⟩
      · refine .inl ⟨?_, hname⟩
        rcases h with rfl | rfl
        · exact (Function.update_of_ne (Ne.symm hname) _ _).symm.trans hchange
        · exact (Function.update_of_ne (Ne.symm hname) _ _).symm.trans hchange
    | recoverAccount _ _ _ =>
      obtain ⟨_, _, _, _, _, _, _, rfl⟩ := h
      exact .inl ⟨hchange, id⟩
    | accountCreate _ _ _ _ _ _ =>
      obtain ⟨_, _, rfl⟩ := h
      exact .inl ⟨hchange, id⟩
    | accountUpdate _ owner _ _ _ =>
      refine .inl ⟨?_, id⟩
      cases owner with
      | none => exact (congrArg (fun r ↦ r.changes name) h).symm.trans hchange
      | some _ =>
        obtain ⟨_, _, _, _, rfl⟩ := h
        exact hchange
    | accountDelete _ =>
      obtain ⟨_, _, _, _, rfl⟩ := h
      exact .inl ⟨hchange, id⟩
    | resetAccount _ _ _ =>
      obtain ⟨_, _, _, _, _, rfl⟩ := h
      exact .inl ⟨hchange, id⟩
    | setResetAccount _ _ _ =>
      obtain ⟨_, _, _, rfl⟩ := h
      exact .inl ⟨hchange, id⟩
    | requestAccountRecovery _ _ _ =>
      refine .inl ⟨?_, id⟩
      rcases h with rfl | rfl
      · exact hchange
      · exact hchange
    | _ =>
      obtain rfl : r' = r := h
      exact .inl ⟨hchange, id⟩
  | accountRecoveryProcessing =>
    obtain rfl : r' = r.settle := h
    simp only [settle, Option.filter_eq_some_iff] at hchange
    exact .inl ⟨hchange.1, id⟩
  | _ =>
    refine .inl ⟨?_, id⟩
    exact (congrFun (h.control_eq (by simp) (by simp)).2.2.2.1 name).symm.trans hchange

end Registry

end SophiaTX.Chain
