import Sand.Paths.RippleCalc

/-!
# The paths of a payment

Before the first increment is computed, every path of a payment is expanded and checked.
-/

namespace Sand

open List PathState Bool

namespace RippleCalc

/-! ## The result so far -/

theorem result_eq_getLast? (result : TER) (sts : List TER) :
    sts.foldl (fun result status => if status = .terNO_LINE then result else status) result =
      (sts.filter (· ≠ .terNO_LINE)).getLast?.getD result := by
  induction sts generalizing result with
  | nil => rfl
  | cons status rest ih =>
    rw [foldl_cons, ih]
    by_cases hli : status = .terNO_LINE
    · simp [hli]
    · simp [hli, List.getLast?_cons]

variable (checked : List PathState)

def successful : List PathState :=
  (checked.filter fun path => path.status = .tesSUCCESS).mapIdx fun i path =>
    { path with index := i }

theorem successful_concat (path : PathState) : successful (checked ++ [path]) =
      if path.status = .tesSUCCESS then
        successful checked ++ [{ path with index := (successful checked).length }]
      else successful checked := by
  unfold successful
  split
  · next hst => simp [hst]
  · next hst => simp [hst]

variable {maxIn dstOut : STAmount} {dst src : AccountID}

theorem addPathState_of_checked {v : View} {sc : List STPathElement} {path : PathState}
    (hpa : checkedPath v maxIn dstOut dst src sc = .ok path)
    (hf : path.status.isTemMalformed = false) (res : TER) (ckd : List PathState) :
    addPathState v maxIn dstOut dst src sc res (successful ckd) =
      .ok (if path.status = .terNO_LINE then res else path.status,
        successful (ckd ++ [path]), true) := by
  have hsp : addPathState v maxIn dstOut dst src sc res (successful ckd) =
      (checkedPath v maxIn dstOut dst src sc).bind fun path =>
        if path.status.isTemMalformed then .ok (path.status, successful ckd, false)
        else if path.status = .tesSUCCESS then
          .ok (.tesSUCCESS, successful ckd ++
            [{ path with index := (successful ckd).length }], true)
        else .ok (if path.status = .terNO_LINE then res else path.status,
          successful ckd, true) := by
    unfold addPathState
    cases checkedPath v maxIn dstOut dst src sc <;> rfl
  rw [hsp, hpa, successful_concat]
  by_cases hsu : path.status = .tesSUCCESS
  · rw [hsu] at hf
    simp [Except.bind, hf, hsu]
  · simp [Except.bind, hf, hsu]

theorem addPathStates_of_checked {v : View}
    {sources : List (List STPathElement)} {ckd : List PathState}
    (hc : sources.mapM (checkedPath v maxIn dstOut dst src) = .ok ckd)
    (hf : ∀ path ∈ ckd, path.status.isTemMalformed = false) (res : TER)
    (bef : List PathState) :
    addPathStates v maxIn dstOut dst src sources res (successful bef) =
      .ok (((ckd.map status).filter (· ≠ .terNO_LINE)).getLast?.getD res,
        successful (bef ++ ckd), true) := by
  rw [← result_eq_getLast?]
  induction sources generalizing ckd res bef with
  | nil =>
    cases hc
    simp [addPathStates]
  | cons source rest ih =>
    rw [mapM_cons] at hc
    cases hpa : checkedPath v maxIn dstOut dst src source with
    | error fault =>
      rw [hpa] at hc
      cases hc
    | ok path =>
      cases hpt : rest.mapM (checkedPath v maxIn dstOut dst src) with
      | error fault =>
        rw [hpa, hpt] at hc
        cases hc
      | ok paths =>
        rw [hpa, hpt] at hc
        cases hc
        have hfs := addPathState_of_checked hpa (hf path mem_cons_self) res bef
        have hrs := ih hpt (fun p hp => hf p (mem_cons_of_mem _ hp))
          (if path.status = .terNO_LINE then res else path.status) (bef ++ [path])
        rw [addPathStates, hfs]
        simpa [bind, Except.bind] using hrs

/-- If every path has a status, and none is malformed, the loop starts with exactly the successful
paths if and only if the last path that does not just lack a line is one of them. -/
theorem starts_with_successful_iff (input : Input) (maxIn dstOut : STAmount) (dst src : AccountID)
    (spsPaths : List (List STPathElement)) (v : View) (checked : List PathState)
    (hc : (pathSources input spsPaths).mapM (checkedPath v maxIn dstOut dst src) =
      .ok checked) (hf : ∀ path ∈ checked, path.status.isTemMalformed = false)
    (hso : ∃ path ∈ checked, path.status = .tesSUCCESS) :
    (rippleCalculate input maxIn dstOut dst src spsPaths =
      LedgerM.query (beforeLoop input maxIn dstOut dst src spsPaths) >>= fun start =>
        match start with
        | .inl result => pure (result, .zeroDrops)
        | .inr paths => incrementLoop input maxIn dstOut paths) ∧
    (beforeLoop input maxIn dstOut dst src spsPaths v = .ok (.inr (successful checked)) ↔
      ((checked.map status).filter (· ≠ .terNO_LINE)).getLast? = some .tesSUCCESS) := by
  refine ⟨rfl, ?_⟩
  have ha := addPathStates_of_checked hc hf .temUNCERTAIN []
  have hsr : (!input.defaultPathsAllowed && spsPaths.isEmpty) = false := by
    by_contra he
    simp only [not_eq_false, and_eq_true, not_eq_true', List.isEmpty_iff] at he
    obtain ⟨path, hpa, -⟩ := hso
    simp only [pathSources, he] at hc
    cases hc
    cases hpa
  rw [show successful [] = [] from rfl, List.nil_append] at ha
  rw [beforeLoop, hsr, ha]
  cases ((checked.map status).filter (· ≠ .terNO_LINE)).getLast? with
  | none => simp [bind, Except.bind, pure, Except.pure]
  | some last =>
    by_cases hl : last = .tesSUCCESS
    · simp [bind, Except.bind, pure, Except.pure, hl]
    · simp [bind, Except.bind, pure, Except.pure, hl]

def dollars (issuer : AccountID) (units : UInt64) : STAmount :=
  ⟨⟨5, issuer⟩, units * 1000000000000000, -15, false⟩

/-- Accounts 2 and 3 have lines with account 1, of nine dollars and of none. -/
def hopLedger : Ledger :=
  AList.insert (.rippleState 1 3 5)
      { balance := .zeroOf ⟨5, 0⟩, lowLimit := .zeroOf ⟨5, 1⟩, highLimit := .zeroOf ⟨5, 3⟩ }
    (AList.insert (.rippleState 1 2 5)
        { balance := .zeroOf ⟨5, 0⟩, lowLimit := .zeroOf ⟨5, 1⟩, highLimit := dollars 2 9 }
      (AList.insert (.account 3) { balance := .ofDrops 1000 }
        (AList.insert (.account 2) { balance := .ofDrops 1000 }
          (AList.insert (.account 1) { balance := .ofDrops 1000 } ∅))))

def hopView : View where
  context := ⟨⟨true, 2, 0⟩, ⟨10, 10, 200, 50⟩, 0, []⟩
  base := hopLedger
  items := ∅
  dropsCreated := 0
  dropsDestroyed := 0
  tab := none
  parents := []

def hopInput : Input where
  partialPaymentAllowed := false
  defaultPathsAllowed := true
  limitQuality := false
  isLedgerOpen := true

/-- The default path, and one through another account. -/
def hopPaths (through : AccountID) : List (List STPathElement) :=
  pathSources hopInput [[⟨typeAccount, through, 0, 0⟩]]

/-- There is no line to account 4, yet the default path is taken. -/
theorem hop_without_line_starts : ∃ checked,
    (hopPaths 4).mapM (checkedPath hopView (dollars 1 4) (dollars 2 4) 2 1) = .ok checked ∧
    checked.map status = [.tesSUCCESS, .terNO_LINE] ∧
    beforeLoop hopInput (dollars 1 4) (dollars 2 4) 2 1 [[⟨typeAccount, 4, 0, 0⟩]] hopView =
      .ok (.inr (successful checked)) := by
  obtain ⟨checked, hc, hs⟩ := exists_ok_of_toOption_map
    (show ((hopPaths 4).mapM (checkedPath hopView (dollars 1 4) (dollars 2 4) 2 1)).toOption.map
      (List.map status) = some [.tesSUCCESS, .terNO_LINE] by decide +kernel)
  have hf : ∀ path ∈ checked, path.status.isTemMalformed = false := by
    intro path hpa
    have hm := mem_map_of_mem (f := status) hpa
    rw [hs] at hm
    have hal : ∀ status ∈ [TER.tesSUCCESS, .terNO_LINE], status.isTemMalformed = false := by decide
    exact hal _ hm
  have hso : ∃ path ∈ checked, path.status = .tesSUCCESS := by
    have hm : TER.tesSUCCESS ∈ checked.map status := by simp [hs]
    exact mem_map.mp hm
  refine ⟨checked, hc, hs, ?_⟩
  refine (starts_with_successful_iff hopInput (dollars 1 4) (dollars 2 4) 2 1 _ hopView checked
    hc hf hso).2.mpr ?_
  rw [hs]
  decide

/-- Account 3 extends no credit, and the payment fails. -/
theorem dry_hop_blocks : ∃ checked,
    (hopPaths 3).mapM (checkedPath hopView (dollars 1 4) (dollars 2 4) 2 1) = .ok checked ∧
    checked.map status = [.tesSUCCESS, .tecPATH_DRY] ∧
    beforeLoop hopInput (dollars 1 4) (dollars 2 4) 2 1 [[⟨typeAccount, 3, 0, 0⟩]] hopView ≠
      .ok (.inr (successful checked)) ∧
    ((rippleCalculate hopInput (dollars 1 4) (dollars 2 4) 2 1 [[⟨typeAccount, 3, 0, 0⟩]]).run
      hopView).1.toOption.map Prod.fst = some .tecPATH_DRY := by
  obtain ⟨checked, hc, hs⟩ := exists_ok_of_toOption_map
    (show ((hopPaths 3).mapM (checkedPath hopView (dollars 1 4) (dollars 2 4) 2 1)).toOption.map
      (List.map status) = some [.tesSUCCESS, .tecPATH_DRY] by decide +kernel)
  refine ⟨checked, hc, hs, ?_, by decide +kernel⟩
  intro hsa
  have hle : (beforeLoop hopInput (dollars 1 4) (dollars 2 4) 2 1
      [[⟨typeAccount, 3, 0, 0⟩]] hopView).toOption.map Sum.isLeft = some true := by
    decide +kernel
  rw [hsa] at hle
  cases hle

end RippleCalc

end Sand
