import Sand.Paths.Liquidity

/-!
# Payments over several paths

Each pass applies the best increment of a path that still has liquidity.
-/

namespace Sand

open Evolution View.Evolves PathCursor

namespace LedgerM

variable {E : Evolution} {α : Type}

/-- Evaluates candidates and applies the chosen one's sandbox. -/
def applyChosen (f : View → Except Fault (α × Option View))
    (h : ∀ v a c, f v = .ok (a, some c) → View.Evolves E v.paymentSandbox c) : LedgerM E α where
  run v :=
    match f v with
    | .error fault => (.error fault, v)
    | .ok (a, none) => (.ok a, v)
    | .ok (a, some c) =>
      match c.applyTo v with
      | .error fault => (.error fault, v)
      | .ok v' => (.ok a, v')
  mono v := by
    cases hf : f v with
    | error fault => exact refl E v
    | ok result =>
      obtain ⟨a, chosen⟩ := result
      cases chosen with
      | none => exact refl E v
      | some c =>
        cases hap : c.applyTo v with
        | error fault => simpa only [hap] using refl E v
        | ok v' =>
          simpa only [hap] using
            View.evolves_applyTo (View.openedOn_paymentSandbox v) (h v a c hf) hap

end LedgerM

namespace RippleCalc

structure Input where
  partialPaymentAllowed : Bool
  defaultPathsAllowed : Bool
  limitQuality : Bool
  isLedgerOpen : Bool

/-- What passes between the passes of a payment. -/
structure Progress where
  paths : List PathState
  actualAmountIn : STAmount
  actualAmountOut : STAmount
  mumSource : AccountIssueToNodeIndex := []
  permanentlyUnfunded : List Key := []
  unfundedFromBest : List Key := []

def PAYMENT_MAX_LOOPS : Nat := 1000

/-! ## One pass -/

/-- A path's increment, with its sandbox. -/
structure Candidate (v : View) where
  path : PathState
  view : View
  evolves : View.Evolves transfer v.paymentSandbox view

/-- The path, of quality zero if dry, and the unfunded offers. -/
def nextIncrement (v : View) (multiQuality : Bool) (path : PathState)
    (mumSource : AccountIssueToNodeIndex) (unfunded : List Key) :
    Except Fault (Candidate v × List Key) :=
  let count := path.nodes.length
  match (reversePass multiQuality count).run
      ⟨v.paymentSandbox, path, mumSource, unfunded⟩ with
  | (.error fault, _) => .error fault
  | (.ok ter, s) =>
    if ter ≠ .tesSUCCESS then
      .ok (⟨{ s.path with quality := 0, status := ter }, v.paymentSandbox,
        refl _ _⟩, s.permanentlyUnfunded)
    else
      let start : Calc := { s with view := v.paymentSandbox }
      let outcome := (forwardPass multiQuality 0 count).run start
      have he : View.Evolves transfer v.paymentSandbox outcome.2.view :=
        (forwardPass multiQuality 0 count).mono start
      match outcome.1 with
      | .error fault => .error fault
      | .ok ter =>
        let path := outcome.2.path
        let unfunded := outcome.2.permanentlyUnfunded
        if ter ≠ .tesSUCCESS then
          .ok (⟨{ path with quality := 0, status := ter }, outcome.2.view, he⟩, unfunded)
        else if path.isDry then
          .error .exception
        else
          let quality := STAmount.getRate path.outPass path.inPass
          .ok (⟨{ path with quality := quality, status := ter }, outcome.2.view, he⟩, unfunded)

structure Race (v : View) where
  /-- The paths already looked at. -/
  done : List PathState := []
  best : Option (Candidate v) := none
  dry : Nat := 0
  multiQuality : Bool := false
  unfunded : List Key

def better {v : View} (best : Option (Candidate v)) (path : PathState) : Except Fault Bool :=
  match best with
  | none => .ok true
  | some candidate => candidate.path.lessPriority path

def race (v : View) (input : Input) (progress : Progress) (qualityLimit : UInt64) :
    List PathState → Race v → Except Fault (Race v)
  | [], race => .ok race
  | path :: rest, current => do
    if path.quality = 0 then
      race v input progress qualityLimit rest { current with done := current.done ++ [path] }
    else
      let multiQuality := decide (progress.paths.length - current.dry = 1)
      let path := path.reset progress.actualAmountIn progress.actualAmountOut
      let (candidate, unfunded) ←
        nextIncrement v multiQuality path progress.mumSource current.unfunded
      let path := candidate.path
      let current := { current with multiQuality := multiQuality, unfunded := unfunded }
      if path.quality = 0 ∨ path.outPass.isZero then
        race v input progress qualityLimit rest
          { current with
            done := current.done ++ [{ path with quality := 0 }]
            dry := current.dry + 1 }
      else
        let allowed := !input.limitQuality || decide (path.quality ≤ qualityLimit)
        let best ← if allowed then better current.best path else pure false
        race v input progress qualityLimit rest
          { current with
            done := current.done ++ [path]
            best := if best then some candidate else current.best }

/-- A pass's result and, if not the last, the next start. -/
structure PassResult where
  ter : Option TER
  progress : Progress

variable (input : Input)

def afterBest {v : View} (maxIn dstOut : STAmount) (iPass : Nat)
    (progress : Progress) (current : Race v) (best : PathState) : Except Fault PassResult := do
  let actualAmountIn ← progress.actualAmountIn.add best.inPass
  let actualAmountOut ← progress.actualAmountOut.add best.outPass
  let dry := if current.multiQuality then current.dry + 1 else current.dry
  let paths := current.done.map fun path =>
    if path.index = best.index ∧ current.multiQuality then { path with quality := 0 } else path
  let next : Progress :=
    { progress with
      paths := paths
      actualAmountIn := actualAmountIn
      actualAmountOut := actualAmountOut
      permanentlyUnfunded := current.unfunded
      unfundedFromBest := progress.unfundedFromBest ++
        best.unfundedOffers.filter (· ∉ progress.unfundedFromBest) }
  if actualAmountOut.same dstOut then
    return ⟨some .tesSUCCESS, next⟩
  else if ← dstOut.lt actualAmountOut then
    return ⟨some .tefEXCEPTION, next⟩
  else if !actualAmountIn.same maxIn && dry != paths.length then
    let mumSource := best.reverse.foldl
      (fun map entry => map.insert entry.1.1 entry.1.2 entry.2) progress.mumSource
    let next := { next with mumSource := mumSource }
    return ⟨if PAYMENT_MAX_LOOPS ≤ iPass then some .telFAILED_PROCESSING else none, next⟩
  else if input.partialPaymentAllowed then
    return ⟨some .tesSUCCESS, next⟩
  else
    return ⟨some .tecPATH_PARTIAL, next⟩

def outOfPaths (actualAmountOut : STAmount) : TER :=
  if !input.partialPaymentAllowed then .tecPATH_PARTIAL
  else if actualAmountOut.isZero then .tecPATH_DRY
  else .tesSUCCESS

/-- One pass on a view, with the sandbox to apply. -/
def passOn (maxIn dstOut : STAmount) (qualityLimit : UInt64) (iPass : Nat)
    (progress : Progress) (v : View) : Except Fault (PassResult × Option (Candidate v)) := do
  let start : Race v := { unfunded := progress.permanentlyUnfunded }
  let current ← race v input progress qualityLimit progress.paths start
  match current.best with
  | none =>
    let next := { progress with
      paths := current.done
      permanentlyUnfunded := current.unfunded }
    return (⟨some (outOfPaths input progress.actualAmountOut), next⟩, none)
  | some best =>
    return (← afterBest input maxIn dstOut iPass progress current best.path, some best)

def pass (maxIn dstOut : STAmount) (qualityLimit : UInt64) (iPass : Nat)
    (progress : Progress) : LedgerM transfer PassResult :=
  LedgerM.applyChosen
    (fun v => (passOn input maxIn dstOut qualityLimit iPass progress v).map fun result =>
      (result.1, result.2.map Candidate.view))
    (by
      intro v a c h
      cases hp : passOn input maxIn dstOut qualityLimit iPass progress v with
      | error fault => simp [hp, Except.map] at h
      | ok result =>
        obtain ⟨passed, chosen⟩ := result
        simp only [hp, Except.map, Except.ok.injEq, Prod.mk.injEq, Option.map_eq_some_iff] at h
        obtain ⟨_, candidate, _, rfl⟩ := h
        exact candidate.evolves)

def passes (input : Input) (maxIn dstOut : STAmount) (qualityLimit : UInt64) :
    Nat → Progress → LedgerM transfer (TER × Progress)
  | 0, progress => return (.telFAILED_PROCESSING, progress)
  | left + 1, progress => do
    let result ← pass input maxIn dstOut qualityLimit (PAYMENT_MAX_LOOPS - left) progress
    match result.ter with
    | some ter => return (ter, result.progress)
    | none => passes input maxIn dstOut qualityLimit left result.progress

/-! ## The payment -/

def checkedPath (v : View) (maxIn dstOut : STAmount) (dst src : AccountID)
    (source : List STPathElement) : Except Fault PathState := do
  let path ← PathState.expandPath v { inReq := maxIn, outReq := dstOut } source dst src
  let path := if path.status = .tesSUCCESS then
    { path with status := path.checkNoRipple v dst src } else path
  return if path.status = .tesSUCCESS then { path with status := path.checkFreeze v } else path

def addPathState (v : View) (maxIn dstOut : STAmount) (dst src : AccountID)
    (source : List STPathElement) (result : TER) (paths : List PathState) :
    Except Fault (TER × List PathState × Bool) := do
  let path := { ← checkedPath v maxIn dstOut dst src source with index := paths.length }
  if path.status.isTemMalformed then
    return (path.status, paths, false)
  else if path.status = .tesSUCCESS then
    return (.tesSUCCESS, paths ++ [path], true)
  else
    return (if path.status = .terNO_LINE then result else path.status, paths, true)

def addPathStates (v : View) (maxIn dstOut : STAmount) (dst src : AccountID) :
    List (List STPathElement) → TER → List PathState → Except Fault (TER × List PathState × Bool)
  | [], result, paths => .ok (result, paths, true)
  | source :: rest, result, paths => do
    let (result, paths, go) ← addPathState v maxIn dstOut dst src source result paths
    if go then addPathStates v maxIn dstOut dst src rest result paths
    else return (result, paths, false)

def deleteOffers : List Key → LedgerM transfer TER
  | [] => return .tesSUCCESS
  | .offer owner sequence :: rest => do
    match ← LedgerM.peek (.offer owner sequence) with
    | none => deleteOffers rest
    | some offer =>
      let result ← offerDelete owner sequence offer
      if result ≠ .tesSUCCESS then return result else deleteOffers rest
  | _ :: rest => deleteOffers rest

def pathSources (spsPaths : List (List STPathElement)) :
    List (List STPathElement) :=
  if input.defaultPathsAllowed then [] :: spsPaths else spsPaths

def beforeLoop (maxIn dstOut : STAmount) (dst src : AccountID)
    (spsPaths : List (List STPathElement)) (v : View) : Except Fault (TER ⊕ List PathState) := do
  if !input.defaultPathsAllowed && spsPaths.isEmpty then
    return .inl .temRIPPLE_EMPTY
  let (result, paths, go) ←
    addPathStates v maxIn dstOut dst src (pathSources input spsPaths) .temUNCERTAIN []
  if !go then
    return .inl result
  if result ≠ .tesSUCCESS then
    return .inl (if result = .temUNCERTAIN then .terNO_LINE else result)
  return .inr paths

def incrementLoop (maxIn dstOut : STAmount) (paths : List PathState) :
    LedgerM transfer (TER × STAmount) := do
  let qualityLimit := if input.limitQuality then STAmount.getRate dstOut maxIn else 0
  let (result, progress) ← passes input maxIn dstOut qualityLimit PAYMENT_MAX_LOOPS
    { paths := paths, actualAmountIn := maxIn.zeroed, actualAmountOut := dstOut.zeroed }
  if result = .tefEXCEPTION then
    return (result, progress.actualAmountOut)
  let result ← if result = .tesSUCCESS then do
      let result ← deleteOffers progress.unfundedFromBest
      if result = .tesSUCCESS then deleteOffers progress.permanentlyUnfunded else pure result
    else pure result
  let result := if result = .telFAILED_PROCESSING && !input.isLedgerOpen then
    TER.tecFAILED_PROCESSING else result
  return (result, progress.actualAmountOut)

def rippleCalculate (maxIn dstOut : STAmount) (dst src : AccountID)
    (spsPaths : List (List STPathElement)) : LedgerM transfer (TER × STAmount) := do
  match ← LedgerM.query (beforeLoop input maxIn dstOut dst src spsPaths) with
  | .inl result => return (result, .zeroDrops)
  | .inr paths => incrementLoop input maxIn dstOut paths

end RippleCalc

end Sand
