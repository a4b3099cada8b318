import Sand.Ledger.Transfer

/-!
# Directories

Paged lists of entry indexes: owner directories, and the offers of one quality.
-/

namespace Sand

open LedgerM Evolution

def dirNodeMax : Nat := 32

def dirAdd (root : DirRoot) (entry : Key) : LedgerM transfer (TER × UInt64) := do
  let append (page : UInt64) (indexes : List Key) : LedgerM transfer (TER × UInt64) := do
    alterDir root page fun node => { node with indexes := indexes ++ [entry] }
    return (.tesSUCCESS, page)
  match ← peek (.dir root 0) with
  | none =>
    insertDir root 0 {}
    append 0 []
  | some sleRoot =>
    -- without a link to the last page the root is the last page
    let last := sleRoot.indexPrevious
    let sleNode ← if last = 0 then pure sleRoot else deref (← peek (.dir root last))
    if sleNode.indexes.length ≠ dirNodeMax then
      update (.dir root last)
      append last sleNode.indexes
    else if last + 1 = 0 then
      return (.tecDIR_FULL, 0)
    else
      let page := last + 1
      alterDir root last fun node => { node with indexNext := page }
      update (.dir root last)
      alterDir root 0 fun node => { node with indexPrevious := page }
      update (.dir root 0)
      insertDir root page { indexPrevious := if page = 1 then 0 else page - 1 }
      append page []

def removeIndex (indexes : List Key) (entry : Key) (stable : Bool) : List Key :=
  if stable then
    indexes.erase entry
  else
    -- the last entry takes the place of the removed one
    match indexes.getLast? with
    | none => []
    | some last => (indexes.set (indexes.idxOf entry) last).dropLast

/-- Removes empty pages, where the links allow it. -/
def dirPrune (root : DirRoot) (page : UInt64) (keepRoot : Bool) (node : DirNode) :
    LedgerM transfer TER := do
  let previous := node.indexPrevious
  let next := node.indexNext
  if page = 0 then
    if previous = 0 then
      eraseDir root 0
    else if !keepRoot && previous = next then
      let sleLast ← deref (← peek (.dir root next))
      if sleLast.indexes.isEmpty then
        eraseDir root 0
        eraseDir root next
    return .tesSUCCESS
  else if next ≠ 0 then
    match ← peek (.dir root previous), ← peek (.dir root next) with
    | some _, some _ =>
      alterDir root previous fun node => { node with indexNext := next }
      update (.dir root previous)
      alterDir root next fun node => { node with indexPrevious := previous }
      update (.dir root next)
      eraseDir root page
      return .tesSUCCESS
    | _, _ => return .tefBAD_LEDGER
  else if keepRoot || previous ≠ 0 then
    return .tesSUCCESS
  else
    let sleRoot ← deref (← peek (.dir root 0))
    if sleRoot.indexes.isEmpty then
      eraseDir root 0
      eraseDir root page
    return .tesSUCCESS

/-- With `soft` from one of the twenty pages after it. -/
def dirDeleteFrom (keepRoot : Bool) (root : DirRoot) (entry : Key) (stable : Bool) :
    Nat → UInt64 → Bool → LedgerM transfer TER
  | 0, _, _ => return .tefBAD_LEDGER
  | tries + 1, page, soft => do
    match ← peek (.dir root page) with
    | none =>
      if soft && decide (page < 20) then
        dirDeleteFrom keepRoot root entry stable tries (page + 1) true
      else
        return .tefBAD_LEDGER
    | some node =>
      if entry ∉ node.indexes then
        if soft && decide (page < 20) then
          dirDeleteFrom keepRoot root entry stable tries (page + 1) true
        else
          return .tefBAD_LEDGER
      else
        let indexes := if 1 < node.indexes.length then
          removeIndex node.indexes entry stable else []
        alterDir root page fun node => { node with indexes := indexes }
        update (.dir root page)
        if indexes.isEmpty then
          dirPrune root page keepRoot node
        else
          return .tesSUCCESS

def dirDelete (keepRoot : Bool) (page : UInt64) (root : DirRoot) (entry : Key) (stable soft : Bool) :
    LedgerM transfer TER :=
  dirDeleteFrom keepRoot root entry stable 21 page soft

def View.dirIsEmpty (v : View) (root : DirRoot) : Bool :=
  match v.get (.dir root 0) with
  | none => true
  | some node => node.indexes.isEmpty && node.indexNext == 0

/-- An entry, the end, or a missing page. -/
inductive DirStep where
  | found (page : UInt64) (entry : Nat) (index : Key)
  | exhausted (page : UInt64) (entry : Nat)
  | corrupt (page : UInt64)

def View.dirNextFrom (v : View) (root : DirRoot) : Nat → UInt64 → Nat → Except Fault DirStep
  | 0, _, _ => .error .crash
  | pages + 1, page, entry =>
    match v.get (.dir root page) with
    | none => .error .crash
    | some node =>
      match node.indexes[entry]? with
      | some index => .ok (.found page (entry + 1) index)
      | none =>
        if node.indexNext = 0 then
          .ok (.exhausted page entry)
        else if (v.get (.dir root node.indexNext)).isNone then
          .ok (.corrupt page)
        else
          dirNextFrom v root pages node.indexNext 0

def View.dirNext (v : View) (root : DirRoot) (page : UInt64) (entry : Nat) : Except Fault DirStep :=
  v.dirNextFrom root (v.flatten.keys.length + 1) page entry

end Sand
