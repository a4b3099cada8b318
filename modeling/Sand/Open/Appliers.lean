import Sand.Open.OpenLedger

/-!
# Two appliers of transaction sets

Consensus and the open ledger apply transactions in loops that were written twice.
-/

namespace Sand

open OpenLedger (Result LEDGER_TOTAL_PASSES LEDGER_RETRY_PASSES)
open Prod
open CanonicalTXSet
open List

section Loops

variable {m : Type → Type} [Monad m] {σ : Type} (attempt : σ → STTx → Bool → m (σ × Result))

namespace LedgerConsensus

def applyItems (checkLedger : List UInt256) :
    List (UInt256 × Option STTx) → σ → CanonicalTXSet → m (σ × CanonicalTXSet)
  | [], view, retriable => pure (view, retriable)
  | (key, txn) :: items, view, retriable =>
    if key ∈ checkLedger then
      applyItems checkLedger items view retriable
    else
      match txn with
      | none => applyItems checkLedger items view retriable
      | some txn => do
        let (view, result) ← attempt view txn true
        if result = .retry then
          applyItems checkLedger items view (retriable.insert txn)
        else
          applyItems checkLedger items view retriable

/-- One pass, from an iterator that has gone over `kept`. -/
def retryLoop (certainRetry : Bool) : (kept : List STTx) → (changes : Nat) → List STTx → σ →
    m (σ × List STTx × Nat)
  | kept, changes, [], view => pure (view, kept, changes)
  | kept, changes, txn :: rest, view => do
    let (view, result) ← attempt view txn certainRetry
    match result with
    | .success => retryLoop certainRetry kept (changes + 1) rest view
    | .failure => retryLoop certainRetry kept changes rest view
    | .retry => retryLoop certainRetry (kept ++ [txn]) changes rest view

/-- From number `pass` on, `remaining` of them. -/
def passLoop : (remaining pass : Nat) → (certainRetry : Bool) → σ → List STTx →
    m (σ × List STTx × Nat)
  | 0, pass, _, view, txs => pure (view, txs, pass)
  | remaining + 1, pass, certainRetry, view, txs => do
    let (view, txs, changes) ← retryLoop attempt certainRetry [] 0 txs view
    if changes = 0 ∧ certainRetry = false then
      pure (view, txs, pass + 1)
    else if changes = 0 ∨ LEDGER_RETRY_PASSES ≤ pass then
      passLoop remaining (pass + 1) false view txs
    else
      passLoop remaining (pass + 1) certainRetry view txs

/-- The set need not be there. -/
def applySet (checkLedger : List UInt256) (set : Option (List (UInt256 × Option STTx))) (view : σ)
    (retriable : CanonicalTXSet) : m (σ × CanonicalTXSet) :=
  match set with
  | none => pure (view, retriable)
  | some items => applyItems attempt checkLedger items view retriable

def applyTransactions (set : Option (List (UInt256 × Option STTx))) (view : σ)
    (checkLedger : List UInt256) (retriable : CanonicalTXSet) : m (σ × CanonicalTXSet × Nat) := do
  let (view, retriable) ← applySet attempt checkLedger set view retriable
  let (view, left, passes) ← passLoop attempt LEDGER_TOTAL_PASSES 0 true view retriable.txs
  pure (view, { retriable with txs := left }, passes)

end LedgerConsensus

end Loops

/-! ## The two loops agree -/

section Agreement

variable {m : Type → Type} [Monad m] [LawfulMonad m] {σ : Type}
  (attempt : σ → STTx → Bool → m (σ × Result))

namespace LedgerConsensus

open OpenLedger

omit [LawfulMonad m] in
theorem applyItems_eq {chk : List UInt256} {its : List (UInt256 × Option STTx)}
    (hks : ∀ key tx, (key, some tx) ∈ its → tx.transactionID = key) (view : σ)
    (retries : CanonicalTXSet) :
    applyItems attempt chk its view retries =
      applyNewWith attempt chk (its.map snd) view retries := by
  induction its generalizing view retries with
  | nil => rfl
  | cons item its ih =>
    obtain ⟨key, txn⟩ := item
    have hrs := ih fun key tx hm => hks key tx (mem_cons_of_mem _ hm)
    cases txn with
    | none => simp [applyItems, applyNewWith, hrs]
    | some tx =>
      obtain rfl := hks key tx mem_cons_self
      simp only [applyItems, map_cons, applyNewWith, hrs]
      split
      · rfl
      · refine bind_congr fun outcome => ?_
        split <;> rfl

theorem retryLoop_eq (rt : Bool) (kept : List STTx) (chgs : Nat) (txs : List STTx) (view : σ) :
    retryLoop attempt rt kept chgs txs view =
      (fun pass => (pass.1, kept ++ pass.2.1, chgs + pass.2.2)) <$>
        applyPassWith attempt rt txs view := by
  induction txs generalizing kept chgs view with
  | nil => simp [retryLoop, applyPassWith]
  | cons tx txs ih =>
    rw [retryLoop, applyPassWith, map_bind]
    refine bind_congr fun outcome => ?_
    obtain ⟨view1, result⟩ := outcome
    cases result with
    | success => simp [ih, Nat.add_comm, Nat.add_left_comm]
    | failure | retry => simp [ih]

theorem passLoop_eq (rem pass : Nat) (rt : Bool) (view : σ) (txs : List STTx) :
    (fun left => (left.1, left.2.1)) <$> passLoop attempt rem pass rt view txs =
      applyPassesWith attempt rem pass rt view txs := by
  induction rem generalizing pass rt view txs with
  | zero => simp [passLoop, applyPassesWith]
  | succ rem ih =>
    rw [passLoop, applyPassesWith, retryLoop_eq, map_bind, bind_map_left]
    refine bind_congr fun result => ?_
    obtain ⟨view1, left, changes⟩ := result
    simp only [nil_append, Nat.zero_add]
    by_cases hd : changes = 0 ∧ rt = false
    · simp [hd]
    have hgo : (decide (changes = 0) && !rt) = false := by
      simpa using hd
    rw [if_neg hd, hgo]
    by_cases hso : changes = 0 ∨ LEDGER_RETRY_PASSES ≤ pass
    · simp [hso, ih]
    · simp [hso, ih]

/-- They leave the same view and the same retries. -/
theorem applyTransactions_eq (chk : List UInt256) {set : Option (List (UInt256 × Option STTx))}
    (hks : ∀ items ∈ set, ∀ key tx, (key, some tx) ∈ items → tx.transactionID = key) (view : σ)
    (retries : CanonicalTXSet) :
    (fun left => (left.1, left.2.1)) <$> applyTransactions attempt set view chk retries =
      applyAllWith attempt chk ((set.getD []).map snd) view retries := by
  have hse : applySet attempt chk set view retries =
      applyNewWith attempt chk ((set.getD []).map snd) view retries := by
    cases set with
    | none => rfl
    | some items => exact applyItems_eq attempt (hks items rfl) view retries
  rw [applyTransactions, applyAllWith, hse, map_bind]
  refine bind_congr fun start => ?_
  obtain ⟨view1, retries1⟩ := start
  dsimp only
  rw [← passLoop_eq]
  simp

end LedgerConsensus

end Agreement

/-! ## The order of the retries -/

namespace CanonicalTXSet

variable {a b c : UInt256 × UInt32 × UInt256}

theorem keyLt_iff :
    keyLt a b ↔ a.1.toNat < b.1.toNat ∨ (a.1.toNat = b.1.toNat ∧ (a.2.1.toNat < b.2.1.toNat ∨
        (a.2.1.toNat = b.2.1.toNat ∧ a.2.2.toNat < b.2.2.toNat))) := by
  unfold keyLt
  simp only [BitVec.lt_def, UInt32.lt_iff_toNat_lt]
  split_ifs
  · simp only [true_iff]
    omega
  · simp only [false_iff]
    omega
  · simp only [true_iff]
    omega
  · simp only [false_iff]
    omega
  · simp only [decide_eq_true_eq]
    omega

theorem keyLt_trans (h : keyLt a b) (h' : keyLt b c) : keyLt a c := by
  rw [keyLt_iff] at h h' ⊢
  omega

theorem keyLt_irrefl (a : UInt256 × UInt32 × UInt256) : keyLt a a = false := by
  rw [Bool.eq_false_iff, ne_eq, keyLt_iff]
  omega

/-- Sorted, as a map keeps them, and none twice. -/
def Sorted (set : CanonicalTXSet) : Prop :=
  set.txs.Pairwise fun a b => keyLt (set.key a) (set.key b)

variable {set : CanonicalTXSet}

theorem mem_place {tx tx' : STTx} {txs : List STTx} (h : tx' ∈ insert.place set tx txs) :
    tx' = tx ∨ tx' ∈ txs := by
  induction txs with
  | nil => exact .inl (mem_singleton.mp h)
  | cons other rest ih =>
    rw [insert.place] at h
    split_ifs at h
    · exact mem_cons.mp h
    · rcases mem_cons.mp h with rfl | h
      · exact .inr mem_cons_self
      · exact (ih h).imp_right (mem_cons_of_mem _)
    · exact .inr h

theorem Sorted.insert (h : set.Sorted) (tx : STTx) : (set.insert tx).Sorted := by
  have hpc : ∀ txs : List STTx, txs.Pairwise (fun a b => keyLt (set.key a) (set.key b)) →
      (insert.place set tx txs).Pairwise fun a b => keyLt (set.key a) (set.key b) := by
    intro txs
    induction txs with
    | nil => exact fun _ => pairwise_singleton _ _
    | cons other rest ih =>
      intro hs
      obtain ⟨ho, hrs⟩ := pairwise_cons.mp hs
      rw [insert.place]
      split_ifs with hbe haf
      · refine pairwise_cons.mpr ⟨fun x hx => ?_, hs⟩
        rcases mem_cons.mp hx with rfl | hx
        · exact hbe
        · exact keyLt_trans hbe (ho x hx)
      · refine pairwise_cons.mpr ⟨fun x hx => ?_, ih hrs⟩
        rcases mem_place hx with rfl | hx
        · exact haf
        · exact ho x hx
      · exact hs
  exact hpc set.txs h

theorem Sorted.nodup (h : set.Sorted) : set.txs.Nodup := by
  refine h.imp fun hlt heq => ?_
  rw [heq, keyLt_irrefl] at hlt
  cases hlt

end CanonicalTXSet

/-! ## What is tried -/

structure Attempt where
  tx : STTx
  retry : Bool
  result : Result
  deriving DecidableEq

section Log

variable {V : Type} (outcome : V → STTx → Bool → V × Result) (state : V × List Attempt)

def logged (tx : STTx) (retry : Bool) :
    Id ((V × List Attempt) × Result) :=
  let (view, result) := outcome state.1 tx retry
  ((view, state.2 ++ [⟨tx, retry, result⟩]), result)

variable {tx : STTx} {entries : List Attempt} {retry : Bool} {txs : List STTx}

theorem exists_logged (tx : STTx) (rt : Bool) : ∃ view result, logged outcome state tx rt =
      ((view, state.2 ++ [⟨tx, rt, result⟩]), result) :=
  ⟨_, _, rfl⟩

structure PassOver (retry : Bool) (txs : List STTx) (entries : List Attempt) : Prop where
  txs : entries.map Attempt.tx = txs
  retry : ∀ entry ∈ entries, entry.retry = retry

def retried (entries : List Attempt) : List STTx :=
  (entries.filter fun entry => entry.result = .retry).map Attempt.tx

theorem mem_retried :
    tx ∈ retried entries ↔ ∃ entry ∈ entries, entry.result = .retry ∧ entry.tx = tx := by
  simp [retried, and_assoc]

theorem retried_cons (ent : Attempt) (entries : List Attempt) :
    retried (ent :: entries) = retried [ent] ++ retried entries := by
  rw [← singleton_append, retried, filter_append, map_append]
  rfl

theorem PassOver.cons (h : PassOver retry txs entries) (tx : STTx) (res : Result) :
    PassOver retry (tx :: txs) (⟨tx, retry, res⟩ :: entries) where
  txs := by rw [map_cons, h.txs]
  retry := forall_mem_cons.mpr ⟨rfl, h.retry⟩

def applications (tx : STTx) (entries : List Attempt) : Nat :=
  entries.countP fun entry => entry.tx = tx ∧ entry.result = .success

/-- Applied so often at most, and less often if still to be tried. -/
def AtMost (bound : Nat) (tx : STTx) (log : List Attempt) (txs : List STTx) : Prop :=
  applications tx log ≤ bound ∧ (tx ∈ txs → applications tx log < bound)

theorem PassOver.once (h : PassOver retry txs entries) (hnd : txs.Nodup) (tx : STTx) :
    AtMost 1 tx entries (retried entries) := by
  rw [← h.txs] at hnd
  constructor
  · calc
      applications tx entries ≤ entries.countP fun entry => entry.tx = tx :=
        countP_mono_left fun entry _ he => by
          simp only [decide_eq_true_eq] at he ⊢
          exact he.1
      _ = (entries.map Attempt.tx).count tx := by
        rw [List.count, countP_map]
        rfl
      _ ≤ 1 := nodup_iff_count_le_one.mp hnd tx
  · intro hr
    obtain ⟨entry, hm, hre, rfl⟩ := mem_retried.mp hr
    refine Nat.lt_one_iff.mpr (countP_eq_zero.mpr fun entry' hm' he' => ?_)
    simp only [decide_eq_true_eq] at he'
    have hsa := inj_on_of_nodup_map hnd hm' hm he'.1
    rw [hsa, hre] at he'
    cases he'.2

theorem applications_of_not_mem (h : PassOver retry txs entries) (hm : tx ∉ txs) :
    applications tx entries = 0 := by
  refine countP_eq_zero.mpr fun entry he hsu => ?_
  simp only [decide_eq_true_eq] at hsu
  rw [← h.txs, ← hsu.1] at hm
  exact hm (mem_map_of_mem he)

theorem AtMost.pass {bound : Nat} {log : List Attempt} (h : AtMost bound tx log txs)
    (hp : PassOver retry txs entries) (hnd : txs.Nodup) :
    AtMost bound tx (log ++ entries) (retried entries) := by
  have hap : applications tx (log ++ entries) = applications tx log + applications tx entries :=
    countP_append
  obtain ⟨honce, hretried⟩ := hp.once hnd tx
  unfold AtMost
  rw [hap]
  by_cases hm : tx ∈ txs
  · have hless := h.2 hm
    refine ⟨by omega, fun hr => ?_⟩
    have hnone := hretried hr
    omega
  rw [applications_of_not_mem hp hm, Nat.add_zero]
  refine ⟨h.1, fun hr => absurd ?_ hm⟩
  obtain ⟨entry, he, -, rfl⟩ := mem_retried.mp hr
  rw [← hp.txs]
  exact mem_map_of_mem he

theorem PassOver.nodup_retried (h : PassOver retry txs entries) (hnd : txs.Nodup) :
    (retried entries).Nodup := by
  rw [← h.txs] at hnd
  exact hnd.sublist (filter_sublist.map _)

namespace LedgerConsensus

theorem retryLoop_logged (rt : Bool) (kept : List STTx) (chgs : Nat) (txs : List STTx)
    (ste : V × List Attempt) :
    ∃ view entries, PassOver rt txs entries ∧
      retryLoop (m := Id) (logged outcome) rt kept chgs txs ste =
        ((view, ste.2 ++ entries), kept ++ retried entries,
          chgs + entries.countP fun entry => entry.result = .success) := by
  induction txs generalizing kept chgs ste with
  | nil =>
    refine ⟨ste.1, [], ⟨rfl, by simp⟩, ?_⟩
    simp only [retryLoop, retried, append_nil, filter_nil, map_nil, countP_nil, Nat.add_zero]
    rfl
  | cons tx txs ih =>
    obtain ⟨view, result, ha⟩ := exists_logged outcome ste tx rt
    have hst : retryLoop (m := Id) (logged outcome) rt kept chgs (tx :: txs) ste =
        retryLoop (m := Id) (logged outcome) rt (kept ++ retried [⟨tx, rt, result⟩])
          (chgs + [Attempt.mk tx rt result].countP fun entry => entry.result = .success)
          txs (view, ste.2 ++ [⟨tx, rt, result⟩]) := by
      rw [retryLoop]
      simp only [bind, ha]
      cases result <;> simp [retried]
    obtain ⟨view', entries, hp, hrs⟩ := ih (kept ++ retried [⟨tx, rt, result⟩])
      (chgs + [Attempt.mk tx rt result].countP fun entry => entry.result = .success)
      (view, ste.2 ++ [⟨tx, rt, result⟩])
    refine ⟨view', ⟨tx, rt, result⟩ :: entries, hp.cons tx result, hst.trans (hrs.trans ?_)⟩
    have hc : (Attempt.mk tx rt result :: entries).countP (fun entry => entry.result = .success) =
          [Attempt.mk tx rt result].countP (fun entry => entry.result = .success) +
            entries.countP fun entry => entry.result = .success := by
      rw [← countP_append, singleton_append]
    rw [retried_cons _ entries, hc, append_assoc, append_assoc, Nat.add_assoc]
    rfl

variable (check : List UInt256)

/-- Attempts of each transaction the set has and the ledger has not. -/
theorem applyItems_logged (its : List (UInt256 × Option STTx))
    (ste : V × List Attempt) (rtb : CanonicalTXSet) :
    ∃ view entries, PassOver true ((its.filter fun item => item.1 ∉ check).filterMap snd) entries ∧
      applyItems (m := Id) (logged outcome) check its ste rtb =
        ((view, ste.2 ++ entries), (retried entries).foldl insert rtb) := by
  induction its generalizing ste rtb with
  | nil =>
    refine ⟨ste.1, [], ⟨rfl, by simp⟩, ?_⟩
    simp only [applyItems, retried, append_nil, filter_nil, map_nil, foldl_nil]
    rfl
  | cons item its ih =>
    obtain ⟨key, txn⟩ := item
    by_cases hke : key ∈ check
    · obtain ⟨view, entries, hp, hrs⟩ := ih ste rtb
      refine ⟨view, entries, ?_, ?_⟩
      · simpa [hke] using hp
      · simpa [applyItems, hke] using hrs
    cases txn with
    | none =>
      obtain ⟨view, entries, hp, hrs⟩ := ih ste rtb
      refine ⟨view, entries, ?_, ?_⟩
      · simpa [hke] using hp
      · simpa [applyItems, hke] using hrs
    | some tx =>
      obtain ⟨view, result, ha⟩ := exists_logged outcome ste tx true
      have hst : applyItems (m := Id) (logged outcome) check ((key, some tx) :: its) ste
          rtb = applyItems (m := Id) (logged outcome) check its
            (view, ste.2 ++ [⟨tx, true, result⟩])
            ((retried [⟨tx, true, result⟩]).foldl insert rtb) := by
        simp only [applyItems, hke, ↓reduceIte, bind, ha]
        cases result <;> simp [retried]
      obtain ⟨view', entries, hp, hrs⟩ := ih (view, ste.2 ++ [⟨tx, true, result⟩])
        ((retried [⟨tx, true, result⟩]).foldl insert rtb)
      refine ⟨view', ⟨tx, true, result⟩ :: entries, ?_, hst.trans (hrs.trans ?_)⟩
      · simpa [hke] using hp.cons tx result
      · rw [retried_cons _ entries, foldl_append, append_assoc]
        rfl

variable (remaining pass : Nat)

/-- What is left was tried without another chance, with nothing applied since, or all passes were
made. -/
theorem passLoop_left (rt : Bool) (ste : V × List Attempt) (txs : List STTx) :
    ∃ view log left passes, passLoop (m := Id) (logged outcome) remaining pass rt ste txs =
        ((view, log), left, passes) ∧
      ∀ tx ∈ left, passes = pass + remaining ∨ ∃ before after,
        log = before ++ ⟨tx, false, .retry⟩ :: after ∧
          ∀ entry ∈ after, entry.result ≠ .success := by
  induction remaining generalizing pass rt ste txs with
  | zero => exact ⟨ste.1, ste.2, txs, pass, rfl, fun tx _ => .inl rfl⟩
  | succ remaining ih =>
    obtain ⟨view, entries, hp, hlo⟩ := retryLoop_logged outcome rt [] 0 txs ste
    rw [Nat.zero_add, nil_append] at hlo
    rw [passLoop]
    simp only [bind, hlo]
    split_ifs with hd hso
    · obtain ⟨hno, rfl⟩ := hd
      refine ⟨view, ste.2 ++ entries, retried entries, pass + 1, rfl, fun tx htx => .inr ?_⟩
      obtain ⟨⟨tx, rt, result⟩, hm, hre, rfl⟩ := mem_retried.mp htx
      obtain rfl : rt = false := hp.retry _ hm
      obtain rfl : result = .retry := hre
      obtain ⟨before, after, rfl⟩ := append_of_mem hm
      refine ⟨ste.2 ++ before, after, (append_assoc _ _ _).symm, fun entry haf => ?_⟩
      have he := countP_eq_zero.mp hno entry (mem_append_right _ (mem_cons_of_mem _ haf))
      simpa using he
    · obtain ⟨view', log, left, passes, hrs, hl⟩ :=
        ih (pass + 1) false (view, ste.2 ++ entries) (retried entries)
      refine ⟨view', log, left, passes, hrs, fun tx htx => (hl tx htx).imp_left ?_⟩
      omega
    · obtain ⟨view', log, left, passes, hrs, hl⟩ :=
        ih (pass + 1) rt (view, ste.2 ++ entries) (retried entries)
      refine ⟨view', log, left, passes, hrs, fun tx htx => (hl tx htx).imp_left ?_⟩
      omega

theorem passLoop_atMost {bound : Nat} (rt : Bool) (ste : V × List Attempt)
    (txs : List STTx) (hnd : txs.Nodup) (h : AtMost bound tx ste.2 txs) :
    applications tx
      (passLoop (m := Id) (logged outcome) remaining pass rt ste txs).1.2 ≤ bound := by
  induction remaining generalizing pass rt ste txs with
  | zero => exact h.1
  | succ remaining ih =>
    obtain ⟨view, entries, hp, hlo⟩ := retryLoop_logged outcome rt [] 0 txs ste
    rw [passLoop]
    simp only [bind, hlo]
    have hon := h.pass hp hnd
    split_ifs
    · exact hon.1
    · exact ih _ _ (view, ste.2 ++ entries) _ (hp.nodup_retried hnd) hon
    · exact ih _ _ (view, ste.2 ++ entries) _ (hp.nodup_retried hnd) hon

/-! ### The log changes nothing -/

theorem applyItems_unlogged (its : List (UInt256 × Option STTx))
    (ste : V × List Attempt) (rtb : CanonicalTXSet) :
    applyItems (m := Id) outcome check its ste.1 rtb =
      let run := applyItems (m := Id) (logged outcome) check its ste rtb
      (run.1.1, run.2) := by
  induction its generalizing ste rtb with
  | nil => rfl
  | cons item its ih =>
    obtain ⟨key, txn⟩ := item
    cases txn with
    | none => simp [applyItems, ih ste, ite_self]
    | some tx =>
      have ha : logged outcome ste tx true =
          (((outcome ste.1 tx true).1, ste.2 ++ [⟨tx, true, (outcome ste.1 tx true).2⟩]),
            (outcome ste.1 tx true).2) := rfl
      simp only [applyItems, bind, ha]
      split_ifs
      · exact ih ste rtb
      · exact ih (_, _) _
      · exact ih (_, _) _

theorem retryLoop_unlogged (rt : Bool) (kept : List STTx) (chgs : Nat) (txs : List STTx)
    (ste : V × List Attempt) :
    retryLoop (m := Id) outcome rt kept chgs txs ste.1 =
      let run := retryLoop (m := Id) (logged outcome) rt kept chgs txs ste
      (run.1.1, run.2) := by
  induction txs generalizing kept chgs ste with
  | nil => rfl
  | cons tx txs ih =>
    have ha : logged outcome ste tx rt =
        (((outcome ste.1 tx rt).1, ste.2 ++ [⟨tx, rt, (outcome ste.1 tx rt).2⟩]),
          (outcome ste.1 tx rt).2) := rfl
    simp only [retryLoop, bind, ha]
    cases hre : (outcome ste.1 tx rt).2 <;> exact ih _ _ (_, _)

theorem passLoop_unlogged (rt : Bool) (ste : V × List Attempt) (txs : List STTx) :
    passLoop (m := Id) outcome remaining pass rt ste.1 txs =
      let run := passLoop (m := Id) (logged outcome) remaining pass rt ste txs
      (run.1.1, run.2) := by
  induction remaining generalizing pass rt ste txs with
  | zero => rfl
  | succ remaining ih =>
    have hlo := retryLoop_unlogged outcome rt [] 0 txs ste
    rcases hru : retryLoop (m := Id) (logged outcome) rt [] 0 txs ste with
      ⟨ste', left, changes⟩
    simp only [passLoop, bind, hlo, hru]
    split_ifs
    · rfl
    · exact ih _ _ _ _
    · exact ih _ _ _ _

theorem applySet_unlogged (set : Option (List (UInt256 × Option STTx)))
    (ste : V × List Attempt) (rtb : CanonicalTXSet) :
    applySet (m := Id) outcome check set ste.1 rtb =
      let run := applySet (m := Id) (logged outcome) check set ste rtb
      (run.1.1, run.2) := by
  cases set with
  | none => rfl
  | some items => exact applyItems_unlogged outcome check items ste rtb

theorem applyTransactions_unlogged
    (set : Option (List (UInt256 × Option STTx))) (ste : V × List Attempt)
    (rtb : CanonicalTXSet) :
    applyTransactions (m := Id) outcome set ste.1 check rtb =
      let run := applyTransactions (m := Id) (logged outcome) set ste check rtb
      (run.1.1, run.2) := by
  have hse := applySet_unlogged outcome check set ste rtb
  rcases hru : applySet (m := Id) (logged outcome) check set ste rtb with
    ⟨state1, retriable1⟩
  have hpa := passLoop_unlogged outcome LEDGER_TOTAL_PASSES 0 true state1 retriable1.txs
  simp only [applyTransactions, bind, hse, hru, hpa]
  rfl

/-! ### Each transaction once -/

/-- Those of a set that the ledger has not. -/
def candidates (set : Option (List (UInt256 × Option STTx))) : List STTx :=
  ((set.getD []).filter fun item => item.1 ∉ check).filterMap snd

variable {set : Option (List (UInt256 × Option STTx))}

theorem candidates_nodup
    (hks : ∀ items ∈ set, ∀ key tx, (key, some tx) ∈ items → tx.transactionID = key)
    (hse : ((set.getD []).map fst).Nodup) : (candidates check set).Nodup := by
  cases set with
  | none => exact nodup_nil
  | some items =>
    have hdi : items.Pairwise fun a b => a.1 ≠ b.1 := pairwise_map.mp hse
    refine pairwise_filterMap.mpr ((hdi.filter _).imp_of_mem ?_)
    rintro ⟨key, txn⟩ ⟨key', txn'⟩ hm hm' hne tx rfl tx' rfl rfl
    have hke := hks items rfl key tx (mem_of_mem_filter hm)
    have hke' := hks items rfl key' tx (mem_of_mem_filter hm')
    exact hne (hke.symm.trans hke')

variable {retries : CanonicalTXSet}

theorem mem_foldl_insert
    (h : tx ∈ (txs.foldl insert retries).txs) : tx ∈ txs ∨ tx ∈ retries.txs := by
  induction txs generalizing retries with
  | nil => exact .inr h
  | cons first rest ih =>
    rcases ih h with hrs | hi
    · exact .inl (mem_cons_of_mem _ hrs)
    · rcases mem_place hi with rfl | hold
      · exact .inl mem_cons_self
      · exact .inr hold

/-- The bound for one that the set has, the ledger has not and that waits already is two. -/
theorem applySet_atMost {chk : List UInt256} (hca : (candidates chk set).Nodup)
    (hs : retries.Sorted) (view : V) :
    ∃ view' log retries',
      applySet (m := Id) (logged outcome) chk set (view, []) retries = ((view', log), retries') ∧
      retries'.txs.Nodup ∧
      ∀ tx, AtMost (if tx ∈ retries.txs ∧ tx ∈ candidates chk set then 2 else 1) tx log
        retries'.txs := by
  obtain ⟨view', entries, hp, hru⟩ : ∃ view' entries, PassOver true (candidates chk set) entries ∧
      applySet (m := Id) (logged outcome) chk set (view, []) retries =
        ((view', entries), (retried entries).foldl insert retries) := by
    cases set with
    | none => exact ⟨view, [], ⟨rfl, by simp⟩, rfl⟩
    | some items => exact applyItems_logged outcome chk items (view, []) retries
  have hk : ((retried entries).foldl insert retries).Sorted :=
    List.foldlRecOn (motive := CanonicalTXSet.Sorted) _ _ hs fun _ h tx _ => h.insert tx
  refine ⟨view', entries, _, hru, hk.nodup, fun tx => ?_⟩
  have hon := hp.once hca tx
  split_ifs with hboth
  · exact ⟨Nat.le_succ_of_le hon.1, fun _ => Nat.lt_succ_of_le hon.1⟩
  refine ⟨hon.1, fun hm => ?_⟩
  rcases mem_foldl_insert hm with hr | hold
  · exact hon.2 hr
  · rw [applications_of_not_mem hp fun hcn => hboth ⟨hold, hcn⟩]
    exact Nat.zero_lt_one

/-- Consensus and the open ledger leave the same view and retries; a transaction is applied once at
most, or once for each if it is both in the set and among the first retries; and one that is left
was tried after the last one applied, or all passes have been made. -/
theorem appliers_agree (outcome : V → STTx → Bool → V × Result) (check : List UInt256)
    (set : Option (List (UInt256 × Option STTx))) (view : V) (retries : CanonicalTXSet)
    (hks : ∀ items ∈ set, ∀ key tx, (key, some tx) ∈ items → tx.transactionID = key)
    (hse : ((set.getD []).map fst).Nodup) (hs : retries.Sorted) :
    ∃ view' left passes log,
      applyTransactions (m := Id) outcome set view check retries = (view', left, passes) ∧
      OpenLedger.applyAllWith (m := Id) outcome check ((set.getD []).map snd) view retries =
        (view', left) ∧
      applyTransactions (m := Id) (logged outcome) set (view, []) check retries =
        ((view', log), left, passes) ∧
      OpenLedger.applyAllWith (m := Id) (logged outcome) check ((set.getD []).map snd)
        (view, []) retries = ((view', log), left) ∧
      (∀ tx, applications tx log ≤
        if tx ∈ retries.txs ∧ tx ∈ candidates check set then 2 else 1) ∧
      ∀ tx ∈ left.txs, passes = LEDGER_TOTAL_PASSES ∨ ∃ before after,
        log = before ++ ⟨tx, false, .retry⟩ :: after ∧
          ∀ entry ∈ after, entry.result ≠ .success := by
  obtain ⟨view1, log1, retries1, hf, hnd, hon⟩ :=
    applySet_atMost outcome (candidates_nodup check hks hse) hs view
  obtain ⟨view', log, left, passes, hpa, hl⟩ :=
    passLoop_left outcome LEDGER_TOTAL_PASSES 0 true (view1, log1) retries1.txs
  have hlg : applyTransactions (m := Id) (logged outcome) set (view, []) check retries =
      ((view', log), { retries1 with txs := left }, passes) := by
    simp only [applyTransactions, bind, hf, hpa]
    rfl
  have hpl := applyTransactions_unlogged outcome check set (view, []) retries
  rw [hlg] at hpl
  have hag := applyTransactions_eq (m := Id) outcome check hks view retries
  have hag' := applyTransactions_eq (m := Id) (logged outcome) check hks (view, []) retries
  refine ⟨view', { retries1 with txs := left }, passes, log, hpl, ?_, hlg, ?_,
    fun tx => ?_, fun tx htx => ?_⟩
  · rw [← hag, hpl]
    rfl
  · rw [← hag', hlg]
    rfl
  · have hc := passLoop_atMost outcome LEDGER_TOTAL_PASSES 0 true (view1, log1) retries1.txs
      hnd (hon tx)
    rw [hpa] at hc
    exact hc
  · exact hl tx htx

end LedgerConsensus

end Log

namespace LedgerConsensus

def numberedTx (number : Nat) : STTx where
  body := .accountSet { }
  account := 1
  sequence := UInt32.ofNat number
  fee := .ofDrops 10
  transactionID := BitVec.ofNat 256 number

/-- The first is applied, the others retried. -/
def takeFirst (view : List STTx) (tx : STTx) (_ : Bool) : List STTx × Result :=
  if tx = numberedTx 1 then (view ++ [tx], .success) else (view, .retry)

/-- The second one, a retry, is left. -/
theorem second_left : ∃ view' left passes log,
    applyTransactions (m := Id) takeFirst (some [(1, some (numberedTx 1))]) [] []
      ⟨0, [numberedTx 2]⟩ = (view', left, passes) ∧ view' = [numberedTx 1] ∧
    left.txs = [numberedTx 2] ∧ passes ≠ LEDGER_TOTAL_PASSES ∧
    OpenLedger.applyAllWith (m := Id) takeFirst [] [some (numberedTx 1)] []
      ⟨0, [numberedTx 2]⟩ = (view', left) ∧
    applications (numberedTx 1) log ≤ 1 ∧
    ∃ before after, log = before ++ ⟨numberedTx 2, false, .retry⟩ :: after ∧
      ∀ entry ∈ after, entry.result ≠ .success := by
  obtain ⟨view', left, passes, log, hru, hop, -, -, hon, hl⟩ :=
    appliers_agree takeFirst [] (some [(1, some (numberedTx 1))]) [] ⟨0, [numberedTx 2]⟩
      (by simp [numberedTx]) (by simp) (pairwise_singleton _ _)
  have hre : (view', left.txs, passes) = ([numberedTx 1], [numberedTx 2], 2) := by
    have hev := congrArg (fun run => (run.1, run.2.1.txs, run.2.2)) hru
    rw [← hev]
    decide +kernel
  simp only [Prod.mk.injEq] at hre
  obtain ⟨hv, ht, hpa⟩ := hre
  refine ⟨view', left, passes, log, hru, hv, ht, ?_, hop, (hon _).trans_eq (if_neg ?_), ?_⟩
  · rw [hpa]
    decide
  · decide +kernel
  · refine (hl (numberedTx 2) ?_).resolve_left ?_
    · rw [ht]
      exact mem_singleton_self _
    · rw [hpa]
      decide

def takeAll (view : List STTx) (tx : STTx) (_ : Bool) : List STTx × Result :=
  (view ++ [tx], .success)

/-- One of the set that also waits is tried for both. -/
theorem waiting_applied_twice : ∃ view' left passes log,
    applyTransactions (m := Id) (logged takeAll) (some [(1, some (numberedTx 1))]) ([], []) []
      ⟨0, [numberedTx 1]⟩ = ((view', log), left, passes) ∧
    view' = [numberedTx 1, numberedTx 1] ∧ applications (numberedTx 1) log = 2 :=
  ⟨_, _, _, _, rfl, by decide +kernel, by decide +kernel⟩

end LedgerConsensus

end Sand
