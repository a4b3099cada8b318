import Sand.Security.Signature

/-!
# What a dividend adds to a balance

The coins are an unsigned word and the balance is a signed one.
-/

namespace Sand

open Transactor STAmount

/-- Native, of at most the largest value supported. -/
structure STAmount.InNativeRange (amount : STAmount) : Prop extends amount.IsDrops where
  bound : amount.mantissa.toNat ≤ cMaxNative

namespace STAmount

variable {balance balance' : STAmount} {coins : UInt64}

theorem add_ofDrops_eq_ok_iff (hna : balance.native) :
    (∃ sum, balance.add (.ofDrops coins) = .ok sum) ↔
      (balance.isZero → coins.toNat ≤ cMaxNativeN) := by
  have hco : areComparable balance (.ofDrops coins) := areComparable_of_native hna rfl
  by_cases hc : (ofDrops coins).isZero
  · have h0 : coins = 0 := isZero_iff.mp hc
    simp only [add, hco, hc, Bool.not_true, Bool.false_eq_true, ↓reduceIte]
    simp [h0]
  by_cases hba : balance.isZero
  · simp only [add, hco, hc, hba, Bool.not_true, Bool.false_eq_true,
      ↓reduceIte, canonicalize_native hna rfl (by simpa using hc), forall_const]
    by_cases hl : cMaxNativeN < coins.toNat
    · simp [ofDrops, hl]
    · simp [ofDrops, hl, Nat.not_lt.mp hl]
  · obtain ⟨x, y, _, _, hs⟩ := add_of_native hna
      (show (ofDrops coins).native from rfl) (by simpa using hba) (by simpa using hc)
    exact ⟨fun _ h => absurd h hba, fun _ => ⟨_, hs⟩⟩

/-- Adding drops is exact when the sum is in the native range. -/
theorem InNativeRange.add_ofDrops_iff (h : balance.InNativeRange)
    (had : balance.add (.ofDrops coins) = .ok balance') :
    (balance'.drops = balance.drops + coins.toNat ∧ balance'.InNativeRange) ↔
      balance.drops + coins.toNat ≤ cMaxNative := by
  have hbo := h.bound
  have hd := natAbs_drops balance
  have hm : cMaxNative = 9000000000000000000 := rfl
  have hco : areComparable balance (.ofDrops coins) := areComparable_of_native h.native rfl
  by_cases hc : (ofDrops coins).isZero
  · have hs : balance' = balance := by
      simpa [add, hco, hc, eq_comm] using had
    have h0 : coins.toNat = 0 := by
      rw [show coins = 0 from isZero_iff.mp hc]
      rfl
    subst hs
    rw [h0]
    exact ⟨fun _ => by omega, fun _ => ⟨by simp, h⟩⟩
  by_cases hba : balance.isZero
  · -- canonicalised, and refused above the largest amount on the network
    simp only [add, hco, hc, hba, Bool.not_true, Bool.false_eq_true,
      ↓reduceIte, canonicalize_native h.native rfl (by simpa using hc)] at had
    split_ifs at had with hmaxN
    cases had
    have hc' : coins.toNat ≤ cMaxNativeN := Nat.not_lt.mp hmaxN
    have hmaxN : cMaxNativeN = 100000000000000000 := rfl
    rw [drops_of_isZero hba]
    refine ⟨fun _ => by omega, fun _ => ⟨by simp [drops, ofDrops],
      ⟨h.native, rfl, fun _ => rfl, ?_⟩, ?_⟩⟩
    · show coins.toNat < 2 ^ 63
      omega
    · show coins.toNat ≤ cMaxNative
      omega
  · obtain ⟨x, y, hx, hy, hs⟩ := add_of_native h.native
      (show (ofDrops coins).native from rfl) (by simpa using hba) (by simpa using hc)
    obtain ⟨x', hx', hxd⟩ := h.getSNValue
    obtain rfl : x = x' := Except.ok.inj (hx.symm.trans hx')
    obtain rfl : coins.toInt64 = y := Except.ok.inj hy
    obtain rfl : ofSNValue (x + coins.toInt64) = balance' := Except.ok.inj (hs.symm.trans had)
    have hcoins64 := coins.toNat_lt
    have hv : (x + coins.toInt64).toInt = (balance.drops + coins.toNat).bmod (2 ^ 64) := by
      rw [Int64.toInt_add, hxd, toInt_toInt64]
      split
      · rfl
      · rw [Int.bmod_def, Int.bmod_def]
        split <;> split <;> omega
    rw [drops_ofSNValue, hv]
    constructor
    · rintro ⟨hex, hrn⟩
      have hnt := natAbs_drops (ofSNValue (x + coins.toInt64))
      rw [drops_ofSNValue, hv] at hnt
      have hbo' := hrn.bound
      omega
    · intro hf
      have hex : (balance.drops + coins.toNat).bmod (2 ^ 64) = balance.drops + coins.toNat := by
        rw [Int.bmod_def]
        split <;> omega
      refine ⟨hex, isDrops_ofSNValue (by omega), ?_⟩
      rw [← natAbs_drops, drops_ofSNValue]
      omega

end STAmount

namespace Dividend

open DividendMaster

variable {env : Env} {tx : STTx} {fields : DividendTx} {o : OpenView} {flags : Flags}

/-- The transaction is new and accepted, the account exists, its last dividend was another one, and
an empty account is given no more than the network's largest amount. -/
structure Pays (env : Env) (tx : STTx) (fields : DividendTx) (o : OpenView) (root : AccountRoot) :
    Prop where
  id : tx.transactionID ≠ 0
  fresh : tx.transactionID ∉ o.txs
  accepted : Accepted env tx fields o
  holds : o.ledger.lookup (Key.account (payee fields)) = some root
  next : fields.dividendLedger.getD 0 ≠ root.dividendLedger.getD 0
  legal : root.balance.isZero → (fields.dividendCoins.getD 0).toNat ≤ cMaxNativeN

/-- The balance and the total rise by the coins. -/
def CreditsExactly (fields : DividendTx) (o o' : OpenView) : Prop :=
  ∃ root root', o.ledger.lookup (Key.account (payee fields)) = some root ∧
    o'.ledger.lookup (Key.account (payee fields)) = some root' ∧
    root'.balance.drops = root.balance.drops + (fields.dividendCoins.getD 0).toNat ∧
    root'.balance.InNativeRange ∧
    o'.totalDrops.toNat = o.totalDrops.toNat + (fields.dividendCoins.getD 0).toNat

variable {root : AccountRoot} {out : Outcome}

theorem map_balance_credited (fs : DividendTx) (h : root.balance.native) :
    (credited fs root).map AccountRoot.balance =
      root.balance.add (.ofDrops (fs.dividendCoins.getD 0)) := by
  unfold credited
  by_cases hc : fs.dividendCoins.getD 0 = 0
  · rw [hc]
    have hco : areComparable root.balance (.ofDrops 0) := areComparable_of_native h rfl
    simp [add, hco, isZero_iff.mpr (show (ofDrops 0).mantissa = 0 from rfl)]
    rfl
  · simp only [hc, ↓reduceIte]
    cases root.balance.add (.ofDrops (fs.dividendCoins.getD 0)) <;> rfl

theorem credited_eq_ok_iff (h : root.balance.native) : (∃ root', credited fields root = .ok root') ↔
      (root.balance.isZero → (fields.dividendCoins.getD 0).toNat ≤ cMaxNativeN) := by
  rw [← add_ofDrops_eq_ok_iff h, ← map_balance_credited fields h]
  cases credited fields root <;> simp [Except.map]

theorem takes_apply_iff (hap : divOpType fields = DivType_Apply)
    (hrn : ∀ root, o.ledger.lookup (Key.account (payee fields)) = some root →
      root.balance.native) : Takes env tx fields o ↔ ∃ root, Pays env tx fields o root := by
  constructor
  · rintro ⟨hid, hfr, hac, written, he⟩
    obtain ⟨root, root', hrt, hn, hcr, _⟩ := (effect_apply_iff hap).mp he
    exact ⟨root, hid, hfr, hac, hrt, hn, (credited_eq_ok_iff (hrn root hrt)).mp ⟨root', hcr⟩⟩
  · rintro ⟨root, hid, hfr, hac, hrt, hn, hl⟩
    obtain ⟨root', hcr⟩ := (credited_eq_ok_iff (hrn root hrt)).mpr hl
    exact ⟨hid, hfr, hac, _, (effect_apply_iff hap).mpr ⟨root, root', hrt, hn, hcr, rfl⟩⟩

theorem credited_of_applied (hb : tx.body = .dividend fields)
    (hap : divOpType fields = DivType_Apply) (h : apply env tx o flags = some out)
    (ha : out.didApply) :
    ∃ root root', o.ledger.lookup (Key.account (payee fields)) = some root ∧
      credited fields root = .ok root' ∧
      out.view.ledger.lookup (Key.account (payee fields)) = some root' ∧
      out.view.totalDrops = o.totalDrops + fields.dividendCoins.getD 0 := by
  have hop : operate env tx (processor env tx fields) o flags = .ok out := by
    have hi := invoke_of_apply h ha
    simpa only [invoke, processorOf, hb] using hi
  obtain ⟨k, sle, he, hse, _, hcre, hde, hd⟩ := effect_of_applied hop ha
  obtain ⟨root, root', hrt, _, hcr, hwr⟩ := (effect_apply_iff hap).mp he
  cases hwr
  refine ⟨root, root', hrt, hcr, hse, ?_⟩
  have hc : createdDrops fields = fields.dividendCoins.getD 0 := if_pos hap
  unfold OpenView.totalDrops
  rw [hcre, hde, hd, hc, ← UInt64.add_assoc, UInt64.sub_eq_add_neg,
    UInt64.sub_eq_add_neg, UInt64.add_assoc _ (fields.dividendCoins.getD 0),
    UInt64.add_comm (fields.dividendCoins.getD 0), ← UInt64.add_assoc]

theorem Pays.view_ne (h : Pays env tx fields o root) (hap : apply env tx o flags = some out)
    (ha : out.didApply) : out.view ≠ o := by
  intro heq
  obtain ⟨_, _, _, hca⟩ := applied_of_invoke (invoke_of_apply hap ha) ha
  have ht := hca.txs.2
  rw [heq] at ht
  exact h.fresh (ht ▸ List.mem_cons_self)

/-- A dividend is credited exactly when balance and total do not overflow. -/
theorem Pays.creditsExactly_iff (h : Pays env tx fields o root) (hb : tx.body = .dividend fields)
    (hk : divOpType fields = DivType_Apply) (hrn : root.balance.InNativeRange)
    (hap : apply env tx o flags = some out) (ha : out.didApply) :
    CreditsExactly fields o out.view ↔
      root.balance.drops + (fields.dividendCoins.getD 0).toNat ≤ cMaxNative ∧
        o.totalDrops.toNat + (fields.dividendCoins.getD 0).toNat < 2 ^ 64 := by
  obtain ⟨root0, root', hrt, hcr, hrt', hto⟩ := credited_of_applied hb hk hap ha
  obtain rfl : root0 = root := Option.some.inj (hrt.symm.trans h.holds)
  have hba := map_balance_credited fields hrn.native
  rw [hcr] at hba
  have hw : out.view.totalDrops.toNat =
      (o.totalDrops.toNat + (fields.dividendCoins.getD 0).toNat) % 2 ^ 64 := by
    rw [hto, UInt64.toNat_add]
  rw [← hrn.add_ofDrops_iff hba.symm]
  constructor
  · rintro ⟨root, root'', hr, hr', hd, hin, hs⟩
    obtain rfl : root0 = root := Option.some.inj (hrt.symm.trans hr)
    obtain rfl : root' = root'' := Option.some.inj (hrt'.symm.trans hr')
    exact ⟨⟨hd, hin⟩, by omega⟩
  · rintro ⟨⟨hd, hin⟩, hs⟩
    exact ⟨root0, root', hrt, hrt', hd, hin, by omega⟩

/-- An Apply transaction leaves the view as it was or credits its coins exactly, unless the sum
leaves the native range or the total wraps. -/
theorem credit_exact_iff (hb : tx.body = .dividend fields) (hk : divOpType fields = DivType_Apply)
    (hrn : ∀ root, o.ledger.lookup (Key.account (payee fields)) = some root →
      root.balance.InNativeRange) :
    (∀ out, apply env tx o flags = some out → out.view = o ∨ CreditsExactly fields o out.view) ↔
      ∀ root, Pays env tx fields o root →
        root.balance.drops + (fields.dividendCoins.getD 0).toNat ≤ cMaxNative ∧
          o.totalDrops.toNat + (fields.dividendCoins.getD 0).toNat < 2 ^ 64 := by
  have hpa : Takes env tx fields o ↔ ∃ root, Pays env tx fields o root :=
    takes_apply_iff hk fun root hrt => (hrn root hrt).native
  constructor
  · intro h root hp
    obtain ⟨out, hap, ha⟩ := (takes_iff hb).mp (hpa.mpr ⟨root, hp⟩)
    have hex := hp.creditsExactly_iff hb hk (hrn root hp.holds) hap ha
    rcases h out hap with heq | hce
    · exact absurd heq (hp.view_ne hap ha)
    · exact hex.mp hce
  · intro h out hap
    cases ha : out.didApply with
    | false => exact .inl (view_of_apply hap ha)
    | true =>
      obtain ⟨root, hp⟩ := hpa.mp ((takes_iff hb).mpr ⟨out, hap, ha⟩)
      have hex := hp.creditsExactly_iff hb hk (hrn root hp.holds) hap ha
      exact .inr (hex.mpr (h root hp))

/-- A dividend of almost the whole range of the field. -/
def hugeFields : DividendTx :=
  ⟨some DivType_Apply, some 5, some 18446744073709551614, some 1⟩

def hugeDividend : STTx := sampleDividend hugeFields

theorem hugeDividend_pays : Pays sampleEnv hugeDividend hugeFields (sampleView poorLedger)
      { sequence := 1, balance := .ofDrops 5 } where
  id := by decide
  fresh := by decide
  accepted := ⟨rfl, by decide, by decide⟩
  holds := AList.lookup_insert _
  next := by decide
  legal := by decide

/-- Five drops and the huge dividend make three drops. -/
theorem hugeDividend_not_exact :
    ∃ out, apply sampleEnv hugeDividend (sampleView poorLedger) 0 = some out ∧
      out.view ≠ sampleView poorLedger ∧
      ¬ CreditsExactly hugeFields (sampleView poorLedger) out.view := by
  have hrn : (ofDrops 5).InNativeRange := ⟨⟨by decide, by decide, by decide, by decide⟩, by decide⟩
  have hta : Takes sampleEnv hugeDividend hugeFields (sampleView poorLedger) :=
    (takes_apply_iff rfl fun root hrt => by
      cases hugeDividend_pays.holds.symm.trans hrt
      rfl).mpr ⟨_, hugeDividend_pays⟩
  obtain ⟨out, hap, ha⟩ := (takes_iff rfl).mp hta
  refine ⟨out, hap, hugeDividend_pays.view_ne hap ha, ?_⟩
  rw [hugeDividend_pays.creditsExactly_iff rfl rfl hrn hap ha]
  decide

theorem credit_exact_iff_hugeDividend :
    (∀ out, apply sampleEnv hugeDividend (sampleView poorLedger) 0 = some out →
        out.view = sampleView poorLedger ∨
          CreditsExactly hugeFields (sampleView poorLedger) out.view) ↔
      ∀ root, Pays sampleEnv hugeDividend hugeFields (sampleView poorLedger) root →
        root.balance.drops + 18446744073709551614 ≤ cMaxNative ∧
          (sampleView poorLedger).totalDrops.toNat + 18446744073709551614 < 2 ^ 64 :=
  credit_exact_iff rfl rfl fun root hrt => by
    cases hugeDividend_pays.holds.symm.trans hrt
    exact ⟨⟨by decide, by decide, by decide, by decide⟩, by decide⟩

end Dividend

end Sand
