import Sand.Tx.Dispatch

/-!
# Soundness of multi-signing

Signatures are checked without looking at the ledger, signers against the signer list.
-/

namespace Sand

open List Transactor SetSignerList

/-! ## What a quorum is -/

/-- The account's own key, unless disabled, or its regular key; of an unknown account its
own only. -/
def KeyAuthorized (env : Env) (v : View) (account : AccountID) (key : Blob) : Prop :=
  match v.get (.account account) with
  | none => env.calcAccountID key = account
  | some root => (env.calcAccountID key = account ∧ root.isFlag lsfDisableMaster = false) ∨
      root.regularKey = some (env.calcAccountID key)

/-- Good, for another, by an authorized key. -/
def SignsFor (env : Env) (tx : STTx) (v : View) (signingFor account : AccountID) : Prop :=
  ∃ group ∈ tx.multiSigners.getD [], group.account = signingFor ∧
    ∃ signer ∈ group.signingAccounts, signer.account = account ∧
      env.accountPublicVerify signer.signingPubKey (env.multiSigningData tx signingFor account)
        signer.multiSignature tx.fullyCanonical ∧
      KeyAuthorized env v account signer.signingPubKey

variable (signers : List SignerEntry)

def weightOf : Nat :=
  (signers.map fun entry => entry.weight.toNat).sum

/-- Entries of different accounts reach the quorum. -/
def MeetsQuorum (list : SignerList) (represented : AccountID → Prop) : Prop :=
  ∃ signers : List SignerEntry, signers ⊆ list.signerEntries ∧
    (signers.map SignerEntry.account).Nodup ∧ (∀ entry ∈ signers, represented entry.account) ∧
    list.signerQuorum.toNat ≤ weightOf signers ∧ weightOf signers < 2 ^ 32

def SetSignerList.Accepted (account : AccountID) (list : SignerList) : Prop :=
  ∃ tx fields, tx.account = account ∧
    operation tx fields = .ok (.set list.signerQuorum list.signerEntries)

/-! ## Signer lists -/

variable {account : AccountID} {list : SignerList}

theorem SetSignerList.Accepted.length_le
    (h : SetSignerList.Accepted account list) : list.signerEntries.length ≤ maxEntries := by
  obtain ⟨tx, fields, -, hop⟩ := h
  unfold operation at hop
  cases hes : fields.signerEntries with
  | none =>
    simp only [hes] at hop
    split at hop <;> cases hop
  | some entries =>
    simp only [hes] at hop
    split at hop
    · cases hop
    split at hop
    · cases hop
    next hv =>
    obtain ⟨-, hsg⟩ := SignerListOp.set.inj (Except.ok.inj hop)
    unfold validateQuorumAndSignerEntries at hv
    split_ifs at hv with hcn
    rw [← hsg]
    omega

theorem weightOf_le : weightOf signers ≤ signers.length * 65535 := by
  induction signers with
  | nil => simp [weightOf]
  | cons entry rest ih =>
    have hwt := entry.weight.toNat_lt
    simp only [weightOf, map_cons, sum_cons, length_cons] at ih ⊢
    omega

theorem weightOf_append (sgs sgs' : List SignerEntry) :
    weightOf (sgs ++ sgs') = weightOf sgs + weightOf sgs' := by
  simp [weightOf]

theorem weightOf_lt {sgs : List SignerEntry} (hls : SetSignerList.Accepted account list)
    (hsu : sgs ⊆ list.signerEntries)
    (hnd : (sgs.map SignerEntry.account).Nodup) : weightOf sgs < 2 ^ 32 := by
  have hle : sgs.length ≤ list.signerEntries.length :=
    (subperm_of_subset (List.Nodup.of_map _ hnd) hsu).length_le
  have hb := hls.length_le
  have hwt := weightOf_le sgs
  unfold maxEntries at hb
  omega

namespace Transactor

variable {env : Env} {tx : STTx} {v : View}

theorem keyAuthorized_of_accepts {sg : SigningAccount} (h : signerRefusal env v sg = none) :
    KeyAuthorized env v sg.account sg.signingPubKey := by
  unfold signerRefusal at h
  unfold KeyAuthorized
  cases hr : v.get (.account sg.account) with
  | none =>
    simp only [hr] at h
    split_ifs at h with how
    exact how
  | some root =>
    simp only [hr] at h
    split_ifs at h with how hdi hrg
    · exact .inl ⟨how, by simpa using hdi⟩
    · exact .inr hrg

variable {entries : List SignerEntry} {weightSum result : UInt32}

theorem of_seekSigner {id : AccountID} {entries' : List SignerEntry} {ent : SignerEntry}
    (h : seekSigner id entries = some (ent, entries')) :
    ent ∈ entries ∧ ent.account = id ∧ entries' ⊆ entries := by
  unfold seekSigner at h
  have hsu : (entries.dropWhile fun ent => decide (ent.account < id)) ⊆ entries :=
    (dropWhile_suffix _).subset
  split at h
  · cases h
  next first rest hdr =>
  split_ifs at h with hre
  cases h
  rw [hdr] at hsu
  rw [not_or, not_not] at hre
  exact ⟨hsu mem_cons_self, hre.1, hsu⟩

theorem add_weight (ws : UInt32) (ent : SignerEntry) (sgs : List SignerEntry) :
    ws + ent.weight.toUInt32 + .ofNat (weightOf sgs) = ws + .ofNat (weightOf (ent :: sgs)) := by
  have hwt : ent.weight.toUInt32 = .ofNat ent.weight.toNat := by
    have hlt := ent.weight.toNat_lt
    refine UInt32.toNat_inj.mp ?_
    rw [UInt16.toNat_toUInt32, UInt32.toNat_ofNat', Nat.mod_eq_of_lt]
    omega
  rw [hwt, UInt32.add_assoc, ← UInt32.ofNat_add]
  rfl

theorem of_checkSigningAccounts {sgs : List SigningAccount}
    (h : checkSigningAccounts env v entries sgs weightSum = .ok result) :
    (∃ found : List SignerEntry, found ⊆ entries ∧
      found.map SignerEntry.account = sgs.map SigningAccount.account ∧
      result = weightSum + .ofNat (weightOf found)) ∧
    ∀ signer ∈ sgs, KeyAuthorized env v signer.account signer.signingPubKey := by
  induction sgs generalizing entries weightSum with
  | nil =>
    cases h
    exact ⟨⟨[], nil_subset _, rfl, (UInt32.add_zero _).symm⟩, nofun⟩
  | cons signer rest ih =>
    unfold checkSigningAccounts at h
    split at h
    · cases h
    next entry entries' hse =>
    split at h
    · cases h
    next hae =>
    obtain ⟨hm, hac, hsu⟩ := of_seekSigner hse
    obtain ⟨⟨found, hfn, ha, rfl⟩, hk⟩ := ih h
    refine ⟨⟨entry :: found, ?_, ?_, ?_⟩, ?_⟩
    · exact cons_subset.mpr ⟨hm, List.Subset.trans hfn hsu⟩
    · rw [map_cons, map_cons, hac, ha]
    · exact add_weight weightSum entry found
    · exact forall_mem_cons.mpr ⟨keyAuthorized_of_accepts hae, hk⟩

/-- Those who sign directly, or whom others sign for. -/
def firstLevel (account : AccountID) (group : SigningFor) : List AccountID :=
  if group.account = account then group.signingAccounts.map SigningAccount.account
  else [group.account]

def Supported (env : Env) (v : View) (account : AccountID) (group : SigningFor) : Prop :=
  if group.account = account then
    ∀ signer ∈ group.signingAccounts, KeyAuthorized env v signer.account signer.signingPubKey
  else
    ∃ inner weight, v.get (.signers group.account) = some inner ∧
      checkSigningAccounts env v inner.signerEntries group.signingAccounts 0 = .ok weight ∧
      inner.signerQuorum ≤ weight

variable {account : AccountID} {outer : SignerList}

theorem multiSignWeight_cons {gr : SigningFor}
    {rest : List SigningFor} (hes : entries ⊆ outer.signerEntries)
    (h : multiSignWeight env v account outer entries (gr :: rest) weightSum = .ok result) :
    ∃ found entries', found ⊆ outer.signerEntries ∧ entries' ⊆ outer.signerEntries ∧
      found.map SignerEntry.account = firstLevel account gr ∧
      Supported env v account gr ∧
      multiSignWeight env v account outer entries' rest (weightSum + .ofNat (weightOf found)) =
        .ok result := by
  unfold multiSignWeight at h
  unfold firstLevel Supported
  split_ifs at h ⊢ with hd
  · cases hwt : checkSigningAccounts env v outer.signerEntries gr.signingAccounts 0 with
    | error ter => simp [hwt, bind, Except.bind, reduceCtorEq] at h
    | ok weight =>
      simp only [hwt, bind, Except.bind] at h
      obtain ⟨⟨found, hfn, ha, rfl⟩, hk⟩ := of_checkSigningAccounts hwt
      rw [UInt32.zero_add] at h
      exact ⟨found, entries, hfn, hes, ha, hk, h⟩
  · split at h
    · cases h
    next entry entries' hse =>
    obtain ⟨hm, hac, hsu⟩ := of_seekSigner hse
    cases hi : v.get (.signers gr.account) with
    | none => simp [getSignerList, hi, bind, Except.bind, reduceCtorEq] at h
    | some inner =>
      simp only [getSignerList, hi, bind, Except.bind] at h
      split at h
      · cases h
      next weight hwt =>
      split_ifs at h with hq
      rw [← UInt32.add_zero (_ + _)] at h
      refine ⟨[entry], entries', ?_, ?_, ?_, ?_, (add_weight weightSum entry []).symm ▸ h⟩
      · exact cons_subset.mpr ⟨hes hm, nil_subset _⟩
      · exact List.Subset.trans hsu hes
      · rw [map_singleton, hac]
      · exact ⟨inner, weight, rfl, hwt, UInt32.not_lt.mp hq⟩

theorem of_multiSignWeight {grs : List SigningFor} (hes : entries ⊆ outer.signerEntries)
    (h : multiSignWeight env v account outer entries grs weightSum = .ok result) :
    (∃ found : List SignerEntry, found ⊆ outer.signerEntries ∧
      found.map SignerEntry.account = grs.flatMap (firstLevel account) ∧
      result = weightSum + .ofNat (weightOf found)) ∧
    ∀ group ∈ grs, Supported env v account group := by
  induction grs generalizing entries weightSum with
  | nil =>
    cases h
    exact ⟨⟨[], nil_subset _, rfl, (UInt32.add_zero _).symm⟩, nofun⟩
  | cons group rest ih =>
    obtain ⟨first, entries', hfs, hes', ha, hgr, hrs⟩ := multiSignWeight_cons hes h
    obtain ⟨⟨found, hfn, hl, rfl⟩, hsp⟩ := ih hes' hrs
    refine ⟨⟨first ++ found, ?_, ?_, ?_⟩, ?_⟩
    · exact append_subset.mpr ⟨hfs, hfn⟩
    · rw [map_append, flatMap_cons, ha, hl]
    · rw [weightOf_append, UInt32.add_assoc, ← UInt32.ofNat_add]
    · exact forall_mem_cons.mpr ⟨hgr, hsp⟩

end Transactor

namespace STTx

variable {env : Env} {tx : STTx}

def GoodSignature (env : Env) (tx : STTx) (signingFor : AccountID) (signer : SigningAccount) :
    Prop :=
  signer.account ≠ signingFor ∧ env.accountPublicVerify signer.signingPubKey
    (env.multiSigningData tx signingFor signer.account) signer.multiSignature
    tx.fullyCanonical

variable {last : AccountID} {seen : List AccountID} {seen' : List AccountID}

/-- The accounts of a group are in order, all signatures are good, and direct signers are new and
recorded. -/
theorem of_checkSigningAccounts {sf : AccountID} {direct : Bool} {sgs : List SigningAccount}
    (h : checkSigningAccounts env tx sf direct sgs last seen = some seen') :
    sgs.Pairwise (fun a b => a.account < b.account) ∧
    (∀ signer ∈ sgs, last < signer.account ∧ GoodSignature env tx sf signer) ∧
    (direct → ∀ signer ∈ sgs, signer.account ∉ seen) ∧
    ∀ id, id ∈ seen' ↔ id ∈ seen ∨ direct ∧ id ∈ sgs.map SigningAccount.account := by
  induction sgs generalizing last seen with
  | nil =>
    cases h
    simp
  | cons signer rest ih =>
    unfold checkSigningAccounts at h
    split at h
    · cases h
    next hre =>
    split at h
    · next hve =>
      push Not at hre
      obtain ⟨hsl, ho, hnw⟩ := hre
      obtain ⟨hp, hg, hfr, hs⟩ := ih h
      refine ⟨pairwise_cons.mpr ⟨fun next hn => (hg next hn).1, hp⟩, ?_, ?_, ?_⟩
      · refine forall_mem_cons.mpr ⟨⟨ho, Ne.symm hsl, hve⟩, fun next hn => ?_⟩
        exact ⟨BitVec.lt_trans ho (hg next hn).1, (hg next hn).2⟩
      · intro hd
        refine forall_mem_cons.mpr ⟨hnw hd, fun next hn hm => ?_⟩
        have hno := hfr hd next hn
        rw [if_pos hd] at hno
        exact hno (mem_cons_of_mem _ hm)
      · intro id
        rw [hs id]
        cases direct with
        | true => simp [or_assoc, or_left_comm]
        | false => simp
    · cases h

/-- It signs for no one seen before, and those are recorded. -/
theorem firstLevel_of_checkSigningAccounts {group : SigningFor}
    (hin : group.account ≠ tx.account → group.account ∉ seen)
    (h : checkSigningAccounts env tx group.account (decide (group.account = tx.account))
      group.signingAccounts last
      (if decide (group.account = tx.account) then seen else group.account :: seen) = some seen') :
    (firstLevel tx.account group).Nodup ∧
    (∀ id ∈ firstLevel tx.account group, id ∉ seen) ∧
    ∀ id, id ∈ seen' ↔ id ∈ seen ∨ id ∈ firstLevel tx.account group := by
  obtain ⟨hp, -, hfr, hs⟩ := of_checkSigningAccounts h
  unfold firstLevel
  by_cases hd : group.account = tx.account
  · simp only [hd, decide_true, if_true, true_and, true_implies] at hfr hs ⊢
    refine ⟨?_, forall_mem_map.mpr hfr, hs⟩
    exact pairwise_map.mpr (hp.imp fun hlt => BitVec.ne_of_lt hlt)
  simp only [hd, decide_false, if_false, Bool.false_eq_true, false_and, or_false, mem_cons] at hs ⊢
  refine ⟨nodup_singleton _, ?_, fun id => ?_⟩
  · simpa using hin hd
  · rw [hs id]
    simp [or_comm]

theorem of_checkSigningFors {grs : List SigningFor} (h : checkSigningFors env tx grs last seen) :
    (grs.flatMap (firstLevel tx.account)).Nodup ∧
    (∀ id ∈ grs.flatMap (firstLevel tx.account), id ∉ seen) ∧
    ∀ group ∈ grs, (group.signingAccounts.map SigningAccount.account).Nodup ∧
      ∀ signer ∈ group.signingAccounts, GoodSignature env tx group.account signer := by
  induction grs generalizing last seen with
  | nil => simp
  | cons group rest ih =>
    unfold checkSigningFors at h
    dsimp only at h
    split at h
    · cases h
    next hre =>
    push Not at hre
    split at h
    · cases h
    next seen' hsg =>
    obtain ⟨hp, hg, -, -⟩ := of_checkSigningAccounts hsg
    obtain ⟨hl, hu, hs⟩ := firstLevel_of_checkSigningAccounts
      (fun hne => hre.2.1 (by simpa using hne)) hsg
    obtain ⟨hnd, hnw, hgp⟩ := ih h
    refine ⟨?_, ?_, ?_⟩
    · refine nodup_append'.mpr ⟨hl, hnd, fun id hid hid' => ?_⟩
      exact hnw id hid' ((hs id).mpr (.inr hid))
    · intro id hid hm
      rcases mem_append.mp hid with hid | hid
      · exact hu id hid hm
      · exact hnw id hid ((hs id).mpr (.inl hm))
    · refine forall_mem_cons.mpr ⟨⟨?_, fun signer hsi => ?_⟩, hgp⟩
      · exact pairwise_map.mpr (hp.imp fun hlt => BitVec.ne_of_lt hlt)
      · exact (hg signer hsi).2

end STTx

/-! ## Soundness -/

namespace Transactor

variable {env : Env} {tx : STTx} {v : View} {groups : List SigningFor} {group : SigningFor}

variable {id : AccountID}

theorem signsFor_of_mem (hgp : tx.multiSigners = some groups) (hgr : group ∈ groups)
    (hg : ∀ signer ∈ group.signingAccounts, STTx.GoodSignature env tx group.account signer)
    (hk : ∀ signer ∈ group.signingAccounts, KeyAuthorized env v signer.account signer.signingPubKey)
    (hid : id ∈ group.signingAccounts.map SigningAccount.account) :
    id ≠ group.account ∧ SignsFor env tx v group.account id := by
  obtain ⟨signer, hsi, rfl⟩ := mem_map.mp hid
  refine ⟨(hg signer hsi).1, group, ?_, rfl, signer, hsi, rfl, (hg signer hsi).2, hk signer hsi⟩
  rw [hgp]
  exact hgr

theorem meetsQuorum_of_checkSigningAccounts {inner : SignerList} {weight : UInt32}
    (hi : SetSignerList.Accepted group.account inner) (hgp : tx.multiSigners = some groups)
    (hgr : group ∈ groups) (hnd : (group.signingAccounts.map SigningAccount.account).Nodup)
    (hg : ∀ signer ∈ group.signingAccounts, STTx.GoodSignature env tx group.account signer)
    (hwt : checkSigningAccounts env v inner.signerEntries group.signingAccounts 0 = .ok weight)
    (hq : inner.signerQuorum ≤ weight) :
    MeetsQuorum inner (SignsFor env tx v group.account) := by
  obtain ⟨⟨found, hfn, ha, rfl⟩, hk⟩ := of_checkSigningAccounts hwt
  rw [← ha] at hnd
  have hlt := weightOf_lt hi hfn hnd
  refine ⟨found, hfn, hnd, fun entry he => ?_, ?_, hlt⟩
  · refine (signsFor_of_mem hgp hgr hg hk ?_).2
    rw [← ha]
    exact mem_map_of_mem he
  · rw [UInt32.zero_add, UInt32.le_iff_toNat_le, UInt32.toNat_ofNat', Nat.mod_eq_of_lt hlt] at hq
    exact hq

/-! A refusal is not a success. -/

theorem bind_ne_error {ε α β : Type} {x : Except ε α} {f : α → Except ε β} {e : ε}
    (hx : x ≠ .error e) (hf : ∀ a, f a ≠ .error e) : (x >>= f) ≠ .error e := by
  cases x with
  | error e' =>
    intro h
    cases h
    exact hx rfl
  | ok a => exact hf a

theorem signerRefusal_ne (sg : SigningAccount) : signerRefusal env v sg ≠ some .tesSUCCESS := by
  unfold signerRefusal
  dsimp only
  split
  · split_ifs <;> simp
  · split_ifs <;> simp

theorem checkSigningAccounts_ne_error (es : List SignerEntry)
    (sgs : List SigningAccount) (ws : UInt32) :
    checkSigningAccounts env v es sgs ws ≠ .error .tesSUCCESS := by
  induction sgs generalizing es ws with
  | nil => simp [checkSigningAccounts]
  | cons signer rest ih =>
    unfold checkSigningAccounts
    split
    · simp
    split
    · next hrf =>
      intro h
      cases h
      exact signerRefusal_ne signer hrf
    · exact ih _ _

theorem multiSignWeight_ne_error {acc : AccountID} (outer : SignerList)
    (es : List SignerEntry) (grs : List SigningFor) (ws : UInt32) :
    multiSignWeight env v acc outer es grs ws ≠ .error .tesSUCCESS := by
  induction grs generalizing es ws with
  | nil => simp [multiSignWeight]
  | cons group rest ih =>
    unfold multiSignWeight
    split
    · exact bind_ne_error (checkSigningAccounts_ne_error _ _ _) fun weight => ih _ _
    split
    · simp
    refine bind_ne_error ?_ fun inner =>
      bind_ne_error (checkSigningAccounts_ne_error _ _ _) fun weight => ?_
    · unfold getSignerList
      split <;> simp
    · split
      · simp
      · exact ih _ _

/-- A first-level signer signs, or its own list does. -/
theorem represented_of_supported
    (hli : ∀ id list, v.get (.signers id) = some list → SetSignerList.Accepted id list)
    (hgp : tx.multiSigners = some groups) (hgr : group ∈ groups)
    (hnd : (group.signingAccounts.map SigningAccount.account).Nodup)
    (hg : ∀ signer ∈ group.signingAccounts, STTx.GoodSignature env tx group.account signer)
    (hsp : Supported env v tx.account group) (hid : id ∈ firstLevel tx.account group) :
    id ≠ tx.account ∧ (SignsFor env tx v tx.account id ∨
      ∃ inner, v.get (.signers id) = some inner ∧ MeetsQuorum inner (SignsFor env tx v id)) := by
  unfold Supported at hsp
  unfold firstLevel at hid
  split_ifs at hsp hid with hd
  · have hsn := signsFor_of_mem hgp hgr hg hsp hid
    rw [hd] at hsn
    exact ⟨hsn.1, .inl hsn.2⟩
  · obtain ⟨inner, weight, hi, hwt, hq⟩ := hsp
    obtain rfl := mem_singleton.mp hid
    refine ⟨hd, .inr ⟨inner, hi, ?_⟩⟩
    exact meetsQuorum_of_checkSigningAccounts (hli _ _ hi) hgp hgr hnd hg hwt hq

/-- If both checks pass, entries of the source account's signer list reach its quorum, of different
accounts, none the source account, each of which signs itself or by a quorum of its own list. -/
theorem multiSign_sound {s : TxState} (hac : s.account = tx.account)
    (hli : ∀ id list, s.view.get (.signers id) = some list → SetSignerList.Accepted id list)
    (hss : tx.checkMultiSign env = true)
    (hc : ((checkMultiSign env tx).run s).1 = .ok .tesSUCCESS) :
    ∃ list, s.view.get (.signers tx.account) = some list ∧
      MeetsQuorum list fun id => id ≠ tx.account ∧
        (SignsFor env tx s.view tx.account id ∨ ∃ inner, s.view.get (.signers id) = some inner ∧
            MeetsQuorum inner (SignsFor env tx s.view id)) := by
  have hres : multiSignResult env tx s.view tx.account = .tesSUCCESS := by
    rw [← hac]
    exact Except.ok.inj hc
  cases hgp : tx.multiSigners with
  | none => simp [STTx.checkMultiSign, hgp] at hss
  | some groups =>
    simp only [STTx.checkMultiSign, hgp, Bool.and_eq_true] at hss
    obtain ⟨hnd, -, hg⟩ := STTx.of_checkSigningFors hss.2
    cases hls : s.view.get (.signers tx.account) with
    | none => simp [multiSignResult, getSignerList, hls] at hres
    | some list =>
      simp only [multiSignResult, getSignerList, hls, hgp, Option.getD_some] at hres
      split at hres
      · next hre =>
        rw [hres] at hre
        exact absurd hre (multiSignWeight_ne_error _ _ _ _)
      next weightSum hwt =>
      split_ifs at hres with hq
      obtain ⟨⟨found, hfn, hl, rfl⟩, hsp⟩ := of_multiSignWeight (List.Subset.refl _) hwt
      rw [← hl] at hnd
      have hlt := weightOf_lt (hli _ _ hls) hfn hnd
      refine ⟨list, rfl, found, hfn, hnd, fun entry he => ?_, ?_, hlt⟩
      · have hid : entry.account ∈ groups.flatMap (firstLevel tx.account) := by
          rw [← hl]
          exact mem_map_of_mem he
        obtain ⟨group, hgr, hm⟩ := mem_flatMap.mp hid
        exact represented_of_supported hli hgp hgr (hg group hgr).1
          (hg group hgr).2 (hsp group hgr) hm
      · rw [UInt32.zero_add, UInt32.not_lt, UInt32.le_iff_toNat_le, UInt32.toNat_ofNat',
          Nat.mod_eq_of_lt hlt] at hq
        exact hq

/-- Account 1 needs accounts 2 and 3, account 3 one of 4 and 5. -/
def signerLedger : Ledger :=
  AList.insert (.signers 1) ⟨0, 2, [⟨2, 1⟩, ⟨3, 1⟩]⟩
    (AList.insert (.signers 3) ⟨0, 1, [⟨4, 1⟩, ⟨5, 1⟩]⟩ ∅)

/-- Account 2 signs, and account 4 for account 3. -/
def multiSigned : STTx where
  body := .other
  account := 1
  sequence := 1
  fee := .ofDrops 10
  multiSigners := some [⟨1, [⟨2, [2], [2]⟩]⟩, ⟨3, [⟨4, [4], [4]⟩]⟩]
  transactionID := 1

def multiSignState : TxState where
  view := (sampleView signerLedger).fresh 0
  account := 1

theorem accepted_signerLedger (id : AccountID) (list : SignerList)
    (h : multiSignState.view.get (.signers id) = some list) : SetSignerList.Accepted id list := by
  have hge : multiSignState.view.get (.signers id) = signerLedger.lookup (.signers id) :=
    OpenView.get_fresh _ _ _
  rw [hge] at h
  have hst (account : AccountID) (quorum : UInt32) (entries : List SignerEntry) (hq : quorum ≠ 0)
      (hso : entries.Pairwise fun a b => decide (a.account ≤ b.account))
      (hv : validateQuorumAndSignerEntries account quorum entries = none) :
      SetSignerList.Accepted account ⟨0, quorum, entries⟩ := by
    refine ⟨{ multiSigned with account }, ⟨quorum, some entries⟩, rfl, ?_⟩
    simp [operation, hq, mergeSort_of_pairwise hso, hv]
  obtain rfl | hon := eq_or_ne id 1
  · obtain rfl : (⟨0, 2, [⟨2, 1⟩, ⟨3, 1⟩]⟩ : SignerList) = list := Option.some.inj h
    exact hst 1 2 _ (by decide) (by decide) (by decide)
  obtain rfl | ht := eq_or_ne id 3
  · obtain rfl : (⟨0, 1, [⟨4, 1⟩, ⟨5, 1⟩]⟩ : SignerList) = list := Option.some.inj h
    exact hst 3 1 _ (by decide) (by decide) (by decide)
  unfold signerLedger at h
  rw [AList.lookup_insert_ne (by simpa using hon), AList.lookup_insert_ne (by simpa using ht)] at h
  cases h

theorem multiSigned_sound : multiSigned.checkMultiSign sampleEnv = true ∧
    ((checkMultiSign sampleEnv multiSigned).run multiSignState).1 = .ok .tesSUCCESS ∧
    ∃ list, multiSignState.view.get (.signers 1) = some list ∧ MeetsQuorum list fun id => id ≠ 1 ∧
        (SignsFor sampleEnv multiSigned multiSignState.view 1 id ∨
          ∃ inner, multiSignState.view.get (.signers id) = some inner ∧
            MeetsQuorum inner (SignsFor sampleEnv multiSigned multiSignState.view id)) := by
  have hss : multiSigned.checkMultiSign sampleEnv := by decide
  have hc : ((checkMultiSign sampleEnv multiSigned).run multiSignState).1 =
      .ok .tesSUCCESS := by decide
  exact ⟨hss, hc, multiSign_sound rfl accepted_signerLedger hss hc⟩

end Transactor

end Sand
