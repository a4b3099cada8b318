import Sand.Ledger.Entry

/-!
# Skip lists

Every ledger lists the last 256 hashes, and that of every 256th ledger.
-/

namespace Sand

open List UInt32 Nat

structure LedgerHashes where
  hashes : List UInt256 := []
  lastLedgerSequence : UInt32 := 0
  deriving DecidableEq

inductive SkipKey where
  | recent
  | block (number : UInt32)
  deriving DecidableEq

def SkipKey.ofLedger (ledger : UInt32) : SkipKey := .block (ledger >>> 16)

structure ChainLedger where
  seq : UInt32
  hash : UInt256
  parentHash : UInt256
  skip : AList fun _ : SkipKey => LedgerHashes
  /-- The entries that do not list hashes. -/
  state : Ledger

namespace ChainLedger

variable (ledger : ChainLedger)

def hashesAt (k : SkipKey) : List UInt256 :=
  ((ledger.skip.lookup k).map (·.hashes)).getD []

/-- Appends a hash to an entry's list, or creates the entry. -/
def setHashes (k : SkipKey) (hashes : List UInt256) : ChainLedger :=
  { ledger with skip := ledger.skip.insert k ⟨hashes ++ [ledger.parentHash], ledger.seq - 1⟩ }

def updateBlock : ChainLedger :=
  let prevIndex := ledger.seq - 1
  if prevIndex &&& 0xff = 0 then
    ledger.setHashes (.ofLedger prevIndex) (ledger.hashesAt (.ofLedger prevIndex))
  else
    ledger

def updateRecent : ChainLedger :=
  let hashes := ledger.hashesAt .recent
  ledger.setHashes .recent (if hashes.length = 256 then hashes.tail else hashes)

def updateSkipList : ChainLedger :=
  if ledger.seq = 0 then ledger else ledger.updateBlock.updateRecent

/-- A negative `diff` is compared as a large unsigned number. -/
def recentHash (diff : Int) : Option UInt256 :=
  if diff ≤ 256 then
    match ledger.skip.lookup .recent with
    | none => none
    | some hashIndex =>
      let vec := hashIndex.hashes
      if 0 ≤ diff ∧ diff.toNat ≤ vec.length then vec[vec.length - diff.toNat]? else none
  else
    none

def blockHash (seq : UInt32) : Option UInt256 :=
  match ledger.skip.lookup (.ofLedger seq) with
  | none => none
  | some hashIndex =>
    let diff := (hashIndex.lastLedgerSequence - seq) >>> 8
    let vec := hashIndex.hashes
    if diff.toNat < vec.length then vec[vec.length - diff.toNat - 1]? else none

def hashOfSeq (seq : UInt32) : Option UInt256 :=
  if ledger.seq < seq then
    none
  else if seq = ledger.seq then
    some ledger.hash
  else if seq = ledger.seq - 1 then
    some ledger.parentHash
  else
    match ledger.recentHash (ledger.seq - seq).toInt32.toInt with
    | some hash => some hash
    | none => if seq &&& 0xff ≠ 0 then none else ledger.blockHash seq

end ChainLedger

/-- The state is that of the parent, changed outside the lists of hashes and then with the lists
updated. -/
structure ChainLedger.Follows (parent ledger : ChainLedger) : Prop where
  seq : ledger.seq = parent.seq + 1
  parentHash : ledger.parentHash = parent.hash
  skip : ledger.skip = { ledger with skip := parent.skip }.updateSkipList.skip

/-- Ledgers 1 to `n`, from a first one without hashes. -/
structure Chain (ledger : ℕ → ChainLedger) (n : ℕ) : Prop where
  bound : n < 2 ^ 32
  first : (ledger 1).seq = 1
  skip : (ledger 1).skip = ∅
  follows : ∀ i, 1 ≤ i → i < n → (ledger i).Follows (ledger (i + 1))

/-! ## What is recorded -/

/-- Of every `stride`-th ledger from `stride * first` on. -/
def hashesEntry (hash : ℕ → UInt256) (stride first count : ℕ) : Option LedgerHashes :=
  if count = 0 then
    none
  else
    some ⟨(range' first count).map fun j => hash (stride * j),
      .ofNat (stride * (first + count - 1))⟩

theorem hashes_hashesEntry (hash : ℕ → UInt256) (str first cn : ℕ) :
    ((hashesEntry hash str first cn).map (·.hashes)).getD [] =
      (range' first cn).map fun j => hash (str * j) := by
  cases cn <;> rfl

theorem hashesEntry_succ (hash : ℕ → UInt256) (str first cn : ℕ) :
    hashesEntry hash str first (cn + 1) = some ⟨((range' first cn).map fun j => hash (str * j)) ++
        [hash (str * (first + cn))], .ofNat (str * (first + cn))⟩ := by
  simp [hashesEntry, range'_concat]

def recentCount (n : ℕ) : ℕ := min 256 (n - 1)

/-- The number of its first ledger is this times 256. -/
def blockFirst (number : ℕ) : ℕ := max 1 (256 * number)

/-- How many hashes ledger `n` has of a block. -/
def blockCount (number n : ℕ) : ℕ :=
  min ((n - 1) / 256) (256 * number + 255) + 1 - blockFirst number

/-- What ledger `n` of a chain lists. -/
structure Recorded (hash : ℕ → UInt256) (n : ℕ) (skip : AList fun _ : SkipKey => LedgerHashes) :
    Prop where
  recent : skip.lookup .recent = hashesEntry hash 1 (n - recentCount n) (recentCount n)
  block : ∀ number : UInt32, skip.lookup (.block number) =
    hashesEntry hash 256 (blockFirst number.toNat) (blockCount number.toNat n)

variable {hash : ℕ → UInt256} {n : ℕ}

theorem recorded_first : Recorded hash 1 ∅ where
  recent := rfl
  block number := by
    have hc : blockCount number.toNat 1 = 0 := by
      unfold blockCount blockFirst
      omega
    rw [hc]
    rfl

variable {seq : UInt32}

theorem toNat_pred (hs : seq.toNat = n + 1) : (seq - 1).toNat = n := by
  have hle : (1 : UInt32) ≤ seq := by
    rw [le_iff_toNat_le, hs]
    exact succ_le_succ (zero_le n)
  rw [UInt32.toNat_sub_of_le _ _ hle, hs]
  rfl

theorem pred_eq_ofNat (hs : seq.toNat = n + 1) : seq - 1 = .ofNat n := by
  have hlt := seq.toNat_lt
  rw [← UInt32.toNat_inj, toNat_pred hs, toNat_ofNat', mod_eq_of_lt (by omega)]

theorem and_255_eq_zero_iff (seq : UInt32) : seq &&& 0xff = 0 ↔ seq.toNat % 256 = 0 := by
  rw [← UInt32.toNat_inj, UInt32.toNat_and]
  exact iff_of_eq (congrArg (· = 0) (and_two_pow_sub_one_eq_mod seq.toNat 8))

theorem toNat_shiftRight_16 (seq : UInt32) : (seq >>> 16).toNat = seq.toNat / 65536 := by
  exact shiftRight_eq_div_pow seq.toNat 16

namespace ChainLedger

variable {ledger : ChainLedger}

theorem lookup_setHashes (k : SkipKey) (hss : List UInt256) :
    (ledger.setHashes k hss).skip.lookup k = some ⟨hss ++ [ledger.parentHash], ledger.seq - 1⟩ :=
  AList.lookup_insert _

theorem lookup_setHashes_ne {k k' : SkipKey} (hne : k' ≠ k) (hss : List UInt256) :
    (ledger.setHashes k hss).skip.lookup k' = ledger.skip.lookup k' :=
  AList.lookup_insert_ne hne

theorem hashesAt_of_lookup {k : SkipKey} {str first cn : ℕ}
    (h : ledger.skip.lookup k = hashesEntry hash str first cn) :
    ledger.hashesAt k = (range' first cn).map fun j => hash (str * j) := by
  rw [hashesAt, h, hashes_hashesEntry]

theorem lookup_updateBlock (hr : Recorded hash n ledger.skip)
    (hs : ledger.seq.toNat = n + 1) (hp : ledger.parentHash = hash n) (hn : 1 ≤ n)
    (nb : UInt32) :
    ledger.updateBlock.skip.lookup (.block nb) =
      hashesEntry hash 256 (blockFirst nb.toNat) (blockCount nb.toNat (n + 1)) := by
  have hpr := toNat_pred hs
  have hc (ho : n % 256 ≠ 0 ∨ nb.toNat ≠ n / 65536) :
      blockCount nb.toNat (n + 1) = blockCount nb.toNat n := by
    unfold blockCount blockFirst
    omega
  unfold updateBlock
  by_cases hm : n % 256 = 0
  · rw [if_pos ((and_255_eq_zero_iff _).mpr (by rw [hpr, hm]))]
    by_cases hnu : SkipKey.block nb = .ofLedger (ledger.seq - 1)
    · have hb : nb.toNat = n / 65536 := by
        cases hnu
        rw [toNat_shiftRight_16, hpr]
      have hl : blockFirst nb.toNat + blockCount nb.toNat n = n / 256 := by
        unfold blockCount blockFirst
        omega
      have hg : blockCount nb.toNat (n + 1) = blockCount nb.toNat n + 1 := by
        unfold blockCount blockFirst
        omega
      have hsa : 256 * (n / 256) = n := by omega
      rw [hg, hashesEntry_succ, hl, hsa, ← hnu, lookup_setHashes,
        hashesAt_of_lookup (hr.block nb), hp, pred_eq_ofNat hs]
    · rw [lookup_setHashes_ne hnu, hr.block, hc (.inr fun heq => hnu ?_)]
      rw [SkipKey.ofLedger, SkipKey.block.injEq, ← UInt32.toNat_inj, toNat_shiftRight_16, hpr, heq]
  · rw [if_neg (fun h => hm (by rwa [and_255_eq_zero_iff, hpr] at h)), hr.block, hc (.inl hm)]

theorem updateBlock_frame : ledger.updateBlock.skip.lookup .recent = ledger.skip.lookup .recent ∧
      ledger.updateBlock.seq = ledger.seq ∧ ledger.updateBlock.parentHash = ledger.parentHash := by
  unfold updateBlock
  dsimp only
  split
  · exact ⟨lookup_setHashes_ne (by simp [SkipKey.ofLedger]) _, rfl, rfl⟩
  · exact ⟨rfl, rfl, rfl⟩

theorem lookup_updateRecent (hre : ledger.skip.lookup .recent =
      hashesEntry hash 1 (n - recentCount n) (recentCount n))
    (hs : ledger.seq.toNat = n + 1) (hp : ledger.parentHash = hash n) (hn : 1 ≤ n) :
    ledger.updateRecent.skip.lookup .recent =
      hashesEntry hash 1 (n + 1 - recentCount (n + 1)) (recentCount (n + 1)) := by
  unfold updateRecent
  rw [lookup_setHashes, hashesAt_of_lookup hre, hp, pred_eq_ofNat hs, length_map, length_range']
  by_cases hfu : recentCount n = 256
  · have hg : recentCount (n + 1) = 255 + 1 := by
      unfold recentCount at hfu ⊢
      omega
    have hla : 257 ≤ n := by
      unfold recentCount at hfu
      omega
    have hfs : n + 1 - (255 + 1) = n - 256 + 1 := by omega
    have hl : 1 * (n - 256 + 1 + 255) = n := by omega
    rw [if_pos hfu, hfu, hg, hashesEntry_succ, hfs, hl, ← map_tail, tail_range']
  · have hc : recentCount n = n - 1 := by
      unfold recentCount at hfu ⊢
      omega
    have hg : recentCount (n + 1) = (n - 1) + 1 := by
      unfold recentCount at hfu ⊢
      omega
    have hfs : n + 1 - (n - 1 + 1) = n - (n - 1) := by omega
    have hl : 1 * (n - (n - 1) + (n - 1)) = n := by omega
    rw [if_neg hfu, hg, hashesEntry_succ, hc, hfs, hl]

theorem recorded_updateSkipList (hr : Recorded hash n ledger.skip)
    (hs : ledger.seq.toNat = n + 1) (hp : ledger.parentHash = hash n) (hn : 1 ≤ n) :
    Recorded hash (n + 1) ledger.updateSkipList.skip := by
  obtain ⟨hre, hs', hp'⟩ := @updateBlock_frame ledger
  have h0 : ledger.seq ≠ 0 := by
    intro h
    rw [h] at hs
    exact absurd hs (succ_ne_zero n).symm
  unfold updateSkipList
  rw [if_neg h0]
  constructor
  · exact lookup_updateRecent (hre.trans hr.recent) (hs' ▸ hs) (hp'.trans hp) hn
  · intro number
    rw [updateRecent, lookup_setHashes_ne (by simp), lookup_updateBlock hr hs hp hn]

/-! ## Looking up -/

theorem hash_of_hashesEntry {str first cn idx : ℕ} {ent : LedgerHashes}
    (hen : hashesEntry hash str first cn = some ent) (hid : idx < cn) :
    ent.hashes[idx]? = some (hash (str * (first + idx))) := by
  have hc : cn ≠ 0 := by omega
  rw [hashesEntry, if_neg hc] at hen
  cases hen
  rw [List.getElem?_map, List.getElem?_range' hid, Option.map_some, Nat.one_mul]

theorem toInt32_of_le {seq' : UInt32} (hle : seq' ≤ seq) : (seq - seq').toInt32.toInt =
      if seq.toNat - seq'.toNat < 2 ^ 31 then ((seq.toNat - seq'.toNat : ℕ) : Int)
      else ((seq.toNat - seq'.toNat : ℕ) : Int) - 2 ^ 32 := by
  have hsu := UInt32.toNat_sub_of_le _ _ hle
  have htoInt : (seq - seq').toInt32.toInt = (seq - seq').toBitVec.toInt := rfl
  have htoNat : (seq - seq').toBitVec.toNat = seq.toNat - seq'.toNat := hsu
  rw [htoInt, BitVec.toInt_eq_toNat_cond, htoNat]
  by_cases hsm : seq.toNat - seq'.toNat < 2 ^ 31
  · rw [if_pos (by omega), if_pos hsm]
  · rw [if_neg (by omega), if_neg hsm]
    rfl

theorem recentHash_eq (hr : Recorded hash n ledger.skip) (hs : ledger.seq.toNat = n)
    (hlt : seq.toNat < n) :
    ledger.recentHash (ledger.seq - seq).toInt32.toInt =
      if 1 ≤ seq.toNat ∧ n ≤ seq.toNat + 256 then some (hash seq.toNat) else none := by
  have hle : seq ≤ ledger.seq := by
    rw [le_iff_toNat_le, hs]
    exact le_of_lt hlt
  rw [toInt32_of_le hle, hs]
  unfold recentHash
  by_cases hna : n ≤ seq.toNat + 256
  · have hsm : n - seq.toNat < 2 ^ 31 := by omega
    have hd : ((n - seq.toNat : ℕ) : Int) ≤ 256 := by omega
    rw [if_pos hsm, if_pos hd, hr.recent]
    by_cases hc : recentCount n = 0
    · have hno : ¬ (1 ≤ seq.toNat ∧ n ≤ seq.toNat + 256) := by
        unfold recentCount at hc
        omega
      rw [if_neg hno, hashesEntry, if_pos hc]
    rw [hashesEntry, if_neg hc]
    simp only [length_map, length_range', Int.natCast_nonneg, Int.toNat_natCast, true_and]
    have hif : n - seq.toNat ≤ recentCount n ↔ 1 ≤ seq.toNat ∧ n ≤ seq.toNat + 256 := by
      unfold recentCount
      omega
    by_cases hf : 1 ≤ seq.toNat ∧ n ≤ seq.toNat + 256
    · have hwi := hif.mpr hf
      have hid : recentCount n - (n - seq.toNat) < recentCount n := by omega
      have hpl : 1 * (n - recentCount n + (recentCount n - (n - seq.toNat))) = seq.toNat := by
        unfold recentCount at hwi ⊢
        omega
      rw [if_pos hwi, if_pos hf, hash_of_hashesEntry (if_neg hc) hid, hpl]
    · rw [if_neg (fun h => hf (hif.mp h)), if_neg hf]
  · have hfa : ¬ (1 ≤ seq.toNat ∧ n ≤ seq.toNat + 256) := fun h => hna h.2
    rw [if_neg hfa]
    by_cases hsm : n - seq.toNat < 2 ^ 31
    · have hd : ¬ ((n - seq.toNat : ℕ) : Int) ≤ 256 := by omega
      rw [if_pos hsm, if_neg hd]
    have hng : ¬ (0 : Int) ≤ ((n - seq.toNat : ℕ) : Int) - 2 ^ 32 := by
      have hbo := ledger.seq.toNat_lt
      omega
    rw [if_neg hsm]
    split
    · split
      · rfl
      · exact if_neg fun h => hng h.1
    · rfl

theorem blockHash_eq (hr : Recorded hash n ledger.skip) (hn : n < 2 ^ 32)
    (hlt : seq.toNat < n) (hm : seq.toNat % 256 = 0) :
    ledger.blockHash seq = if 1 ≤ seq.toNat then some (hash seq.toNat) else none := by
  have hb := hr.block (seq >>> 16)
  rw [toNat_shiftRight_16] at hb
  unfold blockHash SkipKey.ofLedger
  rw [hb]
  generalize hfs : blockFirst (seq.toNat / 65536) = first
  generalize hc : blockCount (seq.toNat / 65536) n = count
  have hc' : count = min ((n - 1) / 256) (256 * (seq.toNat / 65536) + 255) + 1 - first := by
    rw [← hc, blockCount, hfs]
  unfold blockFirst at hfs
  by_cases he : count = 0
  · have hno : ¬ 1 ≤ seq.toNat := by omega
    rw [hashesEntry, if_pos he, if_neg hno]
  -- the last hash is that of ledger 256 * (first + count - 1), and `seq` is not beyond it
  have hl : (ofNat (256 * (first + count - 1))).toNat = 256 * (first + count - 1) := by
    rw [toNat_ofNat', mod_eq_of_lt (by omega)]
  have hle : seq ≤ .ofNat (256 * (first + count - 1)) := by
    rw [le_iff_toNat_le, hl]
    omega
  have hd : ((ofNat (256 * (first + count - 1)) - seq) >>> 8).toNat =
      first + count - 1 - seq.toNat / 256 := by
    rw [UInt32.toNat_shiftRight, UInt32.toNat_sub_of_le _ _ hle, hl]
    have hsh := shiftRight_eq_div_pow (256 * (first + count - 1) - seq.toNat) 8
    rw [show (8 : UInt32).toNat % 32 = 8 from rfl, hsh]
    omega
  rw [hashesEntry, if_neg he]
  simp only [hd, length_map, length_range']
  by_cases hpo : 1 ≤ seq.toNat
  · have hwi : first + count - 1 - seq.toNat / 256 < count := by omega
    have hid : count - (first + count - 1 - seq.toNat / 256) - 1 < count := by omega
    have hpl : 256 * (first + (count - (first + count - 1 - seq.toNat / 256) - 1)) =
        seq.toNat := by omega
    rw [if_pos hwi, if_pos hpo, hash_of_hashesEntry (if_neg he) hid, hpl]
  · have hbe : ¬ first + count - 1 - seq.toNat / 256 < count := by omega
    rw [if_neg hbe, if_neg hpo]

end ChainLedger

/-! ## Chains -/

namespace Chain

variable {ledger : ℕ → ChainLedger} {n : ℕ}

def hashOf (ledger : ℕ → ChainLedger) (i : ℕ) : UInt256 :=
  if i = 0 then (ledger 1).parentHash else (ledger i).hash

variable {i : ℕ}

theorem toNat_seq (h : Chain ledger n) (hi : 1 ≤ i) (hin : i ≤ n) : (ledger i).seq.toNat = i := by
  induction i, hi using le_induction with
  | base => rw [h.first]; rfl
  | succ i hi ih =>
    have hbo := h.bound
    rw [(h.follows i hi hin).seq, UInt32.toNat_add, ih (le_of_lt hin)]
    exact mod_eq_of_lt (by show i + 1 < 2 ^ 32; omega)

theorem parentHash_eq (h : Chain ledger n) (hin : i + 1 ≤ n) :
    (ledger (i + 1)).parentHash = hashOf ledger i := by
  cases i with
  | zero => rfl
  | succ i => exact (h.follows (i + 1) (le_add_left 1 i) hin).parentHash

theorem recorded (h : Chain ledger n) (hi : 1 ≤ i) (hin : i ≤ n) :
    Recorded (hashOf ledger) i (ledger i).skip := by
  induction i, hi using le_induction with
  | base =>
    rw [h.skip]
    exact recorded_first
  | succ i hi ih =>
    rw [(h.follows i hi hin).skip]
    exact ChainLedger.recorded_updateSkipList (ih (le_of_lt hin)) (h.toNat_seq (by omega) hin)
      (h.parentHash_eq hin) hi

theorem hashOfSeq_eq (h : Chain ledger n) (hi : 1 ≤ i) (hin : i ≤ n) (seq : UInt32) :
    (ledger i).hashOfSeq seq =
      if seq.toNat = i ∨ seq.toNat + 1 = i ∨
          1 ≤ seq.toNat ∧ seq.toNat ≤ i ∧ (i ≤ seq.toNat + 256 ∨ 256 ∣ seq.toNat) then
        some (hashOf ledger seq.toNat)
      else
        none := by
  have hs := h.toNat_seq hi hin
  have hr := h.recorded hi hin
  have hbo := h.bound
  unfold ChainLedger.hashOfSeq
  by_cases hft : i < seq.toNat
  · have hlt : (ledger i).seq < seq := by rwa [lt_iff_toNat_lt, hs]
    rw [if_pos hlt, if_neg (by omega)]
  have hnt : ¬ (ledger i).seq < seq := by rwa [lt_iff_toNat_lt, hs]
  rw [if_neg hnt]
  by_cases hse : seq.toNat = i
  · have heq : seq = (ledger i).seq := by rw [← UInt32.toNat_inj, hs, hse]
    have hne : i ≠ 0 := by omega
    rw [if_pos heq, if_pos (.inl hse), hashOf, hse, if_neg hne]
  have hne : seq ≠ (ledger i).seq := fun heq => hse (by rw [heq, hs])
  rw [if_neg hne]
  obtain ⟨j, rfl⟩ := (@Nat.exists_eq_add_one i).mpr (by omega)
  have hpr := toNat_pred hs
  by_cases hp : seq.toNat = j
  · have heq : seq = (ledger (j + 1)).seq - 1 := by rw [← UInt32.toNat_inj, hpr, hp]
    rw [if_pos heq, if_pos (.inr (.inl (by rw [hp]))), h.parentHash_eq hin, hp]
  have hne' : seq ≠ (ledger (j + 1)).seq - 1 := fun heq => hp (by rw [heq, hpr])
  rw [if_neg hne', ChainLedger.recentHash_eq hr hs (by omega)]
  by_cases hre : 1 ≤ seq.toNat ∧ j + 1 ≤ seq.toNat + 256
  · have hf : 1 ≤ seq.toNat ∧ seq.toNat ≤ j + 1 ∧
        (j + 1 ≤ seq.toNat + 256 ∨ 256 ∣ seq.toNat) := by omega
    rw [if_pos hre]
    exact (if_pos (.inr (.inr hf))).symm
  rw [if_neg hre]
  by_cases hm : seq.toNat % 256 = 0
  · rw [if_neg (not_not.mpr ((and_255_eq_zero_iff seq).mpr hm)),
      ChainLedger.blockHash_eq hr (by omega) (by omega) hm]
    by_cases hpo : 1 ≤ seq.toNat
    · rw [if_pos hpo, if_pos (by omega)]
    · rw [if_neg hpo, if_neg (by omega)]
  · rw [if_pos (fun heq => hm ((and_255_eq_zero_iff seq).mp heq)), if_neg (by omega)]

/-- A ledger tells nothing or the true hash, and the true one of itself, its parent, the 256
ledgers before it and every 256th ledger. -/
theorem hashOfSeq_true (h : Chain ledger n) (hi : 1 ≤ i) (hin : i ≤ n) (seq : UInt32) :
    ((ledger i).hashOfSeq seq = none ∨ (ledger i).hashOfSeq seq = some (hashOf ledger seq.toNat)) ∧
      (seq.toNat = i ∨ seq.toNat + 1 = i ∨
          1 ≤ seq.toNat ∧ seq.toNat ≤ i ∧ (i ≤ seq.toNat + 256 ∨ 256 ∣ seq.toNat) →
        (ledger i).hashOfSeq seq = some (hashOf ledger seq.toNat)) := by
  rw [h.hashOfSeq_eq hi hin seq]
  constructor
  · split
    · exact .inr rfl
    · exact .inl rfl
  · intro hf
    rw [if_pos hf]

end Chain

/-- Each ledger's hash is its number. -/
def sampleLedger : ℕ → ChainLedger
  | 0 => ⟨0, 0, 0, ∅, ∅⟩
  | 1 => ⟨1, 1, 0, ∅, ∅⟩
  | i + 2 =>
    ChainLedger.updateSkipList
      ⟨.ofNat (i + 2), .ofNat 256 (i + 2), .ofNat 256 (i + 1), (sampleLedger (i + 1)).skip, ∅⟩

/-- Ledger 3 has the hash of ledger 1. -/
theorem sampleLedger_hashOfSeq :
    Chain sampleLedger 3 ∧ (sampleLedger 3).hashOfSeq 1 = some (sampleLedger 1).hash := by
  have hch : Chain sampleLedger 3 := by
    refine ⟨by decide, rfl, rfl, fun i hi hin => ?_⟩
    match i, hi, hin with
    | 1, _, _ => exact ⟨rfl, rfl, rfl⟩
    | 2, _, _ => exact ⟨rfl, rfl, rfl⟩
  exact ⟨hch, (hch.hashOfSeq_true (by decide) (by decide) 1).2 (by decide)⟩

end Sand
