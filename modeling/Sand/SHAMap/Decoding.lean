import Sand.SHAMap.Wire

/-!
# Decoding is fixed by the hash

Nodes with the same hash decode to the same node, up to branches of a compressed inner node that
were overwritten with zero.
-/

namespace Sand

open Serializer Function List UInt256 SHAMapInnerNode SHAMapTreeNode HashPrefix Option

theorem flatMap_inj_of_length {ι α : Type} {f g : ι → List α} {l : List ι}
    (hle : ∀ i ∈ l, (f i).length = (g i).length) (h : l.flatMap f = l.flatMap g) :
    ∀ i ∈ l, f i = g i := by
  induction l with
  | nil => exact fun i hi => absurd hi not_mem_nil
  | cons i l ih =>
    obtain ⟨hhe, hta⟩ := append_inj h (hle i mem_cons_self)
    have hrs := ih (fun j hj => hle j (mem_cons_of_mem _ hj)) hta
    intro j hj
    rcases mem_cons.mp hj with rfl | hj
    · exact hhe
    · exact hrs j hj

namespace SHAMapInnerNode

theorem hashedBytes_injective : Function.Injective hashedBytes := by
  intro hashes hashes' h
  have hbl := append_cancel_left h
  have hle : ∀ i ∈ finRange 16, (hashes i).toBytes.length = (hashes' i).toBytes.length := by
    intro i _
    rw [length_toBytes, length_toBytes]
  funext i
  exact toBytes_injective (flatMap_inj_of_length hle hbl i (mem_finRange i))

theorem isEmpty_iff (n : SHAMapInnerNode) : n.isEmpty ↔ ∀ i, n.mIsBranch i = false := by
  simp [isEmpty, isEmptyBranch]

/-- The branch that entry `i` names, and a hash. -/
def entry (s : Blob) (i : ℕ) : ℕ × UInt256 :=
  ((s[32 + i * 33]?.getD 0).toNat, UInt256.ofBytes ((s.drop (i * 33)).take 32))

def entries (s : Blob) (count : ℕ) : List (ℕ × UInt256) :=
  (range count).map (entry s)

variable (es : List (ℕ × UInt256))

/-- The hash in the last entry for a branch, or zero. -/
def lastHash (m : Fin 16) : UInt256 :=
  (es.reverse.find? (·.1 == m.val)).elim 0 Prod.snd

theorem entries_succ (s : Blob) (cn : ℕ) : entries s (cn + 1) = entries s cn ++ [entry s cn] := by
  simp [entries, range_succ]

theorem lastHash_concat (e : ℕ × UInt256) (m : Fin 16) :
    lastHash (es ++ [e]) m = if e.1 = m.val then e.2 else lastHash es m := by
  by_cases h : e.1 = m.val <;> simp [lastHash, h]

theorem of_readEntry {s : Blob} {n n' : SHAMapInnerNode} {i : ℕ} (hi : i < s.length / 33)
    (h : readEntry s n i = .ok n') :
    ∃ hpo : (entry s i).1 < 16, n'.mHashes = Function.update n.mHashes ⟨_, hpo⟩ (entry s i).2 ∧
      n'.mIsBranch = if (entry s i).2 ≠ 0 then Function.update n.mIsBranch ⟨_, hpo⟩ true
        else n.mIsBranch := by
  have hbo : 32 + i * 33 < s.length := by omega
  have hh : ∀ old, (get256 s (i * 33)).getD old = (entry s i).2 := by
    intro old
    rw [get256, if_neg (by omega)]
    rfl
  have hby : get8 s (32 + i * 33) = some (s[32 + i * 33]?.getD 0) := by
    simp [get8, hbo]
  simp only [readEntry, hby, hh] at h
  split at h
  · next hpo =>
      cases h
      exact ⟨hpo, rfl, rfl⟩
  · simp at h

/-- Each branch has the hash of its last entry, and is in use if any of its entries has a hash. -/
theorem of_foldlM_readEntry {s : Blob} {seq cn : ℕ} {n : SHAMapInnerNode} (hc : cn ≤ s.length / 33)
    (h : (range cn).foldlM (readEntry s) { mSeq := seq } = .ok n) (m : Fin 16) :
    n.mHashes m = lastHash (entries s cn) m ∧
      (n.mIsBranch m ↔ ∃ e ∈ entries s cn, e.1 = m.val ∧ e.2 ≠ 0) := by
  induction cn generalizing n with
  | zero =>
    cases h
    simp [entries, lastHash]
  | succ cn ih =>
    rw [range_succ, foldlM_append] at h
    cases hr : (range cn).foldlM (readEntry s) { mSeq := seq } with
    | error e =>
      rw [hr] at h
      cases h
    | ok n0 =>
      rw [hr] at h
      obtain ⟨ihhash, ihbranch⟩ := ih (by omega) hr
      have hen : readEntry s n0 cn = .ok n := by
        change (readEntry s n0 cn >>= pure) = .ok n at h
        rwa [bind_pure] at h
      obtain ⟨hpo, hhs, hbr⟩ := of_readEntry (by omega) hen
      rw [entries_succ, lastHash_concat, hhs, hbr]
      by_cases hm : (entry s cn).1 = m.val
      · obtain rfl : (⟨_, hpo⟩ : Fin 16) = m := Fin.ext hm
        by_cases hze : (entry s cn).2 = 0
        · simp [hze, ihbranch]
        · rw [if_pos hze, update_self, update_self, if_pos rfl]
          refine ⟨rfl, fun _ => ⟨entry s cn, ?_, rfl, hze⟩, fun _ => rfl⟩
          exact mem_append_right _ mem_cons_self
      · have hne : m ≠ ⟨_, hpo⟩ := fun heq => hm (congrArg Fin.val heq).symm
        have hs : (if (entry s cn).2 ≠ 0 then
            update n0.mIsBranch ⟨_, hpo⟩ true else n0.mIsBranch) m =
            n0.mIsBranch m := by
          split
          · exact update_of_ne hne _ _
          · rfl
        rw [update_of_ne hne, if_neg hm, hs]
        refine ⟨ihhash, ?_⟩
        simp [ihbranch, hm, or_and_right, exists_or]

end SHAMapInnerNode

namespace SHAMapTreeNode

/-- Hashed bytes give back type, data and, if hashed, the key. -/
theorem eq_of_hashedBytes_eq {type type' : TNType} {item item' : SHAMapItem}
    (h : hashedBytes type item = hashedBytes type' item') :
    type = type' ∧ item.data = item'.data ∧ (type ≠ .tnTRANSACTION_NM → item.key = item'.key) := by
  have hsp : ∀ {pre : Blob}, pre ++ item.data ++ item.key.toBytes =
      pre ++ item'.data ++ item'.key.toBytes → item.data = item'.data ∧ item.key = item'.key := by
    intro pre h
    rw [append_assoc, append_assoc] at h
    have hle : item.key.toBytes.length = item'.key.toBytes.length := by
      rw [length_toBytes, length_toBytes]
    obtain ⟨hda, hke⟩ := append_inj' (append_cancel_left h) hle
    exact ⟨hda, toBytes_injective hke⟩
  cases type <;> cases type' <;> simp only [hashedBytes, transactionID, leafNode, txNode] at h
  case tnTRANSACTION_NM.tnTRANSACTION_NM =>
      exact ⟨rfl, append_cancel_left h, fun hne => absurd rfl hne⟩
  case tnTRANSACTION_MD.tnTRANSACTION_MD =>
      obtain ⟨hda, hke⟩ := hsp h
      exact ⟨rfl, hda, fun _ => hke⟩
  case tnACCOUNT_STATE.tnACCOUNT_STATE =>
      obtain ⟨hda, hke⟩ := hsp h
      exact ⟨rfl, hda, fun _ => hke⟩
  all_goals simp at h

theorem hashedBytes_ne_inner (type : TNType) (item : SHAMapItem) (hashes : Fin 16 → UInt256) :
    hashedBytes type item ≠ SHAMapInnerNode.hashedBytes hashes := by
  cases type <;> simp [hashedBytes, SHAMapInnerNode.hashedBytes, transactionID, leafNode,
      txNode, innerNode]

end SHAMapTreeNode

namespace SHAMapAbstractNode

/-- Same kind, type and item; or the same hashes and branches. -/
def Same : SHAMapAbstractNode → SHAMapAbstractNode → Prop
  | .inner n, .inner n' => n.mHashes = n'.mHashes ∧ n.mIsBranch = n'.mIsBranch
  | .leaf n, .leaf n' => n.mType = n'.mType ∧ n.mItem = n'.mItem
  | _, _ => False

/-- What is hashed; nothing for a node without branches. -/
def message : SHAMapAbstractNode → Option Blob
  | .inner n => if n.isEmpty then none else some (SHAMapInnerNode.hashedBytes n.mHashes)
  | .leaf n => some (SHAMapTreeNode.hashedBytes n.mType n.mItem)

/-- The content's hash; a transaction without metadata is keyed by it. -/
structure Hashed [Sha512Half] (n : SHAMapAbstractNode) : Prop where
  hash : n.getNodeHash = n.message.elim 0 sha512Half
  key : ∀ l, n = .leaf l → l.mType = .tnTRANSACTION_NM →
    l.mItem.key = SHAMapTreeNode.hashOf l.mType l.mItem

variable [Sha512Half] {seq : ℕ} {hash : UInt256} {n : SHAMapAbstractNode} {format : SHANodeFormat}
  {rawNode : Blob}

theorem hashed_inner_finish (n : SHAMapInnerNode) (hash : UInt256) :
    Hashed (.inner (n.finish hash false)) where
  hash := by
    have hb : n.updateHash.isEmpty = n.isEmpty := rfl
    simp only [SHAMapInnerNode.finish, Bool.false_eq_true, if_false, getNodeHash, message, hb]
    simp only [SHAMapInnerNode.updateHash]
    split <;> rfl
  key := by
    intro l hl
    simp at hl

variable {type : TNType}

theorem hashed_leaf_make {item : SHAMapItem} (seq : ℕ)
    (hke : type = .tnTRANSACTION_NM → item.key = SHAMapTreeNode.hashOf type item) :
    Hashed (.leaf (SHAMapTreeNode.make item type seq)) where
  hash := rfl
  key := by
    intro l hl ht
    cases hl
    exact hke ht

theorem hashed_of_readKeyed {s : Blob} {zeroKey : Bool}
    {short invalid : String} (ht : type ≠ .tnTRANSACTION_NM)
    (h : readKeyed s type seq hash false zeroKey short invalid = .ok (some n)) :
    n.Hashed ∧ n.isInner = false := by
  unfold readKeyed at h
  split at h
  · simp at h
  dsimp only at h
  split at h
  · simp at h
  cases h
  exact ⟨hashed_leaf_make seq fun heq => absurd heq ht, rfl⟩

/-- Some entry gives it a hash, the last one zero. -/
def Overwritten (format : SHANodeFormat) (rawNode : Blob) (m : Fin 16) : Prop :=
  format = .snfWIRE ∧ rawNode.getLast? = some 3 ∧
    let es := SHAMapInnerNode.entries rawNode.dropLast (rawNode.dropLast.length / 33)
    (∃ e ∈ es, e.1 = m.val ∧ e.2 ≠ 0) ∧ SHAMapInnerNode.lastHash es m = 0

/-- The hash is that of the content, and the branches in use are those with a hash and the
overwritten ones. -/
structure Decoded (format : SHANodeFormat) (rawNode : Blob) (n : SHAMapAbstractNode) : Prop where
  hashed : n.Hashed
  branch : ∀ i m, n = .inner i → (i.mIsBranch m ↔ i.mHashes m ≠ 0 ∨ Overwritten format rawNode m)
  overwritten : ∀ i m, n = .inner i → Overwritten format rawNode m → i.mHashes m = 0
  leaf : ∀ m, n.isInner = false → ¬Overwritten format rawNode m

theorem decoded_of_hashed (hha : n.Hashed) (hp : ∀ m, ¬Overwritten format rawNode m)
    (hb : ∀ i m, n = .inner i → (i.mIsBranch m ↔ i.mHashes m ≠ 0)) :
    Decoded format rawNode n where
  hashed := hha
  branch i m hi := by rw [hb i m hi, or_iff_left (hp m)]
  overwritten _ m _ hm := absurd hm (hp m)
  leaf m _ := hp m

theorem decoded_readFull (s : Blob) (seq : ℕ)
    (hash : UInt256) (hp : ∀ m, ¬Overwritten format rawNode m) :
    Decoded format rawNode (.inner ((readFull s seq).finish hash false)) := by
  refine decoded_of_hashed (hashed_inner_finish _ _) hp ?_
  intro i m hi
  cases hi
  exact bne_iff_ne

theorem decoded_readCompressed {n : SHAMapInnerNode} (hash : UInt256)
    (ht : rawNode.getLast? = some 3)
    (h : readCompressed rawNode.dropLast seq = .ok n) :
    Decoded .snfWIRE rawNode (.inner (n.finish hash false)) := by
  have hr := of_foldlM_readEntry (le_refl _) h
  refine ⟨hashed_inner_finish _ _, ?_, ?_, fun m hm => by simp [isInner] at hm⟩
  · intro i m hi
    cases hi
    obtain ⟨hh, hb⟩ := hr m
    change n.mIsBranch m ↔ n.mHashes m ≠ 0 ∨ _
    rw [hb, hh]
    constructor
    · intro hen
      by_cases hla : SHAMapInnerNode.lastHash (SHAMapInnerNode.entries rawNode.dropLast
          (rawNode.dropLast.length / 33)) m = 0
      · exact .inr ⟨rfl, ht, hen, hla⟩
      · exact .inl hla
    · rintro (hla | ⟨-, -, hen, -⟩)
      · -- a last hash that is not zero comes from an entry
        unfold SHAMapInnerNode.lastHash at hla
        cases hf : (SHAMapInnerNode.entries rawNode.dropLast
            (rawNode.dropLast.length / 33)).reverse.find? (·.1 == m.val) with
        | none =>
          rw [hf] at hla
          exact absurd rfl hla
        | some e =>
          rw [hf] at hla
          have hme := mem_of_find?_eq_some hf
          have hpo := List.find?_some hf
          exact ⟨e, mem_reverse.mp hme, by simpa using hpo, hla⟩
      · exact hen
  · intro i m hi hm
    cases hi
    exact (hr m).1.trans hm.2.2.2

theorem decoded_of_make (h : make rawNode seq format hash false = .ok (some n)) :
    Decoded format rawNode n := by
  have hlf : ∀ {rawNode n}, n.Hashed ∧ n.isInner = false →
      (∀ m, ¬Overwritten format rawNode m) → Decoded format rawNode n := by
    rintro rawNode n ⟨hha, hki⟩ hp
    refine decoded_of_hashed hha hp ?_
    rintro i m rfl
    simp [isInner] at hki
  cases format with
  | snfHASH => simp [make] at h
  | snfWIRE =>
    have hp : ∀ {type : UInt8}, rawNode.getLast? = some type → type ≠ 3 →
        ∀ m, ¬Overwritten .snfWIRE rawNode m := by
      rintro type ht hne m ⟨-, hth, -⟩
      rw [ht] at hth
      exact hne (some.inj hth)
    simp only [make, makeWire] at h
    cases ht : rawNode.getLast? with
    | none => simp [ht] at h
    | some type =>
      simp only [ht] at h
      split_ifs at h with h0 h1 h2 hle h3 h4
      · cases h
        refine hlf ⟨hashed_leaf_make seq fun _ => rfl, rfl⟩ (hp ht ?_)
        simp [h0]
      · exact hlf (hashed_of_readKeyed (by simp) h) (hp ht (by simp [h1]))
      · cases h
        exact decoded_readFull _ seq hash (hp ht (by simp [h2]))
      · cases hr : readCompressed rawNode.dropLast seq with
        | error e =>
          rw [hr] at h
          cases h
        | ok i =>
          rw [hr] at h
          cases h
          exact decoded_readCompressed hash (h3 ▸ ht) hr
      · exact hlf (hashed_of_readKeyed (by simp) h) (hp ht (by simp [h4]))
      · cases h
  | snfPREFIX =>
    have hp : ∀ m, ¬Overwritten .snfPREFIX rawNode m := by
      rintro m ⟨hfm, -⟩
      cases hfm
    simp only [make, makePrefix] at h
    split_ifs at h with hle htx hln hin hfu hmd
    · cases h
      refine hlf ⟨hashed_leaf_make seq fun _ => ?_, rfl⟩ hp
      have hwh : transactionID ++ rawNode.drop 4 = rawNode := by
        rw [← htx, take_append_drop]
      simp [SHAMapTreeNode.hashOf, SHAMapTreeNode.hashedBytes, hwh]
    · exact hlf (hashed_of_readKeyed (by simp) h) hp
    · cases h
      exact decoded_readFull _ seq hash hp
    · exact hlf (hashed_of_readKeyed (by simp) h) hp

theorem message_eq_of_hash {n' : SHAMapAbstractNode} (hn : n.Hashed) (hn' : n'.Hashed)
    (hfr : CollisionFree {x | n.message = some x ∨ n'.message = some x})
    (hh : n.getNodeHash = n'.getNodeHash) : n.message = n'.message := by
  rw [hn.hash, hn'.hash] at hh
  cases hx : n.message with
  | none =>
    cases hx' : n'.message with
    | none => rfl
    | some x' =>
      rw [hx, hx'] at hh
      exact absurd hh.symm (hfr.2 x' (.inr hx'))
  | some x =>
    cases hx' : n'.message with
    | none =>
      rw [hx, hx'] at hh
      exact absurd hh (hfr.2 x (.inl hx))
    | some x' =>
      rw [hx, hx'] at hh
      exact congrArg some (hfr.1 (.inl hx) (.inr hx') hh)

theorem Decoded.mHashes_eq_zero {i : SHAMapInnerNode} (h : Decoded format rawNode (.inner i))
    (he : i.isEmpty) (m : Fin 16) : i.mHashes m = 0 := by
  by_contra hne
  have hu := (h.branch i m rfl).mpr (.inl hne)
  rw [(isEmpty_iff i).mp he m] at hu
  cases hu

theorem Decoded.mHashes_eq {format' : SHANodeFormat} {rawNode' : Blob} {i i' : SHAMapInnerNode}
    (h : Decoded format rawNode (.inner i)) (h' : Decoded format' rawNode' (.inner i'))
    (hms : (SHAMapAbstractNode.inner i).message = (SHAMapAbstractNode.inner i').message) :
    i.mHashes = i'.mHashes := by
  simp only [message] at hms
  by_cases he : i.isEmpty
  · rw [if_pos he] at hms
    have he' : i'.isEmpty := by
      by_contra hne
      rw [if_neg hne] at hms
      cases hms
    funext m
    rw [h.mHashes_eq_zero he, h'.mHashes_eq_zero he']
  · rw [if_neg he] at hms
    have he' : ¬i'.isEmpty := by
      intro hye
      rw [if_pos hye] at hms
      cases hms
    rw [if_neg he'] at hms
    exact hashedBytes_injective (some.inj hms)

theorem same_iff_overwritten_of_hash {rawNode' : Blob} {seq' : ℕ}
    {format' : SHANodeFormat} {hash' : UInt256} {n' : SHAMapAbstractNode}
    (hma : make rawNode seq format hash false = .ok (some n))
    (hma' : make rawNode' seq' format' hash' false = .ok (some n'))
    (hfr : CollisionFree {x | n.message = some x ∨ n'.message = some x})
    (hh : n.getNodeHash = n'.getNodeHash) :
    n.Same n' ↔ ∀ m, Overwritten format rawNode m ↔ Overwritten format' rawNode' m := by
  have hd := decoded_of_make hma
  have hd' := decoded_of_make hma'
  have hms := message_eq_of_hash hd.hashed hd'.hashed hfr hh
  cases n with
  | inner i =>
    cases n' with
    | inner i' =>
      have hhs := hd.mHashes_eq hd' hms
      constructor
      · rintro ⟨-, hbr⟩ m
        have hu := hd.branch i m rfl
        rw [congrFun hbr m, hd'.branch i' m rfl, hhs] at hu
        constructor
        · intro ho
          have hze := hd.overwritten i m rfl ho
          rw [hhs] at hze
          exact (hu.mpr (.inr ho)).resolve_left (fun hne => hne hze)
        · intro ho
          have hze := hd'.overwritten i' m rfl ho
          exact (hu.mp (.inr ho)).resolve_left (fun hne => hne hze)
      · intro ho
        refine ⟨hhs, ?_⟩
        funext m
        rw [Bool.eq_iff_iff, hd.branch i m rfl, hd'.branch i' m rfl, hhs, ho m]
    | leaf l' =>
      simp only [message] at hms
      split at hms
      · cases hms
      · exact absurd (some.inj hms).symm (hashedBytes_ne_inner _ _ _)
  | leaf l =>
    cases n' with
    | inner i' =>
      simp only [message] at hms
      split at hms
      · cases hms
      · exact absurd (some.inj hms) (hashedBytes_ne_inner _ _ _)
    | leaf l' =>
      obtain ⟨ht, hda, hke⟩ := eq_of_hashedBytes_eq (some.inj hms)
      have hk : l.mItem.key = l'.mItem.key := by
        by_cases hnm : l.mType = .tnTRANSACTION_NM
        · rw [hd.hashed.key l rfl hnm, hd'.hashed.key l' rfl (ht ▸ hnm),
            SHAMapTreeNode.hashOf, SHAMapTreeNode.hashOf, some.inj hms]
        · exact hke hnm
      have hs : l.mItem = l'.mItem := by
        cases hl : l.mItem
        cases hl' : l'.mItem
        simp_all
      refine iff_of_true ⟨ht, hs⟩ fun m => ?_
      exact iff_of_false (hd.leaf m rfl) (hd'.leaf m rfl)

theorem collisionFree_of_eq {x : Blob} {messages : Set Blob} (h : ∀ y ∈ messages, y = x)
    (hx : sha512Half x ≠ 0) : CollisionFree messages := by
  constructor
  · intro y hy z hz _
    rw [h y hy, h z hz]
  · intro y hy
    rwa [h y hy]

end SHAMapAbstractNode

/-- The number the bytes stand for, plus one. -/
@[reducible]
def plainHalf : Sha512Half := ⟨fun x => BitVec.ofNat 256 (BigEndian.value x + 1)⟩

namespace SHAMapAbstractNode

/-- Only branch 0 has a hash. -/
def allHashes : Blob := (1 : UInt256).toBytes ++ replicate 480 0

theorem collisionFree_allHashes {n n' : SHAMapAbstractNode} : letI := plainHalf
    n.message = some (innerNode ++ allHashes) → n'.message = some (innerNode ++ allHashes) →
      CollisionFree {x | n.message = some x ∨ n'.message = some x} := by
  let _ := plainHalf
  intro hn hn'
  refine collisionFree_of_eq (x := innerNode ++ allHashes) ?_ (by decide +kernel)
  rintro y (hy | hy)
  · exact some.inj (hy.symm.trans hn)
  · exact some.inj (hy.symm.trans hn')

def oneEntry : Blob := (1 : UInt256).toBytes ++ [0]

theorem oneEntry_same : letI := plainHalf
    ∃ n n', make (oneEntry ++ [3]) 0 .snfWIRE 0 false = .ok (some n) ∧
      make (allHashes ++ [2]) 0 .snfWIRE 0 false = .ok (some n') ∧ n.isInner ∧ n.Same n' := by
  let _ := plainHalf
  have hentry : ∃ n, make (oneEntry ++ [3]) 0 .snfWIRE 0 false = .ok (some n) ∧ n.isInner ∧
      n.message = some (innerNode ++ allHashes) ∧
      n.getNodeHash = sha512Half (innerNode ++ allHashes) :=
    ⟨_, rfl, rfl, by decide +kernel, by decide +kernel⟩
  obtain ⟨n, hn, hinner, hmessage, hhash⟩ := hentry
  have hlength : allHashes.length = 512 := by decide +kernel
  have hn' : make (allHashes ++ [2]) 0 .snfWIRE 0 false =
      .ok (some (.inner ((readFull allHashes 0).finish 0 false))) := by
    simp [make, makeWire, hlength]
  refine ⟨n, _, hn, hn', hinner, (same_iff_overwritten_of_hash hn hn' ?_ ?_).mpr fun m => ?_⟩
  · exact collisionFree_allHashes hmessage (by decide +kernel)
  · exact hhash.trans (by decide +kernel)
  · refine iff_of_false ?_ ?_
    · rintro ⟨-, -, hwritten⟩
      revert m
      decide +kernel
    · rintro ⟨-, hlast, -⟩
      revert hlast
      decide +kernel

/-- The same, with a hash for branch 1 set to zero. -/
def threeEntries : Blob := oneEntry ++ ((2 : UInt256).toBytes ++ [1]) ++ ((0 : UInt256).toBytes ++ [1])

/-- One node hash; the second has another branch in use. -/
theorem overwritten_not_same : letI := plainHalf
    ∃ n n', make (oneEntry ++ [3]) 0 .snfWIRE 0 false = .ok (some n) ∧
      make (threeEntries ++ [3]) 0 .snfWIRE 0 false = .ok (some n') ∧
      CollisionFree {x | n.message = some x ∨ n'.message = some x} ∧
      n.getNodeHash = n'.getNodeHash ∧ ¬n.Same n' := by
  let _ := plainHalf
  refine ⟨_, _, rfl, rfl, collisionFree_allHashes (by decide +kernel) (by decide +kernel), ?_, ?_⟩
  · decide +kernel
  · rintro ⟨-, hbr⟩
    have := congrFun hbr 1
    revert this
    decide +kernel

end SHAMapAbstractNode

end Sand
