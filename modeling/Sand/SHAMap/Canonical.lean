import Sand.SHAMap.Decoding
import Sand.SHAMap.Flush
import Sand.SHAMap.Sequences

/-!
# The form of a map and its hash

A map made from leaves of one type has the form that its items give it.
-/

namespace Sand

open Family RadixTree

inductive HashedNode where
  | leaf (type : TNType) (item : SHAMapItem)
  | inner (hashes : Fin 16 → UInt256)

namespace Tree

variable [Sha512Half]

/-- The nodes with a hash, so no inner node without children. -/
def nodes : Tree → Set HashedNode
  | .empty => ∅
  | .leaf type item => {.leaf type item}
  | .inner c =>
    {x | (∃ i, c i ≠ .empty) ∧ x = .inner fun i => digest (c i)} ∪ {x | ∃ i, x ∈ nodes (c i)}

end Tree

namespace HashedNode

variable [Sha512Half]

def hash : HashedNode → UInt256
  | .leaf type item => SHAMapTreeNode.hashOf type item
  | .inner hashes => sha512Half (SHAMapInnerNode.hashedBytes hashes)

/-- Hashes tell the nodes apart, and are not zero. -/
def CollisionFree (S : Set HashedNode) : Prop :=
  Set.InjOn hash S ∧ ∀ x ∈ S, x.hash ≠ 0

end HashedNode

namespace Tree

variable [Sha512Half] {t t' : Tree}

theorem digest_inner (c : Fin 16 → Tree) : ((∀ i, c i = .empty) ∧ digest (.inner c) = 0) ∨
      ((∃ i, c i ≠ .empty) ∧ digest (.inner c) = (HashedNode.inner fun i => digest (c i)).hash) := by
  by_cases h : ∀ i, c i = .empty
  · refine .inl ⟨h, ?_⟩
    rw [digest, if_pos]
    simp [h, isEmpty]
  · refine .inr ⟨not_forall.mp h, ?_⟩
    rw [digest, if_neg]
    · rfl
    · simpa [RadixTree.isEmpty_iff] using h

theorem items_of_digest_zero (h : ∀ x ∈ t.nodes, x.hash ≠ 0) (h0 : t.digest = 0) :
    t.items = [] := by
  cases t with
  | empty => rfl
  | leaf type item => exact absurd h0 (h _ rfl)
  | inner c =>
    rcases digest_inner c with ⟨he, -⟩ | ⟨hex, hd⟩
    · simp [items, he]
    · exact absurd (hd.symm.trans h0) (h _ (.inl ⟨hex, rfl⟩))

theorem exists_top (h : t.digest ≠ 0) : ∃ x ∈ t.nodes, x.hash = t.digest ∧
      ((∃ type item, t = .leaf type item ∧ x = .leaf type item) ∨
        ∃ c, t = .inner c ∧ x = .inner fun i => digest (c i)) := by
  cases t with
  | empty => exact absurd rfl h
  | leaf type item => exact ⟨_, rfl, rfl, .inl ⟨type, item, rfl, rfl⟩⟩
  | inner c =>
    rcases digest_inner c with ⟨-, h0⟩ | ⟨hex, hd⟩
    · exact absurd h0 h
    · exact ⟨_, .inl ⟨hex, rfl⟩, hd.symm, .inr ⟨c, rfl, rfl⟩⟩

theorem items_of_digest (hf : HashedNode.CollisionFree (t.nodes ∪ t'.nodes))
    (h : t.digest = t'.digest) (x : SHAMapItem) : x ∈ t.items ↔ x ∈ t'.items := by
  induction t generalizing t' with
  | empty =>
    have hn := items_of_digest_zero (fun y hy => hf.2 y (.inr hy)) h.symm
    rw [hn]
    rfl
  | leaf type item =>
    have hne : digest (.leaf type item) ≠ 0 := hf.2 (.leaf type item) (.inl rfl)
    obtain ⟨y, hy, hh, hfo⟩ := exists_top (h ▸ hne)
    have hs : y = .leaf type item := hf.1 (.inr hy) (.inl rfl) (hh.trans h.symm)
    rcases hfo with ⟨type', item', rfl, rfl⟩ | ⟨c', rfl, rfl⟩
    · cases hs
      rfl
    · cases hs
  | inner c ih =>
    by_cases h0 : digest (.inner c) = 0
    · rw [items_of_digest_zero (fun y hy => hf.2 y (.inl hy)) h0,
        items_of_digest_zero (fun y hy => hf.2 y (.inr hy)) (h ▸ h0)]
    obtain ⟨y, hy, hyh, hyf⟩ := exists_top h0
    obtain ⟨z, hz, hzh, hzf⟩ := exists_top (h ▸ h0)
    have hs : y = z := hf.1 (.inl hy) (.inr hz) (hyh.trans (h.trans hzh.symm))
    rcases hyf with ⟨type, item, hl, -⟩ | ⟨c0, hi, rfl⟩
    · cases hl
    cases hi
    rcases hzf with ⟨type', item', rfl, rfl⟩ | ⟨c', rfl, rfl⟩
    · cases hs
    rw [mem_items_inner, mem_items_inner]
    refine exists_congr fun i => ih i ?_ (congrFun (HashedNode.inner.inj hs) i)
    refine ⟨hf.1.mono ?_, fun w hw => hf.2 w ?_⟩
    · exact Set.union_subset_union (fun w hw => .inr ⟨i, hw⟩) fun w hw => .inr ⟨i, hw⟩
    · exact hw.imp (fun hw => .inr ⟨i, hw⟩) fun hw => .inr ⟨i, hw⟩

end Tree

namespace SHAMap

section Canonical

variable [Sha512Half]

def Makes (cs : List Change) (m : SHAMap) (g : Family) : Prop :=
  ∃ f seq done, f.Fresh ∧ seq ≠ 0 ∧ (make seq >>= fun m => m.changeAll cs) f = .ok ((done, m), g)

def HasTree (m : SHAMap) (f : Family) (t : Tree) : Prop :=
  Represents f (fun _ _ _ => True) t m.root_

def itemSet (m : SHAMap) (f : Family) : Set SHAMapItem :=
  {x | m.peekItem x.key f = .ok (some x, f)}

variable {m : SHAMap} {f : Family} {t : Tree} {a : OrderedMap UInt256 Blob} {cs : List Change}

theorem Content.mem_itemSet_iff (h : m.Content f t a) (x : SHAMapItem) :
    x ∈ m.itemSet f ↔ x ∈ t.items := by
  change m.peekItem x.key f = .ok (some x, f) ↔ _
  rw [peekItem_run x.key h.holds h.rooted.placed]
  simp [lookup_eq_some_iff h.rooted.placed, HasKey.key]

theorem Content.exists_getHash (h : m.Content f t a) :
    ∃ m' f', m.getHash f = .ok ((t.digest, m'), f') := by
  obtain ⟨m', f', hr, -, -⟩ := getHash_run h.discipline h.fresh (fun _ _ => trivial) h.holds h.rooted
  exact ⟨m', f', hr⟩

theorem Makes.content (h : Makes cs m f) :
    ∃ t, m.Content f t (Change.applyAll .empty cs).2 ∧
      ∀ type, (∀ c ∈ cs, c.OfType type) → t.Tagged type := by
  obtain ⟨f0, seq, done, hfr, hse, hr⟩ := h
  obtain ⟨m₁, f1, hm, h₁⟩ := make_run hfr hse
  obtain ⟨m₂, f2, t, ha, h₂, hta⟩ := changeAll_run h₁ cs
  rw [run_bind hm, ha] at hr
  cases hr
  exact ⟨t, h₂, fun type ht => hta type ht fun _ => trivial⟩

theorem Makes.mem_itemSet_iff (h : Makes cs m f) (x : SHAMapItem) :
    x ∈ m.itemSet f ↔ (Change.applyAll .empty cs).2.find x.key = some x.data := by
  obtain ⟨t, hcontent, -⟩ := h.content
  rw [hcontent.mem_itemSet_iff, hcontent.mem_iff]

theorem exists_makes (cs : List Change) (f : Family) (hfr : f.Fresh) : ∃ m g, Makes cs m g := by
  obtain ⟨m₁, f1, hm, h₁⟩ := make_run hfr (show 1 ≠ 0 by decide)
  obtain ⟨m₂, f2, t, ha, -⟩ := changeAll_run h₁ cs
  exact ⟨m₂, f2, f, 1, _, hfr, by decide, (run_bind hm).trans ha⟩

/-- Maps with the same items have the same tree and hash, and if no two of their nodes share a
hash, maps with a common hash hold the same items. -/
theorem same_tree_iff_same_items {cs₁ cs₂ : List Change} {m₁ m₂ : SHAMap} {g₁ g₂ : Family}
    {type : TNType} (h₁ : Makes cs₁ m₁ g₁) (h₂ : Makes cs₂ m₂ g₂)
    (htype₁ : ∀ c ∈ cs₁, c.OfType type) (htype₂ : ∀ c ∈ cs₂, c.OfType type) :
    ∃ t₁ t₂ hash₁ hash₂, m₁.HasTree g₁ t₁ ∧ m₂.HasTree g₂ t₂ ∧
      (∃ m' f', m₁.getHash g₁ = .ok ((hash₁, m'), f')) ∧
      (∃ m' f', m₂.getHash g₂ = .ok ((hash₂, m'), f')) ∧
      (m₁.itemSet g₁ = m₂.itemSet g₂ → t₁ = t₂ ∧ hash₁ = hash₂) ∧
      (HashedNode.CollisionFree (t₁.nodes ∪ t₂.nodes) → hash₁ = hash₂ →
        m₁.itemSet g₁ = m₂.itemSet g₂) := by
  obtain ⟨t₁, hc1, htag1⟩ := h₁.content
  obtain ⟨t₂, hc2, htag2⟩ := h₂.content
  refine ⟨t₁, t₂, _, _, hc1.holds.mono fun _ _ _ _ => trivial,
    hc2.holds.mono fun _ _ _ _ => trivial, hc1.exists_getHash, hc2.exists_getHash, ?_, ?_⟩
  · intro hit
    have heq : t₁ = t₂ := by
      refine hc1.rooted.eq_of_items hc2.rooted (htag1 type htype₁) (htag2 type htype₂) fun x => ?_
      rw [← hc1.mem_itemSet_iff, ← hc2.mem_itemSet_iff, hit]
    exact ⟨heq, congrArg Tree.digest heq⟩
  · intro hf hh
    ext x
    rw [hc1.mem_itemSet_iff, hc2.mem_itemSet_iff]
    exact Tree.items_of_digest hf hh x

end Canonical

/-- Three items, of which the last goes away again. -/
def detour : List Change :=
  [.addGiveItem ⟨0x120#256 <<< 244, [1]⟩ false false,
    .addGiveItem ⟨0x123#256 <<< 244, [2]⟩ false false,
    .addGiveItem ⟨0x124#256 <<< 244, [3]⟩ false false,
    .delItem (0x124#256 <<< 244)]

/-- In the other order, one first with other data. -/
def straight : List Change :=
  [.addGiveItem ⟨0x123#256 <<< 244, [7]⟩ false false,
    .addGiveItem ⟨0x120#256 <<< 244, [1]⟩ false false,
    .updateGiveItem ⟨0x123#256 <<< 244, [2]⟩ false false]

theorem detour_same_tree :
    let _ : Sha512Half := plainHalf
    ∃ m₁ m₂ g₁ g₂, Makes detour m₁ g₁ ∧ Makes straight m₂ g₂ ∧
      m₁.itemSet g₁ = m₂.itemSet g₂ ∧ ∃ t hash, m₁.HasTree g₁ t ∧ m₂.HasTree g₂ t ∧
        (∃ m' f', m₁.getHash g₁ = .ok ((hash, m'), f')) ∧
        (∃ m' f', m₂.getHash g₂ = .ok ((hash, m'), f')) := by
  intro _
  obtain ⟨m₁, g₁, h₁⟩ := exists_makes detour noNodes fun _ _ => rfl
  obtain ⟨m₂, g₂, h₂⟩ := exists_makes straight noNodes fun _ _ => rfl
  have htype₁ : ∀ c ∈ detour, c.OfType .tnACCOUNT_STATE := by
    simp [detour, Change.OfType, leafType]
  have htype₂ : ∀ c ∈ straight, c.OfType .tnACCOUNT_STATE := by
    simp [straight, Change.OfType, leafType]
  have hitems : m₁.itemSet g₁ = m₂.itemSet g₂ := by
    ext x
    rw [h₁.mem_itemSet_iff, h₂.mem_itemSet_iff]
    rfl
  obtain ⟨t, _, hash, _, htree₁, htree₂, hhash₁, hhash₂, hsame, -⟩ :=
    same_tree_iff_same_items h₁ h₂ htype₁ htype₂
  obtain ⟨rfl, rfl⟩ := hsame hitems
  exact ⟨m₁, m₂, g₁, g₂, h₁, h₂, hitems, t, hash, htree₁, htree₂, hhash₁, hhash₂⟩

end SHAMap

end Sand
