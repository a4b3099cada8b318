import Sand.SHAMap.Sealing

/-!
# Snapshots

A snapshot starts from the root of its map. A node that is not sealed belongs to one map, and
others rest on it only if this map is immutable.
-/

namespace Sand

open Family Function SHAMap Nat

namespace SHAMap

section Ready

variable [Sha512Half] {m : SHAMap} {f : Family} {r : ℕ} {c : Fin 16 → Tree} {n : SHAMapInnerNode}

theorem updateHashDeep_ready {seq : ℕ} (h : Represents f (Ready seq) (.inner c) r)
    (hn : f.object r = some (.inner n)) : n.updateHashDeep (hashAt f) = n := by
  have hr := (h.of_object hn).1
  have hss := h.slots hn
  have hhs : Hashes r (.inner (n.updateHashDeep (hashAt f))) (.inner c) := by
    refine hashes_updateHashDeep hss (fun j hj => ?_) fun j q hq => hashAt_eq ?_
    · obtain ⟨hbi, hso⟩ := hss j
      rw [hj] at hbi
      have hno : n.mChildren j = none := by simpa using hbi.symm
      rw [hno] at hso
      rw [hr.2 n c rfl rfl j, slot_none_iff.mp hso]
      rfl
    · have hso := (hss j).2.child hq
      exact hashes_of_ready hso
  have hh : (n.updateHashDeep (hashAt f)).mHash = n.mHash := hhs.1.trans hr.1.symm
  have hb : (n.updateHashDeep (hashAt f)).mHashes = n.mHashes := by
    funext j
    rw [hhs.2 _ c rfl rfl j, hr.2 n c rfl rfl j]
  calc n.updateHashDeep (hashAt f)
      = { n with mHash := (n.updateHashDeep (hashAt f)).mHash,
                 mHashes := (n.updateHashDeep (hashAt f)).mHashes } := rfl
    _ = n := by rw [hh, hb]

theorem walkBranch_ready {walk : NodeRef → FamilyM (NodeRef × ℕ)} {b : Fin 16}
    (h : Represents f (Ready m.seq_) (.inner c) r) (hn : f.object r = some (.inner n))
    (hw : ∀ c' q nq, c b = .inner c' → n.mChildren b = some q →
      f.object q = some (.inner nq) → ∃ k, walk q f = .ok ((q, k), f)) (fl : ℕ) :
    ∃ k, m.walkBranch false walk r fl b f = .ok (k, f) := by
  have hss := h.slots hn
  by_cases hsk : ∀ q, n.mChildren b = some q → ∃ nq, f.object q = some nq ∧ nq.getSeq = 0
  · exact ⟨fl, walkBranch_skip hn hss hsk⟩
  push Not at hsk
  obtain ⟨q, hch, hz⟩ := hsk
  have hso := (hss b).2.child hch
  have hhk : f.put r (.inner (n.shareChild b q)) = f := by
    refine put_eq_self (hn.trans ?_)
    rw [SHAMapInnerNode.shareChild, ← hch, update_eq_self]
  obtain ⟨nq, hq, hrd⟩ := hso.object
  have how : nq.getSeq = m.seq_ := hrd.2.resolve_right (hz nq hq)
  have hun := unshareNode_own ⟨0, 1⟩ hq how
  cases nq with
  | inner nq =>
    obtain ⟨c', hc'⟩ := hso.eq_inner hq
    obtain ⟨k, run⟩ := hw c' q nq hc' hch hq
    exact ⟨_, by rw [walkBranch_inner hn hss hch hun hn hq (hz _ hq) run, hhk]⟩
  | leaf leaf =>
    have hcl : leaf.clone m.seq_ = leaf := by rw [← how]; rfl
    have hh := hrd.1.1
    rw [hso.eq_leaf hq] at hh
    exact ⟨_, by rw [walkBranch_leaf hn hss hch hun hn hq (hz _ hq) hh (hcl.symm ▸ hq)
      (show m.writeIf false q f = .ok (q, f) from rfl), hhk]⟩

variable {t : Tree}

theorem walkNode_ready {d fuel : ℕ} (ht : t = .inner c)
    (hpl : (RadixTree.inner c).Placed d) (hfu : 64 ≤ fuel + d)
    (h : Represents f (Ready m.seq_) (.inner c) r) (hn : f.object r = some (.inner n)) :
    ∃ k, m.walkNode false fuel r f = .ok ((r, k), f) := by
  induction t generalizing c r n fuel d with
  | empty | leaf type item => cases ht
  | inner c' ih =>
    cases ht
    have hde : d < 64 := hpl.1
    obtain ⟨fuel, rfl⟩ := (@Nat.exists_eq_add_one fuel).mpr (by omega)
    have hb : ∀ b c'' q nq, c' b = .inner c'' → n.mChildren b = some q →
        f.object q = some (.inner nq) → ∃ k, m.walkNode false fuel q f = .ok ((q, k), f) := by
      intro b c'' q nq hc'' hq hnq
      have hpl' := (hpl.2 b).2
      have hso := (h.slots hn b).2.child hq
      rw [hc''] at hpl' hso
      exact ih b hc'' hpl' (by omega) hso hnq
    obtain ⟨_, k, run, hf⟩ := branches_run (m.walkBranch false _ r) (I := fun f' _ => f' = f)
      (fun _ _ b flushed hf => by
        obtain ⟨k, run⟩ := walkBranch_ready h hn (hb b) flushed
        exact ⟨f, k, by rw [hf, run], rfl⟩) rfl
    rw [hf] at run
    refine ⟨k + 1, ?_⟩
    rw [walkNode, run_bind run, run_bind (loadInner_eq hn),
      run_bind (show (get : FamilyM Family) f = .ok (f, f) from rfl), updateHashDeep_ready h hn,
      run_bind (show store r (.inner n) f = .ok ((), f) from
        congrArg (fun g => Except.ok ((), g)) (put_eq_self hn))]
    rfl

theorem unshare_ready (h : Represents f (Ready m.seq_) t m.root_) (hrt : t.Rooted) :
    ∃ k, m.unshare f = .ok ((k, m), f) := by
  obtain ⟨hpl, c, rfl, -⟩ := hrt
  obtain ⟨n, hn, hrd, -⟩ := id h
  rw [unshare, walkSubTree, run_bind (load_eq hn)]
  by_cases hz : (SHAMapAbstractNode.inner n).getSeq = 0
  · exact ⟨0, by rw [if_pos hz]; rfl⟩
  rw [if_neg hz]
  dsimp only
  by_cases he : n.isEmpty
  · exact ⟨0, by rw [if_pos he]; rfl⟩
  have how := hrd.2.resolve_right hz
  obtain ⟨k, run⟩ := walkNode_ready rfl hpl (show 64 ≤ 64 + 0 by omega) h hn
  refine ⟨k, ?_⟩
  rw [if_neg he, run_bind (preFlushNode_eq hn (unshareNode_own ⟨0, 1⟩ hn how)), run_bind run]
  rfl

theorem getHash_ready (h : Represents f (Ready m.seq_) t m.root_) (hrt : t.Rooted) :
    m.getHash f = .ok ((t.digest, m), f) := by
  obtain ⟨n, hn, hrd⟩ := h.object
  rw [getHash, run_bind (load_eq hn)]
  by_cases h0 : n.getNodeHash = 0
  · obtain ⟨k, run⟩ := unshare_ready h hrt
    rw [if_pos h0, run_bind run]
    dsimp only
    rw [run_bind (load_eq hn), hrd.1.1]
    rfl
  · rw [if_neg h0, hrd.1.1]
    rfl

end Ready

section Model

variable [Sha512Half] (m : SHAMap)

def snapShot (isMutable : Bool) : FamilyM SHAMap := do
  let newMap ← make 1
  let newMap : SHAMap :=
    { newMap with
      state_ := if isMutable then newMap.state_ else .Immutable
      seq_ := (m.seq_ + 1) % 2 ^ 32
      root_ := m.root_ }
  if m.state_ ≠ .Immutable ∨ isMutable = false then
    let (_, newMap) ← newMap.unshare
    return newMap
  else
    return newMap

end Model

def isEmpty (m : SHAMap) (f : Family) : Bool :=
  match f.object m.root_ with
  | some (.inner n) => n.isEmpty
  | _ => false

end SHAMap

/-! ### Maps that share their nodes -/

/-- The maps, in the order they were made. -/
structure Maps where
  maps : List SHAMap
  family : Family

namespace Maps

inductive Call where
  | make (seq : ℕ)
  | snapShot (i : ℕ) (isMutable : Bool)
  | change (i : ℕ) (c : SHAMap.Change)
  | getHash (i : ℕ)
  | unshare (i : ℕ)
  | flushDirty (i : ℕ)

variable (w : Maps)

/-- After a call on one map, unless it throws. -/
def after {β : Type} (i : ℕ) :
    Except SHAMapError ((β × SHAMap) × Family) → Option Maps
  | .ok ((_, m), f) => some ⟨w.maps.set i m, f⟩
  | .error _ => none

/-- None of a map without items, or once numbers are used up. -/
def Call.Safe : Call → Prop
  | .snapShot i _ => ∀ m, w.maps[i]? = some m → m.isEmpty w.family = false ∧ m.seq_ + 1 < 2 ^ 32
  | _ => True

/-! ### Owners of nodes -/

def Frozen (i : ℕ) : Prop := ∃ m, w.maps[i]? = some m ∧ m.state_ = .Immutable

/-- It is own, or an older immutable map's. -/
def Known (owner : NodeRef → ℕ) (i seq : ℕ) (x : NodeRef) (n : SHAMapAbstractNode) :
    Prop :=
  n.getSeq ≠ 0 → (owner x = i ∧ n.getSeq = seq) ∨ (w.Frozen (owner x) ∧ n.getSeq < seq)

/-- The nodes made from now on belong to the map. -/
def grow (owner : NodeRef → ℕ) (next i : ℕ) (x : NodeRef) : ℕ :=
  if x < next then owner x else i

section Owners

variable [Sha512Half]

/-- A call, unless an assertion fails or it throws. -/
def step (w : Maps) : Call → Option Maps
  | .make seq =>
    if seq = 0 then none
    else
      match SHAMap.make seq w.family with
      | .ok (m, f) => some ⟨w.maps ++ [m], f⟩
      | .error _ => none
  | .snapShot i isMutable => w.maps[i]?.bind fun m =>
    match m.snapShot isMutable w.family with
    | .ok (newMap, f) => some ⟨w.maps ++ [newMap], f⟩
    | .error _ => none
  | .change i c => w.maps[i]?.bind fun m =>
    if m.state_ = .Immutable then none else w.after i (m.change c w.family)
  | .getHash i => w.maps[i]?.bind fun m => w.after i (m.getHash w.family)
  | .unshare i => w.maps[i]?.bind fun m => w.after i (m.unshare w.family)
  | .flushDirty i => w.maps[i]?.bind fun m => w.after i (m.flushDirty w.family)

structure Member (w : Maps) (owner : NodeRef → ℕ) (i : ℕ) (m : SHAMap) (t : Tree) : Prop where
  seq_ne : m.seq_ ≠ 0
  backed : m.backed_
  rooted : t.Rooted
  holds : Holds w.family m.seq_ (fun x => owner x = i) (w.Known owner i m.seq_) t m.root_
  ready : m.state_ = .Immutable → Represents w.family (SHAMap.Ready m.seq_) t m.root_

structure Sound (S : Set HashedNode) (w : Maps) (owner : NodeRef → ℕ) (trees : ℕ → Tree) :
    Prop where
  fresh : w.family.Fresh
  cached : w.family.Cached S
  member : ∀ i m, w.maps[i]? = some m → w.Member owner i m (trees i)

variable {S : Set HashedNode} {w w' : Maps} {owner owner' : NodeRef → ℕ} {trees : ℕ → Tree}
  {i j : ℕ} {m m' : SHAMap} {t t' : Tree} {f' : Family}

variable {x : NodeRef} {seq k : ℕ} {f : Family} {n : SHAMapAbstractNode}

section

omit [Sha512Half]

theorem Known.seq_le (h : w.Known owner i seq x n) : n.getSeq ≤ seq := by
  by_cases hz : n.getSeq = 0
  · omega
  · rcases h hz with how | hold
    · exact how.2.le
    · exact hold.2.le

theorem Known.mono (h : w.Known owner i seq x n) (hon : owner' x = owner x)
    (hfo : ∀ k, w.Frozen k → w'.Frozen k) : w'.Known owner' i seq x n := by
  intro hne
  rw [hon]
  exact (h hne).imp id fun hold => ⟨hfo _ hold.1, hold.2⟩

end

variable {r : NodeRef}

theorem Holds.imp {mine mine' : NodeRef → Prop} {L L' : NodeProp}
    (h : Holds f seq mine L t r) (hmi : ∀ x, Occurs f r x → mine x → mine' x)
    (hL : ∀ x n, Occurs f r x → L x n → L' x n) : Holds f seq mine' L' t r :=
  Represents.frame h (fun _ _ => rfl) fun x n _ hx hok =>
    ⟨hL x n hx hok.extra, fun hse => hmi x hx (hok.own hse), hok.leaf, hok.unused, hok.hashed,
      hok.isSealed⟩

theorem Member.keep (h : w.Member owner i m t) (hfr : w.family.Fresh)
    (hob : ∀ x, Occurs w.family m.root_ x → w'.family.object x = w.family.object x)
    (hon : ∀ x : ℕ, x < w.family.next → owner' x = owner x)
    (hfo : ∀ k, w.Frozen k → w'.Frozen k) : w'.Member owner' i m t where
  seq_ne := h.seq_ne
  backed := h.backed
  rooted := h.rooted
  holds := by
    refine Holds.frame (Holds.imp h.holds ?_ ?_) hob
    · intro x hx how
      rw [hon x (lt_of_occurs hfr h.holds hx), how]
    · intro x n hx hkn
      exact hkn.mono (hon x (lt_of_occurs hfr h.holds hx)) hfo
  ready him := (h.ready him).frame hob fun _ _ _ _ => id

/-- What a map that is at work takes for its own. -/
def Mine (w : Maps) (owner : NodeRef → ℕ) (i : ℕ) (x : NodeRef) : Prop :=
  owner x = i ∨ w.family.next ≤ x

def Knows (w : Maps) (owner : NodeRef → ℕ) (i seq : ℕ) (x : NodeRef) (n : SHAMapAbstractNode) :
    Prop :=
  n.getSeq ≠ 0 → (w.Mine owner i x ∧ n.getSeq = seq) ∨
    (w.Frozen (owner x) ∧ x < w.family.next ∧ n.getSeq < seq)

theorem Member.discipline (h : w.Member owner i m t) :
    SHAMap.Discipline m.seq_ (w.Mine owner i) (w.Knows owner i m.seq_) :=
  ⟨h.seq_ne, fun _ _ hmi hse _ => .inl ⟨hmi, hse⟩⟩

theorem Member.working (h : w.Member owner i m t) (hfr : w.family.Fresh) :
    Holds w.family m.seq_ (w.Mine owner i) (w.Knows owner i m.seq_) t m.root_ := by
  refine Holds.imp h.holds (fun x _ how => .inl how) fun x n hx hkn hne => ?_
  refine (hkn hne).imp (fun how => ⟨.inl how.1, how.2⟩) fun hold => ?_
  exact ⟨hold.1, lt_of_occurs hfr h.holds hx, hold.2⟩

section

omit [Sha512Half]

theorem grow_of_mine (h : w.Mine owner i x) : grow owner w.family.next i x = i := by
  unfold grow
  split
  · next hlt => exact h.resolve_right (Nat.not_le_of_lt hlt)
  · rfl

theorem grow_of_lt {next x : ℕ} (h : x < next) : grow owner next i x = owner x := if_pos h

end

theorem settle (h : Holds f seq (w.Mine owner i) (w.Knows owner i seq) t r)
    (hfo : ∀ k, w.Frozen k → w'.Frozen k) :
    Holds f seq (fun x => grow owner w.family.next i x = i)
      (w'.Known (grow owner w.family.next i) i seq) t r := by
  refine Holds.imp h (fun x _ => grow_of_mine) fun x n _ hko hne => ?_
  refine (hko hne).imp (fun how => ⟨grow_of_mine how.1, how.2⟩) fun hold => ?_
  rw [grow_of_lt hold.2.1]
  exact ⟨hfo _ hold.1, hold.2.2⟩

omit [Sha512Half] in
theorem frozen_set (hi : w.maps[i]? = some m) (hst : m'.state_ = m.state_) (h : w.Frozen k) :
    Frozen ⟨w.maps.set i m', f⟩ k := by
  obtain ⟨m0, hm0, him⟩ := h
  obtain rfl | hk := eq_or_ne i k
  · rw [hi] at hm0
    cases hm0
    refine ⟨m', ?_, hst.trans him⟩
    simp [(List.getElem?_eq_some_iff.mp hi).1]
  · exact ⟨m0, by rw [List.getElem?_set_ne hk, hm0], him⟩

theorem Sound.apart (h : Sound S w owner trees) (hi : w.maps[i]? = some m)
    (hmu : m.state_ ≠ .Immutable) (hj : w.maps[j]? = some m') (hij : i ≠ j)
    (hx : Occurs w.family m'.root_ x) : ¬Owned w.family m.seq_ (w.Mine owner i) x := by
  rintro ⟨hmi, n, hn, hse⟩
  have hho := (h.member j m' hj).holds
  have how : owner x = i := hmi.resolve_right (Nat.not_le_of_lt (lt_of_occurs h.fresh hho hx))
  obtain ⟨s, hs, -⟩ := hho.of_occurs hx
  have hne : n.getSeq ≠ 0 := fun hz => (h.member i m hi).seq_ne (hse.symm.trans hz)
  rcases (hs.of_object hn).extra hne with ho | ⟨⟨m0, hm0, him⟩, -⟩
  · exact hij (how.symm.trans ho.1)
  · rw [how, hi] at hm0
    cases hm0
    exact hmu him

theorem Cached.of_reworks {mine : NodeRef → Prop} {o o' : Option NodeRef} (hfr : f.Fresh)
    (hse : seq ≠ 0) (h : f.Cached S) (hre : Reworks seq mine f f' o o') : f'.Cached S := by
  intro hash x hx
  rw [hre.rest] at hx
  obtain ⟨s, hs, hrs⟩ := h hash x hx
  refine ⟨s, hs.frame (fun y hy => ?_) fun _ _ _ _ => id, hrs⟩
  refine hre.object y (lt_of_occurs hfr hs hy) ?_
  rintro ⟨-, -, n, hn, how⟩
  obtain ⟨s', hs', -⟩ := hs.of_occurs hy
  exact hse (how.symm.trans (hs'.of_object hn).1)

theorem Sound.object_of_changes (h : Sound S w owner trees) (hi : w.maps[i]? = some m)
    (hmu : m.state_ ≠ .Immutable) {m1 : SHAMap}
    (hcg : SHAMap.Changes m (w.Mine owner i) (w.Knows owner i m.seq_) w.family m1 f' t')
    (hj : w.maps[j]? = some m') (hij : i ≠ j) (hx : Occurs w.family m'.root_ x) :
    f'.object x = w.family.object x := by
  refine hcg.reworks.object x (lt_of_occurs h.fresh (h.member j m' hj).holds hx) ?_
  exact fun hoc => h.apart hi hmu hj hij hx hoc.2

theorem Sound.changes (h : Sound S w owner trees) (hi : w.maps[i]? = some m)
    (hmu : m.state_ ≠ .Immutable)
    (hcg : SHAMap.Changes m (w.Mine owner i) (w.Knows owner i m.seq_) w.family m' f' t') :
    Sound S ⟨w.maps.set i m', f'⟩ (grow owner w.family.next i) (update trees i t') := by
  have hmb := h.member i m hi
  have hst : m'.state_ = m.state_ := by rw [hcg.map]
  have hfo : ∀ k, w.Frozen k → Frozen ⟨w.maps.set i m', f'⟩ k := fun k hk => frozen_set hi hst hk
  refine ⟨hcg.reworks.fresh, Cached.of_reworks h.fresh hmb.seq_ne h.cached hcg.reworks,
    fun j m0 hj => ?_⟩
  obtain rfl | hij := eq_or_ne i j
  · rw [List.getElem?_set_self (List.getElem?_eq_some_iff.mp hi).1] at hj
    cases hj
    rw [update_self]
    have hse : m'.seq_ = m.seq_ := by rw [hcg.map]
    refine ⟨hse ▸ hmb.seq_ne, ?_, hcg.rooted, ?_, fun him => ?_⟩
    · rw [hcg.map]
      exact hmb.backed
    · rw [hse]
      exact settle hcg.holds hfo
    · exact absurd (hst.symm.trans him) hmu
  · rw [List.getElem?_set_ne hij] at hj
    rw [update_of_ne (Ne.symm hij)]
    have ho := h.member j m0 hj
    exact ho.keep h.fresh (fun x hx => h.object_of_changes hi hmu hcg hj hij hx)
      (fun x hx => grow_of_lt hx) hfo

theorem Sound.seals (h : Sound S w owner trees) (hi : w.maps[i]? = some m) {r' : NodeRef}
    (hsa : Seals m.seq_ (w.Mine owner i) k w.family f') (hca : f'.Cached S)
    (hr : r' = m.root_ ∨ Represents f' Sealed (trees i) r') :
    Sound S ⟨w.maps.set i { m with root_ := r' }, f'⟩ (grow owner w.family.next i) trees := by
  have hke : ∀ j m0, w.maps[j]? = some m0 →
      Member ⟨w.maps.set i { m with root_ := r' }, f'⟩ (grow owner w.family.next i) j m0
        (trees j) := by
    intro j m0 hj
    have ho := h.member j m0 hj
    have hg : Member ⟨w.maps.set i { m with root_ := r' }, w.family⟩
        (grow owner w.family.next i) j m0 (trees j) :=
      ho.keep h.fresh (fun _ _ => rfl) (fun x hx => grow_of_lt hx) fun k hk => by
        refine frozen_set hi ?_ hk
        rfl
    refine ⟨ho.seq_ne, ho.backed, ho.rooted,
      hsa.holds ho.seq_ne (fun _ _ hz hne => absurd hz hne) hg.holds, fun him => ?_⟩
    exact hsa.upgrade (ho.ready him) (fun _ _ => ready_of_sealed) fun _ _ _ => id
  refine ⟨hsa.fresh, hca, fun j m0 hj => ?_⟩
  obtain rfl | hij := eq_or_ne i j
  · rw [List.getElem?_set_self (List.getElem?_eq_some_iff.mp hi).1] at hj
    cases hj
    rcases hr with rfl | hsl
    · exact hke i m hi
    have hmb := h.member i m hi
    exact ⟨hmb.seq_ne, hmb.backed, hmb.rooted,
      Holds.of_sealed hmb.seq_ne (fun _ _ hz hne => absurd hz hne) hsl,
      fun _ => ready_of_sealed hsl⟩
  · rw [List.getElem?_set_ne hij] at hj
    exact hke j m0 hj

omit [Sha512Half] in
theorem frozen_append (h : w.Frozen k) (m' : SHAMap) (f' : Family) :
    Frozen ⟨w.maps ++ [m'], f'⟩ k := by
  obtain ⟨m0, hm0, him⟩ := h
  refine ⟨m0, ?_, him⟩
  rw [List.getElem?_append_left (List.getElem?_eq_some_iff.mp hm0).1, hm0]

theorem Sound.append (h : Sound S w owner trees) (hfr : f'.Fresh) (hca : f'.Cached S)
    (hob : ∀ x : ℕ, x < w.family.next → f'.object x = w.family.object x)
    (hnw : Member ⟨w.maps ++ [m'], f'⟩ (grow owner w.family.next w.maps.length) w.maps.length
      m' t') :
    Sound S ⟨w.maps ++ [m'], f'⟩ (grow owner w.family.next w.maps.length)
      (update trees w.maps.length t') := by
  refine ⟨hfr, hca, fun j m0 hj => ?_⟩
  obtain rfl | hl := eq_or_ne j w.maps.length
  · have hm0 : m0 = m' := by simpa using hj.symm
    rw [hm0, update_self]
    exact hnw
  have hlt : j < w.maps.length := by
    have hbo := (List.getElem?_eq_some_iff.mp hj).1
    simp only [List.length_append, List.length_singleton] at hbo
    omega
  rw [List.getElem?_append_left hlt] at hj
  rw [update_of_ne hl]
  have ho := h.member j m0 hj
  exact ho.keep h.fresh (fun x hx => hob x (lt_of_occurs h.fresh ho.holds hx))
    (fun x hx => grow_of_lt hx) fun k hk => frozen_append hk m' f'

theorem Sound.add (h : Sound S w owner trees) (n : SHAMapAbstractNode) :
    Sound S ⟨w.maps, w.family.add n⟩ owner trees := by
  have hob : ∀ x : ℕ, x < w.family.next → (w.family.add n).object x = w.family.object x :=
    fun x hx => object_add_ne _ _ (Nat.ne_of_lt hx)
  refine ⟨fresh_add h.fresh n, fun hash x hx => ?_, fun j m0 hj => ?_⟩
  · obtain ⟨s, hs, hrs⟩ := h.cached hash x hx
    exact ⟨s, hs.frame (fun y hy => hob y (lt_of_occurs h.fresh hs hy)) fun _ _ _ _ => id, hrs⟩
  · have ho := h.member j m0 hj
    exact ho.keep h.fresh (fun x hx => hob x (lt_of_occurs h.fresh ho.holds hx)) (fun _ _ => rfl)
      fun _ hk => hk

theorem Sound.make (h : Sound S w owner trees) (hse : seq ≠ 0) :
    Sound S ⟨w.maps ++ [⟨seq, w.family.next, .Modifying, true⟩],
        w.family.add (.inner { mSeq := seq })⟩ (grow owner w.family.next w.maps.length)
      (update trees w.maps.length (.inner fun _ => .empty)) := by
  have h1 := h.add (.inner { mSeq := seq })
  have hr : Holds (w.family.add (.inner { mSeq := seq })) seq (fun _ => True)
      (fun _ n => n.getSeq = seq) (.inner fun _ => .empty) w.family.next :=
    holds_add_inner ⟨hse, fun _ _ _ h => h⟩ trivial
  have how : ∀ x, Occurs (w.family.add (.inner { mSeq := seq })) w.family.next x →
      grow owner w.family.next w.maps.length x = w.maps.length := by
    intro x hx
    rcases hx.cases_inner (object_add_self _ _) with rfl | ⟨i, q, hi, -⟩
    · exact if_neg (Nat.lt_irrefl _)
    · cases hi
  refine h.append h1.fresh h1.cached (fun x hx => object_add_ne _ _ (Nat.ne_of_lt hx)) ?_
  refine ⟨hse, rfl, RadixTree.rooted_empty (by decide), ?_, nofun⟩
  exact Holds.imp hr (fun x hx _ => how x hx) fun x _ hx hnu _ => .inl ⟨how x hx, hnu⟩

theorem Member.share (h : w.Member owner i m t) (hfr : w.family.Fresh) (hi : w.maps[i]? = some m)
    (him : m.state_ = .Immutable) (ste : SHAMapState) (hst : ste ≠ .Immutable) :
    Member ⟨w.maps ++ [⟨m.seq_ + 1, m.root_, ste, true⟩], w.family⟩
      (grow owner w.family.next w.maps.length) w.maps.length ⟨m.seq_ + 1, m.root_, ste, true⟩ t := by
  refine ⟨succ_ne_zero _, rfl, h.rooted, ?_, fun him' => absurd him' hst⟩
  refine Represents.frame h.holds (fun _ _ => rfl) fun x n s hx hok => ?_
  have hle := hok.extra.seq_le
  refine ⟨fun hne => .inr ?_, fun how => ?_, hok.leaf, hok.unused, hok.hashed, hok.isSealed⟩
  · rw [grow_of_lt (lt_of_occurs hfr h.holds hx)]
    refine ⟨frozen_append ?_ _ _, lt_succ_of_le hle⟩
    rcases hok.extra hne with how | hold
    · rw [how.1]
      exact ⟨m, hi, him⟩
    · exact hold.1
  · change n.getSeq = m.seq_ + 1 at how
    omega

variable (h : Sound S w owner trees) (hi : w.maps[i]? = some m)
include h hi

theorem Sound.unshared (hne : trees i ≠ .inner fun _ => .empty) (ste : SHAMapState) :
    ∃ k m' f', SHAMap.unshare ⟨m.seq_ + 1, m.root_, ste, true⟩ w.family = .ok ((k, m'), f') ∧
      Sound S ⟨w.maps ++ [m'], f'⟩ (grow owner w.family.next w.maps.length)
        (update trees w.maps.length (trees i)) := by
  have hmb := h.member i m hi
  have hd : SHAMap.Discipline (m.seq_ + 1) (fun x : ℕ => w.family.next ≤ x) fun _ _ => True :=
    ⟨succ_ne_zero _, fun _ _ _ _ => trivial⟩
  have hsr : Holds w.family (m.seq_ + 1) (fun x : ℕ => w.family.next ≤ x) (fun _ _ => True)
      (trees i) m.root_ := by
    refine hmb.holds.mono fun x n s hok => ?_
    have hle := hok.extra.seq_le
    exact ⟨trivial, fun how => by omega, hok.leaf, hok.unused, hok.hashed, hok.isSealed⟩
  obtain ⟨k, m', f', -, run, hcg, -, -, hrd⟩ := unshare_run
    (m := ⟨m.seq_ + 1, m.root_, ste, true⟩) hd h.fresh (fun _ => id) hsr hmb.rooted
  have hre := hcg.reworks
  have hm' := hcg.map
  refine ⟨k, m', f', run, h.append hre.fresh
    (Cached.of_reworks h.fresh (succ_ne_zero _) h.cached hre) (fun x hx => ?_) ?_⟩
  · exact hre.object x hx fun hoc => Nat.not_le_of_lt hx hoc.2.1
  have hse : m'.seq_ = m.seq_ + 1 := by rw [hm']
  have hbt := hcg.holds.and (hrd hne)
  refine ⟨hse ▸ succ_ne_zero _, by rw [hm'], hcg.rooted, ?_, fun _ => ?_⟩
  · rw [hse]
    have how : ∀ x : ℕ, w.family.next ≤ x →
        grow owner w.family.next w.maps.length x = w.maps.length :=
      fun x hx => if_neg (Nat.not_lt_of_le hx)
    refine hbt.mono fun x n s hok => ?_
    refine ⟨fun hnz => .inl ?_, fun hse' => how x (hok.1.own hse'), hok.1.leaf, hok.1.unused,
      hok.1.hashed, hok.1.isSealed⟩
    have hnu := hok.2.2.resolve_right hnz
    exact ⟨how x (hok.1.own hnu), hnu⟩
  · rw [hse]
    exact hrd hne

theorem Sound.isEmpty_iff : m.isEmpty w.family ↔ trees i = .inner fun _ => .empty := by
  have hmb := h.member i m hi
  obtain ⟨c, hc, -⟩ := hmb.rooted.root
  have hho := hmb.holds
  rw [hc] at hho ⊢
  obtain ⟨n, hn, -⟩ := id hho
  rw [SHAMap.isEmpty, hn]
  exact isEmpty_iff_tree (hho.slots hn)

theorem Sound.snapShot (hne : m.isEmpty w.family = false) (hnu : m.seq_ + 1 < 2 ^ 32) (im : Bool) :
    ∃ newMap f' owner', m.snapShot im w.family = .ok (newMap, f') ∧
      Sound S ⟨w.maps ++ [newMap], f'⟩ owner' (update trees w.maps.length (trees i)) := by
  have h1 := h.add (.inner { mSeq := 1 })
  rw [SHAMap.snapShot, run_bind (show SHAMap.make 1 w.family =
    .ok (⟨1, w.family.next, .Modifying, true⟩, w.family.add (.inner { mSeq := 1 })) from rfl)]
  rw [mod_eq_of_lt hnu]
  by_cases hsh : m.state_ ≠ .Immutable ∨ im = false
  · rw [if_pos hsh]
    have htr : trees i ≠ .inner fun _ => .empty := by
      rw [ne_eq, ← h.isEmpty_iff hi, hne]
      decide
    obtain ⟨k, m', f', run, hsn⟩ := h1.unshared hi htr (if im then .Modifying else .Immutable)
    refine ⟨m', f', _, ?_, hsn⟩
    rw [run_bind run]
    rfl
  · rw [if_neg hsh]
    obtain ⟨him, hmu⟩ := not_or.mp hsh
    have hst : (if im then SHAMapState.Modifying else .Immutable) ≠ .Immutable := by
      rw [Bool.not_eq_false] at hmu
      rw [hmu]
      decide
    refine ⟨_, _, _, rfl, h1.append h1.fresh h1.cached (fun _ _ => rfl) ?_⟩
    exact (h1.member i m hi).share h1.fresh hi (not_not.mp him) _ hst

end Owners

end Maps

end Sand
