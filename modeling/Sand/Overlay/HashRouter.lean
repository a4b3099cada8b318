import Mathlib

/-!
# Suppression of hashes

Every hash that was seen has an entry, and is listed under the time when that was made.
-/

namespace Sand

open List Function

structure HashRouter.Entry where
  flags : BitVec 32 := 0
  peers : Finset ℕ := ∅
  deriving DecidableEq

/-- The entries by index, and the indexes by time. -/
structure HashRouter (ι : Type) where
  suppressionMap : ι → Option HashRouter.Entry
  suppressionTimes : List (ℤ × List ι)

namespace HashRouter

variable {ι : Type}

def init : HashRouter ι := ⟨fun _ => none, []⟩

def Entry.addPeer (e : Entry) (peer : ℕ) : Entry :=
  if peer ≠ 0 then { e with peers := insert peer e.peers } else e

def Entry.setFlag (e : Entry) (flag : BitVec 32) : Entry := { e with flags := e.flags ||| flag }

inductive Op where
  | addSuppression
  | getEntry
  | addSuppressionPeer (peer : ℕ)
  | addSuppressionPeerFlags (peer : ℕ)
  | addSuppressionFlags (flag : BitVec 32)
  | setFlag (flag : BitVec 32)
  | getFlags
  | swapSet (peers : Finset ℕ) (flag : BitVec 32)

def Op.apply (e : Entry) : Op → Entry
  | addSuppression | getEntry | getFlags => e
  | addSuppressionPeer peer | addSuppressionPeerFlags peer => e.addPeer peer
  | addSuppressionFlags flag => e.setFlag flag
  | setFlag flag => if e.flags &&& flag = flag then e else e.setFlag flag
  | swapSet peers flag =>
    if e.flags &&& flag = flag then e else { e with peers := peers }.setFlag flag

/-- What a call returns, and what it leaves in its reference parameters. -/
inductive Reply where
  | created (created : Bool)
  | createdFlags (created : Bool) (flags : BitVec 32)
  | entry (e : Entry)
  | flags (flags : BitVec 32)
  | changed (changed : Bool)
  | swapped (changed : Bool) (peers : Finset ℕ)
  deriving DecidableEq

def Op.reply (e : Entry) (created : Bool) : Op → Reply
  | addSuppression | addSuppressionPeer _ | addSuppressionFlags _ => .created created
  | addSuppressionPeerFlags _ => .createdFlags created e.flags
  | getEntry => .entry e
  | getFlags => .flags e.flags
  | setFlag flag => .changed (e.flags &&& flag != flag)
  | swapSet peers flag =>
    if e.flags &&& flag = flag then .swapped false peers else .swapped true e.peers

def Reply.isCreated : Reply → Bool
  | created made | createdFlags made _ => made
  | _ => false

def Op.flags : Op → BitVec 32
  | addSuppressionFlags flag | setFlag flag | swapSet _ flag => flag
  | _ => 0

structure Call (ι : Type) where
  now : ℤ
  index : ι
  op : Op

/-- The assignment `mSuppressionTimes[now].push_back (index)`. -/
def pushBack (now : ℤ) (index : ι) : List (ℤ × List ι) → List (ℤ × List ι)
  | [] => [(now, [index])]
  | (t, l) :: times =>
    if now < t then (now, [index]) :: (t, l) :: times
    else if now = t then (t, l ++ [index]) :: times
    else (t, l) :: pushBack now index times

variable [DecidableEq ι]

/-- The first list of indexes is dropped if its time has come. -/
def expire (r : HashRouter ι) (expireTime : ℤ) : HashRouter ι :=
  match r.suppressionTimes with
  | [] => r
  | (t, l) :: times =>
    if t ≤ expireTime then ⟨fun index => if index ∈ l then none else r.suppressionMap index, times⟩
    else r

def Creates (r : HashRouter ι) (c : Call ι) : Prop := r.suppressionMap c.index = none

variable (holdTime : ℤ)

/-- Also returns whether the entry was created. -/
def findCreateEntry (r : HashRouter ι) (now : ℤ) (index : ι) : Entry × Bool × HashRouter ι :=
  match r.suppressionMap index with
  | some e => (e, false, r)
  | none =>
    let r := r.expire (now - holdTime)
    ({}, true, { r with suppressionTimes := pushBack now index r.suppressionTimes })

def call (r : HashRouter ι) (c : Call ι) : Reply × HashRouter ι :=
  let (e, created, r) := r.findCreateEntry holdTime c.now c.index
  (c.op.reply e created,
    { r with suppressionMap := Function.update r.suppressionMap c.index (some (c.op.apply e)) })

def run (r : HashRouter ι) (calls : List (Call ι)) : HashRouter ι :=
  calls.foldl (fun r c => (r.call holdTime c).2) r

def replies (r : HashRouter ι) : List (Call ι) → List Reply
  | [] => []
  | c :: calls => (r.call holdTime c).1 :: replies (r.call holdTime c).2 calls

def listed (times : List (ℤ × List ι)) : List (ℤ × ι) := times.flatMap fun b => b.2.map (b.1, ·)

/-- Each known index is listed once, and no other. -/
def Tracked (r : HashRouter ι) : Prop :=
  ∀ index, ((listed r.suppressionTimes).map Prod.snd).count index =
    if r.suppressionMap index = none then 0 else 1

/-- The index is known, and listed at a time. -/
def Since (r : HashRouter ι) (index : ι) (t : ℤ) : Prop :=
  r.suppressionMap index ≠ none ∧ (t, index) ∈ listed r.suppressionTimes

def Flagged (e : Entry) (flag : BitVec 32) : Prop := e.flags &&& flag = flag

structure Suppresses (calls : List (Call ι)) : Prop where
  tracked : ∀ p, p <+: calls → (init.run holdTime p).Tracked
  /-- A report is true. -/
  reported : ∀ p c, p ++ [c] <+: calls → ((init.run holdTime p).call holdTime c).1.isCreated →
    (init.run holdTime p).Creates c
  /-- An index is not made again, reported or not, before the hold time has passed. -/
  hold : ∀ p c mid d, p ++ c :: mid ++ [d] <+: calls → c.index = d.index →
    (init.run holdTime p).Creates c → (init.run holdTime (p ++ c :: mid)).Creates d →
    c.now + holdTime ≤ d.now
  /-- Until then its flags are there. -/
  kept : ∀ p c mid t, p ++ c :: mid <+: calls →
    (init.run holdTime (p ++ [c])).Since c.index t → (∀ d ∈ mid, d.now < t + holdTime) →
    ∃ e, (init.run holdTime (p ++ c :: mid)).suppressionMap c.index = some e ∧ Flagged e c.op.flags
  /-- They are lost by no call but one that makes the index again. -/
  flags : ∀ p c mid e, p ++ c :: mid <+: calls → (∀ m d, m ++ [d] <+: mid → d.index = c.index →
      ¬ (init.run holdTime (p ++ c :: m)).Creates d) →
    (init.run holdTime (p ++ c :: mid)).suppressionMap c.index = some e → Flagged e c.op.flags

variable {holdTime} {r : HashRouter ι} {c : Call ι} {index : ι} {t : ℤ} {e : Entry}
  {flag : BitVec 32}

omit [DecidableEq ι] in
theorem listed_pushBack (now : ℤ) (idx : ι) (times : List (ℤ × List ι)) :
    (listed (pushBack now idx times)).Perm ((now, idx) :: listed times) := by
  fun_induction pushBack now idx times with
  | case1 => rfl
  | case2 => rfl
  | case3 l times =>
    simp [listed]
  | case4 t l times _ _ ih => exact (ih.append_left _).trans perm_middle

theorem Tracked.expire (h : r.Tracked) (et : ℤ) : (r.expire et).Tracked := by
  unfold HashRouter.expire
  split
  · exact h
  next t l times heq =>
    split_ifs with hle
    · intro index
      have hi := h index
      simp only [heq, listed, flatMap_cons, map_append, map_map, comp_def,
        map_id', count_append] at hi ⊢
      have := count_pos_iff (a := index) (l := l)
      split_ifs <;> grind
    · exact h

theorem Since.expire (h : r.Since index t) (hr : r.Tracked) {et : ℤ}
    (ht : et < t) : (r.expire et).Since index t := by
  unfold HashRouter.expire
  split
  · exact h
  next t' l times heq =>
    split_ifs with hle
    · have hi := hr index
      have hme := h.2
      simp only [heq, listed, flatMap_cons, map_append, map_map, comp_def,
        map_id', count_append, h.1, if_false] at hi
      rw [heq, listed, flatMap_cons, mem_append] at hme
      have ho : (t, index) ∉ l.map (t', ·) := by
        simp only [mem_map, Prod.mk.injEq, not_exists, not_and]
        omega
      have hre := hme.resolve_left ho
      have hpo := List.count_pos_iff.mpr (mem_map_of_mem (f := Prod.snd) hre)
      dsimp only at hpo
      have hl : index ∉ l := fun hl => by
        have := List.count_pos_iff.mpr hl
        omega
      exact ⟨by simpa [hl] using h.1, hre⟩
    · exact h

theorem expire_map (index : ι) (et : ℤ) : (r.expire et).suppressionMap index = none ∨
      (r.expire et).suppressionMap index = r.suppressionMap index := by
  unfold HashRouter.expire
  grind

theorem call_of_some (h : r.suppressionMap c.index = some e) : (r.call holdTime c).2 =
      { r with suppressionMap := Function.update r.suppressionMap c.index (c.op.apply e) } := by
  simp [call, findCreateEntry, h]

theorem call_of_none (h : r.Creates c) : (r.call holdTime c).2 =
    ⟨Function.update (r.expire (c.now - holdTime)).suppressionMap c.index (c.op.apply {}),
      pushBack c.now c.index (r.expire (c.now - holdTime)).suppressionTimes⟩ := by
  rw [Creates] at h
  simp [call, findCreateEntry, h]

theorem creates_of_reply (h : (r.call holdTime c).1.isCreated) : r.Creates c := by
  cases hfound : r.suppressionMap c.index with
  | none => exact hfound
  | some e =>
    simp only [call, findCreateEntry, hfound] at h
    cases hop : c.op <;> grind [Op.reply, Reply.isCreated]

theorem Tracked.call (h : r.Tracked) (c : Call ι) : (r.call holdTime c).2.Tracked := by
  intro index
  cases hc : r.suppressionMap c.index with
  | some e =>
    rw [call_of_some hc]
    have := h index
    dsimp only
    grind
  | none =>
    rw [call_of_none hc]
    have hi := h.expire (c.now - holdTime) index
    have hno := @expire_map _ _ r c.index (c.now - holdTime)
    dsimp only
    rw [((listed_pushBack _ _ _).map Prod.snd).count_eq, map_cons, count_cons, hi]
    grind

theorem Since.call (h : r.Since index t) (hr : r.Tracked) (hc : c.now < t + holdTime) :
    (r.call holdTime c).2.Since index t := by
  cases hca : r.suppressionMap c.index with
  | some e =>
    rw [call_of_some hca]
    refine ⟨?_, h.2⟩
    have := h.1
    dsimp only
    grind
  | none =>
    have hex := h.expire hr (show c.now - holdTime < t by omega)
    rw [call_of_none hca]
    refine ⟨?_, (listed_pushBack _ _ _).mem_iff.mpr (mem_cons_of_mem _ hex.2)⟩
    have := hex.1
    dsimp only
    grind

theorem flagged_setFlag (e : Entry) (flag : BitVec 32) : Flagged (e.setFlag flag) flag := by
  unfold Flagged Entry.setFlag
  ext i hi
  simp only [BitVec.getElem_and, BitVec.getElem_or]
  cases flag[i] <;> simp

theorem Flagged.setFlag (h : Flagged e flag) (f : BitVec 32) :
    Flagged (e.setFlag f) flag := by
  unfold Flagged Entry.setFlag at *
  rw [← h]
  ext i hi
  simp only [BitVec.getElem_and, BitVec.getElem_or]
  cases e.flags[i] <;> simp

theorem flagged_apply (op : Op) (e : Entry) : Flagged (op.apply e) op.flags := by
  cases op with
  | addSuppressionFlags flag => exact flagged_setFlag e flag
  | setFlag flag | swapSet peers flag =>
    simp only [Op.apply]
    split_ifs with h
    · exact h
    · exact flagged_setFlag _ flag
  | _ => exact BitVec.and_zero

theorem Flagged.apply (h : Flagged e flag) (op : Op) :
    Flagged (op.apply e) flag := by
  cases op with
  | addSuppression | getEntry | getFlags => exact h
  | addSuppressionPeer peer | addSuppressionPeerFlags peer =>
    simp only [Op.apply, Entry.addPeer]
    split_ifs <;> exact h
  | addSuppressionFlags f => exact h.setFlag f
  | setFlag f =>
    simp only [Op.apply]
    split_ifs
    · exact h
    · exact h.setFlag f
  | swapSet peers f =>
    simp only [Op.apply]
    split_ifs
    · exact h
    · exact Flagged.setFlag (e := { e with peers := peers }) h f

theorem flagged_called (he : (r.call holdTime c).2.suppressionMap c.index = some e) :
    Flagged e c.op.flags := by
  simp only [call, update_self, Option.some.injEq] at he
  exact he ▸ flagged_apply _ _

/-- An entry with the flags keeps them, or is dropped. -/
theorem flagged_call (h : ∀ e, r.suppressionMap index = some e → Flagged e flag)
    (hc : c.index = index → ¬ r.Creates c)
    (he : (r.call holdTime c).2.suppressionMap index = some e) : Flagged e flag := by
  cases hca : r.suppressionMap c.index with
  | some e' =>
    rw [call_of_some hca] at he
    dsimp only at he
    rcases eq_or_ne index c.index with rfl | hne
    · rw [update_self] at he
      cases he
      exact (h e' hca).apply c.op
    · rw [update_of_ne hne] at he
      exact h e he
  | none =>
    rw [call_of_none hca] at he
    dsimp only at he
    rw [update_of_ne fun heq => hc heq.symm hca] at he
    have := @expire_map _ _ r index (c.now - holdTime)
    exact h e (by grind)

theorem run_concat (p : List (Call ι)) (d : Call ι) :
    r.run holdTime (p ++ [d]) = ((r.run holdTime p).call holdTime d).2 :=
  foldl_concat _ _ _ _

theorem tracked_run (p : List (Call ι)) : (init.run holdTime p).Tracked := by
  induction p using reverseRecOn with
  | nil => intro index; rfl
  | append_singleton p d ih =>
    rw [run_concat]
    exact ih.call d

theorem Since.run {p mid : List (Call ι)} (h : (init.run holdTime p).Since index t)
    (hmi : ∀ d ∈ mid, d.now < t + holdTime) : (init.run holdTime (p ++ mid)).Since index t := by
  induction mid using reverseRecOn with
  | nil => rwa [append_nil]
  | append_singleton mid d ih =>
    rw [forall_mem_append] at hmi
    rw [← append_assoc, run_concat]
    exact (ih hmi.1).call (tracked_run _) (hmi.2 d (by simp))

theorem since_of_creates (h : r.Creates c) : (r.call holdTime c).2.Since c.index c.now := by
  rw [call_of_none h]
  exact ⟨by simp, (listed_pushBack _ _ _).mem_iff.mpr mem_cons_self⟩

theorem flagged_run {p mid : List (Call ι)}
    (h : ∀ e, (init.run holdTime p).suppressionMap index = some e → Flagged e flag)
    (hmi : ∀ m d, m ++ [d] <+: mid → d.index = index → ¬ (init.run holdTime (p ++ m)).Creates d)
    (he : (init.run holdTime (p ++ mid)).suppressionMap index = some e) :
    Flagged e flag := by
  induction mid using reverseRecOn generalizing e with
  | nil => exact h e (by rwa [append_nil] at he)
  | append_singleton mid d ih =>
    rw [← append_assoc, run_concat] at he
    refine flagged_call (fun e he => ih (fun m d' hm => hmi m d' (hm.trans ?_)) he)
      (hmi mid d prefix_rfl) he
    exact prefix_append _ _

/-- An index is suppressed, and keeps its flags, for the hold time. -/
theorem suppresses_of_clock {calls : List (Call ι)} (hcl : calls.Pairwise (·.now ≤ ·.now)) :
    Suppresses holdTime calls where
  tracked p _ := tracked_run p
  reported _ _ _ h := creates_of_reply h
  hold p c mid d hp heq hc hd := by
    by_contra hlt
    have hcl' := hcl.sublist hp.sublist
    rw [append_assoc, cons_append, pairwise_append, pairwise_cons, pairwise_append] at hcl'
    have hmi : ∀ m ∈ mid, m.now < c.now + holdTime := fun m hm =>
      (hcl'.2.1.2.2.2 m hm d (by simp)).trans_lt (not_le.mp hlt)
    have hs := @since_of_creates _ _ holdTime _ _ hc
    rw [← run_concat] at hs
    have := hs.run hmi
    rw [append_assoc, singleton_append] at this
    exact this.1 (heq ▸ hd)
  kept p c mid t _ hs hmi := by
    have hen := hs.run hmi
    obtain ⟨e, he⟩ := Option.ne_none_iff_exists'.mp hen.1
    refine ⟨e, by simpa using he, flagged_run (fun e he => ?_) (fun m d hm heq hd => ?_) he⟩
    · rw [run_concat] at he
      exact flagged_called he
    · have hm' := (prefix_append m [d]).trans hm
      exact (hs.run fun d hd => hmi d (hm'.subset hd)).1 (heq ▸ hd)
  flags p c mid e _ hmi he := by
    rw [append_cons] at he
    refine flagged_run (fun e he => ?_) (fun m d hm heq => ?_) he
    · rw [run_concat] at he
      exact flagged_called he
    · rw [← append_cons]
      exact hmi m d hm heq

/-- The first hash is dropped when the second one comes. -/
theorem two_hashes_suppressed :
    Suppresses 300 [⟨0, 1, .setFlag 4⟩, ⟨10, 1, .addSuppression⟩, ⟨400, 2, .getFlags⟩] :=
  suppresses_of_clock (by simp)

/-- Reported as created at 0 and at 802; `getFlags` made it anew in between, without the flag. -/
theorem flag_lost_between_reports :
    init.replies 300 [⟨0, 1, .addSuppressionFlags 4⟩, ⟨400, 2, .addSuppression⟩,
      ⟨401, 1, .getFlags⟩, ⟨800, 3, .addSuppression⟩, ⟨801, 4, .addSuppression⟩,
      ⟨802, 1, .addSuppression⟩] =
    [.created true, .created true, .flags 0, .created true, .created true, .created true] := by
  decide

end HashRouter

end Sand
