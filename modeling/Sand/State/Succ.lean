import Sand.Library.Successor
import Sand.State.ApplyStateTable

/-!
# Ordered traversal of stacked views

A table finds the next key of the view that it makes up with its base.
-/

namespace Sand

open Successor Prod

variable {κ ν : Type} [LinearOrder κ]

def ReadView.keys (view : ReadView κ ν) : Set κ :=
  { k | view.existsKey ⟨k, fun _ => true⟩ }

/-- The view answers with the next of its keys. -/
def ReadView.Ordered (view : ReadView κ ν) : Prop :=
  ∀ key last, IsSucc view.keys key last (view.succ key last)

/-- The search that both kinds of tables make. -/
def succOver {α : Type} (items : OrderedMap κ (α × Ref)) (erased : α → Bool)
    (base : ReadView κ ν) (key : κ) (last : Option κ) : Option (Option κ) := do
  -- the base's successor that is not also deleted in our list
  let next ← skip (fun k => base.succ k last)
    (fun k => (items.find k).any fun item => erased item.1) (items.entries.length + 1) key
  -- the non-deleted successor in our list
  let own := ((items.upperBound key).find? fun entry => !erased entry.2.1).map fst
  some (bounded last (lower next own))

def ApplyStateTable.succ (t : ApplyStateTable κ) (base : ReadView κ ν) (key : κ)
    (last : Option κ) : Option (Option κ) :=
  succOver t.items (· == .erase) base key last

def RawStateTable.succ (t : RawStateTable κ) (base : ReadView κ ν) (key : κ) (last : Option κ) :
    Option (Option κ) :=
  succOver t.items (· == .erase) base key last

variable {base : ReadView κ ν}

/-- The search ends with the next key not erased, or only the base's. -/
theorem succOver_isSucc {α : Type} (items : OrderedMap κ (α × Ref)) (er : α → Bool)
    (hb : base.Ordered) (key : κ) (last : Option κ) :
    ∃ next, succOver items er base key last = some next ∧ IsSucc { k | match items.find k with
        | none => k ∈ base.keys
        | some item => er item.1 = false } key last next := by
  have hi : ∀ k, ((items.find k).any fun item => er item.1) →
      k ∈ items.entries.map fst := by
    intro k hk
    cases hf : items.find k with
    | none =>
      rw [hf] at hk
      cases hk
    | some item => exact List.mem_map.mpr ⟨_, OrderedMap.find_eq_some_iff.mp hf, rfl⟩
  have hfu : ((items.entries.map fst).filter fun k => key < k).length <
      items.entries.length + 1 := by
    have hle := List.length_filter_le (fun k => decide (key < k)) (items.entries.map fst)
    rw [List.length_map] at hle
    omega
  obtain ⟨next, hsk, hn⟩ := skip_isSucc (fun k => hb k last) hi _ key hfu
  have how := isSucc_find_upperBound items (fun item => !er item.1) key
  refine ⟨bounded last (lower next
    (((items.upperBound key).find? fun entry => !er entry.2.1).map fst)), ?_, ?_⟩
  · rw [succOver, hsk]
    rfl
  convert isSucc_bounded_lower hn how using 1
  ext k
  simp only [Set.mem_ofPred_eq, Set.mem_union]
  cases hf : items.find k with
  | none => simp
  | some item => cases he : er item.1 <;> simp [he]

/-! ## Stacks -/

inductive Layer (κ : Type) [LinearOrder κ] where
  | apply (t : ApplyStateTable κ)
  | raw (t : RawStateTable κ)

namespace Layer

def succ (base : ReadView κ ν) : Layer κ → κ → Option κ → Option (Option κ)
  | .apply t => t.succ base
  | .raw t => t.succ base

variable (mem : Memory κ ν)

/-- The view that a table makes up with its base. -/
def view (layer : Layer κ) (base : ReadView κ ν) : ReadView κ ν where
  read k := match layer with
    | .apply t => t.read mem base k
    | .raw t => t.read mem base k
  existsKey k := match layer with
    | .apply t => t.existsKey mem base k
    | .raw t => t.existsKey mem base k
  succ key last := (layer.succ base key last).join

theorem view_succ (ly : Layer κ) (base : ReadView κ ν) (key : κ)
    (last : Option κ) : (ly.view mem base).succ key last = (ly.succ base key last).join :=
  rfl

theorem succ_isSucc (mem : Memory κ ν) (ly : Layer κ)
    (hb : base.Ordered) (key : κ) (last : Option κ) :
    ∃ next, ly.succ base key last = some next ∧ IsSucc (ly.view mem base).keys key last next := by
  rcases ly with t | t
  all_goals
    obtain ⟨next, hs, hn⟩ := succOver_isSucc t.items (· == .erase) hb key last
    refine ⟨next, hs, ?_⟩
    convert hn using 1
    ext k
    simp only [ReadView.keys, view, ApplyStateTable.existsKey, RawStateTable.existsKey,
      Set.mem_ofPred_eq]
    rcases t.items.find k with _ | ⟨action, r⟩
    · rfl
    · cases action <;> simp

theorem view_ordered (ly : Layer κ) (hb : base.Ordered) : (ly.view mem base).Ordered := by
  intro key last
  obtain ⟨next, hs, hn⟩ := ly.succ_isSucc mem hb key last
  rwa [view_succ, hs]

end Layer

def stack (mem : Memory κ ν) (layers : List (Layer κ)) (base : ReadView κ ν) : ReadView κ ν :=
  layers.foldr (Layer.view mem) base

theorem stack_ordered (mem : Memory κ ν) (lys : List (Layer κ)) (hb : base.Ordered) :
    (stack mem lys base).Ordered := by
  induction lys with
  | nil => exact hb
  | cons layer lys ih => exact layer.view_ordered mem ih

/-- The topmost search ends with the next key of the stack. -/
theorem succ_of_stack (hb : base.Ordered) (mem : Memory κ ν)
    (layer : Layer κ) (layers : List (Layer κ)) (key : κ) :
    (∀ last, ∃ next, layer.succ (stack mem layers base) key last = some next ∧
      (stack mem (layer :: layers) base).succ key last = next ∧
      IsSucc (stack mem (layer :: layers) base).keys key last next) ∧
    ∀ keys : Finset κ, (∀ k, k ∈ keys ↔ k ∈ (stack mem (layer :: layers) base).keys ∧ key < k) →
      ∀ n, enumerate (fun k => (stack mem (layer :: layers) base).succ k none) n key =
        (keys.sort (· ≤ ·)).take n := by
  have hl := stack_ordered mem layers hb
  constructor
  · intro last
    obtain ⟨next, hs, hn⟩ := layer.succ_isSucc mem hl key last
    refine ⟨next, hs, ?_, hn⟩
    show (layer.view mem (stack mem layers base)).succ key last = next
    rw [Layer.view_succ, hs]
    rfl
  · intro keys hks n
    have ho := stack_ordered mem (layer :: layers) hb
    exact enumerate_eq (fun k => ho k none) n key keys hks

def oneKey : ReadView UInt256 Nat where
  read k := if k.key = 1 ∧ k.check 10 then some 10 else none
  existsKey k := k.key == 1 && k.check 10
  succ key last := if key < 1 ∧ (last.all fun l => decide (1 < l)) then some 1 else none

theorem oneKey_ordered : oneKey.Ordered := by
  have hks : ∀ k, k ∈ oneKey.keys ↔ k = 1 := by
    intro k
    simp [ReadView.keys, oneKey]
  intro key last
  rw [oneKey]
  dsimp only
  by_cases hn : key < 1 ∧ (last.all fun l => decide (1 < l))
  · rw [if_pos hn]
    refine ⟨(hks 1).mpr rfl, hn.1, ?_, ?_⟩
    · rintro l rfl
      simpa using hn.2
    · intro k hk _
      exact ((hks k).mp hk).ge
  · rw [if_neg hn]
    intro k hk hlt
    obtain rfl := (hks k).mp hk
    cases last with
    | none => exact absurd ⟨hlt, rfl⟩ hn
    | some l =>
      refine ⟨l, rfl, ?_⟩
      by_contra hle
      exact hn ⟨hlt, by simpa using hle⟩

/-- 1 was erased, 2 inserted, and 1 again above. -/
theorem keys_of_two_tables :
    let mem : Memory UInt256 Nat := ⟨fun _ => ⟨0, 0⟩, 0⟩
    let lower : ApplyStateTable UInt256 :=
      ⟨(OrderedMap.empty.insert 1 (.erase, 0)).insert 2 (.insert, 1), 0, 0⟩
    let upper : RawStateTable UInt256 := ⟨OrderedMap.empty.insert 1 (.insert, 2), 0, 0⟩
    (stack mem [.raw upper, .apply lower] oneKey).succ 0 none = some 1 ∧
      (stack mem [.raw upper, .apply lower] oneKey).succ 1 none = some 2 ∧
      ∃ next, Layer.succ (stack mem [.apply lower] oneKey) (.raw upper) 2 none = some next ∧
        (stack mem [.raw upper, .apply lower] oneKey).succ 2 none = next ∧
        IsSucc (stack mem [.raw upper, .apply lower] oneKey).keys 2 none next := by
  refine ⟨by decide +kernel, by decide +kernel, ?_⟩
  exact (succ_of_stack oneKey_ordered _ _ _ 2).1 none

end Sand
