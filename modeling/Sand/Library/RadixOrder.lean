import Mathlib.Data.List.Pairwise
import Sand.Library.RadixTree

/-!
# The order of the items of a radix tree

Keys are compared by the first digit in which they differ.
-/

namespace RadixTree

variable {κ τ α : Type} {b : ℕ} [Digits κ b] [HasKey α κ]

/-- Keys compare as the first digits that differ. -/
structure LexOrder (R : κ → κ → Prop) (S : Fin b → Fin b → Prop) : Prop where
  of_digit : ∀ {k k' : κ} {d : ℕ}, d < height κ → (∀ e < d, digit e k = digit e k') →
    S (digit d k) (digit d k') → R k k'
  asymm : ∀ {k k' : κ}, R k k' → ¬R k' k
  tri : ∀ i j : Fin b, S i j ∨ i = j ∨ S j i

def IsFirst (R : κ → κ → Prop) (t : RadixTree b τ α) (a : α) : Prop :=
  a ∈ t.items ∧ ∀ x ∈ t.items, x = a ∨ R (key a) (key x)

/-- The first item after a key, if there is one. -/
def IsNext (R : κ → κ → Prop) (k : κ) (t : RadixTree b τ α) : Option α → Prop
  | none => ∀ x ∈ t.items, ¬R k (key x)
  | some a => a ∈ t.items ∧ R k (key a) ∧
      ∀ x ∈ t.items, R k (key x) → x = a ∨ R (key a) (key x)

variable {R : κ → κ → Prop} {S : Fin b → Fin b → Prop} {c : Fin b → RadixTree b τ α} {d : ℕ}

/-- The items of a tree share their first digits. -/
def Uniform (t : RadixTree b τ α) (d : ℕ) : Prop :=
  ∀ x ∈ t.items, ∀ y ∈ t.items, ∀ e < d, digit e (key x) = digit e (key y)

theorem uniform_zero (t : RadixTree b τ α) : t.Uniform 0 :=
  fun _ _ _ _ _ he => absurd he (Nat.not_lt_zero _)

variable {k : κ} {i : Fin b} {a : α}

theorem Uniform.child (h : (inner c).Uniform d) (hpl : (inner c).Placed d) (i : Fin b) :
    (c i).Uniform (d + 1) := by
  intro x hx y hy e he
  rcases Nat.lt_succ_iff_lt_or_eq.mp he with hlt | rfl
  · exact h x (mem_items_inner.mpr ⟨i, hx⟩) y (mem_items_inner.mpr ⟨i, hy⟩) e hlt
  · rw [(hpl.2 i).1 x hx, (hpl.2 i).1 y hy]

variable {t : RadixTree b τ α}

theorem Under.uniform (h : t.Under d k) : t.Uniform d := by
  intro x hx y hy e he
  rw [h x hx e he, h y hy e he]

section

variable (hl : LexOrder R S)
include hl

section

variable (hpl : (inner c).Placed d)
include hpl

theorem LexOrder.of_branches (hun : (inner c).Uniform d) {j : Fin b} {x y : α}
    (hx : x ∈ (c i).items) (hy : y ∈ (c j).items) (hij : S i j) : R (key x) (key y) := by
  refine hl.of_digit hpl.1 (hun x (mem_items_inner.mpr ⟨i, hx⟩) y (mem_items_inner.mpr ⟨j, hy⟩)) ?_
  rwa [(hpl.2 i).1 x hx, (hpl.2 j).1 y hy]

theorem IsFirst.inner (hun : (inner c).Uniform d) (h : (c i).IsFirst R a)
    (hbe : ∀ j, S j i → (c j).items = []) : (inner c).IsFirst R a := by
  refine ⟨mem_items_inner.mpr ⟨i, h.1⟩, fun x hx => ?_⟩
  obtain ⟨j, hj⟩ := mem_items_inner.mp hx
  rcases hl.tri i j with hij | rfl | hji
  · exact .inr (hl.of_branches hpl hun h.1 hj hij)
  · exact h.2 x hj
  · rw [hbe j hji] at hj
    cases hj

section

variable (hu : (inner c).Under d k)
include hu

theorem IsNext.inner_some (h : (c (digit d k)).IsNext R k (some a)) :
    (inner c).IsNext R k (some a) := by
  obtain ⟨hm, ha, hle⟩ := h
  refine ⟨mem_items_inner.mpr ⟨_, hm⟩, ha, fun x hx hkx => ?_⟩
  obtain ⟨j, hj⟩ := mem_items_inner.mp hx
  rcases hl.tri (digit d k) j with hkj | rfl | hjk
  · exact .inr (hl.of_branches hpl hu.uniform hm hj hkj)
  · exact hle x hj hkx
  · have hxk : R (key x) k := hl.of_digit hpl.1 (hu x hx) (by rwa [(hpl.2 j).1 x hj])
    exact absurd hxk (hl.asymm hkx)

theorem LexOrder.not_before {j : Fin b} (hj : S j (digit d k)) {x : α} (hx : x ∈ (c j).items) : ¬R k
    (key x) := by
  refine hl.asymm (hl.of_digit hpl.1 (hu x (mem_items_inner.mpr ⟨j, hx⟩)) ?_)
  rwa [(hpl.2 j).1 x hx]

/-- If the key's own branch has nothing after it, the next item is the first of the next branch. -/
theorem IsNext.inner_first (hno : (c (digit d k)).IsNext R k none) (ha : S (digit d k) i)
    (h : (c i).IsFirst R a) (hb : ∀ j, S (digit d k) j → S j i → (c j).items = []) :
    (inner c).IsNext R k (some a) := by
  have hka : R k (key a) := by
    refine hl.of_digit hpl.1 (fun e he => (hu a (mem_items_inner.mpr ⟨i, h.1⟩) e he).symm) ?_
    rwa [(hpl.2 i).1 a h.1]
  refine ⟨mem_items_inner.mpr ⟨i, h.1⟩, hka, fun x hx hkx => ?_⟩
  obtain ⟨j, hj⟩ := mem_items_inner.mp hx
  rcases hl.tri (digit d k) j with hkj | rfl | hjk
  · rcases hl.tri i j with hij | rfl | hji
    · exact .inr (hl.of_branches hpl hu.uniform h.1 hj hij)
    · exact h.2 x hj
    · rw [hb j hkj hji] at hj
      cases hj
  · exact absurd hkx (hno x hj)
  · exact absurd hkx (hl.not_before hpl hu hjk hj)

theorem IsNext.inner_none (hno : (c (digit d k)).IsNext R k none)
    (ha : ∀ j, S (digit d k) j → (c j).items = []) : (inner c).IsNext R k none := by
  intro x hx
  obtain ⟨j, hj⟩ := mem_items_inner.mp hx
  rcases hl.tri (digit d k) j with hkj | rfl | hjk
  · rw [ha j hkj] at hj
    cases hj
  · exact hno x hj
  · exact hl.not_before hpl hu hjk hj

end

end

end

theorem Placed.pairwise_items (hl : LexOrder R (· < · : Fin b → Fin b → Prop))
    (hpl : t.Placed d) (hun : t.Uniform d) :
    t.items.Pairwise fun x y => R (key x) (key y) := by
  induction t generalizing d with
  | empty => exact List.Pairwise.nil
  | leaf t a => exact List.pairwise_singleton _ _
  | inner c ih =>
    rw [items, List.pairwise_flatMap]
    refine ⟨fun i _ => ih i (hpl.2 i).2 (hun.child hpl i), ?_⟩
    refine (List.pairwise_lt_finRange b).imp fun hij x hx y hy => ?_
    exact hl.of_branches hpl hun hx hy hij

end RadixTree
