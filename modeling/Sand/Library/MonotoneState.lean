import Mathlib.Order.Defs.Unbundled

/-!
# Monotone state

A state monad with failure whose computations move the state along a fixed preorder.
-/

/-- It may fail with `ε` and never leaves `r`. -/
structure MonoM {σ : Type} (r : σ → σ → Prop) (ε α : Type) where
  run : σ → Except ε α × σ
  mono : ∀ s, r s (run s).2

namespace MonoM

variable {σ τ : Type} {r : σ → σ → Prop} {t : τ → τ → Prop} {ε α β : Type}

@[ext]
theorem ext {x y : MonoM r ε α} (h : ∀ s, x.run s = y.run s) : x = y := by
  cases x
  cases y
  congr
  exact funext h

theorem rel_of_run {x : MonoM r ε α} {s s' : σ} {res : Except ε α} (h : x.run s = (res, s')) :
    r s s' := by
  have hm := x.mono s
  rwa [h] at hm

@[simp]
theorem run_ite (c : Prop) [Decidable c] (x y : MonoM r ε α) (s : σ) :
    (if c then x else y).run s = if c then x.run s else y.run s := by
  split <;> rfl

/-- A failure keeps the state it happened in. -/
def bindRun (x : Except ε α × σ) (f : α → MonoM r ε β) : Except ε β × σ :=
  match x with
  | (.ok a, s) => (f a).run s
  | (.error e, s) => (.error e, s)

@[simp]
theorem bindRun_ok (a : α) (s : σ) (f : α → MonoM r ε β) : bindRun (.ok a, s) f = (f a).run s := rfl

@[simp]
theorem bindRun_error (e : ε) (s : σ) (f : α → MonoM r ε β) :
    bindRun (.error e, s) f = (.error e, s) :=
  rfl

section Monad

variable [IsPreorder σ r]

theorem rel_bindRun (x : Except ε α × σ) (f : α → MonoM r ε β) : r x.2 (bindRun x f).2 := by
  obtain ⟨outcome, s⟩ := x
  cases outcome with
  | ok a => exact (f a).mono s
  | error e => exact refl_of r s

instance : Monad (MonoM r ε) where
  pure a := ⟨fun s => (.ok a, s), fun s => refl_of r s⟩
  bind x f :=
    { run := fun s => bindRun (x.run s) f
      mono := fun s => trans_of r (x.mono s) (rel_bindRun (x.run s) f) }

@[simp]
theorem run_pure (a : α) (s : σ) : (pure a : MonoM r ε α).run s = (.ok a, s) := rfl

@[simp]
theorem run_bind (x : MonoM r ε α) (f : α → MonoM r ε β) (s : σ) :
    (x >>= f).run s = bindRun (x.run s) f :=
  rfl

variable {x : MonoM r ε α}

theorem run_bind_ok {s s' : σ} {a : α} (h : x.run s = (.ok a, s')) (f : α → MonoM r ε β) :
    (x >>= f).run s = (f a).run s' := by
  rw [run_bind, h, bindRun_ok]

theorem bind_eq_ok {f : α → MonoM r ε β} {s s'' : σ} {b : β} : (x >>= f).run s = (.ok b, s'') ↔
      ∃ a s', x.run s = (.ok a, s') ∧ (f a).run s' = (.ok b, s'') := by
  rw [run_bind]
  rcases x.run s with ⟨e | a, s'⟩
  · simp
  simp only [bindRun_ok, Prod.mk.injEq, Except.ok.injEq]
  constructor
  · intro h
    exact ⟨a, s', ⟨rfl, rfl⟩, h⟩
  · rintro ⟨a', s1, ⟨rfl, rfl⟩, h⟩
    exact h

/-- Fails with `e`, leaving the state alone. -/
instance : MonadExceptOf ε (MonoM r ε) where
  throw e := ⟨fun s => (.error e, s), fun s => refl_of r s⟩
  tryCatch x handler :=
    { run := fun s =>
        match x.run s with
        | (.ok a, s') => (.ok a, s')
        | (.error e, s') => (handler e).run s'
      mono := fun s => by
        have hx := x.mono s
        rcases h : x.run s with ⟨_ | a, s'⟩
        · simp only [h] at hx ⊢
          exact trans_of r hx ((handler _).mono s')
        · simpa only [h] using hx }

def gets (f : σ → α) : MonoM r ε α :=
  ⟨fun s => (.ok (f s), s), fun s => refl_of r s⟩

def ofExcept (x : Except ε α) : MonoM r ε α :=
  ⟨fun s => (x, s), fun s => refl_of r s⟩

instance : MonadLift (Except ε) (MonoM r ε) where
  monadLift := ofExcept

@[simp]
theorem run_liftM_except (x : Except ε α) (s : σ) : (liftM x : MonoM r ε α).run s = (x, s) := rfl

theorem run_liftM_except_eq_ok {x : Except ε α} {s s' : σ} {a : α} :
    (liftM x : MonoM r ε α).run s = (.ok a, s') ↔ x = .ok a ∧ s = s' := by
  rw [run_liftM_except, Prod.mk.injEq]

end Monad

def modify (f : σ → σ) (hf : ∀ s, r s (f s)) : MonoM r ε Unit :=
  ⟨fun s => (.ok (), f s), hf⟩

/-- When it returns, it has moved the state along `q`. -/
def Keeps (q : σ → σ → Prop) (x : MonoM r ε α) : Prop :=
  ∀ ⦃s a s'⦄, x.run s = (.ok a, s') → q s s'

section Keeps

variable {q : σ → σ → Prop}

theorem keeps_modify {f : σ → σ} {hf : ∀ s, r s (f s)} (h : ∀ s, q s (f s)) :
    Keeps q (modify f hf : MonoM r ε Unit) := by
  intro s a s' hr
  cases hr
  exact h s

variable [IsPreorder σ r] [IsPreorder σ q]

theorem keeps_pure (a : α) : Keeps q (pure a : MonoM r ε α) := by
  intro s a s' hr
  cases hr
  exact refl_of q s

omit [IsPreorder σ q] in
theorem keeps_throw (e : ε) : Keeps q (throw e : MonoM r ε α) := by
  intro s a s' hr
  cases hr

theorem keeps_gets (f : σ → α) : Keeps q (gets f : MonoM r ε α) := by
  intro s a s' hr
  cases hr
  exact refl_of q s

theorem keeps_liftM_except (x : Except ε α) : Keeps q (liftM x : MonoM r ε α) := by
  intro s a s' hr
  obtain ⟨_, rfl⟩ := run_liftM_except_eq_ok.mp hr
  exact refl_of q s

theorem keeps_bind {x : MonoM r ε α} {f : α → MonoM r ε β} (hx : Keeps q x)
    (hf : ∀ a, Keeps q (f a)) : Keeps q (x >>= f) := by
  intro s b s'' hr
  obtain ⟨a, s', hfs, hrs⟩ := bind_eq_ok.mp hr
  exact trans_of q (hx hfs) (hf a hrs)

omit [IsPreorder σ r] [IsPreorder σ q] in
theorem keeps_ite {c : Prop} [Decidable c] {x y : MonoM r ε α} (hx : c → Keeps q x)
    (hy : ¬ c → Keeps q y) : Keeps q (if c then x else y) := by
  by_cases hc : c
  · rw [if_pos hc]
    exact hx hc
  · rw [if_neg hc]
    exact hy hc

end Keeps

def weaken {r' : σ → σ → Prop} (h : ∀ s s', r s s' → r' s s') (x : MonoM r ε α) :
    MonoM r' ε α :=
  ⟨x.run, fun s => h s _ (x.mono s)⟩

def zoom (get : σ → τ) (set : σ → τ → σ) (h : ∀ s c, t (get s) c → r s (set s c))
    (x : MonoM t ε α) : MonoM r ε α where
  run s := ((x.run (get s)).1, set s (x.run (get s)).2)
  mono s := h s _ (x.mono (get s))

end MonoM

theorem exists_ok_of_toOption_map {ε α β : Type} {x : Except ε α} {f : α → β} {b : β}
    (h : x.toOption.map f = some b) : ∃ a, x = .ok a ∧ f a = b := by
  cases x with
  | error e => cases h
  | ok a => exact ⟨a, rfl, Option.some.inj h⟩
