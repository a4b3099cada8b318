import Mathlib

/-!
# Decaying samples

A sample loses a part of its value in every second; times are in ticks of the clock.
-/

namespace Sand

open Function

structure DecayingSample where
  value : ℕ
  when : ℤ

namespace DecayingSample

-- the seconds of the window, and the ticks of a second
variable (window period : ℕ)

def fade (v : ℕ) : ℕ := v - (v + window - 1) / window

/-- Whole seconds, as a `size_t`. -/
def seconds (d : ℤ) : ℕ :=
  let count := d.tdiv period
  (if count < 0 then count + 2 ^ 64 else count).toNat

def decay (s : DecayingSample) (now : ℤ) : DecayingSample :=
  if now = s.when then s
  else
    let elapsed := seconds period (now - s.when)
    let value :=
      if s.value = 0 then 0
      else if 4 * window < elapsed then 0
      else (fade window)^[elapsed] s.value
    ⟨value, now⟩

/-- What reading at a time returns and leaves. -/
def read (s : DecayingSample) (now : ℤ) : ℕ × DecayingSample :=
  let s := s.decay window period now
  (s.value / window, s)

variable {window period : ℕ} {s : DecayingSample} {t₁ t₂ : ℤ}

theorem fade_zero : fade window 0 = 0 := Nat.zero_sub _

theorem fade_eq_self_iff (hw : 0 < window) {v : ℕ} : fade window v = v ↔ v = 0 := by
  refine ⟨fun h => ?_, fun h => h ▸ fade_zero⟩
  by_contra hne
  have hpo : 0 < (v + window - 1) / window := Nat.div_pos (by omega) hw
  unfold fade at h
  omega

theorem iterate_fade_succ_iff (hw : 0 < window) (n v : ℕ) :
    (fade window)^[n] v = (fade window)^[n + 1] v ↔ (fade window)^[n] v = 0 := by
  rw [iterate_succ_apply', eq_comm, fade_eq_self_iff hw]

theorem seconds_of_nonneg {d : ℤ} (hd : 0 ≤ d) : seconds period d = (d / period).toNat := by
  have hcount : ¬ d / period < 0 := (Int.ediv_nonneg hd (Int.natCast_nonneg _)).not_gt
  rw [seconds, Int.tdiv_eq_ediv_of_nonneg hd]
  exact congrArg Int.toNat (if_neg hcount)

/-- Two spans make as many seconds as both together, or one less. -/
theorem seconds_add (hp : 0 < period) {a b : ℤ} (ha : 0 ≤ a) (hb : 0 ≤ b) :
    seconds period (a + b) = seconds period a + seconds period b ∨
      seconds period (a + b) = seconds period a + seconds period b + 1 := by
  rw [seconds_of_nonneg ha, seconds_of_nonneg hb, seconds_of_nonneg (add_nonneg ha hb)]
  obtain ⟨a, rfl⟩ := Int.eq_ofNat_of_zero_le ha
  obtain ⟨b, rfl⟩ := Int.eq_ofNat_of_zero_le hb
  have heq (n : ℕ) : ((n : ℤ) / period).toNat = n / period := Int.toNat_natCast _
  rw [← Nat.cast_add, heq, heq, heq, Nat.add_div hp]
  split_ifs <;> simp

theorem decay_eq (hp : 0 < period) (ht : s.when ≤ t₁) (hs : t₁ - s.when ≤ 4 * window * period) :
    s.decay window period t₁ = ⟨(fade window)^[seconds period (t₁ - s.when)] s.value, t₁⟩ := by
  have hm : seconds period (t₁ - s.when) ≤ 4 * window := by
    have := Int.ediv_le_ediv (Int.natCast_pos.mpr hp) hs
    rw [Int.mul_ediv_cancel _ (by omega)] at this
    rw [seconds_of_nonneg (sub_nonneg.mpr ht)]
    omega
  unfold decay
  split_ifs with heq h0
  · simp [heq, seconds]
  · rw [h0, iterate_fixed fade_zero]
  · dsimp only
    rw [if_neg (by omega)]

/-- A read on the way changes nothing if no part of a second is lost by it, or nothing is left. -/
theorem read_read_iff (hw : 0 < window) (hp : 0 < period) (h₁ : s.when ≤ t₁) (h₂ : t₁ ≤ t₂)
    (hs : t₂ - s.when ≤ 4 * window * period) :
    ((s.read window period t₁).2.read window period t₂).2.value =
        (s.read window period t₂).2.value ↔
      seconds period (t₁ - s.when) + seconds period (t₂ - t₁) = seconds period (t₂ - s.when) ∨
      (fade window)^[seconds period (t₁ - s.when) + seconds period (t₂ - t₁)] s.value = 0 := by
  have hs₁ : t₁ - s.when ≤ 4 * window * period := by omega
  have hs₂ : t₂ - t₁ ≤ 4 * window * period := by omega
  simp only [read]
  rw [decay_eq hp h₁ hs₁, decay_eq hp h₂ hs₂, decay_eq hp (h₁.trans h₂) hs, ← iterate_add_apply,
    Nat.add_comm]
  have had := seconds_add hp (sub_nonneg.mpr h₁) (sub_nonneg.mpr h₂)
  rw [add_comm, sub_add_sub_cancel] at had
  obtain heq | heq := had
  · rw [heq]
    exact iff_of_true rfl (.inl rfl)
  · rw [heq, iterate_fade_succ_iff hw]
    exact (or_iff_right (by omega)).symm

theorem whole_second_read :
    ((read 32 (10 ^ 9) ⟨320, 0⟩ (10 ^ 9)).2.read 32 (10 ^ 9) (15 * 10 ^ 8)).2.value =
      (read 32 (10 ^ 9) ⟨320, 0⟩ (15 * 10 ^ 8)).2.value :=
  (read_read_iff (by decide) (by decide) (by decide) (by decide) (by decide)).mpr (.inl (by decide))

/-- Reads at every half second keep a sample from fading. -/
theorem half_second_read : (read 32 (10 ^ 9) ⟨320, 0⟩ (10 ^ 9)).2.value = 310 ∧
      ((read 32 (10 ^ 9) ⟨320, 0⟩ (5 * 10 ^ 8)).2.read 32 (10 ^ 9) (10 ^ 9)).2.value = 320 := by
  decide

end DecayingSample

end Sand
