import Mathlib.Data.List.Basic

/-!
# Byte readers

A reader takes a value off the front of a byte string or fails.
-/

abbrev ByteReader (ε α : Type) := StateT (List UInt8) (Except ε) α

namespace ByteReader

open List

variable {ε α β : Type}

def take (n : ℕ) (error : ε) : ByteReader ε (List UInt8) := fun input =>
  if input.length < n then .error error else .ok (input.take n, input.drop n)

def unlessEmpty (atEnd : α) (r : ByteReader ε α) : ByteReader ε α := fun input =>
  if input.isEmpty then .ok (atEnd, []) else r.run input

variable {atEnd a : α} {r x y x' : ByteReader ε α} {input bytes : List UInt8}
  {f : α → ByteReader ε β} {n : ℕ} {p : Prop} {Q : α → Prop}

theorem run_unlessEmpty (h : input ≠ []) : (unlessEmpty atEnd r).run input = r.run input := by
  have hem : input.isEmpty = false := by simpa using h
  change (if input.isEmpty then _ else _) = _
  rw [hem]
  rfl

variable {rest : List UInt8}

theorem bind_eq_ok {b : β} (h : (x >>= f).run input = .ok (b, rest)) :
    ∃ a mid, x.run input = .ok (a, mid) ∧ (f a).run mid = .ok (b, rest) := by
  rw [StateT.run_bind] at h
  cases hx : x.run input with
  | error e =>
    rw [hx] at h
    cases h
  | ok result =>
    rw [hx] at h
    exact ⟨result.1, result.2, rfl, h⟩

theorem run_bind_of_ok {mid : List UInt8} (h : x.run input = .ok (a, mid)) : (x >>= f).run input =
    (f a).run mid := by
  rw [StateT.run_bind, h]
  rfl

theorem run_bind_of_error {e : ε} (h : x.run input = .error e) :
    (x >>= f).run input = .error e := by
  rw [StateT.run_bind, h]
  rfl

theorem toOption_run_bind (x : ByteReader ε α) (f : α → ByteReader ε β) (inp : List UInt8) :
    ((x >>= f).run inp).toOption =
      (x.run inp).toOption.bind fun result => ((f result.1).run result.2).toOption := by
  cases h : x.run inp with
  | error e =>
    rw [run_bind_of_error h]
    rfl
  | ok result =>
    rw [run_bind_of_ok h]
    rfl

/-! ## Byte strings that are read whatever follows -/

/-- A value, leaving what follows, or a failure. -/
def Yields (r : ByteReader ε α) (bytes : List UInt8) (result : Option α) : Prop :=
  ∀ rest, (r.run (bytes ++ rest)).toOption = result.map (·, rest)

abbrev Reads (r : ByteReader ε α) (bytes : List UInt8) (a : α) : Prop :=
  Yields r bytes (some a)

theorem reads_iff : Reads r bytes a ↔ ∀ rest, r.run (bytes ++ rest) = .ok (a, rest) := by
  refine forall_congr' fun rest => ?_
  cases r.run (bytes ++ rest) <;> simp [Except.toOption]

theorem Reads.run (h : Reads r bytes a) (rest : List UInt8) :
    r.run (bytes ++ rest) = .ok (a, rest) :=
  reads_iff.mp h rest

theorem reads_pure (a : α) : Reads (pure a : ByteReader ε α) [] a := fun _ => rfl

variable (e : ε)

theorem yields_throw (bs : List UInt8) : Yields (throw e : ByteReader ε α) bs none := fun _ => rfl

theorem reads_take (h : bytes.length = n) : Reads (take n e) bytes bytes := by
  refine reads_iff.mpr fun rest => ?_
  have hl : ¬ (bytes ++ rest).length < n := by
    rw [length_append]
    omega
  change (if (bytes ++ rest).length < n then _ else _) = _
  rw [if_neg hl, take_left' h, drop_left' h]

variable {bytes' : List UInt8} {result : Option α}

theorem Yields.bind {next : α → Option β}
    (hx : Yields x bytes result) (hf : ∀ a, result = some a → Yields (f a) bytes' (next a)) :
    Yields (x >>= f) (bytes ++ bytes') (result.bind next) := by
  intro rest
  have hfs := hx (bytes' ++ rest)
  rw [append_assoc]
  cases result with
  | none =>
    cases run : x.run (bytes ++ (bytes' ++ rest)) with
    | error e =>
      rw [run_bind_of_error run]
      rfl
    | ok a =>
      rw [run] at hfs
      cases hfs
  | some a =>
    rw [run_bind_of_ok (Reads.run hx (bytes' ++ rest))]
    exact hf a rfl rest

theorem Reads.bind {result : Option β} (hx : Reads x bytes a)
    (hf : Yields (f a) bytes' result) : Yields (x >>= f) (bytes ++ bytes') result := by
  have hb : Yields (x >>= f) (bytes ++ bytes') ((some a).bind fun _ => result) := by
    refine Yields.bind hx fun a' ha => ?_
    cases ha
    exact hf
  exact hb

theorem Yields.map (f : α → β) (hx : Yields x bytes result) :
    Yields (f <$> x) bytes (result.map f) := by
  have hb : Yields (x >>= fun a => pure (f a)) (bytes ++ []) (result.bind (some ∘ f)) :=
    hx.bind fun a _ => reads_pure (f a)
  rw [append_nil] at hb
  rwa [map_eq_pure_bind, Option.map_eq_bind]

/-! ## Readers that look only at what they read -/

/-- What is left behind has no influence, or the reader stopped at the end of the input and one
more byte would have closed what it has read. -/
def Delimited (r : ByteReader ε α) : Prop :=
  ∀ ⦃input a rest⦄, r.run input = .ok (a, rest) → ∃ bytes, input = bytes ++ rest ∧
      (Reads r bytes a ∨ rest = [] ∧ ∃ b, r.run (bytes ++ [b]) = .ok (a, []))

theorem delimited_pure (a : α) : Delimited (pure a : ByteReader ε α) := by
  intro input a' rest h
  cases h
  exact ⟨[], rfl, .inl (reads_pure a)⟩

theorem delimited_throw : Delimited (throw e : ByteReader ε α) := nofun

theorem delimited_take (n : ℕ) (e : ε) : Delimited (take n e) := by
  intro input bytes rest h
  change (if input.length < n then _ else _) = _ at h
  by_cases hl : input.length < n
  · rw [if_pos hl] at h
    cases h
  rw [if_neg hl] at h
  cases h
  refine ⟨input.take n, (take_append_drop n input).symm, .inl (reads_take e ?_)⟩
  rw [length_take]
  omega

theorem Delimited.bind (hx : Delimited x) (hf : ∀ a, Delimited (f a)) : Delimited (x >>= f) := by
  intro input b rest h
  obtain ⟨a, mid, hfs, hs⟩ := bind_eq_ok h
  obtain ⟨bytes, rfl, hrd⟩ := hx hfs
  obtain ⟨bytes', rfl, hrd'⟩ := hf a hs
  refine ⟨bytes ++ bytes', (append_assoc ..).symm, ?_⟩
  rcases hrd with hrd | ⟨he, c, hc⟩
  · rcases hrd' with hrd' | ⟨he', c, hc⟩
    · exact .inl (hrd.bind hrd')
    · refine .inr ⟨he', c, ?_⟩
      rw [append_assoc, run_bind_of_ok (hrd.run _), hc]
  -- the first reader was the one to stop at the end, and the second has read nothing
  · obtain ⟨rfl, rfl⟩ := append_eq_nil_iff.mp he
    refine .inr ⟨rfl, c, ?_⟩
    rw [append_nil, run_bind_of_ok hc]
    exact hs

theorem Delimited.map (f : α → β) (hx : Delimited x) : Delimited (f <$> x) := by
  exact hx.bind fun a => delimited_pure (f a)

theorem delimited_ite [Decidable p] (hx : Delimited x) (hy : Delimited y) :
    Delimited (if p then x else y) := by
  split
  · exact hx
  · exact hy

theorem Delimited.unlessEmpty {b : UInt8} (hr : Delimited r) (hni : (r.run []).toOption = none)
    (hc : r.run [b] = .ok (atEnd, [])) : Delimited (unlessEmpty atEnd r) := by
  intro input a rest h
  cases input with
  | nil =>
    cases h
    exact ⟨[], rfl, .inr ⟨rfl, b, hc⟩⟩
  | cons c input =>
    obtain ⟨bytes, hsp, hrd⟩ := hr h
    refine ⟨bytes, hsp, ?_⟩
    rcases hrd with hrd | ⟨he, c', hc'⟩
    · have hne : bytes ≠ [] := by
        rintro rfl
        have run := hrd []
        rw [nil_append, hni] at run
        cases run
      refine .inl (reads_iff.mpr fun rest' => ?_)
      rw [run_unlessEmpty (by simp [hne]), hrd.run]
    · refine .inr ⟨he, c', ?_⟩
      rw [run_unlessEmpty (by simp), hc']

theorem Delimited.length_le (hx : Delimited x)
    (h : x.run input = .ok (a, rest)) : rest.length ≤ input.length := by
  obtain ⟨bytes, rfl, -⟩ := hx h
  rw [length_append]
  omega

def Consumes (r : ByteReader ε α) : Prop :=
  ∀ ⦃input a rest⦄, r.run input = .ok (a, rest) → rest.length < input.length

theorem Consumes.bind (hx : Consumes x) (hf : ∀ a, Delimited (f a)) : Consumes (x >>= f) := by
  intro input b rest h
  obtain ⟨a, mid, hfs, hs⟩ := bind_eq_ok h
  exact Nat.lt_of_le_of_lt ((hf a).length_le hs) (hx hfs)

/-!
## Loops

A loop is a family of readers, one for each bound on the rounds.
-/

/-- They do the same on fewer than `n` bytes. -/
def AgreeBelow (n : ℕ) (r r' : ByteReader ε α) : Prop :=
  ∀ input, input.length < n → r.run input = r'.run input

theorem AgreeBelow.refl (n : ℕ) (r : ByteReader ε α) : AgreeBelow n r r := fun _ _ => rfl

variable {f' : α → ByteReader ε β}

theorem AgreeBelow.bind (hx : AgreeBelow n x x') (hd : Delimited x)
    (hf : ∀ a, AgreeBelow n (f a) (f' a)) : AgreeBelow n (x >>= f) (x' >>= f') := by
  intro input hl
  have hsa := hx input hl
  cases run : x.run input with
  | error e =>
    rw [run_bind_of_error run, run_bind_of_error (hsa ▸ run)]
  | ok result =>
    obtain ⟨a, rest⟩ := result
    rw [run_bind_of_ok run, run_bind_of_ok (hsa ▸ run)]
    exact hf a rest (Nat.lt_of_le_of_lt (hd.length_le run) hl)

theorem AgreeBelow.map (f : α → β) (hx : AgreeBelow n x x') (hd : Delimited x) :
    AgreeBelow n (f <$> x) (f <$> x') := by
  rw [map_eq_pure_bind, map_eq_pure_bind]
  exact hx.bind hd fun a => .refl n _

theorem Consumes.agreeBelow_bind (hco : Consumes x)
    (hf : ∀ a, AgreeBelow n (f a) (f' a)) : AgreeBelow (n + 1) (x >>= f) (x >>= f') := by
  intro input hl
  cases run : x.run input with
  | error e => rw [run_bind_of_error run, run_bind_of_error run]
  | ok result =>
    obtain ⟨a, rest⟩ := result
    rw [run_bind_of_ok run, run_bind_of_ok run]
    have hls := hco run
    exact hf a rest (by omega)

theorem AgreeBelow.ite [Decidable p] {y' : ByteReader ε α} (hx : AgreeBelow n x x')
    (hy : AgreeBelow n y y') : AgreeBelow n (if p then x else y) (if p then x' else y') := by
  split
  · exact hx
  · exact hy

theorem AgreeBelow.unlessEmpty {r' : ByteReader ε α} (atEnd : α) (h : AgreeBelow n r r') :
    AgreeBelow n (unlessEmpty atEnd r) (unlessEmpty atEnd r') := by
  intro input hl
  cases input with
  | nil => rfl
  | cons b input => rw [run_unlessEmpty (by simp), run_unlessEmpty (by simp), h _ hl]

/-- The loop with as many rounds as the input can need. -/
def unbounded (r : ℕ → ByteReader ε α) : ByteReader ε α := fun input =>
  (r (input.length + 1)).run input

/-- A round more changes nothing on fewer bytes than rounds. -/
def Stable (r : ℕ → ByteReader ε α) : Prop :=
  ∀ n, AgreeBelow n (r n) (r (n + 1))

section

variable {r : ℕ → ByteReader ε α} (hr : Stable r)
include hr

theorem Stable.agreeBelow {m : ℕ} (hle : n ≤ m) : AgreeBelow n (r n) (r m) := by
  induction hle with
  | refl => exact .refl n _
  | step hle ih =>
    intro input hl
    rw [ih input hl, hr _ input (Nat.lt_of_lt_of_le hl hle)]

theorem Stable.run_unbounded (hl : input.length < n) :
    (unbounded r).run input = (r n).run input :=
  hr.agreeBelow hl input (Nat.lt_succ_self _)

theorem Stable.agreeBelow_unbounded (n : ℕ) : AgreeBelow n (r n) (unbounded r) :=
  fun _ hl => (hr.run_unbounded hl).symm

theorem Stable.delimited_unbounded (hd : ∀ n, Delimited (r n)) : Delimited (unbounded r) := by
  intro input a rest h
  -- for every number of rounds that is large enough the same bytes are read
  have hsp : ∀ n, input.length < n → ∃ bytes, input = bytes ++ rest ∧
      (Reads (r n) bytes a ∨ rest = [] ∧ ∃ b, (r n).run (bytes ++ [b]) = .ok (a, [])) :=
    fun n hn => hd n (hr.run_unbounded hn ▸ h)
  obtain ⟨bytes, rfl, -⟩ := hsp _ (Nat.lt_succ_self _)
  refine ⟨bytes, rfl, ?_⟩
  by_cases hal : ∀ n, (bytes ++ rest).length + 1 < n → Reads (r n) bytes a
  · refine .inl (reads_iff.mpr fun rest' => ?_)
    have hn : (bytes ++ rest').length < (bytes ++ rest).length + (bytes ++ rest').length + 2 := by
      omega
    rw [hr.run_unbounded hn]
    exact (hal _ (by omega)).run rest'
  · obtain ⟨n, hn, hno⟩ := not_forall₂.mp hal
    obtain ⟨bytes', heq, hrd⟩ := hsp n (by omega)
    obtain rfl := append_cancel_right heq
    obtain ⟨rfl, b, hc⟩ := hrd.resolve_left hno
    refine .inr ⟨rfl, b, ?_⟩
    rw [hr.run_unbounded (by simpa using hn), hc]

end

/-! ## What is read -/

/-- Whatever the reader returns has the property. -/
def Ensures (r : ByteReader ε α) (Q : α → Prop) : Prop :=
  ∀ ⦃input a rest⦄, r.run input = .ok (a, rest) → Q a

theorem ensures_pure (h : Q a) : Ensures (pure a : ByteReader ε α) Q := by
  intro input a' rest run
  cases run
  exact h

theorem ensures_throw : Ensures (throw e : ByteReader ε α) Q := nofun

theorem ensures_true (r : ByteReader ε α) : Ensures r fun _ => True := fun _ _ _ _ => trivial

variable {R : β → Prop}

theorem Ensures.bind (hx : Ensures x Q) (hf : ∀ a, Q a → Ensures (f a) R) :
    Ensures (x >>= f) R := by
  intro input b rest h
  obtain ⟨a, mid, hfs, hs⟩ := bind_eq_ok h
  exact hf a (hx hfs) hs

theorem Ensures.map {f : α → β} (hx : Ensures x Q) (hf : ∀ a, Q a → R (f a)) :
    Ensures (f <$> x) R := by
  exact hx.bind fun a ha => ensures_pure (hf a ha)

theorem ensures_ite [Decidable p] (hx : p → Ensures x Q) (hy : ¬ p → Ensures y Q) : Ensures
    (if p then x else y) Q := by
  split
  · next hp => exact hx hp
  · next hp => exact hy hp

theorem Ensures.unlessEmpty (hr : Ensures r Q) (he : Q atEnd) :
    Ensures (unlessEmpty atEnd r) Q := by
  intro input a rest h
  cases input with
  | nil =>
    cases h
    exact he
  | cons b input =>
    rw [run_unlessEmpty (by simp)] at h
    exact hr h

theorem ensures_unbounded {r : ℕ → ByteReader ε α} (h : ∀ n, Ensures (r n) Q) :
    Ensures (unbounded r) Q :=
  fun _ _ _ run => h _ run

end ByteReader
