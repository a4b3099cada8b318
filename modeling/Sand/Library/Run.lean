import Mathlib.Data.List.Basic

/-!
# Runs

Runs of a labelled transition system, and rules for properties of whole runs.
-/

/-- A run of `step`, with its events in order. -/
inductive Run {ε σ : Type*} (step : ε → σ → σ → Prop) : σ → List ε → σ → Prop
  | nil (s : σ) : Run step s [] s
  | cons {e : ε} {es : List ε} {s s' s'' : σ} (hst : step e s s') (hrs : Run step s' es s'') :
      Run step s (e :: es) s''

namespace Run

open List

variable {ε σ : Type*} {step : ε → σ → σ → Prop} {s s' : σ} {es : List ε} {Allowed : ε → Prop}

theorem invariant (Inv : σ → Prop) (h : Run step s es s') (hok : ∀ e ∈ es, Allowed e)
    (hk : ∀ ⦃e s s'⦄, Allowed e → step e s s' → Inv s → Inv s') (hi : Inv s) : Inv s' := by
  induction h with
  | nil s => exact hi
  | cons hst _ ih =>
    have hin := hk (hok _ mem_cons_self) hst hi
    exact ih (fun e he => hok e (mem_cons_of_mem _ he)) hin

theorem preserves (Inv : σ → Prop) (h : Run step s es s')
    (hk : ∀ ⦃e s s'⦄, step e s s' → Inv s → Inv s') (hi : Inv s) : Inv s' := by
  induction h with
  | nil s => exact hi
  | cons hst _ ih => exact ih (hk hst hi)

theorem of_foldlM {next : ε → σ → Option σ} (hn : ∀ ⦃e s s'⦄, next e s = some s' → step e s s')
    (h : es.foldlM (fun s e => next e s) s = some s') : Run step s es s' := by
  induction es generalizing s with
  | nil =>
    cases h
    exact .nil _
  | cons e es ih =>
    obtain ⟨s1, hst, hrs⟩ := Option.bind_eq_some_iff.mp h
    exact .cons (hn hst) (ih hrs)

/-- What holds of every step holds of every event. -/
theorem forall_events {Inv : σ → Prop} {P : ε → Prop} (h : Run step s es s')
    (hok : ∀ e ∈ es, Allowed e)
    (hk : ∀ ⦃e s s'⦄, Allowed e → step e s s' → Inv s → Inv s' ∧ P e) (hi : Inv s) :
    ∀ e ∈ es, P e := by
  induction h with
  | nil s => exact fun e he => absurd he not_mem_nil
  | cons hst _ ih =>
    obtain ⟨hin, hev⟩ := hk (hok _ mem_cons_self) hst hi
    have hrs := ih (fun e he => hok e (mem_cons_of_mem _ he)) hin
    intro e he
    rcases mem_cons.mp he with rfl | he
    · exact hev
    · exact hrs e he

/-- As `forall_events`, for events that a monitor lets pass. -/
theorem forall_monitored {φ : Type*} {next : φ → ε → Option φ} {I : φ → σ → Prop} {P : ε → Prop}
    {q q' : φ} (h : Run step s es s') (hpass : es.foldlM next q = some q')
    (hkeep : ∀ ⦃q q' e s s'⦄, next q e = some q' → step e s s' → I q s → I q' s' ∧ P e)
    (hinit : I q s) : ∀ e ∈ es, P e := by
  induction h generalizing q with
  | nil s => exact fun e he => absurd he not_mem_nil
  | cons hst _ ih =>
    obtain ⟨q1, hnext, hpass⟩ := Option.bind_eq_some_iff.mp hpass
    obtain ⟨hinv, hevent⟩ := hkeep hnext hst hinit
    intro e he
    rcases mem_cons.mp he with rfl | he
    · exact hevent
    · exact ih hpass hinv e he

/-- If an event leaves a mark that later events keep, and that only related events can meet, the
events are pairwise related. -/
theorem pairwise {R : ε → ε → Prop} (h : Run step s es s') (Mark : ε → σ → Prop)
    (hok : ∀ e ∈ es, Allowed e) (hle : ∀ ⦃e s s'⦄, Allowed e → step e s s' → Mark e s')
    (hk : ∀ ⦃e e' s s'⦄, Allowed e' → step e' s s' → Mark e s → Mark e s' ∧ R e e') :
    es.Pairwise R := by
  induction h with
  | nil s => exact List.Pairwise.nil
  | @cons e es s s' s'' hst hrs ih =>
    have hl : ∀ e' ∈ es, Allowed e' := fun e' he' => hok e' (mem_cons_of_mem _ he')
    have hma := hle (hok e mem_cons_self) hst
    refine List.Pairwise.cons ?_ (ih hl)
    exact hrs.forall_events hl (fun e' _ _ ha hst' hm => hk ha hst' hm) hma

/-- Every event of every run, with the states around it, satisfies `P`. -/
def Along (step : ε → σ → σ → Prop) (P : σ → ε → σ → Prop) : σ → List ε → Prop
  | _, [] => True
  | s, e :: es => ∀ s', step e s s' → P s e s' ∧ Along step P s' es

variable {P : σ → ε → σ → Prop}

theorem along_of_step (h : ∀ ⦃e s s'⦄, step e s s' → P s e s') : Along step P s es := by
  induction es generalizing s with
  | nil => trivial
  | cons e es ih => exact fun s' hstep => ⟨h hstep, ih⟩

theorem along_invariant_iff {Inv : σ → Prop}
    (h : ∀ ⦃e s s'⦄, Inv s → step e s s' → (Inv s' ↔ P s e s')) (hinit : Inv s) :
    Along step (fun _ _ s' => Inv s') s es ↔ Along step P s es := by
  induction es generalizing s with
  | nil => rfl
  | cons e es ih =>
    refine forall₂_congr fun s' hstep => ?_
    rw [← h hinit hstep]
    exact and_congr_right ih

end Run
