import Mathlib.Data.Finset.Basic
import Mathlib.Data.List.AList

/-!
# Peer slots

Every connection to a peer has a slot.
-/

namespace Sand.PeerFinder

open Multiset AList Option

inductive SlotState where
  | accept
  | connect
  | connected
  | active
  | closing
  deriving DecidableEq

abbrev Endpoint (α : Type) := α × UInt16

structure Slot (κ : Type) where
  inbound : Bool
  fixed : Bool
  cluster : Bool := false
  state : SlotState
  publicKey : Option κ := none

inductive Counter where
  | attempts
  | active
  | inActive
  | outActive
  | fixed
  | fixedActive
  | cluster
  | acceptCount
  | closingCount

variable {α κ : Type}

namespace Slot

def counted (s : Slot κ) : Counter → Bool
  | .fixed => s.fixed
  | .cluster => s.cluster
  | .acceptCount => s.state = .accept
  | .attempts => s.state = .connect ∨ s.state = .connected
  | .fixedActive => s.state = .active ∧ s.fixed
  | .inActive => s.state = .active ∧ !s.fixed ∧ !s.cluster ∧ s.inbound
  | .outActive => s.state = .active ∧ !s.fixed ∧ !s.cluster ∧ !s.inbound
  | .active => s.state = .active
  | .closingCount => s.state = .closing

/-- It has a key, and may be of the cluster, once activated. -/
def Activated (s : Slot κ) : Prop :=
  (s.publicKey.isSome ↔ s.state = .active) ∧ (s.cluster → s.state = .active)

end Slot

structure Counts where
  inMax : ℕ
  outMax : ℕ
  count : Counter → Int := fun _ => 0

namespace Counts

variable (c : Counts)

def adjust (s : Slot κ) (n : Int) : Counts :=
  { c with count := fun counter => c.count counter + if s.counted counter then n else 0 }

def canActivate (s : Slot κ) : Bool :=
  if s.fixed || s.cluster then true
  else if s.inbound then decide (c.count .inActive < c.inMax)
  else decide (c.count .outActive < c.outMax)

theorem adjust_adjust (s : Slot κ) : (c.adjust s 1).adjust s (-1) = c := by
  have hct : ((c.adjust s 1).adjust s (-1)).count = c.count := by
    funext counter
    simp only [adjust]
    grind
  exact congrArg (fun count => { c with count }) hct

end Counts

structure Logic (α κ : Type) where
  slots : AList fun _ : Endpoint α => Slot κ
  connectedAddresses : Multiset α
  keys : Finset κ
  counts : Counts

namespace Logic

def init (inMax outMax : ℕ) : Logic α κ := ⟨∅, 0, ∅, { inMax, outMax }⟩

variable [DecidableEq α] [DecidableEq κ]

/-- What both ways to a new slot end with. -/
def addSlot (l : Logic α κ) (e : Endpoint α) (s : Slot κ) : Logic α κ :=
  { l with
    slots := if e ∈ l.slots then l.slots else l.slots.insert e s
    connectedAddresses := e.1 ::ₘ l.connectedAddresses
    counts := l.counts.adjust s 1 }

/-- The slot under `e`, which is `s`, becomes `s'`. -/
def setSlot (l : Logic α κ) (e : Endpoint α) (s s' : Slot κ) : Logic α κ :=
  { l with slots := l.slots.insert e s', counts := (l.counts.adjust s (-1)).adjust s' 1 }

variable (fixed : List (Endpoint α))

def newInboundSlot (l : Logic α κ) (e : Endpoint α) : Logic α κ :=
  if e.1 ∈ l.connectedAddresses then l
  else l.addSlot e { inbound := true, fixed := fixed.any (·.1 = e.1), state := .accept }

def newOutboundSlot (l : Logic α κ) (e : Endpoint α) : Logic α κ :=
  if e ∈ l.slots then l
  else l.addSlot e { inbound := false, fixed := e ∈ fixed, state := .connect }

/-- Nothing changes if this server is at the other end. -/
def onConnected (l : Logic α κ) (e : Endpoint α) (s : Slot κ) (localEndpoint : Endpoint α) :
    Logic α κ :=
  if localEndpoint ∈ l.slots then l else l.setSlot e s { s with state := .connected }

def activate (l : Logic α κ) (e : Endpoint α) (s : Slot κ) (key : κ) (cluster : Bool) :
    Logic α κ :=
  if key ∈ l.keys then l
  else if !l.counts.canActivate s then l
  else
    let known := { s with publicKey := some key, cluster := cluster }
    let l := { l.setSlot e s known with keys := insert key l.keys }
    l.setSlot e known { known with state := .active }

def onClosed (l : Logic α κ) (e : Endpoint α) (s : Slot κ) : Logic α κ where
  slots := l.slots.erase e
  keys := s.publicKey.elim l.keys l.keys.erase
  connectedAddresses := l.connectedAddresses.erase e.1
  counts := l.counts.adjust s (-1)

inductive Calls (l : Logic α κ) : Logic α κ → Prop where
  | newInboundSlot (e : Endpoint α) : Calls l (l.newInboundSlot fixed e)
  | newOutboundSlot (e : Endpoint α) : Calls l (l.newOutboundSlot fixed e)
  | onConnected (e localEndpoint : Endpoint α) {s : Slot κ}
      (hsl : l.slots.lookup e = some s) (hst : s.state = .connect) :
      Calls l (l.onConnected e s localEndpoint)
  | activate (e : Endpoint α) (key : κ) (cluster : Bool) {s : Slot κ}
      (hsl : l.slots.lookup e = some s) (hst : s.state = .accept ∨ s.state = .connected) :
      Calls l (l.activate e s key cluster)
  | onClosed (e : Endpoint α) {s : Slot κ} (hsl : l.slots.lookup e = some s) :
      Calls l (l.onClosed e s)

structure Agree (counts : Counts) (connectedAddresses : Multiset α) (keys : Finset κ)
    (slots : Multiset (Σ _ : Endpoint α, Slot κ)) : Prop where
  counts : ∀ counter, counts.count counter = slots.countP fun entry => entry.2.counted counter
  connectedAddresses : connectedAddresses = slots.map fun entry => entry.1.1
  keys : keys.val = (slots.map Sigma.snd).filterMap Slot.publicKey
  activated : ∀ entry ∈ slots, entry.2.Activated

structure Consistent (inMax outMax : ℕ) (l : Logic α κ) : Prop where
  agree : Agree l.counts l.connectedAddresses l.keys l.slots.entries
  maxima : l.counts.inMax = inMax ∧ l.counts.outMax = outMax
  limits : l.counts.count .inActive ≤ inMax ∧ l.counts.count .outActive ≤ outMax

variable {inMax outMax : ℕ} {c : Counts} {addresses : Multiset α} {keys : Finset κ}
  {e : Endpoint α} {s : Slot κ} {rest : Multiset (Σ _ : Endpoint α, Slot κ)} {l l' : Logic α κ}

theorem Agree.remove (h : Agree c addresses keys (⟨e, s⟩ ::ₘ rest)) :
    Agree (c.adjust s (-1)) (addresses.erase e.1) (s.publicKey.elim keys keys.erase) rest where
  counts counter := by
    simp only [Counts.adjust, h.counts, countP_cons]
    grind
  connectedAddresses := by rw [h.connectedAddresses, map_cons, erase_cons_head]
  keys := by
    have hk := h.keys
    rw [map_cons] at hk
    cases hke : s.publicKey with
    | none => rwa [filterMap_cons_none _ _ hke] at hk
    | some key =>
      rw [filterMap_cons_some _ _ _ hke] at hk
      rw [elim_some, Finset.erase_val, hk, erase_cons_head]
  activated entry he := h.activated entry (mem_cons_of_mem he)

omit [DecidableEq α] in
theorem Agree.add (h : Agree c addresses keys rest) (hke : ∀ key ∈ s.publicKey, key ∉ keys)
    (ha : s.Activated) : Agree (c.adjust s 1) (e.1 ::ₘ addresses)
      (s.publicKey.elim keys (insert · keys)) (⟨e, s⟩ ::ₘ rest) where
  counts counter := by
    simp only [Counts.adjust, h.counts, countP_cons]
    grind
  connectedAddresses := by rw [h.connectedAddresses, map_cons]
  keys := by
    rw [map_cons]
    cases hs : s.publicKey with
    | none => rw [filterMap_cons_none _ _ hs, elim_none, h.keys]
    | some key =>
      rw [filterMap_cons_some _ _ _ hs, elim_some, Finset.insert_val_of_notMem (hke key hs), h.keys]
  activated := forall_mem_cons.mpr ⟨ha, h.activated⟩

omit [DecidableEq κ] in
theorem entries_of_lookup (h : l.slots.lookup e = some s) :
    (l.slots.entries : Multiset (Σ _ : Endpoint α, Slot κ)) =
      ⟨e, s⟩ ::ₘ (l.slots.erase e).entries := by
  have heq : l.slots.entries.Perm (l.slots.insert e s).entries := by
    refine List.lookup_ext l.slots.nodupKeys (l.slots.insert e s).nodupKeys fun e' s' => ?_
    change s' ∈ l.slots.lookup e' ↔ s' ∈ (l.slots.insert e s).lookup e'
    obtain rfl | hne := eq_or_ne e' e
    · rw [lookup_insert, h]
    · rw [lookup_insert_ne hne]
  exact coe_eq_coe.mpr heq

variable (h : l.Consistent inMax outMax)
include h

theorem Consistent.addSlot (hn : e ∉ l.slots) (hst : s.state ≠ .active)
    (hke : s.publicKey = none) (hc : s.cluster = false) :
    (l.addSlot e s).Consistent inMax outMax where
  agree := by
    have had := h.agree.add (e := e) (s := s) (by simp [hke])
      (by simp [Slot.Activated, hke, hc, hst])
    rw [hke] at had
    rw [Logic.addSlot, if_neg hn, entries_insert_of_notMem hn]
    exact had
  maxima := h.maxima
  limits := by simpa [Logic.addSlot, Counts.adjust, Slot.counted, hst] using h.limits

/-- A keyless slot changes, and takes a key if activated. -/
theorem Consistent.setSlot (t : Slot κ) (hsl : l.slots.lookup e = some s)
    (hi : s.state ≠ .active) (hke : ∀ key ∈ t.publicKey, key ∉ l.keys)
    (ha : t.Activated) (hk : t.publicKey.elim l.keys (insert · l.keys) = keys)
    (hl : (l.setSlot e s t).counts.count .inActive ≤ inMax ∧
      (l.setSlot e s t).counts.count .outActive ≤ outMax) :
    { l.setSlot e s t with keys := keys }.Consistent inMax outMax where
  agree := by
    have hsp := h.agree
    rw [entries_of_lookup hsl] at hsp
    have hno : s.publicKey = none := by
      simpa [hi] using (hsp.activated _ (mem_cons_self _ _)).1
    have har : e.1 ::ₘ l.connectedAddresses.erase e.1 = l.connectedAddresses :=
      cons_erase (by simp [hsp.connectedAddresses])
    have hr := hsp.remove
    rw [hno, elim_none] at hr
    have had := hr.add (e := e) hke ha
    rw [har, hk] at had
    exact had
  maxima := h.maxima
  limits := hl

theorem Consistent.call (hcl : Calls fixed l l') : l'.Consistent inMax outMax := by
  have hl := h.limits
  have ha : ∀ {e s}, l.slots.lookup e = some s → s.Activated :=
    fun hsl => h.agree.activated ⟨_, _⟩ (mem_lookup_iff.mp hsl)
  cases hcl with
  | newInboundSlot e =>
    unfold Logic.newInboundSlot
    split_ifs with hco
    · exact h
    refine h.addSlot (fun hm => hco ?_) nofun rfl rfl
    obtain ⟨s, hsl⟩ := isSome_iff_exists.mp (lookup_isSome.mpr hm)
    rw [h.agree.connectedAddresses, entries_of_lookup hsl, map_cons]
    exact mem_cons_self _ _
  | newOutboundSlot e =>
    unfold Logic.newOutboundSlot
    split_ifs with hco
    · exact h
    · exact h.addSlot hco nofun rfl rfl
  | @onConnected e localEndpoint s hsl hst =>
    have hs := ha hsl
    have hno : s.publicKey = none := by simpa [hst] using hs.1
    unfold Logic.onConnected
    split_ifs
    · exact h
    · exact h.setSlot _ hsl (by simp [hst]) (by simp [hno])
        (by simpa [Slot.Activated, hst] using hs) (by simp [hno])
        (by simpa [Logic.setSlot, Counts.adjust, Slot.counted, hst] using hl)
  | @activate e key cluster s hsl hst =>
    have hi : s.state ≠ .active := by rcases hst with hst | hst <;> simp [hst]
    have hc : s.cluster = false := by simpa [hi] using (ha hsl).2
    have hma := h.maxima
    unfold Logic.activate
    split_ifs with hd hf
    · exact h
    · exact h
    · have hse := h.setSlot { s with publicKey := some key, cluster, state := .active } hsl hi
        (by rintro _ ⟨⟩; exact hd) (by simp [Slot.Activated]) rfl (by
          simp only [Logic.setSlot, Counts.adjust, Slot.counted, hi]
          grind [Counts.canActivate])
      dsimp only [Logic.setSlot] at hse ⊢
      rwa [Counts.adjust_adjust, insert_insert]
  | @onClosed e s hsl =>
    refine ⟨?_, h.maxima, ?_⟩
    · have hsp := h.agree
      rw [entries_of_lookup hsl] at hsp
      exact hsp.remove
    · simp only [Logic.onClosed, Counts.adjust]
      grind

omit h

inductive Result where
  | duplicate
  | full
  | success

/-- What `activate` returns; the check is made before the slot is marked as of the cluster. -/
def activateResult (l : Logic α κ) (s : Slot κ) (key : κ) (_cluster : Bool) : Result :=
  if key ∈ l.keys then .duplicate
  else if !l.counts.canActivate s then .full
  else .success

/-- Only a peer that is neither fixed nor of the cluster is turned away. -/
def Exempts (l : Logic α κ) (s : Slot κ) (key : κ) (cluster : Bool) : Prop :=
  l.activateResult s key cluster = .full → s.fixed = false ∧ cluster = false

/-- An inbound peer comes to a server with room for `inMax`. -/
def oneComer (inMax : ℕ) : Logic ℕ ℕ := (init inMax 0).newInboundSlot [] (1, 7)

def comer : Slot ℕ := { inbound := true, fixed := false, state := .accept }

theorem oneComer_turned_away : Relation.ReflTransGen (Calls []) (init 0 0) (oneComer 0) ∧
      (oneComer 0).slots.lookup (1, 7) = some comer ∧
      (oneComer 0).activateResult comer 5 true = .full ∧ ¬ (oneComer 0).Exempts comer 5 true :=
  ⟨.single (.newInboundSlot (1, 7)), rfl, rfl, fun h => nomatch (h rfl).2⟩

end Logic

end Sand.PeerFinder
