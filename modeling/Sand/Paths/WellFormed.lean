import Sand.Paths.PathSet

/-!
# Expanded paths

What the passes over an expanded path rely on.
-/

namespace Sand

open List Option RippleCalc Bool

namespace PathState

/-- Neighbours have a line; before a book stands the issuer it takes. -/
structure Adjacent (v : View) (a b : Node) : Prop where
  line : a.isAccount → b.isAccount →
    a.issue.currency = b.issue.currency ∧ isXRP a.issue.currency = false ∧
      (v.get (.rippleState a.account b.account a.issue.currency)).isSome
  input : a.isAccount → b.isAccount = false → isXRP a.issue.currency = false →
    a.account = a.issue.account

variable (a b : Node)

/-- An account after a book issues what the book gives. -/
def FromBook : Prop :=
  a.isAccount = false → b.isAccount → isXRP a.issue.currency = false → b.account = a.issue.account

structure WellFormed (v : View) (sender receiver : AccountID) (nodes : List Node) : Prop where
  first : ∃ node ∈ nodes.head?, node.isAccount ∧ node.account = sender
  last : ∃ node ∈ nodes.getLast?, node.isAccount ∧ node.account = receiver
  distinct : nodes.Pairwise fun a b => ¬ (a.account = b.account ∧ a.issue.same b.issue)
  adjacent : nodes.IsChain (Adjacent v)
  fromBook : nodes.dropLast.IsChain FromBook

variable {v : View} {d : Nat} {nodes nodes' gap : List Node} {back node : Node} {iType : BitVec 8}
  {account issuer : AccountID} {currency : Currency} {lms : List Node}

/-! ## What one element implies -/

theorem isAccount_baseNode : (baseNode back iType account currency issuer).isAccount =
    (iType &&& typeAccount != 0) := by
  unfold baseNode
  dsimp only
  split <;> rfl

theorem isAccount_accountType {c : Currency} :
    (baseNode back (accountType c) account currency issuer).isAccount := by
  rw [isAccount_baseNode, accountType]
  split <;> rfl

theorem account_baseNode (h : (baseNode back iType account currency issuer).isAccount) :
    (baseNode back iType account currency issuer).account = account := by
  rw [isAccount_baseNode] at h
  rw [baseNode, if_pos h]

theorem line_of_checkHop (h : checkHop v back account currency = .ok .tesSUCCESS) :
    (v.get (.rippleState back.account account back.issue.currency)).isSome := by
  unfold checkHop at h
  cases hli : v.get (.rippleState back.account account back.issue.currency) with
  | none =>
    rw [hli] at h
    cases h
  | some state => rfl

theorem exists_of_bind {α β : Type} {x : Except Fault α} {f : α → Except Fault β} {b : β}
    (h : x >>= f = .ok b) : ∃ a, x = .ok a ∧ f a = .ok b := by
  cases x with
  | error fault => cases h
  | ok a => exact ⟨a, rfl, h⟩

theorem eq_of_pushed {res : TER} {implied : List Node}
    (h : (.ok (res, if res = .tesSUCCESS then implied ++ [node] else implied) :
      Except Fault (TER × List Node)) = .ok (.tesSUCCESS, nodes')) :
    res = .tesSUCCESS ∧ nodes' = implied ++ [node] := by
  obtain ⟨rfl, rfl⟩ := Prod.mk.inj (Except.ok.inj h)
  exact ⟨rfl, if_pos rfl⟩

theorem pushNode_account (hns : nodes ≠ [])
    (hnd : node = baseNode (nodes.getLast?.getD {}) iType account currency issuer)
    (ha : node.isAccount)
    (h : pushNode v d nodes iType account currency issuer = .ok (.tesSUCCESS, nodes')) :
    badElement node iType issuer = false ∧ account ≠ 0 ∧ ∃ d' implied,
      pushImpliedNodes v d' nodes account node.issue.currency
        (if isXRP node.issue.currency then xrpAccount else account) = .ok (.tesSUCCESS, implied) ∧
      nodes' = implied ++ [node] ∧ ∀ back ∈ implied.getLast?, back.isAccount →
        (v.get (.rippleState back.account account back.issue.currency)).isSome := by
  cases d with
  | zero => cases h
  | succ d =>
    rw [pushNode, ← hnd] at h
    cases hba : badElement node iType issuer with
    | true =>
      rw [hba] at h
      cases h
    | false =>
      by_cases h0 : account = 0
      · simp [hba, ha, hns, h0, pure, Except.pure, bind, Except.bind] at h
      simp only [hba, ha, isEmpty_eq_false_iff.mpr hns, h0, false_eq_true, if_false, if_true] at h
      obtain ⟨⟨result, implied⟩, hi, h⟩ := exists_of_bind h
      obtain rfl | hre := eq_or_ne result .tesSUCCESS
      · refine ⟨rfl, h0, d, implied, hi, ?_⟩
        cases hl : implied.getLast? with
        | none =>
          simp only [hl] at h
          exact ⟨(eq_of_pushed h).2, by simp⟩
        | some back =>
          cases hbk : back.isAccount with
          | false =>
            simp only [hl, hbk, false_eq_true, if_false] at h
            exact ⟨(eq_of_pushed h).2, by simp [hbk]⟩
          | true =>
            simp only [hl, hbk, if_true] at h
            obtain ⟨ter, hho, h⟩ := exists_of_bind h
            obtain ⟨rfl, hns'⟩ := eq_of_pushed h
            exact ⟨hns', by simpa using fun _ => line_of_checkHop hho⟩
      · rw [if_pos hre] at h
        cases h
        exact absurd rfl hre

theorem pushNode_book (hnd : node = baseNode (nodes.getLast?.getD {}) iType account currency issuer)
    (ha : node.isAccount = false)
    (h : pushNode v d nodes iType account currency issuer = .ok (.tesSUCCESS, nodes')) :
    node.issue.isConsistent ∧ ∃ d' implied,
      pushImpliedNodes v d' nodes xrpAccount (nodes.getLast?.getD {}).issue.currency
        (nodes.getLast?.getD {}).issue.account = .ok (.tesSUCCESS, implied) ∧
      nodes' = implied ++ [node] := by
  cases d with
  | zero => cases h
  | succ d =>
    rw [pushNode, ← hnd] at h
    simp only [ha, false_eq_true, if_false] at h
    split_ifs at h with hba hco heq
    · cases h
    · cases h
    · cases h
    · obtain ⟨⟨result, implied⟩, hi, h⟩ := exists_of_bind h
      obtain ⟨rfl, hns'⟩ := eq_of_pushed h
      exact ⟨by simpa using hco, d, implied, hi, hns'⟩

theorem pushImplied_account (hbk : nodes.getLast? = some back)
    (h : pushImpliedNodes v d nodes account currency
      (if isXRP currency then xrpAccount else account) = .ok (.tesSUCCESS, nodes')) :
    (back.issue.currency = currency ∧ nodes' = nodes) ∨
      (back.issue.currency ≠ currency ∧ ∃ d', pushNode v d' nodes
        (if isXRP currency then typeCurrency else typeCurrency ||| typeIssuer) xrpAccount currency
        (if isXRP currency then xrpAccount else account) = .ok (.tesSUCCESS, nodes')) := by
  cases d with
  | zero => cases h
  | succ d =>
    -- the account is the issuer, which is not pushed before itself
    have hno : ∀ (result : TER) (last : Node), ¬ (result = .tesSUCCESS ∧ !isXRP currency ∧
        last.account ≠ (if isXRP currency then xrpAccount else account) ∧
        account ≠ if isXRP currency then xrpAccount else account) := by
      rintro result last ⟨-, hc, -, hir⟩
      rw [if_neg (by simpa using hc)] at hir
      exact hir rfl
    rw [pushImpliedNodes] at h
    simp only [hbk, getD_some, hno, if_false] at h
    by_cases heq : back.issue.currency = currency
    · rw [if_pos heq] at h
      cases h
      exact .inl ⟨heq, rfl⟩
    · rw [if_neg heq] at h
      obtain ⟨⟨result, implied⟩, hpu, h⟩ := exists_of_bind h
      cases h
      exact .inr ⟨heq, d, hpu⟩

/-- Before a book: the issuer it takes, unless there. -/
def Joined (v : View) (back : Node) (gap : List Node) : Prop :=
  (gap = [] ∧ (isXRP back.issue.currency = false → back.account = back.issue.account)) ∨
    isXRP back.issue.currency = false ∧ (back.isAccount →
        (v.get (.rippleState back.account back.issue.account back.issue.currency)).isSome) ∧
      ∃ issuer : Node, gap = [issuer] ∧ issuer.isAccount ∧
        issuer.account = back.issue.account ∧ issuer.issue = back.issue

def Issued (node : Node) : Prop :=
  isXRP node.issue.currency = false → node.issue.account ≠ 0

theorem pushImplied_book (hbk : nodes.getLast? = some back) (hiss : Issued back)
    (h : pushImpliedNodes v d nodes xrpAccount back.issue.currency back.issue.account =
      .ok (.tesSUCCESS, nodes')) : ∃ gap, nodes' = nodes ++ gap ∧ Joined v back gap := by
  cases d with
  | zero => cases h
  | succ d =>
    rw [pushImpliedNodes] at h
    simp only [hbk, getD_some, if_true, pure, Except.pure, bind, Except.bind] at h
    split_ifs at h with hnee
    · obtain ⟨-, hc, ho, -⟩ := hnee
      have hc : isXRP back.issue.currency = false := by simpa using hc
      have hne : nodes ≠ [] := by
        rintro rfl
        cases hbk
      have hnd : baseNode back typeAll back.issue.account back.issue.currency
          back.issue.account = baseNode (nodes.getLast?.getD {}) typeAll back.issue.account
            back.issue.currency back.issue.account := by
        rw [hbk, getD_some]
      obtain ⟨-, -, d', implied, hi, rfl, hli⟩ :=
        pushNode_account hne hnd (isAccount_baseNode.trans rfl) h
      rcases pushImplied_account hbk hi with ⟨-, rfl⟩ | ⟨ho', -⟩
      · exact ⟨_, rfl, .inr ⟨hc, hli back hbk, _, rfl, isAccount_baseNode.trans rfl, rfl, rfl⟩⟩
      · exact absurd rfl ho'
    · cases h
      refine ⟨[], (append_nil _).symm, .inl ⟨rfl, fun hc => ?_⟩⟩
      by_contra ho
      exact hnee ⟨trivial, by simp [hc], ho, (hiss hc).symm⟩

/-! ## One element after another -/

/-- Not both accounts of the native currency. -/
def Apart : Prop :=
  a.isAccount → b.isAccount → isXRP a.issue.currency → isXRP b.issue.currency = false

def IssuedBy : Prop :=
  a.isAccount = false → b.isAccount → a.issue.currency = b.issue.currency →
    isXRP a.issue.currency = false → b.account = a.issue.account

instance (a b : Node) : Decidable (Apart a b) :=
  inferInstanceAs (Decidable (_ → _))

instance (a b : Node) : Decidable (IssuedBy a b) :=
  inferInstanceAs (Decidable (_ → _))

/-- Pushed after another, with implied nodes between. -/
structure Pushed (v : View) (back node : Node) (gap : List Node) : Prop where
  issued : Issued node
  fromGap : (back :: gap).IsChain FromBook
  adjacent : (back :: gap ++ [node]).IsChain (Adjacent v) ↔ Apart back node
  fromBook : (back :: gap ++ [node]).IsChain FromBook ↔ IssuedBy back node

theorem adjacent_of_book (hbk : back.isAccount = false) : Adjacent v back node where
  line h := by
    rw [hbk] at h
    cases h
  input h := by
    rw [hbk] at h
    cases h

theorem Joined.chains (h : Joined v back gap) {book : Node} (hb : book.isAccount = false) :
    (back :: gap).IsChain FromBook ∧ (back :: gap ++ [book]).IsChain FromBook ∧
      (back :: gap ++ [book]).IsChain (Adjacent v) := by
  have hto : ∀ a : Node, FromBook a book := by
    intro a _ ha
    rw [hb] at ha
    cases ha
  rcases h with ⟨rfl, hin⟩ | ⟨hc, hli, issuer, rfl, hir, ha, his⟩
  · have had : Adjacent v back book := by
      refine ⟨fun _ h => ?_, fun _ _ => hin⟩
      rw [hb] at h
      cases h
    simp [hto, had]
  · have hfs : Adjacent v back issuer := by
      refine ⟨fun hbk _ => ⟨by rw [his], hc, ?_⟩, fun _ h => ?_⟩
      · rw [ha]
        exact hli hbk
      · rw [hir] at h
        cases h
    have hsc : Adjacent v issuer book := by
      refine ⟨fun _ h => ?_, fun _ _ _ => by rw [ha, his]⟩
      rw [hb] at h
      cases h
    have hfr : FromBook back issuer := fun _ _ _ => ha
    simp [hto, hfs, hsc, hfr]

theorem issued_of_consistent (h : node.issue.isConsistent) : Issued node := by
  intro hc h0
  rw [Issue.isConsistent, hc, h0] at h
  cases h

theorem issued_of_account (ha : (baseNode back iType account currency issuer).isAccount)
    (hg : badElement (baseNode back iType account currency issuer) iType issuer = false)
    (hir : (iType &&& typeIssuer != 0) = false → account ≠ 0) :
    Issued (baseNode back iType account currency issuer) := by
  intro hc
  simp only [badElement, or_eq_false_iff] at hg
  rw [isAccount_baseNode] at ha
  unfold baseNode at hc ⊢
  simp only [ha, if_true] at hc ⊢
  cases hh : (iType &&& typeIssuer != 0) with
  | true =>
    rw [hh] at hg
    simpa using hg.1.2
  | false =>
    simp only [false_eq_true, if_false, hc]
    exact hir hh

theorem impliedBook (back : Node) (acc : AccountID) (cur : Currency) :
    let book := baseNode back
      (if isXRP cur then typeCurrency else typeCurrency ||| typeIssuer) xrpAccount cur
      (if isXRP cur then xrpAccount else acc)
    book.isAccount = false ∧ book.issue.currency = cur ∧
      (isXRP cur = false → book.issue.account = acc) := by
  cases hc : isXRP cur with
  | true => exact ⟨isAccount_baseNode.trans rfl, rfl, nofun⟩
  | false => exact ⟨isAccount_baseNode.trans rfl, rfl, fun _ => rfl⟩

theorem pushNode_pushed (hbk : nodes.getLast? = some back) (hiss : Issued back)
    (h : pushNode v d nodes iType account currency issuer = .ok (.tesSUCCESS, nodes')) :
    ∃ gap, nodes' = nodes ++ gap ++ [baseNode back iType account currency issuer] ∧
      Pushed v back (baseNode back iType account currency issuer) gap := by
  have hne : nodes ≠ [] := by
    rintro rfl
    cases hbk
  generalize hnd : baseNode back iType account currency issuer = node
  have hnd' : node = baseNode (nodes.getLast?.getD {}) iType account currency issuer := by
    rw [hbk, getD_some, hnd]
  cases ha : node.isAccount with
  | false =>
    obtain ⟨hco, d', implied, hi, rfl⟩ := pushNode_book hnd' ha h
    rw [hbk, getD_some] at hi
    obtain ⟨gap, rfl, hj⟩ := pushImplied_book hbk hiss hi
    obtain ⟨hfromGap, hfr, had⟩ := hj.chains ha
    refine ⟨gap, rfl, issued_of_consistent hco, hfromGap, ?_, ?_⟩
    · exact iff_of_true had (by simp [Apart, ha])
    · exact iff_of_true hfr (by simp [IssuedBy, ha])
  | true =>
    obtain ⟨hg, h0, d', implied, hi, rfl, hli⟩ := pushNode_account hne hnd' ha h
    have hse : node.account = account := by
      rw [← hnd] at ha ⊢
      exact account_baseNode ha
    have hissuedNode : Issued node := by
      rw [← hnd] at ha hg ⊢
      exact issued_of_account ha hg fun _ => h0
    rcases pushImplied_account hbk hi with ⟨heq, rfl⟩ | ⟨ho, d'', hb⟩
    · refine ⟨[], by simp, hissuedNode, isChain_singleton _, ?_, ?_⟩
      · rw [cons_append, nil_append, isChain_pair]
        constructor
        · intro had hbackAccount _ hna
          rw [(had.line hbackAccount ha).2.1] at hna
          cases hna
        · intro hap
          refine ⟨fun hbackAccount _ => ⟨heq, ?_, ?_⟩, fun _ h => ?_⟩
          · by_contra hna
            have hnt := hap hbackAccount ha (by simpa using hna)
            rw [← heq] at hnt
            exact hna hnt
          · rw [hse]
            exact hli back hbk hbackAccount
          · rw [ha] at h
            cases h
      · simp [FromBook, IssuedBy, heq]
    · have hbookNode := impliedBook back account node.issue.currency
      generalize hn : baseNode back
        (if isXRP node.issue.currency then typeCurrency else typeCurrency ||| typeIssuer) xrpAccount
        node.issue.currency (if isXRP node.issue.currency then xrpAccount else account) = book
        at hbookNode
      obtain ⟨hisBook, hc, hir⟩ := hbookNode
      obtain ⟨hco, d3, implied', hi', rfl⟩ := pushNode_book (by rw [hbk, getD_some, hn]) hisBook hb
      rw [hbk, getD_some] at hi'
      obtain ⟨gap, rfl, hj⟩ := pushImplied_book hbk hiss hi'
      obtain ⟨hfromGap, hfr, had⟩ := hj.chains hisBook
      have hl : (back :: gap ++ [book]).getLast? = some book := List.getLast?_concat
      refine ⟨gap ++ [book], by simp, hissuedNode, ?_, ?_, ?_⟩
      · rwa [← cons_append]
      · refine iff_of_true ?_ ?_
        · rw [← cons_append, isChain_append, hl]
          refine ⟨had, isChain_singleton _, ?_⟩
          rintro _ ⟨⟩ _ ⟨⟩
          exact adjacent_of_book hisBook
        · intro _ _ hna
          by_contra hnt
          simp only [isXRP, beq_iff_eq, not_eq_false] at hna hnt
          exact ho (hna.trans hnt.symm)
      · refine iff_of_true ?_ fun _ _ heq => absurd heq ho
        rw [← cons_append, isChain_append, hl]
        refine ⟨hfr, isChain_singleton _, ?_⟩
        rintro _ ⟨⟩ _ ⟨⟩ _ _ hbookCurrency
        rw [hc] at hbookCurrency
        rw [hse, hir hbookCurrency]

/-! ## All elements -/

/-- The nodes, and those pushed for themselves. -/
structure Expanded (v : View) (landmarks nodes : List Node) : Prop where
  nonempty : nodes ≠ []
  last : nodes.getLast? = landmarks.getLast?
  issued : ∀ back ∈ nodes.getLast?, Issued back
  head : nodes.head? = landmarks.head?
  adjacent : nodes.IsChain (Adjacent v) ↔ landmarks.IsChain Apart
  fromBook : nodes.IsChain FromBook ↔ landmarks.IsChain IssuedBy
  fromBook' : nodes.dropLast.IsChain FromBook ↔ landmarks.dropLast.IsChain IssuedBy

theorem isChain_concat {R : Node → Node → Prop} {a b : Node} {l : List Node} :
    (l ++ [a] ++ [b]).IsChain R ↔ (l ++ [a]).IsChain R ∧ R a b := by
  simp

theorem Expanded.push (h : Expanded v lms nodes)
    (hbk : nodes.getLast? = some back) (hp : Pushed v back node gap) :
    Expanded v (lms ++ [node]) (nodes ++ gap ++ [node]) := by
  obtain ⟨before, rfl⟩ : ∃ before, nodes = before ++ [back] := (List.getLast?_eq_some_iff.mp hbk)
  obtain ⟨earlier, rfl⟩ : ∃ earlier, lms = earlier ++ [back] :=
    (List.getLast?_eq_some_iff.mp (h.last.symm.trans hbk))
  have hsp : ∀ {R : Node → Node → Prop} {rest : List Node}, (before ++ [back] ++ rest).IsChain R ↔
        (before ++ [back]).IsChain R ∧ (back :: rest).IsChain R := by
    intro R rest
    rw [append_assoc, singleton_append, isChain_split]
  constructor
  · simp
  · rw [List.getLast?_concat, List.getLast?_concat]
  · intro back' hm
    rw [List.getLast?_concat] at hm
    cases hm
    exact hp.issued
  · have hhe := h.head
    cases before <;> cases earlier <;> simp_all
  · rw [append_assoc, hsp, ← cons_append, hp.adjacent, h.adjacent, isChain_concat]
  · rw [append_assoc, hsp, ← cons_append, hp.fromBook, h.fromBook, isChain_concat]
  · rw [dropLast_concat, dropLast_concat, hsp, h.fromBook]
    exact and_iff_left hp.fromGap

def landmark (landmarks : List Node) (iType : BitVec 8) (account : AccountID)
    (currency : Currency) (issuer : AccountID) : List Node :=
  landmarks ++ [baseNode (landmarks.getLast?.getD {}) iType account currency issuer]

/-- It goes well so far, with these nodes pushed. -/
def Reaches (v : View) (landmarks : List Node) (state : TER × List Node) : Prop :=
  state.1 = .tesSUCCESS → Expanded v landmarks state.2

variable {state state' : TER × List Node}

theorem Reaches.pushNext (h : Reaches v lms state)
    (hr : PathState.pushNext v state iType account currency issuer = .ok state') :
    Reaches v (landmark lms iType account currency issuer) state' := by
  intro hsu
  obtain ⟨ter, nodes⟩ := state
  obtain ⟨ter', nodes'⟩ := state'
  obtain rfl : ter' = .tesSUCCESS := hsu
  unfold PathState.pushNext at hr
  split_ifs at hr with ht
  · have he := h ht
    obtain ⟨back, hbk⟩ : ∃ back, nodes.getLast? = some back :=
      isSome_iff_exists.mp (by simpa using he.nonempty)
    obtain ⟨gap, rfl, hp⟩ := pushNode_pushed hbk (he.issued back hbk) hr
    have hl : lms.getLast?.getD {} = back := by
      rw [← he.last, hbk, getD_some]
    rw [landmark, hl]
    exact he.push hbk hp
  · cases hr
    exact absurd rfl ht

theorem Reaches.ite {c : Bool} (h : Reaches v lms state)
    (hr : (if c then PathState.pushNext v state iType account currency issuer
      else pure state) = .ok state') :
    Reaches v (if c then landmark lms iType account currency issuer else lms) state' := by
  cases c with
  | true => exact h.pushNext hr
  | false =>
    cases hr
    exact h

theorem reaches_first {status : TER} {snr si : AccountID}
    (hr : pushNext v (status, []) (accountType currency) snr currency si = .ok state) :
    Reaches v (landmark [] (accountType currency) snr currency si) state := by
  intro hsu
  obtain ⟨ter, nodes⟩ := state
  obtain rfl : ter = .tesSUCCESS := hsu
  unfold pushNext at hr
  split_ifs at hr with hs
  · generalize hnd : baseNode {} (accountType currency) snr currency si = node
    have ha : node.isAccount := by
      rw [← hnd]
      exact isAccount_accountType
    rw [pushNode] at hr
    simp only [List.getLast?_nil, getD_none, hnd, ha] at hr
    cases hg : badElement node (accountType currency) si with
    | true =>
      rw [hg] at hr
      cases hr
    | false =>
    rw [hg] at hr
    obtain ⟨-, hns⟩ := eq_of_pushed hr
    have hiss : Issued node := by
      cases hc : isXRP currency with
      | true =>
        intro hna
        rw [← hnd, accountType, hc] at hna
        exact absurd (hc.symm.trans hna) nofun
      | false =>
        rw [← hnd] at ha hg ⊢
        refine issued_of_account ha hg fun hno => ?_
        rw [accountType, hc] at hno
        cases hno
    have hla : landmark [] (accountType currency) snr currency si = [node] := by
      rw [landmark, List.getLast?_nil, getD_none, hnd, nil_append]
    rw [hla, hns, nil_append]
    exact ⟨by simp, rfl, by simpa using hiss, rfl, by simp, by simp, by simp⟩
  · cases hr
    exact absurd rfl hs

theorem reaches_foldlM (h : Reaches v lms state) (sc : List STPathElement)
    (hr : sc.foldlM (fun state element => pushNext v state element.nodeType element.account
      element.currency element.issuer) state = .ok state') :
    Reaches v (sc.foldl (fun lms element => landmark lms element.nodeType
      element.account element.currency element.issuer) lms) state' := by
  induction sc generalizing lms state with
  | nil =>
    cases hr
    exact h
  | cons element sc ih =>
    rw [foldlM_cons] at hr
    rcases hpu : pushNext v state element.nodeType element.account element.currency
        element.issuer with fault | state1
    · rw [hpu] at hr
      cases hr
    · rw [hpu] at hr
      exact ih (h.pushNext hpu) hr

def landmarks (path : PathState) (source : List STPathElement) (receiver sender : AccountID) :
    List Node :=
  let maxCurrency := path.inReq.getCurrency
  let maxIssuer := path.inReq.getIssuer
  let outCurrency := path.outReq.getCurrency
  let outIssuer := path.outReq.getIssuer
  let nodes := landmark [] (accountType maxCurrency) sender maxCurrency
    (if isXRP maxCurrency then xrpAccount else sender)
  let nodes := if senderImplied path source receiver sender then
    landmark nodes (accountType maxCurrency) maxIssuer maxCurrency maxIssuer else nodes
  let nodes := source.foldl (fun nodes element =>
    landmark nodes element.nodeType element.account element.currency element.issuer) nodes
  let back := nodes.getLast?.getD {}
  let nodes := if !isXRP outCurrency && outIssuer != receiver &&
      (back.issue.currency != outCurrency || back.account != outIssuer) then
    landmark nodes (accountType outCurrency) outIssuer outCurrency outIssuer else nodes
  landmark nodes (accountType outCurrency) receiver outCurrency receiver

theorem head_landmark {first : Node} (h : lms.head? = some first) :
    (landmark lms iType account currency issuer).head? = some first := by
  rw [landmark, List.head?_append, h]
  rfl

theorem head_landmarks (path : PathState) (sc : List STPathElement) (rcv snr : AccountID) :
    (landmarks path sc rcv snr).head? =
      some (baseNode {} (accountType path.inReq.getCurrency) snr path.inReq.getCurrency
        (if isXRP path.inReq.getCurrency then xrpAccount else snr)) := by
  have hit : ∀ {c : Bool} {landmarks : List Node} {first : Node} {iType : BitVec 8}
      {account issuer : AccountID} {currency : Currency}, landmarks.head? = some first →
      (if c then landmark landmarks iType account currency issuer else landmarks).head? =
        some first := by
    intro c landmarks first iType account issuer currency h
    cases c
    · exact h
    · exact head_landmark h
  refine head_landmark (hit ?_)
  exact List.foldlRecOn (motive := fun nodes : List Node => nodes.head? = some _) _ _ (hit rfl)
    fun _ h _ _ => head_landmark h

theorem distinct_of_loopCheck {idx : Nat} {forward forward' : AccountIssueToNodeIndex}
    (h : loopCheck nodes idx forward = some forward') :
    (nodes.Pairwise fun a b => ¬ (a.account = b.account ∧ a.issue.same b.issue)) ∧
      ∀ node ∈ nodes, ∀ entry ∈ forward,
        ¬ (entry.1.1 = node.account ∧ entry.1.2.same node.issue) := by
  induction nodes generalizing idx forward with
  | nil => exact ⟨List.Pairwise.nil, by simp⟩
  | cons first rest ih =>
    rw [loopCheck] at h
    split_ifs at h with hf
    have hnw : ∀ entry ∈ forward, ¬ (entry.1.1 = first.account ∧ entry.1.2.same first.issue) := by
      rintro ⟨⟨account, issue⟩, idx⟩ hm ⟨rfl, heq⟩
      simp only [AccountIssueToNodeIndex.find, isSome_map, List.find?_isSome] at hf
      exact hf ⟨_, hm, by simp [heq]⟩
    obtain ⟨hrs, hfw⟩ := ih h
    rw [AccountIssueToNodeIndex.insert, if_neg hf] at hfw
    refine ⟨pairwise_cons.mpr ⟨fun node hnd => ?_, hrs⟩, ?_⟩
    · exact hfw node hnd ((first.account, first.issue), idx) (by simp)
    intro node hnd entry hen
    rcases mem_cons.mp hnd with rfl | hnd
    · exact hnw entry hen
    · exact hfw node hnd entry (mem_append_left _ hen)

theorem exists_of_ite_bind {α β : Type} {c : Prop} [Decidable c] {x y : Except Fault α}
    {f : α → Except Fault β} {b : β} (h : (if c then x >>= f else y >>= f) = .ok b) :
    ∃ a, (if c then x else y) = .ok a ∧ f a = .ok b := by
  split_ifs at h ⊢ <;> exact exists_of_bind h

theorem success_of_pushNext (h : pushNext v state iType account currency issuer = .ok state')
    (hsu : state'.1 = .tesSUCCESS) : state.1 = .tesSUCCESS := by
  by_contra hfa
  rw [pushNext, if_neg hfa] at h
  cases h
  exact hfa hsu

theorem expanded_of_expandPath {path res : PathState} {sc : List STPathElement}
    {rcv snr : AccountID} (h : expandPath v path sc rcv snr = .ok res)
    (hs : res.status = .tesSUCCESS) :
    Expanded v (landmarks path sc rcv snr) res.nodes ∧
      ∃ forward, loopCheck res.nodes 0 [] = some forward := by
  obtain ⟨s1, h1, h⟩ := exists_of_bind h
  obtain ⟨s2, h2, h⟩ := exists_of_ite_bind h
  obtain ⟨s3, h3, h⟩ := exists_of_bind h
  obtain ⟨s4, h4, h⟩ := exists_of_ite_bind h
  obtain ⟨s5, h5, h⟩ := exists_of_bind h
  obtain ⟨hsu, hns, hlo⟩ : s5.1 = .tesSUCCESS ∧ res.nodes = s5.2 ∧
      ∃ forward, loopCheck s5.2 0 [] = some forward := by
    split_ifs at h with hfa
    · cases h
      exact absurd hs hfa
    cases hlo : loopCheck s5.2 0 [] with
    | none =>
      simp only [hlo] at h
      cases h
      cases hs
    | some forward =>
      simp only [hlo] at h
      cases h
      exact ⟨by simpa using hfa, rfl, forward, rfl⟩
  rw [hns]
  refine ⟨?_, hlo⟩
  have hsuccess4 := success_of_pushNext h5 hsu
  have hsuccess3 : s3.1 = .tesSUCCESS := by
    split_ifs at h4
    · exact success_of_pushNext h4 hsuccess4
    · cases h4
      exact hsuccess4
  have hreaches2 := (reaches_first h1).ite h2
  have hreaches3 := reaches_foldlM hreaches2 sc h3
  rw [(hreaches3 hsuccess3).last] at h4
  exact (hreaches3.ite h4).pushNext h5 hsu

/-- An expanded path is well formed exactly if, among the nodes pushed for themselves, no account
of the native currency follows another one and no account but the receiver and the issuer follows a
book in the currency that it gives. -/
theorem wellFormed_iff (v : View) (path result : PathState) (source : List STPathElement)
    (receiver sender : AccountID) (hr : expandPath v path source receiver sender = .ok result)
    (hs : result.status = .tesSUCCESS) :
    WellFormed v sender receiver result.nodes ↔
      (landmarks path source receiver sender).IsChain Apart ∧
        (landmarks path source receiver sender).dropLast.IsChain IssuedBy := by
  obtain ⟨he, forward, hlo⟩ := expanded_of_expandPath hr hs
  constructor
  · intro h
    exact ⟨he.adjacent.mp h.adjacent, he.fromBook'.mp h.fromBook⟩
  · rintro ⟨hap, hissuedBy⟩
    refine ⟨?_, ?_, (distinct_of_loopCheck hlo).1, he.adjacent.mpr hap, he.fromBook'.mpr hissuedBy⟩
    · refine ⟨_, he.head.trans (head_landmarks path source receiver sender), ?_, ?_⟩
      · exact isAccount_accountType
      · exact account_baseNode isAccount_accountType
    · refine ⟨_, he.last.trans List.getLast?_concat, ?_, ?_⟩
      · exact isAccount_accountType
      · exact account_baseNode isAccount_accountType

def bookPath (issuer : AccountID) : List STPathElement :=
  [⟨typeCurrency ||| typeIssuer, 0, 5, issuer⟩, ⟨typeAccount, 1, 0, 0⟩]

def bookState : PathState where
  inReq := .ofDrops 7
  outReq := dollars 2 4

/-- Dollars of account 1 itself. -/
theorem issuer_after_book_wellFormed : ∃ result,
    expandPath hopView bookState (bookPath 1) 2 3 = .ok result ∧
      result.status = .tesSUCCESS ∧ WellFormed hopView 3 2 result.nodes := by
  obtain ⟨result, hr, hs⟩ := exists_ok_of_toOption_map
    (show (expandPath hopView bookState (bookPath 1) 2 3).toOption.map
      PathState.status = some .tesSUCCESS by decide +kernel)
  exact ⟨result, hr, hs, (wellFormed_iff _ _ _ _ _ _ hr hs).mpr
    ⟨by decide +kernel, by decide +kernel⟩⟩

/-- Account 1 follows the book, without an issuer between. -/
theorem stranger_after_book : ∃ result, expandPath hopView bookState (bookPath 4) 2 3 = .ok result ∧
      result.status = .tesSUCCESS ∧ ¬ WellFormed hopView 3 2 result.nodes := by
  obtain ⟨result, hr, hs⟩ := exists_ok_of_toOption_map
    (show (expandPath hopView bookState (bookPath 4) 2 3).toOption.map
      PathState.status = some .tesSUCCESS by decide +kernel)
  refine ⟨result, hr, hs, fun h => ?_⟩
  have hissuedBy := (expanded_of_expandPath hr hs).1.fromBook'.mp h.fromBook
  revert hissuedBy
  decide +kernel

end PathState

end Sand
