import Armour.Lang.LabelOrder

/-! # Labels that no text describes

`prefix`, `concat` and `login_time` of `armour-lang/src/labels.rs` build nodes without the parser
of labels, and `get_login_time` reads a node that a login time does not have.
-/

namespace Armour.Lang

open Armour.Lib

namespace Label

/-- `is_login_time`. -/
def isLoginTime (l : Label) : Bool :=
  l.nodes.length = 3 && l.nodes[0]? = some (.str "ControlPlane")
    && l.nodes[1]? = some (.str "LoginTime")

/-- `get_login_time`: `self.0[3]` of a label of three nodes; `.error` is a panic. -/
def getLoginTime (l : Label) : Except String (Option Int64) :=
  if l.isLoginTime then
    match (l.nodes[3]? : Option Node) with
    | none => .error
        ("index out of bounds: the len is " ++ toString l.nodes.length ++ " but the index is 3")
    | some (Node.str s) =>
        match Text.parseI64 s with
        | some t => .ok (some t)
        | none => .error "called `Result::unwrap()` on an `Err` value"
    | some _ => .ok none
  else .ok none

/-- How a program or the control plane comes to a label. -/
inductive Construction where
  | parse (s : String)
  | addPrefix (c : Construction) (s : String)
  | concat (c d : Construction)
  | loginTime (t : Int64)

namespace Construction

/-- The label that is constructed, or the error of the parser. -/
def label : Construction → Except String Label
  | parse s => fromStr s
  | addPrefix c s => do
      let l ← c.label
      return l.addPrefix s
  | concat c d => do
      let l1 ← c.label
      let l2 ← d.label
      return l1.concat l2
  | loginTime t => .ok (Label.loginTime t)

/-- The texts put in front are nodes of the grammar, and no login time is negative. -/
def Sound : Construction → Prop
  | parse _ => True
  | addPrefix c s => (Node.str s).readable = true ∧ c.Sound
  | concat c d => c.Sound ∧ d.Sound
  | loginTime t => 0 ≤ t

end Construction

/-- The text of the label is read, as an equal label. -/
def RoundTrips (l : Label) : Prop := ∃ l', fromStr l.display = .ok l' ∧ (l' == l) = true

/-- `get_login_time` is the time of a login time, and nothing for any other label. -/
def ReadsLoginTime (l : Label) : Prop :=
  (∀ t, l = loginTime t → l.getLoginTime = .ok (some t)) ∧
    ((∀ t, l ≠ loginTime t) → l.getLoginTime = .ok none)

/-! ## Texts of numbers as nodes -/

theorem isStrTail_of_all : ∀ {cs : List Char}, (∀ c ∈ cs, c.isAlphanum = true) →
    Node.isStrTail cs = true
  | [], _ => rfl
  | [c], h => h c List.mem_cons_self
  | c :: d :: cs, h => by
      have hc : c.isAlphanum = true := h c List.mem_cons_self
      have htail : ∀ e ∈ d :: cs, e.isAlphanum = true :=
        fun e he => h e (List.mem_cons_of_mem _ he)
      show (if c.isAlphanum then Node.isStrTail (d :: cs) else _) = true
      rw [if_pos hc]
      exact isStrTail_of_all htail

theorem readable_toDigits (n : Nat) : (Node.str (Nat.repr n)).readable = true := by
  have hdigits : ∀ c ∈ Nat.toDigits 10 n, c.isAlphanum = true := by
    intro c hc
    have hdigit := Nat.isDigit_of_mem_toDigits (by decide) (by decide) hc
    simp [Char.isAlphanum, hdigit]
  have hlist : (Nat.repr n).toList = Nat.toDigits 10 n := String.toList_ofList
  cases hn : Nat.toDigits 10 n with
  | nil => exact absurd hn Nat.toDigits_ne_nil
  | cons c cs =>
      rw [hn] at hdigits
      have htail : ∀ d ∈ cs, d.isAlphanum = true :=
        fun d hd => hdigits d (List.mem_cons_of_mem _ hd)
      simp only [Node.readable, hlist, hn, hdigits c List.mem_cons_self, isStrTail_of_all htail,
        Bool.and_self]

/-- The text of an integer is a node of the grammar when it has no sign. -/
theorem readable_toString (t : Int64) :
    (Node.str (toString t.toInt)).readable = true ↔ 0 ≤ t := by
  rw [Int64.le_iff_toInt_le, Int64.toInt_zero]
  cases ht : t.toInt with
  | ofNat n =>
      have hread : (Node.str (toString (Int.ofNat n))).readable = true := readable_toDigits n
      exact iff_of_true hread (Int.natCast_nonneg n)
  | negSucc n =>
      have hminus : (toString (Int.negSucc n)).toList = '-' :: (Nat.repr (n + 1)).toList := by
        show ("-" ++ Nat.repr (n + 1)).toList = _
        rw [String.toList_append]
        rfl
      have hread : (Node.str (toString (Int.negSucc n))).readable = false := by
        simp only [Node.readable, hminus]
        rfl
      have hneg : Int.negSucc n < 0 := Int.negSucc_lt_zero n
      rw [hread]
      constructor
      · intro h
        cases h
      · intro h
        omega

/-! ## What a construction gives -/

namespace Construction

theorem label_addPrefix {c : Construction} {s : String} {l : Label}
    (h : (addPrefix c s).label = .ok l) : ∃ l₁, c.label = .ok l₁ ∧ l = l₁.addPrefix s := by
  cases hc : c.label with
  | error e =>
      rw [label, hc] at h
      cases h
  | ok l₁ =>
      rw [label, hc] at h
      cases h
      exact ⟨l₁, rfl, rfl⟩

theorem label_concat {c d : Construction} {l : Label} (h : (concat c d).label = .ok l) :
    ∃ l₁ l₂, c.label = .ok l₁ ∧ d.label = .ok l₂ ∧ l = l₁.concat l₂ := by
  cases hc : c.label with
  | error e =>
      rw [label, hc] at h
      cases h
  | ok l₁ =>
      cases hd : d.label with
      | error e =>
          rw [label, hc, hd] at h
          cases h
      | ok l₂ =>
          rw [label, hc, hd] at h
          cases h
          exact ⟨l₁, l₂, rfl, rfl, rfl⟩

/-- Every label that is constructed has a node. -/
theorem nodes_ne_nil : ∀ {c : Construction} {l : Label}, c.label = .ok l → l.nodes ≠ []
  | parse _, _, h => (of_fromStr h).1.1
  | addPrefix c s, l, h => by
      obtain ⟨l₁, -, rfl⟩ := label_addPrefix h
      exact List.cons_ne_nil _ _
  | concat c d, l, h => by
      obtain ⟨l₁, l₂, hc, -, rfl⟩ := label_concat h
      have hne := nodes_ne_nil hc
      show l₁.nodes ++ l₂.nodes ≠ []
      simp [hne]
  | loginTime t, l, h => by
      cases h
      exact List.cons_ne_nil _ _

/-- Captures and wildcards only come from texts. -/
theorem readable_of_getStr : ∀ {c : Construction} {l : Label}, c.label = .ok l →
    ∀ n ∈ l.nodes, n.getStr = none → n.readable = true
  | parse _, _, h, n, hn, _ => (of_fromStr h).1.2 n hn
  | addPrefix c s, l, h, n, hn, hstr => by
      obtain ⟨l₁, hc, rfl⟩ := label_addPrefix h
      rcases List.mem_cons.mp hn with rfl | hn
      · cases hstr
      · exact readable_of_getStr hc n hn hstr
  | concat c d, l, h, n, hn, hstr => by
      obtain ⟨l₁, l₂, hc, hd, rfl⟩ := label_concat h
      rcases List.mem_append.mp hn with hn | hn
      · exact readable_of_getStr hc n hn hstr
      · exact readable_of_getStr hd n hn hstr
  | loginTime t, l, h, n, hn, hstr => by
      cases h
      simp only [Label.loginTime, List.mem_cons, List.not_mem_nil, or_false] at hn
      rcases hn with rfl | rfl | rfl <;> cases hstr

/-- A label is of the grammar when what the constructors put into it is. -/
theorem readable_iff_sound : ∀ {c : Construction} {l : Label}, c.label = .ok l →
    (l.Readable ↔ c.Sound)
  | parse _, _, h => iff_of_true (of_fromStr h).1 trivial
  | addPrefix c s, l, h => by
      obtain ⟨l₁, hc, rfl⟩ := label_addPrefix h
      have hne := nodes_ne_nil hc
      rw [Sound, ← readable_iff_sound hc]
      simp [Readable, Label.addPrefix, hne]
  | concat c d, l, h => by
      obtain ⟨l₁, l₂, hc, hd, rfl⟩ := label_concat h
      have hne₁ := nodes_ne_nil hc
      have hne₂ := nodes_ne_nil hd
      rw [Sound, ← readable_iff_sound hc, ← readable_iff_sound hd]
      show (l₁.nodes ++ l₂.nodes ≠ [] ∧ ∀ n ∈ l₁.nodes ++ l₂.nodes, n.readable = true) ↔ _
      rw [List.forall_mem_append]
      simp [Readable, hne₁, hne₂]
  | loginTime t, l, h => by
      cases h
      have hfirst : (Node.str "ControlPlane").readable = true := by decide
      have hsecond : (Node.str "LoginTime").readable = true := by decide
      rw [Sound, ← readable_toString t]
      simp [Readable, Label.loginTime, hfirst, hsecond]

end Construction

/-! ## Texts and login times -/

/-- When its captures are readable, a label survives its text exactly if all of it is readable
and it is equal to itself. -/
theorem roundTrips_iff {l : Label}
    (h : ∀ n ∈ l.nodes, n.getStr = none → n.readable = true) :
    l.RoundTrips ↔ l.Readable ∧ l.Steady := by
  constructor
  · rintro ⟨l', hparse, heq⟩
    obtain ⟨hshape, -, hsteady⟩ := (beq_iff l' l).mp heq
    obtain ⟨⟨hne, hread⟩, -⟩ := of_fromStr hparse
    refine ⟨⟨?_, ?_⟩, hsteady⟩
    · intro hnil
      apply hne
      simpa [shape, hnil] using hshape
    · intro n hn
      cases hs : n.getStr with
      | none => exact h n hn hs
      | some s =>
          -- the same text stands in the label that was read
          have hmem : some s ∈ l'.shape := by
            rw [hshape]
            exact List.mem_map.mpr ⟨n, hn, hs⟩
          obtain ⟨n', hn', hs'⟩ := List.mem_map.mp hmem
          have hnn : n = n' := by
            cases n <;> cases n' <;> simp_all [Node.getStr]
          rw [hnn]
          exact hread n' hn'
  · rintro ⟨hread, hsteady⟩
    exact ⟨l, fromStr_display.mpr hread, (beq_iff l l).mpr ⟨rfl, hsteady, hsteady⟩⟩

theorem isLoginTime_loginTime (t : Int64) : (loginTime t).isLoginTime = true := rfl

/-- The fourth node is read exactly when there is none. -/
theorem getLoginTime_eq (l : Label) :
    l.getLoginTime = if l.isLoginTime then
      .error "index out of bounds: the len is 3 but the index is 3" else .ok none := by
  unfold getLoginTime
  by_cases hl : l.isLoginTime = true
  · have hlen : l.nodes.length = 3 := by
      simp only [isLoginTime, Bool.and_eq_true, decide_eq_true_eq] at hl
      exact hl.1.1
    have hnone : l.nodes[3]? = none := by
      apply List.getElem?_eq_none
      omega
    rw [if_pos hl, if_pos hl, hnone, hlen]
    rfl
  · rw [if_neg hl, if_neg hl]

theorem readsLoginTime_iff (l : Label) : l.ReadsLoginTime ↔ l.isLoginTime = false := by
  cases hl : l.isLoginTime with
  | true =>
      have hpanic := getLoginTime_eq l
      rw [hl, if_pos rfl] at hpanic
      refine iff_of_false (fun ⟨hsome, hnone⟩ => ?_) (by simp)
      by_cases ht : ∃ t, l = loginTime t
      · obtain ⟨t, ht⟩ := ht
        have hread := hsome t ht
        rw [hpanic] at hread
        cases hread
      · have hread := hnone (fun t he => ht ⟨t, he⟩)
        rw [hpanic] at hread
        cases hread
  | false =>
      have hread := getLoginTime_eq l
      rw [hl, if_neg (by decide)] at hread
      refine iff_of_true ⟨fun t ht => ?_, fun _ => hread⟩ rfl
      rw [ht, isLoginTime_loginTime] at hl
      cases hl

/-- A label survives its text, and its login time is read, exactly if the texts and times that
it was constructed from are of the grammar of nodes, it is equal to itself, and it is no login
time. -/
theorem Construction.roundTrips_and_reads_iff (c : Construction) {l : Label}
    (h : c.label = .ok l) :
    l.RoundTrips ∧ l.ReadsLoginTime ↔ c.Sound ∧ l.Steady ∧ l.isLoginTime = false := by
  rw [roundTrips_iff (readable_of_getStr h), readsLoginTime_iff, readable_iff_sound h, and_assoc]

theorem Construction.roundTrips_and_reads_host :
    (⟨[.str "Host", .str "a", .any "x"]⟩ : Label).RoundTrips ∧
        (⟨[.str "Host", .str "a", .any "x"]⟩ : Label).ReadsLoginTime ↔
      ((Node.str "Host").readable = true ∧ True) ∧
        (⟨[.str "Host", .str "a", .any "x"]⟩ : Label).Steady ∧
          (⟨[.str "Host", .str "a", .any "x"]⟩ : Label).isLoginTime = false :=
  Construction.roundTrips_and_reads_iff (.addPrefix (.parse "a::<x>") "Host") rfl

/-- The text of a login time before 1970 is no label, and no login time can be read. -/
theorem loginTime_unread :
    (loginTime (-1)).display = "ControlPlane::LoginTime::-1" ∧
      fromStr "ControlPlane::LoginTime::-1" = .error "bad label: -1" ∧
      ¬ (loginTime (-1)).RoundTrips ∧
      (loginTime 5).getLoginTime =
        .error "index out of bounds: the len is 3 but the index is 3" := by
  have htext : (loginTime (-1)).display = "ControlPlane::LoginTime::-1" := by decide
  have hbad : fromStr "ControlPlane::LoginTime::-1" = .error "bad label: -1" := by decide
  refine ⟨htext, hbad, ?_, by decide⟩
  rintro ⟨l', hparse, -⟩
  rw [htext, hbad] at hparse
  cases hparse

end Label

end Armour.Lang
