import Armour.Lang.Typing
import Armour.Lang.Interpret
import Mathlib.Algebra.Order.Group.Unbundled.Abs

/-! # The tables of headers and the dispatcher

The signatures of the built-in functions and internal services are listed in one place
(`headers.rs`) and dispatched in others, by matching on the name and the literals.  `FlatEntry`
says that the dispatcher has a case for an entry whose arguments are flat.
-/

namespace Armour.Lang

open Armour.Lib

/-! ## Flat literals by their type -/

namespace FlatTyp

/-- What a flat literal of the type holds. -/
def Values : FlatTyp → Type
  | bool => Bool
  | connection => Connection
  | data => Bytes
  | f64 => F64
  | httpRequest => HttpRequest
  | httpResponse => HttpResponse
  | i64 => Int64
  | id => ID
  | ipAddr => IpAddr
  | label => Label
  | regex => PolicyRegex
  | rreturn => Empty
  | str => String
  | unit => Unit

def literal : (t : FlatTyp) → t.Values → DPFlatLiteral
  | bool, b => .bool b
  | connection, c => .connection c
  | data, d => .data d
  | f64, f => .float f
  | httpRequest, r => .httpRequest r
  | httpResponse, r => .httpResponse r
  | i64, i => .int i
  | id, i => .id i
  | ipAddr, a => .ipAddr a
  | label, l => .label l
  | regex, r => .regex r
  | str, s => .str s
  | unit, _ => .unit

theorem exists_literal (l : DPFlatLiteral) : ∃ v, l = literal l.typ v := by
  cases l with
  | unit => exact ⟨(), rfl⟩
  | _ v => exact ⟨v, rfl⟩

theorem has_literal {a : FlatTyp} (x : a.Values) :
    Typ.Has DPFlatLiteral.typ (.flatTyp a) (.flat (a.literal x)) := by
  cases a with
  | rreturn => cases x
  | _ => exact Or.inr ⟨_, rfl, rfl⟩

end FlatTyp

namespace Literal

variable {FT FL : Type} [TFlatTyp FT] [TFlatLiteral FT FL] [TInterpret FL]

/-- A built-in function on literals, by the number of arguments. -/
def evalCalls (pf : Platform) (f : String) : List (Literal FL) → Checked (Option (Literal FL))
  | [] => .ok (TInterpret.evalCall0 pf f)
  | [l] => l.evalCall1 pf f
  | [l1, l2] => l1.evalCall2 pf f l2
  | [l1, l2, l3] => .ok (l1.evalCall3 f l2 l3)
  | [l1, l2, l3, l4] => .ok (l1.evalCall4 f l2 l3 l4)
  | _ => .ok .none

end Literal

/-! ## What is refused -/

section

variable {FT FL : Type} [TFlatTyp FT] [TFlatLiteral FT FL]

/-- Arguments of the declared types that have no result: overflow in a build that checks it,
and the octets of an address without an IPv4 form. -/
def Refused (pf : Platform) (f : String) (args : List (Literal FL)) : Prop :=
  (f = "i64::abs" ∧ pf.overflowChecks = true ∧ args = [.int Int64.minValue]) ∨
  (f = "i64::pow" ∧ pf.overflowChecks = true ∧ ∃ i j, args = [.int i, .int j] ∧
    ¬(-2 ^ 63 ≤ i.toInt ^ j.toUInt64.toUInt32.toNat ∧
      i.toInt ^ j.toUInt64.toUInt32.toNat < 2 ^ 63)) ∨
  (f = "IpAddr::octets" ∧ ∃ a, args = [.ipAddr (.v6 a)] ∧ IpAddr.toIpv4 a = none)

/-- A checked result is a literal of the type. -/
def Answers (typ : FL → FT) (r : Checked (Option (Literal FL))) (t : Typ FT) : Prop :=
  ∃ l, r = .ok (some l) ∧ t.Has typ l

theorem not_refused {pf : Platform} {f : String} {args : List (Literal FL)}
    (h : f ∉ ["i64::abs", "i64::pow", "IpAddr::octets"]) : ¬Refused pf f args := by
  simp only [List.mem_cons, List.not_mem_nil, or_false, not_or] at h
  rintro (⟨hf, _⟩ | ⟨hf, _⟩ | ⟨hf, _⟩)
  · exact h.1 hf
  · exact h.2.1 hf
  · exact h.2.2 hf

end

/-! ## Entries on flat arguments -/

/-- On flat literals of the declared types the dispatcher answers unless it refuses. -/
def FlatEntry (pf : Platform) (f : String) (s : DPSignature) : Prop :=
  ∃ (args : List FlatTyp) (t : DPTyp), .rreturn ∉ args ∧ s = .new (args.map .flatTyp) t ∧
    ∀ ls : List DPFlatLiteral, ls.map DPFlatLiteral.typ = args →
      (Answers DPFlatLiteral.typ (Literal.evalCalls pf f (ls.map .flat)) t ↔
        ¬Refused pf f (ls.map Literal.flat))

section

variable {pf : Platform} {f : String} {t : DPTyp} {a b c d : FlatTyp}

theorem flatEntry0 (h : Answers DPFlatLiteral.typ (.ok (DPFlatLiteral.evalCall0 pf f)) t ↔
      ¬Refused pf f ([] : List DPLiteral)) : FlatEntry pf f (.new [] t) := by
  refine ⟨[], t, List.not_mem_nil, rfl, fun ls hls => ?_⟩
  rw [List.map_eq_nil_iff] at hls
  subst hls
  exact h

theorem flatEntry1 (ha : .rreturn ∉ [a]) (h : ∀ x : a.Values,
      Answers DPFlatLiteral.typ ((a.literal x).evalCall1 pf f) t ↔
        ¬Refused pf f [.flat (a.literal x)]) : FlatEntry pf f (.new [.flatTyp a] t) := by
  refine ⟨[a], t, ha, rfl, fun ls hls => ?_⟩
  rcases ls with _ | ⟨l, _ | _⟩ <;> cases hls
  obtain ⟨x, hx⟩ := FlatTyp.exists_literal l
  have h := h x
  rw [← hx] at h
  exact h

theorem flatEntry2 (ha : .rreturn ∉ [a, b]) (h : ∀ (x : a.Values) (y : b.Values),
      Answers DPFlatLiteral.typ ((a.literal x).evalCall2 pf f (b.literal y)) t ↔
        ¬Refused pf f [.flat (a.literal x), .flat (b.literal y)]) :
    FlatEntry pf f (.new [.flatTyp a, .flatTyp b] t) := by
  refine ⟨[a, b], t, ha, rfl, fun ls hls => ?_⟩
  rcases ls with _ | ⟨l, _ | ⟨l', _ | _⟩⟩ <;> cases hls
  obtain ⟨x, hx⟩ := FlatTyp.exists_literal l
  obtain ⟨y, hy⟩ := FlatTyp.exists_literal l'
  have h := h x y
  rw [← hx, ← hy] at h
  exact h

theorem flatEntry3 (ha : .rreturn ∉ [a, b, c])
    (h : ∀ (x : a.Values) (y : b.Values) (z : c.Values),
      Answers DPFlatLiteral.typ
          (.ok ((a.literal x).evalCall3 f (b.literal y) (c.literal z))) t ↔
        ¬Refused pf f [.flat (a.literal x), .flat (b.literal y), .flat (c.literal z)]) :
    FlatEntry pf f (.new [.flatTyp a, .flatTyp b, .flatTyp c] t) := by
  refine ⟨[a, b, c], t, ha, rfl, fun ls hls => ?_⟩
  rcases ls with _ | ⟨l, _ | ⟨l', _ | ⟨l'', _ | _⟩⟩⟩ <;> cases hls
  obtain ⟨x, hx⟩ := FlatTyp.exists_literal l
  obtain ⟨y, hy⟩ := FlatTyp.exists_literal l'
  obtain ⟨z, hz⟩ := FlatTyp.exists_literal l''
  have h := h x y z
  rw [← hx, ← hy, ← hz] at h
  exact h

theorem flatEntry4 (ha : .rreturn ∉ [a, b, c, d])
    (h : ∀ (x : a.Values) (y : b.Values) (z : c.Values) (w : d.Values),
      Answers DPFlatLiteral.typ
          (.ok ((a.literal x).evalCall4 f (b.literal y) (c.literal z) (d.literal w))) t ↔
        ¬Refused pf f [.flat (a.literal x), .flat (b.literal y), .flat (c.literal z),
          .flat (d.literal w)]) :
    FlatEntry pf f (.new [.flatTyp a, .flatTyp b, .flatTyp c, .flatTyp d] t) := by
  refine ⟨[a, b, c, d], t, ha, rfl, fun ls hls => ?_⟩
  rcases ls with _ | ⟨l, _ | ⟨l', _ | ⟨l'', _ | ⟨m, _ | _⟩⟩⟩⟩ <;> cases hls
  obtain ⟨x, hx⟩ := FlatTyp.exists_literal l
  obtain ⟨y, hy⟩ := FlatTyp.exists_literal l'
  obtain ⟨z, hz⟩ := FlatTyp.exists_literal l''
  obtain ⟨w, hw⟩ := FlatTyp.exists_literal m
  have h := h x y z w
  rw [← hx, ← hy, ← hz, ← hw] at h
  exact h

end

/-! ### Results that are lists, tuples and options -/

section

theorem has_dp (l : DPFlatLiteral) : Typ.Has DPFlatLiteral.typ (.flatTyp l.typ) (.flat l) :=
  Typ.has_flat l

theorem has_headerPairs (hs : HttpHeaders) :
    Typ.Has DPFlatLiteral.typ (.list (.tuple [.str, .data])) hs.headerPairs := by
  rw [Typ.Has]
  refine ⟨_, rfl, fun x hx => ?_⟩
  obtain ⟨p, _, hx⟩ := List.mem_flatMap.1 hx
  obtain ⟨v, _, rfl⟩ := List.mem_map.1 hx
  exact Typ.has_pair (has_dp (.str p.1)) (has_dp (.data v))

theorem has_header (hs : HttpHeaders) (s : String) :
    Typ.Has DPFlatLiteral.typ (.option (.list .data)) (hs.header s) :=
  Typ.has_ofOption (fun vs => Typ.has_list_map (fun v => has_dp (.data v)) vs) _

theorem has_uniqueHeader (hs : HttpHeaders) (s : String) :
    Typ.Has DPFlatLiteral.typ (.option .data) (hs.uniqueHeader s) := by
  rw [HttpHeaders.uniqueHeader, Typ.option, Typ.Has]
  split
  · exact Or.inr ⟨_, rfl, has_dp (.data _)⟩
  · exact Or.inl rfl

/-- A list of pairs of strings. -/
theorem has_strPairs (ps : List (String × String)) : Typ.Has DPFlatLiteral.typ
    (.list (.tuple [.str, .str])) (.list (ps.map (fun p => .tuple [.str p.1, .str p.2]))) :=
  Typ.has_list_map (fun p => Typ.has_pair (has_dp (.str p.1)) (has_dp (.str p.2))) ps

theorem has_queryPairs (pf : Platform) (r : HttpRequest) :
    Typ.Has DPFlatLiteral.typ (.list (.tuple [.str, .str])) (r.queryPairsLit pf) := by
  rw [HttpRequest.queryPairsLit]
  split
  · exact has_strPairs _
  · exact has_strPairs []

/-- `IpAddr::lookup` keeps the IPv4 addresses. -/
theorem has_lookup (o : Option (List IpAddr)) :
    Typ.Has DPFlatLiteral.typ (.option (.list .ipAddr))
      (.ofOption (o.map (fun as => .list (as.filterMap fun a =>
        match a with
        | .v4 v => some (.ipAddr (.v4 v))
        | .v6 _ => none)))) := by
  refine Typ.has_ofOption (fun as => ?_) o
  rw [Typ.Has]
  refine ⟨_, rfl, fun x hx => ?_⟩
  obtain ⟨a, _, ha⟩ := List.mem_filterMap.1 hx
  cases a with
  | v4 v =>
      cases ha
      exact has_dp (.ipAddr (.v4 v))
  | v6 v => cases ha

end

/-! ### The entries that refuse -/

/-- An `i64` result is refused out of range in a build that checks overflow. -/
theorem answers_i64 (pf : Platform) (n : Int) (msg : String) :
    Answers DPFlatLiteral.typ (do return some (.int (← pf.i64 n msg))) (.i64 : DPTyp) ↔
      ¬(pf.overflowChecks = true ∧ ¬(-2 ^ 63 ≤ n ∧ n < 2 ^ 63)) := by
  unfold Platform.i64
  by_cases hn : -2 ^ 63 ≤ n ∧ n < 2 ^ 63
  · rw [if_pos hn]
    exact iff_of_true ⟨_, rfl, has_dp (.int _)⟩ (fun h => h.2 hn)
  · rw [if_neg hn]
    by_cases hc : pf.overflowChecks = true
    · rw [if_pos hc]
      refine iff_of_false ?_ (fun h => h ⟨hc, hn⟩)
      rintro ⟨l, hl, _⟩
      cases hl
    · rw [if_neg hc]
      exact iff_of_true ⟨_, rfl, has_dp (.int _)⟩ (fun h => hc h.1)

/-- Only the least integer has no absolute value. -/
theorem abs_inRange (i : Int64) :
    (-2 ^ 63 ≤ |i.toInt| ∧ |i.toInt| < 2 ^ 63) ↔ i ≠ Int64.minValue := by
  have hlo : -2 ^ 63 ≤ i.toInt := i.le_toInt
  have hhi : i.toInt < 2 ^ 63 := i.toInt_lt
  have hmin : i = Int64.minValue ↔ i.toInt = -2 ^ 63 := by
    rw [← Int64.toInt_inj]
    rfl
  rw [ne_eq, hmin]
  rcases le_total 0 i.toInt with h | h
  · rw [abs_of_nonneg h]
    omega
  · rw [abs_of_nonpos h]
    omega

theorem flatEntry_abs (pf : Platform) :
    FlatEntry pf "i64::abs" (.new [.flatTyp .i64] (.flatTyp .i64)) := by
  refine flatEntry1 (by decide) (fun (i : Int64) => ?_)
  refine (answers_i64 pf _ _).trans (not_congr ?_)
  have harg : i = Int64.minValue ↔ ([.int i] : List DPLiteral) = [.int Int64.minValue] :=
    ⟨fun h => by rw [h], fun h => by cases h; rfl⟩
  have href : Refused pf "i64::abs" ([.int i] : List DPLiteral) ↔
      pf.overflowChecks = true ∧ ([.int i] : List DPLiteral) = [.int Int64.minValue] := by
    simp [Refused]
  refine Iff.trans ?_ href.symm
  rw [abs_inRange, not_not, harg]

theorem flatEntry_pow (pf : Platform) :
    FlatEntry pf "i64::pow" (.new [.flatTyp .i64, .flatTyp .i64] (.flatTyp .i64)) := by
  refine flatEntry2 (by decide) (fun (i j : Int64) => ?_)
  refine (answers_i64 pf _ _).trans (not_congr ?_)
  have href : Refused pf "i64::pow" ([.int i, .int j] : List DPLiteral) ↔
      pf.overflowChecks = true ∧ ∃ i' j', ([.int i, .int j] : List DPLiteral) = [.int i', .int j'] ∧
        ¬(-2 ^ 63 ≤ i'.toInt ^ j'.toUInt64.toUInt32.toNat ∧
          i'.toInt ^ j'.toUInt64.toUInt32.toNat < 2 ^ 63) := by
    simp [Refused]
  refine Iff.trans ?_ href.symm
  constructor
  · rintro ⟨hc, hn⟩
    exact ⟨hc, i, j, rfl, hn⟩
  · rintro ⟨hc, i', j', ⟨⟩, hn⟩
    exact ⟨hc, hn⟩

theorem not_has_none {t t' : DPTyp} {ts : List DPTyp} :
    ¬Typ.Has DPFlatLiteral.typ (.tuple (t :: t' :: ts)) Literal.none := by
  rw [Typ.Has]
  rintro ⟨x, x', ls, h, _⟩
  cases h

theorem flatEntry_octets (pf : Platform) : FlatEntry pf "IpAddr::octets"
    (.new [.flatTyp .ipAddr] (.tuple [.i64, .i64, .i64, .i64])) := by
  have octets : ∀ v : UInt32, Typ.Has DPFlatLiteral.typ (.tuple [.i64, .i64, .i64, .i64])
      (.tuple ((IpAddr.octets v).map (fun o => .int (Int64.ofNat o.toNat)))) := by
    intro v
    rw [Typ.Has]
    have h : ∀ o : UInt8, Typ.Has DPFlatLiteral.typ .i64 (.int (Int64.ofNat o.toNat)) :=
      fun o => has_dp (.int _)
    exact ⟨_, _, _, rfl, h _, h _, ⟨h _, h _, trivial⟩⟩
  refine flatEntry1 (by decide) (fun (a : IpAddr) => ?_)
  have href : Refused pf "IpAddr::octets" ([.ipAddr a] : List DPLiteral) ↔
      ∃ a', ([.ipAddr a] : List DPLiteral) = [.ipAddr (.v6 a')] ∧ IpAddr.toIpv4 a' = none := by
    simp [Refused]
  refine Iff.trans ?_ (not_congr href.symm)
  rcases a with v | v
  · refine iff_of_true ⟨_, rfl, octets v⟩ ?_
    rintro ⟨_, ⟨⟩, _⟩
  · rcases hv : IpAddr.toIpv4 v with _ | v'
    · refine iff_of_false ?_ (fun h => h ⟨v, rfl, hv⟩)
      rintro ⟨l, hl, hhas⟩
      have hl : IpAddr.octetsLit (.v6 v) = l := Option.some.inj (Except.ok.inj hl)
      rw [← hl, IpAddr.octetsLit, hv] at hhas
      exact not_has_none hhas
    · refine iff_of_true ⟨_, rfl, ?_⟩ ?_
      · rw [IpAddr.octetsLit, hv]
        exact octets v'
      · rintro ⟨_, ⟨⟩, hnone⟩
        rw [hv] at hnone
        cases hnone

/-! ### The tables -/

/-- The data plane's own table, but for `Some`. -/
theorem flatEntry_builtinsTable (pf : Platform) : ∀ e ∈ FlatTyp.builtinsTable,
    e.1 ≠ "option::Some" → FlatEntry pf e.1 e.2 := by
  simp only [FlatTyp.builtinsTable, List.forall_mem_cons, List.not_mem_nil, false_imp_iff,
    imp_true_iff, and_true]
  and_intros
  all_goals
    intro h
    first
      | exact absurd rfl h
      | exact flatEntry_abs pf
      | exact flatEntry_pow pf
      | refine flatEntry1 (by decide)
          (fun _ => iff_of_true ⟨_, rfl, ?_⟩ (not_refused (by decide)))
      | refine flatEntry2 (by decide)
          (fun _ _ => iff_of_true ⟨_, rfl, ?_⟩ (not_refused (by decide)))
      | refine flatEntry3 (by decide)
          (fun _ _ _ => iff_of_true ⟨_, rfl, ?_⟩ (not_refused (by decide)))
      | refine flatEntry4 (by decide)
          (fun _ _ _ _ => iff_of_true ⟨_, rfl, ?_⟩ (not_refused (by decide)))
      | refine flatEntry0 (iff_of_true ⟨_, rfl, ?_⟩ (not_refused (by decide)))
  all_goals exact FlatTyp.has_literal _

/-- The functions on lists and options of any type. -/
def anyTypeNames : List String :=
  ["option::is_none", "option::is_some", "list::len", "list::reduce", "list::is_subset",
    "list::is_disjoint", "list::difference", "list::intersection"]

/-- The entries of the table of both planes whose arguments are flat. -/
theorem flatEntry_sharedTable (pf : Platform) :
    ∀ e ∈ (Typ.builtinsTable : List (String × DPSignature)),
      e.1 ∉ anyTypeNames → FlatEntry pf e.1 e.2 := by
  simp only [Typ.builtinsTable, List.forall_mem_cons, List.not_mem_nil, false_imp_iff,
    imp_true_iff, and_true]
  and_intros
  all_goals
    intro h
    first
      | exact absurd (by decide) h
      | exact flatEntry_octets pf
      | refine flatEntry1 (by decide)
          (fun x => iff_of_true ⟨_, rfl, ?_⟩ (not_refused (by decide)))
      | refine flatEntry2 (by decide)
          (fun x y => iff_of_true ⟨_, rfl, ?_⟩ (not_refused (by decide)))
  · exact has_queryPairs pf x
  · exact Typ.has_pair (has_dp (.id _)) (has_dp (.id _))
  · exact has_header _ _
  · exact has_headerPairs _
  · exact Typ.has_ofOption (fun s => has_dp (.str s)) _
  · exact has_uniqueHeader _ _
  · exact Typ.has_pair (has_dp (.id _)) (has_dp (.id _))
  · exact has_header _ _
  · exact Typ.has_list_map (fun s => has_dp (.str s)) _
  · exact has_headerPairs _
  · exact has_uniqueHeader _ _
  · exact has_lookup _
  · exact Typ.has_ofOption (fun l => has_dp (.label l)) _
  · exact Typ.has_list_map (fun l => has_dp (.label l)) _
  · exact Typ.has_list_map (fun s => has_dp (.str s)) _
  · exact Typ.has_list_map (fun a => has_dp (.ipAddr a)) _
  · exact Typ.has_ofOption (fun p : UInt16 => has_dp (.int (Int64.ofNat p.toNat))) _
  · exact Typ.has_ofOption (fun m => has_strPairs _) _
  · exact has_dp (.label _)
  · exact Typ.has_ofOption (fun ps => Typ.has_list_map (fun s => has_dp (.str s)) ps) _

/-! ### Lists and options of any type -/

section

variable {FT FL : Type} [TFlatTyp FT] {typ : FL → FT}

/-- `Option<?>`. -/
theorem has_anyOption {l : Literal FL} :
    Typ.Has typ .anyOption l ↔ l = .none ∨ ∃ x, l = .some x := by
  rw [Typ.anyOption, Typ.Has]

theorem has_anyList {l : Literal FL} :
    Typ.Has typ (.list .rreturn) l ↔ ∃ ls, l = .list ls := by
  rw [Typ.Has]
  constructor
  · rintro ⟨ls, rfl, _⟩
    exact ⟨ls, rfl⟩
  · rintro ⟨ls, rfl⟩
    exact ⟨ls, rfl, fun x _ => Typ.has_rreturn x⟩

variable [TFlatLiteral FT FL]

/-- The flat literals whose type is of the data plane are those of the data plane. -/
structure Agrees (typ : FL → FT) : Prop where
  typ_dp : ∀ l, typ (TFlatLiteral.dp l) = TFlatTyp.dp l.typ
  eq_dp : ∀ {f t}, typ f = TFlatTyp.dp t → ∃ l, f = TFlatLiteral.dp l ∧ l.typ = t

theorem Agrees.has_dp (h : Agrees typ) (l : DPFlatLiteral) :
    Typ.Has typ (.flatTyp (TFlatTyp.dp l.typ)) (.dp l) := by
  rw [← h.typ_dp l]
  exact Typ.has_flat _

theorem Agrees.has_flatTyp (h : Agrees typ) {t : FlatTyp} (ht : t ≠ .rreturn) {l : Literal FL} :
    Typ.Has typ (.flatTyp (TFlatTyp.dp t)) l ↔ ∃ x : t.Values, l = .dp (t.literal x) := by
  rw [Typ.Has]
  constructor
  · rintro (hr | ⟨f, rfl, hf⟩)
    · exact absurd (TFlatTyp.dp_injective hr) ht
    · obtain ⟨d, rfl, rfl⟩ := h.eq_dp hf
      obtain ⟨x, hx⟩ := FlatTyp.exists_literal d
      exact ⟨x, congrArg Literal.dp hx⟩
  · rintro ⟨x, rfl⟩
    have htyp : (t.literal x).typ = t := by
      cases t with
      | rreturn => cases x
      | _ => rfl
    exact Or.inr ⟨_, rfl, by rw [h.typ_dp, htyp]⟩

variable [TInterpret FL]

theorem answers_reduce (pf : Platform) (ls : List (Literal FL)) :
    Answers typ (Literal.evalCalls pf "list::reduce" [.list ls]) (.option .rreturn) := by
  have hnone : Typ.Has typ (.option .rreturn) (.none : Literal FL) := by
    rw [Typ.option, Typ.Has]
    exact Or.inl rfl
  have hsome : ∀ v : Literal FL, Typ.Has typ (.option .rreturn) (.some v) := by
    intro v
    rw [Typ.option, Typ.Has]
    exact Or.inr ⟨v, rfl, Typ.has_rreturn v⟩
  rcases ls with _ | ⟨v, ls⟩
  · exact ⟨_, rfl, hnone⟩
  · refine ⟨_, rfl, ?_⟩
    by_cases hall : (v :: ls).all (fun w => v == w) = true
    · rw [if_pos hall]
      exact hsome v
    · rw [if_neg hall]
      exact hnone

/-- The entries on lists and options, in either plane. -/
theorem answers_anyTable (h : Agrees typ) (pf : Platform) :
    ∀ e ∈ (Typ.builtinsTable : List (String × Signature FT)),
      e.1 ∈ anyTypeNames →
      ∃ ts, e.2.args = some ts ∧ ∀ args, Typ.HasAll typ ts args →
        Answers typ (Literal.evalCalls pf e.1 args : Checked (Option (Literal FL))) e.2.typ := by
  simp only [Typ.builtinsTable, List.forall_mem_cons, List.not_mem_nil, false_imp_iff,
    imp_true_iff, and_true]
  and_intros
  all_goals
    intro hmem
    first
      | exact absurd hmem (by decide)
      | refine ⟨_, rfl, fun args hargs => ?_⟩
        simp only [Typ.hasAll_cons, Typ.hasAll_nil, has_anyOption, has_anyList] at hargs
  · obtain ⟨_, _, rfl, rfl | ⟨x, rfl⟩, rfl⟩ := hargs
    · exact ⟨_, rfl, h.has_dp (.bool _)⟩
    · exact ⟨_, rfl, h.has_dp (.bool _)⟩
  · obtain ⟨_, _, rfl, rfl | ⟨x, rfl⟩, rfl⟩ := hargs
    · exact ⟨_, rfl, h.has_dp (.bool _)⟩
    · exact ⟨_, rfl, h.has_dp (.bool _)⟩
  · obtain ⟨_, _, rfl, ⟨ls, rfl⟩, rfl⟩ := hargs
    exact ⟨_, rfl, h.has_dp (.int _)⟩
  · obtain ⟨_, _, rfl, ⟨ls, rfl⟩, rfl⟩ := hargs
    exact answers_reduce pf ls
  · obtain ⟨_, _, rfl, ⟨ls, rfl⟩, _, _, rfl, ⟨ls', rfl⟩, rfl⟩ := hargs
    exact ⟨_, rfl, h.has_dp (.bool _)⟩
  · obtain ⟨_, _, rfl, ⟨ls, rfl⟩, _, _, rfl, ⟨ls', rfl⟩, rfl⟩ := hargs
    exact ⟨_, rfl, h.has_dp (.bool _)⟩
  · obtain ⟨_, _, rfl, ⟨ls, rfl⟩, _, _, rfl, ⟨ls', rfl⟩, rfl⟩ := hargs
    exact ⟨_, rfl, has_anyList.2 ⟨_, rfl⟩⟩
  · obtain ⟨_, _, rfl, ⟨ls, rfl⟩, _, _, rfl, ⟨ls', rfl⟩, rfl⟩ := hargs
    exact ⟨_, rfl, has_anyList.2 ⟨_, rfl⟩⟩

end

/-! ## Internal services -/

section

variable {FT FL : Type} [TFlatTyp FT] [TFlatLiteral FT FL] {typ : FL → FT}

/-- The tables of internal services, in the types of a plane. -/
def Typ.internalTable (FT : Type) [TFlatTyp FT] : List (String × Signature FT) :=
  internalServiceTable ++ FlatTyp.internalServiceTable.map (fun e => (e.1, e.2.map TFlatTyp.dp))

/-- The metadata actor has a case for the entry, whatever the metadata are. -/
def MetaEntry (typ : FL → FT) (f : String) (s : Signature FT) : Prop :=
  ∃ external method ts, Headers.split f = some (external, method) ∧
    (external = "Ingress" ∨ external = "Egress") ∧ s.args = some ts ∧
    ∀ args, Typ.HasAll typ ts args → ∀ (id : Label) (m : Meta),
      ∃ m' l, m.call id method args = some (m', l) ∧ s.typ.Has typ l

section

variable {f external m : String} {t : Typ FT}

theorem metaEntry0 (hsplit : Headers.split f = some (external, m))
    (hext : external = "Ingress" ∨ external = "Egress")
    (hcall : ∀ id (d : Meta), ∃ d' l,
      d.call id m ([] : List (Literal FL)) = some (d', l) ∧ t.Has typ l) :
    MetaEntry typ f (.new [] t) := by
  refine ⟨external, m, [], hsplit, hext, rfl, fun args hargs id d => ?_⟩
  rw [Typ.hasAll_nil.1 hargs]
  exact hcall id d

theorem metaEntry1 (h : Agrees typ) {a : FlatTyp} (ha : a ≠ .rreturn)
    (hsplit : Headers.split f = some (external, m))
    (hext : external = "Ingress" ∨ external = "Egress")
    (hcall : ∀ id (d : Meta) (x : a.Values), ∃ d' l,
      d.call id m [(.dp (a.literal x) : Literal FL)] = some (d', l) ∧ t.Has typ l) :
    MetaEntry typ f (.new [.flatTyp (TFlatTyp.dp a)] t) := by
  refine ⟨external, m, _, hsplit, hext, rfl, fun args hargs id d => ?_⟩
  obtain ⟨l, _, rfl, hl, hnil⟩ := Typ.hasAll_cons.1 hargs
  obtain ⟨x, rfl⟩ := (h.has_flatTyp ha).1 hl
  rw [Typ.hasAll_nil.1 hnil]
  exact hcall id d x

end

/-- A signature of flat types, in the types of a plane. -/
theorem MetaEntry.ofFlat {f : String} (a : List FlatTyp) (t : FlatTyp)
    (h : MetaEntry typ f
      (.new (a.map (fun t => .flatTyp (TFlatTyp.dp t))) (.flatTyp (TFlatTyp.dp t)))) :
    MetaEntry typ f ((Signature.new (a.map .flatTyp) (.flatTyp t)).map TFlatTyp.dp) := by
  have hmap : ((Signature.new (a.map .flatTyp) (.flatTyp t) : DPSignature).map TFlatTyp.dp :
      Signature FT) =
      .new (a.map (fun t => .flatTyp (TFlatTyp.dp t))) (.flatTyp (TFlatTyp.dp t)) := by
    simp [Signature.map, Signature.new, Typ.map]
  rwa [hmap]

theorem metaEntry_table (h : Agrees typ) :
    ∀ e ∈ Typ.internalTable FT, MetaEntry typ e.1 e.2 := by
  have option_label : ∀ o : Option Label,
      Typ.Has typ (.option .label) (.ofOption (o.map Literal.label)) :=
    Typ.has_ofOption (fun l => h.has_dp (.label l))
  have option_data : ∀ o : Option Bytes,
      Typ.Has typ (.option .data) (.ofOption (o.map Literal.data)) :=
    Typ.has_ofOption (fun d => h.has_dp (.data d))
  have list_data : ∀ ds : List Bytes, Typ.Has typ (.list .data) (.list (ds.map Literal.data)) :=
    Typ.has_list_map (fun d => h.has_dp (.data d))
  have unit : Typ.Has typ .unit Literal.unit := h.has_dp .unit
  simp only [Typ.internalTable, Typ.internalServiceTable, FlatTyp.internalServiceTable,
    List.map_cons, List.map_nil, List.cons_append, List.nil_append, List.forall_mem_cons,
    List.not_mem_nil, false_imp_iff, imp_true_iff, and_true]
  and_intros
  · exact metaEntry1 h (by decide) (m := "find_label") rfl (Or.inr rfl) (fun id m l =>
      ⟨_, _, by simp only [Meta.call, Literal.dp?_dp]; rfl, option_label _⟩)
  · exact metaEntry0 (m := "id") rfl (Or.inr rfl) (fun id m => ⟨_, _, rfl, option_label _⟩)
  · exact metaEntry0 (m := "data") rfl (Or.inr rfl) (fun id m => ⟨_, _, rfl, list_data _⟩)
  · exact metaEntry0 (m := "pop") rfl (Or.inr rfl) (fun id m => ⟨_, _, rfl, option_data _⟩)
  · exact metaEntry0 (m := "id") rfl (Or.inl rfl) (fun id m => ⟨_, _, rfl, option_label _⟩)
  · exact metaEntry0 (m := "data") rfl (Or.inl rfl) (fun id m => ⟨_, _, rfl, list_data _⟩)
  · exact metaEntry1 h (by decide) (m := "find_label") rfl (Or.inl rfl) (fun id m l =>
      ⟨_, _, by simp only [Meta.call, Literal.dp?_dp]; rfl, option_label _⟩)
  · refine MetaEntry.ofFlat [.label] .bool ?_
    exact metaEntry1 h (by decide) (m := "has_label") rfl (Or.inl rfl) (fun id m l =>
      ⟨_, _, by simp only [Meta.call, Literal.dp?_dp]; rfl, h.has_dp (.bool _)⟩)
  · refine MetaEntry.ofFlat [] .unit ?_
    exact metaEntry0 (m := "set_id") rfl (Or.inr rfl) (fun id m => ⟨_, _, rfl, unit⟩)
  · refine MetaEntry.ofFlat [.label] .bool ?_
    exact metaEntry1 h (by decide) (m := "has_label") rfl (Or.inr rfl) (fun id m l =>
      ⟨_, _, by simp only [Meta.call, Literal.dp?_dp]; rfl, h.has_dp (.bool _)⟩)
  · refine MetaEntry.ofFlat [.data] .unit ?_
    exact metaEntry1 h (by decide) (m := "push") rfl (Or.inr rfl) (fun id m d =>
      ⟨_, _, by simp only [Meta.call, Literal.dp?_dp]; rfl, unit⟩)
  · refine MetaEntry.ofFlat [.label] .unit ?_
    exact metaEntry1 h (by decide) (m := "add_label") rfl (Or.inr rfl) (fun id m l =>
      ⟨_, _, by simp only [Meta.call, Literal.dp?_dp]; rfl, unit⟩)
  · refine MetaEntry.ofFlat [.label] .unit ?_
    exact metaEntry1 h (by decide) (m := "remove_label") rfl (Or.inr rfl) (fun id m l =>
      ⟨_, _, by simp only [Meta.call, Literal.dp?_dp]; rfl, unit⟩)
  · refine MetaEntry.ofFlat [] .unit ?_
    exact metaEntry0 (m := "wipe") rfl (Or.inr rfl) (fun id m => ⟨_, _, rfl, unit⟩)

end

/-! ## Calls of the evaluator -/

section

variable {FT FL : Type} [TFlatTyp FT] [TFlatLiteral FT FL] {typ : FL → FT}

/-- The name is in one of the tables, with the signature. -/
def Listed (f : String) (s : Signature FT) : Prop :=
  Typ.builtins f = some s ∨ Typ.internalService f = some s

/-- The evaluation answers with a literal of the type. -/
def AnswersAs (typ : FL → FT) (m : EvalM FL (Outcome FL)) (w : World FL) (t : Typ FT) : Prop :=
  ∃ l w', m.run w = some (.ok (.lit l), w') ∧ t.Has typ l

theorem mem_of_lookup_eq {α β : Type} [DecidableEq α] {l : List (α × β)} {a : α} {b : β}
    (h : l.lookup a = some b) : (a, b) ∈ l := by
  obtain ⟨l₁, l₂, rfl, _⟩ := List.lookup_eq_some_iff.1 h
  simp

/-- The entry of a built-in function: in the table of both planes or in the plane's own. -/
theorem mem_of_builtins {f : String} {s : Signature FT} (h : Typ.builtins f = some s) :
    (f, s) ∈ Typ.builtinsTable ∨ TFlatTyp.builtins f = some s := by
  rw [Typ.builtins, Option.or_eq_some_iff] at h
  exact h.imp mem_of_lookup_eq And.right

/-- Literals of flat types of the data plane. -/
theorem Agrees.hasAll_flat (h : Agrees typ) {a : List FlatTyp} (ha : .rreturn ∉ a) :
    ∀ {ls : List (Literal FL)},
      Typ.HasAll typ (a.map (fun t => .flatTyp (TFlatTyp.dp t))) ls →
      ∃ ds : List DPFlatLiteral, ls = ds.map .dp ∧ ds.map DPFlatLiteral.typ = a := by
  induction a with
  | nil =>
      intro ls hls
      exact ⟨[], Typ.hasAll_nil.1 hls, rfl⟩
  | cons t a ih =>
      intro ls hls
      obtain ⟨l, ls, rfl, hl, hrest⟩ := Typ.hasAll_cons.1 hls
      rw [List.mem_cons, not_or] at ha
      obtain ⟨ht, ha⟩ := ha
      obtain ⟨ds, rfl, rfl⟩ := ih ha hrest
      rw [Typ.Has] at hl
      rcases hl with hl | ⟨f, rfl, hf⟩
      · exact absurd (TFlatTyp.dp_injective hl).symm ht
      · obtain ⟨d, rfl, rfl⟩ := h.eq_dp hf
        exact ⟨d :: ds, rfl, rfl⟩

omit [TFlatLiteral FT FL] in
theorem lift_answersAs {err : Error FL} {r : Checked (Option (Literal FL))} {w : World FL}
    {t : Typ FT} : AnswersAs typ (.lit <$> EvalM.lift err r) w t ↔ Answers typ r t := by
  constructor
  · rintro ⟨l, w', hrun, ht⟩
    rcases r with e | _ | l'
    · cases hrun
    · cases hrun
    · cases hrun
      exact ⟨_, rfl, ht⟩
  · rintro ⟨l, rfl, ht⟩
    exact ⟨l, w, rfl, ht⟩

theorem evalBuiltin_answersAs [TInterpret FL] {pf : Platform} {f : String}
    {args : List (Literal FL)} {w : World FL} {t : Typ FT} :
    AnswersAs typ (.lit <$> evalBuiltin pf f args) w t ↔
      Answers typ (Literal.evalCalls pf f args) t := by
  have h : ∃ err, evalBuiltin pf f args = EvalM.lift err (Literal.evalCalls pf f args) := by
    rcases args with _ | ⟨a, _ | ⟨b, _ | ⟨c, _ | ⟨d, _ | ⟨e, rest⟩⟩⟩⟩⟩ <;> exact ⟨_, rfl⟩
  obtain ⟨err, h⟩ := h
  rw [h]
  exact lift_answersAs

/-- A metadata call that the actor has a case for. -/
theorem metaCall_answersAs {external method : String} {args : List (Literal FL)} {w : World FL}
    {t : Typ FT} (h : ∀ (id : Label) (m : Meta),
      ∃ m' l, m.call id method args = some (m', l) ∧ t.Has typ l) :
    AnswersAs typ (.lit <$> EvalM.metaCall external method args) w t := by
  obtain ⟨m', l, hcall, ht⟩ := h w.metadata.egressId
    (if external = "Ingress" then w.metadata.ingress else w.metadata.egress)
  have hrun : ∃ w', (EvalM.metaCall external method args).run w = some (.ok l, w') := by
    simp only [EvalM.metaCall, EvalM.log, Comp.run_bind, Comp.get, Comp.set, hcall]
    exact ⟨_, rfl⟩
  obtain ⟨w', hrun⟩ := hrun
  exact ⟨l, w', Comp.run_bind_ok hrun, ht⟩

theorem evalCall_builtin {env : Env FL} {ev : Expr FL → EvalM FL (Outcome FL)} {f : String}
    {b : Bool} {args : List (Literal FL)} (hf : env.get f = none)
    (hb : Headers.isBuiltin FT f = true) :
    evalCall env ev f b args = .lit <$> env.builtin f args := by
  rw [evalCall, hf]
  exact if_pos hb

/-- A call of an internal service, in either plane. -/
theorem evalCall_internal {env : Env FL} {ev : Expr FL → EvalM FL (Outcome FL)} {f : String}
    {b : Bool} {args : List (Literal FL)} {s : Signature FT} {ts : List (Typ FT)} {w : World FL}
    (hentry : MetaEntry typ f s) (hf : env.get f = none) (hb : Headers.isBuiltin FT f = false)
    (hts : s.args = some ts) (hargs : Typ.HasAll typ ts args) :
    AnswersAs typ (evalCall env ev f b args) w s.typ := by
  obtain ⟨external, method, ts', hsplit, hext, hts', hcall⟩ := hentry
  cases hts.symm.trans hts'
  rw [evalCall, hf]
  simp only [hb, hsplit, if_pos hext, Bool.false_eq_true, if_false]
  exact metaCall_answersAs (hcall args hargs)

/-- `Some` of a literal that is not flat, which the dispatcher has no case for. -/
def SomeOfNonflat (f : String) (args : List (Literal FL)) : Prop :=
  f = "option::Some" ∧ ∃ l, args = [l] ∧ l.dp? = none

end

/-! ## The data plane -/

theorem dpAgrees : Agrees DPFlatLiteral.typ where
  typ_dp _ := rfl
  eq_dp h := ⟨_, rfl, h⟩

theorem internalTable_names : ∀ e ∈ Typ.internalTable FlatTyp,
    e.1 ∉ ["i64::abs", "i64::pow", "IpAddr::octets"] ∧
      Headers.isBuiltin FlatTyp e.1 = false := by
  decide +kernel

theorem internalTable_not_refused :
    ∀ e ∈ Typ.internalTable FlatTyp, e.1 ∉ ["i64::abs", "i64::pow", "IpAddr::octets"] :=
  fun e he => (internalTable_names e he).1

theorem Typ.map_id {FT : Type} (t : Typ FT) : t.map (fun a => a) = t := by
  induction t using Typ.map.induct with
  | case1 t => rw [Typ.map]
  | case2 t ih => rw [Typ.map, ih]
  | case3 ts ih => rw [Typ.map, List.map_congr_left ih, List.map_id']

theorem Signature.map_id {FT : Type} (s : Signature FT) : s.map (fun a => a) = s := by
  have hmap : Typ.map (fun a : FT => a) = fun t => t := funext Typ.map_id
  obtain ⟨args, t⟩ := s
  cases args with
  | none => simp [Signature.map, hmap]
  | some args => simp [Signature.map, hmap]

theorem mem_of_internalService {f : String} {s : DPSignature}
    (h : Typ.internalService f = some s) : (f, s) ∈ Typ.internalTable FlatTyp := by
  have hid : FlatTyp.internalServiceTable.map (fun e => (e.1, e.2.map TFlatTyp.dp)) =
      FlatTyp.internalServiceTable := by
    have hid : ∀ e : String × DPSignature, (e.1, e.2.map TFlatTyp.dp) = e :=
      fun e => Prod.ext rfl (Signature.map_id e.2)
    simp only [hid, List.map_id']
  rw [Typ.internalService, Option.or_eq_some_iff] at h
  rw [Typ.internalTable, hid, List.mem_append]
  exact h.imp mem_of_lookup_eq (fun h => mem_of_lookup_eq h.2)

theorem isBuiltin_internalTable :
    ∀ e ∈ Typ.internalTable FlatTyp, Headers.isBuiltin FlatTyp e.1 = false :=
  fun e he => (internalTable_names e he).2

theorem anyTypeNames_not_refused :
    ∀ f ∈ anyTypeNames, f ∉ ["i64::abs", "i64::pow", "IpAddr::octets"] := by
  decide

theorem builtins_answers {pf : Platform} {f : String} {s : DPSignature} {ts : List DPTyp}
    {args : List DPLiteral} (hs : Typ.builtins f = some s) (hts : s.args = some ts)
    (hargs : Typ.HasAll DPFlatLiteral.typ ts args) (hsome : ¬SomeOfNonflat f args) :
    Answers DPFlatLiteral.typ (Literal.evalCalls pf f args) s.typ ↔ ¬Refused pf f args := by
  have flat : FlatEntry pf f s →
      (Answers DPFlatLiteral.typ (Literal.evalCalls pf f args) s.typ ↔ ¬Refused pf f args) := by
    rintro ⟨a, t, ha, rfl, hcall⟩
    cases hts
    obtain ⟨ds, rfl, hds⟩ := dpAgrees.hasAll_flat ha hargs
    exact hcall ds hds
  rcases mem_of_builtins hs with hmem | hown
  · by_cases hany : f ∈ anyTypeNames
    · obtain ⟨ts', hts', hcall⟩ := answers_anyTable dpAgrees pf (f, s) hmem hany
      cases hts.symm.trans hts'
      exact iff_of_true (hcall args hargs) (not_refused (anyTypeNames_not_refused f hany))
    · exact flat (flatEntry_sharedTable pf (f, s) hmem hany)
  · by_cases hf : f = "option::Some"
    · subst hf
      obtain rfl : .new [.rreturn] .rreturn = s := Option.some.inj hown
      cases hts
      obtain ⟨l, _, rfl, _, hnil⟩ := Typ.hasAll_cons.1 hargs
      obtain rfl := Typ.hasAll_nil.1 hnil
      rcases hl : l.dp? with _ | d
      · exact absurd ⟨rfl, l, rfl, hl⟩ hsome
      · rw [Literal.eq_dp hl]
        exact iff_of_true ⟨_, rfl, Typ.has_rreturn _⟩ (not_refused (by decide))
    · exact flat (flatEntry_builtinsTable pf (f, s) (mem_of_lookup_eq hown) hf)

/-- Data plane: calls of the functions in the tables yield literals of the declared types,
unless they are refused. -/
theorem dpTables_agree {rpc : List (Effect DPFlatLiteral) → String → Effect DPFlatLiteral →
      Except String DPLiteral} {pf : Platform} {p : DPProgram}
    {ev : DPExpr → EvalM DPFlatLiteral (Outcome DPFlatLiteral)} {f : String} {b : Bool}
    {s : DPSignature} {ts : List DPTyp} {args : List DPLiteral} {w : World DPFlatLiteral}
    (hs : Listed f s) (hts : s.args = some ts) (hargs : Typ.HasAll DPFlatLiteral.typ ts args)
    (hf : p.code.get? f = none) (hsome : ¬SomeOfNonflat f args) :
    AnswersAs DPFlatLiteral.typ
        (evalCall (Env.new ⟨rpc, pf, evalBuiltin pf⟩ p) ev f b args) w s.typ ↔
      ¬Refused pf f args := by
  have hget : (Env.new ⟨rpc, pf, evalBuiltin pf⟩ p).get f = none := hf
  rcases hs with hs | hs
  · have hb : Headers.isBuiltin FlatTyp f = true := by
      rw [Headers.isBuiltin, hs]
      rfl
    rw [evalCall_builtin hget hb]
    exact evalBuiltin_answersAs.trans (builtins_answers hs hts hargs hsome)
  · have hmem : (f, s) ∈ Typ.internalTable FlatTyp := mem_of_internalService hs
    have hname : f ∉ ["i64::abs", "i64::pow", "IpAddr::octets"] :=
      internalTable_not_refused (f, s) hmem
    refine iff_of_true ?_ (not_refused hname)
    exact evalCall_internal (metaEntry_table dpAgrees (f, s) hmem) hget
      (isBuiltin_internalTable (f, s) hmem) hts hargs

end Armour.Lang
