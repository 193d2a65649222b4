import Armour.Lang.Convert
import Armour.Lang.Semantics
import Armour.Lang.Unfolding
import Armour.Lib.Along

/-! # The data plane inside of another plane

`ofDP` embeds the literals and the expressions of the data plane.  The operations of the
evaluator that are the same code in every plane commute with it: substitution, the binding of
literals, matching, the iterators and the metadata calls.  One unfolding of `eval` then commutes
as soon as the operators and the calls of the plane do.
-/

namespace Armour.Lib.BTreeMap

variable {κ ν μ : Type} [LinearOrder κ]

omit [LinearOrder κ] in
theorem traverseEntries_eq_some {f : ν → Option μ} {g : μ → ν}
    (h : ∀ a b, f a = some b → a = g b) {l : List (κ × ν)} {l' : List (κ × μ)}
    (hl : traverse.traverseEntries f l = some l') : l = l'.map (fun p => (p.1, g p.2)) := by
  induction l generalizing l' with
  | nil =>
      cases hl
      rfl
  | cons p l ih =>
      obtain ⟨k, a⟩ := p
      simp only [traverse.traverseEntries, Option.bind_eq_bind, Option.bind_eq_some_iff,
        Option.some.injEq] at hl
      obtain ⟨b, hb, bs, hbs, rfl⟩ := hl
      rw [List.map_cons, ← ih hbs, ← h a b hb]

/-- A traversal by a partial inverse is undone by the map. -/
theorem traverse_eq_some {f : ν → Option μ} {g : μ → ν} (h : ∀ a b, f a = some b → a = g b)
    {m : BTreeMap κ ν} {m' : BTreeMap κ μ} (hm : m.traverse f = some m') : m = m'.map g := by
  obtain ⟨l', hl, rfl⟩ := Option.map_eq_some_iff.mp hm
  have hentries := traverseEntries_eq_some h hl
  have hsorted : l'.Pairwise (fun a b => a.1 < b.1) := by
    have hs := m.sorted
    rw [hentries, List.pairwise_map] at hs
    exact hs
  rw [ofList_entries ⟨l', hsorted⟩]
  exact eq_of_entries hentries

omit [LinearOrder κ] in
theorem traverseEntries_mem {f : ν → Option μ} {l : List (κ × ν)} {l' : List (κ × μ)}
    (hl : traverse.traverseEntries f l = some l') :
    l'.map Prod.fst = l.map Prod.fst ∧
      ∀ k a, (k, a) ∈ l → ∃ b, f a = some b ∧ (k, b) ∈ l' := by
  induction l generalizing l' with
  | nil =>
      cases hl
      exact ⟨rfl, fun k a h => absurd h List.not_mem_nil⟩
  | cons p l ih =>
      obtain ⟨k, a⟩ := p
      simp only [traverse.traverseEntries, Option.bind_eq_bind, Option.bind_eq_some_iff,
        Option.some.injEq] at hl
      obtain ⟨b, hb, bs, hbs, rfl⟩ := hl
      obtain ⟨hkeys, hmem⟩ := ih hbs
      refine ⟨congrArg (k :: ·) hkeys, fun k' a' h => ?_⟩
      rcases List.mem_cons.mp h with h | h
      · cases h
        exact ⟨b, hb, List.mem_cons_self⟩
      · obtain ⟨b', hb', h⟩ := hmem k' a' h
        exact ⟨b', hb', List.mem_cons_of_mem _ h⟩

/-- A traversal keeps the keys and takes every value to its image. -/
theorem get?_traverse {f : ν → Option μ} {m : BTreeMap κ ν} {m' : BTreeMap κ μ}
    (hm : m.traverse f = some m') {k : κ} {a : ν} (ha : m.get? k = some a) :
    ∃ b, f a = some b ∧ m'.get? k = some b := by
  obtain ⟨l', hl, rfl⟩ := Option.map_eq_some_iff.mp hm
  obtain ⟨hkeys, hmem⟩ := traverseEntries_mem hl
  obtain ⟨b, hb, hkb⟩ := hmem k a ((mem_entries m k a).mpr ha)
  have hnd : (l'.map Prod.fst).Nodup := by
    rw [hkeys, List.Nodup, List.pairwise_map]
    exact m.sorted.imp (fun h => ne_of_lt h)
  exact ⟨b, hb, get?_ofList_of_mem hnd hkb⟩

/-- What a traversal has was there, with a value that it is the image of. -/
theorem get?_of_traverse {f : ν → Option μ} {m : BTreeMap κ ν} {m' : BTreeMap κ μ}
    (hm : m.traverse f = some m') {k : κ} {b : μ} (hb : m'.get? k = some b) :
    ∃ a, m.get? k = some a ∧ f a = some b := by
  obtain ⟨l', hl, rfl⟩ := Option.map_eq_some_iff.mp hm
  have hmem := mem_of_mem_ofList ((mem_entries _ k b).mpr hb)
  have hkey : k ∈ m.entries.map Prod.fst := by
    rw [← (traverseEntries_mem hl).1]
    exact List.mem_map_of_mem hmem
  obtain ⟨⟨k', a⟩, hka, rfl⟩ := List.mem_map.mp hkey
  have ha : m.get? k' = some a := (mem_entries m k' a).mp hka
  obtain ⟨b', hb', hget⟩ := get?_traverse hm ha
  refine ⟨a, ha, hb'.trans ?_⟩
  exact hget.symm.trans hb

end Armour.Lib.BTreeMap

namespace Armour.Lang

open Armour.Lib

section

variable {FT FL : Type} [TFlatTyp FT] [TFlatLiteral FT FL]

/-! ## Literals -/

namespace Literal

theorem ofDPs_map (ls : List DPLiteral) :
    (ofDPs ls : List (Literal FL)) = ls.map ofDP := by
  induction ls with
  | nil => rfl
  | cons l ls ih => rw [ofDPs, ih, List.map_cons]

theorem ofDP_list (ls : List DPLiteral) :
    (ofDP (list ls) : Literal FL) = list (ls.map ofDP) := by rw [ofDP, ofDPs_map]

theorem ofDP_tuple (ls : List DPLiteral) :
    (ofDP (tuple ls) : Literal FL) = tuple (ls.map ofDP) := by rw [ofDP, ofDPs_map]

theorem dp?_ofDP (l : DPLiteral) : (ofDP l : Literal FL).dp? = l.dp? := by
  cases l with
  | flat d => exact TFlatLiteral.toDP?_dp d
  | list ls => rfl
  | tuple ls => rfl

theorem getBool?_ofDP (l : DPLiteral) : (ofDP l : Literal FL).getBool? = l.getBool? := by
  rw [getBool?, getBool?, dp?_ofDP]

theorem isBool_ofDP (l : DPLiteral) : (ofDP l : Literal FL).isBool = l.isBool := by
  rw [isBool, isBool, getBool?_ofDP]

theorem getStr?_ofDP (l : DPLiteral) : (ofDP l : Literal FL).getStr? = l.getStr? := by
  rw [getStr?, getStr?, dp?_ofDP]

theorem getLabel?_ofDP (l : DPLiteral) : (ofDP l : Literal FL).getLabel? = l.getLabel? := by
  rw [getLabel?, getLabel?, dp?_ofDP]

theorem destSome_ofDP (l : DPLiteral) :
    (ofDP l : Literal FL).destSome = l.destSome.map ofDP := by
  rcases l with d | ls | _ | ⟨l, _ | ⟨l', ls⟩⟩ <;> rfl

end Literal

/-! ## What evaluation carries -/

namespace Error

def ofDP : Error DPFlatLiteral → Error FL
  | text s => text s
  | prefixType p l => prefixType p (.ofDP l)
  | infixType op l1 l2 => infixType op (.ofDP l1) (.ofDP l2)
  | callType f args => callType f (args.map .ofDP)
  | unknownCall f args => unknownCall f (args.map .ofDP)
  | ifLet l => ifLet (.ofDP l)
  | external s => external s
  | overflow s => overflow s
  | notBool l => notBool (.ofDP l)
  | panic s => panic s

end Error

def Outcome.ofDP : Outcome DPFlatLiteral → Outcome FL
  | lit l => lit (.ofDP l)
  | ret o => ret o.ofDP

def Effect.ofDP (c : Effect DPFlatLiteral) : Effect FL :=
  ⟨c.external, c.method, c.args.map .ofDP, c.isAsync⟩

def World.ofDP (w : World DPFlatLiteral) : World FL := ⟨w.metadata, w.trace.map .ofDP⟩

/-- The image of a computed result. -/
def translated {α β : Type} (f : α → β) (x : Except (Error DPFlatLiteral) α) :
    Except (Error FL) β := (x.map f).mapError Error.ofDP

/-- A computation of the data plane, read in the plane. -/
abbrev Embeds {α β : Type} (f : α → β) (m : EvalM DPFlatLiteral α) (m' : EvalM FL β) : Prop :=
  Comp.Along World.ofDP Error.ofDP f m m'

theorem translated_bind {α β α' β' : Type} {f : α → β} {g : α' → β'}
    {x : Except (Error DPFlatLiteral) α} {k : α → Except (Error DPFlatLiteral) α'}
    {k' : β → Except (Error FL) β'} (hk : ∀ a, k' (f a) = translated g (k a)) :
    (translated f x >>= k') = translated g (x >>= k) := by
  cases x with
  | error e => rfl
  | ok a => exact hk a

theorem translated_map {α β α' β' : Type} {f : α → β} {g : α' → β'} {h : α → α'} {h' : β → β'}
    (hh : ∀ a, h' (f a) = g (h a)) (x : Except (Error DPFlatLiteral) α) :
    (translated f x : Except (Error FL) β).map h' = translated g (x.map h) := by
  cases x with
  | error e => rfl
  | ok a => exact congrArg Except.ok (hh a)

theorem toExpr_ofDP (o : Outcome DPFlatLiteral) :
    (o.ofDP : Outcome FL).toExpr = Expr.ofDP o.toExpr := by
  induction o with
  | lit l => rfl
  | ret o ih =>
      show Expr.returnExpr _ = Expr.returnExpr _
      rw [ih]

theorem stripReturn_ofDP (o : Outcome DPFlatLiteral) :
    (o.ofDP : Outcome FL).stripReturn = o.stripReturn.ofDP := by cases o <;> rfl

theorem isReturn_ofDP (o : Outcome DPFlatLiteral) :
    (o.ofDP : Outcome FL).isReturn = o.isReturn := by cases o <;> rfl

theorem literals_ofDP (rs : List (Outcome DPFlatLiteral)) :
    (Outcome.literals (rs.map .ofDP) : Except (Outcome FL) (List (Literal FL))) =
      ((Outcome.literals rs).map (List.map .ofDP)).mapError .ofDP := by
  induction rs with
  | nil => rfl
  | cons r rs ih =>
      cases r with
      | ret o => rfl
      | lit l =>
          show (Outcome.literals (rs.map .ofDP)).map (Literal.ofDP l :: ·) = _
          rw [ih, Outcome.literals]
          cases Outcome.literals rs <;> rfl

/-! ## Expressions -/

namespace Expr

theorem ofDPs_map (es : List DPExpr) : (ofDPs es : List (Expr FL)) = es.map ofDP := by
  induction es with
  | nil => rfl
  | cons e es ih => rw [ofDPs, ih, List.map_cons]

theorem ofDPSubjects_map (ms : List (DPExpr × Pattern)) :
    (ofDPSubjects ms : List (Expr FL × Pattern)) = ms.map (fun m => (ofDP m.1, m.2)) := by
  induction ms with
  | nil => rfl
  | cons m ms ih => rw [ofDPSubjects, ih, List.map_cons]

theorem ofDP_iter (op : Iter) (vs : List String) (e1 e2 : DPExpr)
    (acc : Option (String × DPExpr)) : (ofDP (iter op vs e1 e2 acc) : Expr FL) =
      iter op vs (ofDP e1) (ofDP e2) (acc.map (fun a => (a.1, ofDP a.2))) := by
  cases acc <;> rfl

theorem ofDP_ifExpr (c t : DPExpr) (a : Option DPExpr) :
    (ofDP (ifExpr c t a) : Expr FL) = ifExpr (ofDP c) (ofDP t) (a.map ofDP) := by
  cases a <;> rfl

theorem ofDP_ifSomeMatchExpr (e t : DPExpr) (a : Option DPExpr) :
    (ofDP (ifSomeMatchExpr e t a) : Expr FL) =
      ifSomeMatchExpr (ofDP e) (ofDP t) (a.map ofDP) := by cases a <;> rfl

theorem ofDP_ifMatchExpr (vs : List String) (ms : List (DPExpr × Pattern)) (t : DPExpr)
    (a : Option DPExpr) : (ofDP (ifMatchExpr vs ms t a) : Expr FL) =
      ifMatchExpr vs (ms.map (fun m => (ofDP m.1, m.2))) (ofDP t) (a.map ofDP) := by
  cases a <;> simp only [ofDP, ofDPSubjects_map, Option.map]

/-- A traversal of the variables commutes when it does at the variables. -/
theorem ofDP_mapVars {fv : Nat → String → DPExpr} {fb : Nat → String → Nat → DPExpr}
    {gv : Nat → String → Expr FL} {gb : Nat → String → Nat → Expr FL}
    (hv : ∀ d x, gv d x = ofDP (fv d x)) (hb : ∀ d x i, gb d x i = ofDP (fb d x i)) (e : DPExpr)
    (d : Nat) : mapVars gv gb d (ofDP e) = ofDP (mapVars fv fb d e) := by
  induction e using Expr.ind generalizing d with
  | var x => exact hv d x
  | bvar x i => exact hb d x i
  | litExpr l => rfl
  | returnExpr e ih => simp only [ofDP, mapVars, ih]
  | prefixExpr p e ih => simp only [ofDP, mapVars, ih]
  | infixExpr op e1 e2 ih1 ih2 => simp only [ofDP, mapVars, ih1, ih2]
  | blockExpr b es ih =>
      simp only [ofDP, ofDPs_map, mapVars_blockExpr, List.map_map, blockExpr.injEq, true_and]
      exact List.map_congr_left (fun e he => ih e he d)
  | letExpr vs e1 e2 ih1 ih2 => simp only [ofDP, mapVars, ih1, ih2]
  | iter op vs e1 e2 acc ih1 ih2 iha =>
      cases acc with
      | none => simp only [ofDP, mapVars, ih1, ih2]
      | some a => simp only [ofDP, mapVars, ih1, ih2, iha a rfl]
  | closure x e ih => simp only [ofDP, mapVars, ih]
  | ifExpr c t a ihc iht iha =>
      cases a with
      | none => simp only [ofDP, mapVars, ihc, iht]
      | some a => simp only [ofDP, mapVars, ihc, iht, iha a rfl]
  | ifMatchExpr vs ms t a ihm iht iha =>
      have hms : (ms.map (fun m => ((ofDP m.1 : Expr FL), m.2))).map
            (fun m => (mapVars gv gb d m.1, m.2)) =
          (ms.map (fun m => (mapVars fv fb d m.1, m.2))).map (fun m => (ofDP m.1, m.2)) := by
        rw [List.map_map, List.map_map]
        refine List.map_congr_left (fun m hm => ?_)
        exact congrArg (fun e => (e, m.2)) (ihm m hm d)
      have ha : (a.map ofDP).map (mapVars gv gb d) = (a.map (mapVars fv fb d)).map ofDP := by
        cases a with
        | none => rfl
        | some a => exact congrArg some (iha a rfl d)
      rw [ofDP_ifMatchExpr, mapVars_ifMatchExpr, mapVars_ifMatchExpr, ofDP_ifMatchExpr, iht, ha]
      exact congrArg (fun ms => ifMatchExpr vs ms _ _) hms
  | ifSomeMatchExpr c t a ihc iht iha =>
      cases a with
      | none => simp only [ofDP, mapVars, ihc, iht]
      | some a => simp only [ofDP, mapVars, ihc, iht, iha a rfl]
  | callExpr f args b ih =>
      simp only [ofDP, ofDPs_map, mapVars_callExpr, List.map_map, callExpr.injEq, true_and,
        and_true]
      exact List.map_congr_left (fun e he => ih e he d)

theorem ofDP_shift (e : DPExpr) (i d : Nat) :
    (ofDP e : Expr FL).shift i d = ofDP (e.shift i d) := by
  unfold shift
  split
  · rfl
  · apply ofDP_mapVars
    · exact fun _ _ => rfl
    · intro d x j
      split <;> rfl

theorem ofDP_subst (e u : DPExpr) (i : Nat) (downgrade : Bool) :
    (ofDP e : Expr FL).subst i (ofDP u) downgrade = ofDP (e.subst i u downgrade) := by
  apply ofDP_mapVars
  · exact fun _ _ => rfl
  · intro d x j
    unfold substVar
    split
    · rfl
    · split
      · split
        · exact ofDP_shift u d 0
        · rfl
      · rfl

theorem ofDP_apply (e u : DPExpr) :
    (ofDP e : Expr FL).apply (ofDP u) = (e.apply u).map ofDP := by
  cases e with
  | closure x e => exact congrArg some (ofDP_subst e u 0 true)
  | iter op vs e1 e2 acc =>
      rw [ofDP_iter]
      rfl
  | ifExpr c t a =>
      rw [ofDP_ifExpr]
      rfl
  | ifMatchExpr vs ms t a =>
      rw [ofDP_ifMatchExpr]
      rfl
  | ifSomeMatchExpr e t a =>
      rw [ofDP_ifSomeMatchExpr]
      rfl
  | _ => rfl

/-- The embedding adds and removes no calls. -/
theorem calls_ofDP (e : DPExpr) : (ofDP e : Expr FL).calls = e.calls := by
  have hlist : ∀ es : List DPExpr, (∀ e ∈ es, (ofDP e : Expr FL).calls = e.calls) →
      (es.map (ofDP : DPExpr → Expr FL)).flatMap calls = es.flatMap calls := by
    intro es h
    rw [List.flatMap_map]
    exact List.flatMap_congr h
  have hoption : ∀ a : Option DPExpr, (∀ e, a = some e → (ofDP e : Expr FL).calls = e.calls) →
      (a.map (ofDP : DPExpr → Expr FL)).toList.flatMap calls = a.toList.flatMap calls := by
    intro a h
    cases a with
    | none => rfl
    | some e =>
        show (ofDP e : Expr FL).calls ++ [] = e.calls ++ []
        rw [h e rfl]
  induction e using Expr.ind with
  | var x | bvar x i | litExpr l => rfl
  | returnExpr e ih | prefixExpr p e ih | closure x e ih => exact ih
  | infixExpr op e1 e2 ih1 ih2 | letExpr vs e1 e2 ih1 ih2 =>
      exact congrArg₂ (· ++ ·) ih1 ih2
  | blockExpr b es ih => rw [ofDP, ofDPs_map, calls_blockExpr, calls_blockExpr, hlist es ih]
  | iter op vs e1 e2 acc ih1 ih2 iha =>
      rw [ofDP_iter, calls_iter, calls_iter, ih1, ih2]
      cases acc with
      | none => rfl
      | some a =>
          show _ ++ ((ofDP a.2 : Expr FL).calls ++ []) = _ ++ (a.2.calls ++ [])
          rw [iha a rfl]
  | ifExpr c t a ihc iht iha =>
      rw [ofDP_ifExpr, calls_ifExpr, calls_ifExpr, ihc, iht, hoption a iha]
  | ifMatchExpr vs ms t a ihm iht iha =>
      have hms : (ms.map (fun m => ((ofDP m.1 : Expr FL), m.2))).flatMap (fun m => m.1.calls) =
          ms.flatMap (fun m => m.1.calls) := by
        rw [List.flatMap_map]
        exact List.flatMap_congr ihm
      rw [ofDP_ifMatchExpr, calls_ifMatchExpr, calls_ifMatchExpr, iht, hms, hoption a iha]
  | ifSomeMatchExpr c t a ihc iht iha =>
      rw [ofDP_ifSomeMatchExpr, calls_ifSomeMatchExpr, calls_ifSomeMatchExpr, ihc, iht,
        hoption a iha]
  | callExpr f args b ih =>
      rw [ofDP, ofDPs_map, calls_callExpr, calls_callExpr, hlist args ih, List.length_map]

theorem callsIn_ofDP {ok : String → Prop} (e : DPExpr) :
    (ofDP e : Expr FL).CallsIn ok ↔ e.CallsIn ok := by
  rw [CallsIn, CallsIn, calls_ofDP]

end Expr

/-! ## What the conversion takes -/

theorem Literal.eq_ofDPs {ls : List (Literal FL)}
    (h : ∀ l ∈ ls, ∀ d, l.toDP? = Option.some d → l = Literal.ofDP d) {ds : List DPLiteral}
    (hds : Literal.toDPs? ls = Option.some ds) : ls = Literal.ofDPs ds := by
  induction ls generalizing ds with
  | nil =>
      cases hds
      rfl
  | cons l ls ih =>
      simp only [Literal.toDPs?, Option.bind_eq_bind, Option.bind_eq_some_iff,
        Option.some.injEq] at hds
      obtain ⟨d, hd, ds', hds', rfl⟩ := hds
      rw [Literal.ofDPs, ← h l List.mem_cons_self d hd,
        ← ih (fun l hl => h l (List.mem_cons_of_mem _ hl)) hds']

theorem Literal.eq_ofDP (l : Literal FL) :
    ∀ {d : DPLiteral}, l.toDP? = Option.some d → l = Literal.ofDP d := by
  induction l using Literal.ind with
  | flat f =>
      intro d hd
      obtain ⟨d, hf, rfl⟩ := Option.map_eq_some_iff.mp hd
      exact congrArg Literal.flat (TFlatLiteral.eq_dp hf)
  | list ls ih =>
      intro d hd
      obtain ⟨ds, hds, rfl⟩ := Option.map_eq_some_iff.mp hd
      exact congrArg Literal.list (Literal.eq_ofDPs (fun l hl _ => ih l hl) hds)
  | tuple ls ih =>
      intro d hd
      obtain ⟨ds, hds, rfl⟩ := Option.map_eq_some_iff.mp hd
      exact congrArg Literal.tuple (Literal.eq_ofDPs (fun l hl _ => ih l hl) hds)

theorem Expr.eq_ofDPs {es : List (Expr FL)}
    (h : ∀ e ∈ es, ∀ d, e.toDP? = some d → e = Expr.ofDP d) {ds : List DPExpr}
    (hds : Expr.toDPs? es = some ds) : es = Expr.ofDPs ds := by
  induction es generalizing ds with
  | nil =>
      cases hds
      rfl
  | cons e es ih =>
      simp only [Expr.toDPs?, Option.bind_eq_bind, Option.bind_eq_some_iff,
        Option.some.injEq] at hds
      obtain ⟨d, hd, ds', hds', rfl⟩ := hds
      rw [Expr.ofDPs, ← h e List.mem_cons_self d hd,
        ← ih (fun e he => h e (List.mem_cons_of_mem _ he)) hds']

theorem Expr.eq_ofDPSubjects {ms : List (Expr FL × Pattern)}
    (h : ∀ m ∈ ms, ∀ d, m.1.toDP? = some d → m.1 = Expr.ofDP d)
    {ds : List (DPExpr × Pattern)} (hds : Expr.toDPSubjects? ms = some ds) :
    ms = Expr.ofDPSubjects ds := by
  induction ms generalizing ds with
  | nil =>
      cases hds
      rfl
  | cons m ms ih =>
      obtain ⟨e, p⟩ := m
      simp only [Expr.toDPSubjects?, Option.bind_eq_bind, Option.bind_eq_some_iff,
        Option.some.injEq] at hds
      obtain ⟨d, hd, ds', hds', rfl⟩ := hds
      have he : e = Expr.ofDP d := h (e, p) List.mem_cons_self d hd
      rw [Expr.ofDPSubjects, ← he, ← ih (fun m hm => h m (List.mem_cons_of_mem _ hm)) hds']

/-- An expression that the conversion takes is the embedding of its image. -/
theorem Expr.eq_ofDP (e : Expr FL) : ∀ {d : DPExpr}, e.toDP? = some d → e = Expr.ofDP d := by
  have hone : ∀ {α β : Type} {f : α → β} {o : Option α} {b : β}, o.map f = some b →
    ∃ a, o = some a ∧ f a = b := fun h => Option.map_eq_some_iff.mp h
  induction e using Expr.ind with
  | var x | bvar x i =>
      intro d hd
      cases hd
      rfl
  | litExpr l =>
      intro d hd
      obtain ⟨l', hl, rfl⟩ := hone hd
      exact congrArg Expr.litExpr (l.eq_ofDP hl)
  | returnExpr e ih =>
      intro d hd
      obtain ⟨d, he, rfl⟩ := hone hd
      exact congrArg Expr.returnExpr (ih he)
  | prefixExpr p e ih =>
      intro d hd
      obtain ⟨d, he, rfl⟩ := hone hd
      exact congrArg (Expr.prefixExpr p) (ih he)
  | closure x e ih =>
      intro d hd
      obtain ⟨d, he, rfl⟩ := hone hd
      exact congrArg (Expr.closure x) (ih he)
  | infixExpr op e1 e2 ih1 ih2 =>
      intro d hd
      simp only [Expr.toDP?, Option.bind_eq_bind, Option.bind_eq_some_iff, Option.some.injEq] at hd
      obtain ⟨d1, h1, d2, h2, rfl⟩ := hd
      rw [Expr.ofDP, ← ih1 h1, ← ih2 h2]
  | blockExpr b es ih =>
      intro d hd
      obtain ⟨ds, hds, rfl⟩ := hone hd
      exact congrArg (Expr.blockExpr b) (Expr.eq_ofDPs (fun e he _ => ih e he) hds)
  | letExpr vs e1 e2 ih1 ih2 =>
      intro d hd
      simp only [Expr.toDP?, Option.bind_eq_bind, Option.bind_eq_some_iff, Option.some.injEq] at hd
      obtain ⟨d1, h1, d2, h2, rfl⟩ := hd
      rw [Expr.ofDP, ← ih1 h1, ← ih2 h2]
  | iter op vs e1 e2 acc ih1 ih2 iha =>
      intro d hd
      cases acc with
      | none =>
          simp only [Expr.toDP?, Option.bind_eq_bind, Option.bind_eq_some_iff,
            Option.some.injEq] at hd
          obtain ⟨d1, h1, d2, h2, rfl⟩ := hd
          rw [Expr.ofDP, ← ih1 h1, ← ih2 h2]
      | some a =>
          simp only [Expr.toDP?, Option.bind_eq_bind, Option.bind_eq_some_iff,
            Option.some.injEq] at hd
          obtain ⟨d1, h1, d2, h2, d3, h3, rfl⟩ := hd
          rw [Expr.ofDP, ← ih1 h1, ← ih2 h2, ← iha a rfl h3]
  | ifExpr c t a ihc iht iha =>
      intro d hd
      cases a with
      | none =>
          simp only [Expr.toDP?, Option.bind_eq_bind, Option.bind_eq_some_iff,
            Option.some.injEq] at hd
          obtain ⟨d1, h1, d2, h2, rfl⟩ := hd
          rw [Expr.ofDP, ← ihc h1, ← iht h2]
      | some a =>
          simp only [Expr.toDP?, Option.bind_eq_bind, Option.bind_eq_some_iff,
            Option.some.injEq] at hd
          obtain ⟨d1, h1, d2, h2, d3, h3, rfl⟩ := hd
          rw [Expr.ofDP, ← ihc h1, ← iht h2, ← iha a rfl h3]
  | ifMatchExpr vs ms t a ihm iht iha =>
      intro d hd
      cases a with
      | none =>
          simp only [Expr.toDP?, Option.bind_eq_bind, Option.bind_eq_some_iff,
            Option.some.injEq] at hd
          obtain ⟨ds, h1, d2, h2, rfl⟩ := hd
          rw [Expr.ofDP, ← Expr.eq_ofDPSubjects (fun m hm _ => ihm m hm) h1, ← iht h2]
      | some a =>
          simp only [Expr.toDP?, Option.bind_eq_bind, Option.bind_eq_some_iff,
            Option.some.injEq] at hd
          obtain ⟨ds, h1, d2, h2, d3, h3, rfl⟩ := hd
          rw [Expr.ofDP, ← Expr.eq_ofDPSubjects (fun m hm _ => ihm m hm) h1, ← iht h2,
            ← iha a rfl h3]
  | ifSomeMatchExpr c t a ihc iht iha =>
      intro d hd
      cases a with
      | none =>
          simp only [Expr.toDP?, Option.bind_eq_bind, Option.bind_eq_some_iff,
            Option.some.injEq] at hd
          obtain ⟨d1, h1, d2, h2, rfl⟩ := hd
          rw [Expr.ofDP, ← ihc h1, ← iht h2]
      | some a =>
          simp only [Expr.toDP?, Option.bind_eq_bind, Option.bind_eq_some_iff,
            Option.some.injEq] at hd
          obtain ⟨d1, h1, d2, h2, d3, h3, rfl⟩ := hd
          rw [Expr.ofDP, ← ihc h1, ← iht h2, ← iha a rfl h3]
  | callExpr f args b ih =>
      intro d hd
      obtain ⟨ds, hds, rfl⟩ := hone hd
      exact congrArg (fun es => Expr.callExpr f es b) (Expr.eq_ofDPs (fun e he _ => ih e he) hds)

/-! ## Binding -/

theorem applyTo_ofDP (e u : DPExpr) : applyTo (Expr.ofDP e : Expr FL) (Expr.ofDP u) =
    translated Expr.ofDP (applyTo e u) := by
  rw [applyTo, applyTo, Expr.ofDP_apply]
  cases e.apply u <;> rfl

theorem applyAll_ofDP (us : List DPExpr) (e : DPExpr) :
    applyAll (Expr.ofDP e : Expr FL) (us.map Expr.ofDP) =
      translated Expr.ofDP (applyAll e us) := by
  induction us generalizing e with
  | nil => rfl
  | cons u us ih =>
      rw [List.map_cons, applyAll, applyAll, applyTo_ofDP]
      exact translated_bind ih

theorem litExprs_ofDP (ls : List DPLiteral) :
    (ls.map Literal.ofDP).map (Expr.litExpr : Literal FL → Expr FL) =
      (ls.map Expr.litExpr).map Expr.ofDP := by
  rw [List.map_map, List.map_map]
  rfl

theorem applyAll_literals (ls : List DPLiteral) (e : DPExpr) :
    applyAll (Expr.ofDP e : Expr FL) ((ls.map Literal.ofDP).map .litExpr) =
      translated Expr.ofDP (applyAll e (ls.map .litExpr)) := by
  rw [litExprs_ofDP, applyAll_ofDP]

theorem applyTo_literal (l : DPLiteral) (e : DPExpr) :
    applyTo (Expr.ofDP e : Expr FL) (.litExpr (.ofDP l)) =
      translated Expr.ofDP (applyTo e (.litExpr l)) :=
  applyTo_ofDP e (.litExpr l)

theorem boundComponents_ofDP (vs : List String) (ls : List DPLiteral) :
    boundComponents vs (ls.map (Literal.ofDP : DPLiteral → Literal FL)) =
      (boundComponents vs ls).map Literal.ofDP := by
  induction vs generalizing ls with
  | nil => rfl
  | cons v vs ih =>
      cases ls with
      | nil => rfl
      | cons l ls =>
          have ih := ih ls
          unfold boundComponents at ih ⊢
          by_cases hv : v = "_"
          · simp only [List.map_cons, List.zip_cons_cons, List.filterMap_cons, hv, if_true, ih]
          · simp only [List.map_cons, List.zip_cons_cons, List.filterMap_cons, hv, if_false, ih]

theorem bindLet_ofDP (who : String) (vs : List String) (l : DPLiteral) (e : DPExpr) :
    bindLet who vs (.ofDP l) (Expr.ofDP e : Expr FL) =
      translated Expr.ofDP (bindLet who vs l e) := by
  -- one variable takes every literal
  have hone : ∀ (l : DPLiteral) (msg : String),
      (if vs.length = 1 then applyTo (Expr.ofDP e : Expr FL) (.litExpr (.ofDP l))
        else .error (.text msg)) =
      translated Expr.ofDP (if vs.length = 1 then applyTo e (.litExpr l)
        else .error (.text msg)) := by
    intro l msg
    split
    · exact applyTo_literal l e
    · rfl
  cases l with
  | flat d => exact hone _ _
  | list ls =>
      rw [Literal.ofDP_list]
      have h := hone (.list ls) (who ++ ", let-expression (literal not a tuple)")
      rw [Literal.ofDP_list] at h
      exact h
  | tuple ls =>
      have h := hone (.tuple ls) (who ++ ", let-expression (tuple length mismatch)")
      rw [Literal.ofDP_tuple] at h ⊢
      unfold bindLet
      dsimp only
      rw [List.length_map, boundComponents_ofDP]
      by_cases hlen : 1 < ls.length ∧ vs.length = ls.length
      · rw [if_pos hlen, if_pos hlen]
        exact applyAll_literals _ e
      · rw [if_neg hlen, if_neg hlen]
        exact h

theorem bindElement_ofDP (who : String) (vs : List String) (l : DPLiteral) (e : DPExpr) :
    bindElement who vs (.ofDP l) (Expr.ofDP e : Expr FL) =
      translated Expr.ofDP (bindElement who vs l e) := by
  -- several variables take the components of a tuple
  have htuple : ∀ ls : List DPLiteral,
      (if vs.length = (ls.map (Literal.ofDP : DPLiteral → Literal FL)).length then
          applyAll (Expr.ofDP e : Expr FL) ((boundComponents vs (ls.map .ofDP)).map .litExpr)
        else .error (.text (who ++ ", iter-expression (tuple length mismatch)"))) =
      translated Expr.ofDP (if vs.length = ls.length then
          applyAll e ((boundComponents vs ls).map .litExpr)
        else .error (.text (who ++ ", iter-expression (tuple length mismatch)"))) := by
    intro ls
    rw [List.length_map, boundComponents_ofDP]
    split
    · exact applyAll_literals _ e
    · rfl
  rcases vs with _ | ⟨v, _ | ⟨v', vs⟩⟩
  · cases l with
    | tuple ls =>
        rw [Literal.ofDP_tuple]
        exact htuple ls
    | _ => rfl
  · have hone : ∀ l : DPLiteral, (if v = "_" then .ok (Expr.ofDP e : Expr FL)
          else applyTo (Expr.ofDP e) (.litExpr (.ofDP l))) =
        translated Expr.ofDP (if v = "_" then .ok e else applyTo e (.litExpr l)) := by
      intro l
      split
      · rfl
      · exact applyTo_literal l e
    cases l <;> exact hone _
  · cases l with
    | tuple ls =>
        rw [Literal.ofDP_tuple]
        exact htuple ls
    | _ => rfl

theorem bindIter_ofDP (who : String) (vs : List String) (acc : Option DPExpr) (l : DPLiteral)
    (e : DPExpr) : bindIter who vs (acc.map .ofDP) (.ofDP l) (Expr.ofDP e : Expr FL) =
      translated Expr.ofDP (bindIter who vs acc l e) := by
  cases acc with
  | none => exact bindElement_ofDP who vs l e
  | some a =>
      show (applyTo (Expr.ofDP e) (Expr.ofDP a) >>= _) = _
      rw [applyTo_ofDP]
      exact translated_bind (fun e => bindElement_ofDP who vs l e)

theorem bindCaptures_ofDP {who : String} {caps : BTreeMap String DPLiteral}
    {caps' : BTreeMap String (Literal FL)}
    (h : ∀ v, caps'.get? v = (caps.get? v).map .ofDP) (vs : List String) (e : DPExpr) :
    bindCaptures who caps' vs (Expr.ofDP e) =
      translated Expr.ofDP (bindCaptures who caps vs e) := by
  induction vs generalizing e with
  | nil => rfl
  | cons v vs ih =>
      rw [bindCaptures, bindCaptures, h]
      cases caps.get? v with
      | none => rfl
      | some l =>
          show (applyTo (Expr.ofDP e) (.litExpr (.ofDP l)) >>= _) = _
          rw [applyTo_literal]
          exact translated_bind ih

/-! ## Iterators and matches -/

theorem getBool_ofDP (l : DPLiteral) :
    getBool (.ofDP l : Literal FL) = translated (fun b => b) (getBool l) := by
  rw [getBool, getBool, Literal.getBool?_ofDP]
  cases l.getBool? <;> rfl

theorem allBool_ofDP (ls : List DPLiteral) :
    allBool (ls.map (Literal.ofDP : DPLiteral → Literal FL)) =
      translated (fun b => b) (allBool ls) := by
  induction ls with
  | nil => rfl
  | cons l ls ih =>
      show (getBool (Literal.ofDP l) >>= fun b => if b then allBool (ls.map .ofDP) else _) = _
      rw [getBool_ofDP]
      refine translated_bind (fun b => ?_)
      cases b with
      | true => exact ih
      | false => rfl

theorem anyBool_ofDP (ls : List DPLiteral) :
    anyBool (ls.map (Literal.ofDP : DPLiteral → Literal FL)) =
      translated (fun b => b) (anyBool ls) := by
  induction ls with
  | nil => rfl
  | cons l ls ih =>
      show (getBool (Literal.ofDP l) >>= fun b => if b then _ else anyBool (ls.map .ofDP)) = _
      rw [getBool_ofDP]
      refine translated_bind (fun b => ?_)
      cases b with
      | true => rfl
      | false => exact ih

theorem filterBool_ofDP (lits rs : List DPLiteral) :
    filterBool ((lits.map (Literal.ofDP : DPLiteral → Literal FL)).zip (rs.map .ofDP)) =
      translated (List.map .ofDP) (filterBool (lits.zip rs)) := by
  induction lits generalizing rs with
  | nil => rfl
  | cons l lits ih =>
      cases rs with
      | nil => rfl
      | cons r rs =>
          show (getBool (Literal.ofDP r) >>= _) = _
          rw [getBool_ofDP]
          refine translated_bind (fun b => ?_)
          show (filterBool ((lits.map Literal.ofDP).zip (rs.map .ofDP)) >>= _) = _
          rw [ih]
          refine translated_bind (fun ls => ?_)
          cases b <;> rfl

theorem filterMap_destSome (ls : List DPLiteral) :
    (ls.map (Literal.ofDP : DPLiteral → Literal FL)).filterMap Literal.destSome =
      (ls.filterMap Literal.destSome).map .ofDP := by
  rw [List.filterMap_map, List.map_filterMap]
  exact List.filterMap_congr (fun l _ => Literal.destSome_ofDP l)

theorem iterResult_ofDP (op : Iter) (lits rs : List DPLiteral) :
    iterResult op (lits.map (Literal.ofDP : DPLiteral → Literal FL)) (rs.map .ofDP) =
      translated .ofDP (iterResult op lits rs) := by
  have hbool : ∀ b : Bool, (Literal.bool b : Literal FL) = .ofDP (.bool b) := fun _ => rfl
  cases op with
  | map => exact congrArg Except.ok (Literal.ofDP_list rs).symm
  | forEach => rfl
  | filter =>
      show (filterBool ((lits.map Literal.ofDP).zip (rs.map .ofDP))).map Literal.list = _
      rw [filterBool_ofDP]
      show _ = translated Literal.ofDP ((filterBool (lits.zip rs)).map Literal.list)
      exact translated_map (fun ls => (Literal.ofDP_list ls).symm) _
  | filterMap =>
      show Except.ok (Literal.list ((rs.map Literal.ofDP).filterMap Literal.destSome)) = _
      rw [filterMap_destSome, ← Literal.ofDP_list]
      rfl
  | fold => rfl
  | all =>
      show (allBool (rs.map (Literal.ofDP : DPLiteral → Literal FL))).map Literal.bool =
        translated Literal.ofDP ((allBool rs).map Literal.bool)
      rw [allBool_ofDP]
      exact translated_map hbool _
  | any =>
      show (anyBool (rs.map (Literal.ofDP : DPLiteral → Literal FL))).map Literal.bool =
        translated Literal.ofDP ((anyBool rs).map Literal.bool)
      rw [anyBool_ofDP]
      exact translated_map hbool _

/-- A capture of the plane. -/
def captureOfDP (c : String × DPLiteral) : String × Literal FL := (c.1, .ofDP c.2)

theorem collect_ofDP (pf : Platform) (cap : String → Option String) (names : List String) :
    (Literal.performMatch.collect pf cap names :
        Checked (Option (List (String × Literal FL)))) =
      (Literal.performMatch.collect pf cap names).map (Option.map (List.map captureOfDP)) := by
  induction names with
  | nil => rfl
  | cons name names ih =>
      rw [Literal.performMatch.collect, Literal.performMatch.collect]
      cases cap name with
      | none => rfl
      | some s =>
          dsimp only
          -- the capture of this name, in front of the others
          have hrest : ∀ v : DPLiteral,
              (do
                let cs ← Literal.performMatch.collect pf cap names
                return cs.map (((Pat.stripAs name).1, Literal.ofDP v) :: ·) :
                  Checked (Option (List (String × Literal FL)))) =
              (do
                let cs ← Literal.performMatch.collect pf cap names
                return cs.map (((Pat.stripAs name).1, v) :: ·) :
                  Checked (Option (List (String × DPLiteral)))).map
                (Option.map (List.map captureOfDP)) := by
            intro v
            rw [ih]
            rcases (Literal.performMatch.collect pf cap names :
              Checked (Option (List (String × DPLiteral)))) with _ | _ | cs <;> rfl
          cases (Pat.stripAs name).2 with
          | str => exact hrest (.str s)
          | i64 =>
              cases Text.parseI64 s with
              | none => rfl
              | some i => exact hrest (.int i)
          | base64 =>
              cases pf.base64Decode s with
              | none => rfl
              | some d => exact hrest (.data d)

end

end Armour.Lang
