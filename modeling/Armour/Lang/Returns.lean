import Armour.Lang.Checker
import Armour.Lang.Unification
import Armour.Lib.Ledger

/-! # Types of returns

The checker does one thing with the type that a function returns: it hands in the type of each
`return`, in their order.  So an expression has a type and a list of returned types whatever is
done with these, and what a return type that is set or not set makes of it is told by the list.
-/

namespace Armour.Lang

open Armour.Lib

variable {FT FL : Type} [TFlatTyp FT]

/-! ## Handing in a type -/

/-- What a return type does with the type of a further `return`. -/
def ReturnType.accept (r : ReturnType FT) (t : Typ FT) : Option (ReturnType FT) :=
  match r with
  | none => some (some t)
  | some rtype => if t.canUnify rtype then some (some rtype) else none

theorem firstMismatch_eq_none {v1 v2 : List (Typ FT)} (hlen : v1.length = v2.length) :
    firstMismatch v1 v2 = none ↔ Typ.canUnifys v1 v2 = true := by
  induction v1 generalizing v2 with
  | nil =>
      cases v2 with
      | nil => simp [firstMismatch]
      | cons t v2 => simp at hlen
  | cons t1 v1 ih =>
      cases v2 with
      | nil => simp at hlen
      | cons t2 v2 =>
          have htail := @ih v2 (by simpa using hlen)
          rw [firstMismatch, Typ.canUnifys_cons, Bool.and_eq_true, ← htail]
          by_cases h : t1.canUnify t2 = true <;> simp [h]

/-- The check succeeds exactly if the types unify. -/
theorem check_eq_pure {σ : Type} {s : String} {v1 v2 : List (Typ FT)}
    (h : Typ.canUnifys v1 v2 = true) : (check s v1 v2 : Comp (CheckError FT) σ Unit) = pure () := by
  have hlen := Typ.length_of_canUnifys h
  rw [check, if_pos hlen, (firstMismatch_eq_none hlen).mpr h]

theorem check_fails {σ : Type} {s : String} {v1 v2 : List (Typ FT)}
    (h : Typ.canUnifys v1 v2 = false) :
    ∃ e, (check s v1 v2 : Comp (CheckError FT) σ Unit) = Comp.throw e := by
  unfold check
  by_cases hlen : v1.length = v2.length
  · rw [if_pos hlen]
    cases hm : firstMismatch v1 v2 with
    | none =>
        rw [(firstMismatch_eq_none hlen).mp hm] at h
        cases h
    | some p => exact ⟨_, rfl⟩
  · exact ⟨_, if_neg hlen⟩

section

variable {σ τ : Type} {accept : σ → τ → Option σ}

theorem check_follows (s : String) (v1 v2 : List (Typ FT)) :
    Comp.Follows accept (check s v1 v2) (check s v1 v2) := by
  unfold check
  split
  · split
    · exact .throw _
    · exact .pure _
  · exact .throw _

omit [TFlatTyp FT] in
theorem orThrow_follows {α : Type} (e : CheckError FT) (o : Option α) :
    Comp.Follows accept (orThrow e o) (orThrow e o) := by
  cases o with
  | none => exact .throw _
  | some a => exact .pure _

omit [TFlatTyp FT] in
theorem checkMatches_follows (pk : Packages) (ps : List SurfacePattern) :
    Comp.Follows accept (checkMatches pk ps : Comp (CheckError FT) _ _) (checkMatches pk ps) := by
  unfold checkMatches
  split
  · exact .pure _
  · exact .throw _

theorem checkInfix_follows (op : Infix) (typ1 typ2 : Typ FT) :
    Comp.Follows accept (checkInfix op typ1 typ2) (checkInfix op typ1 typ2) := by
  refine (orThrow_follows _ _).bind (fun p => ?_)
  dsimp only
  split_ifs <;> exact (check_follows _ _ _).bind (fun _ => .pure _)

theorem checkIterBody_follows (op : Iter) (typ2 : Typ FT) :
    Comp.Follows accept (checkIterBody op typ2) (checkIterBody op typ2) := by
  unfold checkIterBody
  split_ifs
  · exact check_follows _ _ _
  · exact check_follows _ _ _
  · exact .pure _

theorem iterTyp_follows (op : Iter) (typ1 typ2 : Typ FT) :
    Comp.Follows accept (iterTyp op typ1 typ2) (iterTyp op typ1 typ2) := by
  cases op with
  | filterMap => exact (orThrow_follows _ _).bind (fun _ => .pure _)
  | fold => exact .throw _
  | _ => exact .pure _

omit [TFlatTyp FT] in
theorem callTyp_follows (function : String) (types : List (Typ FT)) (typ : Typ FT) :
    Comp.Follows accept (callTyp function types typ) (callTyp function types typ) := by
  unfold callTyp
  split
  · exact (orThrow_follows _ _).bind (fun _ => .pure _)
  · exact orThrow_follows _ _
  · exact orThrow_follows _ _
  · exact .pure _

theorem checkCall_follows (h : Headers FT) (asyncTag : Bool) (function : String)
    (ms : List (ExprAndMeta FT FL)) :
    Comp.Follows accept (checkCall h asyncTag function ms) (checkCall h asyncTag function ms) := by
  unfold checkCall
  dsimp only
  split
  · split
    · refine (check_follows _ _ _).bind (fun _ => ?_)
      exact (callTyp_follows _ _ _).bind (fun _ => .pure _)
    · exact (callTyp_follows _ _ _).bind (fun _ => .pure _)
  · split
    · split
      · split
        · exact .pure _
        · exact .throw _
      · exact .throw _
    · exact .throw _

variable [TFlatLiteral FT FL] (pk : Packages) (order : List String → List String)
variable (h : Headers FT) {r : Typ FT → Comp (CheckError FT) (List τ) Unit}
variable {r' : Typ FT → Comp (CheckError FT) σ Unit}

mutual
/-- What a state makes of a check is what it makes of the types handed in. -/
theorem fromLocExpr_follows (hr : ∀ t, Comp.Follows accept (r t) (r' t)) (ctxt : Context FT) :
    ∀ e : Parser.Expr F64, Comp.Follows accept
      (fromLocExpr pk order r h ctxt e : Comp _ _ (ExprAndMeta FT FL))
      (fromLocExpr pk order r' h ctxt e)
  | .identExpr id => by
      rw [fromLocExpr, fromLocExpr]
      split
      · exact .pure _
      · exact .throw _
  | .litExpr l => by
      rw [fromLocExpr, fromLocExpr]
      exact .pure _
  | .listExpr es => by
      rw [fromLocExpr, fromLocExpr]
      exact (fromElements_follows hr ctxt _ es).bind (fun _ => .pure _)
  | .tupleExpr es => by
      rw [fromLocExpr, fromLocExpr]
      exact (fromLocExprs_follows hr ctxt es).bind (fun _ => .pure _)
  | .prefixExpr p e1 => by
      rw [fromLocExpr, fromLocExpr]
      refine (fromLocExpr_follows hr ctxt e1).bind (fun m => ?_)
      exact (check_follows _ _ _).bind (fun _ => .pure _)
  | .infixExpr op e1 e2 => by
      rw [fromLocExpr, fromLocExpr]
      refine (fromLocExpr_follows hr ctxt e1).bind (fun m1 => ?_)
      refine (fromLocExpr_follows hr ctxt e2).bind (fun m2 => ?_)
      exact (checkInfix_follows _ _ _).bind (fun _ => .pure _)
  | .ifExpr cond consequence none => by
      rw [fromLocExpr, fromLocExpr]
      refine (fromLocExpr_follows hr ctxt cond).bind (fun m1 => ?_)
      refine (fromBlockStmt_follows hr ctxt consequence).bind (fun m2 => ?_)
      exact (check_follows _ _ _).bind (fun _ => .pure _)
  | .ifExpr cond consequence (some alt) => by
      rw [fromLocExpr, fromLocExpr]
      refine (fromLocExpr_follows hr ctxt cond).bind (fun m1 => ?_)
      refine (fromBlockStmt_follows hr ctxt consequence).bind (fun m2 => ?_)
      refine (fromBlockStmt_follows hr ctxt alt).bind (fun m3 => ?_)
      exact (check_follows _ _ _).bind (fun _ => .pure _)
  | .ifSomeMatchExpr var expr consequence none => by
      rw [fromLocExpr, fromLocExpr]
      refine (fromLocExpr_follows hr ctxt expr).bind (fun m1 => ?_)
      refine (orThrow_follows _ _).bind (fun typ1 => ?_)
      refine (fromBlockStmt_follows hr _ consequence).bind (fun m2 => ?_)
      exact (check_follows _ _ _).bind (fun _ => .pure _)
  | .ifSomeMatchExpr var expr consequence (some alt) => by
      rw [fromLocExpr, fromLocExpr]
      refine (fromLocExpr_follows hr ctxt expr).bind (fun m1 => ?_)
      refine (orThrow_follows _ _).bind (fun typ1 => ?_)
      refine (fromBlockStmt_follows hr _ consequence).bind (fun m2 => ?_)
      refine (fromBlockStmt_follows hr ctxt alt).bind (fun m3 => ?_)
      exact (check_follows _ _ _).bind (fun _ => .pure _)
  | .ifMatchExpr subjects consequence none => by
      rw [fromLocExpr, fromLocExpr]
      refine (fromSubjects_follows hr ctxt subjects).bind (fun ms => ?_)
      refine (check_follows _ _ _).bind (fun _ => ?_)
      refine (checkMatches_follows pk _).bind (fun p => ?_)
      refine (fromBlockStmt_follows hr _ consequence).bind (fun m1 => ?_)
      exact (check_follows _ _ _).bind (fun _ => .pure _)
  | .ifMatchExpr subjects consequence (some a) => by
      rw [fromLocExpr, fromLocExpr]
      refine (fromSubjects_follows hr ctxt subjects).bind (fun ms => ?_)
      refine (check_follows _ _ _).bind (fun _ => ?_)
      refine (checkMatches_follows pk _).bind (fun p => ?_)
      refine (fromBlockStmt_follows hr _ consequence).bind (fun m1 => ?_)
      refine (fromBlockStmt_follows hr ctxt a).bind (fun m2 => ?_)
      exact (check_follows _ _ _).bind (fun _ => .pure _)
  | .iterExpr op idents expr body none => by
      rw [fromLocExpr, fromLocExpr]
      refine (fromLocExpr_follows hr ctxt expr).bind (fun m1 => ?_)
      refine (orThrow_follows _ _).bind (fun lty => ?_)
      refine (orThrow_follows _ _).bind (fun iterVars => ?_)
      refine (fromBlockStmt_follows hr _ body).bind (fun m2 => ?_)
      refine (checkIterBody_follows _ _).bind (fun _ => ?_)
      exact (iterTyp_follows _ _ _).bind (fun _ => .pure _)
  | .iterExpr op idents expr body (some (accName, acc)) => by
      rw [fromLocExpr, fromLocExpr]
      refine (fromLocExpr_follows hr ctxt expr).bind (fun m1 => ?_)
      refine (orThrow_follows _ _).bind (fun lty => ?_)
      refine (orThrow_follows _ _).bind (fun iterVars => ?_)
      dsimp only
      split
      · refine (fromLocExpr_follows hr ctxt acc).bind (fun ma => ?_)
        refine (fromBlockStmt_follows hr _ body).bind (fun m2 => ?_)
        refine (checkIterBody_follows _ _).bind (fun _ => ?_)
        refine (fromLocExpr_follows hr ctxt acc).bind (fun ma' => ?_)
        exact (check_follows _ _ _).bind (fun _ => .pure _)
      · refine (fromBlockStmt_follows hr _ body).bind (fun m2 => ?_)
        exact (checkIterBody_follows _ _).bind (fun _ => .throw _)
  | .callExpr function arguments => by
      rw [fromLocExpr, fromLocExpr]
      refine (fromLocExprs_follows hr ctxt arguments).bind (fun ms => ?_)
      split
      · split
        · exact .pure _
        · exact checkCall_follows _ _ _ _
      · exact checkCall_follows _ _ _ _

theorem fromLocExprs_follows (hr : ∀ t, Comp.Follows accept (r t) (r' t)) (ctxt : Context FT) :
    ∀ es : List (Parser.Expr F64), Comp.Follows accept
      (fromLocExprs pk order r h ctxt es : Comp _ _ (List (ExprAndMeta FT FL)))
      (fromLocExprs pk order r' h ctxt es)
  | [] => by
      rw [fromLocExprs, fromLocExprs]
      exact .pure _
  | e :: es => by
      rw [fromLocExprs, fromLocExprs]
      refine (fromLocExpr_follows hr ctxt e).bind (fun m => ?_)
      exact (fromLocExprs_follows hr ctxt es).bind (fun _ => .pure _)

theorem fromElements_follows (hr : ∀ t, Comp.Follows accept (r t) (r' t)) (ctxt : Context FT)
    (typ : Typ FT) :
    ∀ es : List (Parser.Expr F64), Comp.Follows accept
      (fromElements pk order r h ctxt typ es : Comp _ _ (List (ExprAndMeta FT FL) × Typ FT))
      (fromElements pk order r' h ctxt typ es)
  | [] => by
      rw [fromElements, fromElements]
      exact .pure _
  | e :: es => by
      rw [fromElements, fromElements]
      refine (fromLocExpr_follows hr ctxt e).bind (fun m => ?_)
      refine (check_follows _ _ _).bind (fun _ => ?_)
      exact (fromElements_follows hr ctxt _ es).bind (fun _ => .pure _)

theorem fromSubjects_follows (hr : ∀ t, Comp.Follows accept (r t) (r' t)) (ctxt : Context FT) :
    ∀ ss : List (Parser.Expr F64 × SurfacePattern), Comp.Follows accept
      (fromSubjects pk order r h ctxt ss : Comp _ _ (List (ExprAndMeta FT FL)))
      (fromSubjects pk order r' h ctxt ss)
  | [] => by
      rw [fromSubjects, fromSubjects]
      exact .pure _
  | (e, _) :: ss => by
      rw [fromSubjects, fromSubjects]
      refine (fromLocExpr_follows hr ctxt e).bind (fun m => ?_)
      exact (fromSubjects_follows hr ctxt ss).bind (fun _ => .pure _)

theorem fromBlockStmt_follows (hr : ∀ t, Comp.Follows accept (r t) (r' t)) (ctxt : Context FT) :
    ∀ b : Parser.BlockStmt F64, Comp.Follows accept
      (fromBlockStmt pk order r h ctxt b : Comp _ _ (ExprAndMeta FT FL))
      (fromBlockStmt pk order r' h ctxt b)
  | .mk statements asyncTag => by
      rw [fromBlockStmt, fromBlockStmt]
      exact fromStmts_follows hr _ statements

theorem fromStmts_follows (hr : ∀ t, Comp.Follows accept (r t) (r' t)) (ctxt : Context FT) :
    ∀ ss : List (Parser.Stmt F64), Comp.Follows accept
      (fromStmts pk order r h ctxt ss : Comp _ _ (ExprAndMeta FT FL))
      (fromStmts pk order r' h ctxt ss)
  | [] => by
      rw [fromStmts, fromStmts]
      exact .pure _
  | .returnStmt re :: rest => by
      rw [fromStmts, fromStmts]
      split
      · refine (fromLocExpr_follows hr ctxt re).bind (fun m => ?_)
        exact (hr m.typ).bind (fun _ => .pure _)
      · exact .throw _
  | .exprStmt exp asyncTag semi :: rest => by
      rw [fromStmts, fromStmts]
      refine (fromLocExpr_follows hr _ exp).bind (fun m1 => ?_)
      split
      · exact .pure _
      · split
        · exact .throw _
        · refine (fromStmts_follows hr ctxt rest).bind (fun m2 => ?_)
          split <;> exact .pure _
  | .letStmt ids le :: rest => by
      rw [fromStmts, fromStmts]
      refine (fromLocExpr_follows hr ctxt le).bind (fun m1 => ?_)
      refine (orThrow_follows _ _).bind (fun letVars => ?_)
      exact (fromStmts_follows hr letVars rest).bind (fun _ => .pure _)
end

end

/-! ## What a return type makes of the types handed in -/

theorem setReturn_accept (t : Typ FT) (r : ReturnType FT) :
    match r.accept t with
    | some r' => (setReturn t : Comp (CheckError FT) _ Unit).run r = some (.ok (), r')
    | none => (setReturn t : Comp (CheckError FT) _ Unit).Fails r := by
  cases r with
  | none => exact rfl
  | some rtype =>
      have hall : Typ.canUnifys [t] [rtype] = t.canUnify rtype := by
        rw [Typ.canUnifys_cons, Typ.canUnifys_nil_nil, Bool.and_true]
      unfold ReturnType.accept setReturn
      by_cases h : t.canUnify rtype = true
      · rw [h] at hall
        simp only [h, if_true]
        show (check "return" [t] [rtype] : Comp _ (ReturnType FT) Unit).run _ = _
        rw [check_eq_pure hall]
        rfl
      · rw [Bool.eq_false_iff.mpr h] at hall
        simp only [h]
        obtain ⟨e, he⟩ := check_fails (σ := ReturnType FT) (s := "return") hall
        refine ⟨e, some rtype, ?_⟩
        show (check "return" [t] [rtype] : Comp _ (ReturnType FT) Unit).run _ = _
        rw [he]
        rfl

/-- What the source does with the type of a `return`. -/
theorem setReturn_follows (t : Typ FT) :
    Comp.Follows ReturnType.accept (Comp.record t : Comp (CheckError FT) _ Unit) (setReturn t) :=
  Comp.Follows.record (fun r => by
    have haccept := setReturn_accept t r
    cases hr : r.accept t with
    | none =>
        rw [hr] at haccept
        exact haccept
    | some r' =>
        rw [hr] at haccept
        exact haccept)

/-- All types unify with the first one. -/
def Settled (ts : List (Typ FT)) : Prop := ∀ t ∈ ts.head?, ∀ u ∈ ts, u.canUnify t = true

/-- The types that a return type lets pass. -/
def ReturnType.Admits (r : ReturnType FT) (ts : List (Typ FT)) : Prop :=
  match r with
  | some t => ∀ u ∈ ts, u.canUnify t = true
  | none => Settled ts

theorem feed_some (t : Typ FT) (ts : List (Typ FT)) :
    (Comp.feed ReturnType.accept (some t) ts).isSome = true ↔ ∀ u ∈ ts, u.canUnify t = true := by
  induction ts with
  | nil => simp [Comp.feed]
  | cons u ts ih =>
      rw [Comp.feed, List.forall_mem_cons]
      by_cases h : u.canUnify t = true
      · rw [ReturnType.accept, if_pos h, Option.bind_some, ih]
        simp [h]
      · rw [ReturnType.accept, if_neg h]
        simp [h]

theorem feed_accept (r : ReturnType FT) (ts : List (Typ FT)) :
    (Comp.feed ReturnType.accept r ts).isSome = true ↔ r.Admits ts := by
  cases r with
  | some t => exact feed_some t ts
  | none =>
      cases ts with
      | nil => simp [Comp.feed, ReturnType.Admits, Settled]
      | cons t ts =>
          show (Comp.feed ReturnType.accept (some t) ts).isSome = true ↔ Settled (t :: ts)
          rw [feed_some]
          simp [Settled, Typ.canUnify_self]

end Armour.Lang
