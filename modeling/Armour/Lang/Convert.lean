import Armour.Lang.ControlPlane

/-! # Conversion to the data plane

`From<CPExpr> for DPExpr`, `From<CPProgram> for DPProgram` and `From<GlobalPolicies> for
DPPolicies`.  A conversion is partial: `none` is the panic on a literal or a type that only
the control plane has.  `ofDP` embeds the data plane; a conversion that succeeds is its
inverse.
-/

namespace Armour.Lang

open Armour.Lib

/-! ## Types -/

namespace Typ

mutual
/-- `From<CPTyp> for DPTyp`. -/
def toDP? : CPTyp → Option DPTyp
  | flatTyp t => t.toDP?.map flatTyp
  | list t => (toDP? t).map list
  | tuple ts => (toDPs? ts).map tuple

def toDPs? : List CPTyp → Option (List DPTyp)
  | [] => some []
  | t :: ts => do
      let d ← toDP? t
      let ds ← toDPs? ts
      some (d :: ds)
end

end Typ

/-- `From<CPSignature> for DPSignature`. -/
def Signature.toDP? (s : CPSignature) : Option DPSignature :=
  match s.args with
  | none => s.typ.toDP?.map .any
  | some args => do
      let args ← Typ.toDPs? args
      let t ← s.typ.toDP?
      some (.new args t)

/-! ## Expressions -/

namespace Expr

variable {FT FL : Type} [TFlatTyp FT] [TFlatLiteral FT FL]

mutual
/-- A data-plane expression as one of the plane. -/
def ofDP : DPExpr → Expr FL
  | var x => var x
  | bvar x i => bvar x i
  | litExpr l => litExpr (.ofDP l)
  | returnExpr e => returnExpr (ofDP e)
  | prefixExpr p e => prefixExpr p (ofDP e)
  | infixExpr op e1 e2 => infixExpr op (ofDP e1) (ofDP e2)
  | blockExpr b es => blockExpr b (ofDPs es)
  | letExpr vs e1 e2 => letExpr vs (ofDP e1) (ofDP e2)
  | iter op vs e1 e2 none => iter op vs (ofDP e1) (ofDP e2) none
  | iter op vs e1 e2 (some (x, a)) => iter op vs (ofDP e1) (ofDP e2) (some (x, ofDP a))
  | closure x e => closure x (ofDP e)
  | ifExpr c t none => ifExpr (ofDP c) (ofDP t) none
  | ifExpr c t (some a) => ifExpr (ofDP c) (ofDP t) (some (ofDP a))
  | ifMatchExpr vs ms t none => ifMatchExpr vs (ofDPSubjects ms) (ofDP t) none
  | ifMatchExpr vs ms t (some a) =>
      ifMatchExpr vs (ofDPSubjects ms) (ofDP t) (some (ofDP a))
  | ifSomeMatchExpr e t none => ifSomeMatchExpr (ofDP e) (ofDP t) none
  | ifSomeMatchExpr e t (some a) => ifSomeMatchExpr (ofDP e) (ofDP t) (some (ofDP a))
  | callExpr f args b => callExpr f (ofDPs args) b

def ofDPs : List DPExpr → List (Expr FL)
  | [] => []
  | e :: es => ofDP e :: ofDPs es

def ofDPSubjects : List (DPExpr × Pattern) → List (Expr FL × Pattern)
  | [] => []
  | (e, p) :: ms => (ofDP e, p) :: ofDPSubjects ms
end

mutual
/-- `From<CPExpr> for DPExpr`. -/
def toDP? : Expr FL → Option DPExpr
  | var x => some (var x)
  | bvar x i => some (bvar x i)
  | litExpr l => l.toDP?.map litExpr
  | returnExpr e => (toDP? e).map returnExpr
  | prefixExpr p e => (toDP? e).map (prefixExpr p)
  | infixExpr op e1 e2 => do some (infixExpr op (← toDP? e1) (← toDP? e2))
  | blockExpr b es => (toDPs? es).map (blockExpr b)
  | letExpr vs e1 e2 => do some (letExpr vs (← toDP? e1) (← toDP? e2))
  | iter op vs e1 e2 none => do some (iter op vs (← toDP? e1) (← toDP? e2) none)
  | iter op vs e1 e2 (some (x, a)) => do
      some (iter op vs (← toDP? e1) (← toDP? e2) (some (x, ← toDP? a)))
  | closure x e => (toDP? e).map (closure x)
  | ifExpr c t none => do some (ifExpr (← toDP? c) (← toDP? t) none)
  | ifExpr c t (some a) => do some (ifExpr (← toDP? c) (← toDP? t) (some (← toDP? a)))
  | ifMatchExpr vs ms t none => do
      some (ifMatchExpr vs (← toDPSubjects? ms) (← toDP? t) none)
  | ifMatchExpr vs ms t (some a) => do
      some (ifMatchExpr vs (← toDPSubjects? ms) (← toDP? t) (some (← toDP? a)))
  | ifSomeMatchExpr e t none => do some (ifSomeMatchExpr (← toDP? e) (← toDP? t) none)
  | ifSomeMatchExpr e t (some a) => do
      some (ifSomeMatchExpr (← toDP? e) (← toDP? t) (some (← toDP? a)))
  | callExpr f args b => (toDPs? args).map (fun args => callExpr f args b)

def toDPs? : List (Expr FL) → Option (List DPExpr)
  | [] => some []
  | e :: es => do
      let d ← toDP? e
      let ds ← toDPs? es
      some (d :: ds)

def toDPSubjects? : List (Expr FL × Pattern) → Option (List (DPExpr × Pattern))
  | [] => some []
  | (e, p) :: ms => do
      let d ← toDP? e
      let ds ← toDPSubjects? ms
      some ((d, p) :: ds)
end

end Expr

/-! ## Programs and policies -/

/-- `From<CPProgram> for DPProgram`. -/
def Program.toDP? (p : CPProgram) : Option DPProgram := do
  let code ← p.code.traverse Expr.toDP?
  let headers ← BTreeMap.traverse Signature.toDP? p.headers
  some ⟨code, p.externals, headers⟩

/-- `From<GlobalPolicy> for DPPolicy`. -/
def Policy.toDP? (p : GlobalPolicy) : Option (Policy FlatTyp DPFlatLiteral) := do
  let program ← p.program.toDP?
  some ⟨program, p.fnPolicies⟩

/-- `From<GlobalPolicies> for DPPolicies`. -/
def Policies.toDP? (ps : GlobalPolicies) : Option DPPolicies := ps.traverse Policy.toDP?

end Armour.Lang
