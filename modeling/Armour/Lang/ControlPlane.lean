import Armour.Lang.Policies
import Armour.Lang.Builtins

/-! # The control plane

The flat literals that only the control plane has, and their operators and built-in
functions (`CPFlatLiteral` in `armour-lang/src/literals.rs` and `interpret.rs`).
-/

namespace Armour.Lang

open Armour.Lib

namespace Literal

variable {FT FL : Type} [TFlatTyp FT] [TFlatLiteral FT FL]

mutual
/-- `From<DPLiteral>`. -/
def ofDP : DPLiteral → Literal FL
  | flat l => dp l
  | list ls => list (ofDPs ls)
  | tuple ls => tuple (ofDPs ls)

def ofDPs : List DPLiteral → List (Literal FL)
  | [] => []
  | l :: ls => ofDP l :: ofDPs ls
end

mutual
/-- `From<Literal> for DPLiteral`; `none` is the panic of a literal that only the control
plane has. -/
def toDP? : Literal FL → Option DPLiteral
  | flat l => (TFlatLiteral.toDP? l).map flat
  | list ls => (toDPs? ls).map list
  | tuple ls => (toDPs? ls).map tuple

def toDPs? : List (Literal FL) → Option (List DPLiteral)
  | [] => .some []
  | l :: ls => do
      let d ← toDP? l
      let ds ← toDPs? ls
      .some (d :: ds)
end

end Literal

/-! ## Equality of policies -/

section

variable {FT FL : Type} [TFlatTyp FT] [TFlatLiteral FT FL]

/-- Maps are equal when their entries are, pairwise. -/
def entriesEq {κ ν : Type} [DecidableEq κ] (eq : ν → ν → Bool) :
    List (κ × ν) → List (κ × ν) → Bool
  | [], [] => true
  | (k, v) :: l, (k', v') :: l' => k = k' && eq v v' && entriesEq eq l l'
  | _, _ => false

protected def Program.beq (a b : Program FT FL) : Bool :=
  entriesEq Expr.beq a.code.entries b.code.entries
    && a.externals.beq b.externals
    && entriesEq (fun s t => decide (s = t)) a.headers.entries b.headers.entries

protected def Policies.beq (a b : Policies FT FL) : Bool :=
  entriesEq (fun p q => Program.beq p.program q.program
    && decide (p.fnPolicies.entries = q.fnPolicies.entries)) a.entries b.entries

end

/-! ## Literals -/

/-- `OnboardingData`. -/
structure OnboardingData where
  host : Label
  service : Label
  credentials : String
  port : Option UInt16
  proposedLabels : BTreeSet Label
  ips : BTreeSet IpAddr

namespace OnboardingData

protected def beq (a b : OnboardingData) : Bool :=
  Label.beq a.host b.host && Label.beq a.service b.service && a.credentials = b.credentials
    && a.port = b.port && List.beq a.proposedLabels.elems b.proposedLabels.elems
    && a.ips.elems = b.ips.elems

def hasProposedLabel (o : OnboardingData) (l : Label) : Bool :=
  o.proposedLabels.elems.any l.matchesWith

def hasIp (o : OnboardingData) (ip : IpAddr) : Bool := o.ips.elems.any (· = ip)

end OnboardingData

/-- `OnboardingResult`; the policies are those of ingress and egress. -/
inductive OnboardingResult where
  | ok (id : ID) (ingress egress : DPPolicies)
  | err (message : String) (id : Option ID) (policies : Option (DPPolicies × DPPolicies))

protected def OnboardingResult.beq : OnboardingResult → OnboardingResult → Bool
  | ok i p q, ok i' p' q' => i == i' && Policies.beq p p' && Policies.beq q q'
  | err s i ps, err s' i' ps' => s = s'
      && (match i, i' with
        | none, none => true
        | some i, some i' => i == i'
        | _, _ => false)
      && (match ps, ps' with
        | none, none => true
        | some (p, q), some (p', q') => Policies.beq p p' && Policies.beq q q'
        | _, _ => false)
  | _, _ => false

/-- `CPFlatLiteral`, the flat literals of the control plane. -/
inductive CPFlatLiteral where
  | credentials (value : String)
  | dp (l : DPFlatLiteral)
  | onboardingData (d : OnboardingData)
  | onboardingResult (r : OnboardingResult)
  | policy (p : DPPolicies)
  | primitive (name : String)

abbrev CPLiteral := Literal CPFlatLiteral
abbrev CPExpr := Expr CPFlatLiteral
abbrev DPExpr := Expr DPFlatLiteral
abbrev CPProgram := Program CPFlatTyp CPFlatLiteral
abbrev GlobalPolicy := Policy CPFlatTyp CPFlatLiteral
abbrev GlobalPolicies := Policies CPFlatTyp CPFlatLiteral

namespace CPFlatLiteral

protected def beq : CPFlatLiteral → CPFlatLiteral → Bool
  | credentials a, credentials b => a = b
  | dp a, dp b => a.beq b
  | onboardingData a, onboardingData b => a.beq b
  | onboardingResult a, onboardingResult b => a.beq b
  | policy a, policy b => Policies.beq a b
  | primitive a, primitive b => a = b
  | _, _ => false

/-- `typ` of the trait: note the type of an onboarding result. -/
def typ : CPFlatLiteral → CPFlatTyp
  | credentials _ => .credentials
  | dp l => .dp l.typ
  | onboardingData _ => .onboardingData
  | onboardingResult _ => .onboardingData
  | policy _ => .policy
  | primitive _ => .primitive

def toDP? : CPFlatLiteral → Option DPFlatLiteral
  | dp l => some l
  | _ => none

end CPFlatLiteral

instance : TFlatLiteral CPFlatTyp CPFlatLiteral where
  dp := .dp
  toDP? := CPFlatLiteral.toDP?
  toDP?_dp _ := rfl
  eq_dp {f l} h := by
    cases f <;> first | cases h; rfl | cases h
  beq := CPFlatLiteral.beq
  typ := CPFlatLiteral.typ

/-! ## Operators and built-in functions -/

namespace CPFlatLiteral

/-- A result of the data plane as one of the control plane. -/
def ofChecked (r : Checked (Option DPLiteral)) : Checked (Option CPLiteral) :=
  r.map (Option.map .ofDP)

def evalPrefix (pf : Platform) (self : CPFlatLiteral) (p : Prefix) :
    Checked (Option CPLiteral) :=
  match self with
  | dp l => ofChecked (l.evalPrefix pf p)
  | _ => .ok none

def evalInfix (pf : Platform) (self : CPFlatLiteral) (op : Infix) (other : CPFlatLiteral) :
    Checked (Option CPLiteral) :=
  match op, self, other with
  | .equal, _, _ => .ok (some (.bool (self.beq other)))
  | .notEqual, _, _ => .ok (some (.bool (!self.beq other)))
  | op, dp l1, dp l2 => ofChecked (l1.evalInfix pf op l2)
  | _, _, _ => .ok none

def evalCall0 (pf : Platform) (f : String) : Option CPLiteral :=
  (DPFlatLiteral.evalCall0 pf f).map .ofDP

def evalCall1 (pf : Platform) (self : CPFlatLiteral) (f : String) : Checked (Option CPLiteral) :=
  match f, self with
  | "Label::new", dp (.str s) =>
      match Label.fromStr s with
      | .ok l => .ok (some (.label l))
      | .error _ => .ok none
  | "Label::login_time", dp (.int i) => .ok (some (.label (Label.loginTime i)))
  | "OnboardingData::host", onboardingData o => .ok (some (.label o.host))
  | "OnboardingData::proposed_labels", onboardingData o =>
      .ok (some (.list (o.proposedLabels.elems.map .label)))
  | "OnboardingData::service", onboardingData o => .ok (some (.label o.service))
  | "OnboardingResult::ErrStr", dp (.str e) =>
      .ok (some (.flat (onboardingResult (.err e none none))))
  | f, dp l => ofChecked (l.evalCall1 pf f)
  | _, _ => .ok none

def evalCall2 (pf : Platform) (self : CPFlatLiteral) (f : String) (other : CPFlatLiteral) :
    Checked (Option CPLiteral) :=
  match f, self, other with
  | "OnboardingData::has_proposed_label", onboardingData o, dp (.label l) =>
      .ok (some (.bool (o.hasProposedLabel l)))
  | "OnboardingData::has_ip", onboardingData o, dp (.ipAddr i) =>
      .ok (some (.bool (o.hasIp i)))
  | "OnboardingResult::ErrID", dp (.str e), dp (.id i) =>
      .ok (some (.flat (onboardingResult (.err e (some i) none))))
  | f, dp l1, dp l2 => ofChecked (l1.evalCall2 pf f l2)
  | _, _, _ => .ok none

def evalCall3 (self : CPFlatLiteral) (f : String) (l1 l2 : CPFlatLiteral) : Option CPLiteral :=
  match f, self, l1, l2 with
  | "OnboardingResult::Ok", dp (.id i), policy p, policy q =>
      some (.flat (onboardingResult (.ok i p q)))
  | f, dp l0, dp l1, dp l2 => (l0.evalCall3 f l1 l2).map .ofDP
  | _, _, _, _ => none

def evalCall4 (self : CPFlatLiteral) (f : String) (l1 l2 l3 : CPFlatLiteral) :
    Option CPLiteral :=
  match f, self, l1, l2, l3 with
  | "OnboardingResult::Err", dp (.str e), dp (.id i), policy p, policy q =>
      some (.flat (onboardingResult (.err e (some i) (some (p, q)))))
  | f, dp l0, dp l1, dp l2, dp l3 => (l0.evalCall4 f l1 l2 l3).map .ofDP
  | _, _, _, _, _ => none

end CPFlatLiteral

instance : TInterpret CPFlatLiteral where
  evalPrefix := CPFlatLiteral.evalPrefix
  evalInfix := CPFlatLiteral.evalInfix
  evalCall0 := CPFlatLiteral.evalCall0
  evalCall1 := CPFlatLiteral.evalCall1
  evalCall2 := CPFlatLiteral.evalCall2
  evalCall3 := CPFlatLiteral.evalCall3
  evalCall4 := CPFlatLiteral.evalCall4

end Armour.Lang
