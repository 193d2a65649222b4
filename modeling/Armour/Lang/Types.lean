import Armour.Lib.BTree

/-! # Types

`armour-lang/src/types.rs`.  Types are generic in the flat types of a plane: the
data plane uses `FlatTyp`, the control plane `CPFlatTyp`.  Tuples of length 0
and 1 are the option types, and `!` is the wildcard of unification.
-/

namespace Armour.Lang

open Armour.Lib

inductive FlatTyp where
  | bool | connection | data | f64 | httpRequest | httpResponse | i64 | id | ipAddr
  | label | regex | rreturn | str | unit
deriving DecidableEq, Repr

namespace FlatTyp

def display : FlatTyp → String
  | bool => "bool"
  | connection => "Connection"
  | data => "data"
  | f64 => "f64"
  | httpRequest => "HttpRequest"
  | httpResponse => "HttpResponse"
  | i64 => "i64"
  | id => "ID"
  | ipAddr => "IpAddr"
  | label => "Label"
  | regex => "regex"
  | rreturn => "!"
  | str => "str"
  | unit => "unit"

def tryFromStr (s : String) : Option FlatTyp :=
  [("bool", bool), ("Connection", connection), ("data", data), ("f64", f64),
    ("HttpRequest", httpRequest), ("HttpResponse", httpResponse), ("i64", i64), ("ID", id),
    ("IpAddr", ipAddr), ("Label", label), ("regex", regex), ("str", str),
    ("unit", unit)].lookup s

end FlatTyp

/-- Flat types of the control plane: those of the data plane and five more. -/
inductive CPFlatTyp where
  | credentials
  | dp (t : FlatTyp)
  | onboardingData
  | onboardingResult
  | policy
  | primitive
deriving DecidableEq, Repr

namespace CPFlatTyp

def display : CPFlatTyp → String
  | credentials => "Credentials"
  | dp t => t.display
  | onboardingData => "OnboardingData"
  | onboardingResult => "OnboardingResult"
  | policy => "Policy"
  | primitive => "Primitive"

def tryFromStr (s : String) : Option CPFlatTyp :=
  match s with
  | "Credentials" => some credentials
  | "OnboardingData" => some onboardingData
  | "OnboardingResult" => some onboardingResult
  | "Policy" => some policy
  | "Primitive" => some primitive
  | s => (FlatTyp.tryFromStr s).map dp

/-- `From<CPFlatTyp> for FlatTyp`, which panics on the types of the control plane. -/
def toDP? : CPFlatTyp → Option FlatTyp
  | dp t => some t
  | _ => none

end CPFlatTyp

inductive Typ (FT : Type) where
  | flatTyp (t : FT)
  | list (t : Typ FT)
  | tuple (ts : List (Typ FT))
deriving Repr

/-- Signature of a function; `none` stands for any arguments. -/
structure Signature (FT : Type) where
  args : Option (List (Typ FT))
  typ : Typ FT

abbrev DPTyp := Typ FlatTyp
abbrev CPTyp := Typ CPFlatTyp
abbrev DPSignature := Signature FlatTyp
abbrev CPSignature := Signature CPFlatTyp

/-- `TFlatTyp`: the flat types of a plane contain those of the data plane; `builtins`
and `internalService` are its own tables of headers (`TBuiltin`). -/
class TFlatTyp (FT : Type) where
  decEq : DecidableEq FT
  dp : FlatTyp → FT
  dp_injective : ∀ {a b}, dp a = dp b → a = b
  display : FT → String
  tryFromStr : String → Option FT
  builtins : String → Option (Signature FT)
  internalService : String → Option (Signature FT)

instance (priority := low) {FT : Type} [TFlatTyp FT] : DecidableEq FT := TFlatTyp.decEq

namespace Typ

variable {FT : Type}

mutual
/-- Structural equality (`PartialEq`). -/
def beq [DecidableEq FT] : Typ FT → Typ FT → Bool
  | flatTyp a, flatTyp b => a = b
  | list a, list b => beq a b
  | tuple as, tuple bs => beqs as bs
  | _, _ => false

def beqs [DecidableEq FT] : List (Typ FT) → List (Typ FT) → Bool
  | [], [] => true
  | a :: as, b :: bs => beq a b && beqs as bs
  | _, _ => false
end

mutual
theorem beq_iff [DecidableEq FT] : ∀ a b : Typ FT, beq a b = true ↔ a = b
  | flatTyp a, b => by cases b <;> simp [beq]
  | list a, b => by cases b <;> simp [beq, beq_iff a]
  | tuple as, b => by cases b <;> simp [beq, beqs_iff as]

theorem beqs_iff [DecidableEq FT] : ∀ as bs : List (Typ FT), beqs as bs = true ↔ as = bs
  | [], bs => by cases bs <;> simp [beqs]
  | a :: as, bs => by cases bs <;> simp [beqs, beq_iff a, beqs_iff as]
end

instance [DecidableEq FT] : DecidableEq (Typ FT) :=
  fun a b => decidable_of_iff _ (beq_iff a b)

section

variable [TFlatTyp FT]

def rreturn : Typ FT := flatTyp (TFlatTyp.dp .rreturn)
def unit : Typ FT := flatTyp (TFlatTyp.dp .unit)
def bool : Typ FT := flatTyp (TFlatTyp.dp .bool)
def connection : Typ FT := flatTyp (TFlatTyp.dp .connection)
def data : Typ FT := flatTyp (TFlatTyp.dp .data)
def httpRequest : Typ FT := flatTyp (TFlatTyp.dp .httpRequest)
def httpResponse : Typ FT := flatTyp (TFlatTyp.dp .httpResponse)
def label : Typ FT := flatTyp (TFlatTyp.dp .label)
def i64 : Typ FT := flatTyp (TFlatTyp.dp .i64)
def id : Typ FT := flatTyp (TFlatTyp.dp .id)
def ipAddr : Typ FT := flatTyp (TFlatTyp.dp .ipAddr)
def regex : Typ FT := flatTyp (TFlatTyp.dp .regex)
def str : Typ FT := flatTyp (TFlatTyp.dp .str)

def anyOption : Typ FT := tuple []
def option (t : Typ FT) : Typ FT := tuple [t]

mutual
/-- `unify`: the wildcard and the empty option give way to the other type. -/
def unify (a b : Typ FT) : Typ FT :=
  match a with
  | flatTyp t => if t = TFlatTyp.dp .rreturn then b else flatTyp t
  | list l =>
      if b = rreturn then list l
      else match b with
        | list l' => list (unify l l')
        | _ => list l
  | tuple l =>
      if b = rreturn then tuple l
      else match b with
        | tuple l' =>
            if l.length = 0 then b
            else if l'.length = 0 then tuple l
            else tuple (unifys l l')
        | _ => tuple l

/-- The zip of two tuples: as long as the shorter one. -/
def unifys : List (Typ FT) → List (Typ FT) → List (Typ FT)
  | t :: ts, t' :: ts' => unify t t' :: unifys ts ts'
  | [], _ => []
  | _ :: _, [] => []
end

mutual
def canUnify (a b : Typ FT) : Bool :=
  match a with
  | flatTyp t => t = TFlatTyp.dp .rreturn || b = rreturn || flatTyp t = b
  | list l =>
      b = rreturn || (match b with
        | list l' => canUnify l l'
        | _ => false)
  | tuple l =>
      b = rreturn || (match b with
        | tuple l' => canUnifys l l' || (l.length = 0 && l'.length = 1)
            || (l.length = 1 && l'.length = 0)
        | _ => false)

/-- Equal lengths and componentwise unifiable. -/
def canUnifys : List (Typ FT) → List (Typ FT) → Bool
  | [], [] => true
  | t :: ts, t' :: ts' => canUnify t t' && canUnifys ts ts'
  | _, _ => false
end

/-- `dest_option`: the type under an option type. -/
def destOption : Typ FT → Option (Typ FT)
  | tuple [] => some rreturn
  | tuple [t] => some t
  | _ => none

def destList : Typ FT → Option (Typ FT)
  | list t => some t
  | _ => none

mutual
def display : Typ FT → String
  | flatTyp t => TFlatTyp.display t
  | list t => "List<" ++ display t ++ ">"
  | tuple [] => "Option<?>"
  | tuple [t] => "Option<" ++ display t ++ ">"
  | tuple (t :: ts) => "(" ++ display t ++ displays ts ++ ")"

/-- The remaining components of a tuple, each after a comma. -/
def displays : List (Typ FT) → String
  | [] => ""
  | t :: ts => ", " ++ display t ++ displays ts
end

/-- `intrinsic`: the module whose methods a value of the type has. -/
def intrinsic (t : Typ FT) : Option String :=
  if t = rreturn then none
  else match t with
    | list _ => some "list"
    | tuple ts => if ts.length < 2 then some "option" else none
    | flatTyp _ => some t.display

/-- `type_check`, on the types alone. -/
def typeCheck (v1 v2 : List (Typ FT)) : Bool := canUnifys v1 v2

end

/-- `From<Typ<FlatTyp>> for CPTyp`. -/
def map {FT' : Type} (f : FT → FT') : Typ FT → Typ FT'
  | flatTyp t => flatTyp (f t)
  | list t => list (map f t)
  | tuple ts => tuple (ts.map (map f))

end Typ

namespace Signature

variable {FT FT' : Type}

/-- `Signature::new`. -/
def new (args : List (Typ FT)) (typ : Typ FT) : Signature FT := ⟨some args, typ⟩

/-- `Signature::new_noargs`, also `Signature::any`. -/
def any (typ : Typ FT) : Signature FT := ⟨none, typ⟩

/-- `convertsig`: the control-plane reading of a data-plane signature. -/
def map (f : FT → FT') (s : Signature FT) : Signature FT' :=
  ⟨s.args.map (List.map (Typ.map f)), s.typ.map f⟩

instance [DecidableEq FT] : DecidableEq (Signature FT) := fun a b =>
  decidable_of_iff (a.args = b.args ∧ a.typ = b.typ) (by
    cases a; cases b; simp)

end Signature

end Armour.Lang
