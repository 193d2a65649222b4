import Armour.Lang.ControlPlane
import Armour.Lib.Fuel

/-! # Arguments of external calls

`armour-lang/src/externals.rs`: an argument of an external call is stored in a Cap'n Proto
message by `build_value` and taken out of one by `read_value`.  The builder recurses on the
conversions `From<&_>` of `literals.rs` and not on parts of the literal, so it is a functional
here and `buildValue` its fixed point, which may be undefined.
-/

namespace Armour.Lang

open Armour.Lib

/-! ## Text of a regular expression -/

/-- Documents of the `pretty` crate, less their colours. -/
inductive Doc where
  | nil
  | text (s : String)
  | space
  | append (a b : Doc)
  | nest (n : Nat) (d : Doc)
  | group (d : Doc)

namespace Doc

def bracket (d : Doc) : Doc := .append (.append (.text "(") (.nest 1 d)) (.text ")")

def intersperse (sep : Doc) : List Doc → Doc
  | [] => .nil
  | [d] => d
  | d :: ds => .append (.append d sep) (intersperse sep ds)

end Doc

namespace Pat

def isAlt : Pat → Bool
  | alt _ => true
  | _ => false

def isAltOrSeq : Pat → Bool
  | alt _ | seq _ => true
  | _ => false

/-- `postfix`, on the document of the pattern. -/
def postfixDoc (p : Pat) (d : Doc) (s : String) : Doc :=
  .append (if p.isAltOrSeq then d.bracket else d) (.text s)

mutual
def toDoc : Pat → Doc
  | any => .text "."
  | lit s => .append (.append (.text "\"") (.text s)) (.text "\"")
  | cls s => .text (":" ++ s ++ ":")
  | alt ps =>
      .group (.intersperse (.append (.append .space (.text "|")) .space) (altDocs ps))
  | seq ps => .group (.intersperse .space (seqDocs ps))
  | as id .str => .append (.append (.text "[") (.text id)) (.text "]")
  | as id .i64 =>
      .append (.append (.append (.append (.text "[") (.text id)) (.text " ")) (.text "as"))
        (.text " i64]")
  | as id .base64 =>
      .append (.append (.append (.append (.text "[") (.text id)) (.text " ")) (.text "as"))
        (.text " base64]")
  | opt p => postfixDoc p (toDoc p) "?"
  | star p => postfixDoc p (toDoc p) "*"
  | plus p => postfixDoc p (toDoc p) "+"
  | caseInsensitive p => postfixDoc p (toDoc p) "!"
  | ignoreWhitespace p => postfixDoc p (toDoc p) "%"

def altDocs : List Pat → List Doc
  | [] => []
  | p :: ps => toDoc p :: altDocs ps

def seqDocs : List Pat → List Doc
  | [] => []
  | p :: ps => (if p.isAlt then (toDoc p).bracket else toDoc p) :: seqDocs ps
end

end Pat

/-- `Display`: the layout of the pattern on lines of 80 columns, by the `pretty` crate. -/
def PolicyRegex.display (render : Nat → Doc → String) (r : PolicyRegex) : String :=
  render 80 r.pat.toDoc

/-! ## Messages -/

/-- `external::Value` of `external.capnp`, as a builder has stored it. -/
inductive Value where
  | bool (b : Bool)
  | int64 (i : Int64)
  | float64 (f : F64)
  | text (s : String)
  | data (d : Bytes)
  | unit
  | tuple (ts : List Value)
  | list (ts : List Value)

/-- A value that nothing was stored in: the first member of the union, and no bits set. -/
def Value.empty : Value := .bool false

/-- `external::value::Reader`: the tag may be unknown, a pointer of the message invalid. -/
inductive Reader where
  | bool (b : Bool)
  | int64 (i : Int64)
  | float64 (f : F64)
  | text (t : Except String String)
  | data (d : Except String Bytes)
  | unit
  | tuple (ts : Except String (List Reader))
  | list (ts : Except String (List Reader))
  | notInSchema (tag : UInt16)

mutual
/-- Readers return what the builder stored. -/
def Value.reader : Value → Reader
  | bool b => .bool b
  | int64 i => .int64 i
  | float64 f => .float64 f
  | text s => .text (.ok s)
  | data d => .data (.ok d)
  | unit => .unit
  | tuple ts => .tuple (.ok (readers ts))
  | list ts => .list (.ok (readers ts))

def Value.readers : List Value → List Reader
  | [] => []
  | t :: ts => t.reader :: readers ts
end

section

variable {FT FL : Type} [TFlatTyp FT] [TFlatLiteral FT FL]

mutual
/-- `read_value`. -/
def readValue : Reader → Except String (Literal FL)
  | .bool b => .ok (.bool b)
  | .int64 i => .ok (.int i)
  | .float64 f => .ok (.dp (.float f))
  | .text (.ok s) => .ok (.str s)
  | .text (.error e) => .error e
  | .data (.ok d) => .ok (.data d)
  | .data (.error e) => .error e
  | .unit => .ok .unit
  | .tuple (.ok ts) => (readValues ts).map .tuple
  | .tuple (.error e) => .error e
  | .list (.ok ts) => (readValues ts).map .list
  | .list (.error e) => .error e
  | .notInSchema _ => .error "Enum value or union discriminant was not present in the schema."

def readValues : List Reader → Except String (List (Literal FL))
  | [] => .ok []
  | t :: ts => do
      let l ← readValue t
      let ls ← readValues ts
      .ok (l :: ls)
end

/-! ## Conversions -/

/-- `From<&ID>`. -/
def ID.toLiteral (i : ID) : Literal FL :=
  .tuple [i.hostsLit, i.ipsLit, i.portLit, i.labelsLit]

/-- `From<&Connection>`. -/
def Connection.toLiteral (c : Connection) : Literal FL :=
  .tuple [c.fromId.toLiteral, c.toId.toLiteral, .int c.number]

/-- `From<&HttpRequest>`. -/
def HttpRequest.toLiteral (r : HttpRequest) : Literal FL :=
  .tuple [.str r.method.display, .str r.version.display, .str r.path, .str r.query,
    r.headers.headerPairs, r.connection.toLiteral]

/-- `From<&HttpResponse>`: the reason is not among the parts. -/
def HttpResponse.toLiteral (r : HttpResponse) : Literal FL :=
  .tuple [.str r.version.display, .int (Int64.ofNat r.status.toNat), r.headers.headerPairs,
    r.connection.toLiteral]

end

namespace CPLiteral

/-- `From<&Credentials>`. -/
def ofCredentials (c : String) : CPLiteral := .flat (.credentials c)

/-- `From<&OnboardingData>`. -/
def ofOnboardingData (d : OnboardingData) : CPLiteral := .flat (.onboardingData d)

/-- `From<&OnboardingResult>`. -/
def ofOnboardingResult (r : OnboardingResult) : CPLiteral := .flat (.onboardingResult r)

/-- `From<&Policy>`. -/
def ofPolicy (p : DPPolicies) : CPLiteral := .flat (.policy p)

/-- `From<&Primitive>`. -/
def ofPrimitive (p : String) : CPLiteral := .flat (.primitive p)

end CPLiteral

/-! ## The builder -/

/-- A run of the builder; an error is a panic. -/
abbrev Build := Comp String Unit Value

section

variable {FL : Type}

/-- The loop over the items, from item `i`: slots are found by `i as u32`. -/
def fillFrom (build : Literal FL → Build) :
    Nat → List Value → List (Literal FL) → Comp String Unit (List Value)
  | _, vs, [] => pure vs
  | i, vs, t :: ts =>
      if i % 2 ^ 32 < vs.length then do
        let v ← build t
        fillFrom build (i + 1) (vs.set (i % 2 ^ 32) v) ts
      else Comp.throw "assertion failed: index < self.len()"

/-- `init_tuple(ts.len() as u32)` or `init_list`, and the loop. -/
def buildItems (build : Literal FL → Build) (ts : List (Literal FL)) :
    Comp String Unit (List Value) :=
  fillFrom build 0 (List.replicate (ts.length % 2 ^ 32) .empty) ts

end

/-- `build_value` of the data plane, given the builder for its recursive calls. -/
def DPLiteral.buildStep (render : Nat → Doc → String) (build : DPLiteral → Build) :
    DPLiteral → Build
  | .flat (.bool b) => pure (.bool b)
  | .flat (.connection c) => build c.toLiteral
  | .flat (.data d) => pure (.data d)
  | .flat (.float f) => pure (.float64 f)
  | .flat (.httpRequest r) => build r.toLiteral
  | .flat (.httpResponse r) => build r.toLiteral
  | .flat (.id i) => build i.toLiteral
  | .flat (.int i) => pure (.int64 i)
  | .flat (.ipAddr a) => build a.octetsLit
  | .flat (.label l) => pure (.text l.display)
  | .flat (.regex r) => pure (.text (r.display render))
  | .flat (.str s) => pure (.text s)
  | .flat .unit => pure .unit
  | .tuple ts => .tuple <$> buildItems build ts
  | .list ts => .list <$> buildItems build ts

/-- `build_value` of the control plane; `buildDP` is the builder of the data plane. -/
def CPLiteral.buildStep (buildDP : DPLiteral → Build) (build : CPLiteral → Build) :
    CPLiteral → Build
  | .flat (.dp l) => buildDP (.flat l)
  | .flat (.credentials c) => build (CPLiteral.ofCredentials c)
  | .flat (.onboardingData d) => build (CPLiteral.ofOnboardingData d)
  | .flat (.onboardingResult r) => build (CPLiteral.ofOnboardingResult r)
  | .flat (.policy p) => build (CPLiteral.ofPolicy p)
  | .flat (.primitive p) => build (CPLiteral.ofPrimitive p)
  | .tuple ts => .tuple <$> buildItems build ts
  | .list ts => .list <$> buildItems build ts

/-- The builders of both planes. -/
def Externals.buildStep (render : Nat → Doc → String) :
    Comp.Functional String Unit (DPLiteral ⊕ CPLiteral) Value := fun build lit =>
  match lit with
  | .inl l => DPLiteral.buildStep render (fun l => build (.inl l)) l
  | .inr l => CPLiteral.buildStep (fun l => build (.inl l)) (fun l => build (.inr l)) l

noncomputable def DPLiteral.buildValue (render : Nat → Doc → String) (l : DPLiteral) : Build :=
  Comp.fix (Externals.buildStep render) (.inl l)

noncomputable def CPLiteral.buildValue (render : Nat → Doc → String) (l : CPLiteral) : Build :=
  Comp.fix (Externals.buildStep render) (.inr l)

/-! ## Unfolding the builder -/

theorem fillFrom_limit {FL : Type} {f : Nat → Literal FL → Build} {m : Literal FL → Build}
    (h : ∀ l, Comp.Limit (fun n => f n l) (m l)) (ts : List (Literal FL)) :
    ∀ i vs, Comp.Limit (fun n => fillFrom (f n) i vs ts) (fillFrom m i vs ts) := by
  induction ts with
  | nil =>
      intro i vs
      exact Comp.Limit.const _
  | cons t ts ih =>
      intro i vs
      by_cases hi : i % 2 ^ 32 < vs.length
      · simp only [fillFrom, if_pos hi]
        exact (h t).bind (fun v => ih _ _)
      · simp only [fillFrom, if_neg hi]
        exact Comp.Limit.const _

theorem Externals.buildStep_continuous (render : Nat → Doc → String) :
    Comp.Continuous (Externals.buildStep render) := by
  intro f m h lit
  rcases lit with l | l
  · rcases l with l | ts | ts
    · cases l <;> first | exact Comp.Limit.const _ | exact h _
    · exact (fillFrom_limit (fun l => h (.inl l)) ts _ _).map _
    · exact (fillFrom_limit (fun l => h (.inl l)) ts _ _).map _
  · rcases l with l | ts | ts
    · cases l <;> exact h _
    · exact (fillFrom_limit (fun l => h (.inr l)) ts _ _).map _
    · exact (fillFrom_limit (fun l => h (.inr l)) ts _ _).map _

theorem DPLiteral.buildValue_eq (render : Nat → Doc → String) (l : DPLiteral) :
    DPLiteral.buildValue render l =
      DPLiteral.buildStep render (DPLiteral.buildValue render) l :=
  Comp.Continuous.fix_eq (Externals.buildStep_continuous render) (.inl l)

theorem CPLiteral.buildValue_eq (render : Nat → Doc → String) (l : CPLiteral) :
    CPLiteral.buildValue render l =
      CPLiteral.buildStep (DPLiteral.buildValue render) (CPLiteral.buildValue render) l :=
  Comp.Continuous.fix_eq (Externals.buildStep_continuous render) (.inr l)

end Armour.Lang
