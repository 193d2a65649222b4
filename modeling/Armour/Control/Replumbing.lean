import Armour.Control.Soundness
import Armour.Control.Specialize
import Armour.Lang.Plugging

/-! # Arguments of specialized functions

`compile_egress_ingress` of `armour-control/src/specialize.rs` with partial evaluation taken as
the identity: the identity of the service goes in for one parameter, a call on the local request
for the other one, and the local parameters are bound again.
-/

namespace Armour.Control

open Armour.Lib Armour.Lang

/-- The entry functions that can be specialized. -/
inductive EntryFunction where
  | restRequest | restResponse | tcpConnection | tcpDisconnect
deriving DecidableEq

namespace EntryFunction

def name : EntryFunction → String
  | restRequest => allowRestRequest
  | restResponse => allowRestResponse
  | tcpConnection => allowTcpConnection
  | tcpDisconnect => onTcpDisconnect

/-- Number of local parameters: those but the two identities. -/
def locals : EntryFunction → Nat
  | restRequest | restResponse => 2
  | tcpConnection => 1
  | tcpDisconnect => 3

/-- The call that finds the other identity in the first local argument. -/
def getter (f : EntryFunction) (egress : Bool) : String :=
  (match f with
    | restRequest => "HttpRequest::"
    | restResponse => "HttpResponse::"
    | tcpConnection | tcpDisconnect => "Connection::") ++ direction egress

theorem expectedSig_length (f : EntryFunction) :
    (expectedSig f.name).map (fun sig => (sig.args.getD []).length) = some (f.locals + 2) := by
  cases f <;> rfl

theorem localSig_length (f : EntryFunction) (ret : CPTyp) :
    (localSig f.name ret).map (fun sig => (sig.args.getD []).length) = some f.locals := by
  cases f <;> rfl

end EntryFunction

/-- Bind the parameters, the first one outermost. -/
def closures (params : List String) (e : CPExpr) : CPExpr := params.foldr Expr.closure e

/-- Number of the parameters that are bound. -/
def arity : CPExpr → Nat
  | .closure _ e => arity e + 1
  | _ => 0

/-- The code of a function of `n` parameters: the parser and the type check give a closed term
that binds all of them. -/
structure GlobalFunction (n : Nat) where
  params : List String
  body : CPExpr
  length_params : params.length = n
  inScope : body.wellScoped n = true
  notClosure : body.isClosure = false

namespace GlobalFunction

def code {n : Nat} (f : GlobalFunction n) : CPExpr := closures f.params f.body

end GlobalFunction

/-- The function that is built, without partial evaluation. -/
def replumb (egress : Bool) (f : EntryFunction) (id : ID) (fexpr : CPExpr) : Option CPExpr :=
  match serviceBody egress (f.locals + 2) id fexpr with
  | none => none
  | some body => match wrap egress f.name body with
    | .ok e => some e
    | .error _ => none

/-- What belongs in the place of the parameters, last parameter first, in terms of the local
ones: these, and the two identities. -/
def replacements (egress : Bool) (f : EntryFunction) (x : String) (id : ID) :
    List (String → CPExpr) :=
  (List.range f.locals).map (fun j y => .bvar y j) ++
    if egress then [fun _ => .call (f.getter egress) [.bvar x (f.locals - 1)],
      fun _ => .litExpr (.id id)]
    else [fun _ => .litExpr (.id id),
      fun _ => .call (f.getter egress) [.bvar x (f.locals - 1)]]

/-- Arguments of the global function, from those of the local one and the other identity. -/
def globalArgs (egress : Bool) (id : ID) (other : CPLiteral) (ls : List CPLiteral) :
    List CPLiteral :=
  (if egress then [.id id, other] else [other, .id id]) ++ ls

/-- The function that is built has the arity of the local signature and no free variable, its
body is that of the global function with every parameter in its place, none captured, and on all
arguments it evaluates as the global function does with the identity of the service and the one
that is derived from the first argument. -/
structure Replumbed (egress : Bool) (f : EntryFunction) (id : ID)
    (fn : GlobalFunction (f.locals + 2)) (g : CPExpr) : Prop where
  arity : arity g = f.locals
  closed : g.wellScoped 0 = true
  uncaptured : ∃ params x, g = closures params (fn.body.plug (replacements egress f x id))
  agrees : ∀ (env : Env CPFlatLiteral) (ls : List CPLiteral), ls.length = f.locals →
    ∀ other, (∀ l, ls.head? = some l →
      eval env (.call (f.getter egress) [.litExpr l]) = pure (.lit other)) →
    runApp env [] g (.ofLits ls) =
      runApp env [] fn.code (.ofLits (globalArgs egress id other ls))

/-- The parameter that holds the other identity, as an index of the body. -/
def otherIndex (egress : Bool) (f : EntryFunction) : Nat :=
  if egress then f.locals else f.locals + 1

/-- The other identity is not used under a binder: inside of a `let`, an iterator or a match. -/
def OtherOutside (egress : Bool) (f : EntryFunction) (e : CPExpr) : Prop :=
  e.allVars (fun _ _ => true) (fun k _ j => j != k + otherIndex egress f || k == 0) 0 = true

/-! ## Bound parameters -/

theorem psubst_closures (params : List String) {e : CPExpr} (he : e.isClosure = false) (i : Nat)
    (u : CPExpr) : (closures params e).psubst i u = closures params (e.subst i u true) := by
  induction params with
  | nil =>
      show e.psubst i u = e.subst i u true
      cases e with
      | closure x e => cases he
      | _ => rfl
  | cons p ps ih => exact congrArg (Expr.closure p) ih

theorem atDepth_closures (params : List String) {e : CPExpr} (he : e.isClosure = false) :
    (closures params e).atDepth params.length = some e := by
  induction params with
  | nil =>
      show e.atDepth 0 = some e
      cases e with
      | closure x e => cases he
      | _ => rfl
  | cons p ps ih => exact ih

theorem arity_of_not_closure {e : CPExpr} (he : e.isClosure = false) : Control.arity e = 0 := by
  cases e with
  | closure x e => cases he
  | _ => rfl

theorem arity_closures (params : List String) {e : CPExpr} (he : e.isClosure = false) :
    Control.arity (closures params e) = params.length := by
  induction params with
  | nil => exact arity_of_not_closure he
  | cons p ps ih => exact congrArg (· + 1) ih

theorem wellScoped_closures (params : List String) (e : CPExpr) (n : Nat) :
    (closures params e).wellScoped n = e.wellScoped (n + params.length) := by
  induction params generalizing n with
  | nil => rfl
  | cons p ps ih =>
      show (closures ps e).wellScoped (n + 1) = _
      rw [ih, List.length_cons, show n + 1 + ps.length = n + (ps.length + 1) by omega]

/-- Literals and calls are no closures, so replacing indices by them makes none. -/
theorem isClosure_subst {u : CPExpr} (hu : u.isClosure = false) (e : CPExpr) (i : Nat) (b : Bool) :
    (e.subst i u b).isClosure = e.isClosure := by
  refine Expr.isClosure_mapVars (fun k x j => ?_) e i
  unfold Expr.substVar
  split
  · rfl
  · split
    · split
      · rw [Expr.isClosure_shift, hu]
      · exact hu
    · rfl

/-- The body of the service: its identity goes in for the first or the second parameter. -/
theorem serviceBody_code {k : Nat} (fn : GlobalFunction (k + 2)) (egress : Bool) (id : ID) :
    serviceBody egress (k + 2) id fn.code =
      some (fn.body.subst (if egress then k + 1 else k) (.litExpr (.id id)) true) := by
  obtain ⟨params, body, hlen, -, hbody⟩ := fn
  show serviceBody egress (k + 2) id (closures params body) =
    some (body.subst (if egress then k + 1 else k) (.litExpr (.id id)) true)
  have hsub : ∀ i, (body.subst i (.litExpr (.id id)) true).isClosure = false :=
    fun i => (isClosure_subst rfl body i true).trans hbody
  rcases params with _ | ⟨p, _ | ⟨q, ps⟩⟩
  · cases hlen
  · simp at hlen
  · have hps : ps.length = k := by simpa using hlen
    subst hps
    cases egress with
    | true =>
        show ((closures (q :: ps) body).psubst (ps.length + 1) _).atDepth (q :: ps).length = _
        rw [psubst_closures (q :: ps) hbody, atDepth_closures _ (hsub _)]
        rfl
    | false =>
        show (Expr.closure p ((closures ps body).psubst ps.length _)).atDepth (p :: ps).length = _
        rw [psubst_closures ps hbody]
        exact atDepth_closures (p :: ps) (hsub _)

/-! ## Substitution under binders -/

section

variable (egress : Bool) (f : EntryFunction) (x : String) (id : ID)

/-- The call that is put in for the other identity. -/
def getCall : CPExpr := .call (f.getter egress) [.bvar x (f.locals - 1)]

/-- The body of the function that is built. -/
def localBody (body : CPExpr) : CPExpr :=
  (body.subst (if egress then f.locals + 1 else f.locals) (.litExpr (.id id)) true).subst f.locals
    (getCall egress f x) false

/-- What the two substitutions put for an index. -/
def localVar (c : Nat) (y : String) (j : Nat) : CPExpr :=
  Expr.mapVars (fun _ z => .var z) (Expr.substVar (getCall egress f x) false) (c + f.locals)
    (Expr.substVar (.litExpr (.id id)) true (c + if egress then f.locals + 1 else f.locals) y j)

theorem localBody_eq (body : CPExpr) :
    localBody egress f x id body =
      Expr.mapVars (fun _ z => .var z) (localVar egress f x id) 0 body := by
  have h := Expr.mapVars_mapVars (fun _ z => .var z) (fun _ z => .var z)
    (Expr.substVar (.litExpr (.id id)) true) (Expr.substVar (getCall egress f x) false)
    f.locals (if egress then f.locals + 1 else f.locals) body 0
  rw [Nat.zero_add, Nat.zero_add] at h
  exact h

theorem raise_getCall (c : Nat) :
    (getCall egress f x).raise c = .call (f.getter egress) [.bvar x (f.locals - 1 + c)] := rfl

/-- A local parameter stays, and everything that is bound inside. -/
theorem localVar_local {c j : Nat} (y : String) (hj : j < c + f.locals) :
    localVar egress f x id c y j = .bvar y j ∧
      Expr.plugVar (replacements egress f x id) c y j = .bvar y j := by
  constructor
  · have h1 : j < c + if egress then f.locals + 1 else f.locals := by split <;> omega
    unfold localVar
    rw [Expr.substVar, if_pos h1]
    show Expr.substVar _ _ _ y j = _
    rw [Expr.substVar, if_pos hj]
  · unfold Expr.plugVar
    by_cases hc : j < c
    · rw [if_pos hc]
    · have hlt : j - c < ((List.range f.locals).map
          (fun j y => (.bvar y j : CPExpr))).length := by
        rw [List.length_map, List.length_range]
        omega
      rw [if_neg hc, replacements, List.getElem?_append_left hlt, List.getElem?_map,
        List.getElem?_range (by omega)]
      show Expr.bvar y (j - c + c) = .bvar y j
      rw [Nat.sub_add_cancel (by omega)]

theorem getElem?_replacements (i : Nat) : (replacements egress f x id)[f.locals + i]? =
    (if egress then [fun _ => getCall egress f x, fun _ => .litExpr (.id id)]
      else [fun _ => .litExpr (.id id), fun _ => getCall egress f x] :
        List (String → CPExpr))[i]? := by
  have hlen : ((List.range f.locals).map (fun j y => (.bvar y j : CPExpr))).length = f.locals := by
    rw [List.length_map, List.length_range]
  rw [replacements, List.getElem?_append_right (by omega), hlen, Nat.add_sub_cancel_left]
  rfl

/-- The two identities: that of the service is the same everywhere, the call is not raised. -/
theorem localVar_identity {c j : Nat} (y : String) (hj : j = c + f.locals ∨ j = c + f.locals + 1) :
    if j = c + otherIndex egress f then localVar egress f x id c y j = getCall egress f x ∧
      Expr.plugVar (replacements egress f x id) c y j = (getCall egress f x).raise c
    else localVar egress f x id c y j = .litExpr (.id id) ∧
      Expr.plugVar (replacements egress f x id) c y j = .litExpr (.id id) := by
  have hplug : ∀ i u, j = c + f.locals + i →
      (replacements egress f x id)[f.locals + i]? = some (fun _ => u) →
      Expr.plugVar (replacements egress f x id) c y j = u.raise c := by
    intro i u hji hu
    have h1 : ¬ j < c := by omega
    have h2 : j - c = f.locals + i := by omega
    rw [Expr.plugVar, if_neg h1, h2, hu]
  have hlit : ∀ {c : Nat}, Expr.raise (.litExpr (.id id) : CPExpr) c = .litExpr (.id id) := rfl
  have hshift : ∀ i, Expr.shift (.litExpr (.id id) : CPExpr) i 0 = .litExpr (.id id) :=
    fun i => Expr.shift_of_wellScoped rfl i
  have hlow : ∀ {i : Nat} {u : CPExpr} {b : Bool} {z : String} {j : Nat}, j < i →
      Expr.substVar u b i z j = .bvar z j := fun hlt => if_pos hlt
  have hget : Expr.substVar (getCall egress f x) false (c + f.locals) y (c + f.locals) =
      getCall egress f x := by
    rw [Expr.substVar, if_neg (Nat.lt_irrefl _), if_pos rfl, if_neg Bool.false_ne_true]
  have hid : ∀ i, Expr.substVar (.litExpr (.id id) : CPExpr) true i y i = .litExpr (.id id) := by
    intro i
    rw [Expr.substVar, if_neg (Nat.lt_irrefl _), if_pos rfl, if_pos rfl, hshift]
  unfold otherIndex localVar
  cases egress with
  | true =>
      simp only [if_true, ← Nat.add_assoc]
      rcases hj with rfl | rfl
      · rw [if_pos rfl, hlow (Nat.lt_succ_self _)]
        exact ⟨hget, hplug 0 _ rfl (getElem?_replacements true f x id 0)⟩
      · rw [if_neg (by omega), hid]
        refine ⟨rfl, ?_⟩
        rw [hplug 1 _ rfl (getElem?_replacements true f x id 1), hlit]
  | false =>
      simp only [Bool.false_eq_true, if_false, ← Nat.add_assoc]
      rcases hj with rfl | rfl
      · rw [if_neg (by omega), hid]
        refine ⟨rfl, ?_⟩
        rw [hplug 0 _ rfl (getElem?_replacements false f x id 0), hlit]
      · -- the index moves down when the other identity is replaced
        have hdown : Expr.substVar (.litExpr (.id id) : CPExpr) true (c + f.locals) y
            (c + f.locals + 1) = .bvar y (c + f.locals) := by
          rw [Expr.substVar, if_neg (by omega), if_neg (by omega), if_pos rfl,
            Nat.add_sub_cancel]
        rw [if_pos rfl, hdown]
        exact ⟨hget, hplug 1 _ rfl (getElem?_replacements false f x id 1)⟩

/-- Nothing is captured when the other identity is not used under a binder, and only then. -/
theorem localBody_eq_plug {body : CPExpr} (hbody : body.wellScoped (f.locals + 2) = true) :
    (∃ z, localBody egress f x id body = body.plug (replacements egress f z id)) ↔
      OtherOutside egress f body := by
  rw [localBody_eq]
  constructor
  · rintro ⟨z, hz⟩
    refine Expr.allVars_of_mapVars_eq (fun c y j heq => ?_) body 0 hz
    by_contra hbad
    simp only [Bool.or_eq_true, bne_iff_ne, ne_eq, beq_iff_eq, not_or, not_not] at hbad
    obtain ⟨rfl, hc⟩ := hbad
    have hidx : c + otherIndex egress f = c + f.locals ∨
        c + otherIndex egress f = c + f.locals + 1 := by
      unfold otherIndex
      split
      · exact Or.inl rfl
      · exact Or.inr rfl
    have h := localVar_identity egress f x id y hidx
    have h' := localVar_identity egress f z id y hidx
    rw [if_pos rfl] at h h'
    rw [h.1, h'.2, raise_getCall] at heq
    -- a call that is raised differs from the one that is not
    have hindex : x = z ∧ f.locals - 1 = f.locals - 1 + c := by
      simpa [getCall, Expr.call] using heq
    omega
  · intro hout
    have hscope : body.allVars (fun _ _ => false) (fun c _ j => j < c) (0 + (f.locals + 2)) =
        true := by
      rw [Nat.zero_add]
      exact hbody
    have hall : body.allVars (fun _ _ => true) (fun c _ j => decide (j < c + (f.locals + 2)) &&
        (j != c + otherIndex egress f || c == 0)) 0 = true := by
      refine @Expr.allVars_of_forall CPFlatLiteral Bool
        (fun b => if b then f.locals + 2 else 0) (fun b _ _ => !b)
        (fun b c _ j => if b then decide (j < c) else j != c + otherIndex egress f || c == 0)
        _ _ (fun _ _ _ => rfl) (fun c y j hj => ?_) body 0 (fun b => ?_)
      · have h1 := hj true
        have h2 := hj false
        simp only [if_true, Bool.false_eq_true, if_false, Nat.add_zero] at h1 h2
        rw [h1, h2]
        rfl
      · cases b with
        | true => exact hscope
        | false => exact hout
    refine ⟨x, Expr.mapVars_congr body 0 hall (fun _ _ _ => rfl) (fun c y j hj => ?_)⟩
    obtain ⟨hlt, hother⟩ := Bool.and_eq_true_iff.mp hj
    have hlt : j < c + (f.locals + 2) := of_decide_eq_true hlt
    by_cases hlocal : j < c + f.locals
    · obtain ⟨h1, h2⟩ := localVar_local egress f x id y hlocal
      rw [h1, h2]
    · have h := localVar_identity egress f x id y
        (show j = c + f.locals ∨ j = c + f.locals + 1 by omega)
      split at h
      · rename_i heq
        have hc : c = 0 := by
          subst heq
          simpa using hother
        rw [h.1, h.2, hc, Expr.raise_zero]
      · rw [h.1, h.2]

theorem isClosure_localBody (body : CPExpr) :
    (localBody egress f x id body).isClosure = body.isClosure :=
  (isClosure_subst rfl _ _ _).trans (isClosure_subst rfl _ _ _)

theorem isClosure_replacements {u : String → CPExpr} (hu : u ∈ replacements egress f x id)
    (y : String) : (u y).isClosure = false := by
  rcases List.mem_append.mp hu with hu | hu
  · obtain ⟨j, -, rfl⟩ := List.mem_map.mp hu
    rfl
  · cases egress with
    | true =>
        rcases List.mem_pair.mp hu with rfl | rfl
        · rfl
        · rfl
    | false =>
        rcases List.mem_pair.mp hu with rfl | rfl
        · rfl
        · rfl

theorem isClosure_plug (body : CPExpr) :
    (body.plug (replacements egress f x id)).isClosure = body.isClosure := by
  refine Expr.isClosure_mapVars (fun k y j => ?_) body 0
  unfold Expr.plugVar
  split
  · rfl
  · split
    · rename_i u hu
      rw [Expr.isClosure_raise]
      exact isClosure_replacements egress f x id (List.mem_of_getElem? hu) y
    · rfl

theorem length_replacements : (replacements egress f x id).length = f.locals + 2 := by
  cases egress <;> simp [replacements]

/-- Every replacement is closed over the local parameters. -/
theorem wellScoped_replacements {u : String → CPExpr} (hu : u ∈ replacements egress f x id)
    (y : String) : (u y).wellScoped f.locals = true := by
  have hlocals : 0 < f.locals := by cases f <;> decide
  have hget : (getCall egress f x).wellScoped f.locals = true := by
    simpa [getCall, Expr.wellScoped, Expr.call, Expr.allVars, Expr.allVarsList] using Nat.sub_lt hlocals Nat.one_pos
  rcases List.mem_append.mp hu with hu | hu
  · obtain ⟨j, hj, rfl⟩ := List.mem_map.mp hu
    exact decide_eq_true (List.mem_range.mp hj)
  · cases egress with
    | true =>
        rcases List.mem_pair.mp hu with rfl | rfl
        · exact hget
        · rfl
    | false =>
        rcases List.mem_pair.mp hu with rfl | rfl
        · rfl
        · exact hget

end

/-! ## The function that is built -/

section

variable (egress : Bool) (f : EntryFunction) (id : ID) (fn : GlobalFunction (f.locals + 2))

/-- The names that the source gives to the local parameters. -/
def localParams : EntryFunction → List String
  | .restRequest | .restResponse => ["req", "payload"]
  | .tcpConnection => ["con"]
  | .tcpDisconnect => ["conn", "i", "j"]

def requestName : EntryFunction → String
  | .restRequest | .restResponse => "req"
  | .tcpConnection | .tcpDisconnect => "conn"

theorem length_localParams : (localParams f).length = f.locals := by cases f <;> rfl

theorem replumb_eq (hf : f ≠ .tcpDisconnect) : replumb egress f id fn.code =
    some (closures (localParams f) (localBody egress f (requestName f) id fn.body)) := by
  unfold replumb
  rw [serviceBody_code]
  cases f with
  | tcpDisconnect => exact absurd rfl hf
  | _ => rfl

/-- A connection that ends: all parameters are bound once more. -/
theorem arity_disconnect (fn : GlobalFunction (EntryFunction.tcpDisconnect.locals + 2))
    {g : CPExpr} (h : replumb egress .tcpDisconnect id fn.code = some g) : arity g = 7 := by
  unfold replumb at h
  rw [serviceBody_code] at h
  obtain rfl := Option.some.inj h
  -- under the local parameters stand four more, and a body
  have hzero := arity_of_not_closure ((isClosure_subst (u := getCall egress .tcpDisconnect "conn")
    rfl _ 7 false).trans ((isClosure_subst (u := .litExpr (.id id)) rfl fn.body
      (if egress then EntryFunction.tcpDisconnect.locals + 1
        else EntryFunction.tcpDisconnect.locals) true).trans fn.notClosure))
  exact congrArg (· + 7) hzero

/-- The values of the parameters, last one first. -/
def values (other : CPLiteral) (ls : List CPLiteral) : List CPOutcome :=
  (ls.map Outcome.lit).reverse ++
    if egress then [.lit other, .lit (.id id)] else [.lit (.id id), .lit other]

theorem globalArgs_reverse (other : CPLiteral) (ls : List CPLiteral) :
    ((globalArgs egress id other ls).map Outcome.lit).reverse = values egress id other ls := by
  cases egress <;> simp [globalArgs, values]

variable (x : String)

theorem length_values {ls : List CPLiteral} (hls : ls.length = f.locals) (other : CPLiteral) :
    (replacements egress f x id).length = (values egress id other ls).length := by
  rw [length_replacements, ← hls]
  cases egress <;> simp [values]

/-- The call on the first local parameter has the value of the other identity. -/
theorem run_getCall {env : Env CPFlatLiteral} {ls : List CPLiteral} (hls : ls.length = f.locals)
    {other : CPLiteral} (hother : ∀ l, ls.head? = some l →
      eval env (.call (f.getter egress) [.litExpr l]) = pure (.lit other)) :
    Lang.run env (ls.map Outcome.lit).reverse (getCall egress f x) = pure (.lit other) := by
  have hlocals : 0 < f.locals := by cases f <;> decide
  obtain ⟨l, rest, rfl⟩ := List.exists_cons_of_length_pos (hls ▸ hlocals)
  have hrest : rest.length = f.locals - 1 := by
    rw [← hls]
    rfl
  have hindex : (((l :: rest).map Outcome.lit).reverse)[f.locals - 1]? = some (.lit l) := by
    rw [List.map_cons, List.reverse_cons, List.getElem?_append_right (by simp [hrest])]
    simp [hrest]
  rw [← hother l rfl, Lang.run]
  refine congrArg (eval env) ?_
  show Expr.mapVars _ _ 0 (.callExpr _ [.bvar x (f.locals - 1)] false) = _
  rw [Expr.mapVars_callExpr, List.map_singleton]
  simp only [Expr.mapVars, Expr.instVar, Nat.not_lt_zero, if_false, Nat.sub_zero, hindex]
  rfl

theorem run_replacement {env : Env CPFlatLiteral} {ls : List CPLiteral}
    (hls : ls.length = f.locals) {other : CPLiteral} (hother : ∀ l, ls.head? = some l →
      eval env (.call (f.getter egress) [.litExpr l]) = pure (.lit other)) :
    ∀ (i : Nat) (u : String → CPExpr) (o : CPOutcome),
      (replacements egress f x id)[i]? = some u → (values egress id other ls)[i]? = some o →
      ∀ y, Lang.run env (ls.map Outcome.lit).reverse (u y) = pure o := by
  have hlen : (ls.map Outcome.lit).reverse.length = f.locals := by simp [hls]
  intro i u o hu ho y
  by_cases hi : i < f.locals
  · -- a local parameter
    have hlt : i < ((List.range f.locals).map (fun j y => (.bvar y j : CPExpr))).length := by
      rw [List.length_map, List.length_range]
      exact hi
    rw [replacements, List.getElem?_append_left hlt, List.getElem?_map,
      List.getElem?_range hi] at hu
    rw [values, List.getElem?_append_left (by rw [hlen]; exact hi)] at ho
    obtain rfl := Option.some.inj hu
    exact run_bvar env y ho
  · obtain ⟨j, rfl⟩ := Nat.exists_eq_add_of_le (Nat.le_of_not_lt hi)
    have hget := run_getCall egress f x hls hother
    have hid : Lang.run env (ls.map Outcome.lit).reverse (.litExpr (.id id)) =
        pure (.lit (.id id)) := run_litExpr _ _
    rw [getElem?_replacements] at hu
    rw [values, List.getElem?_append_right (by omega), hlen, Nat.add_sub_cancel_left] at ho
    cases egress with
    | true =>
        match j, hu, ho with
        | 0, hu, ho =>
            cases hu
            cases ho
            exact hget
        | 1, hu, ho =>
            cases hu
            cases ho
            exact hid
        | _ + 2, hu, _ => cases hu
    | false =>
        match j, hu, ho with
        | 0, hu, ho =>
            cases hu
            cases ho
            exact hid
        | 1, hu, ho =>
            cases hu
            cases ho
            exact hget
        | _ + 2, hu, _ => cases hu

omit x in
/-- The function is built as it should be when the other identity is not used under a binder,
except for the end of a connection, which is never built so. -/
theorem replumbed_iff : (∃ g, replumb egress f id fn.code = some g ∧ Replumbed egress f id fn g) ↔
    f ≠ .tcpDisconnect ∧ OtherOutside egress f fn.body := by
  constructor
  · rintro ⟨g, hg, hr⟩
    have hf : f ≠ .tcpDisconnect := by
      rintro rfl
      have h := arity_disconnect egress id fn hg
      rw [hr.arity] at h
      cases h
    refine ⟨hf, ?_⟩
    rw [replumb_eq egress f id fn hf] at hg
    obtain rfl := Option.some.inj hg
    obtain ⟨params, z, heq⟩ := hr.uncaptured
    have hlocal := (isClosure_localBody egress f (requestName f) id fn.body).trans fn.notClosure
    have hplug := (isClosure_plug egress f z id fn.body).trans fn.notClosure
    -- as many parameters on both sides, and so the same body
    have hlen : (localParams f).length = params.length := by
      rw [← arity_closures _ hlocal, ← arity_closures _ hplug, heq]
    have hbody := atDepth_closures (localParams f) hlocal
    rw [heq, hlen, atDepth_closures params hplug] at hbody
    exact (localBody_eq_plug egress f (requestName f) id fn.inScope).mp
      ⟨z, (Option.some.inj hbody).symm⟩
  · rintro ⟨hf, hout⟩
    obtain ⟨z, hz⟩ := (localBody_eq_plug egress f (requestName f) id fn.inScope).mpr hout
    have hplug := (isClosure_plug egress f z id fn.body).trans fn.notClosure
    refine ⟨_, replumb_eq egress f id fn hf, ?_, ?_, ⟨localParams f, z, by rw [hz]⟩, ?_⟩
    · rw [hz, arity_closures _ hplug, length_localParams]
    · rw [hz, wellScoped_closures, Nat.zero_add, length_localParams]
      refine Expr.wellScoped_plug (fun u hu y => wellScoped_replacements egress f z id hu y) ?_
      rw [length_replacements]
      exact fn.inScope
    · intro env ls hls other hother
      rw [hz]
      have hlocal : runApp env [] (closures (localParams f)
            (fn.body.plug (replacements egress f z id))) (.ofLits ls) =
          Lang.run env (ls.map Outcome.lit).reverse
            (fn.body.plug (replacements egress f z id)) := by
        have h := @runApp_atDepth env _ _ _ (atDepth_closures (localParams f) hplug) ls
          (hls.trans (length_localParams f).symm) []
        rwa [List.append_nil] at h
      have hglobal : runApp env [] fn.code (.ofLits (globalArgs egress id other ls)) =
          Lang.run env ((globalArgs egress id other ls).map Outcome.lit).reverse fn.body := by
        have hlen : (globalArgs egress id other ls).length = fn.params.length := by
          rw [fn.length_params, ← hls]
          cases egress <;> simp [globalArgs]
        have h := @runApp_atDepth env _ _ _ (atDepth_closures fn.params fn.notClosure) _ hlen []
        rwa [List.append_nil] at h
      have hsame := run_plug (length_values egress f id z hls other)
        (run_replacement egress f id z hls hother) fn.body
      rw [hlocal, hglobal, hsame.run, globalArgs_reverse]
      refine run_append_of_wellScoped _ ?_
      rw [← length_values egress f id z hls other, length_replacements]
      exact fn.inScope

end

/-! ## A use under a binder -/

/-- `let x = true; to == to`, in a function of a request. -/
def boundUse : GlobalFunction (EntryFunction.restRequest.locals + 2) where
  params := ["from", "to", "req", "payload"]
  body := .letExpr ["x"] (.litExpr (.bool true))
    (.closure "x" (.infixExpr .equal (.bvar "to" 3) (.bvar "to" 3)))
  length_params := rfl
  inScope := rfl
  notClosure := rfl

/-- A control plane without functions. -/
def bareEnv : Env CPFlatLiteral :=
  Env.new ⟨fun _ _ _ => .error "", .offline, evalBuiltin .offline⟩ (Program.empty : CPProgram)

/-- Inside of the `let`, the index that is put in for the request is that of the payload: the
global function is true and the one that is built fails. -/
theorem not_replumbed : ∃ g e e' err w', replumb true .restRequest .empty boundUse.code = some g ∧
    applyAll g [.litExpr (.dp (.httpRequest .empty)), .litExpr (.dp (.data []))] = .ok e ∧
    (evalN bareEnv 6 e).run default = some (.error err, w') ∧
    applyAll boundUse.code [.litExpr (.id .empty), .litExpr (.id .empty),
      .litExpr (.dp (.httpRequest .empty)), .litExpr (.dp (.data []))] = .ok e' ∧
    (evalN bareEnv 6 e').run default = some (.ok (.lit (.bool true)), default) ∧
    ¬∃ g, replumb true .restRequest .empty boundUse.code = some g ∧
      Replumbed true .restRequest .empty boundUse g := by
  refine ⟨_, _, _, _, _, rfl, rfl, rfl, rfl, rfl, ?_⟩
  rw [replumbed_iff]
  rintro ⟨-, hout⟩
  cases hout

end Armour.Control
