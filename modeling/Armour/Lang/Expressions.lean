import Armour.Lang.Literals

/-! # Expressions

`armour-lang/src/expressions.rs`: the core syntax, with de Bruijn indices under
`closure`, and the operations on indices.  The traversals of the source that
only differ at the variables (`shift`, `subst`, `abs`) are one traversal,
`mapVars`, applied to what each of them does there.
-/

namespace Armour.Lang

inductive Prefix where
  | not | minus
deriving DecidableEq, Repr

inductive Infix where
  | equal | notEqual | plus | minus | divide | multiply | remainder | greaterThanEqual
  | lessThanEqual | greaterThan | lessThan | and | or | concat | concatStr | module | isIn
  | dot
deriving DecidableEq, Repr

inductive Iter where
  | map | forEach | filter | filterMap | fold | all | any
deriving DecidableEq, Repr

inductive Block where
  | list | tuple | block
deriving DecidableEq, Repr

inductive Pattern where
  | regex (r : PolicyRegex)
  | label (l : Label)

instance : BEq Pattern where
  beq
    | .regex a, .regex b => a == b
    | .label a, .label b => Label.beq a b
    | _, _ => false

/-- Core expressions over the flat literals of a plane. -/
inductive Expr (FL : Type) where
  | var (x : String)
  | bvar (x : String) (i : Nat)
  | litExpr (l : Literal FL)
  | returnExpr (e : Expr FL)
  | prefixExpr (p : Prefix) (e : Expr FL)
  | infixExpr (op : Infix) (e1 e2 : Expr FL)
  | blockExpr (b : Block) (es : List (Expr FL))
  | letExpr (vs : List String) (e1 e2 : Expr FL)
  | iter (op : Iter) (vs : List String) (e1 e2 : Expr FL) (acc : Option (String × Expr FL))
  | closure (x : String) (e : Expr FL)
  | ifExpr (cond consequence : Expr FL) (alternative : Option (Expr FL))
  | ifMatchExpr (vars : List String) (subjects : List (Expr FL × Pattern))
      (consequence : Expr FL) (alternative : Option (Expr FL))
  | ifSomeMatchExpr (expr consequence : Expr FL) (alternative : Option (Expr FL))
  | callExpr (function : String) (arguments : List (Expr FL)) (isAsync : Bool)

instance {FL : Type} : Inhabited (Expr FL) := ⟨.var ""⟩

namespace Expr

variable {FL : Type}

/-- Induction on an expression, with the hypotheses for lists, subjects and optional
parts stated by membership. -/
@[elab_as_elim]
theorem ind {P : Expr FL → Prop}
    (var : ∀ x, P (.var x)) (bvar : ∀ x i, P (.bvar x i)) (litExpr : ∀ l, P (.litExpr l))
    (returnExpr : ∀ e, P e → P (.returnExpr e))
    (prefixExpr : ∀ p e, P e → P (.prefixExpr p e))
    (infixExpr : ∀ op e1 e2, P e1 → P e2 → P (.infixExpr op e1 e2))
    (blockExpr : ∀ b es, (∀ e ∈ es, P e) → P (.blockExpr b es))
    (letExpr : ∀ vs e1 e2, P e1 → P e2 → P (.letExpr vs e1 e2))
    (iter : ∀ op vs e1 e2 acc, P e1 → P e2 → (∀ a ∈ acc, P a.2) → P (.iter op vs e1 e2 acc))
    (closure : ∀ x e, P e → P (.closure x e))
    (ifExpr : ∀ c t a, P c → P t → (∀ e ∈ a, P e) → P (.ifExpr c t a))
    (ifMatchExpr : ∀ vs ms t a, (∀ m ∈ ms, P m.1) → P t → (∀ e ∈ a, P e) →
      P (.ifMatchExpr vs ms t a))
    (ifSomeMatchExpr : ∀ e t a, P e → P t → (∀ e ∈ a, P e) → P (.ifSomeMatchExpr e t a))
    (callExpr : ∀ f args b, (∀ e ∈ args, P e) → P (.callExpr f args b)) :
    ∀ e, P e := by
  intro e
  refine @Expr.rec FL P (fun es => ∀ e ∈ es, P e) (fun acc => ∀ a ∈ acc, P a.2)
    (fun a => ∀ e ∈ a, P e) (fun ms => ∀ m ∈ ms, P m.1) (fun a => P a.2) (fun m => P m.1)
    var bvar litExpr returnExpr prefixExpr infixExpr blockExpr letExpr iter closure ifExpr
    ifMatchExpr ifSomeMatchExpr callExpr ?_ ?_ ?_ ?_ ?_ ?_ ?_ ?_ ?_ ?_ e
  · simp
  · intro e es he hes x hx
    rcases List.mem_cons.mp hx with rfl | hx
    · exact he
    · exact hes x hx
  · simp
  · intro a ha x hx
    simpa [← Option.some.inj hx] using ha
  · simp
  · intro a ha x hx
    simpa [← Option.some.inj hx] using ha
  · simp
  · intro m ms hm hms x hx
    rcases List.mem_cons.mp hx with rfl | hx
    · exact hm
    · exact hms x hx
  · intro x e he
    exact he
  · intro e p he
    exact he

/-! ## Traversal of the variables -/

mutual
/-- Replace the variables of an expression: `fv` says what becomes of a named variable and
`fb` of a bound one, at the binding depth reached (`closure` is the only binder). -/
def mapVars (fv : Nat → String → Expr FL) (fb : Nat → String → Nat → Expr FL) (d : Nat) :
    Expr FL → Expr FL
  | var x => fv d x
  | bvar x i => fb d x i
  | litExpr l => litExpr l
  | returnExpr e => returnExpr (mapVars fv fb d e)
  | prefixExpr p e => prefixExpr p (mapVars fv fb d e)
  | infixExpr op e1 e2 => infixExpr op (mapVars fv fb d e1) (mapVars fv fb d e2)
  | blockExpr b es => blockExpr b (mapVarsList fv fb d es)
  | letExpr vs e1 e2 => letExpr vs (mapVars fv fb d e1) (mapVars fv fb d e2)
  | iter op vs e1 e2 none => iter op vs (mapVars fv fb d e1) (mapVars fv fb d e2) none
  | iter op vs e1 e2 (some (x, a)) =>
      iter op vs (mapVars fv fb d e1) (mapVars fv fb d e2) (some (x, mapVars fv fb d a))
  | closure x e => closure x (mapVars fv fb (d + 1) e)
  | ifExpr c t none => ifExpr (mapVars fv fb d c) (mapVars fv fb d t) none
  | ifExpr c t (some a) =>
      ifExpr (mapVars fv fb d c) (mapVars fv fb d t) (some (mapVars fv fb d a))
  | ifMatchExpr vs ms t none =>
      ifMatchExpr vs (mapVarsSubjects fv fb d ms) (mapVars fv fb d t) none
  | ifMatchExpr vs ms t (some a) =>
      ifMatchExpr vs (mapVarsSubjects fv fb d ms) (mapVars fv fb d t)
        (some (mapVars fv fb d a))
  | ifSomeMatchExpr e t none => ifSomeMatchExpr (mapVars fv fb d e) (mapVars fv fb d t) none
  | ifSomeMatchExpr e t (some a) =>
      ifSomeMatchExpr (mapVars fv fb d e) (mapVars fv fb d t) (some (mapVars fv fb d a))
  | callExpr f args b => callExpr f (mapVarsList fv fb d args) b

def mapVarsList (fv : Nat → String → Expr FL) (fb : Nat → String → Nat → Expr FL) (d : Nat) :
    List (Expr FL) → List (Expr FL)
  | [] => []
  | e :: es => mapVars fv fb d e :: mapVarsList fv fb d es

def mapVarsSubjects (fv : Nat → String → Expr FL) (fb : Nat → String → Nat → Expr FL)
    (d : Nat) : List (Expr FL × Pattern) → List (Expr FL × Pattern)
  | [] => []
  | (e, p) :: ms => (mapVars fv fb d e, p) :: mapVarsSubjects fv fb d ms
end

mutual
/-- Every variable satisfies `pv` (named) or `pb` (bound), at its binding depth. -/
def allVars (pv : Nat → String → Bool) (pb : Nat → String → Nat → Bool) (d : Nat) :
    Expr FL → Bool
  | var x => pv d x
  | bvar x i => pb d x i
  | litExpr _ => true
  | returnExpr e => allVars pv pb d e
  | prefixExpr _ e => allVars pv pb d e
  | infixExpr _ e1 e2 => allVars pv pb d e1 && allVars pv pb d e2
  | blockExpr _ es => allVarsList pv pb d es
  | letExpr _ e1 e2 => allVars pv pb d e1 && allVars pv pb d e2
  | iter _ _ e1 e2 none => allVars pv pb d e1 && allVars pv pb d e2
  | iter _ _ e1 e2 (some (_, a)) =>
      allVars pv pb d e1 && allVars pv pb d e2 && allVars pv pb d a
  | closure _ e => allVars pv pb (d + 1) e
  | ifExpr c t none => allVars pv pb d c && allVars pv pb d t
  | ifExpr c t (some a) => allVars pv pb d c && allVars pv pb d t && allVars pv pb d a
  | ifMatchExpr _ ms t none => allVarsSubjects pv pb d ms && allVars pv pb d t
  | ifMatchExpr _ ms t (some a) =>
      allVarsSubjects pv pb d ms && allVars pv pb d t && allVars pv pb d a
  | ifSomeMatchExpr e t none => allVars pv pb d e && allVars pv pb d t
  | ifSomeMatchExpr e t (some a) => allVars pv pb d e && allVars pv pb d t && allVars pv pb d a
  | callExpr _ args _ => allVarsList pv pb d args

def allVarsList (pv : Nat → String → Bool) (pb : Nat → String → Nat → Bool) (d : Nat) :
    List (Expr FL) → Bool
  | [] => true
  | e :: es => allVars pv pb d e && allVarsList pv pb d es

def allVarsSubjects (pv : Nat → String → Bool) (pb : Nat → String → Nat → Bool) (d : Nat) :
    List (Expr FL × Pattern) → Bool
  | [] => true
  | (e, _) :: ms => allVars pv pb d e && allVarsSubjects pv pb d ms
end

section

variable (fv : Nat → String → Expr FL) (fb : Nat → String → Nat → Expr FL) (d : Nat)
variable (pv : Nat → String → Bool) (pb : Nat → String → Nat → Bool)

attribute [local simp] mapVars mapVarsList mapVarsSubjects allVars allVarsList allVarsSubjects

theorem mapVarsList_eq (es : List (Expr FL)) :
    mapVarsList fv fb d es = es.map (mapVars fv fb d) := by
  induction es with
  | nil => rfl
  | cons e es ih => simp [mapVarsList, ih]

theorem mapVarsSubjects_eq (ms : List (Expr FL × Pattern)) :
    mapVarsSubjects fv fb d ms = ms.map (fun m => (mapVars fv fb d m.1, m.2)) := by
  induction ms with
  | nil => rfl
  | cons m ms ih => simp [mapVarsSubjects, ih]

theorem allVarsList_eq (es : List (Expr FL)) :
    allVarsList pv pb d es = es.all (allVars pv pb d) := by
  induction es with
  | nil => rfl
  | cons e es ih => simp [allVarsList, ih]

theorem allVarsSubjects_eq (ms : List (Expr FL × Pattern)) :
    allVarsSubjects pv pb d ms = ms.all (fun m => allVars pv pb d m.1) := by
  induction ms with
  | nil => rfl
  | cons m ms ih => simp [allVarsSubjects, ih]

@[simp] theorem mapVars_iter (op : Iter) (vs : List String) (e1 e2 : Expr FL)
    (acc : Option (String × Expr FL)) :
    mapVars fv fb d (iter op vs e1 e2 acc) =
      iter op vs (mapVars fv fb d e1) (mapVars fv fb d e2)
        (acc.map (fun a => (a.1, mapVars fv fb d a.2))) := by
  cases acc <;> rfl

@[simp] theorem mapVars_ifExpr (c t : Expr FL) (a : Option (Expr FL)) :
    mapVars fv fb d (ifExpr c t a) =
      ifExpr (mapVars fv fb d c) (mapVars fv fb d t) (a.map (mapVars fv fb d)) := by
  cases a <;> rfl

@[simp] theorem mapVars_ifMatchExpr (vs : List String) (ms : List (Expr FL × Pattern))
    (t : Expr FL) (a : Option (Expr FL)) :
    mapVars fv fb d (ifMatchExpr vs ms t a) =
      ifMatchExpr vs (ms.map (fun m => (mapVars fv fb d m.1, m.2))) (mapVars fv fb d t)
        (a.map (mapVars fv fb d)) := by
  rw [← mapVarsSubjects_eq]
  cases a <;> rfl

@[simp] theorem mapVars_ifSomeMatchExpr (e t : Expr FL) (a : Option (Expr FL)) :
    mapVars fv fb d (ifSomeMatchExpr e t a) =
      ifSomeMatchExpr (mapVars fv fb d e) (mapVars fv fb d t) (a.map (mapVars fv fb d)) := by
  cases a <;> rfl

@[simp] theorem mapVars_blockExpr (b : Block) (es : List (Expr FL)) :
    mapVars fv fb d (blockExpr b es) = blockExpr b (es.map (mapVars fv fb d)) := by
  rw [← mapVarsList_eq, mapVars]

@[simp] theorem mapVars_callExpr (f : String) (args : List (Expr FL)) (b : Bool) :
    mapVars fv fb d (callExpr f args b) = callExpr f (args.map (mapVars fv fb d)) b := by
  rw [← mapVarsList_eq, mapVars]

end

/-- Two traversals, the second one starting `a` binders off the first, are one. -/
theorem mapVars_mapVars (fv gv : Nat → String → Expr FL) (fb gb : Nat → String → Nat → Expr FL)
    (a b : Nat) (e : Expr FL) (d : Nat) :
    mapVars gv gb (d + a) (mapVars fv fb (d + b) e) =
      mapVars (fun k x => mapVars gv gb (k + a) (fv (k + b) x))
        (fun k x i => mapVars gv gb (k + a) (fb (k + b) x i)) d e := by
  induction e using Expr.ind generalizing d with
  | var x => rfl
  | bvar x i => rfl
  | litExpr l => rfl
  | returnExpr e ih => simp [mapVars, ih]
  | prefixExpr p e ih => simp [mapVars, ih]
  | infixExpr op e1 e2 ih1 ih2 => simp [mapVars, ih1, ih2]
  | blockExpr b es ih => simpa using fun e he => ih e he d
  | letExpr vs e1 e2 ih1 ih2 => simp [mapVars, ih1, ih2]
  | iter op vs e1 e2 acc ih1 ih2 iha =>
      simp only [mapVars_iter, ih1, ih2, Option.map_map, iter.injEq, true_and]
      exact Option.map_congr (fun x hx => by simp [iha x hx])
  | closure x e ih =>
      simp only [mapVars, closure.injEq, true_and]
      rw [show d + a + 1 = (d + 1) + a by omega, show d + b + 1 = (d + 1) + b by omega]
      exact ih (d + 1)
  | ifExpr c t e ihc iht ihe =>
      simp only [mapVars_ifExpr, ihc, iht, Option.map_map, ifExpr.injEq, true_and]
      exact Option.map_congr (fun x hx => by simp [ihe x hx])
  | ifMatchExpr vs ms t e ihm iht ihe =>
      simp only [mapVars_ifMatchExpr, iht, List.map_map, Option.map_map, ifMatchExpr.injEq,
        true_and]
      refine ⟨List.map_congr_left (fun m hm => by simp [ihm m hm]), ?_⟩
      exact Option.map_congr (fun x hx => by simp [ihe x hx])
  | ifSomeMatchExpr c t e ihc iht ihe =>
      simp only [mapVars_ifSomeMatchExpr, ihc, iht, Option.map_map, ifSomeMatchExpr.injEq,
        true_and]
      exact Option.map_congr (fun x hx => by simp [ihe x hx])
  | callExpr f args b ih => simpa using fun e he => ih e he d

theorem mapVars_id (e : Expr FL) (d : Nat) :
    mapVars (fun _ x => var x) (fun _ x i => bvar x i) d e = e := by
  induction e using Expr.ind generalizing d with
  | var x => rfl
  | bvar x i => rfl
  | litExpr l => rfl
  | returnExpr e ih => simp [mapVars, ih]
  | prefixExpr p e ih => simp [mapVars, ih]
  | infixExpr op e1 e2 ih1 ih2 => simp [mapVars, ih1, ih2]
  | blockExpr b es ih =>
      simp only [mapVars_blockExpr, blockExpr.injEq, true_and]
      exact (List.map_congr_left (fun e he => ih e he d)).trans (List.map_id es)
  | letExpr vs e1 e2 ih1 ih2 => simp [mapVars, ih1, ih2]
  | iter op vs e1 e2 acc ih1 ih2 iha =>
      simp only [mapVars_iter, ih1, ih2, iter.injEq, true_and]
      cases acc with
      | none => rfl
      | some a => simp [iha a rfl]
  | closure x e ih => simp [mapVars, ih]
  | ifExpr c t a ihc iht iha =>
      simp only [mapVars_ifExpr, ihc, iht, ifExpr.injEq, true_and]
      cases a with
      | none => rfl
      | some a => simp [iha a rfl]
  | ifMatchExpr vs ms t a ihm iht iha =>
      simp only [mapVars_ifMatchExpr, iht, ifMatchExpr.injEq, true_and]
      refine ⟨(List.map_congr_left (fun m hm => ?_)).trans (List.map_id ms), ?_⟩
      · simp [ihm m hm]
      · cases a with
        | none => rfl
        | some a => simp [iha a rfl]
  | ifSomeMatchExpr c t a ihc iht iha =>
      simp only [mapVars_ifSomeMatchExpr, ihc, iht, ifSomeMatchExpr.injEq, true_and]
      cases a with
      | none => rfl
      | some a => simp [iha a rfl]
  | callExpr f args b ih =>
      simp only [mapVars_callExpr, callExpr.injEq, and_true, true_and]
      exact (List.map_congr_left (fun e he => ih e he d)).trans (List.map_id args)

/-- A traversal depends on what it does at the variables that occur. -/
theorem mapVars_congr {fv gv : Nat → String → Expr FL} {fb gb : Nat → String → Nat → Expr FL}
    {pv : Nat → String → Bool} {pb : Nat → String → Nat → Bool} (e : Expr FL) (d : Nat)
    (h : allVars pv pb d e = true) (hv : ∀ k x, pv k x = true → fv k x = gv k x)
    (hb : ∀ k x i, pb k x i = true → fb k x i = gb k x i) :
    mapVars fv fb d e = mapVars gv gb d e := by
  induction e using Expr.ind generalizing d with
  | var x => exact hv d x h
  | bvar x i => exact hb d x i h
  | litExpr l => rfl
  | returnExpr e ih => simp [mapVars, ih d h]
  | prefixExpr p e ih => simp [mapVars, ih d h]
  | infixExpr op e1 e2 ih1 ih2 =>
      simp only [allVars, Bool.and_eq_true] at h
      simp [mapVars, ih1 d h.1, ih2 d h.2]
  | blockExpr b es ih =>
      simp only [allVars, allVarsList_eq, List.all_eq_true] at h
      simpa using fun e he => ih e he d (h e he)
  | letExpr vs e1 e2 ih1 ih2 =>
      simp only [allVars, Bool.and_eq_true] at h
      simp [mapVars, ih1 d h.1, ih2 d h.2]
  | iter op vs e1 e2 acc ih1 ih2 iha =>
      cases acc with
      | none =>
          simp only [allVars, Bool.and_eq_true] at h
          simp [mapVars, ih1 d h.1, ih2 d h.2]
      | some a =>
          simp only [allVars, Bool.and_eq_true] at h
          simp [mapVars, ih1 d h.1.1, ih2 d h.1.2, iha a rfl d h.2]
  | closure x e ih => simp [mapVars, ih (d + 1) h]
  | ifExpr c t e ihc iht ihe =>
      cases e with
      | none =>
          simp only [allVars, Bool.and_eq_true] at h
          simp [mapVars, ihc d h.1, iht d h.2]
      | some a =>
          simp only [allVars, Bool.and_eq_true] at h
          simp [mapVars, ihc d h.1.1, iht d h.1.2, ihe a rfl d h.2]
  | ifMatchExpr vs ms t e ihm iht ihe =>
      cases e with
      | none =>
          simp only [allVars, allVarsSubjects_eq, Bool.and_eq_true, List.all_eq_true] at h
          simpa [iht d h.2] using fun e p hm => ihm (e, p) hm d (h.1 _ hm)
      | some a =>
          simp only [allVars, allVarsSubjects_eq, Bool.and_eq_true, List.all_eq_true] at h
          simpa [iht d h.1.2, ihe a rfl d h.2] using
            fun e p hm => ihm (e, p) hm d (h.1.1 _ hm)
  | ifSomeMatchExpr c t e ihc iht ihe =>
      cases e with
      | none =>
          simp only [allVars, Bool.and_eq_true] at h
          simp [mapVars, ihc d h.1, iht d h.2]
      | some a =>
          simp only [allVars, Bool.and_eq_true] at h
          simp [mapVars, ihc d h.1.1, iht d h.1.2, ihe a rfl d h.2]
  | callExpr f args b ih =>
      simp only [allVars, allVarsList_eq, List.all_eq_true] at h
      simpa using fun e he => ih e he d (h e he)

/-- What a family of predicates gives at every variable, each at its own offset of the
binding depth. -/
theorem allVars_of_forall {ι : Type} (c : ι → Nat) {pv : ι → Nat → String → Bool}
    {pb : ι → Nat → String → Nat → Bool} {qv : Nat → String → Bool}
    {qb : Nat → String → Nat → Bool}
    (hv : ∀ k x, (∀ i, pv i (k + c i) x = true) → qv k x = true)
    (hb : ∀ k x j, (∀ i, pb i (k + c i) x j = true) → qb k x j = true) (e : Expr FL) (d : Nat)
    (h : ∀ i, allVars (pv i) (pb i) (d + c i) e = true) : allVars qv qb d e = true := by
  induction e using Expr.ind generalizing d with
  | var x => exact hv d x h
  | bvar x j => exact hb d x j h
  | litExpr l => rfl
  | returnExpr e ih => exact ih d h
  | prefixExpr p e ih => exact ih d h
  | infixExpr op e1 e2 ih1 ih2 =>
      simp only [allVars, Bool.and_eq_true] at h ⊢
      exact ⟨ih1 d (fun i => (h i).1), ih2 d (fun i => (h i).2)⟩
  | blockExpr b es ih =>
      simp only [allVars, allVarsList_eq, List.all_eq_true] at h ⊢
      exact fun e he => ih e he d (fun i => h i e he)
  | letExpr vs e1 e2 ih1 ih2 =>
      simp only [allVars, Bool.and_eq_true] at h ⊢
      exact ⟨ih1 d (fun i => (h i).1), ih2 d (fun i => (h i).2)⟩
  | iter op vs e1 e2 acc ih1 ih2 iha =>
      cases acc with
      | none =>
          simp only [allVars, Bool.and_eq_true] at h ⊢
          exact ⟨ih1 d (fun i => (h i).1), ih2 d (fun i => (h i).2)⟩
      | some a =>
          simp only [allVars, Bool.and_eq_true] at h ⊢
          exact ⟨⟨ih1 d (fun i => (h i).1.1), ih2 d (fun i => (h i).1.2)⟩,
            iha a rfl d (fun i => (h i).2)⟩
  | closure x e ih =>
      refine ih (d + 1) (fun i => ?_)
      have hi := h i
      rwa [allVars, show d + c i + 1 = d + 1 + c i by omega] at hi
  | ifExpr t c a iht ihc iha =>
      cases a with
      | none =>
          simp only [allVars, Bool.and_eq_true] at h ⊢
          exact ⟨iht d (fun i => (h i).1), ihc d (fun i => (h i).2)⟩
      | some a =>
          simp only [allVars, Bool.and_eq_true] at h ⊢
          exact ⟨⟨iht d (fun i => (h i).1.1), ihc d (fun i => (h i).1.2)⟩,
            iha a rfl d (fun i => (h i).2)⟩
  | ifMatchExpr vs ms t a ihm iht iha =>
      cases a with
      | none =>
          simp only [allVars, allVarsSubjects_eq, Bool.and_eq_true, List.all_eq_true] at h ⊢
          exact ⟨fun m hm => ihm m hm d (fun i => (h i).1 m hm), iht d (fun i => (h i).2)⟩
      | some a =>
          simp only [allVars, allVarsSubjects_eq, Bool.and_eq_true, List.all_eq_true] at h ⊢
          exact ⟨⟨fun m hm => ihm m hm d (fun i => (h i).1.1 m hm), iht d (fun i => (h i).1.2)⟩,
            iha a rfl d (fun i => (h i).2)⟩
  | ifSomeMatchExpr t c a iht ihc iha =>
      cases a with
      | none =>
          simp only [allVars, Bool.and_eq_true] at h ⊢
          exact ⟨iht d (fun i => (h i).1), ihc d (fun i => (h i).2)⟩
      | some a =>
          simp only [allVars, Bool.and_eq_true] at h ⊢
          exact ⟨⟨iht d (fun i => (h i).1.1), ihc d (fun i => (h i).1.2)⟩,
            iha a rfl d (fun i => (h i).2)⟩
  | callExpr f args b ih =>
      simp only [allVars, allVarsList_eq, List.all_eq_true] at h ⊢
      exact fun e he => ih e he d (fun i => h i e he)

theorem allVars_true (e : Expr FL) (d : Nat) :
    allVars (fun _ _ => true) (fun _ _ _ => true) d e = true :=
  have h : ∀ i : Empty, allVars ((fun i : Empty => i.elim : Empty → Nat → String → Bool) i)
      ((fun i : Empty => i.elim : Empty → Nat → String → Nat → Bool) i) (d + i.elim) e = true :=
    nofun
  allVars_of_forall _ (fun _ _ _ => rfl) (fun _ _ _ _ => rfl) e d h

/-! ## Equality -/

section

variable {FT : Type} [TFlatTyp FT] [TFlatLiteral FT FL]

mutual
/-- `PartialEq`: names of variables count, literals are compared with their equality. -/
protected def beq : Expr FL → Expr FL → Bool
  | var x, var y => x = y
  | bvar x i, bvar y j => x = y && i = j
  | litExpr a, litExpr b => a.beq b
  | returnExpr a, returnExpr b => Expr.beq a b
  | prefixExpr p a, prefixExpr q b => p = q && Expr.beq a b
  | infixExpr op a1 a2, infixExpr op' b1 b2 => op = op' && Expr.beq a1 b1 && Expr.beq a2 b2
  | blockExpr b as, blockExpr b' bs => b = b' && beqs as bs
  | letExpr vs a1 a2, letExpr vs' b1 b2 => vs = vs' && Expr.beq a1 b1 && Expr.beq a2 b2
  | iter op vs a1 a2 none, iter op' vs' b1 b2 none =>
      op = op' && vs = vs' && Expr.beq a1 b1 && Expr.beq a2 b2
  | iter op vs a1 a2 (some (x, a)), iter op' vs' b1 b2 (some (y, b)) =>
      op = op' && vs = vs' && Expr.beq a1 b1 && Expr.beq a2 b2 && x = y && Expr.beq a b
  | closure x a, closure y b => x = y && Expr.beq a b
  | ifExpr c t none, ifExpr c' t' none => Expr.beq c c' && Expr.beq t t'
  | ifExpr c t (some a), ifExpr c' t' (some b) =>
      Expr.beq c c' && Expr.beq t t' && Expr.beq a b
  | ifMatchExpr vs ms t none, ifMatchExpr vs' ms' t' none =>
      vs = vs' && beqSubjects ms ms' && Expr.beq t t'
  | ifMatchExpr vs ms t (some a), ifMatchExpr vs' ms' t' (some b) =>
      vs = vs' && beqSubjects ms ms' && Expr.beq t t' && Expr.beq a b
  | ifSomeMatchExpr c t none, ifSomeMatchExpr c' t' none => Expr.beq c c' && Expr.beq t t'
  | ifSomeMatchExpr c t (some a), ifSomeMatchExpr c' t' (some b) =>
      Expr.beq c c' && Expr.beq t t' && Expr.beq a b
  | callExpr f as a, callExpr g bs b => f = g && beqs as bs && a = b
  | _, _ => false

def beqs : List (Expr FL) → List (Expr FL) → Bool
  | [], [] => true
  | a :: as, b :: bs => Expr.beq a b && beqs as bs
  | _, _ => false

def beqSubjects : List (Expr FL × Pattern) → List (Expr FL × Pattern) → Bool
  | [], [] => true
  | (a, p) :: as, (b, q) :: bs => Expr.beq a b && p == q && beqSubjects as bs
  | _, _ => false
end

instance : BEq (Expr FL) := ⟨Expr.beq⟩

end

/-! ## Operations of the source -/

/-- `is_free`: the index `u` does not occur. -/
def isFree (e : Expr FL) (u : Nat) : Bool :=
  allVars (fun _ _ => true) (fun u _ j => j != u) u e

/-- `shift`: for `i ≠ 0` every index from the cutoff `d` on grows by one (not by `i`). -/
def shift (e : Expr FL) (i d : Nat) : Expr FL :=
  if i = 0 then e
  else mapVars (fun _ x => var x) (fun d x j => if d ≤ j then bvar x (j + 1) else bvar x j) d e

/-- What `subst` does at index `j`: index `i` becomes `u`; with `downgrade` it is shifted
and the larger indices move down by one. -/
def substVar (u : Expr FL) (downgrade : Bool) (i : Nat) (x : String) (j : Nat) : Expr FL :=
  if j < i then bvar x j
  else if j = i then (if downgrade then u.shift i 0 else u)
  else bvar x (if downgrade then j - 1 else j)

def subst (e : Expr FL) (i : Nat) (u : Expr FL) (downgrade : Bool) : Expr FL :=
  mapVars (fun _ x => var x) (substVar u downgrade) i e

/-- `abs`: the free name `v` becomes index `i`. -/
def abs (e : Expr FL) (i : Nat) (v : String) : Expr FL :=
  mapVars (fun i x => if x = v then bvar x i else var x) (fun _ x j => bvar x j) i e

/-- `apply`; `none` stands for the error "apply: expression is not a closure". -/
def apply : Expr FL → Expr FL → Option (Expr FL)
  | closure _ e, u => some (e.subst 0 u true)
  | _, _ => none

/-- `at_depth`: the expression under `i` closures (`i - 1` at `i = 0` does not end well in
the source either: it is followed by an `unwrap` or an `unreachable!`). -/
def atDepth : Expr FL → Nat → Option (Expr FL)
  | closure _ e, i + 1 => atDepth e i
  | closure _ _, 0 => none
  | e, 0 => some e
  | _, _ + 1 => none

/-- `psubst`: goes under the leading closures without raising the index. -/
def psubst : Expr FL → Nat → Expr FL → Expr FL
  | closure v e, i, u => closure v (psubst e i u)
  | e, i, u => e.subst i u true

/-- `propagate_subst`: the `j`-th leading closure is dropped, and its variable (which is
index `i` of the body) replaced by `u`. -/
def propagateSubst : Expr FL → Nat → Nat → Expr FL → Expr FL
  | closure _ e, i, 0, u => e.psubst i u
  | closure v e, i, j + 1, u => closure v (propagateSubst e i j u)
  | e, i, _, u => e.psubst i u

def closureExpr (e : Expr FL) (v : String) : Expr FL :=
  if v = "_" then e else closure v (e.abs 0 v)

/-- Close over several names, the first one outermost. -/
def closureExprs (e : Expr FL) (vs : List String) : Expr FL :=
  vs.foldr (fun v c => c.closureExpr v) e

/-- `let_expr` of the source; `body` is its `self`. -/
def mkLet (body : Expr FL) (vs : List String) (e : Expr FL) : Expr FL :=
  if vs = ["_"] then blockExpr .block [e, body] else letExpr vs e (body.closureExprs vs)

/-- `iter_expr`: the accumulator is bound outside of the iterator's variables. -/
def mkIter (body : Expr FL) (op : Iter) (vs : List String) (e : Expr FL)
    (acc : Option (String × Expr FL)) : Expr FL :=
  let c := body.closureExprs vs
  iter op vs e (match acc with | some (x, _) => c.closureExpr x | none => c) acc

/-- `Expr::call`. -/
def call (f : String) (args : List (Expr FL)) : Expr FL := callExpr f args false

def isReturn : Expr FL → Bool
  | returnExpr _ => true
  | _ => false

def stripReturn : Expr FL → Expr FL
  | returnExpr e => e
  | e => e

/-- No named variable and no index from `n` on. -/
def wellScoped (n : Nat) (e : Expr FL) : Bool :=
  allVars (fun _ _ => false) (fun n _ j => j < n) n e

end Expr

end Armour.Lang
