import Armour.Control.Agreement
import Armour.Control.Conversion
import Armour.Control.Preservation
import Armour.Control.Replumbing
import Armour.Lang.DeBruijn
import Armour.Lang.DeadCode
import Armour.Lang.Halting
import Armour.Lang.Locality

/-! # From a global policy to the function of a proxy

`compile_egress_ingress` of `armour-control/src/specialize.rs` as a whole: the header is
checked, the identity of the service goes in, the body is specialized, the index of the other
identity becomes a call on the first argument, the function is cut out of its program and sent
to the data plane.  Each stage keeps what the next one starts from, so that the proxy answers as
the global policy does.
-/

namespace Armour.Control

open Armour.Lib Armour.Lang

/-! ## What remains after specialization -/

/-- The name means the same with and without the code and the externals of the program, and on
the data plane. -/
structure Kept (p : CPProgram) (g : String) : Prop where
  noCode : p.code.get? g = none
  noMethod : ∀ external, ¬IsMethod CPFlatTyp g external
  shared : CPFlatTyp.builtinsTable.lookup g = none

/-- A specialized body that stands without its program: it uses the parameters only, the other
identity not inside of a `let`, an iterator or a match, and all its calls keep their meaning. -/
structure Portable (p : CPProgram) (f : EntryFunction) (e : CPExpr) : Prop where
  inScope : e.wellScoped (f.locals + 1) = true
  outside : e.allVars (fun _ _ => true) (fun k _ j => j != k + f.locals || k == 0) 0 = true
  calls : e.CallsIn (Kept p)

/-- The body with the identity of the service put in. -/
def ownBody (egress : Bool) (f : EntryFunction) (id : ID)
    (fn : GlobalFunction (f.locals + 2)) : CPExpr :=
  fn.body.subst (if egress then f.locals + 1 else f.locals) (.litExpr (.id id)) true

/-- The values of the parameters that are left: the local ones, last one first, and the other
identity. -/
def leftValues (ls : List CPLiteral) (other : CPLiteral) : List CPOutcome :=
  (ls.map Outcome.lit).reverse ++ [.lit other]

/-- On these arguments, in the world `s`, every run of the specializer takes branches that keep the
meaning, and what it leaves can be moved. -/
def Specializes (env : Env CPFlatLiteral) (strict : Bool) (p : CPProgram) (egress : Bool)
    (f : EntryFunction) (id : ID) (fn : GlobalFunction (f.locals + 2)) (ls : List CPLiteral)
    (other : CPLiteral) (s : CPWorld) : Prop :=
  ∀ w r w', Leaves env false (ownBody egress f id fn) w r w' →
    Faithful env (.all strict) (.here (.start (leftValues ls other) s)) false
        (ownBody egress f id fn) w r w' ∧
      Portable p f r.2.stripReturn

theorem Specializes.intro {env : Env CPFlatLiteral} {strict : Bool} {p : CPProgram} {egress : Bool}
    {f : EntryFunction} {id : ID} {fn : GlobalFunction (f.locals + 2)} {ls : List CPLiteral}
    {other : CPLiteral} {s : CPWorld} {b : Bool} {e : CPExpr}
    (h : ∀ w, Faithful env (.all strict) (.here (.start (leftValues ls other) s)) false
      (ownBody egress f id fn) w (b, e) w) (hport : Portable p f e.stripReturn) :
    Specializes env strict p egress f id fn ls other s := by
  intro w r w' hrun
  have hleaves : Leaves env false (ownBody egress f id fn) w (b, e) w := (h w).leaves
  obtain ⟨rfl, rfl⟩ : r = (b, e) ∧ w' = w := by
    have h := Option.some.inj (hrun.symm.trans hleaves)
    cases h
    exact ⟨rfl, rfl⟩
  exact ⟨h w', hport⟩

/-! ## Getters -/

/-- The calls that can take the place of the other identity. -/
def getters : List String :=
  ["HttpRequest::from", "HttpRequest::to", "HttpResponse::from", "HttpResponse::to",
    "Connection::from", "Connection::to"]

theorem getter_mem (f : EntryFunction) (egress : Bool) : f.getter egress ∈ getters := by
  cases f <;> cases egress <;> simp [getters, EntryFunction.getter, direction]

theorem getters_shared : ∀ g ∈ getters, CPFlatTyp.builtinsTable.lookup g = none ∧
    Headers.isBuiltin FlatTyp g = true := by
  decide +kernel

/-! ## The two substitutions -/

section

variable {env : Env CPFlatLiteral} {egress : Bool} {f : EntryFunction} {id : ID}

/-- The identity of the service is a value of the global function. -/
theorem run_ownBody (fn : GlobalFunction (f.locals + 2)) {ls : List CPLiteral}
    (hls : ls.length = f.locals) (other : CPLiteral) :
    run env (leftValues ls other) (ownBody egress f id fn) =
      run env (values egress id other ls) fn.body := by
  have hlen : (ls.map Outcome.lit).reverse.length = f.locals := by simp [hls]
  have hid : ∀ post, run env post (.litExpr (.id id)) = pure (.lit (.id id)) :=
    fun post => run_litExpr post _
  have hruns : ∀ i, SubstRuns fn.body i (.litExpr (.id id)) := fun i => substRuns_of (.inl rfl)
  cases egress with
  | true =>
      have h := hruns (f.locals + 1) env (leftValues ls other) [] _
        (by rw [leftValues, List.length_append, hlen]; rfl) (hid [])
      rw [List.append_nil] at h
      rw [ownBody, if_pos rfl, h, leftValues, List.append_assoc]
      rfl
  | false =>
      exact hruns f.locals env (ls.map Outcome.lit).reverse [.lit other] _ hlen (hid _)

/-- The call in place of the other identity; outside of binders it needs no shift. -/
theorem run_subst_getCall (x : String) {e : CPExpr} {ls : List CPLiteral}
    (hls : ls.length = f.locals) {other : CPLiteral}
    (hget : run env (ls.map Outcome.lit).reverse (getCall egress f x) = pure (.lit other))
    (hscope : e.wellScoped (f.locals + 1) = true)
    (hout : e.allVars (fun _ _ => true) (fun k _ j => j != k + f.locals || k == 0) 0 = true) :
    run env (ls.map Outcome.lit).reverse (e.subst f.locals (getCall egress f x) false) =
      run env (leftValues ls other) e := by
  have hlen : (ls.map Outcome.lit).reverse.length = f.locals := by simp [hls]
  have hall : e.allVars (fun _ _ => true)
      (fun k _ j => decide (j ≤ k) && (j != k || k == f.locals)) (0 + f.locals) = true := by
    rw [Expr.allVars_offset]
    refine @Expr.allVars_of_forall CPFlatLiteral Bool (fun b => if b then f.locals + 1 else 0)
      (fun b _ _ => !b)
      (fun b k _ j => if b then decide (j < k) else j != k + f.locals || k == 0)
      _ _ (fun _ _ _ => rfl) (fun k y j hj => ?_) e 0 (fun b => ?_)
    · have h1 := hj true
      have h2 := hj false
      simp only [if_true, Bool.false_eq_true, if_false, Nat.add_zero, decide_eq_true_eq] at h1 h2
      simp only [Bool.and_eq_true, decide_eq_true_eq, Bool.or_eq_true, bne_iff_ne, ne_eq,
        beq_iff_eq] at h2 ⊢
      omega
    · cases b with
      | true =>
          show e.allVars _ _ (0 + (f.locals + 1)) = true
          rw [Nat.zero_add]
          exact hscope
      | false => exact hout
  rw [Nat.zero_add] at hall
  refine (sameRun_mapVars (ls.map Outcome.lit).reverse (leftValues ls other)
    (Expr.substVar (getCall egress f x) false) _ f.locals ?_ e [] hall).run
  intro os y j hj
  obtain ⟨hle, hself⟩ := Bool.and_eq_true_iff.mp hj
  have hle : j ≤ f.locals + os.length := of_decide_eq_true hle
  unfold Expr.substVar
  by_cases hlt : j < f.locals + os.length
  · have hlt' : j < (os ++ (ls.map Outcome.lit).reverse).length := by
      rw [List.length_append, hlen]
      omega
    rw [if_pos hlt, run_bvar_eq, run_bvar_eq, leftValues, ← List.append_assoc,
      List.getElem?_append_left hlt']
    exact ⟨rfl, rfl⟩
  · -- the other identity, where nothing is bound
    have hj : j = f.locals + os.length := by omega
    have hos : os = [] := by
      subst hj
      simpa using hself
    subst hj hos
    rw [if_neg (Nat.lt_irrefl _), if_pos rfl]
    refine ⟨hget.trans (run_bvar env y ?_).symm, rfl⟩
    show (leftValues ls other)[f.locals]? = _
    rw [leftValues, List.getElem?_append_right (by rw [hlen]), hlen,
      Nat.sub_self]
    rfl

end

/-! ## The program that is cut out -/

section

variable {p q : CPProgram} {rt : Runtime CPFlatLiteral} {f : EntryFunction}

/-- A program with one function only, in which nothing that is kept is defined. -/
theorem sameCalls_kept (hcode : (p.code.get? f.name).isSome = true)
    (hq : ∀ g, g ≠ f.name → q.code.get? g = none) :
    SameCalls CPFlatTyp (Kept p) (Env.new rt p) (Env.new rt q) where
  runtime := rfl
  get g hg := by
    have hne : g ≠ f.name := by
      rintro rfl
      rw [hg.noCode] at hcode
      cases hcode
    show q.code.get? g = p.code.get? g
    rw [hq g hne, hg.noCode]
  socket g external hg _ hmethod := absurd hmethod (hg.noMethod external)
  body g e hg hget := by
    have hget : p.code.get? g = some e := hget
    rw [hg.noCode] at hget
    cases hget

/-- What is assigned to the indices calls nothing. -/
theorem callsIn_inst {ok : String → Prop} {e : CPExpr} (he : e.CallsIn ok)
    (ρ : List CPOutcome) : (e.inst ρ 0).CallsIn ok := by
  refine Expr.CallsIn.mapVars (fun _ _ c hc => by cases hc) (fun d x i => ?_) he 0
  unfold Expr.instVar
  split
  · exact fun c hc => by cases hc
  · split
    · exact callsIn_toExpr _
    · exact fun c hc => by cases hc

theorem run_kept (hcode : (p.code.get? f.name).isSome = true)
    (hq : ∀ g, g ≠ f.name → q.code.get? g = none) {e : CPExpr} (he : e.CallsIn (Kept p))
    (ρ : List CPOutcome) : run (Env.new rt q) ρ e = run (Env.new rt p) ρ e :=
  (sameCalls_kept hcode hq).eval (callsIn_inst he ρ)

/-! ## The stages of the compiler -/

theorem checkHeader_entry {pol : GlobalPolicy} {n : Nat}
    (h : checkHeader pol f.name = .ok n) : n = f.locals + 2 := by
  have hsig := f.expectedSig_length
  unfold checkHeader at h
  cases hexp : expectedSig f.name with
  | none =>
      rw [hexp] at hsig
      cases hsig
  | some expected =>
      rw [hexp] at h hsig
      have hlen : (expected.args.getD []).length = f.locals + 2 := Option.some.inj hsig
      dsimp only at h
      split at h
      · cases h
      · split at h
        · cases h
        · rw [← hlen]
          exact (Except.ok.inj h).symm

theorem wrap_entry (hf : f ≠ .tcpDisconnect) (egress : Bool) (e : CPExpr) :
    wrap egress f.name e = .ok (closures (localParams f)
      (e.subst f.locals (getCall egress f (requestName f)) false)) := by
  cases f with
  | tcpDisconnect => exact absurd rfl hf
  | _ => rfl

/-- What is sent: the one function, and how many arguments the proxy passes to it. -/
structure Sent (npol : GlobalPolicy) (f : EntryFunction) (g : CPExpr) : Prop where
  code : npol.program.code.get? f.name = some g
  noOther : ∀ h, h ≠ f.name → npol.program.code.get? h = none
  args : npol.fnPolicies.get? f.name = some (.Args (UInt8.ofNat f.locals))

theorem sent_compileHelper {pol npol : GlobalPolicy} {g : CPExpr}
    (h : compileHelper pol f.name ⟨{ (Policy.empty : GlobalPolicy).program with
      code := BTreeMap.insert ∅ f.name g }, ∅⟩ = .ok npol) : Sent npol f g := by
  have hlocal := f.localSig_length
  unfold compileHelper at h
  split at h
  · cases h
  · rename_i ret _
    have hlocal := hlocal ret
    split at h
    · cases h
    · rename_i sig hsig
      rw [hsig] at hlocal
      have hlen : (sig.args.getD []).length = f.locals := Option.some.inj hlocal
      dsimp only at h
      split at h
      · cases h
      · rename_i program hcut
        obtain rfl := Except.ok.inj h
        obtain ⟨set, rfl, hset⟩ := Program.deadcodeElim_eq_some hcut
        -- the entry function reaches itself
        have hself : f.name ∉ set := by
          intro hmem
          obtain ⟨-, hknown, hno⟩ := (hset f.name).mp hmem
          exact hno ⟨f.name, List.mem_singleton.mpr rfl, hknown, .refl⟩
        constructor
        · rw [Program.cut_code, if_neg hself]
          exact BTreeMap.get?_insert_self _ _ _
        · intro h hne
          rw [Program.cut_code]
          split
          · rfl
          · exact (BTreeMap.get?_insert_ne _ _ hne).trans rfl
        · rw [hlen]
          exact BTreeMap.get?_insert_self _ _ _

/-- The body that `peval` leaves, and what is made of it. -/
structure Compiled (rt : Runtime CPFlatLiteral) (egress : Bool) (pol : GlobalPolicy)
    (f : EntryFunction) (id : ID) (fn : GlobalFunction (f.locals + 2)) (npol : GlobalPolicy)
    (e : CPExpr) : Prop where
  peval : ∃ b e' w w', e = e'.stripReturn ∧
    (peval (Env.new rt pol.program) false (ownBody egress f id fn)).run w =
      some (.ok (b, e'), w')
  sent : Sent npol f (closures (localParams f)
    (e.subst f.locals (getCall egress f (requestName f)) false))

theorem compilePolicy_inv (hf : f ≠ .tcpDisconnect) {n : Nat} {egress : Bool}
    {pol npol : GlobalPolicy} {id : ID} {fn : GlobalFunction (f.locals + 2)}
    {w w' : World CPFlatLiteral}
    (h : (compilePolicy rt n egress pol f.name id fn.code).run w = some (.ok npol, w')) :
    ∃ e, Compiled rt egress pol f id fn npol e := by
  obtain ⟨nArgs, w₁, hargs, hbody⟩ := Comp.bind_eq_ok h
  obtain rfl := checkHeader_entry (Comp.ofExcept_eq_ok hargs).1
  rw [serviceBody_code] at hbody
  obtain ⟨⟨b, e⟩, w₂, hpeval, hrest⟩ := Comp.bind_eq_ok hbody
  obtain ⟨g, w₃, hwrap, hsend⟩ := Comp.bind_eq_ok hrest
  obtain ⟨⟨b', e'⟩, w₄, hpevalN, hpure⟩ := Comp.bind_eq_ok hpeval
  have he : e'.stripReturn = e := by
    cases hpure
    rfl
  have hg := (Comp.ofExcept_eq_ok hwrap).1
  rw [wrap_entry hf] at hg
  obtain rfl := Except.ok.inj hg
  exact ⟨e, ⟨b', e', _, _, he.symm, peval_of_pevalN hpevalN⟩,
    sent_compileHelper (Comp.ofExcept_eq_ok hsend).1⟩

end

/-! ## Calls from outside -/

section

variable {FT FL : Type} [TFlatTyp FT] [TFlatLiteral FT FL] [TInterpret FL] (env : Env FL)

theorem eval_call_lits (f : String) (args : List (Literal FL)) :
    eval env (.call f (args.map .litExpr)) = Lang.evalCall env (eval env) f false args := by
  have hargs : Comp.traverse (eval env) (args.map .litExpr) = pure (args.map Outcome.lit) := by
    induction args with
    | nil => rfl
    | cons l ls ih =>
        show (eval env (.litExpr l) >>= fun r => Comp.traverse (eval env) (ls.map .litExpr) >>= _) =
          _
        rw [ih, eval_eq]
        rfl
  rw [eval_eq]
  show (Comp.traverse (eval env) (args.map .litExpr) >>= fun rs => _) = _
  rw [hargs, pure_bind, literals_lits]

end

section

variable {rt : Runtime CPFlatLiteral} {f : EntryFunction} {egress : Bool} {id : ID}

theorem runApp_closures {env : Env CPFlatLiteral} (body : CPExpr) {params : List String}
    {args : List CPLiteral} (hlen : args.length = params.length) (ρ : List CPOutcome) :
    runApp env ρ (closures params body) (.ofLits args) =
      run env ((args.map Outcome.lit).reverse ++ ρ) body := by
  induction params generalizing args ρ with
  | nil =>
      obtain rfl := List.eq_nil_of_length_eq_zero hlen
      rfl
  | cons p ps ih =>
      obtain ⟨l, ls, rfl⟩ := List.exists_cons_of_length_pos (by rw [hlen]; exact Nat.succ_pos _)
      show runApp env ρ (.closure p (closures ps body)) ((Args.ofLits ls).cons (.lit l)) = _
      rw [runApp_closure, ih (Nat.succ.inj hlen), List.map_cons, List.reverse_cons,
        List.append_assoc]
      rfl

/-- A function whose body is known under its parameters. -/
theorem eval_call_closures {env : Env CPFlatLiteral} {h : String} {params : List String}
    {body : CPExpr} (hcode : env.get h = some (closures params body)) {args : List CPLiteral}
    (hlen : args.length = params.length) :
    eval env (.call h (args.map .litExpr)) =
      Outcome.stripReturn <$> run env (args.map Outcome.lit).reverse body := by
  rw [eval_call_lits, Lang.evalCall_user hcode, runApp_closures body hlen, List.append_nil]

theorem eval_globalCall {env : Env CPFlatLiteral} {fn : GlobalFunction (f.locals + 2)}
    (hcode : env.get f.name = some fn.code) {ls : List CPLiteral} (hls : ls.length = f.locals)
    (other : CPLiteral) :
    eval env (.call f.name ((globalArgs egress id other ls).map .litExpr)) =
      Outcome.stripReturn <$> run env (leftValues ls other) (ownBody egress f id fn) := by
  have hlen : (globalArgs egress id other ls).length = fn.params.length := by
    rw [fn.length_params, ← hls]
    cases egress <;> simp [globalArgs]
  rw [eval_call_closures hcode hlen, globalArgs_reverse, run_ownBody fn hls]

/-- A literal is what the call gives also where the body has lost its return. -/
theorem run_stripReturn {env : Env CPFlatLiteral} {ρ : List CPOutcome} {e : CPExpr}
    {w w' : World CPFlatLiteral} {o : CPOutcome} {l : CPLiteral}
    (h : (run env ρ e).run w = some (.ok o, w')) (ho : o.stripReturn = .lit l) :
    (Outcome.stripReturn <$> run env ρ e.stripReturn).run w = some (.ok (.lit l), w') := by
  have hkeep : ∀ {e : CPExpr}, (run env ρ e).run w = some (.ok o, w') →
      (Outcome.stripReturn <$> run env ρ e).run w = some (.ok (.lit l), w') :=
    fun h => ho ▸ Comp.run_bind_ok h
  cases e with
  | returnExpr r =>
      rw [run_returnExpr] at h
      obtain ⟨q, hq, rfl⟩ := Comp.map_eq_ok h
      obtain rfl : q = .lit l := ho
      exact Comp.run_bind_ok hq
  | _ => exact hkeep h

theorem run_stripReturn_error {env : Env CPFlatLiteral} {ρ : List CPOutcome} {e : CPExpr}
    {w w' : World CPFlatLiteral} {err : Error CPFlatLiteral}
    (h : (run env ρ e).run w = some (.error err, w')) :
    (Outcome.stripReturn <$> run env ρ e.stripReturn).run w = some (.error err, w') := by
  cases e with
  | returnExpr r =>
      rw [run_returnExpr] at h
      rcases Comp.bind_eq_some h with ⟨err', he, heq⟩ | ⟨q, w₁, -, hq⟩
      · cases heq
        exact Comp.run_bind_error he
      · cases hq
  | _ => exact Comp.run_bind_error h

/-- The getter finds the other identity in a program that does not define it. -/
theorem eval_getter {env : Env CPFlatLiteral} {st : State} {compile : Compiler} {pf : Platform}
    (hbuiltin : env.builtin = Control.evalCall st compile pf)
    (hnone : env.get (f.getter egress) = none) {l other : DPLiteral}
    (hl : l.evalCall1 pf (f.getter egress) = .ok (some other)) :
    eval env (.call (f.getter egress) [.litExpr (.ofDP l)]) = pure (.lit (.ofDP other)) := by
  obtain ⟨hlookup, hdp⟩ := getters_shared _ (getter_mem f egress)
  obtain ⟨hlit, hstate⟩ := not_mem_own hdp
  have hcall := eval_call_lits env (f.getter egress) [.ofDP l]
  rw [List.map_singleton] at hcall
  rw [hcall, Lang.evalCall, hnone]
  dsimp only
  rw [if_pos ((isBuiltin_shared hlookup).trans hdp), hbuiltin, evalCall_eq_evalBuiltin hstate]
  show Outcome.lit <$>
    EvalM.lift _ ((Literal.ofDP l : CPLiteral).evalCall1 pf (f.getter egress)) = _
  rw [evalCall1_ofDP hlit, hl]
  rfl

variable {st : State} {compile : Compiler} {pf : Platform}
variable {rpcC : List CPEffect → String → CPEffect → Except String CPLiteral}
variable {rpcD : List (Effect DPFlatLiteral) → String → Effect DPFlatLiteral →
  Except String DPLiteral}

/-- On the control plane, the function that is sent does what the global function does. -/
theorem call_sent {pol npol : GlobalPolicy} {fn : GlobalFunction (f.locals + 2)} {e : CPExpr}
    (hrt : rt.builtin = Control.evalCall st compile pf)
    (hclosed : (Env.new rt pol.program).Closed)
    (hcode : pol.program.code.get? f.name = some fn.code)
    (hc : Compiled rt egress pol f id fn npol e) {ls : List DPLiteral}
    (hls : ls.length = f.locals) {other : DPLiteral}
    (hother : ∀ l, ls.head? = some l → l.evalCall1 pf (f.getter egress) = .ok (some other))
    {strict : Bool} {w : World CPFlatLiteral} (hs : Specializes (Env.new rt pol.program) strict
      pol.program egress f id fn (ls.map .ofDP) (.ofDP other) w) (w' : World CPFlatLiteral) :
    (∀ l, (eval (Env.new rt pol.program) (.call f.name
        ((globalArgs egress id (.ofDP other) (ls.map .ofDP)).map .litExpr))).run w =
          some (.ok (.lit l), w') →
      (eval (Env.new rt npol.program) (.call f.name ((ls.map .ofDP).map .litExpr))).run w =
        some (.ok (.lit l), w')) ∧
    (strict = true → ∀ err, (eval (Env.new rt pol.program) (.call f.name
        ((globalArgs egress id (.ofDP other) (ls.map .ofDP)).map .litExpr))).run w =
          some (.error err, w') →
      ∃ err', (eval (Env.new rt npol.program) (.call f.name ((ls.map .ofDP).map .litExpr))).run w =
        some (.error err', w')) := by
  obtain ⟨b, e', w₀, w₁, rfl, hpeval⟩ := hc.peval
  obtain ⟨hfaithful, hport⟩ := hs w₀ _ w₁ hpeval
  have hls' : (ls.map (Literal.ofDP : DPLiteral → CPLiteral)).length = f.locals := by
    rw [List.length_map, hls]
  have hsome : (pol.program.code.get? f.name).isSome = true := by
    rw [hcode]
    rfl
  have hsim := (hfaithful.sim hclosed).run ⟨rfl, rfl, rfl⟩ rfl
  -- the other identity is derived from the first argument again
  have hget : run (Env.new rt npol.program) ((ls.map Literal.ofDP).map Outcome.lit).reverse
      (getCall egress f (requestName f)) = pure (.lit (.ofDP other)) := by
    refine run_getCall egress f _ hls' (fun l hl => ?_)
    rw [List.head?_map] at hl
    obtain ⟨d, hd, rfl⟩ := Option.map_eq_some_iff.mp hl
    have hnone : (Env.new rt npol.program).get (f.getter egress) = none := by
      refine hc.sent.noOther _ ?_
      cases f <;> cases egress <;> decide
    exact eval_getter hrt hnone (hother d hd)
  have hlocal : eval (Env.new rt npol.program)
        (.call f.name ((ls.map Literal.ofDP).map .litExpr)) =
      Outcome.stripReturn <$> run (Env.new rt pol.program)
        (leftValues (ls.map .ofDP) (.ofDP other)) e'.stripReturn := by
    have hsent : (Env.new rt npol.program).get f.name = some _ := hc.sent.code
    rw [eval_call_closures hsent (hls'.trans (length_localParams f).symm),
      run_subst_getCall _ hls' hget hport.inScope hport.outside,
      run_kept hsome hc.sent.noOther hport.calls]
  have hglobal : (Env.new rt pol.program).get f.name = some fn.code := hcode
  rw [hlocal, eval_globalCall hglobal hls']
  constructor
  · intro l hl
    obtain ⟨o, ho, hol⟩ := Comp.map_eq_ok hl
    obtain ⟨t, ht, rfl⟩ := hsim.run_ok ho
    exact run_stripReturn ht hol
  · intro hstrict err herr
    rcases Comp.bind_eq_some herr with ⟨err', he, -⟩ | ⟨o, w₂, -, ho⟩
    · obtain ⟨err₁, t, ht, rfl⟩ := hsim _ _ he hstrict
      exact ⟨err₁, run_stripReturn_error ht⟩
    · cases ho

/-! ## All policies -/

/-- Every protocol whose policy defines the function has the policy that is compiled for it. -/
theorem compilePolicies_inv {n : Nat} {l : List (Protocol × GlobalPolicy)}
    (hl : l.Pairwise (fun a b => a.1 < b.1)) {new new' : GlobalPolicies}
    {w w' : World CPFlatLiteral}
    (h : (compilePolicies rt n egress f.name id l new).run w = some (.ok new', w')) :
    (∀ proto, (∀ p ∈ l, p.1 ≠ proto) → new'.get? proto = new.get? proto) ∧
    ∀ proto pol, (proto, pol) ∈ l → ∀ e, pol.program.code.get? f.name = some e →
      ∃ npol w₁ w₂, (compilePolicy rt n egress pol f.name id e).run w₁ = some (.ok npol, w₂) ∧
        new'.get? proto = some npol := by
  induction l generalizing new w with
  | nil =>
      cases h
      exact ⟨fun _ _ => rfl, fun _ _ h => absurd h List.not_mem_nil⟩
  | cons p rest ih =>
      obtain ⟨proto₀, pol₀⟩ := p
      obtain ⟨hlt, hrest⟩ := List.pairwise_cons.mp hl
      unfold compilePolicies at h
      cases hcode : pol₀.program.code.get? f.name with
      | none =>
          rw [hcode] at h
          obtain ⟨hother, hthis⟩ := ih hrest h
          refine ⟨fun proto hne => hother proto (fun p hp => hne p (List.mem_cons_of_mem _ hp)),
            fun proto pol hmem e he => ?_⟩
          rcases List.mem_cons.mp hmem with hmem | hmem
          · cases hmem
            rw [hcode] at he
            cases he
          · exact hthis proto pol hmem e he
      | some fexpr =>
          rw [hcode] at h
          obtain ⟨npol, w₁, hpol, h⟩ := Comp.bind_eq_ok h
          obtain ⟨hother, hthis⟩ := ih hrest h
          refine ⟨fun proto hne => ?_, fun proto pol hmem e he => ?_⟩
          · rw [hother proto (fun p hp => hne p (List.mem_cons_of_mem _ hp))]
            exact BTreeMap.get?_insert_ne _ _ (hne _ List.mem_cons_self).symm
          · rcases List.mem_cons.mp hmem with hmem | hmem
            · cases hmem
              obtain rfl : fexpr = e := Option.some.inj (hcode.symm.trans he)
              refine ⟨npol, _, _, hpol, ?_⟩
              rw [hother proto₀ (fun p hp => (hlt p hp).ne')]
              exact BTreeMap.get?_insert_self _ _ _
            · exact hthis proto pol hmem e he

/-! ## The proxy -/

theorem callsIn_closures {ok : String → Prop} (params : List String) {e : CPExpr}
    (he : e.CallsIn ok) : (closures params e).CallsIn ok := by
  induction params with
  | nil => exact he
  | cons p ps ih => exact ih

/-- What is sent calls nothing but what the data plane has. -/
theorem sharedCode_sent {pol npol : GlobalPolicy} {x : String} {e : CPExpr}
    (hport : Portable pol.program f e)
    (hsent : Sent npol f (closures (localParams f) (e.subst f.locals (getCall egress f x) false))) :
    SharedCode npol.program := by
  intro q hq
  have hget := (BTreeMap.mem_entries _ q.1 q.2).mp hq
  have hname : q.1 = f.name := by
    by_contra hne
    rw [hsent.noOther _ hne] at hget
    cases hget
  rw [hname, hsent.code] at hget
  rw [← Option.some.inj hget]
  have hone : ∀ e ∈ ([.bvar x (f.locals - 1)] : List CPExpr),
      e.CallsIn (Shared npol.program) := by
    intro e he c hc
    rw [List.mem_singleton.mp he] at hc
    cases hc
  have hgetter : (getCall egress f x).CallsIn (Shared npol.program) :=
    Expr.CallsIn.call_iff.mpr ⟨fun e he => hone e he,
      Or.inr (getters_shared _ (getter_mem f egress)).1⟩
  refine callsIn_closures _ (Expr.CallsIn.mapVars (fun _ _ c hc => by cases hc)
    (fun d y j => ?_) (fun c hc => Or.inr (hport.calls c hc).shared) f.locals)
  have hindex : ∀ k, (Expr.bvar y k : CPExpr).CallsIn (Shared npol.program) := by
    intro k c hc
    cases hc
  unfold Expr.substVar
  split
  · exact hindex _
  · split
    · exact hgetter
    · exact hindex _

theorem embeds_sent {npol : GlobalPolicy} {lp : Policy FlatTyp DPFlatLiteral}
    (hp : npol.toDP? = some lp) {g : CPExpr} (hsent : Sent npol f g)
    (hshared : SharedCode npol.program)
    (hrpc : Alike (dataPlane rpcD pf) (controlPlane st rpcC pf compile)) (ls : List DPLiteral) :
    Embeds Outcome.ofDP
      (eval (Env.new (dataPlane rpcD pf) lp.program) (.call f.name (ls.map .litExpr)))
      (eval (Env.new (controlPlane st rpcC pf compile) npol.program)
        (.call f.name ((ls.map .ofDP).map .litExpr))) := by
  obtain ⟨d, hd, hlp⟩ := Option.bind_eq_some_iff.mp hp
  obtain rfl := Option.some.inj hlp
  have hcalls : (Expr.call f.name (ls.map .litExpr) : DPExpr).CallsIn (Shared npol.program) := by
    refine Expr.CallsIn.call_iff.mpr ⟨callsIn_lits ls, Or.inl ?_⟩
    rw [hsent.code]
    rfl
  have hcall : (Expr.ofDP (.call f.name (ls.map .litExpr)) : CPExpr) =
      .call f.name ((ls.map .ofDP).map .litExpr) := by
    show Expr.callExpr f.name (Expr.ofDPs (ls.map .litExpr)) false = _
    rw [Expr.ofDPs_map, List.map_map, List.map_map]
    rfl
  rw [← hcall]
  exact embeds_eval hd hshared hrpc hcalls

/-- Each policy of a proxy is a policy that was compiled. -/
theorem compileEgressIngress_inv (hf : f ≠ .tcpDisconnect) {n : Nat} {globalPol : GlobalPolicies}
    {lps : DPPolicies} {w₀ w₁ : World CPFlatLiteral}
    (hrun : (compileEgressIngress (controlPlane st rpcC pf compile) n egress globalPol f.name
      id).run w₀ = some (.ok lps, w₁))
    {proto : Protocol} {pol : GlobalPolicy} (hpol : globalPol.get? proto = some pol)
    {fn : GlobalFunction (f.locals + 2)}
    (hcode : pol.program.code.get? f.name = some fn.code) :
    ∃ npol e lp, Compiled (controlPlane st rpcC pf compile) egress pol f id fn npol e ∧
      npol.toDP? = some lp ∧ lps.get? proto = some lp ∧
      lp.fnPolicies.get? f.name = some (.Args (UInt8.ofNat f.locals)) := by
  obtain ⟨new, w₂, hnew, hconvert⟩ := Comp.bind_eq_ok hrun
  have hlps : new.toDP? = some lps := by
    cases h : new.toDP? with
    | none =>
        rw [h] at hconvert
        cases hconvert
    | some pols =>
        rw [h] at hconvert
        cases hconvert
        rfl
  obtain ⟨-, hthis⟩ := compilePolicies_inv globalPol.sorted hnew
  obtain ⟨npol, w₃, w₄, hcompile, hnpol⟩ :=
    hthis proto pol ((BTreeMap.mem_entries _ _ _).mpr hpol) _ hcode
  obtain ⟨e, hc⟩ := compilePolicy_inv hf hcompile
  obtain ⟨lp, hlp, hget⟩ := BTreeMap.get?_traverse hlps hnpol
  have hargs : lp.fnPolicies = npol.fnPolicies := by
    obtain ⟨d, -, h⟩ := Option.bind_eq_some_iff.mp hlp
    obtain rfl := Option.some.inj h
    rfl
  exact ⟨npol, e, lp, hc, hlp, hget, hargs ▸ hc.sent.args⟩

/-- On the proxy, the function that is sent does what the global function does. -/
theorem agrees_sent {pol npol : GlobalPolicy} {fn : GlobalFunction (f.locals + 2)} {e : CPExpr}
    {lp : Policy FlatTyp DPFlatLiteral}
    (hc : Compiled (controlPlane st rpcC pf compile) egress pol f id fn npol e)
    (hlp : npol.toDP? = some lp)
    (hrpc : Alike (dataPlane rpcD pf) (controlPlane st rpcC pf compile))
    (hcode : pol.program.code.get? f.name = some fn.code)
    (hclosed : (Env.new (controlPlane st rpcC pf compile) pol.program).Closed)
    {ls : List DPLiteral} (hls : ls.length = f.locals) {other : DPLiteral}
    (hother : ∀ l, ls.head? = some l → l.evalCall1 pf (f.getter egress) = .ok (some other))
    {strict : Bool} {w : World DPFlatLiteral}
    (hs : Specializes (Env.new (controlPlane st rpcC pf compile) pol.program) strict pol.program
      egress f id fn (ls.map .ofDP) (.ofDP other) w.ofDP)
    (w' : World CPFlatLiteral) :
    (∀ l, (eval (Env.new (controlPlane st rpcC pf compile) pol.program) (.call f.name
        ((globalArgs egress id (.ofDP other) (ls.map .ofDP)).map .litExpr))).run w.ofDP =
          some (.ok (.lit l), w') →
      ∃ l' w'', (eval (Env.new (dataPlane rpcD pf) lp.program)
          (.call f.name (ls.map .litExpr))).run w = some (.ok (.lit l'), w'') ∧
        l = .ofDP l' ∧ w' = w''.ofDP) ∧
    (strict = true → ∀ err, (eval (Env.new (controlPlane st rpcC pf compile) pol.program)
        (.call f.name
          ((globalArgs egress id (.ofDP other) (ls.map .ofDP)).map .litExpr))).run w.ofDP =
          some (.error err, w') →
      ∃ err' w'', (eval (Env.new (dataPlane rpcD pf) lp.program)
          (.call f.name (ls.map .litExpr))).run w = some (.error err', w'') ∧
        w' = w''.ofDP) := by
  obtain ⟨hok, herr⟩ := call_sent rfl hclosed hcode hc hls hother hs w'
  -- what specialization leaves does not depend on the arguments
  have hport : Portable pol.program f e := by
    obtain ⟨b, e', w₀, w₁, rfl, hpeval⟩ := hc.peval
    exact (hs w₀ _ w₁ hpeval).2
  have hembeds := embeds_sent hlp hc.sent (sharedCode_sent hport hc.sent) hrpc ls w
  constructor
  · intro l hl
    rw [hok l hl] at hembeds
    obtain ⟨⟨r, w''⟩, hr, himage⟩ := Option.map_eq_some_iff.mp hembeds.symm
    cases r with
    | error err => cases himage
    | ok o =>
        cases o with
        | lit l' =>
            cases himage
            exact ⟨l', w'', hr, rfl, rfl⟩
        | ret o => cases himage
  · intro hstrict err herr'
    obtain ⟨err', hfail⟩ := herr hstrict err herr'
    rw [hfail] at hembeds
    obtain ⟨⟨r, w''⟩, hr, himage⟩ := Option.map_eq_some_iff.mp hembeds.symm
    cases r with
    | error err =>
        cases himage
        exact ⟨err, w'', hr, rfl⟩
    | ok o => cases himage

/-- What a proxy is sent for a protocol, the entry function of its global policy specialized to
the service, answers on its arguments what the global function answers on them and the two
identities.  Where specialization is faithful to failures as well, it fails when the global
function does, with the same effects. -/
theorem compiled_agrees (hf : f ≠ .tcpDisconnect) {n : Nat} {globalPol : GlobalPolicies}
    {lps : DPPolicies} {w₀ w₁ : World CPFlatLiteral}
    (hrun : (compileEgressIngress (controlPlane st rpcC pf compile) n egress globalPol f.name
      id).run w₀ = some (.ok lps, w₁))
    (hrpc : Alike (dataPlane rpcD pf) (controlPlane st rpcC pf compile))
    {proto : Protocol} {pol : GlobalPolicy} (hpol : globalPol.get? proto = some pol)
    {fn : GlobalFunction (f.locals + 2)}
    (hcode : pol.program.code.get? f.name = some fn.code)
    (hclosed : (Env.new (controlPlane st rpcC pf compile) pol.program).Closed) :
    ∃ lp, lps.get? proto = some lp ∧
      lp.fnPolicies.get? f.name = some (.Args (UInt8.ofNat f.locals)) ∧
      ∀ (strict : Bool) (ls : List DPLiteral) (other : DPLiteral), ls.length = f.locals →
        (∀ l, ls.head? = some l → l.evalCall1 pf (f.getter egress) = .ok (some other)) →
        ∀ (w : World DPFlatLiteral) (w' : World CPFlatLiteral),
          Specializes (Env.new (controlPlane st rpcC pf compile) pol.program) strict pol.program
            egress f id fn (ls.map .ofDP) (.ofDP other) w.ofDP →
          (∀ l, (eval (Env.new (controlPlane st rpcC pf compile) pol.program) (.call f.name
              ((globalArgs egress id (.ofDP other) (ls.map .ofDP)).map .litExpr))).run w.ofDP =
                some (.ok (.lit l), w') →
            ∃ l' w'', (eval (Env.new (dataPlane rpcD pf) lp.program)
                (.call f.name (ls.map .litExpr))).run w = some (.ok (.lit l'), w'') ∧
              l = .ofDP l' ∧ w' = w''.ofDP) ∧
          (strict = true → ∀ err, (eval (Env.new (controlPlane st rpcC pf compile) pol.program)
              (.call f.name
                ((globalArgs egress id (.ofDP other) (ls.map .ofDP)).map .litExpr))).run w.ofDP =
                some (.error err, w') →
            ∃ err' w'', (eval (Env.new (dataPlane rpcD pf) lp.program)
                (.call f.name (ls.map .litExpr))).run w = some (.error err', w'') ∧
              w' = w''.ofDP) := by
  obtain ⟨npol, e, lp, hc, hlp, hget, hargs⟩ := compileEgressIngress_inv hf hrun hpol hcode
  refine ⟨lp, hget, hargs, ?_⟩
  intro strict ls other hls hother w w' hs
  exact agrees_sent hc hlp hrpc hcode hclosed hls hother hs w'

end

/-! ## A policy of connections -/

/-- `if 1 == 1 { from == to } else { false }`, in a function of a connection. -/
def sameEnds : GlobalFunction (EntryFunction.tcpConnection.locals + 2) where
  params := ["from", "to", "conn"]
  body := .ifExpr (.infixExpr .equal (.litExpr (.int 1)) (.litExpr (.int 1)))
    (.infixExpr .equal (.bvar "from" 2) (.bvar "to" 1)) (some (.litExpr (.bool false)))
  length_params := rfl
  inScope := rfl
  notClosure := rfl

def sameEndsPolicy : GlobalPolicy where
  program := {
    code := BTreeMap.insert ∅ allowTcpConnection sameEnds.code
    externals := .empty
    headers := BTreeMap.insert ∅ allowTcpConnection (.new [.id, .id, .connection] .bool) }
  fnPolicies := ∅

/-- A control plane with an empty database. -/
def emptyPlane : Runtime CPFlatLiteral :=
  controlPlane .empty (fun _ _ _ => .error "unreachable") .offline (fun _ _ _ _ => pure ∅)

theorem sameEnds_faithful {s : CPWorld} (w : CPWorld) :
    Faithful (Env.new emptyPlane sameEndsPolicy.program) (.all true)
      (.here (.start (leftValues [.connection .empty] (.id .empty)) s)) false
      (ownBody true .tcpConnection .empty sameEnds) w
      (false, .infixExpr .equal (.litExpr (.id .empty)) (.bvar "to" 1)) w := by
  refine .ifTrue (.infixStatic .litExpr .litExpr rfl) rfl ?_
  exact .infixKeep .litExpr .bvar rfl

/-- The policy is specialized to a service with an empty identity.  The connection to itself that
the global function accepts, the proxy accepts. -/
theorem compiled_agrees_sameEnds : ∃ lps lp w w', (compileEgressIngress emptyPlane 6 true
      (BTreeMap.insert ∅ .TCP sameEndsPolicy) allowTcpConnection .empty).run default =
        some (.ok lps, w) ∧
    lps.get? .TCP = some lp ∧
    (eval (Env.new (dataPlane (fun _ _ _ => .error "unreachable") .offline) lp.program)
      (.call allowTcpConnection [.litExpr (.connection .empty)])).run default =
        some (.ok (.lit (.bool true)), w') := by
  have hrun : (compileEgressIngress emptyPlane 6 true (BTreeMap.insert ∅ .TCP sameEndsPolicy)
      EntryFunction.tcpConnection.name .empty).run default = some (.ok _, _) := rfl
  have hclosed : (Env.new emptyPlane sameEndsPolicy.program).Closed := by
    intro f e he
    have he : (BTreeMap.insert ∅ allowTcpConnection sameEnds.code).get? f = some e := he
    rw [BTreeMap.get?_insert] at he
    split at he
    · rw [← Option.some.inj he]
      rfl
    · cases he
  have hrpc : Alike (dataPlane (fun _ _ _ => .error "unreachable") .offline) emptyPlane :=
    fun _ _ _ => rfl
  have hcode : sameEndsPolicy.program.code.get? EntryFunction.tcpConnection.name =
      some sameEnds.code := BTreeMap.get?_insert_self _ _ _
  obtain ⟨lp, hlp, -, hagrees⟩ := compiled_agrees (by decide) hrun hrpc
    (BTreeMap.get?_insert_self _ _ _) hcode hclosed
  have hport : Portable sameEndsPolicy.program .tcpConnection
      (.infixExpr .equal (.litExpr (.id .empty)) (.bvar "to" 1)) :=
    ⟨rfl, rfl, fun c hc => by cases hc⟩
  obtain ⟨hok, -⟩ := hagrees true [.connection .empty] (.id .empty) rfl
    (fun l hl => by cases hl; rfl) default _ (.intro sameEnds_faithful hport)
  have hglobal : (eval (Env.new emptyPlane sameEndsPolicy.program) (.call allowTcpConnection
      [.litExpr (.id .empty), .litExpr (.id .empty), .litExpr (.connection .empty)])).run
        (World.ofDP default) = some (.ok (.lit (.bool true)), _) := eval_of_evalN (n := 8) rfl
  obtain ⟨l', w', hlocal, hl, -⟩ := hok _ hglobal
  have hl' : l' = .bool true := by
    cases l' with
    | flat d =>
        cases hl
        rfl
    | list ls => cases hl
    | tuple ls => cases hl
  exact ⟨_, lp, _, w', hrun, hlp, hl' ▸ hlocal⟩

end Armour.Control
