import Armour.Control.Compilation
import Armour.Lang.Merging
import Armour.Proxy.Mediation
import Armour.Proxy.Passing

/-! # The global policy on a proxy

A proxy that has installed what the control plane compiled for its service decides its exchanges
as the global policy does.  The installed policy can be a merged one: it says of the compiled
policies what they say themselves.
-/

namespace Armour.Control

open Armour.Lib Armour.Lang

/-- The function that is sent is defined on the proxy. -/
theorem Sent.uses {f : EntryFunction} {npol : GlobalPolicy} {g : CPExpr} (hsent : Sent npol f g)
    {lp : Policy FlatTyp DPFlatLiteral} (hlp : npol.toDP? = some lp) : lp.Uses f.name := by
  obtain ⟨d, hd, h⟩ := Option.bind_eq_some_iff.mp hlp
  obtain rfl := Option.some.inj h
  left
  have hcode := code_toDP hd f.name
  rw [hsent.code] at hcode
  obtain ⟨e, he, -⟩ := Option.map_eq_some_iff.mp hcode.symm
  show (d.code.get? f.name).isSome = true
  rw [he]
  rfl

end Armour.Control

namespace Armour.Proxy

open Armour.Lib Armour.Lang Armour.Control

/-! ## The answers of an actor -/

/-- The entry function of a global policy behind a function of a proxy. -/
def HttpFn.entry : HttpFn → EntryFunction
  | Request => .restRequest
  | Response => .restResponse

@[simp] theorem HttpFn.entry_name (h : HttpFn) : h.entry.name = h.function := by
  cases h <;> rfl

@[simp] theorem HttpFn.entry_locals (h : HttpFn) : h.entry.locals = 2 := by
  cases h <;> rfl

theorem HttpFn.entry_ne (h : HttpFn) : h.entry ≠ .tcpDisconnect := by
  cases h <;> decide

/-- What an evaluation for the header `xArmour` starts from. -/
def PolicyActor.world (a : PolicyActor) (xArmour : Option String) : World DPFlatLiteral :=
  ⟨.new (xArmour.bind a.decryptMeta) a.label, []⟩

section

variable {a : PolicyActor} {o : Outside} {h : HttpFn} {args : List DPLiteral}
  {xArmour : Option String} {answer : Except DPError (Bool × Option String)}

/-- The answer of the actor, by what the interpreter answers in the end. -/
theorem evalHttpFn_answer (heval : a.evalHttpFn o h args xArmour = some answer)
    {r : Except DPError (Outcome DPFlatLiteral)} {w : World DPFlatLiteral}
    (hrun : (eval (dpEnv o a.http.policy) (.call h.function (args.map .litExpr))).run
      (a.world xArmour) = some (r, w)) :
    answer = (convert tryBool (r.map Outcome.stripReturn, w)).map
      (fun p => (p.1, a.encryptMeta o.now p.2)) := by
  obtain ⟨r', hr', rfl⟩ := Option.map_eq_some_iff.mp heval
  -- two ends of one evaluation are the same
  obtain ⟨u, hlast, rfl⟩ := evaluate_eq_some hr'
  have hstrip : (Outcome.stripReturn <$> eval (dpEnv o a.http.policy)
      (.callExpr h.function (args.map .litExpr) false)).run (a.world xArmour) =
        some (r.map Outcome.stripReturn, w) := by
    cases r with
    | error err => exact Comp.run_bind_error hrun
    | ok l => exact Comp.run_bind_ok hrun
  have hsame : u = (r.map Outcome.stripReturn, w) :=
    Option.some.inj (hlast.symm.trans hstrip)
  rw [hsame]

end

/-! ## Exchanges under a compiled policy -/

/-- The global function on the arguments of a decision, `other` at the other end. -/
def globalCall (egress : Bool) (id other : ID) (d : Decision) : CPExpr :=
  .call d.fn.function ((globalArgs egress id (.id other)
    [.ofDP d.subject, .data d.payload]).map .litExpr)

/-- What the global function answers, with the metadata that the proxy has decrypted, is what was
decided, with the metadata that is left encrypted; where `strict`, it fails only if the decision
is an error. -/
def GlobalAnswer (env : Env CPFlatLiteral) (a : PolicyActor) (now : Nat) (strict egress : Bool)
    (id other : ID) (d : Decision) : Prop :=
  ∀ r w, (eval env (globalCall egress id other d)).run (a.world d.ingress).ofDP = some (r, w) →
    (∀ b, r = .ok (.lit (.bool b)) →
      d.answer = .ok (b, a.encryptMeta now w.metadata.egressMeta)) ∧
    (strict = true → ∀ err, r = .error err → ∃ err', d.answer = .error err')

section

variable {st : Control.State} {compile : Compiler} {pf : Platform}
variable {rpcC : List CPEffect → String → CPEffect → Except String CPLiteral}

/-- The decision is the answer of the actor to an evaluation, and the answer of the global
function, on arguments on which specialization is faithful. -/
def DecidedGlobally (rt : Runtime CPFlatLiteral) (pol : GlobalPolicy) (egress : Bool) (id : ID)
    (h : HttpFn) (fn : GlobalFunction (h.entry.locals + 2)) (a : PolicyActor) (o : Outside)
    (d : Decision) : Prop :=
  a.evalHttpFn o h [d.subject, .data d.payload] d.ingress = some d.answer ∧
    ∀ strict other, o.platform = rt.platform → Alike (dataPlane o.rpc o.platform) rt →
      d.subject.evalCall1 o.platform (h.entry.getter egress) = .ok (some (.id other)) →
      Specializes (Env.new rt pol.program) strict pol.program egress h.entry id fn
        [.ofDP d.subject, .data d.payload] (.id other) (a.world d.ingress).ofDP →
      GlobalAnswer (Env.new rt pol.program) a o.now strict egress id other d

theorem DecidedGlobally.intro {h : HttpFn} {egress : Bool} {id : ID} {pol npol : GlobalPolicy}
    {fn : GlobalFunction (h.entry.locals + 2)} {e : CPExpr} {lp : DPPolicy}
    (hc : Compiled (controlPlane st rpcC pf compile) egress pol h.entry id fn npol e)
    (hlp : npol.toDP? = some lp)
    (hcode : pol.program.code.get? h.entry.name = some fn.code)
    (hclosed : (Env.new (controlPlane st rpcC pf compile) pol.program).Closed)
    {a : PolicyActor} (hdescribes : a.http.policy.Describes lp) {o : Outside} {d : Decision}
    (hd : d.fn = h)
    (heval : a.evalHttpFn o h [d.subject, .data d.payload] d.ingress = some d.answer) :
    DecidedGlobally (controlPlane st rpcC pf compile) pol egress id h fn a o d := by
  refine ⟨heval, ?_⟩
  rintro strict other rfl hrpc hother hs r w hrun
  have hother' : ∀ l, [d.subject, .data d.payload].head? = some l →
      l.evalCall1 o.platform (h.entry.getter egress) = .ok (some (.id other)) := by
    rintro l hl
    cases hl
    exact hother
  have hlen : [d.subject, .data d.payload].length = h.entry.locals := h.entry_locals.symm
  obtain ⟨hok, herr⟩ := agrees_sent hc hlp hrpc hcode hclosed hlen hother' hs w
  rw [globalCall, hd, ← HttpFn.entry_name] at hrun
  -- the installed policy does what the compiled one does
  have hsame := hdescribes.eval (dataPlane o.rpc o.platform) (hc.sent.uses hlp)
    [d.subject, .data d.payload]
  constructor
  · rintro b rfl
    obtain ⟨l', w', hlocal, hl, rfl⟩ := hok _ hrun
    rw [← hsame, HttpFn.entry_name] at hlocal
    rw [evalHttpFn_answer heval hlocal]
    have hbool : tryBool l' = some b := by
      have hconverted : (Literal.ofDP l' : CPLiteral).getBool? = l'.getBool? :=
        Literal.getBool?_ofDP l'
      rw [tryBool, ← hconverted, ← hl]
      exact Literal.getBool?_bool b
    show (convert tryBool (.ok (.lit l'), w')).map _ = _
    unfold convert
    dsimp only
    rw [hbool]
    rfl
  · rintro hstrict err rfl
    obtain ⟨err', w', hlocal, -⟩ := herr hstrict err hrun
    rw [← hsame, HttpFn.entry_name] at hlocal
    exact ⟨err', evalHttpFn_answer heval hlocal⟩

/-- Under a policy that asks for both arguments, a decision is evaluated on both. -/
theorem PolicyActor.Gives.args {a : PolicyActor} {d : Decision} (hgives : a.Gives d)
    (hstatus : d.fn.status a.http.status = .Args 2) :
    d.args = some [d.subject, .data d.payload] := by
  unfold PolicyActor.Gives at hgives
  rw [hstatus] at hgives
  obtain ⟨args, o, hlist, hargs, -⟩ := hgives
  exact hargs.trans (congrArg some (Option.some.inj hlist).symm)

end

/-- A proxy whose installed policy describes what was compiled for its service decides as the
global policy does. -/
theorem exchange_globally {st : Control.State} {compile : Compiler} {pf : Platform}
    {rpcC : List CPEffect → String → CPEffect → Except String CPLiteral} (h : HttpFn) {n : Nat}
    {egress : Bool} {globalPol : GlobalPolicies} {id : ID} {lps : DPPolicies}
    {w₀ w₁ : World CPFlatLiteral}
    (hcompiled : (compileEgressIngress (controlPlane st rpcC pf compile) n egress globalPol
      h.entry.name id).run w₀ = some (.ok lps, w₁))
    {pol : GlobalPolicy} (hpol : globalPol.get? .HTTP = some pol)
    {fn : GlobalFunction (h.entry.locals + 2)}
    (hcode : pol.program.code.get? h.entry.name = some fn.code)
    (hclosed : (Env.new (controlPlane st rpcC pf compile) pol.program).Closed)
    {label : Label} {timeout : UInt8} {aead : Aead} {es₀ : List Event} {t₀ : State}
    (hrun₀ : proxy.run (.start (.create label timeout aead)) es₀ = some t₀)
    (hinstalled : ∀ lp, lps.get? .HTTP = some lp → t₀.actor.http.policy.Describes lp)
    {i : Nat} (hnew : t₀.exchanges i = none) {es : List Event}
    (stays : ∀ ps p, .setPolicy ps ∈ es → ps.get? .HTTP = some p →
      p = t₀.actor.http.policy)
    {s : State} (hrun : proxy.run t₀ es = some s) {x : Exchange} (hx : s.exchanges i = some x) :
    (∀ out, x.forwarded = some out → ∃ d ∈ x.decisions, ForwardedBy x.req d out) ∧
    ∀ d ∈ x.decisions, d.fn = h → ∃ t o, Evaluates t₀ es i t o ∧
      DecidedGlobally (controlPlane st rpcC pf compile) pol egress id h fn t₀.actor o d := by
  have hcons := consistent_run hrun₀
  have hfollows := followsStaying_run hcons hnew stays hrun
  have hmediates := (hfollows.2.2 x hx).mediates
  refine ⟨hmediates.forwarded, fun d hd hfn => ?_⟩
  obtain ⟨npol, e, lp, hc, hlp, hget, hargs⟩ :=
    compileEgressIngress_inv h.entry_ne hcompiled hpol hcode
  have hdescribes := hinstalled lp hget
  -- the policy asks for the request or the response and its payload
  have hstatus : d.fn.status t₀.actor.http.status = .Args 2 := by
    have hof : statusOf t₀.actor.http.policy h.function = .Args 2 := by
      rw [HttpFn.entry_name, HttpFn.entry_locals] at hargs
      show (t₀.actor.http.policy.get h.function).getD default = _
      rw [hdescribes.status _ _ hargs]
      rfl
    rw [hfn]
    cases h with
    | Request => exact hcons.1.trans hof
    | Response => exact hcons.2.trans hof
  have hboth := (hmediates.gives d hd).args hstatus
  rcases ((Recorded.run hrun).exchanges i hnew x hx).made d hd with
    ⟨hnone, -⟩ | ⟨t, o, ht, args, hargs', heval⟩
  · rw [hboth] at hnone
    cases hnone
  · rw [hboth] at hargs'
    obtain rfl := Option.some.inj hargs'
    refine ⟨t, o, ht, DecidedGlobally.intro hc hlp hcode hclosed hdescribes hfn ?_⟩
    -- the actor has not changed its policy since
    obtain ⟨es₁, es₂, hsplit, hrun₁⟩ := ht
    have hsame : t₀.actor.SamePolicy t.actor :=
      (followsStaying_run hcons hnew (fun ps p h => stays ps p
        (hsplit ▸ List.mem_append_left _ h)) hrun₁).2.1
    rw [← hsame.evalHttpFn, ← hfn]
    exact heval

/-! ## A policy of requests -/

/-- `if 1 == 1 { from == to } else { false }`, in a function of a request. -/
def sameHosts : GlobalFunction (HttpFn.Request.entry.locals + 2) where
  params := ["from", "to", "req", "data"]
  body := .ifExpr (.infixExpr .equal (.litExpr (.int 1)) (.litExpr (.int 1)))
    (.infixExpr .equal (.bvar "from" 3) (.bvar "to" 2)) (some (.litExpr (.bool false)))
  length_params := rfl
  inScope := rfl
  notClosure := rfl

def sameHostsPolicy : GlobalPolicy where
  program := {
    code := BTreeMap.insert ∅ allowRestRequest sameHosts.code
    externals := .empty
    headers := BTreeMap.insert ∅ allowRestRequest (.new [.id, .id, .httpRequest, .data] .bool) }
  fnPolicies := ∅

theorem sameHosts_faithful (ls : List CPLiteral) {s : CPWorld} (w : CPWorld) :
    Faithful (Env.new emptyPlane sameHostsPolicy.program) (.all true)
      (.here (.start (leftValues ls (.id .empty)) s)) false
      (ownBody true .restRequest .empty sameHosts) w
      (false, .infixExpr .equal (.litExpr (.id .empty)) (.bvar "to" 2)) w := by
  refine .ifTrue (.infixStatic .litExpr .litExpr rfl) rfl ?_
  exact .infixKeep .litExpr .bvar rfl

theorem exchange_globally_sameHosts : ∃ lps w t₀ s x out d,
    (compileEgressIngress emptyPlane 6 true (BTreeMap.insert ∅ .HTTP sameHostsPolicy)
      allowRestRequest .empty).run default = some (.ok lps, w) ∧
    proxy.run newProxy [.setPolicy lps] = some t₀ ∧ proxy.run t₀ requestEvents = some s ∧
    s.exchanges 0 = some x ∧ x.forwarded = some out ∧ x.decisions = [d] ∧
    d.answer = .ok (true, none) := by
  obtain ⟨lps, w, t₀, s, x, out, d, hcompiled, hrun₀, hlps, hnew, hrun, hx, hout, hlist, hfn,
      hsubject⟩ : ∃ lps w t₀ s x out d,
      (compileEgressIngress emptyPlane 6 true (BTreeMap.insert ∅ .HTTP sameHostsPolicy)
        HttpFn.Request.entry.name .empty).run default = some (.ok lps, w) ∧
      proxy.run newProxy [.setPolicy lps] = some t₀ ∧
      lps.get? .HTTP = some t₀.actor.http.policy ∧ t₀.exchanges 0 = none ∧
      proxy.run t₀ requestEvents = some s ∧ s.exchanges 0 = some x ∧
      x.forwarded = some out ∧ x.decisions = [d] ∧ d.fn = .Request ∧
      d.subject.evalCall1 .offline "HttpRequest::to" = .ok (some (.id .empty)) :=
    ⟨_, _, _, _, _, _, _, rfl, rfl, rfl, rfl, rfl, rfl, rfl, rfl, rfl, rfl⟩
  have hclosed : (Env.new emptyPlane sameHostsPolicy.program).Closed := by
    intro f e he
    have he : (BTreeMap.insert ∅ allowRestRequest sameHosts.code).get? f = some e := he
    rw [BTreeMap.get?_insert] at he
    split at he
    · rw [← Option.some.inj he]
      rfl
    · cases he
  have hcode : sameHostsPolicy.program.code.get? HttpFn.Request.entry.name =
      some sameHosts.code := BTreeMap.get?_insert_self _ _ _
  obtain ⟨-, hdecided⟩ := exchange_globally .Request hcompiled
    (BTreeMap.get?_insert_self _ _ _) hcode hclosed hrun₀
    (fun lp h => Option.some.inj (hlps.symm.trans h) ▸ .refl _) hnew
    (by simp [requestEvents]) hrun hx
  obtain ⟨t, o, ht, -, hglobal⟩ := hdecided d (hlist ▸ List.mem_singleton.mpr rfl) hfn
  -- the only evaluation of the run
  obtain rfl : o = alone := by
    have hmem := ht.mem
    simpa [requestEvents] using hmem
  have hport : Portable sameHostsPolicy.program .restRequest
      (.infixExpr .equal (.litExpr (.id .empty)) (.bvar "to" 2)) :=
    ⟨rfl, rfl, fun c hc => by cases hc⟩
  have heval : (eval (Env.new emptyPlane sameHostsPolicy.program)
      (globalCall true .empty .empty d)).run (t₀.actor.world d.ingress).ofDP =
        some (.ok (.lit (.bool true)), (t₀.actor.world d.ingress).ofDP) := by
    rw [globalCall, hfn]
    exact eval_of_evalN (n := 8) rfl
  obtain ⟨hok, -⟩ := hglobal true .empty rfl (fun _ _ _ => rfl) hsubject
    (.intro (sameHosts_faithful _) hport) _ _ heval
  exact ⟨lps, w, t₀, s, x, out, d, hcompiled, hrun₀, hrun, hx, hout, hlist, hok true rfl⟩

end Armour.Proxy
