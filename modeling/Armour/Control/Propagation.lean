import Armour.Control.Compilation
import Armour.Lang.Merging

/-! # The policies of a service

`update_global` and `specialize` of `armour-control/src/rest_api.rs` compile a global policy for
a service one entry function at a time and merge what they get.  What is compiled for different functions
shares no names, so that the merge keeps all of it.
-/

namespace Armour.Control

open Armour.Lib Armour.Lang

/-! ## The loop -/

/-- The functions that are compiled for a service, `true` for the egress side. -/
def serviceFunctions : List (Bool × EntryFunction) :=
  [(true, .restRequest), (true, .tcpConnection), (false, .restResponse), (false, .tcpDisconnect)]

/-- `local_pol` with the policies that are compiled next. -/
def mergeInto (localPol : Option DPPolicies) (tmp : DPPolicies) : DPPolicies :=
  match localPol with
  | none => tmp
  | some pol => pol.merge tmp

/-- The loops of `update_global` and `specialize`: what is compiled is merged into the policies
that there are. -/
def compileFunctions (rt : Runtime CPFlatLiteral) (n : Nat) (globalPol : GlobalPolicies) (id : ID) :
    List (Bool × EntryFunction) → Option DPPolicies → CPEvalM (Option DPPolicies)
  | [], localPol => pure localPol
  | (egress, f) :: fs, localPol => do
      let tmp ← compileEgressIngress rt n egress globalPol f.name id
      compileFunctions rt n globalPol id fs (some (mergeInto localPol tmp))

/-! ## Policies of some entry functions -/

theorem EntryFunction.name_inj {f g : EntryFunction} (h : f.name = g.name) : f = g := by
  cases f <;> cases g <;> first | rfl | exact absurd h (by decide)

/-- All names that the policy defines are of these functions. -/
structure Within {FT FL : Type} (fs : List EntryFunction) (x : Policy FT FL) : Prop where
  code : ∀ g e, x.program.code.get? g = some e → ∃ f ∈ fs, g = f.name
  headers : ∀ g sig, BTreeMap.get? x.program.headers g = some sig → ∃ f ∈ fs, g = f.name
  sockets : ∀ s, x.program.externals.sockets.get? s = none
  status : ∀ g st, x.get g = some st → ∃ f ∈ fs, g = f.name

/-- No function of the policy calls an entry function. -/
def CallsNoEntry (x : Policy FlatTyp DPFlatLiteral) : Prop :=
  ∀ g h, x.program.Calls g h → ∀ f : EntryFunction, h ≠ f.name

section

variable {fs gs : List EntryFunction} {x y : Policy FlatTyp DPFlatLiteral}

theorem Within.apart (hdisjoint : ∀ f ∈ fs, f ∉ gs) {g : String} (hf : ∃ f ∈ fs, g = f.name)
    (hg : ∃ f ∈ gs, g = f.name) : False := by
  obtain ⟨f, hf, rfl⟩ := hf
  obtain ⟨f', hf', hname⟩ := hg
  obtain rfl := EntryFunction.name_inj hname
  exact hdisjoint f hf hf'

/-- Policies of different functions agree. -/
theorem Within.admits (hx : Within fs x) (hy : Within gs y) (hcalls : CallsNoEntry x)
    (hdisjoint : ∀ f ∈ fs, f ∉ gs) : x.Admits y where
  code g e he huses := by
    obtain ⟨f, hf, rfl⟩ := hy.code g e he
    rcases huses with hsome | ⟨h, hcall⟩
    · -- not defined, since it is a function of the other policy
      obtain ⟨e', he'⟩ := Option.isSome_iff_exists.mp hsome
      exact absurd ⟨f, hf, rfl⟩ (fun hg => Within.apart hdisjoint (hx.code _ e' he') hg)
    · exact absurd rfl (hcalls h _ hcall f)
  headers g sig sig' hsig hsig' :=
    absurd (hy.headers g sig' hsig') (fun hg => Within.apart hdisjoint (hx.headers g sig hsig) hg)
  sockets s a ha _ := by
    rw [hy.sockets s] at ha
    cases ha
  status g st st' hst hst' :=
    absurd (hy.status g st' hst') (fun hg => Within.apart hdisjoint (hx.status g st hst) hg)

theorem CallsNoEntry.merge (hx : CallsNoEntry x) (hy : CallsNoEntry y) :
    CallsNoEntry (y.merge x) := by
  rintro g h ⟨e, he, hcall⟩
  have he : (y.program.code.extend x.program.code).get? g = some e := he
  rw [BTreeMap.get?_extend] at he
  rcases Option.or_eq_some_iff.mp he with he | ⟨-, he⟩
  · exact hx g h ⟨e, he, hcall⟩
  · exact hy g h ⟨e, he, hcall⟩

theorem Within.merge (hx : Within fs x) (hy : Within gs y) : Within (fs ++ gs) (y.merge x) := by
  have hleft : ∀ {g}, (∃ f ∈ fs, g = f.name) → ∃ f ∈ fs ++ gs, g = f.name := by
    rintro g ⟨f, hf, rfl⟩
    exact ⟨f, List.mem_append_left _ hf, rfl⟩
  have hright : ∀ {g}, (∃ f ∈ gs, g = f.name) → ∃ f ∈ fs ++ gs, g = f.name := by
    rintro g ⟨f, hf, rfl⟩
    exact ⟨f, List.mem_append_right _ hf, rfl⟩
  constructor
  · intro g e he
    have he : (y.program.code.extend x.program.code).get? g = some e := he
    rw [BTreeMap.get?_extend] at he
    rcases Option.or_eq_some_iff.mp he with he | ⟨-, he⟩
    · exact hleft (hx.code g e he)
    · exact hright (hy.code g e he)
  · intro g sig hsig
    have hsig : (BTreeMap.extend y.program.headers x.program.headers).get? g = some sig := hsig
    rw [BTreeMap.get?_extend] at hsig
    rcases Option.or_eq_some_iff.mp hsig with hsig | ⟨-, hsig⟩
    · exact hleft (hx.headers g sig hsig)
    · exact hright (hy.headers g sig hsig)
  · intro s
    show (y.program.externals.sockets.extend x.program.externals.sockets).get? s = none
    rw [BTreeMap.get?_extend, hx.sockets, hy.sockets]
    rfl
  · intro g st hst
    have hst : (y.fnPolicies.extend x.fnPolicies).get? g = some st := hst
    rw [BTreeMap.get?_extend] at hst
    rcases Option.or_eq_some_iff.mp hst with hst | ⟨-, hst⟩
    · exact hleft (hx.status g st hst)
    · exact hright (hy.status g st hst)

end

/-! ## Merging -/

/-- All policies define functions of the list only, and call no entry function. -/
def Keeps (fs : List EntryFunction) (p : DPPolicies) : Prop :=
  ∀ k x, p.get? k = some x → Within fs x ∧ CallsNoEntry x

/-- Every policy of `p` is described by the one of its protocol. -/
def DescribesAll (m p : DPPolicies) : Prop :=
  ∀ k x, p.get? k = some x → ∃ z, m.get? k = some z ∧ z.Describes x

theorem DescribesAll.trans {m p q : DPPolicies} (h : DescribesAll m p) (h' : DescribesAll p q) :
    DescribesAll m q := by
  intro k x hx
  obtain ⟨y, hy, hyx⟩ := h' k x hx
  obtain ⟨z, hz, hzy⟩ := h k y hy
  exact ⟨z, hz, hzy.trans hyx⟩

section

variable {fs gs : List EntryFunction} {p q : DPPolicies}

theorem Keeps.mono (hp : Keeps fs p) (h : ∀ f ∈ fs, f ∈ gs) : Keeps gs p := by
  intro k x hx
  obtain ⟨⟨hcode, hheaders, hsockets, hstatus⟩, hcalls⟩ := hp k x hx
  have hmono : ∀ {g}, (∃ f ∈ fs, g = f.name) → ∃ f ∈ gs, g = f.name := by
    rintro g ⟨f, hf, rfl⟩
    exact ⟨f, h f hf, rfl⟩
  exact ⟨⟨fun g e he => hmono (hcode g e he), fun g sig hsig => hmono (hheaders g sig hsig),
    hsockets, fun g st hst => hmono (hstatus g st hst)⟩, hcalls⟩

theorem Keeps.merge (hp : Keeps fs p) (hq : Keeps gs q) : Keeps (fs ++ gs) (p.merge q) := by
  intro k z hz
  have hp' : Keeps (fs ++ gs) p := hp.mono (fun f hf => List.mem_append_left _ hf)
  have hq' : Keeps (fs ++ gs) q := hq.mono (fun f hf => List.mem_append_right _ hf)
  rw [Policies.get?_merge] at hz
  rcases Option.or_eq_some_iff.mp hz with hz | ⟨-, hz⟩
  · obtain ⟨y, hy, rfl⟩ := Option.map_eq_some_iff.mp hz
    unfold Policies.mergeEntry
    cases hx : p.get? k with
    | none => exact hq' k y hy
    | some x =>
        obtain ⟨hwx, hcx⟩ := hp k x hx
        obtain ⟨hwy, hcy⟩ := hq k y hy
        exact ⟨hwx.merge hwy, hcx.merge hcy⟩
  · exact hp' k z hz

/-- Nothing is lost when policies of different functions are merged. -/
theorem Keeps.describes (hp : Keeps fs p) (hq : Keeps gs q) (hdisjoint : ∀ f ∈ fs, f ∉ gs) :
    DescribesAll (p.merge q) p ∧ DescribesAll (p.merge q) q := by
  have hagree : ∀ k x y, p.get? k = some x → q.get? k = some y → x.Agrees y := by
    intro k x y hx hy
    obtain ⟨hwx, hcx⟩ := hp k x hx
    obtain ⟨hwy, hcy⟩ := hq k y hy
    exact ⟨hwx.admits hwy hcx hdisjoint,
      hwy.admits hwx hcy (fun f hf hf' => hdisjoint f hf' hf)⟩
  constructor
  · intro k x hx
    cases hy : q.get? k with
    | none =>
        refine ⟨x, ?_, .refl x⟩
        rw [Policies.get?_merge, hy, Option.map_none, Option.none_or, hx]
    | some y =>
        exact ⟨_, Policies.get?_merge_both hx hy, (hagree k x y hx hy).1.describes_argument⟩
  · intro k y hy
    cases hx : p.get? k with
    | none =>
        refine ⟨y, ?_, .refl y⟩
        rw [Policies.get?_merge, hy, Option.map_some, Option.some_or, Policies.mergeEntry, hx]
    | some x =>
        exact ⟨_, Policies.get?_merge_both hx hy, (hagree k x y hx hy).2.describes_receiver⟩

end

/-! ## What is compiled -/

section

variable {rt : Runtime CPFlatLiteral} {egress : Bool} {f : EntryFunction} {id : ID}

theorem within_compileHelper {pol npol : GlobalPolicy} {g : CPExpr}
    (h : compileHelper pol f.name ⟨{ (Policy.empty : GlobalPolicy).program with
      code := BTreeMap.insert ∅ f.name g }, ∅⟩ = .ok npol) : Within [f] npol := by
  have hone : ∃ f' ∈ [f], f.name = f'.name := ⟨f, List.mem_singleton.mpr rfl, rfl⟩
  have hinsert : ∀ {ν : Type} {v w : ν} {h : String},
      (BTreeMap.insert ∅ f.name v).get? h = some w → ∃ f' ∈ [f], h = f'.name := by
    intro ν v w h hw
    rw [BTreeMap.get?_insert] at hw
    split at hw
    · rename_i heq
      rw [heq]
      exact hone
    · cases hw
  unfold compileHelper at h
  split at h
  · cases h
  · split at h
    · cases h
    · dsimp only at h
      split at h
      · cases h
      · rename_i program hcut
        obtain rfl := Except.ok.inj h
        -- the elimination of dead code only takes names away
        obtain ⟨set, rfl, -⟩ := Program.deadcodeElim_eq_some hcut
        constructor
        · intro h e he
          rw [Program.cut_code] at he
          split at he
          · cases he
          · exact hinsert he
        · intro h sig hsig
          rw [Program.cut_headers] at hsig
          split at hsig
          · cases hsig
          · exact hinsert hsig
        · exact fun s => rfl
        · exact fun h st hst => hinsert hst

theorem within_compilePolicy {n : Nat} {pol npol : GlobalPolicy} {fexpr : CPExpr}
    {w w' : World CPFlatLiteral}
    (h : (compilePolicy rt n egress pol f.name id fexpr).run w = some (.ok npol, w')) :
    Within [f] npol := by
  obtain ⟨nArgs, w₁, -, h⟩ := Comp.bind_eq_ok h
  split at h
  · cases h
  · obtain ⟨r, w₂, -, h⟩ := Comp.bind_eq_ok h
    obtain ⟨g, w₃, -, h⟩ := Comp.bind_eq_ok h
    exact within_compileHelper (Comp.ofExcept_eq_ok h).1

theorem within_compilePolicies {n : Nat} {l : List (Protocol × GlobalPolicy)}
    {new new' : GlobalPolicies} {w w' : World CPFlatLiteral}
    (hnew : ∀ k x, new.get? k = some x → Within [f] x)
    (h : (compilePolicies rt n egress f.name id l new).run w = some (.ok new', w')) :
    ∀ k x, new'.get? k = some x → Within [f] x := by
  induction l generalizing new w with
  | nil =>
      cases h
      exact hnew
  | cons p rest ih =>
      obtain ⟨proto, pol⟩ := p
      unfold compilePolicies at h
      split at h
      · exact ih hnew h
      · obtain ⟨npol, w₁, hpol, h⟩ := Comp.bind_eq_ok h
        refine ih (fun k x hx => ?_) h
        rw [BTreeMap.get?_insert] at hx
        split at hx
        · cases hx
          exact within_compilePolicy hpol
        · exact hnew k x hx

theorem Within.toDP {fs : List EntryFunction} {npol : GlobalPolicy} (h : Within fs npol)
    {lp : Policy FlatTyp DPFlatLiteral} (hlp : npol.toDP? = some lp) : Within fs lp := by
  obtain ⟨d, hd, hlp⟩ := Option.bind_eq_some_iff.mp hlp
  obtain rfl := Option.some.inj hlp
  obtain ⟨hcode, hheaders, hsockets, hstatus⟩ := h
  constructor
  · intro g e he
    refine hcode g (.ofDP e) ?_
    have he : d.code.get? g = some e := he
    rw [code_toDP hd, he]
    rfl
  · intro g sig hsig
    obtain ⟨code, -, hd⟩ := Option.bind_eq_some_iff.mp hd
    obtain ⟨headers, htraverse, hd⟩ := Option.bind_eq_some_iff.mp hd
    obtain rfl := Option.some.inj hd
    obtain ⟨sig', hsig', -⟩ := BTreeMap.get?_of_traverse htraverse hsig
    exact hheaders g sig' hsig'
  · intro s
    show d.externals.sockets.get? s = none
    rw [← externals_toDP hd]
    exact hsockets s
  · exact hstatus

theorem within_compileEgressIngress {n : Nat} {globalPol : GlobalPolicies} {tmp : DPPolicies}
    {w w' : World CPFlatLiteral}
    (h : (compileEgressIngress rt n egress globalPol f.name id).run w = some (.ok tmp, w')) :
    ∀ k x, tmp.get? k = some x → Within [f] x := by
  obtain ⟨new, w₁, hnew, hconvert⟩ := Comp.bind_eq_ok h
  intro k x hx
  cases hpols : new.toDP? with
  | none =>
      rw [hpols] at hconvert
      cases hconvert
  | some pols =>
      rw [hpols] at hconvert
      cases hconvert
      obtain ⟨npol, hnpol, hlp⟩ := BTreeMap.get?_of_traverse hpols hx
      refine (within_compilePolicies (fun k x h => ?_) hnew k npol hnpol).toDP hlp
      cases h

end

/-! ## What a service is sent -/

theorem DescribesAll.keptIn {m p : DPPolicies} (h : DescribesAll m p) : Policies.KeptIn p m := by
  intro k x hx
  obtain ⟨z, hz, hzx⟩ := h k x hx
  exact ⟨z, hz, hzx, fun f _ hf rt args => hzx.eval rt (Or.inl hf) args⟩

section

variable {rt : Runtime CPFlatLiteral} {n : Nat} {globalPol : GlobalPolicies} {id : ID}

/-- What is compiled calls no entry function. -/
def CompilesApart (rt : Runtime CPFlatLiteral) (n : Nat) (globalPol : GlobalPolicies) (id : ID)
    (p : Bool × EntryFunction) : Prop :=
  ∀ tmp w w', (compileEgressIngress rt n p.1 globalPol p.2.name id).run w = some (.ok tmp, w') →
    ∀ k x, tmp.get? k = some x → CallsNoEntry x

/-- The compilations of the loop, one after the other. -/
def compileEach (rt : Runtime CPFlatLiteral) (n : Nat) (globalPol : GlobalPolicies) (id : ID)
    (fs : List (Bool × EntryFunction)) : CPEvalM (List DPPolicies) :=
  Comp.traverse (fun p => compileEgressIngress rt n p.1 globalPol p.2.name id) fs

/-- The loop keeps what was merged before and what it compiles. -/
theorem compileFunctions_describes {fs : List (Bool × EntryFunction)} {before : List EntryFunction}
    (hapart : ∀ p ∈ fs, CompilesApart rt n globalPol id p)
    (hnodup : (before ++ fs.map Prod.snd).Nodup) {localPol res : Option DPPolicies}
    (hlocal : ∀ pol, localPol = some pol → Keeps before pol) {w w' : World CPFlatLiteral}
    (hrun : (compileFunctions rt n globalPol id fs localPol).run w = some (.ok res, w')) :
    (∀ pol, localPol = some pol → ∃ pols, res = some pols ∧ DescribesAll pols pol) ∧
    ∃ tmps, (compileEach rt n globalPol id fs).run w = some (.ok tmps, w') ∧
      ∀ tmp ∈ tmps, ∃ pols, res = some pols ∧ DescribesAll pols tmp := by
  -- `before` are the functions that were merged in earlier rounds
  induction fs generalizing before localPol w with
  | nil =>
      cases hrun
      exact ⟨fun pol hpol => ⟨pol, hpol, fun k x hx => ⟨x, hx, .refl x⟩⟩,
        [], rfl, fun tmp htmp => absurd htmp List.not_mem_nil⟩
  | cons p fs ih =>
      obtain ⟨egress, f⟩ := p
      obtain ⟨tmp, w₁, htmp, hrest⟩ := Comp.bind_eq_ok hrun
      have hkeeps : Keeps [f] tmp := fun k x hx =>
        ⟨within_compileEgressIngress htmp k x hx,
          hapart _ List.mem_cons_self tmp w w₁ htmp k x hx⟩
      have hnodup' : ((before ++ [f]) ++ fs.map Prod.snd).Nodup := by
        rw [List.append_assoc]
        exact hnodup
      have hnew : ∀ g ∈ before, g ∉ [f] := by
        intro g hg hgf
        rw [List.mem_singleton.mp hgf] at hg
        exact List.disjoint_of_nodup_append hnodup hg List.mem_cons_self
      -- what the next round starts from
      obtain ⟨hkeep, hold, hthis⟩ : Keeps (before ++ [f]) (mergeInto localPol tmp) ∧
          (∀ pol, localPol = some pol → DescribesAll (mergeInto localPol tmp) pol) ∧
          DescribesAll (mergeInto localPol tmp) tmp := by
        cases localPol with
        | none =>
            refine ⟨?_, (fun pol h => by cases h), fun k x hx => ⟨x, hx, .refl x⟩⟩
            exact hkeeps.mono (fun g hg => List.mem_append_right _ hg)
        | some pol =>
            have hpol := hlocal pol rfl
            obtain ⟨hleft, hright⟩ := hpol.describes hkeeps hnew
            refine ⟨hpol.merge hkeeps, ?_, hright⟩
            rintro pol' h
            cases h
            exact hleft
      obtain ⟨hall, tmps, htmps, heach⟩ := ih (fun p hp => hapart p (List.mem_cons_of_mem _ hp)) hnodup'
        (fun pol h => by cases h; exact hkeep) hrest
      obtain ⟨pols, hres, hpols⟩ := hall _ rfl
      constructor
      · intro pol hpol
        exact ⟨pols, hres, hpols.trans (hold pol hpol)⟩
      · refine ⟨tmp :: tmps, ?_, List.forall_mem_cons.mpr ⟨⟨pols, hres, hpols.trans hthis⟩, heach⟩⟩
        unfold compileEach at htmps ⊢
        rw [Comp.traverse_cons, Comp.run_bind_ok htmp, Comp.run_bind_ok htmps]
        rfl

/-- What is sent to a service keeps all that was compiled for it; `update_global` starts with no
policies, `specialize` with empty ones. -/
theorem service_policies_kept
    (hapart : ∀ p ∈ serviceFunctions, CompilesApart rt n globalPol id p)
    {localPol res : Option DPPolicies} (hstart : localPol = none ∨ localPol = some ∅)
    {w w' : World CPFlatLiteral}
    (hrun : (compileFunctions rt n globalPol id serviceFunctions localPol).run w =
      some (.ok res, w')) :
    ∃ pols tmps, res = some pols ∧
      (compileEach rt n globalPol id serviceFunctions).run w = some (.ok tmps, w') ∧
      ∀ tmp ∈ tmps, Policies.KeptIn tmp pols := by
  have hnodup : ([] ++ serviceFunctions.map Prod.snd).Nodup := by decide
  have hempty : ∀ pol, localPol = some pol → Keeps [] pol := by
    intro pol hpol k x hx
    rcases hstart with h | h
    · rw [h] at hpol
      cases hpol
    · rw [h] at hpol
      cases hpol
      cases hx
  obtain ⟨-, tmps, htmps, heach⟩ := compileFunctions_describes hapart hnodup hempty hrun
  -- there is a first function
  obtain ⟨tmp, w₁, _, hrest⟩ := Comp.bind_eq_ok htmps
  obtain ⟨rest, w₂, _, hcons⟩ := Comp.bind_eq_ok hrest
  cases hcons
  obtain ⟨pols, rfl, -⟩ := heach tmp List.mem_cons_self
  refine ⟨pols, _, rfl, htmps, fun tmp htmp => ?_⟩
  obtain ⟨pols', hres, hdescribes⟩ := heach tmp htmp
  obtain rfl := Option.some.inj hres
  exact hdescribes.keptIn

end

/-! ## A service -/

/-- A global policy that allows all requests and responses. -/
def openPolicy : GlobalPolicy where
  program := {
    code := (BTreeMap.insert ∅ allowRestRequest
      (closures ["from", "to", "req", "payload"] (.litExpr (.bool true)))).insert allowRestResponse
        (closures ["from", "to", "res", "payload"] (.litExpr (.bool true)))
    externals := .empty
    headers := (BTreeMap.insert ∅ allowRestRequest
      (.new [.id, .id, .httpRequest, .data] .bool)).insert allowRestResponse
        (.new [.id, .id, .httpResponse, .data] .bool) }
  fnPolicies := ∅

theorem callsNoEntry_of_entries {x : Policy FlatTyp DPFlatLiteral}
    (h : ∀ q ∈ x.program.code.entries, q.2.calls = []) : CallsNoEntry x := by
  rintro g name ⟨e, he, hcall⟩
  have hcalls := h (g, e) ((BTreeMap.mem_entries _ g e).mpr he)
  dsimp only at hcalls
  rw [hcalls] at hcall
  cases hcall

def openPolicies : GlobalPolicies := BTreeMap.insert ∅ .HTTP openPolicy

theorem openPolicy_apart (p : Bool × EntryFunction) (hp : p ∈ serviceFunctions) :
    CompilesApart emptyPlane 6 openPolicies .empty p := by
  have hone : ∀ p ∈ serviceFunctions, ∃ tmp,
      (∀ w, (compileEgressIngress emptyPlane 6 p.1 openPolicies p.2.name .empty).run w =
        some (.ok tmp, w)) ∧
      ∀ q ∈ tmp.entries, ∀ r ∈ q.2.program.code.entries, r.2.calls = [] := by
    intro p hp
    simp only [serviceFunctions, List.mem_cons, List.not_mem_nil, or_false] at hp
    rcases hp with rfl | rfl | rfl | rfl
    · exact ⟨_, fun w => rfl, by decide +kernel⟩
    · exact ⟨_, fun w => rfl, by decide +kernel⟩
    · exact ⟨_, fun w => rfl, by decide +kernel⟩
    · exact ⟨_, fun w => rfl, by decide +kernel⟩
  obtain ⟨tmp, hrun, hcalls⟩ := hone p hp
  intro tmp' w w' htmp k x hx
  rw [hrun w] at htmp
  cases htmp
  exact callsNoEntry_of_entries (hcalls (k, x) ((BTreeMap.mem_entries _ k x).mpr hx))

/-- The functions of requests and of responses, which are compiled one after the other, are both
in what the service is sent. -/
theorem service_policies_kept_open : ∃ pols tmps w x,
    (compileFunctions emptyPlane 6 openPolicies .empty serviceFunctions none).run default =
      some (.ok (some pols), w) ∧
    pols.get? .HTTP = some x ∧ x.get allowRestRequest = some (.Args 2) ∧
    x.get allowRestResponse = some (.Args 2) ∧
    (compileEach emptyPlane 6 openPolicies .empty serviceFunctions).run default =
      some (.ok tmps, w) ∧
    ∀ tmp ∈ tmps, Policies.KeptIn tmp pols := by
  obtain ⟨pols, w, x, hrun, hx, hrequest, hresponse⟩ : ∃ pols w x,
      (compileFunctions emptyPlane 6 openPolicies .empty serviceFunctions none).run default =
        some (.ok (some pols), w) ∧
      BTreeMap.get? pols .HTTP = some x ∧ x.get allowRestRequest = some (.Args 2) ∧
      x.get allowRestResponse = some (.Args 2) := ⟨_, _, _, rfl, rfl, rfl, rfl⟩
  obtain ⟨pols', tmps, hres, htmps, hkept⟩ :=
    service_policies_kept openPolicy_apart (.inl rfl) hrun
  obtain rfl := Option.some.inj hres
  exact ⟨pols, tmps, w, x, hrun, hx, hrequest, hresponse, htmps, hkept⟩

end Armour.Control
