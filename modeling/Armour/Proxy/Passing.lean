import Armour.Lib.Ascii
import Armour.Proxy.Metadata
import Armour.Proxy.System

/-! # Metadata from one proxy to the next

What the policy of a proxy writes to `Egress` is encrypted, put in the `X-Armour` header of the
request that is sent on, and decrypted by the next proxy, whose policy finds it in `Ingress`.
Each proxy is a run of its own, and the two share a key.
-/

namespace Armour.Proxy

open Armour.Lib Armour.Lang

/-! ## Header values -/

theorem header_printable {s : String} (h : Ascii.Printable s) :
    ∃ v, headerFromStr s = some v ∧ headerToStr v = some s := by
  -- no character is cut to a byte
  have hnat : ∀ c ∈ s.toList, (UInt8.ofNat c.toNat).toNat = c.toNat := by
    intro c hc
    rw [UInt8.toNat_ofNat']
    exact Nat.mod_eq_of_lt (Nat.lt_of_lt_of_le (h c hc).2 (by decide))
  refine ⟨s.toList.map (fun c => UInt8.ofNat c.toNat), ?_, ?_⟩
  · rw [headerFromStr, Ascii.toUTF8_printable h]
    refine if_pos ?_
    rw [List.all_map, List.all_eq_true]
    intro c hc
    have hc' := hnat c hc
    obtain ⟨hlow, hhigh⟩ := h c hc
    simp only [Function.comp_apply, Bool.or_eq_true, Bool.and_eq_true, decide_eq_true_eq, ne_eq,
      UInt8.le_iff_toNat_le, ← UInt8.toNat_inj, hc']
    left
    constructor
    · show 32 ≤ c.toNat
      omega
    · show ¬ c.toNat = 127
      omega
  · have hall : (s.toList.map (fun c => UInt8.ofNat c.toNat)).all
        (fun b => 32 ≤ b && b < 127 || b = 9) = true := by
      rw [List.all_map, List.all_eq_true]
      intro c hc
      have hc' := hnat c hc
      obtain ⟨hlow, hhigh⟩ := h c hc
      simp only [Function.comp_apply, Bool.or_eq_true, Bool.and_eq_true, decide_eq_true_eq,
        UInt8.le_iff_toNat_le, UInt8.lt_iff_toNat_lt, hc']
      left
      constructor
      · show 32 ≤ c.toNat
        omega
      · show c.toNat < 127
        omega
    have hback : s.toList.map ((fun b => Char.ofNat b.toNat) ∘ fun c => UInt8.ofNat c.toNat) =
        s.toList.map id := by
      refine List.map_congr_left (fun c hc => ?_)
      show Char.ofNat (UInt8.ofNat c.toNat).toNat = c
      rw [hnat c hc, Char.ofNat_toNat]
    rw [headerToStr, if_pos hall, List.map_map, hback, List.map_id, String.ofList_toList]

/-- A header that is written as it should be is read as it was. -/
theorem getXArmour_of_values {h : HeaderMap} {m : Option String}
    (hvalues : h.values X_ARMOUR = xArmourValues m) (hm : ∀ s ∈ m, Ascii.Printable s) :
    getXArmour h = m := by
  rw [getXArmour, hvalues]
  cases m with
  | none => rfl
  | some s =>
      obtain ⟨v, hfrom, hto⟩ := header_printable (hm s rfl)
      rw [xArmourValues, Option.bind_some, hfrom]
      exact hto

/-! ## What an exchange records -/

/-- The status of the policy made the decision, which leaves no metadata. -/
def Decision.ByStatus (d : Decision) : Prop := d.args = none ∧ ∃ b, d.answer = .ok (b, none)

/-- The actor made the decision by an evaluation. -/
def PolicyActor.Evaluated (a : PolicyActor) (o : Outside) (d : Decision) : Prop :=
  ∃ args, d.args = some args ∧ a.evalHttpFn o d.fn args d.ingress = some d.answer

namespace Exchange

/-- All decisions satisfy `P`, those on the request saw its header, and what was sent carries
the metadata that one of them left. -/
structure Records (P : Decision → Prop) (x : Exchange) : Prop where
  made : ∀ d ∈ x.decisions, P d
  ingress : ∀ d ∈ x.decisions, d.fn = .Request → d.ingress = getXArmour x.req.headers
  sent : ∀ out, x.forwarded = some out → ∃ d ∈ x.decisions, ∃ m, d.fn = .Request ∧
    d.answer = .ok (true, m) ∧ out.headers.values X_ARMOUR = xArmourValues m

namespace Records

variable {P : Decision → Prop} {x : Exchange}

theorem start (req : Incoming) (uri : Option String) : (Exchange.start req uri).Records P := by
  unfold Exchange.start
  cases uri with
  | none => exact ⟨fun d h => absurd h List.not_mem_nil, fun d h => absurd h List.not_mem_nil,
      fun out h => by cases h⟩
  | some uri => exact ⟨fun d h => absurd h List.not_mem_nil, fun d h => absurd h List.not_mem_nil,
      fun out h => by cases h⟩

/-- The phase and the response of the server are not looked at. -/
theorem congr (h : x.Records P) {y : Exchange} (hreq : y.req = x.req)
    (hdecisions : y.decisions = x.decisions) (hforwarded : y.forwarded = x.forwarded) :
    y.Records P := by
  obtain ⟨hmade, hingress, hsent⟩ := h
  constructor
  · rwa [hdecisions]
  · rwa [hdecisions, hreq]
  · rwa [hforwarded, hdecisions]

theorem mono {Q : Decision → Prop} (h : x.Records P) (hPQ : ∀ d, P d → Q d) : x.Records Q :=
  ⟨fun d hd => hPQ d (h.made d hd), h.ingress, h.sent⟩

theorem decide (h : x.Records P) {d : Decision} (hd : P d)
    (hingress : d.fn = .Request → d.ingress = getXArmour x.req.headers) :
    (x.decide d).Records P := by
  constructor
  · intro d' hd'
    rcases List.mem_append.mp hd' with hd' | hd'
    · exact h.made d' hd'
    · rw [List.mem_singleton.mp hd']
      exact hd
  · intro d' hd' hfn
    rcases List.mem_append.mp hd' with hd' | hd'
    · exact h.ingress d' hd' hfn
    · rw [List.mem_singleton.mp hd'] at hfn ⊢
      exact hingress hfn
  · intro out hout
    obtain ⟨d', hd', hsent⟩ := h.sent out hout
    exact ⟨d', List.mem_append_left _ hd', hsent⟩

theorem forward (h : x.Records P) {d : Decision} {m : Option String} (hd : d ∈ x.decisions)
    (hfn : d.fn = .Request) (hanswer : d.answer = .ok (true, m)) (p : HttpPolicyResponse)
    (payload : Bytes) : (x.forward p payload m).Records P := by
  refine ⟨h.made, h.ingress, fun out hout => ?_⟩
  obtain rfl := Option.some.inj hout
  exact ⟨d, hd, m, hfn, hanswer, buildRequest_xArmour ..⟩

theorem onPolicy (h : x.Records P) (hstatus : ∀ d, d.ByStatus → P d) (p : HttpPolicyResponse) :
    (x.onPolicy p).Records P := by
  unfold Exchange.onPolicy
  cases p.status.request with
  | Deny => exact (h.decide (hstatus _ ⟨rfl, _, rfl⟩) (fun _ => rfl)).congr rfl rfl rfl
  | _ => exact h.congr rfl rfl rfl

theorem onPayload (h : x.Records P) (hstatus : ∀ d, d.ByStatus → P d) (p : HttpPolicyResponse)
    (payload : Bytes) : (x.onPayload p payload).Records P := by
  unfold Exchange.onPayload
  cases p.status.request with
  | Args count =>
      dsimp only
      cases argList count (x.req.toExpression p.connection) payload with
      | some args => exact h.congr rfl rfl rfl
      | none => exact h.congr rfl rfl rfl
  | Allow =>
      have hdecided := h.decide (d := x.statusRequest p payload true) (hstatus _ ⟨rfl, _, rfl⟩)
        (fun _ => rfl)
      exact hdecided.forward (List.mem_append_right _ (List.mem_singleton.mpr rfl)) rfl rfl p
        payload
  | Deny => exact h

theorem onRequest (h : x.Records P) {p : HttpPolicyResponse} {payload : Bytes}
    {args : List DPLiteral} {answer : Except DPError (Bool × Option String)}
    (hd : P ⟨.Request, x.req.toExpression p.connection, payload, some args,
      getXArmour x.req.headers, answer⟩) : (x.onRequest p payload args answer).Records P := by
  have hdecided := h.decide hd (fun _ => rfl)
  unfold Exchange.onRequest
  rcases answer with err | ⟨b, m⟩
  · exact hdecided.congr rfl rfl rfl
  · cases b with
    | true =>
        exact hdecided.forward (List.mem_append_right _ (List.mem_singleton.mpr rfl)) rfl rfl p
          payload
    | false => exact hdecided.congr rfl rfl rfl

theorem onResponse (h : x.Records P) (hstatus : ∀ d, d.ByStatus → P d) (p : HttpPolicyResponse)
    (r : Except (UInt16 × String) ServerResponse) : (x.onResponse p r).Records P := by
  cases r with
  | error e => exact h.congr rfl rfl rfl
  | ok res =>
      have hserver : Records P { x with server := some res } := h.congr rfl rfl rfl
      unfold Exchange.onResponse
      dsimp only
      cases p.status.response with
      | Deny =>
          have hdecided := hserver.decide (hstatus (statusResponse p res [] false)
            ⟨rfl, _, rfl⟩) (fun hfn => by cases hfn)
          exact hdecided.congr rfl rfl rfl
      | _ => exact hserver.congr rfl rfl rfl

theorem onBody (h : x.Records P) (hstatus : ∀ d, d.ByStatus → P d) (p : HttpPolicyResponse)
    (res : ServerResponse) (body : Bytes) : (x.onBody p res body).Records P := by
  unfold Exchange.onBody
  cases p.status.response with
  | Args count =>
      dsimp only
      cases argList count (res.toExpression p.connection) body with
      | some args => exact h.congr rfl rfl rfl
      | none => exact h.congr rfl rfl rfl
  | Allow =>
      have hdecided := h.decide (hstatus (statusResponse p res body true) ⟨rfl, _, rfl⟩)
        (fun hfn => by cases hfn)
      exact hdecided.congr rfl rfl rfl
  | Deny => exact h

theorem onResponseAnswer (h : x.Records P) {p : HttpPolicyResponse} {res : ServerResponse}
    {body : Bytes} {args : List DPLiteral} {answer : Except DPError (Bool × Option String)}
    (hd : P ⟨.Response, res.toExpression p.connection, body, some args, getXArmour res.headers,
      answer⟩) : (x.onResponseAnswer p res body args answer).Records P := by
  have hdecided := h.decide hd (fun hfn => by cases hfn)
  unfold Exchange.onResponseAnswer
  rcases answer with err | ⟨b, m⟩
  · exact hdecided.congr rfl rfl rfl
  · cases b with
    | true => exact hdecided.congr rfl rfl rfl
    | false => exact hdecided.congr rfl rfl rfl

/-- One step; a decision is made by the status, without arguments, or by an evaluation. -/
theorem step (h : x.Records P) {a a' : PolicyActor} {ev : HttpEvent} {x' : Exchange}
    (hstatus : ∀ d, d.ByStatus → P d) (heval : ∀ o d, ev = .evaluated o → a.Evaluated o d → P d)
    (hstep : x.step a ev = some (a', x')) : x'.Records P := by
  unfold Exchange.step at hstep
  cases ev with
  | policy ends =>
      dsimp only at hstep
      split at hstep
      · cases hstep
        exact h.onPolicy hstatus _
      · cases hstep
  | payload r =>
      dsimp only at hstep
      split at hstep
      · cases hstep
        exact h.onPayload hstatus _ _
      · cases hstep
        exact h.congr rfl rfl rfl
      · cases hstep
  | evaluated o =>
      dsimp only at hstep
      split at hstep
      · obtain ⟨answer, hanswer, heq⟩ := Option.map_eq_some_iff.mp hstep
        cases heq
        exact h.onRequest (heval o _ rfl ⟨_, rfl, hanswer⟩)
      · obtain ⟨answer, hanswer, heq⟩ := Option.map_eq_some_iff.mp hstep
        cases heq
        exact h.onResponseAnswer (heval o _ rfl ⟨_, rfl, hanswer⟩)
      · cases hstep
  | response r =>
      dsimp only at hstep
      split at hstep
      · cases hstep
        exact h.onResponse hstatus _ _
      · cases hstep
  | body r =>
      dsimp only at hstep
      split at hstep
      · cases hstep
        exact h.onBody hstatus _ _ _
      · cases hstep
        exact h.congr rfl rfl rfl
      · cases hstep
  | mailboxError =>
      dsimp only at hstep
      split at hstep
      · cases hstep
        exact h.congr rfl rfl rfl
      · cases hstep
        exact h.congr rfl rfl rfl
      · cases hstep
        exact h.congr rfl rfl rfl
      · cases hstep

end Records

end Exchange

/-! ## Runs of a proxy -/

/-- In the run, the state `t` is the one in which a function is evaluated for exchange `i`. -/
def Evaluates (start : State) (es : List Event) (i : Nat) (t : State) (o : Outside) : Prop :=
  ∃ es₁ es₂, es = es₁ ++ .http i (.evaluated o) :: es₂ ∧ proxy.run start es₁ = some t

namespace Evaluates

variable {start t : State} {es : List Event} {i : Nat} {o : Outside}

theorem last (h : proxy.run start es = some t) :
    Evaluates start (es ++ [.http i (.evaluated o)]) i t o :=
  ⟨es, [], rfl, h⟩

theorem mono (h : Evaluates start es i t o) (es' : List Event) :
    Evaluates start (es ++ es') i t o := by
  obtain ⟨es₁, es₂, rfl, hrun⟩ := h
  exact ⟨es₁, es₂ ++ es', by rw [List.append_assoc, List.cons_append], hrun⟩

theorem visits (h : Evaluates start es i t o) : proxy.Visits start es t := by
  obtain ⟨es₁, es₂, rfl, hrun⟩ := h
  exact (Machine.Visits.last hrun).mono _

theorem mem (h : Evaluates start es i t o) : .http i (.evaluated o) ∈ es := by
  obtain ⟨es₁, es₂, rfl, -⟩ := h
  exact List.mem_append_right _ List.mem_cons_self

end Evaluates

/-- The status made the decision, or the actor when a function was evaluated. -/
def MadeIn (start : State) (es : List Event) (i : Nat) (d : Decision) : Prop :=
  d.ByStatus ∨ ∃ t o, Evaluates start es i t o ∧ t.actor.Evaluated o d

/-- The exchanges that begin in the run record what its actors decided; the label and the keys
stay. -/
structure Recorded (start : State) (es : List Event) (s : State) : Prop where
  label : s.actor.label = start.actor.label
  aead : s.actor.aead = start.actor.aead
  exchanges : ∀ i, start.exchanges i = none → ∀ x, s.exchanges i = some x →
    x.Records (MadeIn start es i)

namespace Recorded

variable {start s s' : State} {es : List Event} {e : Event}

theorem step (h : Recorded start es s) (hrun : proxy.run start es = some s)
    (hstep : proxy.step s e = some s') : Recorded start (es ++ [e]) s' := by
  -- the policies can be replaced, the label and the keys cannot
  have hactor : s'.actor.label = s.actor.label ∧ s'.actor.aead = s.actor.aead := by
    rcases State.step_actor hstep with ⟨ps, -, ha⟩ | ⟨secs, -, ha⟩ | ⟨n, ha⟩
    · rw [ha]
      exact ⟨s.actor.setPolicy_label ps, s.actor.setPolicy_aead ps⟩
    · rw [ha]
      exact ⟨rfl, rfl⟩
    · rw [ha]
      exact ⟨rfl, rfl⟩
  have hmono : ∀ i d, MadeIn start es i d → MadeIn start (es ++ [e]) i d := by
    rintro i d (hstatus | ⟨t, o, ht, hd⟩)
    · exact Or.inl hstatus
    · exact Or.inr ⟨t, o, ht.mono [e], hd⟩
  refine ⟨hactor.1.trans h.label, hactor.2.trans h.aead, fun i hi x' hx' => ?_⟩
  rcases State.step_exchange hstep hx' with hx | ⟨req, uri, -, -, rfl⟩ | ⟨ev, x, rfl, hx, hev⟩
  · exact (h.exchanges i hi x' hx).mono (hmono i)
  · exact .start req uri
  · -- an evaluation is the event that was added
    refine ((h.exchanges i hi x hx).mono (hmono i)).step (fun d hd => Or.inl hd) ?_ hev
    rintro o d rfl hd
    exact Or.inr ⟨s, o, .last hrun, hd⟩

theorem run (hrun : proxy.run start es = some s) : Recorded start es s := by
  refine Machine.run_induction (P := Recorded start) ?_
    (fun es t e t' hrun h _ hstep => h.step hrun hstep)
    (Machine.Steps.of_forall (p := fun _ => True) (fun _ _ => trivial)) hrun
  refine ⟨rfl, rfl, fun i hi x hx => ?_⟩
  rw [hi] at hx
  cases hx

end Recorded

/-- Every state that is visited has the label and the keys of the start. -/
theorem visits_aead {start t : State} {es : List Event} (ht : proxy.Visits start es t) :
    t.actor.aead = start.actor.aead ∧ t.actor.label = start.actor.label := by
  obtain ⟨es', -, hrun⟩ := ht
  have h := Recorded.run hrun
  exact ⟨h.aead, h.label⟩

/-! ## From one proxy to the next -/

/-- `EvalHttpFn` on metadata that is decrypted already. -/
def PolicyActor.evalOn (a : PolicyActor) (o : Outside) (fn : HttpFn) (args : List DPLiteral)
    (ingress : Option Meta) : Option (Except DPError (Bool × Option Meta)) :=
  evaluate tryBool o a.http.policy fn.function args (.new ingress a.label)

/-- The metadata that a decision on exchange `i` left for the next proxy: none if the status
decided, else what the evaluation ended with. -/
def Leaves (start : State) (es : List Event) (i : Nat) (d : Decision) (egress : Option Meta)
    (now : Nat) : Prop :=
  d.args = none ∧ egress = none ∨
    ∃ t o args b, Evaluates start es i t o ∧ o.now = now ∧ d.args = some args ∧
      t.actor.evalOn o d.fn args (d.ingress.bind t.actor.decryptMeta) = some (.ok (b, egress))

/-- An allowed decision, by what it left. -/
theorem MadeIn.leaves {start : State} {es : List Event} {i : Nat} {d : Decision}
    {m : Option String} (h : MadeIn start es i d) (hanswer : d.answer = .ok (true, m)) :
    ∃ egress now, Leaves start es i d egress now ∧
      m = egress.bind (start.actor.aead.encrypt now) := by
  rcases h with ⟨hnone, b, hb⟩ | ⟨t, o, ht, hd⟩
  · rw [hanswer] at hb
    cases hb
    exact ⟨none, 0, Or.inl ⟨hnone, rfl⟩, rfl⟩
  · obtain ⟨args, hargs, heval⟩ := hd
    obtain ⟨r, hr, hmap⟩ := Option.map_eq_some_iff.mp heval
    rw [hanswer] at hmap
    obtain ⟨haead, -⟩ := visits_aead ht.visits
    cases r with
    | error err => cases hmap
    | ok r =>
        obtain ⟨b, egress⟩ := r
        have hm : (b, t.actor.encryptMeta o.now egress) = (true, m) := Except.ok.inj hmap
        refine ⟨egress, o.now, Or.inr ⟨t, o, args, b, ht, rfl, hargs, hr⟩, ?_⟩
        rw [← (Prod.mk.inj hm).2, PolicyActor.encryptMeta, haead]

namespace MetaCrypto

variable (k : MetaCrypto)

/-- The header of metadata is read back by whoever has the key. -/
theorem bind_decrypt (h64 : k.platform.Base64) (haead : k.aead.Correct) {egress : Option Meta}
    {now : Nat} (hgood : ∀ m, egress = some m →
      m.Readable ∧ k.JsonReads m ∧ (k.toAead.encrypt now m).isSome = true) :
    (egress.bind (k.toAead.encrypt now)).bind k.toAead.decrypt = egress := by
  cases egress with
  | none => rfl
  | some m =>
      obtain ⟨hreadable, hjson, hsealed⟩ := hgood m rfl
      obtain ⟨sealed, hs⟩ := Option.isSome_iff_exists.mp hsealed
      rw [Option.bind_some, hs]
      exact k.toAead_decrypt_encrypt h64 haead hreadable hjson hs

/-- The header is made of printed characters. -/
theorem printable_sealed (hprint : ∀ bs, Ascii.Printable (k.platform.base64Encode bs)) {m : Meta}
    {now : Nat} {sealed : String} (h : k.toAead.encrypt now m = some sealed) :
    Ascii.Printable sealed := by
  obtain ⟨r, hr⟩ := k.encrypt_eq_ok now (k.text m)
  have hjoin : (Except.toOption (.ok r : Checked (Option String))).join = some sealed := hr ▸ h
  obtain rfl : r = some sealed := hjoin
  obtain ⟨n, block, -, rfl⟩ := encrypt_eq_some hr
  intro c hc
  rw [String.toList_append, String.toList_append] at hc
  rcases List.mem_append.mp hc with hc | hc
  · rcases List.mem_append.mp hc with hc | hc
    · exact hprint block c hc
    · rw [List.mem_singleton.mp hc]
      decide
  · exact hprint n.1 c hc

end MetaCrypto

/-- What the policy of one proxy leaves for the next one on a request that is forwarded is the
metadata that the policy of the next proxy is evaluated on, whatever else the two proxies do in
between. -/
theorem metadata_passed {k : MetaCrypto} (h64 : k.platform.Base64)
    (hprint : ∀ bs, Ascii.Printable (k.platform.base64Encode bs)) (haead : k.aead.Correct)
    {a b : PolicyActor} (ha : a.aead = k.toAead) (hb : b.aead = k.toAead)
    {es es' : List Event} {s s' : State} (hrun : proxy.run (.start a) es = some s)
    (hrun' : proxy.run (.start b) es' = some s') {i j : Nat} {x y : Exchange}
    (hx : s.exchanges i = some x) (hy : s'.exchanges j = some y) {out : ClientRequest}
    (hout : x.forwarded = some out)
    (hreceived : y.req.headers.values X_ARMOUR = out.headers.values X_ARMOUR) :
    ∃ d ∈ x.decisions, d.fn = .Request ∧ (∃ m, d.answer = .ok (true, m)) ∧
      ∃ egress now, Leaves (.start a) es i d egress now ∧
        ((∀ m, egress = some m →
            m.Readable ∧ k.JsonReads m ∧ (k.toAead.encrypt now m).isSome = true) →
          ∀ d' ∈ y.decisions, d'.fn = .Request → ∀ args, d'.args = some args →
            ∃ t o, Evaluates (.start b) es' j t o ∧
              (t.actor.evalOn o .Request args egress).map
                (Except.map (fun r => (r.1, r.2.bind (k.toAead.encrypt o.now)))) =
                  some d'.answer) := by
  have hrecords := (Recorded.run hrun).exchanges i rfl x hx
  have hrecords' := (Recorded.run hrun').exchanges j rfl y hy
  obtain ⟨d, hd, m, hfn, hanswer, hvalues⟩ := hrecords.sent out hout
  obtain ⟨egress, now, hleaves, hm⟩ := (hrecords.made d hd).leaves hanswer
  rw [State.start, ha] at hm
  refine ⟨d, hd, hfn, ⟨m, hanswer⟩, egress, now, hleaves, ?_⟩
  intro hgood d' hd' hfn' args hargs
  -- the header is read as the first proxy wrote it
  have hheader : getXArmour y.req.headers = m := by
    refine getXArmour_of_values (hreceived.trans hvalues) (fun sealed hsealed => ?_)
    rw [hm] at hsealed
    obtain ⟨m', -, hm'⟩ := Option.bind_eq_some_iff.mp hsealed
    exact k.printable_sealed hprint hm'
  have hingress : d'.ingress.bind k.toAead.decrypt = egress := by
    rw [hrecords'.ingress d' hd' hfn', hheader, hm]
    exact k.bind_decrypt h64 haead hgood
  -- the status has no arguments
  rcases hrecords'.made d' hd' with ⟨hnone, -⟩ | ⟨t, o, ht, args', hargs', heval⟩
  · rw [hnone] at hargs
    cases hargs
  · rw [hargs] at hargs'
    obtain rfl := Option.some.inj hargs'
    obtain ⟨haead', -⟩ := visits_aead ht.visits
    refine ⟨t, o, ht, ?_⟩
    rw [PolicyActor.evalHttpFn, hfn'] at heval
    unfold PolicyActor.decryptMeta PolicyActor.encryptMeta at heval
    rw [haead', State.start, hb, hingress] at heval
    exact heval

/-! ## An instance -/

/-- `allow_rest_request` writes `sampleMeta` for the next proxy, under the label `a`. -/
def writing : DPPolicy :=
  ⟨⟨BTreeMap.insert ∅ allowRestRequest (.blockExpr .block
      [.callExpr "Egress::push" [.litExpr (.data [1, 2])] false,
        .callExpr "Egress::add_label" [.litExpr (.label ⟨[.str "b"]⟩)] false,
        .litExpr (.bool true)]), .empty, ∅⟩,
    FnPolicies.setArgs ∅ allowRestRequest 0⟩

/-- A proxy that has the policy. -/
def writer : PolicyActor :=
  (PolicyActor.create ⟨[.str "a"]⟩ 5 MetaCrypto.sample.toAead).installHttp writing

/-- A request that is received with these headers, and sent on if it is allowed. -/
def passEvents (headers : HeaderMap) : List Event :=
  [.request 0 ⟨"GET", "HTTP/1.1", "/", "", headers, none⟩ (some "/"),
    .http 0 (.policy (.empty, .empty)), .http 0 (.payload (.ok [])),
    .http 0 (.evaluated ⟨fun _ _ _ => .error "", .offline, 0, 10⟩)]

/-- How long an evaluation runs does not matter for its answer. -/
theorem evaluate_fuel {T : Type} {tryInto : DPLiteral → Option T} {o : Outside} {n : Nat}
    {policy : DPPolicy} {f : String} {args : List DPLiteral} {m : IngressEgress}
    {r r' : Except DPError (T × Option Meta)}
    (h : evaluate tryInto o policy f args m = some r)
    (h' : evaluate tryInto { o with fuel := n } policy f args m = some r') : r = r' := by
  obtain ⟨u, hrun, rfl⟩ := evaluate_eq_some h
  obtain ⟨u', hrun', rfl⟩ := evaluate_eq_some h'
  have hsame : u = u' := Option.some.inj (hrun.symm.trans hrun')
  rw [hsame]

theorem writing_evaluated (o : Outside) (m : IngressEgress) (hegress : m.egress = .empty)
    (hid : m.egressId = ⟨[.str "a"]⟩) :
    evaluate tryBool { o with fuel := 10 } writing allowRestRequest [] m =
      some (.ok (true, some MetaCrypto.sampleMeta)) := by
  obtain ⟨ingress, egress, id⟩ := m
  subst hegress hid
  rfl

/-- What the actor evaluates without arguments for the policy `writing`. -/
theorem writing_evalOn {t : PolicyActor} {o : Outside} {ingress egress : Option Meta} {b : Bool}
    (hpolicy : t.http.policy = writing) (hlabel : t.label = ⟨[.str "a"]⟩)
    (h : t.evalOn o .Request [] ingress = some (.ok (b, egress))) :
    egress = some MetaCrypto.sampleMeta := by
  unfold PolicyActor.evalOn at h
  rw [hpolicy, hlabel] at h
  have hsame := evaluate_fuel h (writing_evaluated o (.new ingress ⟨[.str "a"]⟩) rfl rfl)
  cases hsame
  rfl

/-- The host does not replace a policy in these events. -/
theorem visits_passEvents {a : PolicyActor} {headers : HeaderMap} {t : State}
    (ht : proxy.Visits (.start a) (passEvents headers) t) :
    t.actor.http.policy = a.http.policy := by
  obtain ⟨es, hes, hrun⟩ := ht
  have hkept : ∀ e ∈ es, ∀ ps, e ≠ .setPolicy ps := by
    rintro e he ps rfl
    have hmem := hes.subset he
    simp [passEvents] at hmem
  refine Machine.run_invariant (P := fun s => s.actor.http.policy = a.http.policy) ?_ rfl
    (Machine.Steps.of_forall hkept) hrun
  intro s e s' h he hstep
  rcases State.step_actor hstep with ⟨ps, rfl, -⟩ | ⟨secs, -, ha⟩ | ⟨n, ha⟩
  · exact absurd rfl (he ps)
  · rw [ha]
    exact h
  · rw [ha]
    exact h

/-- A request is forwarded on a decision of the policy, whatever its headers are. -/
theorem passEvents_run (headers : HeaderMap) :
    ∃ s x out d, proxy.run (.start writer) (passEvents headers) = some s ∧
      s.exchanges 0 = some x ∧ x.req.headers = headers ∧ x.forwarded = some out ∧
      x.decisions = [d] ∧ d.fn = .Request ∧ d.args = some [] :=
  ⟨_, _, _, _, rfl, rfl, rfl, rfl, rfl, rfl, rfl⟩

theorem metadata_passed_writing :
    ∃ s x out s' y d, proxy.run (.start writer) (passEvents []) = some s ∧
      s.exchanges 0 = some x ∧ x.forwarded = some out ∧
      proxy.run (.start writer) (passEvents out.headers) = some s' ∧ s'.exchanges 0 = some y ∧
      y.decisions = [d] ∧ ∃ t o, Evaluates (.start writer) (passEvents out.headers) 0 t o ∧
        (t.actor.evalOn o .Request [] (some MetaCrypto.sampleMeta)).map
          (Except.map (fun r => (r.1, r.2.bind (MetaCrypto.sample.toAead.encrypt o.now)))) =
            some d.answer := by
  obtain ⟨s, x, out, d₀, hrun, hx, -, hout, hlist, -, hargs₀⟩ := passEvents_run []
  obtain ⟨s', y, -, d, hrun', hy, hheaders, -, hd, hfn, hargs⟩ := passEvents_run out.headers
  obtain ⟨d₁, hd₁, hfn₁, -, egress, now, hleaves, hpassed⟩ :=
    metadata_passed MetaCrypto.platform64_base64 Ascii.printable_encode
      (chacha20Poly1305_correct _) (k := MetaCrypto.sample) (a := writer) (b := writer) rfl rfl
      hrun hrun' hx hy hout (by rw [hheaders])
  rw [hlist, List.mem_singleton] at hd₁
  subst hd₁
  obtain rfl : egress = some MetaCrypto.sampleMeta := by
    rcases hleaves with ⟨hnone, -⟩ | ⟨t, o, args, b, ht, -, hargs', heval⟩
    · rw [hargs₀] at hnone
      cases hnone
    · rw [hargs₀] at hargs'
      obtain rfl := Option.some.inj hargs'
      rw [hfn₁] at heval
      exact writing_evalOn (visits_passEvents ht.visits) (visits_aead ht.visits).2 heval
  refine ⟨s, x, out, s', y, d, hrun, hx, hout, hrun', hy, hd, ?_⟩
  refine hpassed (fun m hm => ?_) d (hd ▸ List.mem_singleton.mpr rfl) hfn [] hargs
  cases hm
  exact ⟨⟨by decide, by decide⟩, if_pos rfl, rfl⟩

end Armour.Proxy
