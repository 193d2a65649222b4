import Armour.Lang.Locality
import Armour.Lang.Loader
import Armour.Lang.Policies

/-! # Merging of policies

`Policies::merge` of `armour-lang/src/policies.rs`.  Maps are merged entry by entry, and the
entries of one policy silently win: the merge keeps what both policies mean when they agree on
every name that they share.
-/

namespace Armour.Lang

open Armour.Lib

variable {FT FL : Type} [TFlatTyp FT]

namespace Policy

/-- The policy defines the function or calls it. -/
def Uses (x : Policy FT FL) (f : String) : Prop :=
  (x.program.code.get? f).isSome = true ∨ ∃ g, x.program.Calls g f

/-- The policy declares the external or calls a method of it. -/
def UsesExternal (x : Policy FT FL) (external : String) : Prop :=
  (x.program.externals.sockets.get? external).isSome = true ∨
    ∃ g f, x.program.Calls g f ∧ x.program.code.get? f = none ∧ IsMethod FT f external

/-- What the policy says of a name that it uses, the other one says. -/
structure Describes (m x : Policy FT FL) : Prop where
  code : ∀ f, x.Uses f → m.program.code.get? f = x.program.code.get? f
  headers : ∀ f sig, BTreeMap.get? x.program.headers f = some sig →
    BTreeMap.get? m.program.headers f = some sig
  sockets : ∀ s, x.UsesExternal s →
    m.program.externals.sockets.get? s = x.program.externals.sockets.get? s
  status : ∀ f st, x.get f = some st → m.get f = some st

theorem Describes.refl (x : Policy FT FL) : x.Describes x :=
  ⟨fun _ _ => rfl, fun _ _ h => h, fun _ _ => rfl, fun _ _ h => h⟩

/-- Descriptions compose. -/
theorem Describes.trans {m x y : Policy FT FL} (h : m.Describes x) (h' : x.Describes y) :
    m.Describes y := by
  have hbody : ∀ {g e}, y.program.code.get? g = some e → x.program.code.get? g = some e := by
    intro g e he
    rw [h'.code g (Or.inl (by rw [he]; rfl)), he]
  have hcalls : ∀ {g f}, y.program.Calls g f → x.program.Calls g f := by
    rintro g f ⟨e, he, hf⟩
    exact ⟨e, hbody he, hf⟩
  have huses : ∀ {f}, y.Uses f → x.Uses f := by
    rintro f (hsome | ⟨g, hg⟩)
    · obtain ⟨e, he⟩ := Option.isSome_iff_exists.mp hsome
      exact Or.inl (by rw [hbody he]; rfl)
    · exact Or.inr ⟨g, hcalls hg⟩
  have hexternal : ∀ {s}, y.UsesExternal s → x.UsesExternal s := by
    rintro s (hsome | ⟨g, f, hg, hnone, hmethod⟩)
    · refine Or.inl ?_
      rw [h'.sockets s (Or.inl hsome)]
      exact hsome
    · refine Or.inr ⟨g, f, hcalls hg, ?_, hmethod⟩
      rw [h'.code f (Or.inr ⟨g, hg⟩)]
      exact hnone
  constructor
  · intro f hf
    exact (h.code f (huses hf)).trans (h'.code f hf)
  · intro f sig hsig
    exact h.headers f sig (h'.headers f sig hsig)
  · intro s hs
    exact (h.sockets s (hexternal hs)).trans (h'.sockets s hs)
  · intro f st hst
    exact h.status f st (h'.status f st hst)

/-- What the second policy defines, the first one does not use or defines in the same way. -/
structure Admits (x y : Policy FT FL) : Prop where
  code : ∀ f e, y.program.code.get? f = some e → x.Uses f → x.program.code.get? f = some e
  headers : ∀ f sig sig', BTreeMap.get? x.program.headers f = some sig →
    BTreeMap.get? y.program.headers f = some sig' → sig = sig'
  sockets : ∀ s a, y.program.externals.sockets.get? s = some a → x.UsesExternal s →
    x.program.externals.sockets.get? s = some a
  status : ∀ f st st', x.get f = some st → y.get f = some st' → st = st'

/-- The policies agree on the names that they share. -/
def Agrees (x y : Policy FT FL) : Prop := x.Admits y ∧ y.Admits x

section

variable {κ ν : Type} [LinearOrder κ]

/-- A map that is extended keeps what the other one does not bind, or binds in the same way. -/
theorem get?_extend_left {m n : BTreeMap κ ν} {k : κ}
    (h : ∀ v, n.get? k = some v → m.get? k = some v) : (m.extend n).get? k = m.get? k := by
  rw [BTreeMap.get?_extend]
  cases hn : n.get? k with
  | none => rfl
  | some v => exact (h v hn).symm

/-- What is added is there. -/
theorem get?_extend_right {m n : BTreeMap κ ν} {k : κ} {v : ν} (h : n.get? k = some v) :
    (m.extend n).get? k = some v := by
  rw [BTreeMap.get?_extend, h, Option.some_or]

/-- And what is added is all that is there, where the map that is extended binds nothing else. -/
theorem get?_extend_eq_right {m n : BTreeMap κ ν} {k : κ}
    (h : ∀ v, m.get? k = some v → n.get? k = some v) : (m.extend n).get? k = n.get? k := by
  rw [BTreeMap.get?_extend]
  cases hn : n.get? k with
  | some v => rfl
  | none =>
      rw [Option.none_or]
      by_contra hne
      obtain ⟨v, hv⟩ := Option.ne_none_iff_exists'.mp hne
      rw [h v hv] at hn
      cases hn

end

/-- The entries of the argument stay, where the receiver has no others. -/
theorem Admits.describes_argument {x y : Policy FT FL} (h : x.Admits y) :
    (y.merge x).Describes x where
  code f hf := get?_extend_eq_right (fun e he => h.code f e he hf)
  headers _ _ hsig := get?_extend_right hsig
  sockets s hs := get?_extend_eq_right (fun a ha => h.sockets s a ha hs)
  status _ _ hst := get?_extend_right hst

/-- The entries of the receiver stay, where the argument has no others. -/
theorem Admits.describes_receiver {x y : Policy FT FL} (h : y.Admits x) :
    (y.merge x).Describes y where
  code f hf := get?_extend_left (fun e he => h.code f e he hf)
  headers f sig hsig := by
    refine (get?_extend_left (fun sig' hsig' => ?_)).trans hsig
    rw [hsig, h.headers f sig sig' hsig hsig']
  sockets s hs := get?_extend_left (fun a ha => h.sockets s a ha hs)
  status f st hst := by
    refine (get?_extend_left (fun st' hst' => ?_)).trans hst
    show y.get f = some st'
    rw [hst, h.status f st st' hst hst']

/-- Two policies that are described by one agree. -/
theorem Describes.agrees {m x y : Policy FT FL} (hx : m.Describes x) (hy : m.Describes y) :
    x.Admits y where
  code f e he hf := by
    have hdefined : y.Uses f := Or.inl (by rw [he]; rfl)
    rw [← hx.code f hf, hy.code f hdefined, he]
  headers f sig sig' hsig hsig' :=
    Option.some.inj ((hx.headers f sig hsig).symm.trans (hy.headers f sig' hsig'))
  sockets s a ha hs := by
    have hdefined : y.UsesExternal s := Or.inl (by rw [ha]; rfl)
    rw [← hx.sockets s hs, hy.sockets s hdefined, ha]
  status f st st' hst hst' :=
    Option.some.inj ((hx.status f st hst).symm.trans (hy.status f st' hst'))

section

variable [TFlatLiteral FT FL] [TInterpret FL]

omit [TFlatLiteral FT FL] [TInterpret FL] in
theorem Describes.sameCalls {m x : Policy FT FL} (h : m.Describes x) (rt : Runtime FL) :
    SameCalls FT x.Uses (Env.new rt x.program) (Env.new rt m.program) where
  runtime := rfl
  get := h.code
  socket f external hf hget hmethod := by
    refine h.sockets external ?_
    -- a name without code is used because it is called
    rcases hf with hsome | ⟨g, hcall⟩
    · have hnone : x.program.code.get? f = none := hget
      rw [hnone] at hsome
      cases hsome
    · exact Or.inr ⟨g, f, hcall, hget, hmethod⟩
  body f e _ hget c hc := Or.inr ⟨f, e, hget, List.mem_map_of_mem hc⟩

/-- A function that the policy uses evaluates to the same computation. -/
theorem Describes.eval {m x : Policy FT FL} (h : m.Describes x) (rt : Runtime FL) {f : String}
    (hf : x.Uses f) (args : List (Literal FL)) :
    eval (Env.new rt m.program) (.call f (args.map .litExpr)) =
      eval (Env.new rt x.program) (.call f (args.map .litExpr)) :=
  (h.sameCalls rt).eval (Expr.CallsIn.call_iff.mpr ⟨callsIn_lits args, hf⟩)

end

end Policy

namespace Policies

/-- The merged policy of a protocol of the second operand. -/
def mergeEntry (p : Policies FT FL) (k : Protocol) (y : Policy FT FL) : Policy FT FL :=
  match p.get? k with
  | some x => y.merge x
  | none => y

omit [TFlatTyp FT] in
theorem get?_merge (p q : Policies FT FL) (k : Protocol) :
    (p.merge q).get? k = ((q.get? k).map (mergeEntry p k)).or (p.get? k) :=
  BTreeMap.get?_foldl_insert (mergeEntry p) q.sorted p k

omit [TFlatTyp FT] in
theorem get?_merge_both {p q : Policies FT FL} {k : Protocol} {x y : Policy FT FL}
    (hx : p.get? k = some x) (hy : q.get? k = some y) :
    (p.merge q).get? k = some (y.merge x) := by
  rw [get?_merge, hy, Option.map_some, Option.some_or, mergeEntry, hx]

section

variable [TFlatLiteral FT FL] [TInterpret FL]

/-- The policies of `p` are in the merged ones as they were: for every name that they use there
is the same code, header, socket and status, and entry functions evaluate as before. -/
def KeptIn (p m : Policies FT FL) : Prop :=
  ∀ k x, p.get? k = some x → ∃ z, m.get? k = some z ∧ z.Describes x ∧
    ∀ f ∈ k.functions FT, (x.program.code.get? f).isSome = true →
      ∀ (rt : Runtime FL) (args : List (Literal FL)),
        eval (Env.new rt z.program) (.call f (args.map .litExpr)) =
          eval (Env.new rt x.program) (.call f (args.map .litExpr))

/-- The merge keeps both operands. -/
def Conservative (p q : Policies FT FL) : Prop :=
  KeptIn p (p.merge q) ∧ KeptIn q (p.merge q)

/-- The merge is conservative when the policies agree, for every protocol of both, on the names
that they share, and in no other case: it is never refused. -/
theorem conservative_iff (p q : Policies FT FL) : p.Conservative q ↔
    ∀ k x y, p.get? k = some x → q.get? k = some y → x.Agrees y := by
  constructor
  · rintro ⟨hp, hq⟩ k x y hx hy
    obtain ⟨z, hz, hzx, -⟩ := hp k x hx
    obtain ⟨z', hz', hzy, -⟩ := hq k y hy
    obtain rfl := Option.some.inj (hz.symm.trans hz')
    exact ⟨hzx.agrees hzy, hzy.agrees hzx⟩
  · intro h
    constructor
    · intro k x hx
      cases hy : q.get? k with
      | none =>
          refine ⟨x, ?_, .refl x, fun _ _ _ _ _ => rfl⟩
          rw [get?_merge, hy, hx]
          rfl
      | some y =>
          have hdesc := (h k x y hx hy).1.describes_argument
          exact ⟨y.merge x, get?_merge_both hx hy, hdesc,
            fun f _ hf rt args => hdesc.eval rt (Or.inl hf) args⟩
    · intro k y hy
      cases hx : p.get? k with
      | none =>
          refine ⟨y, ?_, .refl y, fun _ _ _ _ _ => rfl⟩
          rw [get?_merge, hy, Option.map_some, Option.some_or, mergeEntry, hx]
      | some x =>
          have hdesc := (h k x y hx hy).2.describes_receiver
          exact ⟨y.merge x, get?_merge_both hx hy, hdesc,
            fun f _ hf rt args => hdesc.eval rt (Or.inl hf) args⟩

end

/-! ## Two policies for one protocol -/

/-- Denies every request. -/
def requests : List (Decl FlatTyp DPFlatLiteral) :=
  [.fnDecl ⟨allowRestRequest, .new [] (.flatTyp .bool), .litExpr (.bool false)⟩]

/-- Denies every response. -/
def responses : List (Decl FlatTyp DPFlatLiteral) :=
  [.fnDecl ⟨allowRestResponse, .new [] (.flatTyp .bool), .litExpr (.bool false)⟩]

/-- The entry functions differ, and the status that the one policy gives to the function that it
does not define wins: responses are denied before the merge and allowed after it. -/
theorem not_conservative : ∃ pre₁ pre₂ p q y z,
    PreProgram.fromBuf requests = some pre₁ ∧ PreProgram.fromBuf responses = some pre₂ ∧
      innerFrom pre₁ = some p ∧ innerFrom pre₂ = some q ∧
      q.get? .HTTP = some y ∧ y.get allowRestResponse = some (.Args 0) ∧
      (p.merge q).get? .HTTP = some z ∧ z.get allowRestResponse = some .Allow ∧
      ¬p.Conservative q := by
  refine ⟨_, _, _, _, _, _, rfl, rfl, rfl, rfl, rfl, rfl, rfl, rfl, ?_⟩
  intro h
  obtain ⟨-, hadmits⟩ := (conservative_iff _ _).mp h .HTTP _ _ rfl rfl
  exact absurd (hadmits.status allowRestResponse (.Args 0) .Allow rfl rfl) nofun

end Policies

end Armour.Lang
