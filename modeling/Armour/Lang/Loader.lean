import Armour.Lang.Halting

/-! # Loading programs

`armour-lang/src/lang.rs`: headers and nodes of the call graph first, then the code with an
edge for each call that is not internal, and the check for cycles.  The parser and the type
check are not modelled: a declaration has the expression that its body is checked to, whose
calls are those that the check reports.
-/

namespace Armour.Lang

open Armour.Lib

/-- `FnDecl`. -/
structure FnDecl (FT FL : Type) where
  name : String
  sig : Signature FT
  body : Expr FL

inductive Decl (FT FL : Type) where
  | fnDecl (d : FnDecl FT FL)
  | external (name url : String) (headers : List (String × Signature FT))

namespace PreProgram

variable {FT FL : Type} [TFlatTyp FT]

/-- `PreProgram::default`. -/
def empty : PreProgram FT FL := ⟨.empty, .empty⟩

def addHeader (pre : PreProgram FT FL) (name : String) (sig : Signature FT) :
    Option (PreProgram FT FL) := do
  let headers ← Headers.addFunction pre.program.headers name sig
  some ⟨pre.callGraph.addNode name, { pre.program with headers := headers }⟩

/-- The headers of a declaration. -/
def addHeaders (pre : PreProgram FT FL) : Decl FT FL → Option (PreProgram FT FL)
  | .fnDecl d => pre.addHeader d.name d.sig
  | .external name url headers => do
      let pre ← headers.foldlM (fun pre h => pre.addHeader (name ++ "::" ++ h.1) h.2) pre
      some { pre with program :=
        { pre.program with externals := pre.program.externals.addExternal name url } }

/-- An edge to each of the functions. -/
def addCalls (g : CallGraph) (own : Nat) (fs : List String) : Option CallGraph :=
  fs.foldlM (fun g f => do some (g.addEdge own (← g.nodes.get? f))) g

/-- `add_decl`. -/
def addDecl (pre : PreProgram FT FL) (d : FnDecl FT FL) : Option (PreProgram FT FL) := do
  let own ← pre.callGraph.nodes.get? d.name
  let calls := (d.body.calls.map Prod.fst).filter (fun f => !Headers.isInternal FT f)
  let g ← addCalls pre.callGraph own calls
  some ⟨g, { pre.program with code := pre.program.code.insert d.name d.body }⟩

/-- `from_str`, on the declarations that the text is parsed to. -/
def ofDecls (decls : List (Decl FT FL)) : Option (PreProgram FT FL) := do
  let pre ← decls.foldlM addHeaders empty
  let fns := decls.filterMap (fun d => match d with
    | .fnDecl d => some d
    | .external _ _ _ => none)
  fns.foldlM addDecl pre

/-- `from_buf`: a cycle of calls is an error. -/
def fromBuf (decls : List (Decl FT FL)) : Option (PreProgram FT FL) := do
  let pre ← ofDecls decls
  if Graph.isAcyclic pre.callGraph.edges then some pre else none

/-! ## What the call graph records -/

/-- The nodes of a graph are numbered, each name with a number of its own. -/
structure Numbered (g : CallGraph) : Prop where
  lt : ∀ {f i}, g.nodes.get? f = some i → i < g.size
  inj : ∀ {f f' i}, g.nodes.get? f = some i → g.nodes.get? f' = some i → f = f'

theorem Numbered.empty : Numbered .empty where
  lt h := by cases h
  inj h := by cases h

theorem Numbered.addNode {g : CallGraph} (h : Numbered g) (name : String) :
    Numbered (g.addNode name) := by
  have hget : ∀ f, (g.addNode name).nodes.get? f =
      if f = name then some g.size else g.nodes.get? f :=
    fun f => BTreeMap.get?_insert g.nodes name f g.size
  constructor
  · intro f i hi
    rw [hget] at hi
    show i < g.size + 1
    split at hi
    · cases hi
      omega
    · have := h.lt hi
      omega
  · intro f f' i hi hi'
    rw [hget] at hi hi'
    split at hi <;> split at hi'
    · rename_i hf hf'
      rw [hf, hf']
    · cases hi
      exact absurd (h.lt hi') (Nat.lt_irrefl _)
    · cases hi'
      exact absurd (h.lt hi) (Nat.lt_irrefl _)
    · exact h.inj hi hi'

/-- Every call that is not internal has its edge, and every edge goes to a function that is not
internal. -/
structure Recorded (pre : PreProgram FT FL) : Prop where
  numbered : Numbered pre.callGraph
  node : ∀ {f e}, pre.program.code.get? f = some e → ∃ i, pre.callGraph.nodes.get? f = some i
  edge : ∀ {f g i}, pre.program.Calls f g → Headers.isInternal FT g = false →
    pre.callGraph.nodes.get? f = some i →
    ∃ j, pre.callGraph.nodes.get? g = some j ∧ Graph.Edge pre.callGraph.edges i j
  target : ∀ {i j}, Graph.Edge pre.callGraph.edges i j →
    ∃ g, pre.callGraph.nodes.get? g = some j ∧ Headers.isInternal FT g = false

/-- Only headers so far. -/
structure HeadersOnly (pre : PreProgram FT FL) : Prop where
  numbered : Numbered pre.callGraph
  edges : pre.callGraph.edges = []
  code : pre.program.code = ∅

omit [TFlatTyp FT] in
theorem HeadersOnly.addHeader {pre pre' : PreProgram FT FL} (h : HeadersOnly pre)
    {name : String} {sig : Signature FT} (hadd : pre.addHeader name sig = some pre') :
    HeadersOnly pre' := by
  simp only [PreProgram.addHeader, Option.bind_eq_bind, Option.bind_eq_some_iff] at hadd
  obtain ⟨headers, _, hadd⟩ := hadd
  cases hadd
  exact ⟨h.numbered.addNode name, h.edges, h.code⟩

/-- What every step of a fold that succeeds keeps, the fold keeps; the steps are those of the
elements. -/
theorem foldlM_keeps_mem {α β : Type} {P : β → Prop} {f : β → α → Option β} :
    ∀ {l : List α}, (∀ {b a b'}, a ∈ l → P b → f b a = some b' → P b') →
      ∀ {b b' : β}, P b → l.foldlM f b = some b' → P b' := by
  intro l
  induction l with
  | nil =>
      intro _ b b' hb h
      cases h
      exact hb
  | cons a l ih =>
      intro step b b' hb h
      rw [List.foldlM_cons, Option.bind_eq_bind, Option.bind_eq_some_iff] at h
      obtain ⟨b₁, h₁, h⟩ := h
      exact ih (fun ha => step (List.mem_cons_of_mem _ ha)) (step List.mem_cons_self hb h₁) h

theorem foldlM_keeps {α β : Type} {P : β → Prop} {f : β → α → Option β}
    (step : ∀ {b a b'}, P b → f b a = some b' → P b') {l : List α} {b b' : β} (hb : P b)
    (h : l.foldlM f b = some b') : P b' :=
  foldlM_keeps_mem (fun _ => step) hb h

omit [TFlatTyp FT] in
theorem HeadersOnly.addHeaders {pre pre' : PreProgram FT FL} (h : HeadersOnly pre)
    {d : Decl FT FL} (hadd : pre.addHeaders d = some pre') : HeadersOnly pre' := by
  cases d with
  | fnDecl d => exact h.addHeader hadd
  | external name url headers =>
      simp only [PreProgram.addHeaders, Option.bind_eq_bind, Option.bind_eq_some_iff] at hadd
      obtain ⟨pre₁, hfold, hadd⟩ := hadd
      cases hadd
      have h₁ : HeadersOnly pre₁ := foldlM_keeps (fun hb => hb.addHeader) h hfold
      exact ⟨h₁.numbered, h₁.edges, h₁.code⟩

omit [TFlatTyp FT] in
/-- Adding edges keeps the nodes and the edges, and adds those asked for. -/
theorem addCalls_spec {own : Nat} {fs : List String} :
    ∀ {g g' : CallGraph}, addCalls g own fs = some g' →
      g'.nodes = g.nodes ∧ g'.size = g.size ∧
      (∀ f ∈ fs, ∃ j, g.nodes.get? f = some j ∧ Graph.Edge g'.edges own j) ∧
      (∀ i j, Graph.Edge g.edges i j → Graph.Edge g'.edges i j) ∧
      ∀ i j, Graph.Edge g'.edges i j →
        Graph.Edge g.edges i j ∨ i = own ∧ ∃ f ∈ fs, g.nodes.get? f = some j := by
  unfold addCalls
  induction fs with
  | nil =>
      intro g g' h
      cases h
      exact ⟨rfl, rfl, by simp, fun _ _ h => h, fun _ _ h => Or.inl h⟩
  | cons f fs ih =>
      intro g g' h
      simp only [List.foldlM_cons, Option.bind_eq_bind, Option.bind_eq_some_iff] at h
      obtain ⟨g₁, ⟨j, hj, hg₁⟩, h⟩ := h
      cases hg₁
      obtain ⟨hnodes, hsize, hmem, hold, hnew⟩ := ih h
      have hedge : ∀ i k, Graph.Edge (g.addEdge own j).edges i k ↔
          (i = own ∧ k = j) ∨ Graph.Edge g.edges i k := by
        intro i k
        simp [CallGraph.addEdge, Graph.Edge]
      refine ⟨hnodes, hsize, ?_, fun i k hik => hold i k ((hedge i k).2 (Or.inr hik)), ?_⟩
      · intro f' hf'
        rcases List.mem_cons.1 hf' with rfl | hf'
        · exact ⟨j, hj, hold own j ((hedge own j).2 (Or.inl ⟨rfl, rfl⟩))⟩
        · exact hmem f' hf'
      · intro i k hik
        rcases hnew i k hik with hik | ⟨rfl, f', hf', hk⟩
        · rcases (hedge i k).1 hik with ⟨rfl, rfl⟩ | hik
          · exact Or.inr ⟨rfl, f, List.mem_cons_self, hj⟩
          · exact Or.inl hik
        · exact Or.inr ⟨rfl, f', List.mem_cons_of_mem _ hf', hk⟩

theorem HeadersOnly.recorded {pre : PreProgram FT FL} (h : HeadersOnly pre) : Recorded pre where
  numbered := h.numbered
  node hf := by
    rw [h.code] at hf
    cases hf
  edge := by
    rintro f g i ⟨e, hf, _⟩
    rw [h.code] at hf
    cases hf
  target := by
    intro i j hij
    rw [h.edges] at hij
    cases hij

/-- Adding the code of a function records its calls. -/
theorem Recorded.addDecl {pre pre' : PreProgram FT FL} (h : Recorded pre) {d : FnDecl FT FL}
    (hadd : pre.addDecl d = some pre') : Recorded pre' := by
  simp only [PreProgram.addDecl, Option.bind_eq_bind, Option.bind_eq_some_iff] at hadd
  obtain ⟨own, hown, g, hg, hadd⟩ := hadd
  cases hadd
  obtain ⟨hnodes, hsize, hmem, hold, hnew⟩ := addCalls_spec hg
  have hcode : ∀ f, (pre.program.code.insert d.name d.body).get? f =
      if f = d.name then some d.body else pre.program.code.get? f :=
    fun f => BTreeMap.get?_insert pre.program.code d.name f d.body
  constructor
  · constructor
    · intro f i hi
      rw [hnodes] at hi
      rw [hsize]
      exact h.numbered.lt hi
    · intro f f' i hi hi'
      rw [hnodes] at hi hi'
      exact h.numbered.inj hi hi'
  · intro f e hf
    rw [hcode] at hf
    rw [hnodes]
    split at hf
    · rename_i hfd
      exact ⟨own, hfd ▸ hown⟩
    · exact h.node hf
  · rintro f f' i ⟨e, hf, hf'⟩ hint hi
    rw [hcode] at hf
    rw [hnodes] at hi ⊢
    split at hf
    · rename_i hfd
      cases hf
      subst hfd
      cases hi.symm.trans hown
      refine hmem f' (List.mem_filter.2 ⟨hf', ?_⟩)
      rw [hint]
      rfl
    · obtain ⟨j, hj, hij⟩ := h.edge ⟨e, hf, hf'⟩ hint hi
      exact ⟨j, hj, hold i j hij⟩
  · intro i j hij
    rw [hnodes]
    rcases hnew i j hij with hij | ⟨_, f, hf, hj⟩
    · exact h.target hij
    · obtain ⟨_, hint⟩ := List.mem_filter.1 hf
      exact ⟨f, hj, by simpa using hint⟩

/-- Loading is done in two passes: headers of all declarations, code of the functions. -/
theorem ofDecls_eq_some {decls : List (Decl FT FL)} {pre : PreProgram FT FL}
    (h : ofDecls decls = some pre) : ∃ pre₁ fns, decls.foldlM addHeaders empty = some pre₁ ∧
      List.foldlM addDecl pre₁ fns = some pre ∧ ∀ d, .fnDecl d ∈ decls → d ∈ fns := by
  simp only [ofDecls, Option.bind_eq_bind, Option.bind_eq_some_iff] at h
  obtain ⟨pre₁, hheaders, hcode⟩ := h
  exact ⟨pre₁, _, hheaders, hcode, fun d hd => List.mem_filterMap.mpr ⟨.fnDecl d, hd, rfl⟩⟩

theorem recorded_ofDecls {decls : List (Decl FT FL)} {pre : PreProgram FT FL}
    (h : ofDecls decls = some pre) : Recorded pre := by
  obtain ⟨pre₁, fns, hheaders, hcode, -⟩ := ofDecls_eq_some h
  have hempty : HeadersOnly (empty : PreProgram FT FL) := ⟨Numbered.empty, rfl, rfl⟩
  have h₁ : HeadersOnly pre₁ := foldlM_keeps (fun hb => hb.addHeaders) hempty hheaders
  exact foldlM_keeps (fun hb => hb.addDecl) h₁.recorded hcode

/-! ## What is left of a program -/

omit [TFlatTyp FT] in
theorem cutTo_code {pre : PreProgram FT FL} {fs : List String} {f : String} {e : Expr FL}
    (h : (pre.cutTo fs).code.get? f = some e) :
    pre.program.code.get? f = some e ∧ (fs = [] ∨ f ∉ pre.callGraph.unreachable fs) := by
  unfold cutTo at h
  split at h
  · rename_i hfs
    exact ⟨h, Or.inl (List.isEmpty_iff.1 hfs)⟩
  · have hget : (pre.program.cut (pre.callGraph.unreachable fs)).code.get? f =
        if f ∈ pre.callGraph.unreachable fs then none else pre.program.code.get? f :=
      BTreeMap.get?_foldl_erase pre.program.code (pre.callGraph.unreachable fs) f
    rw [hget] at h
    split at h
    · cases h
    · rename_i hf
      exact ⟨h, Or.inr hf⟩

omit [TFlatTyp FT] in
theorem cutTo_calls {pre : PreProgram FT FL} {fs : List String} {f g : String}
    (h : (pre.cutTo fs).Calls f g) : pre.program.Calls f g := by
  obtain ⟨e, hf, hg⟩ := h
  exact ⟨e, (cutTo_code hf).1, hg⟩

/-- A call to a function with code that is not internal is an edge. -/
theorem Recorded.edge_of_calls {pre : PreProgram FT FL} (h : Recorded pre) {f g : String}
    (hcall : pre.program.Calls f g) (hint : Headers.isInternal FT g = false) :
    ∃ i j, pre.callGraph.nodes.get? f = some i ∧ pre.callGraph.nodes.get? g = some j ∧
      Graph.Edge pre.callGraph.edges i j := by
  obtain ⟨e, hf, _⟩ := id hcall
  obtain ⟨i, hi⟩ := h.node hf
  obtain ⟨j, hj, hij⟩ := h.edge hcall hint hi
  exact ⟨i, j, hi, hj, hij⟩

end PreProgram

/-- No function that has the name of a built-in function or internal service calls itself,
directly or through others. -/
def Program.NamesakesAcyclic {FT FL : Type} [TFlatTyp FT] (p : Program FT FL) : Prop :=
  ∀ f, Headers.isInternal FT f = true → ¬Relation.TransGen p.Calls f f

namespace PreProgram

variable {FT FL : Type} [TFlatTyp FT]

/-- The check for cycles sees every cycle but those through the name of an internal function. -/
theorem acyclic_iff {decls : List (Decl FT FL)} {pre : PreProgram FT FL}
    (h : fromBuf decls = some pre) (fs : List String) :
    (pre.cutTo fs).Acyclic ↔ (pre.cutTo fs).NamesakesAcyclic := by
  simp only [fromBuf, Option.bind_eq_bind, Option.bind_eq_some_iff] at h
  obtain ⟨pre', hload, h⟩ := h
  split at h
  · rename_i hacyclic
    cases h
    have hrec := recorded_ofDecls hload
    refine ⟨fun hno f _ => hno f, fun hno f hcycle => ?_⟩
    -- On a cycle without internal names every call is an edge.
    have hpath : ∀ g, Relation.TransGen (pre.cutTo fs).Calls g f →
        Relation.ReflTransGen (pre.cutTo fs).Calls f g →
        ∃ i j, pre.callGraph.nodes.get? g = some i ∧ pre.callGraph.nodes.get? f = some j ∧
          Relation.TransGen (Graph.Edge pre.callGraph.edges) i j := by
      intro g hg
      induction hg using Relation.TransGen.head_induction_on with
      | single hcall =>
          intro hback
          have hint : Headers.isInternal FT f = false := by
            by_contra hint
            exact hno f (by simpa using hint) hcycle
          obtain ⟨i, j, hi, hj, hij⟩ := hrec.edge_of_calls (cutTo_calls hcall) hint
          exact ⟨i, j, hi, hj, .single hij⟩
      | @head g g' hcall hrest ih =>
          intro hback
          have hback' : Relation.ReflTransGen (pre.cutTo fs).Calls f g' := hback.tail hcall
          have hint : Headers.isInternal FT g' = false := by
            by_contra hint
            exact hno g' (by simpa using hint) (Relation.TransGen.trans_left hrest hback')
          obtain ⟨i, j, hi, hj, hij⟩ := hrec.edge_of_calls (cutTo_calls hcall) hint
          obtain ⟨j', k, hj', hk, hjk⟩ := ih hback'
          cases hj.symm.trans hj'
          exact ⟨i, k, hi, hk, .head hij hjk⟩
    obtain ⟨i, j, hi, hj, hij⟩ := hpath f hcycle .refl
    cases hi.symm.trans hj
    exact Graph.not_transGen_of_isAcyclic hacyclic i hij
  · cases h

omit [TFlatTyp FT] in
theorem hasPath_of_not_mem {g : CallGraph} {fs : List String} {f : String} {i : Nat}
    (hi : g.nodes.get? f = some i) (hf : f ∉ g.unreachable fs) :
    ∃ t ∈ fs, ∃ k, g.nodes.get? t = some k ∧ g.hasPath k i = true := by
  by_contra hno
  refine hf ((CallGraph.mem_unreachable hi).mpr (fun t ht k hk => ?_))
  by_contra hpath
  exact hno ⟨t, ht, k, hk, by simpa using hpath⟩

/-- The functions that a function that is left calls are left, but for internal names. -/
theorem Recorded.cutTo_get {pre : PreProgram FT FL} (h : Recorded pre) {fs : List String}
    {f g : String} (hcall : (pre.cutTo fs).Calls f g) (hint : Headers.isInternal FT g = false) :
    (pre.cutTo fs).code.get? g = pre.program.code.get? g := by
  obtain ⟨i, j, hi, hj, hij⟩ := h.edge_of_calls (cutTo_calls hcall) hint
  obtain ⟨e, hf, -⟩ := hcall
  obtain ⟨-, hreached⟩ := cutTo_code hf
  unfold cutTo
  split
  · rfl
  · rename_i hne
    have hget := BTreeMap.get?_foldl_erase pre.program.code (pre.callGraph.unreachable fs) g
    refine hget.trans (if_neg (fun hmem => ?_))
    obtain ⟨t, ht, k, hk, hpath⟩ := hasPath_of_not_mem hi
      (hreached.resolve_left (fun hnil => hne (by rw [hnil]; rfl)))
    have hedges : ∀ e ∈ pre.callGraph.edges, e.2 < pre.callGraph.size := by
      rintro ⟨a, b⟩ hab
      obtain ⟨g', hg', -⟩ := h.target hab
      exact h.numbered.lt hg'
    have hstep := CallGraph.hasPath_step hedges (h.numbered.lt hk) hpath hij
    rw [(CallGraph.mem_unreachable hj).mp hmem t ht k hk] at hstep
    cases hstep

/-- A function that is left is reached from an entry point, and so it is an entry point or
called by an edge. -/
theorem Recorded.isInternal_eq_false {pre : PreProgram FT FL} (h : Recorded pre)
    {fs : List String} (hne : fs ≠ []) (hfs : ∀ f ∈ fs, Headers.isInternal FT f = false)
    {f : String} {e : Expr FL} (hf : (pre.cutTo fs).code.get? f = some e) :
    Headers.isInternal FT f = false := by
  obtain ⟨hcode, hreached⟩ := cutTo_code hf
  obtain ⟨i, hi⟩ := h.node hcode
  obtain ⟨t, ht, k, hk, hkpath⟩ := hasPath_of_not_mem hi (hreached.resolve_left hne)
  rcases CallGraph.hasPath_target hkpath with rfl | ⟨c, hc⟩
  · rw [h.numbered.inj hi hk]
    exact hfs t ht
  · obtain ⟨g, hg, hint⟩ := h.target hc
    rwa [h.numbered.inj hi hg]

/-- A program that is cut to what its entry points reach has no code under an internal name. -/
theorem namesakesAcyclic_cutTo {decls : List (Decl FT FL)} {pre : PreProgram FT FL}
    (h : fromBuf decls = some pre) (fs : List String) (hne : fs ≠ [])
    (hfs : ∀ f ∈ fs, Headers.isInternal FT f = false) : (pre.cutTo fs).NamesakesAcyclic := by
  simp only [fromBuf, Option.bind_eq_bind, Option.bind_eq_some_iff] at h
  obtain ⟨pre', hload, h⟩ := h
  split at h
  · cases h
    intro f hint hcycle
    obtain ⟨g, ⟨e, hf, _⟩, _⟩ := Relation.TransGen.head'_iff.1 hcycle
    rw [(recorded_ofDecls hload).isInternal_eq_false hne hfs hf] at hint
    cases hint
  · cases h

end PreProgram

end Armour.Lang
