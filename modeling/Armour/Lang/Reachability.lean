import Armour.Lang.Loader
import Armour.Lang.Locality
import Armour.Lang.ControlPlane

/-! # Restriction of programs

`PreProgram::program` of `armour-lang/src/lang.rs` on a program that was loaded: its call graph
has a node for each header and an edge for each call of a function of the program or of an
external, and no others.  What is cut is what no path reaches, and evaluation does not see it.
-/

namespace Armour.Lang

open Armour.Lib

/-! ## The search -/

namespace CallGraph

/-- The search finds nothing that edges do not lead to. -/
theorem mem_expand_iterate {g : CallGraph} {a : Nat} (n : Nat) :
    ∀ {seen : List Nat}, (∀ b ∈ seen, Relation.ReflTransGen (Graph.Edge g.edges) a b) →
      ∀ b ∈ (g.expand^[n]) seen, Relation.ReflTransGen (Graph.Edge g.edges) a b := by
  induction n with
  | zero => exact fun h => h
  | succ n ih =>
      intro seen h
      rw [Function.iterate_succ_apply]
      apply ih
      -- one round, edge by edge
      have hround : ∀ es : List (Nat × Nat), es ⊆ g.edges → ∀ s : List Nat,
          (∀ b ∈ s, Relation.ReflTransGen (Graph.Edge g.edges) a b) →
          ∀ b ∈ es.foldl (fun s e => if e.1 ∈ s ∧ e.2 ∉ s then e.2 :: s else s) s,
            Relation.ReflTransGen (Graph.Edge g.edges) a b := by
        intro es
        induction es with
        | nil => exact fun _ _ hs => hs
        | cons e es ihes =>
            intro hsub s hs
            obtain ⟨he, hes⟩ := List.cons_subset.mp hsub
            rw [List.foldl_cons]
            apply ihes hes
            split
            · rename_i hnew
              refine List.forall_mem_cons.mpr ⟨?_, hs⟩
              exact (hs e.1 hnew.1).tail he
            · exact hs
      exact hround g.edges (fun _ he => he) seen h

/-- `has_path_connecting` decides whether there is a path. -/
theorem hasPath_iff {g : CallGraph} (hedges : ∀ e ∈ g.edges, e.2 < g.size) {a b : Nat}
    (ha : a < g.size) :
    g.hasPath a b = true ↔ Relation.ReflTransGen (Graph.Edge g.edges) a b := by
  constructor
  · intro h
    refine mem_expand_iterate g.size (fun b hb => ?_) b (of_decide_eq_true h)
    rw [List.mem_singleton.mp hb]
  · intro h
    induction h with
    | refl =>
        -- the start is seen from the beginning
        have hstart : ∀ n (seen : List Nat), a ∈ seen → a ∈ (g.expand^[n]) seen := by
          intro n
          induction n with
          | zero => exact fun _ h => h
          | succ n ih =>
              intro seen hseen
              rw [Function.iterate_succ_apply]
              apply ih
              have hfold : ∀ (es : List (Nat × Nat)) (s : List Nat), a ∈ s →
                  a ∈ es.foldl (fun s e => if e.1 ∈ s ∧ e.2 ∉ s then e.2 :: s else s) s := by
                intro es
                induction es with
                | nil => exact fun _ h => h
                | cons e es ihes =>
                    intro s hs
                    rw [List.foldl_cons]
                    apply ihes
                    split
                    · exact List.mem_cons_of_mem _ hs
                    · exact hs
              exact hfold g.edges seen hseen
        exact decide_eq_true (hstart g.size [a] List.mem_cons_self)
    | tail _ hbc ih => exact hasPath_step hedges ha ih hbc

end CallGraph

variable {FT FL : Type} [TFlatTyp FT]

/-- A call of a function of the program or of an external: the names of built-in functions and
internal services stand for those. -/
def Program.CallsUser (p : Program FT FL) (f g : String) : Prop :=
  p.Calls f g ∧ Headers.isInternal FT g = false

/-- Reachable, through calls, from one of the functions that is defined. -/
def Program.Reaches (p : Program FT FL) (mains : List String) (f : String) : Prop :=
  ∃ m ∈ mains, (BTreeMap.get? p.headers m).isSome = true ∧
    Relation.ReflTransGen p.CallsUser m f

namespace PreProgram

/-! ## The recorded graph is exact -/

/-- The nodes are the headers, and the edges are the calls. -/
structure Exact (pre : PreProgram FT FL) : Prop where
  numbered : Numbered pre.callGraph
  node : ∀ f, (pre.callGraph.nodes.get? f).isSome = (BTreeMap.get? pre.program.headers f).isSome
  coded : ∀ f, (pre.program.code.get? f).isSome = true →
    (BTreeMap.get? pre.program.headers f).isSome = true
  edge : ∀ i j, Graph.Edge pre.callGraph.edges i j ↔ ∃ f g, pre.callGraph.nodes.get? f = some i ∧
    pre.callGraph.nodes.get? g = some j ∧ pre.program.CallsUser f g
  known : ∀ f g, pre.program.CallsUser f g → (pre.callGraph.nodes.get? g).isSome = true

/-- The functions of a list of declarations. -/
def functions (decls : List (Decl FT FL)) : List (FnDecl FT FL) :=
  decls.filterMap (fun d => match d with
    | .fnDecl d => some d
    | .external _ _ _ => none)

theorem ofDecls_eq (decls : List (Decl FT FL)) :
    ofDecls decls = (decls.foldlM addHeaders empty).bind
      (fun pre => (functions decls).foldlM addDecl pre) := rfl

omit [TFlatTyp FT] in
/-- A header is new, and those there were stay. -/
theorem addHeader_headers {pre pre' : PreProgram FT FL} {name : String} {sig : Signature FT}
    (h : pre.addHeader name sig = some pre') :
    BTreeMap.get? pre.program.headers name = none ∧
      pre'.program.headers = BTreeMap.insert pre.program.headers name sig ∧
      pre'.callGraph = pre.callGraph.addNode name := by
  simp only [PreProgram.addHeader, Headers.addFunction, Option.bind_eq_bind,
    Option.bind_eq_some_iff] at h
  obtain ⟨headers, hadd, h⟩ := h
  split at hadd
  · cases hadd
  · rename_i hnone
    cases hadd
    cases h
    exact ⟨by simpa using hnone, rfl, rfl⟩

omit [TFlatTyp FT] in
theorem isSome_insert {ν : Type} (m : BTreeMap String ν) (k k' : String) (v : ν) :
    ((m.insert k v).get? k').isSome = (decide (k' = k) || (m.get? k').isSome) := by
  rw [BTreeMap.get?_insert]
  by_cases h : k' = k
  · simp [h]
  · simp [h]

/-- Before the code: nodes and headers agree. -/
structure NodesAreHeaders (pre : PreProgram FT FL) : Prop where
  node : ∀ f, (pre.callGraph.nodes.get? f).isSome = (BTreeMap.get? pre.program.headers f).isSome

omit [TFlatTyp FT] in
theorem NodesAreHeaders.addHeader {pre pre' : PreProgram FT FL} (h : NodesAreHeaders pre)
    {name : String} {sig : Signature FT} (hadd : pre.addHeader name sig = some pre') :
    NodesAreHeaders pre' := by
  obtain ⟨-, hheaders, hgraph⟩ := addHeader_headers hadd
  constructor
  intro f
  rw [hheaders, hgraph, isSome_insert, ← h.node f]
  exact isSome_insert pre.callGraph.nodes name f pre.callGraph.size

omit [TFlatTyp FT] in
theorem NodesAreHeaders.addHeaders {pre pre' : PreProgram FT FL} (h : NodesAreHeaders pre)
    {d : Decl FT FL} (hadd : pre.addHeaders d = some pre') : NodesAreHeaders pre' := by
  cases d with
  | fnDecl d => exact h.addHeader hadd
  | external name url headers =>
      simp only [PreProgram.addHeaders, Option.bind_eq_bind, Option.bind_eq_some_iff] at hadd
      obtain ⟨pre₁, hfold, hadd⟩ := hadd
      cases hadd
      exact ⟨(foldlM_keeps (fun hb => hb.addHeader) h hfold : NodesAreHeaders pre₁).node⟩

omit [TFlatTyp FT] in
/-- Headers that are there stay. -/
theorem addHeaders_isSome {pre pre' : PreProgram FT FL} {d : Decl FT FL}
    (hadd : pre.addHeaders d = some pre') {f : String}
    (hf : (BTreeMap.get? pre.program.headers f).isSome = true) :
    (BTreeMap.get? pre'.program.headers f).isSome = true := by
  have hone : ∀ {pre pre' : PreProgram FT FL} {a : String × Signature FT} {name : String},
      (BTreeMap.get? pre.program.headers f).isSome = true →
      pre.addHeader name a.2 = some pre' →
      (BTreeMap.get? pre'.program.headers f).isSome = true := by
    intro pre pre' a name hpre hstep
    rw [(addHeader_headers hstep).2.1, isSome_insert, hpre, Bool.or_true]
  cases d with
  | fnDecl d => exact hone (a := ("", d.sig)) hf hadd
  | external name url headers =>
      simp only [PreProgram.addHeaders, Option.bind_eq_bind, Option.bind_eq_some_iff] at hadd
      obtain ⟨pre₁, hfold, hadd⟩ := hadd
      cases hadd
      exact foldlM_keeps (P := fun p => (BTreeMap.get? p.program.headers f).isSome = true)
        (fun hb hstep => hone hb hstep) hf hfold

omit [TFlatTyp FT] in
/-- No two functions have one name, since the second header would be refused. -/
theorem functions_distinct {decls : List (Decl FT FL)} :
    ∀ {pre pre' : PreProgram FT FL}, decls.foldlM addHeaders pre = some pre' →
      (∀ d ∈ functions decls, BTreeMap.get? pre.program.headers d.name = none) ∧
        ((functions decls).map FnDecl.name).Nodup ∧
        ∀ d ∈ functions decls, (BTreeMap.get? pre'.program.headers d.name).isSome = true := by
  induction decls with
  | nil => exact fun _ => ⟨nofun, List.nodup_nil, nofun⟩
  | cons d ds ih =>
      intro pre pre' h
      rw [List.foldlM_cons, Option.bind_eq_bind, Option.bind_eq_some_iff] at h
      obtain ⟨pre₁, hadd, hfold⟩ := h
      obtain ⟨hnone, hnodup, hsome⟩ := ih hfold
      have hold : ∀ d' ∈ functions ds, BTreeMap.get? pre.program.headers d'.name = none := by
        intro d' hd'
        by_contra hne
        have hthere := addHeaders_isSome hadd (Option.isSome_iff_ne_none.mpr hne)
        rw [hnone d' hd'] at hthere
        cases hthere
      cases d with
      | external name url headers => exact ⟨hold, hnodup, hsome⟩
      | fnDecl d =>
          obtain ⟨hd, hheaders, -⟩ := addHeader_headers hadd
          have hself : (BTreeMap.get? pre₁.program.headers d.name).isSome = true := by
            rw [hheaders, isSome_insert]
            simp
          refine ⟨List.forall_mem_cons.mpr ⟨hd, hold⟩, List.nodup_cons.mpr ⟨?_, hnodup⟩,
            List.forall_mem_cons.mpr ⟨?_, hsome⟩⟩
          · intro hmem
            obtain ⟨d', hd', hname⟩ := List.mem_map.mp hmem
            rw [← hname, hnone d' hd'] at hself
            cases hself
          · exact foldlM_keeps
              (P := fun p => (BTreeMap.get? p.program.headers d.name).isSome = true)
              (fun hb hstep => addHeaders_isSome hstep hb) hself hfold

/-- The code of a new function adds its calls, and nothing else. -/
theorem Exact.addDecl {pre pre' : PreProgram FT FL} (h : Exact pre) {d : FnDecl FT FL}
    (hnew : pre.program.code.get? d.name = none) (hadd : pre.addDecl d = some pre') :
    Exact pre' ∧ pre'.program.headers = pre.program.headers ∧
      ∀ f, f ≠ d.name → pre'.program.code.get? f = pre.program.code.get? f := by
  simp only [PreProgram.addDecl, Option.bind_eq_bind, Option.bind_eq_some_iff] at hadd
  obtain ⟨own, hown, g, hg, hadd⟩ := hadd
  cases hadd
  obtain ⟨hnodes, hsize, hmem, hold, hback⟩ := addCalls_spec hg
  have hcode : ∀ f, (pre.program.code.insert d.name d.body).get? f =
      if f = d.name then some d.body else pre.program.code.get? f :=
    fun f => BTreeMap.get?_insert pre.program.code d.name f d.body
  -- calls of the new code are those of the others and of the function
  have hcalls : ∀ f f', Program.CallsUser
        (⟨pre.program.code.insert d.name d.body, pre.program.externals, pre.program.headers⟩ :
          Program FT FL) f f' ↔
      pre.program.CallsUser f f' ∨
        f = d.name ∧ f' ∈ d.body.calls.map Prod.fst ∧ Headers.isInternal FT f' = false := by
    intro f f'
    constructor
    · rintro ⟨⟨e, hf, hf'⟩, hint⟩
      rw [hcode] at hf
      split at hf
      · rename_i hfd
        cases hf
        exact Or.inr ⟨hfd, hf', hint⟩
      · exact Or.inl ⟨⟨e, hf, hf'⟩, hint⟩
    · rintro (⟨⟨e, hf, hf'⟩, hint⟩ | ⟨rfl, hf', hint⟩)
      · refine ⟨⟨e, ?_, hf'⟩, hint⟩
        rw [hcode, if_neg]
        · exact hf
        · rintro rfl
          rw [hnew] at hf
          cases hf
      · refine ⟨⟨d.body, ?_, hf'⟩, hint⟩
        rw [hcode, if_pos rfl]
  have hasked : ∀ f', f' ∈ (d.body.calls.map Prod.fst).filter
      (fun f => !Headers.isInternal FT f) ↔
        f' ∈ d.body.calls.map Prod.fst ∧ Headers.isInternal FT f' = false := by
    intro f'
    rw [List.mem_filter, Bool.not_eq_true']
  refine ⟨⟨⟨?_, ?_⟩, ?_, ?_, ?_, ?_⟩, rfl, fun f hf => (hcode f).trans (if_neg hf)⟩
  · intro f i hi
    rw [hnodes] at hi
    rw [hsize]
    exact h.numbered.lt hi
  · intro f f' i hi hi'
    rw [hnodes] at hi hi'
    exact h.numbered.inj hi hi'
  · intro f
    rw [hnodes]
    exact h.node f
  · intro f hf
    rw [hcode] at hf
    split at hf
    · rename_i hfd
      rw [← h.node f, hfd, hown]
      rfl
    · exact h.coded f hf
  · intro i j
    simp only [hnodes, hcalls]
    constructor
    · intro hij
      rcases hback i j hij with hij | ⟨rfl, f', hf', hj⟩
      · obtain ⟨f, f', hi, hj, hcall⟩ := (h.edge i j).mp hij
        exact ⟨f, f', hi, hj, Or.inl hcall⟩
      · exact ⟨d.name, f', hown, hj, Or.inr ⟨rfl, (hasked f').mp hf'⟩⟩
    · rintro ⟨f, f', hi, hj, hcall | ⟨rfl, hf'⟩⟩
      · exact hold i j ((h.edge i j).mpr ⟨f, f', hi, hj, hcall⟩)
      · obtain ⟨j', hj', hedge⟩ := hmem f' ((hasked f').mpr hf')
        cases hi.symm.trans hown
        cases hj.symm.trans hj'
        exact hedge
  · intro f f' hcall
    rw [hnodes]
    rcases (hcalls f f').mp hcall with hcall | ⟨-, hf'⟩
    · exact h.known f f' hcall
    · obtain ⟨j, hj, -⟩ := hmem f' ((hasked f').mpr hf')
      rw [hj]
      rfl

/-- The code of all functions. -/
theorem Exact.addDecls {fns : List (FnDecl FT FL)} :
    ∀ {pre pre' : PreProgram FT FL}, Exact pre → (fns.map FnDecl.name).Nodup →
      (∀ d ∈ fns, pre.program.code.get? d.name = none) → fns.foldlM PreProgram.addDecl pre = some pre' →
      Exact pre' := by
  induction fns with
  | nil =>
      intro pre pre' h _ _ hfold
      cases hfold
      exact h
  | cons d ds ih =>
      intro pre pre' h hnodup hnew hfold
      rw [List.foldlM_cons, Option.bind_eq_bind, Option.bind_eq_some_iff] at hfold
      obtain ⟨pre₁, hadd, hfold⟩ := hfold
      obtain ⟨hd, hds⟩ := List.forall_mem_cons.mp hnew
      obtain ⟨hnot, hnodup⟩ := List.nodup_cons.mp hnodup
      obtain ⟨h₁, -, hcode⟩ := h.addDecl hd hadd
      refine ih h₁ hnodup (fun d' hd' => ?_) hfold
      rw [hcode d'.name (fun hname => hnot (List.mem_map.mpr ⟨d', hd', hname⟩))]
      exact hds d' hd'

/-- The call graph of a program that is loaded. -/
theorem exact_ofDecls {decls : List (Decl FT FL)} {pre : PreProgram FT FL}
    (h : ofDecls decls = some pre) : Exact pre := by
  rw [ofDecls_eq, Option.bind_eq_some_iff] at h
  obtain ⟨pre₁, hheaders, hcode⟩ := h
  obtain ⟨-, hnodup, -⟩ := functions_distinct hheaders
  have hempty : HeadersOnly (empty : PreProgram FT FL) := ⟨Numbered.empty, rfl, rfl⟩
  have h₁ : HeadersOnly pre₁ := foldlM_keeps (fun hb => hb.addHeaders) hempty hheaders
  have hnode : NodesAreHeaders pre₁ :=
    foldlM_keeps (fun hb => hb.addHeaders) ⟨fun _ => rfl⟩ hheaders
  have hnone : ∀ f, pre₁.program.code.get? f = none := fun f => by rw [h₁.code]; rfl
  have hno : ∀ f g, ¬pre₁.program.CallsUser f g := by
    rintro f g ⟨⟨e, hf, -⟩, -⟩
    rw [hnone f] at hf
    cases hf
  refine Exact.addDecls ⟨h₁.numbered, hnode.node, ?_, ?_, ?_⟩ hnodup (fun d _ => hnone d.name) hcode
  · intro f hf
    rw [hnone f] at hf
    cases hf
  · intro i j
    rw [h₁.edges]
    constructor
    · intro hij
      cases hij
    · rintro ⟨f, g, -, -, hcall⟩
      exact absurd hcall (hno f g)
  · exact fun f g hcall => absurd hcall (hno f g)

/-! ## What is kept -/

/-- Paths between nodes are chains of calls. -/
theorem Exact.path_iff {pre : PreProgram FT FL} (h : Exact pre) {m f : String} {k i : Nat}
    (hk : pre.callGraph.nodes.get? m = some k) (hi : pre.callGraph.nodes.get? f = some i) :
    Relation.ReflTransGen (Graph.Edge pre.callGraph.edges) k i ↔
      Relation.ReflTransGen pre.program.CallsUser m f := by
  constructor
  · intro hpath
    induction hpath generalizing f with
    | refl => rw [h.numbered.inj hk hi]
    | @tail b c _ hbc ih =>
        obtain ⟨f', g, hf', hg, hcall⟩ := (h.edge b c).mp hbc
        obtain rfl := h.numbered.inj hg hi
        exact (ih hf').tail hcall
  · intro hcalls
    induction hcalls generalizing i with
    | refl =>
        obtain rfl := Option.some.inj (hk.symm.trans hi)
        exact .refl
    | @tail g f' _ hcall ih =>
        -- what calls has code, and so a node
        obtain ⟨⟨e, hcode, -⟩, -⟩ := id hcall
        have hnode := h.node g
        rw [h.coded g (by rw [hcode]; rfl)] at hnode
        obtain ⟨j, hj⟩ := Option.isSome_iff_exists.mp hnode
        exact (ih hj).tail ((h.edge j i).mpr ⟨g, f', hj, hi, hcall⟩)

/-- A header is unreachable in the graph when no main function reaches it through calls. -/
theorem Exact.mem_unreachable {pre : PreProgram FT FL} (h : Exact pre) {mains : List String}
    {f : String} (hf : (BTreeMap.get? pre.program.headers f).isSome = true) :
    f ∈ pre.callGraph.unreachable mains ↔ ¬pre.program.Reaches mains f := by
  obtain ⟨i, hi⟩ := Option.isSome_iff_exists.mp ((h.node f).trans hf)
  have hedges : ∀ e ∈ pre.callGraph.edges, e.2 < pre.callGraph.size := by
    rintro ⟨a, b⟩ hab
    obtain ⟨-, g, -, hg, -⟩ := (h.edge a b).mp hab
    exact h.numbered.lt hg
  rw [CallGraph.mem_unreachable hi]
  constructor
  · rintro hall ⟨m, hm, hdef, hcalls⟩
    obtain ⟨k, hk⟩ := Option.isSome_iff_exists.mp ((h.node m).trans hdef)
    have hpath := (CallGraph.hasPath_iff hedges (h.numbered.lt hk)).mpr
      ((h.path_iff hk hi).mpr hcalls)
    rw [hall m hm k hk] at hpath
    cases hpath
  · intro hno m hm k hk
    by_contra hpath
    rw [Bool.not_eq_false, CallGraph.hasPath_iff hedges (h.numbered.lt hk)] at hpath
    refine hno ⟨m, hm, ?_, (h.path_iff hk hi).mp hpath⟩
    rw [← h.node m, hk]
    rfl

end PreProgram

/-- `p` has the functions and headers of `q` that the main functions reach, and all of its
sockets. -/
structure Program.Restricts (q : Program FT FL) (mains : List String) (p : Program FT FL) :
    Prop where
  code : ∀ f e, p.code.get? f = some e ↔ q.code.get? f = some e ∧ q.Reaches mains f
  headers : ∀ f sig, BTreeMap.get? p.headers f = some sig ↔
    BTreeMap.get? q.headers f = some sig ∧ q.Reaches mains f
  externals : p.externals = q.externals

/-- No function has the name of a built-in function or internal service. -/
def Program.NoNamesakes (p : Program FT FL) : Prop :=
  ∀ f, Headers.isInternal FT f = true → p.code.get? f = none

namespace PreProgram

theorem Exact.restricts {pre : PreProgram FT FL} (h : Exact pre) {mains : List String}
    (hne : mains ≠ []) : pre.program.Restricts mains (pre.cutTo mains) := by
  have hcut : pre.cutTo mains = pre.program.cut (pre.callGraph.unreachable mains) :=
    if_neg (fun hnil => hne (List.isEmpty_iff.mp hnil))
  -- erasing what is unreachable, from a map whose keys are headers
  have hkeep : ∀ {ν : Type} (m : BTreeMap String ν) (f : String) (v : ν),
      ((m.get? f).isSome = true → (BTreeMap.get? pre.program.headers f).isSome = true) →
      (((pre.callGraph.unreachable mains).foldl BTreeMap.erase m).get? f = some v ↔
        m.get? f = some v ∧ pre.program.Reaches mains f) := by
    intro ν m f v hheader
    rw [BTreeMap.get?_foldl_erase]
    constructor
    · intro hget
      split at hget
      · cases hget
      · rename_i hnot
        refine ⟨hget, ?_⟩
        rw [h.mem_unreachable (hheader (by rw [hget]; rfl)), not_not] at hnot
        exact hnot
    · rintro ⟨hget, hreach⟩
      rw [if_neg, hget]
      rw [h.mem_unreachable (hheader (by rw [hget]; rfl)), not_not]
      exact hreach
  rw [hcut]
  exact ⟨fun f e => hkeep pre.program.code f e (h.coded f),
    fun f sig => hkeep pre.program.headers f sig id, rfl⟩

end PreProgram

/-! ## Evaluation -/

section

variable [TFlatLiteral FT FL] [TInterpret FL] {p q : Program FT FL} {mains : List String}

omit [TFlatLiteral FT FL] [TInterpret FL] in
/-- The functions that are reached call none but those and internal ones. -/
theorem Program.Restricts.sameCalls (h : q.Restricts mains p) (hno : q.NoNamesakes)
    (rt : Runtime FL) :
    SameCalls FT (fun f => q.Reaches mains f ∨ Headers.isInternal FT f = true)
      (Env.new rt q) (Env.new rt p) where
  runtime := rfl
  get f hf := by
    show p.code.get? f = q.code.get? f
    rcases hf with hreach | hint
    · cases hget : q.code.get? f with
      | some e => exact (h.code f e).mpr ⟨hget, hreach⟩
      | none =>
          by_contra hne
          obtain ⟨e, he⟩ := Option.ne_none_iff_exists'.mp hne
          rw [((h.code f e).mp he).1] at hget
          cases hget
    · rw [hno f hint]
      by_contra hne
      obtain ⟨e, he⟩ := Option.ne_none_iff_exists'.mp hne
      have hget := ((h.code f e).mp he).1
      rw [hno f hint] at hget
      cases hget
  socket f external _ _ _ := by
    show p.externals.sockets.get? external = q.externals.sockets.get? external
    rw [h.externals]
  body f e hf hget c hc := by
    have hget : q.code.get? f = some e := hget
    cases hint : Headers.isInternal FT c.1 with
    | true => exact Or.inr hint
    | false =>
        rcases hf with ⟨m, hm, hdef, hcalls⟩ | hf
        · exact Or.inl ⟨m, hm, hdef, hcalls.tail ⟨⟨e, hget, List.mem_map_of_mem hc⟩, hint⟩⟩
        · rw [hno f hf] at hget
          cases hget

/-- The call of a main function that is defined evaluates to the same computation. -/
theorem Program.Restricts.eval (h : q.Restricts mains p) (hno : q.NoNamesakes)
    (rt : Runtime FL) {m : String} (hm : m ∈ mains)
    (hdef : (BTreeMap.get? q.headers m).isSome = true) (args : List (Literal FL)) :
    eval (Env.new rt p) (.call m (args.map .litExpr)) =
      eval (Env.new rt q) (.call m (args.map .litExpr)) := by
  refine (h.sameCalls hno rt).eval (Expr.CallsIn.call_iff.mpr ⟨callsIn_lits args, ?_⟩)
  exact Or.inl ⟨m, hm, hdef, .refl⟩

/-- Restriction keeps what the main functions that are defined reach, and evaluation does not
see it; without main functions the program is kept as it is. -/
theorem PreProgram.restriction_exact {decls : List (Decl FT FL)} {pre : PreProgram FT FL}
    (hload : PreProgram.fromBuf decls = some pre) (mains : List String) :
    pre.cutTo [] = pre.program ∧
      (mains ≠ [] → pre.program.Restricts mains (pre.cutTo mains)) ∧
      (pre.program.NoNamesakes → ∀ m ∈ mains,
        (BTreeMap.get? pre.program.headers m).isSome = true →
        ∀ (rt : Runtime FL) (args : List (Literal FL)),
          Lang.eval (Env.new rt (pre.cutTo mains)) (.call m (args.map .litExpr)) =
            Lang.eval (Env.new rt pre.program) (.call m (args.map .litExpr))) := by
  have hdecls : PreProgram.ofDecls decls = some pre := by
    simp only [PreProgram.fromBuf, Option.bind_eq_bind, Option.bind_eq_some_iff] at hload
    obtain ⟨pre', hpre, hload⟩ := hload
    split_ifs at hload
    exact hpre.trans hload
  have hexact := PreProgram.exact_ofDecls hdecls
  refine ⟨rfl, hexact.restricts, fun hno m hm hdef rt args => ?_⟩
  exact (hexact.restricts (List.ne_nil_of_mem hm)).eval hno rt hm hdef args

end

/-! ## Programs -/

/-- An entry point with a helper and an external, and a function that nothing calls. -/
def sharing : List (Decl FlatTyp DPFlatLiteral) :=
  [.external "db" "127.0.0.1:8080" [("known", .new [] (.flatTyp .bool)),
      ("purge", .new [] (.flatTyp .unit))],
    .fnDecl ⟨"check", .new [] (.flatTyp .bool), .callExpr "db::known" [] false⟩,
    .fnDecl ⟨"unused", .new [] (.flatTyp .bool), .callExpr "check" [] false⟩,
    .fnDecl ⟨"allow_rest_request", .new [] (.flatTyp .bool), .callExpr "check" [] false⟩]

/-- The helper and the method that is called stay, the others go, and evaluation is the same. -/
theorem restriction_exact_sharing : ∃ pre, PreProgram.fromBuf sharing = some pre ∧
    (pre.program.Restricts ["allow_rest_request"] (pre.cutTo ["allow_rest_request"])) ∧
    (pre.cutTo ["allow_rest_request"]).code.entries.map Prod.fst =
      ["allow_rest_request", "check"] ∧
    BTreeMap.keys (pre.cutTo ["allow_rest_request"]).headers =
      ["allow_rest_request", "check", "db::known"] ∧
    ∀ (rt : Runtime DPFlatLiteral) (args : List DPLiteral),
      eval (Env.new rt (pre.cutTo ["allow_rest_request"]))
          (.call "allow_rest_request" (args.map .litExpr)) =
        eval (Env.new rt pre.program) (.call "allow_rest_request" (args.map .litExpr)) := by
  have hload : ∃ pre, PreProgram.fromBuf sharing = some pre ∧
      (pre.cutTo ["allow_rest_request"]).code.entries.map Prod.fst =
        ["allow_rest_request", "check"] ∧
      BTreeMap.keys (pre.cutTo ["allow_rest_request"]).headers =
        ["allow_rest_request", "check", "db::known"] ∧
      BTreeMap.keys pre.program.code = ["allow_rest_request", "check", "unused"] ∧
      (BTreeMap.get? pre.program.headers "allow_rest_request").isSome = true :=
    ⟨_, rfl, rfl, rfl, rfl, rfl⟩
  obtain ⟨pre, hpre, hcode, hheaders, hkeys, hdef⟩ := hload
  obtain ⟨-, hrestricts, heval⟩ :=
    PreProgram.restriction_exact hpre ["allow_rest_request"]
  refine ⟨pre, hpre, hrestricts (List.cons_ne_nil _ _), hcode, hheaders, ?_⟩
  refine heval (fun f hint => ?_) _ List.mem_cons_self hdef
  by_contra hne
  obtain ⟨e, he⟩ := Option.ne_none_iff_exists'.mp hne
  have hmem : f ∈ BTreeMap.keys pre.program.code :=
    List.mem_map_of_mem ((BTreeMap.mem_entries pre.program.code f e).mpr he)
  rw [hkeys] at hmem
  -- none of the three names is internal
  simp only [List.mem_cons, List.not_mem_nil, or_false] at hmem
  rcases hmem with rfl | rfl | rfl
  · cases hint
  · cases hint
  · cases hint

/-- A function of the control plane that has the name of a built-in function. -/
def namesake : List (Decl CPFlatTyp CPFlatLiteral) :=
  [.fnDecl ⟨"allow_egress", .new [] (.flatTyp .policy), .callExpr "deny_egress" [] false⟩,
    .fnDecl ⟨"onboarding_policy", .new [] (.flatTyp .policy), .callExpr "allow_egress" [] false⟩]

/-- Without main functions nothing is cut, though nothing is reached; and a function under the
name of a built-in function is cut, though an entry point calls it. -/
theorem not_restriction_exact :
    (∃ pre, PreProgram.fromBuf sharing = some pre ∧
      (∃ e, (pre.cutTo []).code.get? "unused" = some e) ∧ ¬pre.program.Reaches [] "unused") ∧
    ∃ pre, PreProgram.fromBuf namesake = some pre ∧
      pre.program.Calls "onboarding_policy" "allow_egress" ∧
      (∃ e, pre.program.code.get? "allow_egress" = some e) ∧
      (pre.cutTo ["onboarding_policy"]).code.get? "allow_egress" = none := by
  constructor
  · refine ⟨_, rfl, ⟨_, rfl⟩, ?_⟩
    rintro ⟨m, hm, -⟩
    cases hm
  · exact ⟨_, rfl, ⟨_, rfl, List.mem_cons_self⟩, ⟨_, rfl⟩, rfl⟩

end Armour.Lang
