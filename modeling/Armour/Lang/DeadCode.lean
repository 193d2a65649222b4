import Armour.Lang.Reachability

/-! # Dead-code elimination

`Program::deadcode_elim` of `armour-lang/src/lang.rs` rebuilds the call graph in the order of the
names.  A call of a function that comes later gets a node of its own, which the function's own
node replaces: the edge is lost.
-/

namespace Armour.Lang

open Armour.Lib

variable {FT FL : Type} [TFlatTyp FT]

namespace CallGraph

/-- The nodes of a graph are those of the names that satisfy `known`, the edges between them are
`calls`, and all edges start at names of `visited`. -/
structure Shows (g : CallGraph) (visited : List String) (known : String → Prop)
    (calls : String → String → Prop) : Prop where
  numbered : PreProgram.Numbered g
  node : ∀ f, (g.nodes.get? f).isSome = true ↔ known f
  source : ∀ i j, Graph.Edge g.edges i j → ∃ f ∈ visited, g.nodes.get? f = some i
  target : ∀ i j, Graph.Edge g.edges i j → j < g.size
  edge : ∀ {f f' i j}, g.nodes.get? f = some i → g.nodes.get? f' = some j →
    (Graph.Edge g.edges i j ↔ calls f f')

variable {g : CallGraph} {visited : List String} {known : String → Prop}
variable {calls : String → String → Prop}

theorem get?_addNode (g : CallGraph) (n f : String) :
    (g.addNode n).nodes.get? f = if f = n then some g.size else g.nodes.get? f :=
  BTreeMap.get?_insert g.nodes n f g.size

/-- A new node has no edges, and those of an older node of the name are lost. -/
theorem Shows.addNode (h : g.Shows visited known calls) {n : String} (hn : n ∉ visited) :
    (g.addNode n).Shows visited (fun f => known f ∨ f = n)
      (fun f f' => calls f f' ∧ f ≠ n ∧ f' ≠ n) where
  numbered := h.numbered.addNode n
  node f := by
    rw [get?_addNode, ← h.node f]
    by_cases hf : f = n
    · simp [hf]
    · simp [hf]
  source i j hij := by
    obtain ⟨f, hf, hi⟩ := h.source i j hij
    refine ⟨f, hf, ?_⟩
    rw [get?_addNode, if_neg]
    · exact hi
    · rintro rfl
      exact hn hf
  target i j hij := Nat.lt_succ_of_lt (h.target i j hij)
  edge {f f' i j} hi hj := by
    rw [get?_addNode] at hi hj
    show Graph.Edge g.edges i j ↔ _
    by_cases hf : f = n
    · -- no edge starts at the new node
      rw [if_pos hf] at hi
      obtain rfl := Option.some.inj hi
      refine ⟨fun hij => ?_, fun hcall => absurd hf hcall.2.1⟩
      obtain ⟨f₀, -, hlt⟩ := h.source _ _ hij
      exact absurd (h.numbered.lt hlt) (Nat.lt_irrefl _)
    · by_cases hf' : f' = n
      · rw [if_pos hf'] at hj
        obtain rfl := Option.some.inj hj
        refine ⟨fun hij => ?_, fun hcall => absurd hf' hcall.2.2⟩
        exact absurd (h.target _ _ hij) (Nat.lt_irrefl _)
      · rw [if_neg hf] at hi
        rw [if_neg hf'] at hj
        rw [h.edge hi hj]
        exact ⟨fun hcall => ⟨hcall, hf, hf'⟩, And.left⟩

/-- An edge from a visited function. -/
theorem Shows.addEdge (h : g.Shows visited known calls) {own c : String} {i j : Nat}
    (hown : own ∈ visited) (hi : g.nodes.get? own = some i) (hj : g.nodes.get? c = some j) :
    (g.addEdge i j).Shows visited known (fun f f' => calls f f' ∨ f = own ∧ f' = c) where
  numbered := ⟨h.numbered.lt, h.numbered.inj⟩
  node := h.node
  source a b hab := by
    rcases List.mem_cons.mp hab with heq | hab
    · cases heq
      exact ⟨own, hown, hi⟩
    · exact h.source a b hab
  target a b hab := by
    rcases List.mem_cons.mp hab with heq | hab
    · cases heq
      exact h.numbered.lt hj
    · exact h.target a b hab
  edge {f f' a b} ha hb := by
    show (a, b) ∈ (i, j) :: g.edges ↔ _
    have hold : (a, b) ∈ g.edges ↔ calls f f' := h.edge ha hb
    rw [List.mem_cons, hold, Prod.mk.injEq]
    constructor
    · rintro (⟨rfl, rfl⟩ | hcall)
      · exact Or.inr ⟨h.numbered.inj ha hi, h.numbered.inj hb hj⟩
      · exact Or.inl hcall
    · rintro (hcall | ⟨rfl, rfl⟩)
      · exact Or.inr hcall
      · exact Or.inl ⟨Option.some.inj (ha.symm.trans hi), Option.some.inj (hb.symm.trans hj)⟩

/-- Only what is asked of names that have nodes matters. -/
theorem Shows.congr (h : g.Shows visited known calls) {known' : String → Prop}
    {calls' : String → String → Prop} (hknown : ∀ f, known f ↔ known' f)
    (hcalls : ∀ f f', known f → known f' → (calls f f' ↔ calls' f f')) :
    g.Shows visited known' calls' where
  numbered := h.numbered
  node f := (h.node f).trans (hknown f)
  source := h.source
  target := h.target
  edge {f f' i j} hi hj := by
    have hf : known f := (h.node f).mp (by rw [hi]; rfl)
    have hf' : known f' := (h.node f').mp (by rw [hj]; rfl)
    exact (h.edge hi hj).trans (hcalls f f' hf hf')

/-- Paths between names are chains of what the graph shows. -/
theorem Shows.path_iff (h : g.Shows visited known calls)
    (hknown : ∀ f f', calls f f' → known f) {m f : String} {k i : Nat}
    (hk : g.nodes.get? m = some k) (hi : g.nodes.get? f = some i) :
    Relation.ReflTransGen (Graph.Edge g.edges) k i ↔ Relation.ReflTransGen calls m f := by
  constructor
  · intro hpath
    induction hpath generalizing f with
    | refl => rw [h.numbered.inj hk hi]
    | @tail b c _ hbc ih =>
        -- an edge starts at a node that has a name
        obtain ⟨f', -, hb⟩ := h.source b c hbc
        exact (ih hb).tail ((h.edge hb hi).mp hbc)
  · intro hcalls
    induction hcalls generalizing i with
    | refl =>
        obtain rfl := Option.some.inj (hk.symm.trans hi)
        exact .refl
    | @tail f' f _ hcall ih =>
        obtain ⟨j, hj⟩ := Option.isSome_iff_exists.mp ((h.node f').mpr (hknown f' f hcall))
        exact (ih hj).tail ((h.edge hj hi).mpr hcall)

theorem mem_unreachable_isSome {top : List String} {f : String} (h : f ∈ g.unreachable top) :
    (g.nodes.get? f).isSome = true := by
  obtain ⟨⟨f', i⟩, hmem, rfl⟩ := List.mem_map.mp h
  have hget := (BTreeMap.mem_entries g.nodes f' i).mp (List.mem_filter.mp hmem).1
  rw [hget]
  rfl

/-- A name is unreachable when it has a node and no chain leads to it. -/
theorem Shows.mem_unreachable (h : g.Shows visited known calls)
    (hknown : ∀ f f', calls f f' → known f) {top : List String} {f : String} :
    f ∈ g.unreachable top ↔
      known f ∧ ¬∃ m ∈ top, known m ∧ Relation.ReflTransGen calls m f := by
  have hedges : ∀ e ∈ g.edges, e.2 < g.size := fun e he => h.target e.1 e.2 he
  constructor
  · intro hmem
    have hnode := mem_unreachable_isSome hmem
    obtain ⟨i, hi⟩ := Option.isSome_iff_exists.mp hnode
    refine ⟨(h.node f).mp hnode, ?_⟩
    rintro ⟨m, hm, hmk, hchain⟩
    obtain ⟨k, hk⟩ := Option.isSome_iff_exists.mp ((h.node m).mpr hmk)
    have hpath := (hasPath_iff hedges (h.numbered.lt hk)).mpr
      ((h.path_iff hknown hk hi).mpr hchain)
    rw [(CallGraph.mem_unreachable hi).mp hmem m hm k hk] at hpath
    cases hpath
  · rintro ⟨hf, hno⟩
    obtain ⟨i, hi⟩ := Option.isSome_iff_exists.mp ((h.node f).mpr hf)
    refine (CallGraph.mem_unreachable hi).mpr (fun m hm k hk => ?_)
    by_contra hpath
    rw [Bool.not_eq_false, hasPath_iff hedges (h.numbered.lt hk)] at hpath
    exact hno ⟨m, hm, (h.node m).mp (by rw [hk]; rfl), (h.path_iff hknown hk hi).mp hpath⟩

end CallGraph

/-! ## The graph that is built -/

namespace Program

/-- Calls that a function with code makes, other than those of internal names. -/
def asked (FT : Type) [TFlatTyp FT] (e : Expr FL) : List String :=
  (e.calls.map Prod.fst).filter (fun f => !Headers.isInternal FT f)

/-- The calls of one function: a callee without a node gets one. -/
theorem shows_addCalls {n : String} {visited : List String} (hn : n ∈ visited) :
    ∀ {cs : List String} {g : CallGraph} {known : String → Prop} {calls : String → String → Prop}
      {i : Nat}, g.Shows visited known calls → (∀ f ∈ visited, known f) →
      (∀ f f', calls f f' → known f ∧ known f') → g.nodes.get? n = some i →
      (cs.foldl (fun g f => match g.nodes.get? f with
          | some j => g.addEdge i j
          | none => (g.addNode f).addEdge i g.size) g).Shows visited
        (fun f => known f ∨ f ∈ cs) (fun f f' => calls f f' ∨ f = n ∧ f' ∈ cs) := by
  intro cs
  induction cs with
  | nil =>
      intro g known calls i h _ _ _
      exact h.congr (by simp) (by simp)
  | cons c cs ih =>
      intro g known calls i h hvisited hcalls hi
      rw [List.foldl_cons]
      cases hc : g.nodes.get? c with
      | some j =>
          have hknown : known c := (h.node c).mp (by rw [hc]; rfl)
          have hself := hvisited n hn
          refine (ih (h.addEdge hn hi hc) hvisited ?_ hi).congr (fun f => ?_) (fun f f' _ _ => ?_)
          · rintro f f' (hcall | ⟨rfl, rfl⟩)
            · exact hcalls f f' hcall
            · exact ⟨hself, hknown⟩
          · rw [List.mem_cons]
            constructor
            · exact Or.imp_right Or.inr
            · rintro (hf | rfl | hf)
              · exact Or.inl hf
              · exact Or.inl hknown
              · exact Or.inr hf
          · rw [List.mem_cons, or_assoc]
            tauto
      | none =>
          have hnew : ¬known c := fun hk => by
            have hsome := (h.node c).mpr hk
            rw [hc] at hsome
            cases hsome
          have hcv : c ∉ visited := fun hmem => hnew (hvisited c hmem)
          have hne : n ≠ c := fun heq => hcv (heq ▸ hn)
          have hi' : (g.addNode c).nodes.get? n = some i := by
            rw [CallGraph.get?_addNode, if_neg hne]
            exact hi
          have hc' : (g.addNode c).nodes.get? c = some g.size := by
            rw [CallGraph.get?_addNode, if_pos rfl]
          refine (ih ((h.addNode hcv).addEdge hn hi' hc') (fun f hf => Or.inl (hvisited f hf)) ?_
            hi').congr (fun f => ?_) (fun f f' _ _ => ?_)
          · rintro f f' (⟨hcall, -, -⟩ | ⟨rfl, rfl⟩)
            · exact ⟨Or.inl (hcalls f f' hcall).1, Or.inl (hcalls f f' hcall).2⟩
            · exact ⟨Or.inl (hvisited f hn), Or.inr rfl⟩
          · rw [List.mem_cons, or_assoc]
          · -- no call is recorded for a name without a node
            have hold : calls f f' ∧ f ≠ c ∧ f' ≠ c ↔ calls f f' := by
              refine ⟨And.left, fun hcall => ⟨hcall, ?_, ?_⟩⟩
              · rintro rfl
                exact hnew (hcalls f f' hcall).1
              · rintro rfl
                exact hnew (hcalls f f' hcall).2
            rw [hold, List.mem_cons, or_assoc]
            tauto

/-- Has a node in the graph: the headers, and what functions with a header call. -/
def Known (p : Program FT FL) (f : String) : Prop :=
  (BTreeMap.get? p.headers f).isSome = true ∨
    ∃ h, (BTreeMap.get? p.headers h).isSome = true ∧ p.CallsUser h f

/-- The call keeps its edge: no header of the callee comes later in the order of the names. -/
def KeepsEdge (p : Program FT FL) (f f' : String) : Prop :=
  (BTreeMap.get? p.headers f).isSome = true ∧ p.CallsUser f f' ∧
    ((BTreeMap.get? p.headers f').isSome = true → f' ≤ f)

theorem mem_asked {p : Program FT FL} {f f' : String} {e : Expr FL}
    (he : p.code.get? f = some e) : f' ∈ asked FT e ↔ p.CallsUser f f' := by
  rw [asked, List.mem_filter, Bool.not_eq_true']
  constructor
  · exact fun ⟨hmem, hint⟩ => ⟨⟨e, he, hmem⟩, hint⟩
  · rintro ⟨⟨e', he', hmem⟩, hint⟩
    cases he.symm.trans he'
    exact ⟨hmem, hint⟩

/-- What the graph shows after the functions of a list were visited. -/
def ShowsAfter (p : Program FT FL) (g : CallGraph) (visited : List String) : Prop :=
  g.Shows visited (fun f => f ∈ visited ∨ ∃ h ∈ visited, p.CallsUser h f)
    (fun f f' => f ∈ visited ∧ p.CallsUser f f' ∧ (f' ∈ visited → f' ≤ f))

/-- The visit of the next function in the order of the names. -/
theorem ShowsAfter.visit {p : Program FT FL} {g : CallGraph} {visited : List String}
    (h : p.ShowsAfter g visited) {n : String} (hlast : ∀ f ∈ visited, f < n) {e : Expr FL}
    (he : p.code.get? n = some e) :
    p.ShowsAfter (addCalls FT g.size (g.addNode n) e) (visited ++ [n]) := by
  have hn : n ∉ visited := fun hmem => lt_irrefl n (hlast n hmem)
  have hadd := CallGraph.Shows.addNode h hn
  have hvis : (g.addNode n).Shows (visited ++ [n]) _ _ :=
    { hadd with
      source := fun i j hij => by
        obtain ⟨f, hf, hi⟩ := hadd.source i j hij
        exact ⟨f, List.mem_append_left _ hf, hi⟩ }
  have hself : (g.addNode n).nodes.get? n = some g.size := by
    rw [CallGraph.get?_addNode, if_pos rfl]
  have hmem : ∀ f, f ∈ visited ++ [n] ↔ f ∈ visited ∨ f = n := by simp
  refine (@shows_addCalls n _ ((hmem n).mpr (Or.inr rfl)) (asked FT e) _ _ _ _ hvis
    (fun f hf => ?_) (fun f f' hcall => ?_) hself).congr (fun f => ?_) (fun f f' _ _ => ?_)
  · exact ((hmem f).mp hf).imp_left Or.inl
  · obtain ⟨⟨hf, hcall, -⟩, -, -⟩ := hcall
    exact ⟨Or.inl (Or.inl hf), Or.inl (Or.inr ⟨f, hf, hcall⟩)⟩
  · rw [mem_asked he]
    constructor
    · rintro (((hf | ⟨h, hh, hcall⟩) | rfl) | hcall)
      · exact Or.inl ((hmem f).mpr (Or.inl hf))
      · exact Or.inr ⟨h, (hmem h).mpr (Or.inl hh), hcall⟩
      · exact Or.inl ((hmem f).mpr (Or.inr rfl))
      · exact Or.inr ⟨n, (hmem n).mpr (Or.inr rfl), hcall⟩
    · rintro (hf | ⟨h, hh, hcall⟩)
      · exact Or.inl (((hmem f).mp hf).imp_left Or.inl)
      · rcases (hmem h).mp hh with hh | rfl
        · exact Or.inl (Or.inl (Or.inr ⟨h, hh, hcall⟩))
        · exact Or.inr hcall
  · rw [mem_asked he]
    constructor
    · rintro (⟨⟨hf, hcall, hle⟩, -, hne⟩ | ⟨rfl, hcall⟩)
      · refine ⟨(hmem f).mpr (Or.inl hf), hcall, fun hf' => ?_⟩
        exact hle (((hmem f').mp hf').resolve_right hne)
      · refine ⟨(hmem f).mpr (Or.inr rfl), hcall, fun hf' => ?_⟩
        rcases (hmem f').mp hf' with hf' | rfl
        · exact le_of_lt (hlast f' hf')
        · exact le_refl f'
    · rintro ⟨hf, hcall, hle⟩
      rcases (hmem f).mp hf with hold | rfl
      · refine Or.inl ⟨⟨hold, hcall, fun hf' => hle ((hmem f').mpr (Or.inl hf'))⟩, ?_, ?_⟩
        · exact ne_of_lt (hlast f hold)
        · -- a call of the function that is visited now had the node that is replaced
          intro hnow
          exact absurd (hle ((hmem f').mpr (Or.inr hnow))) (not_le_of_gt (hnow ▸ hlast f hold))
      · exact Or.inr ⟨rfl, hcall⟩

/-- The graph after all of them. -/
theorem ShowsAfter.buildGraph {p : Program FT FL} {names : List String} :
    ∀ {visited : List String} {g g' : CallGraph}, p.ShowsAfter g visited →
      (visited ++ names).Pairwise (· < ·) → buildGraph FT p.code names g = some g' →
      p.ShowsAfter g' (visited ++ names) := by
  induction names with
  | nil =>
      intro visited g g' h _ hbuild
      cases hbuild
      rw [List.append_nil]
      exact h
  | cons n ns ih =>
      intro visited g g' h hsorted hbuild
      simp only [Program.buildGraph, Option.bind_eq_bind, Option.bind_eq_some_iff] at hbuild
      obtain ⟨e, he, hbuild⟩ := hbuild
      have hlast : ∀ f ∈ visited, f < n :=
        fun f hf => (List.pairwise_append.mp hsorted).2.2 f hf n List.mem_cons_self
      have hassoc : visited ++ n :: ns = (visited ++ [n]) ++ ns := by simp
      rw [hassoc] at hsorted ⊢
      exact ih (h.visit hlast he) hsorted hbuild

theorem mem_keys {ν : Type} {m : BTreeMap String ν} {f : String} :
    f ∈ m.keys ↔ (m.get? f).isSome = true := by
  rw [Option.isSome_iff_exists]
  constructor
  · intro hmem
    obtain ⟨⟨f', v⟩, hp, rfl⟩ := List.mem_map.mp hmem
    exact ⟨v, (BTreeMap.mem_entries m f' v).mp hp⟩
  · rintro ⟨v, hv⟩
    exact List.mem_map.mpr ⟨(f, v), (BTreeMap.mem_entries m f v).mpr hv, rfl⟩

/-- The graph of the whole program. -/
theorem shows_buildGraph {p : Program FT FL} {g : CallGraph}
    (h : buildGraph FT p.code (BTreeMap.keys p.headers) .empty = some g) :
    g.Shows (BTreeMap.keys p.headers) p.Known p.KeepsEdge := by
  have hempty : p.ShowsAfter .empty [] :=
    ⟨PreProgram.Numbered.empty, fun f => ⟨nofun, by simp⟩, nofun, nofun, nofun⟩
  have hsorted : ([] ++ BTreeMap.keys p.headers).Pairwise (· < ·) :=
    List.pairwise_map.mpr p.headers.sorted
  refine (hempty.buildGraph hsorted h).congr (fun f => ?_) (fun f f' _ _ => ?_)
  · simp only [List.nil_append, Known, mem_keys]
  · simp only [List.nil_append, KeepsEdge, mem_keys]

/-- It is built when every header has code. -/
theorem buildGraph_isSome (code : BTreeMap String (Expr FL)) (names : List String) :
    ∀ g, (buildGraph FT code names g).isSome = true ↔
      ∀ f ∈ names, (code.get? f).isSome = true := by
  induction names with
  | nil => exact fun g => ⟨fun _ => nofun, fun _ => rfl⟩
  | cons n ns ih =>
      intro g
      rw [List.forall_mem_cons]
      cases hn : code.get? n with
      | none => simp [Program.buildGraph, hn]
      | some e =>
          simp only [Program.buildGraph, hn, Option.bind_eq_bind, Option.bind_some, ih]
          simp

/-! ## What is eliminated -/

/-- Reached from the entry functions through calls of any name. -/
def Reached (p : Program FT FL) (mains : List String) (f : String) : Prop :=
  ∃ m ∈ mains, Relation.ReflTransGen p.Calls m f

/-- The names are in an order in which no edge is lost that the entry functions need. -/
structure Orderly (p : Program FT FL) (mains : List String) : Prop where
  coded : ∀ f, (BTreeMap.get? p.headers f).isSome = true → (p.code.get? f).isSome = true
  nonempty : mains = [] → ∀ f, p.code.get? f = none
  unlisted : ∀ f, (p.code.get? f).isSome = true → ¬p.Known f → p.Reached mains f
  ordered : ∀ f, (p.code.get? f).isSome = true → p.Known f → p.Reached mains f →
    ∃ m ∈ mains, p.Known m ∧ Relation.ReflTransGen p.KeepsEdge m f

theorem KeepsEdge.calls {p : Program FT FL} {f f' : String} (h : p.KeepsEdge f f') :
    p.Calls f f' := h.2.1.1

/-- Without entry functions nothing is eliminated, otherwise what has a node that they do not
reach in the graph. -/
theorem deadcodeElim_eq_some {p q : Program FT FL} {mains : List String}
    (h : p.deadcodeElim mains = some q) : ∃ set : List String,
      q = p.cut set ∧ ∀ f, f ∈ set ↔ mains ≠ [] ∧ p.Known f ∧
        ¬∃ m ∈ mains, p.Known m ∧ Relation.ReflTransGen p.KeepsEdge m f := by
  simp only [deadcodeElim, Option.bind_eq_bind, Option.bind_eq_some_iff] at h
  obtain ⟨g, hg, h⟩ := h
  obtain rfl := Option.some.inj h
  have hshows := shows_buildGraph hg
  by_cases hnil : mains = []
  · refine ⟨[], ?_, ?_⟩
    · rw [hnil]
      rfl
    · simp [hnil]
  · refine ⟨g.unreachable mains, if_neg (fun hempty => hnil (List.isEmpty_iff.mp hempty)), ?_⟩
    intro f
    rw [hshows.mem_unreachable (fun f f' hcall => Or.inl hcall.1)]
    simp [hnil]

omit [TFlatTyp FT] in
theorem cut_code (p : Program FT FL) (set : List String) (f : String) :
    (p.cut set).code.get? f = if f ∈ set then none else p.code.get? f :=
  BTreeMap.get?_foldl_erase p.code set f

omit [TFlatTyp FT] in
theorem cut_headers (p : Program FT FL) (set : List String) (f : String) :
    BTreeMap.get? (p.cut set).headers f =
      if f ∈ set then none else BTreeMap.get? p.headers f :=
  BTreeMap.get?_foldl_erase p.headers set f

section

variable [TFlatLiteral FT FL] [TInterpret FL]

/-- The elimination does not panic, keeps exactly what the entry functions reach, with its
headers, and evaluation does not see it. -/
def DeadcodeExact (p : Program FT FL) (mains : List String) : Prop :=
  ∃ q, p.deadcodeElim mains = some q ∧
    (∀ f e, q.code.get? f = some e ↔ p.code.get? f = some e ∧ p.Reached mains f) ∧
    (∀ f sig, BTreeMap.get? q.headers f = some sig ↔
      BTreeMap.get? p.headers f = some sig ∧ p.Reached mains f) ∧
    ∀ m ∈ mains, ∀ (rt : Runtime FL) (args : List (Literal FL)),
      eval (Env.new rt q) (.call m (args.map .litExpr)) =
        eval (Env.new rt p) (.call m (args.map .litExpr))

omit [TFlatLiteral FT FL] [TInterpret FL] in
theorem sameCalls_of_reached {p q : Program FT FL} {mains : List String}
    (hcode : ∀ f e, q.code.get? f = some e ↔ p.code.get? f = some e ∧ p.Reached mains f)
    (hext : q.externals = p.externals) (rt : Runtime FL) :
    SameCalls FT (p.Reached mains) (Env.new rt p) (Env.new rt q) where
  runtime := rfl
  get f hf := by
    show q.code.get? f = p.code.get? f
    cases hget : p.code.get? f with
    | some e => exact (hcode f e).mpr ⟨hget, hf⟩
    | none =>
        by_contra hne
        obtain ⟨e, he⟩ := Option.ne_none_iff_exists'.mp hne
        rw [((hcode f e).mp he).1] at hget
        cases hget
  socket f external _ _ _ := by
    show q.externals.sockets.get? external = p.externals.sockets.get? external
    rw [hext]
  body f e hf hget c hc := by
    obtain ⟨m, hm, hcalls⟩ := hf
    exact ⟨m, hm, hcalls.tail ⟨e, hget, List.mem_map_of_mem hc⟩⟩

/-- Dead-code elimination is exact for programs whose names are in an order that loses no edge,
and for no others. -/
theorem deadcodeExact_iff (p : Program FT FL) (mains : List String) :
    p.DeadcodeExact mains ↔ p.Orderly mains := by
  constructor
  · rintro ⟨q, helim, hcode, -, -⟩
    obtain ⟨set, rfl, hset⟩ := deadcodeElim_eq_some helim
    have hkept : ∀ f, (p.code.get? f).isSome = true → (f ∉ set ↔ p.Reached mains f) := by
      intro f hf
      obtain ⟨e, he⟩ := Option.isSome_iff_exists.mp hf
      have hiff := hcode f e
      rw [cut_code, he] at hiff
      by_cases hmem : f ∈ set
      · simpa [hmem] using hiff
      · simpa [hmem] using hiff
    constructor
    · intro f hf
      simp only [deadcodeElim, Option.bind_eq_bind, Option.bind_eq_some_iff] at helim
      obtain ⟨g, hg, -⟩ := helim
      exact (buildGraph_isSome p.code _ _).mp (by rw [hg]; rfl) f (mem_keys.mpr hf)
    · intro hnil f
      by_contra hne
      have hf : (p.code.get? f).isSome = true := Option.isSome_iff_ne_none.mpr hne
      obtain ⟨m, hm, -⟩ := (hkept f hf).mp (fun hmem => ((hset f).mp hmem).1 hnil)
      rw [hnil] at hm
      cases hm
    · exact fun f hf hun => (hkept f hf).mp (fun hmem => hun ((hset f).mp hmem).2.1)
    · intro f hf hknown hreach
      by_contra hno
      obtain ⟨m, hm, -⟩ := id hreach
      exact (hkept f hf).mpr hreach ((hset f).mpr ⟨List.ne_nil_of_mem hm, hknown, hno⟩)
  · intro h
    have hbuilt := (@buildGraph_isSome FT _ _ p.code (BTreeMap.keys p.headers) .empty).mpr
      (fun f hf => h.coded f (mem_keys.mp hf))
    obtain ⟨g, hg⟩ := Option.isSome_iff_exists.mp hbuilt
    have helim : p.deadcodeElim mains = some (PreProgram.cutTo ⟨g, p⟩ mains) := by
      rw [deadcodeElim, hg]
      rfl
    obtain ⟨set, hq, hset⟩ := deadcodeElim_eq_some helim
    rw [hq] at helim
    -- what has code is eliminated when it is not reached
    have hkept : ∀ f, (p.code.get? f).isSome = true → (f ∈ set ↔ ¬p.Reached mains f) := by
      intro f hf
      rw [hset]
      constructor
      · rintro ⟨-, hknown, hno⟩ hreach
        exact hno (h.ordered f hf hknown hreach)
      · intro hno
        refine ⟨fun hnil => ?_, ?_, ?_⟩
        · rw [h.nonempty hnil f] at hf
          cases hf
        · by_contra hun
          exact hno (h.unlisted f hf hun)
        · rintro ⟨m, hm, -, hchain⟩
          have hsub : p.KeepsEdge ≤ p.Calls := fun _ _ hcall => hcall.calls
          exact hno ⟨m, hm, Relation.ReflTransGen.mono hsub _ _ hchain⟩
    have hcode : ∀ f e, (p.cut set).code.get? f = some e ↔
        p.code.get? f = some e ∧ p.Reached mains f := by
      intro f e
      rw [cut_code]
      by_cases he : p.code.get? f = some e
      · have hf := hkept f (by rw [he]; rfl)
        by_cases hreach : p.Reached mains f
        · simp [he, hreach, hf]
        · simp [hreach, hf]
      · simp [he]
    refine ⟨_, helim, hcode, ?_, ?_⟩
    · intro f sig
      rw [cut_headers]
      by_cases hsig : BTreeMap.get? p.headers f = some sig
      · have hf := hkept f (h.coded f (by rw [hsig]; rfl))
        by_cases hreach : p.Reached mains f
        · simp [hsig, hreach, hf]
        · simp [hreach, hf]
      · simp [hsig]
    · intro m hm rt args
      refine (sameCalls_of_reached hcode rfl rt).eval (Expr.CallsIn.call_iff.mpr ?_)
      exact ⟨callsIn_lits args, m, hm, .refl⟩

end

end Program

/-! ## Programs -/

/-- An entry point whose helper comes later in the order of the names. -/
def helped : List (Decl FlatTyp DPFlatLiteral) :=
  [.fnDecl ⟨"allow_rest_request", .new [] (.flatTyp .bool), .callExpr "check" [] false⟩,
    .fnDecl ⟨"check", .new [] (.flatTyp .bool), .litExpr (.bool true)⟩]

/-- The helper is eliminated, though the entry point calls it; and a program that calls an
external is a panic. -/
theorem not_deadcodeExact :
    (∃ pre q, PreProgram.fromBuf helped = some pre ∧
      pre.program.Calls "allow_rest_request" "check" ∧
      pre.program.deadcodeElim ["allow_rest_request"] = some q ∧
      (pre.program.code.get? "check").isSome = true ∧ q.code.get? "check" = none) ∧
    ∃ pre, PreProgram.fromBuf sharing = some pre ∧
      pre.program.deadcodeElim ["allow_rest_request"] = none :=
  ⟨⟨_, _, rfl, ⟨_, rfl, List.mem_cons_self⟩, rfl, rfl, rfl⟩, _, rfl, rfl⟩

end Armour.Lang
