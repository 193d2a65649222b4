import Armour.Lang.Headers
import Armour.Lang.Expressions

/-! # Programs

`armour-lang/src/lang.rs`: code, externals and headers of a program, and the removal of
functions that its entry points do not reach.
-/

namespace Armour.Lang

open Armour.Lib

namespace Expr

variable {FL : Type}

mutual
/-- The calls of an expression: function and number of arguments. -/
def calls : Expr FL → List (String × Nat)
  | var _ | bvar _ _ | litExpr _ => []
  | returnExpr e | prefixExpr _ e | closure _ e => calls e
  | infixExpr _ e1 e2 | letExpr _ e1 e2 => calls e1 ++ calls e2
  | blockExpr _ es => callsList es
  | iter _ _ e1 e2 none => calls e1 ++ calls e2
  | iter _ _ e1 e2 (some (_, a)) => calls e1 ++ calls e2 ++ calls a
  | ifExpr c t none => calls c ++ calls t
  | ifExpr c t (some a) => calls c ++ calls t ++ calls a
  | ifMatchExpr _ ms t none => callsSubjects ms ++ calls t
  | ifMatchExpr _ ms t (some a) => callsSubjects ms ++ calls t ++ calls a
  | ifSomeMatchExpr e t none => calls e ++ calls t
  | ifSomeMatchExpr e t (some a) => calls e ++ calls t ++ calls a
  | callExpr f args _ => callsList args ++ [(f, args.length)]

def callsList : List (Expr FL) → List (String × Nat)
  | [] => []
  | e :: es => calls e ++ callsList es

def callsSubjects : List (Expr FL × Pattern) → List (String × Nat)
  | [] => []
  | (e, _) :: ms => calls e ++ callsSubjects ms
end

theorem callsList_eq (es : List (Expr FL)) : callsList es = es.flatMap calls := by
  induction es with
  | nil => rfl
  | cons e es ih => simp [callsList, ih]

theorem callsSubjects_eq (ms : List (Expr FL × Pattern)) :
    callsSubjects ms = ms.flatMap (fun m => calls m.1) := by
  induction ms with
  | nil => rfl
  | cons m ms ih => simp [callsSubjects, ih]

section

variable (op : Infix) (b : Block) (it : Iter) (vs : List String) (x f : String) (async : Bool)
variable (e e1 e2 : Expr FL) (es : List (Expr FL)) (ms : List (Expr FL × Pattern))

theorem calls_infixExpr : calls (infixExpr op e1 e2) = calls e1 ++ calls e2 := rfl
theorem calls_letExpr : calls (letExpr vs e1 e2) = calls e1 ++ calls e2 := rfl

theorem calls_blockExpr : calls (blockExpr b es) = es.flatMap calls := callsList_eq es

theorem calls_callExpr :
    calls (callExpr f es async) = es.flatMap calls ++ [(f, es.length)] :=
  congrArg (· ++ [(f, es.length)]) (callsList_eq es)

theorem calls_iter (a : Option (String × Expr FL)) :
    calls (iter it vs e1 e2 a) = calls e1 ++ calls e2 ++ a.toList.flatMap (fun p => calls p.2) := by
  rcases a with _ | ⟨x, a⟩
  · exact (List.append_nil _).symm
  · exact congrArg (calls e1 ++ calls e2 ++ ·) (List.append_nil _).symm

theorem calls_ifExpr (a : Option (Expr FL)) :
    calls (ifExpr e1 e2 a) = calls e1 ++ calls e2 ++ a.toList.flatMap calls := by
  cases a with
  | none => exact (List.append_nil _).symm
  | some a => exact congrArg (calls e1 ++ calls e2 ++ ·) (List.append_nil _).symm

theorem calls_ifSomeMatchExpr (a : Option (Expr FL)) :
    calls (ifSomeMatchExpr e1 e2 a) = calls e1 ++ calls e2 ++ a.toList.flatMap calls := by
  cases a with
  | none => exact (List.append_nil _).symm
  | some a => exact congrArg (calls e1 ++ calls e2 ++ ·) (List.append_nil _).symm

theorem calls_ifMatchExpr (a : Option (Expr FL)) :
    calls (ifMatchExpr vs ms e a) =
      ms.flatMap (fun m => calls m.1) ++ calls e ++ a.toList.flatMap calls := by
  rw [← callsSubjects_eq]
  cases a with
  | none => exact (List.append_nil _).symm
  | some a => exact congrArg (callsSubjects ms ++ calls e ++ ·) (List.append_nil _).symm

end

end Expr

/-! ## Call graph -/

/-- `CallGraph`: the node of each function, and edges between nodes.  A function that is
added twice gets a new node; edges of the old one stay with the old one. -/
structure CallGraph where
  size : Nat
  nodes : BTreeMap String Nat
  edges : List (Nat × Nat)

namespace CallGraph

/-- `CallGraph::default`. -/
def empty : CallGraph := ⟨0, ∅, []⟩

def addNode (g : CallGraph) (name : String) : CallGraph :=
  ⟨g.size + 1, g.nodes.insert name g.size, g.edges⟩

def addEdge (g : CallGraph) (a b : Nat) : CallGraph := { g with edges := (a, b) :: g.edges }

/-- One round of the search: the nodes seen and their successors. -/
def expand (g : CallGraph) (seen : List Nat) : List Nat :=
  g.edges.foldl (fun s e => if e.1 ∈ s ∧ e.2 ∉ s then e.2 :: s else s) seen

/-- `has_path_connecting`; as many rounds as there are nodes reach everything. -/
def hasPath (g : CallGraph) (a b : Nat) : Bool :=
  b ∈ (g.expand^[g.size]) [a]

/-- `unreachable`: the functions that no function of `top` reaches. -/
def unreachable (g : CallGraph) (top : List String) : List String :=
  let indices := top.filterMap (fun s => g.nodes.get? s)
  (g.nodes.entries.filter (fun p => !indices.any (fun i => g.hasPath i p.2))).map Prod.fst

theorem mem_expand {g : CallGraph} {seen : List Nat} {b : Nat} (h : b ∈ g.expand seen) :
    b ∈ seen ∨ ∃ a, (a, b) ∈ g.edges := by
  unfold expand at h
  revert h
  induction g.edges generalizing seen with
  | nil => exact Or.inl
  | cons e es ih =>
      intro h
      rw [List.foldl_cons] at h
      rcases ih h with h | ⟨a, ha⟩
      · split at h
        · rcases List.mem_cons.1 h with rfl | h
          · exact Or.inr ⟨e.1, List.mem_cons_self⟩
          · exact Or.inl h
        · exact Or.inl h
      · exact Or.inr ⟨a, List.mem_cons_of_mem _ ha⟩

/-- The end of a path is its start or the end of an edge. -/
theorem hasPath_target {g : CallGraph} {a b : Nat} (h : g.hasPath a b = true) :
    b = a ∨ ∃ c, (c, b) ∈ g.edges := by
  have hiter : ∀ n (seen : List Nat), b ∈ (g.expand^[n]) seen →
      b ∈ seen ∨ ∃ c, (c, b) ∈ g.edges := by
    intro n
    induction n with
    | zero => exact fun seen h => Or.inl h
    | succ n ih =>
        intro seen h
        rw [Function.iterate_succ_apply] at h
        exact (ih _ h).elim mem_expand Or.inr
  exact (hiter g.size [a] (of_decide_eq_true h)).imp_left List.mem_singleton.1

/-- The ends of edges that start in the list are in it. -/
def ClosedUnder (es : List (Nat × Nat)) (seen : List Nat) : Prop :=
  ∀ e ∈ es, e.1 ∈ seen → e.2 ∈ seen

/-- A round adds new nodes, which are ends of edges, or the list was closed. -/
theorem foldl_expand (es : List (Nat × Nat)) (n : Nat) (hes : ∀ e ∈ es, e.2 < n) :
    ∀ seen : List Nat, seen.Nodup → (∀ a ∈ seen, a < n) →
      let s := es.foldl (fun s e => if e.1 ∈ s ∧ e.2 ∉ s then e.2 :: s else s) seen
      s.Nodup ∧ (∀ a ∈ s, a < n) ∧ seen.length ≤ s.length ∧
        (s.length = seen.length → s = seen ∧ ClosedUnder es seen) := by
  induction es with
  | nil => exact fun seen hnd hlt => ⟨hnd, hlt, Nat.le_refl _, fun _ => ⟨rfl, nofun⟩⟩
  | cons e es ih =>
      intro seen hnd hlt
      obtain ⟨he, hes⟩ := List.forall_mem_cons.mp hes
      rw [List.foldl_cons]
      by_cases hnew : e.1 ∈ seen ∧ e.2 ∉ seen
      · rw [if_pos hnew]
        obtain ⟨h1, h2, h3, -⟩ := ih hes (e.2 :: seen) (List.nodup_cons.mpr ⟨hnew.2, hnd⟩)
          (List.forall_mem_cons.mpr ⟨he, hlt⟩)
        rw [List.length_cons] at h3
        refine ⟨h1, h2, by omega, fun hlen => ?_⟩
        omega
      · rw [if_neg hnew]
        obtain ⟨h1, h2, h3, h4⟩ := ih hes seen hnd hlt
        refine ⟨h1, h2, h3, fun hlen => ?_⟩
        obtain ⟨hs, hclosed⟩ := h4 hlen
        refine ⟨hs, List.forall_mem_cons.mpr ⟨fun hfrom => ?_, hclosed⟩⟩
        by_contra hto
        exact hnew ⟨hfrom, hto⟩

theorem expand_of_closed {g : CallGraph} {seen : List Nat} (h : ClosedUnder g.edges seen) :
    g.expand seen = seen := by
  unfold expand
  revert h
  induction g.edges with
  | nil => exact fun _ => rfl
  | cons e es ih =>
      intro h
      obtain ⟨he, hes⟩ := List.forall_mem_cons.mp h
      rw [List.foldl_cons, if_neg (fun hnew => hnew.2 (he hnew.1))]
      exact ih hes

/-- Rounds add a node each until the list is closed. -/
theorem iterate_expand {g : CallGraph} (hedges : ∀ e ∈ g.edges, e.2 < g.size) {a : Nat}
    (ha : a < g.size) (k : Nat) :
    ((g.expand^[k]) [a]).Nodup ∧ (∀ b ∈ (g.expand^[k]) [a], b < g.size) ∧
      (ClosedUnder g.edges ((g.expand^[k]) [a]) ∨ k < ((g.expand^[k]) [a]).length) := by
  induction k with
  | zero =>
      refine ⟨List.nodup_singleton a, fun b hb => ?_, Or.inr Nat.zero_lt_one⟩
      exact List.mem_singleton.mp hb ▸ ha
  | succ k ih =>
      obtain ⟨hnd, hlt, hor⟩ := ih
      rw [Function.iterate_succ_apply']
      obtain ⟨h1, h2, h3, h4⟩ := foldl_expand g.edges g.size hedges _ hnd hlt
      refine ⟨h1, h2, ?_⟩
      by_cases hlen : (g.expand ((g.expand^[k]) [a])).length = ((g.expand^[k]) [a]).length
      · obtain ⟨hsame, hclosed⟩ := h4 hlen
        exact Or.inl (by rw [expand, hsame]; exact hclosed)
      · right
        rcases hor with hclosed | hk
        · -- a closed list stays as it is
          exact absurd (congrArg List.length (expand_of_closed hclosed)) hlen
        · have hle : ((g.expand^[k]) [a]).length ≤ (g.expand ((g.expand^[k]) [a])).length := h3
          omega

/-- The search ends with all that the edges lead to. -/
theorem hasPath_step {g : CallGraph} (hedges : ∀ e ∈ g.edges, e.2 < g.size) {a b c : Nat}
    (ha : a < g.size) (hb : g.hasPath a b = true) (hbc : (b, c) ∈ g.edges) :
    g.hasPath a c = true := by
  obtain ⟨hnd, hlt, hclosed | hlen⟩ := iterate_expand hedges ha g.size
  · exact decide_eq_true (hclosed (b, c) hbc (of_decide_eq_true hb))
  · -- more different nodes than there are
    have hsub : (g.expand^[g.size]) [a] ⊆ List.range g.size :=
      fun x hx => List.mem_range.mpr (hlt x hx)
    have hle := (hnd.subperm hsub).length_le
    rw [List.length_range] at hle
    omega

/-- A function is unreachable when no path leads to its node. -/
theorem mem_unreachable {g : CallGraph} {top : List String} {f : String} {i : Nat}
    (hi : g.nodes.get? f = some i) :
    f ∈ g.unreachable top ↔
      ∀ t ∈ top, ∀ k, g.nodes.get? t = some k → g.hasPath k i = false := by
  simp only [unreachable, List.mem_map, List.mem_filter, Bool.not_eq_true', List.any_eq_false,
    Bool.not_eq_true]
  constructor
  · rintro ⟨⟨f', i'⟩, ⟨hmem, hany⟩, rfl⟩ t ht k hk
    have hget : g.nodes.get? f' = some i' := (BTreeMap.mem_entries g.nodes f' i').mp hmem
    obtain rfl := Option.some.inj (hget.symm.trans hi)
    exact hany k (List.mem_filterMap.mpr ⟨t, ht, hk⟩)
  · intro hall
    refine ⟨(f, i), ⟨(BTreeMap.mem_entries g.nodes f i).mpr hi, fun k hk => ?_⟩, rfl⟩
    obtain ⟨t, ht, hget⟩ := List.mem_filterMap.mp hk
    exact hall t ht k hget

end CallGraph

/-! ## Programs -/

/-- `std::time::Duration`. -/
structure Duration where
  secs : UInt64
  nanos : UInt32
  nanos_lt : nanos.toNat < 1000000000
deriving DecidableEq

/-- `Externals`: the sockets of the external services and the time limit of their calls. -/
structure Externals where
  sockets : BTreeMap String String
  timeout : Duration

namespace Externals

/-- `TIMEOUT`. -/
def defaultTimeout : Duration := ⟨3, 0, by decide⟩

/-- `Externals::default`. -/
def empty : Externals := ⟨∅, defaultTimeout⟩

/-- `merge`: sockets of the other ones win, the time limit is kept. -/
def merge (e other : Externals) : Externals := ⟨e.sockets.extend other.sockets, e.timeout⟩

def addExternal (e : Externals) (name addr : String) : Externals :=
  { e with sockets := e.sockets.insert name addr }

protected def beq (a b : Externals) : Bool :=
  decide (a.sockets.entries = b.sockets.entries) && a.timeout = b.timeout

end Externals

/-- `Program`. -/
structure Program (FT FL : Type) where
  code : BTreeMap String (Expr FL)
  externals : Externals
  headers : Headers FT

abbrev DPProgram := Program FlatTyp DPFlatLiteral

namespace Program

variable {FT FL : Type}

/-- `Program::default`. -/
def empty : Program FT FL := ⟨∅, .empty, ∅⟩

instance : Inhabited (Program FT FL) := ⟨empty⟩

def isEmpty (p : Program FT FL) : Bool := p.code.entries.isEmpty

/-- `cut`: drop the functions of a list. -/
def cut (p : Program FT FL) (set : List String) : Program FT FL :=
  { p with
    headers := set.foldl BTreeMap.erase p.headers
    code := set.foldl BTreeMap.erase p.code }

/-- `merge`: entries of the other program win. -/
def merge (p other : Program FT FL) : Program FT FL :=
  ⟨p.code.extend other.code, p.externals.merge other.externals,
    BTreeMap.extend p.headers other.headers⟩

end Program

/-- `PreProgram`: a program with its call graph. -/
structure PreProgram (FT FL : Type) where
  callGraph : CallGraph
  program : Program FT FL

/-- `PreProgram::program`: without the functions that `functions` do not reach. -/
def PreProgram.cutTo {FT FL : Type} (pre : PreProgram FT FL) (functions : List String) :
    Program FT FL :=
  if functions.isEmpty then pre.program
  else pre.program.cut (pre.callGraph.unreachable functions)

namespace Program

variable {FT FL : Type} [TFlatTyp FT]

variable (FT) in
/-- `aux_deadcode_elim`: an edge from the function at node `own` for each of its calls. -/
def addCalls (own : Nat) (g : CallGraph) (e : Expr FL) : CallGraph :=
  ((e.calls.map Prod.fst).filter (fun f => !Headers.isInternal FT f)).foldl
    (fun g f => match g.nodes.get? f with
      | some i => g.addEdge own i
      | none => (g.addNode f).addEdge own g.size) g

variable (FT) in
/-- The call graph that `deadcode_elim` builds; a header without code is a panic. -/
def buildGraph (code : BTreeMap String (Expr FL)) :
    List String → CallGraph → Option CallGraph
  | [], g => some g
  | name :: names, g => do
      let e ← code.get? name
      buildGraph code names (addCalls FT g.size (g.addNode name) e)

/-- `deadcode_elim`. -/
def deadcodeElim (p : Program FT FL) (mains : List String) : Option (Program FT FL) := do
  let g ← buildGraph FT p.code (BTreeMap.keys p.headers) CallGraph.empty
  some (PreProgram.cutTo ⟨g, p⟩ mains)

end Program

end Armour.Lang
