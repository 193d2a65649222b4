import Armour.Lang.Correspondence
import Armour.Control.Tables

/-! # What a converted program does

The control plane specializes the code of its policies and sends it to the proxies as code of the
data plane.  Where the conversion succeeds and the code calls no built-in that only the control
plane has, evaluation on the proxy is what evaluation on the control plane would be: the same
outcome or error, the same calls of the services and the same metadata.
-/

namespace Armour.Lang

open Armour.Lib

/-! ## Equality and sets of literals -/

theorem Literal.beqs_ofDP {as : List DPLiteral}
    (h : ∀ a ∈ as, ∀ b : DPLiteral, (Literal.ofDP a : CPLiteral).beq (.ofDP b) = a.beq b)
    (bs : List DPLiteral) : Literal.beqs (as.map (Literal.ofDP : DPLiteral → CPLiteral))
      (bs.map .ofDP) = Literal.beqs as bs := by
  induction as generalizing bs with
  | nil => cases bs <;> rfl
  | cons a as ih =>
      cases bs with
      | nil => rfl
      | cons b bs =>
          rw [List.map_cons, List.map_cons, Literal.beqs, Literal.beqs, h a List.mem_cons_self,
            ih (fun a ha => h a (List.mem_cons_of_mem _ ha))]

theorem Literal.beq_ofDP (a b : DPLiteral) :
    (Literal.ofDP a : CPLiteral).beq (.ofDP b) = a.beq b := by
  induction a using Literal.ind generalizing b with
  | flat d => cases b <;> rfl
  | list as ih =>
      cases b with
      | list bs =>
          rw [Literal.ofDP_list, Literal.ofDP_list, Literal.beq, Literal.beq]
          exact Literal.beqs_ofDP (fun a ha b => ih a ha b) bs
      | _ => rfl
  | tuple as ih =>
      cases b with
      | tuple bs =>
          rw [Literal.ofDP_tuple, Literal.ofDP_tuple, Literal.beq, Literal.beq]
          exact Literal.beqs_ofDP (fun a ha b => ih a ha b) bs
      | _ => rfl

/-- Membership by the equality of literals. -/
theorem any_ofDP (a : DPLiteral) (bs : List DPLiteral) :
    (bs.map (Literal.ofDP : DPLiteral → CPLiteral)).any (fun b => .ofDP a == b) =
      bs.any (fun b => a == b) := by
  rw [List.any_map]
  congr 1
  funext b
  exact Literal.beq_ofDP a b

theorem filter_ofDP {p : CPLiteral → Bool} {q : DPLiteral → Bool} (h : ∀ a, p (.ofDP a) = q a)
    (as : List DPLiteral) : (as.map (Literal.ofDP : DPLiteral → CPLiteral)).filter p =
      (as.filter q).map .ofDP := by
  rw [List.filter_map]
  congr 1
  exact List.filter_congr (fun a _ => h a)

theorem isSubset_ofDP (as bs : List DPLiteral) :
    VecSet.isSubset (as.map (Literal.ofDP : DPLiteral → CPLiteral)) (bs.map .ofDP) =
      VecSet.isSubset as bs := by
  unfold VecSet.isSubset
  rw [List.all_map]
  congr 1
  funext a
  exact any_ofDP a bs

theorem isDisjoint_ofDP (as bs : List DPLiteral) :
    VecSet.isDisjoint (as.map (Literal.ofDP : DPLiteral → CPLiteral)) (bs.map .ofDP) =
      VecSet.isDisjoint as bs := by
  unfold VecSet.isDisjoint
  rw [List.any_map]
  congr 2
  funext a
  exact any_ofDP a bs

theorem difference_ofDP (as bs : List DPLiteral) :
    VecSet.difference (as.map (Literal.ofDP : DPLiteral → CPLiteral)) (bs.map .ofDP) =
      (VecSet.difference as bs).map .ofDP :=
  filter_ofDP (fun a => congrArg (!·) (any_ofDP a bs)) as

theorem intersection_ofDP (as bs : List DPLiteral) :
    VecSet.intersection (as.map (Literal.ofDP : DPLiteral → CPLiteral)) (bs.map .ofDP) =
      (VecSet.intersection as bs).map .ofDP :=
  filter_ofDP (fun a => any_ofDP a bs) as

/-! ## Operators -/

theorem evalPrefix_ofDP (pf : Platform) (p : Prefix) (l : DPLiteral) :
    (Literal.ofDP l : CPLiteral).evalPrefix pf p =
      (l.evalPrefix pf p).map (Option.map .ofDP) := by cases l <;> rfl

theorem contains_ofDP (l : DPLiteral) (ls : List DPLiteral) :
    VecSet.contains (ls.map (Literal.ofDP : DPLiteral → CPLiteral)) (.ofDP l) =
      VecSet.contains ls l := any_ofDP l ls

theorem evalInfix_ofDP (pf : Platform) (op : Infix) (l1 l2 : DPLiteral) :
    (Literal.ofDP l1 : CPLiteral).evalInfix pf op (.ofDP l2) =
      (l1.evalInfix pf op l2).map (Option.map .ofDP) := by
  have hin : ∀ (l : DPLiteral) (ls : List DPLiteral),
      (Except.ok (some (.bool (VecSet.contains (ls.map (Literal.ofDP : DPLiteral → CPLiteral))
          (.ofDP l)))) : Checked (Option CPLiteral)) =
        (Except.ok (some (.bool (VecSet.contains ls l))) : Checked (Option DPLiteral)).map
          (Option.map .ofDP) := by
    intro l ls
    rw [contains_ofDP]
    rfl
  cases l1 with
  | flat a =>
      cases l2 with
      | flat b => cases op <;> rfl
      | list bs =>
          rw [Literal.ofDP_list]
          cases op with
          | isIn => exact hin (.flat a) bs
          | _ => rfl
      | tuple bs => cases op <;> rfl
  | list as =>
      cases l2 with
      | flat b => cases op <;> rfl
      | list bs =>
          rw [Literal.ofDP_list bs]
          cases op with
          | concat =>
              have happend : (Literal.ofDP (.list (as ++ bs)) : CPLiteral) =
                  .list (as.map .ofDP ++ bs.map .ofDP) := by
                rw [Literal.ofDP_list, List.map_append]
              rw [Literal.ofDP_list as]
              exact congrArg (fun l => Except.ok (some l)) happend.symm
          | isIn => exact hin (.list as) bs
          | _ => rfl
      | tuple bs => cases op <;> rfl
  | tuple as =>
      cases l2 with
      | list bs =>
          rw [Literal.ofDP_list bs]
          cases op with
          | isIn => exact hin (.tuple as) bs
          | _ => rfl
      | _ => cases op <;> rfl

theorem extends_controlPlane : Extends CPFlatLiteral where
  evalPrefix := evalPrefix_ofDP
  evalInfix := evalInfix_ofDP

/-! ## Built-in functions on literals -/

section

variable {FT FL : Type} [TFlatTyp FT] [TFlatLiteral FT FL] [TInterpret FL] {pf : Platform}
variable {f : String}

theorem evalCall1_list_none {ls : List (Literal FL)} (hlen : f ≠ "list::len")
    (hreduce : f ≠ "list::reduce") : (Literal.list ls).evalCall1 pf f = .ok none := by
  unfold Literal.evalCall1
  split <;> simp_all

theorem evalCall1_tuple_index {ls : List (Literal FL)} (hnone : f ≠ "option::is_none")
    (hsome : f ≠ "option::is_some") :
    (Literal.tuple ls).evalCall1 pf f = .ok ((Text.parseUsize f).bind (fun i => ls[i]?)) := by
  unfold Literal.evalCall1
  split <;> simp_all

theorem evalCall2_list_none {as bs : List (Literal FL)} (hsubset : f ≠ "list::is_subset")
    (hdisjoint : f ≠ "list::is_disjoint") (hdifference : f ≠ "list::difference")
    (hintersection : f ≠ "list::intersection") :
    (Literal.list as).evalCall2 pf f (.list bs) = .ok none := by
  unfold Literal.evalCall2
  split <;> simp_all

theorem evalCall2_list_mixed {as : List (Literal FL)} {l : Literal FL}
    (h : ∀ bs, l ≠ .list bs) : (Literal.list as).evalCall2 pf f l = .ok none := by
  unfold Literal.evalCall2
  split <;> simp_all

end

variable {pf : Platform} {f : String}

theorem evalReduce_ofDP (ls : List DPLiteral) :
    (Literal.list (ls.map (Literal.ofDP : DPLiteral → CPLiteral))).evalCall1 pf "list::reduce" =
      ((Literal.list ls).evalCall1 pf "list::reduce").map (Option.map .ofDP) := by
  cases ls with
  | nil => rfl
  | cons l ls =>
      have hall : (((l :: ls).map (Literal.ofDP : DPLiteral → CPLiteral)).all
          (fun w => .ofDP l == w)) = (l :: ls).all (fun w => l == w) := by
        rw [List.all_map]
        congr 1
        funext w
        exact Literal.beq_ofDP l w
      show Except.ok (some (if ((l :: ls).map (Literal.ofDP : DPLiteral → CPLiteral)).all
          (fun w => .ofDP l == w) then Literal.some (.ofDP l) else Literal.none)) =
        (Except.ok (some (if (l :: ls).all (fun w => l == w) then Literal.some l
          else Literal.none)) : Checked (Option DPLiteral)).map (Option.map Literal.ofDP)
      rw [hall]
      split <;> rfl

theorem evalCall1_ofDP (hf : f ∉ cpLiteralNames) (l : DPLiteral) :
    (Literal.ofDP l : CPLiteral).evalCall1 pf f = (l.evalCall1 pf f).map (Option.map .ofDP) := by
  cases l with
  | flat d => exact cp_evalCall1 hf
  | list ls =>
      rw [Literal.ofDP_list]
      by_cases hlen : f = "list::len"
      · subst hlen
        show Except.ok (some (Literal.int (Int64.ofNat (ls.map Literal.ofDP).length))) = _
        rw [List.length_map]
        rfl
      · by_cases hreduce : f = "list::reduce"
        · subst hreduce
          exact evalReduce_ofDP ls
        · rw [evalCall1_list_none hlen hreduce, evalCall1_list_none hlen hreduce]
          rfl
  | tuple ls =>
      rw [Literal.ofDP_tuple]
      by_cases hnone : f = "option::is_none"
      · subst hnone
        cases ls <;> rfl
      · by_cases hsome : f = "option::is_some"
        · subst hsome
          show Except.ok (some (Literal.bool ((ls.map Literal.ofDP).length = 1))) = _
          rw [List.length_map]
          rfl
        · rw [evalCall1_tuple_index hnone hsome, evalCall1_tuple_index hnone hsome]
          refine congrArg Except.ok ?_
          cases Text.parseUsize f with
          | none => rfl
          | some i => exact List.getElem?_map

theorem evalCall2_ofDP (hf : f ∉ cpLiteralNames) (l1 l2 : DPLiteral) :
    (Literal.ofDP l1 : CPLiteral).evalCall2 pf f (.ofDP l2) =
      (l1.evalCall2 pf f l2).map (Option.map .ofDP) := by
  cases l1 with
  | flat a =>
      cases l2 with
      | flat b => exact cp_evalCall2 hf
      | _ => rfl
  | list as =>
      cases l2 with
      | list bs =>
          have hbool : ∀ {b c : Bool}, b = c → (Except.ok (some (.bool b)) :
              Checked (Option CPLiteral)) = (Except.ok (some (.bool c)) :
                Checked (Option DPLiteral)).map (Option.map .ofDP) := by
            rintro b _ rfl
            rfl
          have hlist : ∀ {ls : List DPLiteral} {ls' : List CPLiteral}, ls' = ls.map .ofDP →
              (Except.ok (some (.list ls')) : Checked (Option CPLiteral)) =
                (Except.ok (some (.list ls)) : Checked (Option DPLiteral)).map
                  (Option.map .ofDP) := by
            rintro ls _ rfl
            exact congrArg (fun l => Except.ok (some l)) (Literal.ofDP_list ls).symm
          rw [Literal.ofDP_list, Literal.ofDP_list]
          by_cases hsubset : f = "list::is_subset"
          · subst hsubset
            exact hbool (isSubset_ofDP as bs)
          by_cases hdisjoint : f = "list::is_disjoint"
          · subst hdisjoint
            exact hbool (isDisjoint_ofDP as bs)
          by_cases hdifference : f = "list::difference"
          · subst hdifference
            exact hlist (difference_ofDP as bs)
          by_cases hintersection : f = "list::intersection"
          · subst hintersection
            exact hlist (intersection_ofDP as bs)
          rw [evalCall2_list_none hsubset hdisjoint hdifference hintersection,
            evalCall2_list_none hsubset hdisjoint hdifference hintersection]
          rfl
      | flat b =>
          rw [evalCall2_list_mixed (by simp)]
          exact evalCall2_list_mixed (by simp [Literal.ofDP, Literal.dp])
      | tuple bs =>
          rw [evalCall2_list_mixed (by simp)]
          exact evalCall2_list_mixed (by simp [Literal.ofDP])
  | tuple as => cases l2 <;> rfl

theorem evalCall3_ofDP (l1 l2 l3 : DPLiteral) :
    (Literal.ofDP l1 : CPLiteral).evalCall3 f (.ofDP l2) (.ofDP l3) =
      (l1.evalCall3 f l2 l3).map .ofDP := by
  cases l1 with
  | flat a =>
      cases l2 with
      | flat b =>
          cases l3 with
          | flat c =>
              show CPFlatLiteral.evalCall3 (.dp a) f (.dp b) (.dp c) =
                (a.evalCall3 f b c).map Literal.ofDP
              unfold CPFlatLiteral.evalCall3
              split <;> simp_all
          | _ => rfl
      | _ => rfl
  | _ => rfl

theorem evalCall4_ofDP (l1 l2 l3 l4 : DPLiteral) :
    (Literal.ofDP l1 : CPLiteral).evalCall4 f (.ofDP l2) (.ofDP l3) (.ofDP l4) =
      (l1.evalCall4 f l2 l3 l4).map .ofDP := by
  cases l1 with
  | flat a =>
      cases l2 with
      | flat b =>
          cases l3 with
          | flat c =>
              cases l4 with
              | flat d =>
                  show CPFlatLiteral.evalCall4 (.dp a) f (.dp b) (.dp c) (.dp d) =
                    (a.evalCall4 f b c d).map Literal.ofDP
                  unfold CPFlatLiteral.evalCall4
                  split
                  · simp_all
                  · simp_all
                  · rename_i hno _
                    exact (hno a b c d rfl rfl rfl rfl).elim
              | _ => rfl
          | _ => rfl
      | _ => rfl
  | _ => rfl

theorem embeds_evalBuiltin (hf : f ∉ cpLiteralNames) (args : List DPLiteral) :
    Embeds Literal.ofDP (evalBuiltin pf f args)
      (evalBuiltin pf f (args.map (Literal.ofDP : DPLiteral → CPLiteral))) := by
  rcases args with _ | ⟨a, _ | ⟨b, _ | ⟨c, _ | ⟨d, _ | ⟨e, ds⟩⟩⟩⟩⟩
  · exact embeds_lift rfl rfl
  · exact embeds_lift rfl (evalCall1_ofDP hf a)
  · exact embeds_lift rfl (evalCall2_ofDP hf a b)
  · exact embeds_lift rfl (congrArg Except.ok (evalCall3_ofDP a b c))
  · exact embeds_lift rfl (congrArg Except.ok (evalCall4_ofDP a b c d))
  · exact .throw _

end Armour.Lang

namespace Armour.Control

open Armour.Lib Armour.Lang

/-! ## Names that both planes know -/

/-- The name is a function of the program or no built-in of the control plane alone. -/
def Shared (p : CPProgram) (f : String) : Prop :=
  (p.code.get? f).isSome = true ∨ CPFlatTyp.builtinsTable.lookup f = none

instance (p : CPProgram) : DecidablePred (Shared p) :=
  fun _ => inferInstanceAs (Decidable (_ ∨ _))

theorem lookup_map_snd {κ ν μ : Type} [BEq κ] (g : ν → μ) (k : κ) (l : List (κ × ν)) :
    (l.map (fun p => (p.1, g p.2))).lookup k = (l.lookup k).map g := by
  induction l with
  | nil => rfl
  | cons p l ih =>
      rw [List.map_cons, List.lookup_cons, List.lookup_cons, ih]
      cases k == p.1 <;> rfl

theorem isBuiltin_shared {f : String} (hf : CPFlatTyp.builtinsTable.lookup f = none) :
    Headers.isBuiltin CPFlatTyp f = Headers.isBuiltin FlatTyp f := by
  have hbuiltins : (Typ.builtins f : Option CPSignature) =
      (Typ.builtins f : Option DPSignature).map (Signature.map .dp) := by
    show (List.lookup f (Typ.builtinsTable : List (String × CPSignature))).or
        ((CPFlatTyp.builtinsTable.lookup f).or
          ((FlatTyp.builtinsTable.lookup f).map (Signature.map .dp))) =
      ((List.lookup f Typ.builtinsTable).or (FlatTyp.builtinsTable.lookup f)).map _
    rw [hf, sharedTable_map, lookup_map_snd, Option.none_or]
    cases List.lookup f (Typ.builtinsTable : List (String × DPSignature)) <;> rfl
  rw [Headers.isBuiltin, Headers.isBuiltin, hbuiltins, Option.isSome_map]

theorem own_not_index : ∀ f ∈ cpLiteralNames ++ stateNames, Text.parseUsize f = none := by
  decide

/-- What the control plane dispatches itself is no built-in of the data plane. -/
theorem not_mem_own {f : String} (hf : Headers.isBuiltin FlatTyp f = true) :
    f ∉ cpLiteralNames ∧ f ∉ stateNames := by
  rcases Bool.or_eq_true_iff.mp hf with h | h
  · obtain ⟨s, hs⟩ := Option.isSome_iff_exists.mp h
    rcases mem_of_builtins hs with hmem | hown
    · exact sharedTable_names (f, s) hmem
    · exact builtinsTable_names (f, s) (mem_of_lookup_eq hown)
  · rw [← not_or, ← List.mem_append]
    intro hmem
    rw [own_not_index f hmem] at h
    cases h

/-! ## Calls -/

section

variable {st : State} {compile : Compiler} {pf : Platform} {p : CPProgram} {d : DPProgram}
variable {rpcC : List CPEffect → String → CPEffect → Except String CPLiteral}
variable {rpcD : List (Effect DPFlatLiteral) → String → Effect DPFlatLiteral →
  Except String DPLiteral}

/-- The interpreter of a proxy. -/
def dataPlane (rpc : List (Effect DPFlatLiteral) → String → Effect DPFlatLiteral →
    Except String DPLiteral) (pf : Platform) : Runtime DPFlatLiteral :=
  ⟨rpc, pf, evalBuiltin pf⟩

theorem code_toDP (hp : p.toDP? = some d) (f : String) :
    p.code.get? f = (d.code.get? f).map Expr.ofDP := by
  obtain ⟨code, hcode, hd⟩ := Option.bind_eq_some_iff.mp hp
  obtain ⟨headers, -, hd⟩ := Option.bind_eq_some_iff.mp hd
  cases hd
  rw [BTreeMap.traverse_eq_some (fun e _ h => e.eq_ofDP h) hcode]
  exact BTreeMap.get?_map _ _ _

theorem externals_toDP (hp : p.toDP? = some d) : p.externals = d.externals := by
  obtain ⟨code, -, hd⟩ := Option.bind_eq_some_iff.mp hp
  obtain ⟨headers, -, hd⟩ := Option.bind_eq_some_iff.mp hd
  cases hd
  rfl

instance (p : CPProgram) (e : CPExpr) : Decidable (e.CallsIn (Shared p)) :=
  inferInstanceAs (Decidable (∀ c ∈ e.calls, Shared p c.1))

/-- All functions of the program call shared names only. -/
def SharedCode (p : CPProgram) : Prop := ∀ q ∈ p.code.entries, q.2.CallsIn (Shared p)

instance (p : CPProgram) : Decidable (SharedCode p) :=
  inferInstanceAs (Decidable (∀ q ∈ p.code.entries, q.2.CallsIn (Shared p)))

theorem embeds_evalCall_shared (hp : p.toDP? = some d) (hcode : SharedCode p)
    (hrpc : Alike (dataPlane rpcD pf) (controlPlane st rpcC pf compile))
    {ev : DPExpr → EvalM DPFlatLiteral (Outcome DPFlatLiteral)}
    {ev' : CPExpr → EvalM CPFlatLiteral (Outcome CPFlatLiteral)}
    (hev : ∀ e : DPExpr, e.CallsIn (Shared p) → Embeds Outcome.ofDP (ev e) (ev' (Expr.ofDP e)))
    (f : String) (hf : Shared p f) (isAsync : Bool) (args : List DPLiteral) :
    Embeds Outcome.ofDP (Lang.evalCall (Env.new (dataPlane rpcD pf) d) ev f isAsync args)
      (Lang.evalCall (Env.new (controlPlane st rpcC pf compile) p) ev' f isAsync
        (args.map .ofDP)) := by
  have hget : (Env.new (controlPlane st rpcC pf compile) p).get f =
      ((Env.new (dataPlane rpcD pf) d).get f).map Expr.ofDP := code_toDP hp f
  unfold Lang.evalCall
  rw [hget]
  cases hbody : (Env.new (dataPlane rpcD pf) d).get f with
  | some body =>
      rw [hbody] at hget
      have hbody : body.CallsIn (Shared p) :=
        (Expr.callsIn_ofDP body).mp (hcode (f, _) ((BTreeMap.mem_entries _ _ _).mpr hget))
      refine Comp.Along.ofExcept_bind (applyAll_literals args body) (fun e hb => ?_)
      refine (hev e (callsIn_applyAll hbody (callsIn_lits args) hb)).map (fun r => ?_)
      exact stripReturn_ofDP r
  | none =>
      rw [hbody] at hget
      have hf : CPFlatTyp.builtinsTable.lookup f = none := by
        refine hf.resolve_left (fun h => ?_)
        rw [show p.code.get? f = none from hget] at h
        cases h
      show Embeds _ (if Headers.isBuiltin FlatTyp f then _ else _)
        (if Headers.isBuiltin CPFlatTyp f then _ else _)
      rw [isBuiltin_shared hf]
      by_cases hbuiltin : Headers.isBuiltin FlatTyp f = true
      · rw [if_pos hbuiltin, if_pos hbuiltin]
        obtain ⟨hlit, hst⟩ := not_mem_own hbuiltin
        show Embeds Outcome.ofDP (Outcome.lit <$> evalBuiltin pf f args)
          (Outcome.lit <$> Control.evalCall st compile pf f _)
        rw [evalCall_eq_evalBuiltin hst]
        exact (embeds_evalBuiltin hlit args).lit
      · rw [if_neg hbuiltin, if_neg hbuiltin]
        cases Headers.split f with
        | none => exact .throw _
        | some q =>
            obtain ⟨external, method⟩ := q
            dsimp only
            split
            · exact (embeds_metaCall external method args).lit
            · cases isAsync with
              | true =>
                  exact Comp.Along.bind (embeds_log ⟨external, method, args, true⟩)
                    (fun _ => .pure (Outcome.lit .unit))
              | false =>
                  refine Embeds.lit (embeds_externalCall hrpc ?_ ⟨external, method, args, false⟩)
                  exact congrArg (fun x => x.sockets) (externals_toDP hp)

/-! ## Runs -/

theorem embeds_eval (hp : p.toDP? = some d) (hcode : SharedCode p)
    (hrpc : Alike (dataPlane rpcD pf) (controlPlane st rpcC pf compile)) {e : DPExpr}
    (he : e.CallsIn (Shared p)) :
    Embeds Outcome.ofDP (eval (Env.new (dataPlane rpcD pf) d) e)
      (eval (Env.new (controlPlane st rpcC pf compile) p) (Expr.ofDP e)) :=
  Comp.Along.fix (fun _ _ hev _ he => embeds_evalStep extends_controlPlane rfl hev
    (embeds_evalCall_shared hp hcode hrpc hev) he) (evalStep_continuous _) (evalStep_continuous _)
    he

/-- The code that the control plane converts does on a proxy what it does on the control plane,
from every state of the metadata and of the calls made before. -/
theorem eval_converted (hp : p.toDP? = some d) {e : CPExpr} {e' : DPExpr}
    (he : e.toDP? = some e') (hcode : SharedCode p) (hcalls : e.CallsIn (Shared p))
    (hrpc : Alike (dataPlane rpcD pf) (controlPlane st rpcC pf compile))
    (w : World DPFlatLiteral) :
    (eval (Env.new (controlPlane st rpcC pf compile) p) e).run w.ofDP =
      ((eval (Env.new (dataPlane rpcD pf) d) e').run w).map
        (Comp.image World.ofDP Error.ofDP Outcome.ofDP) := by
  rw [e.eq_ofDP he] at hcalls ⊢
  exact embeds_eval hp hcode hrpc ((Expr.callsIn_ofDP e').mp hcalls) w

end

/-- `fn allow(x) { Egress::push(..); x == 1 }` on the plane of the literals. -/
def allowCode {FT FL : Type} [TFlatTyp FT] [TFlatLiteral FT FL] : Program FT FL where
  code := .ofList [("allow", .closure "x" (.blockExpr .block [
    .callExpr "Egress::push" [.litExpr (.data [1])] false,
    .infixExpr .equal (.bvar "x" 0) (.litExpr (.int 1))]))]
  externals := .empty
  headers := ∅

theorem eval_converted_allow :
    ((eval (Env.new (controlPlane .empty (fun _ _ _ => .error "unreachable") .offline
        (fun _ _ _ _ => pure ∅)) allowCode) (.call "allow" [.litExpr (.int 1)])).run
          (World.ofDP default)).map (fun r => (r.1, r.2.metadata.egress.data)) =
      some (.ok (.lit (.bool true)), [[1]]) := by
  have hp : (allowCode : CPProgram).toDP? = some allowCode := rfl
  have he : (Expr.call "allow" [.litExpr (.int 1)] : CPExpr).toDP? =
      some (.call "allow" [.litExpr (.int 1)]) := rfl
  have hrpc : Alike (dataPlane (fun _ _ _ => .error "unreachable") .offline)
      (controlPlane .empty (fun _ _ _ => .error "unreachable") .offline
        (fun _ _ _ _ => pure ∅)) := fun _ _ _ => rfl
  have hrun : (eval (Env.new (dataPlane (fun _ _ _ => .error "unreachable") .offline) allowCode)
      (.call "allow" [.litExpr (.int 1)])).run default = some (.ok (.lit (.bool true)), _) :=
    eval_of_evalN (n := 6) rfl
  rw [eval_converted hp he (by decide +kernel) (by decide +kernel) hrpc default, hrun]
  rfl

end Armour.Control
