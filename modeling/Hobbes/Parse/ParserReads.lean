import Hobbes.Parse.Accepted
import Hobbes.Parse.ParserAgrees

/-!
# What a generated parser yields
-/

namespace Hobbes.Parse

open Core Driver Tree

section

variable {V : Type} [LinearOrder (Terminal Sym)] {unit : V} {L : LetRec V} {pei : ParserEvalInfo V}
  {px : Precedence Sym} {ps : Parser V} {n : ℕ} {arr : List UInt8}

/-- What a parser yields is the value of a tree of its grammar, for the symbol of its first rule, which reads the
input. This is so where rules are reduced only in states whose depth is their length. -/
theorem makeParser_yields (h : makeParser n ps px = some (.ok (pei, L))) {o : Option (Tree (Terminal Sym))}
    (hrun : Runs pei.table pei.AtDepth (init (arr.map .character)) o) {v : V} (hv : Yields unit L arr (some v)) :
    ∃ u : Tree Sym, Valid (extractGrammar ps) u ∧ ps.head?.map ParseRule.symbol = some u.root ∧
      u.yield = arr.map .character ∧ treeValue unit pei.evalExpr (u.map .user) = some v := by
  obtain ⟨r, heval, hr⟩ := evals_parserBody unit h hrun
  have hresult : some v = r.result := (yields_iff heval).mp hv
  cases o with
  | none =>
    obtain ⟨hne, -⟩ := hr
    cases r with
    | success w => exact absurd rfl (hne w)
    | _ => cases hresult
  | some t =>
    obtain ⟨w, rfl, hw⟩ := hr
    obtain rfl : v = w := Option.some.inj hresult
    obtain ⟨root, hhead, hrules, hprep, -, -⟩ := makeParser_eq_ok h
    have haccepts : Accepts pei.table (arr.map .character) t := hrun.mono fun _ _ => trivial
    obtain ⟨u, rfl, hu, rfl, hyield⟩ := exists_tree_of_accepts hprep.automaton hprep.grammar hprep.table haccepts
    exact ⟨u, hrules ▸ hu, hhead, hyield, hw⟩

end

section

attribute [local instance] symbolOrder

lemma generated_yields : (match makeParser 20 (exampleRules [([95], .character 98)]) [] with
    | some (.ok (pei, L)) =>
      (run pei.table pei.AtDepth 10 (init ([97, 98].map .character))).isSome &&
        (runParser 0 L 20 [97, 98] == some (some 8))
    | _ => false) = true := by
  decide +kernel

/-- The value of `ab` is 8. -/
theorem makeParser_yields_nonempty : ∃ u : Tree Sym, Valid (extractGrammar (exampleRules [([95], .character 98)])) u ∧
    u.yield = [97, 98].map .character := by
  have hrun := generated_yields
  split at hrun
  · rename_i pei L h
    obtain ⟨hrun, hv⟩ := Bool.and_eq_true_iff.mp hrun
    obtain ⟨o, ho⟩ := Option.isSome_iff_exists.mp hrun
    obtain ⟨u, hu, -, hyield, -⟩ := makeParser_yields h (runs_of_run ho) ⟨20, beq_iff_eq.mp hv⟩
    exact ⟨u, hu, hyield⟩
  · cases hrun

end

end Hobbes.Parse
