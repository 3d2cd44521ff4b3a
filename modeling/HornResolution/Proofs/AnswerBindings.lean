import Mathlib.Data.String.Basic
import HornResolution.Answer
import HornResolution.Proofs.Absorption
import HornResolution.Proofs.ErrorFreedom
import HornResolution.Proofs.ExtensionOrder

/-!
# Answers and the bindings they list

An answer carries the instantiated goal and, beside it, the values of the goal's variables. The
two are computed apart: the one by resolving the variables inside the goal, the other by resolving
each variable on its own and sorting the results by display name. They tell the same. The list has
the bound variables of the goal, each once, and its values are resolved to the end, so to put them
in the places of their variables, once and all at the same time, gives the instantiated goal, even
where the value of one variable of the goal goes through another.
-/

namespace HornResolution

section Names

variable {V : Vocabulary} {ρ : Var → Term}

namespace Vocabulary

theorem knows_cons {s : Symbol} {symbols : List Symbol} {vars : List Var} :
    V.knows (s :: symbols) vars = true ↔ V.knowsSymbol s = true ∧ V.knows symbols vars = true := by
  simp only [knows, List.all_cons, Bool.and_eq_true, and_assoc]

theorem knowsVar_of_knows {symbols : List Symbol} {vars : List Var} {v : Var}
    (h : V.knows symbols vars = true) (hv : v ∈ vars) : V.knowsVar v = true := by
  rw [knows, Bool.and_eq_true] at h
  exact List.all_eq_true.mp h.2 v hv

end Vocabulary

def Term.NamedIn (V : Vocabulary) (t : Term) : Prop := V.knows t.symbols t.occurrences = true

theorem Term.namedIn_var {v : Var} : (Term.var v).NamedIn V ↔ V.knowsVar v = true := by
  simp [NamedIn, Vocabulary.knows]

theorem Term.namedIn_app {f : Symbol} {args : List Term} :
    (Term.app f args).NamedIn V ↔ V.knowsSymbol f = true ∧ ∀ t ∈ args, t.NamedIn V := by
  rw [NamedIn, symbols_app, occurrences_app, Vocabulary.knows_cons, Vocabulary.knows_flatMap]
  rfl

theorem Atom.namedIn_iff {a : Atom} :
    a.NamedIn V ↔ V.knowsSymbol a.symbol = true ∧ ∀ t ∈ a.args, t.NamedIn V := by
  rw [NamedIn, symbols, occurrences, Vocabulary.knows_cons, Vocabulary.knows_flatMap]
  rfl

theorem Term.NamedIn.bind {t : Term} (ht : t.NamedIn V)
    (hρ : ∀ v ∈ t.occurrences, (ρ v).NamedIn V) : (t.bind ρ).NamedIn V := by
  induction t using Term.induction with
  | var v => exact hρ v (by simp)
  | app f args ih =>
    rw [namedIn_app] at ht
    rw [bind_app, namedIn_app]
    refine ⟨ht.1, List.forall_mem_map.mpr fun t hmem => ?_⟩
    exact ih t hmem (ht.2 t hmem) fun v hv => hρ v (by simpa using ⟨t, hmem, hv⟩)

theorem Atom.NamedIn.bind {a : Atom} (ha : a.NamedIn V)
    (hρ : ∀ v ∈ a.occurrences, (ρ v).NamedIn V) : (a.bind ρ).NamedIn V := by
  rw [namedIn_iff] at ha ⊢
  refine ⟨ha.1, List.forall_mem_map.mpr fun t ht => ?_⟩
  exact (ha.2 t ht).bind fun v hv => hρ v (List.mem_flatMap.mpr ⟨t, ht, hv⟩)

theorem Formula.NamedIn.bind {f : Formula} (hf : f.NamedIn V)
    (hρ : ∀ v ∈ f.occurrences, (ρ v).NamedIn V) : (f.bind ρ).NamedIn V := by
  rw [namedIn_iff] at hf ⊢
  rw [atoms_bind]
  refine List.forall_mem_map.mpr fun a ha => ?_
  exact (hf a ha).bind fun v hv => hρ v (List.mem_flatMap.mpr ⟨a, ha, hv⟩)

namespace Substitution

variable {σ : Substitution} {v : Var} {t : Term}

def NamedIn (V : Vocabulary) (σ : Substitution) : Prop :=
  V.knows σ.symbols σ.occurrences = true

instance : Decidable (σ.NamedIn V) :=
  inferInstanceAs (Decidable (V.knows σ.symbols σ.occurrences = true))

theorem NamedIn.value (hσ : σ.NamedIn V) (hv : σ.get? v = some (.term t)) : t.NamedIn V := by
  have hboth : V.knows ([] ++ t.symbols) ([v] ++ t.occurrences) = true :=
    Vocabulary.knows_flatMap.mp hσ (v, .term t) (mem_bindings_of_get? hv)
  exact (Vocabulary.knows_append.mp hboth).2

theorem Acyclic.namedIn_resolved (hσ : σ.Acyclic) (hnamed : σ.NamedIn V)
    (hv : V.knowsVar v = true) : (σ.resolved v).NamedIn V := by
  induction v using hσ.wellFounded.induction with
  | h v ih =>
    rcases hget : σ.get? v with - | (t | a)
    · rwa [resolved_of_free hget, Term.namedIn_var]
    · have ht := hnamed.value hget
      rw [hσ.resolved_of_term hget]
      exact ht.bind fun u hu => ih u ⟨_, hget, hu⟩ (Vocabulary.knowsVar_of_knows ht hu)
    · rwa [resolved_of_atom hget, Term.namedIn_var]

end Substitution

end Names

section Order

theorem pairwise_distinct {α : Type} [DecidableEq α] (as : List α) :
    (distinct as).Pairwise fun a b => as.idxOf a < as.idxOf b := by
  induction as with
  | nil => exact .nil
  | cons a as ih =>
    have hne {b : α} (hb : b ∈ (distinct as).filter (· ≠ a)) : a ≠ b := by
      have hba : b ≠ a := by simpa using (List.mem_filter.mp hb).2
      exact hba.symm
    rw [distinct, List.pairwise_cons]
    refine ⟨fun b hb => ?_, (ih.filter _).imp_of_mem fun {b c} hb hc hlt => ?_⟩
    · simp [List.idxOf_cons_ne as (hne hb)]
    · rw [List.idxOf_cons_ne as (hne hb), List.idxOf_cons_ne as (hne hc)]
      exact Nat.succ_lt_succ hlt

namespace Naming

variable {N : Naming} {vs : List Var} {v w : Var}

def le (N : Naming) (v w : Var) : Bool := compare (N.var v) (N.var w) != .gt

theorem le_iff : N.le v w = true ↔ N.var v ≤ N.var w := by
  rw [le, bne_iff_ne, compare_le_iff_le]

protected theorem le_trans (u v w : Var) (huv : N.le u v = true) (hvw : N.le v w = true) :
    N.le u w = true :=
  le_iff.mpr ((le_iff.mp huv).trans (le_iff.mp hvw))

protected theorem le_total (v w : Var) : (N.le v w || N.le w v) = true := by
  rw [Bool.or_eq_true, le_iff, le_iff]
  exact le_total (N.var v) (N.var w)

/-- Variables in the order of their names. -/
def sorted (N : Naming) (vs : List Var) : List Var := vs.mergeSort N.le

theorem sortedByName_map (N : Naming) (value : Var → Expr) (vs : List Var) :
    sortedByName N (vs.map fun v => (v, value v)) =
      (N.sorted vs).map fun v => (v, value v) := by
  rw [sortedByName, sorted]
  symm
  apply List.map_mergeSort
  intro v _ w _
  rfl

theorem filter_sorted (N : Naming) (name : String) (vs : List Var) :
    (N.sorted vs).filter (N.var · = name) = vs.filter (N.var · = name) := by
  have hsame : (vs.filter (N.var · = name)).Pairwise fun v w => N.le v w = true := by
    refine List.pairwise_of_forall_mem_list fun v hv w hw => le_iff.mpr (le_of_eq ?_)
    simp only [List.mem_filter, decide_eq_true_eq] at hv hw
    rw [hv.2, hw.2]
  have hsub : (vs.filter (N.var · = name)).Sublist ((N.sorted vs).filter (N.var · = name)) := by
    simpa [sorted] using (List.sublist_mergeSort Naming.le_trans Naming.le_total hsame
      List.filter_sublist).filter (N.var · = name)
  have hperm := (List.mergeSort_perm vs N.le).filter (N.var · = name)
  exact (hsub.eq_of_length hperm.length_eq.symm).symm

/-- Names come in their order, and variables of one name in the order in which they came. -/
theorem pairwise_sorted {R : Var → Var → Prop} (h : vs.Pairwise R) :
    (N.sorted vs).Pairwise fun v w => N.var v < N.var w ∨ N.var v = N.var w ∧ R v w := by
  have hle : (N.sorted vs).Pairwise fun v w => N.le v w = true :=
    List.pairwise_mergeSort Naming.le_trans Naming.le_total vs
  rw [List.pairwise_iff_forall_sublist] at hle ⊢
  intro v w hvw
  rcases (le_iff.mp (hle hvw)).lt_or_eq with hlt | heq
  · exact Or.inl hlt
  · have hsame : [v, w].Sublist ((N.sorted vs).filter (N.var · = N.var w)) := by
      simpa [heq] using hvw.filter (N.var · = N.var w)
    rw [filter_sorted] at hsame
    exact Or.inr ⟨heq, List.pairwise_iff_forall_sublist.mp (h.filter _) hsame⟩

end Naming

end Order

open Substitution

variable {V : Vocabulary} {goal : Formula} {σ : Substitution} {vs : List Var} {v : Var}

section Listing

/-- Replaces the listed variables by their resolved values, and no others. -/
def Substitution.only (σ : Substitution) (vs : List Var) (v : Var) : Term :=
  if v ∈ vs then σ.resolved v else .var v

/-- The listed variables are enough to instantiate a formula if those of its variables that are
left out are unbound. -/
theorem Formula.bind_only (h : ∀ v ∈ goal.occurrences, σ.isBound v = true → v ∈ vs) :
    goal.bind (σ.only vs) = goal.apply σ := by
  rw [Formula.apply_eq_bind_resolved]
  apply Formula.bind_congr
  intro v hv
  rw [only]
  split_ifs with hmem
  · rfl
  · have hfree : σ.isBound v = false := Bool.eq_false_iff.mpr fun hbound => hmem (h v hv hbound)
    rw [resolved_of_free (isBound_eq_false_iff.mp hfree)]

theorem Vocabulary.Coherent.varName?_naming (hV : V.Coherent) (hgoal : goal.NamedIn V)
    (hv : v ∈ goal.occurrences) : V.varName? v = some (V.naming.var v) := by
  obtain ⟨name, hname⟩ := Option.isSome_iff_exists.mp ((hV.isSome_names hgoal).2 v hv)
  simp [naming, hname]

/-- The variables whose bindings an answer lists, in the order of the list: the bound ones of the
goal, each once, by their display names, and those of one name as they first appear in the goal. -/
structure Formula.Lists (goal : Formula) (V : Vocabulary) (σ : Substitution) (vs : List Var) :
    Prop where
  nodup : vs.Nodup
  mem_iff : ∀ v, v ∈ vs ↔ v ∈ goal.occurrences ∧ σ.isBound v = true
  ordered : vs.Pairwise fun v w => ∃ x y, V.varName? v = some x ∧ V.varName? w = some y ∧
    (x < y ∨ x = y ∧ goal.occurrences.idxOf v < goal.occurrences.idxOf w)

theorem Formula.lists_sorted (hV : V.Coherent) (hgoal : goal.NamedIn V) (σ : Substitution) :
    goal.Lists V σ (V.naming.sorted (goal.vars.filter σ.isBound)) := by
  have hperm := List.mergeSort_perm (goal.vars.filter σ.isBound) V.naming.le
  have hmem (v : Var) : v ∈ V.naming.sorted (goal.vars.filter σ.isBound) ↔
      v ∈ goal.occurrences ∧ σ.isBound v = true := by
    rw [Naming.sorted, hperm.mem_iff, List.mem_filter, vars, mem_distinct]
  refine ⟨hperm.nodup_iff.mpr ((nodup_distinct _).filter _), hmem, ?_⟩
  have horder := V.naming.pairwise_sorted ((pairwise_distinct goal.occurrences).filter σ.isBound)
  refine horder.imp_of_mem fun {v w} hv hw h => ?_
  exact ⟨_, _, hV.varName?_naming hgoal ((hmem v).mp hv).1,
    hV.varName?_naming hgoal ((hmem w).mp hw).1, h⟩

end Listing

section Values

theorem Substitution.Regular.apply_var (hσ : σ.Regular) (v : Var) :
    (Expr.term (.var v)).apply σ = .term (σ.resolved v) :=
  hσ.apply_eq_bind _

theorem Substitution.Regular.free_of_mem_resolved (hσ : σ.Regular) {w : Var}
    (hw : w ∈ (σ.resolved v).occurrences) : σ.isBound w = false := by
  rcases hσ.acyclic.keeps_of_mem_resolved hw with hfree | ⟨a, ha⟩
  · exact isBound_eq_false_iff.mpr hfree
  · obtain ⟨t, ht⟩ := hσ.termValued w _ ha
    cases ht

theorem Formula.NamedIn.resolved (hgoal : goal.NamedIn V) (hσ : σ.Regular) (hnamed : σ.NamedIn V)
    (hv : v ∈ goal.occurrences) : (σ.resolved v).NamedIn V :=
  hσ.acyclic.namedIn_resolved hnamed (Vocabulary.knowsVar_of_knows hgoal hv)

theorem Formula.NamedIn.apply (hgoal : goal.NamedIn V) (hσ : σ.Regular) (hnamed : σ.NamedIn V) :
    (goal.apply σ).NamedIn V :=
  hgoal.bind fun _ => hgoal.resolved hσ hnamed

end Values

namespace AnswerView

theorem bindings_ofSolution (N : Naming) (goal : Formula) (σ : Substitution) :
    (ofSolution N goal σ).bindings = (N.sorted (goal.vars.filter σ.isBound)).map fun v =>
      ⟨N.var v, ((Expr.term (.var v)).apply σ).render N⟩ := by
  rw [ofSolution, resolvedValues, Naming.sortedByName_map, List.map_map]
  rfl

theorem ofSolution?_eq_some (hσ : σ.Regular) (hgoal : goal.NamedIn V) (hnamed : σ.NamedIn V) :
    ofSolution? V goal σ = some (ofSolution V.naming goal σ) := by
  have hanswer : V.knows (goal.apply σ).symbols (goal.apply σ).occurrences = true :=
    hgoal.apply hσ hnamed
  have hbindings : (σ.resolvedValues goal.vars).all
      (fun b => V.knows b.2.symbols (b.1 :: b.2.occurrences)) = true := by
    rw [resolvedValues, List.all_map, List.all_eq_true]
    intro v hv
    have hmem : v ∈ goal.occurrences := mem_distinct.mp (List.mem_filter.mp hv).1
    have hself := Term.namedIn_var.mpr (Vocabulary.knowsVar_of_knows hgoal hmem)
    rw [Function.comp_apply, hσ.apply_var]
    exact Vocabulary.knows_append.mpr ⟨hself, hgoal.resolved hσ hnamed hmem⟩
  rw [ofSolution?, if_pos (by rw [hanswer, hbindings]; rfl)]

end AnswerView

/-- Answers and their bindings agree. A goal and an acyclic solution over terms, of which every part
has a name, have an answer. It lists the bound variables of the goal in the order of their names,
each with the text of its resolved value: the values satisfy the solution, and no bound variable is
left in them. Putting them in the places of the listed variables, all at once, gives the instance of
the goal that the answer shows. -/
theorem answer_agrees_with_bindings (hV : V.Coherent) (hσ : σ.Regular) (hgoal : goal.NamedIn V)
    (hnamed : σ.NamedIn V) :
    ∃ answer vs, AnswerView.ofSolution? V goal σ = some answer ∧ goal.Lists V σ vs ∧
      List.Forall₂ (fun v b => V.varName? v = some b.name ∧
        ((Expr.term (.var v)).apply σ).text? V = some b.value) vs answer.bindings ∧
      (Instantiates σ.resolved σ ∧ ∀ v ∈ vs, (Expr.term (.var v)).apply σ = .term (σ.resolved v) ∧
        ∀ w ∈ (σ.resolved v).occurrences, σ.isBound w = false) ∧
      goal.bind (σ.only vs) = goal.apply σ ∧
      answer.answer = (goal.apply σ).view V.naming ∧
      (goal.apply σ).text? V = some answer.text := by
  have hlists := goal.lists_sorted hV hgoal σ
  have hanswer := AnswerView.ofSolution?_eq_some hσ hgoal hnamed
  refine ⟨_, _, hanswer, hlists, ?_, ⟨?_, fun v _ => ⟨hσ.apply_var v, ?_⟩⟩, ?_, rfl, ?_⟩
  · rw [AnswerView.bindings_ofSolution, List.forall₂_map_right_iff, List.forall₂_same]
    intro v hv
    have hmem := ((hlists.mem_iff v).mp hv).1
    refine ⟨hV.varName?_naming hgoal hmem, ?_⟩
    rw [hσ.apply_var]
    exact if_pos (hgoal.resolved hσ hnamed hmem)
  · exact hσ.acyclic.instantiates_resolve hσ.termValued
  · exact fun w => hσ.free_of_mem_resolved
  · exact Formula.bind_only fun v hv hbound => (hlists.mem_iff v).mpr ⟨hv, hbound⟩
  · exact if_pos (hgoal.apply hσ hnamed)

/-- The second and the third variable have the same name. -/
def chainedNames : Vocabulary where
  names := #["p", "f", "a", "X", "Y", "Z"]
  varNames := #[⟨4⟩, ⟨3⟩, ⟨3⟩, ⟨5⟩]

/-- Of the two variables named `X`, the one with the higher number comes first. -/
def chainedGoal : Formula :=
  .conj [.atom ⟨⟨0⟩, [.var ⟨2⟩, .app ⟨1⟩ [.var ⟨0⟩]]⟩, .neg (.atom ⟨⟨0⟩, [.var ⟨1⟩, .var ⟨3⟩]⟩)]

/-- A chain through three variables of the goal. -/
def chainedSolution : Substitution :=
  ((empty.add ⟨2⟩ (.term (.app ⟨1⟩ [.var ⟨0⟩]))).add ⟨0⟩ (.term (.var ⟨1⟩))).add ⟨1⟩
    (.term (.const ⟨2⟩))

theorem regular_chainedSolution : chainedSolution.Regular :=
  ((regular_empty.add (by decide)).add (by decide)).add (by decide)

theorem answer_agrees_with_bindings_chained :
    ∃ answer vs, AnswerView.ofSolution? chainedNames chainedGoal chainedSolution = some answer ∧
      answer.bindings = [⟨"X", "f(a)"⟩, ⟨"X", "a"⟩, ⟨"Y", "a"⟩] ∧
      chainedGoal.Lists chainedNames chainedSolution vs ∧ vs.length = 3 ∧
      chainedGoal.bind (chainedSolution.only vs) =
        .conj [.atom ⟨⟨0⟩, [.app ⟨1⟩ [.const ⟨2⟩], .app ⟨1⟩ [.const ⟨2⟩]]⟩,
          .neg (.atom ⟨⟨0⟩, [.const ⟨2⟩, .var ⟨3⟩]⟩)] := by
  have hgoal : chainedGoal.NamedIn chainedNames := by decide
  have hnamed : chainedSolution.NamedIn chainedNames := by decide
  obtain ⟨answer, vs, hanswer, hlists, hshown, -, hbind, -⟩ :=
    answer_agrees_with_bindings (by decide) regular_chainedSolution hgoal hnamed
  have hvalues : chainedSolution.resolvedValues chainedGoal.vars =
      [(⟨2⟩, .term (.app ⟨1⟩ [.const ⟨2⟩])), (⟨0⟩, .term (.const ⟨2⟩)),
        (⟨1⟩, .term (.const ⟨2⟩))] := by
    decide
  have hbindings : answer.bindings = [⟨"X", "f(a)"⟩, ⟨"X", "a"⟩, ⟨"Y", "a"⟩] := by
    rw [AnswerView.ofSolution?_eq_some regular_chainedSolution hgoal hnamed] at hanswer
    obtain rfl := Option.some.inj hanswer
    simp only [AnswerView.ofSolution, hvalues]
    cbv
  refine ⟨answer, vs, hanswer, hbindings, hlists, ?_, ?_⟩
  · rw [hshown.length_eq, hbindings]
    rfl
  · rw [hbind]
    decide

end HornResolution
