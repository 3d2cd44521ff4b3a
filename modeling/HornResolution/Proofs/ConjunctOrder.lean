import HornResolution.Proofs.Findings
import HornResolution.Proofs.MutualInstances
import HornResolution.Proofs.RuleOrder

/-!
# The order of the conjuncts does not change the answers

Two conjunctions of the same operands in different orders have the same derivations, with their
parts in different orders. Two searches that come to their ends find each of them once, and what
a derivation asks of the variables does not depend on the order in which its parts are found. So
the solutions correspond one to one and differ in the names of variables only.

Nothing is said of a search that does not come to its end. A conjunction may be searched through
in one order and not in another, which is why the orders are not compared by exchanging
neighbours one after the other.
-/

namespace HornResolution

section Rearranging

variable {α β : Type}

/-- A function that takes lists related to the one list, entry by entry, to lists related to the
other, and one that takes them back. -/
def Rearranges (xs ys : List β) (φ ψ : List α → List α) : Prop :=
  ∀ (R : α → β → Prop) (ts : List α), List.Forall₂ R ts xs →
    List.Forall₂ R (φ ts) ys ∧ ψ (φ ts) = ts

def onTail (φ : List α → List α) : List α → List α
  | [] => []
  | t :: ts => t :: φ ts

def exchangeFirst : List α → List α
  | t :: u :: ts => u :: t :: ts
  | ts => ts

theorem Rearranges.onTail {xs ys : List β} {φ ψ : List α → List α} (h : Rearranges xs ys φ ψ)
    (x : β) : Rearranges (x :: xs) (x :: ys) (onTail φ) (onTail ψ) := by
  intro R ts hts
  cases hts with
  | @cons t _ ts _ ht hts =>
    obtain ⟨hys, hback⟩ := h R ts hts
    exact ⟨.cons ht hys, congrArg (List.cons t) hback⟩

theorem rearranges_exchangeFirst (x y : β) (zs : List β) :
    Rearranges (α := α) (x :: y :: zs) (y :: x :: zs) exchangeFirst exchangeFirst := by
  intro R ts hts
  cases hts with
  | cons ht hts =>
    cases hts with
    | cons hu hts => exact ⟨.cons hu (.cons ht hts), rfl⟩

theorem Rearranges.comp {xs ys zs : List β} {φ ψ φ' ψ' : List α → List α}
    (h : Rearranges xs ys φ ψ) (h' : Rearranges ys zs φ' ψ') :
    Rearranges xs zs (φ' ∘ φ) (ψ ∘ ψ') := by
  intro R ts hts
  obtain ⟨hys, hback⟩ := h R ts hts
  obtain ⟨hzs, hback'⟩ := h' R (φ ts) hys
  exact ⟨hzs, (congrArg ψ hback').trans hback⟩

theorem exists_rearranges {xs ys : List β} (h : xs.Perm ys) :
    ∃ φ ψ : List α → List α, Rearranges xs ys φ ψ ∧ Rearranges ys xs ψ φ := by
  induction h with
  | nil => exact ⟨id, id, fun R ts hts => ⟨hts, rfl⟩, fun R ts hts => ⟨hts, rfl⟩⟩
  | cons x _ ih =>
    obtain ⟨φ, ψ, hφ, hψ⟩ := ih
    exact ⟨_, _, hφ.onTail x, hψ.onTail x⟩
  | swap x y zs =>
    exact ⟨_, _, rearranges_exchangeFirst y x zs, rearranges_exchangeFirst x y zs⟩
  | trans _ _ ih ih' =>
    obtain ⟨φ, ψ, hφ, hψ⟩ := ih
    obtain ⟨φ', ψ', hφ', hψ'⟩ := ih'
    exact ⟨_, _, hφ.comp hφ', hψ'.comp hψ⟩

end Rearranging

section Comparing

open DepthFirst

variable {α : Type} {s s' u u' : Stage} {vs : List Var} {ρ : Var → Term}

/-- The values that are possible once a condition is settled are possible once a weaker one is,
if both were settled under the same bindings. -/
theorem Stage.Settles.permits {C D : Condition} (h : s.Settles C u) (h' : s'.Settles D u')
    (hbindings : s.bindings = s'.bindings) (hvs : s'.vocabulary.Allocated vs)
    (hCD : ∀ ρ, C ρ → D ρ) (hρ : Permits vs u.bindings ρ) : Permits vs u'.bindings ρ := by
  obtain ⟨ρ', hagree, hρ'⟩ := hρ
  obtain ⟨hρs, hC⟩ := h.sound ρ' hρ' trivial
  rw [hbindings] at hρs
  obtain ⟨ρ'', hagree', hρ'', -⟩ := h'.complete ρ' hρs (hCD ρ' hC)
  exact ⟨ρ'', fun v hv => (hagree' v (hvs v hv)).trans (hagree v hv), hρ''⟩

/-- A bijective renaming of the variables takes what the one solution makes of the goal to what
the other makes of it. -/
def AnswersAlike (goal : Formula) (σ τ : Substitution) : Prop :=
  ∃ π : Var → Var, π.Bijective ∧ goal.apply τ = (goal.apply σ).bind (relabelling π)

section Evidence

variable {C D : α → Condition} {k k' : Continuation Substitution} {t t' : Trace Substitution}
  {xs xs' : List (Finding α)} {φ ψ : α → α}

theorem perm_evidence (hbindings : s.bindings = s'.bindings)
    (hφ : ∀ e ρ, C e ρ → D (φ e) ρ ∧ ψ (φ e) = e) (hψ : ∀ e ρ, D e ρ → C (ψ e) ρ ∧ φ (ψ e) = e)
    (h : Splits s Set.univ C k t xs) (h' : Splits s' Set.univ D k' t' xs') :
    ((xs.map Finding.evidence).map φ).Perm (xs'.map Finding.evidence) := by
  have hback : ∀ e ∈ xs.map Finding.evidence, ψ (φ e) = e := by
    intro e he
    obtain ⟨x, hx, rfl⟩ := List.mem_map.mp he
    obtain ⟨ρ, -, hC⟩ := (h.settles x hx).exists_valuation
    exact (hφ x.evidence ρ hC).2
  have hnodup : ((xs.map Finding.evidence).map φ).Nodup := by
    refine h.nodup.map_on fun e he e' he' heq => ?_
    rw [← hback e he, heq, hback e' he']
  refine (List.perm_ext_iff_of_nodup hnodup h'.nodup).mpr fun e => ?_
  simp only [List.mem_map]
  constructor
  · rintro ⟨_, ⟨x, hx, rfl⟩, rfl⟩
    obtain ⟨ρ, hρ, hC⟩ := (h.settles x hx).exists_valuation
    rw [hbindings] at hρ
    exact h'.covers _ (Set.mem_univ _) ρ hρ (hφ x.evidence ρ hC).1
  · rintro ⟨x', hx', rfl⟩
    obtain ⟨ρ, hρ, hD⟩ := (h'.settles x' hx').exists_valuation
    rw [← hbindings] at hρ
    obtain ⟨hC, hforth⟩ := hψ x'.evidence ρ hD
    obtain ⟨x, hx, hevidence⟩ := h.covers _ (Set.mem_univ _) ρ hρ hC
    exact ⟨_, ⟨x, hx, hevidence⟩, hforth⟩

/-- They have findings that correspond one to one, and partners answer a goal alike. -/
theorem matched_findings (hbindings : s.bindings = s'.bindings) {goal : Formula}
    (hgoal : s.vocabulary.Allocated goal.occurrences)
    (hgoal' : s'.vocabulary.Allocated goal.occurrences)
    (hφ : ∀ e ρ, C e ρ → D (φ e) ρ ∧ ψ (φ e) = e) (hψ : ∀ e ρ, D e ρ → C (ψ e) ρ ∧ φ (ψ e) = e)
    (h : Splits s Set.univ C k t xs) (h' : Splits s' Set.univ D k' t' xs') :
    Matched (fun x x' => AnswersAlike goal x.stage.bindings x'.stage.bindings) xs xs' := by
  have hself : List.Forall₂ (fun e x => φ x.evidence = e) ((xs.map Finding.evidence).map φ) xs := by
    rw [List.map_map, List.forall₂_map_left_iff, List.forall₂_same]
    exact fun x _ => rfl
  obtain ⟨permuted, hrelated, hperm⟩ :=
    List.perm_comp_forall₂ (perm_evidence hbindings hφ hψ h h').symm hself
  refine ⟨permuted, hperm.symm, ?_⟩
  have hpartners := (List.forall₂_and_left _ _).mpr
    ⟨h'.settles, List.forall₂_map_left_iff.mp hrelated⟩
  have hpartners' := (List.forall₂_and_left _ _).mpr
    ⟨fun x hx => h.settles x (hperm.mem_iff.mp hx), hpartners.flip⟩
  refine hpartners'.imp ?_
  rintro x x' ⟨hx, hx', hevidence⟩
  have hCD : ∀ ρ, C x.evidence ρ → D x'.evidence ρ := by
    intro ρ hC
    rw [← hevidence]
    exact (hφ x.evidence ρ hC).1
  have hDC : ∀ ρ, D x'.evidence ρ → C x.evidence ρ := by
    intro ρ hD
    obtain ⟨ρ', -, hC⟩ := hx.exists_valuation
    have hC' := (hψ x'.evidence ρ hD).1
    rwa [← hevidence, (hφ x.evidence ρ' hC).2] at hC'
  refine exists_renaming_of_permits x.stage.regular x'.stage.regular fun ρ => ⟨?_, ?_⟩
  · exact hx.permits hx' hbindings hgoal' hCD
  · exact hx'.permits hx hbindings.symm hgoal hDC

end Evidence

end Comparing

section Answers

open DepthFirst

variable {P : Program} {ops ops' : List Formula} {θ : Substitution} {V V' W W' : Vocabulary}
  {node node' : Node}

theorem exists_findings {s : Stage} (hnode : Node.start s.bindings (.conj ops) = .ok node)
    (hops : s.vocabulary.Allocated (Formula.conj ops).occurrences)
    {solutions : List (Substitution × Vocabulary)}
    (hcalls : node.Calls P s.vocabulary (answers solutions W)) :
    ∃ t xs, Splits s Set.univ (OperandsDerive P ops) .entry t xs ∧
      solutions = xs.map fun x => (x.stage.bindings, x.stage.vocabulary) := by
  obtain ⟨d, hrun⟩ := (calls_iff_run hnode).mp hcalls
  have hfinished : (run P d (.conj ops) s.bindings s.vocabulary).Finished :=
    ⟨W, congrArg Trace.ending hrun⟩
  cases d with
  | zero => exact absurd hfinished Trace.not_finished_unfinished
  | succ d =>
    obtain ⟨xs, hxs⟩ := exists_splits_operands (fun f _ => explained P (d + 1) f)
      (fun f hf v hv => hops v (Formula.mem_occurrences_conj.mpr ⟨f, hf, hv⟩))
      Continuation.grows_entry hfinished
    refine ⟨_, xs, hxs, ?_⟩
    have hsolutions := hxs.entries
    rw [← run, hrun] at hsolutions
    exact hsolutions.trans (List.flatMap_pure_eq_map _ xs)

/-- Conjunct order is irrelevant to the answers of searches that come to their ends. If the calls
on the nodes of two conjunctions of the same operands end in exhaustion and none of them failed,
both have the same number of solutions, and the solutions correspond one to one so that partners
make the same of the conjunction up to a bijective renaming of variables. -/
theorem conjunct_order_irrelevant (hops : ops.Perm ops') (hθ : θ.Acyclic) (hterm : θ.TermValued)
    (hgoal : V.Allocated (Formula.conj ops).occurrences) (hparent : V.Allocated θ.occurrences)
    (hgoal' : V'.Allocated (Formula.conj ops).occurrences) (hparent' : V'.Allocated θ.occurrences)
    (hnode : Node.start θ (.conj ops) = .ok node) (hnode' : Node.start θ (.conj ops') = .ok node')
    {solutions solutions' : List (Substitution × Vocabulary)}
    (hcalls : node.Calls P V (answers solutions W))
    (hcalls' : node'.Calls P V' (answers solutions' W')) :
    solutions.length = solutions'.length ∧
      ∃ permuted, solutions.Perm permuted ∧
        List.Forall₂ (fun p p' => AnswersAlike (.conj ops) p.1 p'.1) permuted solutions' := by
  let s : Stage := ⟨V, θ, ⟨hθ, hterm⟩, hparent⟩
  let s' : Stage := ⟨V', θ, ⟨hθ, hterm⟩, hparent'⟩
  have hgoals : V'.Allocated (Formula.conj ops').occurrences := by
    intro v hv
    obtain ⟨f, hf, hv⟩ := Formula.mem_occurrences_conj.mp hv
    exact hgoal' v (Formula.mem_occurrences_conj.mpr ⟨f, hops.mem_iff.mpr hf, hv⟩)
  obtain ⟨t, xs, hxs, rfl⟩ := exists_findings (s := s) hnode hgoal hcalls
  obtain ⟨t', xs', hxs', rfl⟩ := exists_findings (s := s') hnode' hgoals hcalls'
  obtain ⟨φ, ψ, hφ, hψ⟩ := exists_rearranges (α := Derivation) hops
  have hbindings : s.bindings = s'.bindings := rfl
  have hmatched := matched_findings hbindings hgoal hgoal'
    (fun ts ρ hts => hφ _ ts hts) (fun ts ρ hts => hψ _ ts hts) hxs hxs'
  have hlength := hmatched.length_eq
  obtain ⟨permuted, hperm, hrelated⟩ := hmatched
  refine ⟨by simpa using hlength, _, hperm.map _, ?_⟩
  rw [List.forall₂_map_left_iff, List.forall₂_map_right_iff]
  exact hrelated

/-- Two facts about one predicate, and a fact and a rule about another, by which one of the two
can be derived in two ways. -/
def joinRules : Program := .ofList
  [.fact ⟨⟨0⟩, [.app ⟨2⟩ [.var ⟨0⟩]]⟩, .fact ⟨⟨0⟩, [.app ⟨3⟩ [.var ⟨0⟩]]⟩,
    .fact ⟨⟨1⟩, [.app ⟨3⟩ [.var ⟨0⟩]]⟩,
    .rule ⟨⟨1⟩, [.var ⟨0⟩]⟩ (.conj [.atom ⟨⟨0⟩, [.var ⟨0⟩]⟩])]

/-- A parent that makes the variables of the two conjuncts the same. -/
def joinParent : Substitution := Substitution.empty.add ⟨1⟩ (.term (.var ⟨0⟩))

def joinOperands : List Formula := [.atom ⟨⟨0⟩, [.var ⟨0⟩]⟩, .atom ⟨⟨1⟩, [.var ⟨1⟩]⟩]

def joinSolutions : List (Substitution × Vocabulary) :=
  [({ bindings := [(⟨1⟩, .term (.var ⟨0⟩)), (⟨0⟩, .term (.app ⟨2⟩ [.var ⟨2⟩])),
        (⟨6⟩, .term (.app ⟨2⟩ [.var ⟨2⟩])), (⟨2⟩, .term (.var ⟨7⟩))] },
      { varNames := .replicate 8 ⟨4⟩ }),
    ({ bindings := [(⟨1⟩, .term (.var ⟨0⟩)), (⟨0⟩, .term (.app ⟨3⟩ [.var ⟨11⟩])),
        (⟨11⟩, .term (.var ⟨14⟩))] }, { varNames := .replicate 15 ⟨4⟩ }),
    ({ bindings := [(⟨1⟩, .term (.var ⟨0⟩)), (⟨0⟩, .term (.app ⟨3⟩ [.var ⟨11⟩])),
        (⟨15⟩, .term (.app ⟨3⟩ [.var ⟨11⟩])), (⟨11⟩, .term (.var ⟨17⟩))] },
      { varNames := .replicate 18 ⟨4⟩ })]

def swappedSolutions : List (Substitution × Vocabulary) :=
  [({ bindings := [(⟨1⟩, .term (.var ⟨0⟩)), (⟨0⟩, .term (.app ⟨3⟩ [.var ⟨4⟩])),
        (⟨4⟩, .term (.var ⟨6⟩))] }, { varNames := .replicate 7 ⟨4⟩ }),
    ({ bindings := [(⟨1⟩, .term (.var ⟨0⟩)), (⟨0⟩, .term (.var ⟨9⟩)),
        (⟨9⟩, .term (.app ⟨2⟩ [.var ⟨10⟩])), (⟨10⟩, .term (.var ⟨11⟩))] },
      { varNames := .replicate 12 ⟨4⟩ }),
    ({ bindings := [(⟨1⟩, .term (.var ⟨0⟩)), (⟨0⟩, .term (.var ⟨9⟩)),
        (⟨9⟩, .term (.app ⟨3⟩ [.var ⟨15⟩])), (⟨15⟩, .term (.var ⟨17⟩))] },
      { varNames := .replicate 18 ⟨4⟩ })]

def joinNode : Node := .opening (.ready ⟨⟨0⟩, [.var ⟨0⟩]⟩ 0 joinParent)
  (.conj [.atom ⟨⟨1⟩, [.var ⟨1⟩]⟩])

def swappedNode : Node := .opening (.ready ⟨⟨1⟩, [.var ⟨1⟩]⟩ 0 joinParent)
  (.conj [.atom ⟨⟨0⟩, [.var ⟨0⟩]⟩])

theorem conjunct_order_irrelevant_joinOperands :
    joinNode.Calls joinRules { varNames := #[⟨4⟩, ⟨4⟩] }
        (answers joinSolutions { varNames := .replicate 22 ⟨4⟩ }) ∧
      swappedNode.Calls joinRules { varNames := #[⟨4⟩, ⟨4⟩] }
        (answers swappedSolutions { varNames := .replicate 22 ⟨4⟩ }) ∧
      joinSolutions.length = swappedSolutions.length ∧
      ∃ permuted, joinSolutions.Perm permuted ∧
        List.Forall₂ (fun p p' => AnswersAlike (.conj joinOperands) p.1 p'.1) permuted
          swappedSolutions := by
  have hparent : joinParent.Regular := Substitution.regular_empty.add (by decide)
  have hnode : Node.start joinParent (.conj joinOperands) = .ok joinNode := rfl
  have hnode' : Node.start joinParent (.conj joinOperands.reverse) = .ok swappedNode := rfl
  have hrun : run joinRules 10 (.conj joinOperands) joinParent { varNames := #[⟨4⟩, ⟨4⟩] } =
      ⟨joinSolutions, .exhausted { varNames := .replicate 22 ⟨4⟩ }⟩ := rfl
  have hrun' : run joinRules 10 (.conj joinOperands.reverse) joinParent
      { varNames := #[⟨4⟩, ⟨4⟩] } =
      ⟨swappedSolutions, .exhausted { varNames := .replicate 22 ⟨4⟩ }⟩ := rfl
  have hcalls := (calls_iff_run hnode).mpr ⟨10, hrun⟩
  have hcalls' := (calls_iff_run hnode').mpr ⟨10, hrun'⟩
  refine ⟨hcalls, hcalls', ?_⟩
  exact conjunct_order_irrelevant (List.reverse_perm _).symm hparent.acyclic hparent.termValued
    (by decide) (by decide) (by decide) (by decide) hnode hnode' hcalls hcalls'

end Answers

end HornResolution
