import HornResolution.Proofs.Instances

/-!
# Valuations

An expression without variables is a finite tree whose nodes carry a kind, a
symbol and their subtrees. A valuation gives every variable such a tree, and
thereby every expression one. Substitutions are read as systems of equations: a
valuation satisfies a substitution if each bound variable has the tree of its
value.

A tree may also have leaves of a further type. With no leaves these are the
trees above; with variables as leaves they hold the terms, so that a valuation by
terms is a valuation by trees.
-/

namespace HornResolution

/-- Whether a node stands for a function term or for an atom. -/
inductive Kind where
  | function
  | predicate
deriving DecidableEq

inductive Tree (α : Type) where
  | leaf (a : α)
  | node (kind : Kind) (symbol : Symbol) (args : List (Tree α))

namespace Tree

variable {α : Type}

mutual

def size : Tree α → Nat
  | .leaf _ => 1
  | .node _ _ args => sizeAll args + 1

def sizeAll : List (Tree α) → Nat
  | [] => 0
  | t :: ts => size t + sizeAll ts

end

theorem size_le_sizeAll {t : Tree α} {ts : List (Tree α)} (h : t ∈ ts) : t.size ≤ sizeAll ts := by
  induction ts with
  | nil => simp at h
  | cons s ts ih =>
    rw [sizeAll]
    rcases List.mem_cons.mp h with rfl | h
    · omega
    · have := ih h
      omega

theorem size_lt_of_mem {t : Tree α} {args : List (Tree α)} (h : t ∈ args) (k : Kind) (f : Symbol) :
    t.size < (node k f args).size := by
  have := size_le_sizeAll h
  rw [size]
  omega

end Tree

section Evaluation

variable {α : Type} (ρ : Var → Tree α)

def Term.eval : Term → Tree α := Term.fold ρ (Tree.node .function)

def Atom.eval (a : Atom) : Tree α := .node .predicate a.symbol (a.args.map (Term.eval ρ))

def Expr.eval : Expr → Tree α
  | .term t => t.eval ρ
  | .atom a => a.eval ρ

@[simp] theorem Term.eval_var (v : Var) : (Term.var v).eval ρ = ρ v := rfl

@[simp] theorem Term.eval_app (f : Symbol) (args : List Term) :
    (Term.app f args).eval ρ = .node .function f (args.map (Term.eval ρ)) := by
  rw [Term.eval, Term.fold_app]

theorem Term.size_le_size_eval {t : Term} {u : Var} (h : u ∈ t.occurrences) :
    (ρ u).size ≤ (t.eval ρ).size := by
  induction t using Term.induction with
  | var v =>
    obtain rfl : u = v := by simpa using h
    exact le_rfl
  | app f args ih =>
    rw [Term.occurrences_app, List.mem_flatMap] at h
    obtain ⟨t, ht, hu⟩ := h
    have hlt := Tree.size_lt_of_mem (List.mem_map_of_mem ht) .function f (t := t.eval ρ)
    rw [Term.eval_app]
    exact (ih t ht hu).trans hlt.le

theorem size_lt_size_node {args : List Term} {u : Var} (h : u ∈ args.flatMap Term.occurrences)
    (k : Kind) (f : Symbol) : (ρ u).size < (Tree.node k f (args.map (Term.eval ρ))).size := by
  obtain ⟨t, ht, hu⟩ := List.mem_flatMap.mp h
  exact (Term.size_le_size_eval ρ hu).trans_lt (Tree.size_lt_of_mem (List.mem_map_of_mem ht) k f)

theorem Expr.size_lt_size_eval {e : Expr} (he : e.asVar? = none) {u : Var}
    (h : u ∈ e.occurrences) : (ρ u).size < (e.eval ρ).size := by
  cases e with
  | term t =>
    cases t with
    | var v => simp [Expr.asVar?, Term.asVar?] at he
    | app f args =>
      rw [Expr.eval, Term.eval_app]
      exact size_lt_size_node ρ (by simpa [Expr.occurrences] using h) .function f
  | atom a => exact size_lt_size_node ρ h .predicate a.symbol

theorem Expr.size_le_size_eval {e : Expr} {u : Var} (h : u ∈ e.occurrences) :
    (ρ u).size ≤ (e.eval ρ).size := by
  cases e with
  | term t => exact Term.size_le_size_eval ρ h
  | atom a => exact (size_lt_size_node ρ h .predicate a.symbol).le

end Evaluation

theorem Substitution.of_get?_add {θ : Substitution} {v w : Var} {e e' : Expr}
    (h : (θ.add v e).get? w = some e') : θ.get? w = some e' ∨ w = v ∧ e' = e := by
  rw [get?_add] at h
  rcases Option.or_eq_some_iff.mp h with h | ⟨-, h⟩
  · exact Or.inl h
  · split_ifs at h with hwv
    exact Or.inr ⟨hwv, (Option.some.inj h).symm⟩

theorem Substitution.get?_add_of_ne {θ : Substitution} {v w : Var} {e : Expr} (h : w ≠ v) :
    (θ.add v e).get? w = θ.get? w := by
  rw [get?_add, if_neg h, Option.or_none]

theorem Substitution.get?_add_self {θ : Substitution} {v : Var} {e : Expr}
    (h : θ.get? v = none) : (θ.add v e).get? v = some e := by
  rw [get?_add, h, if_pos rfl, Option.none_or]

/-- The equations of a substitution hold: each bound variable has the tree of its value. -/
def Satisfies {α : Type} (ρ : Var → Tree α) (θ : Substitution) : Prop :=
  ∀ v e, θ.get? v = some e → ρ v = e.eval ρ

section Satisfaction

variable {α : Type} {ρ : Var → Tree α} {θ : Substitution}

theorem satisfies_add {v : Var} (hv : θ.get? v = none) (e : Expr) :
    Satisfies ρ (θ.add v e) ↔ Satisfies ρ θ ∧ ρ v = e.eval ρ := by
  constructor
  · intro h
    refine ⟨fun w e' hw => h w e' ?_, h v e ?_⟩
    · rw [Substitution.get?_add, hw, Option.some_or]
    · rw [Substitution.get?_add, hv, if_pos rfl, Option.none_or]
  · rintro ⟨h, hve⟩ w e' hw
    rcases Substitution.of_get?_add hw with hw | ⟨rfl, rfl⟩
    · exact h w e' hw
    · exact hve

end Satisfaction

/-- The equations of a substitution hold of terms. No term is equal to an atom, so a
substitution that binds a variable to an atom has no such valuation. -/
def Instantiates (ρ : Var → Term) (θ : Substitution) : Prop :=
  ∀ v e, θ.get? v = some e → Expr.term (ρ v) = e.bind ρ

def Substitution.TermValued (θ : Substitution) : Prop :=
  ∀ v e, θ.get? v = some e → ∃ t, e = .term t

theorem map_injective_on {α β : Type} {f : α → β} {xs ys : List α}
    (hf : ∀ x ∈ xs, ∀ y, f x = f y → x = y) (h : xs.map f = ys.map f) : xs = ys := by
  induction xs generalizing ys with
  | nil => simpa using h.symm
  | cons x xs ih =>
    cases ys with
    | nil => simp at h
    | cons y ys =>
      rw [List.map_cons, List.map_cons, List.cons.injEq] at h
      rw [hf x (by simp) y h.1, ih (fun z hz => hf z (by simp [hz])) h.2]

/-- A term as a tree whose leaves are its variables. -/
def Term.tree (t : Term) : Tree Var := t.eval .leaf

/-- The valuation by trees that a valuation by terms is. -/
def treeValuation (ρ : Var → Term) (v : Var) : Tree Var := (ρ v).tree

section TermTrees

variable (ρ : Var → Term) {θ : Substitution}

theorem Term.tree_injective : Function.Injective Term.tree := by
  intro s
  induction s using Term.induction with
  | var v =>
    intro t h
    cases t with
    | var w => simpa [Term.tree] using h
    | app g ys => simp [Term.tree] at h
  | app f xs ih =>
    intro t h
    cases t with
    | var w => simp [Term.tree] at h
    | app g ys =>
      simp only [Term.tree, Term.eval_app, Tree.node.injEq, true_and] at h
      rw [h.1, map_injective_on (fun x hx y hxy => ih x hx hxy) h.2]

theorem Term.tree_bind (t : Term) : (t.bind ρ).tree = t.eval (treeValuation ρ) := by
  induction t using Term.induction with
  | var v => rfl
  | app f args ih =>
    rw [Term.bind_app, Term.tree, Term.eval_app, Term.eval_app, List.map_map]
    congr 1
    exact List.map_congr_left ih

theorem Term.map_eval_treeValuation (ts : List Term) :
    ts.map (Term.eval (treeValuation ρ)) = (ts.map (Term.bind ρ)).map Term.tree := by
  rw [List.map_map]
  exact List.map_congr_left fun t _ => (Term.tree_bind ρ t).symm

theorem Atom.eval_bind_inj {ρ : Var → Term} {p q : Atom} :
    p.eval (treeValuation ρ) = q.eval (treeValuation ρ) ↔ p.bind ρ = q.bind ρ := by
  simp only [Atom.eval, Atom.bind, Atom.mapTerms, Tree.node.injEq, Atom.mk.injEq, true_and,
    Term.map_eval_treeValuation, (List.map_injective_iff.mpr Term.tree_injective).eq_iff]

theorem Instantiates.satisfies {ρ : Var → Term} (h : Instantiates ρ θ) :
    Satisfies (treeValuation ρ) θ := by
  intro v e he
  have hv := h v e he
  cases e with
  | term t =>
    have hvt : ρ v = t.bind ρ := by simpa [Expr.bind, Expr.mapTerms] using hv
    rw [treeValuation, Expr.eval, hvt, Term.tree_bind]
  | atom a => simp [Expr.bind, Expr.mapTerms] at hv

theorem instantiates_iff {ρ : Var → Term} (hθ : θ.TermValued) :
    Instantiates ρ θ ↔ Satisfies (treeValuation ρ) θ := by
  refine ⟨Instantiates.satisfies, ?_⟩
  intro h v e he
  obtain ⟨t, rfl⟩ := hθ v e he
  have hv := h v _ he
  rw [Expr.eval, ← Term.tree_bind] at hv
  exact congrArg Expr.term (Term.tree_injective hv)

end TermTrees

end HornResolution
