import HornResolution.Proofs.Interleaving

/-!
# The variables of the rules do not matter

A search uses a rule through its copies only, and a copy numbers the variables of its rule in
the order in which they first appear. Two rules that differ in their variables therefore have
the same copies, whether or not they share variables with other rules, with the goal or with
the substitution at hand. Only the display names of the fresh variables differ.
-/

namespace HornResolution

section FirstAppearance

variable {α β : Type} [DecidableEq α] [DecidableEq β] {f : α → β} {as : List α}

theorem distinct_map (hf : Set.InjOn f {a | a ∈ as}) :
    distinct (as.map f) = (distinct as).map f := by
  induction as with
  | nil => rfl
  | cons a as ih =>
    have htail : Set.InjOn f {b | b ∈ as} := hf.mono fun _ hb => List.mem_cons_of_mem a hb
    rw [List.map_cons, distinct, distinct, List.map_cons, ih htail, List.filter_map]
    congr 2
    apply List.filter_congr
    intro b hb
    rw [mem_distinct] at hb
    simpa using hf.eq_iff (List.mem_cons_of_mem a hb) List.mem_cons_self

theorem idxOf_map_of_nodup (hnodup : (as.map f).Nodup) {a : α} (ha : a ∈ as) :
    (as.map f).idxOf (f a) = as.idxOf a := by
  obtain ⟨i, hi, rfl⟩ := List.getElem_of_mem ha
  have hi' : i < (as.map f).length := by rwa [List.length_map]
  rw [hnodup.of_map.idxOf_getElem, ← List.getElem_map f (h := hi'), hnodup.idxOf_getElem]

end FirstAppearance

namespace Vocabulary

/-- Two vocabularies that differ at most in the display names of their variables. -/
structure Twins (V W : Vocabulary) : Prop where
  names : V.names = W.names
  generated : V.generated = W.generated
  varCount : V.varCount = W.varCount

theorem Twins.refl (V : Vocabulary) : V.Twins V := ⟨rfl, rfl, rfl⟩

variable {V W : Vocabulary}

theorem Twins.knows (h : V.Twins W) (symbols : List Symbol) (vars : List Var) :
    V.knows symbols vars = W.knows symbols vars := by
  have hsymbol : V.knowsSymbol = W.knowsSymbol := by
    funext s
    rw [knowsSymbol, knowsSymbol, symbolCount, symbolCount, h.names]
  have hvar : V.knowsVar = W.knowsVar := by
    funext v
    rw [knowsVar, knowsVar, h.varCount]
  rw [Vocabulary.knows, hsymbol, hvar, Vocabulary.knows]

theorem Twins.report (h : V.Twins W) (event : Event) (J : Journal) :
    J.report V event = J.report W event := by
  cases J with
  | closed => rfl
  | opened latest => rw [Journal.report, Journal.report, h.knows]

end Vocabulary

theorem Renaming.cover_names (vs : List Var) (r : Renaming) (V : Vocabulary) :
    (r.cover vs V).vocabulary.names = V.names ∧
      (r.cover vs V).vocabulary.generated = V.generated := by
  induction vs generalizing r V with
  | nil => exact ⟨rfl, rfl⟩
  | cons v vs ih =>
    rw [cover]
    split
    · exact ih r V
    · split
      · exact ⟨rfl, rfl⟩
      · exact ih _ _

theorem Clause.names_standardizeApart {c : Clause} {V V' : Vocabulary} {r : Except Misuse Clause}
    (h : c.standardizeApart V = (r, V')) : V'.names = V.names ∧ V'.generated = V.generated := by
  obtain rfl : (Renaming.empty.cover c.vars V).vocabulary = V' := congrArg Prod.snd h
  exact Renaming.cover_names _ _ _

section Variants

variable {c d : Clause} {V W : Vocabulary}

/-- The second clause is the first one with its variables replaced by different ones. -/
def Clause.Variant (c d : Clause) : Prop :=
  ∃ π : Var → Var, Set.InjOn π {v | v ∈ c.occurrences} ∧ d = c.bind (relabelling π)

/-- Two programs with the same rules up to the variables of each. -/
def Program.Variant (P Q : Program) : Prop :=
  List.Forall₂ Clause.Variant P.clauses.toList Q.clauses.toList

theorem Clause.vars_relabelling {π : Var → Var} (hπ : Set.InjOn π {v | v ∈ c.occurrences}) :
    (c.bind (relabelling π)).vars = c.vars.map π := by
  rw [vars, occurrences_relabelling, distinct_map hπ]
  rfl

/-- Two rules that differ in their variables have one copy. -/
theorem Clause.Variant.exists_copy (h : c.Variant d) (hVW : V.Twins W)
    (hc : V.Allocated c.occurrences) (hd : W.Allocated d.occurrences) :
    ∃ copy V' W', c.standardizeApart V = (.ok copy, V') ∧ d.standardizeApart W = (.ok copy, W') ∧
      V'.Twins W' := by
  obtain ⟨copy, V', hcopy⟩ := Clause.exists_copy hc
  obtain ⟨copy', W', hcopy'⟩ := Clause.exists_copy hd
  obtain ⟨hV', r, hr, hfresh⟩ := Clause.standardizeApart_ok hcopy
  obtain ⟨hW', r', hr', hfresh'⟩ := Clause.standardizeApart_ok hcopy'
  obtain ⟨π, hπ, rfl⟩ := h
  have hvars := Clause.vars_relabelling hπ
  have hnodup := (c.bind (relabelling π)).nodup_vars
  rw [hvars] at hfresh' hW' hnodup
  have hsame : ∀ v ∈ c.occurrences, relabelling r'.image (π v) = relabelling r.image v := by
    intro v hv
    rw [← Clause.mem_vars] at hv
    rw [relabelling, relabelling, hfresh v hv, hfresh' (π v) (List.mem_map_of_mem hv),
      idxOf_map_of_nodup hnodup hv, hVW.varCount]
  have heq : copy' = copy := by
    calc
      copy' = (c.bind (relabelling π)).bind (relabelling r'.image) := hr'
      _ = c.bind fun v => relabelling r'.image (π v) := Clause.bind_bind _ _ c
      _ = c.bind (relabelling r.image) := Clause.bind_congr hsame
      _ = copy := hr.symm
  obtain ⟨hnames, hgenerated⟩ := Clause.names_standardizeApart hcopy
  obtain ⟨hnames', hgenerated'⟩ := Clause.names_standardizeApart hcopy'
  refine ⟨copy, V', W', hcopy, heq ▸ hcopy', ?_, ?_, ?_⟩
  · rw [hnames, hnames', hVW.names]
  · rw [hgenerated, hgenerated', hVW.generated]
  · rw [hV', hW', hVW.varCount, List.length_map]

theorem Program.Variant.get? {P Q : Program} (h : P.Variant Q) (i : ℕ) :
    Option.Rel Clause.Variant (P.get? i) (Q.get? i) := by
  rw [Program.get?, Program.get?, ← Array.getElem?_toList, ← Array.getElem?_toList]
  unfold Program.Variant at h
  generalize P.clauses.toList = cs, Q.clauses.toList = ds at h ⊢
  induction h generalizing i with
  | nil => exact .none
  | cons h _ ih =>
    cases i with
    | zero => exact .some h
    | succ i => exact ih i

end Variants

section Correspondence

/-- Two searches over programs whose variables are allocated, with everything else equal. -/
def Correspondence.variant (P Q : Program) : Correspondence where
  terms := relabelling id
  substitutions := Eq
  vocabularies V W := V.Twins W ∧ P.KnownIn V ∧ Q.KnownIn W
  journals := Eq
  lossy := False

variable {P Q : Program}

theorem Correspondence.eq_of_variant_events {E E' : Event} (h : (variant P Q).Events E E') :
    E = E' := by
  cases h with
  | exhausted goal => exact congrArg Event.exhausted (Atom.bind_relabelling_id goal).symm
  | attempt goal copy h =>
    obtain rfl := h
    simp only [variant, Atom.bind_relabelling_id, Clause.bind_relabelling_id]
  | backtracked remaining =>
    exact congrArg Event.backtracked (Formula.bind_relabelling_id remaining).symm

theorem Correspondence.relabels_variant (P Q : Program) : (variant P Q).Relabels id := by
  refine ⟨rfl, fun σ τ => ?_⟩
  rw [Substitution.relabel_id]
  exact eq_comm

theorem Correspondence.variant_rules {c d : Clause} (h : c.Variant d) (hc : c ∈ P.clauses)
    (hd : d ∈ Q.clauses) : (variant P Q).Rules c d := by
  rintro V W ⟨hVW, hP, hQ⟩
  obtain ⟨copy, V', W', hcopy, hcopy', hVW'⟩ := h.exists_copy hVW (hP c hc) (hQ d hd)
  rw [hcopy, hcopy']
  refine ⟨.ok (Clause.bind_relabelling_id copy).symm, hVW', ?_, ?_⟩
  · exact hP.mono (Clause.varCount_le_standardizeApart hcopy)
  · exact hQ.mono (Clause.varCount_le_standardizeApart hcopy')

theorem Correspondence.variant_sound (hPQ : P.Variant Q) : (variant P Q).Sound P Q where
  unifies p q h := by
    obtain rfl := h
    simp only [variant, Atom.bind_relabelling_id]
    generalize unify _ _ _ = r
    cases r with
    | ok σ => exact .ok rfl
    | error clash => exact .error clash clash
  rules i := by
    have hrel := hPQ.get? i
    generalize hc : P.get? i = rule at hrel ⊢
    generalize hd : Q.get? i = rule' at hrel ⊢
    cases hrel with
    | none => exact .none
    | some h => exact .some (variant_rules h (Array.mem_of_getElem? hc) (Array.mem_of_getElem? hd))
  report hJ hV hE := by
    obtain rfl := hJ
    obtain rfl := eq_of_variant_events hE
    rw [hV.1.report]
    generalize Journal.report _ _ _ = r
    cases r with
    | none => exact .none
    | some J => exact .some rfl

end Correspondence

/-- Two answers that differ at most in the display names of the variables allocated for them. -/
structure Step.Twins (s t : Step) : Prop where
  outcome : s.outcome = t.outcome
  node : s.node = t.node
  vocabulary : s.vocabulary.Twins t.vocabulary
  journal : s.journal = t.journal

theorem Correspondence.variant_steps {P Q : Program} {s t : Step}
    (h : (variant P Q).Steps s t) : s.Twins t := by
  have houtcome := (relabels_variant P Q).outcome_eq h.outcome
  have hnode := (relabels_variant P Q).node_eq h.node
  rw [Outcome.relabel_id] at houtcome
  rw [Node.relabel_id] at hnode
  exact ⟨houtcome.symm, hnode.symm, h.vocabulary.1, h.journal⟩

/-- The variables of the rules do not matter. Whatever is asked of a node in whatever state, it
gives the same answers over programs that differ in the variables of their rules: the same
bindings in the same order, the same failures and as many new variables. Starting a node
involves no rules, so this holds of every goal under every parent. -/
theorem replies_variant {P Q : Program} {V : Vocabulary} (hPQ : P.Variant Q) (hP : P.KnownIn V)
    (hQ : Q.KnownIn V) (node : Node) (requests : List Request) :
    List.Forall₂ Step.Twins (node.replies (Node.next P) requests V)
      (node.replies (Node.next Q) requests V) := by
  have hrequests : List.Forall₂ (Correspondence.variant P Q).Requests requests requests := by
    rw [List.forall₂_same]
    intro request _
    cases request with
    | next depth J => exact .next depth rfl
    | reset θ => exact .reset rfl
  have hself := (Correspondence.relabels_variant P Q).nodes node
  rw [Node.relabel_id] at hself
  have hrun := (Correspondence.variant_sound hPQ).replies hrequests hself ⟨.refl V, hP, hQ⟩
  exact hrun.forall₂.imp fun s t h => Correspondence.variant_steps h

/-- A fact and a rule over one variable, the one of the goal. -/
def oneVariable : Program := .ofList
  [.fact ⟨⟨0⟩, [.app ⟨1⟩ [.var ⟨0⟩]]⟩, .rule ⟨⟨2⟩, [.var ⟨0⟩]⟩ (.atom ⟨⟨0⟩, [.var ⟨0⟩]⟩)]

/-- The same fact and rule over two variables that no goal has. -/
def twoVariables : Program := .ofList
  [.fact ⟨⟨0⟩, [.app ⟨1⟩ [.var ⟨1⟩]]⟩, .rule ⟨⟨2⟩, [.var ⟨2⟩]⟩ (.atom ⟨⟨0⟩, [.var ⟨2⟩]⟩)]

theorem variant_oneVariable : oneVariable.Variant twoVariables := by
  refine .cons ⟨fun v => ⟨v.id + 1⟩, ?_, rfl⟩ (.cons ⟨fun v => ⟨v.id + 2⟩, ?_, rfl⟩ .nil)
  · rintro ⟨n⟩ _ ⟨m⟩ _ h
    simpa using h
  · rintro ⟨n⟩ _ ⟨m⟩ _ h
    simpa using h

/-- A goal over the variable of the rules has one solution, which no rule captures. -/
theorem replies_variant_oneVariable :
    ((Node.ready ⟨⟨2⟩, [.var ⟨0⟩]⟩ 0 .empty).replies (Node.next oneVariable)
        [.next 9 .closed, .next 9 .closed] { varNames := #[⟨3⟩, ⟨4⟩, ⟨5⟩] }).map Step.outcome =
      [.solution { bindings := [(⟨0⟩, .term (.var ⟨4⟩)), (⟨4⟩, .term (.app ⟨1⟩ [.var ⟨5⟩]))] },
        .exhausted] ∧
    List.Forall₂ Step.Twins
      ((Node.ready ⟨⟨2⟩, [.var ⟨0⟩]⟩ 0 .empty).replies (Node.next oneVariable)
        [.next 9 .closed, .next 9 .closed] { varNames := #[⟨3⟩, ⟨4⟩, ⟨5⟩] })
      ((Node.ready ⟨⟨2⟩, [.var ⟨0⟩]⟩ 0 .empty).replies (Node.next twoVariables)
        [.next 9 .closed, .next 9 .closed] { varNames := #[⟨3⟩, ⟨4⟩, ⟨5⟩] }) := by
  constructor
  · rfl
  · exact replies_variant variant_oneVariable (by decide) (by decide) _ _

end HornResolution
