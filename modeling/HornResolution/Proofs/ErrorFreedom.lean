import HornResolution.Proofs.Derivability
import HornResolution.Proofs.Histories
import HornResolution.Proofs.RuleVariables

/-!
# Resolvable programs do not fail

A search fails on a body or goal that cannot be resolved, on a rule with a variable that
was never allocated and on a log for which a name is lacking. None of these happens if
the goal and the bodies of the rules are built from atoms by conjunctions of at least one
operand and if everything in them stands in the tables of the vocabulary. The nodes of such
a search are fit: what they hold can be resolved and has its names. Every step keeps them so,
under whatever parents they are started and reset.
-/

namespace HornResolution

section Names

variable {V V' : Vocabulary}

/-- The tables of one vocabulary are at most as long as those of another. -/
structure Vocabulary.Within (V V' : Vocabulary) : Prop where
  symbolCount_le : V.symbolCount ≤ V'.symbolCount
  varCount_le : V.varCount ≤ V'.varCount

/-- The display name of every variable was interned. -/
def Vocabulary.Coherent (V : Vocabulary) : Prop := ∀ s ∈ V.varNames, V.knowsSymbol s = true

instance : Decidable V.Coherent :=
  inferInstanceAs (Decidable (∀ s ∈ V.varNames, V.knowsSymbol s = true))

namespace Vocabulary

theorem Within.refl (V : Vocabulary) : V.Within V := ⟨le_rfl, le_rfl⟩

theorem Within.trans {V'' : Vocabulary} (h : V.Within V') (h' : V'.Within V'') : V.Within V'' :=
  ⟨h.symbolCount_le.trans h'.symbolCount_le, h.varCount_le.trans h'.varCount_le⟩

theorem Within.knows (h : V.Within V') {symbols : List Symbol} {vars : List Var}
    (hV : V.knows symbols vars = true) : V'.knows symbols vars = true := by
  rw [Vocabulary.knows, Bool.and_eq_true, List.all_eq_true, List.all_eq_true] at hV ⊢
  refine ⟨fun s hs => ?_, fun v hv => knowsVar_of_le h.varCount_le (hV.2 v hv)⟩
  have hlt : s.id < V.symbolCount := of_decide_eq_true (hV.1 s hs)
  exact decide_eq_true (hlt.trans_le h.symbolCount_le)

theorem knows_append {symbols symbols' : List Symbol} {vars vars' : List Var} :
    V.knows (symbols ++ symbols') (vars ++ vars') = true ↔
      V.knows symbols vars = true ∧ V.knows symbols' vars' = true := by
  simp only [knows, Bool.and_eq_true, List.all_append]
  tauto

theorem knows_flatMap {α : Type} {symbols : α → List Symbol} {vars : α → List Var} {as : List α} :
    V.knows (as.flatMap symbols) (as.flatMap vars) = true ↔
      ∀ a ∈ as, V.knows (symbols a) (vars a) = true := by
  simp only [knows, Bool.and_eq_true, List.all_flatMap, List.all_eq_true]
  constructor
  · intro h a ha
    exact ⟨h.1 a ha, h.2 a ha⟩
  · intro h
    exact ⟨fun a ha => (h a ha).1, fun a ha => (h a ha).2⟩

theorem Coherent.isSome_names (hV : V.Coherent) {symbols : List Symbol} {vars : List Var}
    (h : V.knows symbols vars = true) :
    (∀ s ∈ symbols, (V.name? s).isSome) ∧ ∀ v ∈ vars, (V.varName? v).isSome := by
  have hname {s : Symbol} (hs : V.knowsSymbol s = true) : (V.name? s).isSome := by
    have hlt : s.id < V.names.size := of_decide_eq_true hs
    simp [name?, hlt]
  rw [knows, Bool.and_eq_true, List.all_eq_true, List.all_eq_true] at h
  refine ⟨fun s hs => hname (h.1 s hs), fun v hv => ?_⟩
  have hlt : v.id < V.varNames.size := of_decide_eq_true (h.2 v hv)
  have hsymbol : V.varSymbol? v = some V.varNames[v.id] := by simp [varSymbol?, hlt]
  rw [varName?, hsymbol, Option.bind_some]
  exact hname (hV _ (Array.getElem_mem hlt))

end Vocabulary

def Atom.NamedIn (V : Vocabulary) (a : Atom) : Prop := V.knows a.symbols a.occurrences = true

def Formula.NamedIn (V : Vocabulary) (f : Formula) : Prop := V.knows f.symbols f.occurrences = true

def Clause.NamedIn (V : Vocabulary) (c : Clause) : Prop := V.knows c.symbols c.occurrences = true

def Event.NamedIn (V : Vocabulary) (event : Event) : Prop :=
  V.knows event.symbols event.occurrences = true

instance (f : Formula) : Decidable (f.NamedIn V) :=
  inferInstanceAs (Decidable (V.knows f.symbols f.occurrences = true))

instance (c : Clause) : Decidable (c.NamedIn V) :=
  inferInstanceAs (Decidable (V.knows c.symbols c.occurrences = true))

theorem Formula.namedIn_iff {f : Formula} : f.NamedIn V ↔ ∀ a ∈ f.atoms, a.NamedIn V :=
  Vocabulary.knows_flatMap

theorem Formula.namedIn_conj {fs : List Formula} :
    (Formula.conj fs).NamedIn V ↔ ∀ f ∈ fs, f.NamedIn V := by
  simp only [namedIn_iff, atoms, atomsAll_eq_flatMap, List.mem_flatMap]
  constructor
  · intro h f hf a ha
    exact h a ⟨f, hf, ha⟩
  · rintro h a ⟨f, hf, ha⟩
    exact h f hf a ha

theorem Formula.namedIn_atom {a : Atom} : (Formula.atom a).NamedIn V ↔ a.NamedIn V := by
  simp [namedIn_iff, atoms]

end Names

section Copies

variable (π : Var → Var)

theorem Term.symbols_relabelling (t : Term) : (t.bind (relabelling π)).symbols = t.symbols := by
  induction t using Term.induction with
  | var v => rfl
  | app f args ih =>
    rw [Term.bind_app, symbols_app, symbols_app, List.flatMap_map]
    exact congrArg (f :: ·) (List.flatMap_congr ih)

theorem Atom.symbols_relabelling (a : Atom) : (a.bind (relabelling π)).symbols = a.symbols := by
  simp only [symbols, Atom.bind, mapTerms, List.flatMap_map]
  exact congrArg (a.symbol :: ·) (List.flatMap_congr fun t _ => Term.symbols_relabelling π t)

theorem Formula.symbols_relabelling (f : Formula) :
    (f.bind (relabelling π)).symbols = f.symbols := by
  rw [symbols, symbols, atoms_bind, List.flatMap_map]
  exact List.flatMap_congr fun a _ => Atom.symbols_relabelling π a

theorem Clause.symbols_relabelling (c : Clause) : (c.bind (relabelling π)).symbols = c.symbols := by
  cases c with
  | fact a => exact Atom.symbols_relabelling π a
  | rule a f =>
    rw [bind_rule, symbols, symbols, Atom.symbols_relabelling, Formula.symbols_relabelling]
  | goal f => exact Formula.symbols_relabelling π f

theorem Renaming.coherent_cover {V : Vocabulary} (hV : V.Coherent) (vs : List Var) (r : Renaming) :
    (r.cover vs V).vocabulary.Coherent := by
  induction vs generalizing r V with
  | nil => exact hV
  | cons v vs ih =>
    rw [cover]
    split
    · exact ih hV r
    · split
      · exact hV
      · rename_i s hs
        refine ih ?_ _
        intro s' hs'
        rcases Array.mem_push.mp hs' with hs' | rfl
        · exact hV s' hs'
        · exact hV s' (Array.mem_of_getElem? hs)

end Copies

section Logs

variable {P : Program} {task : Task} {goal : Atom} {i : ℕ} {θ : Substitution}
  {V V' V'' : Vocabulary} {J J' J'' : Journal} {s : Step}

/-- What a part of a search does to the vocabulary and the log: variables are added, with display
names that there are, and events are written for which there are names. -/
structure Goes (V : Vocabulary) (J : Journal) (V' : Vocabulary) (J' : Journal) : Prop where
  within : V.Within V'
  coherent : V.Coherent → V'.Coherent
  events : ∀ event ∈ J'.events, event ∈ J.events ∨ event.NamedIn V'

theorem Goes.refl (V : Vocabulary) (J : Journal) : Goes V J V J :=
  ⟨.refl V, id, fun _ h => Or.inl h⟩

theorem Goes.trans (h : Goes V J V' J') (h' : Goes V' J' V'' J'') : Goes V J V'' J'' := by
  refine ⟨h.within.trans h'.within, h'.coherent ∘ h.coherent, fun event hevent => ?_⟩
  rcases h'.events event hevent with hold | hnew
  · exact (h.events event hold).imp_right h'.within.knows
  · exact Or.inr hnew

theorem goes_of_report {event : Event} (h : J.report V event = some J') : Goes V J V J' := by
  refine ⟨.refl V, id, fun event' hevent' => ?_⟩
  cases J with
  | closed =>
    obtain rfl := Option.some.inj h
    exact Or.inl hevent'
  | opened latest =>
    rw [Journal.events_of_report h, List.mem_append, List.mem_singleton] at hevent'
    refine hevent'.imp_right fun heq => ?_
    rw [Journal.report] at h
    split_ifs at h with hknows
    exact heq ▸ hknows

theorem goes_of_copy {c : Clause} {r : Except Misuse Clause}
    (h : c.standardizeApart V = (r, V')) (J : Journal) : Goes V J V' J := by
  have hnames := (Clause.names_standardizeApart h).1
  refine ⟨⟨?_, Clause.varCount_le_standardizeApart h⟩, fun hV => ?_, fun _ h => Or.inl h⟩
  · rw [Vocabulary.symbolCount, Vocabulary.symbolCount, hnames]
  · obtain rfl : (Renaming.empty.cover c.vars V).vocabulary = V' := congrArg Prod.snd h
    exact Renaming.coherent_cover hV _ _

theorem Tried.goes {course : Course} (h : Tried P goal i θ V J V' J' course) : Goes V J V' J' := by
  obtain ⟨-, hcopy, hreport, -⟩ := h
  exact (goes_of_copy hcopy J).trans (goes_of_report hreport)

/-- Every step of every search goes on like that, also one that fails. -/
theorem Takes.goes (h : Takes P task V J s) : Goes V J s.vocabulary s.journal := by
  induction h with
  | exhausted _ hreport => exact goes_of_report hreport
  | exhaustedUnnamed _ _ => exact .refl _ _
  | unknown _ hcopy => exact goes_of_copy hcopy _
  | unnamed _ hcopy _ => exact goes_of_copy hcopy _
  | passed htried _ ih => exact htried.goes.trans ih
  | solved htried => exact htried.goes
  | blocked htried => exact htried.goes
  | bodySolution htried _ _ ih => exact htried.goes.trans ih
  | bodyFailed htried _ _ ih => exact htried.goes.trans ih
  | bodyExhausted htried _ _ _ ihbody ih => exact (htried.goes.trans ihbody).trans ih
  | resumed _ _ ih => exact ih
  | resumedExhausted _ _ _ ihbody ih => exact ihbody.trans ih
  | single _ ih => exact ih
  | opening _ ih => exact ih
  | paired _ _ ih => exact ih
  | pairedExhausted _ _ _ ihrest ih => exact ihrest.trans ih
  | firstEnded _ _ ih => exact ih
  | restBlocked _ _ _ ih => exact ih
  | restStepped _ _ _ _ _ ihfirst ihrest => exact ihfirst.trans ihrest
  | backtrackUnnamed _ _ _ _ _ _ ihfirst ihrest => exact ihfirst.trans ihrest
  | backtracked _ _ _ _ _ hreport _ ihfirst ihrest ih =>
    exact ((ihfirst.trans ihrest).trans (goes_of_report hreport)).trans ih

end Logs

section Fitness

variable {P : Program} {V V' : Vocabulary} {f remaining : Formula} {θ σ : Substitution}
  {node first : Node} {rest : Option Node}

/-- A formula that can be resolved and has its names. -/
structure Formula.Fit (V : Vocabulary) (f : Formula) : Prop where
  resolvable : f.isResolvable = true
  named : f.NamedIn V

/-- A program whose clauses have their names, and bodies that can be resolved where they have
heads. -/
structure Program.Fit (V : Vocabulary) (P : Program) : Prop where
  resolvable : ∀ c ∈ P.clauses, c.isGoal = true ∨ c.isResolvable = true
  named : ∀ c ∈ P.clauses, c.NamedIn V

/-- A node whose goals are fit. Nothing is asked of the substitutions in it. -/
def Node.Fit (V : Vocabulary) : Node → Prop
  | .ready goal _ _ => goal.NamedIn V
  | .inBody goal _ _ body => goal.NamedIn V ∧ body.Fit V
  | .single first => first.Fit V
  | .opening first remaining => first.Fit V ∧ remaining.Fit V
  | .paired first remaining rest => first.Fit V ∧ remaining.Fit V ∧ rest.Fit V

theorem Formula.Fit.mono (hf : f.Fit V) (h : V.Within V') : f.Fit V' :=
  ⟨hf.resolvable, h.knows hf.named⟩

theorem Program.Fit.mono (hP : P.Fit V) (h : V.Within V') : P.Fit V' :=
  ⟨hP.resolvable, fun c hc => h.knows (hP.named c hc)⟩

theorem Node.Fit.mono (hnode : node.Fit V) (h : V.Within V') : node.Fit V' := by
  induction node with
  | ready goal i parent => exact h.knows hnode
  | inBody goal i parent body ih => exact ⟨h.knows hnode.1, ih hnode.2⟩
  | single first ih => exact ih hnode
  | opening first remaining ih => exact ⟨ih hnode.1, hnode.2.mono h⟩
  | paired first remaining rest ihfirst ihrest =>
    exact ⟨ihfirst hnode.1, hnode.2.1.mono h, ihrest hnode.2.2⟩

theorem Node.fit_conjunction :
    (Node.conjunction first remaining rest).Fit V ↔
      first.Fit V ∧ remaining.Fit V ∧ ∀ r ∈ rest, r.Fit V := by
  cases rest with
  | none => simp [Node.conjunction, Node.Fit]
  | some r => simp [Node.conjunction, Node.Fit]

theorem Formula.Fit.exists_start (hf : f.Fit V) (θ : Substitution) :
    ∃ node, Node.start θ f = .ok node ∧ node.Fit V := by
  induction f using Formula.induction with
  | atom a =>
    have hgoal : (Node.ready a 0 θ).Fit V := namedIn_atom.mp hf.named
    exact ⟨_, by rw [Node.start], hgoal⟩
  | conj fs ih =>
    obtain ⟨hne, hresolvable⟩ := (isResolvable_conj fs).mp hf.resolvable
    have hfs : ∀ f ∈ fs, f.Fit V := fun f hf' => ⟨hresolvable f hf', namedIn_conj.mp hf.named f hf'⟩
    cases fs with
    | nil => exact absurd rfl hne
    | cons f fs =>
      obtain ⟨first, hfirst, hfit⟩ := ih f (by simp) (hfs f (by simp))
      rw [Node.start, Node.startOperands, hfirst]
      cases fs with
      | nil => exact ⟨_, rfl, hfit⟩
      | cons g gs =>
        have hrest : (Formula.conj (g :: gs)).Fit V :=
          ⟨(isResolvable_conj _).mpr ⟨by simp, fun h hh => (hfs h (List.mem_cons_of_mem f hh)).1⟩,
            namedIn_conj.mpr fun h hh => (hfs h (List.mem_cons_of_mem f hh)).2⟩
        exact ⟨_, rfl, hfit, hrest⟩
  | disj fs _ => simpa [isResolvable] using hf.resolvable
  | neg f _ => simpa [isResolvable] using hf.resolvable

theorem Node.Fit.reset (hnode : node.Fit V) (θ : Substitution) : (node.reset θ).Fit V := by
  induction node with
  | ready goal i parent => exact hnode
  | inBody goal i parent body _ => exact hnode.1
  | single first ih => exact ih hnode
  | opening first remaining ih => exact ⟨ih hnode.1, hnode.2⟩
  | paired first remaining rest ih _ => exact ⟨ih hnode.1, hnode.2.1⟩

theorem Node.exists_renew (hremaining : remaining.Fit V) (hrest : ∀ r ∈ rest, r.Fit V)
    (σ : Substitution) : ∃ node, Node.renew σ remaining rest = .ok node ∧ node.Fit V := by
  cases rest with
  | none => exact hremaining.exists_start σ
  | some r => exact ⟨_, rfl, (hrest r rfl).reset σ⟩

end Fitness

section Safety

variable {P : Program} {task : Task} {goal : Atom} {i : ℕ} {θ : Substitution} {V V' : Vocabulary}
  {J J' : Journal} {s : Step}

theorem report_ne_none {event : Event} (h : event.NamedIn V) : J.report V event ≠ none := by
  cases J with
  | closed => simp [Journal.report]
  | opened latest => simp [Journal.report, show V.knows _ _ = true from h]

theorem Program.Fit.namedIn_copy {rule copy : Clause} (hP : P.Fit V) (hrule : P.get? i = some rule)
    (hcopy : rule.standardizeApart V = (.ok copy, V')) : copy.NamedIn V' := by
  have hV : V.Within V' := (goes_of_copy hcopy .closed).within
  have hnamed := hV.knows (hP.named rule (Program.mem_of_get? hrule))
  have hsymbols : copy.symbols = rule.symbols := by
    obtain ⟨-, r, rfl, -⟩ := Clause.standardizeApart_ok hcopy
    exact Clause.symbols_relabelling r.image rule
  rw [Vocabulary.knows, Bool.and_eq_true] at hnamed
  rw [Clause.NamedIn, Vocabulary.knows, Bool.and_eq_true, hsymbols]
  exact ⟨hnamed.1, List.all_eq_true.mpr fun w hw => Clause.knowsVar_of_mem_copy hcopy hw⟩

theorem namedIn_attempt {copy : Clause} (hgoal : goal.NamedIn V) (hcopy : copy.NamedIn V) :
    (Attempt.make goal θ copy).event.NamedIn V := by
  cases copy with
  | goal body => exact hcopy
  | fact head =>
    have hevent := Vocabulary.knows_append.mpr ⟨hgoal, hcopy⟩
    simp only [Attempt.make, Clause.head?, Clause.body?]
    split <;> exact hevent
  | rule head body =>
    have hboth := Vocabulary.knows_append.mpr ⟨hgoal, hcopy⟩
    have hhead := Vocabulary.knows_append.mpr ⟨hgoal, (Vocabulary.knows_append.mp hcopy).1⟩
    simp only [Attempt.make, Clause.head?, Clause.body?]
    split
    · exact hhead
    · exact hboth

theorem Program.Fit.fit_body {rule : Clause} {head : Atom} {body : Formula} (hP : P.Fit V)
    (hrule : P.get? i = some rule) (hcopy : rule.standardizeApart V = (.ok (.rule head body), V')) :
    body.Fit V' := by
  refine ⟨?_, (Vocabulary.knows_append.mp (hP.namedIn_copy hrule hcopy)).2⟩
  obtain ⟨-, r, hr, -⟩ := Clause.standardizeApart_ok hcopy
  have hrename : (rule.rename r).isResolvable = body.isResolvable := by rw [← hr]; rfl
  have hgoal : rule.isGoal ≠ true := by
    intro h
    cases rule with
    | fact a => simp [Clause.isGoal] at h
    | rule a f => simp [Clause.isGoal] at h
    | goal f => simp [Clause.rename, Clause.mapTerms] at hr
  rw [← hrename, Clause.isResolvable_rename]
  exact (hP.resolvable rule (Program.mem_of_get? hrule)).resolve_left hgoal

theorem Tried.fit_course {course : Course} (h : Tried P goal i θ V J V' J' course) (hP : P.Fit V) :
    (∀ e, course ≠ .blocked e) ∧ ∀ child, course = .entered child → child.Fit V' := by
  obtain ⟨hrule, hcopy, -, htrial⟩ := h
  cases htrial with
  | headless body => exact ⟨by simp, by simp⟩
  | factMismatch _ => exact ⟨by simp, by simp⟩
  | ruleMismatch _ => exact ⟨by simp, by simp⟩
  | fact _ => exact ⟨by simp, by simp⟩
  | @blocked head body τ e _ hstart =>
    obtain ⟨node, hnode, -⟩ := (hP.fit_body hrule hcopy).exists_start τ
    simp [hnode] at hstart
  | @entered head body τ child _ hstart =>
    obtain ⟨node, hnode, hfit⟩ := (hP.fit_body hrule hcopy).exists_start τ
    obtain rfl : node = child := Except.ok.inj (hnode.symm.trans hstart)
    exact ⟨by simp, by simpa using hfit⟩

theorem Node.fit_renewed {first node : Node} {remaining : Formula} {rest : Option Node}
    {σ : Substitution} (h : (Node.conjunction first remaining rest).Fit V)
    (hs : s.node.Fit s.vocabulary) (hV : V.Within s.vocabulary)
    (hrenew : Node.renew σ remaining rest = .ok node) :
    (Node.paired s.node remaining node).Fit s.vocabulary := by
  obtain ⟨-, hremaining, hrest⟩ := Node.fit_conjunction.mp h
  obtain ⟨node', hnode, hfit⟩ := Node.exists_renew hremaining hrest σ
  obtain rfl : node' = node := Except.ok.inj (hnode.symm.trans hrenew)
  exact ⟨hs, hremaining.mono hV, hfit.mono hV⟩

/-- A step of a fit search does not fail and leaves a fit node. -/
theorem Takes.fit (h : Takes P task V J s) (hP : P.Fit V) (htask : (Node.ofTask task).Fit V) :
    s.node.Fit s.vocabulary ∧ ∀ e, s.outcome ≠ .failed e := by
  induction h with
  | exhausted _ _ => exact ⟨htask, by simp⟩
  | exhaustedUnnamed _ hreport => exact absurd hreport (report_ne_none htask)
  | @unknown goal i parent V V' J rule e hrule hcopy =>
    have hknown := hP.named rule (Program.mem_of_get? hrule)
    rw [Clause.NamedIn, Vocabulary.knows, Bool.and_eq_true, List.all_eq_true, List.all_eq_true]
      at hknown
    obtain ⟨copy, V'', hcopy'⟩ := Clause.exists_copy hknown.2
    simp [hcopy'] at hcopy
  | unnamed hrule hcopy hreport =>
    have hgoal := (goes_of_copy hcopy .closed).within.knows htask
    exact absurd hreport (report_ne_none (namedIn_attempt hgoal (hP.namedIn_copy hrule hcopy)))
  | passed htried _ ih =>
    have hV := htried.goes.within
    exact ih (hP.mono hV) (htask.mono hV)
  | solved htried => exact ⟨htask.mono htried.goes.within, by simp⟩
  | blocked htried => exact absurd rfl ((htried.fit_course hP).1 _)
  | bodySolution htried hbody hs ih =>
    have hV := htried.goes.within
    obtain ⟨hchild, hout⟩ := ih (hP.mono hV) ((htried.fit_course hP).2 _ rfl)
    exact ⟨⟨htask.mono (hV.trans hbody.goes.within), hchild⟩, hout⟩
  | bodyFailed htried _ hs ih =>
    have hchild := (htried.fit_course hP).2 _ rfl
    exact absurd hs ((ih (hP.mono htried.goes.within) hchild).2 _)
  | bodyExhausted htried hbody _ _ _ ih =>
    have hV := htried.goes.within.trans hbody.goes.within
    exact ih (hP.mono hV) (htask.mono hV)
  | resumed hbody _ ih =>
    obtain ⟨hchild, hout⟩ := ih hP htask.2
    exact ⟨⟨hbody.goes.within.knows htask.1, hchild⟩, hout⟩
  | resumedExhausted hbody _ _ _ ih =>
    have hV := hbody.goes.within
    exact ih (hP.mono hV) (hV.knows htask.1)
  | single _ ih => exact ih hP htask
  | opening _ ih => exact ih hP htask
  | paired hrest _ ih =>
    have hV := hrest.goes.within
    obtain ⟨hnode, hout⟩ := ih hP htask.2.2
    exact ⟨⟨htask.1.mono hV, htask.2.1.mono hV, hnode⟩, hout⟩
  | pairedExhausted hrest _ _ ihrest ih =>
    have hV := hrest.goes.within
    obtain ⟨hnode, -⟩ := ihrest hP htask.2.2
    exact ih (hP.mono hV) ⟨htask.1.mono hV, htask.2.1.mono hV, hnode⟩
  | firstEnded hfirst _ ih =>
    have hV := hfirst.goes.within
    obtain ⟨hfit, hremaining, hrest⟩ := Node.fit_conjunction.mp htask
    obtain ⟨hnode, hout⟩ := ih hP hfit
    exact ⟨Node.fit_conjunction.mpr ⟨hnode, hremaining.mono hV, fun r hr => (hrest r hr).mono hV⟩,
      hout⟩
  | @restBlocked first remaining rest V J s σ e _ _ hrenew _ =>
    obtain ⟨-, hremaining, hrest⟩ := Node.fit_conjunction.mp htask
    obtain ⟨node, hnode, -⟩ := Node.exists_renew hremaining hrest σ
    simp [hnode] at hrenew
  | restStepped hfirst _ hrenew hrest _ ihfirst ihrest =>
    have hV := hfirst.goes.within
    obtain ⟨hs, -⟩ := ihfirst hP (Node.fit_conjunction.mp htask).1
    obtain ⟨hnode, hremaining, hfit⟩ := Node.fit_renewed htask hs hV hrenew
    obtain ⟨hr, hout⟩ := ihrest (hP.mono hV) hfit
    exact ⟨⟨hnode.mono hrest.goes.within, hremaining.mono hrest.goes.within, hr⟩, hout⟩
  | backtrackUnnamed hfirst _ hrenew hrest _ hreport ihfirst _ =>
    obtain ⟨hs, -⟩ := ihfirst hP (Node.fit_conjunction.mp htask).1
    obtain ⟨-, hremaining, -⟩ := Node.fit_renewed htask hs hfirst.goes.within hrenew
    exact absurd hreport (report_ne_none (hremaining.mono hrest.goes.within).named)
  | backtracked hfirst _ hrenew hrest _ _ _ ihfirst ihrest ih =>
    have hV := hfirst.goes.within
    have hV' := hrest.goes.within
    obtain ⟨hs, -⟩ := ihfirst hP (Node.fit_conjunction.mp htask).1
    obtain ⟨hnode, hremaining, hfit⟩ := Node.fit_renewed htask hs hV hrenew
    obtain ⟨hr, -⟩ := ihrest (hP.mono hV) hfit
    exact ih (hP.mono (hV.trans hV')) ⟨hnode.mono hV', hremaining.mono hV', hr⟩

end Safety

/-- Any parents are given, and the tables may grow. -/
def Conduct.growing : Conduct := ⟨fun _ _ => True, fun V V' => V.Within V' ∧ V'.Coherent⟩

theorem History.fit {P : Program} {goal : Formula} {V : Vocabulary} {u : Usage}
    (h : History P .growing goal V u) (hV : V.Coherent) (hP : P.Fit V) (hgoal : goal.Fit V) :
    u.node.Fit u.vocabulary ∧ u.vocabulary.Coherent ∧ V.Within u.vocabulary := by
  refine h.invariant
    (fun u => u.node.Fit u.vocabulary ∧ u.vocabulary.Coherent ∧ V.Within u.vocabulary) ?_ ?_
  · intro θ node _ h
    obtain ⟨node', hnode, hfit⟩ := hgoal.exists_start θ
    obtain rfl : node' = node := Except.ok.inj (hnode.symm.trans h)
    exact ⟨hfit, hV, .refl V⟩
  · rintro deed u u' hdoes ⟨hfit, hcoherent, hwithin⟩
    cases hdoes with
    | ask hs =>
      have htakes := takes_of_next hs
      exact ⟨(htakes.fit (hP.mono hwithin) hfit).1, htakes.goes.coherent hcoherent,
        hwithin.trans htakes.goes.within⟩
    | give _ => exact ⟨hfit.reset _, hcoherent, hwithin⟩
    | wait hgrown => exact ⟨hfit.mono hgrown.1, hgrown.2, hwithin.trans hgrown.1⟩

/-- Resolvable programs do not fail. If the bodies of the clauses with heads and the goal are
resolvable and everything in the program and the goal stands in the tables, the goal can be
started under every parent, and in every run no call that comes back has failed, whether or not
it was logged: no body or goal is refused, no rule is looked up in vain, and neither is a
variable when a rule is copied nor a name when an event is written. -/
theorem resolvable_never_fails {P : Program} {goal : Formula} {V : Vocabulary} (hV : V.Coherent)
    (hP : P.Fit V) (hgoal : goal.Fit V) :
    (∀ θ, ∃ node, Node.start θ goal = .ok node) ∧
      ∀ {u : Usage}, History P .growing goal V u →
        ∀ {depth : ℕ} {J : Journal} {s : Step}, u.node.next P depth u.vocabulary J = some s →
          (∀ e, s.outcome ≠ .failed e) ∧
            ∀ event ∈ s.journal.events, event ∈ J.events ∨
              (∀ x ∈ event.symbols, (s.vocabulary.name? x).isSome) ∧
                ∀ v ∈ event.occurrences, (s.vocabulary.varName? v).isSome := by
  constructor
  · intro θ
    obtain ⟨node, hnode, -⟩ := hgoal.exists_start θ
    exact ⟨node, hnode⟩
  · intro u hu depth J s h
    obtain ⟨hfit, hcoherent, hwithin⟩ := hu.fit hV hP hgoal
    have htakes := takes_of_next h
    refine ⟨(htakes.fit (hP.mono hwithin) hfit).2, fun event hevent => ?_⟩
    exact (htakes.goes.events event hevent).imp_right (htakes.goes.coherent hcoherent).isSome_names

/-- A rule, a fact for the atoms of its body, and a clause without a head that could not be
resolved. -/
def soundRules : Program := .ofList
  [.goal (.neg (.disj [])),
    .rule ⟨⟨0⟩, [.var ⟨0⟩]⟩ (.conj [.atom ⟨⟨1⟩, [.var ⟨0⟩]⟩, .atom ⟨⟨1⟩, [.const ⟨2⟩]⟩]),
    .fact ⟨⟨1⟩, [.const ⟨2⟩]⟩]

def soundGoal : Formula := .conj [.atom ⟨⟨0⟩, [.var ⟨0⟩]⟩]

def soundNames : Vocabulary := { names := #["p", "q", "a", "x"], varNames := #[⟨3⟩] }

def soundNode : Node := .single (.ready ⟨⟨0⟩, [.var ⟨0⟩]⟩ 0 .empty)

theorem resolvable_never_fails_soundRules :
    Node.start .empty soundGoal = .ok soundNode ∧
      (soundNode.next soundRules 9 soundNames .blank).isSome ∧
      ∀ depth s, soundNode.next soundRules depth soundNames .blank = some s →
        (∀ e, s.outcome ≠ .failed e) ∧ ∀ event ∈ s.journal.events,
          (∀ x ∈ event.symbols, (s.vocabulary.name? x).isSome) ∧
            ∀ v ∈ event.occurrences, (s.vocabulary.varName? v).isSome := by
  have hV : soundNames.Coherent := by decide
  have hP : soundRules.Fit soundNames := ⟨by decide, by decide⟩
  have hgoal : soundGoal.Fit soundNames := ⟨by decide, by decide⟩
  have hstart : Node.start .empty soundGoal = .ok soundNode := rfl
  refine ⟨hstart, by decide, ?_⟩
  intro depth s h
  obtain ⟨hout, hevents⟩ := (resolvable_never_fails hV hP hgoal).2 (.start trivial hstart) h
  refine ⟨hout, fun event hevent => (hevents event hevent).resolve_left ?_⟩
  simp [Journal.blank, Journal.events]

end HornResolution
