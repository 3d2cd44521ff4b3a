import HornResolution.Proofs.Outlines
import HornResolution.Proofs.VocabularyTables

/-!
# A text shows one outline

Names in which no parenthesis, comma, semicolon or backslash occurs can be read off a text: a name
goes on until one of these characters or the end of the text. So can what is built from them. What
follows an argument or an operand is a separator, a closing parenthesis or nothing, so two of them
with the same text are the same and end at the same place. Two formulas with the same text
therefore have the same outline.
-/

namespace HornResolution

/-- The characters at which a name ends. -/
def delimiters : List Char := ['(', ')', ',', ';', '\\']

/-- The characters with which the text after an argument or an operand begins. -/
def endings : List Char := [')', ',', ';']

structure PlainName (name : String) : Prop where
  nonempty : name ≠ ""
  plain : ∀ c ∈ name.toList, c ∉ delimiters

theorem not_mem_delimiters {c : Char} (h : c.isAlphanum = true ∨ c = '_') : c ∉ delimiters := by
  intro hc
  simp only [delimiters, List.mem_cons, List.not_mem_nil, or_false] at hc
  rcases hc with rfl | rfl | rfl | rfl | rfl <;> simp at h

/-- The text is empty or begins with one of the characters. -/
def StartsIn (cs : List Char) (text : List Char) : Prop := ∀ c ∈ text.head?, c ∈ cs

theorem startsIn_nil (cs : List Char) : StartsIn cs [] := nofun

theorem startsIn_cons {cs : List Char} {c : Char} {text : List Char} :
    StartsIn cs (c :: text) ↔ c ∈ cs := by
  simp [StartsIn]

theorem StartsIn.mono {cs ds text : List Char} (h : StartsIn cs text) (hsub : cs ⊆ ds) :
    StartsIn ds text := fun c hc => hsub (h c hc)

theorem takeWhile_plain {name : String} (hname : PlainName name) {r : List Char}
    (hr : StartsIn delimiters r) :
    (name.toList ++ r).takeWhile (fun c => decide (c ∉ delimiters)) = name.toList := by
  rw [List.takeWhile_append_of_pos (by simpa using hname.plain)]
  cases r with
  | nil => simp
  | cons c r =>
    have hc : c ∈ delimiters := startsIn_cons.mp hr
    simp [hc]

theorem PlainName.cancel {name name' : String} (h : PlainName name) (h' : PlainName name')
    {r s : List Char} (hr : StartsIn delimiters r) (hs : StartsIn delimiters s)
    (heq : name.toList ++ r = name'.toList ++ s) : name = name' ∧ r = s := by
  have hname : name.toList = name'.toList := by
    rw [← takeWhile_plain h hr, heq, takeWhile_plain h' hs]
  rw [hname] at heq
  exact ⟨String.toList_inj.mp hname, List.append_cancel_left heq⟩

section Separated

variable {α : Type} {text : α → String} {P : α → Prop} {separator : String} {as bs : List α}
  {a b : α} {r s : List Char}

/-- Whatever may follow it, the text of `a` is that of no other value with `P` and ends where it
ends. -/
def ToldApart (text : α → String) (P : α → Prop) (a : α) : Prop :=
  ∀ ⦃b r s⦄, P b → StartsIn endings r → StartsIn endings s →
    (text a).toList ++ r = (text b).toList ++ s → a = b ∧ r = s

/-- What comes after the first of several texts: each of the others with a separator before it. -/
def following (separator : String) (text : α → String) (as : List α) : List Char :=
  as.flatMap fun a => separator.toList ++ (text a).toList

theorem following_cons_append (separator : String) (text : α → String) (a : α) (as : List α)
    (r : List Char) :
    following separator text (a :: as) ++ r =
      separator.toList ++ ((text a).toList ++ (following separator text as ++ r)) := by
  simp only [following, List.flatMap_cons, List.append_assoc]

theorem toList_separated (separator : String) (text : α → String) (a : α) (as : List α) :
    (separator.intercalate ((a :: as).map text)).toList =
      (text a).toList ++ following separator text as := by
  induction as generalizing a with
  | nil => simp [following]
  | cons b as ih =>
    have hrest := ih b
    rw [String.toList_intercalate, List.map_cons, List.map_cons] at hrest
    rw [String.toList_intercalate, List.map_cons, List.map_cons, List.map_cons, List.map_cons,
      List.intercalate_cons_cons, hrest]
    simp only [following, List.flatMap_cons, List.append_assoc]

/-- A separator begins with a mark that does not close anything. -/
def IsSeparator (separator : String) : Prop :=
  ∃ mark gap, separator.toList = mark :: gap ∧ mark ∈ endings ∧ mark ≠ ')'

theorem startsIn_following (hsep : IsSeparator separator) (as : List α)
    (hr : StartsIn [')'] r) : StartsIn endings (following separator text as ++ r) := by
  obtain ⟨mark, gap, hmark, hending, -⟩ := hsep
  cases as with
  | nil => exact hr.mono (by decide)
  | cons a as =>
    rw [following_cons_append, hmark]
    exact startsIn_cons.mpr hending

theorem following_ne (hsep : IsSeparator separator) (a : α) (as : List α)
    (hr : StartsIn [')'] r) : following separator text (a :: as) ++ s ≠ r := by
  obtain ⟨mark, gap, hmark, -, hopen⟩ := hsep
  rintro rfl
  rw [following_cons_append, hmark] at hr
  exact hopen (List.mem_singleton.mp (startsIn_cons.mp hr))

theorem following_cancel (hsep : IsSeparator separator) (has : ∀ a ∈ as, ToldApart text P a)
    (hbs : ∀ b ∈ bs, P b) (hr : StartsIn [')'] r) (hs : StartsIn [')'] s)
    (heq : following separator text as ++ r = following separator text bs ++ s) :
    as = bs ∧ r = s := by
  -- Either list goes on exactly if a mark comes next, and what follows a list is no mark.
  induction as generalizing bs with
  | nil =>
    cases bs with
    | nil => exact ⟨rfl, heq⟩
    | cons b bs => exact absurd heq.symm (following_ne hsep b bs hr)
  | cons a as ih =>
    cases bs with
    | nil => exact absurd heq (following_ne hsep a as hs)
    | cons b bs =>
      rw [following_cons_append, following_cons_append] at heq
      obtain ⟨rfl, hrest⟩ := has a (by simp) (hbs b (by simp)) (startsIn_following hsep as hr)
        (startsIn_following hsep bs hs) (List.append_cancel_left heq)
      obtain ⟨rfl, hrs⟩ := ih (fun a ha => has a (by simp [ha])) (fun b hb => hbs b (by simp [hb]))
        hrest
      exact ⟨rfl, hrs⟩

theorem toList_applied_cons (name : String) (text : α → String) (a : α) (as : List α)
    (r : List Char) :
    (applied name ((a :: as).map text)).toList ++ r =
      name.toList ++ '(' :: ((text a).toList ++ (following "," text as ++ ')' :: r)) := by
  have hargs : ((a :: as).map text).isEmpty = false := rfl
  have hopen : "(".toList = ['('] := rfl
  have hclose : ")".toList = [')'] := rfl
  rw [applied, hargs]
  simp only [Bool.false_eq_true, if_false, String.toList_append, toList_separated, hopen, hclose,
    List.append_assoc, List.cons_append, List.nil_append]

theorem applied_cancel {name name' : String} (hname : PlainName name) (hname' : PlainName name')
    (has : ∀ a ∈ as, ToldApart text P a) (hbs : ∀ b ∈ bs, P b) (hr : StartsIn endings r)
    (hs : StartsIn endings s)
    (heq : (applied name (as.map text)).toList ++ r = (applied name' (bs.map text)).toList ++ s) :
    (name = name' ∧ as = bs) ∧ r = s := by
  have hcomma : IsSeparator "," := ⟨',', [], rfl, by decide, by decide⟩
  have hopen {x : List Char} : StartsIn delimiters ('(' :: x) := startsIn_cons.mpr (by decide)
  have hclose {x : List Char} : StartsIn [')'] (')' :: x) := startsIn_cons.mpr (by simp)
  have hsub : endings ⊆ delimiters := by decide
  have hnot : '(' ∉ endings := by decide
  match as, bs with
  | [], [] =>
    obtain ⟨rfl, hrs⟩ := hname.cancel hname' (hr.mono hsub) (hs.mono hsub) heq
    exact ⟨⟨rfl, rfl⟩, hrs⟩
  | [], b :: bs =>
    rw [toList_applied_cons] at heq
    obtain ⟨-, rfl⟩ := hname.cancel hname' (hr.mono hsub) hopen heq
    exact absurd (startsIn_cons.mp hr) hnot
  | a :: as, [] =>
    rw [toList_applied_cons] at heq
    obtain ⟨-, rfl⟩ := hname.cancel hname' hopen (hs.mono hsub) heq
    exact absurd (startsIn_cons.mp hs) hnot
  | a :: as, b :: bs =>
    rw [toList_applied_cons, toList_applied_cons] at heq
    obtain ⟨rfl, hargs⟩ := hname.cancel hname' hopen hopen heq
    obtain ⟨rfl, hothers⟩ := has a (by simp) (hbs b (by simp)) (startsIn_following hcomma as hclose)
      (startsIn_following hcomma bs hclose) (List.cons.inj hargs).2
    obtain ⟨rfl, hafter⟩ := following_cancel hcomma (fun a ha => has a (by simp [ha]))
      (fun b hb => hbs b (by simp [hb])) hclose hclose hothers
    exact ⟨⟨rfl, rfl⟩, (List.cons.inj hafter).2⟩

theorem PlainName.applied_ne {name : String} (hname : PlainName name) {d : Char}
    (hd : d ∈ delimiters) (args : List String) : (applied name args).toList ++ r ≠ d :: s := by
  obtain ⟨rest, hrest⟩ : ∃ rest, (applied name args).toList = name.toList ++ rest := by
    rw [applied]
    split
    · exact ⟨[], (List.append_nil _).symm⟩
    · exact ⟨_, by rw [String.append_assoc, String.append_assoc, String.toList_append]⟩
  obtain ⟨c, cs, hcs⟩ : ∃ c cs, name.toList = c :: cs :=
    List.exists_cons_of_ne_nil fun hnil => hname.nonempty (String.toList_eq_nil_iff.mp hnil)
  rw [hrest, hcs]
  rintro heq
  obtain ⟨rfl, -⟩ := List.cons.inj heq
  exact hname.plain c (by simp [hcs]) hd

end Separated

inductive TermOutline.Plain : TermOutline → Prop
  | node {name : String} {args : List TermOutline} (hname : PlainName name)
      (hargs : ∀ t ∈ args, Plain t) : Plain (.node name args)

theorem TermOutline.Plain.toldApart {t : TermOutline} (ht : t.Plain) : ToldApart text Plain t := by
  induction ht with
  | node hname hargs ih =>
    intro u r s hu hr hs heq
    cases hu with
    | node hname' hargs' =>
      rw [text_node, text_node] at heq
      obtain ⟨⟨rfl, rfl⟩, hrs⟩ := applied_cancel hname hname' ih hargs' hr hs heq
      exact ⟨rfl, hrs⟩

namespace Connective

/-- The character with which a separator begins. -/
def mark : Connective → Char
  | .and => ','
  | .or => ';'

theorem toList_separator (c : Connective) : c.separator.toList = [c.mark, ' '] := by
  cases c <;> rfl

theorem isSeparator (c : Connective) : IsSeparator c.separator :=
  ⟨c.mark, [' '], c.toList_separator, by cases c <;> decide, by cases c <;> decide⟩

theorem mark_inj {c d : Connective} (h : c.mark = d.mark) : c = d := by
  revert h
  cases c <;> cases d <;> decide

end Connective

namespace Outline

/-- All names are plain, and every connective is over two or more operands. -/
inductive Proper : Outline → Prop
  | atom {name : String} {args : List TermOutline} (hname : PlainName name)
      (hargs : ∀ t ∈ args, t.Plain) : Proper (.atom name args)
  | join {c : Connective} {o p : Outline} {os : List Outline}
      (hoperands : ∀ x ∈ o :: p :: os, Proper x) : Proper (.join c (o :: p :: os))
  | neg {o : Outline} (hoperand : Proper o) : Proper (.neg o)

section Reading

variable {c d : Connective} {o p q u : Outline} {os us : List Outline} {r s : List Char}

theorem toList_chainText (c : Connective) (o : Outline) (os : List Outline) :
    (chainText c (o :: os)).toList =
      o.operandText.toList ++ following c.separator operandText os := by
  rw [chainText, toList_separated]

theorem toList_operandText_join (c : Connective) (os : List Outline) (r : List Char) :
    (join c os).operandText.toList ++ r = '(' :: ((chainText c os).toList ++ ')' :: r) := by
  have hopen : "(".toList = ['('] := rfl
  have hclose : ")".toList = [')'] := rfl
  rw [operandText_join, String.toList_append, String.toList_append, hopen, hclose]
  simp only [List.append_assoc, List.cons_append, List.nil_append]

theorem toList_operandText_neg (o : Outline) (r : List Char) :
    (neg o).operandText.toList ++ r = '\\' :: '+' :: ' ' :: (o.operandText.toList ++ r) := by
  rw [operandText, String.toList_append]
  rfl

theorem chain_cancel (hos : ∀ x ∈ o :: p :: os, ToldApart operandText Proper x)
    (hus : ∀ x ∈ q :: u :: us, Proper x) (hr : StartsIn [')'] r) (hs : StartsIn [')'] s)
    (heq : (chainText c (o :: p :: os)).toList ++ r = (chainText d (q :: u :: us)).toList ++ s) :
    (c = d ∧ o :: p :: os = q :: u :: us) ∧ r = s := by
  rw [toList_chainText, toList_chainText, List.append_assoc, List.append_assoc] at heq
  obtain ⟨rfl, hothers⟩ := hos o (by simp) (hus q (by simp))
    (startsIn_following c.isSeparator _ hr) (startsIn_following d.isSeparator _ hs) heq
  have hmark : c.mark = d.mark := by
    rw [following_cons_append, following_cons_append, c.toList_separator, d.toList_separator]
      at hothers
    exact (List.cons.inj hothers).1
  obtain rfl := Connective.mark_inj hmark
  obtain ⟨hlist, hrs⟩ := following_cancel c.isSeparator (fun x hx => hos x (by simp [hx]))
    (fun x hx => hus x (List.mem_cons_of_mem _ hx)) hr hs hothers
  exact ⟨⟨rfl, by rw [hlist]⟩, hrs⟩

theorem Proper.toldApart (ho : o.Proper) : ToldApart operandText Proper o := by
  induction ho with
  | atom hname hargs =>
    intro p r s hp hr hs heq
    cases hp with
    | atom hname' hargs' =>
      rw [operandText, operandText] at heq
      obtain ⟨⟨rfl, rfl⟩, hrs⟩ :=
        applied_cancel hname hname' (fun t ht => (hargs t ht).toldApart) hargs' hr hs heq
      exact ⟨rfl, hrs⟩
    | join _ =>
      rw [operandText, toList_operandText_join] at heq
      exact absurd heq (hname.applied_ne (by decide) _)
    | neg _ =>
      rw [operandText, toList_operandText_neg] at heq
      exact absurd heq (hname.applied_ne (by decide) _)
  | join _ ih =>
    intro p r s hp hr hs heq
    rw [toList_operandText_join] at heq
    cases hp with
    | atom hname _ =>
      rw [operandText] at heq
      exact absurd heq.symm (hname.applied_ne (by decide) _)
    | join hoperands =>
      rw [toList_operandText_join] at heq
      obtain ⟨⟨rfl, hlist⟩, hrs⟩ := chain_cancel ih hoperands (startsIn_cons.mpr (by simp))
        (startsIn_cons.mpr (by simp)) (List.cons.inj heq).2
      exact ⟨by rw [hlist], (List.cons.inj hrs).2⟩
    | neg _ =>
      rw [toList_operandText_neg] at heq
      exact absurd (List.cons.inj heq).1 (by decide)
  | neg _ ih =>
    intro p r s hp hr hs heq
    rw [toList_operandText_neg] at heq
    cases hp with
    | atom hname _ =>
      rw [operandText] at heq
      exact absurd heq.symm (hname.applied_ne (by decide) _)
    | join _ =>
      rw [toList_operandText_join] at heq
      exact absurd (List.cons.inj heq).1 (by decide)
    | neg hoperand =>
      rw [toList_operandText_neg] at heq
      obtain ⟨rfl, hrs⟩ := ih hoperand hr hs (by simpa using heq)
      exact ⟨rfl, hrs⟩

theorem Proper.operandText_ne_chainText (ho : o.Proper) (hus : ∀ x ∈ q :: u :: us, Proper x) :
    o.operandText.toList ≠ (chainText c (q :: u :: us)).toList := by
  intro heq
  have hafter : StartsIn endings (following c.separator operandText (u :: us) ++ []) :=
    startsIn_following c.isSeparator _ (startsIn_nil _)
  have htexts : o.operandText.toList ++ [] =
      q.operandText.toList ++ (following c.separator operandText (u :: us) ++ []) := by
    rw [List.append_nil, List.append_nil, heq, toList_chainText]
  obtain ⟨-, hnil⟩ := ho.toldApart (hus q (by simp)) (startsIn_nil _) hafter htexts
  exact following_ne c.isSeparator u us (startsIn_nil _) hnil.symm

theorem Proper.operands (h : (Outline.join c os).Proper) : ∀ x ∈ os, Proper x := by
  cases h with
  | join hoperands => exact hoperands

/-- A text belongs to one outline. -/
theorem WrittenAs.unique {x y : String} (hx : o.WrittenAs x) (ho : o.Proper) (hp : p.Proper)
    (hy : p.WrittenAs y) (heq : x.toList = y.toList) : o = p := by
  cases hx with
  | operand _ =>
    cases hy with
    | operand _ =>
      exact (ho.toldApart hp (startsIn_nil _) (startsIn_nil _) (by simpa using heq)).1
    | chain _ _ _ _ => exact absurd heq (ho.operandText_ne_chainText hp.operands)
  | chain _ _ _ _ =>
    cases hy with
    | operand _ => exact absurd heq.symm (hp.operandText_ne_chainText ho.operands)
    | chain _ _ _ _ =>
      obtain ⟨⟨rfl, hlist⟩, -⟩ := chain_cancel (fun x hx => (ho.operands x hx).toldApart)
        hp.operands (startsIn_nil _) (startsIn_nil _) (by simpa using heq)
      rw [hlist]

end Reading

end Outline

section Names

variable {N : Naming}

/-- The names with which a formula is written. -/
def Formula.names (N : Naming) (f : Formula) : List String :=
  f.symbols.map N.symbol ++ f.occurrences.map N.var

theorem Term.plain_outline {t : Term} (hsymbols : ∀ s ∈ t.symbols, PlainName (N.symbol s))
    (hvars : ∀ v ∈ t.occurrences, PlainName (N.var v)) : (t.outline N).Plain := by
  induction t using Term.induction with
  | var v =>
    rw [outline_var]
    exact .node (hvars v (by simp)) (by simp)
  | app f args ih =>
    rw [outline_app]
    refine .node (hsymbols f (by simp)) fun o ho => ?_
    obtain ⟨t, ht, rfl⟩ := List.mem_map.mp ho
    refine ih t ht (fun s hs => hsymbols s ?_) fun v hv => hvars v ?_
    · rw [symbols_app]
      exact List.mem_cons_of_mem f (List.mem_flatMap.mpr ⟨t, ht, hs⟩)
    · rw [occurrences_app]
      exact List.mem_flatMap.mpr ⟨t, ht, hv⟩

theorem Atom.proper_outline {a : Atom} (hsymbols : ∀ s ∈ a.symbols, PlainName (N.symbol s))
    (hvars : ∀ v ∈ a.occurrences, PlainName (N.var v)) : (a.outline N).Proper := by
  refine .atom (hsymbols a.symbol (.head _)) fun o ho => ?_
  obtain ⟨t, ht, rfl⟩ := List.mem_map.mp ho
  exact Term.plain_outline
    (fun s hs => hsymbols s (List.mem_cons_of_mem _ (List.mem_flatMap.mpr ⟨t, ht, hs⟩)))
    fun v hv => hvars v (List.mem_flatMap.mpr ⟨t, ht, hv⟩)

namespace Formula

theorem atoms_joined (c : Connective) (fs : List Formula) :
    (joined c fs).atoms = fs.flatMap atoms := by
  cases c <;> rw [joined, atoms, atomsAll_eq_flatMap]

theorem proper_joined (c : Connective) {fs : List Formula} (hne : fs ≠ [])
    (h : ∀ f ∈ fs, (f.outline N).Proper) : ((joined c fs).outline N).Proper := by
  rw [outline_joined]
  match fs with
  | [] => exact absurd rfl hne
  | [f] => exact h f (by simp)
  | f :: g :: fs =>
    have hoperands : ∀ o ∈ (f :: g :: fs).map (outline N), o.Proper := List.forall_mem_map.mpr h
    exact .join hoperands

theorem proper_outline {f : Formula} (hf : f.isFilled = true)
    (hatoms : ∀ a ∈ f.atoms, (a.outline N).Proper) : (f.outline N).Proper := by
  induction f using Formula.induction with
  | atom a => exact hatoms a (by simp [atoms])
  | conj fs ih =>
    obtain ⟨hne, hfs⟩ := isFilled_joined (c := .and).mp hf
    exact proper_joined .and hne fun f hf => ih f hf (hfs f hf) fun a ha =>
      hatoms a (atoms_joined .and fs ▸ List.mem_flatMap.mpr ⟨f, hf, ha⟩)
  | disj fs ih =>
    obtain ⟨hne, hfs⟩ := isFilled_joined (c := .or).mp hf
    exact proper_joined .or hne fun f hf => ih f hf (hfs f hf) fun a ha =>
      hatoms a (atoms_joined .or fs ▸ List.mem_flatMap.mpr ⟨f, hf, ha⟩)
  | neg f ih => exact .neg (ih hf hatoms)

theorem proper_of_names {f : Formula} (hf : f.isFilled = true)
    (hnames : ∀ name ∈ f.names N, PlainName name) : (f.outline N).Proper := by
  refine proper_outline hf fun a ha => Atom.proper_outline (fun s hs => hnames _ ?_) fun v hv =>
    hnames _ ?_
  · exact List.mem_append_left _ (List.mem_map_of_mem (List.mem_flatMap.mpr ⟨a, ha, hs⟩))
  · exact List.mem_append_right _ (List.mem_map_of_mem (List.mem_flatMap.mpr ⟨a, ha, hv⟩))

end Formula

theorem Vocabulary.Consistent.names_ne_empty {V : Vocabulary} (hV : V.Consistent) {f : Formula}
    {name : String} (hname : name ∈ f.names V.naming) : name ≠ "" := by
  have hsymbol {s : Symbol} {name : String} (h : V.name? s = some name) : name ≠ "" :=
    hV.nonempty name (Array.mem_toList_iff.mpr (Array.mem_of_getElem? h))
  rcases List.mem_append.mp hname with h | h
  · obtain ⟨s, -, rfl⟩ := List.mem_map.mp h
    cases hs : V.name? s with
    | none => simp [naming, hs, Symbol.label]
    | some name => simpa [naming, hs] using hsymbol hs
  · obtain ⟨v, -, rfl⟩ := List.mem_map.mp h
    cases hv : V.varName? v with
    | none => simp [naming, hv, Var.label]
    | some name =>
      obtain ⟨s, -, hs⟩ := Option.bind_eq_some_iff.mp hv
      simpa [naming, hv] using hsymbol hs

theorem Formula.render_of_text? {V : Vocabulary} {f : Formula} {text : String}
    (h : f.text? V = some text) : f.render V.naming = text := by
  rw [text?, Vocabulary.text?] at h
  split_ifs at h
  exact Option.some.inj h

end Names

/-- Two formulas in which no connective is empty, and whose names are free of delimiters, as names
of letters, digits and underscores are, have the same text in a vocabulary only if they have the
same outline: they are the same once every connective over a single operand is replaced by the
operand and every symbol and every variable by its name. -/
theorem Formula.outline_eq_of_text_eq (requests : List Vocabulary.Request) {V : Vocabulary}
    (hV : (Registry.serveAll requests Vocabulary.empty).2 = V) {f g : Formula}
    (hf : f.isFilled = true) (hg : g.isFilled = true)
    (hfnames : ∀ name ∈ f.names V.naming, ∀ c ∈ name.toList, c ∉ delimiters)
    (hgnames : ∀ name ∈ g.names V.naming, ∀ c ∈ name.toList, c ∉ delimiters) {text : String}
    (hftext : f.text? V = some text) (hgtext : g.text? V = some text) :
    f.outline V.naming = g.outline V.naming := by
  have hconsistent : V.Consistent := hV ▸ Vocabulary.consistent_empty.serveAll requests
  have hfproper : (f.outline V.naming).Proper :=
    proper_of_names hf fun name h => ⟨hconsistent.names_ne_empty h, hfnames name h⟩
  have hgproper : (g.outline V.naming).Proper :=
    proper_of_names hg fun name h => ⟨hconsistent.names_ne_empty h, hgnames name h⟩
  have heq : f.render V.naming = g.render V.naming :=
    (render_of_text? hftext).trans (render_of_text? hgtext).symm
  exact (writtenAs hf).unique hfproper hgproper (writtenAs hg) (congrArg String.toList heq)

/-- A variable and a symbol are both called `x`. -/
def oneName : Vocabulary :=
  (Registry.serveAll [.declare "x", .intern "p", .intern "is_q2"] Vocabulary.empty).2

def variableFirst : Formula :=
  .conj [.neg (.disj [.atom ⟨⟨1⟩, [.var ⟨0⟩]⟩, .atom ⟨⟨2⟩, []⟩]),
    .conj [.atom ⟨⟨1⟩, [.app ⟨1⟩ [.app ⟨0⟩ []]]⟩]]

def constantFirst : Formula :=
  .conj [.disj [.neg (.disj [.atom ⟨⟨1⟩, [.app ⟨0⟩ []]⟩, .atom ⟨⟨2⟩, []⟩])],
    .atom ⟨⟨1⟩, [.app ⟨1⟩ [.var ⟨0⟩]]⟩]

/-- The two differ in which `x` is the variable and in where a connective has a single operand. -/
theorem Formula.outline_eq_of_text_eq_oneName :
    variableFirst ≠ constantFirst ∧
      variableFirst.text? oneName = some "\\+ (p(x); is_q2), p(p(x))" ∧
      constantFirst.text? oneName = some "\\+ (p(x); is_q2), p(p(x))" ∧
      variableFirst.outline oneName.naming = constantFirst.outline oneName.naming := by
  have hfwords : ∀ name ∈ variableFirst.names oneName.naming, ∀ c ∈ name.toList,
      c.isAlphanum = true ∨ c = '_' := by
    rw [show variableFirst.names oneName.naming = ["p", "is_q2", "p", "p", "x", "x"] by cbv]
    simp
  have hgwords : ∀ name ∈ constantFirst.names oneName.naming, ∀ c ∈ name.toList,
      c.isAlphanum = true ∨ c = '_' := by
    rw [show constantFirst.names oneName.naming = ["p", "x", "is_q2", "p", "p", "x"] by cbv]
    simp
  have hftext : variableFirst.text? oneName = some "\\+ (p(x); is_q2), p(p(x))" := by cbv
  have hgtext : constantFirst.text? oneName = some "\\+ (p(x); is_q2), p(p(x))" := by cbv
  exact ⟨by decide, hftext, hgtext, outline_eq_of_text_eq _ rfl rfl rfl
    (fun name hname c hc => not_mem_delimiters (hfwords name hname c hc))
    (fun name hname c hc => not_mem_delimiters (hgwords name hname c hc)) hftext hgtext⟩

end HornResolution
