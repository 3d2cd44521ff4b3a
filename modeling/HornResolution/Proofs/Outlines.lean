import HornResolution.Proofs.FreshCopies

/-!
# Outlines

The outline of a formula is what its text can show of it. Names stand in place of symbols and
variables, so a variable looks like a constant of the same name, and a connective over a single
operand is that operand. The text of a formula is put together from its outline alone, but for one
thing: a connective over several operands is put in parentheses as an operand and not otherwise, and
the outline does not tell whether the formula had a connective over a single operand around it.
-/

namespace HornResolution

inductive TermOutline where
  | node (name : String) (args : List TermOutline)

namespace TermOutline

mutual

def text : TermOutline → String
  | .node name args => applied name (texts args)

def texts : List TermOutline → List String
  | [] => []
  | t :: ts => text t :: texts ts

end

theorem texts_eq_map (ts : List TermOutline) : texts ts = ts.map text := by
  induction ts with
  | nil => rfl
  | cons t ts ih => rw [texts, ih, List.map_cons]

theorem text_node (name : String) (args : List TermOutline) :
    (node name args).text = applied name (args.map text) := by
  rw [text, texts_eq_map]

end TermOutline

inductive Connective where
  | and
  | or
deriving DecidableEq

def Connective.separator : Connective → String
  | .and => ", "
  | .or => "; "

inductive Outline where
  | atom (name : String) (args : List TermOutline)
  | join (c : Connective) (operands : List Outline)
  | neg (operand : Outline)

namespace Outline

/-- A connective over a single operand is that operand. -/
def ofOperands (c : Connective) : List Outline → Outline
  | [o] => o
  | os => .join c os

mutual

/-- How an outline is written where it is an operand. -/
def operandText : Outline → String
  | .atom name args => applied name (args.map TermOutline.text)
  | .join c os => "(" ++ c.separator.intercalate (operandTexts os) ++ ")"
  | .neg o => "\\+ " ++ operandText o

def operandTexts : List Outline → List String
  | [] => []
  | o :: os => operandText o :: operandTexts os

end

theorem operandTexts_eq_map (os : List Outline) : operandTexts os = os.map operandText := by
  induction os with
  | nil => rfl
  | cons o os ih => rw [operandTexts, ih, List.map_cons]

/-- The operands of a connective one after the other. -/
def chainText (c : Connective) (os : List Outline) : String :=
  c.separator.intercalate (os.map operandText)

theorem operandText_join (c : Connective) (os : List Outline) :
    (join c os).operandText = "(" ++ chainText c os ++ ")" := by
  rw [operandText, operandTexts_eq_map, chainText]

/-- The texts of an outline: that of an operand and, for a connective over two or more operands,
that without the parentheses. -/
inductive WrittenAs : Outline → String → Prop
  | operand (o : Outline) : WrittenAs o o.operandText
  | chain (c : Connective) (o p : Outline) (os : List Outline) :
      WrittenAs (.join c (o :: p :: os)) (chainText c (o :: p :: os))

end Outline

section Outlining

variable (N : Naming)

def Term.outline : Term → TermOutline :=
  fold (fun v => .node (N.var v) []) fun f args => .node (N.symbol f) args

theorem Term.outline_var (v : Var) : (Term.var v).outline N = .node (N.var v) [] := rfl

theorem Term.outline_app (f : Symbol) (args : List Term) :
    (Term.app f args).outline N = .node (N.symbol f) (args.map (Term.outline N)) := by
  rw [outline, fold_app]

def Atom.outline (a : Atom) : Outline := .atom (N.symbol a.symbol) (a.args.map (Term.outline N))

namespace Formula

mutual

def outline : Formula → Outline
  | .atom a => a.outline N
  | .conj fs => .ofOperands .and (outlines fs)
  | .disj fs => .ofOperands .or (outlines fs)
  | .neg f => .neg (outline f)

def outlines : List Formula → List Outline
  | [] => []
  | f :: fs => outline f :: outlines fs

end

theorem outlines_eq_map (fs : List Formula) : outlines N fs = fs.map (outline N) := by
  induction fs with
  | nil => rfl
  | cons f fs ih => rw [outlines, ih, List.map_cons]

mutual

/-- Whether every connective in the formula has an operand. -/
def isFilled : Formula → Bool
  | .atom _ => true
  | .conj fs => !fs.isEmpty && areFilled fs
  | .disj fs => !fs.isEmpty && areFilled fs
  | .neg f => isFilled f

def areFilled : List Formula → Bool
  | [] => true
  | f :: fs => isFilled f && areFilled fs

end

theorem areFilled_eq_all (fs : List Formula) : areFilled fs = fs.all isFilled := by
  induction fs with
  | nil => rfl
  | cons f fs ih => rw [areFilled, ih, List.all_cons]

end Formula

end Outlining

section Writing

variable {N : Naming}

theorem Term.render_eq_text (t : Term) : t.render N = (t.outline N).text := by
  induction t using Term.induction with
  | var v => rw [render_var, outline_var, TermOutline.text_node]; rfl
  | app f args ih =>
    rw [render_app, outline_app, TermOutline.text_node, List.map_map]
    congr 1
    exact List.map_congr_left ih

theorem Atom.render_eq_operandText (a : Atom) : a.render N = (a.outline N).operandText := by
  rw [Atom.render, outline, Outline.operandText, List.map_map]
  congr 1
  exact List.map_congr_left fun t _ => t.render_eq_text

namespace Formula

def joined (c : Connective) (fs : List Formula) : Formula :=
  match c with
  | .and => .conj fs
  | .or => .disj fs

theorem render_joined (N : Naming) (c : Connective) (fs : List Formula) :
    (joined c fs).render N = c.separator.intercalate (fs.map fun f => f.grouped (f.render N)) := by
  cases c <;> rw [joined, render, renderOperands_eq_map] <;> rfl

theorem outline_joined (N : Naming) (c : Connective) (fs : List Formula) :
    (joined c fs).outline N = .ofOperands c (fs.map (outline N)) := by
  cases c <;> rw [joined, outline, outlines_eq_map]

theorem isFilled_joined {c : Connective} {fs : List Formula} :
    (joined c fs).isFilled = true ↔ fs ≠ [] ∧ ∀ f ∈ fs, f.isFilled = true := by
  cases c <;> simp [joined, isFilled, areFilled_eq_all]

theorem isGroup_joined (c : Connective) (f g : Formula) (fs : List Formula) :
    (joined c (f :: g :: fs)).isGroup = true := by
  cases c <;> rfl

theorem render_joined_singleton (N : Naming) (c : Connective) (f : Formula) :
    (joined c [f]).render N = f.grouped (f.render N) := by
  rw [render_joined, List.map_singleton, String.intercalate_singleton]

theorem render_joined_eq_chainText (c : Connective) {fs : List Formula}
    (h : ∀ f ∈ fs, f.grouped (f.render N) = (f.outline N).operandText) :
    (joined c fs).render N = Outline.chainText c (fs.map (outline N)) := by
  rw [render_joined, Outline.chainText, List.map_map]
  congr 1
  exact List.map_congr_left h

theorem grouped_joined (c : Connective) {fs : List Formula} (hne : fs ≠ [])
    (h : ∀ f ∈ fs, f.grouped (f.render N) = (f.outline N).operandText) :
    (joined c fs).grouped ((joined c fs).render N) = ((joined c fs).outline N).operandText := by
  match fs with
  | [] => exact absurd rfl hne
  | [f] =>
    have hgroup : (joined c [f]).isGroup = false := by cases c <;> rfl
    rw [grouped, hgroup, render_joined_singleton, h f (by simp), outline_joined]
    rfl
  | f :: g :: fs =>
    rw [grouped, isGroup_joined, if_pos rfl, render_joined_eq_chainText c h, outline_joined]
    exact (Outline.operandText_join c _).symm

theorem grouped_eq_operandText {f : Formula} (hf : f.isFilled = true) :
    f.grouped (f.render N) = (f.outline N).operandText := by
  induction f using Formula.induction with
  | atom a => exact a.render_eq_operandText
  | conj fs ih =>
    obtain ⟨hne, hfs⟩ := isFilled_joined (c := .and).mp hf
    exact grouped_joined .and hne fun f hf => ih f hf (hfs f hf)
  | disj fs ih =>
    obtain ⟨hne, hfs⟩ := isFilled_joined (c := .or).mp hf
    exact grouped_joined .or hne fun f hf => ih f hf (hfs f hf)
  | neg f ih =>
    have hgroup : (neg f).isGroup = false := rfl
    rw [grouped, hgroup, render, ih hf, outline, Outline.operandText]
    rfl

theorem writtenAs_joined (c : Connective) {fs : List Formula}
    (hf : (joined c fs).isFilled = true) :
    ((joined c fs).outline N).WrittenAs ((joined c fs).render N) := by
  obtain ⟨hne, hfs⟩ := isFilled_joined.mp hf
  have operands : ∀ f ∈ fs, f.grouped (f.render N) = (f.outline N).operandText :=
    fun f hf => grouped_eq_operandText (hfs f hf)
  match fs with
  | [] => exact absurd rfl hne
  | [f] =>
    rw [render_joined_singleton, operands f (by simp), outline_joined]
    exact .operand _
  | f :: g :: fs =>
    rw [render_joined_eq_chainText c operands, outline_joined]
    exact .chain c _ _ _

theorem writtenAs {f : Formula} (hf : f.isFilled = true) :
    (f.outline N).WrittenAs (f.render N) := by
  cases f with
  | atom a =>
    rw [render, a.render_eq_operandText]
    exact .operand _
  | conj fs => exact writtenAs_joined .and hf
  | disj fs => exact writtenAs_joined .or hf
  | neg f =>
    have htext : (neg f).render N = ((neg f).outline N).operandText := grouped_eq_operandText hf
    rw [htext]
    exact .operand _

end Formula

end Writing

end HornResolution
