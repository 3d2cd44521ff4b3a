import HornResolution.Answer
import HornResolution.Json

/-!
# Views as JSON

A view with several forms is an object whose field `type` names the form, beside
the fields of that form. It may also be an array of the form's name and fields.
Inside another such view, the position of a form among all forms may stand for
its name.
-/

namespace HornResolution

namespace Json

theorem sizeOf_lookup {fields : List (String × Json)} {name : String} {value : Json}
    (h : fields.lookup name = some value) : sizeOf value < sizeOf fields := by
  induction fields with
  | nil => simp at h
  | cons p fields ih =>
    obtain ⟨key, j⟩ := p
    simp only [List.lookup_cons] at h
    cases hk : name == key with
    | true =>
      simp only [hk, Option.some.injEq] at h
      subst h
      simp only [List.cons.sizeOf_spec, Prod.mk.sizeOf_spec]
      omega
    | false =>
      simp only [hk] at h
      have := ih h
      simp only [List.cons.sizeOf_spec]
      omega

theorem sizeOf_field? {position : Nat} {name : String} {j value : Json}
    (h : j.field? position name = some value) : sizeOf value < sizeOf j := by
  cases j with
  | object fields =>
    have := sizeOf_lookup h
    simp only [object.sizeOf_spec]
    omega
  | array items =>
    have := List.sizeOf_lt_of_mem (List.mem_of_getElem? h)
    simp only [array.sizeOf_spec]
    omega
  | _ => simp [field?] at h

theorem sizeOf_items? {position : Nat} {name : String} {j : Json} {items : List Json}
    (h : j.items? position name = some items) : sizeOf items < sizeOf j := by
  unfold items? at h
  split at h
  · next k hk =>
    have := sizeOf_field? hk
    simp only [Option.some.injEq] at h
    subst h
    simp only [array.sizeOf_spec] at this
    omega
  · simp at h

/-- The position of the form of a value among the named forms, which a number may
give if `numbered` holds. -/
def form? (forms : List String) (numbered : Bool) (j : Json) : Option Nat :=
  match j.field? 0 "type" with
  | some (.string name) => forms.findIdx? (· == name)
  | some (.number (.ofNat n) 0) => if numbered && n < forms.length then some n else none
  | _ => none

/-- The value without the name of its form, as a record of the remaining fields. -/
def content : Json → Json
  | .array (_ :: items) => .array items
  | j => j

theorem sizeOf_content (j : Json) : sizeOf j.content ≤ sizeOf j := by
  unfold content
  split
  · simp only [array.sizeOf_spec, List.cons.sizeOf_spec]
    omega
  · exact Nat.le_refl _

end Json

namespace TermView

mutual

def toJson : TermView → Json
  | .var name => .object [("type", .string "Variable"), ("name", .string name)]
  | .const name => .object [("type", .string "Constant"), ("name", .string name)]
  | .app name args =>
    .object
      [("type", .string "Function"), ("name", .string name), ("args", .array (toJsonAll args))]

def toJsonAll : List TermView → List Json
  | [] => []
  | t :: ts => toJson t :: toJsonAll ts

end

def forms : List String := ["Variable", "Constant", "Function"]

mutual

def read (numbered : Bool) (j : Json) : Option TermView :=
  match j.form? forms numbered, j.content.text? 0 "name" with
  | some 0, some name => if j.content.isRecord 1 then some (.var name) else none
  | some 1, some name => if j.content.isRecord 1 then some (.const name) else none
  | some 2, some name =>
    if j.content.isRecord 2 then
      match _h : j.content.items? 1 "args" with
      | none => none
      | some items => (readAll true items).map (.app name)
    else none
  | _, _ => none
termination_by sizeOf j
decreasing_by
  have := Json.sizeOf_items? (by assumption)
  have := Json.sizeOf_content j
  omega

def readAll (numbered : Bool) (js : List Json) : Option (List TermView) :=
  match js with
  | [] => some []
  | j :: js =>
    match read numbered j, readAll numbered js with
    | some t, some ts => some (t :: ts)
    | _, _ => none
termination_by sizeOf js

end

def ofJson? (j : Json) : Option TermView := read false j

end TermView

namespace AtomView

/-- Arguments are written only if there are any. -/
def fields (a : AtomView) : List (String × Json) :=
  ("predicate", .string a.name) ::
    if a.args.isEmpty then [] else [("args", .array (TermView.toJsonAll a.args))]

def toJson (a : AtomView) : Json := .object a.fields

def read (numbered : Bool) (j : Json) : Option AtomView :=
  if j.isRecord 2 then
    match j.text? 0 "predicate", j.field? 1 "args" with
    | some name, none => some ⟨name, []⟩
    | some name, some (.array items) => (TermView.readAll numbered items).map (AtomView.mk name)
    | _, _ => none
  else none

def ofJson? (j : Json) : Option AtomView := read false j

end AtomView

namespace FormulaView

mutual

def toJson : FormulaView → Json
  | .atom a => .object (("type", .string "predicate") :: a.fields)
  | .conj fs => .object [("type", .string "and"), ("operands", .array (toJsonAll fs))]
  | .disj fs => .object [("type", .string "or"), ("operands", .array (toJsonAll fs))]
  | .neg f => .object [("type", .string "not"), ("operand", toJson f)]

def toJsonAll : List FormulaView → List Json
  | [] => []
  | f :: fs => toJson f :: toJsonAll fs

end

def forms : List String := ["predicate", "and", "or", "not"]

mutual

def read (numbered : Bool) (j : Json) : Option FormulaView :=
  match j.form? forms numbered with
  | some 0 => (AtomView.read true j.content).map .atom
  | some 3 =>
    if j.content.isRecord 1 then
      match _h : j.content.field? 0 "operand" with
      | none => none
      | some operand => (read true operand).map .neg
    else none
  | some n =>
    if j.content.isRecord 1 then
      match _h : j.content.items? 0 "operands" with
      | none => none
      | some items => (readAll items).map (if n = 1 then .conj else .disj)
    else none
  | none => none
termination_by sizeOf j
decreasing_by
  · have := Json.sizeOf_field? (by assumption)
    have := Json.sizeOf_content j
    omega
  · have := Json.sizeOf_items? (by assumption)
    have := Json.sizeOf_content j
    omega

def readAll (js : List Json) : Option (List FormulaView) :=
  match js with
  | [] => some []
  | j :: js =>
    match read true j, readAll js with
    | some f, some fs => some (f :: fs)
    | _, _ => none
termination_by sizeOf js

end

def ofJson? (j : Json) : Option FormulaView := read false j

end FormulaView

/-- A field that is written only if its value is there. -/
private def given {α : Type} (name : String) (write : α → Json) : Option α → List (String × Json)
  | none => []
  | some a => [(name, write a)]

namespace ClauseView

def toJson (c : ClauseView) : Json :=
  .object (given "head" AtomView.toJson c.head ++ given "body" FormulaView.toJson c.body ++
    [("text", .string c.text)])

def ofJson? (j : Json) : Option ClauseView :=
  if j.isRecord 3 then
    match j.optional? AtomView.ofJson? 0 "head", j.optional? FormulaView.ofJson? 1 "body",
      j.text? 2 "text" with
    | some head, some body, some text => some ⟨head, body, text⟩
    | _, _, _ => none
  else none

end ClauseView

namespace BindingView

def toJson (b : BindingView) : Json :=
  .object [("variable", .string b.name), ("value", .string b.value)]

def ofJson? (j : Json) : Option BindingView :=
  if j.isRecord 2 then
    match j.text? 0 "variable", j.text? 1 "value" with
    | some name, some value => some ⟨name, value⟩
    | _, _ => none
  else none

end BindingView

namespace AnswerView

def toJson (a : AnswerView) : Json :=
  .object [("answer", a.answer.toJson), ("text", .string a.text),
    ("bindings", .array (a.bindings.map BindingView.toJson))]

def ofJson? (j : Json) : Option AnswerView :=
  if j.isRecord 3 then
    match (j.field? 0 "answer").bind FormulaView.ofJson?, j.text? 1 "text",
      (j.items? 2 "bindings").bind (List.mapM BindingView.ofJson?) with
    | some answer, some text, some bindings => some ⟨answer, text, bindings⟩
    | _, _, _ => none
  else none

end AnswerView

namespace ResultView

/-- The result without the time that the query took. -/
def toJson (r : ResultView) : Json :=
  .object ([("goal", .string r.goal), ("answers", .array (r.answers.map AnswerView.toJson))] ++
    given "stopped" .string r.stopped)

/-- The time that the query took has to be there as a number. -/
def ofJson? (j : Json) : Option ResultView :=
  if j.isRecord 4 && (j.field? 3 "time_seconds").any Json.isNumber then
    match j.text? 0 "goal", (j.items? 1 "answers").bind (List.mapM AnswerView.ofJson?),
      j.optional? Json.toString? 2 "stopped" with
    | some goal, some answers, some stopped => some ⟨goal, answers, stopped⟩
    | _, _, _ => none
  else none

end ResultView

end HornResolution
