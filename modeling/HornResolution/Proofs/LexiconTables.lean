import HornResolution.Lexicon
import HornResolution.Proofs.MadeUpNames

/-!
# The tables of a lexicon

The two tables of names in a lexicon have to agree entry by entry, and the display names of the
variables point into one of them. Numbers are words, so the agreement rests on there being fewer
entries than words. It then outlives every run of requests, those that are refused included: names
and symbols determine each other, a variable has a name as soon as it has a number, and what was
handed out once means the same for ever.

A lexicon refines the vocabulary of its entries. Both give the same replies as long as the
counter of the made-up names does not start over.
-/

namespace HornResolution

namespace NameTable

variable {T : NameTable} {name : String} {i : UInt32}

theorem toNat_toUInt32 {n : ℕ} (h : n < 2 ^ 32) : n.toUInt32.toNat = n := by
  simpa using Nat.mod_eq_of_lt h

/-- Every name is found under the number at which it stands, and there are enough numbers. -/
structure Indexed (T : NameTable) : Prop where
  size_le : T.strings.size ≤ 2 ^ 32
  get?_eq_some_iff : ∀ {name i}, T.get? name = some i ↔ T.strings[i.toNat]? = some name

theorem indexed_empty : Indexed {} := ⟨by simp, by simp [get?]⟩

theorem get?_enter (T : NameTable) (name x : String) (i : UInt32) :
    get? { T with numbers := (name, i) :: T.numbers } x =
      if x = name then some i else T.get? x := by
  rw [get?, get?, List.lookup_cons]
  by_cases h : x = name
  · simp [h]
  · simp [h, beq_eq_false_iff_ne.mpr h]

theorem Indexed.push (hT : T.Indexed) (hnew : T.get? name = none)
    (hroom : T.strings.size < 2 ^ 32) :
    Indexed { strings := T.strings.push name,
              numbers := (name, T.strings.size.toUInt32) :: T.numbers } := by
  have hsize := toNat_toUInt32 hroom
  refine ⟨by simpa using hroom, fun {x j} => ?_⟩
  have hget := T.get?_enter name x T.strings.size.toUInt32
  rw [show get? { strings := T.strings.push name,
                  numbers := (name, T.strings.size.toUInt32) :: T.numbers } x = _ from hget,
    Array.getElem?_push]
  by_cases hx : x = name
  · subst hx
    have hold : T.strings[j.toNat]? ≠ some x := fun h => by
      rw [← hT.get?_eq_some_iff, hnew] at h
      simp at h
    rw [if_pos rfl, Option.some.injEq]
    split_ifs with hj
    · exact iff_of_true (UInt32.toNat_inj.mp (hsize.trans hj.symm)) rfl
    · exact iff_of_false (fun h => hj (h ▸ hsize)) hold
  · rw [if_neg hx, hT.get?_eq_some_iff]
    split_ifs with hj
    · refine iff_of_false (fun h => ?_) fun h => hx (Option.some.inj h).symm
      exact absurd (Array.getElem?_eq_some_iff.mp h).1 (by omega)
    · exact Iff.rfl

end NameTable

instance : Registry Lexicon where
  intern := Lexicon.intern
  declare := Lexicon.declare
  copyVar := Lexicon.copyVar
  coin := Lexicon.coin

namespace Lexicon

open Registry

variable {L L' : Lexicon} {name stem : String} {s : Symbol} {v : Var}

/-- The entries of a lexicon, without the table of the numbers. -/
def vocabulary (L : Lexicon) : Vocabulary where
  names := L.symbols.strings
  varNames := L.varNames
  generated := L.generated.toNat

section Reading

theorem find?_eq (hL : L.symbols.Indexed) (name : String) :
    L.find? name = L.vocabulary.find? name := by
  rw [find?]
  cases hfind : L.vocabulary.find? name with
  | none =>
    rw [Option.map_eq_none_iff, Option.eq_none_iff_forall_ne_some]
    intro i hi
    have hmem := Array.mem_of_getElem? (hL.get?_eq_some_iff.mp hi)
    exact Vocabulary.not_mem_of_find?_eq_none hfind (Array.mem_toList_iff.mpr hmem)
  | some s =>
    have hname : L.symbols.strings[s.id]? = some name := Vocabulary.name?_of_find? hfind
    have hlt := (Array.getElem?_eq_some_iff.mp hname).1
    have hid := NameTable.toNat_toUInt32 (hlt.trans_le hL.size_le)
    have hget : L.symbols.get? name = some s.id.toUInt32 := by
      rw [hL.get?_eq_some_iff, hid, hname]
    rw [hget, Option.map_some, hid]

theorem contains_eq (hL : L.symbols.Indexed) (name : String) :
    L.contains name = L.vocabulary.contains name := by
  rw [Vocabulary.contains, ← find?_eq hL, find?, Option.isSome_map, contains]

end Reading

section Growing

theorem intern_grows (L : Lexicon) (name : String) :
    L.vocabulary.Grows (L.intern name).2.vocabulary := by
  rw [intern]
  split_ifs
  · exact .refl _
  · rw [NameTable.intern]
    cases L.symbols.get? name with
    | some i => exact .refl _
    | none => exact ⟨by simp [vocabulary], List.prefix_rfl⟩

theorem allocate_grows (L : Lexicon) (s : Symbol) :
    L.vocabulary.Grows (L.allocate s).2.vocabulary :=
  L.vocabulary.grows_allocate s

theorem declare_grows (L : Lexicon) (name : String) :
    (L.intern name).2.vocabulary.Grows (L.declare name).2.vocabulary := by
  rw [declare]
  rcases L.intern name with ⟨e | s, L'⟩
  · exact .refl _
  · exact L'.allocate_grows s

theorem grows_of_advance (h : L.advance.vocabulary.Grows L'.vocabulary) :
    L.vocabulary.Grows L'.vocabulary :=
  ⟨h.names, h.varNames⟩

theorem coinAfter_grows (stem : String) (taken : ℕ) (L : Lexicon) :
    L.vocabulary.Grows (coinAfter stem taken L).2.vocabulary := by
  induction taken generalizing L with
  | zero => exact grows_of_advance (L.advance.intern_grows _)
  | succ taken ih =>
    rw [coinAfter]
    split_ifs
    · exact grows_of_advance (ih L.advance)
    · exact grows_of_advance (L.advance.intern_grows _)

theorem serve_grows (L : Lexicon) (r : Vocabulary.Request) :
    L.vocabulary.Grows (serve L r).2.vocabulary := by
  cases r with
  | intern name => exact L.intern_grows name
  | declare name => exact (L.intern_grows name).trans (L.declare_grows name)
  | copyVar like =>
    show L.vocabulary.Grows (L.copyVar like).2.vocabulary
    rw [copyVar]
    split
    · exact .refl _
    · exact L.allocate_grows _
  | coin stem =>
    show L.vocabulary.Grows (L.coin stem).2.vocabulary
    rw [coin]
    split_ifs
    · exact .refl _
    · exact coinAfter_grows stem _ L

theorem serveAll_grows (rs : List Vocabulary.Request) (L : Lexicon) :
    L.vocabulary.Grows (serveAll rs L).2.vocabulary := by
  induction rs generalizing L with
  | nil => exact .refl _
  | cons r rs ih => exact (L.serve_grows r).trans (ih _)

structure HasRoom (L : Lexicon) : Prop where
  symbols : L.symbolCount < 2 ^ 32
  vars : L.varCount < 2 ^ 32

theorem HasRoom.of_grows (hL' : L'.HasRoom) (h : L.vocabulary.Grows L'.vocabulary) : L.HasRoom := by
  have hsymbols : L.symbolCount ≤ L'.symbolCount := h.symbolCount_le
  have hvars : L.varCount ≤ L'.varCount := h.varCount_le
  exact ⟨hsymbols.trans_lt hL'.symbols, hvars.trans_lt hL'.vars⟩

end Growing

section Matching

variable {α β : Type}

/-- An operation on a lexicon and one on a vocabulary come to the same. -/
structure Matches (a : α × Lexicon) (b : α × Vocabulary) : Prop where
  result : a.1 = b.1
  vocabulary : a.2.vocabulary = b.2
  indexed : a.2.symbols.Indexed

theorem Matches.map {a : α × Lexicon} {b : α × Vocabulary} (h : Matches a b) (f : α → β) :
    Matches (a.map f id) (b.map f id) :=
  ⟨congrArg f h.result, h.vocabulary, h.indexed⟩

theorem intern_matches (hL : L.symbols.Indexed) (hroom : (L.intern name).2.HasRoom) :
    Matches (L.intern name) (L.vocabulary.intern name) := by
  rw [intern] at hroom ⊢
  rw [Vocabulary.intern, ← find?_eq hL, find?]
  split_ifs at hroom ⊢ with hne
  · exact ⟨rfl, rfl, hL⟩
  · rw [NameTable.intern] at hroom ⊢
    cases hget : L.symbols.get? name with
    | some i => exact ⟨rfl, rfl, hL⟩
    | none =>
      rw [hget] at hroom
      have hlt : L.symbols.strings.size < 2 ^ 32 := by
        have hsize := hroom.symbols
        simp only [symbolCount, Array.size_push] at hsize
        omega
      refine ⟨?_, rfl, hL.push hget hlt⟩
      exact congrArg (fun n => Except.ok (Symbol.mk n)) (NameTable.toNat_toUInt32 hlt)

theorem allocate_fst (hroom : L.varCount < 2 ^ 32) (s : Symbol) : (L.allocate s).1 = ⟨L.varCount⟩ :=
  congrArg Var.mk (NameTable.toNat_toUInt32 hroom)

theorem allocate_matches (hL : L.symbols.Indexed) (hroom : (L.allocate s).2.HasRoom) :
    Matches (Except.ok (L.allocate s).1, (L.allocate s).2)
      ((Except.ok (L.vocabulary.allocate s).1 : Except Misuse Var),
        (L.vocabulary.allocate s).2) := by
  have hlt : L.varCount < 2 ^ 32 := (hroom.of_grows (L.allocate_grows s)).vars
  exact ⟨congrArg Except.ok (allocate_fst hlt s), rfl, hL⟩

theorem declare_matches (hL : L.symbols.Indexed) (hroom : (L.declare name).2.HasRoom) :
    Matches (L.declare name) (L.vocabulary.declare name) := by
  obtain ⟨hresult, hvocabulary, hindexed⟩ :=
    intern_matches hL (hroom.of_grows (L.declare_grows name))
  rw [declare] at hroom ⊢
  rw [Vocabulary.declare, ← Prod.mk.eta (p := L.vocabulary.intern name), ← hresult, ← hvocabulary]
  revert hroom hindexed
  rcases L.intern name with ⟨e | s, L'⟩
  · exact fun _ hindexed => ⟨rfl, rfl, hindexed⟩
  · exact fun hroom hindexed => allocate_matches hindexed hroom

theorem copyVar_matches (hL : L.symbols.Indexed) {like : Var}
    (hroom : (L.copyVar like).2.HasRoom) :
    Matches (L.copyVar like) (L.vocabulary.copyVar like) := by
  have hsymbol : L.vocabulary.varSymbol? like = L.varSymbol? like := rfl
  rw [copyVar] at hroom ⊢
  rw [Vocabulary.copyVar, hsymbol]
  cases hlike : L.varSymbol? like with
  | none => exact ⟨rfl, rfl, hL⟩
  | some s =>
    rw [hlike] at hroom
    exact allocate_matches hL hroom

end Matching

section Coining

theorem generated_iterate_advance (L : Lexicon) (i : ℕ) :
    (advance^[i] L).generated = L.generated + UInt32.ofNat i := by
  induction i with
  | zero => exact (UInt32.add_zero _).symm
  | succ i ih =>
    rw [Function.iterate_succ_apply', UInt32.ofNat_add, ← UInt32.add_assoc, ← ih]
    rfl

theorem symbols_iterate_advance (L : Lexicon) (i : ℕ) : (advance^[i] L).symbols = L.symbols := by
  induction i with
  | zero => rfl
  | succ i ih => rwa [Function.iterate_succ_apply']

theorem vocabulary_iterate_advance (L : Lexicon) (i : ℕ) :
    (advance^[i] L).vocabulary =
      { L.vocabulary with generated := (L.generated.toNat + i) % 2 ^ 32 } := by
  have hvarNames : (advance^[i] L).varNames = L.varNames := by
    induction i with
    | zero => rfl
    | succ i ih => rwa [Function.iterate_succ_apply']
  rw [vocabulary, symbols_iterate_advance, hvarNames, generated_iterate_advance,
    UInt32.toNat_add, UInt32.toNat_ofNat', Nat.add_mod_mod]
  rfl

theorem attempt_iterate_advance (L : Lexicon) (stem : String) (i : ℕ) :
    (advance^[i] L).attempt stem = stem ++ toString ((L.generated.toNat + i) % 2 ^ 32) := by
  exact congrArg (fun V => stem ++ toString V.generated) (L.vocabulary_iterate_advance i)

/-- The first unused name is found after `i` taken ones. -/
structure FirstUnused (L : Lexicon) (stem : String) (i : ℕ) : Prop where
  unused : L.contains ((advance^[i] L).attempt stem) = false
  taken : ∀ j < i, L.contains ((advance^[j] L).attempt stem) = true

/-- The loop ends with the first unused name if it is in reach. -/
theorem coinAfter_eq {taken : ℕ}
    (h : ∃ i ≤ taken, L.contains ((advance^[i] L).attempt stem) = false) :
    ∃ i, L.FirstUnused stem i ∧
      coinAfter stem taken L = (advance^[i + 1] L).intern ((advance^[i] L).attempt stem) := by
  induction taken generalizing L with
  | zero =>
    obtain ⟨i, hi, hunused⟩ := h
    obtain rfl : i = 0 := by omega
    exact ⟨0, ⟨hunused, by simp⟩, rfl⟩
  | succ taken ih =>
    rw [coinAfter]
    split_ifs with htaken
    · obtain ⟨i, hi, hunused⟩ := h
      cases i with
      | zero => exact absurd (htaken.symm.trans hunused) (by simp)
      | succ i =>
        obtain ⟨k, hk, heq⟩ := ih (L := L.advance) ⟨i, by omega, hunused⟩
        refine ⟨k + 1, ⟨hk.unused, fun j hj => ?_⟩, heq⟩
        cases j with
        | zero => exact htaken
        | succ j => exact hk.taken j (by omega)
    · exact ⟨0, ⟨Bool.eq_false_iff.mpr htaken, by simp⟩, rfl⟩

/-- Among one number more than there are symbols, one gives an unused name, also if the counter
starts over on the way. -/
theorem exists_unused (hL : L.symbols.Indexed) (hroom : L.HasRoom) (stem : String) :
    ∃ i ≤ L.symbolCount, L.contains ((advance^[i] L).attempt stem) = false := by
  by_contra hnone
  push Not at hnone
  have hsymbols := hroom.symbols
  have hnodup : ((List.range (L.symbolCount + 1)).map
      fun i => (L.generated.toNat + i) % 2 ^ 32).Nodup := by
    refine List.nodup_range.map_on fun i hi j hj heq => ?_
    rw [List.mem_range] at hi hj
    have hmod := Nat.ModEq.add_left_cancel' _ heq
    exact hmod.eq_of_lt_of_lt (by omega) (by omega)
  have htaken : ∀ n ∈ (List.range (L.symbolCount + 1)).map
      fun i => (L.generated.toNat + i) % 2 ^ 32,
      L.vocabulary.contains (stem ++ toString n) = true := by
    intro n hn
    obtain ⟨i, hi, rfl⟩ := List.mem_map.mp hn
    rw [List.mem_range] at hi
    rw [← attempt_iterate_advance, ← contains_eq hL]
    simpa using hnone i (by omega)
  have hlength := Vocabulary.length_le_symbolCount_of_taken hnodup htaken
  rw [List.length_map, List.length_range] at hlength
  exact absurd hlength (Nat.not_succ_le_self _)

theorem coin_eq (hL : L.symbols.Indexed) (hroom : L.HasRoom) (hne : stem ≠ "") :
    ∃ i, L.FirstUnused stem i ∧
      L.coin stem = (advance^[i + 1] L).intern ((advance^[i] L).attempt stem) := by
  rw [coin, if_neg hne]
  exact coinAfter_eq (exists_unused hL hroom stem)

end Coining

/-- The two tables of names agree, and the entries are consistent. -/
structure Sound (L : Lexicon) : Prop where
  indexed : L.symbols.Indexed
  consistent : L.vocabulary.Consistent

theorem sound_empty : empty.Sound := ⟨NameTable.indexed_empty, Vocabulary.consistent_empty⟩

section Serving

/-- The name that a request asks for. An empty name is none, and one that is made up is unused. -/
def Asks (L : Lexicon) : Vocabulary.Request → String → Prop
  | .intern name, x => name ≠ "" ∧ x = name
  | .declare name, x => name ≠ "" ∧ x = name
  | .copyVar like, x => L.varName? like = some x
  | .coin stem, x => stem ≠ "" ∧ L.contains x = false ∧ ∃ n : ℕ, x = stem ++ toString n

/-- A reply hands out what bears the name that was asked for, and a variable among it takes the
next number. Only a request for no name is refused, and then the lexicon stays as it was. -/
def Fulfils (L : Lexicon) (r : Vocabulary.Request) : Vocabulary.Reply → Lexicon → Prop
  | .symbol s, L' => L'.varCount = L.varCount ∧ ∃ name, L'.name? s = some name ∧ L.Asks r name
  | .var v, L' =>
    v = ⟨L.varCount⟩ ∧ L'.varCount = L.varCount + 1 ∧
      ∃ name, L'.varName? v = some name ∧ L.Asks r name
  | .refused _, L' => L' = L ∧ ∀ name, ¬L.Asks r name

/-- A request was fulfilled, and what it leaves is sound. -/
structure Answers (L : Lexicon) (r : Vocabulary.Request) (answer : Vocabulary.Reply × Lexicon) :
    Prop where
  sound : answer.2.Sound
  fulfils : L.Fulfils r answer.1 answer.2

variable {r : Vocabulary.Request}

theorem answers_refused {e : Misuse} (hL : L.Sound) (h : ∀ name, ¬L.Asks r name) :
    L.Answers r (.refused e, L) :=
  ⟨hL, rfl, h⟩

theorem answers_symbol (hL : L.Sound) (hL' : L'.symbols.Indexed)
    (henters : L.vocabulary.Enters name s L'.vocabulary) (hasks : L.Asks r name) :
    L.Answers r (.symbol s, L') :=
  ⟨⟨hL', henters.consistent hL.consistent⟩,
    congrArg Array.size henters.varNames, name, henters.name?, hasks⟩

theorem answers_var (hL' : L'.Sound) (hroom : (L'.allocate s).2.HasRoom)
    (hcount : L'.varCount = L.varCount) (hname : L'.name? s = some name) (hasks : L.Asks r name) :
    L.Answers r (.var (L'.allocate s).1, (L'.allocate s).2) := by
  have hlt : L'.varCount < 2 ^ 32 := (hroom.of_grows (L'.allocate_grows s)).vars
  have hknown : L'.vocabulary.knowsSymbol s = true := Vocabulary.knowsSymbol_of_name? hname
  have hvar : (L'.allocate s).2.varName? ⟨L'.varCount⟩ = L'.name? s :=
    L'.vocabulary.varName?_allocate s
  have hvars : (L'.allocate s).2.varCount = L'.varCount + 1 := L'.vocabulary.varCount_allocate s
  rw [allocate_fst hlt]
  rw [hcount] at hvar hvars ⊢
  exact ⟨⟨hL'.indexed, hL'.consistent.allocate hknown⟩, rfl, hvars, name, hvar.trans hname, hasks⟩

theorem intern_spec (hL : L.symbols.Indexed) (hroom : (L.intern name).2.HasRoom) (hne : name ≠ "") :
    ∃ s L', L.intern name = (.ok s, L') ∧ L'.symbols.Indexed ∧
      L.vocabulary.Enters name s L'.vocabulary := by
  obtain ⟨hresult, hvocabulary, hindexed⟩ := intern_matches hL hroom
  rcases L.vocabulary.intern_spec name with ⟨hempty, -⟩ | ⟨-, s, V', hok, henters⟩
  · exact absurd hempty hne
  · rw [hok] at hresult hvocabulary
    exact ⟨s, (L.intern name).2, Prod.ext hresult rfl, hindexed, hvocabulary ▸ henters⟩

theorem answers_intern (hL : L.Sound) (hroom : (L.intern name).2.HasRoom) :
    L.Answers (.intern name) ((L.intern name).map (.ofResult .symbol) id) := by
  by_cases hne : name = ""
  · subst hne
    exact answers_refused hL fun x hx => hx.1 rfl
  · obtain ⟨s, L', hok, hindexed, henters⟩ := intern_spec hL.indexed hroom hne
    rw [hok]
    exact answers_symbol hL hindexed henters ⟨hne, rfl⟩

theorem answers_declare (hL : L.Sound) (hroom : (L.declare name).2.HasRoom) :
    L.Answers (.declare name) ((L.declare name).map (.ofResult .var) id) := by
  by_cases hne : name = ""
  · subst hne
    exact answers_refused hL fun x hx => hx.1 rfl
  · obtain ⟨s, L', hok, hindexed, henters⟩ :=
      intern_spec hL.indexed (hroom.of_grows (L.declare_grows name)) hne
    have hdeclare : L.declare name = (.ok (L'.allocate s).1, (L'.allocate s).2) := by
      rw [declare, hok]
    rw [hdeclare] at hroom ⊢
    exact answers_var ⟨hindexed, henters.consistent hL.consistent⟩ hroom
      (congrArg Array.size henters.varNames) henters.name? ⟨hne, rfl⟩

theorem answers_copyVar {like : Var} (hL : L.Sound) (hroom : (L.copyVar like).2.HasRoom) :
    L.Answers (.copyVar like) ((L.copyVar like).map (.ofResult .var) id) := by
  cases hsymbol : L.varSymbol? like with
  | none =>
    have hcopy : L.copyVar like = (.error (.unknownVariable like), L) := by rw [copyVar, hsymbol]
    rw [hcopy]
    refine answers_refused hL fun x hx => ?_
    rw [Asks, varName?, hsymbol] at hx
    simp at hx
  | some s =>
    have hcopy : L.copyVar like = (.ok (L.allocate s).1, (L.allocate s).2) := by
      rw [copyVar, hsymbol]
    rw [hcopy] at hroom ⊢
    obtain ⟨name, hname⟩ := Vocabulary.exists_name?
      (hL.consistent.coherent s (Array.mem_of_getElem? hsymbol))
    refine answers_var hL hroom rfl hname ?_
    rw [Asks, varName?, hsymbol]
    exact hname

theorem answers_coin (hL : L.Sound) (hroom : (L.coin stem).2.HasRoom) :
    L.Answers (.coin stem) ((L.coin stem).map (.ofResult .symbol) id) := by
  by_cases hne : stem = ""
  · subst hne
    exact answers_refused hL fun x hx => hx.1 rfl
  · obtain ⟨i, hfirst, hcoin⟩ :=
      coin_eq hL.indexed (hroom.of_grows (L.serve_grows (.coin stem))) hne
    have hname : (advance^[i] L).attempt stem ≠ "" := fun h =>
      hne (String.append_eq_empty_iff.mp h).1
    have hindexed : (advance^[i + 1] L).symbols.Indexed := by
      rw [symbols_iterate_advance]
      exact hL.indexed
    rw [hcoin] at hroom
    obtain ⟨s, L', hok, hindexed', henters⟩ := intern_spec hindexed hroom hname
    rw [vocabulary_iterate_advance] at henters
    rw [hcoin, hok]
    exact answers_symbol hL hindexed' henters.of_counter ⟨hne, hfirst.unused, _, rfl⟩

theorem answers_serve (hL : L.Sound) (hroom : (serve L r).2.HasRoom) :
    L.Answers r (serve L r) := by
  cases r with
  | intern name => exact answers_intern hL hroom
  | declare name => exact answers_declare hL hroom
  | copyVar like => exact answers_copyVar hL hroom
  | coin stem => exact answers_coin hL hroom

end Serving

section Running

variable {rs : List Vocabulary.Request}

theorem Sound.serveAll (hL : L.Sound) (hroom : (serveAll rs L).2.HasRoom) :
    (serveAll rs L).2.Sound := by
  induction rs generalizing L with
  | nil => exact hL
  | cons r rs ih =>
    exact ih (answers_serve hL (hroom.of_grows (serveAll_grows rs _))).sound hroom

theorem vars_serveAll (hL : L.Sound) (hroom : (Registry.serveAll rs L).2.HasRoom) :
    ∃ n, (Registry.serveAll rs L).2.varCount = L.varCount + n ∧
      (Registry.serveAll rs L).1.filterMap Vocabulary.Reply.var? =
        (List.range' L.varCount n).map Var.mk := by
  induction rs generalizing L with
  | nil => exact ⟨0, rfl, rfl⟩
  | cons r rs ih =>
    have hstep := answers_serve hL (hroom.of_grows (serveAll_grows rs _))
    obtain ⟨n, hcount, hvars⟩ := ih hstep.sound hroom
    have hfulfils := hstep.fulfils
    simp only [Registry.serveAll]
    cases hreply : (serve L r).1 with
    | symbol s =>
      rw [hreply] at hfulfils
      rw [hfulfils.1] at hcount hvars
      exact ⟨n, hcount, hvars⟩
    | var v =>
      rw [hreply] at hfulfils
      obtain ⟨rfl, hsucc, -⟩ := hfulfils
      rw [hsucc] at hcount hvars
      refine ⟨n + 1, by omega, ?_⟩
      rw [List.filterMap_cons_some (by rfl), hvars, List.range'_succ, List.map_cons]
    | refused e =>
      rw [hreply] at hfulfils
      rw [hfulfils.1] at hcount hvars ⊢
      exact ⟨n, hcount, hvars⟩

/-- The tables of every lexicon that grew from the empty one, with fewer entries than words, are
consistent. Names are not empty and pairwise distinct, and a name is found as a symbol exactly if
the symbol has it. Known symbols compare as equal only if they are equal. The variables handed out
are numbered in turn, and those below the count are the ones with a name. Every request on the way
was fulfilled as it was asked or changed nothing, and whatever had a name after it has the same
name in the end. -/
theorem tables_consistent (requests : List Vocabulary.Request)
    (hsymbols : (Registry.serveAll requests empty).2.symbolCount < 2 ^ 32)
    (hvars : (Registry.serveAll requests empty).2.varCount < 2 ^ 32) :
    let L := (Registry.serveAll requests empty).2
    ((∀ name ∈ L.symbols.strings.toList, name ≠ "") ∧ L.symbols.strings.toList.Nodup) ∧
      (∀ name s, L.find? name = some s ↔ L.name? s = some name) ∧
      (∀ a b, a.id < L.symbolCount → b.id < L.symbolCount →
        (L.compare? a b = some .eq ↔ a = b)) ∧
      (Registry.serveAll requests empty).1.filterMap Vocabulary.Reply.var? =
        (List.range L.varCount).map Var.mk ∧
      (∀ v, (L.varName? v).isSome ↔ v.id < L.varCount) ∧
      ∀ earlier r later, requests = earlier ++ r :: later →
        let L₀ := (Registry.serveAll earlier empty).2
        let L₁ := (serve L₀ r).2
        L₀.Fulfils r (serve L₀ r).1 L₁ ∧
          (∀ s name, L₁.name? s = some name → L.name? s = some name) ∧
          (∀ v name, L₁.varName? v = some name → L.varName? v = some name) := by
  intro L
  have hroom : L.HasRoom := ⟨hsymbols, hvars⟩
  have hL : L.Sound := sound_empty.serveAll hroom
  obtain ⟨n, hcount, hnumbered⟩ := vars_serveAll sound_empty hroom
  have hzero : empty.varCount = 0 := rfl
  rw [hzero, Nat.zero_add] at hcount
  rw [hzero, ← hcount, ← List.range_eq_range'] at hnumbered
  refine ⟨⟨hL.consistent.nonempty, hL.consistent.nodup⟩, fun name s => ?_, fun a b ha hb => ?_,
    hnumbered, fun _ => hL.consistent.varName?_isSome_iff, ?_⟩
  · rw [find?_eq hL.indexed]
    exact hL.consistent.find?_eq_some_iff
  · exact hL.consistent.compare?_eq_iff (Vocabulary.knowsSymbol_iff.mpr ha)
      (Vocabulary.knowsSymbol_iff.mpr hb)
  · rintro earlier r later rfl
    intro L₀ L₁
    have hL₁ : L = (Registry.serveAll later L₁).2 := serveAll_append earlier (r :: later) empty
    have hgrows : L₁.vocabulary.Grows L.vocabulary := hL₁ ▸ serveAll_grows later L₁
    have hroom₁ : L₁.HasRoom := hroom.of_grows hgrows
    have hL₀ : L₀.Sound := sound_empty.serveAll (hroom₁.of_grows (L₀.serve_grows r))
    exact ⟨(answers_serve hL₀ hroom₁).fulfils, fun _ _ => hgrows.name?, fun _ _ => hgrows.varName?⟩

/-- A name that is taken already, one that is made up beside it, and requests that are refused. -/
def mixedRequests : List Vocabulary.Request :=
  [.declare "x", .intern "", .intern "x0", .coin "x", .copyVar ⟨0⟩, .copyVar ⟨7⟩, .coin ""]

theorem tables_consistent_mixedRequests :
    let L := (Registry.serveAll mixedRequests empty).2
    (L.symbolCount < 2 ^ 32 ∧ L.varCount < 2 ^ 32) ∧
      (L.find? "x1" = some ⟨2⟩ ∧ L.name? ⟨2⟩ = some "x1") ∧
      (Registry.serveAll mixedRequests empty).1.filterMap Vocabulary.Reply.var? = [⟨0⟩, ⟨1⟩] := by
  intro L
  have hL : L = ⟨⟨#["x", "x0", "x1"], [("x1", 2), ("x0", 1), ("x", 0)]⟩, #[⟨0⟩, ⟨0⟩], 2⟩ := by cbv
  have hsymbols : L.symbolCount < 2 ^ 32 := by
    rw [hL]
    decide
  have hvars : L.varCount < 2 ^ 32 := by
    rw [hL]
    decide
  obtain ⟨-, hfind, -, hnumbered, -, -⟩ := tables_consistent mixedRequests hsymbols hvars
  have hname : L.name? ⟨2⟩ = some "x1" := by
    rw [hL]
    rfl
  refine ⟨⟨hsymbols, hvars⟩, ⟨(hfind _ _).mpr hname, hname⟩, hnumbered.trans ?_⟩
  show (List.range L.varCount).map Var.mk = _
  rw [hL]
  decide

end Running

section Refining

variable {N i : ℕ}

theorem FirstUnused.counts (h : L.FirstUnused stem i) (hL : L.symbols.Indexed)
    (hN : L.vocabulary.FirstUnused stem L.generated.toNat N) (hword : N < 2 ^ 32) :
    L.generated.toNat + i = N := by
  have hattempt : ∀ j, L.generated.toNat + j ≤ N → L.contains ((advance^[j] L).attempt stem) =
      L.vocabulary.contains (stem ++ toString (L.generated.toNat + j)) := by
    intro j hj
    rw [contains_eq hL, attempt_iterate_advance, Nat.mod_eq_of_lt (by omega)]
  have hle := hN.le
  rcases lt_trichotomy (L.generated.toNat + i) N with hlt | heq | hgt
  · have htaken := hN.taken _ (Nat.le_add_right _ i) hlt
    rw [← hattempt i hlt.le, h.unused] at htaken
    simp at htaken
  · exact heq
  · have htaken := h.taken (N - L.generated.toNat) (by omega)
    rw [hattempt _ (by omega), Nat.add_sub_cancel' hle, hN.unused] at htaken
    simp at htaken

theorem coin_matches (hL : L.symbols.Indexed) (hroom : (L.coin stem).2.HasRoom)
    (hword : (L.vocabulary.coin stem).2.generated < 2 ^ 32) :
    Matches (L.coin stem) (L.vocabulary.coin stem) := by
  by_cases hne : stem = ""
  · subst hne
    exact ⟨rfl, rfl, hL⟩
  · obtain ⟨i, hfirst, hcoin⟩ :=
      coin_eq hL (hroom.of_grows (L.serve_grows (.coin stem))) hne
    obtain ⟨N, hN, hcoined⟩ := L.vocabulary.coin_eq hne
    have hlt : N + 1 < 2 ^ 32 := by
      rwa [hcoined, Vocabulary.generated_intern] at hword
    have hcount := hfirst.counts hL hN (by omega)
    have hattempt : (advance^[i] L).attempt stem = stem ++ toString N := by
      rw [attempt_iterate_advance, hcount, Nat.mod_eq_of_lt (by omega)]
    have hvocabulary :
        (advance^[i + 1] L).vocabulary = { L.vocabulary with generated := N + 1 } := by
      rw [vocabulary_iterate_advance, ← Nat.add_assoc, hcount, Nat.mod_eq_of_lt hlt]
    rw [hcoin] at hroom
    rw [hcoin, hcoined, ← hvocabulary, ← hattempt]
    refine intern_matches ?_ hroom
    rw [symbols_iterate_advance]
    exact hL

theorem serve_matches (hL : L.symbols.Indexed) {r : Vocabulary.Request}
    (hroom : (serve L r).2.HasRoom) (hword : (serve L.vocabulary r).2.generated < 2 ^ 32) :
    Matches (serve L r) (serve L.vocabulary r) := by
  cases r with
  | intern name => exact (intern_matches hL hroom).map _
  | declare name => exact (declare_matches hL hroom).map _
  | copyVar like => exact (copyVar_matches hL hroom).map _
  | coin stem => exact (coin_matches hL hroom hword).map _

/-- A lexicon refines the vocabulary of its entries. In every run that leaves fewer entries than
words, and in which the counter does not start over, the replies are the same, and so are the
entries in the end. -/
theorem serveAll_matches (hL : L.symbols.Indexed) {rs : List Vocabulary.Request}
    (hroom : (serveAll rs L).2.HasRoom)
    (hword : (serveAll rs L.vocabulary).2.generated < 2 ^ 32) :
    Matches (serveAll rs L) (serveAll rs L.vocabulary) := by
  induction rs generalizing L with
  | nil => exact ⟨rfl, rfl, hL⟩
  | cons r rs ih =>
    have hstep := serve_matches hL (hroom.of_grows (serveAll_grows rs _))
      ((Vocabulary.generated_le_serveAll rs _).trans_lt hword)
    have hrest : Matches (serveAll rs (serve L r).2) (serveAll rs (serve L.vocabulary r).2) := by
      rw [← hstep.vocabulary]
      refine ih hstep.indexed hroom ?_
      rw [hstep.vocabulary]
      exact hword
    exact ⟨congrArg₂ List.cons hstep.result hrest.result, hrest.vocabulary, hrest.indexed⟩

end Refining

end Lexicon

end HornResolution
