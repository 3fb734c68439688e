import Discharge.Formula.Reading
import Discharge.Term.Normal
import Discharge.Proofs.Cache.KeyText
import Discharge.Proofs.Success
import Mathlib.Data.List.TakeWhile

namespace Discharge.Formula

namespace Token

def IsWord (text : String) : Prop := ∀ c ∈ text.toList, isNameChar c = true

def Sound : Token → Prop
  | name text => IsWord text
  | _ => True

section Scanning

variable {input rest : List Text.Part}

theorem isNameChar_of_mem_span {c : Char} (h : c ∈ (span isNameChar input).1) :
    isNameChar c = true := by
  obtain ⟨p, hp, rfl⟩ := List.mem_map.mp h
  have hin := List.mem_takeWhile_imp hp
  cases p with
  | char c => exact hin
  | byte b => cases hin

theorem isWord_span : IsWord (String.ofList (span isNameChar input).1) := by
  intro c hc
  rw [String.toList_ofList] at hc
  exact isNameChar_of_mem_span hc

theorem sound_ofWord {text : String} (h : IsWord text) : (ofWord text).Sound := by
  unfold ofWord
  split
  · trivial
  · exact h

theorem sound_of_scanNumber {t : Token} (h : scanNumber input = some (t, rest)) : t.Sound := by
  unfold scanNumber at h
  iterate 3 split at h
  extract_lets isDigit at h
  clear_value isDigit
  split at h
  extract_lets head at h
  split at h
  · cases h
    trivial
  · repeat split at h
    · cases h
    · cases h
      trivial

theorem isWord_cons {c : Char} (hc : isNameChar c = true) :
    IsWord (String.ofList (c :: (span isNameChar input).1)) := by
  intro d hd
  rw [String.toList_ofList] at hd
  rcases List.mem_cons.mp hd with rfl | hd
  · exact hc
  · exact isNameChar_of_mem_span hd

def Scans (o : Option (List Token × List Text.Part)) : Prop := ∀ r ∈ o, ∀ t ∈ r.1, t.Sound

theorem Scans.none : Scans none := fun _ h => nomatch h

theorem Scans.some {ts : List Token} (h : ∀ t ∈ ts, t.Sound) (rest : List Text.Part) :
    Scans (some (ts, rest)) := by
  intro r hr
  cases hr
  exact h

theorem Scans.nothing (rest : List Text.Part) : Scans (Option.some ([], rest)) :=
  .some (List.forall_mem_nil _) rest

theorem Scans.single {t : Token} (h : t.Sound) (rest : List Text.Part) :
    Scans (Option.some ([t], rest)) :=
  .some (List.forall_mem_singleton.mpr h) rest

theorem Scans.bind {α : Type} {o : Option α} {f : α → Option (List Token × List Text.Part)}
    (h : ∀ a ∈ o, Scans (f a)) : Scans (o >>= f) := by
  intro r hr
  obtain ⟨a, ha, hr⟩ := Option.bind_eq_some_iff.mp hr
  exact h a ha r hr

theorem Scans.double (c : Char) (followers : List Char) (input : List Text.Part) :
    Scans (Option.some (next.double c followers input)) :=
  Scans.single (t := operator (String.ofList (c :: (accept followers input).1))) trivial _

theorem Scans.number (input : List Text.Part) : Scans (do
    let (token, rest) ← scanNumber input
    return ([token], rest)) :=
  .bind fun _ h => .single (sound_of_scanNumber h) _

theorem Scans.mark (again : List Char) (input : List Text.Part) : Scans (Option.some
    (operator (String.ofList ('#' :: again)) ::
      (if (span isNameChar input).1.isEmpty then []
        else [name (String.ofList (span isNameChar input).1)]),
      (span isNameChar input).2)) := by
  refine .some (List.forall_mem_cons.mpr ⟨by trivial, ?_⟩) _
  split
  · exact List.forall_mem_nil _
  · exact List.forall_mem_singleton.mpr isWord_span

theorem scans_next (input : List Text.Part) : Scans (next input) := by
  unfold next
  split
  · split
    · exact .nothing _
    · split
      · exact .bind fun _ _ => .single (by trivial) _
      · split
        · exact .bind fun _ _ => .single (by trivial) _
        · split
          · exact .number _
          · split
            · exact .double _ _ _
            · split
              · exact .nothing _
              · rw [Option.map_eq_bind]
                exact .bind fun _ _ => .nothing _
              · exact .single (by trivial) _
            · exact .mark _ _
            · exact .double _ _ _
            · exact .double _ _ _
            · split
              · exact .number _
              · exact .double _ _ _
            · split
              · exact .single (by trivial) _
              · split
                · exact .single (by trivial) _
                · split
                  · exact .double _ _ _
                  · split
                    · rename_i hc
                      exact .single (sound_ofWord (isWord_cons hc)) _
                    · exact .none
  · exact .none

theorem sound_scanAll (fuel : Nat) (input : List Text.Part) (acc : Array Token)
    (hacc : ∀ t ∈ acc, t.Sound) : ∀ ts ∈ scanAll fuel input acc, ∀ t ∈ ts, t.Sound := by
  induction fuel generalizing input acc with
  | zero =>
    intro ts hts
    cases input with
    | nil =>
      cases hts
      simpa using hacc
    | cons => cases hts
  | succ fuel ih =>
    intro ts hts
    cases input with
    | nil =>
      cases hts
      simpa using hacc
    | cons p rest =>
      obtain ⟨⟨found, rest'⟩, hnext, hts⟩ := Option.bind_eq_some_iff.mp hts
      refine ih rest' _ (fun t ht => ?_) ts hts
      rw [← Array.mem_toList_iff, Array.toList_appendList] at ht
      rcases List.mem_append.mp ht with ht | ht
      · exact hacc t (Array.mem_toList_iff.mp ht)
      · exact scans_next _ _ hnext t ht

theorem sound_scan (text : Text) : ∀ ts ∈ scan text, ∀ t ∈ ts, t.Sound :=
  sound_scanAll _ _ #[] (by simp)

end Scanning

end Token

/-- Whether a formula, signs in front of it aside, calls a word if it is a call. -/
def Tree.CallsWord : Tree → Prop
  | call (name n) _ => Token.IsWord n
  | iteration n _ => Token.IsWord n
  | unary _ operand => operand.CallsWord
  | _ => True

namespace Grammar

def State.Sound (s : State) : Prop := ∀ t ∈ s.tokens, t.Sound

/-- Whether what a reader reads from sound tokens has a property. The tokens it leaves are sound. -/
def Yields {α : Type} (r : Reader α) (P : α → Prop) : Prop :=
  ∀ s : State, s.Sound → ∀ p ∈ r s, P p.1 ∧ p.2.Sound

abbrev ReadsTree (r : Reader Tree) : Prop := Yields r Tree.CallsWord

abbrev Keeps {α : Type} (r : Reader α) : Prop := Yields r fun _ => True

namespace Yields

variable {α β : Type} {r : Reader α} {f : α → Reader β} {P : α → Prop} {Q : β → Prop}

theorem pure {a : α} (h : P a) : Yields (pure a) P := by
  intro s hs p hp
  cases hp
  exact ⟨h, hs⟩

theorem failure : Yields failure P := fun _ _ _ h => nomatch h

theorem failure_bind : Yields (Alternative.failure >>= f) Q := fun _ _ _ h => nomatch h

theorem ite {c : Prop} [Decidable c] {r' : Reader α} (h : Yields r P) (h' : Yields r' P) :
    Yields (if c then r else r') P := by
  split
  · exact h
  · exact h'

theorem bind (hr : Yields r P) (hf : ∀ a, P a → Yields (f a) Q) : Yields (r >>= f) Q := by
  intro s hs p hp
  obtain ⟨⟨a, s'⟩, ha, hp⟩ := Option.bind_eq_some_iff.mp hp
  obtain ⟨hPa, hs'⟩ := hr s hs _ ha
  exact hf a hPa s' hs' p hp

theorem mono {P' : α → Prop} (hr : Yields r P) (h : ∀ a, P a → P' a) : Yields r P' :=
  fun s hs p hp => ⟨h _ (hr s hs p hp).1, (hr s hs p hp).2⟩

theorem keeps (hr : Yields r P) : Keeps r := hr.mono fun _ _ => trivial

theorem get : Yields get State.Sound := by
  intro s hs p hp
  cases hp
  exact ⟨hs, hs⟩

theorem set {s : State} (h : s.Sound) : Keeps (set s) := by
  intro _ _ p hp
  cases hp
  exact ⟨trivial, h⟩

theorem modify {f : State → State} (h : ∀ s : State, s.Sound → (f s).Sound) :
    Keeps (modify f) := by
  intro s hs p hp
  cases hp
  exact ⟨trivial, h s hs⟩

end Yields

section Basics

theorem yields_build (t : Tree) : Yields (build t) (· = t) := by
  refine .bind .get fun s hs => ?_
  refine .ite .failure_bind ?_
  exact .bind (.set hs) fun _ _ => .pure rfl

theorem yields_peek : Yields peek fun o => ∀ t ∈ o, t.Sound :=
  .bind .get fun _ hs => .pure fun t ht => hs t (List.mem_of_mem_head? ht)

theorem keeps_advance : Keeps advance :=
  .modify fun _ hs t ht => hs t (List.mem_of_mem_drop ht)

theorem keeps_remaining : Keeps remaining := .bind .get fun _ _ => .pure trivial

theorem keeps_sees (t : Token) : Keeps (sees t) := .bind yields_peek fun _ _ => .pure trivial

theorem keeps_skip (t : Token) : Keeps (skip t) :=
  .bind (keeps_sees t) fun _ _ =>
    .ite (.bind keeps_advance fun _ _ => .pure trivial) (.pure trivial)

theorem keeps_expect (t : Token) : Keeps (expect t) :=
  .bind (keeps_skip t) fun _ _ => .ite .failure (.pure trivial)

theorem yields_expectName : Yields expectName Token.IsWord := by
  refine .bind yields_peek fun o ho => ?_
  split
  · exact .bind keeps_advance fun _ _ => .pure (ho _ rfl)
  · exact .failure

theorem reads_build {t : Tree} (h : t.CallsWord) : ReadsTree (build t) :=
  (yields_build t).mono fun _ he => he ▸ h

theorem reads_property : ReadsTree property := by
  refine .bind yields_peek fun _ _ => ?_
  split
  · exact .bind keeps_advance fun _ _ => reads_build trivial
  · exact .ite .failure_bind (.bind keeps_advance fun _ _ => reads_build trivial)
  · exact .failure

theorem callsWord_of_whole {base : Nat} {value? : Char → Option Nat} {digits : List Char}
    {t : Tree} (h : numeral?.whole base value? digits = some t) : t.CallsWord := by
  unfold numeral?.whole at h
  split at h
  · cases h
  · obtain ⟨value, -, h⟩ := Option.bind_eq_some_iff.mp h
    obtain ⟨-, -, h⟩ := Option.bind_eq_some_iff.mp h
    cases h
    trivial

theorem callsWord_of_fractional {digits : List Char} {t : Tree}
    (h : numeral?.fractional digits = some t) : t.CallsWord := by
  unfold numeral?.fractional at h
  extract_lets isMark body tail before behind value made at h
  have hmade : ∀ {power : Option Int}, power >>= made = some t → t.CallsWord := by
    intro power hpower
    obtain ⟨p, -, hp⟩ := Option.bind_eq_some_iff.mp hpower
    obtain ⟨d, -, hd⟩ := Option.bind_eq_some_iff.mp hp
    cases hd
    trivial
  clear_value made tail
  obtain ⟨-, -, h⟩ := Option.bind_eq_some_iff.mp h
  split at h <;> exact hmade h

theorem callsWord_of_numeral? {text : String} {t : Tree} (h : numeral? text = some t) :
    t.CallsWord := by
  unfold numeral? at h
  extract_lets digits at h
  clear_value digits
  repeat' split at h
  all_goals first | exact callsWord_of_whole h | exact callsWord_of_fractional h

end Basics

section Parts

variable {expression : Nat → Reader Tree} (he : ∀ least, ReadsTree (expression least))

include he

theorem keeps_sequenceRest (fuel : Nat) (parts : Array Tree) :
    Keeps (sequenceRest expression fuel parts) := by
  induction fuel generalizing parts with
  | zero => exact .pure trivial
  | succ fuel ih =>
    refine .bind (keeps_skip _) fun _ _ => .ite (.pure trivial) ?_
    refine .bind yields_peek fun _ _ => .ite (.pure trivial) ?_
    exact .bind (he 0) fun _ _ => ih _

theorem reads_sequence : ReadsTree (sequence expression) := by
  refine .bind (he 0) fun first hfirst => ?_
  refine .bind keeps_remaining fun _ _ => ?_
  refine .bind (keeps_sequenceRest he _ _) fun _ _ => ?_
  exact .ite (reads_build trivial) (.pure hfirst)

theorem keeps_items (close : Char) (fuel : Nat) (acc : Array Tree) :
    Keeps (items expression close fuel acc) := by
  induction fuel generalizing acc with
  | zero => exact .failure
  | succ fuel ih =>
    have hitem : ∀ acc : Array Tree, Keeps (do items expression close fuel (acc.push (← expression 0))) :=
      fun acc => .bind (he 0) fun _ _ => ih _
    refine .bind (keeps_skip _) fun _ _ => .ite (.pure trivial) ?_
    refine .ite ?_ (hitem acc)
    refine .bind (keeps_expect _) fun _ _ => ?_
    exact .bind (keeps_skip _) fun _ _ => .ite (.pure trivial) (hitem acc)

theorem keeps_arguments : Keeps (arguments expression) :=
  .bind (keeps_expect _) fun _ _ => .bind keeps_remaining fun _ _ =>
    .bind (keeps_items he _ _ _) fun _ _ => .pure trivial

theorem keeps_predicate : Keeps (predicate expression) := by
  have hclosed : ∀ (braces : Bool) (body : Tree), Keeps (do
      modify fun s => { s with depth := s.depth - 1 }
      if braces then expect (.bracket '\x7d')
      else if ← seesOperator ";" then failure
      build (.predicate body)) := by
    intro braces body
    have hbuild := (reads_build (t := .predicate body) trivial).keeps
    refine .bind (.modify fun _ hs => hs) fun _ _ => ?_
    refine .ite (.bind (keeps_expect _) fun _ _ => hbuild) ?_
    exact .bind (keeps_sees _) fun _ _ => .ite .failure_bind hbuild
  refine .bind (keeps_skip _) fun braces _ => ?_
  refine .bind (.modify fun _ hs => hs) fun _ _ => ?_
  refine .ite ?_ ?_
  · exact .bind (reads_sequence he) fun body _ => hclosed braces body
  · exact .bind (he 0) fun body _ => hclosed braces body

theorem keeps_iterationArgs (expected : List (Bool × Bool)) (first : Bool) (acc : Array Tree) :
    Keeps (iterationArgs expression expected first acc) := by
  induction expected generalizing first acc with
  | nil => exact .pure trivial
  | cons e rest ih =>
    obtain ⟨isPredicate, mayMiss⟩ := e
    have harg : Keeps (do
        let arg ← if isPredicate then predicate expression else expression 0
        iterationArgs expression rest false (acc.push arg)) :=
      .ite (.bind (keeps_predicate he) fun _ _ => ih _ _) (.bind (he 0) fun _ _ => ih _ _)
    refine .bind (keeps_sees _) fun _ _ => .ite (.ite (.pure trivial) .failure) ?_
    exact .ite (.bind (keeps_expect _) fun _ _ => harg) harg

theorem reads_call {function : String} (h : Token.IsWord function) (piped : List Tree) :
    ReadsTree (call expression function piped) := by
  unfold call
  split
  · refine .bind (keeps_expect _) fun _ _ => ?_
    refine .bind (keeps_iterationArgs he _ _ _) fun _ _ => ?_
    refine .bind (keeps_skip _) fun _ _ => ?_
    exact .bind (keeps_expect _) fun _ _ => reads_build h
  · refine .bind (yields_build _) fun callee hcallee => ?_
    subst hcallee
    exact .bind (keeps_arguments he) fun _ _ => reads_build h

theorem reads_index (base : Tree) (isOptional : Bool) :
    ReadsTree (index expression base isOptional) := by
  have hclosed : ∀ {t : Tree}, t.CallsWord → ReadsTree (do
      expect (.bracket ']')
      return t) := fun h => .bind (keeps_expect _) fun _ _ => .pure h
  have hslice : ∀ first : Option Tree, ReadsTree (do
      if ← skip (.bracket ']') then build (.slice base first none)
      else
        let last ← expression 0
        let t ← build (.slice base first (some last))
        expect (.bracket ']')
        return t) := by
    intro first
    refine .bind (keeps_skip _) fun _ _ => .ite (reads_build trivial) ?_
    exact .bind (he 0) fun _ _ => .bind (reads_build trivial) fun _ h => hclosed h
  refine .bind (keeps_skip _) fun _ _ => .ite (hslice none) ?_
  refine .bind (he 0) fun first _ => .bind (keeps_skip _) fun _ _ => .ite (hslice (some first)) ?_
  refine .bind (reads_build trivial) fun t h => .ite ?_ (.bind (.pure h) fun _ h => hclosed h)
  exact .bind (reads_build trivial) fun _ h => hclosed h

theorem reads_access (base : Tree) (isOptional : Bool) :
    ReadsTree (access expression base isOptional) := by
  refine .bind reads_property fun p _ => ?_
  split
  rename_i inner chained _
  have hchained : ∀ {t : Tree}, t.CallsWord → ReadsTree
      (if chained || isOptional then build (.chain t) else pure t) :=
    fun h => .ite (reads_build trivial) (.pure h)
  refine .bind (yields_build _) fun m hm => ?_
  subst hm
  refine .bind (keeps_sees _) fun _ _ => .ite ?_ (.bind (.pure trivial) fun _ h => hchained h)
  exact .bind (keeps_arguments he) fun _ _ => .bind (reads_build trivial) fun _ h => hchained h

theorem reads_postfixes (fuel : Nat) {base : Tree} (h : base.CallsWord) :
    ReadsTree (postfixes expression fuel base) := by
  induction fuel generalizing base with
  | zero => exact .pure h
  | succ fuel ih =>
    have haccess := fun isOptional => Yields.bind (reads_access he base isOptional) fun _ h => ih h
    have hindex := fun isOptional => Yields.bind (reads_index he base isOptional) fun _ h => ih h
    refine .bind (keeps_skip _) fun _ _ => .ite (haccess false) ?_
    refine .bind (keeps_skip _) fun _ _ => .ite ?_ ?_
    · exact .bind (keeps_skip _) fun _ _ => .ite (hindex true) (haccess true)
    · exact .bind (keeps_skip _) fun _ _ => .ite (hindex false) (.pure h)

theorem reads_withPostfixes {base : Tree} (h : base.CallsWord) :
    ReadsTree (withPostfixes expression base) :=
  .bind keeps_remaining fun _ _ => reads_postfixes he _ h

theorem keeps_pairs (fuel : Nat) (acc : Array (Tree × Tree)) :
    Keeps (pairs expression fuel acc) := by
  induction fuel generalizing acc with
  | zero => exact .failure
  | succ fuel ih =>
    refine .bind (keeps_skip _) fun _ _ => .ite (.pure trivial) ?_
    extract_lets valued keyed
    have hvalued : ∀ key, Keeps (valued key) := by
      refine fun key => .bind (keeps_expect _) fun _ _ => .bind (he 0) fun value _ => ?_
      exact .bind (yields_build value) fun _ _ => ih _
    have hkeyed : ∀ u, Keeps (keyed u) := by
      refine fun _ => .bind yields_peek fun _ _ => ?_
      split
      · exact .bind keeps_advance fun _ _ => .bind (yields_build _) fun key _ => hvalued key
      · exact .bind keeps_advance fun _ _ => .bind (yields_build _) fun key _ => hvalued key
      · exact .bind keeps_advance fun _ _ => .bind (yields_build _) fun key _ => hvalued key
      · exact .bind (he 0) fun key _ => hvalued key
      · exact .failure_bind
    refine .ite (.bind (keeps_expect _) fun _ _ => ?_) (hkeyed ())
    exact .bind (keeps_skip _) fun _ _ => .ite (.pure trivial) (hkeyed ())

theorem reads_atom : ReadsTree (atom expression) := by
  refine .bind yields_peek fun o ho => ?_
  split
  · rename_i n
    have hword : Token.IsWord n := ho _ rfl
    refine .bind keeps_advance fun _ _ => ?_
    split
    · exact reads_build trivial
    · exact reads_build trivial
    · exact reads_build trivial
    · refine .bind (keeps_sees _) fun _ _ => .ite ?_ ?_
      · exact .bind (reads_call he hword []) fun _ h => reads_withPostfixes he h
      · exact .bind (reads_build trivial) fun _ h => reads_withPostfixes he h
  · refine .bind keeps_advance fun _ _ => ?_
    split
    · rename_i t ht
      exact reads_build (callsWord_of_numeral? ht)
    · exact .failure
  · refine .bind keeps_advance fun _ _ => ?_
    exact .bind (reads_build trivial) fun _ h => reads_withPostfixes he h
  · refine .bind keeps_advance fun _ _ => .bind keeps_remaining fun _ _ => ?_
    refine .bind (keeps_items he _ _ _) fun _ _ => ?_
    exact .bind (reads_build trivial) fun _ h => reads_withPostfixes he h
  · refine .bind keeps_advance fun _ _ => .bind keeps_remaining fun _ _ => ?_
    refine .bind (keeps_pairs he _ _) fun _ _ => ?_
    exact .bind (reads_build trivial) fun _ h => reads_withPostfixes he h
  · exact .failure

theorem reads_primary : ReadsTree (primary expression) := by
  refine .bind .get fun _ _ => .bind yields_peek fun _ _ => ?_
  split
  · refine .bind keeps_advance fun _ _ => .bind (reads_sequence he) fun _ h => ?_
    exact .bind (keeps_expect _) fun _ _ => reads_withPostfixes he h
  · split
    · refine .bind keeps_advance fun _ _ => .bind (he _) fun _ h => ?_
      exact .bind (reads_build h) fun _ h => reads_withPostfixes he h
    · refine .ite (.bind keeps_advance fun _ _ => .bind yields_peek fun _ _ => ?_) ?_
      · have helement : ∀ n, ReadsTree (do withPostfixes expression (← build (.element n))) :=
          fun n => .bind (reads_build trivial) fun _ h => reads_withPostfixes he h
        dsimp only
        split
        · exact .bind keeps_advance fun _ _ => helement _
        · exact helement _
      · refine .ite (.bind (reads_build trivial) fun _ h => reads_withPostfixes he h) ?_
        refine .ite (.bind keeps_advance fun _ _ => ?_) .failure
        refine .bind yields_expectName fun _ hword => ?_
        exact .bind (reads_call he hword []) fun _ h => reads_withPostfixes he h
  · exact reads_atom he

theorem reads_comparisons (fuel : Nat) (joined : Option Tree) (left : Tree) (op : String) :
    ReadsTree (comparisons expression fuel joined left op) := by
  induction fuel generalizing joined left op with
  | zero => exact .failure
  | succ fuel ih =>
    refine .bind (he 21) fun right _ => .bind (reads_build trivial) fun comparison h => ?_
    extract_lets joining
    have hjoining : ∀ joined : Tree, joined.CallsWord → ReadsTree (joining joined) := by
      intro joined h
      refine .bind yields_peek fun _ _ => ?_
      split
      · exact .ite (.bind keeps_advance fun _ _ => ih _ _ _) (.pure h)
      · exact .pure h
    split
    · exact .bind (.pure h) fun _ h => hjoining _ h
    · exact .bind (reads_build trivial) fun _ h => hjoining _ h

theorem reads_operations (least fuel : Nat) (previous : String) {left : Tree}
    (h : left.CallsWord) : ReadsTree (operations expression least fuel previous left) := by
  induction fuel generalizing previous left with
  | zero => exact .pure h
  | succ fuel ih =>
    refine .bind .get fun s _ => ?_
    extract_lets applied
    have happlied : ∀ p, ReadsTree (applied p) := by
      rintro ⟨negated, op⟩
      unfold applied
      dsimp -zeta only
      split
      · exact .pure h
      · refine .ite (.pure h) ?_
        extract_lets further rest
        have hrest : ∀ u, ReadsTree (rest u) := by
          refine fun _ => .bind keeps_advance fun _ _ => .ite ?_ (.ite .failure (.ite ?_ ?_))
          · refine .bind yields_expectName fun _ hword => ?_
            exact .bind (reads_call he hword [left]) fun _ ht => ih op ht
          · refine .bind keeps_remaining fun _ _ => ?_
            exact .bind (reads_comparisons he _ _ _ _) fun _ ht => ih op ht
          · refine .bind (he _) fun _ _ => .bind (reads_build trivial) fun _ ht => .ite ?_ ?_
            · exact .bind (reads_build ht) fun _ ht => ih op ht
            · exact .bind (.pure ht) fun _ ht => ih op ht
        exact .ite (.bind keeps_advance fun u _ => hrest u) (hrest ())
    have hchosen : ∀ p, ReadsTree (do applied (← pure p)) := fun p =>
      .bind (.pure (P := fun _ => True) trivial) fun p _ => happlied p
    split
    · exact .ite (hchosen _) .failure_bind
    · split
      · exact hchosen _
      · exact .failure_bind
    · exact .failure_bind
    · exact hchosen _
    · exact hchosen _

theorem reads_choices (fuel : Nat) {t : Tree} (h : t.CallsWord) :
    ReadsTree (choices expression fuel t) := by
  induction fuel generalizing t with
  | zero => exact .pure h
  | succ fuel ih =>
    have hbuilt : ∀ positive, ReadsTree (do
        let negative ← expression 0
        choices expression fuel (← build (.condition t positive negative))) := fun positive =>
      .bind (he 0) fun negative _ => .bind (reads_build trivial) fun _ h => ih h
    refine .bind (keeps_skip _) fun _ _ => .ite (.pure h) ?_
    refine .bind (keeps_skip _) fun _ _ => .ite (hbuilt t) ?_
    exact .bind (he 0) fun positive _ => .bind (keeps_expect _) fun _ _ => hbuilt positive

theorem reads_definition : ReadsTree (definition expression) := by
  refine .bind yields_expectName fun _ _ => .bind (keeps_expect _) fun _ _ => ?_
  refine .bind (he 0) fun _ _ => .bind (keeps_expect _) fun _ _ => ?_
  exact .bind (reads_sequence he) fun _ _ => reads_build trivial

theorem reads_conditional : ReadsTree (conditional expression) := by
  refine .bind (he 0) fun _ _ => .bind (keeps_expect _) fun _ _ => ?_
  refine .bind (reads_sequence he) fun _ _ => .bind (keeps_expect _) fun _ _ => ?_
  refine .bind (keeps_expect _) fun _ _ => .bind (keeps_expect _) fun _ _ => ?_
  refine .bind (reads_sequence he) fun _ _ => .bind (keeps_expect _) fun _ _ => ?_
  exact .pure trivial

theorem reads_operated (least : Nat) : ReadsTree (operated expression least) := by
  refine .bind (reads_primary he) fun _ hfirst => .bind keeps_remaining fun _ _ => ?_
  refine .bind (reads_operations he _ _ _ hfirst) fun _ ht => .ite ?_ (.pure ht)
  exact .bind keeps_remaining fun _ _ => reads_choices he _ ht

theorem reads_level (least : Nat) : ReadsTree (level expression least) := by
  refine .ite ?_ (reads_operated he least)
  refine .bind (keeps_skip _) fun _ _ => .ite (reads_definition he) ?_
  exact .bind (keeps_skip _) fun _ _ => .ite (reads_conditional he) (reads_operated he least)

end Parts

theorem reads_expression (fuel least : Nat) : ReadsTree (expression fuel least) := by
  induction fuel generalizing least with
  | zero => exact .failure
  | succ fuel ih => exact reads_level ih least

end Grammar

namespace Tree

theorem callsWord_of_read? {source : Text} {t : Tree} (h : read? source = some t) :
    t.CallsWord := by
  obtain ⟨tokens, htokens, h⟩ := Option.bind_eq_some_iff.mp h
  obtain ⟨⟨u, rest⟩, hrun, h⟩ := Option.bind_eq_some_iff.mp h
  have hread := (Grammar.reads_sequence (Grammar.reads_expression (tokens.length + 1)) ⟨tokens, 0, 0⟩
    (Token.sound_scan source tokens htokens) _ hrun).1
  dsimp only at h
  split at h
  · cases h
    exact hread
  · cases h

end Tree

section Equations

variable {sig : Signature} {t : Term}

def EquationHasSides (t : Term) : Prop :=
  t.operator? = some ("=" : Text) → ∃ sides, t.sides? = some sides

theorem ne_equal_of_isWord {text : String} (h : Token.IsWord text) : (text : Text) ≠ "=" := by
  intro he
  rw [Text.ofString_injective he] at h
  exact absurd (h '=' (by decide)) (by decide)

theorem EquationHasSides.of_call {op : Text} (h : op ≠ "=") (k : Kind) (args : List Term) :
    EquationHasSides (.call op k args) := fun hop => (h (Option.some.inj hop)).elim

theorem EquationHasSides.of_pair (fn a b : Term) (k : Kind) :
    EquationHasSides (.apply fn [a, b] k) := fun _ => ⟨(a, b), rfl⟩

theorem equationHasSides_applied {text : String} (h : Token.IsWord text) (args : List Term) :
    EquationHasSides (sig.applied text args) := by
  unfold Signature.applied
  split
  · exact .of_pair _ _ _ _
  · intro hop
    have hname : (sig.symbol (text : Text)).name = text := by
      unfold Signature.symbol
      split <;> rfl
    rw [Term.operator?, hname] at hop
    exact (ne_equal_of_isWord h (Option.some.inj hop)).elim

/-- One case for each formula that a term stands for. A sign in front of a formula may vanish. -/
theorem equationHasSides_toTerm : (tree : Tree) → tree.CallsWord → (t : Term) →
    tree.toTerm sig = .ok t → EquationHasSides t
  | .truth value, _, t, ht => by
    cases ht
    cases value <;> exact nofun
  | .integer _, _, t, ht => by
    cases ht
    exact nofun
  | .name _, _, t, ht => by
    cases ht
    exact nofun
  | .member base property isOptional, _, t, ht => by
    rw [Tree.toTerm] at ht
    obtain ⟨name, -, ht⟩ := bind_eq_ok.mp ht
    cases ht
    exact nofun
  | .unary op operand, h, t, ht => by
    rw [Tree.toTerm] at ht
    obtain ⟨u, hu, ht⟩ := bind_eq_ok.mp ht
    have hsides := equationHasSides_toTerm operand h u hu
    split at ht
    · cases ht
      exact .of_call (by decide) _ _
    · cases ht
      exact hsides
    · cases ht
      exact .of_call (by decide) _ _
  | .binary op left right, _, t, ht => by
    rw [Tree.toTerm] at ht
    split at ht
    · cases ht
    · obtain ⟨l, -, ht⟩ := bind_eq_ok.mp ht
      obtain ⟨r, -, ht⟩ := bind_eq_ok.mp ht
      cases ht
      exact .of_pair _ _ _ _
  | .call callee args, h, t, ht => by
    cases callee with
    | name n =>
      rw [Tree.toTerm] at ht
      obtain ⟨ts, -, ht⟩ := bind_eq_ok.mp ht
      cases ht
      exact equationHasSides_applied h ts
    | _ => cases ht
  | .iteration n args, h, t, ht => by
    rw [Tree.toTerm] at ht
    obtain ⟨ts, -, ht⟩ := bind_eq_ok.mp ht
    cases ht
    exact equationHasSides_applied h ts
  | .condition test positive negative, _, t, ht => by
    rw [Tree.toTerm] at ht
    obtain ⟨c, -, ht⟩ := bind_eq_ok.mp ht
    obtain ⟨p, -, ht⟩ := bind_eq_ok.mp ht
    obtain ⟨n, -, ht⟩ := bind_eq_ok.mp ht
    cases ht
    exact nofun
  | .nothing, _, _, ht | .decimal _, _, _, ht | .text _, _, _, ht | .chain _, _, _, ht
  | .slice .., _, _, ht | .predicate _, _, _, ht | .element _, _, _, ht | .binding .., _, _, ht
  | .sequence _, _, _, ht | .array _, _, _, ht | .map _, _, _, ht => nomatch ht

/-- Whether a term stands for a tree whose callees are words. -/
def Worded (t : Term) : Prop :=
  ∃ (sig : Signature) (tree : Tree), tree.CallsWord ∧ tree.toTerm sig = .ok t

theorem Worded.equationHasSides : Worded t → EquationHasSides t
  | ⟨_, tree, hword, ht⟩ => equationHasSides_toTerm tree hword t ht

theorem worded_read {source : Text} (h : read sig source = .ok t) : Worded t := by
  unfold read at h
  split at h
  · cases h
  · rename_i tree htree
    exact ⟨sig, tree, Tree.callsWord_of_read? htree, h⟩

theorem equationHasSides_reduce (n : Normalizer) {fn : Term} {args : List Term} {k : Kind}
    (h : EquationHasSides (.apply fn args k)) : EquationHasSides (n.reduce fn args k) := by
  unfold Normalizer.reduce
  split
  · split
    · exact .of_pair _ _ _ _
    · exact h
  · unfold Normalizer.strictLess
    repeat' split
    all_goals exact .of_pair _ _ _ _
  · exact h

theorem equationHasSides_normalize (n : Normalizer) (h : EquationHasSides t) :
    EquationHasSides (n.normalize t) := by
  cases t with
  | symbol => exact nofun
  | lambda => exact nofun
  | cases => exact nofun
  | apply fn args k =>
    refine equationHasSides_reduce n fun hop => ?_
    obtain ⟨sides, hsides⟩ := h (by cases fn <;> exact hop)
    unfold Term.sides? at hsides
    split at hsides
    · rename_i a b _ he
      cases he
      exact ⟨(n.normalize a, n.normalize b), rfl⟩
    · cases hsides

end Equations

end Discharge.Formula
