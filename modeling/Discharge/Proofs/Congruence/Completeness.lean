import Discharge.Proofs.Congruence.Lookup
import Discharge.Proofs.Term.Meaning

/-!
Models are complete for equations. Whatever follows from the equations that a model was made to
assume, by the laws of equality and by replacing equals in operators and operands, is found in one
class. The derivation may pass through terms that the model does not know: equal terms are found
alike, whether they are found at all or not.
-/

namespace Discharge

def Term.equation? (t : Term) : Option (Term × Term) :=
  if t.operator? = some ("=" : Text) then t.sides? else none

/-- The equations among the conjuncts of a term. -/
def Term.equations (t : Term) : List (Term × Term) := t.conjuncts.filterMap equation?

theorem Term.equations_conjunction {s : Symbol} (hs : s.name = "and") (args : List Term)
    (k : Kind) : (apply (symbol s) args k).equations = args.flatMap equations := by
  have hop : (apply (symbol s) args k).operator? = some ("and" : Text) := congrArg some hs
  rw [equations, conjuncts, splitOn_apply, if_pos hop, splitAll_eq_flatMap,
    List.filterMap_flatMap]
  rfl

theorem Term.equations_of_ne {t : Term} (h : t.operator? ≠ some ("and" : Text)) :
    t.equations = t.equation?.toList := by
  have hc : t.conjuncts = [t] := by
    cases t with
    | apply fn args k => rw [conjuncts, splitOn_apply, if_neg h]
    | symbol s => rfl
    | lambda params body k => rfl
    | cases branches otherwise k => rfl
  rw [equations, hc]
  cases he : t.equation? with
  | none => simp [he]
  | some e => simp [he]

theorem Term.eq_of_equation? {t a b : Term} (h : t.equation? = some (a, b)) :
    ∃ s k, s.name = ("=" : Text) ∧ t = apply (symbol s) [a, b] k := by
  unfold equation? at h
  split at h
  · rename_i hop
    unfold sides? at h
    split at h
    · rename_i fn a' b' k
      cases h
      cases fn with
      | symbol s => exact ⟨s, k, Option.some.inj hop, rfl⟩
      | apply fn args k' => simp [operator?] at hop
      | lambda params body k' => simp [operator?] at hop
      | cases branches otherwise k' => simp [operator?] at hop
    · cases h
  · cases h

/-- What follows from equations by the laws of equality. Symbols, anonymous functions and
definitions by cases are constants that are known by their written form. -/
inductive Derivable (E : List (Term × Term)) : Term → Term → Prop
  | equation {s t : Term} : (s, t) ∈ E → Derivable E s t
  | constant {s t : Term} : (∀ fn args k, s ≠ .apply fn args k) →
    (∀ fn args k, t ≠ .apply fn args k) → s.render = t.render → Derivable E s t
  | refl (t : Term) : Derivable E t t
  | symm {s t : Term} : Derivable E s t → Derivable E t s
  | trans {s t u : Term} : Derivable E s t → Derivable E t u → Derivable E s u
  | operator {fn fn' : Term} (args : List Term) (k k' : Kind) : Derivable E fn fn' →
    Derivable E (.apply fn args k) (.apply fn' args k')
  | argument {a a' : Term} (fn : Term) (before after : List Term) (k k' : Kind) :
    Derivable E a a' →
    Derivable E (.apply fn (before ++ a :: after) k) (.apply fn (before ++ a' :: after) k')

namespace Congruence.Model

def Input.equations : Input → List (Term × Term)
  | .assume t => t.equations
  | .represent _ => []

variable {m n : Model}

theorem assert_conjunction {s : Symbol} (hs : s.name = "and") (args : List Term) (k : Kind)
    (m : Model) : assert (.apply (.symbol s) args k) m = assertAll args m := by
  unfold assert
  simp [hs]

theorem assert_equation {s : Symbol} (hs : s.name = "=") (a b : Term) (k : Kind) (m : Model) :
    assert (.apply (.symbol s) [a, b] k) m =
      (place b (place a m).2).2.enqueue ((place a m).1, (place b (place a m).2).1) := by
  unfold assert
  simp [hs, show ("=" : Text) ≠ "and" by decide]

theorem find?_of_assert_equation (hm : m.Filed []) (hn : n.Closed)
    (hx : n.vocabulary.KeepsExchanges) {s : Symbol} (hs : s.name = "=") {a b : Term} {k : Kind}
    (hext : (assert (.apply (.symbol s) [a, b] k) m).Extends n) : n.find? a = n.find? b := by
  obtain ⟨hleft, hl⟩ := advances_place a hm
  obtain ⟨hright, hr⟩ := advances_place b hleft.filed
  rw [assert_equation hs] at hext
  have hlater := (asks_enqueue (place b (place a m).2).2
    ((place a m).1, (place b (place a m).2).1)).coarsens.extends.trans hext
  rw [find?_place a hm hn hx (hright.later.trans hlater), find?_place b hleft.filed hn hx hlater]
  exact congrArg some ((hext.joined (joined_enqueue _ _)).root_eq hn.pending_eq)

theorem find?_of_assert_other (hm : m.Filed []) (hn : n.Closed) (hx : n.vocabulary.KeepsExchanges)
    {t : Term} (ht : t.operator? ≠ some ("and" : Text)) (hext : (assert t m).Extends n) :
    ∀ e ∈ t.equations, n.find? e.1 = n.find? e.2 := by
  intro e he
  rw [Term.equations_of_ne ht] at he
  obtain ⟨s, k, hs, rfl⟩ := Term.eq_of_equation? (Option.mem_toList.mp he)
  exact find?_of_assert_equation hm hn hx hs hext

mutual

theorem find?_of_assert (t : Term) {m : Model} (hm : m.Filed []) (hn : n.Closed)
    (hx : n.vocabulary.KeepsExchanges) (hext : (assert t m).Extends n) :
    ∀ e ∈ t.equations, n.find? e.1 = n.find? e.2 := by
  match t with
  | .apply (.symbol s) args k =>
    by_cases hs : s.name = "and"
    · intro e he
      rw [assert_conjunction hs] at hext
      rw [Term.equations_conjunction hs] at he
      obtain ⟨a, ha, hea⟩ := List.mem_flatMap.mp he
      exact find?_of_assertAll args hm hn hx hext a ha e hea
    · exact find?_of_assert_other hm hn hx (by simpa [Term.operator?] using hs) hext
  | .symbol s => exact find?_of_assert_other hm hn hx (by simp [Term.operator?]) hext
  | .apply (.apply fn as l) args k =>
    exact find?_of_assert_other hm hn hx (by simp [Term.operator?]) hext
  | .apply (.lambda ps body l) args k =>
    exact find?_of_assert_other hm hn hx (by simp [Term.operator?]) hext
  | .apply (.cases bs o l) args k =>
    exact find?_of_assert_other hm hn hx (by simp [Term.operator?]) hext
  | .lambda params body k => exact find?_of_assert_other hm hn hx (by simp [Term.operator?]) hext
  | .cases branches otherwise k =>
    exact find?_of_assert_other hm hn hx (by simp [Term.operator?]) hext

theorem find?_of_assertAll (ts : List Term) {m : Model} (hm : m.Filed []) (hn : n.Closed)
    (hx : n.vocabulary.KeepsExchanges) (hext : (assertAll ts m).Extends n) :
    ∀ t ∈ ts, ∀ e ∈ t.equations, n.find? e.1 = n.find? e.2 := by
  match ts with
  | [] => simp
  | t :: rest =>
    have hfirst := advances_assert t hm
    have hrest := advances_assertAll rest hfirst.filed
    rw [assertAll] at hext
    exact List.forall_mem_cons.mpr ⟨find?_of_assert t hm hn hx (hrest.later.trans hext),
      find?_of_assertAll rest hfirst.filed hn hx hext⟩

end

theorem find?_of_feed (hm : m.Closed) (hn : n.Closed) (hx : n.vocabulary.KeepsExchanges)
    {i : Input} (hext : (m.feed i).Extends n) : ∀ e ∈ i.equations, n.find? e.1 = n.find? e.2 := by
  cases i with
  | assume t =>
    obtain ⟨-, -, hcoarse⟩ := propagate_spec (advances_assert t hm.filed).filed
    exact find?_of_assert t hm.filed hn hx (hcoarse.extends.trans hext)
  | represent t => simp [Input.equations]

theorem find?_of_foldl_feed (inputs : List Input) (hm : m.Closed) (hn : n.Closed)
    (hx : n.vocabulary.KeepsExchanges) (hext : (inputs.foldl feed m).Extends n) :
    ∀ e ∈ inputs.flatMap Input.equations, n.find? e.1 = n.find? e.2 := by
  intro e he
  obtain ⟨i, hi, he⟩ := List.mem_flatMap.mp he
  obtain ⟨o, ho, hstep⟩ := exists_step_of_mem (P := Closed) (fun i _ _ hm => closed_feed hm i) hi hm
  exact find?_of_feed ho hn hx (hstep.trans hext) e he

theorem findAll?_append (m : Model) (ts us : List Term) :
    m.findAll? (ts ++ us) = (m.findAll? ts).bind fun is => (m.findAll? us).map (is ++ ·) := by
  induction ts with
  | nil => simp [findAll?]
  | cons t rest ih =>
    rw [List.cons_append, findAll?, findAll?, ih]
    cases m.find? t <;> cases m.findAll? rest <;> cases m.findAll? us <;> rfl

/-- Terms that are equal by derivation are found alike. -/
theorem find?_of_derivable (hm : m.Closed) {E : List (Term × Term)}
    (hE : ∀ e ∈ E, m.find? e.1 = m.find? e.2) {s t : Term} (h : Derivable E s t) :
    m.find? s = m.find? t := by
  induction h with
  | equation he => exact hE _ he
  | constant hs ht hrender => rw [find?_of_not_apply hs, find?_of_not_apply ht, hrender]
  | refl t => rfl
  | symm _ ih => exact ih.symm
  | trans _ _ ih ih' => exact ih.trans ih'
  | operator args k k' _ ih => rw [find?_apply_eq hm, find?_apply_eq hm, ih]
  | argument fn before after k k' _ ih =>
    rw [find?_apply_eq hm, find?_apply_eq hm, findAll?_append, findAll?_append, findAll?,
      findAll?, ih]

/-- Two terms that are equal by derivation from the assumed equations are represented in one
class. -/
theorem complete_ofInputs (inputs : List Input) (s t : Term)
    (h : Derivable (inputs.flatMap Input.equations) s t)
    (hx : (((ofInputs inputs).represent s).2.represent t).2.vocabulary.KeepsExchanges) :
    (((ofInputs inputs).represent s).2.represent t).2.root ((ofInputs inputs).represent s).1 =
      (((ofInputs inputs).represent s).2.represent t).2.root
        (((ofInputs inputs).represent s).2.represent t).1 := by
  have hm := closed_ofInputs inputs
  obtain ⟨hs, hexts, -⟩ := closed_represent hm s
  obtain ⟨ht, hextt, -⟩ := closed_represent hs t
  have hE := find?_of_foldl_feed inputs closed_empty ht hx (hexts.trans hextt)
  have hfound := find?_of_derivable ht hE h
  rw [find?_represent hm ht hx hextt, find?_represent hs ht hx (.refl _)] at hfound
  exact Option.some.inj hfound

def replacingInputs : List Input :=
  let x (name : Text) : Term := .symbol ⟨name, .entity, .free⟩
  [.assume (.conj (.equal (x "f") (x "g")) (.equal (.call "h" .entity [x "a"]) (x "b")))]

/-- Equals are replaced in the operator and then in the operand. -/
theorem complete_replacingInputs :
    let x (name : Text) : Term := .symbol ⟨name, .entity, .free⟩
    let s : Term := .call "f" .entity [.call "h" .entity [x "a"]]
    let t : Term := .call "g" .entity [x "b"]
    Derivable (replacingInputs.flatMap Input.equations) s t ∧
      (((ofInputs replacingInputs).represent s).2.represent t).2.root
          ((ofInputs replacingInputs).represent s).1 =
        (((ofInputs replacingInputs).represent s).2.represent t).2.root
          (((ofInputs replacingInputs).represent s).2.represent t).1 := by
  intro x s t
  have hoperator : (x "f", x "g") ∈ replacingInputs.flatMap Input.equations :=
    List.mem_cons_self
  have hoperand : (.call "h" .entity [x "a"], x "b") ∈
      replacingInputs.flatMap Input.equations :=
    List.mem_cons_of_mem _ List.mem_cons_self
  have h : Derivable (replacingInputs.flatMap Input.equations) s t :=
    (Derivable.operator _ _ .entity (.equation hoperator)).trans
      (.argument _ [] [] _ _ (.equation hoperand))
  exact ⟨h, complete_ofInputs replacingInputs s t h (by decide +kernel)⟩

/-- Inputs that merge the operator `=` into an older symbol after an equation that was assumed had
its operands exchanged. -/
def exchangedEquation : List Input :=
  let x (name : Text) : Term := .symbol ⟨name, .boolean, .free⟩
  [.represent (x "f"), .represent (.equal (x "a") (x "c")),
    .assume (.equal (.equal (x "d") (x "a")) (x "q")), .assume (.equal (x "d") (x "c")),
    .assume (.equal (x "f") (x "="))]

/-- The equation that was assumed is lost: its left side is not found any more and gets a class of
its own. -/
theorem equation_lost :
    let x (name : Text) : Term := .symbol ⟨name, .boolean, .free⟩
    let s : Term := .equal (x "d") (x "a")
    Derivable (exchangedEquation.flatMap Input.equations) s (x "q") ∧
      (((ofInputs exchangedEquation).represent s).2.represent (x "q")).2.root
          ((ofInputs exchangedEquation).represent s).1 ≠
        (((ofInputs exchangedEquation).represent s).2.represent (x "q")).2.root
          (((ofInputs exchangedEquation).represent s).2.represent (x "q")).1 := by
  intro x s
  exact ⟨.equation List.mem_cons_self, by decide +kernel⟩

end Congruence.Model

end Discharge
