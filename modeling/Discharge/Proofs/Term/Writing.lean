import Discharge.Term.Normal
import Discharge.Proofs.Term.Meaning

namespace Discharge

/-- A part that has a property throughout ends where the property does. -/
theorem append_inj_of_head {α : Type} {p : α → Prop} {a b x y : List α} (ha : ∀ c ∈ a, p c)
    (hb : ∀ c ∈ b, p c) (hx : ∀ c ∈ x.head?, ¬ p c) (hy : ∀ c ∈ y.head?, ¬ p c)
    (h : a ++ x = b ++ y) : a = b ∧ x = y := by
  induction a generalizing b with
  | nil =>
    cases b with
    | nil => exact ⟨rfl, h⟩
    | cons c b =>
      rw [List.nil_append] at h
      exact (hx c (by simp [h]) (hb c List.mem_cons_self)).elim
  | cons c a ih =>
    cases b with
    | nil =>
      rw [List.nil_append] at h
      exact (hy c (by simp [← h]) (ha c List.mem_cons_self)).elim
    | cons d b =>
      rw [List.cons_append, List.cons_append, List.cons.injEq] at h
      obtain ⟨rfl, h⟩ := h
      obtain ⟨rfl, hxy⟩ := ih (fun e he => ha e (List.mem_cons_of_mem _ he))
        (fun e he => hb e (List.mem_cons_of_mem _ he)) h
      exact ⟨rfl, hxy⟩

/-- Whether a byte ends a name: a blank, a bracket, a comma, or the semicolon of a list of
values. -/
def endsName (byte : UInt8) : Bool := [32, 40, 41, 44, 59].contains byte

/-- Whether a name shows where it ends. -/
def writableName (name : Text) : Bool :=
  !name.isEmpty && name.toList.all fun byte => !endsName byte

theorem writableName_iff {name : Text} : writableName name = true ↔
    name ≠ "" ∧ ∀ byte ∈ name.toList, endsName byte = false := by
  simp [writableName, ← Text.isEmpty_iff]

theorem append_inj_of_writableName {s t : Text} (hs : writableName s = true)
    (ht : writableName t = true) {x y : List UInt8} (hx : ∀ c ∈ x.head?, endsName c = true)
    (hy : ∀ c ∈ y.head?, endsName c = true) (h : s.toList ++ x = t.toList ++ y) :
    s = t ∧ x = y := by
  obtain ⟨he, hxy⟩ := append_inj_of_head (p := fun c => endsName c = false)
    (writableName_iff.mp hs).2 (writableName_iff.mp ht).2 (by simpa using hx) (by simpa using hy) h
  exact ⟨Text.ext he, hxy⟩

theorem exists_head_of_writableName {name : Text} (h : writableName name = true) :
    ∃ c rest, name.toList = c :: rest ∧ endsName c = false := by
  obtain ⟨hne, hall⟩ := writableName_iff.mp h
  cases hl : name.toList with
  | nil => exact (hne (Text.ext (by rw [hl]; rfl))).elim
  | cons c rest => exact ⟨c, rest, rfl, hall c (by simp [hl])⟩

namespace Term

mutual

/-- Whether functions are named, and every name shows where it ends. -/
def written : Term → Bool
  | symbol s => writableName s.name
  | apply (symbol s) args _ => writableName s.name && writtenAll args
  | _ => false

def writtenAll : List Term → Bool
  | [] => true
  | t :: rest => t.written && writtenAll rest

end

mutual

def bare : Term → Term
  | symbol s => symbol ⟨s.name, .entity, .free⟩
  | apply fn args _ => apply fn.bare (bareAll args) .entity
  | t => t

def bareAll : List Term → List Term
  | [] => []
  | t :: rest => t.bare :: bareAll rest

end

theorem writtenAll_iff {ts : List Term} : writtenAll ts = true ↔ ∀ t ∈ ts, t.written = true := by
  induction ts with
  | nil => simp [writtenAll]
  | cons t rest ih => simp [writtenAll, ih]

theorem written_apply_iff {s : Symbol} {args : List Term} {k : Kind} :
    (apply (symbol s) args k).written = true ↔
      writableName s.name = true ∧ ∀ t ∈ args, t.written = true := by
  simp [written, writtenAll_iff]

/-- A written term is a name, or a name applied to written terms. -/
@[elab_as_elim]
theorem written_induction {P : (t : Term) → t.written = true → Prop}
    (name : ∀ s hs, P (symbol s) hs)
    (application : ∀ s args k h, (∀ a, a ∈ args → ∀ ha : a.written = true, P a ha) →
      P (apply (symbol s) args k) h) (t : Term) (h : t.written = true) : P t h := by
  match t with
  | symbol s => exact name s h
  | apply (symbol s) args k =>
    exact application s args k h fun a _ ha => written_induction name application a ha
  | apply (apply _ _ _) _ _ => simp [written] at h
  | apply (lambda _ _ _) _ _ => simp [written] at h
  | apply (cases _ _ _) _ _ => simp [written] at h
  | lambda _ _ _ => simp [written] at h
  | cases _ _ _ => simp [written] at h

section Printing

theorem printAll_eq_map (ts : List Term) : printAll ts = ts.map print := by
  induction ts with
  | nil => rfl
  | cons t rest ih => rw [printAll, ih, List.map_cons]

/-- What is written after the first argument of a call, up to its bracket. -/
def laterArguments (ts : List Term) : List UInt8 := ts.flatMap fun t => 44 :: 32 :: t.render.toList

def argumentList : List Term → List UInt8
  | [] => []
  | t :: rest => t.render.toList ++ laterArguments rest

/-- The ways in which a term is written: as a name, as a call, or as an operation on two
operands. -/
inductive Form : Term → Prop where
  | name (s : Symbol) (hs : writableName s.name = true) : Form (symbol s)
  | call (s : Symbol) (args : List Term) (k : Kind) (hs : writableName s.name = true)
      (hargs : ∀ a ∈ args, a.written = true)
      (hp : (apply (symbol s) args k).print = .call s.name (printAll args)) :
      Form (apply (symbol s) args k)
  | operation (s : Symbol) (a b : Term) (k : Kind) (hs : writableName s.name = true)
      (ha : a.written = true) (hb : b.written = true) (hop : isOperation s.name = true) :
      Form (apply (symbol s) [a, b] k)

theorem print_application (s : Symbol) (args : List Term) (k : Kind) :
    (apply (symbol s) args k).print = .call s.name (printAll args) ∨
      ∃ a b, args = [a, b] ∧ isOperation s.name = true := by
  match args with
  | [a, b] =>
    cases hop : isOperation s.name with
    | true => exact .inr ⟨a, b, rfl, rfl⟩
    | false =>
      left
      simp [print, printAll, Printed.application, hop]
  | [] => exact .inl rfl
  | [_] => exact .inl rfl
  | _ :: _ :: _ :: _ => exact .inl rfl

theorem form_of_written {t : Term} (h : t.written = true) : Form t := by
  induction t, h using written_induction with
  | name s hs => exact .name s hs
  | application s args k h _ =>
    obtain ⟨hs, hargs⟩ := written_apply_iff.mp h
    rcases print_application s args k with hp | ⟨a, b, rfl, hop⟩
    · exact .call s args k hs hargs hp
    · exact .operation s a b k hs (hargs a (by simp)) (hargs b (by simp)) hop

theorem render_call {s : Symbol} {args : List Term} {k : Kind}
    (h : (apply (symbol s) args k).print = .call s.name (printAll args)) (x : List UInt8) :
    (apply (symbol s) args k).render.toList ++ x =
      s.name.toList ++ 40 :: (argumentList args ++ 41 :: x) := by
  have hlist : (Text.intercalate ", " ((printAll args).map Printed.text)).toList =
      argumentList args := by
    rw [printAll_eq_map, List.map_map]
    cases args with
    | nil => rfl
    | cons t rest =>
      rw [List.map_cons, Text.toList_intercalate, List.flatMap_map]
      rfl
  have hopen : ("(" : Text).toList = [40] := by decide
  have hclose : (")" : Text).toList = [41] := by decide
  rw [render, h, Printed.call]
  simp [hlist, hopen, hclose]

theorem operand_call {s : Symbol} {args : List Term} {k : Kind}
    (h : (apply (symbol s) args k).print = .call s.name (printAll args)) :
    (apply (symbol s) args k).print.operand = (apply (symbol s) args k).render := by
  rw [render, h]
  rfl

theorem print_operation {s : Symbol} (hop : isOperation s.name = true) (a b : Term) (k : Kind) :
    (apply (symbol s) [a, b] k).print =
      ⟨a.print.operand ++ " " ++ s.name ++ " " ++ b.print.operand, true⟩ := by
  simp [print, printAll, Printed.application, hop]

theorem render_operation {s : Symbol} (hop : isOperation s.name = true) (a b : Term) (k : Kind)
    (x : List UInt8) : (apply (symbol s) [a, b] k).render.toList ++ x =
      a.print.operand.toList ++ 32 :: (s.name.toList ++ 32 :: (b.print.operand.toList ++ x)) := by
  have hblank : (" " : Text).toList = [32] := by decide
  rw [render, print_operation hop]
  simp [hblank]

theorem operand_operation {s : Symbol} (hop : isOperation s.name = true) (a b : Term) (k : Kind)
    (x : List UInt8) : (apply (symbol s) [a, b] k).print.operand.toList ++ x =
      40 :: ((apply (symbol s) [a, b] k).render.toList ++ 41 :: x) := by
  have hopen : ("(" : Text).toList = [40] := by decide
  have hclose : (")" : Text).toList = [41] := by decide
  rw [render, print_operation hop]
  simp [Printed.operand, hopen, hclose]

theorem exists_head_operand {t : Term} (h : t.written = true) (x : List UInt8) :
    ∃ c rest, t.print.operand.toList ++ x = c :: rest ∧ c ≠ 41 := by
  have hname : ∀ {name : Text} {y : List UInt8}, writableName name = true →
      ∃ c rest, name.toList ++ y = c :: rest ∧ c ≠ 41 := by
    intro name y hn
    obtain ⟨c, rest, hc, hends⟩ := exists_head_of_writableName hn
    refine ⟨c, rest ++ y, by rw [hc, List.cons_append], ?_⟩
    rintro rfl
    contradiction
  cases form_of_written h with
  | name s hs => exact hname hs
  | call s args k hs _ hp =>
    rw [operand_call hp, render_call hp]
    exact hname hs
  | operation s a b k _ _ _ hop => exact ⟨40, _, operand_operation hop a b k x, by decide⟩

theorem exists_head_render {t : Term} (h : t.written = true) (x : List UInt8) :
    ∃ c rest, t.render.toList ++ x = c :: rest ∧ c ≠ 41 := by
  cases form_of_written h with
  | name s hs => exact exists_head_operand h x
  | call s args k hs _ hp =>
    rw [← operand_call hp]
    exact exists_head_operand h x
  | operation s a b k _ ha _ hop =>
    rw [render_operation hop]
    exact exists_head_operand ha _

end Printing

section Reading

def GoesOn (bytes : List UInt8) (x : List UInt8) : Prop := ∀ c ∈ x.head?, c ∈ bytes

/-- Whether a term can be read off a text that goes on after it. An operand may be followed by the
blank before its operator. -/
structure Legible (a : Term) : Prop where
  text : ∀ {b : Term} {x y : List UInt8}, b.written = true → GoesOn [41, 44] x → GoesOn [41, 44] y →
    a.render.toList ++ x = b.render.toList ++ y → a.bare = b.bare ∧ x = y
  operand : ∀ {b : Term} {x y : List UInt8}, b.written = true → GoesOn [32, 41, 44] x →
    GoesOn [32, 41, 44] y → a.print.operand.toList ++ x = b.print.operand.toList ++ y →
    a.bare = b.bare ∧ x = y

theorem GoesOn.cons {bytes x : List UInt8} {c : UInt8} (hc : c ∈ bytes) :
    GoesOn bytes (c :: x) := by
  intro d hd
  rw [List.head?_cons, Option.mem_some_iff] at hd
  exact hd ▸ hc

theorem GoesOn.ends {x : List UInt8} (h : GoesOn [32, 41, 44] x) :
    ∀ c ∈ x.head?, endsName c = true := by
  intro c hc
  have hmem := h c hc
  revert hmem
  simp only [List.mem_cons, List.not_mem_nil, or_false]
  rintro (rfl | rfl | rfl) <;> decide

theorem GoesOn.blank {x : List UInt8} (h : GoesOn [41, 44] x) : GoesOn [32, 41, 44] x :=
  fun c hc => List.mem_cons_of_mem _ (h c hc)

theorem goesOn_laterArguments (ts : List Term) (x : List UInt8) :
    GoesOn [41, 44] (laterArguments ts ++ 41 :: x) := by
  cases ts with
  | nil => exact .cons (by decide)
  | cons t rest => exact .cons (by decide)

theorem laterArguments_inj {as bs : List Term} (has : ∀ a ∈ as, Legible a)
    (hbs : ∀ b ∈ bs, b.written = true) {x y : List UInt8}
    (h : laterArguments as ++ 41 :: x = laterArguments bs ++ 41 :: y) :
    bareAll as = bareAll bs ∧ x = y := by
  induction as generalizing bs with
  | nil =>
    cases bs with
    | nil => exact ⟨rfl, (List.cons.inj h).2⟩
    | cons b bs => exact absurd (List.cons.inj h).1 (by decide)
  | cons a as ih =>
    cases bs with
    | nil => exact absurd (List.cons.inj h).1 (by decide)
    | cons b bs =>
      obtain ⟨ha, has⟩ := List.forall_mem_cons.mp has
      obtain ⟨hb, hbs⟩ := List.forall_mem_cons.mp hbs
      simp only [laterArguments, List.flatMap_cons, List.cons_append, List.append_assoc,
        List.cons.injEq, true_and] at h
      obtain ⟨hbare, hrest⟩ := ha.text hb (goesOn_laterArguments as x)
        (goesOn_laterArguments bs y) h
      obtain ⟨hbares, hxy⟩ := ih has hbs hrest
      exact ⟨by rw [bareAll, bareAll, hbare, hbares], hxy⟩

theorem argumentList_inj {as bs : List Term} (has : ∀ a ∈ as, Legible a)
    (has' : ∀ a ∈ as, a.written = true) (hbs : ∀ b ∈ bs, b.written = true) {x y : List UInt8}
    (h : argumentList as ++ 41 :: x = argumentList bs ++ 41 :: y) :
    bareAll as = bareAll bs ∧ x = y := by
  match as, bs with
  | [], [] => exact ⟨rfl, (List.cons.inj h).2⟩
  | [], b :: bs =>
    obtain ⟨c, rest, hc, hne⟩ := exists_head_render (hbs b List.mem_cons_self)
      (laterArguments bs ++ 41 :: y)
    rw [argumentList, argumentList, List.append_assoc, hc] at h
    exact (hne (List.cons.inj h).1.symm).elim
  | a :: as, [] =>
    obtain ⟨c, rest, hc, hne⟩ := exists_head_render (has' a List.mem_cons_self)
      (laterArguments as ++ 41 :: x)
    rw [argumentList, argumentList, List.append_assoc, hc] at h
    exact (hne (List.cons.inj h).1).elim
  | a :: as, b :: bs =>
    obtain ⟨ha, has⟩ := List.forall_mem_cons.mp has
    obtain ⟨hb, hbs⟩ := List.forall_mem_cons.mp hbs
    rw [argumentList, argumentList, List.append_assoc, List.append_assoc] at h
    obtain ⟨hbare, hrest⟩ := ha.text hb (goesOn_laterArguments as x)
      (goesOn_laterArguments bs y) h
    obtain ⟨hbares, hxy⟩ := laterArguments_inj has hbs hrest
    exact ⟨by rw [bareAll, bareAll, hbare, hbares], hxy⟩

theorem name_append_ne {name : Text} (h : writableName name = true) (x y : List UInt8) :
    name.toList ++ x ≠ 40 :: y := by
  obtain ⟨c, rest, hc, hends⟩ := exists_head_of_writableName h
  rw [hc]
  intro he
  rw [(List.cons.inj he).1] at hends
  contradiction

theorem legible_of_operand {a : Term} (hsame : a.print.operand = a.render)
    (h : ∀ {b : Term} {x y : List UInt8}, b.written = true → GoesOn [32, 41, 44] x →
      GoesOn [32, 41, 44] y → a.print.operand.toList ++ x = b.print.operand.toList ++ y →
      a.bare = b.bare ∧ x = y) : Legible a := by
  refine ⟨?_, h⟩
  intro b x y hb hx hy he
  rw [← hsame] at he
  cases form_of_written hb with
  | name s hs => exact h hb hx.blank hy.blank he
  | call s args k _ _ hp =>
    rw [← operand_call hp] at he
    exact h hb hx.blank hy.blank he
  | operation s c d k _ hc _ hop =>
    -- An operator would follow, but after a whole term there is none.
    rw [render_operation hop] at he
    have hrest := (h hc hx.blank (.cons (by decide)) he).2
    rw [hrest] at hx
    exact absurd (hx 32 rfl) (by decide)

theorem legible_name {s : Symbol} (hs : writableName s.name = true) : Legible (symbol s) := by
  refine legible_of_operand rfl ?_
  intro b x y hb hx hy he
  change s.name.toList ++ x = _ at he
  cases form_of_written hb with
  | name s' hs' =>
    obtain ⟨hname, hxy⟩ := append_inj_of_writableName hs hs' hx.ends hy.ends he
    exact ⟨by rw [bare, bare, hname], hxy⟩
  | call s' args k hs' _ hp =>
    rw [operand_call hp, render_call hp] at he
    have hrest := (append_inj_of_writableName hs hs' hx.ends (by simp [endsName]) he).2
    rw [hrest] at hx
    exact absurd (hx 40 rfl) (by decide)
  | operation s' c d k _ _ _ hop =>
    rw [operand_operation hop] at he
    exact (name_append_ne hs _ _ he).elim

theorem legible_call {s : Symbol} {args : List Term} {k : Kind} (hs : writableName s.name = true)
    (hargs : ∀ a ∈ args, a.written = true) (hlegible : ∀ a ∈ args, Legible a)
    (hp : (apply (symbol s) args k).print = .call s.name (printAll args)) :
    Legible (apply (symbol s) args k) := by
  refine legible_of_operand (operand_call hp) ?_
  intro b x y hb hx hy he
  rw [operand_call hp, render_call hp] at he
  cases form_of_written hb with
  | name s' hs' =>
    change _ = s'.name.toList ++ y at he
    have hrest := (append_inj_of_writableName hs hs' (by simp [endsName]) hy.ends he).2
    rw [← hrest] at hy
    exact absurd (hy 40 rfl) (by decide)
  | call s' args' k' hs' hargs' hp' =>
    rw [operand_call hp', render_call hp'] at he
    obtain ⟨hname, hrest⟩ := append_inj_of_writableName hs hs' (by simp [endsName])
      (by simp [endsName]) he
    obtain ⟨hbares, hxy⟩ := argumentList_inj hlegible hargs hargs' (List.cons.inj hrest).2
    exact ⟨by rw [bare, bare, bare, bare, hname, hbares], hxy⟩
  | operation s' c d k' _ _ _ hop =>
    rw [operand_operation hop] at he
    exact (name_append_ne hs _ _ he).elim

theorem legible_operation {s : Symbol} {a b : Term} {k : Kind} (hs : writableName s.name = true)
    (ha : Legible a) (hb : Legible b) (hop : isOperation s.name = true) :
    Legible (apply (symbol s) [a, b] k) := by
  have htext : ∀ {c : Term} {x y : List UInt8}, c.written = true → GoesOn [41, 44] x →
      GoesOn [41, 44] y → (apply (symbol s) [a, b] k).render.toList ++ x = c.render.toList ++ y →
      (apply (symbol s) [a, b] k).bare = c.bare ∧ x = y := by
    intro c x y hc hx hy he
    rw [render_operation hop] at he
    have hplain : c.print.operand = c.render → False := by
      intro hsame
      rw [← hsame] at he
      have hrest := (ha.operand hc (.cons (by decide)) hy.blank he).2
      rw [← hrest] at hy
      exact absurd (hy 32 rfl) (by decide)
    cases form_of_written hc with
    | name s' _ => exact (hplain rfl).elim
    | call s' args k' _ _ hp => exact (hplain (operand_call hp)).elim
    | operation s' d e k' hs' hd he' hop' =>
      rw [render_operation hop'] at he
      obtain ⟨hleft, hrest⟩ := ha.operand hd (.cons (by decide)) (.cons (by decide)) he
      obtain ⟨hname, hrest'⟩ := append_inj_of_writableName hs hs' (by simp [endsName])
        (by simp [endsName]) (List.cons.inj hrest).2
      obtain ⟨hright, hxy⟩ := hb.operand he' hx.blank hy.blank (List.cons.inj hrest').2
      refine ⟨?_, hxy⟩
      simp only [bare, bareAll, hname, hleft, hright]
  refine ⟨htext, ?_⟩
  intro c x y hc _ _ he
  rw [operand_operation hop] at he
  cases form_of_written hc with
  | name s' hs' => exact (name_append_ne hs' _ _ he.symm).elim
  | call s' args k' hs' _ hp =>
    rw [operand_call hp, render_call hp] at he
    exact (name_append_ne hs' _ _ he.symm).elim
  | operation s' d e k' _ _ _ hop' =>
    rw [operand_operation hop'] at he
    obtain ⟨hbare, hrest⟩ := htext hc (.cons (by decide)) (.cons (by decide)) (List.cons.inj he).2
    exact ⟨hbare, (List.cons.inj hrest).2⟩

theorem legible_of_written (t : Term) (h : t.written = true) : Legible t := by
  induction t, h using written_induction with
  | name s hs => exact legible_name hs
  | application s args k h ih =>
    obtain ⟨hs, hargs⟩ := written_apply_iff.mp h
    have hlegible : ∀ a ∈ args, Legible a := fun a ha => ih a ha (hargs a ha)
    cases form_of_written h with
    | call _ _ _ _ _ hp => exact legible_call hs hargs hlegible hp
    | operation _ a b _ _ _ _ hop =>
      exact legible_operation hs (hlegible a (by simp)) (hlegible b (by simp)) hop

/-- Terms that are written alike differ in kinds and quantifiers at most. -/
theorem bare_eq_of_same {a b : Term} (ha : a.written = true) (hb : b.written = true)
    (h : a.same b = true) : a.bare = b.bare := by
  have htext : a.render.toList ++ [] = b.render.toList ++ [] := by
    rw [same, beq_iff_eq] at h
    rw [h]
  exact ((legible_of_written a ha).text hb (by simp [GoesOn]) (by simp [GoesOn]) htext).1

end Reading

section Keeping

theorem applicativeAll_iff {ts : List Term} :
    applicativeAll ts = true ↔ ∀ t ∈ ts, t.applicative = true := by
  induction ts with
  | nil => simp [applicativeAll]
  | cons t rest ih => simp [applicativeAll, ih]

theorem applicative_of_written (t : Term) (h : t.written = true) : t.applicative = true := by
  induction t, h using written_induction with
  | name s hs => rfl
  | application s args k h ih =>
    have hargs := (written_apply_iff.mp h).2
    rw [applicative, applicative, Bool.true_and, applicativeAll_iff]
    exact fun a ha => ih a ha (hargs a ha)

theorem writableName_of_mem_symbols (t : Term) (h : t.written = true) {s : Symbol}
    (hs : s ∈ t.symbols) : writableName s.name = true := by
  induction t, h using written_induction with
  | name s' hs' =>
    rw [symbols, List.mem_singleton] at hs
    rw [hs]
    exact hs'
  | application s' args k h ih =>
    obtain ⟨hs', hargs⟩ := written_apply_iff.mp h
    rw [symbols_apply, symbols, List.singleton_append, List.mem_cons] at hs
    rcases hs with rfl | hs
    · exact hs'
    · obtain ⟨a, ha, hsa⟩ := List.mem_flatMap.mp hs
      exact ih a ha (hargs a ha) hsa

theorem written_call {op : Text} {k : Kind} {args : List Term} (hop : writableName op = true)
    (hargs : ∀ a ∈ args, a.written = true) : (call op k args).written = true :=
  written_apply_iff.mpr ⟨hop, hargs⟩

theorem written_of_mem_splitOn {op : Text} {t : Term} (ht : t.written = true) :
    ∀ p ∈ t.splitOn op, p.written = true := by
  revert ht
  refine splitOn_induction (P := fun t ps => t.written = true → ∀ p ∈ ps, p.written = true) op
    ?_ ?_ t
  · intro t _ ht p hp
    rw [List.mem_singleton.mp hp]
    exact ht
  · intro s args k _ ih ht p hp
    obtain ⟨a, ha, hpa⟩ := List.mem_flatMap.mp hp
    exact ih a ha ((written_apply_iff.mp ht).2 a ha) p hpa

theorem written_strictLess (n : Normalizer) {a b : Term} (ha : a.written = true)
    (hb : b.written = true) : (n.strictLess a b).written = true := by
  unfold Normalizer.strictLess
  split
  · have hone : (symbol ⟨"1", .integer, .free⟩).written = true := by decide
    refine written_call (by decide) (List.forall_mem_cons.mpr
      ⟨?_, List.forall_mem_singleton.mpr hb⟩)
    exact written_call (by decide) (List.forall_mem_cons.mpr
      ⟨ha, List.forall_mem_singleton.mpr hone⟩)
  · exact written_call (by decide) (List.forall_mem_cons.mpr
      ⟨ha, List.forall_mem_singleton.mpr hb⟩)

theorem written_reduce (n : Normalizer) {s : Symbol} {args : List Term} {k : Kind}
    (h : (apply (symbol s) args k).written = true) :
    (n.reduce (symbol s) args k).written = true := by
  have hargs := (written_apply_iff.mp h).2
  have hpair : ∀ {op : Text} {a b : Term}, writableName op = true → a.written = true →
      b.written = true → (call op .boolean [a, b]).written = true :=
    fun hop ha hb => written_call hop (List.forall_mem_cons.mpr
      ⟨ha, List.forall_mem_singleton.mpr hb⟩)
  unfold Normalizer.reduce
  split
  · rename_i a _
    have ha := hargs a (by simp)
    split
    · exact hpair (by decide) ha (by decide)
    · exact h
  · rename_i a b _
    have ha := hargs a (by simp)
    have hb := hargs b (by simp)
    split
    · exact hpair (by decide) (hpair (by decide) ha hb) (by decide)
    · split
      · exact hpair (by decide) hb ha
      · split
        · exact written_strictLess n hb ha
        · split
          · exact written_strictLess n ha hb
          · exact h
  · exact h

theorem normalizeAll_eq_map (n : Normalizer) (ts : List Term) :
    n.normalizeAll ts = ts.map n.normalize := by
  induction ts with
  | nil => rfl
  | cons t rest ih => rw [Normalizer.normalizeAll, ih, List.map_cons]

theorem written_normalize (n : Normalizer) (t : Term) (h : t.written = true) :
    (n.normalize t).written = true := by
  induction t, h using written_induction with
  | name s hs =>
    rw [Normalizer.normalize]
    exact hs
  | application s args k h ih =>
    obtain ⟨hs, hargs⟩ := written_apply_iff.mp h
    rw [Normalizer.normalize, normalizeAll_eq_map]
    refine written_reduce n (written_apply_iff.mpr ⟨hs, ?_⟩)
    exact List.forall_mem_map.mpr fun a ha => ih a ha (hargs a ha)

def Symbolic (σ : Substitution) : Prop :=
  ∀ e ∈ σ, ∃ s : Symbol, e.2 = symbol s ∧ writableName s.name = true

theorem Symbolic.get? {σ : Substitution} (h : Symbolic σ) {form : Text} {t : Term}
    (ht : σ.get? form = some t) : ∃ s : Symbol, t = symbol s ∧ writableName s.name = true := by
  obtain ⟨e, he, rfl⟩ := Option.map_eq_some_iff.mp ht
  exact h e (List.mem_of_find?_eq_some he)

theorem substituteAll_eq_map (σ : Substitution) (ts : List Term) :
    substituteAll σ ts = ts.map (substitute σ) := by
  induction ts with
  | nil => rfl
  | cons t rest ih => rw [substituteAll, ih, List.map_cons]

theorem written_substitute {σ : Substitution} (hσ : Symbolic σ) (t : Term)
    (h : t.written = true) : (t.substitute σ).written = true := by
  induction t, h using written_induction with
  | name s hs =>
    rw [substitute]
    cases hg : σ.get? s.name with
    | none => exact hs
    | some u =>
      obtain ⟨s', rfl, hs'⟩ := hσ.get? hg
      exact hs'
  | application s args k h ih =>
    obtain ⟨hs, hargs⟩ := written_apply_iff.mp h
    rw [substitute]
    cases hg : σ.get? (apply (symbol s) args k).render with
    | some u =>
      obtain ⟨s', rfl, hs'⟩ := hσ.get? hg
      exact hs'
    | none =>
      have hargs' : ∀ a ∈ substituteAll σ args, a.written = true := by
        rw [substituteAll_eq_map]
        exact List.forall_mem_map.mpr fun a ha => ih a ha (hargs a ha)
      rw [Option.getD_none, substitute]
      cases hf : σ.get? s.name with
      | none => exact written_apply_iff.mpr ⟨hs, hargs'⟩
      | some u =>
        obtain ⟨s', rfl, hs'⟩ := hσ.get? hf
        exact written_apply_iff.mpr ⟨hs', hargs'⟩

theorem substitute_nil (t : Term) (h : t.written = true) : t.substitute [] = t := by
  induction t, h using written_induction with
  | name s hs => rfl
  | application s args k h ih =>
    have hargs := (written_apply_iff.mp h).2
    have hsame : args.map (substitute []) = args := by
      rw [List.map_congr_left (g := id) fun a ha => ih a ha (hargs a ha), List.map_id]
    rw [substitute, substituteAll_eq_map, hsame]
    rfl

end Keeping

end Term

end Discharge
