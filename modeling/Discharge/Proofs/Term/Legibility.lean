import Discharge.Proofs.Term.Writing

/-!
A term can be read back from its written form, if functions are named and every name shows where it
ends. Main statement: reading what was written gives the term without the kinds and quantifiers of
its symbols, so that terms that are written alike differ in these at most.

A reader takes what it reads off the front of some bytes. Each is shown to take what was written and
to leave what follows; what follows decides whether an operation goes on.
-/

namespace Discharge.Term

/-- Whether a byte cannot be part of a name: a blank, a bracket, a brace, a comma or a semicolon. -/
def endsWord (byte : UInt8) : Bool := [32, 40, 41, 44, 59, 123, 125].contains byte

/-- Whether a name shows where it begins and ends. -/
def clearName (name : Text) : Bool := !name.isEmpty && name.toList.all fun byte => !endsWord byte

mutual

def clear : Term → Bool
  | symbol s => clearName s.name
  | apply (symbol s) args _ => clearName s.name && clearAll args
  | cases branches otherwise _ => clearBranches branches && otherwise.clear
  | _ => false

def clearAll : List Term → Bool
  | [] => true
  | t :: rest => t.clear && clearAll rest

def clearBranches : List (Term × Term) → Bool
  | [] => true
  | (result, condition) :: rest => result.clear && condition.clear && clearBranches rest

end

def bareName (name : Text) : Term := symbol ⟨name, .entity, .free⟩

mutual

/-- The term without the kinds and quantifiers of its symbols. -/
def outline : Term → Term
  | symbol s => bareName s.name
  | apply fn args _ => apply fn.outline (outlineAll args) .entity
  | cases branches otherwise _ => cases (outlineBranches branches) otherwise.outline .entity
  | t => t

def outlineAll : List Term → List Term
  | [] => []
  | t :: rest => t.outline :: outlineAll rest

def outlineBranches : List (Term × Term) → List (Term × Term)
  | [] => []
  | (result, condition) :: rest => (result.outline, condition.outline) :: outlineBranches rest

end

/-! ### Readers -/

abbrev Reader (α : Type) := List UInt8 → Option (α × List UInt8)

def expect (text : Text) (bytes : List UInt8) : Option (List UInt8) :=
  if text.toList.isPrefixOf bytes then some (bytes.drop text.toList.length) else none

def readWord (bytes : List UInt8) : Text × List UInt8 :=
  (.ofList (bytes.takeWhile fun byte => !endsWord byte), bytes.dropWhile fun byte => !endsWord byte)

def readOperator : Reader Text := fun bytes => do
  let rest ← expect " " bytes
  let (op, rest) := readWord rest
  let rest ← expect " " rest
  if isOperation op then return (op, rest) else none

def readOperation (operand : Reader Term) : Reader Term := fun bytes => do
  let (a, rest) ← operand bytes
  match readOperator rest with
  | none => return (a, rest)
  | some (op, rest) => do
    let (b, rest) ← operand rest
    return (apply (bareName op) [a, b] .entity, rest)

def readLater (item : Reader Term) : (fuel : Nat) → Reader (List Term)
  | 0, bytes => do return ([], ← expect ")" bytes)
  | fuel + 1, bytes =>
    match expect ", " bytes with
    | none => do return ([], ← expect ")" bytes)
    | some rest => do
      let (t, rest) ← item rest
      let (ts, rest) ← readLater item fuel rest
      return (t :: ts, rest)

def readArguments (item : Reader Term) : Reader (List Term) := fun bytes =>
  match expect ")" bytes with
  | some rest => some ([], rest)
  | none => do
    let (t, rest) ← item bytes
    let (ts, rest) ← readLater item rest.length rest
    return (t :: ts, rest)

def readBranches (item : Reader Term) : (fuel : Nat) → Reader (List (Term × Term) × Term)
  | 0, bytes => do
    let (t, rest) ← item bytes
    return (([], t), ← expect " otherwise\x7d\x7d" rest)
  | fuel + 1, bytes => do
    let (t, rest) ← item bytes
    match expect " if " rest with
    | none => return (([], t), ← expect " otherwise\x7d\x7d" rest)
    | some rest => do
      let (c, rest) ← item rest
      let rest ← expect "; " rest
      let ((branches, otherwise), rest) ← readBranches item fuel rest
      return (((t, c) :: branches, otherwise), rest)

def readCall (item : Reader Term) : Reader Term := fun bytes =>
  let (name, rest) := readWord bytes
  match expect "(" rest with
  | none => some (bareName name, rest)
  | some rest => do
    let (args, rest) ← readArguments item rest
    return (apply (bareName name) args .entity, rest)

/-- Reads an operand with brackets nested as deep as the first argument says. -/
def readOperand : (depth : Nat) → Reader Term
  | 0, _ => none
  | depth + 1, bytes =>
    match expect "(" bytes, expect "\x7b\x7b" bytes with
    | some rest, _ => do
      let (t, rest) ← readOperation (readOperand depth) rest
      return (t, ← expect ")" rest)
    | none, some rest => do
      let ((branches, otherwise), rest) ←
        readBranches (readOperation (readOperand depth)) rest.length rest
      return (cases branches otherwise .entity, rest)
    | none, none => readCall (readOperation (readOperand depth)) bytes

def read? (text : Text) : Option Term :=
  match readOperation (readOperand text.toList.length) text.toList with
  | some (t, []) => some t
  | _ => none

/-! ### What is left for the next reader -/

section Words

variable {text name : Text} {x : List UInt8}

theorem expect_append (text : Text) (x : List UInt8) : expect text (text.toList ++ x) = some x := by
  rw [expect, if_pos (List.isPrefixOf_iff_prefix.mpr (List.prefix_append _ _)),
    List.drop_left]

theorem expect_eq_none {c : UInt8} (h : text.toList.head? = some c)
    (hx : ∀ d ∈ x.head?, d ≠ c) : expect text x = none := by
  obtain ⟨rest, hrest⟩ := List.head?_eq_some_iff.mp h
  rw [expect, if_neg]
  rw [List.isPrefixOf_iff_prefix, hrest]
  rintro ⟨later, rfl⟩
  exact hx c rfl rfl

theorem clearName_iff : clearName name = true ↔
    name ≠ "" ∧ ∀ byte ∈ name.toList, endsWord byte = false := by
  simp [clearName, ← Text.isEmpty_iff]

theorem readWord_append (h : clearName name = true) (hx : ∀ c ∈ x.head?, endsWord c = true) :
    readWord (name.toList ++ x) = (name, x) := by
  have hall : ∀ byte ∈ name.toList, (!endsWord byte) = true := by simpa using (clearName_iff.mp h).2
  have htake : x.takeWhile (fun byte => !endsWord byte) = [] := by
    cases x with
    | nil => rfl
    | cons c rest => simp [hx c rfl]
  have hdrop : x.dropWhile (fun byte => !endsWord byte) = x := by
    cases x with
    | nil => rfl
    | cons c rest => simp [hx c rfl]
  rw [readWord, List.takeWhile_append_of_pos hall, List.dropWhile_append_of_pos hall, htake, hdrop,
    List.append_nil]
  exact congrArg (·, x) (Text.ext (Text.toList_ofList _))

theorem toList_ne_nil (h : clearName name = true) : name.toList ≠ [] :=
  fun hnil => (clearName_iff.mp h).1 (Text.ext (by rw [hnil]; rfl))

theorem head_name (h : clearName name = true) {d : UInt8} (hd : endsWord d = true)
    (x : List UInt8) : ∀ c ∈ (name.toList ++ x).head?, c ≠ d := by
  rintro c hc rfl
  rw [List.head?_append_of_ne_nil _ (toList_ne_nil h)] at hc
  rw [(clearName_iff.mp h).2 c (List.mem_of_mem_head? hc)] at hd
  cases hd

def EndsOperand (x : List UInt8) : Prop := ∀ c ∈ x.head?, endsWord c = true ∧ c ≠ 40

structure EndsTerm (x : List UInt8) : Prop where
  operand : EndsOperand x
  operator : readOperator x = none

theorem endsOperand_cons {c : UInt8} (hc : endsWord c = true) (hne : c ≠ 40) (x : List UInt8) :
    EndsOperand (c :: x) := by
  intro d hd
  rw [List.head?_cons, Option.mem_some_iff] at hd
  exact hd ▸ ⟨hc, hne⟩

theorem readOperator_eq_none (h : ∀ c ∈ x.head?, c ≠ 32) : readOperator x = none := by
  rw [readOperator, expect_eq_none (c := 32) (by decide) h]
  rfl

theorem endsTerm_cons {c : UInt8} (hc : endsWord c = true) (hopen : c ≠ 40) (hblank : c ≠ 32)
    (x : List UInt8) : EndsTerm (c :: x) where
  operand := endsOperand_cons hc hopen x
  operator := readOperator_eq_none (by simpa using hblank)

theorem readOperator_append (h : clearName name = true) (hop : isOperation name = true)
    (x : List UInt8) : readOperator (32 :: (name.toList ++ 32 :: x)) = some (name, x) := by
  have hblank : ∀ y : List UInt8, expect " " (32 :: y) = some y := fun y => expect_append " " y
  have hword : readWord (name.toList ++ 32 :: x) = (name, 32 :: x) :=
    readWord_append h (by simp [endsWord])
  simp [readOperator, hblank, hword, hop]

theorem endsTerm_word (name : Text) (x : List UInt8) (h : clearName name = true)
    (hop : isOperation name = false) (hx : ∀ c ∈ x.head?, endsWord c = true) :
    EndsTerm (32 :: (name.toList ++ x)) where
  operand := endsOperand_cons (by decide) (by decide) _
  operator := by
    have hblank : expect " " (32 :: (name.toList ++ x)) = some (name.toList ++ x) :=
      expect_append " " _
    simp [readOperator, hblank, readWord_append h hx, hop]

end Words

/-! ### What each reader takes -/

/-- Whether a reader takes the written form of a term off what it stands before. -/
def Reads (item : Reader Term) (t : Term) : Prop :=
  ∀ {x}, EndsTerm x → item (t.render.toList ++ x) = some (t.outline, x)

section Lists

variable {item : Reader Term} {t : Term} {ts : List Term} {fuel : Nat} {name : Text}

theorem endsTerm_laterArguments (ts : List Term) (x : List UInt8) :
    EndsTerm (laterArguments ts ++ 41 :: x) := by
  cases ts with
  | nil => exact endsTerm_cons (by decide) (by decide) (by decide) _
  | cons t rest => exact endsTerm_cons (by decide) (by decide) (by decide) _

theorem readLater_append (h : ∀ t ∈ ts, Reads item t) (hfuel : ts.length ≤ fuel) (x : List UInt8) :
    readLater item fuel (laterArguments ts ++ 41 :: x) = some (outlineAll ts, x) := by
  have hclose : expect ")" (41 :: x) = some x := expect_append ")" x
  induction ts generalizing fuel with
  | nil =>
    have hcomma : expect ", " (41 :: x) = none :=
      expect_eq_none (c := 44) (by decide) (by simp)
    cases fuel with
    | zero => simp [readLater, laterArguments, outlineAll, hclose]
    | succ fuel => simp [readLater, laterArguments, outlineAll, hcomma, hclose]
  | cons t rest ih =>
    obtain ⟨ht, hrest⟩ := List.forall_mem_cons.mp h
    cases fuel with
    | zero => exact absurd hfuel (by simp)
    | succ fuel =>
      have hcomma : expect ", " (laterArguments (t :: rest) ++ 41 :: x) =
          some (t.render.toList ++ (laterArguments rest ++ 41 :: x)) := by
        rw [← List.append_assoc]
        exact expect_append ", " _
      simp only [readLater, hcomma, ht (endsTerm_laterArguments rest x), Option.bind_eq_bind,
        Option.bind_some, ih hrest (Nat.le_of_succ_le_succ hfuel), outlineAll]
      rfl

theorem length_le_laterArguments (ts : List Term) : ts.length ≤ (laterArguments ts).length := by
  induction ts with
  | nil => exact Nat.zero_le _
  | cons t rest ih =>
    rw [laterArguments, List.flatMap_cons, List.length_append, List.length_cons]
    change _ ≤ _ + (laterArguments rest).length
    simp only [List.length_cons]
    omega

theorem readArguments_append (h : ∀ t ∈ ts, Reads item t)
    (hhead : ∀ t ∈ ts, ∀ x, ∀ c ∈ (t.render.toList ++ x).head?, c ≠ 41) (x : List UInt8) :
    readArguments item (argumentList ts ++ 41 :: x) = some (outlineAll ts, x) := by
  cases ts with
  | nil =>
    have hclose : expect ")" (41 :: x) = some x := expect_append ")" x
    simp [readArguments, argumentList, outlineAll, hclose]
  | cons t rest =>
    obtain ⟨ht, hrest⟩ := List.forall_mem_cons.mp h
    have hclose : expect ")" (t.render.toList ++ (laterArguments rest ++ 41 :: x)) = none :=
      expect_eq_none (c := 41) (by decide) (hhead t List.mem_cons_self _)
    have hfuel : rest.length ≤ (laterArguments rest ++ 41 :: x).length := by
      have := length_le_laterArguments rest
      rw [List.length_append]
      omega
    simp only [readArguments, argumentList, List.append_assoc, hclose,
      ht (endsTerm_laterArguments rest x), Option.bind_eq_bind, Option.bind_some,
      readLater_append hrest hfuel, outlineAll]
    rfl

theorem length_le_printBranches (branches : List (Term × Term)) :
    branches.length ≤ (printBranches branches).toList.length := by
  induction branches with
  | nil => exact Nat.zero_le _
  | cons b rest ih =>
    have hmark : ("; " : Text).toList.length = 2 := by decide
    simp only [printBranches, Text.toList_append, List.length_append, List.length_cons, hmark]
    omega

theorem printBranches_append (result condition : Term) (rest : List (Term × Term))
    (x : List UInt8) : (printBranches ((result, condition) :: rest)).toList ++ x =
      result.render.toList ++ ((" if " : Text).toList ++ (condition.render.toList ++
        (("; " : Text).toList ++ ((printBranches rest).toList ++ x)))) := by
  simp [printBranches, render]

theorem readBranches_append {branches : List (Term × Term)} {otherwise : Term}
    (h : ∀ b ∈ branches, Reads item b.1 ∧ Reads item b.2) (ho : Reads item otherwise)
    (hfuel : branches.length ≤ fuel) (x : List UInt8) :
    readBranches item fuel ((printBranches branches).toList ++
      (otherwise.render.toList ++ ((" otherwise\x7d\x7d" : Text).toList ++ x))) =
      some ((outlineBranches branches, otherwise.outline), x) := by
  induction branches generalizing fuel with
  | nil =>
    have hend : EndsTerm ((" otherwise\x7d\x7d" : Text).toList ++ x) :=
      endsTerm_word "otherwise" (125 :: 125 :: x) (by decide) (by decide)
        (by simp [endsWord])
    have hif : expect " if " ((" otherwise\x7d\x7d" : Text).toList ++ x) = none := rfl
    change readBranches item fuel (otherwise.render.toList ++ _) = _
    cases fuel <;>
      simp only [readBranches, ho hend, hif, expect_append, Option.bind_eq_bind, Option.bind_some] <;>
      rfl
  | cons b rest ih =>
    obtain ⟨result, condition⟩ := b
    obtain ⟨⟨hresult, hcondition⟩, hrest⟩ := List.forall_mem_cons.mp h
    cases fuel with
    | zero => exact absurd hfuel (by simp)
    | succ fuel =>
      have hif : ∀ y, EndsTerm ((" if " : Text).toList ++ y) := fun y =>
        endsTerm_word "if" (32 :: y) (by decide) (by decide) (by simp [endsWord])
      have hmark : ∀ y, EndsTerm (("; " : Text).toList ++ y) := fun y =>
        endsTerm_cons (c := 59) (by decide) (by decide) (by decide) (32 :: y)
      simp only [readBranches, printBranches_append, hresult (hif _), hcondition (hmark _),
        expect_append, Option.bind_eq_bind, Option.bind_some,
        ih hrest (Nat.le_of_succ_le_succ hfuel), outlineBranches]
      rfl

theorem readCall_name (h : clearName name = true) {x : List UInt8} (hx : EndsOperand x) :
    readCall item (name.toList ++ x) = some (bareName name, x) := by
  have hopen : expect "(" x = none :=
    expect_eq_none (c := 40) (by decide) fun c hc => (hx c hc).2
  simp only [readCall, readWord_append h fun c hc => (hx c hc).1, hopen]

theorem readCall_call (h : clearName name = true) (hts : ∀ t ∈ ts, Reads item t)
    (hhead : ∀ t ∈ ts, ∀ x, ∀ c ∈ (t.render.toList ++ x).head?, c ≠ 41) (x : List UInt8) :
    readCall item (name.toList ++ 40 :: (argumentList ts ++ 41 :: x)) =
      some (apply (bareName name) (outlineAll ts) .entity, x) := by
  have hopen : expect "(" (40 :: (argumentList ts ++ 41 :: x)) =
      some (argumentList ts ++ 41 :: x) := expect_append "(" _
  simp only [readCall, readWord_append (x := 40 :: (argumentList ts ++ 41 :: x)) h
    (by simp [endsWord]), hopen, readArguments_append hts hhead, Option.bind_eq_bind,
    Option.bind_some]
  rfl

end Lists

/-! ### The whole term -/

/-- The ways in which a term is written: as a name, as a call, as an operation on two operands, or
as a definition by cases. -/
inductive Shape : Term → Prop where
  | name (s : Symbol) (hs : clearName s.name = true) : Shape (symbol s)
  | call (s : Symbol) (args : List Term) (k : Kind) (hs : clearName s.name = true)
    (hargs : ∀ a ∈ args, a.clear = true)
    (hp : (apply (symbol s) args k).print = .call s.name (printAll args)) :
    Shape (apply (symbol s) args k)
  | operation (s : Symbol) (a b : Term) (k : Kind) (hs : clearName s.name = true)
    (ha : a.clear = true) (hb : b.clear = true) (hop : isOperation s.name = true) :
    Shape (apply (symbol s) [a, b] k)
  | branching (branches : List (Term × Term)) (otherwise : Term) (k : Kind)
    (hbranches : ∀ b ∈ branches, b.1.clear = true ∧ b.2.clear = true)
    (ho : otherwise.clear = true) : Shape (cases branches otherwise k)

theorem clearAll_iff {ts : List Term} : clearAll ts = true ↔ ∀ t ∈ ts, t.clear = true := by
  induction ts with
  | nil => simp [clearAll]
  | cons t rest ih => simp [clearAll, ih]

theorem clearBranches_iff {branches : List (Term × Term)} : clearBranches branches = true ↔
    ∀ b ∈ branches, b.1.clear = true ∧ b.2.clear = true := by
  induction branches with
  | nil => simp [clearBranches]
  | cons b rest ih => simp [clearBranches, ih, and_assoc]

theorem clear_apply_iff {s : Symbol} {args : List Term} {k : Kind} :
    (apply (symbol s) args k).clear = true ↔
      clearName s.name = true ∧ ∀ t ∈ args, t.clear = true := by
  simp [clear, clearAll_iff]

theorem exists_symbol_of_clear_apply {fn : Term} {args : List Term} {k : Kind}
    (h : (apply fn args k).clear = true) : ∃ s, fn = symbol s := by
  cases fn with
  | symbol s => exact ⟨s, rfl⟩
  | apply | lambda | cases => simp [clear] at h

theorem clear_cases_iff {branches : List (Term × Term)} {otherwise : Term} {k : Kind} :
    (cases branches otherwise k).clear = true ↔
      (∀ b ∈ branches, b.1.clear = true ∧ b.2.clear = true) ∧ otherwise.clear = true := by
  simp only [clear, Bool.and_eq_true, clearBranches_iff]

/-- A clear term is a name, a name applied to clear terms, or a definition by cases on such. -/
@[elab_as_elim]
theorem clear_induction {P : (t : Term) → t.clear = true → Prop} (name : ∀ s h, P (symbol s) h)
    (application : ∀ s args k h, (∀ a ∈ args, ∀ ha, P a ha) → P (apply (symbol s) args k) h)
    (branching : ∀ branches otherwise k h, (∀ b ∈ branches, (∀ hr, P b.1 hr) ∧ ∀ hc, P b.2 hc) →
      (∀ ho, P otherwise ho) → P (cases branches otherwise k) h)
    (t : Term) (h : t.clear = true) : P t h := by
  match t with
  | symbol s => exact name s h
  | apply (symbol s) args k =>
    refine application s args k h fun a ha hclear => ?_
    have hsize := List.sizeOf_lt_of_mem ha
    exact clear_induction name application branching a hclear
  | cases branches otherwise k =>
    refine branching branches otherwise k h (fun b hb => ?_)
      fun ho => clear_induction name application branching otherwise ho
    have hsize := List.sizeOf_lt_of_mem hb
    have hpair : sizeOf b = 1 + sizeOf b.1 + sizeOf b.2 := rfl
    exact ⟨fun hr => clear_induction name application branching b.1 hr,
      fun hc => clear_induction name application branching b.2 hc⟩
  | apply (apply _ _ _) _ _ => simp [clear] at h
  | apply (lambda _ _ _) _ _ => simp [clear] at h
  | apply (cases _ _ _) _ _ => simp [clear] at h
  | lambda _ _ _ => simp [clear] at h
termination_by sizeOf t
decreasing_by all_goals simp_wf; omega

theorem shape_of_clear {t : Term} (h : t.clear = true) : Shape t := by
  induction t, h using clear_induction with
  | name s hs => exact .name s hs
  | application s args k h _ =>
    obtain ⟨hs, hargs⟩ := clear_apply_iff.mp h
    rcases print_application s args k with hp | ⟨a, b, rfl, hop⟩
    · exact .call s args k hs hargs hp
    · exact .operation s a b k hs (hargs a (by simp)) (hargs b (by simp)) hop
  | branching branches otherwise k h _ _ =>
    obtain ⟨hbranches, ho⟩ := clear_cases_iff.mp h
    exact .branching branches otherwise k hbranches ho

theorem render_cases (branches : List (Term × Term)) (otherwise : Term) (k : Kind)
    (x : List UInt8) : (cases branches otherwise k).render.toList ++ x =
      ("\x7b\x7b" : Text).toList ++ ((printBranches branches).toList ++
        (otherwise.render.toList ++ ((" otherwise\x7d\x7d" : Text).toList ++ x))) := by
  simp [render, print]

/-- Whether a term can be read as an operand and where a whole term is expected, with as many nested
brackets as it has characters. -/
structure ReadBack (t : Term) : Prop where
  operand : ∀ depth : Nat, t.print.operand.toList.length ≤ depth → ∀ {x}, EndsOperand x →
    readOperand depth (t.print.operand.toList ++ x) = some (t.outline, x)
  text : ∀ depth : Nat, t.render.toList.length ≤ depth → Reads (readOperation (readOperand depth)) t

section Terms

variable {t a b : Term} {s : Symbol} {k : Kind}

theorem head_operand (h : t.clear = true) (x : List UInt8) :
    ∀ c ∈ (t.print.operand.toList ++ x).head?, c ≠ 41 := by
  cases shape_of_clear h with
  | name s hs => exact head_name hs (by decide) x
  | call s args k hs _ hp =>
    rw [operand_call hp, render_call hp]
    exact head_name hs (by decide) _
  | operation s a b k _ _ _ hop =>
    rw [operand_operation hop]
    simp
  | branching branches otherwise k _ _ =>
    intro c hc
    obtain rfl : (123 : UInt8) = c := by
      change c ∈ ((cases branches otherwise k).render.toList ++ x).head? at hc
      rw [render_cases] at hc
      exact Option.some.inj hc
    decide

theorem head_render (h : t.clear = true) (x : List UInt8) :
    ∀ c ∈ (t.render.toList ++ x).head?, c ≠ 41 := by
  cases shape_of_clear h with
  | name s hs => exact head_operand h x
  | call s args k _ _ hp =>
    rw [← operand_call hp]
    exact head_operand h x
  | operation s a b k _ ha _ hop =>
    rw [render_operation hop]
    exact head_operand ha _
  | branching branches otherwise k _ _ => exact head_operand h x

theorem length_render_le_laterArguments {ts : List Term} (ht : t ∈ ts) :
    t.render.toList.length ≤ (laterArguments ts).length := by
  induction ts with
  | nil => exact absurd ht List.not_mem_nil
  | cons u rest ih =>
    have hlength : (laterArguments (u :: rest)).length =
        u.render.toList.length + 2 + (laterArguments rest).length := by
      simp only [laterArguments, List.flatMap_cons, List.length_append, List.length_cons]
    rcases List.mem_cons.mp ht with rfl | ht
    · omega
    · have := ih ht
      omega

theorem length_render_le_argumentList {ts : List Term} (ht : t ∈ ts) :
    t.render.toList.length ≤ (argumentList ts).length := by
  cases ts with
  | nil => exact absurd ht List.not_mem_nil
  | cons u rest =>
    rw [argumentList, List.length_append]
    rcases List.mem_cons.mp ht with rfl | ht
    · omega
    · have := length_render_le_laterArguments ht
      omega

theorem length_render_le_printBranches {branches : List (Term × Term)} {b : Term × Term}
    (hb : b ∈ branches) : b.1.render.toList.length ≤ (printBranches branches).toList.length ∧
      b.2.render.toList.length ≤ (printBranches branches).toList.length := by
  induction branches with
  | nil => exact absurd hb List.not_mem_nil
  | cons c rest ih =>
    obtain ⟨result, condition⟩ := c
    have hlength := congrArg List.length (printBranches_append result condition rest [])
    simp only [List.length_append, List.length_nil] at hlength
    rcases List.mem_cons.mp hb with rfl | hb
    · dsimp only
      omega
    · have := ih hb
      omega

theorem readBack_of_operand (hsame : t.print.operand = t.render)
    (h : ∀ depth : Nat, t.print.operand.toList.length ≤ depth → ∀ {x}, EndsOperand x →
      readOperand depth (t.print.operand.toList ++ x) = some (t.outline, x)) : ReadBack t := by
  refine ⟨h, fun depth hdepth x hx => ?_⟩
  rw [← hsame] at hdepth ⊢
  simp only [readOperation, h depth hdepth hx.operand, hx.operator, Option.bind_eq_bind,
    Option.bind_some]
  rfl

theorem readOperand_word {name : Text} (h : clearName name = true) (depth : Nat) (x : List UInt8) :
    readOperand (depth + 1) (name.toList ++ x) =
      readCall (readOperation (readOperand depth)) (name.toList ++ x) := by
  have hopen : expect "(" (name.toList ++ x) = none :=
    expect_eq_none (c := 40) (by decide) (head_name h (by decide) x)
  have hbrace : expect "\x7b\x7b" (name.toList ++ x) = none :=
    expect_eq_none (c := 123) (by decide) (head_name h (by decide) x)
  simp only [readOperand, hopen, hbrace]

theorem readBack_name (hs : clearName s.name = true) : ReadBack (symbol s) := by
  refine readBack_of_operand rfl fun depth hdepth x hx => ?_
  change s.name.toList.length ≤ depth at hdepth
  change readOperand depth (s.name.toList ++ x) = _
  have hpos := List.length_pos_of_ne_nil (toList_ne_nil hs)
  obtain ⟨depth, rfl⟩ := Nat.exists_eq_add_one.mpr (hpos.trans_le hdepth)
  rw [readOperand_word hs, readCall_name hs hx, outline]

theorem readBack_call {args : List Term} (hs : clearName s.name = true)
    (hargs : ∀ a ∈ args, a.clear = true) (hread : ∀ a ∈ args, ReadBack a)
    (hp : (apply (symbol s) args k).print = .call s.name (printAll args)) :
    ReadBack (apply (symbol s) args k) := by
  refine readBack_of_operand (operand_call hp) fun depth hdepth x hx => ?_
  have hlength := congrArg List.length (render_call hp [])
  simp only [List.append_nil, List.length_append, List.length_cons, List.length_nil] at hlength
  rw [operand_call hp] at hdepth ⊢
  obtain ⟨depth, rfl⟩ : ∃ d, depth = d + 1 := ⟨depth - 1, by omega⟩
  have hitems : ∀ a ∈ args, Reads (readOperation (readOperand depth)) a := fun a ha =>
    (hread a ha).text depth (by have := length_render_le_argumentList ha; omega)
  rw [render_call hp, readOperand_word hs, readCall_call hs hitems
    (fun a ha => head_render (hargs a ha)), outline, outline]

theorem readBack_operation (hs : clearName s.name = true) (hop : isOperation s.name = true)
    (ha : ReadBack a) (hb : ReadBack b) : ReadBack (apply (symbol s) [a, b] k) := by
  have htext : ∀ depth : Nat, (apply (symbol s) [a, b] k).render.toList.length ≤ depth →
      Reads (readOperation (readOperand depth)) (apply (symbol s) [a, b] k) := by
    intro depth hdepth x hx
    have hlength := congrArg List.length (render_operation hop a b k [])
    simp only [List.append_nil, List.length_append, List.length_cons] at hlength
    have hblank : ∀ y : List UInt8, EndsOperand (32 :: y) :=
      endsOperand_cons (by decide) (by decide)
    rw [render_operation hop]
    simp only [readOperation, ha.operand depth (by omega) (hblank _), readOperator_append hs hop,
      hb.operand depth (by omega) hx.operand, Option.bind_eq_bind, Option.bind_some, outline,
      outlineAll]
    rfl
  refine ⟨fun depth hdepth x hx => ?_, htext⟩
  have hlength := congrArg List.length (operand_operation hop a b k [])
  simp only [List.append_nil, List.length_append, List.length_cons, List.length_nil] at hlength
  obtain ⟨depth, rfl⟩ : ∃ d, depth = d + 1 := ⟨depth - 1, by omega⟩
  have hopen : ∀ y : List UInt8, expect "(" (40 :: y) = some y := fun y => expect_append "(" y
  have hclose : expect ")" (41 :: x) = some x := expect_append ")" x
  have hends : EndsTerm (41 :: x) := endsTerm_cons (by decide) (by decide) (by decide) x
  rw [operand_operation hop]
  simp only [readOperand, hopen, htext depth (by omega) hends, hclose, Option.bind_eq_bind,
    Option.bind_some]
  rfl

theorem readBack_cases {branches : List (Term × Term)} {otherwise : Term}
    (hbranches : ∀ b ∈ branches, ReadBack b.1 ∧ ReadBack b.2) (ho : ReadBack otherwise) :
    ReadBack (cases branches otherwise k) := by
  refine readBack_of_operand rfl fun depth hdepth x hx => ?_
  change (cases branches otherwise k).render.toList.length ≤ depth at hdepth
  change readOperand depth ((cases branches otherwise k).render.toList ++ x) = _
  have hbrace : ("\x7b\x7b" : Text).toList.length = 2 := by decide
  have hlength := congrArg List.length (render_cases branches otherwise k [])
  simp only [List.append_nil, List.length_append, hbrace] at hlength
  obtain ⟨depth, rfl⟩ : ∃ d, depth = d + 1 := ⟨depth - 1, by omega⟩
  have hitems : ∀ b ∈ branches, Reads (readOperation (readOperand depth)) b.1 ∧
      Reads (readOperation (readOperand depth)) b.2 := by
    intro b hb
    have hle := length_render_le_printBranches hb
    exact ⟨(hbranches b hb).1.text depth (by omega), (hbranches b hb).2.text depth (by omega)⟩
  have hfuel := length_le_printBranches branches
  rw [render_cases]
  have hopen : ∀ y, expect "(" (("\x7b\x7b" : Text).toList ++ y) = none := fun y => rfl
  simp only [readOperand, hopen, expect_append]
  rw [readBranches_append hitems (ho.text depth (by omega))
    (by simp only [List.length_append]; omega)]
  simp only [Option.bind_eq_bind, Option.bind_some, outline]
  rfl

theorem readBack_of_clear (t : Term) (h : t.clear = true) : ReadBack t := by
  induction t, h using clear_induction with
  | name s hs => exact readBack_name hs
  | application s args k h ih =>
    obtain ⟨hs, hargs⟩ := clear_apply_iff.mp h
    have hread : ∀ a ∈ args, ReadBack a := fun a ha => ih a ha (hargs a ha)
    cases shape_of_clear h with
    | call _ _ _ _ _ hp => exact readBack_call hs hargs hread hp
    | operation _ a b _ _ _ _ hop =>
      exact readBack_operation hs hop (hread a (by simp)) (hread b (by simp))
  | branching branches otherwise k h ih iho =>
    obtain ⟨hbranches, ho⟩ := clear_cases_iff.mp h
    refine readBack_cases (fun b hb => ?_) (iho ho)
    exact ⟨(ih b hb).1 (hbranches b hb).1, (ih b hb).2 (hbranches b hb).2⟩

/-- What was written can be read. -/
theorem read?_render (h : t.clear = true) : read? t.render = some t.outline := by
  have hread : readOperation (readOperand t.render.toList.length) (t.render.toList ++ []) =
      some (t.outline, []) :=
    (readBack_of_clear t h).text _ (le_refl _) ⟨by simp [EndsOperand], by rfl⟩
  rw [List.append_nil] at hread
  rw [read?, hread]

end Terms

end Discharge.Term
