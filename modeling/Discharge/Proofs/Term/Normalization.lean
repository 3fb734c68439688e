import Discharge.Term.Normal

/-!
What the reduced set of operators keeps and what it leaves. A term is read in a domain with a value
for every symbol, and a definition by cases takes the first result whose condition holds. Where the
comparisons are read as usual, the reduced form of a term has the value of the term. Reducing twice
is reducing once, and none of the operators that are reduced stands in a reduced form outside the
place of a function.
-/

namespace Discharge

universe u

/-- A domain with a value for every symbol, an application function and a test of conditions.
Anonymous functions are left uninterpreted. -/
structure Semantics (D : Type u) where
  value : Symbol → D
  apply : D → List D → D
  lambda : List Symbol → Term → Kind → D
  holds : D → Bool

namespace Semantics

variable {D : Type u} (I : Semantics D)

mutual

def evaluate : Term → D
  | .symbol s => I.value s
  | .apply fn args _ => I.apply (evaluate fn) (evaluateAll args)
  | .lambda params body k => I.lambda params body k
  | .cases branches otherwise _ => evaluateBranches branches (evaluate otherwise)

def evaluateAll : List Term → List D
  | [] => []
  | t :: rest => evaluate t :: evaluateAll rest

def evaluateBranches : List (Term × Term) → D → D
  | [], otherwise => otherwise
  | (result, condition) :: rest, otherwise =>
    if I.holds (evaluate condition) then evaluate result else evaluateBranches rest otherwise

end

def call (op : Text) (args : List D) : D := I.apply (I.value ⟨op, .boolean, .free⟩) args

def falsehood : D := I.value ⟨"false", .boolean, .free⟩

def one : D := I.value ⟨"1", .integer, .free⟩

/-- The operators that normalization reads or writes. -/
def comparisons : List Text := ["not", "/=", ">=", ">", "<", "<=", "+"]

/-- The usual reading of the comparisons. The law of strict comparisons is about integers, and it
is needed only by a normalizer that has their sorts. -/
structure Comparing (n : Normalizer) (integer : D → Prop) : Prop where
  operator_eq : ∀ s s', s.name = s'.name → s.name ∈ comparisons → I.value s = I.value s'
  not_eq : ∀ p, I.call "not" [p] = I.call "=" [p, I.falsehood]
  unequal_eq : ∀ a b, I.call "/=" [a, b] = I.call "=" [I.call "=" [a, b], I.falsehood]
  atLeast_eq : ∀ a b, I.call ">=" [a, b] = I.call "<=" [b, a]
  more_eq : ∀ a b, I.call ">" [a, b] = I.call "<" [b, a]
  less_eq : n.integerSorts = true → ∀ a b, integer a → integer b →
    I.call "<" [a, b] = I.call "<=" [I.call "+" [a, I.one], b]

variable {I}

theorem evaluate_call (op : Text) (args : List Term) :
    I.evaluate (.call op .boolean args) = I.call op (I.evaluateAll args) := by
  rw [Term.call, evaluate, evaluate, call]

theorem evaluate_equal (a b : Term) :
    I.evaluate (.equal a b) = I.call "=" [I.evaluate a, I.evaluate b] := by
  rw [Term.equal, evaluate_call]
  simp only [evaluateAll]

theorem evaluate_falsehood : I.evaluate .falsehood = I.falsehood := by
  rw [Term.falsehood, evaluate, falsehood]

theorem Comparing.evaluate_apply {n : Normalizer} {integer : D → Prop} (h : I.Comparing n integer)
    {s : Symbol} {op : Text} (hs : s.name = op) (hop : op ∈ comparisons) (args : List Term)
    (k : Kind) : I.evaluate (.apply (.symbol s) args k) = I.call op (I.evaluateAll args) := by
  subst hs
  rw [evaluate, evaluate, call, h.operator_eq s ⟨s.name, .boolean, .free⟩ rfl hop]

/-- Values of the usual kind: truth values, integers, the names of operators, and one value for
whatever else there is. -/
inductive Value where
  | decided (b : Bool)
  | number (i : Int)
  | operator (name : Text)
  | other
  deriving DecidableEq

namespace Value

def isInteger : Value → Bool
  | number _ => true
  | _ => false

def less : Value → Value → Value
  | number i, number j => decided (i < j)
  | _, _ => other

def atMost : Value → Value → Value
  | number i, number j => decided (i <= j)
  | _, _ => other

def plus : Value → Value → Value
  | number i, number j => number (i + j)
  | _, _ => other

def operate (op : Text) : List Value → Value
  | [p] => if op = "not" then decided (p == decided false) else other
  | [a, b] =>
    if op = "=" then decided (a == b)
    else if op = "/=" then decided (a != b)
    else if op = "<" then less a b
    else if op = ">" then less b a
    else if op = "<=" then atMost a b
    else if op = ">=" then atMost b a
    else if op = "+" then plus a b
    else other
  | _ => other

end Value

def arithmetic (value : Symbol → Value) : Semantics Value where
  value s :=
    if s.name ∈ (["=", "not", "/=", ">=", ">", "<", "<=", "+"] : List Text) then .operator s.name
    else if s.name = "true" then .decided true
    else if s.name = "false" then .decided false
    else if s.name = "1" then .number 1
    else value s
  apply fn args :=
    match fn with
    | .operator op => Value.operate op args
    | _ => .other
  lambda _ _ _ := .other
  holds v := v == .decided true

theorem arithmetic_call (value : Symbol → Value) {op : Text}
    (hop : op ∈ (["=", "not", "/=", ">=", ">", "<", "<=", "+"] : List Text)) (args : List Value) :
    (arithmetic value).call op args = Value.operate op args := by
  simp only [call, arithmetic, if_pos hop]

theorem comparing_arithmetic (value : Symbol → Value) (n : Normalizer) :
    (arithmetic value).Comparing n fun v => v.isInteger = true := by
  have hfalse : (arithmetic value).falsehood = .decided false := by rfl
  have hone : (arithmetic value).one = .number 1 := by rfl
  refine ⟨?_, ?_, ?_, ?_, ?_, ?_⟩
  · intro s s' hs hmem
    have hop : s.name ∈ (["=", "not", "/=", ">=", ">", "<", "<=", "+"] : List Text) :=
      List.mem_cons_of_mem _ hmem
    simp only [arithmetic, ← hs, if_pos hop]
  · intro p
    rw [arithmetic_call value (by decide), arithmetic_call value (by decide), hfalse]
    rfl
  · intro a b
    rw [arithmetic_call value (by decide), arithmetic_call value (by decide),
      arithmetic_call value (by decide), hfalse]
    change Value.decided (a != b) =
      .decided (Value.decided (a == b) == .decided false)
    rw [bne]
    cases a == b <;> rfl
  · intro a b
    rw [arithmetic_call value (by decide), arithmetic_call value (by decide)]
    rfl
  · intro a b
    rw [arithmetic_call value (by decide), arithmetic_call value (by decide)]
    rfl
  · intro _ a b ha hb
    rw [arithmetic_call value (by decide), arithmetic_call value (by decide),
      arithmetic_call value (by decide), hone]
    cases a with
    | number i =>
      cases b with
      | number j => rfl
      | decided _ => exact nomatch hb
      | operator _ => exact nomatch hb
      | other => exact nomatch hb
    | decided _ => exact nomatch ha
    | operator _ => exact nomatch ha
    | other => exact nomatch ha

end Semantics

namespace Term

mutual

/-- The term and its subterms, those in the place of a function left out. -/
def standing : Term → List Term
  | symbol s => [symbol s]
  | apply fn args k => apply fn args k :: standingAll args
  | lambda params body k => lambda params body k :: body.standing
  | cases branches otherwise k =>
    cases branches otherwise k :: (standingBranches branches ++ otherwise.standing)

def standingAll : List Term → List Term
  | [] => []
  | t :: rest => t.standing ++ standingAll rest

def standingBranches : List (Term × Term) → List Term
  | [] => []
  | (result, condition) :: rest => result.standing ++ condition.standing ++ standingBranches rest

end

theorem exists_of_mem_standingAll {args : List Term} {u : Term} (hu : u ∈ standingAll args) :
    ∃ a ∈ args, u ∈ a.standing := by
  induction args with
  | nil => simp [standingAll] at hu
  | cons b rest ih =>
    rw [standingAll, List.mem_append] at hu
    rcases hu with hu | hu
    · exact ⟨b, List.mem_cons_self, hu⟩
    · obtain ⟨a, ha, hua⟩ := ih hu
      exact ⟨a, List.mem_cons_of_mem _ ha, hua⟩

def Calls (t : Term) (op : Text) (args : List Term) : Prop :=
  t.operator? = some op ∧ t.arguments = args

theorem calls_call {op op' : Text} {k : Kind} {args args' : List Term} :
    (call op k args).Calls op' args' ↔ op = op' ∧ args = args' := by
  rw [Calls, call, operator?, arguments, Option.some.injEq]

theorem operator?_apply {fn : Term} {args : List Term} {k : Kind} {op : Text}
    (h : (apply fn args k).operator? = some op) : ∃ s, fn = symbol s ∧ s.name = op := by
  cases fn with
  | symbol s => exact ⟨s, rfl, Option.some.inj h⟩
  | apply _ _ _ => simp [operator?] at h
  | lambda _ _ _ => simp [operator?] at h
  | cases _ _ _ => simp [operator?] at h

def isLambda : Term → Bool
  | lambda _ _ _ => true
  | _ => false

theorem self_mem_standing (t : Term) : t ∈ t.standing := by
  cases t <;> simp [standing]

theorem mem_standingAll {args : List Term} {a : Term} (ha : a ∈ args) {u : Term}
    (hu : u ∈ a.standing) : u ∈ standingAll args := by
  induction args with
  | nil => simp at ha
  | cons b rest ih =>
    rw [standingAll, List.mem_append]
    rcases List.mem_cons.mp ha with rfl | ha
    · exact .inl hu
    · exact .inr (ih ha)

end Term

namespace Normalizer

open Term

/-- A term that is not itself an application that normalization rewrites. -/
structure Reduced (n : Normalizer) (u : Term) : Prop where
  unary : ∀ a, ¬ u.Calls "not" [a]
  binary : ∀ op ∈ (["/=", ">=", ">"] : List Text), ∀ a b, ¬ u.Calls op [a, b]
  strict : n.integerSorts = true → ∀ a b, u.Calls "<" [a, b] →
    ¬ (a.kind.numeric = true ∧ b.kind.numeric = true)

inductive Strict (n : Normalizer) (a b : Term) : Term → Prop where
  | integers (hn : n.integerSorts = true) (ha : a.kind.numeric = true)
      (hb : b.kind.numeric = true) :
    Strict n a b (call "<=" .boolean [call "+" a.kind [a, symbol ⟨"1", .integer, .free⟩], b])
  | others (h : n.integerSorts = true → ¬ (a.kind.numeric = true ∧ b.kind.numeric = true)) :
    Strict n a b (call "<" .boolean [a, b])

theorem strict_strictLess (n : Normalizer) (a b : Term) : n.Strict a b (n.strictLess a b) := by
  rw [strictLess]
  split
  · rename_i h
    simp only [Bool.and_eq_true] at h
    exact .integers h.1.1 h.1.2 h.2
  · rename_i h
    refine .others fun hn hab => h ?_
    simp only [Bool.and_eq_true]
    exact ⟨⟨hn, hab.1⟩, hab.2⟩

/-- What reducing an application gives: one constructor for each of the operators that are reduced,
and one for all other applications. -/
inductive Reduces (n : Normalizer) : Term → List Term → Kind → Term → Prop where
  | negation {s : Symbol} (hs : s.name = "not") (a : Term) (k : Kind) :
    Reduces n (symbol s) [a] k (equal a falsehood)
  | disequality {s : Symbol} (hs : s.name = "/=") (a b : Term) (k : Kind) :
    Reduces n (symbol s) [a, b] k (equal (equal a b) falsehood)
  | atLeast {s : Symbol} (hs : s.name = ">=") (a b : Term) (k : Kind) :
    Reduces n (symbol s) [a, b] k (call "<=" .boolean [b, a])
  | more {s : Symbol} (hs : s.name = ">") (a b : Term) (k : Kind) {u : Term}
    (hu : n.Strict b a u) : Reduces n (symbol s) [a, b] k u
  | less {s : Symbol} (hs : s.name = "<") (a b : Term) (k : Kind) {u : Term}
    (hu : n.Strict a b u) : Reduces n (symbol s) [a, b] k u
  | kept {fn : Term} {args : List Term} {k : Kind} (hone : ∀ a, ¬ (apply fn args k).Calls "not" [a])
    (htwo : ∀ op ∈ (["/=", ">=", ">", "<"] : List Text), ∀ a b,
      ¬ (apply fn args k).Calls op [a, b]) : Reduces n fn args k (apply fn args k)

theorem reduces_reduce (n : Normalizer) (fn : Term) (args : List Term) (k : Kind) :
    n.Reduces fn args k (n.reduce fn args k) := by
  unfold reduce
  split
  · rename_i op a hop
    obtain ⟨s, rfl, rfl⟩ := operator?_apply hop
    by_cases hnot : s.name = "not"
    · rw [if_pos (beq_iff_eq.mpr hnot)]
      exact .negation hnot a k
    · rw [if_neg fun h => hnot (eq_of_beq h)]
      refine .kept (fun b hb => hnot (Option.some.inj hb.1)) fun op _ b c hbc => ?_
      simpa [arguments] using hbc.2
  · rename_i op a b hop
    obtain ⟨s, rfl, rfl⟩ := operator?_apply hop
    split
    · rename_i h
      exact .disequality (eq_of_beq h) a b k
    split
    · rename_i h
      exact .atLeast (eq_of_beq h) a b k
    split
    · rename_i h
      exact .more (eq_of_beq h) a b k (strict_strictLess n b a)
    split
    · rename_i h
      exact .less (eq_of_beq h) a b k (strict_strictLess n a b)
    rename_i hne hge hgt hlt
    refine .kept (fun c hc => by simpa [arguments] using hc.2) fun op hmem c d hcd => ?_
    obtain rfl : s.name = op := Option.some.inj hcd.1
    simp only [List.mem_cons, List.not_mem_nil, or_false] at hmem
    rcases hmem with h | h | h | h
    · exact hne (beq_iff_eq.mpr h)
    · exact hge (beq_iff_eq.mpr h)
    · exact hgt (beq_iff_eq.mpr h)
    · exact hlt (beq_iff_eq.mpr h)
  · rename_i hone htwo
    exact .kept (fun a ha => hone _ a ha.1 ha.2) fun op _ a b hab => htwo op a b hab.1 hab.2

theorem reduce_other (n : Normalizer) {s : Symbol} (hone : s.name ≠ "not")
    (htwo : s.name ∉ (["/=", ">=", ">", "<"] : List Text)) (args : List Term) (k : Kind) :
    n.reduce (symbol s) args k = apply (symbol s) args k := by
  generalize hu : n.reduce (symbol s) args k = u
  have h := hu ▸ reduces_reduce n (symbol s) args k
  cases h with
  | negation hs => exact (hone hs).elim
  | disequality hs => simp [hs] at htwo
  | atLeast hs => simp [hs] at htwo
  | more hs => simp [hs] at htwo
  | less hs => simp [hs] at htwo
  | kept => rfl

theorem normalizeAll_eq_map (n : Normalizer) (ts : List Term) :
    n.normalizeAll ts = ts.map n.normalize := by
  induction ts with
  | nil => rw [normalizeAll, List.map_nil]
  | cons t rest ih => rw [normalizeAll, List.map_cons, ih]

theorem Reduces.kind {n : Normalizer} {fn : Term} {args : List Term} {k : Kind} {u : Term}
    (h : n.Reduces fn args k u) : u.kind = k ∨ u.kind = .boolean := by
  cases h with
  | negation => exact .inr rfl
  | disequality => exact .inr rfl
  | atLeast => exact .inr rfl
  | more _ _ _ _ hu => cases hu <;> exact .inr rfl
  | less _ _ _ _ hu => cases hu <;> exact .inr rfl
  | kept => exact .inl rfl

theorem kind_normalize (n : Normalizer) (t : Term) :
    (n.normalize t).kind = t.kind ∨ (n.normalize t).kind = .boolean := by
  cases t with
  | symbol s => exact .inl (by rw [normalize])
  | apply fn args k =>
    rw [normalize]
    exact (reduces_reduce n fn _ k).kind
  | lambda params body k => exact .inl (by rw [normalize]; rfl)
  | cases branches otherwise k => exact .inl (by rw [normalize]; rfl)

/-- The reduced form of a term is that of a number only if the term is. -/
theorem numeric_of_normalize {n : Normalizer} {t : Term}
    (h : (n.normalize t).kind.numeric = true) : t.kind.numeric = true := by
  rcases kind_normalize n t with hk | hk
  · rwa [hk] at h
  · rw [hk] at h
    exact absurd h (by decide)

section Meaning

variable {D : Type u} {I : Semantics D} {n : Normalizer} {integer : D → Prop}

theorem Strict.evaluate_eq (hI : I.Comparing n integer) {a b u : Term} (h : n.Strict a b u)
    (hint : n.integerSorts = true → ∀ c ∈ [a, b], c.kind.numeric = true →
      integer (I.evaluate c)) : I.evaluate u = I.call "<" [I.evaluate a, I.evaluate b] := by
  cases h with
  | integers hn ha hb =>
    have hplus : I.evaluate (.call "+" a.kind [a, symbol ⟨"1", .integer, .free⟩]) =
        I.call "+" [I.evaluate a, I.one] := by
      have hop : ("+" : Text) ∈ Semantics.comparisons := by decide
      rw [Term.call, hI.evaluate_apply rfl hop]
      simp only [Semantics.evaluateAll, Semantics.evaluate, Semantics.one]
    rw [Semantics.evaluate_call, hI.less_eq hn _ _ (hint hn a (by simp) ha) (hint hn b (by simp) hb)]
    simp only [Semantics.evaluateAll, hplus]
  | others =>
    rw [Semantics.evaluate_call]
    simp only [Semantics.evaluateAll]

theorem Reduces.evaluate_eq (hI : I.Comparing n integer) {fn : Term} {args : List Term} {k : Kind}
    {u : Term} (h : n.Reduces fn args k u)
    (hint : n.integerSorts = true → ∀ a ∈ args, a.kind.numeric = true →
      integer (I.evaluate a)) : I.evaluate u = I.evaluate (apply fn args k) := by
  cases h with
  | negation hs a =>
    rw [hI.evaluate_apply hs (by decide), Semantics.evaluate_equal, Semantics.evaluate_falsehood]
    exact (hI.not_eq _).symm
  | disequality hs a b =>
    rw [hI.evaluate_apply hs (by decide), Semantics.evaluate_equal, Semantics.evaluate_equal,
      Semantics.evaluate_falsehood]
    exact (hI.unequal_eq _ _).symm
  | atLeast hs a b =>
    rw [hI.evaluate_apply hs (by decide), Semantics.evaluate_call]
    exact (hI.atLeast_eq _ _).symm
  | more hs a b _ hu =>
    rw [hI.evaluate_apply hs (by decide),
      hu.evaluate_eq hI fun hn c hc => hint hn c (by simpa [or_comm] using hc)]
    exact (hI.more_eq _ _).symm
  | less hs a b _ hu =>
    rw [hI.evaluate_apply hs (by decide), hu.evaluate_eq hI hint]
    rfl
  | kept => rfl

mutual

/-- Normalization keeps the value of a term, if its numbers are integers. -/
theorem evaluate_normalize (hI : I.Comparing n integer) (t : Term)
    (hl : ∀ u ∈ t.standing, u.isLambda = false)
    (hint : n.integerSorts = true → ∀ u ∈ t.standing, u.kind.numeric = true →
      integer (I.evaluate u)) : I.evaluate (n.normalize t) = I.evaluate t := by
  match t with
  | symbol s => rw [normalize]
  | apply fn args k =>
    have hargs := evaluate_normalizeAll hI args
      (fun u hu => hl u (by rw [standing]; exact List.mem_cons_of_mem _ hu))
      (fun hn u hu => hint hn u (by rw [standing]; exact List.mem_cons_of_mem _ hu))
    rw [normalize, (reduces_reduce n fn _ k).evaluate_eq hI, Semantics.evaluate,
      Semantics.evaluate, hargs.1]
    intro hn a ha hk
    rw [normalizeAll_eq_map] at ha
    obtain ⟨b, hb, rfl⟩ := List.mem_map.mp ha
    rw [hargs.2 b hb]
    refine hint hn b ?_ (numeric_of_normalize hk)
    rw [standing]
    exact List.mem_cons_of_mem _ (mem_standingAll hb b.self_mem_standing)
  | lambda params body k => exact absurd (hl _ (self_mem_standing _)) (by simp [isLambda])
  | cases branches otherwise k =>
    have hbranches := evaluate_normalizeBranches hI branches
      (fun u hu => hl u (by simp [standing, hu])) (fun hn u hu => hint hn u (by simp [standing, hu]))
    have hother := evaluate_normalize hI otherwise
      (fun u hu => hl u (by simp [standing, hu])) (fun hn u hu => hint hn u (by simp [standing, hu]))
    rw [normalize, Semantics.evaluate, Semantics.evaluate, hother, hbranches]

theorem evaluate_normalizeAll (hI : I.Comparing n integer) (ts : List Term)
    (hl : ∀ u ∈ standingAll ts, u.isLambda = false)
    (hint : n.integerSorts = true → ∀ u ∈ standingAll ts, u.kind.numeric = true →
      integer (I.evaluate u)) :
    I.evaluateAll (n.normalizeAll ts) = I.evaluateAll ts ∧
      ∀ t ∈ ts, I.evaluate (n.normalize t) = I.evaluate t := by
  match ts with
  | [] => exact ⟨by rw [normalizeAll], by simp⟩
  | t :: rest =>
    have hhead := evaluate_normalize hI t
      (fun u hu => hl u (by simp [standingAll, hu]))
      (fun hn u hu => hint hn u (by simp [standingAll, hu]))
    have htail := evaluate_normalizeAll hI rest
      (fun u hu => hl u (by simp [standingAll, hu]))
      (fun hn u hu => hint hn u (by simp [standingAll, hu]))
    refine ⟨?_, List.forall_mem_cons.mpr ⟨hhead, htail.2⟩⟩
    rw [normalizeAll, Semantics.evaluateAll, Semantics.evaluateAll, hhead, htail.1]

theorem evaluate_normalizeBranches (hI : I.Comparing n integer) (branches : List (Term × Term))
    (hl : ∀ u ∈ standingBranches branches, u.isLambda = false)
    (hint : n.integerSorts = true → ∀ u ∈ standingBranches branches, u.kind.numeric = true →
      integer (I.evaluate u)) (otherwise : D) :
    I.evaluateBranches (n.normalizeBranches branches) otherwise =
      I.evaluateBranches branches otherwise := by
  match branches with
  | [] => rw [normalizeBranches]
  | (result, condition) :: rest =>
    have hresult := evaluate_normalize hI result
      (fun u hu => hl u (by simp [standingBranches, hu]))
      (fun hn u hu => hint hn u (by simp [standingBranches, hu]))
    have hcondition := evaluate_normalize hI condition
      (fun u hu => hl u (by simp [standingBranches, hu]))
      (fun hn u hu => hint hn u (by simp [standingBranches, hu]))
    have hrest := evaluate_normalizeBranches hI rest
      (fun u hu => hl u (by simp [standingBranches, hu]))
      (fun hn u hu => hint hn u (by simp [standingBranches, hu])) otherwise
    rw [normalizeBranches, Semantics.evaluateBranches, Semantics.evaluateBranches, hresult,
      hcondition, hrest]

end

end Meaning

section Idempotence

variable {n : Normalizer}

theorem normalize_call_other {op : Text} (hone : op ≠ "not")
    (htwo : op ∉ (["/=", ">=", ">", "<"] : List Text)) (k : Kind) (args : List Term) :
    n.normalize (call op k args) = call op k (args.map n.normalize) := by
  rw [call, normalize, reduce_other n hone htwo, normalizeAll_eq_map]
  rfl

theorem normalize_equal (a b : Term) :
    n.normalize (equal a b) = equal (n.normalize a) (n.normalize b) :=
  normalize_call_other (by decide) (by decide) .boolean [a, b]

theorem normalize_falsehood : n.normalize falsehood = falsehood := by
  rw [falsehood, normalize]

theorem normalize_call_less (a b : Term) (k : Kind) :
    n.Strict (n.normalize a) (n.normalize b) (n.normalize (call "<" k [a, b])) := by
  rw [call, normalize, normalizeAll_eq_map, List.map_cons, List.map_cons, List.map_nil]
  generalize hu : n.reduce _ _ _ = u
  have h := hu ▸ reduces_reduce n (symbol ⟨"<", k, .free⟩) [n.normalize a, n.normalize b] k
  cases h with
  | disequality hs => exact absurd (show ("<" : Text) = "/=" from hs) (by decide)
  | atLeast hs => exact absurd (show ("<" : Text) = ">=" from hs) (by decide)
  | more hs => exact absurd (show ("<" : Text) = ">" from hs) (by decide)
  | less _ _ _ _ hu => exact hu
  | kept _ htwo => exact absurd ⟨rfl, rfl⟩ (htwo "<" (by simp) _ _)

theorem Strict.normalize_eq {a b u : Term} (h : n.Strict a b u) (ha : n.normalize a = a)
    (hb : n.normalize b = b) : n.normalize u = u := by
  cases h with
  | integers =>
    have hplus : ∀ k, n.normalize (call "+" k [a, symbol ⟨"1", .integer, .free⟩]) =
        call "+" k [a, symbol ⟨"1", .integer, .free⟩] := by
      intro k
      rw [normalize_call_other (by decide) (by decide)]
      simp only [List.map_cons, List.map_nil, ha, normalize]
    rw [normalize_call_other (by decide) (by decide)]
    simp only [List.map_cons, List.map_nil, hplus, hb]
  | others h =>
    have hless := normalize_call_less (n := n) a b .boolean
    rw [ha, hb] at hless
    generalize n.normalize (call "<" .boolean [a, b]) = u at hless
    cases hless with
    | integers hn hka hkb => exact absurd ⟨hka, hkb⟩ (h hn)
    | others => rfl

theorem Reduces.normalize_eq {fn : Term} {args : List Term} {k : Kind} {u : Term}
    (h : n.Reduces fn args k u) (hargs : ∀ a ∈ args, n.normalize a = a) : n.normalize u = u := by
  cases h with
  | negation _ a => rw [normalize_equal, normalize_falsehood, hargs a (by simp)]
  | disequality _ a b =>
    rw [normalize_equal, normalize_equal, normalize_falsehood, hargs a (by simp),
      hargs b (by simp)]
  | atLeast _ a b =>
    rw [normalize_call_other (by decide) (by decide)]
    simp only [List.map_cons, List.map_nil, hargs a (by simp), hargs b (by simp)]
  | more _ a b _ hu => exact hu.normalize_eq (hargs b (by simp)) (hargs a (by simp))
  | less _ a b _ hu => exact hu.normalize_eq (hargs a (by simp)) (hargs b (by simp))
  | kept hone htwo =>
    rw [normalize, normalizeAll_eq_map, List.map_congr_left hargs, List.map_id']
    generalize hv : n.reduce fn args k = v
    have h := hv ▸ reduces_reduce n fn args k
    cases h with
    | negation hs a => exact absurd ⟨congrArg some hs, rfl⟩ (hone a)
    | disequality hs a b => exact absurd ⟨congrArg some hs, rfl⟩ (htwo "/=" (by simp) a b)
    | atLeast hs a b => exact absurd ⟨congrArg some hs, rfl⟩ (htwo ">=" (by simp) a b)
    | more hs a b => exact absurd ⟨congrArg some hs, rfl⟩ (htwo ">" (by simp) a b)
    | less hs a b => exact absurd ⟨congrArg some hs, rfl⟩ (htwo "<" (by simp) a b)
    | kept => rfl

mutual

theorem normalize_normalize (t : Term) : n.normalize (n.normalize t) = n.normalize t := by
  match t with
  | symbol s => rw [normalize, normalize]
  | apply fn args k =>
    rw [normalize]
    exact (reduces_reduce n fn _ k).normalize_eq (normalize_mem_normalizeAll args)
  | lambda params body k => rw [normalize, normalize, normalize_normalize body]
  | cases branches otherwise k =>
    rw [normalize, normalize, normalize_normalize otherwise, normalizeBranches_normalize branches]

theorem normalize_mem_normalizeAll (ts : List Term) :
    ∀ u ∈ n.normalizeAll ts, n.normalize u = u := by
  match ts with
  | [] => simp [normalizeAll]
  | t :: rest =>
    rw [normalizeAll]
    exact List.forall_mem_cons.mpr ⟨normalize_normalize t, normalize_mem_normalizeAll rest⟩

theorem normalizeBranches_normalize (branches : List (Term × Term)) :
    n.normalizeBranches (n.normalizeBranches branches) = n.normalizeBranches branches := by
  match branches with
  | [] => rw [normalizeBranches, normalizeBranches]
  | (result, condition) :: rest =>
    rw [normalizeBranches, normalizeBranches, normalize_normalize result,
      normalize_normalize condition, normalizeBranches_normalize rest]

end

end Idempotence

section Forms

variable {n : Normalizer}

theorem reduced_of_operator?_eq_none {u : Term} (h : u.operator? = none) : n.Reduced u := by
  have hcalls : ∀ op args, ¬ u.Calls op args := by
    intro op args hc
    rw [Calls, h] at hc
    exact nomatch hc.1
  exact ⟨fun a => hcalls _ _, fun op _ a b => hcalls _ _, fun _ a b hc => (hcalls _ _ hc).elim⟩

theorem reduced_call_other {op : Text} (hone : op ≠ "not")
    (htwo : op ∉ (["/=", ">=", ">", "<"] : List Text)) (k : Kind) (args : List Term) :
    n.Reduced (call op k args) where
  unary a h := hone (calls_call.mp h).1
  binary op' hmem a b h := by
    obtain rfl := (calls_call.mp h).1
    exact htwo (List.mem_append_left (["<"] : List Text) hmem)
  strict _ a b h := by
    obtain rfl := (calls_call.mp h).1
    exact absurd (by simp) htwo

theorem reduced_call_less {a b : Term}
    (h : n.integerSorts = true → ¬ (a.kind.numeric = true ∧ b.kind.numeric = true)) :
    n.Reduced (call "<" .boolean [a, b]) where
  unary c hc := absurd (calls_call.mp hc).1 (by decide)
  binary op hmem c d hcd := by
    obtain rfl := (calls_call.mp hcd).1
    exact absurd hmem (by decide)
  strict hn c d hcd := by
    obtain ⟨rfl, rfl⟩ : a = c ∧ b = d := by simpa using (calls_call.mp hcd).2
    exact h hn

theorem forall_standing_call {P : Term → Prop} {op : Text} {k : Kind} {args : List Term}
    (hself : P (call op k args)) (hargs : ∀ a ∈ args, ∀ v ∈ a.standing, P v) :
    ∀ v ∈ (call op k args).standing, P v := by
  rw [call, standing]
  refine List.forall_mem_cons.mpr ⟨hself, fun v hv => ?_⟩
  obtain ⟨a, ha, hva⟩ := exists_of_mem_standingAll hv
  exact hargs a ha v hva

theorem forall_standing_pair {P : Term → Prop} {op : Text} {k : Kind} {a b : Term}
    (hself : P (call op k [a, b])) (ha : ∀ v ∈ a.standing, P v) (hb : ∀ v ∈ b.standing, P v) :
    ∀ v ∈ (call op k [a, b]).standing, P v :=
  forall_standing_call hself (List.forall_mem_cons.mpr ⟨ha, List.forall_mem_singleton.mpr hb⟩)

theorem reduced_standing_symbol (s : Symbol) : ∀ v ∈ (symbol s).standing, n.Reduced v := by
  rw [standing]
  exact List.forall_mem_singleton.mpr (reduced_of_operator?_eq_none rfl)

theorem reduced_standing_equal {a b : Term} (ha : ∀ v ∈ a.standing, n.Reduced v)
    (hb : ∀ v ∈ b.standing, n.Reduced v) : ∀ v ∈ (equal a b).standing, n.Reduced v :=
  forall_standing_pair (reduced_call_other (by decide) (by decide) _ _) ha hb

theorem Strict.reduced {a b u : Term} (h : n.Strict a b u) (ha : ∀ v ∈ a.standing, n.Reduced v)
    (hb : ∀ v ∈ b.standing, n.Reduced v) : ∀ v ∈ u.standing, n.Reduced v := by
  cases h with
  | integers =>
    refine forall_standing_pair (reduced_call_other (by decide) (by decide) _ _) ?_ hb
    exact forall_standing_pair (reduced_call_other (by decide) (by decide) _ _) ha
      (reduced_standing_symbol _)
  | others h => exact forall_standing_pair (reduced_call_less h) ha hb

theorem Reduces.reduced {fn : Term} {args : List Term} {k : Kind} {u : Term}
    (h : n.Reduces fn args k u) (hargs : ∀ a ∈ args, ∀ v ∈ a.standing, n.Reduced v) :
    ∀ v ∈ u.standing, n.Reduced v := by
  cases h with
  | negation _ a => exact reduced_standing_equal (hargs a (by simp)) (reduced_standing_symbol _)
  | disequality _ a b =>
    exact reduced_standing_equal (reduced_standing_equal (hargs a (by simp)) (hargs b (by simp)))
      (reduced_standing_symbol _)
  | atLeast _ a b =>
    exact forall_standing_pair (reduced_call_other (by decide) (by decide) _ _)
      (hargs b (by simp)) (hargs a (by simp))
  | more _ a b _ hu => exact hu.reduced (hargs b (by simp)) (hargs a (by simp))
  | less _ a b _ hu => exact hu.reduced (hargs a (by simp)) (hargs b (by simp))
  | kept hone htwo =>
    rw [standing]
    refine List.forall_mem_cons.mpr ⟨⟨hone, fun op hmem => ?_, fun _ a b hab => ?_⟩, fun v hv => ?_⟩
    · exact htwo op (List.mem_append_left (["<"] : List Text) hmem)
    · exact (htwo "<" (by simp) a b hab).elim
    · obtain ⟨a, ha, hva⟩ := exists_of_mem_standingAll hv
      exact hargs a ha v hva

mutual

/-- A normal form is reduced throughout. -/
theorem reduced_normalize (t : Term) : ∀ v ∈ (n.normalize t).standing, n.Reduced v := by
  match t with
  | symbol s =>
    rw [normalize]
    exact reduced_standing_symbol s
  | apply fn args k =>
    rw [normalize]
    exact (reduces_reduce n fn _ k).reduced (reduced_normalizeAll args)
  | lambda params body k =>
    rw [normalize, standing]
    exact List.forall_mem_cons.mpr ⟨reduced_of_operator?_eq_none rfl, reduced_normalize body⟩
  | cases branches otherwise k =>
    rw [normalize, standing]
    refine List.forall_mem_cons.mpr ⟨reduced_of_operator?_eq_none rfl, ?_⟩
    exact List.forall_mem_append.mpr
      ⟨reduced_normalizeBranches branches, reduced_normalize otherwise⟩

theorem reduced_normalizeAll (ts : List Term) :
    ∀ u ∈ n.normalizeAll ts, ∀ v ∈ u.standing, n.Reduced v := by
  match ts with
  | [] => simp [normalizeAll]
  | t :: rest =>
    rw [normalizeAll]
    exact List.forall_mem_cons.mpr ⟨reduced_normalize t, reduced_normalizeAll rest⟩

theorem reduced_normalizeBranches (branches : List (Term × Term)) :
    ∀ v ∈ standingBranches (n.normalizeBranches branches), n.Reduced v := by
  match branches with
  | [] => simp [normalizeBranches, standingBranches]
  | (result, condition) :: rest =>
    rw [normalizeBranches, standingBranches]
    exact List.forall_mem_append.mpr ⟨List.forall_mem_append.mpr
      ⟨reduced_normalize result, reduced_normalize condition⟩, reduced_normalizeBranches rest⟩

end

end Forms

/-- Normalization keeps the meaning of a term and reaches a normal form: where the comparisons are
read as usual and what is classified as a number is an integer, the value stays; normalizing again
changes nothing; and no operator that is reduced is left outside the place of a function. -/
theorem normalize_spec {D : Type u} {I : Semantics D} {n : Normalizer} {integer : D → Prop}
    (hI : I.Comparing n integer) (t : Term) (hl : ∀ u ∈ t.standing, u.isLambda = false)
    (hint : n.integerSorts = true → ∀ u ∈ t.standing, u.kind.numeric = true →
      integer (I.evaluate u)) :
    I.evaluate (n.normalize t) = I.evaluate t ∧ n.normalize (n.normalize t) = n.normalize t ∧
      ∀ u ∈ (n.normalize t).standing, n.Reduced u :=
  ⟨evaluate_normalize hI t hl hint, normalize_normalize t, reduced_normalize t⟩

/-- The negation of `a > b` about the integers, with their sorts at hand. -/
theorem normalize_negation_more :
    let I := Semantics.arithmetic fun _ => .number 0
    let n : Normalizer := ⟨true⟩
    let t := negation (call ">" .boolean [symbol ⟨"a", .integer, .free⟩, symbol ⟨"b", .natural, .free⟩])
    (∀ u ∈ t.standing, u.isLambda = false) ∧
    (∀ u ∈ t.standing, u.kind.numeric = true → (I.evaluate u).isInteger = true) ∧
    I.evaluate (n.normalize t) = I.evaluate t ∧ n.normalize (n.normalize t) = n.normalize t ∧
      ∀ u ∈ (n.normalize t).standing, n.Reduced u := by
  have hl : ∀ u ∈ (negation (call ">" .boolean [symbol ⟨"a", .integer, .free⟩,
      symbol ⟨"b", .natural, .free⟩])).standing, u.isLambda = false := by decide
  have hint : ∀ u ∈ (negation (call ">" .boolean [symbol ⟨"a", .integer, .free⟩,
      symbol ⟨"b", .natural, .free⟩])).standing, u.kind.numeric = true →
      ((Semantics.arithmetic fun _ => .number 0).evaluate u).isInteger = true := by decide
  exact ⟨hl, hint, normalize_spec (Semantics.comparing_arithmetic _ ⟨true⟩) _ hl fun _ => hint⟩

end Normalizer

end Discharge
