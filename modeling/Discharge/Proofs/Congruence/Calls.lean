import Discharge.Proofs.Congruence.Forest

/-!
Sequences of calls on a new vocabulary. Whatever the calls are, two symbols have one root exactly
when the merged pairs connect them, and the root is the member of its class that comes first. The
same calls on trees with compressed paths are answered alike.
-/

namespace Discharge.Congruence

inductive Call where
  | add (name : Text) (kind : Kind) (usage : Usage)
  | make (kind : Kind)
  | merge (a b : Nat)
  | root (i : Nat)
  | lookup (name : Text)
  | symbol (i : Nat)
  | children (name : Text)
  | rootsOfKind (kind : Kind)

inductive Answer where
  | index (i : Nat)
  | name (name : Text)
  | found (i? : Option Nat)
  | symbol (e : Entry)
  | names (names : List Text)
  deriving DecidableEq

namespace Call

def InRange (v : Vocabulary) : Call → Prop
  | add .. | make _ | lookup _ | rootsOfKind _ => True
  | merge a b => a < v.size ∧ b < v.size
  | root i | symbol i => i < v.size
  | children name => (v.lookup? name).isSome = true

def pair? : Call → Option (Nat × Nat)
  | merge a b => some (a, b)
  | _ => none

def answers {σ : Type} (answer : σ → Call → Option (Answer × σ)) :
    List Call → σ → Option (List Answer × σ)
  | [], s => some ([], s)
  | c :: cs, s => do
    let (a, t) ← answer s c
    let (as, u) ← answers answer cs t
    return (a :: as, u)

end Call

namespace Vocabulary

variable {v : Vocabulary}

def answer (v : Vocabulary) : Call → Option (Answer × Vocabulary)
  | .add name kind usage => some (Prod.map .index id (v.add name kind usage))
  | .make kind =>
    let (i, w) := v.create kind
    some (.name (w.name i), w)
  | .merge a b => do
    let _ ← (v.rootAt a).toOption
    let _ ← (v.rootAt b).toOption
    return Prod.map .index id (v.merge a b)
  | .root i => (v.rootAt i).toOption.map fun r => (.index r, v)
  | .lookup name => some (.found (v.lookup? name), v)
  | .symbol i => (v.entryAt i).toOption.map fun e => (.symbol e, v)
  | .children name => (v.indexOf name).toOption.map fun i => (.names (v.others i), v)
  | .rootsOfKind kind => some (.names (v.rootsOfKind kind), v)

theorem toOption_rootAt (h : v.WellFormed) (i : Nat) :
    (v.rootAt i).toOption = if i < v.size then some (v.root i) else none := by
  have hs := h.roots_size
  by_cases hi : i < v.size
  · have hr : v.roots[i]? = some (v.root i) := by
      simp [root, Array.getElem?_eq_getElem (hs ▸ hi : i < v.roots.size)]
    simp [rootAt, hr, hi, Except.toOption]
  · have hr : v.roots[i]? = none := Array.getElem?_eq_none (by omega)
    simp [rootAt, hr, hi, Except.toOption]

theorem toOption_entryAt (v : Vocabulary) (i : Nat) :
    (v.entryAt i).toOption = if i < v.size then some (v.entry i) else none := by
  by_cases hi : i < v.size
  · have he : v.entries[i]? = some (v.entry i) := by
      simp [entry, Array.getElem?_eq_getElem (hi : i < v.entries.size)]
    simp [entryAt, he, hi, Except.toOption]
  · have he : v.entries[i]? = none := Array.getElem?_eq_none (Nat.le_of_not_lt hi)
    simp [entryAt, he, hi, Except.toOption]

theorem toOption_indexOf (v : Vocabulary) (name : Text) :
    (v.indexOf name).toOption = v.lookup? name := by
  cases h : v.lookup? name <;> simp [indexOf, h, Except.toOption]

theorem wellFormed_merge (h : v.WellFormed) {a b : Nat} (ha : a < v.size) (hb : b < v.size) :
    (v.merge a b).2.WellFormed := by
  by_cases he : v.root a = v.root b
  · have hm : (v.merge a b).2 = v := by simp [merge, he]
    rwa [hm]
  · obtain ⟨loser, -, hj⟩ := merge_joins h ha hb he
    exact hj.wellFormed h

theorem answer_cases {c : Call} {a : Answer} {w : Vocabulary} (h : v.WellFormed)
    (ha : v.answer c = some (a, w)) :
    (c.pair? = none ∧ (w = v ∨ (∃ name kind usage, w = (v.add name kind usage).2) ∨
      ∃ kind, w = (v.create kind).2)) ∨
    ∃ i j, c = .merge i j ∧ i < v.size ∧ j < v.size ∧ w = (v.merge i j).2 := by
  cases c with
  | add name kind usage =>
    cases ha
    exact .inl ⟨rfl, .inr (.inl ⟨name, kind, usage, rfl⟩)⟩
  | make kind =>
    cases ha
    exact .inl ⟨rfl, .inr (.inr ⟨kind, rfl⟩)⟩
  | merge i j =>
    simp only [answer, toOption_rootAt h] at ha
    split at ha
    · split at ha
      · cases ha
        exact .inr ⟨i, j, rfl, ‹_›, ‹_›, rfl⟩
      · cases ha
    · cases ha
  | root i | symbol i | children name =>
    obtain ⟨_, -, he⟩ := Option.map_eq_some_iff.mp ha
    cases he
    exact .inl ⟨rfl, .inl rfl⟩
  | lookup name | rootsOfKind kind =>
    cases ha
    exact .inl ⟨rfl, .inl rfl⟩

theorem wellFormed_answer {c : Call} {a : Answer} {w : Vocabulary} (h : v.WellFormed)
    (ha : v.answer c = some (a, w)) : w.WellFormed := by
  obtain ⟨-, rfl | ⟨name, kind, usage, rfl⟩ | ⟨kind, rfl⟩⟩ | ⟨i, j, -, hi, hj, rfl⟩ :=
    answer_cases h ha
  · exact h
  · exact wellFormed_add h ..
  · exact wellFormed_create h kind
  · exact wellFormed_merge h hi hj

def Connected (pairs : List (Nat × Nat)) : Nat → Nat → Prop :=
  Relation.EqvGen fun i j => (i, j) ∈ pairs

theorem Connected.mono {pairs more : List (Nat × Nat)} {i j : Nat} (h : Connected pairs i j) :
    Connected (pairs ++ more) i j :=
  Relation.EqvGen.mono (fun _ _ hp => List.mem_append_left _ hp) _ _ h

/-- The vocabulary whose classes are those of the merged pairs. -/
def Classified (v : Vocabulary) (pairs : List (Nat × Nat)) : Prop :=
  ∀ i j, v.root i = v.root j ↔ Connected pairs i j

theorem classified_initial : initial.Classified [] := by
  intro i j
  rw [initial_root, initial_root]
  refine ⟨?_, ?_⟩
  · rintro rfl
    exact .refl i
  · intro h
    induction h with
    | rel _ _ hp => cases hp
    | refl => rfl
    | symm _ _ _ ih => exact ih.symm
    | trans _ _ _ _ _ ih ih' => exact ih.trans ih'

theorem root_merge (h : v.WellFormed) {a b : Nat} (ha : a < v.size) (hb : b < v.size) :
    ∃ winner loser, (winner = v.root a ∧ loser = v.root b ∨
        winner = v.root b ∧ loser = v.root a) ∧
      ∀ i, (v.merge a b).2.root i = if v.root i = loser then winner else v.root i := by
  by_cases he : v.root a = v.root b
  · have hm : (v.merge a b).2 = v := by simp [merge, he]
    refine ⟨v.root a, v.root b, .inl ⟨rfl, rfl⟩, fun i => ?_⟩
    rw [hm, he]
    split
    · assumption
    · rfl
  · obtain ⟨loser, hwho, hj⟩ := merge_joins h ha hb he
    refine ⟨_, loser, ?_, hj.root_eq⟩
    rcases hwho with ⟨hl, hw⟩ | ⟨hl, hw⟩
    · exact .inr ⟨hw, hl⟩
    · exact .inl ⟨hw, hl⟩

theorem classified_merge {pairs : List (Nat × Nat)} (h : v.WellFormed)
    (hv : v.Classified pairs) {a b : Nat} (ha : a < v.size) (hb : b < v.size) :
    (v.merge a b).2.Classified (pairs ++ [(a, b)]) := by
  obtain ⟨winner, loser, hwho, hroot⟩ := root_merge h ha hb
  have hold : ∀ i, Connected (pairs ++ [(a, b)]) (v.root i) i :=
    fun i => ((hv _ _).mp (h.root_root i)).mono
  have hab : Connected (pairs ++ [(a, b)]) (v.root a) (v.root b) :=
    .trans _ _ _ (.trans _ _ _ (hold a) (.rel _ _ (by simp))) (.symm _ _ (hold b))
  have hwl : Connected (pairs ++ [(a, b)]) winner loser := by
    rcases hwho with ⟨rfl, rfl⟩ | ⟨rfl, rfl⟩
    · exact hab
    · exact .symm _ _ hab
  have hnew : ∀ i, Connected (pairs ++ [(a, b)]) ((v.merge a b).2.root i) i := by
    intro i
    rw [hroot]
    split
    · rename_i hl
      exact .trans _ _ _ hwl (hl ▸ hold i)
    · exact hold i
  intro i j
  constructor
  · intro he
    exact .trans _ _ _ (.symm _ _ (hnew i)) (he ▸ hnew j)
  · intro hc
    induction hc with
    | rel i j hp =>
      rcases List.mem_append.mp hp with hp | hp
      · rw [hroot, hroot, (hv i j).mpr (.rel _ _ hp)]
      · cases List.mem_singleton.mp hp
        rw [hroot, hroot]
        rcases hwho with ⟨rfl, rfl⟩ | ⟨rfl, rfl⟩ <;> simp
    | refl => rfl
    | symm _ _ _ ih => exact ih.symm
    | trans _ _ _ _ _ ih ih' => exact ih.trans ih'

theorem classified_answer {c : Call} {a : Answer} {w : Vocabulary} {pairs : List (Nat × Nat)}
    (h : v.WellFormed) (hv : v.Classified pairs) (ha : v.answer c = some (a, w)) :
    w.Classified (pairs ++ c.pair?.toList) := by
  obtain ⟨hc, hw⟩ | ⟨i, j, rfl, hi, hj, rfl⟩ := answer_cases h ha
  · have hroot : ∀ i, w.root i = v.root i := by
      obtain rfl | ⟨name, kind, usage, rfl⟩ | ⟨kind, rfl⟩ := hw
      · exact fun _ => rfl
      · exact root_add h name kind usage
      · exact root_create h kind
    intro i j
    rw [hc, hroot, hroot, hv]
    simp
  · exact classified_merge h hv hi hj

theorem prefers_or_prefers (v : Vocabulary) {i j : Nat} (h : i ≠ j) :
    v.prefers i j = true ∨ v.prefers j i = true := by
  rw [← Forest.before_iff, ← Forest.before_iff]
  exact Forest.before_or_before _ h

/-- The root of a class is the member that comes first. -/
theorem root_eq_iff {pairs : List (Nat × Nat)} (h : v.WellFormed) (hv : v.Classified pairs)
    {i r : Nat} :
    v.root i = r ↔
      Connected pairs r i ∧ ∀ j, Connected pairs j i → j = r ∨ v.prefers r j = true := by
  have hfirst : ∀ j, v.root j = v.root i → j = v.root i ∨ v.prefers (v.root i) j = true := by
    intro j hj
    by_cases he : j = v.root i
    · exact .inl he
    · have hlt : j < v.size := by
        by_contra hge
        rw [root_of_ge h (Nat.le_of_not_lt hge)] at hj
        exact he hj
      have hbest := h.root_best hlt
      rw [hj] at hbest
      exact .inr ((v.prefers_or_prefers he).resolve_left (by simp [hbest]))
  constructor
  · rintro rfl
    refine ⟨(hv _ _).mp (h.root_root i), fun j hj => ?_⟩
    exact hfirst j ((hv j i).mpr hj)
  · rintro ⟨hr, hleast⟩
    rcases hfirst r ((hv r i).mpr hr) with he | hp
    · exact he.symm
    · rcases hleast (v.root i) ((hv _ _).mp (h.root_root i)) with he | hp'
      · exact he
      · rw [prefers_asymm hp] at hp'
        cases hp'

end Vocabulary

namespace Forest

variable {f g : Forest}

def answer (f : Forest) : Call → Option (Answer × Forest)
  | .add name kind usage => some (Prod.map .index id (f.add name kind usage))
  | .make kind => some (Prod.map .name id (f.make kind))
  | .merge a b =>
    if h : a < f.size ∧ b < f.size then some (Prod.map .index id (f.merge a b h.1 h.2)) else none
  | .root i => if i < f.size then some (Prod.map .index id (f.find i)) else none
  | .lookup name => some (.found f.index[name]?, f)
  | .symbol i => if i < f.size then some (.symbol (f.entry i), f) else none
  | .children name => f.index[name]?.map fun i => Prod.map .names id (f.children i)
  | .rootsOfKind kind => some (.names (f.rootsOfKind kind), f)

theorem gathered_answer {c : Call} {a : Answer} (h : f.Gathered) (ha : f.answer c = some (a, g)) :
    g.Gathered := by
  cases c with
  | add name kind usage =>
    cases ha
    exact h.add ..
  | make kind =>
    cases ha
    exact h.make kind
  | merge a b =>
    simp only [answer] at ha
    split at ha
    · rename_i hab
      cases ha
      exact h.merge hab.1 hab.2
    · cases ha
  | root i =>
    simp only [answer] at ha
    split at ha
    · cases ha
      exact h.find i
    · cases ha
  | symbol i =>
    simp only [answer] at ha
    split at ha
    · cases ha
      exact h
    · cases ha
  | children name =>
    obtain ⟨i, -, he⟩ := Option.map_eq_some_iff.mp ha
    cases he
    exact h.find i
  | lookup name | rootsOfKind kind =>
    cases ha
    exact h

/-- A forest answers a call as the vocabulary does that it stands for. -/
theorem answer_vocabulary (h : f.Gathered) (hv : f.vocabulary.WellFormed) (c : Call) :
    (f.answer c).map (Prod.map id vocabulary) = f.vocabulary.answer c := by
  cases c with
  | add name kind usage =>
    have hadd := add_vocabulary f name kind usage
    simp only [answer, Vocabulary.answer, Option.map_some, ← hadd]
    rfl
  | make kind =>
    obtain ⟨hg, hn⟩ := make_vocabulary f kind
    have hname :
        (f.vocabulary.create kind).2.name (f.vocabulary.create kind).1 = (f.make kind).1 := by
      rw [Vocabulary.create_fst hv, Vocabulary.name, Vocabulary.entry_create hv, hn]
    change some (Answer.name (f.make kind).1, (f.make kind).2.vocabulary) = _
    rw [← hname, hg]
    rfl
  | merge a b =>
    simp only [answer, Vocabulary.answer, Vocabulary.toOption_rootAt hv, size_vocabulary]
    by_cases ha : a < f.size
    · by_cases hb : b < f.size
      · have hm := merge_vocabulary ha hb
        simp only [ha, hb, and_self, dite_true, if_true, ← hm]
        rfl
      · simp [ha, hb]
    · simp [ha]
  | root i =>
    simp only [answer, Vocabulary.answer, Vocabulary.toOption_rootAt hv, size_vocabulary]
    by_cases hi : i < f.size
    · have hroot : f.vocabulary.root i = (f.find i).1 := root_vocabulary f i
      simp only [hi, if_true, Option.map_some]
      exact congrArg some (Prod.ext (congrArg Answer.index hroot.symm) (vocabulary_find f i))
    · simp [hi]
  | symbol i =>
    simp only [answer, Vocabulary.answer, Vocabulary.toOption_entryAt, size_vocabulary]
    by_cases hi : i < f.size
    · simp only [hi, if_true, Option.map_some]
      rfl
    · simp [hi]
  | children name =>
    simp only [answer, Vocabulary.answer, Vocabulary.toOption_indexOf]
    change _ = Option.map _ (f.index[name]?)
    cases hi : f.index[name]? with
    | none => rfl
    | some i =>
      have hlt : i < f.size := hv.lt_of_lookup? hi
      obtain ⟨hnames, hsame⟩ := h.children hlt
      exact congrArg some (Prod.ext (congrArg Answer.names hnames) hsame)
  | lookup name => rfl
  | rootsOfKind kind =>
    simp only [answer, Vocabulary.answer, Option.map_some, rootsOfKind_vocabulary]
    rfl

structure Sound (f : Forest) (pairs : List (Nat × Nat)) : Prop where
  gathered : f.Gathered
  wellFormed : f.vocabulary.WellFormed
  classified : f.vocabulary.Classified pairs

theorem sound_initial : initial.Sound [] := by
  refine ⟨gathered_initial, ?_, ?_⟩ <;> rw [vocabulary_initial]
  · exact Vocabulary.wellFormed_initial
  · exact Vocabulary.classified_initial

theorem Sound.answer {pairs : List (Nat × Nat)} {c : Call} {a : Answer} (h : f.Sound pairs)
    (ha : f.answer c = some (a, g)) : g.Sound (pairs ++ c.pair?.toList) := by
  have hv : f.vocabulary.answer c = some (a, g.vocabulary) := by
    rw [← answer_vocabulary h.gathered h.wellFormed, ha]
    rfl
  exact ⟨gathered_answer h.gathered ha, Vocabulary.wellFormed_answer h.wellFormed hv,
    Vocabulary.classified_answer h.wellFormed h.classified hv⟩

theorem Sound.answers {pairs : List (Nat × Nat)} {calls : List Call} {as : List Answer}
    (h : f.Sound pairs) (ha : Call.answers Forest.answer calls f = some (as, g)) :
    g.Sound (pairs ++ calls.filterMap Call.pair?) := by
  induction calls generalizing f pairs as with
  | nil =>
    cases ha
    simpa using h
  | cons c calls ih =>
    simp only [Call.answers, Option.bind_eq_bind, Option.bind_eq_some_iff, Prod.exists] at ha
    obtain ⟨a, f', hc, as', g', hrest, he⟩ := ha
    cases he
    have hstep := ih (h.answer hc) hrest
    cases hp : c.pair? <;> simpa [hp] using hstep

theorem Sound.answers_vocabulary {pairs : List (Nat × Nat)} (h : f.Sound pairs)
    (calls : List Call) :
    (Call.answers Forest.answer calls f).map (Prod.map id vocabulary) =
      Call.answers Vocabulary.answer calls f.vocabulary := by
  induction calls generalizing f pairs with
  | nil => rfl
  | cons c calls ih =>
    have hc := answer_vocabulary h.gathered h.wellFormed c
    simp only [Call.answers, Option.bind_eq_bind, ← hc]
    cases hf : f.answer c with
    | none => rfl
    | some r =>
      obtain ⟨a, g⟩ := r
      have hrest := ih (h.answer hf)
      simp only [Option.bind_some, Option.map_some, Prod.map, id, ← hrest]
      cases Call.answers Forest.answer calls g <;> rfl

theorem Sound.answers_congr {pairs pairs' : List (Nat × Nat)} (h : f.Sound pairs)
    (h' : g.Sound pairs') (he : g.vocabulary = f.vocabulary) (calls : List Call) :
    (Call.answers Forest.answer calls g).map Prod.fst =
      (Call.answers Forest.answer calls f).map Prod.fst := by
  have hfst : ∀ k : Forest, (Call.answers Forest.answer calls k).map Prod.fst =
      ((Call.answers Forest.answer calls k).map (Prod.map id vocabulary)).map Prod.fst := by
    intro k
    rw [Option.map_map]
    rfl
  rw [hfst, hfst, h.answers_vocabulary, h'.answers_vocabulary, he]

theorem isSome_answer (f : Forest) (c : Call) :
    (f.answer c).isSome = true ↔ c.InRange f.vocabulary := by
  cases c with
  | add name kind usage | make kind | lookup name | rootsOfKind kind =>
    simp [answer, Call.InRange]
  | merge a b =>
    by_cases hab : a < f.size ∧ b < f.size <;> simp [answer, Call.InRange, hab]
  | root i | symbol i =>
    by_cases hi : i < f.size <;> simp [answer, Call.InRange, hi]
  | children name =>
    simp only [answer, Option.isSome_map]
    rfl

/-- What a new vocabulary has become once the pairs were merged, in the terms of its trees. -/
structure Partitioned (f : Forest) (pairs : List (Nat × Nat)) : Prop where
  answered : ∀ c : Call, (f.answer c).isSome = true ↔ c.InRange f.vocabulary
  top_eq_iff : ∀ i j, f.top i = f.top j ↔ Vocabulary.Connected pairs i j
  /-- A root query tells the root, and changes the answer to nothing that is asked later. -/
  asked : ∀ i < f.size, ∃ g, f.answer (.root i) = some (.index (f.top i), g) ∧
    ∀ calls, (Call.answers answer calls g).map Prod.fst =
      (Call.answers answer calls f).map Prod.fst
  /-- The root is the first of its class: input before created, then old before new. -/
  least : ∀ i r, f.top i = r ↔ Vocabulary.Connected pairs r i ∧
    ∀ j, Vocabulary.Connected pairs j i → j = r ∨ f.prefers r j = true
  truth : f.top Vocabulary.truth = Vocabulary.truth
  falsehood : f.top Vocabulary.falsehood = Vocabulary.falsehood ↔
    ¬ Vocabulary.Connected pairs Vocabulary.truth Vocabulary.falsehood
  named : ∀ name i, f.index[name]? = some i ↔ i < f.size ∧ (f.entry i).name = name
  gathered : f.Gathered
  children : ∀ name i, f.index[name]? = some i → ∃ g, f.answer (.children name) =
    some (.names (((List.range f.size).filter fun j => f.top j = f.top i ∧ j ≠ f.top i).map
      fun j => (f.entry j).name), g)
  /-- A made symbol is a new one, with a name that none had before. -/
  fresh : ∀ kind, ∃ name g, f.answer (.make kind) = some (.name name, g) ∧
    f.index[name]? = none ∧ g.index[name]? = some f.size ∧
    g.size = f.size + 1 ∧ g.entry f.size = ⟨name, kind, .created⟩

theorem Sound.partitioned {pairs : List (Nat × Nat)} (h : f.Sound pairs) :
    f.Partitioned pairs where
  answered := f.isSome_answer
  top_eq_iff i j := by simpa using h.classified i j
  asked i hi := by
    have ha : f.answer (.root i) = some (.index (f.top i), (f.find i).2) := by
      simp only [Forest.answer, hi, if_true]
      rfl
    exact ⟨_, ha, h.answers_congr (h.answer ha) (vocabulary_find f i)⟩
  least i r := by
    have := Vocabulary.root_eq_iff h.wellFormed h.classified (i := i) (r := r)
    rwa [root_vocabulary] at this
  truth := by simpa using h.wellFormed.root_truth
  falsehood := by
    have ht := h.wellFormed.root_truth
    have hf := h.wellFormed.root_falsehood
    rw [← h.classified, ht]
    rw [root_vocabulary] at hf ⊢
    rcases hf with hf | hf <;> rw [hf] <;> decide
  named name i := h.wellFormed.lookup_iff
  gathered := h.gathered
  children name i hi := by
    have hlt : i < f.size := h.wellFormed.lt_of_lookup? hi
    refine ⟨(f.children i).2, ?_⟩
    have hnames : (f.children i).1 =
        ((List.range f.size).filter fun j => f.top j = f.top i ∧ j ≠ f.top i).map
          fun j => (f.entry j).name := by
      rw [(h.gathered.children hlt).1, Vocabulary.others, Vocabulary.members, List.filter_filter]
      congr 2
      funext j
      rw [Bool.eq_iff_iff]
      simp [and_comm]
    simp only [Forest.answer, hi, Option.map_some, ← hnames]
    rfl
  fresh kind := by
    have hg := (make_vocabulary f kind).1
    have hn := (make_vocabulary f kind).2
    have hfree := Vocabulary.lookup?_freeNumber h.wellFormed f.vocabulary.created
    have hentry := Vocabulary.entry_create h.wellFormed kind
    have hsize := Vocabulary.size_create h.wellFormed kind
    have hgood := Vocabulary.wellFormed_create h.wellFormed kind
    rw [← hn] at hfree hentry
    rw [← hg] at hentry hsize hgood
    refine ⟨(f.make kind).1, (f.make kind).2, rfl, hfree, ?_, hsize, hentry⟩
    refine hgood.lookup_iff.mpr ⟨by rw [hsize]; exact Nat.lt_succ_self _, ?_⟩
    exact congrArg Entry.name hentry

/-- Every session on a new vocabulary leaves the classes of the pairs that it merged. The trees
answer it as the vocabulary does, and they are what they should be. -/
theorem partitioned_answers {calls : List Call} {as : List Answer}
    (ha : Call.answers answer calls initial = some (as, f)) :
    Call.answers Vocabulary.answer calls Vocabulary.initial = some (as, f.vocabulary) ∧
      f.Partitioned (calls.filterMap Call.pair?) := by
  have hv := sound_initial.answers_vocabulary calls
  rw [vocabulary_initial, ha] at hv
  exact ⟨hv.symm, (sound_initial.answers ha).partitioned⟩

def collidingCalls : List Call :=
  [.add "¢c0" .boolean .literal, .make .boolean, .make .boolean, .merge 3 4, .merge 4 1, .root 3,
    .children "false"]

theorem partitioned_collidingCalls :
    ∃ f, Call.answers answer collidingCalls initial =
        some ([.index 2, .name "¢c1", .name "¢c2", .index 3, .index 1, .index 1,
          .names ["¢c1", "¢c2"]], f) ∧
      f.Partitioned [(3, 4), (4, 1)] := by
  have hrun : (Call.answers Vocabulary.answer collidingCalls Vocabulary.initial).map Prod.fst =
      some [.index 2, .name "¢c1", .name "¢c2", .index 3, .index 1, .index 1,
        .names ["¢c1", "¢c2"]] := by decide +kernel
  rw [← vocabulary_initial, ← sound_initial.answers_vocabulary, Option.map_map] at hrun
  obtain ⟨⟨as, f⟩, ha, has⟩ := Option.map_eq_some_iff.mp hrun
  cases has
  exact ⟨f, ha, (partitioned_answers ha).2⟩

end Forest

end Discharge.Congruence
