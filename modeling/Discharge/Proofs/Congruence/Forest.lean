import Mathlib.Logic.Relation
import Discharge.Proofs.Congruence.Classes

/-!
The classes of a vocabulary as trees. Each symbol points to a parent, the members of a class are
filed under its root, and asking for a root shortens the path that was walked. A parent always comes
before its child in one order on the symbols. That is why both loops of a root query end, and why
the root of a class does not depend on the order of the merges. Read through its roots a forest is a
vocabulary, and every call on the one is the same call on the other.
-/

namespace Discharge.Congruence

/-- The place of a symbol in the order of roots: input before created, then old before new. -/
def Forest.rank (es : Array Entry) (i : Nat) : Nat × Nat :=
  (((es[i]?.getD default).usage == .created).toNat, i)

def Forest.Before (es : Array Entry) (i j : Nat) : Prop :=
  Prod.Lex (· < ·) (· < ·) (Forest.rank es i) (Forest.rank es j)

structure Forest where
  entries : Array Entry
  parents : Array Nat
  index : Std.TreeMap Text Nat
  members : Std.TreeMap Nat (List Nat)
  created : Nat
  parents_size : parents.size = entries.size
  climbs : ∀ {i p}, parents[i]? = some p → p ≠ i → p < entries.size ∧ Forest.Before entries p i

namespace Forest

section Order

variable {es : Array Entry} {i j k : Nat}

theorem before_iff (v : Vocabulary) (i j : Nat) :
    Before v.entries i j ↔ v.prefers i j = true := by
  have hrank : ∀ k, rank v.entries k = ((v.usage k == .created).toNat, k) := fun _ => rfl
  rw [Before, hrank, hrank, Prod.lex_def]
  unfold Vocabulary.prefers
  cases ha : v.usage i == .created <;> cases hb : v.usage j == .created <;> simp

theorem Before.trans (h : Before es i j) (h' : Before es j k) : Before es i k :=
  Prod.Lex.trans h h'

theorem not_before_self (es : Array Entry) (i : Nat) : ¬ Before es i i := by
  simp [Before, Prod.lex_def]

theorem before_or_before (es : Array Entry) (h : i ≠ j) : Before es i j ∨ Before es j i := by
  simp only [Before, rank, Prod.lex_def]
  omega

theorem before_push (e : Entry) (hi : i < es.size) (hj : j < es.size) (h : Before es i j) :
    Before (es.push e) i j := by
  simpa [Before, rank, Array.getElem?_push, Nat.ne_of_lt hi, Nat.ne_of_lt hj] using h

end Order

variable {f : Forest} {i j r : Nat}

def size (f : Forest) : Nat := f.entries.size

def parent (f : Forest) (i : Nat) : Nat := f.parents[i]?.getD i

theorem parent_of_ge (h : f.size ≤ i) : f.parent i = i := by
  have hs := f.parents_size
  simp only [size] at h
  simp [parent, Array.getElem?_eq_none (by omega : f.parents.size ≤ i)]

theorem parent_before (h : f.parent i ≠ i) : Before f.entries (f.parent i) i := by
  cases hp : f.parents[i]? with
  | none => exact (h (by simp [parent, hp])).elim
  | some p =>
    have he : f.parent i = p := by simp [parent, hp]
    rw [he] at h ⊢
    exact (f.climbs hp h).2

theorem parent_lt (h : i < f.size) : f.parent i < f.size := by
  by_cases hne : f.parent i = i
  · rwa [hne]
  · cases hp : f.parents[i]? with
    | none => exact (hne (by simp [parent, hp])).elim
    | some p =>
      have he : f.parent i = p := by simp [parent, hp]
      rw [he] at hne ⊢
      exact (f.climbs hp hne).1

def top (f : Forest) (i : Nat) : Nat :=
  if _ : f.parent i = i then i else f.top (f.parent i)
termination_by rank f.entries i
decreasing_by exact parent_before ‹_›

theorem top_of_parent_eq (h : f.parent i = i) : f.top i = i := by
  rw [top, dif_pos h]

theorem top_parent (f : Forest) (i : Nat) : f.top (f.parent i) = f.top i := by
  by_cases h : f.parent i = i
  · rw [h]
  · rw [top.eq_1 f i, dif_neg h]

theorem parent_top (f : Forest) (i : Nat) : f.parent (f.top i) = f.top i := by
  induction i using top.induct f with
  | case1 i h => rwa [top_of_parent_eq h]
  | case2 i h ih => rwa [← top_parent f i]

theorem top_top (f : Forest) (i : Nat) : f.top (f.top i) = f.top i :=
  top_of_parent_eq (f.parent_top i)

theorem parent_eq_iff : f.parent i = i ↔ f.top i = i := by
  refine ⟨top_of_parent_eq, fun h => ?_⟩
  have := f.parent_top i
  rwa [h] at this

theorem top_lt (h : i < f.size) : f.top i < f.size := by
  induction i using top.induct f with
  | case1 i hp => rwa [top_of_parent_eq hp]
  | case2 i hp ih =>
    rw [← top_parent f i]
    exact ih (parent_lt h)

theorem top_eq_or_before (f : Forest) (i : Nat) :
    f.top i = i ∨ Before f.entries (f.top i) i := by
  induction i using top.induct f with
  | case1 i h => exact .inl (top_of_parent_eq h)
  | case2 i h ih =>
    rw [top_parent] at ih
    rcases ih with ih | ih
    · rw [ih]
      exact .inr (parent_before h)
    · exact .inr (ih.trans (parent_before h))

def hang (f : Forest) (i r : Nat) (hr : r < f.size) (hb : Before f.entries r i) : Forest :=
  { f with
    parents := f.parents.setIfInBounds i r
    parents_size := by rw [Array.size_setIfInBounds, f.parents_size]
    climbs := by
      intro j p hp hne
      rw [Array.getElem?_setIfInBounds] at hp
      split at hp
      · rename_i he
        subst he
        split at hp
        · cases hp
          exact ⟨hr, hb⟩
        · cases hp
      · exact f.climbs hp hne }

theorem parent_hang (hi : i < f.size) (hr : r < f.size) (hb : Before f.entries r i) (j : Nat) :
    (f.hang i r hr hb).parent j = if i = j then r else f.parent j := by
  have hi' : i < f.parents.size := f.parents_size ▸ hi
  simp only [parent, hang, Array.getElem?_setIfInBounds]
  split <;> simp_all

/-- Hanging a symbol below a root moves the symbols that end at it, and no others. -/
theorem top_hang (hi : i < f.size) (hr : r < f.size) (hb : Before f.entries r i)
    (hroot : f.top r = r) (hend : f.top i = i ∨ f.top i = r) (j : Nat) :
    (f.hang i r hr hb).top j = if f.top j = i then r else f.top j := by
  have hne : i ≠ r := by
    rintro rfl
    exact not_before_self _ _ hb
  have hr' : (f.hang i r hr hb).top r = r := by
    apply top_of_parent_eq
    rw [parent_hang hi, if_neg hne, parent_eq_iff, hroot]
  induction j using top.induct f with
  | case1 j h =>
    rw [top_of_parent_eq h]
    by_cases he : j = i
    · subst he
      rw [if_pos rfl, ← top_parent, parent_hang hi, if_pos rfl, hr']
    · rw [if_neg he]
      apply top_of_parent_eq
      rw [parent_hang hi, if_neg (Ne.symm he), h]
  | case2 j h ih =>
    rw [top_parent] at ih
    by_cases he : j = i
    · subst he
      have htop : f.top j = r := hend.resolve_left (fun ht => h (parent_eq_iff.mpr ht))
      rw [← top_parent, parent_hang hi, if_pos rfl, hr', htop, if_neg (Ne.symm hne)]
    · rw [← ih, ← top_parent _ j, parent_hang hi, if_neg (Ne.symm he)]

theorem shortens (h : f.top i = r) (hp : f.parent i ≠ r) :
    i < f.size ∧ r < f.size ∧ f.parent i ≠ i ∧ Before f.entries r i := by
  have hne : f.parent i ≠ i := by
    intro he
    rw [top_of_parent_eq he] at h
    exact hp (he.trans h)
  have hi : i < f.size := by
    by_contra hge
    exact hne (parent_of_ge (Nat.le_of_not_lt hge))
  subst h
  exact ⟨hi, top_lt hi, hne, (f.top_eq_or_before i).resolve_left (mt parent_eq_iff.mpr hne)⟩

def shorten (f : Forest) (i r : Nat) (h : f.top i = r) (hp : f.parent i ≠ r) : Forest :=
  f.hang i r (shortens h hp).2.1 (shortens h hp).2.2.2

/-- A symbol hung below the root of its own class leaves every root as it was. -/
theorem top_shorten (h : f.top i = r) (hp : f.parent i ≠ r) (j : Nat) :
    (f.shorten i r h hp).top j = f.top j := by
  obtain ⟨hi, hr, hne, hb⟩ := shortens h hp
  have hroot : f.top r = r := by rw [← h, top_top]
  rw [shorten, top_hang hi hr hb hroot (.inr h), if_neg]
  intro hj
  rw [← hj, top_top, hj] at h
  rw [h] at hb
  exact not_before_self _ _ hb

def compress (f : Forest) (i r : Nat) (h : f.top i = r) : Forest :=
  if hp : f.parent i = r then f
  else (f.shorten i r h hp).compress (f.parent i) r (by rw [top_shorten, top_parent, h])
termination_by rank f.entries i
decreasing_by exact parent_before (shortens h hp).2.2.1

/-- The root of a symbol, with the path to it compressed. -/
def find (f : Forest) (i : Nat) : Nat × Forest := (f.top i, f.compress i (f.top i) rfl)

/-- A query moves parents and nothing else, and it moves no root. -/
theorem compress_keeps (h : f.top i = r) :
    (f.compress i r h).entries = f.entries ∧ (f.compress i r h).index = f.index ∧
      (f.compress i r h).members = f.members ∧ (f.compress i r h).created = f.created ∧
      ∀ j, (f.compress i r h).top j = f.top j := by
  fun_induction compress f i r h with
  | case1 => exact ⟨rfl, rfl, rfl, rfl, fun _ => rfl⟩
  | case2 f i h hp ih =>
    obtain ⟨he, hx, hm, hc, ht⟩ := ih
    exact ⟨he, hx, hm, hc, fun j => (ht j).trans (top_shorten h hp j)⟩

theorem top_congr {g : Forest} (h : ∀ j, g.parent j = f.parent j) (j : Nat) :
    g.top j = f.top j := by
  induction j using top.induct f with
  | case1 j hp => rw [top_of_parent_eq hp, top_of_parent_eq ((h j).trans hp)]
  | case2 j hp ih => rw [← top_parent f, ← ih, ← h, top_parent]

def entry (f : Forest) (i : Nat) : Entry := f.entries[i]?.getD default

def push (f : Forest) (e : Entry) : Forest where
  entries := f.entries.push e
  parents := f.parents.push f.size
  index := f.index.insert e.name f.size
  members := f.members.insert f.size [f.size]
  created := f.created
  parents_size := by rw [Array.size_push, Array.size_push, f.parents_size]
  climbs := by
    intro i p hp hne
    have hs := f.parents_size
    rw [Array.getElem?_push] at hp
    split at hp
    · rename_i hi
      cases hp
      exact (hne (hi.trans hs).symm).elim
    · obtain ⟨hlt, hb⟩ := f.climbs hp hne
      have hi : i < f.parents.size := (Array.getElem?_eq_some_iff.mp hp).1
      refine ⟨?_, before_push e hlt (hs ▸ hi) hb⟩
      rw [Array.size_push]
      omega

def add (f : Forest) (name : Text) (kind : Kind) (usage : Usage) : Nat × Forest :=
  match f.index[name]? with
  | some i => (i, f)
  | none => (f.size, f.push ⟨name, kind, usage⟩)

def freeNumber (f : Forest) : (fuel n : Nat) → Nat
  | 0, n => n
  | fuel + 1, n =>
    if f.index.contains (Vocabulary.createdName n) then f.freeNumber fuel (n + 1) else n

def make (f : Forest) (kind : Kind) : Text × Forest :=
  let n := f.freeNumber f.size f.created
  (Vocabulary.createdName n,
    ({ f with created := n + 1 }.add (Vocabulary.createdName n) kind .created).2)

def prefers (f : Forest) (a b : Nat) : Bool :=
  let createdA := (f.entry a).usage == .created
  let createdB := (f.entry b).usage == .created
  if createdA != createdB then createdB else a < b

theorem prefers_iff {a b : Nat} : f.prefers a b = true ↔ Before f.entries a b := by
  rw [before_iff ⟨f.entries, f.parents, f.index, f.created⟩]
  rfl

/-- One root is hung below another, which takes over its members. -/
def unite (f : Forest) (winner loser : Nat) (hw : winner < f.size)
    (hb : Before f.entries winner loser) : Forest :=
  { f.hang loser winner hw hb with
    members := (f.members.insert winner
      (f.members[winner]?.getD [] ++ f.members[loser]?.getD [])).erase loser }

theorem find_fst (f : Forest) (i : Nat) : (f.find i).1 = f.top i := rfl

theorem top_find (f : Forest) (i j : Nat) : (f.find i).2.top j = f.top j :=
  (compress_keeps rfl).2.2.2.2 j

theorem size_find (f : Forest) (i : Nat) : (f.find i).2.size = f.size := by
  rw [find, size, (compress_keeps _).1, size]

theorem find_fst_lt (h : i < f.size) : (f.find i).1 < (f.find i).2.size := by
  rw [find_fst, size_find]
  exact top_lt h

def link (f : Forest) (a b : Nat) (ha : a < f.size) (hb : b < f.size) : Nat × Forest :=
  if h : a = b then (a, f)
  else if hp : f.prefers b a then (b, f.unite b a hb (prefers_iff.mp hp))
  else (a, f.unite a b ha
    ((before_or_before f.entries h).resolve_right (fun hb => hp (prefers_iff.mpr hb))))

def merge (f : Forest) (a b : Nat) (ha : a < f.size) (hb : b < f.size) : Nat × Forest :=
  let first := f.find a
  let second := first.2.find b
  second.2.link first.1 second.1 (by rw [size_find]; exact find_fst_lt ha)
    (find_fst_lt (by rwa [size_find]))

def children (f : Forest) (i : Nat) : List Text × Forest :=
  let (r, g) := f.find i
  let sorted := (g.members[r]?.getD []).mergeSort (· ≤ ·)
  ((sorted.filter (· != r)).map fun j => (g.entry j).name, g)

def rootsOfKind (f : Forest) (kind : Kind) : List Text :=
  ((List.range f.size).filter fun i =>
    f.parent i == i && !(f.entry i).usage.isQuantified && kind.accepts (f.entry i).kind).map
      fun i => (f.entry i).name

def bare : Forest where
  entries := #[]
  parents := #[]
  index := ∅
  members := ∅
  created := 0
  parents_size := rfl
  climbs hp := by simp at hp

def initial : Forest := ((bare.add "true" .boolean .literal).2.add "false" .boolean .literal).2

section Reading

/-- The vocabulary that a forest stands for. -/
def vocabulary (f : Forest) : Vocabulary where
  entries := f.entries
  roots := Array.ofFn fun i : Fin f.size => f.top i
  index := f.index
  created := f.created

@[simp] theorem size_vocabulary (f : Forest) : f.vocabulary.size = f.size := rfl

@[simp] theorem root_vocabulary (f : Forest) (i : Nat) : f.vocabulary.root i = f.top i := by
  by_cases hi : i < f.size
  · simp [Vocabulary.root, vocabulary, hi]
  · have htop : f.top i = i := top_of_parent_eq (parent_of_ge (Nat.le_of_not_lt hi))
    simp [Vocabulary.root, vocabulary, hi, htop]

theorem vocabulary_eq {g : Forest} (he : g.entries = f.entries) (hx : g.index = f.index)
    (hc : g.created = f.created) (ht : ∀ j, g.top j = f.top j) :
    g.vocabulary = f.vocabulary := by
  have hs : g.size = f.size := by rw [size, he, size]
  simp only [vocabulary, Vocabulary.mk.injEq]
  refine ⟨he, ?_, hx, hc⟩
  apply Array.ext
  · simp [hs]
  · intro i _ _
    simp [ht]

theorem vocabulary_find (f : Forest) (i : Nat) : (f.find i).2.vocabulary = f.vocabulary := by
  obtain ⟨he, hx, -, hc, ht⟩ := compress_keeps (f := f) (i := i) rfl
  exact vocabulary_eq he hx hc ht

theorem parent_push (f : Forest) (e : Entry) (j : Nat) : (f.push e).parent j = f.parent j := by
  have hs := f.parents_size
  simp only [parent, push, Array.getElem?_push]
  split
  · rename_i hj
    rw [Array.getElem?_eq_none (by omega), hj, hs]
    rfl
  · rfl

theorem top_push (f : Forest) (e : Entry) (j : Nat) : (f.push e).top j = f.top j :=
  top_congr (f.parent_push e) j

theorem top_of_ge (h : f.size ≤ i) : f.top i = i := top_of_parent_eq (parent_of_ge h)

theorem vocabulary_push (f : Forest) (e : Entry) :
    (f.push e).vocabulary =
      { f.vocabulary with
        entries := f.vocabulary.entries.push e
        roots := f.vocabulary.roots.push f.size
        index := f.vocabulary.index.insert e.name f.size } := by
  have hs : (f.push e).size = f.size + 1 := by simp [size, push]
  simp only [vocabulary, Vocabulary.mk.injEq]
  refine ⟨rfl, ?_, rfl, rfl⟩
  apply Array.ext
  · simp [hs]
  · intro i hi _
    rw [Array.size_ofFn, hs] at hi
    rw [Array.getElem_push]
    split
    · simp [top_push]
    · rename_i hge
      rw [Array.size_ofFn] at hge
      have : i = f.size := by omega
      subst this
      simp [top_push, top_of_ge]

theorem add_vocabulary (f : Forest) (name : Text) (kind : Kind) (usage : Usage) :
    Prod.map id vocabulary (f.add name kind usage) = f.vocabulary.add name kind usage := by
  have hl : f.vocabulary.lookup? name = f.index[name]? := rfl
  simp only [add, Vocabulary.add, hl]
  cases f.index[name]? with
  | some i => rfl
  | none => exact Prod.ext rfl (vocabulary_push f _)

theorem freeNumber_vocabulary (f : Forest) (fuel n : Nat) :
    f.freeNumber fuel n = f.vocabulary.freeNumber fuel n := by
  induction fuel generalizing n with
  | zero => rfl
  | succ fuel ih =>
    simp only [freeNumber, Vocabulary.freeNumber, ih]
    rfl

theorem vocabulary_setCreated (f : Forest) (n : Nat) :
    vocabulary { f with created := n } = { f.vocabulary with created := n } := by
  have ht : ∀ j, top { f with created := n } j = f.top j := top_congr fun _ => rfl
  simp only [vocabulary, ht]
  rfl

theorem make_vocabulary (f : Forest) (kind : Kind) :
    (f.make kind).2.vocabulary = (f.vocabulary.create kind).2 ∧
      (f.make kind).1 = Vocabulary.createdName
        (f.vocabulary.freeNumber f.vocabulary.size f.vocabulary.created) := by
  have hn : f.freeNumber f.size f.created =
      f.vocabulary.freeNumber f.vocabulary.size f.vocabulary.created := freeNumber_vocabulary ..
  rw [Vocabulary.create_eq, make, hn]
  generalize f.vocabulary.freeNumber f.vocabulary.size f.vocabulary.created = n
  refine ⟨?_, rfl⟩
  rw [← vocabulary_setCreated]
  exact congrArg Prod.snd (add_vocabulary { f with created := n + 1 } _ _ _)

theorem top_unite {winner loser : Nat} (hw : winner < f.size) (hl : loser < f.size)
    (hb : Before f.entries winner loser) (htw : f.top winner = winner)
    (htl : f.top loser = loser) (j : Nat) :
    (f.unite winner loser hw hb).top j = if f.top j = loser then winner else f.top j := by
  rw [← top_hang hl hw hb htw (.inl htl) j]
  exact top_congr (f := f.hang loser winner hw hb) (g := f.unite winner loser hw hb)
    (fun _ => rfl) j

theorem vocabulary_unite {winner loser : Nat} (hw : winner < f.size) (hl : loser < f.size)
    (hb : Before f.entries winner loser) (htw : f.top winner = winner)
    (htl : f.top loser = loser) :
    (f.unite winner loser hw hb).vocabulary =
      { f.vocabulary with
        roots := f.vocabulary.roots.map fun r => if r == loser then winner else r } := by
  simp only [vocabulary, Vocabulary.mk.injEq]
  refine ⟨rfl, ?_, rfl, rfl⟩
  apply Array.ext
  · simp [size, unite, hang]
  · intro i _ _
    simp [top_unite hw hl hb htw htl]

/-- Linking two roots merges their classes. -/
theorem link_vocabulary {a b : Nat} (ha : a < f.size) (hb : b < f.size) (hta : f.top a = a)
    (htb : f.top b = b) :
    Prod.map id vocabulary (f.link a b ha hb) = f.vocabulary.merge a b := by
  have hp : f.vocabulary.prefers b a = f.prefers b a := rfl
  simp only [link, Vocabulary.merge, root_vocabulary, hta, htb, beq_iff_eq, hp]
  by_cases he : a = b
  · simp [he]
  · by_cases hba : f.prefers b a = true
    · simp [he, hba, vocabulary_unite hb ha _ htb hta]
    · simp [he, hba, vocabulary_unite ha hb _ hta htb]

theorem merge_roots (v : Vocabulary) (a b : Nat) (ha : v.root (v.root a) = v.root a)
    (hb : v.root (v.root b) = v.root b) : v.merge (v.root a) (v.root b) = v.merge a b := by
  simp only [Vocabulary.merge, ha, hb]

theorem merge_vocabulary {a b : Nat} (ha : a < f.size) (hb : b < f.size) :
    Prod.map id vocabulary (f.merge a b ha hb) = f.vocabulary.merge a b := by
  rw [merge, link_vocabulary, vocabulary_find, vocabulary_find, find_fst, find_fst, top_find]
  · rw [← root_vocabulary, ← root_vocabulary, merge_roots] <;> simp [top_top]
  · rw [find_fst, top_find, top_find, top_top]
  · rw [find_fst, top_find, top_find, top_find, top_top]

end Reading

section Members

/-- The filed members are the classes: one list for each root, every member in it once. -/
structure Gathered (f : Forest) : Prop where
  mem_iff : ∀ {r : Nat} {l : List Nat}, f.members[r]? = some l →
    ∀ i, i ∈ l ↔ i < f.size ∧ f.top i = r
  nodup : ∀ {r : Nat} {l : List Nat}, f.members[r]? = some l → l.Nodup
  key_iff : ∀ {r : Nat}, (∃ l, f.members[r]? = some l) ↔ r < f.size ∧ f.top r = r

theorem Gathered.of_eq {g : Forest} (h : f.Gathered) (hs : g.size = f.size)
    (hm : g.members = f.members) (ht : ∀ j, g.top j = f.top j) : g.Gathered where
  mem_iff hl i := by
    rw [hs, ht]
    exact h.mem_iff (hm ▸ hl) i
  nodup hl := h.nodup (hm ▸ hl)
  key_iff := by
    intro r
    rw [hs, ht, hm]
    exact h.key_iff

theorem Gathered.find (h : f.Gathered) (i : Nat) : (f.find i).2.Gathered := by
  obtain ⟨-, -, hm, -, ht⟩ := compress_keeps (f := f) (i := i) rfl
  exact h.of_eq (f.size_find i) hm ht

theorem Gathered.setCreated (h : f.Gathered) (n : Nat) :
    Gathered { f with created := n } :=
  h.of_eq rfl rfl (top_congr fun _ => rfl)

theorem Gathered.push (h : f.Gathered) (e : Entry) : (f.push e).Gathered := by
  have hs : (f.push e).size = f.size + 1 := by simp [size, Forest.push]
  have hget : ∀ r, (f.push e).members[r]? = if f.size = r then some [f.size] else f.members[r]? :=
    fun r => getElem?_insert ..
  have hnew : f.top f.size = f.size := top_of_ge (Nat.le_refl _)
  refine ⟨?_, ?_, ?_⟩
  · intro r l hl i
    rw [hget] at hl
    rw [hs, top_push]
    split at hl
    · rename_i hr
      cases hl
      subst hr
      rw [List.mem_singleton]
      refine ⟨by rintro rfl; exact ⟨Nat.lt_succ_self _, hnew⟩, ?_⟩
      rintro ⟨hi, ht⟩
      by_contra hne
      have := top_lt (f := f) (i := i) (by omega)
      omega
    · rename_i hr
      rw [h.mem_iff hl]
      refine ⟨by omega, ?_⟩
      rintro ⟨hi, ht⟩
      refine ⟨?_, ht⟩
      by_contra hge
      rw [top_of_ge (Nat.le_of_not_lt hge)] at ht
      omega
  · intro r l hl
    rw [hget] at hl
    split at hl
    · cases hl
      exact List.nodup_singleton _
    · exact h.nodup hl
  · intro r
    rw [hget, hs, top_push]
    split
    · rename_i hr
      subst hr
      simp [hnew]
    · rename_i hr
      rw [h.key_iff]
      refine ⟨by omega, ?_⟩
      rintro ⟨hlt, ht⟩
      exact ⟨by omega, ht⟩

theorem Gathered.add (h : f.Gathered) (name : Text) (kind : Kind) (usage : Usage) :
    (f.add name kind usage).2.Gathered := by
  simp only [Forest.add]
  split
  · exact h
  · exact h.push _

theorem Gathered.make (h : f.Gathered) (kind : Kind) : (f.make kind).2.Gathered :=
  (h.setCreated _).add _ _ _

theorem Gathered.unite {winner loser : Nat} (h : f.Gathered) (hw : winner < f.size)
    (hl : loser < f.size) (hb : Before f.entries winner loser) (htw : f.top winner = winner)
    (htl : f.top loser = loser) : (f.unite winner loser hw hb).Gathered := by
  have hne : loser ≠ winner := by
    rintro rfl
    exact not_before_self _ _ hb
  obtain ⟨lw, hlw⟩ := h.key_iff.mpr ⟨hw, htw⟩
  obtain ⟨ll, hll⟩ := h.key_iff.mpr ⟨hl, htl⟩
  have hget : ∀ r, (f.unite winner loser hw hb).members[r]? =
      if loser = r then none else if winner = r then some (lw ++ ll) else f.members[r]? := by
    intro r
    simp only [Forest.unite, getElem?_erase, getElem?_insert, hlw, hll, Option.getD_some]
  have htop := top_unite hw hl hb htw htl
  have hs : (f.unite winner loser hw hb).size = f.size := rfl
  refine ⟨?_, ?_, ?_⟩
  · intro r l hr i
    rw [hget] at hr
    rw [htop, hs]
    split at hr
    · cases hr
    · rename_i hrl
      split at hr
      · rename_i hrw
        cases hr
        rw [List.mem_append, h.mem_iff hlw, h.mem_iff hll, ← hrw]
        split <;> simp_all
      · rename_i hrw
        rw [h.mem_iff hr]
        split <;> simp_all
  · intro r l hr
    rw [hget] at hr
    split at hr
    · cases hr
    · split at hr
      · cases hr
        refine List.nodup_append'.mpr ⟨h.nodup hlw, h.nodup hll, ?_⟩
        intro i hi hi'
        rw [h.mem_iff hlw] at hi
        rw [h.mem_iff hll] at hi'
        exact hne (hi'.2.symm.trans hi.2)
      · exact h.nodup hr
  · intro r
    rw [hget, htop, hs]
    split
    · rename_i hr
      subst hr
      simp [htl, Ne.symm hne]
    · rename_i hrl
      split
      · rename_i hrw
        subst hrw
        simp [htw, hw, Ne.symm hne]
      · rename_i hrw
        rw [h.key_iff]
        split
        · rename_i ht
          simp [ht, hrl, hrw]
        · rfl

theorem Gathered.link {a b : Nat} (h : f.Gathered) (ha : a < f.size) (hb : b < f.size)
    (hta : f.top a = a) (htb : f.top b = b) : (f.link a b ha hb).2.Gathered := by
  simp only [Forest.link]
  split
  · exact h
  · split
    · exact h.unite hb ha _ htb hta
    · exact h.unite ha hb _ hta htb

theorem Gathered.merge {a b : Nat} (h : f.Gathered) (ha : a < f.size) (hb : b < f.size) :
    (f.merge a b ha hb).2.Gathered := by
  refine ((h.find a).find b).link _ _ ?_ ?_
  · rw [find_fst, top_find, top_find, top_top]
  · rw [find_fst, top_find, top_find, top_find, top_top]

theorem Gathered.sorted (h : f.Gathered) {r : Nat} (hr : r < f.size) (ht : f.top r = r) :
    (f.members[r]?.getD []).mergeSort (· ≤ ·) = f.vocabulary.members r := by
  obtain ⟨l, hl⟩ := h.key_iff.mpr ⟨hr, ht⟩
  rw [hl, Option.getD_some]
  have hperm : (l.mergeSort (· ≤ ·)).Perm (f.vocabulary.members r) := by
    refine (List.mergeSort_perm ..).trans ?_
    refine (List.perm_ext_iff_of_nodup (h.nodup hl) (List.nodup_range.filter _)).mpr ?_
    intro i
    simp [h.mem_iff hl]
  refine hperm.eq_of_sortedLE List.sortedLE_mergeSort ?_
  exact (List.pairwise_lt_range.filter _).imp Nat.le_of_lt |>.sortedLE

theorem Gathered.children (h : f.Gathered) (hi : i < f.size) :
    (f.children i).1 = f.vocabulary.others i ∧ (f.children i).2.vocabulary = f.vocabulary := by
  obtain ⟨he, -, hm, -, -⟩ := compress_keeps (f := f) (i := i) rfl
  have hsort := h.sorted (top_lt hi) (f.top_top i)
  have hentry : (f.find i).2.entry = f.vocabulary.entry := funext fun j => by
    rw [entry, Forest.find, he]
    rfl
  refine ⟨?_, vocabulary_find f i⟩
  simp only [Forest.children, hentry, Vocabulary.others, root_vocabulary, find_fst]
  rw [← hsort, Forest.find, hm]
  rfl

end Members

theorem rootsOfKind_vocabulary (f : Forest) (kind : Kind) :
    f.rootsOfKind kind = f.vocabulary.rootsOfKind kind := by
  have hparent : ∀ i, (f.parent i == i) = (f.vocabulary.root i == i) := fun i => by
    rw [root_vocabulary, Bool.eq_iff_iff, beq_iff_eq, beq_iff_eq, parent_eq_iff]
  simp only [rootsOfKind, Vocabulary.rootsOfKind, hparent]
  rfl

theorem vocabulary_initial : initial.vocabulary = Vocabulary.initial := by
  have hbare : bare.vocabulary = ⟨#[], #[], ∅, 0⟩ := rfl
  have h₁ := congrArg Prod.snd (add_vocabulary bare "true" .boolean .literal)
  have h₂ := congrArg Prod.snd
    (add_vocabulary (bare.add "true" .boolean .literal).2 "false" .boolean .literal)
  simp only [Prod.map_snd] at h₁ h₂
  rw [initial, h₂, h₁, hbare]
  rfl

theorem gathered_initial : initial.Gathered := by
  have hbare : bare.Gathered := by
    constructor <;> simp [bare, size]
  exact (hbare.add _ _ _).add _ _ _

end Forest

end Discharge.Congruence
