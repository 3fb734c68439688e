import Discharge.Proofs.Search.Offers

namespace Discharge.Search

open Congruence

structure Dealing where
  obligation : Obligation
  offers : Offers := {}
  consumed : List Offer := []
  returned : List Candidate := []

namespace Dealing

inductive Move where
  | search (reach : Reach)
  | next
  | tell (i : Model.Input)

/-- The offers that were taken when those of the second are left. -/
def takenFrom (o o' : Offers) : List Offer := o.pending.take (o.pending.length - o'.pending.length)

def step (r : Rule) (d : Dealing) : Move → Dealing
  | .search reach =>
    { d with offers := (r.offer d.obligation reach d.offers).2, returned := [] }
  | .next =>
    let drawn := r.next d.obligation.model d.offers
    { d with
      offers := drawn.2
      consumed := d.consumed ++ takenFrom d.offers drawn.2
      returned := d.returned ++ drawn.1.toList }
  | .tell i =>
    { d with obligation := { d.obligation with model := d.obligation.model.feed i } }

def run (r : Rule) (d : Dealing) (moves : List Move) : Dealing := moves.foldl (step r) d

end Dealing

namespace Rule

variable {r : Rule} {m : Model} {ob : Obligation} {o : Offers}

theorem exists_first_draw (m : Model) (pending : List Offer) (taken : List Text) :
    ∃ first, pending = first ++ (r.draw m pending taken).2.1 ∧
      (r.draw m pending taken).2.2 = (first.map Offer.key).reverse ++ taken ∧
      ((r.draw m pending taken).1.toList.map Candidate.score).Sublist (first.map Offer.score) := by
  induction pending generalizing taken with
  | nil => exact ⟨[], by simp [draw]⟩
  | cons f rest ih =>
    unfold draw
    dsimp only
    split
    · obtain ⟨first, hpending, htaken, hscore⟩ := ih (f.key :: taken)
      refine ⟨f :: first, congrArg (f :: ·) hpending, ?_, hscore.cons f.score⟩
      rw [htaken, List.map_cons, List.reverse_cons, List.append_assoc]
      rfl
    · exact ⟨[f], rfl, rfl, List.Sublist.refl _⟩

/-- What consuming the next candidate does to the offers of a rule with variables. -/
theorem takenFrom_next (hground : r.isGround = false) (m : Model) (o : Offers) :
    o.pending = Dealing.takenFrom o (r.next m o).2 ++ (r.next m o).2.pending ∧
      (r.next m o).2.taken =
        ((Dealing.takenFrom o (r.next m o).2).map Offer.key).reverse ++ o.taken ∧
      ((r.next m o).1.toList.map Candidate.score).Sublist
        ((Dealing.takenFrom o (r.next m o).2).map Offer.score) := by
  unfold next
  rw [if_neg (by simp [hground])]
  obtain ⟨first, hpending, htaken, hscore⟩ := r.exists_first_draw m o.pending o.taken
  have hfirst : o.pending.take (o.pending.length - (r.draw m o.pending o.taken).2.1.length) =
      first := by
    have hlen := congrArg List.length hpending
    rw [List.length_append] at hlen
    rw [hlen, Nat.add_sub_cancel]
    conv_lhs => rw [hpending]
    rw [List.take_left']
    rfl
  dsimp only [Dealing.takenFrom]
  rw [hfirst]
  exact ⟨hpending, htaken, hscore⟩

structure Labels (r : Rule) (m : Model) (f : Offer) : Prop where
  key_eq : f.key = r.keyOf f.binding
  within : f.binding.Within m

theorem Labels.of_extends {n : Model} {f : Offer} (h : r.Labels m f) (hext : m.Extends n) :
    r.Labels n f := ⟨h.key_eq, h.within.of_extends hext⟩

theorem pending_offer (hm : ob.model.Closed) (hground : r.isGround = false) (reach : Reach)
    (o : Offers) :
    ((r.offer ob reach o).2.pending.map Offer.key).Nodup ∧
      ((r.offer ob reach o).2.pending.map Offer.score).Pairwise (· ≤ ·) ∧
      ∀ f ∈ (r.offer ob reach o).2.pending, f.key ∉ o.taken ∧ r.Labels ob.model f := by
  unfold offer
  rw [if_neg (by simp [hground])]
  dsimp only
  refine ⟨?_, ?_, ?_⟩
  · rw [((List.mergeSort_perm _ _).map Offer.key).nodup_iff, List.Nodup, List.pairwise_map]
    exact (firstOfKey_spec _).1
  · rw [List.pairwise_map]
    have htrans : ∀ f g h : Offer, decide (f.score ≤ g.score) = true →
        decide (g.score ≤ h.score) = true → decide (f.score ≤ h.score) = true :=
      fun f g h hfg hgh =>
        decide_eq_true (Nat.le_trans (of_decide_eq_true hfg) (of_decide_eq_true hgh))
    have htotal : ∀ f g : Offer,
        (decide (f.score ≤ g.score) || decide (g.score ≤ f.score)) = true :=
      fun f g => by simpa using Nat.le_total f.score g.score
    exact (List.pairwise_mergeSort htrans htotal _).imp fun h => of_decide_eq_true h
  · intro f hf
    obtain ⟨hfound, hfresh⟩ := List.mem_filter.mp
      (mem_of_mem_firstOfKey (List.mem_mergeSort.mp hf))
    obtain ⟨b, hb, rfl⟩ := List.mem_map.mp hfound
    have hvalued := valued_of_mem_search hm (List.mem_filter.mp hb).1
    exact ⟨by simpa using hfresh, bindingKey_eq hm hvalued, hvalued.within⟩

end Rule

namespace Dealing

variable {r : Rule} {d : Dealing}

structure Fair (r : Rule) (d : Dealing) : Prop where
  closed : d.obligation.model.Closed
  taken : ∀ key, key ∈ d.offers.taken ↔ key ∈ d.consumed.map Offer.key
  keys : ((d.consumed ++ d.offers.pending).map Offer.key).Nodup
  scores : (d.returned.map Candidate.score ++ d.offers.pending.map Offer.score).Pairwise (· ≤ ·)
  labels : ∀ f ∈ d.consumed ++ d.offers.pending, r.Labels d.obligation.model f

theorem Fair.search (h : d.Fair r) (hground : r.isGround = false) (reach : Reach) :
    (d.step r (.search reach)).Fair r := by
  obtain ⟨hkeys, hscores, hfresh⟩ := Rule.pending_offer h.closed hground reach d.offers
  obtain ⟨hconsumed, -⟩ := List.forall_mem_append.mp h.labels
  refine ⟨h.closed, ?_, ?_, hscores, ?_⟩
  · change ∀ key, key ∈ (r.offer d.obligation reach d.offers).2.taken ↔ _
    rw [(r.offer_frame d.obligation reach d.offers).1]
    exact h.taken
  · have hold := h.keys
    rw [List.map_append] at hold ⊢
    refine List.nodup_append'.mpr ⟨(List.nodup_append'.mp hold).1, hkeys, ?_⟩
    intro key hkey hmem
    obtain ⟨f, hf, rfl⟩ := List.mem_map.mp hmem
    exact (hfresh f hf).1 ((h.taken f.key).mpr hkey)
  · exact List.forall_mem_append.mpr ⟨hconsumed, fun f hf => (hfresh f hf).2⟩

theorem Fair.next (h : d.Fair r) (hground : r.isGround = false) : (d.step r .next).Fair r := by
  obtain ⟨hpending, htaken, hscore⟩ :=
    Rule.takenFrom_next hground d.obligation.model d.offers
  unfold step
  dsimp only
  generalize r.next d.obligation.model d.offers = drawn at hpending htaken hscore ⊢
  have hall : d.consumed ++ takenFrom d.offers drawn.2 ++ drawn.2.pending =
      d.consumed ++ d.offers.pending := by
    rw [List.append_assoc, ← hpending]
  refine ⟨h.closed, ?_, ?_, ?_, ?_⟩
  · intro key
    dsimp only
    rw [htaken, List.mem_append, List.mem_reverse, h.taken, List.map_append, List.mem_append,
      or_comm]
  · dsimp only
    rw [hall]
    exact h.keys
  · -- What is returned stands among what is consumed.
    have hsub := (hscore.append_right (drawn.2.pending.map Offer.score)).append_left
      (d.returned.map Candidate.score)
    rw [← List.map_append, ← hpending, ← List.append_assoc, ← List.map_append] at hsub
    exact h.scores.sublist hsub
  · dsimp only
    rw [hall]
    exact h.labels

theorem Fair.tell (h : d.Fair r) (i : Model.Input) : (d.step r (.tell i)).Fair r := by
  obtain ⟨hclosed, hext⟩ := Model.closed_feed h.closed i
  exact ⟨hclosed, h.taken, h.keys, h.scores, fun f hf => (h.labels f hf).of_extends hext⟩

theorem Fair.run (h : d.Fair r) (hground : r.isGround = false) (moves : List Move) :
    (d.run r moves).Fair r := by
  induction moves generalizing d with
  | nil => exact h
  | cons move rest ih =>
    refine ih ?_
    cases move with
    | search reach => exact h.search hground reach
    | next => exact h.next hground
    | tell i => exact h.tell i

theorem fair_start {ob : Obligation} (h : ob.model.Closed) : (Dealing.mk ob {} [] []).Fair r :=
  ⟨h, by simp, by simp, by simp, by simp⟩

end Dealing

namespace Rule

variable {r : Rule} {m : Model} {b b' : Binding}

def quantified (r : Rule) : List Text := r.pattern.namesWhere Usage.isQuantified

/-- Whether two bindings leave the same of these variables unbound and bind the others to the same
classes. -/
def Agree (r : Rule) (m : Model) (b b' : Binding) (names : List Text) : Prop :=
  ∀ name ∈ names, (r.valueOf b name = "" ↔ r.valueOf b' name = "") ∧
    m.vocabulary.rootOf? (r.valueOf b name) = m.vocabulary.rootOf? (r.valueOf b' name)

/-- Whether the variables of the theorem and of the inserted term are quantified in the pattern. One
that shares its name with a constant of the pattern is not. -/
def Distinguishes (r : Rule) : Prop :=
  ∀ v ∈ r.entire.vars ++ r.insertVariables, v.name ∈ r.quantified

instance (r : Rule) : Decidable r.Distinguishes := inferInstanceAs (Decidable (∀ _ ∈ _, _))

theorem not_mem_valueOf (hb : b.Within m) {byte : UInt8}
    (hm : m.vocabulary.All fun e => byte ∉ e.name.toList) (name : Text) :
    byte ∉ (r.valueOf b name).toList := by
  by_cases he : r.valueOf b name = ""
  · rw [he]
    exact fun hmem => nomatch hmem
  · obtain ⟨other, hget⟩ := exists_get_of_valueOf he
    rw [hget]
    exact hb.not_mem_get hm other

theorem agree_of_keyOf_eq (hm : m.vocabulary.All fun e => (59 : UInt8) ∉ e.name.toList)
    (hb : b.Within m) (hb' : b'.Within m) (h : r.keyOf b = r.keyOf b') :
    r.Agree m b b' r.quantified := by
  intro name hname
  rw [eq_of_join_eq _ (not_mem_valueOf hb hm) (not_mem_valueOf hb' hm) h name hname]
  exact ⟨Iff.rfl, rfl⟩

end Rule

namespace Dealing

variable {r : Rule} {d : Dealing}

/-- A binding that a search finds agrees with one that is then pending or was consumed. -/
theorem Fair.exists_agree (h : d.Fair r) (hground : r.isGround = false)
    (hm : d.obligation.model.vocabulary.All fun e => (59 : UInt8) ∉ e.name.toList) {reach : Reach}
    {b : Binding} (hb : b ∈ r.search d.obligation reach) (hbind : r.bindsInsert b = true) :
    ∃ f ∈ (d.step r (.search reach)).offers.pending ++ d.consumed,
      r.Agree d.obligation.model b f.binding r.quantified := by
  have hfair := h.search hground reach
  have hwithin := (Rule.valued_of_mem_search h.closed hb).within
  obtain ⟨f, hf, hkey⟩ : ∃ f ∈ (d.step r (.search reach)).offers.pending ++ d.consumed,
      f.key = r.keyOf b := by
    rcases Rule.covers_offer h.closed hground d.offers hb hbind with htaken | ⟨f, hf, hkey⟩
    · obtain ⟨f, hf, hkey⟩ := List.mem_map.mp ((hfair.taken _).mp htaken)
      exact ⟨f, List.mem_append_right _ hf, hkey⟩
    · exact ⟨f, List.mem_append_left _ hf, hkey⟩
  have hlabels := hfair.labels f (List.mem_append.mpr (List.mem_append.mp hf).symm)
  exact ⟨f, hf, Rule.agree_of_keyOf_eq hm hwithin hlabels.within
    (hkey.symm.trans hlabels.key_eq)⟩

/-- Whatever a rule with variables is asked and the model is told, no key is consumed twice, the
candidates since the last search have scores that do not fall, and a binding that a search finds
agrees, on the quantified variables of the pattern, with one that is then pending or was consumed;
so it does on all quantified variables, if none shares its name with a constant of the pattern. -/
theorem dealt_once (r : Rule) (hground : r.isGround = false) (c : Condition)
    (inputs : List Model.Input) (goals : List (List Text)) (moves : List Move) :
    let d := run r ⟨⟨c, Model.ofInputs inputs, goals⟩, {}, [], []⟩ moves
    (d.consumed.map Offer.key).Nodup ∧
    (d.returned.map Candidate.score).Pairwise (· ≤ ·) ∧
    ((d.obligation.model.vocabulary.All fun e => (59 : UInt8) ∉ e.name.toList) →
      ∀ reach, ∀ b ∈ r.search d.obligation reach, r.bindsInsert b = true →
        ∃ f ∈ (d.step r (.search reach)).offers.pending ++ d.consumed,
          r.Agree d.obligation.model b f.binding r.quantified ∧
          (r.Distinguishes → r.Agree d.obligation.model b f.binding
            ((r.entire.vars ++ r.insertVariables).map Symbol.name))) := by
  intro d
  have hstart : (Dealing.mk ⟨c, Model.ofInputs inputs, goals⟩ {} [] []).Fair r :=
    fair_start (Model.closed_ofInputs inputs)
  have hfair : d.Fair r := hstart.run hground moves
  refine ⟨?_, ?_, ?_⟩
  · have hkeys := hfair.keys
    rw [List.map_append] at hkeys
    exact (List.nodup_append'.mp hkeys).1
  · exact (List.pairwise_append.mp hfair.scores).1
  · intro hm reach b hb hbind
    obtain ⟨f, hf, hagree⟩ := hfair.exists_agree hground hm hb hbind
    refine ⟨f, hf, hagree, ?_⟩
    intro hdist name hname
    obtain ⟨v, hv, rfl⟩ := List.mem_map.mp hname
    exact hagree v.name (hdist v hv)

def forwardRule : Rule :=
  let premise := Term.call "p" .boolean [.universal "x" .integer]
  let conclusion := Term.call "q" .boolean [.universal "x" .integer]
  (Draft.mk "T" (.implication premise conclusion) premise conclusion conclusion true false
    false).rule

/-- The rule is asked twice, and in between another fact is told. -/
theorem dealt_forwardRule :
    let fact (name : Text) : Term := .call "p" .boolean [.symbol ⟨name, .integer, .free⟩]
    let moves : List Move := [.search .all, .next, .tell (.assume (fact "b"))]
    let d := run forwardRule ⟨⟨default, Model.ofInputs [.assume (fact "a")], []⟩, {}, [], []⟩ moves
    forwardRule.isGround = false ∧
    (d.obligation.model.vocabulary.All fun e => (59 : UInt8) ∉ e.name.toList) ∧
    forwardRule.Distinguishes ∧
    (∃ b ∈ forwardRule.search d.obligation .all, forwardRule.bindsInsert b = true ∧
      forwardRule.valueOf b "x" = "b") ∧
    (d.consumed.map Offer.key).Nodup ∧
    (d.returned.map Candidate.score).Pairwise (· ≤ ·) ∧
    ∀ reach, ∀ b ∈ forwardRule.search d.obligation reach, forwardRule.bindsInsert b = true →
      ∃ f ∈ (d.step forwardRule (.search reach)).offers.pending ++ d.consumed,
        forwardRule.Agree d.obligation.model b f.binding ["x"] := by
  intro fact moves d
  have hground : forwardRule.isGround = false := by decide +kernel
  have hsemicolons : d.obligation.model.vocabulary.All fun e => (59 : UInt8) ∉ e.name.toList := by
    rw [Vocabulary.All]
    decide +kernel
  have hdist : forwardRule.Distinguishes := by decide +kernel
  have hfound : ∃ b ∈ forwardRule.search d.obligation .all, forwardRule.bindsInsert b = true ∧
      forwardRule.valueOf b "x" = "b" := by decide +kernel
  obtain ⟨hkeys, hscores, hfair⟩ :=
    dealt_once forwardRule hground default [.assume (fact "a")] [] moves
  refine ⟨hground, hsemicolons, hdist, hfound, hkeys, hscores, ?_⟩
  intro reach b hb hbind
  obtain ⟨f, hf, -, hagree⟩ := hfair hsemicolons reach b hb hbind
  have hnames : (forwardRule.entire.vars ++ forwardRule.insertVariables).map Symbol.name =
      ["x", "x"] := by decide +kernel
  refine ⟨f, hf, fun name hname => hagree hdist name ?_⟩
  rw [hnames, List.mem_singleton.mp hname]
  exact List.mem_cons_self

theorem agree_lost :
    let x := Term.universal "x" .integer
    let goal := Term.symbol ⟨goalName, .boolean, .free⟩
    let premise := Term.call "p" .boolean [x]
    let conclusion := Term.call "q" .boolean [x, goal]
    let r := goalRule "T_goalSearch" (.implication premise conclusion) premise conclusion false
    let known := Term.call "q" .boolean [.symbol ⟨"a", .integer, .free⟩, goal]
    let goals := Term.conj (.symbol ⟨"g1", .boolean, .free⟩) (.symbol ⟨"g2", .boolean, .free⟩)
    let ob := Obligation.new {} { id := 1, sequent := ⟨[.equal known goal], [goals]⟩ }
    ¬ r.Distinguishes ∧ ∃ b ∈ r.search ob false, ∃ b' ∈ r.search ob false,
      r.bindsInsert b = true ∧ r.bindsInsert b' = true ∧
      r.bindingKey ob.model.vocabulary b = r.bindingKey ob.model.vocabulary b' ∧
      ob.model.vocabulary.rootOf? (r.valueOf b goalName) ≠
        ob.model.vocabulary.rootOf? (r.valueOf b' goalName) := by
  decide +kernel

end Dealing

end Discharge.Search
