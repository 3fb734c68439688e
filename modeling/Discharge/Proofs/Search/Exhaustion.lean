import Discharge.Proofs.Search.Offers
import Discharge.Proofs.Search.Soundness

/-!
A search that ends by itself has left nothing undone. In its last round every rule that was still in
play was tried and inserted nothing new, so that the model only became wider: what a rule finds in
the model at the end it found when it was tried last, and the instance was told to the model then or
before.
-/

namespace Discharge.Search

open Congruence

structure Asserted (start ob : Obligation) (t : Term) : Prop where
  told : ob.model.Told t
  among : ∃ ts : List Term, t ∈ ts ∧ ob = ts.foldl (fun ob t => (ob.assume t).2) start

section Asserting

variable {rules : Array Rule} {start ob : Obligation}

/-- A search does nothing but assume terms. -/
theorem Derives.exists_terms (h : Derives rules start ob) :
    ∃ ts : List Term, ob = ts.foldl (fun ob t => (ob.assume t).2) start := by
  induction h with
  | refl => exact ⟨[], rfl⟩
  | @ground _ _ r _ _ _ ih =>
    obtain ⟨ts, rfl⟩ := ih
    exact ⟨ts ++ [r.insert], by rw [List.foldl_append]; rfl⟩
  | @apply _ _ mid r b _ _ _ _ _ _ ih ih' =>
    obtain ⟨ts, rfl⟩ := ih
    obtain ⟨ts', hmid⟩ := ih'
    refine ⟨ts ++ ts' ++ [r.instantiate mid.model b], ?_⟩
    rw [List.foldl_append, List.foldl_append, ← hmid]
    rfl

theorem Derives.asserted (h : Derives rules start ob) (hob : ob.model.Orderly) (t : Term) :
    Asserted start (ob.assume t).2 t := by
  obtain ⟨ts, rfl⟩ := h.exists_terms
  exact ⟨.assumed hob (.refl _), ts ++ [t], by simp, by rw [List.foldl_append]; rfl⟩

theorem Asserted.taking {t : Term} (h : Asserted start ob t) (hob : ob.model.Closed)
    (c : Option Candidate) : Asserted start (ob.taking c) t := by
  refine ⟨h.told.of_extends (Obligation.extends_taking hob c), ?_⟩
  obtain ⟨ts, hmem, rfl⟩ := h.among
  cases c with
  | none => exact ⟨ts, hmem, rfl⟩
  | some c => exact ⟨ts ++ [c.term], List.mem_append_left _ hmem, by rw [List.foldl_append]; rfl⟩

theorem Asserted.of_derives {ob' : Obligation} {t : Term} (h : Asserted start ob t)
    (hd : Derives rules ob ob') (hext : ob.model.Extends ob'.model) : Asserted start ob' t := by
  refine ⟨h.told.of_extends hext, ?_⟩
  obtain ⟨ts, hmem, rfl⟩ := h.among
  obtain ⟨ts', rfl⟩ := hd.exists_terms
  exact ⟨ts ++ ts', List.mem_append_left _ hmem, by rw [List.foldl_append]⟩

end Asserting

/-- Whether a rule has nothing left to insert into an obligation: it has had its use if it has no
variables, and every instance that it finds was told to the model. -/
structure Rule.Settled (r : Rule) (start ob : Obligation) : Prop where
  asserted : r.isGround = true → Asserted start ob r.insert
  told : r.isGround = false → r.searchesByKind = false → r.Keyed → ∀ b ∈ r.findMatches ob,
    r.bindsInsert b = true → ob.model.Told (r.inserted b)

theorem Rule.Settled.of_widens {rules : Array Rule} {r : Rule} {start ob ob' : Obligation}
    (h : r.Settled start ob) (hd : Derives rules ob ob') (hob : ob.Orderly)
    (hob' : ob'.model.Closed) (hext : ob.model.Extends ob'.model)
    (hw : ob.model.Widens ob'.model) : r.Settled start ob' := by
  refine ⟨?_, ?_⟩
  · intro hground
    exact (h.asserted hground).of_derives hd hext
  · intro hground hkind hkeyed b hb hbind
    rw [Obligation.findMatches_of_widens hob hob' hd.frame.2 hw] at hb
    exact (h.told hground hkind hkeyed b hb hbind).of_extends hext

namespace Attempt

variable {a b : Attempt} {c : Context} {r : Ranked} {p : Progress}
  {start ob ob' found : Obligation}

section Accounting

/-- What a search owes to an obligation: what was taken of the offers of a rule has been told to its
model, and a rule that has had its use was assumed. -/
structure Accounts (a : Attempt) (c : Context) (start ob : Obligation) : Prop where
  derives : Derives c.rules start ob
  spent : ∀ {i : Nat} {r : Rule}, c.rules[i]? = some r → ∀ key ∈ (a.offersOf i).taken,
    r.Spent ob.model key
  asserted : ∀ {i : Nat} {r : Rule}, c.rules[i]? = some r → r.isGround = true →
    i ∉ a.active ∨ (a.offersOf i).used = true → Asserted start ob r.insert
  retired : ∀ {i : Nat} {r : Rule}, c.rules[i]? = some r → i ∉ a.active → r.isGround = true

theorem Accounts.frame (h : a.Accounts c start ob)
    (hoffers : ∀ i, (b.offersOf i).taken = (a.offersOf i).taken ∧
      (b.offersOf i).used = (a.offersOf i).used) (hactive : b.active = a.active) :
    b.Accounts c start ob where
  derives := h.derives
  spent hr key hkey := h.spent hr key ((hoffers _).1 ▸ hkey)
  asserted hr hground hused := h.asserted hr hground (by
    rw [hactive, (hoffers _).2] at hused
    exact hused)
  retired hr hi := h.retired hr (hactive ▸ hi)

theorem accounts_start (c : Context) (ob : Obligation) : (Attempt.start c ob).Accounts c ob ob := by
  have hactive : ∀ {i : Nat} {r : Rule}, c.rules[i]? = some r →
      i ∈ (Attempt.start c ob).active := by
    intro i r hr
    obtain ⟨hlt, -⟩ := Array.getElem?_eq_some_iff.mp hr
    exact List.mem_range.mpr hlt
  have hoffers : ∀ i, (Attempt.start c ob).offersOf i = {} := by
    intro i
    simp [offersOf, Attempt.start]
  refine ⟨.refl ob, ?_, ?_, ?_⟩
  · intro i r _ key hkey
    simp [hoffers] at hkey
  · intro i r hr _ hused
    simp [hoffers, hactive hr] at hused
  · intro i r hr hi
    exact (hi (hactive hr)).elim

theorem accounts_retire (hr : c.rules[r.position]? = some r.rule) (h : a.Accounts c start ob)
    (hused : r.rule.isGround = true → (a.offersOf r.position).used = true) :
    (a.retire r).Accounts c start ob := by
  unfold retire
  split
  · rename_i hground
    have hactive : ∀ {i : Nat}, i ∉ a.active.filter (· != r.position) →
        i ∉ a.active ∨ i = r.position := by
      intro i hi
      by_cases hmem : i ∈ a.active
      · right
        by_contra hne
        exact hi (List.mem_filter.mpr ⟨hmem, by simpa using hne⟩)
      · exact .inl hmem
    refine ⟨h.derives, h.spent, ?_, ?_⟩
    · intro i r' hr' hground' hcase
      refine h.asserted hr' hground' ?_
      rcases hcase with hi | hu
      · rcases hactive hi with hi | rfl
        · exact .inl hi
        · exact .inr (hused hground)
      · exact .inr hu
    · intro i r' hr' hi
      rcases hactive hi with hi | rfl
      · exact h.retired hr' hi
      · obtain rfl : r.rule = r' := Option.some.inj (hr.symm.trans hr')
        exact hground
  · exact h

theorem accounts_look (c : Context) (h : a.Accounts c start a.obligation) :
    (a.look c).2.Accounts c start (a.look c).2.obligation :=
  h.frame (fun _ => ⟨rfl, rfl⟩) rfl

/-- What going through the offers of a rule comes to. If it was in vain, and not because the search
had to stop, the model only became wider and all that was offered was taken. -/
structure Pursued (a : Attempt) (c : Context) (r : Ranked) (start : Obligation)
    (out : Option (Candidate × Change)) (b : Attempt) : Prop where
  accounts : b.Accounts c start b.obligation
  used : (a.offersOf r.position).used = true → (b.offersOf r.position).used = true
  vain : out = none → b.stopped = false → a.obligation.model.Widens b.obligation.model ∧
    ∀ key, (a.offersOf r.position).Covers key → r.rule.isGround = false →
      key ∈ (b.offersOf r.position).taken

theorem Pursued.earlier {d : Attempt} {out : Option (Candidate × Change)}
    (h : b.Pursued c r start out d) (hoffers : b.offers = a.offers)
    (hw : a.obligation.model.Widens b.obligation.model) : a.Pursued c r start out d := by
  have hsame : b.offersOf r.position = a.offersOf r.position := by
    rw [offersOf, hoffers]
    rfl
  refine ⟨h.accounts, hsame ▸ h.used, ?_⟩
  intro hnone hgo
  obtain ⟨hwidens, hall⟩ := h.vain hnone hgo
  exact ⟨hw.trans hwidens, hsame ▸ hall⟩

theorem Pursued.of_retire {out : Option (Candidate × Change)}
    (h : (a.retire r).Pursued c r start out b) : a.Pursued c r start out b := by
  obtain ⟨active, he⟩ := a.retire_eq r
  rw [he] at h
  exact h.earlier rfl (.refl _)

theorem Pursued.of_draw {out : Option (Candidate × Change)}
    (h : (a.draw r).2.Pursued c r start out b) : a.Pursued c r start out b := by
  refine ⟨h.accounts, ?_, ?_⟩
  · intro hused
    refine h.used ?_
    rw [offersOf_draw_self]
    exact (Rule.used_next _ _).1 hused
  · intro hnone hgo
    obtain ⟨hwidens, hall⟩ := h.vain hnone hgo
    refine ⟨hwidens, ?_⟩
    intro key hcovers
    refine hall key ?_
    rw [offersOf_draw_self]
    exact Rule.covers_next _ hcovers

structure Pursues (a : Attempt) (c : Context) (r : Ranked) (start found : Obligation) : Prop where
  ready : a.Ready c r found
  found : Derives c.rules start found
  sincere : ∀ f ∈ (a.offersOf r.position).pending, r.rule.Sincere f

theorem Pursues.retire (h : a.Pursues c r start found) : (a.retire r).Pursues c r start found :=
  ⟨h.ready.retire, h.found, by rw [offersOf_retire]; exact h.sincere⟩

theorem Pursues.looked {t : Candidate} (h : a.Pursues c r start found)
    (ht : Derives c.rules found (a.obligation.assume t.term).2) :
    (a.looked c t).2.Pursues c r start found :=
  ⟨⟨ht, h.ready.offering⟩, h.found, h.sincere⟩

theorem accounts_looked {t : Candidate} (h : a.Accounts c start (a.obligation.assume t.term).2) :
    (a.looked c t).2.Accounts c start (a.looked c t).2.obligation :=
  h.frame (fun _ => ⟨rfl, rfl⟩) rfl

variable (hrules : ∀ r ∈ c.rules, r.insert.written = true) (hstart : start.Orderly)
include hrules hstart

theorem Accounts.orderly (h : a.Accounts c start ob) : ob.Orderly :=
  (h.derives.orderly hrules hstart).1

theorem pursues_offered (h : a.Accounts c start a.obligation) :
    (a.offered c r).Pursues c r start a.obligation ∧
      (a.offered c r).Accounts c start a.obligation := by
  have hob := (h.orderly hrules hstart).model
  refine ⟨⟨ready_offered c a r, h.derives, ?_⟩, h.frame ?_ rfl⟩
  · rw [offersOf_offered_self]
    exact Rule.sincere_offer hob _ _
  · intro i
    rw [offersOf_offered]
    split
    · rename_i hi
      rw [← hi]
      exact Rule.offer_frame _ _ _ _
    · exact ⟨rfl, rfl⟩

variable (hr : c.rules[r.position]? = some r.rule)
include hr

theorem pursues_draw (h : a.Pursues c r start found) (hacc : a.Accounts c start a.obligation) :
    (a.draw r).2.Pursues c r start found ∧
      (a.draw r).2.Accounts c start (a.obligation.taking (a.draw r).1) := by
  have hob := (hacc.orderly hrules hstart).model
  obtain ⟨hready, hcand⟩ := ready_draw (Array.mem_of_getElem? hr) h.ready
  obtain ⟨hspent, hsub⟩ := Rule.spent_next hob h.sincere (hacc.spent hr)
  have hext := Obligation.extends_taking hob.closed (a.draw r).1
  refine ⟨⟨hready, h.found, ?_⟩, ?_, ?_, ?_, hacc.retired⟩
  · rw [offersOf_draw_self]
    exact fun f hf => h.sincere f (hsub hf)
  · cases hc : (a.draw r).1 with
    | none => exact hacc.derives
    | some t => exact h.found.trans (hcand t hc)
  · intro i r' hr' key hkey
    rw [offersOf_draw] at hkey
    split at hkey
    · rename_i hi
      subst hi
      obtain rfl : r.rule = r' := Option.some.inj (hr.symm.trans hr')
      exact hspent key hkey
    · exact (hacc.spent hr' key hkey).of_extends hext
  · intro i r' hr' hground hused
    rw [offersOf_draw] at hused
    by_cases hi : r.position = i
    · subst hi
      obtain rfl : r.rule = r' := Option.some.inj (hr.symm.trans hr')
      -- The use of the rule was before, or it is the candidate.
      rcases ((Rule.used_next a.obligation.model (a.offersOf r.position)).2 hground).2 with
        hbefore | hterm
      · exact (hacc.asserted hr hground (.inr hbefore)).taking hob.closed _
      · obtain ⟨t, ht, hterm⟩ := Option.map_eq_some_iff.mp hterm
        have hdrawn : (a.draw r).1 = some t := ht
        rw [hdrawn, ← hterm]
        exact hacc.derives.asserted hob t.term
    · rw [if_neg hi] at hused
      exact (hacc.asserted hr' hground hused).taking hob.closed _

theorem pursued_of_draw_none (h : a.Pursues c r start found)
    (hacc : a.Accounts c start a.obligation) (hnone : (a.draw r).1 = none) :
    a.Pursued c r start none (a.draw r).2 := by
  obtain ⟨-, hdrawn⟩ := pursues_draw hrules hstart hr h hacc
  rw [hnone] at hdrawn
  refine ⟨hdrawn, ?_, ?_⟩
  · intro hused
    rw [offersOf_draw_self]
    exact (Rule.used_next _ _).1 hused
  · intro _ _
    refine ⟨.refl _, ?_⟩
    intro key hcovers hground
    have hleft := (Rule.left_next (r := r.rule) a.obligation.model
      (a.offersOf r.position)).1 hnone
    rw [Rule.left, hground, if_neg (by decide), List.length_eq_zero_iff] at hleft
    rw [offersOf_draw_self]
    rcases Rule.covers_next (r := r.rule) a.obligation.model hcovers with htaken | ⟨f, hf, -⟩
    · exact htaken
    · rw [hleft] at hf
      cases hf

theorem Insertions.pursued {t : Candidate} {out : Option (Candidate × Change)}
    (hinserted : Insertions c r t a out b) (h : a.Pursues c r start found)
    (hob : a.obligation.model.Closed)
    (hacc : a.Accounts c start (a.obligation.assume t.term).2)
    (ht : Derives c.rules found (a.obligation.assume t.term).2) : a.Pursued c r start out b := by
  induction hinserted with
  | fresh =>
    exact ⟨hacc.frame (fun _ => ⟨rfl, rfl⟩) rfl, fun hu => hu,
      fun h => (Option.some_ne_none _ h).elim⟩
  | late _ hlook =>
    refine ⟨accounts_looked hacc, fun hu => hu, ?_⟩
    intro _ hgo
    cases (stopped_of_look hlook).symm.trans hgo
  | vain hsame _ hdraw =>
    exact (pursued_of_draw_none hrules hstart hr (h.looked ht) (accounts_looked hacc) hdraw).earlier
      rfl (Model.widens_assume hob hsame)
  | again hsame _ _ hdraw _ ih =>
    have hlooked := accounts_looked hacc
    obtain ⟨hdrawn, haccounts⟩ := pursues_draw hrules hstart hr (h.looked ht) hlooked
    have hcand := (ready_draw (Array.mem_of_getElem? hr) (h.looked ht).ready).2 _ hdraw
    rw [hdraw] at haccounts
    have hrest := ih hdrawn (hlooked.orderly hrules hstart).model.closed haccounts hcand
    exact hrest.of_draw.earlier rfl (Model.widens_assume hob hsame)

/-- A rule that was pursued in vain is settled: what it finds now it found before, each binding
that it found has a key that was taken, and what was taken was told. -/
theorem settled_of_pursued (hacc : a.Accounts c start a.obligation)
    (h : (a.offered c r).Pursued c r start none b)
    (hused : r.rule.isGround = true → (b.offersOf r.position).used = true)
    (hreach : c.control.reach a.looks = .all) (hgo : b.stopped = false) :
    a.obligation.model.Widens b.obligation.model ∧ r.rule.Settled start b.obligation := by
  obtain ⟨hwidens, hall⟩ := h.vain rfl hgo
  have hbefore := hacc.orderly hrules hstart
  have hafter := h.accounts.orderly hrules hstart
  refine ⟨hwidens, ?_, ?_⟩
  · intro hground
    exact h.accounts.asserted hr hground (.inr (hused hground))
  · intro hground hkind hkeyed d hd hbind
    have hgoals : b.obligation.goals = a.obligation.goals :=
      h.accounts.derives.frame.2.trans hacc.derives.frame.2.symm
    rw [Obligation.findMatches_of_widens hbefore hafter.model.closed hgoals hwidens] at hd
    have hsearch : d ∈ r.rule.search a.obligation (c.control.reach a.looks) := by
      rw [hreach]
      simpa [Rule.search, hkind] using hd
    have hcovers := Rule.covers_offer hbefore.model.closed hground (a.offersOf r.position) hsearch
      hbind
    rw [← offersOf_offered_self] at hcovers
    obtain ⟨d', hkey, hclear, htold⟩ := h.accounts.spent hr _ (hall _ hcovers hground)
    have hclear' := Rule.clear_of_valued hbefore.model
      (Rule.valued_of_mem_search hbefore.model.closed hsearch)
    rw [hkeyed.inserted_eq hclear' hclear hkey]
    exact htold

structure Tried (a : Attempt) (c : Context) (start : Obligation) (r : Ranked) (made : Bool)
    (b : Attempt) : Prop where
  accounts : b.Accounts c start b.obligation
  vain : made = false → b.stopped = false →
    a.obligation.model.Widens b.obligation.model ∧ r.rule.Settled start b.obligation

theorem Trial.tried {made : Bool} (htrial : Trial c p r a made b)
    (h : a.Accounts c start a.obligation) : a.Tried c start r made b := by
  obtain ⟨hpursues, hoffered⟩ := pursues_offered hrules hstart h
  obtain ⟨hdrawn, haccounts⟩ := pursues_draw hrules hstart hr hpursues hoffered
  have hused : r.rule.isGround = true →
      ((((a.offered c r).draw r).2.retire r).offersOf r.position).used = true := by
    rw [offersOf_retire]
    exact used_draw (a.offered c r)
  -- What comes of the candidate that is taken, if there is one.
  have hpursued : ∀ {t : Candidate} {out : Option (Candidate × Change)} {d : Attempt},
      ((a.offered c r).draw r).1 = some t →
      Insertions c r t (((a.offered c r).draw r).2.retire r) out d →
      (((a.offered c r).draw r).2.retire r).Pursued c r start out d := by
    intro t out d hdraw hinserted
    have hcand := (ready_draw (Array.mem_of_getElem? hr) hpursues.ready).2 t hdraw
    rw [hdraw] at haccounts
    have hretired := accounts_retire hr haccounts (used_draw (a.offered c r))
    have hready := hdrawn.retire
    obtain ⟨active, he⟩ := ((a.offered c r).draw r).2.retire_eq r
    rw [he] at hinserted hretired hready ⊢
    exact hinserted.pursued hrules hstart hr hready (h.orderly hrules hstart).model.closed
      hretired hcand
  have hreach : b.stopped = false → c.control.reach a.looks = .all := htrial.reach_eq
  cases htrial with
  | noMatch hdraw =>
    have hvain := pursued_of_draw_none hrules hstart hr hpursues hoffered hdraw
    refine ⟨hvain.accounts.frame (fun _ => ⟨rfl, rfl⟩) rfl, ?_⟩
    intro _ hgo
    exact settled_of_pursued (b := ((a.offered c r).draw r).2) hrules hstart hr h hvain
      (used_draw (a.offered c r)) (hreach hgo) hgo
  | @emptied t d hdraw hinserted =>
    have hvain := hpursued hdraw hinserted
    refine ⟨hvain.accounts.frame (fun _ => ⟨rfl, rfl⟩) rfl, ?_⟩
    intro _ hgo
    exact settled_of_pursued (b := d) hrules hstart hr h hvain.of_retire.of_draw
      (fun hground => hvain.used (hused hground)) (hreach hgo) hgo
  | @step t t' change d hdraw hinserted =>
    obtain ⟨lines, he⟩ := d.record_eq c p r a.looks t' change
    rw [he]
    refine ⟨(hpursued hdraw hinserted).accounts.frame (fun _ => ⟨rfl, rfl⟩) rfl, ?_⟩
    intro hfalse
    cases hfalse

end Accounting

section Ending

/-- What trying rules in turn comes to. If none made a step, and not because the search had to stop
or the obligation was decided, the model only became wider and all of them are settled. -/
structure Passed (a : Attempt) (c : Context) (start : Obligation) (rs : List Ranked)
    (chosen n : Nat) (b : Attempt) : Prop where
  accounts : b.Accounts c start b.obligation
  chosen_le : chosen ≤ n
  vain : n = 0 → b.stopped = false → b.obligation.status = .evaluating →
    a.obligation.model.Widens b.obligation.model ∧ ∀ r ∈ rs, r.rule.Settled start b.obligation

variable (hrules : ∀ r ∈ c.rules, r.insert.written = true) (hstart : start.Orderly)
include hrules hstart

theorem Round.passed {rs : List Ranked} {n : Nat} (hround : Round c p rs a n b)
    (hrs : ∀ r ∈ rs, c.rules[r.position]? = some r.rule) (h : a.Accounts c start a.obligation) :
    a.Passed c start rs p.chosen n b := by
  induction hround with
  | nil => exact ⟨h, Nat.le_refl _, fun _ _ _ => ⟨.refl _, by simp⟩⟩
  | ended hover =>
    refine ⟨h, Nat.le_refl _, ?_⟩
    intro hchosen _ hstatus
    simp [endsRound, hchosen, hstatus] at hover
  | late _ hlook =>
    refine ⟨accounts_look c h, Nat.le_refl _, ?_⟩
    intro _ hgo
    cases (stopped_of_look hlook).symm.trans hgo
  | @made p _ _ _ _ _ n _ _ hfirst _ ih =>
    obtain ⟨hr, hrest⟩ := List.forall_mem_cons.mp hrs
    have hpassed := ih hrest (hfirst.tried hrules hstart hr (accounts_look c h)).accounts
    have hmore : p.chosen + 1 ≤ n := hpassed.chosen_le
    refine ⟨hpassed.accounts, Nat.le_of_succ_le hmore, ?_⟩
    intro hnone
    omega
  | vain _ _ hfirst hround ih =>
    obtain ⟨hr, hrest⟩ := List.forall_mem_cons.mp hrs
    have htried := hfirst.tried hrules hstart hr (accounts_look c h)
    have hpassed := ih hrest htried.accounts
    refine ⟨hpassed.accounts, hpassed.chosen_le, ?_⟩
    intro hnone hgo hstatus
    obtain ⟨hwidens, hsettled⟩ := hpassed.vain hnone hgo hstatus
    obtain ⟨hwidens', hthis⟩ := htried.vain rfl (hround.proceeds.stopped hgo)
    refine ⟨hwidens'.trans hwidens, List.forall_mem_cons.mpr ⟨?_, hsettled⟩⟩
    -- The rule stays settled while the others are tried.
    have hderives := hround.derives fun q hq => Array.mem_of_getElem? (hrest q hq)
    have horderly := htried.accounts.orderly hrules hstart
    exact hthis.of_widens hderives horderly
      (hpassed.accounts.orderly hrules hstart).model.closed
      (hderives.orderly hrules horderly).2 hwidens

/-- Once a round made no step every rule is settled. -/
theorem Rounds.settled {round : Nat} (hrounds : Rounds c round a b)
    (h : a.Accounts c start a.obligation) (hgo : b.stopped = false)
    (hstatus : b.obligation.status = .evaluating) {i : Nat} {r : Rule}
    (hr : c.rules[i]? = some r) : r.Settled start b.obligation := by
  induction hrounds with
  | decided hdecided => exact (hdecided hstatus).elim
  | late _ hlook => cases (stopped_of_look hlook).symm.trans hgo
  | @idle _ a _ _ _ hround =>
    have hpassed := hround.passed hrules hstart (fun _ hq => getElem?_of_mem_queue hq)
      (accounts_look c h)
    obtain ⟨-, hsettled⟩ := hpassed.vain rfl hgo hstatus
    by_cases hi : i ∈ a.active
    · obtain ⟨q, hq, rfl⟩ := exists_mem_queue (a := (a.look c).2) hr hi
      exact hsettled q hq
    · have hground := h.retired hr hi
      have hderives := hround.derives fun _ hq => mem_rules_of_mem_queue hq
      have hext := (hderives.orderly hrules (h.orderly hrules hstart)).2
      refine ⟨fun _ => (h.asserted hr hground (.inl hi)).of_derives hderives hext, ?_⟩
      intro hvars
      rw [hground] at hvars
      cases hvars
  | next _ _ hround _ ih =>
    have hpassed := hround.passed hrules hstart (fun _ hq => getElem?_of_mem_queue hq)
      (accounts_look c h)
    exact ih hpassed.accounts hgo hstatus

/-- A search that ends by itself without a verdict has settled every rule. -/
theorem settled_run (hgo : (run c start).stopped = false)
    (hstatus : (run c start).obligation.status = .evaluating) :
    ∀ r ∈ c.rules, r.Settled start (run c start).obligation := by
  intro r hr
  obtain ⟨i, hi⟩ := Array.mem_iff_getElem?.mp hr
  exact (rounds_run c start).settled hrules hstart (accounts_start c start) hgo hstatus hi

end Ending

end Attempt

end Discharge.Search
