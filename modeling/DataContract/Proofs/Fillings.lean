import DataContract.Proofs.Selections
import Mathlib.Data.List.Basic

/-!
# Which slots a filling takes

A slot that can be left out has absence as its last candidate. The slots run through their
candidates in step, each starting over at its own end, so it is left out in the rounds that complete
a period of its own (`Slot.pick_eq_none_iff`). Required slots are always filled. The optional ones
are filled all together or not at all exactly if they have the same number of candidates
(`Slots.allOrNothing_iff_inStep`): otherwise the one with fewer candidates is left out in a round in
which another one is filled.
-/

namespace DataContract

/-- A place in a list: what may stand there, and whether it may be left out. -/
structure Slot (α : Type) where
  present : List α
  present_ne_nil : present ≠ []
  optional : Bool

namespace Slot

variable {α : Type} {slot : Slot α} {i : Nat}

/-- The candidates for the place, absence as the last one. -/
def candidates (slot : Slot α) : List (Option α) :=
  slot.present.map some ++ if slot.optional then [none] else []

/-- The number of candidates, after which they start over. -/
def period (slot : Slot α) : Nat :=
  slot.present.length + if slot.optional then 1 else 0

/-- The round that completes the first period. -/
def lastRound (slot : Slot α) : Nat :=
  slot.period - 1

/-- What the slot is filled with in a round, if it is not left out. -/
def pick (slot : Slot α) (i : Nat) : Option α :=
  slot.present[i % slot.period]?

/-- There are as many candidates as a period has rounds. -/
theorem length_candidates (slot : Slot α) : slot.candidates.length = slot.period := by
  unfold candidates period
  cases slot.optional <;> simp

/-- A period has a round, as a slot has a candidate. -/
theorem period_pos (slot : Slot α) : 0 < slot.period :=
  Nat.add_pos_left (List.length_pos_of_ne_nil slot.present_ne_nil) _

/-- The last round is counted from zero. -/
theorem lastRound_add_one (slot : Slot α) : slot.lastRound + 1 = slot.period :=
  Nat.sub_add_cancel slot.period_pos

/-- A slot has a candidate. -/
theorem candidates_ne_nil (slot : Slot α) : slot.candidates ≠ [] :=
  List.ne_nil_of_length_pos (slot.length_candidates ▸ slot.period_pos)

/-- Absence is no candidate to fill the slot with. -/
theorem join_candidates (slot : Slot α) (i : Nat) :
    (slot.candidates[i % slot.candidates.length]?).join = slot.pick i := by
  rw [length_candidates, pick, candidates, List.getElem?_append, List.length_map]
  split
  · next hlt => simp [hlt]
  · next hge =>
    rw [List.getElem?_eq_none (Nat.le_of_not_lt hge)]
    split
    · cases i % slot.period - slot.present.length <;> rfl
    · rfl

/-- A slot is filled with one of its candidates. -/
theorem mem_of_pick {a : α} (h : slot.pick i = some a) : a ∈ slot.present :=
  List.mem_of_getElem? h

/-- An optional slot is left out in the rounds that complete a period. -/
theorem pick_eq_none_iff :
    slot.pick i = none ↔ slot.optional = true ∧ slot.period ∣ i + 1 := by
  have hlt := Nat.mod_lt i slot.period_pos
  rw [pick, List.getElem?_eq_none_iff]
  cases hoptional : slot.optional with
  | false =>
    have hperiod : slot.period = slot.present.length := by simp [period, hoptional]
    rw [hperiod] at hlt ⊢
    simpa using hlt
  | true =>
    have hperiod : slot.period = slot.present.length + 1 := by simp [period, hoptional]
    rw [hperiod] at hlt ⊢
    rw [Nat.dvd_iff_mod_eq_zero, Nat.succ_mod_succ_eq_zero_iff]
    generalize i % (slot.present.length + 1) = j at hlt ⊢
    simp only [true_and]
    omega

end Slot

namespace Slots

variable {α : Type} {slots : List (Slot α)} {filling : List α} {i : Nat}

/-- The list has a candidate of each slot, in their order. -/
def Fills (filling : List α) (slots : List (Slot α)) : Prop :=
  List.Forall₂ (fun a slot => a ∈ slot.present) filling slots

/-- The slots that cannot be left out. -/
def required (slots : List (Slot α)) : List (Slot α) :=
  slots.filter fun slot => !slot.optional

/-- The slots that are filled in a round. -/
def filled (slots : List (Slot α)) (i : Nat) : List (Slot α) :=
  slots.filter fun slot => (slot.pick i).isSome

/-- The optional slots are left out in the same rounds, since they have as many candidates. -/
def InStep (slots : List (Slot α)) : Prop :=
  ∀ s ∈ slots, ∀ t ∈ slots, s.optional = true → t.optional = true → s.period = t.period

/-- Each of the lists fills all slots or the required ones only, and there are lists of both kinds
if they differ. -/
structure AllOrNothing (slots : List (Slot α)) (fillings : List (List α)) : Prop where
  every : ∀ filling ∈ fillings, Fills filling slots ∨ Fills filling (required slots)
  all : ∃ filling ∈ fillings, Fills filling slots
  nothing : (∃ s ∈ slots, s.optional = true) → ∃ filling ∈ fillings, Fills filling (required slots)

/-! ## Rounds -/

/-- The slots that are filled in a round are those that take a candidate in it. -/
theorem mem_filled {s : Slot α} : s ∈ filled slots i ↔ s ∈ slots ∧ s.pick i ≠ none := by
  rw [filled, List.mem_filter, Option.isSome_iff_ne_none]

/-- The row of a round fills the slots that are not left out in it. -/
theorem fills_row (slots : List (Slot α)) (i : Nat) :
    Fills (row (slots.map Slot.candidates) i) (filled slots i) := by
  induction slots with
  | nil => exact .nil
  | cons slot slots ih =>
    rw [List.map_cons, row, List.filterMap_cons, slot.join_candidates, filled, List.filter_cons]
    cases hpick : slot.pick i with
    | none => exact ih
    | some a => exact .cons (Slot.mem_of_pick hpick) ih

/-- Required slots are filled in every round. -/
theorem required_sublist_filled (slots : List (Slot α)) (i : Nat) :
    (required slots).Sublist (filled slots i) := by
  refine List.monotone_filter_right slots fun slot hslot => ?_
  rw [Option.isSome_iff_ne_none, ne_eq, Slot.pick_eq_none_iff]
  simp_all

/-- In a round that completes a period of every optional slot none of them is filled. -/
theorem filled_eq_required (h : ∀ s ∈ slots, s.optional = true → s.period ∣ i + 1) :
    filled slots i = required slots := by
  refine List.filter_congr fun slot hslot => ?_
  cases hoptional : slot.optional with
  | false =>
    rw [Bool.not_false, Option.isSome_iff_ne_none, ne_eq, Slot.pick_eq_none_iff, hoptional]
    simp
  | true =>
    rw [Slot.pick_eq_none_iff.2 ⟨hoptional, h slot hslot hoptional⟩]
    rfl

/-- Where no slot is left out all of them are filled. -/
theorem filled_eq_self (h : ∀ s ∈ slots, s.pick i ≠ none) : filled slots i = slots :=
  List.filter_eq_self.2 fun s hs => Option.isSome_iff_ne_none.2 (h s hs)

/-- Slots in step are all filled in a round, or only the required ones are. -/
theorem InStep.filled_eq (h : InStep slots) (i : Nat) :
    filled slots i = slots ∨ filled slots i = required slots := by
  by_cases hall : ∀ s ∈ slots, s.pick i ≠ none
  · exact .inl (filled_eq_self hall)
  · push Not at hall
    obtain ⟨s, hs, hpick⟩ := hall
    obtain ⟨hoptional, hround⟩ := Slot.pick_eq_none_iff.1 hpick
    exact .inr (filled_eq_required fun t ht ht' => h s hs t ht hoptional ht' ▸ hround)

/-! ## Fillings -/

/-- The number of rounds: as many as the longest slot has candidates. -/
def rounds (slots : List (Slot α)) : Nat :=
  (slots.map Slot.period).foldl max 0

/-- No period is longer than the number of rounds. -/
theorem le_rounds {s : Slot α} (hs : s ∈ slots) : s.period ≤ rounds slots :=
  le_foldl_max (.inl (List.mem_map_of_mem hs))

/-- Each slot comes to the end of its period in some round. -/
theorem lastRound_lt_rounds {s : Slot α} (hs : s ∈ slots) : s.lastRound < rounds slots := by
  have := le_rounds hs
  have := s.lastRound_add_one
  omega

/-- Where there is a slot there is a round. -/
theorem rounds_pos (h : slots ≠ []) : 0 < rounds slots := by
  obtain ⟨s, hs⟩ := List.exists_mem_of_ne_nil slots h
  exact Nat.lt_of_lt_of_le s.period_pos (le_rounds hs)

variable [BEq α]

/-- The fillings are what is in the slots in each round, repetitions apart. -/
theorem fillings_eq (h : slots ≠ []) :
    fillings (slots.map Slot.candidates) =
      ((List.range (rounds slots)).map (row (slots.map Slot.candidates))).eraseDups := by
  have hlive : (slots.map Slot.candidates).filter (fun slot => !slot.isEmpty) =
      slots.map Slot.candidates := by
    refine List.filter_eq_self.2 (List.forall_mem_map.2 fun slot _ => ?_)
    simpa using slot.candidates_ne_nil
  have hrounds : ((slots.map Slot.candidates).map List.length).foldl max 0 = rounds slots := by
    rw [rounds, List.map_map]
    exact congrArg (List.foldl max 0) (List.map_congr_left fun slot _ => slot.length_candidates)
  unfold fillings
  dsimp only
  rw [hlive, hrounds, if_neg (Nat.ne_of_gt (rounds_pos h))]

/-- A filling fills the required slots and perhaps some others. -/
theorem exists_fills (h : filling ∈ fillings (slots.map Slot.candidates)) :
    ∃ i, Fills filling (filled slots i) := by
  by_cases hslots : slots = []
  · subst hslots
    obtain rfl := List.mem_singleton.1 h
    exact ⟨0, .nil⟩
  · rw [fillings_eq hslots] at h
    obtain ⟨i, -, rfl⟩ := List.mem_map.1 (mem_of_mem_eraseDups h)
    exact ⟨i, fills_row slots i⟩

/-- For every round there is a filling of as many slots. -/
theorem exists_length_eq (hi : i < rounds slots) :
    ∃ filling ∈ fillings (slots.map Slot.candidates), filling.length = (filled slots i).length := by
  have hslots : slots ≠ [] := by
    rintro rfl
    exact absurd hi (Nat.not_lt_zero i)
  obtain ⟨filling, hfilling, hsame⟩ :=
    exists_mem_eraseDups (List.mem_map_of_mem (f := row (slots.map Slot.candidates))
      (List.mem_range.2 hi))
  refine ⟨filling, fillings_eq hslots ▸ hfilling, ?_⟩
  rw [← (fills_row slots i).length_eq]
  rcases hsame with rfl | hsame
  · rfl
  · exact (List.length_eq_of_beq hsame).symm

/-- Which slots a filling takes can be told from its length if they are the required ones. -/
theorem fills_required_of_length (h : filling ∈ fillings (slots.map Slot.candidates))
    (hlength : filling.length = (required slots).length) : Fills filling (required slots) := by
  obtain ⟨i, hi⟩ := exists_fills h
  have heq : required slots = filled slots i :=
    (required_sublist_filled slots i).eq_of_length (hlength.symm.trans hi.length_eq)
  exact heq ▸ hi

/-- A filling that is as long as the slots fills all of them. -/
theorem fills_self_of_length (h : filling ∈ fillings (slots.map Slot.candidates))
    (hlength : filling.length = slots.length) : Fills filling slots := by
  obtain ⟨i, hi⟩ := exists_fills h
  have heq : filled slots i = slots :=
    List.filter_sublist.eq_of_length (hi.length_eq.symm.trans hlength)
  exact heq ▸ hi

/-- The first round fills all slots. -/
theorem exists_fills_self (slots : List (Slot α)) :
    ∃ filling ∈ fillings (slots.map Slot.candidates), Fills filling slots := by
  by_cases hslots : slots = []
  · subst hslots
    exact ⟨[], List.mem_singleton.2 rfl, .nil⟩
  · obtain ⟨filling, hfilling, hlength⟩ := exists_length_eq (rounds_pos hslots)
    refine ⟨filling, hfilling, fills_self_of_length hfilling ?_⟩
    rw [hlength, filled_eq_self fun s _ => ?_]
    rw [ne_eq, Slot.pick_eq_none_iff]
    rintro ⟨hoptional, hround⟩
    have hperiod : s.period = s.present.length + 1 := by rw [Slot.period, if_pos hoptional]
    have hpresent := List.length_pos_of_ne_nil s.present_ne_nil
    have := Nat.le_of_dvd Nat.one_pos hround
    omega

/-- Slots in step have a filling of the required slots: that of the round that completes the common
period. -/
theorem InStep.exists_fills_required (h : InStep slots) {s : Slot α} (hs : s ∈ slots)
    (hoptional : s.optional = true) :
    ∃ filling ∈ fillings (slots.map Slot.candidates), Fills filling (required slots) := by
  obtain ⟨filling, hfilling, hlength⟩ := exists_length_eq (lastRound_lt_rounds hs)
  refine ⟨filling, hfilling, fills_required_of_length hfilling ?_⟩
  rw [hlength, filled_eq_required fun t ht ht' => ?_]
  have hround : s.lastRound + 1 = t.period :=
    s.lastRound_add_one.trans (h s hs t ht hoptional ht')
  exact hround ▸ Nat.dvd_refl _

/-- Slots in step are filled all together, or only the required ones are. -/
theorem InStep.allOrNothing (h : InStep slots) :
    AllOrNothing slots (fillings (slots.map Slot.candidates)) where
  every := by
    intro filling hfilling
    obtain ⟨i, hi⟩ := exists_fills hfilling
    rcases h.filled_eq i with hall | hnothing
    · exact .inl (hall ▸ hi)
    · exact .inr (hnothing ▸ hi)
  all := exists_fills_self slots
  nothing := by
    rintro ⟨s, hs, hoptional⟩
    exact h.exists_fills_required hs hoptional

/-- Where every filling takes all slots or only the required ones, no optional slot starts over
before another one. -/
theorem period_le_of_forall {s t : Slot α}
    (h : ∀ filling ∈ fillings (slots.map Slot.candidates),
      Fills filling slots ∨ Fills filling (required slots))
    (hs : s ∈ slots) (ht : t ∈ slots) (hoptional : s.optional = true) (ht' : t.optional = true) :
    t.period ≤ s.period := by
  by_contra hlt
  -- In the round that completes the shorter period `s` is left out and `t` is not.
  have hout : s ∉ filled slots s.lastRound := by
    rw [mem_filled, ne_eq, Slot.pick_eq_none_iff, s.lastRound_add_one]
    exact fun h => h.2 ⟨hoptional, Nat.dvd_refl _⟩
  have hin : t ∈ filled slots s.lastRound := by
    rw [mem_filled, ne_eq, Slot.pick_eq_none_iff, s.lastRound_add_one]
    exact ⟨ht, fun h => hlt (Nat.le_of_dvd s.period_pos h.2)⟩
  obtain ⟨filling, hfilling, hlength⟩ := exists_length_eq (lastRound_lt_rounds hs)
  rcases h filling hfilling with hall | hnothing
  · have heq : filled slots s.lastRound = slots :=
      List.filter_sublist.eq_of_length (hlength.symm.trans hall.length_eq)
    exact hout (heq.symm ▸ hs)
  · have heq : required slots = filled slots s.lastRound :=
      (required_sublist_filled slots _).eq_of_length (hnothing.length_eq.symm.trans hlength)
    have hrequired : t ∈ required slots := heq ▸ hin
    simp [required, ht'] at hrequired

/-- The fillings take all slots or the required ones, and they do both where these differ, exactly
if the optional slots have the same number of candidates. Whether they have it or not, a filling
takes every required slot, and the slots it takes keep their order. -/
theorem allOrNothing_iff_inStep (slots : List (Slot α)) :
    (AllOrNothing slots (fillings (slots.map Slot.candidates)) ↔ InStep slots) ∧
      ∀ filling ∈ fillings (slots.map Slot.candidates), ∃ taken,
        (required slots).Sublist taken ∧ taken.Sublist slots ∧ Fills filling taken := by
  refine ⟨⟨fun h s hs t ht hs' ht' => ?_, InStep.allOrNothing⟩, fun filling hfilling => ?_⟩
  · exact Nat.le_antisymm (period_le_of_forall h.every ht hs ht' hs')
      (period_le_of_forall h.every hs ht hs' ht')
  · obtain ⟨i, hi⟩ := exists_fills hfilling
    exact ⟨_, required_sublist_filled slots i, List.filter_sublist, hi⟩

/-- Two optional slots, one with one candidate and one with two. -/
def unevenSlots : List (Slot String) :=
  [⟨["a"], by decide, true⟩, ⟨["b", "c"], by decide, true⟩]

/-- One of the fillings of uneven slots takes a candidate of the second slot and none of the
first. -/
theorem unevenSlots_not_allOrNothing :
    fillings (unevenSlots.map Slot.candidates) = [["a", "b"], ["c"], ["a"]] ∧
      ¬ AllOrNothing unevenSlots (fillings (unevenSlots.map Slot.candidates)) := by
  have hfillings : fillings (unevenSlots.map Slot.candidates) = [["a", "b"], ["c"], ["a"]] := by
    decide
  refine ⟨hfillings, fun h => ?_⟩
  have hmem : ["c"] ∈ fillings (unevenSlots.map Slot.candidates) := by
    rw [hfillings]
    decide
  rcases h.every _ hmem with hall | hnothing
  · cases hall.length_eq
  · cases hnothing.length_eq

end Slots

end DataContract
