import DataContract.Matching.Union
import DataContract.Proofs.Outcomes
import Mathlib.Algebra.Order.BigOperators.Group.List
import Mathlib.Algebra.Order.Ring.Nat
import Mathlib.Data.List.TakeWhile

/-!
# What is read of a text is not longer than the text

Generic data has at most the weight of the text that it was read of (`Value.weight_ofText_le`): a
structure has its brackets, an escape is longer than the character that it stands for, and of a
repeated key only one member stays. So data that is written as text inside of other data can be
read, and this again, only so often.
-/

namespace DataContract

/-! ## Values and their parts -/

namespace Value

variable {v : Value} {items : List Value} {name : String} {members : List (String × Value)}

/-- A string weighs one more than its characters. -/
theorem weight_string (text : String) : (string text).weight = 1 + text.length :=
  rfl

/-- An object weighs one more than its members. -/
theorem weight_object (members : List (String × Value)) :
    (object members).weight = 1 + weightMembers members :=
  rfl

/-- An array weighs one more than its items. -/
theorem weight_array (items : List Value) : (array items).weight = 1 + weightItems items :=
  rfl

/-- An element weighs one more than its name, its attributes and its children. -/
theorem weight_xml (name : String) (attributes : List (String × String)) (children : List Value) :
    (xml name attributes children).weight =
      1 + name.length + (attributes.map fun a => a.1.length + a.2.length).sum +
        weightItems children :=
  rfl

/-- An item weighs no more than all of them. -/
theorem weight_le_weightItems (h : v ∈ items) : v.weight ≤ weightItems items := by
  induction items with
  | nil => cases h
  | cons w items ih =>
    rw [weightItems]
    rcases List.mem_cons.1 h with rfl | h
    · exact Nat.le_add_right _ _
    · exact (ih h).trans (Nat.le_add_left _ _)

/-- An item weighs less than its array. -/
theorem weight_lt_of_mem_items (h : v ∈ items) : v.weight < (array items).weight := by
  have hle := weight_le_weightItems h
  rw [weight_array]
  omega

/-- A member of an object weighs less than the object, and so does its key. -/
theorem weight_lt_of_mem_members (h : (name, v) ∈ members) :
    name.length + v.weight < (object members).weight := by
  have hle : name.length + v.weight ≤ weightMembers members := by
    induction members with
    | nil => cases h
    | cons m members ih =>
      rw [weightMembers]
      rcases List.mem_cons.1 h with rfl | h
      · exact Nat.le_add_right _ _
      · exact (ih h).trans (Nat.le_add_left _ _)
  rw [weight_object]
  omega

section
variable {attributes : List (String × String)} {children : List Value}

/-- The text of an attribute is shorter than the node weighs. -/
theorem length_lt_of_mem_attributes {a : String × String} (h : a ∈ attributes) :
    a.2.length < (xml name attributes children).weight := by
  have hle := List.le_sum_of_mem
    (List.mem_map_of_mem (f := fun a : String × String => a.1.length + a.2.length) h)
  rw [weight_xml]
  omega

/-- The text of a node is shorter than the node weighs. -/
theorem length_textContent_lt :
    (textContent children).length < (xml name attributes children).weight := by
  have hle : (textContent children).length ≤ weightItems children := by
    induction children with
    | nil => exact Nat.le_refl _
    | cons v children ih =>
      unfold textContent at ih ⊢
      rw [weightItems]
      cases v with
      | string s =>
        rw [List.filterMap_cons, String.join_cons, String.length_append, weight_string]
        omega
      | _ => exact ih.trans (Nat.le_add_left _ _)
  rw [weight_xml]
  omega

/-- A child weighs less than its element. -/
theorem weight_lt_of_mem_children (h : v ∈ children) :
    v.weight < (xml name attributes children).weight := by
  have hle := weight_le_weightItems h
  rw [weight_xml]
  omega

end

/-- No value is without weight. -/
theorem weight_pos (v : Value) : 0 < v.weight := by
  cases v with
  | null | boolean | number => exact Nat.one_pos
  | string | object | array => exact Nat.add_pos_left Nat.one_pos _
  | xml =>
    exact Nat.add_pos_left (Nat.add_pos_left (Nat.add_pos_left Nat.one_pos _) _) _

end Value

/-! ## JSON values -/

namespace Json

mutual

/-- A bound on the depth and the length of everything in a JSON value. -/
def weight : Json → Nat
  | .null => 1
  | .bool _ => 1
  | .number _ => 1
  | .string s => 1 + s.length
  | .array items => 1 + weightItems items
  | .object members => 1 + weightMembers members

/-- The weights of the elements, added up. -/
def weightItems : List Json → Nat
  | [] => 0
  | item :: rest => weight item + weightItems rest

/-- The weights of the members and their keys, added up. -/
def weightMembers : List (String × Json) → Nat
  | [] => 0
  | (key, item) :: rest => key.length + weight item + weightMembers rest

end

/-- Setting a member adds at most its key and its weight. -/
theorem weightMembers_set_le (fields : Fields Json) (key : String) (item : Json) :
    weightMembers (fields.set key item) ≤ key.length + item.weight + weightMembers fields := by
  induction fields with
  | nil => exact Nat.le_refl _
  | cons m rest ih =>
    rw [Fields.set]
    split
    · simp only [weightMembers]
      omega
    · split
      · exact Nat.le_refl _
      · simp only [weightMembers]
        omega

/-- An object weighs no more than the members it was put together from. -/
theorem weight_ofPairs_le (pairs : List (String × Json)) :
    (ofPairs pairs).weight ≤ 1 + weightMembers pairs := by
  suffices h : ∀ fields : Fields Json,
      weightMembers (pairs.foldl (fun fields pair => Fields.set fields pair.1 pair.2) fields) ≤
        weightMembers pairs + weightMembers fields from
    Nat.add_le_add_left (h []) 1
  induction pairs with
  | nil => exact fun fields => Nat.le_add_left _ _
  | cons pair rest ih =>
    intro fields
    have hset := weightMembers_set_le fields pair.1 pair.2
    have hrest := ih (Fields.set fields pair.1 pair.2)
    rw [List.foldl_cons, weightMembers]
    omega

end Json

namespace Value

mutual

/-- A value weighs as much as the JSON value that denotes it. -/
theorem weight_of_ofJson {v : Value} : ∀ {json : Json}, ofJson json = .ok v → v.weight = json.weight
  | .null, h => by cases h; rfl
  | .bool _, h => by cases h; rfl
  | .number _, h => by
    obtain ⟨d, -, rfl⟩ := map_eq_ok.1 h
    rfl
  | .string _, h => by cases h; rfl
  | .array items, h => by
    obtain ⟨vs, hvs, rfl⟩ := map_eq_ok.1 h
    rw [weight_array, Json.weight, weightItems_of_ofJson hvs]
  | .object members, h => by
    obtain ⟨ms, hms, rfl⟩ := map_eq_ok.1 h
    rw [weight_object, Json.weight, weightMembers_of_ofJson hms]

/-- Items weigh the same as values and as JSON. -/
theorem weightItems_of_ofJson {vs : List Value} :
    ∀ {items : List Json}, ofJsonItems items = .ok vs → weightItems vs = Json.weightItems items
  | [], h => by cases h; rfl
  | item :: rest, h => by
    rw [ofJsonItems] at h
    split at h
    · cases h
    · next v hv =>
      obtain ⟨vs, hvs, rfl⟩ := map_eq_ok.1 h
      rw [weightItems, Json.weightItems, weight_of_ofJson hv, weightItems_of_ofJson hvs]

/-- Members weigh the same as values and as JSON. -/
theorem weightMembers_of_ofJson {ms : List (String × Value)} :
    ∀ {members : List (String × Json)}, ofJsonMembers members = .ok ms →
      weightMembers ms = Json.weightMembers members
  | [], h => by cases h; rfl
  | (key, item) :: rest, h => by
    rw [ofJsonMembers] at h
    split at h
    · cases h
    · next v hv =>
      obtain ⟨ms, hms, rfl⟩ := map_eq_ok.1 h
      rw [weightMembers, Json.weightMembers, weight_of_ofJson hv, weightMembers_of_ofJson hms]

end

end Value

/-! ## Reading words and numbers -/

namespace Text

/-- What is left behind a prefix is not longer. -/
theorem length_le_of_stripStart? {beginning cs rest : List Char}
    (h : stripStart? beginning cs = some rest) : rest.length ≤ cs.length := by
  induction beginning generalizing cs with
  | nil =>
    cases h
    exact Nat.le_refl _
  | cons b beginning ih =>
    cases cs with
    | nil => cases h
    | cons c cs =>
      obtain ⟨-, h⟩ := Option.ite_none_right_eq_some.1 h
      exact (ih h).trans (Nat.le_succ _)

end Text

namespace Json.Number

variable {negative : Bool} {significand : Nat} {exponent : Int} {cs rest : List Char} {n : Number}

/-- What is left behind the digits is not longer. -/
theorem length_spanDigits_le (cs : List Char) : (spanDigits cs).2.length ≤ cs.length :=
  (List.dropWhile_sublist _).length_le

/-- What is left behind a sign is not longer. -/
theorem length_behind_sign_le (cs : List Char) :
    (match cs with
      | '+' :: rest => (false, rest)
      | '-' :: rest => (true, rest)
      | cs => (false, cs)).2.length ≤ cs.length := by
  split
  · exact Nat.le_succ _
  · exact Nat.le_succ _
  · exact Nat.le_refl _

/-- What is left behind the exponent of a number is not longer. -/
theorem length_le_of_exponentPart
    (h : exponentPart negative significand exponent cs = some (n, rest)) :
    rest.length ≤ cs.length := by
  have hsign := length_behind_sign_le cs
  unfold exponentPart at h
  dsimp only at h
  split at h
  · cases h
  · split at h
    · obtain ⟨-, h⟩ := Option.ite_none_left_eq_some.1 h
      cases h
      exact (length_spanDigits_le _).trans hsign
    · obtain ⟨x, -, h⟩ := Option.bind_eq_some_iff.1 h
      cases h
      exact (length_spanDigits_le _).trans hsign

/-- What is left behind the end of a number is not longer. -/
theorem length_le_of_floatEnd (h : floatEnd negative significand exponent cs = some (n, rest)) :
    rest.length ≤ cs.length := by
  unfold floatEnd at h
  split at h
  · exact (length_le_of_exponentPart h).trans (Nat.le_succ _)
  · exact (length_le_of_exponentPart h).trans (Nat.le_succ _)
  · obtain ⟨x, -, h⟩ := Option.bind_eq_some_iff.1 h
    cases h
    exact Nat.le_refl _

/-- What is left behind the fraction of a number is not longer. -/
theorem length_le_of_fractionPart
    (h : fractionPart negative significand exponent cs = some (n, rest)) :
    rest.length ≤ cs.length := by
  unfold fractionPart at h
  dsimp only at h
  split at h
  · cases h
  · exact (length_le_of_floatEnd h).trans (length_spanDigits_le cs)

/-- A number takes at least one character. -/
theorem length_lt_of_unsignedPart (h : unsignedPart negative cs = some (n, rest)) :
    rest.length < cs.length := by
  have hspan : (spanDigits cs).1.length + (spanDigits cs).2.length = cs.length := by
    rw [← List.length_append, spanDigits, List.takeWhile_append_dropWhile]
  unfold unsignedPart at h
  dsimp only at h
  split at h
  · cases h
  · cases h
  · next hne _ =>
    have hpos : 0 < (spanDigits cs).1.length := List.length_pos_iff.2 hne
    suffices hrest : rest.length ≤ (spanDigits cs).2.length by omega
    split at h
    · next hs => exact hs ▸ (length_le_of_fractionPart h).trans (Nat.le_succ _)
    · next hs => exact hs ▸ (length_le_of_exponentPart h).trans (Nat.le_succ _)
    · next hs => exact hs ▸ (length_le_of_exponentPart h).trans (Nat.le_succ _)
    · split at h
      · obtain ⟨x, -, h⟩ := Option.map_eq_some_iff.1 h
        cases h
        exact Nat.le_refl _
      · exact length_le_of_floatEnd h

/-- A number takes at least one character. -/
theorem length_lt_of_read? (h : read? cs = some (n, rest)) : rest.length < cs.length := by
  unfold read? at h
  split at h
  · exact (length_lt_of_unsignedPart h).trans (Nat.lt_succ_self _)
  · exact length_lt_of_unsignedPart h

end Json.Number

/-! ## Reading strings -/

namespace Json.Reader

variable {keys : Keys} {fuel depth : Nat} {cs rest done : List Char} {json : Json} {s key : String}

/-- What is left behind blanks is not longer. -/
theorem length_skipSpace_le (cs : List Char) : (skipSpace cs).length ≤ cs.length :=
  (List.dropWhile_sublist _).length_le

/-- Four hexadecimal digits take four characters. -/
theorem length_of_hex4? {n : Nat} (h : hex4? cs = some (n, rest)) :
    rest.length + 4 = cs.length := by
  unfold hex4? at h
  split at h
  · simp only [Option.bind_eq_bind, Option.bind_eq_some_iff, Option.pure_def,
      Option.some.injEq, Prod.mk.injEq] at h
    obtain ⟨_, _, _, _, _, _, _, _, -, rfl⟩ := h
    rfl
  · cases h

/-- An escape takes at least one character. -/
theorem length_lt_of_unicodeEscape? {c : Char} (h : unicodeEscape? cs = some (c, rest)) :
    rest.length < cs.length := by
  unfold unicodeEscape? at h
  obtain ⟨⟨n, rest'⟩, hn, h⟩ := Option.bind_eq_some_iff.1 h
  have hlength := length_of_hex4? hn
  dsimp only at h
  split at h
  · simp only [Option.pure_def, Option.some.injEq, Prod.mk.injEq] at h
    obtain ⟨-, rfl⟩ := h
    omega
  · split at h
    · cases h
    · split at h
      · obtain ⟨⟨m, rest''⟩, hm, h⟩ := Option.bind_eq_some_iff.1 h
        have hpair := length_of_hex4? hm
        dsimp only at h
        split at h
        · cases h
        · simp only [Option.pure_def, Option.some.injEq, Prod.mk.injEq] at h
          obtain ⟨-, rfl⟩ := h
          simp only [List.length_cons] at hlength
          omega
      · cases h

/-- A string takes its closing quote and at least one character for each of its own. -/
theorem length_lt_of_stringTail (h : stringTail fuel done cs = some (s, rest)) :
    s.length + rest.length < done.length + cs.length := by
  induction fuel generalizing done cs with
  | zero => cases h
  | succ fuel ih =>
    cases cs with
    | nil => cases h
    | cons c cs =>
      unfold stringTail at h
      split at h
      · cases h
        simp
      · split at h
        · split at h
          · cases h
          · split at h
            · next hc =>
              have hescape := length_lt_of_unicodeEscape? hc
              have hrest := ih h
              simp only [List.length_cons] at hrest ⊢
              omega
            · cases h
          · split at h
            · have hrest := ih h
              simp only [List.length_cons] at hrest ⊢
              omega
            · cases h
        · split at h
          · cases h
          · have hrest := ih h
            simp only [List.length_cons] at hrest ⊢
            omega

/-- What follows the blank characters at the front is shorter than the text. -/
theorem length_lt_of_skipSpace {c : Char} (h : skipSpace cs = c :: rest) :
    rest.length < cs.length := by
  have hle := length_skipSpace_le cs
  rwa [h] at hle

/-- A key takes its characters and at least one more, its closing quote. -/
theorem length_lt_of_key? (h : key? fuel cs = some (key, rest)) :
    key.length + rest.length < cs.length := by
  unfold key? at h
  split at h
  · next hquote =>
    have hfront := length_lt_of_skipSpace hquote
    split at h
    · cases h
    · next hkey =>
      have hstring := length_lt_of_stringTail hkey
      rw [List.length_nil] at hstring
      split at h
      · next hcolon =>
        have hback := length_lt_of_skipSpace hcolon
        cases h
        omega
      · cases h
  · cases h

/-- A word takes at least as many characters as its value weighs. -/
theorem weight_le_of_word? {word : String} {v : Json} (hv : v.weight = 1)
    (h : word? word v cs = some (json, rest)) : json.weight + rest.length ≤ cs.length + 1 := by
  obtain ⟨rest', hrest, he⟩ := Option.map_eq_some_iff.1 h
  cases he
  have hle := Text.length_le_of_stripStart? hrest
  omega

/-- An object weighs no more than its pairs, of which those with repeated keys are dropped. -/
theorem weight_le_of_object? {pairs : List (String × Json)} (h : keys.object? pairs = some json) :
    json.weight ≤ 1 + weightMembers pairs := by
  cases keys with
  | lastStands =>
    obtain rfl := Option.some.inj h
    exact weight_ofPairs_le pairs
  | distinct =>
    obtain ⟨-, h⟩ := Option.ite_none_right_eq_some.1 h
    obtain rfl := Option.some.inj h
    exact weight_ofPairs_le pairs

/-! ## Reading values -/

/-- Reading with so much fuel gives values that are not longer than what was read. -/
structure Weighs (keys : Keys) (fuel : Nat) : Prop where
  value {depth : Nat} {cs rest : List Char} {json : Json}
    (h : value keys fuel depth cs = some (json, rest)) : json.weight + rest.length ≤ cs.length
  elements {depth : Nat} {cs rest : List Char} {items : List Json}
    (h : elements keys fuel depth cs = some (items, rest)) :
    weightItems items + rest.length < cs.length
  members {depth : Nat} {cs rest : List Char} {pairs : List (String × Json)}
    (h : members keys fuel depth cs = some (pairs, rest)) :
    weightMembers pairs + rest.length < cs.length

/-- One more step of reading a value keeps the bound. -/
theorem Weighs.value_succ (ih : Weighs keys fuel)
    (h : Reader.value keys (fuel + 1) depth cs = some (json, rest)) :
    json.weight + rest.length ≤ cs.length := by
  rw [Reader.value] at h
  split at h
  · cases h
  · next hs => exact (weight_le_of_word? rfl h).trans (length_lt_of_skipSpace hs)
  · next hs => exact (weight_le_of_word? rfl h).trans (length_lt_of_skipSpace hs)
  · next hs => exact (weight_le_of_word? rfl h).trans (length_lt_of_skipSpace hs)
  · next hs =>
    -- a string weighs one more than its length, and so much is its opening quote
    have hfront := length_lt_of_skipSpace hs
    obtain ⟨⟨s, rest'⟩, hstring, he⟩ := Option.map_eq_some_iff.1 h
    cases he
    have hlength := length_lt_of_stringTail hstring
    rw [List.length_nil] at hlength
    rw [weight]
    omega
  · next inside hs =>
    -- an array, empty or not
    have hfront := length_lt_of_skipSpace hs
    split at h
    · cases h
    · split at h
      · next hend =>
        have hback := length_lt_of_skipSpace hend
        cases h
        simp only [weight, weightItems]
        omega
      · obtain ⟨⟨items, rest'⟩, hitems, he⟩ := Option.map_eq_some_iff.1 h
        cases he
        have hlength := ih.elements hitems
        have hskip := length_skipSpace_le inside
        rw [weight]
        omega
  · next inside hs =>
    -- an object, empty or not
    have hfront := length_lt_of_skipSpace hs
    split at h
    · cases h
    · split at h
      · next hend =>
        have hback := length_lt_of_skipSpace hend
        cases h
        simp only [weight, weightMembers]
        omega
      · split at h
        · cases h
        · next hmembers =>
          obtain ⟨object, hobject, he⟩ := Option.map_eq_some_iff.1 h
          cases he
          have hlength := ih.members hmembers
          have hweight := weight_le_of_object? hobject
          have hskip := length_skipSpace_le inside
          omega
  · -- a number
    obtain ⟨⟨n, rest'⟩, hn, he⟩ := Option.map_eq_some_iff.1 h
    cases he
    have hlength := Number.length_lt_of_read? hn
    have hskip := length_skipSpace_le cs
    rw [weight]
    omega

/-- One more step of reading elements keeps the bound. -/
theorem Weighs.elements_succ {items : List Json} (ih : Weighs keys fuel)
    (h : Reader.elements keys (fuel + 1) depth cs = some (items, rest)) :
    weightItems items + rest.length < cs.length := by
  rw [Reader.elements] at h
  split at h
  · cases h
  · next hitem =>
    have hfirst := ih.value hitem
    split at h
    · next hend =>
      have hback := length_lt_of_skipSpace hend
      cases h
      simp only [weightItems]
      omega
    · next hcomma =>
      have hback := length_lt_of_skipSpace hcomma
      obtain ⟨⟨items, rest'⟩, hitems, he⟩ := Option.map_eq_some_iff.1 h
      cases he
      have hlater := ih.elements hitems
      rw [weightItems]
      omega
    · cases h

/-- One more step of reading members keeps the bound. -/
theorem Weighs.members_succ {pairs : List (String × Json)} (ih : Weighs keys fuel)
    (h : Reader.members keys (fuel + 1) depth cs = some (pairs, rest)) :
    weightMembers pairs + rest.length < cs.length := by
  rw [Reader.members] at h
  split at h
  · cases h
  · next hkey =>
    have hname := length_lt_of_key? hkey
    split at h
    · cases h
    · next hitem =>
      have hfirst := ih.value hitem
      split at h
      · next hend =>
        have hback := length_lt_of_skipSpace hend
        cases h
        simp only [weightMembers]
        omega
      · next hcomma =>
        have hback := length_lt_of_skipSpace hcomma
        obtain ⟨⟨pairs, rest'⟩, hpairs, he⟩ := Option.map_eq_some_iff.1 h
        cases he
        have hlater := ih.members hpairs
        rw [weightMembers]
        omega
      · cases h

/-- Whatever the fuel, what is read is not heavier than its text is long. -/
theorem weighs (keys : Keys) (fuel : Nat) : Weighs keys fuel := by
  induction fuel with
  | zero =>
    refine ⟨fun h => ?_, fun h => ?_, fun h => ?_⟩
    · simp [value] at h
    · simp [elements] at h
    · simp [members] at h
  | succ fuel ih => exact ⟨ih.value_succ, ih.elements_succ, ih.members_succ⟩

end Json.Reader

/-! ## Generic data and parts of texts -/

/-- Trimming does not lengthen a text. -/
theorem Text.length_trim_le (text : String) : (trim text).length ≤ text.length := by
  rw [trim, String.length_ofList]
  exact length_trimChars_le _

/-- What is read of a text as generic data weighs no more than the text as a string. -/
theorem Value.weight_ofText_le (text : String) : (ofText text).weight ≤ 1 + text.length := by
  have hstring : (string text).weight ≤ 1 + text.length := Nat.le_refl _
  unfold ofText
  dsimp only
  split
  · split
    · exact hstring
    · next json hread =>
      split
      · next v hv =>
        unfold Json.read? at hread
        dsimp only at hread
        split at hread
        · next hvalue =>
          obtain ⟨-, he⟩ := Option.ite_none_right_eq_some.1 hread
          cases he
          have hweight := (Json.Reader.weighs _ _).value hvalue
          have htrim := Text.length_trim_le text
          rw [String.length_toList] at hweight
          rw [weight_of_ofJson hv]
          omega
        · cases hread
      · exact hstring
  · exact hstring

/-- The parts of a split text are not longer than the text. -/
theorem Text.length_le_of_mem_splitAll {sep : Char} {cs part : List Char}
    (h : part ∈ splitAll sep cs) : part.length ≤ cs.length := by
  induction cs generalizing part with
  | nil =>
    obtain rfl := List.mem_singleton.1 h
    exact Nat.le_refl _
  | cons c rest ih =>
    rw [splitAll] at h
    split at h
    · rcases List.mem_cons.1 h with rfl | h
      · exact Nat.zero_le _
      · exact (ih h).trans (Nat.le_succ _)
    · split at h
      · obtain rfl := List.mem_singleton.1 h
        exact Nat.succ_le_succ (Nat.zero_le _)
      · next first parts hs =>
        rcases List.mem_cons.1 h with rfl | h
        · exact Nat.succ_le_succ (ih (hs ▸ List.mem_cons_self))
        · exact (ih (hs ▸ List.mem_cons_of_mem _ h)).trans (Nat.le_succ _)

/-- The items of a text are not longer than the text. -/
theorem Engine.length_le_of_mem_csvItems {text item : String} (h : item ∈ csvItems text) :
    item.length ≤ text.length := by
  unfold csvItems at h
  split at h
  · cases h
  · obtain ⟨part, hpart, rfl⟩ := List.mem_map.1 h
    rw [String.length_ofList]
    exact (Text.length_trimChars_le part).trans (Text.length_le_of_mem_splitAll hpart)

/-- The plain name of a key is not longer than the key. -/
theorem Key.length_base_le (key : String) : (base key).length ≤ key.length := by
  unfold base
  split
  · rw [String.length_ofList, List.length_dropLast]
    exact Nat.sub_le _ _
  · exact Nat.le_refl _

end DataContract
