/-!
# Cutting texts

Cuts at a character and strips of a fixed ending, over lists of characters. A cut loses nothing but
the character it is made at, and a strip nothing but the ending.
-/

namespace DataContract

namespace Text

/-- The parts before and after the first character that `p` accepts. -/
def splitOnce (p : Char → Bool) : List Char → Option (List Char × List Char)
  | [] => none
  | c :: rest =>
    if p c then some ([], rest)
    else (splitOnce p rest).map fun (before, after) => (c :: before, after)

/-- The parts between the occurrences of a character, one more than it occurs. -/
def splitAll (sep : Char) : List Char → List (List Char)
  | [] => [[]]
  | c :: rest =>
    if c = sep then [] :: splitAll sep rest
    else match splitAll sep rest with
      | [] => [[c]]
      | part :: parts => (c :: part) :: parts

/-- What stands before a fixed ending. -/
def stripEnd? (ending cs : List Char) : Option (List Char) :=
  if ending.isSuffixOf cs then some (cs.take (cs.length - ending.length)) else none

/-- What stands after a fixed beginning. -/
def stripStart? : List Char → List Char → Option (List Char)
  | [], cs => some cs
  | _ :: _, [] => none
  | b :: beginning, c :: cs => if b = c then stripStart? beginning cs else none

/-- The letters A to Z as small letters; every other character as it is. -/
def lowerAscii (s : String) : String :=
  String.ofList (s.toList.map Char.toLower)

/-- The digit that an ASCII character stands for. -/
def digit? (c : Char) : Option Nat :=
  if '0' ≤ c && c ≤ '9' then some (c.toNat - 48) else none

/-- The value of a hexadecimal digit of either case. -/
def hexDigit? (c : Char) : Option Nat :=
  if '0' ≤ c && c ≤ '9' then some (c.toNat - 48)
  else if 'a' ≤ c && c ≤ 'f' then some (c.toNat - 87)
  else if 'A' ≤ c && c ≤ 'F' then some (c.toNat - 55)
  else none

/-- The number written by a non-empty row of ASCII digits. -/
def digits? (cs : List Char) : Option Nat :=
  if cs.isEmpty then none
  else cs.foldl (fun n c => do return (← n) * 10 + (← digit? c)) (some 0)

/-- A number below `limit` written in digits after at most one plus sign. -/
def boundedNat? (limit : Nat) (cs : List Char) : Option Nat :=
  let cs := match cs with
    | '+' :: rest => rest
    | _ => cs
  (digits? cs).filter (· < limit)

/-- A text is split at the first character that has the property. -/
theorem splitOnce_eq_some {p : Char → Bool} {cs before after : List Char}
    (h : splitOnce p cs = some (before, after)) :
    ∃ c, p c ∧ cs = before ++ c :: after ∧ ∀ d ∈ before, p d = false := by
  induction cs generalizing before with
  | nil => simp [splitOnce] at h
  | cons c rest ih =>
    by_cases hc : p c
    · obtain ⟨rfl, rfl⟩ : [] = before ∧ rest = after := by simpa [splitOnce, hc] using h
      exact ⟨c, hc, rfl, by simp⟩
    · simp only [splitOnce, hc] at h
      obtain ⟨⟨b, a⟩, hs, he⟩ := Option.map_eq_some_iff.1 h
      obtain ⟨rfl, rfl⟩ : c :: b = before ∧ a = after := by simpa using he
      obtain ⟨d, hd, rfl, hall⟩ := ih hs
      exact ⟨d, hd, rfl, by simpa [hc] using hall⟩

/-- There is no cut where there is no character to make it at. -/
theorem splitOnce_eq_none_iff {p : Char → Bool} {cs : List Char} :
    splitOnce p cs = none ↔ ∀ c ∈ cs, p c = false := by
  induction cs with
  | nil => simp [splitOnce]
  | cons c rest ih =>
    by_cases hc : p c
    · simp [splitOnce, hc]
    · simp [splitOnce, hc, ih]

/-- A cut is made at the first character that `p` accepts. -/
theorem splitOnce_append {p : Char → Bool} {cs : List Char} {c : Char}
    (h : ∀ d ∈ cs, p d = false) (hc : p c = true) (rest : List Char) :
    splitOnce p (cs ++ c :: rest) = some (cs, rest) := by
  induction cs with
  | nil => simp [splitOnce, hc]
  | cons d cs ih =>
    have hd := h d List.mem_cons_self
    rw [List.cons_append, splitOnce, if_neg (by simp [hd]),
      ih fun x hx => h x (List.mem_cons_of_mem _ hx)]
    rfl

/-- What stands before an ending is followed by the ending. -/
theorem stripEnd?_eq_some_iff {ending cs out : List Char} :
    stripEnd? ending cs = some out ↔ cs = out ++ ending := by
  unfold stripEnd?
  constructor
  · intro h
    split at h
    · next hs =>
      obtain ⟨before, rfl⟩ := List.isSuffixOf_iff_suffix.1 hs
      simp only [List.length_append, Nat.add_sub_cancel, List.take_left, Option.some_inj] at h
      rw [h]
    · cases h
  · rintro rfl
    rw [if_pos (List.isSuffixOf_iff_suffix.2 (List.suffix_append _ _))]
    simp

end Text

end DataContract
