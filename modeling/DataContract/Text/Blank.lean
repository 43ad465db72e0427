/-!
# Blank characters

The characters with the Unicode property White_Space, and the trimming of texts by it. Trimming is
defined on lists of characters, where it is two `dropWhile`s, and lifted to strings.
-/

namespace DataContract

namespace Text

/-- The character has the Unicode property White_Space. -/
def isBlank (c : Char) : Bool :=
  let n := c.toNat
  (9 ≤ n && n ≤ 13) || n = 0x20 || n = 0x85 || n = 0xA0 || n = 0x1680 ||
    (0x2000 ≤ n && n ≤ 0x200A) || n = 0x2028 || n = 0x2029 || n = 0x202F || n = 0x205F ||
    n = 0x3000

/-- The characters without the blank ones at the front. -/
def trimFront (cs : List Char) : List Char :=
  cs.dropWhile isBlank

/-- The characters without the blank ones at the end. -/
def trimBack (cs : List Char) : List Char :=
  (trimFront cs.reverse).reverse

/-- The characters without the blank ones at either end. -/
def trimChars (cs : List Char) : List Char :=
  trimBack (trimFront cs)

/-- The text without the blank characters at either end. -/
def trim (s : String) : String :=
  String.ofList (trimChars s.toList)

/-- The text has no character that is not blank. -/
def isAllBlank (s : String) : Bool :=
  s.toList.all isBlank

/-- Trimming the front makes no text longer. -/
theorem length_trimFront_le (cs : List Char) : (trimFront cs).length ≤ cs.length :=
  (List.dropWhile_sublist isBlank).length_le

/-- Trimming the back makes no text longer. -/
theorem length_trimBack_le (cs : List Char) : (trimBack cs).length ≤ cs.length := by
  simpa [trimBack] using length_trimFront_le cs.reverse

/-- Trimming never makes a text longer. -/
theorem length_trimChars_le (cs : List Char) : (trimChars cs).length ≤ cs.length :=
  Nat.le_trans (length_trimBack_le _) (length_trimFront_le cs)

/-- A trimmed text does not start with a blank character. -/
theorem head?_trimFront {cs : List Char} {c : Char} (h : (trimFront cs).head? = some c) :
    isBlank c = false := by
  induction cs with
  | nil => simp [trimFront] at h
  | cons d rest ih =>
    by_cases hd : isBlank d
    · exact ih (by simpa [trimFront, hd] using h)
    · have : d = c := by simpa [trimFront, hd] using h
      simpa [this] using hd

/-- A text that does not begin with a blank character keeps its front. -/
theorem trimFront_of_head? {cs : List Char} (h : ∀ c, cs.head? = some c → isBlank c = false) :
    trimFront cs = cs := by
  cases cs with
  | nil => rfl
  | cons c cs => simp [trimFront, h c rfl]

/-- A text that neither starts nor ends with a blank character is trimmed. -/
theorem trimChars_of_ends {cs : List Char} (hhead : ∀ c, cs.head? = some c → isBlank c = false)
    (hlast : ∀ c, cs.getLast? = some c → isBlank c = false) : trimChars cs = cs := by
  have hback : trimFront cs.reverse = cs.reverse :=
    trimFront_of_head? fun c hc => hlast c (by rwa [← List.head?_reverse])
  rw [trimChars, trimFront_of_head? hhead, trimBack, hback, List.reverse_reverse]

/-- What is left after trimming the back is the beginning of the text. -/
theorem trimBack_prefix_self (cs : List Char) : trimBack cs <+: cs := by
  have h : trimFront cs.reverse <:+ cs.reverse := List.dropWhile_suffix _
  simpa [trimBack] using List.reverse_prefix.2 h

/-- A trimmed text does not begin with a blank character. -/
theorem head?_trimChars {cs : List Char} {c : Char} (h : (trimChars cs).head? = some c) :
    isBlank c = false := by
  obtain ⟨rest, hrest⟩ := trimBack_prefix_self (trimFront cs)
  have hfront : (trimFront cs).head? = some c := by
    rw [← hrest, List.head?_append, ← trimChars, h]
    rfl
  exact head?_trimFront hfront

/-- A trimmed text does not end with a blank character. -/
theorem getLast?_trimChars {cs : List Char} {c : Char} (h : (trimChars cs).getLast? = some c) :
    isBlank c = false := by
  rw [trimChars, trimBack, List.getLast?_reverse] at h
  exact head?_trimFront h

/-- What is trimmed stays as it is. -/
@[simp] theorem trimChars_trimChars (cs : List Char) : trimChars (trimChars cs) = trimChars cs :=
  trimChars_of_ends (fun _ => head?_trimChars) fun _ => getLast?_trimChars

/-- A text is trimmed if a beginning of it is and its end is not blank. -/
theorem trimChars_append {front back : List Char} {c : Char} (hne : front ≠ [])
    (hfront : trimChars front = front) (hback : back.getLast? = some c)
    (hc : isBlank c = false) : trimChars (front ++ back) = front ++ back := by
  refine trimChars_of_ends (fun d hd => ?_) fun d hd => ?_
  · obtain ⟨first, rest, rfl⟩ := List.exists_cons_of_ne_nil hne
    obtain rfl : first = d := Option.some_inj.1 hd
    exact head?_trimChars (congrArg List.head? hfront)
  · rw [List.getLast?_append, hback] at hd
    obtain rfl : c = d := Option.some_inj.1 hd
    exact hc

/-- Trimming adds no character. -/
theorem mem_of_mem_trimChars {cs : List Char} {c : Char} (h : c ∈ trimChars cs) : c ∈ cs :=
  (List.dropWhile_suffix isBlank).mem ((trimBack_prefix_self _).mem h)

/-- Trimming takes away none but blank characters. -/
theorem mem_trimFront {cs : List Char} {c : Char} (h : c ∈ cs) (hc : isBlank c = false) :
    c ∈ trimFront cs := by
  induction cs with
  | nil => cases h
  | cons d cs ih =>
    rw [trimFront, List.dropWhile_cons]
    split
    · next hd =>
      cases h with
      | head => simp [hc] at hd
      | tail _ h => exact ih h
    · exact h

/-- Trimming takes blank characters away and no others. -/
theorem mem_trimChars {cs : List Char} {c : Char} (h : c ∈ cs) (hc : isBlank c = false) :
    c ∈ trimChars cs :=
  List.mem_reverse.2 (mem_trimFront (List.mem_reverse.2 (mem_trimFront h hc)) hc)

end Text

end DataContract
