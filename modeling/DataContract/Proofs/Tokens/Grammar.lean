import DataContract.Pattern.Basic
import DataContract.Text.Alphanumeric
import DataContract.Text.Blank

/-!
# The grammar of pattern tokens

A type expression is a keyword or a name under any number of suffixes, and a token expression is a
type expression behind any number of row keys. What an expression is written as (`Expr.render`) and
what it denotes (`Expr.pattern`) follow its structure, without a parser: keywords, the characters of
names and the texts of suffixes are spelled out here. `Expr.Spells` admits the texts that write it
with blank characters around its parts.

Names exclude whatever would be read as something else, so an expression is what its text says: the
four endings end in four different characters (`Suffix.eq_of_append`), and neither a keyword nor a
name ends in any of them.
-/

namespace DataContract

namespace Token

/-! ## Expressions -/

/-- The built-in keywords and what they denote. -/
def keywords : List (String × Pattern) :=
  [("number", .number), ("integer", .scalar (.number .anyInteger)), ("string", .string),
    ("boolean", .boolean), ("null", .null), ("date", .scalar .date),
    ("datetime", .scalar .dateTime), ("uuid", .scalar .uuid), ("email", .scalar .email),
    ("base64", .scalar .base64), ("binary", .scalar .binary), ("empty", .scalar .emptyString),
    ("anything", .anything), ("anyvalue", .anything)]

/-- A keyword with its pattern. -/
structure Keyword where
  word : String
  pattern : Pattern
  listed : (word, pattern) ∈ keywords

/-- Names are made of letters and digits of any script, underscores, hyphens, points and spaces. -/
def InNames (c : Char) : Prop :=
  Text.isAlphanumeric c = true ∨ c ∈ ['_', '-', '.', ' ']

/-- A name of a pattern, as it may stand in a token. -/
structure TypeName where
  chars : List Char
  ne_nil : chars ≠ []
  trimmed : Text.trimChars chars = chars
  made : ∀ c ∈ chars, InNames c
  notKeyword : ∀ k ∈ keywords, k.1.toList ≠ chars
  notRest : ¬ ['.', '.', '.'] <:+ chars
  notInString : ¬ " in string".toList <:+ chars

/-- A key that rows are looked up under. -/
structure RowKey where
  chars : List Char
  ne_nil : chars ≠ []
  trimmed : Text.trimChars chars = chars
  noColon : ':' ∉ chars

/-- What can be put behind a type. -/
inductive Suffix where
  | nullable
  | rest
  | list
  | inString

/-- The text of a suffix. -/
def Suffix.ending : Suffix → List Char
  | .nullable => ['?']
  | .rest => ['.', '.', '.']
  | .list => ['*']
  | .inString => " in string".toList

/-- What a suffix makes of a pattern. -/
def Suffix.wrap : Suffix → Pattern → Pattern
  | .nullable => .nullable
  | .rest => .restOf
  | .list => .listOf
  | .inString => .inString

/-- A type: a keyword or a name with suffixes. -/
inductive TypeExpr where
  | keyword (k : Keyword)
  | name (n : TypeName)
  | suffixed (s : Suffix) (e : TypeExpr)

/-- The inside of a token: a type behind row keys. -/
inductive Expr where
  | type (e : TypeExpr)
  | lookup (key : RowKey) (e : Expr)

/-- The text of a type. -/
def TypeExpr.render : TypeExpr → List Char
  | .keyword k => k.word.toList
  | .name n => n.chars
  | .suffixed s e => e.render ++ s.ending

/-- The pattern of a type; a name is a reference in parentheses. -/
def TypeExpr.pattern : TypeExpr → Pattern
  | .keyword k => k.pattern
  | .name n => .reference (String.ofList ('(' :: (n.chars ++ [')'])))
  | .suffixed s e => s.wrap e.pattern

/-- The text inside a token. -/
def Expr.render : Expr → List Char
  | .type e => e.render
  | .lookup key e => key.chars ++ ':' :: e.render

/-- The token in parentheses. -/
def Expr.text (e : Expr) : String :=
  String.ofList ('(' :: (e.render ++ [')']))

/-- The pattern of a token. -/
def Expr.pattern : Expr → Pattern
  | .type e => e.pattern
  | .lookup key e => .lookup (String.ofList key.chars) e.pattern

/-- The text writes the type, with blank characters around the type and before its suffixes. -/
inductive TypeExpr.Spells : TypeExpr → List Char → Prop
  | keyword {k : Keyword} {cs : List Char} (h : Text.trimChars cs = k.word.toList) :
    Spells (.keyword k) cs
  | name {n : TypeName} {cs : List Char} (h : Text.trimChars cs = n.chars) : Spells (.name n) cs
  | suffixed {s : Suffix} {e : TypeExpr} {cs body : List Char}
    (h : Text.trimChars cs = body ++ s.ending) (hbody : Spells e body) : Spells (.suffixed s e) cs

/-- The text writes the token, with blank characters around its keys and its type. -/
inductive Expr.Spells : Expr → List Char → Prop
  | type {e : TypeExpr} {cs : List Char} (h : e.Spells cs) : Spells (.type e) cs
  | lookup {key : RowKey} {e : Expr} {cs before after : List Char}
    (h : Text.trimChars cs = before ++ ':' :: after) (hkey : Text.trimChars before = key.chars)
    (hafter : Spells e after) : Spells (.lookup key e) cs

/-! ## Suffixes -/

namespace Suffix

variable {s t : Suffix} {body other : List Char}

/-- The character that a suffix ends in. -/
def last : Suffix → Char
  | .nullable => '?'
  | .rest => '.'
  | .list => '*'
  | .inString => 'g'

/-- A text that ends in a suffix has the last character of the suffix. -/
theorem getLast?_append (s : Suffix) (body : List Char) :
    (body ++ s.ending).getLast? = some s.last := by
  rw [List.getLast?_append]
  cases s <;> rfl

/-- The last character tells the suffixes apart. -/
theorem eq_of_last (h : s.last = t.last) : s = t := by
  cases s <;> cases t <;> first | rfl | cases h

/-- A text with a suffix has only that one at its end. -/
theorem eq_of_append (h : body ++ s.ending = other ++ t.ending) : s = t ∧ body = other := by
  have hlast := getLast?_append s body
  rw [h, getLast?_append] at hlast
  obtain rfl := eq_of_last (Option.some_inj.1 hlast)
  exact ⟨rfl, List.append_cancel_right h⟩

/-- No suffix ends in a blank. -/
theorem isBlank_last (s : Suffix) : Text.isBlank s.last = false := by
  cases s <;> decide

/-- No suffix is empty. -/
theorem ending_ne_nil (s : Suffix) : s.ending ≠ [] := by
  cases s <;> decide

/-- No suffix has a colon. -/
theorem noColon (s : Suffix) : ':' ∉ s.ending := by
  cases s <;> decide

end Suffix

/-! ## What is written -/

/-- A keyword has no blanks around it. -/
theorem Keyword.trimmed (k : Keyword) : Text.trimChars k.word.toList = k.word.toList := by
  have h : ∀ m ∈ keywords, Text.trimChars m.1.toList = m.1.toList := by decide
  exact h (k.word, k.pattern) k.listed

/-- A keyword has no colon. -/
theorem Keyword.noColon (k : Keyword) : ':' ∉ k.word.toList := by
  have h : ∀ m ∈ keywords, ':' ∉ m.1.toList := by decide
  exact h (k.word, k.pattern) k.listed

/-- No keyword is empty. -/
theorem Keyword.ne_nil (k : Keyword) : k.word.toList ≠ [] := by
  have h : ∀ m ∈ keywords, m.1.toList ≠ [] := by decide
  exact h (k.word, k.pattern) k.listed

/-- A keyword does not end in a suffix. -/
theorem Keyword.ne_append (k : Keyword) (s : Suffix) (body : List Char) :
    k.word.toList ≠ body ++ s.ending := by
  have h : ∀ m ∈ keywords, ¬ s.ending <:+ m.1.toList := by
    cases s <;> decide
  exact fun he => h (k.word, k.pattern) k.listed ⟨body, he.symm⟩

instance (c : Char) : Decidable (InNames c) :=
  inferInstanceAs (Decidable (_ ∨ _))

/-- A type name has no character outside the alphabet of names. -/
theorem TypeName.not_mem (n : TypeName) {c : Char} (hc : ¬ InNames c) : c ∉ n.chars :=
  fun h => hc (n.made c h)

/-- A name does not end in a suffix: two of the endings are excluded, the others are not made of the
characters of names. -/
theorem TypeName.ne_append (n : TypeName) (s : Suffix) (body : List Char) :
    n.chars ≠ body ++ s.ending := by
  intro h
  have hlast : s.last ∈ n.chars := h ▸ List.mem_of_getLast? (s.getLast?_append body)
  cases s with
  | nullable => exact n.not_mem (by decide) hlast
  | rest => exact n.notRest ⟨body, h.symm⟩
  | list => exact n.not_mem (by decide) hlast
  | inString => exact n.notInString ⟨body, h.symm⟩

namespace TypeExpr

variable {e : TypeExpr} {cs : List Char}

/-- A type is never written as nothing. -/
theorem render_ne_nil (e : TypeExpr) : e.render ≠ [] := by
  cases e with
  | keyword k => exact k.ne_nil
  | name n => exact n.ne_nil
  | suffixed s e => exact List.append_ne_nil_of_right_ne_nil _ s.ending_ne_nil

/-- The text of a type starts with its keyword or its name and ends with that or with its last
suffix, so it is trimmed. -/
theorem trimChars_render (e : TypeExpr) : Text.trimChars e.render = e.render := by
  induction e with
  | keyword k => exact k.trimmed
  | name n => exact n.trimmed
  | suffixed s e ih =>
    exact Text.trimChars_append e.render_ne_nil ih (s.getLast?_append []) s.isBlank_last

/-- A type is spelled by its text. -/
theorem spells_render (e : TypeExpr) : e.Spells e.render := by
  induction e with
  | keyword k => exact .keyword k.trimmed
  | name n => exact .name n.trimmed
  | suffixed s e ih => exact .suffixed (trimChars_render (.suffixed s e)) ih

/-- What spells a type is not blank. -/
theorem Spells.trimChars_ne_nil (h : e.Spells cs) : Text.trimChars cs ≠ [] := by
  cases h with
  | @keyword k _ h => exact h ▸ k.ne_nil
  | @name n _ h => exact h ▸ n.ne_nil
  | @suffixed s _ _ _ h => exact h ▸ List.append_ne_nil_of_right_ne_nil _ s.ending_ne_nil

/-- What spells a type has no colon, blanks around it apart. -/
theorem Spells.noColon (h : e.Spells cs) : ':' ∉ Text.trimChars cs := by
  induction h with
  | @keyword k _ h => exact h ▸ k.noColon
  | @name n _ h => exact h ▸ n.not_mem (by decide)
  | @suffixed s _ _ body h _ ih =>
    rw [h, List.mem_append, not_or]
    exact ⟨fun hmem => ih (Text.mem_trimChars hmem (by decide)), s.noColon⟩

end TypeExpr

namespace Expr

/-- An expression is never written as nothing. -/
theorem render_ne_nil (e : Expr) : e.render ≠ [] := by
  cases e with
  | type e => exact e.render_ne_nil
  | lookup key e => exact List.append_ne_nil_of_right_ne_nil _ (List.cons_ne_nil _ _)

/-- A rendered expression has no blanks around it. -/
theorem trimChars_render (e : Expr) : Text.trimChars e.render = e.render := by
  induction e with
  | type e => exact e.trimChars_render
  | lookup key e ih =>
    have hlast := List.getLast?_eq_some_getLast e.render_ne_nil
    have hback : (':' :: e.render).getLast? = some (e.render.getLast e.render_ne_nil) := by
      rw [List.getLast?_cons, hlast]
      rfl
    exact Text.trimChars_append key.ne_nil key.trimmed hback
      (Text.getLast?_trimChars ((congrArg List.getLast? ih).trans hlast))

/-- Rendering an expression spells it. -/
theorem spells_render (e : Expr) : e.Spells e.render := by
  induction e with
  | type e => exact .type e.spells_render
  | lookup key e ih => exact .lookup (trimChars_render (.lookup key e)) key.trimmed ih

end Expr

end Token

end DataContract
