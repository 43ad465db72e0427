import DataContract.Pattern.Shape
import DataContract.Pattern.Token
import DataContract.Proofs.Outcomes
import DataContract.Proofs.Resolution
import DataContract.Proofs.Tokens.Grammar

/-!
# Tokens are decoded by their grammar

The reading of a token takes the text apart from the outside in, in a fixed order of what it looks
for. `Token.denote_eq_ok_iff` says that the order does not matter: what is read from a text is what
the expressions that spell it denote. As an expression is spelled by the text that it is written as,
it is read back from there, and a text that is read at all spells an expression
(`Pattern.ofText_token`).
-/

namespace DataContract

namespace Token

variable {whole word : String} {n : Nat} {cs body before after : List Char} {s : Suffix}
  {p : Pattern}

/-! ## Keywords and names -/

/-- The words that the parser knows are those of the table. -/
theorem builtin?_eq_get? (word : String) : builtin? word = Fields.get? keywords word := by
  simp only [builtin?, keywords, Fields.get?_cons, Fields.get?_nil, Bool.or_eq_true,
    decide_eq_true_eq, ite_or]

/-- A word is built in for a pattern where the table says so. -/
theorem builtin?_eq_some_iff : builtin? word = some p ↔ (word, p) ∈ keywords := by
  have hd : (Fields.names keywords).Nodup := by decide
  rw [builtin?_eq_get?]
  exact Fields.get?_eq_some_iff hd

/-- A word that is not in the table is not built in. -/
theorem builtin?_eq_none_iff : builtin? word = none ↔ ∀ k ∈ keywords, k.1 ≠ word := by
  rw [builtin?_eq_get?, Fields.get?_eq_none, Fields.names, List.mem_map]
  constructor
  · intro h k hk he
    exact h ⟨k, hk, he⟩
  · rintro h ⟨k, hk, he⟩
    exact h k hk he

/-- The characters that are read as a name are those of names. -/
theorem isNameChar_iff {c : Char} : isNameChar c = true ↔ InNames c := by
  simp [isNameChar, InNames, or_assoc]

/-- The ending that is looked for first is that of an encoded type. -/
theorem inStringEnding_eq : inStringEnding = Suffix.inString.ending :=
  rfl

/-- The name of a reference is kept in parentheses. -/
theorem named_chars (name : TypeName) :
    Pattern.named (String.ofList name.chars) = (TypeExpr.name name).pattern := by
  have hopen : Name.isDelimited name.chars = false := by
    refine Bool.eq_false_iff.2 fun h => ?_
    simp only [Name.isDelimited, Bool.and_eq_true, decide_eq_true_eq] at h
    exact name.not_mem (by decide) (List.mem_of_mem_head? h.1.2)
  rw [Pattern.named, Name.delimited, String.toList_ofList, name.trimmed]
  simp only [hopen]
  rfl

/-- Without suffixes a trimmed text is a keyword, a name, or nothing. -/
theorem base_eq_ok_iff (hne : cs ≠ []) (htrim : Text.trimChars cs = cs)
    (hsuffix : ∀ (s : Suffix) body, cs ≠ body ++ s.ending) :
    base whole cs = .ok p ↔
      (∃ k : Keyword, k.word.toList = cs ∧ k.pattern = p) ∨
        ∃ name : TypeName, name.chars = cs ∧ (TypeExpr.name name).pattern = p := by
  unfold base
  constructor
  · intro h
    split at h
    · next q hq =>
      cases h
      exact .inl ⟨⟨_, _, builtin?_eq_some_iff.1 hq⟩, String.toList_ofList, rfl⟩
    · next hq =>
      split at h
      · next hmade =>
        have hkeyword : ∀ k ∈ keywords, k.1.toList ≠ cs := by
          rintro k hk rfl
          exact builtin?_eq_none_iff.1 hq k hk String.ofList_toList.symm
        have hnames : ∀ c ∈ cs, InNames c :=
          fun c hc => isNameChar_iff.1 (List.all_eq_true.1 hmade c hc)
        have hrest : ¬ Suffix.rest.ending <:+ cs := fun ⟨body, h⟩ => hsuffix .rest body h.symm
        have hin : ¬ Suffix.inString.ending <:+ cs :=
          fun ⟨body, h⟩ => hsuffix .inString body h.symm
        cases h
        exact .inr ⟨⟨cs, hne, htrim, hnames, hkeyword, hrest, hin⟩, rfl, (named_chars _).symm⟩
      · cases h
  · rintro (⟨k, rfl, rfl⟩ | ⟨name, rfl, rfl⟩)
    · rw [String.ofList_toList, builtin?_eq_some_iff.2 k.listed]
    · have hbuiltin : builtin? (String.ofList name.chars) = none := by
        refine builtin?_eq_none_iff.2 fun k hk he => name.notKeyword k hk ?_
        rw [he, String.toList_ofList]
      rw [hbuiltin]
      dsimp only
      rw [if_pos (List.all_eq_true.2 fun c hc => isNameChar_iff.2 (name.made c hc)), named_chars]

/-! ## Suffixes -/

/-- What is read as a suffix, and what stands before it. -/
def strip? (cs : List Char) : Option (Suffix × List Char) :=
  [Suffix.inString, .nullable, .rest, .list].findSome? fun s =>
    (Text.stripEnd? s.ending cs).map (s, ·)

/-- What is read as a suffix is the end of the text. -/
theorem eq_append_of_strip? (h : strip? cs = some (s, body)) : cs = body ++ s.ending := by
  obtain ⟨t, -, ht⟩ := List.exists_of_findSome?_eq_some h
  obtain ⟨rest, hrest, he⟩ := Option.map_eq_some_iff.1 ht
  cases he
  exact Text.stripEnd?_eq_some_iff.1 hrest

/-- A text that no suffix is read from has none. -/
theorem ne_append_of_strip? (h : strip? cs = none) (s : Suffix) (body : List Char) :
    cs ≠ body ++ s.ending := by
  intro he
  have hs := List.findSome?_eq_none_iff.1 h s (by cases s <;> simp)
  rw [Text.stripEnd?_eq_some_iff.2 he] at hs
  cases hs

/-! ## Reading -/

/-- A text with a colon denotes a lookup of the key before it, which must not be blank. -/
theorem denote_lookup (hne : Text.trimChars cs ≠ [])
    (h : Text.splitOnce (· = ':') (Text.trimChars cs) = some (before, after)) :
    denote whole (n + 1) cs =
      if (Text.trimChars before).isEmpty then .error (.token whole "row lookup needs a key name")
      else (denote whole n after).map (.lookup (String.ofList (Text.trimChars before))) := by
  rw [denote]
  dsimp only
  rw [if_neg (by simpa using hne), h]

/-- A text without a colon denotes what its suffix makes of the rest, or a base type. -/
theorem denote_type (hne : Text.trimChars cs ≠ [])
    (h : Text.splitOnce (· = ':') (Text.trimChars cs) = none) :
    denote whole (n + 1) cs =
      match strip? (Text.trimChars cs) with
      | some (s, body) => (denote whole n body).map s.wrap
      | none => base whole (Text.trimChars cs) := by
  rw [denote]
  dsimp only
  rw [if_neg (by simpa using hne), h]
  rw [inStringEnding_eq, strip?]
  simp only [List.findSome?_cons, List.findSome?_nil]
  cases Text.stripEnd? Suffix.inString.ending (Text.trimChars cs) with
  | some body => rfl
  | none =>
    dsimp only [Suffix.ending, Option.map_none]
    cases Text.stripEnd? ['?'] (Text.trimChars cs) with
    | some body => rfl
    | none =>
      cases Text.stripEnd? ['.', '.', '.'] (Text.trimChars cs) with
      | some body => rfl
      | none => cases Text.stripEnd? ['*'] (Text.trimChars cs) <;> rfl

/-- What stands before a suffix is shorter than the text. -/
theorem length_lt_of_append (h : Text.trimChars cs = body ++ s.ending) :
    body.length < cs.length := by
  have hlength := congrArg List.length h
  have hending := List.length_pos_of_ne_nil s.ending_ne_nil
  have htrim := Text.length_trimChars_le cs
  rw [List.length_append] at hlength
  omega

/-- What stands behind a character is shorter than the text. -/
theorem length_lt_of_cut {c : Char} (h : Text.trimChars cs = before ++ c :: after) :
    after.length < cs.length := by
  have hlength := congrArg List.length h
  have htrim := Text.length_trimChars_le cs
  rw [List.length_append, List.length_cons] at hlength
  omega

/-- A type that is spelled with a suffix at its end has that suffix. -/
theorem TypeExpr.Spells.of_append {e : TypeExpr} (h : e.Spells cs)
    (happend : Text.trimChars cs = body ++ s.ending) :
    ∃ e' : TypeExpr, e = .suffixed s e' ∧ e'.Spells body := by
  cases h with
  | @keyword k _ h => exact absurd (h.symm.trans happend) (k.ne_append s body)
  | @name name _ h => exact absurd (h.symm.trans happend) (name.ne_append s body)
  | @suffixed t e' _ rest h hrest =>
    obtain ⟨rfl, rfl⟩ := Suffix.eq_of_append (h.symm.trans happend)
    exact ⟨e', rfl, hrest⟩

/-- Without a suffix at its end the types that a text spells are keywords and names. -/
theorem TypeExpr.exists_spells_iff
    (hsuffix : ∀ (s : Suffix) body, Text.trimChars cs ≠ body ++ s.ending) :
    (∃ e : TypeExpr, e.Spells cs ∧ e.pattern = p) ↔
      (∃ k : Keyword, k.word.toList = Text.trimChars cs ∧ k.pattern = p) ∨
        ∃ name : TypeName, name.chars = Text.trimChars cs ∧ (TypeExpr.name name).pattern = p := by
  constructor
  · rintro ⟨e, he, rfl⟩
    cases he with
    | keyword h => exact .inl ⟨_, h.symm, rfl⟩
    | name h => exact .inr ⟨_, h.symm, rfl⟩
    | suffixed h _ => exact absurd h (hsuffix _ _)
  · rintro (⟨k, hk, rfl⟩ | ⟨name, hname, rfl⟩)
    · exact ⟨.keyword k, .keyword hk.symm, rfl⟩
    · exact ⟨.name name, .name hname.symm, rfl⟩

/-- What is read from a text without colons is what the types that it spells denote. The induction
is on the steps: what stands before a suffix is shorter, and has no colon either. -/
theorem denote_eq_ok_iff_of_noColon (hcolon : ':' ∉ Text.trimChars cs) (hn : cs.length < n) :
    denote whole n cs = .ok p ↔ ∃ e : TypeExpr, e.Spells cs ∧ e.pattern = p := by
  induction n generalizing cs p with
  | zero => omega
  | succ n ih =>
    by_cases hne : Text.trimChars cs = []
    · constructor
      · intro h
        simp [denote, hne] at h
      · rintro ⟨e, he, -⟩
        exact absurd hne he.trimChars_ne_nil
    · have hcut : Text.splitOnce (· = ':') (Text.trimChars cs) = none :=
        Text.splitOnce_eq_none_iff.2 fun c hc => decide_eq_false fun he => hcolon (he ▸ hc)
      rw [denote_type hne hcut]
      cases hstrip : strip? (Text.trimChars cs) with
      | none =>
        rw [TypeExpr.exists_spells_iff (ne_append_of_strip? hstrip)]
        exact base_eq_ok_iff hne (Text.trimChars_trimChars cs) (ne_append_of_strip? hstrip)
      | some result =>
        obtain ⟨s, body⟩ := result
        have happend := eq_append_of_strip? hstrip
        have hbody : ':' ∉ Text.trimChars body := fun hmem =>
          hcolon (happend ▸ List.mem_append_left _ (Text.mem_of_mem_trimChars hmem))
        have hlength : body.length < n :=
          Nat.lt_of_lt_of_le (length_lt_of_append happend) (Nat.le_of_lt_succ hn)
        rw [map_eq_ok]
        constructor
        · rintro ⟨q, hq, rfl⟩
          obtain ⟨e, he, rfl⟩ := (ih hbody hlength).1 hq
          exact ⟨.suffixed s e, .suffixed happend he, rfl⟩
        · rintro ⟨e, he, rfl⟩
          obtain ⟨e', rfl, he'⟩ := he.of_append happend
          exact ⟨e'.pattern, (ih hbody hlength).2 ⟨e', he', rfl⟩, rfl⟩

/-- A text that trims to a row key has no colon. -/
theorem RowKey.noColon_of_trimChars {key : RowKey} (h : Text.trimChars before = key.chars) :
    ∀ c ∈ before, decide (c = ':') = false := by
  intro c hc
  refine decide_eq_false ?_
  rintro rfl
  exact key.noColon (h ▸ Text.mem_trimChars hc (by decide))

/-- An expression that is spelled with a colon looks rows up under what stands before the first
one. -/
theorem Expr.Spells.of_splitOnce {e : Expr} (h : e.Spells cs)
    (hcut : Text.splitOnce (· = ':') (Text.trimChars cs) = some (before, after)) :
    ∃ (key : RowKey) (e' : Expr), e = .lookup key e' ∧ Text.trimChars before = key.chars ∧
      e'.Spells after := by
  cases h with
  | @type e _ h =>
    obtain ⟨c, hc, he, -⟩ := Text.splitOnce_eq_some hcut
    obtain rfl := of_decide_eq_true hc
    exact absurd (he ▸ by simp) h.noColon
  | @lookup key e' _ front rest h hkey hrest =>
    rw [h, Text.splitOnce_append (RowKey.noColon_of_trimChars hkey) (decide_eq_true rfl)] at hcut
    cases hcut
    exact ⟨key, e', rfl, hkey, hrest⟩

/-- What is read from a text with a colon, if that is so for what stands behind the first one. -/
theorem denote_lookup_eq_ok_iff
    (hcut : Text.splitOnce (· = ':') (Text.trimChars cs) = some (before, after))
    (hafter : ∀ q, denote whole n after = .ok q ↔ ∃ e : Expr, e.Spells after ∧ e.pattern = q) :
    denote whole (n + 1) cs = .ok p ↔ ∃ e : Expr, e.Spells cs ∧ e.pattern = p := by
  obtain ⟨c, hc, hparts, hbefore⟩ := Text.splitOnce_eq_some hcut
  obtain rfl := of_decide_eq_true hc
  rw [denote_lookup (by simp [hparts]) hcut]
  constructor
  · intro h
    split at h
    · cases h
    · next hkey =>
      obtain ⟨q, hq, rfl⟩ := map_eq_ok.1 h
      obtain ⟨e, he, rfl⟩ := (hafter q).1 hq
      have hcolon : ':' ∉ Text.trimChars before := fun hmem =>
        of_decide_eq_false (hbefore _ (Text.mem_of_mem_trimChars hmem)) rfl
      let key : RowKey :=
        ⟨Text.trimChars before, by simpa using hkey, Text.trimChars_trimChars before, hcolon⟩
      exact ⟨.lookup key e, .lookup hparts rfl he, rfl⟩
  · rintro ⟨e, he, rfl⟩
    obtain ⟨key, e', rfl, hkey, he'⟩ := he.of_splitOnce hcut
    rw [if_neg (by simpa [hkey] using key.ne_nil), map_eq_ok, hkey]
    exact ⟨e'.pattern, (hafter _).2 ⟨e', he', rfl⟩, rfl⟩

/-- What is read from a text is what the expressions that it spells denote. -/
theorem denote_eq_ok_iff (hn : cs.length < n) :
    denote whole n cs = .ok p ↔ ∃ e : Expr, e.Spells cs ∧ e.pattern = p := by
  induction n generalizing cs p with
  | zero => omega
  | succ n ih =>
    cases hcut : Text.splitOnce (· = ':') (Text.trimChars cs) with
    | none =>
      have hcolon : ':' ∉ Text.trimChars cs := fun hmem =>
        of_decide_eq_false (Text.splitOnce_eq_none_iff.1 hcut _ hmem) rfl
      rw [denote_eq_ok_iff_of_noColon hcolon hn]
      constructor
      · rintro ⟨e, he, rfl⟩
        exact ⟨.type e, .type he, rfl⟩
      · rintro ⟨e, he, rfl⟩
        cases he with
        | type he => exact ⟨_, he, rfl⟩
        | lookup h _ _ => exact absurd (h ▸ by simp) hcolon
    | some result =>
      obtain ⟨before, after⟩ := result
      obtain ⟨c, hc, hparts, -⟩ := Text.splitOnce_eq_some hcut
      have hlength := length_lt_of_cut hparts
      exact denote_lookup_eq_ok_iff hcut fun q => ih (by omega)

end Token

/-! ## Texts -/

/-- Trimming does not make or unmake a token. -/
theorem Name.isToken_trim (text : String) : isToken (Text.trim text) = isToken text := by
  rw [isToken, Text.trim, String.toList_ofList, Text.trimChars_trimChars, isToken]

/-- Trimming does not change the inside of a token. -/
theorem Name.bareChars_trim (text : String) : bareChars (Text.trim text) = bareChars text := by
  rw [bareChars, Text.trim, String.toList_ofList, Text.trimChars_trimChars, bareChars]

/-- The inside of a text in parentheses is what they enclose. -/
theorem Name.bareChars_parentheses (cs : List Char) :
    bareChars (String.ofList ('(' :: (cs ++ [')']))) = cs := by
  have h := isDelimited_parentheses cs
  rw [bareChars, String.toList_ofList, trimChars_of_isDelimited h]
  simp [h]

/-- A trimmed text has nothing more to trim. -/
theorem Text.trim_trim (text : String) : trim (trim text) = trim text := by
  rw [trim, trim, String.toList_ofList, trimChars_trimChars]

namespace Pattern

variable {text : String} {p : Pattern}

/-- A token is read from what is inside of its parentheses. -/
theorem ofText_of_isToken (h : Name.isToken text = true) :
    ofText text =
      Token.denote (Text.trim text) ((Name.bareChars text).length + 1) (Name.bareChars text) := by
  rw [ofText, if_pos (by rw [Name.isToken_trim, h]), Token.parse, Text.trim_trim,
    Name.bareChars_trim]

/-- A token denotes a pattern where some expression of that pattern spells its inside. -/
theorem ofText_eq_ok_iff (h : Name.isToken text = true) :
    ofText text = .ok p ↔
      ∃ e : Token.Expr, e.Spells (Name.bareChars text) ∧ e.pattern = p := by
  rw [ofText_of_isToken h]
  exact Token.denote_eq_ok_iff (Nat.lt_succ_self _)

/-- Tokens are decoded by their grammar: every expression is read back from its text, and what is
read from a token is what the expressions that it spells denote, if there are any. -/
theorem ofText_token :
    (∀ e : Token.Expr, ofText e.text = .ok e.pattern) ∧
      ∀ text p, Name.isToken text = true →
        (ofText text = .ok p ↔
          ∃ e : Token.Expr, e.Spells (Name.bareChars text) ∧ e.pattern = p) := by
  refine ⟨fun e => ?_, fun text p h => ofText_eq_ok_iff h⟩
  have htoken : Name.isToken e.text = true := by
    have hparentheses := Name.isDelimited_parentheses e.render
    rw [Name.isToken, Token.Expr.text, String.toList_ofList,
      Name.trimChars_of_isDelimited hparentheses, hparentheses]
  refine (ofText_eq_ok_iff htoken).2 ⟨e, ?_, rfl⟩
  rw [Token.Expr.text, Name.bareChars_parentheses]
  exact e.spells_render

/-- Rows of encoded, optional order lines, written with blanks. -/
def orderLines : String := " ( id : Order Line ?... in string ) "

/-- Blanks and three suffixes around a name of two words are read as the expression says. -/
theorem orderLines_ofText :
    Name.isToken orderLines = true ∧
      ∃ e : Token.Expr, e.Spells (Name.bareChars orderLines) ∧
        e.pattern = .lookup "id" (.inString (.restOf (.nullable (.reference "(Order Line)")))) := by
  have htoken : Name.isToken orderLines = true := by decide
  exact ⟨htoken, (ofText_token.2 orderLines _ htoken).1 rfl⟩

end Pattern

end DataContract
