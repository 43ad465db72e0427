import DataContract.Pattern.Basic
import DataContract.Proofs.ValueEquality

/-!
# Equality of patterns

Patterns are equal if they are written alike, up to the writing of the numbers in them.
`Pattern.Same` reads one layer of that off the two patterns. Equality is an equivalence: it is
reflexive, and what equals one of two equal patterns equals the other (`Pattern.equal_eucl`), from
which symmetry and transitivity follow.
-/

namespace DataContract

/-! ## Data in patterns -/

instance equivBEqOfOption {α : Type} [BEq α] [EquivBEq α] : EquivBEq (Option α) where
  rfl {a} := by cases a <;> simp
  symm {a b} h := by
    cases a <;> cases b <;> simp at h ⊢
    exact BEq.symm h
  trans {a b c} h h' := by
    cases a <;> cases b <;> cases c <;> simp at h h' ⊢
    exact BEq.trans h h'

instance : EquivBEq Decimal where
  rfl {a} := a.equal_self
  symm := Decimal.equal_symm
  trans := Decimal.equal_trans

/-- Ranges of numbers are equal when their bounds compare equal and both or neither ask for whole
numbers. -/
theorem NumberRange.equal_iff {a b : NumberRange} :
    a.equal b = true ↔ (a.minimum == b.minimum) = true ∧ (a.maximum == b.maximum) = true ∧
      a.integer = b.integer := by
  simp [equal, and_assoc]

/-- A range of numbers equals itself. -/
theorem NumberRange.equal_self (a : NumberRange) : a.equal a = true :=
  equal_iff.2 ⟨BEq.rfl, BEq.rfl, rfl⟩

/-- A scalar equals itself. -/
theorem Scalar.equal_self (s : Scalar) : s.equal s = true := by
  cases s with
  | number range => exact range.equal_self
  | string length => exact beq_self_eq_true length
  | _ => rfl

/-- Two ranges equal to a third are equal. -/
theorem NumberRange.equal_eucl {a b c : NumberRange} (h : a.equal b = true)
    (h' : a.equal c = true) : b.equal c = true := by
  rw [equal_iff] at h h' ⊢
  exact ⟨BEq.trans (BEq.symm h.1) h'.1, BEq.trans (BEq.symm h.2.1) h'.2.1, h.2.2 ▸ h'.2.2⟩

/-- What equals one of two equal scalars equals the other. -/
theorem Scalar.equal_eucl {a b c : Scalar} (h : a.equal b = true) (h' : a.equal c = true) :
    b.equal c = true := by
  cases a with
  | number range =>
    cases b with
    | number =>
      cases c with
      | number => exact NumberRange.equal_eucl h h'
      | _ => cases h'
    | _ => cases h
  | string length =>
    cases b with
    | string => exact eq_of_beq h ▸ h'
    | _ => cases h
  | _ =>
    cases b <;> cases h
    exact h'

namespace Pattern

/-! ## One layer -/

/-- One layer of equal patterns: the same kind and data, with equal parts. -/
inductive Same : Pattern → Pattern → Prop
  | scalar {a b : Scalar} (same : a.equal b = true) : Same (.scalar a) (.scalar b)
  | anything : Same .anything .anything
  | object (layout : Layout) (title : Option String) {keys theirKeys : List (String × Pattern)}
    (same : equalFields keys theirKeys = true) :
      Same (.object layout keys title) (.object layout theirKeys title)
  | array {elements theirElements : List Pattern} (same : equalAll elements theirElements = true) :
      Same (.array elements) (.array theirElements)
  | list (title : Option String) (min : Nat) {p q : Pattern} (same : equal p q = true) :
      Same (.list p title min) (.list q title min)
  | rest (min : Nat) {p q : Pattern} (same : equal p q = true) : Same (.rest p min) (.rest q min)
  | dictionary {k l p q : Pattern} (sameKey : equal k l = true) (sameValue : equal p q = true) :
      Same (.dictionary k p) (.dictionary l q)
  | xml (name : String) (occurrence : Occurrence) (nillable : Bool) (typeRef : Option String)
    {attributes theirAttributes : List (String × Pattern)} {children theirChildren : List Pattern}
    (sameAttributes : equalFields attributes theirAttributes = true)
    (sameChildren : equalAll children theirChildren = true) :
      Same (.xml ⟨name, attributes, children, occurrence, nillable, typeRef⟩)
        (.xml ⟨name, theirAttributes, theirChildren, occurrence, nillable, typeRef⟩)
  | union (title text : Option String) {members theirMembers : List Pattern}
    (same : equalAll members theirMembers = true) :
      Same (.union members title text) (.union theirMembers title text)
  | enumeration (nullable : Bool) (title text : Option String) {literals theirLiterals : List Value}
    (same : Value.equalItems literals theirLiterals = true) :
      Same (.enumeration ⟨literals, nullable, title, text⟩)
        (.enumeration ⟨theirLiterals, nullable, title, text⟩)
  | exact {v w : Value} (same : v.equal w = true) : Same (.exact v) (.exact w)
  | reference (name : String) : Same (.reference name) (.reference name)
  | lookup (key : String) {p q : Pattern} (same : equal p q = true) :
      Same (.lookup key p) (.lookup key q)
  | inString {p q : Pattern} (same : equal p q = true) : Same (.inString p) (.inString q)
  | csv {p q : Pattern} (same : equal p q = true) : Same (.csv p) (.csv q)

/-- Equal patterns have the same outermost form and equal parts. -/
theorem same_of_equal {p q : Pattern} (h : p.equal q = true) : Same p q := by
  cases p with
  | scalar =>
    cases q with
    | scalar => exact .scalar h
    | _ => cases h
  | anything =>
    cases q with
    | anything => exact .anything
    | _ => cases h
  | object =>
    cases q with
    | object =>
      simp only [equal, Bool.and_eq_true, beq_iff_eq] at h
      obtain ⟨⟨rfl, same⟩, rfl⟩ := h
      exact .object _ _ same
    | _ => cases h
  | array =>
    cases q with
    | array => exact .array h
    | _ => cases h
  | list =>
    cases q with
    | list =>
      simp only [equal, Bool.and_eq_true, beq_iff_eq] at h
      obtain ⟨⟨same, rfl⟩, rfl⟩ := h
      exact .list _ _ same
    | _ => cases h
  | rest =>
    cases q with
    | rest =>
      simp only [equal, Bool.and_eq_true, beq_iff_eq] at h
      obtain ⟨same, rfl⟩ := h
      exact .rest _ same
    | _ => cases h
  | dictionary =>
    cases q with
    | dictionary =>
      obtain ⟨sameKey, sameValue⟩ := Bool.and_eq_true_iff.1 h
      exact .dictionary sameKey sameValue
    | _ => cases h
  | xml shape =>
    obtain ⟨name, attributes, children, occurrence, nillable, typeRef⟩ := shape
    cases q with
    | xml other =>
      simp only [equal, Bool.and_eq_true, beq_iff_eq] at h
      obtain ⟨⟨⟨⟨⟨rfl, sameAttributes⟩, sameChildren⟩, rfl⟩, rfl⟩, rfl⟩ := h
      exact .xml _ _ _ _ sameAttributes sameChildren
    | _ => cases h
  | union =>
    cases q with
    | union =>
      simp only [equal, Bool.and_eq_true, beq_iff_eq] at h
      obtain ⟨⟨same, rfl⟩, rfl⟩ := h
      exact .union _ _ same
    | _ => cases h
  | enumeration shape =>
    cases q with
    | enumeration other =>
      obtain ⟨literals, nullable, title, text⟩ := shape
      simp only [equal, Bool.and_eq_true, beq_iff_eq] at h
      obtain ⟨⟨⟨same, rfl⟩, rfl⟩, rfl⟩ := h
      exact .enumeration _ _ _ same
    | _ => cases h
  | exact =>
    cases q with
    | exact => exact .exact h
    | _ => cases h
  | reference =>
    cases q with
    | reference => exact eq_of_beq h ▸ .reference _
    | _ => cases h
  | lookup =>
    cases q with
    | lookup =>
      simp only [equal, Bool.and_eq_true, beq_iff_eq] at h
      obtain ⟨rfl, same⟩ := h
      exact .lookup _ same
    | _ => cases h
  | inString =>
    cases q with
    | inString => exact .inString h
    | _ => cases h
  | csv =>
    cases q with
    | csv => exact .csv h
    | _ => cases h

/-- Patterns of the same form with equal parts are equal. -/
theorem equal_of_same {p q : Pattern} (h : Same p q) : p.equal q = true := by
  cases h <;> simp [equal, *]

/-! ## An equivalence -/

mutual

/-- Every pattern equals itself. -/
theorem equal_self : ∀ p : Pattern, p.equal p = true
  | .scalar s => s.equal_self
  | .anything => rfl
  | .object layout keys title => equal_of_same (.object layout title (equalFields_self keys))
  | .array elements => equalAll_self elements
  | .list element title min => equal_of_same (.list title min (equal_self element))
  | .rest element min => equal_of_same (.rest min (equal_self element))
  | .dictionary key value => equal_of_same (.dictionary (equal_self key) (equal_self value))
  | .xml ⟨name, attributes, children, occurrence, nillable, typeRef⟩ =>
    equal_of_same (.xml name occurrence nillable typeRef (equalFields_self attributes)
      (equalAll_self children))
  | .union members title text => equal_of_same (.union title text (equalAll_self members))
  | .enumeration ⟨_, nullable, title, text⟩ =>
    equal_of_same (.enumeration nullable title text (Value.equalItems_self _))
  | .exact v => v.equal_self
  | .reference name => equal_of_same (.reference name)
  | .lookup key type => equal_of_same (.lookup key (equal_self type))
  | .inString type => equal_self type
  | .csv item => equal_self item

/-- Every list of patterns equals itself. -/
theorem equalAll_self : ∀ ps : List Pattern, equalAll ps ps = true
  | [] => rfl
  | p :: ps => Bool.and_eq_true_iff.2 ⟨equal_self p, equalAll_self ps⟩

/-- Every list of fields equals itself. -/
theorem equalFields_self : ∀ ms : List (String × Pattern), equalFields ms ms = true
  | [] => rfl
  | (key, p) :: ms => by simp [equalFields, equal_self p, equalFields_self ms]

end

mutual

/-- What equals one of two equal patterns equals the other. -/
theorem equal_eucl : ∀ p q w : Pattern, p.equal q = true → p.equal w = true → q.equal w = true
  | .scalar _, _, _, h, h' => by
    cases same_of_equal h with | scalar hs =>
    cases same_of_equal h' with | scalar hs' => exact Scalar.equal_eucl hs hs'
  | .anything, _, _, h, h' => by
    cases same_of_equal h
    exact h'
  | .object _ keys _, _, _, h, h' => by
    cases same_of_equal h with | object _ _ hs =>
    cases same_of_equal h' with | object _ _ hs' =>
    exact equal_of_same (.object _ _ (equalFields_eucl keys _ _ hs hs'))
  | .array elements, _, _, h, h' => by
    cases same_of_equal h with | array hs =>
    cases same_of_equal h' with | array hs' => exact equalAll_eucl elements _ _ hs hs'
  | .list element _ _, _, _, h, h' => by
    cases same_of_equal h with | list _ _ hs =>
    cases same_of_equal h' with | list _ _ hs' =>
    exact equal_of_same (.list _ _ (equal_eucl element _ _ hs hs'))
  | .rest element _, _, _, h, h' => by
    cases same_of_equal h with | rest _ hs =>
    cases same_of_equal h' with | rest _ hs' =>
    exact equal_of_same (.rest _ (equal_eucl element _ _ hs hs'))
  | .dictionary key value, _, _, h, h' => by
    cases same_of_equal h with | dictionary hkey hvalue =>
    cases same_of_equal h' with | dictionary hkey' hvalue' =>
    exact equal_of_same
      (.dictionary (equal_eucl key _ _ hkey hkey') (equal_eucl value _ _ hvalue hvalue'))
  | .xml ⟨_, attributes, children, _, _, _⟩, _, _, h, h' => by
    cases same_of_equal h with | xml _ _ _ _ hattributes hchildren =>
    cases same_of_equal h' with | xml _ _ _ _ hattributes' hchildren' =>
    exact equal_of_same (.xml _ _ _ _ (equalFields_eucl attributes _ _ hattributes hattributes')
      (equalAll_eucl children _ _ hchildren hchildren'))
  | .union members _ _, _, _, h, h' => by
    cases same_of_equal h with | union _ _ hs =>
    cases same_of_equal h' with | union _ _ hs' =>
    exact equal_of_same (.union _ _ (equalAll_eucl members _ _ hs hs'))
  | .enumeration _, _, _, h, h' => by
    cases same_of_equal h with | enumeration _ _ _ hs =>
    cases same_of_equal h' with | enumeration _ _ _ hs' =>
    exact equal_of_same (.enumeration _ _ _ (Value.equalItems_trans _ _ _
      (Value.equalItems_symm _ _ hs) hs'))
  | .exact v, _, _, h, h' => by
    cases same_of_equal h with | exact hs =>
    cases same_of_equal h' with | exact hs' =>
    exact Value.equal_trans _ v _ (Value.equal_symm v _ hs) hs'
  | .reference _, _, _, h, h' => by
    cases same_of_equal h
    exact h'
  | .lookup _ type, _, _, h, h' => by
    cases same_of_equal h with | lookup _ hs =>
    cases same_of_equal h' with | lookup _ hs' =>
    exact equal_of_same (.lookup _ (equal_eucl type _ _ hs hs'))
  | .inString type, _, _, h, h' => by
    cases same_of_equal h with | inString hs =>
    cases same_of_equal h' with | inString hs' =>
    exact equal_of_same (.inString (equal_eucl type _ _ hs hs'))
  | .csv item, _, _, h, h' => by
    cases same_of_equal h with | csv hs =>
    cases same_of_equal h' with | csv hs' =>
    exact equal_of_same (.csv (equal_eucl item _ _ hs hs'))

/-- Two lists of patterns equal to a third are equal. -/
theorem equalAll_eucl : ∀ as bs cs : List Pattern,
    equalAll as bs = true → equalAll as cs = true → equalAll bs cs = true
  | [], [], _, _, h' => h'
  | a :: as, b :: bs, c :: cs, h, h' => by
    simp only [equalAll, Bool.and_eq_true] at h h' ⊢
    exact ⟨equal_eucl a b c h.1 h'.1, equalAll_eucl as bs cs h.2 h'.2⟩

/-- Two lists of fields equal to a third are equal. -/
theorem equalFields_eucl : ∀ as bs cs : List (String × Pattern),
    equalFields as bs = true → equalFields as cs = true → equalFields bs cs = true
  | [], [], _, _, h' => h'
  | (_, a) :: as, (_, b) :: bs, (_, c) :: cs, h, h' => by
    simp only [equalFields, Bool.and_eq_true, beq_iff_eq] at h h' ⊢
    exact ⟨⟨h.1.1 ▸ h'.1.1, equal_eucl a b c h.1.2 h'.1.2⟩, equalFields_eucl as bs cs h.2 h'.2⟩

end

/-- Lists of fields are equal when they agree in length and, place by place, in key and pattern. -/
theorem equalFields_iff {as bs : List (String × Pattern)} :
    equalFields as bs = true ↔
      List.Forall₂ (fun a b => a.1 = b.1 ∧ a.2.equal b.2 = true) as bs := by
  induction as generalizing bs with
  | nil => cases bs <;> simp [equalFields]
  | cons a as ih => cases bs <;> simp [equalFields, ih, and_assoc]

instance : EquivBEq Pattern where
  rfl {p} := p.equal_self
  symm {p q} h := equal_eucl p q p h p.equal_self
  trans {p q w} h h' := equal_eucl q p w (equal_eucl p q p h p.equal_self) h'

end Pattern

end DataContract
