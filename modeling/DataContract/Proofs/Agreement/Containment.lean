import DataContract.Containment
import DataContract.Proofs.Agreement.Xml

/-!
# Agreement of engines on containment

Comparing two patterns asks an engine about their parts and about the exact values in them, so an
engine that knows more compares with the same verdict.
-/

namespace DataContract

namespace Engine

/-- A reference compared with another pattern by the patterns that both stand for. -/
def followed (e : Engine) (name : String) (other : Pattern) (mine theirs : Resolver)
    (stack : TypeStack) : Option MatchResult :=
  match mine.resolve name with
  | .error (.recursion _) => some .success
  | .error err => some (.fail err.message)
  | .ok bigger =>
    match resolved other theirs with
    | .error (.recursion _) => some .success
    | .error err => some (.fail err.message)
    | .ok smaller => e.encompasses bigger smaller mine theirs stack

/-- A reference compares as what it stands for, with its pair of names on the stack if the other
side has a name. -/
theorem encompassesReference_eq (e : Engine) (name : String) (other : Pattern)
    (mine theirs : Resolver) (stack : TypeStack) :
    e.encompassesReference name other mine theirs stack =
      match identity? other with
      | none => e.followed name other mine theirs stack
      | some theirName =>
        if stack.contains (name, theirName) then some .success
        else e.followed name other mine theirs ((name, theirName) :: stack) := rfl

end Engine

namespace Engine.Below

open MatchResult (Agrees)

variable {e e' : Engine} {r r' s s' : Resolver} {p q : Pattern} {stack : TypeStack}

/-! ## Structures -/

/-- A key is compared with the key of the same base name on the other side, or found missing in both
runs. -/
theorem encompassesKey (h : e.Below e') (hr : r.Alike r') (hs : s.Alike s') (key : String)
    (theirKeys : List (String × Pattern)) :
    Extends Agrees (e.encompassesKey key p theirKeys r s stack)
      (e'.encompassesKey key p theirKeys r' s' stack) := by
  unfold Engine.encompassesKey
  dsimp only
  split
  · split
    · exact .some rfl
    · exact .some ((Agrees.fail _ _).under _ _)
  · split
    · exact .some ((Agrees.fail _ _).under _ _)
    · exact (h.encompasses hr hs).map fun _ _ ha => ha.under _ _

/-- Objects are compared key by key; an exact value on the other side is matched instead. -/
theorem encompassesObject (h : e.Below e') (hr : r.Alike r') (hs : s.Alike s')
    (keys : List (String × Pattern)) (title : Option String) :
    Extends Agrees (e.encompassesObject keys title q r s stack)
      (e'.encompassesObject keys title q r' s' stack) := by
  unfold Engine.encompassesObject
  split
  · exact (Extends.traverse?_same fun _ _ => h.encompassesKey hr hs _ _).bind fun _ _ ha =>
      .some (.all ha)
  · exact h.checkObject hr (Value.equal_self _) _ _
  · exact .some rfl

/-- A repeated item is compared with the item, the elements or the exact items of the other side. -/
theorem encompassesRepeated (h : e.Below e') (hr : r.Alike r') (hs : s.Alike s') :
    Extends Agrees (e.encompassesRepeated p q r s stack)
      (e'.encompassesRepeated p q r' s' stack) := by
  unfold Engine.encompassesRepeated
  split
  · exact h.encompasses hr hs
  · exact h.encompasses hr hs
  · exact (Extends.traverse?_same fun _ _ => (h.encompasses hr hs).map fun _ _ ha =>
      ha.under _ _).bind fun _ _ ha => .some (.all ha)
  · split
    · exact h.checkItems hr (List.forall₂_same.2 fun _ _ => Value.equal_self _) 0
    · exact .some rfl
  · exact .some rfl

/-- Elements are compared in pairs, the last ones with the rest if there is one. -/
theorem encompassesElements (h : e.Below e') (hr : r.Alike r') (hs : s.Alike s')
    (rest : Option Pattern) (i : Nat) (bigger smaller : List Pattern) :
    Extends (List.Forall₂ Agrees) (e.encompassesElements r s stack rest i bigger smaller)
      (e'.encompassesElements r' s' stack rest i bigger smaller) := by
  induction smaller generalizing i bigger with
  | nil => exact .some .nil
  | cons q smaller ih =>
    simp only [Engine.encompassesElements]
    split
    · exact (h.encompasses hr hs).bind fun _ _ ha => (ih _ _).bind fun _ _ hl =>
        .some (List.Forall₂.cons (ha.under _ _) hl)
    · exact (Extends.some (Agrees.refl _)).bind fun _ _ ha => (ih _ _).bind fun _ _ hl =>
        .some (List.Forall₂.cons (ha.under _ _) hl)

/-- After the fixed elements the two rests are compared. -/
theorem encompassesElementwise (h : e.Below e') (hr : r.Alike r') (hs : s.Alike s')
    (fixed theirFixed : List Pattern) (rest theirRest : Option (Pattern × Nat)) :
    Extends Agrees (e.encompassesElementwise fixed theirFixed rest theirRest r s stack)
      (e'.encompassesElementwise fixed theirFixed rest theirRest r' s' stack) := by
  refine (h.encompassesElements hr hs _ _ _ _).bind fun _ _ hh => ?_
  split
  · exact ((h.encompasses hr hs).map fun _ _ ha => ha.under _ _).bind fun _ _ ht =>
      .some (Agrees.all (List.rel_append hh (.cons ht .nil)))
  · exact (Extends.some (Agrees.refl _)).bind fun _ _ ht =>
      .some (Agrees.all (List.rel_append hh (.cons ht .nil)))

/-- Whether the lengths of two arrays fit depends on the patterns alone. -/
theorem encompassesArrays (h : e.Below e') (hr : r.Alike r') (hs : s.Alike s')
    (elements theirElements : List Pattern) :
    Extends Agrees (e.encompassesArrays elements theirElements r s stack)
      (e'.encompassesArrays elements theirElements r' s' stack) := by
  unfold Engine.encompassesArrays
  generalize Pattern.splitRest elements = mine
  generalize Pattern.splitRest theirElements = theirs
  obtain ⟨fixed, rest⟩ := mine
  obtain ⟨theirFixed, theirRest⟩ := theirs
  dsimp only
  split
  · exact .some rfl
  · split
    · exact .some rfl
    · exact h.encompassesElementwise hr hs _ _ _ _
  · split
    · exact .some rfl
    · exact h.encompassesElementwise hr hs _ _ _ _

/-- Only an array that is nothing but a repetition asks about a list. -/
theorem encompassesList (h : e.Below e') (hr : r.Alike r') (hs : s.Alike s')
    (elements : List Pattern) :
    Extends Agrees (e.encompassesList elements q r s stack)
      (e'.encompassesList elements q r' s' stack) := by
  unfold Engine.encompassesList
  split
  · exact h.encompassesRepeated hr hs
  · exact .some rfl

/-- An array is compared with an array, with a list, or with an exact value, which is matched. -/
theorem encompassesArray (h : e.Below e') (hr : r.Alike r') (hs : s.Alike s')
    (elements : List Pattern) :
    Extends Agrees (e.encompassesArray elements q r s stack)
      (e'.encompassesArray elements q r' s' stack) := by
  unfold Engine.encompassesArray
  split
  · exact h.encompassesArrays hr hs _ _
  · exact h.checkArray hr (Value.equal_self _) _
  · exact h.encompassesList hr hs _
  · exact h.encompassesList hr hs _
  · exact .some rfl

/-- A dictionary is compared with a dictionary or an object, or an exact value is matched. -/
theorem encompassesDictionary (h : e.Below e') (hr : r.Alike r') (hs : s.Alike s')
    (key value : Pattern) :
    Extends Agrees (e.encompassesDictionary key value q r s stack)
      (e'.encompassesDictionary key value q r' s' stack) := by
  unfold Engine.encompassesDictionary
  split
  · refine (h.encompasses hr hs).bind fun _ _ hk => (h.encompasses hr hs).bind fun _ _ hv => ?_
    exact .some (.all (.cons hk (.cons hv .nil)))
  · refine (Extends.traverse?_same fun _ _ => ?_).bind fun _ _ ha => .some (.all ha)
    refine (h.checkKey hr _).bind fun _ _ hk => (h.encompasses hr hs).bind fun _ _ hv => ?_
    exact .some ((Agrees.all (.cons hk (.cons hv .nil))).under _ _)
  · exact h.checkDictionary hr (Value.equal_self _) _ _
  · exact .some rfl

/-! ## XML -/

/-- An attribute is compared with the attribute of the same base name. -/
theorem encompassesAttribute (h : e.Below e') (hr : r.Alike r') (hs : s.Alike s') (key : String)
    (theirAttributes : List (String × Pattern)) :
    Extends Agrees (e.encompassesAttribute key p theirAttributes r s stack)
      (e'.encompassesAttribute key p theirAttributes r' s' stack) := by
  unfold Engine.encompassesAttribute
  dsimp only
  refine Extends.map (R := Agrees) ?_ fun _ _ ha => ha.under _ _
  split
  · split <;> exact .some rfl
  · split
    · exact .some rfl
    · exact h.encompasses hr hs

/-- Attributes are compared under their names, and children place by place. -/
theorem encompassesParts (h : e.Below e') (hr : r.Alike r') (hs : s.Alike s')
    (bigger smaller : XmlShape Pattern) :
    Extends Agrees (e.encompassesParts bigger smaller r s stack)
      (e'.encompassesParts bigger smaller r' s' stack) := by
  refine Extends.bind (R := List.Forall₂ Agrees)
    (.traverse?_same fun _ _ => h.encompassesAttribute hr hs _ _) fun _ _ ha => ?_
  split
  · exact (Extends.some (Agrees.refl _)).bind fun _ _ hc =>
      .some (Agrees.all (List.rel_append ha (.cons hc .nil)))
  · refine Extends.bind (R := List.Forall₂ Agrees) (.traverse?_same fun _ _ =>
      (h.encompasses hr hs).map fun _ _ hc => hc.under _ _) fun _ _ hc => ?_
    exact .some (Agrees.all (List.rel_append ha (.cons (Agrees.all hc) .nil)))

/-- Elements are compared in the forms that their types give them, which are the same in alike
resolvers. -/
theorem encompassesElement (h : e.Below e') (hr : r.Alike r') (hs : s.Alike s')
    (bigger smaller : XmlShape Pattern) :
    Extends Agrees (e.encompassesElement bigger smaller r s stack)
      (e'.encompassesElement bigger smaller r' s' stack) := by
  unfold Engine.encompassesElement
  rw [bigger.effective_alike hr, smaller.effective_alike hs]
  split
  · exact h.encompassesParts hr hs _ _
  · exact .none
  · exact .none
  · exact .some rfl
  · exact .some rfl

/-- The pairs of types on the stack are the same, so both runs stop at the same pair. -/
theorem encompassesXml (h : e.Below e') (hr : r.Alike r') (hs : s.Alike s')
    (bigger : XmlShape Pattern) :
    Extends Agrees (e.encompassesXml bigger q r s stack)
      (e'.encompassesXml bigger q r' s' stack) := by
  unfold Engine.encompassesXml
  split
  · split
    · exact .some rfl
    · split
      · exact .some rfl
      · split
        · exact h.encompassesElement hr hs _ _
        · split
          · exact .some rfl
          · exact h.encompassesElement hr hs _ _
  · exact h.checkXml hr (Value.equal_self _) _
  · exact .some rfl

/-! ## Unions, references and encoded patterns -/

/-- The failure of a union is made from those of its members, in both runs in the same way. -/
theorem unionGap (members : List Pattern) (name : String) {rs rs' : List MatchResult}
    (hrs : List.Forall₂ Agrees rs rs') :
    (Engine.unionGap members name rs q).Agrees (Engine.unionGap members name rs' q) := by
  have hall : (MatchResult.all ((members.zip rs).map fun a =>
      a.2.under a.1.branchCrumb)).Agrees
      (.all ((members.zip rs').map fun a => a.2.under a.1.branchCrumb)) := by
    refine Agrees.all ?_
    rw [List.forall₂_map_left_iff, List.forall₂_map_right_iff]
    exact (forall₂_zip_left members hrs).imp fun _ _ hab => by
      simpa only [hab.1] using hab.2.under _ _
  cases hrs with
  | nil =>
    simp only [Engine.unionGap]
    split
    · rfl
    · exact hall
  | cons hab htail =>
    cases htail with
    | nil => exact hab
    | cons _ _ =>
      simp only [Engine.unionGap]
      split
      · rfl
      · exact hall

/-- A union contains another pattern by one of its members, and another union member by member. -/
theorem encompassesUnion (h : e.Below e') (hr : r.Alike r') (hs : s.Alike s')
    (members : List Pattern) (name : String) :
    Extends Agrees (e.encompassesUnion members name q r s stack)
      (e'.encompassesUnion members name q r' s' stack) := by
  refine Extends.bind (R := List.Forall₂ Agrees) (.traverse?_same fun member _ => ?_)
    fun _ _ ha => .some (.all ha)
  refine Extends.bind (R := List.Forall₂ Agrees) (.traverse?_same fun _ _ => h.encompasses hr hs) ?_
  intro rs rs' hrs
  rw [Agrees.any_isSuccess_eq hrs]
  split
  · exact .some rfl
  · refine .some ?_
    split
    · exact (unionGap members name hrs).under _ _
    · exact unionGap members name hrs

/-- What a reference stands for is the same in alike resolvers, or it is not resolved in both. -/
theorem followed (h : e.Below e') (hr : r.Alike r') (hs : s.Alike s') (name : String)
    (q : Pattern) (stack : TypeStack) :
    Extends Agrees (e.followed name q r s stack) (e'.followed name q r' s' stack) := by
  have hres : Engine.resolved q s = Engine.resolved q s' := by
    unfold Engine.resolved
    split
    · exact hs.resolve _
    · rfl
  unfold Engine.followed
  rw [hr.resolve, hres]
  split
  · exact .some rfl
  · exact .some rfl
  · split
    · exact .some rfl
    · exact .some rfl
    · exact h.encompasses hr hs

/-- The pairs of names on the stack are the same, so both runs stop at the same pair. -/
theorem encompassesReference (h : e.Below e') (hr : r.Alike r') (hs : s.Alike s')
    (name : String) :
    Extends Agrees (e.encompassesReference name q r s stack)
      (e'.encompassesReference name q r' s' stack) := by
  have hcmp (stack : TypeStack) := h.followed hr hs name q stack
  rw [Engine.encompassesReference_eq, Engine.encompassesReference_eq]
  split
  · exact hcmp stack
  · split
    · exact .some rfl
    · exact hcmp _

/-- A string-encoded pattern compares the type inside, or matches an exact value. -/
theorem encompassesInString (h : e.Below e') (hr : r.Alike r') (hs : s.Alike s')
    (type : Pattern) :
    Extends Agrees (e.encompassesInString type q r s stack)
      (e'.encompassesInString type q r' s' stack) := by
  unfold Engine.encompassesInString
  split
  · exact h.encompasses hr hs
  · exact h.checkInString hr (Value.equal_self _) _
  · exact .some rfl

/-- A comma-separated pattern compares the items, or matches an exact value. -/
theorem encompassesCsv (h : e.Below e') (hr : r.Alike r') (hs : s.Alike s') (item : Pattern) :
    Extends Agrees (e.encompassesCsv item q r s stack)
      (e'.encompassesCsv item q r' s' stack) := by
  unfold Engine.encompassesCsv
  split
  · exact h.encompasses hr hs
  · exact h.checkCsv hr (Value.equal_self _) _
  · exact .some rfl

/-- A comparison by the kind of the pattern keeps the relation, one case for each kind. -/
theorem encompassesByKind (h : e.Below e') (hr : r.Alike r') (hs : s.Alike s') :
    Extends Agrees (e.encompassesByKind p q r s stack) (e'.encompassesByKind p q r' s' stack) := by
  cases p with
  | scalar | anything | exact => exact .some rfl
  | object => exact h.encompassesObject hr hs _ _
  | array => exact h.encompassesArray hr hs _
  | list | rest => exact h.encompassesRepeated hr hs
  | dictionary => exact h.encompassesDictionary hr hs _ _
  | xml => exact h.encompassesXml hr hs _
  | union | enumeration => exact h.encompassesUnion hr hs _ _
  | reference => exact h.encompassesReference hr hs _
  | lookup => exact h.encompasses hr hs
  | inString => exact h.encompassesInString hr hs _
  | csv => exact h.encompassesCsv hr hs _

/-- A step of comparing keeps the relation: the other side is taken apart in the same way. -/
theorem encompassesStep (h : e.Below e') (hr : r.Alike r') (hs : s.Alike s') :
    Extends Agrees (e.encompassesStep p q r s stack) (e'.encompassesStep p q r' s' stack) := by
  unfold Engine.encompassesStep
  split
  · exact h.encompassesByKind hr hs
  · rw [hs.resolve]
    split
    · exact h.encompasses hr hs
    · exact .some rfl
    · exact .some rfl
  · exact h.encompasses hr hs
  · split
    · exact (Extends.traverse?_same fun _ _ => (h.encompasses hr hs).map fun _ _ ha =>
        ha.under _ _).bind fun _ _ ha => .some (.all ha)
    · exact h.encompassesByKind hr hs

end Engine.Below

end DataContract
