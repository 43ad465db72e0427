import DataContract.Proofs.Acceptance
import DataContract.Proofs.Closed.Messages
import DataContract.Proofs.Keys

/-!
# Failures of grounded patterns

Matching a value against a grounded pattern and comparing two of them do not end in a failure with
the message that some name is not registered (`Engine.informs_ofBudget`). A reference is the one
place where such a message could arise. The texts of errors get into a failure at one more place,
the items of comma-separated text, and these errors are about the text.
-/

namespace DataContract

open Pattern (declaredKeys)

/-- The engine gives informed answers about the patterns with a property and about the pairs of
patterns with another one, and both properties pass on to what patterns lead to. -/
structure Engine.Informs (e : Engine) (must : Prop) (P : Pattern → Prop)
    (C : Pattern → Pattern → Prop) (mine theirs : Resolver) : Prop where
  check {p : Pattern} {v : Value} (hp : P p) : Informed must (e.check p v mine)
  parse {p : Pattern} {text : String} (hp : P p) : (e.parse p text mine).Informed must
  encompasses {p q : Pattern} {stack : TypeStack} (h : C p q) :
    Informed must (e.encompasses p q mine theirs stack)
  leads {p p' : Pattern} (hp : P p) (h : mine.Leads p p') : P p'
  left {p p' q : Pattern} (hpq : C p q) (h : mine.Leads p p') : C p' q
  right {p q q' : Pattern} (hpq : C p q) (h : theirs.Leads q q') : C p q'

namespace Engine.Informs

open MatchResult (fail mismatch)
open MatchResult.Informed (fail_of_opens)

variable {e : Engine} {must : Prop} {P : Pattern → Prop} {C : Pattern → Pattern → Prop}
  {mine theirs : Resolver} {p q : Pattern} {v : Value} {stack : TypeStack}

/-! ## Scalars and keys -/

/-- The message about an undeclared key begins with `Key`. -/
theorem unexpected (name : String) : (fail (mine.messages.unexpected name)).Informed := by
  cases mine.messages with
  | contract => exact fail_of_opens (c := 'K') (by decide) (.append (.append .literal))
  | stub => exact fail_of_opens (c := 'K') (by decide) (.append (.append .literal))

/-- The message about a missing key begins with `Expected` or `Key`. -/
theorem missing (name : String) : (fail (mine.messages.missing name)).Informed := by
  cases mine.messages with
  | contract => exact fail_of_opens (c := 'E') (by decide) (.append (.append .literal))
  | stub => exact fail_of_opens (c := 'K') (by decide) (.append (.append .literal))

/-- A scalar fails with the expected and the actual value. -/
theorem checkScalar (s : Scalar) (v : Value) : (s.check v).Informed := by
  unfold Scalar.check
  split
  · unfold NumberRange.check
    dsimp only
    repeat' split
    all_goals first | exact .mismatch _ _ | exact .success
  · exact .success
  · unfold LengthRange.check
    dsimp only
    repeat' split
    all_goals first | exact .mismatch _ _ | exact .success
  · exact .success
  · exact .success
  · split
    · exact .success
    · exact .mismatch _ _
  · split
    · split
      · exact .success
      · exact .mismatch _ _
    · exact .mismatch _ _
  · exact .mismatch _ _

/-- The failure of a pattern of another kind begins with `Expected`. -/
theorem otherKind (name : String) (q : Pattern) : (Engine.otherKind name q).Informed :=
  fail_of_opens (c := 'E') (by decide) (.append (.append (.append .literal)))

/-- Number ranges that do not contain one another are told by the bounds. -/
theorem containsRange (a b : NumberRange) : (a.encompasses b).Informed := by
  have hfirst {below above : Option MatchResult} (hbelow : Informed False below)
      (habove : Informed False above) : ((below.orElse fun _ => above).getD .success).Informed := by
    cases below with
    | some m => exact hbelow.holds rfl
    | none =>
      cases above with
      | some m => exact habove.holds rfl
      | none => exact .success
  unfold NumberRange.encompasses
  dsimp only
  split
  · exact fail_of_opens (c := 'E') (by decide) .literal
  · refine hfirst ?_ ?_
    · split
      · exact .none id
      · split
        · exact .none id
        · exact .some (fail_of_opens (c := 'E') (by decide) (.append (.append .literal)))
    · split
      · exact .none id
      · split
        · exact .none id
        · exact .some (fail_of_opens (c := 'E') (by decide) (.append (.append .literal)))

/-- Length ranges that do not contain one another are told by the bounds. -/
theorem containsLength (a b : LengthRange) : (a.encompasses b).Informed := by
  unfold LengthRange.encompasses
  dsimp only
  split
  · exact fail_of_opens (c := 'E') (by decide) (.append (.append .literal))
  · split
    · exact .success
    · split
      · exact .success
      · exact fail_of_opens (c := 'E') (by decide) (.append (.append .literal))

/-- Scalars that do not contain one another are told by the bounds or by their kinds. -/
theorem containsScalar (s t : Scalar) : (s.encompasses t).Informed := by
  have hkind : (if s.sameKind t then MatchResult.success
      else fail s!"Expected {s.typeName}, got {t.typeName}").Informed := by
    split
    · exact .success
    · exact fail_of_opens (c := 'E') (by decide) (.append (.append (.append .literal)))
  have hunless {c : Bool} {m : MatchResult} (hm : m.Informed) :
      (if c then MatchResult.success else m).Informed := by
    cases c with
    | true => exact .success
    | false => exact hm
  unfold Scalar.encompasses
  dsimp only
  split
  · exact containsRange _ _
  · exact containsLength _ _
  · exact hunless hkind
  · split
    · exact .success
    · exact hkind
  · exact hkind

/-- A scalar is compared with scalars and matched with exact values. -/
theorem encompassesScalar (s : Scalar) (q : Pattern) :
    (Engine.encompassesScalar s q).Informed := by
  unfold Engine.encompassesScalar
  split
  · exact containsScalar s _
  · exact checkScalar s _
  · exact fail_of_opens (c := 'E') (by decide) (.append (.append .literal))
  · exact otherKind _ _

/-! ## Matching -/

/-- Items are matched one by one with the same pattern. -/
theorem checkItems (h : e.Informs must P C mine theirs) (hp : P p) (items : List Value)
    (start : Nat) : Informed must (e.checkItems p items start mine) :=
  .all_traverse fun _ _ => (h.check hp).map_under _

/-- An object fails by keys that are undeclared or missing, or by the values under its keys. -/
theorem checkObject (h : e.Informs must P C mine theirs) {keys : List (String × Pattern)}
    {title : Option String} (hp : ∀ m ∈ keys, P m.2) :
    Informed must (e.checkObject keys title v mine) := by
  cases v with
  | object members =>
    refine Answers.bind (Informed.traverse fun a ha => ?_) fun values hvalues =>
      .some (.all fun m hm => ?_)
    · obtain ⟨⟨key, p⟩, hk, hpresent⟩ := List.mem_filterMap.1 ha
      obtain ⟨v, -, rfl⟩ := Option.map_eq_some_iff.1 hpresent
      exact (h.check (hp _ (List.mem_of_mem_filter hk))).map_under _
    · rcases List.mem_append.1 hm with hm | hm
      · rcases List.mem_append.1 hm with hm | hm
        · obtain ⟨name, -, rfl⟩ := List.mem_map.1 hm
          exact (unexpected name).under name
        · obtain ⟨name, -, rfl⟩ := List.mem_map.1 hm
          exact (missing name).under name
      · exact hvalues m hm
  | _ => exact .mismatch _ _

/-- Each element is matched with the pattern at its place. -/
theorem checkElements (h : e.Informs must P C mine theirs) {elements : List Pattern}
    {items : List Value} (hp : ∀ p ∈ elements, P p) :
    Answers must (fun ms => ∀ m ∈ ms, m.Informed) (e.checkElements elements items mine) := by
  refine .traverse fun a ha => ?_
  have hzip := List.fst_mem_of_mem_zipIdx ha
  exact (h.check (hp _ (List.of_mem_zip hzip).1)).map_under _

/-- What an array repeats at its end has the property that its elements have. -/
theorem last (h : e.Informs must P C mine theirs) {elements : List Pattern} {min : Nat}
    (hp : ∀ p ∈ elements, P p) (hq : (Pattern.splitRest elements).2 = some (q, min)) : P q :=
  h.leads (hp _ (Pattern.rest_mem_of_splitRest hq)) (.inl List.mem_cons_self)

/-- An array fails by its length or by its elements. -/
theorem checkArray (h : e.Informs must P C mine theirs) {elements : List Pattern}
    (hp : ∀ p ∈ elements, P p) : Informed must (e.checkArray elements v mine) := by
  have hfixed : ∀ p ∈ (Pattern.splitRest elements).1, P p :=
    fun p hm => hp p (Pattern.mem_of_mem_splitRest hm)
  unfold Engine.checkArray
  split
  · dsimp only
    split
    · split
      · exact .some (fail_of_opens (c := 'E') (by decide) (.append (.append (.append .literal))))
      · refine Answers.bind (h.checkElements hfixed) fun head hhead => .some (.all fun m hm => ?_)
        rcases List.mem_append.1 hm with hm | hm
        · exact hhead m hm
        · exact List.mem_singleton.1 hm ▸ .success
    · next p min hrest =>
      split
      · exact .some (fail_of_opens (c := 'E') (by decide) (.append (.append (.append .literal))))
      · refine Answers.bind (h.checkElements hfixed) fun head hhead =>
          Answers.bind (h.checkItems (h.last hp hrest) _ _) fun tail htail =>
            .some (.all fun m hm => ?_)
        rcases List.mem_append.1 hm with hm | hm
        · exact hhead m hm
        · exact List.mem_singleton.1 hm ▸ htail
  · exact .mismatch _ _

/-- A list fails by its length or by its items. -/
theorem checkList (h : e.Informs must P C mine theirs) (hp : P p) (name : String) (min : Nat) :
    Informed must (e.checkList p name min v mine) := by
  unfold Engine.checkList
  split
  · split
    · exact .some (fail_of_opens (c := 'E') (by decide) (.append (.append (.append .literal))))
    · exact h.checkItems hp _ _
  · exact .mismatch _ _

/-- The failure of a key does not quote the error with which it was not read. -/
theorem checkKey (h : e.Informs must P C mine theirs) (hp : P p) (name : String) :
    Informed must (e.checkKey p name mine) := by
  have hread : Answers must (fun _ => True) (e.reads p name mine) := by
    unfold Engine.reads
    split
    · exact .some trivial
    · exact .some trivial
    · next hunfinished => exact .none fun hm => (h.parse hp).ended hm hunfinished
  refine hread.map fun ok _ => ?_
  cases ok with
  | true => exact .success
  | false => exact fail_of_opens (c := 'K') (by decide) (.append (.append (.append .literal)))

/-- The results for the key and for the value of a member are put together under its name. -/
theorem member {ofKey ofValue : MatchResult} (hkey : ofKey.Informed) (hvalue : ofValue.Informed) :
    (MatchResult.all [ofKey, ofValue]).Informed := by
  refine .all fun m hm => ?_
  rcases List.mem_cons.1 hm with rfl | hm
  · exact hkey
  · exact List.mem_singleton.1 hm ▸ hvalue

/-- A dictionary fails by the keys and the values of members. -/
theorem checkDictionary (h : e.Informs must P C mine theirs) {key value : Pattern} (hkey : P key)
    (hvalue : P value) : Informed must (e.checkDictionary key value v mine) := by
  unfold Engine.checkDictionary
  split
  · refine .all_traverse fun a _ => ?_
    exact Answers.bind (h.checkKey hkey _) fun _ hofKey =>
      Answers.bind (h.check hvalue) fun _ hofValue => .some ((member hofKey hofValue).under _)
  · exact .mismatch _ _

/-- The failure of a union is a list of literals, or made from the failures of its members. -/
theorem unionFailure {members : List Pattern} {ms : List MatchResult}
    (hms : ∀ m ∈ ms, m.Informed) : (Engine.unionFailure members ms v).Informed := by
  have hmember {a : Pattern × MatchResult}
      (ha : a ∈ (members.zip ms).filter fun a => !a.1.isNull) : a.2.Informed :=
    hms _ (List.of_mem_zip (List.mem_of_mem_filter ha)).2
  unfold Engine.unionFailure
  split
  · exact .mismatch _ _
  · split
    · next p only hone => exact hmember (hone ▸ List.mem_cons_self)
    · refine .all fun m hm => ?_
      obtain ⟨a, ha, rfl⟩ := List.mem_map.1 hm
      exact (hmember ha).under _

/-- A union asks all of its members. -/
theorem checkUnion (h : e.Informs must P C mine theirs) {members : List Pattern}
    (hp : ∀ p ∈ members, P p) : Informed must (e.checkUnion members v mine) := by
  refine Answers.bind (Informed.traverse fun p hm => h.check (hp p hm)) fun ms hms => ?_
  split
  · exact Informed.success
  · exact .some (unionFailure hms)

/-- An exact value fails with the expected and the actual value. -/
theorem checkExact (value : Value) : (Engine.checkExact value v).Informed := by
  unfold Engine.checkExact
  split
  · exact .success
  · exact .mismatch _ _

/-- A grounded name is resolved, or it is a circle, which accepts everything. -/
theorem checkReference (h : e.Informs must P C mine theirs) {name : String}
    (hname : (Pattern.reference name).Grounded mine) (hp : ∀ p, mine.resolve name = .ok p → P p) :
    Informed must (e.checkReference name v mine) := by
  unfold Engine.checkReference
  split
  · next p hresolve => exact h.check (hp p hresolve)
  · exact .success
  · next hresolve =>
    exact .some (.fail (hname.isInherent_of_resolve hresolve).not_saysUnknown)

/-- The failure of a string-encoded pattern does not quote the error with which it was not read. -/
theorem checkInString (h : e.Informs must P C mine theirs) (hp : P p) :
    Informed must (e.checkInString p v mine) := by
  unfold Engine.checkInString
  dsimp only
  split
  · split
    · exact .success
    · exact .mismatch _ _
    · next hunfinished => exact .none fun hm => (h.parse hp).ended hm hunfinished
  · exact .mismatch _ _

/-- The failures of comma-separated items quote errors of reading, which are inherent. -/
theorem checkCsv (h : e.Informs must P C mine theirs) (hp : P p) :
    Informed must (e.checkCsv p v mine) := by
  unfold Engine.checkCsv
  split
  · refine .all_traverse fun a _ => ?_
    dsimp only
    split
    · exact .success
    · next herr => exact .some (.under (.fail ((h.parse hp).inherent herr).not_saysUnknown) _)
    · next hunfinished => exact .none fun hm => (h.parse hp).ended hm hunfinished
  · exact .mismatch _ _

/-- A match by the kind of a grounded pattern is informed if the matches of what it leads to are. -/
theorem checkValue (h : e.Informs must P C mine theirs) (hs : p.Grounded mine)
    (hp : ∀ q, mine.Leads p q → P q) :
    Informed must (e.checkValue p v mine) := by
  have hinner : ∀ q ∈ p.inner, P q := fun q hq => hp q (.inl hq)
  cases p with
  | scalar s => exact .some (checkScalar s v)
  | anything => exact .success
  | object => exact h.checkObject fun m hm => hinner _ (List.mem_map_of_mem hm)
  | array => exact h.checkArray hinner
  | list | rest => exact h.checkList (hinner _ List.mem_cons_self) _ _
  | dictionary =>
    exact h.checkDictionary (hinner _ List.mem_cons_self)
      (hinner _ (List.mem_cons_of_mem _ List.mem_cons_self))
  | xml => exact hs.here.elim
  | union | enumeration => exact h.checkUnion hinner
  | exact value => exact .some (checkExact value)
  | reference name => exact h.checkReference hs fun q hq => hp q (.inr ⟨name, rfl, hq⟩)
  | lookup => exact h.check (hinner _ List.mem_cons_self)
  | inString => exact h.checkInString (hinner _ List.mem_cons_self)
  | csv => exact h.checkCsv (hinner _ List.mem_cons_self)

/-! ## Comparing structures -/

/-- Keys fail by being missing or optional on the other side, or by their patterns. -/
theorem encompassesKey (h : e.Informs must P C mine theirs) (key : String)
    {theirKeys : List (String × Pattern)} (hpq : ∀ m ∈ theirKeys, C p m.2) :
    Informed must (e.encompassesKey key p theirKeys mine theirs stack) := by
  unfold Engine.encompassesKey
  dsimp only
  split
  · split
    · exact .success
    · exact .some (.under (missing _) _)
  · next hnamed =>
    split
    · have hmandatory {name rest : String} : (fail ("Key named " ++ name ++ rest)).Informed :=
        fail_of_opens (c := 'K') (by decide) (.append (.append .literal))
      exact .some (hmandatory.under _)
    · have hmem := Fields.mem_of_get? (Pattern.keyNamed?_eq_some hnamed).1
      exact (h.encompasses (hpq _ hmem)).map_under _

/-- An object is compared key by key, or matched with an exact value. -/
theorem encompassesObject (h : e.Informs must P C mine theirs) {keys : List (String × Pattern)}
    {title : Option String} (hp : ∀ m ∈ keys, P m.2) (hpq : ∀ m ∈ keys, C m.2 q) :
    Informed must (e.encompassesObject keys title q mine theirs stack) := by
  unfold Engine.encompassesObject
  split
  · refine .all_traverse fun m hm => h.encompassesKey _ fun m' hm' => ?_
    exact h.right (hpq m (List.mem_of_mem_filter hm)) (.inl (List.mem_map_of_mem hm'))
  · exact h.checkObject hp
  · exact .some (otherKind _ _)

/-- A repetition is compared with what is repeated or stands at each place. -/
theorem encompassesRepeated (h : e.Informs must P C mine theirs) (hp : P p) (hpq : C p q) :
    Informed must (e.encompassesRepeated p q mine theirs stack) := by
  unfold Engine.encompassesRepeated
  split
  · exact h.encompasses (h.right hpq (.inl List.mem_cons_self))
  · exact h.encompasses (h.right hpq (.inl List.mem_cons_self))
  · refine .all_traverse fun a ha => ?_
    have helement := h.right hpq (.inl (List.fst_mem_of_mem_zipIdx ha))
    obtain ⟨q, i⟩ := a
    refine Informed.map_under (h.encompasses ?_) _
    split
    · exact h.right helement (.inl List.mem_cons_self)
    · exact helement
  · split
    · exact h.checkItems hp _ _
    · exact .mismatch _ _
  · exact .some (otherKind _ _)

/-- Each element of the other side is compared with the one at its place or with the repetition. -/
theorem encompassesElements (h : e.Informs must P C mine theirs) {rest : Option Pattern} {i : Nat}
    {bigger smaller : List Pattern} (hrest : ∀ p ∈ rest, ∀ q ∈ smaller, C p q)
    (hpq : ∀ p ∈ bigger, ∀ q ∈ smaller, C p q) :
    Answers must (fun ms => ∀ m ∈ ms, m.Informed)
      (e.encompassesElements mine theirs stack rest i bigger smaller) := by
  induction smaller generalizing i bigger with
  | nil => exact .some nofun
  | cons q smaller ih =>
    have hcons {x : Option MatchResult} (hx : Informed must x) :
        Answers must (fun ms => ∀ m ∈ ms, m.Informed) (x >>= fun result =>
          e.encompassesElements mine theirs stack rest (i + 1) (bigger.drop 1) smaller >>=
            fun later => some (result.under (indexCrumb i) :: later)) := by
      refine hx.bind fun result hresult => Answers.bind (ih ?_ ?_) fun later hlater => .some ?_
      · exact fun p hp q hq => hrest p hp q (List.mem_cons_of_mem _ hq)
      · exact fun p hp q hq => hpq p (List.mem_of_mem_drop hp) q (List.mem_cons_of_mem _ hq)
      · exact List.forall_mem_cons.2 ⟨hresult.under _, hlater⟩
    simp only [Engine.encompassesElements]
    split
    · next p hfound =>
      refine hcons (h.encompasses ?_)
      rcases Option.or_eq_some_iff.1 hfound with hhead | ⟨-, hrest'⟩
      · exact hpq p (List.mem_of_mem_head? hhead) q List.mem_cons_self
      · exact hrest p hrest' q List.mem_cons_self
    · have hextra : (fail "Unexpected element").Informed :=
        fail_of_opens (c := 'U') (by decide) .literal
      exact hcons (.some hextra)

/-- After the elements the two repetitions are compared. -/
theorem encompassesElementwise (h : e.Informs must P C mine theirs)
    {fixed theirFixed : List Pattern} {rest theirRest : Option (Pattern × Nat)}
    (hpq : ∀ p ∈ fixed, ∀ q ∈ theirFixed, C p q)
    (hrest : ∀ a ∈ rest, ∀ q ∈ theirFixed, C a.1 q)
    (hlast : ∀ a ∈ rest, ∀ b ∈ theirRest, C a.1 b.1) :
    Informed must (e.encompassesElementwise fixed theirFixed rest theirRest mine theirs stack) := by
  have hrest' : ∀ p ∈ rest.map (·.1), ∀ q ∈ theirFixed, C p q := by
    intro p hp
    obtain ⟨a, ha, rfl⟩ := Option.map_eq_some_iff.1 hp
    exact hrest a ha
  refine Answers.bind (h.encompassesElements hrest' hpq) fun head hhead => ?_
  have htail {x : Option MatchResult} (hx : Informed must x) :
      Informed must (x >>= fun tail => some (.all (head ++ [tail]))) := by
    refine hx.bind fun tail htail => .some (.all fun m hm => ?_)
    rcases List.mem_append.1 hm with hm | hm
    · exact hhead m hm
    · exact List.mem_singleton.1 hm ▸ htail
  dsimp only
  split
  · exact htail ((h.encompasses (hlast _ rfl _ rfl)).map_under _)
  · exact htail .success

/-- Arrays fail by their lengths or by their elements. -/
theorem encompassesArrays (h : e.Informs must P C mine theirs)
    {elements theirElements : List Pattern}
    (hpq : ∀ p ∈ elements, C p (.array theirElements)) :
    Informed must (e.encompassesArrays elements theirElements mine theirs stack) := by
  have hplace {p : Pattern} (hp : C p (.array theirElements)) :
      ∀ q ∈ (Pattern.splitRest theirElements).1, C p q :=
    fun q hq => h.right hp (.inl (Pattern.mem_of_mem_splitRest hq))
  have hrepeated : ∀ a ∈ (Pattern.splitRest elements).2, C a.1 (.array theirElements) :=
    fun a ha => h.left (hpq _ (Pattern.rest_mem_of_splitRest ha)) (.inl List.mem_cons_self)
  have hcompare : Informed must (e.encompassesElementwise (Pattern.splitRest elements).1
      (Pattern.splitRest theirElements).1 (Pattern.splitRest elements).2
      (Pattern.splitRest theirElements).2 mine theirs stack) := by
    refine h.encompassesElementwise ?_ (fun a ha => hplace (hrepeated a ha)) fun a ha b hb => ?_
    · exact fun p hp => hplace (hpq p (Pattern.mem_of_mem_splitRest hp))
    · have hrest := h.right (hrepeated a ha) (.inl (Pattern.rest_mem_of_splitRest hb))
      exact h.right hrest (.inl List.mem_cons_self)
  unfold Engine.encompassesArrays
  dsimp only
  split
  · exact .some (fail_of_opens (c := 'A') (by decide) (.append (.append .literal)))
  · split
    · exact .some (fail_of_opens (c := 'E') (by decide) (.append (.append (.append .literal))))
    · exact hcompare
  · split
    · exact .some (fail_of_opens (c := 'E') (by decide) (.append (.append (.append .literal))))
    · exact hcompare

/-- An array is compared with arrays and lists, or matched with an exact value. -/
theorem encompassesArray (h : e.Informs must P C mine theirs) {elements : List Pattern}
    (hp : ∀ p ∈ elements, P p) (hpq : ∀ p ∈ elements, C p q) :
    Informed must (e.encompassesArray elements q mine theirs stack) := by
  have hlist : Informed must (e.encompassesList elements q mine theirs stack) := by
    unfold Engine.encompassesList
    split
    · next hrest =>
      have hrest := congrArg Prod.snd hrest
      have hmem := Pattern.rest_mem_of_splitRest hrest
      exact h.encompassesRepeated (h.last hp hrest) (h.left (hpq _ hmem) (.inl List.mem_cons_self))
    · exact .some (fail_of_opens (c := 'A') (by decide) .literal)
  unfold Engine.encompassesArray
  split
  · exact h.encompassesArrays hpq
  · exact h.checkArray hp
  · exact hlist
  · exact hlist
  · exact .some (otherKind _ _)

/-- A dictionary is compared with dictionaries and objects, or matched with an exact value. -/
theorem encompassesDictionary (h : e.Informs must P C mine theirs) {key value : Pattern}
    (hkey : P key) (hvalue : P value) (hkeyq : C key q) (hvalueq : C value q) :
    Informed must (e.encompassesDictionary key value q mine theirs stack) := by
  unfold Engine.encompassesDictionary
  split
  · next theirKey theirValue =>
    have hsecond := h.right hvalueq (.inl (List.mem_cons_of_mem theirKey List.mem_cons_self))
    exact Answers.bind (h.encompasses (h.right hkeyq (.inl List.mem_cons_self))) fun _ hofKey =>
      Answers.bind (h.encompasses hsecond) fun _ hofValue => .some (member hofKey hofValue)
  · refine .all_traverse fun m hm => ?_
    have hmember := h.right hvalueq (.inl (List.mem_map_of_mem (List.mem_of_mem_filter hm)))
    exact Answers.bind (h.checkKey hkey _) fun _ hofKey =>
      Answers.bind (h.encompasses hmember) fun _ hofValue =>
        .some ((member hofKey hofValue).under _)
  · exact h.checkDictionary hkey hvalue
  · exact .some (otherKind _ _)

/-! ## Comparing unions, references and encoded patterns -/

/-- The failure of a union is made from those of its members or begins with `Expected`. -/
theorem unionGap {members : List Pattern} {name : String} {ms : List MatchResult}
    (hms : ∀ m ∈ ms, m.Informed) : (Engine.unionGap members name ms q).Informed := by
  unfold Engine.unionGap
  split
  · exact hms _ List.mem_cons_self
  · split
    · exact otherKind _ _
    · refine .all fun m hm => ?_
      obtain ⟨a, ha, rfl⟩ := List.mem_map.1 hm
      exact (hms _ (List.of_mem_zip ha).2).under _

/-- A comparison with a pattern leads to comparisons with its members. -/
theorem ofMember (h : e.Informs must P C mine theirs) {member : Pattern} (hpq : C p q)
    (hm : member ∈ q.unionMembers) : C p member := by
  cases q with
  | union | enumeration => exact h.right hpq (.inl hm)
  | _ => exact List.mem_singleton.1 hm ▸ hpq

/-- Each member of the other side is compared with every member. -/
theorem encompassesUnion (h : e.Informs must P C mine theirs) {members : List Pattern}
    {name : String} (hpq : ∀ p ∈ members, C p q) :
    Informed must (e.encompassesUnion members name q mine theirs stack) := by
  refine .all_traverse fun member hmember => ?_
  refine Answers.bind (Informed.traverse fun p hp => h.encompasses (h.ofMember (hpq p hp) hmember))
    fun attempts hattempts => ?_
  have hgap : (Engine.unionGap members name attempts member).Informed := unionGap hattempts
  split
  · exact Informed.success
  · refine .some ?_
    split
    · exact hgap.under _
    · exact hgap

/-- Grounded names on both sides are resolved, or one is a circle, which compares with success. -/
theorem followed (h : e.Informs must P C mine theirs) {name : String}
    (hname : (Pattern.reference name).Grounded mine) (hq : q.Grounded theirs)
    (hpq : ∀ p, mine.resolve name = .ok p → C p q) :
    Informed must (e.followed name q mine theirs stack) := by
  unfold Engine.followed
  split
  · exact .success
  · next hresolve =>
    exact .some (.fail (hname.isInherent_of_resolve hresolve).not_saysUnknown)
  · next bigger hbigger =>
    have hcompared := hpq bigger hbigger
    split
    · exact .success
    · next hresolved =>
      cases q with
      | reference other =>
        exact .some (.fail (hq.isInherent_of_resolve hresolved).not_saysUnknown)
      | _ => cases hresolved
    · next smaller hresolved =>
      refine h.encompasses ?_
      cases q with
      | reference other => exact h.right hcompared (.inr ⟨other, rfl, hresolved⟩)
      | _ =>
        cases hresolved
        exact hcompared

/-- A pair of names is compared once, by what the names stand for. -/
theorem encompassesReference (h : e.Informs must P C mine theirs) {name : String}
    (hname : (Pattern.reference name).Grounded mine) (hq : q.Grounded theirs)
    (hpq : ∀ p, mine.resolve name = .ok p → C p q) :
    Informed must (e.encompassesReference name q mine theirs stack) := by
  rw [encompassesReference_eq]
  split
  · exact h.followed hname hq hpq
  · split
    · exact .success
    · exact h.followed hname hq hpq

/-- String-encoded patterns are compared by the types inside, or matched with an exact value. -/
theorem encompassesInString (h : e.Informs must P C mine theirs) (hp : P p) (hpq : C p q) :
    Informed must (e.encompassesInString p q mine theirs stack) := by
  unfold Engine.encompassesInString
  split
  · exact h.encompasses (h.right hpq (.inl List.mem_cons_self))
  · exact h.checkInString hp
  · exact .some (otherKind _ _)

/-- Comma-separated patterns are compared by their items, or matched with an exact value. -/
theorem encompassesCsv (h : e.Informs must P C mine theirs) (hp : P p) (hpq : C p q) :
    Informed must (e.encompassesCsv p q mine theirs stack) := by
  unfold Engine.encompassesCsv
  split
  · exact h.encompasses (h.right hpq (.inl List.mem_cons_self))
  · exact h.checkCsv hp
  · exact .some (otherKind _ _)

/-- A comparison by the kind of a grounded pattern is informed if those of what it leads to are. -/
theorem encompassesByKind (h : e.Informs must P C mine theirs) (hs : p.Grounded mine)
    (hq : q.Grounded theirs) (hp : ∀ p', mine.Leads p p' → P p')
    (hpq : ∀ p', mine.Leads p p' → C p' q) :
    Informed must (e.encompassesByKind p q mine theirs stack) := by
  have hinner : ∀ p' ∈ p.inner, P p' ∧ C p' q := fun p' hp' => ⟨hp p' (.inl hp'), hpq p' (.inl hp')⟩
  have hhead {p' : Pattern} {ps : List Pattern} (hp' : p.inner = p' :: ps) : P p' ∧ C p' q :=
    hinner p' (hp' ▸ List.mem_cons_self)
  cases p with
  | anything => exact .success
  | scalar s => exact .some (encompassesScalar s q)
  | exact value =>
    unfold Engine.encompassesByKind Engine.encompassesExact
    dsimp only
    split
    · exact .some (checkExact value)
    · exact .some (otherKind _ _)
  | object =>
    exact h.encompassesObject (fun m hm => (hinner _ (List.mem_map_of_mem hm)).1)
      fun m hm => (hinner _ (List.mem_map_of_mem hm)).2
  | array => exact h.encompassesArray (fun p hp => (hinner p hp).1) fun p hp => (hinner p hp).2
  | list | rest => exact h.encompassesRepeated (hhead rfl).1 (hhead rfl).2
  | dictionary key value =>
    have hvalue := hinner value (List.mem_cons_of_mem _ List.mem_cons_self)
    exact h.encompassesDictionary (hhead rfl).1 hvalue.1 (hhead rfl).2 hvalue.2
  | xml => exact hs.here.elim
  | union | enumeration => exact h.encompassesUnion fun p hp => (hinner p hp).2
  | reference name =>
    exact h.encompassesReference hs hq fun p hp => hpq p (.inr ⟨name, rfl, hp⟩)
  | lookup => exact h.encompasses (hhead rfl).2
  | inString => exact h.encompassesInString (hhead rfl).1 (hhead rfl).2
  | csv => exact h.encompassesCsv (hhead rfl).1 (hhead rfl).2

/-- A step of comparing grounded patterns is informed if those of what both sides lead to are. -/
theorem encompassesStep (h : e.Informs must P C mine theirs) (hs : p.Grounded mine)
    (hq : q.Grounded theirs) (hp : ∀ p', mine.Leads p p' → P p')
    (hpq : ∀ p', mine.Leads p p' → C p' q)
    (hqp : ∀ q', theirs.Leads q q' → C p q') :
    Informed must (e.encompassesStep p q mine theirs stack) := by
  unfold Engine.encompassesStep
  split
  · exact h.encompassesByKind hs hq hp hpq
  · next name _ =>
    split
    · next hresolve => exact h.encompasses (hqp _ (.inr ⟨name, rfl, hresolve⟩))
    · exact .success
    · next hresolve =>
      exact .some (.fail (hq.isInherent_of_resolve hresolve).not_saysUnknown)
  · exact h.encompasses (hqp _ (.inl List.mem_cons_self))
  · split
    · next hunion =>
      refine .all_traverse fun member hmember => Informed.map_under (h.encompasses (hqp _ ?_)) _
      cases q with
      | union | enumeration => exact .inl hmember
      | _ => simp [isUnion] at hunion
    · exact h.encompassesByKind hs hq hp hpq

end Engine.Informs

/-- Outside mock mode an engine on any budget gives no message about grounded patterns that says
that a name is not registered. -/
theorem Engine.informs_ofBudget {mine : Resolver} (theirs : Resolver)
    (hmock : mine.config.mockMode = false) (n : Nat) :
    (ofBudget n).Informs False (·.Grounded mine) (fun p q => p.Grounded mine ∧ q.Grounded theirs)
      mine theirs := by
  induction n with
  | zero =>
    exact ⟨fun _ => .none id, fun _ => ⟨False.elim, nofun⟩, fun _ => .none id,
      fun hp h => hp.of_leads h, fun hpq h => ⟨hpq.1.of_leads h, hpq.2⟩,
      fun hpq h => ⟨hpq.1, hpq.2.of_leads h⟩⟩
  | succ n ih =>
    refine ⟨fun hp => ?_, fun hp => ⟨False.elim, isInherent_of_parse hp⟩, fun hpq => ?_,
      ih.leads, ih.left, ih.right⟩
    · rw [Pattern.check_succ hmock]
      exact ih.checkValue hp fun q hq => ih.leads hp hq
    · exact ih.encompassesStep hpq.1 hpq.2 (fun p hp => ih.leads hpq.1 hp)
        (fun p hp => ih.left hpq hp) fun q hq => ih.right hpq hq

end DataContract
