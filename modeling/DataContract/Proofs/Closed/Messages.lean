import DataContract.Proofs.Closed.Errors
import DataContract.Proofs.Verdict

/-!
# Messages about unknown names

A failure is `Informed` if no message in it says of a name that it is not registered; then no line
of its report does (`Failure.Informed.not_saysUnknown_of_mem`). Such a message begins with a letter
that no other message begins with, so a message that is written out in matching or in a comparison
is told apart by its beginning (`Opens`).
-/

namespace DataContract

/-! ## Messages -/

/-- The text says that some name is not registered. -/
def SaysUnknown (message : String) : Prop :=
  ∃ name, message = (ContractError.unknownPattern name).message

/-- The text begins with the character. -/
def Opens (c : Char) (text : String) : Prop :=
  text.toList.head? = some c

section
variable {c : Char} {s t message : String}

/-- A literal begins with its first character. -/
theorem Opens.literal {rest : List Char} : Opens c (String.ofList (c :: rest)) := by
  rw [Opens, String.toList_ofList]
  rfl

/-- More text at the end does not change the beginning. -/
theorem Opens.append (h : Opens c s) : Opens c (s ++ t) := by
  rw [Opens, String.toList_append, List.head?_append, h]
  rfl

/-- A message that begins with another letter does not say that a name is not registered. -/
theorem not_saysUnknown (h : Opens c message) (hc : c ≠ 'u') : ¬ SaysUnknown message := by
  rintro ⟨name, rfl⟩
  have hu : Opens 'u' (ContractError.unknownPattern name).message := .append .literal
  exact hc (Option.some.inj (h.symm.trans hu))

/-- The messages of inherent errors begin with a quotation mark or with another letter. -/
theorem ContractError.IsInherent.not_saysUnknown {err : ContractError} (h : err.IsInherent) :
    ¬ SaysUnknown err.message := by
  rcases h with ⟨text, typeName, reason, rfl⟩ | ⟨name, rfl⟩
  · have hopens : Opens '"' (ContractError.parse text typeName reason).message :=
      .append (.append (.append (.append (.append .literal))))
    exact DataContract.not_saysUnknown hopens (by decide)
  · have hopens : Opens 'c' (ContractError.recursion name).message := .append (.append .literal)
    exact DataContract.not_saysUnknown hopens (by decide)

end

/-! ## Failures -/

/-- No message of the failure says that a name is not registered. -/
inductive Failure.Informed : Failure → Prop where
  | node {message crumb : String} {causes : List Failure} (here : ¬ SaysUnknown message)
      (inner : ∀ f ∈ causes, Informed f) : Informed (.node message crumb causes)

namespace Failure

variable {path : String} {line : FailureLine} {f : Failure} {fs : List Failure}

/-- The lines of failures are those of each of them. -/
theorem mem_linesAtAll : line ∈ linesAtAll path fs ↔ ∃ f ∈ fs, line ∈ linesAt path f := by
  induction fs with
  | nil => simp [linesAtAll]
  | cons f fs ih => simp [linesAtAll, ih]

/-- A node without a message of its own says nothing about names. -/
theorem not_saysUnknown_empty : ¬ SaysUnknown "" := by
  rintro ⟨name, h⟩
  have hopens : Opens 'u' (ContractError.unknownPattern name).message := .append .literal
  rw [← h] at hopens
  cases hopens

/-- The lines of a failure are messages of its nodes. -/
theorem Informed.not_saysUnknown_of_mem (h : f.Informed) (hline : line ∈ linesAt path f) :
    ¬ SaysUnknown line.message := by
  induction h generalizing path with
  | @node message crumb causes here _ ih =>
    cases causes with
    | nil => exact List.mem_singleton.1 hline ▸ here
    | cons cause causes =>
      rcases List.mem_append.1 hline with hline | hline
      · split at hline
        · cases hline
        · exact List.mem_singleton.1 hline ▸ here
      · obtain ⟨f, hf, hline⟩ := mem_linesAtAll.1 hline
        exact ih f hf hline

end Failure

/-- A failure has no message that says that a name is not registered. -/
def MatchResult.Informed (m : MatchResult) : Prop :=
  ∀ f, m = .failure f → f.Informed

namespace MatchResult.Informed

variable {c : Char} {m : MatchResult} {ms : List MatchResult} {message : String}

/-- Success has no message at all. -/
theorem success : MatchResult.success.Informed := nofun

/-- A failure is informed if its only message is. -/
theorem fail (h : ¬ SaysUnknown message) : (MatchResult.fail message).Informed := by
  rintro f ⟨rfl⟩
  exact .node h nofun

/-- A message that begins with another letter. -/
theorem fail_of_opens (hc : c ≠ 'u') (h : Opens c message) :
    (MatchResult.fail message).Informed :=
  fail (not_saysUnknown h hc)

/-- The message about an unexpected value quotes it behind words of its own. -/
theorem mismatch (expected actual : String) : (MatchResult.mismatch expected actual).Informed := by
  have hopens : Opens 'E' s!"Expected {expected}, actual was {actual}" :=
    .append (.append (.append .literal))
  exact fail_of_opens (by decide) hopens

/-- A breadcrumb adds a node without a message. -/
theorem under (h : m.Informed) (crumb : String) : (m.under crumb).Informed := by
  cases m with
  | success => exact success
  | failure cause =>
    rintro f ⟨rfl⟩
    refine .node Failure.not_saysUnknown_empty fun f hf => ?_
    exact h f (congrArg _ (List.mem_singleton.1 hf).symm)

/-- Putting informed results together adds nothing but a node without a message. -/
theorem all (h : ∀ m ∈ ms, m.Informed) : (MatchResult.all ms).Informed := by
  unfold MatchResult.all
  split
  · exact success
  · rintro f ⟨rfl⟩
    refine .node Failure.not_saysUnknown_empty fun f hf => ?_
    obtain ⟨m, hm, hfailure⟩ := List.mem_filterMap.1 hf
    cases m with
    | success => cases hfailure
    | failure g =>
      cases hfailure
      exact h _ hm _ rfl

end MatchResult.Informed

/-! ## Answers -/

/-- The computation has ended, if it has to, and its value has the property. -/
structure Answers {α : Type} (must : Prop) (Q : α → Prop) (x : Option α) : Prop where
  ended (h : must) : ∃ a, x = some a
  holds {a : α} (h : x = some a) : Q a

namespace Answers

variable {must : Prop} {α β : Type} {Q : α → Prop} {R : β → Prop} {x : Option α}

/-- An answer that is there is the end of a computation. -/
theorem some {a : α} (h : Q a) : Answers must Q (some a) where
  ended _ := ⟨a, rfl⟩
  holds he := Option.some.inj he ▸ h

/-- Where a computation need not end it may have no answer. -/
theorem none (h : ¬ must) : Answers must Q none where
  ended hm := absurd hm h
  holds he := nomatch he

/-- Informed computations can be put one after another. -/
theorem bind {f : α → Option β} (h : Answers must Q x) (hf : ∀ a, Q a → Answers must R (f a)) :
    Answers must R (x >>= f) where
  ended hm := by
    obtain ⟨a, rfl⟩ := h.ended hm
    exact (hf a (h.holds rfl)).ended hm
  holds he := by
    obtain ⟨a, ha, he⟩ := Option.bind_eq_some_iff.1 he
    exact (hf a (h.holds ha)).holds he

/-- What is made of an answer has what follows from its property. -/
theorem map {f : α → β} (h : Answers must Q x) (hf : ∀ a, Q a → R (f a)) :
    Answers must R (x.map f) where
  ended hm := by
    obtain ⟨a, rfl⟩ := h.ended hm
    exact ⟨f a, rfl⟩
  holds he := by
    obtain ⟨a, ha, rfl⟩ := Option.map_eq_some_iff.1 he
    exact hf a (h.holds ha)

/-- Asking about the elements of a list answers about all of them. -/
theorem traverse {f : α → Option β} {l : List α} (h : ∀ a ∈ l, Answers must R (f a)) :
    Answers must (fun bs => ∀ b ∈ bs, R b) (traverse? f l) where
  ended hm := by
    induction l with
    | nil => exact ⟨[], rfl⟩
    | cons a l ih =>
      obtain ⟨hhead, htail⟩ := List.forall_mem_cons.1 h
      obtain ⟨b, hb⟩ := hhead.ended hm
      obtain ⟨bs, hbs⟩ := ih htail
      exact ⟨b :: bs, by rw [traverse?, hb, hbs]; rfl⟩
  holds he b hb := by
    obtain ⟨a, ha, hfa⟩ := exists_of_mem_traverse? he hb
    exact (h a ha).holds hfa

end Answers

/-- The computation has ended, if it has to, and if it has ended in a failure, that has no message
that says that a name is not registered. -/
abbrev Informed (must : Prop) (x : Option MatchResult) : Prop :=
  Answers must MatchResult.Informed x

namespace Informed

variable {must : Prop} {α : Type} {x : Option MatchResult} {f : α → Option MatchResult}

/-- Success at once is an informed answer. -/
theorem success : Informed must (some .success) :=
  .some .success

/-- A mismatch at once is an informed answer. -/
theorem mismatch (expected actual : String) : Informed must (some (.mismatch expected actual)) :=
  .some (.mismatch expected actual)

/-- An informed answer stays informed under a breadcrumb. -/
theorem map_under (h : Informed must x) (crumb : String) : Informed must (x.map (·.under crumb)) :=
  h.map fun _ hm => hm.under crumb

/-- Asking about the elements of a list gives informed results. -/
theorem traverse {l : List α} (h : ∀ a ∈ l, Informed must (f a)) :
    Answers must (fun ms => ∀ m ∈ ms, m.Informed) (traverse? f l) :=
  Answers.traverse h

/-- The results about the elements of a list put together are informed. -/
theorem all_traverse {l : List α} (h : ∀ a ∈ l, Informed must (f a)) :
    Informed must (traverse? f l >>= fun ms => some (.all ms)) :=
  Answers.bind (traverse h) fun _ hms => .some (.all hms)

end Informed

/-- The reading has ended, if it has to, and if it has ended in an error, that says that the text
cannot be read or that a value would have to contain itself. -/
structure Outcome.Informed (must : Prop) (x : Outcome Value) : Prop where
  ended (h : must) : x ≠ .unfinished
  inherent {err : ContractError} (h : x = .error err) : err.IsInherent

end DataContract
