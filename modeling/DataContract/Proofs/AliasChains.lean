import DataContract.Proofs.Resolution

/-!
# Alias chains

`Resolver.resolve` looks a name up and goes on from every reference it finds, for as many steps as
there are names and with the names behind in hand. What it says depends on the chain of aliases
alone, the names in delimited form from the first one on (`Resolver.chain`): the pattern at the end
of the chain, the name at its end if that is not registered, or that it comes back to a name
(`Resolver.resolve_chain`). The way along references (`Resolver.Trail`) is on the chain, place by
place, and where it ends the chain has come to an answer (`Resolver.Ends.answer`).
-/

namespace DataContract

/-! ## Registered patterns -/

/-- A change of the registry. -/
inductive Registration where
  | register (name : String) (p : Pattern)
  | replace (patterns : List (String × Pattern))

namespace Registration

/-- Makes the change. -/
def apply (r : Resolver) : Registration → Resolver
  | register name p => r.register name p
  | replace patterns => r.withPatterns patterns

/-- The resolver after changes of an empty registry. -/
def filled (changes : List Registration) : Resolver :=
  changes.foldl apply Resolver.empty

/-- What was registered, in order, since the registry was last replaced. -/
def entries (changes : List Registration) : List (String × Pattern) :=
  changes.foldl (fun entries change =>
    match change with
    | register name p => entries ++ [(name, p)]
    | replace patterns => patterns) []

/-- The last pattern that was registered under a name that is this one in delimited form. -/
def last? (changes : List Registration) (name : String) : Option Pattern :=
  ((entries changes).reverse.find? fun entry => Name.delimited entry.1 = name).map (·.2)

/-- The registry is put together from what was registered. -/
theorem registry_filled (changes : List Registration) :
    (filled changes).registry =
      Fields.ofPairs ((entries changes).map fun entry => (Name.delimited entry.1, entry.2)) := by
  induction changes using List.reverseRecOn with
  | nil => rfl
  | append_singleton changes change ih =>
    rw [filled, entries, List.foldl_concat, List.foldl_concat, ← filled, ← entries]
    cases change with
    | register name p =>
      simp only [apply, Resolver.register, ih, Fields.ofPairs, List.map_append, List.map_cons,
        List.map_nil, List.foldl_concat]
    | replace patterns => rfl

/-- Registering names one after another leaves for each name the pattern that was registered
last. -/
theorem get?_filled (changes : List Registration) :
    Fields.get? (filled changes).registry = last? changes := by
  funext name
  rw [registry_filled, Fields.get?_ofPairs_eq_find?, ← List.map_reverse, List.find?_map,
    Option.map_map]
  rfl

end Registration

namespace Resolver

variable {r : Resolver} {found? : String → Option Pattern} {origin name next target : String}
  {seen : List String} {p : Pattern} {result : Except ContractError Pattern}

/-! ## Chains -/

/-- The name that the reference under a name leads to. -/
def link (found? : String → Option Pattern) (name : String) : Option String :=
  match found? name with
  | some (.reference next) => some (Name.delimited next)
  | _ => none

/-- The names in delimited form from a name on, each the one that the reference under the name
before it leads to. -/
def chain (found? : String → Option Pattern) (name : String) : Nat → Option String
  | 0 => some (Name.delimited name)
  | i + 1 => (chain found? name i).bind (link found?)

/-- The name is on the chain. -/
def OnChain (found? : String → Option Pattern) (name target : String) : Prop :=
  ∃ i, chain found? name i = some target

/-- The chain has a name in two places. -/
def Revisits (found? : String → Option Pattern) (name target : String) : Prop :=
  ∃ i j, i < j ∧ chain found? name i = some target ∧ chain found? name j = some target

/-- A chain that has ended does not go on. -/
theorem chain_eq_none_of_le {i j : Nat} (hij : i ≤ j) (h : chain found? name i = none) :
    chain found? name j = none := by
  induction hij with
  | refl => exact h
  | step _ ih => rw [chain, ih, Option.bind_none]

/-- From two places with the same name the chain goes on in the same way. -/
theorem chain_add_eq {i j : Nat} (h : chain found? name i = chain found? name j) (k : Nat) :
    chain found? name (i + k) = chain found? name (j + k) := by
  induction k with
  | zero => exact h
  | succ k ih => rw [← Nat.add_assoc, ← Nat.add_assoc, chain, chain, ih]

/-- A chain that has a name in two places goes on for ever. -/
theorem Revisits.chain_ne_none (h : Revisits found? name target) (k : Nat) :
    chain found? name k ≠ none := by
  obtain ⟨i, j, hij, hi, hj⟩ := h
  induction k using Nat.strongRecOn with
  | ind k ih =>
    intro hk
    rcases Nat.lt_or_ge j k with hjk | hkj
    · -- one round earlier there was the same name
      obtain ⟨d, rfl⟩ := Nat.exists_eq_add_of_lt hjk
      have hround := chain_add_eq (hi.trans hj.symm) (d + 1)
      exact ih (i + (d + 1)) (by omega) (hround.trans hk)
    · rw [chain_eq_none_of_le hkj hk] at hj
      cases hj

/-- A name that leads nowhere is the last one of the chain. -/
theorem chain_succ_eq_none {i : Nat} (hi : chain found? name i = some target)
    (hlink : link found? target = none) : chain found? name (i + 1) = none := by
  rw [chain, hi]
  exact hlink

/-- No more than one name on a chain leads nowhere. -/
theorem OnChain.unique {a b : String} (ha : OnChain found? name a) (hb : OnChain found? name b)
    (hla : link found? a = none) (hlb : link found? b = none) : a = b := by
  obtain ⟨i, hi⟩ := ha
  obtain ⟨j, hj⟩ := hb
  rcases Nat.lt_trichotomy i j with h | rfl | h
  · cases (chain_eq_none_of_le h (chain_succ_eq_none hi hla)).symm.trans hj
  · exact Option.some_inj.1 (hi.symm.trans hj)
  · cases (chain_eq_none_of_le h (chain_succ_eq_none hj hlb)).symm.trans hi

/-- A chain with a name that leads nowhere has no name in two places. -/
theorem OnChain.not_revisits {again : String} (h : OnChain found? name target)
    (hlink : link found? target = none) : ¬ Revisits found? name again := by
  intro hagain
  obtain ⟨i, hi⟩ := h
  exact hagain.chain_ne_none (i + 1) (chain_succ_eq_none hi hlink)

/-! ## What a chain comes to -/

/-- What there is to say about the name at the beginning of a chain. -/
inductive Answer (found? : String → Option Pattern) (name : String) :
    Except ContractError Pattern → Prop
  | found {target : String} {p : Pattern} : OnChain found? name target → found? target = some p →
      (∀ n, p ≠ .reference n) → Answer found? name (.ok p)
  | missing {target : String} : OnChain found? name target → found? target = none →
      Answer found? name (.error (.unknownPattern target))
  | again {n : String} : Revisits found? name (Name.delimited n) →
      Answer found? name (.error (.recursion n))

/-- A pattern that is no alias has no link. -/
theorem link_of_found (h : found? name = some p) (hp : ∀ n, p ≠ .reference n) :
    link found? name = none := by
  rw [link, h]
  cases p with
  | reference n => exact absurd rfl (hp n)
  | _ => rfl

/-- A name that is not registered has no link. -/
theorem link_of_missing (h : found? name = none) : link found? name = none := by
  rw [link, h]

namespace Answer

/-- The answer is a pattern exactly if the chain reaches a name that is registered with it, and it
is no alias. -/
theorem eq_ok_iff (h : Answer found? name result) :
    result = .ok p ↔
      (∀ n, p ≠ .reference n) ∧ ∃ target, OnChain found? name target ∧ found? target = some p := by
  constructor
  · rintro rfl
    cases h with
    | found ht hf hp => exact ⟨hp, _, ht, hf⟩
  · rintro ⟨hp, target, ht, hf⟩
    have hlink := link_of_found hf hp
    cases h with
    | found ht' hf' hp' =>
      obtain rfl := ht.unique ht' hlink (link_of_found hf' hp')
      rw [Option.some_inj.1 (hf'.symm.trans hf)]
    | missing ht' hf' =>
      obtain rfl := ht.unique ht' hlink (link_of_missing hf')
      cases hf'.symm.trans hf
    | again hagain => exact absurd hagain (ht.not_revisits hlink)

/-- The answer is an unknown name exactly if the chain reaches this name and it is not
registered. -/
theorem eq_unknownPattern_iff (h : Answer found? name result) :
    result = .error (.unknownPattern target) ↔
      OnChain found? name target ∧ found? target = none := by
  constructor
  · rintro rfl
    cases h with
    | missing ht hf => exact ⟨ht, hf⟩
  · rintro ⟨ht, hf⟩
    have hlink := link_of_missing hf
    cases h with
    | found ht' hf' hp' =>
      obtain rfl := ht.unique ht' hlink (link_of_found hf' hp')
      cases hf.symm.trans hf'
    | missing ht' hf' => rw [ht'.unique ht (link_of_missing hf') hlink]
    | again hagain => exact absurd hagain (ht.not_revisits hlink)

/-- The answer is a recursion exactly if the chain comes back to a name that it has visited. -/
theorem eq_recursion_iff (h : Answer found? name result) :
    (∃ n, result = .error (.recursion n)) ↔ ∃ target, Revisits found? name target := by
  constructor
  · rintro ⟨n, rfl⟩
    cases h with
    | again hagain => exact ⟨_, hagain⟩
  · rintro ⟨target, hagain⟩
    cases h with
    | found ht hf hp => exact absurd hagain (ht.not_revisits (link_of_found hf hp))
    | missing ht hf => exact absurd hagain (ht.not_revisits (link_of_missing hf))
    | again => exact ⟨_, rfl⟩

end Answer

/-! ## The way along the chain -/

/-- A reference is a link of the chain. -/
theorem link_of_aliases (h : r.Aliases name next) :
    link (Fields.get? r.registry) (Name.delimited name) = some (Name.delimited next) := by
  rw [link, getPattern_eq_ok.1 h]

namespace Trail

/-- The way goes along the chain. -/
theorem chain_eq (h : r.Trail origin seen name) :
    chain (Fields.get? r.registry) origin seen.length = some (Name.delimited name) := by
  induction h with
  | start => rw [Name.delimited_delimited, List.length_nil, chain]
  | step _ _ ha ih => rw [List.length_cons, chain, ih, Option.bind_some, link_of_aliases ha]

/-- The names behind are earlier on the chain. -/
theorem exists_chain_eq (h : r.Trail origin seen name) {s : String} (hs : s ∈ seen) :
    ∃ i < seen.length, chain (Fields.get? r.registry) origin i = some (Name.delimited s) := by
  induction h with
  | start => cases hs
  | step h _ _ ih =>
    rcases List.mem_cons.1 hs with rfl | hs
    · exact ⟨_, Nat.lt_succ_self _, h.chain_eq⟩
    · obtain ⟨i, hi, hchain⟩ := ih hs
      exact ⟨i, Nat.lt_succ_of_lt hi, hchain⟩

end Trail

/-- Where a way ends is what the chain comes to. -/
theorem Ends.answer (h : r.Ends seen name result) (ht : r.Trail origin seen name) :
    Answer (Fields.get? r.registry) origin result := by
  induction h with
  | again hmem =>
    obtain ⟨i, hi, hchain⟩ := ht.exists_chain_eq hmem
    exact .again ⟨i, _, hi, hchain, ht.chain_eq⟩
  | missing _ hg =>
    obtain ⟨hnone, rfl⟩ := getPattern_eq_error.1 hg
    exact .missing ⟨_, ht.chain_eq⟩ hnone
  | found _ hg hp => exact .found ⟨_, ht.chain_eq⟩ (getPattern_eq_ok.1 hg) hp
  | onward hname ha _ ih => exact ih (ht.step hname ha)

/-- A way ends in one place only. -/
theorem Ends.unique {a b : Except ContractError Pattern} (ha : r.Ends seen name a)
    (hb : r.Ends seen name b) : a = b := by
  induction ha with
  | again hmem =>
    cases hb with
    | again => rfl
    | missing hname | found hname | onward hname => exact absurd hmem hname
  | missing hname hg =>
    cases hb with
    | again hmem => exact absurd hmem hname
    | missing _ hg' =>
      cases hg.symm.trans hg'
      rfl
    | found _ hg' | onward _ hg' => cases hg.symm.trans hg'
  | found hname hg hp =>
    cases hb with
    | again hmem => exact absurd hmem hname
    | missing _ hg' => cases hg.symm.trans hg'
    | found _ hg' =>
      cases hg.symm.trans hg'
      rfl
    | onward _ hg' =>
      cases hg.symm.trans hg'
      exact absurd rfl (hp _)
  | onward hname ha _ ih =>
    cases hb with
    | again hmem => exact absurd hmem hname
    | missing _ hg' => cases ha.symm.trans hg'
    | found _ hg' hp =>
      cases ha.symm.trans hg'
      exact absurd rfl (hp _)
    | onward _ ha' hb =>
      cases ha.symm.trans ha'
      exact ih hb

/-- Whatever was registered and under whatever names, the way along references from a name ends, and
where it ends is what `resolve` says. That is the first pattern on the chain of aliases that is no
reference, or the first name on it that is not registered, or that the chain comes back to a name,
and each of these if and only if the chain does so. -/
theorem resolve_chain (changes : List Registration)
    (hr : r.registry = (Registration.filled changes).registry) (name : String) :
    (∀ result, r.Ends [] (Name.delimited name) result ↔ r.resolve name = result) ∧
    (∀ p, r.resolve name = .ok p ↔ (∀ n, p ≠ .reference n) ∧
      ∃ target, OnChain (Registration.last? changes) name target ∧
        Registration.last? changes target = some p) ∧
    (∀ target, r.resolve name = .error (.unknownPattern target) ↔
      OnChain (Registration.last? changes) name target ∧
        Registration.last? changes target = none) ∧
    ((∃ n, r.resolve name = .error (.recursion n)) ↔
      ∃ target, Revisits (Registration.last? changes) name target) ∧
    ((∃ p, r.resolve name = .ok p) ∨ (∃ n, r.resolve name = .error (.unknownPattern n)) ∨
      ∃ n, r.resolve name = .error (.recursion n)) := by
  have hends := resolve_ends r name
  have hout : Answer (Registration.last? changes) name (r.resolve name) := by
    rw [← Registration.get?_filled, ← hr]
    exact hends.answer .start
  refine ⟨fun result => ⟨hends.unique, fun he => he ▸ hends⟩, fun p => hout.eq_ok_iff,
    fun target => hout.eq_unknownPattern_iff, hout.eq_recursion_iff, ?_⟩
  generalize r.resolve name = result at hout
  cases hout with
  | found => exact .inl ⟨_, rfl⟩
  | missing => exact .inr (.inl ⟨_, rfl⟩)
  | again => exact .inr (.inr ⟨_, rfl⟩)

/-- The first registry is replaced; after that `Id` is registered twice, and `X` and `Y` are
references to each other, under names in various forms. -/
def letters : List Registration :=
  [.register "A" .boolean, .replace [("A", .reference " B "), ("(B)", .reference "(Id)")],
    .register " Id" .number, .register "(Id) " .string, .register "X" (.reference "Y"),
    .register "Y" (.reference " (X)")]

/-- `A` is the last pattern registered as `Id`, `C` is not registered, and `X` comes back to
itself. -/
theorem resolve_letters :
    (Registration.filled letters).resolve "A" = .ok .string ∧
    (Registration.filled letters).resolve " C" = .error (.unknownPattern "(C)") ∧
    ∃ n, (Registration.filled letters).resolve "X" = .error (.recursion n) := by
  have hchain := resolve_chain (r := Registration.filled letters) letters rfl
  exact ⟨((hchain "A").2.1 _).2 ⟨nofun, "(Id)", ⟨2, by decide⟩, rfl⟩,
    ((hchain " C").2.2.1 _).2 ⟨⟨0, by decide⟩, by decide⟩,
    (hchain "X").2.2.2.1.2 ⟨"(X)", 0, 2, by decide, by decide, by decide⟩⟩

end Resolver

end DataContract
