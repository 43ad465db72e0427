import DataContract.Proofs.Closed.Documents
import DataContract.Proofs.Closed.Variants
import DataContract.Proofs.Closed.Verdicts
import DataContract.Proofs.Variants.Soundness

/-!
# Loaded contracts find their names

Loading looks at every name in a document once, without following any. That is enough: whatever is
done afterwards with the root or with a type of the contract, no name is looked up that is not
registered (`ContractDocument.findsNames_of_load`). It holds on every budget, and on the ones that
`Pattern.generate`, `Pattern.parse`, `Pattern.variants`, `Pattern.check` and
`Pattern.isCompatibleWith` compute in particular.
-/

namespace DataContract

/-- The root of a contract and references to its types. -/
def Contract.patterns (contract : Contract) : List Pattern :=
  contract.root :: contract.resolver.patternNames.map Pattern.named

namespace Pattern

/-- Nothing that is done with the pattern under the resolver ends in the error or in a failure that
a name is not registered, and every name that is come to from the pattern or from one of its
variants is registered. -/
structure FindsNames (p : Pattern) (r : Resolver) : Prop where
  generates (n : Nat) (c : Choices) (name : String) :
    Generation.ofBudget n p r c ≠ .error (.unknownPattern name)
  reads (n : Nat) (text name : String) :
    (Engine.ofBudget n).parse p text r ≠ .error (.unknownPattern name)
  expands (n : Nat) (row : Row) (name : String) :
    Variants.ofBudget n p row r ≠ .error (.unknownPattern name)
  checks {n : Nat} {v : Value} {f : Failure}
    (h : (Engine.ofBudget n).check p v r = some (.failure f)) :
    ∀ line ∈ f.lines, ¬ SaysUnknown line.message
  reaches {name : String} (h : r.Reaches p name) : r.Knows name
  ofVariant {row : Row} {q : Pattern} (hq : p.HasVariant row r q) {name : String}
    (h : r.Reaches q name) : r.Knows name
  ofNegative {row : Row} {q : Pattern} (hq : p.HasNegative row r q) {name : String}
    (h : r.Reaches q name) : r.Knows name

/-- Comparing the patterns does not end in a failure that says that a name is not registered. -/
def ComparesNames (p q : Pattern) (mine theirs : Resolver) : Prop :=
  ∀ n f, (Engine.ofBudget n).encompasses p q mine theirs [] = some (.failure f) →
    ∀ line ∈ f.lines, ¬ SaysUnknown line.message

variable {p q : Pattern} {r s : Resolver}

/-- Outside mock mode a grounded pattern finds its names. -/
theorem Grounded.findsNames (hp : p.Grounded r) (hmock : r.config.mockMode = false) :
    p.FindsNames r where
  generates n c name h := (Generation.isInherent_of_ofBudget hp h).ne_unknownPattern name rfl
  reads n text name h := (Engine.isInherent_of_parse hp h).ne_unknownPattern name rfl
  expands n row name h := (Variants.keepsGrounded_ofBudget n).known hp h name rfl
  checks {n} _ _ h _ hline := by
    have hinforms := Engine.informs_ofBudget r hmock n
    exact ((hinforms.check hp).holds h _ rfl).not_saysUnknown_of_mem hline
  reaches h := hp.knows_of_reaches h
  ofVariant hq _ h := by
    obtain ⟨n, l, hl, hq⟩ := hq
    exact ((Variants.keepsGrounded_ofBudget n).grounded hp hl hq).knows_of_reaches h
  ofNegative hq _ h := by
    obtain ⟨n, hq⟩ := hq
    exact ((Negatives.keepsGrounded_ofBudget n).grounded hp hq).knows_of_reaches h

/-- A comparison of two grounded patterns ends in no error about a name. -/
theorem Grounded.comparesNames (hp : p.Grounded r) (hq : q.Grounded s)
    (hmock : r.config.mockMode = false) : p.ComparesNames q r s := by
  intro n f h line hline
  have hinforms := Engine.informs_ofBudget s hmock n
  exact ((hinforms.encompasses ⟨hp, hq⟩).holds h _ rfl).not_saysUnknown_of_mem hline

end Pattern

namespace ContractDocument

variable {document older : ContractDocument} {contract olderContract : Contract}

/-- The root and the types of a loaded document are closed. -/
theorem closed_of_mem_patterns {p : Pattern} (h : document.load = .ok contract)
    (hp : p ∈ contract.patterns) : p.Closed contract.resolver := by
  rcases List.mem_cons.1 hp with rfl | hp
  · exact (closed_of_load h).1
  · obtain ⟨name, hname, rfl⟩ := List.mem_map.1 hp
    obtain ⟨q, hq⟩ := knows_of_load h hname
    exact .leaf ⟨q, by rw [Resolver.getPattern_delimited, hq]⟩ rfl

/-- The root and the types of a loaded document find their names, under every resolver with the
registry of the document that is not in mock mode; and so do comparisons between the root or a type
of one document and the root or a type of another one. -/
theorem findsNames_of_load (h : document.load = .ok contract)
    (holder : older.load = .ok olderContract) {r s : Resolver}
    (hr : r.registry = contract.resolver.registry)
    (hs : s.registry = olderContract.resolver.registry) (hmock : r.config.mockMode = false) :
    (∀ p ∈ contract.patterns, p.FindsNames r) ∧
      ∀ p ∈ contract.patterns, ∀ q ∈ olderContract.patterns, p.ComparesNames q r s := by
  have hreg : r.Closed := (closed_of_load h).2.congr hr
  have holderReg : s.Closed := (closed_of_load holder).2.congr hs
  have hgrounded {p : Pattern} (hp : p ∈ contract.patterns) : p.Grounded r :=
    ((closed_of_mem_patterns h hp).congr hr).grounded hreg
  have holderGrounded {q : Pattern} (hq : q ∈ olderContract.patterns) : q.Grounded s :=
    ((closed_of_mem_patterns holder hq).congr hs).grounded holderReg
  exact ⟨fun p hp => (hgrounded hp).findsNames hmock,
    fun p hp q hq => (hgrounded hp).comparesNames (holderGrounded hq) hmock⟩

/-- A document with a recursive type: a pet has a name and perhaps a parent. -/
def pets : ContractDocument :=
  ⟨[("Pet", .object [("name", .string "(string)"), ("parent?", .string "(Pet)")])],
    .string "(Pet*)", [], []⟩

/-- An older document, in which a pet may have a number for a name. -/
def olderPets : ContractDocument :=
  ⟨[("Pet", .object [("name", .string "(number?)")])], .string "(Pet*)", [], []⟩

/-- The contract of the document. -/
def petsContract : Contract :=
  ⟨.list (.reference "(Pet)") none 0,
    Resolver.empty.register "Pet" (.object .json
      [("name", .string), ("parent?", .reference "(Pet)")] (some "(Pet)"))⟩

/-- The contract of the older document. -/
def olderPetsContract : Contract :=
  ⟨.list (.reference "(Pet)") none 0,
    Resolver.empty.register "Pet" (.object .json
      [("name", .nullable .number)] (some "(Pet)"))⟩

/-- The two contracts find their names, also in the report on how they differ. -/
theorem petsContract_findsNames :
    pets.load = .ok petsContract ∧ olderPets.load = .ok olderPetsContract ∧
      Fails ((Engine.ofBudget 12).encompasses petsContract.root olderPetsContract.root
        petsContract.resolver olderPetsContract.resolver []) ∧
      petsContract.root.FindsNames petsContract.resolver ∧
      petsContract.root.ComparesNames olderPetsContract.root petsContract.resolver
        olderPetsContract.resolver := by
  have hload : pets.load = .ok petsContract := rfl
  have holder : olderPets.load = .ok olderPetsContract := rfl
  obtain ⟨hfinds, hcompares⟩ := findsNames_of_load hload holder rfl rfl rfl
  have hroot : petsContract.root ∈ petsContract.patterns := List.mem_cons_self
  exact ⟨hload, holder, ⟨_, rfl⟩, hfinds _ hroot, hcompares _ hroot _ List.mem_cons_self⟩

end ContractDocument

end DataContract
