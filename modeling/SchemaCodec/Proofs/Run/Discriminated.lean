import SchemaCodec.Proofs.Run.Tags
import SchemaCodec.Proofs.Schema.Discriminated
import SchemaCodec.Schema.Transform

/-!
Runs of discriminated unions. The tag of the input decides alone: an input without a tag, or with a
tag of no member, fails with one fault about the tag, and any other input is run against the one
member that has its tag.
-/

namespace SchemaCodec.Run

open Schema

variable {targets : Targets}

/-! ### What is tried -/

section Candidates

variable {key : PropertyKey} {tags : List Tag}

private theorem candidates_notObject (tagged : tags ≠ []) {input : Value}
    (notObject : input.isRecord = false) :
    candidates (.ofTags key tags) input = ([.mismatch unknownRecord.expected input], []) := by
  cases tags with
  | nil => exact absurd rfl tagged
  | cons first rest =>
      cases input with
      | object members => cases notObject
      | _ => rfl

private theorem candidates_object (tagged : tags ≠ []) (object : Members) :
    candidates (.ofTags key tags) (.object object) =
      match groupCandidates object (key, .ofTags tags) with
      | .ok bucket => ([], bucket)
      | .error fault => ([fault], []) := by
  cases tags with
  | nil => exact absurd rfl tagged
  | cons first rest =>
      simp only [candidates, TagIndex.isEmpty, TagIndex.ofTags, List.isEmpty_cons, tagCandidates,
        Bool.false_eq_true, if_false, List.append_nil]
      cases groupCandidates object (key, .ofTags (first :: rest)) with
      | ok bucket => simp
      | error fault => rfl

variable {object : Members} {value : Value}

private theorem candidates_missing (tagged : tags ≠ []) (absent : Table.find? key object = none) :
    candidates (.ofTags key tags) (.object object) = ([.key key (.single .missing)], []) := by
  rw [candidates_object tagged]
  simp only [groupCandidates, absent]

private theorem candidates_unknown (tagged : tags ≠ [])
    (present : Table.find? key object = some value)
    (unknown : ∀ tag ∈ tags, tag.literal.text ≠ value.display) :
    candidates (.ofTags key tags) (.object object) =
      ([.key key (.single (.mismatch (Schema.union (.standard 0) (tags.map Tag.schema)).expected
        value))], []) := by
  rw [candidates_object tagged]
  simp only [groupCandidates, present, TagGroup.find?_ofTags_eq_none unknown]
  rfl

private theorem candidates_known (distinct : (tags.map (·.literal.text)).Nodup) {position : Nat}
    {tag : Tag}
    (atPosition : tags[position]? = some tag) (present : Table.find? key object = some value)
    (sameText : tag.literal.text = value.display) :
    candidates (.ofTags key tags) (.object object) = ([], [position]) := by
  rw [candidates_object (List.ne_nil_of_mem (List.mem_of_getElem? atPosition))]
  simp only [groupCandidates, present, ← sameText, TagGroup.find?_ofTags distinct atPosition]

end Candidates

/-! ### What comes out -/

def asMember (outcome : Outcome) : Outcome :=
  outcome.mapError fun faults => .single (.unionMember faults)

section Outcomes

variable {run : Schema → Value → Option Outcome} {direction : Direction} {members : List Schema}
  {input : Value}

private theorem union_nothing_tried {fault : Fault}
    (tried : candidates (.ofMembers direction members) input = ([fault], [])) :
    union run direction members input = some (Outcome.fail fault) := by
  rw [union, tried]
  rfl

private theorem union_one_tried {position : Nat} {member : Schema}
    (tried : candidates (.ofMembers direction members) input = ([], [position]))
    (atPosition : members[position]? = some member) :
    union run direction members input = (run member input).map asMember := by
  rw [union, tried]
  simp only [List.filterMap_cons, atPosition, List.filterMap_nil, List.reverse_nil, firstOf]
  cases run member input with
  | none => rfl
  | some outcome => cases outcome <;> rfl

end Outcomes

/-- A union whose members have their first tags under one key, with different texts. An input that is
no object does not meet the record that takes anything; an object lacks the key; or what it has under
the key is none of the literals: then the run fails with this one fault. Any other run is that of the
member with the input's tag, stopped at its first fault, and what is wrong is said of this member. -/
theorem discriminated_union_runs {settings : Settings} {schema : Schema} {members : List Schema}
    {key : PropertyKey} {tags : List Tag} (isUnion : schema.kind = .union members)
    (nonempty : members ≠ [])
    (discriminated : Discriminated settings.direction key members tags) :
    (∀ input : Value, input.isRecord = false →
      Yields targets settings schema input
        (Outcome.fail (.mismatch unknownRecord.expected input))) ∧
    (∀ object : Members, Table.find? key object = none →
      Yields targets settings schema (.object object)
        (Outcome.fail (.key key (.single .missing)))) ∧
    (∀ (object : Members) (value : Value), Table.find? key object = some value →
      (∀ tag ∈ tags, tag.literal.text ≠ value.display) →
      Yields targets settings schema (.object object) (Outcome.fail (.key key (.single
        (.mismatch (Schema.union (.standard 0) (tags.map Tag.schema)).expected value))))) ∧
    (IdentitiesTell members → unionMembers (tags.map Tag.schema) = tags.map Tag.schema) ∧
    ∀ (object : Members) (value : Value) (position : Nat) (member : Schema) (tag : Tag),
      Table.find? key object = some value → members[position]? = some member →
      tags[position]? = some tag → tag.literal.text = value.display →
      ∀ outcome, Yields targets settings schema (.object object) outcome ↔
        ∃ inner, Yields targets settings.failingFast member (.object object) inner ∧
          outcome = asMember inner := by
  have tagged : tags ≠ [] := by
    rintro rfl
    exact nonempty (List.forall₂_nil_right_iff.mp discriminated.first)
  have index := TagIndex.ofMembers_eq discriminated
  have fails : ∀ {input : Value} {fault : Fault},
      candidates (.ofTags key tags) input = ([fault], []) →
      Yields targets settings schema input (Outcome.fail fault) :=
    fun tried => (yields_union isUnion).mpr (union_nothing_tried (index ▸ tried))
  refine ⟨fun input notObject => fails (candidates_notObject tagged notObject),
    fun object absent => fails (candidates_missing tagged absent),
    fun object value present unknown => fails (candidates_unknown tagged present unknown),
    discriminated.unionMembers_literals, ?_⟩
  intro object value position member tag present atPosition tagAt sameText outcome
  have tried := candidates_known discriminated.distinct tagAt present sameText
  rw [yields_union isUnion, union_one_tried (index ▸ tried) atPosition, Option.map_eq_some_iff]
  exact exists_congr fun inner => and_congr outcome?_eq_some eq_comm

def euro : Schema := .plain (.made 1) (.literal (.string "eur"))

def cashMark : Schema := .plain (.made 2) (.literal (.string "cash"))

def cash : Schema :=
  .plain (.made 3) (.struct
    [⟨.string "method", cashMark, false⟩, ⟨.string "currency", euro, false⟩] [])

def cardMark : Schema := .plain (.made 4) (.literal (.string "card"))

/-- Not a literal, but it starts from one. -/
def cardMethod : Schema := Schema.transform (.made 5) cardMark .string .identity .identity

def card : Schema :=
  .plain (.made 6) (.refinement
    (.plain (.made 7) (.struct
      [⟨.string "limit", .number, true⟩, ⟨.string "method", cardMethod, false⟩,
        ⟨.string "currency", euro, false⟩] []))
    fun _ _ _ => none)

def payment : Schema := .plain (.made 8) (.union [cash, card])

def paymentTags : List Tag :=
  [⟨.string "method", cashMark, .string "cash"⟩, ⟨.string "method", cardMark, .string "card"⟩]

private theorem payment_discriminated :
    Discriminated .decode (.string "method") [cash, card] paymentTags where
  first := .cons (@FirstTag.struct _ _ _ [] _ _ _ _ nofun rfl)
    (.cons (.refinement (@FirstTag.struct _ _ _ [⟨.string "limit", .number, true⟩] _ _ _ _
      (by simp [Field.tag?]) rfl)) .nil)
  underKey := by simp [paymentTags]
  distinct := by decide

/-- A payment by card in another currency is blamed on the card alone, though both members have a tag
for the currency. -/
theorem payment_runs :
    Yields (fun _ => .never) ⟨.sync, {}, .decode⟩ payment .null
      (Outcome.fail (.mismatch unknownRecord.expected .null)) ∧
    Yields (fun _ => .never) ⟨.sync, {}, .decode⟩ payment
      (.object [(.string "currency", .string "eur")])
      (Outcome.fail (.key (.string "method") (.single .missing))) ∧
    Yields (fun _ => .never) ⟨.sync, {}, .decode⟩ payment
      (.object [(.string "method", .string "cheque")])
      (Outcome.fail (.key (.string "method") (.single (.mismatch
        (Schema.union (.standard 0) [cashMark, cardMark]).expected (.string "cheque"))))) ∧
    Yields (fun _ => .never) ⟨.sync, {}, .decode⟩ payment
      (.object [(.string "method", .string "card"), (.string "currency", .string "usd")])
      (Outcome.fail (.unionMember (.single (.key (.string "currency") (.single
        (.mismatch euro.expected (.string "usd"))))))) := by
  obtain ⟨notObject, missing, unknown, _, known⟩ := @discriminated_union_runs (fun _ => .never)
    ⟨.sync, {}, .decode⟩ payment [cash, card] (.string "method") paymentTags rfl (by simp)
    payment_discriminated
  refine ⟨notObject .null rfl, missing _ rfl, unknown _ (.string "cheque") rfl (by decide), ?_⟩
  refine (known _ (.string "card") 1 card _ rfl rfl rfl rfl _).mpr ⟨_, ⟨5, rfl⟩, rfl⟩

end SchemaCodec.Run
