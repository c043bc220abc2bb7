import Mathlib.Data.List.Forall2
import TripleQuery.Config.Query
import TripleQuery.Proofs.Encoding

/-!
The JSON form of a configuration. One configuration is spelled in many ways: members stand in any
order, fields with their usual values are left out, and members with other names are passed over.
All of these read as the configuration, unless something beside the fields cannot be read at all.
-/

namespace TripleQuery

open Json (Value)

/-! ### Rules -/

namespace ClosureRule

/-- How the subject of a rule is written, if it has one. -/
def SpellsSubject (rule : ClosureRule) (fields : List (String × Value)) : Prop :=
  match rule.subject? with
  | none => fields = []
  | some (field, term) => ∃ v, fields = [(field, v)] ∧ term.Spells v

/-- The names of the fields that a setting with this rule may have. -/
def fieldNames (rule : ClosureRule) : List String :=
  "rule" :: ((rule.subject?.map Prod.fst).toList ++ ["reflexive"])

theorem nodup_fieldNames (rule : ClosureRule) : rule.fieldNames.Nodup := by
  cases rule <;> simp [fieldNames, subject?]

/-- The name of a rule leads back to it, with its subject if it has one. -/
theorem exists_shape (rule : ClosureRule) :
    ∃ make, shape? rule.name = some (rule.subject?.map Prod.fst, make) ∧
      make ((rule.subject?.map Prod.snd).getD default) = rule := by
  cases rule <;> exact ⟨_, rfl, rfl⟩

theorem ne_of_subject {rule : ClosureRule} {field : String} {term : Term}
    (about : rule.subject? = some (field, term)) : "reflexive" ≠ field := by
  have names := rule.nodup_fieldNames
  rintro rfl
  simp [fieldNames, about] at names

theorem SpellsSubject.names {rule : ClosureRule} {fields : List (String × Value)}
    (spelled : rule.SpellsSubject fields) :
    fields.map Prod.fst = (rule.subject?.map Prod.fst).toList := by
  unfold SpellsSubject at spelled
  split at spelled
  · next none => rw [spelled, none]; rfl
  · next field term found =>
    obtain ⟨v, rfl, -⟩ := spelled
    rw [found]
    rfl

end ClosureRule

namespace ClosureSetting

/-- The objects that say a setting. -/
def Spells (s : ClosureSetting) (v : Value) : Prop :=
  ∃ subject flag, s.rule.SpellsSubject subject ∧
    Value.Given "reflexive" (.boolean s.reflexive) (s.reflexive = true) flag ∧
    v.Holds s.rule.fieldNames (("rule", .string (some s.rule.name)) :: (subject ++ flag))

variable {rule : ClosureRule} {read : List String → Option (List (Option Value))}
  {given : Option Value} {reflexive : Bool}

theorem ofFields_bare (bare : rule.subject? = none) (found : read ["reflexive"] = some [given])
    (flagged : Value.orElse true Value.boolean? given = some reflexive) :
    ofFields? rule.name read = some ⟨rule, reflexive⟩ := by
  obtain ⟨make, shape, made⟩ := rule.exists_shape
  rw [bare] at shape made
  simpa [ofFields?, shape, found, flagged] using made

theorem ofFields_about {field : String} {term : Term} {v : Value}
    (about : rule.subject? = some (field, term))
    (found : read [field, "reflexive"] = some [some v, given])
    (spelled : Term.ofJson? true v = some term)
    (flagged : Value.orElse true Value.boolean? given = some reflexive) :
    ofFields? rule.name read = some ⟨rule, reflexive⟩ := by
  obtain ⟨make, shape, made⟩ := rule.exists_shape
  rw [about] at shape made
  simpa [ofFields?, shape, found, spelled, flagged] using made

/-- What is held back for a rule. -/
def heldBack (members : List (Option String × Value)) : List (Option String × Value) :=
  members.filter fun m => decide (m.1 ≠ some "rule")

theorem heldBack_perm {fields : List (String × Value)}
    {members others : List (Option String × Value)} {rule : Value}
    (perm : members.Perm (Value.ofFields (("rule", rule) :: fields) ++ others))
    (apart : ∀ m ∈ others, m.1 ≠ some "rule") (distinct : "rule" ∉ fields.map Prod.fst) :
    (heldBack members).Perm (Value.ofFields fields ++ others) := by
  have kept : (Value.ofFields fields ++ others).filter (fun m => decide (m.1 ≠ some "rule")) =
      Value.ofFields fields ++ others := by
    rw [List.filter_eq_self]
    intro m member
    rw [decide_eq_true_eq]
    rcases List.mem_append.mp member with own | beside
    · obtain ⟨field, listed, rfl⟩ := List.mem_map.mp own
      intro same
      exact distinct (List.mem_map.mpr ⟨field, listed, Option.some.inj same⟩)
    · exact apart m beside
  have filtered := perm.filter fun m => decide (m.1 ≠ some "rule")
  rw [Value.ofFields, List.map_cons, List.cons_append,
    List.filter_cons_of_neg (by simp)] at filtered
  exact kept ▸ filtered

variable {s : ClosureSetting} {v : Value} {subject flag : List (String × Value)}
  {members others : List (Option String × Value)}

theorem nodup_fields (about : s.rule.SpellsSubject subject)
    (given : Value.Given "reflexive" (.boolean s.reflexive) (s.reflexive = true) flag) :
    ("rule" :: (subject ++ flag).map Prod.fst).Nodup := by
  rw [List.map_append, about.names]
  exact s.rule.nodup_fieldNames.sublist
    (((List.Sublist.refl _).append given.sublist).cons_cons _)

/-- The fields of a setting, once its rule is known. -/
theorem ofFields_of_perm (about : s.rule.SpellsSubject subject)
    (given : Value.Given "reflexive" (.boolean s.reflexive) (s.reflexive = true) flag)
    (perm : members.Perm (Value.ofFields (subject ++ flag) ++ others))
    (apart : ∀ m ∈ others, ∀ name ∈ s.rule.fieldNames, m.1 ≠ some name)
    {room : Nat} (plain : Value.areMembersPlain room members = true) :
    ofFields? s.rule.name (fun names => Value.memberFields? names members) = some s := by
  have distinct := (List.nodup_cons.mp (nodup_fields about given)).2
  have named := Value.isSome_of_areMembersPlain plain
  -- What is read of the fields that the rule asks for.
  have read : ∀ names ⊆ s.rule.fieldNames, Value.memberFields? names members =
      some (names.map fun name => (subject ++ flag).lookup name) := by
    intro names subset
    rw [Value.memberFields_of_perm perm (fun m beside name listed =>
      apart m beside name (subset listed)) distinct, if_pos named]
  have reflexive : Value.orElse true Value.boolean? (flag.lookup "reflexive") = some s.reflexive :=
    given.orElse_eq fun usual => by rw [usual]; rfl
  unfold ClosureRule.SpellsSubject at about
  split at about
  · next bare =>
    subst about
    exact ofFields_bare bare (read ["reflexive"] (by simp [ClosureRule.fieldNames])) reflexive
  · next field term found =>
    obtain ⟨w, rfl, spelled⟩ := about
    have fields := read [field, "reflexive"] (by simp [ClosureRule.fieldNames, found])
    have held : (some field, w) ∈ members :=
      perm.symm.subset (List.mem_append_left _ (List.mem_map.mpr ⟨(field, w), by simp, rfl⟩))
    have elsewhere : ("reflexive" == field) = false := by
      simpa using ClosureRule.ne_of_subject found
    refine ofFields_about found ?_ (spelled.ofJson true ?_) reflexive
    · simpa [List.lookup_cons, elsewhere] using fields
    · rw [Value.areMembersPlain_eq_all, List.all_eq_true] at plain
      exact Value.isNamed_of_isPlain (Bool.and_eq_true_iff.mp (plain _ held)).2

/-- A setting is read from what spells it, if what is held back for its rule can be read. -/
theorem Spells.ofJson (spelled : s.Spells v) :
    ofJson? v = if v.isPlain (depthLimit + 1) then some s else none := by
  obtain ⟨subject, flag, about, given, members, others, rfl, perm, apart⟩ := spelled
  have distinct := nodup_fields about given
  have rule : Value.occurrences "rule" members = [.string (some s.rule.name)] :=
    Value.occurrences_of_perm perm (fun m beside => apart m beside _ List.mem_cons_self) distinct
  have held := heldBack_perm perm (fun m beside => apart m beside _ List.mem_cons_self)
    (List.nodup_cons.mp distinct).1
  -- The rule itself is a text, so that all members are plain if the others are.
  have plain : Value.areMembersPlain depthLimit (heldBack members) =
      (Value.object members).isPlain (depthLimit + 1) := by
    rw [Value.isPlain, Nat.add_sub_cancel, decide_eq_true (Nat.succ_pos _), Bool.true_and,
      Value.areMembersPlain_eq_all, Value.areMembersPlain_eq_all, held.all_eq, perm.all_eq]
    rfl
  rw [ofJson?, rule, ← plain]
  show (if Value.areMembersPlain depthLimit (heldBack members) then
    ofFields? s.rule.name (fun names => Value.memberFields? names (heldBack members))
      else none) = _
  split
  · next all_plain => exact ofFields_of_perm about given held apart all_plain
  · rfl

end ClosureSetting

/-! ### Configurations -/

namespace QueryConfig

/-- The objects that say a configuration, with the settings of its closures as `rules` says them. -/
def Spells (c : QueryConfig) (rules : List Value) (v : Value) : Prop :=
  ∃ intervals memberships closures,
    Value.Given "range_layer" (.boolean c.intervals) (c.intervals = true) intervals ∧
    Value.Given "container_membership" (.boolean c.memberships) (c.memberships = false)
      memberships ∧
    Value.Given "closures" (.array rules) (rules = []) closures ∧
    List.Forall₂ ClosureSetting.Spells c.closures rules ∧
    v.Holds ["range_layer", "container_membership", "closures"]
      (intervals ++ memberships ++ closures)

variable {c : QueryConfig} {rules : List Value} {v : Value}

/-- Whether nothing beside the fields hinders the reading: the keys at the top have texts, and all
that a rule holds is plain. -/
def isReadable (rules : List Value) (v : Value) : Bool :=
  v.isNamed && rules.all (·.isPlain (ClosureSetting.depthLimit + 1))

theorem closuresOfJson_of_spells {settings : List ClosureSetting}
    (spelled : List.Forall₂ ClosureSetting.Spells settings rules) :
    closuresOfJson? (.array rules) =
      if rules.all (·.isPlain (ClosureSetting.depthLimit + 1)) then some settings else none := by
  show rules.mapM ClosureSetting.ofJson? = _
  induction spelled with
  | nil => rfl
  | @cons setting rule settings rules first later ih =>
    rw [List.mapM_cons, first.ofJson, ih, List.all_cons]
    cases rule.isPlain (ClosureSetting.depthLimit + 1) <;>
      cases rules.all (·.isPlain (ClosureSetting.depthLimit + 1)) <;> rfl

/-- The three fields, as an object with texts for keys has them. -/
theorem memberFields_of_spells {intervals memberships closures : List (String × Value)}
    {members others : List (Option String × Value)} {a b : Value} {p q r : Prop}
    (range : Value.Given "range_layer" a p intervals)
    (container : Value.Given "container_membership" b q memberships)
    (list : Value.Given "closures" (.array rules) r closures)
    (perm : members.Perm (Value.ofFields (intervals ++ memberships ++ closures) ++ others))
    (apart : ∀ m ∈ others, ∀ name ∈ ["range_layer", "container_membership", "closures"],
      m.1 ≠ some name) (named : members.all (·.1.isSome) = true) :
    Value.memberFields? ["range_layer", "container_membership", "closures"] members =
      some [intervals.lookup "range_layer", memberships.lookup "container_membership",
        closures.lookup "closures"] := by
  have distinct : ((intervals ++ memberships ++ closures).map Prod.fst).Nodup := by
    rw [List.map_append, List.map_append]
    have names : ["range_layer", "container_membership", "closures"].Nodup := by decide
    exact names.sublist ((range.sublist.append container.sublist).append list.sublist)
  rw [Value.memberFields_of_perm perm apart distinct, if_pos named]
  simp [List.lookup_append, range.lookup_of_ne, container.lookup_of_ne, list.lookup_of_ne]

theorem Spells.ofJson (spelled : c.Spells rules v) :
    ofJson? v = if isReadable rules v then some c else none := by
  obtain ⟨intervals, memberships, closures, range, container, list, settings, members, others,
    rfl, perm, apart⟩ := spelled
  rw [isReadable, Value.isNamed]
  cases named : members.all (·.1.isSome) with
  | false =>
    have unread : Value.memberFields? ["range_layer", "container_membership", "closures"]
        members = none := by rw [Value.memberFields?, named]; rfl
    simp [ofJson?, Value.looseFields?, unread]
  | true =>
    have fields := memberFields_of_spells range container list perm apart named
    have range_read : Value.orElse true Value.boolean? (intervals.lookup "range_layer") =
        some c.intervals := range.orElse_eq fun usual => by rw [usual]; rfl
    have container_read : Value.orElse false Value.boolean?
        (memberships.lookup "container_membership") = some c.memberships :=
      container.orElse_eq fun usual => by rw [usual]; rfl
    have list_read : Value.orElse [] closuresOfJson? (closures.lookup "closures") =
        closuresOfJson? (.array rules) := list.orElse_eq fun usual => by rw [usual]; rfl
    rw [closuresOfJson_of_spells settings] at list_read
    simp only [ofJson?, Value.looseFields?, fields, range_read, container_read, list_read,
      Option.bind_eq_bind, Option.bind_some, Bool.true_and]
    split <;> rfl

end QueryConfig

/-! ### The form that is written -/

theorem Term.isPlain_payload (t : Term) (room : Nat) : t.payload.isPlain room = true := by
  cases t <;> rfl

theorem Term.isPlain_toJson (t : Term) {room : Nat} (enough : 0 < room) :
    t.toJson.isPlain room = true := by
  simp [toJson, Value.isPlain, Value.areMembersPlain, isPlain_payload, enough]

namespace ClosureSetting

theorem spells_toJson (s : ClosureSetting) : s.Spells s.toJson := by
  have subject : s.rule.SpellsSubject
      (s.rule.subject?.map fun part => (part.1, part.2.toJson)).toList := by
    unfold ClosureRule.SpellsSubject
    split
    · next bare => rw [bare]; rfl
    · next field term found => exact ⟨term.toJson, by rw [found]; rfl, term.spells_toJson⟩
  have written : s.toJson = .object (Value.ofFields (("rule", .string (some s.rule.name)) ::
      ((s.rule.subject?.map fun part => (part.1, part.2.toJson)).toList ++
        [("reflexive", .boolean s.reflexive)]))) := by
    unfold toJson
    cases s.rule.subject? <;> rfl
  exact ⟨_, _, subject, .inl rfl, written ▸ Value.holds_ofFields _ _⟩

theorem isExact_toJson (s : ClosureSetting) : s.toJson.isExact = true := by
  unfold toJson
  cases s.rule.subject? with
  | none => rfl
  | some part => simp [Value.isExact, Value.areMembersExact, Term.isExact_toJson]

theorem isPlain_toJson (s : ClosureSetting) : s.toJson.isPlain (depthLimit + 1) = true := by
  unfold toJson
  cases s.rule.subject? with
  | none => rfl
  | some part =>
    simp [Value.isPlain, Value.areMembersPlain, Term.isPlain_toJson, depthLimit]

end ClosureSetting

namespace QueryConfig

theorem spells_toJson (c : QueryConfig) :
    c.Spells (c.closures.map ClosureSetting.toJson) c.toJson := by
  have settings : List.Forall₂ ClosureSetting.Spells c.closures
      (c.closures.map ClosureSetting.toJson) := by
    rw [List.forall₂_map_right_iff, List.forall₂_same]
    exact fun s _ => s.spells_toJson
  exact ⟨_, _, _, .inl rfl, .inl rfl, .inl rfl, settings, Value.holds_ofFields _ _⟩

theorem isExact_toJson (c : QueryConfig) : c.toJson.isExact = true := by
  have items : ∀ settings : List ClosureSetting,
      Value.areItemsExact (settings.map ClosureSetting.toJson) = true := by
    intro settings
    induction settings with
    | nil => rfl
    | cons s settings ih =>
      rw [List.map_cons, Value.areItemsExact, s.isExact_toJson, ih]
      rfl
  simp [toJson, Value.isExact, Value.areMembersExact, items]

theorem isReadable_toJson (c : QueryConfig) :
    isReadable (c.closures.map ClosureSetting.toJson) c.toJson = true := by
  have plain : (c.closures.map ClosureSetting.toJson).all
      (·.isPlain (ClosureSetting.depthLimit + 1)) = true := by
    rw [List.all_map, List.all_eq_true]
    exact fun s _ => s.isPlain_toJson
  rw [isReadable, plain]
  rfl

theorem decode_of_spells {c : QueryConfig} {rules : List Value} {v : Value} {text : String}
    (spelled : c.Spells rules v) (parsed : Json.parse? text = some v) :
    decode text = if isReadable rules v then .ok c else .error .unreadableConfiguration := by
  rw [decode, parsed, Option.bind_some, spelled.ofJson]
  cases isReadable rules v <;> rfl

theorem parse_encode (c : QueryConfig) : Json.parse? c.encode = some c.toJson :=
  Value.parse_renderSpread c.isExact_toJson

theorem decode_encode (c : QueryConfig) : decode c.encode = .ok c := by
  rw [decode_of_spells c.spells_toJson c.parse_encode, c.isReadable_toJson]
  rfl

/-- Configurations are recovered from what is written of them, which is one way to spell them, and
from any other spelling. What stands beside the fields has no say, unless a key has no text, or a
rule's members are not plain: a number that is not finite, a string without text, or too deep a
nesting. -/
theorem decode_spelled (c : QueryConfig) :
    decode c.encode = .ok c ∧
    (∃ rules v, c.Spells rules v ∧ Json.parse? c.encode = some v) ∧
    ∀ rules v, c.Spells rules v → ∀ text, Json.parse? text = some v →
      decode text = if isReadable rules v then .ok c else .error .unreadableConfiguration := by
  refine ⟨c.decode_encode, ⟨_, _, c.spells_toJson, c.parse_encode⟩, ?_⟩
  intro rules v spelled text parsed
  exact decode_of_spells spelled parsed

end QueryConfig

/-! ### Spellings that are read and that are refused -/

namespace Sample

/-- A rule about dogs under the usual flags. -/
def dogConfig : QueryConfig := ⟨true, false, [⟨.typesOf (.iri "Dog"), true⟩]⟩

def dogTerm : Value :=
  .object [(some "value", .string (some "Dog")), (some "note", .null),
    (some "kind", .string (some "iri"))]

def dogRule : Value :=
  .object [(some "class", dogTerm), (some "depth", .number (.integer 3)),
    (some "rule", .string (some "sub_class_of_target"))]

/-- Fields in another order, among unknown members, and two of the fields left out. -/
def dogSpelling : Value :=
  .object [(some "by", .string (some "ann")), (some "closures", .array [dogRule]),
    (some "range_layer", .boolean true)]

theorem spells_dogSpelling : dogConfig.Spells [dogRule] dogSpelling := by
  have term : (Term.iri "Dog").Spells dogTerm := by
    refine ⟨_, [(some "note", .null)], rfl, ?_, by simp⟩
    show List.Perm ([_, _] ++ [_]) ([_] ++ [_, _])
    exact List.perm_append_comm
  have rule : ClosureSetting.Spells ⟨.typesOf (.iri "Dog"), true⟩ dogRule := by
    refine ⟨[("class", dogTerm)], [], ⟨dogTerm, rfl, term⟩, .inr ⟨rfl, rfl⟩, _,
      [(some "depth", .number (.integer 3))], rfl, ?_, ?_⟩
    · show List.Perm ([_, _] ++ [_]) ([_] ++ [_, _])
      exact List.perm_append_comm
    · simp [ClosureRule.fieldNames, ClosureRule.subject?]
  refine ⟨_, [], _, .inl rfl, .inr ⟨rfl, rfl⟩, .inl rfl, .cons rule .nil, _,
    [(some "by", .string (some "ann"))], rfl, ?_, by simp⟩
  exact (List.reverse_perm _).symm

theorem decode_dogSpelling :
    dogConfig.Spells [dogRule] dogSpelling ∧
    dogSpelling.render = "\x7b\"by\":\"ann\"," ++
      "\"closures\":[\x7b\"class\":\x7b\"value\":\"Dog\",\"note\":null,\"kind\":\"iri\"\x7d," ++
        "\"depth\":3,\"rule\":\"sub_class_of_target\"\x7d]," ++
      "\"range_layer\":true\x7d" ∧
    QueryConfig.decode dogSpelling.render = .ok dogConfig := by
  refine ⟨spells_dogSpelling, by decide +kernel, ?_⟩
  have parsed : Json.parse? dogSpelling.render = some dogSpelling := Value.parse_render rfl
  exact (QueryConfig.decode_spelled dogConfig).2.2 _ _ spells_dogSpelling _ parsed

/-- A rule of the simplest kind with one more member. -/
def ruleBeside (member : Option String × Value) : Value :=
  .object [(some "rule", .string (some "sub_class_of")), member]

def typesConfig : QueryConfig := ⟨true, false, [⟨.types, true⟩]⟩

def configOf (rule : Value) : Value := .object [(some "closures", .array [rule])]

theorem spells_configOf {member : Option String × Value}
    (apart : ∀ name ∈ ["rule", "reflexive"], member.1 ≠ some name) :
    typesConfig.Spells [ruleBeside member] (configOf (ruleBeside member)) := by
  have rule : ClosureSetting.Spells ⟨.types, true⟩ (ruleBeside member) := by
    refine ⟨[], [], rfl, .inr ⟨rfl, rfl⟩, _, [member], rfl,
      List.Perm.refl _, ?_⟩
    intro m beside
    rw [List.mem_singleton.mp beside]
    exact apart
  exact ⟨[], [], _, .inr ⟨rfl, rfl⟩, .inr ⟨rfl, rfl⟩, .inl rfl, .cons rule .nil, _, [], rfl,
    List.Perm.refl _, by simp⟩

/-- Arrays inside each other. -/
def nested : Nat → Value
  | 0 => .array []
  | depth + 1 => .array [nested depth]

/-- The value spells the configuration, and the text that holds it is refused. -/
def Refused (c : QueryConfig) (rules : List Value) (v : Value) (text : String) : Prop :=
  c.Spells rules v ∧ Json.parse? text = some v ∧
    QueryConfig.decode text = .error .unreadableConfiguration

theorem refused_of_spells {c : QueryConfig} {rules : List Value} {v : Value} {text : String}
    (spelled : c.Spells rules v) (parsed : Json.parse? text = some v)
    (unread : QueryConfig.isReadable rules v = false) :
    Refused c rules v text := by
  have read := QueryConfig.decode_of_spells spelled parsed
  rw [unread] at read
  exact ⟨spelled, parsed, read⟩

/-- A rule that is refused for one more member. -/
def RefusedBeside (member : Option String × Value) (written : String) : Prop :=
  Refused typesConfig [ruleBeside member] (configOf (ruleBeside member))
    ("\x7b\"closures\":[\x7b\"rule\":\"sub_class_of\"," ++ written ++ "\x7d]\x7d")

/-- Each limit on unknown members by itself: on their names at the top, and in a rule on names,
numbers, strings and nesting. -/
theorem refused_spellings :
    Refused .standard [] (.object [(none, .null)]) "\x7b\"\\ud800\":null\x7d" ∧
    RefusedBeside (none, .null) "\"\\ud800\":null" ∧
    RefusedBeside (some "x", .number (.decimal false 1 999)) "\"x\":1e999" ∧
    RefusedBeside (some "x", .string none) "\"x\":\"\\ud800\"" ∧
    Refused typesConfig [ruleBeside (some "x", nested 124)]
      (configOf (ruleBeside (some "x", nested 124)))
      (configOf (ruleBeside (some "x", nested 124))).render := by
  have top : QueryConfig.standard.Spells [] (.object [(none, .null)]) :=
    ⟨[], [], [], .inr ⟨rfl, rfl⟩, .inr ⟨rfl, rfl⟩, .inr ⟨rfl, rfl⟩, .nil, _, [(none, .null)],
      rfl, List.Perm.refl _, by simp⟩
  exact ⟨refused_of_spells top rfl rfl, refused_of_spells (spells_configOf (by simp)) rfl rfl,
    refused_of_spells (spells_configOf (by simp)) rfl rfl,
    refused_of_spells (spells_configOf (by simp)) rfl rfl,
    refused_of_spells (spells_configOf (by simp)) (Value.parse_render (by decide +kernel))
      (by decide +kernel)⟩

end Sample

end TripleQuery
