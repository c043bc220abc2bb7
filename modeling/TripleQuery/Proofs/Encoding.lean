import TripleQuery.Proofs.Json.Records
import TripleQuery.Proofs.Json.RoundTrip
import TripleQuery.Store.Table

/-!
Terms, triples and intervals are recovered from their encoded texts, so distinct ones have distinct
texts. The text of a term is never empty, which is how a row marks the graph without a name.
-/

namespace TripleQuery.Term

open Json (Value)

theorem isExact_payload (t : Term) : t.payload.isExact = true := by
  cases t with
  | integer value => exact decide_eq_true (Json.Number.storable_toInt value)
  | _ => rfl

theorem isExact_toJson (t : Term) : t.toJson.isExact = true := by
  simp [toJson, Value.isExact, Value.areMembersExact, isExact_payload]

theorem ofPayload_payload (t : Term) : ofPayload? t.kind t.payload = some t := by
  cases t with
  | integer value =>
    obtain ⟨low, high⟩ := Json.Number.storable_toInt value
    have bounds : (-9223372036854775808 : Int) ≤ value.toInt ∧
        value.toInt ≤ 9223372036854775807 :=
      ⟨value.le_toInt, Int.le_of_lt_add_one value.toInt_lt⟩
    simp [kind, payload, ofPayload?, Value.integer?, bounds]
  | _ => rfl

/-- The objects that say a term: its kind and its value in any order, and whatever else. -/
def Spells (t : Term) (v : Value) : Prop :=
  v.Holds ["kind", "value"] [("kind", .string (some t.kind.name)), ("value", t.payload)]

theorem spells_toJson (t : Term) : t.Spells t.toJson :=
  Value.holds_ofFields _ _

theorem Spells.ofJson {t : Term} {v : Value} (spelled : t.Spells v) (heldBack : Bool)
    (named : v.isNamed = true) : ofJson? heldBack v = some t := by
  obtain ⟨members, others, rfl, perm, apart⟩ := spelled
  have fields := Value.memberFields_of_perm perm apart (by simp)
  rw [Value.isNamed] at named
  rw [if_pos named] at fields
  have lookups : (["kind", "value"].map fun name =>
      [("kind", Value.string (some t.kind.name)), ("value", t.payload)].lookup name) =
        [some (.string (some t.kind.name)), some t.payload] := rfl
  rw [lookups] at fields
  simp only [ofJson?, fields, Option.bind_eq_bind, Option.bind_some, Value.name?,
    Kind.ofName?_name, ofPayload_payload]

theorem ofJson_toJson (t : Term) : ofJson? false t.toJson = some t :=
  t.spells_toJson.ofJson false rfl

/-- Encoding loses nothing. -/
theorem decode_encode (t : Term) : decode? t.encode = some t := by
  rw [decode?, encode, Value.parse_render t.isExact_toJson, Option.bind_some, ofJson_toJson]

theorem encode_injective {t u : Term} (h : t.encode = u.encode) : t = u := by
  have decoded := decode_encode t
  rw [h, decode_encode u] at decoded
  exact (Option.some.inj decoded).symm

theorem encode_inj {t u : Term} : t.encode = u.encode ↔ t = u :=
  ⟨encode_injective, congrArg encode⟩

theorem encode_ne_empty (t : Term) : t.encode ≠ "" := by
  intro empty
  have decoded := t.decode_encode
  rw [empty] at decoded
  cases decoded

/-- Kinds have plain names, which no escape touches. -/
theorem flatMap_escape_name (k : Kind) : k.name.toList.flatMap Json.escape = k.name.toList := by
  cases k <;> rfl

theorem write_payload (layout : Value.Layout) (depth : Nat) (t : Term) :
    t.payload.write layout depth = t.payload.write layout 0 := by
  cases t with
  | boolean value => cases value <;> rfl
  | _ => rfl

/-- The written form: the kind by its name, then the value. -/
theorem encode_eq (t : Term) : t.encode =
    "\x7b\"kind\":\"" ++ t.kind.name ++ "\",\"value\":" ++ t.payload.render ++ "\x7d" := by
  apply String.ext
  simp [encode, toJson, Value.render, Value.write, Value.writeMembers, Value.compact,
    Value.stringChars, Json.escapeAll, flatMap_escape_name, write_payload _ 1, Json.escape]

end TripleQuery.Term

namespace TripleQuery

open Json (Value)

/-! ### Triples and intervals -/

theorem Triple.isExact_toJson (t : Triple) : t.toJson.isExact = true := by
  simp [toJson, Value.isExact, Value.areMembersExact, Term.isExact_toJson]

theorem Triple.ofJson_toJson (t : Triple) : ofJson? t.toJson = some t := by
  have fields : t.toJson.fields? ["subject", "predicate", "object"] =
      some [some t.subject.toJson, some t.predicate.toJson, some t.object.toJson] := by
    simp [toJson, Value.fields?, Value.memberFields?, Value.member?, Value.occurrences]
  simp [ofJson?, fields, Term.ofJson_toJson]

theorem Triple.decode_encode (t : Triple) : decode? t.encode = some t := by
  rw [decode?, encode, Value.parse_render t.isExact_toJson, Option.bind_some, ofJson_toJson]

namespace Interval

theorem isExact_boundToJson (bound : Option Term) : (boundToJson bound).isExact = true := by
  cases bound with
  | none => rfl
  | some term => exact term.isExact_toJson

theorem boundOfJson_boundToJson (bound : Option Term) :
    boundOfJson? (some (boundToJson bound)) = some bound := by
  cases bound with
  | none => rfl
  | some term =>
    show (Term.ofJson? false term.toJson).map some = _
    rw [Term.ofJson_toJson]
    rfl

theorem isExact_toJson (r : Interval) : r.toJson.isExact = true := by
  simp [toJson, Value.isExact, Value.areMembersExact, isExact_boundToJson]

theorem ofJson_toJson (r : Interval) : ofJson? r.toJson = some r := by
  have fields : r.toJson.fields? ["min", "max"] =
      some [some (boundToJson r.min), some (boundToJson r.max)] := by
    simp [toJson, Value.fields?, Value.memberFields?, Value.member?, Value.occurrences]
  simp [ofJson?, fields, boundOfJson_boundToJson]

theorem decode_encode (r : Interval) : decode? r.encode = some r := by
  rw [decode?, encode, Value.parse_render r.isExact_toJson, Option.bind_some, ofJson_toJson]

end Interval

/-- Nothing is lost in text. Each term has a text of its own, which names its kind and is not the
mark of the graph without a name. -/
theorem encode_lossless :
    (∀ t : Term, Term.decode? t.encode = some t ∧
      t.encode = "\x7b\"kind\":\"" ++ t.kind.name ++ "\",\"value\":" ++ t.payload.render ++ "\x7d" ∧
      t.encode ≠ Store.Row.contextOf none) ∧
    (∀ t u : Term, t.encode = u.encode ↔ t = u) ∧
    (∀ t : Triple, Triple.decode? t.encode = some t) ∧
    ∀ r : Interval, Interval.decode? r.encode = some r :=
  ⟨fun t => ⟨t.decode_encode, t.encode_eq, t.encode_ne_empty⟩, fun _ _ => Term.encode_inj,
    Triple.decode_encode, Interval.decode_encode⟩

end TripleQuery
