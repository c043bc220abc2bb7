import TripleQuery.Json.Record

/-!
Records read from objects. Only which members have the names of the fields matters, not the order of
the members nor what stands beside them, except that each name has to be a text.
-/

namespace TripleQuery.Json.Value

/-! ### Well-behaved members -/

theorem areMembersPlain_eq_all (room : Nat) (members : List (Option String × Value)) :
    areMembersPlain room members = members.all fun m => m.1.isSome && m.2.isPlain room := by
  induction members with
  | nil => rfl
  | cons member rest ih =>
    obtain ⟨key, value⟩ := member
    rw [areMembersPlain, ih, List.all_cons]

theorem isSome_of_areMembersPlain {room : Nat} {members : List (Option String × Value)}
    (plain : areMembersPlain room members = true) : members.all (·.1.isSome) = true := by
  rw [areMembersPlain_eq_all, List.all_eq_true] at plain
  rw [List.all_eq_true]
  intro m member
  exact (Bool.and_eq_true_iff.mp (plain m member)).1

/-- Whether the keys of an object all have texts. -/
def isNamed : Value → Bool
  | object members => members.all (·.1.isSome)
  | _ => true

theorem isNamed_of_isPlain {room : Nat} {v : Value} (plain : v.isPlain room = true) :
    v.isNamed = true := by
  cases v with
  | object members =>
    rw [isPlain, Bool.and_eq_true] at plain
    exact isSome_of_areMembersPlain plain.2
  | _ => rfl

/-! ### Members and fields -/

/-- The members that write some fields. -/
def ofFields (fields : List (String × Value)) : List (Option String × Value) :=
  fields.map fun field => (some field.1, field.2)

/-- An object with the given fields, of all that it might have: their members in any order, among
members with other names. -/
def Holds (names : List String) (fields : List (String × Value)) (v : Value) : Prop :=
  ∃ members others, v = .object members ∧ members.Perm (ofFields fields ++ others) ∧
    ∀ m ∈ others, ∀ name ∈ names, m.1 ≠ some name

/-- A field that may be left out when it has its usual value. -/
def Given (name : String) (value : Value) (usual : Prop) (fields : List (String × Value)) : Prop :=
  fields = [(name, value)] ∨ (usual ∧ fields = [])

theorem holds_ofFields (names : List String) (fields : List (String × Value)) :
    (object (ofFields fields)).Holds names fields :=
  ⟨ofFields fields, [], rfl, List.append_nil _ ▸ List.Perm.refl _,
    fun _ member => absurd member List.not_mem_nil⟩

variable {names : List String} {fields : List (String × Value)}
  {members others : List (Option String × Value)} {name : String}

theorem filter_ofFields (distinct : (fields.map Prod.fst).Nodup) (name : String) :
    (ofFields fields).filter (fun m => decide (m.1 = some name)) =
      ofFields ((fields.lookup name).toList.map fun value => (name, value)) := by
  induction fields with
  | nil => rfl
  | cons field rest ih =>
    obtain ⟨key, value⟩ := field
    obtain ⟨absent, later⟩ := List.nodup_cons.mp distinct
    by_cases here : name = key
    · subst here
      -- No later field has the same name.
      have none : rest.lookup name = none := by
        rw [List.lookup_eq_none_iff]
        intro field member
        have other : name ≠ field.1 := by
          rintro rfl
          exact absent (List.mem_map.mpr ⟨field, member, rfl⟩)
        simpa using other
      have empty := ih later
      rw [none] at empty
      simp only [ofFields, List.map_cons] at empty ⊢
      simp [empty]
    · have elsewhere : (name == key) = false := by simpa using here
      have rest_only := ih later
      simp only [ofFields, List.map_cons] at rest_only ⊢
      simp [rest_only, List.lookup_cons, elsewhere, Ne.symm here]

/-- What an object says of a field is what the field was given. -/
theorem occurrences_of_perm (perm : members.Perm (ofFields fields ++ others))
    (apart : ∀ m ∈ others, m.1 ≠ some name) (distinct : (fields.map Prod.fst).Nodup) :
    occurrences name members = (fields.lookup name).toList := by
  have beside : others.filter (fun m => decide (m.1 = some name)) = [] := by
    rw [List.filter_eq_nil_iff]
    intro m member
    simpa using apart m member
  have named := perm.filter fun m => decide (m.1 = some name)
  rw [List.filter_append, filter_ofFields distinct, beside, List.append_nil] at named
  unfold occurrences
  cases found : fields.lookup name with
  | none =>
    rw [found] at named
    rw [List.perm_nil.mp named]
    rfl
  | some value =>
    rw [found] at named
    rw [List.perm_singleton.mp named]
    rfl

theorem member_of_perm (perm : members.Perm (ofFields fields ++ others))
    (apart : ∀ m ∈ others, m.1 ≠ some name) (distinct : (fields.map Prod.fst).Nodup) :
    member? members name = some (fields.lookup name) := by
  rw [member?, occurrences_of_perm perm apart distinct]
  cases fields.lookup name <;> rfl

theorem memberFields_of_perm (perm : members.Perm (ofFields fields ++ others))
    (apart : ∀ m ∈ others, ∀ name ∈ names, m.1 ≠ some name)
    (distinct : (fields.map Prod.fst).Nodup) :
    memberFields? names members =
      if members.all (·.1.isSome) then some (names.map fun name => fields.lookup name)
      else none := by
  unfold memberFields?
  split
  · have found : ∀ name ∈ names, member? members name = some (fields.lookup name) :=
      fun name listed => member_of_perm perm (fun m beside => apart m beside name listed) distinct
    clear apart
    induction names with
    | nil => rfl
    | cons name rest ih =>
      obtain ⟨first, later⟩ := List.forall_mem_cons.mp found
      rw [List.mapM_cons, first, ih later]
      rfl
  · rfl

/-! ### Fields that may be left out -/

namespace Given

variable {value : Value} {usual : Prop}

theorem sublist (given : Given name value usual fields) :
    (fields.map Prod.fst).Sublist [name] := by
  rcases given with rfl | ⟨-, rfl⟩
  · exact List.Sublist.refl _
  · exact List.nil_sublist _

theorem lookup_of_ne (given : Given name value usual fields) {other : String}
    (different : other ≠ name) : fields.lookup other = none := by
  rcases given with rfl | ⟨-, rfl⟩
  · have elsewhere : (other == name) = false := by simpa using different
    simp [List.lookup_cons, elsewhere]
  · rfl

/-- A field left out reads as if it were given, where its usual value is the fallback. -/
theorem orElse_eq (given : Given name value usual fields) {α : Type} {fallback : α}
    {read : Value → Option α} (fits : usual → read value = some fallback) :
    orElse fallback read (fields.lookup name) = read value := by
  rcases given with rfl | ⟨holds, rfl⟩
  · simp [orElse]
  · exact (fits holds).symm

end Given

end TripleQuery.Json.Value
