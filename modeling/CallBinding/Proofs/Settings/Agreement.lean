import CallBinding.Proofs.Json.Record
import CallBinding.Proofs.Settings.Variables
import CallBinding.Settings.Document

/-!
# Two ways to give settings

Settings can be given in a document and by variables, in full or in part.  Both
ways lead to the same settings or to the same error, and what is written of
settings in full is read back, unless the settings are refused.
-/

namespace CallBinding
namespace Settings

/-- What settings consist of. -/
inductive Field where
  | defaultName
  | wait (delay : Delay)
  deriving DecidableEq

namespace Field

/-- The fields in the order in which they are written. -/
def all : List Field :=
  defaultName :: Delay.all.map wait

def key : Field → String
  | defaultName => "default_name"
  | wait delay => delay.key

def variableName : Field → String
  | defaultName => defaultNameVariable
  | wait delay => delay.variableName

theorem mem_all (field : Field) : field ∈ all := by
  rcases field with _ | _ | _ | _ | _ <;> decide

theorem key_injective : Function.Injective key := by
  rintro (_ | _ | _ | _ | _) (_ | _ | _ | _ | _) h <;> first | rfl | exact absurd h (by decide)

theorem variableName_injective : Function.Injective variableName := by
  rintro (_ | _ | _ | _ | _) (_ | _ | _ | _ | _) h <;> first | rfl | exact absurd h (by decide)

end Field

/-- A field as a JSON value. -/
def jsonOf (settings : Settings) : Field → Json
  | .defaultName => .string settings.defaultName
  | .wait delay => .natural (settings.delay delay).toNat

/-- A field as the text of a variable. -/
def textOf (settings : Settings) : Field → String
  | .defaultName => settings.defaultName
  | .wait delay => decimal (settings.delay delay).toNat

/-- The members of a document that has only some of the fields. -/
def membersOf (settings : Settings) (chosen : Field → Bool) : List (String × Json) :=
  (Field.all.filter chosen).map fun field => (field.key, settings.jsonOf field)

/-- The variables that give only some of the fields. -/
def variablesOf (settings : Settings) (chosen : Field → Bool) : List (String × String) :=
  (Field.all.filter chosen).map fun field => (field.variableName, settings.textOf field)

/-- The settings in which all but some fields have their defaults. -/
def restrict (settings : Settings) (chosen : Field → Bool) : Settings :=
  let delayOf (delay : Delay) : UInt64 :=
    if chosen (.wait delay) then settings.delay delay else default.delay delay
  { defaultName := if chosen .defaultName then settings.defaultName else default.defaultName
    spawnCheckDelay := delayOf .spawnCheck
    recheckDelay := delayOf .recheck
    debounce := delayOf .debounce
    suppressionWindow := delayOf .suppressionWindow }

/-- A document of some fields: an object with their members in any order, and any other members
that settings do not have. -/
def IsDocumentOf (settings : Settings) (chosen : Field → Bool) (text : String) : Prop :=
  ∃ members : List (String × Json),
    (members.filter fun member => member.1 ∈ keys).Perm (settings.membersOf chosen) ∧
      (Json.record members).IsWritten text

variable {settings : Settings} {chosen : Field → Bool} {members : List (String × Json)}
  {text : String}

theorem keys_eq : keys = Field.all.map Field.key := rfl

theorem toDocument_eq (settings : Settings) :
    settings.toDocument = (Json.record (settings.membersOf fun _ => true)).render := rfl

theorem toVariables_eq (settings : Settings) :
    settings.toVariables = settings.variablesOf fun _ => true := rfl

theorem restrict_all (settings : Settings) : (settings.restrict fun _ => true) = settings := rfl

theorem delay_restrict (settings : Settings) (chosen : Field → Bool) (delay : Delay) :
    (settings.restrict chosen).delay delay =
      if chosen (.wait delay) then settings.delay delay else default.delay delay := by
  cases delay <;> rfl

/-! ## Chosen fields -/

theorem lookup_map_pair {α : Type} {name : Field → String} (hname : Function.Injective name)
    (value : Field → α) (field : Field) (fields : List Field) :
    (fields.map fun other => (name other, value other)).lookup (name field) =
      if field ∈ fields then some (value field) else none := by
  induction fields with
  | nil => rfl
  | cons other rest ih =>
      rw [List.map_cons, List.lookup_cons, ih]
      by_cases hfield : field = other
      · simp [hfield]
      · simp [hfield, beq_false_of_ne (hname.ne hfield)]

/-- Of all fields, those that are chosen are found under their names. -/
theorem lookup_chosen {α : Type} {name : Field → String} (hname : Function.Injective name)
    (value : Field → α) (chosen : Field → Bool) (field : Field) :
    ((Field.all.filter chosen).map fun other => (name other, value other)).lookup (name field) =
      if chosen field then some (value field) else none := by
  rw [lookup_map_pair hname]
  simp [field.mem_all]

/-! ## Variables -/

theorem spells_decimal (value : UInt64) : Spells (decimal value.toNat) value := by
  refine ⟨(decimal value.toNat).toList, ⟨[], [], by simp, ?_, ?_⟩, isNumeral_decimal value.toNat⟩
  all_goals exact fun c hc => nomatch hc

theorem overrides_variablesOf (settings : Settings) (chosen : Field → Bool) :
    Overrides (fun name => (settings.variablesOf chosen).lookup name)
      (settings.restrict chosen) := by
  have hname : (settings.variablesOf chosen).lookup defaultNameVariable =
      if chosen .defaultName then some settings.defaultName else none :=
    lookup_chosen Field.variableName_injective settings.textOf chosen .defaultName
  have hdelay (delay : Delay) : (settings.variablesOf chosen).lookup delay.variableName =
      if chosen (.wait delay) then some (decimal (settings.delay delay).toNat) else none :=
    lookup_chosen Field.variableName_injective settings.textOf chosen (.wait delay)
  refine ⟨?_, fun delay hunset => ?_, fun delay text hgiven => ?_⟩
  · rw [hname, restrict]
    split <;> rfl
  · rw [hdelay, ite_eq_right_iff] at hunset
    rw [delay_restrict, if_neg fun hchosen => nomatch hunset hchosen]
  · rw [hdelay, Option.ite_none_right_eq_some, Option.some.injEq] at hgiven
    obtain ⟨hchosen, rfl⟩ := hgiven
    rw [delay_restrict, if_pos hchosen]
    exact spells_decimal (settings.delay delay)

theorem ofVariables_variablesOf (settings : Settings) (chosen : Field → Bool) :
    ofVariables (fun name => (settings.variablesOf chosen).lookup name) =
      (settings.restrict chosen).validated :=
  (overrides_variablesOf settings chosen).ofVariables_eq

/-! ## Documents -/

theorem delayOfJson?_natural (value : UInt64) :
    delayOfJson? (.natural value.toNat) = some value := by
  rw [delayOfJson?, Json.naturalBelow?_natural value.toNat_lt, Option.map_some,
    UInt64.ofNat_toNat]

theorem nodup_membersOf (settings : Settings) (chosen : Field → Bool) :
    ((settings.membersOf chosen).map (·.1)).Nodup := by
  have hall : Field.all.Nodup := by decide
  rw [membersOf, List.map_map]
  exact (hall.filter chosen).map Field.key_injective

theorem recordValues?_record
    (h : (members.filter fun member => member.1 ∈ keys).Perm (settings.membersOf chosen)) :
    (Json.record members).recordValues? keys = some (Field.all.map fun field =>
      if chosen field then some (settings.jsonOf field) else none) := by
  rw [Json.record, Json.recordValues?,
    Json.valuesByKey?_of_perm (nodup_membersOf settings chosen) h, keys_eq, List.map_map]
  exact congrArg some (List.map_congr_left fun field _ =>
    lookup_chosen Field.key_injective settings.jsonOf chosen field)

/-- A value is read where it is given, and the default is taken elsewhere. -/
theorem readOr_ite {α : Type} {read? : Json → Option α} {json : Json} {value : α}
    (h : read? json = some value) (absent : α) (given : Bool) :
    readOr absent read? (if given then some json else none) =
      some (if given then value else absent) := by
  cases given
  · rfl
  · exact h

theorem ofJson?_record
    (h : (members.filter fun member => member.1 ∈ keys).Perm (settings.membersOf chosen)) :
    ofJson? (.record members) = some (settings.restrict chosen) := by
  let given (field : Field) := if chosen field then some (settings.jsonOf field) else none
  have hvalues : (Json.record members).recordValues? keys =
      some [given .defaultName, given (.wait .spawnCheck), given (.wait .recheck),
        given (.wait .debounce), given (.wait .suppressionWindow)] := recordValues?_record h
  have hstring : Json.string? (settings.jsonOf .defaultName) = some settings.defaultName := rfl
  have hname : readOr default.defaultName Json.string? (given .defaultName) =
      some (settings.restrict chosen).defaultName := readOr_ite hstring _ _
  have hdelay (delay : Delay) : readOr (default.delay delay) delayOfJson? (given (.wait delay)) =
      some ((settings.restrict chosen).delay delay) := by
    rw [delay_restrict]
    exact readOr_ite (delayOfJson?_natural _) _ _
  rw [ofJson?, hvalues]
  refine Option.bind_eq_some_iff.mpr ⟨_, hname, ?_⟩
  refine Option.bind_eq_some_iff.mpr ⟨_, hdelay .spawnCheck, ?_⟩
  refine Option.bind_eq_some_iff.mpr ⟨_, hdelay .recheck, ?_⟩
  refine Option.bind_eq_some_iff.mpr ⟨_, hdelay .debounce, ?_⟩
  exact Option.bind_eq_some_iff.mpr ⟨_, hdelay .suppressionWindow, rfl⟩

theorem IsDocumentOf.ofDocument_eq (h : settings.IsDocumentOf chosen text) :
    ofDocument text = (settings.restrict chosen).validated := by
  obtain ⟨members, hmembers, hwritten⟩ := h
  rw [ofDocument, hwritten.parse?_eq, Option.bind_some, ofJson?_record hmembers]

theorem filter_membersOf (settings : Settings) (chosen : Field → Bool) :
    ((settings.membersOf chosen).filter fun member => member.1 ∈ keys) =
      settings.membersOf chosen := by
  refine List.filter_eq_self.mpr fun member hmember => ?_
  obtain ⟨field, -, rfl⟩ := List.mem_map.mp hmember
  have hkey : field.key ∈ keys := List.mem_map_of_mem field.mem_all
  exact decide_eq_true hkey

theorem isDocumentOf_render (settings : Settings) (chosen : Field → Bool) :
    settings.IsDocumentOf chosen (Json.record (settings.membersOf chosen)).render :=
  ⟨_, .of_eq (filter_membersOf settings chosen), Json.isWritten_render _⟩

/-! ## Both ways -/

/-- Documents and variables give the same: settings given in full are given back if they are
acceptable and refused for what is wrong with them if not, and the same of what some fields and
the defaults make. -/
theorem documents_and_variables_agree (settings : Settings) :
    ofDocument settings.toDocument = settings.validate.map (fun _ => settings) ∧
    ofVariables (fun name => settings.toVariables.lookup name) =
      settings.validate.map (fun _ => settings) ∧
    ∀ chosen text, settings.IsDocumentOf chosen text →
      ofDocument text = ofVariables (fun name => (settings.variablesOf chosen).lookup name) ∧
      ofDocument text =
        (settings.restrict chosen).validate.map (fun _ => settings.restrict chosen) := by
  refine ⟨?_, ?_, fun chosen text htext => ⟨?_, htext.ofDocument_eq⟩⟩
  · rw [toDocument_eq, (isDocumentOf_render settings _).ofDocument_eq, restrict_all, validated]
  · rw [toVariables_eq, ofVariables_variablesOf, restrict_all, validated]
  · rw [htext.ofDocument_eq, ofVariables_variablesOf]

/-- Without its second delay the window is too short: the default of that delay is as long. -/
theorem documents_and_variables_agree_without_recheck :
    let settings : Settings := ⟨"a\"b\n", 18446744073709551615, 0, 7, 50⟩
    let chosen (field : Field) : Bool := field ≠ .wait .recheck
    let text := (Json.record (("other", .null) :: (settings.membersOf chosen).reverse)).render
    settings.IsDocumentOf chosen text ∧
      ofDocument text = ofVariables (fun name => (settings.variablesOf chosen).lookup name) ∧
      ofDocument text = .error (.windowTooShort 50 50) := by
  intro settings chosen text
  have hdocument : settings.IsDocumentOf chosen text := by
    refine ⟨_, ?_, Json.isWritten_render _⟩
    rw [List.filter_cons_of_neg (by decide), List.filter_reverse, filter_membersOf]
    exact List.reverse_perm _
  obtain ⟨hagree, hresult⟩ := (documents_and_variables_agree settings).2.2 chosen text hdocument
  exact ⟨hdocument, hagree, hresult.trans (by decide)⟩

end Settings
end CallBinding
