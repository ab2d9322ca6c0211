import CallBinding.Family.Rule

/-!
# Plans

A plan lists the definitions that have to go, one after another, and the member
of its family to which each of them yields at that moment.  Planning is pure:
it looks at a list of members in graph order and changes nothing.
-/

namespace CallBinding

/-- A planned removal of one definition in favour of another. -/
structure Resolution where
  removed : BlockId
  removedName : String
  kept : BlockId
  keptName : String
  rule : Rule
  deriving DecidableEq, Repr

/-- The resolution that a ruling on a member amounts to. -/
def resolution (removed : Member) (ruling : Rule × Member) : Resolution :=
  ⟨removed.id, removed.name, ruling.2.id, ruling.2.name, ruling.1⟩

/-- Takes out the first member on which there is a ruling. -/
def removeFirst? (rule? : Member → Option (Rule × Member)) :
    List Member → Option (Resolution × List Member)
  | [] => none
  | member :: rest =>
      match rule? member with
      | some ruling => some (resolution member ruling, rest)
      | none =>
          (removeFirst? rule? rest).map fun (removal, left) => (removal, member :: left)

theorem length_of_removeFirst? {rule? : Member → Option (Rule × Member)} {live left : List Member}
    {removal : Resolution} (h : removeFirst? rule? live = some (removal, left)) :
    live.length = left.length + 1 := by
  induction live generalizing left removal with
  | nil => simp [removeFirst?] at h
  | cons member rest ih =>
      unfold removeFirst? at h
      split at h
      · simp only [Option.some.injEq, Prod.mk.injEq] at h
        simp [h.2]
      · simp only [Option.map_eq_some_iff] at h
        obtain ⟨⟨removal', left'⟩, hrest, heq⟩ := h
        simp only [Prod.mk.injEq] at heq
        simp [← heq.2, ih hrest]

/-- Removes members one at a time until there is no ruling on any that is left.  After each
removal the search starts again at the first member. -/
def removals (rule? : List Member → Member → Option (Rule × Member)) (live : List Member) :
    List Resolution :=
  match _ : removeFirst? (rule? live) live with
  | none => []
  | some (removal, left) => removal :: removals rule? left
termination_by live.length
decreasing_by
  have := length_of_removeFirst? ‹_ = some (removal, left)›
  omega

/-- Adds a member to the family of its base, which comes last when it is new. -/
def enroll (base : String) (member : Member) :
    List (String × List Member) → List (String × List Member)
  | [] => [(base, [member])]
  | family :: rest =>
      if family.1 = base then
        (base, family.2 ++ [member]) :: rest
      else
        family :: enroll base member rest

/-- The families of the validly named members, in the order of their first members. -/
def families (members : List Member) : List (String × List Member) :=
  members.foldl
    (fun families member =>
      match Name.base? member.name with
      | none => families
      | some base => enroll base member families)
    []

/-- The members that belong to the family of a base. -/
def familyOf (base : String) (members : List Member) : List Member :=
  members.filter fun member => Name.base? member.name = some base

/-- The older member to which a newcomer yields: one with at least as many parameters, by
preference of its own name, then of the base name, then in graph order. -/
def elderOf? (prior : List BlockId) (family : List Member) (candidate : Member) :
    Option Member :=
  let rivals := family.filter fun member =>
    member.id ≠ candidate.id && prior.contains member.id && candidate.count ≤ member.count
  ((rivals.find? fun member => member.name = candidate.name).or
    (rivals.find? fun member => Name.base? candidate.name = some member.name)).or rivals.head?

/-- The ruling on a member of a family some of whose members are older than an open session.
Older members stay; a newcomer yields to them before it is judged by the table. -/
def newcomerRuling? (prior : List BlockId) (family : List Member) (candidate : Member) :
    Option (Rule × Member) :=
  if prior.contains candidate.id then
    none
  else
    ((elderOf? prior family candidate).map fun kept => (Rule.priorSibling, kept)).or
      (ruling? family candidate)

/-- The removals that leave one member of every family.  Placeholders are never removed. -/
def plan (members : List Member) : List Resolution :=
  (families members).flatMap fun family => removals ruling? family.2

/-- The removals within the family of one name. -/
def planFamily (members : List Member) (name : String) : List Resolution :=
  match Name.base? name with
  | none => []
  | some base => plan (familyOf base members)

/-- The removals within the family of one name, sparing the members older than a session. -/
def planSpawned (members : List Member) (name : String) (prior : List BlockId) :
    List Resolution :=
  match Name.base? name with
  | none => []
  | some base => removals (newcomerRuling? prior) (familyOf base members)

end CallBinding
