import CallBinding.Proofs.Reconcile.Sweep

/-!
# Arguments along a plan

Every resolution synchronises the callers of the definition that it keeps, and
a later one may remove this definition.  So a call site stops at several
definitions of its family on its way, and it takes the arguments of each that
are known in full.  In the end it has those of the survivor, and only if these
are not known it may be left with what it took on the way.
-/

namespace CallBinding

namespace Host

open CallBinding.Graph (Distinct family)

/-- The definitions with which the call sites of a name are synchronised while a plan is carried
out: after each resolution the one that it keeps, if its name is theirs by then. -/
def stops (host : Host) : List Resolution → String → List Definition
  | [], _ => []
  | first :: rest, name =>
      (if follow [first] name = first.keptName then (host.definition? first.kept).toList else []) ++
        host.stops rest (follow [first] name)

/-- The arguments of a call site that is synchronised with several definitions in turn. -/
def argumentsFromEach (host : Host) (definitions : List Definition) (current : Parameters) :
    Parameters :=
  definitions.foldl (fun current definition => host.argumentsFrom definition current) current

/-- What a plan makes of a call site. -/
def led (host : Host) (plan : List Resolution) (call : CallSite) : CallSite where
  id := call.id
  name := follow plan call.name
  arguments := host.argumentsFromEach (host.stops plan call.name) call.arguments

variable {host : Host}

theorem argumentsFromEach_append (host : Host) (first second : List Definition)
    (current : Parameters) :
    host.argumentsFromEach (first ++ second) current =
      host.argumentsFromEach second (host.argumentsFromEach first current) :=
  List.foldl_append

/-- Only arguments that are known in full are taken. -/
theorem argumentsFromEach_cases (host : Host) (definitions : List Definition)
    (current : Parameters) :
    host.argumentsFromEach definitions current = current ∨
      ∃ definition ∈ definitions, host.Resolves definition.parameters ∧
        host.argumentsFromEach definitions current = host.resolved definition.parameters := by
  induction definitions using List.reverseRecOn with
  | nil => exact Or.inl rfl
  | append_singleton earlier last ih =>
      have hstep : host.argumentsFromEach (earlier ++ [last]) current =
          host.argumentsFrom last (host.argumentsFromEach earlier current) :=
        host.argumentsFromEach_append earlier [last] current
      by_cases hresolves : host.Resolves last.parameters
      · exact Or.inr ⟨last, by simp, hresolves, hstep.trans (if_pos hresolves)⟩
      · rw [hstep, argumentsFrom, if_neg hresolves]
        refine ih.imp_right ?_
        rintro ⟨definition, hmem, hspec⟩
        exact ⟨definition, List.mem_append_left _ hmem, hspec⟩

/-- A stop is the definition that some resolution keeps, whose name the call site has by then. -/
theorem mem_stops {plan : List Resolution} {name : String} {definition : Definition}
    (h : definition ∈ host.stops plan name) :
    ∃ earlier step rest, plan = earlier ++ step :: rest ∧
      host.definition? step.kept = some definition ∧
      follow (earlier ++ [step]) name = step.keptName := by
  induction plan generalizing name with
  | nil => cases h
  | cons first rest ih =>
      rcases List.mem_append.mp h with hhere | hlater
      · split at hhere
        next hname => exact ⟨[], first, rest, rfl, by simpa using hhere, hname⟩
        next => cases hhere
      · obtain ⟨earlier, step, more, rfl, hkept, hname⟩ := ih hlater
        exact ⟨first :: earlier, step, more, rfl, hkept, hname⟩

theorem stops_congr {other : Host} {plan : List Resolution}
    (h : ∀ resolution ∈ plan,
      other.definition? resolution.kept = host.definition? resolution.kept) (name : String) :
    other.stops plan name = host.stops plan name := by
  induction plan generalizing name with
  | nil => rfl
  | cons first rest ih =>
      rw [stops, stops, h first List.mem_cons_self,
        ih fun resolution hmem => h resolution (List.mem_cons_of_mem first hmem)]

/-- One resolution makes of every call site what it makes of it by itself. -/
theorem callSites_resolve (hfaultless : host.Faultless) (hdistinct : Distinct host.editor.blocks)
    {removed kept : Definition} (hremoved : removed ∈ Graph.definitions host.editor.blocks)
    (hkept : kept ∈ Graph.definitions host.editor.blocks) (hne : kept.id ≠ removed.id) (rule : Rule)
    (report : ApplyReport) :
    Graph.callSites (host.resolve (resolution removed.asMember (rule, kept.asMember))
        report).2.editor.blocks =
      (Graph.callSites host.editor.blocks).map
        (host.led [resolution removed.asMember (rule, kept.asMember)]) := by
  set step := resolution removed.asMember (rule, kept.asMember)
  have hissues := host.withdraw_issues step
  have hmid := hissues.faultless hfaultless
  have hmidDistinct := hissues.distinct hdistinct
  have hlive : kept ∈ Graph.definitions (host.withdraw step).editor.blocks := by
    rw [definitions_withdraw hfaultless hdistinct hremoved rfl]
    exact List.mem_filter.mpr ⟨hkept, by simpa using hne⟩
  have hsurvivor : (host.withdraw step).survivorOf? step = some kept := by
    have hfound : (host.withdraw step).definition? step.kept = some kept :=
      (definition?_eq_some_iff hmid hmidDistinct).mpr ⟨hlive, rfl⟩
    rw [survivorOf?, hfound, Option.some_or]
  have hstops (name : String) : host.stops [step] name =
      if follow [step] name = kept.name then [kept] else [] := by
    have hfound : host.definition? step.kept = some kept :=
      (definition?_eq_some_iff hfaultless hdistinct).mpr ⟨hkept, rfl⟩
    rw [stops, stops, List.append_nil, hfound]
    rfl
  rw [resolve_of_mem hfaultless hdistinct hremoved rfl, syncSurvivor, hsurvivor]
  dsimp only
  rw [callSites_syncCallers hmid hmidDistinct hlive,
    callSites_withdraw hfaultless hdistinct hremoved rfl, List.map_map]
  refine List.map_congr_left fun call _ => ?_
  have hfrom := argumentsFrom_congr hissues.declarations kept
  simp only [Function.comp_apply, led, hstops, follow_cons, follow_nil, hfrom]
  by_cases hname : call.name = step.removedName
  · have hkeptName : step.keptName = kept.name := rfl
    simp only [if_pos hname, if_pos hkeptName]
    rfl
  · simp only [if_neg hname]
    split <;> rfl

/-- What the rest of a plan makes of a call site is known before the first resolution. -/
theorem led_led {mid : Host} {first : Resolution} {rest : List Resolution}
    (hdeclarations : mid.editor.declarations = host.editor.declarations)
    (hkept : ∀ resolution ∈ rest,
      mid.definition? resolution.kept = host.definition? resolution.kept) (call : CallSite) :
    mid.led rest (host.led [first] call) = host.led (first :: rest) call := by
  have hfrom : mid.argumentsFromEach = host.argumentsFromEach := by
    funext definitions current
    simp only [argumentsFromEach, argumentsFrom_congr hdeclarations]
  simp only [led, hfrom, stops_congr hkept, stops, List.append_nil, argumentsFromEach_append]
  rfl

theorem definition?_kept {mid : Host} {plan : List Resolution} (hfaultless : host.Faultless)
    (hdistinct : Distinct host.editor.blocks) (hmid : mid.Faultless)
    (hmidDistinct : Distinct mid.editor.blocks)
    (hsub : Graph.definitions mid.editor.blocks ⊆ Graph.definitions host.editor.blocks)
    (hplan : Feasible mid.members plan) {resolution : Resolution} (hmem : resolution ∈ plan) :
    mid.definition? resolution.kept = host.definition? resolution.kept := by
  obtain ⟨member, hmember, hid, -⟩ := hplan.kept_mem resolution hmem
  obtain ⟨kept, hkept, rfl⟩ := mem_members hmember
  rw [(definition?_eq_some_iff hmid hmidDistinct).mpr ⟨hkept, hid⟩,
    (definition?_eq_some_iff hfaultless hdistinct).mpr ⟨hsub hkept, hid⟩]

/-- A feasible plan makes of every call site what it makes of it by itself. -/
theorem callSites_apply (hfaultless : host.Faultless) (hdistinct : Distinct host.editor.blocks)
    {plan : List Resolution} (hplan : Feasible host.members plan) :
    Graph.callSites (host.apply plan).2.editor.blocks =
      (Graph.callSites host.editor.blocks).map (host.led plan) := by
  unfold apply
  generalize ApplyReport.blank = report
  generalize hlive : host.members = live at hplan
  induction hplan generalizing host report with
  | nil => exact (List.map_id _).symm
  | @cons live _ _ rule plan hremovedMem hkeptMem hne hvalid hbase hrest ih =>
      subst hlive
      obtain ⟨removed, hremoved, rfl⟩ := mem_members hremovedMem
      obtain ⟨kept, hkept, rfl⟩ := mem_members hkeptMem
      set step := resolution removed.asMember (rule, kept.asMember)
      have hissues := host.resolve_issues step report
      have hmid := hissues.faultless hfaultless
      have hmidDistinct := hissues.distinct hdistinct
      have henacts := enacts_resolve hfaultless hdistinct hremoved (rfl : step.removed = _) report
      have hmembers : (host.resolve step report).2.members =
          host.members.filter fun member => member.id ≠ removed.asMember.id :=
        henacts.members_single
      have hsub : Graph.definitions (host.resolve step report).2.editor.blocks ⊆
          Graph.definitions host.editor.blocks := by
        rw [henacts.definitions]
        exact List.filter_sublist.subset
      have hlater := ih hmid hmidDistinct (host.resolve step report).1 hmembers
      rw [resolveAll]
      dsimp only
      rw [hlater, callSites_resolve hfaultless hdistinct hremoved hkept hne rule report,
        List.map_map]
      rw [← hmembers] at hrest
      exact List.map_congr_left fun call _ => led_led hissues.declarations
        (fun _ hmem => definition?_kept hfaultless hdistinct hmid hmidDistinct hsub hrest hmem) call

/-! ## Stops of a feasible plan -/

/-- A stop is a live definition of a valid name, which is the name of the call site by then. -/
theorem exists_of_mem_stops (hdistinct : Distinct host.editor.blocks) {plan : List Resolution}
    (hplan : Feasible host.members plan) {name : String} {definition : Definition}
    (h : definition ∈ host.stops plan name) :
    definition ∈ Graph.definitions host.editor.blocks ∧ Name.base? definition.name ≠ none ∧
      ∃ earlier step rest, plan = earlier ++ step :: rest ∧ step.kept = definition.id ∧
        follow (earlier ++ [step]) name = definition.name := by
  obtain ⟨earlier, step, rest, rfl, hfound, hname⟩ := mem_stops h
  obtain ⟨hlive, hid⟩ := mem_of_definition? hfound
  obtain ⟨member, hmember, hkept, hkeptName, hbase, -⟩ := hplan.kept_mem step (by simp)
  obtain ⟨kept, hmem, rfl⟩ := mem_members hmember
  obtain rfl : kept = definition := hdistinct.definition_eq hmem hlive (hkept.trans hid.symm)
  exact ⟨hlive, hbase, earlier, step, rest, rfl, hkept.symm, hname.trans hkeptName.symm⟩

/-- A call site that stops at a definition had the name of a live definition from the start. -/
theorem carried_of_mem_stops (hdistinct : Distinct host.editor.blocks) {plan : List Resolution}
    (hplan : Feasible host.members plan) {name : String} {definition : Definition}
    (h : definition ∈ host.stops plan name) :
    ∃ former ∈ Graph.definitions host.editor.blocks,
      Name.base? former.name ≠ none ∧ former.name = name := by
  obtain ⟨hlive, hbase, earlier, step, rest, rfl, -, hname⟩ :=
    exists_of_mem_stops hdistinct hplan h
  by_contra hnone
  simp only [not_exists, not_and] at hnone
  have hsame : follow (earlier ++ [step]) name = name := by
    refine follow_eq_self fun resolution hresolution => ?_
    have hmem : resolution ∈ earlier ++ step :: rest := by
      rw [List.append_cons]
      exact List.mem_append_left rest hresolution
    obtain ⟨member, hmember, -, hremovedName, hvalid⟩ := hplan.removed_mem resolution hmem
    obtain ⟨removed, hremoved, rfl⟩ := mem_members hmember
    exact hremovedName ▸ hnone removed hremoved hvalid
  exact hnone definition hlive hbase (hname.symm.trans hsame)

/-- A stop is of the family of the name to which the whole plan leads. -/
theorem base?_of_mem_stops (hdistinct : Distinct host.editor.blocks) {plan : List Resolution}
    (hplan : Feasible host.members plan) {name : String} {definition : Definition}
    (h : definition ∈ host.stops plan name) :
    Name.base? definition.name = Name.base? (follow plan name) := by
  obtain ⟨-, -, earlier, step, rest, rfl, -, hname⟩ := exists_of_mem_stops hdistinct hplan h
  have hwithin : ∀ resolution ∈ earlier ++ step :: rest,
      Name.base? resolution.keptName = Name.base? resolution.removedName := by
    intro resolution hmem
    obtain ⟨_, _, _, _, _, hbase⟩ := hplan.kept_mem resolution hmem
    exact hbase
  rw [base?_follow hwithin, ← hname, base?_follow]
  intro resolution hmem
  rw [List.append_cons] at hwithin
  exact hwithin resolution (List.mem_append_left rest hmem)

/-! ## Sweeps -/

/-- How the arguments of a call site come about that it has after a sweep. -/
inductive Supplied (before after : Host) (call live : CallSite) : Prop
  /-- They are those of the definition that it names, which are known in full. -/
  | due (definition : Definition) : after.definitionNamed? live.name = some definition →
      after.Resolves definition.parameters →
      live.arguments = after.resolved definition.parameters → Supplied before after call live
  /-- It names no definition of which they are known in full, and has kept its own. -/
  | kept : (∀ definition, after.definitionNamed? live.name = some definition →
        ¬after.Resolves definition.parameters) →
      live.arguments = call.arguments → Supplied before after call live
  /-- Those of the definition that it names are not known in full, and it has kept those of a
  removed one of the same family, which a resolution had kept when the call site had its name. -/
  | passed (definition removed : Definition) (earlier rest : List Resolution) (step : Resolution) :
      after.definitionNamed? live.name = some definition →
      ¬after.Resolves definition.parameters →
      removed ∈ before.definitions → removed ∉ after.definitions →
      Name.base? removed.name = Name.base? definition.name →
      plan before.members = earlier ++ step :: rest → step.kept = removed.id →
      follow (earlier ++ [step]) call.name = removed.name →
      before.Resolves removed.parameters →
      live.arguments = before.resolved removed.parameters → Supplied before after call live

/-- A call site that stops at a definition names one after a sweep. -/
theorem definitionNamed?_sweep_of_mem_stops (hfaultless : host.Faultless)
    (hdistinct : Distinct host.editor.blocks) {name : String} {stop : Definition}
    (h : stop ∈ host.stops (plan host.members) name) :
    host.sweep.2.definitionNamed? (follow (plan host.members) name) ≠ none := by
  have hplan := feasible_plan (nodup_members hdistinct)
  obtain ⟨former, hformer, hvalid, rfl⟩ := carried_of_mem_stops hdistinct hplan h
  obtain ⟨base, hbase⟩ := Option.ne_none_iff_exists'.mp hvalid
  have hmem := Graph.mem_family.mpr ⟨hformer, hbase⟩
  obtain ⟨survivor, -, hsurvivor, hfamily⟩ := family_sweep hfaultless hdistinct hmem
  have hlast : survivor ∈ family base host.sweep.2.editor.blocks := by simp [hfamily]
  rw [follow_plan_of_carried hdistinct hmem hsurvivor, definitionNamed?_eq]
  intro hnone
  simpa using List.find?_eq_none.mp hnone survivor (Graph.mem_family.mp hlast).1

/-- Of the definitions at which a call site stops, only the one that it names at the end stays. -/
theorem eq_of_mem_stops_of_mem_sweep (hfaultless : host.Faultless)
    (hdistinct : Distinct host.editor.blocks) {name : String} {stop definition : Definition}
    (h : stop ∈ host.stops (plan host.members) name)
    (hnamed : host.sweep.2.definitionNamed? (follow (plan host.members) name) = some definition)
    (hstays : stop ∈ Graph.definitions host.sweep.2.editor.blocks) : stop = definition := by
  have hplan := feasible_plan (nodup_members hdistinct)
  obtain ⟨hlive, hvalid, -⟩ := exists_of_mem_stops hdistinct hplan h
  obtain ⟨base, hbase⟩ := Option.ne_none_iff_exists'.mp hvalid
  obtain ⟨hdefinition, hname⟩ := mem_of_definitionNamed? hnamed
  have hsame : Name.base? definition.name = some base := by
    rw [hname, ← base?_of_mem_stops hdistinct hplan h, hbase]
  obtain ⟨survivor, -, -, hfamily⟩ :=
    family_sweep hfaultless hdistinct (Graph.mem_family.mpr ⟨hlive, hbase⟩)
  have honly {other : Definition} (hother : other ∈ Graph.definitions host.sweep.2.editor.blocks)
      (hotherBase : Name.base? other.name = some base) : other = survivor := by
    have hmem := Graph.mem_family.mpr ⟨hother, hotherBase⟩
    rwa [hfamily, List.mem_singleton] at hmem
  rw [honly hstays hbase, honly hdefinition hsame]

/-- After a sweep every call site is there, and its arguments are supplied. -/
theorem supplied_sweep (hfaultless : host.Faultless) (hdistinct : Distinct host.editor.blocks)
    {call : CallSite} (hcall : call ∈ host.callSites) :
    ∃ live ∈ host.sweep.2.callSites, live.id = call.id ∧
      Supplied host host.sweep.2 call live := by
  have hplan := feasible_plan (nodup_members hdistinct)
  have hresolves (parameters : Parameters) :
      host.sweep.2.Resolves parameters ↔ host.Resolves parameters := by
    rw [Resolves, Resolves, identitiesOf_congr host.sweep_issues.declarations]
  obtain ⟨live, hlive, hid, hname, hdue⟩ : ∃ live ∈ host.sweep.2.callSites, live.id = call.id ∧
      live.name = (host.led (plan host.members) call).name ∧
      live.arguments = host.sweep.2.dueArguments (host.led (plan host.members) call) := by
    refine ⟨{ host.led (plan host.members) call with
      arguments := host.sweep.2.dueArguments (host.led (plan host.members) call) }, ?_, rfl, rfl,
      by dsimp only⟩
    rw [callSites_eq] at hcall ⊢
    rw [callSites_sweep hfaultless hdistinct, callSites_apply hfaultless hdistinct hplan]
    exact List.mem_map_of_mem (List.mem_map_of_mem hcall)
  refine ⟨live, hlive, hid, ?_⟩
  rw [dueArguments, ← hname] at hdue
  have hfollow : live.name = follow (plan host.members) call.name := hname
  have hled := host.argumentsFromEach_cases (host.stops (plan host.members) call.name)
    call.arguments
  cases hnamed : host.sweep.2.definitionNamed? live.name with
  | none =>
      rw [hnamed] at hdue
      rcases hled with hsame | ⟨stop, hstop, -⟩
      · refine .kept (fun definition hdefinition => ?_) (hdue.trans hsame)
        cases hnamed.symm.trans hdefinition
      · rw [hfollow] at hnamed
        exact absurd hnamed (definitionNamed?_sweep_of_mem_stops hfaultless hdistinct hstop)
  | some definition =>
      rw [hnamed] at hdue
      by_cases hknown : host.sweep.2.Resolves definition.parameters
      · exact .due definition hnamed hknown (hdue.trans (if_pos hknown))
      · have harguments := hdue.trans (if_neg hknown)
        rcases hled with hsame | ⟨stop, hstop, hstopKnown, htaken⟩
        · refine .kept (fun other hother => ?_) (harguments.trans hsame)
          rwa [← Option.some.inj (hnamed.symm.trans hother)]
        · obtain ⟨hstopLive, -, earlier, step, rest, hsplit, hkept, hthere⟩ :=
            exists_of_mem_stops hdistinct hplan hstop
          have hremoved : stop ∉ host.sweep.2.definitions := by
            rw [definitions_eq]
            intro hstays
            have hlast := hfollow ▸ hnamed
            obtain rfl := eq_of_mem_stops_of_mem_sweep hfaultless hdistinct hstop hlast hstays
            exact hknown ((hresolves _).mpr hstopKnown)
          have hbase : Name.base? stop.name = Name.base? definition.name := by
            rw [base?_of_mem_stops hdistinct hplan hstop, (mem_of_definitionNamed? hnamed).2, hfollow]
          rw [← definitions_eq] at hstopLive
          exact .passed definition stop earlier rest step hnamed hknown hstopLive hremoved hbase
            hsplit hkept hthere hstopKnown (harguments.trans htaken)

end Host
end CallBinding
