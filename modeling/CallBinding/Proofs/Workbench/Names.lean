import CallBinding.Proofs.Controller.Naming
import CallBinding.Proofs.Workbench.Sound

/-!
# Names are usable

Whatever its settings and the faults of its host, a controller remembers no
name but a valid one.  If its settings are acceptable and its host has no
faults, every live call site has a valid name once the news of its creation has
been handled, and this name is remembered.
-/

namespace CallBinding

theorem Settings.isValid_defaultName {settings : Settings} (h : settings.validate = .ok ()) :
    Name.isValid settings.defaultName = true := by
  unfold validate at h
  split at h
  · cases h
  next hname => simpa [Name.isValid] using hname

theorem Editor.OnlyCallSite.exists_callSite {editor : Editor} {id : BlockId}
    (h : editor.OnlyCallSite id) (hlive : editor.contains id = true) :
    ∃ call ∈ Graph.callSites editor.blocks, call.id = id := by
  obtain ⟨block, hblock, hid⟩ := Editor.contains_eq_true_iff.mp hlive
  exact ⟨_, Graph.mem_callSites.mpr ⟨block, hblock, h.2 block hblock hid, rfl⟩, hid⟩

namespace Workbench

variable {bench : Workbench} {controller : Controller}

theorem Reachable.remembersValid {allowed : Move → Prop} (h : Reachable allowed bench)
    (hseat : bench.seat = .running controller) : controller.RemembersValid := by
  obtain ⟨autoDefine, hleads⟩ := h
  let invariant (bench : Workbench) : Prop :=
    ∀ controller, bench.seat = .running controller → controller.RemembersValid
  have hinvariant : invariant bench := by
    refine hleads.preserves invariant ?_ fun _ h => by cases h
    intro bench move h _ later hlater
    cases seats_move hlater with
    | installed cleanup settings => exact .new settings cleanup
    | told _ hformer _ _ | idled hformer _ | woken _ hformer | ticked _ hformer
    | dismissed hformer => exact (h _ hformer).of_eq rfl
    | @turned former next message rest hformer _ hfate =>
        have hpopped : Controller.RemembersValid { former with mailbox := rest } :=
          (h _ hformer).of_eq rfl
        have hnext : next.RemembersValid := hpopped.handle hfate
        exact hnext.of_eq rfl
  exact hinvariant controller hseat

/-- What becomes of the name of a new call site. -/
structure Named (controller next : Controller) (host : Host) (prior : List BlockId)
    (former live : CallSite) : Prop where
  id : live.id = former.id
  isValid : Name.isValid live.name = true
  remembered : next.lastGoodName = some live.name
  /-- It is the call site's own, that of an older definition, the one that was remembered, or the
  default name. -/
  origin : live.name = former.name ∨
    (∃ definition ∈ host.definitions, definition.id ∈ prior ∧ definition.name = live.name) ∨
    controller.lastGoodName = some live.name ∨ live.name = controller.settings.defaultName

/-- The name that a controller remembers is valid in every run, and in runs without scripted faults
acceptable settings make it the name of each live call site whose creation has been handled. -/
theorem named_of_reachable (h : Reachable (fun _ => True) bench)
    (hseat : bench.seat = .running controller) :
    (∀ name, controller.lastGoodName = some name → Name.isValid name = true) ∧
    (Reachable Move.IsFaultless bench → controller.settings.validate = .ok () →
      ∀ call prior rest, controller.mailbox = .callSiteCreated call prior :: rest →
        bench.host.editor.contains call = true →
        ∃ next, bench.handleNext.seat = .running next ∧
          ∃ former ∈ bench.host.callSites, former.id = call ∧
            ∃ live ∈ bench.handleNext.host.callSites,
              Named controller next bench.host prior former live) := by
  have hlast : controller.RemembersValid := h.remembersValid hseat
  refine ⟨hlast, ?_⟩
  intro hreachable hsettings call prior rest hmailbox hcontains
  have hsound := hreachable.sound
  have honly := (hsound.knows controller hseat).messages call prior
    (hmailbox ▸ List.mem_cons_self)
  obtain ⟨former, hformer, rfl⟩ := honly.exists_callSite hcontains
  let popped : Controller := { controller with mailbox := rest }
  obtain ⟨hremembered, live, hlive, hid, hname⟩ := Controller.exists_named_onCallSiteCreated
    hsound.faultless hsound.numbered.distinct hformer popped bench.clock prior
  have hvalid : Name.isValid live.name = true := by
    rw [hname]
    exact Controller.isValid_nameFor (hlast.of_eq rfl) (Settings.isValid_defaultName hsettings)
      (fun _ => Controller.isValid_of_mem_usable) former.name
  have hturn : popped.handle bench.clock bench.host (.callSiteCreated former.id prior) =
      .proceed (popped.onCallSiteCreated bench.clock bench.host former.id prior).1
        (popped.onCallSiteCreated bench.clock bench.host former.id prior).2 := rfl
  obtain ⟨hhost, hnext⟩ := handleNext_of_proceed hseat hmailbox hturn
  refine ⟨_, hnext, former, by rwa [Host.callSites_eq], rfl, live, ?_, hid, hvalid, ?_, ?_⟩
  · rw [Host.callSites_eq, hhost]
    exact hlive
  · rw [hname] at hvalid ⊢
    exact hremembered.trans (Controller.lastGoodName_remember_of_isValid hvalid popped)
  · rw [hname]
    rcases popped.nameFor_origin (bench.host.usable prior) former.name with
      hown | ⟨definition, hdefinition, holder⟩ | hknown | hdefault
    · exact Or.inl hown
    · exact Or.inr (Or.inl ⟨definition, (List.mem_filter.mp hdefinition).1,
        Host.mem_prior_of_mem_usable hdefinition, holder⟩)
    · exact Or.inr (Or.inr (Or.inl hknown))
    · exact Or.inr (Or.inr (Or.inr hdefault))

/-- Without any definition, an unnamed call site takes the name that the one before it was given. -/
theorem named_of_reachable_unnamed :
    let bench := ((new false).run
      [.attach .count .default, .user (.call "f"), .advance 0, .user (.call "unnamed")]).2
    let controller := { Controller.new .default .count with
      sessions := [⟨⟨0⟩, ⟨0⟩, [], .delayedRecheck, [], []⟩]
      nextSession := 1
      lastGoodName := some "f"
      agenda := [⟨50, .recheck ⟨0⟩⟩, ⟨3500, .window ⟨0⟩⟩]
      mailbox := [.callSiteCreated ⟨1⟩ []] }
    (Reachable (fun _ => True) bench ∧ bench.seat = .running controller ∧
      Reachable Move.IsFaultless bench ∧ controller.settings.validate = .ok () ∧
      bench.host.editor.contains ⟨1⟩ = true) ∧
      (∀ name, controller.lastGoodName = some name → Name.isValid name = true) ∧
      ∃ next, bench.handleNext.seat = .running next ∧
        ∃ former ∈ bench.host.callSites, former.id = ⟨1⟩ ∧
          ∃ live ∈ bench.handleNext.host.callSites,
            Named controller next bench.host [] former live := by
  intro bench controller
  have hreachable : Reachable (fun _ => True) bench :=
    ⟨false, leads_run (fun _ _ => trivial) _ _ fun _ _ _ _ => trivial⟩
  have hfaultless : Reachable Move.IsFaultless bench := reachable_run _ _ (by decide)
  have hseat : bench.seat = .running controller := by decide +kernel
  have hsettings : controller.settings.validate = .ok () := by decide +kernel
  have hcontains : bench.host.editor.contains ⟨1⟩ = true := by decide +kernel
  obtain ⟨hvalid, hnamed⟩ := named_of_reachable hreachable hseat
  exact ⟨⟨hreachable, hseat, hfaultless, hsettings, hcontains⟩, hvalid,
    hnamed hfaultless hsettings ⟨1⟩ [] [] rfl hcontains⟩

end Workbench
end CallBinding
