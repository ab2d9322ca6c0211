import CallBinding.Proofs.Editor.Store
import CallBinding.Proofs.Workbench.Works

/-!
# The store between moves

Whatever users, programs and the controller do, the store of the editor stays
in order: blocks are listed by their numbers, and names and reflexes are what
they should be.  What has been given out is never taken back: a block keeps its
role for life, its number is not used again when it is gone, and a variable
keeps its identity.
-/

namespace CallBinding

open Editor (Evolves Sustains)

namespace Editor

/-- The store of an editor is in order. -/
structure Stored (editor : Editor) : Prop where
  increasing : (editor.blocks.map (·.id)).Pairwise fun a b => a.number < b.number
  below : ∀ block ∈ editor.blocks, block.id.number < editor.nextBlock
  found : ∀ block ∈ editor.blocks, editor.block? block.id = some block
  named : ∀ block ∈ editor.blocks, block.HasName
  injective : ∀ name other identity, editor.declarations.get? name = some identity →
    editor.declarations.get? other = some identity → name = other
  reflexes : ∀ name ∈ editor.reflexes, Name.isValid name = true

/-- What has been given out is not taken back. -/
structure Endures (before after : Editor) : Prop where
  roles : ∀ block ∈ before.blocks, ∀ later ∈ after.blocks, later.id = block.id →
    later.role = block.role
  declared : ∀ name identity, before.declarations.get? name = some identity →
    after.declarations.get? name = some identity

variable {editor before after : Editor}

theorem Numbered.stored (hnumbered : editor.Numbered) (hfurnished : editor.Furnished) :
    editor.Stored where
  increasing := hnumbered.increasing
  below := hnumbered.below
  found _ hblock := hnumbered.distinct.find?_eq_some_iff.mpr ⟨hblock, rfl⟩
  named := hfurnished.named
  injective _ _ _ hname hother := hfurnished.injective hname hother
  reflexes := hfurnished.reflexes

theorem Evolves.endures (hevolves : Evolves before after) (hsustains : Sustains before after)
    (hnumbered : before.Numbered) : Endures before after := by
  refine ⟨fun block hblock later hlater hid => ?_, hsustains.declared⟩
  rcases hevolves.origin later hlater with ⟨former, hformer, hformerId, hrole⟩ | hyoung
  · rw [← hrole, hnumbered.distinct.eq_of_id hformer hblock (hformerId.trans hid)]
  · have hbelow := hnumbered.below block hblock
    rw [hid] at hyoung
    omega

/-- An id that has been given away and is not live will not be live. -/
theorem Evolves.contains_eq_false (hevolves : Evolves before after) {id : BlockId}
    (hgiven : id.number < before.nextBlock) (hgone : before.contains id = false) :
    after.contains id = false := by
  rw [← Bool.not_eq_true, contains_eq_true_iff] at hgone ⊢
  rintro ⟨block, hblock, rfl⟩
  rcases hevolves.origin block hblock with ⟨former, hformer, hid, -⟩ | hyoung
  · exact hgone ⟨former, hformer, hid⟩
  · omega

end Editor

/-- However a host is worked on, its store stays furnished. -/
theorem Host.Worked.sustains {host after : Host} (h : host.Worked after) :
    Sustains host.editor after.editor := by
  cases h with
  | acted hact => exact Editor.sustains_act hact
  | issued hissues =>
      obtain ⟨commands, -, rfl⟩ := hissues
      exact .of_replayAll commands rfl rfl rfl
  | hushed hissues =>
      obtain ⟨commands, -, rfl⟩ := hissues
      exact .of_replayAll commands rfl rfl rfl
  | forgot | suppressed | resumed => exact .of_named rfl (List.Subset.refl _) id

namespace Workbench

variable {bench first mid last : Workbench}

namespace Ordered

theorem sustains_move (h : Ordered bench) (move : Move) :
    Sustains bench.host.editor (bench.move move).host.editor := by
  obtain ⟨host, hworks⟩ := works_move h move
  have hdelivered : Sustains host.editor host.editor.delivered :=
    .of_named rfl (List.Subset.refl _) id
  rw [hworks.editor]
  exact hworks.worked.sustains.trans hdelivered

/-- What one move keeps is kept by any number of moves. -/
theorem evolves_leads {allowed : Move → Prop} (h : Ordered first)
    (hleads : Leads allowed first last) :
    Evolves first.host.editor last.host.editor ∧ Sustains first.host.editor last.host.editor := by
  have hlast := hleads.preserves (fun bench => Ordered bench ∧
    Evolves first.host.editor bench.host.editor ∧ Sustains first.host.editor bench.host.editor)
    ?_ ⟨h, .refl _, .refl _⟩
  · exact hlast.2
  · rintro bench move ⟨hordered, hevolves, hsustains⟩ -
    have hmoved := evolves_move hordered.consistent.numbered hordered.turnReplays move
    exact ⟨hordered.move move, hevolves.trans hmoved.2,
      hsustains.trans (hordered.sustains_move move)⟩

end Ordered

/-- Between any two moves the store is in order.  Since any earlier moment roles and identities
have been kept, and no block that went in the meantime is back. -/
theorem stored_of_reachable (h : Reachable (fun _ => True) first)
    (hmid : Leads (fun _ => True) first mid) (hlast : Leads (fun _ => True) mid last) :
    last.host.editor.Stored ∧ Editor.Endures first.host.editor last.host.editor ∧
      ∀ block ∈ first.host.editor.blocks, mid.host.editor.contains block.id = false →
        last.host.editor.contains block.id = false := by
  have hfirst : Ordered first := h.ordered
  obtain ⟨autoDefine, hstart⟩ := h
  have hleads : Leads (fun _ => True) first last := hmid.trans hlast
  obtain ⟨hevolves, hsustains⟩ := hfirst.evolves_leads hleads
  refine ⟨?_, hevolves.endures hsustains hfirst.consistent.numbered, ?_⟩
  · have hall := (ordered_new autoDefine).evolves_leads (hstart.trans hleads)
    exact (hfirst.leads hleads).consistent.numbered.stored
      (hall.2.furnished (Editor.furnished_new autoDefine))
  · intro block hblock hgone
    have hbelow := hfirst.consistent.numbered.below block hblock
    have hgiven := hbelow.trans_le (hfirst.evolves_leads hmid).1.nextBlock_le
    exact ((hfirst.leads hmid).evolves_leads hlast).1.contains_eq_false hgiven hgone

/-- One definition is removed by the user and another one by a cleanup.  The next block gets a new
number, and the variable of the first keeps its identity. -/
theorem stored_of_reachable_removed :
    let first := ((new true).run [.user (.define "f" ["x"]), .user (.define "g" ["y"]),
      .user (.call "h"), .attach .sweep .default]).2
    let mid := (first.run [.user (.remove ⟨0⟩)]).2
    let last := (mid.run [.user .runReflexes, .user (.define "g1" ["x", "z"]),
      .host (.command (.setField ⟨2⟩ nameField "g1")), .advance 300, .user (.call "f")]).2
    last.host.editor.blocks.map (·.id.number) = [1, 2, 3, 5] ∧
      last.host.editor.reflexes = ["f"] ∧
      last.host.editor.declarations.entries = [("x", ⟨0⟩), ("y", ⟨1⟩), ("z", ⟨2⟩)] ∧
      last.host.editor.Stored ∧ Editor.Endures first.host.editor last.host.editor ∧
      last.host.editor.contains ⟨0⟩ = false := by
  intro first mid last
  have hreachable : Reachable (fun _ => True) first :=
    ⟨true, leads_run (fun _ _ => trivial) _ _ fun _ _ _ _ => trivial⟩
  have hmid : Leads (fun _ => True) first mid :=
    leads_run (fun _ _ => trivial) _ _ fun _ _ _ _ => trivial
  have hlast : Leads (fun _ => True) mid last :=
    leads_run (fun _ _ => trivial) _ _ fun _ _ _ _ => trivial
  obtain ⟨hstored, hendures, hgone⟩ := stored_of_reachable hreachable hmid hlast
  have hlive : ∃ block ∈ first.host.editor.blocks, block.id = ⟨0⟩ := by decide +kernel
  have hremoved : mid.host.editor.contains ⟨0⟩ = false := by decide +kernel
  obtain ⟨block, hblock, hid⟩ := hlive
  have hnever := hgone block hblock
  rw [hid] at hnever
  refine ⟨?_, ?_, ?_, hstored, hendures, hnever hremoved⟩
  · decide +kernel
  · decide +kernel
  · decide +kernel

end Workbench
end CallBinding
