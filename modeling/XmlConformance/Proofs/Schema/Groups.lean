import XmlConformance.Proofs.Schema.Additions
import XmlConformance.Proofs.Schema.Words

/-!
# Proofs/Schema/Groups — groups as they are read

Whatever bounds are written at the model of a group, the group is kept with the bounds of a single
occurrence. So in a schema that was read, a reference to a group stands for the words of the group
itself (`wordsOnce_group_of_load`), and the bounds of the reference alone say how often.
-/

namespace XmlConformance.Schema

open Xml

variable {s : Setting} {c c' : Components}

/-- All groups occur once. -/
def Components.GroupsOnce (c : Components) : Prop := ∀ e ∈ c.groups, e.2.occurs = .once

theorem Components.GroupsOnce.insert {p : Particle} (hc : c.GroupsOnce) (n : ExpandedName)
    (hp : p.occurs = .once) : { c with groups := c.groups.insert n p }.GroupsOnce := by
  intro e he
  obtain he | he := List.mem_append.1 he
  · exact hc e (List.mem_filter.1 he).1
  · obtain rfl := List.mem_singleton.1 he
    exact hp

/-- Every addition keeps that all groups occur once. -/
theorem groupsOnce_of_addition {t : Tag} (h : Addition s t c c') (hc : c.GroupsOnce) :
    c'.GroupsOnce := by
  cases h with
  | groupModel _ _ once => exact hc.insert _ once
  | elementDecl | attributeDecl | typeDefinition | attributeGroup | nothing => exact hc

/-- **The groups of a schema that was read** occur once. -/
theorem groupsOnce_of_load {library : Library} {resolver : Resolver} {d : Document}
    (h : (Components.load library resolver d).outcome = .ok c) : c.GroupsOnce :=
  Components.preserved_of_load groupsOnce_of_addition nofun h

/-- **In a schema that was read** a reference to a group stands for the words of the group. -/
theorem wordsOnce_group_of_load {library : Library} {resolver : Resolver} {d : Document}
    (h : (Components.load library resolver d).outcome = .ok c) (o : Occurs) {n : ExpandedName}
    {g : Particle} (found : c.groups.find? n = some g) :
    c.wordsOnce (.group o n) = c.words g := by
  obtain ⟨before, after, hgroups, -⟩ := List.lookup_eq_some_iff.1 found
  have hmem : (n, g) ∈ c.groups := by simp [hgroups]
  rw [c.wordsOnce_group o found, c.words_of_once (groupsOnce_of_load h _ hmem)]

end XmlConformance.Schema
