import TapeMachine.Proofs.Catalogue.Machines

/-!
# Entries of the catalogue

Every entry is a definition with the program that it describes. The catalogue has one entry for each
of its machines (`map_entries`), which is found by its name.
-/

namespace TapeMachine.Catalogue

/-- The program of a number is that of the entry. -/
theorem programAt_of_entry {index : Nat} {e : Entry} (h : entries[index]? = some e) :
    programAt index = .ok e.program := by
  rw [programAt, h]
  rfl

/-- The definition of a number is that of the entry. -/
theorem sourceAt_of_entry {index : Nat} {e : Entry} (h : entries[index]? = some e) :
    sourceAt index = .ok e.source := by
  rw [sourceAt, h]
  rfl

/-- There is no program of a number that no entry has. -/
theorem programAt_of_none {index : Nat} (h : entries[index]? = none) :
    programAt index = .error (.program index) := by
  rw [programAt, h]
  rfl

private theorem parse_of_mem_filterMap {sources : List String} {e : Entry}
    (h : e ∈ sources.filterMap Entry.ofSource?) :
    ∃ warnings, Definition.parse e.source = .ok (e.program, warnings) := by
  rw [List.mem_filterMap] at h
  obtain ⟨source, -, hs⟩ := h
  unfold Entry.ofSource? at hs
  split at hs
  · next program warnings hp =>
    cases hs
    exact ⟨warnings, hp⟩
  · cases hs

/-- An entry's program is what its definition describes. -/
theorem parse_of_mem_entries {e : Entry} (h : e ∈ entries) :
    ∃ warnings, Definition.parse e.source = .ok (e.program, warnings) :=
  parse_of_mem_filterMap h

private theorem map_ofSource? (source : String) :
    (Entry.ofSource? source).map (fun e ↦ (e.program.name, e.program.machine)) =
      described? source := by
  unfold Entry.ofSource? described?
  cases Definition.parse source <;> rfl

/-- The entries are those of the machines, in order. -/
theorem map_entries : entries.map (fun e ↦ (e.program.name, e.program.machine)) = machines := by
  have hsources : sources.filterMap described? = (sources.map described?).filterMap id := by
    rw [List.filterMap_map]
    rfl
  rw [entries, List.map_filterMap]
  simp only [map_ofSource?]
  rw [hsources, parse_sources, List.filterMap_map]
  exact List.filterMap_some

/-- The program of a machine is found by a name if the machine is the first with this name. -/
theorem exists_programNamed {name found : String} {m : Machine}
    (h : machines.find? (fun n ↦ sameName n.1 name) = some (found, m)) :
    ∃ p, programNamed name = .ok p ∧ p.name = found ∧ p.machine = m := by
  rw [← map_entries, List.find?_map, Option.map_eq_some_iff] at h
  obtain ⟨e, he, heq⟩ := h
  refine ⟨e.program, ?_, congrArg Prod.fst heq, congrArg Prod.snd heq⟩
  have hfind : (entries.find? fun e ↦ sameName e.program.name name) = some e := he
  rw [programNamed, hfind]
  rfl

/-- The catalogue has a first entry. -/
theorem exists_entry_zero : ∃ e, entries[0]? = some e := by
  have h : (entries.map fun e ↦ (e.program.name, e.program.machine))[0]? =
      some ("Even number of a's", evenAsMachine) := by
    rw [map_entries]
    rfl
  rw [List.getElem?_map, Option.map_eq_some_iff] at h
  obtain ⟨e, he, -⟩ := h
  exact ⟨e, he⟩

end TapeMachine.Catalogue
