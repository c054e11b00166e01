import HeapDump.Proofs.ObjectGraph.Walk

/-! Accepted dumps.  Of all that is read from a dump after it has been accepted, only the fields of an
undecodable instance can fail to be read, and with them what goes through its references: its
references, walks, and analyses, each if and only if it comes to such an instance. -/

namespace HeapDump.ObjectGraph

/-- For each way to read from an accepted dump later, the exact condition on which it does not fail. -/
theorem decoding_of_accepted (file : ByteArray) (graph : ObjectGraph)
    (h : read (.ofBytes file) = .ok graph) :
    (∀ i, Instance.plain i ∈ graph.instances →
      ((∃ values, graph.fieldValues i = .ok values) ↔ ¬graph.Undecodable i) ∧
        ((∃ values, graph.resolvedValues i = .ok values) ↔ ¬graph.Undecodable i)) ∧
    (∀ a, Instance.array a ∈ graph.instances →
      (∃ targets, graph.arrayTargets a = .ok targets) ∧
        ∃ values, graph.arrayValues a = .ok values) ∧
    (∀ i ∈ graph.instances, ∃ text, graph.stringValue i = .ok text) ∧
    (∀ id, (∃ ids, graph.references id = .ok ids) ↔ ¬graph.Broken id) ∧
    ((∃ tree, graph.dominators = .ok tree) ↔
      ∀ id, graph.rooted.Reachable id → ¬graph.Broken id) ∧
    ((∃ sizes, graph.retainedSizes = .ok sizes) ↔
      ∀ id, graph.rooted.Reachable id → ¬graph.Broken id) ∧
    ((∀ descend, ∃ walk, Walk.fromRoots graph descend = .ok () walk) ↔
      ∀ id, graph.rooted.Reachable id → ¬graph.Broken id) := by
  have sound : graph.Sound := read_sound (ByteSource.lawful_ofBytes file) h
  refine ⟨fun i hi => ?_, fun a ha => ?_, fun i hi => ?_, ?_, ?_, ?_, ?_⟩
  · exact ⟨sound.fieldValues_ok_iff hi, sound.resolvedValues_ok_iff hi⟩
  · exact ⟨sound.arrayTargets_ok ha, sound.arrayValues_ok ha⟩
  · exact sound.stringValue_ok hi
  · exact sound.references_ok_iff
  · exact sound.dominators_ok_iff
  · exact sound.retainedSizes_ok_iff
  · exact Walk.fromRoots_ok_iff sound

/-- An instance without bytes whose class comes after it and has its identifier. -/
def clash : ByteArray :=
  (Draft.toBytes ⟨"JAVA PROFILE 1.0.2", .four, 0,
    [.heapDump [.instance ⟨5⟩ ⟨5⟩ [],
      .classDump ⟨5⟩ none 0 [] [] [(⟨1⟩, .primitive .int)]]]⟩).toByteArray

theorem decoding_of_accepted_clash :
    ∃ graph, read (.ofBytes clash) = .ok graph ∧
      (∀ i, Instance.plain i ∈ graph.instances →
        ((∃ values, graph.fieldValues i = .ok values) ↔ ¬graph.Undecodable i) ∧
          ((∃ values, graph.resolvedValues i = .ok values) ↔ ¬graph.Undecodable i)) := by
  have hok : (read (.ofBytes clash)).isOk = true := by decide +kernel
  cases h : read (.ofBytes clash) with
  | error e =>
    rw [h] at hok
    cases hok
  | ok graph => exact ⟨graph, rfl, (decoding_of_accepted clash graph h).1⟩

/-- The dump is accepted, and yet its instance cannot be decoded. -/
theorem clash_undecodable :
    ∃ graph i e, read (.ofBytes clash) = .ok graph ∧ Instance.plain i ∈ graph.instances ∧
      graph.fieldValues i = .error e := by
  have hfails : ((read (.ofBytes clash)).toOption.any fun graph =>
      (graph.instances.filterMap (·.plain?)).any fun i => !(graph.fieldValues i).isOk) = true := by
    decide +kernel
  cases h : read (.ofBytes clash) with
  | error e =>
    rw [h] at hfails
    cases hfails
  | ok graph =>
    rw [h] at hfails
    obtain ⟨i, hi, hfail⟩ := List.any_eq_true.mp hfails
    obtain ⟨entry, hentry, hplain⟩ := List.mem_filterMap.mp hi
    cases entry with
    | array a => cases hplain
    | plain j =>
      cases hplain
      cases hvalues : graph.fieldValues i with
      | ok values =>
        rw [hvalues] at hfail
        cases hfail
      | error e => exact ⟨graph, i, e, rfl, hentry, hvalues⟩

end HeapDump.ObjectGraph
