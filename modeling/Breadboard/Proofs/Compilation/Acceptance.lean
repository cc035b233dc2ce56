import Breadboard.Proofs.Compilation.Compile
import Breadboard.Proofs.Compilation.Verdict

namespace Breadboard.Netlist

open Relation

/-- What is wrong with two lists of nodes as the boundary of a gate: a node is no live pin of its
kind or is listed twice, or an input pin that is read is not listed. -/
inductive IllFormed (nl : Netlist Gate) (inputs outputs : List NodeId) : Prop where
  | notInput (id : NodeId) (h : id ∈ inputs) (hp : nl.inputPin? id = none)
  | inputTwice (h : ¬ inputs.Nodup)
  | notOutput (id : NodeId) (h : id ∈ outputs) (hp : nl.outputPin? id = none)
  | outputTwice (h : ¬ outputs.Nodup)
  | undeclared (id : NodeId) (h : nl.Undeclared inputs outputs id)

variable {nl : Netlist Gate} {inputs outputs : List NodeId}

theorem checkBoundary_of_not_illFormed (h : ¬ nl.IllFormed inputs outputs) :
    nl.checkBoundary inputs outputs = .ok () := by
  refine checkBoundary_eq_ok_iff.2 ⟨⟨?_, ?_⟩, ?_, ?_⟩
  · intro id hid
    by_contra hr
    exact h (.notInput id hid (Option.not_isSome_iff_eq_none.1 fun hp =>
      hr (inputPin?_isSome_iff.1 hp)))
  · by_contra hn
    exact h (.inputTwice hn)
  · intro id hid
    by_contra hr
    exact h (.notOutput id hid (Option.not_isSome_iff_eq_none.1 fun hp =>
      hr (outputPin?_isSome_iff.1 hp)))
  · by_contra hn
    exact h (.outputTwice hn)

/-- A boundary that is accepted and has no undeclared pins behind it has a gate. -/
theorem WellFormed.exists_compileBetween (hw : nl.WellFormed)
    (hb : nl.checkBoundary inputs outputs = .ok ())
    (hd : ∀ id, ¬ nl.Undeclared inputs outputs id) (name : String) (metadata : Metadata) :
    ∃ g, (nl.compileBetween name inputs outputs metadata).value = .ok g := by
  have hfallback := exists_hierarchicalGate hw hb hd name metadata
  have hverdict := hw.decomposes inputs outputs
  unfold compileBetween
  generalize nl.decompose inputs outputs = verdict at hverdict
  cases hverdict with
  | refused hb' => exact nomatch hb.symm.trans hb'
  | rejected _ hblocked =>
    cases hblocked with
    | undeclared hid => exact absurd hid (hd _)
  | blocked | tooLarge =>
    obtain ⟨g, hg⟩ := hfallback
    exact ⟨g, by simp only [hg, Except.mapError]⟩
  | split _ hi =>
    obtain ⟨g, _, hg, _⟩ := hi.exists_tabledGate (checkBoundary_eq_ok hb).2.2 name metadata
    exact ⟨g, by simp only [hg, Except.mapError]⟩

/-- A gate has no undeclared pins behind its outputs, in either form. -/
theorem WellFormed.not_undeclared_of_ok (hw : nl.WellFormed) {name : String}
    {metadata : Metadata} {g : Gate}
    (hg : (nl.compileBetween name inputs outputs metadata).value = .ok g) (id : NodeId) :
    ¬ nl.Undeclared inputs outputs id := by
  intro h
  obtain ⟨hr, hn, o, ho, hp⟩ := h
  obtain ⟨_, _, ⟨islands, hi, _⟩ | ⟨part, nodes, _, hc⟩⟩ := compileBetween_eq_ok hw hg
  · obtain ⟨island, hm, ho'⟩ := (hi.produced o).1 ho
    rcases (hi.exact island hm).mem_of_transGen hw ho' hp with hnode | ⟨_, hpin⟩
    · exact (((hi.exact island hm).nodes id).1 hnode).1.role?_ne_input hr
    · exact hn ((hi.exact island hm).inputs_listed.subset hpin)
  · exact hn (hc.inputs_iff id (hc.embeds.transGen (hc.outputs_mem ho) hp).2 hr)

theorem WellFormed.not_illFormed_of_ok (hw : nl.WellFormed) {name : String} {metadata : Metadata}
    {g : Gate} (hg : (nl.compileBetween name inputs outputs metadata).value = .ok g) :
    ¬ nl.IllFormed inputs outputs := by
  obtain ⟨⟨hin, hni⟩, hout, hno⟩ := checkBoundary_eq_ok (compileBetween_cases hg).1
  intro h
  cases h with
  | notInput id hid hp =>
    have hpin := inputPin?_isSome_iff.2 (hin id hid)
    simp [hp] at hpin
  | inputTwice hn => exact hn hni
  | notOutput id hid hp =>
    have hpin := outputPin?_isSome_iff.2 (hout id hid)
    simp [hp] at hpin
  | outputTwice hn => exact hn hno
  | undeclared id hid => exact hw.not_undeclared_of_ok hg id hid

/-- Compilation answers an error exactly for an ill-formed boundary, and between its own pins a
netlist always compiles. -/
theorem Reachable.compile_rejects_iff (hr : nl.Reachable) (name : String) (metadata : Metadata) :
    (∀ inputs outputs : List NodeId,
      (∃ e, (nl.compileBetween name inputs outputs metadata).value = .error e) ↔
        nl.IllFormed inputs outputs) ∧
      ∃ g, (nl.compile name metadata).value = .ok g := by
  have hw := hr.wellFormed
  constructor
  · intro inputs outputs
    constructor
    · intro hrejected
      obtain ⟨e, he⟩ := hrejected
      by_contra h
      obtain ⟨g, hg⟩ := hw.exists_compileBetween (checkBoundary_of_not_illFormed h)
        (fun id hid => h (.undeclared id hid)) name metadata
      exact nomatch he.symm.trans hg
    · intro h
      cases hv : (nl.compileBetween name inputs outputs metadata).value with
      | error e => exact ⟨e, rfl⟩
      | ok g => exact absurd h (hw.not_illFormed_of_ok hv)
  · exact hw.exists_compileBetween hw.checkBoundary_own (fun _ => hw.not_undeclared_own) name
      metadata

/-- A latch whose gate reads itself first and the input second. -/
def crossedLatch : Netlist Gate := ((latch.link 2 0 2 0).2.link 2 1 0 0).2

theorem reachable_crossedLatch : crossedLatch.Reachable :=
  (reachable_latch.link 2 0 2 0).link 2 1 0 0

/-- The decomposition stops at the loop before it comes to the undeclared pin, which the closure
does not miss. -/
theorem compile_rejects_iff_crossedLatch :
    crossedLatch.Reachable ∧ crossedLatch.decompose [] [1] = .ok (.fallback (.feedback 2)) ∧
      (∃ e, (crossedLatch.compileBetween "L" [] [1] ∅).value = .error e) ∧
      ¬ crossedLatch.IllFormed [0] [1] ∧ ∃ g, (crossedLatch.compile "L" ∅).value = .ok g := by
  have hloop : crossedLatch.decompose [] [1] = .ok (.fallback (.feedback 2)) := by cbv
  obtain ⟨hrejects, g, hg⟩ := Reachable.compile_rejects_iff reachable_crossedLatch "L" ∅
  have output_reads : crossedLatch.Reads 1 2 := ⟨⟨2, 0⟩, by decide, rfl⟩
  have gate_reads : crossedLatch.Reads 2 0 := ⟨⟨0, 0⟩, by decide, rfl⟩
  have hpin : crossedLatch.Undeclared [] [1] 0 :=
    ⟨rfl, List.not_mem_nil, 1, List.mem_singleton_self 1, .head output_reads (.single gate_reads)⟩
  refine ⟨reachable_crossedLatch, hloop, (hrejects [] [1]).2 (.undeclared 0 hpin), ?_, g, hg⟩
  intro hill
  obtain ⟨e, he⟩ := (hrejects [0] [1]).2 hill
  cases he.symm.trans hg

end Breadboard.Netlist
